import Krapi.Codec

/-! # What the decoders accept

A decoder reads whatever text a peer sends. Strings and numbers it turns down if
they are none, but a type or a status goes through a table, and what the table
does not list counts as its first entry. So what is read is written back as it
was exactly if those fields are listed; a message of an unknown type turns into
a request for this node's type, which is answered. -/
namespace Krapi.Decoding
open Krapi.BlockchainModels Krapi.Messages Krapi.Lib Krapi.Codec

/-- Under every key that was written, `json` has the value that was written. -/
def SameUnderWritten (json written : Json) : Prop :=
  ∀ key value, written.constIndex key = some value → json.constIndex key = some value

/-- The field of `json` is an unsigned number of 64 bits. -/
def IsUnsigned (json : Json) (key : String) : Prop := ∃ n, json.constIndex key = some (.unsigned n)

/-- The field of `json` is there, and its value listed by the table. -/
def IsListed {E : Type} (t : EnumTable E) (json : Json) (key : String) : Prop :=
  ∃ value, json.constIndex key = some value ∧ t.Lists value

theorem sameUnderWritten_ofPairs {pairs : List (String × Json)} (hkeys : (pairs.map Prod.fst).Nodup) (json : Json) :
    SameUnderWritten json (.ofPairs pairs) ↔ ∀ pair ∈ pairs, json.constIndex pair.1 = some pair.2 := by
  unfold SameUnderWritten
  simp only [Json.constIndex_ofPairs hkeys]
  constructor
  · intro hsame pair hpair
    cases hlookup : pairs.lookup pair.1 with
    | none =>
      have hne := List.lookup_eq_none_iff.mp hlookup pair hpair
      simp at hne
    | some value =>
      obtain ⟨before, rest, he, _⟩ := List.lookup_eq_some_iff.mp hlookup
      have hmem : (pair.1, value) ∈ pairs := by rw [he]; simp
      have hpaired : (pair.1, value) = pair := List.inj_on_of_nodup_map hkeys hmem hpair rfl
      rw [hsame _ _ hlookup, ← hpaired]
  · intro hsame key value hlookup
    obtain ⟨before, rest, he, _⟩ := List.lookup_eq_some_iff.mp hlookup
    exact hsame (key, value) (by rw [he]; simp)

/-! ## Single fields -/

section Fields

variable {E : Type} {t : EnumTable E} {json value : Json} {key : String}

theorem isListed_iff [DecidableEq E] (hvalues : (t.entries.map Prod.fst).Nodup)
    (hvalue : json.constIndex key = some value) :
    json.constIndex key = some (t.toJson (t.fromJson value)) ↔ IsListed t json key := by
  unfold IsListed
  rw [hvalue]
  simp only [Option.some.injEq, exists_eq_left']
  rw [eq_comm]
  exact EnumTable.toJson_fromJson_iff hvalues value

/-- Whatever `operator[]` reads and does not add is there. -/
theorem constIndex_of_index (h : json.index key = some value) (hnull : value ≠ .null) :
    json.constIndex key = some value := by
  cases json with
  | object members =>
    simp only [Json.index] at h
    show members.lookup key = some value
    cases hlookup : members.lookup key with
    | none =>
      rw [hlookup] at h
      exact absurd (Option.some.inj h).symm hnull
    | some found =>
      rw [hlookup] at h
      exact h
  | null => exact absurd (Option.some.inj h).symm hnull
  | _ => cases h

theorem index_of_constIndex (h : json.constIndex key = some value) : json.index key = some value := by
  cases json with
  | object members =>
    have hlookup : members.lookup key = some value := h
    simp only [Json.index]
    rw [hlookup]
    rfl
  | _ => cases h

theorem getString_eq_some {s : String} (h : value.getString = some s) : value = .string s := by
  cases value with
  | string s' => exact congrArg Json.string (Option.some.inj h)
  | _ => cases h

theorem string_of_index {s : String} (h : (json.index key).bind Json.getString = some s) :
    json.constIndex key = some (.string s) := by
  obtain ⟨value, hvalue, hstring⟩ := Option.bind_eq_some_iff.mp h
  obtain rfl := getString_eq_some hstring
  exact constIndex_of_index hvalue (by simp)

theorem string_of_constIndex {s : String} (h : (json.constIndex key).bind Json.getString = some s) :
    json.constIndex key = some (.string s) := by
  obtain ⟨value, hvalue, hstring⟩ := Option.bind_eq_some_iff.mp h
  obtain rfl := getString_eq_some hstring
  exact hvalue

theorem unsigned_of_constIndex {n : UInt64} (hnumber : IsUnsigned json key)
    (h : (json.constIndex key).bind Json.getUnsigned = some n) : json.constIndex key = some (.unsigned n) := by
  obtain ⟨m, hm⟩ := hnumber
  rw [hm] at h
  obtain rfl : m = n := Option.some.inj h
  exact hm

theorem unsigned_of_index {n : UInt64} (hnumber : IsUnsigned json key)
    (h : (json.index key).bind Json.getUnsigned = some n) : json.constIndex key = some (.unsigned n) := by
  obtain ⟨m, hm⟩ := hnumber
  rw [index_of_constIndex hm] at h
  obtain rfl : m = n := Option.some.inj h
  exact hm

end Fields

/-! ## Transactions and messages -/

theorem transactionTypes_values : (transactionTypes.entries.map Prod.fst).Nodup := by decide

theorem transactionStatuses_values : (transactionStatuses.entries.map Prod.fst).Nodup := by decide

theorem peerMessageTypes_values : (peerMessageTypes.entries.map Prod.fst).Nodup := by decide

/-- Type and status are the only fields of a transaction that can change. -/
theorem transaction_same_iff {json : Json} {tx : HashedTransaction} (h : HashedTransaction.fromJson json = some tx)
    (hnumber : IsUnsigned json "timestamp") :
    SameUnderWritten json tx.toJson ↔
      IsListed transactionTypes json "type" ∧ IsListed transactionStatuses json "status" := by
  unfold HashedTransaction.fromJson at h
  simp only [Option.bind_eq_bind, Option.pure_def] at h
  obtain ⟨type, htype, h⟩ := Option.bind_eq_some_iff.mp h
  obtain ⟨status, hstatus, h⟩ := Option.bind_eq_some_iff.mp h
  rw [← Option.bind_assoc] at h
  obtain ⟨hash, hhash, h⟩ := Option.bind_eq_some_iff.mp h
  rw [← Option.bind_assoc] at h
  obtain ⟨timestamp, htimestamp, h⟩ := Option.bind_eq_some_iff.mp h
  rw [← Option.bind_assoc] at h
  obtain ⟨from_, hfrom, h⟩ := Option.bind_eq_some_iff.mp h
  rw [← Option.bind_assoc] at h
  obtain ⟨to_, hto, h⟩ := Option.bind_eq_some_iff.mp h
  cases h
  have hkeys : ((HashedTransaction.create ⟨transactionTypes.fromJson type, transactionStatuses.fromJson status,
      hash, timestamp, from_, to_⟩).fields.map Prod.fst).Nodup := by
    simp [HashedTransaction.fields]
  rw [HashedTransaction.toJson, sameUnderWritten_ofPairs hkeys]
  simp only [HashedTransaction.fields, HashedTransaction.create, List.forall_mem_cons, List.not_mem_nil,
    false_implies, implies_true, and_true]
  rw [isListed_iff transactionTypes_values htype, isListed_iff transactionStatuses_values hstatus,
    string_of_constIndex hhash, unsigned_of_constIndex hnumber htimestamp, string_of_constIndex hfrom,
    string_of_constIndex hto]
  simp

/-- What an accepted message was read from. -/
theorem read_of_peerMessageFromJson {json : Json} {m : PeerMessage Json} (h : peerMessageFromJson json = some m) :
    (∃ type, json.index "type" = some type ∧ m.type = peerMessageTypes.fromJson type) ∧
      (json.index "sender_identity").bind Json.getString = some m.senderIdentity ∧
      (json.index "receiver_identity").bind Json.getString = some m.receiverIdentity ∧
      (json.index "tag").bind Json.getString = some m.tag ∧
      (json.index "timestamp").bind Json.getUnsigned = some m.timestamp ∧
      json.index "content" = some m.content := by
  unfold peerMessageFromJson at h
  simp only [Option.bind_eq_bind, Option.pure_def] at h
  obtain ⟨type, htype, h⟩ := Option.bind_eq_some_iff.mp h
  rw [← Option.bind_assoc] at h
  obtain ⟨senderIdentity, hsender, h⟩ := Option.bind_eq_some_iff.mp h
  rw [← Option.bind_assoc] at h
  obtain ⟨receiverIdentity, hreceiver, h⟩ := Option.bind_eq_some_iff.mp h
  rw [← Option.bind_assoc] at h
  obtain ⟨mtag, htag, h⟩ := Option.bind_eq_some_iff.mp h
  rw [← Option.bind_assoc] at h
  obtain ⟨timestamp, htimestamp, h⟩ := Option.bind_eq_some_iff.mp h
  obtain ⟨content, hcontent, h⟩ := Option.bind_eq_some_iff.mp h
  cases h
  exact ⟨⟨type, htype, rfl⟩, hsender, hreceiver, htag, htimestamp, hcontent⟩

/-- The type of a message can change, and a content that is missing becomes null. -/
theorem peerMessage_same_iff {json : Json} {m : PeerMessage Json} (h : peerMessageFromJson json = some m)
    (hnumber : IsUnsigned json "timestamp") :
    SameUnderWritten json (peerMessageToJson m) ↔
      IsListed peerMessageTypes json "type" ∧ (json.constIndex "content").isSome = true := by
  obtain ⟨⟨type, htype, hm⟩, hsender, hreceiver, htag, htimestamp, hcontent⟩ := read_of_peerMessageFromJson h
  have hkeys : ((peerMessageFields m).map Prod.fst).Nodup := by simp [peerMessageFields]
  rw [peerMessageToJson, sameUnderWritten_ofPairs hkeys]
  simp only [peerMessageFields, List.forall_mem_cons, List.not_mem_nil, false_implies, implies_true, and_true]
  rw [hm, string_of_index hsender, string_of_index hreceiver, string_of_index htag,
    unsigned_of_index hnumber htimestamp]
  have htypes : json.constIndex "type" = some (peerMessageTypes.toJson (peerMessageTypes.fromJson type)) ↔
      IsListed peerMessageTypes json "type" := by
    cases hfound : json.constIndex "type" with
    | some found =>
      rw [index_of_constIndex hfound] at htype
      obtain rfl := Option.some.inj htype
      rw [← hfound]
      exact isListed_iff peerMessageTypes_values hfound
    | none =>
      refine ⟨fun he => (by cases he), ?_⟩
      rintro ⟨value, hvalue, _⟩
      rw [hfound] at hvalue
      cases hvalue
  have hcontents : json.constIndex "content" = some m.content ↔ (json.constIndex "content").isSome = true := by
    cases hfound : json.constIndex "content" with
    | some found =>
      rw [index_of_constIndex hfound] at hcontent
      simpa using hcontent
    | none => simp
  rw [htypes, hcontents]
  simp

/-- **Encoding undoes decoding exactly where the tables list what was read.** For
every JSON that a decoder accepts and whose timestamp is a number of 64 bits: all
that is written has the value that was read if and only if type and status of the
transaction are listed, or, of a message, its type is listed and its content there. -/
theorem encode_decode_iff (json : Json) (hnumber : IsUnsigned json "timestamp") :
    (∀ tx, HashedTransaction.fromJson json = some tx →
      (SameUnderWritten json tx.toJson ↔
        IsListed transactionTypes json "type" ∧ IsListed transactionStatuses json "status")) ∧
    ∀ m, peerMessageFromJson json = some m →
      (SameUnderWritten json (peerMessageToJson m) ↔
        IsListed peerMessageTypes json "type" ∧ (json.constIndex "content").isSome = true) :=
  ⟨fun _ h => transaction_same_iff h hnumber, fun _ h => peerMessage_same_iff h hnumber⟩

theorem encode_decode_iff_notFound :
    SameUnderWritten
      (.ofPairs [("type", .string "block_not_found_response"), ("sender_identity", .string "a"),
        ("receiver_identity", .string "b"), ("tag", .string "tag"), ("content", .null), ("timestamp", .unsigned 7)])
      (peerMessageToJson ⟨.blockNotFoundResponse, "a", "b", "tag", .null, 7⟩) :=
  ((encode_decode_iff _ ⟨7, by rfl⟩).2 _ (by rfl)).mpr
    ⟨⟨.string "block_not_found_response", by rfl, (.blockNotFoundResponse, "block_not_found_response"),
      by decide, rfl⟩, by rfl⟩

/-- A message of a later version of the program. -/
def foreignMessage : Json :=
  .ofPairs [("type", .string "peer_version_request"), ("sender_identity", .string "a"),
    ("receiver_identity", .string "b"), ("tag", .string "tag"), ("content", .null), ("timestamp", .unsigned 7)]

theorem foreign_message_changes_type :
    ¬ ∀ json m, peerMessageFromJson json = some m → IsUnsigned json "timestamp" →
      SameUnderWritten json (peerMessageToJson m) := by
  intro h
  have hread : peerMessageFromJson foreignMessage = some ⟨.peerTypeRequest, "a", "b", "tag", .null, 7⟩ := by rfl
  have hsame := h _ _ hread ⟨7, by rfl⟩ "type" (.string "peer_type_request") (by rfl)
  have htype : foreignMessage.constIndex "type" = some (.string "peer_version_request") := by rfl
  rw [htype] at hsame
  revert hsame
  simp

end Krapi.Decoding
