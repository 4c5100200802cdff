import Krapi.Messages
import Krapi.Lib.Json

/-! # Encoding and decoding

The hand-written `to_json` and `from_json` pairs: what goes over a data channel
and into the stores is the text of these values. That decoding undoes encoding
is what lets the rest of the development pass values, not texts, between nodes
and stores. -/
namespace Krapi.Codec
open Krapi.BlockchainModels Krapi.Messages Krapi.Lib

/-! ## Enumerations -/

def transactionTypes : EnumTable TransactionType := ⟨(.send, "send"), []⟩

def transactionStatuses : EnumTable TransactionStatus :=
  ⟨(.pending, "pending"), [(.verified, "verified"), (.rejected, "rejected")]⟩

/-- The table leaves `DEFAULT` out. -/
def peerMessageTypes : EnumTable PeerMessageType :=
  ⟨(.peerTypeRequest, "peer_type_request"),
    [(.peerTypeResponse, "peer_type_response"),
     (.addTransaction, "add_transaction"),
     (.removeTransactions, "remove_transactions"),
     (.setTransactionStatus, "set_transaction_status"),
     (.blockHeadersRequest, "block_headers_request"),
     (.blockHeadersResponse, "block_headers_response"),
     (.blockRequest, "block_request"),
     (.blockResponse, "block_response"),
     (.blockNotFoundResponse, "block_not_found_response"),
     (.peerStateRequest, "peer_state_request"),
     (.peerStateResponse, "peer_state_response"),
     (.peerStateUpdate, "peer_state_update"),
     (.addBlock, "add_block"),
     (.blockRejected, "block_rejected"),
     (.blockAccepted, "block_accepted"),
     (.getLastBlockRequest, "get_last_block_request"),
     (.getLastBlockResponse, "get_last_block_response"),
     (.syncPoolRequest, "sync_pool_request"),
     (.transactionsInRequest, "transactions_in_request"),
     (.transactionsInResponse, "transactions_in_response"),
     (.transactionsOutRequest, "transactions_out_request"),
     (.transactionsOutResponse, "transactions_out_response"),
     (.controlIsStartingPing, "control_is_starting_ping"),
     (.controlIsEndingPing, "control_is_ending_ping"),
     (.controlStarted, "control_started"),
     (.controlStopped, "control_stopped"),
     (.controlOperateBetween, "control_operate_between"),
     (.controlResult, "control_result"),
     (.isControlStartedRequest, "is_control_started_request"),
     (.isControlStartedResponse, "is_control_started_response")]⟩

def internalMessageTypes : EnumTable InternalMessageType :=
  ⟨(.sendSignalingMessage, "send_signaling_message"),
    [(.sendPeerMessage, "send_peer_message"),
     (.requestTypeOf, "request_type_of"),
     (.requestStateOf, "request_state_of"),
     (.waitForDataChannelOpen, "wait_for_datachannel_open")]⟩

theorem transactionTypes_fromJson_toJson (type : TransactionType) :
    transactionTypes.fromJson (transactionTypes.toJson type) = type :=
  EnumTable.fromJson_toJson (t := transactionTypes) (by unfold EnumTable.Injective; decide) (by cases type; decide)

theorem transactionStatuses_fromJson_toJson (status : TransactionStatus) :
    transactionStatuses.fromJson (transactionStatuses.toJson status) = status :=
  EnumTable.fromJson_toJson (t := transactionStatuses) (by unfold EnumTable.Injective; decide)
    (by cases status <;> decide)

theorem peerMessageTypes_fromJson_toJson {type : PeerMessageType} (h : type ≠ .default) :
    peerMessageTypes.fromJson (peerMessageTypes.toJson type) = type := by
  apply EnumTable.fromJson_toJson (t := peerMessageTypes)
  · unfold EnumTable.Injective
    decide +kernel
  · cases type with
    | default => exact absurd rfl h
    | _ => decide

theorem internalMessageTypes_fromJson_toJson (type : InternalMessageType) :
    internalMessageTypes.fromJson (internalMessageTypes.toJson type) = type :=
  EnumTable.fromJson_toJson (t := internalMessageTypes) (by unfold EnumTable.Injective; decide)
    (by cases type <;> decide)

/-! ## The bytes of a hash

The constructors decode the hexadecimal hash into an array of 32 bytes that is
zero before: characters that are no digits are skipped, half a byte at the end
is dropped, and so is what does not fit. -/

def hexDigit (c : Char) : Option ℕ :=
  if '0' ≤ c ∧ c ≤ '9' then some (c.toNat - '0'.toNat)
  else if 'A' ≤ c ∧ c ≤ 'F' then some (c.toNat - 'A'.toNat + 10)
  else if 'a' ≤ c ∧ c ≤ 'f' then some (c.toNat - 'a'.toNat + 10)
  else none

def pairDigits : List ℕ → List UInt8
  | high :: low :: rest => UInt8.ofNat (16 * high + low) :: pairDigits rest
  | _ => []

def hashBytes (hash : String) : Vector UInt8 32 :=
  Vector.ofFn fun i => (pairDigits (hash.toList.filterMap hexDigit))[i.val]?.getD 0

example : (hashBytes "00FFa").toList.take 3 = [0, 255, 0] := by decide

/-- A transaction with the bytes of its hash. -/
structure HashedTransaction extends Transaction where
  byteHash : Vector UInt8 32
  byteHash_eq : byteHash = hashBytes hash

structure HashedBlockHeader extends BlockHeader where
  byteHash : Vector UInt8 32
  byteHash_eq : byteHash = hashBytes hash

structure HashedBlock where
  header : HashedBlockHeader
  transactions : List HashedTransaction

/-- The constructors. -/
def HashedTransaction.create (tx : Transaction) : HashedTransaction := ⟨tx, hashBytes tx.hash, rfl⟩

def HashedBlockHeader.create (header : BlockHeader) : HashedBlockHeader :=
  ⟨header, hashBytes header.hash, rfl⟩

theorem HashedTransaction.create_toTransaction (tx : HashedTransaction) : create tx.toTransaction = tx := by
  obtain ⟨tx, bytes, rfl⟩ := tx
  rfl

theorem HashedBlockHeader.create_toBlockHeader (header : HashedBlockHeader) :
    create header.toBlockHeader = header := by
  obtain ⟨header, bytes, rfl⟩ := header
  rfl

/-! ## Transactions -/

namespace HashedTransaction

def fields (tx : HashedTransaction) : List (String × Json) :=
  [("type", transactionTypes.toJson tx.type),
   ("status", transactionStatuses.toJson tx.status),
   ("hash", .string tx.hash),
   ("timestamp", .unsigned tx.timestamp),
   ("from", .string tx.from_),
   ("to", .string tx.to_)]

def toJson (tx : HashedTransaction) : Json := .ofPairs tx.fields

def fromJson (json : Json) : Option HashedTransaction := do
  let type ← json.constIndex "type"
  let status ← json.constIndex "status"
  let hash ← (← json.constIndex "hash").getString
  let timestamp ← (← json.constIndex "timestamp").getUnsigned
  let from_ ← (← json.constIndex "from").getString
  let to_ ← (← json.constIndex "to").getString
  return create ⟨transactionTypes.fromJson type, transactionStatuses.fromJson status, hash, timestamp, from_, to_⟩

theorem fromJson_toJson (tx : HashedTransaction) : fromJson tx.toJson = some tx := by
  have hkeys : (tx.fields.map Prod.fst).Nodup := by simp [fields]
  unfold fromJson toJson
  simp only [Json.constIndex_ofPairs hkeys]
  simp only [fields, List.lookup, String.reduceBEq, beq_self_eq_true,
    Option.bind_eq_bind, Option.bind_some, Json.getString, Json.getUnsigned, transactionTypes_fromJson_toJson,
    transactionStatuses_fromJson_toJson]
  exact congrArg some (create_toTransaction tx)

end HashedTransaction

/-! ## Headers and blocks -/

namespace HashedBlockHeader

def fields (header : HashedBlockHeader) : List (String × Json) :=
  [("hash", .string header.hash),
   ("previous_hash", .string header.previousHash),
   ("merkle_root", .string header.merkleRoot),
   ("mined_by", .string header.minedBy),
   ("timestamp", .unsigned header.timestamp),
   ("nonce", .unsigned header.nonce)]

def toJson (header : HashedBlockHeader) : Json := .ofPairs header.fields

def fromJson (json : Json) : Option HashedBlockHeader := do
  let hash ← (← json.index "hash").getString
  let previousHash ← (← json.index "previous_hash").getString
  let merkleRoot ← (← json.index "merkle_root").getString
  let minedBy ← (← json.index "mined_by").getString
  let timestamp ← (← json.index "timestamp").getUnsigned
  let nonce ← (← json.index "nonce").getUnsigned
  return create ⟨hash, previousHash, merkleRoot, minedBy, timestamp, nonce⟩

theorem fromJson_toJson (header : HashedBlockHeader) : fromJson header.toJson = some header := by
  have hkeys : (header.fields.map Prod.fst).Nodup := by simp [fields]
  unfold fromJson toJson
  simp only [Json.index_ofPairs hkeys]
  simp only [fields, List.lookup, String.reduceBEq, beq_self_eq_true,
    Option.bind_eq_bind, Option.bind_some, Option.getD_some, Json.getString, Json.getUnsigned]
  exact congrArg some (create_toBlockHeader header)

end HashedBlockHeader

section Lists
variable {A : Type*} {toJson : A → Json} {fromJson : Json → Option A}

/-- A list that is encoded element by element is decoded element by element. -/
theorem mapM_fromJson_map_toJson (h : ∀ a, fromJson (toJson a) = some a) :
    ∀ l : List A, (l.map toJson).mapM fromJson = some l
  | [] => rfl
  | a :: rest => by
    rw [List.map_cons, List.mapM_cons, h a, mapM_fromJson_map_toJson h rest]
    rfl

end Lists

namespace HashedBlock

def fields (block : HashedBlock) : List (String × Json) :=
  [("header", block.header.toJson),
   ("transactions", .array (block.transactions.map HashedTransaction.toJson))]

def toJson (block : HashedBlock) : Json := .ofPairs block.fields

def fromJson (json : Json) : Option HashedBlock := do
  let transactions ← (← json.constIndex "transactions").elements.mapM HashedTransaction.fromJson
  let header ← HashedBlockHeader.fromJson (← json.constIndex "header")
  return ⟨header, transactions⟩

theorem fromJson_toJson (block : HashedBlock) : fromJson block.toJson = some block := by
  have hkeys : (block.fields.map Prod.fst).Nodup := by simp [fields]
  unfold fromJson toJson
  simp only [Json.constIndex_ofPairs hkeys]
  simp only [fields, List.lookup, String.reduceBEq, beq_self_eq_true, Option.bind_eq_bind, Option.bind_some,
    Json.elements, mapM_fromJson_map_toJson HashedTransaction.fromJson_toJson, HashedBlockHeader.fromJson_toJson]
  rfl

end HashedBlock

structure BlockHeadersResponseContent where
  headers : List HashedBlockHeader

namespace BlockHeadersResponseContent

def fields (content : BlockHeadersResponseContent) : List (String × Json) :=
  [("headers", .array (content.headers.map HashedBlockHeader.toJson))]

def toJson (content : BlockHeadersResponseContent) : Json := .ofPairs content.fields

def fromJson (json : Json) : Option BlockHeadersResponseContent := do
  let headers ← (← json.index "headers").elements.mapM HashedBlockHeader.fromJson
  return ⟨headers⟩

theorem fromJson_toJson (content : BlockHeadersResponseContent) : fromJson content.toJson = some content := by
  have hkeys : (content.fields.map Prod.fst).Nodup := by simp [fields]
  unfold fromJson toJson
  simp only [Json.index_ofPairs hkeys]
  simp only [fields, List.lookup, beq_self_eq_true, Option.bind_eq_bind, Option.bind_some, Option.getD_some,
    Json.elements, mapM_fromJson_map_toJson HashedBlockHeader.fromJson_toJson]
  rfl

end BlockHeadersResponseContent

/-! ## Messages -/

def peerMessageFields (m : PeerMessage Json) : List (String × Json) :=
  [("type", peerMessageTypes.toJson m.type),
   ("sender_identity", .string m.senderIdentity),
   ("receiver_identity", .string m.receiverIdentity),
   ("tag", .string m.tag),
   ("content", m.content),
   ("timestamp", .unsigned m.timestamp)]

def peerMessageToJson (m : PeerMessage Json) : Json := .ofPairs (peerMessageFields m)

def peerMessageFromJson (json : Json) : Option (PeerMessage Json) := do
  let type ← json.index "type"
  let senderIdentity ← (← json.index "sender_identity").getString
  let receiverIdentity ← (← json.index "receiver_identity").getString
  let tag ← (← json.index "tag").getString
  let timestamp ← (← json.index "timestamp").getUnsigned
  let content ← json.index "content"
  return ⟨peerMessageTypes.fromJson type, senderIdentity, receiverIdentity, tag, content, timestamp⟩

/-- The count of the retries is not written. -/
def internalMessageFields (m : InternalMessage (PeerMessage Json)) : List (String × Json) :=
  [("type", internalMessageTypes.toJson m.type),
   ("content", peerMessageToJson m.content),
   ("timestamp", .unsigned m.timestamp)]

def internalMessageToJson (m : InternalMessage (PeerMessage Json)) : Json := .ofPairs (internalMessageFields m)

def internalMessageFromJson (json : Json) : Option (InternalMessage (PeerMessage Json)) := do
  let type ← json.index "type"
  let content ← peerMessageFromJson (← json.index "content")
  let timestamp ← (← json.index "timestamp").getUnsigned
  return { type := internalMessageTypes.fromJson type, content, timestamp }

theorem peerMessageFromJson_toJson {m : PeerMessage Json} (h : m.type ≠ .default) :
    peerMessageFromJson (peerMessageToJson m) = some m := by
  have hkeys : ((peerMessageFields m).map Prod.fst).Nodup := by simp [peerMessageFields]
  unfold peerMessageFromJson peerMessageToJson
  simp only [Json.index_ofPairs hkeys]
  simp only [peerMessageFields, List.lookup, String.reduceBEq, beq_self_eq_true,
    Option.bind_eq_bind, Option.bind_some, Option.getD_some, Json.getString, Json.getUnsigned,
    peerMessageTypes_fromJson_toJson h]
  rfl

theorem internalMessageFromJson_toJson {m : InternalMessage (PeerMessage Json)} (h : m.content.type ≠ .default) :
    internalMessageFromJson (internalMessageToJson m) = some m.resetRetryCount := by
  have hkeys : ((internalMessageFields m).map Prod.fst).Nodup := by simp [internalMessageFields]
  unfold internalMessageFromJson internalMessageToJson
  simp only [Json.index_ofPairs hkeys]
  simp only [internalMessageFields, List.lookup, String.reduceBEq, beq_self_eq_true,
    Option.bind_eq_bind, Option.bind_some, Option.getD_some, Json.getUnsigned, peerMessageFromJson_toJson h,
    internalMessageTypes_fromJson_toJson]
  rfl

/-- **Decoding undoes encoding.** For transactions, headers, blocks and lists of
headers with the bytes of their hashes, for peer messages of every type the table
lists with any content, and for the orders around them, except that these come
back with no retries counted. -/
theorem decode_encode :
    (∀ tx : HashedTransaction, HashedTransaction.fromJson tx.toJson = some tx) ∧
    (∀ header : HashedBlockHeader, HashedBlockHeader.fromJson header.toJson = some header) ∧
    (∀ block : HashedBlock, HashedBlock.fromJson block.toJson = some block) ∧
    (∀ content : BlockHeadersResponseContent, BlockHeadersResponseContent.fromJson content.toJson = some content) ∧
    (∀ m : PeerMessage Json, m.type ≠ .default → peerMessageFromJson (peerMessageToJson m) = some m) ∧
    (∀ m : InternalMessage (PeerMessage Json), m.content.type ≠ .default →
      internalMessageFromJson (internalMessageToJson m) = some m.resetRetryCount) :=
  ⟨HashedTransaction.fromJson_toJson, HashedBlockHeader.fromJson_toJson, HashedBlock.fromJson_toJson,
    BlockHeadersResponseContent.fromJson_toJson, fun _ => peerMessageFromJson_toJson,
    fun _ => internalMessageFromJson_toJson⟩

/-- An order to send a block, on its third try. -/
def thirdTry : InternalMessage (PeerMessage Json) :=
  ⟨.sendPeerMessage, ⟨.addBlock, "a", "b", "tag", .array [.unsigned 0, .null], 18446744073709551615⟩, 7, 2⟩

theorem decode_encode_thirdTry :
    internalMessageFromJson (internalMessageToJson thirdTry) = some { thirdTry with retryCount := 0 } :=
  decode_encode.2.2.2.2.2 thirdTry (by decide)

end Krapi.Codec
