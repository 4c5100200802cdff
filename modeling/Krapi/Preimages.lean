import Krapi.Mining
import Krapi.Wallets

/-! # What the hashed strings stand for

The hash of a transaction and that of a block are digests of their fields,
written one after the other with nothing in between. Previous hash and Merkle
root have their length; a numeral and an identity have not, and where one field
ends and the next begins is not in the string. It is determined once all but one
of the lengths are known, as with identities of one length or clocks that show
numerals of one length. -/
namespace Krapi.Preimages
open Krapi.BlockchainModels Krapi.Mining
open Krapi.Wallets (newTransaction)

/-- A string in two parts, one of a known length. -/
theorem append_inj {a b a' b' : String} (h : a ++ b = a' ++ b')
    (hlength : a.length = a'.length ∨ b.length = b'.length) : a = a' ∧ b = b' := by
  have htotal : a.length + b.length = a'.length + b'.length := by
    rw [← String.length_append, h, String.length_append]
  have hfirst : a.toList.length = a'.toList.length := by
    rw [String.length_toList, String.length_toList]
    omega
  have hlists := congrArg String.toList h
  rw [String.toList_append, String.toList_append] at hlists
  obtain ⟨ha, hb⟩ := List.append_inj hlists hfirst
  exact ⟨String.toList_inj.mp ha, String.toList_inj.mp hb⟩

/-- A number as it is formatted. -/
def numeral (n : UInt64) : String := toString n.toNat

/-- How many digits it is written with. -/
def digits (n : UInt64) : ℕ := (numeral n).length

theorem numeral_inj {m n : UInt64} (h : numeral m = numeral n) : m = n :=
  UInt64.toNat_inj.mp (Nat.repr_inj.mp h)

/-- Timestamp, sender and receiver, as far as the lengths tell them apart. -/
theorem walletPreimage_inj {timestamp timestamp' : UInt64} {myId myId' receiverId receiverId' : String}
    (h : Wallets.preimage timestamp myId receiverId = Wallets.preimage timestamp' myId' receiverId')
    (hsender : myId.length = myId'.length)
    (hother : digits timestamp = digits timestamp' ∨ receiverId.length = receiverId'.length) :
    timestamp = timestamp' ∧ myId = myId' ∧ receiverId = receiverId' := by
  have hparts : (numeral timestamp ++ myId) ++ receiverId = (numeral timestamp' ++ myId') ++ receiverId' := by
    unfold Wallets.preimage at h
    simp only [String.append_assoc] at h ⊢
    exact (String.append_right_inj "send_tx").mp h
  obtain ⟨hfirst, hreceiver⟩ := append_inj hparts (by
    rcases hother with hdigits | hreceiver
    · refine .inl ?_
      rw [String.length_append, String.length_append, hsender]
      exact congrArg (· + myId'.length) hdigits
    · exact .inr hreceiver)
  obtain ⟨htime, hme⟩ := append_inj hfirst (.inr hsender)
  exact ⟨numeral_inj htime, hme, hreceiver⟩

variable {previousHash previousHash' merkleRoot merkleRoot' : String} {timestamp timestamp' nonce nonce' : UInt64}

/-- Previous hash and Merkle root can be told, and so can the two numerals together. -/
theorem headerPreimage_inj
    (h : preimage previousHash merkleRoot timestamp nonce = preimage previousHash' merkleRoot' timestamp' nonce')
    (hprevious : previousHash.length = previousHash'.length) (hroot : merkleRoot.length = merkleRoot'.length) :
    previousHash = previousHash' ∧ merkleRoot = merkleRoot' ∧
      numeral timestamp ++ numeral nonce = numeral timestamp' ++ numeral nonce' := by
  have hparts : previousHash ++ (merkleRoot ++ (numeral timestamp ++ numeral nonce)) =
      previousHash' ++ (merkleRoot' ++ (numeral timestamp' ++ numeral nonce')) := by
    unfold preimage at h
    simp only [String.append_assoc] at h
    exact h
  obtain ⟨hp, hrest⟩ := append_inj hparts (.inl hprevious)
  obtain ⟨hm, hnumerals⟩ := append_inj hrest (.inl hroot)
  exact ⟨hp, hm, hnumerals⟩

theorem numerals_inj (h : numeral timestamp ++ numeral nonce = numeral timestamp' ++ numeral nonce')
    (hdigits : digits timestamp = digits timestamp' ∨ digits nonce = digits nonce') :
    timestamp = timestamp' ∧ nonce = nonce' := by
  obtain ⟨htime, hnonce⟩ := append_inj h hdigits
  exact ⟨numeral_inj htime, numeral_inj hnonce⟩

/-- What the numerals of a header determine of it. -/
def SameHeader (b b' : Block) : Prop :=
  b.previousHash = b'.previousHash ∧ b.header.merkleRoot = b'.header.merkleRoot ∧
    (digits b.timestamp = digits b'.timestamp ∨ digits b.header.nonce = digits b'.header.nonce →
      b.timestamp = b'.timestamp ∧ b.header.nonce = b'.header.nonce)

/-- **The hashed strings determine what they stand for where the lengths do.** Two
transactions have one preimage only if they are equal, provided that their senders
are equally long and so are their timestamps or their receivers; two headers with
hashes of 64 digits only if they name the same previous block and Merkle root, and
the same timestamp and nonce if either of these is equally long in both. Where the
digest has no collisions, the same holds of hashes. -/
theorem preimages_determine :
    (∀ timestamp timestamp' myId myId' receiverId receiverId', myId.length = myId'.length →
      (digits timestamp = digits timestamp' ∨ receiverId.length = receiverId'.length) →
        Wallets.preimage timestamp myId receiverId = Wallets.preimage timestamp' myId' receiverId' →
          timestamp = timestamp' ∧ myId = myId' ∧ receiverId = receiverId') ∧
    (∀ previousHash previousHash' merkleRoot merkleRoot' timestamp timestamp' nonce nonce',
      previousHash.length = 64 → previousHash'.length = 64 → merkleRoot.length = 64 → merkleRoot'.length = 64 →
        preimage previousHash merkleRoot timestamp nonce = preimage previousHash' merkleRoot' timestamp' nonce' →
          previousHash = previousHash' ∧ merkleRoot = merkleRoot' ∧
            (digits timestamp = digits timestamp' ∨ digits nonce = digits nonce' →
              timestamp = timestamp' ∧ nonce = nonce')) ∧
    ∀ D : Digest, Function.Injective D.sha256Hex →
      (∀ timestamp timestamp' myId myId' receiverId receiverId', myId.length = myId'.length →
        (digits timestamp = digits timestamp' ∨ receiverId.length = receiverId'.length) →
          (newTransaction D timestamp myId receiverId).hash = (newTransaction D timestamp' myId' receiverId').hash →
            newTransaction D timestamp myId receiverId = newTransaction D timestamp' myId' receiverId') ∧
      ∀ previousHash previousHash' identity identity' txs txs' clock clock' fuel fuel' b b',
        miningFunction D previousHash identity txs clock fuel = some b →
        miningFunction D previousHash' identity' txs' clock' fuel' = some b' →
        b.previousHash.length = 64 → b'.previousHash.length = 64 → b.header.merkleRoot.length = 64 →
        b'.header.merkleRoot.length = 64 → b.hash = b'.hash → SameHeader b b' := by
  have hwallet : ∀ timestamp timestamp' myId myId' receiverId receiverId', myId.length = myId'.length →
      (digits timestamp = digits timestamp' ∨ receiverId.length = receiverId'.length) →
        Wallets.preimage timestamp myId receiverId = Wallets.preimage timestamp' myId' receiverId' →
          timestamp = timestamp' ∧ myId = myId' ∧ receiverId = receiverId' :=
    fun _ _ _ _ _ _ hsender hother h => walletPreimage_inj h hsender hother
  have hheader : ∀ previousHash previousHash' merkleRoot merkleRoot' timestamp timestamp' nonce nonce',
      previousHash.length = 64 → previousHash'.length = 64 → merkleRoot.length = 64 → merkleRoot'.length = 64 →
        preimage previousHash merkleRoot timestamp nonce = preimage previousHash' merkleRoot' timestamp' nonce' →
          previousHash = previousHash' ∧ merkleRoot = merkleRoot' ∧
            (digits timestamp = digits timestamp' ∨ digits nonce = digits nonce' →
              timestamp = timestamp' ∧ nonce = nonce') := by
    intro _ _ _ _ _ _ _ _ hp hp' hm hm' h
    obtain ⟨hprevious, hroot, hnumerals⟩ := headerPreimage_inj h (hp.trans hp'.symm) (hm.trans hm'.symm)
    exact ⟨hprevious, hroot, numerals_inj hnumerals⟩
  refine ⟨hwallet, hheader, fun D hcollision => ⟨?_, ?_⟩⟩
  · intro timestamp timestamp' myId myId' receiverId receiverId' hsender hother hhash
    obtain ⟨rfl, rfl, rfl⟩ := hwallet _ _ _ _ _ _ hsender hother (hcollision hhash)
    rfl
  · intro _ _ _ _ _ _ _ _ _ _ b b' hb hb' hp hp' hm hm' hhash
    rw [mineFrom_hash hb, mineFrom_hash hb'] at hhash
    exact hheader _ _ _ _ _ _ _ _ hp hp' hm hm' (hcollision hhash)

/-- Identities of one length, a digest without collisions, and the timestamp that
`preimages_ambiguous` parts, with nonces of two digits. -/
theorem preimages_determine_sameLengths :
    (newTransaction ⟨id, fun _ => ""⟩ 1670000000000 "voter1" "10").hash ≠
      (newTransaction ⟨id, fun _ => ""⟩ 1670000000000 "voter2" "10").hash ∧
    ∀ timestamp nonce, digits nonce = 2 →
      preimage "6FBA8017848885FB34C183BF4B6015D9C53307ABCD1F86505A271ED4B387265A"
          "BFA686A64057E2AB97AD87B7B9B5973FA757DC5FE104364AE6D49F61698DE7F3" 1670000027667 10 =
        preimage "6FBA8017848885FB34C183BF4B6015D9C53307ABCD1F86505A271ED4B387265A"
          "BFA686A64057E2AB97AD87B7B9B5973FA757DC5FE104364AE6D49F61698DE7F3" timestamp nonce →
      timestamp = 1670000027667 ∧ nonce = 10 := by
  constructor
  · intro h
    have hsame := (preimages_determine.2.2 ⟨id, fun _ => ""⟩ Function.injective_id).1 1670000000000 1670000000000
      "voter1" "voter2" "10" "10" (by decide) (.inl rfl) h
    revert hsame
    decide
  · intro timestamp nonce hdigits h
    obtain ⟨-, -, hnumerals⟩ := preimages_determine.2.1 _ _ _ _ _ _ _ _ (by decide +kernel) (by decide +kernel)
      (by decide +kernel) (by decide +kernel) h
    obtain ⟨htime, hnonce⟩ := hnumerals (.inr (.trans (by decide +kernel) hdigits.symm))
    exact ⟨htime.symm, hnonce.symm⟩

/-- One string stands for a vote of `voter1` for `0` and one of `voter` for `10`, and
one for two headers that part timestamp and nonce differently. -/
theorem preimages_ambiguous :
    (¬ ∀ timestamp timestamp' myId myId' receiverId receiverId',
      Wallets.preimage timestamp myId receiverId = Wallets.preimage timestamp' myId' receiverId' →
        timestamp = timestamp' ∧ myId = myId' ∧ receiverId = receiverId') ∧
    ¬ ∀ previousHash previousHash' merkleRoot merkleRoot' timestamp timestamp' nonce nonce',
      previousHash.length = 64 → previousHash'.length = 64 → merkleRoot.length = 64 → merkleRoot'.length = 64 →
        preimage previousHash merkleRoot timestamp nonce = preimage previousHash' merkleRoot' timestamp' nonce' →
          previousHash = previousHash' ∧ merkleRoot = merkleRoot' ∧ timestamp = timestamp' ∧ nonce = nonce' := by
  refine ⟨fun h => ?_, fun h => ?_⟩
  · have hsame := h 1670000000000 1670000000000 "voter1" "voter" "0" "10" (by decide +kernel)
    revert hsame
    decide
  · have hsame := h
      "6FBA8017848885FB34C183BF4B6015D9C53307ABCD1F86505A271ED4B387265A"
      "6FBA8017848885FB34C183BF4B6015D9C53307ABCD1F86505A271ED4B387265A"
      "BFA686A64057E2AB97AD87B7B9B5973FA757DC5FE104364AE6D49F61698DE7F3"
      "BFA686A64057E2AB97AD87B7B9B5973FA757DC5FE104364AE6D49F61698DE7F3"
      1670000027667 16700000276671 10 0
      (by decide +kernel) (by decide +kernel) (by decide +kernel) (by decide +kernel) (by decide +kernel)
    revert hsame
    decide

end Krapi.Preimages
