import Krapi.ChainInvariant
import Krapi.Mining

/-! # What the miner makes and what the validator lets in

The miner's exit test and the validator's header checks are written apart. The
miner hashes a header over the Merkle root of the batch and stops at a digest
that shows work and is smaller than the hash it builds on. The validator reads
the hash as a string: it looks at its first four characters and never computes
a digest. What this costs over a run is exact: the chain is as the miner would
have made it, or can still be mined on, precisely as long as the blocks let in
are of that kind. -/
namespace Krapi.ProofOfWork
open Krapi.BlockchainModels Krapi.DBInterface Krapi.ChainStore Krapi.Validator Krapi.Pool
open Krapi.Handlers Krapi.ChainInvariant Krapi.Mining Krapi.Lib.Run Krapi.Lib.Timeline

variable {D : Digest} {n : Node} {b : Block} {e : Event}

/-! ## One event on a chain -/

/-- The block that the event writes into the chain: one that passes, under a hash not stored yet. -/
def written (n : Node) (e : Event) : Option Block :=
  e.block?.filter fun b => decide (Accepts n b) && !n.blockchain.contains b.hash

theorem written_eq_some : written n e = some b ↔
    e.block? = some b ∧ Accepts n b ∧ n.blockchain.contains b.hash = false := by
  simp [written, Option.filter_eq_some_iff]

/-- An event changes the chain only by the block it writes. -/
theorem handle_blockchain (n : Node) (e : Event) :
    (handle n e).blockchain =
      ((written n e).map fun b => (n.blockchain.put b.verified).2).getD n.blockchain := by
  cases hw : written n e with
  | some b =>
    obtain ⟨hb, hacc, _⟩ := written_eq_some.mp hw
    rw [handle_block n hb, if_pos hacc]
    rfl
  | none =>
    rcases handle_cases n e with h | ⟨tx, room, _, _, _, h⟩ | ⟨b, hb, hacc, h⟩
    · rw [h]; rfl
    · rw [h]; rfl
    · have hc : n.blockchain.contains b.hash = true := by
        cases hc : n.blockchain.contains b.hash with
        | true => rfl
        | false => rw [written_eq_some.mpr ⟨hb, hacc, hc⟩] at hw; cases hw
      rw [h]
      exact DBInternface.put_of_contains hc

/-! ## Whether the work covers the block -/

/-- What `mining_function` guarantees of its output: the hash is the digest of
the header, it is smaller than the hash it builds on, and the Merkle root is
that of the listed transactions. -/
structure Covered (D : Digest) (b : Block) : Prop where
  digest : b.hash = D.sha256Hex (preimage b.previousHash b.header.merkleRoot b.timestamp b.header.nonce)
  smaller : b.hash < b.previousHash
  root : b.header.merkleRoot = D.merkleRoot b.hashes

/-- One round of the miner's loop on the block's own fields gives the block again. -/
def Remined (D : Digest) (b : Block) : Prop :=
  mineFrom D b.previousHash b.header.minedBy (D.merkleRoot b.hashes) b.timestamp b.transactions 1
    b.header.nonce = some b

instance (D : Digest) (b : Block) : Decidable (Remined D b) := inferInstanceAs (Decidable (_ = _))

theorem mineFrom_covered {previousHash identity : String} {timestamp : UInt64} {txs : List Transaction}
    {fuel : ℕ} {nonce : UInt64}
    (h : mineFrom D previousHash identity (D.merkleRoot (txs.map Transaction.hash)) timestamp txs fuel
      nonce = some b) : startsWith b.hash "0000" = true ∧ Covered D b := by
  induction fuel generalizing nonce with
  | zero => cases h
  | succ fuel ih =>
    unfold mineFrom at h
    simp only at h
    split at h
    · rename_i hexit
      obtain ⟨hwork, hless⟩ := Bool.and_eq_true_iff.mp hexit
      cases h
      exact ⟨hwork, rfl, of_decide_eq_true hless, rfl⟩
    · exact ih h

/-- Every block that the miner makes is covered by its work. -/
theorem miningFunction_covered {previousHash identity : String} {txs : List Transaction}
    {clock : UInt64} {fuel : ℕ} (h : miningFunction D previousHash identity txs clock fuel = some b) :
    startsWith b.hash "0000" = true ∧ Covered D b := mineFrom_covered h

/-- The miner's loop gives back exactly the covered blocks that show work. -/
theorem remined_iff : Remined D b ↔ startsWith b.hash "0000" = true ∧ Covered D b := by
  constructor
  · intro h; exact mineFrom_covered h
  · intro ⟨hwork, hdigest, hless, hroot⟩
    unfold Remined mineFrom
    simp only [← hroot, ← hdigest]
    rw [if_pos (Bool.and_eq_true_iff.mpr ⟨hwork, decide_eq_true hless⟩)]
    rfl

theorem covered_verified : Covered D b.verified ↔ Covered D b := by
  constructor
  · intro ⟨hdigest, hless, hroot⟩; exact ⟨hdigest, hless, by simpa using hroot⟩
  · intro ⟨hdigest, hless, hroot⟩; exact ⟨hdigest, hless, by simpa using hroot⟩

/-- Every block of the chain but the first is covered. -/
def AllCovered (D : Digest) (n : Node) : Prop :=
  ∀ b ∈ n.blockchain.data, b ≠ createGenesisBlock D → Covered D b

/-- What the event writes was mined. -/
def WritesMined (D : Digest) (n : Node) (e : Event) : Prop := ∀ b ∈ written n e, Remined D b

instance (D : Digest) (n : Node) (e : Event) : Decidable (WritesMined D n e) :=
  inferInstanceAs (Decidable (∀ b ∈ written n e, _))

theorem allCovered_handle_iff (h : ChainInv D n.blockchain) (hn : AllCovered D n) :
    WritesMined D n e ↔ AllCovered D (handle n e) := by
  unfold WritesMined AllCovered
  rw [handle_blockchain]
  cases hw : written n e with
  | none => exact iff_of_true (by simp) hn
  | some b =>
    obtain ⟨_, hacc, hnew⟩ := written_eq_some.mp hw
    have hwork : startsWith b.hash "0000" = true := (validateBlock_success.mp hacc).2.1
    have hstored : stored (n.blockchain.put b.verified).2 = insert b.verified (stored n.blockchain) :=
      stored_put_new hnew
    -- the genesis block is stored, so the new one is another
    have hother : b.verified ≠ createGenesisBlock D := by
      intro he
      have hin := contains_hash_iff.mpr ⟨_, h.genesis_mem, (congrArg Block.hash he).symm⟩
      rw [Block.verified_hash, hnew] at hin
      cases hin
    simp only [Option.mem_some_iff, forall_eq', Option.map_some, Option.getD_some, ← mem_stored, hstored,
      Set.mem_insert_iff]
    rw [remined_iff]
    constructor
    · intro ⟨_, hcov⟩ c hc hne
      rcases hc with rfl | hc
      · exact covered_verified.mpr hcov
      · exact hn c hc hne
    · intro hall
      exact ⟨hwork, covered_verified.mp (hall b.verified (.inl rfl) hother)⟩

theorem allCovered_fromPath (D : Digest) (pool : TransactionPool) (spent : SpentTransactionsStore) :
    AllCovered D ⟨fromPath D DBInternface.empty, pool, spent⟩ := by
  intro b hb hne
  have hin : b ∈ stored (fromPath D DBInternface.empty) := hb
  rw [stored_fromPath_empty] at hin
  exact absurd hin hne

/-- **The chain is covered by its work exactly while mined blocks are written.**
From a first start, with any pool and spent store and whatever events follow:
after every event each stored block but the genesis block is as the miner
guarantees it, if and only if each block written into the chain is one that the
miner's loop gives on the block's own fields. -/
theorem chain_covered_iff (D : Digest) (pool : TransactionPool) (spent : SpentTransactionsStore)
    (es : List Event) :
    (∀ pre, pre <+: es → AllCovered D (run handle ⟨fromPath D DBInternface.empty, pool, spent⟩ pre)) ↔
      Along handle (WritesMined D) ⟨fromPath D DBInternface.empty, pool, spent⟩ es := by
  have hkeep : ∀ (n : Node) (e : Event), ChainInv D n.blockchain → ChainInv D (handle n e).blockchain :=
    fun _ e h => chainInv_handle e h
  have hstep : ∀ (n : Node) (e : Event), ChainInv D n.blockchain → AllCovered D n →
      (WritesMined D n e ↔ AllCovered D (handle n e)) := fun _ _ h hn => allCovered_handle_iff h hn
  exact throughout_iff_along_of_inv hkeep hstep es (chainInv_fromPath_empty D)
    (allCovered_fromPath D pool spent)

/-- A block that nobody mined: its hash is no digest at all. -/
def unminedBlock : Block := sampleBlock "0000B1" genesisHash 1670000001000 [sampleVote "AA"]

theorem unmined_block_stored :
    ∃ b ∈ (run handle (start sampleDigest) [.addBlock "peer" unminedBlock]).blockchain.data,
      b ≠ createGenesisBlock sampleDigest ∧ ¬ Covered sampleDigest b := by
  refine ⟨unminedBlock.verified, by decide +kernel, by decide, ?_⟩
  intro h
  exact absurd h.digest (by decide +kernel)

/-! ## Whether mining can go on -/

def hexDigits : List Char :=
  ['0', '1', '2', '3', '4', '5', '6', '7', '8', '9', 'A', 'B', 'C', 'D', 'E', 'F']

/-- What the miner's `HexEncoder` writes: 64 upper-case hexadecimal digits. -/
def IsHexDigest (s : String) : Prop := s.toList.length = 64 ∧ ∀ c ∈ s.toList, c ∈ hexDigits

instance (s : String) : Decidable (IsHexDigest s) := inferInstanceAs (Decidable (_ ∧ _))

/-- Some digest passes the exit test of the mining loop on top of `previousHash`. -/
def MiningPossible (previousHash : String) : Prop :=
  ∃ s, IsHexDigest s ∧ startsWith s "0000" = true ∧ s < previousHash

/-- The least digest. -/
def zeroDigest : String := String.ofList (List.replicate 64 '0')

@[simp] theorem zeroDigest_toList : zeroDigest.toList = List.replicate 64 '0' := String.toList_ofList

theorem zeroDigest_isHexDigest : IsHexDigest zeroDigest := by
  refine ⟨by simp, ?_⟩
  intro c hc
  rw [zeroDigest_toList] at hc
  rw [List.eq_of_mem_replicate hc]
  decide

theorem zeroDigest_work : startsWith zeroDigest "0000" = true := by
  rw [startsWith, zeroDigest_toList]; decide

theorem replicate_le {a : Char} {l : List Char} (h : ∀ c ∈ l, a ≤ c) :
    List.replicate l.length a ≤ l := by
  induction l with
  | nil => exact le_rfl
  | cons c l ih =>
    have hl := ih fun d hd => h d (List.mem_cons_of_mem _ hd)
    rw [List.length_cons, List.replicate_succ]
    by_contra hlt
    rcases List.cons_lt_cons_iff.mp (not_le.mp hlt) with hca | ⟨_, hrest⟩
    · exact absurd (h c (by simp)) (not_le.mpr hca)
    · exact absurd hl (not_le.mpr hrest)

theorem zeroDigest_le {s : String} (h : IsHexDigest s) : zeroDigest ≤ s := by
  have hdigits : ∀ c ∈ hexDigits, '0' ≤ c := by simp [hexDigits]
  have hall : ∀ c ∈ s.toList, '0' ≤ c := fun c hc => hdigits c (h.2 c hc)
  have hle := replicate_le hall
  rw [h.1, ← zeroDigest_toList] at hle
  exact String.le_iff_toList_le.mpr hle

/-- Mining is possible exactly on top of a hash greater than all zeros. -/
theorem miningPossible_iff {previousHash : String} :
    MiningPossible previousHash ↔ zeroDigest < previousHash := by
  constructor
  · intro ⟨s, hs, _, hlt⟩
    exact (zeroDigest_le hs).trans_lt hlt
  · intro h
    exact ⟨zeroDigest, zeroDigest_isHexDigest, zeroDigest_work, h⟩

/-- Where no digest passes the exit test, the loop never ends, and where one
does, it may end: it is the hash below, not SHA-256, that decides. -/
theorem mining_stuck_iff {previousHash : String} :
    ¬ MiningPossible previousHash ↔
      ∀ D : Digest, (∀ s, IsHexDigest (D.sha256Hex s)) → ∀ identity txs clock fuel,
        miningFunction D previousHash identity txs clock fuel = none := by
  constructor
  · intro hstuck D hD identity txs clock fuel
    rw [Option.eq_none_iff_forall_ne_some]
    intro b hb
    obtain ⟨hwork, hcov⟩ := miningFunction_covered hb
    have hprev : b.previousHash = previousHash := mineFrom_previousHash hb
    apply hstuck
    refine ⟨b.hash, ?_, hwork, hprev ▸ hcov.smaller⟩
    rw [hcov.digest]
    exact hD _
  · intro hnone ⟨s, hs, hwork, hlt⟩
    have hend := hnone ⟨fun _ => s, fun _ => ""⟩ (fun _ => hs) "" [] 0 1
    simp [miningFunction, mineFrom, hwork, hlt] at hend

/-- The hash of what the event writes is greater than all zeros. -/
def WritesAboveZero (n : Node) (e : Event) : Prop := ∀ b ∈ written n e, zeroDigest < b.hash

instance (n : Node) (e : Event) : Decidable (WritesAboveZero n e) :=
  inferInstanceAs (Decidable (∀ b ∈ written n e, _))

/-- A block that is written becomes the newest one. -/
theorem last_put_written (h : ChainInv D n.blockchain) (hw : written n e = some b) :
    (n.blockchain.put b.verified).2.last = b.verified := by
  obtain ⟨_, hacc, hnew⟩ := written_eq_some.mp hw
  have hinv : ChainInv D (n.blockchain.put b.verified).2 := chainInv_put h hacc
  have hstored : stored (n.blockchain.put b.verified).2 = insert b.verified (stored n.blockchain) :=
    stored_put_new hnew
  refine last_eq_of_isTop hinv.genesis_mem hinv.linked.distinct ⟨?_, ?_⟩
  · rw [hstored]; exact Set.mem_insert _ _
  · intro c hc
    rw [hstored] at hc
    rcases hc with rfl | hc
    · exact le_rfl
    · exact (h.last_isTop.2 c hc).trans (validateBlock_success.mp hacc).1.le

theorem miningPossible_handle_iff (h : ChainInv D n.blockchain)
    (hn : MiningPossible n.blockchain.last.hash) :
    WritesAboveZero n e ↔ MiningPossible (handle n e).blockchain.last.hash := by
  unfold WritesAboveZero
  rw [handle_blockchain]
  cases hw : written n e with
  | none => exact iff_of_true (by simp) hn
  | some b =>
    simp only [Option.mem_some_iff, forall_eq', Option.map_some, Option.getD_some,
      last_put_written h hw, Block.verified_hash]
    exact miningPossible_iff.symm

/-- **Mining stays possible exactly while no block of zeros is written.** From a
first start on a genesis block that can be mined on, with any pool and spent
store and whatever events follow: after every event some digest passes the exit
test on top of the newest block, if and only if the hash of each block written
into the chain is greater than sixty-four zeros. -/
theorem mining_possible_iff (D : Digest) (pool : TransactionPool) (spent : SpentTransactionsStore)
    (hgenesis : MiningPossible (createGenesisBlock D).hash) (es : List Event) :
    (∀ pre, pre <+: es → MiningPossible
      (run handle ⟨fromPath D DBInternface.empty, pool, spent⟩ pre).blockchain.last.hash) ↔
      Along handle WritesAboveZero ⟨fromPath D DBInternface.empty, pool, spent⟩ es := by
  have hinv := chainInv_fromPath_empty D
  have hlast : (fromPath D DBInternface.empty).last = createGenesisBlock D := by
    have htop := hinv.last_isTop.1
    rw [stored_fromPath_empty] at htop
    exact htop
  have hstart : MiningPossible
      (Node.mk (fromPath D DBInternface.empty) pool spent).blockchain.last.hash := hlast ▸ hgenesis
  have hkeep : ∀ (n : Node) (e : Event), ChainInv D n.blockchain → ChainInv D (handle n e).blockchain :=
    fun _ e h => chainInv_handle e h
  have hstep : ∀ (n : Node) (e : Event), ChainInv D n.blockchain → MiningPossible n.blockchain.last.hash →
      (WritesAboveZero n e ↔ MiningPossible (handle n e).blockchain.last.hash) :=
    fun _ _ h hn => miningPossible_handle_iff h hn
  exact throughout_iff_along_of_inv (I := fun n : Node => MiningPossible n.blockchain.last.hash)
    hkeep hstep es hinv hstart

theorem genesis_miningPossible : MiningPossible (createGenesisBlock sampleDigest).hash :=
  miningPossible_iff.mpr (by decide +kernel)

/-- The hash shows work and is shorter than any digest. -/
def shortHashBlock : Block := sampleBlock "0000" genesisHash 1670000001000 []

theorem short_hash_stops_mining :
    MiningPossible (createGenesisBlock sampleDigest).hash ∧
      ¬ MiningPossible
        (run handle (start sampleDigest) [.addBlock "peer" shortHashBlock]).blockchain.last.hash := by
  refine ⟨genesis_miningPossible, ?_⟩
  rw [miningPossible_iff]
  decide +kernel

theorem mining_possible_iff_oneBlock :
    MiningPossible (createGenesisBlock sampleDigest).hash ∧
      ∀ pre, pre <+: [.addBlock "peer" unminedBlock] →
        MiningPossible (run handle (start sampleDigest) pre).blockchain.last.hash := by
  refine ⟨genesis_miningPossible, ?_⟩
  exact (mining_possible_iff sampleDigest .create DBInternface.empty genesis_miningPossible _).mpr
    (by decide +kernel)

end Krapi.ProofOfWork
