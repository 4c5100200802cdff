import Krapi.ChainInvariant

/-! # Nodes that hold parts of one published chain

`P` is a chain as validated blocks make it. A store holds the blocks of `P` at
a set of positions, up to the status of transactions; the set is an initial
segment for a node that follows live, and may have gaps while blocks are
downloaded. What the validator lets in and what `put` adds are read off the
positions. -/
namespace Krapi.PublishedChain
open Krapi.BlockchainModels Krapi.DBInterface Krapi.ChainStore Krapi.Validator Krapi.Pool
open Krapi.Handlers Krapi.ChainInvariant Krapi.Lib.Run Krapi.Lib.Timeline

/-- A chain of blocks: the genesis block first, in order of time, under distinct
hashes, each naming the one before it, and all but the first showing work. -/
structure Published (D : Digest) (P : List Block) : Prop where
  listed : Listed blockLinks P
  genesis : P[0]? = some (createGenesisBlock D)
  work : ∀ b ∈ P.tail, startsWith b.hash "0000" = true

/-- Up to the status of transactions, `chain` holds the blocks of `P` at the positions `I`. -/
def HoldsAt (P : List Block) (chain : Blockchain) (I : Set ℕ) : Prop :=
  Block.verified '' stored chain = {c | ∃ i ∈ I, ∃ b, P[i]? = some b ∧ c = b.verified}

/-- `chain` is the initial segment of `P` that ends at position `k`. -/
def HoldsUpTo (P : List Block) (chain : Blockchain) (k : ℕ) : Prop :=
  k < P.length ∧ HoldsAt P chain (Set.Iic k)

variable {D : Digest} {P : List Block} {chain : Blockchain} {I : Set ℕ} {i j k : ℕ} {b c : Block}

theorem eq_genesis_of_verified (h : b.verified = createGenesisBlock D) : b = createGenesisBlock D := by
  obtain ⟨header, txs⟩ := b
  have hh : header = (createGenesisBlock D).header := congrArg Block.header h
  have ht : txs.map (fun tx => tx.setStatus .verified) = [] := congrArg Block.transactions h
  rw [List.map_eq_nil_iff] at ht
  subst hh ht; rfl

theorem Published.work_at (hP : Published D P) (hi : P[i + 1]? = some b) :
    startsWith b.hash "0000" = true := by
  apply hP.work
  rw [← List.getElem?_tail] at hi
  exact List.mem_of_getElem? hi

theorem Published.pos (hP : Published D P) : 0 < P.length :=
  (List.getElem?_eq_some_iff.mp hP.genesis).1

/-- **Every chain that the block handlers make is published**: its blocks, in
order of time. -/
theorem exists_published (h : ChainInv D chain) : ∃ P, Published D P ∧ ∀ b, b ∈ chain.data ↔ b ∈ P := by
  have hkey : Set.InjOn blockLinks.key (stored chain) :=
    fun _ hb _ hc he => DBInternface.eq_of_tag_eq hb hc he
  obtain ⟨P, hP, hfirst, hmem⟩ := h.linked.exists_listed (stored_finite chain) hkey
  refine ⟨P, ⟨hP, hfirst, ?_⟩, fun b => (hmem b).symm⟩
  intro b hb
  obtain ⟨i, hi⟩ := List.mem_iff_getElem?.mp hb
  rw [List.getElem?_tail] at hi
  have hlater := hP.time_lt hfirst hi (Nat.succ_pos i)
  apply h.work b ((hmem b).mp (List.mem_of_getElem? hi))
  intro he
  rw [he] at hlater
  exact absurd hlater (lt_irrefl _)

namespace HoldsAt

theorem mem_of_stored (h : HoldsAt P chain I) (hc : c ∈ chain.data) :
    ∃ i ∈ I, ∃ b, P[i]? = some b ∧ c.verified = b.verified := by
  have : c.verified ∈ Block.verified '' stored chain := ⟨c, hc, rfl⟩
  rw [h] at this
  exact this

theorem exists_stored (h : HoldsAt P chain I) (hi : i ∈ I) (hb : P[i]? = some b) :
    ∃ c ∈ chain.data, c.verified = b.verified := by
  have : b.verified ∈ Block.verified '' stored chain := by
    rw [h]; exact ⟨i, hi, b, hb, rfl⟩
  exact this

theorem genesis_mem (h : HoldsAt P chain I) (hP : Published D P) (h0 : 0 ∈ I) :
    createGenesisBlock D ∈ chain.data := by
  obtain ⟨c, hc, he⟩ := h.exists_stored h0 hP.genesis
  rw [genesis_verified] at he
  exact eq_genesis_of_verified he ▸ hc

/-- A block of `P` is stored exactly at its position. -/
theorem contains_iff (h : HoldsAt P chain I) (hP : Published D P) (hb : P[i]? = some b) :
    chain.contains b.hash = true ↔ i ∈ I := by
  rw [contains_hash_iff]
  constructor
  · intro ⟨c, hc, hh⟩
    obtain ⟨j, hj, d, hd, he⟩ := h.mem_of_stored hc
    have hhash : d.hash = b.hash := by
      rw [← hh, ← Block.verified_hash c, he, Block.verified_hash]
    exact hP.listed.key_inj hd hb hhash ▸ hj
  · intro hi
    obtain ⟨c, hc, he⟩ := h.exists_stored hi hb
    exact ⟨c, hc, by rw [← Block.verified_hash c, he, Block.verified_hash]⟩

/-- The scan finds the block at the greatest position, whatever gaps lie below it. -/
theorem last_header (h : HoldsAt P chain I) (hP : Published D P) (h0 : 0 ∈ I) (hj : j ∈ I)
    (hmax : ∀ i ∈ I, i ≤ j) (hb : P[j]? = some b) : chain.last.header = b.header := by
  have htop := last_isTop (h.genesis_mem hP h0)
  obtain ⟨i, hi, d, hd, he⟩ := h.mem_of_stored htop.1
  obtain ⟨c, hc, hce⟩ := h.exists_stored hj hb
  have hheader : chain.last.header = d.header := by
    rw [← Block.verified_header chain.last, he, Block.verified_header]
  -- the top is dated no earlier than the block at `j`, so it is at `j`
  have hle : b.timestamp ≤ d.timestamp := by
    have h1 : b.timestamp = c.timestamp := by
      rw [← Block.verified_timestamp b, ← hce, Block.verified_timestamp]
    have h2 : chain.last.timestamp = d.timestamp := congrArg BlockHeader.timestamp hheader
    rw [h1, ← h2]
    exact htop.2 c hc
  have hji : ¬ i < j := fun hlt => (hP.listed.time_lt hd hb hlt).not_ge hle
  have hij : i = j := le_antisymm (hmax i hi) (not_lt.mp hji)
  subst hij
  rw [hb] at hd
  cases hd
  exact hheader

/-- **What a store lets in.** With the greatest held position `k`, a block of
`P` passes the validator exactly when it is the next one and nothing it lists is spent. -/
theorem accepts_iff {n : Node} (h : HoldsAt P n.blockchain I) (hP : Published D P) (h0 : 0 ∈ I)
    (hk : k ∈ I) (hmax : ∀ i ∈ I, i ≤ k) (hkP : k < P.length) (hb : P[j]? = some b) :
    Accepts n b ↔
      j = k + 1 ∧ ∀ tx ∈ b.transactions, n.spentTransactionsStore.contains tx.hash = false := by
  obtain ⟨a, ha⟩ : ∃ a, P[k]? = some a := ⟨_, List.getElem?_eq_getElem hkP⟩
  have hlast := h.last_header hP h0 hk hmax ha
  have hts : n.blockchain.last.timestamp = a.timestamp := congrArg BlockHeader.timestamp hlast
  have hhash : n.blockchain.last.hash = a.hash := congrArg BlockHeader.hash hlast
  unfold Accepts
  rw [validateBlock_success, hts, hhash]
  have hnext := hP.listed.next_iff ha hb
  simp only [blockLinks_time, blockLinks_prev, blockLinks_key] at hnext
  constructor
  · intro ⟨ht, _, hp, hspent⟩
    exact ⟨hnext.mp ⟨ht, hp⟩, hspent⟩
  · intro ⟨hj, hspent⟩
    obtain ⟨ht, hp⟩ := hnext.mpr hj
    subst hj
    exact ⟨ht, hP.work_at hb, hp, hspent⟩

/-- Putting a block of `P` adds its position, if it was not held already. -/
theorem put (h : HoldsAt P chain I) (hP : Published D P) (hb : P[i]? = some b)
    (hc : c.verified = b.verified) : HoldsAt P (chain.put c).2 (insert i I) := by
  have hhash : c.hash = b.hash := by
    rw [← Block.verified_hash c, hc, Block.verified_hash]
  cases hcon : chain.contains c.hash with
  | true =>
    have hi : i ∈ I := (h.contains_iff hP hb).mp (hhash ▸ hcon)
    have hput : (chain.put c).2 = chain := DBInternface.put_of_contains hcon
    rw [Set.insert_eq_of_mem hi, hput]
    exact h
  | false =>
    unfold HoldsAt
    rw [stored_put_new hcon, Set.image_insert_eq, h, hc]
    ext d
    simp only [Set.mem_insert_iff, Set.mem_ofPred_eq]
    constructor
    · intro hd
      rcases hd with rfl | ⟨j, hj, e, he, rfl⟩
      · exact ⟨i, .inl rfl, b, hb, rfl⟩
      · exact ⟨j, .inr hj, e, he, rfl⟩
    · intro ⟨j, hj, e, he, hd⟩
      rcases hj with rfl | hj
      · rw [hb] at he; cases he; exact .inl hd
      · exact .inr ⟨j, hj, e, he, hd⟩

end HoldsAt

theorem holdsUpTo_genesis (hP : Published D P) (h : stored chain = {createGenesisBlock D}) :
    HoldsUpTo P chain 0 := by
  refine ⟨hP.pos, ?_⟩
  unfold HoldsAt
  rw [h, Set.image_singleton, genesis_verified]
  ext d
  simp only [Set.mem_singleton_iff, Set.mem_ofPred_eq, Set.mem_Iic, Nat.le_zero]
  constructor
  · intro hd; exact ⟨0, rfl, _, hP.genesis, hd⟩
  · intro ⟨i, hi, b, hb, hd⟩
    rw [hi, hP.genesis] at hb
    cases hb; exact hd

namespace HoldsUpTo

theorem accepts_iff {n : Node} (h : HoldsUpTo P n.blockchain k) (hP : Published D P)
    (hb : P[j]? = some b) :
    Accepts n b ↔
      j = k + 1 ∧ ∀ tx ∈ b.transactions, n.spentTransactionsStore.contains tx.hash = false :=
  h.2.accepts_iff hP (Nat.zero_le k) (Set.mem_Iic.mpr le_rfl) (fun _ hi => hi) h.1 hb

theorem put_next (h : HoldsUpTo P chain k) (hP : Published D P) (hb : P[k + 1]? = some b) :
    HoldsUpTo P (chain.put b.verified).2 (k + 1) := by
  refine ⟨(List.getElem?_eq_some_iff.mp hb).1, ?_⟩
  have hput := h.2.put hP hb (Block.verified_verified b)
  have hset : insert (k + 1) (Set.Iic k) = Set.Iic (k + 1) := by
    ext i; simp only [Set.mem_insert_iff, Set.mem_Iic]; omega
  rw [← hset]
  exact hput

/-- Of two initial segments one contains the other. -/
theorem subset_of_le {chain' : Blockchain} (h : HoldsUpTo P chain j) (h' : HoldsUpTo P chain' k)
    (hjk : j ≤ k) : Block.verified '' stored chain ⊆ Block.verified '' stored chain' := by
  rw [h.2, h'.2]
  intro d hd
  obtain ⟨i, hi, b, hb, he⟩ := hd
  exact ⟨i, Set.mem_Iic.mpr ((Set.mem_Iic.mp hi).trans hjk), b, hb, he⟩

end HoldsUpTo

/-! ## Values for closed runs -/

/-- Two blocks after the genesis block. -/
def sampleChain : List Block :=
  [createGenesisBlock sampleDigest,
    sampleBlock "0000B2" genesisHash 1670000001000 [sampleVote "AA"],
    sampleBlock "0000B1" "0000B2" 1670000002000 []]

theorem sampleChain_published : Published sampleDigest sampleChain :=
  ⟨⟨by decide, by decide, by decide⟩, by decide, by decide⟩

end Krapi.PublishedChain
