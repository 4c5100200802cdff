import Krapi.ChainInvariant

/-! # Cutting the chain

`remove_all_after(h)` goes through a snapshot of the store and removes from the
store as it goes; `get_all_after(h)` is the same scan without the removal. The
comparisons differ: what is listed is newer than `h`, what is removed is at
least as new. So the cut takes the block of `h` along, and what it leaves of a
linked chain is linked but ends one block early. -/
namespace Krapi.Truncation
open Krapi.BlockchainModels Krapi.DBInterface Krapi.ChainStore Krapi.Handlers Krapi.ChainInvariant
open Krapi.Lib.Run Krapi.Lib.Timeline

/-- One round of the loop: the blocks removed so far, and the store. -/
def removeRound (removeAfter : Block) (s : List Block × Blockchain) (block : Block) : List Block × Blockchain :=
  if block.timestamp ≥ removeAfter.timestamp then (s.1 ++ [block], (s.2.remove block).2) else s

def removeAllAfter (chain : Blockchain) (header : BlockHeader) : List Block × Blockchain :=
  match chain.get header.hash with
  | none => ([], chain)
  | some removeAfter => chain.data.foldl (removeRound removeAfter) ([], chain)

/-! ## What is removed and what is left -/

variable {chain : Blockchain} {b c : Block}

theorem foldl_removeRound_fst (removeAfter : Block) (l : List Block) (s : List Block × Blockchain) :
    (l.foldl (removeRound removeAfter) s).1 = s.1 ++ l.filter (fun c => removeAfter.timestamp ≤ c.timestamp) := by
  induction l generalizing s with
  | nil => simp
  | cons a l ih =>
    rw [List.foldl_cons, ih, List.filter_cons]
    unfold removeRound
    by_cases hcut : removeAfter.timestamp ≤ a.timestamp
    · simp [hcut]
    · simp [hcut]

theorem mem_foldl_removeRound (removeAfter : Block) (l : List Block) (s : List Block × Blockchain) :
    c ∈ (l.foldl (removeRound removeAfter) s).2.data ↔
      c ∈ s.2.data ∧ ∀ a ∈ l, removeAfter.timestamp ≤ a.timestamp → a.hash ≠ c.hash := by
  induction l generalizing s with
  | nil => simp
  | cons a l ih =>
    rw [List.foldl_cons, ih, List.forall_mem_cons]
    unfold removeRound
    by_cases hcut : removeAfter.timestamp ≤ a.timestamp
    · rw [if_pos hcut, DBInternface.mem_remove, and_assoc]
      exact and_congr_right fun _ => and_congr_left fun _ => ⟨fun hne _ => hne, fun hne => hne hcut⟩
    · rw [if_neg hcut]
      exact and_congr_right fun _ => ⟨fun hrest => ⟨fun h => absurd h hcut, hrest⟩, And.right⟩

theorem removeAllAfter_eq (hb : b ∈ chain.data) :
    removeAllAfter chain b.header = chain.data.foldl (removeRound b) ([], chain) := by
  have hget : chain.get b.header.hash = some b := DBInternface.mem_data.mp hb
  unfold removeAllAfter
  rw [hget]

/-- A header of no stored block cuts nothing. -/
theorem removeAllAfter_of_not_contains {header : BlockHeader} (h : chain.contains header.hash = false) :
    removeAllAfter chain header = ([], chain) := by
  have hget : chain.get header.hash = none := by simpa [DBInternface.contains] using h
  unfold removeAllAfter
  rw [hget]

/-- Removed is what is at least as new as the block. -/
theorem mem_removed (hb : b ∈ chain.data) :
    c ∈ (removeAllAfter chain b.header).1 ↔ c ∈ chain.data ∧ b.timestamp ≤ c.timestamp := by
  rw [removeAllAfter_eq hb, foldl_removeRound_fst, List.nil_append, List.mem_filter, decide_eq_true_iff]

theorem mem_left (hb : b ∈ chain.data) :
    c ∈ (removeAllAfter chain b.header).2.data ↔ c ∈ chain.data ∧ c.timestamp < b.timestamp := by
  rw [removeAllAfter_eq hb, mem_foldl_removeRound]
  refine and_congr_right fun hc => ⟨fun hall => ?_, fun hlt a ha hle he => ?_⟩
  · by_contra hge
    exact hall c hc (not_lt.mp hge) rfl
  · obtain rfl : a = c := DBInternface.eq_of_tag_eq ha hc he
    exact absurd hlt (not_lt.mpr hle)

theorem stored_left (hb : b ∈ chain.data) :
    stored (removeAllAfter chain b.header).2 = {c ∈ stored chain | c.timestamp < b.timestamp} :=
  Set.ext fun _ => mem_left hb

/-- **One block too many**: what the cut removes and `get_all_after` does not list is
the block itself, where blocks have names and distinct times. -/
theorem removed_iff_listed (hd : Set.InjOn Block.timestamp (stored chain)) (hb : b ∈ chain.data)
    (hc : c.hash ≠ "") :
    c ∈ (removeAllAfter chain b.header).1 ↔ c = b ∨ (c ∈ chain.data ∧ c.header ∈ getAllAfter chain b.header) := by
  rw [mem_removed hb, mem_getAllAfter]
  constructor
  · intro ⟨hmem, hle⟩
    rcases hle.eq_or_lt with he | hlt
    · exact .inl (hd hmem hb he.symm)
    · exact .inr ⟨hmem, c, hmem, rfl, by simpa using hc, hlt⟩
  · rintro (rfl | ⟨hmem, a, _, he, _, hlt⟩)
    · exact ⟨hb, le_rfl⟩
    · have htime : a.timestamp = c.timestamp := congrArg BlockHeader.timestamp he
      exact ⟨hmem, (htime ▸ hlt).le⟩

/-- What is left of a linked chain is linked, as long as the genesis block is not cut. -/
theorem linked_left {D : Digest} (h : Linked blockLinks (createGenesisBlock D) (stored chain)) (hb : b ∈ chain.data)
    (hne : b ≠ createGenesisBlock D) :
    Linked blockLinks (createGenesisBlock D) (stored (removeAllAfter chain b.header).2) := by
  have hroot : (createGenesisBlock D).timestamp < b.timestamp :=
    lt_of_le_of_ne (h.least b hb) fun he => hne (h.distinct h.root_mem hb he).symm
  rw [stored_left hb]
  exact h.before hroot

/-! ## The cut that was meant -/

/-- Removed and returned are the blocks that are listed beforehand. -/
def ReturnsListed (chain : Blockchain) (header : BlockHeader) : Prop :=
  ∀ c, c ∈ (removeAllAfter chain header).1 ↔ c ∈ chain.data ∧ c.header ∈ getAllAfter chain header

/-- All others are kept. -/
def KeepsOthers (chain : Blockchain) (header : BlockHeader) : Prop :=
  ∀ c, c ∈ (removeAllAfter chain header).2.data ↔ c ∈ chain.data ∧ c.header ∉ getAllAfter chain header

/-- What is left ends in the block `b`. -/
structure EndsIn (chain left : Blockchain) (b : Block) : Prop where
  stored_eq : stored left = {c ∈ stored chain | c.timestamp ≤ b.timestamp}
  last_eq : left.last = b
  after_eq : getAllAfter left b.header = []

theorem not_listed (chain : Blockchain) (header : BlockHeader) : header ∉ getAllAfter chain header := by
  intro hin
  obtain ⟨a, _, he, _, hlt⟩ := mem_getAllAfter.mp hin
  rw [Block.timestamp, he] at hlt
  exact hlt.false

/-- No block that is left could be newer than the block cut at. -/
theorem getAllAfter_left (hb : b ∈ chain.data) : getAllAfter (removeAllAfter chain b.header).2 b.header = [] := by
  rw [List.eq_nil_iff_forall_not_mem]
  intro header hin
  obtain ⟨a, ha, _, _, hlt⟩ := mem_getAllAfter.mp hin
  exact (((mem_left hb).mp ha).2.trans hlt).false

theorem last_left_ne {D : Digest} (h : Linked blockLinks (createGenesisBlock D) (stored chain))
    (hb : b ∈ chain.data) : (removeAllAfter chain b.header).2.last ≠ b := by
  intro he
  rcases (DBInternface.foldl_newer (removeAllAfter chain b.header).2.data default).1 with hnone | hmem
  · -- an emptied store answers with the default block, which is older than the genesis block
    have hdefault : b = default := he.symm.trans hnone
    have hleast : (createGenesisBlock D).timestamp ≤ b.timestamp := h.least b hb
    rw [hdefault] at hleast
    exact absurd hleast (not_le.mpr (genesis_newer_than_default D))
  · have hlast : (removeAllAfter chain b.header).2.last ∈ (removeAllAfter chain b.header).2.data := hmem
    rw [he] at hlast
    exact ((mem_left hb).mp hlast).2.false

/-- **The cut is nowhere the one that is listed.** Whatever the chain and the stored
block to cut at: the block itself is removed and returned though it is not listed,
and on a chain linked from the genesis block what is left does not end in it. -/
theorem never_cuts_after (hb : b ∈ chain.data) :
    ¬ ReturnsListed chain b.header ∧ ¬ KeepsOthers chain b.header ∧
      ∀ D, Linked blockLinks (createGenesisBlock D) (stored chain) →
        b ∉ stored (removeAllAfter chain b.header).2 ∧ (removeAllAfter chain b.header).2.last ≠ b ∧
          getAllAfter (removeAllAfter chain b.header).2 b.header = [] ∧
          ¬ EndsIn chain (removeAllAfter chain b.header).2 b := by
  have hcut : b ∉ (removeAllAfter chain b.header).2.data := fun hin => ((mem_left hb).mp hin).2.false
  refine ⟨fun hreturns => ?_, fun hkeeps => ?_, fun D h => ?_⟩
  · have hremoved : b ∈ (removeAllAfter chain b.header).1 := (mem_removed hb).mpr ⟨hb, le_rfl⟩
    exact not_listed chain b.header ((hreturns b).mp hremoved).2
  · exact hcut ((hkeeps b).mpr ⟨hb, not_listed chain b.header⟩)
  · exact ⟨hcut, last_left_ne h hb, getAllAfter_left hb, fun hends => last_left_ne h hb hends.last_eq⟩

/-- Three blocks are added to the chain of a first start. -/
def threeBlocks : List Event :=
  [.addBlock "peer" (sampleBlock "0000B3" genesisHash 1670000001000 []),
    .addBlock "peer" (sampleBlock "0000B2" "0000B3" 1670000002000 []),
    .addBlock "peer" (sampleBlock "0000B1" "0000B2" 1670000003000 [])]

theorem never_cuts_after_threeBlocks :
    let chain := (run handle (start sampleDigest) threeBlocks).blockchain
    let b := sampleBlock "0000B2" "0000B3" 1670000002000 []
    getAllAfter chain b.header = [(sampleBlock "0000B1" "0000B2" 1670000003000 []).header] ∧
      ¬ ReturnsListed chain b.header ∧ (removeAllAfter chain b.header).2.last ≠ b := by
  intro chain b
  have hmem : b ∈ chain.data := by decide +kernel
  obtain ⟨hreturns, _, hlinked⟩ := never_cuts_after hmem
  have hinv : ChainInv sampleDigest chain := chainInv_run threeBlocks (chainInv_fromPath_empty sampleDigest)
  exact ⟨by decide +kernel, hreturns, (hlinked sampleDigest hinv.linked).2.1⟩

/-- The chain of a first start. -/
def genesisChain : Blockchain := fromPath sampleDigest DBInternface.empty

/-- Cut after its genesis block, the chain of a first start has no block left. -/
theorem genesis_cut_away : ¬ ∀ chain : Blockchain, Set.InjOn Block.timestamp (stored chain) →
    ∀ b ∈ chain.data, ReturnsListed chain b.header ∧ KeepsOthers chain b.header := by
  intro h
  have hstored : stored genesisChain = {createGenesisBlock sampleDigest} := stored_fromPath_empty sampleDigest
  have hmem : createGenesisBlock sampleDigest ∈ stored genesisChain := by
    rw [hstored]
    rfl
  have hdistinct : Set.InjOn Block.timestamp (stored genesisChain) := by
    rw [hstored]
    exact Set.injOn_singleton _ _
  have hkept := ((h genesisChain hdistinct _ hmem).2 (createGenesisBlock sampleDigest)).mpr
    ⟨hmem, by decide +kernel⟩
  revert hkept
  decide +kernel

end Krapi.Truncation
