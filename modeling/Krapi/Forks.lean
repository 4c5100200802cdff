import Krapi.Lib.Branches
import Krapi.ProofOfWork
import Krapi.PublishedChain

/-! # Forks never heal

A node lets in only what builds on its newest block, and nothing takes a block off a
chain. So two nodes that once let in different blocks after a common one stay apart:
their chains are one stem and two branches, whatever either hears later only makes the
branches longer, and each rejects every block of the other's branch for ever. -/
namespace Krapi.Forks
open Krapi.BlockchainModels Krapi.DBInterface Krapi.ChainStore Krapi.Validator Krapi.Handlers
open Krapi.ChainInvariant Krapi.ProofOfWork Krapi.PublishedChain
open Krapi.Lib.Run Krapi.Lib.Timeline Krapi.Lib.Branches

variable {D : Digest} {n : Node} {P : List Block} {es es' : List Event} {b : Block}

/-! ## A chain and its list -/

/-- `P` lists the blocks of the chain in order of time. -/
structure Orders (D : Digest) (P : List Block) (chain : Blockchain) : Prop where
  published : Published D P
  mem : ∀ b, b ∈ chain.data ↔ b ∈ P

theorem orders_start (D : Digest) : Orders D [createGenesisBlock D] (start D).blockchain := by
  refine ⟨⟨⟨List.pairwise_singleton _ _, List.nodup_singleton _, List.isChain_singleton _⟩, rfl, by simp⟩, ?_⟩
  intro b
  rw [List.mem_singleton]
  show b ∈ stored (fromPath D DBInternface.empty) ↔ _
  rw [stored_fromPath_empty]
  exact Set.mem_singleton_iff

theorem Orders.getLast (h : Orders D P n.blockchain) (hinv : ChainInv D n.blockchain) :
    P.getLast? = some n.blockchain.last := by
  have hin : n.blockchain.last ∈ P := (h.mem _).mp hinv.last_isTop.1
  cases hlast : P.getLast? with
  | none =>
    rw [List.getLast?_eq_none_iff] at hlast
    rw [hlast] at hin
    cases hin
  | some top =>
    have htop : top ∈ n.blockchain.data := (h.mem _).mpr (List.mem_of_getLast? hlast)
    have hle : blockLinks.time n.blockchain.last ≤ blockLinks.time top :=
      h.published.listed.time_le_getLast hlast hin
    rw [hinv.linked.distinct htop hinv.last_isTop.1 (le_antisymm (hinv.last_isTop.2 top htop) hle)]

/-- An event leaves the list alone, or appends the block that it writes. -/
theorem Orders.event (h : Orders D P n.blockchain) (hinv : ChainInv D n.blockchain) (e : Event) :
    ∃ more, Orders D (P ++ more) (handle n e).blockchain := by
  rw [handle_blockchain]
  cases hw : written n e with
  | none => exact ⟨[], by rw [List.append_nil]; exact h⟩
  | some c =>
    obtain ⟨_, hacc, hnew⟩ := written_eq_some.mp hw
    obtain ⟨hlater, hwork, hprev, _⟩ := validateBlock_success.mp hacc
    refine ⟨[c.verified], ⟨?_, ?_, ?_⟩, ?_⟩
    · refine h.published.listed.concat ?_ ?_ ?_
      · intro a ha
        exact (hinv.last_isTop.2 a ((h.mem a).mpr ha)).trans_lt hlater
      · intro a ha he
        have htaken : n.blockchain.contains c.hash = true := contains_hash_iff.mpr ⟨a, (h.mem a).mpr ha, he⟩
        rw [htaken] at hnew
        cases hnew
      · intro a ha
        rw [h.getLast hinv] at ha
        cases ha
        exact hprev
    · rw [List.getElem?_append_left h.published.pos]
      exact h.published.genesis
    · rw [List.tail_append_of_ne_nil (List.ne_nil_of_length_pos h.published.pos)]
      intro a ha
      rcases List.mem_append.mp ha with ha | ha
      · exact h.published.work a ha
      · rw [List.mem_singleton.mp ha]
        exact hwork
    · intro a
      rw [Option.map_some, Option.getD_some, DBInternface.mem_put, List.mem_append, List.mem_singleton, h.mem]
      exact or_congr_right (and_iff_left hnew)

/-- **Chains grow at the end.** -/
theorem Orders.extend (es : List Event) {n : Node} {P : List Block} (h : Orders D P n.blockchain)
    (hinv : ChainInv D n.blockchain) : ∃ more, Orders D (P ++ more) (run handle n es).blockchain := by
  induction es generalizing n P with
  | nil => exact ⟨[], by rw [List.append_nil]; exact h⟩
  | cons e es ih =>
    obtain ⟨first, hfirst⟩ := h.event hinv e
    obtain ⟨rest, hrest⟩ := ih hfirst (chainInv_handle e hinv)
    exact ⟨first ++ rest, by rw [← List.append_assoc]; exact hrest⟩

/-! ## One block per hash -/

/-- The blocks that events carry, and the genesis block. -/
def carried (D : Digest) (es : List Event) : List Block := createGenesisBlock D :: es.filterMap Event.block?

/-- Two blocks of either node with one hash differ at most in the status of their transactions. -/
def OneBlockPerHash (D : Digest) (es es' : List Event) : Prop :=
  ∀ b ∈ carried D es, ∀ c ∈ carried D es', b.hash = c.hash → b.verified = c.verified

instance (D : Digest) (es es' : List Event) : Decidable (OneBlockPerHash D es es') :=
  inferInstanceAs (Decidable (∀ b ∈ carried D es, ∀ c ∈ carried D es', _ → _))

theorem carried_of_mem (D : Digest) (es : List Event) {b : Block}
    (hb : b ∈ (run handle (start D) es).blockchain.data) : ∃ c ∈ carried D es, b = c.verified := by
  have hkeeps : ∀ n e, (∃ c, e.block? = some c ∧ c ∈ carried D es) ∨ e.block? = none →
      (∀ b ∈ n.blockchain.data, ∃ c ∈ carried D es, b = c.verified) →
      ∀ b ∈ (handle n e).blockchain.data, ∃ c ∈ carried D es, b = c.verified := by
    intro n e he hn b hb
    rw [handle_blockchain] at hb
    cases hw : written n e with
    | none => rw [hw] at hb; exact hn b hb
    | some c =>
      rw [hw] at hb
      rcases DBInternface.mem_put.mp hb with hold | ⟨rfl, _⟩
      · exact hn b hold
      · obtain ⟨hc, _, _⟩ := written_eq_some.mp hw
        rcases he with ⟨d, hd, hcarried⟩ | hnone
        · cases hc.symm.trans hd
          exact ⟨c, hcarried, rfl⟩
        · rw [hnone] at hc; cases hc
  refine run_keeps_of_forall (I := fun n : Node => ∀ b ∈ n.blockchain.data, ∃ c ∈ carried D es, b = c.verified)
    hkeeps es ?_ ?_ b hb
  · intro e he
    cases hblock : e.block? with
    | none => exact .inr rfl
    | some c => exact .inl ⟨c, rfl, List.mem_cons_of_mem _ (List.mem_filterMap.mpr ⟨e, he, hblock⟩)⟩
  · intro b hb
    have hin := ((orders_start D).mem b).mp hb
    rw [List.mem_singleton.mp hin]
    exact ⟨_, List.mem_cons_self, (genesis_verified D).symm⟩

/-- On the chains that two nodes make of such blocks a hash stands for one block. -/
theorem oneName (hhash : OneBlockPerHash D es es') {Q : List Block}
    (hP : Orders D P (run handle (start D) es).blockchain)
    (hQ : Orders D Q (run handle (start D) es').blockchain) : OneName blockLinks P Q := by
  intro a ha b hb he
  obtain ⟨c, hc, rfl⟩ := carried_of_mem D es ((hP.mem a).mpr ha)
  obtain ⟨d, hd, rfl⟩ := carried_of_mem D es' ((hQ.mem b).mpr hb)
  exact hhash c hc d hd he

/-! ## Branches -/

/-- A node whose chain has a branch of its own lets in no block of the other branch. -/
theorem not_accepts_of_fork {stem more more' : List Block} (hfork : Fork blockLinks stem more more')
    (hstem : stem ≠ []) (hmore : more ≠ []) (hinv : ChainInv D n.blockchain)
    (hP : Orders D (stem ++ more) n.blockchain) {chain : Blockchain} (hQ : Orders D (stem ++ more') chain)
    (hb : b.verified ∈ more') : ¬ Accepts n b := by
  intro hacc
  have hprev : b.previousHash = n.blockchain.last.hash := (validateBlock_success.mp hacc).2.2.1
  have hlast : n.blockchain.last ∈ more := by
    have hl := hP.getLast hinv
    rw [List.getLast?_append_of_ne_nil _ hmore] at hl
    exact List.mem_of_getLast? hl
  -- the block before it on the other chain has the hash that it names
  obtain ⟨i, hi⟩ := List.mem_iff_getElem?.mp hb
  obtain ⟨k, hk⟩ : ∃ k, stem.length = k + 1 := ⟨stem.length - 1, by
    have := List.length_pos_iff.mpr hstem
    omega⟩
  have hat : (stem ++ more')[k + i + 1]? = some b.verified := by
    rw [List.getElem?_append_right (by omega), ← hi]
    congr 1
    omega
  obtain ⟨c, hc⟩ : ∃ c, (stem ++ more')[k + i]? = some c :=
    ⟨_, List.getElem?_eq_getElem (Nat.lt_of_succ_lt (List.getElem?_eq_some_iff.mp hat).1)⟩
  have hnames : b.verified.previousHash = c.hash := hQ.published.listed.prev_eq hc hat
  exact hfork.left _ hlast c (List.mem_of_getElem? hc) (hprev.symm.trans hnames)

/-- **Forks never heal.** Two nodes with whatever events, among whose blocks a hash stands
for one block: their chains are a common stem and two branches without a common hash, and
if both branches have begun, then after whatever further events the chains have no block in
common but those of the stem, and neither node lets in a block of the other's branch. -/
theorem forks_never_heal (D : Digest) (es es' later later' : List Event)
    (hhash : OneBlockPerHash D (es ++ later) (es' ++ later')) :
    let n := run handle (start D) es
    let m := run handle (start D) es'
    let n' := run handle n later
    let m' := run handle m later'
    ∃ stem branch branch', stem ≠ [] ∧ Orders D (stem ++ branch) n.blockchain ∧
      Orders D (stem ++ branch') m.blockchain ∧ Fork blockLinks stem branch branch' ∧
      (branch ≠ [] → branch' ≠ [] →
        (∀ b, b ∈ n'.blockchain.data ∧ b ∈ m'.blockchain.data ↔ b ∈ stem) ∧
        (∀ b, b.verified ∈ m'.blockchain.data → b.verified ∉ stem → ¬ Accepts n' b) ∧
        ∀ b, b.verified ∈ n'.blockchain.data → b.verified ∉ stem → ¬ Accepts m' b) := by
  intro n m n' m'
  have hninv : ChainInv D n.blockchain := chainInv_run es (chainInv_fromPath_empty D)
  have hminv : ChainInv D m.blockchain := chainInv_run es' (chainInv_fromPath_empty D)
  obtain ⟨P, hP⟩ : ∃ P, Orders D P n.blockchain :=
    (exists_published hninv).imp fun P hP => ⟨hP.1, hP.2⟩
  obtain ⟨Q, hQ⟩ : ∃ Q, Orders D Q m.blockchain :=
    (exists_published hminv).imp fun Q hQ => ⟨hQ.1, hQ.2⟩
  obtain ⟨grown, hgrown⟩ := hP.extend later hninv
  obtain ⟨grown', hgrown'⟩ := hQ.extend later' hminv
  have hn' : n' = run handle (start D) (es ++ later) := (run_append _ _ _).symm
  have hm' : m' = run handle (start D) (es' ++ later') := (run_append _ _ _).symm
  have hnameLater : OneName blockLinks (P ++ grown) (Q ++ grown') :=
    oneName hhash (by rw [← hn']; exact hgrown) (by rw [← hm']; exact hgrown')
  have hname : OneName blockLinks P Q := fun a ha b hb =>
    hnameLater a (List.mem_append_left _ ha) b (List.mem_append_left _ hb)
  obtain ⟨stem, branch, branch', hstemP, hstemQ, hstem, hfork⟩ :=
    exists_fork hP.published.listed hQ.published.listed hname hP.published.genesis hQ.published.genesis
  refine ⟨stem, branch, branch', hstem, hstemP ▸ hP, hstemQ ▸ hQ, hfork, ?_⟩
  intro hbranch hbranch'
  obtain ⟨more, more', hmoreP, hmoreQ, hle, hle', hforkLater⟩ := hfork.extend hbranch hbranch'
    hgrown.published.listed hgrown'.published.listed hnameLater hgrown.published.genesis hgrown'.published.genesis
    ⟨grown, by rw [← hstemP]⟩ ⟨grown', by rw [← hstemQ]⟩
  rw [hmoreP] at hgrown
  rw [hmoreQ] at hgrown'
  have hmore : more ≠ [] := fun h => hbranch (List.prefix_nil.mp (h ▸ hle))
  have hmore' : more' ≠ [] := fun h => hbranch' (List.prefix_nil.mp (h ▸ hle'))
  refine ⟨?_, ?_, ?_⟩
  · intro b
    rw [show b ∈ n'.blockchain.data ↔ b ∈ stem ++ more from hgrown.mem b,
      show b ∈ m'.blockchain.data ↔ b ∈ stem ++ more' from hgrown'.mem b, List.mem_append, List.mem_append]
    constructor
    · rintro ⟨hb | hb, hb' | hb'⟩
      · exact hb
      · exact hb
      · exact hb'
      · exact absurd rfl (hforkLater.left b hb b (List.mem_append_right _ hb'))
    · exact fun hb => ⟨.inl hb, .inl hb⟩
  · intro b hb hout
    have hin : b.verified ∈ more' := (List.mem_append.mp ((hgrown'.mem _).mp hb)).resolve_left hout
    exact not_accepts_of_fork hforkLater hstem hmore (chainInv_run later hninv) hgrown hgrown' hin
  · intro b hb hout
    have hin : b.verified ∈ more := (List.mem_append.mp ((hgrown.mem _).mp hb)).resolve_left hout
    exact not_accepts_of_fork ⟨hforkLater.right, hforkLater.left⟩ hstem hmore' (chainInv_run later' hminv)
      hgrown' hgrown hin

/-- Two blocks on the genesis block, and one on the first of them. -/
def leftBlock : Block := sampleBlock "0000B2" genesisHash 1670000001000 [sampleVote "AA"]
def rightBlock : Block := sampleBlock "0000B3" genesisHash 1670000002000 []
def nextBlock : Block := sampleBlock "0000B1" "0000B2" 1670000003000 []

/-- Each node hears of the other's block too late. -/
theorem forks_never_heal_twoMiners :
    let n := run handle (run handle (start sampleDigest) [.blockMined leftBlock])
      [.addBlock "right" rightBlock, .blockMined nextBlock]
    let m := run handle (run handle (start sampleDigest) [.blockMined rightBlock])
      [.addBlock "left" leftBlock, .addBlock "left" nextBlock]
    OneBlockPerHash sampleDigest [.blockMined leftBlock, .addBlock "right" rightBlock, .blockMined nextBlock]
        [.blockMined rightBlock, .addBlock "left" leftBlock, .addBlock "left" nextBlock] ∧
      ∃ stem : List Block, ∀ b, b ∈ n.blockchain.data ∧ b ∈ m.blockchain.data ↔ b ∈ stem := by
  intro n m
  have hhash : OneBlockPerHash sampleDigest
      [.blockMined leftBlock, .addBlock "right" rightBlock, .blockMined nextBlock]
      [.blockMined rightBlock, .addBlock "left" leftBlock, .addBlock "left" nextBlock] := by decide +kernel
  refine ⟨hhash, ?_⟩
  obtain ⟨stem, branch, branch', _, hP, hQ, _, hapart⟩ := forks_never_heal sampleDigest [.blockMined leftBlock]
    [.blockMined rightBlock] [.addBlock "right" rightBlock, .blockMined nextBlock]
    [.addBlock "left" leftBlock, .addBlock "left" nextBlock] hhash
  have hbranch : branch ≠ [] := by
    rintro rfl
    have hin : leftBlock.verified ∈ stem ++ [] := (hP.mem _).mp (by decide +kernel)
    have hother := (hQ.mem _).mpr (List.mem_append_left branch' (by simpa using hin))
    exact absurd hother (by decide +kernel)
  have hbranch' : branch' ≠ [] := by
    rintro rfl
    have hin : rightBlock.verified ∈ stem ++ [] := (hQ.mem _).mp (by decide +kernel)
    have hother := (hP.mem _).mpr (List.mem_append_left branch (by simpa using hin))
    exact absurd hother (by decide +kernel)
  exact ⟨stem, (hapart hbranch hbranch').1⟩

end Krapi.Forks
