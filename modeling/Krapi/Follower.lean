import Krapi.PublishedChain

/-! # Following a published chain live

A follower has no sequence numbers: it gets the blocks of `P` in any order,
repeated and with losses, and keeps an initial segment of `P` at every point. -/
namespace Krapi.Follower
open Krapi.BlockchainModels Krapi.DBInterface Krapi.ChainStore Krapi.Validator Krapi.Pool
open Krapi.Handlers Krapi.PublishedChain Krapi.Lib.Run

/-- The events of a follower: blocks of `P` and any transactions. -/
def Delivered (P : List Block) : Event → Prop
  | .addTransaction _ _ => True
  | .addBlock _ block => block ∈ P
  | .blockMined _ => False

instance (P : List Block) (e : Event) : Decidable (Delivered P e) :=
  match e with
  | .addTransaction _ _ => inferInstanceAs (Decidable True)
  | .addBlock _ block => inferInstanceAs (Decidable (block ∈ P))
  | .blockMined _ => inferInstanceAs (Decidable False)

variable {D : Digest} {P : List Block} {n : Node} {k : ℕ}

/-- A delivery changes the chain only by a block of `P` that the node lets in. -/
theorem delivered_cases (n : Node) {e : Event} (he : Delivered P e) :
    (handle n e).blockchain = n.blockchain ∨
      ∃ (j : ℕ) (b : Block), P[j]? = some b ∧ Accepts n b ∧
        (handle n e).blockchain = (n.blockchain.put b.verified).2 := by
  rcases handle_cases n e with heq | ⟨tx, room, _, _, _, heq⟩ | ⟨b, hb, hacc, heq⟩
  · exact .inl (by rw [heq])
  · exact .inl (by rw [heq])
  · have hbP : b ∈ P := by
      cases e with
      | addTransaction tx room => cases hb
      | addBlock sender c => cases hb; exact he
      | blockMined c => cases he
    obtain ⟨j, hj⟩ := List.mem_iff_getElem?.mp hbP
    exact .inr ⟨j, b, hj, hacc, by rw [heq]; rfl⟩

/-- One delivery keeps an initial segment, and never a shorter one. -/
theorem holdsUpTo_handle (hP : Published D P) (h : HoldsUpTo P n.blockchain k) (e : Event)
    (he : Delivered P e) : ∃ k', k ≤ k' ∧ HoldsUpTo P (handle n e).blockchain k' := by
  rcases delivered_cases n he with heq | ⟨j, b, hj, hacc, heq⟩
  · refine ⟨k, le_rfl, ?_⟩
    rw [heq]; exact h
  · obtain ⟨rfl, _⟩ := (h.accepts_iff hP hj).mp hacc
    refine ⟨k + 1, Nat.le_succ k, ?_⟩
    rw [heq]; exact h.put_next hP hj

theorem holdsUpTo_run (hP : Published D P) (es : List Event) (hes : ∀ e ∈ es, Delivered P e)
    (h : HoldsUpTo P n.blockchain k) :
    ∃ k', k ≤ k' ∧ HoldsUpTo P (run handle n es).blockchain k' := by
  induction es generalizing n k with
  | nil => exact ⟨k, le_rfl, h⟩
  | cons e es ih =>
    obtain ⟨k₁, h₁, hold⟩ := holdsUpTo_handle hP h e (hes e (by simp))
    obtain ⟨k₂, h₂, hend⟩ := ih (fun e he => hes e (by simp [he])) hold
    exact ⟨k₂, h₁.trans h₂, hend⟩

/-- **Followers keep initial segments.** For every node that starts with the
genesis block and every list of deliveries: the chain is an initial segment of
`P`, further deliveries never shorten it, a block of `P` is answered with
`BlockAccepted` exactly when it is the next one and lists nothing spent, and then
the chain holds it, too; a `BlockRejected` answer leaves the node as it was, and
the chains of two followers are comparable. -/
theorem follower_keeps_initial_segment (D : Digest) (P : List Block) (hP : Published D P) (n : Node)
    (hn : stored n.blockchain = {createGenesisBlock D}) (es : List Event)
    (hes : ∀ e ∈ es, Delivered P e) :
    let m := run handle n es
    ∃ k, HoldsUpTo P m.blockchain k ∧
      (∀ later, (∀ e ∈ later, Delivered P e) →
        ∃ k', k ≤ k' ∧ HoldsUpTo P (run handle m later).blockchain k') ∧
      (∀ sender, ∀ b ∈ P, Effect.send sender (.blockAccepted b.header) ∈ (onAddBlock m sender b).2 ↔
        P[k + 1]? = some b ∧
          ∀ tx ∈ b.transactions, m.spentTransactionsStore.contains tx.hash = false) ∧
      (∀ sender, ∀ b ∈ P, Effect.send sender (.blockAccepted b.header) ∈ (onAddBlock m sender b).2 →
        HoldsUpTo P (onAddBlock m sender b).1.blockchain (k + 1)) ∧
      (∀ sender, ∀ b ∈ P, ∀ reason,
        Effect.send sender (.blockRejected reason) ∈ (onAddBlock m sender b).2 →
          (onAddBlock m sender b).1 = m) ∧
      ∀ n' : Node, stored n'.blockchain = {createGenesisBlock D} →
        ∀ es' : List Event, (∀ e ∈ es', Delivered P e) →
          let m' := run handle n' es'
          (∃ k', HoldsUpTo P m'.blockchain k') ∧
          (Block.verified '' stored m.blockchain ⊆ Block.verified '' stored m'.blockchain ∨
            Block.verified '' stored m'.blockchain ⊆ Block.verified '' stored m.blockchain) := by
  intro m
  obtain ⟨k, _, hk⟩ := holdsUpTo_run hP es hes (holdsUpTo_genesis hP hn)
  refine ⟨k, hk, fun later hl => holdsUpTo_run hP later hl hk, ?_, ?_, ?_, ?_⟩
  · intro sender b hb
    obtain ⟨j, hj⟩ := List.mem_iff_getElem?.mp hb
    rw [accepted_mem_onAddBlock, hk.accepts_iff hP hj]
    refine and_congr_left fun _ => ?_
    constructor
    · intro he; rw [← he]; exact hj
    · intro he; exact hP.listed.key_inj hj he rfl
  · intro sender b hb hacc
    obtain ⟨j, hj⟩ := List.mem_iff_getElem?.mp hb
    rw [accepted_mem_onAddBlock] at hacc
    obtain ⟨rfl, _⟩ := (hk.accepts_iff hP hj).mp hacc
    rw [onAddBlock_of_accepts hacc]
    exact hk.put_next hP hj
  · intro sender b _ reason hr
    exact onAddBlock_of_rejected hr
  · intro n' hn' es' hes' m'
    obtain ⟨k', _, hk'⟩ := holdsUpTo_run hP es' hes' (holdsUpTo_genesis hP hn')
    refine ⟨⟨k', hk'⟩, ?_⟩
    rcases Nat.le_total k k' with h | h
    · exact .inl (hk.subset_of_le hk' h)
    · exact .inr (hk'.subset_of_le hk h)

/-- The last block arrives too early, then both in order, then one again. -/
def sampleDeliveries : List Event :=
  [.addBlock "peer" (sampleBlock "0000B1" "0000B2" 1670000002000 []),
    .addTransaction (sampleVote "AA") true,
    .addBlock "peer" (sampleBlock "0000B2" genesisHash 1670000001000 [sampleVote "AA"]),
    .addBlock "peer" (sampleBlock "0000B1" "0000B2" 1670000002000 []),
    .addBlock "peer" (sampleBlock "0000B2" genesisHash 1670000001000 [sampleVote "AA"])]

theorem follower_keeps_initial_segment_sample :
    Published sampleDigest sampleChain ∧ (∀ e ∈ sampleDeliveries, Delivered sampleChain e) ∧
      ∃ k, HoldsUpTo sampleChain (run handle (start sampleDigest) sampleDeliveries).blockchain k := by
  have hd : ∀ e ∈ sampleDeliveries, Delivered sampleChain e := by decide
  obtain ⟨k, hk, _⟩ := follower_keeps_initial_segment sampleDigest sampleChain sampleChain_published
    (start sampleDigest) (stored_fromPath_empty sampleDigest) sampleDeliveries hd
  exact ⟨sampleChain_published, hd, k, hk⟩

end Krapi.Follower
