import Krapi.Handlers

/-! # The stored blocks form one chain

Blocks lie under an unverified hash and are checked only against the newest
one, yet over any run the stored set stays linked from the genesis block. The
local check says that a block which passes is dated after the top and names it;
`Linked.insert_top` turns that into linkage of the whole set. A block whose
hash is taken passes the validator and is then not written. -/
namespace Krapi.ChainInvariant
open Krapi.BlockchainModels Krapi.DBInterface Krapi.ChainStore Krapi.Validator Krapi.Pool
open Krapi.Handlers Krapi.Lib.Run Krapi.Lib.Timeline

/-- What every state of a full node's chain satisfies. -/
structure ChainInv (D : Digest) (chain : Blockchain) : Prop where
  linked : Linked blockLinks (createGenesisBlock D) (stored chain)
  work : ∀ b ∈ chain.data, b ≠ createGenesisBlock D → startsWith b.hash "0000" = true
  verified : ∀ b ∈ chain.data, ∀ tx ∈ b.transactions, tx.status = .verified

variable {D : Digest} {chain : Blockchain}

theorem ChainInv.genesis_mem (h : ChainInv D chain) : createGenesisBlock D ∈ chain.data :=
  h.linked.root_mem

theorem ChainInv.last_isTop (h : ChainInv D chain) : IsTop blockLinks (stored chain) chain.last :=
  ChainStore.last_isTop h.genesis_mem

theorem chainInv_fromPath_empty (D : Digest) : ChainInv D (fromPath D DBInternface.empty) := by
  have hs := stored_fromPath_empty D
  have hg : ∀ b ∈ (fromPath D DBInternface.empty).data, b = createGenesisBlock D := by
    intro b hb
    have : b ∈ stored (fromPath D DBInternface.empty) := hb
    rw [hs] at this
    exact this
  refine ⟨hs ▸ linked_singleton _ _, ?_, ?_⟩
  · intro b hb hne
    exact absurd (hg b hb) hne
  · intro b hb tx htx
    rw [hg b hb] at htx
    cases htx

/-- One block that passes the validator keeps the chain linked, whether or not `put` writes it. -/
theorem chainInv_put (h : ChainInv D chain) {store : SpentTransactionsStore} {b : Block}
    (hb : validateBlock chain store b = .success) : ChainInv D (chain.put b.verified).2 := by
  obtain ⟨hts, hwork, hprev, _⟩ := validateBlock_success.mp hb
  cases hc : chain.contains b.hash with
  | true =>
    have hput : (chain.put b.verified).2 = chain := DBInternface.put_of_contains hc
    rw [hput]; exact h
  | false =>
    have hnew : chain.contains b.verified.hash = false := hc
    refine ⟨?_, ?_, ?_⟩
    · rw [stored_put_new hnew]
      exact h.linked.insert_top h.last_isTop hts hprev
    · intro c hm hne
      rcases DBInternface.mem_put.mp hm with hm | ⟨rfl, _⟩
      · exact h.work c hm hne
      · exact hwork
    · intro c hm tx htx
      rcases DBInternface.mem_put.mp hm with hm | ⟨rfl, _⟩
      · exact h.verified c hm tx htx
      · exact Block.status_of_mem_verified htx

theorem chainInv_handle {n : Node} (e : Event) (h : ChainInv D n.blockchain) :
    ChainInv D (handle n e).blockchain := by
  rcases handle_cases n e with he | ⟨tx, room, _, _, _, he⟩ | ⟨b, _, hb, he⟩
  · rw [he]; exact h
  · rw [he]; exact h
  · rw [he]; exact chainInv_put h hb

theorem chainInv_run {n : Node} (es : List Event) (h : ChainInv D n.blockchain) :
    ChainInv D (run handle n es).blockchain :=
  run_keeps (I := fun n : Node => ChainInv D n.blockchain) (fun _ e h => chainInv_handle e h) es h

theorem blockchain_get_handle (n : Node) (e : Event) {k : String} {b : Block}
    (h : n.blockchain.get k = some b) : (handle n e).blockchain.get k = some b := by
  rcases handle_cases n e with he | ⟨tx, room, _, _, _, he⟩ | ⟨c, _, hc, he⟩
  · rw [he]; exact h
  · rw [he]; exact h
  · rw [he, addValidated_blockchain, DBInternface.get_put]
    have hk : n.blockchain.contains k = true := by simp [DBInternface.contains, h]
    simp [hk, h]

/-- Blocks are neither changed nor removed. -/
theorem blockchain_get_run (n : Node) (es : List Event) {k : String} {b : Block}
    (h : n.blockchain.get k = some b) : (run handle n es).blockchain.get k = some b :=
  run_keeps (I := fun n : Node => n.blockchain.get k = some b)
    (fun n e h => blockchain_get_handle n e h) es h

theorem blockchain_mem_run (n : Node) (es : List Event) {b : Block} (h : b ∈ n.blockchain.data) :
    b ∈ (run handle n es).blockchain.data :=
  DBInternface.mem_data_of_get (blockchain_get_run n es (DBInternface.mem_data.mp h))

/-- **One chain in every run.** From a first start, with any pool and spent
store and whatever events follow: the stored blocks are linked from the genesis
block, every other block shows work and only verified transactions, the scan
finds the newest block, and what is stored stays as it is. -/
theorem chain_linked_in_every_run (D : Digest) (pool : TransactionPool)
    (spent : SpentTransactionsStore) (before after : List Event) :
    let n := run handle ⟨fromPath D DBInternface.empty, pool, spent⟩ before
    Linked blockLinks (createGenesisBlock D) (stored n.blockchain) ∧
    (∀ b ∈ n.blockchain.data, b ≠ createGenesisBlock D →
      startsWith b.hash "0000" = true ∧ ∀ tx ∈ b.transactions, tx.status = .verified) ∧
    IsTop blockLinks (stored n.blockchain) n.blockchain.last ∧
    ∀ k b, n.blockchain.get k = some b → (run handle n after).blockchain.get k = some b := by
  intro n
  have h : ChainInv D n.blockchain := chainInv_run before (chainInv_fromPath_empty D)
  refine ⟨h.linked, ?_, h.last_isTop, fun k b hb => blockchain_get_run n after hb⟩
  intro b hb hne
  exact ⟨h.work b hb hne, h.verified b hb⟩

end Krapi.ChainInvariant
