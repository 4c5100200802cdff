import Krapi.Miner
import Krapi.Lib.Run

/-! # Where the pending votes are

The pool's database and its queue are two representations of the pending
transactions. `pending` lists what the miner's thread can still reach, what it
holds first and the queue behind it, so that taking an item from the queue
leaves the list as it is. A round that ends without its block on the chain
drops what the miner held, and nothing puts it back into the queue. -/
namespace Krapi.PendingVotes
open Krapi.BlockchainModels Krapi.DBInterface Krapi.ChainStore Krapi.Validator Krapi.Pool
open Krapi.Handlers Krapi.Mining Krapi.Miner Krapi.Lib.Run

/-- The batch or the block the miner holds. -/
def held : Phase → List Transaction
  | .waiting batch item => batch ++ item.toList
  | .acquired batch => batch
  | .mining _ batch => batch
  | .mined block => block.transactions
  | .broadcasted block => block.transactions
  | .listening block => block.transactions
  | .decided block => block.transactions
  | .enqueued block => block.transactions
  | .validating block => block.transactions
  | .ended => []

/-- Every pooled transaction is in the queue or held by the miner. -/
def Reachable (s : FullNode) : Prop :=
  ∀ tx ∈ s.node.transactionPool.data,
    PoolItem.transaction tx ∈ s.node.transactionPool.queue ∨ tx ∈ held s.phase

instance (s : FullNode) : Decidable (Reachable s) :=
  inferInstanceAs (Decidable (∀ tx ∈ s.node.transactionPool.data, _))

/-- The block whose round the action ends, with no further step for it. -/
def endsRoundOf (s : FullNode) (a : Action) : Option Block :=
  match a, s.events, s.phase with
  | .processOne _, .received _ (.blockRejected _) :: _, .listening block => some block
  | .processOne _, .minedBlockValidated :: _, .validating block => some block
  | _, _, _ => none

/-- A round ends only when no transaction of its block is pooled any more. -/
def EndsSpent (s : FullNode) (a : Action) : Prop :=
  ∀ b ∈ endsRoundOf s a, ∀ tx ∈ b.transactions, s.node.transactionPool.contains tx.hash = false

instance (s : FullNode) (a : Action) : Decidable (EndsSpent s a) :=
  inferInstanceAs (Decidable (∀ b ∈ endsRoundOf s a, _))

/-! ## What a step does to the pending transactions -/

/-- The queued transactions, oldest first. -/
def queued (s : FullNode) : List Transaction :=
  s.node.transactionPool.queue.filterMap fun
    | .transaction tx => some tx
    | .endReason _ => none

def pending (s : FullNode) : List Transaction := held s.phase ++ queued s

theorem mem_queued {s : FullNode} {tx : Transaction} :
    tx ∈ queued s ↔ PoolItem.transaction tx ∈ s.node.transactionPool.queue := by
  unfold queued
  rw [List.mem_filterMap]
  constructor
  · intro ⟨item, hitem, he⟩
    cases item with
    | transaction t => cases he; exact hitem
    | endReason r => cases he
  · intro h
    exact ⟨_, h, rfl⟩

theorem reachable_iff {s : FullNode} :
    Reachable s ↔ ∀ tx ∈ s.node.transactionPool.data, tx ∈ pending s := by
  unfold Reachable pending
  simp only [List.mem_append, mem_queued, or_comm]

/-- The databases of pool and spent transactions are the same in both nodes. -/
def SameStores (s t : FullNode) : Prop :=
  t.node.transactionPool.toDBInternface = s.node.transactionPool.toDBInternface ∧
    t.node.spentTransactionsStore = s.node.spentTransactionsStore

/-- What is pending stays, or loses a transaction that is not pooled. -/
def Shrinks (s t : FullNode) : Prop :=
  SameStores s t ∧ ∃ l r dropped, pending s = l ++ dropped ++ r ∧ pending t = l ++ r ∧
    ∀ tx ∈ dropped, s.node.transactionPool.contains tx.hash = false

theorem Shrinks.of_eq {s t : FullNode} (hs : SameStores s t) (hp : pending t = pending s) :
    Shrinks s t := ⟨hs, pending s, [], [], by simp, by simp [hp], by simp⟩

theorem minerStep_shrinks (D : Digest) (id : String) (clock : UInt64) (fuel : ℕ) {s : FullNode}
    (hq : ∀ item ∈ s.node.transactionPool.queue, ∃ tx, item = .transaction tx) :
    Shrinks s (minerStep D id clock fuel s).1 := by
  obtain ⟨_, hspent, hpool⟩ := minerStep_stores D id clock fuel s
  have hs : SameStores s (minerStep D id clock fuel s).1 := ⟨hpool, hspent⟩
  have hspec := minerStep_spec D id clock fuel s
  generalize minerStep D id clock fuel s = r at hs hspec ⊢
  cases hspec with
  | complete node events batch =>
    refine .of_eq hs ?_
    simp [pending, held, queued]
  | dequeue node events batch tx rest hqueue =>
    refine .of_eq hs ?_
    simp [hqueue, pending, held, queued]
  | finish node events batch reason rest hqueue =>
    obtain ⟨tx, htx⟩ := hq (.endReason reason) (by simp [hqueue])
    cases htx
  | take node events batch tx =>
    refine .of_eq hs ?_
    simp [pending, held, queued]
  | skip node events batch tx hout =>
    refine ⟨hs, batch, queued ⟨node, events, .waiting batch (some tx)⟩, [tx], rfl, ?_, ?_⟩
    · simp [pending, held, queued]
    · intro t ht
      rw [List.mem_singleton.mp ht]
      exact hout
  | mine node events latestHash batch clock fuel block hm =>
    refine .of_eq hs ?_
    have htx := miningFunction_transactions hm
    simp [pending, held, queued, htx]
  | _ => exact .of_eq hs rfl

/-- Hearing an event keeps what the miner holds, unless the event ends the round. -/
theorem held_hear (node : Node) (e : QueuedEvent) (rest : List QueuedEvent) (room : Bool)
    (phase : Phase) :
    (endsRoundOf ⟨node, e :: rest, phase⟩ (.processOne room) = none ∧
      held (phase.hear e) = held phase) ∨
    (e.event? room = none ∧ ∃ b, endsRoundOf ⟨node, e :: rest, phase⟩ (.processOne room) = some b ∧
      held phase = b.transactions ∧ held (phase.hear e) = []) := by
  cases e with
  | received sender message =>
    cases message <;> cases phase <;>
      first | exact .inl ⟨rfl, rfl⟩ | exact .inr ⟨rfl, _, rfl, rfl, rfl⟩
  | sendPeerMessage receiver message => cases phase <;> exact .inl ⟨rfl, rfl⟩
  | blockMined block => cases phase <;> exact .inl ⟨rfl, rfl⟩
  | minedBlockValidated =>
    cases phase <;> first | exact .inl ⟨rfl, rfl⟩ | exact .inr ⟨rfl, _, rfl, rfl, rfl⟩

/-- **Everything a step can do to the pending transactions.** -/
inductive Change (s : FullNode) (a : Action) (t : FullNode) : Prop where
  | shrinks : endsRoundOf s a = none → Shrinks s t → Change s a t
  /-- A new transaction gets into the pool and to the end of the queue. -/
  | pools (tx : Transaction) : endsRoundOf s a = none →
      s.node.spentTransactionsStore.contains tx.hash = false →
      s.node.transactionPool.contains tx.hash = false →
      t.node = { s.node with transactionPool := (s.node.transactionPool.add tx true).2 } →
      pending t = pending s ++ [tx] → Change s a t
  | adds (b : Block) : endsRoundOf s a = none → t.node = addValidated s.node b →
      pending t = pending s → Change s a t
  /-- What the miner held is not pending any more. -/
  | endsRound (b : Block) : endsRoundOf s a = some b → SameStores s t →
      pending s = b.transactions ++ queued s → pending t = queued s → Change s a t

/-- An event of the stores under which the miner keeps what it holds. -/
theorem change_of_handled {s t : FullNode} {a : Action} {ev : Event} (hnone : endsRoundOf s a = none)
    (hheld : held t.phase = held s.phase) (hroom : ∀ tx, ev ≠ .addTransaction tx false)
    (hnode : t.node = handle s.node ev) : Change s a t := by
  rcases handle_cases s.node ev with h | ⟨tx, room, htx, hspent, hpool, h⟩ | ⟨b, _, _, h⟩
  · rw [h] at hnode
    refine .shrinks hnone (.of_eq ⟨by rw [hnode], by rw [hnode]⟩ ?_)
    simp [pending, queued, hheld, hnode]
  · cases room with
    | false => exact absurd htx (hroom tx)
    | true =>
      rw [h] at hnode
      refine .pools tx hnone hspent hpool hnode ?_
      simp [pending, queued, hheld, hnode, TransactionPool.add_queue, hpool]
  · rw [h] at hnode
    refine .adds b.verified hnone hnode ?_
    simp [pending, queued, hheld, hnode]

theorem event?_room (e : QueuedEvent) (tx : Transaction) :
    e.event? true ≠ some (.addTransaction tx false) := by
  cases e with
  | received sender message => cases message <;> simp [QueuedEvent.event?]
  | sendPeerMessage receiver message => simp [QueuedEvent.event?]
  | blockMined block => simp [QueuedEvent.event?]
  | minedBlockValidated => simp [QueuedEvent.event?]

/-- A step is such a change as long as the queue takes what is pooled and only
holds transactions. -/
theorem next_change (D : Digest) (id : String) {s : FullNode} {a : Action}
    (hroom : a ≠ .processOne false)
    (hq : ∀ item ∈ s.node.transactionPool.queue, ∃ tx, item = .transaction tx) :
    Change s a (next D id s a) := by
  cases a with
  | receive sender message => exact .shrinks rfl (.of_eq ⟨rfl, rfl⟩ rfl)
  | miner clock fuel => exact .shrinks rfl (minerStep_shrinks D id clock fuel hq)
  | processOne room =>
    have hr : room = true := by
      cases room with
      | true => rfl
      | false => exact absurd rfl hroom
    subst hr
    obtain ⟨node, events, phase⟩ := s
    cases events with
    | nil => exact .shrinks rfl (.of_eq ⟨rfl, rfl⟩ rfl)
    | cons e rest =>
      have hnode : (next D id ⟨node, e :: rest, phase⟩ (.processOne true)).node = _ :=
        dispatch_node ⟨node, rest, phase⟩ true e
      have hphase : (next D id ⟨node, e :: rest, phase⟩ (.processOne true)).phase = _ :=
        dispatch_phase ⟨node, rest, phase⟩ true e
      generalize next D id ⟨node, e :: rest, phase⟩ (.processOne true) = t at hnode hphase ⊢
      rcases held_hear node e rest true phase with ⟨hnone, hheld⟩ | ⟨hev, b, hb, hheld, hempty⟩
      · rw [← hphase] at hheld
        cases hev : e.event? true with
        | none =>
          rw [hev] at hnode
          refine .shrinks hnone (.of_eq ⟨by rw [hnode]; rfl, by rw [hnode]; rfl⟩ ?_)
          simp [pending, queued, hheld, hnode]
        | some ev =>
          rw [hev] at hnode
          refine change_of_handled hnone hheld ?_ hnode
          intro tx he
          exact event?_room e tx (he ▸ hev)
      · rw [← hphase] at hempty
        rw [hev] at hnode
        refine .endsRound b hb ⟨by rw [hnode]; rfl, by rw [hnode]; rfl⟩ ?_ ?_
        · simp [pending, hheld]
        · simp [pending, queued, hempty, hnode]

/-- Only transactions get into the queue. -/
theorem queue_next (D : Digest) (id : String) (s : FullNode) (a : Action) :
    ∀ item ∈ (next D id s a).node.transactionPool.queue,
      item ∈ s.node.transactionPool.queue ∨ ∃ tx, item = .transaction tx := by
  intro item hitem
  obtain ⟨node, events, phase⟩ := s
  cases a with
  | receive sender message => exact .inl hitem
  | miner clock fuel =>
    left
    change item ∈ (minerStep D id clock fuel ⟨node, events, phase⟩).1.node.transactionPool.queue at hitem
    have hspec := minerStep_spec D id clock fuel ⟨node, events, phase⟩
    generalize minerStep D id clock fuel ⟨node, events, phase⟩ = r at hitem hspec
    cases hspec with
    | dequeue _ _ _ tx rest hq =>
      change item ∈ node.transactionPool.queue
      rw [hq]; exact List.mem_cons_of_mem _ hitem
    | finish _ _ _ reason rest hq =>
      change item ∈ node.transactionPool.queue
      rw [hq]; exact List.mem_cons_of_mem _ hitem
    | _ => exact hitem
  | processOne room =>
    cases events with
    | nil => exact .inl hitem
    | cons e rest =>
      have hnode : (next D id ⟨node, e :: rest, phase⟩ (.processOne room)).node = _ :=
        dispatch_node ⟨node, rest, phase⟩ room e
      rw [hnode] at hitem
      cases hev : e.event? room with
      | none => rw [hev] at hitem; exact .inl hitem
      | some ev =>
        rw [hev] at hitem
        change item ∈ (handle node ev).transactionPool.queue at hitem
        rcases handle_cases node ev with h | ⟨tx, room, _, _, hpo, h⟩ | ⟨b, _, _, h⟩
        · rw [h] at hitem; exact .inl hitem
        · rw [h] at hitem
          simp only [TransactionPool.add_queue, hpo, true_and] at hitem
          split at hitem
          · rcases List.mem_append.mp hitem with hi | hi
            · exact .inl hi
            · exact .inr ⟨tx, by simpa using hi⟩
          · exact .inl hitem
        · rw [h, addValidated_queue] at hitem
          exact .inl hitem

/-! ## Every pending transaction is pending once -/

structure Tracked (s : FullNode) : Prop where
  transactions : ∀ item ∈ s.node.transactionPool.queue, ∃ tx, item = .transaction tx
  distinct : ((pending s).map Transaction.hash).Nodup
  known : ∀ tx ∈ pending s, s.node.transactionPool.contains tx.hash = true ∨
    s.node.spentTransactionsStore.contains tx.hash = true

theorem tracked_boot (D : Digest) : Tracked (boot D) := by
  have hp : pending (boot D) = [] := rfl
  refine ⟨?_, ?_, ?_⟩
  · intro item hitem; cases hitem
  · rw [hp]; exact List.nodup_nil
  · intro tx htx; rw [hp] at htx; cases htx

variable {D : Digest} {id : String} {s : FullNode} {a : Action}

/-- Transactions may stop being pending. -/
theorem Tracked.of_sublist {s t : FullNode} (h : Tracked s)
    (hqueue : ∀ item ∈ t.node.transactionPool.queue, ∃ tx, item = .transaction tx)
    (hs : SameStores s t) (hsub : (pending t).Sublist (pending s)) : Tracked t := by
  refine ⟨hqueue, h.distinct.sublist (hsub.map _), ?_⟩
  intro tx htx
  rw [hs.1, hs.2]
  exact h.known tx (hsub.subset htx)

theorem Shrinks.sublist {s t : FullNode} (h : Shrinks s t) : (pending t).Sublist (pending s) := by
  obtain ⟨_, l, r, dropped, hs, ht, _⟩ := h
  rw [hs, ht, List.append_assoc]
  exact (List.Sublist.refl l).append (List.sublist_append_right dropped r)

theorem tracked_next (hroom : a ≠ .processOne false) (h : Tracked s) : Tracked (next D id s a) := by
  have hqueue : ∀ item ∈ (next D id s a).node.transactionPool.queue, ∃ tx, item = .transaction tx := by
    intro item hitem
    rcases queue_next D id s a item hitem with hi | hi
    · exact h.transactions item hi
    · exact hi
  have hchange := next_change D id hroom h.transactions
  generalize next D id s a = t at hqueue hchange ⊢
  cases hchange with
  | shrinks _ hshrinks => exact h.of_sublist hqueue hshrinks.1 hshrinks.sublist
  | pools tx _ hspent hpool hnode ht =>
    -- the new transaction is neither pooled nor spent, and everything pending is
    have hnew : ∀ t ∈ pending s, t.hash ≠ tx.hash := by
      intro t htin he
      rcases h.known t htin with hk | hk
      · rw [he, hpool] at hk; cases hk
      · rw [he, hspent] at hk; cases hk
    refine ⟨hqueue, ?_, ?_⟩
    · rw [ht, List.map_append, List.nodup_append]
      refine ⟨h.distinct, by simp, ?_⟩
      intro x hx y hy he
      obtain ⟨t, htin, rfl⟩ := List.mem_map.mp hx
      exact hnew t htin (by simpa [he] using hy)
    · intro t htin
      rw [hnode]
      rw [ht] at htin
      simp only [pooled_contains]
      rcases List.mem_append.mp htin with hi | hi
      · rcases h.known t hi with hk | hk
        · exact .inl (by simp [hk])
        · exact .inr hk
      · rw [List.mem_singleton] at hi
        exact .inl (by simp [hi])
  | adds b _ hnode ht =>
    refine ⟨hqueue, ?_, ?_⟩
    · rw [ht]; exact h.distinct
    · intro t htin
      rw [hnode, addValidated_pool_contains, addValidated_spent_contains]
      rw [ht] at htin
      rcases h.known t htin with hk | hk
      · by_cases hb : t.hash ∈ b.hashes
        · exact .inr (.inr ⟨hb, hk⟩)
        · exact .inl ⟨hk, hb⟩
      · exact .inr (.inl hk)
  | endsRound b _ hstores hs ht =>
    refine h.of_sublist hqueue hstores ?_
    rw [hs, ht]; exact List.sublist_append_right b.transactions (queued s)

/-- What is pooled is not among transactions that are not. -/
theorem not_mem_of_unpooled {pool : TransactionPool} {txs : List Transaction} {tx : Transaction}
    (h : ∀ t ∈ txs, pool.contains t.hash = false) (htx : tx ∈ pool.data) : tx ∉ txs := by
  intro hin
  have hc : pool.contains tx.hash = true := DBInternface.contains_of_mem htx
  rw [h tx hin] at hc
  cases hc

/-- A step keeps every pooled transaction within reach exactly when it does not
end a round with a transaction still pooled. -/
theorem reachable_next_iff (hroom : a ≠ .processOne false) (h : Tracked s) (hr : Reachable s) :
    EndsSpent s a ↔ Reachable (next D id s a) := by
  have hchange := next_change D id hroom h.transactions
  rw [reachable_iff] at hr ⊢
  unfold EndsSpent
  generalize next D id s a = t at hchange ⊢
  cases hchange with
  | shrinks hnone hshrinks =>
    obtain ⟨⟨hpool, _⟩, l, r, dropped, hs, ht, hd⟩ := hshrinks
    refine iff_of_true (by simp [hnone]) ?_
    intro tx htx
    rw [hpool] at htx
    have hin := hr tx htx
    have hkept : tx ∉ dropped := not_mem_of_unpooled hd htx
    rw [hs] at hin
    rw [ht]
    simpa [hkept] using hin
  | pools tx hnone _ hpool hnode ht =>
    refine iff_of_true (by simp [hnone]) ?_
    intro t htin
    rw [hnode] at htin
    rw [ht]
    simp only [TransactionPool.add_db, DBInternface.mem_put] at htin
    rcases htin with hi | ⟨hi, _⟩
    · exact List.mem_append_left _ (hr t hi)
    · exact List.mem_append_right _ (by simp [hi])
  | adds b hnone hnode ht =>
    refine iff_of_true (by simp [hnone]) ?_
    intro t htin
    rw [ht]
    apply hr
    rw [DBInternface.mem_data, hnode, addValidated_pool_get] at htin
    rw [DBInternface.mem_data]
    split at htin
    · cases htin
    · exact htin
  | endsRound b hb hstores hs ht =>
    rw [hb, ht, hstores.1]
    rw [hs] at hr
    constructor
    · intro hok tx htx
      rcases List.mem_append.mp (hr tx htx) with hi | hi
      · exact absurd hi (not_mem_of_unpooled (hok b rfl) htx)
      · exact hi
    · intro hall c hc tx htx
      cases hc
      -- a pooled transaction under the hash would be in the queue as well, and so pending twice
      by_contra hcon
      obtain ⟨v, hv, hvt⟩ := DBInternface.contains_iff.mp (Bool.eq_true_of_not_eq_false hcon)
      have hdis := h.distinct
      rw [hs, List.map_append, List.nodup_append] at hdis
      exact hdis.2.2 _ (List.mem_map_of_mem htx) _ (List.mem_map_of_mem (hall v hv)) hvt.symm

/-- **Pending votes stay within reach exactly while rounds end spent.** In every
run from a first start in which the queue takes every transaction, each pooled
transaction is in the queue or held by the miner at every point, if and only if
no round is ended, by a rejection or after the local validator, while a
transaction of its block is still pooled. -/
theorem pooled_within_reach_iff (D : Digest) (id : String) (as : List Action)
    (hroom : ∀ a ∈ as, a ≠ .processOne false) :
    (∀ pre, pre <+: as → Reachable (run (next D id) (boot D) pre)) ↔
      Along (next D id) EndsSpent (boot D) as := by
  have hstart : Reachable (boot D) := by
    intro tx htx
    simp [boot, start] at htx
  have hkeep : ∀ s a, a ≠ Action.processOne false → Tracked s → Tracked (next D id s a) :=
    fun s a ha hs => tracked_next ha hs
  have hstep : ∀ s a, a ≠ Action.processOne false → Tracked s → Reachable s →
      (EndsSpent s a ↔ Reachable (next D id s a)) := fun s a ha hs hr => reachable_next_iff ha hs hr
  exact throughout_iff_along_of_forall hkeep hstep as hroom (tracked_boot D) hstart

/-! ### Closed runs -/

/-- The peer's chain is ahead: it answers with a rejection. -/
def rejectedRound : List Action :=
  minedRound ++ [.receive "peer" (.blockRejected .wrongTimestamp), .processOne true]

/-- No answer comes in time, and the node's own validator lets the block in. -/
def timedOutRound : List Action :=
  minedRound ++ [.miner 0 0, .miner 0 0, .miner 0 0, .processOne true, .processOne true]

theorem rejected_votes_out_of_reach :
    (∀ a ∈ rejectedRound, a ≠ .processOne false) ∧
      ¬ Reachable (run (next votesDigest "miner") (boot votesDigest) rejectedRound) := by
  exact ⟨by decide, by decide +kernel⟩

theorem pooled_within_reach_iff_timedOutRound :
    (∀ a ∈ timedOutRound, a ≠ .processOne false) ∧
      ∀ pre, pre <+: timedOutRound →
        Reachable (run (next votesDigest "miner") (boot votesDigest) pre) := by
  have hroom : ∀ a ∈ timedOutRound, a ≠ .processOne false := by decide
  exact ⟨hroom, (pooled_within_reach_iff votesDigest "miner" timedOutRound hroom).mpr (by decide +kernel)⟩

end Krapi.PendingVotes
