import Krapi.Miner
import Krapi.Lib.Run

/-! # The batches that `wait` delivers

The event loop pools transactions and accepts blocks, the coroutine of the
initial block download ends with one `enqueue_stored`, and on a thread of its
own `wait(n)` takes transactions from the queue, looks each up in the pool and
collects those it finds until it has `n`. Any interleaving of these is a run.

Each transaction is looked up once, when it is taken. So a batch can hold a
transaction twice, if it was enqueued twice, and a transaction that was spent
since it was taken. Both are exact: the first takes an `enqueue_stored` over
what is queued already, the second a block that spends what is collected. -/
namespace Krapi.Batches
open Krapi.BlockchainModels Krapi.DBInterface Krapi.ChainStore Krapi.Validator Krapi.Pool
open Krapi.Handlers Krapi.Mining Krapi.Miner Krapi.Lib.Run

/-- A call of `TransactionPool::wait`, as far as it has come. -/
inductive Wait where
  | idle
  /-- The transactions so far, and the item dequeued but not yet looked up. -/
  | collecting (n : ℕ) (transactions : List Transaction) (item : Option Transaction)
  /-- It met a `PoolEndReason` and never completes. -/
  | ended
  deriving Repr, DecidableEq

/-- A batch, with what was pooled and what was spent when it was delivered. -/
structure Delivery where
  batch : List Transaction
  pool : DBInternface Transaction
  spent : SpentTransactionsStore

structure Feed where
  node : Node
  wait : Wait
  /-- A log that no step reads. -/
  delivered : List Delivery

/-- The stores as they were found, and a new queue. -/
def boot (chain : Blockchain) (pooled : DBInternface Transaction) (spent : SpentTransactionsStore) : Feed where
  node := { blockchain := chain, transactionPool := { pooled with queue := [] }, spentTransactionsStore := spent }
  wait := .idle
  delivered := []

/-- The next step of the task that `wait` posts: it delivers, or takes an item if
there is one, or looks up the item it took. -/
def waitStep (s : Feed) : Feed :=
  match s.wait with
  | .collecting n transactions none =>
    if transactions.length = n then
      { s with
        wait := .idle
        delivered := s.delivered ++
          [⟨transactions, s.node.transactionPool.toDBInternface, s.node.spentTransactionsStore⟩] }
    else
      match s.node.transactionPool.queue with
      | [] => s
      | .transaction tx :: rest =>
        { s with
          node := { s.node with transactionPool := { s.node.transactionPool with queue := rest } }
          wait := .collecting n transactions (some tx) }
      | .endReason _ :: rest =>
        { s with
          node := { s.node with transactionPool := { s.node.transactionPool with queue := rest } }
          wait := .ended }
  | .collecting n transactions (some tx) =>
    if (s.node.transactionPool.get tx.hash).isSome then
      { s with wait := .collecting n (transactions ++ [tx]) none }
    else { s with wait := .collecting n transactions none }
  | _ => s

inductive FeedAction where
  | event (e : Event)
  /-- The initial download puts a block into the store. -/
  | download (block : Block)
  | enqueueStored
  | end_ (reason : PoolEndReason)
  /-- The miner calls `wait(n)`, once the call before has completed. -/
  | wait (n : ℕ)
  | resume
  deriving Repr, DecidableEq

def feedStep (s : Feed) : FeedAction → Feed
  | .event e => { s with node := handle s.node e }
  | .download block => { s with node := { s.node with blockchain := (s.node.blockchain.put block).2 } }
  | .enqueueStored => { s with node := { s.node with transactionPool := s.node.transactionPool.enqueueStored } }
  | .end_ reason => { s with node := { s.node with transactionPool := s.node.transactionPool.end_ reason } }
  | .wait n =>
    match s.wait with
    | .idle => { s with wait := .collecting n [] none }
    | _ => s
  | .resume => waitStep s

/-! ## The miner's `wait` -/

def waitOf : Phase → Wait
  | .waiting batch item => .collecting batchSize batch item
  | .ended => .ended
  | _ => .idle

/-- In its `wait`, the miner's thread goes these steps with `n` its batch size. -/
theorem minerStep_waitStep (D : Digest) (id : String) (clock : UInt64) (fuel : ℕ) (s : FullNode)
    (log : List Delivery) (h : waitOf s.phase ≠ .idle) :
    waitOf (minerStep D id clock fuel s).1.phase = (waitStep ⟨s.node, waitOf s.phase, log⟩).wait ∧
      (minerStep D id clock fuel s).1.node = (waitStep ⟨s.node, waitOf s.phase, log⟩).node := by
  obtain ⟨node, events, phase⟩ := s
  cases phase with
  | waiting batch item =>
    cases item with
    | none =>
      by_cases hlength : batch.length = batchSize
      · simp [minerStep, waitStep, waitOf, hlength]
      · cases hqueue : node.transactionPool.queue with
        | nil => simp [minerStep, waitStep, waitOf, hlength, hqueue]
        | cons item rest => cases item <;> simp [minerStep, waitStep, waitOf, hlength, hqueue]
    | some tx =>
      by_cases hfound : (node.transactionPool.get tx.hash).isSome
      · simp [minerStep, waitStep, waitOf, hfound]
      · simp [minerStep, waitStep, waitOf, hfound]
  | ended => exact ⟨rfl, rfl⟩
  | _ => exact absurd rfl h

/-! ## What the steps do -/

/-- The transactions collected so far. -/
def Wait.batch : Wait → List Transaction
  | .collecting _ transactions _ => transactions
  | _ => []

/-- And the one that is looked up next. -/
def Wait.held : Wait → List Transaction
  | .collecting _ transactions item => transactions ++ item.toList
  | _ => []

def queued (pool : TransactionPool) : List Transaction :=
  pool.queue.filterMap fun
    | .transaction tx => some tx
    | .endReason _ => none

/-- What the call can still deliver: first what it holds, then the queue. -/
def pending (s : Feed) : List Transaction := s.wait.held ++ queued s.node.transactionPool

/-- The hash is pooled or spent. -/
def Known (n : Node) (hash : String) : Prop :=
  n.transactionPool.contains hash = true ∨ n.spentTransactionsStore.contains hash = true

/-- **What the call does in a step.** -/
inductive WaitMoves (s : Feed) : Feed → Prop where
  | blocked : WaitMoves s s
  | deliver (n : ℕ) (transactions : List Transaction) : s.wait = .collecting n transactions none →
      transactions.length = n → WaitMoves s { s with
        wait := .idle
        delivered := s.delivered ++
          [⟨transactions, s.node.transactionPool.toDBInternface, s.node.spentTransactionsStore⟩] }
  | dequeue (n : ℕ) (transactions : List Transaction) (tx : Transaction) (rest : List PoolItem) :
      s.wait = .collecting n transactions none → s.node.transactionPool.queue = .transaction tx :: rest →
      WaitMoves s { s with
        node := { s.node with transactionPool := { s.node.transactionPool with queue := rest } }
        wait := .collecting n transactions (some tx) }
  | finish (n : ℕ) (transactions : List Transaction) (reason : PoolEndReason) (rest : List PoolItem) :
      s.wait = .collecting n transactions none → s.node.transactionPool.queue = .endReason reason :: rest →
      WaitMoves s { s with
        node := { s.node with transactionPool := { s.node.transactionPool with queue := rest } }
        wait := .ended }
  | take (n : ℕ) (transactions : List Transaction) (tx : Transaction) :
      s.wait = .collecting n transactions (some tx) → s.node.transactionPool.contains tx.hash = true →
      WaitMoves s { s with wait := .collecting n (transactions ++ [tx]) none }
  | skip (n : ℕ) (transactions : List Transaction) (tx : Transaction) :
      s.wait = .collecting n transactions (some tx) → s.node.transactionPool.contains tx.hash = false →
      WaitMoves s { s with wait := .collecting n transactions none }

theorem waitStep_spec (s : Feed) : WaitMoves s (waitStep s) := by
  unfold waitStep
  split
  · rename_i n transactions hwait
    split
    · rename_i hlength
      exact .deliver n transactions hwait hlength
    · split
      · exact .blocked
      · rename_i tx rest hqueue
        exact .dequeue n transactions tx rest hwait hqueue
      · rename_i reason rest hqueue
        exact .finish n transactions reason rest hwait hqueue
  · rename_i n transactions tx hwait
    split
    · rename_i hfound
      exact .take n transactions tx hwait hfound
    · rename_i hfound
      exact .skip n transactions tx hwait (by simpa [DBInternface.contains] using hfound)
  · exact .blocked

/-- The call writes no store and only takes from what is pending. -/
theorem waitStep_stores (s : Feed) :
    (waitStep s).node.transactionPool.toDBInternface = s.node.transactionPool.toDBInternface ∧
      (waitStep s).node.spentTransactionsStore = s.node.spentTransactionsStore ∧
      (pending (waitStep s)).Sublist (pending s) := by
  have hmoves := waitStep_spec s
  generalize waitStep s = t at hmoves ⊢
  cases hmoves with
  | blocked => exact ⟨rfl, rfl, List.Sublist.refl _⟩
  | deliver n transactions hwait hlength => exact ⟨rfl, rfl, List.sublist_append_right _ _⟩
  | dequeue n transactions tx rest hwait hqueue =>
    refine ⟨rfl, rfl, ?_⟩
    simp [pending, queued, Wait.held, hwait, hqueue]
  | finish n transactions reason rest hwait hqueue =>
    refine ⟨rfl, rfl, ?_⟩
    simp [pending, queued, Wait.held, hwait, hqueue]
  | take n transactions tx hwait hfound =>
    refine ⟨rfl, rfl, ?_⟩
    simp [pending, Wait.held, hwait]
  | skip n transactions tx hwait hfound =>
    refine ⟨rfl, rfl, ?_⟩
    simp [pending, Wait.held, hwait]

theorem queued_add (pool : TransactionPool) (tx : Transaction) (room : Bool) :
    (queued (pool.add tx room).2).Sublist (queued pool ++ [tx]) := by
  unfold queued
  rw [TransactionPool.add_queue]
  split
  · rw [List.filterMap_append]
    exact List.Sublist.refl _
  · exact List.sublist_append_left _ _

theorem known_addValidated {n : Node} (b : Block) {hash : String} (h : Known n hash) :
    Known (addValidated n b) hash := by
  unfold Known
  rw [addValidated_pool_contains, addValidated_spent_contains]
  rcases h with hpool | hspent
  · by_cases hb : hash ∈ b.hashes
    · exact .inr (.inr ⟨hb, hpool⟩)
    · exact .inl ⟨hpool, hb⟩
  · exact .inr (.inl hspent)

/-- No event makes a node forget a hash. -/
theorem known_handle {n : Node} (e : Event) {hash : String} (h : Known n hash) : Known (handle n e) hash := by
  rcases handle_cases n e with he | ⟨tx, room, _, _, _, he⟩ | ⟨b, _, _, he⟩
  · rwa [he]
  · rw [he]
    rcases h with hpool | hspent
    · exact .inl (by rw [pooled_contains, hpool]; rfl)
    · exact .inr hspent
  · rw [he]
    exact known_addValidated _ h

/-! ## Distinct transactions -/

/-- `enqueue_stored` finds nothing in the pool that is queued or held already. -/
def SweepsNew (s : Feed) (a : FeedAction) : Prop :=
  a = .enqueueStored → ∀ tx ∈ s.node.transactionPool.data, tx.hash ∉ (pending s).map Transaction.hash

instance (s : Feed) (a : FeedAction) : Decidable (SweepsNew s a) := inferInstanceAs (Decidable (_ → _))

/-- What is pending has distinct hashes, all of which the node has seen. -/
structure Distinct (s : Feed) : Prop where
  hashes : ((pending s).map Transaction.hash).Nodup
  known : ∀ tx ∈ pending s, Known s.node tx.hash
  delivered : ∀ d ∈ s.delivered, (d.batch.map Transaction.hash).Nodup

theorem distinct_boot (chain : Blockchain) (pooled : DBInternface Transaction) (spent : SpentTransactionsStore) :
    Distinct (boot chain pooled spent) where
  hashes := List.nodup_nil
  known := fun _ htx => absurd htx List.not_mem_nil
  delivered := fun _ hd => absurd hd List.not_mem_nil

theorem Distinct.of_sublist {s t : Feed} (h : Distinct s) (hsub : (pending t).Sublist (pending s))
    (hknown : ∀ hash, Known s.node hash → Known t.node hash)
    (hdelivered : ∀ d ∈ t.delivered, d ∈ s.delivered ∨ d.batch.Sublist (pending s)) : Distinct t where
  hashes := h.hashes.sublist (hsub.map _)
  known := fun tx htx => hknown _ (h.known tx (hsub.subset htx))
  delivered := by
    intro d hd
    rcases hdelivered d hd with hd | hd
    · exact h.delivered d hd
    · exact h.hashes.sublist (hd.map _)

/-- A list of transactions that are not pending can be queued behind what is. -/
theorem Distinct.append {s t : Feed} (new : List Transaction) (h : Distinct s)
    (hpending : (pending t).Sublist (pending s ++ new)) (hdelivered : t.delivered = s.delivered)
    (hnew : (new.map Transaction.hash).Nodup)
    (hother : ∀ tx ∈ new, tx.hash ∉ (pending s).map Transaction.hash)
    (hknown : ∀ hash, Known s.node hash → Known t.node hash) (hadded : ∀ tx ∈ new, Known t.node tx.hash) :
    Distinct t where
  hashes := by
    refine List.Nodup.sublist (hpending.map _) ?_
    rw [List.map_append, List.nodup_append]
    refine ⟨h.hashes, hnew, ?_⟩
    intro hash hin hash' hin' he
    obtain ⟨tx, htx, rfl⟩ := List.mem_map.mp hin'
    exact hother tx htx (he ▸ hin)
  known := by
    intro tx htx
    rcases List.mem_append.mp (hpending.subset htx) with htx | htx
    · exact hknown _ (h.known tx htx)
    · exact hadded tx htx
  delivered := by
    rw [hdelivered]
    exact h.delivered

theorem Distinct.event {s : Feed} (h : Distinct s) (e : Event) : Distinct (feedStep s (.event e)) := by
  have hknown : ∀ hash, Known s.node hash → Known (handle s.node e) hash := fun _ => known_handle e
  rcases handle_cases s.node e with he | ⟨tx, room, _, hspent, hpool, he⟩ | ⟨b, _, _, he⟩
  · exact h.of_sublist (by simp [feedStep, he, pending]) hknown fun d hd => .inl hd
  · -- neither pooled nor spent, so it is not pending
    have hother : ∀ t ∈ [tx], t.hash ∉ (pending s).map Transaction.hash := by
      intro t ht hin
      rw [List.mem_singleton.mp ht] at hin
      obtain ⟨u, hu, heq⟩ := List.mem_map.mp hin
      rcases h.known u hu with hk | hk
      · rw [heq, hpool] at hk; cases hk
      · rw [heq, hspent] at hk; cases hk
    refine h.append [tx] ?_ rfl (List.nodup_singleton _) hother hknown ?_
    · show (s.wait.held ++ queued (handle s.node e).transactionPool).Sublist (pending s ++ [tx])
      rw [he, pending, List.append_assoc]
      exact (List.Sublist.refl _).append (queued_add _ _ _)
    · intro t ht
      rw [List.mem_singleton.mp ht]
      show Known (handle s.node e) tx.hash
      rw [he]
      exact .inl (by rw [pooled_contains, beq_self_eq_true, Bool.or_true])
  · refine h.of_sublist ?_ hknown fun d hd => .inl hd
    show (s.wait.held ++ queued (handle s.node e).transactionPool).Sublist (pending s)
    rw [he, queued, addValidated_queue]
    exact List.Sublist.refl _

theorem Distinct.enqueueStored {s : Feed} (h : Distinct s) (hnew : SweepsNew s .enqueueStored) :
    Distinct (feedStep s .enqueueStored) := by
  refine h.append s.node.transactionPool.data ?_ rfl ?_ (hnew rfl) (fun _ hk => hk) ?_
  · show (s.wait.held ++ queued s.node.transactionPool.enqueueStored).Sublist _
    have hqueued : queued s.node.transactionPool.enqueueStored =
        queued s.node.transactionPool ++ s.node.transactionPool.data := by
      unfold queued
      rw [TransactionPool.enqueueStored_queue, List.filterMap_append, List.filterMap_map]
      exact congrArg _ List.filterMap_some
    rw [hqueued, pending, List.append_assoc]
  · rw [List.Nodup, List.pairwise_map]
    refine s.node.transactionPool.data_nodup.imp_of_mem ?_
    intro tx u htx hu hne he
    exact hne (DBInternface.eq_of_tag_eq htx hu he)
  · intro tx htx
    exact .inl (DBInternface.contains_of_mem htx)

theorem Distinct.resume {s : Feed} (h : Distinct s) : Distinct (waitStep s) := by
  obtain ⟨hpool, hspent, hsub⟩ := waitStep_stores s
  refine h.of_sublist hsub ?_ ?_
  · intro hash hk
    unfold Known
    rw [hpool, hspent]
    exact hk
  · intro d hd
    have hmoves := waitStep_spec s
    generalize waitStep s = t at hmoves hd
    cases hmoves with
    | deliver n transactions hwait hlength =>
      rcases List.mem_append.mp hd with hd | hd
      · exact .inl hd
      · rw [List.mem_singleton.mp hd]
        refine .inr ?_
        simp [pending, Wait.held, hwait]
    | _ => exact .inl hd

theorem Distinct.step {s : Feed} {a : FeedAction} (hnew : SweepsNew s a) (h : Distinct s) :
    Distinct (feedStep s a) := by
  cases a with
  | event e => exact h.event e
  | download block => exact h.of_sublist (List.Sublist.refl _) (fun _ hk => hk) fun d hd => .inl hd
  | enqueueStored => exact h.enqueueStored hnew
  | end_ reason =>
    refine h.of_sublist ?_ (fun _ hk => hk) fun d hd => .inl hd
    simp [feedStep, pending, queued, TransactionPool.end_]
  | wait n =>
    unfold feedStep
    dsimp only
    split
    · exact h.of_sublist (List.sublist_append_right _ _) (fun _ hk => hk) fun d hd => .inl hd
    · exact h
  | resume => exact h.resume

/-- **No batch holds a transaction twice where nothing is enqueued twice.** In every
run from a boot on any stores, in which each `enqueue_stored` finds nothing in the
pool that is queued or held already: the transactions of every delivered batch
have distinct hashes, and so have those of a block mined from it. -/
theorem batches_distinct (chain : Blockchain) (pooled : DBInternface Transaction) (spent : SpentTransactionsStore)
    (as : List FeedAction) (hnew : Along feedStep SweepsNew (boot chain pooled spent) as) :
    ∀ d ∈ (run feedStep (boot chain pooled spent) as).delivered,
      (d.batch.map Transaction.hash).Nodup ∧
      ∀ D previousHash identity clock fuel b,
        miningFunction D previousHash identity d.batch clock fuel = some b → b.hashes.Nodup := by
  have h := run_keeps_along (I := Distinct) (fun _ _ hnew h => h.step hnew) as hnew
    (distinct_boot chain pooled spent)
  intro d hd
  have hnodup := h.delivered d hd
  refine ⟨hnodup, ?_⟩
  intro D previousHash identity clock fuel b hb
  rwa [Block.hashes, miningFunction_transactions hb]

/-- Three votes reach the node before its initial download is over. -/
def sweptTwice : List FeedAction :=
  [.event (.addTransaction (sampleVote "AA") true), .event (.addTransaction (sampleVote "BB") true),
    .event (.addTransaction (sampleVote "CC") true), FeedAction.enqueueStored, FeedAction.wait 5] ++
    List.replicate 11 FeedAction.resume

theorem vote_twice_in_batch :
    ∃ d ∈ (run feedStep (boot (fromPath sampleDigest DBInternface.empty) DBInternface.empty DBInternface.empty)
      sweptTwice).delivered, ¬ (d.batch.map Transaction.hash).Nodup := by
  decide +kernel

/-- Two votes that the pool database held at the start. -/
def leftOver : DBInternface Transaction :=
  ((DBInternface.empty.put (sampleVote "XX")).2.put (sampleVote "YY")).2

/-- The sweep queues what was left over, and the votes come after it. -/
def sweptOnce : List FeedAction :=
  [FeedAction.enqueueStored, .event (.addTransaction (sampleVote "AA") true),
    .event (.addTransaction (sampleVote "BB") true), FeedAction.wait 4] ++ List.replicate 9 FeedAction.resume

theorem batches_distinct_sweptOnce :
    ∃ d ∈ (run feedStep (boot (fromPath sampleDigest DBInternface.empty) leftOver DBInternface.empty)
      sweptOnce).delivered, d.batch.length = 4 ∧ (d.batch.map Transaction.hash).Nodup := by
  obtain ⟨d, hd, hfour⟩ : ∃ d ∈ (run feedStep
      (boot (fromPath sampleDigest DBInternface.empty) leftOver DBInternface.empty)
      sweptOnce).delivered, d.batch.length = 4 := by
    decide +kernel
  exact ⟨d, hd, hfour, (batches_distinct _ _ _ sweptOnce (by decide +kernel) d hd).1⟩

/-! ## Transactions that are still pooled -/

/-- A block that is accepted spends nothing that is collected. -/
def SparesCollected (s : Feed) : FeedAction → Prop
  | .event e => ∀ b ∈ e.block?, Accepts s.node b → ∀ tx ∈ s.wait.batch, tx.hash ∉ b.hashes
  | _ => True

instance (s : Feed) (a : FeedAction) : Decidable (SparesCollected s a) :=
  match a with
  | .event e =>
    inferInstanceAs (Decidable (∀ b ∈ e.block?, Accepts s.node b → ∀ tx ∈ s.wait.batch, tx.hash ∉ b.hashes))
  | .download _ => isTrue trivial
  | .enqueueStored => isTrue trivial
  | .end_ _ => isTrue trivial
  | .wait _ => isTrue trivial
  | .resume => isTrue trivial

/-- When it was delivered, all of the batch was pooled. -/
def Delivery.Pooled (d : Delivery) : Prop := ∀ tx ∈ d.batch, d.pool.contains tx.hash = true

instance (d : Delivery) : Decidable d.Pooled :=
  inferInstanceAs (Decidable (∀ tx ∈ d.batch, d.pool.contains tx.hash = true))

/-- Pool and spent store have no hash in common. -/
def Apart (n : Node) : Prop :=
  ∀ hash, n.transactionPool.contains hash = true → n.spentTransactionsStore.contains hash = false

theorem apart_handle {n : Node} (e : Event) (h : Apart n) : Apart (handle n e) := by
  rcases handle_cases n e with he | ⟨tx, room, _, hspent, _, he⟩ | ⟨b, _, _, he⟩
  · rwa [he]
  · rw [he]
    intro hash hin
    rw [pooled_contains, Bool.or_eq_true, beq_iff_eq] at hin
    rcases hin with hin | rfl
    · exact h hash hin
    · exact hspent
  · rw [he]
    intro hash hin
    obtain ⟨hpool, hout⟩ := (addValidated_pool_contains _ _ _).mp hin
    rw [Bool.eq_false_iff]
    intro hspent
    rcases (addValidated_spent_contains _ _ _).mp hspent with hspent | ⟨hb, _⟩
    · rw [h hash hpool] at hspent; cases hspent
    · exact hout hb

/-- What is collected is pooled, and so was what has been delivered. -/
structure Current (s : Feed) : Prop where
  apart : Apart s.node
  batch : ∀ tx ∈ s.wait.batch, s.node.transactionPool.contains tx.hash = true
  delivered : ∀ d ∈ s.delivered, d.Pooled ∧ ∀ tx ∈ d.batch, d.spent.contains tx.hash = false

/-- The call looks up what it collects and delivers it at once. -/
theorem Current.resume {s : Feed} (h : Current s) : Current (waitStep s) := by
  obtain ⟨hpool, hspent, _⟩ := waitStep_stores s
  have hmoves := waitStep_spec s
  generalize waitStep s = t at hpool hspent hmoves ⊢
  have hapart : Apart t.node := by
    unfold Apart
    rw [hpool, hspent]
    exact h.apart
  cases hmoves with
  | blocked => exact h
  | deliver n transactions hwait hlength =>
    refine ⟨hapart, fun tx htx => absurd htx List.not_mem_nil, ?_⟩
    intro d hd
    rcases List.mem_append.mp hd with hd | hd
    · exact h.delivered d hd
    · rw [List.mem_singleton.mp hd]
      have hbatch : ∀ tx ∈ transactions, s.node.transactionPool.contains tx.hash = true := by
        intro tx htx
        exact h.batch tx (by rw [hwait]; exact htx)
      exact ⟨hbatch, fun tx htx => h.apart _ (hbatch tx htx)⟩
  | dequeue n transactions tx rest hwait hqueue =>
    exact ⟨hapart, fun t ht => h.batch t (by rw [hwait]; exact ht), h.delivered⟩
  | finish n transactions reason rest hwait hqueue =>
    exact ⟨hapart, fun t ht => absurd ht List.not_mem_nil, h.delivered⟩
  | take n transactions tx hwait hfound =>
    refine ⟨hapart, ?_, h.delivered⟩
    intro t ht
    rcases List.mem_append.mp ht with ht | ht
    · exact h.batch t (by rw [hwait]; exact ht)
    · rw [List.mem_singleton.mp ht]
      exact hfound
  | skip n transactions tx hwait hfound =>
    exact ⟨hapart, fun t ht => h.batch t (by rw [hwait]; exact ht), h.delivered⟩

theorem Current.step {s : Feed} {a : FeedAction} (hspares : SparesCollected s a) (h : Current s) :
    Current (feedStep s a) := by
  cases a with
  | event e =>
    refine ⟨apart_handle e h.apart, ?_, h.delivered⟩
    intro tx htx
    show (handle s.node e).transactionPool.contains tx.hash = true
    rcases handle_cases s.node e with he | ⟨u, room, _, _, _, he⟩ | ⟨b, hb, hacc, he⟩
    · rw [he]
      exact h.batch tx htx
    · rw [he]
      dsimp only
      rw [pooled_contains, h.batch tx htx]
      rfl
    · rw [he, addValidated_pool_contains, Block.verified_hashes]
      exact ⟨h.batch tx htx, hspares b hb hacc tx htx⟩
  | wait n =>
    unfold feedStep
    dsimp only
    split
    · exact ⟨h.apart, fun tx htx => absurd htx List.not_mem_nil, h.delivered⟩
    · exact h
  | resume => exact h.resume
  | _ => exact ⟨h.apart, h.batch, h.delivered⟩

/-! ### A collected transaction that is spent stays in the batch -/

/-- What is collected has been seen. -/
def Seen (s : Feed) : Prop := ∀ tx ∈ s.wait.batch, Known s.node tx.hash

theorem seen_step {s : Feed} (a : FeedAction) (h : Seen s) : Seen (feedStep s a) := by
  cases a with
  | event e => exact fun tx htx => known_handle e (h tx htx)
  | wait n =>
    unfold feedStep
    dsimp only
    split
    · exact fun tx htx => absurd htx List.not_mem_nil
    · exact h
  | resume =>
    have hmoves := waitStep_spec s
    show Seen (waitStep s)
    generalize waitStep s = t at hmoves ⊢
    cases hmoves with
    | blocked => exact h
    | deliver n transactions hwait hlength => exact fun tx htx => absurd htx List.not_mem_nil
    | finish n transactions reason rest hwait hqueue => exact fun tx htx => absurd htx List.not_mem_nil
    | take n transactions tx hwait hfound =>
      intro t ht
      rcases List.mem_append.mp ht with ht | ht
      · exact h t (by rw [hwait]; exact ht)
      · rw [List.mem_singleton.mp ht]
        exact .inl hfound
    | dequeue n transactions tx rest hwait hqueue => exact fun t ht => h t (by rw [hwait]; exact ht)
    | skip n transactions tx hwait hfound => exact fun t ht => h t (by rw [hwait]; exact ht)
  | _ => exact h

/-- The hash was spent and will not be pooled again. -/
def Gone (n : Node) (hash : String) : Prop :=
  n.transactionPool.contains hash = false ∧ n.spentTransactionsStore.contains hash = true

theorem gone_handle {n : Node} (e : Event) {hash : String} (h : Gone n hash) : Gone (handle n e) hash := by
  obtain ⟨hpool, hspent⟩ := h
  rcases handle_cases n e with he | ⟨tx, room, _, hnot, _, he⟩ | ⟨b, _, _, he⟩
  · rw [he]
    exact ⟨hpool, hspent⟩
  · rw [he]
    have hne : tx.hash ≠ hash := by
      rintro rfl
      rw [hspent] at hnot; cases hnot
    exact ⟨by rw [pooled_contains, hpool, beq_false_of_ne hne]; rfl, hspent⟩
  · rw [he]
    refine ⟨?_, (addValidated_spent_contains _ _ _).mpr (.inl hspent)⟩
    rw [Bool.eq_false_iff]
    intro hin
    rw [((addValidated_pool_contains _ _ _).mp hin).1] at hpool
    cases hpool

/-- The call ends for good, or delivers something spent, or has done so. -/
def Doomed (s : Feed) : Prop :=
  s.wait = .ended ∨ (∃ tx ∈ s.wait.batch, Gone s.node tx.hash) ∨ ∃ d ∈ s.delivered, ¬ d.Pooled

theorem doomed_resume {s : Feed} (h : Doomed s) : Doomed (waitStep s) := by
  have hmoves := waitStep_spec s
  generalize waitStep s = t at hmoves ⊢
  cases hmoves with
  | blocked => exact h
  | deliver n transactions hwait hlength =>
    rcases h with hended | ⟨tx, htx, hpool, _⟩ | ⟨d, hd, hnot⟩
    · rw [hwait] at hended; cases hended
    · rw [hwait] at htx
      refine .inr (.inr ⟨_, List.mem_append_right _ (List.mem_singleton_self _), ?_⟩)
      intro hall
      rw [hall tx htx] at hpool
      cases hpool
    · exact .inr (.inr ⟨d, List.mem_append_left _ hd, hnot⟩)
  | finish n transactions reason rest hwait hqueue => exact .inl rfl
  | dequeue n transactions tx rest hwait hqueue =>
    rcases h with hended | ⟨t, ht, hgone⟩ | hdelivered
    · rw [hwait] at hended; cases hended
    · exact .inr (.inl ⟨t, by rwa [hwait] at ht, hgone⟩)
    · exact .inr (.inr hdelivered)
  | take n transactions tx hwait hfound =>
    rcases h with hended | ⟨t, ht, hgone⟩ | hdelivered
    · rw [hwait] at hended; cases hended
    · exact .inr (.inl ⟨t, List.mem_append_left _ (by rwa [hwait] at ht), hgone⟩)
    · exact .inr (.inr hdelivered)
  | skip n transactions tx hwait hfound =>
    rcases h with hended | ⟨t, ht, hgone⟩ | hdelivered
    · rw [hwait] at hended; cases hended
    · exact .inr (.inl ⟨t, by rwa [hwait] at ht, hgone⟩)
    · exact .inr (.inr hdelivered)

theorem doomed_step {s : Feed} (a : FeedAction) (h : Doomed s) : Doomed (feedStep s a) := by
  cases a with
  | event e =>
    rcases h with hended | ⟨tx, htx, hgone⟩ | hdelivered
    · exact .inl hended
    · exact .inr (.inl ⟨tx, htx, gone_handle e hgone⟩)
    · exact .inr (.inr hdelivered)
  | wait n =>
    unfold feedStep
    dsimp only
    split
    · rename_i hidle
      rcases h with hended | ⟨tx, htx, _⟩ | hdelivered
      · rw [hidle] at hended; cases hended
      · rw [hidle] at htx
        exact absurd htx List.not_mem_nil
      · exact .inr (.inr hdelivered)
    · exact h
  | resume => exact doomed_resume h
  | _ => exact h

/-- A block that spends something collected dooms the batch. -/
theorem doomed_of_not_spares {s : Feed} {a : FeedAction} (hseen : Seen s) (h : ¬ SparesCollected s a) :
    Doomed (feedStep s a) := by
  cases a with
  | event e =>
    simp only [SparesCollected, not_forall, not_not] at h
    obtain ⟨b, hb, hacc, tx, htx, hin⟩ := h
    refine .inr (.inl ⟨tx, htx, ?_⟩)
    show Gone (handle s.node e) tx.hash
    have hhandle : handle s.node e = addValidated s.node b.verified :=
      (handle_block s.node hb).trans (if_pos hacc)
    rw [hhandle]
    refine ⟨?_, ?_⟩
    · rw [Bool.eq_false_iff]
      intro hpooled
      exact ((addValidated_pool_contains _ _ _).mp hpooled).2 (by rwa [Block.verified_hashes])
    · rw [addValidated_spent_contains, Block.verified_hashes]
      rcases hseen tx htx with hpool | hspent
      · exact .inr ⟨hin, hpool⟩
      · exact .inl hspent
  | _ => exact absurd trivial h

theorem along_of_not_doomed {s : Feed} (as : List FeedAction) (hseen : Seen s)
    (h : ¬ Doomed (run feedStep s as)) : Along feedStep SparesCollected s as := by
  induction as generalizing s with
  | nil => trivial
  | cons a as ih =>
    refine ⟨?_, ih (seen_step a hseen) h⟩
    by_contra hnot
    have hdoomed := doomed_of_not_spares hseen hnot
    exact h (run_keeps (I := Doomed) (fun _ a h => doomed_step a h) as hdoomed)

/-- **A batch is still pooled exactly where nothing collected is spent.** From a boot
on stores that have no hash in common, and for every run: if no block that is
accepted lists a transaction that the call has collected, then everything in a
delivered batch is pooled at that moment, and no block of these transactions
would be turned down as spent. And where every call has completed, this is the
only way. -/
theorem delivered_pooled_iff (chain : Blockchain) (pooled : DBInternface Transaction)
    (spent : SpentTransactionsStore)
    (hapart : ∀ hash, pooled.contains hash = true → spent.contains hash = false) (as : List FeedAction) :
    (Along feedStep SparesCollected (boot chain pooled spent) as →
      ∀ d ∈ (run feedStep (boot chain pooled spent) as).delivered, d.Pooled ∧
        ∀ chain b, b.transactions = d.batch → validateBlock chain d.spent b ≠ .transactionAlreadySpent) ∧
    ((run feedStep (boot chain pooled spent) as).wait = .idle →
      (∀ d ∈ (run feedStep (boot chain pooled spent) as).delivered, d.Pooled) →
      Along feedStep SparesCollected (boot chain pooled spent) as) := by
  refine ⟨?_, ?_⟩
  · intro hspares d hd
    have hboot : Current (boot chain pooled spent) :=
      ⟨hapart, fun _ htx => absurd htx List.not_mem_nil, fun _ hd => absurd hd List.not_mem_nil⟩
    have h := run_keeps_along (I := Current) (fun _ _ hspares h => h.step hspares) as hspares hboot
    obtain ⟨hpooled, hspent⟩ := h.delivered d hd
    refine ⟨hpooled, ?_⟩
    intro chain b hb hstate
    have hnone : ¬ ∃ tx ∈ b.transactions, d.spent.contains tx.hash = true := by
      intro ⟨tx, htx, hin⟩
      rw [hspent tx (hb ▸ htx)] at hin
      cases hin
    unfold validateBlock at hstate
    rw [validateTransactions_cases, if_neg hnone] at hstate
    dsimp only at hstate
    split at hstate
    · exact validateHeader_ne_spent _ _ hstate
    · cases hstate
  · intro hidle hpooled
    apply along_of_not_doomed as fun _ htx => absurd htx List.not_mem_nil
    rintro (hended | ⟨tx, htx, _⟩ | ⟨d, hd, hnot⟩)
    · rw [hidle] at hended; cases hended
    · rw [hidle] at htx
      exact absurd htx List.not_mem_nil
    · exact hnot (hpooled d hd)

/-- A block with the first vote arrives while the call waits for the other four. -/
def spentMeanwhile : List FeedAction :=
  [.event (.addTransaction (sampleVote "AA") true), FeedAction.wait 5, FeedAction.resume, FeedAction.resume,
    .event (.addBlock "peer" (sampleBlock "0000B1" genesisHash 1670000001000 [sampleVote "AA"])),
    .event (.addTransaction (sampleVote "BB") true), .event (.addTransaction (sampleVote "CC") true),
    .event (.addTransaction (sampleVote "DD") true), .event (.addTransaction (sampleVote "EE") true)] ++
    List.replicate 9 FeedAction.resume

theorem spent_vote_delivered :
    ∃ d ∈ (run feedStep (boot (fromPath sampleDigest DBInternface.empty) DBInternface.empty DBInternface.empty)
      spentMeanwhile).delivered, ¬ d.Pooled := by
  decide +kernel

theorem delivered_pooled_iff_sweptOnce :
    ∃ d ∈ (run feedStep (boot (fromPath sampleDigest DBInternface.empty) leftOver DBInternface.empty)
      sweptOnce).delivered, d.batch.length = 4 ∧ d.Pooled := by
  obtain ⟨d, hd, hfour⟩ : ∃ d ∈ (run feedStep
      (boot (fromPath sampleDigest DBInternface.empty) leftOver DBInternface.empty)
      sweptOnce).delivered, d.batch.length = 4 := by
    decide +kernel
  exact ⟨d, hd, hfour, ((delivered_pooled_iff _ _ _ (by simp) sweptOnce).1 (by decide +kernel) d hd).1⟩

end Krapi.Batches
