import Krapi.Batches

/-! # The segments of the queue that `wait` consumes

What a call of `wait` returns depends on what it found in the database at each
of its lookups, and no state keeps that. So a history is written beside the
run: what was enqueued and, for each call, what it dequeued and what each
lookup found. Between any two steps of a call, entries may be enqueued and
transactions put into the database or removed from it. -/
namespace Krapi.Segments
open Krapi.BlockchainModels Krapi.DBInterface Krapi.ChainStore Krapi.Validator Krapi.Pool
open Krapi.Handlers Krapi.Batches Krapi.Lib.Run

inductive SupplyAction where
  | enqueue (tx : Transaction)
  | put (tx : Transaction)
  | remove (tx : Transaction)
  /-- The other stores of the node are written. -/
  | elsewhere (chain : Blockchain) (spent : SpentTransactionsStore)
  | wait (n : ℕ)
  | resume

def withPool (s : Feed) (pool : TransactionPool) : Feed :=
  { s with node := { s.node with transactionPool := pool } }

def supplyStep (s : Feed) : SupplyAction → Feed
  | .enqueue tx =>
    withPool s { s.node.transactionPool with queue := s.node.transactionPool.queue ++ [.transaction tx] }
  | .put tx => withPool s (s.node.transactionPool.withDB (s.node.transactionPool.toDBInternface.put tx).2)
  | .remove tx => withPool s (s.node.transactionPool.remove tx).2
  | .elsewhere chain spent =>
    { s with node := { s.node with blockchain := chain, spentTransactionsStore := spent } }
  | .wait n => feedStep s (.wait n)
  | .resume => waitStep s

/-! ## A full node supplies its pool so -/

theorem run_enqueues (txs : List Transaction) (s : Feed) :
    run supplyStep s (txs.map SupplyAction.enqueue) =
      withPool s { s.node.transactionPool with
        queue := s.node.transactionPool.queue ++ txs.map PoolItem.transaction } := by
  induction txs generalizing s with
  | nil => simp [withPool]
  | cons tx rest ih =>
    rw [List.map_cons, run_cons, ih]
    simp [supplyStep, withPool]

theorem run_removes (txs : List Transaction) (s : Feed) (spent : SpentTransactionsStore) :
    run supplyStep s (txs.map SupplyAction.remove) =
      withPool s (txs.foldl spendTransaction (s.node.transactionPool, spent)).1 := by
  induction txs generalizing s spent with
  | nil => rfl
  | cons tx rest ih =>
    rw [List.map_cons, run_cons, List.foldl_cons, spendTransaction_eq, ih]
    rfl

theorem add_eq_run (s : Feed) {tx : Transaction} (room : Bool)
    (hnew : s.node.transactionPool.contains tx.hash = false) :
    withPool s (s.node.transactionPool.add tx room).2 =
      run supplyStep s (.put tx :: if room then [.enqueue tx] else []) := by
  cases room with
  | true =>
    refine congrArg (withPool s) (TransactionPool.ext_db_queue (TransactionPool.add_db _ _ _) ?_)
    rw [TransactionPool.add_queue, if_pos ⟨hnew, rfl⟩]
    rfl
  | false =>
    refine congrArg (withPool s) (TransactionPool.ext_db_queue (TransactionPool.add_db _ _ _) ?_)
    rw [TransactionPool.add_queue, if_neg (by simp)]
    rfl

/-- **Every step of a node but `end` is made of these.** A pooled transaction is
put and enqueued, a block removes what it lists, the sweep enqueues one entry
after the other. -/
theorem feedStep_eq_run (s : Feed) (a : FeedAction) (h : ∀ reason, a ≠ .end_ reason) :
    ∃ bs, feedStep s a = run supplyStep s bs := by
  cases a with
  | event e =>
    rcases handle_cases s.node e with he | ⟨tx, room, _, _, hpool, he⟩ | ⟨b, _, _, he⟩
    · exact ⟨[], by rw [feedStep, he]; rfl⟩
    · refine ⟨_, Eq.trans ?_ (add_eq_run s room hpool)⟩
      rw [feedStep, he]
      rfl
    · refine ⟨b.verified.transactions.map .remove ++ [.elsewhere (addValidated s.node b.verified).blockchain
        (addValidated s.node b.verified).spentTransactionsStore], ?_⟩
      rw [feedStep, he, run_concat, run_removes _ _ s.node.spentTransactionsStore]
      rfl
  | download block =>
    exact ⟨[.elsewhere (s.node.blockchain.put block).2 s.node.spentTransactionsStore], rfl⟩
  | enqueueStored => exact ⟨s.node.transactionPool.data.map .enqueue, (run_enqueues _ s).symm⟩
  | end_ reason => exact absurd rfl (h reason)
  | wait n => exact ⟨[.wait n], rfl⟩
  | resume => exact ⟨[.resume], rfl⟩

theorem feed_run_eq (as : List FeedAction) (s : Feed) (h : ∀ a ∈ as, ∀ reason, a ≠ .end_ reason) :
    ∃ bs, run feedStep s as = run supplyStep s bs := by
  induction as generalizing s with
  | nil => exact ⟨[], rfl⟩
  | cons a as ih =>
    obtain ⟨first, hfirst⟩ := feedStep_eq_run s a (h a List.mem_cons_self)
    obtain ⟨rest, hrest⟩ := ih (feedStep s a) fun b hb => h b (List.mem_cons_of_mem _ hb)
    exact ⟨first ++ rest, by rw [run_cons, hrest, run_append, hfirst]⟩

/-! ## The history of a run -/

/-- A call of `wait(n)`: what it dequeued, and what the lookup of each entry found. -/
structure Call where
  n : ℕ
  dequeued : List Transaction
  looked : List (Transaction × Bool)

structure History where
  enqueued : List Transaction
  completed : List Call
  current : Option Call

namespace Call

def dequeue (c : Call) (tx : Transaction) : Call := { c with dequeued := c.dequeued ++ [tx] }

def look (c : Call) (tx : Transaction) (pooled : Bool) : Call :=
  { c with looked := c.looked ++ [(tx, pooled)] }

end Call

/-- What is written into the history as the action is taken in `s`. -/
def observe (s : Feed) (h : History) : SupplyAction → History
  | .enqueue tx => { h with enqueued := h.enqueued ++ [tx] }
  | .wait n =>
    match s.wait with
    | .idle => { h with current := some ⟨n, [], []⟩ }
    | _ => h
  | .resume =>
    match s.wait with
    | .collecting n transactions none =>
      if transactions.length = n then
        { h with completed := h.completed ++ h.current.toList, current := none }
      else
        match s.node.transactionPool.queue with
        | .transaction tx :: _ => { h with current := h.current.map (·.dequeue tx) }
        | _ => h
    | .collecting _ _ (some tx) =>
      { h with current := h.current.map (·.look tx (s.node.transactionPool.get tx.hash).isSome) }
    | _ => h
  | _ => h

/-- A step beside which the history is written. -/
def watch (s : Feed × History) (a : SupplyAction) : Feed × History := (supplyStep s.1 a, observe s.1 s.2 a)

/-- The program runs as it does without the history. -/
theorem run_watch_fst (s : Feed) (h : History) (as : List SupplyAction) :
    (run watch (s, h) as).1 = run supplyStep s as := by
  induction as generalizing s h with
  | nil => rfl
  | cons a as ih => exact ih _ _

/-! ## What a call returns -/

/-- The entries that were in the database when they were looked up. -/
def found (looked : List (Transaction × Bool)) : List Transaction := (looked.filter Prod.snd).map Prod.fst

/-- No entry is dequeued once `n` were found. -/
def Frugal (c : Call) : Prop := ∀ pre e, pre ++ [e] <+: c.looked → (found pre).length < c.n

/-- The call dequeued what it looked up, returned what it found, and that is `n` transactions. -/
structure Completes (c : Call) (d : Delivery) : Prop where
  dequeued : c.dequeued = c.looked.map Prod.fst
  batch : d.batch = found c.looked
  length : d.batch.length = c.n
  frugal : Frugal c

theorem found_concat (looked : List (Transaction × Bool)) (tx : Transaction) (pooled : Bool) :
    found (looked ++ [(tx, pooled)]) = if pooled then found looked ++ [tx] else found looked := by
  cases pooled <;> simp [found]

theorem found_sublist (looked : List (Transaction × Bool)) : (found looked).Sublist (looked.map Prod.fst) :=
  List.filter_sublist.map _

/-- A call that has come as far as this `collecting`. -/
structure Collects (c : Call) (n : ℕ) (transactions : List Transaction) (item : Option Transaction) : Prop where
  asked : c.n = n
  batch : found c.looked = transactions
  dequeued : c.dequeued = c.looked.map Prod.fst ++ item.toList
  frugal : Frugal c
  room : transactions.length + item.toList.length ≤ n

theorem collects_new (n : ℕ) : Collects ⟨n, [], []⟩ n [] none where
  asked := rfl
  batch := rfl
  dequeued := rfl
  frugal := fun pre e h => by simp at h
  room := Nat.zero_le n

variable {c : Call} {n : ℕ} {transactions : List Transaction}

theorem Collects.dequeue (h : Collects c n transactions none) (hmore : transactions.length ≠ n)
    (tx : Transaction) : Collects (c.dequeue tx) n transactions (some tx) where
  asked := h.asked
  batch := h.batch
  dequeued := by
    show c.dequeued ++ [tx] = c.looked.map Prod.fst ++ [tx]
    rw [h.dequeued]
    simp
  frugal := h.frugal
  room := by
    have hroom := h.room
    simp only [Option.toList_none, Option.toList_some, List.length_nil, List.length_singleton] at hroom ⊢
    omega

theorem Collects.look {tx : Transaction} (h : Collects c n transactions (some tx)) (pooled : Bool) :
    Collects (c.look tx pooled) n (if pooled then transactions ++ [tx] else transactions) none where
  asked := h.asked
  batch := by
    show found (c.looked ++ [(tx, pooled)]) = _
    rw [found_concat, h.batch]
  dequeued := by
    show c.dequeued = (c.looked ++ [(tx, pooled)]).map Prod.fst ++ []
    rw [h.dequeued]
    simp
  frugal := by
    intro pre e hpre
    rcases List.prefix_concat_iff.mp hpre with heq | hpre
    · -- the entry that was just looked up: there was still room for it
      obtain ⟨rfl, _⟩ := List.append_inj' heq rfl
      have hroom := h.room
      rw [h.batch]
      show transactions.length < c.n
      rw [h.asked]
      simpa using hroom
    · exact h.frugal pre e hpre
  room := by
    have hroom := h.room
    cases pooled with
    | true => simpa using hroom
    | false =>
      simp only [Option.toList_some, List.length_singleton] at hroom
      simp only [Bool.false_eq_true, if_false, Option.toList_none, List.length_nil]
      omega

theorem Collects.completes (h : Collects c n transactions none) (hlength : transactions.length = n)
    (pool : DBInternface Transaction) (spent : SpentTransactionsStore) :
    Completes c ⟨transactions, pool, spent⟩ where
  dequeued := by rw [h.dequeued, Option.toList_none, List.append_nil]
  batch := h.batch.symm
  length := hlength.trans h.asked.symm
  frugal := h.frugal

/-! ## Every entry belongs to one call -/

/-- What the history says of the call that is running. -/
def InProgress : Wait → Option Call → Prop
  | .idle, none => True
  | .collecting n transactions item, some c => Collects c n transactions item
  | _, _ => False

/-- The calls so far and then the queue make up what was enqueued. -/
structure Segmented (s : Feed × History) : Prop where
  segments : s.2.enqueued =
    (s.2.completed ++ s.2.current.toList).flatMap Call.dequeued ++ queued s.1.node.transactionPool
  noEnd : ∀ reason, PoolItem.endReason reason ∉ s.1.node.transactionPool.queue
  completed : List.Forall₂ Completes s.2.completed s.1.delivered
  current : InProgress s.1.wait s.2.current

def History.empty : History := ⟨[], [], none⟩

theorem segmented_boot (chain : Blockchain) (pooled : DBInternface Transaction)
    (spent : SpentTransactionsStore) : Segmented (boot chain pooled spent, .empty) where
  segments := rfl
  noEnd := fun _ hin => absurd hin List.not_mem_nil
  completed := .nil
  current := trivial

theorem Segmented.enqueue {s : Feed × History} (h : Segmented s) (tx : Transaction) :
    Segmented (watch s (.enqueue tx)) where
  segments := by
    show s.2.enqueued ++ [tx] = _ ++ queued _
    rw [h.segments, List.append_assoc]
    simp [supplyStep, watch, withPool, queued, observe]
  noEnd := by
    intro reason hin
    rcases List.mem_append.mp hin with hin | hin
    · exact h.noEnd reason hin
    · cases List.mem_singleton.mp hin
  completed := h.completed
  current := h.current

theorem Segmented.wait {s : Feed × History} (h : Segmented s) (n : ℕ) : Segmented (watch s (.wait n)) := by
  obtain ⟨⟨node, wait, delivered⟩, ⟨enqueued, completed, current⟩⟩ := s
  cases wait with
  | idle =>
    cases current with
    | none =>
      refine ⟨?_, h.noEnd, h.completed, collects_new n⟩
      have hsegments := h.segments
      simpa [watch, supplyStep, feedStep, observe] using hsegments
    | some c => exact h.current.elim
  | collecting m transactions item => exact h
  | ended => exact h

theorem Segmented.resume {s : Feed × History} (h : Segmented s) : Segmented (watch s .resume) := by
  obtain ⟨⟨node, wait, delivered⟩, ⟨enqueued, completed, current⟩⟩ := s
  obtain ⟨hsegments, hnoEnd, hcompleted, hcurrent⟩ := h
  cases wait with
  | idle => exact ⟨hsegments, hnoEnd, hcompleted, hcurrent⟩
  | ended => exact ⟨hsegments, hnoEnd, hcompleted, hcurrent⟩
  | collecting n transactions item =>
    cases current with
    | none => exact hcurrent.elim
    | some c =>
      change Collects c n transactions item at hcurrent
      dsimp only at hsegments hnoEnd hcompleted
      cases item with
      | none =>
        by_cases hlength : transactions.length = n
        · -- the call delivers and its segment is closed
          simp only [watch, supplyStep, waitStep, observe, hlength, if_true]
          refine ⟨?_, hnoEnd, ?_, trivial⟩
          · simpa using hsegments
          · exact List.rel_append hcompleted (.cons (hcurrent.completes hlength _ _) .nil)
        · cases hqueue : node.transactionPool.queue with
          | nil =>
            simp only [watch, supplyStep, waitStep, observe, hlength, if_false, hqueue]
            exact ⟨hsegments, hnoEnd, hcompleted, hcurrent⟩
          | cons entry rest =>
            cases entry with
            | endReason reason => exact absurd (hqueue ▸ List.mem_cons_self) (hnoEnd reason)
            | transaction tx =>
              -- the segment of the call grows by the head of the queue
              simp only [watch, supplyStep, waitStep, observe, hlength, if_false, hqueue]
              refine ⟨?_, ?_, hcompleted, hcurrent.dequeue hlength tx⟩
              · simpa [queued, hqueue, Call.dequeue] using hsegments
              · intro reason hin
                exact hnoEnd reason (hqueue ▸ List.mem_cons_of_mem _ hin)
      | some tx =>
        have hlook := hcurrent.look (node.transactionPool.get tx.hash).isSome
        by_cases hfound : (node.transactionPool.get tx.hash).isSome
        · simp only [hfound, if_true] at hlook
          simp only [watch, supplyStep, waitStep, observe, hfound, if_true]
          refine ⟨?_, hnoEnd, hcompleted, hlook⟩
          simpa [Call.look] using hsegments
        · simp only [hfound] at hlook
          simp only [watch, supplyStep, waitStep, observe, hfound]
          refine ⟨?_, hnoEnd, hcompleted, hlook⟩
          simpa [Call.look] using hsegments

theorem Segmented.step (s : Feed × History) (a : SupplyAction) (h : Segmented s) : Segmented (watch s a) := by
  cases a with
  | enqueue tx => exact h.enqueue tx
  | wait n => exact h.wait n
  | resume => exact h.resume
  | _ => exact ⟨h.segments, h.noEnd, h.completed, h.current⟩

theorem batches_sublist {cs : List Call} {ds : List Delivery} (h : List.Forall₂ Completes cs ds) :
    (ds.flatMap Delivery.batch).Sublist (cs.flatMap Call.dequeued) := by
  induction h with
  | nil => exact List.Sublist.refl _
  | cons hc _ ih =>
    rw [List.flatMap_cons, List.flatMap_cons, hc.batch, hc.dequeued]
    exact (found_sublist _).append ih

/-- **`wait` consumes the queue segment by segment.** In every interleaving with
enqueues and with changes of the database, each call that has completed returned
`n` transactions, those of the entries it dequeued that were pooled when it
looked them up, and it dequeued none once it had found `n`. What the calls
dequeued, one after the other, is what was enqueued up to the present queue. So
no entry is handed out twice. -/
theorem wait_consumes_segments (chain : Blockchain) (pooled : DBInternface Transaction)
    (spent : SpentTransactionsStore) (as : List SupplyAction) :
    let s := run watch (boot chain pooled spent, .empty) as
    List.Forall₂ Completes s.2.completed s.1.delivered ∧
      s.2.enqueued = (s.2.completed ++ s.2.current.toList).flatMap Call.dequeued ++
        queued s.1.node.transactionPool ∧
      (s.1.delivered.flatMap Delivery.batch).Sublist s.2.enqueued := by
  intro s
  have h : Segmented s := run_keeps Segmented.step as (segmented_boot chain pooled spent)
  refine ⟨h.completed, h.segments, ?_⟩
  rw [h.segments, List.flatMap_append, List.append_assoc]
  exact (batches_sublist h.completed).trans (List.sublist_append_left _ _)

/-- The first entry was removed before its lookup, and the call goes on to the second. -/
example :
    (run supplyStep (boot (fromPath sampleDigest DBInternface.empty) DBInternface.empty DBInternface.empty)
      ([.put (sampleVote "AA"), .enqueue (sampleVote "AA"), .put (sampleVote "BB"),
        .enqueue (sampleVote "BB"), .wait 1, .resume, .remove (sampleVote "AA")] ++
        List.replicate 4 SupplyAction.resume)).delivered.map Delivery.batch = [[sampleVote "BB"]] := by
  decide +kernel

end Krapi.Segments
