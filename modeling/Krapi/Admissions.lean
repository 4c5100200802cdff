import Krapi.ChainStore
import Krapi.Pool
import Krapi.Lib.Run

/-! # Admitting transactions to the pool

`add` stores a transaction and then tries to queue it. It reports whether it
stored it and does not look at what `try_enqueue` answers, which is "no" once
the room the queue was made with is used up. -/
namespace Krapi.Admissions
open Krapi.BlockchainModels Krapi.DBInterface Krapi.ChainStore Krapi.Pool Krapi.Lib.Run

structure Intake where
  pool : TransactionPool
  /-- What the consumer has taken, in order; a log. -/
  dequeued : List Transaction
  /-- What `add` returned true for, in order; a log. -/
  admitted : List Transaction

inductive QueueAction where
  /-- `room` is what `try_enqueue` answers. -/
  | add (tx : Transaction) (room : Bool)
  | dequeue
  deriving Repr, DecidableEq

def queueStep (s : Intake) : QueueAction → Intake
  | .add tx room =>
    { s with
      pool := (s.pool.add tx room).2
      admitted := if (s.pool.add tx room).1 then s.admitted ++ [tx] else s.admitted }
  | .dequeue =>
    match s.pool.queue with
    | .transaction tx :: rest =>
      { s with pool := { s.pool with queue := rest }, dequeued := s.dequeued ++ [tx] }
    | .endReason _ :: rest => { s with pool := { s.pool with queue := rest } }
    | [] => s

/-- The pool on a database, with its new queue. -/
def boot (pooled : DBInternface Transaction) : Intake := ⟨{ pooled with queue := [] }, [], []⟩

/-- What the answer of `add` promises: on true the transaction is stored and
queued, on false nothing has changed. -/
def Kept (s : Intake) : QueueAction → Prop
  | .add tx room =>
    ((s.pool.add tx room).1 = true → (s.pool.add tx room).2.get tx.hash = some tx ∧
      (s.pool.add tx room).2.queue = s.pool.queue ++ [.transaction tx]) ∧
    ((s.pool.add tx room).1 = false → (s.pool.add tx room).2 = s.pool)
  | .dequeue => True

/-- The consumer gets what was admitted, in order. -/
def InOrder (s : Intake) : Prop :=
  s.dequeued.map PoolItem.transaction ++ s.pool.queue = s.admitted.map PoolItem.transaction

instance (s : Intake) : Decidable (InOrder s) := inferInstanceAs (Decidable (_ = _))

/-- A transaction that is not stored yet finds room in the queue. -/
def HasRoom (s : Intake) : QueueAction → Prop
  | .add tx room => s.pool.contains tx.hash = false → room = true
  | .dequeue => True

instance (s : Intake) (a : QueueAction) : Decidable (HasRoom s a) :=
  match a with
  | .add tx room => inferInstanceAs (Decidable (s.pool.contains tx.hash = false → room = true))
  | .dequeue => isTrue trivial

variable {s : Intake} {a : QueueAction}

theorem kept_iff : Kept s a ↔ HasRoom s a := by
  cases a with
  | dequeue => exact Iff.rfl
  | add tx room =>
    simp only [Kept, HasRoom]
    rw [TransactionPool.add_fst, TransactionPool.add_queue]
    cases hin : s.pool.contains tx.hash with
    | true =>
      have hsame := TransactionPool.add_of_contains room hin
      simp [hsame]
    | false =>
      have hstored : (s.pool.add tx room).2.get tx.hash = some tx := by
        rw [TransactionPool.add_db, DBInternface.get_put]
        exact if_pos ⟨rfl, hin⟩
      cases room with
      | true => simp [hstored]
      | false => simp

/-- What is new in the queue is what is new among the admitted, if there was room. -/
theorem inOrder_step_iff (h : InOrder s) : HasRoom s a ↔ InOrder (queueStep s a) := by
  unfold InOrder at h
  cases a with
  | add tx room =>
    simp only [HasRoom, InOrder, queueStep]
    rw [TransactionPool.add_fst, TransactionPool.add_queue]
    cases hin : s.pool.contains tx.hash with
    | true => simp [h]
    | false =>
      cases room with
      | true => simp [← h]
      | false => simp [h]
  | dequeue =>
    refine iff_of_true trivial ?_
    cases hqueue : s.pool.queue with
    | nil => simpa [InOrder, queueStep, hqueue] using h
    | cons item rest =>
      rw [hqueue] at h
      cases item with
      | transaction tx => simpa [InOrder, queueStep, hqueue] using h
      | endReason reason =>
        -- nothing else than transactions is ever admitted
        have hmem : PoolItem.endReason reason ∈ s.admitted.map PoolItem.transaction := by
          rw [← h]
          simp
        obtain ⟨tx, _, htx⟩ := List.mem_map.mp hmem
        cases htx

/-- **The answer of `add` holds exactly while the queue has room.** On any stored
transactions and for every sequence of `add` and dequeues: each `add` that
returns true has stored and queued its transaction, and each that returns false
has changed nothing, if and only if every transaction that is not stored yet
finds room; and just as long the consumer gets, in order, what was admitted. -/
theorem admitted_in_order_iff (pooled : DBInternface Transaction) (as : List QueueAction) :
    (Along queueStep Kept (boot pooled) as ↔ Along queueStep HasRoom (boot pooled) as) ∧
    ((∀ pre, pre <+: as → InOrder (run queueStep (boot pooled) pre)) ↔
      Along queueStep HasRoom (boot pooled) as) := by
  refine ⟨?_, throughout_iff_along (fun _ _ h => inOrder_step_iff h) as rfl⟩
  have hsame : Kept = HasRoom := funext fun s => funext fun a => propext kept_iff
  rw [hsame]

/-- As many transactions as a queue made without an argument has room for, and one more. -/
def fillQueue : List QueueAction := (List.range 15).map fun i => .add (sampleVote (toString i)) true

theorem admitted_and_not_queued :
    (run queueStep (boot DBInternface.empty) fillQueue).pool.queue.length = 15 ∧
      ¬ Kept (run queueStep (boot DBInternface.empty) fillQueue) (.add (sampleVote "AA") false) ∧
      ¬ InOrder (run queueStep (boot DBInternface.empty) (fillQueue ++ [.add (sampleVote "AA") false])) := by
  refine ⟨by decide +kernel, ?_, by decide +kernel⟩
  rw [kept_iff]
  decide +kernel

end Krapi.Admissions
