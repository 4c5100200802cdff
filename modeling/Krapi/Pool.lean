import Krapi.DBInterface

/-! # The pool of pending transactions

`TransactionPool` is a `DBInternface<Transaction>` with an in-memory queue that
feeds the miner. The queue is a third-party `BlockingReaderWriterQueue`:
`enqueue` always appends, while `try_enqueue` may find no preallocated room, so
its answer is an input of `add`. -/
namespace Krapi.Pool
open Krapi.BlockchainModels Krapi.DBInterface

inductive PoolEndReason where
  | signalingClosed
  deriving Repr, DecidableEq

inductive PoolItem where
  | transaction (tx : Transaction)
  | endReason (reason : PoolEndReason)
  deriving Repr, DecidableEq

structure TransactionPool extends DBInternface Transaction where
  queue : List PoolItem

namespace TransactionPool

/-- The pool on a freshly created database. -/
def create : TransactionPool := { DBInternface.empty with queue := [] }

/-- `remove` and the other database operations leave the queue alone. -/
def withDB (pool : TransactionPool) (db : DBInternface Transaction) : TransactionPool :=
  { db with queue := pool.queue }

def remove (pool : TransactionPool) (tx : Transaction) : Bool × TransactionPool :=
  let (removed, db) := pool.toDBInternface.remove tx
  (removed, pool.withDB db)

/-- `room` is the answer of `try_enqueue`, which `add` does not look at. -/
def add (pool : TransactionPool) (tx : Transaction) (room : Bool) : Bool × TransactionPool :=
  let (pooled, db) := pool.toDBInternface.put tx
  if pooled then
    let queue := if room then pool.queue ++ [.transaction tx] else pool.queue
    (true, { db with queue := queue })
  else (false, pool)

def end_ (pool : TransactionPool) (reason : PoolEndReason) : TransactionPool :=
  { pool with queue := pool.queue ++ [.endReason reason] }

/-- Refills the queue with the whole database. -/
def enqueueStored (pool : TransactionPool) : TransactionPool :=
  { pool with queue := pool.queue ++ pool.data.map PoolItem.transaction }

@[simp] theorem withDB_db (pool : TransactionPool) (db : DBInternface Transaction) :
    (pool.withDB db).toDBInternface = db := rfl

@[simp] theorem withDB_queue (pool : TransactionPool) (db : DBInternface Transaction) :
    (pool.withDB db).queue = pool.queue := rfl

@[simp] theorem create_db : create.toDBInternface = DBInternface.empty := rfl

@[simp] theorem create_queue : create.queue = [] := rfl

@[simp] theorem remove_db (pool : TransactionPool) (tx : Transaction) :
    (pool.remove tx).2.toDBInternface = (pool.toDBInternface.remove tx).2 := rfl

@[simp] theorem remove_queue (pool : TransactionPool) (tx : Transaction) :
    (pool.remove tx).2.queue = pool.queue := rfl

theorem remove_fst (pool : TransactionPool) (tx : Transaction) :
    (pool.remove tx).1 = pool.contains tx.hash := DBInternface.remove_fst _ _

@[simp] theorem enqueueStored_db (pool : TransactionPool) :
    pool.enqueueStored.toDBInternface = pool.toDBInternface := rfl

@[simp] theorem enqueueStored_queue (pool : TransactionPool) :
    pool.enqueueStored.queue = pool.queue ++ pool.data.map PoolItem.transaction := rfl

theorem ext_db_queue {p q : TransactionPool} (hdb : p.toDBInternface = q.toDBInternface)
    (hq : p.queue = q.queue) : p = q := by
  cases p; cases q; simp_all

theorem add_fst (pool : TransactionPool) (tx : Transaction) (room : Bool) :
    (pool.add tx room).1 = !pool.contains tx.hash := by
  have h := DBInternface.put_fst pool.toDBInternface tx
  unfold add
  rw [show pool.contains tx.hash = pool.contains (tag tx) from rfl, ← h]
  cases hp : pool.toDBInternface.put tx with
  | mk pooled db => cases pooled <;> rfl

/-- Whether or not it stores anything, `add` leaves the database as `put` does. -/
theorem add_db (pool : TransactionPool) (tx : Transaction) (room : Bool) :
    (pool.add tx room).2.toDBInternface = (pool.toDBInternface.put tx).2 := by
  have h := DBInternface.put_fst pool.toDBInternface tx
  unfold add
  cases hp : pool.toDBInternface.put tx with
  | mk pooled db =>
    cases pooled with
    | true => rfl
    | false =>
      rw [hp] at h
      have hc : pool.toDBInternface.contains (tag tx) = true := by simpa using h.symm
      have hs := DBInternface.put_of_contains hc
      rw [hp] at hs
      exact hs.symm

theorem add_queue (pool : TransactionPool) (tx : Transaction) (room : Bool) :
    (pool.add tx room).2.queue =
      if pool.contains tx.hash = false ∧ room = true then pool.queue ++ [.transaction tx]
      else pool.queue := by
  have h := DBInternface.put_fst pool.toDBInternface tx
  unfold add
  rw [show pool.contains tx.hash = pool.contains (tag tx) from rfl]
  cases hp : pool.toDBInternface.put tx with
  | mk pooled db =>
    rw [hp] at h
    cases pooled with
    | true =>
      have hc : pool.toDBInternface.contains (tag tx) = false := by simpa using h.symm
      simp [hc]
    | false =>
      have hc : pool.toDBInternface.contains (tag tx) = true := by simpa using h.symm
      simp [hc]

/-- A transaction that is pooled already is not queued again. -/
theorem add_of_contains {pool : TransactionPool} {tx : Transaction} (room : Bool)
    (h : pool.contains tx.hash = true) : (pool.add tx room).2 = pool := by
  apply ext_db_queue
  · rw [add_db]
    exact DBInternface.put_of_contains h
  · rw [add_queue]
    simp [h]

end TransactionPool

end Krapi.Pool
