import Krapi.Validator
import Krapi.Lib.Run

/-! # Snapshots

Every read of a LevelDB store takes a snapshot first, which the database keeps
until it is released. `DBInternface` as it is modelled elsewhere has no
snapshots; here are its operations once more with their number, down to the
calls they make of each other. `get` returns what it found before it comes to
the release, and `contains`, `put` and `remove` go through `get`: each lookup
that finds its key leaves one snapshot behind, and nothing else does. -/
namespace Krapi.Snapshots
open Krapi.BlockchainModels Krapi.DBInterface Krapi.ChainStore Krapi.Lib.Run
open Krapi.Validator (ValidationState validateHeader)

/-- What is stored, and how many snapshots were taken and not released. -/
structure LevelDB (α : Type) where
  values : Std.ExtTreeMap String α compare
  snapshots : ℤ

namespace LevelDB

variable {α : Type}

def getSnapshot (s : LevelDB α) : LevelDB α := { s with snapshots := s.snapshots + 1 }

def releaseSnapshot (s : LevelDB α) : LevelDB α := { s with snapshots := s.snapshots - 1 }

/-- A scan releases what it took. -/
theorem release_getSnapshot (s : LevelDB α) : s.getSnapshot.releaseSnapshot = s := by
  unfold getSnapshot releaseSnapshot
  dsimp only
  rw [Int.add_sub_cancel]

/-- What an iterator over a snapshot comes to, from `SeekToFirst` on. -/
def iterate (s : LevelDB α) : List α := s.values.toList.map Prod.snd

def size (s : LevelDB α) : ℕ × LevelDB α :=
  let s := s.getSnapshot
  let counter := s.iterate.length
  (counter, s.releaseSnapshot)

/-- The generator, consumed to its end. -/
def data (s : LevelDB α) : List α × LevelDB α :=
  let s := s.getSnapshot
  (s.iterate, s.releaseSnapshot)

def get (s : LevelDB α) (k : String) : Option α × LevelDB α :=
  let s := s.getSnapshot
  match s.values[k]? with
  -- returns here, with the snapshot
  | some value => (some value, s)
  | none => (none, s.releaseSnapshot)

theorem get_eq (s : LevelDB α) (k : String) : s.get k = (s.values[k]?, { s with
    snapshots := s.snapshots + if s.values[k]?.isSome = true then 1 else 0 }) := by
  unfold get getSnapshot releaseSnapshot
  dsimp only
  cases s.values[k]? with
  | none => simp
  | some value => simp

def containsTag (s : LevelDB α) (k : String) : Bool × LevelDB α :=
  let (value, s) := s.get k
  (value.isSome, s)

theorem containsTag_eq (s : LevelDB α) (k : String) : s.containsTag k = (s.values[k]?.isSome, (s.get k).2) := by
  unfold containsTag
  rw [get_eq]

def removeTag (s : LevelDB α) (k : String) : Bool × LevelDB α :=
  let (found, s) := s.containsTag k
  if found then (true, { s with values := s.values.erase k }) else (false, s)

/-- The writes keep the count of the lookup before them. -/
theorem removeTag_snapshots (s : LevelDB α) (k : String) : (s.removeTag k).2.snapshots = (s.get k).2.snapshots := by
  unfold removeTag
  rw [containsTag_eq]
  dsimp only
  split <;> rfl

variable [DBComparable α]

def contains (s : LevelDB α) (v : α) : Bool × LevelDB α :=
  let (value, s) := s.get (tag v)
  (value.isSome, s)

def put (s : LevelDB α) (v : α) : Bool × LevelDB α :=
  let (found, s) := s.contains v
  if !found then (true, { s with values := s.values.insert (tag v) v }) else (false, s)

def remove (s : LevelDB α) (v : α) : Bool × LevelDB α :=
  let (found, s) := s.contains v
  if found then (true, { s with values := s.values.erase (tag v) }) else (false, s)

def last [Inhabited α] (s : LevelDB α) : α × LevelDB α :=
  let s := s.getSnapshot
  let lastValue := s.iterate.foldl DBInternface.newer default
  (lastValue, s.releaseSnapshot)

end LevelDB

/-- A call of one of the operations; where two share a name, `Tag` marks the one that takes a tag. -/
inductive Call (α : Type) where
  | size
  | data
  | get (k : String)
  | contains (v : α)
  | containsTag (k : String)
  | put (v : α)
  | remove (v : α)
  | removeTag (k : String)
  | last
  deriving Repr, DecidableEq

variable {α : Type} [DBComparable α]

def callStep [Inhabited α] (s : LevelDB α) : Call α → LevelDB α
  | .size => s.size.2
  | .data => s.data.2
  | .get k => (s.get k).2
  | .contains v => (s.contains v).2
  | .containsTag k => (s.containsTag k).2
  | .put v => (s.put v).2
  | .remove v => (s.remove v).2
  | .removeTag k => (s.removeTag k).2
  | .last => s.last.2

/-- The key that the call looks up. -/
def Call.key? : Call α → Option String
  | .size | .data | .last => none
  | .get k | .containsTag k | .removeTag k => some k
  | .contains v | .put v | .remove v => some (tag v)

/-- The call looks up a key that is there. -/
def Hits (s : LevelDB α) (c : Call α) : Prop := ∃ k ∈ c.key?, s.values[k]?.isSome = true

instance (s : LevelDB α) (c : Call α) : Decidable (Hits s c) := inferInstanceAs (Decidable (∃ k ∈ c.key?, _))

/-- What a call leaves behind. -/
def leaks (s : LevelDB α) (c : Call α) : ℕ := if Hits s c then 1 else 0

/-! ## What one call leaves behind -/

namespace LevelDB

variable (s : LevelDB α) (v : α)

theorem contains_eq : s.contains v = s.containsTag (tag v) := rfl

theorem put_snapshots : (s.put v).2.snapshots = (s.get (tag v)).2.snapshots := by
  unfold put
  rw [contains_eq, containsTag_eq]
  dsimp only
  split <;> rfl

theorem remove_eq : s.remove v = s.removeTag (tag v) := rfl

end LevelDB

theorem get_snapshots_leaks {s : LevelDB α} {c : Call α} {k : String} (hk : c.key? = some k) :
    (s.get k).2.snapshots = s.snapshots + leaks s c := by
  have hhits : Hits s c ↔ s.values[k]?.isSome = true := by
    unfold Hits
    rw [hk]
    simp
  rw [LevelDB.get_eq, leaks]
  simp only [hhits]
  split <;> simp

theorem leaks_of_key?_eq_none {s : LevelDB α} {c : Call α} (hk : c.key? = none) : leaks s c = 0 := by
  have hmiss : ¬ Hits s c := by
    unfold Hits
    rw [hk]
    simp
  rw [leaks, if_neg hmiss]

section Calls

variable [Inhabited α]

/-- **What a call leaves behind**: one snapshot if it finds the key it looks up, and else none. -/
theorem callStep_snapshots (s : LevelDB α) (c : Call α) :
    (callStep s c).snapshots = s.snapshots + leaks s c := by
  cases c with
  | size | data | last =>
    rw [leaks_of_key?_eq_none rfl, Nat.cast_zero, add_zero]
    exact congrArg LevelDB.snapshots s.release_getSnapshot
  | get k => exact get_snapshots_leaks rfl
  | contains v =>
    rw [callStep, LevelDB.contains_eq, LevelDB.containsTag_eq]
    exact get_snapshots_leaks rfl
  | containsTag k =>
    rw [callStep, LevelDB.containsTag_eq]
    exact get_snapshots_leaks rfl
  | put v =>
    rw [callStep, LevelDB.put_snapshots]
    exact get_snapshots_leaks rfl
  | remove v =>
    rw [callStep, LevelDB.remove_eq, LevelDB.removeTag_snapshots]
    exact get_snapshots_leaks rfl
  | removeTag k =>
    rw [callStep, LevelDB.removeTag_snapshots]
    exact get_snapshots_leaks rfl

/-- The call finds no key that it looks up. -/
def Misses (s : LevelDB α) (c : Call α) : Prop := ¬ Hits s c

instance (s : LevelDB α) (c : Call α) : Decidable (Misses s c) := inferInstanceAs (Decidable (¬ _))

/-- **All snapshots are returned exactly if nothing is found.** Over any sequence of
calls on any store, as many snapshots are outstanding as before if and only if no
call finds a key that it looks up. -/
theorem snapshots_returned_iff (s : LevelDB α) (cs : List (Call α)) :
    (run callStep s cs).snapshots = s.snapshots ↔ Along callStep Misses s cs := by
  have hcost : ∀ (s : LevelDB α) (c : Call α), leaks s c = 0 ↔ Misses s c := by
    intro s c
    unfold leaks Misses
    split
    · simp [*]
    · simp [*]
  rw [meter_run leaks LevelDB.snapshots callStep_snapshots, add_eq_left, Nat.cast_eq_zero, spent_eq_zero_iff]
  simp only [hcost]

/-- The genesis block is stored and found. -/
theorem found_block_leaks : ¬ ∀ (s : LevelDB Block) cs, (run callStep s cs).snapshots = s.snapshots := by
  intro h
  have hleak := h ⟨∅, 0⟩ [.put (createGenesisBlock sampleDigest), .get genesisHash]
  revert hleak
  decide +kernel

end Calls

/-! ## The stores without their snapshots -/

section Holds

/-- The store holds what the database holds. -/
def Holds (s : LevelDB α) (t : DBInternface α) : Prop := s.values = t.db

variable {s : LevelDB α} {t : DBInternface α}

theorem Holds.containsTag (h : Holds s t) (k : String) :
    (s.containsTag k).1 = t.contains k ∧ Holds (s.containsTag k).2 t := by
  have hfound : s.values[k]? = t.get k := by rw [h]; rfl
  rw [LevelDB.containsTag_eq, LevelDB.get_eq, hfound]
  exact ⟨rfl, h⟩

theorem Holds.put (h : Holds s t) (v : α) : (s.put v).1 = (t.put v).1 ∧ Holds (s.put v).2 (t.put v).2 := by
  obtain ⟨hfound, hholds⟩ := h.containsTag (tag v)
  unfold LevelDB.put
  rw [LevelDB.contains_eq]
  generalize s.containsTag (tag v) = found at hfound hholds ⊢
  obtain ⟨found, s'⟩ := found
  unfold DBInternface.put
  dsimp only at hfound hholds ⊢
  rw [← hfound]
  cases found with
  | true => exact ⟨rfl, hholds⟩
  | false =>
    refine ⟨rfl, ?_⟩
    show s'.values.insert (tag v) v = t.db.insert (tag v) v
    rw [show s'.values = t.db from hholds]

theorem Holds.removeTag (h : Holds s t) (k : String) :
    (s.removeTag k).1 = (t.removeTag k).1 ∧ Holds (s.removeTag k).2 (t.removeTag k).2 := by
  obtain ⟨hfound, hholds⟩ := h.containsTag k
  unfold LevelDB.removeTag
  generalize s.containsTag k = found at hfound hholds ⊢
  obtain ⟨found, s'⟩ := found
  unfold DBInternface.removeTag
  dsimp only at hfound hholds ⊢
  rw [← hfound]
  cases found with
  | true =>
    refine ⟨rfl, ?_⟩
    show s'.values.erase k = t.db.erase k
    rw [show s'.values = t.db from hholds]
  | false => exact ⟨rfl, hholds⟩

/-- The newest value, and every snapshot returned. -/
theorem Holds.last [Inhabited α] (h : Holds s t) : s.last = (t.last, s) := by
  unfold LevelDB.last DBInternface.last DBInternface.data
  dsimp only
  rw [LevelDB.release_getSnapshot, ← h]
  rfl

/-- What a call does to the store. -/
def storeStep (t : DBInternface α) : Call α → DBInternface α
  | .put v => (t.put v).2
  | .remove v => (t.remove v).2
  | .removeTag k => (t.removeTag k).2
  | _ => t

/-- The stores go the same way whether or not snapshots are counted. -/
theorem Holds.callStep [Inhabited α] (h : Holds s t) (c : Call α) : Holds (callStep s c) (storeStep t c) := by
  cases c with
  | size | data | last => exact (congrArg LevelDB.values s.release_getSnapshot).trans h
  | get k =>
    show Holds (s.get k).2 t
    rw [LevelDB.get_eq]
    exact h
  | contains v => exact (h.containsTag (tag v)).2
  | containsTag k => exact (h.containsTag k).2
  | put v => exact (h.put v).2
  | remove v => exact (h.removeTag (tag v)).2
  | removeTag k => exact (h.removeTag k).2

theorem Holds.run [Inhabited α] (h : Holds s t) (cs : List (Call α)) :
    Holds (run Snapshots.callStep s cs) (run storeStep t cs) := by
  induction cs generalizing s t with
  | nil => exact h
  | cons c cs ih => exact ih (h.callStep c)

end Holds

/-! ## What a validation leaves behind -/

def validateTransaction (store : LevelDB Transaction) (tx : Transaction) : ValidationState × LevelDB Transaction :=
  let (spent, store) := store.contains tx
  if spent then (.transactionAlreadySpent, store) else (.success, store)

/-- The loop over the transactions of a block. -/
def validateTransactions (store : LevelDB Transaction) : List Transaction → ValidationState × LevelDB Transaction
  | [] => (.success, store)
  | tx :: rest =>
    let (transactionState, store) := validateTransaction store tx
    if transactionState ≠ .success then (transactionState, store) else validateTransactions store rest

def validateBlock (chain : LevelDB Block) (store : LevelDB Transaction) (block : Block) :
    ValidationState × LevelDB Block × LevelDB Transaction :=
  let (last, chain) := chain.last
  let headerState := validateHeader last.header block
  if headerState ≠ .success then (headerState, chain, store)
  else
    let (transactionsState, store) := validateTransactions store block.transactions
    (transactionsState, chain, store)

/-- One snapshot for a verdict that something is spent, and none for any other. -/
def spentCost (state : ValidationState) : ℤ := if state = .transactionAlreadySpent then 1 else 0

theorem validateTransaction_eq {store : LevelDB Transaction} {spent : DBInternface Transaction}
    (h : Holds store spent) (tx : Transaction) :
    (validateTransaction store tx).1 = Validator.validateTransaction spent tx ∧
      Holds (validateTransaction store tx).2 spent ∧
      (validateTransaction store tx).2.snapshots =
        store.snapshots + spentCost (Validator.validateTransaction spent tx) := by
  have hfound : store.values[tag tx]? = spent.get (tag tx) := by rw [h]; rfl
  unfold validateTransaction Validator.validateTransaction spentCost DBInternface.contains
  rw [LevelDB.contains_eq, LevelDB.containsTag_eq, LevelDB.get_eq, hfound]
  rw [show spent.get tx.tag = spent.get (tag tx) from rfl]
  cases hspent : spent.get (tag tx) with
  | none => exact ⟨rfl, h, rfl⟩
  | some u => exact ⟨rfl, h, rfl⟩

theorem validateTransactions_eq {store : LevelDB Transaction} {spent : DBInternface Transaction}
    (h : Holds store spent) (txs : List Transaction) :
    (validateTransactions store txs).1 = Validator.validateTransactions spent txs ∧
      (validateTransactions store txs).2.snapshots =
        store.snapshots + spentCost (Validator.validateTransactions spent txs) := by
  induction txs generalizing store with
  | nil => exact ⟨rfl, (add_zero _).symm⟩
  | cons tx rest ih =>
    obtain ⟨hstate, hholds, hsnapshots⟩ := validateTransaction_eq h tx
    unfold validateTransactions Validator.validateTransactions
    generalize validateTransaction store tx = validated at hstate hholds hsnapshots ⊢
    obtain ⟨state, store'⟩ := validated
    dsimp only at hstate hholds hsnapshots ⊢
    rw [← hstate] at hsnapshots ⊢
    by_cases hsuccess : state = .success
    · subst hsuccess
      have hnone : store'.snapshots = store.snapshots := hsnapshots.trans (add_zero _)
      simp only [ne_eq, not_true_eq_false, if_false]
      rw [← hnone]
      exact ih hholds
    · simp only [ne_eq, hsuccess, not_false_eq_true, if_true]
      exact ⟨trivial, hsnapshots⟩

/-- **A refused vote pins a snapshot.** The validator says what it says of the
stores; the chain's snapshots are all returned, and one of the spent store is not
exactly if the verdict is that a transaction is spent. -/
theorem validateBlock_snapshots {chain : LevelDB Block} {blocks : DBInternface Block}
    {store : LevelDB Transaction} {spent : DBInternface Transaction} (hchain : Holds chain blocks)
    (hstore : Holds store spent) (block : Block) :
    (validateBlock chain store block).1 = Validator.validateBlock blocks spent block ∧
      (validateBlock chain store block).2.1 = chain ∧
      (validateBlock chain store block).2.2.snapshots =
        store.snapshots + spentCost (Validator.validateBlock blocks spent block) := by
  unfold validateBlock Validator.validateBlock
  rw [hchain.last]
  dsimp only
  by_cases hheader : validateHeader blocks.last.header block = .success
  · simp only [hheader, ne_eq, not_true_eq_false, if_false]
    obtain ⟨hstate, hsnapshots⟩ := validateTransactions_eq hstore block.transactions
    exact ⟨hstate, trivial, hsnapshots⟩
  · simp only [ne_eq, hheader, not_false_eq_true, if_true]
    refine ⟨trivial, trivial, ?_⟩
    rw [spentCost, if_neg (Validator.validateHeader_ne_spent _ _), add_zero]

end Krapi.Snapshots
