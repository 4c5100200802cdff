import Krapi.DBInterface
import Krapi.Lib.Run

/-! # The wallet

A light node keeps the transactions it sent and received. A transaction enters
when the node makes it or is told of it, and the first one under a hash stays;
a change of status takes it out and puts it back with the new status. So each
hash has one entry, which the whole history determines: `entryStep` is what the
wallet does seen from one hash. -/
namespace Krapi.Wallets
open Krapi.BlockchainModels Krapi.DBInterface Krapi.Lib.Run

abbrev Wallet := DBInternface Transaction

/-- The string whose digest is the hash of a new transaction. -/
def preimage (timestamp : UInt64) (myId receiverId : String) : String :=
  "send_tx" ++ toString timestamp.toNat ++ myId ++ receiverId

/-- `clock` is the reading of `get_krapi_timestamp`. -/
def newTransaction (D : Digest) (clock : UInt64) (myId receiverId : String) : Transaction where
  type := .send
  status := .pending
  hash := D.sha256Hex (preimage clock myId receiverId)
  timestamp := clock
  from_ := myId
  to_ := receiverId

structure SetTransactionStatusContent where
  status : TransactionStatus
  hash : String
  deriving Repr, DecidableEq

/-- The transaction is handed out whether or not it could be put. -/
def createTransaction (D : Digest) (w : Wallet) (clock : UInt64) (myId receiverId : String) : Transaction × Wallet :=
  let tx := newTransaction D clock myId receiverId
  (tx, (w.put tx).2)

def onAddTransaction (w : Wallet) (tx : Transaction) : Wallet := (w.put tx).2

def onTransactionsStatusChanged (w : Wallet) (content : SetTransactionStatusContent) : Wallet :=
  match w.get content.hash with
  | some tx =>
    let w := (w.removeTag tx.hash).2
    (w.put {
      type := tx.type
      status := content.status
      hash := content.hash
      timestamp := tx.timestamp
      from_ := tx.from_
      to_ := tx.to_ }).2
  | none => w

inductive WalletAction where
  | createTransaction (clock : UInt64) (myId receiverId : String)
  | addTransaction (tx : Transaction)
  | statusChanged (content : SetTransactionStatusContent)
  deriving Repr, DecidableEq

def walletStep (D : Digest) (w : Wallet) : WalletAction → Wallet
  | .createTransaction clock myId receiverId => (createTransaction D w clock myId receiverId).2
  | .addTransaction tx => onAddTransaction w tx
  | .statusChanged content => onTransactionsStatusChanged w content

/-! ## The entry of one hash -/

/-- The transaction that an action brings in. -/
def WalletAction.enters (D : Digest) : WalletAction → Option Transaction
  | .createTransaction clock myId receiverId => some (newTransaction D clock myId receiverId)
  | .addTransaction tx => some tx
  | .statusChanged _ => none

/-- The status that an action tells of `hash`. -/
def WalletAction.tells (hash : String) : WalletAction → Option TransactionStatus
  | .statusChanged content => if content.hash = hash then some content.status else none
  | _ => none

/-- What an action does to the entry of `hash`. -/
def entryStep (D : Digest) (hash : String) (entry : Option Transaction) (a : WalletAction) : Option Transaction :=
  match entry with
  | some tx => some ((a.tells hash).elim tx tx.setStatus)
  | none => (a.enters D).filter fun tx => tx.hash = hash

variable {D : Digest} {w : Wallet} {hash : String} {tx : Transaction}

theorem walletStep_of_enters {a : WalletAction} (h : a.enters D = some tx) : walletStep D w a = (w.put tx).2 := by
  cases a with
  | createTransaction clock myId receiverId =>
    cases h
    rfl
  | addTransaction u =>
    cases h
    rfl
  | statusChanged content => cases h

theorem tells_of_enters {a : WalletAction} (h : a.enters D = some tx) : a.tells hash = none := by
  cases a with
  | createTransaction clock myId receiverId => rfl
  | addTransaction u => rfl
  | statusChanged content => cases h

/-- An unknown hash changes nothing. -/
theorem statusChanged_of_not_contains {content : SetTransactionStatusContent}
    (h : w.contains content.hash = false) : onTransactionsStatusChanged w content = w := by
  have hget : w.get content.hash = none := by simpa [DBInternface.contains] using h
  unfold onTransactionsStatusChanged
  rw [hget]

/-- A known one keeps its transaction, with the new status. -/
theorem get_statusChanged (w : Wallet) (content : SetTransactionStatusContent) (hash : String) :
    (onTransactionsStatusChanged w content).get hash =
      if content.hash = hash then (w.get hash).map fun tx => tx.setStatus content.status else w.get hash := by
  cases hget : w.get content.hash with
  | none =>
    have hsame : onTransactionsStatusChanged w content = w :=
      statusChanged_of_not_contains (by simp [DBInternface.contains, hget])
    rw [hsame]
    split
    · rename_i he
      subst he
      rw [hget]
      rfl
    · rfl
  | some tx =>
    have hhash : tx.hash = content.hash := DBInternface.tag_of_get hget
    have hchanged : onTransactionsStatusChanged w content =
        ((w.remove tx).2.put (tx.setStatus content.status)).2 := by
      unfold onTransactionsStatusChanged
      rw [hget]
      have hremove : w.removeTag tx.hash = w.remove tx := DBInternface.removeTag_tag w tx
      dsimp only
      rw [hremove, ← hhash]
      rfl
    have htag : tag (tx.setStatus content.status) = content.hash := hhash
    have htag' : tag tx = content.hash := hhash
    rw [hchanged, DBInternface.get_put, DBInternface.contains_remove, DBInternface.get_remove, htag, htag']
    by_cases he : content.hash = hash
    · subst he
      simp [hget]
    · simp [he]

/-- **Each hash is kept by itself.** -/
theorem get_walletStep (D : Digest) (w : Wallet) (a : WalletAction) (hash : String) :
    (walletStep D w a).get hash = entryStep D hash (w.get hash) a := by
  cases henters : a.enters D with
  | some tx =>
    rw [walletStep_of_enters henters, DBInternface.get_put]
    unfold entryStep
    rw [tells_of_enters henters, henters]
    cases hget : w.get hash with
    | some u => simp [DBInternface.contains, hget]
    | none =>
      have htag : tag tx = tx.hash := rfl
      rw [htag]
      by_cases he : tx.hash = hash
      · simp [DBInternface.contains, hget, he, Option.filter_some]
      · simp [he, Option.filter_some]
  | none =>
    cases a with
    | createTransaction clock myId receiverId => cases henters
    | addTransaction u => cases henters
    | statusChanged content =>
      rw [walletStep, get_statusChanged]
      unfold entryStep WalletAction.tells
      cases w.get hash with
      | none => split <;> rfl
      | some tx =>
        by_cases he : content.hash = hash
        · simp [he]
        · simp [he]

theorem get_run (D : Digest) (hash : String) (as : List WalletAction) (w : Wallet) :
    (run (walletStep D) w as).get hash = run (entryStep D hash) (w.get hash) as := by
  induction as generalizing w with
  | nil => rfl
  | cons a as ih => rw [run_cons, run_cons, ih, get_walletStep]

/-! ## What the history says of a hash -/

/-- The status last told of `hash`, or else `status`. -/
def lastStatus (hash : String) (status : TransactionStatus) (as : List WalletAction) : TransactionStatus :=
  (as.filterMap (WalletAction.tells hash)).getLastD status

/-- The first transaction to enter under `hash`, with what is done after it. -/
def firstEntry (D : Digest) (hash : String) : List WalletAction → Option (Transaction × List WalletAction)
  | [] => none
  | a :: as =>
    match (a.enters D).filter fun tx => tx.hash = hash with
    | some tx => some (tx, as)
    | none => firstEntry D hash as

/-- What is stored from the start entered before all else. -/
def entered (D : Digest) (w : Wallet) (hash : String) (as : List WalletAction) :
    Option (Transaction × List WalletAction) :=
  ((w.get hash).map fun tx => (tx, as)).or (firstEntry D hash as)

/-- An entry only changes its status. -/
theorem run_entry_some (D : Digest) (hash : String) (as : List WalletAction) (tx : Transaction) :
    run (entryStep D hash) (some tx) as = some (tx.setStatus (lastStatus hash tx.status as)) := by
  induction as generalizing tx with
  | nil => rfl
  | cons a as ih =>
    rw [run_cons, entryStep]
    unfold lastStatus
    cases htells : a.tells hash with
    | none =>
      rw [Option.elim_none, ih, List.filterMap_cons_none htells]
      rfl
    | some status =>
      rw [Option.elim_some, ih, List.filterMap_cons_some htells, List.getLastD_cons]
      rfl

theorem run_entry_none (D : Digest) (hash : String) (as : List WalletAction) :
    run (entryStep D hash) none as =
      (firstEntry D hash as).map fun entry => entry.1.setStatus (lastStatus hash entry.1.status entry.2) := by
  induction as with
  | nil => rfl
  | cons a as ih =>
    rw [run_cons, entryStep, firstEntry]
    cases (a.enters D).filter fun tx => tx.hash = hash with
    | none => exact ih
    | some tx => exact run_entry_some D hash as tx

/-- **The wallet is its history.** Whatever the wallet and whatever is done to it:
under each hash that ever entered exactly one transaction is stored, the first
one that entered, with the status last told of it since; under any other hash
there is none. What is stored again, and what is told of an unknown hash, changes
nothing. -/
theorem wallet_holds_first_entries (D : Digest) (w : Wallet) (as : List WalletAction) :
    let w' := run (walletStep D) w as
    (∀ hash tx, tx ∈ w'.data ∧ tx.hash = hash ↔
      ∃ entry ∈ entered D w hash as, tx = entry.1.setStatus (lastStatus hash entry.1.status entry.2)) ∧
    (∀ a tx, a.enters D = some tx → w'.contains tx.hash = true → walletStep D w' a = w') ∧
    ∀ content, w'.contains content.hash = false → walletStep D w' (.statusChanged content) = w' := by
  intro w'
  have hget : ∀ hash, w'.get hash =
      (entered D w hash as).map fun entry => entry.1.setStatus (lastStatus hash entry.1.status entry.2) := by
    intro hash
    unfold entered
    rw [show w'.get hash = run (entryStep D hash) (w.get hash) as from get_run D hash as w]
    cases w.get hash with
    | none => exact run_entry_none D hash as
    | some tx => exact run_entry_some D hash as tx
  refine ⟨fun hash tx => ?_, fun a tx henters hin => ?_, fun content hout => statusChanged_of_not_contains hout⟩
  · have hstored : (tx ∈ w'.data ∧ tx.hash = hash) ↔ w'.get hash = some tx := by
      constructor
      · rintro ⟨htx, rfl⟩
        exact DBInternface.mem_data.mp htx
      · intro hfound
        exact ⟨DBInternface.mem_data_of_get hfound, DBInternface.tag_of_get hfound⟩
    rw [hstored, hget hash, Option.map_eq_some_iff]
    exact exists_congr fun entry => and_congr_right fun _ => eq_comm
  · rw [walletStep_of_enters henters]
    exact DBInternface.put_of_contains hin

end Krapi.Wallets
