import Krapi.ChainStore

/-! # The validator

`Validator.h`: three checks of a header against the newest stored one, and a
lookup of every listed transaction in the store of spent transactions. -/
namespace Krapi.Validator
open Krapi.BlockchainModels Krapi.DBInterface Krapi.ChainStore

inductive ValidationState where
  | success
  | transactionAlreadySpent
  | wrongTimestamp
  | incompeleteProofOfWork
  | wrongPreviousHash
  deriving Repr, DecidableEq

abbrev SpentTransactionsStore := DBInternface Transaction

def validateHeader (lastBlockHeader : BlockHeader) (block : Block) : ValidationState :=
  let checkTimestamp : Bool := block.header.timestamp > lastBlockHeader.timestamp
  let checkProofOfWork : Bool := startsWith block.header.hash "0000"
  let checkPreviousHash : Bool := lastBlockHeader.hash = block.header.previousHash
  if !checkTimestamp then .wrongTimestamp
  else if !checkProofOfWork then .incompeleteProofOfWork
  else if !checkPreviousHash then .wrongPreviousHash
  else .success

def validateTransaction (store : SpentTransactionsStore) (tx : Transaction) : ValidationState :=
  if store.contains tx.tag then .transactionAlreadySpent else .success

/-- The loop over the transactions of a block: the first failing one decides. -/
def validateTransactions (store : SpentTransactionsStore) : List Transaction → ValidationState
  | [] => .success
  | tx :: rest =>
    let transactionState := validateTransaction store tx
    if transactionState ≠ .success then transactionState else validateTransactions store rest

def validateBlock (chain : Blockchain) (store : SpentTransactionsStore) (block : Block) :
    ValidationState :=
  let headerState := validateHeader chain.last.header block
  if headerState ≠ .success then headerState else validateTransactions store block.transactions

theorem validateHeader_success {last : BlockHeader} {b : Block} :
    validateHeader last b = .success ↔
      last.timestamp < b.timestamp ∧ startsWith b.hash "0000" = true ∧
        b.previousHash = last.hash := by
  unfold validateHeader
  simp only [Block.timestamp, Block.hash, Block.previousHash]
  by_cases ht : last.timestamp < b.header.timestamp
  · by_cases hw : startsWith b.header.hash "0000" = true
    · by_cases hp : last.hash = b.header.previousHash
      · simp [ht, hw, hp]
      · simp [ht, hw, hp, Ne.symm hp]
    · simp [ht, hw]
  · simp [ht]

theorem validateHeader_ne_spent (last : BlockHeader) (b : Block) :
    validateHeader last b ≠ .transactionAlreadySpent := by
  unfold validateHeader
  dsimp only
  split
  · simp
  · split
    · simp
    · split <;> simp

theorem validateTransactions_cases (store : SpentTransactionsStore) (txs : List Transaction) :
    validateTransactions store txs =
      if ∃ tx ∈ txs, store.contains tx.hash = true then .transactionAlreadySpent else .success := by
  induction txs with
  | nil => simp [validateTransactions]
  | cons tx rest ih =>
    unfold validateTransactions validateTransaction
    by_cases hc : store.contains tx.hash = true
    · simp [Transaction.tag, hc]
    · rw [ih]
      simp [Transaction.tag, hc]

/-- **What acceptance means.** A block passes exactly when it is dated after the
newest stored block, claims work, names that block, and lists no spent transaction. -/
theorem validateBlock_success {chain : Blockchain} {store : SpentTransactionsStore} {b : Block} :
    validateBlock chain store b = .success ↔
      chain.last.timestamp < b.timestamp ∧ startsWith b.hash "0000" = true ∧
        b.previousHash = chain.last.hash ∧ ∀ tx ∈ b.transactions, store.contains tx.hash = false := by
  unfold validateBlock
  rw [validateTransactions_cases]
  by_cases hh : validateHeader chain.last.header b = .success
  · have h := validateHeader_success.mp hh
    simp only [hh, ne_eq, not_true_eq_false, if_false]
    constructor
    · intro hs
      refine ⟨h.1, h.2.1, h.2.2, ?_⟩
      intro tx htx
      by_contra hc
      rw [if_pos ⟨tx, htx, by simpa using hc⟩] at hs
      cases hs
    · intro ⟨_, _, _, hall⟩
      rw [if_neg]
      intro ⟨tx, htx, hc⟩
      rw [hall tx htx] at hc; cases hc
  · simp only [ne_eq, hh, not_false_eq_true, if_true]
    constructor
    · intro h; cases h
    · intro ⟨h1, h2, h3, _⟩
      exact absurd (validateHeader_success.mpr ⟨h1, h2, h3⟩) hh

end Krapi.Validator
