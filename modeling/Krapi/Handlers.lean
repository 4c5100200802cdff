import Krapi.Validator
import Krapi.Pool
import Krapi.Lib.Run

/-! # A full node and its handlers

The three stores of a full node and the handlers of `BlockchainManager` and
`TransactionPoolManager` that change them. A handler returns the new stores and
what it hands to the peer manager and the event queue. Each handler runs on the
event-loop thread, so one event is one step. -/
namespace Krapi.Handlers
open Krapi.BlockchainModels Krapi.DBInterface Krapi.ChainStore Krapi.Validator Krapi.Pool
open Krapi.Lib.Run

inductive PeerType where
  | light | full | observer | control | unknown
  deriving Repr, DecidableEq

/-- A peer message as a handler sees it: its type with the parsed content. -/
inductive NodeMessage where
  | addTransaction (tx : Transaction)
  | setTransactionStatus (status : TransactionStatus) (hash : String)
  | blockHeadersRequest (lastHeader : BlockHeader)
  | blockHeadersResponse (headers : List BlockHeader)
  | blockRequest (header : BlockHeader)
  | blockResponse (block : Block)
  | blockNotFoundResponse
  | addBlock (block : Block)
  | blockRejected (reason : ValidationState)
  | blockAccepted (header : BlockHeader)
  deriving Repr, DecidableEq

/-- What a handler hands on: a message for one peer, a message for all peers of
a type, or the notification that a mined block went through the validator. -/
inductive Effect where
  | send (receiver : String) (message : NodeMessage)
  | broadcast (peers : PeerType) (message : NodeMessage)
  | minedBlockValidated
  deriving Repr, DecidableEq

@[ext] structure Node where
  blockchain : Blockchain
  transactionPool : TransactionPool
  spentTransactionsStore : SpentTransactionsStore

/-! ## Handlers -/

def onAddTransaction (n : Node) (tx : Transaction) (room : Bool) : Node :=
  let validationState := validateTransaction n.spentTransactionsStore tx
  if validationState ≠ .success then n
  else { n with transactionPool := (n.transactionPool.add tx room).2 }

/-- One round of the loop that moves a block's transactions out of the pool:
only a transaction that was pooled is marked spent. -/
def spendTransaction (s : TransactionPool × SpentTransactionsStore) (tx : Transaction) :
    TransactionPool × SpentTransactionsStore :=
  let (removed, pool) := s.1.remove tx
  if removed then (pool, (s.2.put tx).2) else (pool, s.2)

/-- What both block handlers do with a validated block; `put` reports whether
it wrote the block, and neither handler looks. -/
def addValidated (n : Node) (block : Block) : Node :=
  let stores := block.transactions.foldl spendTransaction (n.transactionPool, n.spentTransactionsStore)
  { blockchain := (n.blockchain.put block).2
    transactionPool := stores.1
    spentTransactionsStore := stores.2 }

def onAddBlock (n : Node) (sender : String) (block : Block) : Node × List Effect :=
  let validationState := validateBlock n.blockchain n.spentTransactionsStore block
  if validationState ≠ .success then (n, [.send sender (.blockRejected validationState)])
  else
    let block := block.setTransactionsStatus .verified
    (addValidated n block,
      [.send sender (.blockAccepted block.header), .broadcast .observer (.addBlock block)])

def onBlockMined (n : Node) (block : Block) : Node × List Effect :=
  let validationState := validateBlock n.blockchain n.spentTransactionsStore block
  if validationState ≠ .success then (n, [.minedBlockValidated])
  else
    let block := block.setTransactionsStatus .verified
    (addValidated n block,
      .minedBlockValidated :: .broadcast .observer (.addBlock block) ::
        block.transactions.flatMap fun tx =>
          [.send tx.from_ (.setTransactionStatus .verified tx.hash),
            .send tx.to_ (.addTransaction tx)])

/-- The answer to `BlockHeadersRequest`. -/
def onBlockHeadersRequest (chain : Blockchain) (lastHeader : BlockHeader) : NodeMessage :=
  .blockHeadersResponse (getAllAfter chain lastHeader)

/-- The answer to `BlockRequest`. -/
def onBlockRequest (chain : Blockchain) (header : BlockHeader) : NodeMessage :=
  match chain.get header.hash with
  | some block => .blockResponse block
  | none => .blockNotFoundResponse

/-- One round of the tally: a transaction dated in the window is a vote for its receiver.
The tally is of `int`s, which the chain would have to overflow. -/
def countVote (begin_ end_ : UInt64) (results : Std.ExtTreeMap String Nat compare) (tx : Transaction) :
    Std.ExtTreeMap String Nat compare :=
  if tx.timestamp ≥ begin_ ∧ tx.timestamp ≤ end_ then results.alter tx.to_ (fun n => some (n.getD 0 + 1))
  else results

/-- The tally that the `ControlOperateBetween` listener broadcasts. -/
def onControlOperateBetween (chain : Blockchain) (begin_ end_ : UInt64) :
    Std.ExtTreeMap String Nat compare :=
  chain.data.foldl (fun results block => block.transactions.foldl (countVote begin_ end_) results) ∅

/-! ## Events and runs -/

inductive Event where
  | addTransaction (tx : Transaction) (room : Bool)
  | addBlock (sender : String) (block : Block)
  | blockMined (block : Block)
  deriving Repr, DecidableEq

/-- The block an event carries. -/
def Event.block? : Event → Option Block
  | .addTransaction _ _ => none
  | .addBlock _ block => some block
  | .blockMined block => some block

def handle (n : Node) : Event → Node
  | .addTransaction tx room => onAddTransaction n tx room
  | .addBlock sender block => (onAddBlock n sender block).1
  | .blockMined block => (onBlockMined n block).1

/-- A full node at its first start: the genesis chain, nothing pooled, nothing spent. -/
def start (D : Digest) : Node where
  blockchain := fromPath D DBInternface.empty
  transactionPool := .create
  spentTransactionsStore := DBInternface.empty

/-- The node lets `b` in. -/
def Accepts (n : Node) (b : Block) : Prop :=
  validateBlock n.blockchain n.spentTransactionsStore b = .success

instance (n : Node) (b : Block) : Decidable (Accepts n b) := inferInstanceAs (Decidable (_ = _))

theorem onAddTransaction_eq (n : Node) (tx : Transaction) (room : Bool) :
    onAddTransaction n tx room =
      if n.spentTransactionsStore.contains tx.hash then n
      else { n with transactionPool := (n.transactionPool.add tx room).2 } := by
  unfold onAddTransaction validateTransaction
  cases h : n.spentTransactionsStore.contains tx.hash <;> simp [Transaction.tag, h]

theorem onAddBlock_of_accepts {n : Node} {b : Block} (h : Accepts n b) (sender : String) :
    onAddBlock n sender b =
      (addValidated n b.verified,
        [.send sender (.blockAccepted b.header), .broadcast .observer (.addBlock b.verified)]) := by
  unfold Accepts at h
  simp [onAddBlock, h, Block.verified, Block.setTransactionsStatus]

/-- A block that does not pass changes nothing and is answered with the reason. -/
theorem onAddBlock_of_not_accepts {n : Node} {b : Block} (h : ¬ Accepts n b) (sender : String) :
    onAddBlock n sender b =
      (n, [.send sender (.blockRejected (validateBlock n.blockchain n.spentTransactionsStore b))]) := by
  unfold Accepts at h
  simp [onAddBlock, h]

theorem onAddBlock_fst (n : Node) (sender : String) (b : Block) :
    (onAddBlock n sender b).1 = if Accepts n b then addValidated n b.verified else n := by
  by_cases h : Accepts n b
  · rw [onAddBlock_of_accepts h, if_pos h]
  · rw [onAddBlock_of_not_accepts h, if_neg h]

/-- The sender is told `BlockAccepted` exactly when the node lets the block in. -/
theorem accepted_mem_onAddBlock {n : Node} {sender : String} {b : Block} :
    Effect.send sender (.blockAccepted b.header) ∈ (onAddBlock n sender b).2 ↔ Accepts n b := by
  by_cases h : Accepts n b
  · simp [onAddBlock_of_accepts h, h]
  · simp [onAddBlock_of_not_accepts h, h]

/-- A block that is answered with `BlockRejected` changes nothing. -/
theorem onAddBlock_of_rejected {n : Node} {sender : String} {b : Block} {reason : ValidationState}
    (hr : Effect.send sender (.blockRejected reason) ∈ (onAddBlock n sender b).2) :
    (onAddBlock n sender b).1 = n := by
  by_cases h : Accepts n b
  · simp [onAddBlock_of_accepts h] at hr
  · rw [onAddBlock_of_not_accepts h]

theorem onBlockMined_fst (n : Node) (b : Block) :
    (onBlockMined n b).1 = if Accepts n b then addValidated n b.verified else n := by
  unfold onBlockMined Accepts
  by_cases h : validateBlock n.blockchain n.spentTransactionsStore b = .success
  · simp [h, Block.verified]
  · simp [h]

/-- A block is added or leaves the node alone, whoever it comes from. -/
theorem handle_block (n : Node) {e : Event} {b : Block} (hb : e.block? = some b) :
    handle n e = if Accepts n b then addValidated n b.verified else n := by
  cases e with
  | addTransaction tx room => cases hb
  | addBlock sender c => cases hb; exact onAddBlock_fst n sender b
  | blockMined c => cases hb; exact onBlockMined_fst n b

/-- **Everything an event can do.** It leaves the node alone, or pools a
transaction that is neither pooled nor spent, or adds a block that passed. -/
theorem handle_cases (n : Node) (e : Event) :
    handle n e = n ∨
    (∃ tx room, e = .addTransaction tx room ∧ n.spentTransactionsStore.contains tx.hash = false ∧
      n.transactionPool.contains tx.hash = false ∧
      handle n e = { n with transactionPool := (n.transactionPool.add tx room).2 }) ∨
    (∃ b, e.block? = some b ∧ Accepts n b ∧ handle n e = addValidated n b.verified) := by
  cases hb : e.block? with
  | some b =>
    have he := handle_block n hb
    by_cases h : Accepts n b
    · rw [if_pos h] at he
      exact .inr (.inr ⟨b, rfl, h, he⟩)
    · rw [if_neg h] at he
      exact .inl he
  | none =>
    cases e with
    | addBlock sender b => cases hb
    | blockMined b => cases hb
    | addTransaction tx room =>
      have he := onAddTransaction_eq n tx room
      cases hs : n.spentTransactionsStore.contains tx.hash with
      | true =>
        rw [hs] at he
        exact .inl he
      | false =>
        rw [hs] at he
        cases hp : n.transactionPool.contains tx.hash with
        | false => exact .inr (.inl ⟨tx, room, rfl, hs, hp, he⟩)
        | true =>
          have hadd := TransactionPool.add_of_contains room hp
          rw [hadd] at he
          exact .inl he

/-! ## What adding a block does to pool and spent store -/

theorem spendTransaction_eq (s : TransactionPool × SpentTransactionsStore) (tx : Transaction) :
    spendTransaction s tx =
      ((s.1.remove tx).2, if s.1.contains tx.hash then (s.2.put tx).2 else s.2) := by
  unfold spendTransaction
  rw [← TransactionPool.remove_fst]
  cases h : s.1.remove tx with
  | mk removed pool => cases removed <;> rfl

/-- What is not pooled is not spent. -/
theorem spendTransaction_of_not_contains {s : TransactionPool × SpentTransactionsStore} {tx : Transaction}
    (h : s.1.contains tx.hash = false) : spendTransaction s tx = s := by
  have hpool : (s.1.remove tx).2 = s.1 :=
    TransactionPool.ext_db_queue (DBInternface.remove_of_not_contains h) (TransactionPool.remove_queue _ _)
  rw [spendTransaction_eq, h, hpool]
  rfl

theorem spend_queue (txs : List Transaction) (s : TransactionPool × SpentTransactionsStore) :
    (txs.foldl spendTransaction s).1.queue = s.1.queue := by
  induction txs generalizing s with
  | nil => rfl
  | cons tx rest ih => rw [List.foldl_cons, ih, spendTransaction_eq, TransactionPool.remove_queue]

/-- The pool loses exactly the listed hashes. -/
theorem spend_pool_get (txs : List Transaction) (s : TransactionPool × SpentTransactionsStore)
    (h : String) :
    (txs.foldl spendTransaction s).1.get h =
      if h ∈ txs.map Transaction.hash then none else s.1.get h := by
  induction txs generalizing s with
  | nil => simp
  | cons tx rest ih =>
    rw [List.foldl_cons, ih, spendTransaction_eq, TransactionPool.remove_db, DBInternface.get_remove]
    change (if h ∈ rest.map Transaction.hash then none else if tx.hash = h then none else s.1.get h) = _
    by_cases hr : h ∈ rest.map Transaction.hash
    · simp [hr]
    · by_cases ht : tx.hash = h
      · simp [ht]
      · simp [hr, ht, Ne.symm ht]

/-- The spent store gains exactly the listed hashes that were pooled. -/
theorem spend_spent_contains (txs : List Transaction) (s : TransactionPool × SpentTransactionsStore)
    (h : String) :
    (txs.foldl spendTransaction s).2.contains h = true ↔
      s.2.contains h = true ∨ (h ∈ txs.map Transaction.hash ∧ s.1.contains h = true) := by
  induction txs generalizing s with
  | nil => simp
  | cons tx rest ih =>
    rw [List.foldl_cons, ih, spendTransaction_eq, TransactionPool.remove_db,
      DBInternface.contains_remove]
    change _ ∨ _ ∧ (s.1.contains h && tx.hash != h) = true ↔ _
    by_cases ht : tx.hash = h
    · subst ht
      cases hp : s.1.contains tx.hash
      · simp
      · have : (s.2.put tx).2.contains tx.hash = true := by
          rw [DBInternface.contains_put]; simp [tag, Transaction.tag]
        simp [this]
    · have hput : (s.2.put tx).2.contains h = s.2.contains h := by
        rw [DBInternface.contains_put]; simp [tag, Transaction.tag, ht]
      have hne : h ≠ tx.hash := Ne.symm ht
      cases hp : s.1.contains tx.hash <;> simp [hput, ht, hne]

theorem spend_spent_get (txs : List Transaction) (s : TransactionPool × SpentTransactionsStore)
    {h : String} {tx : Transaction} (hs : s.2.get h = some tx) :
    (txs.foldl spendTransaction s).2.get h = some tx := by
  induction txs generalizing s with
  | nil => exact hs
  | cons t rest ih =>
    rw [List.foldl_cons]
    apply ih
    rw [spendTransaction_eq]
    have hc : s.2.contains h = true := by simp [DBInternface.contains, hs]
    cases s.1.contains t.hash with
    | true => simp [DBInternface.get_put, hc, hs]
    | false => exact hs

section AddValidated
variable (n : Node) (b : Block)

@[simp] theorem addValidated_blockchain :
    (addValidated n b).blockchain = (n.blockchain.put b).2 := rfl

@[simp] theorem addValidated_queue :
    (addValidated n b).transactionPool.queue = n.transactionPool.queue := spend_queue _ _

theorem addValidated_pool_get (h : String) :
    (addValidated n b).transactionPool.get h =
      if h ∈ b.hashes then none else n.transactionPool.get h := spend_pool_get _ _ h

theorem addValidated_pool_contains (h : String) :
    (addValidated n b).transactionPool.contains h = true ↔
      n.transactionPool.contains h = true ∧ h ∉ b.hashes := by
  simp only [DBInternface.contains, addValidated_pool_get]
  by_cases hh : h ∈ b.hashes <;> simp [hh]

theorem addValidated_spent_contains (h : String) :
    (addValidated n b).spentTransactionsStore.contains h = true ↔
      n.spentTransactionsStore.contains h = true ∨
        (h ∈ b.hashes ∧ n.transactionPool.contains h = true) := spend_spent_contains _ _ h

theorem addValidated_spent_get {h : String} {tx : Transaction}
    (hs : n.spentTransactionsStore.get h = some tx) :
    (addValidated n b).spentTransactionsStore.get h = some tx := spend_spent_get _ _ hs

end AddValidated

/-- The pool's database after an event that pools a transaction. -/
theorem pooled_contains (n : Node) (tx : Transaction) (room : Bool) (h : String) :
    (n.transactionPool.add tx room).2.contains h = (n.transactionPool.contains h || tx.hash == h) := by
  rw [TransactionPool.add_db]
  exact DBInternface.contains_put _ _ _

end Krapi.Handlers
