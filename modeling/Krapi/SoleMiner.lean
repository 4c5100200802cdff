import Krapi.PendingVotes
import Krapi.MinedChain

/-! # A full node by itself

The first full node of a network: no other one sends it blocks or turns its own
down, and wallets send what they like, as often as they like. Pool, queue, miner,
event queue and chain then make one conveyor. What arrived, each hash once and in
the order of its first arrival, is what the chain lists, oldest block first, then
what the miner has in hand, then what is queued. -/
namespace Krapi.SoleMiner
open Krapi.BlockchainModels Krapi.DBInterface Krapi.ChainStore Krapi.Validator Krapi.Pool
open Krapi.Handlers Krapi.Mining Krapi.Miner Krapi.ProofOfWork Krapi.PendingVotes Krapi.Lib.Run

/-- A block carries the reading of the clock that its search began with. -/
theorem mineFrom_timestamp {D : Digest} {previousHash identity merkleRoot : String} {timestamp nonce : UInt64}
    {txs : List Transaction} {fuel : ℕ} {b : Block}
    (h : mineFrom D previousHash identity merkleRoot timestamp txs fuel nonce = some b) : b.timestamp = timestamp := by
  induction fuel generalizing nonce with
  | zero => cases h
  | succ fuel ih =>
    unfold mineFrom at h
    simp only at h
    split at h
    · cases h
      rfl
    · exact ih h

/-! ## What goes in and what comes out -/

def searches : Phase → Bool
  | .mining _ _ => true
  | _ => false

/-- Not a block, and no answer that turns one down. -/
def fromWallets : QueuedEvent → Bool
  | .received _ (.addBlock _) => false
  | .received _ (.blockRejected _) => false
  | _ => true

/-- No other full node has a say, `try_enqueue` finds room, and the search for a
block starts after the date of the newest one. -/
def Undisturbed (s : FullNode) : Action → Prop
  | .receive sender message => fromWallets (.received sender message) = true
  | .processOne room => room = true
  | .miner clock _ => searches s.phase = true → s.node.blockchain.last.timestamp < clock

instance (s : FullNode) : (a : Action) → Decidable (Undisturbed s a)
  | .receive _ _ => inferInstanceAs (Decidable (_ = true))
  | .processOne _ => inferInstanceAs (Decidable (_ = true))
  | .miner _ _ => inferInstanceAs (Decidable (_ = true → _ < _))

/-- The votes that arrive, in order. -/
def received (as : List Action) : List Transaction :=
  as.filterMap fun
    | .receive _ (.addTransaction tx) => some tx
    | _ => none

/-- The votes that the event loop has not come to yet. -/
def awaiting (events : List QueuedEvent) : List Transaction :=
  events.filterMap fun
    | .received _ (.addTransaction tx) => some tx
    | _ => none

def keepFirst (kept : List Transaction) (tx : Transaction) : List Transaction :=
  if tx.hash ∈ kept.map Transaction.hash then kept else kept ++ [tx]

/-- Of several transactions under one hash only the first, in order. -/
def firsts (txs : List Transaction) : List Transaction := txs.foldl keepFirst []

/-- The transactions on a chain that is listed newest first, oldest first. -/
def chained (chain : Blockchain) : List Transaction := chain.data.reverse.flatMap Block.transactions

/-- What the miner holds that is still pooled. -/
def inHand (s : FullNode) : List Transaction :=
  (held s.phase).filter fun tx => s.node.transactionPool.contains tx.hash

def allVerified (txs : List Transaction) : List Transaction := txs.map fun tx => tx.setStatus .verified

/-- `b` was built on `c`. -/
structure Follows (b c : Block) : Prop where
  previousHash : b.previousHash = c.hash
  later : c.timestamp < b.timestamp
  smaller : b.hash < c.hash

theorem firsts_concat (txs : List Transaction) (tx : Transaction) :
    firsts (txs ++ [tx]) = keepFirst (firsts txs) tx := by
  unfold firsts
  rw [List.foldl_append]
  rfl

theorem firsts_nodup (txs : List Transaction) : ((firsts txs).map Transaction.hash).Nodup := by
  induction txs using List.reverseRecOn with
  | nil => exact List.nodup_nil
  | append_singleton txs tx ih =>
    rw [firsts_concat]
    unfold keepFirst
    split
    · exact ih
    · rename_i hnew
      rw [List.map_append, List.map_singleton, ← List.concat_eq_append]
      exact ih.concat hnew

@[simp] theorem allVerified_append (txs txs' : List Transaction) :
    allVerified (txs ++ txs') = allVerified txs ++ allVerified txs' := List.map_append

@[simp] theorem allVerified_hashes (txs : List Transaction) :
    (allVerified txs).map Transaction.hash = txs.map Transaction.hash := by
  unfold allVerified
  rw [List.map_map]
  rfl

/-! ## A chain listed newest first -/

section Chain
variable {chain : Blockchain} {b c : Block}

/-- A value whose tag is below all others is listed first. -/
theorem data_put_of_lt (hbelow : ∀ c ∈ chain.data, b.hash < c.hash) : (chain.put b).2.data = b :: chain.data := by
  have hnew : chain.contains b.hash = false := by
    rw [Bool.eq_false_iff]
    intro hin
    obtain ⟨c, hc, he⟩ := contains_hash_iff.mp hin
    exact absurd (hbelow c hc) (he ▸ lt_irrefl c.hash)
  refine (DBInternface.data_put_perm hnew).eq_of_pairwise ?_ (DBInternface.data_sorted _) ?_
  · intro c d _ _ hlt hlt'
    exact absurd hlt (lt_asymm hlt')
  · exact List.pairwise_cons.mpr ⟨hbelow, chain.data_sorted⟩

theorem pairwise_of_follows {blocks : List Block} (h : blocks.IsChain Follows) :
    blocks.Pairwise fun b c => c.timestamp < b.timestamp ∧ b.hash < c.hash := by
  have htrans : Trans (fun b c : Block => c.timestamp < b.timestamp ∧ b.hash < c.hash)
      (fun b c : Block => c.timestamp < b.timestamp ∧ b.hash < c.hash)
      (fun b c : Block => c.timestamp < b.timestamp ∧ b.hash < c.hash) :=
    ⟨fun hab hbc => ⟨hbc.1.trans hab.1, hab.2.trans hbc.2⟩⟩
  exact (h.imp fun _ _ hf => ⟨hf.later, hf.smaller⟩).pairwise

/-- The scan of `last()` finds the first block of the list. -/
theorem last_eq_head {rest : List Block} (hdata : chain.data = b :: rest)
    (hchain : chain.data.IsChain Follows) (hg : createGenesisBlock D ∈ chain.data) : chain.last = b := by
  have hmem := (last_isTop hg).1
  rw [mem_stored, hdata] at hmem
  rcases List.mem_cons.mp hmem with he | hrest
  · exact he
  · have hpairs := pairwise_of_follows hchain
    rw [hdata] at hpairs
    have holder := ((List.pairwise_cons.mp hpairs).1 _ hrest).1
    have hnewest : b.timestamp ≤ chain.last.timestamp :=
      DBInternface.timestamp_le_last (hdata ▸ List.mem_cons_self)
    exact absurd holder (not_lt.mpr hnewest)

end Chain

/-! ## Where the miner stands with its block -/

/-- What the miner and the event loop tell each other. -/
def isNotification : QueuedEvent → Bool
  | .blockMined _ => true
  | .minedBlockValidated => true
  | _ => false

/-- A block of the miner's that the chain will take. -/
structure Fits (last b : Block) : Prop where
  follows : Follows b last
  work : startsWith b.hash "0000" = true
  batch : b.transactions.length = batchSize

/-- Where the miner stands, which notifications are queued and what is in hand. -/
inductive Stage (last : Block) : Phase → List QueuedEvent → List Transaction → Prop
  | waiting (batch : List Transaction) (item : Option Transaction) :
      batch.length + item.toList.length ≤ batchSize → Stage last (.waiting batch item) [] (batch ++ item.toList)
  | acquired (batch : List Transaction) : batch.length = batchSize → Stage last (.acquired batch) [] batch
  | mining (batch : List Transaction) : batch.length = batchSize → Stage last (.mining last.hash batch) [] batch
  | mined (b : Block) : Fits last b → Stage last (.mined b) [] b.transactions
  | broadcasted (b : Block) : Fits last b → Stage last (.broadcasted b) [] b.transactions
  | listening (b : Block) : Fits last b → Stage last (.listening b) [] b.transactions
  | decided (b : Block) : Fits last b → Stage last (.decided b) [] b.transactions
  /-- Its block is with the event loop. -/
  | handedOver (b : Block) (phase : Phase) : phase = .enqueued b ∨ phase = .validating b → Fits last b →
      Stage last phase [.blockMined b] b.transactions
  | answered (b : Block) (phase : Phase) : phase = .enqueued b ∨ phase = .validating b →
      Stage last phase [.minedBlockValidated] []
  /-- The answer came before the miner listened. -/
  | missed (b : Block) (phase : Phase) : phase = .enqueued b ∨ phase = .validating b → Stage last phase [] []

/-- Where every vote is, with `hand` in the hands of the miner. -/
structure Books (D : Digest) (s : FullNode) (hand arrived : List Transaction) : Prop where
  chain : s.node.blockchain.data.IsChain Follows
  first : s.node.blockchain.data.getLast? = some (createGenesisBlock D)
  batches : ∀ b ∈ s.node.blockchain.data, b ≠ createGenesisBlock D → b.transactions.length = batchSize
  votes : chained s.node.blockchain ++ allVerified (hand ++ queued s) = allVerified (firsts arrived)
  pooled : ∀ h, s.node.transactionPool.contains h = true ↔ h ∈ (hand ++ queued s).map Transaction.hash
  spent : ∀ h, s.node.spentTransactionsStore.contains h = true ↔
    h ∈ (chained s.node.blockchain).map Transaction.hash
  items : ∀ item ∈ s.node.transactionPool.queue, ∃ tx, item = .transaction tx

structure Sole (D : Digest) (s : FullNode) (hand arrived : List Transaction) : Prop where
  stage : Stage s.node.blockchain.last s.phase (s.events.filter isNotification) hand
  books : Books D s hand arrived
  /-- What the miner holds is in hand or on the chain. -/
  settled : ∀ tx ∈ held s.phase, tx ∈ hand ∨ s.node.spentTransactionsStore.contains tx.hash = true
  undisturbed : ∀ e ∈ s.events, fromWallets e = true

variable {D : Digest} {s t : FullNode} {hand arrived : List Transaction}

theorem Books.of_node (h : Books D s hand arrived) (hnode : t.node = s.node) : Books D t hand arrived := by
  obtain ⟨node, events, phase⟩ := s
  obtain ⟨node', events', phase'⟩ := t
  cases hnode
  exact ⟨h.chain, h.first, h.batches, h.votes, h.pooled, h.spent, h.items⟩

/-- No hash is in two places. -/
theorem Books.nodup (h : Books D s hand arrived) :
    ((chained s.node.blockchain).map Transaction.hash ++ (hand ++ queued s).map Transaction.hash).Nodup := by
  have hhashes := congrArg (List.map Transaction.hash) h.votes
  rw [List.map_append, allVerified_hashes, allVerified_hashes] at hhashes
  rw [hhashes]
  exact firsts_nodup arrived

theorem Books.genesis_mem (h : Books D s hand arrived) : createGenesisBlock D ∈ s.node.blockchain.data :=
  List.mem_of_getLast? h.first

theorem Books.exists_newest (h : Books D s hand arrived) :
    ∃ rest, s.node.blockchain.data = s.node.blockchain.last :: rest := by
  cases hdata : s.node.blockchain.data with
  | nil => exact absurd h.genesis_mem (by rw [hdata]; exact List.not_mem_nil)
  | cons b rest => exact ⟨rest, by rw [last_eq_head hdata h.chain h.genesis_mem]⟩

/-- The order of what is not on the chain may be split in any way. -/
theorem Books.transfer (h : Books D s hand arrived) {hand' : List Transaction}
    (hchain : t.node.blockchain = s.node.blockchain)
    (hspent : t.node.spentTransactionsStore = s.node.spentTransactionsStore)
    (hpool : t.node.transactionPool.toDBInternface = s.node.transactionPool.toDBInternface)
    (hpending : hand' ++ queued t = hand ++ queued s)
    (hitems : ∀ item ∈ t.node.transactionPool.queue, item ∈ s.node.transactionPool.queue) :
    Books D t hand' arrived := by
  refine ⟨?_, ?_, ?_, ?_, ?_, ?_, ?_⟩
  · rw [hchain]; exact h.chain
  · rw [hchain]; exact h.first
  · rw [hchain]; exact h.batches
  · rw [hchain, hpending]; exact h.votes
  · rw [hpool, hpending]; exact h.pooled
  · rw [hspent, hchain]; exact h.spent
  · intro item hitem
    exact h.items item (hitems item hitem)

/-! ## What becomes of a vote and of a block -/

theorem mem_firsts_iff (h : Books D s hand arrived) (hash : String) :
    hash ∈ (firsts arrived).map Transaction.hash ↔
      s.node.spentTransactionsStore.contains hash = true ∨ s.node.transactionPool.contains hash = true := by
  rw [h.spent, h.pooled, ← List.mem_append, ← allVerified_hashes (hand ++ queued s), ← List.map_append, h.votes,
    allVerified_hashes]

theorem Books.pools (h : Books D s hand arrived) (tx : Transaction)
    (hnode : t.node = onAddTransaction s.node tx true) : Books D t hand (arrived ++ [tx]) := by
  have hfirsts := firsts_concat arrived tx
  unfold keepFirst at hfirsts
  by_cases hknown : tx.hash ∈ (firsts arrived).map Transaction.hash
  · have hsame : onAddTransaction s.node tx true = s.node := by
      rw [onAddTransaction_eq]
      split
      · rfl
      · rename_i hspent
        have hpool := ((mem_firsts_iff h tx.hash).mp hknown).resolve_left hspent
        rw [TransactionPool.add_of_contains true hpool]
    have hbooks := h.of_node (hnode.trans hsame)
    rw [if_pos hknown] at hfirsts
    exact { hbooks with votes := by rw [hfirsts]; exact hbooks.votes }
  · have hnew := (not_congr (mem_firsts_iff h tx.hash)).mp hknown
    rw [not_or, Bool.not_eq_true, Bool.not_eq_true] at hnew
    rw [onAddTransaction_eq, hnew.1, if_neg Bool.false_ne_true] at hnode
    have hqueue : t.node.transactionPool.queue = s.node.transactionPool.queue ++ [.transaction tx] := by
      rw [hnode]
      show (s.node.transactionPool.add tx true).2.queue = _
      rw [TransactionPool.add_queue, if_pos ⟨hnew.2, rfl⟩]
    have hqueued : queued t = queued s ++ [tx] := by
      unfold queued
      rw [hqueue, List.filterMap_append]
      rfl
    have hchain : t.node.blockchain = s.node.blockchain := by rw [hnode]
    have hspent : t.node.spentTransactionsStore = s.node.spentTransactionsStore := by rw [hnode]
    rw [if_neg hknown] at hfirsts
    refine ⟨?_, ?_, ?_, ?_, ?_, ?_, ?_⟩
    · rw [hchain]; exact h.chain
    · rw [hchain]; exact h.first
    · rw [hchain]; exact h.batches
    · rw [hchain, hqueued, hfirsts, ← List.append_assoc, allVerified_append, ← List.append_assoc, h.votes,
        ← allVerified_append]
    · intro hash
      have hcontains : t.node.transactionPool.contains hash =
          (s.node.transactionPool.contains hash || tx.hash == hash) := by
        rw [hnode]
        exact pooled_contains s.node tx true hash
      have hhashes : (hand ++ (queued s ++ [tx])).map Transaction.hash =
          (hand ++ queued s).map Transaction.hash ++ [tx.hash] := by
        rw [← List.append_assoc, List.map_append, List.map_singleton]
      rw [hcontains, hqueued, hhashes, List.mem_append, List.mem_singleton, Bool.or_eq_true, h.pooled, beq_iff_eq,
        @eq_comm _ tx.hash]
    · rw [hspent, hchain]; exact h.spent
    · intro item hitem
      rw [hqueue] at hitem
      rcases List.mem_append.mp hitem with hitem | hitem
      · exact h.items item hitem
      · exact ⟨tx, List.mem_singleton.mp hitem⟩

theorem Books.accepts {b : Block} (h : Books D s b.transactions arrived) (hb : Fits s.node.blockchain.last b) :
    Accepts s.node b := by
  refine validateBlock_success.mpr ⟨hb.follows.later, hb.work, hb.follows.previousHash, ?_⟩
  intro tx htx
  rw [Bool.eq_false_iff]
  intro hspent
  have hhand : tx.hash ∈ (b.transactions ++ queued s).map Transaction.hash :=
    List.mem_map_of_mem (List.mem_append_left _ htx)
  exact (List.nodup_append.mp h.nodup).2.2 _ ((h.spent tx.hash).mp hspent) _ hhand rfl

/-- The block that the miner handed over becomes the newest. -/
theorem Books.adds {b : Block} (h : Books D s b.transactions arrived) (hb : Fits s.node.blockchain.last b)
    (hnode : t.node = addValidated s.node b.verified) :
    Books D t [] arrived ∧ ∀ tx ∈ b.transactions, t.node.spentTransactionsStore.contains tx.hash = true := by
  obtain ⟨rest, hnewest⟩ := h.exists_newest
  have hbelow : ∀ c ∈ s.node.blockchain.data, b.verified.hash < c.hash := by
    have hpairs := pairwise_of_follows h.chain
    intro c hc
    rw [hnewest] at hpairs hc
    rcases List.mem_cons.mp hc with rfl | hc
    · exact hb.follows.smaller
    · exact hb.follows.smaller.trans ((List.pairwise_cons.mp hpairs).1 c hc).2
  have hdata : t.node.blockchain.data = b.verified :: s.node.blockchain.data := by
    rw [hnode, addValidated_blockchain, data_put_of_lt hbelow]
  have hchained : chained t.node.blockchain = chained s.node.blockchain ++ allVerified b.transactions := by
    unfold chained
    rw [hdata, List.reverse_cons, List.flatMap_append]
    exact congrArg (_ ++ ·) (List.append_nil _)
  have hqueued : queued t = queued s := by
    unfold queued
    rw [hnode, addValidated_queue]
  have hnodup := h.nodup
  rw [List.map_append] at hnodup
  have hpooled : ∀ hash, t.node.transactionPool.contains hash = true ↔ hash ∈ (queued s).map Transaction.hash := by
    intro hash
    rw [hnode, addValidated_pool_contains, h.pooled, List.map_append, List.mem_append, Block.verified_hashes]
    have hapart := (List.nodup_append.mp (List.nodup_append.mp hnodup).2.1).2.2
    constructor
    · intro ⟨hin, hnot⟩
      exact hin.resolve_left hnot
    · intro hin
      exact ⟨.inr hin, fun hhand => hapart _ hhand _ hin rfl⟩
  have hspent : ∀ hash, t.node.spentTransactionsStore.contains hash = true ↔
      hash ∈ (chained t.node.blockchain).map Transaction.hash := by
    intro hash
    rw [hnode, addValidated_spent_contains, ← hnode, hchained, List.map_append, List.mem_append, allVerified_hashes,
      h.spent, h.pooled, Block.verified_hashes]
    refine or_congr_right ⟨fun hin => hin.1, fun hin => ⟨hin, ?_⟩⟩
    rw [List.map_append]
    exact List.mem_append_left _ hin
  refine ⟨⟨?_, ?_, ?_, ?_, ?_, hspent, ?_⟩, ?_⟩
  · rw [hdata, hnewest]
    refine List.isChain_cons_cons.mpr ⟨⟨hb.follows.previousHash, hb.follows.later, hb.follows.smaller⟩, ?_⟩
    rw [← hnewest]
    exact h.chain
  · rw [hdata, hnewest, List.getLast?_cons_cons, ← hnewest]
    exact h.first
  · intro c hc hne
    rw [hdata] at hc
    rcases List.mem_cons.mp hc with rfl | hc
    · exact (List.length_map _).trans hb.batch
    · exact h.batches c hc hne
  · rw [hchained, hqueued, List.nil_append, List.append_assoc, ← allVerified_append]
    exact h.votes
  · rw [hqueued]
    exact hpooled
  · rw [hnode, addValidated_queue]
    exact h.items
  · intro tx htx
    rw [hspent, hchained, List.map_append, allVerified_hashes]
    exact List.mem_append_right _ (List.mem_map_of_mem htx)

/-! ## What a step does -/

theorem Sole.moved {hand' : List Transaction} (h : Sole D s hand arrived) (hnode : t.node = s.node)
    (hstage : Stage s.node.blockchain.last t.phase (t.events.filter isNotification) hand')
    (hhand : hand' = hand) (hheld : ∀ tx ∈ held t.phase, tx ∈ held s.phase)
    (hevents : ∀ e ∈ t.events, fromWallets e = true) : Sole D t hand' arrived := by
  subst hhand
  refine ⟨?_, h.books.of_node hnode, ?_, hevents⟩
  · rw [hnode]; exact hstage
  · intro tx htx
    rw [hnode]
    exact h.settled tx (hheld tx htx)

/-- From the queue into the hands of the miner. -/
theorem Sole.dequeue {batch : List Transaction} {tx : Transaction} {rest : List PoolItem} {node : Node}
    {events : List QueuedEvent} (h : Sole D ⟨node, events, .waiting batch none⟩ batch arrived)
    (hlength : batch.length < batchSize) (hqueue : node.transactionPool.queue = .transaction tx :: rest)
    (hnotes : events.filter isNotification = []) :
    Sole D ⟨{ node with transactionPool := { node.transactionPool with queue := rest } }, events,
      .waiting batch (some tx)⟩ (batch ++ [tx]) arrived := by
  refine ⟨?_, ?_, ?_, h.undisturbed⟩
  · show Stage _ _ (events.filter isNotification) _
    rw [hnotes]
    exact .waiting batch (some tx) hlength
  · refine h.books.transfer rfl rfl rfl ?_ ?_
    · simp [queued, hqueue]
    · intro item hitem
      rw [show (⟨node, events, .waiting batch none⟩ : FullNode).node.transactionPool.queue = _ from hqueue]
      exact List.mem_cons_of_mem _ hitem
  · intro t ht
    exact .inl ht

/-- A full batch that is mined on the newest block gives a block that fits it. -/
theorem fits_of_mined {last b : Block} {id : String} {batch : List Transaction} {clock : UInt64} {fuel : ℕ}
    (h : miningFunction D last.hash id batch clock fuel = some b) (hclock : last.timestamp < clock)
    (hlength : batch.length = batchSize) : Fits last b := by
  have htxs : b.transactions = batch := miningFunction_transactions h
  have hprev : b.previousHash = last.hash := mineFrom_previousHash h
  have htime : b.timestamp = clock := mineFrom_timestamp h
  obtain ⟨hwork, hcovered⟩ := miningFunction_covered h
  exact ⟨⟨hprev, htime ▸ hclock, hprev ▸ hcovered.smaller⟩, hwork, htxs ▸ hlength⟩

theorem Sole.minerStep (h : Sole D s hand arrived) (id : String) {clock : UInt64} (fuel : ℕ)
    (hclock : searches s.phase = true → s.node.blockchain.last.timestamp < clock) :
    ∃ hand', Sole D (minerStep D id clock fuel s).1 hand' arrived ∧
      awaiting (minerStep D id clock fuel s).1.events = awaiting s.events := by
  obtain ⟨node, events, phase⟩ := s
  have hstage : Stage node.blockchain.last phase (events.filter isNotification) hand := h.stage
  generalize hnotes : events.filter isNotification = notes at hstage
  cases hstage with
  | waiting batch item hlength =>
    cases item with
    | none =>
      rw [Option.toList_none, List.append_nil] at h
      simp only [Miner.minerStep]
      split
      · rename_i hfull
        exact ⟨batch, h.moved rfl (hnotes ▸ .acquired batch hfull) rfl
          (fun tx htx => List.mem_append_left _ htx) h.undisturbed, rfl⟩
      · rename_i hmore
        split
        · exact ⟨batch, h, rfl⟩
        · rename_i tx rest hqueue
          have hless : batch.length < batchSize := lt_of_le_of_ne hlength hmore
          exact ⟨_, h.dequeue hless hqueue hnotes, rfl⟩
        · rename_i reason rest hqueue
          obtain ⟨tx, htx⟩ := h.books.items (.endReason reason) (by rw [hqueue]; exact List.mem_cons_self)
          cases htx
    | some tx =>
      have hin : node.transactionPool.contains tx.hash = true :=
        (h.books.pooled tx.hash).mpr (List.mem_map_of_mem (List.mem_append_left _ (by simp)))
      simp only [Miner.minerStep]
      rw [if_pos (show (node.transactionPool.get tx.hash).isSome = true from hin)]
      have hlength' : (batch ++ [tx]).length + (none : Option Transaction).toList.length ≤ batchSize := by
        simpa using hlength
      exact ⟨_, h.moved rfl (hnotes ▸ .waiting (batch ++ [tx]) none hlength') (List.append_nil _)
        (fun t ht => by simpa [held] using ht) h.undisturbed, rfl⟩
  | acquired batch hlength =>
    exact ⟨_, h.moved rfl (hnotes ▸ .mining _ hlength) rfl (fun _ ht => ht) h.undisturbed, rfl⟩
  | mining batch hlength =>
    simp only [Miner.minerStep]
    split
    · rename_i b hmined
      have htxs := miningFunction_transactions hmined
      have hfits := fits_of_mined hmined (hclock rfl) hlength
      exact ⟨b.transactions,
        h.moved rfl (hnotes ▸ .mined b hfits) htxs (fun t ht => by rwa [← htxs]) h.undisturbed, rfl⟩
    · exact ⟨_, h, rfl⟩
  | mined b hb =>
    exact ⟨_, h.moved rfl (hnotes ▸ .broadcasted b hb) rfl (fun _ ht => ht) h.undisturbed, rfl⟩
  | broadcasted b hb =>
    exact ⟨_, h.moved rfl (hnotes ▸ .listening b hb) rfl (fun _ ht => ht) h.undisturbed, rfl⟩
  | listening b hb =>
    exact ⟨_, h.moved rfl (hnotes ▸ .decided b hb) rfl (fun _ ht => ht) h.undisturbed, rfl⟩
  | decided b hb =>
    have hnotes' : (events ++ [QueuedEvent.blockMined b]).filter isNotification = [.blockMined b] := by
      rw [List.filter_append, hnotes]
      rfl
    refine ⟨b.transactions, h.moved rfl (hnotes' ▸ .handedOver b _ (.inl rfl) hb) rfl (fun _ ht => ht) ?_, ?_⟩
    · intro e he
      rcases List.mem_append.mp he with he | he
      · exact h.undisturbed e he
      · rw [List.mem_singleton.mp he]
        rfl
    · exact (List.filterMap_append).trans (List.append_nil _)
  | handedOver b phase hphase hb =>
    refine ⟨b.transactions, ?_⟩
    rcases hphase with rfl | rfl
    · exact ⟨h.moved rfl (hnotes ▸ .handedOver b _ (.inr rfl) hb) rfl (fun _ ht => ht) h.undisturbed, rfl⟩
    · exact ⟨h, rfl⟩
  | answered b phase hphase =>
    refine ⟨[], ?_⟩
    rcases hphase with rfl | rfl
    · exact ⟨h.moved rfl (hnotes ▸ .answered b _ (.inr rfl)) rfl (fun _ ht => ht) h.undisturbed, rfl⟩
    · exact ⟨h, rfl⟩
  | missed b phase hphase =>
    refine ⟨[], ?_⟩
    rcases hphase with rfl | rfl
    · exact ⟨h.moved rfl (hnotes ▸ .missed b _ (.inr rfl)) rfl (fun _ ht => ht) h.undisturbed, rfl⟩
    · exact ⟨h, rfl⟩

/-- Orders to send, which nobody here listens to. -/
def isOrder : QueuedEvent → Bool
  | .sendPeerMessage _ _ => true
  | _ => false

section Orders
variable {l : List QueuedEvent}

theorem notes_of_orders (h : ∀ e ∈ l, isOrder e = true) : l.filter isNotification = [] := by
  rw [List.filter_eq_nil_iff]
  intro e he
  cases e with
  | sendPeerMessage receiver message => simp [isNotification]
  | _ => exact nomatch h _ he

theorem awaiting_of_orders (h : ∀ e ∈ l, isOrder e = true) : awaiting l = [] := by
  unfold awaiting
  rw [List.filterMap_eq_nil_iff]
  intro e he
  cases e with
  | sendPeerMessage receiver message => rfl
  | _ => exact nomatch h _ he

theorem fromWallets_of_orders (h : ∀ e ∈ l, isOrder e = true) : ∀ e ∈ l, fromWallets e = true := by
  intro e he
  cases e with
  | sendPeerMessage receiver message => rfl
  | _ => exact nomatch h _ he

end Orders

/-- What a message from a wallet makes the node hand on. -/
theorem orders_of_received {sender : String} {m : NodeMessage} (n : Node)
    (h : fromWallets (.received sender m) = true) :
    ∀ e ∈ ((QueuedEvent.received sender m).effects n).filterMap Effect.queued, isOrder e = true := by
  cases m with
  | addBlock b => cases h
  | blockHeadersRequest header =>
    intro e he
    rw [List.mem_singleton.mp he]
    rfl
  | blockRequest header =>
    intro e he
    rw [List.mem_singleton.mp he]
    rfl
  | _ => exact fun e he => absurd he List.not_mem_nil

theorem orders_of_accepted {n : Node} {b : Block} (h : Accepts n b) :
    ∃ orders, ((QueuedEvent.blockMined b).effects n).filterMap Effect.queued = .minedBlockValidated :: orders ∧
      ∀ e ∈ orders, isOrder e = true := by
  unfold Accepts at h
  have heffects : (QueuedEvent.blockMined b).effects n = .minedBlockValidated ::
      .broadcast .observer (.addBlock b.verified) :: b.verified.transactions.flatMap fun tx =>
        [.send tx.from_ (.setTransactionStatus .verified tx.hash), .send tx.to_ (.addTransaction tx)] := by
    simp [QueuedEvent.effects, onBlockMined, h, Block.verified]
  rw [heffects]
  refine ⟨_, rfl, ?_⟩
  intro e he
  obtain ⟨effect, heffect, hqueued⟩ := List.mem_filterMap.mp he
  rcases List.mem_cons.mp heffect with rfl | heffect
  · cases hqueued
  · obtain ⟨tx, _, htx⟩ := List.mem_flatMap.mp heffect
    rcases List.mem_cons.mp htx with rfl | htx
    · cases hqueued
      rfl
    · rw [List.mem_singleton.mp htx] at hqueued
      cases hqueued
      rfl

/-- Where the miner stands once a message from a wallet was dispatched. -/
theorem Stage.received {last : Block} {phase : Phase} {notes : List QueuedEvent} (h : Stage last phase notes hand)
    (sender : String) {m : NodeMessage} (hm : fromWallets (.received sender m) = true) :
    Stage last (phase.hear (.received sender m)) notes hand ∧
      held (phase.hear (.received sender m)) = held phase := by
  by_cases hlistening : ∃ b header, phase = .listening b ∧ m = .blockAccepted header
  · obtain ⟨b, header, rfl, rfl⟩ := hlistening
    cases h with
    | listening _ hb => exact ⟨.decided b hb, rfl⟩
    | handedOver _ _ hphase hb => rcases hphase with he | he <;> cases he
    | answered _ _ hphase => rcases hphase with he | he <;> cases he
    | missed _ _ hphase => rcases hphase with he | he <;> cases he
  · have hsame : phase.hear (.received sender m) = phase := by
      cases phase with
      | listening b =>
        cases m with
        | blockAccepted header => exact absurd ⟨b, header, rfl, rfl⟩ hlistening
        | blockRejected reason => cases hm
        | _ => rfl
      | _ => rfl
    rw [hsame]
    exact ⟨h, rfl⟩

theorem awaiting_append (l l' : List QueuedEvent) : awaiting (l ++ l') = awaiting l ++ awaiting l' :=
  List.filterMap_append

theorem awaiting_cons (e : QueuedEvent) (rest : List QueuedEvent) :
    awaiting (e :: rest) = awaiting [e] ++ awaiting rest :=
  awaiting_append [e] rest

/-- A message from a wallet puts at most a vote into the books. -/
theorem Books.received (h : Books D s hand arrived) {sender : String} {m : NodeMessage}
    (hm : fromWallets (.received sender m) = true)
    (hnode : t.node = (((QueuedEvent.received sender m).event? true).map (handle s.node)).getD s.node) :
    Books D t hand (arrived ++ awaiting [.received sender m]) ∧ t.node.blockchain = s.node.blockchain ∧
      t.node.spentTransactionsStore = s.node.spentTransactionsStore := by
  cases m with
  | addBlock b => cases hm
  | addTransaction tx =>
    refine ⟨h.pools tx hnode, ?_⟩
    rw [show t.node = onAddTransaction s.node tx true from hnode, onAddTransaction_eq]
    split <;> exact ⟨rfl, rfl⟩
  | _ =>
    have hsame : t.node = s.node := hnode
    rw [hsame]
    refine ⟨?_, rfl, rfl⟩
    rw [show awaiting _ = [] from rfl, List.append_nil]
    exact h.of_node hsame

section Dispatch
variable {node : Node} {rest : List QueuedEvent} {phase : Phase}

theorem Sole.after_received {sender : String} {m : NodeMessage}
    (h : Sole D ⟨node, .received sender m :: rest, phase⟩ hand arrived)
    (hnode : t.node = (((QueuedEvent.received sender m).event? true).map (handle node)).getD node)
    (hphase : t.phase = phase.hear (.received sender m))
    (hevents : t.events = rest ++ ((QueuedEvent.received sender m).effects node).filterMap Effect.queued) :
    Sole D t hand (arrived ++ awaiting [.received sender m]) ∧ awaiting t.events = awaiting rest := by
  have hwallets : fromWallets (.received sender m) = true := h.undisturbed _ List.mem_cons_self
  have horders := orders_of_received node hwallets
  have hstage : Stage node.blockchain.last phase (rest.filter isNotification) hand := h.stage
  obtain ⟨hstage, hheld⟩ := hstage.received sender hwallets
  obtain ⟨hbooks, hchain, hspent⟩ := h.books.received hwallets hnode
  refine ⟨⟨?_, hbooks, ?_, ?_⟩, ?_⟩
  · rw [hchain, hphase, hevents, List.filter_append, notes_of_orders horders, List.append_nil]
    exact hstage
  · intro tx htx
    rw [hphase, hheld] at htx
    rw [hspent]
    exact h.settled tx htx
  · rw [hevents]
    exact List.forall_mem_append.mpr ⟨(List.forall_mem_cons.mp h.undisturbed).2, fromWallets_of_orders horders⟩
  · rw [hevents, awaiting_append, awaiting_of_orders horders, List.append_nil]

/-- The block of the miner goes on the chain, and the miner is told. -/
theorem Sole.after_blockMined {b : Block} (h : Sole D ⟨node, .blockMined b :: rest, phase⟩ hand arrived)
    (hnode : t.node = (onBlockMined node b).1) (hphase : t.phase = phase)
    (hevents : t.events = rest ++ ((QueuedEvent.blockMined b).effects node).filterMap Effect.queued) :
    Sole D t [] arrived ∧ awaiting t.events = awaiting rest := by
  have hstage : Stage node.blockchain.last phase (.blockMined b :: rest.filter isNotification) hand := h.stage
  generalize hnotes : rest.filter isNotification = notes at hstage
  cases hstage with
  | handedOver _ _ hholds hb =>
    have haccepts := h.books.accepts hb
    obtain ⟨hbooks, hspent⟩ := h.books.adds hb (hnode.trans ((onBlockMined_fst node b).trans (if_pos haccepts)))
    obtain ⟨orders, heffects, horders⟩ := orders_of_accepted haccepts
    rw [heffects] at hevents
    refine ⟨⟨?_, hbooks, ?_, ?_⟩, ?_⟩
    · have hnotes' : t.events.filter isNotification = [.minedBlockValidated] := by
        rw [hevents, List.filter_append, hnotes]
        exact congrArg (.minedBlockValidated :: ·) (notes_of_orders horders)
      rw [hphase, hnotes']
      exact .answered b phase hholds
    · have hheld : held phase = b.transactions := by rcases hholds with rfl | rfl <;> rfl
      intro tx htx
      rw [hphase, hheld] at htx
      exact .inr (hspent tx htx)
    · rw [hevents]
      exact List.forall_mem_append.mpr
        ⟨(List.forall_mem_cons.mp h.undisturbed).2, List.forall_mem_cons.mpr ⟨rfl, fromWallets_of_orders horders⟩⟩
    · rw [hevents, awaiting_append, awaiting_cons _ orders, awaiting_of_orders horders]
      exact List.append_nil _

/-- The miner goes on if it listens, and misses the answer if it does not yet. -/
theorem Sole.after_minedBlockValidated (h : Sole D ⟨node, .minedBlockValidated :: rest, phase⟩ hand arrived)
    (hnode : t.node = node) (hphase : t.phase = phase.hear .minedBlockValidated) (hevents : t.events = rest) :
    Sole D t [] arrived := by
  have hrest : ∀ e ∈ t.events, fromWallets e = true := hevents ▸ (List.forall_mem_cons.mp h.undisturbed).2
  have hstage : Stage node.blockchain.last phase (.minedBlockValidated :: rest.filter isNotification) hand := h.stage
  generalize hnotes : rest.filter isNotification = notes at hstage
  cases hstage with
  | answered b _ hholds =>
    rcases hholds with rfl | rfl
    · refine h.moved hnode ?_ rfl ?_ hrest
      · rw [hevents, hnotes, hphase]
        exact .missed b _ (.inl rfl)
      · rw [hphase]
        exact fun _ ht => ht
    · refine h.moved hnode ?_ rfl ?_ hrest
      · rw [hevents, hnotes, hphase]
        exact .waiting [] none (by decide)
      · rw [hphase]
        exact fun _ ht => absurd ht List.not_mem_nil

end Dispatch

/-- After one event is dispatched. -/
theorem Sole.processOne (h : Sole D s hand arrived) :
    ∃ hand' arrived', Sole D (processOne s true).1 hand' arrived' ∧
      arrived' ++ awaiting (processOne s true).1.events = arrived ++ awaiting s.events := by
  obtain ⟨node, events, phase⟩ := s
  cases events with
  | nil => exact ⟨hand, arrived, h, rfl⟩
  | cons e rest =>
    have hnode : (Miner.processOne ⟨node, e :: rest, phase⟩ true).1.node = _ :=
      dispatch_node ⟨node, rest, phase⟩ true e
    have hphase : (Miner.processOne ⟨node, e :: rest, phase⟩ true).1.phase = _ :=
      dispatch_phase ⟨node, rest, phase⟩ true e
    have hevents : (Miner.processOne ⟨node, e :: rest, phase⟩ true).1.events = _ :=
      dispatch_events ⟨node, rest, phase⟩ true e
    generalize (Miner.processOne ⟨node, e :: rest, phase⟩ true).1 = t at hnode hphase hevents ⊢
    dsimp only at hnode hphase hevents ⊢
    rw [awaiting_cons]
    cases e with
    | received sender m =>
      obtain ⟨hsole, hawaiting⟩ := h.after_received hnode hphase hevents
      exact ⟨hand, _, hsole, by rw [hawaiting, List.append_assoc]⟩
    | sendPeerMessage receiver m =>
      have hsame : phase.hear (.sendPeerMessage receiver m) = phase := by cases phase <;> rfl
      have hrest : t.events = rest := hevents.trans (List.append_nil rest)
      rw [hsame] at hphase
      refine ⟨hand, arrived, h.moved hnode ?_ rfl ?_ ?_, by rw [hrest]; rfl⟩
      · rw [hphase, hrest]
        exact h.stage
      · rw [hphase]
        exact fun _ ht => ht
      · rw [hrest]
        exact (List.forall_mem_cons.mp h.undisturbed).2
    | blockMined b =>
      have hsame : phase.hear (.blockMined b) = phase := by cases phase <;> rfl
      obtain ⟨hsole, hawaiting⟩ := h.after_blockMined hnode (hphase.trans hsame) hevents
      exact ⟨[], arrived, hsole, congrArg (arrived ++ ·) hawaiting⟩
    | minedBlockValidated =>
      have hrest : t.events = rest := hevents.trans (List.append_nil rest)
      exact ⟨[], arrived, h.after_minedBlockValidated hnode hphase hrest, by rw [hrest]; rfl⟩

/-! ## Runs -/

theorem sole_boot (D : Digest) : Sole D (boot D) [] [] := by
  have hdata : (boot D).node.blockchain.data = [createGenesisBlock D] := by
    have hstored := stored_fromPath_empty D
    have hnodup := (boot D).node.blockchain.data_nodup
    refine (List.perm_singleton.mp ((List.perm_ext_iff_of_nodup hnodup (List.nodup_singleton _)).mpr ?_))
    intro b
    rw [List.mem_singleton]
    exact Set.ext_iff.mp hstored b
  refine ⟨.waiting [] none (by decide), ⟨?_, ?_, ?_, ?_, ?_, ?_, ?_⟩, ?_, ?_⟩
  · rw [hdata]
    exact .singleton _
  · rw [hdata]
    rfl
  · intro b hb hne
    rw [hdata] at hb
    exact absurd (List.mem_singleton.mp hb) hne
  · unfold chained
    rw [hdata]
    rfl
  · intro hash
    simp [boot, start, queued]
  · intro hash
    unfold chained
    rw [hdata]
    simp [boot, start]
  · exact fun _ hitem => absurd hitem List.not_mem_nil
  · exact fun _ htx => absurd htx List.not_mem_nil
  · exact fun _ he => absurd he List.not_mem_nil

theorem Sole.step (h : Sole D s hand arrived) (id : String) {a : Action} (ha : Undisturbed s a) :
    ∃ hand' arrived', Sole D (next D id s a) hand' arrived' ∧
      arrived' ++ awaiting (next D id s a).events = arrived ++ awaiting s.events ++ received [a] := by
  cases a with
  | receive sender m =>
    refine ⟨hand, arrived, h.moved rfl ?_ rfl (fun _ ht => ht) ?_, ?_⟩
    · show Stage _ _ ((s.events ++ [QueuedEvent.received sender m]).filter isNotification) _
      rw [List.filter_append]
      exact (List.append_nil _).symm ▸ h.stage
    · exact List.forall_mem_append.mpr ⟨h.undisturbed, List.forall_mem_singleton.mpr ha⟩
    · rw [List.append_assoc]
      refine congrArg (arrived ++ ·) ((awaiting_append _ _).trans ?_)
      cases m <;> rfl
  | processOne room =>
    obtain rfl : room = true := ha
    obtain ⟨hand', arrived', hsole, hvotes⟩ := h.processOne
    exact ⟨hand', arrived', hsole, hvotes.trans (List.append_nil _).symm⟩
  | miner clock fuel =>
    obtain ⟨hand', hsole, hawaiting⟩ := h.minerStep id fuel ha
    refine ⟨hand', arrived, hsole, ?_⟩
    rw [show received [.miner clock fuel] = [] from rfl, List.append_nil]
    exact congrArg (arrived ++ ·) hawaiting

theorem received_cons (a : Action) (as : List Action) : received (a :: as) = received [a] ++ received as :=
  List.filterMap_append (l := [a])

theorem Sole.run (id : String) :
    ∀ (as : List Action) {s : FullNode} {hand arrived : List Transaction}, Sole D s hand arrived →
      Along (next D id) Undisturbed s as →
      ∃ hand' arrived', Sole D (run (next D id) s as) hand' arrived' ∧
        arrived' ++ awaiting (run (next D id) s as).events = arrived ++ awaiting s.events ++ received as
  | [], _, hand, arrived, h, _ => ⟨hand, arrived, h, (List.append_nil _).symm⟩
  | a :: as, _, _, _, h, hok => by
    obtain ⟨hand₁, arrived₁, h₁, hvotes₁⟩ := h.step id hok.1
    obtain ⟨hand₂, arrived₂, h₂, hvotes₂⟩ := Sole.run id as h₁ hok.2
    refine ⟨hand₂, arrived₂, h₂, hvotes₂.trans ?_⟩
    rw [hvotes₁, received_cons a as, ← List.append_assoc]

/-- What the miner has in hand, read off the state. -/
theorem Sole.inHand_eq (h : Sole D s hand arrived) : inHand s = hand := by
  have hpooled : ∀ tx ∈ hand, s.node.transactionPool.contains tx.hash = true := by
    intro tx htx
    exact (h.books.pooled tx.hash).mpr (List.mem_map_of_mem (List.mem_append_left _ htx))
  have hcases : hand = held s.phase ∨ hand = [] := by
    have hstage := h.stage
    generalize s.phase = phase at hstage ⊢
    generalize s.events.filter isNotification = notes at hstage
    cases hstage with
    | handedOver b phase hphase hb => rcases hphase with rfl | rfl <;> exact .inl rfl
    | answered b phase hphase => exact .inr rfl
    | missed b phase hphase => exact .inr rfl
    | _ => exact .inl rfl
  unfold inHand
  rcases hcases with rfl | rfl
  · exact List.filter_eq_self.mpr hpooled
  · rw [List.filter_eq_nil_iff]
    intro tx htx hpool
    rcases h.settled tx htx with hin | hspent
    · cases hin
    · have hpending := (h.books.pooled tx.hash).mp hpool
      exact (List.nodup_append.mp h.books.nodup).2.2 _ ((h.books.spent tx.hash).mp hspent) _ hpending rfl

theorem Stage.length_le {last : Block} {phase : Phase} {notes : List QueuedEvent}
    (h : Stage last phase notes hand) : hand.length ≤ batchSize := by
  cases h with
  | waiting batch item hlength => rwa [List.length_append]
  | acquired batch hlength => exact hlength.le
  | mining batch hlength => exact hlength.le
  | mined b hb => exact hb.batch.le
  | broadcasted b hb => exact hb.batch.le
  | listening b hb => exact hb.batch.le
  | decided b hb => exact hb.batch.le
  | handedOver b phase hphase hb => exact hb.batch.le
  | answered b phase hphase => exact Nat.zero_le _
  | missed b phase hphase => exact Nat.zero_le _

/-- **A full node by itself keeps every vote, once and in order.** Whatever wallets
send it, how often, and however the miner and the event loop take turns: of the votes
that arrived, those the event loop has come to are, each hash once and in the order of
its first arrival, on the chain, then in the hands of the miner, then in the queue. The
chain goes back to the genesis block, newest block first and five votes to a block, and
the miner has no more than five in hand. -/
theorem votes_chained_in_order (D : Digest) (id : String) (as : List Action)
    (has : Along (next D id) Undisturbed (boot D) as) :
    let s := run (next D id) (boot D) as
    ∃ arrived, arrived ++ awaiting s.events = received as ∧
      chained s.node.blockchain ++ allVerified (inHand s ++ queued s) = allVerified (firsts arrived) ∧
      s.node.blockchain.data.IsChain Follows ∧
      s.node.blockchain.data.getLast? = some (createGenesisBlock D) ∧
      (∀ b ∈ s.node.blockchain.data, b ≠ createGenesisBlock D → b.transactions.length = batchSize) ∧
      (inHand s).length ≤ batchSize := by
  intro s
  obtain ⟨hand, arrived, h, hvotes⟩ := (sole_boot D).run id as has
  have hhand : inHand s = hand := h.inHand_eq
  refine ⟨arrived, hvotes, ?_, h.books.chain, h.books.first, h.books.batches, ?_⟩
  · rw [hhand]
    exact h.books.votes
  · rw [hhand]
    exact h.stage.length_le

/-- Five votes, the first of them sent twice, are mined in a block and a sixth is not. -/
def sixVotes : List Action :=
  (votes.head?.toList ++ votes ++ votes.head?.toList.map fun tx : Transaction => { tx with hash := "sixth" }).map
      (fun tx => .receive "wallet" (.addTransaction tx)) ++
    List.replicate 7 (.processOne true) ++ List.replicate 12 (.miner 0 0) ++
    [.miner 1670000027667 1, .miner 0 0, .miner 0 0, .miner 0 0, .miner 0 0, .miner 0 0, .processOne true]

theorem votes_chained_in_order_sixVotes :
    ∃ arrived,
      arrived ++ awaiting (run (next votesDigest "miner") (boot votesDigest) sixVotes).events = received sixVotes ∧
      chained (run (next votesDigest "miner") (boot votesDigest) sixVotes).node.blockchain ++
        allVerified (inHand (run (next votesDigest "miner") (boot votesDigest) sixVotes) ++
          queued (run (next votesDigest "miner") (boot votesDigest) sixVotes)) = allVerified (firsts arrived) := by
  obtain ⟨arrived, harrived, hvotes, -⟩ :=
    votes_chained_in_order votesDigest "miner" sixVotes (by decide +kernel)
  exact ⟨arrived, harrived, hvotes⟩

end Krapi.SoleMiner
