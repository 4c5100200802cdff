import Krapi.Conservation
import Krapi.Messages

/-! # The two vote counts a node answers with

Asked how many transactions went to an identity, a node counts them in pool and
spent store; asked how many it sent, it counts in the pool alone. A block moves
transactions from the first to the second, so over a run the first count never
falls, and the second falls exactly when a block takes a pooled transaction of
that identity. -/
namespace Krapi.VoteCounts
open Krapi.BlockchainModels Krapi.DBInterface Krapi.ChainStore Krapi.Validator Krapi.Pool
open Krapi.Handlers Krapi.Conservation Krapi.Messages Krapi.Lib.Run

/-! ## The listeners -/

/-- The loop of both listeners: `counter` goes up for each transaction with
`identity` at the one end. It is an `int`, which the stores would have to overflow. -/
def countUp (end_ : Transaction → String) (identity : String) (counter : ℕ) (txs : List Transaction) : ℕ :=
  txs.foldl (fun counter tx => if end_ tx = identity then counter + 1 else counter) counter

/-- What a listener enqueues in answer to `request`; the clock is read for both messages. -/
def respond (type : PeerMessageType) (request : PeerMessage String) (counter : ℕ) (made queued : UInt64) :
    InternalMessage (PeerMessage ℕ) where
  type := .sendPeerMessage
  content :=
    { type := type
      senderIdentity := request.receiverIdentity
      receiverIdentity := request.senderIdentity
      tag := request.tag
      content := counter
      timestamp := made }
  timestamp := queued

def onTransactionsInRequest (n : Node) (request : PeerMessage String) (made queued : UInt64) :
    InternalMessage (PeerMessage ℕ) :=
  let identity := request.content
  let counter := countUp Transaction.to_ identity 0 n.transactionPool.data
  let counter := countUp Transaction.to_ identity counter n.spentTransactionsStore.data
  respond .transactionsInResponse request counter made queued

/-- This one does not go through the spent store. -/
def onTransactionsOutRequest (n : Node) (request : PeerMessage String) (made queued : UInt64) :
    InternalMessage (PeerMessage ℕ) :=
  let identity := request.content
  let counter := countUp Transaction.from_ identity 0 n.transactionPool.data
  respond .transactionsOutResponse request counter made queued

/-- The number in an answer. -/
def number (answer : InternalMessage (PeerMessage ℕ)) : ℕ := answer.content.content

theorem countUp_eq (end_ : Transaction → String) (identity : String) (txs : List Transaction) (counter : ℕ) :
    countUp end_ identity counter txs = counter + txs.countP fun tx => end_ tx = identity := by
  induction txs generalizing counter with
  | nil => rfl
  | cons tx rest ih =>
    have hstep : countUp end_ identity counter (tx :: rest) =
        countUp end_ identity (if end_ tx = identity then counter + 1 else counter) rest := rfl
    rw [hstep, ih, List.countP_cons]
    by_cases h : end_ tx = identity
    · simp only [h, if_true, decide_true]
      omega
    · simp [h]

theorem number_in (n : Node) (request : PeerMessage String) (made queued : UInt64) :
    number (onTransactionsInRequest n request made queued) =
      n.transactionPool.data.countP (fun tx => tx.to_ = request.content) +
        n.spentTransactionsStore.data.countP fun tx => tx.to_ = request.content := by
  show countUp Transaction.to_ request.content _ _ = _
  rw [countUp_eq, countUp_eq, Nat.zero_add]

theorem number_out (n : Node) (request : PeerMessage String) (made queued : UInt64) :
    number (onTransactionsOutRequest n request made queued) =
      n.transactionPool.data.countP fun tx => tx.from_ = request.content := by
  show countUp Transaction.from_ request.content _ _ = _
  rw [countUp_eq, Nat.zero_add]

/-! ## Transactions that agree -/

/-- The transactions that an event brings. -/
def brings : Event → List Transaction
  | .addTransaction tx _ => [tx]
  | .addBlock _ block => block.transactions
  | .blockMined block => block.transactions

/-- Two transactions of the list with one hash have all in common but their status. -/
def Agree (txs : List Transaction) : Prop :=
  ∀ tx ∈ txs, ∀ other ∈ txs, tx.hash = other.hash → tx.setStatus .pending = other.setStatus .pending

instance (txs : List Transaction) : Decidable (Agree txs) :=
  inferInstanceAs (Decidable (∀ tx ∈ txs, ∀ other ∈ txs, _ → _))

theorem Agree.to_eq {txs : List Transaction} (h : Agree txs) {tx other : Transaction} (htx : tx ∈ txs)
    (hother : other ∈ txs) (hhash : tx.hash = other.hash) : tx.to_ = other.to_ := by
  have hsame := congrArg Transaction.to_ (h tx htx other hother hhash)
  exact hsame

theorem mem_brings {e : Event} {b : Block} (hb : e.block? = some b) {tx : Transaction}
    (htx : tx ∈ b.transactions) : tx ∈ brings e := by
  cases e with
  | addTransaction u room => cases hb
  | addBlock sender c => cases hb; exact htx
  | blockMined c => cases hb; exact htx

/-! ## Pool and spent store together -/

section Spend
variable (p : Transaction → Bool)

/-- How many transactions satisfy `p`, pooled and spent. -/
def inBoth (s : TransactionPool × SpentTransactionsStore) : ℕ := s.1.data.countP p + s.2.data.countP p

/-- No hash is in both, and a pooled transaction counts as one of `txs` with its hash does. -/
structure Moves (txs : List Transaction) (s : TransactionPool × SpentTransactionsStore) : Prop where
  apart : ∀ h, s.1.contains h = true → s.2.contains h = false
  agree : ∀ pooled ∈ s.1.data, ∀ tx ∈ txs, pooled.hash = tx.hash → p pooled = p tx

variable {p}

theorem Moves.spend {tx : Transaction} {rest : List Transaction}
    {s : TransactionPool × SpentTransactionsStore} (h : Moves p (tx :: rest) s) :
    Moves p rest (spendTransaction s tx) ∧ inBoth p (spendTransaction s tx) = inBoth p s := by
  cases hget : s.1.get tx.hash with
  | none =>
    have hout : s.1.contains tx.hash = false := by simp [DBInternface.contains, hget]
    rw [spendTransaction_of_not_contains hout]
    exact ⟨⟨h.apart, fun pooled hp u hu => h.agree pooled hp u (List.mem_cons_of_mem _ hu)⟩, rfl⟩
  | some pooled =>
    have hin : s.1.contains tx.hash = true := by simp [DBInternface.contains, hget]
    have hnew : s.2.contains tx.hash = false := h.apart _ hin
    have hhash : pooled.hash = tx.hash := DBInternface.tag_of_get hget
    have hcount : p pooled = p tx := h.agree pooled (DBInternface.mem_data_of_get hget) tx
      List.mem_cons_self hhash
    rw [spendTransaction_eq, hin, if_pos rfl]
    refine ⟨⟨?_, ?_⟩, ?_⟩
    · intro k hk
      obtain ⟨hpool, hne⟩ : s.1.contains k = true ∧ tx.hash ≠ k := by
        simpa [DBInternface.contains_remove, tag, Transaction.tag] using hk
      rw [DBInternface.contains_put, h.apart k hpool, Bool.false_or]
      exact beq_false_of_ne hne
    · intro u hu v hv
      exact h.agree u (DBInternface.mem_remove.mp hu).1 v (List.mem_cons_of_mem _ hv)
    · have hpool := DBInternface.countP_remove p (s := s.1.toDBInternface) (v := tx) hget
      have hspent := DBInternface.countP_put p (s := s.2) (v := tx) hnew
      show (s.1.toDBInternface.remove tx).2.data.countP p + (s.2.put tx).2.data.countP p = inBoth p s
      rw [hspent, inBoth, hpool, hcount]
      omega

theorem Moves.spend_all {txs : List Transaction} {s : TransactionPool × SpentTransactionsStore}
    (h : Moves p txs s) : inBoth p (txs.foldl spendTransaction s) = inBoth p s := by
  induction txs generalizing s with
  | nil => rfl
  | cons tx rest ih =>
    obtain ⟨hrest, hsame⟩ := h.spend
    exact (ih hrest).trans hsame

end Spend

/-! ## What a run keeps -/

/-- Pool and spent store are apart, and what is pooled is one of `txs`. -/
structure PooledFrom (txs : List Transaction) (n : Node) : Prop where
  conserved : ∃ hs, Conserved hs n
  pooled : ∀ tx ∈ n.transactionPool.data, tx ∈ txs

theorem pooledFrom_start (D : Digest) (txs : List Transaction) : PooledFrom txs (start D) where
  conserved := ⟨[], conserved_start D⟩
  pooled := fun tx htx => absurd htx (by simp [start])

theorem PooledFrom.handle {txs : List Transaction} {n : Node} {e : Event} (hsub : brings e ⊆ txs)
    (h : PooledFrom txs n) : PooledFrom txs (handle n e) where
  conserved := by
    obtain ⟨hs, hc⟩ := h.conserved
    exact ⟨_, conserved_handle e hc⟩
  pooled := by
    intro tx htx
    rcases handle_cases n e with he | ⟨u, room, rfl, _, _, he⟩ | ⟨b, _, _, he⟩
    · rw [he] at htx
      exact h.pooled tx htx
    · rw [he] at htx
      dsimp only at htx
      rw [TransactionPool.add_db, DBInternface.mem_put] at htx
      rcases htx with htx | ⟨rfl, _⟩
      · exact h.pooled tx htx
      · exact hsub (List.mem_singleton_self _)
    · rw [he, DBInternface.mem_data, addValidated_pool_get] at htx
      split at htx
      · cases htx
      · exact h.pooled tx (DBInternface.mem_data.mpr htx)

/-! ## The two counts -/

section Counts
variable (request : PeerMessage String) (made queued : UInt64)

theorem countP_add_le (p : Transaction → Bool) (pool : TransactionPool) {tx : Transaction} (room : Bool)
    (hnew : pool.contains tx.hash = false) :
    pool.data.countP p ≤ (pool.add tx room).2.data.countP p := by
  rw [TransactionPool.add_db, DBInternface.countP_put p (v := tx) hnew]
  exact Nat.le_add_right _ _

/-- No event lowers the count over pool and spent store. -/
theorem in_le_handle {txs : List Transaction} {n : Node} {e : Event} (hagree : Agree txs)
    (hsub : brings e ⊆ txs) (h : PooledFrom txs n) :
    number (onTransactionsInRequest n request made queued) ≤
      number (onTransactionsInRequest (handle n e) request made queued) := by
  rw [number_in, number_in]
  rcases handle_cases n e with he | ⟨tx, room, _, _, hnew, he⟩ | ⟨b, hb, _, he⟩
  · rw [he]
  · rw [he]
    exact Nat.add_le_add_right (countP_add_le _ _ room hnew) _
  · obtain ⟨hs, hc⟩ := h.conserved
    have hmoves : Moves (fun tx => decide (tx.to_ = request.content)) b.verified.transactions
        (n.transactionPool, n.spentTransactionsStore) := by
      refine ⟨hc.apart, ?_⟩
      intro pooled hpooled tx htx hhash
      obtain ⟨u, hu, rfl⟩ := List.mem_map.mp htx
      have hto : pooled.to_ = u.to_ :=
        hagree.to_eq (h.pooled pooled hpooled) (hsub (mem_brings hb hu)) hhash
      show decide (pooled.to_ = request.content) = decide (u.to_ = request.content)
      rw [hto]
    rw [he]
    exact hmoves.spend_all.ge

/-- Every block that is accepted leaves the pooled transactions of `identity` alone. -/
def Spares (identity : String) (n : Node) (e : Event) : Prop :=
  ∀ b ∈ e.block?, Accepts n b → ∀ tx ∈ n.transactionPool.data, tx.from_ = identity → tx.hash ∉ b.hashes

instance (identity : String) (n : Node) (e : Event) : Decidable (Spares identity n e) :=
  inferInstanceAs (Decidable (∀ b ∈ e.block?, _))

theorem pool_addValidated_perm (n : Node) (b : Block) :
    (addValidated n b).transactionPool.data.Perm
      (n.transactionPool.data.filter fun tx => tx.hash ∉ b.hashes) := by
  refine (List.perm_ext_iff_of_nodup (DBInternface.data_nodup _)
    ((DBInternface.data_nodup _).filter _)).mpr ?_
  intro tx
  rw [DBInternface.mem_data, addValidated_pool_get, List.mem_filter, DBInternface.mem_data]
  show (if tx.hash ∈ b.hashes then none else _) = _ ↔ _
  by_cases h : tx.hash ∈ b.hashes <;> simp [h]

/-- The count over the pool stays up exactly where the pool keeps all it counts. -/
theorem countP_addValidated_le_iff (p : Transaction → Bool) (n : Node) (b : Block) :
    n.transactionPool.data.countP p ≤ (addValidated n b).transactionPool.data.countP p ↔
      ∀ tx ∈ n.transactionPool.data, p tx = true → tx.hash ∉ b.hashes := by
  have hkept : (addValidated n b).transactionPool.data.countP p =
      (n.transactionPool.data.filter p).countP fun tx => tx.hash ∉ b.hashes := by
    rw [(pool_addValidated_perm n b).countP_eq, List.countP_filter, List.countP_filter]
    simp only [Bool.and_comm (p _)]
  rw [hkept, List.countP_eq_length_filter, List.countP_le_length.ge_iff_eq, List.countP_eq_length]
  simp

/-- An event leaves the count over the pool up exactly if it spares what is counted. -/
theorem out_le_handle_iff (n : Node) (e : Event) :
    number (onTransactionsOutRequest n request made queued) ≤
      number (onTransactionsOutRequest (handle n e) request made queued) ↔ Spares request.content n e := by
  rw [number_out, number_out]
  cases hb : e.block? with
  | none =>
    refine iff_of_true ?_ fun b hb' => by rw [hb] at hb'; cases hb'
    rcases handle_cases n e with he | ⟨tx, room, _, _, hnew, he⟩ | ⟨b, hb', _, _⟩
    · rw [he]
    · rw [he]
      exact countP_add_le _ _ room hnew
    · rw [hb] at hb'; cases hb'
  | some b =>
    rw [handle_block n hb]
    by_cases hacc : Accepts n b
    · rw [if_pos hacc, countP_addValidated_le_iff, Block.verified_hashes]
      constructor
      · intro h c hc _ tx htx hfrom
        cases hb.symm.trans hc
        exact h tx htx (decide_eq_true hfrom)
      · intro h tx htx hfrom
        exact h b hb hacc tx htx (of_decide_eq_true hfrom)
    · rw [if_neg hacc]
      refine iff_of_true le_rfl ?_
      intro c hc hacc'
      cases hb.symm.trans hc
      exact absurd hacc' hacc

/-- **The count of votes received never falls, the count of votes cast does.** In a
run from a first start in which transactions with one hash agree, both answers
for an identity never decrease exactly when no block that is accepted lists a
transaction of that identity that is pooled then. -/
theorem counts_never_decrease_iff (D : Digest) (es : List Event) (hagree : Agree (es.flatMap brings)) :
    (∀ pre mid, pre ++ mid <+: es →
      number (onTransactionsInRequest (run handle (start D) pre) request made queued) ≤
        number (onTransactionsInRequest (run handle (start D) (pre ++ mid)) request made queued) ∧
      number (onTransactionsOutRequest (run handle (start D) pre) request made queued) ≤
        number (onTransactionsOutRequest (run handle (start D) (pre ++ mid)) request made queued)) ↔
      Along handle (Spares request.content) (start D) es := by
  let counts (n : Node) : ℕ × ℕ :=
    (number (onTransactionsInRequest n request made queued),
      number (onTransactionsOutRequest n request made queued))
  have hsub : ∀ e ∈ es, brings e ⊆ es.flatMap brings :=
    fun e he tx htx => List.mem_flatMap.mpr ⟨e, he, htx⟩
  have hsteps : Along handle (fun n e => counts n ≤ counts (handle n e)) (start D) es ↔
      Along handle (Spares request.content) (start D) es := by
    refine along_congr (I := PooledFrom (es.flatMap brings)) (p := fun e => brings e ⊆ es.flatMap brings)
      (fun n e hsub h => h.handle hsub) ?_ es hsub (pooledFrom_start D _)
    intro n e hsub h
    have hin := in_le_handle request made queued hagree hsub h
    rw [← out_le_handle_iff request made queued n e]
    exact ⟨fun hle => hle.2, fun hout => ⟨hin, hout⟩⟩
  rw [← hsteps, ← mono_iff_along counts]
  exact Iff.rfl

end Counts

/-- The voter asks for the votes it has cast, or received. -/
def sampleRequest (type : PeerMessageType) : PeerMessage String where
  type := type
  senderIdentity := "light"
  receiverIdentity := "full"
  tag := "00"
  content := "voter"
  timestamp := 1670000000000

/-- Once the block is accepted, the vote it lists is not counted any more. -/
theorem cast_vote_uncounted :
    ¬ ∀ es : List Event, Agree (es.flatMap brings) → ∀ request made queued pre mid, pre ++ mid <+: es →
      number (onTransactionsInRequest (run handle (start sampleDigest) pre) request made queued) ≤
        number (onTransactionsInRequest (run handle (start sampleDigest) (pre ++ mid)) request made queued) ∧
      number (onTransactionsOutRequest (run handle (start sampleDigest) pre) request made queued) ≤
        number (onTransactionsOutRequest (run handle (start sampleDigest) (pre ++ mid)) request made queued) := by
  intro h
  have hout := (h pooledRun (by decide) (sampleRequest .transactionsOutRequest) 0 0 (pooledRun.take 1)
    (pooledRun.drop 1) (by decide)).2
  exact absurd hout (by decide)

/-- Two identities vote, and a block takes the vote of the second. -/
def sparedRun : List Event :=
  [.addTransaction (sampleVote "AA") true, .addTransaction { sampleVote "BB" with from_ := "second" } true,
    .addBlock "peer" (sampleBlock "0000B1" genesisHash 1670000001000
      [{ sampleVote "BB" with from_ := "second" }])]

theorem counts_never_decrease_iff_sparedRun :
    Agree (sparedRun.flatMap brings) ∧ ∀ pre mid, pre ++ mid <+: sparedRun →
      number (onTransactionsOutRequest (run handle (start sampleDigest) pre)
          (sampleRequest .transactionsOutRequest) 0 0) ≤
        number (onTransactionsOutRequest (run handle (start sampleDigest) (pre ++ mid))
          (sampleRequest .transactionsOutRequest) 0 0) := by
  refine ⟨by decide, fun pre mid hpre => ?_⟩
  exact ((counts_never_decrease_iff (sampleRequest .transactionsOutRequest) 0 0 sampleDigest sparedRun
    (by decide)).mpr (by decide) pre mid hpre).2

end Krapi.VoteCounts
