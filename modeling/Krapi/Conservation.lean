import Krapi.ChainInvariant

/-! # Pool, spent store and chain over whole runs

Admission, acceptance of a peer's block and acceptance of a mined block each
touch the pool and the spent store through conditional writes. Over every run
they conserve hashes: what was pooled is in exactly one of the two. The chain is
less tightly bound to them. A validated block under a taken hash is not written
but spends its transactions, and a block spends only what happened to be
pooled, so a spent hash may be on no block and a hash on the chain may be
unspent. Both are exact: the runs free of such a block have the stronger laws. -/
namespace Krapi.Conservation
open Krapi.BlockchainModels Krapi.DBInterface Krapi.ChainStore Krapi.Validator Krapi.Pool
open Krapi.Handlers Krapi.ChainInvariant Krapi.Lib.Run

/-! ## Conservation of hashes -/

/-- The hash that an event adds to the pool. -/
def admits (n : Node) : Event → List String
  | .addTransaction tx room =>
    if validateTransaction n.spentTransactionsStore tx = .success ∧
        (n.transactionPool.add tx room).1 = true then [tx.hash] else []
  | _ => []

/-- The hashes that a run adds to the pool, in order. -/
def added : Node → List Event → List String
  | _, [] => []
  | n, e :: es => admits n e ++ added (handle n e) es

/-- `hs` are the hashes in pool and spent store, each in one of the two. -/
structure Conserved (hs : List String) (n : Node) : Prop where
  all : ∀ h, h ∈ hs ↔
    n.transactionPool.contains h = true ∨ n.spentTransactionsStore.contains h = true
  apart : ∀ h, n.transactionPool.contains h = true → n.spentTransactionsStore.contains h = false

theorem conserved_of_empty (chain : Blockchain) : Conserved [] ⟨chain, .create, DBInternface.empty⟩ where
  all := by intro h; simp
  apart := by intro h hp; simp at hp

theorem conserved_start (D : Digest) : Conserved [] (start D) := conserved_of_empty _

theorem admits_eq (n : Node) (tx : Transaction) (room : Bool) :
    admits n (.addTransaction tx room) =
      if n.spentTransactionsStore.contains tx.hash = false ∧
        n.transactionPool.contains tx.hash = false then [tx.hash] else [] := by
  simp only [admits, validateTransaction, TransactionPool.add_fst]
  cases hs : n.spentTransactionsStore.contains tx.hash <;> simp [Transaction.tag, hs]

/-- Adding a block moves hashes from the pool to the spent store. -/
theorem conserved_addValidated {hs : List String} {n : Node} (b : Block) (c : Conserved hs n) :
    Conserved hs (addValidated n b) := by
  refine ⟨?_, ?_⟩
  · intro h
    rw [addValidated_pool_contains, addValidated_spent_contains, c.all h]
    tauto
  · intro h hp
    rw [addValidated_pool_contains] at hp
    have hs := c.apart h hp.1
    rw [Bool.eq_false_iff]
    intro hc
    rw [addValidated_spent_contains] at hc
    rcases hc with hc | ⟨hm, _⟩
    · rw [hs] at hc; cases hc
    · exact hp.2 hm

theorem conserved_handle {hs : List String} {n : Node} (e : Event) (c : Conserved hs n) :
    Conserved (hs ++ admits n e) (handle n e) := by
  cases e with
  | addTransaction tx room =>
    have he : handle n (.addTransaction tx room) = onAddTransaction n tx room := rfl
    rw [he, onAddTransaction_eq, admits_eq]
    cases hs : n.spentTransactionsStore.contains tx.hash with
    | true => simpa using c
    | false =>
      refine ⟨?_, ?_⟩
      · intro h
        simp only [Bool.false_eq_true, if_false, pooled_contains]
        cases hp : n.transactionPool.contains tx.hash with
        | false =>
          have := c.all h
          simp only [true_and, if_true, List.mem_append, List.mem_singleton, this, Bool.or_eq_true,
            beq_iff_eq]
          tauto
        | true =>
          have hpt : tx.hash = h → n.transactionPool.contains h = true := fun he => he ▸ hp
          have := c.all h
          simp only [reduceCtorEq, and_false, if_false, List.append_nil, this, Bool.or_eq_true,
            beq_iff_eq]
          tauto
      · intro h hp
        simp only [Bool.false_eq_true, if_false, pooled_contains, Bool.or_eq_true, beq_iff_eq] at hp
        rcases hp with hp | rfl
        · exact c.apart h hp
        · exact hs
  | addBlock sender b =>
    rw [show admits n (.addBlock sender b) = [] from rfl, List.append_nil]
    rcases handle_cases n (.addBlock sender b) with he | ⟨_, _, hne, _⟩ | ⟨b, _, _, he⟩
    · rw [he]; exact c
    · cases hne
    · rw [he]; exact conserved_addValidated _ c
  | blockMined b =>
    rw [show admits n (.blockMined b) = [] from rfl, List.append_nil]
    rcases handle_cases n (.blockMined b) with he | ⟨_, _, hne, _⟩ | ⟨b, _, _, he⟩
    · rw [he]; exact c
    · cases hne
    · rw [he]; exact conserved_addValidated _ c

theorem conserved_run {hs : List String} {n : Node} (es : List Event) (c : Conserved hs n) :
    Conserved (hs ++ added n es) (run handle n es) := by
  induction es generalizing hs n with
  | nil => simpa [added] using c
  | cons e es ih =>
    have := ih (conserved_handle e c)
    rw [List.append_assoc] at this
    exact this

theorem spent_get_handle (n : Node) (e : Event) {h : String} {tx : Transaction}
    (hs : n.spentTransactionsStore.get h = some tx) :
    (handle n e).spentTransactionsStore.get h = some tx := by
  rcases handle_cases n e with he | ⟨t, room, _, _, _, he⟩ | ⟨b, _, _, he⟩
  · rw [he]; exact hs
  · rw [he]; exact hs
  · rw [he]; exact addValidated_spent_get n b.verified hs

/-- **Conservation.** Whatever happens once pool and spent store were empty, whichever the
chain, a hash that was added to the pool is later in exactly one of pool and spent store,
nothing else is in either, and the spent store only grows. -/
theorem pooled_hash_in_exactly_one_store (chain : Blockchain) (before after : List Event) :
    let first : Node := ⟨chain, .create, DBInternface.empty⟩
    let n := run handle first before
    let m := run handle n after
    (∀ h ∈ added first before,
      Xor (m.transactionPool.contains h = true) (m.spentTransactionsStore.contains h = true)) ∧
    (∀ h, n.transactionPool.contains h = true ∨ n.spentTransactionsStore.contains h = true →
      h ∈ added first before) ∧
    ∀ h tx, n.spentTransactionsStore.get h = some tx → m.spentTransactionsStore.get h = some tx := by
  intro first n m
  have cn : Conserved (added first before) n := by
    simpa using conserved_run before (conserved_of_empty chain)
  have cm := conserved_run after cn
  refine ⟨?_, fun h hh => (cn.all h).mpr hh, ?_⟩
  · intro h hm
    rcases (cm.all h).mp (List.mem_append_left _ hm) with hp | hs
    · exact .inl ⟨hp, by simp [m, cm.apart h hp]⟩
    · refine .inr ⟨hs, fun hp => ?_⟩
      rw [cm.apart h hp] at hs; cases hs
  · intro h tx hs
    exact run_keeps (I := fun n : Node => n.spentTransactionsStore.get h = some tx)
      (fun n e hs => spent_get_handle n e hs) after hs

/-! ## Spent transactions and the chain -/

/-- Some stored block lists the hash. -/
def OnChain (n : Node) (h : String) : Prop := ∃ b ∈ n.blockchain.data, h ∈ b.hashes

instance (n : Node) (h : String) : Decidable (OnChain n h) := inferInstanceAs (Decidable (∃ b ∈ _, _))

/-- Every spent hash is listed by a stored block. -/
def SpentOnChain (n : Node) : Prop :=
  ∀ h, n.spentTransactionsStore.contains h = true → OnChain n h

/-- The event carries no block that passes the validator under a taken hash and
lists a pooled transaction of no stored block. -/
def NoRepeatedHashSpends (n : Node) (e : Event) : Prop :=
  ∀ b ∈ e.block?, Accepts n b → n.blockchain.contains b.hash = true →
    ∀ h ∈ b.hashes, n.transactionPool.contains h = true → OnChain n h

instance (n : Node) (e : Event) : Decidable (NoRepeatedHashSpends n e) :=
  inferInstanceAs (Decidable (∀ b ∈ e.block?, _))

theorem onChain_handle (n : Node) (e : Event) {h : String} (ho : OnChain n h) :
    OnChain (handle n e) h := by
  obtain ⟨b, hb, hh⟩ := ho
  exact ⟨b, blockchain_mem_run n [e] hb, hh⟩

theorem spentOnChain_handle_iff (n : Node) (e : Event) (hs : SpentOnChain n) :
    NoRepeatedHashSpends n e ↔ SpentOnChain (handle n e) := by
  constructor
  · intro hok h hspent
    rcases handle_cases n e with he | ⟨tx, room, _, _, _, he⟩ | ⟨b, hb, hacc, he⟩
    · rw [he] at hspent ⊢; exact hs h hspent
    · rw [he] at hspent ⊢; exact hs h hspent
    · rw [he, addValidated_spent_contains] at hspent
      rcases hspent with hspent | ⟨hm, hpooled⟩
      · exact onChain_handle n e (hs h hspent)
      · rw [Block.verified_hashes] at hm
        cases hc : n.blockchain.contains b.hash with
        | true => exact onChain_handle n e (hok b hb hacc hc h hm hpooled)
        | false =>
          refine ⟨b.verified, ?_, by rw [Block.verified_hashes]; exact hm⟩
          rw [he]
          exact DBInternface.mem_put.mpr (.inr ⟨rfl, hc⟩)
  · intro hnext b hb hacc hc h hm hpooled
    -- the block is not written, so the hash it spends is on the chain only if it already was
    have he : handle n e = addValidated n b.verified := (handle_block n hb).trans (if_pos hacc)
    have hchain : (handle n e).blockchain = n.blockchain := by
      rw [he]; exact DBInternface.put_of_contains hc
    have hspent : (handle n e).spentTransactionsStore.contains h = true := by
      rw [he, addValidated_spent_contains, Block.verified_hashes]
      exact .inr ⟨hm, hpooled⟩
    obtain ⟨c, hmem, hh⟩ := hnext h hspent
    rw [hchain] at hmem
    exact ⟨c, hmem, hh⟩

/-- **When spent means on the chain.** In a run from a first start every spent
hash is on the chain at every point exactly when no delivered block passes the
validator under a taken hash while listing a pooled transaction of no stored block. -/
theorem spent_on_chain_iff (D : Digest) (es : List Event) :
    (∀ pre, pre <+: es → SpentOnChain (run handle (start D) pre)) ↔
      Along handle NoRepeatedHashSpends (start D) es := by
  have hstart : SpentOnChain (start D) := by intro h hs; simp [start] at hs
  exact throughout_iff_along spentOnChain_handle_iff es hstart

/-! ### A closed run -/

/-- A vote is pooled; a block is stored; a later block under the same hash
passes the validator, is not written, and spends the vote. -/
def repeatedHashRun : List Event :=
  [.addTransaction (sampleVote "AA") true,
    .addBlock "peer" (sampleBlock "0000B1" genesisHash 1670000001000 []),
    .addBlock "peer" (sampleBlock "0000B1" "0000B1" 1670000002000 [sampleVote "AA"])]

theorem spent_by_block_not_added :
    ¬ ∀ es, SpentOnChain (run handle (start sampleDigest) es) := by
  intro h
  have hspent : (run handle (start sampleDigest) repeatedHashRun).spentTransactionsStore.contains "AA"
      = true := by decide
  exact absurd (h repeatedHashRun "AA" hspent) (by decide)

/-! ## Transactions and blocks -/

/-- A block that the event adds to the chain lists only pooled transactions. -/
def ListsPooled (n : Node) (e : Event) : Prop :=
  ∀ b ∈ e.block?, Accepts n b → n.blockchain.contains b.hash = false →
    ∀ h ∈ b.hashes, n.transactionPool.contains h = true

instance (n : Node) (e : Event) : Decidable (ListsPooled n e) :=
  inferInstanceAs (Decidable (∀ b ∈ e.block?, _))

/-- Every block the event carries lists each transaction once. -/
def ListsOnce (e : Event) : Prop := ∀ b ∈ e.block?, b.hashes.Nodup

instance (e : Event) : Decidable (ListsOnce e) := inferInstanceAs (Decidable (∀ b ∈ e.block?, _))

/-- No hash is listed by two stored blocks. -/
def OneBlockEach (chain : Blockchain) : Prop :=
  ∀ b ∈ chain.data, ∀ c ∈ chain.data, ∀ h ∈ b.hashes, h ∈ c.hashes → b = c

instance (chain : Blockchain) : Decidable (OneBlockEach chain) :=
  inferInstanceAs (Decidable (∀ b ∈ _, ∀ c ∈ _, _))

/-- The spent store covers the chain, and no hash is listed twice. -/
structure Covered (n : Node) : Prop where
  spent : ∀ b ∈ n.blockchain.data, ∀ h ∈ b.hashes, n.spentTransactionsStore.contains h = true
  apart : OneBlockEach n.blockchain
  once : ∀ b ∈ n.blockchain.data, b.hashes.Nodup

theorem covered_start (D : Digest) : Covered (start D) := by
  have hg : ∀ b ∈ (start D).blockchain.data, b = createGenesisBlock D := by
    intro b hb
    have : b ∈ stored (fromPath D DBInternface.empty) := hb
    rw [stored_fromPath_empty] at this
    exact this
  have hnone : ∀ b ∈ (start D).blockchain.data, b.hashes = [] := by
    intro b hb; rw [hg b hb]; rfl
  refine ⟨?_, ?_, ?_⟩
  · intro b hb h hh; rw [hnone b hb] at hh; cases hh
  · intro b hb c _ h hh _; rw [hnone b hb] at hh; cases hh
  · intro b hb; rw [hnone b hb]; exact List.nodup_nil

theorem covered_addValidated {n : Node} {b : Block} (c : Covered n) (hacc : Accepts n b)
    (honce : b.hashes.Nodup)
    (hpooled : n.blockchain.contains b.hash = false →
      ∀ h ∈ b.hashes, n.transactionPool.contains h = true) :
    Covered (addValidated n b.verified) := by
  have hold : ∀ h, n.spentTransactionsStore.contains h = true →
      (addValidated n b.verified).spentTransactionsStore.contains h = true :=
    fun h hs => (addValidated_spent_contains _ _ h).mpr (.inl hs)
  cases hc : n.blockchain.contains b.hash with
  | true =>
    have hchain : (addValidated n b.verified).blockchain = n.blockchain :=
      DBInternface.put_of_contains hc
    exact ⟨fun d hd h hh => hold h (c.spent d (hchain ▸ hd) h hh), hchain ▸ c.apart, hchain ▸ c.once⟩
  | false =>
    -- a hash of the new block is spent now and was not spent before
    have hunspent : ∀ h ∈ b.hashes, n.spentTransactionsStore.contains h = false := by
      intro h hh
      obtain ⟨tx, htx, rfl⟩ := Block.mem_hashes.mp hh
      exact (validateBlock_success.mp hacc).2.2.2 tx htx
    have hfresh : ∀ d ∈ n.blockchain.data, ∀ h ∈ d.hashes, h ∉ b.hashes := by
      intro d hd h hh hb
      have := c.spent d hd h hh
      rw [hunspent h hb] at this; cases this
    have hmem : ∀ d, d ∈ (addValidated n b.verified).blockchain.data →
        d ∈ n.blockchain.data ∨ d = b.verified := by
      intro d hd
      rcases DBInternface.mem_put.mp hd with hd | ⟨hd, _⟩
      · exact .inl hd
      · exact .inr hd
    refine ⟨?_, ?_, ?_⟩
    · intro d hd h hh
      rcases hmem d hd with hd | rfl
      · exact hold h (c.spent d hd h hh)
      · rw [Block.verified_hashes] at hh
        apply (addValidated_spent_contains _ _ h).mpr
        rw [Block.verified_hashes]
        exact .inr ⟨hh, hpooled hc h hh⟩
    · intro d hd e he h hhd hhe
      rcases hmem d hd with hd | rfl <;> rcases hmem e he with he | rfl
      · exact c.apart d hd e he h hhd hhe
      · rw [Block.verified_hashes] at hhe; exact absurd hhe (hfresh d hd h hhd)
      · rw [Block.verified_hashes] at hhd; exact absurd hhd (hfresh e he h hhe)
      · rfl
    · intro d hd
      rcases hmem d hd with hd | rfl
      · exact c.once d hd
      · rw [Block.verified_hashes]; exact honce

theorem covered_handle {n : Node} {e : Event} (honce : ListsOnce e) (hpooled : ListsPooled n e)
    (c : Covered n) : Covered (handle n e) := by
  rcases handle_cases n e with he | ⟨tx, room, _, _, _, he⟩ | ⟨b, hb, hacc, he⟩
  · rw [he]; exact c
  · rw [he]; exact ⟨c.spent, c.apart, c.once⟩
  · rw [he]; exact covered_addValidated c hacc (honce b hb) (hpooled b hb hacc)

/-! ### The tally -/

/-- The hashes of the votes for `candidate` that the tally looks at, block by block. -/
def votesFor (chain : Blockchain) (begin_ end_ : UInt64) (candidate : String) : List String :=
  ((chain.data.flatMap Block.transactions).filter fun tx =>
    tx.timestamp ≥ begin_ ∧ tx.timestamp ≤ end_ ∧ tx.to_ = candidate).map Transaction.hash

theorem countVote_getD (begin_ end_ : UInt64) (candidate : String) (txs : List Transaction)
    (results : Std.ExtTreeMap String Nat compare) :
    (txs.foldl (countVote begin_ end_) results).getD candidate 0 =
      results.getD candidate 0 + (txs.filter fun tx =>
        tx.timestamp ≥ begin_ ∧ tx.timestamp ≤ end_ ∧ tx.to_ = candidate).length := by
  induction txs generalizing results with
  | nil => simp
  | cons tx rest ih =>
    rw [List.foldl_cons, ih]
    unfold countVote
    by_cases hw : tx.timestamp ≥ begin_ ∧ tx.timestamp ≤ end_
    · by_cases ht : tx.to_ = candidate
      · simp [hw, ht, Std.ExtTreeMap.getD_eq_getD_getElem?]
        omega
      · simp [hw, ht, Std.ExtTreeMap.getD_alter]
    · rw [if_neg hw]
      have hf : ¬ (tx.timestamp ≥ begin_ ∧ tx.timestamp ≤ end_ ∧ tx.to_ = candidate) :=
        fun h => hw ⟨h.1, h.2.1⟩
      simp [hf]

/-- The tally counts the entries of `votesFor`. -/
theorem tally_eq_length (chain : Blockchain) (begin_ end_ : UInt64) (candidate : String) :
    (onControlOperateBetween chain begin_ end_).getD candidate 0 =
      (votesFor chain begin_ end_ candidate).length := by
  have hflat : onControlOperateBetween chain begin_ end_ =
      (chain.data.flatMap Block.transactions).foldl (countVote begin_ end_) ∅ := by
    unfold onControlOperateBetween
    rw [List.foldl_flatMap]
  rw [hflat, countVote_getD, votesFor, List.length_map]
  simp

theorem votesFor_nodup {n : Node} (c : Covered n) (begin_ end_ : UInt64) (candidate : String) :
    (votesFor n.blockchain begin_ end_ candidate).Nodup := by
  have hall : ((n.blockchain.data.flatMap Block.transactions).map Transaction.hash).Nodup := by
    rw [List.map_flatMap]
    refine List.nodup_flatMap.mpr ⟨c.once, ?_⟩
    refine (DBInternface.data_nodup n.blockchain).imp_of_mem ?_
    intro b d hb hd hne h hhb hhd
    exact hne (c.apart b hb d hd h hhb hhd)
  exact hall.sublist (List.filter_sublist.map _)

/-- **One block for each transaction.** In a run from a first start whose blocks
list no transaction twice and, when added, only pooled ones, no hash is listed
by two stored blocks, and every tally counts distinct votes. -/
theorem no_transaction_in_two_blocks (D : Digest) (es : List Event) (honce : ∀ e ∈ es, ListsOnce e)
    (hpooled : Along handle ListsPooled (start D) es) :
    let chain := (run handle (start D) es).blockchain
    OneBlockEach chain ∧
    ∀ begin_ end_ candidate, (onControlOperateBetween chain begin_ end_).getD candidate 0 =
      (votesFor chain begin_ end_ candidate).toFinset.card := by
  intro chain
  have hc : Covered (run handle (start D) es) :=
    run_keeps_along (fun n e hok c => covered_handle hok.1 hok.2 c) es
      (hpooled.and_of_forall honce) (covered_start D)
  refine ⟨hc.apart, ?_⟩
  intro begin_ end_ candidate
  rw [tally_eq_length, List.toFinset_card_of_nodup (votesFor_nodup hc begin_ end_ candidate)]

/-- Votes are pooled before the blocks that list them. -/
def pooledRun : List Event :=
  [.addTransaction (sampleVote "AA") true, .addTransaction (sampleVote "BB") true,
    .addBlock "peer" (sampleBlock "0000B1" genesisHash 1670000001000 [sampleVote "AA"]),
    .addTransaction (sampleVote "CC") true, .addTransaction (sampleVote "AA") true,
    .addBlock "peer" (sampleBlock "0000B0" "0000B1" 1670000002000 [sampleVote "BB", sampleVote "CC"])]

theorem no_transaction_in_two_blocks_pooledRun :
    (run handle (start sampleDigest) pooledRun).blockchain.size = 3 ∧
      OneBlockEach (run handle (start sampleDigest) pooledRun).blockchain :=
  ⟨by decide +kernel,
    (no_transaction_in_two_blocks sampleDigest pooledRun (by decide +kernel) (by decide +kernel)).1⟩

/-- A vote that never reached the pool is listed by two blocks in a row. -/
def unpooledRun : List Event :=
  [.addBlock "peer" (sampleBlock "0000B1" genesisHash 1670000001000 [sampleVote "AA"]),
    .addBlock "peer" (sampleBlock "0000B0" "0000B1" 1670000002000 [sampleVote "AA"])]

theorem unpooled_vote_counted_twice :
    ¬ ∀ es : List Event, (∀ e ∈ es, ListsOnce e) →
      OneBlockEach (run handle (start sampleDigest) es).blockchain ∧
      ∀ begin_ end_ candidate,
        (onControlOperateBetween (run handle (start sampleDigest) es).blockchain begin_ end_).getD
            candidate 0 =
          (votesFor (run handle (start sampleDigest) es).blockchain begin_ end_ candidate).toFinset.card := by
  intro h
  exact absurd (h unpooledRun (by decide)).1 (by decide)

end Krapi.Conservation
