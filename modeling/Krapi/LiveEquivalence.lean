import Krapi.CatchUp

/-! # Catching up against following live

Two code paths bring the blocks of a peer into a node: the handler of
`AddBlock`, which keeps pool and spent store in line with the chain, and the
raw puts of the initial download, which know the chain alone. The chains they
leave are the same. Pool and spent store are the same only if nothing pending
is in the new blocks. -/
namespace Krapi.LiveEquivalence
open Krapi.BlockchainModels Krapi.DBInterface Krapi.ChainStore Krapi.Validator Krapi.Pool
open Krapi.Handlers Krapi.ChainInvariant Krapi.PublishedChain Krapi.InitialDownload Krapi.CatchUp
open Krapi.Lib.Run Krapi.Lib.Timeline

/-! ## What the download from one chain leaves -/

/-- The blocks that a peer with the chain `peer` hands out for the headers. -/
def handedOut (peer : Blockchain) (headers : List BlockHeader) : List Block :=
  headers.filterMap fun header => peer.get header.hash

/-- The node once the download from `peer` is over, when nothing else happened. -/
def caughtUp (peer : Blockchain) (n : Node) : Node :=
  { n with
    blockchain := insertBlocks n.blockchain (handedOut peer (getAllAfter peer n.blockchain.last.header))
    transactionPool := n.transactionPool.enqueueStored }

/-- The node at a stage of the download from `peer`, when nothing else happens. -/
def Alone (peer : Blockchain) (n : Node) (s : Download) : Prop :=
  match s.stage with
  | .initial => s.node = n
  | .waiting header => s.node = n ∧ header = n.blockchain.last.header
  | .requesting header _ map => s.node = n ∧ header = n.blockchain.last.header ∧
      ∀ e ∈ map, e.1 = getAllAfter peer header
  | .downloading _ headers blocks => s.node = n ∧ ∃ asked,
      getAllAfter peer n.blockchain.last.header = asked ++ headers ∧ blocks = handedOut peer asked
  | .inserting blocks => ∃ done,
      handedOut peer (getAllAfter peer n.blockchain.last.header) = done ++ blocks ∧
        s.node = { n with blockchain := insertBlocks n.blockchain done }
  | .finished => s.node = caughtUp peer n

variable {peer : Blockchain} {n : Node}

theorem alone_resume {s : Download} (h : Alone peer n s) : Alone peer n (resume s) := by
  obtain ⟨node, stage, responses⟩ := s
  cases stage with
  | initial =>
    have hnode : node = n := h
    subst hnode
    exact ⟨rfl, rfl⟩
  | waiting header => exact h
  | requesting header ids map =>
    cases ids with
    | cons id ids => exact h
    | nil =>
      cases map with
      | nil => exact h
      | cons entry rest =>
        obtain ⟨hnode, hheader, hmap⟩ := h
        have hentry : entry.1 = getAllAfter peer n.blockchain.last.header := by
          rw [← hheader]; exact hmap entry (by simp)
        simp only [resume]
        split
        · rename_i hempty
          rw [hentry, List.isEmpty_iff] at hempty
          exact ⟨[], by rw [hempty]; rfl, hnode⟩
        · exact ⟨hnode, [], hentry.symm, rfl⟩
  | downloading id headers blocks =>
    cases headers with
    | cons header headers => exact h
    | nil =>
      obtain ⟨hnode, asked, hasked, hblocks⟩ := h
      refine ⟨[], ?_, hnode⟩
      rw [hasked, List.append_nil, hblocks, List.nil_append]
  | inserting blocks =>
    obtain ⟨done, hdone, hnode⟩ := h
    have hnode : node = { n with blockchain := insertBlocks n.blockchain done } := hnode
    subst hnode
    cases blocks with
    | cons block rest =>
      refine ⟨done ++ [block], by rw [hdone, List.append_assoc]; rfl, ?_⟩
      simp [resume, insertBlocks]
    | nil =>
      rw [List.append_nil] at hdone
      simp only [Alone, resume, caughtUp, hdone]
  | finished => exact h

theorem alone_downloadStep {s : Download} {i : Input} (hans : Answered (fun _ => peer) s i)
    (h : Alone peer n s) : Alone peer n (downloadStep s i) := by
  obtain ⟨node, stage, responses⟩ := s
  cases i with
  | resume => exact alone_resume h
  | peersFound identities =>
    cases stage with
    | waiting header => exact ⟨h.1, h.2, by simp⟩
    | _ => exact h
  | headersResponse headers sender =>
    cases stage with
    | requesting header identities map =>
      cases identities with
      | nil => exact h
      | cons id identities =>
        obtain ⟨hnode, hheader, hmap⟩ := h
        obtain ⟨hheaders, _⟩ := hans
        cases hheaders
        refine ⟨hnode, hheader, ?_⟩
        intro e he
        rcases mem_emplace he with rfl | he
        · rfl
        · exact hmap e he
    | _ => exact h
  | blockAnswer message =>
    cases stage with
    | downloading id headers blocks =>
      cases headers with
      | nil => exact h
      | cons header headers =>
        obtain ⟨hnode, asked, hasked, hblocks⟩ := h
        have hmessage : message = onBlockRequest peer header := hans
        have hblocks : blocks = handedOut peer asked := hblocks
        have hasked' : getAllAfter peer n.blockchain.last.header = (asked ++ [header]) ++ headers := by
          rw [hasked, List.append_assoc]; rfl
        subst hmessage hblocks
        -- a block that the peer does not have is skipped
        cases hget : peer.get header.hash with
        | none =>
          simp only [onBlockRequest, hget, downloadStep]
          exact ⟨hnode, asked ++ [header], hasked', by simp [handedOut, hget]⟩
        | some block =>
          simp only [onBlockRequest, hget, downloadStep]
          exact ⟨hnode, asked ++ [header], hasked', by simp [handedOut, hget]⟩
    | _ => exact h

/-- **What the download from one chain leaves**, once it is finished. -/
theorem finished_eq_caughtUp {inputs : List Input}
    (hans : Along downloadStep (Answered fun _ => peer) (begin n) inputs)
    (hfin : (run downloadStep (begin n) inputs).stage = .finished) :
    (run downloadStep (begin n) inputs).node = caughtUp peer n := by
  have h : Alone peer n (run downloadStep (begin n) inputs) :=
    run_keeps_along (fun s i hans h => alone_downloadStep hans h) inputs hans rfl
  unfold Alone at h
  rw [hfin] at h
  exact h

/-! ## An undisturbed download ends -/

/-- The peer answers each request for a block, and the coroutine collects what it has. -/
theorem run_blockAnswers (peer : Blockchain) (node : Node) (id : String)
    (responses : List (List BlockHeader)) :
    ∀ (headers : List BlockHeader) (blocks : List Block),
      Along downloadStep (Answered fun _ => peer) ⟨node, .downloading id headers blocks, responses⟩
          (headers.map fun header => .blockAnswer (onBlockRequest peer header)) ∧
        run downloadStep ⟨node, .downloading id headers blocks, responses⟩
            (headers.map fun header => .blockAnswer (onBlockRequest peer header)) =
          ⟨node, .downloading id [] (blocks ++ handedOut peer headers), responses⟩
  | [], blocks => ⟨trivial, by simp [handedOut]⟩
  | header :: headers, blocks => by
    have hstep : downloadStep ⟨node, .downloading id (header :: headers) blocks, responses⟩
        (.blockAnswer (onBlockRequest peer header)) =
          ⟨node, .downloading id headers (blocks ++ handedOut peer [header]), responses⟩ := by
      cases hget : peer.get header.hash with
      | none => simp [onBlockRequest, hget, downloadStep, handedOut]
      | some block => simp [onBlockRequest, hget, downloadStep, handedOut]
    obtain ⟨halong, hrun⟩ := run_blockAnswers peer node id responses headers
      (blocks ++ handedOut peer [header])
    have happend : handedOut peer (header :: headers) =
        handedOut peer [header] ++ handedOut peer headers := by
      rw [handedOut, handedOut, handedOut, ← List.filterMap_append]; rfl
    rw [List.map_cons, run_cons, hstep, happend, ← List.append_assoc]
    exact ⟨⟨rfl, hstep ▸ halong⟩, hrun⟩

theorem along_resume (s : Download) (count : ℕ) :
    Along downloadStep (Answered fun _ => peer) s (List.replicate count .resume) := by
  induction count generalizing s with
  | zero => trivial
  | succ count ih => exact ⟨trivial, ih _⟩

theorem run_resume_finished (node : Node) (responses : List (List BlockHeader)) (count : ℕ) :
    run downloadStep ⟨node, .finished, responses⟩ (List.replicate count .resume) =
      ⟨node, .finished, responses⟩ := by
  induction count with
  | zero => rfl
  | succ count ih => exact ih

/-- The loop of puts ends. -/
theorem run_resume_inserting (blocks : List Block) (node : Node)
    (responses : List (List BlockHeader)) {count : ℕ} (h : blocks.length < count) :
    (run downloadStep ⟨node, .inserting blocks, responses⟩ (List.replicate count .resume)).stage =
      .finished := by
  induction blocks generalizing node count with
  | nil =>
    obtain ⟨count, rfl⟩ : ∃ c, count = c + 1 := ⟨count - 1, by simp at h; omega⟩
    exact congrArg Download.stage (run_resume_finished _ _ _)
  | cons block rest ih =>
    obtain ⟨count, rfl⟩ : ∃ c, count = c + 1 := ⟨count - 1, by simp at h; omega⟩
    exact ih _ (by simpa using h)

/-- **A download that finds a peer ends**, with the peer's own answers. -/
theorem download_finishes (peer : Blockchain) (n : Node) :
    ∃ inputs, Along downloadStep (Answered fun _ => peer) (begin n) inputs ∧
      (run downloadStep (begin n) inputs).stage = .finished := by
  generalize hheaders : getAllAfter peer n.blockchain.last.header = headers
  have hasked : ∀ rest, Along downloadStep (Answered fun _ => peer) (begin n)
      (.resume :: .peersFound ["peer"] :: .headersResponse headers "peer" :: rest) ↔
      Along downloadStep (Answered fun _ => peer)
        ⟨n, .requesting n.blockchain.last.header [] [(headers, "peer")], [headers]⟩ rest := by
    intro rest
    constructor
    · intro ⟨_, _, _, h⟩; exact h
    · intro h
      exact ⟨trivial, trivial, ⟨by rw [← hheaders]; rfl, rfl⟩, h⟩
  by_cases hempty : headers = []
  · subst hempty
    refine ⟨.resume :: .peersFound ["peer"] :: .headersResponse [] "peer" ::
      List.replicate 2 .resume, (hasked _).mpr (along_resume _ 2), rfl⟩
  · have hne : headers.isEmpty = false := by simpa using hempty
    obtain ⟨halong, hrun⟩ := run_blockAnswers peer n "peer" [headers] headers []
    have hchoose : downloadStep
        ⟨n, .requesting n.blockchain.last.header [] [(headers, "peer")], [headers]⟩ .resume =
        ⟨n, .downloading "peer" headers [], [headers]⟩ := by
      simp [downloadStep, resume, hne]
    refine ⟨.resume :: .peersFound ["peer"] :: .headersResponse headers "peer" :: .resume ::
      (headers.map (fun header => .blockAnswer (onBlockRequest peer header)) ++
        .resume :: List.replicate (headers.length + 1) .resume), ?_, ?_⟩
    · rw [hasked]
      refine ⟨trivial, ?_⟩
      rw [hchoose, along_append]
      exact ⟨halong, trivial, along_resume _ _⟩
    · have hlen : (handedOut peer headers).length < headers.length + 1 :=
        Nat.lt_succ_of_le (List.length_filterMap_le _ _)
      change (run downloadStep (downloadStep
        ⟨n, .requesting n.blockchain.last.header [] [(headers, "peer")], [headers]⟩ .resume) _).stage = _
      rw [hchoose, run_append, hrun]
      exact run_resume_inserting _ _ _ hlen

/-! ## What handling the same blocks live leaves -/

/-- The node lets in the block that the event carries. -/
def LetsIn (n : Node) (e : Event) : Prop := ∀ b ∈ e.block?, Accepts n b

instance (n : Node) (e : Event) : Decidable (LetsIn n e) :=
  inferInstanceAs (Decidable (∀ b ∈ e.block?, Accepts n b))

/-- Blocks that are all let in are added one after the other. -/
theorem run_addBlock {sender : String} {bs : List Block} (hver : ∀ b ∈ bs, b.verified = b)
    (hacc : Along handle LetsIn n (bs.map (Event.addBlock sender))) :
    run handle n (bs.map (Event.addBlock sender)) = bs.foldl addValidated n := by
  induction bs generalizing n with
  | nil => rfl
  | cons b bs ih =>
    obtain ⟨hb, hrest⟩ := hacc
    have hstep : handle n (.addBlock sender b) = addValidated n b := by
      rw [handle_block n rfl, if_pos (hb b rfl), hver b (by simp)]
    rw [List.map_cons, run_cons, List.foldl_cons]
    rw [hstep] at hrest ⊢
    exact ih (fun c hc => hver c (List.mem_cons_of_mem _ hc)) hrest

theorem foldl_addValidated_blockchain (bs : List Block) (n : Node) :
    (bs.foldl addValidated n).blockchain = insertBlocks n.blockchain bs := by
  induction bs generalizing n with
  | nil => rfl
  | cons b bs ih => rw [List.foldl_cons, ih, addValidated_blockchain]; rfl

theorem foldl_addValidated_queue (bs : List Block) (n : Node) :
    (bs.foldl addValidated n).transactionPool.queue = n.transactionPool.queue := by
  induction bs generalizing n with
  | nil => rfl
  | cons b bs ih => rw [List.foldl_cons, ih, addValidated_queue]

/-- The pool loses exactly what the blocks list. -/
theorem foldl_addValidated_pool_get (bs : List Block) (n : Node) (h : String) :
    (bs.foldl addValidated n).transactionPool.get h =
      if ∃ b ∈ bs, h ∈ b.hashes then none else n.transactionPool.get h := by
  induction bs generalizing n with
  | nil => simp
  | cons b bs ih =>
    rw [List.foldl_cons, ih, addValidated_pool_get]
    by_cases hrest : ∃ c ∈ bs, h ∈ c.hashes
    · have hall : ∃ c ∈ b :: bs, h ∈ c.hashes := by
        obtain ⟨c, hc, hh⟩ := hrest
        exact ⟨c, List.mem_cons_of_mem _ hc, hh⟩
      rw [if_pos hrest, if_pos hall]
    · rw [if_neg hrest]
      by_cases hb : h ∈ b.hashes
      · rw [if_pos hb, if_pos ⟨b, by simp, hb⟩]
      · have hall : ¬ ∃ c ∈ b :: bs, h ∈ c.hashes := by
          intro ⟨c, hc, hh⟩
          rcases List.mem_cons.mp hc with rfl | hc
          · exact hb hh
          · exact hrest ⟨c, hc, hh⟩
        rw [if_neg hb, if_neg hall]

/-- No transaction of the blocks is pooled. -/
def NonePooled (n : Node) (bs : List Block) : Prop :=
  ∀ b ∈ bs, ∀ tx ∈ b.transactions, n.transactionPool.contains tx.hash = false

/-- A block of which nothing is pooled spends nothing. -/
theorem spend_nonePooled (txs : List Transaction) (s : TransactionPool × SpentTransactionsStore)
    (h : ∀ tx ∈ txs, s.1.contains tx.hash = false) : txs.foldl spendTransaction s = s := by
  induction txs with
  | nil => rfl
  | cons tx rest ih =>
    rw [List.foldl_cons, spendTransaction_of_not_contains (h tx (by simp))]
    exact ih fun t ht => h t (List.mem_cons_of_mem _ ht)

theorem foldl_addValidated_nonePooled {bs : List Block} (n : Node) (h : NonePooled n bs) :
    (bs.foldl addValidated n).transactionPool = n.transactionPool ∧
      (bs.foldl addValidated n).spentTransactionsStore = n.spentTransactionsStore := by
  induction bs generalizing n with
  | nil => exact ⟨rfl, rfl⟩
  | cons b bs ih =>
    have hspend := spend_nonePooled b.transactions (n.transactionPool, n.spentTransactionsStore)
      (h b (by simp))
    have hpool : (addValidated n b).transactionPool = n.transactionPool := by
      simp only [addValidated, hspend]
    have hspent : (addValidated n b).spentTransactionsStore = n.spentTransactionsStore := by
      simp only [addValidated, hspend]
    have hnext : NonePooled (addValidated n b) bs := by
      intro c hc tx htx
      rw [hpool]
      exact h c (List.mem_cons_of_mem _ hc) tx htx
    obtain ⟨hp, hs⟩ := ih (addValidated n b) hnext
    rw [List.foldl_cons]
    exact ⟨hp.trans hpool, hs.trans hspent⟩

/-- The pool comes out as it went in exactly when none of it is in the blocks. -/
theorem foldl_addValidated_pool_iff (bs : List Block) (n : Node) :
    (bs.foldl addValidated n).transactionPool.toDBInternface = n.transactionPool.toDBInternface ↔
      NonePooled n bs := by
  constructor
  · intro heq b hb tx htx
    have hget := foldl_addValidated_pool_get bs n tx.hash
    rw [if_pos ⟨b, hb, Block.mem_hashes.mpr ⟨tx, htx, rfl⟩⟩, heq] at hget
    simp [DBInternface.contains, hget]
  · intro h
    rw [(foldl_addValidated_nonePooled n h).1]

/-! ## The two chains -/

theorem mem_insertBlocks {bs : List Block} {chain : Blockchain} {U : Set Block}
    (hU : Set.InjOn Block.hash U) (hchain : ∀ b ∈ chain.data, b ∈ U) (hbs : ∀ b ∈ bs, b ∈ U)
    (c : Block) : c ∈ (insertBlocks chain bs).data ↔ c ∈ chain.data ∨ c ∈ bs := by
  induction bs generalizing chain with
  | nil => simp [insertBlocks]
  | cons b bs ih =>
    have hbU : b ∈ U := hbs b (by simp)
    -- a taken hash is taken by the block itself
    have hput : ∀ d, d ∈ (chain.put b).2.data ↔ d ∈ chain.data ∨ d = b := by
      intro d
      rw [DBInternface.mem_put]
      constructor
      · intro hd
        rcases hd with hd | ⟨hd, _⟩
        · exact .inl hd
        · exact .inr hd
      · intro hd
        rcases hd with hd | rfl
        · exact .inl hd
        · cases hc : chain.contains (tag d) with
          | false => exact .inr ⟨rfl, rfl⟩
          | true =>
            obtain ⟨e, he, heq⟩ := DBInternface.contains_iff.mp hc
            exact .inl (hU (hchain e he) hbU heq ▸ he)
    have hchain' : ∀ d ∈ (chain.put b).2.data, d ∈ U := by
      intro d hd
      rcases (hput d).mp hd with hd | rfl
      · exact hchain d hd
      · exact hbU
    have hrest := ih hchain' fun d hd => hbs d (List.mem_cons_of_mem _ hd)
    change c ∈ (insertBlocks (chain.put b).2 bs).data ↔ _
    rw [hrest, hput, List.mem_cons, or_assoc]

/-- What the puts leave depends on the set of blocks alone. -/
theorem insertBlocks_congr {bs cs : List Block} {chain : Blockchain} {U : Set Block}
    (hU : Set.InjOn Block.hash U) (hchain : ∀ b ∈ chain.data, b ∈ U) (hbs : ∀ b ∈ bs, b ∈ U)
    (heq : ∀ b, b ∈ bs ↔ b ∈ cs) : insertBlocks chain bs = insertBlocks chain cs := by
  have hcs : ∀ b ∈ cs, b ∈ U := fun b hb => hbs b ((heq b).mpr hb)
  apply DBInternface.ext_mem
  intro b
  rw [mem_insertBlocks hU hchain hbs, mem_insertBlocks hU hchain hcs, heq]

/-- An honest peer: it stores the published chain `P`, with the transactions
`Verified` as every block handler stores them. -/
structure Serves (D : Digest) (P : List Block) (peer : Blockchain) : Prop where
  published : Published D P
  mem : ∀ b, b ∈ peer.data ↔ b ∈ P
  status : ∀ b ∈ P, ∀ tx ∈ b.transactions, tx.status = .verified

variable {D : Digest} {P : List Block} {k : ℕ} {chain : Blockchain}

theorem Serves.hash_injOn (h : Serves D P peer) : Set.InjOn Block.hash {b | b ∈ P} :=
  fun _ hb _ hc he => List.inj_on_of_nodup_map h.published.listed.names hb hc he

theorem holdsUpTo_of_mem (hk : k < P.length) (h : ∀ b, b ∈ chain.data ↔ b ∈ P.take (k + 1)) :
    HoldsUpTo P chain k := by
  have hpos : ∀ b, b ∈ P.take (k + 1) ↔ ∃ i ≤ k, P[i]? = some b := by
    intro b
    rw [List.mem_iff_getElem?]
    refine exists_congr fun i => ?_
    rw [List.getElem?_take]
    by_cases hi : i < k + 1
    · simp [hi, Nat.le_of_lt_succ hi]
    · have hik : ¬ i ≤ k := by omega
      simp [hi, hik]
  refine ⟨hk, ?_⟩
  ext c
  constructor
  · intro ⟨b, hb, hc⟩
    obtain ⟨i, hi, hat⟩ := (hpos b).mp ((h b).mp hb)
    exact ⟨i, hi, b, hat, hc.symm⟩
  · intro ⟨i, hi, b, hat, hc⟩
    exact ⟨b, (h b).mpr ((hpos b).mpr ⟨i, hi, hat⟩), hc.symm⟩

theorem Serves.holdsUpTo (h : Serves D P peer) : HoldsUpTo P peer (P.length - 1) := by
  have hpos := h.published.pos
  apply holdsUpTo_of_mem (by omega)
  intro b
  rw [h.mem, Nat.sub_add_cancel hpos, List.take_length]

/-- The peer hands out exactly the blocks that the node misses. -/
theorem Serves.mem_handedOut (h : Serves D P peer) (hk : HoldsUpTo P chain k) (b : Block) :
    b ∈ handedOut peer (getAllAfter peer chain.last.header) ↔ b ∈ P.drop (k + 1) := by
  obtain ⟨a, ha⟩ : ∃ a, P[k]? = some a := ⟨_, List.getElem?_eq_getElem hk.1⟩
  have hlast : chain.last.header = a.header :=
    hk.2.last_header h.published (Nat.zero_le k) (Set.mem_Iic.mpr le_rfl) (fun _ hi => hi) ha
  have hnamed : ∀ x, x ∈ getAllAfter peer chain.last.header ↔
      ∃ i, k < i ∧ i ≤ P.length - 1 ∧ HeaderAt P i x := by
    intro x
    rw [hlast]
    exact mem_getAllAfter_iff h.published h.holdsUpTo ha
  rw [handedOut, List.mem_filterMap, List.mem_iff_getElem?]
  constructor
  · intro ⟨x, hx, hget⟩
    obtain ⟨i, hki, _, c, hc, rfl⟩ := (hnamed x).mp hx
    have hb : b ∈ P := (h.mem b).mp (DBInternface.mem_data_of_get hget)
    have hbc : b = c := h.hash_injOn hb (List.mem_of_getElem? hc) (DBInternface.tag_of_get hget)
    refine ⟨i - (k + 1), ?_⟩
    rw [List.getElem?_drop, show k + 1 + (i - (k + 1)) = i by omega, hbc]
    exact hc
  · intro ⟨i, hi⟩
    rw [List.getElem?_drop] at hi
    have hlt : k + 1 + i < P.length := (List.getElem?_eq_some_iff.mp hi).1
    refine ⟨b.header, (hnamed b.header).mpr ⟨k + 1 + i, by omega, by omega, b, hi, rfl⟩, ?_⟩
    exact DBInternface.mem_data.mp ((h.mem b).mpr (List.mem_of_getElem? hi))

/-- Both ways lead to the same chain. -/
theorem Serves.blockchain_eq (h : Serves D P peer) (hk : k < P.length)
    (hn : ∀ b, b ∈ n.blockchain.data ↔ b ∈ P.take (k + 1)) :
    (caughtUp peer n).blockchain = ((P.drop (k + 1)).foldl addValidated n).blockchain := by
  have hhand := h.mem_handedOut (holdsUpTo_of_mem hk hn)
  rw [foldl_addValidated_blockchain]
  apply insertBlocks_congr h.hash_injOn
  · intro b hb
    exact List.mem_of_mem_take ((hn b).mp hb)
  · intro b hb
    exact List.mem_of_mem_drop ((hhand b).mp hb)
  · exact hhand

/-! ## Equivalence -/

theorem nonePooled_of_empty (h : n.transactionPool.data = []) (bs : List Block) : NonePooled n bs := by
  intro b _ tx _
  cases hc : n.transactionPool.contains tx.hash with
  | false => rfl
  | true =>
    obtain ⟨v, hv, _⟩ := DBInternface.contains_iff.mp hc
    rw [h] at hv
    cases hv

/-- The databases of pool and spent store after the download against those after
adding the blocks. -/
theorem caughtUp_databases_iff (peer : Blockchain) (n : Node) (bs : List Block) :
    ((caughtUp peer n).transactionPool.toDBInternface =
        (bs.foldl addValidated n).transactionPool.toDBInternface ∧
      (caughtUp peer n).spentTransactionsStore = (bs.foldl addValidated n).spentTransactionsStore) ↔
      NonePooled n bs := by
  constructor
  · intro ⟨hpool, _⟩
    exact (foldl_addValidated_pool_iff bs n).mp hpool.symm
  · intro h
    obtain ⟨hpool, hspent⟩ := foldl_addValidated_nonePooled n h
    rw [hpool, hspent]
    exact ⟨rfl, rfl⟩

/-- **Catching up against following live.** A node holds `P[0..k]`, with any pool
and spent store such that it would let in the rest of `P` block by block; it
downloads from a peer that serves `P`. Some run of the download ends. Every run
that ends leaves the chain that the `AddBlock` handler leaves. It leaves the
databases of pool and spent store as the handler does if and only if no
transaction of the missing blocks is pooled. The queue has the stored pool
appended, so that the whole states are equal if and only if nothing is pooled. -/
theorem catchUp_matches_live_iff (D : Digest) (P : List Block) (peer : Blockchain)
    (hpeer : Serves D P peer) (n : Node) (k : ℕ) (hk : k < P.length)
    (hn : ∀ b, b ∈ n.blockchain.data ↔ b ∈ P.take (k + 1)) (sender : String)
    (hlive : Along handle LetsIn n ((P.drop (k + 1)).map (Event.addBlock sender))) :
    (∃ inputs, Along downloadStep (Answered fun _ => peer) (begin n) inputs ∧
      (run downloadStep (begin n) inputs).stage = .finished) ∧
    ∀ inputs, Along downloadStep (Answered fun _ => peer) (begin n) inputs →
      (run downloadStep (begin n) inputs).stage = .finished →
      let caught := (run downloadStep (begin n) inputs).node
      let live := run handle n ((P.drop (k + 1)).map (Event.addBlock sender))
      caught.blockchain = live.blockchain ∧
      ((caught.transactionPool.toDBInternface = live.transactionPool.toDBInternface ∧
        caught.spentTransactionsStore = live.spentTransactionsStore) ↔
          NonePooled n (P.drop (k + 1))) ∧
      caught.transactionPool.queue =
        live.transactionPool.queue ++ n.transactionPool.data.map PoolItem.transaction ∧
      (caught = live ↔ n.transactionPool.data = []) := by
  refine ⟨download_finishes peer n, ?_⟩
  intro inputs hans hfin caught live
  have hcaught : caught = caughtUp peer n := finished_eq_caughtUp hans hfin
  have hver : ∀ b ∈ P.drop (k + 1), b.verified = b := fun b hb =>
    Block.verified_of_status (hpeer.status b (List.mem_of_mem_drop hb))
  have hlived : live = (P.drop (k + 1)).foldl addValidated n := run_addBlock hver hlive
  have hchain : caught.blockchain = live.blockchain := by
    rw [hcaught, hlived]; exact hpeer.blockchain_eq hk hn
  have hdbs : (caught.transactionPool.toDBInternface = live.transactionPool.toDBInternface ∧
      caught.spentTransactionsStore = live.spentTransactionsStore) ↔ NonePooled n (P.drop (k + 1)) := by
    rw [hcaught, hlived]; exact caughtUp_databases_iff peer n _
  have hqueue : caught.transactionPool.queue =
      live.transactionPool.queue ++ n.transactionPool.data.map PoolItem.transaction := by
    rw [hcaught, hlived, foldl_addValidated_queue]; rfl
  refine ⟨hchain, hdbs, hqueue, ?_⟩
  constructor
  · intro heq
    rw [heq, List.self_eq_append_right] at hqueue
    exact List.map_eq_nil_iff.mp hqueue
  · intro hempty
    obtain ⟨hpool, hspent⟩ := hdbs.mpr (nonePooled_of_empty hempty _)
    rw [hempty, List.map_nil, List.append_nil] at hqueue
    exact Node.ext hchain (TransactionPool.ext_db_queue hpool hqueue) hspent

/-! ### Closed runs -/

/-- The sample chain as a peer stores it. -/
def servedChain : List Block := sampleChain.map Block.verified

def servingPeer : Blockchain := insertBlocks DBInternface.empty servedChain

theorem servingPeer_serves : Serves sampleDigest servedChain servingPeer := by
  have hpub : Published sampleDigest servedChain :=
    ⟨⟨by decide, by decide, by decide⟩, by decide, by decide⟩
  refine ⟨hpub, ?_, by decide⟩
  intro b
  have hinj : Set.InjOn Block.hash {b | b ∈ servedChain} :=
    fun _ hb _ hc he => List.inj_on_of_nodup_map hpub.listed.names hb hc he
  rw [servingPeer, mem_insertBlocks hinj (by simp) (fun _ hb => hb)]
  simp

theorem start_mem (b : Block) :
    b ∈ (start sampleDigest).blockchain.data ↔ b ∈ servedChain.take (0 + 1) := by
  have hstored := stored_fromPath_empty sampleDigest
  rw [← mem_stored, start, hstored]
  simp [servedChain, sampleChain]

/-- A fresh node that pooled the vote which the first new block lists. -/
def pooledNode : Node := handle (start sampleDigest) (.addTransaction (sampleVote "AA") true)

/-- The download from the serving peer to its end. -/
def wholeDownload : List Input :=
  downloadFrom servingPeer (getAllAfter servingPeer (createGenesisBlock sampleDigest).header) 3

theorem catchUp_keeps_spent_vote_pooled :
    Serves sampleDigest servedChain servingPeer ∧
      (∀ b, b ∈ pooledNode.blockchain.data ↔ b ∈ servedChain.take (0 + 1)) ∧
      Along handle LetsIn pooledNode ((servedChain.drop (0 + 1)).map (Event.addBlock "peer")) ∧
      Along downloadStep (Answered fun _ => servingPeer) (begin pooledNode) wholeDownload ∧
      (run downloadStep (begin pooledNode) wholeDownload).stage = .finished ∧
      let caught := (run downloadStep (begin pooledNode) wholeDownload).node
      let live := run handle pooledNode ((servedChain.drop (0 + 1)).map (Event.addBlock "peer"))
      caught.transactionPool.contains "AA" = true ∧ live.transactionPool.contains "AA" = false ∧
        caught.spentTransactionsStore.contains "AA" = false ∧
        live.spentTransactionsStore.contains "AA" = true := by
  have hchain : pooledNode.blockchain = (start sampleDigest).blockchain := by
    simp only [pooledNode, handle, onAddTransaction_eq]
    split <;> rfl
  refine ⟨servingPeer_serves, ?_, by decide +kernel, by decide +kernel, by decide +kernel, ?_⟩
  · rw [hchain]; exact start_mem
  · decide +kernel

theorem catchUp_matches_live_iff_start :
    Serves sampleDigest servedChain servingPeer ∧
      ∃ inputs, Along downloadStep (Answered fun _ => servingPeer) (begin (start sampleDigest)) inputs ∧
        (run downloadStep (begin (start sampleDigest)) inputs).stage = .finished ∧
        (run downloadStep (begin (start sampleDigest)) inputs).node =
          run handle (start sampleDigest) ((servedChain.drop (0 + 1)).map (Event.addBlock "peer")) := by
  have hlive : Along handle LetsIn (start sampleDigest)
      ((servedChain.drop (0 + 1)).map (Event.addBlock "peer")) := by decide +kernel
  obtain ⟨⟨inputs, hans, hfin⟩, hall⟩ := catchUp_matches_live_iff sampleDigest servedChain servingPeer
    servingPeer_serves (start sampleDigest) 0 (by decide) start_mem "peer" hlive
  obtain ⟨_, _, _, hwhole⟩ := hall inputs hans hfin
  exact ⟨servingPeer_serves, inputs, hans, hfin, hwhole.mpr DBInternface.data_empty⟩

end Krapi.LiveEquivalence
