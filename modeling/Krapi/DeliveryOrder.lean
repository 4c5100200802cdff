import Krapi.Conservation

/-! # What the order of deliveries cannot change

A block is let in by what is spent, what is spent depends on what was pooled
when a block came, and what is pooled on when transactions arrived. As long as
every transaction arrives before the first block that lists it, none of this
shows: the chain and the spent hashes follow a ledger that sees the blocks
alone, and the pool holds whatever arrived and is not spent. -/
namespace Krapi.DeliveryOrder
open Krapi.BlockchainModels Krapi.DBInterface Krapi.ChainStore Krapi.Validator Krapi.Pool
open Krapi.Handlers Krapi.Lib.Run

/-! ## The ledger -/

/-- A chain with the hashes that its blocks spent. -/
structure Ledger where
  chain : Blockchain
  spent : List String

/-- The ledger at a first start. -/
def Ledger.genesis (D : Digest) : Ledger := ⟨fromPath D DBInternface.empty, []⟩

def Ledger.Admits (l : Ledger) (b : Block) : Prop :=
  validateHeader l.chain.last.header b = .success ∧ ∀ h ∈ b.hashes, h ∉ l.spent

instance (l : Ledger) (b : Block) : Decidable (l.Admits b) := inferInstanceAs (Decidable (_ ∧ _))

/-- A block that is admitted spends all that it lists. -/
def Ledger.add (l : Ledger) (b : Block) : Ledger :=
  if l.Admits b then ⟨(l.chain.put b.verified).2, l.spent ++ b.hashes⟩ else l

/-- The answers of the ledger to a sequence of blocks. -/
def Ledger.verdicts : Ledger → List Block → List Bool
  | _, [] => []
  | l, b :: bs => decide (l.Admits b) :: (l.add b).verdicts bs

theorem Ledger.verdicts_append (l : Ledger) (bs : List Block) (b : Block) :
    l.verdicts (bs ++ [b]) = l.verdicts bs ++ [decide ((bs.foldl Ledger.add l).Admits b)] := by
  induction bs generalizing l with
  | nil => rfl
  | cons c bs ih =>
    rw [List.cons_append, Ledger.verdicts, ih, Ledger.verdicts, List.foldl_cons]; rfl

/-! ## Runs -/

/-- The transactions that arrive, in order. -/
def sent (es : List Event) : List Transaction :=
  es.filterMap fun
    | .addTransaction tx _ => some tx
    | _ => none

/-- The blocks that arrive, in order. -/
def blocks (es : List Event) : List Block := es.filterMap Event.block?

/-- Whether the node lets in the blocks of a run, in order. -/
def verdicts : Node → List Event → List Bool
  | _, [] => []
  | n, e :: es => (e.block?.map fun b => decide (Accepts n b)).toList ++ verdicts (handle n e) es

/-- Every transaction that a block lists arrived before the block. -/
def DeliveredFirst (es : List Event) : Prop :=
  ∀ i < es.length, ∀ b ∈ es[i]?.bind Event.block?, ∀ tx ∈ b.transactions,
    ∃ t ∈ sent (es.take i), t.hash = tx.hash

instance (es : List Event) : Decidable (DeliveredFirst es) :=
  inferInstanceAs (Decidable (∀ i < es.length, ∀ b ∈ es[i]?.bind Event.block?, _))

theorem verdicts_append (n : Node) (es : List Event) (e : Event) :
    verdicts n (es ++ [e]) =
      verdicts n es ++ (e.block?.map fun b => decide (Accepts (run handle n es) b)).toList := by
  induction es generalizing n with
  | nil => exact List.append_nil _
  | cons c es ih => rw [List.cons_append, verdicts, ih, verdicts, List.append_assoc, run_cons]

/-! ## The node follows the ledger -/

/-- The node's stores are those of the ledger, with the arrived transactions pooled. -/
structure Follows (n : Node) (arrived : List Transaction) (l : Ledger) : Prop where
  chain : n.blockchain = l.chain
  spent : ∀ h, n.spentTransactionsStore.contains h = true ↔ h ∈ l.spent
  pooled : ∀ h, n.transactionPool.contains h = true ↔ (∃ t ∈ arrived, t.hash = h) ∧ h ∉ l.spent

variable {n : Node} {arrived : List Transaction} {l : Ledger} {b : Block}

theorem follows_start (D : Digest) : Follows (start D) [] (.genesis D) where
  chain := rfl
  spent := by intro h; simp [start, Ledger.genesis]
  pooled := by intro h; simp [start]

theorem Follows.not_spent (h : Follows n arrived l) {x : String} :
    n.spentTransactionsStore.contains x = false ↔ x ∉ l.spent := by
  rw [← h.spent, Bool.not_eq_true]

theorem Follows.accepts_iff (h : Follows n arrived l) : Accepts n b ↔ l.Admits b := by
  unfold Accepts Ledger.Admits
  rw [validateBlock_success, validateHeader_success, ← h.chain]
  have hspent : (∀ tx ∈ b.transactions, n.spentTransactionsStore.contains tx.hash = false) ↔
      ∀ x ∈ b.hashes, x ∉ l.spent := by
    simp only [h.not_spent, Block.mem_hashes]
    constructor
    · intro hall x ⟨tx, htx, he⟩; exact he ▸ hall tx htx
    · intro hall tx htx; exact hall tx.hash ⟨tx, htx, rfl⟩
  rw [hspent, and_assoc, and_assoc]
  exact Iff.rfl

/-- A transaction arrives. -/
theorem Follows.addTransaction (h : Follows n arrived l) (tx : Transaction) (room : Bool) :
    Follows (onAddTransaction n tx room) (arrived ++ [tx]) l := by
  have harrived : ∀ x, (∃ t ∈ arrived ++ [tx], t.hash = x) ↔ (∃ t ∈ arrived, t.hash = x) ∨ tx.hash = x := by
    intro x; simp [or_and_right, exists_or]
  rw [onAddTransaction_eq]
  cases hs : n.spentTransactionsStore.contains tx.hash with
  | true =>
    have hin : tx.hash ∈ l.spent := (h.spent _).mp hs
    refine ⟨h.chain, h.spent, ?_⟩
    intro x
    rw [if_pos rfl, h.pooled, harrived]
    constructor
    · intro ⟨ha, hx⟩; exact ⟨.inl ha, hx⟩
    · intro ⟨ha, hx⟩
      rcases ha with ha | rfl
      · exact ⟨ha, hx⟩
      · exact absurd hin hx
  | false =>
    have hout : tx.hash ∉ l.spent := h.not_spent.mp hs
    refine ⟨h.chain, h.spent, ?_⟩
    intro x
    rw [if_neg (by simp), harrived]
    simp only [pooled_contains, Bool.or_eq_true, beq_iff_eq, h.pooled]
    constructor
    · intro hx
      rcases hx with ⟨ha, hx⟩ | rfl
      · exact ⟨.inl ha, hx⟩
      · exact ⟨.inr rfl, hout⟩
    · intro ⟨ha, hx⟩
      rcases ha with ha | ha
      · exact .inl ⟨ha, hx⟩
      · exact .inr ha

/-- A block arrives after all that it lists: none of it is spent, so all of it is pooled. -/
theorem Follows.addBlock (h : Follows n arrived l)
    (hfirst : ∀ tx ∈ b.transactions, ∃ t ∈ arrived, t.hash = tx.hash) :
    Follows (if Accepts n b then addValidated n b.verified else n) arrived (l.add b) := by
  by_cases hacc : Accepts n b
  · have hadmits : l.Admits b := h.accepts_iff.mp hacc
    have hpooled : ∀ x ∈ b.hashes, n.transactionPool.contains x = true := by
      intro x hx
      obtain ⟨tx, htx, rfl⟩ := Block.mem_hashes.mp hx
      exact (h.pooled _).mpr ⟨hfirst tx htx, hadmits.2 _ hx⟩
    rw [if_pos hacc, Ledger.add, if_pos hadmits]
    refine ⟨?_, ?_, ?_⟩
    · rw [addValidated_blockchain, h.chain]
    · intro x
      rw [addValidated_spent_contains, h.spent, Block.verified_hashes, List.mem_append]
      constructor
      · intro hx
        rcases hx with hx | ⟨hx, _⟩
        · exact .inl hx
        · exact .inr hx
      · intro hx
        rcases hx with hx | hx
        · exact .inl hx
        · exact .inr ⟨hx, hpooled x hx⟩
    · intro x
      rw [addValidated_pool_contains, h.pooled, Block.verified_hashes, List.mem_append, not_or, and_assoc]
  · rw [if_neg hacc, Ledger.add, if_neg (fun ha => hacc (h.accepts_iff.mpr ha))]
    exact h

theorem Follows.handle (h : Follows n arrived l) (e : Event)
    (hfirst : ∀ b ∈ e.block?, ∀ tx ∈ b.transactions, ∃ t ∈ arrived, t.hash = tx.hash) :
    Follows (handle n e) (arrived ++ sent [e]) ((blocks [e]).foldl Ledger.add l) := by
  cases e with
  | addTransaction tx room => exact h.addTransaction tx room
  | addBlock sender b =>
    have hb := h.addBlock (hfirst b rfl)
    rw [← onAddBlock_fst n sender b, ← List.append_nil arrived] at hb
    exact hb
  | blockMined b =>
    have hb := h.addBlock (hfirst b rfl)
    rw [← onBlockMined_fst n b, ← List.append_nil arrived] at hb
    exact hb

/-- **A node follows the ledger** along every run in which transactions arrive first. -/
theorem follows_run (D : Digest) {es : List Event} (hfirst : DeliveredFirst es) (pre : List Event)
    (hpre : pre <+: es) :
    Follows (run handle (start D) pre) (sent pre) ((blocks pre).foldl Ledger.add (.genesis D)) ∧
      verdicts (start D) pre = (Ledger.genesis D).verdicts (blocks pre) := by
  -- event by event, the run so far being a prefix of the whole one
  induction pre using List.reverseRecOn with
  | nil => exact ⟨follows_start D, rfl⟩
  | append_singleton pre e ih =>
    obtain ⟨post, hpost⟩ := hpre
    have hes : es = pre ++ e :: post := by rw [← hpost, List.append_assoc]; rfl
    obtain ⟨hfollows, hverdicts⟩ := ih ⟨e :: post, hes.symm⟩
    have hbefore : ∀ b ∈ e.block?, ∀ tx ∈ b.transactions, ∃ t ∈ sent pre, t.hash = tx.hash := by
      intro b hb tx htx
      have hlen : pre.length < es.length := by rw [hes]; simp
      have hat := hfirst pre.length hlen b (by rw [hes]; simpa using hb) tx htx
      rwa [hes, List.take_left] at hat
    have hstep := hfollows.handle e hbefore
    have hsent : sent (pre ++ [e]) = sent pre ++ sent [e] := List.filterMap_append
    have hblocks : blocks (pre ++ [e]) = blocks pre ++ blocks [e] := List.filterMap_append
    rw [run_append, hsent, hblocks, List.foldl_append, verdicts_append, hverdicts]
    refine ⟨hstep, ?_⟩
    cases hb : e.block? with
    | none => simp [blocks, hb]
    | some b =>
      have hone : blocks [e] = [b] := by simp [blocks, hb]
      rw [hone, Ledger.verdicts_append]
      simp [hfollows.accepts_iff]

/-- **The order of deliveries does not show.** Two runs from a first start get
the same blocks in the same order and the same transactions, however often and
wherever between the blocks, each transaction before the first block that lists
it. Then both let in the same blocks, and end with the same chain and the same
hashes pooled and spent. -/
theorem delivery_order_irrelevant (D : Digest) (es es' : List Event)
    (hblocks : blocks es = blocks es') (hsent : ∀ tx, tx ∈ sent es ↔ tx ∈ sent es')
    (hfirst : DeliveredFirst es) (hfirst' : DeliveredFirst es') :
    verdicts (start D) es = verdicts (start D) es' ∧
    let n := run handle (start D) es
    let n' := run handle (start D) es'
    n.blockchain = n'.blockchain ∧
    (∀ h, n.transactionPool.contains h = n'.transactionPool.contains h) ∧
    ∀ h, n.spentTransactionsStore.contains h = n'.spentTransactionsStore.contains h := by
  obtain ⟨hf, hv⟩ := follows_run D hfirst es (List.prefix_refl es)
  obtain ⟨hf', hv'⟩ := follows_run D hfirst' es' (List.prefix_refl es')
  rw [← hblocks] at hf' hv'
  refine ⟨hv.trans hv'.symm, hf.chain.trans hf'.chain.symm, ?_, ?_⟩
  · intro h
    rw [Bool.eq_iff_iff, hf.pooled, hf'.pooled]
    simp only [hsent]
  · intro h
    rw [Bool.eq_iff_iff, hf.spent, hf'.spent]

/-- Both votes arrive at once, before any block. -/
def earlyVotes : List Event :=
  [.addTransaction (sampleVote "AA") true, .addTransaction (sampleVote "BB") true,
    .addBlock "peer" (sampleBlock "0000B2" genesisHash 1670000001000 [sampleVote "AA"]),
    .addBlock "peer" (sampleBlock "0000B1" "0000B2" 1670000002000 [sampleVote "AA"])]

/-- One of them arrives between the blocks, the other again after both. -/
def lateVotes : List Event :=
  [.addTransaction (sampleVote "AA") true,
    .addBlock "peer" (sampleBlock "0000B2" genesisHash 1670000001000 [sampleVote "AA"]),
    .addTransaction (sampleVote "BB") false,
    .addBlock "peer" (sampleBlock "0000B1" "0000B2" 1670000002000 [sampleVote "AA"]),
    .addTransaction (sampleVote "AA") true]

theorem delivery_order_irrelevant_votes :
    DeliveredFirst earlyVotes ∧ DeliveredFirst lateVotes ∧
      (run handle (start sampleDigest) earlyVotes).blockchain =
        (run handle (start sampleDigest) lateVotes).blockchain := by
  have hfirst : DeliveredFirst earlyVotes := by decide
  have hfirst' : DeliveredFirst lateVotes := by decide
  have hsent : ∀ tx, tx ∈ sent earlyVotes ↔ tx ∈ sent lateVotes := by
    intro tx
    simp only [sent, earlyVotes, lateVotes, List.filterMap_cons, List.filterMap_nil, List.mem_cons,
      List.not_mem_nil, or_false]
    tauto
  exact ⟨hfirst, hfirst', (delivery_order_irrelevant sampleDigest earlyVotes lateVotes (by decide) hsent
    hfirst hfirst').2.1⟩

end Krapi.DeliveryOrder
