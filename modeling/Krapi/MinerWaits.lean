import Krapi.TwoNodes
import Krapi.Lib.Run

/-! # What ends the miner's waits

`Miner::task` waits twice in a round: for an answer to the block it broadcast,
and for the notification that the node's own validator ran. Both waits are
listeners by type on the event queue, registered after what they wait for was
set in motion. A notification dispatched before the listener is there is lost,
and an answer to another block is taken for the one that is awaited. -/
namespace Krapi.MinerWaits
open Krapi.BlockchainModels Krapi.DBInterface Krapi.ChainStore Krapi.Validator Krapi.Pool
open Krapi.Handlers Krapi.Mining Krapi.Miner Krapi.TwoNodes Krapi.Lib.Run

/-! ## The notification of the validator -/

/-- `BlockMined`, or the `MinedBlockValidated` it leads to. -/
def isValidation : QueuedEvent → Bool
  | .blockMined _ => true
  | .minedBlockValidated => true
  | _ => false

/-- A miner that waits for the validator has it or its notification still ahead. -/
def Awaited (s : FullNode) : Prop := ∀ b, s.phase = .validating b → ∃ e ∈ s.events, isValidation e = true

/-- The miner registers its listener while the validation of its block is still ahead. -/
def RegistersInTime (s : FullNode) : Action → Prop
  | .miner _ _ => ∀ b, s.phase = .enqueued b → ∃ e ∈ s.events, isValidation e = true
  | _ => True

variable {D : Digest} {id : String} {s : FullNode} {a : Action}

/-- `BlockMined` is answered, whatever the validator says. -/
theorem minedBlockValidated_mem_effects (n : Node) (b : Block) :
    .minedBlockValidated ∈ (QueuedEvent.blockMined b).effects n := by
  show .minedBlockValidated ∈ (onBlockMined n b).2
  unfold onBlockMined
  simp only
  split <;> simp

/-- Hearing an event never starts the wait, and the notification ends it. -/
theorem hear_validating {phase : Phase} {e : QueuedEvent} {b : Block} (h : phase.hear e = .validating b) :
    phase = .validating b ∧ e ≠ .minedBlockValidated := by
  unfold Phase.hear at h
  split at h
  · cases h
  · cases h
  · cases h
  · rename_i hother
    refine ⟨h, ?_⟩
    intro he
    exact hother b h he

theorem minerStep_validating {clock : UInt64} {fuel : ℕ} {b : Block}
    (h : (minerStep D id clock fuel s).1.phase = .validating b) :
    (s.phase = .enqueued b ∨ s.phase = .validating b) ∧
      (minerStep D id clock fuel s).1.events = s.events := by
  have hspec := minerStep_spec D id clock fuel s
  generalize minerStep D id clock fuel s = r at h hspec ⊢
  cases hspec with
  | blocked _ _ => exact ⟨.inr h, rfl⟩
  | await node events c => cases h; exact ⟨.inl rfl, rfl⟩
  | _ => cases h

theorem awaited_next_iff (h : Awaited s) : RegistersInTime s a ↔ Awaited (next D id s a) := by
  cases a with
  | receive sender message =>
    refine iff_of_true trivial ?_
    intro b hb
    obtain ⟨e, he, hv⟩ := h b hb
    exact ⟨e, List.mem_append_left _ he, hv⟩
  | processOne room =>
    refine iff_of_true trivial ?_
    obtain ⟨node, events, phase⟩ := s
    cases events with
    | nil => exact h
    | cons e rest =>
      intro b hb
      have hevents : (next D id ⟨node, e :: rest, phase⟩ (.processOne room)).events =
          rest ++ (e.effects node).filterMap Effect.queued := dispatch_events ⟨node, rest, phase⟩ room e
      have hphase : phase.hear e = .validating b := by
        rw [← dispatch_phase ⟨node, rest, phase⟩ room e]; exact hb
      obtain ⟨hvalidating, hother⟩ := hear_validating hphase
      obtain ⟨x, hx, hv⟩ := h b hvalidating
      -- the event taken is not the one awaited, or it is `BlockMined`, which is answered
      rcases List.mem_cons.mp hx with rfl | hx
      · cases x with
        | blockMined c =>
          refine ⟨.minedBlockValidated, ?_, rfl⟩
          rw [hevents]
          apply List.mem_append_right
          exact List.mem_filterMap.mpr ⟨_, minedBlockValidated_mem_effects node c, rfl⟩
        | minedBlockValidated => exact absurd rfl hother
        | received sender message => cases hv
        | sendPeerMessage receiver message => cases hv
      · exact ⟨x, by rw [hevents]; exact List.mem_append_left _ hx, hv⟩
  | miner clock fuel =>
    constructor
    · intro hreg b hb
      obtain ⟨hfrom, hevents⟩ := minerStep_validating hb
      change ∃ e ∈ (minerStep D id clock fuel s).1.events, isValidation e = true
      rw [hevents]
      rcases hfrom with hfrom | hfrom
      · exact hreg b hfrom
      · exact h b hfrom
    · intro hnext b hb
      have hstep : minerStep D id clock fuel s = ({ s with phase := .validating b }, []) := by
        simp only [minerStep, hb]
      obtain ⟨e, he, hv⟩ := hnext b (by rw [next, step, hstep])
      rw [next, step, hstep] at he
      exact ⟨e, he, hv⟩

/-- **The wake-up is lost exactly when the miner listens too late.** In every run
of a node with its miner, whatever arrives: the miner never waits for
`MinedBlockValidated` with neither that nor a `BlockMined` in the queue, if and
only if one of the two is in the queue whenever the miner registers its listener. -/
theorem wakeup_never_lost_iff (D : Digest) (id : String) (as : List Action) :
    (∀ pre, pre <+: as → Awaited (run (next D id) (boot D) pre)) ↔
      Along (next D id) RegistersInTime (boot D) as := by
  have hstart : Awaited (boot D) := by
    intro b hb
    cases hb
  exact throughout_iff_along (fun _ _ h => awaited_next_iff h) as hstart

/-- No answer comes in time; the event loop runs the validator and dispatches its
notification before the miner listens. -/
def lateListener : List Action :=
  minedRound ++
    [Action.miner 0 0, Action.miner 0 0, Action.processOne true, Action.processOne true, Action.miner 0 0]

/-- The block whose validation the miner waits for. -/
def validating? : Phase → Option Block
  | .validating block => some block
  | _ => none

theorem wakeup_lost :
    ¬ ∀ pre, pre <+: lateListener → Awaited (run (next votesDigest "miner") (boot votesDigest) pre) := by
  intro h
  obtain ⟨hphase, hqueue⟩ :
      (validating? (run (next votesDigest "miner") (boot votesDigest) lateListener).phase).isSome = true ∧
        (run (next votesDigest "miner") (boot votesDigest) lateListener).events.any isValidation = false := by
    decide +kernel
  cases hp : (run (next votesDigest "miner") (boot votesDigest) lateListener).phase with
  | validating b =>
    obtain ⟨e, he, hv⟩ := h lateListener (List.prefix_refl _) b hp
    rw [List.any_eq_false] at hqueue
    exact hqueue e he hv
  | _ => rw [hp] at hphase; cases hphase

/-! ## The answers of the peers -/

/-- An answer to `AddBlock`: who gave it, the block it is about, and its message. -/
structure Answer where
  peer : String
  block : Block
  message : NodeMessage
  deriving Repr, DecidableEq

def isAnswer : NodeMessage → Bool
  | .blockAccepted _ => true
  | .blockRejected _ => true
  | _ => false

/-- The sender and the message of a queued answer. -/
def heard : QueuedEvent → Option (String × NodeMessage)
  | .received sender message => if isAnswer message then some (sender, message) else none
  | _ => none

/-- A mining node among its full peers. What is on its way comes in any order. -/
structure Peering where
  full : FullNode
  peers : String → Node
  /-- `AddBlock` on its way to a peer. -/
  offers : List (String × Block)
  answers : List Answer
  /-- The answers in the node's event queue, in the order of the queue. -/
  arrived : List Answer
  /-- Who still owed an answer to another block when the present wait began. -/
  late : List String

/-- The node at its first start, among peers in any state. -/
def Peering.begin_ (D : Digest) (peers : String → Node) : Peering where
  full := boot D
  peers := peers
  offers := []
  answers := []
  arrived := []
  late := []

/-- Whose answer to which block the miner has not heard. -/
def Peering.owed (s : Peering) : List (String × Block) :=
  s.offers ++ (s.answers ++ s.arrived).map fun x => (x.peer, x.block)

inductive PeeringAction where
  /-- Any message but an answer to a block arrives. -/
  | receive (sender : String) (message : NodeMessage)
  | processOne (room : Bool)
  /-- The miner's next step; a broadcast goes to the `connected` full nodes. -/
  | miner (clock : UInt64) (fuel : ℕ) (connected : List String)
  /-- The peer of the offer at position `i` handles it. -/
  | judge (i : ℕ)
  | arrive (i : ℕ)
  | loseOffer (i : ℕ)
  | loseAnswer (i : ℕ)
  /-- A peer handles an event of its own. -/
  | peerEvent (peer : String) (e : Event)
  deriving Repr, DecidableEq

/-- The block of a broadcast to full nodes. -/
def offered : Effect → Option Block
  | .broadcast .full (.addBlock block) => some block
  | _ => none

/-- One step of the node `id` and its peers. -/
def peeringStep (D : Digest) (id : String) (s : Peering) : PeeringAction → Peering
  | .receive sender message =>
    if isAnswer message then s else { s with full := next D id s.full (.receive sender message) }
  | .processOne room =>
    { s with
      full := next D id s.full (.processOne room)
      arrived := if (s.full.events.head?.bind heard).isSome then s.arrived.tail else s.arrived }
  | .miner clock fuel connected =>
    let r := minerStep D id clock fuel s.full
    { s with
      full := r.1
      offers := s.offers ++ (r.2.filterMap offered).flatMap fun b => connected.map fun p => (p, b)
      late :=
        match s.full.phase with
        | .broadcasted b => (s.owed.filter fun o => o.2 ≠ b).map Prod.fst
        | _ => s.late }
  | .judge i =>
    match s.offers[i]? with
    | none => s
    | some (p, b) =>
      let r := onAddBlock (s.peers p) id b
      { s with
        peers := Function.update s.peers p r.1
        offers := s.offers.eraseIdx i
        answers := s.answers ++ (r.2.filterMap (toPeer id)).map fun m => ⟨p, b, m⟩ }
  | .arrive i =>
    match s.answers[i]? with
    | none => s
    | some x =>
      { s with
        full := next D id s.full (.receive x.peer x.message)
        answers := s.answers.eraseIdx i
        arrived := s.arrived ++ [x] }
  | .loseOffer i => { s with offers := s.offers.eraseIdx i }
  | .loseAnswer i => { s with answers := s.answers.eraseIdx i }
  | .peerEvent peer e => { s with peers := Function.update s.peers peer (handle (s.peers peer) e) }

/-- The message that ends the wait when the next event is processed, as what the
miner takes it for: the answer of its sender to the awaited block. -/
def taken (s : FullNode) : Option Answer :=
  match s.phase, s.events.head?.bind heard with
  | .listening b, some (p, m) => some ⟨p, b, m⟩
  | _, _ => none

/-- The step's message that ends the wait, if it does. -/
def ending (s : Peering) : PeeringAction → Option Answer
  | .processOne _ => taken s.full
  | _ => none

/-- What a peer that judges `b` may answer. -/
def verdictOn (b : Block) : NodeMessage → Bool
  | .blockAccepted header => decide (header = b.header)
  | .blockRejected _ => true
  | _ => false

/-- The message that ends the wait is its sender's answer to the awaited block. -/
def EndsRight (s : Peering) (a : PeeringAction) : Prop :=
  ∀ x ∈ ending s a, s.arrived.head? = some x ∧ verdictOn x.block x.message = true

/-- No wait is ended by a peer that owed an answer to another block when it began. -/
def Unowed (s : Peering) (a : PeeringAction) : Prop := ∀ x ∈ ending s a, x.peer ∉ s.late

instance (s : Peering) (a : PeeringAction) : Decidable (EndsRight s a) :=
  inferInstanceAs (Decidable (∀ x ∈ ending s a, _ ∧ _))

instance (s : Peering) (a : PeeringAction) : Decidable (Unowed s a) :=
  inferInstanceAs (Decidable (∀ x ∈ ending s a, _))

/-- Exactly such a message ends the wait, other than the time running out. -/
theorem leaves_iff_taken {b : Block} (room : Bool) (hb : s.phase = .listening b) :
    (next D id s (.processOne room)).phase ≠ .listening b ↔ (taken s).isSome := by
  obtain ⟨node, events, phase⟩ := s
  cases hb
  cases events with
  | nil => simp [next, step, processOne, taken]
  | cons e rest =>
    have hphase : (next D id ⟨node, e :: rest, .listening b⟩ (.processOne room)).phase =
        (Phase.listening b).hear e := dispatch_phase _ room e
    rw [hphase]
    cases e with
    | received sender message => cases message <;> simp [Phase.hear, taken, heard, isAnswer, Phase.round]
    | sendPeerMessage receiver message => simp [Phase.hear, taken, heard]
    | blockMined block => simp [Phase.hear, taken, heard]
    | minedBlockValidated => simp [Phase.hear, taken, heard]

/-- What a handler queues is no answer that arrived. -/
theorem filterMap_heard_queued (effects : List Effect) :
    (effects.filterMap Effect.queued).filterMap heard = [] := by
  rw [List.filterMap_filterMap]
  apply List.filterMap_eq_nil_iff.mpr
  intro e _
  cases e <;> rfl

theorem dispatch_heard (s : FullNode) (room : Bool) (e : QueuedEvent) :
    (dispatch s room e).1.events.filterMap heard = s.events.filterMap heard := by
  rw [dispatch_events, List.filterMap_append, filterMap_heard_queued, List.append_nil]

theorem minerStep_heard (D : Digest) (id : String) (clock : UInt64) (fuel : ℕ) (s : FullNode) :
    (minerStep D id clock fuel s).1.events.filterMap heard = s.events.filterMap heard := by
  have hspec := minerStep_spec D id clock fuel s
  generalize minerStep D id clock fuel s = r at hspec ⊢
  cases hspec with
  | enqueue node events block =>
    rw [List.filterMap_append]
    exact List.append_nil _
  | _ => rfl

/-- The miner starts to wait only from where it broadcast. -/
theorem minerStep_listening {clock : UInt64} {fuel : ℕ} {b : Block}
    (h : (minerStep D id clock fuel s).1.phase = .listening b) :
    s.phase = .broadcasted b ∧ (minerStep D id clock fuel s).2 = [] := by
  have hspec := minerStep_spec D id clock fuel s
  generalize minerStep D id clock fuel s = r at h hspec ⊢
  cases hspec with
  | blocked _ hblocks => rw [h] at hblocks; cases hblocks
  | listen node events c => cases h; exact ⟨rfl, rfl⟩
  | _ => cases h

/-- An event never starts the wait. -/
theorem hear_listening {phase : Phase} {e : QueuedEvent} {b : Block} (h : phase.hear e = .listening b) :
    phase = .listening b := by
  unfold Phase.hear at h
  split at h
  · cases h
  · cases h
  · cases h
  · exact h

/-- Whatever a peer sends the offering node is its verdict on the block. -/
theorem onAddBlock_verdict {n : Node} {b : Block} {m : NodeMessage}
    (h : m ∈ (onAddBlock n id b).2.filterMap (toPeer id)) : verdictOn b m = true := by
  by_cases ha : Accepts n b
  · rw [onAddBlock_of_accepts ha] at h
    have hm : m = .blockAccepted b.header := by simpa [toPeer] using h
    rw [hm]
    exact decide_eq_true rfl
  · rw [onAddBlock_of_not_accepts ha] at h
    have hm : m = .blockRejected (validateBlock n.blockchain n.spentTransactionsStore b) := by
      simpa [toPeer] using h
    rw [hm]
    rfl

theorem isAnswer_of_verdictOn {b : Block} {m : NodeMessage} (h : verdictOn b m = true) :
    isAnswer m = true := by
  cases m <;> first | rfl | cases h

/-- The answers on their way are verdicts on the blocks they are about, those in
the queue are the ones recorded, and in a wait only the late owe another answer. -/
structure Traced (s : Peering) : Prop where
  verdicts : ∀ x ∈ s.answers ++ s.arrived, verdictOn x.block x.message = true
  queued : s.full.events.filterMap heard = s.arrived.map fun x => (x.peer, x.message)
  current : ∀ b, s.full.phase = .listening b → ∀ o ∈ s.owed, o.1 ∉ s.late → o.2 = b

theorem Peering.owed_subset {s t : Peering} (ho : t.offers ⊆ s.offers)
    (ha : t.answers ++ t.arrived ⊆ s.answers ++ s.arrived) : t.owed ⊆ s.owed := by
  intro o h
  rcases List.mem_append.mp h with h | h
  · exact List.mem_append_left _ (ho h)
  · exact List.mem_append_right _ (List.map_subset _ ha h)

/-- A step that begins no wait and adds no debt keeps the wait's part. -/
theorem Traced.current_of_subset {s t : Peering} (h : Traced s)
    (hphase : ∀ b, t.full.phase = .listening b → s.full.phase = .listening b)
    (howed : t.owed ⊆ s.owed) (hlate : t.late = s.late) :
    ∀ b, t.full.phase = .listening b → ∀ o ∈ t.owed, o.1 ∉ t.late → o.2 = b := by
  intro b hb o ho hl
  rw [hlate] at hl
  exact h.current b (hphase b hb) o (howed ho) hl

theorem traced_begin (D : Digest) (peers : String → Node) : Traced (Peering.begin_ D peers) where
  verdicts := by intro x hx; cases hx
  queued := rfl
  current := by intro b hb; cases hb

theorem traced_processOne {s : Peering} (h : Traced s) (room : Bool) :
    Traced (peeringStep D id s (.processOne room)) := by
  obtain ⟨⟨node, events, phase⟩, peers, offers, answers, arrived, late⟩ := s
  cases events with
  | nil => exact h
  | cons e rest =>
    have hqueued := h.queued
    have hevents : (next D id ⟨node, e :: rest, phase⟩ (.processOne room)).events.filterMap heard =
        rest.filterMap heard := dispatch_heard ⟨node, rest, phase⟩ room e
    have hphase : ∀ b, (next D id ⟨node, e :: rest, phase⟩ (.processOne room)).phase = .listening b →
        phase = .listening b := by
      intro b hb
      apply hear_listening (e := e)
      rw [← hb]
      exact (dispatch_phase ⟨node, rest, phase⟩ room e).symm
    cases he : heard e with
    | none =>
      rw [List.filterMap_cons_none he] at hqueued
      have hstep : peeringStep D id ⟨⟨node, e :: rest, phase⟩, peers, offers, answers, arrived, late⟩
          (.processOne room) = ⟨next D id ⟨node, e :: rest, phase⟩ (.processOne room), peers, offers,
            answers, arrived, late⟩ := by simp [peeringStep, he]
      rw [hstep]
      exact ⟨h.verdicts, hevents.trans hqueued, h.current_of_subset hphase (List.Subset.refl _) rfl⟩
    | some x =>
      rw [List.filterMap_cons_some he] at hqueued
      have hstep : peeringStep D id ⟨⟨node, e :: rest, phase⟩, peers, offers, answers, arrived, late⟩
          (.processOne room) = ⟨next D id ⟨node, e :: rest, phase⟩ (.processOne room), peers, offers,
            answers, arrived.tail, late⟩ := by simp [peeringStep, he]
      have hless : answers ++ arrived.tail ⊆ answers ++ arrived :=
        ((List.tail_sublist arrived).append_left answers).subset
      rw [hstep]
      refine ⟨fun y hy => h.verdicts y (hless hy), ?_, h.current_of_subset hphase ?_ rfl⟩
      · rw [hevents, List.map_tail, ← hqueued]
        rfl
      · exact Peering.owed_subset (List.Subset.refl _) hless

theorem traced_miner {s : Peering} (h : Traced s) (clock : UInt64) (fuel : ℕ) (connected : List String) :
    Traced (peeringStep D id s (.miner clock fuel connected)) := by
  refine ⟨h.verdicts, (minerStep_heard D id clock fuel s.full).trans h.queued, ?_⟩
  intro b hb o ho hl
  obtain ⟨hfrom, hnothing⟩ := minerStep_listening hb
  have howed : (peeringStep D id s (.miner clock fuel connected)).owed = s.owed := by
    simp [Peering.owed, peeringStep, hnothing]
  have hlate : (peeringStep D id s (.miner clock fuel connected)).late =
      (s.owed.filter fun o => o.2 ≠ b).map Prod.fst := by
    simp only [peeringStep, hfrom]
  rw [howed] at ho
  rw [hlate] at hl
  by_contra hne
  exact hl (List.mem_map.mpr ⟨o, List.mem_filter.mpr ⟨ho, by simpa using hne⟩, rfl⟩)

theorem traced_judge {s : Peering} (h : Traced s) (i : ℕ) : Traced (peeringStep D id s (.judge i)) := by
  simp only [peeringStep]
  split
  · exact h
  · rename_i p b hi
    refine ⟨?_, h.queued, h.current_of_subset (fun _ hb => hb) ?_ rfl⟩
    · intro x hx
      simp only [List.mem_append, List.mem_map] at hx
      rcases hx with (hx | ⟨m, hm, rfl⟩) | hx
      · exact h.verdicts x (List.mem_append_left _ hx)
      · exact onAddBlock_verdict hm
      · exact h.verdicts x (List.mem_append_right _ hx)
    · -- the offer becomes the answer to it
      intro o ho
      simp only [Peering.owed, List.mem_append, List.mem_map] at ho ⊢
      rcases ho with ho | ⟨x, (hx | ⟨m, _, rfl⟩) | hx, rfl⟩
      · exact .inl (List.mem_of_mem_eraseIdx ho)
      · exact .inr ⟨x, .inl hx, rfl⟩
      · exact .inl (List.mem_of_getElem? hi)
      · exact .inr ⟨x, .inr hx, rfl⟩

theorem traced_arrive {s : Peering} (h : Traced s) (i : ℕ) : Traced (peeringStep D id s (.arrive i)) := by
  simp only [peeringStep]
  split
  · exact h
  · rename_i x hi
    have hx : x ∈ s.answers := List.mem_of_getElem? hi
    have hmoved : s.answers.eraseIdx i ++ (s.arrived ++ [x]) ⊆ s.answers ++ s.arrived := by
      intro y hy
      simp only [List.mem_append, List.mem_singleton] at hy ⊢
      rcases hy with hy | hy | rfl
      · exact .inl (List.mem_of_mem_eraseIdx hy)
      · exact .inr hy
      · exact .inl hx
    refine ⟨fun y hy => h.verdicts y (hmoved hy), ?_, h.current_of_subset (fun _ hb => hb) ?_ rfl⟩
    · have hanswer : isAnswer x.message = true := isAnswer_of_verdictOn (h.verdicts x (List.mem_append_left _ hx))
      show (s.full.events ++ [QueuedEvent.received x.peer x.message]).filterMap heard = _
      rw [List.filterMap_append, h.queued]
      simp [heard, hanswer]
    · exact Peering.owed_subset (List.Subset.refl _) hmoved

theorem traced_step {s : Peering} (h : Traced s) (a : PeeringAction) : Traced (peeringStep D id s a) := by
  cases a with
  | receive sender message =>
    simp only [peeringStep]
    split
    · exact h
    · rename_i hm
      refine ⟨h.verdicts, ?_, h.current⟩
      show (s.full.events ++ [QueuedEvent.received sender message]).filterMap heard = _
      rw [List.filterMap_append, h.queued]
      simp [heard, hm]
  | processOne room => exact traced_processOne h room
  | miner clock fuel connected => exact traced_miner h clock fuel connected
  | judge i => exact traced_judge h i
  | arrive i => exact traced_arrive h i
  | loseOffer i =>
    refine ⟨h.verdicts, h.queued, h.current_of_subset (fun _ hb => hb) ?_ rfl⟩
    exact Peering.owed_subset List.eraseIdx_subset (List.Subset.refl _)
  | loseAnswer i =>
    have hless : s.answers.eraseIdx i ++ s.arrived ⊆ s.answers ++ s.arrived :=
      ((List.eraseIdx_sublist s.answers i).append_right s.arrived).subset
    refine ⟨fun x hx => h.verdicts x (hless hx), h.queued, h.current_of_subset (fun _ hb => hb) ?_ rfl⟩
    exact Peering.owed_subset (List.Subset.refl _) hless
  | peerEvent peer e => exact ⟨h.verdicts, h.queued, h.current⟩

theorem taken_eq_some {s : FullNode} {x : Answer} (h : taken s = some x) :
    s.phase = .listening x.block ∧
      ∃ e rest, s.events = e :: rest ∧ heard e = some (x.peer, x.message) := by
  unfold taken at h
  split at h
  · rename_i b p m hb hm
    cases h
    obtain ⟨e, he, hheard⟩ := Option.bind_eq_some_iff.mp hm
    obtain ⟨rest, hrest⟩ := List.head?_eq_some_iff.mp he
    exact ⟨hb, e, rest, hrest, hheard⟩
  · cases h

/-- A message from a peer that was not late answers the awaited block. -/
theorem endsRight_of_unowed {s : Peering} {a : PeeringAction} (h : Traced s) (ha : Unowed s a) :
    EndsRight s a := by
  cases a with
  | processOne room =>
    intro x hx
    have hl : x.peer ∉ s.late := ha x hx
    obtain ⟨hb, e, rest, hev, he⟩ := taken_eq_some hx
    have hqueued := h.queued
    rw [hev, List.filterMap_cons_some he] at hqueued
    -- the first recorded answer is the one the first event delivers
    cases harr : s.arrived with
    | nil => rw [harr] at hqueued; cases hqueued
    | cons y ys =>
      rw [harr, List.map_cons, List.cons.injEq, Prod.mk.injEq] at hqueued
      obtain ⟨⟨hpeer, hmessage⟩, _⟩ := hqueued
      have hy : y ∈ s.answers ++ s.arrived := by rw [harr]; simp
      have howed : (y.peer, y.block) ∈ s.owed :=
        List.mem_append_right _ (List.mem_map.mpr ⟨y, hy, rfl⟩)
      have hblock : y.block = x.block := h.current x.block hb _ howed (by rw [← hpeer]; exact hl)
      have hxy : y = x := by
        obtain ⟨yp, yb, ym⟩ := y
        obtain ⟨xp, xb, xm⟩ := x
        cases hpeer; cases hmessage; cases hblock
        rfl
      rw [← hxy]
      exact ⟨rfl, h.verdicts y hy⟩
  | _ => intro x hx; cases hx

/-- **Only a late answer is taken for another block's.** In every run of a miner
among any full peers, whatever the order and delay of their answers: if no wait
is ended by a peer that owed an answer to another block when the wait began,
then every message that ends a wait is its sender's verdict on the block that
was waited for, and a `BlockAccepted` carries that block's header. -/
theorem waits_end_right (D : Digest) (id : String) (peers : String → Node) (as : List PeeringAction)
    (h : Along (peeringStep D id) Unowed (Peering.begin_ D peers) as) :
    Along (peeringStep D id) EndsRight (Peering.begin_ D peers) as :=
  h.imp_of_inv (fun _ a _ hs => traced_step hs a) (fun _ _ hs ha => endsRight_of_unowed hs ha)
    (traced_begin D peers)

/-! ## Values for closed runs -/

/-- Five more votes. -/
def moreVotes : List Transaction :=
  [votes.vote "BE65F3F012A76C84DD35FA7DC1766B9F8BB1DE59C4AF057108EB1A81490798EF" 1670000080000 "voter6",
    votes.vote "1D5915056FA939DBECB43A9886B6C08778AD6BD0054D5AA953B8E0910E9E995A" 1670000080001 "voter7",
    votes.vote "75786B720905AF44C65D5DBDB224DA0FCBCCB0D9615CE51E3CF2EB293594CDC8" 1670000080002 "voter8",
    votes.vote "DD30E682A6D66B355EE3D02D78B829D32BC38BE8E544AA740D991352880AF045" 1670000080003 "voter9",
    votes.vote "C93D77BF1F83B6C649F57E27DF38AC2F42D1F0B3A944A943087ED755B47B59E3" 1670000080004 "voter10"]

/-- The actual digests of two rounds: the second mines the further votes on the
first block with the clock at 1670000179724, and finds the nonce 0. -/
def roundsDigest : Digest where
  sha256Hex s :=
    if s = "0000BC31B8EF9E6C64CAA158C4324C119ABA5A1B2AB2AE072B99BD9F300A1156" ++
        "A9BD83C398196B98CF04EAAD858ED36360ADA8DE809BA2EF2222B48E06F81399" ++ "16700001797240" then
      "00003B66D19EECE06A838CEADFB3B85B7807211394FCAEAAAC1CE547BFD50DD8"
    else votesDigest.sha256Hex s
  merkleRoot hashes :=
    if hashes = moreVotes.map Transaction.hash then
      "A9BD83C398196B98CF04EAAD858ED36360ADA8DE809BA2EF2222B48E06F81399"
    else votesDigest.merkleRoot hashes

/-- An action of the node alone, with its broadcasts going to `connected`. -/
def among (connected : List String) : Action → PeeringAction
  | .receive sender message => .receive sender message
  | .processOne room => .processOne room
  | .miner clock fuel => .miner clock fuel connected

/-- The further votes are pooled, mined and broadcast, and an answer is awaited. -/
def secondRound : List Action :=
  moreVotes.map (fun tx => Action.receive "wallet" (.addTransaction tx)) ++
    List.replicate 5 (Action.processOne true) ++ List.replicate 12 (Action.miner 0 0) ++
    [Action.miner 1670000179724 1, Action.miner 0 0, Action.miner 0 0]

/-- Of two peers one accepts both blocks, and its answers are heard in the waits for them;
the other one still owes an answer to the first block when the wait for the second begins. -/
def timelyAnswer : List PeeringAction :=
  minedRound.map (among ["peer", "other"]) ++
    [PeeringAction.judge 0, PeeringAction.arrive 0, PeeringAction.processOne true] ++
    List.replicate 3 (.miner 0 0 []) ++ List.replicate 12 (PeeringAction.processOne true) ++
    secondRound.map (among ["peer"]) ++
    [PeeringAction.judge 1, PeeringAction.arrive 0, PeeringAction.processOne true]

/-- The peer accepts the first block, but the two seconds are over before its
answer comes; the node adds the block, mines a second one and hears the answer
while it waits for one to the second block. -/
def lateAnswer : List PeeringAction :=
  minedRound.map (among ["peer"]) ++ PeeringAction.judge 0 :: List.replicate 3 (.miner 0 0 []) ++
    List.replicate 12 (PeeringAction.processOne true) ++ secondRound.map (among ["peer"]) ++
    [PeeringAction.arrive 0, PeeringAction.processOne true]

theorem waits_end_right_timelyAnswer :
    Along (peeringStep roundsDigest "miner") EndsRight
        (Peering.begin_ roundsDigest fun _ => start roundsDigest) timelyAnswer :=
  waits_end_right roundsDigest "miner" _ timelyAnswer (by decide +kernel)

/-- The miner takes the late answer for one to the second block. -/
theorem late_answer_taken :
    ¬ Along (peeringStep roundsDigest "miner") EndsRight
        (Peering.begin_ roundsDigest fun _ => start roundsDigest) lateAnswer := by
  decide +kernel

end Krapi.MinerWaits
