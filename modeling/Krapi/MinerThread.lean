import Krapi.Miner
import Krapi.Listeners
import Krapi.Lib.Simulation

/-! # The miner's thread down to its listeners

`Phase.hear` lets the miner hear an answer the moment it is dispatched. Here the
thread only holds promises: it appends its listeners one by one while the event
loop goes on, a dispatch resolves promises and does no more, and the thread looks
at them later. Listeners of earlier rounds stay on the board. -/
namespace Krapi.MinerThread
open Krapi.BlockchainModels Krapi.ChainStore Krapi.Handlers Krapi.Mining Krapi.Miner
open Krapi.Messages Krapi.Lib.Run Krapi.Lib.Simulation Krapi.Lib.Subscriptions
open Krapi.Listeners (EventType)
open Krapi.Lib.Correlation (resultsOf)

def messageType : NodeMessage → PeerMessageType
  | .addTransaction _ => .addTransaction
  | .setTransactionStatus _ _ => .setTransactionStatus
  | .blockHeadersRequest _ => .blockHeadersRequest
  | .blockHeadersResponse _ => .blockHeadersResponse
  | .blockRequest _ => .blockRequest
  | .blockResponse _ => .blockResponse
  | .blockNotFoundResponse => .blockNotFoundResponse
  | .addBlock _ => .addBlock
  | .blockRejected _ => .blockRejected
  | .blockAccepted _ => .blockAccepted

/-- The type an event is dispatched under. -/
def eventType : QueuedEvent → EventType
  | .received _ message => .peerMessage (messageType message)
  | .sendPeerMessage _ _ => .internalMessage .sendPeerMessage
  | .blockMined _ => .internalNotification .blockMined
  | .minedBlockValidated => .internalNotification .minedBlockValidated

def accepted : EventType := .peerMessage .blockAccepted
def rejected : EventType := .peerMessage .blockRejected
def validated : EventType := .internalNotification .minedBlockValidated

/-- Where `Miner::task` stands, with the promises it holds. -/
inductive Thread where
  /-- Not at a wait for an event. -/
  | runs (phase : Phase)
  /-- In `any_event_of_type` between its two listeners. -/
  | accepting (block : Block) (accepted : ℕ)
  /-- In `wait_until`. -/
  | answering (block : Block) (accepted rejected : ℕ)
  | validating (block : Block) (validated : ℕ)
  deriving Repr, DecidableEq

structure ThreadedNode where
  node : Node
  events : List QueuedEvent
  board : Board EventType QueuedEvent
  thread : Thread

def boot (D : Digest) : ThreadedNode where
  node := start D
  events := []
  board := .empty
  thread := .runs .round

/-- `event_of_type` for one event; `next` is what the thread does with the promise. -/
def ThreadedNode.listen (s : ThreadedNode) (type : EventType) (next : ℕ → Thread) : ThreadedNode :=
  { s with
    board := s.board.subscribe type 1 fun _ => true
    thread := next s.board.subscriptions.length }

/-- The event a promise was resolved with. -/
def ThreadedNode.result? (s : ThreadedNode) (promise : ℕ) : Option QueuedEvent :=
  (resultsOf s.board.results promise).head?

/-- The node's own listeners hear the event as they do without a miner. -/
def processOne (s : ThreadedNode) (room : Bool) : ThreadedNode × List Effect :=
  match s.events with
  | [] => (s, [])
  | e :: rest =>
    let r := dispatch ⟨s.node, rest, .ended⟩ room e
    (⟨r.1.node, r.1.events, s.board.dispatch eventType e, s.thread⟩, r.2)

def minerStep (D : Digest) (id : String) (clock : UInt64) (fuel : ℕ) (s : ThreadedNode) :
    ThreadedNode × List Effect :=
  match s.thread with
  | .runs (.broadcasted block) => (s.listen accepted (.accepting block), [])
  | .runs (.enqueued block) => (s.listen validated (.validating block), [])
  | .runs phase =>
    let r := Miner.minerStep D id clock fuel ⟨s.node, s.events, phase⟩
    (⟨r.1.node, r.1.events, s.board, .runs r.1.phase⟩, r.2)
  | .accepting block a => (s.listen rejected (.answering block a), [])
  | .answering _ _ _ => (s, [])
  | .validating _ p => if (s.result? p).isSome then ({ s with thread := .runs .round }, []) else (s, [])

/-- `when_any` reports the promise, if it has its event; which of two is reported is left open. -/
def takeAnswer (s : ThreadedNode) (first : Bool) : ThreadedNode :=
  match s.thread with
  | .answering block a r =>
    match s.result? (if first then a else r) with
    | some e =>
      if eventType e = accepted then { s with thread := .runs (.decided block) }
      else { s with thread := .runs .round }
    | none => s
  | _ => s

/-- The two seconds are over before an answer has made it to the thread. -/
def timeOut (s : ThreadedNode) : ThreadedNode :=
  match s.thread with
  | .answering block _ _ => { s with thread := .runs (.decided block) }
  | _ => s

inductive ThreadAction where
  | receive (sender : String) (message : NodeMessage)
  | processOne (room : Bool)
  | miner (clock : UInt64) (fuel : ℕ)
  | takeAnswer (first : Bool)
  | timeOut
  deriving Repr, DecidableEq

def threadStep (D : Digest) (id : String) (s : ThreadedNode) : ThreadAction → ThreadedNode × List Effect
  | .receive sender message => ({ s with events := s.events ++ [.received sender message] }, [])
  | .processOne room => MinerThread.processOne s room
  | .miner clock fuel => MinerThread.minerStep D id clock fuel s
  | .takeAnswer first => (MinerThread.takeAnswer s first, [])
  | .timeOut => (MinerThread.timeOut s, [])

/-- A step with what was sent out so far. -/
def recorded {S A : Type} (f : S → A → S × List Effect) (r : S × List Effect) (a : A) : S × List Effect :=
  ((f r.1 a).1, r.2 ++ (f r.1 a).2)

/-! ## What the thread may rely on -/

/-- The phases in which `Phase.hear` does something. -/
def listens : Phase → Bool
  | .listening _ => true
  | .validating _ => true
  | _ => false

theorem hear_of_not_listens {phase : Phase} (h : listens phase = false) (e : QueuedEvent) :
    phase.hear e = phase := by
  cases phase <;> first | rfl | cases h

/-- `p` is the promise of a listener for one event of the type. -/
def Holds (b : Board EventType QueuedEvent) (p : ℕ) (type : EventType) : Prop :=
  ∃ since, b.subscriptions[p]? = some ⟨type, 1, fun _ => true, since⟩

/-- The promises the thread holds are those it appended listeners for. -/
def ThreadHolds (b : Board EventType QueuedEvent) : Thread → Prop
  | .runs phase => listens phase = false
  | .accepting _ a => Holds b a accepted
  | .answering _ a r => Holds b a accepted ∧ Holds b r rejected
  | .validating _ p => Holds b p validated

structure Sound (s : ThreadedNode) : Prop where
  kept : Kept eventType s.board
  holds : ThreadHolds s.board s.thread

theorem Holds.subscribe {b : Board EventType QueuedEvent} {p : ℕ} {type : EventType} (h : Holds b p type)
    (type' : EventType) (count : ℤ) (counts : QueuedEvent → Bool) :
    Holds (b.subscribe type' count counts) p type := by
  obtain ⟨since, hs⟩ := h
  exact ⟨since, List.getElem?_append_left (List.getElem?_eq_some_iff.mp hs).1 ▸ hs⟩

theorem holds_subscribe (b : Board EventType QueuedEvent) (type : EventType) :
    Holds (b.subscribe type 1 fun _ => true) b.subscriptions.length type :=
  ⟨_, List.getElem?_concat_length⟩

/-- A step outside the waits does not lead into one. -/
theorem listens_minerStep (D : Digest) (id : String) (clock : UInt64) (fuel : ℕ) (node : Node)
    (events : List QueuedEvent) (phase : Phase) (h : listens phase = false)
    (hb : ∀ block, phase ≠ .broadcasted block) (he : ∀ block, phase ≠ .enqueued block) :
    listens (Miner.minerStep D id clock fuel ⟨node, events, phase⟩).1.phase = false := by
  have hmoves := minerStep_spec D id clock fuel ⟨node, events, phase⟩
  revert hmoves
  generalize Miner.minerStep D id clock fuel ⟨node, events, phase⟩ = r
  intro hmoves
  cases hmoves with
  | blocked => exact h
  | listen _ _ block => exact absurd rfl (hb block)
  | await _ _ block => exact absurd rfl (he block)
  | _ => rfl

theorem sound_listen {s : ThreadedNode} {type : EventType} {next : ℕ → Thread} (h : Sound s)
    (hnext : ∀ b p, Holds b p type → (∀ q t, Holds s.board q t → Holds b q t) → ThreadHolds b (next p)) :
    Sound (s.listen type next) where
  kept := h.kept.subscribe type 1 fun _ => true
  holds := hnext _ _ (holds_subscribe s.board type) fun _ _ hq => hq.subscribe type 1 fun _ => true

theorem sound_minerStep (D : Digest) (id : String) (clock : UInt64) (fuel : ℕ) {s : ThreadedNode}
    (h : Sound s) : Sound (minerStep D id clock fuel s).1 := by
  have hholds := h.holds
  unfold minerStep
  split
  · exact sound_listen h fun b p hp _ => hp
  · exact sound_listen h fun b p hp _ => hp
  · rename_i phase hb he ht
    rw [ht] at hholds
    exact ⟨h.kept, listens_minerStep D id clock fuel _ _ phase hholds
      (fun block hp => hb block (by rw [hp])) fun block hp => he block (by rw [hp])⟩
  · rename_i block a ht
    rw [ht] at hholds
    exact sound_listen h fun b p hp hold => ⟨hold a _ hholds, hp⟩
  · exact h
  · split
    · exact ⟨h.kept, rfl⟩
    · exact h

theorem sound_threadStep (D : Digest) (id : String) (s : ThreadedNode) (a : ThreadAction) (h : Sound s) :
    Sound (threadStep D id s a).1 := by
  cases a with
  | receive sender message => exact ⟨h.kept, h.holds⟩
  | processOne room =>
    show Sound (processOne s room).1
    unfold processOne
    split
    · exact h
    · exact ⟨h.kept.dispatch _, h.holds⟩
  | miner clock fuel => exact sound_minerStep D id clock fuel h
  | takeAnswer first =>
    show Sound (takeAnswer s first)
    unfold takeAnswer
    split
    · split
      · split
        · exact ⟨h.kept, rfl⟩
        · exact ⟨h.kept, rfl⟩
      · exact h
    · exact h
  | timeOut =>
    show Sound (timeOut s)
    unfold timeOut
    split
    · exact ⟨h.kept, rfl⟩
    · exact h

/-! ## The thread and the phase -/

/-- The phases that may stand for the thread. While the thread waits for an answer,
the phase either has yet to listen, or has listened and will not hear any more: a
rejection ends the round, and what becomes an acceptance is a time-out to it. -/
def Stands (b : Board EventType QueuedEvent) : Thread → Phase → Prop
  | .runs phase, ψ => ψ = phase
  | .accepting block _, ψ => ψ = .broadcasted block
  | .answering block _ r, ψ =>
    if resultsOf b.results r = [] then ψ = .broadcasted block ∨ ψ = .decided block
    else ψ = .round ∨ ψ = .decided block
  | .validating block p, ψ =>
    if resultsOf b.results p = [] then ψ = .validating block else ψ = .round

/-- The node with a phase in the place of its thread, and what was sent. -/
def shadow (r : ThreadedNode × List Effect) (phase : Phase) : FullNode × List Effect :=
  (⟨r.1.node, r.1.events, phase⟩, r.2)

/-- What the thread's node becomes in a step, its shadows become from shadows. -/
def Matched (D : Digest) (id : String) (r : ThreadedNode × List Effect) (a : ThreadAction) : Prop :=
  ∀ after, Stands (threadStep D id r.1 a).1.board (threadStep D id r.1 a).1.thread after →
    ∃ before, Stands r.1.board r.1.thread before ∧ ∃ bs,
      run (recorded (Miner.step D id)) (shadow r before) bs =
        shadow (recorded (threadStep D id) r a) after

/-- Up to the phase, a dispatch does not depend on where the miner stands. -/
theorem dispatch_congr (node : Node) (events : List QueuedEvent) (phase : Phase) (room : Bool)
    (e : QueuedEvent) : dispatch ⟨node, events, phase⟩ room e =
      (⟨(dispatch ⟨node, events, .ended⟩ room e).1.node, (dispatch ⟨node, events, .ended⟩ room e).1.events,
        phase.hear e⟩, (dispatch ⟨node, events, .ended⟩ room e).2) := by
  cases e with
  | received sender message => cases message <;> cases phase <;> rfl
  | sendPeerMessage receiver message => cases phase <;> rfl
  | blockMined block => cases phase <;> rfl
  | minedBlockValidated => cases phase <;> rfl

/-- What may stand for the thread after a dispatch has heard the event as something
that may stand for it before, be it that it began to listen just then. -/
theorem stands_dispatch {b : Board EventType QueuedEvent} {thread : Thread} {after : Phase}
    (hkept : Kept eventType b) (hholds : ThreadHolds b thread) (e : QueuedEvent)
    (h : Stands (b.dispatch eventType e) thread after) :
    ∃ before, Stands b thread before ∧
      (before.hear e = after ∨
        ∃ block, before = .broadcasted block ∧ (Phase.listening block).hear e = after) := by
  cases thread with
  | runs phase =>
    have hafter : after = phase := h
    subst hafter
    exact ⟨after, rfl, .inl (hear_of_not_listens hholds e)⟩
  | accepting block a => exact ⟨.broadcasted block, rfl, .inl (h : after = _).symm⟩
  | answering block a r =>
    obtain ⟨-, since, hr⟩ := hholds
    have hresult := hkept.resultsOf_dispatch_one hr e
    by_cases hbefore : resultsOf b.results r = []
    · by_cases he : eventType e = rejected
      · have hafter : after = .round ∨ after = .decided block := by
          rwa [Stands, if_neg (by rw [hresult]; exact fun hand => hand.2 he)] at h
        obtain ⟨sender, reason, rfl⟩ : ∃ sender reason, e = .received sender (.blockRejected reason) := by
          cases e with
          | received sender message => cases message <;> first | exact ⟨_, _, rfl⟩ | cases he
          | _ => cases he
        rcases hafter with rfl | rfl
        · exact ⟨.broadcasted block, by rw [Stands, if_pos hbefore]; exact .inl rfl, .inr ⟨block, rfl, rfl⟩⟩
        · exact ⟨.decided block, by rw [Stands, if_pos hbefore]; exact .inr rfl, .inl rfl⟩
      · have hafter : after = .broadcasted block ∨ after = .decided block := by
          rwa [Stands, if_pos (hresult.mpr ⟨hbefore, he⟩)] at h
        refine ⟨after, by rwa [Stands, if_pos hbefore], .inl (hear_of_not_listens ?_ e)⟩
        rcases hafter with rfl | rfl <;> rfl
    · have hafter : after = .round ∨ after = .decided block := by
        rwa [Stands, if_neg (by rw [hresult]; exact fun hand => hbefore hand.1)] at h
      refine ⟨after, by rwa [Stands, if_neg hbefore], .inl (hear_of_not_listens ?_ e)⟩
      rcases hafter with rfl | rfl <;> rfl
  | validating block p =>
    obtain ⟨since, hp⟩ := hholds
    have hresult := hkept.resultsOf_dispatch_one hp e
    by_cases hbefore : resultsOf b.results p = []
    · refine ⟨.validating block, by rw [Stands, if_pos hbefore], .inl ?_⟩
      by_cases he : eventType e = validated
      · have hafter : after = .round := by
          rwa [Stands, if_neg (by rw [hresult]; exact fun hand => hand.2 he)] at h
        rw [hafter]
        cases e with
        | minedBlockValidated => rfl
        | received sender message => cases message <;> cases he
        | _ => cases he
      · have hafter : after = .validating block := by
          rwa [Stands, if_pos (hresult.mpr ⟨hbefore, he⟩)] at h
        rw [hafter]
        cases e with
        | minedBlockValidated => exact absurd rfl he
        | _ => rfl
    · have hafter : after = .round := by
        rwa [Stands, if_neg (by rw [hresult]; exact fun hand => hbefore hand.1)] at h
      exact ⟨.round, by rw [Stands, if_neg hbefore], .inl (by rw [hafter]; rfl)⟩

theorem matched_processOne (D : Digest) (id : String) {r : ThreadedNode × List Effect} (h : Sound r.1)
    (room : Bool) : Matched D id r (.processOne room) := by
  obtain ⟨⟨node, events, board, thread⟩, sent⟩ := r
  intro after hafter
  cases events with
  | nil => exact ⟨after, hafter, [], by simp [shadow, recorded, threadStep, processOne]⟩
  | cons e rest =>
    obtain ⟨before, hbefore, hhear | ⟨block, rfl, hhear⟩⟩ := stands_dispatch h.kept h.holds e hafter
    · refine ⟨before, hbefore, [.processOne room], ?_⟩
      simp only [run_cons, run_nil, shadow, recorded, Miner.step, Miner.processOne, threadStep, processOne]
      rw [dispatch_congr, hhear]
    · refine ⟨.broadcasted block, hbefore, [.miner 0 0, .processOne room], ?_⟩
      simp only [run_cons, run_nil, shadow, recorded, Miner.step, Miner.processOne, Miner.minerStep,
        threadStep, processOne, List.append_nil]
      rw [dispatch_congr, hhear]

/-- Nothing is sent and only the thread moves: what may stand for it after may
stand for it before. -/
theorem matched_of_stands {D : Digest} {id : String} {r : ThreadedNode × List Effect} {a : ThreadAction}
    (hnode : (threadStep D id r.1 a).1.node = r.1.node) (hevents : (threadStep D id r.1 a).1.events = r.1.events)
    (hsent : (threadStep D id r.1 a).2 = [])
    (h : ∀ after, Stands (threadStep D id r.1 a).1.board (threadStep D id r.1 a).1.thread after →
      Stands r.1.board r.1.thread after) : Matched D id r a := by
  intro after hafter
  refine ⟨after, h after hafter, [], ?_⟩
  simp [shadow, recorded, hnode, hevents, hsent]

/-- A promise has no result before its listener heard an event. -/
theorem resultsOf_subscribe {b : Board EventType QueuedEvent} (h : Kept eventType b) (type : EventType) :
    resultsOf (b.subscribe type 1 fun _ => true).results b.subscriptions.length = [] :=
  (resultsOf_eq_nil h.addressed le_rfl :)

theorem matched_miner (D : Digest) (id : String) {r : ThreadedNode × List Effect} (h : Sound r.1)
    (clock : UInt64) (fuel : ℕ) : Matched D id r (.miner clock fuel) := by
  obtain ⟨⟨node, events, board, thread⟩, sent⟩ := r
  cases thread with
  | runs phase =>
    by_cases hb : ∃ block, phase = .broadcasted block
    · obtain ⟨block, rfl⟩ := hb
      exact matched_of_stands rfl rfl rfl fun after hafter => hafter
    · by_cases he : ∃ block, phase = .enqueued block
      · obtain ⟨block, rfl⟩ := he
        intro after hafter
        have hnone : resultsOf (board.subscribe validated 1 fun _ => true).results board.subscriptions.length = [] :=
          resultsOf_subscribe h.kept _
        have hvalidating : after = .validating block := by
          change Stands (board.subscribe validated 1 fun _ => true)
            (.validating block board.subscriptions.length) after at hafter
          rwa [Stands, if_pos hnone] at hafter
        refine ⟨.enqueued block, rfl, [.miner clock fuel], ?_⟩
        rw [hvalidating]
        rfl
      · have hstep : threadStep D id ⟨node, events, board, .runs phase⟩ (.miner clock fuel) =
            (⟨(Miner.minerStep D id clock fuel ⟨node, events, phase⟩).1.node,
              (Miner.minerStep D id clock fuel ⟨node, events, phase⟩).1.events, board,
              .runs (Miner.minerStep D id clock fuel ⟨node, events, phase⟩).1.phase⟩,
              (Miner.minerStep D id clock fuel ⟨node, events, phase⟩).2) := by
          cases phase <;> first | rfl | exact absurd ⟨_, rfl⟩ hb | exact absurd ⟨_, rfl⟩ he
        intro after hafter
        rw [hstep] at hafter
        refine ⟨phase, rfl, [.miner clock fuel], ?_⟩
        rw [hafter]
        simp only [run_cons, run_nil, shadow, recorded, hstep, Miner.step]
  | accepting block a =>
    intro after hafter
    have hnone : resultsOf (board.subscribe rejected 1 fun _ => true).results board.subscriptions.length = [] :=
      resultsOf_subscribe h.kept _
    have hcases : after = .broadcasted block ∨ after = .decided block := by
      change Stands (board.subscribe rejected 1 fun _ => true)
        (.answering block a board.subscriptions.length) after at hafter
      rwa [Stands, if_pos hnone] at hafter
    rcases hcases with rfl | rfl
    · exact ⟨.broadcasted block, rfl, [], by simp [shadow, recorded, threadStep, minerStep, ThreadedNode.listen]⟩
    · refine ⟨.broadcasted block, rfl, [.miner clock fuel, .miner clock fuel], ?_⟩
      simp [shadow, recorded, threadStep, minerStep, ThreadedNode.listen, Miner.step, Miner.minerStep]
  | answering block a r => exact matched_of_stands rfl rfl rfl fun after hafter => hafter
  | validating block p =>
    cases hresult : resultsOf board.results p with
    | nil =>
      have hstep : threadStep D id ⟨node, events, board, .validating block p⟩ (.miner clock fuel) =
          (⟨node, events, board, .validating block p⟩, []) := by
        simp [threadStep, minerStep, ThreadedNode.result?, hresult]
      refine matched_of_stands ?_ ?_ ?_ ?_ <;> rw [hstep]
      exact fun after hafter => hafter
    | cons e es =>
      have hstep : threadStep D id ⟨node, events, board, .validating block p⟩ (.miner clock fuel) =
          (⟨node, events, board, .runs .round⟩, []) := by
        simp [threadStep, minerStep, ThreadedNode.result?, hresult]
      refine matched_of_stands ?_ ?_ ?_ ?_ <;> rw [hstep]
      intro after hafter
      show Stands board (.validating block p) after
      rw [Stands, if_neg (by rw [hresult]; exact List.cons_ne_nil _ _)]
      exact hafter

/-- In the wait for an answer, the miner may always be about to go on with its block. -/
theorem stands_decided (b : Board EventType QueuedEvent) (block : Block) (a r : ℕ) :
    Stands b (.answering block a r) (.decided block) := by
  show if _ then _ else _
  split
  · exact .inr rfl
  · exact .inr rfl

theorem matched_timeOut (D : Digest) (id : String) (r : ThreadedNode × List Effect) :
    Matched D id r .timeOut := by
  obtain ⟨⟨node, events, board, thread⟩, sent⟩ := r
  cases thread with
  | answering block a r =>
    refine matched_of_stands rfl rfl rfl ?_
    rintro after rfl
    exact stands_decided board block a r
  | _ => exact matched_of_stands rfl rfl rfl fun after hafter => hafter

theorem matched_takeAnswer (D : Digest) (id : String) {r : ThreadedNode × List Effect} (h : Sound r.1)
    (first : Bool) : Matched D id r (.takeAnswer first) := by
  obtain ⟨⟨node, events, board, thread⟩, sent⟩ := r
  cases thread with
  | answering block a r =>
    obtain ⟨⟨sinceA, ha⟩, sinceR, hr⟩ := h.holds
    cases hresult : (resultsOf board.results (if first then a else r)).head? with
    | none =>
      have hstep : takeAnswer ⟨node, events, board, .answering block a r⟩ first =
          ⟨node, events, board, .answering block a r⟩ := by
        simp [takeAnswer, ThreadedNode.result?, hresult]
      refine matched_of_stands ?_ ?_ rfl ?_ <;> simp only [threadStep, hstep]
      exact fun after hafter => hafter
    | some e =>
      by_cases he : eventType e = accepted
      · have hstep : takeAnswer ⟨node, events, board, .answering block a r⟩ first =
            ⟨node, events, board, .runs (.decided block)⟩ := by
          simp [takeAnswer, ThreadedNode.result?, hresult, he]
        refine matched_of_stands ?_ ?_ rfl ?_ <;> simp only [threadStep, hstep]
        rintro after rfl
        exact stands_decided board block a r
      · have hstep : takeAnswer ⟨node, events, board, .answering block a r⟩ first =
            ⟨node, events, board, .runs .round⟩ := by
          simp [takeAnswer, ThreadedNode.result?, hresult, he]
        -- an event that is no acceptance came to the other promise
        have hrejected : resultsOf board.results r ≠ [] := by
          intro hnil
          cases first with
          | true => exact he (h.kept.kind_of_result ha hresult)
          | false => simp [hnil] at hresult
        refine matched_of_stands ?_ ?_ rfl ?_ <;> simp only [threadStep, hstep]
        rintro after rfl
        show Stands board (.answering block a r) .round
        rw [Stands, if_neg hrejected]
        exact .inl rfl
  | _ => exact matched_of_stands rfl rfl rfl fun after hafter => hafter

theorem matched (D : Digest) (id : String) {r : ThreadedNode × List Effect} (h : Sound r.1)
    (a : ThreadAction) : Matched D id r a := by
  cases a with
  | receive sender message =>
    intro after hafter
    exact ⟨after, hafter, [.receive sender message], by simp [shadow, recorded, threadStep, Miner.step]⟩
  | processOne room => exact matched_processOne D id h room
  | miner clock fuel => exact matched_miner D id h clock fuel
  | takeAnswer first => exact matched_takeAnswer D id h first
  | timeOut => exact matched_timeOut D id r

/-- **The listeners do to the miner what the phases say.** However the steps of the
thread, its appending of one listener after the other, the events, the answers it
gets to see late and the time-outs interleave, and whatever listeners of earlier
rounds are still there: the node's stores, its queue and all it has sent are those
of a run in which the miner hears its answers at once. -/
theorem thread_refines (D : Digest) (id : String) (as : List ThreadAction) :
    let threaded := run (recorded (threadStep D id)) (boot D, []) as
    ∃ bs, let plain := run (recorded (Miner.step D id)) (Miner.boot D, []) bs
      plain.1.node = threaded.1.node ∧ plain.1.events = threaded.1.events ∧ plain.2 = threaded.2 ∧
        Stands threaded.1.board threaded.1.thread plain.1.phase := by
  intro threaded
  have hstands : ∃ phase, Stands threaded.1.board threaded.1.thread phase := by
    generalize threaded.1.board = b
    cases threaded.1.thread with
    | runs phase => exact ⟨phase, rfl⟩
    | accepting block a => exact ⟨_, rfl⟩
    | answering block a r => exact ⟨_, stands_decided b block a r⟩
    | validating block p =>
      by_cases hnone : resultsOf b.results p = []
      · exact ⟨_, (if_pos hnone).mpr rfl⟩
      · exact ⟨_, (if_neg hnone).mpr rfl⟩
  obtain ⟨phase, hphase⟩ := hstands
  have hboot : Sound (boot D) := ⟨kept_empty eventType, rfl⟩
  obtain ⟨t, ⟨before, hbefore, rfl⟩, bs, hbs⟩ := backward
    (I := fun r => Sound r.1) (R := fun r t => ∃ phase, Stands r.1.board r.1.thread phase ∧ t = shadow r phase)
    (f := recorded (threadStep D id)) (g := recorded (Miner.step D id)) (fun r a h => sound_threadStep D id r.1 a h)
    (by
      rintro r a t h ⟨after, hafter, rfl⟩
      obtain ⟨before, hbefore, bs, hbs⟩ := matched D id h a after hafter
      exact ⟨_, ⟨before, hbefore, rfl⟩, bs, hbs⟩)
    as hboot ⟨phase, hphase, rfl⟩
  have hround : before = .round := hbefore
  subst hround
  refine ⟨bs, ?_⟩
  rw [show (Miner.boot D, []) = shadow (boot D, []) .round from rfl, hbs]
  exact ⟨rfl, rfl, rfl, hphase⟩

end Krapi.MinerThread
