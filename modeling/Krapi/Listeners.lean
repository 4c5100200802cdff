import Krapi.EventQueue
import Krapi.Lib.Subscriptions

/-! # Listeners of the event queue

`process_one` hands an event first to the promise under its tag and then to the
listeners of its type. `event_of_type` appends a listener that counts down and
removes itself; `any_event_of_type` appends one for each type and takes what
comes first, and the others stay. The caller is on another thread than the event
loop: between two of its listeners, and before it looks at its promises, events are
processed. What a coroutine does once its event is there comes after the dispatch:
a listener appended during a dispatch does not hear it. -/
namespace Krapi.Listeners
open Krapi.Messages Krapi.EventQueue Krapi.Lib.Run Krapi.Lib.Subscriptions
open Krapi.Lib.Correlation (resultsOf)

inductive EventType where
  | signalingMessage (type : SignalingMessageType)
  | peerMessage (type : PeerMessageType)
  | internalMessage (type : InternalMessageType)
  | internalNotification (type : InternalNotificationType)
  deriving Repr, DecidableEq

variable {C : Type}

/-- The type an event is enqueued and dispatched under. -/
def type : Event C → EventType
  | .signalingMessage m => .signalingMessage m.type
  | .peerMessage m => .peerMessage m.type
  | .internalSignalingMessage m => .internalMessage m.type
  | .internalPeerMessage m => .internalMessage m.type
  | .stringNotification n => .internalNotification n.type
  | .intNotification n => .internalNotification n.type
  | .transactionNotification n => .internalNotification n.type
  | .blockNotification n => .internalNotification n.type
  | .emptyNotification n => .internalNotification n.type

/-- A call of `any_event_of_type`. The last three fields but one are logs: how many
events had been processed when it was made, when each of its listeners was appended,
and when `when_any` was given the promises. -/
structure Call (C : Type) where
  types : List EventType
  promises : List ℕ
  since : ℕ
  sinces : List ℕ
  watched : Option ℕ
  event : Option (Event C)

/-- The queue with its promises, the listeners `event_of_type` appended, and the
calls of `any_event_of_type`. -/
structure Loop (C : Type) where
  queue : Queue C
  board : Board EventType (Event C)
  calls : List (Call C)

namespace Loop

def create : Loop C := ⟨.create, .empty, []⟩

/-- Without a predicate every event counts. The `int` that counts down is an integer without
bounds here. -/
def eventOfType (s : Loop C) (type : EventType) (count : ℤ) (predicate : Option (Event C → Bool)) :
    Loop C :=
  { s with board := s.board.subscribe type count (predicate.getD fun _ => true) }

def anyEventOfType (s : Loop C) (types : List EventType) : Loop C :=
  { s with calls := s.calls ++ [⟨types, [], s.queue.processed.length, [], none, none⟩] }

/-- `for (auto type: types)`: the call `i` comes to its next type. -/
def pushNext (s : Loop C) (i : ℕ) : Loop C :=
  match s.calls[i]? with
  | some call =>
    match call.types[call.promises.length]? with
    | some type =>
      { s.eventOfType type 1 none with
        calls := s.calls.set i
          { call with
            promises := call.promises ++ [s.board.subscriptions.length]
            sinces := call.sinces ++ [s.queue.processed.length] } }
    | none => s
  | none => s

/-- The call `i` has a promise for each type and gives them to `when_any`, which goes
through them in their order for one that has its event. It takes no empty range. -/
def whenAny (s : Loop C) (i : ℕ) : Loop C :=
  match s.calls[i]? with
  | some call =>
    if call.types ≠ [] ∧ call.promises.length = call.types.length ∧ call.watched = none then
      { s with
        calls := s.calls.set i
          { call with watched := some s.queue.processed.length, event := s.board.ready call.promises } }
    else s
  | none => s

/-- The first of the promises to get its event resumes the call. -/
def resume (board : Board EventType (Event C)) (call : Call C) : Call C :=
  if call.watched.isSome ∧ call.event.isNone then { call with event := board.ready call.promises } else call

def processOne (s : Loop C) : Loop C :=
  match s.queue.queue with
  | [] => s
  | e :: _ =>
    let board := s.board.dispatch type e
    ⟨s.queue.processOne, board, s.calls.map (resume board)⟩

end Loop

inductive LoopAction (C : Type) where
  | register (tag : String)
  | enqueue (e : Event C)
  | eventOfType (type : EventType) (count : ℤ) (predicate : Option (Event C → Bool))
  | anyEventOfType (types : List EventType)
  | pushNext (call : ℕ)
  | whenAny (call : ℕ)
  | processOne

def loopStep (s : Loop C) : LoopAction C → Loop C
  | .register tag => { s with queue := s.queue.add tag }
  | .enqueue e => { s with queue := s.queue.enqueue e }
  | .eventOfType type count predicate => s.eventOfType type count predicate
  | .anyEventOfType types => s.anyEventOfType types
  | .pushNext i => s.pushNext i
  | .whenAny i => s.whenAny i
  | .processOne => s.processOne

/-! ## What the listeners heard -/

theorem processed_setResult (s : Queue C) (tag : String) (e : Event C) :
    (s.setResult tag e).processed = s.processed := by
  unfold Queue.setResult
  split <;> rfl

theorem processed_processOne {s : Queue C} {e : Event C} {rest : List (Event C)} (h : s.queue = e :: rest) :
    s.processOne.processed = s.processed ++ [e] := by
  unfold Queue.processOne
  rw [h]
  cases e <;> first | rfl | exact processed_setResult _ _ _

/-- How far a call has come: it holds a promise for each type it came to, and once it
looks at them it has what they and the log say. -/
structure Called (b : Board EventType (Event C)) (call : Call C) : Prop where
  holds : Holds b call.promises (call.types.zip call.sinces)
  length_sinces : call.sinces.length = call.promises.length
  length_promises : call.promises.length ≤ call.types.length
  sinces_between : ∀ n ∈ call.sinces, call.since ≤ n ∧ n ≤ call.watched.getD b.dispatched.length
  since_le : call.since ≤ call.watched.getD b.dispatched.length
  watched_le : ∀ w, call.watched = some w → w ≤ b.dispatched.length
  complete : call.watched.isSome → call.promises.length = call.types.length
  event_eq : call.event = call.watched.bind (awaited type b.dispatched (call.types.zip call.sinces))

section Called
variable {b : Board EventType (Event C)} {call : Call C} {t : EventType} {n : ℕ}

theorem zip_concat {A B : Type} {a : A} {b : B} : ∀ {as : List A} {bs : List B}, as[bs.length]? = some a →
    as.zip (bs ++ [b]) = as.zip bs ++ [(a, b)]
  | [], _, h => by cases h
  | a' :: as, [], h => by
    cases h
    simp
  | a' :: as, b' :: bs, h => congrArg ((a', b') :: ·) (zip_concat h)

theorem called_start (b : Board EventType (Event C)) (types : List EventType) :
    Called b ⟨types, [], b.dispatched.length, [], none, none⟩ where
  holds := by simp [Holds]
  length_sinces := rfl
  length_promises := Nat.zero_le _
  sinces_between := fun n hn => absurd hn List.not_mem_nil
  since_le := le_rfl
  watched_le := fun w hw => by cases hw
  complete := fun h => by cases h
  event_eq := rfl

theorem Called.subscribe (h : Called b call) (k : EventType) (count : ℤ) (counts : Event C → Bool) :
    Called (b.subscribe k count counts) call :=
  { h with holds := h.holds.subscribe k count counts }

theorem Called.pushNext (h : Called b call) (ht : call.types[call.promises.length]? = some t) :
    Called (b.subscribe t 1 fun _ => true)
      { call with
        promises := call.promises ++ [b.subscriptions.length]
        sinces := call.sinces ++ [b.dispatched.length] } := by
  have hlt : call.promises.length < call.types.length := (List.getElem?_eq_some_iff.mp ht).1
  have hwatched : call.watched = none := by
    cases hw : call.watched with
    | none => rfl
    | some w =>
      have := h.complete (by rw [hw]; rfl)
      omega
  have hsince := h.since_le
  have hbetween := h.sinces_between
  rw [hwatched] at hsince hbetween
  refine ⟨?_, ?_, ?_, ?_, ?_, h.watched_le, ?_, ?_⟩
  · rw [zip_concat (h.length_sinces ▸ ht)]
    exact h.holds.append t
  · simp [h.length_sinces]
  · simp only [List.length_append, List.length_singleton]
    omega
  · intro n hn
    simp only [hwatched]
    rcases List.mem_append.mp hn with hn | hn
    · exact hbetween n hn
    · rw [List.mem_singleton.mp hn]
      exact ⟨hsince, le_rfl⟩
  · exact h.since_le
  · simp [hwatched]
  · rw [h.event_eq]
    simp [hwatched]

theorem Called.whenAny (h : Called b call) (hkept : Kept type b)
    (hall : call.promises.length = call.types.length) (hwatched : call.watched = none) :
    Called b { call with watched := some b.dispatched.length, event := b.ready call.promises } := by
  have hsince := h.since_le
  have hbetween := h.sinces_between
  rw [hwatched] at hsince hbetween
  refine ⟨h.holds, h.length_sinces, h.length_promises, hbetween, hsince, ?_, fun _ => hall, ?_⟩
  · intro w hw
    cases hw
    exact le_rfl
  · rw [Option.bind_some, awaited_length]
    exact hkept.ready_eq h.holds

theorem resume_fields (b : Board EventType (Event C)) (call : Call C) :
    (Loop.resume b call).types = call.types ∧ (Loop.resume b call).promises = call.promises ∧
    (Loop.resume b call).since = call.since ∧ (Loop.resume b call).sinces = call.sinces ∧
    (Loop.resume b call).watched = call.watched := by
  unfold Loop.resume
  split <;> exact ⟨rfl, rfl, rfl, rfl, rfl⟩

theorem Called.dispatch (h : Called b call) (hkept : Kept type b) (e : Event C) :
    Called (b.dispatch type e) (Loop.resume (b.dispatch type e) call) := by
  obtain ⟨htypes, hpromises, hsince, hsinces, hwatched⟩ := resume_fields (b.dispatch type e) call
  have hlog : (b.dispatch type e).dispatched = b.dispatched ++ [e] := rfl
  have hgrows : call.watched.getD b.dispatched.length ≤
      call.watched.getD (b.dispatch type e).dispatched.length := by
    cases call.watched with
    | none => simp [hlog]
    | some w => exact le_rfl
  refine ⟨?_, ?_, ?_, ?_, ?_, ?_, ?_, ?_⟩
  · rw [htypes, hpromises, hsinces]
    exact h.holds
  · rw [hpromises, hsinces]
    exact h.length_sinces
  · rw [htypes, hpromises]
    exact h.length_promises
  · rw [hsince, hsinces, hwatched]
    exact fun n hn => ⟨(h.sinces_between n hn).1, (h.sinces_between n hn).2.trans hgrows⟩
  · rw [hsince, hwatched]
    exact h.since_le.trans hgrows
  · rw [hwatched]
    intro w hw
    have := h.watched_le w hw
    rw [hlog, List.length_append]
    omega
  · rw [htypes, hpromises, hwatched]
    exact h.complete
  · rw [htypes, hsinces, hwatched]
    unfold Loop.resume
    cases hw : call.watched with
    | none =>
      have hevent := h.event_eq
      rw [hw] at hevent
      exact hevent
    | some w =>
      have hevent := h.event_eq
      have hle := h.watched_le w hw
      rw [hw, Option.bind_some] at hevent
      rw [Option.bind_some, hlog, awaited_concat hle, ← hevent]
      cases hnone : call.event with
      | some e' => simpa using hnone
      | none =>
        -- none of its promises had its event, so what the board holds for it now came with this one
        rw [hnone] at hevent
        have hheld : ∀ x ∈ call.types.zip call.sinces, x.2 ≤ w := by
          intro x hx
          have := (h.sinces_between x.2 (List.of_mem_zip hx).2).2
          rwa [hw] at this
        have hfirst := firstHeard_of_awaited hheld hevent.symm
        have hready := (hkept.dispatch e).ready_eq h.holds
        rw [hlog, firstHeard_concat (fun x hx => (hheld x hx).trans hle) hfirst] at hready
        simpa using hready

end Called

/-- The listeners heard every event that was processed and are as their history says. -/
structure Sound (s : Loop C) : Prop where
  dispatched : s.board.dispatched = s.queue.processed
  kept : Kept type s.board
  called : ∀ call ∈ s.calls, Called s.board call

theorem sound_step (s : Loop C) (a : LoopAction C) (h : Sound s) : Sound (loopStep s a) := by
  have hset : ∀ {b : Board EventType (Event C)} {i : ℕ} {call : Call C}, Called b call →
      (∀ call ∈ s.calls, Called b call) → ∀ call' ∈ s.calls.set i call, Called b call' := by
    intro b i call hcall hold call' hmem
    rcases List.mem_or_eq_of_mem_set hmem with hmem | rfl
    · exact hold call' hmem
    · exact hcall
  cases a with
  | register tag => exact ⟨h.dispatched, h.kept, h.called⟩
  | enqueue e => exact ⟨h.dispatched, h.kept, h.called⟩
  | eventOfType t count predicate =>
    exact ⟨h.dispatched, h.kept.subscribe _ _ _, fun call hc => (h.called call hc).subscribe _ _ _⟩
  | anyEventOfType types =>
    refine ⟨h.dispatched, h.kept, ?_⟩
    intro call hc
    rcases List.mem_append.mp hc with hc | hc
    · exact h.called call hc
    · rw [List.mem_singleton.mp hc, ← h.dispatched]
      exact called_start s.board types
  | pushNext i =>
    show Sound (s.pushNext i)
    unfold Loop.pushNext
    cases hi : s.calls[i]? with
    | none => exact h
    | some call =>
      cases ht : call.types[call.promises.length]? with
      | none => simpa only [ht] using h
      | some t =>
        simp only [ht]
        refine ⟨h.dispatched, h.kept.subscribe t 1 fun _ => true, ?_⟩
        have hcall := (h.called call (List.mem_of_getElem? hi)).pushNext ht
        rw [h.dispatched] at hcall
        exact hset hcall fun call hc => (h.called call hc).subscribe t 1 fun _ => true
  | whenAny i =>
    show Sound (s.whenAny i)
    unfold Loop.whenAny
    cases hi : s.calls[i]? with
    | none => exact h
    | some call =>
      simp only
      split
      · rename_i hall
        refine ⟨h.dispatched, h.kept, ?_⟩
        have hcall := (h.called call (List.mem_of_getElem? hi)).whenAny h.kept hall.2.1 hall.2.2
        rw [h.dispatched] at hcall
        exact hset hcall h.called
      · exact h
  | processOne =>
    show Sound s.processOne
    unfold Loop.processOne
    split
    · exact h
    · rename_i e rest hq
      refine ⟨?_, h.kept.dispatch e, ?_⟩
      · show s.board.dispatched ++ [e] = _
        rw [processed_processOne hq, h.dispatched]
      · intro call hc
        obtain ⟨before, hbefore, rfl⟩ := List.mem_map.mp hc
        exact (h.called before hbefore).dispatch h.kept e

theorem sound_run (as : List (LoopAction C)) : Sound (run loopStep (Loop.create : Loop C) as) :=
  run_keeps sound_step as ⟨rfl, kept_empty type, fun _ h => absurd h List.not_mem_nil⟩

/-- Three notifications, of which the second does not count. -/
def secondCount : List (LoopAction Unit) :=
  let validated := fun tag => LoopAction.enqueue (.emptyNotification ⟨.minedBlockValidated, (), tag⟩)
  [.eventOfType (.internalNotification .minedBlockValidated) 2 (some fun e => e.tag ≠ "b"),
    validated "a", validated "b", validated "c", .processOne, .processOne, .processOne]

/-- **A wait for several types, from its call on.** In every interleaving, a call that
looks at its promises after `w` events gets, in the order of its types, the first
event that one of its listeners had heard by then, and if there is none the next
event of any of the types. If none of the types came up while it appended its
listeners, that is the first event of any of them since the call. -/
theorem any_event_of_type_first (as : List (LoopAction C)) (i : ℕ) (call : Call C) (w : ℕ)
    (h : (run loopStep (Loop.create : Loop C) as).calls[i]? = some call) (hw : call.watched = some w) :
    let log := (run loopStep (Loop.create : Loop C) as).queue.processed
    let next := fun n => (log.drop n).find? fun e => decide (type e ∈ call.types)
    call.event = ((call.types.zip call.sinces).findSome? fun x =>
        ((log.take w).drop x.2).find? fun e => decide (type e = x.1)).or (next w) ∧
      ((∀ e ∈ (log.take w).drop call.since, type e ∉ call.types) → call.event = next call.since) := by
  intro log next
  have hsound := sound_run as
  have hcall := hsound.called call (List.mem_of_getElem? h)
  have hlength : call.sinces.length = call.types.length :=
    hcall.length_sinces.trans (hcall.complete (by rw [hw]; rfl))
  have hkinds : (call.types.zip call.sinces).map Prod.fst = call.types :=
    List.map_fst_zip hlength.ge
  have hevent := hcall.event_eq
  rw [hw, Option.bind_some, hsound.dispatched] at hevent
  have hbetween := hcall.sinces_between
  have hsince := hcall.since_le
  rw [hw, Option.getD_some] at hsince
  constructor
  · rw [hevent, awaited, hkinds]
    rfl
  · intro hquiet
    have hlater : ∀ x ∈ call.types.zip call.sinces, call.since ≤ x.2 :=
      fun x hx => (hbetween x.2 (List.of_mem_zip hx).2).1
    rw [hevent, awaited_of_quiet hlater hsince (by rwa [hkinds]), hkinds]

section TwoCalls

def minedOrValidated : List EventType :=
  [.internalNotification .blockMined, .internalNotification .minedBlockValidated]

def happened (type : InternalNotificationType) (tag : String) : Event Unit :=
  .emptyNotification ⟨type, (), tag⟩

/-- Both listeners of the first call hear an event before it looks; the second call is
ready in time, and the listeners of the first one are still there. -/
def twoCalls : List (LoopAction Unit) :=
  [.anyEventOfType minedOrValidated, .pushNext 0, .pushNext 0,
    .enqueue (happened .minedBlockValidated "a"), .processOne,
    .enqueue (happened .blockMined "b"), .processOne, .whenAny 0,
    .anyEventOfType minedOrValidated, .pushNext 1,
    .enqueue (happened .dataChannelOpened "c"), .processOne, .pushNext 1, .whenAny 1,
    .enqueue (happened .minedBlockValidated "d"), .processOne,
    .enqueue (happened .blockMined "e"), .processOne]

theorem any_event_of_type_first_twoCalls :
    (run loopStep (Loop.create : Loop Unit) twoCalls).calls.map (·.event) =
      [some (happened .blockMined "b"), some (happened .minedBlockValidated "d")] := by
  have hcrowded := (any_event_of_type_first twoCalls 0
    ⟨minedOrValidated, [0, 1], 0, [0, 0], some 2, some (happened .blockMined "b")⟩ 2 rfl rfl).1
  have hquiet := (any_event_of_type_first twoCalls 1
    ⟨minedOrValidated, [2, 3], 2, [2, 3], some 3, some (happened .minedBlockValidated "d")⟩ 3 rfl rfl).2
      (by decide)
  exact congrArg₂ (fun first second => [first, second]) hcrowded hquiet

end TwoCalls

end Krapi.Listeners
