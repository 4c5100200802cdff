import Krapi.Messages
import Krapi.Lib.Run
import Krapi.Lib.Correlation

/-! # Requests and their answers

`submit` adds a promise under the tag of the event and then enqueues the event;
`process_one` sets the result of the promise under an event's tag before it
dispatches the event. The node's own outgoing messages pass through the same
queue with the same tags and set no result. Registrations and arrivals come
from any thread at any time. -/
namespace Krapi.EventQueue
open Krapi.BlockchainModels Krapi.Messages Krapi.Lib.Run Krapi.Lib.Correlation

/-- The alternatives of `EventVariant`. -/
inductive Event (C : Type) where
  | signalingMessage (m : SignalingMessage C)
  | peerMessage (m : PeerMessage C)
  | internalSignalingMessage (m : InternalMessage (SignalingMessage C))
  | internalPeerMessage (m : InternalMessage (PeerMessage C))
  | stringNotification (n : InternalNotification String)
  | intNotification (n : InternalNotification ℤ)
  | transactionNotification (n : InternalNotification Transaction)
  | blockNotification (n : InternalNotification Block)
  | emptyNotification (n : InternalNotification Unit)
  deriving Repr, DecidableEq

variable {C : Type}

namespace Event

/-- An `InternalMessage` has the tag of its content. -/
def tag : Event C → String
  | .signalingMessage m => m.tag
  | .peerMessage m => m.tag
  | .internalSignalingMessage m => m.content.tag
  | .internalPeerMessage m => m.content.tag
  | .stringNotification n => n.tag
  | .intNotification n => n.tag
  | .transactionNotification n => n.tag
  | .blockNotification n => n.tag
  | .emptyNotification n => n.tag

def isInternalMessage : Event C → Bool
  | .internalSignalingMessage _ => true
  | .internalPeerMessage _ => true
  | _ => false

/-- What an event is matched by: the content of a string notification, else the tag. -/
def key : Event C → String
  | .stringNotification n => n.content
  | e => e.tag

/-- The event answers who waits under `tag`. -/
def answers (tag : String) (e : Event C) : Bool := !e.isInternalMessage && decide (e.key = tag)

end Event

/-- The queue and the `PromiseStore`, with a promise as the number of the
awaitable it resolves. The last three fields are logs: the awaitables handed
out, the events processed, and the results set. -/
structure Queue (C : Type) where
  queue : List (Event C)
  promises : Std.ExtTreeMap String ℕ compare
  awaitables : List (Awaitable String)
  processed : List (Event C)
  results : List (ℕ × Event C)

namespace Queue

def create : Queue C := ⟨[], ∅, [], [], []⟩

def enqueue (s : Queue C) (e : Event C) : Queue C := { s with queue := s.queue ++ [e] }

/-- `emplace` does not replace a promise that is there. -/
def add (s : Queue C) (tag : String) : Queue C :=
  { s with
    promises := s.promises.insertIfNew tag s.awaitables.length
    awaitables := s.awaitables ++ [⟨tag, s.processed.length⟩] }

def setResult (s : Queue C) (tag : String) (e : Event C) : Queue C :=
  match s.promises[tag]? with
  | some i => { s with promises := s.promises.erase tag, results := s.results ++ [(i, e)] }
  | none => s

/-- What the listeners do when the event is dispatched are steps of their own. -/
def processOne (s : Queue C) : Queue C :=
  match s.queue with
  | [] => s
  | e :: rest =>
    let s := { s with queue := rest, processed := s.processed ++ [e] }
    match e with
    | .internalSignalingMessage _ => s
    | .internalPeerMessage _ => s
    | .stringNotification n => s.setResult n.content e
    | _ => s.setResult e.tag e

/-- The first event after the registration of `a` that answers it. -/
def firstAnswer (s : Queue C) (a : Awaitable String) : Option (Event C) :=
  (s.processed.drop a.since).find? (Event.answers a.key)

end Queue

inductive QueueAction (C : Type) where
  /-- `create_awaitable`, or the first half of `submit`. -/
  | register (tag : String)
  /-- The second half of `submit`, `enqueue`, or an arrival from the network. -/
  | enqueue (e : Event C)
  | processOne
  deriving Repr, DecidableEq

def queueStep (s : Queue C) : QueueAction C → Queue C
  | .register tag => s.add tag
  | .enqueue e => s.enqueue e
  | .processOne => s.processOne

/-- No tag is registered while a promise with it is pending. -/
def RegistersFree (s : Queue C) : QueueAction C → Prop
  | .register tag => tag ∉ s.promises
  | _ => True

/-! ## The promise store as a desk -/

/-- What `process_one` matches an event by, if it does. -/
def matchedBy (e : Event C) : Option String := if e.isInternalMessage then none else some e.key

/-- The queue aside, an event queue is a desk. -/
def desk (s : Queue C) : Desk String (Event C) where
  pending tag := s.promises[tag]?
  awaitables := s.awaitables
  processed := s.processed
  results := s.results

theorem desk_add (s : Queue C) (tag : String) : desk (s.add tag) = (desk s).register tag := by
  have hpending : (fun t => (s.promises.insertIfNew tag s.awaitables.length)[t]?) =
      if (s.promises[tag]?).isSome then fun t => s.promises[t]?
      else Function.update (fun t => s.promises[t]?) tag (some s.awaitables.length) := by
    funext t
    rw [Std.ExtTreeMap.getElem?_insertIfNew]
    by_cases hpresent : tag ∈ s.promises
    · simp [hpresent]
    · have hnone : s.promises[tag]? = none := Std.ExtTreeMap.getElem?_eq_none hpresent
      by_cases ht : tag = t
      · subst ht
        simp [hpresent]
      · have hne : t ≠ tag := Ne.symm ht
        simp [hnone, ht, hne]
  exact congrArg (fun pending => Desk.mk pending (s.add tag).awaitables s.processed s.results) hpending

theorem desk_setResult (s : Queue C) (tag : String) (e : Event C) :
    desk (s.setResult tag e) = (desk s).settle tag e := by
  have hdesk : (desk s).pending tag = s.promises[tag]? := rfl
  unfold Queue.setResult Desk.settle
  rw [hdesk]
  cases s.promises[tag]? with
  | none => rfl
  | some i =>
    have hpending : (fun t => (s.promises.erase tag)[t]?) =
        Function.update (fun t => s.promises[t]?) tag none := by
      funext t
      rw [Std.ExtTreeMap.getElem?_erase]
      by_cases ht : tag = t
      · subst ht
        simp
      · have hne : t ≠ tag := Ne.symm ht
        simp [ht, hne]
    simp only [desk, hpending]

/-- Taking an event is processing it at the desk. -/
theorem desk_processOne (s : Queue C) :
    desk s.processOne = (s.queue.head?.map ((desk s).process matchedBy)).getD (desk s) := by
  obtain ⟨queue, promises, awaitables, processed, results⟩ := s
  cases queue with
  | nil => rfl
  | cons e rest =>
    cases e with
    | internalSignalingMessage m => rfl
    | internalPeerMessage m => rfl
    | _ => exact desk_setResult _ _ _

variable {s : Queue C} {a : QueueAction C}

theorem correlated_step (h : Correlated matchedBy (desk s)) (ha : RegistersFree s a) :
    Correlated matchedBy (desk (queueStep s a)) := by
  cases a with
  | register tag =>
    rw [queueStep, desk_add]
    exact h.register (Std.ExtTreeMap.getElem?_eq_none ha)
  | enqueue e => exact h
  | processOne =>
    rw [queueStep, desk_processOne]
    cases s.queue.head? with
    | none => exact h
    | some e => exact h.process e

theorem answers_eq_matchedBy (tag : String) (e : Event C) :
    e.answers tag = decide (matchedBy e = some tag) := by
  unfold Event.answers matchedBy
  cases e.isInternalMessage <;> simp

theorem firstAnswer_eq_answer (s : Queue C) (a : Awaitable String) :
    s.firstAnswer a = answer matchedBy s.processed a := by
  unfold Queue.firstAnswer answer
  congr 1
  funext e
  exact answers_eq_matchedBy a.key e

/-- **Every awaitable gets the first answer after its registration.** In every
run of registrations, arrivals and `process_one`, with no tag registered while
it is pending: an awaitable is resolved with the first event processed after
its registration that is no `InternalMessage` and whose key is its tag, once,
and not before there is one, so none that comes is missed; every result is of
such an event; and the tags in the `PromiseStore` are those of the awaitables
with no such event yet. -/
theorem awaitable_gets_first_answer (as : List (QueueAction C))
    (h : Along queueStep RegistersFree Queue.create as) :
    let s := run queueStep Queue.create as
    (∀ i a, s.awaitables[i]? = some a → resultsOf s.results i = (s.firstAnswer a).toList) ∧
      (∀ i a e, s.awaitables[i]? = some a → e ∈ s.processed.drop a.since → e.answers a.key = true →
        ∃ first, resultsOf s.results i = [first]) ∧
      (∀ r ∈ s.results, r.2.isInternalMessage = false ∧
        ∃ a, s.awaitables[r.1]? = some a ∧ r.2.key = a.key) ∧
      ∀ tag, tag ∈ s.promises ↔ ∃ a ∈ s.awaitables, a.key = tag ∧ s.firstAnswer a = none := by
  have hstart : Correlated matchedBy (desk (Queue.create : Queue C)) := by
    have hempty : desk (Queue.create : Queue C) = Desk.empty := by
      simp [desk, Queue.create, Desk.empty]
    rw [hempty]
    exact correlated_empty matchedBy
  have hrun := run_keeps_along (I := fun s => Correlated matchedBy (desk s))
    (fun _ _ ha hs => correlated_step hs ha) as h hstart
  intro s
  have hresolved : ∀ i a, s.awaitables[i]? = some a →
      resultsOf s.results i = (s.firstAnswer a).toList := by
    intro i a ha
    rw [firstAnswer_eq_answer]
    exact hrun.resolved i a ha
  refine ⟨hresolved, ?_, ?_, ?_⟩
  · intro i a e ha he hans
    have hsome : (s.firstAnswer a).isSome = true := List.find?_isSome.mpr ⟨e, he, hans⟩
    obtain ⟨first, hfirst⟩ := Option.isSome_iff_exists.mp hsome
    exact ⟨first, by rw [hresolved i a ha, hfirst]; rfl⟩
  · intro r hr
    obtain ⟨a, ha, hkey⟩ := hrun.addressed r hr
    unfold matchedBy at hkey
    split at hkey
    · cases hkey
    · rename_i hinternal
      exact ⟨by simpa using hinternal, a, ha, Option.some.inj hkey⟩
  · intro tag
    rw [Std.ExtTreeMap.mem_iff_isSome_getElem?, Option.isSome_iff_exists]
    constructor
    · rintro ⟨i, hi⟩
      obtain ⟨a, ha, hak, hnone⟩ := (hrun.pending_iff tag i).mp hi
      exact ⟨a, List.mem_of_getElem? ha, hak, by rw [firstAnswer_eq_answer]; exact hnone⟩
    · rintro ⟨a, ha, hak, hnone⟩
      rw [firstAnswer_eq_answer] at hnone
      obtain ⟨i, hi⟩ := List.mem_iff_getElem?.mp ha
      exact ⟨i, (hrun.pending_iff tag i).mpr ⟨a, hi, hak, hnone⟩⟩

instance (s : Queue C) (a : QueueAction C) : Decidable (RegistersFree s a) :=
  match a with
  | .register tag => inferInstanceAs (Decidable (tag ∉ s.promises))
  | .enqueue _ => inferInstanceAs (Decidable True)
  | .processOne => inferInstanceAs (Decidable True)

/-- A request, its outgoing message, the reply and a late copy of the reply; the
tag is used again only after the reply. -/
def requestTwice : List (QueueAction Unit) :=
  [.register "tag", .enqueue (.internalPeerMessage ⟨.sendPeerMessage, request, 0, 0⟩),
    .enqueue (.peerMessage reply), .processOne, .processOne, .register "tag",
    .enqueue (.peerMessage reply), .processOne]
where
  request : PeerMessage Unit := ⟨.peerTypeRequest, "a", "b", "tag", (), 0⟩
  reply : PeerMessage Unit := ⟨.peerTypeResponse, "b", "a", "tag", (), 1⟩

theorem awaitable_gets_first_answer_requestTwice :
    resultsOf (run queueStep Queue.create requestTwice).results 0 =
      ((run queueStep Queue.create requestTwice).firstAnswer ⟨"tag", 0⟩).toList :=
  (awaitable_gets_first_answer requestTwice (by decide +kernel)).1 0 ⟨"tag", 0⟩ (by decide +kernel)

end Krapi.EventQueue
