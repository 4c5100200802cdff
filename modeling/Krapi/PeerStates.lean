import Krapi.Messages
import Krapi.Lib.Run

/-! # The cached state of a peer

A `PeerConnection` asks its peer for the peer's state when it has none and
keeps the answer. The peer also broadcasts each change of its state, and the
listener for that logs the new state and drops it: from the first answer on,
`state()` returns what the peer was in then. Calls run on any thread, so a call
may also lie between the answer and the write, or between the write and the
return, while the event loop processes the next message. -/
namespace Krapi.PeerStates
open Krapi.Messages Krapi.Lib.Run

inductive PeerState where
  | initialBlockDownload | waitingForPeers | closed | open | error | unknown
  deriving Repr, DecidableEq

/-- Where a call of `state()` stands. -/
inductive Call where
  | awaiting (tag : String)
  /-- The promise has its result, the coroutine did not go on yet. -/
  | answered (state : PeerState)
  /-- At `co_return`. -/
  | returning
  deriving Repr, DecidableEq

/-- The last two fields are logs: the state in the last message processed from
the peer, and for each completed call what it returned and what that state was. -/
structure PeerConnection where
  identity : String
  peerState : PeerState
  calls : List Call
  /-- The lines `Updated state of peer`. -/
  log : List PeerState
  announced : Option PeerState
  returned : List (PeerState × Option PeerState)

def Call.setResult (tag : String) (state : PeerState) : Call → Call
  | .awaiting t => if t = tag then .answered state else .awaiting t
  | c => c

namespace PeerConnection

def create (identity : String) : PeerConnection := ⟨identity, .unknown, [], [], none, []⟩

/-- `state()`, up to its first suspension; `tag` is the tag of its request. A
promise under a taken tag is not entered and its call fails. -/
def state (s : PeerConnection) (tag : String) : PeerConnection :=
  if s.peerState = .unknown then
    if .awaiting tag ∈ s.calls then s else { s with calls := s.calls ++ [.awaiting tag] }
  else { s with calls := s.calls ++ [.returning] }

/-- `state()`, from the answer to `co_return`. -/
def resume (s : PeerConnection) (i : ℕ) : PeerConnection :=
  match s.calls[i]? with
  | some (.answered st) => { s with peerState := st, calls := s.calls.set i .returning }
  | _ => s

def finish (s : PeerConnection) (i : ℕ) : PeerConnection :=
  match s.calls[i]? with
  | some .returning =>
    { s with calls := s.calls.eraseIdx i, returned := s.returned ++ [(s.peerState, s.announced)] }
  | _ => s

def onPeerStateUpdate (s : PeerConnection) (m : PeerMessage PeerState) : PeerConnection :=
  if m.senderIdentity = s.identity then { s with log := s.log ++ [m.content] } else s

/-- The state that a message of the peer carries. -/
def announces (s : PeerConnection) (m : PeerMessage PeerState) : Option PeerState :=
  if m.senderIdentity = s.identity ∧ (m.type = .peerStateResponse ∨ m.type = .peerStateUpdate) then
    some m.content
  else none

/-- `process_one` on a peer message: the promise under its tag, then the listeners. -/
def processOne (s : PeerConnection) (m : PeerMessage PeerState) : PeerConnection :=
  let s' := { s with
    calls := s.calls.map (Call.setResult m.tag m.content)
    announced := (s.announces m).or s.announced }
  if m.type = .peerStateUpdate then s'.onPeerStateUpdate m else s'

end PeerConnection

inductive CallAction where
  | state (tag : String)
  | processOne (m : PeerMessage PeerState)
  | resume (i : ℕ)
  | finish (i : ℕ)
  deriving Repr, DecidableEq

def connectionStep (s : PeerConnection) : CallAction → PeerConnection
  | .state tag => s.state tag
  | .processOne m => s.processOne m
  | .resume i => s.resume i
  | .finish i => s.finish i

/-- The action is not the processing of a message. -/
def Quiet : CallAction → Prop
  | .processOne _ => False
  | _ => True

/-- Each completed call returned the state announced last, if one was. -/
def Right (s : PeerConnection) : Prop := ∀ r ∈ s.returned, ∀ st ∈ r.2, r.1 = st

/-- What the connection keeps, and what its calls are about to keep or return, is `st`. -/
structure Agrees (s : PeerConnection) (st : PeerState) : Prop where
  cached : s.peerState ≠ .unknown → s.peerState = st
  answered : ∀ st', .answered st' ∈ s.calls → st' = st
  returning : .returning ∈ s.calls → s.peerState = st

/-- A processed message leaves the peer in the state that the connection has
kept or is about to keep, and answers no call with another. -/
def Fits (s : PeerConnection) : CallAction → Prop
  | .processOne m => ∀ st ∈ (s.announces m).or s.announced,
      Agrees s st ∧ (.awaiting m.tag ∈ s.calls → m.content = st)
  | _ => True

/-- Right so far, and for every call completed before the next message. -/
def Follows (s : PeerConnection) : Prop := Right s ∧ ∀ st ∈ s.announced, Agrees s st

variable {s : PeerConnection} {a : CallAction}

theorem follows_create (identity : String) : Follows (PeerConnection.create identity) :=
  ⟨fun r hr => by simp [PeerConnection.create] at hr, fun st hst => by simp [PeerConnection.create] at hst⟩

/-! ## One step -/

theorem follows_state (h : Follows s) (tag : String) : Follows (s.state tag) := by
  unfold PeerConnection.state
  split
  · split
    · exact h
    · refine ⟨h.1, fun st hst => ⟨(h.2 st hst).cached, ?_, ?_⟩⟩
      · intro st' hin
        exact (h.2 st hst).answered st' (by simpa using hin)
      · intro hin
        exact (h.2 st hst).returning (by simpa using hin)
  · rename_i hknown
    refine ⟨h.1, fun st hst => ⟨(h.2 st hst).cached, ?_, fun _ => (h.2 st hst).cached hknown⟩⟩
    intro st' hin
    exact (h.2 st hst).answered st' (by simpa using hin)

theorem follows_resume (h : Follows s) (i : ℕ) : Follows (s.resume i) := by
  unfold PeerConnection.resume
  split
  · rename_i st' hi
    refine ⟨h.1, fun st hst => ?_⟩
    have he : st' = st := (h.2 st hst).answered st' (List.mem_of_getElem? hi)
    refine ⟨fun _ => he, ?_, fun _ => he⟩
    intro st'' hin
    rcases List.mem_or_eq_of_mem_set hin with hin | hin
    · exact (h.2 st hst).answered st'' hin
    · cases hin
  · exact h

theorem follows_finish (h : Follows s) (i : ℕ) : Follows (s.finish i) := by
  unfold PeerConnection.finish
  split
  · rename_i hi
    refine ⟨?_, fun st hst => ⟨(h.2 st hst).cached, ?_, ?_⟩⟩
    · intro r hr st hst
      rcases List.mem_append.mp hr with hr | hr
      · exact h.1 r hr st hst
      · rw [List.mem_singleton.mp hr] at hst ⊢
        exact (h.2 st hst).returning (List.mem_of_getElem? hi)
    · intro st' hin
      exact (h.2 st hst).answered st' (List.mem_of_mem_eraseIdx hin)
    · intro hin
      exact (h.2 st hst).returning (List.mem_of_mem_eraseIdx hin)
  · exact h

theorem follows_quiet (h : Follows s) (hquiet : Quiet a) : Follows (connectionStep s a) := by
  cases a with
  | state tag => exact follows_state h tag
  | processOne m => exact hquiet.elim
  | resume i => exact follows_resume h i
  | finish i => exact follows_finish h i

/-- A message writes nothing but the log, the answers and what it announces. -/
theorem processOne_eq (s : PeerConnection) (m : PeerMessage PeerState) : ∃ log, s.processOne m = { s with
    log := log
    calls := s.calls.map (Call.setResult m.tag m.content)
    announced := (s.announces m).or s.announced } := by
  unfold PeerConnection.processOne PeerConnection.onPeerStateUpdate
  dsimp only
  split
  · split
    · exact ⟨_, rfl⟩
    · exact ⟨s.log, rfl⟩
  · exact ⟨s.log, rfl⟩

theorem mem_setResult_answered {calls : List Call} {tag : String} {st st' : PeerState} :
    .answered st' ∈ calls.map (Call.setResult tag st) ↔
      .answered st' ∈ calls ∨ (.awaiting tag ∈ calls ∧ st' = st) := by
  rw [List.mem_map]
  constructor
  · intro ⟨c, hc, he⟩
    cases c with
    | awaiting t =>
      by_cases ht : t = tag
      · subst ht
        simp only [Call.setResult, if_true, Call.answered.injEq] at he
        exact .inr ⟨hc, he.symm⟩
      · simp [Call.setResult, ht] at he
    | answered st'' => exact .inl (he ▸ hc)
    | returning => cases he
  · intro h
    rcases h with h | ⟨h, rfl⟩
    · exact ⟨_, h, rfl⟩
    · exact ⟨_, h, by simp [Call.setResult]⟩

theorem mem_setResult_returning {calls : List Call} {tag : String} {st : PeerState} :
    .returning ∈ calls.map (Call.setResult tag st) ↔ .returning ∈ calls := by
  rw [List.mem_map]
  constructor
  · intro ⟨c, hc, he⟩
    cases c with
    | awaiting t => by_cases ht : t = tag <;> simp [Call.setResult, ht] at he
    | answered st' => cases he
    | returning => exact hc
  · intro h
    exact ⟨_, h, rfl⟩

/-- A message fits exactly if the calls completed before the next one will be right. -/
theorem fits_processOne_iff (h : Right s) (m : PeerMessage PeerState) :
    Fits s (.processOne m) ↔ Follows (s.processOne m) := by
  obtain ⟨log, he⟩ := processOne_eq s m
  rw [he]
  constructor
  · intro hfits
    refine ⟨h, fun st hst => ?_⟩
    obtain ⟨hagrees, htag⟩ := hfits st hst
    refine ⟨hagrees.cached, ?_, fun hin => hagrees.returning (mem_setResult_returning.mp hin)⟩
    intro st' hin
    rcases mem_setResult_answered.mp hin with hin | ⟨hwaits, he⟩
    · exact hagrees.answered st' hin
    · rw [he]
      exact htag hwaits
  · intro hfollows st hst
    have hagrees := hfollows.2 st hst
    refine ⟨⟨hagrees.cached, ?_, fun hin => hagrees.returning (mem_setResult_returning.mpr hin)⟩, ?_⟩
    · intro st' hin
      exact hagrees.answered st' (mem_setResult_answered.mpr (.inl hin))
    · intro hin
      exact hagrees.answered m.content (mem_setResult_answered.mpr (.inr ⟨hin, rfl⟩))

theorem fits_iff (h : Follows s) : Fits s a ↔ Follows (connectionStep s a) := by
  cases a with
  | processOne m => exact fits_processOne_iff h.1 m
  | state tag | resume i | finish i => exact ⟨fun _ => follows_quiet h trivial, fun _ => trivial⟩

/-! ## Calls that complete before the next message -/

theorem right_finish {i : ℕ} (h : Right (s.finish i)) (hi : s.calls[i]? = some .returning) {st : PeerState}
    (hst : st ∈ s.announced) : s.peerState = st := by
  refine h (s.peerState, s.announced) ?_ st hst
  simp [PeerConnection.finish, hi]

/-- Being right whatever calls complete is agreeing with what was announced. -/
theorem follows_of_quiet (h : ∀ quiet, (∀ a ∈ quiet, Quiet a) → Right (run connectionStep s quiet)) :
    Follows s := by
  refine ⟨h [] (by simp), fun st hst => ⟨?_, ?_, ?_⟩⟩
  · intro hknown
    -- a call made now returns the cached state
    have hstate : s.state "" = { s with calls := s.calls ++ [.returning] } := if_neg hknown
    have hright := h [.state "", .finish s.calls.length] (by simp [Quiet])
    simp only [run_cons, run_nil, connectionStep, hstate] at hright
    exact right_finish hright (by simp) hst
  · intro st' hin
    -- the answered call keeps its answer and returns it
    obtain ⟨i, hi⟩ := List.mem_iff_getElem?.mp hin
    have hlt : i < s.calls.length := (List.getElem?_eq_some_iff.mp hi).1
    have hresume : s.resume i = { s with peerState := st', calls := s.calls.set i .returning } := by
      simp [PeerConnection.resume, hi]
    have hright := h [.resume i, .finish i] (by simp [Quiet])
    simp only [run_cons, run_nil, connectionStep, hresume] at hright
    exact right_finish hright (by simp [hlt]) hst
  · intro hin
    obtain ⟨i, hi⟩ := List.mem_iff_getElem?.mp hin
    have hright := h [.finish i] (by simp [Quiet])
    exact right_finish hright hi hst

/-- **The calls return what the peer announced last**, in every state that a run
passes and for every call completed before the next message, exactly if every
message processed fits what the connection keeps. -/
theorem returns_announced_iff (identity : String) (as : List CallAction) :
    (∀ pre, pre <+: as → ∀ quiet, (∀ a ∈ quiet, Quiet a) →
      Right (run connectionStep (PeerConnection.create identity) (pre ++ quiet))) ↔
    Along connectionStep Fits (PeerConnection.create identity) as := by
  rw [← throughout_iff_along (I := Follows) (fun _ _ h => fits_iff h) as (follows_create identity)]
  constructor
  · intro h pre hpre
    apply follows_of_quiet
    intro quiet hquiet
    rw [← run_append]
    exact h pre hpre quiet hquiet
  · intro h pre hpre quiet hquiet
    rw [run_append]
    exact (run_keeps_of_forall (p := Quiet) (fun _ _ ha hs => follows_quiet hs ha) quiet hquiet (h pre hpre)).1

/-- The peer answers while it downloads blocks and then opens; a later call
still returns the first state. -/
theorem stale_state_returned : ¬ ∀ identity as, Right (run connectionStep (PeerConnection.create identity) as) := by
  intro h
  have hright := h "p"
    [.state "t", .processOne ⟨.peerStateResponse, "p", "n", "t", .initialBlockDownload, 1⟩, .resume 0, .finish 0,
      .processOne ⟨.peerStateUpdate, "p", "n", "u", .open, 2⟩, .state "v", .finish 0]
  have hstale := hright (.initialBlockDownload, some .open) (by decide) .open rfl
  cases hstale

end Krapi.PeerStates
