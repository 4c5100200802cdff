import Krapi.Handlers
import Krapi.PeerStates

/-! # Waiting for peers

`wait_for_peers` looks at each peer in the connection map, then registers two
listeners, and from then on looks at each peer whose data channel opens. A look
asks for the type and the state of the peer, each from the cache of its
connection or by a request, and puts the peer into a shared vector if they are
wanted; the call completes when the vector is long enough.

All else is interleaved with that: connections are made and closed, channels
open and close, peers change their states. What is at the other end of a
connection is known to nobody before its channel is open; through a channel that
closed nothing comes any more. The map is unordered, so the scan takes the
entries in any order and may or may not come to one made while it runs; reading
through a null entry is undefined behaviour and here reads as `Unknown`. -/
namespace Krapi.WaitForPeers
open Krapi.Handlers (PeerType)
open Krapi.PeerStates (PeerState)
open Krapi.Lib.Run

/-- The arguments of the call. -/
structure Wanted where
  count : BitVec 32
  types : Finset PeerType
  states : Finset PeerState

def Wanted.suits (w : Wanted) (type : PeerType) (state : PeerState) : Bool :=
  decide (type ∈ w.types ∧ state ∈ w.states)

/-- `identities->size() >= count`, where C++ turns the `int` into a `size_t`. -/
def Wanted.enough (w : Wanted) (size : ℕ) : Bool := decide ((w.count.signExtend 64).toNat ≤ size)

/-- What a request can be about. -/
inductive Question where
  | type | state
  deriving Repr, DecidableEq

inductive Answer where
  | type (type : PeerType)
  | state (state : PeerState)
  deriving Repr, DecidableEq

def Answer.question : Answer → Question
  | .type _ => .type
  | .state _ => .state

def Answer.of (type : PeerType) (state : PeerState) : Question → Answer
  | .type => .type type
  | .state => .state state

def Answer.unknown : Question → Answer := Answer.of .unknown .unknown

/-- `serial` tells the connections to one peer apart. -/
structure Connection where
  serial : ℕ
  peerType : PeerType
  peerState : PeerState
  /-- The peer at the other end, once the channel was open. -/
  remote : Option (PeerType × PeerState)
  closed : Bool
  deriving Repr, DecidableEq

def Connection.cached (c : Connection) : Question → Answer := Answer.of c.peerType c.peerState

def Connection.cache (c : Connection) : Answer → Connection
  | .type type => { c with peerType := type }
  | .state state => { c with peerState := state }

/-- A run of `details_getter` with what follows it. `asking` is the request it
is suspended on, with the connection that made it. -/
structure Look where
  peer : String
  /-- By the scan, not by a listener's task. -/
  scan : Bool
  type : Option PeerType
  state : Option PeerState
  asking : Option (Question × ℕ)
  deriving Repr, DecidableEq

def Look.at (peer : String) (scan : Bool) : Look := ⟨peer, scan, none, none, none⟩

def Look.read (l : Look) : Answer → Look
  | .type type => { l with type := some type, asking := none }
  | .state state => { l with state := some state, asking := none }

def Look.has (l : Look) : Question → Bool
  | .type => l.type.isSome
  | .state => l.state.isSome

inductive Event where
  | dataChannelOpened (peer : String)
  | dataChannelClosed (peer : String)
  | peerStateUpdate (peer : String) (state : PeerState)
  /-- The answer to the request of a look. -/
  | response (look : ℕ) (answer : Answer)
  deriving Repr, DecidableEq

inductive Phase where
  | idle
  /-- With the entries that the scan has still to come to. -/
  | scanning (rest : List String)
  /-- The scan was not enough; no listener is registered yet. -/
  | scanned
  | waiting
  | completed
  deriving Repr, DecidableEq

structure Manager where
  connectionMap : Std.ExtTreeMap String (Option Connection) compare
  /-- The number of connections made. -/
  made : ℕ
  events : List Event
  phase : Phase
  /-- All looks begun, each until it ends. -/
  looks : List (Option Look)
  identities : List String
  result : Option (List String)

/-- An entry made during the scan lies ahead of it, `ahead` entries away, or behind it. -/
def Phase.made (peer : String) (ahead : Option ℕ) : Phase → Phase
  | .scanning rest =>
    match ahead with
    | some k => .scanning (rest.take k ++ peer :: rest.drop k)
    | none => .scanning rest
  | phase => phase

def Phase.erased (peer : String) : Phase → Phase
  | .scanning rest => .scanning (rest.filter fun p => p != peer)
  | phase => phase

namespace Manager

def create : Manager := ⟨∅, 0, [], .idle, [], [], none⟩

def enqueue (s : Manager) (e : Event) : Manager := { s with events := s.events ++ [e] }

def connection (s : Manager) (peer : String) : Option Connection := s.connectionMap[peer]?.join

def setConnection (s : Manager) (peer : String) (c : Connection) : Manager :=
  { s with connectionMap := s.connectionMap.insert peer (some c) }

def look? (s : Manager) (i : ℕ) : Option Look := s.looks[i]?.join

/-! ## The surroundings -/

/-- `connect_to_peer` and `on_rtc_setup`. -/
def createConnection (s : Manager) (peer : String) (ahead : Option ℕ) : Manager :=
  if peer ∈ s.connectionMap then s
  else
    { s.setConnection peer ⟨s.made, .unknown, .unknown, none, false⟩ with
      made := s.made + 1
      phase := s.phase.made peer ahead }

/-- `onOpen` of a data channel, which reaches a peer of this type in this state. -/
def onOpen (s : Manager) (peer : String) (type : PeerType) (state : PeerState) : Manager :=
  match s.connection peer with
  | some c =>
    if c.remote = none then
      (s.setConnection peer { c with remote := some (type, state) }).enqueue (.dataChannelOpened peer)
    else s
  | none => s

def onClosed (s : Manager) (peer : String) : Manager :=
  match s.connection peer with
  | some c =>
    if c.remote.isSome && !c.closed then
      (s.setConnection peer { c with closed := true }).enqueue (.dataChannelClosed peer)
    else s
  | none => s

/-- The peer changes its state, and tells as long as the channel is open. -/
def setState (s : Manager) (peer : String) (state : PeerState) : Manager :=
  match s.connection peer with
  | some c =>
    match c.remote with
    | some (type, _) =>
      let s := s.setConnection peer { c with remote := some (type, state) }
      if c.closed then s else s.enqueue (.peerStateUpdate peer state)
    | none => s
  | none => s

def onPeerClosed (s : Manager) (peer : String) : Manager :=
  { s with connectionMap := s.connectionMap.erase peer, phase := s.phase.erased peer }

/-- What the peer of a look answers to its request. -/
def answer? (s : Manager) (i : ℕ) : Option Answer := do
  let l ← s.look? i
  let (question, _) ← l.asking
  let c ← s.connection l.peer
  let (type, state) ← c.remote
  if c.closed then none else some (Answer.of type state question)

def reply (s : Manager) (i : ℕ) : Manager :=
  match s.answer? i with
  | some answer => s.enqueue (.response i answer)
  | none => s

/-! ## Looking at a peer -/

def beginLook (s : Manager) (peer : String) (scan : Bool) : Manager :=
  { s with looks := s.looks ++ [some (Look.at peer scan)] }

def setLook (s : Manager) (i : ℕ) (l : Option Look) : Manager := { s with looks := s.looks.set i l }

/-- The look ends; one of a task then tests the length of the vector. -/
def finish (w : Wanted) (s : Manager) (i : ℕ) (l : Look) (type : PeerType) (state : PeerState) : Manager :=
  let identities := if w.suits type state then s.identities ++ [l.peer] else s.identities
  let s := { s.setLook i none with identities := identities }
  if !l.scan && w.enough identities.length then
    { s with result := s.result.or (some identities), phase := .completed }
  else s

def read (w : Wanted) (s : Manager) (i : ℕ) (l : Look) (answer : Answer) : Manager :=
  let l := l.read answer
  match l.type, l.state with
  | some type, some state => s.finish w i l type state
  | _, _ => s.setLook i (some l)

/-- `type_of` or `state_of`, up to its suspension. C++ leaves open which comes first. -/
def get (w : Wanted) (s : Manager) (i : ℕ) (question : Question) : Manager :=
  match s.look? i with
  | some l =>
    if l.asking.isSome || l.has question then s
    else
      match s.connection l.peer with
      | some c =>
        if c.cached question = Answer.unknown question then
          s.setLook i (some { l with asking := some (question, c.serial) })
        else s.read w i l (c.cached question)
      | none => s.read w i l (Answer.unknown question)
  | none => s

/-- The connection that made the request keeps the answer, if it is still there. -/
def keep (s : Manager) (peer : String) (serial : ℕ) (answer : Answer) : Manager :=
  match s.connection peer with
  | some c => if c.serial = serial then s.setConnection peer (c.cache answer) else s
  | none => s

/-- The promise of a request gets its result, and the look goes on. -/
def onResponse (w : Wanted) (s : Manager) (i : ℕ) (answer : Answer) : Manager :=
  match s.look? i with
  | some l =>
    match l.asking with
    | some (question, serial) =>
      if question = answer.question then (s.keep l.peer serial answer).read w i l answer else s
    | none => s
  | none => s

/-! ## The call -/

/-- The call begins; `order` is the order of the map's iteration. -/
def waitForPeers (s : Manager) (order : List String) : Manager :=
  if s.phase = .idle ∧ order.Perm s.connectionMap.keys then { s with phase := .scanning order } else s

def scans (s : Manager) : Bool := s.looks.any fun l => l.any Look.scan

/-- The loop of the scan comes to its next entry, or to its end. -/
def scanNext (w : Wanted) (s : Manager) : Manager :=
  match s.phase with
  | .scanning rest =>
    if s.scans then s
    else
      match rest with
      | [] =>
        if w.enough s.identities.length then
          { s with result := some s.identities, phase := .completed }
        else { s with phase := .scanned }
      | peer :: rest => { s with phase := .scanning rest }.beginLook peer true
  | _ => s

def appendListeners (s : Manager) : Manager :=
  if s.phase = .scanned then { s with phase := .waiting } else s

/-- Both listeners post this task. On any other event than the notification
`get` throws, which nobody sees. -/
def onDatachannelTask (s : Manager) : Event → Manager
  | .dataChannelOpened peer => s.beginLook peer false
  | _ => s

/-- The listeners of the call. -/
def dispatch (s : Manager) (e : Event) : Manager :=
  if s.phase = .waiting then s.onDatachannelTask e else s

/-- `operator[]` makes a null entry where there is none. -/
def onDatachannelOpened (s : Manager) (peer : String) : Manager :=
  { s with connectionMap := s.connectionMap.insertIfNew peer none }

def processOne (w : Wanted) (s : Manager) : Manager :=
  match s.events with
  | [] => s
  | e :: rest =>
    let s := { s with events := rest }
    match e with
    | .dataChannelOpened peer => (s.onDatachannelOpened peer).dispatch e
    | .dataChannelClosed _ => s
    | .peerStateUpdate _ _ => s.dispatch e
    | .response i answer => s.onResponse w i answer

end Manager

inductive Action where
  | createConnection (peer : String) (ahead : Option ℕ)
  | onOpen (peer : String) (type : PeerType) (state : PeerState)
  | onClosed (peer : String)
  | setState (peer : String) (state : PeerState)
  | onPeerClosed (peer : String)
  | reply (look : ℕ)
  | waitForPeers (order : List String)
  | scanNext
  | appendListeners
  | processOne
  | get (look : ℕ) (question : Question)
  deriving Repr, DecidableEq

def managerStep (w : Wanted) (s : Manager) : Action → Manager
  | .createConnection peer ahead => s.createConnection peer ahead
  | .onOpen peer type state => s.onOpen peer type state
  | .onClosed peer => s.onClosed peer
  | .setState peer state => s.setState peer state
  | .onPeerClosed peer => s.onPeerClosed peer
  | .reply i => s.reply i
  | .waitForPeers order => s.waitForPeers order
  | .scanNext => s.scanNext w
  | .appendListeners => s.appendListeners
  | .processOne => s.processOne w
  | .get i question => s.get w i question

/-! ## What a step does to vector and looks -/

/-- The look that the step goes on with, with what it has read then. -/
def goesOn (s : Manager) : Action → Option Look
  | .get i question => do
    let l ← s.look? i
    if l.asking.isSome || l.has question then none
    else
      match s.connection l.peer with
      | some c =>
        if c.cached question = Answer.unknown question then none else some (l.read (c.cached question))
      | none => some (l.read (Answer.unknown question))
  | .processOne =>
    match s.events with
    | .response i answer :: _ => do
      let l ← s.look? i
      let (question, _) ← l.asking
      if question = answer.question then some (l.read answer) else none
    | _ => none
  | _ => none

/-- The peer of a look that has read both, and found it wanted. -/
def Look.found (w : Wanted) (l : Look) : Option String :=
  match l.type, l.state with
  | some type, some state => if w.suits type state then some l.peer else none
  | _, _ => none

/-- The peer that the step puts into the vector. -/
def counts (w : Wanted) (s : Manager) (a : Action) : Option String := (goesOn s a).bind (Look.found w)

/-- The peers that are being looked at. -/
def looking (s : Manager) : List String := s.looks.filterMap fun l => l.map Look.peer

/-- The peer that the step begins to look at. -/
def begins (s : Manager) : Action → Option String
  | .scanNext =>
    match s.phase with
    | .scanning (peer :: _) => if s.scans then none else some peer
    | _ => none
  | .processOne =>
    match s.events with
    | .dataChannelOpened peer :: _ => if s.phase = .waiting then some peer else none
    | _ => none
  | _ => none

/-- **Everything a step can do to vector, result and looks**: append a peer, complete
the call with a vector that is long enough, begin a look, end one. A peer that
enters the vector leaves those that are being looked at. -/
structure Adds (w : Wanted) (s t : Manager) (counted begun : Option String) : Prop where
  identities : t.identities = s.identities ++ counted.toList
  result : t.result = s.result ∨ (t.result = some t.identities ∧ w.enough t.identities.length = true)
  looks : (counted.toList ++ looking t).Subperm (looking s ++ begun.toList)

variable {w : Wanted} {s : Manager} {a : Action} {i : ℕ} {l l' : Look}

/-- A step that touches none of them. -/
theorem Adds.nothing {t : Manager} (hidentities : t.identities = s.identities) (hresult : t.result = s.result)
    (hlooks : t.looks = s.looks) : Adds w s t none none where
  identities := by rw [hidentities]; simp
  result := .inl hresult
  looks := by
    unfold looking
    rw [hlooks]
    simpa using List.Subperm.refl _

@[simp] theorem Look.read_peer (l : Look) (answer : Answer) : (l.read answer).peer = l.peer := by
  cases answer <;> rfl

/-- A look may be replaced where it stands. -/
theorem looking_setLook (h : s.look? i = some l) (o : Option Look) :
    ∃ before after, looking s = before ++ l.peer :: after ∧
      looking (s.setLook i o) = before ++ ((o.map Look.peer).toList ++ after) := by
  have hi : s.looks[i]? = some (some l) := Option.join_eq_some_iff.mp h
  obtain ⟨hlt, hget⟩ := List.getElem?_eq_some_iff.mp hi
  have hsplit : s.looks = s.looks.take i ++ some l :: s.looks.drop (i + 1) := by
    rw [← hget, List.getElem_cons_drop, List.take_append_drop]
  refine ⟨(s.looks.take i).filterMap fun l => l.map Look.peer,
    (s.looks.drop (i + 1)).filterMap fun l => l.map Look.peer, ?_, ?_⟩
  · calc looking s = (s.looks.take i ++ some l :: s.looks.drop (i + 1)).filterMap fun l => l.map Look.peer :=
          congrArg (List.filterMap _) hsplit
      _ = _ := by rw [List.filterMap_append]; rfl
  · show (s.looks.set i o).filterMap _ = _
    rw [List.set_eq_take_append_cons_drop, if_pos hlt, List.filterMap_append]
    cases o <;> rfl

theorem adds_setLook (h : s.look? i = some l) (hpeer : l'.peer = l.peer) :
    Adds w s (s.setLook i (some l')) none none where
  identities := by simp [Manager.setLook]
  result := .inl rfl
  looks := by
    obtain ⟨before, after, hs, ht⟩ := looking_setLook h (some l')
    rw [hs, ht]
    simpa [hpeer] using List.Subperm.refl _

theorem adds_beginLook (s : Manager) (peer : String) (scan : Bool) :
    Adds w s (s.beginLook peer scan) none (some peer) where
  identities := by simp [Manager.beginLook]
  result := .inl rfl
  looks := by
    have hlooking : looking (s.beginLook peer scan) = looking s ++ [peer] := List.filterMap_append
    rw [hlooking]
    exact List.Subperm.refl _

theorem adds_finish (h : s.look? i = some l) (hpeer : l'.peer = l.peer) (type : PeerType) (state : PeerState) :
    Adds w s (s.finish w i l' type state) (if w.suits type state then some l'.peer else none) none := by
  have hids : (if w.suits type state then s.identities ++ [l'.peer] else s.identities) =
      s.identities ++ (if w.suits type state then some l'.peer else none).toList := by
    split <;> simp
  have hfound : (if w.suits type state then some l'.peer else none).toList.Sublist [l.peer] := by
    split
    · rw [hpeer]
      exact List.Sublist.refl _
    · exact List.nil_sublist _
  unfold Manager.finish
  rw [hids]
  generalize (if w.suits type state then some l'.peer else none) = found at hfound
  -- what leaves the looks is the peer that may enter the vector
  have hlooks : (found.toList ++ looking (s.setLook i none)).Subperm (looking s) := by
    obtain ⟨before, after, hs, ht⟩ := looking_setLook h none
    rw [hs, ht]
    have hmoved : (l.peer :: (before ++ after)).Subperm (before ++ l.peer :: after) :=
      List.perm_middle.symm.subperm
    exact (hfound.append_right _).subperm.trans hmoved
  rw [← List.append_nil (looking s)] at hlooks
  dsimp only
  split
  · rename_i henough
    rw [Bool.and_eq_true] at henough
    refine ⟨rfl, ?_, hlooks⟩
    cases hresult : s.result with
    | none =>
      refine .inr ⟨?_, henough.2⟩
      show (s.result.or _) = _
      rw [hresult, Option.none_or]
    | some r =>
      refine .inl ?_
      show (s.result.or _) = _
      rw [hresult, Option.some_or]
  · exact ⟨rfl, .inl rfl, hlooks⟩

theorem adds_read (h : s.look? i = some l) (answer : Answer) :
    Adds w s (s.read w i l answer) ((l.read answer).found w) none := by
  unfold Manager.read Look.found
  dsimp only
  split
  · exact adds_finish h (l.read_peer answer) _ _
  · exact adds_setLook h (l.read_peer answer)

theorem adds_get (s : Manager) (i : ℕ) (question : Question) :
    Adds w s (s.get w i question) (counts w s (.get i question)) none := by
  unfold Manager.get counts goesOn
  simp only [Option.bind_eq_bind]
  cases hl : s.look? i with
  | none => exact .nothing rfl rfl rfl
  | some l =>
    simp only [Option.bind_some]
    by_cases hbusy : (l.asking.isSome || l.has question) = true
    · simp only [hbusy, if_true]
      exact .nothing rfl rfl rfl
    · simp only [hbusy, Bool.false_eq_true, if_false]
      cases s.connection l.peer with
      | none => exact adds_read hl _
      | some c =>
        dsimp only
        by_cases hunknown : c.cached question = Answer.unknown question
        · simp only [hunknown, if_true]
          exact adds_setLook hl rfl
        · simp only [hunknown, if_false]
          exact adds_read hl _

theorem keep_eq (s : Manager) (peer : String) (serial : ℕ) (answer : Answer) :
    ∃ m, s.keep peer serial answer = { s with connectionMap := m } := by
  unfold Manager.keep
  split
  · split
    · exact ⟨_, rfl⟩
    · exact ⟨_, rfl⟩
  · exact ⟨_, rfl⟩

theorem adds_processOne (s : Manager) :
    Adds w s (s.processOne w) (counts w s .processOne) (begins s .processOne) := by
  unfold Manager.processOne counts goesOn begins
  cases hevents : s.events with
  | nil => exact .nothing rfl rfl rfl
  | cons e rest =>
    cases e with
    | dataChannelOpened peer =>
      simp only [Manager.dispatch, Manager.onDatachannelOpened, Manager.onDatachannelTask]
      by_cases hphase : s.phase = .waiting
      · simp only [hphase, if_true]
        have hbegin := adds_beginLook (w := w) { s with
          events := rest
          connectionMap := s.connectionMap.insertIfNew peer none } peer false
        exact ⟨hbegin.identities, hbegin.result, hbegin.looks⟩
      · simp only [hphase, if_false]
        exact .nothing rfl rfl rfl
    | dataChannelClosed peer => exact .nothing rfl rfl rfl
    | peerStateUpdate peer state =>
      refine .nothing ?_ ?_ ?_ <;>
      · simp only [Manager.dispatch, Manager.onDatachannelTask]
        split <;> rfl
    | response i answer =>
      have hlook : ({ s with events := rest } : Manager).look? i = s.look? i := rfl
      simp only [Manager.onResponse, hlook, Option.bind_eq_bind]
      cases hl : s.look? i with
      | none => exact .nothing rfl rfl rfl
      | some l =>
        simp only [Option.bind_some]
        cases l.asking with
        | none => exact .nothing rfl rfl rfl
        | some asked =>
          simp only [Option.bind_some]
          by_cases hquestion : asked.1 = answer.question
          · simp only [hquestion, if_true]
            obtain ⟨m, hm⟩ := keep_eq { s with events := rest } l.peer asked.2 answer
            rw [hm]
            have hread := adds_read (w := w) (s := { s with events := rest, connectionMap := m }) hl answer
            exact ⟨hread.identities, hread.result, hread.looks⟩
          · simp only [hquestion, if_false]
            exact .nothing rfl rfl rfl

theorem adds_scanNext (s : Manager) : Adds w s (s.scanNext w) none (begins s .scanNext) := by
  unfold Manager.scanNext begins
  cases s.phase with
  | idle | scanned | waiting | completed => exact .nothing rfl rfl rfl
  | scanning rest =>
    cases hscans : s.scans with
    | true => cases rest <;> exact .nothing rfl rfl rfl
    | false =>
      cases rest with
      | cons peer rest =>
        have hbegin := adds_beginLook (w := w) { s with phase := .scanning rest } peer true
        exact ⟨hbegin.identities, hbegin.result, hbegin.looks⟩
      | nil =>
        simp only [Bool.false_eq_true, if_false]
        split
        · rename_i henough
          have hsame : (looking s).Subperm (looking s ++ []) := by simpa using List.Subperm.refl (looking s)
          exact ⟨by simp, .inr ⟨rfl, henough⟩, hsame⟩
        · exact .nothing rfl rfl rfl

/-- The surroundings touch neither vector nor result nor looks. -/
theorem adds_step (w : Wanted) (s : Manager) (a : Action) :
    Adds w s (managerStep w s a) (counts w s a) (begins s a) := by
  cases a with
  | createConnection peer ahead =>
    refine .nothing ?_ ?_ ?_ <;>
    · simp only [managerStep, Manager.createConnection]
      split <;> rfl
  | onOpen peer type state =>
    refine .nothing ?_ ?_ ?_ <;>
    · simp only [managerStep, Manager.onOpen]
      split
      · split <;> rfl
      · rfl
  | onClosed peer =>
    refine .nothing ?_ ?_ ?_ <;>
    · simp only [managerStep, Manager.onClosed]
      split
      · split <;> rfl
      · rfl
  | setState peer state =>
    refine .nothing ?_ ?_ ?_ <;>
    · simp only [managerStep, Manager.setState]
      split
      · split
        · split <;> rfl
        · rfl
      · rfl
  | onPeerClosed peer => exact .nothing rfl rfl rfl
  | reply i =>
    refine .nothing ?_ ?_ ?_ <;>
    · simp only [managerStep, Manager.reply]
      split <;> rfl
  | waitForPeers order =>
    refine .nothing ?_ ?_ ?_ <;>
    · simp only [managerStep, Manager.waitForPeers]
      split <;> rfl
  | scanNext => exact adds_scanNext s
  | appendListeners =>
    refine .nothing ?_ ?_ ?_ <;>
    · simp only [managerStep, Manager.appendListeners]
      split <;> rfl
  | processOne => exact adds_processOne s
  | get i question => exact adds_get s i question

/-! ## Distinct identities -/

/-- A peer that a look finds wanted is not in the vector yet. -/
def CountsAnew (w : Wanted) (s : Manager) (a : Action) : Prop := ∀ peer ∈ counts w s a, peer ∉ s.identities

instance (w : Wanted) (s : Manager) (a : Action) : Decidable (CountsAnew w s a) :=
  inferInstanceAs (Decidable (∀ peer ∈ counts w s a, _))

/-- A look begins on a peer that is neither in the vector nor being looked at. -/
def LooksAnew (s : Manager) (a : Action) : Prop := ∀ peer ∈ begins s a, peer ∉ s.identities ++ looking s

instance (s : Manager) (a : Action) : Decidable (LooksAnew s a) :=
  inferInstanceAs (Decidable (∀ peer ∈ begins s a, _))

/-- No peer is twice among those counted and those being looked at. -/
def Single (s : Manager) : Prop := (s.identities ++ looking s).Nodup

theorem single_step (w : Wanted) (h : Single s) (hanew : LooksAnew s a) :
    CountsAnew w s a ∧ Single (managerStep w s a) := by
  have hbefore : (s.identities ++ (looking s ++ (begins s a).toList)).Nodup := by
    rw [← List.append_assoc]
    refine List.Nodup.append h (begins s a).toList_nodup fun peer hin hbegun => ?_
    exact hanew peer (Option.mem_toList.mp hbegun) hin
  have hafter : (s.identities ++ ((counts w s a).toList ++ looking (managerStep w s a))).Nodup := by
    obtain ⟨peers, hperm, hsub⟩ := (List.subperm_append_left s.identities).mpr (adds_step w s a).looks
    exact hperm.nodup_iff.mp (hbefore.sublist hsub)
  constructor
  · intro peer hpeer hin
    exact List.disjoint_of_nodup_append hafter hin (List.mem_append_left _ (Option.mem_toList.mpr hpeer))
  · show ((managerStep w s a).identities ++ looking (managerStep w s a)).Nodup
    rw [(adds_step w s a).identities, List.append_assoc]
    exact hafter

/-- Each peer is counted once, and the result was such a vector. -/
structure Apart (w : Wanted) (s : Manager) : Prop where
  once : s.identities.Nodup
  result : ∀ ids ∈ s.result, ids.Nodup ∧ w.enough ids.length = true

theorem apart_create (w : Wanted) : Apart w Manager.create :=
  ⟨List.nodup_nil, fun ids hids => by simp [Manager.create] at hids⟩

theorem apart_step (h : Apart w s) (hanew : CountsAnew w s a) : Apart w (managerStep w s a) := by
  unfold CountsAnew at hanew
  have hadds := adds_step w s a
  generalize managerStep w s a = t at hadds ⊢
  generalize counts w s a = o at hadds hanew
  have honce : t.identities.Nodup := by
    rw [hadds.identities]
    cases o with
    | none => simpa using h.once
    | some peer =>
      show (s.identities ++ [peer]).Nodup
      refine List.Nodup.append h.once (List.nodup_singleton peer) ?_
      rw [List.disjoint_singleton]
      exact hanew peer rfl
  refine ⟨honce, fun ids hids => ?_⟩
  rcases hadds.result with hresult | ⟨hresult, henough⟩
  · rw [hresult] at hids
    exact h.result ids hids
  · rw [hresult] at hids
    cases hids
    exact ⟨honce, henough⟩

/-- For a count that is not negative the test is the one that was meant. -/
theorem enough_iff {n : ℕ} (h : 0 ≤ w.count.toInt) : w.enough n = true ↔ w.count.toInt ≤ n := by
  have hmsb : w.count.msb = false := by
    rw [BitVec.msb_eq_toInt, decide_eq_false_iff_not]
    omega
  unfold Wanted.enough
  rw [decide_eq_true_iff, BitVec.signExtend_eq_setWidth_of_msb_false hmsb, BitVec.toNat_setWidth,
    BitVec.toInt_eq_toNat_of_msb hmsb]
  have := w.count.isLt
  omega

theorem le_of_enough {n : ℕ} (h : w.enough n = true) : w.count.toInt ≤ n := by
  by_cases hsign : 0 ≤ w.count.toInt
  · exact (enough_iff hsign).mp h
  · omega

/-- **Distinct identities**: if no peer is found wanted a second time, the call
completes with at least as many distinct peers as were asked for. That is so if
no look begins on a peer that is counted or being looked at. -/
theorem result_distinct (w : Wanted) (as : List Action) :
    (Along (managerStep w) (CountsAnew w) Manager.create as →
      ∀ pre, pre <+: as → ∀ ids ∈ (run (managerStep w) Manager.create pre).result,
        w.count.toInt ≤ ids.dedup.length) ∧
    (Along (managerStep w) LooksAnew Manager.create as →
      Along (managerStep w) (CountsAnew w) Manager.create as) := by
  constructor
  · intro h pre ⟨post, he⟩ ids hids
    rw [← he, along_append] at h
    have happart : Apart w (run (managerStep w) Manager.create pre) :=
      run_keeps_along (fun _ _ ha hs => apart_step hs ha) pre h.1 (apart_create w)
    obtain ⟨hnodup, henough⟩ := happart.result ids hids
    rw [hnodup.dedup]
    exact le_of_enough henough
  · intro h
    exact h.imp_of_inv (I := Single) (fun _ _ ha hs => (single_step w hs ha).2)
      (fun _ _ hs ha => (single_step w hs ha).1) List.nodup_nil

/-- A full node in this state connects, and a look finds it so. -/
def meets (peer : String) (state : PeerState) (look : ℕ) : List Action :=
  [.createConnection peer none, .onOpen peer .full state, .processOne, .get look .type, .reply look, .processOne,
    .get look .state, .reply look, .processOne]

def leaves (peer : String) : List Action := [.onClosed peer, .processOne, .onPeerClosed peer]

def listening : List Action := [.waitForPeers [], .scanNext, .appendListeners]

def twoFullNodes : Wanted := ⟨2, {.full}, {.open}⟩

/-- While the call waits, a peer that is not open yet comes and goes and comes again, and
another one connects. -/
theorem result_distinct_twoPeers :
    let as := listening ++ meets "p" .initialBlockDownload 0 ++ leaves "p" ++ meets "p" .open 1 ++ meets "q" .open 2
    (run (managerStep twoFullNodes) Manager.create as).result = some ["p", "q"] ∧
      (2 : ℤ) ≤ ["p", "q"].dedup.length := by
  intro as
  have hresult : (run (managerStep twoFullNodes) Manager.create as).result = some ["p", "q"] := by decide +kernel
  have hanew : Along (managerStep twoFullNodes) (CountsAnew twoFullNodes) Manager.create as :=
    (result_distinct twoFullNodes as).2 (by decide +kernel)
  exact ⟨hresult, (result_distinct twoFullNodes as).1 hanew as (List.prefix_refl as) ["p", "q"]
    (by rw [hresult]; rfl)⟩

/-- One peer that connects, is closed and connects again is counted as two. -/
theorem one_peer_counted_twice : ¬ ∀ w as, ∀ ids ∈ (run (managerStep w) Manager.create as).result,
    w.count.toInt ≤ ids.dedup.length := by
  intro h
  have hresult : (run (managerStep twoFullNodes) Manager.create
      (listening ++ meets "p" .open 0 ++ leaves "p" ++ meets "p" .open 1)).result = some ["p", "p"] := by
    decide +kernel
  have htwo := h twoFullNodes _ ["p", "p"] (by rw [hresult]; rfl)
  revert htwo
  decide

end Krapi.WaitForPeers
