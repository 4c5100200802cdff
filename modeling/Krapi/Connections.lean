import Krapi.Messages
import Krapi.Lib.Run

/-! # The connection map of the peer manager

`PeerManager` keeps a shared pointer to a `PeerConnection` for each peer. The
signaling server adds and removes peers, WebRTC opens channels, and the two
overtake each other: an offering connection has its data channel from the
start, an answering one only when WebRTC reports it, and the notification that
a channel opened is a queued event like the one that its peer is gone.

A pointer is the position of its object among all connections made, or null.
Dereferencing null is undefined behaviour; here it leaves a fault in a log that
nothing reads. -/
namespace Krapi.Connections
open Krapi.Messages Krapi.Lib.Run

/-- `channel` is `m_datachannel`, and whether it is open. -/
structure Connection where
  identity : String
  offering : Bool
  channel : Option Bool
  deriving Repr, DecidableEq

inductive Fault where
  | nullConnection (peer : String)
  | nullDatachannel (peer : String)
  deriving Repr, DecidableEq

inductive SignalingEvent where
  | peerAvailable (peer : String)
  | rtcSetup (sender : String)
  | peerClosed (peer : String)
  deriving Repr, DecidableEq

inductive ManagerEvent (C : Type) where
  | signaling (e : SignalingEvent)
  | dataChannelOpened (peer : String)
  | dataChannelClosed (peer : String)
  | sendPeerMessage (m : InternalMessage (PeerMessage C))
  deriving Repr, DecidableEq

structure Manager (C : Type) where
  events : List (ManagerEvent C)
  connectionMap : Std.ExtTreeMap String (Option ℕ) compare
  connections : List Connection
  /-- The pointers that posted broadcasts hold a copy of. -/
  posted : List ℕ
  sent : List (PeerMessage C)
  /-- Handed to the retry handler. -/
  retried : List (InternalMessage (PeerMessage C))
  faults : List Fault

variable {C : Type}

namespace Manager

def create : Manager C := ⟨[], ∅, [], [], [], [], []⟩

def enqueue (s : Manager C) (e : ManagerEvent C) : Manager C := { s with events := s.events ++ [e] }

def fault (s : Manager C) (f : Fault) : Manager C := { s with faults := s.faults ++ [f] }

/-- Access through the pointer that the map holds for `peer`. -/
def access (s : Manager C) (peer : String) : Option ℕ → Manager C
  | some _ => s
  | none => s.fault (.nullConnection peer)

def channel (s : Manager C) (p : ℕ) : Option Bool := s.connections[p]?.bind Connection.channel

/-- A new `PeerConnection`, put into the map. -/
def emplace (s : Manager C) (c : Connection) : Manager C :=
  { s with
    connectionMap := s.connectionMap.insert c.identity (some s.connections.length)
    connections := s.connections ++ [c] }

/-! ## The handlers -/

/-- Its lock is free, so the handler does not give way between look-up and entry. -/
def connectToPeer (s : Manager C) (peer : String) : Manager C :=
  if peer ∈ s.connectionMap then s else s.emplace ⟨peer, true, some false⟩

def onRtcSetup (s : Manager C) (sender : String) : Manager C :=
  match s.connectionMap[sender]? with
  | some pointer => s.access sender pointer
  | none => s.emplace ⟨sender, false, none⟩

def onSendPeerMessage (s : Manager C) (m : InternalMessage (PeerMessage C)) : Manager C :=
  match s.connectionMap[m.content.receiverIdentity]? with
  | none => { s with retried := s.retried ++ [m] }
  | some none => s.fault (.nullConnection m.content.receiverIdentity)
  | some (some p) =>
    if s.channel p = some true then { s with sent := s.sent ++ [m.content] }
    else { s with retried := s.retried ++ [m] }

/-- `operator[]` makes a null entry where there is none. -/
def onDatachannelOpened (s : Manager C) (peer : String) : Manager C :=
  { s with connectionMap := s.connectionMap.insertIfNew peer none }

/-- The destructor closes the data channel. -/
def destroy (s : Manager C) (peer : String) (p : ℕ) : Manager C :=
  if (s.channel p).isSome then s else s.fault (.nullDatachannel peer)

/-- The object goes with its last owner. -/
def onPeerClosed (s : Manager C) (peer : String) : Manager C :=
  let s' := { s with connectionMap := s.connectionMap.erase peer }
  match s.connectionMap[peer]? with
  | some (some p) => if p ∈ s.posted then s' else s'.destroy peer p
  | _ => s'

def handle (s : Manager C) : ManagerEvent C → Manager C
  | .signaling (.peerAvailable peer) => s.connectToPeer peer
  | .signaling (.rtcSetup sender) => s.onRtcSetup sender
  | .signaling (.peerClosed peer) => s.onPeerClosed peer
  | .dataChannelOpened peer => s.onDatachannelOpened peer
  | .dataChannelClosed _ => s
  | .sendPeerMessage m => s.onSendPeerMessage m

def processOne (s : Manager C) : Manager C :=
  match s.events with
  | [] => s
  | e :: rest => { s with events := rest }.handle e

/-! ## Broadcasts and WebRTC -/

/-- One round of `broadcast_to_peers_of_type_and_forget`: the posted task has a
copy of the pointer and starts by asking the connection for its type. -/
def post (s : Manager C) (entry : String × Option ℕ) : Manager C :=
  match entry.2 with
  | some p => { s with posted := s.posted ++ [p] }
  | none => s.fault (.nullConnection entry.1)

def broadcastToPeers (s : Manager C) (except : List String) : Manager C :=
  (s.connectionMap.toList.filter fun entry => entry.1 ∉ except).foldl post s

/-- A posted task ends once the peer has told its type, over the data channel. -/
def finish (s : Manager C) (i : ℕ) : Manager C :=
  match s.posted[i]? with
  | some p => if (s.channel p).isSome then { s with posted := s.posted.eraseIdx i } else s
  | none => s

def live (s : Manager C) (p : ℕ) : Bool :=
  s.posted.contains p || s.connectionMap.toList.any fun entry => entry.2 = some p

/-- A callback of WebRTC on a connection that is not destroyed. -/
def callback (s : Manager C) (p : ℕ) (f : Manager C → Connection → Manager C) : Manager C :=
  match s.connections[p]? with
  | some c => if s.live p then f s c else s
  | none => s

/-- `initialize_channel`, which only an answering connection is called back for. -/
def onDataChannel (p : ℕ) (s : Manager C) (c : Connection) : Manager C :=
  if c.offering then s
  else { s with connections := s.connections.set p { c with channel := c.channel.or (some false) } }

def onOpen (p : ℕ) (s : Manager C) (c : Connection) : Manager C :=
  match c.channel with
  | some _ =>
    { s with connections := s.connections.set p { c with channel := some true } }.enqueue
      (.dataChannelOpened c.identity)
  | none => s

def onClosed (p : ℕ) (s : Manager C) (c : Connection) : Manager C :=
  match c.channel with
  | some _ =>
    { s with connections := s.connections.set p { c with channel := some false } }.enqueue
      (.dataChannelClosed c.identity)
  | none => s

/-- `state_of` and `type_of`, called from any thread. -/
def inspect (s : Manager C) (peer : String) : Manager C :=
  match s.connectionMap[peer]? with
  | some pointer => s.access peer pointer
  | none => s

end Manager

inductive ManagerAction (C : Type) where
  | arrive (e : SignalingEvent)
  | send (m : InternalMessage (PeerMessage C))
  | processOne
  | broadcastToPeers (except : List String)
  | finish (i : ℕ)
  | onDataChannel (p : ℕ)
  | onOpen (p : ℕ)
  | onClosed (p : ℕ)
  | inspect (peer : String)
  deriving Repr, DecidableEq

def managerStep (s : Manager C) : ManagerAction C → Manager C
  | .arrive e => s.enqueue (.signaling e)
  | .send m => s.enqueue (.sendPeerMessage m)
  | .processOne => s.processOne
  | .broadcastToPeers except => s.broadcastToPeers except
  | .finish i => s.finish i
  | .onDataChannel p => s.callback p (Manager.onDataChannel p)
  | .onOpen p => s.callback p (Manager.onOpen p)
  | .onClosed p => s.callback p (Manager.onClosed p)
  | .inspect peer => s.inspect peer

/-- Every entry of the map holds a connection, and no null pointer was used. -/
def Sound (s : Manager C) : Prop := (∀ peer : String, s.connectionMap[peer]? ≠ some none) ∧ s.faults = []

/-- A channel that opened belongs to a peer in the map; a peer that is gone has no
connection, or one with its data channel, or one that a posted broadcast keeps. -/
def EventInTime (s : Manager C) : ManagerEvent C → Prop
  | .dataChannelOpened peer => peer ∈ s.connectionMap
  | .signaling (.peerClosed peer) =>
    ∀ p, s.connectionMap[peer]? = some (some p) → p ∈ s.posted ∨ (s.channel p).isSome = true
  | _ => True

/-- The event processed comes in time. -/
def InTime (s : Manager C) : ManagerAction C → Prop
  | .processOne => ∀ e ∈ s.events.head?, EventInTime s e
  | _ => True

/-! ## What one step does -/

variable {s t : Manager C}

/-- Only the map and the faults matter. -/
theorem Sound.of_eq (h : Sound s) (hmap : t.connectionMap = s.connectionMap) (hfaults : t.faults = s.faults) :
    Sound t := by
  unfold Sound
  rw [hmap, hfaults]
  exact h

theorem not_sound_fault (s : Manager C) (f : Fault) : ¬ Sound (s.fault f) := by
  intro h
  have hf : s.faults ++ [f] = [] := h.2
  simp at hf

theorem Sound.access (h : Sound s) {peer : String} {pointer : Option ℕ}
    (hp : s.connectionMap[peer]? = some pointer) : s.access peer pointer = s := by
  cases pointer with
  | none => exact absurd hp (h.1 peer)
  | some p => rfl

theorem Sound.emplace (h : Sound s) (c : Connection) : Sound (s.emplace c) := by
  refine ⟨?_, h.2⟩
  intro peer
  show (s.connectionMap.insert c.identity (some s.connections.length))[peer]? ≠ some none
  rw [Std.ExtTreeMap.getElem?_insert]
  split
  · simp
  · exact h.1 peer

theorem Sound.onSendPeerMessage (h : Sound s) (m : InternalMessage (PeerMessage C)) :
    Sound (s.onSendPeerMessage m) := by
  unfold Manager.onSendPeerMessage
  split
  · exact h
  · rename_i hp
    exact absurd hp (h.1 _)
  · split <;> exact h

theorem sound_onDatachannelOpened_iff (h : Sound s) (peer : String) :
    peer ∈ s.connectionMap ↔ Sound (s.onDatachannelOpened peer) := by
  have hentry : ∀ other : String, (s.onDatachannelOpened peer).connectionMap[other]? =
      if compare peer other = .eq ∧ peer ∉ s.connectionMap then some none else s.connectionMap[other]? :=
    fun other => Std.ExtTreeMap.getElem?_insertIfNew
  constructor
  · intro hp
    refine ⟨?_, h.2⟩
    intro other
    rw [hentry, if_neg (fun hc => hc.2 hp)]
    exact h.1 other
  · intro hs
    by_contra hp
    apply hs.1 peer
    rw [hentry, if_pos ⟨compare_eq_iff_eq.mpr rfl, hp⟩]

theorem sound_erase (h : Sound s) (peer : String) :
    Sound { s with connectionMap := s.connectionMap.erase peer } := by
  refine ⟨?_, h.2⟩
  intro other
  show (s.connectionMap.erase peer)[other]? ≠ some none
  rw [Std.ExtTreeMap.getElem?_erase]
  split
  · simp
  · exact h.1 other

theorem sound_destroy_iff (h : Sound s) (peer : String) (p : ℕ) :
    (s.channel p).isSome = true ↔ Sound (s.destroy peer p) := by
  unfold Manager.destroy
  cases hc : (s.channel p).isSome with
  | true => exact iff_of_true rfl h
  | false => exact iff_of_false (by simp) (not_sound_fault s _)

theorem sound_onPeerClosed_iff (h : Sound s) (peer : String) :
    EventInTime s (.signaling (.peerClosed peer)) ↔ Sound (s.onPeerClosed peer) := by
  have herased := sound_erase h peer
  unfold Manager.onPeerClosed EventInTime
  cases hp : s.connectionMap[peer]? with
  | none =>
    refine iff_of_true ?_ herased
    intro p hq
    rw [hp] at hq; cases hq
  | some pointer =>
    cases pointer with
    | none => exact absurd hp (h.1 peer)
    | some p =>
      have honly : ∀ q, s.connectionMap[peer]? = some (some q) → q = p := by
        intro q hq
        rw [hp] at hq; cases hq; rfl
      by_cases hposted : p ∈ s.posted
      · simp only [hposted, if_true]
        refine iff_of_true ?_ herased
        intro q hq
        rw [honly q hq]; exact .inl hposted
      · simp only [hposted, if_false]
        rw [← sound_destroy_iff herased peer p]
        constructor
        · intro hall
          exact (hall p hp).resolve_left hposted
        · intro hc q hq
          rw [honly q hq]; exact .inr hc

/-- From a sound state an event is handled soundly exactly if it comes in time. -/
theorem sound_handle_iff (h : Sound s) (e : ManagerEvent C) : EventInTime s e ↔ Sound (s.handle e) := by
  cases e with
  | signaling e =>
    cases e with
    | peerAvailable peer =>
      refine iff_of_true trivial ?_
      show Sound (s.connectToPeer peer)
      unfold Manager.connectToPeer
      split
      · exact h
      · exact h.emplace _
    | rtcSetup sender =>
      refine iff_of_true trivial ?_
      show Sound (s.onRtcSetup sender)
      unfold Manager.onRtcSetup
      split
      · rename_i pointer hp
        rw [h.access hp]
        exact h
      · exact h.emplace _
    | peerClosed peer => exact sound_onPeerClosed_iff h peer
  | dataChannelOpened peer => exact sound_onDatachannelOpened_iff h peer
  | dataChannelClosed peer => exact iff_of_true trivial h
  | sendPeerMessage m => exact iff_of_true trivial (h.onSendPeerMessage m)

theorem Sound.foldl_post (entries : List (String × Option ℕ)) (hentries : ∀ entry ∈ entries, entry.2 ≠ none) :
    ∀ {s : Manager C}, Sound s → Sound (entries.foldl Manager.post s) := by
  induction entries with
  | nil => intro s h; exact h
  | cons entry rest ih =>
    intro s h
    obtain ⟨peer, pointer⟩ := entry
    apply ih (fun entry hentry => hentries entry (List.mem_cons_of_mem _ hentry))
    cases pointer with
    | none => exact absurd rfl (hentries (peer, none) List.mem_cons_self)
    | some p => exact h.of_eq rfl rfl

theorem Sound.broadcastToPeers (h : Sound s) (except : List String) : Sound (s.broadcastToPeers except) := by
  apply Sound.foldl_post _ _ h
  intro entry hentry hnull
  have hmem : entry ∈ s.connectionMap.toList := List.mem_of_mem_filter hentry
  rw [← Prod.eta entry, hnull, Std.ExtTreeMap.mem_toList_iff_getElem?_eq_some] at hmem
  exact h.1 entry.1 hmem

theorem Sound.callback (h : Sound s) (p : ℕ) {f : Manager C → Connection → Manager C}
    (hf : ∀ c, (f s c).connectionMap = s.connectionMap ∧ (f s c).faults = s.faults) :
    Sound (s.callback p f) := by
  unfold Manager.callback
  split
  · rename_i c _
    split
    · exact h.of_eq (hf c).1 (hf c).2
    · exact h
  · exact h

/-- What else is queued does not matter to an event. -/
theorem eventInTime_events (events : List (ManagerEvent C)) {e : ManagerEvent C} :
    EventInTime { s with events := events } e ↔ EventInTime s e := by
  cases e with
  | signaling e => cases e <;> exact Iff.rfl
  | _ => exact Iff.rfl

theorem sound_step_iff (h : Sound s) (a : ManagerAction C) : InTime s a ↔ Sound (managerStep s a) := by
  cases a with
  | arrive e => exact iff_of_true trivial h
  | send m => exact iff_of_true trivial h
  | processOne =>
    show (∀ e ∈ s.events.head?, EventInTime s e) ↔ Sound s.processOne
    obtain ⟨events, connectionMap, connections, posted, sent, retried, faults⟩ := s
    cases events with
    | nil => exact iff_of_true (by intro e he; cases he) h
    | cons e rest =>
      simp only [List.head?_cons, Option.mem_def, Option.some.injEq, forall_eq']
      rw [← eventInTime_events rest]
      exact sound_handle_iff (s := ⟨rest, connectionMap, connections, posted, sent, retried, faults⟩) h e
  | broadcastToPeers except => exact iff_of_true trivial (h.broadcastToPeers except)
  | finish i =>
    refine iff_of_true trivial ?_
    show Sound (s.finish i)
    unfold Manager.finish
    split
    · split <;> exact h
    · exact h
  | onDataChannel p =>
    refine iff_of_true trivial (h.callback p ?_)
    intro c
    unfold Manager.onDataChannel
    split <;> exact ⟨rfl, rfl⟩
  | onOpen p =>
    refine iff_of_true trivial (h.callback p ?_)
    intro c
    unfold Manager.onOpen
    split <;> exact ⟨rfl, rfl⟩
  | onClosed p =>
    refine iff_of_true trivial (h.callback p ?_)
    intro c
    unfold Manager.onClosed
    split <;> exact ⟨rfl, rfl⟩
  | inspect peer =>
    refine iff_of_true trivial ?_
    show Sound (s.inspect peer)
    unfold Manager.inspect
    split
    · rename_i pointer hp
      rw [h.access hp]
      exact h
    · exact h

/-- **The map is sound exactly when the two networks keep in step.** In every run
of a peer manager, whatever arrives and whatever WebRTC reports: every entry of
the map holds a connection in every state, no null connection is used and every
connection destroyed by `on_peer_closed` has a data channel, if and only if each
`DataChannelOpened` is processed while its peer is in the map and each
`PeerClosed` while the peer's connection, if `on_peer_closed` destroys it, has
its data channel. -/
theorem connections_sound_iff (as : List (ManagerAction C)) :
    (∀ pre, pre <+: as → Sound (run managerStep Manager.create pre)) ↔
      Along managerStep InTime (Manager.create : Manager C) as := by
  have hstart : Sound (Manager.create : Manager C) := by
    refine ⟨?_, rfl⟩
    intro peer
    show (∅ : Std.ExtTreeMap String (Option ℕ) compare)[peer]? ≠ some none
    simp
  have hstep : ∀ (s : Manager C) a, Sound s → (InTime s a ↔ Sound (managerStep s a)) :=
    fun _ a h => sound_step_iff h a
  exact throughout_iff_along hstep as hstart

/-- A peer is announced and its channel opens, but the server has closed the peer
before the notification is processed; then a message for the peer is sent. -/
def staleOpening : List (ManagerAction Unit) :=
  [.arrive (.peerAvailable "p"), .processOne, .arrive (.peerClosed "p"), .onOpen 0, .processOne,
    .processOne, .send ⟨.sendPeerMessage, ⟨.peerStateUpdate, "me", "p", "tag", (), 0⟩, 0, 0⟩, .processOne]

/-- A peer makes an offer and is closed before WebRTC reports its channel. -/
def earlyClosing : List (ManagerAction Unit) :=
  [.arrive (.rtcSetup "p"), .processOne, .arrive (.peerClosed "p"), .processOne]

theorem connections_unsound :
    (run managerStep Manager.create staleOpening).connectionMap["p"]? = some none ∧
      (run managerStep Manager.create staleOpening).faults = [.nullConnection "p"] ∧
      (run managerStep Manager.create earlyClosing).faults = [.nullDatachannel "p"] := by
  decide +kernel

end Krapi.Connections
