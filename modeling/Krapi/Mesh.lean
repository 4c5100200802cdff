import Krapi.Relay

/-! # How peers come to be connected

Clients and the signaling server together. Who is told that a peer is available
makes it an offer, and who gets an offer from a peer it has no connection with
answers it; both go through the server, over websockets that keep their order.
If of two clients one had identified itself before the other connected, only the
first makes an offer, and once nothing is under way to or from either, their
connections hold each other's descriptions, whatever else went on. -/
namespace Krapi.Mesh
open Krapi.Messages Krapi.Lib.Run Krapi.Signaling Krapi.Presence
open Krapi.Relay (heard_of_sent_eq heard_send heard_foldl_tell heard_foldl_forward)

inductive DescriptionType where
  | offer | answer
  deriving Repr, DecidableEq

structure Description where
  sdp : String
  type : DescriptionType
  deriving Repr, DecidableEq

/-- The content of an `RTCSetup` or an `RTCCandidate`. -/
inductive Rtc where
  | description (d : Description)
  | candidate (candidate mid : String)
  deriving Repr, DecidableEq

structure PeerConnection where
  localDescription : Option Description
  remoteDescription : Option Description
  deriving Repr, DecidableEq

/-- Before a data channel is made or a remote description set. -/
def PeerConnection.fresh : PeerConnection := ⟨none, none⟩

/-- The descriptions that WebRTC makes. What it says of itself is random, which `seed`
stands for; what becomes of descriptions that the fields do not name is left open. -/
structure WebRTC where
  /-- For a connection with a new data channel. -/
  offer : String → Description
  /-- Upon a remote description, if any. -/
  respond : String → PeerConnection → Description → Option Description
  offer_type : ∀ seed, (offer seed).type = .offer
  answers_offer : ∀ seed d, d.type = .offer → ∃ r, r.type = .answer ∧ respond seed .fresh d = some r
  takes_answer : ∀ seed o d, o.type = .offer → d.type = .answer → respond seed ⟨some o, none⟩ d = none

/-! ## Clients -/

/-- What a client has to say to the server. -/
inductive Post where
  | setIdentityRequest
  | rtcSetup (receiver : String) (description : Description)
  | rtcCandidate (receiver candidate mid : String)
  deriving Repr, DecidableEq

/-- The message that goes out; the sender is set last. -/
def Post.message (me tag : String) : Post → SignalingMessage (Content Rtc)
  | .setIdentityRequest => ⟨.setIdentityRequest, me, "signaling_server", tag, .identity me⟩
  | .rtcSetup receiver description => ⟨.rtcSetup, me, receiver, tag, .rtc (.description description)⟩
  | .rtcCandidate receiver candidate mid => ⟨.rtcCandidate, me, receiver, tag, .rtc (.candidate candidate mid)⟩

structure Client where
  connectionMap : Std.ExtTreeMap String PeerConnection compare
  /-- Orders to send that are queued or under way. -/
  outbox : List Post
  /-- How many of the messages sent to the client it has processed. -/
  taken : ℕ

namespace Client

/-- `on_local_description`, for a description that was made. -/
def put (c : Client) (peer : String) (connection : PeerConnection) (made : Option Description) : Client :=
  { c with
    connectionMap := c.connectionMap.insert peer connection
    outbox := c.outbox ++ made.toList.map (Post.rtcSetup peer) }

def connectToPeer (W : WebRTC) (seed : String) (c : Client) (peer : String) : Client :=
  if peer ∈ c.connectionMap then c else c.put peer ⟨some (W.offer seed), none⟩ (some (W.offer seed))

def setRemoteDescription (W : WebRTC) (seed : String) (c : Client) (peer : String) (connection : PeerConnection)
    (d : Description) : Client :=
  let made := W.respond seed connection d
  c.put peer ⟨made.or connection.localDescription, some d⟩ made

/-- The constructor of an answering connection sets the remote description, too. -/
def onRtcSetup (W : WebRTC) (seed : String) (c : Client) (sender : String) (d : Description) : Client :=
  match c.connectionMap[sender]? with
  | some connection => c.setRemoteDescription W seed sender connection d
  | none => c.setRemoteDescription W seed sender .fresh d

def onPeerClosed (c : Client) (peer : String) : Client :=
  { c with connectionMap := c.connectionMap.erase peer }

/-- The listeners; a candidate changes nothing here. -/
def handle (W : WebRTC) (seed : String) (c : Client) (m : SignalingMessage (Content Rtc)) : Client :=
  match m.type, m.content with
  | .peerAvailable, .identity peer => c.connectToPeer W seed peer
  | .rtcSetup, .rtc (.description d) => c.onRtcSetup W seed m.senderIdentity d
  | .peerClosed, .identity peer => c.onPeerClosed peer
  | _, _ => c

end Client

/-! ## Clients and server -/

/-- A client is a process with one socket; `none` if it has not started. -/
structure Net where
  server : Server Rtc
  clients : ℕ → Option Client

def Net.create : Net := ⟨.create, fun _ => none⟩

def Net.update (s : Net) (ws : ℕ) (c : Client) : Net := { s with clients := Function.update s.clients ws (some c) }

inductive Action where
  /-- The websocket opens; identifying itself is the first thing a client does. -/
  | connect (ws : ℕ)
  /-- The server gets the next message of a client. -/
  | serve (ws : ℕ) (tag : String)
  /-- A client processes the next message from the server. -/
  | take (ws : ℕ) (seed : String)
  | candidate (ws : ℕ) (peer candidate mid : String)
  | close (ws : ℕ) (tag : ℕ → String)

/-- `name` are the identities of the clients. -/
def step (name : ℕ → String) (W : WebRTC) (s : Net) : Action → Net
  | .connect ws =>
    match s.clients ws with
    | none => { s with server := s.server.onClient ws }.update ws ⟨∅, [.setIdentityRequest], 0⟩
    | some _ => s
  | .serve ws tag =>
    match s.clients ws with
    | some ⟨connectionMap, post :: rest, taken⟩ =>
      if ws ∈ s.server.sockets then
        { s with server := s.server.onClientMessage ws (post.message (name ws) tag) }.update ws
          ⟨connectionMap, rest, taken⟩
      else s
    | _ => s
  | .take ws seed =>
    match s.clients ws with
    | some c =>
      match (heard s.server ws)[c.taken]? with
      | some m => s.update ws { c.handle W seed m with taken := c.taken + 1 }
      | none => s
    | none => s
  | .candidate ws peer candidate mid =>
    match s.clients ws with
    | some c =>
      if peer ∈ c.connectionMap then s.update ws { c with outbox := c.outbox ++ [.rtcCandidate peer candidate mid] }
      else s
    | none => s
  | .close ws tag => if ws ∈ s.server.sockets then { s with server := s.server.onClientClosed ws tag } else s

/-! ## One end of a pair -/

/-- What two clients have to say to each other, one way or another. -/
inductive Talk where
  | identify
  | available
  | setup (d : Description)
  | closed
  deriving Repr, DecidableEq

/-- What a post is to the peer. -/
def saidTo (peer : String) : Post → Option Talk
  | .setIdentityRequest => some .identify
  | .rtcSetup receiver d => if receiver = peer then some (.setup d) else none
  | .rtcCandidate _ _ _ => none

/-- What a message has to do with the peer. -/
def heardOf (peer : String) (m : SignalingMessage (Content Rtc)) : Option Talk :=
  match m.type, m.content with
  | .peerAvailable, .identity identity => if identity = peer then some .available else none
  | .rtcSetup, .rtc (.description d) => if m.senderIdentity = peer then some (.setup d) else none
  | .peerClosed, .identity identity => if identity = peer then some .closed else none
  | _, _ => none

/-- A client as far as the peer is concerned: its connection, what it has still to say
and what it has still to hear. -/
structure End where
  connection : Option PeerConnection
  said : List Talk
  heard : List Talk
  deriving Repr, DecidableEq

def Net.endOf (s : Net) (ws : ℕ) (peer : String) : End :=
  match s.clients ws with
  | some c => ⟨c.connectionMap[peer]?, c.outbox.filterMap (saidTo peer),
      ((heard s.server ws).drop c.taken).filterMap (heardOf peer)⟩
  | none => ⟨none, [], []⟩

/-- What a client does with what it hears. -/
def End.hear (W : WebRTC) (seed : String) (e : End) : End :=
  match e.heard with
  | [] => e
  | .identify :: rest => { e with heard := rest }
  | .available :: rest =>
    match e.connection with
    | some _ => { e with heard := rest }
    | none => ⟨some ⟨some (W.offer seed), none⟩, e.said ++ [.setup (W.offer seed)], rest⟩
  | .setup d :: rest =>
    let connection := e.connection.getD .fresh
    let made := W.respond seed connection d
    ⟨some ⟨made.or connection.localDescription, some d⟩, e.said ++ made.toList.map .setup, rest⟩
  | .closed :: rest => ⟨none, e.said, rest⟩

/-- What the server makes of it. -/
def Talk.delivered : Talk → Talk
  | .identify => .available
  | t => t

/-! ## What the server hands on -/

section Server
variable {s : Server Rtc} {w ws : ℕ}

/-- What a post makes another client hear of its sender. -/
def gained (s : Server Rtc) (w ws : ℕ) : Post → List Talk
  | .setIdentityRequest => if ws ∈ s.sockets ∧ ws ≠ w then [.available] else []
  | .rtcSetup receiver d => if ws ∈ s.sockets ∧ s.identityOf ws = receiver then [.setup d] else []
  | .rtcCandidate _ _ _ => []

theorem heard_setIdentity (hnodup : s.sockets.Nodup) (w ws : ℕ) (m : SignalingMessage (Content Rtc))
    (identity : String) :
    ∃ more, heard (s.setIdentity w m identity) ws = heard s ws ++ more ∧
      ∀ peer, more.filterMap (heardOf peer) =
        if identity = peer then (if ws ∈ s.sockets ∧ ws ≠ w then [.available] else []) else [] := by
  let answered := { s with socketIdentityMap := s.socketIdentityMap.insert w identity }.send w
    ⟨.setIdentityResponse, "signaling_server", identity, m.tag, .null⟩
  have hloop : heard (s.setIdentity w m identity) ws = heard answered ws ++ _ :=
    heard_foldl_tell (hnodup.filter _) answered
  have hfirst : heard answered ws = heard s ws ++ _ := heard_send _ _ _
  rw [hfirst, List.append_assoc] at hloop
  refine ⟨_, hloop, ?_⟩
  intro peer
  have hresponse : ((if w = ws then [⟨.setIdentityResponse, "signaling_server", identity, m.tag, .null⟩] else []) :
      List (SignalingMessage (Content Rtc))).filterMap (heardOf peer) = [] := by
    split <;> rfl
  have hmem : (ws ∈ s.sockets.filter fun socket => decide (socket ≠ w)) ↔ ws ∈ s.sockets ∧ ws ≠ w := by
    rw [List.mem_filter, decide_eq_true_eq]
  rw [List.filterMap_append, hresponse, List.nil_append]
  simp only [hmem]
  by_cases hws : ws ∈ s.sockets ∧ ws ≠ w
  · rw [if_pos hws, if_pos hws]
    by_cases hid : identity = peer
    · simp [Server.peerAvailable, heardOf, hid]
    · simp [Server.peerAvailable, heardOf, hid]
  · rw [if_neg hws, if_neg hws, ite_self]
    rfl

theorem heard_serve (hnodup : s.sockets.Nodup) (w ws : ℕ) (post : Post) (me tag : String) :
    ∃ more, heard (s.onClientMessage w (post.message me tag)) ws = heard s ws ++ more ∧
      ∀ peer, more.filterMap (heardOf peer) = if me = peer then gained s w ws post else [] := by
  have htouch : heard (s.touch w) ws = heard s ws := heard_of_sent_eq rfl
  cases post with
  | setIdentityRequest =>
    obtain ⟨more, hmore, htalk⟩ := heard_setIdentity (s := s.touch w) hnodup w ws
      (Post.message me tag .setIdentityRequest) me
    exact ⟨more, hmore.trans (by rw [htouch]), htalk⟩
  | rtcSetup receiver d =>
    refine ⟨_, (heard_foldl_forward hnodup (Post.message me tag (.rtcSetup receiver d)) (s.touch w)).trans
      (by rw [htouch, Server.identityOf_touch]), ?_⟩
    intro peer
    show (if ws ∈ s.sockets ∧ s.identityOf ws = receiver then _ else _ : List _).filterMap _ =
      if me = peer then (if ws ∈ s.sockets ∧ s.identityOf ws = receiver then _ else _) else _
    by_cases hws : ws ∈ s.sockets ∧ s.identityOf ws = receiver
    · rw [if_pos hws, if_pos hws]
      by_cases hid : me = peer <;> simp [Post.message, heardOf, hid]
    · rw [if_neg hws, if_neg hws, ite_self]
      rfl
  | rtcCandidate receiver candidate mid =>
    let m : SignalingMessage (Content Rtc) := Post.message me tag (.rtcCandidate receiver candidate mid)
    refine ⟨_, (heard_foldl_forward hnodup m (s.touch w)).trans (by rw [htouch, Server.identityOf_touch]), ?_⟩
    intro peer
    unfold gained
    rw [ite_self]
    split <;> rfl

theorem heard_close (hnodup : s.sockets.Nodup) (hw : w ∈ s.sockets) (tag : ℕ → String) (ws : ℕ) :
    ∃ more, heard (s.onClientClosed w tag) ws = heard s ws ++ more ∧
      ∀ peer, more.filterMap (heardOf peer) =
        if ws ∈ s.sockets ∧ ws ≠ w ∧ s.identityOf w = peer then [.closed] else [] := by
  let gone := { s.touch w with
    sockets := s.sockets.filter fun socket => socket ≠ w
    socketIdentityMap := (s.touch w).socketIdentityMap.erase w }
  have hclosed : s.onClientClosed w tag =
      gone.sockets.foldl (Server.tell (Server.peerClosed tag (s.identityOf w))) gone := if_pos hw
  rw [hclosed, heard_foldl_tell (hnodup.filter _)]
  refine ⟨_, congrArg (· ++ _) (heard_of_sent_eq rfl), ?_⟩
  intro peer
  have hmem : ws ∈ gone.sockets ↔ ws ∈ s.sockets ∧ ws ≠ w := by
    show ws ∈ s.sockets.filter (fun socket => decide (socket ≠ w)) ↔ _
    rw [List.mem_filter, decide_eq_true_eq]
  by_cases hws : ws ∈ gone.sockets
  · rw [if_pos hws]
    obtain ⟨hws, hne⟩ := hmem.mp hws
    by_cases hid : s.identityOf w = peer <;> simp [Server.peerClosed, heardOf, hid, hws, hne]
  · rw [if_neg hws, if_neg (fun h => hws (hmem.mpr ⟨h.1, h.2.1⟩))]
    rfl

end Server

/-! ## What a step does -/

/-- What can happen, with the state it leads to. -/
inductive Moves (name : ℕ → String) (W : WebRTC) (s : Net) : Net → Prop where
  | idle : Moves name W s s
  | connect {w : ℕ} (hw : s.clients w = none) :
    Moves name W s ({ s with server := s.server.onClient w }.update w ⟨∅, [.setIdentityRequest], 0⟩)
  | serve {w : ℕ} {c : Client} {post : Post} {rest : List Post} (tag : String) (hc : s.clients w = some c)
    (hpost : c.outbox = post :: rest) (hw : w ∈ s.server.sockets) :
    Moves name W s ({ s with server := s.server.onClientMessage w (post.message (name w) tag) }.update w
      { c with outbox := rest })
  | take {w : ℕ} {c : Client} {m : SignalingMessage (Content Rtc)} (seed : String) (hc : s.clients w = some c)
    (hm : (heard s.server w)[c.taken]? = some m) :
    Moves name W s (s.update w { c.handle W seed m with taken := c.taken + 1 })
  | candidate {w : ℕ} {c : Client} (peer candidate mid : String) (hc : s.clients w = some c) :
    Moves name W s (s.update w { c with outbox := c.outbox ++ [.rtcCandidate peer candidate mid] })
  | close {w : ℕ} (tag : ℕ → String) (hw : w ∈ s.server.sockets) :
    Moves name W s { s with server := s.server.onClientClosed w tag }

theorem moves_step (name : ℕ → String) (W : WebRTC) (s : Net) (a : Action) : Moves name W s (step name W s a) := by
  cases a with
  | connect ws =>
    unfold step
    dsimp only
    split
    · rename_i hw
      exact .connect hw
    · exact .idle
  | serve ws tag =>
    unfold step
    dsimp only
    split
    · rename_i hc
      split
      · rename_i hw
        exact .serve tag hc rfl hw
      · exact .idle
    · exact .idle
  | take ws seed =>
    unfold step
    dsimp only
    split
    · rename_i hc
      split
      · rename_i hm
        exact .take seed hc hm
      · exact .idle
    · exact .idle
  | candidate ws peer candidate mid =>
    unfold step
    dsimp only
    split
    · rename_i hc
      split
      · exact .candidate peer candidate mid hc
      · exact .idle
    · exact .idle
  | close ws tag =>
    unfold step
    dsimp only
    split
    · rename_i hw
      exact .close tag hw
    · exact .idle

section Handle
variable {W : WebRTC} {seed peer other : String} {c : Client} {m : SignalingMessage (Content Rtc)}

theorem put_other (h : other ≠ peer) (connection : PeerConnection) (made : Option Description) :
    (c.put other connection made).connectionMap[peer]? = c.connectionMap[peer]? ∧
      (c.put other connection made).outbox.filterMap (saidTo peer) = c.outbox.filterMap (saidTo peer) := by
  unfold Client.put
  refine ⟨?_, ?_⟩
  · show (c.connectionMap.insert other connection)[peer]? = _
    rw [Std.ExtTreeMap.getElem?_insert, if_neg (fun hc => h (compare_eq_iff_eq.mp hc))]
  · show (c.outbox ++ made.toList.map (Post.rtcSetup other)).filterMap _ = _
    rw [List.filterMap_append]
    cases made <;> simp [saidTo, h]

theorem put_self (c : Client) (peer : String) (connection : PeerConnection) (made : Option Description) :
    (c.put peer connection made).connectionMap[peer]? = some connection ∧
      (c.put peer connection made).outbox.filterMap (saidTo peer) =
        c.outbox.filterMap (saidTo peer) ++ made.toList.map Talk.setup := by
  unfold Client.put
  refine ⟨Std.ExtTreeMap.getElem?_insert_self, ?_⟩
  show (c.outbox ++ made.toList.map (Post.rtcSetup peer)).filterMap _ = _
  rw [List.filterMap_append]
  cases made <;> simp [saidTo]

theorem onRtcSetup_eq (d : Description) :
    c.onRtcSetup W seed other d =
      c.setRemoteDescription W seed other (c.connectionMap[other]?.getD .fresh) d := by
  unfold Client.onRtcSetup
  cases c.connectionMap[other]? <;> rfl

/-- A message that has nothing to do with the peer changes nothing towards it. -/
theorem handle_of_other (W : WebRTC) (seed : String) (c : Client) (h : heardOf peer m = none) :
    (c.handle W seed m).connectionMap[peer]? = c.connectionMap[peer]? ∧
      (c.handle W seed m).outbox.filterMap (saidTo peer) = c.outbox.filterMap (saidTo peer) := by
  unfold heardOf at h
  unfold Client.handle
  split at h
  · rename_i identity _ _
    have hne : identity ≠ peer := fun he => nomatch (if_pos he).symm.trans h
    unfold Client.connectToPeer
    split
    · exact ⟨rfl, rfl⟩
    · exact put_other hne _ _
  · rename_i d _ _
    have hne : m.senderIdentity ≠ peer := fun he => nomatch (if_pos he).symm.trans h
    rw [onRtcSetup_eq]
    exact put_other hne _ _
  · rename_i identity _ _
    have hne : identity ≠ peer := fun he => nomatch (if_pos he).symm.trans h
    refine ⟨?_, rfl⟩
    show (c.connectionMap.erase identity)[peer]? = _
    rw [Std.ExtTreeMap.getElem?_erase, if_neg (fun hc => hne (compare_eq_iff_eq.mp hc))]
  · exact ⟨rfl, rfl⟩

/-- A message about the peer is heard as the talk that it is. -/
theorem handle_of_talk {t : Talk} {rest : List Talk} (h : heardOf peer m = some t) :
    (⟨(c.handle W seed m).connectionMap[peer]?, (c.handle W seed m).outbox.filterMap (saidTo peer), rest⟩ : End) =
      End.hear W seed ⟨c.connectionMap[peer]?, c.outbox.filterMap (saidTo peer), t :: rest⟩ := by
  unfold heardOf at h
  unfold Client.handle
  split at h
  · rename_i identity _ _
    split at h
    · rename_i he
      cases h
      subst he
      unfold Client.connectToPeer
      by_cases hin : identity ∈ c.connectionMap
      · obtain ⟨connection, hconnection⟩ := Option.isSome_iff_exists.mp
          (Std.ExtTreeMap.isSome_getElem?_iff_mem.mpr hin)
        rw [if_pos hin]
        simp only [End.hear, hconnection]
      · obtain ⟨hmap, hsaid⟩ := put_self c identity ⟨some (W.offer seed), none⟩ (some (W.offer seed))
        rw [if_neg hin, hmap, hsaid]
        simp only [End.hear, Std.ExtTreeMap.getElem?_eq_none hin]
        rfl
    · cases h
  · rename_i d _ _
    split at h
    · rename_i he
      cases h
      subst he
      rw [onRtcSetup_eq]
      unfold Client.setRemoteDescription
      dsimp only
      obtain ⟨hmap, hsaid⟩ := put_self c m.senderIdentity _ _
      rw [hmap, hsaid]
      rfl
    · cases h
  · rename_i identity _ _
    split at h
    · rename_i he
      cases h
      subst he
      show (⟨(c.connectionMap.erase identity)[identity]?, _, rest⟩ : End) = _
      rw [Std.ExtTreeMap.getElem?_erase_self]
      rfl
    · cases h
  · cases h

end Handle

/-! ## Clients that have not met -/

/-- Towards a peer that never connected; the empty name is that of closed sockets which
had not identified themselves. -/
def Stranger (peer : String) (e : End) : Prop :=
  e.connection = none ∧ (∀ t ∈ e.said, t = .identify) ∧ ∀ t ∈ e.heard, t = .closed ∧ peer = ""

structure Wired (name : ℕ → String) (s : Net) : Prop where
  nodup : s.server.sockets.Nodup
  keyed : Keyed s.server
  identity : ∀ ws, s.server.identityOf ws = name ws ∨ s.server.identityOf ws = ""
  started : ∀ ws ∈ s.server.sockets, s.clients ws ≠ none
  silent : ∀ ws peer, s.clients ws = none → (heard s.server ws).filterMap (heardOf peer) = []
  taken : ∀ ws c, s.clients ws = some c → c.taken ≤ (heard s.server ws).length
  introduced : ∀ ws c, s.clients ws = some c →
    c.outbox.count .setIdentityRequest + (if s.server.identityOf ws = name ws then 1 else 0) ≤ 1
  strangers : ∀ ws peer, (∀ o, s.clients o ≠ none → name o ≠ peer) → Stranger peer (s.endOf ws peer)

theorem Stranger.hear {W : WebRTC} {seed peer : String} {e : End} (h : Stranger peer e) :
    Stranger peer (e.hear W seed) := by
  obtain ⟨connection, said, heard⟩ := e
  obtain ⟨hconnection, hsaid, hheard⟩ := h
  cases heard with
  | nil => exact ⟨hconnection, hsaid, hheard⟩
  | cons t rest =>
    obtain ⟨rfl, -⟩ := hheard t List.mem_cons_self
    exact ⟨rfl, hsaid, fun u hu => hheard u (List.mem_cons_of_mem _ hu)⟩

section Ends
variable {name : ℕ → String} {W : WebRTC} {s t : Net} {w ws : ℕ} {peer : String} {c : Client}

theorem clients_update (s : Net) (w : ℕ) (c : Client) (ws : ℕ) :
    (s.update w c).clients ws = if ws = w then some c else s.clients ws := by
  show Function.update s.clients w (some c) ws = _
  by_cases hws : ws = w
  · rw [hws, Function.update_self, if_pos rfl]
  · rw [Function.update_of_ne hws, if_neg hws]

theorem endOf_some (hc : s.clients ws = some c) (peer : String) :
    s.endOf ws peer = ⟨c.connectionMap[peer]?, c.outbox.filterMap (saidTo peer),
      ((heard s.server ws).drop c.taken).filterMap (heardOf peer)⟩ := by
  rw [Net.endOf, hc]

theorem endOf_none (hc : s.clients ws = none) (peer : String) : s.endOf ws peer = ⟨none, [], []⟩ := by
  rw [Net.endOf, hc]

/-- What else a client is sent is to be heard last. -/
theorem endOf_grown (h : Wired name s) {more : List (SignalingMessage (Content Rtc))} {talk : List Talk}
    (hclients : t.clients ws = s.clients ws) (hheard : heard t.server ws = heard s.server ws ++ more)
    (htalk : more.filterMap (heardOf peer) = talk) (hnone : s.clients ws = none → talk = []) :
    t.endOf ws peer = { s.endOf ws peer with heard := (s.endOf ws peer).heard ++ talk } := by
  cases hc : s.clients ws with
  | none => rw [endOf_none (hclients.trans hc), endOf_none hc, hnone hc]; rfl
  | some c =>
    rw [endOf_some (hclients.trans hc), endOf_some hc, hheard, List.drop_append_of_le_length (h.taken ws c hc),
      List.filterMap_append, htalk]

theorem gained_none (h : Wired name s) (post : Post) (hc : s.clients ws = none) : gained s.server w ws post = [] := by
  have hws : ws ∉ s.server.sockets := fun hws => h.started ws hws hc
  cases post with
  | setIdentityRequest => exact if_neg fun hand => hws hand.1
  | rtcSetup receiver d => exact if_neg fun hand => hws hand.1
  | rtcCandidate receiver candidate mid => rfl

theorem endOf_connect (h : Wired name s) (hw : s.clients w = none) :
    ({ s with server := s.server.onClient w }.update w ⟨∅, [.setIdentityRequest], 0⟩).endOf ws peer =
      if ws = w then ⟨none, [.identify], []⟩ else s.endOf ws peer := by
  split
  · rename_i hws
    subst hws
    rw [endOf_some ((clients_update _ _ _ _).trans (if_pos rfl))]
    have hheard : ((heard (s.server.onClient ws) ws).drop 0).filterMap (heardOf peer) = [] := h.silent ws peer hw
    show (⟨(∅ : Std.ExtTreeMap String PeerConnection compare)[peer]?, _,
      ((heard (s.server.onClient ws) ws).drop 0).filterMap (heardOf peer)⟩ : End) = _
    rw [hheard, Std.ExtTreeMap.getElem?_empty]
    rfl
  · rename_i hws
    unfold Net.endOf
    rw [clients_update, if_neg hws]
    rfl

theorem said_serve {post : Post} {rest : List Post} (hc : s.clients w = some c) (hpost : c.outbox = post :: rest)
    (peer : String) :
    (s.endOf w peer).said = (saidTo peer post).toList ++ rest.filterMap (saidTo peer) := by
  rw [endOf_some hc, hpost]
  cases hsaid : saidTo peer post with
  | none => exact List.filterMap_cons_none hsaid
  | some t => exact List.filterMap_cons_some hsaid

theorem endOf_serve (h : Wired name s) {post : Post} {rest : List Post} (tag : String) (hc : s.clients w = some c) :
    ({ s with server := s.server.onClientMessage w (post.message (name w) tag) }.update w
        { c with outbox := rest }).endOf ws peer =
      ⟨(s.endOf ws peer).connection, if ws = w then rest.filterMap (saidTo peer) else (s.endOf ws peer).said,
        (s.endOf ws peer).heard ++ if name w = peer then gained s.server w ws post else []⟩ := by
  obtain ⟨more, hheard, htalk⟩ := heard_serve h.nodup w ws post (name w) tag
  have hgrown : ({ s with server := s.server.onClientMessage w (post.message (name w) tag) } : Net).endOf ws peer =
      { s.endOf ws peer with
        heard := (s.endOf ws peer).heard ++ if name w = peer then gained s.server w ws post else [] } := by
    refine endOf_grown h rfl hheard (htalk peer) ?_
    intro hnone
    rw [gained_none h post hnone, ite_self]
  by_cases hws : ws = w
  · subst hws
    rw [endOf_some (s := { s with server := s.server.onClientMessage ws (post.message (name ws) tag) }) hc] at hgrown
    have hconnection : (s.endOf ws peer).connection = c.connectionMap[peer]? :=
      congrArg End.connection (endOf_some hc peer)
    rw [if_pos rfl, endOf_some ((clients_update _ _ _ _).trans (if_pos rfl)), hconnection]
    exact congrArg (fun e => End.mk _ _ e.heard) hgrown
  · rw [if_neg hws]
    refine Eq.trans ?_ hgrown
    unfold Net.endOf
    rw [clients_update, if_neg hws]
    rfl

theorem endOf_take (W : WebRTC) (ws : ℕ) (peer : String) {m : SignalingMessage (Content Rtc)} (seed : String)
    (hc : s.clients w = some c)
    (hm : (heard s.server w)[c.taken]? = some m) :
    (s.update w { c.handle W seed m with taken := c.taken + 1 }).endOf ws peer = s.endOf ws peer ∨
      ws = w ∧ (s.update w { c.handle W seed m with taken := c.taken + 1 }).endOf ws peer =
        (s.endOf ws peer).hear W seed := by
  by_cases hws : ws = w
  · subst hws
    rw [endOf_some ((clients_update _ _ _ _).trans (if_pos rfl)), endOf_some hc]
    have hdrop : (heard s.server ws).drop c.taken = m :: (heard s.server ws).drop (c.taken + 1) :=
      List.drop_eq_getElem?_toList_append.trans (by rw [hm]; rfl)
    rw [hdrop]
    cases htalk : heardOf peer m with
    | none =>
      obtain ⟨hmap, hsaid⟩ := handle_of_other W seed c htalk
      left
      rw [List.filterMap_cons_none htalk]
      show (⟨(c.handle W seed m).connectionMap[peer]?, (c.handle W seed m).outbox.filterMap (saidTo peer), _⟩ : End) = _
      rw [hmap, hsaid]
      rfl
    | some t =>
      right
      rw [List.filterMap_cons_some htalk]
      exact ⟨rfl, handle_of_talk htalk⟩
  · left
    unfold Net.endOf
    rw [clients_update, if_neg hws]
    rfl

theorem endOf_candidate (receiver candidate mid : String) (hc : s.clients w = some c) :
    (s.update w { c with outbox := c.outbox ++ [.rtcCandidate receiver candidate mid] }).endOf ws peer =
      s.endOf ws peer := by
  by_cases hws : ws = w
  · subst hws
    rw [endOf_some ((clients_update _ _ _ _).trans (if_pos rfl)), endOf_some hc]
    show (⟨_, (c.outbox ++ [_]).filterMap _, _⟩ : End) = _
    rw [List.filterMap_append]
    simp [saidTo, Net.update]
  · unfold Net.endOf
    rw [clients_update, if_neg hws]
    rfl

theorem endOf_close (h : Wired name s) (tag : ℕ → String) (hw : w ∈ s.server.sockets) :
    ({ s with server := s.server.onClientClosed w tag } : Net).endOf ws peer =
      { s.endOf ws peer with
        heard := (s.endOf ws peer).heard ++
          if ws ∈ s.server.sockets ∧ ws ≠ w ∧ s.server.identityOf w = peer then [.closed] else [] } := by
  obtain ⟨more, hheard, htalk⟩ := heard_close h.nodup hw tag ws
  refine endOf_grown h rfl hheard (htalk peer) ?_
  intro hnone
  exact if_neg fun hand => h.started ws hand.1 hnone

theorem identityOf_serve {r : Server Rtc} (hw : w ∈ r.sockets) (post : Post) (me tag : String) (ws : ℕ) :
    (r.onClientMessage w (post.message me tag)).identityOf ws =
      if post = .setIdentityRequest ∧ ws = w then me else r.identityOf ws := by
  rw [(hears_onClientMessage hw _).identityOf]
  cases post with
  | setIdentityRequest =>
    show (if w = ws then me else r.identityOf ws) = _
    by_cases hws : w = ws
    · simp [hws]
    · have hne : ws ≠ w := Ne.symm hws
      simp [hws, hne]
  | rtcSetup receiver d => rw [if_neg (fun h => nomatch h.1)]; rfl
  | rtcCandidate receiver candidate mid => rw [if_neg (fun h => nomatch h.1)]; rfl

theorem identityOf_close {r : Server Rtc} (hkeyed : Keyed r) (hw : w ∈ r.sockets) (tag : ℕ → String) (ws : ℕ) :
    (r.onClientClosed w tag).identityOf ws = if ws = w then "" else r.identityOf ws := by
  have hforgets := forgets_onClientClosed hw tag
  split
  · rename_i hws
    subst hws
    exact (hforgets.keyed hkeyed).identityOf_eq_empty fun h => ((hforgets.sockets ws).mp h).2 rfl
  · rename_i hws
    exact hforgets.identityOf ws hws

theorem identityOf_client (r : Server Rtc) (w ws : ℕ) : (r.onClient w).identityOf ws = r.identityOf ws :=
  Server.identityOf_touch r w ws

theorem count_put (c : Client) (peer : String) (connection : PeerConnection) (made : Option Description) :
    (c.put peer connection made).outbox.count .setIdentityRequest = c.outbox.count .setIdentityRequest := by
  show (c.outbox ++ made.toList.map (Post.rtcSetup peer)).count _ = _
  rw [List.count_append]
  cases made <;> simp

theorem count_handle (seed : String) (c : Client) (m : SignalingMessage (Content Rtc)) :
    (c.handle W seed m).outbox.count .setIdentityRequest = c.outbox.count .setIdentityRequest := by
  unfold Client.handle
  split
  · unfold Client.connectToPeer
    split
    · rfl
    · exact count_put _ _ _ _
  · rw [onRtcSetup_eq]
    exact count_put _ _ _ _
  · rfl
  · rfl

theorem Wired.idle_identity (h : Wired name s) (hc : s.clients ws = none) : s.server.identityOf ws = "" :=
  h.keyed.identityOf_eq_empty fun hws => h.started ws hws hc

theorem Wired.connect (hne : ∀ ws, name ws ≠ "") (h : Wired name s) (hw : s.clients w = none) :
    Wired name ({ s with server := s.server.onClient w }.update w ⟨∅, [.setIdentityRequest], 0⟩) where
  nodup := Relay.nodup_step h.nodup (.client w)
  keyed := Relay.keyed_step (a := .client w) h.keyed trivial
  identity ws := (identityOf_client s.server w ws).symm ▸ h.identity ws
  started ws hws := by
    rw [clients_update]
    split
    · nofun
    · rename_i hne
      exact h.started ws ((mem_sockets_onClient.mp hws).resolve_right hne)
  silent ws peer hc := by
    rw [clients_update] at hc
    split at hc
    · cases hc
    · exact h.silent ws peer hc
  taken ws c hc := by
    rw [clients_update] at hc
    split at hc
    · cases hc
      exact Nat.zero_le _
    · exact h.taken ws c hc
  introduced ws c hc := by
    show _ + (if (s.server.onClient w).identityOf ws = name ws then 1 else 0) ≤ 1
    rw [identityOf_client]
    rw [clients_update] at hc
    split at hc
    · rename_i hws
      cases hc
      rw [hws, h.idle_identity hw, if_neg (Ne.symm (hne w))]
      decide
    · exact h.introduced ws c hc
  strangers ws peer hpeer := by
    have hbefore : ∀ o, s.clients o ≠ none → name o ≠ peer := by
      intro o ho
      apply hpeer o
      rw [clients_update]
      split
      · nofun
      · exact ho
    rw [endOf_connect h hw]
    split
    · refine ⟨rfl, ?_, nofun⟩
      intro t ht
      exact List.mem_singleton.mp ht
    · exact h.strangers ws peer hbefore

theorem Wired.serve (h : Wired name s) {post : Post} {rest : List Post} (tag : String)
    (hc : s.clients w = some c) (hpost : c.outbox = post :: rest) (hw : w ∈ s.server.sockets) :
    Wired name ({ s with server := s.server.onClientMessage w (post.message (name w) tag) }.update w
      { c with outbox := rest }) where
  nodup := Relay.nodup_step h.nodup (.message w _)
  keyed := Relay.keyed_step (a := .message w _) h.keyed hw
  identity ws := by
    show (s.server.onClientMessage w _).identityOf ws = _ ∨ (s.server.onClientMessage w _).identityOf ws = _
    rw [identityOf_serve hw]
    split
    · rename_i hand
      rw [hand.2]
      exact .inl rfl
    · exact h.identity ws
  started ws hws := by
    rw [clients_update]
    split
    · nofun
    · exact h.started ws ((sockets_onClientMessage _).symm ▸ hws)
  silent ws peer hclient := by
    rw [clients_update] at hclient
    split at hclient
    · cases hclient
    · obtain ⟨more, hheard, htalk⟩ := heard_serve h.nodup w ws post (name w) tag
      show (heard (s.server.onClientMessage w _) ws).filterMap _ = _
      rw [hheard, List.filterMap_append, htalk, h.silent ws peer hclient, gained_none h post hclient, ite_self]
      rfl
  taken ws d hd := by
    obtain ⟨more, hheard, -⟩ := heard_serve h.nodup w ws post (name w) tag
    show _ ≤ (heard (s.server.onClientMessage w _) ws).length
    rw [hheard, List.length_append]
    rw [clients_update] at hd
    split at hd
    · rename_i hws
      cases hd
      have hle := h.taken w c hc
      rw [hws]
      exact Nat.le_add_right_of_le hle
    · exact Nat.le_add_right_of_le (h.taken ws d hd)
  introduced ws d hd := by
    show _ + (if (s.server.onClientMessage w _).identityOf ws = name ws then 1 else 0) ≤ 1
    rw [identityOf_serve hw]
    rw [clients_update] at hd
    split at hd
    · rename_i hws
      cases hd
      have hcount := h.introduced w c hc
      rw [hpost] at hcount
      subst hws
      by_cases hrequest : post = .setIdentityRequest
      · subst hrequest
        rw [List.count_cons_self] at hcount
        simp only [and_self, if_true]
        omega
      · rw [List.count_cons_of_ne hrequest] at hcount
        simpa [hrequest] using hcount
    · rename_i hws
      rw [if_neg (show ¬ (post = .setIdentityRequest ∧ ws = w) from fun hand => hws hand.2)]
      exact h.introduced ws d hd
  strangers ws peer hpeer := by
    have hself : name w ≠ peer := by
      apply hpeer w
      rw [clients_update, if_pos rfl]
      nofun
    have hbefore : ∀ o, s.clients o ≠ none → name o ≠ peer := by
      intro o ho
      apply hpeer o
      rw [clients_update]
      split
      · nofun
      · exact ho
    obtain ⟨hconnection, hsaid, hheard⟩ := h.strangers ws peer hbefore
    rw [endOf_serve h tag hc, if_neg hself, List.append_nil]
    refine ⟨hconnection, ?_, hheard⟩
    split
    · rename_i hws
      intro u hu
      rw [hws, said_serve hc hpost] at hsaid
      exact hsaid u (List.mem_append_right _ hu)
    · exact hsaid

/-- A client goes on by itself. -/
theorem Wired.update {d : Client} (h : Wired name s) (hc : s.clients w = some c)
    (htaken : d.taken ≤ (heard s.server w).length)
    (hcount : d.outbox.count .setIdentityRequest = c.outbox.count .setIdentityRequest)
    (hends : ∀ ws peer, Stranger peer (s.endOf ws peer) → Stranger peer ((s.update w d).endOf ws peer)) :
    Wired name (s.update w d) where
  nodup := h.nodup
  keyed := h.keyed
  identity := h.identity
  started ws hws := by
    rw [clients_update]
    split
    · nofun
    · exact h.started ws hws
  silent ws peer hclient := by
    rw [clients_update] at hclient
    split at hclient
    · cases hclient
    · exact h.silent ws peer hclient
  taken ws e he := by
    rw [clients_update] at he
    split at he
    · rename_i hws
      cases he
      exact hws ▸ htaken
    · exact h.taken ws e he
  introduced ws e he := by
    rw [clients_update] at he
    split at he
    · rename_i hws
      cases he
      rw [hws, hcount]
      exact h.introduced w c hc
    · exact h.introduced ws e he
  strangers ws peer hpeer := by
    apply hends
    apply h.strangers ws peer
    intro o ho
    apply hpeer o
    rw [clients_update]
    split
    · nofun
    · exact ho

theorem Wired.close (hne : ∀ ws, name ws ≠ "") (h : Wired name s) (tag : ℕ → String) (hw : w ∈ s.server.sockets) :
    Wired name { s with server := s.server.onClientClosed w tag } where
  nodup := Relay.nodup_step h.nodup (.closed w tag)
  keyed := (forgets_onClientClosed hw tag).keyed h.keyed
  identity ws := by
    show (s.server.onClientClosed w tag).identityOf ws = _ ∨ (s.server.onClientClosed w tag).identityOf ws = _
    rw [identityOf_close h.keyed hw]
    split
    · exact .inr rfl
    · exact h.identity ws
  started ws hws := h.started ws (((forgets_onClientClosed hw tag).sockets ws).mp hws).1
  silent ws peer hclient := by
    obtain ⟨more, hheard, htalk⟩ := heard_close h.nodup hw tag ws
    show (heard (s.server.onClientClosed w tag) ws).filterMap _ = _
    rw [hheard, List.filterMap_append, htalk, h.silent ws peer hclient]
    exact if_neg fun hand => h.started ws hand.1 hclient
  taken ws d hd := by
    obtain ⟨more, hheard, -⟩ := heard_close h.nodup hw tag ws
    show _ ≤ (heard (s.server.onClientClosed w tag) ws).length
    rw [hheard, List.length_append]
    exact Nat.le_add_right_of_le (h.taken ws d hd)
  introduced ws d hd := by
    show _ + (if (s.server.onClientClosed w tag).identityOf ws = name ws then 1 else 0) ≤ 1
    rw [identityOf_close h.keyed hw]
    have hcount := h.introduced ws d hd
    split
    · rw [if_neg (Ne.symm (hne ws))]
      omega
    · exact hcount
  strangers ws peer hpeer := by
    obtain ⟨hconnection, hsaid, hheard⟩ := h.strangers ws peer hpeer
    rw [endOf_close h tag hw]
    refine ⟨hconnection, hsaid, ?_⟩
    intro t ht
    rcases List.mem_append.mp ht with ht | ht
    · exact hheard t ht
    · split at ht
      · rename_i hand
        refine ⟨List.mem_singleton.mp ht, ?_⟩
        rcases h.identity w with hid | hid
        · exact absurd (hid.symm.trans hand.2.2) (hpeer w (h.started w hw))
        · exact hand.2.2.symm.trans hid
      · cases ht

theorem Wired.moves (hne : ∀ ws, name ws ≠ "") (h : Wired name s) (hm : Moves name W s t) : Wired name t := by
  cases hm with
  | idle => exact h
  | connect hw => exact h.connect hne hw
  | serve tag hc hpost hw => exact h.serve tag hc hpost hw
  | take seed hc hm =>
    refine h.update hc (List.getElem?_eq_some_iff.mp hm).1 (count_handle seed _ _) ?_
    intro ws peer hstranger
    rcases endOf_take W ws peer seed hc hm with hend | ⟨-, hend⟩
    · rwa [hend]
    · rw [hend]
      exact hstranger.hear
  | candidate receiver candidate mid hc =>
    have hle := h.taken _ _ hc
    refine h.update hc hle (by simp) ?_
    intro ws peer hstranger
    rwa [endOf_candidate receiver candidate mid hc]
  | close tag hw => exact h.close hne tag hw

end Ends

/-! ## Two clients that meet -/

/-- How far the older of two clients, which had identified itself before the newer one
connected, and the newer one have come. The flag says whether the newer has identified
itself; there is one message between them at a time. -/
inductive Met : Bool → End → End → Prop where
  | connected : Met false ⟨none, [], []⟩ ⟨none, [.identify], []⟩
  | announced : Met true ⟨none, [], [.available]⟩ ⟨none, [], []⟩
  | offering {o : Description} (ho : o.type = .offer) :
    Met true ⟨some ⟨some o, none⟩, [.setup o], []⟩ ⟨none, [], []⟩
  | offered {o : Description} (ho : o.type = .offer) :
    Met true ⟨some ⟨some o, none⟩, [], []⟩ ⟨none, [], [.setup o]⟩
  | answering {o r : Description} (ho : o.type = .offer) (hr : r.type = .answer) :
    Met true ⟨some ⟨some o, none⟩, [], []⟩ ⟨some ⟨some r, some o⟩, [.setup r], []⟩
  | answered {o r : Description} (ho : o.type = .offer) (hr : r.type = .answer) :
    Met true ⟨some ⟨some o, none⟩, [], [.setup r]⟩ ⟨some ⟨some r, some o⟩, [], []⟩
  | linked {o r : Description} (ho : o.type = .offer) (hr : r.type = .answer) :
    Met true ⟨some ⟨some o, some r⟩, [], []⟩ ⟨some ⟨some r, some o⟩, [], []⟩

section Met
variable {W : WebRTC} {seed : String} {identified : Bool} {e e' : End}

theorem Met.hear_older (h : Met identified e e') : Met identified (e.hear W seed) e' := by
  cases h with
  | announced => exact .offering (W.offer_type seed)
  | answered ho hr =>
    have hnone := W.takes_answer seed _ _ ho hr
    simp only [End.hear, Option.getD_some, hnone]
    exact .linked ho hr
  | connected => exact .connected
  | offering ho => exact .offering ho
  | offered ho => exact .offered ho
  | answering ho hr => exact .answering ho hr
  | linked ho hr => exact .linked ho hr

theorem Met.hear_newer (h : Met identified e e') : Met identified e (e'.hear W seed) := by
  cases h with
  | offered ho =>
    obtain ⟨r, hr, hrespond⟩ := W.answers_offer seed _ ho
    simp only [End.hear, Option.getD_none, hrespond]
    exact .answering ho hr
  | connected => exact .connected
  | announced => exact .announced
  | offering ho => exact .offering ho
  | answering ho hr => exact .answering ho hr
  | answered ho hr => exact .answered ho hr
  | linked ho hr => exact .linked ho hr

/-- What the older says reaches the newer. -/
theorem Met.say_older {connection : Option PeerConnection} {talk : Talk} {said heard : List Talk}
    (h : Met identified ⟨connection, talk :: said, heard⟩ e') :
    identified = true ∧ (∃ d, talk = .setup d) ∧
      Met identified ⟨connection, said, heard⟩ { e' with heard := e'.heard ++ [talk] } := by
  cases h with
  | offering ho => exact ⟨rfl, ⟨_, rfl⟩, .offered ho⟩

/-- What the newer says reaches the older, which is told first that there is the newer. -/
theorem Met.say_newer {connection : Option PeerConnection} {talk : Talk} {said heard : List Talk}
    (h : Met identified e ⟨connection, talk :: said, heard⟩) :
    (identified = false ↔ talk = .identify) ∧ (talk ≠ .identify → ∃ d, talk = .setup d) ∧
      Met true { e with heard := e.heard ++ [talk.delivered] } ⟨connection, said, heard⟩ := by
  cases h with
  | connected => exact ⟨iff_of_true rfl rfl, fun hne => absurd rfl hne, .announced⟩
  | answering ho hr => exact ⟨iff_of_false nofun nofun, fun _ => ⟨_, rfl⟩, .answered ho hr⟩

theorem Met.offers (h : Met identified e e') {c : PeerConnection} (hc : e.connection = some c) :
    ∃ o, o.type = .offer ∧ c.localDescription = some o := by
  cases h with
  | connected => cases hc
  | announced => cases hc
  | offering ho => cases hc; exact ⟨_, ho, rfl⟩
  | offered ho => cases hc; exact ⟨_, ho, rfl⟩
  | answering ho hr => cases hc; exact ⟨_, ho, rfl⟩
  | answered ho hr => cases hc; exact ⟨_, ho, rfl⟩
  | linked ho hr => cases hc; exact ⟨_, ho, rfl⟩

theorem Met.answers (h : Met identified e e') {c : PeerConnection} (hc : e'.connection = some c) :
    ∃ o r, r.type = .answer ∧ c = ⟨some r, some o⟩ ∧
      (e.connection = some ⟨some o, none⟩ ∨ e.connection = some ⟨some o, some r⟩) := by
  cases h with
  | connected => cases hc
  | announced => cases hc
  | offering ho => cases hc
  | offered ho => cases hc
  | answering ho hr => cases hc; exact ⟨_, _, hr, rfl, .inl rfl⟩
  | answered ho hr => cases hc; exact ⟨_, _, hr, rfl, .inl rfl⟩
  | linked ho hr => cases hc; exact ⟨_, _, hr, rfl, .inr rfl⟩

/-- Until they are linked there is something to say or to hear. -/
theorem Met.linked_of_silent (h : Met identified e e') (hsaid : e.said = []) (hheard : e.heard = [])
    (hsaid' : e'.said = []) (hheard' : e'.heard = []) :
    ∃ o r, o.type = .offer ∧ r.type = .answer ∧ e.connection = some ⟨some o, some r⟩ ∧
      e'.connection = some ⟨some r, some o⟩ := by
  cases h with
  | connected => cases hsaid'
  | announced => cases hheard
  | offering ho => cases hsaid
  | offered ho => cases hheard'
  | answering ho hr => cases hsaid'
  | answered ho hr => cases hheard
  | linked ho hr => exact ⟨_, _, ho, hr, rfl, rfl⟩

end Met

structure Meeting (name : ℕ → String) (s : Net) (a b : ℕ) : Prop where
  apart : a ≠ b
  older : a ∈ s.server.sockets
  newer : b ∈ s.server.sockets
  known : s.server.identityOf a = name a
  met : Met (decide (s.server.identityOf b = name b)) (s.endOf a (name b)) (s.endOf b (name a))

section Meeting
variable {name : ℕ → String} {W : WebRTC} {s t : Net} {a b w : ℕ}

/-- Posts have a receiver. -/
theorem ne_empty_of_post (hne : ∀ ws, name ws ≠ "") (h : Wired name s) {c : Client} {rest : List Post}
    {receiver : String} {d : Description} (hc : s.clients w = some c)
    (hpost : c.outbox = .rtcSetup receiver d :: rest) : receiver ≠ "" := by
  rintro rfl
  have hsaid := (h.strangers w "" fun o _ => hne o).2.1
  rw [said_serve hc hpost] at hsaid
  exact nomatch hsaid (.setup d) (by simp [saidTo])

/-- What a client says to a peer that it takes for identified, and nothing else, the peer hears. -/
theorem gained_setup (hne : ∀ ws, name ws ≠ "") (h : Wired name s) {c : Client} {rest : List Post} {receiver : String}
    {d : Description} (hc : s.clients w = some c) (hpost : c.outbox = .rtcSetup receiver d :: rest)
    (hb : b ∈ s.server.sockets) (hid : s.server.identityOf b = name b ∨ receiver ≠ name b) :
    gained s.server w b (.rtcSetup receiver d) = (saidTo (name b) (.rtcSetup receiver d)).toList := by
  have hreceiver := ne_empty_of_post hne h hc hpost
  have hiff : (b ∈ s.server.sockets ∧ s.server.identityOf b = receiver) ↔ receiver = name b := by
    constructor
    · rintro ⟨-, hb⟩
      rcases h.identity b with hname | hempty
      · exact hb.symm.trans hname
      · exact absurd (hb.symm.trans hempty) hreceiver
    · intro hr
      exact ⟨hb, (hid.resolve_right fun hn => hn hr).trans hr.symm⟩
  show (if b ∈ s.server.sockets ∧ s.server.identityOf b = receiver then _ else _) =
    (if receiver = name b then _ else _ : Option Talk).toList
  by_cases hr : receiver = name b
  · rw [if_pos (hiff.mpr hr), if_pos hr]
    rfl
  · rw [if_neg (fun hand => hr (hiff.mp hand)), if_neg hr]
    rfl

theorem Meeting.serve_older (hname : Function.Injective name) (hne : ∀ ws, name ws ≠ "") (hw : Wired name s)
    (h : Meeting name s a b) {c : Client} {post : Post} {rest : List Post} (tag : String) (hc : s.clients a = some c)
    (hpost : c.outbox = post :: rest) :
    Meeting name ({ s with server := s.server.onClientMessage a (post.message (name a) tag) }.update a
      { c with outbox := rest }) a b := by
  have hnames : name a ≠ name b := fun he => h.apart (hname he)
  have hmet := h.met
  have hsaid := said_serve hc hpost (name b)
  -- the older has identified itself, so this is no request to
  have hpost' : post ≠ .setIdentityRequest := by
    rintro rfl
    have hcount := hw.introduced a c hc
    rw [hpost, List.count_cons_self, if_pos h.known] at hcount
    omega
  have hidentity : ∀ ws, (s.server.onClientMessage a (post.message (name a) tag)).identityOf ws =
      s.server.identityOf ws := by
    intro ws
    rw [identityOf_serve h.older, if_neg fun hand => hpost' hand.1]
  refine ⟨h.apart, (sockets_onClientMessage _).symm ▸ h.older, (sockets_onClientMessage _).symm ▸ h.newer,
    (hidentity a).trans h.known, ?_⟩
  show Met (decide ((s.server.onClientMessage a (post.message (name a) tag)).identityOf b = name b)) _ _
  rw [hidentity, endOf_serve hw tag hc, endOf_serve hw tag hc, if_pos rfl, if_pos rfl, if_neg hnames,
    if_neg (Ne.symm h.apart), List.append_nil]
  generalize s.endOf a (name b) = e at hmet hsaid
  obtain ⟨connection, said, heard⟩ := e
  dsimp only at hsaid ⊢
  subst hsaid
  cases post with
  | setIdentityRequest => exact absurd rfl hpost'
  | rtcCandidate receiver candidate mid =>
    rw [show gained s.server a b (.rtcCandidate receiver candidate mid) = [] from rfl, List.append_nil]
    exact hmet
  | rtcSetup receiver d =>
    by_cases hreceiver : receiver = name b
    · rw [saidTo, if_pos hreceiver] at hmet
      obtain ⟨hidentified, -, hnext⟩ := hmet.say_older
      rw [gained_setup hne hw hc hpost h.newer (.inl (of_decide_eq_true hidentified)), saidTo, if_pos hreceiver]
      exact hnext
    · rw [gained_setup hne hw hc hpost h.newer (.inr hreceiver), saidTo, if_neg hreceiver]
      rw [saidTo, if_neg hreceiver] at hmet
      rw [Option.toList_none, List.append_nil]
      exact hmet

theorem Meeting.serve_newer (hname : Function.Injective name) (hne : ∀ ws, name ws ≠ "") (hw : Wired name s)
    (h : Meeting name s a b) {c : Client} {post : Post} {rest : List Post} (tag : String) (hc : s.clients b = some c)
    (hpost : c.outbox = post :: rest) :
    Meeting name ({ s with server := s.server.onClientMessage b (post.message (name b) tag) }.update b
      { c with outbox := rest }) a b := by
  have hnames : name b ≠ name a := fun he => h.apart (hname he.symm)
  have hmet := h.met
  have hsaid := said_serve hc hpost (name a)
  have hknown : (s.server.onClientMessage b (post.message (name b) tag)).identityOf a = name a := by
    rw [identityOf_serve h.newer, if_neg fun hand => h.apart hand.2]
    exact h.known
  refine ⟨h.apart, (sockets_onClientMessage _).symm ▸ h.older, (sockets_onClientMessage _).symm ▸ h.newer,
    hknown, ?_⟩
  show Met (decide ((s.server.onClientMessage b (post.message (name b) tag)).identityOf b = name b)) _ _
  rw [identityOf_serve h.newer, endOf_serve hw tag hc, endOf_serve hw tag hc, if_pos rfl, if_neg h.apart,
    if_pos rfl, if_neg hnames, List.append_nil]
  generalize s.endOf b (name a) = e at hmet hsaid
  obtain ⟨connection, said, heard⟩ := e
  dsimp only at hsaid ⊢
  subst hsaid
  cases post with
  | setIdentityRequest =>
    have hgained : gained s.server b a .setIdentityRequest = [.available] := if_pos ⟨h.older, h.apart⟩
    obtain ⟨-, -, hnext⟩ := hmet.say_newer
    rw [hgained, if_pos ⟨rfl, rfl⟩, decide_eq_true rfl]
    exact hnext
  | rtcCandidate receiver candidate mid =>
    rw [show gained s.server b a (.rtcCandidate receiver candidate mid) = [] from rfl, List.append_nil,
      if_neg (fun hand => nomatch hand.1)]
    exact hmet
  | rtcSetup receiver d =>
    rw [if_neg (fun hand => nomatch hand.1), gained_setup hne hw hc hpost h.older (.inl h.known)]
    by_cases hreceiver : receiver = name a
    · rw [saidTo, if_pos hreceiver] at hmet ⊢
      obtain ⟨hidentified, -, hnext⟩ := hmet.say_newer
      have htrue : decide (s.server.identityOf b = name b) = true :=
        Bool.eq_true_of_not_eq_false fun hfalse => nomatch hidentified.mp hfalse
      rw [htrue]
      exact hnext
    · rw [saidTo, if_neg hreceiver] at hmet ⊢
      rw [Option.toList_none, List.append_nil]
      exact hmet

/-- What others say to the server is nothing to the two. -/
theorem Meeting.serve_other (hname : Function.Injective name) (hw : Wired name s) (h : Meeting name s a b)
    {c : Client} {post : Post} {rest : List Post} (tag : String) (hc : s.clients w = some c)
    (hmem : w ∈ s.server.sockets) (ha : w ≠ a) (hb : w ≠ b) :
    Meeting name ({ s with server := s.server.onClientMessage w (post.message (name w) tag) }.update w
      { c with outbox := rest }) a b := by
  have hidentity : ∀ ws, w ≠ ws → (s.server.onClientMessage w (post.message (name w) tag)).identityOf ws =
      s.server.identityOf ws := by
    intro ws hws
    rw [identityOf_serve hmem, if_neg fun hand => hws hand.2.symm]
  refine ⟨h.apart, (sockets_onClientMessage _).symm ▸ h.older, (sockets_onClientMessage _).symm ▸ h.newer,
    (hidentity a ha).trans h.known, ?_⟩
  show Met (decide ((s.server.onClientMessage w (post.message (name w) tag)).identityOf b = name b)) _ _
  rw [hidentity b hb, endOf_serve hw tag hc, endOf_serve hw tag hc, if_neg (Ne.symm ha), if_neg (Ne.symm hb),
    if_neg (fun he => hb (hname he)), if_neg (fun he => ha (hname he)), List.append_nil, List.append_nil]
  exact h.met

theorem Meeting.moves (hname : Function.Injective name) (hne : ∀ ws, name ws ≠ "") (hw : Wired name s)
    (h : Meeting name s a b) (hm : Moves name W s t) (ha : a ∈ t.server.sockets) (hb : b ∈ t.server.sockets) :
    Meeting name t a b := by
  cases hm with
  | idle => exact h
  | connect hw' =>
    rename_i w
    have haw : a ≠ w := by
      rintro rfl
      exact hw.started a h.older hw'
    have hbw : b ≠ w := by
      rintro rfl
      exact hw.started b h.newer hw'
    refine ⟨h.apart, ha, hb, (identityOf_client _ _ _).trans h.known, ?_⟩
    show Met (decide ((s.server.onClient w).identityOf b = name b)) _ _
    rw [identityOf_client, endOf_connect hw hw', endOf_connect hw hw', if_neg haw, if_neg hbw]
    exact h.met
  | serve tag hc hpost hmem =>
    rename_i w c post rest
    by_cases hwa : w = a
    · subst hwa
      exact h.serve_older hname hne hw tag hc hpost
    · by_cases hwb : w = b
      · subst hwb
        exact h.serve_newer hname hne hw tag hc hpost
      · exact h.serve_other hname hw tag hc hmem hwa hwb
  | take seed hc hm =>
    refine ⟨h.apart, ha, hb, h.known, ?_⟩
    have holder := endOf_take W a (name b) seed hc hm
    have hnewer := endOf_take W b (name a) seed hc hm
    rcases holder with holder | ⟨-, holder⟩ <;> rcases hnewer with hnewer | ⟨-, hnewer⟩ <;> rw [holder, hnewer]
    · exact h.met
    · exact h.met.hear_newer
    · exact h.met.hear_older
    · exact h.met.hear_newer.hear_older
  | candidate receiver candidate mid hc =>
    refine ⟨h.apart, ha, hb, h.known, ?_⟩
    rw [endOf_candidate receiver candidate mid hc, endOf_candidate receiver candidate mid hc]
    exact h.met
  | close tag hmem =>
    rename_i w
    have hforgets := forgets_onClientClosed hmem tag
    have haw := ((hforgets.sockets a).mp ha).2
    have hbw := ((hforgets.sockets b).mp hb).2
    -- who closes is known under another name, or under none
    have hother : ∀ ws, ws ≠ w → s.server.identityOf w ≠ name ws := by
      intro ws hws he
      rcases hw.identity w with hid | hid
      · exact hws (hname (he.symm.trans hid))
      · exact hne ws (he.symm.trans hid)
    refine ⟨h.apart, ha, hb, (hforgets.identityOf a haw).trans h.known, ?_⟩
    show Met (decide ((s.server.onClientClosed w tag).identityOf b = name b)) _ _
    rw [hforgets.identityOf b hbw, endOf_close hw tag hmem, endOf_close hw tag hmem,
      if_neg (fun hand => hother b hbw hand.2.2), if_neg (fun hand => hother a haw hand.2.2), List.append_nil,
      List.append_nil]
    exact h.met

/-- They meet when the newer one connects. -/
theorem Meeting.begins (hname : Function.Injective name) (hne : ∀ ws, name ws ≠ "") (hw : Wired name s)
    (ha : a ∈ s.server.sockets) (hknown : s.server.identityOf a = name a) (hb : s.clients b = none) :
    Meeting name (step name W s (.connect b)) a b := by
  have hapart : a ≠ b := by
    rintro rfl
    exact hw.started a ha hb
  have hstep : step name W s (.connect b) =
      { s with server := s.server.onClient b }.update b ⟨∅, [.setIdentityRequest], 0⟩ := by
    simp only [step, hb]
  have hunidentified : s.server.identityOf b ≠ name b := by
    rw [hw.idle_identity hb]
    exact Ne.symm (hne b)
  have holder : s.endOf a (name b) = ⟨none, [], []⟩ := by
    obtain ⟨hconnection, hsaid, hheard⟩ := hw.strangers a (name b) fun o ho he => ho (hname he ▸ hb)
    obtain ⟨c, hc⟩ := Option.ne_none_iff_exists'.mp (hw.started a ha)
    have hcount := hw.introduced a c hc
    rw [if_pos hknown] at hcount
    have hnone : .setIdentityRequest ∉ c.outbox := List.count_eq_zero.mp (by omega)
    rw [endOf_some hc] at hconnection hsaid hheard ⊢
    dsimp only at hconnection hsaid hheard
    rw [hconnection, List.eq_nil_iff_forall_not_mem.mpr fun t ht => hne b (hheard t ht).2]
    congr 1
    rw [List.eq_nil_iff_forall_not_mem]
    intro t ht
    obtain ⟨post, hpost, hsays⟩ := List.mem_filterMap.mp ht
    rw [hsaid t ht] at hsays
    cases post with
    | setIdentityRequest => exact hnone hpost
    | rtcSetup receiver d =>
      rw [saidTo] at hsays
      split at hsays <;> cases hsays
    | rtcCandidate receiver candidate mid => cases hsays
  rw [hstep]
  refine ⟨hapart, mem_sockets_onClient.mpr (.inl ha), mem_sockets_onClient.mpr (.inr rfl),
    (identityOf_client _ _ _).trans hknown, ?_⟩
  show Met (decide ((s.server.onClient b).identityOf b = name b)) _ _
  rw [identityOf_client, decide_eq_false hunidentified, endOf_connect hw hb, endOf_connect hw hb, if_neg hapart,
    if_pos rfl, holder]
  exact .connected

theorem started_moves (hm : Moves name W s t) (hc : s.clients w ≠ none) : t.clients w ≠ none := by
  have hupdate : ∀ (r : Net) (v : ℕ) (c : Client), r.clients = s.clients → (r.update v c).clients w ≠ none := by
    intro r v c hr
    rw [clients_update, hr]
    split
    · nofun
    · exact hc
  cases hm with
  | idle => exact hc
  | close tag hw => exact hc
  | _ => exact hupdate _ _ _ rfl

/-- A socket that was closed does not come back. -/
theorem mem_sockets_moves (hm : Moves name W s t) (hc : s.clients w ≠ none) (h : w ∈ t.server.sockets) :
    w ∈ s.server.sockets := by
  cases hm with
  | connect hv =>
    refine (mem_sockets_onClient.mp h).resolve_right ?_
    rintro rfl
    exact hc hv
  | serve tag hc' hpost hw => exact (sockets_onClientMessage _) ▸ h
  | close tag hw => exact (((forgets_onClientClosed hw tag).sockets _).mp h).1
  | _ => exact h

end Meeting

theorem wired_create (name : ℕ → String) : Wired name Net.create where
  nodup := List.nodup_nil
  keyed := present_create.keyed
  identity _ := .inr rfl
  started _ h := nomatch h
  silent _ _ _ := rfl
  taken _ _ h := nomatch h
  introduced _ _ h := nomatch h
  strangers _ _ _ := ⟨rfl, nofun, nofun⟩

/-! ## At rest -/

def Net.connection (s : Net) (ws : ℕ) (peer : String) : Option PeerConnection :=
  (s.clients ws).bind fun c => c.connectionMap[peer]?

theorem connection_endOf (s : Net) (ws : ℕ) (peer : String) : (s.endOf ws peer).connection = s.connection ws peer := by
  unfold Net.endOf Net.connection
  cases s.clients ws <;> rfl

/-- The client has nothing to send and has processed all that it was sent. -/
def AtRest (s : Net) (ws : ℕ) : Prop :=
  ∀ c ∈ s.clients ws, c.outbox = [] ∧ (heard s.server ws).length ≤ c.taken

instance (s : Net) (ws : ℕ) : Decidable (AtRest s ws) := inferInstanceAs (Decidable (∀ c ∈ s.clients ws, _))

theorem AtRest.endOf {s : Net} {ws : ℕ} (h : AtRest s ws) (peer : String) :
    (s.endOf ws peer).said = [] ∧ (s.endOf ws peer).heard = [] := by
  cases hc : s.clients ws with
  | none => rw [endOf_none hc]; exact ⟨rfl, rfl⟩
  | some c =>
    obtain ⟨houtbox, htaken⟩ := h c hc
    rw [endOf_some hc, houtbox, List.drop_eq_nil_of_le htaken]
    exact ⟨rfl, rfl⟩

/-- **Peers find each other, once.** Clients connect, identify themselves and leave, and
messages between them and the server take any time. Of two clients of which one had
identified itself before the other connected, as long as both are connected, only the
first ever offers and only the second answers, each to the other's description; and
whenever both are at rest, each holds the description of the other. -/
theorem linked_at_rest (name : ℕ → String) (W : WebRTC) (before after : List Action) (a b : ℕ)
    (hname : Function.Injective name) (hne : ∀ ws, name ws ≠ "")
    (ha : a ∈ (run (step name W) Net.create before).server.sockets)
    (hknown : (run (step name W) Net.create before).server.identityOf a = name a)
    (hb : (run (step name W) Net.create before).clients b = none) :
    let s := run (step name W) Net.create (before ++ .connect b :: after)
    a ∈ s.server.sockets → b ∈ s.server.sockets →
      (∀ c, s.connection a (name b) = some c → ∃ o, o.type = .offer ∧ c.localDescription = some o) ∧
      (∀ c, s.connection b (name a) = some c → ∃ o r, r.type = .answer ∧ c = ⟨some r, some o⟩ ∧
        (s.connection a (name b) = some ⟨some o, none⟩ ∨ s.connection a (name b) = some ⟨some o, some r⟩)) ∧
      (AtRest s a → AtRest s b → ∃ o r, o.type = .offer ∧ r.type = .answer ∧
        s.connection a (name b) = some ⟨some o, some r⟩ ∧ s.connection b (name a) = some ⟨some r, some o⟩) := by
  intro s hsa hsb
  have hwired : ∀ (as : List Action) {r : Net}, Wired name r → Wired name (run (step name W) r as) :=
    run_keeps fun r act h => h.moves hne (moves_step name W r act)
  have hbefore := hwired before (wired_create name)
  have hbegins : Meeting name (step name W (run (step name W) Net.create before) (.connect b)) a b :=
    Meeting.begins hname hne hbefore ha hknown hb
  let I (r : Net) : Prop := (Wired name r ∧ r.clients a ≠ none ∧ r.clients b ≠ none) ∧
    (a ∈ r.server.sockets → b ∈ r.server.sockets → Meeting name r a b)
  have hkeeps : ∀ r act, I r → I (step name W r act) := by
    rintro r act ⟨⟨hr, hca, hcb⟩, hmeeting⟩
    have hm := moves_step name W r act
    refine ⟨⟨hr.moves hne hm, started_moves hm hca, started_moves hm hcb⟩, ?_⟩
    intro hta htb
    exact (hmeeting (mem_sockets_moves hm hca hta) (mem_sockets_moves hm hcb htb)).moves hname hne hr hm hta htb
  have hstart := hbefore.moves hne (moves_step name W _ (.connect b))
  have hrun : s = run (step name W) (step name W (run (step name W) Net.create before) (.connect b)) after :=
    run_append _ _ _
  have hmeeting : Meeting name s a b := by
    have hI : I s := by
      rw [hrun]
      exact run_keeps hkeeps after
        ⟨⟨hstart, hstart.started a hbegins.older, hstart.started b hbegins.newer⟩, fun _ _ => hbegins⟩
    exact hI.2 hsa hsb
  have hmet := hmeeting.met
  rw [← connection_endOf, ← connection_endOf]
  refine ⟨fun c hc => hmet.offers hc, fun c hc => hmet.answers hc, ?_⟩
  intro hrest hrest'
  obtain ⟨hsaid, hheard⟩ := hrest.endOf (name b)
  obtain ⟨hsaid', hheard'⟩ := hrest'.endOf (name a)
  exact hmet.linked_of_silent hsaid hheard hsaid' hheard'

/-- Answers every offer, and nothing else. -/
def plainWebRTC : WebRTC where
  offer seed := ⟨seed, .offer⟩
  respond seed _ d := if d.type = .offer then some ⟨seed, .answer⟩ else none
  offer_type _ := rfl
  answers_offer seed d hd := ⟨⟨seed, .answer⟩, rfl, if_pos hd⟩
  takes_answer _ _ _ _ hd := if_neg (by rw [hd]; decide)

def strokes (ws : ℕ) : String := String.ofList (List.replicate (ws + 1) 'I')

theorem strokes_injective : Function.Injective strokes := by
  intro ws ws' h
  have hlength := congrArg List.length (String.ofList_injective h)
  simpa using hlength

theorem strokes_ne_empty (ws : ℕ) : strokes ws ≠ "" := by
  intro h
  have hlength := congrArg (fun s => s.toList.length) h
  simp [strokes] at hlength

def started : List Action := [.connect 0, .serve 0 "first", .take 0 ""]

/-- The second of two clients finds the first, while a third comes and goes. -/
def joining : List Action :=
  [.serve 1 "second", .connect 2, .take 1 "", .take 0 "sdp of 0", .serve 2 "third", .serve 0 "offer", .take 1 "lost",
    .take 1 "sdp of 1", .close 2 fun _ => "gone", .candidate 1 "I" "host" "0", .serve 1 "lost", .serve 1 "answer",
    .serve 1 "candidate", .take 0 "lost", .take 0 "", .take 0 "", .take 0 "", .serve 0 "lost", .take 1 ""]

theorem linked_at_rest_joining :
    ∃ o r, o.type = .offer ∧ r.type = .answer ∧
      (run (step strokes plainWebRTC) Net.create (started ++ .connect 1 :: joining)).connection 0 (strokes 1) =
        some ⟨some o, some r⟩ ∧
      (run (step strokes plainWebRTC) Net.create (started ++ .connect 1 :: joining)).connection 1 (strokes 0) =
        some ⟨some r, some o⟩ :=
  (linked_at_rest strokes plainWebRTC started joining 0 1 strokes_injective strokes_ne_empty (by decide +kernel)
    (by decide +kernel) rfl (by decide +kernel) (by decide +kernel)).2.2 (by decide +kernel) (by decide +kernel)

end Krapi.Mesh
