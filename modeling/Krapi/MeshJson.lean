import Krapi.Wire
import Krapi.Lib.Simulation

/-! # Clients and server over JSON

In `Mesh` the clients and the server hand each other messages. What they hand each
other is JSON: the server reads a JSON value, looks into the content only where it has
to, and makes a JSON value for each socket; a client reads that and the content as the
listener of the type does. The two agree step by step, whatever happens, since nothing
is ever sent that reads differently from what it was. A JSON value stands for its text:
`dump` and `parse` are those of the JSON library. -/
namespace Krapi.MeshJson
open Krapi.Messages Krapi.Codec Krapi.Lib Krapi.Lib.Run Krapi.Lib.Simulation Krapi.Signaling Krapi.Presence
open Krapi.Mesh Krapi.Wire
open Krapi.Relay (heard_of_sent_eq)

/-! ## The two levels -/

/-- The JSON of a message. -/
def jsonOf (m : SignalingMessage (Content Json)) : Json :=
  signalingMessageToJson ⟨m.type, m.senderIdentity, m.receiverIdentity, m.tag, signalingContentToJson m.content⟩

/-- `on_client_message`, from the JSON on. A value that is not read changes nothing. -/
def onClientJson (s : Server Json) (ws : ℕ) (json : Json) : Server Json :=
  match signalingMessageFromJson json with
  | some m =>
    s.onClientMessage ws ⟨m.type, m.senderIdentity, m.receiverIdentity, m.tag, serverContent m.content m.type⟩
  | none => s

/-- `onMessage` of the client's websocket and the listener of the type. -/
def readJson (json : Json) : Option (SignalingMessage (Content Rtc)) := do
  let m ← signalingMessageFromJson json
  let content ← clientContent m.content m.type
  return ⟨m.type, m.senderIdentity, m.receiverIdentity, m.tag, content⟩

def handleJson (W : WebRTC) (seed : String) (c : Client) (json : Json) : Client :=
  match readJson json with
  | some m => c.handle W seed m
  | none => c

structure JsonNet where
  server : Server Json
  clients : ℕ → Option Client

def JsonNet.create : JsonNet := ⟨.create, fun _ => none⟩

def JsonNet.update (s : JsonNet) (ws : ℕ) (c : Client) : JsonNet :=
  { s with clients := Function.update s.clients ws (some c) }

section Contents
variable {C E : Type} (f : C → E)

def mapContent : Content C → Content E
  | .null => .null
  | .identity identity => .identity identity
  | .identities identities => .identities identities
  | .rtc content => .rtc (f content)

def mapMessage (m : SignalingMessage (Content C)) : SignalingMessage (Content E) :=
  ⟨m.type, m.senderIdentity, m.receiverIdentity, m.tag, mapContent f m.content⟩

def mapServer (s : Server C) : Server E :=
  ⟨s.sockets, s.socketIdentityMap, s.sent.map fun sent => (sent.1, mapMessage f sent.2)⟩

end Contents

/-- The mesh, with JSON under way. -/
def jsonStep (name : ℕ → String) (W : WebRTC) (s : JsonNet) : Action → JsonNet
  | .connect ws =>
    match s.clients ws with
    | none => { s with server := s.server.onClient ws }.update ws ⟨∅, [.setIdentityRequest], 0⟩
    | some _ => s
  | .serve ws tag =>
    match s.clients ws with
    | some ⟨connectionMap, post :: rest, taken⟩ =>
      if ws ∈ s.server.sockets then
        let json := jsonOf (mapMessage rtcToJson (post.message (name ws) tag))
        { s with server := onClientJson s.server ws json }.update ws ⟨connectionMap, rest, taken⟩
      else s
    | _ => s
  | .take ws seed =>
    match s.clients ws with
    | some c =>
      match (heard s.server ws)[c.taken]? with
      | some m => s.update ws { handleJson W seed c (jsonOf m) with taken := c.taken + 1 }
      | none => s
    | none => s
  | .candidate ws peer candidate mid =>
    match s.clients ws with
    | some c =>
      if peer ∈ c.connectionMap then s.update ws { c with outbox := c.outbox ++ [.rtcCandidate peer candidate mid] }
      else s
    | none => s
  | .close ws tag => if ws ∈ s.server.sockets then { s with server := s.server.onClientClosed ws tag } else s

/-- A state of the mesh with the JSON of what is under way. -/
def inJson (s : Net) : JsonNet := ⟨mapServer rtcToJson s.server, s.clients⟩

/-! ## The server does not look into the contents it hands on -/

section Server
variable {C E : Type} (f : C → E) (s : Server C) (ws : ℕ)

theorem mapServer_send (m : SignalingMessage (Content C)) :
    mapServer f (s.send ws m) = (mapServer f s).send ws (mapMessage f m) := by
  unfold mapServer Server.send
  rw [List.map_append]
  rfl

theorem mapServer_tell {g : ℕ → String → Option (SignalingMessage (Content C))}
    {h : ℕ → String → Option (SignalingMessage (Content E))}
    (hgh : ∀ ws identity, h ws identity = (g ws identity).map (mapMessage f)) :
    mapServer f (s.tell g ws) = (mapServer f s).tell h ws := by
  have hidentity : ((mapServer f s).touch ws).identityOf ws = (s.touch ws).identityOf ws := rfl
  unfold Server.tell
  dsimp only
  rw [hidentity, hgh]
  cases g ws ((s.touch ws).identityOf ws) with
  | none => rfl
  | some m => exact mapServer_send f (s.touch ws) ws m

theorem mapServer_foldl_tell {g : ℕ → String → Option (SignalingMessage (Content C))}
    {h : ℕ → String → Option (SignalingMessage (Content E))}
    (hgh : ∀ ws identity, h ws identity = (g ws identity).map (mapMessage f)) (l : List ℕ) (s : Server C) :
    mapServer f (l.foldl (Server.tell g) s) = l.foldl (Server.tell h) (mapServer f s) := by
  induction l generalizing s with
  | nil => rfl
  | cons ws rest ih => rw [List.foldl_cons, ih, mapServer_tell f s ws hgh, List.foldl_cons]

theorem mapServer_foldl_touch (l : List ℕ) (s : Server C) :
    mapServer f (l.foldl Server.touch s) = l.foldl Server.touch (mapServer f s) := by
  induction l generalizing s with
  | nil => rfl
  | cons ws rest ih => exact ih (s.touch ws)

theorem forward_mapMessage (m : SignalingMessage (Content C)) (ws : ℕ) (identity : String) :
    Server.forward (mapMessage f m) ws identity = (Server.forward m ws identity).map (mapMessage f) := by
  unfold Server.forward
  show (if identity = m.receiverIdentity then _ else _) = _
  split <;> rfl

theorem mapServer_onClientMessage (m : SignalingMessage (Content C)) :
    mapServer f (s.onClientMessage ws m) = (mapServer f s).onClientMessage ws (mapMessage f m) := by
  obtain ⟨type, sender, receiver, tag, content⟩ := m
  cases type with
  | setIdentityRequest =>
    cases content with
    | identity identity =>
      refine (mapServer_foldl_tell f (h := Server.peerAvailable tag identity) (fun _ _ => rfl) _ _).trans ?_
      rw [mapServer_send]
      rfl
    | _ => rfl
  | availablePeersRequest =>
    refine (mapServer_send f _ ws _).trans ?_
    rw [mapServer_foldl_touch]
    rfl
  | rtcSetup => exact mapServer_foldl_tell f (forward_mapMessage f _) _ _
  | rtcCandidate => exact mapServer_foldl_tell f (forward_mapMessage f _) _ _
  | _ => rfl

theorem mapServer_onClientClosed (tag : ℕ → String) :
    mapServer f (s.onClientClosed ws tag) = (mapServer f s).onClientClosed ws tag := by
  unfold Server.onClientClosed
  dsimp only
  split
  · rename_i hin
    refine Eq.trans ?_ (if_pos (show ws ∈ ((mapServer f s).touch ws).sockets from hin)).symm
    exact mapServer_foldl_tell f (fun _ _ => rfl) _ _
  · rename_i hout
    exact (if_neg (show ws ∉ ((mapServer f s).touch ws).sockets from hout)).symm

theorem heard_mapServer : heard (mapServer f s) ws = (heard s ws).map (mapMessage f) := by
  unfold heard mapServer
  rw [List.filterMap_map, List.map_filterMap]
  refine List.filterMap_congr ?_
  intro sent _
  by_cases h : sent.1 = ws <;> simp [h]

end Server

/-! ## Whatever is sent reads as what it was -/

/-- A client that is sent the JSON of the message gets the message. -/
def Reads (m : SignalingMessage (Content Rtc)) : Prop := readJson (jsonOf (mapMessage rtcToJson m)) = some m

theorem reads_of_content {m : SignalingMessage (Content Rtc)} (htype : m.type ≠ .acknowledgement)
    (hcontent : clientContent (signalingContentToJson (mapContent rtcToJson m.content)) m.type = some m.content) :
    Reads m := by
  have hread : readType m.type = m.type := if_neg htype
  unfold Reads readJson jsonOf
  rw [signalingMessageFromJson_toJson]
  show (clientContent (signalingContentToJson (mapContent rtcToJson m.content)) (readType m.type)).bind _ = _
  rw [hread, hcontent]
  exact congrArg (fun type => some (SignalingMessage.mk type _ _ _ _)) hread

theorem reads_setIdentityResponse (receiver tag : String) :
    Reads ⟨.setIdentityResponse, "signaling_server", receiver, tag, .null⟩ := reads_of_content nofun rfl

theorem reads_peerAvailable (tag identity : String) (ws : ℕ) (receiver : String) :
    ∀ m ∈ Server.peerAvailable tag identity ws receiver, Reads m := by
  rintro m ⟨⟩
  exact reads_of_content nofun rfl

theorem reads_peerClosed (tag : ℕ → String) (identity : String) (ws : ℕ) (receiver : String) :
    ∀ m ∈ Server.peerClosed tag identity ws receiver, Reads m := by
  rintro m ⟨⟩
  exact reads_of_content nofun rfl

/-- Only connection messages are handed on. -/
theorem reads_forward (post : Post) (me tag : String) (hpost : post ≠ .setIdentityRequest) (ws : ℕ)
    (identity : String) :
    ∀ m ∈ Server.forward (post.message me tag) ws identity, Reads m := by
  intro m hm
  have hsame : m = post.message me tag := by
    unfold Server.forward at hm
    split at hm
    · exact (Option.some.inj hm).symm
    · cases hm
  rw [hsame]
  cases post with
  | setIdentityRequest => exact absurd rfl hpost
  | rtcSetup receiver d => exact reads_of_content nofun (congrArg (Option.map _) (descriptionFromJson_toJson d))
  | rtcCandidate receiver candidate mid =>
    exact reads_of_content nofun (congrArg (Option.map _) (candidateFromJson_toJson candidate mid))

def AllRead (s : Server Rtc) : Prop := ∀ sent ∈ s.sent, Reads sent.2

section AllRead
variable {s : Server Rtc} {ws : ℕ}

theorem AllRead.send (h : AllRead s) (ws : ℕ) {m : SignalingMessage (Content Rtc)} (hm : Reads m) :
    AllRead (s.send ws m) :=
  List.forall_mem_append.mpr ⟨h, List.forall_mem_singleton.mpr hm⟩

theorem AllRead.foldl_tell {g : ℕ → String → Option (SignalingMessage (Content Rtc))} (h : AllRead s)
    (hg : ∀ ws identity, ∀ m ∈ g ws identity, Reads m) (l : List ℕ) : AllRead (l.foldl (Server.tell g) s) := by
  intro sent hsent
  rcases (Server.mem_sent_foldl_tell g l s).mp hsent with hbefore | ⟨-, hnow⟩
  · exact h sent hbefore
  · exact hg _ _ _ hnow

theorem AllRead.post (h : AllRead s) (post : Post) (me tag : String) :
    AllRead (s.onClientMessage ws (post.message me tag)) := by
  have htouch : AllRead (s.touch ws) := h
  cases post with
  | setIdentityRequest =>
    have hidentified : AllRead { s.touch ws with socketIdentityMap := (s.touch ws).socketIdentityMap.insert ws me } := h
    exact (hidentified.send ws (reads_setIdentityResponse me tag)).foldl_tell (reads_peerAvailable tag me) _
  | rtcSetup receiver d => exact htouch.foldl_tell (reads_forward (.rtcSetup receiver d) me tag nofun) _
  | rtcCandidate receiver candidate mid =>
    exact htouch.foldl_tell (reads_forward (.rtcCandidate receiver candidate mid) me tag nofun) _

theorem AllRead.onClientClosed (h : AllRead s) (tag : ℕ → String) : AllRead (s.onClientClosed ws tag) := by
  unfold Server.onClientClosed
  dsimp only
  split
  · have hgone : AllRead { s.touch ws with
        sockets := s.sockets.filter fun socket => socket ≠ ws
        socketIdentityMap := (s.touch ws).socketIdentityMap.erase ws } := h
    exact hgone.foldl_tell (reads_peerClosed tag (s.identityOf ws)) _
  · exact h

end AllRead

/-- What a client sends the server reads as what it was. -/
theorem onClientJson_post (s : Server Json) (ws : ℕ) (post : Post) (me tag : String) :
    onClientJson s ws (jsonOf (mapMessage rtcToJson (post.message me tag))) =
      s.onClientMessage ws (mapMessage rtcToJson (post.message me tag)) := by
  unfold onClientJson jsonOf
  rw [signalingMessageFromJson_toJson]
  cases post <;> rfl

/-! ## Step by step -/

section Steps
variable (name : ℕ → String) (W : WebRTC) {s : Net}

theorem jsonStep_serve (h : AllRead s.server) (ws : ℕ) (tag : String) :
    jsonStep name W (inJson s) (.serve ws tag) = inJson (step name W s (.serve ws tag)) ∧
      AllRead (step name W s (.serve ws tag)).server := by
  obtain ⟨server, clients⟩ := s
  simp only [jsonStep, step, inJson]
  cases clients ws with
  | none => exact ⟨rfl, h⟩
  | some c =>
    obtain ⟨connectionMap, outbox, taken⟩ := c
    cases outbox with
    | nil => exact ⟨rfl, h⟩
    | cons post rest =>
      dsimp only
      by_cases hin : ws ∈ server.sockets
      · rw [if_pos hin, onClientJson_post, ← mapServer_onClientMessage]
        exact ⟨if_pos hin, h.post post (name ws) tag⟩
      · rw [if_neg hin]
        exact ⟨if_neg hin, h⟩

theorem jsonStep_take (h : AllRead s.server) (ws : ℕ) (seed : String) :
    jsonStep name W (inJson s) (.take ws seed) = inJson (step name W s (.take ws seed)) ∧
      AllRead (step name W s (.take ws seed)).server := by
  obtain ⟨server, clients⟩ := s
  simp only [jsonStep, step, inJson]
  cases clients ws with
  | none => exact ⟨rfl, h⟩
  | some c =>
    dsimp only
    rw [heard_mapServer, List.getElem?_map]
    cases hm : (heard server ws)[c.taken]? with
    | none => exact ⟨rfl, h⟩
    | some m =>
      have hreads : Reads m := by
        obtain ⟨sent, hsent, he⟩ := List.mem_filterMap.mp (List.mem_of_getElem? hm)
        split at he
        · cases he
          exact h sent hsent
        · cases he
      have hhandle : handleJson W seed c (jsonOf (mapMessage rtcToJson m)) = c.handle W seed m := by
        unfold handleJson
        rw [show readJson _ = some m from hreads]
      rw [Option.map_some]
      dsimp only
      rw [hhandle]
      exact ⟨rfl, h⟩

theorem jsonStep_close (h : AllRead s.server) (ws : ℕ) (tag : ℕ → String) :
    jsonStep name W (inJson s) (.close ws tag) = inJson (step name W s (.close ws tag)) ∧
      AllRead (step name W s (.close ws tag)).server := by
  obtain ⟨server, clients⟩ := s
  simp only [jsonStep, step, inJson]
  by_cases hin : ws ∈ server.sockets
  · rw [if_pos hin, ← mapServer_onClientClosed]
    exact ⟨if_pos hin, h.onClientClosed tag⟩
  · rw [if_neg hin]
    exact ⟨if_neg hin, h⟩

theorem jsonStep_inJson (h : AllRead s.server) (a : Action) :
    jsonStep name W (inJson s) a = inJson (step name W s a) ∧ AllRead (step name W s a).server := by
  cases a with
  | serve ws tag => exact jsonStep_serve name W h ws tag
  | take ws seed => exact jsonStep_take name W h ws seed
  | close ws tag => exact jsonStep_close name W h ws tag
  | connect ws =>
    simp only [jsonStep, step, inJson]
    cases s.clients ws with
    | none => exact ⟨rfl, h⟩
    | some c => exact ⟨rfl, h⟩
  | candidate ws peer candidate mid =>
    simp only [jsonStep, step, inJson]
    cases s.clients ws with
    | none => exact ⟨rfl, h⟩
    | some c =>
      dsimp only
      split <;> exact ⟨rfl, h⟩

end Steps

/-- **Over JSON, peers find each other as they do over messages.** Whatever happens
among clients that hand the server the JSON of their messages and read the JSON that it
sends: at any moment their connections, and all that is under way, are those
of the clients that hand each other messages. -/
theorem mesh_over_json (name : ℕ → String) (W : WebRTC) (as : List Action) :
    run (jsonStep name W) JsonNet.create as = inJson (run (step name W) Net.create as) := by
  let R (s : Net) (t : JsonNet) : Prop := t = inJson s ∧ AllRead s.server
  have hstep : ∀ s t a, R s t → R (step name W s a) (jsonStep name W t a) := by
    rintro s t a ⟨rfl, h⟩
    exact jsonStep_inJson name W h a
  have hstart : R Net.create JsonNet.create := ⟨rfl, fun _ hsent => absurd hsent List.not_mem_nil⟩
  have hmatched := lockstep id hstep as hstart
  rw [List.map_id] at hmatched
  exact hmatched.1

end Krapi.MeshJson
