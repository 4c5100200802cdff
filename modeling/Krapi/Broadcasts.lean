import Krapi.Handlers
import Krapi.Messages
import Krapi.Lib.Run

/-! # Broadcasts to peers of a type

`broadcast_to_peers_of_type_and_forget` posts a task for each peer in the connection
map. The task asks the connection for the type of its peer, which may have to be
requested from the peer first, and sends the message if the type is one of those
asked for. The tasks run on threads of their own next to the event loop, while
peers come and go, channels open and close and other broadcasts are under way;
requests and their answers take any time, get lost or come twice. -/
namespace Krapi.Broadcasts
open Krapi.Handlers Krapi.Messages Krapi.Lib.Run

/-- `m_identity`, `m_peer_type`, and whether the data channel is open. -/
structure PeerConnection where
  identity : String
  peerType : PeerType
  isOpen : Bool
  deriving Repr, DecidableEq

/-- Where a posted task stands. -/
inductive Stage where
  | posted
  /-- In `type()`, until the promise under the tag has its result. -/
  | asked (tag : String)
  | answered (type : PeerType)
  /-- `type()` has returned. -/
  | typed (type : PeerType)
  /-- Done, and whether the channel was open when it came to send. -/
  | done (wasOpen : Bool)
  deriving Repr, DecidableEq

structure Task where
  broadcast : ℕ
  types : List PeerType
  receiver : String
  connection : ℕ
  stage : Stage
  deriving Repr, DecidableEq

def Task.key (t : Task) : ℕ × String := (t.broadcast, t.receiver)

/-- The type is among those asked for. -/
def Task.wants (t : Task) (roster : String → PeerType) : Prop := roster t.receiver ∈ t.types

/-- `requests` and `sent` are logs: the type requests made, with who is asked, and what
broadcasts sent to whom. `broadcasts` logs the peers each broadcast is for. -/
structure PeerManager where
  connectionMap : Std.ExtTreeMap String ℕ compare
  connections : List PeerConnection
  tasks : List Task
  requests : List (String × String)
  /-- Answers that have arrived, still queued. -/
  events : List (String × PeerType)
  broadcasts : List (List PeerType × List String)
  sent : List (ℕ × String)

namespace PeerManager

def create : PeerManager := ⟨∅, [], [], [], [], [], []⟩

/-- A new `PeerConnection`, for a peer that has none. -/
def connectToPeer (s : PeerManager) (peer : String) : PeerManager :=
  if peer ∈ s.connectionMap then s
  else
    { s with
      connectionMap := s.connectionMap.insert peer s.connections.length
      connections := s.connections ++ [⟨peer, .unknown, false⟩] }

def onPeerClosed (s : PeerManager) (peer : String) : PeerManager :=
  { s with connectionMap := s.connectionMap.erase peer }

def setOpen (s : PeerManager) (p : ℕ) (isOpen : Bool) : PeerManager :=
  { s with connections := s.connections.modify p fun c => { c with isOpen } }

/-- The peers a broadcast is for, with copies of their pointers. -/
def audience (s : PeerManager) (except : List String) : List (String × ℕ) :=
  s.connectionMap.toList.filter fun entry => entry.1 ∉ except

def broadcastToPeersOfType (s : PeerManager) (types : List PeerType) (except : List String) : PeerManager :=
  { s with
    tasks := s.tasks ++ (s.audience except).map fun entry =>
      ⟨s.broadcasts.length, types, entry.1, entry.2, .posted⟩
    broadcasts := s.broadcasts ++ [(types, (s.audience except).map Prod.fst)] }

def setStage (s : PeerManager) (i : ℕ) (stage : Stage) : PeerManager :=
  { s with tasks := s.tasks.modify i fun t => { t with stage } }

/-- A posted task runs up to its first suspension; `tag` is the tag of its request. -/
def start (s : PeerManager) (i : ℕ) (tag : String) : PeerManager :=
  match s.tasks[i]? with
  | some t =>
    match t.stage, s.connections[t.connection]? with
    | .posted, some c =>
      if c.peerType = .unknown then
        { s.setStage i (.asked tag) with requests := s.requests ++ [(tag, t.receiver)] }
      else s.setStage i (.typed c.peerType)
    | _, _ => s
  | none => s

/-- The peer answers with its type, under the tag of the request. -/
def answer (roster : String → PeerType) (s : PeerManager) (k : ℕ) : PeerManager :=
  match s.requests[k]? with
  | some (tag, receiver) => { s with events := s.events ++ [(tag, roster receiver)] }
  | none => s

def Stage.setResult (tag : String) (type : PeerType) : Stage → Stage
  | .asked t => if t = tag then .answered type else .asked t
  | stage => stage

/-- The promise under the tag of the answer gets its result. -/
def processOne (s : PeerManager) : PeerManager :=
  match s.events with
  | [] => s
  | (tag, type) :: rest =>
    { s with
      events := rest
      tasks := s.tasks.map fun t => { t with stage := Stage.setResult tag type t.stage } }

/-- The connection keeps the type it was told. -/
def resume (s : PeerManager) (i : ℕ) : PeerManager :=
  match s.tasks[i]? with
  | some t =>
    match t.stage with
    | .answered type =>
      { s with connections := s.connections.modify t.connection fun c => { c with peerType := type } }.setStage i
        (.typed type)
    | _ => s
  | none => s

/-- The message is sent if the type is right and the channel is open. -/
def finish (s : PeerManager) (i : ℕ) : PeerManager :=
  match s.tasks[i]? with
  | some t =>
    match t.stage, s.connections[t.connection]? with
    | .typed type, some c =>
      let s' := s.setStage i (.done c.isOpen)
      if type ∈ t.types ∧ c.isOpen then { s' with sent := s.sent ++ [t.key] } else s'
    | _, _ => s
  | none => s

end PeerManager

inductive Action where
  | connectToPeer (peer : String)
  | onPeerClosed (peer : String)
  | setOpen (p : ℕ) (isOpen : Bool)
  | broadcast (types : List PeerType) (except : List String)
  | start (i : ℕ) (tag : String)
  | answer (k : ℕ)
  | processOne
  | resume (i : ℕ)
  | finish (i : ℕ)
  deriving Repr, DecidableEq

/-- One step; `roster` says what each peer is. -/
def step (roster : String → PeerType) (s : PeerManager) : Action → PeerManager
  | .connectToPeer peer => s.connectToPeer peer
  | .onPeerClosed peer => s.onPeerClosed peer
  | .setOpen p isOpen => s.setOpen p isOpen
  | .broadcast types except => s.broadcastToPeersOfType types except
  | .start i tag => s.start i tag
  | .answer k => s.answer roster k
  | .processOne => s.processOne
  | .resume i => s.resume i
  | .finish i => s.finish i

/-- No two requests have the same tag. -/
def FreshTag (s : PeerManager) : Action → Prop
  | .start _ tag => tag ∉ s.requests.map Prod.fst
  | _ => True

instance (s : PeerManager) : ∀ a, Decidable (FreshTag s a)
  | .start _ tag => inferInstanceAs (Decidable (tag ∉ s.requests.map Prod.fst))
  | .connectToPeer _ | .onPeerClosed _ | .setOpen _ _ | .broadcast _ _ | .answer _ | .processOne
  | .resume _ | .finish _ => isTrue trivial

/-! ## What holds of a task -/

/-- What a stage says of the peer `receiver`. -/
def StageRight (roster : String → PeerType) (requests : List (String × String)) (receiver : String) :
    Stage → Prop
  | .asked tag => (tag, receiver) ∈ requests
  | .answered type => type = roster receiver
  | .typed type => type = roster receiver
  | _ => True

/-- A task is of its broadcast, its connection leads to its receiver, and what it knows is so. -/
structure TaskRight (roster : String → PeerType) (s : PeerManager) (t : Task) : Prop where
  ofBroadcast : ∃ peers, s.broadcasts[t.broadcast]? = some (t.types, peers) ∧ t.receiver ∈ peers
  connected : ∃ c, s.connections[t.connection]? = some c ∧ c.identity = t.receiver
  stage : StageRight roster s.requests t.receiver t.stage

structure Sound (roster : String → PeerType) (s : PeerManager) : Prop where
  mapped : ∀ (peer : String) (p : ℕ), s.connectionMap[peer]? = some p →
    ∃ c, s.connections[p]? = some c ∧ c.identity = peer
  known : ∀ c ∈ s.connections, c.peerType = .unknown ∨ c.peerType = roster c.identity
  tags : (s.requests.map Prod.fst).Nodup
  events : ∀ e ∈ s.events, ∃ receiver, (e.1, receiver) ∈ s.requests ∧ e.2 = roster receiver
  tasks : ∀ t ∈ s.tasks, TaskRight roster s t
  /-- One task for each peer of a broadcast. -/
  keys : (s.tasks.map Task.key).Nodup
  complete : ∀ (b : ℕ) types peers, s.broadcasts[b]? = some (types, peers) → ∀ peer ∈ peers,
    ∃ t ∈ s.tasks, t.key = (b, peer)
  sentOnce : s.sent.Nodup
  sent_iff : ∀ key, key ∈ s.sent ↔ ∃ t ∈ s.tasks, t.key = key ∧ t.stage = .done true ∧ t.wants roster

/-! ## What a step keeps -/

section Steps
variable {roster : String → PeerType} {s : PeerManager} {t : Task} {i : ℕ}

theorem TaskRight.mono {s' : PeerManager} (h : TaskRight roster s t)
    (hbroadcasts : ∀ (b : ℕ) v, s.broadcasts[b]? = some v → s'.broadcasts[b]? = some v)
    (hconnections : ∀ (p : ℕ) c, s.connections[p]? = some c →
      ∃ c', s'.connections[p]? = some c' ∧ c'.identity = c.identity)
    (hrequests : ∀ r ∈ s.requests, r ∈ s'.requests) : TaskRight roster s' t := by
  obtain ⟨⟨peers, hb, hmem⟩, ⟨c, hc, hid⟩, hstage⟩ := h
  obtain ⟨c', hc', hid'⟩ := hconnections _ _ hc
  refine ⟨⟨peers, hbroadcasts _ _ hb, hmem⟩, ⟨c', hc', hid'.trans hid⟩, ?_⟩
  cases hst : t.stage with
  | asked tag =>
    rw [hst] at hstage
    exact hrequests _ hstage
  | _ =>
    rw [hst] at hstage
    exact hstage

theorem getElem?_modify {A : Type} (l : List A) (f : A → A) (i j : ℕ) :
    (l.modify i f)[j]? = if i = j then l[j]?.map f else l[j]? := by
  rw [List.getElem?_modify, Option.map_eq_map]
  split <;> simp

theorem mem_modify {A : Type} {l : List A} {f : A → A} {a b : A} (hi : l[i]? = some a) :
    b ∈ l.modify i f ↔ b = f a ∨ ∃ j ≠ i, l[j]? = some b := by
  rw [List.mem_iff_getElem?]
  constructor
  · rintro ⟨j, hj⟩
    rw [getElem?_modify] at hj
    by_cases hij : i = j
    · subst hij
      rw [if_pos rfl, hi] at hj
      exact .inl (Option.some.inj hj).symm
    · rw [if_neg hij] at hj
      exact .inr ⟨j, Ne.symm hij, hj⟩
  · rintro (rfl | ⟨j, hij, hj⟩)
    · exact ⟨i, by rw [getElem?_modify, if_pos rfl, hi]; rfl⟩
    · exact ⟨j, by rw [getElem?_modify, if_neg (Ne.symm hij), hj]⟩

theorem map_key_modify (l : List Task) (i : ℕ) (stage : Stage) :
    (l.modify i fun t => { t with stage }).map Task.key = l.map Task.key := by
  apply List.ext_getElem?
  intro j
  rw [List.getElem?_map, getElem?_modify, List.getElem?_map]
  split
  · cases l[j]? <;> rfl
  · rfl

/-- Two tasks of the list with one key are at one place. -/
theorem eq_of_key {l : List Task} (hkeys : (l.map Task.key).Nodup) {j : ℕ} {u : Task}
    (ht : l[i]? = some t) (hu : l[j]? = some u) (hkey : u.key = t.key) : j = i := by
  have hj : j < (l.map Task.key).length := by
    rw [List.length_map]
    exact (List.getElem?_eq_some_iff.mp hu).1
  apply (List.getElem?_inj hj hkeys).mp
  rw [List.getElem?_map, List.getElem?_map, ht, hu]
  exact congrArg some hkey

/-- A task that is not done goes on to a stage that says what is so; it has sent its
message if it is done with an open channel and was for the peer. -/
theorem Sound.replace {stage : Stage} {sent : List (ℕ × String)} (h : Sound roster s)
    (ht : s.tasks[i]? = some t) (hpending : ∀ b, t.stage ≠ .done b)
    (hstage : StageRight roster s.requests t.receiver stage) (hnodup : sent.Nodup)
    (hsent : ∀ key, key ∈ sent ↔ key ∈ s.sent ∨ key = t.key ∧ stage = .done true ∧ t.wants roster) :
    Sound roster { s.setStage i stage with sent } := by
  have htasks : ∀ {u : Task}, u ∈ s.tasks.modify i (fun t => { t with stage }) ↔
      u = { t with stage } ∨ ∃ j ≠ i, s.tasks[j]? = some u := mem_modify ht
  refine ⟨h.mapped, h.known, h.tags, h.events, ?_, ?_, ?_, hnodup, ?_⟩
  · intro u hu
    rcases htasks.mp hu with rfl | ⟨j, -, hj⟩
    · have hold := h.tasks t (List.mem_of_getElem? ht)
      exact ⟨hold.ofBroadcast, hold.connected, hstage⟩
    · exact (h.tasks u (List.mem_of_getElem? hj)).mono (fun _ _ hb => hb) (fun _ c hc => ⟨c, hc, rfl⟩)
        fun _ hr => hr
  · show ((s.tasks.modify i fun t => { t with stage }).map Task.key).Nodup
    rw [map_key_modify]
    exact h.keys
  · intro b types peers hb peer hpeer
    obtain ⟨u, hu, hkey⟩ := h.complete b types peers hb peer hpeer
    obtain ⟨j, hj⟩ := List.mem_iff_getElem?.mp hu
    by_cases hij : j = i
    · subst hij
      rw [ht] at hj
      cases hj
      exact ⟨_, htasks.mpr (.inl rfl), hkey⟩
    · exact ⟨u, htasks.mpr (.inr ⟨j, hij, hj⟩), hkey⟩
  · intro key
    show key ∈ sent ↔ _
    rw [hsent, h.sent_iff]
    constructor
    · rintro (⟨u, hu, hkey, hdone, hwants⟩ | ⟨rfl, hdone, hwants⟩)
      · obtain ⟨j, hj⟩ := List.mem_iff_getElem?.mp hu
        refine ⟨u, htasks.mpr (.inr ⟨j, ?_, hj⟩), hkey, hdone, hwants⟩
        rintro rfl
        rw [ht] at hj
        cases hj
        exact hpending true hdone
      · exact ⟨_, htasks.mpr (.inl rfl), rfl, hdone, hwants⟩
    · rintro ⟨u, hu, hkey, hdone, hwants⟩
      rcases htasks.mp hu with rfl | ⟨j, -, hj⟩
      · exact .inr ⟨hkey.symm, hdone, hwants⟩
      · exact .inl ⟨u, List.mem_of_getElem? hj, hkey, hdone, hwants⟩

theorem Sound.setStage {stage : Stage} (h : Sound roster s) (ht : s.tasks[i]? = some t)
    (hpending : ∀ b, t.stage ≠ .done b) (hstage : StageRight roster s.requests t.receiver stage)
    (hunsent : stage = .done true → ¬ t.wants roster) : Sound roster (s.setStage i stage) := by
  have hsent : ∀ key, key ∈ s.sent ↔ key ∈ s.sent ∨ key = t.key ∧ stage = .done true ∧ t.wants roster := by
    intro key
    constructor
    · exact .inl
    · rintro (hkey | ⟨-, hdone, hwants⟩)
      · exact hkey
      · exact absurd hwants (hunsent hdone)
  exact h.replace ht hpending hstage h.sentOnce hsent

/-- A connection changes, but not whose it is, and what it keeps of the type is so. -/
theorem Sound.modify (h : Sound roster s) (p : ℕ) (f : PeerConnection → PeerConnection)
    (hid : ∀ c, (f c).identity = c.identity)
    (htype : ∀ c, s.connections[p]? = some c → (f c).peerType = .unknown ∨ (f c).peerType = roster c.identity) :
    Sound roster { s with connections := s.connections.modify p f } := by
  have hget : ∀ (q : ℕ) c, s.connections[q]? = some c →
      ∃ c', (s.connections.modify p f)[q]? = some c' ∧ c'.identity = c.identity := by
    intro q c hc
    rw [getElem?_modify, hc]
    by_cases hq : p = q
    · exact ⟨f c, if_pos hq, hid c⟩
    · exact ⟨c, if_neg hq, rfl⟩
  refine ⟨?_, ?_, h.tags, h.events, ?_, h.keys, h.complete, h.sentOnce, h.sent_iff⟩
  · intro peer q hq
    obtain ⟨c, hc, hpeer⟩ := h.mapped peer q hq
    obtain ⟨c', hc', hid'⟩ := hget q c hc
    exact ⟨c', hc', hid'.trans hpeer⟩
  · intro c hc
    obtain ⟨q, hq⟩ := List.mem_iff_getElem?.mp hc
    rw [getElem?_modify] at hq
    split at hq
    · rename_i hpq
      subst hpq
      obtain ⟨c₀, hold, rfl⟩ := Option.map_eq_some_iff.mp hq
      rw [hid]
      exact htype c₀ hold
    · exact h.known _ (List.mem_of_getElem? hq)
  · intro u hu
    exact (h.tasks u hu).mono (fun _ _ hb => hb) hget fun _ hr => hr

/-- A request is logged under a tag that is new. -/
theorem Sound.request (h : Sound roster s) {tag : String} (receiver : String)
    (hfresh : tag ∉ s.requests.map Prod.fst) :
    Sound roster { s with requests := s.requests ++ [(tag, receiver)] } := by
  have hmono : ∀ r ∈ s.requests, r ∈ s.requests ++ [(tag, receiver)] := fun r hr => List.mem_append_left _ hr
  refine ⟨h.mapped, h.known, ?_, ?_, ?_, h.keys, h.complete, h.sentOnce, h.sent_iff⟩
  · rw [List.map_append, List.map_singleton, ← List.concat_eq_append]
    exact h.tags.concat hfresh
  · intro e he
    obtain ⟨r, hr, htype⟩ := h.events e he
    exact ⟨r, hmono _ hr, htype⟩
  · intro u hu
    exact (h.tasks u hu).mono (fun _ _ hb => hb) (fun _ c hc => ⟨c, hc, rfl⟩) hmono

theorem sound_create (roster : String → PeerType) : Sound roster .create where
  mapped := by intro peer p hp; simp [PeerManager.create] at hp
  known := by intro c hc; cases hc
  tags := .nil
  events := by intro e he; cases he
  tasks := by intro t ht; cases ht
  keys := .nil
  complete := by intro b types peers hb; simp [PeerManager.create] at hb
  sentOnce := .nil
  sent_iff := by intro key; simp [PeerManager.create]

theorem Sound.connectToPeer (h : Sound roster s) (peer : String) : Sound roster (s.connectToPeer peer) := by
  unfold PeerManager.connectToPeer
  split
  · exact h
  · have hget : ∀ (p : ℕ) c, s.connections[p]? = some c →
        (s.connections ++ [⟨peer, .unknown, false⟩])[p]? = some c := fun p c hc =>
      List.getElem?_append_left (List.getElem?_eq_some_iff.mp hc).1 ▸ hc
    refine ⟨?_, ?_, h.tags, h.events, ?_, h.keys, h.complete, h.sentOnce, h.sent_iff⟩
    · intro other p hp
      rw [Std.ExtTreeMap.getElem?_insert] at hp
      split at hp
      · rename_i hother
        cases hp
        exact ⟨_, List.getElem?_concat_length, compare_eq_iff_eq.mp hother⟩
      · obtain ⟨c, hc, hid⟩ := h.mapped other p hp
        exact ⟨c, hget p c hc, hid⟩
    · intro c hc
      rcases List.mem_append.mp hc with hc | hc
      · exact h.known c hc
      · rw [List.mem_singleton.mp hc]
        exact .inl rfl
    · intro u hu
      exact (h.tasks u hu).mono (fun _ _ hb => hb) (fun p c hc => ⟨c, hget p c hc, rfl⟩) fun _ hr => hr

theorem Sound.onPeerClosed (h : Sound roster s) (peer : String) : Sound roster (s.onPeerClosed peer) := by
  refine ⟨?_, h.known, h.tags, h.events, ?_, h.keys, h.complete, h.sentOnce, h.sent_iff⟩
  · intro other p hp
    change (s.connectionMap.erase peer)[other]? = some p at hp
    rw [Std.ExtTreeMap.getElem?_erase] at hp
    split at hp
    · cases hp
    · exact h.mapped other p hp
  · intro u hu
    exact (h.tasks u hu).mono (fun _ _ hb => hb) (fun _ c hc => ⟨c, hc, rfl⟩) fun _ hr => hr

/-- The tasks of a broadcast are new, one for each of its peers, and have sent nothing. -/
theorem Sound.broadcast (h : Sound roster s) (types : List PeerType) (except : List String) :
    Sound roster (s.broadcastToPeersOfType types except) := by
  have haudience : ∀ entry ∈ s.audience except, s.connectionMap[entry.1]? = some entry.2 := by
    intro entry hentry
    exact Std.ExtTreeMap.mem_toList_iff_getElem?_eq_some.mp (List.mem_filter.mp hentry).1
  have hpeers : ((s.audience except).map Prod.fst).Nodup := by
    refine List.Nodup.sublist (List.filter_sublist.map _) ?_
    rw [List.Nodup, List.pairwise_map]
    refine (Std.ExtTreeMap.distinct_keys_toList (t := s.connectionMap)).imp ?_
    intro entry entry' hne he
    exact hne (compare_eq_iff_eq.mpr he)
  have hold : ∀ t ∈ s.tasks, t.broadcast < s.broadcasts.length := by
    intro t ht
    obtain ⟨peers, hb, -⟩ := (h.tasks t ht).ofBroadcast
    exact (List.getElem?_eq_some_iff.mp hb).1
  have hget : ∀ (b : ℕ) v, s.broadcasts[b]? = some v →
      (s.broadcasts ++ [(types, (s.audience except).map Prod.fst)])[b]? = some v := fun b v hb =>
    List.getElem?_append_left (List.getElem?_eq_some_iff.mp hb).1 ▸ hb
  refine ⟨h.mapped, h.known, h.tags, h.events, ?_, ?_, ?_, h.sentOnce, ?_⟩
  · intro u hu
    rcases List.mem_append.mp hu with hu | hu
    · exact (h.tasks u hu).mono hget (fun _ c hc => ⟨c, hc, rfl⟩) fun _ hr => hr
    · obtain ⟨entry, hentry, rfl⟩ := List.mem_map.mp hu
      exact ⟨⟨_, List.getElem?_concat_length, List.mem_map_of_mem hentry⟩,
        h.mapped _ _ (haudience entry hentry), trivial⟩
  · show ((s.tasks ++ _).map Task.key).Nodup
    rw [List.map_append, List.map_map, List.nodup_append']
    refine ⟨h.keys, ?_, ?_⟩
    · rw [show (Task.key ∘ fun entry : String × ℕ => (⟨s.broadcasts.length, types, entry.1, entry.2, .posted⟩ : Task)) =
        (Prod.mk s.broadcasts.length) ∘ Prod.fst from rfl, ← List.map_map]
      exact hpeers.map (Prod.mk_right_injective _)
    · intro key hkey hnew
      obtain ⟨t, ht, rfl⟩ := List.mem_map.mp hkey
      obtain ⟨entry, -, heq⟩ := List.mem_map.mp hnew
      have hlt := hold t ht
      have hb : s.broadcasts.length = t.broadcast := congrArg Prod.fst heq
      omega
  · intro b types' peers hb peer hpeer
    rcases Nat.lt_or_ge b s.broadcasts.length with hlt | hge
    · change (s.broadcasts ++ [_])[b]? = _ at hb
      rw [List.getElem?_append_left hlt] at hb
      obtain ⟨t, ht, hkey⟩ := h.complete b types' peers hb peer hpeer
      exact ⟨t, List.mem_append_left _ ht, hkey⟩
    · change (s.broadcasts ++ [_])[b]? = _ at hb
      rw [List.getElem?_append_right hge, List.getElem?_singleton] at hb
      split at hb
      · rename_i hzero
        cases hb
        obtain ⟨entry, hentry, rfl⟩ := List.mem_map.mp hpeer
        have hb' : b = s.broadcasts.length := by omega
        rw [hb']
        exact ⟨_, List.mem_append_right _ (List.mem_map_of_mem hentry), rfl⟩
      · cases hb
  · intro key
    show key ∈ s.sent ↔ _
    rw [h.sent_iff]
    constructor
    · rintro ⟨t, ht, hrest⟩
      exact ⟨t, List.mem_append_left _ ht, hrest⟩
    · rintro ⟨t, ht, hkey, hdone, hwants⟩
      rcases List.mem_append.mp ht with ht | ht
      · exact ⟨t, ht, hkey, hdone, hwants⟩
      · obtain ⟨entry, -, rfl⟩ := List.mem_map.mp ht
        cases hdone

theorem Sound.start (h : Sound roster s) (i : ℕ) {tag : String} (hfresh : tag ∉ s.requests.map Prod.fst) :
    Sound roster (s.start i tag) := by
  unfold PeerManager.start
  split
  · rename_i t ht
    split
    · rename_i c hstage hc
      obtain ⟨c', hc', hid⟩ := (h.tasks t (List.mem_of_getElem? ht)).connected
      rw [hc] at hc'
      cases hc'
      have hpending : ∀ b, t.stage ≠ .done b := by
        rw [hstage]
        nofun
      split
      · exact (h.request t.receiver hfresh).setStage ht hpending
          (List.mem_append_right _ (List.mem_singleton_self _)) nofun
      · rename_i hknown
        have htype := (h.known c (List.mem_of_getElem? hc)).resolve_left hknown
        rw [hid] at htype
        exact h.setStage ht hpending htype nofun
    · exact h
  · exact h

theorem Sound.answer (h : Sound roster s) (k : ℕ) : Sound roster (s.answer roster k) := by
  unfold PeerManager.answer
  split
  · rename_i tag receiver hk
    refine ⟨h.mapped, h.known, h.tags, ?_, ?_, h.keys, h.complete, h.sentOnce, h.sent_iff⟩
    · intro e he
      rcases List.mem_append.mp he with he | he
      · exact h.events e he
      · rw [List.mem_singleton.mp he]
        exact ⟨receiver, List.mem_of_getElem? hk, rfl⟩
    · intro u hu
      exact (h.tasks u hu).mono (fun _ _ hb => hb) (fun _ c hc => ⟨c, hc, rfl⟩) fun _ hr => hr
  · exact h

theorem setResult_eq_done {tag : String} {type : PeerType} {stage : Stage} {b : Bool} :
    PeerManager.Stage.setResult tag type stage = .done b ↔ stage = .done b := by
  cases stage with
  | asked t =>
    unfold PeerManager.Stage.setResult
    dsimp only
    split <;> exact ⟨nofun, nofun⟩
  | _ => exact Iff.rfl

/-- An answer gets to the task that asked the peer it comes from: a tag has one receiver. -/
theorem Sound.processOne (h : Sound roster s) : Sound roster s.processOne := by
  unfold PeerManager.processOne
  split
  · exact h
  · rename_i tag type rest hevents
    obtain ⟨receiver, hreceiver, htype⟩ := h.events (tag, type) (by rw [hevents]; exact List.mem_cons_self)
    let told : Task → Task := fun t => { t with stage := PeerManager.Stage.setResult tag type t.stage }
    have hkey : ∀ l : List Task, (l.map told).map Task.key = l.map Task.key := by
      intro l
      rw [List.map_map]
      rfl
    refine ⟨h.mapped, h.known, h.tags, ?_, ?_, ?_, ?_, h.sentOnce, ?_⟩
    · intro e he
      exact h.events e (by rw [hevents]; exact List.mem_cons_of_mem _ he)
    · intro u hu
      obtain ⟨t, ht, rfl⟩ := List.mem_map.mp hu
      have hright := h.tasks t ht
      refine ⟨hright.ofBroadcast, hright.connected, ?_⟩
      show StageRight roster s.requests t.receiver (PeerManager.Stage.setResult tag type t.stage)
      have hstage := hright.stage
      cases hst : t.stage with
      | asked t' =>
        rw [hst] at hstage
        show StageRight roster s.requests t.receiver (if t' = tag then .answered type else .asked t')
        split
        · rename_i htag
          subst htag
          have hsame := List.inj_on_of_nodup_map h.tags hstage hreceiver rfl
          have hrec : t.receiver = receiver := congrArg Prod.snd hsame
          show type = roster t.receiver
          rw [hrec]
          exact htype
        · exact hstage
      | _ =>
        rw [hst] at hstage
        exact hstage
    · show ((s.tasks.map told).map Task.key).Nodup
      rw [hkey]
      exact h.keys
    · intro b types peers hb peer hpeer
      obtain ⟨t, ht, hk⟩ := h.complete b types peers hb peer hpeer
      exact ⟨told t, List.mem_map_of_mem ht, hk⟩
    · intro key
      show key ∈ s.sent ↔ ∃ t ∈ s.tasks.map told, _
      rw [h.sent_iff]
      constructor
      · rintro ⟨t, ht, hk, hdone, hwants⟩
        exact ⟨told t, List.mem_map_of_mem ht, hk, setResult_eq_done.mpr hdone, hwants⟩
      · rintro ⟨u, hu, hk, hdone, hwants⟩
        obtain ⟨t, ht, rfl⟩ := List.mem_map.mp hu
        exact ⟨t, ht, hk, setResult_eq_done.mp hdone, hwants⟩

theorem Sound.resume (h : Sound roster s) (i : ℕ) : Sound roster (s.resume i) := by
  unfold PeerManager.resume
  split
  · rename_i t ht
    split
    · rename_i type hstage
      have hright := h.tasks t (List.mem_of_getElem? ht)
      have htype : type = roster t.receiver := by
        have := hright.stage
        rwa [hstage] at this
      obtain ⟨c, hc, hid⟩ := hright.connected
      refine (h.modify t.connection (fun c => { c with peerType := type }) (fun _ => rfl) ?_).setStage ht
        (by rw [hstage]; nofun) htype nofun
      intro c' hc'
      rw [hc] at hc'
      cases hc'
      rw [hid]
      exact .inr htype
    · exact h
  · exact h

theorem Sound.finish (h : Sound roster s) (i : ℕ) : Sound roster (s.finish i) := by
  unfold PeerManager.finish
  split
  · rename_i t ht
    split
    · rename_i type c hstage hc
      have hright := h.tasks t (List.mem_of_getElem? ht)
      have htype : type = roster t.receiver := by
        have := hright.stage
        rwa [hstage] at this
      have hpending : ∀ b, t.stage ≠ .done b := by
        rw [hstage]
        nofun
      dsimp only
      split
      · rename_i hsend
        obtain ⟨hwants, hopen⟩ := hsend
        rw [hopen]
        refine h.replace ht hpending trivial ?_ ?_
        · rw [← List.concat_eq_append]
          refine h.sentOnce.concat ?_
          intro hsent
          obtain ⟨u, hu, hkey, hdone, -⟩ := (h.sent_iff _).mp hsent
          obtain ⟨j, hj⟩ := List.mem_iff_getElem?.mp hu
          have hij := eq_of_key h.keys ht hj hkey
          rw [hij, ht] at hj
          cases hj
          exact hpending true hdone
        · intro key
          rw [List.mem_append, List.mem_singleton]
          rw [htype] at hwants
          have hw : t.wants roster := hwants
          simp [hw]
      · rename_i hnot
        refine h.setStage ht hpending trivial ?_
        intro hdone hwants
        have hopen : c.isOpen = true := by simpa using hdone
        exact hnot ⟨by rw [htype]; exact hwants, hopen⟩
    · exact h
  · exact h

theorem sound_step (roster : String → PeerType) (s : PeerManager) (a : Action) (hok : FreshTag s a)
    (h : Sound roster s) : Sound roster (step roster s a) := by
  cases a with
  | connectToPeer peer => exact h.connectToPeer peer
  | onPeerClosed peer => exact h.onPeerClosed peer
  | setOpen p isOpen =>
    refine h.modify p (fun c => { c with isOpen }) (fun _ => rfl) ?_
    intro c hc
    exact h.known c (List.mem_of_getElem? hc)
  | broadcast types except => exact h.broadcast types except
  | start i tag => exact h.start i hok
  | answer k => exact h.answer k
  | processOne => exact h.processOne
  | resume i => exact h.resume i
  | finish i => exact h.finish i

end Steps

/-! ## Whom a broadcast is for -/

/-- A broadcast stays logged as it was made. -/
theorem broadcasts_step (roster : String → PeerType) (s : PeerManager) (a : Action) :
    s.broadcasts <+: (step roster s a).broadcasts := by
  cases a with
  | broadcast types except => exact List.prefix_append _ _
  | connectToPeer peer =>
    simp only [step, PeerManager.connectToPeer]
    split <;> exact List.prefix_rfl
  | start i tag =>
    simp only [step, PeerManager.start]
    split
    · split
      · split <;> exact List.prefix_rfl
      · exact List.prefix_rfl
    · exact List.prefix_rfl
  | answer k =>
    simp only [step, PeerManager.answer]
    split <;> exact List.prefix_rfl
  | processOne =>
    simp only [step, PeerManager.processOne]
    split <;> exact List.prefix_rfl
  | resume i =>
    simp only [step, PeerManager.resume]
    split
    · split <;> exact List.prefix_rfl
    · exact List.prefix_rfl
  | finish i =>
    simp only [step, PeerManager.finish]
    split
    · split
      · split <;> exact List.prefix_rfl
      · exact List.prefix_rfl
    · exact List.prefix_rfl
  | _ => exact List.prefix_rfl

theorem broadcasts_run (roster : String → PeerType) (as : List Action) (s : PeerManager) :
    s.broadcasts <+: (run (step roster) s as).broadcasts :=
  run_keeps (I := fun t => s.broadcasts <+: t.broadcasts) (fun t a h => h.trans (broadcasts_step roster t a)) as
    List.prefix_rfl

theorem mem_audience {s : PeerManager} {except : List String} {peer : String} :
    peer ∈ (s.audience except).map Prod.fst ↔ peer ∈ s.connectionMap ∧ peer ∉ except := by
  have hkey : ∀ k, k ∈ s.connectionMap.toList.map Prod.fst ↔ k ∈ s.connectionMap := by
    intro k
    rw [Std.ExtTreeMap.map_fst_toList_eq_keys, Std.ExtTreeMap.mem_keys]
  rw [← hkey, List.mem_map, List.mem_map]
  constructor
  · intro ⟨entry, hentry, he⟩
    obtain ⟨hin, hout⟩ := List.mem_filter.mp hentry
    exact ⟨⟨entry, hin, he⟩, he ▸ of_decide_eq_true hout⟩
  · intro ⟨⟨entry, hin, he⟩, hout⟩
    exact ⟨entry, List.mem_filter.mpr ⟨hin, decide_eq_true (he ▸ hout)⟩, he⟩

/-- **A broadcast reaches whom it is for.** However the tasks of any number of broadcasts,
the answers of the peers, and peers that come, go, open and close their channels
interleave, as long as no two type requests have the same tag: a broadcast is for the
peers in the connection map when it is made, but those excepted; nothing is sent twice, nor
to a peer outside the broadcast or of another type than those asked for; and each peer of
a broadcast has one task, which, once it is done, has sent the message exactly if the peer
is of one of the types and its channel was open. -/
theorem broadcast_reaches (roster : String → PeerType) (as : List Action)
    (h : Along (step roster) FreshTag .create as) :
    let s := run (step roster) .create as
    (∀ before types except rest, as = before ++ .broadcast types except :: rest →
      let m := run (step roster) .create before
      ∃ peers, s.broadcasts[m.broadcasts.length]? = some (types, peers) ∧
        ∀ peer, peer ∈ peers ↔ peer ∈ m.connectionMap ∧ peer ∉ except) ∧
    s.sent.Nodup ∧
    (∀ b receiver, (b, receiver) ∈ s.sent → ∃ types peers, s.broadcasts[b]? = some (types, peers) ∧
      receiver ∈ peers ∧ roster receiver ∈ types) ∧
    ∀ (b : ℕ) types peers, s.broadcasts[b]? = some (types, peers) → ∀ peer ∈ peers,
      ∃ t ∈ s.tasks, t.key = (b, peer) ∧ (∀ u ∈ s.tasks, u.key = (b, peer) → u = t) ∧
        ∀ wasOpen, t.stage = .done wasOpen → ((b, peer) ∈ s.sent ↔ wasOpen = true ∧ roster peer ∈ types) := by
  intro s
  have hsound := run_keeps_along (sound_step roster) as h (sound_create roster)
  refine ⟨?_, hsound.sentOnce, ?_, ?_⟩
  · intro before types except rest has m
    have hrun : s = run (step roster) (step roster m (.broadcast types except)) rest := by
      show run (step roster) .create as = _
      rw [has]
      exact run_append _ before _
    have hlogged : (step roster m (.broadcast types except)).broadcasts[m.broadcasts.length]? =
        some (types, (m.audience except).map Prod.fst) := List.getElem?_concat_length
    refine ⟨_, ?_, fun peer => mem_audience⟩
    obtain ⟨more, hmore⟩ := broadcasts_run roster rest (step roster m (.broadcast types except))
    rw [hrun, ← hmore, List.getElem?_append_left (List.getElem?_eq_some_iff.mp hlogged).1]
    exact hlogged
  · intro b receiver hsent
    obtain ⟨t, ht, hkey, -, hwants⟩ := (hsound.sent_iff _).mp hsent
    obtain ⟨peers, hb, hmem⟩ := (hsound.tasks t ht).ofBroadcast
    cases hkey
    exact ⟨_, peers, hb, hmem, hwants⟩
  · intro b types peers hb peer hpeer
    obtain ⟨t, ht, hkey⟩ := hsound.complete b types peers hb peer hpeer
    have honly : ∀ u ∈ s.tasks, u.key = (b, peer) → u = t := by
      intro u hu hu'
      exact List.inj_on_of_nodup_map hsound.keys hu ht (hu'.trans hkey.symm)
    refine ⟨t, ht, hkey, honly, ?_⟩
    intro wasOpen hdone
    obtain ⟨peers', hb', -⟩ := (hsound.tasks t ht).ofBroadcast
    have hbt : t.broadcast = b := congrArg Prod.fst hkey
    have hpt : t.receiver = peer := congrArg Prod.snd hkey
    rw [hbt, hb, Option.some.injEq, Prod.mk.injEq] at hb'
    rw [hsound.sent_iff]
    constructor
    · rintro ⟨u, hu, hu', hudone, hwants⟩
      rw [honly u hu hu'] at hudone hwants
      rw [hdone] at hudone
      cases hudone
      refine ⟨rfl, ?_⟩
      rw [hb'.1, ← hpt]
      exact hwants
    · rintro ⟨rfl, hwants⟩
      refine ⟨t, ht, hkey, hdone, ?_⟩
      rw [hb'.1, ← hpt] at hwants
      exact hwants

/-- A full and a light node are asked for their types in the course of a broadcast to full nodes. -/
def twoPeers : List Action :=
  [.connectToPeer "node", .connectToPeer "voter", .setOpen 0 true, .setOpen 1 true, .broadcast [.full] [],
    .start 1 "second", .start 0 "first", .answer 1, .answer 0, .processOne, .processOne, .resume 0, .resume 1,
    .finish 0, .finish 1]

def twoPeersRoster (id : String) : PeerType := if id = "node" then .full else .light

theorem broadcast_reaches_twoPeers :
    (run (step twoPeersRoster) .create twoPeers).sent = [(0, "node")] ∧
    ∀ b receiver, (b, receiver) ∈ (run (step twoPeersRoster) .create twoPeers).sent →
      twoPeersRoster receiver = .full := by
  have hsent : (run (step twoPeersRoster) .create twoPeers).sent = [(0, "node")] := by decide +kernel
  have hbroadcasts : (run (step twoPeersRoster) .create twoPeers).broadcasts = [([.full], ["node", "voter"])] := by
    decide +kernel
  refine ⟨hsent, ?_⟩
  intro b receiver hmem
  obtain ⟨types, peers, hb, -, hwants⟩ :=
    (broadcast_reaches twoPeersRoster twoPeers (by decide +kernel)).2.2.1 b receiver hmem
  rw [hbroadcasts] at hb
  cases b with
  | zero =>
    cases hb
    exact List.mem_singleton.mp hwants
  | succ b => cases hb

end Krapi.Broadcasts
