import Krapi.Messages
import Krapi.Lib.Run

/-! # The signaling server

A client is in `m_sockets` from the moment it connects and gets its identity in
a later message, upon which every other socket is told that it is available.
Each callback holds the server's mutex. A socket stands for one connection; the
set of sockets is kept in the order of connecting, which nothing depends on. -/
namespace Krapi.Signaling
open Krapi.Messages Krapi.Lib.Run

/-- The JSON of a signaling message, as far as the server looks into it. -/
inductive Content (C : Type) where
  | null
  | identity (identity : String)
  | identities (identities : List String)
  | rtc (content : C)
  deriving Repr, DecidableEq

structure Server (C : Type) where
  sockets : List ℕ
  socketIdentityMap : Std.ExtTreeMap ℕ String compare
  /-- What was sent to which socket; a log that no callback reads. -/
  sent : List (ℕ × SignalingMessage (Content C))

variable {C : Type}

namespace Server

def create : Server C := ⟨[], ∅, []⟩

/-- What `m_socket_identity_map[ws]` reads. -/
def identityOf (s : Server C) (ws : ℕ) : String := s.socketIdentityMap[ws]?.getD ""

/-- And what it leaves behind: an entry with an empty identity if there was none. -/
def touch (s : Server C) (ws : ℕ) : Server C :=
  { s with socketIdentityMap := s.socketIdentityMap.insertIfNew ws "" }

def send (s : Server C) (ws : ℕ) (m : SignalingMessage (Content C)) : Server C :=
  { s with sent := s.sent ++ [(ws, m)] }

/-- One round of a loop over sockets that looks up each socket's identity and
sends it what `f` makes of it. -/
def tell (f : ℕ → String → Option (SignalingMessage (Content C))) (s : Server C) (ws : ℕ) : Server C :=
  let s := s.touch ws
  match f ws (s.identityOf ws) with
  | some m => s.send ws m
  | none => s

def peerAvailable (tag identity : String) (_ : ℕ) (receiver : String) :
    Option (SignalingMessage (Content C)) :=
  some ⟨.peerAvailable, "signaling_server", receiver, tag, .identity identity⟩

def peerClosed (tag : ℕ → String) (identity : String) (ws : ℕ) (receiver : String) :
    Option (SignalingMessage (Content C)) :=
  some ⟨.peerClosed, "signaling_server", receiver, tag ws, .identity identity⟩

def forward (m : SignalingMessage (Content C)) (_ : ℕ) (identity : String) :
    Option (SignalingMessage (Content C)) :=
  if identity = m.receiverIdentity then some m else none

/-! ## The callbacks -/

def onClient (s : Server C) (ws : ℕ) : Server C :=
  { s with
    sockets := if ws ∈ s.sockets then s.sockets else s.sockets ++ [ws]
    socketIdentityMap := s.socketIdentityMap.insertIfNew ws "" }

def setIdentity (s : Server C) (ws : ℕ) (m : SignalingMessage (Content C)) (identity : String) : Server C :=
  let s := { s with socketIdentityMap := s.socketIdentityMap.insert ws identity }
  let s := s.send ws ⟨.setIdentityResponse, "signaling_server", identity, m.tag, .null⟩
  (s.sockets.filter fun socket => socket ≠ ws).foldl (tell (peerAvailable m.tag identity)) s

def availablePeers (s : Server C) (ws : ℕ) (m : SignalingMessage (Content C)) : Server C :=
  let identities := (s.sockets.map s.identityOf).filter fun identity => identity ≠ s.identityOf ws
  (s.sockets.foldl touch s).send ws
    ⟨.availablePeersResponse, "signaling_server", m.senderIdentity, m.tag, .identities identities⟩

def onClientMessage (s : Server C) (ws : ℕ) (m : SignalingMessage (Content C)) : Server C :=
  let s := s.touch ws
  match m.type with
  | .setIdentityRequest =>
    match m.content with
    | .identity identity => s.setIdentity ws m identity
    -- `get<std::string>` throws
    | _ => s
  | .availablePeersRequest => s.availablePeers ws m
  | .rtcSetup => s.sockets.foldl (tell (forward m)) s
  | .rtcCandidate => s.sockets.foldl (tell (forward m)) s
  | _ => s

/-- `tag` are the fresh tags of the messages, by receiver. -/
def onClientClosed (s : Server C) (ws : ℕ) (tag : ℕ → String) : Server C :=
  let identity := s.identityOf ws
  let s := s.touch ws
  if ws ∈ s.sockets then
    let s := { s with
      sockets := s.sockets.filter fun socket => socket ≠ ws
      socketIdentityMap := s.socketIdentityMap.erase ws }
    s.sockets.foldl (tell (peerClosed tag identity)) s
  else s

end Server

inductive ServerAction (C : Type) where
  | client (ws : ℕ)
  | message (ws : ℕ) (m : SignalingMessage (Content C))
  | closed (ws : ℕ) (tag : ℕ → String)

def serverStep (s : Server C) : ServerAction C → Server C
  | .client ws => s.onClient ws
  | .message ws m => s.onClientMessage ws m
  | .closed ws tag => s.onClientClosed ws tag

namespace ServerAction

def connects : ServerAction C → Option ℕ
  | .client ws => some ws
  | _ => none

/-- The socket that identifies itself, and as whom. -/
def identifies : ServerAction C → Option (ℕ × String)
  | .message ws m =>
    match m.type, m.content with
    | .setIdentityRequest, .identity identity => some (ws, identity)
    | _, _ => none
  | _ => none

end ServerAction

/-- The socket was sent a `PeerAvailable` that names `identity`. -/
def Told (s : Server C) (ws : ℕ) (identity : String) : Prop :=
  ∃ m, (ws, m) ∈ s.sent ∧ m.type = .peerAvailable ∧ m.content = .identity identity

/-- A callback is of a socket that is connected. -/
def OfConnected (s : Server C) : ServerAction C → Prop
  | .client _ => True
  | .message ws _ => ws ∈ s.sockets
  | .closed ws _ => ws ∈ s.sockets

/-- Sockets connect once and identify themselves at most once, with fresh identities. -/
structure Proper (as : List (ServerAction C)) : Prop where
  callbacks : Along serverStep OfConnected Server.create as
  connects : (as.filterMap ServerAction.connects).Nodup
  sockets : (as.filterMap fun a => a.identifies.map Prod.fst).Nodup
  identities : (as.filterMap fun a => a.identifies.map Prod.snd).Nodup

/-! ## What a loop sends -/

namespace Server
variable {s : Server C} {ws other : ℕ}

@[simp] theorem identityOf_touch (s : Server C) (ws other : ℕ) :
    (s.touch ws).identityOf other = s.identityOf other := by
  unfold identityOf touch
  rw [Std.ExtTreeMap.getElem?_insertIfNew]
  split
  · rename_i h
    have heq : ws = other := compare_eq_iff_eq.mp h.1
    rw [← heq, Std.ExtTreeMap.getElem?_eq_none h.2]
    rfl
  · rfl

section Tell
variable (f : ℕ → String → Option (SignalingMessage (Content C)))

@[simp] theorem sockets_tell (s : Server C) (ws : ℕ) : (s.tell f ws).sockets = s.sockets := by
  unfold tell
  dsimp only
  split <;> rfl

@[simp] theorem identityOf_tell (s : Server C) (ws other : ℕ) :
    (s.tell f ws).identityOf other = s.identityOf other := by
  rw [← identityOf_touch s ws other]
  unfold tell
  dsimp only
  split <;> rfl

theorem mem_sent_tell {m : SignalingMessage (Content C)} :
    (other, m) ∈ (s.tell f ws).sent ↔
      (other, m) ∈ s.sent ∨ other = ws ∧ f other (s.identityOf other) = some m := by
  unfold tell
  dsimp only
  rw [identityOf_touch]
  cases hf : f ws (s.identityOf ws) with
  | none =>
    show (other, m) ∈ s.sent ↔ _
    constructor
    · exact .inl
    · rintro (h | ⟨rfl, h⟩)
      · exact h
      · rw [hf] at h; cases h
  | some m' =>
    show (other, m) ∈ s.sent ++ [(ws, m')] ↔ _
    rw [List.mem_append, List.mem_singleton, Prod.mk.injEq]
    constructor
    · rintro (h | ⟨rfl, rfl⟩)
      · exact .inl h
      · exact .inr ⟨rfl, hf⟩
    · rintro (h | ⟨rfl, h⟩)
      · exact .inl h
      · rw [hf] at h; exact .inr ⟨rfl, (Option.some.inj h).symm⟩

@[simp] theorem sockets_foldl_tell (l : List ℕ) (s : Server C) : (l.foldl (tell f) s).sockets = s.sockets := by
  induction l generalizing s with
  | nil => rfl
  | cons ws rest ih => rw [List.foldl_cons, ih, sockets_tell]

/-- Each socket of the loop is sent what `f` makes of its identity. -/
theorem mem_sent_foldl_tell {m : SignalingMessage (Content C)} (l : List ℕ) (s : Server C) :
    (other, m) ∈ (l.foldl (tell f) s).sent ↔
      (other, m) ∈ s.sent ∨ other ∈ l ∧ f other (s.identityOf other) = some m := by
  induction l generalizing s with
  | nil => simp
  | cons ws rest ih =>
    rw [List.foldl_cons, ih, mem_sent_tell, identityOf_tell, List.mem_cons, or_assoc, ← or_and_right]

end Tell

theorem foldl_touch (l : List ℕ) (s : Server C) :
    (l.foldl touch s).sent = s.sent ∧ (l.foldl touch s).sockets = s.sockets := by
  induction l generalizing s with
  | nil => exact ⟨rfl, rfl⟩
  | cons ws rest ih => exact ih (s.touch ws)

end Server

/-! ## Who is told of whom -/

section Told
variable {s t : Server C} {ws other : ℕ} {identity : String}

/-- A loop that sends no `PeerAvailable` tells nobody. -/
theorem told_foldl_tell_iff {f : ℕ → String → Option (SignalingMessage (Content C))}
    (hf : ∀ ws receiver m, f ws receiver = some m → m.type ≠ .peerAvailable) (l : List ℕ) (s : Server C) :
    Told (l.foldl (Server.tell f) s) other identity ↔ Told s other identity := by
  constructor
  · rintro ⟨m, hm, htype, hcontent⟩
    rcases (Server.mem_sent_foldl_tell f l s).mp hm with hm | ⟨_, hm⟩
    · exact ⟨m, hm, htype, hcontent⟩
    · exact absurd htype (hf _ _ m hm)
  · rintro ⟨m, hm, hrest⟩
    exact ⟨m, (Server.mem_sent_foldl_tell f l s).mpr (.inl hm), hrest⟩

theorem told_send_iff {m : SignalingMessage (Content C)} (hm : m.type ≠ .peerAvailable) :
    Told (s.send ws m) other identity ↔ Told s other identity := by
  constructor
  · rintro ⟨m', hm', htype, hcontent⟩
    rcases List.mem_append.mp hm' with hm' | hm'
    · exact ⟨m', hm', htype, hcontent⟩
    · cases List.mem_singleton.mp hm'
      exact absurd htype hm
  · rintro ⟨m', hm', hrest⟩
    exact ⟨m', List.mem_append_left _ hm', hrest⟩

theorem told_announce_iff {tag name : String} (l : List ℕ) (s : Server C) :
    Told (l.foldl (Server.tell (Server.peerAvailable tag name)) s) other identity ↔
      Told s other identity ∨ name = identity ∧ other ∈ l := by
  constructor
  · rintro ⟨m, hm, htype, hcontent⟩
    rcases (Server.mem_sent_foldl_tell _ l s).mp hm with hm | ⟨hl, hm⟩
    · exact .inl ⟨m, hm, htype, hcontent⟩
    · cases hm
      cases hcontent
      exact .inr ⟨rfl, hl⟩
  · rintro (⟨m, hm, hrest⟩ | ⟨rfl, hl⟩)
    · exact ⟨m, (Server.mem_sent_foldl_tell _ l s).mpr (.inl hm), hrest⟩
    · exact ⟨_, (Server.mem_sent_foldl_tell _ l s).mpr (.inr ⟨hl, rfl⟩), rfl, rfl⟩

/-- A client that identifies itself is announced to every other socket. -/
theorem told_setIdentity_iff {m : SignalingMessage (Content C)} {name : String} :
    Told (s.setIdentity ws m name) other identity ↔
      Told s other identity ∨ name = identity ∧ other ∈ s.sockets ∧ other ≠ ws := by
  unfold Server.setIdentity
  dsimp only
  rw [told_announce_iff, told_send_iff (by simp), List.mem_filter]
  simp only [decide_eq_true_eq]
  rfl

theorem told_of_sent_eq (h : t.sent = s.sent) : Told t other identity ↔ Told s other identity := by
  unfold Told
  rw [h]

theorem told_forward_iff {m : SignalingMessage (Content C)} (hm : m.type ≠ .peerAvailable) (l : List ℕ)
    (s : Server C) :
    Told (l.foldl (Server.tell (Server.forward m)) s) other identity ↔ Told s other identity := by
  apply told_foldl_tell_iff
  intro ws receiver m' hm'
  unfold Server.forward at hm'
  split at hm'
  · cases hm'; exact hm
  · cases hm'

theorem told_onClientClosed_iff (tag : ℕ → String) :
    Told (s.onClientClosed ws tag) other identity ↔ Told s other identity := by
  unfold Server.onClientClosed
  dsimp only
  split
  · rw [told_foldl_tell_iff (by intro ws receiver m hm; cases hm; simp)]
    exact told_of_sent_eq rfl
  · exact told_of_sent_eq rfl

/-- A message tells anyone anything only if it sets an identity. -/
theorem told_onClientMessage_iff (m : SignalingMessage (Content C)) :
    Told (s.onClientMessage ws m) other identity ↔
      Told s other identity ∨
        (ServerAction.message ws m).identifies = some (ws, identity) ∧ other ∈ s.sockets ∧ other ≠ ws := by
  obtain ⟨type, sender, receiver, tag, content⟩ := m
  -- a message that is no `SetIdentityRequest` only has to add nothing
  have hnothing : ∀ {t : Server C} {a : ServerAction C}, (Told t other identity ↔ Told s other identity) →
      a.identifies = none → (Told t other identity ↔ Told s other identity ∨
        a.identifies = some (ws, identity) ∧ other ∈ s.sockets ∧ other ≠ ws) := by
    intro t a ht ha
    rw [ht, ha]
    simp
  cases type with
  | setIdentityRequest =>
    cases content with
    | identity name =>
      show Told ((s.touch ws).setIdentity ws _ name) other identity ↔
        Told s other identity ∨ some (ws, name) = some (ws, identity) ∧ other ∈ s.sockets ∧ other ≠ ws
      rw [told_setIdentity_iff, told_of_sent_eq (t := s.touch ws) (s := s) rfl, Option.some.injEq,
        Prod.mk.injEq, eq_self_iff_true, true_and]
      rfl
    | _ => exact hnothing (told_of_sent_eq rfl) rfl
  | availablePeersRequest =>
    apply hnothing _ rfl
    show Told ((s.touch ws).availablePeers ws _) other identity ↔ _
    unfold Server.availablePeers
    dsimp only
    rw [told_send_iff (by simp)]
    exact told_of_sent_eq (Server.foldl_touch _ _).1
  | rtcSetup => exact hnothing ((told_forward_iff (by simp) _ _).trans (told_of_sent_eq rfl)) rfl
  | rtcCandidate => exact hnothing ((told_forward_iff (by simp) _ _).trans (told_of_sent_eq rfl)) rfl
  | _ => exact hnothing (told_of_sent_eq rfl) rfl

theorem identifies_socket {m : SignalingMessage (Content C)}
    (h : (ServerAction.message ws m).identifies = some (other, identity)) : other = ws := by
  unfold ServerAction.identifies at h
  dsimp only at h
  split at h
  · cases h; rfl
  · cases h

/-- **What a callback adds.** Only a `SetIdentityRequest` tells anyone anything:
it tells every other connected socket of the identity. -/
theorem told_serverStep_iff (s : Server C) (a : ServerAction C) :
    Told (serverStep s a) other identity ↔
      Told s other identity ∨
        ∃ ws, a.identifies = some (ws, identity) ∧ other ∈ s.sockets ∧ other ≠ ws := by
  cases a with
  | client ws => simp [ServerAction.identifies, serverStep, Server.onClient, Told]
  | message ws m =>
    rw [show serverStep s (.message ws m) = s.onClientMessage ws m from rfl, told_onClientMessage_iff]
    apply or_congr_right
    constructor
    · intro h
      exact ⟨ws, h⟩
    · rintro ⟨w, hw, hrest⟩
      cases identifies_socket hw
      exact ⟨hw, hrest⟩
  | closed ws tag =>
    rw [show serverStep s (.closed ws tag) = s.onClientClosed ws tag from rfl, told_onClientClosed_iff]
    simp [ServerAction.identifies]

/-- Over a run: a socket is told of an identity exactly if it was connected when
another socket identified itself so. -/
theorem told_run_iff (as : List (ServerAction C)) :
    Told (run serverStep Server.create as) other identity ↔
      ∃ j a ws, as[j]? = some a ∧ a.identifies = some (ws, identity) ∧
        other ∈ (run serverStep Server.create (as.take j)).sockets ∧ other ≠ ws := by
  induction as using List.reverseRecOn with
  | nil => simp [Told, Server.create]
  | append_singleton as a ih =>
    rw [run_concat, told_serverStep_iff, ih]
    constructor
    · rintro (⟨j, b, ws, hj, hrest⟩ | ⟨ws, ha, hrest⟩)
      · have hlt : j < as.length := (List.getElem?_eq_some_iff.mp hj).1
        refine ⟨j, b, ws, (List.getElem?_append_left hlt).trans hj, ?_⟩
        rwa [List.take_append_of_le_length (by omega)]
      · refine ⟨as.length, a, ws, List.getElem?_concat_length, ha, ?_⟩
        rwa [List.take_left]
    · rintro ⟨j, b, ws, hj, hb, hrest⟩
      have hlt : j < (as ++ [a]).length := (List.getElem?_eq_some_iff.mp hj).1
      rw [List.length_append, List.length_singleton] at hlt
      rcases Nat.lt_succ_iff_lt_or_eq.mp hlt with hlt | rfl
      · rw [List.getElem?_append_left hlt] at hj
        rw [List.take_append_of_le_length (by omega)] at hrest
        exact .inl ⟨j, b, ws, hj, hb, hrest⟩
      · rw [List.getElem?_concat_length] at hj
        cases hj
        rw [List.take_left] at hrest
        exact .inr ⟨ws, hb, hrest⟩

end Told

/-! ## Who is connected when -/

section Connected
variable {s : Server C} {ws other : ℕ} {as : List (ServerAction C)}

theorem sockets_onClientMessage (m : SignalingMessage (Content C)) :
    (s.onClientMessage ws m).sockets = s.sockets := by
  unfold Server.onClientMessage
  dsimp only
  split
  · split
    · exact Server.sockets_foldl_tell _ _ _
    · rfl
  · exact (Server.foldl_touch _ _).2
  · exact Server.sockets_foldl_tell _ _ _
  · exact Server.sockets_foldl_tell _ _ _
  · rfl

/-- A socket is connected after a callback only if it was before, or it connects. -/
theorem mem_sockets_serverStep {a : ServerAction C} (h : ws ∈ (serverStep s a).sockets) :
    ws ∈ s.sockets ∨ a.connects = some ws := by
  cases a with
  | client w =>
    have hw : ws ∈ if w ∈ s.sockets then s.sockets else s.sockets ++ [w] := h
    split at hw
    · exact .inl hw
    · rcases List.mem_append.mp hw with hw | hw
      · exact .inl hw
      · rw [List.mem_singleton.mp hw]; exact .inr rfl
  | message w m => exact .inl (by rwa [serverStep, sockets_onClientMessage] at h)
  | closed w tag =>
    rw [serverStep, Server.onClientClosed] at h
    dsimp only at h
    split at h
    · rw [Server.sockets_foldl_tell] at h
      exact .inl (List.mem_of_mem_filter h)
    · exact .inl h

/-- A connected socket has connected at some point and stayed connected since. -/
theorem connected_since (h : ws ∈ (run serverStep Server.create as).sockets) :
    ∃ i a, as[i]? = some a ∧ a.connects = some ws ∧
      ∀ j, i < j → ws ∈ (run serverStep Server.create (as.take j)).sockets := by
  induction as using List.reverseRecOn with
  | nil => simp [Server.create] at h
  | append_singleton as a ih =>
    have hend : ∀ j, as.length < j → ws ∈ (run serverStep Server.create ((as ++ [a]).take j)).sockets := by
      intro j hj
      rwa [List.take_of_length_le (by rw [List.length_append, List.length_singleton]; omega)]
    rw [run_concat] at h
    rcases mem_sockets_serverStep h with hbefore | ha
    · obtain ⟨i, b, hi, hb, hall⟩ := ih hbefore
      have hlt : i < as.length := (List.getElem?_eq_some_iff.mp hi).1
      refine ⟨i, b, (List.getElem?_append_left hlt).trans hi, hb, ?_⟩
      intro j hij
      by_cases hj : j ≤ as.length
      · rw [List.take_append_of_le_length hj]
        exact hall j hij
      · exact hend j (by omega)
    · exact ⟨as.length, a, List.getElem?_concat_length, ha, hend⟩

theorem connected_before {j : ℕ} (h : ws ∈ (run serverStep Server.create (as.take j)).sockets) :
    ∃ i < j, ∃ a, as[i]? = some a ∧ a.connects = some ws := by
  obtain ⟨i, a, hi, ha, _⟩ := connected_since h
  rw [List.getElem?_take] at hi
  split at hi
  · rename_i hij
    exact ⟨i, hij, a, hi, ha⟩
  · cases hi

end Connected

/-! ## Which of two clients makes the offer -/

/-- The socket has identified itself. -/
def Identified (as : List (ServerAction C)) (ws : ℕ) (identity : String) : Prop :=
  ∃ a ∈ as, a.identifies = some (ws, identity)

/-- `ws` had identified itself before `other` connected. -/
def IdentifiedBefore (as : List (ServerAction C)) (ws other : ℕ) : Prop :=
  ∃ (i j : ℕ) (a b : ServerAction C) (identity : String), i < j ∧ as[i]? = some a ∧ a.identifies = some (ws, identity) ∧
    as[j]? = some b ∧ b.connects = some other

section Pair
variable {as : List (ServerAction C)} {ws other : ℕ} {identity : String} {i j : ℕ} {a b : ServerAction C}

/-- A connected socket is told of another exactly if it connected first. -/
theorem Proper.told_iff (h : Proper as) (hother : other ∈ (run serverStep Server.create as).sockets)
    (hne : other ≠ ws) (hi : as[i]? = some a) (ha : a.identifies = some (ws, identity))
    (hj : as[j]? = some b) (hb : b.connects = some other) :
    Told (run serverStep Server.create as) other identity ↔ j < i := by
  rw [told_run_iff]
  constructor
  · rintro ⟨k, c, w, hk, hc, hmem, _⟩
    have hki : k = i := eq_of_nodup_filterMap (v := identity) h.identities hk hi (by simp [hc]) (by simp [ha])
    obtain ⟨l, hl, d, hd, hconnects⟩ := connected_before hmem
    have hlj : l = j := eq_of_nodup_filterMap h.connects hd hj hconnects hb
    omega
  · intro hji
    obtain ⟨l, d, hl, hd, hall⟩ := connected_since hother
    have hlj : l = j := eq_of_nodup_filterMap h.connects hl hj hd hb
    exact ⟨i, a, ws, hi, ha, hall i (by omega), hne⟩

/-- A socket identifies itself after it connected. -/
theorem Proper.connects_first (h : Proper as) (hi : as[i]? = some a)
    (ha : a.identifies = some (ws, identity)) (hj : as[j]? = some b) (hb : b.connects = some ws) : j < i := by
  have hmem : ws ∈ (run serverStep Server.create (as.take i)).sockets := by
    have hok := h.callbacks.getElem? hi
    cases a with
    | client w => cases ha
    | closed w tag => cases ha
    | message w m =>
      rw [identifies_socket ha]
      exact hok
  obtain ⟨l, hl, d, hd, hconnects⟩ := connected_before hmem
  have hlj : l = j := eq_of_nodup_filterMap h.connects hd hj hconnects hb
  omega

theorem Proper.identifiedBefore_iff (h : Proper as) (hi : as[i]? = some a)
    (ha : a.identifies = some (ws, identity)) (hj : as[j]? = some b) (hb : b.connects = some other) :
    IdentifiedBefore as ws other ↔ i < j := by
  constructor
  · rintro ⟨k, l, c, d, name, hkl, hk, hc, hl, hd⟩
    have hki : k = i := eq_of_nodup_filterMap (v := ws) h.sockets hk hi (by simp [hc]) (by simp [ha])
    have hlj : l = j := eq_of_nodup_filterMap h.connects hl hj hd hb
    omega
  · intro hij
    exact ⟨i, j, a, b, identity, hij, hi, ha, hj, hb⟩

theorem position_ne (hi : as[i]? = some a) (ha : a.identifies = some (ws, identity))
    (hj : as[j]? = some b) (hb : b.connects = some other) : i ≠ j := by
  rintro rfl
  rw [hi] at hj
  cases hj
  cases a with
  | client w => cases ha
  | message w m => cases hb
  | closed w tag => cases ha

end Pair

/-- **Exactly one of two clients is told of the other if one came late enough.**
In every run of the server with clients that connect once and identify
themselves at most once, under fresh identities, and for any two clients that
are connected and identified: exactly one of them was sent a `PeerAvailable`
naming the other if and only if one of them had identified itself before the
other connected. -/
theorem exactly_one_told_iff {as : List (ServerAction C)} (h : Proper as) {ws other : ℕ}
    {identity otherIdentity : String} (hne : ws ≠ other)
    (hws : ws ∈ (run serverStep Server.create as).sockets)
    (hother : other ∈ (run serverStep Server.create as).sockets)
    (hidentity : Identified as ws identity) (hotherIdentity : Identified as other otherIdentity) :
    Xor (Told (run serverStep Server.create as) other identity)
        (Told (run serverStep Server.create as) ws otherIdentity) ↔
      IdentifiedBefore as ws other ∨ IdentifiedBefore as other ws := by
  obtain ⟨a, hmem, ha⟩ := hidentity
  obtain ⟨b, hmem', hb⟩ := hotherIdentity
  obtain ⟨i, hi⟩ := List.mem_iff_getElem?.mp hmem
  obtain ⟨j, hj⟩ := List.mem_iff_getElem?.mp hmem'
  obtain ⟨k, c, hk, hc, _⟩ := connected_since hws
  obtain ⟨l, d, hl, hd, _⟩ := connected_since hother
  rw [h.told_iff hother (Ne.symm hne) hi ha hl hd, h.told_iff hws hne hj hb hk hc,
    h.identifiedBefore_iff hi ha hl hd, h.identifiedBefore_iff hj hb hk hc]
  have hki : k < i := h.connects_first hi ha hk hc
  have hlj : l < j := h.connects_first hj hb hl hd
  have hil : i ≠ l := position_ne hi ha hl hd
  have hjk : j ≠ k := position_ne hj hb hk hc
  unfold Xor
  omega

/-! ## Values for closed runs -/

instance (s : Server C) (a : ServerAction C) : Decidable (OfConnected s a) :=
  match a with
  | .client _ => inferInstanceAs (Decidable True)
  | .message ws _ => inferInstanceAs (Decidable (ws ∈ s.sockets))
  | .closed ws _ => inferInstanceAs (Decidable (ws ∈ s.sockets))

def setIdentityRequest (ws : ℕ) (identity : String) : ServerAction Unit :=
  .message ws ⟨.setIdentityRequest, identity, "signaling_server", "tag", .identity identity⟩

/-- The second client connects after the first has identified itself. -/
def oneAfterTheOther : List (ServerAction Unit) :=
  [.client 0, setIdentityRequest 0 "a", .client 1, setIdentityRequest 1 "b"]

theorem exactly_one_told_iff_oneAfterTheOther :
    Xor (Told (run serverStep Server.create oneAfterTheOther) 1 "a")
      (Told (run serverStep Server.create oneAfterTheOther) 0 "b") :=
  (exactly_one_told_iff (show Proper oneAfterTheOther from ⟨by decide +kernel, by decide, by decide, by decide⟩)
    (by decide) (by decide +kernel) (by decide +kernel) ⟨setIdentityRequest 0 "a", by simp [oneAfterTheOther], rfl⟩
    ⟨setIdentityRequest 1 "b", by simp [oneAfterTheOther], rfl⟩).mpr
    (.inl ⟨1, 2, _, _, "a", by decide, rfl, rfl, rfl, rfl⟩)

/-- Both clients connect before either has identified itself. -/
def bothAtOnce : List (ServerAction Unit) :=
  [.client 0, .client 1, setIdentityRequest 0 "a", setIdentityRequest 1 "b"]

theorem both_told :
    Proper bothAtOnce ∧ (run serverStep Server.create bothAtOnce).sockets = [0, 1] ∧
      Told (run serverStep Server.create bothAtOnce) 1 "a" ∧
      Told (run serverStep Server.create bothAtOnce) 0 "b" := by
  refine ⟨⟨by decide +kernel, by decide, by decide, by decide⟩, by decide +kernel, ?_, ?_⟩
  · exact ⟨⟨.peerAvailable, "signaling_server", "", "tag", .identity "a"⟩, by decide +kernel, rfl, rfl⟩
  · exact ⟨⟨.peerAvailable, "signaling_server", "a", "tag", .identity "b"⟩, by decide +kernel, rfl, rfl⟩

end Krapi.Signaling
