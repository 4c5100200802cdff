import Krapi.Presence

/-! # Connection offers on their way

Peers find each other by `RTCSetup` and `RTCCandidate` messages that the signaling
server hands to whoever bears the identity they are addressed to. What a client
receives of them follows from the callbacks alone: every message that was addressed
to the identity it had at that moment, once, in the order in which the server got
them, as they were sent. -/
namespace Krapi.Relay
open Krapi.Messages Krapi.Lib.Run Krapi.Signaling Krapi.Presence

variable {C : Type}

/-- The two types of message that are handed on. -/
def isRtc (m : SignalingMessage (Content C)) : Bool := m.type = .rtcSetup || m.type = .rtcCandidate

/-- The connection messages a socket was sent, in order. -/
def received (s : Server C) (ws : ℕ) : List (SignalingMessage (Content C)) :=
  (s.sent.filter fun sent => sent.1 = ws && isRtc sent.2).map Prod.snd

/-! ## What a client is due -/

/-- The identity under which a socket is known after a callback; a socket that is
connected and has not identified itself is known under the empty one. -/
def knownAfter (ws : ℕ) (known : Option String) : ServerAction C → Option String
  | .client w => if w = ws then some (known.getD "") else known
  | .message w m =>
    match (ServerAction.message w m).identifies with
    | some (w, identity) => if w = ws then some identity else known
    | none => known
  | .closed w _ => if w = ws then none else known

/-- The connection message of a callback, if it is addressed to who is known. -/
def addressed (known : Option String) : ServerAction C → Option (SignalingMessage (Content C))
  | .message _ m => if isRtc m ∧ known = some m.receiverIdentity then some m else none
  | _ => none

/-- The messages a socket is due over the callbacks. -/
def due (ws : ℕ) : Option String → List (ServerAction C) → List (SignalingMessage (Content C))
  | _, [] => []
  | known, a :: as => (addressed known a).toList ++ due ws (knownAfter ws known a) as

/-- Under what a socket is known to the server. -/
def known (s : Server C) (ws : ℕ) : Option String :=
  if ws ∈ s.sockets then some (s.identityOf ws) else none

/-! ## What a callback sends -/

section Callbacks
variable {s : Server C} {ws : ℕ}

theorem heard_of_sent_eq {t : Server C} (h : t.sent = s.sent) : heard t ws = heard s ws := by
  unfold heard
  rw [h]

theorem heard_send (s : Server C) (w : ℕ) (m : SignalingMessage (Content C)) :
    heard (s.send w m) ws = heard s ws ++ if w = ws then [m] else [] := by
  unfold heard Server.send
  dsimp only
  rw [List.filterMap_append]
  by_cases hw : w = ws <;> simp [hw]

/-- A loop sends each socket once what it makes of it. -/
theorem heard_foldl_tell {f : ℕ → String → Option (SignalingMessage (Content C))} {l : List ℕ} (hl : l.Nodup)
    (s : Server C) :
    heard (l.foldl (Server.tell f) s) ws = heard s ws ++ if ws ∈ l then (f ws (s.identityOf ws)).toList else [] := by
  induction l generalizing s with
  | nil => simp
  | cons w rest ih =>
    obtain ⟨hw, hrest⟩ := List.nodup_cons.mp hl
    have hfirst : heard (s.tell f w) ws = heard s ws ++ if w = ws then (f ws (s.identityOf ws)).toList else [] := by
      unfold Server.tell
      dsimp only
      rw [Server.identityOf_touch]
      cases hf : f w (s.identityOf w) with
      | none =>
        have hnone : (if w = ws then (f ws (s.identityOf ws)).toList else []) = [] := by
          split
          · rename_i hws
            rw [← hws, hf]
            rfl
          · rfl
        rw [hnone, List.append_nil]
        exact heard_of_sent_eq rfl
      | some m =>
        show heard ((s.touch w).send w m) ws = _
        rw [heard_send, heard_of_sent_eq (show (s.touch w).sent = s.sent from rfl)]
        congr 1
        split
        · rename_i hws
          rw [← hws, hf]
          rfl
        · rfl
    rw [List.foldl_cons, ih hrest, hfirst, Server.identityOf_tell, List.append_assoc]
    congr 1
    by_cases hws : w = ws
    · subst hws
      simp [hw]
    · have hne : ws ≠ w := Ne.symm hws
      simp [hws, hne]

/-- The loop over the sockets hands a message to each that bears the identity, once. -/
theorem heard_foldl_forward {l : List ℕ} (hl : l.Nodup) (m : SignalingMessage (Content C)) (s : Server C) :
    heard (l.foldl (Server.tell (Server.forward m)) s) ws =
      heard s ws ++ if ws ∈ l ∧ s.identityOf ws = m.receiverIdentity then [m] else [] := by
  rw [heard_foldl_tell hl]
  congr 1
  by_cases hws : ws ∈ l <;> by_cases hid : s.identityOf ws = m.receiverIdentity <;>
    simp [Server.forward, hws, hid]

theorem received_eq_filter (s : Server C) (ws : ℕ) : received s ws = (heard s ws).filter isRtc := by
  unfold received heard
  induction s.sent with
  | nil => rfl
  | cons sent rest ih =>
    by_cases hws : sent.1 = ws <;> by_cases hm : isRtc sent.2 = true <;> simp [hws, hm, ih]

/-- What is added to what a socket hears is received if it is a connection message. -/
theorem received_of_heard {t : Server C} {more : List (SignalingMessage (Content C))}
    (h : heard t ws = heard s ws ++ more) : received t ws = received s ws ++ more.filter isRtc := by
  rw [received_eq_filter, received_eq_filter, h, List.filter_append]

/-- A loop whose messages are no connection messages is not received. -/
theorem received_foldl_tell {f : ℕ → String → Option (SignalingMessage (Content C))}
    (hf : ∀ w receiver m, f w receiver = some m → isRtc m = false) {l : List ℕ} (hl : l.Nodup) (s : Server C) :
    received (l.foldl (Server.tell f) s) ws = received s ws := by
  rw [received_of_heard (heard_foldl_tell hl s)]
  have hnone : (if ws ∈ l then (f ws (s.identityOf ws)).toList else []).filter isRtc = [] := by
    split
    · cases hm : f ws (s.identityOf ws) with
      | none => rfl
      | some m => simp [hf _ _ m hm]
    · rfl
  rw [hnone, List.append_nil]

theorem received_of_sent_eq {t : Server C} (h : t.sent = s.sent) : received t ws = received s ws := by
  unfold received
  rw [h]

theorem received_send_other {m : SignalingMessage (Content C)} (hm : isRtc m = false) (s : Server C) (w : ℕ) :
    received (s.send w m) ws = received s ws := by
  rw [received_of_heard (heard_send s w m)]
  split <;> simp [hm]

/-- A message adds to what a socket received exactly what it is due. -/
theorem received_onClientMessage (hnodup : s.sockets.Nodup) (w : ℕ) (m : SignalingMessage (Content C)) :
    received (s.onClientMessage w m) ws = received s ws ++ (addressed (known s ws) (.message w m)).toList := by
  have htouch : received (s.touch w) ws = received s ws := received_of_sent_eq rfl
  by_cases hm : isRtc m = true
  · have hforward : s.onClientMessage w m = s.sockets.foldl (Server.tell (Server.forward m)) (s.touch w) := by
      obtain ⟨type, sender, receiver, tag, content⟩ := m
      cases type <;> first | rfl | cases hm
    rw [hforward, received_of_heard (heard_foldl_forward hnodup m _), htouch, Server.identityOf_touch, addressed, known]
    by_cases hws : ws ∈ s.sockets
    · by_cases hid : s.identityOf ws = m.receiverIdentity <;> simp [hws, hid, hm]
    · simp [hws]
  · have hnone : addressed (known s ws) (.message w m) = none := if_neg fun h => hm h.1
    rw [hnone, Option.toList_none, List.append_nil]
    obtain ⟨type, sender, receiver, tag, content⟩ := m
    cases type with
    | setIdentityRequest =>
      cases content with
      | identity name =>
        show received (((s.touch w).setIdentity w _ name)) ws = _
        unfold Server.setIdentity
        dsimp only
        refine (received_foldl_tell (by rintro _ _ m' hm'; cases hm'; rfl) (hnodup.filter _) _).trans ?_
        rw [received_send_other rfl]
        exact received_of_sent_eq rfl
      | _ => exact htouch
    | availablePeersRequest =>
      show received (((s.touch w).availablePeers w _)) ws = _
      unfold Server.availablePeers
      dsimp only
      rw [received_send_other rfl, received_of_sent_eq (Server.foldl_touch (s.touch w).sockets (s.touch w)).1, htouch]
    | rtcSetup => exact absurd rfl hm
    | rtcCandidate => exact absurd rfl hm
    | _ => exact htouch

end Callbacks

/-! ## Over a run -/

section Steps
variable {s : Server C} {ws : ℕ} {a : ServerAction C}

theorem nodup_step (h : s.sockets.Nodup) (a : ServerAction C) : (serverStep s a).sockets.Nodup := by
  cases a with
  | client w =>
    show (if w ∈ s.sockets then s.sockets else s.sockets ++ [w]).Nodup
    split
    · exact h
    · rename_i hw
      rw [← List.concat_eq_append]
      exact h.concat hw
  | message w m =>
    show (s.onClientMessage w m).sockets.Nodup
    rwa [sockets_onClientMessage]
  | closed w tag =>
    show (s.onClientClosed w tag).sockets.Nodup
    unfold Server.onClientClosed
    dsimp only
    split
    · rw [Server.sockets_foldl_tell]
      exact h.filter _
    · exact h

/-- Sockets that are not connected have no entry in the identity map. -/
theorem keyed_step (h : Keyed s) (hok : OfConnected s a) : Keyed (serverStep s a) := by
  cases a with
  | client w =>
    intro o
    rw [show (o ∈ (serverStep s (.client w)).sockets) ↔ _ from mem_sockets_onClient]
    show o ∈ s.socketIdentityMap.insertIfNew w "" ↔ _
    rw [Std.ExtTreeMap.mem_insertIfNew, compare_eq_iff_eq, h o, or_comm, eq_comm]
  | message w m => exact (hears_onClientMessage hok m).keyed h
  | closed w tag => exact (forgets_onClientClosed hok tag).keyed h

theorem known_step (h : Keyed s) (hok : OfConnected s a) :
    known (serverStep s a) ws = knownAfter ws (known s ws) a := by
  cases a with
  | client w =>
    have hid : (s.onClient w).identityOf ws = s.identityOf ws := Server.identityOf_touch s w ws
    show known (s.onClient w) ws = _
    unfold known knownAfter
    rw [hid]
    simp only [mem_sockets_onClient]
    by_cases hws : ws ∈ s.sockets
    · by_cases hw : w = ws <;> simp [hws, hw]
    · by_cases hw : w = ws
      · simp [hws, hw, h.identityOf_eq_empty hws]
      · have hne : ws ≠ w := Ne.symm hw
        simp [hws, hw, hne]
  | message w m =>
    have hears := hears_onClientMessage hok m
    show known (s.onClientMessage w m) ws = _
    unfold known knownAfter
    rw [hears.sockets, hears.identityOf]
    dsimp only
    cases hnamed : (ServerAction.message w m).identifies with
    | none => rfl
    | some named =>
      obtain ⟨o, identity⟩ := named
      have ho : o = w := identifies_socket hnamed
      subst ho
      by_cases hw : o = ws
      · subst hw
        have hmem : o ∈ s.sockets := hok
        simp [identityAfter, hmem]
      · simp [identityAfter, hw]
  | closed w tag =>
    have hforgets := forgets_onClientClosed hok tag
    show known (s.onClientClosed w tag) ws = _
    unfold known knownAfter
    simp only [hforgets.sockets]
    by_cases hw : w = ws
    · simp [hw]
    · rw [hforgets.identityOf ws (Ne.symm hw)]
      have hne : ws ≠ w := Ne.symm hw
      simp [hw, hne]

theorem received_step (hnodup : s.sockets.Nodup) :
    received (serverStep s a) ws = received s ws ++ (addressed (known s ws) a).toList := by
  cases a with
  | client w => exact (received_of_sent_eq rfl).trans (List.append_nil _).symm
  | message w m => exact received_onClientMessage hnodup w m
  | closed w tag =>
    refine Eq.trans ?_ (List.append_nil _).symm
    show received (s.onClientClosed w tag) ws = _
    unfold Server.onClientClosed
    dsimp only
    split
    · refine (received_foldl_tell (by rintro _ _ m' hm'; cases hm'; rfl) (hnodup.filter _) _).trans ?_
      exact received_of_sent_eq rfl
    · exact received_of_sent_eq rfl

end Steps

theorem received_run (ws : ℕ) :
    ∀ (as : List (ServerAction C)) {s : Server C}, s.sockets.Nodup → Keyed s → Along serverStep OfConnected s as →
      received (run serverStep s as) ws = received s ws ++ due ws (known s ws) as
  | [], s, _, _, _ => (List.append_nil _).symm
  | a :: as, s, hnodup, hkeyed, hok => by
    rw [run_cons, received_run ws as (nodup_step hnodup a) (keyed_step hkeyed hok.1) hok.2,
      received_step hnodup, known_step hkeyed hok.1, List.append_assoc]
    rfl

theorem known_run (ws : ℕ) :
    ∀ (as : List (ServerAction C)) {s : Server C}, Keyed s → Along serverStep OfConnected s as →
      known (run serverStep s as) ws = as.foldl (knownAfter ws) (known s ws)
  | [], _, _, _ => rfl
  | a :: as, s, hkeyed, hok => by
    rw [run_cons, known_run ws as (keyed_step hkeyed hok.1) hok.2, known_step hkeyed hok.1]
    rfl

/-- **Offers are relayed once, in order, to the one they are addressed to.** In every
sequence of callbacks of connected sockets, what a socket has received of connection
messages is what was addressed to the identity it had, each message once, in order and
unchanged, and nothing before it connected or after it closed. Where sockets connect once
and identify themselves at most once, under fresh identities that are not empty, no
message with a receiver is due to two sockets. -/
theorem rtc_relayed_once (as : List (ServerAction C)) (h : Along serverStep OfConnected Server.create as) :
    (∀ ws, received (run serverStep Server.create as) ws = due ws none as) ∧
    (Proper as → NonEmpty as → ∀ (w : ℕ) (m : SignalingMessage (Content C)), m.receiverIdentity ≠ "" → ∀ ws other,
      (addressed (as.foldl (knownAfter ws) none) (.message w m)).isSome →
      (addressed (as.foldl (knownAfter other) none) (.message w m)).isSome → ws = other) := by
  have hkeyed : Keyed (Server.create : Server C) := present_create.keyed
  constructor
  · intro ws
    exact received_run ws as List.nodup_nil hkeyed h
  · intro hproper hnonEmpty w m hreceiver ws other hws hother
    have hpresent := present_run hproper hnonEmpty
    have hidentified : ∀ o, (addressed (as.foldl (knownAfter o) none) (.message w m)).isSome →
        Identified as o m.receiverIdentity := by
      intro o ho
      have hknown : as.foldl (knownAfter o) none = known (run serverStep Server.create as) o :=
        (known_run o as hkeyed h).symm
      rw [hknown] at ho
      have hid : known (run serverStep Server.create as) o = some m.receiverIdentity := by
        by_contra hne
        rw [addressed, if_neg fun hand => hne hand.2] at ho
        cases ho
      unfold known at hid
      split at hid
      · rename_i hmem
        exact (hpresent.identityOf o hmem _ hreceiver).mp (Option.some.inj hid)
      · cases hid
    exact identified_unique hproper (hidentified ws hws) (hidentified other hother)

/-- An offer to a client that connects, identifies itself and leaves. -/
def offer (tag : String) : ServerAction Unit :=
  .message 0 ⟨.rtcSetup, "a", "b", tag, .rtc ()⟩

def offers : List (ServerAction Unit) :=
  [.client 0, setIdentityRequest 0 "a", .client 1, offer "early", setIdentityRequest 1 "b", offer "first",
    offer "second", .closed 1 fun _ => "tag", offer "late"]

theorem rtc_relayed_once_offers :
    received (run serverStep Server.create offers) 1 =
        [⟨.rtcSetup, "a", "b", "first", .rtc ()⟩, ⟨.rtcSetup, "a", "b", "second", .rtc ()⟩] ∧
      ∀ ws, (addressed ((offers.take 7).foldl (knownAfter ws) none) (offer "third")).isSome → ws = 1 := by
  refine ⟨(rtc_relayed_once offers (by decide +kernel)).1 1, ?_⟩
  have hproper : Proper (offers.take 7) := ⟨by decide +kernel, by decide, by decide, by decide⟩
  have hnonEmpty : NonEmpty (offers.take 7) := by
    intro a ha ws
    simp only [offers, List.take_succ_cons, List.take_zero, List.mem_cons, List.not_mem_nil, or_false] at ha
    rcases ha with rfl | rfl | rfl | rfl | rfl | rfl | rfl <;>
      simp [setIdentityRequest, offer, ServerAction.identifies]
  intro ws h
  exact (rtc_relayed_once (offers.take 7) hproper.callbacks).2 hproper hnonEmpty 0
    ⟨.rtcSetup, "a", "b", "third", .rtc ()⟩ (by decide) ws 1 h (by decide)

end Krapi.Relay
