import Krapi.Signaling

/-! # Who a client believes to be connected

Nobody holds the list of clients but the server. A client that folds the
`PeerAvailable` and `PeerClosed` messages it is sent knows of some of the others.
What it knows is never stale, and of two clients at least one knows of the
other: the one that was connected when the other identified itself. -/
namespace Krapi.Presence
open Krapi.Messages Krapi.Lib.Run Krapi.Signaling

variable {C : Type}

/-- What a client makes of a message: the set of peers it takes to be connected. -/
def hear (peers : Finset String) (m : SignalingMessage (Content C)) : Finset String :=
  match m.type, m.content with
  | .peerAvailable, .identity identity => insert identity peers
  | .peerClosed, .identity identity => peers.erase identity
  | _, _ => peers

/-- The messages a socket was sent, in order. A socket is one connection and is
sent nothing before it connects. -/
def heard (s : Server C) (ws : ℕ) : List (SignalingMessage (Content C)) :=
  s.sent.filterMap fun sent => if sent.1 = ws then some sent.2 else none

def presence (s : Server C) (ws : ℕ) : Finset String := (heard s ws).foldl hear ∅

/-! ## What a loop makes the clients hear -/

section Hear
variable {s t : Server C} {ws other : ℕ} {f : ℕ → String → Option (SignalingMessage (Content C))}

theorem presence_of_sent_eq (h : t.sent = s.sent) : presence t ws = presence s ws := by
  unfold presence heard
  rw [h]

theorem presence_send (m : SignalingMessage (Content C)) :
    presence (s.send other m) ws = if other = ws then hear (presence s ws) m else presence s ws := by
  unfold presence heard Server.send
  dsimp only
  rw [List.filterMap_append, List.foldl_append]
  split
  · rename_i h
    simp [h]
  · rename_i h
    simp [h]

theorem hear_of_type {m : SignalingMessage (Content C)} (havailable : m.type ≠ .peerAvailable)
    (hclosed : m.type ≠ .peerClosed) (peers : Finset String) : hear peers m = peers := by
  unfold hear
  split
  · rename_i h _
    exact absurd h havailable
  · rename_i h _
    exact absurd h hclosed
  · rfl

theorem presence_tell (g : Finset String → Finset String)
    (hf : ∀ receiver, ∃ m, f other receiver = some m ∧ ∀ peers, hear peers m = g peers) :
    presence (s.tell f other) ws = if other = ws then g (presence s ws) else presence s ws := by
  obtain ⟨m, hm, hg⟩ := hf ((s.touch other).identityOf other)
  unfold Server.tell
  dsimp only
  rw [hm]
  show presence ((s.touch other).send other m) ws = _
  rw [presence_send, hg, presence_of_sent_eq (t := s.touch other) (s := s) rfl]

/-- A loop that tells each socket to do `g`, which done twice is as done once. -/
theorem presence_foldl_tell {g : Finset String → Finset String} (hg : ∀ peers, g (g peers) = g peers)
    (hf : ∀ ws receiver, ∃ m, f ws receiver = some m ∧ ∀ peers, hear peers m = g peers) (l : List ℕ)
    (s : Server C) :
    presence (l.foldl (Server.tell f) s) ws = if ws ∈ l then g (presence s ws) else presence s ws := by
  induction l generalizing s with
  | nil => rfl
  | cons o rest ih =>
    rw [List.foldl_cons, ih, presence_tell g (hf o)]
    by_cases ho : o = ws
    · subst ho
      simp [hg]
    · have ho' : ws ≠ o := Ne.symm ho
      simp [ho, ho']

theorem presence_foldl_forward {m : SignalingMessage (Content C)} (havailable : m.type ≠ .peerAvailable)
    (hclosed : m.type ≠ .peerClosed) (l : List ℕ) (s : Server C) :
    presence (l.foldl (Server.tell (Server.forward m)) s) ws = presence s ws := by
  induction l generalizing s with
  | nil => rfl
  | cons o rest ih =>
    rw [List.foldl_cons, ih]
    unfold Server.tell Server.forward
    dsimp only
    by_cases hid : (s.touch o).identityOf o = m.receiverIdentity
    · rw [if_pos hid]
      show presence ((s.touch o).send o m) ws = _
      rw [presence_send, hear_of_type havailable hclosed, ite_self]
      exact presence_of_sent_eq rfl
    · rw [if_neg hid]
      exact presence_of_sent_eq rfl

end Hear

/-! ## What a callback does to the identities -/

section Identities
variable {s : Server C} {ws other : ℕ} (f : ℕ → String → Option (SignalingMessage (Content C)))

/-- The map has an entry for exactly the connected sockets. -/
def Keyed (s : Server C) : Prop := ∀ ws, ws ∈ s.socketIdentityMap ↔ ws ∈ s.sockets

theorem Keyed.touch (h : Keyed s) (hws : ws ∈ s.sockets) : Keyed (s.touch ws) := by
  intro o
  show o ∈ s.socketIdentityMap.insertIfNew ws "" ↔ o ∈ s.sockets
  rw [Std.ExtTreeMap.mem_insertIfNew, compare_eq_iff_eq, h o]
  constructor
  · rintro (rfl | ho)
    · exact hws
    · exact ho
  · exact .inr

theorem Keyed.tell (h : Keyed s) (hws : ws ∈ s.sockets) : Keyed (s.tell f ws) := by
  have htouch := h.touch hws
  unfold Server.tell
  dsimp only
  split
  · exact htouch
  · exact htouch

theorem Keyed.foldl_tell (h : Keyed s) {l : List ℕ} (hl : ∀ ws ∈ l, ws ∈ s.sockets) :
    Keyed (l.foldl (Server.tell f) s) := by
  induction l generalizing s with
  | nil => exact h
  | cons ws rest ih =>
    apply ih (h.tell f (hl ws List.mem_cons_self))
    intro o ho
    rw [Server.sockets_tell]
    exact hl o (List.mem_cons_of_mem _ ho)

theorem Keyed.foldl_touch (h : Keyed s) {l : List ℕ} (hl : ∀ ws ∈ l, ws ∈ s.sockets) :
    Keyed (l.foldl Server.touch s) := by
  induction l generalizing s with
  | nil => exact h
  | cons ws rest ih => exact ih (h.touch (hl ws List.mem_cons_self)) fun o ho => hl o (List.mem_cons_of_mem _ ho)

theorem identityOf_foldl_tell (l : List ℕ) (s : Server C) :
    (l.foldl (Server.tell f) s).identityOf other = s.identityOf other := by
  induction l generalizing s with
  | nil => rfl
  | cons ws rest ih => rw [List.foldl_cons, ih, Server.identityOf_tell]

theorem identityOf_foldl_touch (l : List ℕ) (s : Server C) :
    (l.foldl Server.touch s).identityOf other = s.identityOf other := by
  induction l generalizing s with
  | nil => rfl
  | cons ws rest ih => rw [List.foldl_cons, ih, Server.identityOf_touch]

theorem Keyed.identityOf_eq_empty (h : Keyed s) (hws : ws ∉ s.sockets) : s.identityOf ws = "" := by
  have hnot : ws ∉ s.socketIdentityMap := fun hmem => hws ((h ws).mp hmem)
  unfold Server.identityOf
  rw [Std.ExtTreeMap.getElem?_eq_none hnot]
  rfl

end Identities

/-! ## What a callback does -/

section Callbacks
variable {s : Server C} {ws other : ℕ} {identity : String}

def identityAfter (s : Server C) (ws : ℕ) : Option (ℕ × String) → String
  | some (w, identity) => if w = ws then identity else s.identityOf ws
  | none => s.identityOf ws

def presenceAfter (s : Server C) (ws : ℕ) : Option (ℕ × String) → Finset String
  | some (w, identity) =>
    if ws ∈ s.sockets ∧ ws ≠ w then insert identity (presence s ws) else presence s ws
  | none => presence s ws

/-- What a `SetIdentityRequest` does, and what the other messages do not do. -/
structure Hears (s t : Server C) (identified : Option (ℕ × String)) : Prop where
  sockets : t.sockets = s.sockets
  identityOf : ∀ ws, t.identityOf ws = identityAfter s ws identified
  presence : ∀ ws, presence t ws = presenceAfter s ws identified
  keyed : Keyed s → Keyed t

theorem presence_foldl_peerAvailable (tag identity : String) (l : List ℕ) (s : Server C) :
    presence (l.foldl (Server.tell (Server.peerAvailable tag identity)) s) ws =
      if ws ∈ l then insert identity (presence s ws) else presence s ws :=
  presence_foldl_tell (g := insert identity) (fun peers => Finset.insert_idem identity peers)
    (fun _ receiver => ⟨⟨.peerAvailable, "signaling_server", receiver, tag, .identity identity⟩, rfl, fun _ => rfl⟩)
    l s

theorem presence_foldl_peerClosed (tag : ℕ → String) (identity : String) (l : List ℕ) (s : Server C) :
    presence (l.foldl (Server.tell (Server.peerClosed tag identity)) s) ws =
      if ws ∈ l then (presence s ws).erase identity else presence s ws :=
  presence_foldl_tell (g := fun peers => peers.erase identity) (fun _ => Finset.erase_idem)
    (fun o receiver => ⟨⟨.peerClosed, "signaling_server", receiver, tag o, .identity identity⟩, rfl, fun _ => rfl⟩)
    l s

theorem hears_setIdentity (hws : ws ∈ s.sockets) (m : SignalingMessage (Content C)) :
    Hears s (s.setIdentity ws m identity) (some (ws, identity)) := by
  have hfilter : ∀ o, (o ∈ s.sockets.filter fun socket => socket ≠ ws) ↔ o ∈ s.sockets ∧ o ≠ ws := by
    intro o
    rw [List.mem_filter, decide_eq_true_eq]
  refine ⟨Server.sockets_foldl_tell _ _ _, ?_, ?_, ?_⟩
  · intro o
    unfold Server.setIdentity
    dsimp only
    rw [identityOf_foldl_tell]
    show (s.socketIdentityMap.insert ws identity)[o]?.getD "" = _
    rw [Std.ExtTreeMap.getElem?_insert]
    by_cases ho : ws = o
    · simp [ho, identityAfter]
    · simp [ho, identityAfter, Server.identityOf]
  · intro o
    unfold Server.setIdentity
    dsimp only
    rw [presence_foldl_peerAvailable, presence_send, hear_of_type (by simp) (by simp), ite_self]
    show (if o ∈ s.sockets.filter fun socket => socket ≠ ws then _ else _) = _
    simp only [hfilter]
    rfl
  · intro hkeyed
    apply Keyed.foldl_tell
    · intro o
      show o ∈ s.socketIdentityMap.insert ws identity ↔ o ∈ s.sockets
      rw [Std.ExtTreeMap.mem_insert, compare_eq_iff_eq, hkeyed o]
      constructor
      · rintro (rfl | ho)
        · exact hws
        · exact ho
      · exact .inr
    · intro o ho
      exact ((hfilter o).mp ho).1

theorem hears_touch (hws : ws ∈ s.sockets) : Hears s (s.touch ws) none :=
  ⟨rfl, fun _ => Server.identityOf_touch _ _ _, fun _ => presence_of_sent_eq rfl, fun h => h.touch hws⟩

theorem hears_forward {m : SignalingMessage (Content C)} (havailable : m.type ≠ .peerAvailable)
    (hclosed : m.type ≠ .peerClosed) : Hears s (s.sockets.foldl (Server.tell (Server.forward m)) s) none :=
  ⟨Server.sockets_foldl_tell _ _ _, fun _ => identityOf_foldl_tell _ _ _,
    fun _ => presence_foldl_forward havailable hclosed _ _, fun h => h.foldl_tell _ fun _ ho => ho⟩

theorem hears_availablePeers (m : SignalingMessage (Content C)) : Hears s (s.availablePeers ws m) none := by
  refine ⟨(Server.foldl_touch _ _).2, fun o => identityOf_foldl_touch _ _, ?_, fun h => h.foldl_touch fun _ ho => ho⟩
  intro o
  unfold Server.availablePeers
  dsimp only
  rw [presence_send, hear_of_type (by simp) (by simp), ite_self]
  exact presence_of_sent_eq (Server.foldl_touch _ _).1

theorem Hears.of_touch {t : Server C} {identified : Option (ℕ × String)} (hws : ws ∈ s.sockets)
    (h : Hears (s.touch ws) t identified) : Hears s t identified := by
  refine ⟨h.sockets, ?_, ?_, fun hkeyed => h.keyed (hkeyed.touch hws)⟩
  · intro o
    rw [h.identityOf]
    cases identified with
    | none => exact Server.identityOf_touch _ _ _
    | some named => simp only [identityAfter, Server.identityOf_touch]
  · intro o
    rw [h.presence]
    cases identified with
    | none => rfl
    | some named => rfl

theorem hears_onClientMessage (hws : ws ∈ s.sockets) (m : SignalingMessage (Content C)) :
    Hears s (s.onClientMessage ws m) (ServerAction.message ws m).identifies := by
  obtain ⟨type, sender, receiver, tag, content⟩ := m
  cases type with
  | setIdentityRequest =>
    cases content with
    | identity name => exact (hears_setIdentity (s := s.touch ws) hws _).of_touch hws
    | _ => exact hears_touch hws
  | availablePeersRequest => exact (hears_availablePeers _).of_touch hws
  | rtcSetup => exact (hears_forward (s := s.touch ws) (by simp) (by simp)).of_touch hws
  | rtcCandidate => exact (hears_forward (s := s.touch ws) (by simp) (by simp)).of_touch hws
  | _ => exact hears_touch hws

/-- What the close of a connected socket does: the others forget its identity. -/
structure Forgets (s t : Server C) (ws : ℕ) : Prop where
  sockets : ∀ o, o ∈ t.sockets ↔ o ∈ s.sockets ∧ o ≠ ws
  identityOf : ∀ o, o ≠ ws → t.identityOf o = s.identityOf o
  presence : ∀ o, presence t o =
    if o ∈ s.sockets ∧ o ≠ ws then (presence s o).erase (s.identityOf ws) else presence s o
  keyed : Keyed s → Keyed t

theorem forgets_onClientClosed (hws : ws ∈ s.sockets) (tag : ℕ → String) :
    Forgets s (s.onClientClosed ws tag) ws := by
  have hfilter : ∀ o, (o ∈ s.sockets.filter fun socket => socket ≠ ws) ↔ o ∈ s.sockets ∧ o ≠ ws := by
    intro o
    rw [List.mem_filter, decide_eq_true_eq]
  have hmap : ∀ o, o ≠ ws → ((s.socketIdentityMap.insertIfNew ws "").erase ws)[o]? = s.socketIdentityMap[o]? := by
    intro o ho
    rw [Std.ExtTreeMap.getElem?_erase, Std.ExtTreeMap.getElem?_insertIfNew]
    simp [Ne.symm ho]
  unfold Server.onClientClosed
  dsimp only
  rw [if_pos (show ws ∈ (s.touch ws).sockets from hws)]
  refine ⟨?_, ?_, ?_, ?_⟩
  · intro o
    rw [Server.sockets_foldl_tell]
    exact hfilter o
  · intro o ho
    rw [identityOf_foldl_tell]
    unfold Server.identityOf
    exact congrArg (Option.getD · "") (hmap o ho)
  · intro o
    rw [presence_foldl_peerClosed]
    show (if o ∈ s.sockets.filter fun socket => socket ≠ ws then _ else _) = _
    simp only [hfilter]
    rfl
  · intro hkeyed
    apply Keyed.foldl_tell
    · intro o
      show o ∈ (s.socketIdentityMap.insertIfNew ws "").erase ws ↔ o ∈ s.sockets.filter fun socket => socket ≠ ws
      rw [hfilter, Std.ExtTreeMap.mem_erase, Std.ExtTreeMap.mem_insertIfNew, compare_eq_iff_eq, hkeyed o]
      constructor
      · rintro ⟨hne, rfl | ho⟩
        · exact absurd (compare_eq_iff_eq.mpr rfl) hne
        · exact ⟨ho, fun h => hne (compare_eq_iff_eq.mpr h.symm)⟩
      · rintro ⟨ho, hne⟩
        exact ⟨fun h => hne (compare_eq_iff_eq.mp h).symm, .inr ho⟩
    · intro o ho
      exact ho

end Callbacks

/-! ## Over a run -/

/-- No client identifies itself with the empty identity, which is what the map
holds for those that have not identified themselves. -/
def NonEmpty (as : List (ServerAction C)) : Prop := ∀ a ∈ as, ∀ ws, a.identifies ≠ some (ws, "")

section Run
variable {as : List (ServerAction C)} {a : ServerAction C} {s : Server C} {ws other : ℕ} {identity : String}

theorem proper_of_concat (h : Proper (as ++ [a])) :
    Proper as ∧ OfConnected (run serverStep Server.create as) a := by
  have hcallbacks := (along_append _ _ _).mp h.callbacks
  have hconnects := h.connects
  have hsockets := h.sockets
  have hidentities := h.identities
  rw [List.filterMap_append] at hconnects hsockets hidentities
  exact ⟨⟨hcallbacks.1, hconnects.of_append_left, hsockets.of_append_left, hidentities.of_append_left⟩,
    hcallbacks.2.1⟩

theorem identified_concat :
    Identified (as ++ [a]) ws identity ↔ Identified as ws identity ∨ a.identifies = some (ws, identity) := by
  unfold Identified
  simp only [List.mem_append, List.mem_singleton, or_and_right, exists_or, exists_eq_left]

/-- Only a socket that has connected identifies itself. -/
theorem connects_of_identified (h : Proper as) (hidentified : Identified as ws identity) :
    ∃ a ∈ as, a.connects = some ws := by
  obtain ⟨a, hmem, ha⟩ := hidentified
  obtain ⟨i, hi⟩ := List.mem_iff_getElem?.mp hmem
  have hok := h.callbacks.getElem? hi
  cases a with
  | client w => cases ha
  | closed w tag => cases ha
  | message w m =>
    rw [← identifies_socket ha] at hok
    obtain ⟨j, _, b, hj, hb⟩ := connected_before hok
    exact ⟨b, List.mem_of_getElem? hj, hb⟩

theorem identified_unique (h : Proper as) (hws : Identified as ws identity)
    (hother : Identified as other identity) : ws = other := by
  obtain ⟨a, hmem, ha⟩ := hws
  obtain ⟨b, hmem', hb⟩ := hother
  obtain ⟨i, hi⟩ := List.mem_iff_getElem?.mp hmem
  obtain ⟨j, hj⟩ := List.mem_iff_getElem?.mp hmem'
  have hij : i = j := eq_of_nodup_filterMap (v := identity) h.identities hi hj (by simp [ha]) (by simp [hb])
  rw [hij, hj] at hi
  cases hi
  rw [ha] at hb
  cases hb
  rfl

/-- A socket that identifies itself had not done so before. -/
theorem not_identified_of_concat (h : Proper (as ++ [a])) (ha : a.identifies = some (ws, identity)) (name : String) :
    ¬ Identified as ws name := by
  rintro ⟨b, hmem, hb⟩
  have hnodup := h.sockets
  rw [List.filterMap_append] at hnodup
  refine List.disjoint_of_nodup_append hnodup (a := ws) ?_ ?_
  · exact List.mem_filterMap.mpr ⟨b, hmem, by simp [hb]⟩
  · exact List.mem_filterMap.mpr ⟨a, List.mem_singleton_self a, by simp [ha]⟩

theorem not_connects_of_concat (h : Proper (as ++ [.client ws])) : ∀ b ∈ as, b.connects ≠ some ws := by
  intro b hmem hb
  have hnodup := h.connects
  rw [List.filterMap_append] at hnodup
  refine List.disjoint_of_nodup_append hnodup (a := ws) ?_ ?_
  · exact List.mem_filterMap.mpr ⟨b, hmem, hb⟩
  · exact List.mem_filterMap.mpr ⟨.client ws, List.mem_singleton_self _, rfl⟩

theorem not_mem_sockets_of_concat (h : Proper (as ++ [.client ws])) :
    ws ∉ (run serverStep Server.create as).sockets := by
  intro hmem
  obtain ⟨i, b, hi, hb, _⟩ := connected_since hmem
  exact not_connects_of_concat h b (List.mem_of_getElem? hi) hb

end Run

/-- **The invariant.** What the map, the sockets and the clients' sets have to do
with each other after the callbacks `as`. -/
structure Present (as : List (ServerAction C)) (s : Server C) : Prop where
  keyed : Keyed s
  identityOf : ∀ ws ∈ s.sockets, ∀ identity, identity ≠ "" →
    (s.identityOf ws = identity ↔ Identified as ws identity)
  connected : ∀ ws ∈ s.sockets, ∃ a ∈ as, a.connects = some ws
  /-- A socket that has yet to connect has been sent nothing. -/
  silent : ∀ ws, (∀ a ∈ as, a.connects ≠ some ws) → presence s ws = ∅
  current : ∀ ws ∈ s.sockets, ∀ identity ∈ presence s ws,
    identity ≠ "" ∧ ∃ other ∈ s.sockets, other ≠ ws ∧ s.identityOf other = identity
  paired : ∀ ws ∈ s.sockets, ∀ other ∈ s.sockets, ws ≠ other → s.identityOf ws ≠ "" → s.identityOf other ≠ "" →
    s.identityOf other ∈ presence s ws ∨ s.identityOf ws ∈ presence s other

section Step
variable {as : List (ServerAction C)} {s t : Server C} {ws : ℕ}

theorem present_create : Present [] (Server.create : Server C) where
  keyed := fun ws => by simp [Server.create]
  identityOf := fun ws hws => absurd hws List.not_mem_nil
  connected := fun ws hws => absurd hws List.not_mem_nil
  silent := fun _ _ => rfl
  current := fun ws hws => absurd hws List.not_mem_nil
  paired := fun ws hws => absurd hws List.not_mem_nil

theorem mem_sockets_onClient {other : ℕ} :
    other ∈ (s.onClient ws).sockets ↔ other ∈ s.sockets ∨ other = ws := by
  unfold Server.onClient
  dsimp only
  split
  · rename_i hws
    constructor
    · exact .inl
    · rintro (h | rfl)
      · exact h
      · exact hws
  · rw [List.mem_append, List.mem_singleton]

theorem Present.connected_concat {a : ServerAction C} (h : Present as s) :
    ∀ o ∈ s.sockets, ∃ b ∈ as ++ [a], b.connects = some o := by
  intro o ho
  obtain ⟨b, hmem, hb⟩ := h.connected o ho
  exact ⟨b, List.mem_append_left _ hmem, hb⟩

/-- A client that connects has no identity yet and has been told of nobody. -/
theorem Present.onClient (h : Present as s) (hproper : Proper (as ++ [.client ws])) (hws : ws ∉ s.sockets) :
    Present (as ++ [.client ws]) (s.onClient ws) := by
  have hidentityOf : ∀ o, (s.onClient ws).identityOf o = s.identityOf o := Server.identityOf_touch s ws
  have hpresence : ∀ o, presence (s.onClient ws) o = presence s o := fun o => presence_of_sent_eq rfl
  have hempty : s.identityOf ws = "" := h.keyed.identityOf_eq_empty hws
  have hfresh := not_connects_of_concat hproper
  constructor
  · intro o
    rw [mem_sockets_onClient]
    show o ∈ s.socketIdentityMap.insertIfNew ws "" ↔ _
    rw [Std.ExtTreeMap.mem_insertIfNew, compare_eq_iff_eq, h.keyed o, or_comm, eq_comm]
  · intro o ho identity hidentity
    rw [hidentityOf, identified_concat]
    have hnone : (ServerAction.client ws : ServerAction C).identifies ≠ some (o, identity) := by
      intro hsome
      cases hsome
    rcases mem_sockets_onClient.mp ho with ho | rfl
    · rw [h.identityOf o ho identity hidentity]
      simp [hnone]
    · have hnot : ¬ Identified as o identity := by
        intro hidentified
        obtain ⟨b, hmem, hb⟩ := connects_of_identified (proper_of_concat hproper).1 hidentified
        exact hfresh b hmem hb
      simp [hempty, Ne.symm hidentity, hnot, hnone]
  · intro o ho
    rcases mem_sockets_onClient.mp ho with ho | rfl
    · exact h.connected_concat o ho
    · exact ⟨.client o, List.mem_append_right _ (List.mem_singleton_self _), rfl⟩
  · intro o ho
    rw [hpresence]
    exact h.silent o fun b hb => ho b (List.mem_append_left _ hb)
  · intro o ho identity hmem
    rw [hpresence] at hmem
    rcases mem_sockets_onClient.mp ho with ho | rfl
    · obtain ⟨hidentity, other, hother, hne, heq⟩ := h.current o ho identity hmem
      exact ⟨hidentity, other, mem_sockets_onClient.mpr (.inl hother), hne, by rw [hidentityOf, heq]⟩
    · rw [h.silent o hfresh] at hmem
      exact absurd hmem (Finset.notMem_empty identity)
  · intro o ho other hother hne
    rw [hidentityOf, hidentityOf, hpresence, hpresence]
    intro ho' hother'
    rcases mem_sockets_onClient.mp ho with ho | rfl
    · rcases mem_sockets_onClient.mp hother with hother | rfl
      · exact h.paired o ho other hother hne ho' hother'
      · exact absurd hempty hother'
    · exact absurd hempty ho'

theorem subset_presenceAfter (s : Server C) (ws : ℕ) (identified : Option (ℕ × String)) :
    presence s ws ⊆ presenceAfter s ws identified := by
  unfold presenceAfter
  split
  · split
    · exact Finset.subset_insert _ _
    · exact Finset.Subset.refl _
  · exact Finset.Subset.refl _

/-- The other messages change nothing that the clients' sets depend on. -/
theorem Present.quiet {a : ServerAction C} (h : Present as s) (ht : Hears s t none) (ha : a.identifies = none) :
    Present (as ++ [a]) t := by
  obtain ⟨hsockets, hidentityOf, hpresence, hkeyed⟩ := ht
  simp only [identityAfter] at hidentityOf
  simp only [presenceAfter] at hpresence
  constructor
  · exact hkeyed h.keyed
  · rw [hsockets]
    intro o ho identity hidentity
    rw [hidentityOf, h.identityOf o ho identity hidentity, identified_concat, ha]
    simp
  · rw [hsockets]
    exact h.connected_concat
  · intro o ho
    rw [hpresence]
    exact h.silent o fun b hb => ho b (List.mem_append_left _ hb)
  · simp only [hsockets, hidentityOf, hpresence]
    exact h.current
  · simp only [hsockets, hidentityOf, hpresence]
    exact h.paired

/-! What an identification changes: one identity, and that the others hear of it. -/

theorem Hears.self {identity : String} (ht : Hears s t (some (ws, identity))) : t.identityOf ws = identity := by
  rw [ht.identityOf]
  exact if_pos rfl

theorem Hears.others {identity : String} (ht : Hears s t (some (ws, identity))) {o : ℕ} (ho : o ≠ ws) :
    t.identityOf o = s.identityOf o := by
  rw [ht.identityOf]
  exact if_neg (Ne.symm ho)

theorem told_of_hears {identity : String} (ht : Hears s t (some (ws, identity))) {o : ℕ} (ho : o ∈ s.sockets)
    (hows : o ≠ ws) : identity ∈ presence t o := by
  rw [ht.presence]
  show identity ∈ if o ∈ s.sockets ∧ o ≠ ws then _ else _
  rw [if_pos ⟨ho, hows⟩]
  exact Finset.mem_insert_self _ _

theorem kept_of_hears {identity : String} (ht : Hears s t (some (ws, identity))) (o : ℕ) :
    presence s o ⊆ presence t o := by
  rw [ht.presence]
  exact subset_presenceAfter s o _

theorem mem_presence_of_hears {identity name : String} (ht : Hears s t (some (ws, identity))) {o : ℕ}
    (hmem : name ∈ presence t o) : name = identity ∧ o ≠ ws ∨ name ∈ presence s o := by
  rw [ht.presence] at hmem
  simp only [presenceAfter] at hmem
  split at hmem
  · rename_i hand
    rcases Finset.mem_insert.mp hmem with heq | hmem
    · exact .inl ⟨heq, hand.2⟩
    · exact .inr hmem
  · exact .inr hmem

/-- The client had no identity, so the sets name others only. -/
theorem Present.current_identifies {identity : String} (h : Present as s) (hws : ws ∈ s.sockets)
    (hne : identity ≠ "") (hempty : s.identityOf ws = "") (ht : Hears s t (some (ws, identity))) :
    ∀ o ∈ s.sockets, ∀ name ∈ presence t o,
      name ≠ "" ∧ ∃ other ∈ s.sockets, other ≠ o ∧ t.identityOf other = name := by
  intro o ho name hmem
  rcases mem_presence_of_hears ht hmem with ⟨rfl, hows⟩ | hmem
  · exact ⟨hne, ws, hws, Ne.symm hows, ht.self⟩
  · obtain ⟨hname, other, hother, hoo, heq⟩ := h.current o ho name hmem
    have hows : other ≠ ws := by
      rintro rfl
      exact hname (heq.symm.trans hempty)
    exact ⟨hname, other, hother, hoo, (ht.others hows).trans heq⟩

/-- Each of the others hears of the client, and they knew of each other before. -/
theorem Present.paired_identifies {identity : String} (h : Present as s)
    (ht : Hears s t (some (ws, identity))) : ∀ o ∈ s.sockets, ∀ other ∈ s.sockets, o ≠ other →
      t.identityOf o ≠ "" → t.identityOf other ≠ "" →
        t.identityOf other ∈ presence t o ∨ t.identityOf o ∈ presence t other := by
  intro o ho other hother hoo hnamed hnamed'
  by_cases hows : o = ws
  · rw [hows, ht.self]
    exact .inr (told_of_hears ht hother fun heq => hoo (hows.trans heq.symm))
  · by_cases hows' : other = ws
    · rw [hows', ht.self]
      exact .inl (told_of_hears ht ho hows)
    · rw [ht.others hows, ht.others hows'] at *
      rcases h.paired o ho other hother hoo hnamed hnamed' with hmem | hmem
      · exact .inl (kept_of_hears ht o hmem)
      · exact .inr (kept_of_hears ht other hmem)

/-- A client that identifies itself is heard of by every other connected client. -/
theorem Present.identifies {a : ServerAction C} {identity : String} (h : Present as s)
    (hproper : Proper (as ++ [a])) (hws : ws ∈ s.sockets) (hne : identity ≠ "")
    (ht : Hears s t (some (ws, identity))) (ha : a.identifies = some (ws, identity)) :
    Present (as ++ [a]) t := by
  have hnot := not_identified_of_concat hproper ha
  have hempty : s.identityOf ws = "" := by
    by_contra hnamed
    exact hnot _ ((h.identityOf ws hws _ hnamed).mp rfl)
  refine ⟨ht.keyed h.keyed, ?_, ?_, ?_, ?_, ?_⟩
  · rw [ht.sockets]
    intro o ho name hname
    rw [identified_concat, ha]
    by_cases hows : o = ws
    · subst hows
      rw [ht.self]
      simp [hnot]
    · rw [ht.others hows, h.identityOf o ho name hname]
      simp [Ne.symm hows]
  · rw [ht.sockets]
    exact h.connected_concat
  · intro o ho
    have hout : ¬ (o ∈ s.sockets ∧ o ≠ ws) := by
      intro hin
      obtain ⟨b, hmem, hb⟩ := h.connected o hin.1
      exact ho b (List.mem_append_left _ hmem) hb
    rw [ht.presence, presenceAfter, if_neg hout]
    exact h.silent o fun b hb => ho b (List.mem_append_left _ hb)
  · rw [ht.sockets]
    exact h.current_identifies hws hne hempty ht
  · rw [ht.sockets]
    exact h.paired_identifies ht

/-- The close of a socket makes the others forget its identity and no other. -/
theorem Present.forgets {a : ServerAction C} (h : Present as s) (hproper : Proper as) (hws : ws ∈ s.sockets)
    (ht : Forgets s t ws) (ha : a.identifies = none) : Present (as ++ [a]) t := by
  have hsilent : ∀ o, o ∉ s.sockets → presence t o = presence s o := by
    intro o ho
    rw [ht.presence, if_neg fun hin => ho hin.1]
  have hkept : ∀ o ∈ s.sockets, o ≠ ws → ∀ identity ≠ s.identityOf ws, identity ∈ presence s o →
      identity ∈ presence t o := by
    intro o ho hows identity hidentity hmem
    rw [ht.presence, if_pos ⟨ho, hows⟩]
    exact Finset.mem_erase.mpr ⟨hidentity, hmem⟩
  -- no other client has the identity of the one that leaves
  have hdistinct : ∀ o ∈ s.sockets, o ≠ ws → s.identityOf o ≠ "" → s.identityOf o ≠ s.identityOf ws := by
    intro o ho hows hnamed heq
    have hidentified := (h.identityOf o ho _ hnamed).mp rfl
    have hidentified' := (h.identityOf ws hws _ hnamed).mp heq.symm
    exact hows (identified_unique hproper hidentified hidentified')
  constructor
  · exact ht.keyed h.keyed
  · intro o ho identity hidentity
    obtain ⟨ho, hows⟩ := (ht.sockets o).mp ho
    rw [ht.identityOf o hows, h.identityOf o ho identity hidentity, identified_concat, ha]
    simp
  · intro o ho
    exact h.connected_concat o ((ht.sockets o).mp ho).1
  · intro o ho
    have hbefore : ∀ b ∈ as, b.connects ≠ some o := fun b hb => ho b (List.mem_append_left _ hb)
    have hout : o ∉ s.sockets := by
      intro hin
      obtain ⟨b, hmem, hb⟩ := h.connected o hin
      exact hbefore b hmem hb
    rw [hsilent o hout]
    exact h.silent o hbefore
  · intro o ho identity hmem
    obtain ⟨ho, hows⟩ := (ht.sockets o).mp ho
    rw [ht.presence, if_pos ⟨ho, hows⟩] at hmem
    obtain ⟨hleft, hmem⟩ := Finset.mem_erase.mp hmem
    obtain ⟨hidentity, other, hother, hoo, heq⟩ := h.current o ho identity hmem
    have hows' : other ≠ ws := by
      rintro rfl
      exact hleft heq.symm
    exact ⟨hidentity, other, (ht.sockets other).mpr ⟨hother, hows'⟩, hoo, (ht.identityOf other hows').trans heq⟩
  · intro o ho other hother hoo
    obtain ⟨ho, hows⟩ := (ht.sockets o).mp ho
    obtain ⟨hother, hows'⟩ := (ht.sockets other).mp hother
    rw [ht.identityOf o hows, ht.identityOf other hows']
    intro hnamed hnamed'
    rcases h.paired o ho other hother hoo hnamed hnamed' with hmem | hmem
    · exact .inl (hkept o ho hows _ (hdistinct other hother hows' hnamed') hmem)
    · exact .inr (hkept other hother hows' _ (hdistinct o ho hows hnamed) hmem)

end Step

/-- The invariant holds after every sequence of callbacks. -/
theorem present_run {as : List (ServerAction C)} (h : Proper as) (hnonEmpty : NonEmpty as) :
    Present as (run serverStep Server.create as) := by
  induction as using List.reverseRecOn with
  | nil => exact present_create
  | append_singleton as a ih =>
    obtain ⟨hproper, hof⟩ := proper_of_concat h
    have hpresent := ih hproper fun b hb => hnonEmpty b (List.mem_append_left _ hb)
    rw [run_concat]
    cases a with
    | client ws => exact hpresent.onClient h (not_mem_sockets_of_concat h)
    | closed ws tag => exact hpresent.forgets hproper hof (forgets_onClientClosed hof tag) rfl
    | message ws m =>
      have ht := hears_onClientMessage hof m
      cases hidentifies : (ServerAction.message ws m).identifies with
      | none => exact hpresent.quiet (by rwa [hidentifies] at ht) hidentifies
      | some named =>
        obtain ⟨w, identity⟩ := named
        cases identifies_socket hidentifies
        have hne : identity ≠ "" := by
          rintro rfl
          exact hnonEmpty _ (List.mem_append_right _ (List.mem_singleton_self _)) _ hidentifies
        exact hpresent.identifies h hof hne (by rwa [hidentifies] at ht) hidentifies

/-- **What the clients know is current, and covers every pair.** After every
sequence of callbacks in which sockets connect once and identify themselves at
most once, under fresh identities that are not empty, and in which only
connected sockets send and close: the identity map has an entry for exactly the
connected sockets; whoever is in the set of a connected client is another
connected client; and of two connected clients that have identified themselves,
at least one has the other in its set. -/
theorem presence_current_and_paired {as : List (ServerAction C)} (h : Proper as) (hnonEmpty : NonEmpty as) :
    (∀ ws, ws ∈ (run serverStep Server.create as).socketIdentityMap ↔
      ws ∈ (run serverStep Server.create as).sockets) ∧
    (∀ ws ∈ (run serverStep Server.create as).sockets,
      ∀ identity ∈ presence (run serverStep Server.create as) ws,
        ∃ other ∈ (run serverStep Server.create as).sockets, other ≠ ws ∧ Identified as other identity) ∧
    (∀ ws ∈ (run serverStep Server.create as).sockets, ∀ other ∈ (run serverStep Server.create as).sockets,
      ws ≠ other → ∀ identity otherIdentity, Identified as ws identity → Identified as other otherIdentity →
        otherIdentity ∈ presence (run serverStep Server.create as) ws ∨
          identity ∈ presence (run serverStep Server.create as) other) := by
  have hpresent := present_run h hnonEmpty
  have hnamed : ∀ ws identity, Identified as ws identity → identity ≠ "" := by
    rintro ws identity ⟨a, hmem, ha⟩ rfl
    exact hnonEmpty a hmem ws ha
  refine ⟨hpresent.keyed, ?_, ?_⟩
  · intro ws hws identity hmem
    obtain ⟨hidentity, other, hother, hne, heq⟩ := hpresent.current ws hws identity hmem
    exact ⟨other, hother, hne, (hpresent.identityOf other hother identity hidentity).mp heq⟩
  · intro ws hws other hother hne identity otherIdentity hidentified hidentified'
    have heq := (hpresent.identityOf ws hws identity (hnamed _ _ hidentified)).mpr hidentified
    have heq' := (hpresent.identityOf other hother otherIdentity (hnamed _ _ hidentified')).mpr hidentified'
    have hpaired := hpresent.paired ws hws other hother hne
    rw [heq, heq'] at hpaired
    exact hpaired (hnamed _ _ hidentified) (hnamed _ _ hidentified')

/-- Three clients, of which the first leaves again. -/
def joinAndLeave : List (ServerAction Unit) :=
  [.client 0, .client 1, setIdentityRequest 0 "a", setIdentityRequest 1 "b", .client 2, .closed 0 fun _ => "tag",
    setIdentityRequest 2 "c"]

theorem presence_current_and_paired_joinAndLeave :
    (∀ ws, ws ∈ (run serverStep Server.create joinAndLeave).socketIdentityMap ↔ ws = 1 ∨ ws = 2) ∧
      presence (run serverStep Server.create joinAndLeave) 1 = {"c"} ∧
      presence (run serverStep Server.create joinAndLeave) 2 = ∅ := by
  have h : Proper joinAndLeave := ⟨by decide +kernel, by decide, by decide, by decide⟩
  have hnonEmpty : NonEmpty joinAndLeave := by
    intro a ha ws
    simp only [joinAndLeave, List.mem_cons, List.not_mem_nil, or_false] at ha
    rcases ha with rfl | rfl | rfl | rfl | rfl | rfl | rfl <;> simp [setIdentityRequest, ServerAction.identifies]
  have hsockets : (run serverStep Server.create joinAndLeave).sockets = [1, 2] := by decide +kernel
  refine ⟨?_, by decide +kernel, by decide +kernel⟩
  intro ws
  rw [(presence_current_and_paired h hnonEmpty).1 ws, hsockets]
  simp

end Krapi.Presence
