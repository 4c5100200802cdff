import Krapi.WaitForPeers

/-! # Peers that a waiting call misses

`wait_for_peers` looks at a peer when the scan comes to it and when its channel
opens, and at no other time: the second listener posts the task of the first,
which throws on a state update. A peer that is wanted is therefore counted if a
look at it is still due when it becomes so and if nothing older than that is
cached or on its way. `Covered` says this of one peer, and every step keeps it
but two: a peer that becomes wanted without being covered, and an opening that
is dispatched before the listeners are there. -/
namespace Krapi.LostWakeups
open Krapi.Handlers (PeerType)
open Krapi.PeerStates (PeerState)
open Krapi.WaitForPeers Krapi.Lib.Run

/-- The entry is a peer of a wanted type in a wanted state. -/
def wanted (w : Wanted) (entry : Option Connection) : Bool :=
  (entry.bind Connection.remote).any fun remote => w.suits remote.1 remote.2

def available (w : Wanted) (s : Manager) : List String :=
  (s.connectionMap.toList.filter fun entry => wanted w entry.2).map Prod.fst

def scanOver : Phase → Bool
  | .idle | .scanning _ => false
  | .scanned | .waiting | .completed => true

/-- Once the scan is over and nothing is left to do, the call has completed if
enough peers are there. -/
def NoLostWakeup (w : Wanted) (s : Manager) : Prop :=
  scanOver s.phase = true → s.events = [] → (∀ l ∈ s.looks, l = none) →
    w.count.toInt ≤ (available w s).length → s.result.isSome = true

/-! ## Peers that will be counted -/

/-- The answer is no reason not to count a peer of this type. -/
def Fine (w : Wanted) (type : PeerType) : Answer → Prop
  | .type t => t = type
  | .state st => w.suits type st = true

/-- The look waits for this answer on behalf of connection `serial`. -/
def Awaits (s : Manager) (i : ℕ) (answer : Answer) (serial : ℕ) : Prop :=
  ∃ l, s.look? i = some l ∧ l.asking = some (answer.question, serial)

/-- Neither in the cache nor on the way to it is an answer that speaks against the peer. -/
structure Fresh (w : Wanted) (s : Manager) (c : Connection) (type : PeerType) : Prop where
  cached : ∀ question, c.cached question = Answer.unknown question ∨ Fine w type (c.cached question)
  underway : ∀ i answer, .response i answer ∈ s.events → Awaits s i answer c.serial → Fine w type answer

/-- A look at the peer that read nothing against it, nor is about to. -/
structure Promising (w : Wanted) (s : Manager) (peer : String) (type : PeerType) (i : ℕ) (l : Look) : Prop where
  look : s.look? i = some l
  peer_eq : l.peer = peer
  type_eq : ∀ t ∈ l.type, t = type
  state_suits : ∀ st ∈ l.state, w.suits type st = true
  underway : ∀ answer, .response i answer ∈ s.events → Fine w type answer

/-- The scan has still to come to the peer. -/
def ahead (peer : String) : Phase → Prop
  | .idle => True
  | .scanning rest => peer ∈ rest
  | _ => False

/-- A look at the peer is to come, or under way. -/
def Due (w : Wanted) (s : Manager) (peer : String) (type : PeerType) : Prop :=
  ahead peer s.phase ∨ .dataChannelOpened peer ∈ s.events ∨ ∃ i l, Promising w s peer type i l

/-- The peer is counted, or will be as long as it stays wanted. -/
def Covered (w : Wanted) (s : Manager) (peer : String) (c : Connection) (type : PeerType) : Prop :=
  peer ∈ s.identities ∨ (Fresh w s c type ∧ Due w s peer type)

/-- A peer that becomes wanted is covered, and a wanted peer whose opening is
dispatched before the listeners are registered is covered without it. -/
def Heeded (w : Wanted) (s : Manager) : Action → Prop
  | .setState peer state => s.result = none → ∀ c ∈ s.connection peer, ∀ remote ∈ c.remote,
      w.suits remote.1 remote.2 = false → w.suits remote.1 state = true → Covered w s peer c remote.1
  | .processOne => s.result = none → s.phase ≠ .waiting → ∀ peer rest,
      s.events = .dataChannelOpened peer :: rest → ∀ c ∈ s.connection peer, ∀ remote ∈ c.remote,
        w.suits remote.1 remote.2 = true → Covered w { s with events := rest } peer c remote.1
  | _ => True

/-! ## Look-ups -/

variable {w : Wanted} {s t : Manager} {peer : String} {c : Connection} {type : PeerType} {i j : ℕ} {l : Look}

theorem look?_lt (h : s.look? i = some l) : i < s.looks.length := by
  unfold Manager.look? at h
  by_contra hge
  rw [List.getElem?_eq_none (not_lt.mp hge)] at h
  cases h

theorem look?_setLook (h : s.look? i = some l) (o : Option Look) (j : ℕ) :
    (s.setLook i o).look? j = if i = j then o else s.look? j := by
  have hlt := look?_lt h
  unfold Manager.look?
  show ((s.looks.set i o)[j]?).join = _
  rw [List.getElem?_set]
  by_cases hij : i = j
  · subst hij
    simp [hlt]
  · simp [hij]

theorem look?_beginLook (s : Manager) (peer : String) (scan : Bool) (j : ℕ) :
    (s.beginLook peer scan).look? j = if j = s.looks.length then some (Look.at peer scan) else s.look? j := by
  unfold Manager.look?
  show ((s.looks ++ [some (Look.at peer scan)])[j]?).join = _
  by_cases hj : j = s.looks.length
  · subst hj
    simp
  · rw [if_neg hj, List.getElem?_append]
    split
    · rfl
    · rename_i hge
      rw [List.getElem?_eq_none (by simp; omega), List.getElem?_eq_none (by omega)]

theorem connection_setConnection (s : Manager) (peer q : String) (c : Connection) :
    (s.setConnection peer c).connection q = if peer = q then some c else s.connection q := by
  unfold Manager.connection
  show ((s.connectionMap.insert peer (some c))[q]?).join = _
  rw [Std.ExtTreeMap.getElem?_insert]
  by_cases hq : peer = q
  · subst hq
    simp
  · simp [hq]

theorem connection_onDatachannelOpened (s : Manager) (peer q : String) :
    (s.onDatachannelOpened peer).connection q = s.connection q := by
  unfold Manager.connection
  show ((s.connectionMap.insertIfNew peer none)[q]?).join = _
  rw [Std.ExtTreeMap.getElem?_insertIfNew]
  by_cases hq : peer = q ∧ peer ∉ s.connectionMap
  · obtain ⟨rfl, hfree⟩ := hq
    rw [if_pos ⟨Std.LawfulEqCmp.compare_eq_iff_eq.mpr rfl, hfree⟩, Std.ExtTreeMap.getElem?_eq_none hfree]
    rfl
  · rw [if_neg]
    rw [Std.LawfulEqCmp.compare_eq_iff_eq]
    exact hq

theorem connection_onPeerClosed (s : Manager) (peer q : String) :
    (s.onPeerClosed peer).connection q = if peer = q then none else s.connection q := by
  unfold Manager.connection
  show ((s.connectionMap.erase peer)[q]?).join = _
  rw [Std.ExtTreeMap.getElem?_erase]
  by_cases hq : peer = q
  · subst hq
    simp
  · simp [hq]

/-! ## Requests, connections and looks belong together -/

structure Tidy (s : Manager) : Prop where
  range : ∀ i answer, .response i answer ∈ s.events → i < s.looks.length
  /-- Each request is answered after it was made. -/
  answered : ∀ i answer, .response i answer ∈ s.events → ∀ l, s.look? i = some l →
    (∃ serial, l.asking = some (answer.question, serial)) ∨ l.has answer.question = true
  serial : ∀ peer c, s.connection peer = some c → c.serial < s.made
  distinct : ∀ peer q c c', s.connection peer = some c → s.connection q = some c' → c.serial = c'.serial →
    peer = q
  asker : ∀ i l question serial, s.look? i = some l → l.asking = some (question, serial) →
    serial < s.made ∧ ∀ peer c, s.connection peer = some c → c.serial = serial → peer = l.peer
  /-- Nothing is known through a channel that did not open. -/
  unopened : ∀ peer c, s.connection peer = some c → c.remote = none →
    (∀ question, c.cached question = Answer.unknown question) ∧
      ∀ i answer, .response i answer ∈ s.events → ¬ Awaits s i answer c.serial

theorem tidy_create : Tidy Manager.create where
  range := by intro i answer h; cases h
  answered := by intro i answer h; cases h
  serial := by intro peer c h; simp [Manager.create, Manager.connection] at h
  distinct := by intro peer q c c' h; simp [Manager.create, Manager.connection] at h
  asker := by intro i l question serial h; simp [Manager.create, Manager.look?] at h
  unopened := by intro peer c h; simp [Manager.create, Manager.connection] at h

/-- What the surroundings may do: remove events other than by dispatching them,
make, open and drop connections. -/
structure Surrounds (s t : Manager) : Prop where
  looks : t.looks = s.looks
  responses : ∀ i answer, .response i answer ∈ t.events → .response i answer ∈ s.events
  made : s.made ≤ t.made
  connections : ∀ peer c', t.connection peer = some c' →
    (∃ c, s.connection peer = some c ∧ c'.serial = c.serial ∧ c'.cached = c.cached ∧
      (c'.remote = none → c.remote = none)) ∨
    (c'.serial = s.made ∧ s.made < t.made ∧ c'.cached = Answer.unknown ∧
      ∀ q c, t.connection q = some c → c.serial = s.made → q = peer)

theorem Surrounds.look? (h : Surrounds s t) (i : ℕ) : t.look? i = s.look? i := by
  unfold Manager.look?
  rw [h.looks]

theorem Surrounds.awaits (h : Surrounds s t) {answer : Answer} {serial : ℕ} :
    Awaits t i answer serial ↔ Awaits s i answer serial := by
  unfold Awaits
  rw [h.look?]

theorem Tidy.surrounds (h : Tidy s) (hst : Surrounds s t) : Tidy t where
  range := by
    intro i answer hin
    rw [hst.looks]
    exact h.range i answer (hst.responses i answer hin)
  answered := by
    intro i answer hin l hl
    rw [hst.look?] at hl
    exact h.answered i answer (hst.responses i answer hin) l hl
  serial := by
    intro peer c' hc'
    have hmade := hst.made
    rcases hst.connections peer c' hc' with ⟨c, hc, hserial, _⟩ | ⟨hserial, hless, _⟩
    · have hlt := h.serial peer c hc
      omega
    · omega
  distinct := by
    intro peer q c c' hc hc' he
    rcases hst.connections peer c hc with ⟨d, hd, hserial, _⟩ | ⟨hserial, _, _, honly⟩
    · rcases hst.connections q c' hc' with ⟨d', hd', hserial', _⟩ | ⟨hserial', _⟩
      · exact h.distinct peer q d d' hd hd' (by rw [← hserial, ← hserial', he])
      · have hlt := h.serial peer d hd
        omega
    · exact (honly q c' hc' (he ▸ hserial)).symm
  asker := by
    intro i l question serial hl hasking
    rw [hst.look?] at hl
    obtain ⟨hlt, hpeer⟩ := h.asker i l question serial hl hasking
    refine ⟨hlt.trans_le hst.made, fun peer c' hc' hserial => ?_⟩
    rcases hst.connections peer c' hc' with ⟨c, hc, he, _⟩ | ⟨he, _⟩
    · exact hpeer peer c hc (he ▸ hserial)
    · omega
  unopened := by
    intro peer c' hc' hremote
    rcases hst.connections peer c' hc' with ⟨c, hc, hserial, hcached, hopen⟩ | ⟨hserial, _, hcached, _⟩
    · obtain ⟨hunknown, hnone⟩ := h.unopened peer c hc (hopen hremote)
      refine ⟨fun question => by rw [hcached]; exact hunknown question, ?_⟩
      intro i answer hin
      rw [hst.awaits, hserial]
      exact hnone i answer (hst.responses i answer hin)
    · refine ⟨fun question => by rw [hcached], ?_⟩
      intro i answer _ ⟨l, hl, hasking⟩
      rw [hst.look?] at hl
      have hlt := (h.asker i l _ _ hl hasking).1
      omega

theorem Fresh.surrounds (h : Fresh w s c type) (hst : Surrounds s t) {c' : Connection}
    (hserial : c'.serial = c.serial) (hcached : c'.cached = c.cached) : Fresh w t c' type where
  cached := by
    rw [hcached]
    exact h.cached
  underway := by
    intro i answer hin hawaits
    rw [hst.awaits, hserial] at hawaits
    exact h.underway i answer (hst.responses i answer hin) hawaits

theorem Promising.surrounds (h : Promising w s peer type i l) (hst : Surrounds s t) :
    Promising w t peer type i l where
  look := by rw [hst.look?]; exact h.look
  peer_eq := h.peer_eq
  type_eq := h.type_eq
  state_suits := h.state_suits
  underway := fun answer hin => h.underway answer (hst.responses i answer hin)

/-- Covered through what the surroundings do, if no look that is due is called off. -/
theorem Covered.surrounds (h : Covered w s peer c type) (hst : Surrounds s t) {c' : Connection}
    (hserial : c'.serial = c.serial) (hcached : c'.cached = c.cached)
    (hids : peer ∈ s.identities → peer ∈ t.identities) (hahead : ahead peer s.phase → ahead peer t.phase)
    (hopened : .dataChannelOpened peer ∈ s.events → .dataChannelOpened peer ∈ t.events) :
    Covered w t peer c' type := by
  rcases h with h | ⟨hfresh, hdue⟩
  · exact .inl (hids h)
  · refine .inr ⟨hfresh.surrounds hst hserial hcached, ?_⟩
    rcases hdue with hdue | hdue | ⟨i, l, hpromising⟩
    · exact .inl (hahead hdue)
    · exact .inr (.inl (hopened hdue))
    · exact .inr (.inr ⟨i, l, hpromising.surrounds hst⟩)

/-! ## The steps of a look

A look begins, asks and reads; it gives its peer up only for an answer that
speaks against it. -/

theorem Tidy.beginLook (h : Tidy s) (peer : String) (scan : Bool) : Tidy (s.beginLook peer scan) := by
  have hold : ∀ {j l}, (s.beginLook peer scan).look? j = some l → l.asking ≠ none → s.look? j = some l := by
    intro j l hl hasking
    rw [look?_beginLook] at hl
    split at hl
    · cases hl
      exact absurd rfl hasking
    · exact hl
  refine ⟨?_, ?_, h.serial, h.distinct, ?_, ?_⟩
  · intro i answer hin
    have hlt := h.range i answer hin
    simp only [Manager.beginLook, List.length_append, List.length_singleton]
    omega
  · intro i answer hin l hl
    have hlt := h.range i answer hin
    rw [look?_beginLook, if_neg (by omega)] at hl
    exact h.answered i answer hin l hl
  · intro i l question serial hl hasking
    exact h.asker i l question serial (hold hl (by simp [hasking])) hasking
  · intro q c hc hremote
    obtain ⟨hunknown, hnone⟩ := h.unopened q c hc hremote
    refine ⟨hunknown, ?_⟩
    intro i answer hin hawaits
    obtain ⟨l, hl, hasking⟩ := hawaits
    exact hnone i answer hin ⟨l, hold hl (by simp [hasking]), hasking⟩

theorem Fresh.beginLook (h : Fresh w s c type) (q : String) (scan : Bool) :
    Fresh w (s.beginLook q scan) c type where
  cached := h.cached
  underway := by
    intro i answer hin ⟨l, hl, hasking⟩
    rw [look?_beginLook] at hl
    split at hl
    · cases hl
      cases hasking
    · exact h.underway i answer hin ⟨l, hl, hasking⟩

theorem Promising.beginLook (h : Promising w s peer type i l) (q : String) (scan : Bool) :
    Promising w (s.beginLook q scan) peer type i l where
  look := by
    rw [look?_beginLook, if_neg (look?_lt h.look).ne]
    exact h.look
  peer_eq := h.peer_eq
  type_eq := h.type_eq
  state_suits := h.state_suits
  underway := h.underway

/-- A look that begins has read nothing. -/
theorem Tidy.promising_beginLook (h : Tidy s) (peer : String) (type : PeerType) (scan : Bool) :
    Promising w (s.beginLook peer scan) peer type s.looks.length (Look.at peer scan) where
  look := by rw [look?_beginLook, if_pos rfl]
  peer_eq := rfl
  type_eq := by intro t ht; cases ht
  state_suits := by intro st hst; cases hst
  underway := by
    intro answer hin
    exact absurd (h.range _ answer hin) (Nat.lt_irrefl _)

/-- A look that neither asks nor has the answer has no answer to `question` on its way. -/
theorem Tidy.unasked (h : Tidy s) (hl : s.look? i = some l) (hasking : l.asking = none) {question : Question}
    (hhas : l.has question = false) {answer : Answer} (hin : .response i answer ∈ s.events) :
    answer.question ≠ question := by
  intro he
  rcases h.answered i answer hin l hl with ⟨serial, ha⟩ | ha
  · rw [hasking] at ha
    cases ha
  · rw [he, hhas] at ha
    cases ha

section Ask

variable {question : Question} {c₀ : Connection} (hl : s.look? i = some l) (hasking : l.asking = none)
  (hhas : l.has question = false) (hc₀ : s.connection l.peer = some c₀)

include hl hasking hhas in
/-- The request is new, so nothing on its way answers it. -/
theorem Tidy.awaits_ask (h : Tidy s) {answer : Answer} {serial : ℕ} (hin : .response j answer ∈ s.events)
    (hawaits : Awaits (s.setLook i (some { l with asking := some (question, c₀.serial) })) j answer serial) :
    Awaits s j answer serial := by
  obtain ⟨l', hl', hasking'⟩ := hawaits
  rw [look?_setLook hl] at hl'
  split at hl'
  · rename_i hij
    cases hl'
    cases hasking'
    exact absurd rfl (h.unasked hl hasking hhas (hij ▸ hin))
  · exact ⟨l', hl', hasking'⟩

include hl hasking hhas hc₀ in
theorem Tidy.ask (h : Tidy s) :
    Tidy (s.setLook i (some { l with asking := some (question, c₀.serial) })) where
  range := by
    intro j answer hin
    show j < (s.looks.set i _).length
    rw [List.length_set]
    exact h.range j answer hin
  answered := by
    intro j answer hin l' hl'
    rw [look?_setLook hl] at hl'
    split at hl'
    · rename_i hij
      subst hij
      cases hl'
      rcases h.answered i answer hin l hl with ⟨serial, ha⟩ | ha
      · rw [hasking] at ha
        cases ha
      · exact .inr (by cases hq : answer.question <;> rw [hq] at ha <;> exact ha)
    · exact h.answered j answer hin l' hl'
  serial := h.serial
  distinct := h.distinct
  asker := by
    intro j l' q serial hl' ha
    rw [look?_setLook hl] at hl'
    split at hl'
    · cases hl'
      cases ha
      exact ⟨h.serial l.peer c₀ hc₀, fun q c hc he => h.distinct q l.peer c c₀ hc hc₀ he⟩
    · exact h.asker j l' q serial hl' ha
  unopened := by
    intro q c hc hremote
    obtain ⟨hunknown, hnone⟩ := h.unopened q c hc hremote
    exact ⟨hunknown, fun j answer hin hawaits => hnone j answer hin (h.awaits_ask hl hasking hhas hin hawaits)⟩

include hl hasking hhas in
theorem Fresh.ask (h : Fresh w s c type) (htidy : Tidy s) :
    Fresh w (s.setLook i (some { l with asking := some (question, c₀.serial) })) c type where
  cached := h.cached
  underway := fun j answer hin hawaits =>
    h.underway j answer hin (htidy.awaits_ask hl hasking hhas hin hawaits)

include hl in
theorem Promising.ask {l' : Look} (h : Promising w s peer type j l') :
    ∃ l', Promising w (s.setLook i (some { l with asking := some (question, c₀.serial) })) peer type j l' := by
  by_cases hij : i = j
  · subst hij
    have he : l = l' := by
      have hboth := h.look
      rw [hl] at hboth
      exact Option.some.inj hboth
    subst he
    exact ⟨{ l with asking := some (question, c₀.serial) }, by rw [look?_setLook hl, if_pos rfl], h.peer_eq, h.type_eq,
      h.state_suits, h.underway⟩
  · exact ⟨l', by rw [look?_setLook hl, if_neg hij]; exact h.look, h.peer_eq, h.type_eq, h.state_suits, h.underway⟩

end Ask

/-! ## Answers that are kept -/

theorem cached_cache (c : Connection) (answer : Answer) (question : Question) :
    (c.cache answer).cached question = if question = answer.question then answer else c.cached question := by
  cases answer <;> cases question <;> rfl

theorem cache_serial (c : Connection) (answer : Answer) : (c.cache answer).serial = c.serial := by
  cases answer <;> rfl

theorem cache_remote (c : Connection) (answer : Answer) : (c.cache answer).remote = c.remote := by
  cases answer <;> rfl

/-- The connection that asked has the answer, the others are as they were. -/
theorem connection_keep {q : String} {serial : ℕ} {answer : Answer} {c' : Connection}
    (h : (s.keep peer serial answer).connection q = some c') :
    ∃ c, s.connection q = some c ∧ c'.serial = c.serial ∧ c'.remote = c.remote ∧
      (c' = c ∨ (q = peer ∧ c.serial = serial ∧ c' = c.cache answer)) := by
  unfold Manager.keep at h
  split at h
  · rename_i c hc
    split at h
    · rename_i hserial
      rw [connection_setConnection] at h
      split at h
      · rename_i hq
        cases h
        exact ⟨c, hq ▸ hc, cache_serial c answer, cache_remote c answer, .inr ⟨hq.symm, hserial, rfl⟩⟩
      · exact ⟨c', h, rfl, rfl, .inl rfl⟩
    · exact ⟨c', h, rfl, rfl, .inl rfl⟩
  · exact ⟨c', h, rfl, rfl, .inl rfl⟩

theorem look?_keep (s : Manager) (peer : String) (serial : ℕ) (answer : Answer) (i : ℕ) :
    (s.keep peer serial answer).look? i = s.look? i := by
  obtain ⟨m, hm⟩ := keep_eq s peer serial answer
  rw [hm]
  rfl

section Keep

variable {serial : ℕ} {answer : Answer}

theorem awaits_keep {answer' : Answer} {serial' : ℕ} :
    Awaits (s.keep peer serial answer) i answer' serial' ↔ Awaits s i answer' serial' := by
  unfold Awaits
  rw [look?_keep]

theorem events_keep : (s.keep peer serial answer).events = s.events := by
  obtain ⟨m, hm⟩ := keep_eq s peer serial answer
  rw [hm]

theorem Tidy.keep (h : Tidy s)
    (hopen : ∀ c, s.connection peer = some c → c.serial = serial → c.remote ≠ none) :
    Tidy (s.keep peer serial answer) where
  range := by
    obtain ⟨m, hm⟩ := keep_eq s peer serial answer
    rw [hm]
    exact h.range
  answered := by
    intro i answer' hin l hl
    rw [look?_keep] at hl
    rw [events_keep] at hin
    exact h.answered i answer' hin l hl
  serial := by
    intro q c' hc'
    obtain ⟨c, hc, hserial, _⟩ := connection_keep hc'
    obtain ⟨m, hm⟩ := keep_eq s peer serial answer
    rw [hserial, hm]
    exact h.serial q c hc
  distinct := by
    intro q q' c c' hc hc' he
    obtain ⟨d, hd, hserial, _⟩ := connection_keep hc
    obtain ⟨d', hd', hserial', _⟩ := connection_keep hc'
    exact h.distinct q q' d d' hd hd' (by rw [← hserial, ← hserial', he])
  asker := by
    intro i l question serial' hl hasking
    rw [look?_keep] at hl
    obtain ⟨hlt, hpeer⟩ := h.asker i l question serial' hl hasking
    refine ⟨?_, fun q c' hc' he => ?_⟩
    · obtain ⟨m, hm⟩ := keep_eq s peer serial answer
      rw [hm]
      exact hlt
    · obtain ⟨c, hc, hserial, _⟩ := connection_keep hc'
      exact hpeer q c hc (by rw [← hserial, he])
  unopened := by
    intro q c' hc' hremote
    obtain ⟨c, hc, hserial, hsame, hcase⟩ := connection_keep hc'
    rw [hsame] at hremote
    obtain ⟨hunknown, hnone⟩ := h.unopened q c hc hremote
    rcases hcase with rfl | ⟨rfl, hmine, _⟩
    · refine ⟨hunknown, fun i answer' hin => ?_⟩
      rw [awaits_keep]
      rw [events_keep] at hin
      exact hnone i answer' hin
    · exact absurd hremote (hopen c hc hmine)

/-- The kept answer is one that was on its way to the connection. -/
theorem Fresh.keep {c' : Connection} (h : Fresh w s c type) (hserial : c'.serial = c.serial)
    (hcase : c' = c ∨ (Fine w type answer ∧ c' = c.cache answer)) :
    Fresh w (s.keep peer serial answer) c' type where
  cached := by
    intro question
    rcases hcase with rfl | ⟨hfine, rfl⟩
    · exact h.cached question
    · rw [cached_cache]
      split
      · exact .inr hfine
      · exact h.cached question
  underway := by
    intro i answer' hin hawaits
    rw [awaits_keep, hserial] at hawaits
    rw [events_keep] at hin
    exact h.underway i answer' hin hawaits

theorem Promising.keep (h : Promising w s peer type i l) {q : String} :
    Promising w (s.keep q serial answer) peer type i l where
  look := by rw [look?_keep]; exact h.look
  peer_eq := h.peer_eq
  type_eq := h.type_eq
  state_suits := h.state_suits
  underway := by
    intro answer' hin
    rw [events_keep] at hin
    exact h.underway answer' hin

end Keep

/-! ## Answers that are read -/

/-- **How a look goes on**: it has to ask again; it ends, with the vector too
short or no test made; it ends and completes the call. -/
inductive ReadsOn (w : Wanted) (s : Manager) (i : ℕ) (l : Look) (answer : Answer) (t : Manager) : Prop where
  | waits : t = s.setLook i (some (l.read answer)) → ReadsOn w s i l answer t
  | ends (type : PeerType) (state : PeerState) (ids : List String) : (l.read answer).type = some type →
      (l.read answer).state = some state →
      ids = (if w.suits type state then s.identities ++ [l.peer] else s.identities) →
      (l.scan = true ∨ w.enough ids.length = false) → t = { s.setLook i none with identities := ids } →
      ReadsOn w s i l answer t
  | completes (ids : List String) (result : Option (List String)) : result.isSome = true →
      t = { s.setLook i none with identities := ids, result := result, phase := .completed } →
      ReadsOn w s i l answer t

theorem readsOn_read (w : Wanted) (s : Manager) (i : ℕ) (l : Look) (answer : Answer) :
    ReadsOn w s i l answer (s.read w i l answer) := by
  unfold Manager.read
  dsimp only
  split
  · rename_i type state htype hstate
    unfold Manager.finish
    rw [Look.read_peer]
    generalize hids : (if w.suits type state then s.identities ++ [l.peer] else s.identities) = ids
    dsimp only
    have hscan : (l.read answer).scan = l.scan := by cases answer <;> rfl
    rw [hscan]
    split
    · exact .completes ids (s.result.or (some ids)) (by cases s.result <;> rfl) rfl
    · rename_i hnot
      refine .ends type state ids htype hstate hids.symm ?_ rfl
      cases hs : l.scan <;> simp_all
  · exact .waits rfl

theorem Surrounds.of_eq (hlooks : t.looks = s.looks) (hevents : t.events = s.events) (hmade : t.made = s.made)
    (hmap : t.connectionMap = s.connectionMap) : Surrounds s t where
  looks := hlooks
  responses := by rw [hevents]; exact fun _ _ hin => hin
  made := hmade.ge
  connections := by
    intro peer c hc
    unfold Manager.connection at hc
    rw [hmap] at hc
    exact .inl ⟨c, hc, rfl, rfl, fun hremote => hremote⟩

theorem read_has (l : Look) (answer : Answer) (question : Question) :
    (l.read answer).has question = (decide (question = answer.question) || l.has question) := by
  cases answer <;> cases question <;> rfl

theorem read_asking (l : Look) (answer : Answer) : (l.read answer).asking = none := by
  cases answer <;> rfl

/-- A look that ends, or goes on without a request and has the answer to the one it made. -/
theorem Tidy.setLook (h : Tidy s) (hl : s.look? i = some l) {o : Option Look}
    (ho : ∀ l' ∈ o, l'.asking = none ∧
      ∀ question, ((∃ serial, l.asking = some (question, serial)) ∨ l.has question = true) →
        l'.has question = true) : Tidy (s.setLook i o) := by
  have hold : ∀ {j answer serial}, Awaits (s.setLook i o) j answer serial → Awaits s j answer serial := by
    intro j answer serial ⟨l', hl', hasking⟩
    rw [look?_setLook hl] at hl'
    split at hl'
    · rw [(ho l' hl').1] at hasking
      cases hasking
    · exact ⟨l', hl', hasking⟩
  refine ⟨?_, ?_, h.serial, h.distinct, ?_, ?_⟩
  · intro j answer hin
    show j < (s.looks.set i o).length
    rw [List.length_set]
    exact h.range j answer hin
  · intro j answer hin l' hl'
    rw [look?_setLook hl] at hl'
    split at hl'
    · rename_i hij
      exact .inr ((ho l' hl').2 answer.question (h.answered i answer (hij ▸ hin) l hl))
    · exact h.answered j answer hin l' hl'
  · intro j l' question serial hl' hasking
    rw [look?_setLook hl] at hl'
    split at hl'
    · rw [(ho l' hl').1] at hasking
      cases hasking
    · exact h.asker j l' question serial hl' hasking
  · intro q c hc hremote
    obtain ⟨hunknown, hnone⟩ := h.unopened q c hc hremote
    exact ⟨hunknown, fun j answer hin hawaits => hnone j answer hin (hold hawaits)⟩

theorem Fresh.setLook (h : Fresh w s c type) (hl : s.look? i = some l) {o : Option Look}
    (ho : ∀ l' ∈ o, l'.asking = none) : Fresh w (s.setLook i o) c type where
  cached := h.cached
  underway := by
    intro j answer hin ⟨l', hl', hasking⟩
    rw [look?_setLook hl] at hl'
    split at hl'
    · rw [ho l' hl'] at hasking
      cases hasking
    · exact h.underway j answer hin ⟨l', hl', hasking⟩

theorem Promising.setLook {l' : Look} (h : Promising w s peer type j l') (hl : s.look? i = some l) (hij : i ≠ j)
    (o : Option Look) : Promising w (s.setLook i o) peer type j l' where
  look := by rw [look?_setLook hl, if_neg hij]; exact h.look
  peer_eq := h.peer_eq
  type_eq := h.type_eq
  state_suits := h.state_suits
  underway := h.underway

/-- What a promising look has after a fine answer. -/
theorem Promising.read_values (h : Promising w s peer type i l) {answer : Answer} (hfine : Fine w type answer) :
    (∀ t ∈ (l.read answer).type, t = type) ∧ ∀ st ∈ (l.read answer).state, w.suits type st = true := by
  cases answer with
  | type t =>
    refine ⟨?_, h.state_suits⟩
    intro t' ht'
    cases ht'
    exact hfine
  | state st =>
    refine ⟨h.type_eq, ?_⟩
    intro st' hst'
    cases hst'
    exact hfine

variable {answer : Answer}

theorem Tidy.read (h : Tidy s) (hl : s.look? i = some l)
    (hasked : ∀ question serial, l.asking = some (question, serial) → question = answer.question) :
    Tidy (s.read w i l answer) := by
  have hgone : Tidy (s.setLook i none) := h.setLook hl (fun l' hl' => by cases hl')
  cases readsOn_read w s i l answer with
  | waits ht =>
    rw [ht]
    apply h.setLook hl
    intro l' hl'
    cases hl'
    refine ⟨read_asking l answer, fun question hbefore => ?_⟩
    rw [read_has, Bool.or_eq_true]
    rcases hbefore with ⟨serial, hasking⟩ | hhas
    · exact .inl (decide_eq_true (hasked question serial hasking))
    · exact .inr hhas
  | ends type state ids _ _ _ _ ht =>
    rw [ht]
    exact hgone.surrounds (.of_eq rfl rfl rfl rfl)
  | completes ids result _ ht =>
    rw [ht]
    exact hgone.surrounds (.of_eq rfl rfl rfl rfl)

/-- Covered, also after look `i` has read the answer. -/
def CoveredDespite (w : Wanted) (s : Manager) (peer : String) (c : Connection) (type : PeerType) (i : ℕ)
    (answer : Answer) : Prop :=
  peer ∈ s.identities ∨ (Fresh w s c type ∧ (ahead peer s.phase ∨ .dataChannelOpened peer ∈ s.events ∨
    ∃ j l, Promising w s peer type j l ∧ (i = j → Fine w type answer)))

theorem Covered.despite (h : Covered w s peer c type)
    (hfine : Fresh w s c type → ∀ l, Promising w s peer type i l → Fine w type answer) :
    CoveredDespite w s peer c type i answer := by
  rcases h with h | ⟨hfresh, hdue | hdue | ⟨j, l, hpromising⟩⟩
  · exact .inl h
  · exact .inr ⟨hfresh, .inl hdue⟩
  · exact .inr ⟨hfresh, .inr (.inl hdue)⟩
  · refine .inr ⟨hfresh, .inr (.inr ⟨j, l, hpromising, ?_⟩)⟩
    intro hij
    subst hij
    exact hfine hfresh l hpromising

/-- A look with a fine answer that has to ask again stays promising. -/
theorem CoveredDespite.waits (h : CoveredDespite w s peer c type i answer) (hl : s.look? i = some l) :
    Covered w (s.setLook i (some (l.read answer))) peer c type := by
  rcases h with h | ⟨hfresh, hdue⟩
  · exact .inl h
  · refine .inr ⟨hfresh.setLook hl (fun l' hl' => by cases hl'; exact read_asking l answer), ?_⟩
    rcases hdue with hdue | hdue | ⟨j, l', hpromising, hfine⟩
    · exact .inl hdue
    · exact .inr (.inl hdue)
    · refine .inr (.inr ?_)
      by_cases hij : i = j
      · subst hij
        obtain rfl : l = l' := Option.some.inj (hl.symm.trans hpromising.look)
        obtain ⟨htype, hstate⟩ := hpromising.read_values (hfine rfl)
        exact ⟨i, l.read answer, by rw [look?_setLook hl, if_pos rfl],
          (Look.read_peer l answer).trans hpromising.peer_eq, htype, hstate, hpromising.underway⟩
      · exact ⟨j, l', hpromising.setLook hl hij _⟩

/-- A look with a fine answer that ends counts its peer. -/
theorem CoveredDespite.ends (h : CoveredDespite w s peer c type i answer) (hl : s.look? i = some l)
    {type' : PeerType} {state' : PeerState} (htype' : (l.read answer).type = some type')
    (hstate' : (l.read answer).state = some state') {ids : List String}
    (hids : ids = if w.suits type' state' then s.identities ++ [l.peer] else s.identities) :
    Covered w { s.setLook i none with identities := ids } peer c type := by
  have hsub : ∀ p ∈ s.identities, p ∈ ids := by
    intro p hp
    rw [hids]
    split
    · exact List.mem_append_left _ hp
    · exact hp
  have hsame : Surrounds (s.setLook i none) { s.setLook i none with identities := ids } :=
    .of_eq rfl rfl rfl rfl
  rcases h with h | ⟨hfresh, hdue⟩
  · exact .inl (hsub peer h)
  · have hfresh' : Fresh w { s.setLook i none with identities := ids } c type :=
      (hfresh.setLook hl (fun l' hl' => by cases hl')).surrounds hsame rfl rfl
    rcases hdue with hdue | hdue | ⟨j, l', hpromising, hfine⟩
    · exact .inr ⟨hfresh', .inl hdue⟩
    · exact .inr ⟨hfresh', .inr (.inl hdue)⟩
    · by_cases hij : i = j
      · subst hij
        obtain rfl : l = l' := Option.some.inj (hl.symm.trans hpromising.look)
        obtain ⟨htype, hstate⟩ := hpromising.read_values (hfine rfl)
        have hsuits : w.suits type' state' = true := by
          rw [htype type' htype']
          exact hstate state' hstate'
        refine .inl ?_
        show peer ∈ ids
        rw [hids, if_pos hsuits, hpromising.peer_eq]
        exact List.mem_append_right _ (List.mem_singleton.mpr rfl)
      · exact .inr ⟨hfresh', .inr (.inr ⟨j, l', (hpromising.setLook hl hij none).surrounds hsame⟩)⟩

theorem CoveredDespite.read (h : CoveredDespite w s peer c type i answer) (hl : s.look? i = some l)
    (hnone : (s.read w i l answer).result = none) : Covered w (s.read w i l answer) peer c type := by
  cases readsOn_read w s i l answer with
  | waits ht =>
    rw [ht]
    exact h.waits hl
  | ends type' state' ids htype' hstate' hids _ ht =>
    rw [ht]
    exact h.ends hl htype' hstate' hids
  | completes ids result hsome ht =>
    rw [ht] at hnone
    rw [show result = none from hnone] at hsome
    cases hsome

/-! ## The invariant -/

/-- The scan is over and the call waits. -/
def listens : Phase → Bool
  | .scanned | .waiting => true
  | _ => false

/-- The tests of the length were made. -/
structure Short (w : Wanted) (s : Manager) : Prop where
  scan : listens s.phase = true → ∀ i l, s.look? i = some l → l.scan = false
  short : listens s.phase = true → s.result = none → w.enough s.identities.length = false
  completed : s.phase = .completed → s.result.isSome = true

structure Watch (w : Wanted) (s : Manager) : Prop where
  tidy : Tidy s
  short : Short w s
  cover : s.result = none → ∀ peer c type state, s.connection peer = some c → c.remote = some (type, state) →
    w.suits type state = true → Covered w s peer c type

theorem watch_create (w : Wanted) : Watch w Manager.create where
  tidy := tidy_create
  short := ⟨fun h => (by cases h), fun h => (by cases h), fun h => (by cases h)⟩
  cover := by intro _ peer c type state hc; simp [Manager.create, Manager.connection] at hc

theorem Short.surrounds (h : Short w s) (hst : Surrounds s t) (hids : t.identities = s.identities)
    (hresult : t.result = s.result) (hlistens : listens t.phase = listens s.phase)
    (hcompleted : t.phase = .completed → s.phase = .completed) : Short w t where
  scan := by
    intro hphase i l hl
    rw [hst.look?] at hl
    exact h.scan (hlistens ▸ hphase) i l hl
  short := by
    intro hphase hnone
    rw [hids]
    exact h.short (hlistens ▸ hphase) (hresult ▸ hnone)
  completed := by
    intro hphase
    rw [hresult]
    exact h.completed (hcompleted hphase)

theorem Short.read (h : Short w s) (hl : s.look? i = some l) : Short w (s.read w i l answer) := by
  have hgone : ∀ {o : Option Look}, (∀ l' ∈ o, l'.scan = l.scan) → listens s.phase = true →
      ∀ j l', (s.setLook i o).look? j = some l' → l'.scan = false := by
    intro o ho hphase j l' hl'
    rw [look?_setLook hl] at hl'
    split at hl'
    · rw [ho l' hl']
      exact h.scan hphase i l hl
    · exact h.scan hphase j l' hl'
  cases readsOn_read w s i l answer with
  | waits ht =>
    rw [ht]
    refine ⟨?_, h.short, h.completed⟩
    apply hgone
    intro l' hl'
    cases hl'
    cases answer <;> rfl
  | ends type state ids _ _ _ htest ht =>
    rw [ht]
    refine ⟨hgone (fun l' hl' => by cases hl'), ?_, h.completed⟩
    intro hphase _
    rcases htest with hscan | hshort
    · rw [h.scan hphase i l hl] at hscan
      cases hscan
    · exact hshort
  | completes ids result hsome ht =>
    rw [ht]
    exact ⟨fun hphase => (by cases hphase), fun hphase => (by cases hphase), fun _ => hsome⟩

/-! ## The surroundings -/

theorem ahead_made {q : String} {k : Option ℕ} {phase : Phase} (h : ahead peer phase) :
    ahead peer (phase.made q k) := by
  cases phase with
  | scanning rest =>
    cases k with
    | none => exact h
    | some k =>
      show peer ∈ rest.take k ++ q :: rest.drop k
      have hsplit : peer ∈ rest.take k ++ rest.drop k := by
        rw [List.take_append_drop]
        exact h
      rcases List.mem_append.mp hsplit with hin | hin
      · exact List.mem_append_left _ hin
      · exact List.mem_append_right _ (List.mem_cons_of_mem _ hin)
  | idle | scanned | waiting | completed => exact h

theorem ahead_erased {q : String} {phase : Phase} (h : ahead peer phase) (hne : peer ≠ q) :
    ahead peer (phase.erased q) := by
  cases phase with
  | scanning rest => exact List.mem_filter.mpr ⟨h, by simpa using hne⟩
  | idle | scanned | waiting | completed => exact h

theorem listens_made (phase : Phase) (q : String) (k : Option ℕ) : listens (phase.made q k) = listens phase := by
  cases phase <;> cases k <;> rfl

theorem listens_erased (phase : Phase) (q : String) : listens (phase.erased q) = listens phase := by
  cases phase <;> rfl

theorem watch_createConnection (h : Watch w s) (q : String) (k : Option ℕ) :
    Watch w (s.createConnection q k) := by
  unfold Manager.createConnection
  split
  · exact h
  · have hconnection : ∀ p, ({ s.setConnection q ⟨s.made, .unknown, .unknown, none, false⟩ with
        made := s.made + 1, phase := s.phase.made q k } : Manager).connection p =
        if q = p then some ⟨s.made, .unknown, .unknown, none, false⟩ else s.connection p :=
      fun p => connection_setConnection s q p _
    have hst : Surrounds s { s.setConnection q ⟨s.made, .unknown, .unknown, none, false⟩ with
        made := s.made + 1, phase := s.phase.made q k } := by
      refine ⟨rfl, fun _ _ hin => hin, Nat.le_succ _, ?_⟩
      intro p c hc
      rw [hconnection] at hc
      split at hc
      · rename_i hq
        cases hc
        refine .inr ⟨rfl, Nat.lt_succ_self _, rfl, ?_⟩
        intro p' c' hc' hserial
        rw [hconnection] at hc'
        split at hc'
        · rename_i hq'
          exact hq'.symm.trans hq
        · have hlt := h.tidy.serial p' c' hc'
          omega
      · exact .inl ⟨c, hc, rfl, rfl, fun hremote => hremote⟩
    refine ⟨h.tidy.surrounds hst, h.short.surrounds hst rfl rfl (listens_made _ _ _) ?_, ?_⟩
    · intro hphase
      cases hp : s.phase with
      | completed => rfl
      | scanning rest =>
        change s.phase.made q k = .completed at hphase
        rw [hp] at hphase
        cases k <;> cases hphase
      | idle | scanned | waiting =>
        change s.phase.made q k = .completed at hphase
        rw [hp] at hphase
        cases hphase
    · intro hnone p c type state hc hremote hsuits
      rw [hconnection] at hc
      split at hc
      · cases hc
        cases hremote
      · exact (h.cover hnone p c type state hc hremote hsuits).surrounds hst rfl rfl (fun hin => hin) ahead_made
          (fun hin => hin)

/-- A connection is replaced, with its cache. -/
theorem surrounds_setConnection {q : String} {c₀ c₁ : Connection} (hc₀ : s.connection q = some c₀)
    (hserial : c₁.serial = c₀.serial) (hcached : c₁.cached = c₀.cached)
    (hremote : c₁.remote = none → c₀.remote = none) : Surrounds s (s.setConnection q c₁) where
  looks := rfl
  responses := fun _ _ hin => hin
  made := Nat.le_refl _
  connections := by
    intro p c hc
    rw [connection_setConnection] at hc
    split at hc
    · rename_i hq
      cases hc
      exact .inl ⟨c₀, hq ▸ hc₀, hserial, hcached, hremote⟩
    · exact .inl ⟨c, hc, rfl, rfl, fun hremote => hremote⟩

/-- A change at the other end is heeded if the peer is covered whenever it is wanted now. -/
theorem Watch.setConnection (h : Watch w s) {q : String} {c₀ c₁ : Connection} (hc₀ : s.connection q = some c₀)
    (hserial : c₁.serial = c₀.serial) (hcached : c₁.cached = c₀.cached)
    (hremote : c₁.remote = none → c₀.remote = none)
    (hcovered : s.result = none → ∀ type state, c₁.remote = some (type, state) → w.suits type state = true →
      Covered w s q c₀ type) :
    Watch w (s.setConnection q c₁) := by
  have hst := surrounds_setConnection hc₀ hserial hcached hremote
  refine ⟨h.tidy.surrounds hst, h.short.surrounds hst rfl rfl rfl (fun hphase => hphase), ?_⟩
  intro hnone p c type state hc hp hsuits
  rw [connection_setConnection] at hc
  split at hc
  · rename_i hq
    subst hq
    cases hc
    exact (hcovered hnone type state hp hsuits).surrounds hst hserial hcached (fun hin => hin) (fun hin => hin)
      (fun hin => hin)
  · exact (h.cover hnone p c type state hc hp hsuits).surrounds hst rfl rfl (fun hin => hin)
      (fun hin => hin) (fun hin => hin)

theorem surrounds_enqueue (s : Manager) {e : Event} (he : ∀ i answer, e ≠ .response i answer) :
    Surrounds s (s.enqueue e) where
  looks := rfl
  responses := by
    intro i answer hin
    rcases List.mem_append.mp hin with hin | hin
    · exact hin
    · exact absurd (List.mem_singleton.mp hin).symm (he i answer)
  made := Nat.le_refl _
  connections := fun _ c hc => .inl ⟨c, hc, rfl, rfl, fun hremote => hremote⟩

theorem Watch.enqueue (h : Watch w s) {e : Event} (he : ∀ i answer, e ≠ .response i answer) :
    Watch w (s.enqueue e) := by
  have hst := surrounds_enqueue s he
  refine ⟨h.tidy.surrounds hst, h.short.surrounds hst rfl rfl rfl (fun hphase => hphase), ?_⟩
  intro hnone p c type state hc hremote hsuits
  exact (h.cover hnone p c type state hc hremote hsuits).surrounds hst rfl rfl (fun hin => hin)
    (fun hin => hin) (fun hin => List.mem_append_left _ hin)

theorem watch_onOpen (h : Watch w s) (q : String) (type : PeerType) (state : PeerState) :
    Watch w (s.onOpen q type state) := by
  unfold Manager.onOpen
  split
  · rename_i c₀ hc₀
    split
    · rename_i hunopened
      have htold : Watch w (s.enqueue (.dataChannelOpened q)) := h.enqueue (fun _ _ => by simp)
      show Watch w ((s.enqueue (.dataChannelOpened q)).setConnection q { c₀ with remote := some (type, state) })
      refine htold.setConnection hc₀ rfl rfl (fun _ => hunopened) ?_
      intro _ type' _ _ _
      -- before the channel opened nothing came that could speak against the peer
      obtain ⟨hunknown, hnothing⟩ := htold.tidy.unopened q c₀ hc₀ hunopened
      have hfresh : Fresh w (s.enqueue (.dataChannelOpened q)) c₀ type' :=
        ⟨fun question => .inl (hunknown question), fun i answer hin ha => absurd ha (hnothing i answer hin)⟩
      refine .inr ⟨hfresh, .inr (.inl ?_)⟩
      exact List.mem_append_right _ (List.mem_singleton.mpr rfl)
    · exact h
  · exact h

/-- A look that is due to a peer stays due when its channel closes. -/
theorem watch_onClosed (h : Watch w s) (q : String) : Watch w (s.onClosed q) := by
  unfold Manager.onClosed
  split
  · rename_i c₀ hc₀
    split
    · apply Watch.enqueue _ (fun _ _ => by simp)
      refine h.setConnection hc₀ rfl rfl (fun hremote => hremote) ?_
      intro hnone type state hremote hsuits
      exact h.cover hnone q c₀ type state hc₀ hremote hsuits
    · exact h
  · exact h

theorem watch_setState (h : Watch w s) (q : String) (state : PeerState)
    (hheeded : Heeded w s (.setState q state)) : Watch w (s.setState q state) := by
  unfold Manager.setState
  split
  · rename_i c₀ hc₀
    split
    · rename_i type state₀ hremote
      have hset : Watch w (s.setConnection q { c₀ with remote := some (type, state) }) := by
        refine h.setConnection hc₀ rfl rfl (fun hnone => by cases hnone) ?_
        intro hnone type' state' hremote' hsuits
        cases hremote'
        cases hbefore : w.suits type state₀ with
        | true => exact h.cover hnone q c₀ type state₀ hc₀ hremote hbefore
        | false => exact hheeded hnone c₀ hc₀ (type, state₀) hremote hbefore hsuits
      dsimp only
      split
      · exact hset
      · exact hset.enqueue (fun _ _ => by simp)
    · exact h
  · exact h

theorem watch_onPeerClosed (h : Watch w s) (q : String) : Watch w (s.onPeerClosed q) := by
  have hold : ∀ p c, (s.onPeerClosed q).connection p = some c → s.connection p = some c ∧ p ≠ q := by
    intro p c hc
    rw [connection_onPeerClosed] at hc
    split at hc
    · cases hc
    · rename_i hne
      exact ⟨hc, fun he => hne he.symm⟩
  have hst : Surrounds s (s.onPeerClosed q) :=
    ⟨rfl, fun _ _ hin => hin, Nat.le_refl _, fun p c hc => .inl ⟨c, (hold p c hc).1, rfl, rfl, fun hr => hr⟩⟩
  refine ⟨h.tidy.surrounds hst, h.short.surrounds hst rfl rfl (listens_erased _ _) ?_, ?_⟩
  · intro hphase
    cases hp : s.phase with
    | completed => rfl
    | idle | scanning rest | scanned | waiting =>
      change s.phase.erased q = .completed at hphase
      rw [hp] at hphase
      cases hphase
  · intro hnone p c type state hc hremote hsuits
    obtain ⟨hc', hne⟩ := hold p c hc
    exact (h.cover hnone p c type state hc' hremote hsuits).surrounds hst rfl rfl (fun hin => hin)
      (fun hin => ahead_erased hin hne) (fun hin => hin)

/-- An answer comes from the peer at the other end of the connection that asked, or from a later one. -/
theorem answer?_eq_some {answer : Answer} (h : s.answer? i = some answer) :
    ∃ l serial c type state, s.look? i = some l ∧ l.asking = some (answer.question, serial) ∧
      s.connection l.peer = some c ∧ c.remote = some (type, state) ∧
      answer = Answer.of type state answer.question := by
  unfold Manager.answer? at h
  simp only [Option.bind_eq_bind, Option.bind_eq_some_iff] at h
  obtain ⟨l, hl, ⟨question, serial⟩, hasking, c, hc, ⟨type, state⟩, hremote, he⟩ := h
  have hanswer : Answer.of type state question = answer :=
    Option.some.inj (Option.ite_none_left_eq_some.mp he).2
  have hquestion : answer.question = question := by rw [← hanswer]; cases question <;> rfl
  exact ⟨l, serial, c, type, state, hl, by rw [hquestion]; exact hasking, hc, hremote,
    by rw [hquestion]; exact hanswer.symm⟩

/-- A wanted peer answers with nothing that speaks against it. -/
theorem fine_of {type : PeerType} {state : PeerState} (hsuits : w.suits type state = true) (question : Question) :
    Fine w type (Answer.of type state question) := by
  cases question with
  | type => exact rfl
  | state => exact hsuits

section Reply

/-! A new response `answer` to the request of look `i`, from what is at the
other end of the connection to its peer. -/

variable {answer : Answer} {serial : ℕ} {c₀ : Connection} {type₀ : PeerType} {state₀ : PeerState}
  (hl : s.look? i = some l) (hasking : l.asking = some (answer.question, serial))
  (hc₀ : s.connection l.peer = some c₀) (hremote₀ : c₀.remote = some (type₀, state₀))

/-- Every response is an old one, or the new one. -/
theorem mem_reply {answer' : Answer}
    (hin : Event.response j answer' ∈ (s.enqueue (.response i answer)).events) :
    Event.response j answer' ∈ s.events ∨ (j = i ∧ answer' = answer) := by
  rcases List.mem_append.mp hin with hin | hin
  · exact .inl hin
  · have he := List.mem_singleton.mp hin
    cases he
    exact .inr ⟨rfl, rfl⟩

include hl hasking in
/-- What waits for the new response is the connection to the peer of the look. -/
theorem Tidy.awaits_reply (h : Tidy s) (hc : s.connection peer = some c) (hawaits : Awaits s i answer c.serial) :
    peer = l.peer := by
  obtain ⟨l', hl', hasking'⟩ := hawaits
  obtain rfl : l = l' := Option.some.inj (hl.symm.trans hl')
  rw [hasking] at hasking'
  obtain ⟨_, hserial⟩ := Prod.mk.inj (Option.some.inj hasking')
  exact (h.asker i l _ serial hl hasking).2 peer c hc hserial.symm

include hl hasking hc₀ hremote₀ in
theorem Tidy.reply (h : Tidy s) : Tidy (s.enqueue (.response i answer)) where
  range := by
    intro j answer' hin
    rcases mem_reply hin with hin | ⟨rfl, rfl⟩
    · exact h.range j answer' hin
    · exact look?_lt hl
  answered := by
    intro j answer' hin l' hl'
    rcases mem_reply hin with hin | ⟨rfl, rfl⟩
    · exact h.answered j answer' hin l' hl'
    · obtain rfl : l = l' := Option.some.inj (hl.symm.trans hl')
      exact .inl ⟨serial, hasking⟩
  serial := h.serial
  distinct := h.distinct
  asker := h.asker
  unopened := by
    intro p c hc hclosed
    obtain ⟨hunknown, hnone⟩ := h.unopened p c hc hclosed
    refine ⟨hunknown, fun j answer' hin hawaits => ?_⟩
    rcases mem_reply hin with hin | ⟨rfl, rfl⟩
    · exact hnone j answer' hin hawaits
    · -- the connection that asked is open
      have hp : p = l.peer := h.awaits_reply hl hasking hc hawaits
      subst hp
      obtain rfl : c₀ = c := Option.some.inj (hc₀.symm.trans hc)
      rw [hremote₀] at hclosed
      cases hclosed

include hl hasking in
/-- A response that does not speak against the peer, if it is about the peer, leaves it covered. -/
theorem Covered.reply (h : Covered w s peer c type) (htidy : Tidy s) (hc : s.connection peer = some c)
    (hmine : peer = l.peer → Fine w type answer) : Covered w (s.enqueue (.response i answer)) peer c type := by
  rcases h with h | ⟨hfresh, hdue⟩
  · exact .inl h
  · refine .inr ⟨⟨hfresh.cached, ?_⟩, ?_⟩
    · intro j answer' hin hawaits
      rcases mem_reply hin with hin | ⟨rfl, rfl⟩
      · exact hfresh.underway j answer' hin hawaits
      · exact hmine (htidy.awaits_reply hl hasking hc hawaits)
    · rcases hdue with hdue | hdue | ⟨j, l', hpromising⟩
      · exact .inl hdue
      · exact .inr (.inl (List.mem_append_left _ hdue))
      · refine .inr (.inr ⟨j, l', hpromising.look, hpromising.peer_eq, hpromising.type_eq,
          hpromising.state_suits, fun answer' hin => ?_⟩)
        rcases mem_reply hin with hin | ⟨rfl, rfl⟩
        · exact hpromising.underway answer' hin
        · obtain rfl : l = l' := Option.some.inj (hl.symm.trans hpromising.look)
          exact hmine hpromising.peer_eq.symm

end Reply

theorem watch_reply (h : Watch w s) (i : ℕ) : Watch w (s.reply i) := by
  unfold Manager.reply
  split
  · rename_i answer hanswer
    obtain ⟨l, serial, c₀, type₀, state₀, hl, hasking, hc₀, hremote₀, hof⟩ := answer?_eq_some hanswer
    refine ⟨h.tidy.reply hl hasking hc₀ hremote₀, ⟨h.short.scan, h.short.short, h.short.completed⟩, ?_⟩
    intro hnone p c type state hc hremote hsuits
    refine (h.cover hnone p c type state hc hremote hsuits).reply hl hasking h.tidy hc ?_
    -- the peer is wanted as it is, and that is what it answers
    intro hp
    subst hp
    obtain rfl : c₀ = c := Option.some.inj (hc₀.symm.trans hc)
    rw [hremote₀] at hremote
    obtain ⟨rfl, rfl⟩ := Prod.mk.inj (Option.some.inj hremote)
    rw [hof]
    exact fine_of hsuits _
  · exact h

/-! ## The steps of the call -/

/-- Only the phase changes, and no look that is due is called off. -/
theorem Watch.phase (h : Watch w s) (phase : Phase)
    (hahead : ∀ peer c, s.connection peer = some c → ahead peer s.phase → ahead peer phase)
    (hshort : Short w { s with phase := phase }) : Watch w { s with phase := phase } := by
  have hst : Surrounds s { s with phase := phase } := .of_eq rfl rfl rfl rfl
  refine ⟨h.tidy.surrounds hst, hshort, ?_⟩
  intro hnone p c type state hc hremote hsuits
  exact (h.cover hnone p c type state hc hremote hsuits).surrounds hst rfl rfl (fun hin => hin)
    (hahead p c hc) (fun hin => hin)

theorem mem_keys_of_connection (h : s.connection peer = some c) : peer ∈ s.connectionMap.keys := by
  rw [Std.ExtTreeMap.mem_keys]
  by_contra hfree
  unfold Manager.connection at h
  rw [Std.ExtTreeMap.getElem?_eq_none hfree] at h
  cases h

theorem watch_waitForPeers (h : Watch w s) (order : List String) : Watch w (s.waitForPeers order) := by
  unfold Manager.waitForPeers
  split
  · rename_i hstart
    apply h.phase
    · intro p c hc _
      exact hstart.2.mem_iff.mpr (mem_keys_of_connection hc)
    · exact ⟨fun hphase => (by cases hphase), fun hphase => (by cases hphase), fun hphase => (by cases hphase)⟩
  · exact h

theorem watch_appendListeners (h : Watch w s) : Watch w s.appendListeners := by
  unfold Manager.appendListeners
  split
  · rename_i hphase
    apply h.phase
    · intro p c _ hahead
      rw [hphase] at hahead
      exact hahead.elim
    · refine ⟨fun _ => h.short.scan (by rw [hphase]; rfl), fun _ => h.short.short (by rw [hphase]; rfl), ?_⟩
      intro hcompleted
      cases hcompleted
  · exact h

/-- A look at `q` begins, for which what made it due may go. -/
theorem Watch.beginLook (h : Watch w s) (hst : Surrounds s t) (hshort : Short w t) {q : String} {scan : Bool}
    (hscan : listens t.phase = true → scan = false) (hids : t.identities = s.identities)
    (hresult : t.result = s.result) (hconnection : ∀ p, t.connection p = s.connection p)
    (hahead : ∀ p, p ≠ q → ahead p s.phase → ahead p t.phase)
    (hopened : ∀ p, p ≠ q → .dataChannelOpened p ∈ s.events → .dataChannelOpened p ∈ t.events) :
    Watch w (t.beginLook q scan) := by
  have htidy := h.tidy.surrounds hst
  refine ⟨htidy.beginLook q scan, ⟨?_, hshort.short, hshort.completed⟩, ?_⟩
  · intro hphase i l hl
    rw [look?_beginLook] at hl
    split at hl
    · cases hl
      exact hscan hphase
    · exact hshort.scan hphase i l hl
  · intro hnone p c type state hc hremote hsuits
    rw [show (t.beginLook q scan).connection p = t.connection p from rfl, hconnection] at hc
    rcases h.cover (hresult ▸ hnone) p c type state hc hremote hsuits with hin | ⟨hfresh, hdue⟩
    · exact .inl (show p ∈ t.identities from hids ▸ hin)
    · refine .inr ⟨(hfresh.surrounds hst rfl rfl).beginLook q scan, ?_⟩
      by_cases hp : p = q
      · subst hp
        exact .inr (.inr ⟨_, _, htidy.promising_beginLook p type scan⟩)
      · rcases hdue with hdue | hdue | ⟨i, l, hpromising⟩
        · exact .inl (hahead p hp hdue)
        · exact .inr (.inl (hopened p hp hdue))
        · exact .inr (.inr ⟨i, l, (hpromising.surrounds hst).beginLook q scan⟩)

theorem watch_scanNext (h : Watch w s) : Watch w (s.scanNext w) := by
  unfold Manager.scanNext
  split
  · rename_i rest hphase
    split
    · exact h
    · rename_i hscans
      cases rest with
      | cons q rest =>
        have hst : Surrounds s { s with phase := .scanning rest } := .of_eq rfl rfl rfl rfl
        refine h.beginLook hst ?_ (fun hl => by cases hl) rfl rfl (fun _ => rfl) ?_ (fun _ _ hin => hin)
        · exact ⟨fun hl => (by cases hl), fun hl => (by cases hl), fun hl => (by cases hl)⟩
        · intro p hp hahead
          rw [hphase] at hahead
          exact (List.mem_cons.mp hahead).resolve_left hp
      | nil =>
        -- no look of the scan is left
        have hnoScan : ∀ i l, s.look? i = some l → l.scan = false := by
          intro i l hl
          by_contra hscan
          apply hscans
          rw [Manager.scans, List.any_eq_true]
          exact ⟨some l, List.mem_of_getElem? (Option.join_eq_some_iff.mp hl), by simpa using hscan⟩
        dsimp only
        split
        · refine ⟨h.tidy.surrounds (.of_eq rfl rfl rfl rfl), ?_, fun hnone => by cases hnone⟩
          exact ⟨fun hl => (by cases hl), fun hl => (by cases hl), fun _ => rfl⟩
        · rename_i hshort
          apply h.phase
          · intro p c _ hahead
            rw [hphase] at hahead
            cases hahead
          · exact ⟨fun _ => hnoScan, fun _ _ => by simpa using hshort, fun hl => (by cases hl)⟩
  · exact h

/-- The event in front is taken and no response among what is left. -/
theorem surrounds_tail {e : Event} {rest : List Event} (he : s.events = e :: rest) :
    Surrounds s { s with events := rest } where
  looks := rfl
  responses := by
    intro i answer hin
    rw [he]
    exact List.mem_cons_of_mem _ hin
  made := Nat.le_refl _
  connections := fun _ c hc => .inl ⟨c, hc, rfl, rfl, fun hremote => hremote⟩

/-- Taking an event that is not an opening changes nothing for any peer. -/
theorem Watch.tail (h : Watch w s) {e : Event} {rest : List Event} (he : s.events = e :: rest)
    (hno : ∀ peer, e ≠ .dataChannelOpened peer) : Watch w { s with events := rest } := by
  have hst := surrounds_tail he
  refine ⟨h.tidy.surrounds hst, h.short.surrounds hst rfl rfl rfl (fun hl => hl), ?_⟩
  intro hnone p c type state hc hremote hsuits
  refine (h.cover hnone p c type state hc hremote hsuits).surrounds hst rfl rfl (fun hin => hin)
    (fun hin => hin) ?_
  intro hin
  rw [he] at hin
  exact (List.mem_cons.mp hin).resolve_left (fun hp => hno p hp.symm)

theorem watch_opened (h : Watch w s) {q : String} {rest : List Event} (he : s.events = .dataChannelOpened q :: rest)
    (hheeded : Heeded w s .processOne) :
    Watch w ((({ s with events := rest } : Manager).onDatachannelOpened q).dispatch (.dataChannelOpened q)) := by
  have hconnection : ∀ p, (({ s with events := rest } : Manager).onDatachannelOpened q).connection p =
      s.connection p := fun p => connection_onDatachannelOpened _ q p
  have hst : Surrounds s (({ s with events := rest } : Manager).onDatachannelOpened q) := by
    refine ⟨rfl, (surrounds_tail he).responses, Nat.le_refl _, ?_⟩
    intro p c hc
    rw [hconnection] at hc
    exact .inl ⟨c, hc, rfl, rfl, fun hremote => hremote⟩
  have hshort : Short w (({ s with events := rest } : Manager).onDatachannelOpened q) :=
    h.short.surrounds hst rfl rfl rfl (fun hl => hl)
  have hopened : ∀ p, p ≠ q → .dataChannelOpened p ∈ s.events → .dataChannelOpened p ∈ rest := by
    intro p hp hin
    rw [he] at hin
    refine (List.mem_cons.mp hin).resolve_left (fun hsame => hp ?_)
    cases hsame
    rfl
  unfold Manager.dispatch
  split
  · exact h.beginLook hst hshort (fun _ => rfl) rfl rfl hconnection (fun _ _ hin => hin) hopened
  · rename_i hphase
    refine ⟨h.tidy.surrounds hst, hshort, ?_⟩
    intro hnone p c type state hc hremote hsuits
    rw [hconnection] at hc
    by_cases hp : p = q
    · subst hp
      have hcovered := hheeded hnone hphase p rest he c hc (type, state) hremote hsuits
      have hsame : Surrounds { s with events := rest }
          (({ s with events := rest } : Manager).onDatachannelOpened p) :=
        ⟨rfl, fun _ _ hin => hin, Nat.le_refl _, fun p' c' hc' => .inl ⟨c', by
          rw [connection_onDatachannelOpened] at hc'; exact hc', rfl, rfl, fun hremote => hremote⟩⟩
      exact hcovered.surrounds hsame rfl rfl (fun hin => hin) (fun hin => hin) (fun hin => hin)
    · exact (h.cover hnone p c type state hc hremote hsuits).surrounds hst rfl rfl (fun hin => hin)
        (fun hin => hin) (hopened p hp)

theorem read_connection (w : Wanted) (s : Manager) (i : ℕ) (l : Look) (answer : Answer) (p : String) :
    (s.read w i l answer).connection p = s.connection p := by
  cases readsOn_read w s i l answer with
  | waits ht | ends _ _ _ _ _ _ _ ht | completes _ _ _ ht =>
    rw [ht]
    rfl

theorem read_result_none (hl : s.look? i = some l) (h : (s.read w i l answer).result = none) : s.result = none := by
  rcases (adds_read hl answer).result with hresult | ⟨hresult, _⟩
  · rwa [hresult] at h
  · rw [hresult] at h
    cases h

/-- What a response for look `i` does to a peer before the look reads it: it
leaves the queue and goes into the cache of the connection that asked. -/
theorem Covered.keep (h : Covered w s peer c type) {rest : List Event}
    (he : s.events = .response i answer :: rest) (hl : s.look? i = some l) {serial : ℕ}
    (hasking : l.asking = some (answer.question, serial)) {q : String} {c' : Connection}
    (hserial : c'.serial = c.serial) (hcase : c' = c ∨ (c.serial = serial ∧ c' = c.cache answer)) :
    CoveredDespite w (({ s with events := rest } : Manager).keep q serial answer) peer c' type i answer := by
  have hin : Event.response i answer ∈ s.events := by
    rw [he]
    exact List.mem_cons_self
  obtain ⟨m, hm⟩ := keep_eq ({ s with events := rest } : Manager) q serial answer
  rcases h with hcounted | ⟨hfresh, hdue⟩
  · refine .inl ?_
    rw [hm]
    exact hcounted
  · have hfresh' : Fresh w (({ s with events := rest } : Manager).keep q serial answer) c' type := by
      apply (hfresh.surrounds (surrounds_tail he) rfl rfl).keep hserial
      rcases hcase with hsame | ⟨hs, hkept⟩
      · exact .inl hsame
      · exact .inr ⟨hfresh.underway i answer hin ⟨l, hl, hs ▸ hasking⟩, hkept⟩
    refine .inr ⟨hfresh', ?_⟩
    rcases hdue with hdue | hdue | ⟨j, l', hpromising⟩
    · refine .inl ?_
      rw [hm]
      exact hdue
    · refine .inr (.inl ?_)
      rw [hm]
      rw [he] at hdue
      exact (List.mem_cons.mp hdue).resolve_left (fun hp => by cases hp)
    · refine .inr (.inr ⟨j, l', (hpromising.surrounds (surrounds_tail he)).keep, fun hij => ?_⟩)
      exact hpromising.underway answer (hij ▸ hin)

/-- A response resumes the look that waits for it. -/
theorem watch_onResponse (h : Watch w s) {rest : List Event} (he : s.events = .response i answer :: rest) :
    Watch w (({ s with events := rest } : Manager).onResponse w i answer) := by
  have htail := h.tail he (fun _ => by simp)
  unfold Manager.onResponse
  split
  · rename_i l hl
    split
    · rename_i question serial hasking
      split
      · rename_i hquestion
        subst hquestion
        have hl' : (({ s with events := rest } : Manager).keep l.peer serial answer).look? i = some l := by
          rw [look?_keep]
          exact hl
        have htidy : Tidy (({ s with events := rest } : Manager).keep l.peer serial answer) := by
          apply htail.tidy.keep
          intro c hc hs hremote
          refine (h.tidy.unopened l.peer c hc hremote).2 i answer ?_ ⟨l, hl, hs.symm ▸ hasking⟩
          rw [he]
          exact List.mem_cons_self
        obtain ⟨m, hm⟩ := keep_eq ({ s with events := rest } : Manager) l.peer serial answer
        refine ⟨htidy.read hl' ?_, Short.read ?_ hl', ?_⟩
        · intro q k hq
          rw [hasking] at hq
          cases hq
          rfl
        · rw [hm]
          exact ⟨htail.short.scan, htail.short.short, htail.short.completed⟩
        · intro hnone p c' type state hc' hremote hsuits
          rw [read_connection] at hc'
          obtain ⟨c, hc, hserial, hsame, hcase⟩ := connection_keep hc'
          rw [hsame] at hremote
          have hbefore : s.result = none := by
            have hread := read_result_none hl' hnone
            rwa [hm] at hread
          have hcovered := h.cover hbefore p c type state hc hremote hsuits
          exact (hcovered.keep he hl hasking hserial (hcase.imp_right And.right)).read hl' hnone
      · exact htail
    · exact htail
  · exact htail

theorem watch_processOne (h : Watch w s) (hheeded : Heeded w s .processOne) : Watch w (s.processOne w) := by
  unfold Manager.processOne
  cases he : s.events with
  | nil => exact h
  | cons e rest =>
    cases e with
    | dataChannelOpened q => exact watch_opened h he hheeded
    | dataChannelClosed q => exact h.tail he (fun _ => by simp)
    | response i answer => exact watch_onResponse h he
    | peerStateUpdate q state =>
      -- the task that is posted for it, if any, throws at once
      have htail := h.tail he (fun _ => by simp)
      show Watch w (({ s with events := rest } : Manager).dispatch (.peerStateUpdate q state))
      unfold Manager.dispatch Manager.onDatachannelTask
      split
      · exact htail
      · exact htail

/-- A look reads an answer that leaves every wanted peer covered. -/
theorem Watch.read (h : Watch w s) (hl : s.look? i = some l) (hasking : l.asking = none)
    (hcovered : ∀ p c type, s.connection p = some c → Covered w s p c type → CoveredDespite w s p c type i answer) :
    Watch w (s.read w i l answer) := by
  refine ⟨h.tidy.read hl (fun question serial hq => ?_), h.short.read hl, ?_⟩
  · rw [hasking] at hq
    cases hq
  · intro hnone p c type state hc hremote hsuits
    rw [read_connection] at hc
    have hbefore := h.cover (read_result_none hl hnone) p c type state hc hremote hsuits
    exact (hcovered p c type hc hbefore).read hl hnone

theorem Watch.ask (h : Watch w s) {question : Question} {c₀ : Connection} (hl : s.look? i = some l)
    (hasking : l.asking = none) (hhas : l.has question = false) (hc₀ : s.connection l.peer = some c₀) :
    Watch w (s.setLook i (some { l with asking := some (question, c₀.serial) })) := by
  refine ⟨h.tidy.ask hl hasking hhas hc₀, ⟨?_, h.short.short, h.short.completed⟩, ?_⟩
  · intro hphase j l' hl'
    rw [look?_setLook hl] at hl'
    split at hl'
    · cases hl'
      exact h.short.scan hphase i l hl
    · exact h.short.scan hphase j l' hl'
  · intro hnone p c type state hc hremote hsuits
    rcases h.cover hnone p c type state hc hremote hsuits with hin | ⟨hfresh, hdue⟩
    · exact .inl hin
    · refine .inr ⟨hfresh.ask hl hasking hhas h.tidy, ?_⟩
      rcases hdue with hdue | hdue | ⟨j, l', hpromising⟩
      · exact .inl hdue
      · exact .inr (.inl hdue)
      · obtain ⟨l'', hpromising'⟩ := hpromising.ask hl
        exact .inr (.inr ⟨j, l'', hpromising'⟩)

theorem watch_get (h : Watch w s) (i : ℕ) (question : Question) : Watch w (s.get w i question) := by
  unfold Manager.get
  split
  · rename_i l hl
    split
    · exact h
    · rename_i hidle
      rw [Bool.or_eq_true, not_or, Bool.not_eq_true, Bool.not_eq_true, Option.isSome_eq_false_iff,
        Option.isNone_iff_eq_none] at hidle
      obtain ⟨hasking, hhas⟩ := hidle
      split
      · rename_i c₀ hc₀
        split
        · exact h.ask hl hasking hhas hc₀
        · rename_i hknown
          apply h.read hl hasking
          intro p c type hc hbefore
          -- the cache of the peer's connection has nothing against it
          refine hbefore.despite fun hfresh l' hpromising => ?_
          obtain rfl : l = l' := Option.some.inj (hl.symm.trans hpromising.look)
          have hp := hpromising.peer_eq
          subst hp
          obtain rfl : c₀ = c := Option.some.inj (hc₀.symm.trans hc)
          exact (hfresh.cached question).resolve_left hknown
      · rename_i hgone
        apply h.read hl hasking
        intro p c type hc hbefore
        refine hbefore.despite fun _ l' hpromising => ?_
        obtain rfl : l = l' := Option.some.inj (hl.symm.trans hpromising.look)
        rw [← hpromising.peer_eq, hgone] at hc
        cases hc
  · exact h

/-- Every step keeps the invariant if what it brings up is heeded. -/
theorem watch_step (h : Watch w s) (a : Action) (hheeded : Heeded w s a) : Watch w (managerStep w s a) := by
  cases a with
  | createConnection q k => exact watch_createConnection h q k
  | onOpen q type state => exact watch_onOpen h q type state
  | onClosed q => exact watch_onClosed h q
  | setState q state => exact watch_setState h q state hheeded
  | onPeerClosed q => exact watch_onPeerClosed h q
  | reply i => exact watch_reply h i
  | waitForPeers order => exact watch_waitForPeers h order
  | scanNext => exact watch_scanNext h
  | appendListeners => exact watch_appendListeners h
  | processOne => exact watch_processOne h hheeded
  | get i question => exact watch_get h i question

/-! ## No lost wake-up -/

theorem available_nodup (w : Wanted) (s : Manager) : (available w s).Nodup := by
  have hkeys := Std.ExtTreeMap.distinct_keys_toList (t := s.connectionMap)
  unfold available
  rw [List.Nodup, List.pairwise_map]
  refine (hkeys.filter _).imp ?_
  intro a b hne he
  exact hne (Std.LawfulEqCmp.compare_eq_iff_eq.mpr he)

theorem connection_of_available (h : peer ∈ available w s) :
    ∃ c type state, s.connection peer = some c ∧ c.remote = some (type, state) ∧ w.suits type state = true := by
  obtain ⟨⟨p, entry⟩, hin, rfl⟩ := List.mem_map.mp h
  obtain ⟨hentry, hwanted⟩ := List.mem_filter.mp hin
  rw [Std.ExtTreeMap.mem_toList_iff_getElem?_eq_some] at hentry
  unfold wanted at hwanted
  rw [Option.any_eq_true] at hwanted
  obtain ⟨⟨type, state⟩, hremote, hsuits⟩ := hwanted
  obtain ⟨c, rfl, hc⟩ := Option.bind_eq_some_iff.mp hremote
  refine ⟨c, type, state, ?_, hc, hsuits⟩
  unfold Manager.connection
  rw [hentry]
  rfl

/-- With nothing left to do every peer that is wanted was counted. -/
theorem Watch.counted (h : Watch w s) (hnone : s.result = none) (hover : scanOver s.phase = true)
    (hevents : s.events = []) (hlooks : ∀ l ∈ s.looks, l = none) (hpeer : peer ∈ available w s) :
    peer ∈ s.identities := by
  obtain ⟨c, type, state, hc, hremote, hsuits⟩ := connection_of_available hpeer
  rcases h.cover hnone peer c type state hc hremote hsuits with hin | ⟨_, hahead | hopened | ⟨i, l, hpromising⟩⟩
  · exact hin
  · cases hphase : s.phase with
    | idle | scanning rest =>
      rw [hphase] at hover
      cases hover
    | scanned | waiting | completed =>
      rw [hphase] at hahead
      exact hahead.elim
  · rw [hevents] at hopened
    cases hopened
  · have hl := hlooks (some l) (List.mem_of_getElem? (Option.join_eq_some_iff.mp hpromising.look))
    cases hl

theorem Watch.noLostWakeup (h : Watch w s) (hcount : 0 ≤ w.count.toInt) : NoLostWakeup w s := by
  intro hover hevents hlooks henough
  cases hresult : s.result with
  | some ids => rfl
  | none =>
    exfalso
    have hlistens : listens s.phase = true := by
      cases hphase : s.phase with
      | idle | scanning rest =>
        rw [hphase] at hover
        cases hover
      | scanned | waiting => rfl
      | completed =>
        have hsome := h.short.completed hphase
        rw [hresult] at hsome
        cases hsome
    have hlength : (available w s).length ≤ s.identities.length :=
      (List.subperm_of_subset (available_nodup w s)
        (fun p hp => h.counted hresult hover hevents hlooks hp)).length_le
    have hshort := h.short.short hlistens hresult
    rw [(enough_iff hcount).mpr (by omega)] at hshort
    cases hshort

/-- **No lost wake-up**: as long as every peer that becomes wanted still has a
look at it ahead, and no opening of such a peer is dispatched before the
listeners are there, a call never waits for peers that are connected. -/
theorem no_lost_wakeup (w : Wanted) (hcount : 0 ≤ w.count.toInt) (as : List Action)
    (h : Along (managerStep w) (Heeded w) Manager.create as) :
    ∀ pre, pre <+: as → NoLostWakeup w (run (managerStep w) Manager.create pre) := by
  intro pre ⟨post, he⟩
  rw [← he, along_append] at h
  have hwatch : Watch w (run (managerStep w) Manager.create pre) :=
    run_keeps_along (I := Watch w) (fun _ a ha hs => watch_step hs a ha) pre h.1 (watch_create w)
  exact hwatch.noLostWakeup hcount

def oneFullNode : Wanted := ⟨1, {.full}, {.open}⟩

/-- A full node connects while the call waits for it, and is through with its download
before its opening is processed. -/
def openedMeanwhile : List Action :=
  listening ++ [.createConnection "p" none, .onOpen "p" .full .initialBlockDownload, .setState "p" .open, .processOne,
    .processOne, .get 0 .type, .reply 0, .processOne, .get 0 .state, .reply 0, .processOne]

theorem no_lost_wakeup_onePeer :
    (run (managerStep oneFullNode) Manager.create openedMeanwhile).result.isSome = true := by
  refine no_lost_wakeup oneFullNode (by decide) _ ?_ _ (List.prefix_refl _) (by decide +kernel) (by decide +kernel)
    (by decide +kernel) (by decide +kernel)
  let s := run (managerStep oneFullNode) Manager.create (openedMeanwhile.take 5)
  have hwaiting : ∀ {s : Manager}, s.phase = .waiting → Heeded oneFullNode s .processOne :=
    fun hphase _ hne => absurd hphase hne
  -- the peer becomes wanted while its opening is queued, and nothing is known of it yet
  have hcovered : Heeded oneFullNode s (.setState "p" .open) := by
    have hconnection : s.connection "p" = some ⟨0, .unknown, .unknown, some (.full, .initialBlockDownload), false⟩ := by
      decide +kernel
    have hevents : s.events = [.dataChannelOpened "p"] := by decide +kernel
    intro _ c hc remote _ _ _
    rw [hconnection] at hc
    cases hc
    refine .inr ⟨⟨?_, ?_⟩, .inr (.inl ?_)⟩
    · intro question
      cases question <;> exact .inl rfl
    · intro i answer hanswer
      rw [hevents] at hanswer
      simp at hanswer
    · rw [hevents]
      exact List.mem_singleton_self _
  exact ⟨trivial, trivial, trivial, trivial, trivial, hcovered, hwaiting (by decide +kernel),
    hwaiting (by decide +kernel), trivial, trivial, hwaiting (by decide +kernel), trivial, trivial,
    hwaiting (by decide +kernel), trivial⟩

/-- A full node is looked at while it downloads blocks; when it opens and tells,
nobody looks again. -/
theorem opened_peer_missed : ¬ ∀ w as, NoLostWakeup w (run (managerStep w) Manager.create as) := by
  intro h
  have hlost := h oneFullNode
    [.createConnection "p" none, .onOpen "p" .full .initialBlockDownload, .processOne, .waitForPeers ["p"], .scanNext,
      .get 0 .type, .reply 0, .processOne, .get 0 .state, .reply 0, .processOne, .scanNext, .appendListeners,
      .setState "p" .open, .processOne]
    (by decide +kernel) (by decide +kernel) (by decide +kernel) (by decide +kernel)
  revert hlost
  decide +kernel

end Krapi.LostWakeups
