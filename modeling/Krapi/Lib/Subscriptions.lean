import Krapi.Lib.Correlation

/-! # Listeners that count

A board keeps listeners, each for one kind of event. A listener counts the events
it hears, or those of them it cares for, and at the event that uses up its count
it resolves its promise and leaves the board. Read over the whole history, each
promise gets one event, which is known from the subscription and the log alone:
listeners do not disturb each other, and what one left behind does not reach a
later one. -/
namespace Krapi.Lib.Subscriptions
open Krapi.Lib.Correlation (resultsOf resultsOf_append)

variable {K E : Type*}

structure Listener (K E : Type*) where
  promise : ℕ
  kind : K
  count : ℤ
  counts : E → Bool

/-- What a listener was appended with, and how many events came before. -/
structure Subscription (K E : Type*) where
  kind : K
  count : ℤ
  counts : E → Bool
  since : ℕ

/-- Promises are numbered as subscriptions are made; the last three fields are logs. -/
structure Board (K E : Type*) where
  listeners : List (Listener K E)
  subscriptions : List (Subscription K E)
  dispatched : List E
  results : List (ℕ × E)

def Board.empty : Board K E := ⟨[], [], [], []⟩

def Board.subscribe (b : Board K E) (kind : K) (count : ℤ) (counts : E → Bool) : Board K E :=
  { b with
    listeners := b.listeners ++ [⟨b.subscriptions.length, kind, count, counts⟩]
    subscriptions := b.subscriptions ++ [⟨kind, count, counts, b.dispatched.length⟩] }

/-- One event less to count, if it is one that counts. -/
def Listener.hear (l : Listener K E) (e : E) : Listener K E :=
  if l.counts e then { l with count := l.count - 1 } else l

/-! ## What a subscription is to get -/

/-- Where a count of `n` ends, in the events a listener hears: with nothing to
count it ends at the first of them, counted or not. -/
def ending (counts : E → Bool) (n : ℤ) (es : List E) : Option E :=
  if n ≤ 0 then es.head? else (es.filter counts)[(n - 1).toNat]?

/-- What is left of a count of `n` after the events `es`. -/
def remaining (counts : E → Bool) (n : ℤ) (es : List E) : ℤ := n - (es.filter counts).length

section Ending
variable {counts : E → Bool} {n : ℤ} {es : List E} {e : E}

@[simp] theorem ending_nil : ending counts n ([] : List E) = none := by
  unfold ending
  split <;> simp

@[simp] theorem remaining_nil : remaining counts n ([] : List E) = n := by simp [remaining]

theorem remaining_concat :
    remaining counts n (es ++ [e]) = remaining counts n es - if counts e then 1 else 0 := by
  unfold remaining
  by_cases he : counts e
  · simp [he]
    omega
  · simp [he]

/-- As long as the count has not ended, a part of it is left or nothing was heard. -/
theorem remaining_pos (h : ending counts n es = none) : es = [] ∨ 0 < remaining counts n es := by
  unfold ending at h
  unfold remaining
  split at h
  · exact .inl (List.head?_eq_none_iff.mp h)
  · rw [List.getElem?_eq_none_iff] at h
    right
    omega

theorem ending_append (h : (ending counts n es).isSome) (es' : List E) :
    ending counts n (es ++ es') = ending counts n es := by
  unfold ending at h ⊢
  split
  · rename_i hn
    rw [if_pos hn] at h
    cases es with
    | nil => simp at h
    | cons e es => rfl
  · rename_i hn
    rw [if_neg hn] at h
    obtain ⟨e, he⟩ := Option.isSome_iff_exists.mp h
    rw [List.filter_append, List.getElem?_append_left (List.getElem?_eq_some_iff.mp he).1]

/-- The count ends at the event that leaves nothing to count. -/
theorem ending_concat (h : ending counts n es = none) :
    ending counts n (es ++ [e]) = if remaining counts n (es ++ [e]) ≤ 0 then some e else none := by
  rcases remaining_pos h with rfl | hpos
  · rw [List.nil_append, ending]
    unfold remaining
    by_cases hn : n ≤ 0
    · have hle : n - ((List.filter counts [e]).length : ℤ) ≤ 0 := by omega
      rw [if_pos hn, if_pos hle, List.head?_cons]
    · rw [if_neg hn]
      by_cases he : counts e
      · by_cases h1 : n = 1
        · subst h1; simp [he]
        · have hne : ¬ n.toNat - 1 = 0 := by omega
          have hlt : ¬ n - 1 ≤ 0 := by omega
          simp [he, hlt, hne]
      · simp [he, hn]
  · have hn : ¬ n ≤ 0 := by
      intro hn
      rw [ending, if_pos hn, List.head?_eq_none_iff] at h
      subst h
      rw [remaining_nil] at hpos
      omega
    rw [remaining_concat, ending, if_neg hn, List.filter_append]
    unfold remaining at hpos ⊢
    by_cases he : counts e
    · rw [List.filter_cons_of_pos he, List.filter_nil, if_pos he]
      by_cases hend : n - ((es.filter counts).length : ℤ) - 1 ≤ 0
      · have hlen : (n - 1).toNat = (es.filter counts).length := by omega
        rw [if_pos hend, hlen, List.getElem?_concat_length]
      · rw [if_neg hend, List.getElem?_eq_none]
        rw [List.length_append, List.length_singleton]
        omega
    · have hlen : (es.filter counts).length ≤ (n - 1).toNat := by omega
      rw [List.filter_cons_of_neg he, List.filter_nil, List.append_nil, if_neg he, if_neg (by omega),
        List.getElem?_eq_none hlen]

end Ending

variable [DecidableEq K]

/-- All listeners of its kind hear an event, in the order they were appended. -/
def Board.dispatch (kind : E → K) (b : Board K E) (e : E) : Board K E :=
  { b with
    listeners := b.listeners.filterMap fun l =>
      if kind e = l.kind then
        if (l.hear e).count ≤ 0 then none else some (l.hear e)
      else some l
    dispatched := b.dispatched ++ [e]
    results := b.results ++ b.listeners.filterMap fun l =>
      if kind e = l.kind ∧ (l.hear e).count ≤ 0 then some (l.promise, e) else none }

/-- The events of its kind since the subscription. -/
def Subscription.heard (kind : E → K) (es : List E) (s : Subscription K E) : List E :=
  (es.drop s.since).filter fun e => kind e = s.kind

/-- What the subscription gets out of the events `es`. -/
def Subscription.outcome (kind : E → K) (es : List E) (s : Subscription K E) : Option E :=
  ending s.counts s.count (s.heard kind es)

/-- The listener of a subscription that got nothing out of the events `es` yet. -/
def Subscription.listener (kind : E → K) (es : List E) (s : Subscription K E) (i : ℕ) :
    Listener K E :=
  ⟨i, s.kind, remaining s.counts s.count (s.heard kind es), s.counts⟩

/-- The listener subscription `i` still has on the board. -/
def Subscription.waiting (kind : E → K) (es : List E) (s : Subscription K E) (i : ℕ) :
    Option (Listener K E) :=
  if s.outcome kind es = none then some (s.listener kind es i) else none

section Outcome
variable {kind : E → K} {es : List E} {e : E} {s : Subscription K E} {i : ℕ}

theorem heard_concat (h : s.since ≤ es.length) :
    s.heard kind (es ++ [e]) = s.heard kind es ++ if kind e = s.kind then [e] else [] := by
  rw [Subscription.heard, List.drop_append_of_le_length h, List.filter_append]
  by_cases hk : kind e = s.kind <;> simp [hk, Subscription.heard]

theorem heard_of_length_le (h : es.length ≤ s.since) : s.heard kind es = [] := by
  rw [Subscription.heard, List.drop_of_length_le h, List.filter_nil]

theorem outcome_of_length_le (h : es.length ≤ s.since) : s.outcome kind es = none := by
  rw [Subscription.outcome, heard_of_length_le h, ending_nil]

/-- Hearing the event, a listener that still waits has left what the log says. -/
theorem hear_listener (h : s.since ≤ es.length) (hk : kind e = s.kind) :
    (s.listener kind es i).hear e = s.listener kind (es ++ [e]) i := by
  unfold Subscription.listener Listener.hear
  rw [heard_concat h, if_pos hk, remaining_concat]
  by_cases he : s.counts e <;> simp [he]

theorem listener_concat_of_ne (h : s.since ≤ es.length) (hk : kind e ≠ s.kind) :
    s.listener kind (es ++ [e]) i = s.listener kind es i := by
  unfold Subscription.listener
  rw [heard_concat h, if_neg hk, List.append_nil]

theorem outcome_concat_of_ne (h : s.since ≤ es.length) (hk : kind e ≠ s.kind) :
    s.outcome kind (es ++ [e]) = s.outcome kind es := by
  unfold Subscription.outcome
  rw [heard_concat h, if_neg hk, List.append_nil]

/-- An outcome stays. -/
theorem outcome_concat_of_isSome (h : s.since ≤ es.length) (hs : (s.outcome kind es).isSome) :
    s.outcome kind (es ++ [e]) = s.outcome kind es := by
  unfold Subscription.outcome at hs ⊢
  rw [heard_concat h, ending_append hs]

/-- The outcome is the event at which the listener has nothing left to count. -/
theorem outcome_concat (h : s.since ≤ es.length) (hk : kind e = s.kind) (hn : s.outcome kind es = none) :
    s.outcome kind (es ++ [e]) =
      if ((s.listener kind es i).hear e).count ≤ 0 then some e else none := by
  rw [hear_listener h hk]
  unfold Subscription.outcome at hn ⊢
  rw [heard_concat h, if_pos hk, ending_concat hn]
  unfold Subscription.listener
  rw [heard_concat h, if_pos hk]

end Outcome

/-! ## The board against its history -/

/-- On the board are the listeners of the subscriptions without an outcome, and
every other promise was resolved with its outcome, once. -/
structure Kept (kind : E → K) (b : Board K E) : Prop where
  since_le : ∀ s ∈ b.subscriptions, s.since ≤ b.dispatched.length
  listeners_eq : b.listeners = b.subscriptions.zipIdx.filterMap fun p => p.1.waiting kind b.dispatched p.2
  resolved : ∀ i s, b.subscriptions[i]? = some s →
    resultsOf b.results i = (s.outcome kind b.dispatched).toList
  addressed : ∀ r ∈ b.results, r.1 < b.subscriptions.length

section Steps
variable {kind : E → K} {b : Board K E} {e : E}

omit [DecidableEq K] in
theorem resultsOf_eq_nil {i : ℕ} (h : ∀ r ∈ b.results, r.1 < b.subscriptions.length)
    (hi : b.subscriptions.length ≤ i) : resultsOf b.results i = [] := by
  rw [resultsOf, List.map_eq_nil_iff, List.filter_eq_nil_iff]
  intro r hr hri
  have hlt := h r hr
  have : r.1 = i := by simpa using hri
  omega

theorem kept_empty (kind : E → K) : Kept kind (Board.empty : Board K E) where
  since_le := by intro s hs; cases hs
  listeners_eq := rfl
  resolved := by intro i s hs; simp [Board.empty] at hs
  addressed := by intro r hr; cases hr

theorem Kept.subscribe (h : Kept kind b) (k : K) (count : ℤ) (counts : E → Bool) :
    Kept kind (b.subscribe k count counts) := by
  have hnew : (⟨k, count, counts, b.dispatched.length⟩ : Subscription K E).outcome kind b.dispatched = none :=
    outcome_of_length_le le_rfl
  refine ⟨?_, ?_, ?_, ?_⟩
  · intro s hs
    rcases List.mem_append.mp hs with hs | hs
    · exact h.since_le s hs
    · rw [List.mem_singleton.mp hs]; exact le_rfl
  · show b.listeners ++ _ = _
    rw [h.listeners_eq]
    show _ = ((b.subscriptions ++ [_]).zipIdx).filterMap _
    rw [List.zipIdx_append, List.filterMap_append]
    congr 1
    have hheard : (⟨k, count, counts, b.dispatched.length⟩ : Subscription K E).heard kind b.dispatched = [] :=
      heard_of_length_le le_rfl
    simp [Subscription.waiting, Board.subscribe, hnew, Subscription.listener, hheard]
  · intro i s hs
    rcases Nat.lt_trichotomy i b.subscriptions.length with hi | rfl | hi
    · have hs' : b.subscriptions[i]? = some s := by
        rwa [Board.subscribe, List.getElem?_append_left hi] at hs
      exact h.resolved i s hs'
    · have hs' : s = ⟨k, count, counts, b.dispatched.length⟩ := by
        rw [Board.subscribe, List.getElem?_concat_length] at hs
        exact (Option.some.inj hs).symm
      show resultsOf b.results _ = (s.outcome kind b.dispatched).toList
      rw [hs', hnew, resultsOf_eq_nil h.addressed le_rfl]
      rfl
    · rw [Board.subscribe, List.getElem?_eq_none (by rw [List.length_append, List.length_singleton]; omega)] at hs
      cases hs
  · intro r hr
    have := h.addressed r hr
    show r.1 < (b.subscriptions ++ [_]).length
    rw [List.length_append]
    omega

omit [DecidableEq K] in
theorem resultsOf_cons (r : ℕ × E) (results : List (ℕ × E)) (j : ℕ) :
    resultsOf (r :: results) j = (if j = r.1 then [r.2] else []) ++ resultsOf results j := by
  unfold resultsOf
  by_cases hj : r.1 = j
  · simp [hj]
  · have hne : j ≠ r.1 := Ne.symm hj
    simp [hj, hne]

/-- Results that each carry the number of what they come from, seen from one number. -/
theorem resultsOf_zipIdx {A : Type*} (g : A → Option E) :
    ∀ (l : List A) (n j : ℕ), resultsOf ((l.zipIdx n).filterMap fun p => (g p.1).map (Prod.mk p.2)) j =
      if n ≤ j then (l[j - n]?.bind g).toList else []
  | [], n, j => by simp [resultsOf]
  | a :: l, n, j => by
    have htail := resultsOf_zipIdx g l (n + 1) j
    have hhead : resultsOf (((a :: l).zipIdx n).filterMap fun p => (g p.1).map (Prod.mk p.2)) j =
        (if j = n then (g a).toList else []) ++
          resultsOf ((l.zipIdx (n + 1)).filterMap fun p => (g p.1).map (Prod.mk p.2)) j := by
      rw [List.zipIdx_cons, List.filterMap_cons]
      cases hg : g a with
      | none => simp
      | some e => simp [resultsOf_cons]
    rw [hhead, htail]
    rcases Nat.lt_trichotomy j n with hj | rfl | hj
    · rw [if_neg (by omega), if_neg (by omega), if_neg (by omega), List.nil_append]
    · rw [if_pos rfl, if_neg (by omega), if_pos le_rfl, Nat.sub_self, List.append_nil]
      rfl
    · rw [if_neg (by omega), if_pos (by omega), if_pos (by omega), List.nil_append,
        show j - n = j - (n + 1) + 1 by omega, List.getElem?_cons_succ]

/-- What a listener on the board does with an event, from its subscription. -/
theorem waiting_bind {s : Subscription K E} {es : List E} {i : ℕ} (h : s.since ≤ es.length) :
    ((s.waiting kind es i).bind fun l =>
        if kind e = l.kind then
          if (l.hear e).count ≤ 0 then none else some (l.hear e)
        else some l) = s.waiting kind (es ++ [e]) i ∧
    ((s.waiting kind es i).bind fun l =>
        if kind e = l.kind ∧ (l.hear e).count ≤ 0 then some (l.promise, e) else none) =
      (if s.outcome kind es = none then s.outcome kind (es ++ [e]) else none).map (Prod.mk i) := by
  unfold Subscription.waiting
  by_cases hn : s.outcome kind es = none
  · rw [if_pos hn, if_pos hn, Option.bind_some, Option.bind_some]
    have hkind : (s.listener kind es i).kind = s.kind := rfl
    rw [hkind]
    by_cases hk : kind e = s.kind
    · rw [outcome_concat h hk hn (i := i), if_pos hk, hear_listener h hk]
      by_cases hend : (s.listener kind (es ++ [e]) i).count ≤ 0
      · simp [hk, hend]
        rfl
      · simp [hk, hend]
    · rw [outcome_concat_of_ne h hk, listener_concat_of_ne h hk]
      simp [hk, hn]
  · have hs : (s.outcome kind es).isSome := Option.isSome_iff_ne_none.mpr hn
    rw [outcome_concat_of_isSome h hs]
    simp [hn]

/-- A dispatch resolves the promises whose outcome the event is. -/
def Subscription.fires (kind : E → K) (es : List E) (e : E) (s : Subscription K E) : Option E :=
  if s.outcome kind es = none then s.outcome kind (es ++ [e]) else none

theorem Kept.results_dispatch (h : Kept kind b) (e : E) :
    (b.dispatch kind e).results = b.results ++
      b.subscriptions.zipIdx.filterMap fun p => (p.1.fires kind b.dispatched e).map (Prod.mk p.2) := by
  show b.results ++ b.listeners.filterMap _ = _
  rw [h.listeners_eq, List.filterMap_filterMap]
  exact congrArg _ (List.filterMap_congr fun p hp =>
    (waiting_bind (h.since_le _ (List.fst_mem_of_mem_zipIdx hp))).2)

theorem Kept.dispatch (h : Kept kind b) (e : E) : Kept kind (b.dispatch kind e) := by
  refine ⟨?_, ?_, ?_, ?_⟩
  · intro s hs
    have := h.since_le s hs
    show s.since ≤ (b.dispatched ++ [e]).length
    rw [List.length_append]
    omega
  · show b.listeners.filterMap _ = _
    rw [h.listeners_eq, List.filterMap_filterMap]
    exact List.filterMap_congr fun p hp =>
      (waiting_bind (h.since_le _ (List.fst_mem_of_mem_zipIdx hp))).1
  · intro i s hs
    have hzip := resultsOf_zipIdx (Subscription.fires kind b.dispatched e) b.subscriptions 0 i
    have hs' : b.subscriptions[i]? = some s := hs
    have happend : ∀ new, resultsOf (b.results ++ new) i = resultsOf b.results i ++ resultsOf new i :=
      fun new => by simp [resultsOf]
    rw [if_pos (Nat.zero_le i), Nat.sub_zero, hs', Option.bind_some] at hzip
    rw [h.results_dispatch, happend, h.resolved i s hs', hzip, Subscription.fires]
    show _ = (s.outcome kind (b.dispatched ++ [e])).toList
    cases ho : s.outcome kind b.dispatched with
    | none => simp
    | some e' =>
      rw [outcome_concat_of_isSome (h.since_le s (List.mem_of_getElem? hs')) (by rw [ho]; rfl), ho]
      simp
  · intro r hr
    rw [h.results_dispatch] at hr
    rcases List.mem_append.mp hr with hr | hr
    · exact h.addressed r hr
    · obtain ⟨p, hp, hpr⟩ := List.mem_filterMap.mp hr
      obtain ⟨e', -, rfl⟩ := Option.map_eq_some_iff.mp hpr
      have hlt : p.2 < b.subscriptions.length + 0 := List.snd_lt_of_mem_zipIdx hp
      exact hlt

end Steps

/-! ## Waiting for one event -/

section One
variable {kind : E → K} {b : Board K E} {e : E} {p since : ℕ} {k : K}

/-- A subscription for one event gets the first one of its kind. -/
theorem outcome_one (k : K) (es : List E) :
    (⟨k, 1, fun _ => true, since⟩ : Subscription K E).outcome kind es =
      (es.drop since).find? fun e => decide (kind e = k) := by
  rw [Subscription.outcome, ending, if_neg (by simp), ← List.head?_filter]
  simp [Subscription.heard, List.head?_eq_getElem?]

/-- It is without a result as long as no event of its kind comes. -/
theorem Kept.resultsOf_dispatch_one (h : Kept kind b)
    (hs : b.subscriptions[p]? = some ⟨k, 1, fun _ => true, since⟩) (e : E) :
    resultsOf (b.dispatch kind e).results p = [] ↔ resultsOf b.results p = [] ∧ kind e ≠ k := by
  have hle : since ≤ b.dispatched.length := h.since_le _ (List.mem_of_getElem? hs)
  rw [(h.dispatch e).resolved p _ hs, h.resolved p _ hs, outcome_one, outcome_one]
  show (((b.dispatched ++ [e]).drop since).find? _).toList = [] ↔ _
  rw [List.drop_append_of_le_length hle, List.find?_append]
  cases hfirst : (b.dispatched.drop since).find? fun e => decide (kind e = k) with
  | some e' => simp
  | none =>
    by_cases hk : kind e = k <;> simp [hk]

theorem Kept.kind_of_result (h : Kept kind b)
    (hs : b.subscriptions[p]? = some ⟨k, 1, fun _ => true, since⟩)
    (he : (resultsOf b.results p).head? = some e) : kind e = k := by
  rw [h.resolved p _ hs, outcome_one, Option.head?_toList] at he
  exact of_decide_eq_true (List.find?_some he :)

end One

/-! ## Waiting for one of several kinds -/

/-- The event of the first of the promises, as they are listed, that has one. -/
def Board.ready (b : Board K E) (promises : List ℕ) : Option E :=
  promises.findSome? fun p => (resultsOf b.results p).head?

/-- What listeners for one event each, of which every one is given by its kind and by
how many events came before, heard first: the first listener, as they are listed, that heard one. -/
def firstHeard (kind : E → K) (es : List E) (held : List (K × ℕ)) : Option E :=
  held.findSome? fun x => (es.drop x.2).find? fun e => decide (kind e = x.1)

/-- The promises are those of listeners for one event each. -/
def Holds (b : Board K E) (promises : List ℕ) (held : List (K × ℕ)) : Prop :=
  promises.map (b.subscriptions[·]?) = held.map fun x => some ⟨x.1, 1, fun _ => true, x.2⟩

section Several
variable {kind : E → K} {b : Board K E} {promises : List ℕ} {held : List (K × ℕ)} {es : List E} {e : E}
  {since w : ℕ}

omit [DecidableEq K] in
theorem Holds.lt (h : Holds b promises held) {p : ℕ} (hp : p ∈ promises) : p < b.subscriptions.length := by
  have hmem : b.subscriptions[p]? ∈ promises.map (b.subscriptions[·]?) := List.mem_map_of_mem hp
  unfold Holds at h
  rw [h, List.mem_map] at hmem
  obtain ⟨x, -, hx⟩ := hmem
  exact (List.getElem?_eq_some_iff.mp hx.symm).1

omit [DecidableEq K] in
/-- Other subscriptions do not matter. -/
theorem Holds.subscribe (h : Holds b promises held) (k : K) (count : ℤ) (counts : E → Bool) :
    Holds (b.subscribe k count counts) promises held := by
  refine Eq.trans (List.map_congr_left fun p hp => ?_) h
  exact List.getElem?_append_left (h.lt hp)

omit [DecidableEq K] in
theorem Holds.append (h : Holds b promises held) (k : K) :
    Holds (b.subscribe k 1 fun _ => true) (promises ++ [b.subscriptions.length])
      (held ++ [(k, b.dispatched.length)]) := by
  have hmore := h.subscribe k 1 fun _ => true
  unfold Holds at hmore ⊢
  rw [List.map_append, List.map_append, hmore]
  congr 1
  exact congrArg (fun o => [o]) List.getElem?_concat_length

theorem findSome?_congr {A B : Type*} {f g : A → Option B} {l : List A} (h : ∀ a ∈ l, f a = g a) :
    l.findSome? f = l.findSome? g := by
  rw [← List.head?_filterMap, List.filterMap_congr h, List.head?_filterMap]

theorem Kept.ready_eq (hkept : Kept kind b) (h : Holds b promises held) :
    b.ready promises = firstHeard kind b.dispatched held := by
  let outcome := fun o : Option (Subscription K E) => o.bind (Subscription.outcome kind b.dispatched)
  have hpromise : ∀ p ∈ promises, (resultsOf b.results p).head? = outcome b.subscriptions[p]? := by
    intro p hp
    have hs := List.getElem?_eq_getElem (h.lt hp)
    rw [hkept.resolved p _ hs, Option.head?_toList, hs]
    rfl
  calc b.ready promises
      = promises.findSome? fun p => outcome b.subscriptions[p]? := findSome?_congr hpromise
    _ = (promises.map (b.subscriptions[·]?)).findSome? outcome := by
      rw [List.findSome?_map]
      rfl
    _ = held.findSome? fun x => outcome (some ⟨x.1, 1, fun _ => true, x.2⟩) := by
      rw [show promises.map (b.subscriptions[·]?) = _ from h, List.findSome?_map]
      rfl
    _ = firstHeard kind b.dispatched held :=
      findSome?_congr fun x _ => outcome_one x.1 b.dispatched

theorem firstHeard_eq_none :
    firstHeard kind es held = none ↔ ∀ x ∈ held, ∀ e ∈ es.drop x.2, kind e ≠ x.1 := by
  simp [firstHeard]

/-- With no event before, the next one is heard if it is of one of the kinds. -/
theorem firstHeard_concat (hle : ∀ x ∈ held, x.2 ≤ es.length) (h : firstHeard kind es held = none) :
    firstHeard kind (es ++ [e]) held = if kind e ∈ held.map Prod.fst then some e else none := by
  have hone : ∀ x ∈ held, ((es ++ [e]).drop x.2).find? (fun e => decide (kind e = x.1)) =
      if kind e = x.1 then some e else none := by
    intro x hx
    have hbefore : (es.drop x.2).find? (fun e => decide (kind e = x.1)) = none :=
      List.find?_eq_none.mpr fun e' he' => by simpa using firstHeard_eq_none.mp h x hx e' he'
    rw [List.drop_append_of_le_length (hle x hx), List.find?_append, hbefore, Option.none_or,
      List.find?_singleton]
    simp
  rw [firstHeard, findSome?_congr hone]
  split
  · rename_i hk
    obtain ⟨x, hx, hkx⟩ := List.mem_map.mp hk
    cases hfind : held.findSome? fun x => if kind e = x.1 then some e else none with
    | none => exact absurd (List.findSome?_eq_none_iff.mp hfind x hx) (by simp [hkx])
    | some e' =>
      obtain ⟨y, -, hy⟩ := List.exists_of_findSome?_eq_some hfind
      split at hy
      · exact hy.symm
      · cases hy
  · rename_i hk
    refine List.findSome?_eq_none_iff.mpr fun x hx => if_neg fun hkx => ?_
    exact hk (List.mem_map.mpr ⟨x, hx, hkx.symm⟩)

/-- What a wait gets that looks at its promises after `w` of the events `es`, and takes
what comes next if none of them has its event by then. -/
def awaited (kind : E → K) (es : List E) (held : List (K × ℕ)) (w : ℕ) : Option E :=
  (firstHeard kind (es.take w) held).or ((es.drop w).find? fun e => decide (kind e ∈ held.map Prod.fst))

theorem awaited_length : awaited kind es held es.length = firstHeard kind es held := by
  simp [awaited]

theorem awaited_concat (hw : w ≤ es.length) :
    awaited kind (es ++ [e]) held w =
      (awaited kind es held w).or (if kind e ∈ held.map Prod.fst then some e else none) := by
  unfold awaited
  rw [List.take_append_of_le_length hw, List.drop_append_of_le_length hw, List.find?_append,
    List.find?_singleton, Option.or_assoc]
  by_cases hk : kind e ∈ held.map Prod.fst
  · rw [if_pos hk, if_pos (decide_eq_true hk)]
  · rw [if_neg hk, if_neg (by simpa using hk)]

/-- As long as a wait got nothing, none of its promises has an event. -/
theorem firstHeard_of_awaited (hle : ∀ x ∈ held, x.2 ≤ w) (h : awaited kind es held w = none) :
    firstHeard kind es held = none := by
  obtain ⟨hbefore, hafter⟩ := Option.or_eq_none_iff.mp h
  rw [firstHeard_eq_none] at hbefore ⊢
  intro x hx e he hk
  by_cases hw : w ≤ es.length
  · have hlen : x.2 ≤ (es.take w).length := by
      have := hle x hx
      rw [List.length_take]
      omega
    rw [← List.take_append_drop w es, List.drop_append_of_le_length hlen, List.mem_append] at he
    rcases he with he | he
    · exact hbefore x hx e he hk
    · have hno := List.find?_eq_none.mp hafter e he
      exact hno (decide_eq_true (hk ▸ List.mem_map_of_mem hx))
  · rw [List.take_of_length_le (by omega)] at hbefore
    exact hbefore x hx e he hk

/-- A wait for which nothing came while it got ready gets the first event of its kinds since it began. -/
theorem awaited_of_quiet (hsince : ∀ x ∈ held, since ≤ x.2) (hw : since ≤ w)
    (hquiet : ∀ e ∈ (es.take w).drop since, kind e ∉ held.map Prod.fst) :
    awaited kind es held w = (es.drop since).find? fun e => decide (kind e ∈ held.map Prod.fst) := by
  have hbefore : firstHeard kind (es.take w) held = none := by
    refine firstHeard_eq_none.mpr fun x hx e he hk => ?_
    have hlater : (es.take w).drop x.2 = ((es.take w).drop since).drop (x.2 - since) := by
      rw [List.drop_drop, show since + (x.2 - since) = x.2 by have := hsince x hx; omega]
    rw [hlater] at he
    exact hquiet e (List.mem_of_mem_drop he) (hk ▸ List.mem_map_of_mem hx)
  have hsplit : es.drop since = (es.take w).drop since ++ es.drop w := by
    have hrest : es.drop w = (es.drop since).drop (w - since) := by
      rw [List.drop_drop, show since + (w - since) = w by omega]
    rw [List.drop_take, hrest, List.take_append_drop]
  have hnone : ((es.take w).drop since).find? (fun e => decide (kind e ∈ held.map Prod.fst)) = none :=
    List.find?_eq_none.mpr fun e he => by simpa using hquiet e he
  rw [awaited, hbefore, Option.none_or, hsplit, List.find?_append, hnone, Option.none_or]

end Several

end Krapi.Lib.Subscriptions
