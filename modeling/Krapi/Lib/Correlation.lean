import Mathlib

/-! # Answers matched by key

A desk hands out awaitables under keys and sees events one after another. An
event with a key settles the promise pending under that key, if there is one.
When no key is registered while it is pending, every awaitable gets the first
event with its key that comes after its registration, and nothing else: the
desk needs no more memory than the pending keys to do so. -/
namespace Krapi.Lib.Correlation

variable {K E : Type*}

/-- The key an awaitable was registered under, and how many events came before. -/
structure Awaitable (K : Type*) where
  key : K
  since : ℕ
  deriving Repr, DecidableEq

/-- Awaitables are numbered as they are handed out; `processed` and `results`
are logs. -/
structure Desk (K E : Type*) where
  pending : K → Option ℕ
  awaitables : List (Awaitable K)
  processed : List E
  results : List (ℕ × E)

def Desk.empty : Desk K E := ⟨fun _ => none, [], [], []⟩

/-- What the awaitable is to get out of the events `es`: the first one after its
registration that has its key. -/
def answer [DecidableEq K] (key : E → Option K) (es : List E) (a : Awaitable K) : Option E :=
  (es.drop a.since).find? fun e => decide (key e = some a.key)

/-- The events that awaitable `i` was resolved with, in a log of results. -/
def resultsOf (results : List (ℕ × E)) (i : ℕ) : List E :=
  (results.filter fun r => r.1 = i).map Prod.snd

theorem resultsOf_append (results : List (ℕ × E)) (e : E) (i j : ℕ) :
    resultsOf (results ++ [(i, e)]) j = resultsOf results j ++ if j = i then [e] else [] := by
  unfold resultsOf
  rw [List.filter_append, List.map_append]
  congr 1
  by_cases hji : j = i
  · simp [hji]
  · have hij : i ≠ j := Ne.symm hji
    simp [hji, hij]

variable [DecidableEq K]

/-- A taken key stays with the promise that has it. -/
def Desk.register (d : Desk K E) (k : K) : Desk K E :=
  { d with
    pending := if (d.pending k).isSome then d.pending
      else Function.update d.pending k (some d.awaitables.length)
    awaitables := d.awaitables ++ [⟨k, d.processed.length⟩] }

/-- The promise under `k`, if there is one, gets the event and is gone. -/
def Desk.settle (d : Desk K E) (k : K) (e : E) : Desk K E :=
  match d.pending k with
  | none => d
  | some i => { d with pending := Function.update d.pending k none, results := d.results ++ [(i, e)] }

def Desk.process (key : E → Option K) (d : Desk K E) (e : E) : Desk K E :=
  let d := { d with processed := d.processed ++ [e] }
  match key e with
  | none => d
  | some k => d.settle k e

section Answer
variable {key : E → Option K} {es : List E} {e : E} {a : Awaitable K}

theorem answer_none_of_length_le (h : es.length ≤ a.since) : answer key es a = none := by
  rw [answer, List.drop_of_length_le h]
  rfl

/-- A further event is the answer exactly if it has the key and there was none before. -/
theorem answer_append (h : a.since ≤ es.length) :
    answer key (es ++ [e]) a =
      (answer key es a).or (if key e = some a.key then some e else none) := by
  rw [answer, answer, List.drop_append_of_le_length h, List.find?_append]
  congr 1
  by_cases hk : key e = some a.key <;> simp [hk]

end Answer

/-- The desk's promises are the awaitables without an answer, and every awaitable
was resolved with its answer as soon as there is one. -/
structure Correlated (key : E → Option K) (d : Desk K E) : Prop where
  since_le : ∀ a ∈ d.awaitables, a.since ≤ d.processed.length
  pending_iff : ∀ k i, d.pending k = some i ↔
    ∃ a, d.awaitables[i]? = some a ∧ a.key = k ∧ answer key d.processed a = none
  resolved : ∀ i a, d.awaitables[i]? = some a → resultsOf d.results i = (answer key d.processed a).toList
  addressed : ∀ r ∈ d.results, ∃ a, d.awaitables[r.1]? = some a ∧ key r.2 = some a.key

section Steps
variable {key : E → Option K} {d : Desk K E} {k : K} {e : E} {i : ℕ} {a : Awaitable K}

theorem correlated_empty (key : E → Option K) : Correlated key (Desk.empty : Desk K E) where
  since_le := by intro a ha; cases ha
  pending_iff := by intro k i; simp [Desk.empty]
  resolved := by intro i a ha; simp [Desk.empty] at ha
  addressed := by intro r hr; cases hr

theorem Correlated.resultsOf_eq_nil (h : Correlated key d) (hi : d.awaitables.length ≤ i) :
    resultsOf d.results i = [] := by
  rw [resultsOf, List.map_eq_nil_iff, List.filter_eq_nil_iff]
  intro r hr hri
  obtain ⟨a, ha, _⟩ := h.addressed r hr
  have hlt : r.1 < d.awaitables.length := (List.getElem?_eq_some_iff.mp ha).1
  have : r.1 = i := by simpa using hri
  omega

theorem getElem?_register :
    (d.register k).awaitables[i]? = some a ↔
      d.awaitables[i]? = some a ∨ i = d.awaitables.length ∧ a = ⟨k, d.processed.length⟩ := by
  show (d.awaitables ++ [_])[i]? = some a ↔ _
  rcases lt_trichotomy i d.awaitables.length with hi | rfl | hi
  · rw [List.getElem?_append_left hi]
    have hne : i ≠ d.awaitables.length := by omega
    simp [hne]
  · rw [List.getElem?_concat_length]
    simp [eq_comm]
  · have hne : i ≠ d.awaitables.length := by omega
    have hle : d.awaitables.length ≤ i := by omega
    rw [List.getElem?_eq_none (by rw [List.length_append, List.length_singleton]; omega)]
    simp [hne, hle]

/-- Registering a key that is not pending keeps the desk right. -/
theorem Correlated.register (h : Correlated key d) (hk : d.pending k = none) :
    Correlated key (d.register k) := by
  have hnew : answer key d.processed ⟨k, d.processed.length⟩ = none := answer_none_of_length_le le_rfl
  have hpending : (d.register k).pending = Function.update d.pending k (some d.awaitables.length) := by
    simp [Desk.register, hk]
  refine ⟨?_, ?_, ?_, ?_⟩
  · intro a ha
    rcases List.mem_append.mp ha with ha | ha
    · exact h.since_le a ha
    · rw [List.mem_singleton.mp ha]; exact le_rfl
  · intro k' i
    simp only [getElem?_register, hpending]
    by_cases hkk : k' = k
    · subst hkk
      rw [Function.update_self]
      constructor
      · intro hi
        cases hi
        exact ⟨_, .inr ⟨rfl, rfl⟩, rfl, hnew⟩
      · rintro ⟨a, ha | ⟨rfl, _⟩, hak, hnone⟩
        · have hi : d.pending k' = some i := (h.pending_iff k' i).mpr ⟨a, ha, hak, hnone⟩
          rw [hk] at hi; cases hi
        · rfl
    · rw [Function.update_of_ne hkk, h.pending_iff]
      constructor
      · rintro ⟨a, ha, hrest⟩
        exact ⟨a, .inl ha, hrest⟩
      · rintro ⟨a, ha | ⟨_, rfl⟩, hak, hnone⟩
        · exact ⟨a, ha, hak, hnone⟩
        · exact absurd hak.symm hkk
  · intro i a ha
    rcases getElem?_register.mp ha with ha | ⟨rfl, rfl⟩
    · exact h.resolved i a ha
    · show resultsOf d.results d.awaitables.length = (answer key d.processed _).toList
      rw [h.resultsOf_eq_nil le_rfl, hnew]
      rfl
  · intro r hr
    obtain ⟨a, ha, hkey⟩ := h.addressed r hr
    exact ⟨a, getElem?_register.mpr (.inl ha), hkey⟩

/-- An event whose key is not pending answers nobody. -/
theorem Correlated.answer_unchanged (h : Correlated key d) (hk : ∀ k ∈ key e, d.pending k = none)
    (ha : d.awaitables[i]? = some a) :
    answer key (d.processed ++ [e]) a = answer key d.processed a := by
  rw [answer_append (h.since_le a (List.mem_of_getElem? ha))]
  split
  · rename_i hkey
    cases hans : answer key d.processed a with
    | none =>
      have hi : d.pending a.key = some i := (h.pending_iff _ i).mpr ⟨a, ha, rfl, hans⟩
      rw [hk a.key hkey] at hi; cases hi
    | some x => rfl
  · rw [Option.or_none]

/-- An event with a pending key answers the awaitable of the promise and no other. -/
theorem Correlated.answer_settled (h : Correlated key d) (hk : key e = some k)
    (hi : d.pending k = some i) {j : ℕ} (ha : d.awaitables[j]? = some a) :
    answer key (d.processed ++ [e]) a = if j = i then some e else answer key d.processed a := by
  rw [answer_append (h.since_le a (List.mem_of_getElem? ha))]
  obtain ⟨b, hb, hbk, hnone⟩ := (h.pending_iff k i).mp hi
  by_cases hji : j = i
  · subst hji
    have hab : a = b := by rw [hb] at ha; exact (Option.some.inj ha).symm
    rw [hab, hnone, hbk, if_pos hk, if_pos rfl]
    rfl
  · rw [if_neg hji]
    cases hans : answer key d.processed a with
    | some x => rfl
    | none =>
      have hother : key e ≠ some a.key := by
        intro hkey
        rw [hk] at hkey
        have hj : d.pending k = some j := (h.pending_iff k j).mpr ⟨a, ha, (Option.some.inj hkey).symm, hans⟩
        rw [hi] at hj
        exact hji (Option.some.inj hj).symm
      rw [if_neg hother]
      rfl

theorem Correlated.since_le_append (h : Correlated key d) (e : E) :
    ∀ a ∈ d.awaitables, a.since ≤ (d.processed ++ [e]).length := by
  intro a ha
  have hle := h.since_le a ha
  rw [List.length_append]
  omega

theorem Correlated.log (h : Correlated key d) (hk : ∀ k ∈ key e, d.pending k = none) :
    Correlated key { d with processed := d.processed ++ [e] } := by
  refine ⟨h.since_le_append e, ?_, ?_, h.addressed⟩
  · intro k i
    rw [show d.pending k = some i ↔ _ from h.pending_iff k i]
    apply exists_congr
    intro a
    apply and_congr_right
    intro ha
    rw [h.answer_unchanged hk ha]
  · intro i a ha
    rw [h.answer_unchanged hk ha]
    exact h.resolved i a ha

theorem Correlated.settle (h : Correlated key d) (hk : key e = some k) (hi : d.pending k = some i) :
    Correlated key
      { d with
        processed := d.processed ++ [e]
        pending := Function.update d.pending k none
        results := d.results ++ [(i, e)] } := by
  obtain ⟨b, hb, hbk, hnone⟩ := (h.pending_iff k i).mp hi
  refine ⟨h.since_le_append e, ?_, ?_, ?_⟩
  · intro k' j
    by_cases hkk : k' = k
    · -- nobody waits under the key any more
      subst hkk
      simp only [Function.update_self, reduceCtorEq, false_iff]
      rintro ⟨a, ha, hak, hans⟩
      rw [h.answer_settled hk hi ha] at hans
      split at hans
      · cases hans
      · rename_i hji
        have hj : d.pending k' = some j := (h.pending_iff k' j).mpr ⟨a, ha, hak, hans⟩
        rw [hi] at hj
        exact hji (Option.some.inj hj).symm
    · simp only [Function.update_of_ne hkk, h.pending_iff]
      apply exists_congr
      intro a
      apply and_congr_right
      intro ha
      apply and_congr_right
      intro hak
      have hji : j ≠ i := by
        rintro rfl
        rw [ha] at hb
        cases hb
        exact hkk (hak.symm.trans hbk)
      rw [h.answer_settled hk hi ha, if_neg hji]
  · intro j a ha
    have hold : resultsOf d.results j = (answer key d.processed a).toList := h.resolved j a ha
    rw [h.answer_settled hk hi ha, resultsOf_append, hold]
    by_cases hji : j = i
    · rw [← hji, ha] at hb
      cases hb
      rw [hnone, if_pos hji, if_pos hji]
      rfl
    · rw [if_neg hji, if_neg hji, List.append_nil]
  · intro r hr
    rcases List.mem_append.mp hr with hr | hr
    · exact h.addressed r hr
    · rw [List.mem_singleton.mp hr]
      exact ⟨b, hb, by rw [hbk]; exact hk⟩

/-- Whatever event comes next, the desk stays right. -/
theorem Correlated.process (h : Correlated key d) (e : E) : Correlated key (d.process key e) := by
  unfold Desk.process
  cases hk : key e with
  | none => exact h.log (by rw [hk]; intro k hk; cases hk)
  | some k =>
    simp only [Desk.settle]
    cases hi : d.pending k with
    | none => exact h.log (by rw [hk]; intro k' hk'; cases hk'; exact hi)
    | some i => exact h.settle hk hi

end Steps

end Krapi.Lib.Correlation
