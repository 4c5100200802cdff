import Mathlib

/-! # Runs of a total step function

A system is a step function from a state and an action to the next state; an
action that is not enabled leaves the state alone. `run` folds a list of
actions, so "every reachable state" is "the state after any list of actions",
and `Along` says that every action of a run is taken where a side condition
holds. The rules below turn what one step keeps into what a whole run keeps. -/
namespace Krapi.Lib.Run

variable {S A : Type*} {f : S → A → S}

/-- The state after performing `as` in order. -/
def run (f : S → A → S) (s : S) (as : List A) : S := as.foldl f s

/-- Every action of the run from `s` is taken in a state where `ok` allows it. -/
def Along (f : S → A → S) (ok : S → A → Prop) : S → List A → Prop
  | _, [] => True
  | s, a :: as => ok s a ∧ Along f ok (f s a) as

instance Along.decidable (ok : S → A → Prop) [∀ s a, Decidable (ok s a)] :
    ∀ s as, Decidable (Along f ok s as)
  | _, [] => isTrue trivial
  | s, a :: as =>
    letI := Along.decidable ok (f s a) as
    inferInstanceAs (Decidable (_ ∧ Along f ok (f s a) as))

/-- Whether a run was allowed and how it ends is told by going through it once. -/
instance Along.decidableAnd (ok : S → A → Prop) [∀ s a, Decidable (ok s a)] (p : S → Prop) [DecidablePred p] :
    ∀ s as, Decidable (Along f ok s as ∧ p (run f s as))
  | s, [] => decidable_of_iff (p s) (iff_of_eq (true_and (p s)).symm)
  | s, a :: as =>
    letI := Along.decidableAnd ok p (f s a) as
    decidable_of_iff (ok s a ∧ Along f ok (f s a) as ∧ p (run f (f s a) as)) and_assoc.symm

@[simp] theorem run_nil (s : S) : run f s [] = s := rfl

@[simp] theorem run_cons (s : S) (a : A) (as : List A) : run f s (a :: as) = run f (f s a) as := rfl

theorem run_append (s : S) (as bs : List A) : run f s (as ++ bs) = run f (run f s as) bs :=
  List.foldl_append

theorem run_concat (s : S) (as : List A) (a : A) : run f s (as ++ [a]) = f (run f s as) a := by
  rw [run_append]
  rfl

/-- An action of which a run has at most one has one position in it. -/
theorem eq_of_nodup_filterMap {B : Type*} {g : A → Option B} {v : B} :
    ∀ {as : List A} {i j : ℕ} {a b : A}, (as.filterMap g).Nodup → as[i]? = some a → as[j]? = some b →
      g a = some v → g b = some v → i = j
  | [], _, _, _, _, _, ha, _, _, _ => by simp at ha
  | x :: as, i, j, a, b, hnodup, ha, hb, hga, hgb => by
    have hrest : (as.filterMap g).Nodup := by
      cases hx : g x with
      | none => rwa [List.filterMap_cons_none hx] at hnodup
      | some w =>
        rw [List.filterMap_cons_some hx] at hnodup
        exact hnodup.of_cons
    have hfirst : ∀ {k : ℕ} {c : A}, g x = some v → as[k]? = some c → g c = some v → False := by
      intro k c hx hc hgc
      rw [List.filterMap_cons_some hx] at hnodup
      exact (List.nodup_cons.mp hnodup).1 (List.mem_filterMap.mpr ⟨c, List.mem_of_getElem? hc, hgc⟩)
    cases i with
    | zero =>
      cases ha
      cases j with
      | zero => rfl
      | succ j => exact (hfirst hga (by simpa using hb) hgb).elim
    | succ i =>
      cases j with
      | zero =>
        cases hb
        exact (hfirst hgb (by simpa using ha) hga).elim
      | succ j =>
        have hij : i = j := eq_of_nodup_filterMap hrest (by simpa using ha) (by simpa using hb) hga hgb
        rw [hij]

/-- What every step keeps, every run keeps. -/
theorem run_keeps {I : S → Prop} (step : ∀ s a, I s → I (f s a)) :
    ∀ (as : List A) {s : S}, I s → I (run f s as)
  | [], _, h => h
  | a :: as, s, h => run_keeps step as (step s a h)

/-- What every step of a kind keeps, every run of such steps keeps. -/
theorem run_keeps_of_forall {I : S → Prop} {p : A → Prop} (step : ∀ s a, p a → I s → I (f s a)) :
    ∀ (as : List A) {s : S}, (∀ a ∈ as, p a) → I s → I (run f s as)
  | [], _, _, h => h
  | a :: as, s, hp, h =>
    run_keeps_of_forall step as (fun b hb => hp b (by simp [hb])) (step s a (hp a (by simp)) h)

/-- What every allowed step keeps, every run of allowed steps keeps. -/
theorem run_keeps_along {ok : S → A → Prop} {I : S → Prop}
    (step : ∀ s a, ok s a → I s → I (f s a)) :
    ∀ (as : List A) {s : S}, Along f ok s as → I s → I (run f s as)
  | [], _, _, h => h
  | a :: as, s, hok, h => run_keeps_along step as hok.2 (step s a hok.1 h)

theorem along_append {ok : S → A → Prop} :
    ∀ (as bs : List A) (s : S), Along f ok s (as ++ bs) ↔ Along f ok s as ∧ Along f ok (run f s as) bs
  | [], _, _ => by simp [Along]
  | a :: as, bs, s => by simp [Along, along_append as bs, and_assoc]

/-- The condition holds of each action in the state the run has reached before it. -/
theorem Along.getElem? {ok : S → A → Prop} :
    ∀ {as : List A} {s : S} {j : ℕ} {a : A}, Along f ok s as → as[j]? = some a →
      ok (run f s (as.take j)) a
  | [], _, _, _, _, ha => by simp at ha
  | b :: as, s, 0, a, h, ha => by
    cases ha
    exact h.1
  | b :: as, s, j + 1, a, h, ha => h.2.getElem? (j := j) (by simpa using ha)

/-- A condition on the actions alone can be added to the condition on the steps. -/
theorem Along.and_of_forall {ok : S → A → Prop} {p : A → Prop} :
    ∀ {as : List A} {s : S}, Along f ok s as → (∀ a ∈ as, p a) →
      Along f (fun s a => p a ∧ ok s a) s as
  | [], _, _, _ => trivial
  | a :: as, s, h, hp => ⟨⟨hp a (by simp), h.1⟩, h.2.and_of_forall fun b hb => hp b (by simp [hb])⟩

/-- A condition on the steps may be replaced by one that it implies under an
invariant of the runs that meet it. -/
theorem Along.imp_of_inv {ok good : S → A → Prop} {I : S → Prop} (keep : ∀ s a, ok s a → I s → I (f s a))
    (imp : ∀ s a, I s → ok s a → good s a) :
    ∀ {as : List A} {s : S}, Along f ok s as → I s → Along f good s as
  | [], _, _, _ => trivial
  | a :: _, s, h, hs => ⟨imp s a hs h.1, h.2.imp_of_inv keep imp (keep s a h.1 hs)⟩

/-- Where an invariant makes two conditions on a step the same, they are the same along every run. -/
theorem along_congr {ok good : S → A → Prop} {I : S → Prop} {p : A → Prop}
    (keep : ∀ s a, p a → I s → I (f s a)) (same : ∀ s a, p a → I s → (ok s a ↔ good s a)) :
    ∀ (as : List A) {s : S}, (∀ a ∈ as, p a) → I s → (Along f ok s as ↔ Along f good s as)
  | [], _, _, _ => Iff.rfl
  | a :: as, s, hp, hs => by
    have hpa : p a := hp a (by simp)
    have hrest := along_congr keep same as (fun b hb => hp b (by simp [hb])) (keep s a hpa hs)
    exact and_congr (same s a hpa hs) hrest

/-- What the actions of a run cost together. -/
def spent (f : S → A → S) (cost : S → A → ℕ) : S → List A → ℕ
  | _, [] => 0
  | s, a :: as => cost s a + spent f cost (f s a) as

/-- When every step pays its cost out of a budget, the budget pays for the run. -/
theorem spent_add_le {I : S → Prop} (cost : S → A → ℕ) (budget : S → ℕ) (keep : ∀ s a, I s → I (f s a))
    (step : ∀ s a, I s → cost s a + budget (f s a) ≤ budget s) :
    ∀ (as : List A) {s : S}, I s → spent f cost s as + budget (run f s as) ≤ budget s
  | [], s, _ => by simp [spent]
  | a :: as, s, h => by
    have hfirst := step s a h
    have hrest := spent_add_le cost budget keep step as (keep s a h)
    simp only [spent, run_cons]
    omega

/-- A meter that every step advances by its cost shows what the run cost. -/
theorem meter_run (cost : S → A → ℕ) (meter : S → ℤ) (step : ∀ s a, meter (f s a) = meter s + cost s a) :
    ∀ (as : List A) (s : S), meter (run f s as) = meter s + spent f cost s as
  | [], s => by simp [spent]
  | a :: as, s => by
    rw [run_cons, meter_run cost meter step as, step, spent, Nat.cast_add]
    ring

/-- A run costs nothing exactly if none of its steps does. -/
theorem spent_eq_zero_iff (cost : S → A → ℕ) :
    ∀ (as : List A) (s : S), spent f cost s as = 0 ↔ Along f (fun s a => cost s a = 0) s as
  | [], _ => by simp [spent, Along]
  | a :: as, s => by rw [spent, Along, Nat.add_eq_zero_iff, spent_eq_zero_iff cost as]

/-- A quantity never decreases along a run exactly if no step decreases it. -/
theorem mono_iff_along {N : Type*} [Preorder N] (m : S → N) :
    ∀ (as : List A) (s : S),
      (∀ pre mid, pre ++ mid <+: as → m (run f s pre) ≤ m (run f s (pre ++ mid))) ↔
        Along f (fun s a => m s ≤ m (f s a)) s as
  | [], s => by
    refine ⟨fun _ => trivial, fun _ pre mid h => ?_⟩
    obtain ⟨rfl, rfl⟩ := List.append_eq_nil_iff.mp (List.prefix_nil.mp h)
    exact le_rfl
  | a :: as, s => by
    constructor
    · intro hall
      refine ⟨hall [] [a] (by simp), (mono_iff_along m as (f s a)).mp ?_⟩
      intro pre mid h
      exact hall (a :: pre) mid (List.cons_prefix_cons.mpr ⟨rfl, h⟩)
    · intro ⟨hfirst, hrest⟩ pre mid h
      have hlater := (mono_iff_along m as (f s a)).mpr hrest
      cases pre with
      | cons b pre =>
        obtain ⟨rfl, hpre⟩ := List.cons_prefix_cons.mp h
        exact hlater pre mid hpre
      | nil =>
        cases mid with
        | nil => exact le_rfl
        | cons b mid =>
          obtain ⟨rfl, hmid⟩ := List.cons_prefix_cons.mp h
          exact hfirst.trans (hlater [] mid hmid)

/-- When, from a state with `I`, an action of the kind `p` is allowed exactly if
it keeps `I`, then `I` holds in every state that a run of such actions passes
exactly if all of them are allowed. The equivalence of one step may rest on an
invariant `J`. -/
theorem throughout_iff_along_of_forall {ok : S → A → Prop} {I J : S → Prop} {p : A → Prop}
    (keep : ∀ s a, p a → J s → J (f s a))
    (step : ∀ s a, p a → J s → I s → (ok s a ↔ I (f s a))) :
    ∀ (as : List A) {s : S}, (∀ a ∈ as, p a) → J s → I s →
      ((∀ pre, pre <+: as → I (run f s pre)) ↔ Along f ok s as)
  | [], s, _, _, h => by
    refine ⟨fun _ => trivial, fun _ pre hpre => ?_⟩
    rw [List.prefix_nil.mp hpre]; exact h
  | a :: as, s, hp, hJ, h => by
    have hpa : p a := hp a (by simp)
    have hpas : ∀ b ∈ as, p b := fun b hb => hp b (by simp [hb])
    have hJa : J (f s a) := keep s a hpa hJ
    constructor
    · intro hall
      have hnext : I (f s a) := hall [a] (by simp)
      refine ⟨(step s a hpa hJ h).mpr hnext, ?_⟩
      apply (throughout_iff_along_of_forall keep step as hpas hJa hnext).mp
      intro pre hpre
      exact hall (a :: pre) (List.cons_prefix_cons.mpr ⟨rfl, hpre⟩)
    · intro ⟨hok, hrest⟩ pre hpre
      cases pre with
      | nil => exact h
      | cons b pre =>
        obtain ⟨rfl, hrestPre⟩ := List.cons_prefix_cons.mp hpre
        have hnext : I (f s b) := (step s b hpa hJ h).mp hok
        exact (throughout_iff_along_of_forall keep step as hpas hJa hnext).mpr hrest pre hrestPre

theorem throughout_iff_along_of_inv {ok : S → A → Prop} {I J : S → Prop}
    (keep : ∀ s a, J s → J (f s a)) (step : ∀ s a, J s → I s → (ok s a ↔ I (f s a))) (as : List A) {s : S}
    (hJ : J s) (hI : I s) : (∀ pre, pre <+: as → I (run f s pre)) ↔ Along f ok s as :=
  throughout_iff_along_of_forall (p := fun _ => True) (fun s a _ => keep s a) (fun s a _ => step s a) as
    (fun _ _ => trivial) hJ hI

theorem throughout_iff_along {ok : S → A → Prop} {I : S → Prop}
    (step : ∀ s a, I s → (ok s a ↔ I (f s a))) (as : List A) {s : S} (hI : I s) :
    (∀ pre, pre <+: as → I (run f s pre)) ↔ Along f ok s as :=
  throughout_iff_along_of_inv (J := fun _ => True) (fun _ _ _ => trivial) (fun s a _ => step s a) as trivial hI

end Krapi.Lib.Run
