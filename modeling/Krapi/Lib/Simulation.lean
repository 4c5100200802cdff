import Krapi.Lib.Run

/-! # Simulations between two step functions

A run of one system is matched by a run of another when each of its steps is
matched by some steps. In lockstep, the matching state is carried along; backwards,
it is chosen at the end of the run, so that a step that settles late what the
other system settled early can still be matched. -/
namespace Krapi.Lib.Simulation
open Krapi.Lib.Run

variable {S T A B : Type*} {f : S → A → S} {g : T → B → T}

/-- Where each step is matched by one step, runs are matched action by action. -/
theorem lockstep {R : S → T → Prop} (matched : A → B)
    (step : ∀ s t a, R s t → R (f s a) (g t (matched a))) :
    ∀ (as : List A) {s : S} {t : T}, R s t → R (run f s as) (run g t (as.map matched))
  | [], _, _, h => h
  | a :: as, s, t, h => lockstep matched step as (step s t a h)

/-- Every state related to where a step leads is reached from one related to where
it began; `I` is what the first system keeps on its own. -/
theorem backward {I : S → Prop} {R : S → T → Prop} (keep : ∀ s a, I s → I (f s a))
    (step : ∀ s a t', I s → R (f s a) t' → ∃ t, R s t ∧ ∃ bs, run g t bs = t') :
    ∀ (as : List A) {s : S} {t' : T}, I s → R (run f s as) t' → ∃ t, R s t ∧ ∃ bs, run g t bs = t'
  | [], _, t', _, h => ⟨t', h, [], rfl⟩
  | a :: as, s, t', hs, h => by
    obtain ⟨t₁, ht₁, bs₁, rfl⟩ := backward keep step as (keep s a hs) h
    obtain ⟨t, ht, bs, rfl⟩ := step s a t₁ hs ht₁
    exact ⟨t, ht, bs ++ bs₁, run_append t bs bs₁⟩

end Krapi.Lib.Simulation
