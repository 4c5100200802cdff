import Krapi.Lib.Timeline

/-! # Two chains from one root

Two lists of records, each naming the one before it, start at one root. Where a
name stands for one record in both, a record that both list has the same place in
both, and all before it is shared: the lists are one stem and two branches that
have no name in common. A list that grows at its end keeps its branch, so where
two branches have begun nothing that grows later joins them. -/
namespace Krapi.Lib.Branches
open Krapi.Lib.Timeline

variable {α T K : Type*} [LinearOrder T] {L : Links α T K} {P Q P' Q' : List α} {root a b : α} {i j : ℕ}

/-- A name that both lists use stands for one record. -/
def OneName (L : Links α T K) (P Q : List α) : Prop := ∀ a ∈ P, ∀ b ∈ Q, L.key a = L.key b → a = b

/-- **What both list has one past.** A record of both stands at one position in
both, and the lists agree up to it. -/
theorem take_eq_of_shared (hP : Listed L P) (hQ : Listed L Q) (hname : OneName L P Q)
    (hrootP : P[0]? = some root) (hrootQ : Q[0]? = some root) (hi : P[i]? = some a) (hj : Q[j]? = some b)
    (he : L.key a = L.key b) : i = j ∧ P.take (i + 1) = Q.take (j + 1) := by
  induction i generalizing j a b with
  | zero =>
    have ha : a = root := by
      rw [hrootP] at hi
      cases hi
      rfl
    have hjzero : 0 = j := hQ.key_inj hrootQ hj (ha ▸ he)
    subst hjzero
    refine ⟨rfl, ?_⟩
    rw [List.take_add_one, List.take_add_one, hrootP, hrootQ]
    rfl
  | succ i ih =>
    have hab : a = b := hname a (List.mem_of_getElem? hi) b (List.mem_of_getElem? hj) he
    subst hab
    obtain ⟨c, hc⟩ : ∃ c, P[i]? = some c :=
      ⟨_, List.getElem?_eq_getElem (Nat.lt_of_succ_lt (List.getElem?_eq_some_iff.mp hi).1)⟩
    cases j with
    | zero =>
      -- the root is at position 0 of `P`, so it is not at `i + 1`
      have hroot : a = root := by
        rw [hrootQ] at hj
        cases hj
        rfl
      exact absurd (hP.key_inj hi hrootP (by rw [hroot])) (Nat.succ_ne_zero i)
    | succ j =>
      obtain ⟨d, hd⟩ : ∃ d, Q[j]? = some d :=
        ⟨_, List.getElem?_eq_getElem (Nat.lt_of_succ_lt (List.getElem?_eq_some_iff.mp hj).1)⟩
      have hcd : L.key c = L.key d := (hP.prev_eq hc hi).symm.trans (hQ.prev_eq hd hj)
      obtain ⟨hij, htake⟩ := ih hc hd hcd
      refine ⟨congrArg (· + 1) hij, ?_⟩
      rw [List.take_add_one, htake, hi, List.take_add_one (i := j + 1), hj]

/-- One stem, and two branches of which neither uses a name of the other list. -/
structure Fork (L : Links α T K) (stem branch branch' : List α) : Prop where
  left : ∀ a ∈ branch, ∀ b ∈ stem ++ branch', L.key a ≠ L.key b
  right : ∀ a ∈ branch', ∀ b ∈ stem ++ branch, L.key a ≠ L.key b

/-- **Stem and branches.** Two chains from one root part in one place. -/
theorem exists_fork (hP : Listed L P) (hQ : Listed L Q) (hname : OneName L P Q)
    (hrootP : P[0]? = some root) (hrootQ : Q[0]? = some root) :
    ∃ stem branch branch', P = stem ++ branch ∧ Q = stem ++ branch' ∧ stem ≠ [] ∧ Fork L stem branch branch' := by
  classical
  -- the stem is the longest prefix on which the lists agree
  let Agree (k : ℕ) : Prop := k ≤ P.length ∧ P.take k = Q.take k
  have hone : Agree 1 := by
    refine ⟨(List.getElem?_eq_some_iff.mp hrootP).1, ?_⟩
    rw [List.take_add_one, List.take_add_one, hrootP, hrootQ]
    rfl
  obtain ⟨k, hk, hmax⟩ : ∃ k, Agree k ∧ ∀ m, Agree m → m ≤ k := by
    have hle : 1 ≤ P.length := hone.1
    refine ⟨Nat.findGreatest Agree P.length, Nat.findGreatest_spec hle hone, ?_⟩
    intro m hm
    exact Nat.le_findGreatest hm.1 hm
  have hapart : ∀ a ∈ P.drop k, ∀ b ∈ Q, L.key a ≠ L.key b := by
    intro a ha b hb he
    obtain ⟨i, hi⟩ := List.mem_iff_getElem?.mp ha
    obtain ⟨j, hj⟩ := List.mem_iff_getElem?.mp hb
    rw [List.getElem?_drop] at hi
    obtain ⟨hij, htake⟩ := take_eq_of_shared hP hQ hname hrootP hrootQ hi hj he
    have hlonger : Agree (k + i + 1) := ⟨(List.getElem?_eq_some_iff.mp hi).1, hij ▸ htake⟩
    have hle := hmax _ hlonger
    omega
  have hapart' : ∀ a ∈ Q.drop k, ∀ b ∈ P, L.key a ≠ L.key b := by
    intro a ha b hb he
    obtain ⟨j, hj⟩ := List.mem_iff_getElem?.mp ha
    obtain ⟨i, hi⟩ := List.mem_iff_getElem?.mp hb
    rw [List.getElem?_drop] at hj
    obtain ⟨hij, htake⟩ := take_eq_of_shared hP hQ hname hrootP hrootQ hi hj he.symm
    have hlonger : Agree (k + j + 1) := ⟨hij ▸ (List.getElem?_eq_some_iff.mp hi).1, hij ▸ htake⟩
    have hle := hmax _ hlonger
    omega
  refine ⟨P.take k, P.drop k, Q.drop k, (List.take_append_drop k P).symm, ?_, ?_, ⟨?_, ?_⟩⟩
  · rw [hk.2, List.take_append_drop]
  · intro hnil
    have hpos : 1 ≤ k := hmax 1 hone
    rw [List.take_eq_nil_iff] at hnil
    rcases hnil with h | h
    · omega
    · rw [h] at hrootP
      cases hrootP
  · intro a ha b hb
    rw [hk.2, List.take_append_drop] at hb
    exact hapart a ha b hb
  · intro a ha b hb
    rw [List.take_append_drop] at hb
    exact hapart' a ha b hb

/-- **Branches do not join.** When both branches have begun, longer chains have the
same stem. -/
theorem Fork.extend {stem branch branch' : List α} (hfork : Fork L stem branch branch') (hbranch : branch ≠ [])
    (hbranch' : branch' ≠ []) (hP : Listed L P) (hQ : Listed L Q) (hname : OneName L P Q)
    (hrootP : P[0]? = some root) (hrootQ : Q[0]? = some root) (hle : stem ++ branch <+: P)
    (hle' : stem ++ branch' <+: Q) :
    ∃ more more', P = stem ++ more ∧ Q = stem ++ more' ∧ branch <+: more ∧ branch' <+: more' ∧
      Fork L stem more more' := by
  obtain ⟨rest, rfl⟩ := hle
  obtain ⟨rest', rfl⟩ := hle'
  obtain ⟨a, init, rfl⟩ := List.exists_cons_of_ne_nil hbranch
  obtain ⟨b, init', rfl⟩ := List.exists_cons_of_ne_nil hbranch'
  have hfirst : (stem ++ a :: init ++ rest)[stem.length]? = some a := by simp
  have hfirst' : (stem ++ b :: init' ++ rest')[stem.length]? = some b := by simp
  have hne : a ≠ b := by
    intro he
    exact hfork.left a (by simp) b (by simp) (congrArg L.key he)
  -- a shared record from the branches on would make their first records agree
  have hshared : ∀ {i j : ℕ} {c d : α}, (stem ++ a :: init ++ rest)[i]? = some c →
      (stem ++ b :: init' ++ rest')[j]? = some d → stem.length ≤ i → L.key c ≠ L.key d := by
    intro i j c d hc hd hi he
    obtain ⟨hij, htake⟩ := take_eq_of_shared hP hQ hname hrootP hrootQ hc hd he
    have hat := congrArg (fun l => l[stem.length]?) htake
    simp only [List.getElem?_take] at hat
    rw [if_pos (by omega), if_pos (by omega), hfirst, hfirst'] at hat
    exact hne (Option.some.inj hat)
  refine ⟨a :: init ++ rest, b :: init' ++ rest', by simp, by simp, List.prefix_append _ _,
    List.prefix_append _ _, ⟨?_, ?_⟩⟩
  · intro c hc d hd
    obtain ⟨i, hi⟩ := List.mem_iff_getElem?.mp hc
    obtain ⟨j, hj⟩ := List.mem_iff_getElem?.mp hd
    have hi' : (stem ++ a :: init ++ rest)[stem.length + i]? = some c := by
      rw [List.append_assoc, List.getElem?_append_right (by omega), Nat.add_sub_cancel_left]
      exact hi
    exact hshared hi' (by simpa using hj) (by omega)
  · intro c hc d hd
    obtain ⟨j, hj⟩ := List.mem_iff_getElem?.mp hc
    obtain ⟨i, hi⟩ := List.mem_iff_getElem?.mp hd
    have hj' : (stem ++ b :: init' ++ rest')[stem.length + j]? = some c := by
      rw [List.append_assoc, List.getElem?_append_right (by omega), Nat.add_sub_cancel_left]
      exact hj
    have hi' : (stem ++ a :: init ++ rest)[i]? = some d := by simpa using hi
    intro he
    -- equal names stand at equal positions
    obtain ⟨hij, _⟩ := take_eq_of_shared hP hQ hname hrootP hrootQ hi' hj' he.symm
    exact hshared hi' hj' (by omega) he.symm

end Krapi.Lib.Branches
