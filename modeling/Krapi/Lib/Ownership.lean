import Mathlib

/-! # Cells with one owner

A heap of cells and owners that hold at most one cell each. While every held cell
is live, no two owners hold one cell and every live cell is held, owners can be
read as values: what an operation does to the heap and to one owner is an update
of that owner's value, and nothing is lost or left behind. -/
namespace Krapi.Lib.Ownership

variable {I V : Type*} [DecidableEq I]

/-- Cells by the number of their allocation; a freed cell is `none`. -/
structure Heap (V : Type*) where
  cells : List (Option V)

namespace Heap

def read (h : Heap V) (a : ℕ) : Option V := h.cells[a]?.join

def alloc (h : Heap V) (v : V) : Heap V := ⟨h.cells ++ [some v]⟩

/-- The address `alloc` gives. -/
def next (h : Heap V) : ℕ := h.cells.length

def free (h : Heap V) (a : ℕ) : Heap V := ⟨h.cells.set a none⟩

def write (h : Heap V) (a : ℕ) (v : V) : Heap V := ⟨h.cells.set a (some v)⟩

/-- What the destructor of an owner frees. -/
def release (h : Heap V) : Option ℕ → Heap V
  | some a => h.free a
  | none => h

variable {h : Heap V} {a b : ℕ} {v : V}

theorem lt_next_of_read (hv : h.read a = some v) : a < h.next := by
  by_contra hge
  rw [read, List.getElem?_eq_none (not_lt.mp hge)] at hv
  cases hv

theorem read_alloc : (h.alloc v).read b = if b = h.next then some v else h.read b := by
  unfold read alloc next
  split
  · rename_i hb
    rw [hb, List.getElem?_concat_length]
    rfl
  · rename_i hb
    rcases lt_or_gt_of_ne hb with hlt | hgt
    · rw [List.getElem?_append_left hlt]
    · rw [List.getElem?_eq_none (by rw [List.length_append, List.length_singleton]; omega),
        List.getElem?_eq_none (by omega)]

theorem read_free : (h.free a).read b = if a = b then none else h.read b := by
  unfold read free
  rw [List.getElem?_set]
  split
  · split <;> rfl
  · rfl

theorem read_write (ha : (h.read a).isSome) : (h.write a v).read b = if a = b then some v else h.read b := by
  obtain ⟨w, hw⟩ := Option.isSome_iff_exists.mp ha
  unfold read write
  rw [List.getElem?_set]
  split
  · rw [if_pos (show a < h.cells.length from lt_next_of_read hw)]
    rfl
  · rfl

end Heap

/-- Every held cell is live, held once, and every live cell is held. -/
structure Owned (owner : I → Option ℕ) (h : Heap V) : Prop where
  live : ∀ i a, owner i = some a → (h.read a).isSome
  once : ∀ i j a, owner i = some a → owner j = some a → i = j
  held : ∀ a, (h.read a).isSome → ∃ i, owner i = some a

/-- What an owner holds, as a value. -/
def value (owner : I → Option ℕ) (h : Heap V) (i : I) : Option V := (owner i).bind h.read

section Operations
variable {owner : I → Option ℕ} {h : Heap V} {i j : I} {a : ℕ}

omit [DecidableEq I] in
theorem owned_empty : Owned (fun _ : I => none) (⟨[]⟩ : Heap V) where
  live := by intro i a hi; cases hi
  once := by intro i j a hi; cases hi
  held := by intro a ha; simp [Heap.read] at ha

/-- An owner that holds nothing gets a new cell. -/
theorem Owned.alloc (ho : Owned owner h) (hi : owner i = none) (v : V) :
    Owned (Function.update owner i (some h.next)) (h.alloc v) ∧
      value (Function.update owner i (some h.next)) (h.alloc v) = Function.update (value owner h) i (some v) := by
  have hother : ∀ j a, owner j = some a → a ≠ h.next := by
    intro j a hj
    obtain ⟨w, hw⟩ := Option.isSome_iff_exists.mp (ho.live j a hj)
    exact Nat.ne_of_lt (Heap.lt_next_of_read hw)
  have hcases : ∀ j a, Function.update owner i (some h.next) j = some a →
      j = i ∧ a = h.next ∨ j ≠ i ∧ owner j = some a := by
    intro j a hj
    by_cases hji : j = i
    · subst hji
      rw [Function.update_self] at hj
      exact .inl ⟨rfl, (Option.some.inj hj).symm⟩
    · rw [Function.update_of_ne hji] at hj
      exact .inr ⟨hji, hj⟩
  refine ⟨⟨?_, ?_, ?_⟩, ?_⟩
  · intro j a hj
    rw [Heap.read_alloc]
    rcases hcases j a hj with ⟨-, rfl⟩ | ⟨-, hj⟩
    · simp
    · rw [if_neg (hother j a hj)]
      exact ho.live j a hj
  · intro j k a hj hk
    rcases hcases j a hj with ⟨hji, hnew⟩ | ⟨-, hj⟩ <;> rcases hcases k a hk with ⟨hki, hnew'⟩ | ⟨-, hk⟩
    · rw [hji, hki]
    · exact absurd hnew (hother k a hk)
    · exact absurd hnew' (hother j a hj)
    · exact ho.once j k a hj hk
  · intro a ha
    rw [Heap.read_alloc] at ha
    by_cases hnext : a = h.next
    · exact ⟨i, by rw [Function.update_self, hnext]⟩
    · rw [if_neg hnext] at ha
      obtain ⟨j, hj⟩ := ho.held a ha
      refine ⟨j, ?_⟩
      rw [Function.update_of_ne, hj]
      rintro rfl
      rw [hi] at hj
      cases hj
  · funext j
    unfold value
    by_cases hji : j = i
    · subst hji
      rw [Function.update_self, Function.update_self, Option.bind_some, Heap.read_alloc, if_pos rfl]
    · rw [Function.update_of_ne hji, Function.update_of_ne hji]
      cases hj : owner j with
      | none => rfl
      | some a => rw [Option.bind_some, Option.bind_some, Heap.read_alloc, if_neg (hother j a hj)]

/-- An owner gives up its cell, which is freed. -/
theorem Owned.free (ho : Owned owner h) (hi : owner i = some a) :
    Owned (Function.update owner i none) (h.free a) ∧
      value (Function.update owner i none) (h.free a) = Function.update (value owner h) i none := by
  have hother : ∀ j b, j ≠ i → owner j = some b → a ≠ b := by
    rintro j b hji hj rfl
    exact hji (ho.once j i a hj hi)
  have hne : ∀ j b, Function.update owner i none j = some b → j ≠ i ∧ owner j = some b := by
    intro j b hj
    by_cases hji : j = i
    · subst hji
      rw [Function.update_self] at hj
      cases hj
    · exact ⟨hji, by rwa [Function.update_of_ne hji] at hj⟩
  refine ⟨⟨?_, ?_, ?_⟩, ?_⟩
  · intro j b hj
    obtain ⟨hji, hj⟩ := hne j b hj
    rw [Heap.read_free, if_neg (hother j b hji hj)]
    exact ho.live j b hj
  · intro j k b hj hk
    exact ho.once j k b (hne j b hj).2 (hne k b hk).2
  · intro b hb
    rw [Heap.read_free] at hb
    split at hb
    · cases hb
    · rename_i hab
      obtain ⟨j, hj⟩ := ho.held b hb
      refine ⟨j, ?_⟩
      rw [Function.update_of_ne, hj]
      rintro rfl
      rw [hi, Option.some.injEq] at hj
      exact hab hj
  · funext j
    unfold value
    by_cases hji : j = i
    · subst hji
      rw [Function.update_self, Function.update_self, Option.bind_none]
    · rw [Function.update_of_ne hji, Function.update_of_ne hji]
      cases hj : owner j with
      | none => rfl
      | some b => rw [Option.bind_some, Option.bind_some, Heap.read_free, if_neg (hother j b hji hj)]

theorem Owned.release (ho : Owned owner h) (i : I) :
    Owned (Function.update owner i none) (h.release (owner i)) ∧
      value (Function.update owner i none) (h.release (owner i)) = Function.update (value owner h) i none := by
  cases hi : owner i with
  | some a => exact ho.free hi
  | none =>
    have hvalue : value owner h i = none := by rw [value, hi, Option.bind_none]
    rw [← hvalue, Function.update_eq_self, ← hi, Function.update_eq_self, hi]
    exact ⟨ho, rfl⟩

/-- A cell is freed before or after the next one is made. -/
theorem Heap.free_alloc {h : Heap V} {a : ℕ} (ha : a < h.next) (v : V) :
    (h.alloc v).free a = (h.free a).alloc v := congrArg Heap.mk (List.set_append_left _ _ ha)

/-- An owner gets a new cell and then gives up the one it had. -/
theorem Owned.replace (ho : Owned owner h) (i : I) (v : V) :
    Owned (Function.update owner i (some h.next)) ((h.alloc v).release (owner i)) ∧
      value (Function.update owner i (some h.next)) ((h.alloc v).release (owner i)) =
        Function.update (value owner h) i (some v) := by
  have hnext : (h.release (owner i)).next = h.next := by
    cases owner i with
    | none => rfl
    | some a => exact List.length_set
  have hcommute : (h.alloc v).release (owner i) = (h.release (owner i)).alloc v := by
    cases hi : owner i with
    | none => rfl
    | some a =>
      obtain ⟨w, hw⟩ := Option.isSome_iff_exists.mp (ho.live i a hi)
      exact Heap.free_alloc (Heap.lt_next_of_read hw) v
  obtain ⟨hreleased, hvalue⟩ := ho.release i
  obtain ⟨halloc, hvalue'⟩ := hreleased.alloc (Function.update_self i none owner) v
  rw [hnext, Function.update_idem] at halloc hvalue'
  rw [hvalue, Function.update_idem] at hvalue'
  rw [hcommute]
  exact ⟨halloc, hvalue'⟩

/-- An owner that holds nothing takes over the cell of another. -/
theorem Owned.move (ho : Owned owner h) (hij : i ≠ j) (hi : owner i = none) :
    Owned (Function.update (Function.update owner i (owner j)) j none) h ∧
      value (Function.update (Function.update owner i (owner j)) j none) h =
        Function.update (Function.update (value owner h) i (value owner h j)) j none := by
  -- who holds a cell now held it before, with `i` in the place of `j`
  have hswap : ∀ k b, Function.update (Function.update owner i (owner j)) j none k = some b ↔
      k ≠ j ∧ owner (if k = i then j else k) = some b := by
    intro k b
    by_cases hkj : k = j
    · subst hkj
      simp
    · rw [Function.update_of_ne hkj]
      by_cases hki : k = i
      · subst hki
        simp [hkj]
      · simp [hki, hkj]
  refine ⟨⟨?_, ?_, ?_⟩, ?_⟩
  · intro k b hk
    exact ho.live _ b ((hswap k b).mp hk).2
  · intro k l b hk hl
    obtain ⟨hkj, hk⟩ := (hswap k b).mp hk
    obtain ⟨hlj, hl⟩ := (hswap l b).mp hl
    have heq := ho.once _ _ b hk hl
    by_cases hki : k = i <;> by_cases hli : l = i
    · rw [hki, hli]
    · rw [if_pos hki, if_neg hli] at heq
      exact absurd heq.symm hlj
    · rw [if_neg hki, if_pos hli] at heq
      exact absurd heq hkj
    · rwa [if_neg hki, if_neg hli] at heq
  · intro b hb
    obtain ⟨k, hk⟩ := ho.held b hb
    by_cases hkj : k = j
    · exact ⟨i, (hswap i b).mpr ⟨hij, by rw [if_pos rfl, ← hkj]; exact hk⟩⟩
    · refine ⟨k, (hswap k b).mpr ⟨hkj, ?_⟩⟩
      rw [if_neg, hk]
      rintro rfl
      rw [hi] at hk
      cases hk
  · funext k
    unfold value
    by_cases hkj : k = j
    · subst hkj
      rw [Function.update_self, Function.update_self, Option.bind_none]
    · rw [Function.update_of_ne hkj, Function.update_of_ne hkj]
      by_cases hki : k = i
      · subst hki
        rw [Function.update_self, Function.update_self]
      · rw [Function.update_of_ne hki, Function.update_of_ne hki]

/-- Two owners exchange their cells. -/
theorem Owned.swap (ho : Owned owner h) (i j : I) :
    Owned (owner ∘ Equiv.swap i j) h ∧ value (owner ∘ Equiv.swap i j) h = value owner h ∘ Equiv.swap i j := by
  refine ⟨⟨fun k b hk => ho.live _ b hk, ?_, ?_⟩, rfl⟩
  · intro k l b hk hl
    exact (Equiv.swap i j).injective (ho.once _ _ b hk hl)
  · intro b hb
    obtain ⟨k, hk⟩ := ho.held b hb
    exact ⟨Equiv.swap i j k, by rw [Function.comp_apply, Equiv.swap_apply_self]; exact hk⟩

/-- A write through an owner changes that owner's value alone. -/
theorem Owned.write (ho : Owned owner h) (hi : owner i = some a) (v : V) :
    Owned owner (h.write a v) ∧ value owner (h.write a v) = Function.update (value owner h) i (some v) := by
  have hread : ∀ b, (h.write a v).read b = if a = b then some v else h.read b :=
    fun b => Heap.read_write (ho.live i a hi)
  refine ⟨⟨?_, ho.once, ?_⟩, ?_⟩
  · intro j b hj
    rw [hread]
    split
    · rfl
    · exact ho.live j b hj
  · intro b hb
    rw [hread] at hb
    split at hb
    · rename_i hab
      exact ⟨i, hab ▸ hi⟩
    · exact ho.held b hb
  · funext j
    unfold value
    by_cases hji : j = i
    · subst hji
      rw [Function.update_self, hi, Option.bind_some, hread, if_pos rfl]
    · rw [Function.update_of_ne hji]
      cases hj : owner j with
      | none => rfl
      | some b =>
        rw [Option.bind_some, Option.bind_some, hread, if_neg]
        rintro rfl
        exact hji (ho.once j i a hj hi)

end Operations

end Krapi.Lib.Ownership
