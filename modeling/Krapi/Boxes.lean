import Krapi.Lib.Ownership
import Krapi.Lib.Run

/-! # Boxes

Messages and events travel in a `Box`: a pointer and a control block, in which the
object lies. Copies clone the control block, moves leave the source empty, and every
listener of an event gets a copy. Boxes behave as plain values: whatever is done to
one shows in no other, no pointer dangles and nothing leaks. -/
namespace Krapi.Boxes
open Krapi.Lib.Run Krapi.Lib.Ownership

variable {X T : Type} [DecidableEq X]

/-- `ptr_` and `cb_`; the object of a `direct_control_block` has the block's address. -/
structure Box where
  ptr : Option ℕ
  cb : Option ℕ
  deriving Repr, DecidableEq

/-- The boxes in scope by their variables, and the control blocks. -/
structure Memory (X T : Type) where
  boxes : X → Option Box
  heap : Heap T

inductive Op (X T : Type) where
  | declare (x : X)
  | makeBox (x : X) (t : T)
  | copyConstruct (x p : X)
  | moveConstruct (x p : X)
  | copyAssign (x p : X)
  | moveAssign (x p : X)
  | swap (x p : X)
  /-- A write through `operator->`. -/
  | write (x : X) (t : T)
  | destroy (x : X)
  deriving Repr, DecidableEq

namespace Memory

def empty : Memory X T := ⟨fun _ => none, ⟨[]⟩⟩

def set (m : Memory X T) (x : X) (b : Option Box) : Memory X T :=
  { m with boxes := Function.update m.boxes x b }

@[simp] theorem boxes_set (m : Memory X T) (x : X) (b : Option Box) :
    (m.set x b).boxes = Function.update m.boxes x b := rfl

@[simp] theorem heap_set (m : Memory X T) (x : X) (b : Option Box) : (m.set x b).heap = m.heap := rfl

/-- `clone`, and what the control block made of it holds from then on. -/
def clone (m : Memory X T) (a : ℕ) : Option (Heap T × Box) :=
  (m.heap.read a).map fun t => (m.heap.alloc t, ⟨some m.heap.next, some m.heap.next⟩)

/-! Operations that do not fit the variables in scope do nothing. -/

def declare (m : Memory X T) (x : X) : Memory X T :=
  if m.boxes x = none then m.set x (some ⟨none, none⟩) else m

def makeBox (m : Memory X T) (x : X) (t : T) : Memory X T :=
  if m.boxes x = none then
    { m with heap := m.heap.alloc t }.set x (some ⟨some m.heap.next, some m.heap.next⟩)
  else m

def copyConstruct (m : Memory X T) (x p : X) : Memory X T :=
  match m.boxes x, m.boxes p with
  | none, some source =>
    match source.cb with
    | none => m.set x (some ⟨none, none⟩)
    | some a =>
      match m.clone a with
      | some (heap, box) => { m with heap }.set x (some box)
      | none => m
  | _, _ => m

def moveConstruct (m : Memory X T) (x p : X) : Memory X T :=
  match m.boxes x, m.boxes p with
  | none, some source => (m.set x (some source)).set p (some ⟨none, none⟩)
  | _, _ => m

/-- The old control block goes once the clone is there. -/
def copyAssign (m : Memory X T) (x p : X) : Memory X T :=
  match m.boxes x, m.boxes p with
  | some target, some source =>
    if x = p then m
    else
      match source.cb with
      | none => { m with heap := m.heap.release target.cb }.set x (some ⟨none, none⟩)
      | some a =>
        match m.clone a with
        | some (heap, box) => { m with heap := heap.release target.cb }.set x (some box)
        | none => m
  | _, _ => m

def moveAssign (m : Memory X T) (x p : X) : Memory X T :=
  match m.boxes x, m.boxes p with
  | some target, some source =>
    if x = p then m
    else ({ m with heap := m.heap.release target.cb }.set x (some source)).set p (some ⟨none, none⟩)
  | _, _ => m

def swap (m : Memory X T) (x p : X) : Memory X T :=
  match m.boxes x, m.boxes p with
  | some target, some source => (m.set x (some source)).set p (some target)
  | _, _ => m

/-- Through an empty box there is nothing to write to: its assertion fails. -/
def write (m : Memory X T) (x : X) (t : T) : Memory X T :=
  match (m.boxes x).bind Box.ptr with
  | some a => { m with heap := m.heap.write a t }
  | none => m

def destroy (m : Memory X T) (x : X) : Memory X T :=
  match m.boxes x with
  | some target => { m with heap := m.heap.release target.cb }.set x none
  | none => m

def step (m : Memory X T) : Op X T → Memory X T
  | .declare x => m.declare x
  | .makeBox x t => m.makeBox x t
  | .copyConstruct x p => m.copyConstruct x p
  | .moveConstruct x p => m.moveConstruct x p
  | .copyAssign x p => m.copyAssign x p
  | .moveAssign x p => m.moveAssign x p
  | .swap x p => m.swap x p
  | .write x t => m.write x t
  | .destroy x => m.destroy x

end Memory

/-! ## Plain values -/

/-- The variables in scope with what they hold, if anything. -/
abbrev Values (X T : Type) := X → Option (Option T)

/-- What an operation is for. -/
def valueStep (s : Values X T) : Op X T → Values X T
  | .declare x => if s x = none then Function.update s x (some none) else s
  | .makeBox x t => if s x = none then Function.update s x (some (some t)) else s
  | .copyConstruct x p => if s x = none ∧ s p ≠ none then Function.update s x (s p) else s
  | .moveConstruct x p =>
    if s x = none ∧ s p ≠ none then Function.update (Function.update s x (s p)) p (some none) else s
  | .copyAssign x p => if s x ≠ none ∧ s p ≠ none then Function.update s x (s p) else s
  | .moveAssign x p =>
    if s x ≠ none ∧ s p ≠ none ∧ x ≠ p then
      Function.update (Function.update s x (s p)) p (some none)
    else s
  | .swap x p =>
    if s x ≠ none ∧ s p ≠ none then Function.update (Function.update s x (s p)) p (s x) else s
  | .write x t =>
    match s x with
    | some (some _) => Function.update s x (some (some t))
    | _ => s
  | .destroy x => if s x ≠ none then Function.update s x none else s

/-- `operator bool` of the boxes in scope. -/
def operatorBool (m : Memory X T) (x : X) : Option Bool := (m.boxes x).map fun b => b.cb.isSome

/-- What a program sees through the boxes. -/
def view (m : Memory X T) : Values X T := fun x => (m.boxes x).map fun b => b.ptr.bind m.heap.read

/-- The control block a variable owns. -/
def owner (m : Memory X T) (x : X) : Option ℕ := (m.boxes x).bind Box.cb

/-- Boxes point to the control blocks they own, each alone, and all blocks are owned. -/
structure Sound (m : Memory X T) : Prop where
  owned : Owned (owner m) m.heap
  points : ∀ x b, m.boxes x = some b → b.ptr = b.cb

/-! ## What an operation does -/

section Steps
variable {m m' : Memory X T} {x p : X} {b source : Box}

omit [DecidableEq X] in
/-- A sound box shows what its variable owns. -/
theorem Sound.view_eq (h : Sound m) :
    view m = fun z => (m.boxes z).map fun _ => value (owner m) m.heap z := by
  funext z
  unfold view value owner
  cases hz : m.boxes z with
  | none => rfl
  | some b =>
    have hpoints := h.points z b hz
    simp [hpoints]

omit [DecidableEq X] in
/-- It is enough to know who owns what and what that shows. -/
theorem settle (m' : Memory X T) {o : X → Option ℕ} {v : X → Option T} (howner : owner m' = o) (ho : Owned o m'.heap)
    (hv : value o m'.heap = v) (hpoints : ∀ z b, m'.boxes z = some b → b.ptr = b.cb) :
    Sound m' ∧ view m' = fun z => (m'.boxes z).map fun _ => v z := by
  subst howner
  subst hv
  have hsound : Sound m' := ⟨ho, hpoints⟩
  exact ⟨hsound, hsound.view_eq⟩

theorem owner_set (m : Memory X T) (x : X) (b : Option Box) :
    owner (m.set x b) = Function.update (owner m) x (b.bind Box.cb) := by
  funext z
  unfold owner
  rw [Memory.boxes_set]
  by_cases hz : z = x
  · subst hz
    rw [Function.update_self, Function.update_self]
  · rw [Function.update_of_ne hz, Function.update_of_ne hz]

theorem points_set (h : ∀ z b, m.boxes z = some b → b.ptr = b.cb) {b : Option Box}
    (hb : ∀ b', b = some b' → b'.ptr = b'.cb) :
    ∀ z b', (m.set x b).boxes z = some b' → b'.ptr = b'.cb := by
  intro z b' hz
  rw [Memory.boxes_set] at hz
  by_cases hzx : z = x
  · subst hzx
    rw [Function.update_self] at hz
    exact hb b' hz
  · rw [Function.update_of_ne hzx] at hz
    exact h z b' hz

omit [DecidableEq X] in
theorem owner_eq_none (h : m.boxes x = none) : owner m x = none := by
  rw [owner, h, Option.bind_none]

omit [DecidableEq X] in
theorem owner_eq (h : m.boxes x = some b) : owner m x = b.cb := by
  rw [owner, h, Option.bind_some]

/-- One variable changes: what it owns, what that shows, and whether it is in scope. -/
theorem settle_one {heap : Heap T} {v : Option T} (h : Sound m) (box : Option Box)
    (ho : Owned (Function.update (owner m) x (box.bind Box.cb)) heap)
    (hv : value (Function.update (owner m) x (box.bind Box.cb)) heap =
      Function.update (value (owner m) m.heap) x v)
    (hbox : ∀ b, box = some b → b.ptr = b.cb) :
    Sound ({ m with heap }.set x box) ∧
      view ({ m with heap }.set x box) = Function.update (view m) x (box.map fun _ => v) := by
  obtain ⟨hsound, hview⟩ := settle ({ m with heap }.set x box) (owner_set _ x box) ho hv
    (points_set h.points hbox)
  refine ⟨hsound, hview.trans ?_⟩
  rw [h.view_eq]
  funext z
  by_cases hz : z = x
  · subst hz
    simp [Memory.set]
  · simp [Memory.set, hz]

/-- A variable gets an empty box. -/
theorem settle_empty (h : Sound m) (hx : m.boxes x = none) :
    Sound (m.set x (some ⟨none, none⟩)) ∧
      view (m.set x (some ⟨none, none⟩)) = Function.update (view m) x (some none) := by
  have hnone := owner_eq_none hx
  have hvalue : value (owner m) m.heap x = none := by rw [value, hnone, Option.bind_none]
  have howner : Function.update (owner m) x none = owner m := by rw [← hnone, Function.update_eq_self]
  have ho : Owned (Function.update (owner m) x none) m.heap := howner.symm ▸ h.owned
  have hv : value (Function.update (owner m) x none) m.heap = Function.update (value (owner m) m.heap) x none := by
    rw [howner, ← hvalue, Function.update_eq_self]
  exact settle_one h (some ⟨none, none⟩) ho hv (by rintro b ⟨⟩; rfl)

/-- The source of a move ends up empty, the target with what the source had. -/
theorem settle_move (h : Sound m) (hxp : x ≠ p) {target : Option Box} (hx : m.boxes x = target)
    (hp : m.boxes p = some source) :
    let m' := ({ m with heap := m.heap.release (target.bind Box.cb) }.set x (some source)).set p (some ⟨none, none⟩)
    Sound m' ∧ view m' = Function.update (Function.update (view m) x (view m p)) p (some none) := by
  intro m'
  have hxowner : owner m x = target.bind Box.cb := by rw [owner, hx]
  have hpowner : owner m p = source.cb := owner_eq hp
  have hpx : p ≠ x := Ne.symm hxp
  obtain ⟨hreleased, hvalue⟩ := h.owned.release x
  obtain ⟨hmoved, hvalue'⟩ := hreleased.move hxp (Function.update_self x none (owner m))
  rw [hvalue, Function.update_of_ne hpx, Function.update_of_ne hpx, Function.update_idem] at hvalue'
  rw [Function.update_of_ne hpx, Function.update_idem] at hmoved
  rw [Function.update_idem] at hvalue'
  have howner : owner m' = Function.update (Function.update (owner m) x (owner m p)) p none := by
    rw [owner_set, owner_set, hpowner]
    rfl
  rw [hxowner] at hmoved hvalue'
  have hpoints : ∀ z b, m'.boxes z = some b → b.ptr = b.cb := by
    refine points_set (points_set h.points ?_) ?_
    · rintro b ⟨⟩
      exact h.points p source hp
    · rintro b ⟨⟩
      rfl
  obtain ⟨hsound, hview⟩ := settle m' howner hmoved hvalue' hpoints
  refine ⟨hsound, hview.trans ?_⟩
  rw [h.view_eq]
  funext z
  by_cases hzp : z = p
  · subst hzp
    simp [m']
  · by_cases hzx : z = x
    · subst hzx
      simp [m', hzp, hp]
    · simp [m', hzp, hzx]

omit [DecidableEq X] in
theorem Sound.view_empty (h : Sound m) (hx : m.boxes x = some b) (hcb : b.cb = none) : view m x = some none := by
  have hptr : b.ptr = none := (h.points x b hx).trans hcb
  simp [view, hx, hptr]

omit [DecidableEq X] in
/-- The control block of a sound box is there. -/
theorem Sound.view_full {a : ℕ} (h : Sound m) (hx : m.boxes x = some b) (hcb : b.cb = some a) :
    ∃ t, m.heap.read a = some t ∧ view m x = some (some t) := by
  have hptr : b.ptr = some a := (h.points x b hx).trans hcb
  obtain ⟨t, ht⟩ := Option.isSome_iff_exists.mp (h.owned.live x a ((owner_eq hx).trans hcb))
  exact ⟨t, ht, by simp [view, hx, hptr, ht]⟩

omit [DecidableEq X] in
/-- A box converts to true where it shows something. -/
theorem Sound.operatorBool_eq (h : Sound m) (x : X) : operatorBool m x = (view m x).map Option.isSome := by
  unfold operatorBool
  cases hx : m.boxes x with
  | none => simp [view, hx]
  | some b =>
    cases hcb : b.cb with
    | none => simp [h.view_empty hx hcb, hcb]
    | some a =>
      obtain ⟨t, -, hview⟩ := h.view_full hx hcb
      simp [hview, hcb]

omit [DecidableEq X] in
theorem clone_of_read {a : ℕ} {t : T} (ht : m.heap.read a = some t) :
    m.clone a = some (m.heap.alloc t, ⟨some m.heap.next, some m.heap.next⟩) := congrArg (Option.map _) ht

theorem sound_copyConstruct (h : Sound m) (x p : X) :
    Sound (m.copyConstruct x p) ∧
      view (m.copyConstruct x p) = valueStep (view m) (.copyConstruct x p) := by
  show _ ∧ _ = if _ then _ else _
  unfold Memory.copyConstruct
  cases hx : m.boxes x with
  | some target => exact ⟨h, by simp [view, hx]⟩
  | none =>
    cases hp : m.boxes p with
    | none => exact ⟨h, by simp [view, hx, hp]⟩
    | some source =>
      have hfits : view m x = none ∧ view m p ≠ none := by simp [view, hx, hp]
      rw [if_pos hfits]
      dsimp only
      cases hcb : source.cb with
      | none =>
        rw [h.view_empty hp hcb]
        exact settle_empty h hx
      | some a =>
        obtain ⟨t, ht, hview⟩ := h.view_full hp hcb
        obtain ⟨ho, hv⟩ := h.owned.alloc (owner_eq_none hx) t
        rw [hview]
        simp only [clone_of_read ht]
        exact settle_one h (some _) ho hv (by rintro b ⟨⟩; rfl)

theorem sound_copyAssign (h : Sound m) (x p : X) :
    Sound (m.copyAssign x p) ∧ view (m.copyAssign x p) = valueStep (view m) (.copyAssign x p) := by
  show _ ∧ _ = if _ then _ else _
  unfold Memory.copyAssign
  cases hx : m.boxes x with
  | none => exact ⟨h, by simp [view, hx]⟩
  | some target =>
    cases hp : m.boxes p with
    | none => exact ⟨h, by simp [view, hx, hp]⟩
    | some source =>
      have hfits : view m x ≠ none ∧ view m p ≠ none := by simp [view, hx, hp]
      rw [if_pos hfits]
      dsimp only
      split
      · rename_i hxp
        rw [← hxp, Function.update_eq_self]
        exact ⟨h, rfl⟩
      · have howner : owner m x = target.cb := owner_eq hx
        cases hcb : source.cb with
        | none =>
          obtain ⟨ho, hv⟩ := h.owned.release x
          rw [howner] at ho hv
          rw [h.view_empty hp hcb]
          exact settle_one h (some ⟨none, none⟩) ho hv (by rintro b ⟨⟩; rfl)
        | some a =>
          obtain ⟨t, ht, hview⟩ := h.view_full hp hcb
          obtain ⟨ho, hv⟩ := h.owned.replace x t
          rw [howner] at ho hv
          rw [hview]
          simp only [clone_of_read ht]
          exact settle_one h (some _) ho hv (by rintro b ⟨⟩; rfl)

theorem sound_moveConstruct (h : Sound m) (x p : X) :
    Sound (m.moveConstruct x p) ∧
      view (m.moveConstruct x p) = valueStep (view m) (.moveConstruct x p) := by
  show _ ∧ _ = if _ then _ else _
  unfold Memory.moveConstruct
  cases hx : m.boxes x with
  | some target => exact ⟨h, by simp [view, hx]⟩
  | none =>
    cases hp : m.boxes p with
    | none => exact ⟨h, by simp [view, hx, hp]⟩
    | some source =>
      have hfits : view m x = none ∧ view m p ≠ none := by simp [view, hx, hp]
      rw [if_pos hfits]
      have hxp : x ≠ p := by
        rintro rfl
        rw [hx] at hp
        cases hp
      exact settle_move h hxp hx hp

theorem sound_moveAssign (h : Sound m) (x p : X) :
    Sound (m.moveAssign x p) ∧ view (m.moveAssign x p) = valueStep (view m) (.moveAssign x p) := by
  show _ ∧ _ = if _ then _ else _
  unfold Memory.moveAssign
  cases hx : m.boxes x with
  | none => exact ⟨h, by simp [view, hx]⟩
  | some target =>
    cases hp : m.boxes p with
    | none => exact ⟨h, by simp [view, hx, hp]⟩
    | some source =>
      dsimp only
      split
      · rename_i hxp
        exact ⟨h, by simp [hxp]⟩
      · rename_i hxp
        have hfits : view m x ≠ none ∧ view m p ≠ none ∧ x ≠ p := by simp [view, hx, hp, hxp]
        rw [if_pos hfits]
        exact settle_move h hxp hx hp

theorem sound_swap (h : Sound m) (x p : X) :
    Sound (m.swap x p) ∧ view (m.swap x p) = valueStep (view m) (.swap x p) := by
  show _ ∧ _ = if _ then _ else _
  unfold Memory.swap
  cases hx : m.boxes x with
  | none => exact ⟨h, by simp [view, hx]⟩
  | some target =>
    cases hp : m.boxes p with
    | none => exact ⟨h, by simp [view, hx, hp]⟩
    | some source =>
      have hfits : view m x ≠ none ∧ view m p ≠ none := by simp [view, hx, hp]
      rw [if_pos hfits]
      have hboxes : Function.update (Function.update m.boxes x (some source)) p (some target) =
          m.boxes ∘ Equiv.swap x p := by
        funext z
        by_cases hzp : z = p
        · subst hzp
          simp [hx]
        · by_cases hzx : z = x
          · subst hzx
            simp [hzp, hp]
          · simp [hzp, hzx, Equiv.swap_apply_of_ne_of_ne hzx hzp]
      obtain ⟨ho, hv⟩ := h.owned.swap x p
      have howner : owner ((m.set x (some source)).set p (some target)) = owner m ∘ Equiv.swap x p := by
        funext z
        show ((Function.update (Function.update m.boxes x (some source)) p (some target)) z).bind Box.cb = _
        rw [hboxes]
        rfl
      have hpoints : ∀ z b, ((m.set x (some source)).set p (some target)).boxes z = some b → b.ptr = b.cb := by
        intro z b hz
        change (Function.update (Function.update m.boxes x (some source)) p (some target)) z = some b at hz
        rw [hboxes] at hz
        exact h.points _ b hz
      obtain ⟨hsound, hview⟩ := settle _ howner ho hv hpoints
      refine ⟨hsound, hview.trans ?_⟩
      funext z
      show ((Function.update (Function.update m.boxes x (some source)) p (some target)) z).map _ = _
      rw [hboxes, h.view_eq]
      by_cases hzp : z = p
      · subst hzp
        simp
      · by_cases hzx : z = x
        · subst hzx
          simp [hzp]
        · simp [hzp, hzx, Equiv.swap_apply_of_ne_of_ne hzx hzp]

theorem sound_write (h : Sound m) (x : X) (t : T) :
    Sound (m.write x t) ∧ view (m.write x t) = valueStep (view m) (.write x t) := by
  show _ ∧ _ = match view m x with | some (some _) => Function.update (view m) x (some (some t)) | _ => view m
  unfold Memory.write
  cases hx : m.boxes x with
  | none =>
    have hview : view m x = none := by simp [view, hx]
    rw [hview]
    exact ⟨h, rfl⟩
  | some target =>
    rw [Option.bind_some]
    cases hptr : target.ptr with
    | none =>
      rw [h.view_empty hx ((h.points x target hx).symm.trans hptr)]
      exact ⟨h, rfl⟩
    | some a =>
      have hcb : target.cb = some a := (h.points x target hx).symm.trans hptr
      obtain ⟨u, -, hview⟩ := h.view_full hx hcb
      obtain ⟨ho, hv⟩ := h.owned.write ((owner_eq hx).trans hcb) t
      obtain ⟨hsound, hview'⟩ := settle { m with heap := m.heap.write a t } rfl ho hv h.points
      rw [hview]
      refine ⟨hsound, hview'.trans ?_⟩
      rw [h.view_eq]
      funext z
      by_cases hz : z = x
      · subst hz
        simp [hx]
      · simp [hz]

theorem sound_step (h : Sound m) (op : Op X T) : Sound (m.step op) ∧ view (m.step op) = valueStep (view m) op := by
  have hscope : ∀ z, view m z = none ↔ m.boxes z = none := fun z => Option.map_eq_none_iff
  cases op with
  | declare x =>
    show Sound (m.declare x) ∧ view (m.declare x) = if _ then _ else _
    unfold Memory.declare
    simp only [hscope]
    split
    · rename_i hx
      exact settle_empty h hx
    · exact ⟨h, rfl⟩
  | makeBox x t =>
    show Sound (m.makeBox x t) ∧ view (m.makeBox x t) = if _ then _ else _
    unfold Memory.makeBox
    simp only [hscope]
    split
    · rename_i hx
      obtain ⟨ho, hv⟩ := h.owned.alloc (owner_eq_none hx) t
      exact settle_one h (some _) ho hv (by rintro b ⟨⟩; rfl)
    · exact ⟨h, rfl⟩
  | copyConstruct x p => exact sound_copyConstruct h x p
  | moveConstruct x p => exact sound_moveConstruct h x p
  | copyAssign x p => exact sound_copyAssign h x p
  | moveAssign x p => exact sound_moveAssign h x p
  | swap x p => exact sound_swap h x p
  | write x t => exact sound_write h x t
  | destroy x =>
    show Sound (m.destroy x) ∧ view (m.destroy x) = if _ then _ else _
    unfold Memory.destroy
    cases hx : m.boxes x with
    | none => exact ⟨h, by simp [hscope, hx]⟩
    | some target =>
      rw [if_pos (by rw [Ne, hscope, hx]; nofun)]
      obtain ⟨ho, hv⟩ := h.owned.release x
      rw [owner_eq hx] at ho hv
      exact settle_one h none ho hv nofun

end Steps

/-- **Boxes behave as values.** In every program over boxes, what it sees through them is
what it would see in variables of plain values, so a write shows in no other box and a
moved-from box is empty; a box converts to true where there is a value; no box points
to freed memory; and once all boxes are gone, so is everything they held. -/
theorem box_refines_value (ops : List (Op X T)) :
    let m := run Memory.step (Memory.empty : Memory X T) ops
    view m = run valueStep (fun _ => none) ops ∧
    (∀ x, operatorBool m x = (run valueStep (fun _ => none) ops x).map Option.isSome) ∧
    (∀ x b a, m.boxes x = some b → b.ptr = some a → (m.heap.read a).isSome) ∧
    ((∀ x, m.boxes x = none) → ∀ a, m.heap.read a = none) := by
  intro m
  have hrun : Sound m ∧ view m = run valueStep (fun _ => none) ops := by
    have hstart : Sound (Memory.empty : Memory X T) := ⟨owned_empty, nofun⟩
    have hall : ∀ (ops : List (Op X T)) {m : Memory X T}, Sound m →
        Sound (run Memory.step m ops) ∧ view (run Memory.step m ops) = run valueStep (view m) ops := by
      intro ops
      induction ops with
      | nil => exact fun h => ⟨h, rfl⟩
      | cons op ops ih =>
        intro m h
        obtain ⟨hsound, hview⟩ := sound_step h op
        rw [run_cons, run_cons, ← hview]
        exact ih hsound
    exact hall ops hstart
  obtain ⟨hsound, hview⟩ := hrun
  refine ⟨hview, fun x => hview ▸ hsound.operatorBool_eq x, ?_, ?_⟩
  · intro x b a hx hptr
    obtain ⟨t, ht, -⟩ := hsound.view_full hx ((hsound.points x b hx).symm.trans hptr)
    rw [ht]
    rfl
  · intro hgone a
    by_contra hread
    obtain ⟨x, hx⟩ := hsound.owned.held a (Option.isSome_iff_ne_none.mpr hread)
    rw [owner_eq_none (hgone x)] at hx
    cases hx

end Krapi.Boxes
