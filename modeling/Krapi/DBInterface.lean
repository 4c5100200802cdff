import Krapi.BlockchainModels

/-! # The LevelDB stores

`DBInternface<DataType>` keeps each value under its tag in a LevelDB database.
LevelDB is a map ordered by key; a stored value comes back as it was put, so
the store holds values and not their dumps. Writes succeed. Every write goes
through `put`, so a value is only ever found under its own tag: the structure
carries that as a field. -/
namespace Krapi.DBInterface
open Krapi.BlockchainModels

/-- The concepts `TaggableConcept` and `DBComparable`. -/
class DBComparable (α : Type) where
  tag : α → String
  timestamp : α → UInt64

instance : DBComparable Block := ⟨Block.tag, Block.timestamp⟩

instance : DBComparable Transaction := ⟨Transaction.tag, Transaction.timestamp⟩

export DBComparable (tag timestamp)

structure DBInternface (α : Type) [DBComparable α] where
  db : Std.ExtTreeMap String α compare
  keyed : ∀ {k v}, db[k]? = some v → tag v = k

namespace DBInternface

variable {α : Type} [DBComparable α]

/-- A freshly created database. -/
def empty : DBInternface α := ⟨∅, by simp⟩

def get (s : DBInternface α) (k : String) : Option α := s.db[k]?

def contains (s : DBInternface α) (k : String) : Bool := (s.get k).isSome

/-- The values in key order, as the iterator of a snapshot yields them. -/
def data (s : DBInternface α) : List α := s.db.toList.map Prod.snd

def size (s : DBInternface α) : Nat := s.data.length

/-- Insert-if-absent: a value whose tag is taken is not written. -/
def put (s : DBInternface α) (v : α) : Bool × DBInternface α :=
  if s.contains (tag v) then (false, s)
  else (true, ⟨s.db.insert (tag v) v, by
    intro k w h
    rw [Std.ExtTreeMap.getElem?_insert] at h
    split at h
    · rename_i he
      cases h; exact Std.LawfulEqCmp.eq_of_compare he
    · exact s.keyed h⟩)

def remove (s : DBInternface α) (v : α) : Bool × DBInternface α :=
  if s.contains (tag v) then
    (true, ⟨s.db.erase (tag v), by
      intro k w h
      rw [Std.ExtTreeMap.getElem?_erase] at h
      split at h
      · cases h
      · exact s.keyed h⟩)
  else (false, s)

/-- `remove` of a tag. -/
def removeTag (s : DBInternface α) (k : String) : Bool × DBInternface α :=
  if s.contains k then
    (true, ⟨s.db.erase k, by
      intro k' w h
      rw [Std.ExtTreeMap.getElem?_erase] at h
      split at h
      · cases h
      · exact s.keyed h⟩)
  else (false, s)

/-- One round of the scan in `last()`. -/
def newer (l v : α) : α := if timestamp v > timestamp l then v else l

/-- The first value, in key order, of the greatest timestamp; the
default-constructed value when none has a timestamp above the default's. -/
def last [Inhabited α] (s : DBInternface α) : α := s.data.foldl newer default

@[simp] theorem get_empty (k : String) : (empty : DBInternface α).get k = none := by
  simp [empty, get]

theorem tag_of_get {s : DBInternface α} {k : String} {v : α} (h : s.get k = some v) : tag v = k :=
  s.keyed h

@[ext] theorem ext_get {s t : DBInternface α} (h : ∀ k, s.get k = t.get k) : s = t := by
  obtain ⟨db, _⟩ := s
  obtain ⟨db', _⟩ := t
  have : db = db' := Std.ExtTreeMap.ext_getElem? h
  subst this; rfl

theorem mem_data {s : DBInternface α} {v : α} : v ∈ s.data ↔ s.get (tag v) = some v := by
  simp only [data, List.mem_map, Prod.exists, exists_eq_right,
    Std.ExtTreeMap.mem_toList_iff_getElem?_eq_some, get]
  exact ⟨fun ⟨k, hk⟩ => by rw [s.keyed hk]; exact hk, fun h => ⟨_, h⟩⟩

theorem mem_data_of_get {s : DBInternface α} {k : String} {v : α} (h : s.get k = some v) :
    v ∈ s.data := by
  rw [mem_data, tag_of_get h]; exact h

theorem data_nodup (s : DBInternface α) : s.data.Nodup := by
  have h := Std.ExtTreeMap.distinct_keys_toList (t := s.db)
  rw [data, List.Nodup, List.pairwise_map]
  refine h.imp_of_mem ?_
  intro a b ha hb hne he
  have hka := s.keyed (Std.ExtTreeMap.mem_toList_iff_getElem?_eq_some.mp ha)
  have hkb := s.keyed (Std.ExtTreeMap.mem_toList_iff_getElem?_eq_some.mp hb)
  apply hne
  rw [Std.LawfulEqCmp.compare_eq_iff_eq, ← hka, ← hkb, he]

/-- The values are listed in the order of their tags. -/
theorem data_sorted (s : DBInternface α) : s.data.Pairwise fun v w => tag v < tag w := by
  have h := Std.ExtTreeMap.ordered_keys_toList (t := s.db)
  rw [data, List.pairwise_map]
  refine h.imp_of_mem ?_
  intro a b ha hb hlt
  rw [s.keyed (Std.ExtTreeMap.mem_toList_iff_getElem?_eq_some.mp ha),
    s.keyed (Std.ExtTreeMap.mem_toList_iff_getElem?_eq_some.mp hb)]
  exact compare_lt_iff_lt.mp hlt

/-- Two stored values under one tag are the same value. -/
theorem eq_of_tag_eq {s : DBInternface α} {v w : α} (hv : v ∈ s.data) (hw : w ∈ s.data)
    (h : tag v = tag w) : v = w := by
  rw [mem_data] at hv hw
  rw [h, hw] at hv
  exact (Option.some.inj hv).symm

theorem ext_mem {s t : DBInternface α} (h : ∀ v, v ∈ s.data ↔ v ∈ t.data) : s = t := by
  ext k v
  constructor
  · intro hv
    have := mem_data.mp ((h v).mp (mem_data_of_get hv))
    rwa [tag_of_get hv] at this
  · intro hv
    have := mem_data.mp ((h v).mpr (mem_data_of_get hv))
    rwa [tag_of_get hv] at this

theorem contains_iff {s : DBInternface α} {k : String} :
    s.contains k = true ↔ ∃ v ∈ s.data, tag v = k := by
  simp only [contains, Option.isSome_iff_exists]
  constructor
  · rintro ⟨v, hv⟩; exact ⟨v, mem_data_of_get hv, tag_of_get hv⟩
  · rintro ⟨v, hv, rfl⟩; exact ⟨v, mem_data.mp hv⟩

theorem contains_of_mem {s : DBInternface α} {v : α} (h : v ∈ s.data) :
    s.contains (tag v) = true := contains_iff.mpr ⟨v, h, rfl⟩

@[simp] theorem contains_empty (k : String) : (empty : DBInternface α).contains k = false := by
  simp [contains]

@[simp] theorem data_empty : (empty : DBInternface α).data = [] := by
  rw [List.eq_nil_iff_forall_not_mem]
  intro v hv
  simp [mem_data] at hv

/-! ## What one write does -/

theorem get_put (s : DBInternface α) (v : α) (k : String) :
    (s.put v).2.get k = if tag v = k ∧ s.contains k = false then some v else s.get k := by
  unfold put
  split
  · rename_i hc
    rw [if_neg]
    rintro ⟨rfl, hk⟩
    rw [hc] at hk; cases hk
  · rename_i hc
    simp only [get, Std.ExtTreeMap.getElem?_insert, Std.LawfulEqCmp.compare_eq_iff_eq]
    by_cases hk : tag v = k
    · subst hk; simp [hc]
    · simp [hk]

theorem put_fst (s : DBInternface α) (v : α) : (s.put v).1 = !s.contains (tag v) := by
  unfold put; split <;> simp_all

theorem put_of_contains {s : DBInternface α} {v : α} (h : s.contains (tag v) = true) :
    (s.put v).2 = s := by
  unfold put; rw [if_pos h]

theorem mem_put {s : DBInternface α} {v w : α} :
    w ∈ (s.put v).2.data ↔ w ∈ s.data ∨ (w = v ∧ s.contains (tag v) = false) := by
  rw [mem_data, get_put, mem_data]
  by_cases h : tag v = tag w ∧ s.contains (tag w) = false
  · rw [if_pos h]
    have hn : s.get (tag w) = none := by simpa [contains] using h.2
    simp only [hn, Option.some.injEq, reduceCtorEq, false_or]
    exact ⟨fun he => ⟨he.symm, h.1 ▸ h.2⟩, fun he => he.1.symm⟩
  · rw [if_neg h]
    refine ⟨.inl, ?_⟩
    rintro (hg | ⟨rfl, hc⟩)
    · exact hg
    · exact absurd ⟨rfl, hc⟩ h

theorem contains_put (s : DBInternface α) (v : α) (k : String) :
    (s.put v).2.contains k = (s.contains k || tag v == k) := by
  rw [contains, get_put]
  by_cases h : tag v = k ∧ s.contains k = false
  · simp [h.1, h.2]
  · rw [if_neg h, ← contains]
    by_cases hk : tag v = k
    · have hc : s.contains k = true := by simpa [hk] using h
      simp [hc]
    · simp [hk]

theorem get_remove (s : DBInternface α) (v : α) (k : String) :
    (s.remove v).2.get k = if tag v = k then none else s.get k := by
  unfold remove
  split
  · simp only [get, Std.ExtTreeMap.getElem?_erase, Std.LawfulEqCmp.compare_eq_iff_eq]
  · rename_i hc
    split
    · rename_i hk
      subst hk
      simpa [contains] using hc
    · rfl

theorem removeTag_tag (s : DBInternface α) (v : α) : s.removeTag (tag v) = s.remove v := rfl

theorem remove_fst (s : DBInternface α) (v : α) : (s.remove v).1 = s.contains (tag v) := by
  unfold remove; split <;> simp_all

theorem remove_of_not_contains {s : DBInternface α} {v : α} (h : s.contains (tag v) = false) :
    (s.remove v).2 = s := by
  unfold remove; rw [if_neg (by simp [h])]

theorem contains_remove (s : DBInternface α) (v : α) (k : String) :
    (s.remove v).2.contains k = (s.contains k && tag v != k) := by
  by_cases hk : tag v = k <;> simp [contains, get_remove, hk]

theorem mem_remove {s : DBInternface α} {v w : α} :
    w ∈ (s.remove v).2.data ↔ w ∈ s.data ∧ tag v ≠ tag w := by
  rw [mem_data, get_remove, mem_data]
  by_cases hk : tag v = tag w <;> simp [hk]

/-! ## What one write does to a count -/

theorem data_put_perm {s : DBInternface α} {v : α} (h : s.contains (tag v) = false) :
    (s.put v).2.data.Perm (v :: s.data) := by
  have hnew : v ∉ s.data := by
    intro hv
    rw [contains_of_mem hv] at h
    cases h
  refine (List.perm_ext_iff_of_nodup (data_nodup _) (List.nodup_cons.mpr ⟨hnew, data_nodup s⟩)).mpr ?_
  intro w
  rw [mem_put, List.mem_cons, or_comm]
  exact or_congr_left (and_iff_left h)

theorem data_remove_perm {s : DBInternface α} {v w : α} (h : s.get (tag v) = some w) :
    s.data.Perm (w :: (s.remove v).2.data) := by
  have htag : tag w = tag v := tag_of_get h
  have hgone : w ∉ (s.remove v).2.data := fun hw => (mem_remove.mp hw).2 htag.symm
  refine (List.perm_ext_iff_of_nodup (data_nodup s) (List.nodup_cons.mpr ⟨hgone, data_nodup _⟩)).mpr ?_
  intro u
  rw [List.mem_cons, mem_remove]
  constructor
  · intro hu
    by_cases hu' : tag v = tag u
    · exact .inl (eq_of_tag_eq hu (mem_data_of_get h) (hu'.symm.trans htag.symm))
    · exact .inr ⟨hu, hu'⟩
  · rintro (rfl | hu)
    · exact mem_data_of_get h
    · exact hu.1

variable (p : α → Bool)

theorem countP_put {s : DBInternface α} {v : α} (h : s.contains (tag v) = false) :
    (s.put v).2.data.countP p = s.data.countP p + if p v then 1 else 0 := by
  rw [(data_put_perm h).countP_eq, List.countP_cons]

theorem countP_remove {s : DBInternface α} {v w : α} (h : s.get (tag v) = some w) :
    s.data.countP p = (s.remove v).2.data.countP p + if p w then 1 else 0 := by
  rw [(data_remove_perm h).countP_eq, List.countP_cons]

/-! ## The scan for the newest value -/

theorem foldl_newer (l : List α) (d : α) :
    (l.foldl newer d = d ∨ l.foldl newer d ∈ l) ∧
    timestamp d ≤ timestamp (l.foldl newer d) ∧
    ∀ v ∈ l, timestamp v ≤ timestamp (l.foldl newer d) := by
  induction l generalizing d with
  | nil => simp
  | cons w l ih =>
    simp only [List.foldl_cons]
    obtain ⟨hmem, hd, hall⟩ := ih (newer d w)
    by_cases hw : timestamp w > timestamp d
    · have hn : newer d w = w := if_pos hw
      rw [hn] at hmem hd hall ⊢
      refine ⟨.inr ?_, hw.le.trans hd, ?_⟩
      · rcases hmem with he | hm
        · rw [he]; exact List.mem_cons_self
        · exact List.mem_cons_of_mem _ hm
      · rintro v (_ | ⟨_, hv⟩)
        · exact hd
        · exact hall v hv
    · have hn : newer d w = d := if_neg hw
      rw [hn] at hmem hd hall ⊢
      refine ⟨hmem.imp_right (List.mem_cons_of_mem _), hd, ?_⟩
      rintro v (_ | ⟨_, hv⟩)
      · exact (not_lt.mp hw).trans hd
      · exact hall v hv

variable [Inhabited α]

/-- No stored value is newer than `last()`. -/
theorem timestamp_le_last {s : DBInternface α} {v : α} (h : v ∈ s.data) :
    timestamp v ≤ timestamp s.last := (foldl_newer s.data default).2.2 v h

/-- `last()` is stored as soon as some value is newer than the default-constructed one. -/
theorem last_mem {s : DBInternface α} {v : α} (h : v ∈ s.data)
    (hv : timestamp (default : α) < timestamp v) : s.last ∈ s.data := by
  rcases (foldl_newer s.data default).1 with he | hm
  · have hle := timestamp_le_last h
    unfold last at hle
    rw [he] at hle
    exact absurd hle (not_le.mpr hv)
  · exact hm

end DBInternface

end Krapi.DBInterface
