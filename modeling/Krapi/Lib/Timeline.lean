import Mathlib

/-! # Linked sets of dated records

A set of records, each with a time, a name and the name of the record before
it, is linked from `root` when times are distinct, `root` is the earliest and
every other record names the record with the next smaller time. Nothing here
says how the set is stored: a store that is scanned by time recovers the
sequence from this property alone. -/
namespace Krapi.Lib.Timeline

/-- How a record is dated, named, and linked to the record before it. -/
structure Links (α T K : Type*) where
  time : α → T
  key : α → K
  prev : α → K

variable {α T K : Type*} [LinearOrder T] {L : Links α T K} {S N : Set α} {root top a b : α}

/-- `a` is a latest record of `S`. -/
def IsTop (L : Links α T K) (S : Set α) (a : α) : Prop :=
  a ∈ S ∧ ∀ c ∈ S, L.time c ≤ L.time a

/-- `a` is the record of `S` with the next smaller time than `b`. -/
def Below (L : Links α T K) (S : Set α) (a b : α) : Prop :=
  a ∈ S ∧ L.time a < L.time b ∧ ∀ c ∈ S, L.time c < L.time b → L.time c ≤ L.time a

structure Linked (L : Links α T K) (root : α) (S : Set α) : Prop where
  root_mem : root ∈ S
  distinct : Set.InjOn L.time S
  least : ∀ b ∈ S, L.time root ≤ L.time b
  link : ∀ b ∈ S, b ≠ root → ∃ a, Below L S a b ∧ L.prev b = L.key a

theorem linked_singleton (L : Links α T K) (root : α) : Linked L root {root} where
  root_mem := rfl
  distinct := Set.injOn_singleton _ _
  least := by rintro b rfl; exact le_rfl
  link := by rintro b rfl h; exact absurd rfl h

/-- A record dated after the top and naming it extends a linked set. -/
theorem Linked.insert_top (h : Linked L root S) (ht : IsTop L S top)
    (hlt : L.time top < L.time b) (hp : L.prev b = L.key top) : Linked L root (insert b S) := by
  have hnew : ∀ c ∈ S, L.time c < L.time b := fun c hc => (ht.2 c hc).trans_lt hlt
  refine ⟨Set.mem_insert_of_mem _ h.root_mem, ?_, ?_, ?_⟩
  · have hb : b ∉ S := fun hb => (hnew b hb).false
    refine (Set.injOn_insert hb).mpr ⟨h.distinct, ?_⟩
    rintro ⟨c, hc, he⟩
    exact (hnew c hc).ne he
  · rintro c (rfl | hc)
    · exact (hnew root h.root_mem).le
    · exact h.least c hc
  · rintro c (rfl | hc) hne
    · refine ⟨top, ⟨Set.mem_insert_of_mem _ ht.1, hlt, ?_⟩, hp⟩
      rintro d (rfl | hd) hdc
      · exact absurd hdc (lt_irrefl _)
      · exact ht.2 d hd
    · obtain ⟨d, ⟨hd, hlt', hmax⟩, hprev⟩ := h.link c hc hne
      refine ⟨d, ⟨Set.mem_insert_of_mem _ hd, hlt', ?_⟩, hprev⟩
      rintro e (rfl | he) hec
      · exact absurd (hec.trans_le (ht.2 c hc)) (not_lt.mpr hlt.le)
      · exact hmax e he hec

/-- The records before some time that is after the root's are linked. -/
theorem Linked.before (h : Linked L root S) {t : T} (ht : L.time root < t) :
    Linked L root {c ∈ S | L.time c < t} where
  root_mem := ⟨h.root_mem, ht⟩
  distinct := h.distinct.mono fun c hc => hc.1
  least := fun b hb => h.least b hb.1
  link := by
    intro b hb hne
    obtain ⟨a, ⟨ha, hlt, hmax⟩, hp⟩ := h.link b hb.1 hne
    exact ⟨a, ⟨⟨ha, hlt.trans hb.2⟩, hlt, fun c hc => hmax c hc.1⟩, hp⟩

/-- A record under an unused name that keeps the set linked lies after its top:
in between it would have to be named by its successor, which already names a
record of the old set. -/
theorem Linked.after_top (h : Linked L root S) (hfin : S.Finite) (ht : IsTop L S top)
    (hk : ∀ s ∈ S, L.key b ≠ L.key s) (hi : Linked L root (insert b S)) :
    L.time top < L.time b := by
  have hbS : b ∉ S := fun hb => hk b hb rfl
  have hne : ∀ s ∈ S, L.time s ≠ L.time b := by
    intro s hs he
    exact hbS (hi.distinct (Set.mem_insert_of_mem b hs) (Set.mem_insert b S) he ▸ hs)
  by_contra hle
  have hlt : L.time b < L.time top := lt_of_le_of_ne (not_lt.mp hle) (hne top ht.1).symm
  -- the earliest old record after `b`
  obtain ⟨s, ⟨hs, hbs⟩, hmin⟩ := Set.exists_min_image {s ∈ S | L.time b < L.time s} L.time
    (hfin.subset fun s hs => hs.1) ⟨top, ht.1, hlt⟩
  have hroot : s ≠ root := by
    intro he
    rw [he] at hbs
    exact absurd (hi.least b (Set.mem_insert b S)) (not_le.mpr hbs)
  obtain ⟨a, ⟨ha, _, _⟩, hpa⟩ := h.link s hs hroot
  obtain ⟨c, ⟨hc, hcs, hcmax⟩, hpc⟩ := hi.link s (Set.mem_insert_of_mem b hs) hroot
  rcases hc with hc | hc
  · rw [hc] at hpc
    exact hk a ha (hpc.symm.trans hpa)
  · have hbc : L.time b < L.time c :=
      lt_of_le_of_ne (hcmax b (Set.mem_insert b S) hbs) (hne c hc).symm
    exact absurd (hmin c ⟨hc, hbc⟩) (not_le.mpr hcs)

/-- **Growth of a linked set.** A record under an unused name keeps a finite set
linked exactly when it is dated after the top and names it. -/
theorem Linked.insert_iff (h : Linked L root S) (hfin : S.Finite) (ht : IsTop L S top)
    (hk : ∀ s ∈ S, L.key b ≠ L.key s) :
    Linked L root (insert b S) ↔ L.time top < L.time b ∧ L.prev b = L.key top := by
  constructor
  · intro hi
    have hafter := h.after_top hfin ht hk hi
    refine ⟨hafter, ?_⟩
    have hbroot : b ≠ root := fun he => hk root h.root_mem (by rw [he])
    obtain ⟨c, ⟨hc, hcb, hmax⟩, hp⟩ := hi.link b (Set.mem_insert b S) hbroot
    have hcS : c ∈ S := by
      rcases hc with hc | hc
      · rw [hc] at hcb; exact absurd hcb (lt_irrefl _)
      · exact hc
    -- the old record just below `b` can only be the top
    have hle : L.time top ≤ L.time c := hmax top (Set.mem_insert_of_mem b ht.1) hafter
    have htop : c = top := h.distinct hcS ht.1 (le_antisymm (ht.2 c hcS) hle)
    rw [hp, htop]
  · intro ⟨hlt, hp⟩
    exact h.insert_top ht hlt hp

/-! ## Listed in order of time -/

/-- A list of records in order of time, under distinct names, each naming the one before it. -/
structure Listed (L : Links α T K) (P : List α) : Prop where
  increasing : P.Pairwise fun a b => L.time a < L.time b
  names : (P.map L.key).Nodup
  linked : P.IsChain fun a b => L.prev b = L.key a

namespace Listed

variable {P : List α} {i j k : ℕ}

theorem time_lt (h : Listed L P) (hi : P[i]? = some a) (hj : P[j]? = some b) (hij : i < j) :
    L.time a < L.time b := by
  obtain ⟨hi', rfl⟩ := List.getElem?_eq_some_iff.mp hi
  obtain ⟨hj', rfl⟩ := List.getElem?_eq_some_iff.mp hj
  exact List.pairwise_iff_getElem.mp h.increasing i j hi' hj' hij

theorem time_lt_iff (h : Listed L P) (hi : P[i]? = some a) (hj : P[j]? = some b) :
    L.time a < L.time b ↔ i < j := by
  refine ⟨fun hlt => ?_, h.time_lt hi hj⟩
  by_contra hle
  rcases Nat.lt_or_eq_of_le (not_lt.mp hle) with hji | rfl
  · exact (h.time_lt hj hi hji).not_gt hlt
  · rw [hi] at hj; cases hj; exact hlt.false

theorem key_inj (h : Listed L P) (hi : P[i]? = some a) (hj : P[j]? = some b)
    (he : L.key a = L.key b) : i = j := by
  have hab : a = b := List.inj_on_of_nodup_map h.names (List.mem_of_getElem? hi)
    (List.mem_of_getElem? hj) he
  subst hab
  rcases lt_trichotomy i j with hlt | rfl | hgt
  · exact absurd (h.time_lt hi hj hlt) (lt_irrefl _)
  · rfl
  · exact absurd (h.time_lt hj hi hgt) (lt_irrefl _)

theorem prev_eq (h : Listed L P) (hi : P[i]? = some a) (hj : P[i + 1]? = some b) :
    L.prev b = L.key a := by
  obtain ⟨hi', rfl⟩ := List.getElem?_eq_some_iff.mp hi
  obtain ⟨hj', rfl⟩ := List.getElem?_eq_some_iff.mp hj
  exact List.isChain_iff_getElem.mp h.linked i hj'

/-- **The only successor.** A record of the list is dated after the record at
position `k` and names it exactly when it stands at position `k + 1`. -/
theorem next_iff (h : Listed L P) (hk : P[k]? = some a) (hj : P[j]? = some b) :
    (L.time a < L.time b ∧ L.prev b = L.key a) ↔ j = k + 1 := by
  constructor
  · rintro ⟨hlt, hp⟩
    have hkj : k < j := (h.time_lt_iff hk hj).mp hlt
    obtain ⟨i, rfl⟩ : ∃ i, j = i + 1 := ⟨j - 1, by omega⟩
    obtain ⟨c, hc⟩ : ∃ c, P[i]? = some c := by
      have := (List.getElem?_eq_some_iff.mp hj).1
      exact ⟨_, List.getElem?_eq_getElem (by omega)⟩
    have hik := h.key_inj hc hk ((h.prev_eq hc hj).symm.trans hp)
    rw [hik]
  · rintro rfl
    exact ⟨h.time_lt hk hj (Nat.lt_succ_self k), h.prev_eq hk hj⟩

/-- A record dated after all of the list, under a new name and naming the last one. -/
theorem concat (h : Listed L P) (htime : ∀ a ∈ P, L.time a < L.time b)
    (hkey : ∀ a ∈ P, L.key a ≠ L.key b) (hprev : ∀ a ∈ P.getLast?, L.prev b = L.key a) :
    Listed L (P ++ [b]) := by
  refine ⟨?_, ?_, ?_⟩
  · rw [List.pairwise_append]
    refine ⟨h.increasing, List.pairwise_singleton _ _, ?_⟩
    intro a ha c hc
    rw [List.mem_singleton.mp hc]
    exact htime a ha
  · rw [List.map_append, List.map_singleton, List.nodup_append]
    refine ⟨h.names, List.nodup_singleton _, ?_⟩
    intro x hx y hy
    obtain ⟨a, ha, rfl⟩ := List.mem_map.mp hx
    rw [List.mem_singleton.mp hy]
    exact hkey a ha
  · refine h.linked.append (List.isChain_singleton b) ?_
    intro a ha c hc
    cases hc
    exact hprev a ha

theorem time_le_getLast (h : Listed L P) (hb : b ∈ P.getLast?) (ha : a ∈ P) :
    L.time a ≤ L.time b := by
  obtain ⟨init, rfl⟩ := List.getLast?_eq_some_iff.mp hb
  rcases List.mem_append.mp ha with ha | ha
  · have hpair := (List.pairwise_append.mp h.increasing).2.2
    exact (hpair a ha b (by simp)).le
  · rw [List.mem_singleton.mp ha]

end Listed

/-! ## From the set to the list -/

/-- Without its top, a linked set is still linked. -/
theorem Linked.erase_top (h : Linked L root S) (ht : IsTop L S top) (hne : top ≠ root) :
    Linked L root (S \ {top}) := by
  refine ⟨⟨h.root_mem, hne.symm⟩, h.distinct.mono Set.sdiff_subset, fun b hb => h.least b hb.1, ?_⟩
  intro b hb hroot
  obtain ⟨a, ⟨ha, hab, hmax⟩, hp⟩ := h.link b hb.1 hroot
  have hatop : a ≠ top := by
    intro he
    rw [he] at hab
    exact absurd (ht.2 b hb.1) (not_le.mpr hab)
  exact ⟨a, ⟨⟨ha, hatop⟩, hab, fun c hc hcb => hmax c hc.1 hcb⟩, hp⟩

/-- The top comes last: the rest of the set in order, then the top. -/
theorem Linked.list_top {P : List α} (h : Linked L root S) (ht : IsTop L S top) (hne : top ≠ root)
    (hkey : Set.InjOn L.key S) (hP : Listed L P) (hmem : ∀ a, a ∈ P ↔ a ∈ S \ {top}) :
    Listed L (P ++ [top]) := by
  have hlater : ∀ a ∈ P, L.time a < L.time top := by
    intro a ha
    obtain ⟨haS, hatop⟩ := (hmem a).mp ha
    exact lt_of_le_of_ne (ht.2 a haS) fun he => hatop (h.distinct haS ht.1 he)
  obtain ⟨a, ⟨ha, hat, habove⟩, hp⟩ := h.link top ht.1 hne
  have haP : a ∈ P := (hmem a).mpr ⟨ha, fun he => hat.ne (congrArg L.time he)⟩
  refine hP.concat hlater ?_ ?_
  · intro b hb he
    obtain ⟨hbS, hbtop⟩ := (hmem b).mp hb
    exact hbtop (hkey hbS ht.1 he)
  · -- the last of the list is the record that the top names
    intro b hb
    have hbP : b ∈ P := List.mem_of_getLast? hb
    have hbS : b ∈ S := ((hmem b).mp hbP).1
    have hba : L.time b ≤ L.time a := habove b hbS (hlater b hbP)
    rw [hp, h.distinct ha hbS (le_antisymm (hP.time_le_getLast hb haP) hba)]

/-- **A finite linked set is a list.** With distinct names it can be listed in
order of time, from its root on. -/
theorem Linked.exists_listed (h : Linked L root S) (hfin : S.Finite) (hkey : Set.InjOn L.key S) :
    ∃ P, Listed L P ∧ P[0]? = some root ∧ ∀ a, a ∈ P ↔ a ∈ S := by
  -- by the number of records: list the set without its top
  induction hcard : S.ncard generalizing S with
  | zero =>
    rw [Set.ncard_eq_zero hfin] at hcard
    exact absurd h.root_mem (by simp [hcard])
  | succ count ih =>
    obtain ⟨top, htop, hmax⟩ := Set.exists_max_image S L.time hfin ⟨root, h.root_mem⟩
    by_cases hroot : top = root
    · refine ⟨[root], ⟨List.pairwise_singleton _ _, List.nodup_singleton _,
        List.isChain_singleton _⟩, rfl, ?_⟩
      intro a
      rw [List.mem_singleton]
      constructor
      · intro he; rw [he]; exact h.root_mem
      · intro ha
        exact h.distinct ha h.root_mem (le_antisymm (hroot ▸ hmax a ha) (h.least a ha))
    · have hcard' : (S \ {top}).ncard = count := by
        rw [Set.ncard_sdiff_singleton_of_mem htop, hcard, Nat.add_sub_cancel]
      obtain ⟨P, hP, hfirst, hmem⟩ := ih (h.erase_top ⟨htop, hmax⟩ hroot)
        (hfin.subset Set.sdiff_subset) (hkey.mono Set.sdiff_subset) hcard'
      refine ⟨P ++ [top], h.list_top ⟨htop, hmax⟩ hroot hkey hP hmem, ?_, ?_⟩
      · rw [List.getElem?_append_left (List.getElem?_eq_some_iff.mp hfirst).1]
        exact hfirst
      · intro b
        rw [List.mem_append, List.mem_singleton, hmem]
        by_cases he : b = top
        · simp [he, htop]
        · simp [he]

end Krapi.Lib.Timeline
