import Mathlib

/-! # Two parties that settle one offer at a time

A party offers an item to the other one before it adds the item to its own
ledger. The other adds what passes its own check at once and refuses the rest;
the offering party gives an item up on a refusal, or checks it itself at some
time. Messages are only counted, not ordered.

Nothing here repairs two ledgers that differ. The ledgers agree whenever
everything is settled, provided an offer is only made when no other offer and no
refusal of an earlier one is under way and both parties judge the item alike. -/
namespace Krapi.Lib.Settlement

inductive Message (β : Type*) where
  | offer (b : β)
  | refused

variable {σ β γ : Type*}

def Message.item? : Message β → Option β
  | .offer b => some b
  | .refused => none

@[ext] structure Party (σ β : Type*) where
  state : σ
  /-- The item offered and not decided upon. -/
  offered : Option β
  arrived : Multiset (Message β)
  leaving : Multiset (Message β)

/-- What the parties do with items: the check, the ledger in a party's state, and
what a ledger becomes with an item. -/
structure Rules (σ β γ : Type*) where
  passes : σ → β → Prop
  ledger : σ → γ
  add : β → γ → γ

/-- One party's steps, where it may offer an item only if `may` allows it. -/
inductive Moves (R : Rules σ β γ) (may : β → Prop) (v : Party σ β) : Party σ β → Prop where
  | quiet : Moves R may v v
  | offer (b : β) : may b → Moves R may v
      { v with offered := some b, leaving := .offer b ::ₘ v.leaving }
  | accept (b : β) (rest : Multiset (Message β)) (state : σ) : v.arrived = .offer b ::ₘ rest →
      R.passes v.state b → R.ledger state = R.add b (R.ledger v.state) → Moves R may v
      { v with state := state, arrived := rest }
  | refuse (b : β) (rest : Multiset (Message β)) : v.arrived = .offer b ::ₘ rest →
      ¬ R.passes v.state b → Moves R may v
      { v with arrived := rest, leaving := .refused ::ₘ v.leaving }
  | hear (rest : Multiset (Message β)) (offered : Option β) :
      v.arrived = .refused ::ₘ rest → offered = v.offered ∨ offered = none → Moves R may v
      { v with arrived := rest, offered := offered }
  | store (b : β) (state : σ) : v.offered = some b → R.passes v.state b →
      R.ledger state = R.add b (R.ledger v.state) → Moves R may v
      { v with state := state, offered := none }
  | discard (b : β) : v.offered = some b → ¬ R.passes v.state b → Moves R may v
      { v with offered := none }

theorem Moves.of_eq {R : Rules σ β γ} {may : β → Prop} {v v' : Party σ β} (h : v' = v) :
    Moves R may v v' := by
  rw [h]; exact .quiet

/-! ## What is under way -/

/-- The items on offer among the messages. -/
def offers (lane : Multiset (Message β)) : Multiset β := lane.filterMap Message.item?

@[simp] theorem offers_zero : offers (0 : Multiset (Message β)) = 0 := rfl

@[simp] theorem offers_cons_offer (b : β) (lane : Multiset (Message β)) :
    offers (.offer b ::ₘ lane) = b ::ₘ offers lane := Multiset.filterMap_cons_some _ _ _ rfl

@[simp] theorem offers_cons_refused (lane : Multiset (Message β)) : offers (.refused ::ₘ lane) = offers lane :=
  Multiset.filterMap_cons_none _ _ rfl

@[simp] theorem offers_add (lane lane' : Multiset (Message β)) :
    offers (lane + lane') = offers lane + offers lane' := Multiset.filterMap_add _ _ _

/-- Nothing is offered by the party that is not decided upon and judged. -/
structure Settled (v w : Party σ β) : Prop where
  offered : v.offered = none
  offers : offers (v.leaving + w.arrived) = 0

/-- When `v` may offer `b` to `w`. -/
structure MayOffer (R : Rules σ β γ) (v w : Party σ β) (b : β) : Prop where
  own : Settled v w
  other : Settled w v
  refused : .refused ∉ w.leaving + v.arrived
  alike : R.ledger v.state = R.ledger w.state → (R.passes v.state b ↔ R.passes w.state b)

/-! ## One round -/

/-- The ledger after the verdict on `b`. -/
def Rules.outcome (R : Rules σ β γ) (ok : Bool) (b : β) (c : γ) : γ := if ok then R.add b c else c

/-- The party that offered `b` on top of the ledger `c`, with the verdict to come. -/
inductive Offering (R : Rules σ β γ) (b : β) (c : γ) (ok : Bool) (state : σ) : Option β → Prop where
  | undecided : R.ledger state = c → (R.passes state b ↔ ok = true) → Offering R b c ok state (some b)
  | done : R.ledger state = R.outcome ok b c → Offering R b c ok state none

/-- The party that judges `b`, with the lane to it and the lane back. -/
inductive Judging (R : Rules σ β γ) (b : β) (c : γ) (ok : Bool) (state : σ)
    (lane back : Multiset (Message β)) : Prop where
  | pending : offers lane = {b} → .refused ∉ back → R.ledger state = c →
      (R.passes state b ↔ ok = true) → Judging R b c ok state lane back
  | judged : offers lane = 0 → (.refused ∈ back → ok = false) → R.ledger state = R.outcome ok b c →
      Judging R b c ok state lane back

/-- `v` made the last offer, and `w` is the other party. -/
structure Round (R : Rules σ β γ) (v w : Party σ β) : Prop where
  settled : Settled w v
  stage : ∃ b c ok, Offering R b c ok v.state v.offered ∧
    Judging R b c ok w.state (v.leaving + w.arrived) (w.leaving + v.arrived)

/-- Two parties in the middle of at most one offer. -/
def InStep (R : Rules σ β γ) (v w : Party σ β) : Prop := Round R v w ∨ Round R w v

variable {R : Rules σ β γ} {v w v' w' : Party σ β}

theorem InStep.symm (h : InStep R v w) : InStep R w v := Or.symm h

/-- The two ledgers agree once the last offer is decided upon and judged. -/
theorem Round.agree (h : Round R v w) (hv : Settled v w) : R.ledger v.state = R.ledger w.state := by
  obtain ⟨_, b, c, ok, hoff, hjudge⟩ := h
  rw [hv.offered] at hoff
  cases hoff with
  | done hl =>
    cases hjudge with
    | pending ho _ _ _ => exact absurd (ho.symm.trans hv.offers) (Multiset.singleton_ne_zero b)
    | judged _ _ hl' => exact hl.trans hl'.symm

theorem InStep.agree (h : InStep R v w) (hv : Settled v w) (hw : Settled w v) :
    R.ledger v.state = R.ledger w.state := by
  rcases h with h | h
  · exact h.agree hv
  · exact (h.agree hw).symm

/-- Parties with equal ledgers and nothing under way are in step. -/
theorem inStep_of_settled [Inhabited β] (hv : Settled v w) (hw : Settled w v)
    (h : R.ledger v.state = R.ledger w.state) : InStep R v w := by
  refine .inl ⟨hw, default, R.ledger v.state, false, ?_, .judged hv.offers (fun _ => rfl) h.symm⟩
  rw [hv.offered]
  exact .done rfl

/-- A message that goes from one end of a lane to the other changes nothing. -/
theorem InStep.deliver {m : Message β} {rest : Multiset (Message β)} (h : InStep R v w)
    (hm : v.leaving = m ::ₘ rest) :
    InStep R { v with leaving := rest } { w with arrived := m ::ₘ w.arrived } := by
  have hlane : rest + (m ::ₘ w.arrived) = v.leaving + w.arrived := by
    rw [hm, Multiset.add_cons, Multiset.cons_add]
  rcases h with ⟨hs, b, c, ok, hoff, hjudge⟩ | ⟨hs, b, c, ok, hoff, hjudge⟩
  · exact .inl ⟨⟨hs.offered, hs.offers⟩, b, c, ok, hoff, hlane.symm ▸ hjudge⟩
  · exact .inr ⟨⟨hs.offered, (congrArg offers hlane).trans hs.offers⟩, b, c, ok, hoff, hlane.symm ▸ hjudge⟩

/-! ## What a step does to a round -/

section Decisions
variable {b b' : β} {c : γ} {ok : Bool} {state state' : σ} {offered : Option β}

/-- Giving up a refused item leaves the ledger the verdict gives. -/
theorem Offering.giveUp (h : Offering R b c false state offered) : Offering R b c false state none := by
  cases h with
  | undecided hl _ => exact .done hl
  | done hl => exact .done hl

theorem Offering.store (h : Offering R b c ok state (some b')) (hpass : R.passes state b')
    (hl : R.ledger state' = R.add b' (R.ledger state)) : Offering R b c ok state' none := by
  cases h with
  | undecided hc hp =>
    have hok : ok = true := hp.mp hpass
    exact .done (by rw [hl, hc, hok]; rfl)

theorem Offering.discard (h : Offering R b c ok state (some b')) (hpass : ¬ R.passes state b') :
    Offering R b c ok state none := by
  cases h with
  | undecided hc hp =>
    have hok : ok = false := Bool.eq_false_iff.mpr (mt hp.mpr hpass)
    exact .done (by rw [hc, hok]; rfl)

end Decisions

section Lanes
variable {b b' : β} {c : γ} {ok : Bool} {state : σ} {lane lane' back back' : Multiset (Message β)}

/-- The item on offer is the one to be judged. -/
theorem Judging.of_offer (h : Judging R b c ok state lane back) (hlane : lane = .offer b' ::ₘ lane') :
    b' = b ∧ offers lane' = 0 ∧ .refused ∉ back ∧ R.ledger state = c ∧ (R.passes state b ↔ ok = true) := by
  rw [hlane] at h
  cases h with
  | pending ho hr hl hp =>
    rw [offers_cons_offer] at ho
    obtain ⟨rfl, hrest⟩ := (Multiset.singleton_eq_cons_iff _).mp ho.symm
    exact ⟨rfl, hrest, hr, hl, hp⟩
  | judged ho _ _ =>
    rw [offers_cons_offer] at ho
    exact absurd ho Multiset.cons_ne_zero

/-- A refusal under way says what the verdict is. -/
theorem Judging.of_refused (h : Judging R b c ok state lane back) (hr : .refused ∈ back) : ok = false := by
  cases h with
  | pending _ hno _ _ => exact absurd hr hno
  | judged _ hok _ => exact hok hr

/-- Refusals of what the other party offered do not matter, nor does one less of the own ones. -/
theorem Judging.congr (h : Judging R b c ok state lane back) (hlane : offers lane' = offers lane)
    (hback : .refused ∈ back' → .refused ∈ back) : Judging R b c ok state lane' back' := by
  cases h with
  | pending ho hr hl hp => exact .pending (hlane.trans ho) (fun hin => hr (hback hin)) hl hp
  | judged ho hok hl => exact .judged (hlane.trans ho) (fun hin => hok (hback hin)) hl

end Lanes

/-- An offer opens a round on the ledger that both parties hold. -/
theorem InStep.offer {b : β} (h : InStep R v w) (hmay : MayOffer R v w b) :
    Round R { v with offered := some b, leaving := .offer b ::ₘ v.leaving } w := by
  have heq := h.agree hmay.own hmay.other
  have halike := hmay.alike heq
  classical
  refine ⟨⟨hmay.other.offered, hmay.other.offers⟩, b, R.ledger v.state, decide (R.passes v.state b), ?_, ?_⟩
  · exact .undecided rfl (by simp)
  · refine .pending ?_ hmay.refused heq.symm (by simp [halike])
    change offers ((.offer b ::ₘ v.leaving) + w.arrived) = {b}
    rw [Multiset.cons_add, offers_cons_offer, hmay.own.offers]
    rfl

/-- The offering party's own step. -/
theorem Round.offering_moves (h : Round R v w) (hm : Moves R (MayOffer R v w) v v') :
    InStep R v' w := by
  have hstep : InStep R v w := .inl h
  obtain ⟨hs, b, c, ok, hoff, hjudge⟩ := h
  -- nothing is offered to the offering party
  have hnone : ∀ b' rest, v.arrived ≠ .offer b' ::ₘ rest := by
    intro b' rest harr
    have ho := hs.offers
    rw [harr, Multiset.add_cons, offers_cons_offer] at ho
    exact Multiset.cons_ne_zero ho
  cases hm with
  | quiet => exact hstep
  | offer b hmay => exact .inl (hstep.offer hmay)
  | accept b' rest state harr => exact absurd harr (hnone b' rest)
  | refuse b' rest harr => exact absurd harr (hnone b' rest)
  | hear rest offered harr hoffered =>
    have hback : w.leaving + v.arrived = .refused ::ₘ (w.leaving + rest) := by rw [harr, Multiset.add_cons]
    have hok : ok = false := hjudge.of_refused (hback ▸ Multiset.mem_cons_self _ _)
    subst hok
    refine .inl ⟨⟨hs.offered, ?_⟩, b, c, false, ?_, hjudge.congr rfl ?_⟩
    · exact (offers_cons_refused _).symm.trans ((congrArg offers hback).symm.trans hs.offers)
    · change Offering R b c false v.state offered
      rcases hoffered with rfl | rfl
      · exact hoff
      · exact hoff.giveUp
    · exact fun hin => hback ▸ Multiset.mem_cons_of_mem hin
  | store b' state hb' hpass hl =>
    rw [hb'] at hoff
    exact .inl ⟨⟨hs.offered, hs.offers⟩, b, c, ok, hoff.store hpass hl, hjudge⟩
  | discard b' hb' hpass =>
    rw [hb'] at hoff
    exact .inl ⟨⟨hs.offered, hs.offers⟩, b, c, ok, hoff.discard hpass, hjudge⟩

/-- The judging party's own step. -/
theorem Round.judging_moves (h : Round R v w) (hm : Moves R (MayOffer R w v) w w') :
    InStep R v w' := by
  have hstep : InStep R v w := .inl h
  obtain ⟨hs, b, c, ok, hoff, hjudge⟩ := h
  -- the only item on offer is the one of the round
  have hoffer : ∀ b' rest, w.arrived = .offer b' ::ₘ rest →
      b' = b ∧ offers (v.leaving + rest) = 0 ∧ .refused ∉ w.leaving + v.arrived ∧ R.ledger w.state = c ∧
        (R.passes w.state b ↔ ok = true) := by
    intro b' rest harr
    have hlane : v.leaving + w.arrived = .offer b' ::ₘ (v.leaving + rest) := by
      rw [harr, Multiset.add_cons]
    exact hjudge.of_offer hlane
  cases hm with
  | quiet => exact hstep
  | offer b hmay => exact .inr (hstep.symm.offer hmay)
  | accept b' rest state harr hpass hl =>
    obtain ⟨rfl, hoffers, hrefused, hc, hp⟩ := hoffer _ _ harr
    have hok := hp.mp hpass
    refine .inl ⟨⟨hs.offered, hs.offers⟩, b', c, ok, hoff, .judged hoffers (fun hin => absurd hin hrefused) ?_⟩
    change R.ledger state = _
    rw [hl, hc, hok]
    rfl
  | refuse b' rest harr hpass =>
    obtain ⟨rfl, hoffers, hrefused, hc, hp⟩ := hoffer _ _ harr
    have hok : ok = false := Bool.eq_false_iff.mpr (mt hp.mpr hpass)
    refine .inl ⟨⟨hs.offered, ?_⟩, b', c, ok, hoff, .judged hoffers (fun _ => hok) ?_⟩
    · change offers ((.refused ::ₘ w.leaving) + v.arrived) = 0
      rw [Multiset.cons_add, offers_cons_refused]
      exact hs.offers
    · change R.ledger w.state = _
      rw [hc, hok]
      rfl
  | hear rest offered harr hoffered =>
    have hlane : offers (v.leaving + rest) = offers (v.leaving + w.arrived) := by
      rw [harr, Multiset.add_cons, offers_cons_refused]
    have hnone : offered = none := hoffered.elim (fun he => he.trans hs.offered) id
    exact .inl ⟨⟨hnone, hs.offers⟩, b, c, ok, hoff, hjudge.congr hlane id⟩
  | store b' state hb' _ _ =>
    rw [hs.offered] at hb'
    cases hb'
  | discard b' hb' _ =>
    rw [hs.offered] at hb'
    cases hb'

/-- **A step of either party keeps them in step**, as long as offers are made one at a time. -/
theorem InStep.moves (h : InStep R v w) (hm : Moves R (MayOffer R v w) v v') : InStep R v' w := by
  rcases h with h | h
  · exact h.offering_moves hm
  · exact (h.judging_moves hm).symm

end Krapi.Lib.Settlement
