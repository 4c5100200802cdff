import Krapi.Lib.Gossip
import Krapi.Lib.Simulation

/-! # The same parties in another language

Two kinds of parties that differ in what they write: each writing tells of one message,
it reaches whom its message reaches, and who acts or hears does as the party of the other
kind does and sends writings that tell of what that one sends. Their worlds then stay
alike for good. -/
namespace Krapi.Lib.Recoding
open Krapi.Lib.Run Krapi.Lib.Gossip Krapi.Lib.Simulation

variable {ι S A B M T : Type*}

/-- The parties of `Q` do with what they write what those of `P` do with messages. -/
structure Recodes (Q : Parties ι S B T) (P : Parties ι S A M) (plain : B → A) (tells : T → M → Prop) : Prop where
  act : ∀ i s b, (Q.act i s b).1 = (P.act i s (plain b)).1 ∧ List.Forall₂ tells (Q.act i s b).2 (P.act i s (plain b)).2
  hear : ∀ i s {t m}, tells t m → P.reaches m i = true →
    (Q.hear i s t).1 = (P.hear i s m).1 ∧ List.Forall₂ tells (Q.hear i s t).2 (P.hear i s m).2
  reaches : ∀ i {t m}, tells t m → Q.reaches t i = P.reaches m i

/-- The move with the action behind the action. -/
def Move.plain (plain : B → A) : Move ι B → Move ι A
  | .act i b => .act i (plain b)
  | .deliver i k => .deliver i k

structure Alike (tells : T → M → Prop) (w : World ι S T) (v : World ι S M) : Prop where
  party : w.party = v.party
  sent : List.Forall₂ tells w.sent v.sent

variable [DecidableEq ι] {Q : Parties ι S B T} {P : Parties ι S A M} {plain : B → A} {tells : T → M → Prop}
  {w : World ι S T} {v : World ι S M}

theorem Alike.update (h : Alike tells w v) (i : ι) {r : S × List T} {q : S × List M} (hparty : r.1 = q.1)
    (hsent : List.Forall₂ tells r.2 q.2) : Alike tells (w.update i r) (v.update i q) := by
  refine ⟨?_, ?_⟩
  · show Function.update w.party i r.1 = Function.update v.party i q.1
    rw [h.party, hparty]
  · exact List.rel_append h.sent hsent

omit [DecidableEq ι] in
/-- What was written at a position tells of the message there. -/
theorem Alike.getElem? (h : Alike tells w v) (k : ℕ) :
    w.sent[k]? = none ∧ v.sent[k]? = none ∨ ∃ t m, w.sent[k]? = some t ∧ v.sent[k]? = some m ∧ tells t m := by
  obtain ⟨hlength, hsays⟩ := List.forall₂_iff_get.mp h.sent
  by_cases hk : k < w.sent.length
  · have hk' : k < v.sent.length := hlength ▸ hk
    exact .inr ⟨_, _, List.getElem?_eq_getElem hk, List.getElem?_eq_getElem hk', hsays k hk hk'⟩
  · have hk' : ¬ k < v.sent.length := hlength ▸ hk
    exact .inl ⟨List.getElem?_eq_none (not_lt.mp hk), List.getElem?_eq_none (not_lt.mp hk')⟩

theorem Recodes.step (hQ : Recodes Q P plain tells) (h : Alike tells w v) (move : Move ι B) :
    Alike tells (Gossip.step Q w move) (Gossip.step P v (Move.plain plain move)) := by
  cases move with
  | act i b =>
    have hact := hQ.act i (w.party i) b
    rw [h.party] at hact
    show Alike tells (w.update i (Q.act i (w.party i) b)) (v.update i (P.act i (v.party i) (plain b)))
    rw [h.party]
    exact h.update i hact.1 hact.2
  | deliver i k =>
    unfold Move.plain Gossip.step
    dsimp only
    rcases h.getElem? k with ⟨hw, hv⟩ | ⟨t, m, hw, hv, hsays⟩
    · rw [hw, hv]
      exact h
    · rw [hw, hv]
      dsimp only
      rw [hQ.reaches i hsays, h.party]
      cases hr : P.reaches m i with
      | false => exact h
      | true =>
        obtain ⟨hparty, hsent⟩ := hQ.hear i (v.party i) hsays hr
        exact h.update i hparty hsent

/-- **In the other language, parties do what they do in theirs.** -/
theorem Recodes.run (hQ : Recodes Q P plain tells) (moves : List (Move ι B)) (h : Alike tells w v) :
    Alike tells (run (Gossip.step Q) w moves) (run (Gossip.step P) v (moves.map (Move.plain plain))) :=
  lockstep (f := Gossip.step Q) (R := Alike tells) (Move.plain plain) (fun _ _ move h => hQ.step h move) moves h

end Krapi.Lib.Recoding
