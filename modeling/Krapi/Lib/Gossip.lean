import Krapi.Lib.Run

/-! # Parties that talk over a network which promises nothing

Every party has a state of its own; it acts by itself or on a message that it
hears, and either may send messages. What was sent is never forgotten: a party
that a message is meant for may hear it at any later time, again and again, or
never. So a run is any interleaving of the parties with loss, delay, reordering
and repetition, and what holds of all runs holds of any network below.

A party cannot look into another one, yet messages may tell what their senders
know. `Teaches` is the rule for that: facts that a party knows for good are
established, and messages and invariants may rest on established facts. -/
namespace Krapi.Lib.Gossip
open Krapi.Lib.Run

/-- What the parties do: alone, on hearing a message, and whom a message may reach. -/
structure Parties (ι S A M : Type*) where
  act : ι → S → A → S × List M
  hear : ι → S → M → S × List M
  reaches : M → ι → Bool

structure World (ι S M : Type*) where
  party : ι → S
  /-- Everything sent so far. -/
  sent : List M

inductive Move (ι A : Type*) where
  | act (i : ι) (a : A)
  /-- The message at position `k` of what was sent arrives at `i`. -/
  | deliver (i : ι) (k : ℕ)
  deriving Repr, DecidableEq

variable {ι S A M F : Type*} [DecidableEq ι]

/-- The world after party `i` went on to `r.1` and sent `r.2`. -/
def World.update (w : World ι S M) (i : ι) (r : S × List M) : World ι S M where
  party := Function.update w.party i r.1
  sent := w.sent ++ r.2

def step (P : Parties ι S A M) (w : World ι S M) : Move ι A → World ι S M
  | .act i a => w.update i (P.act i (w.party i) a)
  | .deliver i k =>
    match w.sent[k]? with
    | some m => if P.reaches m i then w.update i (P.hear i (w.party i) m) else w
    | none => w

@[simp] theorem update_party_same (w : World ι S M) (i : ι) (r : S × List M) :
    (w.update i r).party i = r.1 := Function.update_self ..

theorem update_party_of_ne (w : World ι S M) {i j : ι} (h : j ≠ i) (r : S × List M) :
    (w.update i r).party j = w.party j := Function.update_of_ne h ..

@[simp] theorem update_sent (w : World ι S M) (i : ι) (r : S × List M) :
    (w.update i r).sent = w.sent ++ r.2 := rfl

/-- **Everything a move can do.** The party acts, or hears a message that was sent and
is meant for it, or nothing happens. -/
theorem step_cases (P : Parties ι S A M) (w : World ι S M) (move : Move ι A) :
    step P w move = w ∨
    (∃ i a, move = .act i a ∧ step P w move = w.update i (P.act i (w.party i) a)) ∨
    (∃ i m, m ∈ w.sent ∧ P.reaches m i = true ∧ step P w move = w.update i (P.hear i (w.party i) m)) := by
  cases move with
  | act i a => exact .inr (.inl ⟨i, a, rfl, rfl⟩)
  | deliver i k =>
    cases hk : w.sent[k]? with
    | none =>
      refine .inl ?_
      simp only [step, hk]
    | some m =>
      cases hr : P.reaches m i with
      | false =>
        refine .inl ?_
        simp [step, hk, hr]
      | true =>
        refine .inr (.inr ⟨i, m, List.mem_of_getElem? hk, hr, ?_⟩)
        simp [step, hk, hr]

/-- What the acts of a run yield, each read off the act and the state it was taken in. -/
def yields {O : Type*} (P : Parties ι S A M) (out : ι → S → A → List O) : World ι S M → List (Move ι A) → List O
  | _, [] => []
  | w, .act i a :: moves => out i (w.party i) a ++ yields P out (step P w (.act i a)) moves
  | w, .deliver i k :: moves => yields P out (step P w (.deliver i k)) moves

/-! ## What the parties can rely on -/

/-- The facts of `E` and those that the party knows. -/
def Taught (known : S → F → Prop) (E : F → Prop) (s : S) (f : F) : Prop := E f ∨ known s f

/-- A step of a party from `s` that ended in `r`: it forgets no fact, keeps its
invariant, and sends nothing but good messages, where both may rest on what it
knows now. -/
structure Teaches.Step (known : S → F → Prop) (Inv : (F → Prop) → ι → S → Prop) (Good : (F → Prop) → M → Prop)
    (E : F → Prop) (i : ι) (s : S) (r : S × List M) : Prop where
  keeps : ∀ f, known s f → known r.1 f
  inv : Inv (Taught known E r.1) i r.1
  good : ∀ m ∈ r.2, Good (Taught known E r.1) m

/-- Every step of every party is of that kind, whichever facts are established
besides those that the party knows itself. -/
structure Teaches (P : Parties ι S A M) (ok : ι → S → A → Prop) (known : S → F → Prop)
    (Inv : (F → Prop) → ι → S → Prop) (Good : (F → Prop) → M → Prop) : Prop where
  inv_mono : ∀ {E E' : F → Prop} {i : ι} {s : S}, (∀ f, E f → E' f) → Inv E i s → Inv E' i s
  good_mono : ∀ {E E' : F → Prop} {m : M}, (∀ f, E f → E' f) → Good E m → Good E' m
  act : ∀ {E : F → Prop} {i : ι} {s : S} (a : A), ok i s a → (∀ f, known s f → E f) → Inv E i s →
    Teaches.Step known Inv Good E i s (P.act i s a)
  hear : ∀ {E : F → Prop} {i : ι} {s : S} {m : M}, P.reaches m i = true → Good E m →
    (∀ f, known s f → E f) → Inv E i s → Teaches.Step known Inv Good E i s (P.hear i s m)

/-- Some party knows the fact. -/
def Established (known : S → F → Prop) (w : World ι S M) (f : F) : Prop := ∃ i, known (w.party i) f

/-- Invariants and messages rest on established facts. -/
structure Sound (known : S → F → Prop) (Inv : (F → Prop) → ι → S → Prop) (Good : (F → Prop) → M → Prop)
    (w : World ι S M) : Prop where
  inv : ∀ i, Inv (Established known w) i (w.party i)
  good : ∀ m ∈ w.sent, Good (Established known w) m

/-- A move of the parties that is allowed to them as they are. -/
def Move.Allowed (ok : ι → S → A → Prop) (w : World ι S M) : Move ι A → Prop
  | .act i a => ok i (w.party i) a
  | .deliver _ _ => True

variable {P : Parties ι S A M} {ok : ι → S → A → Prop} {known : S → F → Prop}
  {Inv : (F → Prop) → ι → S → Prop} {Good : (F → Prop) → M → Prop} {w : World ι S M}

/-- Each act of a run is in it, and yields nothing but what the run yields. -/
theorem along_yields {O : Type*} {out : ι → S → A → List O} {all : List O} {every : List (Move ι A)} :
    ∀ (moves : List (Move ι A)) (w : World ι S M), (∀ move ∈ moves, move ∈ every) →
      (∀ o ∈ yields P out w moves, o ∈ all) →
      Along (step P) (Move.Allowed fun i s a => Move.act i a ∈ every ∧ ∀ o ∈ out i s a, o ∈ all) w moves
  | [], _, _, _ => trivial
  | .act i a :: moves, w, hevery, hall => by
    have hrest := along_yields moves (step P w (.act i a)) (fun move h => hevery move (List.mem_cons_of_mem _ h))
      fun o ho => hall o (List.mem_append_right _ ho)
    exact ⟨⟨hevery _ List.mem_cons_self, fun o ho => hall o (List.mem_append_left _ ho)⟩, hrest⟩
  | .deliver i k :: moves, w, hevery, hall =>
    ⟨trivial, along_yields moves _ (fun move h => hevery move (List.mem_cons_of_mem _ h)) hall⟩

theorem established_update {i : ι} {r : S × List M} (h : ∀ f, known (w.party i) f → known r.1 f) (f : F) :
    Established known (w.update i r) f ↔ Taught known (Established known w) r.1 f := by
  constructor
  · intro ⟨j, hj⟩
    by_cases hji : j = i
    · subst hji
      rw [update_party_same] at hj
      exact .inr hj
    · rw [update_party_of_ne w hji] at hj
      exact .inl ⟨j, hj⟩
  · rintro (⟨j, hj⟩ | hnew)
    · refine ⟨j, ?_⟩
      by_cases hji : j = i
      · subst hji
        rw [update_party_same]
        exact h f hj
      · rw [update_party_of_ne w hji]
        exact hj
    · exact ⟨i, by rw [update_party_same]; exact hnew⟩

theorem Sound.update (hP : Teaches P ok known Inv Good) (hw : Sound known Inv Good w) {i : ι} {r : S × List M}
    (h : Teaches.Step known Inv Good (Established known w) i (w.party i) r) :
    Sound known Inv Good (w.update i r) := by
  have hsame := established_update (w := w) h.keeps
  have hmore : ∀ f, Established known w f → Established known (w.update i r) f :=
    fun f hf => (hsame f).mpr (.inl hf)
  refine ⟨?_, ?_⟩
  · intro j
    by_cases hji : j = i
    · subst hji
      rw [update_party_same]
      exact hP.inv_mono (fun f hf => (hsame f).mpr hf) h.inv
    · rw [update_party_of_ne w hji]
      exact hP.inv_mono hmore (hw.inv j)
  · intro m hm
    rcases List.mem_append.mp hm with hold | hnew
    · exact hP.good_mono hmore (hw.good m hold)
    · exact hP.good_mono (fun f hf => (hsame f).mpr hf) (h.good m hnew)

theorem Sound.step (hP : Teaches P ok known Inv Good) {move : Move ι A} (hok : move.Allowed ok w)
    (hw : Sound known Inv Good w) : Sound known Inv Good (step P w move) := by
  have hknown : ∀ i f, known (w.party i) f → Established known w f := fun i f hf => ⟨i, hf⟩
  rcases step_cases P w move with h | ⟨i, a, rfl, h⟩ | ⟨i, m, hm, hr, h⟩
  · rw [h]; exact hw
  · rw [h]
    exact hw.update hP (hP.act a hok (hknown i) (hw.inv i))
  · rw [h]
    exact hw.update hP (hP.hear hr (hw.good m hm) (hknown i) (hw.inv i))

/-- **What the parties teach each other is true.** In every run of allowed moves
all invariants hold and all messages are good, on the facts that some party knows. -/
theorem Teaches.sound_run (hP : Teaches P ok known Inv Good) {moves : List (Move ι A)}
    (hok : Along (Gossip.step P) (Move.Allowed ok) w moves) (hw : Sound known Inv Good w) :
    Sound known Inv Good (run (Gossip.step P) w moves) :=
  run_keeps_along (f := Gossip.step P) (I := Sound known Inv Good) (fun _ _ hmove h => h.step hP hmove) moves hok hw

/-! ## Where nothing is to be learnt -/

/-- Every party keeps its invariant and sends good messages as long as it hears good ones. -/
structure Keeps (P : Parties ι S A M) (ok : ι → S → A → Prop) (Inv : ι → S → Prop) (Good : M → Prop) : Prop where
  act : ∀ {i : ι} {s : S} (a : A), ok i s a → Inv i s →
    Inv i (P.act i s a).1 ∧ ∀ m ∈ (P.act i s a).2, Good m
  hear : ∀ {i : ι} {s : S} {m : M}, P.reaches m i = true → Good m → Inv i s →
    Inv i (P.hear i s m).1 ∧ ∀ m' ∈ (P.hear i s m).2, Good m'

/-- **Invariants of the parties are invariants of the network.** -/
theorem Keeps.run {Inv : ι → S → Prop} {Good : M → Prop} (hP : Keeps P ok Inv Good)
    {moves : List (Move ι A)} (hok : Along (Gossip.step P) (Move.Allowed ok) w moves)
    (hinv : ∀ i, Inv i (w.party i)) (hgood : ∀ m ∈ w.sent, Good m) :
    (∀ i, Inv i ((run (Gossip.step P) w moves).party i)) ∧ ∀ m ∈ (run (Gossip.step P) w moves).sent, Good m := by
  have hteaches : Teaches P ok (fun (_ : S) (_ : Empty) => False) (fun _ => Inv) (fun _ => Good) := by
    refine ⟨fun _ h => h, fun _ h => h, ?_, ?_⟩
    · intro E i s a hoka _ hs
      obtain ⟨hkeep, hsend⟩ := hP.act a hoka hs
      exact ⟨fun _ h => h, hkeep, hsend⟩
    · intro E i s m hr hm _ hs
      obtain ⟨hkeep, hsend⟩ := hP.hear hr hm hs
      exact ⟨fun _ h => h, hkeep, hsend⟩
  have hsound := hteaches.sound_run hok ⟨hinv, hgood⟩
  exact ⟨hsound.inv, hsound.good⟩

end Krapi.Lib.Gossip
