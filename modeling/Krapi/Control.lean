import Krapi.Codec
import Krapi.Conservation

/-! # Votings

The control node starts and stops votings from its menu: it stamps the begin and
the end five seconds after it said so, and has the full nodes count the votes dated
in between. The menu runs on a thread of its own; `on_is_control_started` answers
from the event loop between any two of its steps. -/
namespace Krapi.Control
open Krapi.BlockchainModels Krapi.ChainStore Krapi.Handlers Krapi.Messages
open Krapi.Conservation (votesFor tally_eq_length)
open Krapi.Lib Krapi.Lib.Run

/-! ## The control node -/

/-- Where the menu's thread stands. -/
inductive Task where
  | menu
  /-- In the five seconds of `start`. -/
  | startDelay
  /-- The begin is stamped, the state not set. -/
  | beginStamped
  | startSet
  | stopDelay
  | endStamped
  | stopSet
  | exited
  deriving Repr, DecidableEq

structure ControlManager where
  controlState : Bool
  lastControlBegin : UInt64
  lastControlEnd : UInt64
  task : Task
  deriving Repr, DecidableEq

def ControlManager.create : ControlManager := ⟨false, 0, 0, .menu⟩

/-- What goes out: to all peers of some types, or to the one that asked. -/
inductive Sent where
  | broadcast (types : List PeerType) (type : PeerMessageType) (content : Json)
  | send (type : PeerMessageType) (sender receiver tag : String) (content : Json)

/-- Who is told of a voting's course. -/
def audience : List PeerType := [.light, .observer]

def operateContent (begin_ end_ : UInt64) : Json :=
  .ofPairs [("begin", .unsigned begin_), ("end", .unsigned end_)]

/-- What is chosen from the menu; anything but the three ends the program. -/
inductive Choice where
  | start | stop | operate | exit
  deriving Repr, DecidableEq

namespace ControlManager

def opearte (s : ControlManager) : Sent :=
  .broadcast [.full] .controlOperateBetween (operateContent s.lastControlBegin s.lastControlEnd)

def choose (s : ControlManager) (choice : Choice) : ControlManager × List Sent :=
  match s.task, choice with
  | .menu, .start => ({ s with task := .startDelay }, [.broadcast audience .controlIsStartingPing .null])
  | .menu, .stop => ({ s with task := .stopDelay }, [.broadcast audience .controlIsEndingPing .null])
  | .menu, .operate => (s, [s.opearte])
  | .menu, .exit => ({ s with task := .exited }, [])
  | _, _ => (s, [])

/-- The menu's thread goes on; `clock` is what it reads once its five seconds are over. -/
def proceed (s : ControlManager) (clock : UInt64) : ControlManager × List Sent :=
  match s.task with
  | .startDelay => ({ s with lastControlBegin := clock, task := .beginStamped }, [])
  | .beginStamped => ({ s with controlState := true, task := .startSet }, [])
  | .startSet => ({ s with task := .menu }, [.broadcast audience .controlStarted .null])
  | .stopDelay => ({ s with lastControlEnd := clock, task := .endStamped }, [])
  | .endStamped => ({ s with controlState := false, task := .stopSet }, [])
  | .stopSet => ({ s with task := .menu }, [.broadcast audience .controlStopped .null])
  | .menu | .exited => (s, [])

def onIsControlStarted (s : ControlManager) (request : PeerMessage Json) : Sent :=
  .send .isControlStartedResponse request.receiverIdentity request.senderIdentity request.tag
    (.boolean s.controlState)

end ControlManager

inductive Action where
  | choose (choice : Choice)
  | proceed (clock : UInt64)
  | onIsControlStarted (request : PeerMessage Json)

def step (s : ControlManager) : Action → ControlManager × List Sent
  | .choose choice => s.choose choice
  | .proceed clock => s.proceed clock
  | .onIsControlStarted request => (s, [s.onIsControlStarted request])

/-- A step with what was sent so far. -/
def record (r : ControlManager × List Sent) (a : Action) : ControlManager × List Sent :=
  ((step r.1 a).1, r.2 ++ (step r.1 a).2)

/-- The clock was not set back: five seconds later it shows more than at any stamp before. -/
def Later (r : ControlManager × List Sent) : Action → Prop
  | .proceed clock =>
    r.1.task = .startDelay ∨ r.1.task = .stopDelay →
      r.1.lastControlBegin < clock ∧ r.1.lastControlEnd < clock
  | _ => True

instance (r : ControlManager × List Sent) : ∀ a, Decidable (Later r a)
  | .choose _ => isTrue trivial
  | .proceed clock =>
    inferInstanceAs (Decidable (_ ∨ _ → r.1.lastControlBegin < clock ∧ r.1.lastControlEnd < clock))
  | .onIsControlStarted _ => isTrue trivial

/-! ## The listeners of the votings -/

/-- The window a full node reads off the request. -/
def operateWindow (content : Json) : Option (UInt64 × UInt64) := do
  let begin_ ← (← content.index "begin").getUnsigned
  let end_ ← (← content.index "end").getUnsigned
  return (begin_, end_)

/-- The counts as they are broadcast, in the order of the keys. -/
def resultsToJson (results : Std.ExtTreeMap String Nat compare) : Json :=
  .object (results.toList.map fun entry => (entry.1, .integer (Int64.ofNat entry.2)))

/-- What a light node reads off a `ControlResult`. -/
def resultsFromJson : Json → Option (List (String × UInt64))
  | .object members => members.mapM fun member => return (member.1, ← member.2.getUnsigned)
  | _ => none

/-- The `ControlOperateBetween` listener of a full node. -/
def onOperate (chain : Blockchain) (content : Json) : Option Json := do
  let window ← operateWindow content
  return resultsToJson (onControlOperateBetween chain window.1 window.2)

theorem operateWindow_operateContent (begin_ end_ : UInt64) :
    operateWindow (operateContent begin_ end_) = some (begin_, end_) := by
  have hkeys : (([("begin", .unsigned begin_), ("end", .unsigned end_)] : List (String × Json)).map
      Prod.fst).Nodup := by simp
  unfold operateWindow operateContent
  simp only [Json.index_ofPairs hkeys]
  simp only [List.lookup, String.reduceBEq, beq_self_eq_true, Option.bind_eq_bind, Option.bind_some,
    Option.getD_some, Json.getUnsigned]
  rfl

/-- The windows that were sent to be counted. -/
def windows (sent : List Sent) : List (UInt64 × UInt64) :=
  sent.filterMap fun
    | .broadcast _ .controlOperateBetween content => operateWindow content
    | _ => none

theorem windows_append (sent new : List Sent) : windows (sent ++ new) = windows sent ++ windows new :=
  List.filterMap_append

theorem windows_opearte (s : ControlManager) :
    windows [s.opearte] = [(s.lastControlBegin, s.lastControlEnd)] := by
  simp [windows, ControlManager.opearte, operateWindow_operateContent]

/-! ## The stamps over a run -/

/-- The window of a later voting, or a wider one of the same. -/
def Before (w w' : UInt64 × UInt64) : Prop := w.1 = w'.1 ∧ w.2 ≤ w'.2 ∨ w.2 < w'.1

/-- A voting runs: its begin is stamped and its end is not. -/
def Running (s : ControlManager) : Prop :=
  s.task = .beginStamped ∨ s.controlState = true ∧ s.task ≠ .endStamped

/-- Whatever was counted lies before the voting that runs now, or belongs to it; while
a voting runs its begin is after the last end. -/
structure Stamped (r : ControlManager × List Sent) : Prop where
  before : ∀ w ∈ windows r.2, Before w (r.1.lastControlBegin, r.1.lastControlEnd)
  ended : ∀ w ∈ windows r.2, w.2 ≤ r.1.lastControlEnd
  ordered : (windows r.2).Pairwise Before
  begun : Running r.1 → r.1.lastControlEnd < r.1.lastControlBegin

theorem stamped_create : Stamped (.create, []) where
  before := by intro w hw; cases hw
  ended := by intro w hw; cases hw
  ordered := .nil
  begun := by rintro (h | ⟨h, -⟩) <;> cases h

/-- Nothing was sent to be counted and no stamp was set. -/
theorem Stamped.congr {r r' : ControlManager × List Sent} (h : Stamped r)
    (hwindows : windows r'.2 = windows r.2) (hbegin : r'.1.lastControlBegin = r.1.lastControlBegin)
    (hend : r'.1.lastControlEnd = r.1.lastControlEnd)
    (hrunning : Running r'.1 → Running r.1) : Stamped r' where
  before := by rw [hwindows, hbegin, hend]; exact h.before
  ended := by rw [hwindows, hend]; exact h.ended
  ordered := by rw [hwindows]; exact h.ordered
  begun := by rw [hbegin, hend]; exact fun hr => h.begun (hrunning hr)

theorem stamped_choose {r : ControlManager × List Sent} (h : Stamped r) (choice : Choice) :
    Stamped (record r (.choose choice)) := by
  obtain ⟨s, sent⟩ := r
  obtain ⟨on, begin_, end_, task⟩ := s
  cases task with
  | menu =>
    cases choice with
    | operate =>
      have hnew : windows (record (⟨on, begin_, end_, .menu⟩, sent) (.choose .operate)).2 =
          windows sent ++ [(begin_, end_)] := by
        show windows (sent ++ [ControlManager.opearte _]) = _
        rw [windows_append, windows_opearte]
      refine ⟨?_, ?_, ?_, h.begun⟩
      · rw [hnew]
        intro w hw
        rcases List.mem_append.mp hw with hw | hw
        · exact h.before w hw
        · rw [List.mem_singleton.mp hw]
          exact .inl ⟨rfl, le_rfl⟩
      · rw [hnew]
        intro w hw
        rcases List.mem_append.mp hw with hw | hw
        · exact h.ended w hw
        · rw [List.mem_singleton.mp hw]
          exact le_rfl
      · rw [hnew]
        refine List.pairwise_append.mpr ⟨h.ordered, List.pairwise_singleton _ _, ?_⟩
        intro w hw w' hw'
        rw [List.mem_singleton.mp hw']
        exact h.before w hw
    | start =>
      refine h.congr (by simp [record, step, ControlManager.choose, windows]) rfl rfl ?_
      rintro (ht | ⟨hon, -⟩)
      · cases ht
      · exact .inr ⟨hon, nofun⟩
    | stop =>
      refine h.congr (by simp [record, step, ControlManager.choose, windows]) rfl rfl ?_
      rintro (ht | ⟨hon, -⟩)
      · cases ht
      · exact .inr ⟨hon, nofun⟩
    | exit =>
      refine h.congr (by simp [record, step, ControlManager.choose]) rfl rfl ?_
      rintro (ht | ⟨hon, -⟩)
      · cases ht
      · exact .inr ⟨hon, nofun⟩
  | _ => exact h.congr (by simp [record, step, ControlManager.choose]) rfl rfl fun hr => hr

theorem stamped_proceed {r : ControlManager × List Sent} (h : Stamped r) (clock : UInt64)
    (hlater : Later r (.proceed clock)) : Stamped (record r (.proceed clock)) := by
  obtain ⟨s, sent⟩ := r
  obtain ⟨on, begin_, end_, task⟩ := s
  cases task with
  | startDelay =>
    have hclock : end_ < clock := (hlater (.inl rfl)).2
    have hsent : windows (record (⟨on, begin_, end_, .startDelay⟩, sent) (.proceed clock)).2 = windows sent := by
      simp [record, step, ControlManager.proceed]
    refine ⟨?_, ?_, ?_, fun _ => hclock⟩ <;> rw [hsent]
    · intro w hw
      exact .inr (lt_of_le_of_lt (h.ended w hw) hclock)
    · exact h.ended
    · exact h.ordered
  | stopDelay =>
    have hclock : end_ < clock := (hlater (.inr rfl)).2
    have hsent : windows (record (⟨on, begin_, end_, .stopDelay⟩, sent) (.proceed clock)).2 = windows sent := by
      simp [record, step, ControlManager.proceed]
    refine ⟨?_, ?_, ?_, ?_⟩
    · rw [hsent]
      intro w hw
      rcases h.before w hw with ⟨heq, hle⟩ | hlt
      · exact .inl ⟨heq, le_of_lt (lt_of_le_of_lt hle hclock)⟩
      · exact .inr hlt
    · rw [hsent]
      intro w hw
      exact le_of_lt (lt_of_le_of_lt (h.ended w hw) hclock)
    · rw [hsent]
      exact h.ordered
    · rintro (ht | ⟨-, ht⟩)
      · cases ht
      · exact absurd rfl ht
  | beginStamped =>
    exact h.congr (by simp [record, step, ControlManager.proceed]) rfl rfl fun _ => .inl rfl
  | endStamped =>
    refine h.congr (by simp [record, step, ControlManager.proceed]) rfl rfl ?_
    rintro (ht | ⟨hon, -⟩)
    · cases ht
    · cases hon
  | startSet =>
    refine h.congr (by simp [record, step, ControlManager.proceed, windows]) rfl rfl ?_
    rintro (ht | ⟨hon, -⟩)
    · cases ht
    · exact .inr ⟨hon, nofun⟩
  | stopSet =>
    refine h.congr (by simp [record, step, ControlManager.proceed, windows]) rfl rfl ?_
    rintro (ht | ⟨hon, -⟩)
    · cases ht
    · exact .inr ⟨hon, nofun⟩
  | _ => exact h.congr (by simp [record, step, ControlManager.proceed]) rfl rfl fun hr => hr

theorem stamped_step (r : ControlManager × List Sent) (a : Action) (hlater : Later r a) (h : Stamped r) :
    Stamped (record r a) := by
  cases a with
  | choose choice => exact stamped_choose h choice
  | proceed clock => exact stamped_proceed h clock hlater
  | onIsControlStarted request =>
    exact h.congr (by simp [record, step, ControlManager.onIsControlStarted, windows]) rfl rfl fun hr => hr

/-! ## What the votings count -/

/-- Counts of what no two conditions share add up to a count. -/
theorem sum_countP_le {A : Type*} (l : List A) (q : A → Bool) :
    ∀ ps : List (A → Bool), ps.Pairwise (fun p p' => ∀ a, p a = true → p' a = false) →
      (∀ p ∈ ps, ∀ a, p a = true → q a = true) → (ps.map fun p => l.countP p).sum ≤ l.countP q
  | [], _, _ => Nat.zero_le _
  | p :: ps, hapart, hq => by
    obtain ⟨hp, hps⟩ := List.pairwise_cons.mp hapart
    have hrest : (ps.map fun p => l.countP p).sum ≤ l.countP fun a => q a && !p a := by
      refine sum_countP_le l _ ps hps ?_
      intro p' hp' a ha
      have hpa : p a = false := by
        by_contra hcontra
        have := hp p' hp' a (by simpa using hcontra)
        rw [ha] at this
        cases this
      simp [hq p' (List.mem_cons_of_mem _ hp') a ha, hpa]
    have hsplit : l.countP q = l.countP (fun a => q a && !p a) + l.countP p := by
      clear hrest hapart hp hps
      induction l with
      | nil => rfl
      | cons a l ih =>
        have ha := hq p List.mem_cons_self a
        simp only [List.countP_cons, ih]
        cases hpa : p a <;> cases hqa : q a <;> simp_all <;> omega
    rw [List.map_cons, List.sum_cons, hsplit]
    omega

/-- A vote for the candidate dated in the window. -/
def dated (w : UInt64 × UInt64) (candidate : String) (tx : Transaction) : Bool :=
  decide (tx.timestamp ≥ w.1 ∧ tx.timestamp ≤ w.2 ∧ tx.to_ = candidate)

def votes (chain : Blockchain) (w : UInt64 × UInt64) (candidate : String) : ℕ :=
  (chain.data.flatMap Block.transactions).countP (dated w candidate)

theorem tally_eq_votes (chain : Blockchain) (w : UInt64 × UInt64) (candidate : String) :
    (onControlOperateBetween chain w.1 w.2).getD candidate 0 = votes chain w candidate := by
  rw [tally_eq_length, votesFor, List.length_map, votes, List.countP_eq_length_filter]
  rfl

/-- Windows of different votings share no moment. -/
theorem Before.apart {w w' : UInt64 × UInt64} (h : Before w w') (hne : w.1 ≠ w'.1) : w.2 < w'.1 :=
  h.resolve_left fun hsame => hne hsame.1

/-- **No vote counts in two votings.** In every run of the control node whose clock is
not set back, whatever is chosen in whatever order: windows that were counted over with
different begins share no moment, so the tallies of different votings add up to no more
than the votes on the chain. -/
theorem votings_apart (as : List Action) (h : Along record Later (.create, []) as) :
    let counted := windows (run record (.create, []) as).2
    (∀ w ∈ counted, ∀ w' ∈ counted, w.1 ≠ w'.1 → ∀ time,
      ¬ (w.1 ≤ time ∧ time ≤ w.2 ∧ w'.1 ≤ time ∧ time ≤ w'.2)) ∧
    ∀ (chain : Blockchain) (candidate : String) (votings : List (UInt64 × UInt64)), votings ⊆ counted →
      (votings.map Prod.fst).Nodup →
        (votings.map fun w => (onControlOperateBetween chain w.1 w.2).getD candidate 0).sum ≤
          (chain.data.flatMap Block.transactions).countP fun tx => tx.to_ = candidate := by
  intro counted
  have hstamped := run_keeps_along stamped_step as h stamped_create
  have hapart : ∀ w ∈ counted, ∀ w' ∈ counted, w.1 ≠ w'.1 → ∀ time,
      ¬ (w.1 ≤ time ∧ time ≤ w.2 ∧ w'.1 ≤ time ∧ time ≤ w'.2) := by
    have hpair : ∀ w ∈ counted, ∀ w' ∈ counted, w.1 ≠ w'.1 → w.2 < w'.1 ∨ w'.2 < w.1 := by
      intro w hw w' hw' hne
      have heither : counted.Pairwise fun w w' => Before w w' ∨ Before w' w := hstamped.ordered.imp Or.inl
      have : Std.Symm fun w w' => Before w w' ∨ Before w' w := ⟨fun _ _ => Or.symm⟩
      have hne' : w ≠ w' := fun he => hne (congrArg Prod.fst he)
      exact (heither.forall hw hw' hne').imp (fun hb => hb.apart hne) fun hb => hb.apart hne.symm
    rintro w hw w' hw' hne time ⟨h1, h2, h3, h4⟩
    rcases hpair w hw w' hw' hne with hlt | hlt
    · exact absurd (lt_of_lt_of_le hlt h3) (not_lt.mpr h2)
    · exact absurd (lt_of_lt_of_le hlt h1) (not_lt.mpr h4)
  refine ⟨hapart, ?_⟩
  intro chain candidate votings hsub hdistinct
  simp only [tally_eq_votes]
  have hsum := sum_countP_le (chain.data.flatMap Block.transactions) (fun tx => tx.to_ = candidate)
    (votings.map fun w => dated w candidate) ?_ ?_
  · rwa [List.map_map] at hsum
  · rw [List.pairwise_map]
    refine (List.pairwise_map.mp hdistinct).imp_of_mem ?_
    intro w w' hw hw' hne tx htx
    obtain ⟨hbegin, hend, -⟩ := of_decide_eq_true htx
    refine decide_eq_false ?_
    rintro ⟨hbegin', hend', -⟩
    exact hapart w (hsub hw) w' (hsub hw') hne tx.timestamp ⟨hbegin, hend, hbegin', hend'⟩
  · intro p hp tx htx
    obtain ⟨w, -, rfl⟩ := List.mem_map.mp hp
    exact decide_eq_true (of_decide_eq_true htx).2.2

/-- A window that ends before it begins has no votes. -/
theorem onControlOperateBetween_eq_empty {begin_ end_ : UInt64} (h : end_ < begin_) (chain : Blockchain) :
    onControlOperateBetween chain begin_ end_ = ∅ := by
  have hvote : ∀ results tx, countVote begin_ end_ results tx = results := by
    intro results tx
    refine if_neg ?_
    rintro ⟨hbegin, hend⟩
    exact absurd (lt_of_le_of_lt hend h) (not_lt.mpr hbegin)
  unfold onControlOperateBetween
  simp only [funext fun results => funext (hvote results), List.foldl_fixed]

/-- Two votings, counted over once while the first runs and after each. -/
def twoVotings : List Action :=
  [.choose .start, .proceed 10, .proceed 0, .proceed 0, .choose .operate,
    .choose .stop, .proceed 20, .proceed 0, .proceed 0, .choose .operate,
    .choose .start, .proceed 30, .proceed 0, .proceed 0,
    .choose .stop, .proceed 40, .proceed 0, .proceed 0, .choose .operate]

theorem votings_apart_twoVotings :
    windows (run record (.create, []) twoVotings).2 = [(10, 0), (10, 20), (30, 40)] ∧
    ∀ (chain : Blockchain) (candidate : String),
      (onControlOperateBetween chain 10 20).getD candidate 0 +
        (onControlOperateBetween chain 30 40).getD candidate 0 ≤
          (chain.data.flatMap Block.transactions).countP fun tx => tx.to_ = candidate := by
  have hwindows : windows (run record (.create, []) twoVotings).2 = [(10, 0), (10, 20), (30, 40)] := by
    decide +kernel
  refine ⟨hwindows, ?_⟩
  intro chain candidate
  have hapart := (votings_apart twoVotings (by decide)).2 chain candidate [(10, 20), (30, 40)]
  rw [hwindows] at hapart
  simpa using hapart (by simp) (by simp)

/-! ## What is read of the counts -/

theorem getElem?_countVote_pos (begin_ end_ : UInt64) (txs : List Transaction) :
    ∀ results : Std.ExtTreeMap String Nat compare, (∀ (c : String) (k : ℕ), results[c]? = some k → 0 < k) →
      ∀ (c : String) (k : ℕ), (txs.foldl (countVote begin_ end_) results)[c]? = some k → 0 < k := by
  induction txs with
  | nil => exact fun results h => h
  | cons tx txs ih =>
    intro results h
    refine ih _ ?_
    intro c k hk
    unfold countVote at hk
    split at hk
    · rw [Std.ExtTreeMap.getElem?_alter] at hk
      split at hk
      · cases hk
        exact Nat.succ_pos _
      · exact h c k hk
    · exact h c k hk

/-- The tally has an entry for each candidate with votes and no other. -/
theorem tally_getElem?_iff (chain : Blockchain) (w : UInt64 × UInt64) (candidate : String) (k : ℕ) :
    (onControlOperateBetween chain w.1 w.2)[candidate]? = some k ↔
      0 < k ∧ k = votes chain w candidate := by
  have hcount := tally_eq_votes chain w candidate
  have hpos : ∀ (c : String) (k : ℕ), (onControlOperateBetween chain w.1 w.2)[c]? = some k → 0 < k := by
    unfold onControlOperateBetween
    rw [← List.foldl_flatMap]
    exact getElem?_countVote_pos _ _ _ ∅ (by simp)
  rw [Std.ExtTreeMap.getD_eq_getD_getElem?] at hcount
  cases hk : (onControlOperateBetween chain w.1 w.2)[candidate]? with
  | none =>
    rw [hk, Option.getD_none] at hcount
    constructor
    · intro h
      cases h
    · rintro ⟨hlt, rfl⟩
      omega
  | some n =>
    rw [hk, Option.getD_some] at hcount
    have hn := hpos candidate n hk
    rw [Option.some.injEq, ← hcount]
    constructor
    · rintro rfl
      exact ⟨hn, rfl⟩
    · rintro ⟨-, rfl⟩
      rfl

/-- Each count is read as the number it was written for. -/
theorem resultsFromJson_toJson (results : Std.ExtTreeMap String Nat compare) :
    resultsFromJson (resultsToJson results) =
      some (results.toList.map fun entry => (entry.1, UInt64.ofNat entry.2)) := by
  unfold resultsFromJson resultsToJson
  generalize results.toList = entries
  induction entries with
  | nil => rfl
  | cons entry entries ih =>
    simp only [List.map_cons, List.mapM_cons] at ih ⊢
    rw [ih]
    rfl

/-- What is read has one entry for each candidate with votes in the window, their number. -/
structure Reads (chain : Blockchain) (w : UInt64 × UInt64) (read : List (String × UInt64)) : Prop where
  once : (read.map Prod.fst).Nodup
  counts : ∀ candidate n, (candidate, n) ∈ read ↔
    0 < votes chain w candidate ∧ n = UInt64.ofNat (votes chain w candidate)

/-- What a light node reads of a full node's answer. -/
def announced (chain : Blockchain) (content : Json) : Option (List (String × UInt64)) :=
  (onOperate chain content).bind resultsFromJson

theorem announced_operateContent (chain : Blockchain) (w : UInt64 × UInt64) :
    announced chain (operateContent w.1 w.2) =
      some ((onControlOperateBetween chain w.1 w.2).toList.map fun entry => (entry.1, UInt64.ofNat entry.2)) := by
  rw [announced, onOperate, operateWindow_operateContent]
  exact resultsFromJson_toJson _

theorem reads_tally (chain : Blockchain) (w : UInt64 × UInt64) :
    Reads chain w ((onControlOperateBetween chain w.1 w.2).toList.map fun entry =>
      (entry.1, UInt64.ofNat entry.2)) where
  once := by
    rw [List.map_map, List.Nodup, List.pairwise_map]
    refine (Std.ExtTreeMap.distinct_keys_toList (t := onControlOperateBetween chain w.1 w.2)).imp ?_
    intro entry entry' hne he
    exact hne (compare_eq_iff_eq.mpr he)
  counts := by
    intro candidate n
    rw [List.mem_map]
    constructor
    · rintro ⟨⟨c, k⟩, hmem, heq⟩
      cases heq
      obtain ⟨hk, rfl⟩ := (tally_getElem?_iff chain w c k).mp
        (Std.ExtTreeMap.mem_toList_iff_getElem?_eq_some.mp hmem)
      exact ⟨hk, rfl⟩
    · rintro ⟨hpos, rfl⟩
      exact ⟨(candidate, _), Std.ExtTreeMap.mem_toList_iff_getElem?_eq_some.mpr
        ((tally_getElem?_iff chain w candidate _).mpr ⟨hpos, rfl⟩), rfl⟩

/-- Only `opearte` sends such a request. -/
theorem eq_of_mem_step {s : ControlManager} {a : Action} {types : List PeerType} {content : Json}
    (h : .broadcast types .controlOperateBetween content ∈ (step s a).2) :
    types = [.full] ∧ content = operateContent s.lastControlBegin s.lastControlEnd := by
  obtain ⟨on, begin_, end_, task⟩ := s
  cases a with
  | choose choice =>
    cases task <;> cases choice <;> simp [step, ControlManager.choose, ControlManager.opearte] at h
    exact h
  | proceed clock => cases task <;> simp [step, ControlManager.proceed] at h
  | onIsControlStarted request => simp [step, ControlManager.onIsControlStarted] at h

theorem eq_of_mem_run (as : List Action) {types : List PeerType} {content : Json}
    (h : .broadcast types .controlOperateBetween content ∈ (run record (.create, []) as).2) :
    types = [.full] ∧ ∃ w : UInt64 × UInt64, content = operateContent w.1 w.2 := by
  have hstep : ∀ (r : ControlManager × List Sent) (a : Action),
      (.broadcast types .controlOperateBetween content ∈ r.2 →
        types = [.full] ∧ ∃ w : UInt64 × UInt64, content = operateContent w.1 w.2) →
      .broadcast types .controlOperateBetween content ∈ (record r a).2 →
        types = [.full] ∧ ∃ w : UInt64 × UInt64, content = operateContent w.1 w.2 := by
    intro r a ih hmem
    rcases List.mem_append.mp hmem with hmem | hmem
    · exact ih hmem
    · obtain ⟨htypes, hcontent⟩ := eq_of_mem_step hmem
      exact ⟨htypes, (_, _), hcontent⟩
  exact run_keeps hstep as (by intro hnil; cases hnil) h

/-- **Light nodes read the counts of the voting that was.** In every run of the control
node whose clock is not set back, a request to count goes to full nodes only, and what
a light node reads of a full node's answer is, for each candidate with votes, their
number on that node's chain in the window; of a request sent while the menu says that a
voting runs it reads no counts at all, whatever the chain. -/
theorem announced_results (as : List Action) (h : Along record Later (.create, []) as) :
    let r := run record (.create, []) as
    (∀ types content, .broadcast types .controlOperateBetween content ∈ r.2 → types = [.full] ∧
      ∃ w ∈ windows r.2, ∀ chain, ∃ read, announced chain content = some read ∧ Reads chain w read) ∧
    (r.1.task = .menu → r.1.controlState = true → ∃ content,
      r.1.opearte = .broadcast [.full] .controlOperateBetween content ∧
        ∀ chain, announced chain content = some []) := by
  intro r
  constructor
  · intro types content hmem
    obtain ⟨htypes, w, rfl⟩ := eq_of_mem_run as hmem
    refine ⟨htypes, w, ?_, fun chain => ⟨_, announced_operateContent chain w, reads_tally chain w⟩⟩
    exact List.mem_filterMap.mpr ⟨_, hmem, operateWindow_operateContent w.1 w.2⟩
  · intro hmenu hon
    have hstamped := run_keeps_along stamped_step as h stamped_create
    have hlt : r.1.lastControlEnd < r.1.lastControlBegin :=
      hstamped.begun (.inr ⟨hon, by rw [hmenu]; nofun⟩)
    refine ⟨_, rfl, fun chain => ?_⟩
    rw [announced_operateContent chain (r.1.lastControlBegin, r.1.lastControlEnd),
      onControlOperateBetween_eq_empty hlt]
    rfl

theorem announced_results_twoVotings :
    .broadcast [.full] .controlOperateBetween (operateContent 30 40) ∈ (run record (.create, []) twoVotings).2 ∧
    ∃ w ∈ windows (run record (.create, []) twoVotings).2, ∀ chain, ∃ read,
      announced chain (operateContent 30 40) = some read ∧ Reads chain w read := by
  have hlast : (run record (.create, []) twoVotings).2.getLast? =
      some (.broadcast [.full] .controlOperateBetween (operateContent 30 40)) := rfl
  have hmem := List.mem_of_getLast? hlast
  exact ⟨hmem, ((announced_results twoVotings (by decide)).1 _ _ hmem).2⟩

end Krapi.Control
