import Krapi.RetryHandler

/-! # Drains next to the event loop

`on_datachannel_open` posts its loop to another thread: it takes a snapshot of
the retry store and then, message by message, first puts the message back into
the queue and then removes it from the store. Between the two the event loop
may fail the message again and park it under the same tag, and another drain
may hold the same snapshot. The first loses the message, the second sends it
twice; with both excluded, every message is sent at most once and is never
lost. -/
namespace Krapi.Drains
open Krapi.BlockchainModels Krapi.DBInterface Krapi.Messages Krapi.RetryHandler Krapi.Lib.Run

variable {C : Type}

/-- Where a posted drain stands. -/
inductive Task (C : Type) where
  | posted (peer : String)
  /-- The messages of its snapshot still to be looked at. -/
  | iterating (rest : List (InternalMessage (PeerMessage C)))
  /-- `m` is back in the queue and not yet removed. -/
  | removing (m : InternalMessage (PeerMessage C)) (rest : List (InternalMessage (PeerMessage C)))
  deriving Repr, DecidableEq

/-- The messages a drain holds. -/
def Task.messages : Task C → List (InternalMessage (PeerMessage C))
  | .posted _ => []
  | .iterating rest => rest
  | .removing m rest => m :: rest

/-- The next step of a drain; `none` when it is over. -/
def Task.advance (s : Mail C) : Task C → Mail C × Option (Task C)
  | .posted peer => (s, some (.iterating (s.parkedFor peer)))
  | .iterating [] => (s, none)
  | .iterating (m :: rest) => (s.enqueue m.increamentRetryCount, some (.removing m rest))
  | .removing m rest => ({ s with store := (s.store.remove m).2 }, some (.iterating rest))

structure Sender (C : Type) where
  mail : Mail C
  reachable : String → Bool
  tasks : List (Task C)
  /-- What was handed to `send_and_forget`; a log that no step reads. -/
  handed : List (PeerMessage C)

/-- Nothing handed in, no channel open. -/
def Sender.idle : Sender C where
  mail := ⟨[], DBInternface.empty, []⟩
  reachable := fun _ => false
  tasks := []
  handed := []

inductive SendAction (C : Type) where
  | sendAndForget (m : PeerMessage C) (clock : UInt64)
  /-- The event loop takes the oldest event. -/
  | processOne
  /-- The drain at position `i` does its next step. -/
  | task (i : ℕ)
  | opens (peer : String)
  | closes (peer : String)
  deriving Repr, DecidableEq

def sendStep (s : Sender C) : SendAction C → Sender C
  | .sendAndForget m clock => { s with mail := s.mail.sendAndForget m clock, handed := s.handed ++ [m] }
  | .processOne =>
    match s.mail.queue with
    | [] => s
    | .sendPeerMessage m :: rest =>
      { s with mail := Mail.onSendPeerMessage s.reachable { s.mail with queue := rest } m }
    | .dataChannelOpened peer :: rest =>
      { s with mail := { s.mail with queue := rest }, tasks := s.tasks ++ [.posted peer] }
  | .task i =>
    match s.tasks[i]? with
    | none => s
    | some t =>
      match t.advance s.mail with
      | (mail, some t') => { s with mail := mail, tasks := s.tasks.set i t' }
      | (mail, none) => { s with mail := mail, tasks := s.tasks.eraseIdx i }
  | .opens peer =>
    { s with
      mail := { s.mail with queue := s.mail.queue ++ [.dataChannelOpened peer] }
      reachable := Function.update s.reachable peer true }
  | .closes peer => { s with reachable := Function.update s.reachable peer false }

/-! ## When drains do no harm -/

/-- A drain puts back only what is neither queued nor sent, and removes only what is one of the two. -/
def DrainsSafely (s : Sender C) : SendAction C → Prop
  | .task i =>
    match s.tasks[i]? with
    | some (.iterating (m :: _)) => m.content ∉ s.mail.queued ∧ m.content ∉ s.mail.sent
    | some (.removing m _) => m.content ∈ s.mail.queued ∨ m.content ∈ s.mail.sent
    | _ => True
  | _ => True

instance [DecidableEq C] (s : Sender C) (a : SendAction C) : Decidable (DrainsSafely s a) := by
  unfold DrainsSafely
  split
  · split <;> infer_instance
  · infer_instance

/-- The messages that the actions hand in. -/
def handedIn (as : List (SendAction C)) : List (PeerMessage C) :=
  as.filterMap fun
    | .sendAndForget m _ => some m
    | _ => none

/-- Every message handed in is somewhere, and at most once in queue and channels. -/
structure Sound (s : Sender C) : Prop where
  once : ((s.mail.queued ++ s.mail.sent).map PeerMessage.tag).Nodup
  known : ∀ x, s.mail.Has x → x ∈ s.handed
  held : ∀ t ∈ s.tasks, ∀ m ∈ t.messages, m.content ∈ s.handed
  accounted : ∀ x ∈ s.handed, s.mail.Has x

theorem sound_idle : Sound (Sender.idle : Sender C) where
  once := List.nodup_nil
  known := by intro x hx; simp [Mail.Has, Sender.idle, Mail.queued, Mail.parked] at hx
  held := by intro t ht; cases ht
  accounted := by intro x hx; cases hx

variable {s : Sender C}

/-- What is queued under a tag of its own is still there once. -/
theorem once_enqueue {queued sent : List (PeerMessage C)} {m : PeerMessage C}
    (honce : ((queued ++ sent).map PeerMessage.tag).Nodup) (hnew : ∀ x ∈ queued ++ sent, x.tag ≠ m.tag) :
    ((queued ++ [m] ++ sent).map PeerMessage.tag).Nodup := by
  have hperm : (queued ++ [m] ++ sent).Perm (m :: (queued ++ sent)) := by
    rw [List.append_assoc]
    exact List.perm_middle
  rw [(hperm.map PeerMessage.tag).nodup_iff, List.map_cons, List.nodup_cons]
  refine ⟨?_, honce⟩
  intro hin
  obtain ⟨x, hx, he⟩ := List.mem_map.mp hin
  exact hnew x hx he

theorem sound_sendAndForget (h : Sound s) (m : PeerMessage C) (clock : UInt64)
    (htags : ((s.handed ++ [m]).map PeerMessage.tag).Nodup) :
    Sound (sendStep s (.sendAndForget m clock)) := by
  have hfresh : ∀ x, s.mail.Has x → x.tag ≠ m.tag := by
    intro x hx he
    rw [List.map_append, List.nodup_append] at htags
    exact htags.2.2 _ (List.mem_map_of_mem (h.known x hx)) m.tag (by simp) he
  have hqueued : (sendStep s (.sendAndForget m clock)).mail.queued = s.mail.queued ++ [m] :=
    Mail.enqueue_queued _ _
  have hhas : ∀ x, (sendStep s (.sendAndForget m clock)).mail.Has x ↔ s.mail.Has x ∨ x = m := by
    intro x
    unfold Mail.Has
    rw [hqueued, List.mem_append, List.mem_singleton]
    change (_ ∨ x ∈ s.mail.parked ∨ x ∈ s.mail.sent) ↔ _
    tauto
  refine ⟨?_, ?_, ?_, ?_⟩
  · rw [hqueued]
    refine once_enqueue h.once ?_
    intro x hx
    rcases List.mem_append.mp hx with hx | hx
    · exact hfresh x (.inl hx)
    · exact hfresh x (.inr (.inr hx))
  · intro x hx
    rcases (hhas x).mp hx with hx | rfl
    · exact List.mem_append_left _ (h.known x hx)
    · exact List.mem_append_right _ (by simp)
  · intro t ht c hc
    exact List.mem_append_left _ (h.held t ht c hc)
  · intro x hx
    rcases List.mem_append.mp hx with hx | hx
    · exact (hhas x).mpr (.inl (h.accounted x hx))
    · exact (hhas x).mpr (.inr (List.mem_singleton.mp hx))

/-- Messages change places, none comes and none goes. -/
theorem Sound.relocate {t : Sender C} (h : Sound s) (hhanded : t.handed = s.handed)
    (hheld : ∀ k ∈ t.tasks, ∀ m ∈ k.messages, m.content ∈ s.handed)
    (honce : ((t.mail.queued ++ t.mail.sent).map PeerMessage.tag).Nodup)
    (hhas : ∀ x, t.mail.Has x ↔ s.mail.Has x) : Sound t := by
  refine ⟨honce, ?_, ?_, ?_⟩
  · intro x hx
    rw [hhanded]; exact h.known x ((hhas x).mp hx)
  · intro k hk m hm
    rw [hhanded]; exact hheld k hk m hm
  · intro x hx
    rw [hhanded] at hx
    exact (hhas x).mpr (h.accounted x hx)

/-- A step that only moves messages between queue and channels. -/
theorem Sound.relocate_of_perm {t : Sender C} (h : Sound s) (hhanded : t.handed = s.handed)
    (hheld : ∀ k ∈ t.tasks, ∀ m ∈ k.messages, m.content ∈ s.handed)
    (hperm : (t.mail.queued ++ t.mail.sent).Perm (s.mail.queued ++ s.mail.sent))
    (hparked : t.mail.parked = s.mail.parked) : Sound t := by
  refine h.relocate hhanded hheld ?_ fun x => Mail.has_iff_of_perm hperm hparked
  rw [(hperm.map PeerMessage.tag).nodup_iff]
  exact h.once

/-- Among the messages handed in, a tag tells which one it is. -/
theorem eq_of_handed (htags : (s.handed.map PeerMessage.tag).Nodup) {x y : PeerMessage C}
    (hx : x ∈ s.handed) (hy : y ∈ s.handed) (he : x.tag = y.tag) : x = y :=
  List.inj_on_of_nodup_map htags hx hy he

section Tags
variable (htags : (s.handed.map PeerMessage.tag).Nodup)
include htags

/-- A message that is parked again takes its own place in the store. -/
theorem Sound.park {m : InternalMessage (PeerMessage C)} {rest : List (MailEvent C)} {t : Mail C}
    (h : Sound s) (hq : s.mail.queue = .sendPeerMessage m :: rest)
    (hqueued : t.queued = { s.mail with queue := rest }.queued) (hsent : t.sent = s.mail.sent)
    (hparked : ∀ x, x ∈ t.parked ↔ x = m.content ∨ (x ∈ s.mail.parked ∧ x.tag ≠ m.content.tag)) :
    Sound { s with mail := t } := by
  have hcons := s.mail.queued_cons hq
  have hm : m.content ∈ s.handed := h.known _ (.inl (by simp [hcons]))
  refine h.relocate rfl h.held ?_ ?_
  · have honce := h.once
    rw [hcons, List.cons_append, List.map_cons, List.nodup_cons] at honce
    change ((t.queued ++ t.sent).map PeerMessage.tag).Nodup
    rw [hqueued, hsent]; exact honce.2
  · intro x
    unfold Mail.Has
    change (x ∈ t.queued ∨ x ∈ t.parked ∨ x ∈ t.sent) ↔ _
    rw [hqueued, hsent, hparked x, hcons, List.mem_cons]
    constructor
    · tauto
    · intro hx
      rcases hx with (hx | hx) | hx | hx
      · exact .inr (.inl (.inl hx))
      · exact .inl hx
      · -- what lay under the tag is the message itself
        by_cases htag : x.tag = m.content.tag
        · exact .inr (.inl (.inl (eq_of_handed htags (h.known x (.inr (.inl hx))) hm htag)))
        · exact .inr (.inl (.inr ⟨hx, htag⟩))
      · exact .inr (.inr hx)

theorem sound_processOne (h : Sound s) : Sound (sendStep s .processOne) := by
  cases hq : s.mail.queue with
  | nil =>
    have hstep : sendStep s .processOne = s := by simp [sendStep, hq]
    rw [hstep]; exact h
  | cons e rest =>
    cases e with
    | dataChannelOpened peer =>
      have hstep : sendStep s .processOne =
          { s with mail := { s.mail with queue := rest }, tasks := s.tasks ++ [.posted peer] } := by
        simp [sendStep, hq]
      have hqueued : { s.mail with queue := rest }.queued = s.mail.queued := by
        rw [Mail.queued, Mail.queued, hq]; rfl
      rw [hstep]
      refine h.relocate_of_perm rfl ?_ ?_ rfl
      · intro k hk m hm
        rcases List.mem_append.mp hk with hk | hk
        · exact h.held k hk m hm
        · rw [List.mem_singleton.mp hk] at hm; cases hm
      · rw [hqueued]
    | sendPeerMessage m =>
      have hstep : sendStep s .processOne =
          { s with mail := Mail.onSendPeerMessage s.reachable { s.mail with queue := rest } m } := by
        simp [sendStep, hq]
      have hout := Mail.onSendPeerMessage_outcome s.reachable { s.mail with queue := rest } m
      rw [hstep]
      generalize (!s.reachable m.content.receiverIdentity && decide (m.retryCount ≥ 3)) = parked at hout
      cases parked with
      | false =>
        obtain ⟨hperm, hstore⟩ := hout.perm hq
        exact h.relocate_of_perm rfl h.held hperm hstore
      | true =>
        cases hout with
        | parked hqueued hsent hparked => exact h.park htags hq hqueued hsent hparked

/-- A drain puts back a message that is neither queued nor sent. -/
theorem Sound.putBack {m : InternalMessage (PeerMessage C)} {tasks : List (Task C)} (h : Sound s)
    (hm : m.content ∈ s.handed) (hheld : ∀ k ∈ tasks, ∀ m ∈ k.messages, m.content ∈ s.handed)
    (hsafe : m.content ∉ s.mail.queued ∧ m.content ∉ s.mail.sent) :
    Sound { s with mail := s.mail.enqueue m.increamentRetryCount, tasks := tasks } := by
  refine h.relocate rfl hheld ?_ ?_
  · change (((s.mail.enqueue m.increamentRetryCount).queued ++ s.mail.sent).map PeerMessage.tag).Nodup
    rw [Mail.enqueue_queued]
    refine once_enqueue h.once ?_
    intro x hx he
    rcases List.mem_append.mp hx with hx | hx
    · exact hsafe.1 (eq_of_handed htags (h.known x (.inl hx)) hm he ▸ hx)
    · exact hsafe.2 (eq_of_handed htags (h.known x (.inr (.inr hx))) hm he ▸ hx)
  · intro x
    have hqueued : x ∈ (s.mail.enqueue m.increamentRetryCount).queued ↔
        x ∈ s.mail.queued ∨ x = m.content := by
      rw [Mail.enqueue_queued, List.mem_append, List.mem_singleton]
      rfl
    constructor
    · intro hx
      rcases hx with hx | hx
      · rcases hqueued.mp hx with hx | rfl
        · exact .inl hx
        · exact h.accounted _ hm
      · exact .inr hx
    · intro hx
      rcases hx with hx | hx
      · exact .inl (hqueued.mpr (.inl hx))
      · exact .inr hx

/-- A drain removes a message that is queued or was sent. -/
theorem Sound.remove {m : InternalMessage (PeerMessage C)} {tasks : List (Task C)} (h : Sound s)
    (hm : m.content ∈ s.handed) (hheld : ∀ k ∈ tasks, ∀ m ∈ k.messages, m.content ∈ s.handed)
    (hsafe : m.content ∈ s.mail.queued ∨ m.content ∈ s.mail.sent) :
    Sound { s with mail := { s.mail with store := (s.mail.store.remove m).2 }, tasks := tasks } := by
  refine h.relocate rfl hheld h.once ?_
  intro x
  have hremove : x ∈ { s.mail with store := (s.mail.store.remove m).2 }.parked ↔
      x ∈ s.mail.parked ∧ x.tag ≠ m.content.tag := Mail.mem_map_remove
  unfold Mail.Has
  rw [hremove]
  change (x ∈ s.mail.queued ∨ _ ∨ x ∈ s.mail.sent) ↔ _
  constructor
  · tauto
  · intro hx
    rcases hx with hx | hx | hx
    · exact .inl hx
    · -- the copy in the store is not the only one
      by_cases htag : x.tag = m.content.tag
      · rw [eq_of_handed htags (h.known x (.inr (.inl hx))) hm htag]
        rcases hsafe with hs | hs
        · exact .inl hs
        · exact .inr (.inr hs)
      · exact .inr (.inl ⟨hx, htag⟩)
    · exact .inr (.inr hx)

theorem sound_task (h : Sound s) (i : ℕ) (hsafe : DrainsSafely s (.task i)) :
    Sound (sendStep s (.task i)) := by
  cases ht : s.tasks[i]? with
  | none =>
    have hstep : sendStep s (.task i) = s := by simp [sendStep, ht]
    rw [hstep]; exact h
  | some task =>
    have hset : ∀ (k : Task C), (∀ m ∈ k.messages, m.content ∈ s.handed) →
        ∀ l ∈ s.tasks.set i k, ∀ m ∈ l.messages, m.content ∈ s.handed := by
      intro k hk l hl m hm
      rcases List.mem_or_eq_of_mem_set hl with hl | rfl
      · exact h.held l hl m hm
      · exact hk m hm
    have hheld := h.held task (List.mem_of_getElem? ht)
    simp only [DrainsSafely, ht] at hsafe
    cases task with
    | posted peer =>
      simp only [sendStep, ht, Task.advance]
      refine h.relocate rfl (hset _ ?_) h.once fun x => Iff.rfl
      intro m hm
      exact h.known _ (.inr (.inl (Mail.mem_parked.mpr ⟨m, (List.mem_filter.mp hm).1, rfl⟩)))
    | iterating rest =>
      cases rest with
      | nil =>
        simp only [sendStep, ht, Task.advance]
        refine h.relocate rfl ?_ h.once fun x => Iff.rfl
        intro k hk
        exact h.held k (List.mem_of_mem_eraseIdx hk)
      | cons m rest =>
        have hm : m.content ∈ s.handed := hheld m (by simp [Task.messages])
        simp only [sendStep, ht, Task.advance]
        exact h.putBack htags hm (hset _ hheld) hsafe
    | removing m rest =>
      have hm : m.content ∈ s.handed := hheld m (by simp [Task.messages])
      simp only [sendStep, ht, Task.advance]
      exact h.remove htags hm (hset _ fun c hc => hheld c (List.mem_cons_of_mem m hc)) hsafe

end Tags

theorem sound_sendStep (h : Sound s) {a : SendAction C} (hsafe : DrainsSafely s a)
    (htags : ((s.handed ++ handedIn [a]).map PeerMessage.tag).Nodup) : Sound (sendStep s a) := by
  have hnow : (s.handed.map PeerMessage.tag).Nodup := by
    rw [List.map_append] at htags
    exact (List.nodup_append.mp htags).1
  cases a with
  | sendAndForget m clock => exact sound_sendAndForget h m clock htags
  | processOne => exact sound_processOne hnow h
  | task i => exact sound_task hnow h i hsafe
  | opens peer =>
    have hqueued : (sendStep s (.opens peer)).mail.queued = s.mail.queued := by
      simp [sendStep, Mail.queued, MailEvent.message?]
    refine h.relocate_of_perm rfl h.held ?_ rfl
    rw [hqueued]
    rfl
  | closes peer => exact h.relocate rfl h.held h.once fun x => Iff.rfl

theorem sendStep_handed (s : Sender C) (a : SendAction C) :
    (sendStep s a).handed = s.handed ++ handedIn [a] := by
  cases a with
  | sendAndForget m clock => rfl
  | processOne =>
    simp only [sendStep, handedIn, List.filterMap_cons, List.filterMap_nil, List.append_nil]
    split <;> rfl
  | task i =>
    simp only [sendStep, handedIn, List.filterMap_cons, List.filterMap_nil, List.append_nil]
    split
    · rfl
    · split <;> rfl
  | opens peer => exact (List.append_nil _).symm
  | closes peer => exact (List.append_nil _).symm

theorem sound_run (as : List (SendAction C)) (h : Sound s) (hsafe : Along sendStep DrainsSafely s as)
    (htags : ((s.handed ++ handedIn as).map PeerMessage.tag).Nodup) : Sound (run sendStep s as) := by
  induction as generalizing s with
  | nil => exact h
  | cons a as ih =>
    have hsplit : handedIn (a :: as) = handedIn [a] ++ handedIn as := List.filterMap_append (l := [a])
    rw [hsplit, ← List.append_assoc] at htags
    have hfirst : ((s.handed ++ handedIn [a]).map PeerMessage.tag).Nodup := by
      rw [List.map_append] at htags
      exact (List.nodup_append.mp htags).1
    rw [← sendStep_handed] at htags
    exact ih (sound_sendStep h hsafe.1 hfirst) hsafe.2 htags

theorem run_handed (as : List (SendAction C)) (s : Sender C) :
    (run sendStep s as).handed = s.handed ++ handedIn as := by
  induction as generalizing s with
  | nil => exact (List.append_nil _).symm
  | cons a as ih =>
    have hsplit : handedIn (a :: as) = handedIn [a] ++ handedIn as := List.filterMap_append (l := [a])
    rw [run_cons, ih, sendStep_handed, hsplit, List.append_assoc]

/-- **With safe drains every message is sent at most once and none is lost.** For
messages with distinct tags and any interleaving of the handlers with the steps
of any number of drains, channels opening and closing at any time: if each drain
puts a message back only while the message is neither queued nor sent, and
removes it only while it is one of the two, then at every point no message was
sent twice, and each message handed in that was not sent is in the queue or in
the store. -/
theorem drains_send_once (as : List (SendAction C)) (htags : ((handedIn as).map PeerMessage.tag).Nodup)
    (hsafe : Along sendStep DrainsSafely Sender.idle as) :
    ∀ pre, pre <+: as →
      let s := run sendStep Sender.idle pre
      s.mail.sent.Nodup ∧
        ∀ m ∈ handedIn pre, m ∉ s.mail.sent → m ∈ s.mail.queued ∨ m ∈ s.mail.parked := by
  intro pre hpre s
  obtain ⟨post, rfl⟩ := hpre
  have hpart : ((handedIn pre).map PeerMessage.tag).Nodup := by
    have hsplit : handedIn (pre ++ post) = handedIn pre ++ handedIn post := List.filterMap_append
    rw [hsplit, List.map_append] at htags
    exact (List.nodup_append.mp htags).1
  have hsound : Sound s := sound_run pre sound_idle ((along_append pre post _).mp hsafe).1 hpart
  have honce := hsound.once
  rw [List.map_append, List.nodup_append] at honce
  refine ⟨honce.2.1.of_map _, ?_⟩
  intro m hm hunsent
  have hhanded : s.handed = handedIn pre := run_handed pre Sender.idle
  rcases hsound.accounted m (hhanded ▸ hm) with hq | hp | hs
  · exact .inl hq
  · exact .inr hp
  · exact absurd hs hunsent

/-! ### Closed runs -/

def sampleMessage : PeerMessage String :=
  { type := .addBlock, senderIdentity := "node", receiverIdentity := "peer", tag := "T", content := "{}",
    timestamp := 0 }

/-- The message fails until it is parked; then the channel opens and its drain is posted. -/
def parkedThenOpened : List (SendAction String) :=
  .sendAndForget sampleMessage 0 :: List.replicate 4 .processOne ++ [.opens "peer", .processOne]

/-- The channel closes again while the drain is between its two steps. -/
def closedDuringDrain : List (SendAction String) :=
  parkedThenOpened ++ [.task 0, .task 0, .closes "peer", .processOne, .processOne, .processOne, .task 0]

/-- The channel opens twice, and both drains see the message. -/
def openedTwice : List (SendAction String) :=
  parkedThenOpened ++ [.opens "peer", .processOne, .task 0, .task 1, .task 0, .task 1, .processOne,
    .processOne]

/-- The message is sent before the drain removes it. -/
def sentDuringDrain : List (SendAction String) :=
  parkedThenOpened ++ [.task 0, .task 0, .processOne, .task 0, .task 0]

theorem drained_message_lost_or_doubled :
    (((handedIn closedDuringDrain).map PeerMessage.tag).Nodup ∧
      let s := run sendStep Sender.idle closedDuringDrain
      sampleMessage ∈ handedIn closedDuringDrain ∧ sampleMessage ∉ s.mail.sent ∧
        sampleMessage ∉ s.mail.queued ∧ sampleMessage ∉ s.mail.parked) ∧
    (((handedIn openedTwice).map PeerMessage.tag).Nodup ∧
      ¬ (run sendStep Sender.idle openedTwice).mail.sent.Nodup) := by
  decide +kernel

theorem drains_send_once_sentDuringDrain :
    Along sendStep DrainsSafely Sender.idle sentDuringDrain ∧
      (run sendStep Sender.idle sentDuringDrain).mail.sent.Nodup := by
  have hsafe : Along sendStep DrainsSafely Sender.idle sentDuringDrain := by decide +kernel
  have htags : ((handedIn sentDuringDrain).map PeerMessage.tag).Nodup := by decide
  exact ⟨hsafe, (drains_send_once sentDuringDrain htags hsafe _ (List.prefix_refl _)).1⟩

end Krapi.Drains
