import Krapi.Messages
import Krapi.Lib.Run

/-! # Sending to peers, and trying again

`send_and_forget` queues a message for the event loop, which hands it to the
receiver's data channel if that is open. A message that fails is queued again,
and after some attempts parked in the retry store, a `DBInternface` under the
message's tag, until a channel to its receiver opens. Parking is a removal and
a put under the tag, whatever lay there, so a message that shares its tag with
a parked one takes its place. -/
namespace Krapi.RetryHandler
open Krapi.BlockchainModels Krapi.DBInterface Krapi.Messages Krapi.Lib.Run

/-- The events of the queue that concern sending. -/
inductive MailEvent (C : Type) where
  | sendPeerMessage (m : InternalMessage (PeerMessage C))
  | dataChannelOpened (peer : String)
  deriving Repr, DecidableEq

structure Mail (C : Type) where
  queue : List (MailEvent C)
  store : DBInternface (InternalMessage (PeerMessage C))
  /-- What was handed to an open data channel. -/
  sent : List (PeerMessage C)

variable {C : Type}

/-- The message in a `SendPeerMessage` event. -/
def MailEvent.message? : MailEvent C → Option (PeerMessage C)
  | .sendPeerMessage m => some m.content
  | .dataChannelOpened _ => none

namespace Mail

/-- `SendPeerMessage` into the queue. -/
def enqueue (s : Mail C) (m : InternalMessage (PeerMessage C)) : Mail C :=
  { s with queue := s.queue ++ [.sendPeerMessage m] }

/-- `PeerManager::send_and_forget`. -/
def sendAndForget (s : Mail C) (m : PeerMessage C) (clock : UInt64) : Mail C :=
  s.enqueue { type := .sendPeerMessage, content := m, timestamp := clock }

def park (s : Mail C) (m : InternalMessage (PeerMessage C)) : Mail C :=
  { s with store := ((s.store.remove m).2.put m.resetRetryCount).2 }

def retry (s : Mail C) (m : InternalMessage (PeerMessage C)) : Mail C :=
  if m.retryCount ≥ 3 then s.park m else s.enqueue m.increamentRetryCount

/-- `reachable` tells whether the connection map has a connection to a peer, with an open channel. -/
def onSendPeerMessage (reachable : String → Bool) (s : Mail C) (m : InternalMessage (PeerMessage C)) :
    Mail C :=
  if reachable m.content.receiverIdentity then { s with sent := s.sent ++ [m.content] } else s.retry m

/-- One round of the loop that `on_datachannel_open` posts. -/
def drainOne (s : Mail C) (m : InternalMessage (PeerMessage C)) : Mail C :=
  let s := s.enqueue m.increamentRetryCount
  { s with store := (s.store.remove m).2 }

/-- The parked messages for a peer, in the key order of a snapshot. -/
def parkedFor (s : Mail C) (peer : String) : List (InternalMessage (PeerMessage C)) :=
  s.store.data.filter fun m => m.content.receiverIdentity == peer

/-- The loop that `on_datachannel_open` posts, in one go. -/
def drain (s : Mail C) (peer : String) : Mail C := (s.parkedFor peer).foldl drainOne s

/-- The messages in the queue. -/
def queued (s : Mail C) : List (PeerMessage C) := s.queue.filterMap MailEvent.message?

/-- The messages in the store. -/
def parked (s : Mail C) : List (PeerMessage C) := s.store.data.map InternalMessage.content

end Mail

/-- The messages of one answer to a `SyncPoolRequest`: all under the tag of the request. -/
def onSyncPoolRequest (id : String) (toJson : Transaction → C) (clock : UInt64) (request : PeerMessage C)
    (pool : List Transaction) : List (PeerMessage C) :=
  pool.map fun tx =>
    { type := .addTransaction
      senderIdentity := id
      receiverIdentity := request.senderIdentity
      tag := request.tag
      content := toJson tx
      timestamp := clock }

/-! ## What the operations do to the messages -/

namespace Mail

variable {s : Mail C} {m : InternalMessage (PeerMessage C)} {x : PeerMessage C}

@[simp] theorem enqueue_queued (s : Mail C) (m : InternalMessage (PeerMessage C)) :
    (s.enqueue m).queued = s.queued ++ [m.content] := by
  simp [queued, enqueue, MailEvent.message?]

@[simp] theorem enqueue_parked (s : Mail C) (m : InternalMessage (PeerMessage C)) :
    (s.enqueue m).parked = s.parked := rfl

@[simp] theorem enqueue_sent (s : Mail C) (m : InternalMessage (PeerMessage C)) :
    (s.enqueue m).sent = s.sent := rfl

@[simp] theorem park_queued (s : Mail C) (m : InternalMessage (PeerMessage C)) :
    (s.park m).queued = s.queued := rfl

@[simp] theorem park_sent (s : Mail C) (m : InternalMessage (PeerMessage C)) :
    (s.park m).sent = s.sent := rfl

theorem mem_parked : x ∈ s.parked ↔ ∃ p ∈ s.store.data, p.content = x := List.mem_map

/-- A removal by tag takes the message under the tag, and no other. -/
theorem mem_map_remove {db : DBInternface (InternalMessage (PeerMessage C))} :
    x ∈ (db.remove m).2.data.map InternalMessage.content ↔
      x ∈ db.data.map InternalMessage.content ∧ x.tag ≠ m.content.tag := by
  simp only [List.mem_map, DBInternface.mem_remove, internalMessage_tag]
  constructor
  · intro ⟨p, ⟨hp, hne⟩, he⟩
    exact ⟨⟨p, hp, he⟩, he ▸ hne.symm⟩
  · intro ⟨⟨p, hp, he⟩, hne⟩
    exact ⟨p, ⟨hp, he ▸ hne.symm⟩, he⟩

/-- Parking puts the message in the place of whatever lay under its tag. -/
theorem mem_park_parked : x ∈ (s.park m).parked ↔ x = m.content ∨ (x ∈ s.parked ∧ x.tag ≠ m.content.tag) := by
  have hfree : (s.store.remove m).2.contains (tag m.resetRetryCount) = false := by
    rw [DBInternface.contains_remove]; simp
  have hput : x ∈ (s.park m).parked ↔
      x ∈ (s.store.remove m).2.data.map InternalMessage.content ∨ x = m.content := by
    simp only [parked, park, List.mem_map, DBInternface.mem_put, hfree, and_true]
    constructor
    · intro ⟨p, hp, he⟩
      rcases hp with hp | rfl
      · exact .inl ⟨p, hp, he⟩
      · exact .inr he.symm
    · intro hx
      rcases hx with ⟨p, hp, he⟩ | rfl
      · exact ⟨p, .inl hp, he⟩
      · exact ⟨_, .inr rfl, rfl⟩
  rw [hput, mem_map_remove, or_comm]
  exact Iff.rfl

/-- What becomes of a message that the event loop took from the queue. -/
inductive Outcome (s : Mail C) (m : InternalMessage (PeerMessage C)) (t : Mail C) : Bool → Prop where
  | sent : t.queued = s.queued → t.parked = s.parked → t.sent = s.sent ++ [m.content] →
      Outcome s m t false
  | requeued : t.queued = s.queued ++ [m.content] → t.parked = s.parked → t.sent = s.sent →
      Outcome s m t false
  | parked : t.queued = s.queued → t.sent = s.sent →
      (∀ x, x ∈ t.parked ↔ x = m.content ∨ (x ∈ s.parked ∧ x.tag ≠ m.content.tag)) → Outcome s m t true

theorem onSendPeerMessage_outcome (reachable : String → Bool) (s : Mail C)
    (m : InternalMessage (PeerMessage C)) :
    Outcome s m (onSendPeerMessage reachable s m)
      (!reachable m.content.receiverIdentity && decide (m.retryCount ≥ 3)) := by
  unfold onSendPeerMessage retry
  cases reachable m.content.receiverIdentity with
  | true => exact .sent rfl rfl rfl
  | false =>
    by_cases hc : m.retryCount ≥ 3
    · simp only [hc, decide_true, Bool.not_false, Bool.and_true, Bool.false_eq_true, if_false, if_true]
      exact .parked rfl rfl fun x => mem_park_parked
    · simp only [hc, decide_false, Bool.and_false, Bool.false_eq_true, if_false]
      exact .requeued (enqueue_queued s _) rfl rfl

theorem queued_cons (s : Mail C) {m : InternalMessage (PeerMessage C)} {rest : List (MailEvent C)}
    (h : s.queue = .sendPeerMessage m :: rest) :
    s.queued = m.content :: { s with queue := rest }.queued := by
  simp [queued, h, MailEvent.message?]

/-- A message that is not parked is sent or goes to the end of the queue. -/
theorem Outcome.perm {s t : Mail C} {m : InternalMessage (PeerMessage C)} {rest : List (MailEvent C)}
    (hq : s.queue = .sendPeerMessage m :: rest) (h : Outcome { s with queue := rest } m t false) :
    (t.queued ++ t.sent).Perm (s.queued ++ s.sent) ∧ t.parked = s.parked := by
  rw [queued_cons s hq]
  cases h with
  | sent hqueued hparked hsent =>
    refine ⟨?_, hparked⟩
    rw [hqueued, hsent, ← List.append_assoc]
    exact List.perm_append_singleton m.content _
  | requeued hqueued hparked hsent =>
    refine ⟨?_, hparked⟩
    rw [hqueued, hsent, List.append_assoc]
    exact List.perm_middle

/-- The message is in the queue, in the store, or was sent. -/
def Has (s : Mail C) (x : PeerMessage C) : Prop := x ∈ s.queued ∨ x ∈ s.parked ∨ x ∈ s.sent

theorem has_iff_of_perm {s t : Mail C} {x : PeerMessage C}
    (hperm : (t.queued ++ t.sent).Perm (s.queued ++ s.sent)) (hparked : t.parked = s.parked) :
    t.Has x ↔ s.Has x := by
  have hmem : x ∈ t.queued ∨ x ∈ t.sent ↔ x ∈ s.queued ∨ x ∈ s.sent := by
    rw [← List.mem_append, ← List.mem_append]
    exact hperm.mem_iff
  unfold Has
  rw [hparked, or_left_comm, hmem, or_left_comm]

theorem foldl_drainOne_queued (ms : List (InternalMessage (PeerMessage C))) (s : Mail C) :
    (ms.foldl drainOne s).queued = s.queued ++ ms.map InternalMessage.content := by
  induction ms generalizing s with
  | nil => simp
  | cons m ms ih =>
    rw [List.foldl_cons, ih]
    have hone : (s.drainOne m).queued = s.queued ++ [m.content] := enqueue_queued s m.increamentRetryCount
    rw [hone, List.append_assoc]; rfl

theorem foldl_drainOne_sent (ms : List (InternalMessage (PeerMessage C))) (s : Mail C) :
    (ms.foldl drainOne s).sent = s.sent := by
  induction ms generalizing s with
  | nil => rfl
  | cons m ms ih => rw [List.foldl_cons, ih]; rfl

theorem mem_foldl_drainOne_parked (ms : List (InternalMessage (PeerMessage C))) (s : Mail C) :
    x ∈ (ms.foldl drainOne s).parked ↔ x ∈ s.parked ∧ ∀ m ∈ ms, x.tag ≠ m.content.tag := by
  induction ms generalizing s with
  | nil => simp
  | cons m ms ih =>
    have hone : x ∈ (s.drainOne m).parked ↔ x ∈ s.parked ∧ x.tag ≠ m.content.tag := mem_map_remove
    rw [List.foldl_cons, ih, hone, and_assoc, List.forall_mem_cons]

/-- A drain in one go moves messages from the store to the queue. -/
theorem drain_has (peer : String) : (s.drain peer).Has x ↔ s.Has x := by
  unfold Has drain
  rw [foldl_drainOne_queued, foldl_drainOne_sent, mem_foldl_drainOne_parked, List.mem_append]
  have hsub : ∀ m ∈ s.parkedFor peer, m ∈ s.store.data := fun m hm => (List.mem_filter.mp hm).1
  constructor
  · intro h
    rcases h with (hq | hd) | ⟨hp, _⟩ | hs
    · exact .inl hq
    · obtain ⟨m, hm, rfl⟩ := List.mem_map.mp hd
      exact .inr (.inl (mem_parked.mpr ⟨m, hsub m hm, rfl⟩))
    · exact .inr (.inl hp)
    · exact .inr (.inr hs)
  · intro h
    rcases h with hq | hp | hs
    · exact .inl (.inl hq)
    · by_cases hdrained : ∀ m ∈ s.parkedFor peer, x.tag ≠ m.content.tag
      · exact .inr (.inl ⟨hp, hdrained⟩)
      · -- a drained message under the tag of `x` is `x` itself
        push Not at hdrained
        obtain ⟨m, hm, htag⟩ := hdrained
        obtain ⟨p, hin, rfl⟩ := mem_parked.mp hp
        have hpm : p = m := DBInternface.eq_of_tag_eq hin (hsub m hm) htag
        subst hpm
        exact .inl (.inr (List.mem_map_of_mem hm))
    · exact .inr (.inr hs)

end Mail

/-! ## The sending side of a node -/

structure Sender (C : Type) where
  mail : Mail C
  reachable : String → Bool
  /-- The drains posted to the executor, each for the peer whose channel opened. -/
  posted : List String
  /-- What was handed to `send_and_forget`; a log that no step reads. -/
  handed : List (PeerMessage C)

/-- Nothing handed in, no channel open. -/
def Sender.idle : Sender C where
  mail := ⟨[], DBInternface.empty, []⟩
  reachable := fun _ => false
  posted := []
  handed := []

inductive SendAction (C : Type) where
  | sendAndForget (m : PeerMessage C) (clock : UInt64)
  /-- The event loop takes the oldest event. -/
  | processOne
  /-- The executor runs a posted drain, to its end. -/
  | drain (i : ℕ)
  | opens (peer : String)
  | closes (peer : String)
  deriving Repr, DecidableEq

def sendStep (s : Sender C) : SendAction C → Sender C
  | .sendAndForget m clock => { s with mail := s.mail.sendAndForget m clock, handed := s.handed ++ [m] }
  | .processOne =>
    match s.mail.queue with
    | [] => s
    | .sendPeerMessage m :: rest =>
      { s with mail := Mail.onSendPeerMessage s.reachable { s.mail with queue := rest } m }
    | .dataChannelOpened peer :: rest =>
      { s with mail := { s.mail with queue := rest }, posted := s.posted ++ [peer] }
  | .drain i =>
    match s.posted[i]? with
    | none => s
    | some peer => { s with mail := s.mail.drain peer, posted := s.posted.eraseIdx i }
  | .opens peer =>
    { s with
      mail := { s.mail with queue := s.mail.queue ++ [.dataChannelOpened peer] }
      reachable := Function.update s.reachable peer true }
  | .closes peer => { s with reachable := Function.update s.reachable peer false }

/-- The message that the step parks. -/
def parks (s : Sender C) : SendAction C → Option (InternalMessage (PeerMessage C))
  | .processOne =>
    match s.mail.queue with
    | .sendPeerMessage m :: _ =>
      if !s.reachable m.content.receiverIdentity && decide (m.retryCount ≥ 3) then some m else none
    | _ => none
  | _ => none

/-- **Everything a step can do to the messages**: hand in a new one, leave them
where they are or move them, or park one. -/
inductive Moved (s : Sender C) (a : SendAction C) (t : Sender C) : Prop where
  | hands (m : PeerMessage C) : parks s a = none → t.handed = s.handed ++ [m] →
      (∀ x, t.mail.Has x ↔ s.mail.Has x ∨ x = m) → Moved s a t
  | keeps : parks s a = none → t.handed = s.handed → (∀ x, t.mail.Has x ↔ s.mail.Has x) → Moved s a t
  | parks (m : InternalMessage (PeerMessage C)) : parks s a = some m → t.handed = s.handed →
      m.content ∈ s.mail.queued → t.mail.sent = s.mail.sent →
      (∀ x, x ∈ s.mail.queued ↔ x = m.content ∨ x ∈ t.mail.queued) →
      (∀ x, x ∈ t.mail.parked ↔ x = m.content ∨ (x ∈ s.mail.parked ∧ x.tag ≠ m.content.tag)) →
      Moved s a t

theorem sendStep_moved (s : Sender C) (a : SendAction C) : Moved s a (sendStep s a) := by
  cases a with
  | sendAndForget m clock =>
    refine .hands m rfl rfl ?_
    intro x
    simp only [sendStep, Mail.sendAndForget, Mail.Has, Mail.enqueue_queued, Mail.enqueue_parked,
      Mail.enqueue_sent, List.mem_append, List.mem_singleton]
    tauto
  | processOne =>
    cases hq : s.mail.queue with
    | nil =>
      have hstep : sendStep s .processOne = s := by simp [sendStep, hq]
      rw [hstep]
      exact .keeps (by simp [RetryHandler.parks, hq]) rfl fun x => Iff.rfl
    | cons e rest =>
      cases e with
      | dataChannelOpened peer =>
        refine .keeps (by simp [RetryHandler.parks, hq]) (by simp [sendStep, hq]) ?_
        intro x
        simp [sendStep, hq, Mail.Has, Mail.queued, Mail.parked, MailEvent.message?]
      | sendPeerMessage m =>
        have hqueued := s.mail.queued_cons hq
        have hstep : sendStep s .processOne =
            { s with mail := Mail.onSendPeerMessage s.reachable { s.mail with queue := rest } m } := by
          simp [sendStep, hq]
        have hparks : RetryHandler.parks s .processOne =
            if !s.reachable m.content.receiverIdentity && decide (m.retryCount ≥ 3) then some m else none := by
          simp only [RetryHandler.parks, hq]
        have hout := Mail.onSendPeerMessage_outcome s.reachable { s.mail with queue := rest } m
        rw [hstep]
        generalize Mail.onSendPeerMessage s.reachable { s.mail with queue := rest } m = t at hout ⊢
        generalize (!s.reachable m.content.receiverIdentity && decide (m.retryCount ≥ 3)) = parked
          at hparks hout
        cases parked with
        | false =>
          obtain ⟨hperm, hstore⟩ := hout.perm hq
          exact .keeps hparks rfl fun x => Mail.has_iff_of_perm hperm hstore
        | true =>
          cases hout with
          | parked hq' hs' hp' =>
            refine .parks m hparks rfl (by simp [hqueued]) hs' ?_ hp'
            intro x
            rw [hqueued, List.mem_cons]
            change _ ↔ x = m.content ∨ x ∈ t.queued
            rw [hq']
  | drain i =>
    cases hp : s.posted[i]? with
    | none =>
      have hstep : sendStep s (.drain i) = s := by simp [sendStep, hp]
      rw [hstep]
      exact .keeps rfl rfl fun x => Iff.rfl
    | some peer =>
      refine .keeps rfl (by simp [sendStep, hp]) ?_
      intro x
      simp only [sendStep, hp]
      exact Mail.drain_has peer
  | opens peer =>
    refine .keeps rfl rfl ?_
    intro x
    simp [sendStep, Mail.Has, Mail.queued, Mail.parked, MailEvent.message?]
  | closes peer => exact .keeps rfl rfl fun x => Iff.rfl

/-! ## When no message is lost -/

/-- Every message handed in is still there, up to the time it was made. -/
def Accounted (s : Sender C) : Prop := ∀ m ∈ s.handed, ∃ x, s.mail.Has x ∧ x.body = m.body

theorem accounted_iff {s : Sender C} : Accounted s ↔
    ∀ m ∈ s.handed, m.body ∈ (s.mail.queued ++ (s.mail.parked ++ s.mail.sent)).map PeerMessage.body := by
  simp only [Accounted, List.mem_map, List.mem_append, Mail.Has]

instance [DecidableEq C] (s : Sender C) : Decidable (Accounted s) := decidable_of_iff _ accounted_iff.symm

/-- Nothing is there that was not handed in. -/
def Known (s : Sender C) : Prop := ∀ x, s.mail.Has x → x ∈ s.handed

/-- What the store holds under the tag of a message that is parked is in the
queue or was sent as well. -/
def ParksSafely (s : Sender C) (a : SendAction C) : Prop :=
  ∀ m ∈ parks s a, ∀ old ∈ s.mail.store.get m.content.tag,
    old.content.body ∈ (s.mail.queued ++ s.mail.sent).map PeerMessage.body

instance [DecidableEq C] (s : Sender C) (a : SendAction C) : Decidable (ParksSafely s a) :=
  inferInstanceAs (Decidable (∀ m ∈ parks s a, ∀ old ∈ s.mail.store.get m.content.tag, _))

variable {s : Sender C} {a : SendAction C}

theorem known_sendStep (h : Known s) : Known (sendStep s a) := by
  have hmoved := sendStep_moved s a
  generalize sendStep s a = t at hmoved ⊢
  intro x hx
  cases hmoved with
  | hands m _ hhanded hhas =>
    rw [hhanded, List.mem_append, List.mem_singleton]
    rcases (hhas x).mp hx with hx | hx
    · exact .inl (h x hx)
    · exact .inr hx
  | keeps _ hhanded hhas =>
    rw [hhanded]
    exact h x ((hhas x).mp hx)
  | parks m _ hhanded hm hsent hqueued hparked =>
    rw [hhanded]
    apply h
    rcases hx with hx | hx | hx
    · exact .inl ((hqueued x).mpr (.inr hx))
    · rcases (hparked x).mp hx with rfl | ⟨hx, _⟩
      · exact .inl hm
      · exact .inr (.inl hx)
    · exact .inr (.inr (hsent ▸ hx))

section Parking

variable {t : Sender C} {m : InternalMessage (PeerMessage C)} (hhanded : t.handed = s.handed)
  (hin : m.content ∈ s.mail.queued) (hsent : t.mail.sent = s.mail.sent)
  (hqueued : ∀ x, x ∈ s.mail.queued ↔ x = m.content ∨ x ∈ t.mail.queued)
  (hparked : ∀ x, x ∈ t.mail.parked ↔ x = m.content ∨ (x ∈ s.mail.parked ∧ x.tag ≠ m.content.tag))

include hhanded hsent hqueued hparked

/-- What is displaced is found where its other copy is. -/
theorem accounted_of_safe (h : Accounted s) (hsafe : ∀ old ∈ s.mail.store.get m.content.tag,
    old.content.body ∈ (s.mail.queued ++ s.mail.sent).map PeerMessage.body) : Accounted t := by
  have helsewhere : ∀ y, y ∈ s.mail.queued ∨ y ∈ s.mail.sent → t.mail.Has y := by
    intro y hy
    rcases hy with hy | hy
    · rcases (hqueued y).mp hy with rfl | hy
      · exact .inr (.inl ((hparked _).mpr (.inl rfl)))
      · exact .inl hy
    · exact .inr (.inr (hsent ▸ hy))
  intro x hx
  rw [hhanded] at hx
  obtain ⟨y, hy, hbody⟩ := h x hx
  rcases hy with hy | hy | hy
  · exact ⟨y, helsewhere y (.inl hy), hbody⟩
  · by_cases htag : y.tag = m.content.tag
    · obtain ⟨old, hold, rfl⟩ := Mail.mem_parked.mp hy
      have hget := DBInternface.mem_data.mp hold
      rw [internalMessage_tag, htag] at hget
      obtain ⟨z, hz, hzbody⟩ := List.mem_map.mp (hsafe old hget)
      exact ⟨z, helsewhere z (List.mem_append.mp hz), hzbody.trans hbody⟩
    · exact ⟨y, .inr (.inl ((hparked y).mpr (.inr ⟨hy, htag⟩))), hbody⟩
  · exact ⟨y, helsewhere y (.inr hy), hbody⟩

include hin

/-- What is displaced and still there has another copy. -/
theorem safe_of_accounted (hk : Known s) (h : Accounted t) {old : InternalMessage (PeerMessage C)}
    (hold : old ∈ s.mail.store.get m.content.tag) :
    old.content.body ∈ (s.mail.queued ++ s.mail.sent).map PeerMessage.body := by
  have holdin : old ∈ s.mail.store.data := DBInternface.mem_data_of_get hold
  have hhas : s.mail.Has old.content := .inr (.inl (Mail.mem_parked.mpr ⟨old, holdin, rfl⟩))
  obtain ⟨y, hy, hbody⟩ := h old.content (hhanded ▸ hk _ hhas)
  have hytag : y.tag = m.content.tag :=
    (PeerMessage.tag_eq_of_body_eq hbody).trans (DBInternface.tag_of_get hold)
  rw [← hbody]
  apply List.mem_map_of_mem
  rw [List.mem_append]
  rcases hy with hy | hy | hy
  · exact .inl ((hqueued y).mpr (.inr hy))
  · rcases (hparked y).mp hy with rfl | ⟨_, hne⟩
    · exact .inl hin
    · exact absurd hytag hne
  · exact .inr (hsent ▸ hy)

end Parking

/-- Parking loses nothing exactly when what it displaces has another copy. -/
theorem accounted_sendStep_iff (hk : Known s) (h : Accounted s) :
    ParksSafely s a ↔ Accounted (sendStep s a) := by
  have hmoved := sendStep_moved s a
  unfold ParksSafely
  generalize sendStep s a = t at hmoved ⊢
  cases hmoved with
  | hands m hnone hhanded hhas =>
    refine iff_of_true (by simp [hnone]) ?_
    intro x hx
    rw [hhanded, List.mem_append, List.mem_singleton] at hx
    rcases hx with hx | rfl
    · obtain ⟨y, hy, hbody⟩ := h x hx
      exact ⟨y, (hhas y).mpr (.inl hy), hbody⟩
    · exact ⟨x, (hhas x).mpr (.inr rfl), rfl⟩
  | keeps hnone hhanded hhas =>
    refine iff_of_true (by simp [hnone]) ?_
    intro x hx
    rw [hhanded] at hx
    obtain ⟨y, hy, hbody⟩ := h x hx
    exact ⟨y, (hhas y).mpr hy, hbody⟩
  | parks m hm hhanded hin hsent hqueued hparked =>
    simp only [hm, Option.mem_some_iff, forall_eq']
    exact ⟨accounted_of_safe hhanded hsent hqueued hparked h,
      fun hall old hold => safe_of_accounted hhanded hin hsent hqueued hparked hk hall hold⟩

/-- **No message is lost exactly while parking is safe.** In every run of the
handlers, of drains that each run in one go, and of channels that open and close
at any time: every message handed in is at every point in the queue, in the
retry store or already sent, if and only if whenever a message is parked, what
the store holds under its tag is also in the queue or already sent. -/
theorem no_message_lost_iff (as : List (SendAction C)) :
    (∀ pre, pre <+: as → Accounted (run sendStep Sender.idle pre)) ↔
      Along sendStep ParksSafely Sender.idle as := by
  have hknown : Known (Sender.idle : Sender C) := by
    intro x hx
    simp [Mail.Has, Sender.idle, Mail.queued, Mail.parked] at hx
  have hstart : Accounted (Sender.idle : Sender C) := by
    intro m hm
    cases hm
  exact throughout_iff_along_of_inv (fun _ _ h => known_sendStep h)
    (fun _ _ hk h => accounted_sendStep_iff hk h) as hknown hstart

/-- Both votes of a pool, sent to a peer whose channel is closed. -/
def syncWhileClosed : List (SendAction Transaction) :=
  let request : PeerMessage Transaction :=
    { type := .syncPoolRequest, senderIdentity := "peer", receiverIdentity := "node", tag := "T"
      content := ⟨.send, .pending, "", 0, "", ""⟩, timestamp := 0 }
  let vote (hash : String) : Transaction := ⟨.send, .pending, hash, 1670000000000, "voter", "candidate"⟩
  (onSyncPoolRequest "node" id 0 request [vote "AA", vote "BB"]).map (.sendAndForget · 0) ++
    List.replicate 8 .processOne

theorem synced_vote_lost : ¬ Accounted (run sendStep Sender.idle syncWhileClosed) := by decide +kernel

end Krapi.RetryHandler
