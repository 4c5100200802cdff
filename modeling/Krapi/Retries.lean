import Krapi.Drains

/-! # How often a message is tried

A failing send puts the message back into the queue that is being processed.
What ends the loop is the retry count: a copy in the queue has `4 - retryCount`
attempts left, each attempt takes one of them, and a parked copy starts again
only when a drain puts it back, with a count of one. The attempts left are a
budget from which every run pays. -/
namespace Krapi.Retries
open Krapi.BlockchainModels Krapi.DBInterface Krapi.Messages Krapi.RetryHandler Krapi.Lib.Run

variable {C : Type}

/-- The order in a `SendPeerMessage` event. -/
def order? : MailEvent C → Option (InternalMessage (PeerMessage C))
  | .sendPeerMessage m => some m
  | .dataChannelOpened _ => none

/-- The copies in the queue, oldest first. -/
def orders (s : Mail C) : List (InternalMessage (PeerMessage C)) := s.queue.filterMap order?

/-- The event loop takes a `SendPeerMessage` event; `ok` tells whether the send succeeds. -/
def attempt (s : Mail C) (ok : Bool) : Mail C :=
  match s.queue with
  | .sendPeerMessage m :: rest => Mail.onSendPeerMessage (fun _ => ok) { s with queue := rest } m
  | _ => s

/-- Whether the next attempt is one at the message under `tag`. -/
def attempted (tag : String) (s : Mail C) : ℕ :=
  match s.queue with
  | .sendPeerMessage m :: _ => if m.content.tag = tag then 1 else 0
  | _ => 0

/-- The message left the node by a data channel, once, and none of it stays. -/
def Delivered (s : Mail C) (m : InternalMessage (PeerMessage C)) : Prop :=
  (s.sent.filter fun x => x.tag == m.content.tag) = [m.content] ∧
    (s.store.data.filter fun p => p.content.tag == m.content.tag) = []

/-- The message is in the retry store, once, and did not leave the node. -/
def Parked (s : Mail C) (m : InternalMessage (PeerMessage C)) : Prop :=
  (s.sent.filter fun x => x.tag == m.content.tag) = [] ∧
    (s.store.data.filter fun p => p.content.tag == m.content.tag) = [m]

instance [DecidableEq C] (s : Mail C) (m : InternalMessage (PeerMessage C)) : Decidable (Delivered s m) :=
  inferInstanceAs (Decidable (_ ∧ _))

instance [DecidableEq C] (s : Mail C) (m : InternalMessage (PeerMessage C)) : Decidable (Parked s m) :=
  inferInstanceAs (Decidable (_ ∧ _))

/-- **Everything an attempt can do**: nothing, as no message is in front; send
the message; put it back with a higher count; park it. -/
inductive Attempts (s : Mail C) (t : Mail C) : Prop where
  | idle : (∀ m rest, s.queue ≠ .sendPeerMessage m :: rest) → t = s → Attempts s t
  | sends (m : InternalMessage (PeerMessage C)) (rest : List (MailEvent C)) :
      s.queue = .sendPeerMessage m :: rest → t = { s with queue := rest, sent := s.sent ++ [m.content] } →
      Attempts s t
  | requeues (m : InternalMessage (PeerMessage C)) (rest : List (MailEvent C)) :
      s.queue = .sendPeerMessage m :: rest → m.retryCount < 3 →
      t = { s with queue := rest ++ [.sendPeerMessage m.increamentRetryCount] } → Attempts s t
  | parks (m : InternalMessage (PeerMessage C)) (rest : List (MailEvent C)) :
      s.queue = .sendPeerMessage m :: rest → 3 ≤ m.retryCount →
      t = Mail.park { s with queue := rest } m → Attempts s t

theorem attempt_cases (s : Mail C) (ok : Bool) : Attempts s (attempt s ok) := by
  unfold attempt
  split
  · rename_i m rest hq
    cases ok with
    | true => exact .sends m rest hq rfl
    | false =>
      show Attempts s (Mail.retry { s with queue := rest } m)
      unfold Mail.retry
      split
      · rename_i hcount
        exact .parks m rest hq hcount rfl
      · rename_i hcount
        exact .requeues m rest hq (by omega) rfl
  · rename_i hq
    exact .idle (fun m rest h => hq m rest h) rfl

/-! ## The budget -/

/-- The attempts that the copies satisfying `p` have left. -/
def left (p : PeerMessage C → Bool) (ms : List (InternalMessage (PeerMessage C))) : ℕ :=
  (ms.map fun m => if p m.content then 4 - m.retryCount else 0).sum

/-- The queue holds `SendPeerMessage` events only, tried at most three times so far. -/
def Counted (s : Mail C) : Prop := ∀ e ∈ s.queue, ∃ m ∈ order? e, m.retryCount ≤ 3

variable {s : Mail C} {m : InternalMessage (PeerMessage C)} {rest : List (MailEvent C)}
  {p : PeerMessage C → Bool}

theorem orders_cons (h : s.queue = .sendPeerMessage m :: rest) : orders s = m :: rest.filterMap order? := by
  simp [orders, h, order?]

theorem map_orders (s : Mail C) : (orders s).map InternalMessage.content = s.queued := by
  unfold orders Mail.queued
  rw [List.map_filterMap]
  congr 1
  funext e
  cases e <;> rfl

theorem left_cons (m : InternalMessage (PeerMessage C)) (ms : List (InternalMessage (PeerMessage C))) :
    left p (m :: ms) = (if p m.content then 4 - m.retryCount else 0) + left p ms := rfl

theorem left_append (ms ms' : List (InternalMessage (PeerMessage C))) :
    left p (ms ++ ms') = left p ms + left p ms' := by
  simp [left]

theorem Counted.head (h : Counted s) (hq : s.queue = .sendPeerMessage m :: rest) : m.retryCount ≤ 3 := by
  obtain ⟨m', hm', hcount⟩ := h (.sendPeerMessage m) (by simp [hq])
  cases hm'
  exact hcount

theorem Counted.order (h : Counted s) {m : InternalMessage (PeerMessage C)} (hm : m ∈ orders s) :
    m.retryCount ≤ 3 := by
  obtain ⟨e, he, hem⟩ := List.mem_filterMap.mp hm
  obtain ⟨m', hm', hcount⟩ := h e he
  rw [hem] at hm'
  cases hm'
  exact hcount

theorem counted_attempt (h : Counted s) (ok : Bool) : Counted (attempt s ok) := by
  have htail : ∀ {m rest}, s.queue = .sendPeerMessage m :: rest →
      ∀ e ∈ rest, ∃ m ∈ order? e, m.retryCount ≤ 3 := by
    intro m rest hq e he
    exact h e (by rw [hq]; exact List.mem_cons_of_mem _ he)
  cases attempt_cases s ok with
  | idle _ ht => rw [ht]; exact h
  | sends m rest hq ht => rw [ht]; exact htail hq
  | parks m rest hq _ ht => rw [ht]; exact htail hq
  | requeues m rest hq hcount ht =>
    rw [ht]
    intro e he
    rcases List.mem_append.mp he with he | he
    · exact htail hq e he
    · rw [List.mem_singleton.mp he]
      exact ⟨_, rfl, hcount⟩

/-- An attempt takes one from what is left to the message it is at. -/
theorem left_attempt (h : Counted s) (ok : Bool) (hq : s.queue = .sendPeerMessage m :: rest) :
    (if p m.content then 1 else 0) + left p (orders (attempt s ok)) ≤ left p (orders s) := by
  have hcount := h.head hq
  have hs : left p (orders s) =
      (if p m.content then 4 - m.retryCount else 0) + left p (rest.filterMap order?) := by
    rw [orders_cons hq, left_cons]
  cases attempt_cases s ok with
  | idle hnone _ => exact absurd hq (hnone m rest)
  | sends m' rest' hq' ht =>
    rw [hq] at hq'
    cases hq'
    rw [ht, hs]
    show _ + left p (rest.filterMap order?) ≤ _
    split <;> omega
  | requeues m' rest' hq' hless ht =>
    rw [hq] at hq'
    cases hq'
    have hback : orders { s with queue := rest ++ [.sendPeerMessage m.increamentRetryCount] } =
        rest.filterMap order? ++ [m.increamentRetryCount] := by
      simp [orders, order?]
    have hone : left p [m.increamentRetryCount] = if p m.content then 4 - (m.retryCount + 1) else 0 := by
      simp [left, InternalMessage.increamentRetryCount]
    rw [ht, hs, hback, left_append, hone]
    split <;> omega
  | parks m' rest' hq' _ ht =>
    rw [hq] at hq'
    cases hq'
    rw [ht, hs]
    show _ + left p (rest.filterMap order?) ≤ _
    split <;> omega

theorem attempted_attempt (h : Counted s) (tag : String) (ok : Bool) :
    attempted tag s + left (fun x => x.tag == tag) (orders (attempt s ok)) ≤
      left (fun x => x.tag == tag) (orders s) := by
  cases attempt_cases s ok with
  | idle hnone ht =>
    have hzero : attempted tag s = 0 := by
      unfold attempted
      split
      · rename_i m rest hq
        exact absurd hq (hnone m rest)
      · rfl
    rw [hzero, ht, Nat.zero_add]
  | sends m rest hq _ | requeues m rest hq _ _ | parks m rest hq _ _ =>
    have hpaid := left_attempt (p := fun x => x.tag == tag) h ok hq
    have hone : attempted tag s = if (m.content.tag == tag) = true then 1 else 0 := by
      simp [attempted, hq]
    rw [hone]
    exact hpaid

theorem attempts_le (h : Counted s) (tag : String) (oks : List Bool) :
    spent attempt (fun s _ => attempted tag s) s oks ≤ left (fun x => x.tag == tag) (orders s) := by
  have hpaid := spent_add_le (I := Counted) (fun s _ => attempted tag s)
    (fun s => left (fun x => x.tag == tag) (orders s)) (fun s ok h => counted_attempt h ok)
    (fun s ok h => attempted_attempt h tag ok) oks h
  omega

/-! ## The end of the loop -/

theorem Counted.idle_iff (h : Counted s) : s.queue = [] ↔ left (fun _ => true) (orders s) = 0 := by
  constructor
  · intro hq
    simp [orders, hq, left]
  · intro hzero
    cases hq : s.queue with
    | nil => rfl
    | cons e rest =>
      exfalso
      obtain ⟨m, hm, hcount⟩ := h e (by simp [hq])
      cases e with
      | dataChannelOpened peer => cases hm
      | sendPeerMessage m' =>
        cases hm
        rw [orders_cons hq, left_cons] at hzero
        simp only [if_true] at hzero
        omega

theorem attempt_of_idle (h : s.queue = []) (ok : Bool) : attempt s ok = s := by
  simp [attempt, h]

/-- As many attempts as the copies have left empty the queue. -/
theorem queue_eq_nil_of_left_le (h : Counted s) {oks : List Bool}
    (henough : left (fun _ => true) (orders s) ≤ oks.length) : (run attempt s oks).queue = [] := by
  induction oks generalizing s with
  | nil => exact h.idle_iff.mpr (Nat.le_zero.mp henough)
  | cons ok oks ih =>
    apply ih (counted_attempt h ok)
    cases hq : s.queue with
    | nil =>
      rw [attempt_of_idle hq, h.idle_iff.mp hq]
      exact Nat.zero_le _
    | cons e rest =>
      obtain ⟨m, hm, _⟩ := h e (by simp [hq])
      cases e with
      | dataChannelOpened peer => cases hm
      | sendPeerMessage m' =>
        have hpaid := left_attempt (p := fun _ => true) h ok hq
        simp only [if_true] at hpaid
        rw [List.length_cons] at henough
        omega

theorem left_le (ms : List (InternalMessage (PeerMessage C))) : left p ms ≤ 4 * ms.length := by
  induction ms with
  | nil => simp [left]
  | cons m ms ih =>
    rw [left_cons, List.length_cons]
    split <;> omega

theorem terminates (h : Counted s) {oks : List Bool} (henough : 4 * s.queue.length ≤ oks.length) :
    (run attempt s oks).queue = [] := by
  apply queue_eq_nil_of_left_le h
  have hleft : left (fun _ => true) (orders s) ≤ 4 * (orders s).length := left_le _
  have hlength : (orders s).length ≤ s.queue.length := List.length_filterMap_le _ _
  omega

/-! ## One copy of each message -/

/-- Every message is in the queue, in the store or sent, and in one of the three only. -/
structure Orderly (s : Mail C) : Prop where
  counted : Counted s
  stored : ∀ m ∈ s.store.data, m.retryCount = 0
  once : ((s.queued ++ s.sent).map PeerMessage.tag).Nodup
  apart : ∀ x ∈ s.queued ++ s.sent, s.store.contains x.tag = false

/-- The message is somewhere, up to its count. -/
def Held (s : Mail C) (m : InternalMessage (PeerMessage C)) : Prop :=
  (∃ q ∈ orders s, q.resetRetryCount = m) ∨ m ∈ s.store.data ∨ m.content ∈ s.sent

theorem mem_park_data {q : InternalMessage (PeerMessage C)} : q ∈ (s.park m).store.data ↔
    q = m.resetRetryCount ∨ (q ∈ s.store.data ∧ m.content.tag ≠ q.content.tag) := by
  have hfree : (s.store.remove m).2.contains (tag m.resetRetryCount) = false := by
    rw [DBInternface.contains_remove]; simp
  show q ∈ ((s.store.remove m).2.put m.resetRetryCount).2.data ↔ _
  rw [DBInternface.mem_put, hfree, DBInternface.mem_remove]
  simp only [and_true, internalMessage_tag]
  exact or_comm

theorem contains_park (s : Mail C) (m : InternalMessage (PeerMessage C)) (k : String) :
    (s.park m).store.contains k = (s.store.contains k || m.content.tag == k) := by
  show ((s.store.remove m).2.put m.resetRetryCount).2.contains k = _
  rw [DBInternface.contains_put, DBInternface.contains_remove]
  simp only [internalMessage_tag, InternalMessage.resetRetryCount_content, bne]
  cases s.store.contains k <;> cases m.content.tag == k <;> rfl

/-- A message that moves between queue and channels, with the store as it was. -/
theorem Orderly.of_perm {t : Mail C} (h : Orderly s) (hcounted : Counted t)
    (hperm : (t.queued ++ t.sent).Perm (s.queued ++ s.sent)) (hstore : t.store = s.store) : Orderly t where
  counted := hcounted
  stored := hstore ▸ h.stored
  once := ((hperm.map _).nodup_iff).mpr h.once
  apart := by
    intro x hx
    rw [hstore]
    exact h.apart x (hperm.mem_iff.mp hx)

theorem orderly_attempt (h : Orderly s) (ok : Bool) : Orderly (attempt s ok) := by
  have hcounted := counted_attempt h.counted ok
  cases attempt_cases s ok with
  | idle _ ht => rw [ht]; exact h
  | sends m rest hq ht =>
    rw [ht] at hcounted ⊢
    refine h.of_perm hcounted ?_ rfl
    rw [s.queued_cons hq, ← List.append_assoc]
    exact List.perm_append_singleton m.content _
  | requeues m rest hq _ ht =>
    rw [ht] at hcounted ⊢
    refine h.of_perm hcounted ?_ rfl
    have hback : Mail.queued { s with queue := rest ++ [.sendPeerMessage m.increamentRetryCount] } =
        Mail.queued { s with queue := rest } ++ [m.content] := Mail.enqueue_queued { s with queue := rest } _
    rw [s.queued_cons hq, hback, List.append_assoc]
    exact List.perm_middle
  | parks m rest hq _ ht =>
    rw [ht] at hcounted ⊢
    have honce := h.once
    have hapart := h.apart
    rw [s.queued_cons hq, List.cons_append] at honce hapart
    rw [List.map_cons, List.nodup_cons] at honce
    refine ⟨hcounted, ?_, honce.2, ?_⟩
    · intro q hin
      rcases mem_park_data.mp hin with rfl | ⟨hin, _⟩
      · rfl
      · exact h.stored q hin
    · intro x hx
      have hne : m.content.tag ≠ x.tag := by
        intro he
        exact honce.1 (he ▸ List.mem_map_of_mem hx)
      rw [contains_park, Bool.or_eq_false_iff]
      exact ⟨hapart x (List.mem_cons_of_mem _ hx), by simp [hne]⟩

theorem held_attempt (h : Orderly s) {m : InternalMessage (PeerMessage C)} (hm : Held s m) (ok : Bool) :
    Held (attempt s ok) m := by
  -- the copy in the queue is the one in front, or it stays
  have hqueue : ∀ {m' rest q}, s.queue = .sendPeerMessage m' :: rest → q ∈ orders s →
      q = m' ∨ q ∈ rest.filterMap order? := by
    intro m' rest q hq hin
    rw [orders_cons hq] at hin
    exact List.mem_cons.mp hin
  cases attempt_cases s ok with
  | idle _ ht => rw [ht]; exact hm
  | sends m' rest hq ht =>
    rw [ht]
    rcases hm with ⟨q, hin, rfl⟩ | hin | hin
    · rcases hqueue hq hin with rfl | hin
      · exact .inr (.inr (List.mem_append_right _ (List.mem_singleton.mpr rfl)))
      · exact .inl ⟨q, hin, rfl⟩
    · exact .inr (.inl hin)
    · exact .inr (.inr (List.mem_append_left _ hin))
  | requeues m' rest hq _ ht =>
    have hback : orders { s with queue := rest ++ [.sendPeerMessage m'.increamentRetryCount] } =
        rest.filterMap order? ++ [m'.increamentRetryCount] := by
      simp [orders, order?]
    rw [ht]
    rcases hm with ⟨q, hin, rfl⟩ | hin | hin
    · refine .inl ?_
      rw [hback]
      rcases hqueue hq hin with rfl | hin
      · exact ⟨q.increamentRetryCount, List.mem_append_right _ (List.mem_singleton.mpr rfl), rfl⟩
      · exact ⟨q, List.mem_append_left _ hin, rfl⟩
    · exact .inr (.inl hin)
    · exact .inr (.inr hin)
  | parks m' rest hq _ ht =>
    rw [ht]
    rcases hm with ⟨q, hin, rfl⟩ | hin | hin
    · rcases hqueue hq hin with rfl | hin
      · exact .inr (.inl (mem_park_data.mpr (.inl rfl)))
      · exact .inl ⟨q, hin, rfl⟩
    · refine .inr (.inl (mem_park_data.mpr (.inr ⟨hin, ?_⟩)))
      -- nothing is stored under the tag of a queued message
      intro he
      have hfree := h.apart m'.content (by rw [s.queued_cons hq]; exact List.mem_cons_self)
      rw [he] at hfree
      have htaken := DBInternface.contains_of_mem hin
      rw [internalMessage_tag, hfree] at htaken
      cases htaken
    · exact .inr (.inr hin)

/-! ## Where a message ends -/

theorem filter_tag_eq_nil {D : Type} {g : D → String} {l : List D} {k : String} (h : ∀ x ∈ l, g x ≠ k) :
    (l.filter fun x => g x == k) = [] := by
  rw [List.filter_eq_nil_iff]
  intro x hx
  simpa using h x hx

/-- Under distinct tags, one element lies under each. -/
theorem filter_tag_eq_singleton {D : Type} {g : D → String} {l : List D} {v : D} (h : (l.map g).Nodup)
    (hv : v ∈ l) : (l.filter fun x => g x == g v) = [v] := by
  induction l with
  | nil => cases hv
  | cons w l ih =>
    rw [List.map_cons, List.nodup_cons] at h
    rcases List.mem_cons.mp hv with rfl | hv
    · have hrest : (l.filter fun x => g x == g v) = [] := by
        apply filter_tag_eq_nil
        intro x hx he
        exact h.1 (he ▸ List.mem_map_of_mem hx)
      rw [List.filter_cons_of_pos (by simp), hrest]
    · have hne : g w ≠ g v := by
        intro he
        exact h.1 (he ▸ List.mem_map_of_mem hv)
      rw [List.filter_cons_of_neg (by simpa using hne), ih h.2 hv]

theorem store_tags_nodup (db : DBInternface (InternalMessage (PeerMessage C))) :
    (db.data.map fun p => p.content.tag).Nodup := by
  rw [List.Nodup, List.pairwise_map]
  exact db.data_sorted.imp fun hlt => hlt.ne

theorem Orderly.copies_nodup (h : Orderly s) : ((s.queued ++ s.parked).map PeerMessage.tag).Nodup := by
  rw [List.map_append, List.nodup_append]
  have honce := h.once
  rw [List.map_append] at honce
  refine ⟨honce.of_append_left, ?_, ?_⟩
  · rw [Mail.parked, List.map_map]
    exact store_tags_nodup s.store
  · intro k hk k' hk' he
    obtain ⟨x, hx, rfl⟩ := List.mem_map.mp hk
    obtain ⟨y, hy, rfl⟩ := List.mem_map.mp hk'
    obtain ⟨p, hp, rfl⟩ := Mail.mem_parked.mp hy
    have htaken := DBInternface.contains_of_mem hp
    rw [internalMessage_tag, ← he, h.apart x (List.mem_append_left _ hx)] at htaken
    cases htaken

/-- With an empty queue a message was delivered or lies in the store. -/
theorem Orderly.settled (h : Orderly s) (hidle : s.queue = []) (hm : Held s m) : Delivered s m ∨ Parked s m := by
  have honce := h.once
  rw [List.map_append] at honce
  rcases hm with ⟨q, hq, _⟩ | hstored | hsent
  · rw [orders, hidle] at hq
    cases hq
  · refine .inr ⟨?_, filter_tag_eq_singleton (store_tags_nodup s.store) hstored⟩
    apply filter_tag_eq_nil
    intro x hx he
    have htaken := DBInternface.contains_of_mem hstored
    rw [internalMessage_tag, ← he, h.apart x (List.mem_append_right _ hx)] at htaken
    cases htaken
  · refine .inl ⟨filter_tag_eq_singleton honce.of_append_right hsent, ?_⟩
    apply filter_tag_eq_nil (g := fun p : InternalMessage (PeerMessage C) => p.content.tag)
    intro p hp he
    have htaken := DBInternface.contains_of_mem hp
    rw [internalMessage_tag, he, h.apart _ (List.mem_append_right _ hsent)] at htaken
    cases htaken

/-! ## After a drain -/

theorem foldl_drainOne_orders (ms : List (InternalMessage (PeerMessage C))) (s : Mail C) :
    orders (ms.foldl Mail.drainOne s) = orders s ++ ms.map InternalMessage.increamentRetryCount := by
  induction ms generalizing s with
  | nil => simp
  | cons m ms ih =>
    have hone : orders (s.drainOne m) = orders s ++ [m.increamentRetryCount] := by
      simp [orders, Mail.drainOne, Mail.enqueue, order?]
    rw [List.foldl_cons, ih, hone, List.append_assoc]
    rfl

theorem orderly_drainOne (h : Orderly s) (hm : m ∈ s.store.data) : Orderly (s.drainOne m) := by
  have hqueued : (s.drainOne m).queued = s.queued ++ [m.content] := Mail.enqueue_queued s m.increamentRetryCount
  have hperm : ((s.drainOne m).queued ++ (s.drainOne m).sent).Perm (m.content :: (s.queued ++ s.sent)) := by
    rw [hqueued, List.append_assoc]
    exact List.perm_middle
  have hne : ∀ x ∈ s.queued ++ s.sent, m.content.tag ≠ x.tag := by
    intro x hx he
    have htaken := DBInternface.contains_of_mem hm
    rw [internalMessage_tag, he, h.apart x hx] at htaken
    cases htaken
  refine ⟨?_, ?_, ?_, ?_⟩
  · intro e he
    rcases List.mem_append.mp he with he | he
    · exact h.counted e he
    · rw [List.mem_singleton.mp he]
      refine ⟨_, rfl, ?_⟩
      show m.retryCount + 1 ≤ 3
      rw [h.stored m hm]
      omega
  · intro q hq
    exact h.stored q (DBInternface.mem_remove.mp hq).1
  · rw [(hperm.map _).nodup_iff, List.map_cons, List.nodup_cons]
    refine ⟨?_, h.once⟩
    intro hin
    obtain ⟨x, hx, he⟩ := List.mem_map.mp hin
    exact hne x hx he.symm
  · intro x hx
    show (s.store.remove m).2.contains x.tag = false
    rw [DBInternface.contains_remove]
    rcases List.mem_cons.mp (hperm.mem_iff.mp hx) with rfl | hx
    · simp
    · rw [h.apart x hx, Bool.false_and]

theorem held_drainOne (h : Orderly s) (hm : m ∈ s.store.data) {x : InternalMessage (PeerMessage C)}
    (hx : Held s x) : Held (s.drainOne m) x := by
  have horders : orders (s.drainOne m) = orders s ++ [m.increamentRetryCount] := by
    simp [orders, Mail.drainOne, Mail.enqueue, order?]
  rcases hx with ⟨q, hq, he⟩ | hstored | hsent
  · exact .inl ⟨q, by rw [horders]; exact List.mem_append_left _ hq, he⟩
  · by_cases htag : m.content.tag = x.content.tag
    · -- the stored copy is the one put back; its count was zero
      have hsame : m = x := DBInternface.eq_of_tag_eq hm hstored htag
      refine .inl ⟨m.increamentRetryCount, by simp [horders], ?_⟩
      have hzero := h.stored x hstored
      rw [hsame]
      cases x
      subst hzero
      rfl
    · exact .inr (.inl (DBInternface.mem_remove.mpr ⟨hstored, htag⟩))
  · exact .inr (.inr hsent)

/-- Draining keeps the order, as every drained message is still stored when its turn comes. -/
theorem orderly_foldl_drainOne {ms : List (InternalMessage (PeerMessage C))}
    (hms : ∀ m ∈ ms, m ∈ s.store.data) (htags : (ms.map fun m => m.content.tag).Nodup) (h : Orderly s) :
    Orderly (ms.foldl Mail.drainOne s) ∧ ∀ x, Held s x → Held (ms.foldl Mail.drainOne s) x := by
  induction ms generalizing s with
  | nil => exact ⟨h, fun x hx => hx⟩
  | cons m ms ih =>
    rw [List.map_cons, List.nodup_cons] at htags
    have hm := hms m List.mem_cons_self
    have hrest : ∀ q ∈ ms, q ∈ (s.drainOne m).store.data := by
      intro q hq
      refine DBInternface.mem_remove.mpr ⟨hms q (List.mem_cons_of_mem _ hq), ?_⟩
      intro he
      apply htags.1
      rw [← internalMessage_tag m, he]
      exact List.mem_map_of_mem (f := fun q : InternalMessage (PeerMessage C) => q.content.tag) hq
    obtain ⟨horderly, hheld⟩ := ih hrest htags.2 (orderly_drainOne h hm)
    exact ⟨horderly, fun x hx => hheld x (held_drainOne h hm hx)⟩

theorem parkedFor_tags_nodup (s : Mail C) (peer : String) :
    ((s.parkedFor peer).map fun m => m.content.tag).Nodup :=
  (store_tags_nodup s.store).sublist (List.filter_sublist.map _)

theorem mem_of_mem_parkedFor {peer : String} (h : m ∈ s.parkedFor peer) : m ∈ s.store.data :=
  (List.mem_filter.mp h).1

theorem left_eq_zero {ms : List (InternalMessage (PeerMessage C))} (h : ∀ m ∈ ms, p m.content = false) :
    left p ms = 0 := by
  induction ms with
  | nil => rfl
  | cons m ms ih =>
    rw [left_cons, h m List.mem_cons_self, ih fun q hq => h q (List.mem_cons_of_mem _ hq)]
    rfl

/-- Under distinct tags one copy's attempts are all that a tag has left. -/
theorem left_le_of_nodup {ms : List (InternalMessage (PeerMessage C))} {tag : String} {k : ℕ}
    (htags : (ms.map fun m => m.content.tag).Nodup) (hcount : ∀ m ∈ ms, 4 - m.retryCount ≤ k) :
    left (fun x => x.tag == tag) ms ≤ k := by
  induction ms with
  | nil => exact Nat.zero_le _
  | cons m ms ih =>
    rw [List.map_cons, List.nodup_cons] at htags
    rw [left_cons]
    by_cases he : m.content.tag = tag
    · have hrest : left (fun x => x.tag == tag) ms = 0 := by
        apply left_eq_zero
        intro q hq
        rw [beq_eq_false_iff_ne]
        intro hqe
        apply htags.1
        rw [he, ← hqe]
        exact List.mem_map_of_mem (f := fun q : InternalMessage (PeerMessage C) => q.content.tag) hq
      have hone := hcount m List.mem_cons_self
      rw [hrest, if_pos (by simp [he])]
      omega
    · have hrest := ih htags.2 fun q hq => hcount q (List.mem_cons_of_mem _ hq)
      rw [if_neg (by simp [he])]
      omega

/-- What lies in the store has nothing left in the queue. -/
theorem Orderly.left_of_stored (h : Orderly s) (hm : m ∈ s.store.data) :
    left (fun x => x.tag == m.content.tag) (orders s) = 0 := by
  apply left_eq_zero
  intro q hq
  rw [beq_eq_false_iff_ne]
  intro he
  have hqueued : q.content ∈ s.queued := map_orders s ▸ List.mem_map_of_mem hq
  have htaken := DBInternface.contains_of_mem hm
  rw [internalMessage_tag, ← he, h.apart q.content (List.mem_append_left _ hqueued)] at htaken
  cases htaken

/-- What a drain puts back has three attempts left. -/
theorem left_drained (s : Mail C) (peer tag : String) :
    left (fun x => x.tag == tag) ((s.parkedFor peer).map InternalMessage.increamentRetryCount) ≤ 3 := by
  apply left_le_of_nodup
  · rw [List.map_map]
    exact parkedFor_tags_nodup s peer
  · intro q hq
    obtain ⟨m, hm, rfl⟩ := List.mem_map.mp hq
    show 4 - (m.retryCount + 1) ≤ 3
    omega

/-! ## A drain next to the event loop -/

/-- The queue and the store, with a drain that the executor runs at the same time. -/
structure Shared (C : Type) where
  mail : Mail C
  drain : Option (Drains.Task C)

inductive Turn where
  /-- The event loop takes a `SendPeerMessage` event. -/
  | attempt (ok : Bool)
  /-- The executor runs the drain up to its next write. -/
  | advance
  deriving Repr, DecidableEq

def turnStep (s : Shared C) : Turn → Shared C
  | .attempt ok => { s with mail := attempt s.mail ok }
  | .advance =>
    match s.drain with
    | none => s
    | some task => { mail := (task.advance s.mail).1, drain := (task.advance s.mail).2 }

def turnAttempted (tag : String) (s : Shared C) : Turn → ℕ
  | .attempt _ => attempted tag s.mail
  | .advance => 0

/-- The messages that the drain has still to put back. -/
def ahead (s : Shared C) : List (InternalMessage (PeerMessage C)) :=
  match s.drain with
  | some (.iterating rest) => rest
  | some (.removing _ rest) => rest
  | _ => []

/-- The drain has its snapshot, and what it holds has a count of zero. -/
def Draining (s : Shared C) : Prop :=
  Counted s.mail ∧ (∀ m ∈ ahead s, m.retryCount = 0) ∧ ∀ peer, s.drain ≠ some (.posted peer)

/-- The attempts left, with those of the messages that the drain will put back. -/
def turnLeft (p : PeerMessage C → Bool) (s : Shared C) : ℕ :=
  left p (orders s.mail) + left p ((ahead s).map InternalMessage.increamentRetryCount)

theorem draining_turnStep {s : Shared C} (h : Draining s) (a : Turn) : Draining (turnStep s a) := by
  obtain ⟨hcounted, hzero, hsnapshot⟩ := h
  obtain ⟨mail, drain⟩ := s
  cases a with
  | attempt ok => exact ⟨counted_attempt hcounted ok, hzero, hsnapshot⟩
  | advance =>
    cases drain with
    | none => exact ⟨hcounted, hzero, hsnapshot⟩
    | some task =>
      cases task with
      | posted peer => exact absurd rfl (hsnapshot peer)
      | removing m rest => exact ⟨hcounted, hzero, by intro peer; simp [turnStep, Drains.Task.advance]⟩
      | iterating ms =>
        cases ms with
        | nil => exact ⟨hcounted, hzero, by intro peer; simp [turnStep, Drains.Task.advance]⟩
        | cons m rest =>
          refine ⟨?_, fun q hq => hzero q (List.mem_cons_of_mem _ hq), ?_⟩
          · intro e he
            rcases List.mem_append.mp he with he | he
            · exact hcounted e he
            · rw [List.mem_singleton.mp he]
              have hfresh := hzero m List.mem_cons_self
              exact ⟨_, rfl, show m.retryCount + 1 ≤ 3 by omega⟩
          · intro peer
            simp [turnStep, Drains.Task.advance]

/-- The drain moves attempts from what it holds to the queue; the event loop uses them up. -/
theorem turnAttempted_turnStep {s : Shared C} (h : Draining s) (tag : String) (a : Turn) :
    turnAttempted tag s a + turnLeft (fun x => x.tag == tag) (turnStep s a) ≤
      turnLeft (fun x => x.tag == tag) s := by
  obtain ⟨hcounted, hzero, hsnapshot⟩ := h
  obtain ⟨mail, drain⟩ := s
  cases a with
  | attempt ok =>
    show attempted tag mail + (left _ (orders (attempt mail ok)) + left _ _) ≤ left _ (orders mail) + left _ _
    rw [← Nat.add_assoc]
    exact Nat.add_le_add_right (attempted_attempt hcounted tag ok) _
  | advance =>
    show 0 + _ ≤ _
    rw [Nat.zero_add]
    cases drain with
    | none => exact Nat.le_refl _
    | some task =>
      cases task with
      | posted peer => exact absurd rfl (hsnapshot peer)
      | removing m rest => exact Nat.le_refl _
      | iterating ms =>
        cases ms with
        | nil => exact Nat.le_refl _
        | cons m rest =>
          have horders : orders (mail.enqueue m.increamentRetryCount) =
              orders mail ++ [m.increamentRetryCount] := by
            simp [orders, Mail.enqueue, order?]
          show left _ (orders (mail.enqueue m.increamentRetryCount)) +
              left _ (rest.map InternalMessage.increamentRetryCount) ≤
            left _ (orders mail) + left _ (m.increamentRetryCount :: rest.map InternalMessage.increamentRetryCount)
          rw [horders, left_append, left_cons, left_cons]
          exact Nat.le_of_eq (by simp [left]; omega)

/-! ## The claimed bounds -/

theorem orderly_run (h : Orderly s) (oks : List Bool) :
    Orderly (run attempt s oks) ∧ ∀ m, Held s m → Held (run attempt s oks) m :=
  run_keeps (I := fun t => Orderly t ∧ ∀ m, Held s m → Held t m)
    (fun _ ok ht => ⟨orderly_attempt ht.1 ok, fun m hm => held_attempt ht.1 (ht.2 m hm) ok⟩) oks
    ⟨h, fun _ hm => hm⟩

/-- The messages `ms` are queued, fresh and under tags of their own. What lies in
the store came out of its encoding, which has no count. -/
structure Starts (s : Mail C) (ms : List (InternalMessage (PeerMessage C))) : Prop where
  queue : s.queue = ms.map .sendPeerMessage
  sent : s.sent = []
  fresh : ∀ m ∈ ms, m.retryCount = 0
  tags : (ms.map fun m => m.content.tag).Nodup
  stored : ∀ p ∈ s.store.data, p.retryCount = 0
  apart : ∀ m ∈ ms, s.store.contains m.content.tag = false

variable {ms : List (InternalMessage (PeerMessage C))}

theorem Starts.orders (h : Starts s ms) : orders s = ms := by
  rw [Retries.orders, h.queue, List.filterMap_map]
  exact List.filterMap_some

theorem Starts.orderly (h : Starts s ms) : Orderly s := by
  have hqueued : s.queued ++ s.sent = ms.map InternalMessage.content := by
    rw [h.sent, List.append_nil, ← map_orders, h.orders]
  refine ⟨?_, h.stored, ?_, ?_⟩
  · intro e he
    rw [h.queue] at he
    obtain ⟨m, hm, rfl⟩ := List.mem_map.mp he
    exact ⟨m, rfl, by rw [h.fresh m hm]; omega⟩
  · rw [hqueued, List.map_map]
    exact h.tags
  · intro x hx
    rw [hqueued] at hx
    obtain ⟨m, hm, rfl⟩ := List.mem_map.mp hx
    exact h.apart m hm

section Drained

variable {peer : String} (h : Orderly s) (hm : m ∈ s.parkedFor peer)

include h hm

theorem Orderly.left_drain : left (fun x => x.tag == m.content.tag) (orders (s.drain peer)) ≤ 3 := by
  unfold Mail.drain
  rw [foldl_drainOne_orders, left_append, h.left_of_stored (mem_of_mem_parkedFor hm), Nat.zero_add]
  exact left_drained s peer m.content.tag

/-- After a drain in one go. -/
theorem Orderly.after_drain (oks : List Bool) :
    let u := run attempt (s.drain peer) oks
    (4 * (s.drain peer).queue.length ≤ oks.length → u.queue = []) ∧
    spent attempt (fun s _ => attempted m.content.tag s) (s.drain peer) oks ≤ 3 ∧
    (u.queue = [] → Delivered u m ∨ Parked u m) := by
  intro u
  obtain ⟨hdrained, hkept⟩ := orderly_foldl_drainOne (fun q hq => mem_of_mem_parkedFor hq)
    (parkedFor_tags_nodup s peer) h
  obtain ⟨hu, hheld⟩ := orderly_run hdrained oks
  refine ⟨fun henough => terminates hdrained.counted henough, ?_, ?_⟩
  · exact (attempts_le hdrained.counted m.content.tag oks).trans (h.left_drain hm)
  · intro hidle
    exact hu.settled hidle (hheld m (hkept m (.inr (.inl (mem_of_mem_parkedFor hm)))))

/-- While a drain runs next to the event loop. -/
theorem Orderly.during_drain (turns : List Turn) :
    spent turnStep (turnAttempted m.content.tag) ⟨s, some (.iterating (s.parkedFor peer))⟩ turns ≤ 3 := by
  have hdraining : Draining ⟨s, some (.iterating (s.parkedFor peer))⟩ :=
    ⟨h.counted, fun q hq => h.stored q (mem_of_mem_parkedFor hq), fun _ => by simp⟩
  have hpaid := spent_add_le (I := Draining) (turnAttempted m.content.tag)
    (turnLeft fun x => x.tag == m.content.tag) (fun _ a h => draining_turnStep h a)
    (fun _ a h => turnAttempted_turnStep h m.content.tag a) turns hdraining
  have hbudget : turnLeft (fun x => x.tag == m.content.tag) ⟨s, some (.iterating (s.parkedFor peer))⟩ ≤ 3 := by
    show left _ (orders s) + left _ ((s.parkedFor peer).map InternalMessage.increamentRetryCount) ≤ 3
    rw [h.left_of_stored (mem_of_mem_parkedFor hm), Nat.zero_add]
    exact left_drained s peer m.content.tag
  omega

end Drained

/-- **Retrying ends**: four attempts a message empty the queue, and no message
is tried a fifth time, whichever attempts succeed. A copy in the queue was
tried at most three times before, no message has two copies, and in the end
each was sent once or lies in the store once, with its count at zero. After a
drain a parked message is tried three times at most, also when the event loop
runs next to the drain, and is then again sent or parked. -/
theorem retries_bounded (h : Starts s ms) (oks : List Bool) :
    let t := run attempt s oks
    (4 * ms.length ≤ oks.length → t.queue = []) ∧
    (∀ m ∈ ms, spent attempt (fun s _ => attempted m.content.tag s) s oks ≤ 4) ∧
    (∀ m ∈ orders t, m.retryCount ≤ 3) ∧
    ((t.queued ++ t.parked).map PeerMessage.tag).Nodup ∧
    (t.queue = [] → ∀ m ∈ ms, Delivered t m ∨ Parked t m) ∧
    ∀ peer, ∀ m ∈ t.parkedFor peer,
      (∀ oks', let u := run attempt (t.drain peer) oks'
        (4 * (t.drain peer).queue.length ≤ oks'.length → u.queue = []) ∧
        spent attempt (fun s _ => attempted m.content.tag s) (t.drain peer) oks' ≤ 3 ∧
        (u.queue = [] → Delivered u m ∨ Parked u m)) ∧
      ∀ turns, spent turnStep (turnAttempted m.content.tag) ⟨t, some (.iterating (t.parkedFor peer))⟩ turns ≤ 3 := by
  intro t
  have hstart := h.orderly
  have horders := h.orders
  obtain ⟨ht, hheld⟩ := orderly_run hstart oks
  refine ⟨?_, ?_, fun m hm => ht.counted.order hm, ht.copies_nodup, ?_, ?_⟩
  · intro henough
    apply terminates hstart.counted
    rwa [h.queue, List.length_map]
  · intro m _
    refine (attempts_le hstart.counted m.content.tag oks).trans ?_
    rw [horders]
    exact left_le_of_nodup h.tags fun q _ => Nat.sub_le _ _
  · intro hidle m hm
    refine ht.settled hidle (hheld m (.inl ⟨m, horders ▸ hm, ?_⟩))
    have hzero := h.fresh m hm
    cases m
    subst hzero
    rfl
  · intro peer m hm
    exact ⟨ht.after_drain hm, ht.during_drain hm⟩

/-- A vote for a peer that is not connected. -/
def voteTo (peer tag : String) : InternalMessage (PeerMessage ℕ) where
  type := .sendPeerMessage
  content := ⟨.addTransaction, "n", peer, tag, 0, 7⟩
  timestamp := 7

/-- Two votes, of which the second goes out at the third attempt at it. -/
theorem retries_bounded_twoVotes :
    let s : Mail ℕ := ⟨[.sendPeerMessage (voteTo "p" "a"), .sendPeerMessage (voteTo "q" "b")],
      DBInternface.empty, []⟩
    let t := run attempt s [false, false, false, false, false, true, false, true]
    t.queue = [] ∧ t.parkedFor "p" = [voteTo "p" "a"] ∧
      ∀ oks', spent attempt (fun s _ => attempted "a" s) (t.drain "p") oks' ≤ 3 := by
  intro s t
  have hparked : t.parkedFor "p" = [voteTo "p" "a"] := by decide +kernel
  have hstarts : Starts s [voteTo "p" "a", voteTo "q" "b"] :=
    ⟨rfl, rfl, by decide, by decide, by simp [s], by simp [s]⟩
  have hall := retries_bounded hstarts [false, false, false, false, false, true, false, true]
  obtain ⟨hends, _, _, _, _, hdrain⟩ := hall
  refine ⟨hends (by decide), hparked, fun oks' => ?_⟩
  exact ((hdrain "p" (voteTo "p" "a") (by rw [hparked]; simp)).1 oks').2.1

end Krapi.Retries
