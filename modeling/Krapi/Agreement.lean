import Krapi.MinerWaits
import Krapi.Lib.Settlement

/-! # When two miners agree

Seen from the blocks under way, each of two nodes is a party that settles
offers: a broadcast is an offer, which the receiver judges with its validator,
and the miner runs its own validator once it has an answer or the two seconds are
over. A party stands where its node will stand with its queue gone through, so
that a block is judged as it arrives. Blocks that cross each other leave the nodes
on different chains, and nothing repairs that; one block at a time, they agree. -/
namespace Krapi.Agreement
open Krapi.BlockchainModels Krapi.DBInterface Krapi.ChainStore Krapi.Validator Krapi.Pool
open Krapi.Handlers Krapi.Mining Krapi.Miner Krapi.TwoNodes Krapi.Lib.Run Krapi.Lib.Settlement
open Krapi.MinerWaits (moreVotes roundsDigest)

/-! ## What a queue does to the stores -/

/-- The same stores, whatever is queued for the miner. -/
structure SameStores (n n' : Node) : Prop where
  chain : n.blockchain = n'.blockchain
  pool : n.transactionPool.toDBInternface = n'.transactionPool.toDBInternface
  spent : n.spentTransactionsStore = n'.spentTransactionsStore

theorem SameStores.refl (n : Node) : SameStores n n := ⟨rfl, rfl, rfl⟩

theorem SameStores.trans {n n' n'' : Node} (h : SameStores n n') (h' : SameStores n' n'') : SameStores n n'' :=
  ⟨h.chain.trans h'.chain, h.pool.trans h'.pool, h.spent.trans h'.spent⟩

theorem spend_congr (txs : List Transaction) :
    ∀ {pool pool' : TransactionPool} (spent : SpentTransactionsStore), pool.toDBInternface = pool'.toDBInternface →
      (txs.foldl spendTransaction (pool, spent)).1.toDBInternface =
          (txs.foldl spendTransaction (pool', spent)).1.toDBInternface ∧
        (txs.foldl spendTransaction (pool, spent)).2 = (txs.foldl spendTransaction (pool', spent)).2 := by
  induction txs with
  | nil => exact fun _ h => ⟨h, rfl⟩
  | cons tx rest ih =>
    intro pool pool' spent h
    rw [List.foldl_cons, List.foldl_cons, spendTransaction_eq, spendTransaction_eq]
    have hin : pool.contains tx.hash = pool'.contains tx.hash := by rw [h]
    dsimp only
    rw [hin]
    refine ih _ ?_
    rw [TransactionPool.remove_db, TransactionPool.remove_db, h]

section Same
variable {n n' : Node} (h : SameStores n n')
include h

theorem SameStores.accepts_iff (b : Block) : Accepts n b ↔ Accepts n' b := by
  unfold Accepts
  rw [h.chain, h.spent]

theorem SameStores.addValidated (b : Block) : SameStores (addValidated n b) (addValidated n' b) := by
  obtain ⟨hpool, hspent⟩ := spend_congr b.transactions n'.spentTransactionsStore h.pool
  refine ⟨?_, ?_, ?_⟩
  · rw [addValidated_blockchain, addValidated_blockchain, h.chain]
  · unfold Handlers.addValidated
    rw [h.spent]
    exact hpool
  · unfold Handlers.addValidated
    rw [h.spent]
    exact hspent

/-- Neither what is queued for the miner nor `try_enqueue` decides what an event does to the stores. -/
theorem SameStores.event (ev : QueuedEvent) (room : Bool) :
    SameStores (((ev.event? room).map (handle n)).getD n) (taken n' ev) := by
  have hblock : ∀ (event : Event) {b : Block}, event.block? = some b →
      SameStores (handle n event) (handle n' event) := by
    intro event b hb
    rw [handle_block n hb, handle_block n' hb]
    by_cases hacc : Accepts n b
    · rw [if_pos hacc, if_pos ((h.accepts_iff b).mp hacc)]
      exact h.addValidated b.verified
    · rw [if_neg hacc, if_neg (mt (h.accepts_iff b).mpr hacc)]
      exact h
  cases ev with
  | received sender m =>
    cases m with
    | addTransaction tx =>
      show SameStores (onAddTransaction n tx room) (onAddTransaction n' tx true)
      rw [onAddTransaction_eq, onAddTransaction_eq, h.spent]
      split
      · exact h
      · refine ⟨h.chain, ?_, rfl⟩
        show (n.transactionPool.add tx room).2.toDBInternface = (n'.transactionPool.add tx true).2.toDBInternface
        rw [TransactionPool.add_db, TransactionPool.add_db, h.pool]
    | addBlock b => exact hblock (.addBlock sender b) rfl
    | _ => exact h
  | blockMined b => exact hblock (.blockMined b) rfl
  | _ => exact h

theorem SameStores.outgoing (ev : QueuedEvent) : outgoing n ev = outgoing n' ev := by
  cases ev with
  | received sender m =>
    cases m with
    | addBlock b =>
      show (onAddBlock n sender b).2 = (onAddBlock n' sender b).2
      by_cases hacc : Accepts n b
      · rw [onAddBlock_of_accepts hacc, onAddBlock_of_accepts ((h.accepts_iff b).mp hacc)]
      · rw [onAddBlock_of_not_accepts hacc, onAddBlock_of_not_accepts (mt (h.accepts_iff b).mpr hacc), h.chain, h.spent]
    | blockHeadersRequest header =>
      show [Effect.send sender (onBlockHeadersRequest n.blockchain header)] = _
      rw [h.chain]
      rfl
    | blockRequest header =>
      show [Effect.send sender (onBlockRequest n.blockchain header)] = _
      rw [h.chain]
      rfl
    | _ => rfl
  | blockMined b =>
    show (onBlockMined n b).2 = (onBlockMined n' b).2
    unfold onBlockMined
    rw [h.chain, h.spent]
    dsimp only
    split <;> rfl
  | _ => rfl

end Same

theorem SameStores.foldl (events : List QueuedEvent) :
    ∀ {n n' : Node}, SameStores n n' → SameStores (events.foldl taken n) (events.foldl taken n') := by
  induction events with
  | nil => exact fun h => h
  | cons ev rest ih => exact fun h => ih (h.event ev true)

theorem SameStores.due (peer : String) (events : List QueuedEvent) :
    ∀ {n n' : Node}, SameStores n n' → due peer n events = due peer n' events := by
  induction events with
  | nil => exact fun _ => rfl
  | cons ev rest ih =>
    intro n n' h
    unfold TwoNodes.due
    rw [h.outgoing ev]
    exact congrArg _ (ih (h.event ev true))

theorem due_append (peer : String) (events events' : List QueuedEvent) :
    ∀ n : Node, due peer n (events ++ events') = due peer n events ++ due peer (events.foldl taken n) events' := by
  induction events with
  | nil => exact fun _ => rfl
  | cons ev rest ih =>
    intro n
    rw [List.cons_append, due, due, ih, List.append_assoc]
    rfl

/-- What handlers queue does nothing to the stores. -/
theorem foldl_taken_queued (effects : List Effect) :
    ∀ n : Node, (effects.filterMap Effect.queued).foldl taken n = n := by
  induction effects with
  | nil => exact fun _ => rfl
  | cons effect rest ih =>
    intro n
    cases effect <;> exact ih n

/-- What handlers queue for the peer is what they have for it. -/
theorem due_queued (peer : String) (effects : List Effect) :
    ∀ n : Node, due peer n (effects.filterMap Effect.queued) = effects.filterMap (toPeer peer) := by
  induction effects with
  | nil => exact fun _ => rfl
  | cons effect rest ih =>
    intro n
    cases effect with
    | send receiver m =>
      show ([Effect.send receiver m].filterMap (toPeer peer)) ++ due peer n (rest.filterMap Effect.queued) = _
      rw [ih, ← List.filterMap_append]
      rfl
    | broadcast peers m => exact ih n
    | minedBlockValidated => exact ih n

/-! ## A node as a party -/

/-- The stores that decide about a block. -/
abbrev Stores := Blockchain × SpentTransactionsStore

def rules : Rules Stores Block Blockchain where
  passes s b := validateBlock s.1 s.2 b = .success
  ledger := Prod.fst
  add b chain := (chain.put b.verified).2

def stores (n : Node) : Stores := (n.blockchain, n.spentTransactionsStore)

def toMessage : NodeMessage → Option (Message Block)
  | .addBlock block => some (.offer block)
  | .blockRejected _ => some .refused
  | _ => none

/-- A refusal that waits to be heard. -/
def arriving : QueuedEvent → Option (Message Block)
  | .received _ (.blockRejected _) => some .refused
  | _ => none

/-- What of the endpoint matters for the blocks under way. -/
def view (peer : String) (e : Endpoint) : Party Stores Block where
  state := stores e.ahead
  offered := awaiting e.full.phase
  arrived := ↑(e.full.events.filterMap arriving)
  leaving := ↑((e.underWay peer).filterMap toMessage)

theorem SameStores.stores_eq {n n' : Node} (h : SameStores n n') : stores n = stores n' :=
  Prod.ext h.chain h.spent

section Views
variable {peer : String} {e e' : Endpoint}

/-- A view is read off the stores ahead, the phase, the refusals and what is under way. -/
theorem view_eq (hstores : stores e'.ahead = stores e.ahead) (hoffered : awaiting e'.full.phase = awaiting e.full.phase)
    (harrived : e'.full.events.filterMap arriving = e.full.events.filterMap arriving)
    (hleaving : ((e'.underWay peer).filterMap toMessage).Perm ((e.underWay peer).filterMap toMessage)) :
    view peer e' = view peer e := by
  unfold view
  rw [hstores, hoffered, harrived, Multiset.coe_eq_coe.mpr hleaving]

theorem offers_view (h : ∀ m ∈ e.underWay peer, offersBlock m = false) : offers (view peer e).leaving = 0 := by
  have hnil : ((e.underWay peer).filterMap toMessage).filterMap Message.item? = [] := by
    rw [List.filterMap_filterMap, List.filterMap_eq_nil_iff]
    intro m hm
    have hno := h m hm
    cases m with
    | addBlock b => cases hno
    | _ => rfl
  exact congrArg Multiset.ofList hnil

/-- Refusals are all that waits to be heard. -/
theorem offers_arrived (e : Endpoint) : offers (view peer e).arrived = 0 := by
  have hnil : (e.full.events.filterMap arriving).filterMap Message.item? = [] := by
    rw [List.filterMap_filterMap, List.filterMap_eq_nil_iff]
    intro ev _
    cases ev with
    | received sender m => cases m <;> rfl
    | _ => rfl
  exact congrArg Multiset.ofList hnil

theorem settled_of_idle {v : Party Stores Block} (h : Idle peer e) (hv : offers v.arrived = 0) :
    Settled (view peer e) v := by
  refine ⟨h.1, ?_⟩
  rw [offers_add, offers_view h.2, hv, add_zero]

theorem not_refused_of_unrefused {id : String} (h : Unrefused id e e') :
    .refused ∉ (view id e').leaving + (view peer e).arrived := by
  rw [Multiset.mem_add, not_or]
  constructor
  · intro hin
    obtain ⟨m, hm, he⟩ := List.mem_filterMap.mp (Multiset.mem_coe.mp hin)
    have hno := h.2 m hm
    cases m with
    | blockRejected reason => cases hno
    | _ => cases he
  · intro hin
    obtain ⟨ev, hev, he⟩ := List.mem_filterMap.mp (Multiset.mem_coe.mp hin)
    have hno := h.1 ev hev
    cases ev with
    | received sender m =>
      cases m with
      | blockRejected reason => cases hno
      | _ => cases he
    | _ => cases he

end Views

/-! ## A step of the node is a step of the party -/

/-- Handlers broadcast blocks to observers only. -/
theorem effects_toFullNodes (n : Node) (ev : QueuedEvent) : (ev.effects n).filterMap toFullNodes = [] := by
  cases ev with
  | received sender m =>
    cases m with
    | addBlock b =>
      show (onAddBlock n sender b).2.filterMap toFullNodes = []
      by_cases hacc : Accepts n b
      · rw [onAddBlock_of_accepts hacc]
        rfl
      · rw [onAddBlock_of_not_accepts hacc]
        rfl
    | _ => rfl
  | blockMined b =>
    rw [List.filterMap_eq_nil_iff]
    show ∀ effect ∈ (onBlockMined n b).2, toFullNodes effect = none
    unfold onBlockMined
    dsimp only
    split
    · simp [toFullNodes]
    · simp only [List.mem_cons, List.mem_flatMap, List.not_mem_nil, or_false]
      intro effect hin
      rcases hin with rfl | rfl | ⟨tx, _, rfl | rfl⟩ <;> rfl
  | _ => rfl

theorem toPeer_bind {peer receiver : String} {m : NodeMessage} (hm : toMessage m = none) :
    (toPeer peer (.send receiver m)).bind toMessage = none := by
  show (if receiver = peer then some m else none).bind toMessage = none
  split
  · exact hm
  · rfl

/-- A mined block leads to nothing that is offered to the peer or refused. -/
theorem outgoing_blockMined (peer : String) (n : Node) (b : Block) :
    ((outgoing n (.blockMined b)).filterMap (toPeer peer)).filterMap toMessage = [] := by
  rw [List.filterMap_filterMap, List.filterMap_eq_nil_iff]
  show ∀ effect ∈ (onBlockMined n b).2, (toPeer peer effect).bind toMessage = none
  unfold onBlockMined
  dsimp only
  split
  · simp [toPeer]
  · simp only [List.mem_cons, List.mem_flatMap, List.not_mem_nil, or_false]
    intro effect hin
    rcases hin with rfl | rfl | ⟨tx, _, rfl | rfl⟩
    · rfl
    · rfl
    · exact toPeer_bind rfl
    · exact toPeer_bind rfl

/-- What a dispatched event sends at once, and what it queues to be sent. -/
theorem dispatch_sent (peer : String) (s : FullNode) (room : Bool) (ev : QueuedEvent) :
    (dispatch s room ev).2.filterMap toFullNodes = [] ∧
      (dispatch s room ev).2.filterMap (toPeer peer) ++ (ev.effects s.node).filterMap (toPeer peer) =
        (outgoing s.node ev).filterMap (toPeer peer) := by
  have hbroadcasts : ∀ effects : List Effect, (effects.filter Effect.isBroadcast).filterMap (toPeer peer) = [] := by
    intro effects
    rw [List.filterMap_eq_nil_iff]
    intro effect h
    cases effect with
    | send receiver m => simp [Effect.isBroadcast] at h
    | broadcast peers m => rfl
    | minedBlockValidated => rfl
  have hposted : (dispatch s room ev).2 = (ev.effects s.node).filter Effect.isBroadcast →
      outgoing s.node ev = ev.effects s.node →
      (dispatch s room ev).2.filterMap toFullNodes = [] ∧
        (dispatch s room ev).2.filterMap (toPeer peer) ++ (ev.effects s.node).filterMap (toPeer peer) =
          (outgoing s.node ev).filterMap (toPeer peer) := by
    intro hout hgoing
    rw [hout, hgoing, hbroadcasts, List.nil_append]
    refine ⟨?_, rfl⟩
    rw [List.filterMap_eq_nil_iff]
    intro effect h
    exact List.filterMap_eq_nil_iff.mp (effects_toFullNodes s.node ev) effect (List.mem_filter.mp h).1
  obtain ⟨node, events, phase⟩ := s
  cases ev with
  | received sender m =>
    cases m with
    | blockAccepted header => cases phase <;> exact ⟨rfl, rfl⟩
    | blockRejected reason => cases phase <;> exact ⟨rfl, rfl⟩
    | _ => exact hposted rfl rfl
  | sendPeerMessage receiver m => exact ⟨rfl, List.append_nil _⟩
  | blockMined b => exact hposted rfl rfl
  | minedBlockValidated => cases phase <;> exact ⟨rfl, rfl⟩

variable {peer : String} {e : Endpoint} {may : Block → Prop}

/-- An event that is dispatched was there before: all that is seen of it is that it was heard. -/
theorem view_dispatch {node : Node} {phase : Phase} {ev : QueuedEvent} {rest : List QueuedEvent}
    {outbox channel : List NodeMessage} (room : Bool) :
    view peer (Endpoint.act peer ⟨⟨node, ev :: rest, phase⟩, outbox, channel⟩ (dispatch ⟨node, rest, phase⟩ room ev)) =
      { view peer ⟨⟨node, ev :: rest, phase⟩, outbox, channel⟩ with
        offered := awaiting (phase.hear ev)
        arrived := ↑(rest.filterMap arriving) } := by
  have hnode := dispatch_node ⟨node, rest, phase⟩ room ev
  have hphase := dispatch_phase ⟨node, rest, phase⟩ room ev
  have hevents := dispatch_events ⟨node, rest, phase⟩ room ev
  obtain ⟨hfull, hpeer⟩ := dispatch_sent peer ⟨node, rest, phase⟩ room ev
  generalize dispatch ⟨node, rest, phase⟩ room ev = r at hnode hphase hevents hfull hpeer ⊢
  dsimp only at hnode hphase hevents hpeer
  have hsame : SameStores r.1.node (taken node ev) := hnode ▸ (SameStores.refl node).event ev room
  have hahead : stores (r.1.events.foldl taken r.1.node) = stores ((ev :: rest).foldl taken node) := by
    rw [hevents, List.foldl_append, foldl_taken_queued]
    exact (hsame.foldl rest).stores_eq
  have harrived : r.1.events.filterMap arriving = rest.filterMap arriving := by
    have hqueued : ((ev.effects node).filterMap Effect.queued).filterMap arriving = [] := by
      rw [List.filterMap_filterMap, List.filterMap_eq_nil_iff]
      intro effect _
      cases effect <;> rfl
    rw [hevents, List.filterMap_append, hqueued, List.append_nil]
  have hdue : due peer r.1.node r.1.events =
      due peer (taken node ev) rest ++ (ev.effects node).filterMap (toPeer peer) := by
    rw [hevents, due_append, due_queued, hsame.due peer rest]
  have hleaving : ((Endpoint.act peer ⟨⟨node, ev :: rest, phase⟩, outbox, channel⟩ r).underWay peer).Perm
      (Endpoint.underWay peer ⟨⟨node, ev :: rest, phase⟩, outbox, channel⟩) := by
    show ((outbox ++ r.2.filterMap toFullNodes) ++ (channel ++ r.2.filterMap (toPeer peer)) ++
        due peer r.1.node r.1.events).Perm
      (outbox ++ channel ++ ((outgoing node ev).filterMap (toPeer peer) ++ due peer (taken node ev) rest))
    rw [hfull, hdue, ← hpeer, List.append_nil, ← List.append_assoc outbox, List.append_assoc (outbox ++ channel),
      List.append_assoc (r.2.filterMap (toPeer peer))]
    exact ((List.perm_append_comm).append_left _).append_left _
  exact Party.ext hahead (congrArg awaiting hphase) (congrArg Multiset.ofList harrived)
    (Multiset.coe_eq_coe.mpr (hleaving.filterMap toMessage))

/-- A miner takes notice of an answer or of nothing. -/
theorem awaiting_hear (phase : Phase) (ev : QueuedEvent) :
    awaiting (phase.hear ev) = awaiting phase ∨ arriving ev = some .refused ∧ awaiting (phase.hear ev) = none := by
  cases ev with
  | received sender m =>
    cases m with
    | blockAccepted header => cases phase <;> exact .inl rfl
    | blockRejected reason =>
      cases phase with
      | listening b => exact .inr ⟨rfl, rfl⟩
      | _ => exact .inl rfl
    | _ => cases phase <;> exact .inl rfl
  | minedBlockValidated => cases phase <;> exact .inl rfl
  | _ => cases phase <;> exact .inl rfl

theorem processOne_moves (room : Bool) :
    Moves rules may (view peer e) (view peer (e.act peer (processOne e.full room))) := by
  obtain ⟨⟨node, events, phase⟩, outbox, channel⟩ := e
  cases events with
  | nil => exact Moves.of_eq (by simp [processOne, Endpoint.act])
  | cons ev rest =>
    have hhear := awaiting_hear phase ev
    show Moves rules may _ (view peer (Endpoint.act peer _ (dispatch ⟨node, rest, phase⟩ room ev)))
    rw [view_dispatch room]
    cases hev : arriving ev with
    | none =>
      have harrived : (ev :: rest).filterMap arriving = rest.filterMap arriving := List.filterMap_cons_none hev
      have hsame : awaiting (phase.hear ev) = awaiting phase := by
        rcases hhear with h | ⟨h, _⟩
        · exact h
        · rw [hev] at h; cases h
      refine Moves.of_eq (Party.ext rfl hsame ?_ rfl)
      exact congrArg Multiset.ofList harrived.symm
    | some m =>
      have hm : m = .refused := by
        cases ev with
        | received sender message => cases message <;> cases hev; rfl
        | _ => cases hev
      subst hm
      have harrived : (ev :: rest).filterMap arriving = .refused :: rest.filterMap arriving :=
        List.filterMap_cons_some hev
      refine .hear _ _ ?_ (hhear.imp_right And.right)
      exact congrArg Multiset.ofList harrived

section Miner
variable {node node' : Node} {events : List QueuedEvent} {phase phase' : Phase} {b : Block}
  {outbox channel : List NodeMessage}

/-- Taking from the pool's queue is nothing the event loop would notice. -/
theorem view_miner (hsame : SameStores node' node) (hawaiting : awaiting phase' = awaiting phase) :
    view peer (Endpoint.act peer ⟨⟨node, events, phase⟩, outbox, channel⟩ (⟨node', events, phase'⟩, [])) =
      view peer ⟨⟨node, events, phase⟩, outbox, channel⟩ := by
  have hunder : (Endpoint.act peer ⟨⟨node, events, phase⟩, outbox, channel⟩
      (⟨node', events, phase'⟩, [])).underWay peer =
      Endpoint.underWay peer ⟨⟨node, events, phase⟩, outbox, channel⟩ := by
    simp [Endpoint.underWay, Endpoint.act, hsame.due peer events]
  exact view_eq (hsame.foldl events).stores_eq hawaiting rfl (by rw [hunder])

/-- A broadcast offers the block. -/
theorem broadcast_moves (hmay : may b) :
    Moves rules may (view peer ⟨⟨node, events, .mined b⟩, outbox, channel⟩)
      (view peer (Endpoint.act peer ⟨⟨node, events, .mined b⟩, outbox, channel⟩
        (⟨node, events, .broadcasted b⟩, [.broadcast .full (.addBlock b)]))) := by
  have hview : view peer (Endpoint.act peer ⟨⟨node, events, .mined b⟩, outbox, channel⟩
      (⟨node, events, .broadcasted b⟩, [.broadcast .full (.addBlock b)])) =
      { view peer ⟨⟨node, events, .mined b⟩, outbox, channel⟩ with
        offered := some b
        leaving := .offer b ::ₘ (view peer ⟨⟨node, events, .mined b⟩, outbox, channel⟩).leaving } := by
    have hunder : (Endpoint.act peer ⟨⟨node, events, .mined b⟩, outbox, channel⟩
        (⟨node, events, .broadcasted b⟩, [.broadcast .full (.addBlock b)])).underWay peer =
        outbox ++ .addBlock b :: (channel ++ due peer node events) := by
      simp [Endpoint.act, Endpoint.underWay, toFullNodes, toPeer, List.filterMap_cons]
    refine Party.ext rfl rfl rfl ?_
    unfold view
    rw [hunder, show Endpoint.underWay peer ⟨⟨node, events, .mined b⟩, outbox, channel⟩ =
      outbox ++ (channel ++ due peer node events) from List.append_assoc _ _ _]
    exact Multiset.coe_eq_coe.mpr (List.perm_middle.filterMap toMessage)
  rw [hview]
  exact .offer b hmay

/-- What the miner decided upon is stored or dropped by the stores it will meet. -/
theorem enqueue_moves :
    Moves rules may (view peer ⟨⟨node, events, .decided b⟩, outbox, channel⟩)
      (view peer (Endpoint.act peer ⟨⟨node, events, .decided b⟩, outbox, channel⟩
        (⟨node, events ++ [.blockMined b], .enqueued b⟩, []))) := by
  have hleaving : (view peer (Endpoint.act peer ⟨⟨node, events, .decided b⟩, outbox, channel⟩
      (⟨node, events ++ [.blockMined b], .enqueued b⟩, []))).leaving =
      (view peer ⟨⟨node, events, .decided b⟩, outbox, channel⟩).leaving := by
    refine congrArg Multiset.ofList ?_
    simp [Endpoint.act, Endpoint.underWay, due_append, due, outgoing_blockMined]
  have hahead : (Endpoint.act peer ⟨⟨node, events, .decided b⟩, outbox, channel⟩
      (⟨node, events ++ [.blockMined b], .enqueued b⟩, [])).ahead =
      if Accepts (events.foldl taken node) b then addValidated (events.foldl taken node) b.verified
      else events.foldl taken node := by
    unfold Endpoint.ahead
    exact (List.foldl_append).trans (onBlockMined_fst _ b)
  have harrived : (events ++ [QueuedEvent.blockMined b]).filterMap arriving = events.filterMap arriving := by
    rw [List.filterMap_append]
    exact List.append_nil _
  by_cases hacc : Accepts (events.foldl taken node) b
  · rw [if_pos hacc] at hahead
    have hview : view peer (Endpoint.act peer ⟨⟨node, events, .decided b⟩, outbox, channel⟩
        (⟨node, events ++ [.blockMined b], .enqueued b⟩, [])) =
        { view peer ⟨⟨node, events, .decided b⟩, outbox, channel⟩ with
          state := stores (addValidated (events.foldl taken node) b.verified)
          offered := none } :=
      Party.ext (congrArg stores hahead) rfl (congrArg Multiset.ofList harrived) hleaving
    rw [hview]
    exact .store b _ rfl hacc rfl
  · rw [if_neg hacc] at hahead
    have hview : view peer (Endpoint.act peer ⟨⟨node, events, .decided b⟩, outbox, channel⟩
        (⟨node, events ++ [.blockMined b], .enqueued b⟩, [])) =
        { view peer ⟨⟨node, events, .decided b⟩, outbox, channel⟩ with offered := none } :=
      Party.ext (congrArg stores hahead) rfl (congrArg Multiset.ofList harrived) hleaving
    rw [hview]
    exact .discard b rfl hacc

end Miner

theorem minerStep_moves (D : Digest) (id : String) (clock : UInt64) (fuel : ℕ)
    (hmay : ∀ b, e.full.phase = .mined b → may b) :
    Moves rules may (view peer e) (view peer (e.act peer (minerStep D id clock fuel e.full))) := by
  obtain ⟨full, outbox, channel⟩ := e
  have hspec := minerStep_spec D id clock fuel full
  change Moves rules may _ (view peer (Endpoint.act peer _ (minerStep D id clock fuel full)))
  generalize minerStep D id clock fuel full = r at hspec ⊢
  cases hspec with
  | broadcast node events b => exact broadcast_moves (hmay b rfl)
  | enqueue node events b => exact enqueue_moves
  | dequeue node events batch tx rest hq =>
    refine Moves.of_eq (view_miner ?_ rfl)
    exact ⟨rfl, rfl, rfl⟩
  | finish node events batch reason rest hq =>
    refine Moves.of_eq (view_miner ?_ rfl)
    exact ⟨rfl, rfl, rfl⟩
  | _ => exact Moves.of_eq (view_miner (.refl _) rfl)

/-! ## Messages that arrive -/

theorem ahead_receive (e : Endpoint) (sender : String) (m : NodeMessage) :
    (e.receive sender m).ahead = taken e.ahead (.received sender m) := List.foldl_append

theorem underWay_receive (e : Endpoint) (sender : String) (m : NodeMessage) :
    (e.receive sender m).underWay peer =
      e.underWay peer ++ (outgoing e.ahead (.received sender m)).filterMap (toPeer peer) := by
  show e.outbox ++ e.channel ++ due peer e.full.node (e.full.events ++ [QueuedEvent.received sender m]) = _
  rw [due_append, ← List.append_assoc]
  exact congrArg _ (List.append_nil _)

theorem arrived_receive (e : Endpoint) (sender : String) (m : NodeMessage) :
    (view peer (e.receive sender m)).arrived =
      (view peer e).arrived + ↑([QueuedEvent.received sender m].filterMap arriving) := by
  show (↑((e.full.events ++ [QueuedEvent.received sender m]).filterMap arriving) : Multiset (Message Block)) = _
  rw [List.filterMap_append]
  exact (Multiset.coe_add _ _).symm

/-- A block that arrives is judged by the stores it will meet. -/
theorem receive_addBlock (b : Block) :
    Moves rules may { view peer e with arrived := .offer b ::ₘ (view peer e).arrived }
      (view peer (e.receive peer (.addBlock b))) := by
  have harrived : (view peer (e.receive peer (.addBlock b))).arrived = (view peer e).arrived :=
    (arrived_receive e peer (.addBlock b)).trans (add_zero _)
  have hahead : (e.receive peer (.addBlock b)).ahead =
      if Accepts e.ahead b then addValidated e.ahead b.verified else e.ahead :=
    (ahead_receive e peer (.addBlock b)).trans (onAddBlock_fst e.ahead peer b)
  have hunder := @underWay_receive peer e peer (.addBlock b)
  have hgoing : outgoing e.ahead (.received peer (.addBlock b)) = (onAddBlock e.ahead peer b).2 := rfl
  rw [hgoing] at hunder
  by_cases hacc : Accepts e.ahead b
  · rw [if_pos hacc] at hahead
    have hanswer : ((onAddBlock e.ahead peer b).2.filterMap (toPeer peer)).filterMap toMessage = [] := by
      rw [onAddBlock_of_accepts hacc]
      simp [toPeer, toMessage]
    have hview : view peer (e.receive peer (.addBlock b)) =
        { view peer e with state := stores (addValidated e.ahead b.verified) } := by
      refine Party.ext (congrArg stores hahead) rfl harrived (congrArg Multiset.ofList ?_)
      rw [hunder, List.filterMap_append, hanswer, List.append_nil]
    rw [hview]
    exact .accept b _ _ rfl hacc rfl
  · rw [if_neg hacc] at hahead
    have hanswer : ((onAddBlock e.ahead peer b).2.filterMap (toPeer peer)).filterMap toMessage = [.refused] := by
      rw [onAddBlock_of_not_accepts hacc]
      simp [toPeer, toMessage]
    have hview : view peer (e.receive peer (.addBlock b)) =
        { view peer e with leaving := .refused ::ₘ (view peer e).leaving } := by
      refine Party.ext (congrArg stores hahead) rfl harrived ?_
      show (↑(((e.receive peer (.addBlock b)).underWay peer).filterMap toMessage) : Multiset (Message Block)) = _
      rw [hunder, List.filterMap_append, hanswer]
      exact Multiset.coe_eq_coe.mpr List.perm_append_comm
    rw [hview]
    exact .refuse b _ rfl hacc

/-- Any other message is at most heard. -/
theorem view_receive {sender : String} {m : NodeMessage} (hm : offersBlock m = false) :
    view peer (e.receive sender m) =
      { view peer e with arrived := (view peer e).arrived + Multiset.ofList ([m].filterMap toMessage) } := by
  have hstores : stores (taken e.ahead (.received sender m)) = stores e.ahead := by
    cases m with
    | addBlock b => cases hm
    | addTransaction tx =>
      show stores (onAddTransaction e.ahead tx true) = _
      rw [onAddTransaction_eq]
      split <;> rfl
    | _ => rfl
  have hanswer : ((outgoing e.ahead (.received sender m)).filterMap (toPeer peer)).filterMap toMessage = [] := by
    cases m with
    | addBlock b => cases hm
    | blockHeadersRequest header =>
      rw [List.filterMap_filterMap]
      exact List.filterMap_cons_none (toPeer_bind rfl)
    | blockRequest header =>
      rw [List.filterMap_filterMap]
      refine List.filterMap_cons_none (toPeer_bind ?_)
      unfold onBlockRequest
      split <;> rfl
    | _ => rfl
  refine Party.ext ?_ rfl ?_ (congrArg Multiset.ofList ?_)
  · exact (congrArg stores (ahead_receive e sender m)).trans hstores
  · rw [arrived_receive]
    cases m with
    | addBlock b => cases hm
    | _ => rfl
  · rw [underWay_receive, List.filterMap_append, hanswer, List.append_nil]

/-! ## Runs of the network -/

/-- The party a side is for the other one. -/
def sideView (ids : Side → String) (net : Network) (x : Side) : Party Stores Block :=
  view (ids x.other) (net.party x)

/-- The two nodes are in the middle of at most one block. -/
def Paced (ids : Side → String) (net : Network) : Prop :=
  ∀ x, InStep rules (sideView ids net x) (sideView ids net x.other)

theorem paced_connect (D : Digest) (ids : Side → String) : Paced ids (connect D) := by
  intro x
  cases x <;> exact inStep_of_settled ⟨rfl, rfl⟩ ⟨rfl, rfl⟩ rfl

variable {D : Digest} {ids : Side → String} {net : Network}

/-- A step of one node keeps the pace, when what it does is a step of the party. -/
theorem Paced.act {x : Side} (h : Paced ids net) {e' : Endpoint}
    (hm : Moves rules (MayOffer rules (sideView ids net x) (sideView ids net x.other))
      (sideView ids net x) (view (ids x.other) e')) : Paced ids (net.set x e') := by
  have hx : sideView ids (net.set x e') x = view (ids x.other) e' := by simp [sideView]
  have ho : sideView ids (net.set x e') x.other = sideView ids net x.other := by simp [sideView]
  have hstep : InStep rules (sideView ids (net.set x e') x) (sideView ids (net.set x e') x.other) := by
    rw [hx, ho]; exact (h x).moves hm
  refine Side.forall_of_both x hstep ?_
  rw [Side.other_other]
  exact hstep.symm

theorem listsSpent_iff {n : Node} {b : Block} :
    ¬ ListsSpent n b ↔ ∀ tx ∈ b.transactions, n.spentTransactionsStore.contains tx.hash = false := by
  simp [ListsSpent]

theorem mayOffer_of_oneAtATime {x : Side} {clock : UInt64} {fuel : ℕ} {b : Block}
    (h : OneAtATime ids net (.miner x clock fuel)) (hb : (net.party x).full.phase = .mined b) :
    MayOffer rules (sideView ids net x) (sideView ids net x.other) b := by
  have hb' : b ∈ OneAtATime.minedBlock (net.party x).full.phase := by rw [hb]; rfl
  obtain ⟨hx, ho, hunrefused, hspent⟩ := h b hb'
  unfold sideView
  rw [Side.other_other]
  refine ⟨settled_of_idle hx (offers_arrived _), settled_of_idle ho (offers_arrived _),
    not_refused_of_unrefused hunrefused, ?_⟩
  intro hchain
  have hchain : (net.party x).ahead.blockchain = (net.party x.other).ahead.blockchain := hchain
  change Accepts (net.party x).ahead b ↔ Accepts (net.party x.other).ahead b
  unfold Accepts
  rw [validateBlock_success, validateBlock_success, hchain, ← listsSpent_iff, ← listsSpent_iff, hspent]

/-- Moving a broadcast from the outbox to the channel leaves it under way. -/
theorem view_transmit {i : ℕ} {m : NodeMessage} (hi : e.outbox[i]? = some m) :
    view peer { e with outbox := e.outbox.eraseIdx i, channel := e.channel ++ [m] } = view peer e := by
  obtain ⟨hlt, rfl⟩ := List.getElem?_eq_some_iff.mp hi
  have hperm : (e.outbox.eraseIdx i ++ (e.channel ++ [e.outbox[i]])).Perm (e.outbox ++ e.channel) := by
    rw [← List.append_assoc]
    refine List.perm_append_comm.trans ?_
    exact ((List.getElem_cons_eraseIdx_perm hlt).append_right e.channel)
  exact view_eq rfl rfl rfl ((hperm.append_right _).filterMap toMessage)

/-- The oldest message of a channel arrives at the other node. -/
theorem Paced.deliver {x : Side} {m : NodeMessage} {rest : List NodeMessage} (h : Paced ids net)
    (hc : (net.party x).channel = m :: rest) :
    Paced ids ((net.set x { net.party x with channel := rest }).set x.other
      ((net.party x.other).receive (ids x) m)) := by
  have hx : ∀ e e', ((net.set x e).set x.other e').party x = e := by
    intro e e'; rw [party_set_other', party_set_same]
  suffices hstep : InStep rules (view (ids x.other) { net.party x with channel := rest })
      (view (ids x) ((net.party x.other).receive (ids x) m)) by
    refine Side.forall_of_both x ?_ ?_
    · rw [sideView, sideView, hx, party_set_same, Side.other_other]; exact hstep
    · rw [Side.other_other, sideView, sideView, hx, party_set_same, Side.other_other]
      exact hstep.symm
  have hstep := h x
  rw [sideView, sideView, Side.other_other] at hstep
  have hunder : ((net.party x).underWay (ids x.other)).Perm
      (m :: Endpoint.underWay (ids x.other) { net.party x with channel := rest }) := by
    show ((net.party x).outbox ++ (net.party x).channel ++ _).Perm _
    rw [hc, List.append_assoc]
    refine List.perm_middle.trans (List.Perm.cons m ?_)
    exact .of_eq (List.append_assoc _ _ _).symm
  have hleaving : ∀ msg, toMessage m = some msg → (view (ids x.other) (net.party x)).leaving =
      msg ::ₘ (view (ids x.other) { net.party x with channel := rest }).leaving := by
    intro msg hm
    refine (Multiset.coe_eq_coe.mpr (hunder.filterMap toMessage)).trans ?_
    rw [List.filterMap_cons_some hm]
    rfl
  by_cases hoffer : offersBlock m = true
  · cases m with
    | addBlock b => exact ((hstep.deliver (hleaving _ rfl)).symm.moves (receive_addBlock b)).symm
    | _ => cases hoffer
  · rw [view_receive (Bool.eq_false_iff.mpr hoffer)]
    cases hm : toMessage m with
    | none =>
      have hsame : view (ids x.other) { net.party x with channel := rest } = view (ids x.other) (net.party x) := by
        refine view_eq rfl rfl rfl ?_
        have hperm := (hunder.filterMap toMessage).symm
        rwa [List.filterMap_cons_none hm] at hperm
      rw [hsame, List.filterMap_cons_none hm, List.filterMap_nil, Multiset.coe_nil, add_zero]
      exact hstep
    | some msg =>
      have hstep := hstep.deliver (hleaving msg hm)
      rw [List.filterMap_cons_some hm, List.filterMap_nil, Multiset.coe_singleton, Multiset.add_comm,
        Multiset.singleton_add]
      exact hstep

theorem paced_netStep {act : NetAction} (hok : OneAtATime ids net act) (h : Paced ids net) :
    Paced ids (netStep D ids net act) := by
  cases act with
  | processOne x room => exact h.act (processOne_moves room)
  | miner x clock fuel =>
    exact h.act (minerStep_moves D (ids x) clock fuel fun b hb => mayOffer_of_oneAtATime hok hb)
  | transmit x i =>
    simp only [netStep]
    split
    · exact h
    · rename_i m hi
      exact h.act (Moves.of_eq (view_transmit hi))
  | deliver x =>
    simp only [netStep]
    split
    · exact h
    · rename_i m rest hc
      exact h.deliver hc
  | wallet x sender tx =>
    refine h.act (Moves.of_eq ?_)
    exact (view_receive rfl).trans (Party.ext rfl rfl (add_zero _) rfl)

theorem settled_of_quiescent (h : Quiescent net) (x : Side) :
    Settled (sideView ids net x) (sideView ids net x.other) := by
  have hx : (net.party x).outbox = [] ∧ (net.party x).channel = [] ∧
      (net.party x).full.events = [] ∧ unsettled (net.party x).full.phase = none := by
    cases x
    · exact h net.a (by simp)
    · exact h net.b (by simp)
  obtain ⟨hout, hch, hev, hun⟩ := hx
  have ha : awaiting (net.party x).full.phase = none := by
    cases hp : (net.party x).full.phase <;> rw [hp] at hun <;> first | rfl | cases hun
  refine settled_of_idle ⟨ha, ?_⟩ (offers_arrived _)
  unfold Endpoint.underWay
  rw [hout, hch, hev]
  exact fun _ hm => absurd hm List.not_mem_nil

def sampleIds : Side → String
  | .a => "A"
  | .b => "B"

/-- Five votes reach one node, and its miner takes them and mines a block. -/
def mineVotes (x : Side) (clock : UInt64) : List NetAction :=
  votes.map (fun tx => .wallet x tx.from_ tx) ++ List.replicate 5 (.processOne x true) ++
    List.replicate 12 (.miner x 0 0) ++ [.miner x clock 1]

/-- The hash of the block that node B mines. -/
def votesHashB : String := "00004E4EB144489D2017DCDF3A06C9227A2E94141D959EC48952E16E8E4ACD16"

/-- Both nodes mine the same votes and broadcast at the same time; each stores
the other's block and tells it so, and then finds its own block outdated. -/
def crossingRun : List NetAction :=
  mineVotes .a 1670000027667 ++ mineVotes .b 1670000071281 ++
    [.miner .a 0 0, .miner .b 0 0, .miner .a 0 0, .miner .b 0 0,
      .transmit .a 0, .transmit .b 0, .deliver .a, .deliver .b,
      -- each stores the other's block, answers, and hears the answer
      .processOne .a true, .processOne .b true, .processOne .a true, .processOne .b true,
      .deliver .a, .deliver .b, .processOne .a true, .processOne .b true,
      -- each runs its own block through its validator
      .miner .a 0 0, .miner .b 0 0, .miner .a 0 0, .miner .b 0 0,
      .processOne .a true, .processOne .b true, .processOne .a true, .processOne .b true]

/-- One node mines twice. The two seconds are over before the answer to the first
block comes; it is still under way when the second block is broadcast, and is heard
in place of the answer to that one. -/
def lateRun : List NetAction :=
  mineVotes .a 1670000027667 ++ List.replicate 5 (.miner .a 0 0) ++ [.transmit .a 0] ++
    List.replicate 13 (.processOne .a true) ++ [.deliver .a, .processOne .b true, .processOne .b true] ++
    moreVotes.map (fun tx => .wallet .a tx.from_ tx) ++ List.replicate 5 (.processOne .a true) ++
    List.replicate 12 (.miner .a 0 0) ++ [.miner .a 1670000179724 1, .miner .a 0 0, .miner .a 0 0,
      .deliver .b, .processOne .a true, .miner .a 0 0, .miner .a 0 0, .transmit .a 0] ++
    List.replicate 13 (.processOne .a true) ++
    [.deliver .a, .processOne .b true, .processOne .b true, .deliver .b, .processOne .a true]

end Krapi.Agreement
