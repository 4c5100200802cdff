import Krapi.Miner

/-! # Two full nodes

Two nodes that run the miner, connected by a reliable FIFO channel in each
direction. A message for one peer passes the sender's event queue and then goes
into the channel; a broadcast is posted to a pool of threads, so it waits in an
outbox from which the messages leave in any order. What is sent to anyone else
(wallets, observers) leaves the picture, and wallets hand in transactions. -/
namespace Krapi.TwoNodes
open Krapi.BlockchainModels Krapi.ChainStore Krapi.Handlers Krapi.Miner

inductive Side where
  | a | b
  deriving Repr, DecidableEq

def Side.other : Side → Side
  | .a => .b
  | .b => .a

structure Endpoint where
  full : FullNode
  outbox : List NodeMessage
  /-- On the way to the other node. -/
  channel : List NodeMessage

structure Network where
  a : Endpoint
  b : Endpoint

def Network.party (net : Network) : Side → Endpoint
  | .a => net.a
  | .b => net.b

def Network.set (net : Network) (x : Side) (e : Endpoint) : Network :=
  match x with
  | .a => { net with a := e }
  | .b => { net with b := e }

/-- Both nodes at their first start, connected. -/
def connect (D : Digest) : Network :=
  let fresh : Endpoint := { full := boot D, outbox := [], channel := [] }
  { a := fresh, b := fresh }

/-- The message in a `SendPeerMessage` that is addressed to `peer`. -/
def toPeer (peer : String) : Effect → Option NodeMessage
  | .send receiver message => if receiver = peer then some message else none
  | _ => none

/-- The message of a broadcast that the other full node gets. -/
def toFullNodes : Effect → Option NodeMessage
  | .broadcast .full message => some message
  | _ => none

/-- The endpoint after its node did a step. -/
def Endpoint.act (peer : String) (e : Endpoint) (r : FullNode × List Effect) : Endpoint where
  full := r.1
  outbox := e.outbox ++ r.2.filterMap toFullNodes
  channel := e.channel ++ r.2.filterMap (toPeer peer)

def Endpoint.receive (e : Endpoint) (sender : String) (message : NodeMessage) : Endpoint :=
  { e with full := { e.full with events := e.full.events ++ [.received sender message] } }

inductive NetAction where
  | processOne (x : Side) (room : Bool)
  | miner (x : Side) (clock : UInt64) (fuel : ℕ)
  /-- A thread sends the broadcast at position `i`. -/
  | transmit (x : Side) (i : ℕ)
  /-- The oldest message from `x` arrives. -/
  | deliver (x : Side)
  /-- A wallet's transaction arrives at `x`. -/
  | wallet (x : Side) (sender : String) (tx : Transaction)
  deriving Repr, DecidableEq

/-- One step of the network; `ids` are the identities the nodes are known by. -/
def netStep (D : Digest) (ids : Side → String) (net : Network) : NetAction → Network
  | .processOne x room =>
    let e := net.party x
    net.set x (e.act (ids x.other) (processOne e.full room))
  | .miner x clock fuel =>
    let e := net.party x
    net.set x (e.act (ids x.other) (minerStep D (ids x) clock fuel e.full))
  | .transmit x i =>
    let e := net.party x
    match e.outbox[i]? with
    | none => net
    | some message =>
      net.set x { e with outbox := e.outbox.eraseIdx i, channel := e.channel ++ [message] }
  | .deliver x =>
    let e := net.party x
    match e.channel with
    | [] => net
    | message :: rest =>
      (net.set x { e with channel := rest }).set x.other
        ((net.party x.other).receive (ids x) message)
  | .wallet x sender tx => net.set x ((net.party x).receive sender (.addTransaction tx))

@[simp] theorem Side.other_other (x : Side) : x.other.other = x := by cases x <;> rfl

theorem Side.forall_of_both {p : Side → Prop} (x : Side) (h : p x) (ho : p x.other) : ∀ y, p y := by
  intro y
  cases x <;> cases y
  · exact h
  · exact ho
  · exact ho
  · exact h

@[simp] theorem party_set_same (net : Network) (x : Side) (e : Endpoint) :
    (net.set x e).party x = e := by cases x <;> rfl

@[simp] theorem party_set_other (net : Network) (x : Side) (e : Endpoint) :
    (net.set x e).party x.other = net.party x.other := by cases x <;> rfl

@[simp] theorem party_set_other' (net : Network) (x : Side) (e : Endpoint) :
    (net.set x.other e).party x = net.party x := by cases x <;> rfl

/-! ## When nothing is left to do -/

/-- The block a miner holds that is not accepted, rejected or validated yet. -/
def unsettled : Phase → Option Block
  | .mined block => some block
  | .broadcasted block => some block
  | .listening block => some block
  | .decided block => some block
  | _ => none

/-- No message in flight, no event queued, no block held without a verdict. -/
def Quiescent (net : Network) : Prop :=
  ∀ e ∈ [net.a, net.b],
    e.outbox = [] ∧ e.channel = [] ∧ e.full.events = [] ∧ unsettled e.full.phase = none

instance (net : Network) : Decidable (Quiescent net) :=
  inferInstanceAs (Decidable (∀ e ∈ [net.a, net.b], _))

/-! ## Going through the queue

An event loop takes its events in order, and nothing but the event loop writes the
stores: where a node stands once it has gone through its queue is known beforehand. -/

/-- The node once the event is dispatched; the queue of the pool is left to the miner. -/
def taken (n : Node) (ev : QueuedEvent) : Node := ((ev.event? true).map (handle n)).getD n

/-- What is sent when the event is dispatched. -/
def outgoing (n : Node) : QueuedEvent → List Effect
  | .sendPeerMessage receiver message => [.send receiver message]
  | ev => ev.effects n

/-- The node once all that is queued is dispatched. -/
def Endpoint.ahead (e : Endpoint) : Node := e.full.events.foldl taken e.full.node

/-- What the events make a node send to `peer`. -/
def due (peer : String) (n : Node) : List QueuedEvent → List NodeMessage
  | [] => []
  | ev :: rest => (outgoing n ev).filterMap (toPeer peer) ++ due peer (taken n ev) rest

/-- What is on its way to the other node, with what the queued events add. -/
def Endpoint.underWay (peer : String) (e : Endpoint) : List NodeMessage :=
  e.outbox ++ e.channel ++ due peer e.full.node e.full.events

/-! ## One block at a time -/

def offersBlock : NodeMessage → Bool
  | .addBlock _ => true
  | _ => false

def refusesBlock : NodeMessage → Bool
  | .blockRejected _ => true
  | _ => false

/-- A refusal that arrived. -/
def isRefusal : QueuedEvent → Bool
  | .received _ message => refusesBlock message
  | _ => false

/-- The block a miner has broadcast and not decided upon. -/
def awaiting : Phase → Option Block
  | .broadcasted block => some block
  | .listening block => some block
  | .decided block => some block
  | _ => none

/-- No block of the node's is on its way, and none awaits its decision. -/
def Idle (peer : String) (e : Endpoint) : Prop :=
  awaiting e.full.phase = none ∧ ∀ m ∈ e.underWay peer, offersBlock m = false

instance (peer : String) (e : Endpoint) : Decidable (Idle peer e) := inferInstanceAs (Decidable (_ ∧ _))

/-- No refusal is queued at the node, on its way to it or due from its peer `o`. -/
def Unrefused (id : String) (e o : Endpoint) : Prop :=
  (∀ ev ∈ e.full.events, isRefusal ev = false) ∧ ∀ m ∈ o.underWay id, refusesBlock m = false

instance (id : String) (e o : Endpoint) : Decidable (Unrefused id e o) := inferInstanceAs (Decidable (_ ∧ _))

/-- The block lists a transaction that the node holds for spent. -/
def ListsSpent (n : Node) (b : Block) : Prop :=
  ∃ tx ∈ b.transactions, n.spentTransactionsStore.contains tx.hash = true

instance (n : Node) (b : Block) : Decidable (ListsSpent n b) :=
  inferInstanceAs (Decidable (∃ tx ∈ b.transactions, _))

/-- A miner broadcasts its block only while no other one is under way, nothing that
refuses an earlier one is to come, and both nodes, or neither, will hold a transaction
of it for spent. -/
def OneAtATime (ids : Side → String) (net : Network) : NetAction → Prop
  | .miner x _ _ =>
    ∀ b ∈ minedBlock (net.party x).full.phase,
      Idle (ids x.other) (net.party x) ∧ Idle (ids x) (net.party x.other) ∧
        Unrefused (ids x) (net.party x) (net.party x.other) ∧
        (ListsSpent (net.party x).ahead b ↔ ListsSpent (net.party x.other).ahead b)
  | _ => True
where
  minedBlock : Phase → Option Block
    | .mined block => some block
    | _ => none

instance (ids : Side → String) (net : Network) (act : NetAction) : Decidable (OneAtATime ids net act) :=
  match act with
  | .miner x _ _ => inferInstanceAs (Decidable (∀ b ∈ OneAtATime.minedBlock (net.party x).full.phase, _))
  | .processOne _ _ => inferInstanceAs (Decidable True)
  | .transmit _ _ => inferInstanceAs (Decidable True)
  | .deliver _ => inferInstanceAs (Decidable True)
  | .wallet _ _ _ => inferInstanceAs (Decidable True)

end Krapi.TwoNodes
