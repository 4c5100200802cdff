import Krapi.InitialDownload
import Krapi.Miner
import Krapi.Wallets
import Krapi.Lib.Gossip

/-! # All the nodes together

Any number of full nodes and light nodes, each as its `main` puts it together: a
full node runs its event loop, its miner and, once, the coroutine of the initial
block download; a light node keeps a wallet and hands its votes to the full nodes.
What one sends reaches another over a data channel that may lose, delay, repeat
or reorder it, so that the retries of a sender need no account of their own. A
light node acts on a message when it takes it from its queue, which is only a
further delay. -/
namespace Krapi.Swarm
open Krapi.BlockchainModels Krapi.DBInterface Krapi.ChainStore Krapi.Pool Krapi.Handlers Krapi.Mining
open Krapi.Miner Krapi.InitialDownload Krapi.Lib.Gossip
open Krapi.Wallets (Wallet newTransaction)

structure Station where
  full : FullNode
  /-- Where `initial_block_download` stands. -/
  stage : Stage
  /-- Senders of a `SyncPoolRequest` that is queued. They lie apart from the other
  events, so one may be taken before events that came earlier. -/
  syncRequests : List String

inductive Party where
  | full (s : Station)
  | light (wallet : Wallet)
  /-- A node that neither mines nor votes. -/
  | other

/-- What goes over the data channels: a message for one peer, one for all peers of
a type, or the request of a full node for the pools of the others. -/
inductive Packet where
  | post (sender receiver : String) (message : NodeMessage)
  | cast (sender : String) (peers : PeerType) (message : NodeMessage)
  | syncPoolRequest (sender : String)
  deriving Repr, DecidableEq

/-- A node has no connection to itself. -/
def Packet.reaches (roster : String → PeerType) (packet : Packet) (id : String) : Bool :=
  match packet with
  | .post sender receiver _ => id == receiver && id != sender
  | .cast sender peers _ => decide (roster id = peers) && id != sender
  | .syncPoolRequest sender => decide (roster id = .full) && id != sender

def packet? (id : String) : Effect → Option Packet
  | .send receiver message => some (.post id receiver message)
  | .broadcast peers message => some (.cast id peers message)
  | .minedBlockValidated => none

/-! ## Full nodes -/

/-- The request whose answer the download awaits. -/
def awaitedRequest : Stage → List QueuedEvent
  | .requesting header (identity :: _) _ => [.sendPeerMessage identity (.blockHeadersRequest header)]
  | .downloading peer (header :: _) _ => [.sendPeerMessage peer (.blockRequest header)]
  | _ => []

/-- A step of the download; it queues each request as it comes to it, and asks for
the pools of the other full nodes when it is done. -/
def Station.download (id : String) (s : Station) (i : Input) : Station × List Packet :=
  let d := downloadStep { node := s.full.node, stage := s.stage, responses := [] } i
  let requests := if d.stage = s.stage then [] else awaitedRequest d.stage
  let full := { s.full with node := d.node, events := s.full.events ++ requests }
  ({ s with full := full, stage := d.stage },
    if d.stage = .finished ∧ s.stage ≠ .finished then [.syncPoolRequest id] else [])

/-- The answer that an event brings to the download. -/
def answer? : QueuedEvent → Option Input
  | .received sender (.blockHeadersResponse headers) => some (.headersResponse headers sender)
  | .received _ (.blockResponse block) => some (.blockAnswer (.blockResponse block))
  | .received _ .blockNotFoundResponse => some (.blockAnswer .blockNotFoundResponse)
  | _ => none

/-- The listener of `SyncPoolRequest`: a message for each pooled transaction. -/
def onSyncPoolRequest (pool : TransactionPool) (requester : String) : List QueuedEvent :=
  pool.data.map fun tx => .sendPeerMessage requester (.addTransaction tx)

inductive PartyAction where
  /-- `awaited`: the event has the tag that the download waits for. -/
  | processOne (room awaited : Bool)
  | miner (clock : UInt64) (fuel : ℕ)
  | resumeDownload
  | peersFound (identities : List String)
  | syncPool
  | createTransaction (clock : UInt64) (receiverId : String)
  deriving Repr, DecidableEq

def Station.act (D : Digest) (id : String) (s : Station) : PartyAction → Station × List Packet
  | .processOne room awaited =>
    let r := processOne s.full room
    let s' := { s with full := r.1 }
    let packets := r.2.filterMap (packet? id)
    match (s.full.events.head?.bind answer?).filter fun _ => awaited with
    | some i => ((s'.download id i).1, packets ++ (s'.download id i).2)
    | none => (s', packets)
  | .miner clock fuel =>
    let r := minerStep D id clock fuel s.full
    ({ s with full := r.1 }, r.2.filterMap (packet? id))
  | .resumeDownload => s.download id .resume
  | .peersFound identities => s.download id (.peersFound identities)
  | .syncPool =>
    match s.syncRequests with
    | [] => (s, [])
    | requester :: rest =>
      let answers := onSyncPoolRequest s.full.node.transactionPool requester
      ({ s with full := { s.full with events := s.full.events ++ answers }, syncRequests := rest }, [])
  | .createTransaction _ _ => (s, [])

/-- What a data channel hands to the event queue. -/
def Station.hear (s : Station) : Packet → Station
  | .post sender _ message | .cast sender _ message =>
    { s with full := { s.full with events := s.full.events ++ [.received sender message] } }
  | .syncPoolRequest sender => { s with syncRequests := s.syncRequests ++ [sender] }

/-! ## Light nodes -/

/-- One round of the loop in a light node's `initialize`: the vote enters the
wallet and is broadcast to the full nodes. -/
def walletAct (D : Digest) (id : String) (w : Wallet) : PartyAction → Wallet × List Packet
  | .createTransaction clock receiverId =>
    let (tx, w) := Wallets.createTransaction D w clock id receiverId
    (w, [.cast id .full (.addTransaction tx)])
  | _ => (w, [])

def walletHear (w : Wallet) : NodeMessage → Wallet
  | .addTransaction tx => Wallets.onAddTransaction w tx
  | .setTransactionStatus status hash => Wallets.onTransactionsStatusChanged w ⟨status, hash⟩
  -- a light node has no listener for the rest
  | _ => w

/-! ## The swarm -/

def Party.act (D : Digest) (id : String) : Party → PartyAction → Party × List Packet
  | .full s, a => ((.full (s.act D id a).1), (s.act D id a).2)
  | .light w, a => ((.light (walletAct D id w a).1), (walletAct D id w a).2)
  | .other, _ => (.other, [])

def Party.hear (p : Party) (packet : Packet) : Party × List Packet :=
  match p, packet with
  | .full s, packet => (.full (s.hear packet), [])
  | .light w, .post _ _ message | .light w, .cast _ _ message => (.light (walletHear w message), [])
  | .light w, .syncPoolRequest _ => (.light w, [])
  | .other, _ => (.other, [])

/-- `roster` says of what type the node known as `id` is. -/
def swarm (D : Digest) (roster : String → PeerType) : Parties String Party PartyAction Packet where
  act := Party.act D
  hear := fun _ => Party.hear
  reaches := Packet.reaches roster

/-- A full node at its first start. -/
def Station.boot (D : Digest) : Station where
  full := Miner.boot D
  stage := .initial
  syncRequests := []

/-- Every node at its start. A full node makes itself a new identity and starts
with empty stores; a light node may find a wallet under its name. -/
def assemble (D : Digest) (roster : String → PeerType) (wallets : String → Wallet) :
    World String Party Packet where
  party id :=
    match roster id with
    | .full => .full (.boot D)
    | .light => .light (wallets id)
    | _ => .other
  sent := []

abbrev SwarmMove := Move String PartyAction

/-! ## What a node can do -/

/-- What leaves the node when an event is dispatched. -/
theorem dispatch_sent (s : FullNode) (room : Bool) (e : QueuedEvent) :
    (dispatch s room e).2 =
      match e with
      | .sendPeerMessage receiver message => [.send receiver message]
      | e => (e.effects s.node).filter Effect.isBroadcast := by
  obtain ⟨node, events, phase⟩ := s
  cases e with
  | received sender message =>
    cases message with
    | blockAccepted header => cases phase <;> rfl
    | blockRejected reason => cases phase <;> rfl
    | _ => rfl
  | sendPeerMessage receiver message => rfl
  | blockMined block => rfl
  | minedBlockValidated => cases phase <;> rfl

/-- The block that the action lets into the node. -/
def Station.admits (s : Station) : PartyAction → Option Block
  | .processOne room _ =>
    ((s.full.events.head?.bind (QueuedEvent.event? room)).bind Event.block?).filter fun b =>
      decide (Accepts s.full.node b)
  | _ => none

theorem admits_eq_some {s : Station} {a : PartyAction} {b : Block} (h : s.admits a = some b) :
    ∃ room awaited e rest, a = .processOne room awaited ∧ s.full.events = e :: rest ∧
      (e.event? room).bind Event.block? = some b ∧ Accepts s.full.node b := by
  cases a with
  | processOne room awaited =>
    obtain ⟨hb, hacc⟩ := Option.filter_eq_some_iff.mp h
    cases he : s.full.events with
    | nil =>
      rw [he] at hb
      cases hb
    | cons e rest =>
      rw [he] at hb
      exact ⟨room, awaited, e, rest, rfl, rfl, hb, of_decide_eq_true hacc⟩
  | _ => cases h

/-! ## Values for closed runs -/

def electionRoster (id : String) : PeerType :=
  if id = "node" then .full else if id = "voter" ∨ id = "candidate" then .light else .unknown

/-- A digest under which a vote has its own preimage for a hash, the genesis block can
be mined on, and every block shows work. -/
def electionDigest : Digest where
  sha256Hex s := if startsWith s "send_tx" then s else if s = "0016685426250" then "1" else "0000"
  merkleRoot _ := ""

/-- Five votes are cast and pooled, the node mines them and takes its block in, and the
voter hears of the first. -/
def election : List SwarmMove :=
  [1, 2, 3, 4, 5].map (fun clock => .act "voter" (.createTransaction clock "candidate")) ++
    (List.range 5).map (fun k => .deliver "node" k) ++
    List.replicate 5 (.act "node" (.processOne true false)) ++
    List.replicate 18 (.act "node" (.miner 1670000000000 1)) ++
    List.replicate 3 (.act "node" (.processOne true false)) ++
    [.deliver "voter" 7]

end Krapi.Swarm
