import Krapi.Handlers
import Krapi.Mining

/-! # A full node with its miner

`Miner::task` runs on a thread of its own next to the event loop; the two share
the stores and the event queue. A step is one event taken and dispatched by
`process_one`, or what the miner does up to its next access to shared state.
Neither waits for the other, so a run is any interleaving of the two with
arriving messages.

The miner listens to answers only while it waits for one: `any_event_of_type`
hears every `BlockAccepted` and `BlockRejected` of that time, whichever block
it answers, and `event_of_type(MinedBlockValidated)` only hears a notification
dispatched after it was registered. -/
namespace Krapi.Miner
open Krapi.BlockchainModels Krapi.DBInterface Krapi.ChainStore Krapi.Validator Krapi.Pool
open Krapi.Handlers Krapi.Mining

inductive QueuedEvent where
  | received (sender : String) (message : NodeMessage)
  | sendPeerMessage (receiver : String) (message : NodeMessage)
  | blockMined (block : Block)
  | minedBlockValidated
  deriving Repr, DecidableEq

/-- Where `Miner::task` stands, with what it holds there. -/
inductive Phase where
  /-- In `wait`: the batch so far, and the item dequeued but not yet looked up. -/
  | waiting (batch : List Transaction) (item : Option Transaction)
  | acquired (batch : List Transaction)
  | mining (latestHash : String) (batch : List Transaction)
  | mined (block : Block)
  | broadcasted (block : Block)
  /-- Both listeners are registered and the two seconds run. -/
  | listening (block : Block)
  /-- Accepted by a peer, or timed out. -/
  | decided (block : Block)
  /-- `BlockMined` is enqueued, its confirmation not listened to yet. -/
  | enqueued (block : Block)
  | validating (block : Block)
  /-- `wait` met a `PoolEndReason` and never completes. -/
  | ended
  deriving Repr, DecidableEq

/-- The batch `wait(executor, 5)` collects. -/
def batchSize : ℕ := 5

/-- The start of a round. -/
def Phase.round : Phase := .waiting [] none

structure FullNode where
  node : Node
  events : List QueuedEvent
  phase : Phase

/-- A full node at its first start. -/
def boot (D : Digest) : FullNode where
  node := start D
  events := []
  phase := .round

/-! ## The event loop -/

/-- Where an effect of a handler goes: a message for one peer and a notification
are queued, a broadcast leaves through the connections at once. -/
def Effect.queued : Effect → Option QueuedEvent
  | .send receiver message => some (.sendPeerMessage receiver message)
  | .broadcast _ _ => none
  | .minedBlockValidated => some .minedBlockValidated

def Effect.isBroadcast : Effect → Bool
  | .broadcast _ _ => true
  | _ => false

/-- The stores and effects of a handler, put back into the node. -/
def post (s : FullNode) (r : Node × List Effect) : FullNode × List Effect :=
  ({ s with node := r.1, events := s.events ++ r.2.filterMap Effect.queued },
    r.2.filter Effect.isBroadcast)

/-- The listeners of a peer message. -/
def dispatchMessage (s : FullNode) (sender : String) (room : Bool) :
    NodeMessage → FullNode × List Effect
  | .addTransaction tx => ({ s with node := onAddTransaction s.node tx room }, [])
  | .addBlock block => post s (onAddBlock s.node sender block)
  | .blockHeadersRequest header =>
    post s (s.node, [.send sender (onBlockHeadersRequest s.node.blockchain header)])
  | .blockRequest header => post s (s.node, [.send sender (onBlockRequest s.node.blockchain header)])
  | .blockAccepted _ =>
    match s.phase with
    | .listening block => ({ s with phase := .decided block }, [])
    | _ => (s, [])
  | .blockRejected _ =>
    match s.phase with
    | .listening _ => ({ s with phase := .round }, [])
    | _ => (s, [])
  -- a full node has no listener for the rest
  | .setTransactionStatus _ _ | .blockHeadersResponse _ | .blockResponse _ | .blockNotFoundResponse =>
    (s, [])

def dispatch (s : FullNode) (room : Bool) : QueuedEvent → FullNode × List Effect
  | .received sender message => dispatchMessage s sender room message
  | .sendPeerMessage receiver message => (s, [.send receiver message])
  | .blockMined block => post s (onBlockMined s.node block)
  | .minedBlockValidated =>
    match s.phase with
    | .validating _ => ({ s with phase := .round }, [])
    | _ => (s, [])

/-- Takes the oldest event. `room` is what `try_enqueue` answers, should the
event put a transaction into the pool. -/
def processOne (s : FullNode) (room : Bool) : FullNode × List Effect :=
  match s.events with
  | [] => (s, [])
  | e :: rest => dispatch { s with events := rest } room e

/-! ## The miner's thread -/

/-- The next step of `Miner::task`. It stays where it is while it is blocked: on
an empty queue, in a search not over after `fuel` rounds, or on a notification. -/
def minerStep (D : Digest) (id : String) (clock : UInt64) (fuel : ℕ) (s : FullNode) :
    FullNode × List Effect :=
  match s.phase with
  | .waiting batch none =>
    if batch.length = batchSize then ({ s with phase := .acquired batch }, [])
    else
      match s.node.transactionPool.queue with
      | [] => (s, [])
      | .transaction tx :: rest =>
        ({ s with
            node := { s.node with transactionPool := { s.node.transactionPool with queue := rest } }
            phase := .waiting batch (some tx) }, [])
      | .endReason _ :: rest =>
        ({ s with
            node := { s.node with transactionPool := { s.node.transactionPool with queue := rest } }
            phase := .ended }, [])
  | .waiting batch (some tx) =>
    if (s.node.transactionPool.get tx.hash).isSome then
      ({ s with phase := .waiting (batch ++ [tx]) none }, [])
    else ({ s with phase := .waiting batch none }, [])
  | .acquired batch => ({ s with phase := .mining s.node.blockchain.last.hash batch }, [])
  | .mining latestHash batch =>
    match miningFunction D latestHash id batch clock fuel with
    | some block => ({ s with phase := .mined block }, [])
    | none => (s, [])
  | .mined block => ({ s with phase := .broadcasted block }, [.broadcast .full (.addBlock block)])
  | .broadcasted block => ({ s with phase := .listening block }, [])
  -- the two seconds are over before an answer came
  | .listening block => ({ s with phase := .decided block }, [])
  | .decided block =>
    ({ s with events := s.events ++ [.blockMined block], phase := .enqueued block }, [])
  | .enqueued block => ({ s with phase := .validating block }, [])
  | .validating _ => (s, [])
  | .ended => (s, [])

/-! ## Steps of the whole node -/

inductive Action where
  /-- A data channel hands a message to the event queue. -/
  | receive (sender : String) (message : NodeMessage)
  | processOne (room : Bool)
  | miner (clock : UInt64) (fuel : ℕ)
  deriving Repr, DecidableEq

/-- One step of the node known to its peers as `id`, with what it sends out. -/
def step (D : Digest) (id : String) (s : FullNode) : Action → FullNode × List Effect
  | .receive sender message => ({ s with events := s.events ++ [.received sender message] }, [])
  | .processOne room => processOne s room
  | .miner clock fuel => minerStep D id clock fuel s

/-- A step with its output left aside. -/
def next (D : Digest) (id : String) (s : FullNode) (a : Action) : FullNode := (step D id s a).1

/-! ## What a step can do -/

/-- The store event behind a queued event. -/
def QueuedEvent.event? (room : Bool) : QueuedEvent → Option Event
  | .received _ (.addTransaction tx) => some (.addTransaction tx room)
  | .received sender (.addBlock block) => some (.addBlock sender block)
  | .blockMined block => some (.blockMined block)
  | _ => none

/-- What the listeners of a queued event hand on. -/
def QueuedEvent.effects (n : Node) : QueuedEvent → List Effect
  | .received sender (.addBlock block) => (onAddBlock n sender block).2
  | .received sender (.blockHeadersRequest header) =>
    [.send sender (onBlockHeadersRequest n.blockchain header)]
  | .received sender (.blockRequest header) => [.send sender (onBlockRequest n.blockchain header)]
  | .blockMined block => (onBlockMined n block).2
  | _ => []

/-- Where the miner stands once it heard the event. -/
def Phase.hear : Phase → QueuedEvent → Phase
  | .listening block, .received _ (.blockAccepted _) => .decided block
  | .listening _, .received _ (.blockRejected _) => .round
  | .validating _, .minedBlockValidated => .round
  | phase, _ => phase

/-- On the stores, a dispatched event is one of the handlers' events or nothing. -/
theorem dispatch_node (s : FullNode) (room : Bool) (e : QueuedEvent) :
    (dispatch s room e).1.node = ((e.event? room).map (handle s.node)).getD s.node := by
  cases e with
  | received sender message =>
    cases message <;> simp only [dispatch, dispatchMessage] <;> try rfl
    all_goals split <;> rfl
  | sendPeerMessage receiver message => rfl
  | blockMined block => rfl
  | minedBlockValidated =>
    simp only [dispatch]
    split <;> rfl

theorem dispatch_phase (s : FullNode) (room : Bool) (e : QueuedEvent) :
    (dispatch s room e).1.phase = s.phase.hear e := by
  obtain ⟨node, events, phase⟩ := s
  cases e with
  | received sender message =>
    cases message <;> cases phase <;> rfl
  | sendPeerMessage receiver message => cases phase <;> rfl
  | blockMined block => cases phase <;> rfl
  | minedBlockValidated => cases phase <;> rfl

/-- Only what handlers hand on gets into the queue. -/
theorem dispatch_events (s : FullNode) (room : Bool) (e : QueuedEvent) :
    (dispatch s room e).1.events = s.events ++ (e.effects s.node).filterMap Effect.queued := by
  obtain ⟨node, events, phase⟩ := s
  cases e with
  | received sender message =>
    cases message with
    | addBlock block => rfl
    | blockHeadersRequest header => rfl
    | blockRequest header => rfl
    | blockAccepted header => cases phase <;> exact (List.append_nil _).symm
    | blockRejected reason => cases phase <;> exact (List.append_nil _).symm
    | _ => exact (List.append_nil _).symm
  | sendPeerMessage receiver message => exact (List.append_nil _).symm
  | blockMined block => rfl
  | minedBlockValidated => cases phase <;> exact (List.append_nil _).symm

/-- The phases in which the miner may have to stay. -/
def Phase.blocks : Phase → Bool
  | .waiting _ none => true
  | .mining _ _ => true
  | .validating _ => true
  | .ended => true
  | _ => false

/-- **Everything the miner's thread can do in a step.** -/
inductive MinerMoves (D : Digest) (id : String) : FullNode → FullNode × List Effect → Prop where
  | blocked (s : FullNode) : s.phase.blocks = true → MinerMoves D id s (s, [])
  | complete (node : Node) (events : List QueuedEvent) (batch : List Transaction) :
      MinerMoves D id ⟨node, events, .waiting batch none⟩ (⟨node, events, .acquired batch⟩, [])
  | dequeue (node : Node) (events : List QueuedEvent) (batch : List Transaction) (tx : Transaction)
      (rest : List PoolItem) : node.transactionPool.queue = .transaction tx :: rest →
      MinerMoves D id ⟨node, events, .waiting batch none⟩
        (⟨{ node with transactionPool := { node.transactionPool with queue := rest } }, events,
          .waiting batch (some tx)⟩, [])
  | finish (node : Node) (events : List QueuedEvent) (batch : List Transaction) (reason : PoolEndReason)
      (rest : List PoolItem) : node.transactionPool.queue = .endReason reason :: rest →
      MinerMoves D id ⟨node, events, .waiting batch none⟩
        (⟨{ node with transactionPool := { node.transactionPool with queue := rest } }, events, .ended⟩, [])
  | take (node : Node) (events : List QueuedEvent) (batch : List Transaction) (tx : Transaction) :
      MinerMoves D id ⟨node, events, .waiting batch (some tx)⟩
        (⟨node, events, .waiting (batch ++ [tx]) none⟩, [])
  | skip (node : Node) (events : List QueuedEvent) (batch : List Transaction) (tx : Transaction) :
      node.transactionPool.contains tx.hash = false →
      MinerMoves D id ⟨node, events, .waiting batch (some tx)⟩ (⟨node, events, .waiting batch none⟩, [])
  | choose (node : Node) (events : List QueuedEvent) (batch : List Transaction) :
      MinerMoves D id ⟨node, events, .acquired batch⟩
        (⟨node, events, .mining node.blockchain.last.hash batch⟩, [])
  | mine (node : Node) (events : List QueuedEvent) (latestHash : String) (batch : List Transaction)
      (clock : UInt64) (fuel : ℕ) (block : Block) :
      miningFunction D latestHash id batch clock fuel = some block →
      MinerMoves D id ⟨node, events, .mining latestHash batch⟩ (⟨node, events, .mined block⟩, [])
  | broadcast (node : Node) (events : List QueuedEvent) (block : Block) :
      MinerMoves D id ⟨node, events, .mined block⟩
        (⟨node, events, .broadcasted block⟩, [.broadcast .full (.addBlock block)])
  | listen (node : Node) (events : List QueuedEvent) (block : Block) :
      MinerMoves D id ⟨node, events, .broadcasted block⟩ (⟨node, events, .listening block⟩, [])
  | timeOut (node : Node) (events : List QueuedEvent) (block : Block) :
      MinerMoves D id ⟨node, events, .listening block⟩ (⟨node, events, .decided block⟩, [])
  | enqueue (node : Node) (events : List QueuedEvent) (block : Block) :
      MinerMoves D id ⟨node, events, .decided block⟩
        (⟨node, events ++ [.blockMined block], .enqueued block⟩, [])
  | await (node : Node) (events : List QueuedEvent) (block : Block) :
      MinerMoves D id ⟨node, events, .enqueued block⟩ (⟨node, events, .validating block⟩, [])

theorem minerStep_spec (D : Digest) (id : String) (clock : UInt64) (fuel : ℕ) (s : FullNode) :
    MinerMoves D id s (minerStep D id clock fuel s) := by
  obtain ⟨node, events, phase⟩ := s
  cases phase with
  | waiting batch item =>
    cases item with
    | none =>
      simp only [minerStep]
      split
      · exact .complete node events batch
      · split
        · exact .blocked _ rfl
        · rename_i tx rest hq
          exact .dequeue node events batch tx rest hq
        · rename_i reason rest hq
          exact .finish node events batch reason rest hq
    | some tx =>
      simp only [minerStep]
      split
      · exact .take node events batch tx
      · rename_i hin
        exact .skip node events batch tx (by simpa [DBInternface.contains] using hin)
  | acquired batch => exact .choose node events batch
  | mining latestHash batch =>
    simp only [minerStep]
    split
    · rename_i block hm
      exact .mine node events latestHash batch clock fuel block hm
    · exact .blocked _ rfl
  | mined block => exact .broadcast node events block
  | broadcasted block => exact .listen node events block
  | listening block => exact .timeOut node events block
  | decided block => exact .enqueue node events block
  | enqueued block => exact .await node events block
  | validating block => exact .blocked _ rfl
  | ended => exact .blocked _ rfl

/-- The miner's thread writes no store; it only takes from the pool's queue. -/
theorem minerStep_stores (D : Digest) (id : String) (clock : UInt64) (fuel : ℕ) (s : FullNode) :
    (minerStep D id clock fuel s).1.node.blockchain = s.node.blockchain ∧
    (minerStep D id clock fuel s).1.node.spentTransactionsStore = s.node.spentTransactionsStore ∧
    (minerStep D id clock fuel s).1.node.transactionPool.toDBInternface =
      s.node.transactionPool.toDBInternface := by
  have hmoves := minerStep_spec D id clock fuel s
  generalize minerStep D id clock fuel s = r at hmoves ⊢
  cases hmoves <;> exact ⟨rfl, rfl, rfl⟩

/-! ## Values for closed runs -/

/-- Five votes arrive and are pooled; the miner takes them, mines and broadcasts
a block and waits for an answer. -/
def minedRound : List Action :=
  votes.map (fun tx => .receive "wallet" (.addTransaction tx)) ++
    List.replicate 5 (.processOne true) ++ List.replicate 12 (.miner 0 0) ++
    [.miner 1670000027667 1, .miner 0 0, .miner 0 0]

end Krapi.Miner
