import Krapi.Swarm
import Krapi.ProofOfWork
import Krapi.Preimages

/-! # Where votes and blocks come from

A validator looks at neither the digest of a transaction nor at that of a block,
so a node by itself could hold anything. Among nodes that run this code it does
not: whatever transaction is pooled, queued, mined, stored or under way was made
by the light node that it names as its sender, and whatever block, by the miner
of a full node. `Vouched` collects what is claimed of the transactions, blocks
and states that a node may come across; a node that was handed nothing else
hands on nothing else. -/
namespace Krapi.Provenance
open Krapi.BlockchainModels Krapi.DBInterface Krapi.ChainStore Krapi.Pool Krapi.Handlers Krapi.Mining
open Krapi.Miner Krapi.InitialDownload Krapi.ProofOfWork Krapi.Swarm Krapi.Lib.Run Krapi.Lib.Gossip
open Krapi.Wallets (Wallet newTransaction)
open Krapi.Preimages (walletPreimage_inj)

/-- What is claimed of a transaction on its own, of the status told of a hash, and of a block. -/
structure Vouched where
  loose : Transaction → Prop
  told : TransactionStatus → String → Prop
  block : Block → Prop

variable {D : Digest} {V : Vouched} {id : String} {n : Node} {b : Block}

/-! ## Nothing but what is vouched for -/

def MessageSound (V : Vouched) : NodeMessage → Prop
  | .addTransaction tx => V.loose tx
  | .setTransactionStatus status hash => V.told status hash
  | .blockResponse block | .addBlock block => V.block block
  | _ => True

def PacketSound (V : Vouched) : Packet → Prop
  | .post _ _ message | .cast _ _ message => MessageSound V message
  | .syncPoolRequest _ => True

def EffectSound (V : Vouched) : Effect → Prop
  | .send _ message | .broadcast _ message => MessageSound V message
  | .minedBlockValidated => True

def EventSound (V : Vouched) : QueuedEvent → Prop
  | .received _ message | .sendPeerMessage _ message => MessageSound V message
  | .blockMined block => V.block block
  | .minedBlockValidated => True

def PhaseSound (V : Vouched) : Phase → Prop
  | .waiting batch item => (∀ tx ∈ batch, V.loose tx) ∧ ∀ tx ∈ item, V.loose tx
  | .acquired batch | .mining _ batch => ∀ tx ∈ batch, V.loose tx
  | .mined block | .broadcasted block | .listening block | .decided block | .enqueued block
  | .validating block => V.block block
  | .ended => True

def StageSound (V : Vouched) : Stage → Prop
  | .downloading _ _ blocks | .inserting blocks => ∀ block ∈ blocks, V.block block
  | _ => True

structure NodeSound (V : Vouched) (n : Node) : Prop where
  pool : ∀ tx ∈ n.transactionPool.data, V.loose tx
  queue : ∀ tx, PoolItem.transaction tx ∈ n.transactionPool.queue → V.loose tx
  spent : ∀ tx ∈ n.spentTransactionsStore.data, ∃ block, V.block block ∧ tx ∈ block.transactions
  chain : ∀ block ∈ n.blockchain.data, V.block block

structure StationSound (V : Vouched) (s : Station) : Prop where
  node : NodeSound V s.full.node
  events : ∀ e ∈ s.full.events, EventSound V e
  phase : PhaseSound V s.full.phase
  stage : StageSound V s.stage

/-- What the one vouches for, the other does too. -/
structure Vouched.Implies (V V' : Vouched) : Prop where
  loose : ∀ tx, V.loose tx → V'.loose tx
  told : ∀ status hash, V.told status hash → V'.told status hash
  block : ∀ b, V.block b → V'.block b

section Mono
variable {V' : Vouched}

theorem MessageSound.mono (h : V.Implies V') {message : NodeMessage} (hm : MessageSound V message) :
    MessageSound V' message := by
  cases message with
  | addTransaction tx => exact h.loose tx hm
  | setTransactionStatus status hash => exact h.told status hash hm
  | blockResponse block => exact h.block block hm
  | addBlock block => exact h.block block hm
  | _ => trivial

theorem PacketSound.mono (h : V.Implies V') {packet : Packet} (hp : PacketSound V packet) :
    PacketSound V' packet := by
  cases packet with
  | post sender receiver message => exact MessageSound.mono h hp
  | cast sender peers message => exact MessageSound.mono h hp
  | syncPoolRequest sender => trivial

theorem EventSound.mono (h : V.Implies V') {e : QueuedEvent} (he : EventSound V e) : EventSound V' e := by
  cases e with
  | received sender message => exact MessageSound.mono h he
  | sendPeerMessage receiver message => exact MessageSound.mono h he
  | blockMined block => exact h.block block he
  | minedBlockValidated => trivial

theorem PhaseSound.mono (h : V.Implies V') {phase : Phase} (hp : PhaseSound V phase) : PhaseSound V' phase := by
  cases phase with
  | waiting batch item => exact ⟨fun tx htx => h.loose tx (hp.1 tx htx), fun tx htx => h.loose tx (hp.2 tx htx)⟩
  | acquired batch => exact fun tx htx => h.loose tx (hp tx htx)
  | mining latestHash batch => exact fun tx htx => h.loose tx (hp tx htx)
  | ended => trivial
  | _ => exact h.block _ hp

theorem StageSound.mono (h : V.Implies V') {stage : Stage} (hs : StageSound V stage) : StageSound V' stage := by
  cases stage with
  | downloading peer headers blocks => exact fun block hb => h.block block (hs block hb)
  | inserting blocks => exact fun block hb => h.block block (hs block hb)
  | _ => trivial

theorem NodeSound.mono (h : V.Implies V') (hn : NodeSound V n) : NodeSound V' n where
  pool := fun tx htx => h.loose tx (hn.pool tx htx)
  queue := fun tx htx => h.loose tx (hn.queue tx htx)
  spent := by
    intro tx htx
    obtain ⟨block, hblock, hlists⟩ := hn.spent tx htx
    exact ⟨block, h.block block hblock, hlists⟩
  chain := fun block hb => h.block block (hn.chain block hb)

theorem StationSound.mono (h : V.Implies V') {s : Station} (hs : StationSound V s) : StationSound V' s where
  node := hs.node.mono h
  events := fun e he => EventSound.mono h (hs.events e he)
  phase := PhaseSound.mono h hs.phase
  stage := StageSound.mono h hs.stage

end Mono

/-! ## The handlers -/

theorem mem_spend_spent (txs : List Transaction) (s : TransactionPool × Validator.SpentTransactionsStore)
    {tx : Transaction} (h : tx ∈ (txs.foldl spendTransaction s).2.data) : tx ∈ s.2.data ∨ tx ∈ txs := by
  induction txs generalizing s with
  | nil => exact .inl h
  | cons t rest ih =>
    rcases ih _ h with hs | hr
    · rw [spendTransaction_eq] at hs
      dsimp only at hs
      split at hs
      · rcases DBInternface.mem_put.mp hs with hs | ⟨rfl, _⟩
        · exact .inl hs
        · exact .inr (by simp)
      · exact .inl hs
    · exact .inr (List.mem_cons_of_mem _ hr)

theorem NodeSound.addValidated (h : NodeSound V n) (hb : V.block b.verified) :
    NodeSound V (addValidated n b.verified) := by
  refine ⟨?_, ?_, ?_, ?_⟩
  · intro tx htx
    have hget := DBInternface.mem_data.mp htx
    have hpool := addValidated_pool_get n b.verified (tag tx)
    rw [hget] at hpool
    split at hpool
    · cases hpool
    · exact h.pool tx (DBInternface.mem_data_of_get hpool.symm)
  · intro tx htx
    rw [addValidated_queue] at htx
    exact h.queue tx htx
  · intro tx htx
    rcases mem_spend_spent _ _ htx with hold | hnew
    · exact h.spent tx hold
    · exact ⟨b.verified, hb, hnew⟩
  · intro block hblock
    rw [addValidated_blockchain] at hblock
    rcases DBInternface.mem_put.mp hblock with hold | ⟨rfl, _⟩
    · exact h.chain block hold
    · exact hb

theorem NodeSound.add (h : NodeSound V n) {tx : Transaction} (room : Bool) (htx : V.loose tx) :
    NodeSound V { n with transactionPool := (n.transactionPool.add tx room).2 } := by
  refine ⟨?_, ?_, h.spent, h.chain⟩
  · intro t ht
    rw [TransactionPool.add_db] at ht
    rcases DBInternface.mem_put.mp ht with hold | ⟨rfl, _⟩
    · exact h.pool t hold
    · exact htx
  · intro t ht
    simp only [TransactionPool.add_queue] at ht
    split at ht
    · rcases List.mem_append.mp ht with hold | hnew
      · exact h.queue t hold
      · cases List.mem_singleton.mp hnew
        exact htx
    · exact h.queue t ht

/-- What is owed for a block that is let in: for the block as it is stored, and for what is
said of its transactions then. -/
def Vouched.Admits (V : Vouched) (b : Block) : Prop :=
  V.block b.verified ∧ ∀ tx ∈ b.verified.transactions, V.loose tx ∧ V.told .verified tx.hash

/-- The block of a queued event is vouched for with the event. -/
theorem EventSound.block {e : QueuedEvent} (h : EventSound V e) {room : Bool}
    (hb : (e.event? room).bind Event.block? = some b) : V.block b := by
  cases e with
  | received sender message =>
    cases message with
    | addBlock block => cases hb; exact h
    | _ => cases hb
  | blockMined block => cases hb; exact h
  | sendPeerMessage receiver message => cases hb
  | minedBlockValidated => cases hb

theorem NodeSound.dispatch {s : FullNode} {e : QueuedEvent} (room : Bool) (h : NodeSound V s.node)
    (he : EventSound V e)
    (hadmitted : ∀ c, (e.event? room).bind Event.block? = some c → Accepts s.node c → V.Admits c) :
    NodeSound V (dispatch s room e).1.node := by
  rw [dispatch_node]
  cases hevent : e.event? room with
  | none => exact h
  | some event =>
    rw [Option.map_some, Option.getD_some]
    rcases handle_cases s.node event with hsame | ⟨tx, room', rfl, _, _, hadd⟩ | ⟨c, hc, hacc, hput⟩
    · rw [hsame]; exact h
    · rw [hadd]
      refine h.add room' ?_
      cases e with
      | received sender message =>
        cases message with
        | addTransaction t => cases hevent; exact he
        | _ => cases hevent
      | _ => cases hevent
    · rw [hput]
      exact h.addValidated (hadmitted c (by rw [hevent]; exact hc) hacc).1

/-- What the listeners of a sound event hand on. -/
theorem effects_sound (h : NodeSound V n) {e : QueuedEvent} (he : EventSound V e)
    (hadmitted : ∀ c, (e.event? true).bind Event.block? = some c → Accepts n c → V.Admits c) :
    ∀ eff ∈ e.effects n, EffectSound V eff := by
  cases e with
  | received sender message =>
    cases message with
    | addBlock block =>
      intro eff heff
      simp only [QueuedEvent.effects] at heff
      by_cases hacc : Accepts n block
      · rw [onAddBlock_of_accepts hacc] at heff
        simp only [List.mem_cons, List.not_mem_nil, or_false] at heff
        rcases heff with rfl | rfl
        · trivial
        · exact (hadmitted block rfl hacc).1
      · rw [onAddBlock_of_not_accepts hacc] at heff
        cases List.mem_singleton.mp heff
        trivial
    | blockHeadersRequest header =>
      intro eff heff
      cases List.mem_singleton.mp heff
      trivial
    | blockRequest header =>
      intro eff heff
      cases List.mem_singleton.mp heff
      unfold EffectSound onBlockRequest
      cases hget : n.blockchain.get header.hash with
      | none => trivial
      | some block => exact h.chain block (DBInternface.mem_data_of_get hget)
    | _ => intro eff heff; cases heff
  | blockMined block =>
    intro eff heff
    have hall := hadmitted block rfl
    simp only [QueuedEvent.effects, onBlockMined] at heff
    unfold Accepts at hall
    split at heff
    · cases List.mem_singleton.mp heff
      trivial
    · rename_i hacc
      have hsent := hall (by simpa using hacc)
      simp only [List.mem_cons, List.mem_flatMap, List.not_mem_nil, or_false] at heff
      rcases heff with rfl | rfl | ⟨tx, htx, rfl | rfl⟩
      · trivial
      · exact hsent.1
      · exact (hsent.2 tx htx).2
      · exact (hsent.2 tx htx).1
  | sendPeerMessage receiver message => intro eff heff; cases heff
  | minedBlockValidated => intro eff heff; cases heff

theorem queued_sound {eff : Effect} (h : EffectSound V eff) : ∀ e ∈ Effect.queued eff, EventSound V e := by
  intro e he
  cases eff with
  | send receiver message => cases he; exact h
  | broadcast peers message => cases he
  | minedBlockValidated => cases he; trivial

theorem packet_sound {eff : Effect} (h : EffectSound V eff) : ∀ packet ∈ packet? id eff, PacketSound V packet := by
  intro packet hp
  cases eff with
  | send receiver message => cases hp; exact h
  | broadcast peers message => cases hp; exact h
  | minedBlockValidated => cases hp

theorem packets_sound {effects : List Effect} (h : ∀ eff ∈ effects, EffectSound V eff) :
    ∀ packet ∈ effects.filterMap (packet? id), PacketSound V packet := by
  intro packet hp
  obtain ⟨eff, heff, he⟩ := List.mem_filterMap.mp hp
  exact packet_sound (h eff heff) packet he

theorem PhaseSound.hear {phase : Phase} (h : PhaseSound V phase) (e : QueuedEvent) :
    PhaseSound V (phase.hear e) := by
  have hround : PhaseSound V Phase.round := ⟨by simp, by simp⟩
  cases phase with
  | listening block =>
    cases e with
    | received sender message =>
      cases message with
      | blockAccepted header => exact h
      | blockRejected reason => exact hround
      | _ => exact h
    | _ => exact h
  | validating block =>
    cases e with
    | minedBlockValidated => exact hround
    | _ => exact h
  | _ => cases e <;> exact h

/-! ## The full nodes -/

/-- The stores, the queue and the phase of a full node, without its download. -/
structure FullNodeSound (V : Vouched) (s : FullNode) : Prop where
  node : NodeSound V s.node
  events : ∀ e ∈ s.events, EventSound V e
  phase : PhaseSound V s.phase

theorem FullNodeSound.processOne {s : FullNode} (h : FullNodeSound V s) (room : Bool)
    (hadmitted : ∀ c, ((s.events.head?.bind (QueuedEvent.event? room)).bind Event.block?) = some c →
      Accepts s.node c → V.Admits c) :
    FullNodeSound V (processOne s room).1 ∧ ∀ eff ∈ (processOne s room).2, EffectSound V eff := by
  obtain ⟨node, events, phase⟩ := s
  cases events with
  | nil => exact ⟨h, by simp [Miner.processOne]⟩
  | cons e rest =>
    have he : EventSound V e := h.events e (by simp)
    have hroom : (e.event? true).bind Event.block? = (e.event? room).bind Event.block? := by
      cases e with
      | received sender message => cases message <;> rfl
      | _ => rfl
    have hadmits : ∀ c, (e.event? room).bind Event.block? = some c → Accepts node c → V.Admits c :=
      fun c hc hacc => hadmitted c (by simpa using hc) hacc
    have heffects := effects_sound h.node he (by rwa [hroom])
    refine ⟨⟨h.node.dispatch (s := ⟨node, rest, phase⟩) room he hadmits, ?_, ?_⟩, ?_⟩
    · intro e' he'
      simp only [Miner.processOne, dispatch_events] at he'
      rcases List.mem_append.mp he' with hold | hnew
      · exact h.events e' (List.mem_cons_of_mem _ hold)
      · obtain ⟨eff, heff, hq⟩ := List.mem_filterMap.mp hnew
        exact queued_sound (heffects eff heff) e' hq
    · simp only [Miner.processOne, dispatch_phase]
      exact h.phase.hear e
    · intro eff heff
      simp only [Miner.processOne, dispatch_sent] at heff
      cases e with
      | sendPeerMessage receiver message =>
        cases List.mem_singleton.mp heff
        exact he
      | _ => exact heffects eff (List.mem_of_mem_filter heff)

theorem FullNodeSound.minerStep {s : FullNode} (h : FullNodeSound V s) {clock : UInt64} {fuel : ℕ}
    (hmine : ∀ latestHash batch c, s.phase = .mining latestHash batch → (∀ tx ∈ batch, V.loose tx) →
      miningFunction D latestHash id batch clock fuel = some c → V.block c) :
    FullNodeSound V (minerStep D id clock fuel s).1 ∧
      ∀ eff ∈ (minerStep D id clock fuel s).2, EffectSound V eff := by
  have hpool : ∀ (m : Node) (item : PoolItem) (rest : List PoolItem), NodeSound V m →
      m.transactionPool.queue = item :: rest →
      NodeSound V { m with transactionPool := { m.transactionPool with queue := rest } } := by
    intro m item rest hm hq
    exact ⟨hm.pool, fun tx htx => hm.queue tx (by rw [hq]; exact List.mem_cons_of_mem _ htx), hm.spent, hm.chain⟩
  have hround : ∀ batch : List Transaction, (∀ tx ∈ batch, V.loose tx) → PhaseSound V (.waiting batch none) :=
    fun batch hb => ⟨hb, by simp⟩
  obtain ⟨node, events, phase⟩ := s
  cases phase with
  | waiting batch item =>
    cases item with
    | none =>
      simp only [Miner.minerStep]
      split
      · exact ⟨⟨h.node, h.events, h.phase.1⟩, by simp⟩
      · split
        · exact ⟨h, by simp⟩
        · rename_i tx rest hq
          refine ⟨⟨hpool node _ rest h.node hq, h.events, h.phase.1, ?_⟩, by simp⟩
          intro t ht
          cases ht
          exact h.node.queue tx (by rw [hq]; exact List.mem_cons_self)
        · rename_i reason rest hq
          exact ⟨⟨hpool node _ rest h.node hq, h.events, trivial⟩, by simp⟩
    | some tx =>
      have htx : V.loose tx := h.phase.2 tx rfl
      simp only [Miner.minerStep]
      split
      · refine ⟨⟨h.node, h.events, hround _ ?_⟩, by simp⟩
        intro t ht
        rcases List.mem_append.mp ht with hold | hnew
        · exact h.phase.1 t hold
        · cases List.mem_singleton.mp hnew
          exact htx
      · exact ⟨⟨h.node, h.events, hround _ h.phase.1⟩, by simp⟩
  | acquired batch => exact ⟨⟨h.node, h.events, h.phase⟩, by simp [Miner.minerStep]⟩
  | mining latestHash batch =>
    simp only [Miner.minerStep]
    split
    · rename_i c hc
      exact ⟨⟨h.node, h.events, hmine latestHash batch c rfl h.phase hc⟩, by simp⟩
    · exact ⟨h, by simp⟩
  | mined block =>
    refine ⟨⟨h.node, h.events, h.phase⟩, ?_⟩
    intro eff heff
    cases List.mem_singleton.mp heff
    exact h.phase
  | broadcasted block => exact ⟨⟨h.node, h.events, h.phase⟩, by simp [Miner.minerStep]⟩
  | listening block => exact ⟨⟨h.node, h.events, h.phase⟩, by simp [Miner.minerStep]⟩
  | decided block =>
    refine ⟨⟨h.node, ?_, h.phase⟩, by simp [Miner.minerStep]⟩
    intro e he
    rcases List.mem_append.mp he with hold | hnew
    · exact h.events e hold
    · cases List.mem_singleton.mp hnew
      exact h.phase
  | enqueued block => exact ⟨⟨h.node, h.events, h.phase⟩, by simp [Miner.minerStep]⟩
  | validating block => exact ⟨h, by simp [Miner.minerStep]⟩
  | ended => exact ⟨h, by simp [Miner.minerStep]⟩

/-! ## The download and the other nodes' pools -/

def InputSound (V : Vouched) : Input → Prop
  | .blockAnswer message => MessageSound V message
  | _ => True

theorem answer_sound {e : QueuedEvent} (h : EventSound V e) : ∀ i ∈ answer? e, InputSound V i := by
  intro i hi
  cases e with
  | received sender message =>
    cases message with
    | blockHeadersResponse headers => cases hi; trivial
    | blockResponse block => cases hi; exact h
    | blockNotFoundResponse => cases hi; trivial
    | _ => cases hi
  | _ => cases hi

theorem nextPut_sound {d : Download} {i : Input} (h : StageSound V d.stage) (hb : nextPut d i = some b) :
    V.block b := by
  obtain ⟨node, stage, responses⟩ := d
  cases i with
  | resume =>
    cases stage with
    | inserting blocks =>
      cases blocks with
      | nil => cases hb
      | cons c rest => cases hb; exact h b (by simp)
    | _ => cases hb
  | _ => cases hb

/-- The download changes no store but the chain, and queues what is pooled. -/
theorem downloadStep_pool (d : Download) (i : Input) :
    (downloadStep d i).node.spentTransactionsStore = d.node.spentTransactionsStore ∧
      ((downloadStep d i).node.transactionPool = d.node.transactionPool ∨
        (downloadStep d i).node.transactionPool = d.node.transactionPool.enqueueStored) := by
  obtain ⟨node, stage, responses⟩ := d
  cases i with
  | resume =>
    cases stage with
    | requesting header identities map =>
      cases identities with
      | nil =>
        cases map with
        | nil => exact ⟨rfl, .inl rfl⟩
        | cons entry rest =>
          simp only [downloadStep, resume]
          split <;> exact ⟨rfl, .inl rfl⟩
      | cons id identities => exact ⟨rfl, .inl rfl⟩
    | downloading peer headers blocks => cases headers <;> exact ⟨rfl, .inl rfl⟩
    | inserting blocks =>
      cases blocks with
      | nil => exact ⟨rfl, .inr rfl⟩
      | cons c rest => exact ⟨rfl, .inl rfl⟩
    | _ => exact ⟨rfl, .inl rfl⟩
  | peersFound identities => cases stage <;> exact ⟨rfl, .inl rfl⟩
  | headersResponse headers sender =>
    cases stage with
    | requesting header identities map => cases identities <;> exact ⟨rfl, .inl rfl⟩
    | _ => exact ⟨rfl, .inl rfl⟩
  | blockAnswer message =>
    cases stage with
    | downloading peer headers blocks =>
      cases headers with
      | nil => exact ⟨rfl, .inl rfl⟩
      | cons header headers => cases message <;> exact ⟨rfl, .inl rfl⟩
    | _ => exact ⟨rfl, .inl rfl⟩

theorem NodeSound.download {d : Download} {i : Input} (h : NodeSound V d.node) (hs : StageSound V d.stage) :
    NodeSound V (downloadStep d i).node := by
  obtain ⟨hspent, hpool⟩ := downloadStep_pool d i
  refine ⟨?_, ?_, ?_, ?_⟩
  · rcases hpool with hp | hp
    · rw [hp]; exact h.pool
    · rw [hp, TransactionPool.enqueueStored_db]; exact h.pool
  · rcases hpool with hp | hp
    · rw [hp]; exact h.queue
    · intro tx htx
      rw [hp, TransactionPool.enqueueStored_queue] at htx
      rcases List.mem_append.mp htx with hold | hnew
      · exact h.queue tx hold
      · obtain ⟨t, ht, he⟩ := List.mem_map.mp hnew
        cases he
        exact h.pool tx ht
  · rw [hspent]; exact h.spent
  · intro block hblock
    rw [downloadStep_blockchain] at hblock
    cases hput : nextPut d i with
    | none =>
      rw [hput] at hblock
      exact h.chain block hblock
    | some c =>
      rw [hput] at hblock
      rcases DBInternface.mem_put.mp hblock with hold | ⟨rfl, _⟩
      · exact h.chain block hold
      · exact nextPut_sound hs hput

theorem StageSound.download {d : Download} {i : Input} (h : StageSound V d.stage) (hi : InputSound V i) :
    StageSound V (downloadStep d i).stage := by
  obtain ⟨node, stage, responses⟩ := d
  cases i with
  | resume =>
    cases stage with
    | requesting header identities map =>
      cases identities with
      | nil =>
        cases map with
        | nil => trivial
        | cons entry rest =>
          simp only [downloadStep, resume]
          split
          · intro block hblock; cases hblock
          · intro block hblock; cases hblock
      | cons id identities => trivial
    | downloading peer headers blocks => cases headers <;> exact h
    | inserting blocks =>
      cases blocks with
      | nil => trivial
      | cons c rest => exact fun block hblock => h block (List.mem_cons_of_mem _ hblock)
    | _ => trivial
  | peersFound identities => cases stage <;> exact h
  | headersResponse headers sender =>
    cases stage with
    | requesting header identities map => cases identities <;> trivial
    | _ => exact h
  | blockAnswer message =>
    cases stage with
    | downloading peer headers blocks =>
      cases headers with
      | nil => exact h
      | cons header headers =>
        cases message with
        | blockResponse block =>
          intro c hc
          rcases List.mem_append.mp hc with hold | hnew
          · exact h c hold
          · cases List.mem_singleton.mp hnew
            exact hi
        | _ => exact h
    | _ => exact h

theorem awaitedRequest_sound (stage : Stage) : ∀ e ∈ awaitedRequest stage, EventSound V e := by
  intro e he
  unfold awaitedRequest at he
  split at he
  · cases List.mem_singleton.mp he; trivial
  · cases List.mem_singleton.mp he; trivial
  · cases he

theorem StationSound.full {s : Station} (h : StationSound V s) : FullNodeSound V s.full :=
  ⟨h.node, h.events, h.phase⟩

theorem StationSound.download {s : Station} (h : StationSound V s) (id : String) {i : Input} (hi : InputSound V i) :
    StationSound V (s.download id i).1 ∧ ∀ packet ∈ (s.download id i).2, PacketSound V packet := by
  refine ⟨⟨h.node.download h.stage, ?_, h.phase, h.stage.download hi⟩, ?_⟩
  · intro e he
    rcases List.mem_append.mp he with hold | hnew
    · exact h.events e hold
    · split at hnew
      · cases hnew
      · exact awaitedRequest_sound _ e hnew
  · intro packet hp
    simp only [Station.download] at hp
    split at hp
    · cases List.mem_singleton.mp hp
      trivial
    · cases hp

/-- **A full node hands on only what is vouched for.** It owes for the block that it
mines, and for the transactions of the block that it lets in. -/
theorem StationSound.act {s : Station} (h : StationSound V s) (a : PartyAction)
    (hmine : ∀ clock fuel, a = .miner clock fuel → ∀ latestHash batch c, s.full.phase = .mining latestHash batch →
      (∀ tx ∈ batch, V.loose tx) → miningFunction D latestHash id batch clock fuel = some c → V.block c)
    (hadmitted : ∀ c ∈ s.admits a, V.block c → V.Admits c) :
    StationSound V (s.act D id a).1 ∧ ∀ packet ∈ (s.act D id a).2, PacketSound V packet := by
  cases a with
  | processOne room awaited =>
    obtain ⟨hfull, heffects⟩ := h.full.processOne room (by
      intro c hc hacc
      have hblock : V.block c := by
        cases hevents : s.full.events with
        | nil => rw [hevents] at hc; cases hc
        | cons e rest =>
          rw [hevents] at hc
          exact (h.events e (by rw [hevents]; simp)).block hc
      exact hadmitted c (Option.filter_eq_some_iff.mpr ⟨hc, decide_eq_true hacc⟩) hblock)
    have hstation : StationSound V { s with full := (Miner.processOne s.full room).1 } :=
      ⟨hfull.node, hfull.events, hfull.phase, h.stage⟩
    have hpackets : ∀ packet ∈ (Miner.processOne s.full room).2.filterMap (packet? id), PacketSound V packet :=
      packets_sound heffects
    simp only [Station.act]
    split
    · rename_i i hi
      have hanswer : InputSound V i := by
        obtain ⟨he, _⟩ := Option.filter_eq_some_iff.mp hi
        obtain ⟨e, hhead, hans⟩ := Option.bind_eq_some_iff.mp he
        exact answer_sound (h.events e (List.mem_of_head? hhead)) i hans
      obtain ⟨hdown, hmore⟩ := hstation.download id hanswer
      refine ⟨hdown, ?_⟩
      intro packet hp
      rcases List.mem_append.mp hp with hp | hp
      · exact hpackets packet hp
      · exact hmore packet hp
    · exact ⟨hstation, hpackets⟩
  | miner clock fuel =>
    obtain ⟨hfull, heffects⟩ := h.full.minerStep (hmine clock fuel rfl)
    exact ⟨⟨hfull.node, hfull.events, hfull.phase, h.stage⟩, packets_sound heffects⟩
  | resumeDownload => exact h.download id (i := .resume) trivial
  | peersFound identities => exact h.download id (i := .peersFound identities) trivial
  | syncPool =>
    obtain ⟨full, stage, syncRequests⟩ := s
    cases syncRequests with
    | nil => exact ⟨h, by simp [Station.act]⟩
    | cons requester rest =>
      refine ⟨⟨h.node, ?_, h.phase, h.stage⟩, by simp [Station.act]⟩
      intro e he
      rcases List.mem_append.mp he with hold | hnew
      · exact h.events e hold
      · obtain ⟨tx, htx, rfl⟩ := List.mem_map.mp hnew
        exact h.node.pool tx htx
  | createTransaction clock receiverId => exact ⟨h, by simp [Station.act]⟩

theorem StationSound.hear {s : Station} (h : StationSound V s) {packet : Packet} (hp : PacketSound V packet) :
    StationSound V (s.hear packet) := by
  have hreceived : ∀ sender message, MessageSound V message →
      StationSound V { s with full := { s.full with events := s.full.events ++ [.received sender message] } } := by
    intro sender message hm
    refine ⟨h.node, ?_, h.phase, h.stage⟩
    intro e he
    rcases List.mem_append.mp he with hold | hnew
    · exact h.events e hold
    · cases List.mem_singleton.mp hnew
      exact hm
  cases packet with
  | post sender receiver message => exact hreceived sender message hp
  | cast sender peers message => exact hreceived sender message hp
  | syncPoolRequest sender => exact ⟨h.node, h.events, h.phase, h.stage⟩

theorem stationSound_boot (hgenesis : V.block (createGenesisBlock D)) : StationSound V (.boot D) := by
  refine ⟨⟨?_, ?_, ?_, ?_⟩, ?_, ⟨by simp, by simp⟩, trivial⟩
  · intro tx htx
    simp [Station.boot, Miner.boot, start] at htx
  · intro tx htx
    simp [Station.boot, Miner.boot, start] at htx
  · intro tx htx
    simp [Station.boot, Miner.boot, start] at htx
  · intro block hblock
    have hin : block ∈ stored (fromPath D DBInternface.empty) := hblock
    rw [stored_fromPath_empty] at hin
    rw [hin]
    exact hgenesis
  · intro e he
    cases he

/-! ## The light nodes -/

/-- What is vouched for, with what a wallet held before. -/
def WalletSound (K : Transaction → Prop) (w : Wallet) : Prop := ∀ tx ∈ w.data, K tx

theorem WalletSound.put {K : Transaction → Prop} {w : Wallet} (h : WalletSound K w) {tx : Transaction} (htx : K tx) :
    WalletSound K (w.put tx).2 := by
  intro t ht
  rcases DBInternface.mem_put.mp ht with hold | ⟨rfl, _⟩
  · exact h t hold
  · exact htx

theorem WalletSound.hear {K : Transaction → Prop} {w : Wallet} (h : WalletSound K w) {message : NodeMessage}
    (hm : MessageSound V message) (hloose : ∀ tx, V.loose tx → K tx)
    (htold : ∀ tx status, K tx → V.told status tx.hash → K (tx.setStatus status)) :
    WalletSound K (walletHear w message) := by
  cases message with
  | addTransaction tx => exact h.put (hloose tx hm)
  | setTransactionStatus status hash =>
    intro tx htx
    have hget := DBInternface.mem_data.mp htx
    simp only [walletHear, Wallets.get_statusChanged] at hget
    split at hget
    · rename_i hhash
      obtain ⟨t, ht, rfl⟩ := Option.map_eq_some_iff.mp hget
      have hsame : t.hash = hash := by
        rw [hhash]
        exact DBInternface.tag_of_get ht
      exact htold t status (h t (DBInternface.mem_data_of_get ht)) (hsame ▸ hm)
    · exact h tx (DBInternface.mem_data_of_get hget)
  | _ => exact h

/-! ## What a run vouches for -/

/-- The light node that the transaction names made it in the run, at its timestamp and
for its receiver. Nothing is said of its status. -/
structure Cast (D : Digest) (roster : String → PeerType) (moves : List SwarmMove) (tx : Transaction) : Prop where
  light : roster tx.from_ = .light
  made : Move.act tx.from_ (.createTransaction tx.timestamp tx.to_) ∈ moves
  digest : tx.hash = D.sha256Hex (Wallets.preimage tx.timestamp tx.from_ tx.to_)

/-- What `mining_function` returns to a full node in the action, with the node and its clock. -/
def returned (D : Digest) (id : String) : Party → PartyAction → List (String × UInt64 × Block)
  | .full s, .miner clock fuel =>
    match s.full.phase with
    | .mining latestHash batch =>
      (miningFunction D latestHash id batch clock fuel).toList.map fun block => (id, clock, block)
    | _ => []
  | _, _ => []

/-- All that `mining_function` returned in the run. -/
def minedInRun (D : Digest) (roster : String → PeerType) (wallets : String → Wallet) (moves : List SwarmMove) :
    List (String × UInt64 × Block) :=
  yields (swarm D roster) (returned D) (assemble D roster wallets) moves

/-- `mining_function` returned the block in the run, up to the status of its
transactions, to the full node that the block names, at its timestamp; its transactions
were cast and the work covers it. -/
structure Minted (D : Digest) (roster : String → PeerType) (wallets : String → Wallet) (moves : List SwarmMove)
    (b : Block) : Prop where
  full : roster b.header.minedBy = .full
  made : ∃ c, (b.header.minedBy, b.timestamp, c) ∈ minedInRun D roster wallets moves ∧ c.verified = b.verified
  work : startsWith b.hash "0000" = true
  covered : Covered D b
  cast : ∀ tx ∈ b.transactions, Cast D roster moves tx

/-- Transactions that were cast, blocks that were mined, and no status but `Verified`. -/
def fromRun (D : Digest) (roster : String → PeerType) (wallets : String → Wallet) (moves : List SwarmMove) :
    Vouched where
  loose := Cast D roster moves
  told status _ := status = .verified
  block b := b = createGenesisBlock D ∨ Minted D roster wallets moves b

variable {roster : String → PeerType} {moves : List SwarmMove} {wallets : String → Wallet}

theorem Cast.setStatus {tx : Transaction} (h : Cast D roster moves tx) (status : TransactionStatus) :
    Cast D roster moves (tx.setStatus status) := ⟨h.light, h.made, h.digest⟩

theorem fromRun_verified (h : (fromRun D roster wallets moves).block b) :
    (fromRun D roster wallets moves).block b.verified := by
  rcases h with rfl | h
  · exact .inl (genesis_verified D)
  · obtain ⟨c, hc, hsame⟩ := h.made
    refine .inr ⟨h.full, ⟨c, hc, hsame.trans b.verified_verified.symm⟩, h.work, covered_verified.mpr h.covered, ?_⟩
    intro tx htx
    obtain ⟨t, ht, rfl⟩ := List.mem_map.mp htx
    exact (h.cast t ht).setStatus .verified

theorem cast_of_block (h : (fromRun D roster wallets moves).block b) {tx : Transaction} (htx : tx ∈ b.transactions) :
    Cast D roster moves tx := by
  rcases h with rfl | h
  · cases htx
  · exact h.cast tx htx

theorem mineFrom_minedBy {previousHash identity merkleRoot : String} {timestamp : UInt64}
    {transactions : List Transaction} {fuel : ℕ} {nonce : UInt64}
    (h : mineFrom D previousHash identity merkleRoot timestamp transactions fuel nonce = some b) :
    b.header.minedBy = identity ∧ b.timestamp = timestamp := by
  induction fuel generalizing nonce with
  | zero => cases h
  | succ fuel ih =>
    unfold mineFrom at h
    simp only at h
    split at h
    · cases h
      exact ⟨rfl, rfl⟩
    · exact ih h

/-- An act of the run, with what it yields. -/
def Taken (D : Digest) (roster : String → PeerType) (wallets : String → Wallet) (moves : List SwarmMove)
    (id : String) (p : Party) (a : PartyAction) : Prop :=
  Move.act id a ∈ moves ∧ ∀ block ∈ returned D id p a, block ∈ minedInRun D roster wallets moves

theorem along_taken (D : Digest) (roster : String → PeerType) (wallets : String → Wallet) (moves : List SwarmMove) :
    Along (step (swarm D roster)) (Move.Allowed (Taken D roster wallets moves)) (assemble D roster wallets) moves :=
  along_yields moves (assemble D roster wallets) (fun _ h => h) fun _ h => h

theorem minted_of_taken {s : Station} {latestHash : String} {batch : List Transaction} {clock : UInt64} {fuel : ℕ}
    (hfull : roster id = .full) (htaken : Taken D roster wallets moves id (.full s) (.miner clock fuel))
    (hphase : s.full.phase = .mining latestHash batch) (hbatch : ∀ tx ∈ batch, Cast D roster moves tx)
    (h : miningFunction D latestHash id batch clock fuel = some b) : Minted D roster wallets moves b := by
  obtain ⟨hme, htime⟩ := mineFrom_minedBy h
  obtain ⟨hwork, hcovered⟩ := miningFunction_covered h
  have htxs : b.transactions = batch := miningFunction_transactions h
  have hmade : (id, clock, b) ∈ minedInRun D roster wallets moves := htaken.2 _ (by simp [returned, hphase, h])
  subst hme htime
  exact ⟨hfull, ⟨b, hmade, rfl⟩, hwork, hcovered, htxs ▸ hbatch⟩

/-- Cast in the run, or in the wallet before it. -/
def Kept (D : Digest) (roster : String → PeerType) (moves : List SwarmMove) (before : Wallet) (tx : Transaction) :
    Prop :=
  Cast D roster moves tx ∨ ∃ t ∈ before.data, tx.setStatus .pending = t.setStatus .pending

/-- What every node of the swarm satisfies. -/
def PartySound (D : Digest) (roster : String → PeerType) (moves : List SwarmMove) (wallets : String → Wallet)
    (id : String) : Party → Prop
  | .full s => roster id = .full ∧ StationSound (fromRun D roster wallets moves) s
  | .light w => roster id = .light ∧ WalletSound (Kept D roster moves (wallets id)) w
  | .other => roster id ≠ .full

theorem swarm_keeps (D : Digest) (roster : String → PeerType) (moves : List SwarmMove) (wallets : String → Wallet) :
    Keeps (swarm D roster) (Taken D roster wallets moves) (PartySound D roster moves wallets)
      (PacketSound (fromRun D roster wallets moves)) := by
  refine ⟨?_, ?_⟩
  · intro id p a htaken hp
    cases p with
    | full s =>
      obtain ⟨hfull, hs⟩ := hp
      have hact : StationSound (fromRun D roster wallets moves) (s.act D id a).1 ∧
          ∀ packet ∈ (s.act D id a).2, PacketSound (fromRun D roster wallets moves) packet :=
        hs.act a
        (by
          rintro clock fuel rfl latestHash batch c hphase hbatch hc
          exact .inr (minted_of_taken hfull htaken hphase hbatch hc))
        (fun c _ hc => ⟨fromRun_verified hc, fun tx htx => ⟨cast_of_block (fromRun_verified hc) htx, rfl⟩⟩)
      exact ⟨⟨hfull, hact.1⟩, hact.2⟩
    | light w =>
      obtain ⟨hlight, hw⟩ := hp
      cases a with
      | createTransaction clock receiverId =>
        have hcast : Cast D roster moves (newTransaction D clock id receiverId) := ⟨hlight, htaken.1, rfl⟩
        refine ⟨⟨hlight, hw.put (.inl hcast)⟩, ?_⟩
        intro packet hpacket
        cases List.mem_singleton.mp hpacket
        exact hcast
      | _ => exact ⟨⟨hlight, hw⟩, fun _ hpacket => nomatch hpacket⟩
    | other => exact ⟨hp, fun _ hpacket => nomatch hpacket⟩
  · intro id p packet _ hgood hp
    cases p with
    | full s => exact ⟨⟨hp.1, hp.2.hear hgood⟩, fun _ h => nomatch h⟩
    | light w =>
      have hmessage : ∀ message, MessageSound (fromRun D roster wallets moves) message →
          WalletSound (Kept D roster moves (wallets id)) (walletHear w message) := fun message hm =>
        hp.2.hear hm (fun _ h => .inl h) (fun _ status h _ => h.imp (fun hc => hc.setStatus status) fun ht => ht)
      cases packet with
      | post sender receiver message => exact ⟨⟨hp.1, hmessage message hgood⟩, fun _ h => nomatch h⟩
      | cast sender peers message => exact ⟨⟨hp.1, hmessage message hgood⟩, fun _ h => nomatch h⟩
      | syncPoolRequest sender => exact ⟨hp, fun _ h => nomatch h⟩
    | other => exact ⟨hp, fun _ h => nomatch h⟩

theorem assemble_sound (D : Digest) (roster : String → PeerType) (moves : List SwarmMove)
    (wallets : String → Wallet) (id : String) :
    PartySound D roster moves wallets id ((assemble D roster wallets).party id) := by
  unfold assemble
  dsimp only
  cases hr : roster id with
  | full => exact ⟨hr, stationSound_boot (.inl rfl)⟩
  | light => exact ⟨hr, fun tx htx => .inr ⟨tx, htx, rfl⟩⟩
  | observer => exact fun h => nomatch hr.symm.trans h
  | control => exact fun h => nomatch hr.symm.trans h
  | unknown => exact fun h => nomatch hr.symm.trans h

/-- The swarm after a run from its start. -/
def after (D : Digest) (roster : String → PeerType) (wallets : String → Wallet) (moves : List SwarmMove) :
    World String Party Packet :=
  run (step (swarm D roster)) (assemble D roster wallets) moves

theorem sound_after (D : Digest) (roster : String → PeerType) (wallets : String → Wallet) (moves : List SwarmMove) :
    (∀ id, PartySound D roster moves wallets id ((after D roster wallets moves).party id)) ∧
      ∀ packet ∈ (after D roster wallets moves).sent, PacketSound (fromRun D roster wallets moves) packet := by
  exact (swarm_keeps D roster moves wallets).run (along_taken D roster wallets moves)
    (assemble_sound D roster moves wallets) (fun _ h => nomatch h)

theorem stationSound_after {s : Station} (hs : (after D roster wallets moves).party id = .full s) :
    StationSound (fromRun D roster wallets moves) s := by
  have hp := (sound_after D roster wallets moves).1 id
  rw [hs] at hp
  exact hp.2

/-- A full node stays one. -/
theorem exists_station (D : Digest) (wallets : String → Wallet) (moves : List SwarmMove) (h : roster id = .full) :
    ∃ s, (after D roster wallets moves).party id = .full s := by
  have hp := (sound_after D roster wallets moves).1 id
  cases hparty : (after D roster wallets moves).party id with
  | full s => exact ⟨s, rfl⟩
  | light w =>
    rw [hparty] at hp
    exact nomatch h.symm.trans hp.1
  | other =>
    rw [hparty] at hp
    exact absurd h hp

/-- The transactions that a message brings, by themselves or in a block. -/
def transactionsOf : NodeMessage → List Transaction
  | .addTransaction tx => [tx]
  | .blockResponse block | .addBlock block => block.transactions
  | _ => []

def carried : Packet → List Transaction
  | .post _ _ message | .cast _ _ message => transactionsOf message
  | .syncPoolRequest _ => []

def queued : QueuedEvent → List Transaction
  | .received _ message | .sendPeerMessage _ message => transactionsOf message
  | .blockMined block => block.transactions
  | .minedBlockValidated => []

/-- The transactions that the miner has taken and is not done with. -/
def inHand : Phase → List Transaction
  | .waiting batch item => batch ++ item.toList
  | .acquired batch | .mining _ batch => batch
  | .mined block | .broadcasted block | .listening block | .decided block | .enqueued block
  | .validating block => block.transactions
  | .ended => []

/-- The transactions in the blocks that the download has got and not yet stored. -/
def downloaded : Stage → List Transaction
  | .downloading _ _ blocks | .inserting blocks => blocks.flatMap (·.transactions)
  | _ => []

/-- The transactions that a full node has: pooled, queued for the miner, spent, on the
chain, in the event queue, in the miner's hands or in those of the download. -/
def Held (s : Station) (tx : Transaction) : Prop :=
  tx ∈ s.full.node.transactionPool.data ∨ PoolItem.transaction tx ∈ s.full.node.transactionPool.queue ∨
    tx ∈ s.full.node.spentTransactionsStore.data ∨ (∃ b ∈ s.full.node.blockchain.data, tx ∈ b.transactions) ∨
    (∃ e ∈ s.full.events, tx ∈ queued e) ∨ tx ∈ inHand s.full.phase ∨ tx ∈ downloaded s.stage

section Lists
variable (hlists : ∀ b, V.block b → ∀ tx ∈ b.transactions, V.loose tx)
include hlists

theorem MessageSound.loose {message : NodeMessage} (h : MessageSound V message) :
    ∀ tx ∈ transactionsOf message, V.loose tx := by
  cases message with
  | addTransaction tx =>
    intro t ht
    rw [List.mem_singleton.mp ht]
    exact h
  | blockResponse block => exact hlists block h
  | addBlock block => exact hlists block h
  | _ => intro tx htx; cases htx

theorem PacketSound.loose {packet : Packet} (h : PacketSound V packet) : ∀ tx ∈ carried packet, V.loose tx := by
  cases packet with
  | post sender receiver message => exact MessageSound.loose hlists h
  | cast sender peers message => exact MessageSound.loose hlists h
  | syncPoolRequest sender => intro tx htx; cases htx

theorem EventSound.loose {e : QueuedEvent} (h : EventSound V e) : ∀ tx ∈ queued e, V.loose tx := by
  cases e with
  | received sender message => exact MessageSound.loose hlists h
  | sendPeerMessage receiver message => exact MessageSound.loose hlists h
  | blockMined block => exact hlists block h
  | minedBlockValidated => intro tx htx; cases htx

theorem PhaseSound.loose {phase : Phase} (h : PhaseSound V phase) : ∀ tx ∈ inHand phase, V.loose tx := by
  cases phase with
  | waiting batch item =>
    intro tx htx
    rcases List.mem_append.mp htx with hbatch | hitem
    · exact h.1 tx hbatch
    · exact h.2 tx (Option.mem_toList.mp hitem)
  | acquired batch => exact h
  | mining latestHash batch => exact h
  | ended => intro tx htx; cases htx
  | _ => exact hlists _ h

theorem StageSound.loose {stage : Stage} (h : StageSound V stage) : ∀ tx ∈ downloaded stage, V.loose tx := by
  have hblocks : ∀ blocks : List Block, (∀ b ∈ blocks, V.block b) →
      ∀ tx ∈ blocks.flatMap (·.transactions), V.loose tx := by
    intro blocks hall tx htx
    obtain ⟨b, hb, hlisted⟩ := List.mem_flatMap.mp htx
    exact hlists b (hall b hb) tx hlisted
  cases stage with
  | downloading peer headers blocks => exact hblocks blocks h
  | inserting blocks => exact hblocks blocks h
  | _ => intro tx htx; cases htx

theorem StationSound.loose {s : Station} (h : StationSound V s) {tx : Transaction} (htx : Held s tx) :
    V.loose tx := by
  rcases htx with hpool | hqueue | hspent | ⟨b, hb, htx⟩ | ⟨e, he, htx⟩ | hhand | hdown
  · exact h.node.pool tx hpool
  · exact h.node.queue tx hqueue
  · obtain ⟨b, hb, htx⟩ := h.node.spent tx hspent
    exact hlists b hb tx htx
  · exact hlists b (h.node.chain b hb) tx htx
  · exact (h.events e he).loose hlists tx htx
  · exact h.phase.loose hlists tx hhand
  · exact h.stage.loose hlists tx hdown

end Lists

theorem cast_of_held {s : Station} (h : StationSound (fromRun D roster wallets moves) s) {tx : Transaction}
    (htx : Held s tx) : Cast D roster moves tx :=
  h.loose (fun _ hb _ => cast_of_block hb) htx

/-- The block that a message brings, announced or asked for. -/
def blockOf : Packet → Option Block
  | .post _ _ (.addBlock block) | .cast _ _ (.addBlock block) => some block
  | .post _ _ (.blockResponse block) | .cast _ _ (.blockResponse block) => some block
  | _ => none

theorem PacketSound.block {packet : Packet} (h : PacketSound V packet) (hb : blockOf packet = some b) :
    V.block b := by
  unfold blockOf at hb
  split at hb
  · cases hb; exact h
  · cases hb; exact h
  · cases hb; exact h
  · cases hb; exact h
  · cases hb

/-- **No vote that was not cast.** In every run of any number of full and light nodes,
over a network that loses, delays, repeats and reorders messages: each transaction that a
full node has, that a message under way brings, by itself or in a block, or, if it was
not there before, in a wallet is one that the light node named as its sender made at that
time for that receiver, and its hash is the digest of just that. -/
theorem no_vote_uncast (D : Digest) (roster : String → PeerType) (wallets : String → Wallet)
    (moves : List SwarmMove) :
    let w := after D roster wallets moves
    (∀ id s, w.party id = .full s → ∀ tx, Held s tx → Cast D roster moves tx) ∧
    (∀ packet ∈ w.sent, ∀ tx ∈ carried packet, Cast D roster moves tx) ∧
    ∀ id wallet, w.party id = .light wallet → ∀ tx ∈ wallet.data, Cast D roster moves tx ∨
      ∃ t ∈ (wallets id).data, tx.setStatus .pending = t.setStatus .pending := by
  intro w
  obtain ⟨hparty, hsent⟩ := sound_after D roster wallets moves
  refine ⟨?_, ?_, ?_⟩
  · intro id s hs tx htx
    exact cast_of_held (stationSound_after hs) htx
  · intro packet hp
    exact (hsent packet hp).loose fun _ hb _ => cast_of_block hb
  · intro id wallet hw tx htx
    have hp := hparty id
    rw [show (after D roster wallets moves).party id = .light wallet from hw] at hp
    exact hp.2 tx htx

/-- **No block that was not mined.** In every such run each block but the genesis block,
on the chain of a full node or under way to one, is what a miner step of the run returned
to the full node that it names, at its timestamp, but for the status of its transactions,
and is covered by its work: its hash is the digest of its header, shows work and is
smaller than the hash it builds on, its Merkle root is that of its transactions, and each
of these was cast. So no chain holds what the validator does not look for. -/
theorem no_block_unmined (D : Digest) (roster : String → PeerType) (wallets : String → Wallet)
    (moves : List SwarmMove) :
    let w := after D roster wallets moves
    (∀ id s, w.party id = .full s → AllCovered D s.full.node ∧
      ∀ b ∈ s.full.node.blockchain.data, b ≠ createGenesisBlock D → Minted D roster wallets moves b) ∧
    ∀ packet ∈ w.sent, ∀ b, blockOf packet = some b → b ≠ createGenesisBlock D → Minted D roster wallets moves b := by
  intro w
  refine ⟨fun id s hs => ?_, fun packet hp b hb hne => ?_⟩
  · have hchain : ∀ b ∈ s.full.node.blockchain.data, b ≠ createGenesisBlock D → Minted D roster wallets moves b :=
      fun b hb hne => ((stationSound_after hs).node.chain b hb).resolve_left hne
    exact ⟨fun b hb hne => (hchain b hb hne).covered, hchain⟩
  · exact (((sound_after D roster wallets moves).2 packet hp).block hb).resolve_left hne

/-! ## One hash, one vote -/

/-- The digest of two votes is the same only for the same vote, given identities of one length. -/
theorem Cast.eq_of_hash (hcollision : Function.Injective D.sha256Hex) {length : ℕ}
    (hlength : ∀ me, roster me = .light → me.length = length)
    (hreceiver : ∀ me clock receiverId, Move.act me (.createTransaction clock receiverId) ∈ moves →
      roster receiverId = .light)
    {tx tx' : Transaction} (h : Cast D roster moves tx) (h' : Cast D roster moves tx') (hhash : tx.hash = tx'.hash) :
    tx.setStatus .pending = tx'.setStatus .pending := by
  have hsender : tx.from_.length = tx'.from_.length := (hlength _ h.light).trans (hlength _ h'.light).symm
  have hto : tx.to_.length = tx'.to_.length :=
    (hlength _ (hreceiver _ _ _ h.made)).trans (hlength _ (hreceiver _ _ _ h'.made)).symm
  have hpreimage : Wallets.preimage tx.timestamp tx.from_ tx.to_ =
      Wallets.preimage tx'.timestamp tx'.from_ tx'.to_ := by
    apply hcollision
    rw [← h.digest, ← h'.digest, hhash]
  obtain ⟨htime, hfrom, hreceived⟩ := walletPreimage_inj hpreimage hsender (.inr hto)
  cases tx
  cases tx'
  simp only [Transaction.setStatus, Transaction.mk.injEq] at *
  exact ⟨trivial, trivial, hhash, htime, hfrom, hreceived⟩

/-- Held by some full node, or under way. -/
def Around (w : World String Party Packet) (tx : Transaction) : Prop :=
  (∃ id s, w.party id = .full s ∧ Held s tx) ∨ ∃ packet ∈ w.sent, tx ∈ carried packet

theorem cast_of_around {tx : Transaction} (h : Around (after D roster wallets moves) tx) :
    Cast D roster moves tx := by
  rcases h with ⟨id, s, hs, htx⟩ | ⟨packet, hp, htx⟩
  · exact cast_of_held (stationSound_after hs) htx
  · exact ((sound_after D roster wallets moves).2 packet hp).loose (fun _ hb _ => cast_of_block hb) tx htx

/-- **One hash, one vote.** With a digest without collisions, and light nodes under
names of one length that vote for light nodes, any two transactions that full nodes hold
or that are under way, wherever in the swarm, have all in common but their status as soon
as they have one hash. -/
theorem one_hash_one_vote (D : Digest) (roster : String → PeerType) (wallets : String → Wallet)
    (moves : List SwarmMove) (length : ℕ) (hcollision : Function.Injective D.sha256Hex)
    (hlength : ∀ me, roster me = .light → me.length = length)
    (hreceiver : ∀ me clock receiverId, Move.act me (.createTransaction clock receiverId) ∈ moves →
      roster receiverId = .light)
    (tx tx' : Transaction) (h : Around (after D roster wallets moves) tx)
    (h' : Around (after D roster wallets moves) tx') (hhash : tx.hash = tx'.hash) :
    tx.setStatus .pending = tx'.setStatus .pending :=
  (cast_of_around h).eq_of_hash hcollision hlength hreceiver (cast_of_around h') hhash

/-- A digest without collisions. -/
def plainDigest : Digest := ⟨fun s => s, fun _ => ""⟩

/-- Two full nodes, and voters with names of two letters. -/
def pollRoster (id : String) : PeerType :=
  if id.length = 2 then .light else if id = "node" ∨ id = "other" then .full else .unknown

/-- Both nodes pool the vote. -/
def poll : List SwarmMove :=
  [.act "v1" (.createTransaction 1 "v2"), .deliver "node" 0, .deliver "other" 0,
    .act "node" (.processOne true false), .act "other" (.processOne true false)]

theorem one_hash_one_vote_poll :
    let w := after plainDigest pollRoster (fun _ => DBInternface.empty) poll
    (∃ tx, Around w tx) ∧
    ∀ tx tx', Around w tx → Around w tx' → tx.hash = tx'.hash → tx.setStatus .pending = tx'.setStatus .pending := by
  intro w
  refine ⟨⟨newTransaction plainDigest 1 "v1" "v2",
    .inr ⟨.cast "v1" .full (.addTransaction _), ?_, List.mem_singleton_self _⟩⟩, ?_⟩
  · decide +kernel
  · intro tx tx' h h' hhash
    refine one_hash_one_vote plainDigest pollRoster (fun _ => DBInternface.empty) poll 2
      (fun _ _ he => he) ?_ ?_ tx tx' h h' hhash
    · intro me hme
      unfold pollRoster at hme
      split at hme
      · assumption
      · split at hme <;> cases hme
    · intro me clock receiverId hmove
      simp [poll] at hmove
      rw [hmove.2.2]
      decide +kernel

end Krapi.Provenance
