import Krapi.PublishedChain

/-! # The initial block download

`initial_block_download` is a coroutine that the node runs once at its start,
next to the event loop: it asks every connected full node for the headers after
its newest block, downloads the blocks of the longest answer one by one, and
puts them into the store as they come, without the validator. A step takes the
coroutine to its next suspension or shared access; what it waits for is the
input of the step, so that nothing is assumed about what peers answer. -/
namespace Krapi.InitialDownload
open Krapi.BlockchainModels Krapi.DBInterface Krapi.ChainStore Krapi.Validator Krapi.Pool
open Krapi.Handlers Krapi.PublishedChain Krapi.Lib.Run Krapi.Lib.Timeline

/-- `header_peer_map`: most headers first, one entry for each number of headers. -/
abbrev HeaderPeerMap := List (List BlockHeader × String)

/-- An answer with as many headers as one already in the map is ignored. -/
def emplace (headers : List BlockHeader) (sender : String) : HeaderPeerMap → HeaderPeerMap
  | [] => [(headers, sender)]
  | entry :: rest =>
    if headers.length > entry.1.length then (headers, sender) :: entry :: rest
    else if entry.1.length > headers.length then entry :: emplace headers sender rest
    else entry :: rest

/-- Where the coroutine stands, with what it holds there. -/
inductive Stage where
  | initial
  /-- In `wait_for_peers`. -/
  | waiting (lastKnownHeader : BlockHeader)
  /-- In `request_headers`: the peers not asked yet. -/
  | requesting (lastKnownHeader : BlockHeader) (identities : List String) (map : HeaderPeerMap)
  /-- In `download_blocks`: the headers not asked for yet, the blocks so far. -/
  | downloading (peer : String) (headers : List BlockHeader) (blocks : List Block)
  /-- In the loop of puts. -/
  | inserting (blocks : List Block)
  | finished
  deriving Repr, DecidableEq

structure Download where
  node : Node
  stage : Stage
  /-- The header responses so far; a log that no step reads. -/
  responses : List (List BlockHeader)

inductive Input where
  /-- The coroutine goes on by itself. -/
  | resume
  | peersFound (identities : List String)
  | headersResponse (headers : List BlockHeader) (sender : String)
  /-- The answer to a `BlockRequest`. -/
  | blockAnswer (message : NodeMessage)
  deriving Repr, DecidableEq

/-- The coroutine before its first step. -/
def begin (n : Node) : Download := { node := n, stage := .initial, responses := [] }

/-- The steps that wait for nothing. The list of peers is never empty, so the
map has a first entry when `request_headers` reads it. -/
def resume (s : Download) : Download :=
  match s.stage with
  | .initial => { s with stage := .waiting s.node.blockchain.last.header }
  | .requesting _ [] ((headers, peer) :: _) =>
    if headers.isEmpty then { s with stage := .inserting [] }
    else { s with stage := .downloading peer headers [] }
  | .downloading _ [] blocks => { s with stage := .inserting blocks }
  | .inserting (block :: rest) =>
    { s with
      node := { s.node with blockchain := (s.node.blockchain.put block).2 }
      stage := .inserting rest }
  | .inserting [] =>
    { s with
      node := { s.node with transactionPool := s.node.transactionPool.enqueueStored }
      stage := .finished }
  | _ => s

def downloadStep (s : Download) : Input → Download
  | .resume => resume s
  | .peersFound identities =>
    match s.stage with
    | .waiting header => { s with stage := .requesting header identities [] }
    | _ => s
  | .headersResponse headers sender =>
    match s.stage with
    | .requesting header (_ :: identities) map =>
      { s with
        stage := .requesting header identities (emplace headers sender map)
        responses := s.responses ++ [headers] }
    | _ => s
  | .blockAnswer message =>
    match s.stage, message with
    | .downloading peer (_ :: headers) blocks, .blockResponse block =>
      { s with stage := .downloading peer headers (blocks ++ [block]) }
    | .downloading peer (_ :: headers) blocks, _ => { s with stage := .downloading peer headers blocks }
    | _, _ => s

/-- The input is what a peer with the chain `peers id` answers to the pending request. -/
def Answered (peers : String → Blockchain) (s : Download) : Input → Prop
  | .headersResponse headers sender =>
    match s.stage with
    | .requesting header (id :: _) _ =>
      NodeMessage.blockHeadersResponse headers = onBlockHeadersRequest (peers id) header ∧ sender = id
    | _ => True
  | .blockAnswer message =>
    match s.stage with
    | .downloading peer (header :: _) _ => message = onBlockRequest (peers peer) header
    | _ => True
  | _ => True

instance (peers : String → Blockchain) (s : Download) (i : Input) : Decidable (Answered peers s i) := by
  unfold Answered
  split
  · split <;> infer_instance
  · split <;> infer_instance
  · infer_instance

/-- What the loop of puts makes of a chain. -/
def insertBlocks (chain : Blockchain) (blocks : List Block) : Blockchain :=
  blocks.foldl (fun chain block => (chain.put block).2) chain

/-! ## What a step does to the stores -/

/-- The block that the step hands to `put`. -/
def nextPut (s : Download) (i : Input) : Option Block :=
  match i, s.stage with
  | .resume, .inserting (block :: _) => some block
  | _, _ => none

/-- Only the loop of puts changes the chain. -/
theorem downloadStep_blockchain (s : Download) (i : Input) :
    (downloadStep s i).node.blockchain =
      ((nextPut s i).map fun b => (s.node.blockchain.put b).2).getD s.node.blockchain := by
  obtain ⟨node, stage, responses⟩ := s
  cases i with
  | resume =>
    cases stage with
    | requesting header identities map =>
      cases identities with
      | nil =>
        cases map with
        | nil => rfl
        | cons entry rest =>
          simp only [downloadStep, resume]
          split <;> rfl
      | cons id identities => rfl
    | downloading peer headers blocks => cases headers <;> rfl
    | inserting blocks => cases blocks <;> rfl
    | _ => rfl
  | peersFound identities => cases stage <;> rfl
  | headersResponse headers sender =>
    cases stage with
    | requesting header identities map => cases identities <;> rfl
    | _ => rfl
  | blockAnswer message =>
    cases stage with
    | downloading peer headers blocks =>
      cases headers with
      | nil => rfl
      | cons header headers => cases message <;> rfl
    | _ => rfl

/-! ## Whether the chain stays linked -/

/-- What `validate_header` would ask of a block, its work aside, when the block
is put under a new hash: dated after the newest stored block and naming it. -/
def PutsInOrder (s : Download) (i : Input) : Prop :=
  ∀ b ∈ nextPut s i, s.node.blockchain.contains b.hash = false →
    s.node.blockchain.last.timestamp < b.timestamp ∧
      b.previousHash = s.node.blockchain.last.hash

instance (s : Download) (i : Input) : Decidable (PutsInOrder s i) :=
  inferInstanceAs (Decidable (∀ b ∈ nextPut s i, _))

/-- The stored chain is linked, from the genesis block on. -/
def ChainLinked (D : Digest) (n : Node) : Prop :=
  Linked blockLinks (createGenesisBlock D) (stored n.blockchain)

/-- A put keeps the chain linked exactly when it is in order. -/
theorem chainLinked_step_iff {D : Digest} {s : Download} {i : Input} (h : ChainLinked D s.node) :
    PutsInOrder s i ↔ ChainLinked D (downloadStep s i).node := by
  unfold ChainLinked PutsInOrder
  rw [downloadStep_blockchain]
  cases hput : nextPut s i with
  | none => exact iff_of_true (by simp) h
  | some b =>
    simp only [Option.mem_some_iff, forall_eq', Option.map_some, Option.getD_some]
    cases hc : s.node.blockchain.contains b.hash with
    | true =>
      rw [DBInternface.put_of_contains hc]
      exact iff_of_true (by simp) h
    | false =>
      have hkey : ∀ c ∈ stored s.node.blockchain, blockLinks.key b ≠ blockLinks.key c := by
        intro c hcin he
        have hin := contains_hash_iff.mpr ⟨c, hcin, he.symm⟩
        simp only [blockLinks_key, hc] at hin
        cases hin
      have hiff := h.insert_iff (stored_finite _) (last_isTop h.root_mem) hkey
      rw [stored_put_new hc]
      simp only [forall_true_left]
      exact hiff.symm

/-- **The download keeps the chain linked exactly while it puts in order.** For
every node with a linked chain and whatever peers answer: the chain is linked
after every step of the download if and only if each block put under a new hash
is dated after the newest stored block at that moment and names it. -/
theorem download_keeps_linked_iff (D : Digest) (n : Node) (h : ChainLinked D n) (inputs : List Input) :
    (∀ pre, pre <+: inputs → ChainLinked D (run downloadStep (begin n) pre).node) ↔
      Along downloadStep PutsInOrder (begin n) inputs := by
  have hstep : ∀ (s : Download) (i : Input), ChainLinked D s.node →
      (PutsInOrder s i ↔ ChainLinked D (downloadStep s i).node) :=
    fun s i hs => chainLinked_step_iff hs
  exact throughout_iff_along (I := fun s : Download => ChainLinked D s.node) hstep inputs (s := begin n) h

/-! ### Closed runs -/

/-- A peer that holds the sample chain. -/
def samplePeer : Blockchain := insertBlocks DBInternface.empty sampleChain

/-- The download of a fresh node from one peer, up to the first `puts` puts: the
peer answers `headers`, and then each request from what it stores. -/
def downloadFrom (peer : Blockchain) (headers : List BlockHeader) (puts : ℕ) : List Input :=
  [.resume, .peersFound ["peer"], .headersResponse headers "peer", .resume] ++
    headers.map (fun header => .blockAnswer (onBlockRequest peer header)) ++
    .resume :: List.replicate puts .resume

/-- The peer lists its headers in key order, and here the newest block comes first. -/
def interruptedDownload : List Input :=
  downloadFrom samplePeer (getAllAfter samplePeer (createGenesisBlock sampleDigest).header) 1

theorem start_chainLinked (D : Digest) : ChainLinked D (start D) := by
  unfold ChainLinked
  rw [start, stored_fromPath_empty]
  exact linked_singleton _ _

theorem interrupted_download_unlinked :
    ChainLinked sampleDigest (start sampleDigest) ∧
      ¬ ChainLinked sampleDigest
        (run downloadStep (begin (start sampleDigest)) interruptedDownload).node := by
  refine ⟨start_chainLinked sampleDigest, ?_⟩
  intro h
  have hmem : sampleBlock "0000B1" "0000B2" 1670000002000 [] ∈
      (run downloadStep (begin (start sampleDigest)) interruptedDownload).node.blockchain.data := by
    decide +kernel
  have hnames : ∀ a ∈ (run downloadStep (begin (start sampleDigest)) interruptedDownload).node.blockchain.data,
      a.hash ≠ "0000B2" := by decide +kernel
  obtain ⟨a, ⟨ha, _, _⟩, hp⟩ := h.link _ hmem (by decide)
  exact hnames a ha hp.symm

theorem download_keeps_linked_iff_inOrder :
    ChainLinked sampleDigest (start sampleDigest) ∧
      ∀ pre, pre <+: downloadFrom samplePeer (sampleChain.tail.map Block.header) 2 →
        ChainLinked sampleDigest (run downloadStep (begin (start sampleDigest)) pre).node := by
  have hstart := start_chainLinked sampleDigest
  exact ⟨hstart, (download_keeps_linked_iff sampleDigest (start sampleDigest) hstart _).mpr (by decide +kernel)⟩

end Krapi.InitialDownload
