import Krapi.DBInterface
import Krapi.Lib.Timeline

/-! # The store of blocks

`Blockchain` is a `DBInternface<Block>`: blocks lie under their hashes, and the
sequence they form is recovered from timestamps. `blockLinks` is how the
general theory of linked sets reads a block. -/
namespace Krapi.ChainStore
open Krapi.BlockchainModels Krapi.DBInterface Krapi.Lib.Timeline

abbrev Blockchain := DBInternface Block

/-- The header of the genesis block is hashed like a mined one. -/
def createGenesisBlock (D : Digest) : Block :=
  let previousHash := "0"
  let merkleRoot := "0"
  let minedBy := "0"
  let timestamp : UInt64 := 1668542625
  let nonce : UInt64 := 0
  { header := {
      hash := D.sha256Hex (previousHash ++ merkleRoot ++ toString timestamp.toNat ++ toString nonce.toNat)
      previousHash, merkleRoot, minedBy, timestamp, nonce }
    transactions := [] }

/-- A digest that gives the genesis block its actual hash, for closed runs in
which nothing else is hashed. -/
def sampleDigest : Digest where
  sha256Hex s :=
    if s = "0016685426250" then "6FBA8017848885FB34C183BF4B6015D9C53307ABCD1F86505A271ED4B387265A"
    else ""
  merkleRoot _ := ""

/-- The constructor `Blockchain(path)` on the database found under `path`. -/
def fromPath (D : Digest) (stored : Blockchain) : Blockchain :=
  if stored.size = 0 then (stored.put (createGenesisBlock D)).2 else stored

/-- The headers newer than `header`, in the key order of the store. -/
def getAllAfter (chain : Blockchain) (header : BlockHeader) : List BlockHeader :=
  chain.data.filterMap fun block =>
    if block.hash.isEmpty then none
    else if block.header.timestamp > header.timestamp then some block.header else none

/-! ## Blocks as linked records -/

def blockLinks : Links Block UInt64 String where
  time := Block.timestamp
  key := Block.hash
  prev := Block.previousHash

@[simp] theorem blockLinks_time (b : Block) : blockLinks.time b = b.timestamp := rfl

@[simp] theorem blockLinks_key (b : Block) : blockLinks.key b = b.hash := rfl

@[simp] theorem blockLinks_prev (b : Block) : blockLinks.prev b = b.previousHash := rfl

/-- The blocks a chain holds. -/
def stored (chain : Blockchain) : Set Block := {b | b ∈ chain.data}

@[simp] theorem mem_stored {chain : Blockchain} {b : Block} : b ∈ stored chain ↔ b ∈ chain.data :=
  Iff.rfl

theorem stored_finite (chain : Blockchain) : (stored chain).Finite := List.finite_toSet chain.data

theorem stored_put_new {chain : Blockchain} {b : Block} (h : chain.contains b.hash = false) :
    stored (chain.put b).2 = insert b (stored chain) := by
  ext c
  have hc : chain.contains (tag b) = false := h
  simp only [mem_stored, DBInternface.mem_put, hc, and_true, Set.mem_insert_iff]
  exact or_comm

theorem contains_hash_iff {chain : Blockchain} {h : String} :
    chain.contains h = true ↔ ∃ b ∈ chain.data, b.hash = h := DBInternface.contains_iff

@[simp] theorem genesis_timestamp (D : Digest) : (createGenesisBlock D).timestamp = 1668542625 := rfl

@[simp] theorem genesis_transactions (D : Digest) : (createGenesisBlock D).transactions = [] := rfl

@[simp] theorem genesis_verified (D : Digest) :
    (createGenesisBlock D).verified = createGenesisBlock D := rfl

theorem genesis_newer_than_default (D : Digest) :
    (default : Block).timestamp < (createGenesisBlock D).timestamp := by
  rw [genesis_timestamp]; decide

/-- A node's first start leaves exactly the genesis block. -/
theorem stored_fromPath_empty (D : Digest) :
    stored (fromPath D DBInternface.empty) = {createGenesisBlock D} := by
  have hsize : (DBInternface.empty : Blockchain).size = 0 := by simp [DBInternface.size]
  rw [fromPath, if_pos hsize, stored_put_new (by simp)]
  ext c
  simp

/-- A chain that holds the genesis block finds its newest block by the scan. -/
theorem last_isTop {D : Digest} {chain : Blockchain} (h : createGenesisBlock D ∈ chain.data) :
    IsTop blockLinks (stored chain) chain.last :=
  ⟨DBInternface.last_mem h (genesis_newer_than_default D), fun _ hc => DBInternface.timestamp_le_last hc⟩

/-- The scan finds any block known to be the newest. -/
theorem last_eq_of_isTop {D : Digest} {chain : Blockchain} {b : Block}
    (hg : createGenesisBlock D ∈ chain.data) (hd : Set.InjOn Block.timestamp (stored chain))
    (hb : IsTop blockLinks (stored chain) b) : chain.last = b := by
  have ht := last_isTop hg
  exact hd ht.1 hb.1 (le_antisymm (hb.2 _ ht.1) (ht.2 _ hb.1))

theorem mem_getAllAfter {chain : Blockchain} {header h : BlockHeader} :
    h ∈ getAllAfter chain header ↔
      ∃ b ∈ chain.data, b.header = h ∧ b.hash.isEmpty = false ∧ header.timestamp < b.timestamp := by
  simp only [getAllAfter, List.mem_filterMap]
  constructor
  · intro ⟨b, hb, he⟩
    split at he
    · cases he
    · rename_i hne
      split at he
      · rename_i hlt
        exact ⟨b, hb, Option.some.inj he, by simpa using hne, hlt⟩
      · cases he
  · intro ⟨b, hb, he, hne, hlt⟩
    subst he
    have hlt' : header.timestamp < b.header.timestamp := hlt
    exact ⟨b, hb, by simp [hne, hlt']⟩

/-- What holds between the headers of any two blocks in key order holds in the answer. -/
theorem getAllAfter_pairwise {chain : Blockchain} {R : BlockHeader → BlockHeader → Prop}
    (h : chain.data.Pairwise fun b c => R b.header c.header) (header : BlockHeader) :
    (getAllAfter chain header).Pairwise R := by
  have hfrom : ∀ (b : Block) (h : BlockHeader), (if b.hash.isEmpty then none
      else if b.header.timestamp > header.timestamp then some b.header else none) = some h →
      b.header = h := by
    intro b h he
    split at he
    · cases he
    · split at he
      · exact Option.some.inj he
      · cases he
  rw [getAllAfter, List.pairwise_filterMap]
  refine h.imp ?_
  intro b c hR h hb h' hc
  rw [← hfrom b h hb, ← hfrom c h' hc]
  exact hR

/-- The headers of one answer are distinct. -/
theorem getAllAfter_nodup (chain : Blockchain) (header : BlockHeader) :
    (getAllAfter chain header).Nodup := by
  apply getAllAfter_pairwise
  refine chain.data_nodup.imp_of_mem ?_
  intro b c hb hc hne he
  exact hne (DBInternface.eq_of_tag_eq hb hc (congrArg BlockHeader.hash he))

/-! ## Values for closed runs -/

/-- A vote as a wallet hands it out. -/
def sampleVote (hash : String) : Transaction where
  type := .send
  status := .pending
  hash := hash
  timestamp := 1670000000000
  from_ := "voter"
  to_ := "candidate"

/-- A block with the given header fields. -/
def sampleBlock (hash previousHash : String) (timestamp : UInt64) (txs : List Transaction) : Block where
  header := { hash, previousHash, merkleRoot := "", minedBy := "miner", timestamp, nonce := 0 }
  transactions := txs

/-- The hash of the genesis block. -/
def genesisHash : String := "6FBA8017848885FB34C183BF4B6015D9C53307ABCD1F86505A271ED4B387265A"

end Krapi.ChainStore
