import Mathlib

/-! # Transactions, headers and blocks

The values of `BlockchainModels/`. Strings are `String`: every value passes
through JSON, so it is valid UTF-8, and the byte order LevelDB iterates in is
then the order of `String`. The byte arrays that the constructors decode from
the hash strings are derived data and are left out. -/
namespace Krapi.BlockchainModels

/-- The order of `uint64_t`. -/
instance instLinearOrderUInt64 : LinearOrder UInt64 where
  le_refl := UInt64.le_refl
  le_trans := fun _ _ _ => UInt64.le_trans
  lt_iff_le_not_ge a b := by
    simp only [UInt64.lt_iff_toNat_lt, UInt64.le_iff_toNat_le]; omega
  le_antisymm := fun _ _ => UInt64.le_antisymm
  le_total := UInt64.le_total
  toDecidableLE := inferInstance

/-- `std::string::starts_with`. -/
def startsWith (s p : String) : Bool := p.toList.isPrefixOf s.toList

/-- What the node computes with CryptoPP and merklecpp: the hexadecimal SHA-256
of a string, and the Merkle root over a list of transaction hashes. -/
structure Digest where
  sha256Hex : String → String
  merkleRoot : List String → String

inductive TransactionType where
  | send
  deriving Repr, DecidableEq

inductive TransactionStatus where
  | pending | verified | rejected
  deriving Repr, DecidableEq

structure Transaction where
  type : TransactionType
  status : TransactionStatus
  hash : String
  timestamp : UInt64
  from_ : String
  to_ : String
  deriving Repr, DecidableEq

def Transaction.tag (tx : Transaction) : String := tx.hash

def Transaction.setStatus (tx : Transaction) (status : TransactionStatus) : Transaction :=
  { tx with status := status }

@[simp] theorem Transaction.setStatus_hash (tx : Transaction) (status : TransactionStatus) :
    (tx.setStatus status).hash = tx.hash := rfl

@[simp] theorem Transaction.setStatus_status (tx : Transaction) (status : TransactionStatus) :
    (tx.setStatus status).status = status := rfl

@[simp] theorem Transaction.setStatus_setStatus (tx : Transaction) (s₁ s₂ : TransactionStatus) :
    (tx.setStatus s₁).setStatus s₂ = tx.setStatus s₂ := rfl

structure BlockHeader where
  hash : String := ""
  previousHash : String := ""
  merkleRoot : String := ""
  minedBy : String := ""
  timestamp : UInt64 := 0
  nonce : UInt64 := 0
  deriving Repr, DecidableEq

structure Block where
  header : BlockHeader := {}
  transactions : List Transaction := []
  deriving Repr, DecidableEq

namespace Block

/-- The default-constructed block that `last()` starts its scan from. -/
instance : Inhabited Block := ⟨{}⟩

def hash (b : Block) : String := b.header.hash

def tag (b : Block) : String := b.header.hash

def timestamp (b : Block) : UInt64 := b.header.timestamp

def previousHash (b : Block) : String := b.header.previousHash

def setTransactionsStatus (b : Block) (status : TransactionStatus) : Block :=
  { b with transactions := b.transactions.map fun tx => tx.setStatus status }

/-- The block as a node stores it once validated; also the normal form in which
blocks that differ only in the status of their transactions agree. -/
def verified (b : Block) : Block := b.setTransactionsStatus .verified

/-- The hashes of the transactions a block lists, in order. -/
def hashes (b : Block) : List String := b.transactions.map Transaction.hash

@[simp] theorem verified_header (b : Block) : b.verified.header = b.header := rfl

@[simp] theorem verified_hash (b : Block) : b.verified.hash = b.hash := rfl

@[simp] theorem verified_tag (b : Block) : b.verified.tag = b.tag := rfl

@[simp] theorem verified_timestamp (b : Block) : b.verified.timestamp = b.timestamp := rfl

@[simp] theorem verified_previousHash (b : Block) : b.verified.previousHash = b.previousHash := rfl

@[simp] theorem verified_verified (b : Block) : b.verified.verified = b.verified := by
  simp [verified, setTransactionsStatus]

@[simp] theorem verified_hashes (b : Block) : b.verified.hashes = b.hashes := by
  simp [hashes, verified, setTransactionsStatus]

/-- Every transaction of a block stored as validated is `Verified`. -/
theorem status_of_mem_verified {b : Block} {tx : Transaction} (h : tx ∈ b.verified.transactions) :
    tx.status = .verified := by
  obtain ⟨t, _, rfl⟩ := List.mem_map.mp h
  rfl

/-- A block of `Verified` transactions is stored as it is. -/
theorem verified_of_status {b : Block} (h : ∀ tx ∈ b.transactions, tx.status = .verified) :
    b.verified = b := by
  have hmap : b.transactions.map (fun tx => tx.setStatus .verified) = b.transactions := by
    refine (List.map_congr_left ?_).trans (List.map_id _)
    intro tx htx
    rw [Transaction.setStatus, ← h tx htx]; rfl
  rw [verified, setTransactionsStatus, hmap]

theorem mem_hashes {b : Block} {h : String} :
    h ∈ b.hashes ↔ ∃ tx ∈ b.transactions, tx.hash = h := List.mem_map

end Block

end Krapi.BlockchainModels
