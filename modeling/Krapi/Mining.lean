import Krapi.BlockchainModels

/-! # The search for a nonce

`mining_function` of `Miner.h`. The loop has no bound of its own, so `fuel`
counts its rounds; a search that runs out of fuel is one still going on. -/
namespace Krapi.Mining
open Krapi.BlockchainModels

/-- The string whose digest is the block hash. -/
def preimage (previousHash merkleRoot : String) (timestamp nonce : UInt64) : String :=
  previousHash ++ merkleRoot ++ toString timestamp.toNat ++ toString nonce.toNat

/-- The loop of `mining_function` from `nonce` on; the counter wraps as `uint64_t` does. -/
def mineFrom (D : Digest) (previousHash identity merkleRoot : String) (timestamp : UInt64)
    (transactions : List Transaction) : ℕ → UInt64 → Option Block
  | 0, _ => none
  | fuel + 1, nonce =>
    let blockHash := D.sha256Hex (preimage previousHash merkleRoot timestamp nonce)
    if startsWith blockHash "0000" && decide (blockHash < previousHash) then
      some {
        header := { hash := blockHash, previousHash, merkleRoot, minedBy := identity, timestamp, nonce }
        transactions }
    else mineFrom D previousHash identity merkleRoot timestamp transactions fuel (nonce + 1)

/-- `clock` is the reading of `get_krapi_timestamp`, taken once before the loop. -/
def miningFunction (D : Digest) (previousHash identity : String) (transactions : List Transaction)
    (clock : UInt64) (fuel : ℕ) : Option Block :=
  let merkleRoot := D.merkleRoot (transactions.map Transaction.hash)
  mineFrom D previousHash identity merkleRoot clock transactions fuel 0

variable {D : Digest} {previousHash identity merkleRoot : String} {timestamp : UInt64}
  {transactions : List Transaction} {b : Block}

theorem mineFrom_transactions {fuel : ℕ} {nonce : UInt64}
    (h : mineFrom D previousHash identity merkleRoot timestamp transactions fuel nonce = some b) :
    b.transactions = transactions := by
  induction fuel generalizing nonce with
  | zero => cases h
  | succ fuel ih =>
    unfold mineFrom at h
    simp only at h
    split at h
    · cases h; rfl
    · exact ih h

theorem mineFrom_previousHash {fuel : ℕ} {nonce : UInt64}
    (h : mineFrom D previousHash identity merkleRoot timestamp transactions fuel nonce = some b) :
    b.previousHash = previousHash := by
  induction fuel generalizing nonce with
  | zero => cases h
  | succ fuel ih =>
    unfold mineFrom at h
    simp only at h
    split at h
    · cases h; rfl
    · exact ih h

theorem mineFrom_hash {fuel : ℕ} {nonce : UInt64}
    (h : mineFrom D previousHash identity merkleRoot timestamp transactions fuel nonce = some b) :
    b.hash = D.sha256Hex (preimage b.previousHash b.header.merkleRoot b.timestamp b.header.nonce) := by
  induction fuel generalizing nonce with
  | zero => cases h
  | succ fuel ih =>
    unfold mineFrom at h
    simp only at h
    split at h
    · cases h; rfl
    · exact ih h

/-- A mined block lists the batch it was mined from. -/
theorem miningFunction_transactions {clock : UInt64} {fuel : ℕ}
    (h : miningFunction D previousHash identity transactions clock fuel = some b) :
    b.transactions = transactions := mineFrom_transactions h

/-! ## Values for closed runs -/

/-- Five votes as wallets make them: each hash is the digest of `send_tx`, the
timestamp and both identities. -/
def votes : List Transaction :=
  [vote "87151E90F95A24E8B940A87A8DF794202F841DE4E1D237E3A16B936EDDE8685A" 1670000000000 "voter1",
    vote "C356AA526A68EAC06C8E2418A21A037272A62F0E10B22DD2D52608FDC6807682" 1670000000001 "voter2",
    vote "D16671A44EE4BCCEAA5723F7ABF74FC6C97CEA336C0B9E708D3D7CAA79D8C03E" 1670000000002 "voter3",
    vote "1A6DFFA15819B3E95683B608626EB81C71E631D520B16F1C9CA3DB24E5A9B550" 1670000000003 "voter4",
    vote "0408D88FAF79B17E1D193B585B4D6E268D2D5B3FD4392B39837134C981028592" 1670000000004 "voter5"]
where
  vote (hash : String) (timestamp : UInt64) (voter : String) : Transaction :=
    { type := .send, status := .pending, hash, timestamp, from_ := voter, to_ := "candidate" }

/-- The actual digests of what two miners hash that mine the five votes on the
genesis block with the clock at 1670000027667 and 1670000071281; both find the
nonce 0. -/
def votesDigest : Digest where
  sha256Hex s :=
    if s = "0016685426250" then "6FBA8017848885FB34C183BF4B6015D9C53307ABCD1F86505A271ED4B387265A"
    else if s = "6FBA8017848885FB34C183BF4B6015D9C53307ABCD1F86505A271ED4B387265A" ++
        "BFA686A64057E2AB97AD87B7B9B5973FA757DC5FE104364AE6D49F61698DE7F3" ++ "16700000276670" then
      "0000BC31B8EF9E6C64CAA158C4324C119ABA5A1B2AB2AE072B99BD9F300A1156"
    else if s = "6FBA8017848885FB34C183BF4B6015D9C53307ABCD1F86505A271ED4B387265A" ++
        "BFA686A64057E2AB97AD87B7B9B5973FA757DC5FE104364AE6D49F61698DE7F3" ++ "16700000712810" then
      "00004E4EB144489D2017DCDF3A06C9227A2E94141D959EC48952E16E8E4ACD16"
    else ""
  merkleRoot hashes :=
    if hashes = votes.map Transaction.hash then
      "BFA686A64057E2AB97AD87B7B9B5973FA757DC5FE104364AE6D49F61698DE7F3"
    else ""

end Krapi.Mining
