import Krapi.ProofOfWork

/-! # The chain that mining makes

The search of `mining_function` stops at the least nonce that passes the exit
test, and what it returns passes the validator's checks of a header. As each
hash is smaller than the one it builds on, the keys of a chain that only mining
adds to decrease with time: LevelDB, which iterates in the order of keys, lists
it newest first. -/
namespace Krapi.MinedChain
open Krapi.BlockchainModels Krapi.DBInterface Krapi.ChainStore Krapi.Validator Krapi.Pool
open Krapi.Handlers Krapi.ChainInvariant Krapi.Mining Krapi.ProofOfWork Krapi.Lib.Run Krapi.Lib.Timeline

variable {D : Digest} {previousHash identity merkleRoot : String} {timestamp nonce least : UInt64}
  {transactions : List Transaction} {chain : Blockchain} {b c : Block}

/-! ## The search -/

/-- The hash of a header with this nonce passes the exit test of the loop. -/
def ExitTest (D : Digest) (previousHash merkleRoot : String) (timestamp nonce : UInt64) : Prop :=
  startsWith (D.sha256Hex (preimage previousHash merkleRoot timestamp nonce)) "0000" = true ∧
    D.sha256Hex (preimage previousHash merkleRoot timestamp nonce) < previousHash

/-- The block that the loop makes when it stops at a nonce. -/
def blockAt (D : Digest) (previousHash identity merkleRoot : String) (timestamp : UInt64)
    (transactions : List Transaction) (nonce : UInt64) : Block where
  header := {
    hash := D.sha256Hex (preimage previousHash merkleRoot timestamp nonce)
    previousHash, merkleRoot, minedBy := identity, timestamp, nonce }
  transactions

theorem mineFrom_succ (fuel : ℕ) :
    (ExitTest D previousHash merkleRoot timestamp nonce →
      mineFrom D previousHash identity merkleRoot timestamp transactions (fuel + 1) nonce =
        some (blockAt D previousHash identity merkleRoot timestamp transactions nonce)) ∧
    (¬ ExitTest D previousHash merkleRoot timestamp nonce →
      mineFrom D previousHash identity merkleRoot timestamp transactions (fuel + 1) nonce =
        mineFrom D previousHash identity merkleRoot timestamp transactions fuel (nonce + 1)) := by
  have htest : (startsWith (D.sha256Hex (preimage previousHash merkleRoot timestamp nonce)) "0000" &&
      decide (D.sha256Hex (preimage previousHash merkleRoot timestamp nonce) < previousHash)) = true ↔
      ExitTest D previousHash merkleRoot timestamp nonce := by
    rw [Bool.and_eq_true, decide_eq_true_eq, ExitTest]
  refine ⟨?_, ?_⟩
  · intro h
    unfold mineFrom
    exact if_pos (htest.mpr h)
  · intro h
    rw [mineFrom]
    exact if_neg fun hexit => h (htest.mp hexit)

/-- The loop goes from one nonce to the least that passes, and the counter does not wrap on the way. -/
theorem mineFrom_least (hexit : ExitTest D previousHash merkleRoot timestamp least) {steps fuel : ℕ}
    (hsteps : nonce.toNat + steps = least.toNat) (hfuel : steps < fuel)
    (hbefore : ∀ m, nonce ≤ m → m < least → ¬ ExitTest D previousHash merkleRoot timestamp m) :
    mineFrom D previousHash identity merkleRoot timestamp transactions fuel nonce =
      some (blockAt D previousHash identity merkleRoot timestamp transactions least) := by
  obtain ⟨fuel, rfl⟩ : ∃ k, fuel = k + 1 := ⟨fuel - 1, by omega⟩
  induction steps generalizing nonce fuel with
  | zero =>
    have hnonce : nonce = least := UInt64.toNat_inj.mp hsteps
    rw [hnonce]
    exact (mineFrom_succ fuel).1 hexit
  | succ steps ih =>
    have hlt : nonce < least := by
      rw [UInt64.lt_iff_toNat_lt]
      omega
    have hbound : least.toNat < 2 ^ 64 := least.toNat_lt
    have hnext : (nonce + 1).toNat = nonce.toNat + 1 := by
      rw [UInt64.toNat_add]
      exact Nat.mod_eq_of_lt (by show nonce.toNat + 1 < 2 ^ 64; omega)
    obtain ⟨fuel, rfl⟩ : ∃ k, fuel = k + 1 := ⟨fuel - 1, by omega⟩
    rw [(mineFrom_succ _).2 (hbefore nonce le_rfl hlt)]
    have hlater : ∀ m, nonce + 1 ≤ m → m < least → ¬ ExitTest D previousHash merkleRoot timestamp m := by
      intro m hm hml
      apply hbefore m _ hml
      rw [UInt64.le_iff_toNat_le] at hm ⊢
      omega
    exact ih (by omega) hlater fuel (by omega)

theorem exists_least (h : ∃ nonce, ExitTest D previousHash merkleRoot timestamp nonce) :
    ∃ least, ExitTest D previousHash merkleRoot timestamp least ∧
      ∀ m < least, ¬ ExitTest D previousHash merkleRoot timestamp m := by
  obtain ⟨nonce, hnonce⟩ := h
  have hfound : ∃ k, ∃ m : UInt64, m.toNat = k ∧ ExitTest D previousHash merkleRoot timestamp m :=
    ⟨_, nonce, rfl, hnonce⟩
  classical
  obtain ⟨least, hleast, hexit⟩ := Nat.find_spec hfound
  refine ⟨least, hexit, ?_⟩
  intro m hm htest
  have hlt : m.toNat < Nat.find hfound := by
    rw [← hleast]
    exact UInt64.lt_iff_toNat_lt.mp hm
  exact Nat.find_min hfound hlt ⟨m, rfl, htest⟩

/-- The block that the search makes on the newest block passes the validator,
but for transactions that have been spent. -/
theorem validateBlock_blockAt (identity : String) (transactions : List Transaction)
    (hexit : ExitTest D chain.last.hash merkleRoot timestamp nonce)
    (htime : chain.last.timestamp < timestamp) :
    validateHeader chain.last.header
        (blockAt D chain.last.hash identity merkleRoot timestamp transactions nonce) = .success ∧
      ∀ store, validateBlock chain store
        (blockAt D chain.last.hash identity merkleRoot timestamp transactions nonce) ≠ .success →
        ∃ tx ∈ transactions, store.contains tx.hash = true := by
  refine ⟨validateHeader_success.mpr ⟨htime, hexit.1, rfl⟩, ?_⟩
  intro store hfails
  by_contra hnone
  apply hfails
  refine validateBlock_success.mpr ⟨htime, hexit.1, rfl, ?_⟩
  intro tx htx
  rw [Bool.eq_false_iff]
  exact fun hspent => hnone ⟨tx, htx, hspent⟩

/-! ## What mining adds to a chain -/

/-- `c` is what mining on the newest block returned, with the clock ahead of that
block, up to the status its transactions are stored with. -/
def MinedOnNewest (D : Digest) (chain : Blockchain) (c : Block) : Prop :=
  ∃ b identity clock fuel, miningFunction D chain.last.hash identity b.transactions clock fuel = some b ∧
    chain.last.timestamp < b.timestamp ∧ c.verified = b.verified

/-- A chain that began with the genesis block and to which only mining added. -/
inductive Grown (D : Digest) : Blockchain → Prop where
  | genesis : Grown D (fromPath D DBInternface.empty)
  | add {chain : Blockchain} {c : Block} : Grown D chain → MinedOnNewest D chain c → Grown D (chain.put c).2

/-- What every grown chain satisfies: each block but the first has a smaller hash
than the block it names. -/
structure Descends (D : Digest) (chain : Blockchain) : Prop where
  linked : Linked blockLinks (createGenesisBlock D) (stored chain)
  smaller : ∀ b ∈ chain.data, b ≠ createGenesisBlock D → b.hash < b.previousHash

theorem descends_genesis (D : Digest) : Descends D (fromPath D DBInternface.empty) := by
  have hstored := stored_fromPath_empty D
  refine ⟨hstored ▸ linked_singleton _ _, ?_⟩
  intro b hb hne
  have hin : b ∈ stored (fromPath D DBInternface.empty) := hb
  rw [hstored] at hin
  exact absurd hin hne

theorem Descends.put (h : Descends D chain) (hc : MinedOnNewest D chain c) : Descends D (chain.put c).2 := by
  obtain ⟨b, identity, clock, fuel, hmined, htime, heq⟩ := hc
  have hprev : c.previousHash = chain.last.hash := by
    rw [← Block.verified_previousHash c, heq, Block.verified_previousHash]
    exact mineFrom_previousHash hmined
  have htime' : chain.last.timestamp < c.timestamp := by
    rwa [← Block.verified_timestamp c, heq, Block.verified_timestamp]
  have hless : c.hash < c.previousHash := by
    have hcovered := (miningFunction_covered hmined).2.smaller
    rwa [← Block.verified_hash c, ← Block.verified_previousHash c, heq, Block.verified_hash,
      Block.verified_previousHash]
  cases hin : chain.contains c.hash with
  | true =>
    have hput : (chain.put c).2 = chain := DBInternface.put_of_contains hin
    rw [hput]
    exact h
  | false =>
    refine ⟨?_, ?_⟩
    · rw [stored_put_new hin]
      exact h.linked.insert_top (last_isTop h.linked.root_mem) htime' hprev
    · intro d hd hne
      rcases DBInternface.mem_put.mp hd with hd | ⟨rfl, _⟩
      · exact h.smaller d hd hne
      · exact hless

theorem Grown.descends (h : Grown D chain) : Descends D chain := by
  induction h with
  | genesis => exact descends_genesis D
  | add _ hc ih => exact ih.put hc

/-! ## The order of the keys -/

/-- Hashes decrease from block to block, and the store lists the newest first. -/
structure NewestFirst (chain : Blockchain) : Prop where
  decreasing : ∀ b ∈ chain.data, ∀ c ∈ chain.data, b.timestamp < c.timestamp → c.hash < b.hash
  data : chain.data.Pairwise fun b c => c.timestamp < b.timestamp
  getAllAfter : ∀ header, (getAllAfter chain header).Pairwise fun h h' => h'.timestamp < h.timestamp

theorem Descends.decreasing (h : Descends D chain) (hb : b ∈ chain.data) (hc : c ∈ chain.data)
    (htime : b.timestamp < c.timestamp) : c.hash < b.hash := by
  have hkey : Set.InjOn blockLinks.key (stored chain) :=
    fun _ hb _ hc he => DBInternface.eq_of_tag_eq hb hc he
  obtain ⟨P, hP, hfirst, hmem⟩ := h.linked.exists_listed (stored_finite chain) hkey
  -- in order of time each hash is below the one before it
  have hchain : P.IsChain fun b c => c.hash < b.hash := by
    rw [List.isChain_iff_getElem]
    intro i hi
    have hnext := List.getElem?_eq_getElem hi
    have hthis := List.getElem?_eq_getElem (show i < P.length by omega)
    have hne : P[i + 1] ≠ createGenesisBlock D := by
      intro he
      have hlater := hP.time_lt hfirst hnext (Nat.succ_pos i)
      rw [he] at hlater
      exact lt_irrefl _ hlater
    have hless := h.smaller P[i + 1] ((hmem _).mp (List.getElem_mem hi)) hne
    have hprev : P[i + 1].previousHash = P[i].hash := hP.prev_eq hthis hnext
    rwa [hprev] at hless
  have hpairs : P.Pairwise fun b c => c.hash < b.hash := by
    have htrans : Trans (fun b c : Block => c.hash < b.hash) (fun b c : Block => c.hash < b.hash)
        (fun b c : Block => c.hash < b.hash) := ⟨fun hab hbc => hbc.trans hab⟩
    exact hchain.pairwise
  obtain ⟨i, hi⟩ := List.mem_iff_getElem?.mp ((hmem b).mpr hb)
  obtain ⟨j, hj⟩ := List.mem_iff_getElem?.mp ((hmem c).mpr hc)
  have hij : i < j := (hP.time_lt_iff hi hj).mp htime
  obtain ⟨hi', rfl⟩ := List.getElem?_eq_some_iff.mp hi
  obtain ⟨hj', rfl⟩ := List.getElem?_eq_some_iff.mp hj
  exact List.pairwise_iff_getElem.mp hpairs i j hi' hj' hij

theorem Descends.newestFirst (h : Descends D chain) : NewestFirst chain := by
  have hdata : chain.data.Pairwise fun b c => c.timestamp < b.timestamp := by
    refine chain.data_sorted.imp_of_mem ?_
    intro b c hb hc hlt
    have hlt' : b.hash < c.hash := hlt
    rcases lt_trichotomy c.timestamp b.timestamp with hearlier | hsame | hlater
    · exact hearlier
    · rw [h.linked.distinct hc hb hsame] at hlt'
      exact absurd hlt' (lt_irrefl _)
    · exact absurd (h.decreasing hb hc hlater) (not_lt.mpr hlt'.le)
  refine ⟨fun b hb c hc => h.decreasing hb hc, hdata, ?_⟩
  exact getAllAfter_pairwise (R := fun h h' => h'.timestamp < h.timestamp) hdata

/-! ## Runs of a node -/

/-- What the event writes is what mining on the newest block returned. -/
def WritesMinedOnNewest (D : Digest) (n : Node) (e : Event) : Prop :=
  ∀ b ∈ written n e, ∃ identity clock fuel,
    miningFunction D n.blockchain.last.hash identity b.transactions clock fuel = some b

theorem grown_handle {n : Node} {e : Event} (hmined : WritesMinedOnNewest D n e) (h : Grown D n.blockchain) :
    Grown D (handle n e).blockchain := by
  rw [handle_blockchain]
  cases hw : written n e with
  | none => exact h
  | some b =>
    obtain ⟨identity, clock, fuel, hb⟩ := hmined b hw
    have htime := (validateBlock_success.mp (written_eq_some.mp hw).2.1).1
    exact h.add ⟨b, identity, clock, fuel, hb, htime, Block.verified_verified b⟩

theorem grown_run (pool : TransactionPool) (spent : SpentTransactionsStore) {es : List Event}
    (h : Along handle (WritesMinedOnNewest D) ⟨fromPath D DBInternface.empty, pool, spent⟩ es) :
    Grown D (run handle ⟨fromPath D DBInternface.empty, pool, spent⟩ es).blockchain :=
  run_keeps_along (I := fun n : Node => Grown D n.blockchain) (fun _ _ hmined h => grown_handle hmined h) es h
    Grown.genesis

/-- **The search ends at the least nonce, and mined chains are stored newest first.**
On a linked chain with its newest block `L`, for a batch that is not empty and a
clock ahead of `L`: if some nonce passes the exit test, then `mining_function`
stops at the least one that does, with a block that lists the batch as it is,
under the digest of its header, that passes `validate_header` after `L`, and that
`validate_block` turns down only for a spent transaction. Every chain to which
only mining on its newest block added, and so every chain after a run of a node
that writes nothing else, has decreasing hashes and is listed newest first. -/
theorem mining_least_and_newest_first (D : Digest) :
    (∀ (chain : Blockchain) (L : Block), Linked blockLinks (createGenesisBlock D) (stored chain) →
      IsTop blockLinks (stored chain) L →
      ∀ (identity : String) (batch : List Transaction), batch ≠ [] → ∀ clock, L.timestamp < clock →
      (∃ nonce, ExitTest D L.hash (D.merkleRoot (batch.map Transaction.hash)) clock nonce) →
      ∃ (least : UInt64) (b : Block),
        ExitTest D L.hash (D.merkleRoot (batch.map Transaction.hash)) clock least ∧
        (∀ m < least, ¬ ExitTest D L.hash (D.merkleRoot (batch.map Transaction.hash)) clock m) ∧
        (∀ fuel, least.toNat < fuel → miningFunction D L.hash identity batch clock fuel = some b) ∧
        b.transactions = batch ∧ b.header.nonce = least ∧
        b.hash = D.sha256Hex (preimage b.previousHash b.header.merkleRoot b.timestamp b.header.nonce) ∧
        validateHeader L.header b = .success ∧
        ∀ store, validateBlock chain store b ≠ .success → ∃ tx ∈ batch, store.contains tx.hash = true) ∧
    (∀ chain, Grown D chain → NewestFirst chain) ∧
    ∀ pool spent es, Along handle (WritesMinedOnNewest D) ⟨fromPath D DBInternface.empty, pool, spent⟩ es →
      NewestFirst (run handle ⟨fromPath D DBInternface.empty, pool, spent⟩ es).blockchain := by
  refine ⟨?_, fun chain h => h.descends.newestFirst, fun pool spent es h =>
    (grown_run pool spent h).descends.newestFirst⟩
  intro chain L hlinked htop identity batch _ clock htime hexit
  obtain rfl : chain.last = L := last_eq_of_isTop hlinked.root_mem hlinked.distinct htop
  obtain ⟨least, hleast, hbefore⟩ := exists_least hexit
  obtain ⟨hheader, hblock⟩ := validateBlock_blockAt identity batch hleast htime
  refine ⟨least, _, hleast, hbefore, ?_, rfl, rfl, rfl, hheader, hblock⟩
  intro fuel hfuel
  have hfromZero : (0 : UInt64).toNat + least.toNat = least.toNat := Nat.zero_add _
  exact mineFrom_least hleast hfromZero hfuel fun m _ hm => hbefore m hm

/-- What mining the five votes on the genesis block gives. -/
def votesBlock : Block :=
  blockAt votesDigest genesisHash "miner" (votesDigest.merkleRoot (votes.map Transaction.hash)) 1670000027667 votes 0

theorem votes_exitTest : ExitTest votesDigest genesisHash (votesDigest.merkleRoot (votes.map Transaction.hash))
    1670000027667 0 := ⟨by decide +kernel, by decide +kernel⟩

theorem votesBlock_mined : miningFunction votesDigest genesisHash "miner" votes 1670000027667 1 = some votesBlock := by
  unfold miningFunction votesBlock
  exact (mineFrom_succ 0).1 votes_exitTest

theorem mining_least_and_newest_first_votes :
    (∃ b, miningFunction votesDigest genesisHash "miner" votes 1670000027667 1 = some b ∧
      validateHeader (createGenesisBlock votesDigest).header b = .success) ∧
    NewestFirst (run handle (start votesDigest) [.addBlock "peer" votesBlock]).blockchain := by
  have hinv := chainInv_fromPath_empty votesDigest
  have hgenesis : (createGenesisBlock votesDigest).hash = genesisHash := by decide +kernel
  have hlast : (fromPath votesDigest DBInternface.empty).last = createGenesisBlock votesDigest := by
    have htop := hinv.last_isTop.1
    rw [stored_fromPath_empty] at htop
    exact htop
  refine ⟨?_, ?_⟩
  · obtain ⟨least, b, _, hbefore, hmined, _, _, _, hheader, _⟩ :=
      (mining_least_and_newest_first votesDigest).1 _ _ hinv.linked (hlast ▸ hinv.last_isTop) "miner" votes
        (by decide) 1670000027667 (by decide) ⟨0, hgenesis ▸ votes_exitTest⟩
    rw [hgenesis] at hbefore hmined
    have hzero : least = 0 := by
      by_contra hne
      have hpos : (0 : UInt64) < least := by
        rw [UInt64.lt_iff_toNat_lt]
        exact Nat.pos_of_ne_zero fun h => hne (UInt64.toNat_inj.mp h)
      exact hbefore 0 hpos votes_exitTest
    exact ⟨b, hmined 1 (by rw [hzero]; decide), hheader⟩
  · apply (mining_least_and_newest_first votesDigest).2.2
    refine ⟨?_, trivial⟩
    intro b hb
    obtain rfl : votesBlock = b := Option.some.inj (written_eq_some.mp hb).1
    have hprevious : (fromPath votesDigest DBInternface.empty).last.hash = genesisHash := hlast ▸ hgenesis
    exact ⟨"miner", 1670000027667, 1, (congrArg (miningFunction votesDigest · "miner" votes 1670000027667 1)
      hprevious).trans votesBlock_mined⟩

end Krapi.MinedChain
