import Krapi.Provenance
import Krapi.Conservation

/-! # What a wallet is told

`on_block_mined` tells the sender of each vote in a block that it is verified and
forwards the vote to its receiver, whether or not `put` wrote the block. A wallet
believes it. Where blocks with one hash are equally dated, as with a digest without
collisions, a block that passes is always written, and blocks stay: so whatever a
wallet calls verified lies on the chain of a full node and will lie there, however
late the message came and however often. -/
namespace Krapi.Receipts
open Krapi.BlockchainModels Krapi.DBInterface Krapi.ChainStore Krapi.Validator Krapi.Pool Krapi.Handlers
open Krapi.Mining Krapi.Miner Krapi.InitialDownload Krapi.Swarm Krapi.Provenance
open Krapi.Lib.Run Krapi.Lib.Gossip
open Krapi.Wallets (Wallet newTransaction)
open Krapi.Conservation (OnChain)

variable {D : Digest} {roster : String → PeerType} {moves : List SwarmMove} {wallets : String → Wallet}
  {id : String} {s : Station} {b : Block}

/-! ## Chains grow -/

/-- Whatever a full node does, what is on its chain stays. -/
theorem get_act (D : Digest) (id : String) (s : Station) (a : PartyAction) {k : String}
    (h : s.full.node.blockchain.get k = some b) : (s.act D id a).1.full.node.blockchain.get k = some b := by
  have hdownload : ∀ (t : Station) (i : Input), t.full.node.blockchain.get k = some b →
      (t.download id i).1.full.node.blockchain.get k = some b := by
    intro t i ht
    show (downloadStep ⟨t.full.node, t.stage, []⟩ i).node.blockchain.get k = some b
    rw [downloadStep_blockchain]
    cases nextPut ⟨t.full.node, t.stage, []⟩ i with
    | none => exact ht
    | some c =>
      have hin : t.full.node.blockchain.contains k = true := by simp [DBInternface.contains, ht]
      simp [DBInternface.get_put, hin, ht]
  cases a with
  | processOne room awaited =>
    have hfull : (processOne s.full room).1.node.blockchain.get k = some b := by
      unfold processOne
      split
      · exact h
      · rename_i e rest _
        rw [dispatch_node]
        cases e.event? room with
        | none => exact h
        | some event => exact ChainInvariant.blockchain_get_handle s.full.node event h
    simp only [Station.act]
    split
    · exact hdownload _ _ hfull
    · exact hfull
  | miner clock fuel =>
    show (minerStep D id clock fuel s.full).1.node.blockchain.get k = some b
    rw [(minerStep_stores D id clock fuel s.full).1]
    exact h
  | resumeDownload => exact hdownload s .resume h
  | peersFound identities => exact hdownload s (.peersFound identities) h
  | syncPool =>
    obtain ⟨full, stage, syncRequests⟩ := s
    cases syncRequests <;> exact h
  | createTransaction clock receiverId => exact h

/-- A block that is let in is written, unless its hash is taken. -/
theorem mem_of_admits {a : PartyAction} (h : s.admits a = some b)
    (hnew : s.full.node.blockchain.contains b.hash = false) :
    b.verified ∈ (s.act D id a).1.full.node.blockchain.data := by
  obtain ⟨room, awaited, e, rest, rfl, hevents, hb, hacc⟩ := admits_eq_some h
  have hblock : ∃ event, e.event? room = some event ∧ event.block? = some b := Option.bind_eq_some_iff.mp hb
  obtain ⟨event, hevent, hbe⟩ := hblock
  have hput : (processOne s.full room).1.node = addValidated s.full.node b.verified := by
    have hdispatched := dispatch_node { s.full with events := rest } room e
    rw [hevent, Option.map_some, Option.getD_some, handle_block _ hbe, if_pos hacc] at hdispatched
    unfold processOne
    rw [hevents]
    exact hdispatched
  -- an event that carries a block answers no request of the download
  have hanswer : answer? e = none := by
    cases e with
    | received sender message => cases message <;> first | rfl | cases hevent
    | _ => rfl
  have hnode : (s.act D id (.processOne room awaited)).1.full.node = addValidated s.full.node b.verified := by
    simp only [Station.act, hevents, List.head?_cons, Option.bind_some, hanswer, Option.filter_none]
    exact hput
  rw [hnode, addValidated_blockchain]
  exact DBInternface.mem_put.mpr (.inr ⟨rfl, hnew⟩)

/-- Where blocks with one hash are equally dated, the hash of a block that passes is not taken. -/
theorem not_contains_of_accepts {n : Node} (hacc : Accepts n b)
    (hagree : ∀ c ∈ n.blockchain.data, c.hash = b.hash → c.timestamp = b.timestamp) :
    n.blockchain.contains b.hash = false := by
  rw [Bool.eq_false_iff]
  intro hin
  obtain ⟨c, hc, htag⟩ := DBInternface.contains_iff.mp hin
  have hlater : n.blockchain.last.timestamp < b.timestamp := (validateBlock_success.mp hacc).1
  have hle : c.timestamp ≤ n.blockchain.last.timestamp := DBInternface.timestamp_le_last hc
  rw [hagree c hc htag] at hle
  exact absurd hlater (not_lt.mpr hle)

/-! ## What is told is so -/

/-- The hashes that a node's chain lists. -/
def known : Party → String → Prop
  | .full s, hash => OnChain s.full.node hash
  | _, _ => False

/-- Among what comes from the run: `Verified` is only said of hashes in `E`, by itself or
in a block. -/
def told (D : Digest) (roster : String → PeerType) (wallets : String → Wallet) (moves : List SwarmMove)
    (E : String → Prop) : Vouched where
  loose tx := Cast D roster moves tx ∧ (tx.status = .verified → E tx.hash)
  told status hash := status = .verified → E hash
  block b := (fromRun D roster wallets moves).block b ∧ ∀ tx ∈ b.transactions, tx.status = .verified → E tx.hash

/-- A wallet calls verified what lies on a chain, or what it called so before. -/
def Believed (E : String → Prop) (before : Wallet) (tx : Transaction) : Prop :=
  tx.status = .verified → E tx.hash ∨ ∃ t ∈ before.data, t.hash = tx.hash ∧ t.status = .verified

def PartyTold (D : Digest) (roster : String → PeerType) (moves : List SwarmMove) (wallets : String → Wallet)
    (E : String → Prop) (id : String) : Party → Prop
  | .full s => roster id = .full ∧ StationSound (told D roster wallets moves E) s
  | .light w => roster id = .light ∧ WalletSound (Believed E (wallets id)) w
  | .other => True

section Mono
variable {E E' : String → Prop}

theorem told_implies (h : ∀ hash, E hash → E' hash) :
    (told D roster wallets moves E).Implies (told D roster wallets moves E') where
  loose := fun _ htx => ⟨htx.1, fun hv => h _ (htx.2 hv)⟩
  told := fun _ hash ht hv => h hash (ht hv)
  block := fun _ hb => ⟨hb.1, fun tx htx hv => h _ (hb.2 tx htx hv)⟩

theorem walletTold_mono (h : ∀ hash, E hash → E' hash) {before w : Wallet}
    (hw : WalletSound (Believed E before) w) : WalletSound (Believed E' before) w :=
  fun tx htx hv => (hw tx htx hv).imp_left (h _)

theorem partyTold_mono (h : ∀ hash, E hash → E' hash) {p : Party}
    (hp : PartyTold D roster moves wallets E id p) : PartyTold D roster moves wallets E' id p := by
  cases p with
  | full s => exact ⟨hp.1, hp.2.mono (told_implies h)⟩
  | light w => exact ⟨hp.1, walletTold_mono h hp.2⟩
  | other => trivial

end Mono

/-- The genesis block and what `mining_function` returned in the run. -/
def blocksOfRun (D : Digest) (roster : String → PeerType) (wallets : String → Wallet) (moves : List SwarmMove) :
    List Block :=
  createGenesisBlock D :: (minedInRun D roster wallets moves).map fun mined => mined.2.2

/-- Of the blocks of the run, those with one hash are equally dated. -/
def OneDatePerHash (D : Digest) (roster : String → PeerType) (wallets : String → Wallet)
    (moves : List SwarmMove) : Prop :=
  ∀ b ∈ blocksOfRun D roster wallets moves, ∀ c ∈ blocksOfRun D roster wallets moves, b.hash = c.hash →
    b.timestamp = c.timestamp

instance (D : Digest) (roster : String → PeerType) (wallets : String → Wallet) (moves : List SwarmMove) :
    Decidable (OneDatePerHash D roster wallets moves) :=
  inferInstanceAs (Decidable (∀ _ ∈ _, ∀ _ ∈ _, _ → _))

/-- A block that nodes come across is one of the run, but for the status of its transactions. -/
theorem exists_mem_blocksOfRun (h : (fromRun D roster wallets moves).block b) :
    ∃ c ∈ blocksOfRun D roster wallets moves, c.verified = b.verified := by
  rcases h with rfl | h
  · exact ⟨createGenesisBlock D, List.mem_cons_self, rfl⟩
  · obtain ⟨c, hc, hsame⟩ := h.made
    exact ⟨c, List.mem_cons_of_mem _ (List.mem_map_of_mem hc), hsame⟩

theorem OneDatePerHash.eq_timestamp (hdate : OneDatePerHash D roster wallets moves) {c : Block}
    (hb : (fromRun D roster wallets moves).block b) (hc : (fromRun D roster wallets moves).block c)
    (h : b.hash = c.hash) : b.timestamp = c.timestamp := by
  obtain ⟨b', hb', hbb⟩ := exists_mem_blocksOfRun hb
  obtain ⟨c', hc', hcc⟩ := exists_mem_blocksOfRun hc
  have hhash : b'.hash = c'.hash := (congrArg Block.hash hbb).trans (h.trans (congrArg Block.hash hcc).symm)
  calc b.timestamp = b'.timestamp := (congrArg Block.timestamp hbb).symm
    _ = c'.timestamp := hdate b' hb' c' hc' hhash
    _ = c.timestamp := (congrArg Block.timestamp hcc :)

section Steps
variable {E : String → Prop} {id : String}

/-- What a step of a full node stores is on its chain from then on, so it may tell of it. -/
theorem teaches_full (hdate : OneDatePerHash D roster wallets moves) {s : Station} {a : PartyAction}
    (htaken : Taken D roster wallets moves id (.full s) a) (hp : PartyTold D roster moves wallets E id (.full s)) :
    Teaches.Step known (PartyTold D roster moves wallets) (fun E => PacketSound (told D roster wallets moves E)) E id
      (.full s) (.full (s.act D id a).1, (s.act D id a).2) := by
  obtain ⟨hfull, hs⟩ := hp
  let V := told D roster wallets moves (Taught known E (.full (s.act D id a).1))
  have hact : StationSound V (s.act D id a).1 ∧ ∀ packet ∈ (s.act D id a).2, PacketSound V packet :=
    (hs.mono (told_implies fun _ h => .inl h)).act a
      (by
        rintro clock fuel rfl latestHash batch c hphase hbatch hc
        refine ⟨.inr (minted_of_taken hfull htaken hphase (fun tx htx => (hbatch tx htx).1) hc), ?_⟩
        rw [miningFunction_transactions hc]
        exact fun tx htx => (hbatch tx htx).2)
      (by
        intro c hc hblock
        obtain ⟨_, _, _, _, _, _, _, hacc⟩ := admits_eq_some hc
        have hnew := not_contains_of_accepts hacc fun d hd hhash =>
          hdate.eq_timestamp (hs.node.chain d hd).1 hblock.1 hhash
        have hlisted : ∀ tx ∈ c.verified.transactions, OnChain (s.act D id a).1.full.node tx.hash :=
          fun tx htx => ⟨c.verified, mem_of_admits hc hnew, List.mem_map_of_mem htx⟩
        have hverified := fromRun_verified hblock.1
        exact ⟨⟨hverified, fun tx htx _ => .inr (hlisted tx htx)⟩, fun tx htx =>
          ⟨⟨cast_of_block hverified htx, fun _ => .inr (hlisted tx htx)⟩, fun _ => .inr (hlisted tx htx)⟩⟩)
  refine ⟨?_, ⟨hfull, hact.1⟩, hact.2⟩
  intro hash ⟨c, hc, hlists⟩
  exact ⟨c, DBInternface.mem_data_of_get (get_act D id s a (DBInternface.mem_data.mp hc)), hlists⟩

/-- A wallet calls what it casts pending. -/
theorem teaches_cast {w : Wallet} {clock : UInt64} {receiverId : String}
    (hmem : Move.act id (.createTransaction clock receiverId) ∈ moves)
    (hp : PartyTold D roster moves wallets E id (.light w)) :
    Teaches.Step known (PartyTold D roster moves wallets) (fun E => PacketSound (told D roster wallets moves E)) E id
      (.light w) ((swarm D roster).act id (.light w) (.createTransaction clock receiverId)) := by
  obtain ⟨hlight, hw⟩ := hp
  have hcast : Cast D roster moves (newTransaction D clock id receiverId) := ⟨hlight, hmem, rfl⟩
  refine ⟨fun _ h => h, ⟨hlight, (walletTold_mono (fun _ h => .inl h) hw).put fun hv => nomatch hv⟩, ?_⟩
  intro packet hpacket
  cases List.mem_singleton.mp hpacket
  exact ⟨hcast, fun hv => nomatch hv⟩

/-- A wallet repeats what it is told. -/
theorem teaches_walletHear {w : Wallet} {message : NodeMessage}
    (hmessage : MessageSound (told D roster wallets moves E) message)
    (hp : PartyTold D roster moves wallets E id (.light w)) :
    Teaches.Step known (PartyTold D roster moves wallets) (fun E => PacketSound (told D roster wallets moves E)) E id
      (.light w) (.light (walletHear w message), []) := by
  have hw : WalletSound (Believed E (wallets id)) (walletHear w message) :=
    hp.2.hear hmessage (fun _ h hv => .inl (h.2 hv)) (fun _ status _ ht hv => .inl (ht hv))
  exact ⟨fun _ h => h, ⟨hp.1, walletTold_mono (fun _ h => .inl h) hw⟩, fun _ h => nomatch h⟩

end Steps

/-- Every step of every party tells nothing but what is on a chain. -/
theorem swarm_teaches (hdate : OneDatePerHash D roster wallets moves) :
    Teaches (swarm D roster) (Taken D roster wallets moves) known (PartyTold D roster moves wallets)
      (fun E => PacketSound (told D roster wallets moves E)) := by
  refine ⟨fun h hp => partyTold_mono h hp, fun h hp => hp.mono (told_implies h), ?_, ?_⟩
  · intro E id p a htaken hE hp
    cases p with
    | full s => exact teaches_full hdate htaken hp
    | light w =>
      cases a with
      | createTransaction clock receiverId => exact teaches_cast htaken.1 hp
      | _ => exact ⟨fun _ h => h, partyTold_mono (fun _ h => .inl h) hp, fun _ h => nomatch h⟩
    | other => exact ⟨fun _ h => h, trivial, fun _ h => nomatch h⟩
  · intro E id p packet _ hgood hE hp
    have hmore : ∀ q hash, E hash → Taught known E q hash := fun _ _ h => .inl h
    cases p with
    | full s =>
      have hheard := (hp.2.mono (told_implies (hmore (.full (s.hear packet))))).hear
        (hgood.mono (told_implies (hmore _)))
      refine ⟨?_, ⟨hp.1, hheard⟩, fun _ h => nomatch h⟩
      intro hash h
      cases packet <;> exact h
    | light w =>
      cases packet with
      | post sender receiver message => exact teaches_walletHear hgood hp
      | cast sender peers message => exact teaches_walletHear hgood hp
      | syncPoolRequest sender => exact ⟨fun _ h => h, partyTold_mono (hmore _) hp, fun _ h => nomatch h⟩
    | other => exact ⟨fun _ h => h, trivial, fun _ h => nomatch h⟩

/-! ## What was told stays so -/

/-- The full node known as `id` has a block that lists the hash. -/
def Listed (w : World String Party Packet) (id hash : String) : Prop :=
  ∃ s, w.party id = .full s ∧ OnChain s.full.node hash

theorem listed_update {w : World String Party Packet} {hash i : String} {r : Party × List Packet}
    (hkeeps : known (w.party i) hash → known r.1 hash) (h : Listed w id hash) : Listed (w.update i r) id hash := by
  obtain ⟨s, hs, hon⟩ := h
  by_cases hid : id = i
  · subst hid
    rw [hs] at hkeeps
    have hknown : known r.1 hash := hkeeps hon
    unfold Listed
    rw [update_party_same]
    cases hr : r.1 with
    | full t =>
      rw [hr] at hknown
      exact ⟨t, rfl, hknown⟩
    | light w => rw [hr] at hknown; exact hknown.elim
    | other => rw [hr] at hknown; exact hknown.elim
  · exact ⟨s, by rw [update_party_of_ne w hid]; exact hs, hon⟩

/-- A chain never loses what it lists, whatever happens. -/
theorem listed_run (D : Digest) (roster : String → PeerType) {w : World String Party Packet} {hash : String}
    (later : List SwarmMove) (h : Listed w id hash) : Listed (run (step (swarm D roster)) w later) id hash := by
  refine run_keeps (f := step (swarm D roster)) (I := fun w => Listed w id hash) ?_ later h
  intro w move h
  rcases step_cases (swarm D roster) w move with he | ⟨i, a, _, he⟩ | ⟨i, packet, _, _, he⟩
  · rw [he]; exact h
  · rw [he]
    refine listed_update ?_ h
    intro hknown
    cases hp : w.party i with
    | full s =>
      rw [hp] at hknown
      obtain ⟨c, hc, hlists⟩ := hknown
      exact ⟨c, DBInternface.mem_data_of_get (get_act D i s a (DBInternface.mem_data.mp hc)), hlists⟩
    | light wallet => rw [hp] at hknown; exact hknown.elim
    | other => rw [hp] at hknown; exact hknown.elim
  · rw [he]
    refine listed_update ?_ h
    intro hknown
    cases hp : w.party i with
    | full s =>
      rw [hp] at hknown
      cases packet <;> exact hknown
    | light wallet => rw [hp] at hknown; exact hknown.elim
    | other => rw [hp] at hknown; exact hknown.elim

theorem told_after (hdate : OneDatePerHash D roster wallets moves) :
    Sound known (PartyTold D roster moves wallets) (fun E => PacketSound (told D roster wallets moves E))
      (after D roster wallets moves) := by
  have hstart : Sound known (PartyTold D roster moves wallets) (fun E => PacketSound (told D roster wallets moves E))
      (assemble D roster wallets) := by
    refine ⟨fun id => ?_, fun _ h => nomatch h⟩
    unfold assemble
    dsimp only
    cases hr : roster id with
    | full => exact ⟨hr, stationSound_boot ⟨.inl rfl, fun _ htx => nomatch htx⟩⟩
    | light => exact ⟨hr, fun tx htx hv => .inr ⟨tx, htx, rfl, hv⟩⟩
    | observer => trivial
    | control => trivial
    | unknown => trivial
  exact (swarm_teaches hdate).sound_run (along_taken D roster wallets moves) hstart

theorem listed_of_established {w : World String Party Packet} {hash : String} (h : Established known w hash) :
    ∃ node, Listed w node hash := by
  obtain ⟨node, hnode⟩ := h
  cases hp : w.party node with
  | full s =>
    rw [hp] at hnode
    exact ⟨node, s, hp, hnode⟩
  | light wallet => rw [hp] at hnode; exact hnode.elim
  | other => rw [hp] at hnode; exact hnode.elim

/-- **Verified means on a chain, for good.** In every run of any number of full and
light nodes, over a network that loses, delays, repeats and reorders messages, in
which the blocks that miners found have one date per hash: whatever a wallet calls
verified, if it did not before the run, and whatever a message under way calls so, of a
hash or of a transaction that it brings by itself or in a block, is listed by the chain
of some full node, and by that same chain after anything that happens later. -/
theorem verified_votes_on_chain (D : Digest) (roster : String → PeerType) (wallets : String → Wallet)
    (moves : List SwarmMove) (hdate : OneDatePerHash D roster wallets moves) :
    let w := after D roster wallets moves
    let OnChainForGood (hash : String) := ∃ node, Listed w node hash ∧
      ∀ later, Listed (run (step (swarm D roster)) w later) node hash
    (∀ id wallet, w.party id = .light wallet → ∀ tx ∈ wallet.data, tx.status = .verified →
      OnChainForGood tx.hash ∨ ∃ t ∈ (wallets id).data, t.hash = tx.hash ∧ t.status = .verified) ∧
    (∀ packet ∈ w.sent, ∀ tx ∈ carried packet, tx.status = .verified → OnChainForGood tx.hash) ∧
    ∀ sender receiver hash, .post sender receiver (.setTransactionStatus .verified hash) ∈ w.sent →
      OnChainForGood hash := by
  intro w OnChainForGood
  have hsound := told_after hdate
  have hgood : ∀ hash, Established known w hash → OnChainForGood hash := by
    intro hash h
    obtain ⟨node, hlisted⟩ := listed_of_established h
    exact ⟨node, hlisted, fun later => listed_run D roster later hlisted⟩
  refine ⟨?_, ?_, ?_⟩
  · intro id wallet hw tx htx hv
    have hp := hsound.inv id
    rw [show (after D roster wallets moves).party id = .light wallet from hw] at hp
    exact (hp.2 tx htx hv).imp_left (hgood _)
  · intro packet hp tx htx hv
    have hlists : ∀ b, (told D roster wallets moves (Established known w)).block b → ∀ t ∈ b.transactions,
        (told D roster wallets moves (Established known w)).loose t :=
      fun _ hb t ht => ⟨cast_of_block hb.1 ht, hb.2 t ht⟩
    exact hgood _ (((hsound.good packet hp).loose hlists tx htx).2 hv)
  · intro sender receiver hash hp
    exact hgood hash (hsound.good _ hp rfl)

/-- A digest under which the hashes of two blocks in a row differ. -/
def twoBlocksDigest : Digest where
  sha256Hex s :=
    if startsWith s "send_tx" then s
    else if s = "0016685426250" then "1"
    else if startsWith s "1" then "0000b"
    else "0000a"
  merkleRoot _ := ""

/-- Five votes are cast and pooled, the node mines them while its clock goes on, takes
its block in and sends out what it has to say, and the voter hears of one of them. -/
def votingRound (votes : List UInt64) (first : ℕ) (clock : UInt64) : List SwarmMove :=
  votes.map (fun vote => .act "voter" (.createTransaction vote "candidate")) ++
    (List.range 5).map (fun k => .deliver "node" (first + k)) ++
    List.replicate 5 (.act "node" (.processOne true false)) ++
    (List.range 18).map (fun k => .act "node" (.miner (clock + k.toUInt64) 1)) ++
    List.replicate 12 (.act "node" (.processOne true false)) ++
    [.deliver "voter" (first + 7)]

def twoRounds : List SwarmMove :=
  votingRound [1, 2, 3, 4, 5] 0 1670000000000 ++ votingRound [6, 7, 8, 9, 10] 17 1680000000000

theorem verified_votes_on_chain_twoRounds :
    (match (after twoBlocksDigest electionRoster (fun _ => DBInternface.empty) twoRounds).party "voter" with
      | .light wallet => wallet.data.countP fun tx => tx.status = .verified
      | _ => 0) = 2 ∧
    ∀ wallet, (after twoBlocksDigest electionRoster (fun _ => DBInternface.empty) twoRounds).party "voter" =
        .light wallet → ∀ tx ∈ wallet.data, tx.status = .verified →
      ∃ node, Listed (after twoBlocksDigest electionRoster (fun _ => DBInternface.empty) twoRounds) node tx.hash := by
  refine ⟨by decide +kernel, ?_⟩
  intro wallet hw tx htx hv
  have htold := verified_votes_on_chain twoBlocksDigest electionRoster (fun _ => DBInternface.empty) twoRounds
    (by decide +kernel)
  rcases htold.1 "voter" wallet hw tx htx hv with ⟨node, hlisted, _⟩ | ⟨t, ht, _⟩
  · exact ⟨node, hlisted⟩
  · simp at ht

end Krapi.Receipts
