import Krapi.Provenance
import Krapi.VoteCounts

/-! # No node counts more votes than were cast

A full node is asked for votes in two ways: for those that an identity received or
sent, which it counts in pool and spent store, and for a tally of its chain over a
window of time. No answer of the first kind exceeds what the light nodes cast, whatever
the network repeats: a hash is pooled or spent once, and a vote that was cast has one
hash. A tally is as good as long as the chain lists no vote twice. -/
namespace Krapi.Ballots
open Krapi.BlockchainModels Krapi.DBInterface Krapi.ChainStore Krapi.Pool Krapi.Handlers Krapi.Messages
open Krapi.Conservation (Conserved conserved_start conserved_handle votesFor tally_eq_length)
open Krapi.Miner Krapi.InitialDownload Krapi.Swarm Krapi.Provenance Krapi.VoteCounts
open Krapi.Lib.Run Krapi.Lib.Gossip
open Krapi.Wallets (Wallet)

variable {D : Digest} {roster : String → PeerType} {moves : List SwarmMove} {wallets : String → Wallet}
  {id : String} {s : Station} {n : Node}

/-! ## The votes of a run -/

/-- The votes that light nodes cast for `candidate`: who cast each, and when. -/
def castFor (roster : String → PeerType) (candidate : String) (moves : List SwarmMove) : List (String × UInt64) :=
  moves.filterMap fun
    | .act me (.createTransaction clock receiverId) =>
      if roster me = .light ∧ receiverId = candidate then some (me, clock) else none
    | _ => none

/-- The votes that `voter` cast: when, and for whom. -/
def castBy (roster : String → PeerType) (voter : String) (moves : List SwarmMove) : List (UInt64 × String) :=
  moves.filterMap fun
    | .act me (.createTransaction clock receiverId) =>
      if roster me = .light ∧ me = voter then some (clock, receiverId) else none
    | _ => none

theorem mem_castFor {tx : Transaction} (h : Cast D roster moves tx) :
    (tx.from_, tx.timestamp) ∈ castFor roster tx.to_ moves :=
  List.mem_filterMap.mpr ⟨_, h.made, if_pos ⟨h.light, rfl⟩⟩

theorem mem_castBy {tx : Transaction} (h : Cast D roster moves tx) :
    (tx.timestamp, tx.to_) ∈ castBy roster tx.from_ moves :=
  List.mem_filterMap.mpr ⟨_, h.made, if_pos ⟨h.light, rfl⟩⟩

/-- Transactions with distinct hashes are no more than the keys that determine the hashes. -/
theorem length_le_keys {K : Type} {txs : List Transaction} {keys : List K} (key : Transaction → K)
    (hashOf : K → String) (hdistinct : (txs.map Transaction.hash).Nodup)
    (hhash : ∀ tx ∈ txs, tx.hash = hashOf (key tx)) (hkey : ∀ tx ∈ txs, key tx ∈ keys) :
    txs.length ≤ keys.length := by
  have hsame : (txs.map key).map hashOf = txs.map Transaction.hash := by
    rw [List.map_map]
    exact List.map_congr_left fun tx htx => (hhash tx htx).symm
  have hnodup : (txs.map key).Nodup := List.Nodup.of_map hashOf (hsame ▸ hdistinct)
  have hsub : txs.map key ⊆ keys := by
    intro k hk
    obtain ⟨tx, htx, rfl⟩ := List.mem_map.mp hk
    exact hkey tx htx
  rw [← List.length_map key]
  exact (hnodup.subperm hsub).length_le

theorem length_le_castFor {txs : List Transaction} {candidate : String}
    (hdistinct : (txs.map Transaction.hash).Nodup)
    (hcast : ∀ tx ∈ txs, Cast D roster moves tx ∧ tx.to_ = candidate) :
    txs.length ≤ (castFor roster candidate moves).length := by
  refine length_le_keys (fun tx => (tx.from_, tx.timestamp))
    (fun key => D.sha256Hex (Wallets.preimage key.2 key.1 candidate)) hdistinct ?_ ?_
  · intro tx htx
    obtain ⟨h, rfl⟩ := hcast tx htx
    exact h.digest
  · intro tx htx
    obtain ⟨h, rfl⟩ := hcast tx htx
    exact mem_castFor h

theorem length_le_castBy {txs : List Transaction} {voter : String}
    (hdistinct : (txs.map Transaction.hash).Nodup)
    (hcast : ∀ tx ∈ txs, Cast D roster moves tx ∧ tx.from_ = voter) :
    txs.length ≤ (castBy roster voter moves).length := by
  refine length_le_keys (fun tx => (tx.timestamp, tx.to_))
    (fun key => D.sha256Hex (Wallets.preimage key.1 voter key.2)) hdistinct ?_ ?_
  · intro tx htx
    obtain ⟨h, rfl⟩ := hcast tx htx
    exact h.digest
  · intro tx htx
    obtain ⟨h, rfl⟩ := hcast tx htx
    exact mem_castBy h

/-! ## A hash is pooled or spent -/

/-- No hash is in both pool and spent store. -/
def Apart (n : Node) : Prop := ∃ hs, Conserved hs n

theorem Apart.congr {m : Node} (h : Apart n)
    (hpool : m.transactionPool.toDBInternface = n.transactionPool.toDBInternface)
    (hspent : m.spentTransactionsStore = n.spentTransactionsStore) : Apart m := by
  obtain ⟨hs, hall, hapart⟩ := h
  refine ⟨hs, ?_, ?_⟩
  · rw [hpool, hspent]; exact hall
  · rw [hpool, hspent]; exact hapart

theorem Apart.download {d : Download} {i : Input} (h : Apart d.node) : Apart (downloadStep d i).node := by
  obtain ⟨hspent, hpool⟩ := downloadStep_pool d i
  refine h.congr ?_ hspent
  rcases hpool with hp | hp
  · rw [hp]
  · rw [hp, TransactionPool.enqueueStored_db]

theorem Apart.act (h : Apart s.full.node) (a : PartyAction) : Apart (s.act D id a).1.full.node := by
  have hdownload : ∀ (t : Station) (i : Input), Apart t.full.node → Apart (t.download id i).1.full.node :=
    fun t i ht => Apart.download (d := ⟨t.full.node, t.stage, []⟩) ht
  cases a with
  | processOne room awaited =>
    have hfull : Apart (processOne s.full room).1.node := by
      unfold processOne
      split
      · exact h
      · rename_i e rest _
        rw [dispatch_node]
        cases e.event? room with
        | none => exact h
        | some event =>
          obtain ⟨hs, hc⟩ := h
          exact ⟨_, conserved_handle event hc⟩
    simp only [Station.act]
    split
    · exact hdownload _ _ hfull
    · exact hfull
  | miner clock fuel =>
    obtain ⟨_, hspent, hpool⟩ := minerStep_stores D id clock fuel s.full
    exact h.congr hpool hspent
  | resumeDownload => exact hdownload s .resume h
  | peersFound identities => exact hdownload s (.peersFound identities) h
  | syncPool =>
    obtain ⟨full, stage, syncRequests⟩ := s
    cases syncRequests <;> exact h
  | createTransaction clock receiverId => exact h

def PartyApart : Party → Prop
  | .full s => Apart s.full.node
  | _ => True

theorem apart_after (hs : (after D roster wallets moves).party id = .full s) : Apart s.full.node := by
  have hkeeps : Keeps (swarm D roster) (fun _ _ _ => True) (fun _ => PartyApart) (fun _ => True) := by
    refine ⟨?_, ?_⟩
    · intro i p a _ hp
      cases p with
      | full s => exact ⟨Apart.act hp a, fun _ _ => trivial⟩
      | light w => exact ⟨trivial, fun _ _ => trivial⟩
      | other => exact ⟨trivial, fun _ _ => trivial⟩
    · intro i p packet _ _ hp
      cases p with
      | full s => cases packet <;> exact ⟨hp, fun _ _ => trivial⟩
      | light w => cases packet <;> exact ⟨trivial, fun _ _ => trivial⟩
      | other => exact ⟨trivial, fun _ _ => trivial⟩
  have hstart : ∀ i, PartyApart ((assemble D roster wallets).party i) := by
    intro i
    unfold assemble
    dsimp only
    split
    · exact ⟨[], conserved_start D⟩
    · trivial
    · trivial
  have hallowed : Along (step (swarm D roster)) (Move.Allowed fun _ _ _ => True) (assemble D roster wallets) moves :=
    (along_taken D roster wallets moves).imp_of_inv (I := fun _ => True) (fun _ _ _ _ => trivial)
      (fun _ move _ _ => by cases move <;> trivial) trivial
  have hrun := (hkeeps.run hallowed hstart fun _ _ => trivial).1 id
  rw [show run (step (swarm D roster)) (assemble D roster wallets) moves = after D roster wallets moves from rfl,
    hs] at hrun
  exact hrun

theorem data_hash_nodup (store : DBInternface Transaction) : (store.data.map Transaction.hash).Nodup := by
  rw [List.Nodup, List.pairwise_map]
  exact (DBInternface.data_sorted store).imp fun hlt he => hlt.ne he

/-- What is pooled and what is spent, under distinct hashes. -/
theorem held_hash_nodup (h : Apart n) (p : Transaction → Bool) :
    ((n.transactionPool.data.filter p ++ n.spentTransactionsStore.data.filter p).map Transaction.hash).Nodup := by
  obtain ⟨_, _, hapart⟩ := h
  rw [List.map_append, List.nodup_append]
  refine ⟨(data_hash_nodup _).sublist (List.filter_sublist.map _),
    (data_hash_nodup _).sublist (List.filter_sublist.map _), ?_⟩
  intro a ha b hb hab
  obtain ⟨tx, htx, rfl⟩ := List.mem_map.mp ha
  obtain ⟨u, hu, rfl⟩ := List.mem_map.mp hb
  have hpooled : n.transactionPool.contains tx.hash = true :=
    DBInternface.contains_of_mem (List.mem_of_mem_filter htx)
  have hspent : n.spentTransactionsStore.contains u.hash = true :=
    DBInternface.contains_of_mem (List.mem_of_mem_filter hu)
  rw [← hab, hapart _ hpooled] at hspent
  cases hspent

/-! ## The answers -/

/-- **No node counts more votes than were cast.** In every run of any number of full and
light nodes, over a network that loses, delays, repeats and reorders messages: the number
that a full node answers for the votes an identity received or sent is at most the number
that light nodes cast for it or that it cast, and where no vote for a candidate is twice
on the node's chain in a window of time, its tally for the candidate is at most the
number cast for it. -/
theorem counted_at_most_cast (D : Digest) (roster : String → PeerType) (wallets : String → Wallet)
    (moves : List SwarmMove) (id : String) (s : Station)
    (hs : (after D roster wallets moves).party id = .full s) :
    (∀ request made queued, number (onTransactionsInRequest s.full.node request made queued) ≤
      (castFor roster request.content moves).length) ∧
    (∀ request made queued, number (onTransactionsOutRequest s.full.node request made queued) ≤
      (castBy roster request.content moves).length) ∧
    ∀ begin_ end_ candidate, (votesFor s.full.node.blockchain begin_ end_ candidate).Nodup →
      (onControlOperateBetween s.full.node.blockchain begin_ end_).getD candidate 0 ≤
        ((castFor roster candidate moves).filter fun vote => begin_ ≤ vote.2 ∧ vote.2 ≤ end_).length := by
  have hsound := stationSound_after hs
  have hapart := apart_after hs
  refine ⟨?_, ?_, ?_⟩
  · intro request made queued
    rw [number_in, List.countP_eq_length_filter, List.countP_eq_length_filter, ← List.length_append]
    refine length_le_castFor (D := D) (held_hash_nodup hapart _) ?_
    intro tx htx
    rcases List.mem_append.mp htx with hp | hp
    · obtain ⟨hin, hto⟩ := List.mem_filter.mp hp
      exact ⟨cast_of_held hsound (.inl hin), of_decide_eq_true hto⟩
    · obtain ⟨hin, hto⟩ := List.mem_filter.mp hp
      exact ⟨cast_of_held hsound (.inr (.inr (.inl hin))), of_decide_eq_true hto⟩
  · intro request made queued
    rw [number_out, List.countP_eq_length_filter]
    refine length_le_castBy (D := D) ((data_hash_nodup _).sublist (List.filter_sublist.map _)) ?_
    intro tx htx
    obtain ⟨hin, hfrom⟩ := List.mem_filter.mp htx
    exact ⟨cast_of_held hsound (.inl hin), of_decide_eq_true hfrom⟩
  · intro begin_ end_ candidate hnodup
    rw [tally_eq_length, votesFor, List.length_map]
    refine length_le_keys (fun tx => (tx.from_, tx.timestamp))
      (fun key => D.sha256Hex (Wallets.preimage key.2 key.1 candidate)) hnodup ?_ ?_
    all_goals
      intro tx htx
      obtain ⟨hin, hwindow⟩ := List.mem_filter.mp htx
      obtain ⟨hbegin, hend, rfl⟩ := of_decide_eq_true hwindow
      obtain ⟨b, hb, htxb⟩ := List.mem_flatMap.mp hin
      have hcast : Cast D roster moves tx := cast_of_held hsound (.inr (.inr (.inr (.inl ⟨b, hb, htxb⟩))))
    · exact hcast.digest
    · exact List.mem_filter.mpr ⟨mem_castFor hcast, by simpa using ⟨hbegin, hend⟩⟩

theorem counted_at_most_cast_election :
    ∃ s, (after electionDigest electionRoster (fun _ => DBInternface.empty) election).party "node" = .full s ∧
      ∀ request made queued, request.content = "candidate" →
        number (onTransactionsInRequest s.full.node request made queued) ≤ 5 := by
  obtain ⟨s, hs⟩ := exists_station electionDigest (fun _ => DBInternface.empty) election
    (show electionRoster "node" = .full by decide)
  refine ⟨s, hs, ?_⟩
  intro request made queued hcandidate
  have hle := (counted_at_most_cast _ _ _ _ _ _ hs).1 request made queued
  rw [hcandidate] at hle
  exact hle

end Krapi.Ballots
