import Krapi.Swarm
import Krapi.Wire
import Krapi.Lib.Recoding

/-! # The swarm over JSON

In `Swarm` the nodes hand each other messages. What goes over a data channel is the
JSON of a `PeerMessage`, with an identity, a tag and a date of its own for each peer
that it goes to; a node reads it, takes the sender from it, and the listener of its
type reads the content. A JSON value stands for its text: `dump` and `parse` are those
of the JSON library. Nodes that do so are where the nodes of `Swarm` are, whatever
happens, so that what holds of all runs of those holds of theirs. -/
namespace Krapi.SwarmJson
open Krapi.BlockchainModels Krapi.Handlers Krapi.Lib Krapi.Lib.Run Krapi.Lib.Gossip Krapi.Lib.Recoding
open Krapi.Swarm Krapi.Wire
open Krapi.Wallets (Wallet)

inductive Address where
  | peer (identity : String)
  | peers (type : PeerType)
  deriving Repr, DecidableEq

/-- What is sent over the data channels, with the JSON for each peer it may go to. -/
structure Letter where
  sender : String
  address : Address
  json : String → Json

def Letter.reaches (roster : String → PeerType) (letter : Letter) (id : String) : Bool :=
  match letter.address with
  | .peer identity => id == identity && id != letter.sender
  | .peers type => decide (roster id = type) && id != letter.sender

/-- The tag and the date of a message, by the peer it goes to. -/
abbrev Stamp := String → String × UInt64

def write (stamp : Stamp) : Packet → Letter
  | .post sender receiver m =>
    ⟨sender, .peer receiver, fun id => writePeerMessage sender receiver (stamp id).1 (stamp id).2 m⟩
  | .cast sender peers m => ⟨sender, .peers peers, fun id => writePeerMessage sender id (stamp id).1 (stamp id).2 m⟩
  | .syncPoolRequest sender =>
    ⟨sender, .peers .full, fun id => writeSyncPoolRequest sender id (stamp id).1 (stamp id).2⟩

/-- `stamps` are those of the messages that the action sends. -/
structure JsonAction where
  action : PartyAction
  stamps : ℕ → Stamp

def act (D : Digest) (id : String) (p : Party) (a : JsonAction) : Party × List Letter :=
  let r := p.act D id a.action
  (r.1, r.2.mapIdx fun k packet => write (a.stamps k) packet)

/-- A value that is not read changes nothing; a message that is heard is not answered at once. -/
def hear (id : String) (p : Party) (letter : Letter) : Party × List Letter :=
  match readPeerMessage (letter.json id) with
  | some (.message sender m) => ((p.hear (.post sender id m)).1, [])
  | some (.syncPoolRequest sender) => ((p.hear (.syncPoolRequest sender)).1, [])
  | none => (p, [])

def swarm (D : Digest) (roster : String → PeerType) : Parties String Party JsonAction Letter where
  act := act D
  hear := hear
  reaches := Letter.reaches roster

/-- Every node at its start. -/
def assemble (D : Digest) (roster : String → PeerType) (wallets : String → Wallet) : World String Party Letter :=
  ⟨(Swarm.assemble D roster wallets).party, []⟩

/-- The letter is one that the packet is written as. -/
def Tells (letter : Letter) (packet : Packet) : Prop := ∃ stamp, letter = write stamp packet

theorem reaches_write (roster : String → PeerType) (stamp : Stamp) (packet : Packet) (id : String) :
    (write stamp packet).reaches roster id = packet.reaches roster id := by
  cases packet <;> rfl

theorem hear_eq_nil (p : Party) (packet : Packet) : (p.hear packet).2 = [] := by
  cases p <;> cases packet <;> rfl

/-- A node makes of a letter what it makes of the packet. -/
theorem hear_write (stamp : Stamp) (id : String) (p : Party) (packet : Packet) :
    hear id p (write stamp packet) = ((p.hear packet).1, []) := by
  unfold hear
  cases packet with
  | post sender receiver m =>
    rw [show readPeerMessage ((write stamp (.post sender receiver m)).json id) = some (.message sender m) from
      readPeerMessage_write sender receiver _ _ m]
    cases p <;> rfl
  | cast sender peers m =>
    rw [show readPeerMessage ((write stamp (.cast sender peers m)).json id) = some (.message sender m) from
      readPeerMessage_write sender id _ _ m]
    cases p <;> rfl
  | syncPoolRequest sender =>
    rw [show readPeerMessage ((write stamp (.syncPoolRequest sender)).json id) = some (.syncPoolRequest sender) from
      readPeerMessage_writeSyncPoolRequest sender id _ _]

theorem forall₂_mapIdx (stamps : ℕ → Stamp) (packets : List Packet) :
    List.Forall₂ Tells (packets.mapIdx fun k packet => write (stamps k) packet) packets := by
  rw [List.forall₂_iff_get]
  refine ⟨List.length_mapIdx, ?_⟩
  intro k hk hk'
  refine ⟨stamps k, ?_⟩
  rw [List.get_eq_getElem, List.getElem_mapIdx, List.get_eq_getElem]

theorem recodes (D : Digest) (roster : String → PeerType) :
    Recodes (swarm D roster) (Swarm.swarm D roster) JsonAction.action Tells where
  act id p a := ⟨rfl, forall₂_mapIdx a.stamps _⟩
  hear id p := by
    rintro _ packet ⟨stamp, rfl⟩ -
    show (hear id p _).1 = (p.hear packet).1 ∧ List.Forall₂ Tells (hear id p _).2 (p.hear packet).2
    rw [hear_write, hear_eq_nil]
    exact ⟨rfl, .nil⟩
  reaches id := by
    rintro _ packet ⟨stamp, rfl⟩
    exact reaches_write roster stamp packet id

/-- **Over JSON, nodes do what they do over messages.** In every run of full and light
nodes that send each other JSON, whatever tags and dates these bear, every node is at
any moment where it is in the run of `Swarm` with the same moves, and what is under
way is the JSON of what is under way there. -/
theorem swarm_over_json (D : Digest) (roster : String → PeerType) (wallets : String → Wallet)
    (moves : List (Move String JsonAction)) :
    Alike Tells (run (step (swarm D roster)) (assemble D roster wallets) moves)
      (run (step (Swarm.swarm D roster)) (Swarm.assemble D roster wallets)
        (moves.map (Move.plain JsonAction.action))) :=
  (recodes D roster).run moves ⟨rfl, .nil⟩

end Krapi.SwarmJson
