import Krapi.Codec
import Krapi.Mesh
import Krapi.MinerThread

/-! # What goes over the wire

Handlers are modelled on parsed messages. Here is what lies between two of them: the
content that a sender makes is put into a message, the message becomes JSON, and the
other side reads the message and has the listener of its type read the content. What
comes out is what went in, for every message of the full and light nodes. Of the
messages of the signaling server this holds but for one type, which its table leaves out. -/
namespace Krapi.Wire
open Krapi.BlockchainModels Krapi.Messages Krapi.Validator Krapi.Handlers Krapi.Codec Krapi.Lib
open Krapi.Signaling (Content)
open Krapi.Mesh (DescriptionType Description Rtc)
open Krapi.MinerThread (messageType)

/-! ## Enumerations -/

def validationStates : EnumTable ValidationState :=
  ⟨(.success, "success"),
    [(.transactionAlreadySpent, "transaction_already_spent"),
     (.wrongTimestamp, "wrong_timestamp"),
     (.incompeleteProofOfWork, "incompelete_proof_of_work"),
     (.wrongPreviousHash, "wrong_previous_hash")]⟩

/-- The table leaves `Acknowledgement` out. -/
def signalingMessageTypes : EnumTable SignalingMessageType :=
  ⟨(.default, "default"),
    [(.availablePeersRequest, "available_peers_request"),
     (.availablePeersResponse, "available_peers_response"),
     (.setIdentityRequest, "set_identity_request"),
     (.setIdentityResponse, "set_identity_response"),
     (.peerAvailable, "peer_available"),
     (.rtcSetup, "rtc_setup"),
     (.rtcCandidate, "rtc_candidate"),
     (.peerClosed, "peer_closed")]⟩

theorem validationStates_fromJson_toJson (state : ValidationState) :
    validationStates.fromJson (validationStates.toJson state) = state :=
  EnumTable.fromJson_toJson (t := validationStates) (by unfold EnumTable.Injective; decide) (by cases state <;> decide)

/-- What is read of a written type. -/
def readType (type : SignalingMessageType) : SignalingMessageType :=
  if type = .acknowledgement then .default else type

theorem signalingMessageTypes_fromJson_toJson (type : SignalingMessageType) :
    signalingMessageTypes.fromJson (signalingMessageTypes.toJson type) = readType type := by
  by_cases h : type = .acknowledgement
  · rw [h]
    rfl
  · rw [readType, if_neg h]
    apply EnumTable.fromJson_toJson (t := signalingMessageTypes)
    · unfold EnumTable.Injective
      decide
    · cases type with
      | acknowledgement => exact absurd rfl h
      | _ => decide

/-! ## Messages between nodes -/

structure SetTransactionStatusContent where
  status : TransactionStatus
  hash : String
  deriving Repr, DecidableEq

namespace SetTransactionStatusContent

def fields (content : SetTransactionStatusContent) : List (String × Json) :=
  [("status", transactionStatuses.toJson content.status), ("hash", .string content.hash)]

def toJson (content : SetTransactionStatusContent) : Json := .ofPairs content.fields

def fromJson (json : Json) : Option SetTransactionStatusContent := do
  let status ← json.index "status"
  let hash ← (← json.index "hash").getString
  return ⟨transactionStatuses.fromJson status, hash⟩

theorem fromJson_toJson (content : SetTransactionStatusContent) : fromJson content.toJson = some content := by
  have hkeys : (content.fields.map Prod.fst).Nodup := by simp [fields]
  unfold fromJson toJson
  simp only [Json.index_ofPairs hkeys]
  simp only [fields, List.lookup, String.reduceBEq, beq_self_eq_true, Option.bind_eq_bind, Option.bind_some,
    Option.getD_some, Json.getString, transactionStatuses_fromJson_toJson]
  rfl

end SetTransactionStatusContent

/-- The constructor of `Block`. -/
def createBlock (block : Block) : HashedBlock :=
  ⟨.create block.header, block.transactions.map .create⟩

/-- A block without the bytes of its hashes. -/
def plainBlock (block : HashedBlock) : Block :=
  ⟨block.header.toBlockHeader, block.transactions.map HashedTransaction.toTransaction⟩

theorem plainBlock_createBlock (block : Block) : plainBlock (createBlock block) = block := by
  unfold plainBlock createBlock
  rw [List.map_map]
  exact congrArg (Block.mk block.header) (List.map_id' _)

/-- What senders make of the content. -/
def contentToJson : NodeMessage → Json
  | .addTransaction tx => (HashedTransaction.create tx).toJson
  | .setTransactionStatus status hash => (SetTransactionStatusContent.mk status hash).toJson
  | .blockHeadersRequest header => (HashedBlockHeader.create header).toJson
  | .blockHeadersResponse headers => (BlockHeadersResponseContent.mk (headers.map .create)).toJson
  | .blockRequest header => (HashedBlockHeader.create header).toJson
  | .blockResponse block => (createBlock block).toJson
  | .blockNotFoundResponse => .null
  | .addBlock block => (createBlock block).toJson
  | .blockRejected reason => validationStates.toJson reason
  | .blockAccepted header => (HashedBlockHeader.create header).toJson

def headerFromJson (json : Json) : Option BlockHeader :=
  (HashedBlockHeader.fromJson json).map HashedBlockHeader.toBlockHeader

def blockFromJson (json : Json) : Option Block := (HashedBlock.fromJson json).map plainBlock

/-- What the listeners of a type make of the content. -/
def contentFromJson (json : Json) : PeerMessageType → Option NodeMessage
  | .addTransaction => (HashedTransaction.fromJson json).map fun tx => .addTransaction tx.toTransaction
  | .setTransactionStatus =>
    (SetTransactionStatusContent.fromJson json).map fun content => .setTransactionStatus content.status content.hash
  | .blockHeadersRequest => (headerFromJson json).map .blockHeadersRequest
  | .blockHeadersResponse =>
    (BlockHeadersResponseContent.fromJson json).map fun content =>
      .blockHeadersResponse (content.headers.map HashedBlockHeader.toBlockHeader)
  | .blockRequest => (headerFromJson json).map .blockRequest
  | .blockResponse => (blockFromJson json).map .blockResponse
  | .blockNotFoundResponse => some .blockNotFoundResponse
  | .addBlock => (blockFromJson json).map .addBlock
  | .blockRejected => some (.blockRejected (validationStates.fromJson json))
  | .blockAccepted => (headerFromJson json).map .blockAccepted
  | _ => none

theorem headerFromJson_toJson (header : BlockHeader) :
    headerFromJson (HashedBlockHeader.create header).toJson = some header :=
  congrArg (Option.map _) (HashedBlockHeader.fromJson_toJson _)

theorem blockFromJson_toJson (block : Block) : blockFromJson (createBlock block).toJson = some block := by
  unfold blockFromJson
  rw [HashedBlock.fromJson_toJson, Option.map_some, plainBlock_createBlock]

theorem contentFromJson_toJson (m : NodeMessage) : contentFromJson (contentToJson m) (messageType m) = some m := by
  cases m with
  | addTransaction tx => exact congrArg (Option.map _) (HashedTransaction.fromJson_toJson _)
  | setTransactionStatus status hash => exact congrArg (Option.map _) (SetTransactionStatusContent.fromJson_toJson _)
  | blockHeadersRequest header => exact congrArg (Option.map _) (headerFromJson_toJson header)
  | blockHeadersResponse headers =>
    refine (congrArg (Option.map _) (BlockHeadersResponseContent.fromJson_toJson _)).trans ?_
    rw [Option.map_some, List.map_map]
    exact congrArg (fun hs => some (NodeMessage.blockHeadersResponse hs)) (List.map_id' headers)
  | blockRequest header => exact congrArg (Option.map _) (headerFromJson_toJson header)
  | blockResponse block => exact congrArg (Option.map _) (blockFromJson_toJson block)
  | blockNotFoundResponse => rfl
  | addBlock block => exact congrArg (Option.map _) (blockFromJson_toJson block)
  | blockRejected reason =>
    exact congrArg (fun r => some (NodeMessage.blockRejected r)) (validationStates_fromJson_toJson reason)
  | blockAccepted header => exact congrArg (Option.map _) (headerFromJson_toJson header)

/-- What a node hears from a peer. -/
inductive Heard where
  | message (sender : String) (m : NodeMessage)
  | syncPoolRequest (sender : String)
  deriving Repr, DecidableEq

/-- `onMessage` of a data channel and the listener of the type. -/
def readPeerMessage (json : Json) : Option Heard := do
  let message ← peerMessageFromJson json
  if message.type = .syncPoolRequest then return .syncPoolRequest message.senderIdentity
  else
    let m ← contentFromJson message.content message.type
    return .message message.senderIdentity m

section PeerMessages
variable (sender receiver tag : String) (timestamp : UInt64)

/-- The JSON that carries a content. -/
def writePeerMessage (m : NodeMessage) : Json :=
  peerMessageToJson ⟨messageType m, sender, receiver, tag, contentToJson m, timestamp⟩

def writeSyncPoolRequest : Json := peerMessageToJson ⟨.syncPoolRequest, sender, receiver, tag, .null, timestamp⟩

theorem readPeerMessage_write (m : NodeMessage) :
    readPeerMessage (writePeerMessage sender receiver tag timestamp m) = some (.message sender m) := by
  have hdefault : messageType m ≠ .default := by cases m <;> exact nofun
  have hsync : messageType m ≠ .syncPoolRequest := by cases m <;> exact nofun
  have hread : peerMessageFromJson (writePeerMessage sender receiver tag timestamp m) =
      some ⟨messageType m, sender, receiver, tag, contentToJson m, timestamp⟩ := peerMessageFromJson_toJson hdefault
  unfold readPeerMessage
  rw [hread]
  refine (if_neg hsync).trans ?_
  exact congrArg (Option.bind · _) (contentFromJson_toJson m)

theorem readPeerMessage_writeSyncPoolRequest :
    readPeerMessage (writeSyncPoolRequest sender receiver tag timestamp) = some (.syncPoolRequest sender) := by
  unfold readPeerMessage writeSyncPoolRequest
  rw [peerMessageFromJson_toJson (by nofun)]
  rfl

end PeerMessages

/-! ## Messages of the signaling server -/

def signalingMessageFields (m : SignalingMessage Json) : List (String × Json) :=
  [("type", signalingMessageTypes.toJson m.type),
   ("sender_identity", .string m.senderIdentity),
   ("receiver_identity", .string m.receiverIdentity),
   ("tag", .string m.tag),
   ("content", m.content)]

def signalingMessageToJson (m : SignalingMessage Json) : Json := .ofPairs (signalingMessageFields m)

def signalingMessageFromJson (json : Json) : Option (SignalingMessage Json) := do
  let type ← json.index "type"
  let senderIdentity ← (← json.index "sender_identity").getString
  let receiverIdentity ← (← json.index "receiver_identity").getString
  let tag ← (← json.index "tag").getString
  let content ← json.index "content"
  return ⟨signalingMessageTypes.fromJson type, senderIdentity, receiverIdentity, tag, content⟩

theorem signalingMessageFromJson_toJson (m : SignalingMessage Json) :
    signalingMessageFromJson (signalingMessageToJson m) = some { m with type := readType m.type } := by
  have hkeys : ((signalingMessageFields m).map Prod.fst).Nodup := by simp [signalingMessageFields]
  unfold signalingMessageFromJson signalingMessageToJson
  simp only [Json.index_ofPairs hkeys]
  simp only [signalingMessageFields, List.lookup, String.reduceBEq, beq_self_eq_true, Option.bind_eq_bind,
    Option.bind_some, Option.getD_some, Json.getString, signalingMessageTypes_fromJson_toJson]
  rfl

/-- `rtc::Description::typeString`. -/
def typeString : DescriptionType → String
  | .offer => "offer"
  | .answer => "answer"

/-- How the constructor of `rtc::Description` reads a type; what it makes of other texts is left out. -/
def readTypeString (s : String) : Option DescriptionType :=
  if s = "offer" then some .offer else if s = "answer" then some .answer else none

def descriptionFields (d : Description) : List (String × Json) :=
  [("sdp", .string d.sdp), ("type", .string (typeString d.type))]

def candidateFields (candidate mid : String) : List (String × Json) :=
  [("candidate", .string candidate), ("mid", .string mid)]

/-- The content that a connection sends. -/
def rtcToJson : Rtc → Json
  | .description d => .ofPairs (descriptionFields d)
  | .candidate candidate mid => .ofPairs (candidateFields candidate mid)

def descriptionFromJson (json : Json) : Option Rtc := do
  let sdp ← (← json.index "sdp").getString
  let type ← readTypeString (← (← json.index "type").getString)
  return .description ⟨sdp, type⟩

def candidateFromJson (json : Json) : Option Rtc := do
  let candidate ← (← json.index "candidate").getString
  let mid ← (← json.index "mid").getString
  return .candidate candidate mid

theorem descriptionFromJson_toJson (d : Description) :
    descriptionFromJson (rtcToJson (.description d)) = some (.description d) := by
  have hkeys : ((descriptionFields d).map Prod.fst).Nodup := by simp [descriptionFields]
  have htype : readTypeString (typeString d.type) = some d.type := by cases d.type <;> rfl
  unfold descriptionFromJson rtcToJson
  simp only [Json.index_ofPairs hkeys]
  simp only [descriptionFields, List.lookup, String.reduceBEq, beq_self_eq_true, Option.bind_eq_bind, Option.bind_some,
    Option.getD_some, Json.getString, htype]
  rfl

theorem candidateFromJson_toJson (candidate mid : String) :
    candidateFromJson (rtcToJson (.candidate candidate mid)) = some (.candidate candidate mid) := by
  have hkeys : ((candidateFields candidate mid).map Prod.fst).Nodup := by simp [candidateFields]
  unfold candidateFromJson rtcToJson
  simp only [Json.index_ofPairs hkeys]
  simp only [candidateFields, List.lookup, String.reduceBEq, beq_self_eq_true, Option.bind_eq_bind, Option.bind_some,
    Option.getD_some, Json.getString]
  rfl

/-- What is written as the content of a message; the content of a connection message
is JSON already. -/
def signalingContentToJson : Content Json → Json
  | .null => .null
  | .identity identity => .string identity
  | .identities identities => .array (identities.map .string)
  | .rtc content => content

/-- What the server makes of a content. -/
def serverContent (json : Json) : SignalingMessageType → Content Json
  | .setIdentityRequest =>
    match json.getString with
    | some identity => .identity identity
    -- `get<std::string>` throws
    | none => .null
  | .rtcSetup => .rtc json
  | .rtcCandidate => .rtc json
  | _ => .null

/-- What the listeners of a client make of it. -/
def clientContent (json : Json) : SignalingMessageType → Option (Content Rtc)
  | .peerAvailable => json.getString.map .identity
  | .peerClosed => json.getString.map .identity
  | .availablePeersResponse => (json.elements.mapM Json.getString).map .identities
  | .rtcSetup => (descriptionFromJson json).map .rtc
  | .rtcCandidate => (candidateFromJson json).map .rtc
  | _ => some .null

end Krapi.Wire
