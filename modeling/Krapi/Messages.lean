import Krapi.DBInterface

/-! # Messages and events

What peers, the signaling server and the parts of one node say to each other.
The content of a message is JSON that its listener parses; `C` stands for it,
as nothing on the way looks inside. -/
namespace Krapi.Messages
open Krapi.BlockchainModels Krapi.DBInterface

inductive PeerMessageType where
  | default
  | peerTypeRequest | peerTypeResponse
  | addTransaction | removeTransactions | setTransactionStatus
  | blockHeadersRequest | blockHeadersResponse
  | blockRequest | blockResponse | blockNotFoundResponse
  | peerStateRequest | peerStateResponse | peerStateUpdate
  | addBlock | blockRejected | blockAccepted
  | getLastBlockRequest | getLastBlockResponse
  | syncPoolRequest
  | transactionsInRequest | transactionsInResponse
  | transactionsOutRequest | transactionsOutResponse
  | controlIsStartingPing | controlIsEndingPing | controlStarted | controlStopped
  | controlOperateBetween | controlResult
  | isControlStartedRequest | isControlStartedResponse
  deriving Repr, DecidableEq

inductive SignalingMessageType where
  | default
  | availablePeersRequest | availablePeersResponse
  | setIdentityRequest | setIdentityResponse
  | acknowledgement
  | peerAvailable
  | rtcSetup | rtcCandidate
  | peerClosed
  deriving Repr, DecidableEq

inductive InternalMessageType where
  | sendSignalingMessage | sendPeerMessage | requestTypeOf | requestStateOf | waitForDataChannelOpen
  deriving Repr, DecidableEq

inductive InternalNotificationType where
  | dataChannelOpened | dataChannelClosed
  | signalingServerOpened | signalingServerClosed
  | transactionAddedToPool
  | blockMined | minedBlockValidated
  deriving Repr, DecidableEq

structure PeerMessage (C : Type) where
  type : PeerMessageType
  senderIdentity : String
  receiverIdentity : String
  tag : String
  content : C
  /-- When the message was made. -/
  timestamp : UInt64
  deriving Repr, DecidableEq

structure SignalingMessage (C : Type) where
  type : SignalingMessageType
  senderIdentity : String
  receiverIdentity : String
  tag : String
  content : C
  deriving Repr, DecidableEq

/-- An order to a part of the node itself, here to send `content`. -/
structure InternalMessage (M : Type) where
  type : InternalMessageType
  content : M
  timestamp : UInt64
  retryCount : ℕ := 0
  deriving Repr, DecidableEq

structure InternalNotification (T : Type) where
  type : InternalNotificationType
  content : T
  tag : String
  deriving Repr, DecidableEq

variable {C M : Type}

/-- What makes two messages the same: everything but when they were made. -/
def PeerMessage.body (m : PeerMessage C) : PeerMessageType × String × String × String × C :=
  (m.type, m.senderIdentity, m.receiverIdentity, m.tag, m.content)

theorem PeerMessage.tag_eq_of_body_eq {m m' : PeerMessage C} (h : m.body = m'.body) : m.tag = m'.tag := by
  unfold PeerMessage.body at h
  simp only [Prod.mk.injEq] at h
  exact h.2.2.2.1

namespace InternalMessage

def increamentRetryCount (m : InternalMessage M) : InternalMessage M :=
  { m with retryCount := m.retryCount + 1 }

def resetRetryCount (m : InternalMessage M) : InternalMessage M := { m with retryCount := 0 }

@[simp] theorem increamentRetryCount_content (m : InternalMessage M) :
    m.increamentRetryCount.content = m.content := rfl

@[simp] theorem resetRetryCount_content (m : InternalMessage M) : m.resetRetryCount.content = m.content :=
  rfl

end InternalMessage

/-- A stored message comes back with its count at zero, as `to_json` leaves the
count out; what is stored has it there already. -/
instance : DBComparable (InternalMessage (PeerMessage C)) :=
  ⟨fun m => m.content.tag, InternalMessage.timestamp⟩

@[simp] theorem internalMessage_tag (m : InternalMessage (PeerMessage C)) : tag m = m.content.tag := rfl

end Krapi.Messages
