import FnShare.Go

/-!
# The records of the code

The structures that the packages of `internal/` store, sign, and send, field by field. A Go slice
is a list where no code distinguishes a nil slice from an empty one. In an invite it is an optional
list, `none` for nil, since the signature is over an encoding that has both.
-/

namespace FnShare

/-- `group.Group`: the descriptor of a group. -/
structure Group where
  /-- Hexadecimal form of the group's public key. -/
  id : Bytes
  name : Bytes
  /-- Ed25519 public key. -/
  adminPub : Bytes
  /-- Ed25519 private key, on the admin's node only. -/
  adminPriv : Bytes := []
  createdAt : ℤ := zeroTime
  isAdminNode : Bool
  /-- AES-256 key that wraps the keys of the files shared in the group. -/
  sharedKey : Bytes
  deriving DecidableEq

/-- `group.Member`: one entry of a group's membership table. -/
structure Member where
  peerID : Bytes
  nickname : Bytes := []
  nodePub : Bytes := []
  encPub : Bytes := []
  contributedB : ℤ := 0
  joinedAt : ℤ := zeroTime
  /-- The admin's signature over group, peer and time of the admission, if the admin signed it. -/
  admittedBySig : Bytes := []
  lastAddrs : List Bytes := []
  /-- CBOR of the invite that the peer joined with, if a node other than the admin's let it in. -/
  admissionInvite : Bytes := []
  deriving DecidableEq

/-- `invite.payload`: the signed part of an invite. -/
structure Payload where
  groupID : Bytes
  groupName : Bytes
  groupAdminPub : Option Bytes
  groupSharedKey : Option Bytes
  bootstrapPeers : Option (List Bytes)
  nonce : Option Bytes
  /-- Unix seconds. -/
  issuedAt : ℤ
  /-- Unix seconds. -/
  expiresAt : ℤ
  quotaCap : ℤ
  deriving DecidableEq

/-- `invite.Invite`: a payload with the signature of the group's admin over it. -/
structure Invite extends Payload where
  signature : Option Bytes
  deriving DecidableEq

/-- `signedPayload`, the type that `verifyInviteSignature` declares for itself. -/
structure SignedPayload where
  groupID : Bytes
  groupName : Bytes
  groupAdminPub : Option Bytes
  groupSharedKey : Option Bytes
  bootstrapPeers : Option (List Bytes)
  nonce : Option Bytes
  issuedAt : ℤ
  expiresAt : ℤ
  quotaCap : ℤ
  deriving DecidableEq

/-- The fields of a `signedPayload`, as those of a `payload`. -/
def SignedPayload.toPayload (p : SignedPayload) : Payload :=
  ⟨p.groupID, p.groupName, p.groupAdminPub, p.groupSharedKey, p.bootstrapPeers, p.nonce,
    p.issuedAt, p.expiresAt,
    p.quotaCap⟩

/-- The fields of a `payload`, as those of a `signedPayload`. -/
def SignedPayload.ofPayload (p : Payload) : SignedPayload :=
  ⟨p.groupID, p.groupName, p.groupAdminPub, p.groupSharedKey, p.bootstrapPeers, p.nonce,
    p.issuedAt, p.expiresAt,
    p.quotaCap⟩

/-- The fields of an invite that `VerifyMembership` decodes. -/
structure InviteHead where
  groupID : Bytes
  groupAdminPub : Option Bytes
  signature : Option Bytes
  deriving DecidableEq

/-- The bytes of a slice, nil or not. -/
def sliceBytes (s : Option Bytes) : Bytes := s.getD []

/-- `node.JoinRequest`; the invite is a pointer, which may be nil. -/
structure JoinRequest where
  invite : Option Invite
  nickname : Bytes
  contributed : ℤ
  nodePub : Bytes
  encPub : Bytes
  deriving DecidableEq

/-- `node.JoinResponse`. -/
structure JoinResponse where
  ok : Bool
  error : Bytes := []
  groupID : Bytes := []
  groupName : Bytes := []
  groupAdmin : Bytes := []
  groupSharedKey : Bytes := []
  /-- Unix nanoseconds. -/
  admissionAt : ℤ := 0
  admitSig : Bytes := []
  members : List Member := []
  deriving DecidableEq

/-- `node.MembersRequest`. -/
structure MembersRequest where
  groupID : Bytes
  deriving DecidableEq

/-- `node.MembersResponse`. -/
structure MembersResponse where
  groupID : Bytes := []
  members : List Member := []
  error : Bytes := []
  deriving DecidableEq

/-- `manifest.Stripe`: the shards of one stripe of a file. -/
structure Stripe where
  index : ℤ
  /-- The ids of the shards, one for each slot. -/
  shardIDs : List Bytes
  plaintextBytes : ℤ
  ciphertextBytes : ℤ
  deriving DecidableEq

/-- `manifest.Manifest`: how a file was split and which peers hold its shards. -/
structure Manifest where
  fileID : Bytes
  groupID : Bytes
  filename : Bytes
  /-- Plaintext bytes. -/
  size : ℤ
  dataShards : ℤ
  parityShards : ℤ
  /-- Plaintext bytes of a stripe. -/
  stripeDataSize : ℤ
  /-- The peers that hold the shards, one for each slot. -/
  holders : List Bytes
  stripes : List Stripe
  createdAt : ℤ
  ownerPeerID : Bytes
  mode : Bytes
  wrappedKey : Bytes
  filenameEncrypted : Bool
  deriving DecidableEq

/-- `manifest.ModeShared`. -/
def modeShared : Bytes := lit "shared"

/-- `manifest.ModePrivate`. -/
def modePrivate : Bytes := lit "private"

/-- `node.Op`: the verb of a request of the blocks protocol. -/
inductive BlockOp
  | putShard
  | getShard
  | putManifest
  | getManifest
  /-- A value that the code gives no meaning. -/
  | unknown (n : UInt8)
  deriving DecidableEq

/-- `node.Request`. -/
structure Request where
  op : BlockOp
  id : Bytes
  body : Bytes := []
  deriving DecidableEq

/-- `node.Response`. -/
structure Response where
  ok : Bool
  error : Bytes := []
  body : Bytes := []
  deriving DecidableEq

/-- `spool.Kind`. -/
inductive Kind
  | shard
  | manifest
  deriving DecidableEq

/-- `spool.Entry`. The path of the entry's file is a function of these three. -/
structure SpoolEntry where
  peerID : Bytes
  kind : Kind
  key : Bytes
  deriving DecidableEq

/-- The four traffic counters of a ledger entry. -/
inductive Counter
  | storedForThem
  | servedToThem
  | storedOnThem
  | downloadedFrom
  deriving DecidableEq

/-- `ledger.Entry`: accounting and liveness of one peer. -/
structure LedgerEntry where
  peerID : Bytes
  storedForThemBytes : ℤ := 0
  servedToThemBytes : ℤ := 0
  storedOnThemBytes : ℤ := 0
  downloadedFromBytes : ℤ := 0
  isOnline : Bool := false
  consecFailures : ℤ := 0
  lastPingAt : ℤ := zeroTime
  lastSeenAt : ℤ := zeroTime
  offlineSince : ℤ := zeroTime
  reputation : ℤ := 0
  updatedAt : ℤ := zeroTime
  deriving DecidableEq

end FnShare
