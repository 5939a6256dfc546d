import FnShare.InviteFields
import Mathlib.Data.List.Forall2

/-!
# The libraries that the code calls

The code rests on packages outside the repository: Ed25519, AES-GCM, NaCl boxes, Reed-Solomon
coding, CBOR, and the peer ids of libp2p. Their functions are the fields of `Libs`, over which the
whole model is parametric. What the code relies on is stated apart, one structure for each library,
and a theorem takes the ones that it needs: signatures are ideal (`Ed25519.Ideal`), opening inverts
sealing (`Aead.Correct`, `SealedBox.Correct`), any `DataShards` of the shards give back the data
(`ReedSolomon.Mds`), a CBOR decoder gives back what was encoded, with times cut to whole seconds
(`Cbor.Lawful`), and it decodes nothing but UTF-8 text (`Cbor.Strict`).
-/

namespace FnShare

open CborFormat

/-! ## Signatures -/

/-- `crypto/ed25519`. -/
structure Ed25519 where
  /-- `ed25519.NewKeyFromSeed`: the private key that `GenerateKey` makes of 32 random bytes. -/
  newKeyFromSeed : Bytes → Bytes
  /-- The public key of a private key. -/
  pub : Bytes → Bytes
  /-- `ed25519.Sign(priv, message)`. -/
  sign : Bytes → Bytes → Bytes
  /-- `ed25519.Verify(pub, message, sig)`, on a public key of the right length. -/
  verify : Bytes → Bytes → Bytes → Bool

/-- `ed25519.PublicKeySize`. -/
def publicKeySize : ℕ := 32

/-- `ed25519.SeedSize`. -/
def seedSize : ℕ := 32

/-- `ed25519.PrivateKeySize`. -/
def privateKeySize : ℕ := 64

/-- Ideal signatures: a signature verifies under a public key exactly when it was made, over that
message, with the private key of that public key, and it tells apart the keys and the messages. -/
structure Ed25519.Ideal (E : Ed25519) : Prop where
  /-- The signatures that verify are those made with a private key of the public key. -/
  verify_iff : ∀ pub m sig, E.verify pub m sig = true ↔
    ∃ priv, priv.length = privateKeySize ∧ E.pub priv = pub ∧ sig = E.sign priv m
  /-- A signature is of one key and one message. -/
  sign_inj : ∀ priv priv' m m', priv.length = privateKeySize → priv'.length = privateKeySize →
    E.sign priv m = E.sign priv' m' → priv = priv' ∧ m = m'
  /-- A signature is not empty. -/
  sign_ne_nil : ∀ priv m, priv.length = privateKeySize → E.sign priv m ≠ []
  /-- Private keys have the length that the package checks. -/
  length_newKeyFromSeed : ∀ seed, seed.length = seedSize →
    (E.newKeyFromSeed seed).length = privateKeySize
  /-- Public keys have the length that the package checks. -/
  length_pub : ∀ priv, priv.length = privateKeySize → (E.pub priv).length = publicKeySize

namespace Ed25519.Ideal

variable {E : Ed25519} (hE : E.Ideal)
include hE

/-- A signature verifies under one public key at most. -/
theorem pub_unique {pub pub' m sig : Bytes} (h : E.verify pub m sig = true)
    (h' : E.verify pub' m sig = true) : pub = pub' := by
  obtain ⟨priv, hl, rfl, rfl⟩ := (hE.verify_iff _ _ _).mp h
  obtain ⟨priv', hl', rfl, hs⟩ := (hE.verify_iff _ _ _).mp h'
  rw [(hE.sign_inj _ _ _ _ hl hl' hs).1]

/-- What is signed verifies. -/
theorem verify_sign (priv : Bytes) (hl : priv.length = privateKeySize) (m : Bytes) :
    E.verify (E.pub priv) m (E.sign priv m) = true :=
  (hE.verify_iff _ _ _).mpr ⟨priv, hl, rfl, rfl⟩

/-- A signature verifies for one message only. -/
theorem message_unique (priv : Bytes) (hl : priv.length = privateKeySize) (m : Bytes)
    {pub m' : Bytes}
    (h : E.verify pub m' (E.sign priv m) = true) : m' = m := by
  obtain ⟨priv', hl', -, hs⟩ := (hE.verify_iff _ _ _).mp h
  exact (hE.sign_inj _ _ _ _ hl hl' hs).2.symm

end Ed25519.Ideal

/-- `ed25519.Verify`, which panics on a public key of another length: `none` is the panic. -/
def Ed25519.verifyChecked (E : Ed25519) (pub m sig : Bytes) : Option Bool :=
  if pub.length = publicKeySize then some (E.verify pub m sig) else none

/-! ## Encryption -/

/-- AES-256-GCM under a key and a nonce. -/
structure Aead where
  /-- `gcm.Seal`. -/
  gcmSeal : (key nonce plaintext : Bytes) → Bytes
  /-- `gcm.Open`; `none` is an authentication failure. -/
  gcmOpen : (key nonce ciphertext : Bytes) → Option Bytes

/-- Opening inverts sealing, and a sealed text is longer by the tag. -/
structure Aead.Correct (A : Aead) : Prop where
  open_seal : ∀ key nonce plaintext, A.gcmOpen key nonce (A.gcmSeal key nonce plaintext) = some plaintext
  length_seal : ∀ key nonce plaintext, (A.gcmSeal key nonce plaintext).length = plaintext.length + 16

/-- The anonymous boxes of NaCl. -/
structure SealedBox where
  /-- The public key of a private key. -/
  pub : Bytes → Bytes
  /-- `box.SealAnonymous`, with the random bytes that its ephemeral key comes from. -/
  boxSeal : (plaintext recipientPub ephemeral : Bytes) → Bytes
  /-- `box.OpenAnonymous`. -/
  boxOpen : (ciphertext recipientPub recipientPriv : Bytes) → Option Bytes

/-- The holder of the private key opens what was sealed to its public key. -/
structure SealedBox.Correct (B : SealedBox) : Prop where
  open_seal : ∀ plaintext priv ephemeral,
    B.boxOpen (B.boxSeal plaintext (B.pub priv) ephemeral) (B.pub priv) priv = some plaintext

/-! ## Erasure coding -/

/-- `reedsolomon.Encoder` for `k` data and `m` parity shards. A missing shard is `none`; the library
takes an empty one for missing too. -/
structure ReedSolomon where
  /-- `reedsolomon.New`. -/
  new : (k m : ℤ) → Except GoErr Unit
  /-- `enc.Split`: the data in `k` equal parts, padded with zeroes, and room for the parity. -/
  split : (k m : ℤ) → Bytes → Except GoErr (List Bytes)
  /-- `enc.Encode`: the parity filled in. -/
  encode : (k m : ℤ) → List Bytes → Except GoErr (List Bytes)
  /-- `enc.Reconstruct`: the missing shards filled in. -/
  reconstruct : (k m : ℤ) → List (Option Bytes) → Except GoErr (List (Option Bytes))
  /-- `enc.Verify`: whether the parity is that of the data. -/
  verify : (k m : ℤ) → List (Option Bytes) → Except GoErr Bool

/-- The number of shards that are present. -/
def present (shards : List (Option Bytes)) : ℕ := shards.countP Option.isSome

/-- Some of the shards of a stripe: each slot has its shard or nothing. -/
def SomeOf (shards : List Bytes) (got : List (Option Bytes)) : Prop :=
  List.Forall₂ (fun s g => g = none ∨ g = some s) shards got

/-- None of the shards. -/
theorem someOf_none {α : Type} {shs : List Bytes} {l : List α} (h : shs.length = l.length) :
    SomeOf shs (l.map fun _ => none) := by
  induction shs generalizing l with
  | nil =>
    obtain rfl := List.length_eq_zero_iff.mp h.symm
    exact .nil
  | cons s shs ih =>
    cases l with
    | nil => exact absurd h (by simp)
    | cons a l => exact .cons (.inl rfl) (ih (by simpa using h))

/-- Nothing is present. -/
theorem present_none {α : Type} (l : List α) : present (l.map fun _ => none) = 0 := by
  simp [present, List.countP_eq_zero]

/-- One more answer. -/
theorem present_cons (g : Option Bytes) (got : List (Option Bytes)) :
    present (g :: got) = present got + if g.isSome then 1 else 0 := List.countP_cons ..

/-- What `Split` and `Encode` make of data: `k + m` shards that are not empty, of which the first
`k` are the data padded with zeroes, and any `k` give back the rest. -/
structure ReedSolomon.Encodes (R : ReedSolomon) (k m : ℤ) (data : Bytes) (shards : List Bytes) :
    Prop where
  length_eq : (shards.length : ℤ) = k + m
  nonempty : ∀ s ∈ shards, s ≠ []
  data_eq : ∃ pad, (shards.take k.toNat).flatten = data ++ List.replicate pad 0
  reconstruct : ∀ got, SomeOf shards got → k ≤ present got →
    R.reconstruct k m got = .ok (shards.map some)
  verify : R.verify k m (shards.map some) = .ok true

/-- `Reconstruct` fails if fewer than `k` of the shards are there and not empty. -/
def ReedSolomon.NeedsData (R : ReedSolomon) : Prop :=
  ∀ k m shards, R.new k m = .ok () → (shards.countP (fun s => s.any (!·.isEmpty)) : ℤ) < k →
    ∃ e, R.reconstruct k m shards = .error e

/-- `Reconstruct` fills in shards in their place. -/
def ReedSolomon.InPlace (R : ReedSolomon) : Prop :=
  ∀ k m shards full, R.reconstruct k m shards = .ok full → full.length = shards.length

/-- The code has the maximum distance: where the encoder exists, it encodes any data but none. There
is no encoder for more than 65536 shards. -/
structure ReedSolomon.Mds (R : ReedSolomon) : Prop where
  total_le : ∀ k m, R.new k m = .ok () → k + m ≤ 65536
  encodes : ∀ k m data, 1 ≤ k → 1 ≤ m → R.new k m = .ok () → data ≠ [] →
    ∃ parts shards, R.split k m data = .ok parts ∧ R.encode k m parts = .ok shards ∧
      R.Encodes k m data shards

/-! ## CBOR -/

/-- Encoding and decoding of the values of one type. -/
structure Codec (α : Type) where
  /-- `cbor.Marshal`, which has no error on these types. -/
  marshal : α → Bytes
  /-- `cbor.Unmarshal`. -/
  unmarshal : Bytes → Except GoErr α

/-- `fxamacker/cbor` with default options, at the types that the code uses it with. The three structs of an
invite are encoded as the maps of their fields. -/
structure Cbor where
  group : Codec Group
  member : Codec Member
  manifest : Codec Manifest
  ledgerEntry : Codec LedgerEntry
  /-- A single string. -/
  text : Codec Bytes
  /-- `Marshal` of a value of the data model. -/
  encode : Value → Bytes
  /-- `Unmarshal` into an invite. -/
  unmarshalInvite : Bytes → Except GoErr Invite
  /-- `Unmarshal` into the type that `verifyInviteSignature` declares. -/
  unmarshalSignedPayload : Bytes → Except GoErr SignedPayload
  /-- `Unmarshal` into the three fields that `VerifyMembership` reads. -/
  unmarshalHead : Bytes → Except GoErr InviteHead
  /-- `Unmarshal` into a `map[string]cbor.RawMessage`. -/
  unmarshalRawMap : Bytes → Except GoErr (List (Bytes × Bytes))
  /-- `Unmarshal` into a `[]byte`. -/
  unmarshalBytes : Bytes → Except GoErr (Option Bytes)

namespace Cbor

/-- `Marshal` and `Unmarshal` of an invite. -/
def invite (C : Cbor) : Codec Invite := ⟨fun i => C.encode (inviteValue i), C.unmarshalInvite⟩

/-- `Marshal` of the signed part of an invite. -/
def marshalPayload (C : Cbor) (p : Payload) : Bytes := C.encode (payloadValue p)

/-- `Marshal` and `Unmarshal` of the type that `verifyInviteSignature` declares. -/
def signedPayload (C : Cbor) : Codec SignedPayload :=
  ⟨fun p => C.encode (signedPayloadValue p), C.unmarshalSignedPayload⟩

/-- The two structs of the signed fields are encoded alike. -/
theorem marshal_signedPayload (C : Cbor) (p : SignedPayload) :
    C.signedPayload.marshal p = C.marshalPayload p.toPayload :=
  congrArg C.encode (signedPayloadValue_eq p)

end Cbor

/-- A codec that gives back every value of text `valid`, up to `norm`, and rejects the others. -/
def Codec.Restores {α : Type} (c : Codec α) (valid : α → Bool) (norm : α → α) : Prop :=
  ∀ a, if valid a then c.unmarshal (c.marshal a) = .ok (norm a)
    else ∃ e, c.unmarshal (c.marshal a) = .error e

/-- A valid value is decoded to its normal form. -/
theorem Codec.Restores.unmarshal_marshal {α : Type} {c : Codec α} {valid : α → Bool} {norm : α → α}
    (h : c.Restores valid norm) {a : α} (ha : valid a = true) : c.unmarshal (c.marshal a) = .ok (norm a) := by
  have hdec := h a
  rwa [if_pos ha] at hdec

/-- What a value is decoded to is its normal form. -/
theorem Codec.Restores.eq_norm {α : Type} {c : Codec α} {valid : α → Bool} {norm : α → α}
    (h : c.Restores valid norm) {a b : α} (hb : c.unmarshal (c.marshal a) = .ok b) : b = norm a := by
  have hdec := h a
  split_ifs at hdec
  · exact Except.ok.inj (hb.symm.trans hdec)
  · obtain ⟨e, he⟩ := hdec
    cases hb.symm.trans he

/-- All text of a group descriptor is UTF-8. -/
def Group.validText (g : Group) : Bool := validUTF8 g.id && validUTF8 g.name

/-- A group descriptor with its time cut to whole seconds. -/
def Group.norm (g : Group) : Group := { g with createdAt := wholeSeconds g.createdAt }

/-- All text of a membership entry is UTF-8. -/
def Member.validText (m : Member) : Bool :=
  validUTF8 m.peerID && validUTF8 m.nickname && m.lastAddrs.all validUTF8

/-- A membership entry with its time cut to whole seconds. -/
def Member.norm (m : Member) : Member := { m with joinedAt := wholeSeconds m.joinedAt }

/-- All text of a manifest is UTF-8. -/
def Manifest.validText (m : Manifest) : Bool :=
  validUTF8 m.fileID && validUTF8 m.groupID && validUTF8 m.filename && m.holders.all validUTF8 &&
    m.stripes.all (fun s => s.shardIDs.all validUTF8) && validUTF8 m.ownerPeerID &&
    validUTF8 m.mode

/-- The text of a manifest, with other holders. -/
theorem Manifest.validText_setHolders {m : Manifest} (h : m.validText = true) {hs : List Bytes}
    (hhs : ∀ x ∈ hs, validUTF8 x = true) : ({ m with holders := hs } : Manifest).validText = true := by
  simp only [Manifest.validText, Bool.and_eq_true] at h ⊢
  obtain ⟨⟨⟨⟨hids, -⟩, hstripes⟩, howner⟩, hmode⟩ := h
  exact ⟨⟨⟨⟨hids, List.all_eq_true.mpr hhs⟩, hstripes⟩, howner⟩, hmode⟩

/-- A manifest with its time cut to whole seconds. -/
def Manifest.norm (m : Manifest) : Manifest := { m with createdAt := wholeSeconds m.createdAt }

/-- All text of a ledger entry is UTF-8. -/
def LedgerEntry.validText (e : LedgerEntry) : Bool := validUTF8 e.peerID

/-- A ledger entry with its times cut to whole seconds. -/
def LedgerEntry.norm (e : LedgerEntry) : LedgerEntry :=
  { e with
    lastPingAt := wholeSeconds e.lastPingAt
    lastSeenAt := wholeSeconds e.lastSeenAt
    offlineSince := wholeSeconds e.offlineSince
    updatedAt := wholeSeconds e.updatedAt }

/-- An encoded value with valid text is decoded to what its fields make. -/
def Decodes {α : Type} (enc : Value → Bytes) (unmarshal : Bytes → Except GoErr α)
    (ofValue : Value → Option α) :
    Prop :=
  ∀ {v a}, v.validText = true → ofValue v = some a → unmarshal (enc v) = .ok a

/-- What the code relies on of CBOR with default options. Strings are encoded verbatim and only
UTF-8 is decoded; a time is its whole Unix seconds; a nil slice stays nil and an empty one empty; a
struct is decoded from the fields of a map that it has, whatever others there are. The library's limit
of 131072 elements of an array is left out. -/
structure Cbor.Lawful (C : Cbor) : Prop where
  group : C.group.Restores Group.validText Group.norm
  member : C.member.Restores Member.validText Member.norm
  manifest : C.manifest.Restores Manifest.validText Manifest.norm
  ledgerEntry : C.ledgerEntry.Restores LedgerEntry.validText LedgerEntry.norm
  text : C.text.Restores validUTF8 id
  encode_ne_nil : ∀ v, C.encode v ≠ []
  unmarshalInvite : Decodes C.encode C.unmarshalInvite valueInvite
  unmarshalSignedPayload : Decodes C.encode C.unmarshalSignedPayload valueSignedPayload
  unmarshalHead : Decodes C.encode C.unmarshalHead valueHead
  unmarshalRawMap : Decodes C.encode C.unmarshalRawMap (valueRawMap C.encode)
  unmarshalBytes : Decodes C.encode C.unmarshalBytes Value.toBytes?
  /-- An invite with other text is not decoded. -/
  invite_invalid : ∀ i : Invite, i.toPayload.validText = false →
    ∃ e, C.unmarshalInvite (C.encode (inviteValue i)) = .error e

/-- An encoding is as long as that with the shortest heads, which the library writes by default. -/
def Cbor.Shortest (C : Cbor) : Prop := ∀ v, (C.encode v).length = (CborFormat.encode v).length

namespace Cbor.Lawful

variable {C : Cbor} (hC : C.Lawful)
include hC

/-- An invite is decoded as it was encoded. -/
theorem invite : C.invite.Restores (fun i => i.toPayload.validText) id := by
  intro i
  by_cases h : i.toPayload.validText = true
  · rw [if_pos h]
    exact hC.unmarshalInvite (by rwa [validText_inviteValue]) (valueInvite_inviteValue i)
  · rw [if_neg h]
    exact hC.invite_invalid i (Bool.not_eq_true _ ▸ h)

/-- An encoded invite is not empty. -/
theorem invite_ne_nil (i : Invite) : C.invite.marshal i ≠ [] := hC.encode_ne_nil _

variable {i : Invite} (hi : i.toPayload.validText = true)
include hi

/-- The signed fields of an encoded invite. -/
theorem signedPayload_of_invite :
    C.signedPayload.unmarshal (C.invite.marshal i) = .ok (.ofPayload i.toPayload) :=
  hC.unmarshalSignedPayload (by rwa [validText_inviteValue]) (valueSignedPayload_inviteValue i)

/-- The fields of an encoded invite that `VerifyMembership` reads. -/
theorem head_of_invite :
    C.unmarshalHead (C.invite.marshal i) = .ok ⟨i.groupID, i.groupAdminPub, i.signature⟩ :=
  hC.unmarshalHead (by rwa [validText_inviteValue]) (valueHead_inviteValue i)

/-- The signature field of an encoded invite, taken out of the map of its fields. -/
theorem sig_of_invite : ∃ fields raw, C.unmarshalRawMap (C.invite.marshal i) = .ok fields ∧
    fields.lookup (lit "sig") = some raw ∧ C.unmarshalBytes raw = .ok i.signature := by
  obtain ⟨fields, hfields, hlook⟩ := lookup_rawMap_sig C.encode i
  exact ⟨fields, _, hC.unmarshalRawMap (by rwa [validText_inviteValue]) hfields, hlook,
    hC.unmarshalBytes (validText_ofBytes? _) (toBytes?_ofBytes? _)⟩

end Cbor.Lawful

/-- What is decoded has only UTF-8 text in it, whoever encoded it. -/
structure Cbor.Strict (C : Cbor) : Prop where
  group : ∀ {raw g}, C.group.unmarshal raw = .ok g → g.validText = true
  member : ∀ {raw mem}, C.member.unmarshal raw = .ok mem → mem.validText = true
  manifest : ∀ {raw m}, C.manifest.unmarshal raw = .ok m → m.validText = true

/-! ## All of them -/

/-- The libraries that the code calls. -/
structure Libs where
  ed25519 : Ed25519
  aead : Aead
  box : SealedBox
  rs : ReedSolomon
  cbor : Cbor
  /-- `peer.Decode` followed by `String`: the canonical form of a peer id. -/
  peerDecode : Bytes → Except GoErr Bytes

end FnShare
