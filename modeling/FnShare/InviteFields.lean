import FnShare.Types
import FnShare.Lib.Cbor

/-!
# The fields of an invite

An invite is a CBOR map of its fields. The repository writes this map in three places: the struct `Invite` of
`internal/invite`, its struct `payload`, over which an invite is signed, and the struct `signedPayload` of
`internal/group`, over which a stored invite is verified. Each has its own list of fields, with their names
and options. Here they stand as values of CBOR's data model, one list for each struct, and with the fields
that each struct takes out of a map when it is decoded.

That the signed part comes out of an encoded invite with the names and the order under which it was signed is
then a fact about the lists (`valueSignedPayload_inviteValue`, `signedPayloadValue_eq`).
-/

namespace FnShare

open CborFormat

/-- The fields of a struct; anything but a map has none. -/
def structFields : Value → Option (List (Bytes × Value))
  | .map kvs => some kvs
  | _ => none

/-! ## The structs -/

/-- `invite.Invite`. -/
def inviteValue (i : Invite) : Value :=
  .map <|
    (lit "gid", .text i.groupID) ::
    (lit "name", .text i.groupName) ::
    (lit "apub", ofBytes? i.groupAdminPub) ::
    (lit "sk", ofBytes? i.groupSharedKey) ::
    (lit "boot", ofTexts? i.bootstrapPeers) ::
    (lit "nonce", ofBytes? i.nonce) ::
    (lit "iat", .int i.issuedAt) ::
    (lit "exp", .int i.expiresAt) ::
    omitEmpty (i.quotaCap == 0) (lit "quota") (.int i.quotaCap)
    ((lit "sig", ofBytes? i.signature) :: [])

/-- `invite.payload`. -/
def payloadValue (p : Payload) : Value :=
  .map <|
    (lit "gid", .text p.groupID) ::
    (lit "name", .text p.groupName) ::
    (lit "apub", ofBytes? p.groupAdminPub) ::
    (lit "sk", ofBytes? p.groupSharedKey) ::
    (lit "boot", ofTexts? p.bootstrapPeers) ::
    (lit "nonce", ofBytes? p.nonce) ::
    (lit "iat", .int p.issuedAt) ::
    (lit "exp", .int p.expiresAt) ::
    omitEmpty (p.quotaCap == 0) (lit "quota") (.int p.quotaCap) []

/-- `signedPayload` of `verifyInviteSignature`. -/
def signedPayloadValue (p : SignedPayload) : Value :=
  .map <|
    (lit "gid", .text p.groupID) ::
    (lit "name", .text p.groupName) ::
    (lit "apub", ofBytes? p.groupAdminPub) ::
    (lit "sk", ofBytes? p.groupSharedKey) ::
    (lit "boot", ofTexts? p.bootstrapPeers) ::
    (lit "nonce", ofBytes? p.nonce) ::
    (lit "iat", .int p.issuedAt) ::
    (lit "exp", .int p.expiresAt) ::
    omitEmpty (p.quotaCap == 0) (lit "quota") (.int p.quotaCap) []

/-- `invite.Invite`, decoded. -/
def valueInvite (v : Value) : Option Invite := do
  let fs ← structFields v
  return {
    groupID := ← field fs (lit "gid") Value.toText []
    groupName := ← field fs (lit "name") Value.toText []
    groupAdminPub := ← field fs (lit "apub") Value.toBytes? none
    groupSharedKey := ← field fs (lit "sk") Value.toBytes? none
    bootstrapPeers := ← field fs (lit "boot") Value.toTexts? none
    nonce := ← field fs (lit "nonce") Value.toBytes? none
    issuedAt := ← field fs (lit "iat") Value.toInt 0
    expiresAt := ← field fs (lit "exp") Value.toInt 0
    quotaCap := ← field fs (lit "quota") Value.toInt 0
    signature := ← field fs (lit "sig") Value.toBytes? none }

/-- `signedPayload` of `verifyInviteSignature`, decoded. -/
def valueSignedPayload (v : Value) : Option SignedPayload := do
  let fs ← structFields v
  return {
    groupID := ← field fs (lit "gid") Value.toText []
    groupName := ← field fs (lit "name") Value.toText []
    groupAdminPub := ← field fs (lit "apub") Value.toBytes? none
    groupSharedKey := ← field fs (lit "sk") Value.toBytes? none
    bootstrapPeers := ← field fs (lit "boot") Value.toTexts? none
    nonce := ← field fs (lit "nonce") Value.toBytes? none
    issuedAt := ← field fs (lit "iat") Value.toInt 0
    expiresAt := ← field fs (lit "exp") Value.toInt 0
    quotaCap := ← field fs (lit "quota") Value.toInt 0 }

/-- The fields of an invite that `VerifyMembership` decodes. -/
def valueHead (v : Value) : Option InviteHead := do
  let fs ← structFields v
  return {
    groupID := ← field fs (lit "gid") Value.toText []
    groupAdminPub := ← field fs (lit "apub") Value.toBytes? none
    signature := ← field fs (lit "sig") Value.toBytes? none }

/-- The fields of a struct, each encoded by itself. -/
def valueRawMap (enc : Value → Bytes) (v : Value) : Option (List (Bytes × Bytes)) :=
  (structFields v).map (·.map fun kv => (kv.1, enc kv.2))

/-! ## What is read back -/

/-- All text of an invite's payload is UTF-8. -/
def Payload.validText (p : Payload) : Bool :=
  validUTF8 p.groupID && validUTF8 p.groupName && (p.bootstrapPeers.getD []).all validUTF8

/-- A number that is left out when it is zero is read back. -/
theorem some_of_zero (z : ℤ) : (if z = 0 then some 0 else some z) = some z := by
  split_ifs with h
  · rw [h]
  · rfl

/-- A field that decodes, in a sequence of them. -/
theorem bind_of_some {α β : Type} {x : Option α} {a : α} {f : α → Option β} {r : Option β}
    (hx : x = some a) (hf : f a = r) : x >>= f = r := by
  rw [hx]
  exact hf

/-- The quota of an invite is read back, before its signature. -/
theorem field_quota (q : ℤ) (sig : Value) :
    field (omitEmpty (q == 0) (lit "quota") (.int q) [(lit "sig", sig)])
    (lit "quota") Value.toInt 0 = some q := by
  rw [field_omitEmpty_self, field_cons_ne (by decide)]
  simpa [Value.toInt] using some_of_zero q

/-- The signature of an invite is read back, after its quota. -/
theorem field_sig (isEmpty : Bool) (q : Value) (sig : Option Bytes) :
    field (omitEmpty isEmpty (lit "quota") q [(lit "sig", ofBytes? sig)]) (lit "sig") Value.toBytes? none =
      some sig := by
  rw [field_omitEmpty_ne _ (by decide)]
  exact toBytes?_ofBytes? sig

/-- An invite is read back from its map. -/
theorem valueInvite_inviteValue (i : Invite) : valueInvite (inviteValue i) = some i := by
  -- The fields in the order of the struct.
  refine bind_of_some rfl (bind_of_some rfl (bind_of_some rfl ?_))
  refine bind_of_some (toBytes?_ofBytes? _) (bind_of_some (toBytes?_ofBytes? _) ?_)
  refine bind_of_some (toTexts?_ofTexts? _) (bind_of_some (toBytes?_ofBytes? _) ?_)
  refine bind_of_some rfl (bind_of_some rfl ?_)
  exact bind_of_some (field_quota _ _) (bind_of_some (field_sig _ _ _) rfl)

/-- What `signedPayload` takes out of the map of an invite are the invite's fields without the signature. -/
theorem valueSignedPayload_inviteValue (i : Invite) :
    valueSignedPayload (inviteValue i) = some (SignedPayload.ofPayload i.toPayload) := by
  refine bind_of_some rfl (bind_of_some rfl (bind_of_some rfl ?_))
  refine bind_of_some (toBytes?_ofBytes? _) (bind_of_some (toBytes?_ofBytes? _) ?_)
  refine bind_of_some (toTexts?_ofTexts? _) (bind_of_some (toBytes?_ofBytes? _) ?_)
  refine bind_of_some rfl (bind_of_some rfl ?_)
  exact bind_of_some (field_quota _ _) rfl

/-- The two structs of the signed fields have the same map. -/
theorem signedPayloadValue_eq (p : SignedPayload) : signedPayloadValue p = payloadValue p.toPayload := rfl

/-- What `VerifyMembership` takes out of the map of an invite. -/
theorem valueHead_inviteValue (i : Invite) :
    valueHead (inviteValue i) = some ⟨i.groupID, i.groupAdminPub, i.signature⟩ := by
  refine bind_of_some rfl (bind_of_some rfl (bind_of_some (toBytes?_ofBytes? _) ?_))
  exact bind_of_some (field_sig _ _ _) rfl

/-- The signature is under its name in the map of an invite's fields. -/
theorem lookup_rawMap_sig (enc : Value → Bytes) (i : Invite) :
    ∃ fields, valueRawMap enc (inviteValue i) = some fields ∧
      fields.lookup (lit "sig") = some (enc (ofBytes? i.signature)) := by
  refine ⟨_, rfl, ?_⟩
  unfold omitEmpty
  split_ifs <;> rfl

/-- The text of the map of an invite is that of its payload. -/
theorem validText_inviteValue (i : Invite) : (inviteValue i).validText = i.toPayload.validText := by
  simp (disch := decide) [inviteValue, Value.validText, validTextPairs_cons, validTextPairs_omitEmpty,
    Payload.validText, Bool.and_assoc]

end FnShare
