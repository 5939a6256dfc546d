import FnShare.Invite
import FnShare.Membership
import FnShare.Lib.Base64

/-!
# The join request on the wire

A join request travels as JSON, with the invite in it, and the node that lets the peer in stores the invite as
CBOR. So the signature of an invite is checked by two functions on two sides of these encodings: `Verify` of
`internal/invite` on the struct, and `verifyInviteSignature` of `internal/group`, which takes the signature
out of the stored CBOR and encodes the signed fields anew, by a struct of its own. They agree on every invite,
before and after the journey (`verifiers_agree`).

JSON shares the data model of CBOR, but for byte strings: `encoding/json` writes a byte slice as text in
base64, a nil slice as null, and makes text valid. What it does with the structs is defined here; that it
reads the text of a value back as the value is a law (`Json.Faithful`).
-/

namespace FnShare

open CborFormat

/-! ## Values in JSON -/

mutual

/-- A value that JSON can hold: no byte strings, and its text is UTF-8. -/
def isJSON : Value → Bool
  | .bytes _ => false
  | .text b => validUTF8 b
  | .array vs => isJSONList vs
  | .map kvs => isJSONPairs kvs
  | _ => true

def isJSONList : List Value → Bool
  | [] => true
  | v :: vs => isJSON v && isJSONList vs

def isJSONPairs : List (Bytes × Value) → Bool
  | [] => true
  | (k, v) :: kvs => validUTF8 k && (isJSON v && isJSONPairs kvs)

end

/-- `encoding/json` between values and their text. -/
structure Json where
  render : Value → Bytes
  parse : Bytes → Option Value

/-- What is relied on of `encoding/json`: the text of a value is read as the value. -/
def Json.Faithful (J : Json) : Prop := ∀ v, isJSON v = true → J.parse (J.render v) = some v

/-- A string, with what is no UTF-8 in it replaced. -/
def jsonText (s : Bytes) : Value := .text (toValidUTF8 s)

/-- A string, decoded; null leaves it empty. -/
def ofJsonText : Value → Option Bytes
  | .text s => some s
  | .null => some []
  | _ => none

/-- An integer, decoded; null leaves it zero. -/
def ofJsonInt : Value → Option ℤ
  | .int z => some z
  | .null => some 0
  | _ => none

/-- A byte slice that may be nil. -/
def jsonBytes? : Option Bytes → Value
  | none => .null
  | some b => .text (Base64.encodeStd b)

/-- A byte slice that may be nil, decoded. -/
def ofJsonBytes? : Value → Option (Option Bytes)
  | .text s => (Base64.decodeStd s).map some
  | .null => some none
  | _ => none

/-- A byte slice, where nil and empty are not told apart. -/
def ofJsonBytes (v : Value) : Option Bytes := (ofJsonBytes? v).map sliceBytes

/-- A slice of strings that may be nil. -/
def jsonTexts? : Option (List Bytes) → Value
  | none => .null
  | some ts => .array (ts.map jsonText)

/-- A slice of strings that may be nil, decoded. -/
def ofJsonTexts? : Value → Option (Option (List Bytes))
  | .array vs => (vs.mapM ofJsonText).map some
  | .null => some none
  | _ => none

/-- A text is read back, made valid. -/
@[simp] theorem ofJsonText_jsonText (s : Bytes) : ofJsonText (jsonText s) = some (toValidUTF8 s) := rfl

/-- A number is read back. -/
@[simp] theorem ofJsonInt_int (z : ℤ) : ofJsonInt (.int z) = some z := rfl

/-- Bytes are read back, if there are any. -/
@[simp] theorem ofJsonBytes?_jsonBytes? (b : Option Bytes) : ofJsonBytes? (jsonBytes? b) = some b := by
  cases b with
  | none => rfl
  | some b => simp [jsonBytes?, ofJsonBytes?, Base64.decodeStd_encodeStd]

/-- Bytes are read back. -/
@[simp] theorem ofJsonBytes_jsonBytes? (b : Bytes) : ofJsonBytes (jsonBytes? (some b)) = some b := by
  simp [ofJsonBytes, sliceBytes]

/-- Texts are read back, made valid. -/
theorem mapM_jsonText (ts : List Bytes) :
    (ts.map jsonText).mapM ofJsonText = some (ts.map toValidUTF8) := by
  induction ts with
  | nil => rfl
  | cons t ts ih => simp [ih]

/-- So is a list, if there is one. -/
@[simp] theorem ofJsonTexts?_jsonTexts? (ts : Option (List Bytes)) :
    ofJsonTexts? (jsonTexts? ts) = some (ts.map (·.map toValidUTF8)) := by
  cases ts with
  | none => rfl
  | some ts => simp only [jsonTexts?, ofJsonTexts?, mapM_jsonText, Option.map_some]

/-- A text is JSON. -/
@[simp] theorem isJSON_jsonText (s : Bytes) : isJSON (jsonText s) = true := validUTF8_toValidUTF8 s

/-- A number is JSON. -/
@[simp] theorem isJSON_int (z : ℤ) : isJSON (.int z) = true := rfl

/-- Bytes are JSON. -/
@[simp] theorem isJSON_jsonBytes? (b : Option Bytes) : isJSON (jsonBytes? b) = true := by
  cases b with
  | none => rfl
  | some b => exact validUTF8_of_ascii fun _ => Base64.encodeStd_ascii

/-- A list of texts is JSON. -/
@[simp] theorem isJSON_jsonTexts? (ts : Option (List Bytes)) : isJSON (jsonTexts? ts) = true := by
  cases ts with
  | none => rfl
  | some ts =>
    unfold jsonTexts? isJSON
    induction ts with
    | nil => rfl
    | cons t ts ih => simp [isJSONList, ih]

/-- There is no field. -/
@[simp] theorem isJSONPairs_nil : isJSONPairs [] = true := rfl

/-- One more field. -/
theorem isJSONPairs_cons {k : Bytes} {v : Value} {kvs : List (Bytes × Value)} (hk : validUTF8 k = true) :
    isJSONPairs ((k, v) :: kvs) = (isJSON v && isJSONPairs kvs) := by
  simp [isJSONPairs, hk]

/-! ## The structs -/

/-- `invite.Invite`, whose fields have no names for JSON but their own. -/
def inviteJSON (i : Invite) : Value :=
  .map [
    (lit "GroupID", jsonText i.groupID),
    (lit "GroupName", jsonText i.groupName),
    (lit "GroupAdminPub", jsonBytes? i.groupAdminPub),
    (lit "GroupSharedKey", jsonBytes? i.groupSharedKey),
    (lit "BootstrapPeers", jsonTexts? i.bootstrapPeers),
    (lit "Nonce", jsonBytes? i.nonce),
    (lit "IssuedAt", .int i.issuedAt),
    (lit "ExpiresAt", .int i.expiresAt),
    (lit "QuotaCap", .int i.quotaCap),
    (lit "Signature", jsonBytes? i.signature)]

/-- A pointer to an invite. -/
def inviteJSON? : Option Invite → Value
  | none => .null
  | some i => inviteJSON i

/-- A pointer to an invite, decoded. -/
def ofInviteJSON? : Value → Option (Option Invite)
  | .null => some none
  | .map fs => do
    return some {
      groupID := ← field fs (lit "GroupID") ofJsonText []
      groupName := ← field fs (lit "GroupName") ofJsonText []
      groupAdminPub := ← field fs (lit "GroupAdminPub") ofJsonBytes? none
      groupSharedKey := ← field fs (lit "GroupSharedKey") ofJsonBytes? none
      bootstrapPeers := ← field fs (lit "BootstrapPeers") ofJsonTexts? none
      nonce := ← field fs (lit "Nonce") ofJsonBytes? none
      issuedAt := ← field fs (lit "IssuedAt") ofJsonInt 0
      expiresAt := ← field fs (lit "ExpiresAt") ofJsonInt 0
      quotaCap := ← field fs (lit "QuotaCap") ofJsonInt 0
      signature := ← field fs (lit "Signature") ofJsonBytes? none }
  | _ => none

/-- `node.JoinRequest`. -/
def joinRequestJSON (r : JoinRequest) : Value :=
  .map <|
    (lit "invite", inviteJSON? r.invite) ::
    (lit "nickname", jsonText r.nickname) ::
    (lit "contributed_bytes", .int r.contributed) ::
    (lit "node_pub", jsonBytes? (some r.nodePub)) ::
    omitEmpty r.encPub.isEmpty (lit "enc_pub") (jsonBytes? (some r.encPub)) []

/-- `node.JoinRequest`, decoded. -/
def ofJoinRequestJSON (v : Value) : Option JoinRequest := do
  let fs ← structFields v
  return {
    invite := ← field fs (lit "invite") ofInviteJSON? none
    nickname := ← field fs (lit "nickname") ofJsonText []
    contributed := ← field fs (lit "contributed_bytes") ofJsonInt 0
    nodePub := ← field fs (lit "node_pub") ofJsonBytes []
    encPub := ← field fs (lit "enc_pub") ofJsonBytes [] }

/-- The join request as `JoinViaPeer` writes it. -/
def Json.writeRequest (J : Json) (r : JoinRequest) : Bytes := J.render (joinRequestJSON r)

/-- The join request as `handleJoin` reads it. -/
def Json.readRequest (J : Json) (raw : Bytes) : Option JoinRequest := J.parse raw >>= ofJoinRequestJSON

/-! ## What arrives -/

/-- An invite as it arrives. -/
def Invite.overJSON (i : Invite) : Invite :=
  { i with
    groupID := toValidUTF8 i.groupID
    groupName := toValidUTF8 i.groupName
    bootstrapPeers := i.bootstrapPeers.map (·.map toValidUTF8) }

/-- A join request as it arrives. -/
def JoinRequest.overJSON (r : JoinRequest) : JoinRequest :=
  { r with
    invite := r.invite.map Invite.overJSON
    nickname := toValidUTF8 r.nickname }

/-- Valid text arrives unchanged, and so does all else of an invite. -/
theorem Invite.overJSON_of_valid {i : Invite} (h : i.toPayload.validText = true) : i.overJSON = i := by
  simp only [Payload.validText, Bool.and_eq_true, List.all_eq_true] at h
  have hboot : i.bootstrapPeers.map (·.map toValidUTF8) = i.bootstrapPeers := by
    cases hb : i.bootstrapPeers with
    | none => rfl
    | some ts =>
      have hmap : ts.map toValidUTF8 = ts := by
        rw [List.map_congr_left fun t ht => toValidUTF8_of_valid (h.2 t (by simpa [hb] using ht)),
          List.map_id']
      rw [Option.map_some, hmap]
  simp only [Invite.overJSON, toValidUTF8_of_valid h.1.1, toValidUTF8_of_valid h.1.2, hboot]

/-- An invite is read back, if there is one. -/
theorem ofInviteJSON?_inviteJSON? (i : Option Invite) :
    ofInviteJSON? (inviteJSON? i) = some (i.map Invite.overJSON) := by
  cases i with
  | none => rfl
  | some i =>
    simp (disch := decide) [inviteJSON?, inviteJSON, ofInviteJSON?, field_cons_ne, Invite.overJSON]

/-- A request to join is read back. -/
theorem ofJoinRequestJSON_joinRequestJSON (r : JoinRequest) :
    ofJoinRequestJSON (joinRequestJSON r) = some r.overJSON := by
  simp (disch := decide) [ofJoinRequestJSON, joinRequestJSON, structFields, field_cons_ne,
    field_omitEmpty_self, ofInviteJSON?_inviteJSON?, JoinRequest.overJSON, some_of_empty]

/-- An invite is JSON. -/
theorem isJSON_inviteJSON? (i : Option Invite) : isJSON (inviteJSON? i) = true := by
  cases i with
  | none => rfl
  | some i => simp (disch := decide) [inviteJSON?, inviteJSON, isJSON, isJSONPairs_cons]

/-- A request to join is JSON. -/
theorem isJSON_joinRequestJSON (r : JoinRequest) : isJSON (joinRequestJSON r) = true := by
  unfold joinRequestJSON omitEmpty
  split_ifs <;> simp (disch := decide) [isJSON, isJSONPairs_cons, isJSON_inviteJSON?]

/-- A request arrives, with its text made valid. -/
theorem readRequest_writeRequest {J : Json} (hJ : J.Faithful) (r : JoinRequest) :
    J.readRequest (J.writeRequest r) = some r.overJSON := by
  unfold Json.readRequest Json.writeRequest
  rw [hJ _ (isJSON_joinRequestJSON r)]
  exact ofJoinRequestJSON_joinRequestJSON r

/-! ## The two verifiers -/

section Verifiers

variable {L : Libs}

/-- The check of an encoded invite is the check of its signed fields. -/
theorem verifyInviteSignature_marshal (hC : L.cbor.Lawful) {inv : Invite}
    (htext : inv.toPayload.validText = true) (hpub : (sliceBytes inv.groupAdminPub).length = publicKeySize) :
    verifyInviteSignature L (L.cbor.invite.marshal inv) (sliceBytes inv.groupAdminPub) =
      some (inv.selfSigned L) := by
  obtain ⟨fields, raw, hfields, hlook, hbytes⟩ := hC.sig_of_invite htext
  unfold verifyInviteSignature Invite.selfSigned Ed25519.verifyChecked
  simp only [hfields, hlook, hbytes, hC.signedPayload_of_invite htext, if_pos hpub]
  rw [Cbor.marshal_signedPayload]
  rfl

/-- `verifyInviteSignature` on an encoded invite and the check of `Verify` say the same, for every invite with
valid text and a key of the right length. They say the same again about the invite that comes out of a join
request. -/
theorem verifiers_agree {J : Json} (hC : L.cbor.Lawful) (hJ : J.Faithful) (inv : Invite)
    (htext : inv.toPayload.validText = true) (hpub : (sliceBytes inv.groupAdminPub).length = publicKeySize) :
    verifyInviteSignature L (L.cbor.invite.marshal inv) (sliceBytes inv.groupAdminPub) =
        some (inv.selfSigned L) ∧
      ∀ req : JoinRequest, req.invite = some inv →
        ∃ req' inv', J.readRequest (J.writeRequest req) = some req' ∧ req'.invite = some inv' ∧
          verifyInviteSignature L (L.cbor.invite.marshal inv') (sliceBytes inv'.groupAdminPub) =
            some (inv.selfSigned L) ∧
          inv'.selfSigned L = inv.selfSigned L := by
  refine ⟨verifyInviteSignature_marshal hC htext hpub, fun req hreq => ?_⟩
  refine ⟨req.overJSON, inv, readRequest_writeRequest hJ req, ?_, ?_, rfl⟩
  · rw [JoinRequest.overJSON, hreq, Option.map_some, Invite.overJSON_of_valid htext]
  · exact verifyInviteSignature_marshal hC htext hpub

end Verifiers

mutual

/-- JSON has valid texts. -/
theorem validText_of_isJSON {v : Value} (h : isJSON v = true) : v.validText = true := by
  match v with
  | .text b => exact h
  | .array vs =>
    rw [isJSON] at h
    rw [Value.validText]
    exact validText_of_isJSONList h
  | .map kvs =>
    rw [isJSON] at h
    rw [Value.validText]
    exact validText_of_isJSONPairs h
  | .int _ => rfl
  | .bool _ => rfl
  | .null => rfl

/-- So has a list. -/
theorem validText_of_isJSONList {vs : List Value} (h : isJSONList vs = true) : validTextList vs = true := by
  match vs with
  | [] => rfl
  | v :: vs =>
    simp only [isJSONList, Bool.and_eq_true] at h
    simp only [validTextList, validText_of_isJSON h.1, validText_of_isJSONList h.2, Bool.and_self]

/-- So have fields. -/
theorem validText_of_isJSONPairs {kvs : List (Bytes × Value)} (h : isJSONPairs kvs = true) :
    validTextPairs kvs = true := by
  match kvs with
  | [] => rfl
  | (k, v) :: kvs =>
    simp only [isJSONPairs, Bool.and_eq_true] at h
    simp only [validTextPairs, h.1, validText_of_isJSON h.2.1, validText_of_isJSONPairs h.2.2, Bool.and_self]

end

/-- A text of values that is not JSON's, but is read back. -/
def sampleJson : Json := ⟨encode, decodeAll⟩

/-- The sample codec reads back what it writes. -/
theorem sampleJson_faithful : sampleJson.Faithful := by
  intro v hv
  change decodeAll (encode v) = some v
  rw [decodeAll_encode, if_pos (validText_of_isJSON hv)]

/-- An invite that the admin has signed, with a nil slice and an empty one and no quota: both checks accept
it, before and after it has travelled in a join request. Once its quota was changed, both refuse it. -/
theorem verifiers_agree_signed :
    let inv : Invite := { sampleInvite (sampleGroup 7) 7 with bootstrapPeers := none }
    let signed : Invite := { inv with signature := some (sampleKey 7 ++ inv.signedBytes sampleLibs) }
    let tampered : Invite := { signed with quotaCap := 5 }
    (verifyInviteSignature sampleLibs (sampleCbor.invite.marshal signed) (List.replicate publicKeySize 7) =
        some true ∧
      ∃ req' inv', sampleJson.readRequest (sampleJson.writeRequest ⟨some signed, [], 0, [], []⟩) = some req' ∧
        req'.invite = some inv' ∧ inv'.selfSigned sampleLibs = true ∧
        verifyInviteSignature sampleLibs (sampleCbor.invite.marshal inv') (List.replicate publicKeySize 7) =
          some true) ∧
    verifyInviteSignature sampleLibs (sampleCbor.invite.marshal tampered) (List.replicate publicKeySize 7) =
      some false := by
  intro inv signed tampered
  have hsigned : signed.selfSigned sampleLibs = true :=
    sampleEd25519_ideal.verify_sign (sampleKey 7) (by decide) _
  have htampered : tampered.selfSigned sampleLibs = false := by decide +kernel
  obtain ⟨hverify, harrives⟩ := verifiers_agree (L := sampleLibs) sampleCbor_lawful sampleJson_faithful signed
    (by decide +kernel) (by decide)
  obtain ⟨req', inv', hread, hinv', hverify', hself⟩ := harrives ⟨some signed, [], 0, [], []⟩ rfl
  refine ⟨⟨hverify.trans (by rw [hsigned]), req', inv', hread, hinv', hself.trans hsigned, ?_⟩, ?_⟩
  · rw [hsigned] at hverify'
    have hpub : sliceBytes inv'.groupAdminPub = List.replicate publicKeySize 7 := by
      rw [readRequest_writeRequest sampleJson_faithful] at hread
      obtain rfl := Option.some.inj hread
      obtain rfl := Option.some.inj hinv'
      rfl
    rwa [hpub] at hverify'
  · exact (verifiers_agree (L := sampleLibs) sampleCbor_lawful sampleJson_faithful tampered
      (by decide +kernel) (by decide)).1.trans (by rw [htampered])

end FnShare
