import FnShare.Libs
import FnShare.Lib.Cbor

/-!
# An instance of the libraries

`sampleLibs` has all the laws that the theorems ask of the libraries, so that none of them is about
nothing, and its functions run. Its CBOR is that of the code: the structs with the names and the
options of their fields. Its Reed-Solomon code is that of the code for one data shard, where every
shard is the data. Its cryptography is transparent: a signature has the key and the message in it,
and a sealed text has the key next to it.
-/

namespace FnShare

/-! ## CBOR -/

section Structs

open CborFormat

/-- A time: whole seconds, and null for the zero time. -/
def timeValue (t : ℤ) : Value := if t = zeroTime then .null else .int (unix t)

/-- A time from its whole seconds. -/
def valueTime : Value → Option ℤ
  | .int z => some (z * 1000000000)
  | .null => some zeroTime
  | _ => none

/-- A time is read back in whole seconds. -/
@[simp] theorem valueTime_timeValue (t : ℤ) : valueTime (timeValue t) = some (wholeSeconds t) := by
  unfold timeValue
  split_ifs with h
  · subst h
    rfl
  · rfl

/-- A time has no invalid text. -/
@[simp] theorem validText_timeValue (t : ℤ) : (timeValue t).validText = true := by
  unfold timeValue
  split_ifs <;> rfl

/-- The codec of a type by its values. -/
def valueCodec {α : Type} (toValue : α → Value) (ofValue : Value → Option α) : Codec α where
  marshal a := encode (toValue a)
  unmarshal bs :=
    match (decodeAll bs).bind ofValue with
    | some a => .ok a
    | none => .error (.msg (lit "cbor: cannot unmarshal"))

/-- A codec by values restores what the values restore. -/
theorem valueCodec_restores {α : Type} {toValue : α → Value} {ofValue : Value → Option α}
    {valid : α → Bool} {norm : α → α} (hv : ∀ a, (toValue a).validText = valid a)
    (hof : ∀ a, ofValue (toValue a) = some (norm a)) :
    (valueCodec toValue ofValue).Restores valid norm := by
  intro a
  simp only [valueCodec, decodeAll_encode, hv]
  split_ifs with h
  · simp [hof]
  · exact ⟨_, rfl⟩

/-- `group.Group`. Bytes that are nil in Go are written as empty ones; either is decoded to the same. -/
def groupValue (g : Group) : Value :=
  .map <|
    (lit "id", .text g.id) ::
    (lit "name", .text g.name) ::
    (lit "admin_pub", .bytes g.adminPub) ::
    omitEmpty g.adminPriv.isEmpty (lit "admin_priv") (.bytes g.adminPriv) (
    (lit "created_at", timeValue g.createdAt) ::
    (lit "is_admin", .bool g.isAdminNode) ::
    (lit "sk", .bytes g.sharedKey) :: [])

/-- `group.Group`, decoded. -/
def valueGroup (v : Value) : Option Group := do
  let fs ← structFields v
  return {
    id := ← field fs (lit "id") Value.toText []
    name := ← field fs (lit "name") Value.toText []
    adminPub := ← field fs (lit "admin_pub") Value.toBytes []
    adminPriv := ← field fs (lit "admin_priv") Value.toBytes []
    createdAt := ← field fs (lit "created_at") valueTime zeroTime
    isAdminNode := ← field fs (lit "is_admin") Value.toBool false
    sharedKey := ← field fs (lit "sk") Value.toBytes [] }

/-- `group.Member`. -/
def memberValue (m : Member) : Value :=
  .map <|
    (lit "peer_id", .text m.peerID) ::
    (lit "nickname", .text m.nickname) ::
    (lit "node_pub", .bytes m.nodePub) ::
    omitEmpty m.encPub.isEmpty (lit "enc_pub") (.bytes m.encPub) (
    (lit "contributed", .int m.contributedB) ::
    (lit "joined_at", timeValue m.joinedAt) ::
    (lit "admitted_sig", .bytes m.admittedBySig) ::
    omitEmpty m.lastAddrs.isEmpty (lit "last_addrs") (ofTexts m.lastAddrs) (
    omitEmpty m.admissionInvite.isEmpty (lit "adm_inv") (.bytes m.admissionInvite) []))

/-- `group.Member`, decoded. -/
def valueMember (v : Value) : Option Member := do
  let fs ← structFields v
  return {
    peerID := ← field fs (lit "peer_id") Value.toText []
    nickname := ← field fs (lit "nickname") Value.toText []
    nodePub := ← field fs (lit "node_pub") Value.toBytes []
    encPub := ← field fs (lit "enc_pub") Value.toBytes []
    contributedB := ← field fs (lit "contributed") Value.toInt 0
    joinedAt := ← field fs (lit "joined_at") valueTime zeroTime
    admittedBySig := ← field fs (lit "admitted_sig") Value.toBytes []
    lastAddrs := ← field fs (lit "last_addrs") Value.toTexts []
    admissionInvite := ← field fs (lit "adm_inv") Value.toBytes [] }

/-- `manifest.Stripe`. -/
def stripeValue (s : Stripe) : Value :=
  .map [
    (lit "i", .int s.index),
    (lit "sids", ofTexts s.shardIDs),
    (lit "pb", .int s.plaintextBytes),
    (lit "cb", .int s.ciphertextBytes)]

/-- `manifest.Stripe`, decoded. -/
def valueStripe (v : Value) : Option Stripe := do
  let fs ← structFields v
  return {
    index := ← field fs (lit "i") Value.toInt 0
    shardIDs := ← field fs (lit "sids") Value.toTexts []
    plaintextBytes := ← field fs (lit "pb") Value.toInt 0
    ciphertextBytes := ← field fs (lit "cb") Value.toInt 0 }

/-- A slice of stripes, decoded. -/
def valueStripes : Value → Option (List Stripe)
  | .array vs => vs.mapM valueStripe
  | .null => some []
  | _ => none

/-- `manifest.Manifest`. -/
def manifestValue (m : Manifest) : Value :=
  .map <|
    (lit "fid", .text m.fileID) ::
    (lit "gid", .text m.groupID) ::
    (lit "name", .text m.filename) ::
    (lit "size", .int m.size) ::
    (lit "k", .int m.dataShards) ::
    (lit "m", .int m.parityShards) ::
    (lit "sds", .int m.stripeDataSize) ::
    (lit "holders", ofTexts m.holders) ::
    (lit "stripes", .array (m.stripes.map stripeValue)) ::
    (lit "ts", timeValue m.createdAt) ::
    (lit "owner", .text m.ownerPeerID) ::
    (lit "mode", .text m.mode) ::
    (lit "wk", .bytes m.wrappedKey) ::
    omitEmpty (!m.filenameEncrypted) (lit "fne") (.bool m.filenameEncrypted) []

/-- `manifest.Manifest`, decoded. -/
def valueManifest (v : Value) : Option Manifest := do
  let fs ← structFields v
  return {
    fileID := ← field fs (lit "fid") Value.toText []
    groupID := ← field fs (lit "gid") Value.toText []
    filename := ← field fs (lit "name") Value.toText []
    size := ← field fs (lit "size") Value.toInt 0
    dataShards := ← field fs (lit "k") Value.toInt 0
    parityShards := ← field fs (lit "m") Value.toInt 0
    stripeDataSize := ← field fs (lit "sds") Value.toInt 0
    holders := ← field fs (lit "holders") Value.toTexts []
    stripes := ← field fs (lit "stripes") valueStripes []
    createdAt := ← field fs (lit "ts") valueTime zeroTime
    ownerPeerID := ← field fs (lit "owner") Value.toText []
    mode := ← field fs (lit "mode") Value.toText []
    wrappedKey := ← field fs (lit "wk") Value.toBytes []
    filenameEncrypted := ← field fs (lit "fne") Value.toBool false }

/-- `ledger.Entry`. -/
def ledgerValue (e : LedgerEntry) : Value :=
  .map [
    (lit "peer", .text e.peerID),
    (lit "stored", .int e.storedForThemBytes),
    (lit "served", .int e.servedToThemBytes),
    (lit "on", .int e.storedOnThemBytes),
    (lit "dl", .int e.downloadedFromBytes),
    (lit "online", .bool e.isOnline),
    (lit "cf", .int e.consecFailures),
    (lit "pat", timeValue e.lastPingAt),
    (lit "sat", timeValue e.lastSeenAt),
    (lit "osince", timeValue e.offlineSince),
    (lit "rep", .int e.reputation),
    (lit "ts", timeValue e.updatedAt)]

/-- `ledger.Entry`, decoded. -/
def valueLedger (v : Value) : Option LedgerEntry := do
  let fs ← structFields v
  return {
    peerID := ← field fs (lit "peer") Value.toText []
    storedForThemBytes := ← field fs (lit "stored") Value.toInt 0
    servedToThemBytes := ← field fs (lit "served") Value.toInt 0
    storedOnThemBytes := ← field fs (lit "on") Value.toInt 0
    downloadedFromBytes := ← field fs (lit "dl") Value.toInt 0
    isOnline := ← field fs (lit "online") Value.toBool false
    consecFailures := ← field fs (lit "cf") Value.toInt 0
    lastPingAt := ← field fs (lit "pat") valueTime zeroTime
    lastSeenAt := ← field fs (lit "sat") valueTime zeroTime
    offlineSince := ← field fs (lit "osince") valueTime zeroTime
    reputation := ← field fs (lit "rep") Value.toInt 0
    updatedAt := ← field fs (lit "ts") valueTime zeroTime }

/-! The structs are read back from their maps, field by field. -/

/-- A slice left out when it is empty is read back. -/
theorem some_of_empty {α : Type} (l : List α) : (if l = [] then some [] else some l) = some l := by
  split_ifs with h
  · rw [h]
  · rfl

/-- A group is read back. -/
theorem valueGroup_groupValue (g : Group) : valueGroup (groupValue g) = some g.norm := by
  simp (disch := decide) [valueGroup, groupValue, structFields, field_cons_ne,
    field_omitEmpty_self, field_omitEmpty_ne, Value.toText, Value.toBytes, Value.toBytes?,
    Value.toBool, Group.norm, some_of_empty]

/-- The texts of its encoding. -/
theorem validText_groupValue (g : Group) : (groupValue g).validText = g.validText := by
  simp (disch := decide) [groupValue, Value.validText, validTextPairs_cons,
    validTextPairs_omitEmpty, Group.validText]

/-- A member is read back. -/
theorem valueMember_memberValue (m : Member) : valueMember (memberValue m) = some m.norm := by
  simp (disch := decide) [valueMember, memberValue, structFields, field_cons_ne,
    field_omitEmpty_self, field_omitEmpty_ne, Value.toText, Value.toBytes, Value.toBytes?,
    Value.toInt, Member.norm, some_of_empty]

/-- The texts of its encoding. -/
theorem validText_memberValue (m : Member) : (memberValue m).validText = m.validText := by
  have : ∀ ts : List Bytes, (ts.isEmpty || ts.all validUTF8) = ts.all validUTF8 := by
    intro ts
    cases ts <;> rfl
  simp (disch := decide) [memberValue, Value.validText, validTextPairs_cons,
    validTextPairs_omitEmpty, Member.validText, this, Bool.and_assoc]

/-- A stripe is read back. -/
theorem valueStripe_stripeValue (s : Stripe) : valueStripe (stripeValue s) = some s := by
  simp (disch := decide) [valueStripe, stripeValue, structFields, field_cons_ne, Value.toInt]

/-- The texts of its encoding. -/
theorem validText_stripeValue (s : Stripe) :
    (stripeValue s).validText = s.shardIDs.all validUTF8 := by
  simp (disch := decide) [stripeValue, Value.validText, validTextPairs_cons]

/-- So is a list of stripes. -/
theorem valueStripes_array (ss : List Stripe) :
    valueStripes (.array (ss.map stripeValue)) = some ss := by
  unfold valueStripes
  induction ss with
  | nil => rfl
  | cons s ss ih => simp only [List.map_cons, List.mapM_cons, ih, valueStripe_stripeValue]; rfl

/-- The texts of the list. -/
theorem validText_stripes (ss : List Stripe) :
    validTextList (ss.map stripeValue) = ss.all fun s => s.shardIDs.all validUTF8 := by
  induction ss with
  | nil => rfl
  | cons s ss ih => simp [validTextList, ih, validText_stripeValue]

/-- A manifest is read back. -/
theorem valueManifest_manifestValue (m : Manifest) :
    valueManifest (manifestValue m) = some m.norm := by
  have hfne : field (omitEmpty (!m.filenameEncrypted) (lit "fne") (.bool m.filenameEncrypted) [])
      (lit "fne") Value.toBool false = some m.filenameEncrypted := by
    cases m.filenameEncrypted <;> rfl
  -- The fields in the order of the struct: identity, layout, stripes, provenance, key.
  refine bind_of_some rfl (bind_of_some rfl (bind_of_some rfl (bind_of_some rfl ?_)))
  refine bind_of_some rfl (bind_of_some rfl (bind_of_some rfl (bind_of_some rfl ?_)))
  refine bind_of_some (toTexts_ofTexts _) (bind_of_some (valueStripes_array _) ?_)
  refine bind_of_some (valueTime_timeValue _) (bind_of_some rfl (bind_of_some rfl ?_))
  exact bind_of_some rfl (bind_of_some hfne rfl)

/-- The texts of its encoding. -/
theorem validText_manifestValue (m : Manifest) :
    (manifestValue m).validText = m.validText := by
  simp (disch := decide) [manifestValue, Value.validText, validTextPairs_cons,
    validTextPairs_omitEmpty, validText_stripes, Manifest.validText, Bool.and_assoc]

/-- A ledger entry is read back. -/
theorem valueLedger_ledgerValue (e : LedgerEntry) :
    valueLedger (ledgerValue e) = some e.norm := by
  -- The fields in the order of the struct: peer and traffic, then liveness.
  refine bind_of_some rfl (bind_of_some rfl (bind_of_some rfl (bind_of_some rfl ?_)))
  refine bind_of_some rfl (bind_of_some rfl (bind_of_some rfl (bind_of_some rfl ?_)))
  refine bind_of_some (valueTime_timeValue _) (bind_of_some (valueTime_timeValue _) ?_)
  refine bind_of_some (valueTime_timeValue _) (bind_of_some rfl ?_)
  exact bind_of_some (valueTime_timeValue _) rfl

/-- The texts of its encoding. -/
theorem validText_ledgerValue (e : LedgerEntry) :
    (ledgerValue e).validText = e.validText := by
  simp (disch := decide) [ledgerValue, Value.validText, validTextPairs_cons,
    LedgerEntry.validText]

/-- Decoding alone of a type. -/
def unmarshalValue {α : Type} (ofValue : Value → Option α) : Bytes → Except GoErr α :=
  (valueCodec (fun _ => .null) ofValue).unmarshal

/-- What a value means is read back from its bytes. -/
theorem unmarshalValue_encode {α : Type} {ofValue : Value → Option α} {v : Value} {a : α}
    (hv : v.validText = true) (ha : ofValue v = some a) :
    unmarshalValue ofValue (encode v) = .ok a := by
  simp [unmarshalValue, valueCodec, decodeAll_encode, hv, ha]

/-- CBOR as the code has it. -/
def sampleCbor : Cbor where
  group := valueCodec groupValue valueGroup
  member := valueCodec memberValue valueMember
  manifest := valueCodec manifestValue valueManifest
  ledgerEntry := valueCodec ledgerValue valueLedger
  text := valueCodec .text Value.toText
  encode := encode
  unmarshalInvite := unmarshalValue valueInvite
  unmarshalSignedPayload := unmarshalValue valueSignedPayload
  unmarshalHead := unmarshalValue valueHead
  unmarshalRawMap := unmarshalValue (valueRawMap encode)
  unmarshalBytes := unmarshalValue Value.toBytes?

/-- CBOR as the code has it is lawful. -/
theorem sampleCbor_lawful : sampleCbor.Lawful where
  group := valueCodec_restores validText_groupValue valueGroup_groupValue
  member := valueCodec_restores validText_memberValue valueMember_memberValue
  manifest := valueCodec_restores validText_manifestValue valueManifest_manifestValue
  ledgerEntry := valueCodec_restores validText_ledgerValue valueLedger_ledgerValue
  text := valueCodec_restores (fun _ => by rw [Value.validText]) fun _ => rfl
  encode_ne_nil v := List.ne_nil_of_length_pos (encode_length_pos v)
  unmarshalInvite := unmarshalValue_encode
  unmarshalSignedPayload := unmarshalValue_encode
  unmarshalHead := unmarshalValue_encode
  unmarshalRawMap := unmarshalValue_encode
  unmarshalBytes := unmarshalValue_encode
  invite_invalid i hi := by
    refine ⟨.msg (lit "cbor: cannot unmarshal"), ?_⟩
    simp [sampleCbor, unmarshalValue, valueCodec, decodeAll_encode, validText_inviteValue, hi]

/-- What a codec by values decodes is valid, if what it makes of values with valid text is. -/
theorem valueCodec_valid {α : Type} {toValue : α → Value} {ofValue : Value → Option α} {P : α → Prop}
    (hof : ∀ v a, v.validText = true → ofValue v = some a → P a) {raw : Bytes} {a : α}
    (h : (valueCodec toValue ofValue).unmarshal raw = .ok a) : P a := by
  unfold valueCodec at h
  simp only at h
  split at h
  · rename_i a' ha'
    obtain rfl := Except.ok.inj h
    obtain ⟨v, hv, ha⟩ := Option.bind_eq_some_iff.mp ha'
    exact hof v a' (validText_of_decodeAll hv) ha
  · exact absurd h (by simp)

/-- The fields of a struct that was decoded have valid text. -/
theorem validTextPairs_of_structFields {v : Value} {fs : List (Bytes × Value)}
    (hv : v.validText = true) (h : structFields v = some fs) : validTextPairs fs = true := by
  cases v with
  | map kvs =>
    obtain rfl := Option.some.inj h
    simpa [Value.validText] using hv
  | _ => exact absurd h (by simp [structFields])

/-- A text field of a struct that was decoded. -/
theorem validUTF8_of_field {fs : List (Bytes × Value)} (hfs : validTextPairs fs = true) {k t : Bytes}
    (h : field fs k Value.toText [] = some t) : validUTF8 t = true :=
  valid_of_field (P := fun t => validUTF8 t = true) rfl validUTF8_of_toText hfs h

/-- A group that was read has valid texts. -/
theorem validText_of_valueGroup (v : Value) (g : Group) (hv : v.validText = true)
    (h : valueGroup v = some g) : g.validText = true := by
  unfold valueGroup at h
  obtain ⟨fs, hfs, h⟩ := Option.bind_eq_some_iff.mp h
  have hpairs := validTextPairs_of_structFields hv hfs
  obtain ⟨id, hid, h⟩ := Option.bind_eq_some_iff.mp h
  obtain ⟨name, hname, h⟩ := Option.bind_eq_some_iff.mp h
  obtain ⟨pub, -, h⟩ := Option.bind_eq_some_iff.mp h
  obtain ⟨priv, -, h⟩ := Option.bind_eq_some_iff.mp h
  obtain ⟨created, -, h⟩ := Option.bind_eq_some_iff.mp h
  obtain ⟨admin, -, h⟩ := Option.bind_eq_some_iff.mp h
  obtain ⟨sk, -, h⟩ := Option.bind_eq_some_iff.mp h
  obtain rfl := Option.some.inj h
  simp [Group.validText, validUTF8_of_field hpairs hid, validUTF8_of_field hpairs hname]

/-- So has a member. -/
theorem validText_of_valueMember (v : Value) (mem : Member) (hv : v.validText = true)
    (h : valueMember v = some mem) : mem.validText = true := by
  unfold valueMember at h
  obtain ⟨fs, hfs, h⟩ := Option.bind_eq_some_iff.mp h
  have hpairs := validTextPairs_of_structFields hv hfs
  obtain ⟨peer, hpeer, h⟩ := Option.bind_eq_some_iff.mp h
  obtain ⟨nick, hnick, h⟩ := Option.bind_eq_some_iff.mp h
  obtain ⟨pub, -, h⟩ := Option.bind_eq_some_iff.mp h
  obtain ⟨enc, -, h⟩ := Option.bind_eq_some_iff.mp h
  obtain ⟨contributed, -, h⟩ := Option.bind_eq_some_iff.mp h
  obtain ⟨joined, -, h⟩ := Option.bind_eq_some_iff.mp h
  obtain ⟨sig, -, h⟩ := Option.bind_eq_some_iff.mp h
  obtain ⟨addrs, haddrs, h⟩ := Option.bind_eq_some_iff.mp h
  obtain ⟨inv, -, h⟩ := Option.bind_eq_some_iff.mp h
  obtain rfl := Option.some.inj h
  have hall : ∀ t ∈ addrs, validUTF8 t = true :=
    valid_of_field (P := fun ts => ∀ t ∈ ts, validUTF8 t = true) (by simp) validUTF8_of_toTexts hpairs
      haddrs
  simpa [Member.validText, validUTF8_of_field hpairs hpeer, validUTF8_of_field hpairs hnick] using hall

/-- So has a stripe. -/
theorem validText_of_valueStripe (v : Value) (st : Stripe) (hv : v.validText = true)
    (h : valueStripe v = some st) : ∀ id ∈ st.shardIDs, validUTF8 id = true := by
  unfold valueStripe at h
  obtain ⟨fs, hfs, h⟩ := Option.bind_eq_some_iff.mp h
  have hpairs := validTextPairs_of_structFields hv hfs
  obtain ⟨index, -, h⟩ := Option.bind_eq_some_iff.mp h
  obtain ⟨ids, hids, h⟩ := Option.bind_eq_some_iff.mp h
  obtain ⟨plain, -, h⟩ := Option.bind_eq_some_iff.mp h
  obtain ⟨cipher, -, h⟩ := Option.bind_eq_some_iff.mp h
  obtain rfl := Option.some.inj h
  exact valid_of_field (P := fun ts => ∀ t ∈ ts, validUTF8 t = true) (by simp) validUTF8_of_toTexts
    hpairs hids

/-- So have stripes. -/
theorem validText_of_valueStripes (v : Value) (sts : List Stripe) (hv : v.validText = true)
    (h : valueStripes v = some sts) : ∀ st ∈ sts, ∀ id ∈ st.shardIDs, validUTF8 id = true := by
  cases v with
  | array vs => exact valid_of_mapM validText_of_valueStripe hv h
  | null =>
    obtain rfl := Option.some.inj h
    simp
  | _ => exact absurd h (by simp [valueStripes])

/-- So has a manifest. -/
theorem validText_of_valueManifest (v : Value) (m : Manifest) (hv : v.validText = true)
    (h : valueManifest v = some m) : m.validText = true := by
  unfold valueManifest at h
  obtain ⟨fs, hfs, h⟩ := Option.bind_eq_some_iff.mp h
  have hpairs := validTextPairs_of_structFields hv hfs
  -- The fields in the order of the struct, of which those with text matter.
  obtain ⟨fid, hfid, h⟩ := Option.bind_eq_some_iff.mp h
  obtain ⟨gid, hgid, h⟩ := Option.bind_eq_some_iff.mp h
  obtain ⟨name, hname, h⟩ := Option.bind_eq_some_iff.mp h
  obtain ⟨size, -, h⟩ := Option.bind_eq_some_iff.mp h
  obtain ⟨k, -, h⟩ := Option.bind_eq_some_iff.mp h
  obtain ⟨parity, -, h⟩ := Option.bind_eq_some_iff.mp h
  obtain ⟨sds, -, h⟩ := Option.bind_eq_some_iff.mp h
  obtain ⟨hs, hhs, h⟩ := Option.bind_eq_some_iff.mp h
  obtain ⟨sts, hsts, h⟩ := Option.bind_eq_some_iff.mp h
  obtain ⟨ts, -, h⟩ := Option.bind_eq_some_iff.mp h
  obtain ⟨owner, howner, h⟩ := Option.bind_eq_some_iff.mp h
  obtain ⟨mode, hmode, h⟩ := Option.bind_eq_some_iff.mp h
  obtain ⟨wk, -, h⟩ := Option.bind_eq_some_iff.mp h
  obtain ⟨fne, -, h⟩ := Option.bind_eq_some_iff.mp h
  obtain rfl := Option.some.inj h
  have hholders : ∀ t ∈ hs, validUTF8 t = true :=
    valid_of_field (P := fun ts => ∀ t ∈ ts, validUTF8 t = true) (by simp) validUTF8_of_toTexts hpairs
      hhs
  have hstripes := valid_of_field (P := fun sts : List Stripe => ∀ st ∈ sts, ∀ id ∈ st.shardIDs,
    validUTF8 id = true) (by simp) validText_of_valueStripes hpairs hsts
  simpa [Manifest.validText, validUTF8_of_field hpairs hfid, validUTF8_of_field hpairs hgid,
    validUTF8_of_field hpairs hname, validUTF8_of_field hpairs howner,
    validUTF8_of_field hpairs hmode] using And.intro hholders hstripes

/-- What an invite is decoded to has valid text. -/
theorem validText_of_valueInvite (v : Value) (i : Invite) (hv : v.validText = true)
    (h : valueInvite v = some i) : i.toPayload.validText = true := by
  unfold valueInvite at h
  obtain ⟨fs, hfs, h⟩ := Option.bind_eq_some_iff.mp h
  have hpairs := validTextPairs_of_structFields hv hfs
  obtain ⟨gid, hgid, h⟩ := Option.bind_eq_some_iff.mp h
  obtain ⟨name, hname, h⟩ := Option.bind_eq_some_iff.mp h
  obtain ⟨apub, -, h⟩ := Option.bind_eq_some_iff.mp h
  obtain ⟨sk, -, h⟩ := Option.bind_eq_some_iff.mp h
  obtain ⟨boot, hboot, h⟩ := Option.bind_eq_some_iff.mp h
  obtain ⟨nonce, -, h⟩ := Option.bind_eq_some_iff.mp h
  obtain ⟨iat, -, h⟩ := Option.bind_eq_some_iff.mp h
  obtain ⟨exp, -, h⟩ := Option.bind_eq_some_iff.mp h
  obtain ⟨quota, -, h⟩ := Option.bind_eq_some_iff.mp h
  obtain ⟨sig, -, h⟩ := Option.bind_eq_some_iff.mp h
  obtain rfl := Option.some.inj h
  have hall : ∀ t ∈ boot.getD [], validUTF8 t = true :=
    valid_of_field (P := fun ts : Option (List Bytes) => ∀ t ∈ ts.getD [], validUTF8 t = true)
      (by simp) validUTF8_of_toTexts? hpairs hboot
  simpa [Payload.validText, validUTF8_of_field hpairs hgid, validUTF8_of_field hpairs hname] using hall

/-- An invite that CBOR as the code has it decodes has UTF-8 text. -/
theorem validText_of_sampleInvite {raw : Bytes} {i : Invite}
    (h : sampleCbor.invite.unmarshal raw = .ok i) : i.toPayload.validText = true :=
  valueCodec_valid validText_of_valueInvite h

/-- CBOR as the code has it decodes nothing but UTF-8 text. -/
theorem sampleCbor_strict : sampleCbor.Strict where
  group h := valueCodec_valid validText_of_valueGroup h
  member h := valueCodec_valid validText_of_valueMember h
  manifest h := valueCodec_valid validText_of_valueManifest h

end Structs

/-! ## Cryptography -/

/-- Signatures that have the private key and the message in them. A private key is a seed and the
public key. -/
def sampleEd25519 : Ed25519 where
  newKeyFromSeed seed := seed ++ seed
  pub priv := priv.drop seedSize
  sign priv m := priv ++ m
  verify pub m sig :=
    decide (privateKeySize ≤ sig.length ∧ (sig.take privateKeySize).drop seedSize = pub ∧
      sig.drop privateKeySize = m)

/-- Transparent signatures are ideal. -/
theorem sampleEd25519_ideal : sampleEd25519.Ideal where
  verify_iff pub m sig := by
    simp only [sampleEd25519, decide_eq_true_eq]
    constructor
    · rintro ⟨hl, hp, hm⟩
      exact ⟨sig.take privateKeySize, by simp [hl], hp, by rw [← hm, List.take_append_drop]⟩
    · rintro ⟨priv, hl, hp, rfl⟩
      refine ⟨by simp [hl], ?_, ?_⟩
      · rw [← hl, List.take_left, hp]
      · rw [← hl, List.drop_left]
  sign_inj priv priv' m m' hl hl' h := List.append_inj h (by rw [hl, hl'])
  sign_ne_nil priv m h := by
    rintro e
    have := congrArg List.length e
    simp [sampleEd25519, h, privateKeySize] at this
  length_newKeyFromSeed seed h := by simp [sampleEd25519, h, seedSize, privateKeySize]
  length_pub priv h := by
    simp only [sampleEd25519, List.length_drop, h]
    rfl

/-- The tag of a key. -/
def sampleTag (key : Bytes) : Bytes := (key ++ List.replicate 16 0).take 16

/-- A tag has 16 bytes. -/
theorem length_sampleTag (key : Bytes) : (sampleTag key).length = 16 := by
  simp [sampleTag]

/-- Authenticated encryption that leaves the text as it is and puts the tag of the key after it. -/
def sampleAead : Aead where
  gcmSeal key _ p := p ++ sampleTag key
  gcmOpen key _ c :=
    if c.drop (c.length - 16) = sampleTag key then some (c.take (c.length - 16)) else none

/-- The sample cipher opens what it sealed. -/
theorem sampleAead_correct : sampleAead.Correct where
  open_seal key nonce p := by
    simp [sampleAead, length_sampleTag]
  length_seal key nonce p := by
    simp [sampleAead, length_sampleTag]

/-- Boxes that have the recipient's key before the text. -/
def sampleBox : SealedBox where
  pub priv := priv
  boxSeal p pub _ := pub ++ p
  boxOpen c pub priv :=
    if priv = pub ∧ c.take pub.length = pub then some (c.drop pub.length) else none

/-- So does the sample box. -/
theorem sampleBox_correct : sampleBox.Correct where
  open_seal p priv eph := by simp [sampleBox]

/-! ## Erasure coding -/

/-- The Reed-Solomon code with one data shard, where every shard is the data. -/
def sampleRs : ReedSolomon where
  new k m :=
    if k = 1 ∧ 1 ≤ m ∧ m ≤ 65535 then .ok () else .error (.msg (lit "invalid shard number"))
  split _ m data :=
    if data = [] then .error (.msg (lit "not enough data to fill the number of requested shards"))
    else .ok (data :: List.replicate m.toNat (List.replicate data.length 0))
  encode _ _ shards := .ok (shards.map fun _ => shards.headD [])
  reconstruct _ _ shards :=
    match shards.find? (fun s => s.any (!·.isEmpty)) with
    | some s => .ok (shards.map fun _ => s)
    | none => .error (.msg (lit "too few shards given"))
  verify _ _ shards := .ok (shards.all fun s => s == shards.headD none)

/-- All shards being equal, the one that is found is that one. -/
theorem find_someOf_replicate {n : ℕ} {data : Bytes} (hdata : data ≠ []) {got : List (Option Bytes)}
    (hs : SomeOf (List.replicate n data) got) (hp : 1 ≤ present got) :
    got.find? (fun s => s.any (!·.isEmpty)) = some (some data) := by
  -- What is there is the data.
  have hall : ∀ g ∈ got, g = none ∨ g = some data := by
    intro g hg
    obtain ⟨i, hi, rfl⟩ := List.getElem_of_mem hg
    have hlen := hs.length_eq
    simpa using (List.forall₂_iff_get.mp hs).2 i (by omega) hi
  obtain ⟨s, hmem, hsome⟩ := List.countP_pos_iff.mp (show 0 < got.countP Option.isSome from hp)
  obtain ⟨s', hs'⟩ : ∃ s', got.find? (fun s => s.any (!·.isEmpty)) = some s' := by
    rw [← Option.isSome_iff_exists, List.find?_isSome]
    refine ⟨s, hmem, ?_⟩
    rcases hall s hmem with rfl | rfl
    · exact absurd hsome (by decide)
    · simpa using hdata
  have hfound := List.find?_some hs'
  rcases hall s' (List.mem_of_find?_eq_some hs') with rfl | rfl
  · exact absurd hfound (by decide)
  · exact hs'

/-- The code with one data shard has the maximum distance. -/
theorem sampleRs_mds : sampleRs.Mds where
  total_le k m hnew := by
    by_contra h
    have : ¬ (k = 1 ∧ 1 ≤ m ∧ m ≤ 65535) := by omega
    simp [sampleRs, this] at hnew
  encodes k m data hk hm hnew hdata := by
    have hk1 : k = 1 := by
      by_contra h
      simp [sampleRs, h] at hnew
    subst hk1
    obtain ⟨n, rfl⟩ := Int.eq_ofNat_of_zero_le (show 0 ≤ m by omega)
    refine ⟨_, List.replicate (n + 1) data, by simp only [sampleRs, hdata]; rfl, ?_, ?_⟩
    · simp [sampleRs, List.replicate_succ]
    · constructor
      · simp
        ring
      · intro s hs
        rw [List.eq_of_mem_replicate hs]
        exact hdata
      · exact ⟨0, by simp⟩
      · intro got hgot hp
        have hlen := hgot.length_eq
        simp only [sampleRs, find_someOf_replicate hdata hgot (by exact_mod_cast hp)]
        rw [List.map_const', ← hlen]
        simp
      · simp [sampleRs, List.replicate_succ]

/-- It fails without a shard. -/
theorem sampleRs_needsData : sampleRs.NeedsData := by
  intro k m shards hnew hcount
  have hk : k = 1 := by
    by_contra h
    simp [sampleRs, h] at hnew
  have hnone : shards.find? (fun s => s.any (!·.isEmpty)) = none := by
    have hzero : shards.countP (fun s => s.any (!·.isEmpty)) = 0 := by omega
    rw [List.find?_eq_none]
    exact List.countP_eq_zero.mp hzero
  exact ⟨.msg (lit "too few shards given"), by simp only [sampleRs, hnone]⟩

/-- The instance of the libraries. -/
def sampleLibs : Libs where
  ed25519 := sampleEd25519
  aead := sampleAead
  box := sampleBox
  rs := sampleRs
  cbor := sampleCbor
  peerDecode := .ok

/-- A manifest is read back with its time in seconds. -/
theorem unmarshal_sampleManifest {m : Manifest} (h : m.validText = true) :
    sampleLibs.cbor.manifest.unmarshal (sampleLibs.cbor.manifest.marshal m) = .ok m.norm :=
  sampleCbor_lawful.manifest.unmarshal_marshal h

/-! ## A group and its invites -/

/-- A private key of the instance. -/
def sampleKey (b : UInt8) : Bytes := List.replicate privateKeySize b

/-- A group as its admin's node keeps it, of which `b` tells the key. -/
def sampleGroup (b : UInt8) : Group where
  id := hexEncode (List.replicate publicKeySize b)
  name := lit "nas"
  adminPub := List.replicate publicKeySize b
  adminPriv := sampleKey b
  createdAt := 0
  isAdminNode := true
  sharedKey := List.replicate 32 1

/-- The signed part of an invite to a group, with a key that need not be the admin's. -/
def samplePayload (g : Group) (apub : Bytes) : Payload where
  groupID := g.id
  groupName := g.name
  groupAdminPub := some apub
  groupSharedKey := some []
  bootstrapPeers := some []
  nonce := some (List.replicate 16 0)
  issuedAt := 0
  expiresAt := 1000
  quotaCap := 0

/-- An invite to a group, signed with the key of `b`. -/
def sampleInvite (g : Group) (b : UInt8) : Invite :=
  let p := samplePayload g (List.replicate publicKeySize b)
  { p with signature := some (sampleKey b ++ sampleCbor.marshalPayload p) }

end FnShare
