import FnShare.Effects

/-!
# Groups and their members

The package `internal/group`: the records that a node keeps of the groups that it is in, and the
two proofs of admission that a membership entry can carry. Either the admin signed the group, the
peer and the time of the admission (`admitMessage`), or the entry holds the invite that the peer
joined with, which the admin signed when it was made (`inviteProof`). `verifyMembership` accepts
an entry with one of them.
-/

namespace FnShare

open Prog

/-- `groupKey`. -/
def groupKey (gid : Bytes) : Bytes := lit "group/" ++ gid

/-- The prefix of the keys of a group's members. -/
def memberPrefix (gid : Bytes) : Bytes := lit "member/" ++ gid ++ lit "/"

/-- `memberKey`. -/
def memberKey (gid pid : Bytes) : Bytes := memberPrefix gid ++ pid

/-- `group.ErrNoGroup`. -/
def errNoGroup : GoErr := .msg (lit "group: not found")

/-- `admitMessage`: what the admin signs to admit a peer. -/
def admitMessage (groupID peerID : Bytes) (t : ℤ) : Bytes :=
  lit "fnshare-admit|" ++ groupID ++ lit "|" ++ peerID ++ lit "|" ++ fmtInt (unixNano t)

/-- The values that decode, of the pairs of an iteration. -/
def decodeValues {α : Type} (c : Codec α) (pairs : List (Bytes × Bytes)) : List α :=
  pairs.filterMap fun kv => (c.unmarshal kv.2).toOption

/-- A value that was returned. -/
theorem toOption_eq_some {ε α : Type} {x : Except ε α} {a : α} :
    x.toOption = some a ↔ x = .ok a := by
  cases x <;> simp [Except.toOption]

/-- What decodes comes from one of the pairs. -/
theorem mem_decodeValues {α : Type} {c : Codec α} {pairs : List (Bytes × Bytes)} {a : α} :
    a ∈ decodeValues c pairs ↔ ∃ p ∈ pairs, c.unmarshal p.2 = .ok a := by
  simp only [decodeValues, List.mem_filterMap, toOption_eq_some]

section Code

variable (L : Libs)

/-- The group that `Create` makes of its random bytes and the time. -/
def newGroup (name seed sk : Bytes) (t : ℤ) : Group :=
  let priv := L.ed25519.newKeyFromSeed seed
  { id := hexEncode (L.ed25519.pub priv), name := name, adminPub := L.ed25519.pub priv,
    adminPriv := priv, createdAt := t, isAdminNode := true, sharedKey := sk }

/-- `Create`: a new group with a new admin key and a new shared key. -/
def createGroup (name : Bytes) : NodeM Group := do
  let seed ← randRead seedSize
  let sk ← randRead 32
  let t ← now
  return newGroup L name seed.1 sk.1 t

/-- `Save`. -/
def saveGroup (g : Group) : NodeM Unit := storePut (groupKey g.id) (L.cbor.group.marshal g)

/-- `LoadByID`. -/
def loadByID (gid : Bytes) : NodeM Group := do
  match ← attempt (storeGet (groupKey gid)) with
  | .error e => if e = errStoreNotFound then fail errNoGroup else fail e
  | .ok raw => ofExcept (L.cbor.group.unmarshal raw)

/-- `ListGroups`: what was read, and the error that ended the reading if one did. -/
def listGroups : NodeM (List Group × Option GoErr) := do
  let (pairs, err) ← perform (.storeIterate (lit "group/"))
  return (decodeValues L.cbor.group pairs, err)

/-- `AdmitMember`: the admin's signature on the admission of a peer. -/
def admitMember (g : Group) (peerID : Bytes) (joinedAt : ℤ) : Except GoErr Bytes :=
  if g.adminPriv.length ≠ privateKeySize then
    .error (.msg (lit "not the admin node — cannot admit members"))
  else
    .ok (L.ed25519.sign g.adminPriv (admitMessage g.id peerID joinedAt))

/-- `VerifyAdmission`. -/
def verifyAdmission (g : Group) (peerID : Bytes) (joinedAt : ℤ) (sig : Bytes) : Option Bool :=
  L.ed25519.verifyChecked g.adminPub (admitMessage g.id peerID joinedAt) sig

/-- `verifyInviteSignature`: the signature of an encoded invite, over its signed fields decoded into a type of
its own and encoded again. -/
def verifyInviteSignature (raw adminPub : Bytes) : Option Bool :=
  match L.cbor.unmarshalRawMap raw with
  | .error _ => some false
  | .ok full =>
    match full.lookup (lit "sig") with
    | none => some false
    | some sigRaw =>
      match L.cbor.unmarshalBytes sigRaw with
      | .error _ => some false
      | .ok sig =>
        match L.cbor.signedPayload.unmarshal raw with
        | .error _ => some false
        | .ok body =>
          L.ed25519.verifyChecked adminPub (L.cbor.signedPayload.marshal body) (sliceBytes sig)

/-- The second half of `VerifyMembership`: the invite that an entry carries is one of the group and
signed by its admin. -/
def inviteProof (g : Group) (m : Member) : Option Bool :=
  if 0 < m.admissionInvite.length then
    match L.cbor.unmarshalHead m.admissionInvite with
    | .error _ => some false
    | .ok inv =>
      if inv.groupID ≠ g.id then some false
      else if sliceBytes inv.groupAdminPub ≠ g.adminPub then some false
      else verifyInviteSignature L m.admissionInvite g.adminPub
  else some false

/-- The first half of `VerifyMembership`: the admin signed the admission. -/
def admissionProof (g : Group) (m : Member) : Option Bool :=
  if 0 < m.admittedBySig.length then verifyAdmission L g m.peerID m.joinedAt m.admittedBySig
  else some false

/-- `VerifyMembership`: one of the two proofs holds. -/
def verifyMembership (g : Group) (m : Member) : Option Bool := do
  if ← admissionProof L g m then some true else inviteProof L g m

/-- `PutMember`. -/
def putMember (gid : Bytes) (m : Member) : NodeM Unit :=
  storePut (memberKey gid m.peerID) (L.cbor.member.marshal m)

/-- `ListMembers`: what was read, and the error that ended the reading if one did. -/
def listMembers (gid : Bytes) : NodeM (List Member × Option GoErr) := do
  let (pairs, err) ← perform (.storeIterate (memberPrefix gid))
  return (decodeValues L.cbor.member pairs, err)

/-- `AllMembersAcrossGroups`: of each peer the first entry, in no certain order. -/
def allMembersAcrossGroups : NodeM (List Member) := do
  match ← perform (.storeIterate (lit "member/")) with
  | (_, some e) => fail e
  | (pairs, none) =>
    let members := decodeValues L.cbor.member pairs
    let order ← perform (.rangeMap (members.map Member.peerID).dedup)
    return order.1.filterMap fun p => members.find? fun m => m.peerID == p

end Code

/-! ## The signed message -/

/-- The time in a message has no separator in it. -/
theorem bar_not_mem_fmtInt (z : ℤ) : (124 : UInt8) ∉ fmtInt z := by
  intro hmem
  rcases fmtInt_byte hmem with h45 | ⟨-, hle⟩
  · exact absurd h45 (by decide)
  · exact absurd hle (by decide)

/-- The message up to the peer and the time, which stand around its last separator. -/
theorem admitMessage_eq (gid p : Bytes) (t : ℤ) :
    admitMessage gid p t =
      (lit "fnshare-admit|" ++ (gid ++ 124 :: p)) ++ 124 :: fmtInt (unixNano t) := by
  have hbar : lit "|" = [124] := by decide
  simp [admitMessage, hbar]

/-- The message determines the time in nanoseconds, and what stands before it. The peer may have
separators in it: the time is what follows the last one. -/
theorem admitMessage_front_inj {gid gid' p p' : Bytes} {t t' : ℤ}
    (h : admitMessage gid p t = admitMessage gid' p' t') :
    gid ++ 124 :: p = gid' ++ 124 :: p' ∧ unixNano t = unixNano t' := by
  rw [admitMessage_eq, admitMessage_eq] at h
  obtain ⟨hfront, htime⟩ := append_sep_inj (bar_not_mem_fmtInt _) (bar_not_mem_fmtInt _) h
  exact ⟨List.append_cancel_left hfront, fmtInt_inj htime⟩

/-- The message of an admission determines the peer and the time in nanoseconds, given the group. -/
theorem admitMessage_inj {gid p p' : Bytes} {t t' : ℤ}
    (h : admitMessage gid p t = admitMessage gid p' t') : p = p' ∧ unixNano t = unixNano t' := by
  obtain ⟨hpeer, htime⟩ := admitMessage_front_inj h
  exact ⟨(List.cons.inj (List.append_cancel_left hpeer)).2, htime⟩

end FnShare
