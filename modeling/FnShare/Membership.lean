import FnShare.Invite
import FnShare.Instance

/-!
# What a proof of admission proves

The two proofs that `verifyMembership` accepts, stated as what they say (`admissionProof_eq_true_iff`,
`inviteProof_eq_true_iff`), and how far each of them is bound to the peer of the entry that carries
it. The admin's signature on an admission names the peer. An invite names the group only: whoever has
seen an entry with an invite can put another peer into it.

The admin signs both with one key. The messages are told apart all the same, whatever strings the peers
choose for their ids (`signed_messages_apart`).
-/

namespace FnShare

open Prog

variable {L : Libs} {g : Group} {m : Member}

/-- The invite in an entry, decoded: one of the group, with the admin's key in it and the admin's
signature on it. -/
structure CarriesInvite (L : Libs) (g : Group) (m : Member) : Prop where
  nonempty : m.admissionInvite ≠ []
  /-- The group and the key that `VerifyMembership` compares. -/
  head : ∃ h, L.cbor.unmarshalHead m.admissionInvite = .ok h ∧ h.groupID = g.id ∧
    sliceBytes h.groupAdminPub = g.adminPub
  /-- The signature over the signed fields, encoded again. -/
  signed : ∃ fields raw sig body, L.cbor.unmarshalRawMap m.admissionInvite = .ok fields ∧
    fields.lookup (lit "sig") = some raw ∧ L.cbor.unmarshalBytes raw = .ok sig ∧
    L.cbor.signedPayload.unmarshal m.admissionInvite = .ok body ∧
    L.ed25519.verify g.adminPub (L.cbor.signedPayload.marshal body) (sliceBytes sig) = true

/-! ## The two proofs -/

/-- A signature check that panics or not. -/
theorem verifyChecked_eq_some_iff {E : Ed25519} {pub msg sig : Bytes} {b : Bool} :
    E.verifyChecked pub msg sig = some b ↔
      pub.length = publicKeySize ∧ E.verify pub msg sig = b := by
  unfold Ed25519.verifyChecked
  split_ifs with h <;> simp [h]

/-- The first proof holds by a signature of the admin over group, peer and time. -/
theorem admissionProof_eq_true_iff :
    admissionProof L g m = some true ↔
      m.admittedBySig ≠ [] ∧ g.adminPub.length = publicKeySize ∧
        L.ed25519.verify g.adminPub (admitMessage g.id m.peerID m.joinedAt) m.admittedBySig =
          true := by
  unfold admissionProof verifyAdmission
  simp only [List.length_pos_iff]
  split_ifs with h
  · simp [h, verifyChecked_eq_some_iff]
  · simp [h]

/-- The signature check on an encoded invite. -/
theorem verifyInviteSignature_eq_true_iff {raw adminPub : Bytes} :
    verifyInviteSignature L raw adminPub = some true ↔
      adminPub.length = publicKeySize ∧
      ∃ fields sigRaw sig body, L.cbor.unmarshalRawMap raw = .ok fields ∧
        fields.lookup (lit "sig") = some sigRaw ∧ L.cbor.unmarshalBytes sigRaw = .ok sig ∧
        L.cbor.signedPayload.unmarshal raw = .ok body ∧
        L.ed25519.verify adminPub (L.cbor.signedPayload.marshal body) (sliceBytes sig) = true := by
  unfold verifyInviteSignature
  split
  · simp [*]
  · split
    · simp [*]
    · split
      · simp [*]
      · split
        · simp [*]
        · simp [*, verifyChecked_eq_some_iff]

/-- The second proof holds by an invite of the group that the admin signed. -/
theorem inviteProof_eq_true_iff :
    inviteProof L g m = some true ↔ g.adminPub.length = publicKeySize ∧ CarriesInvite L g m := by
  unfold inviteProof
  simp only [List.length_pos_iff]
  split_ifs with h0
  · cases hh : L.cbor.unmarshalHead m.admissionInvite with
    | error e =>
      simp only [Option.some.injEq, Bool.false_eq_true, false_iff]
      rintro ⟨-, -, ⟨h, hok, -⟩, -⟩
      simp [hh] at hok
    | ok inv =>
      simp only
      split_ifs with hid hpub
      · simp only [Option.some.injEq, Bool.false_eq_true, false_iff]
        rintro ⟨-, -, ⟨h, hok, hgid, -⟩, -⟩
        rw [hh, Except.ok.injEq] at hok
        exact hid (hok ▸ hgid)
      · simp only [Option.some.injEq, Bool.false_eq_true, false_iff]
        rintro ⟨-, -, ⟨h, hok, -, hap⟩, -⟩
        rw [hh, Except.ok.injEq] at hok
        exact hpub (hok ▸ hap)
      · rw [verifyInviteSignature_eq_true_iff]
        have hhead : ∃ h, L.cbor.unmarshalHead m.admissionInvite = .ok h ∧ h.groupID = g.id ∧
            sliceBytes h.groupAdminPub = g.adminPub :=
          ⟨inv, hh, not_not.mp hid, not_not.mp hpub⟩
        exact and_congr_right fun _ => ⟨fun hs => ⟨h0, hhead, hs⟩, fun hc => hc.signed⟩
  · simp only [Option.some.injEq, Bool.false_eq_true, false_iff]
    rintro ⟨-, hc⟩
    exact h0 hc.nonempty

/-- An accepted entry has one of the two proofs. -/
theorem verifyMembership_eq_true_iff :
    verifyMembership L g m = some true ↔
      admissionProof L g m = some true ∨
        (admissionProof L g m = some false ∧ inviteProof L g m = some true) := by
  unfold verifyMembership
  rcases admissionProof L g m with _ | (_ | _) <;> simp

/-- With a key of the right length, no check of the first proof panics. -/
theorem admissionProof_eq_false_of_ne (hpub : g.adminPub.length = publicKeySize)
    (h : admissionProof L g m ≠ some true) : admissionProof L g m = some false := by
  unfold admissionProof verifyAdmission Ed25519.verifyChecked at *
  simp only [hpub, if_true] at *
  split_ifs at * <;> simp_all

/-- With a key of the right length, no check of the second proof panics. -/
theorem inviteProof_eq_false_of_ne (hpub : g.adminPub.length = publicKeySize)
    (h : inviteProof L g m ≠ some true) : inviteProof L g m = some false := by
  unfold inviteProof verifyInviteSignature Ed25519.verifyChecked at *
  simp only [hpub, if_true] at *
  repeat' split at *
  all_goals simp_all

/-- With a key of the right length, an entry is accepted or refused. -/
theorem verifyMembership_eq_false_of_ne (hpub : g.adminPub.length = publicKeySize)
    (h : verifyMembership L g m ≠ some true) : verifyMembership L g m = some false := by
  have hadm : admissionProof L g m = some false := admissionProof_eq_false_of_ne hpub fun h' =>
    h (verifyMembership_eq_true_iff.mpr (.inl h'))
  have hinv : inviteProof L g m = some false := inviteProof_eq_false_of_ne hpub fun h' =>
    h (verifyMembership_eq_true_iff.mpr (.inr ⟨hadm, h'⟩))
  simp [verifyMembership, hadm, hinv]

/-- An accepted entry shows that the admin's key has the right length. -/
theorem length_adminPub_of_verifyMembership (h : verifyMembership L g m = some true) :
    g.adminPub.length = publicKeySize := by
  rcases verifyMembership_eq_true_iff.mp h with h | ⟨-, h⟩
  · exact (admissionProof_eq_true_iff.mp h).2.1
  · exact (inviteProof_eq_true_iff.mp h).1

/-! ## Invites as the admin makes them -/

/-- An entry with an invite of the group that the admin signed is accepted by its invite. -/
theorem carriesInvite_of_signed (hC : L.cbor.Lawful) (inv : Invite)
    (htext : inv.toPayload.validText = true) (hraw : m.admissionInvite = L.cbor.invite.marshal inv)
    (hgid : inv.groupID = g.id) (hapub : sliceBytes inv.groupAdminPub = g.adminPub)
    (hsig : L.ed25519.verify g.adminPub (inv.signedBytes L) (sliceBytes inv.signature) = true) :
    CarriesInvite L g m where
  nonempty := hraw ▸ hC.invite_ne_nil inv
  head := by
    rw [hraw, hC.head_of_invite htext]
    exact ⟨_, rfl, hgid, hapub⟩
  signed := by
    obtain ⟨fields, raw, hfields, hlook, hbytes⟩ := hC.sig_of_invite htext
    rw [hraw]
    refine ⟨fields, raw, _, _, hfields, hlook, hbytes, hC.signedPayload_of_invite htext, ?_⟩
    rw [Cbor.marshal_signedPayload]
    exact hsig

/-- A peer that joined at a node other than the admin's, with an invite that the admin signed. -/
def sampleJoined (peerID : Bytes) : Member where
  peerID := peerID
  admissionInvite := sampleCbor.invite.marshal (sampleInvite (sampleGroup 7) 7)

/-- The entry of a peer that joined by an invite is accepted. -/
theorem carriesInvite_sampleJoined (peerID : Bytes) :
    CarriesInvite sampleLibs (sampleGroup 7) (sampleJoined peerID) :=
  carriesInvite_of_signed sampleCbor_lawful (sampleInvite (sampleGroup 7) 7)
    (by decide) rfl rfl rfl
    (sampleEd25519_ideal.verify_sign (sampleKey 7) (by decide) _)

/-- The message of an admission starts with a letter and the encoding of a map with its head. -/
theorem admitMessage_ne_of_definiteMap {raw : Bytes} (hmap : CborFormat.DefiniteMap raw)
    (gid p : Bytes) (t : ℤ) : admitMessage gid p t ≠ raw := by
  rintro rfl
  have hletter : admitMessage gid p t = 102 :: (admitMessage gid p t).tail := rfl
  rw [hletter] at hmap
  exact absurd hmap.major (by decide)

/-! ## Replacing the peer -/

/-- Where the admin has signed no admission of a peer, an entry for that peer is accepted by its
invite or not at all. The signature in the entry is one that the admin made. -/
theorem verifyMembership_of_not_issued {issued : Bytes → Prop}
    (hissued : ∀ msg, L.ed25519.verify g.adminPub msg m.admittedBySig = true → issued msg)
    (hpub : g.adminPub.length = publicKeySize)
    (hp : ¬ ∃ t, issued (admitMessage g.id m.peerID t)) :
    verifyMembership L g m = inviteProof L g m := by
  have hadm : admissionProof L g m = some false := by
    refine admissionProof_eq_false_of_ne hpub fun h => hp ⟨m.joinedAt, ?_⟩
    exact hissued _ (admissionProof_eq_true_iff.mp h).2.2
  simp [verifyMembership, hadm]

/-- The proof of an accepted entry is bound to its peer exactly if it is not an invite. For `p` in
place of the peer, the entry is refused unless the admin signed an admission of `p`: this holds if
and only if the entry carries no invite of the group that the admin signed (or nothing was to show,
`p` being the peer itself or admitted). -/
theorem verifyMembership_bound_iff {issued : Bytes → Prop}
    (hissued : ∀ msg, L.ed25519.verify g.adminPub msg m.admittedBySig = true → issued msg)
    (h : verifyMembership L g m = some true) (p : Bytes) :
    (p ≠ m.peerID → (¬ ∃ t, issued (admitMessage g.id p t)) →
      verifyMembership L g { m with peerID := p } = some false) ↔
    (¬ CarriesInvite L g m ∨ p = m.peerID ∨ ∃ t, issued (admitMessage g.id p t)) := by
  have hpub := length_adminPub_of_verifyMembership h
  have hcarries : inviteProof L g m = some true ↔ CarriesInvite L g m := by
    rw [inviteProof_eq_true_iff]
    exact and_iff_right hpub
  have hreplaced : (¬ ∃ t, issued (admitMessage g.id p t)) →
      verifyMembership L g { m with peerID := p } = inviteProof L g m := fun hp =>
    verifyMembership_of_not_issued hissued hpub hp
  constructor
  · intro hbound
    by_contra hc
    push Not at hc
    obtain ⟨hinv, hne, hp⟩ := hc
    have hp' : ¬ ∃ t, issued (admitMessage g.id p t) := fun ⟨t, ht⟩ => hp t ht
    have hfalse := hbound hne hp'
    rw [hreplaced hp', hcarries.mpr hinv] at hfalse
    exact absurd hfalse (by simp)
  · rintro (hinv | rfl | hp) hne hp'
    · rw [hreplaced hp']
      exact inviteProof_eq_false_of_ne hpub fun h' => hinv (hcarries.mp h')
    · exact absurd rfl hne
    · exact absurd hp hp'

/-- The admin has signed the invite and no admission. The entry that carries the invite is accepted
for the peer that joined with it, and as well for any other. -/
theorem sampleJoined_accepted_for_another_peer :
    (∀ msg, sampleLibs.ed25519.verify (sampleGroup 7).adminPub msg
        (sampleJoined (lit "alice")).admittedBySig = true →
      msg = (sampleInvite (sampleGroup 7) 7).signedBytes sampleLibs) ∧
    verifyMembership sampleLibs (sampleGroup 7) (sampleJoined (lit "alice")) = some true ∧
    (¬ ∃ t, admitMessage (sampleGroup 7).id (lit "mallory") t =
      (sampleInvite (sampleGroup 7) 7).signedBytes sampleLibs) ∧
    verifyMembership sampleLibs (sampleGroup 7)
      { sampleJoined (lit "alice") with peerID := lit "mallory" } = some true := by
  have hpub : (sampleGroup 7).adminPub.length = publicKeySize := by decide
  have haccept : ∀ p, verifyMembership sampleLibs (sampleGroup 7) (sampleJoined p) = some true := by
    intro p
    have hinv : inviteProof sampleLibs (sampleGroup 7) (sampleJoined p) = some true :=
      inviteProof_eq_true_iff.mpr ⟨hpub, carriesInvite_sampleJoined p⟩
    exact verifyMembership_eq_true_iff.mpr (.inr ⟨rfl, hinv⟩)
  refine ⟨?_, haccept _, ?_, haccept _⟩
  · intro msg hmsg
    exact absurd hmsg (by simp [sampleLibs, sampleEd25519, sampleJoined, privateKeySize])
  · rintro ⟨t, ht⟩
    exact admitMessage_ne_of_definiteMap (CborFormat.definiteMap_encode _) _ _ t ht

/-- A peer that the admin admitted at some time, with the admin's signature. -/
def sampleAdmitted (t : ℤ) : Member where
  peerID := lit "alice"
  joinedAt := t
  admittedBySig := sampleKey 7 ++ admitMessage (sampleGroup 7).id (lit "alice") t

/-- The admin has signed one admission and no invite. The entry is refused for another peer. -/
theorem sampleAdmitted_refused_for_another_peer :
    verifyMembership sampleLibs (sampleGroup 7)
      { sampleAdmitted 0 with peerID := lit "mallory" } = some false := by
  have hverify := sampleEd25519_ideal.verify_sign (sampleKey 7) (by decide)
    (admitMessage (sampleGroup 7).id (lit "alice") 0)
  have haccept : verifyMembership sampleLibs (sampleGroup 7) (sampleAdmitted 0) = some true :=
    verifyMembership_eq_true_iff.mpr (.inl (admissionProof_eq_true_iff.mpr
      ⟨by decide, by decide, hverify⟩))
  have hissued : ∀ msg, sampleLibs.ed25519.verify (sampleGroup 7).adminPub msg
      (sampleAdmitted 0).admittedBySig = true →
        msg = admitMessage (sampleGroup 7).id (lit "alice") 0 := by
    intro msg hmsg
    exact sampleEd25519_ideal.message_unique (sampleKey 7) (by decide)
      (admitMessage (sampleGroup 7).id (lit "alice") 0) hmsg
  refine (verifyMembership_bound_iff hissued haccept (lit "mallory")).mpr
    (.inl fun hc => hc.nonempty rfl) (by decide) ?_
  rintro ⟨t, ht⟩
  exact absurd (admitMessage_inj ht).1 (by decide)

/-! ## The messages of an admin

One key signs admissions and invites. The message of an admission is text with separators in it, and
the peer is any string; that of an invite is an encoded map. -/

/-- The signature in an encoded invite, as `verifyInviteSignature` finds it. -/
def encodedSignature (L : Libs) (raw : Bytes) : Option Bytes := do
  let fields ← (L.cbor.unmarshalRawMap raw).toOption
  let sigRaw ← fields.lookup (lit "sig")
  let sig ← (L.cbor.unmarshalBytes sigRaw).toOption
  return sliceBytes sig

/-- Where an encoded invite is accepted, its signature is one of an encoded payload. -/
theorem verify_of_verifyInviteSignature {raw adminPub sig : Bytes}
    (hsig : encodedSignature L raw = some sig)
    (h : verifyInviteSignature L raw adminPub = some true) :
    ∃ body, L.ed25519.verify adminPub (L.cbor.marshalPayload body) sig = true := by
  obtain ⟨-, fields, sigRaw, sig', body, hfields, hlook, hbytes, -, hverify⟩ :=
    verifyInviteSignature_eq_true_iff.mp h
  simp only [encodedSignature, hfields, hlook, hbytes, Except.toOption, Option.bind_eq_bind,
    Option.bind_some, Option.pure_def] at hsig
  obtain rfl := Option.some.inj hsig
  rw [Cbor.marshal_signedPayload] at hverify
  exact ⟨_, hverify⟩

/-- Two admissions with one message are the same, in one group or in groups whose ids have no
separator in them. -/
theorem admission_unique {gid gid' p p' : Bytes} {t t' : ℤ}
    (hgid : gid' = gid ∨ ((124 : UInt8) ∉ gid' ∧ (124 : UInt8) ∉ gid))
    (h : admitMessage gid' p' t' = admitMessage gid p t) :
    gid' = gid ∧ p' = p ∧ unixNano t' = unixNano t := by
  rcases hgid with rfl | ⟨hbar', hbar⟩
  · exact ⟨rfl, admitMessage_inj h⟩
  · obtain ⟨hfront, htime⟩ := admitMessage_front_inj h
    obtain ⟨rfl, rfl⟩ := sep_append_inj hbar' hbar hfront
    exact ⟨rfl, rfl, htime⟩

/-- The messages that an admin signs are told apart. In one group, the message of an admission
determines the peer and the time; it is never the signed part of an invite. So a signature that
`AdmitMember` made is accepted for no other admission and in no invite, and one that the `Create` of
invites made is accepted for no admission. -/
theorem signed_messages_apart
    (hmap : ∀ p : Payload, CborFormat.DefiniteMap (L.cbor.marshalPayload p)) :
    (∀ (gid p p' : Bytes) (t t' : ℤ), admitMessage gid p t = admitMessage gid p' t' →
      p = p' ∧ unixNano t = unixNano t') ∧
    (∀ (gid p : Bytes) (t : ℤ) (i : Invite), admitMessage gid p t ≠ i.signedBytes L) ∧
    (L.ed25519.Ideal →
      (∀ (g : Group) (p : Bytes) (t : ℤ) (sig : Bytes), admitMember L g p t = .ok sig →
        (∀ (g' : Group) (p' : Bytes) (t' : ℤ), verifyAdmission L g' p' t' sig = some true →
          g'.id = g.id ∨ ((124 : UInt8) ∉ g'.id ∧ (124 : UInt8) ∉ g.id) →
          g'.id = g.id ∧ p' = p ∧ unixNano t' = unixNano t) ∧
        (∀ i : Invite, sliceBytes i.signature = sig → i.selfSigned L = false) ∧
        (∀ raw adminPub : Bytes, encodedSignature L raw = some sig →
          verifyInviteSignature L raw adminPub ≠ some true)) ∧
      (∀ (g : Group) (bootstrap : Option (List Bytes)) (ttl quotaCap : ℤ) (evs : List NodeEvent)
        (inv : Invite),
        Steps (Env.any NodeSig) () (createInvite L g bootstrap ttl quotaCap) evs () (ret inv) →
        ∀ (g' : Group) (p : Bytes) (t : ℤ),
          verifyAdmission L g' p t (sliceBytes inv.signature) ≠ some true)) := by
  have hne : ∀ (gid p : Bytes) (t : ℤ) (body : Payload),
      admitMessage gid p t ≠ L.cbor.marshalPayload body := fun gid p t body =>
    admitMessage_ne_of_definiteMap (hmap body) gid p t
  refine ⟨fun gid p p' t t' h => admitMessage_inj h, fun gid p t i => hne gid p t i.toPayload,
    fun hE => ⟨?_, ?_⟩⟩
  · intro g p t sig hsig
    unfold admitMember at hsig
    split_ifs at hsig with hlen
    obtain rfl := Except.ok.inj hsig
    -- The signature is of the one message that was signed.
    have huniq : ∀ {pub msg : Bytes}, L.ed25519.verify pub msg
        (L.ed25519.sign g.adminPriv (admitMessage g.id p t)) = true → msg = admitMessage g.id p t :=
      fun h => hE.message_unique g.adminPriv (not_not.mp hlen) _ h
    refine ⟨?_, ?_, ?_⟩
    · intro g' p' t' hverify hgid
      exact admission_unique hgid (huniq (verifyChecked_eq_some_iff.mp hverify).2)
    · intro i hi
      by_contra hself
      rw [Bool.not_eq_false, Invite.selfSigned, hi] at hself
      exact hne _ _ _ _ (huniq hself).symm
    · intro raw adminPub hraw haccept
      obtain ⟨body, hverify⟩ := verify_of_verifyInviteSignature hraw haccept
      exact hne _ _ _ _ (huniq hverify).symm
  · intro g bootstrap ttl quotaCap evs inv hcreate g' p t hverify
    obtain ⟨hlen, -, -, -, -, hsig⟩ := createInvite_eq hcreate
    rw [hsig] at hverify
    exact hne _ _ _ _ (hE.message_unique g.adminPriv hlen _ (verifyChecked_eq_some_iff.mp hverify).2)

/-- The admission of a peer whose id looks like one with a time in it: its signature is refused for
the peer of the shorter id, and by every invite that carries it. -/
theorem signed_messages_apart_for_bar :
    verifyAdmission sampleLibs (sampleGroup 7) (lit "alice|1") 2
      (sampleKey 7 ++ admitMessage (sampleGroup 7).id (lit "alice|1") 2) = some true ∧
    verifyAdmission sampleLibs (sampleGroup 7) (lit "alice") 1
      (sampleKey 7 ++ admitMessage (sampleGroup 7).id (lit "alice|1") 2) ≠ some true ∧
    ∀ i : Invite, sliceBytes i.signature =
      sampleKey 7 ++ admitMessage (sampleGroup 7).id (lit "alice|1") 2 →
      i.selfSigned sampleLibs = false := by
  have hadmit : admitMember sampleLibs (sampleGroup 7) (lit "alice|1") 2 =
      .ok (sampleKey 7 ++ admitMessage (sampleGroup 7).id (lit "alice|1") 2) := rfl
  obtain ⟨-, -, hsigned⟩ := signed_messages_apart (L := sampleLibs) fun p =>
    CborFormat.definiteMap_encode _
  obtain ⟨hother, hinvite, -⟩ := (hsigned sampleEd25519_ideal).1 _ _ _ _ hadmit
  refine ⟨?_, fun h => ?_, hinvite⟩
  · exact verifyChecked_eq_some_iff.mpr
      ⟨by decide, sampleEd25519_ideal.verify_sign (sampleKey 7) (by decide) _⟩
  · exact absurd (hother (sampleGroup 7) _ _ h (.inl rfl)).2.1 (by decide)

end FnShare
