import FnShare.Node.Protocol
import FnShare.World
import FnShare.Membership

/-!
# Joins, from the request to the members table

What a join request can make a node do (`handleJoin_ok`), and two properties of it. Whose signature
stands behind an admission: `Verify` checks the invite against the key in the invite, and the group
is loaded afterwards, so that the admin of the group need not have signed anything. And what becomes
of the proof of admission: it is made at the time in nanoseconds, stored with the time in seconds, and
checked by other nodes against what was stored.
-/

namespace FnShare

open Prog

variable {L : Libs} {s : NodeState} {req : JoinRequest}

/-- The times that a program read from the clock. -/
def readings (evs : List NodeEvent) : List ℤ :=
  evs.filterMap fun
    | ⟨.now, t⟩ => some t
    | _ => none

/-- What has happened where `handleJoin` answers that a peer was let in. -/
structure Joined (L : Libs) (s : NodeState) (peer addr : Bytes) (req : JoinRequest) (inv : Invite)
    (g : Group) (t : ℤ) (sig : Bytes) (s' : NodeState) (resp : JoinResponse) : Prop where
  invite_eq : req.invite = some inv
  length_key : (sliceBytes inv.groupAdminPub).length = publicKeySize
  selfSigned : inv.selfSigned L = true
  group_eq : s.group L inv.groupID = some g
  admission_eq : admission L g peer t = .ok sig
  /-- The entry is stored. -/
  state_eq : s' = s.putKey (memberKey g.id peer)
    (L.cbor.member.marshal (joinedMember L g inv req peer addr t sig))
  /-- The group's secrets are in the answer. -/
  resp_eq : ∃ members, resp = joinedResponse g t sig members

/-- What `handleJoin` may answer, given the state that it started in and what it has done. -/
def joinGuard (L : Libs) (s : NodeState) (peer addr : Bytes) (req : JoinRequest) (s' : NodeState)
    (evs : List NodeEvent) (o : NodeOp) : Prop :=
  ∀ resp, o = .replyJoin resp → resp.ok = true →
    ∃ inv g t₀ t sig, readings evs = [t₀, t] ∧ Joined L s peer addr req inv g t sig s' resp

/-- A refusal is admissible anywhere. -/
theorem joinGuard_refusal {s' : NodeState} {peer addr : Bytes}
    {evs : List NodeEvent} (err : Bytes) :
    joinGuard L s peer addr req s' evs (.replyJoin { ok := false, error := err }) := by
  rintro resp he hok
  obtain rfl := NodeOp.replyJoin.inj he
  exact absurd hok (by simp)

section Rules

variable {guard : NodeState → List NodeEvent → NodeOp → Prop} {evs : List NodeEvent}

/-- A refusal ends the handler. -/
theorem wp_writeJoinErr {e : GoErr}
    (h : guard s evs (.replyJoin { ok := false, error := e.text })) :
    wp (nodeEnv.traced guard) (writeJoinErr e) (fun _ _ => True) (s, evs) :=
  ⟨h, fun _ _ _ => trivial⟩

/-- `Verify` reads the clock, and accepts an invite that its own key has signed. -/
theorem wp_verify {inv : Invite} {Q : Except GoErr Unit → NodeState × List NodeEvent → Prop}
    (hg : guard s evs .now)
    (herr : ∀ e evs', Q (.error e) (s, evs'))
    (hok : ∀ t, (sliceBytes inv.groupAdminPub).length = publicKeySize → inv.selfSigned L = true →
      Q (.ok ()) (s, evs ++ [⟨.now, t⟩])) :
    wp (nodeEnv.traced guard) (inv.verify L) Q (s, evs) := by
  unfold Invite.verify
  by_cases hlen : (sliceBytes inv.groupAdminPub).length ≠ publicKeySize
  · rw [if_pos hlen]
    exact herr _ _
  · rw [if_neg hlen, wp_bind]
    refine wp_now hg fun t => ?_
    simp only [andThen_ok]
    split_ifs with hexp hsig
    · exact herr _ _
    · exact herr _ _
    · exact hok t (not_not.mp hlen) (by simpa using hsig)

end Rules

/-- `handleJoin` lets a peer in only with the facts of `Joined`. -/
theorem wp_handleJoin (s : NodeState) (peer addr : Bytes) (req : JoinRequest) :
    wp (nodeEnv.traced (joinGuard L s peer addr req)) (handleJoin L peer addr (.ok req))
      (fun _ _ => True) (s, []) := by
  have hfree : ∀ {s' evs o}, (∀ resp, o ≠ .replyJoin resp) → joinGuard L s peer addr req s' evs o :=
    fun h resp he => absurd he (h resp)
  simp only [handleJoin]
  cases hinv : req.invite with
  | none => exact wp_writeJoinErr (joinGuard_refusal _)
  | some inv =>
    simp only
    rw [wp_bind, wp_attempt]
    refine wp_verify (hfree (by simp)) (fun e evs' => ?_) fun t₀ hlen hself => ?_
    · exact wp_writeJoinErr (joinGuard_refusal _)
    simp only [andThen_ok]
    rw [wp_bind, wp_attempt]
    refine wp_loadByID (hfree (by simp)) (fun e evs' => ?_) fun g r hgroup => ?_
    · exact wp_writeJoinErr (joinGuard_refusal _)
    simp only [andThen_ok, admitPeer]
    rw [wp_bind]
    refine wp_now (hfree (by simp)) fun t => ?_
    simp only [andThen_ok]
    cases hadm : admission L g peer t with
    | error e => exact wp_writeJoinErr (joinGuard_refusal _)
    | ok sig =>
      simp only [putMember, storePut]
      rw [wp_bind, wp_attempt, wp_bind]
      refine wp_traced_op.mpr ⟨hfree (by simp), ?_⟩
      -- The entry is stored, and only then is the peer told that it is in.
      rintro r' s' (⟨rfl, rfl⟩ | ⟨⟨e, rfl⟩, rfl⟩)
      · simp only [wp_ret, andThen_ok, wp_ofExcept, listMembers]
        rw [wp_bind, wp_bind]
        refine wp_traced_op.mpr ⟨hfree (by simp), ?_⟩
        rintro ⟨pairs, err⟩ s' ⟨rfl, -⟩
        simp only [wp_ret, andThen_ok, Prog.pure_eq]
        rw [wp_bind]
        refine wp_traced_op.mpr ⟨?_, ?_⟩
        · rintro resp he -
          obtain rfl := NodeOp.replyJoin.inj he
          exact ⟨inv, g, t₀, t, sig, rfl, hinv, hlen, hself, hgroup, hadm, rfl, _, rfl⟩
        · rintro r'' s' rfl
          simp only [wp_ret, andThen_ok]
          cases r'' with
          | error e => trivial
          | ok u =>
            simp only [slice12]
            split_ifs
            · trivial
            · exact ⟨hfree (by simp), fun r => Empty.elim r⟩
      · exact wp_writeJoinErr (joinGuard_refusal _)

/-- A node that lets a peer in has the facts of `Joined`. -/
theorem handleJoin_ok {s' : NodeState} {peer addr : Bytes} {evs : List NodeEvent} {resp : JoinResponse}
    {r : Except GoErr Unit} {p : NodeM Unit}
    (h : Steps nodeEnv s (handleJoin L peer addr (.ok req)) (evs ++ [⟨.replyJoin resp, r⟩]) s' p)
    (hok : resp.ok = true) :
    ∃ inv g t₀ t sig, readings evs = [t₀, t] ∧ Joined L s peer addr req inv g t sig s' resp := by
  obtain ⟨v, hguard, hv⟩ := wp_traced_last (wp_handleJoin s peer addr req) h
  obtain rfl : s' = v := hv
  exact hguard resp rfl hok

/-! ## Whose signature admits -/

/-- An invite within its time that its own key has signed passes `Verify`. -/
theorem steps_verify {inv : Invite} (hlen : (sliceBytes inv.groupAdminPub).length = publicKeySize)
    (hself : inv.selfSigned L = true) {t : ℤ} (ht : unix t ≤ inv.expiresAt) :
    Steps nodeEnv s (inv.verify L) [⟨.now, t⟩] s (ret ()) := by
  unfold Invite.verify
  rw [if_neg (not_not.mpr hlen)]
  refine .op rfl ?_
  change Steps nodeEnv s (if unix t > inv.expiresAt then _ else _) [] s _
  rw [if_neg (not_lt.mpr ht), hself]
  exact .refl _ _

/-- A node can let a peer in whose invite passes `Verify` and is for a group that the node has. -/
theorem steps_handleJoin {inv : Invite} {g : Group} (peer addr : Bytes) (hinv : req.invite = some inv)
    (hgroup : s.group L inv.groupID = some g) (hlen : (sliceBytes inv.groupAdminPub).length = publicKeySize)
    (hself : inv.selfSigned L = true) {t₀ : ℤ} (ht : unix t₀ ≤ inv.expiresAt) {t : ℤ} {sig : Bytes}
    (hadm : admission L g peer t = .ok sig) :
    ∃ evs resp r s' p, Steps nodeEnv s (handleJoin L peer addr (.ok req))
      (evs ++ [⟨.replyJoin resp, r⟩]) s' p ∧ resp.ok = true ∧ readings evs = [t₀, t] := by
  obtain ⟨raw, hload⟩ := steps_loadByID hgroup
  let m := joinedMember L g inv req peer addr t sig
  let s' := s.putKey (memberKey g.id peer) (L.cbor.member.marshal m)
  let pairs := s'.scan (memberPrefix g.id)
  let resp := joinedResponse g t sig (decodeValues L.cbor.member pairs)
  let load : NodeEvent := ⟨.storeGet (groupKey inv.groupID), .ok raw⟩
  let put : NodeEvent := ⟨.storePut (memberKey g.id peer) (L.cbor.member.marshal m), .ok ()⟩
  let list : NodeEvent := ⟨.storeIterate (memberPrefix g.id), (pairs, none)⟩
  let reply : NodeEvent := ⟨.replyJoin resp, .ok ()⟩
  have hput : Steps nodeEnv s (putMember L g.id m) [put] s' (ret ()) :=
    .op (.inl ⟨rfl, rfl⟩) (.refl _ _)
  have hnow : Steps nodeEnv s now [⟨.now, t⟩] s (ret t) := .op rfl (.refl _ _)
  have hlist : Steps nodeEnv s' (listMembers L g.id) [list] s'
      (ret (decodeValues L.cbor.member pairs, none)) := .op ⟨rfl, .inl rfl⟩ (.refl _ _)
  have hadmit : Steps nodeEnv s (admitPeer L peer addr req inv g)
      ([⟨.now, t⟩] ++ ([put] ++ ([list] ++ [reply]))) s' (slice12 g.id) := by
    unfold admitPeer
    refine hnow.bind ?_
    simp only [hadm]
    exact hput.attempt.bind (hlist.bind (.op rfl (.refl _ _)))
  refine ⟨[⟨.now, t₀⟩, load, ⟨.now, t⟩, put, list], resp, .ok (), s', slice12 g.id, ?_, rfl, rfl⟩
  simp only [handleJoin, hinv]
  exact (steps_verify hlen hself ht).attempt.bind (hload.attempt.bind hadmit)

/-- The admin's signature stands behind every admission exactly if every acceptable invite for a
stored group has the group's key in it. -/
theorem handleJoin_admin_signed_iff (hE : L.ed25519.Ideal) (s : NodeState) (peer addr : Bytes)
    (req : JoinRequest) :
    (∀ evs resp r s' p, Steps nodeEnv s (handleJoin L peer addr (.ok req))
        (evs ++ [⟨.replyJoin resp, r⟩]) s' p → resp.ok = true →
      ∃ inv g, req.invite = some inv ∧ s.group L inv.groupID = some g ∧
        L.ed25519.verify g.adminPub (inv.signedBytes L) (sliceBytes inv.signature) = true) ↔
    ∀ inv g, req.invite = some inv → s.group L inv.groupID = some g → inv.selfSigned L = true →
      (g.isAdminNode = true → g.adminPriv.length = privateKeySize) →
      sliceBytes inv.groupAdminPub = g.adminPub := by
  constructor
  · intro h inv g hinv hgroup hself hpriv
    -- The node lets the peer in, so that the admin's key verifies the signature; and the key in the
    -- invite does. A signature has one key.
    have hlen : (sliceBytes inv.groupAdminPub).length = publicKeySize := by
      obtain ⟨priv, hl, hp, -⟩ := (hE.verify_iff _ _ _).mp hself
      exact hp ▸ hE.length_pub priv hl
    obtain ⟨sig, hadm⟩ : ∃ sig, admission L g peer 0 = .ok sig := by
      unfold admission admitMember
      split_ifs with ha hb
      · exact absurd (hpriv ha) hb
      · exact ⟨_, rfl⟩
      · exact ⟨_, rfl⟩
    have ht : unix (inv.expiresAt * 1000000000) ≤ inv.expiresAt := by
      unfold unix
      omega
    obtain ⟨evs, resp, r, s', p, hsteps, hok, -⟩ :=
      steps_handleJoin peer addr hinv hgroup hlen hself ht hadm
    obtain ⟨inv', g', hinv', hgroup', hver⟩ := h evs resp r s' p hsteps hok
    obtain rfl : inv = inv' := Option.some.inj (hinv.symm.trans hinv')
    obtain rfl : g = g' := Option.some.inj (hgroup.symm.trans hgroup')
    exact hE.pub_unique hself hver
  · intro h evs resp r s' p hsteps hok
    obtain ⟨inv, g, -, t, sig, -, hj⟩ := handleJoin_ok hsteps hok
    have hpriv : g.isAdminNode = true → g.adminPriv.length = privateKeySize := by
      intro ha
      have hadm := hj.admission_eq
      unfold admission admitMember at hadm
      rw [if_pos ha] at hadm
      split_ifs at hadm with hl
      exact not_not.mp hl
    have hkey := h inv g hj.invite_eq hj.group_eq hj.selfSigned hpriv
    exact ⟨inv, g, hj.invite_eq, hj.group_eq, hkey ▸ hj.selfSigned⟩

/-- A node comes to the state with a new group by creating the group. -/
theorem steps_createGroup (L : Libs) (name seed sk : Bytes) (t : ℤ)
    (hseed : seed.length = seedSize) (hsk : sk.length = 32) :
    ∃ evs, Steps nodeEnv .fresh (createGroup L name >>= saveGroup L) evs
      (NodeState.fresh.putKey (groupKey (newGroup L name seed sk t).id)
        (L.cbor.group.marshal (newGroup L name seed sk t))) (ret ()) :=
  ⟨[⟨.rand seedSize, .ok ⟨seed, hseed⟩⟩, ⟨.rand 32, .ok ⟨sk, hsk⟩⟩, ⟨.now, t⟩, ⟨.storePut _ _, .ok ()⟩],
    .op rfl (.op rfl (.op rfl (.op (.inl ⟨rfl, rfl⟩) (.refl _ _))))⟩

/-- The state is one that a node comes to. -/
theorem sampleNode_reached :
    ∃ evs, Steps nodeEnv .fresh (createGroup sampleLibs (lit "nas") >>= saveGroup sampleLibs) evs
      sampleNode (ret ()) := by
  have hgroup : newGroup sampleLibs (lit "nas") (List.replicate 32 7) (List.replicate 32 1) 0 =
      sampleGroup 7 := by decide
  obtain ⟨evs, h⟩ := steps_createGroup sampleLibs (lit "nas") (List.replicate 32 7)
    (List.replicate 32 1) 0 rfl rfl
  rw [hgroup] at h
  exact ⟨evs, h⟩

/-- A request to join the group, with an invite signed by the key of `b`. -/
def sampleRequest (b : UInt8) : JoinRequest where
  invite := some (sampleInvite (sampleGroup 7) b)
  nickname := lit "mallory"
  contributed := 0
  nodePub := []
  encPub := []

/-- Any key's own invite passes the check of its signature. -/
theorem selfSigned_sampleInvite (g : Group) (b : UInt8) :
    (sampleInvite g b).selfSigned sampleLibs = true :=
  sampleEd25519_ideal.verify_sign (sampleKey b) (by simp [sampleKey]) _

/-- The node can let in a peer with an invite signed by any key, at any time. -/
theorem steps_sampleNode (b : UInt8) (t : ℤ) :
    ∃ evs resp r s' p, Steps nodeEnv sampleNode
      (handleJoin sampleLibs (lit "peer") (lit "/ip4/10.0.0.9/tcp/4001") (.ok (sampleRequest b)))
      (evs ++ [⟨.replyJoin resp, r⟩]) s' p ∧ resp.ok = true ∧ readings evs = [0, t] :=
  steps_handleJoin (lit "peer") (lit "/ip4/10.0.0.9/tcp/4001")
    (show (sampleRequest b).invite = some (sampleInvite (sampleGroup 7) b) from rfl)
    group_sampleNode (by simp [sampleInvite, samplePayload, sliceBytes])
    (selfSigned_sampleInvite _ b)
    (show unix 0 ≤ (sampleInvite (sampleGroup 7) b).expiresAt from show unix 0 ≤ 1000 by decide)
    (show admission sampleLibs (sampleGroup 7) (lit "peer") t = .ok _ from rfl)

/-- The node lets in a peer that signed the invite with its own key, stores it as a member, and tells
it the group's secret. The admin's key does not verify the signature. -/
theorem sampleNode_admits_forged_invite :
    (∃ evs, Steps nodeEnv .fresh (createGroup sampleLibs (lit "nas") >>= saveGroup sampleLibs) evs
      sampleNode (ret ())) ∧
    ∃ evs resp r s' p, Steps nodeEnv sampleNode
      (handleJoin sampleLibs (lit "peer") (lit "/ip4/10.0.0.9/tcp/4001") (.ok (sampleRequest 9)))
      (evs ++ [⟨.replyJoin resp, r⟩]) s' p ∧ resp.ok = true ∧
      resp.groupSharedKey = (sampleGroup 7).sharedKey ∧
      s'.store.get (memberKey (sampleGroup 7).id (lit "peer")) ≠ none ∧
      sampleLibs.ed25519.verify (sampleGroup 7).adminPub
        ((sampleInvite (sampleGroup 7) 9).signedBytes sampleLibs)
        (sliceBytes (sampleInvite (sampleGroup 7) 9).signature) = false := by
  obtain ⟨evs, resp, r, s', p, hsteps, hok, -⟩ := steps_sampleNode 9 0
  obtain ⟨inv, g, -, t, sig, -, hj⟩ := handleJoin_ok hsteps hok
  obtain rfl : inv = sampleInvite (sampleGroup 7) 9 := (Option.some.inj hj.invite_eq).symm
  obtain rfl : g = sampleGroup 7 :=
    Option.some.inj (hj.group_eq.symm.trans group_sampleNode)
  obtain ⟨members, hresp⟩ := hj.resp_eq
  refine ⟨sampleNode_reached, evs, resp, r, s', p, hsteps, hok, by rw [hresp]; rfl, ?_, ?_⟩
  · rw [hj.state_eq, NodeState.putKey, SortedMap.get_put_self]
    simp
  · rw [Bool.eq_false_iff]
    intro hver
    exact absurd (sampleEd25519_ideal.pub_unique hver (selfSigned_sampleInvite _ 9)) (by decide)

/-- With an invite that the admin signed, the node lets a peer in, and the admin's signature stands
behind it. -/
theorem sampleNode_admits_genuine_invite :
    ∃ evs resp r s' p, Steps nodeEnv sampleNode
        (handleJoin sampleLibs (lit "peer") (lit "/ip4/10.0.0.9/tcp/4001") (.ok (sampleRequest 7)))
        (evs ++ [⟨.replyJoin resp, r⟩]) s' p ∧ resp.ok = true ∧
      ∃ inv g, (sampleRequest 7).invite = some inv ∧
        sampleNode.group sampleLibs inv.groupID = some g ∧
        sampleLibs.ed25519.verify g.adminPub (inv.signedBytes sampleLibs)
          (sliceBytes inv.signature) = true := by
  obtain ⟨evs, resp, r, s', p, hsteps, hok, -⟩ := steps_sampleNode 7 0
  refine ⟨evs, resp, r, s', p, hsteps, hok, (handleJoin_admin_signed_iff sampleEd25519_ideal
    sampleNode (lit "peer") (lit "/ip4/10.0.0.9/tcp/4001") (sampleRequest 7)).mpr ?_
      evs resp r s' p hsteps hok⟩
  intro inv g hinv hgroup _ _
  obtain rfl := Option.some.inj hinv
  obtain rfl : g = sampleGroup 7 := Option.some.inj (hgroup.symm.trans group_sampleNode)
  rfl

/-! ## What becomes of the proof of admission -/

/-- An entry as it arrives at a peer over JSON: times in nanoseconds, text made valid. -/
def Member.overJSON (m : Member) : Member :=
  { m with
    peerID := toValidUTF8 m.peerID
    nickname := toValidUTF8 m.nickname
    lastAddrs := m.lastAddrs.map toValidUTF8 }

/-- Valid text arrives unchanged. -/
theorem Member.overJSON_of_valid {m : Member} (h : m.validText = true) : m.overJSON = m := by
  simp only [Member.validText, Bool.and_eq_true, List.all_eq_true] at h
  have hmap : m.lastAddrs.map toValidUTF8 = m.lastAddrs := by
    rw [List.map_congr_left fun a ha => toValidUTF8_of_valid (h.2 a ha), List.map_id']
  simp [Member.overJSON, toValidUTF8_of_valid h.1.1, toValidUTF8_of_valid h.1.2, hmap]

/-- What `handleMembers` may answer. -/
def membersGuard (L : Libs) (s : NodeState) (gid : Bytes) (o : NodeOp) : Prop :=
  ∀ resp, o = .replyMembers resp → resp.error = [] → resp.groupID = gid →
    resp.members = decodeValues L.cbor.member (s.scan (memberPrefix gid))

/-- `handleMembers` answers with the table that is stored. -/
theorem wp_handleMembers (s : NodeState) (gid : Bytes) :
    wp (nodeEnv.traced fun _ _ => membersGuard L s gid) (handleMembers L (.ok ⟨gid⟩))
      (fun _ _ => True) (s, []) := by
  have hfree : ∀ {o}, (∀ resp, o ≠ .replyMembers resp) → membersGuard L s gid o :=
    fun h resp he => absurd he (h resp)
  have herror : ∀ {err evs}, err ≠ [] → wp (nodeEnv.traced fun _ _ => membersGuard L s gid)
      (replyMembers { error := err }) (fun _ _ => True) (s, evs) := by
    refine fun hne => ⟨?_, fun _ _ _ => trivial⟩
    rintro resp he hnil
    obtain rfl := NodeOp.replyMembers.inj he
    exact absurd hnil hne
  simp only [handleMembers]
  split_ifs with hgid
  · exact herror (by decide)
  · rw [wp_bind, wp_attempt]
    refine wp_loadByID (hfree (by simp)) (fun e evs' => ?_) fun g r _ => ?_
    · simp only [andThen_ok, slice12]
      split_ifs
      · exact herror (List.append_ne_nil_of_left_ne_nil (by decide) _)
      · exact ⟨hfree (by simp), fun r => Empty.elim r⟩
    · simp only [andThen_ok, listMembers]
      rw [wp_bind, wp_bind]
      refine wp_traced_op.mpr ⟨hfree (by simp), ?_⟩
      rintro ⟨pairs, err⟩ s' ⟨rfl, hpairs⟩
      simp only [wp_ret, andThen_ok, Prog.pure_eq]
      rcases hpairs with hpairs | ⟨l, e, -, hpairs⟩
      all_goals
        obtain ⟨rfl, rfl⟩ := Prod.mk.inj hpairs
        refine ⟨?_, fun _ _ _ => trivial⟩
        rintro resp he hnil hid
        obtain rfl := NodeOp.replyMembers.inj he
      · rfl
      · exact absurd hid.symm hgid

/-- The table that a node tells of has the entry that it has stored. -/
theorem member_mem_scan {gid pid : Bytes} {m : Member} (h : s.member L gid pid = some m) :
    m ∈ decodeValues L.cbor.member (s.scan (memberPrefix gid)) := by
  obtain ⟨raw, hget, hdec⟩ := Option.bind_eq_some_iff.mp h
  refine List.mem_filterMap.mpr ⟨(memberKey gid pid, raw), ?_, hdec⟩
  refine List.mem_filter.mpr ⟨(SortedMap.mem_entries_iff _ _ _).mpr hget, ?_⟩
  simp [memberKey]

section Proof

variable {g : Group} {inv : Invite} {peer addr : Bytes} {t : ℤ} {sig : Bytes}

/-- The entry has valid text if the request and the connection had. -/
theorem validText_joinedMember (hnick : validUTF8 req.nickname = true)
    (hpeer : validUTF8 peer = true) (haddr : validUTF8 addr = true) :
    (joinedMember L g inv req peer addr t sig).validText = true := by
  have haddrs : (multiaddrsToStrings addr).all validUTF8 = true := by
    unfold multiaddrsToStrings
    split_ifs <;> simp [haddr]
  simp [Member.validText, joinedMember, hnick, hpeer, haddrs]

/-- The entry of a peer that a node other than the admin's lets in is accepted elsewhere. -/
theorem verifyMembership_joined_invite (hE : L.ed25519.Ideal) (hC : L.cbor.Lawful)
    (hadmin : L.ed25519.verify g.adminPub (inv.signedBytes L) (sliceBytes inv.signature) = true)
    (hself : inv.selfSigned L = true) (htext : inv.toPayload.validText = true)
    (hgid : inv.groupID = g.id) (hnode : g.isAdminNode = false)
    (hadm : admission L g peer t = .ok sig) {g' : Group} (hid : g'.id = g.id)
    (hpub : g'.adminPub = g.adminPub) :
    verifyMembership L g' (joinedMember L g inv req peer addr t sig).norm = some true := by
  have hsig : sig = [] := by simpa [admission, hnode] using hadm.symm
  have hkey : sliceBytes inv.groupAdminPub = g.adminPub := hE.pub_unique hself hadmin
  have hlen : g'.adminPub.length = publicKeySize := by
    obtain ⟨priv, hl, hp, -⟩ := (hE.verify_iff _ _ _).mp hadmin
    rw [hpub, ← hp]
    exact hE.length_pub priv hl
  have hcarries : CarriesInvite L g' (joinedMember L g inv req peer addr t sig).norm :=
    carriesInvite_of_signed hC inv htext (by simp [Member.norm, joinedMember, hnode])
      (hgid.trans hid.symm) (hkey.trans hpub.symm) (hpub ▸ hadmin)
  refine verifyMembership_eq_true_iff.mpr (.inr ⟨?_, inviteProof_eq_true_iff.mpr ⟨hlen, hcarries⟩⟩)
  simp [admissionProof, joinedMember, Member.norm, hsig]

/-- The entry of a peer that the admin's node lets in is accepted exactly if the time had no
fraction of a second. -/
theorem verifyMembership_joined_admin (hE : L.ed25519.Ideal) (hnode : g.isAdminNode = true)
    (hkey : L.ed25519.pub g.adminPriv = g.adminPub) (hadm : admission L g peer t = .ok sig)
    {g' : Group} (hid : g'.id = g.id) (hpub : g'.adminPub = g.adminPub) :
    verifyMembership L g' (joinedMember L g inv req peer addr t sig).norm = some true ↔
      t % 1000000000 = 0 := by
  have hadm' : g.adminPriv.length = privateKeySize ∧
      sig = L.ed25519.sign g.adminPriv (admitMessage g.id peer t) := by
    unfold admission admitMember at hadm
    rw [if_pos hnode] at hadm
    split_ifs at hadm with hl
    exact ⟨not_not.mp hl, (Except.ok.inj hadm).symm⟩
  obtain ⟨hl, rfl⟩ := hadm'
  have hlen : g'.adminPub.length = publicKeySize := by
    rw [hpub, ← hkey]
    exact hE.length_pub _ hl
  have hinv : ¬ CarriesInvite L g' (joinedMember L g inv req peer addr t
      (L.ed25519.sign g.adminPriv (admitMessage g.id peer t))).norm := by
    intro hc
    exact hc.nonempty (by simp [Member.norm, joinedMember, hnode])
  -- The invite being absent, acceptance is by the signature, which is over the exact time.
  rw [verifyMembership_eq_true_iff, inviteProof_eq_true_iff, admissionProof_eq_true_iff,
    ← unixNano_wholeSeconds_iff]
  simp only [hinv, and_false, or_false]
  constructor
  · rintro ⟨-, -, hver⟩
    have hmsg := hE.message_unique g.adminPriv hl _ hver
    simp only [Member.norm, joinedMember, hid] at hmsg
    exact (admitMessage_inj hmsg).2
  · intro ht
    refine ⟨hE.sign_ne_nil _ _ hl, hlen, ?_⟩
    have hmsg : admitMessage g'.id peer (wholeSeconds t) = admitMessage g.id peer t := by
      simp only [admitMessage, hid, ht]
    simp only [Member.norm, joinedMember, hmsg, hpub]
    rw [← hkey]
    exact hE.verify_sign _ hl _

end Proof

/-- The proof of admission of a peer that a node has let in survives exactly if the node is not the
admin's, or the time of the admission had no fraction of a second. To survive is to be read back from
the store, to be in the table that the node tells others, and to be accepted from there by any node
that has the same group. -/
theorem admission_survives_iff (hE : L.ed25519.Ideal) (hC : L.cbor.Lawful)
    {s s' : NodeState} {peer addr : Bytes} {req : JoinRequest} {evs : List NodeEvent}
    {resp : JoinResponse} {r : Except GoErr Unit} {p : NodeM Unit}
    (hrun : Steps nodeEnv s (handleJoin L peer addr (.ok req)) (evs ++ [⟨.replyJoin resp, r⟩]) s' p)
    (hok : resp.ok = true) {t₀ t : ℤ} (ht : readings evs = [t₀, t]) {inv : Invite} {g : Group}
    (hinv : req.invite = some inv) (hgroup : s.group L inv.groupID = some g)
    (hgid : inv.groupID = g.id)
    (hkey : g.isAdminNode = true → L.ed25519.pub g.adminPriv = g.adminPub)
    (hadmin : L.ed25519.verify g.adminPub (inv.signedBytes L) (sliceBytes inv.signature) = true)
    (htext : inv.toPayload.validText = true) (hnick : validUTF8 req.nickname = true)
    (hpeer : validUTF8 peer = true) (haddr : validUTF8 addr = true) :
    (∃ m, s'.member L g.id peer = some m ∧
      (∀ evs resp r s'' p, Steps nodeEnv s' (handleMembers L (.ok ⟨g.id⟩))
        (evs ++ [⟨.replyMembers resp, r⟩]) s'' p → resp.error = [] → resp.groupID = g.id →
          m ∈ resp.members) ∧
      ∀ g' : Group, g'.id = g.id → g'.adminPub = g.adminPub →
        verifyMembership L g' m.overJSON = some true) ↔
    (g.isAdminNode = false ∨ t % 1000000000 = 0) := by
  obtain ⟨inv', g₁, t₁, t', sig, ht', hj⟩ := handleJoin_ok hrun hok
  obtain rfl : inv = inv' := Option.some.inj (hinv.symm.trans hj.invite_eq)
  obtain rfl : g = g₁ := Option.some.inj (hgroup.symm.trans hj.group_eq)
  obtain ⟨rfl, rfl⟩ : t₀ = t₁ ∧ t = t' := by simpa [ht] using ht'
  set m := joinedMember L g inv req peer addr t sig with hm
  have hvalid : m.validText = true := validText_joinedMember hnick hpeer haddr
  have hmember : s'.member L g.id peer = some m.norm := by
    rw [hj.state_eq]
    exact NodeState.member_putKey hC s g.id m hvalid
  have hjson : m.norm.overJSON = m.norm := Member.overJSON_of_valid hvalid
  have hserved : ∀ evs resp r s'' p, Steps nodeEnv s' (handleMembers L (.ok ⟨g.id⟩))
      (evs ++ [⟨.replyMembers resp, r⟩]) s'' p → resp.error = [] → resp.groupID = g.id →
        m.norm ∈ resp.members := by
    intro evs resp r s'' p hsteps herr hid
    obtain ⟨v, hguard, -⟩ := wp_traced_last (wp_handleMembers s' g.id) hsteps
    rw [hguard resp rfl herr hid]
    exact member_mem_scan hmember
  have hrest : (∃ m, s'.member L g.id peer = some m ∧ (∀ evs resp r s'' p,
        Steps nodeEnv s' (handleMembers L (.ok ⟨g.id⟩)) (evs ++ [⟨.replyMembers resp, r⟩]) s'' p →
          resp.error = [] → resp.groupID = g.id → m ∈ resp.members) ∧
      ∀ g' : Group, g'.id = g.id → g'.adminPub = g.adminPub →
        verifyMembership L g' m.overJSON = some true) ↔
      ∀ g' : Group, g'.id = g.id → g'.adminPub = g.adminPub →
        verifyMembership L g' m.norm = some true := by
    constructor
    · rintro ⟨m', hm', -, hver⟩
      obtain rfl := Option.some.inj (hmember.symm.trans hm')
      rwa [hjson] at hver
    · intro hver
      exact ⟨m.norm, hmember, hserved, hjson.symm ▸ hver⟩
  rw [hrest]
  -- The admin's node signs the time of the admission; any other node leaves the invite as the proof.
  cases hnode : g.isAdminNode with
  | false =>
    simp only [true_or, iff_true]
    intro g' hid hpub
    exact verifyMembership_joined_invite hE hC hadmin hj.selfSigned htext hgid hnode
      hj.admission_eq hid hpub
  | true =>
    simp only [Bool.true_eq_false, false_or]
    constructor
    · intro hver
      exact (verifyMembership_joined_admin hE hnode (hkey hnode) hj.admission_eq rfl rfl).mp
        (hver g rfl rfl)
    · intro hfrac g' hid hpub
      exact (verifyMembership_joined_admin hE hnode (hkey hnode) hj.admission_eq hid hpub).mpr hfrac

/-- The admin's node lets in a peer half a second after a full second. The entry that it has stored,
and tells others, does not pass the check of any node that has the group. -/
theorem sampleNode_admission_lost :
    ∃ evs resp r s' p m, Steps nodeEnv sampleNode
      (handleJoin sampleLibs (lit "peer") (lit "/ip4/10.0.0.9/tcp/4001") (.ok (sampleRequest 7)))
      (evs ++ [⟨.replyJoin resp, r⟩]) s' p ∧ resp.ok = true ∧ readings evs = [0, 1500000000] ∧
      s'.member sampleLibs (sampleGroup 7).id (lit "peer") = some m ∧
      verifyMembership sampleLibs (sampleGroup 7) m.overJSON = some false := by
  obtain ⟨evs, resp, r, s', p, hsteps, hok, ht⟩ := steps_sampleNode 7 1500000000
  obtain ⟨inv, g, t₀, t, sig, ht', hj⟩ := handleJoin_ok hsteps hok
  obtain rfl : g = sampleGroup 7 := by
    have hgroup := hj.group_eq
    rw [← Option.some.inj hj.invite_eq] at hgroup
    exact Option.some.inj (hgroup.symm.trans group_sampleNode)
  obtain ⟨rfl, rfl⟩ : 0 = t₀ ∧ 1500000000 = t := by simpa [ht] using ht'
  set m := joinedMember sampleLibs (sampleGroup 7) inv (sampleRequest 7) (lit "peer")
    (lit "/ip4/10.0.0.9/tcp/4001") 1500000000 sig with hm
  have hvalid : m.validText = true :=
    validText_joinedMember (by decide) (by decide) (by decide)
  refine ⟨evs, resp, r, s', p, m.norm, hsteps, hok, ht, ?_, ?_⟩
  · rw [hj.state_eq]
    exact NodeState.member_putKey sampleCbor_lawful _ _ m hvalid
  · rw [Member.overJSON_of_valid (show m.norm.validText = true from hvalid)]
    refine verifyMembership_eq_false_of_ne (by decide) fun h => ?_
    have := (verifyMembership_joined_admin sampleEd25519_ideal rfl (by decide) hj.admission_eq rfl
      rfl).mp h
    exact absurd this (by decide)

/-- At a full second the entry passes. -/
theorem sampleNode_admission_survives :
    ∃ evs resp r s' p m, Steps nodeEnv sampleNode
      (handleJoin sampleLibs (lit "peer") (lit "/ip4/10.0.0.9/tcp/4001") (.ok (sampleRequest 7)))
      (evs ++ [⟨.replyJoin resp, r⟩]) s' p ∧ resp.ok = true ∧ readings evs = [0, 2000000000] ∧
      s'.member sampleLibs (sampleGroup 7).id (lit "peer") = some m ∧
      verifyMembership sampleLibs (sampleGroup 7) m.overJSON = some true := by
  obtain ⟨evs, resp, r, s', p, hsteps, hok, ht⟩ := steps_sampleNode 7 2000000000
  have hsurvives := (admission_survives_iff sampleEd25519_ideal sampleCbor_lawful hsteps hok ht
    (show (sampleRequest 7).invite = some (sampleInvite (sampleGroup 7) 7) from rfl)
    group_sampleNode rfl (fun _ => by decide) (selfSigned_sampleInvite _ 7) (by decide) (by decide)
    (by decide) (by decide)).mpr (.inr (by decide))
  obtain ⟨m, hm, -, hver⟩ := hsurvives
  exact ⟨evs, resp, r, s', p, m, hsteps, hok, ht, hm, hver _ rfl rfl⟩

end FnShare
