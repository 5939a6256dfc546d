import FnShare.Lib.Interleave
import FnShare.Node.Join

/-!
# A daemon that does not panic

The programs of a daemon that handle groups, run concurrently and any number of times: the two handlers of
the join and members protocols, a join through a peer, the sync of members, the creation of a group and the
listing of the groups at start-up. They cut group ids to twelve bytes and check signatures under the keys of
stored groups, and both panic on values that are too short.

`handleMembers` cuts an id straight from the network. `JoinViaPeer` stores an id and a key straight from the
network, which the others cut and use later. If the requests and the accepted responses have an id and a key
of the right length, no run comes to a panic (`daemon_never_panics`).
-/

namespace FnShare

open Prog

/-! ## The programs -/

section Code

variable (L : Libs)

/-- `handleCreateGroup` of the API, from where the name is decoded. -/
def handleCreateGroup (me : JoinIdentity) (self name : Bytes) : NodeM Group := do
  if name = [] then fail (.msg (lit "name is required"))
  else
    let g ← createGroup L name
    saveGroup L g
    let t ← now
    let sig ← ofExcept (admitMember L g self t)
    putMember L g.id
      { peerID := self, nickname := me.nickname, nodePub := me.nodePub, encPub := me.encPub,
        contributedB := me.contributed, joinedAt := t, admittedBySig := sig }
    return g

/-- The listing of the groups in `cmdDaemon`. -/
def printGroups : NodeM Unit := do
  let (groups, _) ← listGroups L
  groups.foldlM (fun _ g => slice12 g.id) ()

end Code

/-- The programs of a daemon that handle groups, where it is asked for members as `Asked` says. -/
inductive DaemonTask (L : Libs) (me : JoinIdentity) (self : Bytes) (Asked : MembersRequest → Prop) :
    NodeM Unit → Prop
  | join (remotePeer remoteAddr : Bytes) (req : Except GoErr JoinRequest) :
      DaemonTask L me self Asked (handleJoin L remotePeer remoteAddr req)
  | members {req : Except GoErr MembersRequest} (hreq : ∀ r, req = .ok r → Asked r) :
      DaemonTask L me self Asked (handleMembers L req)
  | joining (target : Bytes) (inv : Invite) :
      DaemonTask L me self Asked (joinViaPeer L me target inv >>= fun _ => ret ())
  | sync : DaemonTask L me self Asked (syncGroupMembers L self)
  | create (name : Bytes) : DaemonTask L me self Asked (handleCreateGroup L me self name >>= fun _ => ret ())
  | listing : DaemonTask L me self Asked (printGroups L)

/-- The responses to join requests are as `Answered` says. -/
def JoinsAnswered (Answered : JoinResponse → Prop) : (o : NodeOp) → o.Ans → Prop
  | .sendJoin _ _, r => ∀ resp, r = .ok resp → Answered resp
  | _, _ => True

/-- A daemon that is asked for members as `Asked` says, and whose join requests are answered as `Answered`
says. -/
def daemon (L : Libs) (me : JoinIdentity) (self : Bytes) (Asked : MembersRequest → Prop)
    (Answered : JoinResponse → Prop) : System NodeSig NodeState Unit GoErr Unit where
  exec _ s o r s' := s.step o r s' ∧ JoinsAnswered Answered o r
  start _ p := DaemonTask L me self Asked p
  drift _ _ := False

/-- A group id that is asked for is empty or long enough to be cut. -/
def LongAsked (req : MembersRequest) : Prop := req.groupID = [] ∨ 12 ≤ req.groupID.length

/-- A response that is accepted has a group id that is long enough to be cut, and a key of the right
length. -/
def LongAnswered (resp : JoinResponse) : Prop :=
  resp.ok = true → 12 ≤ resp.groupID.length ∧ resp.groupAdmin.length = publicKeySize

/-! ## The groups that are stored -/

/-- A group whose id can be cut and whose key can be used. -/
def Group.Usable (g : Group) : Prop := 12 ≤ g.id.length ∧ g.adminPub.length = publicKeySize

/-- All groups of a node are usable. -/
def AllUsable (L : Libs) (s : NodeState) : Prop :=
  ∀ key raw g, lit "group/" <+: key → s.store.get key = some raw → L.cbor.group.unmarshal raw = .ok g →
    g.Usable

/-- An operation that is no panic, and stores nothing as a group but one that is usable. -/
def Careful (L : Libs) : NodeOp → Prop
  | .panic => False
  | .storePut key value => lit "group/" <+: key → ∃ g : Group, g.Usable ∧ value = L.cbor.group.marshal g
  | _ => True

section Daemon

variable {L : Libs} {me : JoinIdentity} {self : Bytes} {s s' : NodeState}

/-- What is careful keeps the groups usable. -/
theorem Careful.keeps (hC : L.cbor.Lawful) {o : NodeOp} (ho : Careful L o) (hI : AllUsable L s)
    {r : o.Ans} (hs : s.step o r s') : AllUsable L s' := by
  rcases NodeState.step_cases hs with rfl | ⟨key, value, he, rfl⟩ | ⟨_, _, -, -, rfl⟩ | ⟨_, _, -, rfl⟩ |
    ⟨_, -, rfl⟩
  · exact hI
  · intro key' raw g hpre hget hdec
    by_cases hkey : key' = key
    · -- What is stored as a group decodes to it, or not at all.
      subst hkey
      have ho' : Careful L (.storePut key' value) := by
        rw [show o = .storePut key' value from congrArg Event.op he] at ho
        exact ho
      obtain ⟨g', hg', rfl⟩ := ho' hpre
      obtain rfl := Option.some.inj ((SortedMap.get_put_self _ _ _).symm.trans hget)
      rw [hC.group.eq_norm hdec]
      exact hg'
    · exact hI key' raw g hpre ((SortedMap.get_put_ne _ hkey _).symm.trans hget) hdec
  · exact hI
  · exact hI
  · exact hI

/-- The environment of a program of the daemon: the groups are usable, and it has to keep them so. -/
abbrev carefulEnv (L : Libs) (me : JoinIdentity) (self : Bytes) : Env NodeSig NodeState :=
  (daemon L me self LongAsked LongAnswered).inside (AllUsable L) (Careful L) ()

/-- Careful operations are allowed. -/
theorem Careful.guard (hC : L.cbor.Lawful) {o : NodeOp} (ho : Careful L o) (s : NodeState) :
    (carefulEnv L me self).guard s o :=
  ⟨ho, fun _ _ _ hI hs => ho.keeps hC hI hs.1⟩

/-- A program that is careful whatever it is answered. -/
theorem wp_of_careful (hC : L.cbor.Lawful) {p : NodeM Unit} (hp : p.Only (Careful L)) (s : NodeState) :
    wp (carefulEnv L me self) p (fun _ _ => True) s :=
  hp.wp_keeps (fun s _ _ ho => ho.guard hC s) (fun _ _ _ _ _ _ _ => trivial) trivial

/-- A group that is loaded is usable. -/
theorem wp_loadByID_usable (hC : L.cbor.Lawful) (gid : Bytes) (s : NodeState) :
    wp (carefulEnv L me self) (loadByID L gid) (onOk fun g _ => g.Usable) s := by
  unfold loadByID storeGet
  rw [wp_bind, wp_attempt]
  refine ⟨Careful.guard hC (o := .storeGet (groupKey gid)) trivial s, ?_⟩
  rintro r s' ⟨v, hI, ⟨-, hr⟩, -⟩
  cases r with
  | error e =>
    simp only [bind_eq, ret_bind, ofExcept_error, wp_fail, andThen_ok]
    split_ifs <;> trivial
  | ok raw =>
    simp only [bind_eq, ret_bind, ofExcept_ok, wp_ret, andThen_ok, wp_ofExcept]
    have hget : v.store.get (groupKey gid) = some raw := NodeState.get_of_step ⟨rfl, hr⟩
    cases hdec : L.cbor.group.unmarshal raw with
    | error e => trivial
    | ok g => exact hI _ _ g (List.prefix_append _ _) hget hdec

/-- The groups that are listed are usable. -/
theorem wp_listGroups_usable (hC : L.cbor.Lawful) (s : NodeState) :
    wp (carefulEnv L me self) (listGroups L) (returns fun res _ => ∀ g ∈ res.1, g.Usable) s := by
  refine ⟨Careful.guard hC (o := .storeIterate (lit "group/")) trivial s, ?_⟩
  rintro ⟨pairs, err⟩ s' ⟨v, hI, ⟨-, hr⟩, -⟩ g hg
  obtain ⟨⟨key, raw⟩, hmem, hdec⟩ := mem_decodeValues.mp hg
  have hscan : (key, raw) ∈ v.scan (lit "group/") := by
    rcases hr with hr | ⟨l, e, hl, hr⟩
    · rw [(Prod.mk.inj hr).1] at hmem
      exact hmem
    · rw [(Prod.mk.inj hr).1] at hmem
      exact hl.subset hmem
  obtain ⟨hget, hpre⟩ := NodeState.mem_scan.mp hscan
  exact hI key raw g hpre hget hdec

/-! ## The programs are careful -/

/-- A long text is sliced without a panic. -/
theorem only_slice12_long {A : NodeOp → Prop} {b : Bytes} (h : 12 ≤ b.length) : (slice12 b).Only A := by
  rw [slice12_of_le h]
  trivial

/-- The keys of members are not among those of groups. -/
theorem not_prefix_memberKey (gid peer : Bytes) : ¬ lit "group/" <+: memberKey gid peer := by
  unfold memberKey memberPrefix
  rw [List.append_assoc, List.append_assoc]
  exact not_prefix_append 0 (by decide) _

/-- Storing a member. -/
theorem careful_putMember (gid : Bytes) (m : Member) : (putMember L gid m).Only (Careful L) :=
  ⟨fun hpre => absurd hpre (not_prefix_memberKey _ _), fun r => only_ofExcept r⟩

/-- Storing a usable group. -/
theorem careful_saveGroup {g : Group} (hg : g.Usable) : (saveGroup L g).Only (Careful L) :=
  ⟨fun _ => ⟨g, hg, rfl⟩, fun r => only_ofExcept r⟩

/-- Listing the members. -/
theorem careful_listMembers (gid : Bytes) : (listMembers L gid).Only (Careful L) :=
  ⟨trivial, fun _ => trivial⟩

/-- Answering with an error. -/
theorem careful_writeJoinErr (e : GoErr) : (writeJoinErr e).Only (Careful L) :=
  ⟨trivial, fun _ => trivial⟩

/-- Answering with members. -/
theorem careful_replyMembers (resp : MembersResponse) : (replyMembers resp).Only (Careful L) :=
  ⟨trivial, fun _ => trivial⟩

/-- Loading a group. -/
theorem careful_loadByID (gid : Bytes) : (loadByID L gid).Only (Careful L) := by
  refine only_bind (only_attempt ⟨trivial, fun r => only_ofExcept r⟩) fun r => ?_
  split
  · split_ifs <;> trivial
  · exact only_ofExcept _

/-- Checking an invite. -/
theorem careful_verify {inv : Invite} : (inv.verify L).Only (Careful L) := by
  unfold Invite.verify
  split
  · trivial
  · refine ⟨trivial, fun t => ?_⟩
    simp only [bind_eq, ret_bind]
    split_ifs <;> trivial

/-- `handleJoin` cuts the id of the group that it found. -/
theorem careful_admitPeer (remotePeer remoteAddr : Bytes) (req : JoinRequest) (inv : Invite) {g : Group}
    (hg : g.Usable) : (admitPeer L remotePeer remoteAddr req inv g).Only (Careful L) := by
  refine ⟨trivial, fun t => ?_⟩
  simp only [bind_eq, ret_bind]
  split
  · exact careful_writeJoinErr _
  · refine only_bind (only_attempt (careful_putMember _ _)) fun r => ?_
    split
    · exact careful_writeJoinErr _
    · refine only_bind (careful_listMembers _) fun res => ⟨trivial, fun r => ?_⟩
      simp only [bind_eq, ret_bind]
      split
      · trivial
      · exact only_slice12_long hg.1

/-- `handleMembers` cuts the id that it is asked for. -/
theorem careful_handleMembers {req : Except GoErr MembersRequest} (hreq : ∀ r, req = .ok r → LongAsked r) :
    (handleMembers L req).Only (Careful L) := by
  unfold handleMembers
  split
  · exact careful_replyMembers _
  · rename_i req
    split_ifs with hempty
    · exact careful_replyMembers _
    · have hlong : 12 ≤ req.groupID.length := (hreq req rfl).resolve_left hempty
      refine only_bind (only_attempt (careful_loadByID _)) fun r => ?_
      split
      · exact only_bind (only_slice12_long hlong) fun _ => careful_replyMembers _
      · refine only_bind (careful_listMembers _) fun res => ?_
        split <;> exact careful_replyMembers _

/-- A join stores the id and the key that the response names. -/
theorem careful_installResponse (inv : Invite) {resp : JoinResponse}
    (hlong : 12 ≤ resp.groupID.length ∧ resp.groupAdmin.length = publicKeySize) :
    (installResponse L inv resp).Only (Careful L) := by
  refine (only_installResponse inv resp).mono fun o ho => ?_
  cases o with
  | storePut key value =>
    intro hpre
    rcases ho with ⟨rfl, rfl⟩ | ⟨mem, -, rfl, -⟩
    · exact ⟨replica inv resp, hlong, rfl⟩
    · exact absurd hpre (not_prefix_memberKey _ _)
  | _ => exact ho.elim

/-- Joining stores only a usable group. -/
theorem wp_joinViaPeer_careful (hC : L.cbor.Lawful) (target : Bytes) (inv : Invite) (s : NodeState) :
    wp (carefulEnv L me self) (joinViaPeer L me target inv >>= fun _ => ret ()) (fun _ _ => True) s := by
  rw [joinViaPeer_eq]
  refine ⟨Careful.guard hC (o := .sendJoin target (joinRequest me inv)) trivial s, ?_⟩
  rintro ans s' ⟨v, hI, -, hans⟩
  have honly : (takeAnswer L inv ans).Only (Careful L) := by
    rcases takeAnswer_cases L inv ans with ⟨e, he, -⟩ | ⟨resp, rfl, hok, he⟩
    · rw [he]
      trivial
    · rw [he]
      exact careful_installResponse inv (hans resp rfl hok)
  exact wp_of_careful hC (only_bind honly fun _ => by trivial) s'

/-- Under a key of the right length, a membership is checked without a panic. -/
theorem exists_verifyMembership {g : Group} (hg : g.Usable) (m : Member) :
    ∃ b, verifyMembership L g m = some b := by
  by_cases h : verifyMembership L g m = some true
  · exact ⟨true, h⟩
  · exact ⟨false, verifyMembership_eq_false_of_ne hg.2 h⟩

/-- One entry is checked under the key of the group, whose id is cut for the log. -/
theorem careful_syncMember {g : Group} (hg : g.Usable) (st : List Bytes × ℕ) (m : Member) :
    (syncMember L self g st m).Only (Careful L) := by
  have hcut : (slice12 g.id).Only (Careful L) := only_slice12_long hg.1
  obtain ⟨b, hb⟩ := exists_verifyMembership (L := L) hg m
  unfold syncMember
  rw [hb, orPanic_some]
  split_ifs
  · trivial
  · simp only [ret_bind]
    split_ifs
    · exact only_bind hcut fun _ => by trivial
    · refine only_bind (only_attempt (careful_putMember _ _)) fun r => ?_
      split <;> exact only_bind hcut fun _ => by trivial

/-- Asking for members. -/
theorem careful_fetchMembersFrom (target gid : Bytes) :
    (fetchMembersFrom target gid).Only (Careful L) := by
  refine ⟨trivial, fun r => ?_⟩
  simp only [bind_eq, ret_bind]
  refine only_bind (only_ofExcept r) fun resp => ?_
  split_ifs <;> trivial

/-- The sync of a usable group. -/
theorem careful_syncGroup (connected : List Bytes) {g : Group} (hg : g.Usable) :
    (syncGroup L self connected g).Only (Careful L) := by
  refine only_bind (careful_listMembers _) fun res => only_bind ?_ fun st => ?_
  · refine only_foldlM (fun st pid _ => ?_) _
    refine only_bind (only_attempt ?_) fun r => ?_
    · exact careful_fetchMembersFrom pid g.id
    · split
      · trivial
      · exact only_foldlM (fun st m _ => careful_syncMember hg st m) st
  · obtain ⟨_, added⟩ := st
    dsimp only
    split_ifs
    · exact only_slice12_long hg.1
    · trivial

/-- The sync of members works on the groups that are stored. -/
theorem wp_syncGroupMembers_careful (hC : L.cbor.Lawful) (s : NodeState) :
    wp (carefulEnv L me self) (syncGroupMembers L self) (fun _ _ => True) s := by
  refine wp_bind_of (wp_listGroups_usable hC s) (fun res s' husable => wp_of_careful hC ?_ s') ?_
  · split
    · trivial
    · refine ⟨trivial, fun connected => ?_⟩
      simp only [bind_eq, ret_bind]
      split_ifs
      · trivial
      · exact only_foldlM (fun _ g hg => careful_syncGroup connected (husable g hg)) _
  · intro e s' _
    trivial

/-- The listing of the groups cuts the ids of those that are stored. -/
theorem wp_printGroups_careful (hC : L.cbor.Lawful) (s : NodeState) :
    wp (carefulEnv L me self) (printGroups L) (fun _ _ => True) s := by
  refine wp_bind_of (wp_listGroups_usable hC s) (fun res s' husable => wp_of_careful hC ?_ s') ?_
  · exact only_foldlM (fun _ g hg => only_slice12_long (husable g hg).1) _
  · intro e s' _
    trivial

/-- A new group is usable: its id is the key in hex. -/
theorem newGroup_usable (hE : L.ed25519.Ideal) (name sk : Bytes) {seed : Bytes}
    (hseed : seed.length = seedSize) (t : ℤ) : (newGroup L name seed sk t).Usable := by
  have hpub : (L.ed25519.pub (L.ed25519.newKeyFromSeed seed)).length = publicKeySize :=
    hE.length_pub _ (hE.length_newKeyFromSeed _ hseed)
  refine ⟨?_, hpub⟩
  simp only [newGroup, length_hexEncode, hpub]
  decide

/-- A new group is usable. -/
theorem careful_handleCreateGroup (hE : L.ed25519.Ideal) (name : Bytes) :
    (handleCreateGroup L me self name).Only (Careful L) := by
  unfold handleCreateGroup
  split_ifs
  · trivial
  · refine ⟨trivial, fun r => ?_⟩
    cases r with
    | error e => trivial
    | ok seed =>
      refine ⟨trivial, fun r => ?_⟩
      cases r with
      | error e => trivial
      | ok sk =>
        refine ⟨trivial, fun t => ?_⟩
        simp only [bind_eq, pure_eq, ret_bind]
        refine only_bind (careful_saveGroup (newGroup_usable hE name sk.1 seed.2 t)) fun _ => ?_
        refine ⟨trivial, fun t' => ?_⟩
        simp only [bind_eq, ret_bind]
        refine only_bind (only_ofExcept _) fun sig => ?_
        exact only_bind (careful_putMember _ _) fun _ => by trivial

/-- `handleJoin` loads the group, and cuts its id. -/
theorem wp_handleJoin_careful (hC : L.cbor.Lawful) (remotePeer remoteAddr : Bytes)
    (req : Except GoErr JoinRequest) (s : NodeState) :
    wp (carefulEnv L me self) (handleJoin L remotePeer remoteAddr req) (fun _ _ => True) s := by
  unfold handleJoin
  split
  · exact wp_of_careful hC (careful_writeJoinErr _) s
  · split
    · exact wp_of_careful hC (careful_writeJoinErr _) s
    · rename_i req _ inv _
      rw [wp_bind, wp_attempt]
      refine wp_mono (wp_of_careful hC careful_verify s) fun r s' _ => ?_
      rw [andThen_ok]
      split
      · exact wp_of_careful hC (careful_writeJoinErr _) s'
      · rw [wp_bind, wp_attempt]
        refine wp_mono (wp_loadByID_usable hC _ s') fun r s'' husable => ?_
        rw [andThen_ok]
        split
        · exact wp_of_careful hC (careful_writeJoinErr _) s''
        · exact wp_of_careful hC (careful_admitPeer _ _ _ _ husable) s''

/-- Every program of a daemon is careful, where the groups are usable and the messages long enough. -/
theorem DaemonTask.careful (hC : L.cbor.Lawful) (hE : L.ed25519.Ideal) {p : NodeM Unit}
    (hp : DaemonTask L me self LongAsked p) (s : NodeState) :
    wp (carefulEnv L me self) p (fun _ _ => True) s := by
  cases hp with
  | join remotePeer remoteAddr req => exact wp_handleJoin_careful hC remotePeer remoteAddr req s
  | members hreq => exact wp_of_careful hC (careful_handleMembers hreq) s
  | joining target inv => exact wp_joinViaPeer_careful hC target inv s
  | sync => exact wp_syncGroupMembers_careful hC s
  | create name =>
    exact wp_of_careful hC (only_bind (careful_handleCreateGroup hE name) fun _ => by trivial) s
  | listing => exact wp_printGroups_careful hC s

/-- In every run of a daemon whose messages are long enough, no program comes to a panic, and every group
that is stored has an id that can be cut and a key of the right length. -/
theorem daemon_never_panics (hC : L.cbor.Lawful) (hE : L.ed25519.Ideal)
    {ps : List (Unit × NodeM Unit)}
    (h : (daemon L me self LongAsked LongAnswered).Reach .fresh s ps) :
    (∀ p ∈ ps, ∀ k, p.2 ≠ .op (S := NodeSig) .panic k) ∧
      ∀ gid g, s.group L gid = some g → 12 ≤ g.id.length ∧ g.adminPub.length = publicKeySize := by
  have hfresh : AllUsable L .fresh := by
    intro key raw g _ hget _
    exact absurd (hget.symm.trans (SortedMap.get_empty key)) (by simp)
  have hinv := h.invariant (A := Careful L) hfresh (fun _ _ _ hd => False.elim hd)
    (fun _ p s hp => DaemonTask.careful hC hE hp s)
  refine ⟨?_, ?_⟩
  · intro p hp k heq
    have hwp := hinv.2 p hp
    rw [heq] at hwp
    exact hwp.1.1
  · intro gid g hg
    obtain ⟨raw, hget, hdec⟩ := Option.bind_eq_some_iff.mp hg
    exact hinv.1 _ raw g (List.prefix_append _ _) hget (toOption_eq_some.mp hdec)

end Daemon

/-! ## A daemon that panics -/

section Reached

variable {Asked : MembersRequest → Prop} {Answered : JoinResponse → Prop} {s : NodeState}
  {ps : List (Unit × NodeM Unit)}

/-- What a daemon reaches by one of its programs. -/
theorem DaemonTask.reach {L : Libs} {me : JoinIdentity} {self : Bytes} {ans : Except GoErr JoinResponse}
    {s' : NodeState} {evs : List NodeEvent} {p p' : NodeM Unit} (hp : DaemonTask L me self Asked p)
    (hreach : (daemon L me self Asked Answered).Reach .fresh s ps)
    (hs : Steps (joinEnv ans) s p evs s' p') (hans : ∀ resp, ans = .ok resp → Answered resp) :
    (daemon L me self Asked Answered).Reach .fresh s' (((), p') :: ps) := by
  refine System.Reach.steps id ?_ (System.Reach.start hreach hp) hs
  rintro v o r v' ⟨hstep, hr⟩
  refine ⟨hstep, ?_⟩
  cases o with
  | sendJoin target req =>
    intro resp heq
    exact hans resp (hr.symm.trans heq)
  | _ => trivial

variable (Asked Answered) in
/-- What a daemon reaches by a join. -/
theorem reach_join
    (hreach : (daemon sampleLibs sampleIdentity (lit "self") Asked Answered).Reach .fresh s ps)
    (resp : JoinResponse) (hok : resp.ok = true) (hans : Answered resp) :
    (daemon sampleLibs sampleIdentity (lit "self") Asked Answered).Reach .fresh
      (s.putKey (groupKey resp.groupID)
        (sampleLibs.cbor.group.marshal (replica (sampleInvite (sampleGroup 8) 8) resp)))
      (((), ret ()) :: ps) := by
  obtain ⟨⟨evs, hjoin⟩, -⟩ := steps_join sampleLibs sampleIdentity (lit "alice")
    (sampleInvite (sampleGroup 8) 8) s hok rfl
  have hserved : DaemonTask sampleLibs sampleIdentity (lit "self") Asked
      (joinViaPeer sampleLibs sampleIdentity (lit "alice") (sampleInvite (sampleGroup 8) 8) >>=
        fun _ => ret ()) := .joining _ _
  exact hserved.reach hreach (hjoin.bind_left _) fun _ h => Except.ok.inj h ▸ hans

end Reached

/-- A daemon that is asked for the members of the group `x` panics. A daemon that joins by a response without
an id and a key stores a group that has neither. -/
theorem sampleDaemon_panics :
    (∃ s ps k, (daemon sampleLibs sampleIdentity (lit "self") (fun _ => True) fun _ => True).Reach .fresh s
        ps ∧ ((), .op (S := NodeSig) .panic k) ∈ ps) ∧
      ∃ s ps g, (daemon sampleLibs sampleIdentity (lit "self") (fun _ => True) fun _ => True).Reach .fresh s
        ps ∧ s.group sampleLibs [] = some g ∧ g.id = [] ∧ g.adminPub = [] := by
  constructor
  · -- The group is not found, and the id is cut for the message that says so.
    have hserved : DaemonTask sampleLibs sampleIdentity (lit "self") (fun _ => True)
        (handleMembers sampleLibs (.ok ⟨lit "x"⟩)) := .members fun _ _ => trivial
    have hsteps : ∃ k, Steps (joinEnv (.error .eof)) .fresh (handleMembers sampleLibs (.ok ⟨lit "x"⟩))
        [⟨.storeGet (groupKey (lit "x")), .error errStoreNotFound⟩] .fresh
        (.op (S := NodeSig) .panic k) :=
      ⟨_, .op ⟨⟨rfl, .inl rfl⟩, trivial⟩ (.refl _ _)⟩
    obtain ⟨k, hsteps⟩ := hsteps
    exact ⟨_, _, k, hserved.reach .init hsteps fun _ _ => trivial, List.mem_cons_self⟩
  · have hreach := reach_join (fun _ => True) (fun _ => True) .init { ok := true } rfl trivial
    exact ⟨_, _, _, hreach, NodeState.group_putKey sampleCbor_lawful .fresh
      (replica (sampleInvite (sampleGroup 8) 8) { ok := true }) (by decide), rfl, rfl⟩

/-- A daemon that joins by a response with an id and a key does not panic. -/
theorem sampleDaemon_joins :
    ∃ s ps, (daemon sampleLibs sampleIdentity (lit "self") LongAsked LongAnswered).Reach .fresh s ps ∧
      s.group sampleLibs (sampleGroup 8).id ≠ none ∧
      (∀ p ∈ ps, ∀ k, p.2 ≠ .op (S := NodeSig) .panic k) ∧
      ∀ gid g, s.group sampleLibs gid = some g →
        12 ≤ g.id.length ∧ g.adminPub.length = publicKeySize := by
  have hlong : LongAnswered (sampleResponse 8 (sampleGroup 8).adminPub) := fun _ => by decide
  have hreach := reach_join LongAsked LongAnswered .init (sampleResponse 8 (sampleGroup 8).adminPub) rfl hlong
  have hgroup := NodeState.group_putKey (L := sampleLibs) sampleCbor_lawful .fresh
    (replica (sampleInvite (sampleGroup 8) 8) (sampleResponse 8 (sampleGroup 8).adminPub)) (by decide)
  refine ⟨_, _, hreach, ?_, daemon_never_panics sampleCbor_lawful sampleEd25519_ideal hreach⟩
  intro hnone
  exact absurd (hnone.symm.trans hgroup) (by simp)

end FnShare
