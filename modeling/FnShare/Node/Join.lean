import FnShare.Node.Admission

/-!
# What a join writes

`JoinViaPeer` writes the record of the group that the response names, with the key that the response
names, and the members under that name; the invite that was checked has a say only in the shared key. So
what a join does to a node depends on the peer that it contacts. The record that is installed is that of the
invite, and nothing of other groups changes, exactly if the response names the invite's group and key and no
entry of a member lands in the table of another group (`joinViaPeer_own_iff`).
-/

namespace FnShare

open Prog

/-! ## The operations of a join -/

/-- The record that `JoinViaPeer` makes of a response. -/
def replica (inv : Invite) (resp : JoinResponse) : Group :=
  { id := resp.groupID, name := resp.groupName, adminPub := resp.groupAdmin,
    sharedKey := if (sliceBytes inv.groupSharedKey).length = 0 then resp.groupSharedKey
      else sliceBytes inv.groupSharedKey,
    isAdminNode := false }

/-- A join writes the group's record and the entries of the members that the response lists. -/
def Installs (L : Libs) (inv : Invite) (resp : JoinResponse) : NodeOp → Prop
  | .storePut key value =>
    (key = groupKey resp.groupID ∧ value = L.cbor.group.marshal (replica inv resp)) ∨
      ∃ mem ∈ resp.members, key = memberKey resp.groupID mem.peerID ∧
        value = L.cbor.member.marshal mem
  | _ => False

/-- The join request is answered as given. -/
def JoinAnswered (ans : Except GoErr JoinResponse) : (o : NodeOp) → o.Ans → Prop
  | .sendJoin _ _, r => r = ans
  | _, _ => True

/-- A node whose join request is answered as given. -/
def joinEnv (ans : Except GoErr JoinResponse) : Env NodeSig NodeState where
  step s o r s' := s.step o r s' ∧ JoinAnswered ans o r
  guard _ _ := True

/-- `JoinViaPeer` from where a response is accepted. -/
def installResponse (L : Libs) (inv : Invite) (resp : JoinResponse) : NodeM JoinResponse := do
  mapErr (.wrap (lit "persist group: ")) (saveGroup L (replica inv resp))
  resp.members.foldlM (fun _ m => installMember L resp.groupID m) ()
  return resp

/-- `JoinViaPeer` from where the request is answered. -/
def takeAnswer (L : Libs) (inv : Invite) : Except GoErr JoinResponse → NodeM JoinResponse
  | .error .eof => fail (.msg (lit "remote refused: "))
  | .error e => fail e
  | .ok resp =>
    if resp.ok then installResponse L inv resp
    else fail (.msg (lit "remote refused: " ++ resp.error))

/-- The request of a join. -/
def joinRequest (me : JoinIdentity) (inv : Invite) : JoinRequest :=
  { invite := some inv, nickname := me.nickname, contributed := me.contributed,
    nodePub := me.nodePub, encPub := me.encPub }

section Join

variable {L : Libs} {me : JoinIdentity} {target : Bytes} {inv : Invite} {resp : JoinResponse}
  {ans : Except GoErr JoinResponse} {s s' : NodeState} {evs : List NodeEvent} {p' : NodeM JoinResponse}

variable (L me target inv) in
/-- `JoinViaPeer` sends the request and takes the answer. -/
theorem joinViaPeer_eq :
    joinViaPeer L me target inv =
      .op (S := NodeSig) (.sendJoin target (joinRequest me inv)) (takeAnswer L inv) := by
  unfold joinViaPeer
  refine congrArg _ (funext fun r => ?_)
  rcases r with e | resp
  · cases e <;> simp [takeAnswer]
  · simp only [bind_eq, ret_bind, takeAnswer]
    cases resp.ok <;> rfl

/-- A join writes nothing else. -/
theorem only_installResponse (inv : Invite) (resp : JoinResponse) :
    (installResponse L inv resp).Only (Installs L inv resp) := by
  unfold installResponse
  refine only_bind (only_mapErr ⟨.inl ⟨rfl, rfl⟩, fun r => only_ofExcept _⟩) fun _ =>
    only_bind (only_foldlM (fun _ mem hmem => ?_) ()) fun _ => trivial
  refine only_bind (only_attempt ⟨.inr ⟨mem, hmem, rfl, rfl⟩, fun r => only_ofExcept _⟩) fun r => ?_
  cases r <;> trivial

/-- An execution of a join: nothing has happened yet, or the answer is taken. -/
theorem steps_joinViaPeer (h : Steps (joinEnv ans) s (joinViaPeer L me target inv) evs s' p') :
    (evs = [] ∧ s' = s ∧ p' = joinViaPeer L me target inv) ∨
      ∃ evs', evs = ⟨.sendJoin target (joinRequest me inv), ans⟩ :: evs' ∧
        Steps (joinEnv ans) s (takeAnswer L inv ans) evs' s' p' := by
  rw [joinViaPeer_eq] at h ⊢
  cases h with
  | refl => exact .inl ⟨rfl, rfl, rfl⟩
  | op hs h =>
    obtain ⟨rfl, rfl⟩ : _ = s ∧ _ = ans := hs
    exact .inr ⟨_, rfl, h⟩

/-- An answer is refused, or installed. -/
theorem takeAnswer_cases (L : Libs) (inv : Invite) (ans : Except GoErr JoinResponse) :
    (∃ e, takeAnswer L inv ans = fail e ∧ ∀ resp, ans = .ok resp → resp.ok = false) ∨
      ∃ resp, ans = .ok resp ∧ resp.ok = true ∧ takeAnswer L inv ans = installResponse L inv resp := by
  rcases ans with e | resp
  · refine .inl ?_
    cases e <;> exact ⟨_, rfl, by simp⟩
  · by_cases hok : resp.ok = true
    · exact .inr ⟨resp, rfl, hok, if_pos hok⟩
    · exact .inl ⟨_, if_neg hok, fun _ h => Except.ok.inj h ▸ by simpa using hok⟩

/-! ## What changes -/

/-- At any point of a join, a key has its old value or one that the join writes. -/
theorem get_of_installs (h : Steps (joinEnv ans) s (installResponse L inv resp) evs s' p') (key : Bytes) :
    s'.store.get key = s.store.get key ∨
      ∃ value, Installs L inv resp (.storePut key value) ∧ s'.store.get key = some value := by
  refine (only_installResponse inv resp).steps_keeps (I := fun v => v.store.get key = s.store.get key ∨
    ∃ value, Installs L inv resp (.storePut key value) ∧ v.store.get key = some value) ?_ h (.inl rfl)
  rintro v o r v' hv ho ⟨hs, -⟩
  cases o with
  | storePut key' value =>
    rcases hs with ⟨-, rfl⟩ | ⟨-, rfl⟩
    · by_cases hkey : key = key'
      · subst hkey
        exact .inr ⟨value, ho, SortedMap.get_put_self _ _ _⟩
      · simp only [NodeState.putKey, SortedMap.get_put_ne _ hkey]
        exact hv
    · exact hv
  | _ => exact ho.elim

/-- The key of a group is not that of a member. -/
theorem groupKey_ne_memberKey (gid gid' peer : Bytes) : groupKey gid ≠ memberKey gid' peer := by
  unfold groupKey memberKey memberPrefix
  rw [List.append_assoc, List.append_assoc]
  exact append_ne_append 0 (by decide) _ _

/-- A group is not stored among the members. -/
theorem not_prefix_groupKey (gid gid' : Bytes) : ¬ memberPrefix gid <+: groupKey gid' := by
  unfold groupKey memberPrefix
  rw [List.append_assoc]
  rintro ⟨t, h⟩
  rw [List.append_assoc] at h
  exact append_ne_append 0 (by decide) _ _ h

/-- Where a join ends, the record of the group has been written, and is there. -/
theorem wp_installResponse (resp : JoinResponse) (s : NodeState) :
    wp ((joinEnv ans).traced fun _ _ _ => True) (installResponse L inv resp)
      (onOk fun _ w =>
        (⟨.storePut (groupKey resp.groupID) (L.cbor.group.marshal (replica inv resp)), .ok ()⟩ : NodeEvent)
          ∈ w.2 ∧
        w.1.store.get (groupKey resp.groupID) = some (L.cbor.group.marshal (replica inv resp)))
      (s, []) := by
  let Installed (w : NodeState × List NodeEvent) : Prop :=
    (⟨.storePut (groupKey resp.groupID) (L.cbor.group.marshal (replica inv resp)), .ok ()⟩ : NodeEvent)
      ∈ w.2 ∧
    w.1.store.get (groupKey resp.groupID) = some (L.cbor.group.marshal (replica inv resp))
  unfold installResponse
  refine wp_bind_onOk (P := fun _ w => Installed w) (wp_mapErr_onOk ?_) ?_
  · refine wp_traced_op.mpr ⟨trivial, ?_⟩
    rintro (e | ⟨⟩) v' ⟨hs, -⟩
    · trivial
    · rcases hs with ⟨-, rfl⟩ | ⟨⟨e, he⟩, -⟩
      · exact ⟨by simp [replica], SortedMap.get_put_self _ _ _⟩
      · exact absurd he (by simp)
  rintro ⟨⟩ w hw
  -- The entries of the members have other keys.
  have honly : (resp.members.foldlM (fun _ m => installMember L resp.groupID m) ()).Only
      fun o => ∃ peer value, o = NodeOp.storePut (memberKey resp.groupID peer) value := by
    refine only_foldlM (fun _ mem hmem => ?_) ()
    refine only_bind (only_attempt ⟨⟨_, _, rfl⟩, fun r => only_ofExcept _⟩) fun r => ?_
    cases r <;> trivial
  refine wp_bind_onOk (P := fun _ w => Installed w) (wp_mono (honly.wp_keeps (I := Installed)
    (fun _ _ _ _ => trivial) ?_ hw) ?_) fun _ _ h => h
  · rintro ⟨v, l⟩ o r ⟨v', l'⟩ ⟨hmem, hget⟩ ⟨peer, value, rfl⟩ ⟨⟨hs, -⟩, hl⟩
    obtain rfl : l' = _ := hl
    refine ⟨List.mem_append_left _ hmem, ?_⟩
    rcases hs with ⟨-, hv⟩ | ⟨-, hv⟩
    · obtain rfl : v' = v.putKey _ _ := hv
      exact (SortedMap.get_put_ne _ (groupKey_ne_memberKey _ _ _) _).trans hget
    · obtain rfl : v' = v := hv
      exact hget
  · rintro (e | a) w' hw'
    · trivial
    · exact hw'

variable (L ans) in
/-- The entries of the members can all fail to be written, but for one. -/
theorem steps_installMembers (gid : Bytes) (mems : List Member) (s : NodeState) :
    (∃ evs, Steps (joinEnv ans) s (mems.foldlM (fun _ m => installMember L gid m) ()) evs s (ret ())) ∧
      ∀ mem ∈ mems, ∃ evs, Steps (joinEnv ans) s (mems.foldlM (fun _ m => installMember L gid m) ()) evs
        (s.putKey (memberKey gid mem.peerID) (L.cbor.member.marshal mem)) (ret ()) := by
  induction mems generalizing s with
  | nil => exact ⟨⟨[], .refl _ _⟩, by simp⟩
  | cons mem mems ih =>
    have hfails : Steps (joinEnv ans) s (installMember L gid mem)
        [⟨.storePut (memberKey gid mem.peerID) (L.cbor.member.marshal mem), .error .eof⟩] s (ret ()) :=
      .op ⟨.inr ⟨⟨_, rfl⟩, rfl⟩, trivial⟩ (.refl _ _)
    have hworks : Steps (joinEnv ans) s (installMember L gid mem)
        [⟨.storePut (memberKey gid mem.peerID) (L.cbor.member.marshal mem), .ok ()⟩]
        (s.putKey (memberKey gid mem.peerID) (L.cbor.member.marshal mem)) (ret ()) :=
      .op ⟨.inl ⟨rfl, rfl⟩, trivial⟩ (.refl _ _)
    rw [List.foldlM_cons]
    obtain ⟨⟨evs, hnone⟩, hone⟩ := ih s
    refine ⟨⟨_, Steps.bind hfails hnone⟩, ?_⟩
    intro mem' hmem'
    rcases List.mem_cons.mp hmem' with rfl | hmem'
    · obtain ⟨evs', hrest⟩ := (ih (s.putKey (memberKey gid mem'.peerID)
        (L.cbor.member.marshal mem'))).1
      exact ⟨_, Steps.bind hworks hrest⟩
    · obtain ⟨evs', hrest⟩ := hone mem' hmem'
      exact ⟨_, Steps.bind hfails hrest⟩

variable (L me target inv s) in
/-- A join whose answer is accepted can succeed, with or without the entry of a member. -/
theorem steps_join (hok : resp.ok = true) (hans : ans = .ok resp) :
    (∃ evs, Steps (joinEnv ans) s (joinViaPeer L me target inv) evs
      (s.putKey (groupKey resp.groupID) (L.cbor.group.marshal (replica inv resp))) (ret resp)) ∧
    ∀ mem ∈ resp.members, ∃ evs, Steps (joinEnv ans) s (joinViaPeer L me target inv) evs
      ((s.putKey (groupKey resp.groupID) (L.cbor.group.marshal (replica inv resp))).putKey
        (memberKey resp.groupID mem.peerID) (L.cbor.member.marshal mem)) (ret resp) := by
  have hsave : Steps (joinEnv ans) s
      (mapErr (.wrap (lit "persist group: ")) (saveGroup L (replica inv resp)) : NodeM Unit)
      [⟨.storePut (groupKey resp.groupID) (L.cbor.group.marshal (replica inv resp)), .ok ()⟩]
      (s.putKey (groupKey resp.groupID) (L.cbor.group.marshal (replica inv resp))) (ret ()) :=
    .op ⟨.inl ⟨rfl, rfl⟩, trivial⟩ (.refl _ _)
  have hjoin : ∀ {evs : List NodeEvent} {s' : NodeState},
      Steps (joinEnv ans) (s.putKey (groupKey resp.groupID) (L.cbor.group.marshal (replica inv resp)))
        (resp.members.foldlM (fun _ m => installMember L resp.groupID m) ()) evs s' (ret ()) →
      ∃ evs', Steps (joinEnv ans) s (joinViaPeer L me target inv) evs' s' (ret resp) := by
    intro evs s' h
    rw [joinViaPeer_eq]
    have htake : takeAnswer L inv ans = installResponse L inv resp := by
      rw [hans]
      exact if_pos hok
    obtain ⟨evs', hinstall⟩ : ∃ evs', Steps (joinEnv ans) s (installResponse L inv resp) evs' s'
      (ret resp) := ⟨_, Steps.bind hsave (Steps.bind h (.refl _ _))⟩
    rw [← htake] at hinstall
    exact ⟨_, .op ⟨rfl, rfl⟩ hinstall⟩
  obtain ⟨⟨evs, hnone⟩, hone⟩ := steps_installMembers L ans resp.groupID resp.members
    (s.putKey (groupKey resp.groupID) (L.cbor.group.marshal (replica inv resp)))
  refine ⟨hjoin hnone, ?_⟩
  intro mem hmem
  obtain ⟨evs', hmember⟩ := hone mem hmem
  exact hjoin hmember

/-! ## The group of the invite -/

/-- The records of groups other than the invite's are as before, and so are the member tables of those that
the node had. -/
def OthersKept (inv : Invite) (s s' : NodeState) : Prop :=
  ∀ gid ≠ inv.groupID, s'.store.get (groupKey gid) = s.store.get (groupKey gid) ∧
    (s.store.get (groupKey gid) ≠ none → ∀ key, memberPrefix gid <+: key →
      s'.store.get key = s.store.get key)

/-- The record of the invite's group was written, and has the invite's id and key. -/
def OwnInstalled (L : Libs) (inv : Invite) (evs : List NodeEvent) (s' : NodeState) : Prop :=
  ∃ raw g, (⟨.storePut (groupKey inv.groupID) raw, .ok ()⟩ : NodeEvent) ∈ evs ∧
    s'.store.get (groupKey inv.groupID) = some raw ∧ L.cbor.group.unmarshal raw = .ok g ∧
    g.id = inv.groupID ∧ g.adminPub = sliceBytes inv.groupAdminPub

/-- The answer, if it is accepted, names the group and the key of the invite, and no entry of a member has a
key in the table of another group that the node has, unless it is there already. -/
def Harmless (L : Libs) (inv : Invite) (s : NodeState) (ans : Except GoErr JoinResponse) : Prop :=
  ∀ resp, ans = .ok resp → resp.ok = true →
    resp.groupID = inv.groupID ∧ resp.groupAdmin = sliceBytes inv.groupAdminPub ∧
    ∀ gid ≠ inv.groupID, s.store.get (groupKey gid) ≠ none → ∀ mem ∈ resp.members,
      memberPrefix gid <+: memberKey resp.groupID mem.peerID →
        s.store.get (memberKey resp.groupID mem.peerID) = some (L.cbor.member.marshal mem)

/-- A key belongs to one group. -/
theorem groupKey_inj {gid gid' : Bytes} (h : groupKey gid = groupKey gid') : gid = gid' :=
  List.append_cancel_left h

/-- A harmless answer changes nothing of other groups. -/
theorem Harmless.othersKept (hans : Harmless L inv s (.ok resp)) (hok : resp.ok = true)
    (h : Steps (joinEnv ans) s (installResponse L inv resp) evs s' p') : OthersKept inv s s' := by
  obtain ⟨hid, -, hmembers⟩ := hans resp rfl hok
  intro gid hgid
  refine ⟨?_, fun hstored key hkey => ?_⟩
  · rcases get_of_installs h (groupKey gid) with hold | ⟨value, ⟨hk, -⟩ | ⟨mem, -, hk, -⟩, -⟩
    · exact hold
    · exact absurd ((groupKey_inj hk).trans hid) hgid
    · exact absurd hk (groupKey_ne_memberKey _ _ _)
  · rcases get_of_installs h key with hold | ⟨value, ⟨rfl, -⟩ | ⟨mem, hmem, rfl, rfl⟩, hnew⟩
    · exact hold
    · exact absurd hkey (not_prefix_groupKey _ _)
    · rw [hnew, hmembers gid hgid hstored mem hmem hkey]

/-- The record of a response is read back. -/
theorem unmarshal_replica (hC : L.cbor.Lawful)
    (h : validUTF8 resp.groupID = true ∧ validUTF8 resp.groupName = true) :
    L.cbor.group.unmarshal (L.cbor.group.marshal (replica inv resp)) = .ok (replica inv resp).norm := by
  refine hC.group.unmarshal_marshal ?_
  simp [Group.validText, replica, h.1, h.2]

/-- What a join writes as the record of a group is that of the response. -/
theorem written_of_join (h : Steps (joinEnv (.ok resp)) s (joinViaPeer L me target inv) evs s' p')
    {gid raw : Bytes} (hmem : (⟨.storePut (groupKey gid) raw, .ok ()⟩ : NodeEvent) ∈ evs) :
    resp.groupID = gid ∧ raw = L.cbor.group.marshal (replica inv resp) := by
  rcases steps_joinViaPeer h with ⟨rfl, -, -⟩ | ⟨evs', rfl, htaken⟩
  · simp at hmem
  replace hmem := (List.mem_cons.mp hmem).resolve_left (by simp)
  rcases takeAnswer_cases L inv (.ok resp) with ⟨e, hfail, -⟩ | ⟨resp', hans, -, hinstall⟩
  · rw [hfail] at htaken
    cases htaken
    simp at hmem
  · obtain rfl := Except.ok.inj hans
    rw [hinstall] at htaken
    rcases (only_installResponse inv resp).of_mem htaken hmem with ⟨hkey, hraw⟩ | ⟨mem, -, hkey, -⟩
    · exact ⟨(groupKey_inj hkey).symm, hraw⟩
    · exact absurd hkey (groupKey_ne_memberKey _ _ _)

/-- Whatever a contacted peer answers: at every point of `JoinViaPeer` nothing of other groups is changed,
and where it succeeds the record of the invite's group was installed with the invite's key, if and only if
the answer is harmless. -/
theorem joinViaPeer_own_iff (hC : L.cbor.Lawful) (me : JoinIdentity) (target : Bytes) (inv : Invite)
    (s : NodeState) (ans : Except GoErr JoinResponse)
    (htext : ∀ resp, ans = .ok resp → validUTF8 resp.groupID = true ∧ validUTF8 resp.groupName = true) :
    (∀ evs s' p', Steps (joinEnv ans) s (joinViaPeer L me target inv) evs s' p' →
        OthersKept inv s s' ∧ ∀ resp, p' = ret resp → OwnInstalled L inv evs s') ↔
      Harmless L inv s ans := by
  constructor
  · rintro h resp rfl hok
    obtain ⟨⟨evs, hjoin⟩, hmember⟩ := steps_join L me target inv s hok rfl
    -- The record that a join writes is the one that counts as installed.
    obtain ⟨-, hinstalled⟩ := h _ _ _ hjoin
    obtain ⟨raw, g, hmem, -, hdec, hgid, hadmin⟩ := hinstalled resp rfl
    obtain ⟨hid, rfl⟩ := written_of_join hjoin hmem
    rw [unmarshal_replica hC (htext resp rfl)] at hdec
    obtain rfl := Except.ok.inj hdec
    refine ⟨hid, hadmin, ?_⟩
    intro gid hne hstored mem hmem' hkey
    obtain ⟨evs', hjoin'⟩ := hmember mem hmem'
    have hkept := ((h _ _ _ hjoin').1 gid hne).2 hstored _ hkey
    rw [← hkept]
    exact SortedMap.get_put_self _ _ _
  · intro hans evs s' p' h
    rcases steps_joinViaPeer h with ⟨rfl, rfl, rfl⟩ | ⟨evs', rfl, htaken⟩
    · refine ⟨fun gid _ => ⟨rfl, fun _ _ _ => rfl⟩, ?_⟩
      intro resp hret
      rw [joinViaPeer_eq] at hret
      exact absurd hret (by simp)
    rcases takeAnswer_cases L inv ans with ⟨e, hfail, -⟩ | ⟨resp, rfl, hok, hinstall⟩
    · rw [hfail] at htaken
      cases htaken
      exact ⟨fun gid _ => ⟨rfl, fun _ _ _ => rfl⟩, fun resp hret => absurd hret (by simp)⟩
    · rw [hinstall] at htaken
      refine ⟨hans.othersKept hok htaken, ?_⟩
      rintro resp' rfl
      obtain ⟨hid, hadmin, -⟩ := hans resp rfl hok
      obtain ⟨hmem, hget⟩ := wp_steps (htaken.traced _ []) (wp_installResponse resp s)
      refine ⟨_, (replica inv resp).norm, ?_, ?_, unmarshal_replica hC (htext resp rfl), hid, hadmin⟩
      · rw [← hid]
        exact List.mem_cons_of_mem _ hmem
      · rw [← hid]
        exact hget

end Join

/-! ## A peer that names another group -/

/-- The response of a peer that names the group of `b` and its own key. -/
def sampleResponse (b : UInt8) (key : Bytes) : JoinResponse :=
  { ok := true, groupID := (sampleGroup b).id, groupName := lit "nas", groupAdmin := key }

/-- What the sample node tells of itself. -/
def sampleIdentity : JoinIdentity := ⟨lit "nick", 0, [], []⟩

/-- A node that administers a group joins another one, by an invite with a valid signature. The peer that it
contacts names the node's own group and another key, and the node loses the group's private key and its role
as the admin. -/
theorem sampleNode_loses_group :
    (sampleInvite (sampleGroup 8) 8).selfSigned sampleLibs = true ∧
    (sampleInvite (sampleGroup 8) 8).groupID ≠ (sampleGroup 7).id ∧
    sampleNode.group sampleLibs (sampleGroup 7).id = some (sampleGroup 7) ∧
    ∃ evs s' g, Steps (joinEnv (.ok (sampleResponse 7 (List.replicate publicKeySize 9)))) sampleNode
        (joinViaPeer sampleLibs sampleIdentity (lit "mallory") (sampleInvite (sampleGroup 8) 8)) evs s'
        (ret (sampleResponse 7 (List.replicate publicKeySize 9))) ∧
      s'.group sampleLibs (sampleGroup 7).id = some g ∧ g.isAdminNode = false ∧ g.adminPriv = [] ∧
      g.adminPub ≠ (sampleGroup 7).adminPub := by
  have hok : (sampleResponse 7 (List.replicate publicKeySize 9)).ok = true := rfl
  obtain ⟨⟨evs, hjoin⟩, -⟩ := steps_join sampleLibs sampleIdentity (lit "mallory")
    (sampleInvite (sampleGroup 8) 8) sampleNode hok rfl
  refine ⟨selfSigned_sampleInvite _ 8, by decide, group_sampleNode, evs, _,
    (replica (sampleInvite (sampleGroup 8) 8) (sampleResponse 7 (List.replicate publicKeySize 9))).norm,
    hjoin, ?_, rfl, rfl, by decide⟩
  exact NodeState.group_putKey sampleCbor_lawful sampleNode (replica (sampleInvite (sampleGroup 8) 8)
    (sampleResponse 7 (List.replicate publicKeySize 9))) (by decide)

/-- A peer that names the group and the key of the invite is harmless: the group is joined, and the node's
own one is as before. -/
theorem sampleNode_keeps_group :
    ∃ evs s', Steps (joinEnv (.ok (sampleResponse 8 (sampleGroup 8).adminPub))) sampleNode
        (joinViaPeer sampleLibs sampleIdentity (lit "alice") (sampleInvite (sampleGroup 8) 8)) evs s'
        (ret (sampleResponse 8 (sampleGroup 8).adminPub)) ∧
      OthersKept (sampleInvite (sampleGroup 8) 8) sampleNode s' ∧
      OwnInstalled sampleLibs (sampleInvite (sampleGroup 8) 8) evs s' := by
  have hok : (sampleResponse 8 (sampleGroup 8).adminPub).ok = true := rfl
  obtain ⟨⟨evs, hjoin⟩, -⟩ := steps_join sampleLibs sampleIdentity (lit "alice")
    (sampleInvite (sampleGroup 8) 8) sampleNode hok rfl
  have hharmless : Harmless sampleLibs (sampleInvite (sampleGroup 8) 8) sampleNode
      (.ok (sampleResponse 8 (sampleGroup 8).adminPub)) := by
    rintro resp h -
    obtain rfl := Except.ok.inj h
    exact ⟨rfl, rfl, fun _ _ _ mem hmem => absurd hmem (by simp [sampleResponse])⟩
  have htext : ∀ resp, Except.ok (sampleResponse 8 (sampleGroup 8).adminPub) =
      (.ok resp : Except GoErr JoinResponse) →
        validUTF8 resp.groupID = true ∧ validUTF8 resp.groupName = true := by
    rintro resp h
    obtain rfl := Except.ok.inj h
    decide
  obtain ⟨hkept, hinstalled⟩ := (joinViaPeer_own_iff sampleCbor_lawful sampleIdentity (lit "alice")
    (sampleInvite (sampleGroup 8) 8) sampleNode _ htext).mpr hharmless _ _ _ hjoin
  exact ⟨evs, _, hjoin, hkept, hinstalled _ rfl⟩

end FnShare
