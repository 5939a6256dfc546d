import FnShare.Node.Daemon

/-!
# What a round of member sync does

`SyncGroupMembers` asks every connected peer for the members of each group, and takes over the entries that
have a proof of admission and are not known yet. For each group the peers known after a round are those known
before and those of which a valid entry was offered, in whatever order and by whomever; entries that were
there stay as they are (`Merged`). What one group is offered must not end up in the table of another, and the
round must not stop half way.

Both depend on the groups that the node has. A log line cuts the id of the group, and a check panics on a key
of another length, so a group has to be usable. The key of an entry is made of the ids of the group and the
peer with a slash between them, and neither is checked, so the table of a group whose id begins with another's
and a slash is part of that other table. `sync_merges_iff` says that every round does what it should exactly
if all groups are usable and no such two of them can let in anyone.
-/

namespace FnShare

open Prog

/-! ## Rounds -/

/-- The ids in the member table of a group. -/
def NodeState.memberIDs (L : Libs) (s : NodeState) (gid : Bytes) : List Bytes :=
  (s.members L gid).map Member.peerID

/-- The store works, and the text of what a peer offers was made valid by JSON. -/
def SyncAnswered : (o : NodeOp) → o.Ans → Prop
  | .storePut _ _, r => r = .ok ()
  | .storeIterate _, r => r.2 = none
  | .sendMembers _ _, r => ∀ resp, r = .ok resp → ∀ m ∈ resp.members, m.validText = true
  | _, _ => True

/-- A node whose store works, among peers that answer anything. -/
def syncEnv : Env NodeSig NodeState where
  step s o r s' := s.step o r s' ∧ SyncAnswered o r
  guard _ _ := True

/-- The entries that peers offered for a group. -/
def offers (gid : Bytes) (evs : List NodeEvent) : List Member :=
  evs.flatMap fun
    | ⟨.sendMembers _ req, .ok resp⟩ => if req.groupID = gid ∧ resp.error = [] then resp.members else []
    | _ => []

/-- The member table of a group after entries were offered: what was there is there, the peers are the old
ones and the others than the node itself of which a valid entry was offered, and nothing came from
elsewhere. -/
structure Merged (L : Libs) (selfID : Bytes) (g : Group) (s : NodeState) (offered : List Member)
    (t : NodeState) : Prop where
  kept : ∀ key raw m, memberPrefix g.id <+: key → s.store.get key = some raw →
    L.cbor.member.unmarshal raw = .ok m → t.store.get key = some raw
  ids : ∀ pid, pid ∈ t.memberIDs L g.id ↔ pid ∈ s.memberIDs L g.id ∨
    pid ≠ selfID ∧ ∃ m ∈ offered, m.peerID = pid ∧ verifyMembership L g m = some true
  own : ∀ m ∈ t.members L g.id, m ∈ s.members L g.id ∨ ∃ m' ∈ offered, m = m'.norm

/-- A round of member sync ends, and merges into the table of each group what was offered for it. -/
def Merges (L : Libs) (self : Bytes) (s : NodeState) : Prop :=
  (∀ evs t k, ¬ Steps syncEnv s (syncGroupMembers L self) evs t (.op .panic k)) ∧
  ∀ evs t, Steps syncEnv s (syncGroupMembers L self) evs t (ret ()) →
    ∀ g ∈ s.groups L, Merged L self g s (offers g.id evs) t

/-- Someone has the private key of a group's admin. -/
def Group.Keyed (L : Libs) (g : Group) : Prop :=
  ∃ priv, priv.length = privateKeySize ∧ L.ed25519.pub priv = g.adminPub

/-- Where the member table of a group is part of another's, nobody can be let into either. -/
def TablesApart (L : Libs) (s : NodeState) : Prop :=
  ∀ g ∈ s.groups L, ∀ h ∈ s.groups L, g.id ≠ h.id → memberPrefix g.id <+: memberPrefix h.id →
    ¬ g.Keyed L ∧ ¬ h.Keyed L

/-- Records are where `Save` and `PutMember` put them: a group under its id, and an entry under the ids of a
group of the node and of its peer. -/
structure Filed (L : Libs) (s : NodeState) : Prop where
  group : ∀ key raw g, lit "group/" <+: key → s.store.get key = some raw →
    L.cbor.group.unmarshal raw = .ok g → key = groupKey g.id
  member : ∀ key raw m, lit "member/" <+: key → s.store.get key = some raw →
    L.cbor.member.unmarshal raw = .ok m → ∃ g ∈ s.groups L, key = memberKey g.id m.peerID

/-! ## Offers -/

/-- What two parts of a trace offer. -/
theorem offers_append (gid : Bytes) (evs evs' : List NodeEvent) :
    offers gid (evs ++ evs') = offers gid evs ++ offers gid evs' := List.flatMap_append

/-- What an answer offers. -/
theorem offers_sendMembers (gid peer : Bytes) (req : MembersRequest) (resp : MembersResponse) :
    offers gid [⟨.sendMembers peer req, .ok resp⟩] =
      if req.groupID = gid ∧ resp.error = [] then resp.members else [] := by
  simp [offers]

/-- Nothing is offered but in an answer to a members request. -/
theorem offers_other (gid : Bytes) {o : NodeOp} (r : o.Ans) (ho : ∀ peer req, o ≠ .sendMembers peer req) :
    offers gid [⟨o, r⟩] = [] := by
  cases o with
  | sendMembers peer req => exact absurd rfl (ho peer req)
  | _ => rfl

/-- A failed request offers nothing. -/
theorem offers_error (gid peer : Bytes) (req : MembersRequest) (e : GoErr) :
    offers gid [⟨.sendMembers peer req, .error e⟩] = [] := rfl

/-! ## Tables -/

section Tables

variable {L : Libs} {self : Bytes} {g h : Group} {s t t' : NodeState} {done : List Member} {m : Member}

/-- The entries of a table by their ids. -/
def FiledUnder (L : Libs) (t : NodeState) (g : Group) : Prop :=
  ∀ pid m, t.member L g.id pid = some m → m.peerID = pid

/-- The peers of a table. -/
theorem mem_memberIDs {gid pid : Bytes} :
    pid ∈ t.memberIDs L gid ↔ ∃ m ∈ t.members L gid, m.peerID = pid := List.mem_map

/-- An entry is in the table of its group. -/
theorem mem_members_of_member {gid pid : Bytes} (hm : t.member L gid pid = some m) :
    m ∈ t.members L gid := by
  obtain ⟨raw, hget, hdec⟩ := Option.bind_eq_some_iff.mp hm
  exact (t.mem_members_iff gid m).mpr
    ⟨_, raw, hget, List.prefix_append _ _, toOption_eq_some.mp hdec⟩

/-- A table is what is stored under its keys. -/
theorem mem_members_congr {gid : Bytes}
    (heq : ∀ key, memberPrefix gid <+: key → t'.store.get key = t.store.get key) (m : Member) :
    m ∈ t'.members L gid ↔ m ∈ t.members L gid := by
  rw [NodeState.mem_members_iff, NodeState.mem_members_iff]
  refine exists_congr fun key => exists_congr fun raw => ?_
  constructor
  · rintro ⟨hget, hpre, hdec⟩
    exact ⟨(heq key hpre).symm.trans hget, hpre, hdec⟩
  · rintro ⟨hget, hpre, hdec⟩
    exact ⟨(heq key hpre).trans hget, hpre, hdec⟩

/-- Only the table of the group matters. -/
theorem FiledUnder.congr (hfiled : FiledUnder L t g)
    (heq : ∀ key, memberPrefix g.id <+: key → t'.store.get key = t.store.get key) : FiledUnder L t' g := by
  intro pid m hm
  refine hfiled pid m ?_
  rw [← hm, NodeState.member, NodeState.member, heq (memberKey g.id pid) (List.prefix_append _ _)]

namespace Merged

/-- Nothing was offered. -/
theorem refl (L : Libs) (self : Bytes) (g : Group) (s : NodeState) : Merged L self g s [] s where
  kept _ _ _ _ hget _ := hget
  ids _ := by simp
  own _ hm := .inl hm

/-- What happens outside of a table does not matter to it. -/
theorem congr (hmerged : Merged L self g s done t)
    (heq : ∀ key, memberPrefix g.id <+: key → t'.store.get key = t.store.get key) :
    Merged L self g s done t' where
  kept key raw m hpre hget hdec := (heq key hpre).trans (hmerged.kept key raw m hpre hget hdec)
  ids pid := by
    rw [← hmerged.ids pid, mem_memberIDs, mem_memberIDs]
    exact exists_congr fun m => and_congr_left fun _ => mem_members_congr heq m
  own m hm := hmerged.own m ((mem_members_congr heq m).mp hm)

/-- An entry of a peer that is known, or of the node itself, or without a proof, adds nothing. -/
theorem skip (hmerged : Merged L self g s done t)
    (hskip : m.peerID ∈ t.memberIDs L g.id ∨ m.peerID = self ∨ verifyMembership L g m ≠ some true) :
    Merged L self g s (done ++ [m]) t where
  kept := hmerged.kept
  ids pid := by
    rw [hmerged.ids pid]
    refine or_congr_right' fun hold => ?_
    constructor
    · rintro ⟨hself, m', hm', hpid, hproof⟩
      exact ⟨hself, m', by simp [hm'], hpid, hproof⟩
    · rintro ⟨hself, m', hm', rfl, hproof⟩
      rcases List.mem_append.mp hm' with hm' | hm'
      · exact ⟨hself, m', hm', rfl, hproof⟩
      · obtain rfl := List.mem_singleton.mp hm'
        rcases hskip with hknown | heq | hno
        · exact ((hmerged.ids _).mp hknown).resolve_left hold
        · exact absurd heq hself
        · exact absurd hproof hno
  own m' hm' := by
    rcases hmerged.own m' hm' with hold | ⟨m₀, hm₀, heq⟩
    · exact .inl hold
    · exact .inr ⟨m₀, by simp [hm₀], heq⟩

end Merged

/-- Where a peer is not known, no entry is stored under its id. -/
theorem FiledUnder.member_eq_none (hfiled : FiledUnder L t g) {pid : Bytes}
    (hpid : pid ∉ t.memberIDs L g.id) : t.member L g.id pid = none := by
  cases hm : t.member L g.id pid with
  | none => rfl
  | some m => exact absurd (mem_memberIDs.mpr ⟨m, mem_members_of_member hm, hfiled pid m hm⟩) hpid

/-- The table after an entry was put where none was. -/
theorem mem_members_putMember (hC : L.cbor.Lawful) (hm : m.validText = true)
    (hnone : t.member L g.id m.peerID = none) (m' : Member) :
    m' ∈ (t.putKey (memberKey g.id m.peerID) (L.cbor.member.marshal m)).members L g.id ↔
      m' = m.norm ∨ m' ∈ t.members L g.id := by
  have hdec := hC.member.unmarshal_marshal hm
  rw [NodeState.mem_members_iff, NodeState.mem_members_iff]
  constructor
  · rintro ⟨key, raw, hget, hpre, hdec'⟩
    by_cases hkey : key = memberKey g.id m.peerID
    · subst hkey
      obtain rfl := Option.some.inj ((SortedMap.get_put_self _ _ _).symm.trans hget)
      exact .inl (Except.ok.inj (hdec'.symm.trans hdec))
    · exact .inr ⟨key, raw, (SortedMap.get_put_ne _ hkey _).symm.trans hget, hpre, hdec'⟩
  · rintro (rfl | ⟨key, raw, hget, hpre, hdec'⟩)
    · exact ⟨_, _, SortedMap.get_put_self _ _ _, List.prefix_append _ _, hdec⟩
    · refine ⟨key, raw, (SortedMap.get_put_ne _ ?_ _).trans hget, hpre, hdec'⟩
      rintro rfl
      simp [NodeState.member, hget, hdec', Except.toOption] at hnone

/-- A valid entry of a peer that is not known is merged. -/
theorem Merged.put (hC : L.cbor.Lawful) (hmerged : Merged L self g s done t) (hfiled : FiledUnder L t g)
    (hm : m.validText = true) (hnew : m.peerID ∉ t.memberIDs L g.id) (hself : m.peerID ≠ self)
    (hproof : verifyMembership L g m = some true) :
    Merged L self g s (done ++ [m]) (t.putKey (memberKey g.id m.peerID) (L.cbor.member.marshal m)) := by
  have hnone := hfiled.member_eq_none hnew
  have hmem := mem_members_putMember hC hm hnone
  refine ⟨fun key raw m' hpre hget hdec => ?_, fun pid => ?_, fun m' hm' => ?_⟩
  · have hkept := hmerged.kept key raw m' hpre hget hdec
    refine (SortedMap.get_put_ne _ ?_ _).trans hkept
    rintro rfl
    simp [NodeState.member, hkept, hdec, Except.toOption] at hnone
  · have hids : pid ∈ (t.putKey (memberKey g.id m.peerID) (L.cbor.member.marshal m)).memberIDs L g.id ↔
        pid = m.peerID ∨ pid ∈ t.memberIDs L g.id := by
      simp only [mem_memberIDs, hmem, or_and_right, exists_or, exists_eq_left]
      exact or_congr_left eq_comm
    rw [hids, hmerged.ids pid]
    constructor
    · rintro (rfl | hold | ⟨hne, m', hm', hpid, hok⟩)
      · exact .inr ⟨hself, m, by simp, rfl, hproof⟩
      · exact .inl hold
      · exact .inr ⟨hne, m', by simp [hm'], hpid, hok⟩
    · rintro (hold | ⟨hne, m', hm', rfl, hok⟩)
      · exact .inr (.inl hold)
      · rcases List.mem_append.mp hm' with hm' | hm'
        · exact .inr (.inr ⟨hne, m', hm', rfl, hok⟩)
        · exact .inl (by rw [List.mem_singleton.mp hm'])
  · rcases (hmem m').mp hm' with rfl | hm'
    · exact .inr ⟨m, by simp, rfl⟩
    · rcases hmerged.own m' hm' with hold | ⟨m₀, hm₀, heq⟩
      · exact .inl hold
      · exact .inr ⟨m₀, by simp [hm₀], heq⟩

/-- An entry is put under its own id. -/
theorem FiledUnder.put (hC : L.cbor.Lawful) (hfiled : FiledUnder L t g) (hm : m.validText = true) :
    FiledUnder L (t.putKey (memberKey g.id m.peerID) (L.cbor.member.marshal m)) g := by
  intro pid m' hm'
  by_cases hpid : pid = m.peerID
  · subst hpid
    rw [NodeState.member_putKey hC t g.id m hm] at hm'
    obtain rfl := Option.some.inj hm'
    rfl
  · refine hfiled pid m' ?_
    have hne : memberKey g.id pid ≠ memberKey g.id m.peerID := fun heq => hpid (List.append_cancel_left heq)
    rw [← hm', NodeState.member, NodeState.member, NodeState.putKey, SortedMap.get_put_ne _ hne]

/-- Whoever is let in was let in with the admin's key. -/
theorem keyed_of_verifyMembership (hE : L.ed25519.Ideal) (hproof : verifyMembership L g m = some true) :
    g.Keyed L := by
  have hkeyed : ∀ {msg sig}, L.ed25519.verify g.adminPub msg sig = true → g.Keyed L := by
    intro msg sig hverify
    obtain ⟨priv, hlen, hpub, -⟩ := (hE.verify_iff _ _ _).mp hverify
    exact ⟨priv, hlen, hpub⟩
  rcases verifyMembership_eq_true_iff.mp hproof with hadm | ⟨-, hinv⟩
  · exact hkeyed (admissionProof_eq_true_iff.mp hadm).2.2
  · obtain ⟨_, _, _, _, -, -, -, -, hverify⟩ := (inviteProof_eq_true_iff.mp hinv).2.signed
    exact hkeyed hverify

/-- The key of an entry is not in the table of another group. -/
theorem TablesApart.not_prefix (hapart : TablesApart L s) (hg : g ∈ s.groups L) (hh : h ∈ s.groups L)
    (hne : g.id ≠ h.id) (hkeyed : h.Keyed L) (pid : Bytes) : ¬ memberPrefix g.id <+: memberKey h.id pid := by
  intro hpre
  have hown : memberPrefix h.id <+: memberKey h.id pid := List.prefix_append _ _
  rcases List.prefix_or_prefix_of_prefix hpre hown with hfront | hfront
  · exact (hapart g hg h hh hne hfront).2 hkeyed
  · exact (hapart h hh g hg hne.symm hfront).1 hkeyed

/-- The entries of a group that lets in anyone are under their own ids. -/
theorem Filed.under (hfiled : Filed L s) (hapart : TablesApart L s) (hg : g ∈ s.groups L)
    (hkeyed : g.Keyed L) : FiledUnder L s g := by
  intro pid m hm
  obtain ⟨raw, hget, hdec⟩ := Option.bind_eq_some_iff.mp hm
  have hmember : lit "member/" <+: memberKey g.id pid := by
    unfold memberKey memberPrefix
    rw [List.append_assoc, List.append_assoc]
    exact List.prefix_append _ _
  obtain ⟨h, hh, hkey⟩ := hfiled.member _ raw m hmember hget (toOption_eq_some.mp hdec)
  by_cases hid : h.id = g.id
  · rw [hid] at hkey
    exact (List.append_cancel_left hkey).symm
  · have hpre : memberPrefix h.id <+: memberKey g.id pid := by
      rw [hkey]
      exact List.prefix_append _ _
    exact absurd hpre (hapart.not_prefix hh hg hid hkeyed pid)

/-- A node has one group of an id. -/
theorem Filed.group_eq (hfiled : Filed L s) (hg : g ∈ s.groups L) (hh : h ∈ s.groups L)
    (hid : g.id = h.id) : g = h := by
  obtain ⟨⟨key, raw⟩, hscan, hdec⟩ := mem_decodeValues.mp hg
  obtain ⟨⟨key', raw'⟩, hscan', hdec'⟩ := mem_decodeValues.mp hh
  obtain ⟨hget, hpre⟩ := NodeState.mem_scan.mp hscan
  obtain ⟨hget', hpre'⟩ := NodeState.mem_scan.mp hscan'
  rw [hfiled.group key raw g hpre hget hdec, hid, ← hfiled.group key' raw' h hpre' hget' hdec'] at hget
  obtain rfl := Option.some.inj (hget.symm.trans hget')
  exact Except.ok.inj (hdec.symm.trans hdec')

end Tables

/-! ## The loops -/

section Loops

variable (L : Libs) (self : Bytes) (g : Group)

/-- What `SyncGroupMembers` makes of the answer of a peer. -/
def takeMembers (st : List Bytes × ℕ) : Except GoErr MembersResponse → NodeM (List Bytes × ℕ)
  | .error _ => ret st
  | .ok resp =>
    if resp.error = [] then resp.members.foldlM (syncMember L self g) st else ret st

/-- A peer is asked first. -/
theorem syncPeer_eq (st : List Bytes × ℕ) (pid : Bytes) :
    syncPeer L self g st pid = .op (S := NodeSig) (.sendMembers pid ⟨g.id⟩) (takeMembers L self g st) := by
  change Prog.op (S := NodeSig) _ _ = _
  refine congrArg (Prog.op (S := NodeSig) (.sendMembers pid ⟨g.id⟩)) (funext fun r => ?_)
  rcases r with e | resp
  · rfl
  · by_cases herr : resp.error = []
    · simp [takeMembers, herr, attempt]
    · simp [takeMembers, herr, attempt]

/-- The rest of the loop for a group, with the peers that are known. -/
def syncKnown (connected known : List Bytes) : NodeM Unit := do
  let st ← connected.foldlM (syncPeer L self g) (known, 0)
  if 0 < st.2 then slice12 g.id

/-- The table is read first. -/
theorem syncGroup_eq (connected : List Bytes) :
    syncGroup L self connected g =
      .op (S := NodeSig) (.storeIterate (memberPrefix g.id)) fun r =>
        syncKnown L self g connected
          (if r.2.isNone then (decodeValues L.cbor.member r.1).map Member.peerID else []) := rfl

end Loops

/-! ## A round merges -/

/-- A round with what was asked in it, where nothing may panic. -/
def roundEnv : Env NodeSig (NodeState × List NodeEvent) := syncEnv.traced fun _ _ o => o ≠ .panic

/-- An iteration returns the table. -/
theorem syncEnv_iterate {t t' : NodeState} {pre : Bytes} {r : List (Bytes × Bytes) × Option GoErr}
    (hs : syncEnv.step t (.storeIterate pre) r t') : t' = t ∧ r = (t.scan pre, none) := by
  obtain ⟨⟨rfl, rfl | ⟨l, e, -, rfl⟩⟩, hnone⟩ := hs
  · exact ⟨rfl, rfl⟩
  · exact absurd hnone (by simp [SyncAnswered])

/-- The tables between the groups of a round. -/
structure Syncing (L : Libs) (selfID : Bytes) (s : NodeState) (w : NodeState × List NodeEvent) : Prop where
  merged : ∀ g ∈ s.groups L, Merged L selfID g s (offers g.id w.2) w.1
  filed : ∀ g ∈ s.groups L, g.Keyed L → FiledUnder L w.1 g

/-- The tables while entries for the group `h` are taken, of which `rest` are to come. -/
structure Taking (L : Libs) (selfID : Bytes) (s : NodeState) (h : Group) (rest : List Member)
    (known : List Bytes) (w : NodeState × List NodeEvent) : Prop where
  others : ∀ g ∈ s.groups L, g.id ≠ h.id → Merged L selfID g s (offers g.id w.2) w.1
  own : ∃ done, offers h.id w.2 = done ++ rest ∧ Merged L selfID h s done w.1
  filed : ∀ g ∈ s.groups L, g.Keyed L → FiledUnder L w.1 g
  known_iff : ∀ pid, pid ∈ known ↔ pid ∈ w.1.memberIDs L h.id
  valid : ∀ m ∈ rest, m.validText = true

section Merging

variable {L : Libs} {self : Bytes} {s t : NodeState} {h : Group} {m : Member} {rest : List Member}
  {known : List Bytes} {evs : List NodeEvent}

/-- An entry that adds nothing is taken. -/
theorem Taking.skip (htaking : Taking L self s h (m :: rest) known (t, evs))
    (hskip : m.peerID ∈ known ∨ m.peerID = self ∨ verifyMembership L h m ≠ some true) :
    Taking L self s h rest known (t, evs) where
  others := htaking.others
  own := by
    obtain ⟨done, hoffers, hmerged⟩ := htaking.own
    refine ⟨done ++ [m], by rw [hoffers, List.append_assoc, List.singleton_append], hmerged.skip ?_⟩
    exact hskip.imp_left (htaking.known_iff m.peerID).mp
  filed := htaking.filed
  known_iff := htaking.known_iff
  valid m' hm' := htaking.valid m' (List.mem_cons_of_mem _ hm')

/-- A valid entry of another peer is taken, and the tables of other groups do not see it. -/
theorem Taking.put (hC : L.cbor.Lawful) (hE : L.ed25519.Ideal) (hapart : TablesApart L s)
    (hh : h ∈ s.groups L) (htaking : Taking L self s h (m :: rest) known (t, evs))
    (hnew : m.peerID ∉ known) (hself : m.peerID ≠ self) (hproof : verifyMembership L h m = some true)
    (r : Except GoErr Unit) :
    Taking L self s h rest (m.peerID :: known)
      (t.putKey (memberKey h.id m.peerID) (L.cbor.member.marshal m),
        evs ++ [⟨.storePut (memberKey h.id m.peerID) (L.cbor.member.marshal m), r⟩]) := by
  have hvalid := htaking.valid m (by simp)
  have hkeyed := keyed_of_verifyMembership hE hproof
  have hoffers (gid : Bytes) : offers gid (evs ++ [(⟨.storePut (memberKey h.id m.peerID)
      (L.cbor.member.marshal m), r⟩ : NodeEvent)]) = offers gid evs := by
    rw [offers_append, offers_other gid (o := .storePut _ _) r (by simp), List.append_nil]
  -- The table of another group has no such key.
  have hframe : ∀ g ∈ s.groups L, g.id ≠ h.id → ∀ key, memberPrefix g.id <+: key →
      (t.putKey (memberKey h.id m.peerID) (L.cbor.member.marshal m)).store.get key = t.store.get key := by
    intro g hg hne key hpre
    refine SortedMap.get_put_ne _ ?_ _
    rintro rfl
    exact hapart.not_prefix hg hh hne hkeyed m.peerID hpre
  obtain ⟨done, hdone, hmerged⟩ := htaking.own
  have hunknown : m.peerID ∉ t.memberIDs L h.id := fun hmem => hnew ((htaking.known_iff _).mpr hmem)
  have hput := hmerged.put hC (htaking.filed h hh hkeyed) hvalid hunknown hself hproof
  refine ⟨fun g hg hne => ?_, ⟨done ++ [m], ?_, hput⟩, fun g hg hgkeyed => ?_, fun pid => ?_, ?_⟩
  · rw [hoffers]
    exact (htaking.others g hg hne).congr (hframe g hg hne)
  · rw [hoffers, hdone, List.append_assoc, List.singleton_append]
  · by_cases hid : g.id = h.id
    · have hfiled := (htaking.filed h hh hkeyed).put hC hvalid
      unfold FiledUnder at hfiled ⊢
      rwa [hid]
    · exact (htaking.filed g hg hgkeyed).congr (hframe g hg hid)
  · have hnone := (htaking.filed h hh hkeyed).member_eq_none hunknown
    rw [List.mem_cons, htaking.known_iff]
    simp only [mem_memberIDs, mem_members_putMember hC hvalid hnone, or_and_right, exists_or,
      exists_eq_left]
    exact or_congr_left eq_comm
  · exact fun m' hm' => htaking.valid m' (List.mem_cons_of_mem _ hm')

/-- One offered entry is dealt with. -/
theorem wp_syncMember (hC : L.cbor.Lawful) (hE : L.ed25519.Ideal) (hapart : TablesApart L s)
    (hh : h ∈ s.groups L) (husable : h.Usable) {st : List Bytes × ℕ}
    (htaking : Taking L self s h (m :: rest) st.1 (t, evs)) :
    wp roundEnv (syncMember L self h st m) (returns fun st' => Taking L self s h rest st'.1) (t, evs) := by
  unfold syncMember
  by_cases hskip : m.peerID ∈ st.1 ∨ m.peerID = self
  · rw [if_pos hskip]
    exact htaking.skip (hskip.imp_right .inl)
  rw [if_neg hskip]
  obtain ⟨b, hb⟩ := exists_verifyMembership (L := L) husable m
  rw [hb, orPanic_some]
  cases b with
  | false =>
    simp only [ret_bind, Bool.not_false, if_true, slice12_of_le husable.1]
    exact htaking.skip (.inr (.inr (by simp [hb])))
  | true =>
    simp only [ret_bind, Bool.not_true, Bool.false_eq_true, if_false]
    refine wp_traced_op.mpr ⟨by simp, ?_⟩
    rintro r t' ⟨hs, hr⟩
    obtain rfl : r = .ok () := hr
    rcases hs with ⟨-, rfl⟩ | ⟨⟨e, he⟩, -⟩
    · simp only [slice12_of_le husable.1]
      exact htaking.put hC hE hapart hh (fun hmem => hskip (.inl hmem)) (fun heq => hskip (.inr heq)) hb _
    · exact absurd he (by simp)

/-- The list of a peer begins to be taken where the peer answers. -/
theorem Taking.answered (htaking : Taking L self s h [] known (t, evs)) (pid : Bytes)
    {r : Except GoErr MembersResponse} (ms : List Member)
    (hr : ∀ gid, offers gid [(⟨.sendMembers pid ⟨h.id⟩, r⟩ : NodeEvent)] = if h.id = gid then ms else [])
    (hvalid : ∀ m ∈ ms, m.validText = true) :
    Taking L self s h ms known (t, evs ++ [⟨.sendMembers pid ⟨h.id⟩, r⟩]) where
  others g hg hne := by
    rw [offers_append, hr, if_neg hne.symm, List.append_nil]
    exact htaking.others g hg hne
  own := by
    obtain ⟨done, hoffers, hmerged⟩ := htaking.own
    refine ⟨done, ?_, hmerged⟩
    rw [offers_append, hr, if_pos rfl, hoffers, List.append_nil]
  filed := htaking.filed
  known_iff := htaking.known_iff
  valid := hvalid

/-- One peer is asked. -/
theorem wp_syncPeer (hC : L.cbor.Lawful) (hE : L.ed25519.Ideal) (hapart : TablesApart L s)
    (hh : h ∈ s.groups L) (husable : h.Usable) {st : List Bytes × ℕ} (pid : Bytes)
    (htaking : Taking L self s h [] st.1 (t, evs)) :
    wp roundEnv (syncPeer L self h st pid) (returns fun st' => Taking L self s h [] st'.1) (t, evs) := by
  rw [syncPeer_eq]
  refine wp_traced_op.mpr ⟨by simp, ?_⟩
  rintro r t' ⟨hs, hanswered⟩
  obtain rfl : t' = t := hs
  rcases r with e | resp
  · exact htaking.answered pid [] (fun gid => by simp [offers_error]) (by simp)
  · unfold takeMembers
    dsimp only
    split_ifs with herr
    · have hstart := htaking.answered pid (r := .ok resp) resp.members
        (fun gid => by simp [offers_sendMembers, herr]) (hanswered resp rfl)
      refine wp_foldlM (fun rest st' w => Taking L self s h rest st'.1 w)
        (fun _ _ hend => hend) ?_ _ _ _ hstart
      rintro m rest st' ⟨t', evs'⟩ htaking'
      refine wp_mono (wp_syncMember hC hE hapart hh husable htaking') ?_
      rintro (e | st'') w' hok
      · exact hok
      · exact hok
    · exact htaking.answered pid [] (fun gid => by simp [offers_sendMembers, herr]) (by simp)

/-- One group is synced. -/
theorem wp_syncGroup (hC : L.cbor.Lawful) (hE : L.ed25519.Ideal) (hfiled : Filed L s)
    (hapart : TablesApart L s) (hh : h ∈ s.groups L) (husable : h.Usable) (connected : List Bytes)
    (hsyncing : Syncing L self s (t, evs)) :
    wp roundEnv (syncGroup L self connected h) (returns fun _ => Syncing L self s) (t, evs) := by
  rw [syncGroup_eq]
  refine wp_traced_op.mpr ⟨by simp, ?_⟩
  intro r t' hs
  obtain ⟨rfl, rfl⟩ := syncEnv_iterate hs
  have hoffers (gid : Bytes) : offers gid (evs ++ [(⟨.storeIterate (memberPrefix h.id),
      (t'.scan (memberPrefix h.id), none)⟩ : NodeEvent)]) = offers gid evs := by
    rw [offers_append, offers_other gid (o := .storeIterate _) _ (by simp), List.append_nil]
  have hstart : Taking L self s h [] (t'.memberIDs L h.id) (t', evs ++
      [⟨.storeIterate (memberPrefix h.id), (t'.scan (memberPrefix h.id), none)⟩]) := by
    refine ⟨fun g hg _ => ?_, ⟨offers h.id evs, ?_, hsyncing.merged h hh⟩, hsyncing.filed,
      fun _ => Iff.rfl, by simp⟩
    · rw [hoffers]
      exact hsyncing.merged g hg
    · rw [hoffers, List.append_nil]
  unfold syncKnown
  refine wp_bind_returns (P := fun st w => Taking L self s h [] st.1 w) ?_ ?_
  · refine wp_foldlM (fun _ st w => Taking L self s h [] st.1 w) (fun _ _ hend => hend) ?_ _ _ _ hstart
    rintro pid _ st ⟨t', evs'⟩ htaking
    refine wp_mono (wp_syncPeer hC hE hapart hh husable pid htaking) ?_
    rintro (e | st') w' hok
    · exact hok
    · exact hok
  · rintro ⟨known, added⟩ ⟨t', evs'⟩ htaking
    have hend : Syncing L self s (t', evs') := by
      refine ⟨fun g hg => ?_, htaking.filed⟩
      by_cases hid : g.id = h.id
      · obtain ⟨done, hdone, hmerged⟩ := htaking.own
        rw [hfiled.group_eq hg hh hid, hdone, List.append_nil]
        exact hmerged
      · exact htaking.others g hg hid
    rw [slice12_of_le husable.1]
    split_ifs <;> exact hend

/-- Where all groups are usable and their tables apart, a round does not panic, and merges. -/
theorem wp_syncGroupMembers (hC : L.cbor.Lawful) (hE : L.ed25519.Ideal) (hfiled : Filed L s)
    (hapart : TablesApart L s) (husable : ∀ g ∈ s.groups L, g.Usable) :
    wp roundEnv (syncGroupMembers L self) (returns fun _ => Syncing L self s) (s, []) := by
  refine wp_traced_op.mpr ⟨by simp, ?_⟩
  intro r t hs
  obtain ⟨rfl, rfl⟩ := syncEnv_iterate hs
  have hstart : ∀ evs, (∀ gid, offers gid evs = []) → Syncing L self t (t, evs) := by
    intro evs hevs
    refine ⟨fun g _ => ?_, fun g hg hkeyed => hfiled.under hapart hg hkeyed⟩
    rw [hevs]
    exact .refl L self g t
  refine wp_traced_op.mpr ⟨by simp, ?_⟩
  rintro connected t' ⟨rfl, -⟩
  simp only [bind_eq, ret_bind]
  split_ifs with hnobody
  · exact hstart _ fun gid => rfl
  · refine wp_foldlM (fun gs _ w => (∀ g ∈ gs, g ∈ t'.groups L) ∧ Syncing L self t' w)
      (fun _ _ hend => hend.2) ?_ _ _ _ ⟨fun g hg => hg, hstart _ fun gid => rfl⟩
    rintro g gs ⟨⟩ ⟨v, evs⟩ ⟨hgs, hsyncing⟩
    have hg := hgs g (by simp)
    refine wp_mono (wp_syncGroup hC hE hfiled hapart hg (husable g hg) connected hsyncing) ?_
    rintro (e | ⟨⟩) w' hok
    · exact hok
    · exact ⟨fun g' hg' => hgs g' (by simp [hg']), hok⟩

/-- Rounds merge if tables are apart. -/
theorem merges_of_apart (hC : L.cbor.Lawful) (hE : L.ed25519.Ideal) (hfiled : Filed L s)
    (hapart : TablesApart L s) (husable : ∀ g ∈ s.groups L, g.Usable) : Merges L self s := by
  have hround : wp roundEnv (syncGroupMembers L self) (returns fun _ => Syncing L self s) (s, []) :=
    wp_syncGroupMembers hC hE hfiled hapart husable
  constructor
  · intro evs t k hsteps
    exact (wp_steps (hsteps.traced _ []) hround).1 rfl
  · intro evs t hsteps g hg
    exact (wp_steps (hsteps.traced _ []) hround).merged g hg

end Merging

/-! ## Rounds in which one entry is offered -/

section Offered

variable {L : Libs} {self pid : Bytes} {s t t' : NodeState} {g h : Group} {m : Member}
  {evs : List NodeEvent}

/-- The end of the loop for a group. -/
def afterPeers (g : Group) (st : List Bytes × ℕ) : NodeM Unit := if 0 < st.2 then slice12 g.id else ret ()

/-- With one connected peer. -/
theorem syncKnown_one (known : List Bytes) :
    syncKnown L self h [pid] known = syncPeer L self h (known, 0) pid >>= afterPeers h := by
  unfold syncKnown
  rw [List.foldlM_cons, bind_assoc]
  rfl

variable (pid) in
/-- The loop for a group where one peer is connected, which offers `ms`. -/
theorem steps_syncGroup {ms : List Member} (hms : ∀ m ∈ ms, m.validText = true)
    {p : NodeM (List Bytes × ℕ)}
    (hsteps : Steps syncEnv t (ms.foldlM (syncMember L self h) (t.memberIDs L h.id, 0)) evs t' p) :
    ∃ evs', Steps syncEnv t (syncGroup L self [pid] h) evs' t' (p >>= afterPeers h) ∧
      ∀ gid, offers gid evs' = (if h.id = gid then ms else []) ++ offers gid evs := by
  have hscan : syncEnv.step t (.storeIterate (memberPrefix h.id)) (t.scan (memberPrefix h.id), none) t :=
    ⟨⟨rfl, .inl rfl⟩, rfl⟩
  have hanswer : syncEnv.step t (.sendMembers pid ⟨h.id⟩) (.ok { members := ms }) t :=
    ⟨rfl, fun resp hresp => Except.ok.inj hresp ▸ hms⟩
  have hpeer : Steps syncEnv t (syncPeer L self h (t.memberIDs L h.id, 0) pid)
      (⟨.sendMembers pid ⟨h.id⟩, .ok { members := ms }⟩ :: evs) t' p := by
    rw [syncPeer_eq]
    exact .op hanswer hsteps
  have hknown : Steps syncEnv t (syncKnown L self h [pid] (t.memberIDs L h.id))
      (⟨.sendMembers pid ⟨h.id⟩, .ok { members := ms }⟩ :: evs) t' (p >>= afterPeers h) := by
    rw [syncKnown_one]
    exact hpeer.bind_left _
  refine ⟨_, by rw [syncGroup_eq]; exact .op hscan hknown, fun gid => ?_⟩
  simp [offers]

/-- The loop for a group where nothing is offered. -/
theorem steps_syncGroup_quiet (L : Libs) (self pid : Bytes) (t : NodeState) (h : Group) :
    ∃ evs, Steps syncEnv t (syncGroup L self [pid] h) evs t (ret ()) ∧ ∀ gid, offers gid evs = [] := by
  have hnone : Steps syncEnv t (([] : List Member).foldlM (syncMember L self h) (t.memberIDs L h.id, 0)) []
      t (ret (t.memberIDs L h.id, 0)) := .refl _ _
  obtain ⟨evs, hsteps, hoffers⟩ := steps_syncGroup pid (by simp) hnone
  exact ⟨evs, hsteps, fun gid => by rw [hoffers, ite_self]; rfl⟩

/-- A round in which nobody answers. -/
theorem steps_groups_quiet (L : Libs) (self pid : Bytes) (t : NodeState) (gs : List Group) :
    ∃ evs, Steps syncEnv t (gs.foldlM (fun _ g => syncGroup L self [pid] g) ()) evs t (ret ()) ∧
      ∀ gid, offers gid evs = [] := by
  induction gs with
  | nil => exact ⟨[], .refl _ _, fun _ => rfl⟩
  | cons g gs ih =>
    obtain ⟨evs, hsteps, hoffers⟩ := steps_syncGroup_quiet L self pid t g
    obtain ⟨evs', hrest, hoffers'⟩ := ih
    rw [List.foldlM_cons]
    exact ⟨_, hsteps.bind hrest, fun gid => by rw [offers_append, hoffers, hoffers', List.append_nil]⟩

/-- The loop over the groups, in which something happens in one of them. -/
theorem steps_groups {gs : List Group} (hh : h ∈ gs) {p : NodeM Unit}
    (hsteps : Steps syncEnv t (syncGroup L self [pid] h) evs t' p) :
    ∃ evs' rest, Steps syncEnv t (gs.foldlM (fun _ g => syncGroup L self [pid] g) ()) evs' t'
        (p >>= fun _ => rest) ∧
      (∀ gid, offers gid evs' = offers gid evs) ∧
      ∃ evs'', Steps syncEnv t' rest evs'' t' (ret ()) ∧ ∀ gid, offers gid evs'' = [] := by
  induction gs with
  | nil => exact absurd hh (by simp)
  | cons g gs ih =>
    rw [List.foldlM_cons]
    rcases List.mem_cons.mp hh with rfl | hh
    · exact ⟨evs, _, hsteps.bind_left _, fun _ => rfl, steps_groups_quiet L self pid t' gs⟩
    · obtain ⟨evs₁, hquiet, hoffers₁⟩ := steps_syncGroup_quiet L self pid t g
      obtain ⟨evs₂, rest, hrest, hoffers₂, hend⟩ := ih hh
      refine ⟨evs₁ ++ evs₂, rest, hquiet.bind hrest, fun gid => ?_, hend⟩
      rw [offers_append, hoffers₁, hoffers₂, List.nil_append]

/-- A round in which one entry is offered, for the group `h`. -/
theorem steps_round (hh : h ∈ s.groups L) (hm : m.validText = true) {p : NodeM (List Bytes × ℕ)}
    (hsteps : Steps syncEnv s (syncMember L self h (s.memberIDs L h.id, 0) m) evs t p) :
    ∃ evs' rest, Steps syncEnv s (syncGroupMembers L self) evs' t
        (((p >>= ret) >>= afterPeers h) >>= fun _ => rest) ∧
      (∀ gid, offers gid evs' = (if h.id = gid then [m] else []) ++ offers gid evs) ∧
      ∃ evs'', Steps syncEnv t rest evs'' t (ret ()) ∧ ∀ gid, offers gid evs'' = [] := by
  have hscan : syncEnv.step s (.storeIterate (lit "group/")) (s.scan (lit "group/"), none) s :=
    ⟨⟨rfl, .inl rfl⟩, rfl⟩
  have hconnected : syncEnv.step s .connected [lit "peer"] s := ⟨rfl, trivial⟩
  have hone : Steps syncEnv s ([m].foldlM (syncMember L self h) (s.memberIDs L h.id, 0)) evs t
      (p >>= ret) := by
    rw [List.foldlM_cons]
    exact hsteps.bind_left _
  obtain ⟨evs₁, hgroup, hoffers₁⟩ := steps_syncGroup (lit "peer") (by simpa using hm) hone
  obtain ⟨evs₂, rest, hgroups, hoffers₂, hend⟩ := steps_groups hh hgroup
  refine ⟨_, rest, .op hscan (.op hconnected hgroups), fun gid => ?_, hend⟩
  rw [← hoffers₁, ← hoffers₂]
  simp [offers]

/-! ## Rounds that go wrong -/

/-- There is always another id, whatever it has to begin with. -/
theorem exists_fresh (front : Bytes) (hfront : validUTF8 front = true) (used : List Bytes) :
    ∃ rest, front ++ rest ∉ used ∧ validUTF8 (front ++ rest) = true := by
  -- It is longer than all ids that are used.
  refine ⟨List.replicate (used.flatten.length + 1) 97, fun hmem => ?_, ?_⟩
  · have hle := (List.sublist_flatten_of_mem hmem).length_le
    rw [List.length_append, List.length_replicate] at hle
    omega
  · rw [validUTF8_append hfront]
    exact validUTF8_of_ascii fun b hb => List.eq_of_mem_replicate hb ▸ by decide

/-- The texts of an entry without addresses. -/
theorem validText_of_peerID {pid sig : Bytes} (hpid : validUTF8 pid = true) :
    ({ peerID := pid, joinedAt := 0, admittedBySig := sig } : Member).validText = true := by
  simp only [Member.validText, hpid, List.all_nil, Bool.and_true, Bool.true_and]
  rfl

/-- A group that is not usable makes the check of an entry panic, or the log of its refusal. -/
theorem exists_panic (hunusable : ¬ h.Usable) {used : List Bytes} {pid : Bytes} (hused : pid ∉ used)
    (hself : pid ≠ self) (hpid : validUTF8 pid = true) :
    ∃ m : Member, m.validText = true ∧
      ∃ k, syncMember L self h (used, 0) m = .op (S := NodeSig) .panic k := by
  by_cases hpub : h.adminPub.length = publicKeySize
  · -- The entry is refused, and the id is too short to be cut.
    have hshort : ¬ 12 ≤ h.id.length := fun hlen => hunusable ⟨hlen, hpub⟩
    refine ⟨{ peerID := pid, joinedAt := 0, admittedBySig := [] }, validText_of_peerID hpid, ?_⟩
    have hproof : verifyMembership L h { peerID := pid, joinedAt := 0, admittedBySig := [] } =
        some false := by
      simp [verifyMembership, admissionProof, inviteProof]
    unfold syncMember
    rw [if_neg (by simp [hused, hself]), hproof, orPanic_some]
    simp only [ret_bind, Bool.not_false, if_true, slice12, if_neg hshort]
    exact ⟨_, rfl⟩
  · refine ⟨{ peerID := pid, joinedAt := 0, admittedBySig := [0] }, validText_of_peerID hpid, ?_⟩
    have hproof : verifyMembership L h { peerID := pid, joinedAt := 0, admittedBySig := [0] } = none := by
      simp [verifyMembership, admissionProof, verifyAdmission, Ed25519.verifyChecked, hpub]
    unfold syncMember
    rw [if_neg (by simp [hused, hself]), hproof]
    exact ⟨_, rfl⟩

/-- Where every round ends, the groups are usable. -/
theorem usable_of_merges (hmerges : Merges L self s) (hh : h ∈ s.groups L) : h.Usable := by
  by_contra hunusable
  obtain ⟨pid, hfresh, hpid⟩ := exists_fresh [] rfl (self :: s.memberIDs L h.id)
  rw [List.nil_append, List.mem_cons, not_or] at hfresh
  obtain ⟨m, hm, k, hpanic⟩ := exists_panic (L := L) hunusable hfresh.2 hfresh.1 hpid
  have hsteps : Steps syncEnv s (syncMember L self h (s.memberIDs L h.id, 0) m) [] s
      (.op (S := NodeSig) .panic k) := by
    rw [hpanic]
    exact .refl _ _
  obtain ⟨evs, rest, hround, -⟩ := steps_round hh hm hsteps
  exact hmerges.1 evs s _ hround

/-- An entry that was signed with a key. -/
def signedMember (L : Libs) (priv gid pid : Bytes) : Member :=
  { peerID := pid, joinedAt := 0, admittedBySig := L.ed25519.sign priv (admitMessage gid pid 0) }

/-- The admin can admit anyone. -/
theorem verifyMembership_signedMember (hE : L.ed25519.Ideal) {priv : Bytes}
    (hlen : priv.length = privateKeySize) (hpub : L.ed25519.pub priv = h.adminPub) (pid : Bytes) :
    verifyMembership L h (signedMember L priv h.id pid) = some true := by
  refine verifyMembership_eq_true_iff.mpr (.inl (admissionProof_eq_true_iff.mpr ⟨?_, ?_, ?_⟩))
  · exact hE.sign_ne_nil priv _ hlen
  · rw [← hpub]
    exact hE.length_pub priv hlen
  · rw [← hpub]
    exact hE.verify_sign priv hlen _

/-- A valid entry of a peer that is not known is put, and the loop goes on. -/
theorem steps_syncMember (husable : h.Usable) {st : List Bytes × ℕ} (hnew : m.peerID ∉ st.1)
    (hself : m.peerID ≠ self) (hproof : verifyMembership L h m = some true) :
    Steps syncEnv s (syncMember L self h st m)
      [⟨.storePut (memberKey h.id m.peerID) (L.cbor.member.marshal m), .ok ()⟩]
      (s.putKey (memberKey h.id m.peerID) (L.cbor.member.marshal m)) (ret (m.peerID :: st.1, st.2 + 1)) := by
  have hput : syncEnv.step s (.storePut (memberKey h.id m.peerID) (L.cbor.member.marshal m)) (.ok ())
      (s.putKey (memberKey h.id m.peerID) (L.cbor.member.marshal m)) := ⟨.inl ⟨rfl, rfl⟩, rfl⟩
  unfold syncMember
  rw [if_neg (by simp [hnew, hself]), hproof, orPanic_some]
  simp only [ret_bind, Bool.not_true, Bool.false_eq_true, if_false, slice12_of_le husable.1]
  exact .op hput (.refl _ _)

/-- A round in which one entry is offered to the group `h` and put. -/
theorem exists_round (hh : h ∈ s.groups L) (husable : h.Usable) (hm : m.validText = true)
    (hnew : m.peerID ∉ s.memberIDs L h.id) (hself : m.peerID ≠ self)
    (hproof : verifyMembership L h m = some true) :
    ∃ evs, Steps syncEnv s (syncGroupMembers L self) evs
        (s.putKey (memberKey h.id m.peerID) (L.cbor.member.marshal m)) (ret ()) ∧
      ∀ gid, offers gid evs = if h.id = gid then [m] else [] := by
  have hmember : Steps syncEnv s (syncMember L self h (s.memberIDs L h.id, 0) m) _ _ _ :=
    steps_syncMember husable hnew hself hproof
  obtain ⟨evs, rest, hround, hoffers, evs', hend, hoffers'⟩ := steps_round hh hm hmember
  simp only [ret_bind, afterPeers, slice12_of_le husable.1, ite_self] at hround
  refine ⟨_, hround.trans hend, fun gid => ?_⟩
  rw [offers_append, hoffers, hoffers', List.append_nil,
    offers_other gid (o := .storePut _ _) _ (by simp), List.append_nil]

/-- A round goes wrong if an entry for one group is put into the table of another. -/
theorem not_merges_of_stray (hC : L.cbor.Lawful) (hh : h ∈ s.groups L)
    (husable : h.Usable) (hne : h.id ≠ g.id) (hm : m.validText = true)
    (hnew : m.peerID ∉ self :: s.memberIDs L h.id ++ s.memberIDs L g.id)
    (hproof : verifyMembership L h m = some true)
    (hstray : memberPrefix g.id <+: memberKey h.id m.peerID) :
    ∃ evs t, Steps syncEnv s (syncGroupMembers L self) evs t (ret ()) ∧ offers g.id evs = [] ∧
      ¬ Merged L self g s (offers g.id evs) t := by
  simp only [List.cons_append, List.mem_cons, List.mem_append, not_or] at hnew
  obtain ⟨evs, hround, hoffers⟩ := exists_round hh husable hm hnew.2.1 hnew.1 hproof
  have hnone : offers g.id evs = [] := by rw [hoffers, if_neg hne]
  refine ⟨evs, _, hround, hnone, fun hmerged => ?_⟩
  rw [hnone] at hmerged
  have hlisted : m.peerID ∈
      (s.putKey (memberKey h.id m.peerID) (L.cbor.member.marshal m)).memberIDs L g.id := by
    refine mem_memberIDs.mpr ⟨m.norm, ?_, rfl⟩
    exact (NodeState.mem_members_iff _ _ _).mpr
      ⟨_, _, SortedMap.get_put_self _ _ _, hstray, hC.member.unmarshal_marshal hm⟩
  rcases (hmerged.ids m.peerID).mp hlisted with hold | ⟨-, m', hm', -⟩
  · exact hnew.2.2 hold
  · exact absurd hm' (by simp)

/-- The prefix of a table is valid text. -/
theorem validUTF8_memberPrefix {gid : Bytes} (hgid : validUTF8 gid = true) :
    validUTF8 (memberPrefix gid) = true := by
  unfold memberPrefix
  rw [List.append_assoc, validUTF8_append (by decide), validUTF8_append hgid]
  decide

/-- The id of a group that is stored is UTF-8. -/
theorem validUTF8_of_mem_groups (hS : L.cbor.Strict) (hg : g ∈ s.groups L) : validUTF8 g.id = true := by
  obtain ⟨⟨key, raw⟩, -, hdec⟩ := mem_decodeValues.mp hg
  have htext := hS.group hdec
  simp only [Group.validText, Bool.and_eq_true] at htext
  exact htext.1

variable (self) in
/-- Where a table is part of another's and one of the two groups has an admin, some round goes wrong. -/
theorem exists_stray (hC : L.cbor.Lawful) (hS : L.cbor.Strict) (hE : L.ed25519.Ideal)
    (husable : ∀ g ∈ s.groups L, g.Usable) (hg : g ∈ s.groups L) (hh : h ∈ s.groups L) (hne : g.id ≠ h.id)
    (hfront : memberPrefix g.id <+: memberPrefix h.id) (hkeyed : g.Keyed L ∨ h.Keyed L) :
    ∃ evs t, Steps syncEnv s (syncGroupMembers L self) evs t (ret ()) ∧
      ∃ g' ∈ s.groups L, ¬ Merged L self g' s (offers g'.id evs) t := by
  obtain ⟨front, hfront⟩ := hfront
  rcases hkeyed with ⟨priv, hlen, hpub⟩ | ⟨priv, hlen, hpub⟩
  · -- A peer of `g` whose id begins with the rest of the id of `h`.
    have hvalid : validUTF8 front = true := by
      rw [← validUTF8_append (validUTF8_memberPrefix (validUTF8_of_mem_groups hS hg)), hfront]
      exact validUTF8_memberPrefix (validUTF8_of_mem_groups hS hh)
    obtain ⟨rest, hfresh, hpid⟩ := exists_fresh front hvalid
      (self :: s.memberIDs L g.id ++ s.memberIDs L h.id)
    have hstray : memberPrefix h.id <+: memberKey g.id (front ++ rest) := by
      unfold memberKey
      rw [← List.append_assoc, hfront]
      exact List.prefix_append _ _
    obtain ⟨evs, t, hround, -, hwrong⟩ := not_merges_of_stray hC hg (husable g hg) hne
      (validText_of_peerID hpid) hfresh (verifyMembership_signedMember hE hlen hpub (front ++ rest)) hstray
    exact ⟨evs, t, hround, h, hh, hwrong⟩
  · obtain ⟨pid, hfresh, hpid⟩ := exists_fresh [] rfl (self :: s.memberIDs L h.id ++ s.memberIDs L g.id)
    have hstray : memberPrefix g.id <+: memberKey h.id pid := by
      unfold memberKey
      rw [← hfront, List.append_assoc]
      exact List.prefix_append _ _
    obtain ⟨evs, t, hround, -, hwrong⟩ := not_merges_of_stray hC hh (husable h hh) hne.symm
      (validText_of_peerID hpid) hfresh (verifyMembership_signedMember hE hlen hpub pid) hstray
    exact ⟨evs, t, hround, g, hg, hwrong⟩

/-- Every round of member sync ends and merges into each table what was offered for its group, exactly if all
groups of the node are usable, and where the table of one is part of another's nobody can be let into
either. -/
theorem sync_merges_iff (hC : L.cbor.Lawful) (hS : L.cbor.Strict) (hE : L.ed25519.Ideal) (self : Bytes)
    (hfiled : Filed L s) :
    Merges L self s ↔ (∀ g ∈ s.groups L, g.Usable) ∧ TablesApart L s := by
  constructor
  · intro hmerges
    have husable : ∀ g ∈ s.groups L, g.Usable := fun g hg => usable_of_merges hmerges hg
    refine ⟨husable, fun g hg h hh hne hfront => ?_⟩
    rw [← not_or]
    intro hkeyed
    obtain ⟨evs, t, hround, g', hg', hwrong⟩ :=
      exists_stray self hC hS hE husable hg hh hne hfront hkeyed
    exact hwrong (hmerges.2 evs t hround g' hg')
  · rintro ⟨husable, hapart⟩
    exact merges_of_apart hC hE hfiled hapart husable

end Offered

/-- The keys of groups are not among those of members. -/
theorem not_member_groupKey (gid : Bytes) : ¬ lit "member/" <+: groupKey gid :=
  not_prefix_append 0 (by decide) gid

/-- The records of a node that has created a group and nothing else are filed. -/
theorem sampleNode_filed : Filed sampleLibs sampleNode := by
  have hkey : ∀ key raw, sampleNode.store.get key = some raw → key = groupKey (sampleGroup 7).id ∧
      raw = sampleLibs.cbor.group.marshal (sampleGroup 7) := by
    intro key raw hget
    by_cases hkey : key = groupKey (sampleGroup 7).id
    · subst hkey
      exact ⟨rfl, Option.some.inj (hget.symm.trans (SortedMap.get_put_self _ _ _))⟩
    · exact absurd (hget.symm.trans ((SortedMap.get_put_ne _ hkey _).trans (SortedMap.get_empty key)))
        (by simp)
  refine ⟨fun key raw g _ hget hdec => ?_, fun key raw m hpre hget _ => ?_⟩
  · obtain ⟨rfl, rfl⟩ := hkey key raw hget
    have hC : sampleLibs.cbor.Lawful := sampleCbor_lawful
    rw [hC.group.eq_norm hdec]
    rfl
  · obtain ⟨rfl, -⟩ := hkey key raw hget
    exact absurd hpre (not_member_groupKey _)

/-- A node with one group merges what it is offered. -/
theorem sampleNode_merges : Merges sampleLibs (lit "alice") sampleNode := by
  have hgroups : sampleNode.groups sampleLibs = [sampleGroup 7] := by decide +kernel
  refine (sync_merges_iff sampleCbor_lawful sampleCbor_strict sampleEd25519_ideal _ sampleNode_filed).mpr
    ⟨fun g hg => ?_, fun g hg h hh hne => ?_⟩
  · rw [hgroups, List.mem_singleton] at hg
    rw [hg]
    exact ⟨by decide, by decide⟩
  · rw [hgroups, List.mem_singleton] at hg hh
    exact absurd (by rw [hg, hh]) hne

/-- The response of a peer that names a group of a given id. -/
def namedResponse (gid : Bytes) : JoinResponse :=
  { ok := true, groupID := gid, groupName := lit "films", groupAdmin := (sampleGroup 8).adminPub }

/-- The group that a node has after that response. -/
def namedGroup (gid : Bytes) : Group := replica (sampleInvite (sampleGroup 8) 8) (namedResponse gid)

/-- A node that has joined two groups, the id of one of which begins with the id of the other and a slash. -/
def slashNode : NodeState :=
  (NodeState.fresh.putKey (groupKey (lit "fnshare-films"))
      (sampleLibs.cbor.group.marshal (namedGroup (lit "fnshare-films")))).putKey
    (groupKey (lit "fnshare-films/new"))
    (sampleLibs.cbor.group.marshal (namedGroup (lit "fnshare-films/new")))

/-- A daemon comes to have both groups by two joins. A peer that the admin of one group admitted, and that is
offered for this group only, is in the table of the other group after the round. -/
theorem offer_in_other_table :
    (∃ ps, (daemon sampleLibs sampleIdentity (lit "self") LongAsked LongAnswered).Reach .fresh slashNode ps) ∧
    ∃ evs t, Steps syncEnv slashNode (syncGroupMembers sampleLibs (lit "self")) evs t (ret ()) ∧
      namedGroup (lit "fnshare-films") ∈ slashNode.groups sampleLibs ∧
      offers (lit "fnshare-films") evs = [] ∧
      ¬ Merged sampleLibs (lit "self") (namedGroup (lit "fnshare-films")) slashNode
        (offers (lit "fnshare-films") evs) t := by
  constructor
  · have hlong (gid : Bytes) (hgid : 12 ≤ gid.length) : LongAnswered (namedResponse gid) :=
      fun _ => ⟨hgid, List.length_replicate⟩
    have hfirst := reach_join LongAsked LongAnswered .init (namedResponse (lit "fnshare-films")) rfl
      (hlong _ (by decide))
    exact ⟨_, reach_join LongAsked LongAnswered hfirst (namedResponse (lit "fnshare-films/new")) rfl
      (hlong _ (by decide))⟩
  · have hproof : verifyMembership sampleLibs (namedGroup (lit "fnshare-films/new"))
        (signedMember sampleLibs (sampleKey 8) (lit "fnshare-films/new") (lit "bob")) = some true :=
      verifyMembership_signedMember sampleEd25519_ideal (by decide) (by decide) _
    have husable : (namedGroup (lit "fnshare-films/new")).Usable := ⟨by decide, by decide⟩
    have hgroup : namedGroup (lit "fnshare-films/new") ∈ slashNode.groups sampleLibs := by decide +kernel
    have hne : (namedGroup (lit "fnshare-films/new")).id ≠ (namedGroup (lit "fnshare-films")).id := by decide
    have hnew : lit "bob" ∉ lit "self" :: slashNode.memberIDs sampleLibs (lit "fnshare-films/new") ++
        slashNode.memberIDs sampleLibs (lit "fnshare-films") := by decide +kernel
    have hstray : memberPrefix (lit "fnshare-films") <+: memberKey (lit "fnshare-films/new") (lit "bob") := by
      decide
    obtain ⟨evs, t, hround, hoffers, hwrong⟩ := not_merges_of_stray sampleCbor_lawful hgroup husable hne
      (validText_of_peerID (by decide)) hnew hproof hstray
    exact ⟨evs, t, hround, by decide +kernel, hoffers, hwrong⟩

end FnShare
