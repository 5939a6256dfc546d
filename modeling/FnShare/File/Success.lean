import FnShare.File.Upload
import FnShare.World
import Mathlib.Data.Bool.Count

/-!
# What the success of an upload means

Two readings of a successful `Put`, and where they fail. That the whole body was received:
`ReadFull` reports a body cut off in the middle with the same error as the regular end of the last
stripe, so `Put` takes the one for the other. That enough shards of each stripe are at their holders:
`Put` decides shard by shard, and a shard whose holder is not reached only has to reach the spool.

For the uploads that succeed, `calmEnv` is the environment in which nothing fails at the node itself,
with the peers answering as given.
-/

namespace FnShare

open Prog

/-! ## Uploads that succeed -/

/-- The answers of an environment in which nothing fails at the node, with the peers' answers. -/
def Calm (net : Bytes → Request → Except GoErr Response) (s : NodeState) :
    (o : NodeOp) → o.Ans → Prop
  | .rand _, r => ∃ b, r = .ok b
  | .storeGet key, r => r = s.read key
  | .storePut _ _, r => r = .ok ()
  | .storeIterate pre, r => r = (s.scan pre, none)
  | .blockPut _ _, r => r = .ok ()
  | .request peer req, r => r = net peer req
  | .spoolWrite _ _ _ _, r => r = .ok ()
  | _, _ => True

/-- What would fail whatever the environment. -/
def Impossible : NodeOp → Prop
  | .blockPut id data => verifyHash id data = false
  | .spoolWrite peer _ key _ => peer = [] ∨ key = []
  | .panic => True
  | _ => False

/-- The environment in which nothing fails at the node. -/
def calmEnv (net : Bytes → Request → Except GoErr Response) : Env NodeSig NodeState where
  step s o r s' := s.step o r s' ∧ Calm net s o r
  guard _ o := ¬ Impossible o

/-- Whatever is possible is answered. -/
theorem calmEnv_answers (net : Bytes → Request → Except GoErr Response) (s : NodeState)
    (o : NodeOp) (ho : (calmEnv net).guard s o) : ∃ r s', (calmEnv net).step s o r s' := by
  cases o with
  | now => exact ⟨(0 : ℤ), s, rfl, trivial⟩
  | rand n => exact ⟨.ok ⟨List.replicate n 0, List.length_replicate⟩, s, rfl, _, rfl⟩
  | storeGet key => exact ⟨_, s, ⟨rfl, .inl rfl⟩, rfl⟩
  | storePut key value => exact ⟨_, _, .inl ⟨rfl, rfl⟩, rfl⟩
  | storeIterate pre => exact ⟨_, s, ⟨rfl, .inl rfl⟩, rfl⟩
  | blockPut id data =>
    have hv : verifyHash id data = true := by simpa [calmEnv, Impossible] using ho
    refine ⟨.ok (), s.putBlock id data, ?_, rfl⟩
    simp [NodeState.step, hv]
  | blockGet id => exact ⟨.error .eof, s, ⟨rfl, fun _ => .inr ⟨_, rfl⟩⟩, trivial⟩
  | request peer req => exact ⟨_, s, rfl, rfl⟩
  | isOnline peer => exact ⟨false, s, rfl, trivial⟩
  | record counter peer n => exact ⟨(), s, rfl, trivial⟩
  | spoolWrite peer kind key data =>
    have hne : ¬ (peer = [] ∨ key = []) := ho
    refine ⟨.ok (), s.setSpool ⟨peer, kind, key⟩ (some data), ?_, rfl⟩
    simp [NodeState.step, if_neg hne]
  | spoolPeers => exact ⟨.error .eof, s, ⟨rfl, .inr ⟨_, rfl⟩⟩, trivial⟩
  | spoolList peer => exact ⟨.error .eof, s, ⟨rfl, .inr ⟨_, rfl⟩⟩, trivial⟩
  | spoolRead e => exact ⟨.error .eof, s, ⟨rfl, .inr ⟨_, rfl⟩⟩, trivial⟩
  | spoolRemove e => exact ⟨.error .eof, s, .inr ⟨⟨_, rfl⟩, rfl⟩, trivial⟩
  | cacheGet fileID idx => exact ⟨none, s, rfl, trivial⟩
  | cachePut fileID idx data => exact ⟨(), s, rfl, trivial⟩
  | rangeMap keys => exact ⟨⟨keys, .refl _⟩, s, rfl, trivial⟩
  | connected => exact ⟨([] : List Bytes), s, rfl, trivial⟩
  | sendJoin peer req => exact ⟨.error .eof, s, rfl, trivial⟩
  | sendMembers peer req => exact ⟨.error .eof, s, rfl, trivial⟩
  | replyJoin resp => exact ⟨.ok (), s, rfl, trivial⟩
  | replyMembers resp => exact ⟨.ok (), s, rfl, trivial⟩
  | panic => exact absurd trivial ho

/-- The group that an upload goes to is the one that the node has. -/
def NodeState.resolved (L : Libs) (s : NodeState) (gid : Bytes) (g : Group) : Prop :=
  if gid = [] then decodeValues L.cbor.group (s.scan (lit "group/")) = [g]
  else s.group L gid = some g

/-- A node that can upload: it has the group with a key for the mode and enough members, and their
peer ids are ones. -/
structure Service.Ready (L : Libs) (svc : Service) (opts : PutOptions) (s : NodeState) (g : Group) :
    Prop where
  resolved : s.resolved L opts.groupID g
  length_id : 12 ≤ g.id.length
  mode : (opts.mode = [] ∨ opts.mode = modeShared) ∧ g.sharedKey.length = fileKeySize ∨
    opts.mode = modePrivate ∧ svc.encPub.length = encPubSize
  dataShards_pos : 0 < svc.params.dataShards
  parityShards_pos : 0 < svc.params.parityShards
  new_eq : L.rs.new svc.params.dataShards svc.params.parityShards = .ok ()
  enough : svc.params.total ≤ (s.members L g.id).length
  decodes : ∀ mem ∈ s.members L g.id, ∃ pid, L.peerDecode mem.peerID = .ok pid

/-- Peers that acknowledge every request. -/
def allAck : Bytes → Request → Except GoErr Response := fun _ _ => .ok { ok := true }

section Calm

variable {L : Libs} {svc : Service} {net : Bytes → Request → Except GoErr Response} {s : NodeState}
variable {key h : Bytes} {holders : List Bytes} {g : Group} {opts : PutOptions} {body : Body}

/-- A shard for this holder does not stop the upload. -/
def Deliverable (L : Libs) (svc : Service) (net : Bytes → Request → Except GoErr Response)
    (h : Bytes) : Prop :=
  ∃ pid, L.peerDecode h = .ok pid ∧
    ((∀ req, acknowledged (net pid req) = true) ∨ (svc.spool = true ∧ h ≠ []))

/-- Random bytes are given. -/
theorem calm_randRead (n : ℕ) :
    wp (calmEnv net) (randRead n) (returns fun _ s' => s' = s) s := by
  refine ⟨id, ?_⟩
  rintro r s' ⟨rfl, b, rfl⟩
  exact rfl

/-- Sealing succeeds. -/
theorem calm_sealAES (hkey : key.length = fileKeySize) (plaintext : Bytes) :
    wp (calmEnv net) (sealAES L key plaintext)
      (returns fun ct _ => ∃ nonce : Bytes, nonce.length = gcmNonceSize ∧
        ct = sealedAES L key nonce plaintext) s := by
  unfold sealAES
  rw [if_neg (not_not.mpr hkey)]
  refine wp_bind_returns (calm_randRead _) ?_
  rintro nonce s' -
  exact ⟨nonce.1, nonce.2, rfl⟩

/-- A request that fails was not acknowledged. -/
theorem calm_request (pid : Bytes) (req : Request) :
    wp (calmEnv net) (request pid req) (fun r s' => s' = s ∧
      ((∃ resp, r = .ok resp) ∨ (∃ e, r = .error e) ∧ acknowledged (net pid req) = false)) s := by
  refine wp_request_of id ?_ ?_
  · rintro resp s' ⟨rfl, -⟩ -
    exact ⟨rfl, .inl ⟨resp, rfl⟩⟩
  · rintro a s' ⟨rfl, rfl⟩ hno e
    exact ⟨rfl, .inr ⟨⟨e, rfl⟩, hno⟩⟩

/-- Where a request failed, there is the spool. -/
theorem Deliverable.spool {pid : Bytes} (hdel : Deliverable L svc net h)
    (hpid : L.peerDecode h = .ok pid) {req : Request} (hreq : acknowledged (net pid req) = false) :
    svc.spool = true ∧ h ≠ [] := by
  obtain ⟨pid', hpid', hack⟩ := hdel
  obtain rfl : pid' = pid := Except.ok.inj (hpid'.symm.trans hpid)
  refine hack.resolve_left fun hall => ?_
  rw [hall req] at hreq
  exact absurd hreq (by simp)

/-- A shard that cannot stop the upload. -/
theorem calm_shipShard {i : ℕ} (hh : holders[i]? = some h) (hdel : Deliverable L svc net h) (sh : Bytes) :
    wp (calmEnv net) (shipShard L svc holders i sh) (returns fun _ _ => True) s := by
  unfold shipShard
  rw [hh, orPanic_some, ret_bind]
  by_cases hself : h = svc.self
  · rw [if_pos hself]
    refine ⟨by simp [calmEnv, Impossible, verifyHash], ?_⟩
    rintro r s' ⟨-, rfl⟩
    trivial
  · rw [if_neg hself]
    obtain ⟨pid, hpid, -⟩ := id hdel
    rw [hpid]
    simp only
    rw [wp_bind, wp_attempt]
    unfold putShardOnPeer
    rw [wp_bind]
    refine wp_mono (calm_request pid _) ?_
    rintro r s' ⟨-, ⟨resp, rfl⟩ | ⟨⟨e, rfl⟩, hreq⟩⟩
    · refine ⟨id, ?_⟩
      rintro ⟨⟩ s'' -
      trivial
    · obtain ⟨hspool, hne⟩ := hdel.spool hpid hreq
      have hlen := length_hashOf sh
      have hid : hashOf sh ≠ [] := by
        rw [← List.length_pos_iff]
        omega
      simp only [andThen_error, andThen_ok, if_pos hspool]
      refine ⟨not_or.mpr ⟨hne, hid⟩, ?_⟩
      rintro r s'' ⟨-, rfl⟩
      simp only [bind_eq, ret_bind, slice12_of_le (show 12 ≤ (hashOf sh).length by omega)]
      trivial

/-- Shards that cannot stop the upload. -/
theorem calm_shipShards (hdel : ∀ h ∈ holders, Deliverable L svc net h) (shards : List Bytes) (i : ℕ)
    (hlen : i + shards.length ≤ holders.length) (s : NodeState) :
    wp (calmEnv net) (shipShards L svc holders i shards) (returns fun _ _ => True) s := by
  induction shards generalizing i s with
  | nil => trivial
  | cons sh shs ih =>
    rw [List.length_cons] at hlen
    have hi : i < holders.length := by omega
    unfold shipShards
    refine wp_bind_returns (calm_shipShard (List.getElem?_eq_getElem hi)
      (hdel _ (List.getElem_mem hi)) sh) ?_
    rintro id s' -
    refine wp_bind_returns (ih (i + 1) (by omega) s') ?_
    rintro ids s'' -
    trivial

/-- A stripe that cannot stop the upload. -/
theorem calm_uploadStripe (hR : L.rs.Mds) (hA : L.aead.Correct) (hk : 0 < svc.params.dataShards)
    (hm : 0 < svc.params.parityShards)
    (hnew : L.rs.new svc.params.dataShards svc.params.parityShards = .ok ())
    (hkey : key.length = fileKeySize) (hdel : ∀ h ∈ holders, Deliverable L svc net h)
    (hlen : (holders.length : ℤ) = svc.params.total) (idx : ℕ) (chunk : Bytes) :
    wp (calmEnv net) (uploadStripe L svc key holders idx chunk) (returns fun _ _ => True) s := by
  refine wp_bind_returns (wp_mapErr_returns (calm_sealAES hkey chunk)) ?_
  rintro ct s' ⟨nonce, hnonce, rfl⟩
  have hne : sealedAES L key nonce chunk ≠ [] := sealedAES_ne_nil hA hnonce _
  obtain ⟨parts, shards, hsplit, hencode, hcode⟩ :=
    hR.encodes _ _ _ (by omega) (by omega) hnew hne
  have henc : svc.params.encode L (sealedAES L key nonce chunk) = .ok shards := by
    unfold Params.encode
    rw [if_neg (by omega), hnew, hsplit]
    simp only [Bind.bind, Except.bind, Except.mapError, hencode]
  rw [henc]
  simp only [Except.mapError, ofExcept_ok, ret_bind]
  have hshards : 0 + shards.length ≤ holders.length := by
    have := hcode.length_eq
    unfold Params.total at hlen
    omega
  refine wp_bind_returns (calm_shipShards hdel shards 0 hshards s') ?_
  rintro ids s'' -
  trivial

/-- A body with an end that `Put` takes for the end of the file. -/
theorem calm_putLoop (hR : L.rs.Mds) (hA : L.aead.Correct) (hk : 0 < svc.params.dataShards)
    (hm : 0 < svc.params.parityShards)
    (hnew : L.rs.new svc.params.dataShards svc.params.parityShards = .ok ())
    (hkey : key.length = fileKeySize) (hdel : ∀ h ∈ holders, Deliverable L svc net h)
    (hlen : (holders.length : ℤ) = svc.params.total) (body : Body)
    (hend : endOfFile (some body.term) = true) (idx : ℕ) (sts : List Stripe) (total : ℤ) (s : NodeState) :
    wp (calmEnv net) (putLoop L svc key holders body idx sts total)
      (returns fun r _ => r.2 = total + body.data.length) s := by
  -- The induction is on what is left of the body.
  induction hn : body.data.length using Nat.strongRecOn generalizing body idx sts total s with
  | ind n ih =>
    have hpos := svc.stripeSize_pos
    by_cases hle : svc.stripeSize ≤ body.data.length
    · obtain ⟨body', hdata, hterm, hturn⟩ := putLoop_of_le L key holders idx sts total hle
      rw [hturn]
      refine wp_bind_returns (wp_mapErr_returns (calm_uploadStripe hR hA hk hm hnew hkey hdel hlen
        idx _)) ?_
      rintro st s' -
      -- A full stripe is taken off, so that less is left.
      have hsplit : (body.data.take svc.stripeSize).length + body'.data.length = n := by
        rw [hdata, List.length_take, List.length_drop]
        omega
      have hlt : body'.data.length < n := by
        rw [List.length_take] at hsplit
        omega
      refine wp_mono (ih _ hlt body' (by rw [hterm]; exact hend) (idx + 1) _ _ s' rfl) ?_
      rintro (e | r) s'' hr
      · exact hr
      · rw [returns_ok] at hr ⊢
        rw [hr]
        omega
    · have hlt : body.data.length < svc.stripeSize := by omega
      rw [putLoop_of_lt hlt]
      by_cases hempty : body.data = [] ∧ endOfFile (some body.term) = true
      · rw [if_pos hempty]
        have : n = 0 := by rw [← hn, hempty.1]; rfl
        simp [this]
      · rw [if_neg hempty]
        refine wp_bind_returns (wp_mapErr_returns (calm_uploadStripe hR hA hk hm hnew hkey hdel hlen
          idx _)) ?_
        rintro st s' -
        rw [if_pos hend]
        simp [hn]

/-- The wrapped key of a mode that the node can use. -/
theorem calm_wrapForMode {mode : Bytes} (hkey : key.length = fileKeySize)
    (hmode : mode = modeShared ∧ g.sharedKey.length = fileKeySize ∨
      mode = modePrivate ∧ svc.encPub.length = encPubSize) (filename : Bytes) :
    wp (calmEnv net) (wrapForMode L svc mode key filename g) (returns fun _ _ => True) s := by
  unfold wrapForMode
  rcases hmode with ⟨rfl, hlen⟩ | ⟨rfl, hlen⟩
  · rw [if_pos rfl, if_neg (not_not.mpr hlen)]
    refine wp_bind_returns (calm_sealAES hlen key) ?_
    rintro ct s' -
    trivial
  · rw [if_neg (by decide), if_pos rfl, if_neg (not_not.mpr hlen)]
    unfold sealAnonymous
    rw [if_neg (not_not.mpr hlen), bind_assoc]
    refine wp_bind_returns (calm_randRead _) ?_
    rintro ephemeral s' -
    simp only [pure_eq, ret_bind]
    refine wp_bind_returns (calm_sealAES hkey filename) ?_
    rintro ct s'' -
    trivial

/-- The manifest to one holder, which cannot stop the upload and leaves the store as it is. -/
theorem calm_replicateManifest {fileID raw : Bytes} (hid : 12 ≤ fileID.length)
    (hdel : Deliverable L svc net h) :
    wp (calmEnv net) (replicateManifest L svc fileID raw h)
      (returns fun _ s' => s'.store = s.store) s := by
  unfold replicateManifest
  by_cases hself : h = svc.self
  · rw [if_pos hself]
    exact rfl
  · rw [if_neg hself]
    obtain ⟨pid, hpid, -⟩ := id hdel
    rw [hpid]
    simp only
    rw [wp_bind, wp_attempt]
    unfold putManifestRawOnPeer
    rw [wp_bind]
    refine wp_mono (calm_request pid _) ?_
    rintro r s' ⟨rfl, ⟨resp, rfl⟩ | ⟨⟨e, rfl⟩, hreq⟩⟩
    · exact rfl
    · obtain ⟨hspool, hne⟩ := hdel.spool hpid hreq
      have hfile : fileID ≠ [] := by
        rw [← List.length_pos_iff]
        omega
      simp only [andThen_error, andThen_ok, if_pos hspool]
      refine ⟨not_or.mpr ⟨hne, hfile⟩, ?_⟩
      rintro r s'' ⟨hs, rfl⟩
      simp only [bind_eq, ret_bind, slice12_of_le hid]
      -- Queueing changes the spool only.
      simp only [NodeState.step, if_neg (not_or.mpr ⟨hne, hfile⟩)] at hs
      rcases hs with ⟨-, rfl⟩ | ⟨⟨e', he⟩, -⟩
      · exact rfl
      · exact absurd he (by simp)

/-- The key of a manifest is not that of a private name. -/
theorem manifestKey_ne_pnameKey (fileID fileID' : Bytes) :
    manifestKey fileID ≠ pnameKey fileID' := by
  intro h
  have hhead := congrArg List.head? h
  unfold manifestKey manifestPrefix pnameKey at hhead
  have hm : (lit "manifest/").head? = some 109 := by decide
  have hp : (lit "pname/").head? = some 112 := by decide
  rw [List.head?_append, List.head?_append, hm, hp] at hhead
  exact absurd hhead (by simp)

/-- Storing without a fault. -/
theorem calm_storePut (key value : Bytes) :
    wp (calmEnv net) (storePut key value) (returns fun _ s' => s' = s.putKey key value) s := by
  refine ⟨id, ?_⟩
  rintro r s' ⟨hs, rfl⟩
  rcases hs with ⟨-, rfl⟩ | ⟨⟨e, he⟩, -⟩
  · exact rfl
  · exact absurd he (by simp)

/-- A private name does not touch the manifests. -/
theorem calm_keepName (m : Manifest) (filename : Bytes) :
    wp (calmEnv net) (keepName L m filename) (returns fun _ s' =>
      ∀ fileID, s'.store.get (manifestKey fileID) = s.store.get (manifestKey fileID)) s := by
  unfold keepName savePrivateName
  by_cases hmode : m.mode = modePrivate
  · rw [if_pos hmode, wp_bind, wp_attempt]
    by_cases hname : filename = []
    · rw [if_pos hname]
      exact fun _ => rfl
    · rw [if_neg hname]
      refine wp_mono (calm_storePut _ _) ?_
      rintro (e | ⟨⟩) s' hs
      · exact hs.elim
      · obtain rfl : s' = _ := hs
        exact fun fileID => SortedMap.get_put_ne _ (manifestKey_ne_pnameKey _ _) _
  · rw [if_neg hmode]
    exact fun _ => rfl

/-- A complete manifest is published, and stored at the node. -/
theorem calm_publish {m : Manifest} (hid : 12 ≤ m.fileID.length) (hgid : 12 ≤ m.groupID.length)
    (hdel : ∀ h ∈ m.holders, Deliverable L svc net h) (filename : Bytes) :
    wp (calmEnv net) (publish L svc m filename) (returns fun _ s' =>
      s'.store.get (manifestKey m.fileID) = some (L.cbor.manifest.marshal m)) s := by
  unfold publish
  refine wp_bind_returns (wp_mapErr_returns (calm_storePut _ _)) ?_
  rintro ⟨⟩ s₁ rfl
  refine wp_bind_returns (calm_keepName m filename) ?_
  rintro ⟨⟩ s₂ hs₂
  have hstored : s₂.store.get (manifestKey m.fileID) = some (L.cbor.manifest.marshal m) := by
    rw [hs₂]
    exact SortedMap.get_put_self _ _ _
  refine wp_bind_returns (P := fun _ s' => s'.store = s₂.store) ?_ ?_
  · refine wp_foldlM (fun hs _ s' => (∀ h ∈ hs, Deliverable L svc net h) ∧ s'.store = s₂.store)
      (fun _ _ h => h.2) ?_ m.holders () s₂ ⟨hdel, rfl⟩
    rintro h hs ⟨⟩ s' ⟨hall, hstore⟩
    refine wp_mono (calm_replicateManifest hid (hall h List.mem_cons_self)) ?_
    rintro (e | ⟨⟩) s'' hr
    · exact hr.elim
    · exact ⟨fun h' hh' => hall h' (List.mem_cons_of_mem _ hh'), hr.trans hstore⟩
  rintro ⟨⟩ s₃ hs₃
  rw [slice12_of_le hid, slice12_of_le hgid]
  simp only [ret_bind, wp_ret, returns_ok]
  rw [hs₃, hstored]

/-- The group of a node that is ready. -/
theorem calm_resolveGroup {gid : Bytes} (h : s.resolved L gid g) :
    wp (calmEnv net) (resolveGroup L gid) (returns fun g' s' => g' = g ∧ s' = s) s := by
  unfold NodeState.resolved at h
  unfold resolveGroup
  by_cases hgid : gid = []
  · rw [if_pos hgid] at h
    rw [if_neg (not_not.mpr hgid)]
    unfold listGroups
    rw [wp_bind, wp_bind]
    refine ⟨id, ?_⟩
    rintro r s' ⟨⟨rfl, -⟩, rfl⟩
    simp only [andThen_ok, pure_eq, wp_ret, h]
    exact ⟨rfl, rfl⟩
  · rw [if_neg hgid] at h
    rw [if_pos hgid]
    unfold loadByID storeGet
    rw [wp_bind, wp_attempt, wp_bind]
    refine ⟨id, ?_⟩
    rintro r s' ⟨⟨rfl, -⟩, rfl⟩
    obtain ⟨raw, hraw, hdec⟩ := NodeState.group_eq_some.mp h
    simp only [NodeState.read_eq_ok.mpr hraw, wp_ret, andThen_ok, wp_ofExcept, hdec]
    exact ⟨rfl, rfl⟩

/-- The members of a group, as they are stored. -/
theorem calm_groupMemberIDs (gid : Bytes) :
    wp (calmEnv net) (groupMemberIDs L gid)
      (returns fun ids _ => ids = sortStrings ((s.members L gid).map Member.peerID)) s := by
  unfold groupMemberIDs listMembers
  rw [wp_bind, wp_bind]
  refine ⟨id, ?_⟩
  rintro r s' ⟨⟨rfl, -⟩, rfl⟩
  exact rfl

/-- The mode of an upload, an empty one being `shared`, has its key. -/
theorem Service.Ready.keyed (h : svc.Ready L opts s g) {mode : Bytes}
    (hmode : (if opts.mode = [] then modeShared else opts.mode) = mode) :
    mode = modeShared ∧ g.sharedKey.length = fileKeySize ∨
      mode = modePrivate ∧ svc.encPub.length = encPubSize := by
  rcases h.mode with ⟨hm | hm, hlen⟩ | ⟨hm, hlen⟩
  · exact .inl ⟨by rw [← hmode, if_pos hm], hlen⟩
  · exact .inl ⟨by rw [← hmode, hm]; rfl, hlen⟩
  · exact .inr ⟨by rw [← hmode, hm]; rfl, hlen⟩

/-- A node that is ready completes the manifest of any body that ends, as far as the holders do not stop it,
and the holders are members of the group. -/
theorem calm_assemble (hR : L.rs.Mds) (hA : L.aead.Correct) (hready : svc.Ready L opts s g)
    (hnet : ∀ mem ∈ s.members L g.id, Deliverable L svc net mem.peerID)
    (hend : endOfFile (some body.term) = true) (hdata : body.data ≠ []) (filename : Bytes) :
    wp (calmEnv net) (assemble L svc filename body opts)
      (returns fun m _ => (∀ h ∈ m.holders, ∃ mem ∈ s.members L g.id, mem.peerID = h) ∧
        12 ≤ m.fileID.length ∧ 12 ≤ m.groupID.length) s := by
  have hk := hready.dataShards_pos
  have hm := hready.parityShards_pos
  unfold assemble
  refine wp_bind_returns (calm_resolveGroup hready.resolved) ?_
  rintro g' s₁ ⟨hg, hs₁⟩
  subst g' s₁
  generalize hmode : (if opts.mode = [] then modeShared else opts.mode) = mode
  have hkeyed := hready.keyed hmode
  have hknown : ¬ (mode ≠ modeShared ∧ mode ≠ modePrivate) := by
    rintro ⟨h1, h2⟩
    rcases hkeyed with ⟨h, -⟩ | ⟨h, -⟩
    · exact h1 h
    · exact h2 h
  simp only
  rw [if_neg hknown]
  refine wp_bind_returns (calm_randRead _) ?_
  rintro fid s₁ hs₁
  subst s₁
  refine wp_bind_returns (calm_randRead _) ?_
  rintro key s₁ hs₁
  subst s₁
  refine wp_bind_returns (calm_groupMemberIDs _) ?_
  rintro ids s₁ hids
  have hlen : (ids.length : ℤ) = (s.members L g.id).length := by
    rw [hids, sortStrings, List.length_insertionSort, List.length_map]
  have henough : ¬ (ids.length : ℤ) < svc.params.total := by
    have := hready.enough
    omega
  rw [if_neg henough]
  -- The holders are picked among the members, so each of them takes its shard.
  generalize hholders : pick ids (hexEncode fid.1) svc.params.total = holders
  have hmem : ∀ h ∈ holders, ∃ mem ∈ s.members L g.id, mem.peerID = h := by
    intro h hh
    rw [← hholders] at hh
    have := mem_of_mem_pick hh
    rw [hids, sortStrings, List.mem_insertionSort] at this
    exact List.mem_map.mp this
  have hdel : ∀ h ∈ holders, Deliverable L svc net h := by
    intro h hh
    obtain ⟨mem, hmem', rfl⟩ := hmem h hh
    exact hnet mem hmem'
  have hlenHolders : (holders.length : ℤ) = svc.params.total := by
    rw [← hholders]
    exact length_pick (by unfold Params.total; omega) (not_lt.mp henough) _
  refine wp_bind_returns (calm_wrapForMode key.2 hkeyed filename) ?_
  rintro ⟨wrapped, displayName, fnEncrypted⟩ s₂ -
  refine ⟨id, ?_⟩
  rintro t s₃ -
  simp only [bind_eq, ret_bind]
  refine wp_bind_returns (calm_putLoop hR hA hk hm hready.new_eq key.2 hdel hlenHolders body hend 0
    [] 0 s₃) ?_
  rintro ⟨stripes, total⟩ s₄ htotal
  have hpos := List.length_pos_iff.mpr hdata
  have hne : ¬ total = 0 := by
    have : total = 0 + body.data.length := htotal
    omega
  rw [if_neg hne]
  refine ⟨hmem, ?_, hready.length_id⟩
  simp only [length_hexEncode, fid.2]
  omega

/-- A node that is ready uploads any body that ends, as far as the holders do not stop it, and the
holders are members of the group. The manifest is stored. -/
theorem calm_put (hR : L.rs.Mds) (hA : L.aead.Correct) (hready : svc.Ready L opts s g)
    (hnet : ∀ mem ∈ s.members L g.id, Deliverable L svc net mem.peerID)
    (hend : endOfFile (some body.term) = true) (hdata : body.data ≠ []) (filename : Bytes) :
    wp (calmEnv net) (put L svc filename body opts)
      (returns fun m s' => (∀ h ∈ m.holders, ∃ mem ∈ s.members L g.id, mem.peerID = h) ∧
        s'.store.get (manifestKey m.fileID) = some (L.cbor.manifest.marshal m)) s := by
  rw [put_eq]
  refine wp_bind_returns (calm_assemble hR hA hready hnet hend hdata filename) ?_
  rintro m s₁ ⟨hmem, hid, hgid⟩
  have hdel : ∀ h ∈ m.holders, Deliverable L svc net h := by
    intro h hh
    obtain ⟨mem, hmem', rfl⟩ := hmem h hh
    exact hnet mem hmem'
  refine wp_bind_returns (calm_publish hid hgid hdel filename) ?_
  rintro ⟨⟩ s₂ hstored
  exact ⟨hmem, hstored⟩

/-- An upload that succeeds. -/
theorem exists_upload (hR : L.rs.Mds) (hA : L.aead.Correct) (hready : svc.Ready L opts s g)
    (hnet : ∀ mem ∈ s.members L g.id, Deliverable L svc net mem.peerID)
    (hend : endOfFile (some body.term) = true) (hdata : body.data ≠ []) (filename : Bytes) :
    ∃ evs s' m, Steps (calmEnv net) s (put L svc filename body opts) evs s' (ret m) ∧
      (∀ h ∈ m.holders, ∃ mem ∈ s.members L g.id, mem.peerID = h) ∧
      s'.store.get (manifestKey m.fileID) = some (L.cbor.manifest.marshal m) := by
  obtain ⟨evs, s', x, hsteps, hx⟩ := wp_exists (calmEnv_answers net)
    (calm_put hR hA hready hnet hend hdata filename)
  cases x with
  | error e => exact hx.elim
  | ok m => exact ⟨evs, s', m, hsteps, hx⟩

/-- Where nothing fails at the node, less can happen. -/
theorem Prog.Steps.of_calm {α : Type} {p p' : NodeM α} {evs : List NodeEvent} {s' : NodeState}
    (h : Steps (calmEnv net) s p evs s' p') : Steps nodeEnv s p evs s' p' :=
  Steps.mono (E := calmEnv net) (fun _ _ _ _ hs => hs.1) h

end Calm

/-! ## A node to upload from -/

/-- A service with one data shard and one parity shard, in stripes of four bytes. -/
def sampleService : Service where
  self := lit "uploader"
  encPub := []
  encPriv := []
  params := ⟨1, 1⟩
  stripeSize := 4
  stripeSize_pos := by decide
  stripeSize_le := by decide
  spool := true

/-- An entry of a group's members. -/
def sampleMember (peerID : Bytes) : Member := { peerID := peerID, joinedAt := 0 }

/-- A node with a group of two other members. -/
def sampleHome : NodeState :=
  (sampleNode.putKey (memberKey (sampleGroup 7).id (lit "alice"))
    (sampleLibs.cbor.member.marshal (sampleMember (lit "alice")))).putKey
    (memberKey (sampleGroup 7).id (lit "bob"))
    (sampleLibs.cbor.member.marshal (sampleMember (lit "bob")))

/-- An entry is read back as it was. -/
theorem unmarshal_sampleMember {p : Bytes} (hp : validUTF8 p = true) :
    sampleLibs.cbor.member.unmarshal (sampleLibs.cbor.member.marshal (sampleMember p)) =
      .ok (sampleMember p) := by
  refine sampleCbor_lawful.member.unmarshal_marshal ?_
  simp [Member.validText, sampleMember, hp]
  decide

/-- The members of the group. -/
theorem mem_members_sampleHome {mem : Member} :
    mem ∈ sampleHome.members sampleLibs (sampleGroup 7).id ↔
      mem = sampleMember (lit "alice") ∨ mem = sampleMember (lit "bob") := by
  have halice := unmarshal_sampleMember (show validUTF8 (lit "alice") = true by decide)
  have hbob := unmarshal_sampleMember (show validUTF8 (lit "bob") = true by decide)
  have hne : memberKey (sampleGroup 7).id (lit "alice") ≠ memberKey (sampleGroup 7).id (lit "bob") :=
    fun h => absurd (List.append_cancel_left h) (by decide)
  rw [NodeState.mem_members_iff]
  unfold sampleHome NodeState.putKey
  constructor
  · rintro ⟨key, raw, hget, hpre, hdec⟩
    by_cases hb : key = memberKey (sampleGroup 7).id (lit "bob")
    · subst hb
      rw [SortedMap.get_put_self] at hget
      rw [← Option.some.inj hget, hbob] at hdec
      exact .inr (Except.ok.inj hdec).symm
    rw [SortedMap.get_put_ne _ hb] at hget
    by_cases ha : key = memberKey (sampleGroup 7).id (lit "alice")
    · subst ha
      rw [SortedMap.get_put_self] at hget
      rw [← Option.some.inj hget, halice] at hdec
      exact .inl (Except.ok.inj hdec).symm
    rw [SortedMap.get_put_ne _ ha] at hget
    unfold sampleNode NodeState.putKey at hget
    -- The one other key is that of the group.
    by_cases hg : key = groupKey (sampleGroup 7).id
    · subst hg
      exact absurd hpre (by decide)
    · rw [SortedMap.get_put_ne _ hg] at hget
      exact absurd hget (by simp [NodeState.fresh])
  · rintro (rfl | rfl)
    · refine ⟨memberKey (sampleGroup 7).id (lit "alice"), _, ?_, List.prefix_append _ _, halice⟩
      rw [SortedMap.get_put_ne _ hne, SortedMap.get_put_self]
    · refine ⟨memberKey (sampleGroup 7).id (lit "bob"), _, ?_, List.prefix_append _ _, hbob⟩
      rw [SortedMap.get_put_self]

/-- The node has its group and the members in the store, and nothing else. -/
theorem get_sampleHome {key : Bytes} (hmember : ¬ lit "member/" <+: key) (hgroup : ¬ lit "group/" <+: key) :
    sampleHome.store.get key = none := by
  have hne : ∀ p, key ≠ memberKey (sampleGroup 7).id p := by
    rintro p rfl
    refine hmember ?_
    unfold memberKey memberPrefix
    rw [List.append_assoc, List.append_assoc]
    exact List.prefix_append _ _
  have hne' : key ≠ groupKey (sampleGroup 7).id := by
    rintro rfl
    exact hgroup (List.prefix_append _ _)
  unfold sampleHome sampleNode NodeState.putKey
  simp only
  rw [SortedMap.get_put_ne _ (hne _), SortedMap.get_put_ne _ (hne _), SortedMap.get_put_ne _ hne']
  rfl

/-- The node can upload. -/
theorem sampleHome_ready :
    sampleService.Ready sampleLibs ⟨(sampleGroup 7).id, modeShared⟩ sampleHome (sampleGroup 7) where
  resolved := by
    have hgid : ¬ (sampleGroup 7).id = [] := by decide
    have halice : groupKey (sampleGroup 7).id ≠ memberKey (sampleGroup 7).id (lit "alice") := by
      decide
    have hbob : groupKey (sampleGroup 7).id ≠ memberKey (sampleGroup 7).id (lit "bob") := by decide
    have hgroup := group_sampleNode
    unfold NodeState.resolved
    rw [if_neg hgid]
    unfold NodeState.group at hgroup ⊢
    unfold sampleHome NodeState.putKey
    rw [SortedMap.get_put_ne _ hbob, SortedMap.get_put_ne _ halice]
    exact hgroup
  length_id := by decide
  mode := .inl ⟨.inr rfl, rfl⟩
  dataShards_pos := by decide
  parityShards_pos := by decide
  new_eq := rfl
  enough := by
    have hsub : [sampleMember (lit "alice"), sampleMember (lit "bob")] ⊆
        sampleHome.members sampleLibs (sampleGroup 7).id := by
      intro mem hmem
      rw [mem_members_sampleHome]
      simpa using hmem
    have hnodup : [sampleMember (lit "alice"), sampleMember (lit "bob")].Nodup := by decide
    have hle := (hnodup.subperm hsub).length_le
    change (2 : ℤ) ≤ _
    exact_mod_cast hle
  decodes mem _ := ⟨mem.peerID, rfl⟩

/-! ## A body that is cut off -/

section Cut

variable {L : Libs} {svc : Service} {opts : PutOptions} {s : NodeState} {g : Group}
  {filename : Bytes} {body : Body}
variable {evs : List NodeEvent}

/-- The group that an upload from a state reads is the one that the node has. -/
theorem GroupRead.resolved {α : Type} {p p' : NodeM α} {s' : NodeState}
    (hread : GroupRead L opts.groupID evs g) (h : Steps nodeEnv s p evs s' p') :
    s.resolved L opts.groupID g := by
  unfold NodeState.resolved
  rcases hread with ⟨hgid, raw, hhead, hdec⟩ | ⟨hgid, pairs, hhead, hdec⟩
  · rw [if_neg hgid]
    obtain ⟨v, hstep⟩ := h.head hhead
    exact NodeState.group_eq_some.mpr ⟨raw, NodeState.get_of_step hstep, hdec⟩
  · rw [if_pos hgid]
    obtain ⟨v, hstep⟩ := h.head hhead
    rw [← hdec, NodeState.scan_of_step hstep]

/-- A node has one group for an id. -/
theorem NodeState.resolved_unique {gid : Bytes} {g' : Group} (h : s.resolved L gid g)
    (h' : s.resolved L gid g') : g = g' := by
  unfold NodeState.resolved at h h'
  split_ifs at h h'
  · exact List.head_eq_of_cons_eq (h.symm.trans h')
  · exact Option.some.inj (h.symm.trans h')

/-- A `Put` that returns has uploaded the body to the group that the node has. -/
theorem uploaded_of_put (hR : L.rs.Mds) (hA : L.aead.Correct) {s' : NodeState}
    {m : Manifest} (hput : Steps nodeEnv s (put L svc filename body opts) evs s' (ret m)) :
    ∃ u : Upload, evs = u.before ++ u.during ++ u.after ∧ u.Made L svc filename body opts m ∧
      s.resolved L opts.groupID u.group := by
  have hup := wp_steps (hput.traced _ []) (wp_put svc hR hA filename body opts s)
  obtain ⟨u, hevs, hu⟩ : Uploaded L svc filename body opts ([] ++ evs) m := hup
  rw [List.nil_append] at hevs
  refine ⟨u, hevs, hu, GroupRead.resolved ?_ hput⟩
  rw [hevs, List.append_assoc]
  exact hu.group_read.append _

/-- An upload that comes to its manifest has seen one of two ends of a body with some bytes. -/
theorem Uploaded.ended {m : Manifest} (h : Uploaded L svc filename body opts evs m) :
    (body.term = .eof ∨ body.term = .unexpectedEOF) ∧ body.data ≠ [] := by
  obtain ⟨u, -, hu⟩ := h
  refine ⟨?_, hu.data_ne_nil⟩
  have := hu.ended
  simpa [endOfFile] using this

/-- At a node that can upload, a body with another end than `io.EOF` makes `Put` fail without a
manifest stored, exactly if the end is not `io.ErrUnexpectedEOF` or comes before any byte. -/
theorem put_refuses_cut_body_iff (hR : L.rs.Mds) (hA : L.aead.Correct)
    (hready : svc.Ready L opts s g) (filename : Bytes) (body : Body) :
    (body.term ≠ .eof → ∀ evs s' p', Steps nodeEnv s (put L svc filename body opts) evs s' p' →
      (∀ fileID raw r, (⟨.storePut (manifestKey fileID) raw, r⟩ : NodeEvent) ∉ evs) ∧
      (∀ m, p' ≠ ret m) ∧ (∀ k, p' ≠ .op .panic k)) ↔
    (body.term ≠ .unexpectedEOF ∨ body.data = []) := by
  constructor
  · intro h
    by_contra hcut
    obtain ⟨hterm, hdata⟩ := not_or.mp hcut
    have hterm : body.term = .unexpectedEOF := not_not.mp hterm
    -- A body that was cut off is uploaded as if it were whole.
    have hnet : ∀ mem ∈ s.members L g.id, Deliverable L svc allAck mem.peerID := by
      intro mem hmem
      obtain ⟨pid, hpid⟩ := hready.decodes mem hmem
      exact ⟨pid, hpid, .inl fun _ => rfl⟩
    obtain ⟨evs, s', m, hsteps, -⟩ := exists_upload hR hA hready hnet
      (by rw [hterm]; rfl) hdata filename
    exact (h (by simp [hterm]) evs s' _ hsteps.of_calm).2.1 m rfl
  · intro hcut hterm evs s' p' hsteps
    have hwp := wp_put (E := nodeEnv) svc hR hA filename body opts s
    -- An upload that comes to its manifest has seen one of the two ends.
    have hnever : ∀ evs m, ¬ Uploaded L svc filename body opts evs m := by
      intro evs m hup
      obtain ⟨hend, hdata⟩ := hup.ended
      rcases hcut with hcut | hcut
      · exact hend.elim hterm hcut
      · exact hdata hcut
    have hrest := wp_steps (hsteps.traced _ []) hwp
    refine ⟨?_, ?_, ?_⟩
    · intro fileID raw r he
      obtain ⟨v, pre, hguard⟩ := wp_traced_mem hwp hsteps he
      rcases hguard with ho | ⟨m, hup, -⟩ | ⟨fileID', hkey⟩
      · exact ho
      · exact hnever _ m hup
      · exact manifestKey_ne_pnameKey _ _ hkey
    · rintro m rfl
      exact hnever _ m hrest
    · rintro k rfl
      rcases hrest.1 with ho | ⟨g', hread, hlt⟩
      · exact ho
      · rw [List.nil_append] at hread
        have hg := NodeState.resolved_unique hready.resolved (hread.resolved hsteps)
        have := hready.length_id
        rw [hg] at this
        omega

end Cut

/-- A body of four bytes whose connection is cut after three of them. -/
def sampleCutBody : Body := ⟨[[1, 2, 3]], .unexpectedEOF, false⟩

/-- `Put` takes the three bytes for the whole file. -/
theorem sampleHome_accepts_cut_body :
    sampleCutBody.term = .unexpectedEOF ∧
    ∃ evs s' m, Steps nodeEnv sampleHome (put sampleLibs sampleService (lit "film") sampleCutBody
      ⟨(sampleGroup 7).id, modeShared⟩) evs s' (ret m) := by
  have hnet : ∀ mem ∈ sampleHome.members sampleLibs (sampleGroup 7).id,
      Deliverable sampleLibs sampleService allAck mem.peerID :=
    fun mem _ => ⟨mem.peerID, rfl, .inl fun _ => rfl⟩
  obtain ⟨evs, s', m, hsteps, -⟩ := exists_upload sampleRs_mds sampleAead_correct sampleHome_ready
    hnet (show endOfFile (some sampleCutBody.term) = true from rfl)
    (show sampleCutBody.data ≠ [] by decide) (lit "film")
  exact ⟨rfl, evs, s', m, hsteps.of_calm⟩

/-- A body that ends in another error is refused. -/
theorem sampleHome_refuses_failed_body :
    (⟨[[1, 2, 3]], .msg (lit "connection reset"), false⟩ : Body).term ≠ .eof ∧
    ¬ ∃ evs s' m, Steps nodeEnv sampleHome (put sampleLibs sampleService (lit "film")
      ⟨[[1, 2, 3]], .msg (lit "connection reset"), false⟩ ⟨(sampleGroup 7).id, modeShared⟩) evs s'
      (ret m) := by
  refine ⟨by simp, ?_⟩
  rintro ⟨evs, s', m, hsteps⟩
  have h := (put_refuses_cut_body_iff sampleRs_mds sampleAead_correct sampleHome_ready (lit "film")
    ⟨[[1, 2, 3]], .msg (lit "connection reset"), false⟩).mpr (.inl (by simp))
  exact (h (by simp) evs s' _ hsteps).2.1 m rfl

/-! ## Shards at their holders -/

section Holders

variable (L : Libs) (svc : Service)

/-- Whether a delivery failed. -/
def deliveryFailed : NodeEvent → Bool
  | ⟨.blockPut _ _, r⟩ => !r.isOk
  | ⟨.request _ _, r⟩ => !acknowledged r
  | _ => false

/-- Whether a delivery has stored a shard at a holder: the local block store took it, or the remote
acknowledged it. -/
def storedAt (h id : Bytes) : NodeEvent → Bool
  | ⟨.blockPut id' _, r⟩ => h = svc.self && id' = id && r.isOk
  | ⟨.request pid req, r⟩ =>
    L.peerDecode h = .ok pid && req.op = .putShard && req.id = id && acknowledged r
  | _ => false

/-- The deliveries of the stripe of an index: as many for each stripe as it has shards. -/
def stripeDeliveries (evs : List NodeEvent) (j : ℕ) : List NodeEvent :=
  ((evs.filter isDelivery).drop (j * svc.params.total.toNat)).take svc.params.total.toNat

/-- The number of slots of a stripe whose shard has been stored at the slot's holder. -/
def storedSlots (holders shardIDs : List Bytes) (deliveries : List NodeEvent) : ℕ :=
  ((holders.zip shardIDs).zip deliveries).countP fun x => storedAt L svc x.1.1 x.1.2 x.2

/-- The part of the data that the stripe of an index holds. -/
def Service.chunkAt (data : Bytes) (j : ℕ) : Bytes :=
  (data.drop (j * svc.stripeSize)).take svc.stripeSize

/-- The number of stripes of a body. -/
def stripeCount (body : Body) : ℕ := (body.data.length + svc.stripeSize - 1) / svc.stripeSize

variable {L svc}
variable {evs : List NodeEvent} {oks : List Bool} {key : Bytes} {holders : List Bytes} {idx : ℕ}

/-- The sealed part of a stripe can be allocated. -/
theorem Service.allocatable_sealed (hA : L.aead.Correct) {nonce : Bytes} (hn : nonce.length = gcmNonceSize)
    (key data : Bytes) (j : ℕ) : Allocatable (sealedAES L key nonce (svc.chunkAt data j)).length := by
  have hle := svc.stripeSize_le.2
  have hchunk : (svc.chunkAt data j).length ≤ svc.stripeSize := List.length_take_le _ _
  rw [length_sealedAES hA hn]
  exact ⟨by omega, by push_cast; omega⟩

/-- Shipping a shard is one delivery. -/
theorem Shipped.delivery {h sh : Bytes} {ok : Bool} (hship : Shipped L svc h sh ok evs) :
    ∃ e, evs.filter isDelivery = [e] ∧ storedAt L svc h (hashOf sh) e = ok ∧
      deliveryFailed e = !ok := by
  cases hship with
  | here hself =>
    exact ⟨_, rfl, by simp [storedAt, hself, Except.isOk, Except.toBool], rfl⟩
  | remote hself hpid hresp =>
    exact ⟨_, rfl, by simp [storedAt, hpid, hresp, acknowledged],
      by simp [deliveryFailed, hresp, acknowledged]⟩
  | spooled hself hpid hr =>
    exact ⟨_, rfl, by simp [storedAt, hr], by simp [deliveryFailed, hr]⟩

/-- Shipping shards is one delivery for each of them, in the order of the slots. -/
theorem ShippedAll.deliveries {hs shs : List Bytes} (h : ShippedAll L svc hs shs oks evs) :
    (evs.filter isDelivery).length = shs.length ∧ oks.length = shs.length ∧
      storedSlots L svc hs (shs.map hashOf) (evs.filter isDelivery) = oks.count true ∧
      (evs.filter isDelivery).countP deliveryFailed = oks.count false := by
  induction h with
  | nil hs => simp [storedSlots]
  | @cons h sh ok hs shs oks evs evs' hship hrest ih =>
    obtain ⟨e, he, hstored, hfailed⟩ := hship.delivery
    obtain ⟨hlen, hoks, hcount, hcount'⟩ := ih
    unfold storedSlots at hcount ⊢
    rw [List.filter_append, he]
    refine ⟨by simp [hlen], by simp [hoks], ?_, ?_⟩
    · simp only [List.map_cons, List.singleton_append, List.zip_cons_cons, List.countP_cons, hcount,
        hstored, List.count_cons]
      cases ok <;> rfl
    · simp only [List.singleton_append, List.countP_cons, hcount', hfailed, List.count_cons]
      cases ok <;> rfl

/-- A stripe has one delivery for each of its shards, and these are as many as there are slots. -/
theorem StripeUploaded.deliveries (hR : L.rs.Mds) (hA : L.aead.Correct) {chunk : Bytes} {st : Stripe}
    (h : StripeUploaded L svc key holders idx chunk st oks evs) :
    ((evs.filter isDelivery).length : ℤ) = svc.params.total ∧
      (oks.length : ℤ) = svc.params.total ∧
      storedSlots L svc holders st.shardIDs (evs.filter isDelivery) = oks.count true ∧
      (evs.filter isDelivery).countP deliveryFailed = oks.count false := by
  cases h with
  | @mk nonce shards oks evs hencode hship =>
    have hne : sealedAES L key nonce.1 chunk ≠ [] := sealedAES_ne_nil hA nonce.2 _
    obtain ⟨-, -, -, hcode⟩ := Params.encodes_of_encode hR hne hencode
    obtain ⟨hlen, hoks, hcount, hcount'⟩ := hship.deliveries
    have htotal : (shards.length : ℤ) = svc.params.total := hcode.length_eq
    exact ⟨by rw [← htotal]; exact congrArg _ hlen, by rw [hoks, htotal], hcount, hcount'⟩

/-- The stripe of an index holds its part of the data, and the deliveries of that index are the ones
made for it. -/
theorem StripesUploaded.stripe (hR : L.rs.Mds) (hA : L.aead.Correct) {data : Bytes} {sts : List Stripe}
    {okss : List (List Bool)} (h : StripesUploaded L svc key holders idx data sts okss evs) {j : ℕ}
    {st : Stripe} (hj : sts[j]? = some st) :
    ∃ oks evs', StripeUploaded L svc key holders (idx + j) (svc.chunkAt data j) st oks evs' ∧
      stripeDeliveries svc evs j = evs'.filter isDelivery := by
  induction h generalizing j with
  | nil idx => simp at hj
  | @cons idx data st' sts oks okss evs evs' hdata hstripe hrest ih =>
    have hlen : (evs.filter isDelivery).length = svc.params.total.toNat := by
      have := (hstripe.deliveries hR hA).1
      omega
    cases j with
    | zero =>
      obtain rfl : st' = st := by simpa using hj
      refine ⟨oks, evs, ?_, ?_⟩
      · unfold Service.chunkAt
        rw [Nat.zero_mul, List.drop_zero]
        exact hstripe
      · unfold stripeDeliveries
        rw [Nat.zero_mul, List.drop_zero, List.filter_append, ← hlen, List.take_left]
    | succ j =>
      obtain ⟨oks', evs'', hstripe', hdel⟩ := ih (j := j) (by simpa using hj)
      refine ⟨oks', evs'', ?_, ?_⟩
      · have hchunk : svc.chunkAt (data.drop svc.stripeSize) j = svc.chunkAt data (j + 1) := by
          unfold Service.chunkAt
          rw [List.drop_drop, Nat.succ_mul, Nat.add_comm]
        rw [← hchunk, show idx + (j + 1) = idx + 1 + j by omega]
        exact hstripe'
      · rw [← hdel]
        unfold stripeDeliveries
        rw [List.filter_append, Nat.succ_mul, Nat.add_comm, ← List.drop_drop, ← hlen,
          List.drop_left]

/-- There is a stripe for each part of the data. -/
theorem StripesUploaded.length_eq {data : Bytes} {sts : List Stripe} {okss : List (List Bool)}
    (h : StripesUploaded L svc key holders idx data sts okss evs) :
    sts.length = (data.length + svc.stripeSize - 1) / svc.stripeSize := by
  have hpos := svc.stripeSize_pos
  induction h with
  | nil idx =>
    rw [List.length_nil, List.length_nil, Nat.zero_add]
    exact (Nat.div_eq_of_lt (by omega)).symm
  | @cons idx data st sts oks okss evs evs' hdata hstripe hrest ih =>
    have hlen := List.length_pos_iff.mpr hdata
    rw [List.length_cons, ih, List.length_drop]
    by_cases hle : svc.stripeSize ≤ data.length
    · rw [← Nat.add_div_right _ hpos]
      congr 1
      omega
    · have h1 : data.length - svc.stripeSize + svc.stripeSize - 1 < svc.stripeSize := by omega
      have h2 : data.length + svc.stripeSize - 1 = (data.length - 1) + svc.stripeSize := by omega
      rw [Nat.div_eq_of_lt h1, h2, Nat.add_div_right _ hpos, Nat.div_eq_of_lt (by omega)]

/-- A count of outcomes. -/
theorem dataShards_le_count_iff {p : Params} (h : (oks.length : ℤ) = p.total) :
    p.dataShards ≤ oks.count true ↔ (oks.count false : ℤ) ≤ p.parityShards := by
  have hsum := oks.count_true_add_count_false
  unfold Params.total at h
  omega

/-- After an upload that succeeds, at least `DataShards` shards of every stripe are at their holders,
exactly if of the deliveries of each stripe at most `ParityShards` failed. -/
theorem put_readable_iff (hR : L.rs.Mds) (hA : L.aead.Correct) {s s' : NodeState}
    {filename : Bytes} {body : Body} {opts : PutOptions} {evs : List NodeEvent} {m : Manifest}
    (h : Steps nodeEnv s (put L svc filename body opts) evs s' (ret m)) :
    (∀ j st, m.stripes[j]? = some st →
      m.dataShards ≤ storedSlots L svc m.holders st.shardIDs (stripeDeliveries svc evs j)) ↔
    ∀ j < stripeCount svc body,
      ((stripeDeliveries svc evs j).countP deliveryFailed : ℤ) ≤ svc.params.parityShards := by
  have hup := wp_steps (h.traced _ []) (wp_put (E := nodeEnv) svc hR hA filename body opts s)
  obtain ⟨u, hevs, hu⟩ : Uploaded L svc filename body opts ([] ++ evs) m := hup
  rw [List.nil_append] at hevs
  -- Only the operations of the stripes deliver shards.
  have hdel : ∀ j, stripeDeliveries svc evs j = stripeDeliveries svc u.during j := by
    intro j
    unfold stripeDeliveries
    rw [hevs, List.filter_append, List.filter_append, hu.before_deliveries, hu.after_deliveries,
      List.nil_append, List.append_nil]
  have hiff : ∀ j st, m.stripes[j]? = some st →
      (m.dataShards ≤ storedSlots L svc m.holders st.shardIDs (stripeDeliveries svc evs j) ↔
        ((stripeDeliveries svc evs j).countP deliveryFailed : ℤ) ≤ svc.params.parityShards) := by
    intro j st hj
    obtain ⟨oks, evs', hstripe, hevs'⟩ := hu.stripes.stripe hR hA hj
    obtain ⟨-, hoks, hstored, hfailed⟩ := hstripe.deliveries hR hA
    rw [hdel, hevs', hstored, hfailed, hu.dataShards_eq]
    exact dataShards_le_count_iff hoks
  have hcount : m.stripes.length = stripeCount svc body := hu.stripes.length_eq
  constructor
  · intro hall j hj
    have hj' : j < m.stripes.length := by omega
    have hst := List.getElem?_eq_getElem hj'
    exact (hiff j _ hst).mp (hall j _ hst)
  · intro hall j st hj
    have hj' : j < m.stripes.length := (List.getElem?_eq_some_iff.mp hj).1
    exact (hiff j st hj).mpr (hall j (by omega))

/-- All text of the manifest of a shared file is UTF-8 but for the file's name. -/
theorem Upload.Made.validText_eq (hR : L.rs.Mds) (hA : L.aead.Correct) {u : Upload} {filename : Bytes}
    {body : Body} {opts : PutOptions} {m : Manifest} (hu : u.Made L svc filename body opts m)
    (hmode : m.mode = modeShared) (hself : validUTF8 svc.self = true)
    (hgroup : validUTF8 u.group.id = true) (hholders : ∀ h ∈ m.holders, validUTF8 h = true) :
    m.validText = validUTF8 filename := by
  have hname : m.filename = filename := by
    rcases hu.wrapped with ⟨-, -, nonce, -, hwrap⟩ | ⟨hprivate, -⟩
    · exact congrArg (fun x => x.2.1) hwrap
    · exact absurd (hmode.symm.trans hprivate) (by decide)
  obtain ⟨fid, -, hfile⟩ := hu.fileID_eq
  have hhs : m.holders.all validUTF8 = true := List.all_eq_true.mpr hholders
  have hids : m.stripes.all (fun s => s.shardIDs.all validUTF8) = true := by
    simp only [List.all_eq_true]
    intro st hst id hid
    obtain ⟨j, hj⟩ := List.mem_iff_getElem?.mp hst
    obtain ⟨oks, evs, hstripe, -⟩ := hu.stripes.stripe hR hA hj
    cases hstripe with
    | mk hencode hship =>
      obtain ⟨sh, -, rfl⟩ := List.mem_map.mp hid
      exact validUTF8_hexEncode _
  have hshared : validUTF8 modeShared = true := by decide
  unfold Manifest.validText
  rw [hhs, hids, hfile, validUTF8_hexEncode, hu.group_eq, hgroup, hname, hu.owner_eq, hself, hmode,
    hshared]
  simp

end Holders

/-! ## Uploads from the sample node -/

/-- An upload from the sample node, to peers that answer as `net` says. -/
structure SampleUpload (net : Bytes → Request → Except GoErr Response) (filename : Bytes) (body : Body)
    (evs : List NodeEvent) (s' : NodeState) (m : Manifest) (u : Upload) : Prop where
  steps : Steps (calmEnv net) sampleHome (put sampleLibs sampleService filename body
    ⟨(sampleGroup 7).id, modeShared⟩) evs s' (ret m)
  evs_eq : evs = u.before ++ u.during ++ u.after
  made : u.Made sampleLibs sampleService filename body ⟨(sampleGroup 7).id, modeShared⟩ m
  group_eq : u.group = sampleGroup 7
  holders : ∀ h ∈ m.holders, h = lit "alice" ∨ h = lit "bob"
  stored : s'.store.get (manifestKey m.fileID) = some (sampleLibs.cbor.manifest.marshal m)

section Sample

variable {net : Bytes → Request → Except GoErr Response} {filename : Bytes} {body : Body}
  {evs : List NodeEvent} {s' : NodeState} {m : Manifest} {u : Upload}

/-- The sample node can upload if shards for its peers can be delivered or spooled. -/
theorem exists_sampleUpload
    (hnet : ∀ p, p = lit "alice" ∨ p = lit "bob" → Deliverable sampleLibs sampleService net p)
    (hend : endOfFile (some body.term) = true) (hdata : body.data ≠ []) (filename : Bytes) :
    ∃ evs s' m u, SampleUpload net filename body evs s' m u := by
  have hpeer : ∀ mem ∈ sampleHome.members sampleLibs (sampleGroup 7).id,
      mem.peerID = lit "alice" ∨ mem.peerID = lit "bob" := by
    intro mem hmem
    rcases mem_members_sampleHome.mp hmem with rfl | rfl
    · exact .inl rfl
    · exact .inr rfl
  obtain ⟨evs, s', m, hsteps, hholders, hstored⟩ := exists_upload sampleRs_mds sampleAead_correct
    sampleHome_ready (fun mem hmem => hnet _ (hpeer mem hmem)) hend hdata filename
  obtain ⟨u, hevs, hu, hgroup⟩ := uploaded_of_put sampleRs_mds sampleAead_correct hsteps.of_calm
  refine ⟨evs, s', m, u, hsteps, hevs, hu,
    NodeState.resolved_unique hgroup sampleHome_ready.resolved, ?_, hstored⟩
  intro h hh
  obtain ⟨mem, hmem, rfl⟩ := hholders h hh
  exact hpeer mem hmem

/-- Shards can be delivered to peers that acknowledge everything. -/
theorem deliverable_allAck (p : Bytes) : Deliverable sampleLibs sampleService allAck p :=
  ⟨p, rfl, .inl fun _ => rfl⟩

namespace SampleUpload

variable (h : SampleUpload net filename body evs s' m u)

include h

/-- The upload returned the manifest. -/
theorem put : Steps nodeEnv sampleHome (put sampleLibs sampleService filename body
    ⟨(sampleGroup 7).id, modeShared⟩) evs s' (ret m) := h.steps.of_calm

/-- The key is wrapped by that of the group. -/
theorem wrapped : m.mode = modeShared ∧ ∃ nonce : Bytes, nonce.length = gcmNonceSize ∧
    m.wrappedKey = sealedAES sampleLibs (sampleGroup 7).sharedKey nonce u.key := by
  rcases h.made.wrapped with ⟨hmode, -, nonce, hnonce, hwrap⟩ | ⟨-, hlen, -⟩
  · rw [h.group_eq] at hwrap
    exact ⟨hmode, nonce, hnonce, congrArg Prod.fst hwrap⟩
  · exact absurd hlen (by decide)

/-- The manifest is text if the file's name is. -/
theorem validText_eq : m.validText = validUTF8 filename := by
  refine h.made.validText_eq sampleRs_mds sampleAead_correct h.wrapped.1 (by decide) ?_ ?_
  · rw [h.group_eq]
    decide
  · intro p hp
    rcases h.holders p hp with rfl | rfl <;> decide

/-- There are two holders. -/
theorem length_holders : m.holders.length = 2 := by
  have hlen := h.made.length_holders
  have htotal : sampleService.params.total = 2 := rfl
  omega

end SampleUpload

end Sample

/-- A body of three bytes. -/
def sampleBody : Body := ⟨[[1, 2, 3]], .eof, false⟩

/-- A body of two stripes of the sample service. -/
def twoStripes : Body := ⟨[[1, 2, 3, 4, 5, 6, 7, 8]], .eof, false⟩

/-- Peers that are not reached. -/
def noneReached : Bytes → Request → Except GoErr Response :=
  fun _ _ => .error (.msg (lit "failed to dial"))

/-- Shards for peers that are not reached go to the spool. -/
theorem deliverable_noneReached (p : Bytes) (hp : p = lit "alice" ∨ p = lit "bob") :
    Deliverable sampleLibs sampleService noneReached p := by
  refine ⟨p, rfl, .inr ⟨rfl, ?_⟩⟩
  rcases hp with rfl | rfl <;> decide

/-- With all peers out of reach and everything in the spool, `Put` reports success while no shard is
at its holder. -/
theorem sampleHome_success_unreadable :
    sampleService.spool = true ∧
    ∃ evs s' m st, Steps nodeEnv sampleHome (put sampleLibs sampleService (lit "film") sampleBody
      ⟨(sampleGroup 7).id, modeShared⟩) evs s' (ret m) ∧ m.stripes[0]? = some st ∧
      m.dataShards = 1 ∧
      storedSlots sampleLibs sampleService m.holders st.shardIDs
        (stripeDeliveries sampleService evs 0) = 0 := by
  obtain ⟨evs, s', m, u, hup⟩ := exists_sampleUpload deliverable_noneReached
    (show endOfFile (some sampleBody.term) = true from rfl) (show sampleBody.data ≠ [] by decide)
    (lit "film")
  have hlen : 0 < m.stripes.length := by
    rw [hup.made.stripes.length_eq]
    decide
  refine ⟨rfl, evs, s', m, _, hup.put, List.getElem?_eq_getElem hlen, hup.made.dataShards_eq, ?_⟩
  unfold storedSlots
  rw [List.countP_eq_zero]
  rintro ⟨⟨h, id⟩, e⟩ hmem hstored
  obtain ⟨hslot, he⟩ := List.of_mem_zip hmem
  -- The uploader is no holder, so that nothing is stored locally.
  have hself : h ≠ sampleService.self := by
    rcases hup.holders h (List.of_mem_zip hslot).1 with rfl | rfl <;> decide
  have he' : e ∈ evs := List.mem_of_mem_filter (List.mem_of_mem_drop (List.mem_of_mem_take he))
  obtain ⟨v, v', -, hcalm⟩ := hup.steps.exists_step e he'
  obtain ⟨o, r⟩ := e
  cases o with
  | blockPut id' data => simp [storedAt, hself] at hstored
  | request pid req =>
    obtain rfl : r = noneReached pid req := hcalm
    simp [storedAt, noneReached, acknowledged] at hstored
  | _ => simp [storedAt] at hstored

/-- With all peers in reach, every stripe is at its holders. -/
theorem sampleHome_success_readable :
    ∃ evs s' m, Steps nodeEnv sampleHome (put sampleLibs sampleService (lit "film") sampleBody
      ⟨(sampleGroup 7).id, modeShared⟩) evs s' (ret m) ∧
      ∀ j st, m.stripes[j]? = some st → m.dataShards ≤
        storedSlots sampleLibs sampleService m.holders st.shardIDs
          (stripeDeliveries sampleService evs j) := by
  obtain ⟨evs, s', m, u, hup⟩ := exists_sampleUpload (fun p _ => deliverable_allAck p)
    (show endOfFile (some sampleBody.term) = true from rfl) (show sampleBody.data ≠ [] by decide)
    (lit "film")
  refine ⟨evs, s', m, hup.put, ?_⟩
  refine (put_readable_iff sampleRs_mds sampleAead_correct hup.put).mpr fun j _ => ?_
  have hnone : (stripeDeliveries sampleService evs j).countP deliveryFailed = 0 := by
    rw [List.countP_eq_zero]
    intro e he hfailed
    have he' : e ∈ evs := List.mem_of_mem_filter (List.mem_of_mem_drop (List.mem_of_mem_take he))
    obtain ⟨v, v', -, hcalm⟩ := hup.steps.exists_step e he'
    obtain ⟨o, r⟩ := e
    cases o with
    | blockPut id' data =>
      obtain rfl : r = .ok () := hcalm
      simp [deliveryFailed, Except.isOk, Except.toBool] at hfailed
    | request pid req =>
      obtain rfl : r = allAck pid req := hcalm
      simp [deliveryFailed, allAck, acknowledged] at hfailed
    | _ => simp [deliveryFailed] at hfailed
  rw [hnone]
  decide

end FnShare
