import FnShare.File.Reading
import FnShare.File.Open
import FnShare.Lib.Interleave

/-!
# What is read is what was put

`readAt_put` closes the circle from `Put` to `ReadAt`. The file was put by a service, from a body read in
whatever parts. Its manifest may have been through the store, the network and repairs since (`Version`).
The reader was opened by a node that holds the group's key or is the owner (`Opened`). Its cache is shared
with other reads, of this file and of others, that were made before in any order or are still under way
(`readers`). If then enough slots of the stripes in question yield their shard, the read returns the bytes
of the file.
-/

namespace FnShare

open Prog

/-! ## Environments of a read -/

/-- Whatever can be answered has an answer. -/
theorem NodeOp.nonempty_ans {o : NodeOp} (ho : Answerable o) : Nonempty o.Ans := by
  cases o with
  | now => exact ⟨(0 : ℤ)⟩
  | storeIterate pre => exact ⟨([], none)⟩
  | isOnline peer => exact ⟨false⟩
  | record _ _ _ | cachePut _ _ _ => exact ⟨()⟩
  | cacheGet fileID idx => exact ⟨(none : Option Bytes)⟩
  | rangeMap keys => exact ⟨⟨keys, .refl _⟩⟩
  | connected => exact ⟨([] : List Bytes)⟩
  | panic => exact ho.elim
  | _ => exact ⟨.error .eof⟩

/-- The environment of a read that is given certain answers. -/
def answerEnv (answers : (o : NodeOp) → o.Ans → Prop) : Env NodeSig StripeCache where
  step := cacheStep answers
  guard _ o := Answerable o

/-- A read gets the answers that it is given. -/
theorem readsFrom_answerEnv (answers : (o : NodeOp) → o.Ans → Prop) (I : StripeCache → Prop) :
    ReadsFrom answers I (answerEnv answers) where
  step hc hs := ⟨_, hc, hs⟩
  fetch {_ o} _ ho := by
    cases o with
    | blockGet _ | request _ _ | record _ _ _ => trivial
    | _ => exact ho.elim
  guard _ ho _ := ho

/-- The cache always answers, and so does the rest if it is given an answer to everything. -/
theorem answerEnv_answers {answers : (o : NodeOp) → o.Ans → Prop} (h : ∀ o, Answerable o → ∃ r, answers o r)
    (c : StripeCache) {o : NodeOp} (ho : Answerable o) : ∃ r c', (answerEnv answers).step c o r c' := by
  cases o with
  | cacheGet fileID idx =>
    obtain ⟨key, hkey⟩ := exists_cacheKey fileID ho
    exact ⟨_, _, key, hkey, rfl, rfl⟩
  | cachePut fileID idx data =>
    obtain ⟨key, hkey⟩ := exists_cacheKey fileID ho
    exact ⟨(), _, key, hkey, rfl⟩
  | _ =>
    obtain ⟨r, hr⟩ := h _ ho
    exact ⟨r, c, hr, rfl⟩

/-! ## Where the shards come from -/

/-- Where the shards come from during a read. -/
structure Source where
  /-- The answers of the local block store. -/
  blocks : Bytes → Except GoErr Bytes
  /-- The answers of the peers to requests for a shard. -/
  peers : Bytes → Bytes → Except GoErr Response

/-- The answers that a source gives. -/
def Source.answers (src : Source) : (o : NodeOp) → o.Ans → Prop
  | .blockGet id, r => r = src.blocks id
  | .request pid req, r => r = src.peers pid req.id
  | _, _ => True

/-- What a slot yields: the shard that the local block store has, or what the holder sends. -/
def Source.yields (L : Libs) (node : Service) (src : Source) (shardID holder : Bytes) :
    Option Bytes :=
  match src.blocks shardID with
  | .ok data => some data
  | .error _ =>
    if holder = node.self then none
    else
      match L.peerDecode holder with
      | .error _ => none
      | .ok pid =>
        match src.peers pid shardID with
        | .error _ => none
        | .ok resp => if resp.ok then some resp.body else none

/-- What the slots of a stripe yield. -/
def slotYields (L : Libs) (node : Service) (src : Source) (r : Reader) (st : Stripe) :
    List (Option Bytes) :=
  (slots r st).map fun slot => src.yields L node slot.1 slot.2

/-- At least `DataShards` slots of a stripe yield their original shard, and the others nothing. -/
def Readable (L : Libs) (node : Service) (src : Source) (orig : ℕ → List Bytes) (r : Reader) (j : ℕ) :
    Prop :=
  ∀ st, r.m.stripes[j]? = some st → SomeOf (orig j) (slotYields L node src r st) ∧
    r.m.dataShards ≤ present (slotYields L node src r st)

/-- The environment of a read from a source. -/
def readEnv (src : Source) : Env NodeSig StripeCache := answerEnv src.answers

section Source

variable {L : Libs} {node : Service} {src : Source} {orig : ℕ → List Bytes} {r : Reader} {j : ℕ}

/-- What fetching a slot gives is what it yields. -/
theorem Fetched.eq_yields {shardID holder : Bytes} {g : Option Bytes}
    (h : Fetched L node src.answers shardID holder g) : g = src.yields L node shardID holder := by
  unfold Source.yields
  cases h with
  | here h =>
    obtain h : _ = src.blocks shardID := h
    rw [← h]
  | lost h hself =>
    obtain h : _ = src.blocks shardID := h
    rw [← h]
    exact (if_pos hself).symm
  | unknown h hself hpid =>
    obtain h : _ = src.blocks shardID := h
    rw [← h, hpid]
    exact (if_neg hself).symm
  | @remote _ pid _ h hself hpid hr hok =>
    obtain h : _ = src.blocks shardID := h
    obtain hr : _ = src.peers pid shardID := hr
    simp only [← h, hpid, ← hr, hok, if_neg hself, if_true]
  | @failed _ pid a h hself hpid hr ha =>
    obtain h : _ = src.blocks shardID := h
    obtain hr : _ = src.peers pid shardID := hr
    simp only [← h, hpid, ← hr, if_neg hself]
    cases a with
    | error e => rfl
    | ok resp =>
      have hno : ¬ resp.ok = true := by simpa [acknowledged] using ha
      simp only [if_neg hno]

/-- The shards fetched from the slots of a stripe are what they yield. -/
theorem eq_slotYields {sls : List (Bytes × Bytes)} {got : List (Option Bytes)}
    (h : List.Forall₂ (fun slot g => Fetched L node src.answers slot.1 slot.2 g) sls got) :
    got = sls.map fun slot => src.yields L node slot.1 slot.2 := by
  induction h with
  | nil => rfl
  | cons hg _ ih => rw [List.map_cons, ← hg.eq_yields, ← ih]

/-- A stripe that is readable gives its original shards and enough of them. -/
theorem Readable.enough (h : Readable L node src orig r j) :
    OnlyOriginals L node src.answers orig r j ∧ Enough L node src.answers r j := by
  constructor
  · intro st hst
    have hsome := (h st hst).1
    unfold SomeOf slotYields at hsome
    rw [List.forall₂_map_right_iff] at hsome
    refine (hsome.imp ?_).flip
    intro s slot hs g hg
    rw [hg.eq_yields]
    exact hs
  · intro st hst got hgot
    rw [eq_slotYields hgot]
    exact (h st hst).2

/-- A read gets its answers from the source. -/
theorem readsFrom_readEnv (src : Source) (I : StripeCache → Prop) :
    ReadsFrom src.answers I (readEnv src) :=
  readsFrom_answerEnv src.answers I

/-- Whatever can be answered is. -/
theorem readEnv_answers (src : Source) (c : StripeCache) (o : NodeOp) (ho : Answerable o) :
    ∃ r c', (readEnv src).step c o r c' := by
  have hanswers : ∀ o, Answerable o → ∃ r, src.answers o r := by
    intro o ho
    cases o with
    | blockGet id => exact ⟨_, rfl⟩
    | request peer req => exact ⟨_, rfl⟩
    | _ => exact ⟨(NodeOp.nonempty_ans ho).some, trivial⟩
  exact answerEnv_answers hanswers c ho

end Source

/-! ## Opening a reader -/

/-- A manifest as it may have become since it was made: read back from its encoding, and with holders
replaced by repairs. -/
def Manifest.Version (m m' : Manifest) : Prop :=
  ∃ t hs, hs.length = m.holders.length ∧ m' = { m with createdAt := t, holders := hs }

/-- What a node has stored as the manifest of a file, and what it is sent, is a version of it. -/
structure Genuine (L : Libs) (m : Manifest) (t : NodeState) (evs : List NodeEvent) : Prop where
  stored : ∀ raw m', t.store.get (manifestKey m.fileID) = some raw →
    L.cbor.manifest.unmarshal raw = .ok m' → m.Version m'
  sent : ∀ pid resp m', (⟨.request pid ⟨.getManifest, m.fileID, []⟩, .ok resp⟩ : NodeEvent) ∈ evs →
    L.cbor.manifest.unmarshal resp.body = .ok m' → m.Version m'

/-- The node is entitled to the file: of a shared one it has the key that the group had at the upload
from the state `s`, and a private one it has uploaded itself. -/
structure Entitled (L : Libs) (svc node : Service) (opts : PutOptions) (s t : NodeState) (m : Manifest) :
    Prop where
  shared : m.mode = modeShared → ∃ g g', s.resolved L opts.groupID g ∧
    t.group L m.groupID = some g' ∧ g'.sharedKey = g.sharedKey
  owner : m.mode = modePrivate → node.self = svc.self ∧ node.encPub = svc.encPub ∧
    L.box.pub node.encPriv = node.encPub ∧ node.encPriv.length = encPrivSize

/-- A reader of the file with the manifest `m`, opened by a node that is entitled to it. -/
def Opened (L : Libs) (svc node : Service) (opts : PutOptions) (s : NodeState) (m : Manifest)
    (r : Reader) : Prop :=
  ∃ t evs t', Steps nodeEnv t (openReader L node m.fileID) evs t' (ret r) ∧ Genuine L m t evs ∧
    Entitled L svc node opts s t m

/-! ## The file that a reader reads -/

/-- What an upload has done. -/
def Upload.events (u : Upload) : List NodeEvent := u.before ++ u.during ++ u.after

/-- The shard that a delivery carries. -/
def shardData : NodeEvent → Bytes
  | ⟨.blockPut _ data, _⟩ => data
  | ⟨.request _ req, _⟩ => req.body
  | _ => []

/-- The original shards of the stripe of an index: those that the upload delivered. -/
def originalShards (svc : Service) (evs : List NodeEvent) (j : ℕ) : List Bytes :=
  (stripeDeliveries svc evs j).map shardData

section File

variable {L : Libs} {svc node : Service} {filename : Bytes} {body : Body} {opts : PutOptions}
  {s s' : NodeState} {evs : List NodeEvent} {m : Manifest} {r : Reader}
variable {g : Group} {u : Upload}

/-- The deliveries of shards carry them. -/
theorem ShippedAll.shardData {hs shs : List Bytes} {oks : List Bool} {evs : List NodeEvent}
    (h : ShippedAll L svc hs shs oks evs) : (evs.filter isDelivery).map shardData = shs := by
  induction h with
  | nil hs => rfl
  | @cons h sh ok hs shs oks evs evs' hship hrest ih =>
    rw [List.filter_append, List.map_append, ih]
    cases hship <;> rfl

/-- What was wrapped is what a node unwraps that has the group's key of a shared file, or the owner's key pair
of a private one. -/
theorem Wrapped.unwrap (hA : L.aead.Correct) (hB : L.box.Correct) {mode key : Bytes}
    {r : Bytes × Bytes × Bool} (h : Wrapped L svc mode key filename g r) {m' : Manifest} {g' : Group}
    (hmode' : m'.mode = mode) (hwk : m'.wrappedKey = r.1)
    (hshared : mode = modeShared → g'.sharedKey = g.sharedKey)
    (howner : mode = modePrivate → node.encPub = svc.encPub ∧ L.box.pub node.encPriv = node.encPub ∧
      node.encPriv.length = encPrivSize)
    {key' : Bytes} (hkey : unwrapForMode L node m' g' = .ok key') : key' = key := by
  unfold unwrapForMode at hkey
  rw [hmode', hwk] at hkey
  rcases h with ⟨hmode, hlen, nonce, hnonce, rfl⟩ | ⟨hmode, hlen, ephemeral, nonce, -, rfl⟩
  · -- The group's key opens the wrapped one.
    have hne : ¬ mode = [] := by rw [hmode]; decide
    simp only [if_neg hne, if_pos hmode] at hkey
    rw [hshared hmode, if_neg (not_not.mpr hlen), openAES_sealedAES hA hlen hnonce] at hkey
    exact (Except.ok.inj hkey).symm
  · -- The owner's key pair opens the box.
    obtain ⟨hpub, hpair, hpriv⟩ := howner hmode
    have hne : ¬ mode = [] := by rw [hmode]; decide
    have hns : ¬ mode = modeShared := by rw [hmode]; decide
    simp only [if_neg hne, if_neg hns, if_pos hmode] at hkey
    split_ifs at hkey
    rw [hpub, ← hpub, ← hpair] at hkey
    have hlen' : (L.box.pub node.encPriv).length = encPubSize := by rw [hpair, hpub, hlen]
    rw [openAnonymous_boxSeal hB hlen' hpriv] at hkey
    exact (Except.ok.inj hkey).symm

/-- The key of an upload is what a node that is entitled to the file unwraps. -/
theorem Entitled.unwrap (hA : L.aead.Correct) (hB : L.box.Correct) {t : NodeState}
    (hu : u.Made L svc filename body opts m) (hgroup : s.resolved L opts.groupID u.group)
    (h : Entitled L svc node opts s t m) {m' : Manifest} (hgid : m'.groupID = m.groupID)
    (hmode' : m'.mode = m.mode) (hwk : m'.wrappedKey = m.wrappedKey)
    (hg : t.group L m'.groupID = some g) {key : Bytes} (hkey : unwrapForMode L node m' g = .ok key) :
    key = u.key := by
  refine hu.wrapped.unwrap hA hB hmode' hwk ?_ (fun hmode => (h.owner hmode).2) hkey
  intro hmode
  obtain ⟨g₁, g₂, hg₁, hg₂, hshared⟩ := h.shared hmode
  obtain rfl := NodeState.resolved_unique hgroup hg₁
  rw [hgid] at hg
  obtain rfl : g₂ = g := Option.some.inj (hg₂.symm.trans hg)
  exact hshared

/-- The shards of a stripe, as the upload made and delivered them. -/
theorem Upload.Made.stripe (hR : L.rs.Mds) (hA : L.aead.Correct)
    (hu : u.Made L svc filename body opts m) (hevs : evs = u.before ++ u.during ++ u.after) {j : ℕ}
    {st : Stripe} (hst : m.stripes[j]? = some st) : ∃ nonce : Bytes, nonce.length = gcmNonceSize ∧
      svc.params.encode L (sealedAES L u.key nonce (svc.chunkAt body.data j)) =
        .ok (originalShards svc evs j) ∧
      st.shardIDs = (originalShards svc evs j).map hashOf ∧
      st.ciphertextBytes = (sealedAES L u.key nonce (svc.chunkAt body.data j)).length := by
  obtain ⟨oks, evs'', hstripe, hdel⟩ := hu.stripes.stripe hR hA hst
  have horig : originalShards svc evs j = (evs''.filter isDelivery).map shardData := by
    unfold originalShards stripeDeliveries
    rw [← hdel, hevs, List.filter_append, List.filter_append, hu.before_deliveries,
      hu.after_deliveries, List.nil_append, List.append_nil]
    rfl
  rw [horig]
  cases hstripe with
  | @mk nonce shards oks evs'' hencode hship =>
    have hshards : ((⟨.rand gcmNonceSize, .ok nonce⟩ :: evs'').filter isDelivery).map shardData =
        shards := hship.shardData
    rw [hshards]
    exact ⟨nonce.1, nonce.2, hencode, rfl, rfl⟩

/-- A reader with a version of an upload's manifest and the upload's key is one of the file. -/
theorem Upload.Made.readerOf (hR : L.rs.Mds) (hA : L.aead.Correct)
    (hu : u.Made L svc filename body opts m) (hevs : evs = u.before ++ u.during ++ u.after)
    (hver : m.Version r.m) (hunwrap : r.key = u.key) :
    r.m.fileID = m.fileID ∧ ReaderOf L svc body.data (originalShards svc evs) r := by
  obtain ⟨time, hs, hlen, hm⟩ := hver
  rw [hm]
  refine ⟨rfl, ?_⟩
  constructor
  · rw [hunwrap, hu.length_key]
  · rw [hm]
    exact hu.size_eq
  · rw [hm]
    exact hu.stripeDataSize_eq
  · rw [hm]
    exact hu.dataShards_eq
  · rw [hm]
    exact hu.parityShards_eq
  · rw [hm]
    exact hu.stripes.length_eq
  · rw [hm]
    exact (congrArg _ hlen).trans hu.length_holders
  · intro j st hst
    rw [hm] at hst
    obtain ⟨nonce, hnonce, hencode, hids, hct⟩ := hu.stripe hR hA hevs hst
    rw [hunwrap]
    exact ⟨nonce, hnonce, hencode, by rw [hids, List.length_map], hct⟩

/-- The node has the key pair that the upload has wrapped the keys of private files for. -/
def SameKeys (L : Libs) (svc node : Service) : Prop :=
  node.encPub = svc.encPub ∧ L.box.pub node.encPriv = node.encPub ∧ node.encPriv.length = encPrivSize

/-- A reader with a version of an upload's manifest has the upload's key and is one of the file, if its key
was unwrapped with the group's key or with the owner's key pair. -/
theorem Upload.Made.readerOf_of_unwrap (hR : L.rs.Mds) (hA : L.aead.Correct) (hB : L.box.Correct)
    (hu : u.Made L svc filename body opts m) (hver : m.Version r.m)
    (hshared : m.mode = modeShared → g.sharedKey = u.group.sharedKey)
    (howner : m.mode = modePrivate → SameKeys L svc node) (hkey : unwrapForMode L node r.m g = .ok r.key) :
    r.key = u.key ∧ r.m.fileID = m.fileID ∧ ReaderOf L svc body.data (originalShards svc u.events) r := by
  have hunwrap : r.key = u.key := by
    obtain ⟨t, hs, -, hm⟩ := hver
    rw [hm] at hkey
    exact hu.wrapped.unwrap hA hB rfl rfl hshared howner hkey
  exact ⟨hunwrap, hu.readerOf hR hA rfl hver hunwrap⟩

/-- A reader opened by a node that is entitled to the file has a version of its manifest, and its
key. -/
theorem Opened.version (hR : L.rs.Mds) (hA : L.aead.Correct) (hB : L.box.Correct)
    (hput : Steps nodeEnv s (put L svc filename body opts) evs s' (ret m))
    (hopen : Opened L svc node opts s m r) :
    ∃ u : Upload, evs = u.before ++ u.during ++ u.after ∧ u.Made L svc filename body opts m ∧
      m.Version r.m ∧ r.key = u.key := by
  obtain ⟨u, hevs, hu, hgroup⟩ := uploaded_of_put hR hA hput
  obtain ⟨t, evs', t', hsteps, hgen, hent⟩ := hopen
  obtain ⟨hfound, g, hg, hkey⟩ := wp_steps (hsteps.traced _ [])
    (wp_openReader (fun _ _ _ _ => trivial) fun _ _ _ _ => trivial)
  -- Wherever the manifest was found, it is a version of the one that was put.
  have hver : m.Version r.m := by
    rw [List.nil_append] at hfound
    rcases hfound with ⟨raw, hraw, hdec⟩ | ⟨-, pid, resp, -, hmem, -, hdec⟩
    · exact hgen.stored raw r.m hraw hdec
    · exact hgen.sent pid resp r.m hmem hdec
  have hunwrap : r.key = u.key := by
    obtain ⟨time, hs, -, hm⟩ := hver
    refine hent.unwrap hA hB hu hgroup ?_ ?_ ?_ hg hkey <;> rw [hm]
  exact ⟨u, hevs, hu, hver, hunwrap⟩

/-- A reader opened by a node that is entitled to the file is one of the file. -/
theorem Opened.readerOf (hR : L.rs.Mds) (hA : L.aead.Correct) (hB : L.box.Correct)
    (hput : Steps nodeEnv s (put L svc filename body opts) evs s' (ret m))
    (hopen : Opened L svc node opts s m r) :
    r.m.fileID = m.fileID ∧ ReaderOf L svc body.data (originalShards svc evs) r := by
  obtain ⟨u, hevs, hu, hver, hunwrap⟩ := hopen.version hR hA hB hput
  exact hu.readerOf hR hA hevs hver hunwrap

/-- The ids in a stripe are the hashes of its original shards. -/
theorem Opened.shardIDs_eq (hR : L.rs.Mds) (hA : L.aead.Correct) (hB : L.box.Correct)
    (hput : Steps nodeEnv s (put L svc filename body opts) evs s' (ret m))
    (hopen : Opened L svc node opts s m r) {j : ℕ} {st : Stripe} (hst : r.m.stripes[j]? = some st) :
    st.shardIDs = (originalShards svc evs j).map hashOf := by
  obtain ⟨u, hevs, hu, ⟨time, hs, hlen, hm⟩, hunwrap⟩ := hopen.version hR hA hB hput
  rw [hm] at hst
  obtain ⟨nonce, hnonce, hencode, hids, hct⟩ := hu.stripe hR hA hevs hst
  exact hids

end File

/-! ## Reads that share a cache -/

/-- A read that shares the cache: its reader, and the answers that it can get. -/
structure Reading where
  r : Reader
  answers : (o : NodeOp) → o.Ans → Prop

/-- The reads at a node. -/
def readers (L : Libs) (node : Service) (allowed : Reading → Prop) :
    System NodeSig StripeCache Reading GoErr (Bytes × Option GoErr) where
  exec n := cacheStep n.answers
  start n p := allowed n ∧ ∃ size offset, p = readAt L node n.r size offset
  drift _ _ := False

variable {L : Libs} {r : Reader} {evs : List NodeEvent} {body : Body} {data : Bytes} {orig : ℕ → List Bytes}
  {j : ℕ}

/-- A read from a source is one of the reads at a node. -/
theorem reach_readers {node : Service} {allowed : Reading → Prop} {c₀ c c' : StripeCache}
    {ps : List (Reading × NodeM (Bytes × Option GoErr))} (h : (readers L node allowed).Reach c₀ c ps)
    {src : Source} (hallowed : allowed ⟨r, src.answers⟩) {size : ℕ} {offset : ℤ}
    {p' : NodeM (Bytes × Option GoErr)} (hs : Steps (readEnv src) c (readAt L node r size offset) evs c' p') :
    (readers L node allowed).Reach c₀ c' ((⟨r, src.answers⟩, p') :: ps) :=
  System.Reach.steps id (E := readEnv src) (fun _ _ _ _ hstep => hstep)
    (.start h ⟨hallowed, size, offset, rfl⟩) hs

/-- A read is of another file, or its reader was opened by the node and the slots of the file have given it
no shards but the original ones. -/
def Honest (L : Libs) (svc node : Service) (opts : PutOptions) (s : NodeState) (m : Manifest)
    (orig : ℕ → List Bytes) (n : Reading) : Prop :=
  n.r.m.fileID = m.fileID → Opened L svc node opts s m n.r ∧
    ∀ j, OnlyOriginals L node n.answers orig n.r j

section Share

variable {svc node : Service} {filename : Bytes} {opts : PutOptions} {s s' : NodeState} {m : Manifest}

/-- A read among others, where all keep the cache right. -/
theorem readsFrom_under {allowed : Reading → Prop} (I : StripeCache → Prop) (n : Reading) :
    ReadsFrom n.answers I ((readers L node allowed).under (fun c c' => I c → I c') n) where
  step := by
    rintro c o a c' hc ⟨v, hv, hs⟩
    exact ⟨v, hv hc, hs⟩
  fetch := by
    rintro c o hc ho v hv a c' hs hIv
    cases o with
    | blockGet _ | request _ _ | record _ _ _ => exact hs.2 ▸ hIv
    | _ => exact ho.elim
  guard := by
    rintro c o hc - hkeep v hv a c' hs hIv
    exact hkeep v a c' hIv hs

/-- Whatever reads have been made, what the cache has of the file is right. -/
theorem cacheSound_of_reach (hR : L.rs.Mds) (hA : L.aead.Correct) (hB : L.box.Correct)
    (hput : Steps nodeEnv s (put L svc filename body opts) evs s' (ret m)) {maxBytes : ℤ}
    {c : StripeCache} {ps : List (Reading × NodeM (Bytes × Option GoErr))}
    (h : (readers L node (Honest L svc node opts s m (originalShards svc evs))).Reach
      (.new maxBytes) c ps) : CacheSound svc m.fileID body.data c := by
  refine (h.guarantee (R := fun c c' => CacheSound svc m.fileID body.data c →
    CacheSound svc m.fileID body.data c') (fun _ => id) (fun _ _ _ h h' => h' ∘ h)
    (fun _ _ _ (hd : False) => hd.elim) ?_).1 (.new _ _ _ _)
  rintro n p c hc ⟨hhonest, size, offset, rfl⟩
  have hsound := hc (.new _ _ _ _)
  have hpanic : ∀ c, CacheSound svc m.fileID body.data c →
      ((readers L node (Honest L svc node opts s m (originalShards svc evs))).under
        (fun c c' => CacheSound svc m.fileID body.data c → CacheSound svc m.fileID body.data c')
        n).guard c .panic :=
    fun _ _ _ _ a => a.elim
  refine wp_mono (wp_readAt_keeps hpanic ?_ size offset hsound) fun _ _ _ => trivial
  intro idx hidx c hc
  by_cases hfile : n.r.m.fileID = m.fileID
  · obtain ⟨hopen, horig⟩ := hhonest hfile
    have hof := (hopen.readerOf hR hA hB hput).2
    rw [← hfile] at hc ⊢
    exact wp_mono (wp_stripeBytes hR hA (readsFrom_under _ n) hof hidx (fun j _ => horig j) hc)
      fun _ _ h => h.1
  · exact wp_stripeBytes_other hfile (readsFrom_under _ n) hpanic hidx hc

/-- After `Put` has succeeded, a read by a node that is entitled to the file returns the bytes of the
body that it asks for, and the end of the file if they are fewer than asked for, if of each stripe that it
touches at least `DataShards` slots yield their original shard and the others nothing. -/
theorem readAt_put (hR : L.rs.Mds) (hA : L.aead.Correct) (hB : L.box.Correct)
    (hput : Steps nodeEnv s (put L svc filename body opts) evs s' (ret m))
    (hopen : Opened L svc node opts s m r) {maxBytes : ℤ} {c : StripeCache}
    {ps : List (Reading × NodeM (Bytes × Option GoErr))}
    (hcache : (readers L node (Honest L svc node opts s m (originalShards svc evs))).Reach
      (.new maxBytes) c ps) (src : Source) {size : ℕ} (hpos : 0 < size)
    (hsize : body.data.length + size < 2^63) (offset : ℕ)
    (hslots : ∀ j, j * svc.stripeSize < min (offset + size) body.data.length →
      offset < (j + 1) * svc.stripeSize → Readable L node src (originalShards svc evs) r j) :
    Computes (readEnv src) c (readAt L node r size offset)
      ((body.data.drop offset).take size,
        if ((body.data.drop offset).take size).length < size then some .eof else none) := by
  obtain ⟨hfile, hof⟩ := hopen.readerOf hR hA hB hput
  have hsound := cacheSound_of_reach hR hA hB hput hcache
  rw [← hfile] at hsound
  exact computes_of_wp (readEnv_answers src) (wp_readAt hR hA (readsFrom_readEnv src _) hof hpos hsize
    offset (fun j h1 h2 => (hslots j h1 h2).enough) hsound)

end Share

/-- The sample node opens the file that it has uploaded, from what is stored as its manifest. -/
theorem SampleUpload.opens {net : Bytes → Request → Except GoErr Response} {filename : Bytes}
    {s' : NodeState} {m : Manifest} {u : Upload} (h : SampleUpload net filename body evs s' m u)
    {m' : Manifest} (hgroup : m'.groupID = m.groupID) (hmode : m'.mode = m.mode)
    (hwrapped : m'.wrappedKey = m.wrappedKey) (htext : m'.validText = true) {t : NodeState}
    (ht : t = sampleHome.putKey (manifestKey m.fileID) (sampleLibs.cbor.manifest.marshal m')) :
    t.group sampleLibs m.groupID = some (sampleGroup 7) ∧
    ∃ a b r, Steps nodeEnv t (openReader sampleLibs sampleService m.fileID)
        [⟨.storeGet (manifestKey m.fileID), .ok a⟩, ⟨.storeGet (groupKey m'.groupID), .ok b⟩] t (ret r) ∧
      r.m = m'.norm ∧ r.key = u.key := by
  have hg : t.group sampleLibs m.groupID = some (sampleGroup 7) := by
    rw [ht, h.made.group_eq, h.group_eq, NodeState.group_putManifest]
    exact group_sampleHome
  have hkey : unwrapForMode sampleLibs sampleService m'.norm (sampleGroup 7) = .ok u.key := by
    obtain ⟨hshared, nonce, hnonce, hw⟩ := h.wrapped
    have hmode' : m'.norm.mode = modeShared := hmode.trans hshared
    have hw' : m'.norm.wrappedKey = _ := hwrapped.trans hw
    have hlen : (sampleGroup 7).sharedKey.length = fileKeySize := by decide
    unfold unwrapForMode
    rw [hmode', if_neg (by decide), if_pos rfl, if_neg (not_not.mpr hlen), hw',
      openAES_sealedAES sampleAead_correct hlen hnonce]
  have hraw : t.store.get (manifestKey m.fileID) = some (sampleLibs.cbor.manifest.marshal m') := by
    rw [ht]
    exact SortedMap.get_put_self _ _ _
  obtain ⟨a, b, hopens⟩ := steps_openReader hraw (unmarshal_sampleManifest htext)
    (show t.group sampleLibs m'.norm.groupID = _ by rw [← hg, ← hgroup]; rfl) hkey
  exact ⟨hg, a, b, _, hopens, rfl, rfl⟩

/-- A file uploaded from the sample node can be opened there, also after its holders were replaced. -/
theorem SampleUpload.opened {net : Bytes → Request → Except GoErr Response} {s' : NodeState} {m : Manifest}
    {u : Upload} (h : SampleUpload net (lit "film") body evs s' m u) {hs : List Bytes}
    (hlen : hs.length = 2) (htext : ∀ h ∈ hs, validUTF8 h = true) :
    ∃ r, Opened sampleLibs sampleService sampleService ⟨(sampleGroup 7).id, modeShared⟩ sampleHome m r ∧
      r.m.holders = hs := by
  have hvalid : ({ m with holders := hs } : Manifest).validText = true :=
    Manifest.validText_setHolders (h.validText_eq.trans (by decide)) htext
  have hgid : ({ m with holders := hs } : Manifest).groupID = m.groupID := rfl
  obtain ⟨hg, a, b, r, hopens, hr, -⟩ := h.opens hgid rfl rfl hvalid rfl
  refine ⟨r, ⟨_, _, _, hopens, ⟨?_, ?_⟩, ⟨?_, ?_⟩⟩, by rw [hr]; rfl⟩
  · intro raw m' hraw' hdec'
    obtain rfl := Option.some.inj ((SortedMap.get_put_self _ _ _).symm.trans hraw')
    obtain rfl := Except.ok.inj ((unmarshal_sampleManifest hvalid).symm.trans hdec')
    exact ⟨_, hs, hlen.trans h.length_holders.symm, rfl⟩
  · intro pid resp m' hmem
    simp at hmem
  · exact fun _ => ⟨sampleGroup 7, sampleGroup 7, sampleHome_ready.resolved, hg, rfl⟩
  · intro hprivate
    rw [h.wrapped.1] at hprivate
    exact absurd hprivate (by decide)

/-- A body can be uploaded from the sample node and opened there. -/
theorem exists_sampleOpened (hend : endOfFile (some body.term) = true) (hdata : body.data ≠ []) :
    ∃ evs s' m r, Steps nodeEnv sampleHome (put sampleLibs sampleService (lit "film") body
        ⟨(sampleGroup 7).id, modeShared⟩) evs s' (ret m) ∧
      Opened sampleLibs sampleService sampleService ⟨(sampleGroup 7).id, modeShared⟩ sampleHome m r ∧
      r.m.holders = [lit "alice", lit "bob"] := by
  obtain ⟨evs, s', m, u, h⟩ := exists_sampleUpload (fun p _ => deliverable_allAck p) hend hdata
    (lit "film")
  obtain ⟨r, hopen, hholders⟩ := h.opened (show [lit "alice", lit "bob"].length = 2 from rfl) (by decide)
  exact ⟨evs, s', m, r, h.put, hopen, hholders⟩

/-- The local block store has the same bytes for every id. -/
def constSource (d : Bytes) : Source := ⟨fun _ => .ok d, fun _ _ => .error .eof⟩

/-- A stripe whose shards are all equal is readable where the local block store has that shard. -/
theorem readable_of_replicate {svc node : Service} {d : Bytes} (hof : ReaderOf L svc data orig r) {n : ℕ}
    (horig : orig j = List.replicate n d) (htotal : (n : ℤ) = svc.params.total)
    (hk : svc.params.dataShards ≤ n) :
    Readable L node (constSource d) orig r j := by
  intro st hst
  obtain ⟨-, -, -, hids, -⟩ := hof.coded hst
  rw [horig, List.length_replicate] at hids
  have hyields : slotYields L node (constSource d) r st = List.replicate n (some d) := by
    have hlen : (slots r st).length = n := by
      have := hof.length_holders
      unfold slots
      rw [List.length_zip, hids]
      omega
    change (slots r st).map (fun _ => some d) = _
    rw [List.map_const', hlen]
  rw [hyields, horig, hof.dataShards_eq]
  refine ⟨?_, ?_⟩
  · unfold SomeOf
    rw [← List.map_replicate, List.forall₂_map_right_iff, List.forall₂_same]
    exact fun _ _ => .inr rfl
  · simpa [present, List.countP_replicate] using hk

/-- Both shards that the sample service makes are what is encoded. -/
theorem encode_sampleService {ct : Bytes} (hne : ct ≠ []) :
    sampleService.params.encode sampleLibs ct = .ok (List.replicate 2 ct) := by
  simp [Params.encode, sampleService, sampleLibs, sampleRs, hne, Bind.bind, Except.bind, Except.mapError]

/-- Both shards of a stripe of the sample service are the sealed stripe. -/
theorem ReaderOf.sampleShards (hof : ReaderOf sampleLibs sampleService data orig r) {st : Stripe}
    (hst : r.m.stripes[j]? = some st) : ∃ d, d ≠ [] ∧ orig j = List.replicate 2 d := by
  obtain ⟨nonce, hnonce, henc, -, -⟩ := hof.coded hst
  have hne : sealedAES sampleLibs r.key nonce (sampleService.chunkAt data j) ≠ [] :=
    sealedAES_ne_nil sampleAead_correct hnonce _
  exact ⟨_, hne, Except.ok.inj (henc.symm.trans (encode_sampleService hne))⟩

/-- A stripe of the sample service is readable where the local block store has its shard. -/
theorem ReaderOf.exists_readable (hof : ReaderOf sampleLibs sampleService data orig r)
    (hj : j < r.m.stripes.length) : ∃ d, Readable sampleLibs sampleService (constSource d) orig r j := by
  obtain ⟨d, -, horig⟩ := hof.sampleShards (List.getElem?_eq_getElem hj)
  exact ⟨d, readable_of_replicate hof horig rfl (by decide)⟩

/-- The id of the file is not in its stripes. -/
theorem ReaderOf.setFileID {svc : Service} (hof : ReaderOf L svc data orig r) (fileID : Bytes) :
    ReaderOf L svc data orig { r with m := { r.m with fileID := fileID } } :=
  ⟨hof.length_key, hof.size_eq, hof.stripeDataSize_eq, hof.dataShards_eq, hof.parityShards_eq,
    hof.length_stripes, hof.length_holders, hof.coded⟩

/-- A file of two stripes that was uploaded from the sample node is read back there, from its sixth byte on
and past its end. The cache has room for the stripes, and another file has been read through it. -/
theorem sampleHome_reads_back :
    ∃ evs s' m r src other c, Steps nodeEnv sampleHome (put sampleLibs sampleService (lit "film") twoStripes
        ⟨(sampleGroup 7).id, modeShared⟩) evs s' (ret m) ∧
      Opened sampleLibs sampleService sampleService ⟨(sampleGroup 7).id, modeShared⟩ sampleHome m r ∧
      (readers sampleLibs sampleService (Honest sampleLibs sampleService sampleService
        ⟨(sampleGroup 7).id, modeShared⟩ sampleHome m (originalShards sampleService evs))).Reach (.new 8) c
          [(other, ret ([1, 2, 3, 4], none))] ∧
      Computes (readEnv src) c (readAt sampleLibs sampleService r 5 5) ([6, 7, 8], some .eof) := by
  obtain ⟨evs, s', m, r, hput, hopen, -⟩ := exists_sampleOpened
    (show endOfFile (some twoStripes.term) = true from rfl) (show twoStripes.data ≠ [] by decide)
  obtain ⟨-, hof⟩ := hopen.readerOf sampleRs_mds sampleAead_correct sampleBox_correct hput
  have hlen : r.m.stripes.length = 2 := hof.length_stripes
  obtain ⟨d₀, hfirst⟩ := (hof.setFileID (0 :: m.fileID)).exists_readable
    (show 0 < r.m.stripes.length by omega)
  obtain ⟨d₁, hsecond⟩ := hof.exists_readable (show 1 < r.m.stripes.length by omega)
  -- The first stripe of a file with another id is read before.
  let other : Reading := ⟨{ r with m := { r.m with fileID := 0 :: m.fileID } }, (constSource d₀).answers⟩
  have hother : wp (readEnv (constSource d₀)) (readAt sampleLibs sampleService other.r 4 0) _ (.new 8) :=
    wp_readAt sampleRs_mds sampleAead_correct (readsFrom_readEnv _ _) (hof.setFileID (0 :: m.fileID))
      (by decide) (by decide) 0 (fun j hj _ => by
        obtain rfl : j = 0 := by
          have : j * 4 < 4 := hj
          omega
        exact hfirst.enough) (.new _ _ _ _)
  obtain ⟨evs', c, x, hsteps, hx⟩ := wp_exists (readEnv_answers _) hother
  cases x with
  | error e => exact hx.elim
  | ok x =>
    obtain rfl : x = ([1, 2, 3, 4], none) := hx
    have hreach : (readers sampleLibs sampleService (Honest sampleLibs sampleService sampleService
        ⟨(sampleGroup 7).id, modeShared⟩ sampleHome m (originalShards sampleService evs))).Reach (.new 8) c
          [(other, ret ([1, 2, 3, 4], none))] :=
      reach_readers .init (fun hid => absurd hid (by simp)) hsteps
    refine ⟨evs, s', m, r, constSource d₁, other, c, hput, hopen, hreach, ?_⟩
    refine readAt_put sampleRs_mds sampleAead_correct sampleBox_correct hput hopen hreach _
      (show 0 < 5 by decide) (by decide) 5 ?_
    intro j hj hj'
    obtain rfl : j = 1 := by
      have : j * 4 < 8 := hj
      have : 5 < (j + 1) * 4 := hj'
      omega
    exact hsecond

end FnShare
