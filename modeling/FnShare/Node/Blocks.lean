import FnShare.Manifest
import FnShare.Blockstore
import FnShare.Instance

/-!
# The blocks protocol

`internal/node/blocks.go`: a peer asks another to store or return a shard or a manifest. `serveBlock`
is the serving side, with one effect in each of its branches (`wp_serveBlock_of`); the functions after
it are the client side. The daemon attaches a ledger, so that the traffic is counted on both sides.

A shard is stored under the hash of its contents, and checked. To return one, the serving side takes
the id as it comes and reads the file at its path (`getShard_ok`).
-/

namespace FnShare

open Prog

section Code

variable (L : Libs)

/-- A refused request. -/
def refuse (error : Bytes) : Response := { ok := false, error := error }

/-- `serveBlock`. -/
def serveBlock (attached : Bool) (req : Request) : NodeM Response := do
  if !attached then return refuse (lit "blockstore not initialized")
  else
    match req.op with
    | .putShard =>
      match ← perform (.blockPut req.id req.body) with
      | .error e => return refuse e.text
      | .ok () => return { ok := true }
    | .getShard =>
      match ← perform (.blockGet req.id) with
      | .error e => return refuse e.text
      | .ok raw => return { ok := true, body := raw }
    | .putManifest =>
      match L.cbor.manifest.unmarshal req.body with
      | .error e => return refuse (lit "manifest decode: " ++ e.text)
      | .ok m =>
        if m.fileID ≠ req.id then return refuse (lit "file id mismatch")
        else
          match ← attempt (putManifest L m) with
          | .error e => return refuse e.text
          | .ok () => return { ok := true }
    | .getManifest =>
      match ← attempt (getManifest L req.id) with
      | .error e => return refuse e.text
      | .ok m => return { ok := true, body := L.cbor.manifest.marshal m }
    | .unknown n => return refuse (lit "unknown op " ++ fmtNat n.toNat)

/-- `handleBlocks`, on the request that was read from the stream or the error of reading it: the
response that is written back. -/
def handleBlocks (attached : Bool) (remotePeer : Bytes) (req : Except GoErr Request) :
    NodeM Response := do
  match req with
  | .error e => return refuse (lit "decode: " ++ e.text)
  | .ok req =>
    let resp ← serveBlock L attached req
    if resp.ok then
      match req.op with
      | .putShard => perform (.record .storedForThem remotePeer req.body.length)
      | .getShard => perform (.record .servedToThem remotePeer resp.body.length)
      | _ => pure ()
    return resp

/-- `blockRequest`, and the error that a response carries. -/
def request (peer : Bytes) (req : Request) : NodeM Response := do
  let resp ← ofExcept (← perform (.request peer req))
  if resp.ok then return resp else fail (.msg resp.error)

/-- Whether a response to a request says that the peer did what it was asked. -/
def acknowledged : Except GoErr Response → Bool
  | .ok resp => resp.ok
  | .error _ => false

/-- `PutShardOnPeer`. -/
def putShardOnPeer (peer shardID data : Bytes) : NodeM Unit := do
  let _ ← request peer ⟨.putShard, shardID, data⟩
  perform (.record .storedOnThem peer data.length)

/-- `GetShardFromPeer`. -/
def getShardFromPeer (peer shardID : Bytes) : NodeM Bytes := do
  let resp ← request peer ⟨.getShard, shardID, []⟩
  perform (.record .downloadedFrom peer resp.body.length)
  return resp.body

/-- `PutManifestRawOnPeer`. -/
def putManifestRawOnPeer (peer fileID raw : Bytes) : NodeM Unit := do
  let _ ← request peer ⟨.putManifest, fileID, raw⟩

/-- `PutManifestOnPeer`. -/
def putManifestOnPeer (peer : Bytes) (m : Manifest) : NodeM Unit :=
  putManifestRawOnPeer peer m.fileID (L.cbor.manifest.marshal m)

/-- `GetManifestFromPeer`. -/
def getManifestFromPeer (peer fileID : Bytes) : NodeM Manifest := do
  let resp ← request peer ⟨.getManifest, fileID, []⟩
  ofExcept (L.cbor.manifest.unmarshal resp.body)

end Code

/-! ## Serving a request -/

/-- The operation that a request is served with, an answer to it, and the response that is made of it. -/
inductive ServedBy (L : Libs) (req : Request) : (o : NodeOp) → o.Ans → Response → Prop
  | shardPut (h : req.op = .putShard) :
      ServedBy L req (.blockPut req.id req.body) (.ok ()) { ok := true }
  | shardRefused (h : req.op = .putShard) (e : GoErr) :
      ServedBy L req (.blockPut req.id req.body) (.error e) (refuse e.text)
  | shardGot (h : req.op = .getShard) (raw : Bytes) :
      ServedBy L req (.blockGet req.id) (.ok raw) { ok := true, body := raw }
  | shardMissing (h : req.op = .getShard) (e : GoErr) :
      ServedBy L req (.blockGet req.id) (.error e) (refuse e.text)
  | manifestPut (h : req.op = .putManifest) {m : Manifest}
      (hdec : L.cbor.manifest.unmarshal req.body = .ok m) (hid : m.fileID = req.id) :
      ServedBy L req (.storePut (manifestKey m.fileID) (L.cbor.manifest.marshal m)) (.ok ()) { ok := true }
  | manifestRefused (h : req.op = .putManifest) (m : Manifest) (e : GoErr) :
      ServedBy L req (.storePut (manifestKey m.fileID) (L.cbor.manifest.marshal m)) (.error e)
        (refuse e.text)
  | manifestGot (h : req.op = .getManifest) {raw : Bytes} {m : Manifest}
      (hdec : L.cbor.manifest.unmarshal raw = .ok m) :
      ServedBy L req (.storeGet (manifestKey req.id)) (.ok raw)
        { ok := true, body := L.cbor.manifest.marshal m }
  | manifestMissing (h : req.op = .getManifest) (r : Except GoErr Bytes) (text : Bytes) :
      ServedBy L req (.storeGet (manifestKey req.id)) r (refuse text)

/-- `serveBlock` refuses a request as it is, or performs one operation and responds by its answer. -/
theorem wp_serveBlock_of {L : Libs} {W : Type} {E : Env NodeSig W} {req : Request} {w : W}
    {Q : Response → W → Prop} (hguard : ∀ o r resp, ServedBy L req o r resp → E.guard w o)
    (hrefuse : ∀ text, Q (refuse text) w)
    (hserve : ∀ o r resp w', ServedBy L req o r resp → E.step w o r w' → Q resp w') :
    wp E (serveBlock L true req) (onOk Q) w := by
  unfold serveBlock
  simp only [Bool.not_true, Bool.false_eq_true, if_false]
  cases hop : req.op with
  | putShard =>
    refine ⟨hguard _ _ _ (.shardPut hop), ?_⟩
    rintro (e | ⟨⟩) w' hs
    · exact hserve _ _ _ _ (.shardRefused hop e) hs
    · exact hserve _ _ _ _ (.shardPut hop) hs
  | getShard =>
    refine ⟨hguard _ _ _ (.shardGot hop []), ?_⟩
    rintro (e | raw) w' hs
    · exact hserve _ _ _ _ (.shardMissing hop e) hs
    · exact hserve _ _ _ _ (.shardGot hop raw) hs
  | putManifest =>
    cases hdec : L.cbor.manifest.unmarshal req.body with
    | error e => exact hrefuse _
    | ok m =>
      simp only
      split_ifs with hid
      · exact hrefuse _
      · rw [wp_bind, wp_attempt]
        refine ⟨hguard _ _ _ (.manifestPut hop hdec (not_not.mp hid)), ?_⟩
        rintro (e | ⟨⟩) w' hs
        · exact hserve _ _ _ _ (.manifestRefused hop m e) hs
        · exact hserve _ _ _ _ (.manifestPut hop hdec (not_not.mp hid)) hs
  | getManifest =>
    -- The two layers of `attempt` are those of `getManifest`, for the store, and of `serveBlock`.
    unfold getManifest storeGet
    rw [wp_bind, wp_attempt, wp_bind, wp_attempt, wp_bind]
    refine ⟨hguard _ _ _ (.manifestMissing hop (.ok []) []), ?_⟩
    intro r w' hs
    have hmissing : ∀ text, Q (refuse text) w' := fun text => hserve _ _ _ _ (.manifestMissing hop r text) hs
    simp only [wp_ret, andThen_ok, wp_ofExcept]
    cases r with
    | error e =>
      simp only
      split_ifs
      · exact hmissing _
      · exact hmissing _
    | ok raw =>
      simp only [wp_ofExcept]
      cases hdec : L.cbor.manifest.unmarshal raw with
      | error e => exact hmissing _
      | ok m => exact hserve _ _ _ _ (.manifestGot hop hdec) hs
  | unknown k => exact hrefuse _

/-! ## Returning a shard -/

/-- A node's block store on its disk. -/
def diskEnv (root : Bytes) : Env NodeSig Disk where
  step d o r d' := diskStep root d o r d'
  guard _ _ := True

variable {L : Libs} {dataDir : Bytes} {d : Disk} {id body : Bytes}

/-- The answers to a request for a shard that succeed have the content of the file at the path of the
id. -/
theorem getShard_ok {evs : List NodeEvent} {d' : Disk} {resp : Response}
    (h : Steps (diskEnv (blocksRoot dataDir)) d (serveBlock L true ⟨.getShard, id, body⟩) evs d'
      (ret resp)) (hok : resp.ok = true) :
    d.files (blockPath (blocksRoot dataDir) id) = some resp.body := by
  have hwp : wp (diskEnv (blocksRoot dataDir)) (serveBlock L true ⟨.getShard, id, body⟩)
      (onOk fun resp _ => resp.ok = true →
        d.files (blockPath (blocksRoot dataDir) id) = some resp.body) d := by
    refine wp_serveBlock_of (fun _ _ _ _ => trivial) (fun _ hok => absurd hok (by simp [refuse])) ?_
    rintro o r resp d' hby hs hok
    cases hby with
    | shardGot _ raw =>
      obtain ⟨-, hr | ⟨e, hr⟩⟩ := hs
      · split at hr
        · rename_i c hc
          rw [hc, Except.ok.inj hr]
        · exact absurd hr (by simp)
      · exact absurd hr (by simp)
    | shardMissing => exact absurd hok (by simp [refuse])
    | shardPut hop | shardRefused hop | manifestPut hop | manifestRefused hop | manifestGot hop
    | manifestMissing hop => exact absurd hop (by simp)
  exact wp_steps h hwp hok

/-- The file at the path of the id can be had by asking for it. -/
theorem steps_getShard (L : Libs) (body : Bytes) {c : Bytes}
    (h : d.files (blockPath (blocksRoot dataDir) id) = some c) :
    ∃ evs, Steps (diskEnv (blocksRoot dataDir)) d (serveBlock L true ⟨.getShard, id, body⟩) evs d
      (ret { ok := true, body := c }) := by
  refine ⟨[⟨.blockGet id, .ok c⟩], .op ⟨rfl, .inl ?_⟩ (.refl _ _)⟩
  rw [h]

/-- On every disk that a node can come to, what a peer gets for an id is a shard put under that id
and hashing to it, exactly if the id is a well-formed one or names no file. -/
theorem getShard_hash_iff (hd : d.Reachable (blocksRoot dataDir)) (id body : Bytes) :
    (∀ evs d' resp, Steps (diskEnv (blocksRoot dataDir)) d
        (serveBlock L true ⟨.getShard, id, body⟩) evs d' (ret resp) → resp.ok = true →
      hashOf resp.body = id ∧ d.stored id) ↔
    (isShardID id = true ∨ d.files (blockPath (blocksRoot dataDir) id) = none) := by
  constructor
  · intro h
    rw [or_iff_not_imp_right]
    intro hsome
    obtain ⟨c, hc⟩ := Option.ne_none_iff_exists'.mp hsome
    obtain ⟨evs, hsteps⟩ := steps_getShard L body hc
    have := (h evs d _ hsteps rfl).1
    exact this ▸ isShardID_hashOf c
  · rintro (hid | hnone) evs d' resp hsteps hok
    · exact hd.sound.get_shardID hid (getShard_ok hsteps hok)
    · exact absurd (getShard_ok hsteps hok) (by simp [hnone])

/-- A disk with the configuration of the node on it, and no shards. -/
def sampleDisk : Disk where
  files p := if p = lit "/data/config.yaml" then some (lit "listen: []") else none
  stored _ := False

/-- The data directory holds files besides the block store. -/
theorem sampleDisk_reachable : sampleDisk.Reachable (blocksRoot (lit "/data")) := by
  refine .init (fun p hp => ?_) fun i => id
  have hne : p ≠ lit "/data/config.yaml" := by
    rintro rfl
    exact absurd hp (by unfold Below; decide)
  simp [sampleDisk, hne]

/-- A peer that asks for a shard by a path out of the block store gets the configuration. -/
theorem sampleDisk_serves_config :
    sampleDisk.Reachable (blocksRoot (lit "/data")) ∧
    ∃ evs resp, Steps (diskEnv (blocksRoot (lit "/data"))) sampleDisk
      (serveBlock sampleLibs true ⟨.getShard, lit "./../config.yaml", []⟩) evs sampleDisk
      (ret resp) ∧ resp.ok = true ∧ resp.body = lit "listen: []" ∧
      hashOf resp.body ≠ lit "./../config.yaml" := by
  obtain ⟨evs, hsteps⟩ := steps_getShard sampleLibs []
    (show sampleDisk.files (blockPath (blocksRoot (lit "/data")) (lit "./../config.yaml")) =
      some (lit "listen: []") by decide)
  refine ⟨sampleDisk_reachable, evs, _, hsteps, rfl, rfl, fun h => ?_⟩
  have := isShardID_hashOf (lit "listen: []")
  rw [h] at this
  exact absurd this (by decide)

/-- A shard that was put is returned by its id. -/
theorem sampleDisk_serves_shard :
    ∃ d : Disk, d.Reachable (blocksRoot (lit "/data")) ∧ ∃ evs resp,
      Steps (diskEnv (blocksRoot (lit "/data"))) d
        (serveBlock sampleLibs true ⟨.getShard, hashOf (lit "shard"), []⟩) evs d (ret resp) ∧
      resp.ok = true ∧ hashOf resp.body = hashOf (lit "shard") ∧
      d.stored (hashOf (lit "shard")) := by
  generalize lit "shard" = data
  have hreach := sampleDisk_reachable.install data
  obtain ⟨evs, hsteps⟩ := steps_getShard sampleLibs []
    (show (sampleDisk.install (blocksRoot (lit "/data")) (hashOf data) data).files
      (blockPath (blocksRoot (lit "/data")) (hashOf data)) = some data from if_pos rfl)
  exact ⟨_, hreach, evs, _, hsteps, rfl, (getShard_hash_iff hreach (hashOf data) []).mpr
    (.inl (isShardID_hashOf data)) evs _ _ hsteps rfl⟩

/-! ## The calls of a client -/

section Calls

variable {W : Type} {E : Env NodeSig W} {peer : Bytes} {w : W}

/-- A request returns its response if that says that the peer has done what it was asked, and fails
otherwise. -/
theorem wp_request_of {req : Request} {Q : Except GoErr Response → W → Prop}
    (hguard : E.guard w (.request peer req))
    (hok : ∀ resp w', E.step w (.request peer req) (.ok resp) w' → resp.ok = true → Q (.ok resp) w')
    (hfailed : ∀ a w', E.step w (.request peer req) a w' → acknowledged a = false → ∀ e, Q (.error e) w') :
    wp E (request peer req) Q w := by
  refine ⟨hguard, ?_⟩
  rintro (e | resp) w' hs
  · exact hfailed _ w' hs rfl e
  · change wp E (if resp.ok then ret resp else fail _) Q w'
    split_ifs with h
    · exact hok resp w' hs h
    · exact hfailed _ w' hs (by simpa [acknowledged] using h) _

/-- A shard is sent and counted. -/
theorem wp_putShardOnPeer_of {id data : Bytes} {Q : Except GoErr Unit → W → Prop}
    (hguard : E.guard w (.request peer ⟨.putShard, id, data⟩))
    (hok : ∀ resp w₁, E.step w (.request peer ⟨.putShard, id, data⟩) (.ok resp) w₁ → resp.ok = true →
      E.guard w₁ (.record .storedOnThem peer data.length) ∧
        ∀ u w₂, E.step w₁ (.record .storedOnThem peer data.length) u w₂ → Q (.ok u) w₂)
    (hfailed : ∀ a w', E.step w (.request peer ⟨.putShard, id, data⟩) a w' → acknowledged a = false →
      ∀ e, Q (.error e) w') : wp E (putShardOnPeer peer id data) Q w := by
  unfold putShardOnPeer
  rw [wp_bind]
  exact wp_request_of hguard hok hfailed

/-- A shard is fetched and counted. -/
theorem wp_getShardFromPeer_of {id : Bytes} {Q : Except GoErr Bytes → W → Prop}
    (hguard : E.guard w (.request peer ⟨.getShard, id, []⟩))
    (hok : ∀ resp w₁, E.step w (.request peer ⟨.getShard, id, []⟩) (.ok resp) w₁ → resp.ok = true →
      E.guard w₁ (.record .downloadedFrom peer resp.body.length) ∧
        ∀ u w₂, E.step w₁ (.record .downloadedFrom peer resp.body.length) u w₂ → Q (.ok resp.body) w₂)
    (hfailed : ∀ a w', E.step w (.request peer ⟨.getShard, id, []⟩) a w' → acknowledged a = false →
      ∀ e, Q (.error e) w') : wp E (getShardFromPeer peer id) Q w := by
  unfold getShardFromPeer
  rw [wp_bind]
  exact wp_request_of hguard hok hfailed

/-- A manifest is fetched and decoded. -/
theorem wp_getManifestFromPeer_of {L : Libs} {fileID : Bytes} {Q : Except GoErr Manifest → W → Prop}
    (hguard : E.guard w (.request peer ⟨.getManifest, fileID, []⟩))
    (hok : ∀ resp w' m, E.step w (.request peer ⟨.getManifest, fileID, []⟩) (.ok resp) w' →
      resp.ok = true → L.cbor.manifest.unmarshal resp.body = .ok m → Q (.ok m) w')
    (hfailed : ∀ a w', E.step w (.request peer ⟨.getManifest, fileID, []⟩) a w' → ∀ e, Q (.error e) w') :
    wp E (getManifestFromPeer L peer fileID) Q w := by
  unfold getManifestFromPeer
  rw [wp_bind]
  refine wp_request_of hguard ?_ fun a w' hs _ => hfailed a w' hs
  intro resp w' hs h
  change wp E (ofExcept (L.cbor.manifest.unmarshal resp.body)) Q w'
  rw [wp_ofExcept]
  cases hdec : L.cbor.manifest.unmarshal resp.body with
  | error e => exact hfailed _ w' hs e
  | ok m => exact hok resp w' m hs h hdec

end Calls

/-! ## The operations of a client -/

section Kinds

variable {A : NodeOp → Prop}

/-- A request is one operation. -/
theorem only_request {peer : Bytes} {req : Request} (h : A (.request peer req)) :
    (request peer req).Only A := by
  refine ⟨h, fun r => ?_⟩
  simp only [bind_eq, ret_bind]
  refine only_bind (only_ofExcept _) fun resp => ?_
  split_ifs <;> trivial

/-- A shard is sent and recorded. -/
theorem only_putShardOnPeer {peer id data : Bytes} (h : A (.request peer ⟨.putShard, id, data⟩))
    (hrec : ∀ c p n, A (.record c p n)) : (putShardOnPeer peer id data).Only A :=
  only_bind (only_request h) fun _ => ⟨hrec _ _ _, fun _ => trivial⟩

/-- A shard is fetched and recorded. -/
theorem only_getShardFromPeer {peer id : Bytes} (h : A (.request peer ⟨.getShard, id, []⟩))
    (hrec : ∀ c p n, A (.record c p n)) : (getShardFromPeer peer id).Only A :=
  only_bind (only_request h) fun _ => ⟨hrec _ _ _, fun _ => trivial⟩

end Kinds

end FnShare
