import FnShare.File.Cache
import FnShare.File.Put

/-!
# Reading a file

`OpenReader` and `Reader` of `internal/file`. A reader has the manifest of a file and its key. It fetches
the stripes that a read touches: from the cache, or by gathering as many shards as there are data
shards, from the local block store or the holder of each slot, decoding and decrypting them.

Offsets are `int64`: their sums wrap. A division by a stripe size of zero and a slice out of range are
panics.
-/

namespace FnShare

open Prog

/-- `Reader`, without the service that it belongs to. -/
structure Reader where
  m : Manifest
  key : Bytes
  decryptedFilename : Bytes
  /-- The offset of the next sequential read. -/
  pos : ℤ := 0

variable (L : Libs) (svc : Service)

/-! ## Opening -/

/-- `unwrapForMode`. -/
def unwrapForMode (m : Manifest) (g : Group) : Except GoErr Bytes :=
  if m.mode = [] then .error (.msg (lit "manifest predates M4 encryption — file unreadable"))
  else if m.mode = modeShared then
    if g.sharedKey.length ≠ fileKeySize then
      .error (.msg (lit "local group has no shared key — re-join with a fresh invite"))
    else openAES L g.sharedKey m.wrappedKey
  else if m.mode = modePrivate then
    if m.ownerPeerID ≠ svc.self then .error (.msg (lit "private file: only the owner can decrypt"))
    else openAnonymous L m.wrappedKey svc.encPub svc.encPriv
  else .error (.msg (lit "unknown manifest mode " ++ quote m.mode))

/-- `maybeDecryptFilename`. -/
def maybeDecryptFilename (m : Manifest) (fileKey : Bytes) : Bytes :=
  if !m.filenameEncrypted then m.filename
  else
    match Base64.decode m.filename with
    | none => []
    | some ct =>
      match openAES L fileKey ct with
      | .error _ => []
      | .ok pt => pt

/-- The loop of `fetchManifest` over the members. -/
def fetchManifestFrom (fileID : Bytes) : List Member → NodeM Manifest
  | [] => fail (.msg (lit "no peer has manifest for " ++ fileID))
  | mem :: rest => do
    if mem.peerID = svc.self then fetchManifestFrom fileID rest
    else
      match L.peerDecode mem.peerID with
      | .error _ => fetchManifestFrom fileID rest
      | .ok pid =>
        match ← attempt (getManifestFromPeer L pid fileID) with
        | .error _ => fetchManifestFrom fileID rest
        | .ok m => return m

/-- `fetchManifest`. -/
def fetchManifest (fileID : Bytes) : NodeM Manifest := do
  let members ← allMembersAcrossGroups L
  fetchManifestFrom L svc fileID members

/-- The manifest that `OpenReader` goes by. -/
def findManifest (fileID : Bytes) : NodeM Manifest := do
  match ← attempt (getManifest L fileID) with
  | .ok m => return m
  | .error e =>
    if e = errManifestNotFound then
      let m ← fetchManifest L svc fileID
      let _ ← (attempt (putManifest L m) : NodeM (Except GoErr Unit))
      return m
    else fail e

/-- `OpenReader`. -/
def openReader (fileID : Bytes) : NodeM Reader := do
  let m ← findManifest L svc fileID
  match ← attempt (loadByID L m.groupID) with
  | .error _ => fail (.msg (lit "we are not part of group " ++ m.groupID))
  | .ok g =>
    let fileKey ← ofExcept (unwrapForMode L svc m g)
    return { m := m, key := fileKey, decryptedFilename := maybeDecryptFilename L m fileKey }

/-! ## Stripes -/

/-- The body of the loop of `fetchAndDecryptStripe`: the shard of one slot, if it can be had. -/
def fetchShard (shardID holder : Bytes) : NodeM (Option Bytes) := do
  match ← perform (.blockGet shardID) with
  | .ok data => return some data
  | .error _ =>
    if holder = svc.self then return none
    else
      match L.peerDecode holder with
      | .error _ => return none
      | .ok pid =>
        match ← attempt (getShardFromPeer pid shardID) with
        | .error _ => return none
        | .ok data => return some data

/-- The loop of `fetchAndDecryptStripe` over the slots that are left, with the number of shards that
were gathered: the shards of these slots, and the number after them. -/
def gatherShards (dataShards : ℤ) : List (Bytes × Bytes) → ℤ → NodeM (List (Option Bytes) × ℤ)
  | [], gathered => return ([], gathered)
  | (shardID, holder) :: rest, gathered => do
    if gathered < dataShards then
      let shard ← fetchShard L svc shardID holder
      let (shards, n) ← gatherShards dataShards rest
        (if shard.isSome then gathered + 1 else gathered)
      return (shard :: shards, n)
    else return (none :: rest.map fun _ => none, gathered)

/-- `fetchAndDecryptStripe`. -/
def fetchAndDecryptStripe (r : Reader) (idx : ℤ) : NodeM Bytes := do
  if idx < 0 ∨ (r.m.stripes.length : ℤ) ≤ idx then
    fail (.msg (lit "stripe index out of range: " ++ fmtInt idx))
  else
    let stripe ← orPanic r.m.stripes[idx.toNat]?
    let total := wrap64 (r.m.dataShards + r.m.parityShards)
    if (stripe.shardIDs.length : ℤ) ≠ total ∨ (r.m.holders.length : ℤ) ≠ total then
      fail (.msg (lit "manifest stripe " ++ fmtInt idx ++ lit " malformed"))
    else
      let (shardBytes, gathered) ← gatherShards L svc r.m.dataShards
        (stripe.shardIDs.zip r.m.holders) 0
      if gathered < r.m.dataShards then
        fail (.msg (lit "stripe " ++ fmtInt idx ++ lit ": only " ++ fmtInt gathered ++ lit " of " ++
          fmtInt r.m.dataShards ++ lit " required shards available"))
      else
        match ← orPanic (Params.decode L ⟨r.m.dataShards, r.m.parityShards⟩ shardBytes
          stripe.ciphertextBytes) with
        | .error e => fail (.wrap (lit "ec decode stripe " ++ fmtInt idx ++ lit ": ") e)
        | .ok (_, ct) =>
          ofExcept ((openAES L r.key ct).mapError
            (.wrap (lit "decrypt stripe " ++ fmtInt idx ++ lit ": ")))

/-- `stripeBytes`. -/
def stripeBytes (r : Reader) (idx : ℤ) : NodeM Bytes := do
  match ← perform (.cacheGet r.m.fileID idx) with
  | some data => return data
  | none =>
    let data ← fetchAndDecryptStripe L svc r idx
    perform (.cachePut r.m.fileID idx data)
    return data

/-! ## Reading -/

/-- The stripe that an offset lies in. -/
def Reader.stripeIdx (r : Reader) (cur : ℤ) : ℤ := wrap64 (cur.tdiv r.m.stripeDataSize)

/-- The place of an offset in its stripe. -/
def Reader.inStart (r : Reader) (cur : ℤ) : ℤ :=
  wrap64 (cur - wrap64 (r.stripeIdx cur * r.m.stripeDataSize))

/-- The number of bytes that a turn of the loop of `ReadAt` takes from a stripe of `n` bytes. -/
def Reader.want (r : Reader) (stop cur : ℤ) (n : ℕ) : ℤ :=
  min (wrap64 (stop - cur)) (n - r.inStart cur)

/-- The loop of `ReadAt` from the offset `cur` up to `stop`, into a buffer of `size` bytes: the bytes
written, and the error of a stripe. -/
def readLoopAt (r : Reader) (size : ℕ) (stop cur : ℤ) (written : Bytes) :
    NodeM (Bytes × Option GoErr) :=
  if cur < stop then
    if r.m.stripeDataSize = 0 then goPanic
    else if (r.m.stripes.length : ℤ) ≤ r.stripeIdx cur then ret (written, none)
    else do
      match ← attempt (stripeBytes L svc r (r.stripeIdx cur)) with
      | .error e => return (written, some e)
      | .ok stripeData =>
        let inStart := r.inStart cur
        let want := r.want stop cur stripeData.length
        if inStart < 0 ∨ want < 0 ∨ (size : ℤ) < written.length + want then goPanic
        else if want = 0 then return (written, none)
        else
          readLoopAt r size stop (cur + want)
            (written ++ (stripeData.drop inStart.toNat).take want.toNat)
  else ret (written, none)
termination_by (stop - cur).toNat
decreasing_by
  have : r.want stop cur stripeData.length ≤ stop - cur :=
    le_trans (min_le_left _ _) (wrap64_le (by omega))
  omega

/-- `ReadAt` into a buffer of `size` bytes: the bytes written, and the error. -/
def readAt (r : Reader) (size : ℕ) (offset : ℤ) : NodeM (Bytes × Option GoErr) := do
  if r.m.size ≤ offset then return ([], some .eof)
  else
    let stop := min (wrap64 (offset + size)) r.m.size
    let (written, err) ← readLoopAt L svc r size stop offset []
    match err with
    | some e => return (written, some e)
    | none =>
      if written.length < size ∧ r.m.size ≤ wrap64 (offset + written.length) then
        return (written, some .eof)
      else return (written, none)

/-- `Read` into a buffer of `size` bytes: also the reader with its new position. -/
def read (r : Reader) (size : ℕ) : NodeM (Bytes × Option GoErr × Reader) := do
  if r.m.size ≤ r.pos then return ([], some .eof, r)
  else
    let (written, err) ← readAt L svc r size r.pos
    return (written, err, { r with pos := wrap64 (r.pos + written.length) })

end FnShare
