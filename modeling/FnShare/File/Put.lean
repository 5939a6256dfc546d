import FnShare.Crypto
import FnShare.Ec
import FnShare.Holders
import FnShare.Lib.Base64
import FnShare.Lib.Body
import FnShare.Node.Blocks

/-!
# Uploading a file

`Service.Put` of `internal/file`: a file is read stripe by stripe; each stripe is encrypted under the
file's key, erasure coded, and its shards are shipped to the holders, slot by slot (`uploadStripe`). A
shard whose holder is not reached goes into the spool. After the last stripe the manifest is stored
and sent to the holders.

The loop over the stripes ends because every turn but the last takes a full stripe off the body.
-/

namespace FnShare

open Prog

/-- `file.Service`: its configuration, and the identity of the node. -/
structure Service where
  /-- The peer id of the node. -/
  self : Bytes
  /-- The public key of private files. -/
  encPub : Bytes
  encPriv : Bytes
  params : Params
  /-- Plaintext bytes of a stripe. -/
  stripeSize : ℕ
  stripeSize_pos : 0 < stripeSize
  /-- `Put` allocates a stripe, and with nonce and tag it is sealed; `New` sets 4 MiB. -/
  stripeSize_le : Allocatable (stripeSize + 28)
  /-- Whether a spool is attached. -/
  spool : Bool

/-- `PutOptions`. -/
structure PutOptions where
  groupID : Bytes
  mode : Bytes

/-- `sort.Strings`. -/
def sortStrings (l : List Bytes) : List Bytes := l.insertionSort (· ≤ ·)

variable (L : Libs) (svc : Service)

/-- `resolveGroup`. -/
def resolveGroup (gid : Bytes) : NodeM Group := do
  if gid ≠ [] then loadByID L gid
  else
    match ← listGroups L with
    | (_, some e) => fail e
    | ([], none) =>
      fail (.msg (lit "not a member of any group — create or join one first"))
    | ([g], none) => return g
    | (_, none) =>
      fail (.msg (lit "you are in multiple groups — please specify --group / ?group=<id>"))

/-- `groupMemberIDs`. -/
def groupMemberIDs (gid : Bytes) : NodeM (List Bytes) := do
  match ← listMembers L gid with
  | (_, some e) => fail e
  | (members, none) => return sortStrings (members.map Member.peerID)

/-- `wrapForMode`: the file's key as the manifest has it, the name as the manifest has it, and
whether that is encrypted. -/
def wrapForMode (mode fileKey filename : Bytes) (g : Group) : NodeM (Bytes × Bytes × Bool) := do
  if mode = modeShared then
    if g.sharedKey.length ≠ fileKeySize then fail (.msg (lit "group has no shared key"))
    else
      let wrapped ← sealAES L g.sharedKey fileKey
      return (wrapped, filename, false)
  else if mode = modePrivate then
    if svc.encPub.length ≠ encPubSize then fail (.msg (lit "local node has no enc keypair"))
    else
      let wrapped ← sealAnonymous L fileKey svc.encPub
      let ct ← sealAES L fileKey filename
      return (wrapped, Base64.encode ct, true)
  else fail (.msg (lit "unknown mode " ++ quote mode))

/-- `pnameKey`. -/
def pnameKey (fileID : Bytes) : Bytes := lit "pname/" ++ fileID

/-- `savePrivateName`. -/
def savePrivateName (fileID name : Bytes) : NodeM Unit := do
  if name = [] then return ()
  else storePut (pnameKey fileID) (L.cbor.text.marshal name)

/-- The body of the loop of `uploadStripe`: one shard to the holder of its slot. -/
def shipShard (holderList : List Bytes) (i : ℕ) (sh : Bytes) : NodeM Bytes := do
  let shardID := hashOf sh
  let holder ← orPanic holderList[i]?
  if holder = svc.self then
    match ← perform (.blockPut shardID sh) with
    | .error e => fail (.wrap (lit "local put shard " ++ fmtNat i ++ lit ": ") e)
    | .ok () => return shardID
  else
    match L.peerDecode holder with
    | .error e => fail (.wrap (lit "bad holder " ++ quote holder ++ lit ": ") e)
    | .ok pid =>
      match ← attempt (putShardOnPeer pid shardID sh) with
      | .ok () => return shardID
      | .error e =>
        let failure : GoErr :=
          .wrap (lit "ship shard " ++ fmtNat i ++ lit " → " ++ holder ++ lit ": ") e
        if svc.spool then
          match ← perform (.spoolWrite holder .shard shardID sh) with
          | .ok () =>
            slice12 shardID
            return shardID
          | .error _ => fail failure
        else fail failure

/-- The loop of `uploadStripe` over the shards, from slot `i` on. -/
def shipShards (holderList : List Bytes) : ℕ → List Bytes → NodeM (List Bytes)
  | _, [] => return []
  | i, sh :: rest => do
    let id ← shipShard L svc holderList i sh
    let ids ← shipShards holderList (i + 1) rest
    return id :: ids

/-- `uploadStripe`. -/
def uploadStripe (fileKey : Bytes) (holderList : List Bytes) (idx : ℕ) (plaintext : Bytes) :
    NodeM Stripe := do
  let ct ← mapErr (.wrap (lit "encrypt: ")) (sealAES L fileKey plaintext)
  let shards ← ofExcept ((svc.params.encode L ct).mapError (.wrap (lit "ec encode: ")))
  let ids ← shipShards L svc holderList 0 shards
  return { index := idx, shardIDs := ids, plaintextBytes := plaintext.length,
           ciphertextBytes := ct.length }

/-- Whether an error is one of the two that `Put` takes for the end of the file. -/
def endOfFile (e : Option GoErr) : Bool := e = some .eof || e = some .unexpectedEOF

/-- The loop of `Put` over the stripes: the stripes, and the bytes read. -/
def putLoop (fileKey : Bytes) (holderList : List Bytes) (body : Body) (stripeIdx : ℕ)
    (stripes : List Stripe) (totalBytes : ℤ) : NodeM (List Stripe × ℤ) :=
  let read := readFull svc.stripeSize body
  let buf := read.1
  let readErr := read.2.1
  if buf.length = 0 ∧ endOfFile readErr then ret (stripes, totalBytes)
  else do
    let stripe ← mapErr (.wrap (lit "stripe " ++ fmtNat stripeIdx ++ lit ": "))
      (uploadStripe L svc fileKey holderList stripeIdx buf)
    if endOfFile readErr then ret (stripes ++ [stripe], totalBytes + buf.length)
    else
      match _ : readErr with
      | some e => fail (.wrap (lit "read body: ") e)
      | none =>
        putLoop fileKey holderList read.2.2 (stripeIdx + 1) (stripes ++ [stripe])
          (totalBytes + buf.length)
termination_by body.data.length
decreasing_by exact length_readFull_lt svc.stripeSize_pos ‹_›

/-- The body of the loop of `Put` over the holders: the manifest to one of them. -/
def replicateManifest (fileID raw : Bytes) (h : Bytes) : NodeM Unit := do
  if h = svc.self then return ()
  else
    match L.peerDecode h with
    | .error _ => return ()
    | .ok pid =>
      match ← attempt (putManifestRawOnPeer pid fileID raw) with
      | .ok () => return ()
      | .error _ =>
        if svc.spool then
          match ← perform (.spoolWrite h .manifest fileID raw) with
          | .ok () => slice12 fileID
          | .error _ => return ()
        else return ()

/-- The branch of `Put` that keeps the name of a private file. -/
def keepName (m : Manifest) (filename : Bytes) : NodeM Unit := do
  if m.mode = modePrivate then
    match ← attempt (savePrivateName L m.fileID filename) with
    | .ok () => return ()
    | .error _ => slice12 m.fileID
  else return ()

/-- The end of `Put`, from where the manifest is complete. -/
def publish (m : Manifest) (filename : Bytes) : NodeM Unit := do
  mapErr (.wrap (lit "save manifest: ")) (putManifest L m)
  keepName L m filename
  let raw := L.cbor.manifest.marshal m
  m.holders.foldlM (fun _ h => replicateManifest L svc m.fileID raw h) ()
  slice12 m.fileID
  slice12 m.groupID

/-- The error of a group that is too small. -/
def errTooFew (gid : Bytes) (n : ℕ) (p : Params) : GoErr :=
  .msg (lit "group " ++ gid.take 12 ++ lit " has " ++ fmtNat n ++ lit " members, need at least " ++
    fmtInt p.total ++ lit " for " ++ fmtInt p.dataShards ++ lit "+" ++ fmtInt p.parityShards ++
    lit " EC")

/-- `Put`. -/
def put (filename : Bytes) (body : Body) (opts : PutOptions) : NodeM Manifest := do
  let g ← resolveGroup L opts.groupID
  let mode := if opts.mode = [] then modeShared else opts.mode
  if mode ≠ modeShared ∧ mode ≠ modePrivate then fail (.msg (lit "unknown mode " ++ quote mode))
  else
    let fid ← randRead 16
    let fileID := hexEncode fid.1
    let fileKey ← newFileKey
    let memberIDs ← groupMemberIDs L g.id
    if (memberIDs.length : ℤ) < svc.params.total then
      slice12 g.id
      fail (errTooFew g.id memberIDs.length svc.params)
    else
      let holderList := pick memberIDs fileID svc.params.total
      let (wrapped, displayName, fnEncrypted) ← wrapForMode L svc mode fileKey.1 filename g
      let t ← now
      let (stripes, total) ← putLoop L svc fileKey.1 holderList body 0 [] 0
      if total = 0 then fail (.msg (lit "file is empty"))
      else
        let m : Manifest :=
          { fileID := fileID, groupID := g.id, filename := displayName, size := total,
            dataShards := svc.params.dataShards, parityShards := svc.params.parityShards,
            stripeDataSize := svc.stripeSize, holders := holderList, stripes := stripes,
            createdAt := t, ownerPeerID := svc.self, mode := mode, wrappedKey := wrapped,
            filenameEncrypted := fnEncrypted }
        publish L svc m filename
        return m

end FnShare
