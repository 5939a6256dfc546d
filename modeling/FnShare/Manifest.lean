import FnShare.Group

/-!
# Manifests in the store

The package `internal/manifest`: one record for each file, under the file's id.
-/

namespace FnShare

open Prog

/-- The prefix of the keys of manifests. -/
def manifestPrefix : Bytes := lit "manifest/"

/-- `key`. -/
def manifestKey (fileID : Bytes) : Bytes := manifestPrefix ++ fileID

/-- `manifest.ErrNotFound`. -/
def errManifestNotFound : GoErr := .msg (lit "manifest: not found")

variable (L : Libs)

/-- `manifest.Put`. -/
def putManifest (m : Manifest) : NodeM Unit :=
  storePut (manifestKey m.fileID) (L.cbor.manifest.marshal m)

/-- `manifest.Get`. -/
def getManifest (fileID : Bytes) : NodeM Manifest := do
  match ← attempt (storeGet (manifestKey fileID)) with
  | .error e => if e = errStoreNotFound then fail errManifestNotFound else fail e
  | .ok raw => ofExcept (L.cbor.manifest.unmarshal raw)

/-- `manifest.List`: what was read, and the error that ended the reading if one did. -/
def listManifests : NodeM (List Manifest × Option GoErr) := do
  let (pairs, err) ← perform (.storeIterate manifestPrefix)
  return (decodeValues L.cbor.manifest pairs, err)

/-- Keys of different files are different. -/
theorem manifestKey_inj {f f' : Bytes} (h : manifestKey f = manifestKey f') : f = f' :=
  List.append_cancel_left h

end FnShare
