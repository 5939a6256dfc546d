import FnShare.Ec
import FnShare.Node.Blocks

/-!
# Repair

The package `internal/repair`: when a peer has gone offline, every file with the peer among its holders
is looked at. If no more than `DataShards` holders are up, the shards of the peer's slot are reconstructed
stripe by stripe and put on a spare member of the group, which then takes the slot in the manifest. The
manifest is written back as a whole and sent to the holders.
-/

namespace FnShare

open Prog

variable (L : Libs) (self : Bytes)

/-- The count of the holders that are up. -/
def countLive : List Bytes → ℤ → NodeM ℤ
  | [], live => return live
  | h :: rest, live => do
    if h = self then countLive rest (live + 1)
    else
      let online ← perform (.isOnline h)
      countLive rest (if online then live + 1 else live)

/-- The search for a spare: a member that is no holder yet and up. The empty string is none. -/
def findSpare (holders : List Bytes) : List Member → NodeM Bytes
  | [] => return []
  | mem :: rest => do
    if mem.peerID ∈ holders then findSpare holders rest
    else if mem.peerID = self then return mem.peerID
    else
      let online ← perform (.isOnline mem.peerID)
      if online then return mem.peerID else findSpare holders rest

/-- The body of the loop of `migrateStripeShard`: the shard of one other slot, if it can be had. -/
def fetchSurvivor (m : Manifest) (i : ℕ) (shardID : Bytes) : NodeM (Option Bytes) := do
  match ← perform (.blockGet shardID) with
  | .ok data => return some data
  | .error _ =>
    let holder ← orPanic m.holders[i]?
    if holder = self then return none
    else
      let online ← perform (.isOnline holder)
      if !online then return none
      else
        match L.peerDecode holder with
        | .error _ => return none
        | .ok pid =>
          match ← attempt (getShardFromPeer pid shardID) with
          | .error _ => return none
          | .ok data => return some data

/-- The loop of `migrateStripeShard` over the slots from `i` on, with the number of shards that were
gathered: the shards of these slots, and the number after them. -/
def gatherSurvivors (m : Manifest) (slot : ℕ) :
    ℕ → List Bytes → ℤ → NodeM (List (Option Bytes) × ℤ)
  | _, [], gathered => return ([], gathered)
  | i, shardID :: rest, gathered => do
    if gathered < m.dataShards then
      if i = slot then
        let (shards, n) ← gatherSurvivors m slot (i + 1) rest gathered
        return (none :: shards, n)
      else
        let shard ← fetchSurvivor L self m i shardID
        let (shards, n) ← gatherSurvivors m slot (i + 1) rest
          (if shard.isSome then gathered + 1 else gathered)
        return (shard :: shards, n)
    else return (none :: rest.map fun _ => none, gathered)

/-- The end of `migrateStripeShard`: the shard is put on the spare. -/
def placeShard (spare shardID data : Bytes) : NodeM Unit := do
  if spare = self then ofExcept (← perform (.blockPut shardID data))
  else
    match L.peerDecode spare with
    | .error e => fail e
    | .ok pid => putShardOnPeer pid shardID data

/-- `migrateStripeShard`. -/
def migrateStripeShard (m : Manifest) (stripe : Stripe) (slot : ℕ) (spare : Bytes) : NodeM Unit := do
  let total := wrap64 (m.dataShards + m.parityShards)
  if (stripe.shardIDs.length : ℤ) ≠ total then
    fail (.msg (lit "stripe " ++ fmtInt stripe.index ++ lit " malformed"))
  else
    let (shardBytes, gathered) ← gatherSurvivors L self m slot 0 stripe.shardIDs 0
    if gathered < m.dataShards then
      fail (.msg (lit "only " ++ fmtInt gathered ++ lit " of " ++ fmtInt m.dataShards ++
        lit " required shards available — cannot reconstruct"))
    else
      match ← orPanic (Params.decode L ⟨m.dataShards, m.parityShards⟩ shardBytes
        stripe.ciphertextBytes) with
      | .error e => fail (.wrap (lit "ec reconstruct: ") e)
      | .ok (full, _) =>
        match ← orPanic full[slot]? with
        | none => fail (.msg (lit "ec reconstruct produced no shard at slot " ++ fmtNat slot))
        | some data =>
          let shardID ← orPanic stripe.shardIDs[slot]?
          if hashOf data ≠ shardID then
            fail (.msg (lit "reconstructed shard hash mismatch at slot " ++ fmtNat slot))
          else placeShard L self spare shardID data

/-- The loop of `repairFile` over the stripes. -/
def migrateStripes (m : Manifest) (slot : ℕ) (spare : Bytes) : List Stripe → NodeM Unit
  | [] => return ()
  | stripe :: rest => do
    match ← attempt (migrateStripeShard L self m stripe slot spare) with
    | .error e =>
      slice12 m.fileID
      fail e
    | .ok () => migrateStripes m slot spare rest

/-- The body of the loop of `repairFile` over the holders: the manifest to one of them. -/
def propagate (m : Manifest) (h : Bytes) : NodeM Unit := do
  if h = self then return ()
  else
    match L.peerDecode h with
    | .error _ => return ()
    | .ok pid =>
      let _ ← (attempt (putManifestOnPeer L pid m) : NodeM (Except GoErr Unit))
      return ()

/-- The part of `repairFile` from where the spare is known. -/
def migrateSlot (m : Manifest) (slot : ℕ) (spare : Bytes) : NodeM Unit := do
  migrateStripes L self m slot spare m.stripes
  let m' : Manifest := { m with holders := m.holders.set slot spare }
  mapErr (.wrap (lit "save manifest: ")) (putManifest L m')
  m'.holders.foldlM (fun _ h => propagate L self m' h) ()
  slice12 m'.fileID

/-- `repairFile`. -/
def repairFile (m : Manifest) (slot : ℕ) : NodeM Unit := do
  let live ← countLive self m.holders 0
  if m.dataShards < live then slice12 m.fileID
  else
    match ← listMembers L m.groupID with
    | (_, some e) => fail (.wrap (lit "list members: ") e)
    | (members, none) =>
      let spare ← findSpare self m.holders members
      if spare = [] then
        slice12 m.fileID
        slice12 m.groupID
      else migrateSlot L self m slot spare

/-- The loop of `ScanForOfflinePeer`. -/
def repairFiles (offlinePeer : Bytes) : List Manifest → NodeM Unit
  | [] => return ()
  | m :: rest => do
    match m.holders.findIdx? (· = offlinePeer) with
    | none => repairFiles offlinePeer rest
    | some slot =>
      match ← attempt (repairFile L self m slot) with
      | .ok () => repairFiles offlinePeer rest
      | .error _ =>
        slice12 m.fileID
        repairFiles offlinePeer rest

/-- `ScanForOfflinePeer`. -/
def scanForOfflinePeer (offlinePeer : Bytes) : NodeM Unit := do
  match ← listManifests L with
  | (_, some _) => return ()
  | (manifests, none) => repairFiles L self offlinePeer manifests

end FnShare
