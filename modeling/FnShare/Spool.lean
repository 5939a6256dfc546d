import FnShare.Node.Blocks

/-!
# The worker of the spool

`worker.go` of `internal/spool`: in each round the worker goes through the peers that something is
queued for, and sends a peer that is online its shards, then its manifests. What was sent is removed; at
the first failure the peer is left to the next round.

The spool itself is `NodeState.spool`: the contents of its entries, each a file that appears and goes at
once.
-/

namespace FnShare

open Prog

/-- The sending of one entry, by its kind. -/
def sendEntry (pid : Bytes) (e : SpoolEntry) (data : Bytes) : NodeM Unit :=
  match e.kind with
  | .shard => putShardOnPeer pid e.key data
  | .manifest => putManifestRawOnPeer pid e.key data

/-- The inner loop of `flushPeer`, over the entries of one kind: whether no sending failed. -/
def flushKind (pid : Bytes) (kind : Kind) : List SpoolEntry → NodeM Bool
  | [] => return true
  | e :: rest => do
    if e.kind ≠ kind then flushKind pid kind rest
    else
      match ← perform (.spoolRead e) with
      | .error _ => flushKind pid kind rest
      | .ok data =>
        match ← attempt (sendEntry pid e data) with
        | .error _ => return false
        | .ok () =>
          let _ ← perform (.spoolRemove e)
          flushKind pid kind rest

/-- `flushPeer`: shards first, then manifests. -/
def flushPeer (L : Libs) (peerID : Bytes) : NodeM Unit := do
  match L.peerDecode peerID with
  | .error _ => return ()
  | .ok pid =>
    match ← perform (.spoolList peerID) with
    | .error _ => return ()
    | .ok entries =>
      match ← flushKind pid .shard entries with
      | false => return ()
      | true =>
        let _ ← flushKind pid .manifest entries
        return ()

/-- The loop of `flushAll`. -/
def flushPeers (L : Libs) : List Bytes → NodeM Unit
  | [] => return ()
  | p :: rest => do
    match ← perform (.isOnline p) with
    | false => flushPeers L rest
    | true =>
      flushPeer L p
      flushPeers L rest

/-- `flushAll`: one round of the worker. -/
def flushAll (L : Libs) : NodeM Unit := do
  match ← perform .spoolPeers with
  | .error _ => return ()
  | .ok peers => flushPeers L peers

end FnShare
