import FnShare.Lib.Prog
import FnShare.Libs

/-!
# The effects of a node

The operations through which the code of a node acts: the clock and the random source, the
key-value store, the block store, the spool, the ledger, the stripe cache, the streams to other
peers, and the panics of the Go runtime. A function of the code that does more than compute is a
program over these (`NodeM`). Each operation is one step that runs without interruption, as the
code has it: a store transaction, a rename into place, a method that holds a mutex throughout. A
request to a peer is one step of the caller; what happens on the way is the environment's part.

The log is left out. Where a log line slices a string it can panic, so the slice stays
(`slice12`).
-/

namespace FnShare

/-- The operations of a node. -/
inductive NodeOp
  /-- `time.Now()`. -/
  | now
  /-- `rand.Read` of `n` bytes. -/
  | rand (n : ℕ)
  /-- `store.Get`. -/
  | storeGet (key : Bytes)
  /-- `store.Put`. -/
  | storePut (key value : Bytes)
  /-- `store.Iterate`, with the pairs that the callback sees. -/
  | storeIterate (pre : Bytes)
  /-- `blockstore.Put`. -/
  | blockPut (shardID data : Bytes)
  /-- `blockstore.Get`. -/
  | blockGet (shardID : Bytes)
  /-- `node.blockRequest`: a request of the blocks protocol to a peer, and its response. -/
  | request (peer : Bytes) (req : Request)
  /-- `ledger.IsOnline`. -/
  | isOnline (peer : Bytes)
  /-- One of the four `ledger.Record...` methods. -/
  | record (counter : Counter) (peer : Bytes) (n : ℤ)
  /-- `spool.write`. -/
  | spoolWrite (peer : Bytes) (kind : Kind) (key data : Bytes)
  /-- `spool.PendingPeers`. -/
  | spoolPeers
  /-- `spool.ListEntries`. -/
  | spoolList (peer : Bytes)
  /-- `spool.Read`. -/
  | spoolRead (e : SpoolEntry)
  /-- `spool.Remove`. -/
  | spoolRemove (e : SpoolEntry)
  /-- `StripeCache.Get`. -/
  | cacheGet (fileID : Bytes) (idx : ℤ)
  /-- `StripeCache.Put`. -/
  | cachePut (fileID : Bytes) (idx : ℤ) (data : Bytes)
  /-- The order in which a `range` over a map visits its keys. -/
  | rangeMap (keys : List Bytes)
  /-- `Host.Network().Peers()`. -/
  | connected
  /-- A join request to a peer over its own stream, and the decoded response. -/
  | sendJoin (peer : Bytes) (req : JoinRequest)
  /-- A members request to a peer over its own stream, and the decoded response. -/
  | sendMembers (peer : Bytes) (req : MembersRequest)
  /-- The response to the join request that a handler serves. -/
  | replyJoin (resp : JoinResponse)
  /-- The response to the members request that a handler serves. -/
  | replyMembers (resp : MembersResponse)
  /-- A panic of the Go runtime, after which the daemon is gone. -/
  | panic

/-- The answer to an operation of a node. An iteration can stop at an error after some pairs. -/
@[reducible] def NodeOp.Ans : NodeOp → Type
  | now => ℤ
  | rand n => Except GoErr { b : Bytes // b.length = n }
  | storeGet _ => Except GoErr Bytes
  | storePut _ _ => Except GoErr Unit
  | storeIterate _ => List (Bytes × Bytes) × Option GoErr
  | blockPut _ _ => Except GoErr Unit
  | blockGet _ => Except GoErr Bytes
  | request _ _ => Except GoErr Response
  | isOnline _ => Bool
  | record _ _ _ => Unit
  | spoolWrite _ _ _ _ => Except GoErr Unit
  | spoolPeers => Except GoErr (List Bytes)
  | spoolList _ => Except GoErr (List SpoolEntry)
  | spoolRead _ => Except GoErr Bytes
  | spoolRemove _ => Except GoErr Unit
  | cacheGet _ _ => Option Bytes
  | cachePut _ _ _ => Unit
  | rangeMap keys => { l : List Bytes // l.Perm keys }
  | connected => List Bytes
  | sendJoin _ _ => Except GoErr JoinResponse
  | sendMembers _ _ => Except GoErr MembersResponse
  | replyJoin _ => Except GoErr Unit
  | replyMembers _ => Except GoErr Unit
  | panic => Empty

/-- The effect signature of a node. -/
@[reducible] def NodeSig : Sig := ⟨NodeOp, NodeOp.Ans⟩

/-- A program of a node. -/
abbrev NodeM (α : Type) := Prog NodeSig GoErr α

/-- One operation performed by a node, with its answer. -/
abbrev NodeEvent := Event NodeSig

open Prog

/-- Perform one operation of a node. -/
abbrev perform (o : NodeOp) : NodeM o.Ans := Prog.op (S := NodeSig) o ret

/-- Stop the daemon. -/
def goPanic {α : Type} : NodeM α := Prog.op (S := NodeSig) .panic fun r => nomatch r

/-- The value of a computation that can panic; `none` is the panic. -/
def orPanic {α : Type} : Option α → NodeM α
  | some a => ret a
  | none => goPanic

/-- `s[:12]` where only the panic matters. -/
def slice12 (s : Bytes) : NodeM Unit := if 12 ≤ s.length then ret () else goPanic

/-- `time.Now()`. -/
def now : NodeM ℤ := perform .now

/-- `rand.Read` into a buffer of `n` bytes. -/
def randRead (n : ℕ) : NodeM { b : Bytes // b.length = n } := do
  ofExcept (← perform (.rand n))

/-- `store.Get`. -/
def storeGet (key : Bytes) : NodeM Bytes := do
  ofExcept (← perform (.storeGet key))

/-- `store.Put`. -/
def storePut (key value : Bytes) : NodeM Unit := do
  ofExcept (← perform (.storePut key value))

/-- A long enough text is sliced. -/
@[simp] theorem slice12_of_le {s : Bytes} (h : 12 ≤ s.length) : slice12 s = ret () := by
  simp [slice12, h]

/-- A value that is there. -/
@[simp] theorem orPanic_some {α : Type} (a : α) : orPanic (some a) = ret a := rfl

/-! ## Programs that may panic -/

section Panic

variable {A : NodeOp → Prop}

/-- The one operation of a panic. -/
@[simp] theorem only_goPanic {α : Type} (h : A .panic) : (goPanic : NodeM α).Only A :=
  ⟨h, fun r => Empty.elim r⟩

/-- A value is taken, or there is a panic. -/
theorem only_orPanic {α : Type} (h : A .panic) (x : Option α) : (orPanic x).Only A := by
  cases x with
  | none => exact only_goPanic h
  | some a => trivial

/-- Slicing returns no error. -/
theorem handled_slice12 (s : Bytes) : (slice12 s).Handled := by
  unfold slice12
  split_ifs
  · trivial
  · exact fun r => Empty.elim r

/-- Slicing panics or does nothing. -/
theorem only_slice12 (h : A .panic) (s : Bytes) : (slice12 s).Only A := by
  unfold slice12
  split_ifs
  · trivial
  · exact only_goPanic h

end Panic

end FnShare
