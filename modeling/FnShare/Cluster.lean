import FnShare.Lib.Interleave
import FnShare.World
import FnShare.File.Put
import FnShare.Repair
import FnShare.Spool

/-!
# Nodes that run concurrently

`Cluster` is the state of all nodes, and of the requests between them that nobody waits for any more. At
each node any number of uploads, rounds of the spool's worker and repairs run, one operation at a time and
in any order (`cluster`).

A request to a peer can fail in every way. It does not arrive. It is served and answered. It is served and
the answer is lost. Or the sender gives up while the request is under way, and the peer serves it at some
later time, when everything else may have gone on. A peer serves a request with one operation on its disk
(`Served.change`), so that the serving is one step.
-/

namespace FnShare

open Prog

/-- The state of all nodes, by their peer ids. -/
structure Cluster where
  node : Bytes → NodeState
  /-- The requests that are under way while their sender has given up: sender, receiver and request. -/
  flight : List (Bytes × Bytes × Request)

namespace Cluster

/-- No node has anything yet. -/
def fresh : Cluster := ⟨fun _ => .fresh, []⟩

/-- The state after a change at one node. -/
def set (w : Cluster) (n : Bytes) (s : NodeState) : Cluster :=
  { w with node := fun k => if k = n then s else w.node k }

/-- The node that is set. -/
@[simp] theorem node_set_self (w : Cluster) (n : Bytes) (s : NodeState) : (w.set n s).node n = s := by
  simp [set]

/-- The other nodes stay. -/
theorem node_set_ne (w : Cluster) {n k : Bytes} (s : NodeState) (h : k ≠ n) :
    (w.set n s).node k = w.node k := by
  simp [set, h]

/-- What is under way stays. -/
@[simp] theorem flight_set (w : Cluster) (n : Bytes) (s : NodeState) :
    (w.set n s).flight = w.flight := rfl

/-- Setting a node to what it is. -/
@[simp] theorem set_node (w : Cluster) (n : Bytes) : w.set n (w.node n) = w := by
  unfold set
  congr 1
  funext k
  split_ifs with h
  · rw [h]
  · rfl

/-- The last change of a node counts. -/
@[simp] theorem set_set (w : Cluster) (n : Bytes) (s s' : NodeState) :
    (w.set n s).set n s' = w.set n s' := by
  unfold set
  congr 1
  funext k
  by_cases h : k = n <;> simp [h]

end Cluster

variable (L : Libs)

/-- The node `pid` serves a request from the node `n`. -/
def Served (w : Cluster) (n pid : Bytes) (req : Request) (resp : Response) (w' : Cluster) : Prop :=
  ∃ evs s', Steps nodeEnv (w.node pid) (handleBlocks L true n (.ok req)) evs s' (ret resp) ∧
    w' = w.set pid s'

/-- What an operation of a program at the node `n` can do and answer. -/
def Cluster.exec (n : Bytes) (w : Cluster) : (o : NodeOp) → o.Ans → Cluster → Prop
  | .request pid req, r, w' =>
    (acknowledged r = false ∧ w' = w) ∨
    (∃ resp, Served L w n pid req resp w' ∧ (r = .ok resp ∨ ∃ e, r = .error e)) ∨
    ((∃ e, r = .error e) ∧ w' = { w with flight := (n, pid, req) :: w.flight })
  | o, r, w' => ∃ s', (w.node n).step o r s' ∧ w' = w.set n s'

/-- What happens without one of the programs: a request arrives that nobody waits for, or a node stores
some other record than a manifest. -/
def Cluster.drift (w w' : Cluster) : Prop :=
  (∃ x ∈ w.flight, ∃ resp v, Served L w x.1 x.2.1 x.2.2 resp v ∧
    w' = { v with flight := v.flight.erase x }) ∨
  ∃ n key raw, ¬ manifestPrefix <+: key ∧ w' = w.set n ((w.node n).putKey key raw)

/-- The programs that run at a node: uploads from among `S`, rounds of the spool's worker, and scans from
among `T`. -/
inductive RunsAt (S : Service → Bytes → Body → PutOptions → Prop) (T : Bytes → Bytes → Prop) :
    Bytes → NodeM Unit → Prop
  | put {svc : Service} {filename : Bytes} {body : Body} {opts : PutOptions} (h : S svc filename body opts) :
      RunsAt S T svc.self (put L svc filename body opts >>= fun _ => ret ())
  | flush (n : Bytes) : RunsAt S T n (flushAll L)
  | repair {n offlinePeer : Bytes} (h : T n offlinePeer) : RunsAt S T n (scanForOfflinePeer L n offlinePeer)

/-- The nodes and these programs, with any scans. The name of a node is the text of its peer id. -/
def clusterOf (S : Service → Bytes → Body → PutOptions → Prop) : System NodeSig Cluster Bytes GoErr Unit where
  exec := Cluster.exec L
  start n p := L.peerDecode n = .ok n ∧ RunsAt L S (fun _ _ => True) n p
  drift := Cluster.drift L

/-- The nodes, with any uploads. -/
abbrev cluster : System NodeSig Cluster Bytes GoErr Unit := clusterOf L fun _ _ _ _ => True

/-! ## What a step can do -/

variable {L}

/-- The change that serving a request makes to the disk: none, or a shard with the right hash, or a
manifest. A shard that is acknowledged is there. -/
def ServeChange (L : Libs) (req : Request) (resp : Response) (s s' : NodeState) : Prop :=
  (s' = s ∧ (req.op = .putShard → resp.ok = false)) ∨
  (req.op = .putShard ∧ hashOf req.body = req.id ∧ s' = s.putBlock req.id req.body) ∨
  (req.op = .putManifest ∧ ∃ m, L.cbor.manifest.unmarshal req.body = .ok m ∧
    s' = s.putKey (manifestKey m.fileID) (L.cbor.manifest.marshal m))

/-- Each branch of `serveBlock` has one effect. -/
theorem wp_serveBlock (req : Request) (s : NodeState) :
    wp nodeEnv (serveBlock L true req) (onOk fun resp s' => ServeChange L req resp s s') s := by
  refine wp_serveBlock_of (fun _ _ _ _ => trivial) (fun _ => .inl ⟨rfl, fun _ => rfl⟩) ?_
  intro o r resp s' hby hs
  cases hby with
  | shardPut hop =>
    -- The store checks the hash before it answers.
    simp only [nodeEnv, NodeState.step] at hs
    split_ifs at hs with hv
    · rcases hs with ⟨-, rfl⟩ | ⟨⟨e, he⟩, -⟩
      · exact .inr (.inl ⟨hop, by simpa [verifyHash] using hv, rfl⟩)
      · exact absurd he (by simp)
    · exact absurd hs.1 (by simp)
  | shardRefused =>
    simp only [nodeEnv, NodeState.step] at hs
    split_ifs at hs
    · rcases hs with ⟨he, -⟩ | ⟨-, rfl⟩
      · exact absurd he (by simp)
      · exact .inl ⟨rfl, fun _ => rfl⟩
    · exact .inl ⟨hs.2, fun _ => rfl⟩
  | manifestPut hop hdec =>
    rcases hs with ⟨-, rfl⟩ | ⟨⟨e, he⟩, -⟩
    · exact .inr (.inr ⟨hop, _, hdec, rfl⟩)
    · exact absurd he (by simp)
  | manifestRefused =>
    rcases hs with ⟨he, -⟩ | ⟨-, rfl⟩
    · exact absurd he (by simp)
    · exact .inl ⟨rfl, fun _ => rfl⟩
  | shardGot hop | manifestGot hop => exact .inl ⟨hs.1, fun hput => absurd (hop.symm.trans hput) (by simp)⟩
  | shardMissing | manifestMissing => exact .inl ⟨hs.1, fun _ => rfl⟩

/-- Whatever `serveBlock` comes to, `handleBlocks` does: the ledger is not on the disk. -/
theorem wp_handleBlocks {req : Request} {Q : Response → NodeState → Prop} {s : NodeState}
    (h : wp nodeEnv (serveBlock L true req) (onOk Q) s) (n : Bytes) :
    wp nodeEnv (handleBlocks L true n (.ok req)) (onOk Q) s := by
  unfold handleBlocks
  refine wp_bind_onOk h ?_
  intro resp s' hQ
  have hrecord : ∀ counter k, wp nodeEnv (perform (.record counter n k) >>= fun _ => ret resp)
      (onOk Q) s' := by
    intro counter k
    refine ⟨trivial, ?_⟩
    rintro r s'' rfl
    exact hQ
  split_ifs
  · cases req.op with
    | putShard => exact hrecord _ _
    | getShard => exact hrecord _ _
    | putManifest => exact hQ
    | getManifest => exact hQ
    | unknown k => exact hQ
  · exact hQ

/-- The change that serving a request makes. -/
theorem Served.change {w w' : Cluster} {n pid : Bytes} {req : Request} {resp : Response}
    (h : Served L w n pid req resp w') :
    ∃ s', w' = w.set pid s' ∧ ServeChange L req resp (w.node pid) s' := by
  obtain ⟨evs, s', hsteps, rfl⟩ := h
  exact ⟨s', rfl, wp_steps hsteps (wp_handleBlocks (wp_serveBlock req _) n)⟩

end FnShare
