import FnShare.Lib.SortedMap
import FnShare.Blockstore
import FnShare.Group
import FnShare.Instance

/-!
# The state of one node

`NodeState` is what a node keeps on its disk: the key-value store, the block store by shard ids, and
the spool. `NodeState.step` says what each operation of the node does to it and what it can answer.
Operations on the disk can fail, and change nothing then. What comes from outside (clock, random
bytes, other peers) can be anything. `nodeEnv` runs one program of a node over it.

The block store here is the one that the rest of the code relies on, a map from shard ids. Below it
are the files of `Blockstore.lean`: `diskStep_refines` says that the files behave like the map, as
far as well-formed ids go. Of other ids a `Get` on the map can answer anything.
-/

namespace FnShare

open Prog

/-- What a node keeps on its disk. -/
structure NodeState where
  /-- The key-value store. -/
  store : SortedMap Bytes Bytes
  /-- The shards, by their ids. -/
  blocks : Bytes → Option Bytes
  /-- The contents of the spool's entries. -/
  spool : SpoolEntry → Option Bytes

namespace NodeState

/-- A node that has nothing yet. -/
def fresh : NodeState := ⟨.empty, fun _ => none, fun _ => none⟩

/-- The answer of `store.Get` without a fault. -/
def read (s : NodeState) (key : Bytes) : Except GoErr Bytes :=
  match s.store.get key with
  | some v => .ok v
  | none => .error errStoreNotFound

/-- The pairs that `store.Iterate` visits without a fault, in the order of their keys. -/
def scan (s : NodeState) (pre : Bytes) : List (Bytes × Bytes) :=
  s.store.entries.filter fun kv => pre.isPrefixOf kv.1

/-- The answer of `blockstore.Get` without a fault. -/
def block (s : NodeState) (id : Bytes) : Except GoErr Bytes :=
  match s.blocks id with
  | some b => .ok b
  | none => .error errBlockNotFound

/-- The state after `store.Put`. -/
def putKey (s : NodeState) (key value : Bytes) : NodeState :=
  { s with store := s.store.put key value }

/-- The state after `blockstore.Put`. -/
def putBlock (s : NodeState) (id data : Bytes) : NodeState :=
  { s with blocks := fun i => if i = id then some data else s.blocks i }

/-- The state after a change to one entry of the spool. -/
def setSpool (s : NodeState) (e : SpoolEntry) (c : Option Bytes) : NodeState :=
  { s with spool := fun e' => if e' = e then c else s.spool e' }

/-- What an operation of a node can do to its state and answer. -/
def step (s : NodeState) : (o : NodeOp) → o.Ans → NodeState → Prop
  | .storeGet key, r, s' => s' = s ∧ (r = s.read key ∨ ∃ e ≠ errStoreNotFound, r = .error e)
  | .storePut key value, r, s' =>
    (r = .ok () ∧ s' = s.putKey key value) ∨ ((∃ e, r = .error e) ∧ s' = s)
  | .storeIterate pre, r, s' =>
    s' = s ∧ (r = (s.scan pre, none) ∨ ∃ l e, l <+: s.scan pre ∧ r = (l, some e))
  | .blockPut id data, r, s' =>
    if verifyHash id data then
      (r = .ok () ∧ s' = s.putBlock id data) ∨ ((∃ e, r = .error e) ∧ s' = s)
    else r = .error errHashMismatch ∧ s' = s
  | .blockGet id, r, s' =>
    s' = s ∧ (isShardID id = true → r = s.block id ∨ ∃ e, r = .error e)
  | .spoolWrite peer kind key data, r, s' =>
    if peer = [] ∨ key = [] then r = .error (.msg (lit "spool: empty peer id or key")) ∧ s' = s
    else (r = .ok () ∧ s' = s.setSpool ⟨peer, kind, key⟩ (some data)) ∨
      ((∃ e, r = .error e) ∧ s' = s)
  | .spoolPeers, r, s' =>
    -- The directory of a peer can be there without an entry in it.
    s' = s ∧ ((∃ ps, r = .ok ps ∧ ∀ e, s.spool e ≠ none → e.peerID ∈ ps) ∨ ∃ e, r = .error e)
  | .spoolList peer, r, s' =>
    s' = s ∧ ((∃ es, r = .ok es ∧ es.Nodup ∧ ∀ e, e ∈ es ↔ e.peerID = peer ∧ s.spool e ≠ none) ∨
      ∃ e, r = .error e)
  | .spoolRead e, r, s' => s' = s ∧ ((∃ b, s.spool e = some b ∧ r = .ok b) ∨ ∃ err, r = .error err)
  | .spoolRemove e, r, s' =>
    (r = .ok () ∧ s' = s.setSpool e none) ∨ ((∃ err, r = .error err) ∧ s' = s)
  | _, _, s' => s' = s

end NodeState

/-- A shard that was put has the hash of its id and is there. -/
theorem NodeState.step_blockPut_ok {s s' : NodeState} {id data : Bytes}
    (h : s.step (.blockPut id data) (.ok ()) s') : hashOf data = id ∧ s' = s.putBlock id data := by
  simp only [NodeState.step] at h
  split_ifs at h with hv
  · rcases h with ⟨-, rfl⟩ | ⟨⟨e, he⟩, -⟩
    · exact ⟨by simpa [verifyHash] using hv, rfl⟩
    · exact absurd he (by simp)
  · exact absurd h.1 (by simp)

/-- The changes that an operation of a node can make to its disk. -/
theorem NodeState.step_cases {s s' : NodeState} {o : NodeOp} {r : o.Ans} (h : s.step o r s') :
    s' = s ∨
    (∃ key value, (⟨o, r⟩ : NodeEvent) = ⟨.storePut key value, .ok ()⟩ ∧ s' = s.putKey key value) ∨
    (∃ id data, (⟨o, r⟩ : NodeEvent) = ⟨.blockPut id data, .ok ()⟩ ∧ hashOf data = id ∧
      s' = s.putBlock id data) ∨
    (∃ e data, (⟨o, r⟩ : NodeEvent) = ⟨.spoolWrite e.peerID e.kind e.key data, .ok ()⟩ ∧
      s' = s.setSpool e (some data)) ∨
    ∃ e, (⟨o, r⟩ : NodeEvent) = ⟨.spoolRemove e, .ok ()⟩ ∧ s' = s.setSpool e none := by
  cases o with
  | storePut key value =>
    rcases h with ⟨rfl, rfl⟩ | ⟨-, rfl⟩
    · exact .inr (.inl ⟨key, value, rfl, rfl⟩)
    · exact .inl rfl
  | blockPut id data =>
    simp only [NodeState.step] at h
    split_ifs at h with hv
    · rcases h with ⟨rfl, rfl⟩ | ⟨-, rfl⟩
      · exact .inr (.inr (.inl ⟨id, data, rfl, by simpa [verifyHash] using hv, rfl⟩))
      · exact .inl rfl
    · exact .inl h.2
  | spoolWrite peer kind key data =>
    simp only [NodeState.step] at h
    split_ifs at h with hempty
    · exact .inl h.2
    · rcases h with ⟨rfl, rfl⟩ | ⟨-, rfl⟩
      · exact .inr (.inr (.inr (.inl ⟨⟨peer, kind, key⟩, data, rfl, rfl⟩)))
      · exact .inl rfl
  | spoolRemove e =>
    rcases h with ⟨rfl, rfl⟩ | ⟨-, rfl⟩
    · exact .inr (.inr (.inr (.inr ⟨e, rfl, rfl⟩)))
    · exact .inl rfl
  | storeGet _ | storeIterate _ | blockGet _ | spoolPeers | spoolList _ | spoolRead _ =>
    exact .inl h.1
  | _ => exact .inl h

/-- The groups of a node. -/
def NodeState.groups (L : Libs) (s : NodeState) : List Group :=
  decodeValues L.cbor.group (s.scan (lit "group/"))

/-- The group that a node has stored under an id. -/
def NodeState.group (L : Libs) (s : NodeState) (gid : Bytes) : Option Group :=
  (s.store.get (groupKey gid)).bind fun raw => (L.cbor.group.unmarshal raw).toOption

/-- The entry that a node has stored for a peer of a group. -/
def NodeState.member (L : Libs) (s : NodeState) (gid pid : Bytes) : Option Member :=
  (s.store.get (memberKey gid pid)).bind fun raw => (L.cbor.member.unmarshal raw).toOption

/-- The members that a node has stored of a group. -/
def NodeState.members (L : Libs) (s : NodeState) (gid : Bytes) : List Member :=
  decodeValues L.cbor.member (s.scan (memberPrefix gid))

/-- One program of a node, run over the state of the node. -/
def nodeEnv : Env NodeSig NodeState where
  step s o r s' := s.step o r s'
  guard _ _ := True

/-! ## What is stored -/

section Stored

variable {L : Libs}
variable {s s' : NodeState} {key raw : Bytes}

/-- A saved group is loaded with its time in seconds. -/
theorem NodeState.group_putKey (hC : L.cbor.Lawful) (s : NodeState) (g : Group)
    (hg : g.validText = true) :
    (s.putKey (groupKey g.id) (L.cbor.group.marshal g)).group L g.id = some g.norm := by
  simp [NodeState.group, NodeState.putKey, hC.group.unmarshal_marshal hg, Except.toOption]

/-- A saved entry is loaded with its time in seconds. -/
theorem NodeState.member_putKey (hC : L.cbor.Lawful) (s : NodeState) (gid : Bytes) (m : Member)
    (hm : m.validText = true) :
    (s.putKey (memberKey gid m.peerID) (L.cbor.member.marshal m)).member L gid m.peerID =
      some m.norm := by
  simp [NodeState.member, NodeState.putKey, hC.member.unmarshal_marshal hm, Except.toOption]

/-- What `store.Get` finds is stored. -/
theorem NodeState.read_eq_ok :
    s.read key = .ok raw ↔ s.store.get key = some raw := by
  unfold NodeState.read
  cases s.store.get key <;> simp

/-- A block that is stored is returned. -/
theorem NodeState.block_eq_ok {id : Bytes} :
    s.block id = .ok raw ↔ s.blocks id = some raw := by
  unfold NodeState.block
  cases s.blocks id <;> simp

/-- A group is stored as the encoding of it. -/
theorem NodeState.group_eq_some {gid : Bytes} {g : Group} :
    s.group L gid = some g ↔ ∃ raw, s.store.get (groupKey gid) = some raw ∧
      L.cbor.group.unmarshal raw = .ok g := by
  unfold NodeState.group
  simp only [Option.bind_eq_some_iff, toOption_eq_some]

/-- A value that `store.Get` returns is stored. -/
theorem NodeState.get_of_step (h : s.step (.storeGet key) (.ok raw) s') : s.store.get key = some raw := by
  rcases h with ⟨-, hr | ⟨e, -, hr⟩⟩
  · exact NodeState.read_eq_ok.mp hr.symm
  · exact absurd hr (by simp)

/-- A shard that is read by its own id is on the disk. -/
theorem NodeState.blocks_of_step {id : Bytes} (hid : isShardID id = true)
    (h : s.step (.blockGet id) (.ok raw) s') : s.blocks id = some raw := by
  rcases h.2 hid with hr | ⟨e, hr⟩
  · exact NodeState.block_eq_ok.mp hr.symm
  · exact absurd hr (by simp)

/-- An iteration that ends without a fault has visited every pair. -/
theorem NodeState.scan_of_step {pre : Bytes} {pairs : List (Bytes × Bytes)}
    (h : s.step (.storeIterate pre) (pairs, none) s') : pairs = s.scan pre := by
  rcases h with ⟨-, hr | ⟨l, e, -, hr⟩⟩
  · exact (Prod.mk.inj hr).1
  · exact absurd (Prod.mk.inj hr).2 (by simp)

/-- What `store.Iterate` visits. -/
theorem NodeState.mem_scan {pre : Bytes} :
    (key, raw) ∈ s.scan pre ↔ s.store.get key = some raw ∧ pre <+: key := by
  rw [NodeState.scan, List.mem_filter, SortedMap.mem_entries_iff, List.isPrefixOf_iff_prefix]

/-- The members that a node has stored of a group. -/
theorem NodeState.mem_members_iff (s : NodeState) (gid : Bytes) (mem : Member) :
    mem ∈ s.members L gid ↔ ∃ key raw, s.store.get key = some raw ∧ memberPrefix gid <+: key ∧
      L.cbor.member.unmarshal raw = .ok mem := by
  simp only [NodeState.members, mem_decodeValues, Prod.exists, NodeState.mem_scan, and_assoc]

end Stored

/-! ## Rules of the node's environment -/

section Rules

variable {L : Libs} {guard : NodeState → List NodeEvent → NodeOp → Prop} {s : NodeState}
  {evs : List NodeEvent}

/-- Reading the clock. -/
theorem wp_now {Q : Except GoErr ℤ → NodeState × List NodeEvent → Prop} (hg : guard s evs .now)
    (h : ∀ t, Q (.ok t) (s, evs ++ [⟨.now, t⟩])) : wp (nodeEnv.traced guard) now Q (s, evs) := by
  refine wp_traced_op.mpr ⟨hg, ?_⟩
  rintro t s' rfl
  exact h t

/-- `LoadByID` gives the group that is stored, or an error. -/
theorem wp_loadByID {gid : Bytes} {Q : Except GoErr Group → NodeState × List NodeEvent → Prop}
    (hg : guard s evs (.storeGet (groupKey gid)))
    (herr : ∀ e evs', Q (.error e) (s, evs'))
    (hok : ∀ g r, s.group L gid = some g → Q (.ok g) (s, evs ++ [⟨.storeGet (groupKey gid), r⟩])) :
    wp (nodeEnv.traced guard) (loadByID L gid) Q (s, evs) := by
  unfold loadByID storeGet
  rw [wp_bind, wp_attempt, wp_bind]
  refine wp_traced_op.mpr ⟨hg, ?_⟩
  rintro r s' ⟨rfl, hr⟩
  simp only [wp_ret, andThen_ok, wp_ofExcept]
  cases r with
  | error e =>
    simp only
    split_ifs
    · exact herr _ _
    · exact herr _ _
  | ok raw =>
    simp only [wp_ofExcept]
    cases hdec : L.cbor.group.unmarshal raw with
    | error e => exact herr _ _
    | ok g =>
      exact hok g _ (NodeState.group_eq_some.mpr ⟨raw, NodeState.get_of_step ⟨rfl, hr⟩, hdec⟩)

/-- A stored group can be loaded. -/
theorem steps_loadByID {s : NodeState} {gid : Bytes} {g : Group} (h : s.group L gid = some g) :
    ∃ raw, Steps nodeEnv s (loadByID L gid) [⟨.storeGet (groupKey gid), .ok raw⟩] s (ret g) := by
  obtain ⟨raw, hget, hdec⟩ := NodeState.group_eq_some.mp h
  refine ⟨raw, .op ⟨rfl, .inl (NodeState.read_eq_ok.mpr hget).symm⟩ ?_⟩
  change Steps nodeEnv s (Prog.ofExcept (L.cbor.group.unmarshal raw)) [] s _
  rw [hdec]
  exact .refl _ _

end Rules

/-- A node that has created a group and nothing else. -/
def sampleNode : NodeState :=
  NodeState.fresh.putKey (groupKey (sampleGroup 7).id)
    (sampleLibs.cbor.group.marshal (sampleGroup 7))

/-- The group as the node has it. -/
theorem group_sampleNode : sampleNode.group sampleLibs (sampleGroup 7).id = some (sampleGroup 7) := by
  have hnorm : (sampleGroup 7).norm = sampleGroup 7 := by decide
  have := NodeState.group_putKey (L := sampleLibs) sampleCbor_lawful .fresh (sampleGroup 7) (by decide)
  rwa [hnorm] at this

/-! ## The block store and its files -/

/-- The block store that the files of a disk hold. -/
def Disk.blocks (root : Bytes) (d : Disk) (id : Bytes) : Option Bytes :=
  if isShardID id then d.files (blockPath root id) else none

/-- The state of a node whose block store is on a disk. -/
def NodeState.onDisk (s : NodeState) (root : Bytes) (d : Disk) : NodeState :=
  { s with blocks := d.blocks root }

/-- The operations on the block store. -/
def NodeOp.isBlock : NodeOp → Bool
  | .blockPut _ _ => true
  | .blockGet _ => true
  | _ => false

/-- What an operation on the block store does to the files, it does to the map. -/
theorem diskStep_refines {dataDir : Bytes} {d d' : Disk} {o : NodeOp} {r : o.Ans}
    (ho : o.isBlock = true) (hs : diskStep (blocksRoot dataDir) d o r d') (s : NodeState) :
    (s.onDisk (blocksRoot dataDir) d).step o r (s.onDisk (blocksRoot dataDir) d') := by
  cases o with
  | blockPut id data =>
    simp only [diskStep] at hs
    simp only [NodeState.step]
    split_ifs at hs ⊢ with hv
    · rcases hs with ⟨hr, rfl⟩ | ⟨hr, rfl⟩
      · refine .inl ⟨hr, ?_⟩
        have hid : hashOf data = id := by simpa [verifyHash] using hv
        have hwf : isShardID id = true := hid ▸ isShardID_hashOf data
        -- The file of another well-formed id has another path.
        have hblocks : (d.install (blocksRoot dataDir) id data).blocks (blocksRoot dataDir) =
            fun i => if i = id then some data else d.blocks (blocksRoot dataDir) i := by
          funext i
          simp only [Disk.blocks, Disk.install]
          by_cases hi : isShardID i = true
          · have : blockPath (blocksRoot dataDir) i = blockPath (blocksRoot dataDir) id ↔ i = id :=
              ⟨fun e => blockPath_inj hi hwf e, fun e => e ▸ rfl⟩
            simp [hi, this]
          · have : i ≠ id := fun e => hi (e ▸ hwf)
            simp [hi, this]
        simp [NodeState.onDisk, NodeState.putBlock, hblocks]
      · exact .inr ⟨hr, rfl⟩
    · exact ⟨hs.1, by rw [hs.2]⟩
  | blockGet id =>
    obtain ⟨rfl, hr⟩ := hs
    refine ⟨rfl, fun hid => ?_⟩
    rcases hr with hr | hr
    · left
      simp only [NodeState.block, NodeState.onDisk, Disk.blocks, hid, if_true]
      split at hr <;> simp_all
    · exact .inr hr
  | _ => exact absurd ho (by simp [NodeOp.isBlock])

end FnShare
