import FnShare.Lib.FilePath
import FnShare.Lib.Sha256
import FnShare.Effects

/-!
# The block store on disk

The package `internal/blockstore`: shards are files below `<data-dir>/blocks`, named by the hash of
their contents. `Disk` has the files by their clean paths. A file of the store comes to be by a
rename of a temporary file, once the content has been checked against the id; temporary files can
hold anything, and so can the files of the data directory outside `blocks`: the configuration, the
keys, the spool, the database.

`Disk.Sound` is what every reachable disk satisfies: a file below `blocks` is a temporary one, or a
shard at the path of its own hash that was put under that id. It settles what a reader gets by a
well-formed id (`Sound.get_shardID`). The path of any other string is a matter of lexical cleaning,
and it can be any path.
-/

namespace FnShare

open FilePath

/-- `HashOf`: the id of a shard. -/
def hashOf (data : Bytes) : Bytes := hexEncode (sha256 data)

/-- `verifyHash`. -/
def verifyHash (expectedHex data : Bytes) : Bool := hashOf data == expectedHex

/-- `blockstore.ErrNotFound`. -/
def errBlockNotFound : GoErr := .msg (lit "blockstore: shard not found")

/-- `blockstore.ErrHashMismatch`. -/
def errHashMismatch : GoErr := .msg (lit "blockstore: payload hash does not match shard id")

/-- The root of the block store of a data directory. -/
def blocksRoot (dataDir : Bytes) : Bytes := join [dataDir, lit "blocks"]

/-- `path`: the file of a shard. -/
def blockPath (root shardID : Bytes) : Bytes :=
  if shardID.length < 2 then join [root, shardID] else join [root, shardID.take 2, shardID]

/-- The strings that are the hexadecimal form of a SHA-256 digest. -/
def isShardID (id : Bytes) : Bool := id.length == 64 && id.all isHexDigit

/-- A hash has 64 digits. -/
theorem length_hashOf (data : Bytes) : (hashOf data).length = 64 := by
  unfold hashOf
  rw [length_hexEncode, length_sha256]

/-- A hash is a well-formed id. -/
theorem isShardID_hashOf (data : Bytes) : isShardID (hashOf data) = true := by
  simp only [isShardID, length_hashOf, beq_self_eq_true, Bool.true_and, List.all_eq_true]
  intro c hc
  exact isHexDigit_of_mem_hexEncode hc

variable {c dataDir id root : Bytes} {d : Disk}

/-- A string of hexadecimal digits is a normal element of a path. -/
theorem normal_of_hex (hne : c ≠ []) (h : ∀ b ∈ c, isHexDigit b = true) : Normal c := by
  refine ⟨hne, ?_, ?_, ?_⟩
  · rintro rfl
    exact absurd (h 46 (by decide)) (by decide)
  · rintro rfl
    exact absurd (h 46 (by decide)) (by decide)
  · intro hs
    exact absurd (h _ hs) (by decide)

/-- The element `blocks` is normal. -/
theorem normal_blocks : Normal (lit "blocks") := by
  constructor <;> decide

section Paths

/-- A well-formed id, and its first two digits, are normal elements. -/
theorem normal_shardID (h : isShardID id = true) : Normal (id.take 2) ∧ Normal id := by
  simp only [isShardID, Bool.and_eq_true, beq_iff_eq, List.all_eq_true] at h
  have hne : id ≠ [] := by
    rintro rfl
    simp at h
  refine ⟨normal_of_hex ?_ fun b hb => h.2 b (List.mem_of_mem_take hb), normal_of_hex hne h.2⟩
  intro e
  have := congrArg List.length e
  simp [h.1] at this

/-- The path of a shard by a well-formed id. -/
theorem blockPath_shardID (h : isShardID id = true) :
    blockPath (blocksRoot dataDir) id =
      blocksRoot dataDir ++ slash :: (id.take 2 ++ slash :: id) := by
  obtain ⟨h2, hid⟩ := normal_shardID h
  have hlen : ¬ id.length < 2 := by
    simp only [isShardID, Bool.and_eq_true, beq_iff_eq] at h
    omega
  unfold blockPath
  rw [if_neg hlen]
  unfold blocksRoot
  rw [join_normal dataDir normal_blocks]
  exact join_render (.push normal_blocks (stack_stackOf dataDir)) (by simp) h2 hid

/-- The path determines the well-formed id. -/
theorem blockPath_inj {id' : Bytes} (h : isShardID id = true) (h' : isShardID id' = true)
    (e : blockPath (blocksRoot dataDir) id = blockPath (blocksRoot dataDir) id') : id = id' := by
  rw [blockPath_shardID h, blockPath_shardID h', List.append_cancel_left_eq, List.cons.injEq] at e
  simp only [isShardID, Bool.and_eq_true, beq_iff_eq] at h h'
  have hlen : (id.take 2).length = (id'.take 2).length := by simp [h.1, h'.1]
  exact (List.cons.inj (List.append_inj_right e.2 hlen)).2

end Paths

/-! ## The disk -/

/-- A path below a directory. -/
def Below (d p : Bytes) : Prop := (d ++ [slash]) <+: p

/-- The files that `CreateTemp` makes in a directory of the block store. -/
def IsTemp (root p : Bytes) : Prop :=
  ∃ sub rest, slash ∉ sub ∧ p = root ++ slash :: (sub ++ slash :: (lit ".tmp-" ++ rest))

/-- The files of a machine by their clean paths. -/
structure Disk where
  /-- The content of the regular file at a path. -/
  files : Bytes → Option Bytes
  /-- The ids under which the block store has put something. -/
  stored : Bytes → Prop

/-- A change to the file at one path. -/
def Disk.set (d : Disk) (p : Bytes) (c : Option Bytes) : Disk :=
  { d with files := fun q => if q = p then c else d.files q }

/-- The rename that ends a `Put`. -/
def Disk.install (d : Disk) (root id data : Bytes) : Disk :=
  { files := fun q => if q = blockPath root id then some data else d.files q
    stored := fun i => i = id ∨ d.stored i }

/-- What an operation on the block store can do on disk and answer. -/
def diskStep (root : Bytes) (d : Disk) : (o : NodeOp) → o.Ans → Disk → Prop
  | .blockPut id data, r, d' =>
    if verifyHash id data then
      (r = .ok () ∧ d' = d.install root id data) ∨ ((∃ e, r = .error e) ∧ d' = d)
    else r = .error errHashMismatch ∧ d' = d
  | .blockGet id, r, d' =>
    d' = d ∧ ((match d.files (blockPath root id) with
      | some c => r = .ok c
      | none => r = .error errBlockNotFound) ∨ ∃ e, r = .error e)
  | _, _, d' => d' = d

/-- The disks that a machine can come to, from one without files below `blocks`. -/
inductive Disk.Reachable (root : Bytes) : Disk → Prop
  | init {d : Disk} (hfiles : ∀ p, Below root p → d.files p = none) (hstored : ∀ i, ¬ d.stored i) :
      Reachable root d
  /-- A file outside the block store is written or removed. -/
  | other {d : Disk} (h : Reachable root d) {p : Bytes} (hp : ¬ Below root p) (c : Option Bytes) :
      Reachable root (d.set p c)
  /-- A `Put` creates, writes, or removes its temporary file. -/
  | temp {d : Disk} (h : Reachable root d) {p : Bytes} (hp : IsTemp root p) (c : Option Bytes) :
      Reachable root (d.set p c)
  /-- An operation on the block store. -/
  | op {d d' : Disk} (h : Reachable root d) {o : NodeOp} {r : o.Ans}
      (hs : diskStep root d o r d') : Reachable root d'

/-- Files below `blocks` are temporary, or shards at the paths of their hashes, put under them. -/
def Disk.Sound (root : Bytes) (d : Disk) : Prop :=
  ∀ p c, Below root p → d.files p = some c →
    IsTemp root p ∨ (p = blockPath root (hashOf c) ∧ d.stored (hashOf c))

/-- A shard's file is below `blocks`. -/
theorem below_blockPath (h : isShardID id = true) :
    Below (blocksRoot dataDir) (blockPath (blocksRoot dataDir) id) := by
  rw [blockPath_shardID h]
  exact ⟨id.take 2 ++ slash :: id, by simp⟩

/-- A shard's file is not a temporary one. -/
theorem not_isTemp_blockPath (h : isShardID id = true) :
    ¬ IsTemp (blocksRoot dataDir) (blockPath (blocksRoot dataDir) id) := by
  rintro ⟨sub, rest, hsub, e⟩
  rw [blockPath_shardID h, List.append_cancel_left_eq, List.cons.injEq] at e
  obtain ⟨h2, hid⟩ := normal_shardID h
  -- The elements of the two paths are the same, and the last one of the temporary file's starts
  -- with a dot.
  have e' := congrArg (List.splitOn slash) e.2
  rw [splitOn_append, splitOn_append, splitOn_of_no_slash h2.no_slash,
    splitOn_of_no_slash hid.no_slash, splitOn_of_no_slash hsub] at e'
  have e2 : [id] = (lit ".tmp-" ++ rest).splitOn slash := (List.cons.inj e').2
  have e3 : id = lit ".tmp-" ++ rest := by
    have := congrArg ([slash].intercalate) e2
    rwa [List.intercalate_singleton, List.intercalate_splitOn] at this
  have hdot : (46 : UInt8) ∈ id := by
    rw [e3]
    exact List.mem_append_left _ (by decide)
  simp only [isShardID, Bool.and_eq_true, List.all_eq_true] at h
  exact absurd (h.2 46 hdot) (by decide)

/-- An operation on the block store keeps a disk sound. -/
theorem Disk.Sound.step {d' : Disk} (h : d.Sound root) {o : NodeOp} {r : o.Ans}
    (hs : diskStep root d o r d') : d'.Sound root := by
  cases o with
  | blockPut id data =>
    simp only [diskStep] at hs
    split_ifs at hs with hv
    · rcases hs with ⟨-, rfl⟩ | ⟨-, rfl⟩
      · intro p c hp hc
        simp only [Disk.install] at hc ⊢
        split_ifs at hc with hpq
        · obtain rfl := Option.some.inj hc
          have hid : hashOf data = id := by simpa [verifyHash] using hv
          rw [hid]
          exact .inr ⟨hpq, .inl rfl⟩
        · exact (h p c hp hc).imp_right fun hh => ⟨hh.1, .inr hh.2⟩
      · exact h
    · exact hs.2 ▸ h
  | blockGet id => exact hs.1 ▸ h
  | _ => exact hs ▸ h

/-- Every reachable disk is sound. -/
theorem Disk.Reachable.sound (h : d.Reachable root) : d.Sound root := by
  induction h with
  | init hfiles _ =>
    intro p c hp hc
    rw [hfiles p hp] at hc
    exact absurd hc (by simp)
  | other _ hp c ih =>
    intro q c' hq hc
    simp only [Disk.set] at hc
    split_ifs at hc with hqp
    · exact absurd (hqp ▸ hq) hp
    · exact ih q c' hq hc
  | temp _ hp c ih =>
    intro q c' hq hc
    simp only [Disk.set] at hc
    split_ifs at hc with hqp
    · exact .inl (hqp ▸ hp)
    · exact ih q c' hq hc
  | op _ hs ih => exact ih.step hs

/-- A node can come to have any shard. -/
theorem Disk.Reachable.install (h : d.Reachable root) (data : Bytes) :
    (d.install root (hashOf data) data).Reachable root := by
  have hput : diskStep root d (.blockPut (hashOf data) data) (.ok ())
      (d.install root (hashOf data) data) := by
    have hv : verifyHash (hashOf data) data = true := by simp [verifyHash]
    simp [diskStep, hv]
  exact .op h hput

/-- The file of a well-formed id holds the shard of that id, put under it. -/
theorem Disk.Sound.get_shardID (h : d.Sound (blocksRoot dataDir)) (hid : isShardID id = true)
    (hc : d.files (blockPath (blocksRoot dataDir) id) = some c) : hashOf c = id ∧ d.stored id := by
  rcases h _ c (below_blockPath hid) hc with ht | ⟨hp, hst⟩
  · exact absurd ht (not_isTemp_blockPath hid)
  · have := blockPath_inj hid (isShardID_hashOf c) hp
    rw [← this] at hst
    exact ⟨this.symm, hst⟩

end FnShare
