import FnShare.Lib.Interleave
import FnShare.World
import Mathlib.Data.Set.Finite.Basic

/-!
# The files of the spool

`spool.go` of `internal/spool`, at the level of the steps on the file system: `write` makes the directory of
the peer, creates a temporary file in it, fills it and renames it to the entry; `Remove` unlinks the entry and
then the directory, which only works on an empty one. `write` holds the mutex of the spool throughout, and
`Remove` does not take it. `NodeState.spool` has each of them as one step; here they interleave.

The world is the directory of one peer. No step fails by itself: the steps fail when the directory or the file
is not there, or the directory is not empty.

`Writing` is what holds between two steps of a `write`. It is kept by everything that the others do, with one
exception: a `Remove` that prunes the directory right after the `write` has made it. Where that does not
happen, every `write` returns without an error, and its entry is listed until it is removed or written again
(`write_listed`).
-/

namespace FnShare

open Prog

/-! ## The directory of a peer -/

/-- The start of the name of a temporary file. -/
def tempStart : Bytes := lit ".tmp-"

/-- The name of a temporary file. -/
def TempName : Type := { n : Bytes // tempStart <+: n }

/-- `os.ErrNotExist`. -/
def errNotExist : GoErr := .msg (lit "file does not exist")

/-- The files of a directory. -/
structure Files where
  /-- The content of a file. -/
  content : Bytes → Option Bytes
  /-- There are finitely many. -/
  finite : {n | content n ≠ none}.Finite

namespace Files

/-- No file. -/
def empty : Files := ⟨fun _ => none, by simp⟩

/-- The files after a change to one of them. -/
def set (f : Files) (name : Bytes) (c : Option Bytes) : Files where
  content n := if n = name then c else f.content n
  finite := by
    refine (f.finite.union (Set.finite_singleton name)).subset ?_
    intro n hn
    by_cases h : n = name
    · exact .inr h
    · exact .inl (by simpa [h] using hn)

/-- No file is there. -/
@[simp] theorem content_empty (n : Bytes) : empty.content n = none := rfl

/-- One file changes. -/
@[simp] theorem content_set (f : Files) (name : Bytes) (c : Option Bytes) (n : Bytes) :
    (f.set name c).content n = if n = name then c else f.content n := rfl

/-- There is always a name for another temporary file. -/
theorem exists_temp (f : Files) : ∃ tmp : TempName, f.content tmp.1 = none := by
  -- The names `.tmp-0`, `.tmp-00`, … are infinitely many.
  have hinj : Function.Injective fun n : ℕ => tempStart ++ List.replicate n (48 : UInt8) := by
    intro a b h
    simpa using congrArg List.length (List.append_cancel_left h)
  obtain ⟨n, hn⟩ := (Set.infinite_range_of_injective hinj).exists_notMem_finite f.finite
  obtain ⟨⟨k, rfl⟩, hfree⟩ := hn
  exact ⟨⟨_, List.prefix_append _ _⟩, by simpa using hfree⟩

end Files

/-- What the steps are about: the mutex of the spool, and the directory of the peer. -/
structure PeerDir where
  /-- Whether `mu` is held. -/
  locked : Bool
  /-- The files of the directory, when it is there. -/
  files : Option Files

/-- The content of a file. -/
def PeerDir.content (d : PeerDir) (name : Bytes) : Option Bytes := d.files.bind (·.content name)

/-- The steps. A file is given by its name in the directory. -/
inductive DirOp
  | lock
  | unlock
  | mkdirAll
  | createTemp
  | write (tmp : TempName) (data : Bytes)
  | close (tmp : TempName)
  | rename (tmp : TempName) (dst : Bytes)
  | remove (name : Bytes)
  | removeDir

/-- The answers. -/
def DirOp.Ans : DirOp → Type
  | .lock => Unit
  | .unlock => Unit
  | .createTemp => Except GoErr TempName
  | _ => Except GoErr Unit

/-- The signature of the steps. -/
def DirSig : Sig := ⟨DirOp, DirOp.Ans⟩

/-- A program on the directory. -/
abbrev DirM := Prog DirSig GoErr

/-- Perform one step. -/
def onDir (o : DirOp) : DirM o.Ans := call (S := DirSig) o

/-- What a step can do to the directory and answer. -/
def PeerDir.step (d : PeerDir) : (o : DirOp) → o.Ans → PeerDir → Prop
  | .lock, _, d' => d.locked = false ∧ d' = { d with locked := true }
  | .unlock, _, d' => d' = { d with locked := false }
  | .mkdirAll, r, d' => r = .ok () ∧ d' = { d with files := some (d.files.getD .empty) }
  | .createTemp, r, d' =>
    match d.files with
    | none => r = .error errNotExist ∧ d' = d
    | some f => ∃ tmp : TempName, f.content tmp.1 = none ∧ r = .ok tmp ∧
        d' = { d with files := some (f.set tmp.1 (some [])) }
  | .write tmp data, r, d' =>
    -- The file is open: writing works even when its name is gone.
    r = .ok () ∧
      d' = { d with files := d.files.map fun f => f.set tmp.1 ((f.content tmp.1).map (· ++ data)) }
  | .close _, r, d' => r = .ok () ∧ d' = d
  | .rename tmp dst, r, d' =>
    match d.content tmp.1 with
    | none => r = .error errNotExist ∧ d' = d
    | some b => r = .ok () ∧
        d' = { d with files := d.files.map fun f => (f.set tmp.1 none).set dst (some b) }
  | .remove name, r, d' =>
    match d.content name with
    | none => r = .error errNotExist ∧ d' = d
    | some _ => r = .ok () ∧ d' = { d with files := d.files.map (·.set name none) }
  | .removeDir, r, d' =>
    (r = .ok () ∧ d.files ≠ none ∧ (∀ n, d.content n = none) ∧ d' = { d with files := none }) ∨
      ((∃ e, r = .error e) ∧ ¬(d.files ≠ none ∧ ∀ n, d.content n = none) ∧ d' = d)

/-- Programs on the directory, run over it. -/
def dirEnv : Env DirSig PeerDir where
  step d o r d' := d.step o r d'
  guard _ _ := True

/-! ## The entries -/

/-- The text of a kind. -/
def Kind.text : Kind → Bytes
  | .shard => lit "s"
  | .manifest => lit "m"

/-- The name of the file of an entry. -/
def entryName (kind : Kind) (key : Bytes) : Bytes := kind.text ++ lit "_" ++ key

/-- The loop's body of `ListEntries`: the entry that a file of the directory is. -/
def entryOf (peerID name : Bytes) : Option SpoolEntry :=
  if tempStart.isPrefixOf name then none
  else if name.length < 3 ∨ name[1]? ≠ some 95 then none
  else if name.take 1 = Kind.shard.text then some ⟨peerID, .shard, name.drop 2⟩
  else if name.take 1 = Kind.manifest.text then some ⟨peerID, .manifest, name.drop 2⟩
  else none

/-- `ListEntries` lists the entry, and `Read` gives the bytes. -/
def PeerDir.Listed (d : PeerDir) (peerID : Bytes) (e : SpoolEntry) (data : Bytes) : Prop :=
  ∃ name, entryOf peerID name = some e ∧ d.content name = some data

variable {key : Bytes} {e : SpoolEntry} {o : DirOp} {ph : Phase}

/-- The name of an entry is listed as this entry. -/
theorem entryOf_entryName (peerID : Bytes) (kind : Kind) (hkey : key ≠ []) :
    entryOf peerID (entryName kind key) = some ⟨peerID, kind, key⟩ := by
  obtain ⟨b, rest, rfl⟩ := List.exists_cons_of_ne_nil hkey
  have hs : Kind.shard.text = [115] := by decide
  have hm : Kind.manifest.text = [109] := by decide
  have hu : lit "_" = [95] := by decide
  have ht : tempStart = [46, 116, 109, 112, 45] := by decide
  cases kind <;> simp [entryOf, entryName, hs, hm, hu, ht]

/-- A file that is listed has the name of its entry. -/
theorem entryName_of_entryOf {peerID name : Bytes} (h : entryOf peerID name = some e) :
    e.peerID = peerID ∧ e.key ≠ [] ∧ name = entryName e.kind e.key := by
  unfold entryOf at h
  split_ifs at h with _ hlen hs hm
  all_goals
    obtain ⟨hlong, hsep⟩ := not_or.mp hlen
    have hkey : name.drop 2 ≠ [] := fun hnil => hlong (by have := List.drop_eq_nil_iff.mp hnil; omega)
    have hname : name = name.take 1 ++ lit "_" ++ name.drop 2 := by
      match name, hlong, hsep with
      | a :: b :: rest, _, hsep =>
        obtain rfl : b = 95 := by simpa using hsep
        simp [show lit "_" = [95] by decide]
      | [], hlong, _ | [_], hlong, _ => simp at hlong
    obtain rfl := Option.some.inj h
  · exact ⟨rfl, hkey, by rw [entryName, ← hs]; exact hname⟩
  · exact ⟨rfl, hkey, by rw [entryName, ← hm]; exact hname⟩

/-- Different entries have different names. -/
theorem entryName_inj {kind kind' : Kind} {key' : Bytes} (h : entryName kind key = entryName kind' key') :
    kind = kind' ∧ key = key' := by
  have hs : Kind.shard.text = [115] := by decide
  have hm : Kind.manifest.text = [109] := by decide
  cases kind <;> cases kind' <;> simp_all [entryName]

/-- An entry does not have the name of a temporary file. -/
theorem entryName_ne_temp (kind : Kind) (key : Bytes) (tmp : TempName) : entryName kind key ≠ tmp.1 := by
  obtain ⟨n, rest, rfl⟩ := tmp
  have hs : Kind.shard.text = [115] := by decide
  have hm : Kind.manifest.text = [109] := by decide
  have ht : tempStart = [46, 116, 109, 112, 45] := by decide
  cases kind <;> simp [entryName, hs, hm, ht]

/-! ## The programs -/

/-- The last part of `write`: the file is complete, and gets the name of the entry. -/
def closeTemp (tmp : TempName) (dst : Bytes) : DirM Unit := do
  match ← onDir (.close tmp) with
  | .error err =>
    let _ ← onDir (.remove tmp.1)
    fail err
  | .ok () => ofExcept (← onDir (.rename tmp dst))

/-- The part of `write` after `CreateTemp`. -/
def fillTemp (tmp : TempName) (dst data : Bytes) : DirM Unit := do
  match ← onDir (.write tmp data) with
  | .error err =>
    let _ ← onDir (.close tmp)
    let _ ← onDir (.remove tmp.1)
    fail err
  | .ok () => closeTemp tmp dst

/-- The part of `write` after `MkdirAll`. -/
def createEntry (dst data : Bytes) : DirM Unit := do
  let tmp ← ofExcept (← onDir .createTemp)
  fillTemp tmp dst data

/-- The part of `write` under the mutex. -/
def writeEntry (dst data : Bytes) : DirM Unit := do
  ofExcept (← onDir .mkdirAll)
  createEntry dst data

/-- The end of `write`: the deferred `Unlock`, and the result. -/
def unlocking (r : Except GoErr Unit) : DirM Unit := do
  let _ ← onDir .unlock
  ofExcept r

/-- `write`. -/
def writeSpool (peerID : Bytes) (kind : Kind) (key data : Bytes) : DirM Unit := do
  if peerID = [] ∨ key = [] then fail (.msg (lit "spool: empty peer id or key"))
  else
    let _ ← onDir .lock
    unlocking (← attempt (writeEntry (entryName kind key) data))

/-- The end of `Remove`: the directory is pruned if it is empty now. -/
def pruneDir : DirM Unit := do
  let _ ← onDir .removeDir
  return ()

/-- `Remove`. -/
def removeSpool (e : SpoolEntry) : DirM Unit := do
  match ← onDir (.remove (entryName e.kind e.key)) with
  | .error err => if err ≠ errNotExist then fail err else pruneDir
  | .ok () => pruneDir

/-- What can be called on the spool for one peer. -/
inductive SpoolCall
  | write (kind : Kind) (key data : Bytes)
  | remove (e : SpoolEntry)

/-- The program of a call. -/
def SpoolCall.prog (peerID : Bytes) : SpoolCall → DirM Unit
  | .write kind key data => writeSpool peerID kind key data
  | .remove e => removeSpool e

/-! ## What the steps do to a file -/

/-- `MkdirAll` has made the directory, or found it. -/
def dirMade : Event DirSig := ⟨DirOp.mkdirAll, (.ok () : Except GoErr Unit)⟩

/-- The empty directory has been removed. -/
def dirPruned : Event DirSig := ⟨DirOp.removeDir, (.ok () : Except GoErr Unit)⟩

/-- A temporary file has got the name. -/
def renamedTo (tmp : TempName) (name : Bytes) : Event DirSig :=
  ⟨DirOp.rename tmp name, (.ok () : Except GoErr Unit)⟩

/-- The file has been unlinked. -/
def unlinked (name : Bytes) : Event DirSig := ⟨DirOp.remove name, (.ok () : Except GoErr Unit)⟩

/-- The event replaces the file of this name, or unlinks it. -/
def Touches (name : Bytes) (e : Event DirSig) : Prop := e = unlinked name ∨ ∃ tmp, e = renamedTo tmp name

/-- An event touches one file. -/
theorem Touches.unique {name name' : Bytes} {e : Event DirSig} (h : Touches name e) (h' : Touches name' e) :
    name = name' := by
  rcases h with rfl | ⟨tmp, rfl⟩ <;> rcases h' with h' | ⟨tmp', h'⟩ <;> cases h' <;> rfl

variable {d d' : PeerDir}

/-- The files of the entries change by a rename to them and by `Remove` only. -/
theorem PeerDir.step_content {r : o.Ans} (h : d.step o r d') {kind : Kind}
    (hno : ¬ Touches (entryName kind key) ⟨o, r⟩) :
    d'.content (entryName kind key) = d.content (entryName kind key) := by
  have hne := entryName_ne_temp kind key
  cases o with
  | lock => rw [h.2]; rfl
  | unlock => rw [h]; rfl
  | mkdirAll =>
    rw [h.2]
    cases hf : d.files <;> simp [PeerDir.content, hf]
  | createTemp =>
    simp only [PeerDir.step] at h
    split at h
    · rw [h.2]
    · rename_i f hf
      obtain ⟨tmp, -, -, rfl⟩ := h
      simp [PeerDir.content, hf, hne tmp]
  | write tmp data =>
    rw [h.2]
    cases hf : d.files <;> simp [PeerDir.content, hf, hne tmp]
  | close tmp => rw [h.2]
  | rename tmp dst =>
    simp only [PeerDir.step] at h
    split at h
    · rw [h.2]
    · obtain ⟨rfl, rfl⟩ := h
      have hdst : entryName kind key ≠ dst := fun e => hno (.inr ⟨tmp, by rw [e]; rfl⟩)
      cases hf : d.files <;> simp [PeerDir.content, hf, hne tmp, hdst]
  | remove name =>
    simp only [PeerDir.step] at h
    split at h
    · rw [h.2]
    · obtain ⟨rfl, rfl⟩ := h
      have hname : entryName kind key ≠ name := fun e => hno (.inl (by rw [e]; rfl))
      cases hf : d.files <;> simp [PeerDir.content, hf, hname]
  | removeDir =>
    rcases h with ⟨-, -, hempty, rfl⟩ | ⟨-, -, rfl⟩
    · rw [hempty]; rfl
    · rfl

/-- A step other than taking the mutex can always be done. -/
theorem PeerDir.exists_step (d : PeerDir) (ho : o = .lock → d.locked = false) :
    ∃ r d', d.step o r d' := by
  cases o with
  | lock => exact ⟨(), _, ho rfl, rfl⟩
  | unlock => exact ⟨(), _, rfl⟩
  | mkdirAll => exact ⟨.ok (), _, rfl, rfl⟩
  | createTemp =>
    simp only [PeerDir.step]
    cases d.files with
    | none => exact ⟨_, _, rfl, rfl⟩
    | some f =>
      obtain ⟨tmp, htmp⟩ := f.exists_temp
      exact ⟨.ok tmp, _, tmp, htmp, rfl, rfl⟩
  | write tmp data => exact ⟨.ok (), _, rfl, rfl⟩
  | close tmp => exact ⟨.ok (), _, rfl, rfl⟩
  | rename tmp dst =>
    simp only [PeerDir.step]
    split <;> exact ⟨_, _, rfl, rfl⟩
  | remove name =>
    simp only [PeerDir.step]
    split <;> exact ⟨_, _, rfl, rfl⟩
  | removeDir =>
    by_cases h : d.files ≠ none ∧ ∀ n, d.content n = none
    · exact ⟨.ok (), _, .inl ⟨rfl, h.1, h.2, rfl⟩⟩
    · exact ⟨.error errNotExist, _, .inr ⟨⟨_, rfl⟩, h, rfl⟩⟩

/-- The state of a node whose spool has this directory for a peer. -/
def NodeState.onDir (s : NodeState) (peerID : Bytes) (d : PeerDir) : NodeState :=
  { s with spool := fun e =>
      if e.peerID = peerID then
        if e.key = [] then none else d.content (entryName e.kind e.key)
      else s.spool e }

/-- What is listed is what the node has. -/
theorem PeerDir.listed_iff (s : NodeState) {peerID : Bytes} {data : Bytes}
    (he : e.peerID = peerID) : d.Listed peerID e data ↔ (s.onDir peerID d).spool e = some data := by
  simp only [NodeState.onDir, he, if_true]
  constructor
  · rintro ⟨name, hname, hdata⟩
    obtain ⟨-, hkey, rfl⟩ := entryName_of_entryOf hname
    rwa [if_neg hkey]
  · intro h
    split_ifs at h with hkey
    refine ⟨_, ?_, h⟩
    rw [entryOf_entryName peerID e.kind hkey, ← he]

/-- As the node sees it, `write` is the rename and `Remove` is the unlinking. -/
theorem PeerDir.step_refines {r : o.Ans} (h : d.step o r d') (s : NodeState) (peerID : Bytes) :
    s.onDir peerID d' = s.onDir peerID d ∨
    ∃ kind key, (key ≠ [] ∧ Touches (entryName kind key) ⟨o, r⟩) ∧
      s.onDir peerID d' = (s.onDir peerID d).setSpool ⟨peerID, kind, key⟩
        (d'.content (entryName kind key)) := by
  by_cases hno : ∀ kind key, key ≠ [] → ¬ Touches (entryName kind key) ⟨o, r⟩
  · left
    have hspool : (s.onDir peerID d').spool = (s.onDir peerID d).spool := by
      funext e
      simp only [NodeState.onDir]
      split_ifs with _ hkey
      · rfl
      · exact PeerDir.step_content h (hno e.kind e.key hkey)
      · rfl
    simpa [NodeState.onDir] using hspool
  · push Not at hno
    obtain ⟨kind, key, hkey, htouch⟩ := hno
    refine .inr ⟨kind, key, ⟨hkey, htouch⟩, ?_⟩
    have hspool : (s.onDir peerID d').spool = fun e => if e = ⟨peerID, kind, key⟩ then
        d'.content (entryName kind key) else (s.onDir peerID d).spool e := by
      funext e
      split_ifs with he
      · simp [NodeState.onDir, he, hkey]
      · simp only [NodeState.onDir]
        split_ifs with hp hk
        · rfl
        · -- The step touches one file, and this is another one.
          refine PeerDir.step_content h fun htouch' => he ?_
          have hname : entryName e.kind e.key = entryName kind key := htouch'.unique htouch
          obtain ⟨hk', hkey'⟩ := entryName_inj hname
          cases e
          simp_all
        · rfl
    simpa [NodeState.onDir, NodeState.setSpool] using hspool

/-! ## Where a write is -/

/-- The places between two steps of a `write`. -/
inductive Phase
  | waiting
  | entered
  | made
  | created (tmp : TempName)
  | filled (tmp : TempName)
  | closed (tmp : TempName)
  | renamed
  | returned

/-- The mutex is held there. -/
def Phase.holds : Phase → Prop
  | .waiting => False
  | .returned => False
  | _ => True

/-- The entry is in place there. -/
def Phase.installed : Phase → Prop
  | .renamed => True
  | .returned => True
  | _ => False

/-- What is left of the `write`. -/
def Phase.rest (dst data : Bytes) : Phase → DirM Unit
  | .waiting => onDir .lock >>= fun _ => attempt (writeEntry dst data) >>= unlocking
  | .entered => attempt (writeEntry dst data) >>= unlocking
  | .made => attempt (createEntry dst data) >>= unlocking
  | .created tmp => attempt (fillTemp tmp dst data) >>= unlocking
  | .filled tmp => attempt (closeTemp tmp dst) >>= unlocking
  | .closed tmp => attempt (onDir (.rename tmp dst) >>= ofExcept) >>= unlocking
  | .renamed => unlocking (.ok ())
  | .returned => ret ()

/-- What the `write` needs of the directory to go on. -/
def Phase.Needs (data : Bytes) (d : PeerDir) : Phase → Prop
  | .made => d.files ≠ none
  | .created tmp => d.content tmp.1 = some []
  | .filled tmp => d.content tmp.1 = some data
  | .closed tmp => d.content tmp.1 = some data
  | _ => True

/-- The steps of a `write` that goes well. -/
inductive WriteStep (dst data : Bytes) : Phase → Event DirSig → Phase → Prop
  | lock : WriteStep dst data .waiting ⟨DirOp.lock, ()⟩ .entered
  | mkdirAll : WriteStep dst data .entered dirMade .made
  | createTemp (tmp : TempName) :
    WriteStep dst data .made ⟨DirOp.createTemp, (.ok tmp : Except GoErr TempName)⟩ (.created tmp)
  | write (tmp : TempName) :
    WriteStep dst data (.created tmp) ⟨DirOp.write tmp data, (.ok () : Except GoErr Unit)⟩ (.filled tmp)
  | close (tmp : TempName) :
    WriteStep dst data (.filled tmp) ⟨DirOp.close tmp, (.ok () : Except GoErr Unit)⟩ (.closed tmp)
  | rename (tmp : TempName) : WriteStep dst data (.closed tmp) (renamedTo tmp dst) .renamed
  | unlock : WriteStep dst data .renamed ⟨DirOp.unlock, ()⟩ .returned

variable {dst data : Bytes}

/-- A `write` that finds what it needs takes a step that goes well, and finds what it needs after it. -/
theorem Phase.step {k : o.Ans → DirM Unit} {r : o.Ans} (hrest : ph.rest dst data = .op (S := DirSig) o k)
    (h : d.step o r d') (hd : ph.Needs data d) :
    ∃ ph', WriteStep dst data ph ⟨o, r⟩ ph' ∧ k r = ph'.rest dst data ∧ ph'.Needs data d' := by
  cases ph with
  | waiting =>
    cases hrest
    exact ⟨.entered, .lock, rfl, trivial⟩
  | entered =>
    cases hrest
    obtain ⟨rfl, rfl⟩ := h
    exact ⟨.made, .mkdirAll, rfl, by simp [Phase.Needs]⟩
  | made =>
    cases hrest
    obtain ⟨f, hf⟩ := Option.ne_none_iff_exists'.mp hd
    simp only [PeerDir.step, hf] at h
    obtain ⟨tmp, -, rfl, rfl⟩ := h
    exact ⟨.created tmp, .createTemp tmp, rfl, by simp [Phase.Needs, PeerDir.content]⟩
  | created tmp =>
    cases hrest
    obtain ⟨rfl, rfl⟩ := h
    obtain ⟨f, hf, hfb⟩ := Option.bind_eq_some_iff.mp hd
    exact ⟨.filled tmp, .write tmp, rfl, by simp [Phase.Needs, PeerDir.content, hf, hfb]⟩
  | filled tmp =>
    cases hrest
    obtain ⟨rfl, rfl⟩ := h
    exact ⟨.closed tmp, .close tmp, rfl, hd⟩
  | closed tmp =>
    cases hrest
    have hb : d.content tmp.1 = some data := hd
    simp only [PeerDir.step, hb] at h
    obtain ⟨rfl, rfl⟩ := h
    exact ⟨.renamed, .rename tmp, rfl, trivial⟩
  | renamed =>
    cases hrest
    exact ⟨.returned, .unlock, rfl, trivial⟩
  | returned => cases hrest

/-- A step of a `write` leaves the mutex held as long as the `write` is inside. -/
theorem WriteStep.locked_iff {ph' : Phase} {r : o.Ans} (hstep : WriteStep dst data ph ⟨o, r⟩ ph')
    (h : d.step o r d') (hlock : ph.holds → d.locked = true) : d'.locked = true ↔ ph'.holds := by
  cases hstep with
  | lock => simp [h.2, Phase.holds]
  | mkdirAll => simp [h.2, Phase.holds, hlock trivial]
  | createTemp tmp =>
    have hheld := hlock trivial
    simp only [PeerDir.step] at h
    split at h
    · simp [h.2, Phase.holds, hheld]
    · obtain ⟨-, -, -, rfl⟩ := h
      simp [Phase.holds, hheld]
  | write tmp => simp [h.2, Phase.holds, hlock trivial]
  | close tmp => simp [h.2, Phase.holds, hlock trivial]
  | rename tmp =>
    have hheld := hlock trivial
    simp only [PeerDir.step] at h
    split at h <;> simp [h.2, Phase.holds, hheld]
  | unlock => simp [show d' = _ from h, Phase.holds]

/-- A `write` puts its entry in place by its rename. -/
theorem WriteStep.installs {ph' : Phase} {r : o.Ans} (hstep : WriteStep dst data ph ⟨o, r⟩ ph')
    (h : d.step o r d') (hd : ph.Needs data d) (hin : ph'.installed) :
    ph.installed ∨ ∃ tmp, (⟨o, r⟩ : Event DirSig) = renamedTo tmp dst ∧ d'.content dst = some data := by
  cases hstep with
  | rename tmp =>
    have hb : d.content tmp.1 = some data := hd
    obtain ⟨f, hf, -⟩ := Option.bind_eq_some_iff.mp hb
    simp only [PeerDir.step, hb] at h
    refine .inr ⟨tmp, rfl, ?_⟩
    rw [h.2]
    simp [PeerDir.content, hf]
  | unlock => exact .inl trivial
  | _ => exact hin.elim

/-- Without the mutex, a `write` needs nothing. -/
theorem Phase.needs_of_not_holds (h : ¬ ph.holds) (data : Bytes) (d : PeerDir) :
    ph.Needs data d := by
  cases ph <;> first | trivial | exact absurd trivial h

/-- Before it returns, a `write` has a step to take, and it waits for the mutex first. -/
theorem Phase.exists_op (h : ph ≠ .returned) (dst data : Bytes) :
    ∃ o k, ph.rest dst data = .op (S := DirSig) o k ∧ (o = .lock → ¬ ph.holds) := by
  cases ph with
  | waiting => exact ⟨_, _, rfl, fun _ hf => hf⟩
  | returned => exact absurd rfl h
  | entered | made | created _ | filled _ | closed _ | renamed =>
    exact ⟨_, _, rfl, fun hlock => by cases hlock⟩

/-- What is left of a `Remove`. -/
def RemoveRest (e : SpoolEntry) (p : DirM Unit) : Prop :=
  p = removeSpool e ∨ p = pruneDir ∨ p = ret ()

/-- A `Remove` unlinks its entry, then prunes the directory, and does not fail. -/
theorem RemoveRest.step {p : DirM Unit} (hp : RemoveRest e p)
    {k : o.Ans → DirM Unit} {r : o.Ans} (hrest : p = .op (S := DirSig) o k) (h : d.step o r d') :
    (o = .remove (entryName e.kind e.key) ∨ o = .removeDir) ∧ RemoveRest e (k r) := by
  rcases hp with rfl | rfl | rfl
  · cases hrest
    refine ⟨.inl rfl, .inr (.inl ?_)⟩
    simp only [PeerDir.step] at h
    split at h
    · rw [h.1]; rfl
    · rw [h.1]; rfl
  · cases hrest
    exact ⟨.inr rfl, .inr (.inr rfl)⟩
  · cases hrest

/-- What a `Remove` does leaves a `write` what it needs, except that it can prune the directory that was just
made. -/
theorem Phase.Needs.removed (hd : ph.Needs data d) {r : o.Ans}
    (ho : o = .remove (entryName e.kind e.key) ∨ o = .removeDir) (h : d.step o r d')
    (hmade : ph = .made → (⟨o, r⟩ : Event DirSig) ≠ dirPruned) : ph.Needs data d' := by
  -- A temporary file stays, and with it the directory.
  have htemp : ∀ (tmp : TempName) (b : Bytes), d.content tmp.1 = some b → d'.content tmp.1 = some b := by
    intro tmp b hb
    rcases ho with rfl | rfl
    · simp only [PeerDir.step] at h
      split at h
      · rw [h.2]; exact hb
      · obtain ⟨f, hf, hfb⟩ := Option.bind_eq_some_iff.mp hb
        rw [h.2]
        simp [PeerDir.content, hf, (entryName_ne_temp e.kind e.key tmp).symm, hfb]
    · rcases h with ⟨-, -, hempty, -⟩ | ⟨-, -, rfl⟩
      · rw [hempty] at hb
        exact absurd hb (by simp)
      · exact hb
  cases ph with
  | made =>
    rcases ho with rfl | rfl
    · simp only [PeerDir.step] at h
      split at h
      · rw [h.2]; exact hd
      · rw [h.2]
        obtain ⟨f, hf⟩ := Option.ne_none_iff_exists'.mp hd
        simp [Phase.Needs, hf]
    · rcases h with ⟨rfl, -⟩ | ⟨-, -, rfl⟩
      · exact absurd rfl (hmade rfl)
      · exact hd
  | created tmp => exact htemp tmp _ hd
  | filled tmp => exact htemp tmp _ hd
  | closed tmp => exact htemp tmp _ hd
  | waiting | entered | renamed | returned => trivial

/-! ## Calls that run together -/

section Calls

variable {ι : Type} [DecidableEq ι] {tr : List (ι × Event DirSig)}

/-- Some `Remove` prunes the directory between the `MkdirAll` of a `write` and its `CreateTemp`. -/
def PrunesMade (tr : List (ι × Event DirSig)) : Prop :=
  ∃ before i j after, tr = before ++ (j, dirPruned) :: after ∧ (own i before).getLast? = some dirMade

/-- Where the directory is never pruned, it is not pruned at the wrong moment. -/
theorem not_prunesMade (h : ∀ x ∈ tr, x.2 ≠ dirPruned) : ¬ PrunesMade tr := by
  rintro ⟨before, i, j, after, rfl, -⟩
  exact h (j, dirPruned) (by simp) rfl

/-- Where a call is, with what is left of it. -/
def SpoolCall.At (d : PeerDir) (ph : Phase) (p : DirM Unit) : SpoolCall → Prop
  | .write kind key data => p = ph.rest (entryName kind key) data ∧ ph.Needs data d
  | .remove e => ph = .waiting ∧ RemoveRest e p

/-- The entry was put in place, and is still there if nothing has touched it since. -/
def Installed (tr : List (ι × Event DirSig)) (d : PeerDir) (i : ι) (kind : Kind) (key data : Bytes) : Prop :=
  ∃ before tmp after, tr = before ++ (i, renamedTo tmp (entryName kind key)) :: after ∧
    ((∀ x ∈ after, ¬ Touches (entryName kind key) x.2) → d.content (entryName kind key) = some data)

/-- What holds between the steps of all calls. -/
structure Writing (calls : ι → SpoolCall) (tr : List (ι × Event DirSig)) (d : PeerDir) (ps : ι → DirM Unit)
    (phase : ι → Phase) : Prop where
  /-- Each call is at its place. -/
  place : ∀ i, (calls i).At d (phase i) (ps i)
  /-- The mutex is held by the one call that is inside. -/
  locked : ∀ i, (phase i).holds → d.locked = true
  unique : ∀ i j, (phase i).holds → (phase j).holds → i = j
  holder : d.locked = true → ∃ i, (phase i).holds
  /-- A call that has just made the directory did nothing after it. -/
  made : ∀ i, phase i = .made → (own i tr).getLast? = some dirMade
  /-- What a call has put in place is there. -/
  installed : ∀ i kind key data, calls i = .write kind key data → (phase i).installed →
    Installed tr d i kind key data

omit [DecidableEq ι] in
/-- An entry that is in place stays there, as long as nothing touches it. -/
theorem Installed.step {i j : ι} {kind : Kind} {key : Bytes}
    (h : Installed tr d i kind key data) {o : DirOp} {r : o.Ans} (hs : d.step o r d') :
    Installed (tr ++ [(j, ⟨o, r⟩)]) d' i kind key data := by
  obtain ⟨before, tmp, after, rfl, hin⟩ := h
  refine ⟨before, tmp, after ++ [(j, ⟨o, r⟩)], by simp, ?_⟩
  intro hno
  have hlast : ¬ Touches (entryName kind key) ⟨o, r⟩ := hno (j, ⟨o, r⟩) (by simp)
  rw [PeerDir.step_content hs hlast]
  exact hin fun x hx => hno x (List.mem_append_left _ hx)

/-- A step of a call, with what it makes of the place of this call, and where the others are left. -/
theorem Writing.advance {calls : ι → SpoolCall} {ps : ι → DirM Unit} {phase : ι → Phase}
    (h : Writing calls tr d ps phase) {i : ι} {o : DirOp} {r : o.Ans} (hs : d.step o r d') (p : DirM Unit)
    (ph : Phase) (hplace : (calls i).At d' ph p) (hothers : ∀ j ≠ i, (calls j).At d' (phase j) (ps j))
    (hlock : d'.locked = true ↔ ph.holds ∨ ∃ j ≠ i, (phase j).holds)
    (halone : ph.holds → ∀ j ≠ i, ¬ (phase j).holds)
    (hmade : ph = .made → (⟨o, r⟩ : Event DirSig) = dirMade)
    (hin : ∀ kind key data, calls i = .write kind key data → ph.installed → (phase i).installed ∨
      ∃ tmp, (⟨o, r⟩ : Event DirSig) = renamedTo tmp (entryName kind key) ∧
        d'.content (entryName kind key) = some data) :
    Writing calls (tr ++ [(i, ⟨o, r⟩)]) d' (Function.update ps i p) (Function.update phase i ph) := by
  have hself : ∀ j, j = i → Function.update phase i ph j = ph := by
    rintro j rfl
    exact Function.update_self ..
  have hother : ∀ j, j ≠ i → Function.update phase i ph j = phase j := fun j hj => Function.update_of_ne hj ..
  constructor
  case place =>
    intro j
    by_cases hj : j = i
    · subst hj
      rwa [Function.update_self, Function.update_self]
    · rw [hother j hj, Function.update_of_ne hj]
      exact hothers j hj
  case locked =>
    intro j hhold
    refine hlock.mpr ?_
    by_cases hj : j = i
    · exact .inl (hself j hj ▸ hhold)
    · exact .inr ⟨j, hj, hother j hj ▸ hhold⟩
  case unique =>
    intro j j' hhold hhold'
    by_cases hj : j = i <;> by_cases hj' : j' = i
    · rw [hj, hj']
    · exact absurd (hother j' hj' ▸ hhold') (halone (hself j hj ▸ hhold) j' hj')
    · exact absurd (hother j hj ▸ hhold) (halone (hself j' hj' ▸ hhold') j hj)
    · exact h.unique j j' (hother j hj ▸ hhold) (hother j' hj' ▸ hhold')
  case holder =>
    intro hlocked
    rcases hlock.mp hlocked with hhold | ⟨j, hj, hhold⟩
    · exact ⟨i, (hself i rfl).symm ▸ hhold⟩
    · exact ⟨j, (hother j hj).symm ▸ hhold⟩
  case made =>
    intro j hj
    by_cases hji : j = i
    · subst hji
      rw [own_append, own_cons_self, hmade (by rwa [Function.update_self] at hj)]
      simp
    · rw [own_append, own_cons_ne (Ne.symm hji), own_nil, List.append_nil]
      exact h.made j (hother j hji ▸ hj)
  case installed =>
    intro j kind key data hcall hj
    by_cases hji : j = i
    · subst hji
      rcases hin kind key data hcall (hself j rfl ▸ hj) with hold | ⟨tmp, hev, hb⟩
      · exact (h.installed j kind key data hcall hold).step hs
      · exact ⟨tr, tmp, [], by rw [hev], fun _ => hb⟩
    · exact (h.installed j kind key data hcall (hother j hji ▸ hj)).step hs

section Step

variable {calls : ι → SpoolCall} {ps : ι → DirM Unit} {phase : ι → Phase} {i : ι} {k : o.Ans → DirM Unit}
  {r : o.Ans}

/-- A step of a `Remove` leaves the mutex, and every `write` what it needs. -/
theorem Writing.step_remove (h : Writing calls tr d ps phase) {e : SpoolEntry} (hcall : calls i = .remove e)
    (hi : ps i = .op (S := DirSig) o k) (hs : d.step o r d')
    (hprune : ∀ j, (own j tr).getLast? = some dirMade → (⟨o, r⟩ : Event DirSig) ≠ dirPruned) :
    Writing calls (tr ++ [(i, ⟨o, r⟩)]) d' (Function.update ps i (k r))
      (Function.update phase i .waiting) := by
  have hplace := h.place i
  rw [hcall] at hplace
  obtain ⟨hwait, hrest⟩ := hplace
  obtain ⟨ho, hrest'⟩ := hrest.step hi hs
  have hlocked : d'.locked = d.locked := by
    rcases ho with rfl | rfl
    · simp only [PeerDir.step] at hs
      split at hs <;> rw [hs.2]
    · rcases hs with ⟨-, -, -, rfl⟩ | ⟨-, -, rfl⟩ <;> rfl
  refine h.advance hs _ .waiting ?_ ?_ ?_ (fun hf => hf.elim) (by simp) ?_
  · rw [hcall]
    exact ⟨rfl, hrest'⟩
  · intro j _
    have hj := h.place j
    cases hcj : calls j with
    | remove e' =>
      rw [hcj] at hj
      exact hj
    | write kind key data =>
      rw [hcj] at hj
      exact ⟨hj.1, hj.2.removed ho hs fun hm => hprune j (h.made j hm)⟩
  · -- The mutex is as it was, and a `Remove` does not hold it.
    rw [hlocked]
    constructor
    · intro hl
      obtain ⟨j, hj⟩ := h.holder hl
      refine .inr ⟨j, ?_, hj⟩
      rintro rfl
      rw [hwait] at hj
      exact hj
    · rintro (hf | ⟨j, -, hj⟩)
      · exact hf.elim
      · exact h.locked j hj
  · intro kind key data hw
    rw [hcall] at hw
    cases hw

/-- A step of a `write` takes it to its next phase, and no other `write` is inside. -/
theorem Writing.step_write (h : Writing calls tr d ps phase) {kind : Kind} {key : Bytes}
    (hcall : calls i = .write kind key data) (hi : ps i = .op (S := DirSig) o k) (hs : d.step o r d') :
    ∃ ph, Writing calls (tr ++ [(i, ⟨o, r⟩)]) d' (Function.update ps i (k r))
      (Function.update phase i ph) := by
  have hplace := h.place i
  rw [hcall] at hplace
  obtain ⟨hrest, hneeds⟩ := hplace
  obtain ⟨ph', hstep, hk, hneeds'⟩ := Phase.step (hrest ▸ hi) hs hneeds
  -- None of the others is inside: this call is, or takes the mutex now.
  have halone : ∀ j ≠ i, ¬ (phase j).holds := by
    intro j hji hj
    generalize hph : phase i = ph at hstep
    cases hstep with
    | lock =>
      have := h.locked j hj
      rw [hs.1] at this
      cases this
    | _ => exact hji (h.unique j i hj (by rw [hph]; trivial))
  refine ⟨ph', h.advance hs _ ph' ?_ ?_ ?_ (fun _ => halone) ?_ ?_⟩
  · rw [hcall, hk]
    exact ⟨rfl, hneeds'⟩
  · intro j hji
    have hj := h.place j
    cases hcj : calls j with
    | remove e' =>
      rw [hcj] at hj
      exact hj
    | write kind' key' data' =>
      rw [hcj] at hj
      exact ⟨hj.1, Phase.needs_of_not_holds (halone j hji) data' d'⟩
  · rw [hstep.locked_iff hs (h.locked i)]
    constructor
    · exact .inl
    · rintro (hhold | ⟨j, hji, hj⟩)
      · exact hhold
      · exact absurd hj (halone j hji)
  · rintro rfl
    generalize phase i = ph at hstep
    cases hstep
    rfl
  · intro kind' key' data' hw hin
    rw [hcall] at hw
    cases hw
    exact hstep.installs hs hneeds hin

/-- What holds between the steps is kept by each of them, unless it prunes a directory that was just made. -/
theorem Writing.step (h : Writing calls tr d ps phase) (hi : ps i = .op (S := DirSig) o k)
    (hs : d.step o r d')
    (hprune : ∀ j, (own j tr).getLast? = some dirMade → (⟨o, r⟩ : Event DirSig) ≠ dirPruned) :
    ∃ phase', Writing calls (tr ++ [(i, ⟨o, r⟩)]) d' (Function.update ps i (k r)) phase' := by
  cases hcall : calls i with
  | remove e => exact ⟨_, h.step_remove hcall hi hs hprune⟩
  | write kind key data =>
    obtain ⟨ph, hwriting⟩ := h.step_write hcall hi hs
    exact ⟨_, hwriting⟩

end Step

/-- In a run that never prunes a directory right after it was made, what holds between the steps holds
throughout. -/
theorem writing_of_together {peerID : Bytes} (hpeer : peerID ≠ []) {calls : ι → SpoolCall}
    (hkey : ∀ i kind key data, calls i = .write kind key data → key ≠ []) (hfree : d.locked = false)
    {ps : ι → DirM Unit} (h : Together dirEnv d (fun i => (calls i).prog peerID) tr d' ps)
    (hprune : ¬ PrunesMade tr) : ∃ phase, Writing calls tr d' ps phase := by
  refine Together.invariant (fun tr d ps => ¬ PrunesMade tr → ∃ phase, Writing calls tr d ps phase)
    ?_ ?_ h hprune
  · intro _
    refine ⟨fun _ => .waiting, ?_, fun _ hf => hf.elim, fun _ _ hf => hf.elim, ?_, ?_, ?_⟩
    · intro i
      cases hcall : calls i with
      | write kind key data =>
        refine ⟨?_, trivial⟩
        have hne : ¬ (peerID = [] ∨ key = []) := not_or.mpr ⟨hpeer, hkey i kind key data hcall⟩
        simp only [SpoolCall.prog, writeSpool, if_neg hne]
        rfl
      | remove e =>
        refine ⟨rfl, .inl ?_⟩
        simp only [SpoolCall.prog]
    · intro hl
      rw [hfree] at hl
      cases hl
    · intro i hm
      cases hm
    · intro i kind key data _ hf
      exact hf.elim
  · intro tr v qs i o r k v' hI hi hs hno
    -- A trace without such a prune has none before its last step either.
    have hbefore : ¬ PrunesMade tr := by
      rintro ⟨before, i', j, after, rfl, hmade⟩
      exact hno ⟨before, i', j, after ++ [(i, ⟨o, r⟩)], by simp, hmade⟩
    obtain ⟨phase, hw⟩ := hI hbefore
    refine hw.step hi hs ?_
    intro j hmade hev
    exact hno ⟨tr, j, i, [], by rw [hev], hmade⟩

/-- Whatever the calls do and in which order, as long as no `Remove` prunes the directory between the
`MkdirAll` of a `write` and its `CreateTemp`: no `write` fails, some call can go on while one has not
returned, and once it has returned its entry is listed with its bytes until a `Remove` of the entry, or
another `write` of it. -/
theorem write_listed {peerID : Bytes} (hpeer : peerID ≠ []) {calls : ι → SpoolCall}
    (hkey : ∀ i kind key data, calls i = .write kind key data → key ≠ []) (hfree : d.locked = false)
    {tr : List (ι × Event DirSig)} {ps : ι → DirM Unit}
    (h : Together dirEnv d (fun i => (calls i).prog peerID) tr d' ps) (hprune : ¬ PrunesMade tr) {i : ι}
    {kind : Kind} {key data : Bytes} (hcall : calls i = .write kind key data) :
    (∀ err, ps i ≠ .fail err) ∧
    (ps i ≠ ret () → ∃ j o k r d'', ps j = .op (S := DirSig) o k ∧ d'.step o r d'') ∧
    (ps i = ret () → ∃ before tmp after, tr = before ++ (i, renamedTo tmp (entryName kind key)) :: after ∧
      ((∀ x ∈ after, ¬ Touches (entryName kind key) x.2) →
        d'.Listed peerID ⟨peerID, kind, key⟩ data)) := by
  obtain ⟨phase, hw⟩ := writing_of_together hpeer hkey hfree h hprune
  have hplace := hw.place i
  rw [hcall] at hplace
  obtain ⟨hrest, -⟩ := hplace
  refine ⟨?_, ?_, ?_⟩
  · intro err hfail
    rw [hrest] at hfail
    cases hph : phase i <;> rw [hph] at hfail <;> cases hfail
  · intro hne
    by_cases hl : d'.locked = true
    · -- The call that holds the mutex can go on.
      obtain ⟨j, hj⟩ := hw.holder hl
      have hplace := hw.place j
      cases hcj : calls j with
      | remove e =>
        rw [hcj] at hplace
        rw [hplace.1] at hj
        exact hj.elim
      | write kind' key' data' =>
        rw [hcj] at hplace
        have hret : phase j ≠ .returned := fun hr => by rw [hr] at hj; exact hj
        obtain ⟨o, k, hop, hlock⟩ := Phase.exists_op hret (entryName kind' key') data'
        obtain ⟨r, d'', hs⟩ := d'.exists_step (o := o) fun ho => absurd hj (hlock ho)
        exact ⟨j, o, k, r, d'', hplace.1.trans hop, hs⟩
    · have hret : phase i ≠ .returned := fun hr => hne (by rw [hrest, hr]; rfl)
      obtain ⟨o, k, hop, -⟩ := Phase.exists_op hret (entryName kind key) data
      obtain ⟨r, d'', hs⟩ := d'.exists_step (o := o) fun _ => by simpa using hl
      exact ⟨i, o, k, r, d'', hrest.trans hop, hs⟩
  · intro hret
    -- A `write` that has returned has put its entry in place.
    have hin : (phase i).installed := by
      rw [hrest] at hret
      cases hph : phase i <;> rw [hph] at hret <;> trivial
    obtain ⟨before, tmp, after, htr, hb⟩ := hw.installed i kind key data hcall hin
    refine ⟨before, tmp, after, htr, ?_⟩
    intro hno
    exact ⟨_, entryOf_entryName peerID kind (hkey i kind key data hcall), hb hno⟩

end Calls

/-! ## A prune at the wrong moment -/

/-- The file of an entry that was delivered. -/
def sampleDirFile : Files := Files.empty.set (entryName .shard (lit "a")) (some [1])

/-- One call queues a shard, the other removes the one that was delivered. -/
def sampleCalls : Bool → SpoolCall
  | true => .write .shard (lit "b") [2]
  | false => .remove ⟨lit "bob", .shard, lit "a"⟩

/-- The directory is pruned right after the `write` has made sure of it, and the `write` fails. -/
theorem sampleCalls_write_fails : ∃ tr d' ps err,
    Together dirEnv ⟨false, some sampleDirFile⟩ (fun i => (sampleCalls i).prog (lit "bob")) tr d' ps ∧
      ps true = .fail err := by
  let left : Files := sampleDirFile.set (entryName .shard (lit "a")) none
  have hlock : dirEnv.step ⟨false, some sampleDirFile⟩ DirOp.lock () ⟨true, some sampleDirFile⟩ := ⟨rfl, rfl⟩
  have hmake : dirEnv.step ⟨true, some sampleDirFile⟩ DirOp.mkdirAll (.ok () : Except GoErr Unit)
      ⟨true, some sampleDirFile⟩ := ⟨rfl, rfl⟩
  have hunlink : dirEnv.step ⟨true, some sampleDirFile⟩ (DirOp.remove (entryName .shard (lit "a")))
      (.ok () : Except GoErr Unit) ⟨true, some left⟩ := ⟨rfl, rfl⟩
  have hprune : dirEnv.step ⟨true, some left⟩ DirOp.removeDir (.ok () : Except GoErr Unit) ⟨true, none⟩ := by
    refine .inl ⟨rfl, by simp, ?_, rfl⟩
    intro n
    by_cases hn : n = entryName .shard (lit "a") <;> simp [PeerDir.content, left, sampleDirFile, hn]
  have hcreate : dirEnv.step ⟨true, none⟩ DirOp.createTemp (.error errNotExist : Except GoErr TempName)
      ⟨true, none⟩ := ⟨rfl, rfl⟩
  have hunlock : dirEnv.step ⟨true, none⟩ DirOp.unlock () ⟨false, none⟩ := rfl
  exact ⟨_, _, _, errNotExist, .step true rfl hlock <| .step true rfl hmake <| .step false rfl hunlink <|
    .step false rfl hprune <| .step true rfl hcreate <| .step true rfl hunlock <| .refl _ _, rfl⟩

/-- When the `write` has created its file before, the directory is not empty and stays, and the entry is
listed. -/
theorem sampleCalls_write_listed : ∃ tr d' ps,
    Together dirEnv ⟨false, some sampleDirFile⟩ (fun i => (sampleCalls i).prog (lit "bob")) tr d' ps ∧
      ¬ PrunesMade tr ∧ ps true = ret () ∧
      ∃ before tmp after, tr = before ++ (true, renamedTo tmp (entryName .shard (lit "b"))) :: after ∧
        ((∀ x ∈ after, ¬ Touches (entryName .shard (lit "b")) x.2) →
          d'.Listed (lit "bob") ⟨lit "bob", .shard, lit "b"⟩ [2]) := by
  let tmp : TempName := ⟨tempStart, List.prefix_rfl⟩
  let f₁ : Files := sampleDirFile.set tmp.1 (some [])
  let f₂ : Files := f₁.set (entryName .shard (lit "a")) none
  let f₃ : Files := f₂.set tmp.1 (some [2])
  let f₄ : Files := (f₃.set tmp.1 none).set (entryName .shard (lit "b")) (some [2])
  have htmp : tmp.1 ≠ entryName .shard (lit "a") := (entryName_ne_temp _ _ tmp).symm
  have hfree : sampleDirFile.content tmp.1 = none := by simp [sampleDirFile, htmp]
  have hlock : dirEnv.step ⟨false, some sampleDirFile⟩ DirOp.lock () ⟨true, some sampleDirFile⟩ := ⟨rfl, rfl⟩
  have hmake : dirEnv.step ⟨true, some sampleDirFile⟩ DirOp.mkdirAll (.ok () : Except GoErr Unit)
      ⟨true, some sampleDirFile⟩ := ⟨rfl, rfl⟩
  have hcreate : dirEnv.step ⟨true, some sampleDirFile⟩ DirOp.createTemp (.ok tmp : Except GoErr TempName)
      ⟨true, some f₁⟩ := ⟨tmp, hfree, rfl, rfl⟩
  have hunlink : dirEnv.step ⟨true, some f₁⟩ (DirOp.remove (entryName .shard (lit "a")))
      (.ok () : Except GoErr Unit) ⟨true, some f₂⟩ := ⟨rfl, rfl⟩
  have hprune : dirEnv.step ⟨true, some f₂⟩ DirOp.removeDir (.error errNotExist : Except GoErr Unit)
      ⟨true, some f₂⟩ := by
    refine .inr ⟨⟨_, rfl⟩, ?_, rfl⟩
    rintro ⟨-, hempty⟩
    have := hempty tmp.1
    simp [PeerDir.content, f₂, f₁, htmp] at this
  have hfill : dirEnv.step ⟨true, some f₂⟩ (DirOp.write tmp [2]) (.ok () : Except GoErr Unit)
      ⟨true, some f₃⟩ := by
    refine ⟨rfl, ?_⟩
    simp [f₃, f₂, f₁, htmp]
  have hclose : dirEnv.step ⟨true, some f₃⟩ (DirOp.close tmp) (.ok () : Except GoErr Unit) ⟨true, some f₃⟩ :=
    ⟨rfl, rfl⟩
  have hrename : dirEnv.step ⟨true, some f₃⟩ (DirOp.rename tmp (entryName .shard (lit "b")))
      (.ok () : Except GoErr Unit) ⟨true, some f₄⟩ := ⟨rfl, rfl⟩
  have hunlock : dirEnv.step ⟨true, some f₄⟩ DirOp.unlock () ⟨false, some f₄⟩ := rfl
  have hrun : Together dirEnv _ (fun i => (sampleCalls i).prog (lit "bob")) _ _ _ := .step true rfl hlock <|
    .step true rfl hmake <| .step true rfl hcreate <| .step false rfl hunlink <| .step false rfl hprune <|
    .step true rfl hfill <| .step true rfl hclose <| .step true rfl hrename <| .step true rfl hunlock <|
    .refl _ _
  have hkey : ∀ i kind key data, sampleCalls i = .write kind key data → key ≠ [] := by
    intro i kind key data h
    cases i <;> cases h
    decide
  suffices hno : ¬ PrunesMade _ from
    ⟨_, _, _, hrun, hno, rfl, (write_listed (by decide) hkey rfl hrun hno (i := true) rfl).2.2 rfl⟩
  refine not_prunesMade ?_
  intro x hx
  simp only [List.mem_cons, List.not_mem_nil, or_false] at hx
  rcases hx with rfl | rfl | rfl | rfl | rfl | rfl | rfl | rfl | rfl <;> intro h <;> cases h

end FnShare
