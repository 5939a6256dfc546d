import FnShare.File.Listing

/-!
# The mounted file system

The package `internal/fuse`: a directory for each group, with its shared files and, in `.private`, the
private files that the node owns. `Readdir` lists a directory by the names that files and groups have after
`sanitize`, and `Lookup` takes the first one of a name, with `.private` apart. Names are the users' choice
and `sanitize` loses some of them, so an entry can lead to another file than the one it was listed for, or
to none. `fuse_resolves_iff` says when: the names of a directory have to be different after `sanitize`, and
none of a shared file may be `.private`.
-/

namespace FnShare

open Prog

/-! ## Names -/

/-- `shortID`. -/
def shortID (m : Manifest) : Bytes := if 12 ≤ m.fileID.length then m.fileID.take 12 else m.fileID

/-- `visibleName`. -/
def visibleName (m : Manifest) (self : Bytes) : Bytes :=
  if m.mode = modePrivate ∧ m.filenameEncrypted = true then
    if m.ownerPeerID ≠ self then [] else shortID m ++ lit ".bin"
  else if m.filename ≠ [] then m.filename
  else shortID m ++ lit ".bin"

/-- `sanitize`: slashes and zero bytes become underscores, and 200 bytes are kept. -/
def sanitize (s : Bytes) : Bytes :=
  if s = [] then lit "_" else (s.map fun b => if b = 47 ∨ b = 0 then 95 else b).take 200

/-- The name under which a file is listed. -/
def listedName (self : Bytes) (m : Manifest) : Bytes := sanitize (visibleName m self)

/-- The directory of the private files. -/
def dotPrivate : Bytes := lit ".private"

/-! ## Directories -/

/-- The error numbers that the file system answers with. -/
inductive Errno
  | eio
  | enoent

/-- What an entry of a directory leads to. -/
inductive FuseNode
  /-- `groupNode`. -/
  | group (groupID groupName : Bytes)
  /-- `privateNode`. -/
  | privateDir (groupID : Bytes)
  /-- `fileNode`. -/
  | file (m : Manifest)

/-- `fuse.DirEntry`; the mode is that of a directory or of a file. -/
structure DirEntry where
  name : Bytes
  isDir : Bool

/-- The shared files of a group. -/
def sharedIn (groupID : Bytes) (m : Manifest) : Bool :=
  m.groupID = groupID && (m.mode = modeShared || m.mode = [])

/-- The private files of a group that a node owns. -/
def ownedIn (self groupID : Bytes) (m : Manifest) : Bool :=
  m.groupID = groupID && m.mode = modePrivate && m.ownerPeerID = self

/-- The entries of files. -/
def fileEntries (self : Bytes) (files : List Manifest) : List DirEntry :=
  files.map fun m => ⟨listedName self m, false⟩

/-- The loop of the two `Lookup`s that look for a file. -/
def lookupFile (self : Bytes) (files : List Manifest) (name : Bytes) : Except Errno FuseNode :=
  match files.find? fun m => listedName self m = name with
  | some m => .ok (.file m)
  | none => .error .enoent

section Code

variable (L : Libs) (svc : Service) (self : Bytes)

/-- The files of `Service.List`, of which there are none after an error. -/
def filesOrNone : NodeM (List Manifest) := do
  match ← attempt (listFiles L svc) with
  | .ok all => return all
  | .error _ => return []

/-- `groupNode.listFiles`. -/
def groupFiles (groupID : Bytes) : NodeM (List Manifest × List Manifest) := do
  let all ← filesOrNone L svc
  return (all.filter (sharedIn groupID), all.filter (ownedIn self groupID))

/-- `privateNode.ownedHere`. -/
def ownedHere (groupID : Bytes) : NodeM (List Manifest) := do
  let all ← filesOrNone L svc
  return all.filter (ownedIn self groupID)

/-- `rootNode.Readdir`. -/
def rootReaddir : NodeM (Except Errno (List DirEntry)) := do
  match ← listGroups L with
  | (_, some _) => return .error .eio
  | (groups, none) => return .ok (groups.map fun g => ⟨sanitize g.name, true⟩)

/-- `rootNode.Lookup`. -/
def rootLookup (name : Bytes) : NodeM (Except Errno FuseNode) := do
  match ← listGroups L with
  | (_, some _) => return .error .eio
  | (groups, none) =>
    match groups.find? fun g => sanitize g.name = name with
    | some g => return .ok (.group g.id g.name)
    | none => return .error .enoent

/-- `groupNode.Readdir`. -/
def groupReaddir (groupID : Bytes) : NodeM (Except Errno (List DirEntry)) := do
  let (shared, ownedPrivate) ← groupFiles L svc self groupID
  return .ok (fileEntries self shared ++
    if 0 < ownedPrivate.length then [⟨dotPrivate, true⟩] else [])

/-- `groupNode.Lookup`. -/
def groupLookup (groupID name : Bytes) : NodeM (Except Errno FuseNode) := do
  if name = dotPrivate then
    let (_, owned) ← groupFiles L svc self groupID
    if owned.length = 0 then return .error .enoent
    else return .ok (.privateDir groupID)
  else
    let (shared, _) ← groupFiles L svc self groupID
    return lookupFile self shared name

/-- `privateNode.Readdir`. -/
def privateReaddir (groupID : Bytes) : NodeM (Except Errno (List DirEntry)) := do
  let files ← ownedHere L svc self groupID
  return .ok (fileEntries self files)

/-- `privateNode.Lookup`. -/
def privateLookup (groupID name : Bytes) : NodeM (Except Errno FuseNode) := do
  let files ← ownedHere L svc self groupID
  return lookupFile self files name

end Code

/-! ## What a node shows -/

section Shown

variable (L : Libs) (svc : Service) (self : Bytes) (s : NodeState)

/-- The files of a node as it lists them. -/
def NodeState.listed : List Manifest := (s.manifests L).map (s.shown L svc.self)

/-- The shared files of a group. -/
def NodeState.sharedFiles (groupID : Bytes) : List Manifest :=
  (s.listed L svc).filter (sharedIn groupID)

/-- The private files of a group that the node owns. -/
def NodeState.ownedFiles (groupID : Bytes) : List Manifest :=
  (s.listed L svc).filter (ownedIn self groupID)

end Shown

section Calm

variable {L : Libs} {svc : Service} {self : Bytes} {s : NodeState}
  {net : Bytes → Request → Except GoErr Response}

/-- The files that are listed. -/
theorem calm_filesOrNone : wp (calmEnv net) (filesOrNone L svc)
    (returns fun all s' => all = s.listed L svc ∧ s' = s) s := by
  unfold filesOrNone
  rw [wp_bind, wp_attempt]
  refine wp_mono calm_listFiles ?_
  rintro (e | all) s' h
  · exact h.elim
  · exact h

/-- The files of a group, shared and own. -/
theorem calm_groupFiles (groupID : Bytes) : wp (calmEnv net) (groupFiles L svc self groupID)
    (returns fun r s' =>
      r = (s.sharedFiles L svc groupID, s.ownedFiles L svc self groupID) ∧ s' = s) s := by
  refine wp_bind_returns calm_filesOrNone ?_
  rintro all s' ⟨rfl, rfl⟩
  exact ⟨rfl, rfl⟩

/-- The own files of a group. -/
theorem calm_ownedHere (groupID : Bytes) : wp (calmEnv net) (ownedHere L svc self groupID)
    (returns fun r s' => r = s.ownedFiles L svc self groupID ∧ s' = s) s := by
  refine wp_bind_returns calm_filesOrNone ?_
  rintro all s' ⟨rfl, rfl⟩
  exact ⟨rfl, rfl⟩

/-- The groups in the store. -/
theorem calm_listGroups : wp (calmEnv net) (listGroups L)
    (returns fun r s' => r = (s.groups L, none) ∧ s' = s) s := by
  unfold listGroups
  refine ⟨id, ?_⟩
  rintro r s' ⟨⟨rfl, -⟩, rfl⟩
  exact ⟨rfl, rfl⟩

/-- What a program that reads returns, from what it is known to return. -/
theorem computes_of_calm {α : Type} {p : NodeM α} {a : α}
    (h : wp (calmEnv net) p (returns fun r s' => r = a ∧ s' = s) s) : Computes (calmEnv net) s p a :=
  computes_of_wp (calmEnv_answers net) (wp_mono h fun r s' hr => by
    cases r with
    | error e => exact hr
    | ok r => exact hr.1)

/-- The root lists the groups. -/
theorem computes_rootReaddir : Computes (calmEnv net) s (rootReaddir L)
    (.ok ((s.groups L).map fun g => ⟨sanitize g.name, true⟩)) := by
  refine computes_of_calm (wp_bind_returns calm_listGroups ?_)
  rintro r s' ⟨rfl, rfl⟩
  exact ⟨rfl, rfl⟩

/-- A group is found by its name. -/
theorem computes_rootLookup (name : Bytes) : Computes (calmEnv net) s (rootLookup L name)
    (match (s.groups L).find? fun g => sanitize g.name = name with
      | some g => .ok (.group g.id g.name)
      | none => .error .enoent) := by
  refine computes_of_calm (wp_bind_returns calm_listGroups ?_)
  rintro r s' ⟨rfl, rfl⟩
  dsimp only
  cases (s'.groups L).find? fun g => sanitize g.name = name <;> exact ⟨rfl, rfl⟩

/-- A group lists its shared files and `.private`. -/
theorem computes_groupReaddir (groupID : Bytes) :
    Computes (calmEnv net) s (groupReaddir L svc self groupID)
      (.ok (fileEntries self (s.sharedFiles L svc groupID) ++
        if 0 < (s.ownedFiles L svc self groupID).length then [⟨dotPrivate, true⟩] else [])) := by
  refine computes_of_calm (wp_bind_returns (calm_groupFiles groupID) ?_)
  rintro r s' ⟨rfl, rfl⟩
  exact ⟨rfl, rfl⟩

/-- A name in a group. -/
theorem computes_groupLookup (groupID name : Bytes) :
    Computes (calmEnv net) s (groupLookup L svc self groupID name)
      (if name = dotPrivate then
        if (s.ownedFiles L svc self groupID).length = 0 then .error .enoent
        else .ok (.privateDir groupID)
      else lookupFile self (s.sharedFiles L svc groupID) name) := by
  refine computes_of_calm ?_
  unfold groupLookup
  split_ifs with hname howned
  · refine wp_bind_returns (calm_groupFiles groupID) ?_
    rintro r s' ⟨rfl, rfl⟩
    simp [howned]
  · refine wp_bind_returns (calm_groupFiles groupID) ?_
    rintro r s' ⟨rfl, rfl⟩
    simp [howned]
  · refine wp_bind_returns (calm_groupFiles groupID) ?_
    rintro r s' ⟨rfl, rfl⟩
    exact ⟨rfl, rfl⟩

/-- `.private` lists the own files. -/
theorem computes_privateReaddir (groupID : Bytes) :
    Computes (calmEnv net) s (privateReaddir L svc self groupID)
      (.ok (fileEntries self (s.ownedFiles L svc self groupID))) := by
  refine computes_of_calm (wp_bind_returns (calm_ownedHere groupID) ?_)
  rintro r s' ⟨rfl, rfl⟩
  exact ⟨rfl, rfl⟩

/-- A name in `.private`. -/
theorem computes_privateLookup (groupID name : Bytes) :
    Computes (calmEnv net) s (privateLookup L svc self groupID name)
      (lookupFile self (s.ownedFiles L svc self groupID) name) := by
  refine computes_of_calm (wp_bind_returns (calm_ownedHere groupID) ?_)
  rintro r s' ⟨rfl, rfl⟩
  exact ⟨rfl, rfl⟩

end Calm

/-! ## Listing and lookup -/

/-- In a list, the first element with the key of an element agrees with it exactly when all elements with
the same key agree. -/
theorem find?_key_iff {α β γ : Type} [DecidableEq β] (f : α → β) (h : α → γ) (l : List α) :
    (∀ a ∈ l, ∃ b, l.find? (fun x => f x = f a) = some b ∧ h b = h a) ↔
      ∀ a ∈ l, ∀ b ∈ l, f a = f b → h a = h b := by
  constructor
  · intro hfind a ha b hb hf
    obtain ⟨c, hc, hca⟩ := hfind a ha
    obtain ⟨d, hd, hdb⟩ := hfind b hb
    rw [hf, hd] at hc
    obtain rfl := Option.some.inj hc
    exact hca.symm.trans hdb
  · intro hall a ha
    have hsome : (l.find? fun x => f x = f a).isSome := by
      rw [List.find?_isSome]
      exact ⟨a, ha, by simp⟩
    obtain ⟨b, hb⟩ := Option.isSome_iff_exists.mp hsome
    have hkey : f b = f a := by simpa using List.find?_some hb
    exact ⟨b, hb, hall b (List.mem_of_find?_eq_some hb) a ha hkey⟩

/-- The first file of a name is found. -/
theorem lookupFile_eq_ok {self name : Bytes} {files : List Manifest} {m : Manifest} :
    lookupFile self files name = .ok (.file m) ↔
      files.find? (fun m => listedName self m = name) = some m := by
  unfold lookupFile
  cases files.find? fun m => listedName self m = name <;> simp

/-- Every file of a list is found by its name exactly when the names are different. -/
theorem lookupFile_iff (self : Bytes) (files : List Manifest) :
    (∀ m ∈ files, lookupFile self files (listedName self m) = .ok (.file m)) ↔
      ∀ m ∈ files, ∀ m' ∈ files, listedName self m = listedName self m' → m = m' := by
  refine Iff.trans (forall₂_congr fun m _ => ?_) (find?_key_iff (listedName self) id files)
  rw [lookupFile_eq_ok]
  simp

section Resolves

variable (L : Libs) (svc : Service) (selfID : Bytes) (net : Bytes → Request → Except GoErr Response)
  (s : NodeState)

/-- Every entry of the file system leads to what it was listed for. -/
structure ListedResolves : Prop where
  /-- The entries of the root lead to their groups. -/
  groups : ∀ g ∈ s.groups L, ∃ name,
    Computes (calmEnv net) s (rootLookup L (sanitize g.name)) (.ok (.group g.id name))
  /-- The entries of a group's directory lead to their files. -/
  shared : ∀ g ∈ s.groups L, ∀ m ∈ s.sharedFiles L svc g.id,
    Computes (calmEnv net) s (groupLookup L svc selfID g.id (listedName selfID m)) (.ok (.file m))
  /-- The entries of a directory of private files lead to their files. -/
  owned : ∀ g ∈ s.groups L, ∀ m ∈ s.ownedFiles L svc selfID g.id,
    Computes (calmEnv net) s (privateLookup L svc selfID g.id (listedName selfID m)) (.ok (.file m))

/-- The names of the groups, and those of the files in each directory, are different after `sanitize`, and
no shared file has the name of the directory of private files. -/
structure NamesApart : Prop where
  groups : ∀ g ∈ s.groups L, ∀ g' ∈ s.groups L, sanitize g.name = sanitize g'.name → g.id = g'.id
  shared : ∀ g ∈ s.groups L, ∀ m ∈ s.sharedFiles L svc g.id, ∀ m' ∈ s.sharedFiles L svc g.id,
    listedName selfID m = listedName selfID m' → m = m'
  reserved : ∀ g ∈ s.groups L, ∀ m ∈ s.sharedFiles L svc g.id, listedName selfID m ≠ dotPrivate
  owned : ∀ g ∈ s.groups L, ∀ m ∈ s.ownedFiles L svc selfID g.id,
    ∀ m' ∈ s.ownedFiles L svc selfID g.id, listedName selfID m = listedName selfID m' → m = m'

end Resolves

section

variable {L : Libs} {svc : Service} {self : Bytes} {s : NodeState}
  {net : Bytes → Request → Except GoErr Response}

/-- Every group is found by its name if no two share one. -/
theorem groups_resolve_iff :
    (∀ g ∈ s.groups L, ∃ name,
      Computes (calmEnv net) s (rootLookup L (sanitize g.name)) (.ok (.group g.id name))) ↔
    ∀ g ∈ s.groups L, ∀ g' ∈ s.groups L, sanitize g.name = sanitize g'.name → g.id = g'.id := by
  rw [← find?_key_iff (fun g : Group => sanitize g.name) Group.id]
  refine forall₂_congr fun g _ => ?_
  simp only [(computes_rootLookup _).eq_iff]
  cases hfind : (s.groups L).find? fun g' => sanitize g'.name = sanitize g.name with
  | none => simp
  | some g' => simp

/-- A shared file is found unless it has the name of the directory of private files. -/
theorem computes_groupLookup_iff (groupID : Bytes) (m : Manifest) :
    Computes (calmEnv net) s (groupLookup L svc self groupID (listedName self m)) (.ok (.file m)) ↔
      listedName self m ≠ dotPrivate ∧
        lookupFile self (s.sharedFiles L svc groupID) (listedName self m) = .ok (.file m) := by
  rw [(computes_groupLookup _ _).eq_iff]
  split_ifs with hname howned
  · simp [hname]
  · simp [hname]
  · simp [hname]

/-- The mounted file system lists what the node has, and the entries lead to what they were listed for
exactly when the names are apart. -/
theorem fuse_resolves_iff (L : Libs) (svc : Service) (self : Bytes)
    (net : Bytes → Request → Except GoErr Response) (s : NodeState) :
    Computes (calmEnv net) s (rootReaddir L)
        (.ok ((s.groups L).map fun g => ⟨sanitize g.name, true⟩)) ∧
      (∀ g ∈ s.groups L, ∃ dirs, Computes (calmEnv net) s (groupReaddir L svc self g.id)
        (.ok ((s.sharedFiles L svc g.id).map (fun m => ⟨listedName self m, false⟩) ++ dirs))) ∧
      (∀ g ∈ s.groups L, Computes (calmEnv net) s (privateReaddir L svc self g.id)
        (.ok ((s.ownedFiles L svc self g.id).map fun m => ⟨listedName self m, false⟩))) ∧
      (ListedResolves L svc self net s ↔ NamesApart L svc self s) := by
  refine ⟨computes_rootReaddir, fun g _ => ⟨_, computes_groupReaddir g.id⟩,
    fun g _ => computes_privateReaddir g.id, ?_⟩
  constructor
  · intro h
    have hshared : ∀ g ∈ s.groups L, ∀ m ∈ s.sharedFiles L svc g.id, listedName self m ≠ dotPrivate ∧
        lookupFile self (s.sharedFiles L svc g.id) (listedName self m) = .ok (.file m) :=
      fun g hg m hm => (computes_groupLookup_iff g.id m).mp (h.shared g hg m hm)
    constructor
    case groups => exact groups_resolve_iff.mp h.groups
    case shared =>
      exact fun g hg => (lookupFile_iff self _).mp fun m hm => (hshared g hg m hm).2
    case reserved => exact fun g hg m hm => (hshared g hg m hm).1
    case owned =>
      refine fun g hg => (lookupFile_iff self _).mp fun m hm => ?_
      exact (computes_privateLookup g.id _).eq_iff.mp (h.owned g hg m hm)
  · intro h
    constructor
    case groups => exact groups_resolve_iff.mpr h.groups
    case shared =>
      intro g hg m hm
      refine (computes_groupLookup_iff g.id m).mpr ⟨h.reserved g hg m hm, ?_⟩
      exact (lookupFile_iff self _).mpr (h.shared g hg) m hm
    case owned =>
      intro g hg m hm
      refine (computes_privateLookup g.id _).eq_iff.mpr ?_
      exact (lookupFile_iff self _).mpr (h.owned g hg) m hm

end

/-! ## Two files of one name -/

/-- The manifest of a shared file. -/
def sampleFilm (fileID : Bytes) : Manifest where
  fileID := fileID
  groupID := (sampleGroup 7).id
  filename := lit "film.mkv"
  size := 0
  dataShards := 1
  parityShards := 1
  stripeDataSize := 4
  holders := []
  stripes := []
  createdAt := 0
  ownerPeerID := lit "uploader"
  mode := modeShared
  wrappedKey := []
  filenameEncrypted := false

/-- A node with two shared files of one name. -/
def sampleFilms : NodeState :=
  (sampleNode.putKey (manifestKey (lit "one"))
    (sampleLibs.cbor.manifest.marshal (sampleFilm (lit "one")))).putKey (manifestKey (lit "two"))
    (sampleLibs.cbor.manifest.marshal (sampleFilm (lit "two")))

/-- Both files are listed, and only one of them is found under the name. -/
theorem second_film_hidden :
    sampleGroup 7 ∈ sampleFilms.groups sampleLibs ∧
      sampleFilm (lit "two") ∈ sampleFilms.sharedFiles sampleLibs sampleService (sampleGroup 7).id ∧
      Computes (calmEnv allAck) sampleFilms
        (groupReaddir sampleLibs sampleService (lit "uploader") (sampleGroup 7).id)
        (.ok [⟨lit "film.mkv", false⟩, ⟨lit "film.mkv", false⟩]) ∧
      listedName (lit "uploader") (sampleFilm (lit "two")) = lit "film.mkv" ∧
      Computes (calmEnv allAck) sampleFilms
        (groupLookup sampleLibs sampleService (lit "uploader") (sampleGroup 7).id (lit "film.mkv"))
        (.ok (.file (sampleFilm (lit "one")))) ∧
      sampleFilm (lit "one") ≠ sampleFilm (lit "two") := by
  have hgroups : sampleFilms.groups sampleLibs = [sampleGroup 7] := by decide +kernel
  have hshared : sampleFilms.sharedFiles sampleLibs sampleService (sampleGroup 7).id =
      [sampleFilm (lit "one"), sampleFilm (lit "two")] := by decide +kernel
  have howned : sampleFilms.ownedFiles sampleLibs sampleService (lit "uploader") (sampleGroup 7).id =
      [] := by decide +kernel
  refine ⟨by simp [hgroups], by simp [hshared], ?_, by decide, ?_, by decide⟩
  · refine (computes_groupReaddir _).eq_iff.mpr ?_
    rw [hshared, howned]
    rfl
  · refine (computes_groupLookup _ _).eq_iff.mpr ?_
    rw [if_neg (by decide), hshared]
    rfl

end FnShare
