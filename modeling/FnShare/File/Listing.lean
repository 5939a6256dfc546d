import FnShare.File.Reader
import FnShare.File.Success
import FnShare.Repair.Scan

/-!
# Listing the files of a node

`Service.List` of `internal/file`. The manifest of a private file has its name encrypted, but the node of the
owner keeps the name under a key of its own (`savePrivateName`), and `List` puts it into the copies that it
returns (`NodeState.shown`). A reader does the same with the name that it has decrypted (`Reader.manifest`).
Both only read.
-/

namespace FnShare

open Prog

section Code

variable (L : Libs) (svc : Service)

/-- `loadPrivateName`. -/
def loadPrivateName (fileID : Bytes) : NodeM (Option Bytes) := do
  match ← attempt (storeGet (pnameKey fileID)) with
  | .error _ => return none
  | .ok raw =>
    match L.cbor.text.unmarshal raw with
    | .error _ => return none
    | .ok name => return some name

/-- The manifest of a private file with the name that was found. -/
def Manifest.withName (m : Manifest) (name : Bytes) : Manifest :=
  { m with filename := name, filenameEncrypted := false }

/-- Whether `List` looks for the name of a file. -/
def Manifest.hidesName (m : Manifest) (self : Bytes) : Bool :=
  m.mode = modePrivate && m.ownerPeerID = self && m.filenameEncrypted

/-- The loop of `List`. -/
def showNames : List Manifest → NodeM (List Manifest)
  | [] => return []
  | m :: rest => do
    if m.hidesName svc.self then
      let name ← loadPrivateName L m.fileID
      let shown ← showNames rest
      return (name.elim m m.withName) :: shown
    else
      let shown ← showNames rest
      return m :: shown

/-- `Service.List`. -/
def listFiles : NodeM (List Manifest) := do
  match ← listManifests L with
  | (_, some e) => fail e
  | (all, none) => showNames L svc all

/-- `Reader.Manifest`. -/
def Reader.manifest (r : Reader) : Manifest :=
  if r.decryptedFilename ≠ [] then { r.m with filename := r.decryptedFilename } else r.m

end Code

/-! ## What a listing shows -/

/-- The name that a node has kept of a private file. -/
def NodeState.privateName (L : Libs) (s : NodeState) (fileID : Bytes) : Option Bytes :=
  (s.store.get (pnameKey fileID)).bind fun raw => (L.cbor.text.unmarshal raw).toOption

/-- The manifest of a file as the node shows it. -/
def NodeState.shown (L : Libs) (s : NodeState) (self : Bytes) (m : Manifest) : Manifest :=
  if m.hidesName self then (s.privateName L m.fileID).elim m m.withName else m

/-- An operation that reads the store. -/
def Reads (o : NodeOp) : Prop := (∃ key, o = .storeGet key) ∨ ∃ pre, o = .storeIterate pre

section Shown

variable {L : Libs} {svc : Service} {s : NodeState}

/-- Names are read from the store. -/
theorem only_showNames (ms : List Manifest) : (showNames L svc ms).Only Reads := by
  induction ms with
  | nil => trivial
  | cons m rest ih =>
    unfold showNames
    split_ifs
    · refine only_bind ?_ fun name => only_bind ih fun _ => trivial
      unfold loadPrivateName
      refine only_bind (only_attempt ⟨.inl ⟨_, rfl⟩, fun _ => only_ofExcept _⟩) fun r => ?_
      cases r with
      | error e => trivial
      | ok raw =>
        cases hraw : L.cbor.text.unmarshal raw with
        | error e =>
          simp only [hraw]
          trivial
        | ok name =>
          simp only [hraw]
          trivial
    · exact only_bind ih fun _ => trivial

/-- A listing only reads. -/
theorem only_listFiles : (listFiles L svc).Only Reads := by
  unfold listFiles listManifests
  refine ⟨.inr ⟨_, rfl⟩, fun r => ?_⟩
  obtain ⟨pairs, err⟩ := r
  cases err with
  | some e => trivial
  | none => exact only_showNames _

variable {net : Bytes → Request → Except GoErr Response}

/-- Each file is shown under its name. -/
theorem calm_showNames (ms : List Manifest) : wp (calmEnv net) (showNames L svc ms)
    (returns fun shown s' => shown = ms.map (s.shown L svc.self) ∧ s' = s) s := by
  induction ms with
  | nil => exact ⟨rfl, rfl⟩
  | cons m rest ih =>
    have hrest : ∀ m', m' = s.shown L svc.self m → wp (calmEnv net) (showNames L svc rest >>= fun shown =>
        (ret (m' :: shown) : NodeM (List Manifest)))
        (returns fun shown s' => shown = (m :: rest).map (s.shown L svc.self) ∧ s' = s) s := by
      rintro m' rfl
      refine wp_bind_returns ih ?_
      rintro shown s' ⟨rfl, rfl⟩
      exact ⟨rfl, rfl⟩
    unfold showNames
    by_cases hhides : m.hidesName svc.self = true
    · rw [if_pos hhides]
      have hname : wp (calmEnv net) (loadPrivateName L m.fileID)
          (returns fun name s' => name = s.privateName L m.fileID ∧ s' = s) s := by
        unfold loadPrivateName NodeState.privateName
        rw [wp_bind, wp_attempt]
        refine ⟨id, ?_⟩
        rintro r s' ⟨⟨rfl, -⟩, rfl⟩
        unfold NodeState.read
        cases hget : s'.store.get (pnameKey m.fileID) with
        | none => exact ⟨rfl, rfl⟩
        | some raw =>
          simp only [bind_eq, ret_bind, ofExcept_ok, wp_ret, andThen_ok, Option.bind_some]
          cases L.cbor.text.unmarshal raw with
          | error e => exact ⟨rfl, rfl⟩
          | ok name => exact ⟨rfl, rfl⟩
      refine wp_bind_returns hname ?_
      rintro name s' ⟨rfl, rfl⟩
      exact hrest _ (by simp [NodeState.shown, hhides])
    · rw [if_neg hhides]
      exact hrest _ (by simp [NodeState.shown, hhides])

/-- Where nothing fails, a listing shows the manifests that the node has, with the names that it has kept. -/
theorem calm_listFiles : wp (calmEnv net) (listFiles L svc)
    (returns fun shown s' => shown = (s.manifests L).map (s.shown L svc.self) ∧ s' = s) s := by
  unfold listFiles listManifests
  refine ⟨id, ?_⟩
  rintro r s' ⟨⟨rfl, -⟩, rfl⟩
  exact calm_showNames _

end Shown

end FnShare
