import FnShare.Go
import FnShare.Lib.Interleave

/-!
# Changes of the configuration

`PATCH /v1/config` changes the configuration in memory and takes a snapshot of it under the server's
mutex, and writes the snapshot to disk after it has let go of the mutex. So the file ends up with the
snapshot that is written last, which need not be the newest one: a change that was acknowledged can be in
memory and not on disk (`patch_lost`). Where no snapshot is written after one that was taken later, the file
is the configuration in memory once all requests have answered (`patches_saved`).

The file is what it says: the configuration that its YAML stands for.
-/

namespace FnShare

open Prog

/-- `Config`. -/
structure Config where
  nickname : Bytes
  dataDir : Bytes
  contributedBytes : ℤ
  listenAddrs : List Bytes
  announceAddrs : List Bytes
  apiListen : Bytes
  heartbeatSeconds : ℤ
  mountPath : Bytes
  publicHost : Bytes
  publicPort : ℤ
  deriving DecidableEq

/-- The body of a `PATCH` request: a field that is not there is not changed. -/
structure ConfigPatch where
  publicHost : Option Bytes
  publicPort : Option ℤ

/-- `ConfigPublic`. -/
structure ConfigPublic where
  nickname : Bytes
  publicHost : Bytes
  publicPort : ℤ
  contributedBytes : ℤ

/-- The response of the two handlers. -/
inductive ConfigReply
  | error (status : ℕ) (err : GoErr)
  | config (body : ConfigPublic)

/-- The configuration with the fields of a patch. -/
def Config.patched (cfg : Config) (patch : ConfigPatch) : Config :=
  { cfg with
    publicHost := patch.publicHost.getD cfg.publicHost
    publicPort := patch.publicPort.getD cfg.publicPort }

/-- The operations of the two handlers. -/
inductive ConfigOp
  /-- The section of `handlePatchConfig` that holds the mutex, with the snapshot. -/
  | update (patch : ConfigPatch)
  /-- `config.Save`. -/
  | save (cfg : Config)
  /-- The configuration that `handleGetConfig` reads while it holds the mutex. -/
  | read

/-- The answer to an operation. -/
@[reducible] def ConfigOp.Ans : ConfigOp → Type
  | update _ => Config
  | save _ => Except GoErr Unit
  | read => Config

/-- The effect signature of the two handlers. -/
@[reducible] def ConfigSig : Sig := ⟨ConfigOp, ConfigOp.Ans⟩

/-- A program of the two handlers. -/
abbrev ConfigM (α : Type) := Prog ConfigSig GoErr α

/-- Perform one operation. -/
abbrev configOp (o : ConfigOp) : ConfigM o.Ans := Prog.op (S := ConfigSig) o ret

/-- What `handleGetConfig` shows of a configuration. -/
def Config.shown (cfg : Config) : ConfigPublic :=
  let port := if cfg.publicPort = 0 then 4001 else cfg.publicPort
  ⟨cfg.nickname, cfg.publicHost, port, cfg.contributedBytes⟩

/-- `handleGetConfig`. -/
def handleGetConfig : ConfigM ConfigReply := do
  let cfg ← configOp .read
  return .config cfg.shown

/-- The part of `handlePatchConfig` after the mutex. -/
def saveSnapshot (cfg : Config) : ConfigM ConfigReply := do
  match ← configOp (.save cfg) with
  | .error err => return .error 500 err
  | .ok () => handleGetConfig

/-- `handlePatchConfig`. -/
def handlePatchConfig (body : Except GoErr ConfigPatch) : ConfigM ConfigReply := do
  match body with
  | .error err => return .error 400 err
  | .ok patch =>
    let cfg ← configOp (.update patch)
    saveSnapshot cfg

/-- The configuration in memory and on disk. -/
structure ConfigWorld where
  mem : Config
  disk : Config

/-- What the operations do. A save that fails can leave anything on disk. -/
def configEnv : Env ConfigSig ConfigWorld where
  step w o r w' :=
    match o, r with
    | .update patch, cfg => cfg = w.mem.patched patch ∧ w' = { w with mem := cfg }
    | .save cfg, .ok () => w' = { w with disk := cfg }
    | .save _, .error _ => w'.mem = w.mem
    | .read, cfg => cfg = w.mem ∧ w' = w
  guard _ _ := True

/-- What a request has done when it comes to an operation: it saves the snapshot of its update. -/
def PatchOp (l : List (Event ConfigSig)) : ConfigOp → Prop
  | .update _ => l = []
  | .save cfg => ∃ patch, l = [⟨.update patch, cfg⟩]
  | .read => True

/-- A request that was successful has updated, saved the snapshot and read. -/
def PatchReply (reply : ConfigReply) (l : List (Event ConfigSig)) : Prop :=
  (∃ body, reply = .config body) → ∃ patch cfg cfg',
    l = [⟨.update patch, cfg⟩, ⟨.save cfg, .ok ()⟩, ⟨.read, cfg'⟩]

/-- What a patch request does, and how it answers. -/
theorem wp_handlePatchConfig (body : Except GoErr ConfigPatch) :
    wp ((Env.any ConfigSig).traced fun _ => PatchOp) (handlePatchConfig body)
      (returns fun reply wl => PatchReply reply wl.2) ((), []) := by
  cases body with
  | error err => exact fun ⟨_, h⟩ => absurd h (by simp)
  | ok patch =>
    refine wp_traced_op.mpr ⟨rfl, fun cfg _ _ => wp_traced_op.mpr ⟨⟨patch, rfl⟩, fun r _ _ => ?_⟩⟩
    cases r with
    | error err => exact fun ⟨_, h⟩ => absurd h (by simp)
    | ok u =>
      exact wp_traced_op.mpr ⟨trivial, fun cfg' _ _ _ => ⟨patch, cfg, cfg', rfl⟩⟩

/-- An update. -/
def IsUpdate (e : Event ConfigSig) : Prop := ∃ patch, e.op = .update patch

/-- A save. -/
def IsSave (e : Event ConfigSig) : Prop := ∃ cfg, e.op = .save cfg

section

variable {ι : Type} {tr : List (ι × Event ConfigSig)} {w w' : ConfigWorld} {i j : ι} {cfg cfg' : Config}

/-- The newest snapshot, and whose it is. -/
def Newest (tr : List (ι × Event ConfigSig)) (i : ι) (cfg : Config) : Prop :=
  ∃ before patch after, tr = before ++ (i, ⟨.update patch, cfg⟩) :: after ∧
    ∀ x ∈ after, ¬ IsUpdate x.2

/-- An update is the newest one when it is made. -/
theorem newest_update {patch : ConfigPatch}
    (h : Newest (tr ++ [(i, (⟨.update patch, cfg⟩ : Event ConfigSig))]) j cfg') :
    j = i ∧ cfg' = cfg := by
  obtain ⟨before, patch', after, heq, hafter⟩ := h
  rcases concat_eq_append_cons.mp heq with ⟨-, -, he⟩ | ⟨rest, rfl, -⟩
  · injection he with hj he
    injection he with hop hans
    injection hop with hop
    subst hop
    exact ⟨hj.symm, hans.symm⟩
  · exact absurd ⟨patch, rfl⟩ (hafter (i, ⟨.update patch, cfg⟩) (by simp))

/-- What is not an update does not change which one is the newest. -/
theorem newest_concat {e : Event ConfigSig} (he : ¬ IsUpdate e) :
    Newest (tr ++ [(i, e)]) j cfg ↔ Newest tr j cfg := by
  constructor
  · rintro ⟨before, patch, after, heq, hafter⟩
    rcases concat_eq_append_cons.mp heq with ⟨-, -, hlast⟩ | ⟨rest, rfl, htr⟩
    · injection hlast with _ hlast
      exact absurd ⟨patch, congrArg Event.op hlast⟩ he
    · exact ⟨before, patch, rest, htr, fun x hx => hafter x (by simp [hx])⟩
  · rintro ⟨before, patch, after, rfl, hafter⟩
    refine ⟨before, patch, after ++ [(i, e)], by simp, fun x hx => ?_⟩
    rcases List.mem_append.mp hx with hx | hx
    · exact hafter x hx
    · rwa [List.mem_singleton.mp hx]

/-- Another update was before the newest one. -/
theorem Newest.after (h : Newest tr i cfg) (hij : j ≠ i) {u : Event ConfigSig} (hu : IsUpdate u)
    (hj : (j, u) ∈ tr) :
    ∃ before after u', tr = before ++ (j, u) :: after ∧ (i, u') ∈ after ∧ IsUpdate u' := by
  obtain ⟨before, patch, after, rfl, hafter⟩ := h
  rcases List.mem_append.mp hj with hj | hj
  · obtain ⟨b, a, rfl⟩ := List.append_of_mem hj
    exact ⟨b, a ++ (i, ⟨.update patch, cfg⟩) :: after, ⟨.update patch, cfg⟩, by simp, by simp, patch, rfl⟩
  · rcases List.mem_cons.mp hj with heq | hj
    · exact absurd (Prod.mk.inj heq).1 hij
    · exact absurd hu (hafter _ hj)

variable [DecidableEq ι]

/-- The condition on a step: no snapshot is saved when one that was taken after it has been saved
already. -/
def InOrder (tr : List (ι × Event ConfigSig)) (_ : ConfigWorld) (_ : ι → ConfigM ConfigReply) (i : ι)
    (e : Event ConfigSig) : Prop :=
  IsSave e → ∀ before after u j u', tr = before ++ (i, u) :: after → IsUpdate u →
    (j, u') ∈ after → IsUpdate u' → ∀ s ∈ own j tr, ¬ IsSave s

/-- What requests keep that save in order: the newest snapshot is what is in memory, and on disk once it
was saved. -/
structure Saved (tr : List (ι × Event ConfigSig)) (w : ConfigWorld) : Prop where
  newest : ∀ x ∈ tr, IsUpdate x.2 → ∃ i cfg, Newest tr i cfg
  mem : ∀ i cfg, Newest tr i cfg → w.mem = cfg
  disk : ∀ i cfg, Newest tr i cfg → (⟨.save cfg, .ok ()⟩ : Event ConfigSig) ∈ own i tr → w.disk = cfg

/-- A new update is the newest one, and not saved yet. -/
theorem Saved.update {patch : ConfigPatch} (hown : own i tr = [])
    (hs : configEnv.step w (.update patch) cfg w') :
    Saved (tr ++ [(i, ⟨.update patch, cfg⟩)]) w' := by
  obtain ⟨-, rfl⟩ : cfg = w.mem.patched patch ∧ w' = { w with mem := cfg } := hs
  constructor
  case newest => exact fun _ _ _ => ⟨i, cfg, tr, patch, [], rfl, by simp⟩
  case mem =>
    intro j cfg' hnew
    exact (newest_update hnew).2.symm
  case disk =>
    -- Who has just updated has not saved.
    intro j cfg' hnew hsaved
    obtain ⟨rfl, rfl⟩ := newest_update hnew
    rw [own_append, own_cons_self, hown] at hsaved
    simp at hsaved

/-- What is not an update keeps it, if it leaves the newest snapshot on disk. -/
theorem Saved.concat (h : Saved tr w) {e : Event ConfigSig} (he : ¬ IsUpdate e) (hmem : w'.mem = w.mem)
    (hdisk : ∀ j cfg, Newest tr j cfg →
      (⟨.save cfg, .ok ()⟩ : Event ConfigSig) ∈ own j (tr ++ [(i, e)]) → w'.disk = cfg) :
    Saved (tr ++ [(i, e)]) w' := by
  constructor
  case newest =>
    intro x hx hup
    rcases List.mem_append.mp hx with hx | hx
    · obtain ⟨j, cfg, hnew⟩ := h.newest x hx hup
      exact ⟨j, cfg, (newest_concat he).mpr hnew⟩
    · rw [List.mem_singleton.mp hx] at hup
      exact absurd hup he
  case mem =>
    intro j cfg hnew
    rw [hmem]
    exact h.mem j cfg ((newest_concat he).mp hnew)
  case disk => exact fun j cfg hnew => hdisk j cfg ((newest_concat he).mp hnew)

/-- A save in the order of the updates is of the newest one. -/
theorem Saved.save (h : Saved tr w) {r : Except GoErr Unit} {patch : ConfigPatch}
    {ps : ι → ConfigM ConfigReply} (hown : own i tr = [⟨.update patch, cfg⟩])
    (hs : configEnv.step w (.save cfg) r w') (hC : InOrder tr w ps i ⟨.save cfg, r⟩) :
    Saved (tr ++ [(i, ⟨.save cfg, r⟩)]) w' := by
  have hmem : w'.mem = w.mem := by
    cases r with
    | ok u => rw [show w' = { w with disk := cfg } from hs]
    | error e => exact hs
  refine h.concat (by simp [IsUpdate]) hmem fun j cfg' hnew hsaved => ?_
  by_cases hij : i = j
  · -- The newest snapshot itself is saved.
    subst hij
    rw [own_append, own_cons_self, hown, own_nil] at hsaved
    obtain ⟨rfl, rfl⟩ : cfg' = cfg ∧ r = .ok () := by
      rcases List.mem_cons.mp hsaved with heq | hmem
      · exact absurd (congrArg Event.op heq) (by simp)
      · injection List.mem_singleton.mp hmem with hop hans
        injection hop with hop
        subst hop
        exact ⟨rfl, hans.symm⟩
    rw [show w' = { w with disk := cfg' } from hs]
  · -- An older one would come too late, if the newest has been saved.
    rw [own_append, own_cons_ne hij, own_nil, List.append_nil] at hsaved
    have hupdate : (i, (⟨.update patch, cfg⟩ : Event ConfigSig)) ∈ tr := mem_own.mp (by simp [hown])
    obtain ⟨before, after, u', htr, hafter, hu'⟩ := hnew.after hij ⟨patch, rfl⟩ hupdate
    exact absurd ⟨cfg', rfl⟩ (hC ⟨cfg, rfl⟩ before after _ j u' htr ⟨patch, rfl⟩ hafter hu' _ hsaved)

/-- A read keeps the invariant. -/
theorem Saved.read (h : Saved tr w) (hs : configEnv.step w .read cfg w') :
    Saved (tr ++ [(i, ⟨.read, cfg⟩)]) w' := by
  obtain ⟨-, rfl⟩ : cfg = w.mem ∧ w' = w := hs
  refine h.concat (by simp [IsUpdate]) rfl fun j cfg' hnew hsaved => h.disk j cfg' hnew ?_
  by_cases hij : i = j
  · subst hij
    rw [own_append, own_cons_self, own_nil] at hsaved
    refine (List.mem_append.mp hsaved).resolve_right fun hlast => ?_
    exact absurd (congrArg Event.op (List.mem_singleton.mp hlast)) (by simp)
  · rwa [own_append, own_cons_ne hij, own_nil, List.append_nil] at hsaved

variable {w₀ : ConfigWorld} {body : ι → Except GoErr ConfigPatch} {ps : ι → ConfigM ConfigReply}

/-- Where saves come in the order of the updates, the newest one is the one saved. -/
theorem saved_of_together
    (h : TogetherIf configEnv InOrder w₀ (fun i => handlePatchConfig (body i)) tr w ps) :
    Saved tr w := by
  induction h with
  | refl => exact ⟨by simp, by simp [Newest], by simp⟩
  | @step w w' ps tr h i o r k hi hs hC ih =>
    have hown := (h.together.own_steps i).traced (fun _ => PatchOp) []
    rw [hi] at hown
    have hop := (wp_steps hown (wp_handlePatchConfig (body i))).1
    cases o with
    | update patch => exact .update hop hs
    | save cfg =>
      obtain ⟨patch, hl⟩ := hop
      exact ih.save hl hs hC
    | read => exact ih.read hs

/-- Requests to change the configuration whose snapshots are not saved after newer ones: once all have
answered with success, the configuration on disk is the one in memory. -/
theorem patches_saved
    (h : TogetherIf configEnv InOrder w₀ (fun i => handlePatchConfig (body i)) tr w ps)
    (hstart : Nonempty ι ∨ w₀.disk = w₀.mem) (hdone : ∀ i, ∃ answer, ps i = ret (.config answer)) :
    w.disk = w.mem := by
  have hsaved := saved_of_together h
  have hwrote (i : ι) : ∃ patch cfg cfg',
      own i tr = [⟨.update patch, cfg⟩, ⟨.save cfg, .ok ()⟩, ⟨.read, cfg'⟩] := by
    obtain ⟨answer, hi⟩ := hdone i
    have hown := (h.together.own_steps i).traced (fun _ => PatchOp) []
    rw [hi] at hown
    exact wp_steps hown (wp_handlePatchConfig (body i)) ⟨answer, rfl⟩
  by_cases hι : Nonempty ι
  · obtain ⟨i⟩ := hι
    obtain ⟨patch, cfg, cfg', hown⟩ := hwrote i
    obtain ⟨j, newest, hnew⟩ := hsaved.newest _ (mem_own.mp (hown ▸ List.mem_cons_self)) ⟨patch, rfl⟩
    rw [hsaved.mem j newest hnew]
    refine hsaved.disk j newest hnew ?_
    -- The newest snapshot is the one that its request has saved.
    obtain ⟨patch', cfg₁, cfg₂, hown'⟩ := hwrote j
    obtain ⟨before, patch'', after, htr, -⟩ := hnew
    have hmem : (⟨.update patch'', newest⟩ : Event ConfigSig) ∈ own j tr := mem_own.mpr (by simp [htr])
    rw [hown'] at hmem ⊢
    obtain rfl : newest = cfg₁ := by
      rcases List.mem_cons.mp hmem with heq | hmem
      · injection heq
      · simp at hmem
    simp
  · cases h with
    | refl => exact hstart.resolve_left hι
    | step _ i => exact absurd ⟨i⟩ hι

end

/-! ## Snapshots that overtake each other -/

/-- A configuration with defaults. -/
def sampleConfig : Config :=
  ⟨lit "nas", lit "/data", 0, [], [], lit "0.0.0.0:4101", 30, [], [], 0⟩

/-- One request sets the host, the other one the port. -/
def samplePatch (first : Bool) : ConfigPatch :=
  if first then ⟨some (lit "home.example.com"), none⟩ else ⟨none, some 5001⟩

/-- An update patches the record in memory. -/
theorem step_update (w : ConfigWorld) (patch : ConfigPatch) :
    configEnv.step w (.update patch) (w.mem.patched patch) { w with mem := w.mem.patched patch } :=
  ⟨rfl, rfl⟩

/-- A save writes what it was given. -/
theorem step_save (w : ConfigWorld) (cfg : Config) :
    configEnv.step w (.save cfg) (.ok ()) { w with disk := cfg } := rfl

/-- A read gives the record in memory. -/
theorem step_read (w : ConfigWorld) : configEnv.step w .read w.mem w := ⟨rfl, rfl⟩

/-- The first step of a patch. -/
theorem steps_update (w : ConfigWorld) (patch : ConfigPatch) :
    Steps configEnv w (handlePatchConfig (.ok patch)) [⟨.update patch, w.mem.patched patch⟩]
      { w with mem := w.mem.patched patch } (saveSnapshot (w.mem.patched patch)) :=
  .op (step_update w patch) (.refl _ _)

/-- A request that has its snapshot can go on whatever has happened since, and is successful. -/
theorem steps_saveSnapshot (w : ConfigWorld) (cfg : Config) :
    Steps configEnv w (saveSnapshot cfg) [⟨.save cfg, .ok ()⟩, ⟨.read, w.mem⟩]
      { w with disk := cfg } (ret (.config w.mem.shown)) :=
  .op (step_save w cfg) (.op (step_read { w with disk := cfg }) (.refl _ _))

/-- Two requests are both successful, and the change of the second one is not on disk. -/
theorem patch_lost :
    ∃ (tr : List (Bool × Event ConfigSig)) (w : ConfigWorld) (ps : Bool → ConfigM ConfigReply),
      Together configEnv ⟨sampleConfig, sampleConfig⟩
          (fun first => handlePatchConfig (.ok (samplePatch first))) tr w ps ∧
        (∀ first, ∃ answer, ps first = ret (.config answer)) ∧
        w.mem.publicPort = 5001 ∧ w.disk.publicPort ≠ 5001 := by
  have h1 := (Together.refl ⟨sampleConfig, sampleConfig⟩ fun first =>
    handlePatchConfig (.ok (samplePatch first))).go true (steps_update _ _)
  have h2 := h1.go false (steps_update _ _)
  -- The snapshot that was taken second is saved first.
  have h3 := h2.go false (steps_saveSnapshot _ _)
  have h4 := h3.go true (steps_saveSnapshot _ _)
  refine ⟨_, _, _, h4, fun first => ?_, by decide, by decide⟩
  cases first <;> exact ⟨_, rfl⟩

/-- A save is in order as long as no snapshot has been saved. -/
theorem inOrder_of_unsaved {ι : Type} [DecidableEq ι] {tr : List (ι × Event ConfigSig)}
    (h : ∀ x ∈ tr, ¬ IsSave x.2) (w : ConfigWorld) (ps : ι → ConfigM ConfigReply) (i : ι)
    (e : Event ConfigSig) : InOrder tr w ps i e :=
  fun _ _ _ _ j _ _ _ _ _ s hs => h (j, s) (mem_own.mp hs)

/-- The save of the snapshot that was taken last is in order. -/
theorem inOrder_of_last {ι : Type} [DecidableEq ι] (before after : List (ι × Event ConfigSig)) {i : ι}
    {u : Event ConfigSig} (hbefore : ∀ x ∈ before, x.1 ≠ i) (hafter : ∀ x ∈ after, ¬ IsUpdate x.2)
    (w : ConfigWorld) (ps : ι → ConfigM ConfigReply) (e : Event ConfigSig) :
    InOrder (before ++ (i, u) :: after) w ps i e := by
  intro _ before' after' u' j v htr _ hmem hv
  -- The update of the request is not earlier than this one, so what follows it is in `after`.
  have hsub : ∀ x ∈ after', x ∈ after := by
    rcases List.append_eq_append_iff.mp htr with ⟨mid, rfl, hmid⟩ | ⟨mid, rfl, hmid⟩
    · cases mid with
      | nil => simp_all
      | cons x mid =>
        obtain ⟨-, rfl⟩ := List.cons.inj hmid
        intro x hx
        simp [hx]
    · cases mid with
      | nil => simp_all
      | cons x mid =>
        obtain ⟨rfl, -⟩ := List.cons.inj hmid
        exact absurd rfl (hbefore (i, u') (by simp))
  exact absurd hv (hafter _ (hsub _ hmem))

/-- Two requests that update one after the other, and then save in the same order, each while the other one is
under way: both changes are on disk. -/
theorem sample_patch_saved :
    ∃ (tr : List (Bool × Event ConfigSig)) (w : ConfigWorld) (ps : Bool → ConfigM ConfigReply),
      TogetherIf configEnv InOrder ⟨sampleConfig, sampleConfig⟩
          (fun first => handlePatchConfig (.ok (samplePatch first))) tr w ps ∧
        (∀ first, ∃ answer, ps first = ret (.config answer)) ∧ w.disk = w.mem ∧
        w.disk.publicHost = lit "home.example.com" ∧ w.disk.publicPort = 5001 := by
  have h0 : TogetherIf configEnv InOrder ⟨sampleConfig, sampleConfig⟩
      (fun first => handlePatchConfig (.ok (samplePatch first))) [] _ _ := .refl
  have h1 := h0.step true rfl (step_update _ _) (by simp [InOrder, IsSave])
  have h2 := h1.step false rfl (step_update _ _) (by simp [InOrder, IsSave])
  have h3 := h2.step true rfl (step_save _ _) (inOrder_of_unsaved (by simp [IsSave]) _ _ _ _)
  have h4 := h3.step false rfl (step_save _ _)
    (inOrder_of_last [(true, _)] [(true, _)] (by simp) (by simp [IsUpdate]) _ _ _)
  have h5 := h4.step true rfl (step_read _) (by simp [InOrder, IsSave])
  have h6 := h5.step false rfl (step_read _) (by simp [InOrder, IsSave])
  refine ⟨_, _, _, h6, fun first => ?_, patches_saved h6 (.inl ⟨true⟩) fun first => ?_, by decide, by decide⟩
  all_goals cases first <;> exact ⟨_, rfl⟩

end FnShare
