import FnShare.File.Success

/-!
# An upload that fails

An upload can fail at every stripe and slot, and at every step of what comes after the last stripe. Up to
where the manifest is complete, `Put` only performs operations that leave the store alone and send shards
(`only_assemble`). From the moment the manifest is stored, nothing fails any more: the other nodes are served
as far as they can be, and the rest is a matter of the log (`handled_replicateManifest`, `handled_keepName`).
What is between the two is the one operation that stores the manifest, and when it fails nothing was stored.
-/

namespace FnShare

open Prog

variable {L : Libs} {svc : Service}

/-! ## Up to the manifest -/

/-- The operations of `Put` up to where the manifest is complete, with its panics. -/
def assembleOp (o : NodeOp) : Prop := uploadOp o ∨ o = .panic

/-- Random bytes are one operation. -/
theorem only_randRead {A : NodeOp → Prop} {n : ℕ} (h : A (.rand n)) : (randRead n).Only A :=
  ⟨h, fun _ => only_ofExcept _⟩

/-- Sealing draws a nonce. -/
theorem only_sealAES {A : NodeOp → Prop} (h : ∀ n, A (.rand n)) (key plaintext : Bytes) :
    (sealAES L key plaintext).Only A := by
  unfold sealAES
  split_ifs
  · trivial
  · exact only_bind (only_randRead (h _)) fun _ => trivial

/-- An anonymous box draws a key. -/
theorem only_sealAnonymous {A : NodeOp → Prop} (h : ∀ n, A (.rand n)) (plaintext pub : Bytes) :
    (sealAnonymous L plaintext pub).Only A := by
  unfold sealAnonymous
  split_ifs
  · trivial
  · exact only_bind (only_randRead (h _)) fun _ => trivial

variable (L svc)

/-- The group is looked up in the store. -/
theorem only_resolveGroup (gid : Bytes) : (resolveGroup L gid).Only assembleOp := by
  unfold resolveGroup
  split_ifs
  · refine only_bind (only_attempt ⟨.inl trivial, fun _ => only_ofExcept _⟩) fun r => ?_
    cases r with
    | error e =>
      simp only
      split_ifs <;> trivial
    | ok raw => exact only_ofExcept _
  · refine ⟨.inl trivial, fun r => ?_⟩
    obtain ⟨pairs, err⟩ := r
    simp only [bind_eq, ret_bind, pure_eq]
    split <;> trivial

/-- The members are iterated over. -/
theorem only_groupMemberIDs (gid : Bytes) : (groupMemberIDs L gid).Only assembleOp := by
  unfold groupMemberIDs
  refine ⟨.inl trivial, fun r => ?_⟩
  obtain ⟨pairs, err⟩ := r
  simp only [bind_eq, ret_bind, pure_eq]
  split <;> trivial

/-- A shard is stored, sent or queued. -/
theorem only_shipShard (holders : List Bytes) (i : ℕ) (sh : Bytes) :
    (shipShard L svc holders i sh).Only assembleOp := by
  unfold shipShard
  refine only_bind (only_orPanic (.inr rfl) _) fun holder => ?_
  by_cases hself : holder = svc.self
  · rw [if_pos hself]
    refine ⟨.inl trivial, fun r => ?_⟩
    cases r <;> trivial
  rw [if_neg hself]
  cases L.peerDecode holder with
  | error e => trivial
  | ok pid =>
    refine only_bind (only_attempt (only_putShardOnPeer (.inl rfl) fun _ _ _ => .inl trivial)) fun r => ?_
    cases r with
    | ok u => trivial
    | error e =>
      simp only
      by_cases hspool : svc.spool = true
      · rw [if_pos hspool]
        refine ⟨.inl rfl, fun r => ?_⟩
        cases r with
        | ok u => exact only_bind (f := fun _ => ret _) (only_slice12 (.inr rfl) _) fun _ => trivial
        | error e => trivial
      · rw [if_neg hspool]
        trivial

/-- So are the shards of a stripe. -/
theorem only_shipShards (holders : List Bytes) (i : ℕ) (shs : List Bytes) :
    (shipShards L svc holders i shs).Only assembleOp := by
  induction shs generalizing i with
  | nil => trivial
  | cons sh shs ih =>
    exact only_bind (only_shipShard L svc holders i sh) fun _ => only_bind (ih (i + 1)) fun _ => trivial

/-- A stripe is sealed and its shards are shipped. -/
theorem only_uploadStripe (key : Bytes) (holders : List Bytes) (idx : ℕ) (chunk : Bytes) :
    (uploadStripe L svc key holders idx chunk).Only assembleOp := by
  unfold uploadStripe
  refine only_bind (only_mapErr (only_sealAES (fun _ => .inl trivial) _ _)) fun ct => ?_
  refine only_bind (only_ofExcept _) fun shards => ?_
  exact only_bind (only_shipShards L svc holders 0 shards) fun _ => trivial

/-- The loop uploads stripes. -/
theorem only_putLoop (key : Bytes) (holders : List Bytes) (body : Body) (idx : ℕ) (sts : List Stripe)
    (total : ℤ) : (putLoop L svc key holders body idx sts total).Only assembleOp := by
  -- The induction is on the length of what is still to be read.
  induction hn : body.data.length using Nat.strongRecOn generalizing body idx sts total with
  | ind n ih =>
    have hpos := svc.stripeSize_pos
    by_cases hle : svc.stripeSize ≤ body.data.length
    · obtain ⟨body', hdata, -, hturn⟩ := putLoop_of_le L key holders idx sts total hle
      rw [hturn]
      refine only_bind (only_mapErr (only_uploadStripe L svc key holders idx _)) fun st => ?_
      have hlt : body'.data.length < n := by
        rw [hdata, List.length_drop]
        omega
      exact ih _ hlt body' (idx + 1) _ _ rfl
    · rw [putLoop_of_lt (by omega)]
      split_ifs
      · trivial
      · exact only_bind (only_mapErr (only_uploadStripe L svc key holders idx _)) fun st => trivial
      · exact only_bind (only_mapErr (only_uploadStripe L svc key holders idx _)) fun st => trivial

/-- The key is sealed. -/
theorem only_wrapForMode (mode key filename : Bytes) (g : Group) :
    (wrapForMode L svc mode key filename g).Only assembleOp := by
  have hrand : ∀ n, assembleOp (.rand n) := fun _ => .inl trivial
  unfold wrapForMode
  split_ifs
  · trivial
  · exact only_bind (only_sealAES hrand _ _) fun _ => trivial
  · trivial
  · exact only_bind (only_sealAnonymous hrand _ _) fun _ => only_bind (only_sealAES hrand _ _)
      fun _ => trivial
  · trivial

/-- Up to where the manifest is complete, nothing is stored under a key and no manifest is sent. -/
theorem only_assemble (filename : Bytes) (body : Body) (opts : PutOptions) :
    (assemble L svc filename body opts).Only assembleOp := by
  unfold assemble
  refine only_bind (only_resolveGroup L opts.groupID) fun g => ?_
  extract_lets mode
  split_ifs
  · trivial
  refine only_bind (only_randRead (.inl trivial)) fun fid => ?_
  refine only_bind (only_randRead (.inl trivial)) fun fileKey => ?_
  refine only_bind (only_groupMemberIDs L g.id) fun memberIDs => ?_
  split_ifs
  · exact only_bind (only_slice12 (.inr rfl) _) fun _ => trivial
  refine only_bind (only_wrapForMode L svc _ fileKey.1 filename g) fun wrapped => ?_
  refine only_bind (p := now) ⟨.inl trivial, fun _ => trivial⟩ fun t => ?_
  refine only_bind (only_putLoop L svc fileKey.1 _ body 0 [] 0) fun r => ?_
  obtain ⟨stripes, total⟩ := r
  simp only
  split_ifs <;> trivial

/-! ## From the manifest on -/

/-- Sending a manifest returns no error. -/
theorem handled_replicateManifest (fileID raw holder : Bytes) :
    (replicateManifest L svc fileID raw holder).Handled := by
  unfold replicateManifest
  by_cases hself : holder = svc.self
  · rw [if_pos hself]
    trivial
  rw [if_neg hself]
  cases L.peerDecode holder with
  | error e => trivial
  | ok pid =>
    refine handled_bind (handled_attempt _) fun r => ?_
    cases r with
    | ok u => trivial
    | error e =>
      simp only
      by_cases hspool : svc.spool = true
      · rw [if_pos hspool]
        intro r
        cases r with
        | ok u => exact handled_slice12 fileID
        | error e => trivial
      · rw [if_neg hspool]
        trivial

/-- Nor does keeping the name. -/
theorem handled_keepName (m : Manifest) (filename : Bytes) : (keepName L m filename).Handled := by
  unfold keepName
  split_ifs
  · refine handled_bind (handled_attempt _) fun r => ?_
    cases r with
    | ok u => trivial
    | error e => exact handled_slice12 m.fileID
  · trivial

/-! ## The failure -/

/-- The event makes a file visible: something is stored under a key, or a manifest is sent or spooled. -/
def Reveals (ev : NodeEvent) : Prop :=
  (∃ key value, ev = ⟨.storePut key value, .ok ()⟩) ∨
  (∃ peer req r, ev = ⟨.request peer req, r⟩ ∧ req.op = .putManifest) ∨
  ∃ peer id raw r, ev = ⟨.spoolWrite peer .manifest id raw, r⟩

/-- Nothing becomes visible before the manifest is complete. -/
theorem not_reveals_of_assembleOp {ev : NodeEvent} (h : assembleOp ev.op) : ¬ Reveals ev := by
  rintro (⟨key, value, rfl⟩ | ⟨peer, req, r, rfl, hreq⟩ | ⟨peer, id, raw, r, rfl⟩)
  · rcases h with h | h
    · exact h
    · cases h
  · rcases h with h | h
    · rw [show req.op = .putShard from h] at hreq
      cases hreq
    · cases h
  · rcases h with h | h
    · exact h
    · cases h

variable {L svc} {W : Type} {E : Env NodeSig W} {w w' : W} {filename : Bytes}
  {body : Body} {opts : PutOptions}
  {evs : List NodeEvent} {e : GoErr}

/-- The end of `Put` fails only when the manifest is not stored, and that is all that it does then. -/
theorem publish_fails {m : Manifest} (h : Steps E w (publish L svc m filename) evs w' (fail e)) :
    ∃ e', evs = [⟨.storePut (manifestKey m.fileID) (L.cbor.manifest.marshal m), .error e'⟩] := by
  unfold publish at h
  rcases h.bind_fail with hput | ⟨a, v, evs₁, evs₂, -, hrest, -⟩
  · cases hput with
    | @op _ _ _ _ r _ _ _ _ hend =>
      cases r with
      | ok u => cases hend
      | error e' =>
        cases hend
        exact ⟨e', rfl⟩
  · -- The rest does not fail.
    have hhandled : (fail e : NodeM Unit).Handled := Handled.steps ?_ hrest
    · exact hhandled.elim
    refine handled_bind (handled_keepName L m filename) fun _ => ?_
    refine handled_bind (handled_foldlM (fun _ h => handled_replicateManifest L svc _ _ h) _ _) fun _ => ?_
    exact handled_bind (handled_slice12 _) fun _ => handled_slice12 _

/-- When `Put` fails, nothing has become visible, whatever the environment. -/
theorem not_reveals_of_put_fails (h : Steps E w (put L svc filename body opts) evs w' (fail e)) :
    ∀ ev ∈ evs, ¬ Reveals ev := by
  rw [put_eq] at h
  have honly := only_assemble L svc filename body opts
  rcases h.bind_fail with hasm | ⟨m, v, evs₁, evs₂, hasm, hpub, rfl⟩
  · intro ev hev
    exact not_reveals_of_assembleOp (honly.of_mem hasm hev)
  · rcases hpub.bind_fail with hpub | ⟨_, _, _, _, -, hret, -⟩
    · obtain ⟨e', rfl⟩ := publish_fails hpub
      intro ev hev
      rcases List.mem_append.mp hev with hev | hev
      · exact not_reveals_of_assembleOp (honly.of_mem hasm hev)
      · rw [List.mem_singleton.mp hev]
        rintro (⟨_, _, heq⟩ | ⟨_, _, _, heq, -⟩ | ⟨_, _, _, _, heq⟩) <;> cases heq
    · cases hret

/-- Operations that reveal nothing leave the store as it is. -/
theorem store_of_not_reveals {s s' : NodeState} {p p' : NodeM Manifest} (h : Steps nodeEnv s p evs s' p')
    (hno : ∀ ev ∈ evs, ¬ Reveals ev) : s'.store = s.store := by
  induction h with
  | refl s p => rfl
  | @op s v s' o r k evs p' hs _ ih =>
    rw [ih fun ev hev => hno ev (List.mem_cons_of_mem _ hev)]
    have hfirst := hno ⟨o, r⟩ List.mem_cons_self
    rcases NodeState.step_cases hs with rfl | ⟨key, value, hev, -⟩ | ⟨_, _, -, -, rfl⟩ |
      ⟨_, _, -, rfl⟩ | ⟨_, -, rfl⟩
    · rfl
    · exact absurd (.inl ⟨key, value, hev⟩) hfirst
    · rfl
    · rfl
    · rfl

/-- If `Put` fails, for whatever reason and wherever, the store of the node is what it was, and no manifest
has been sent to a peer or spooled. -/
theorem put_fails_invisible {s s' : NodeState}
    (h : Steps nodeEnv s (put L svc filename body opts) evs s' (fail e)) :
    s'.store = s.store ∧ ∀ ev ∈ evs, ¬ Reveals ev := by
  have hno := not_reveals_of_put_fails h
  exact ⟨store_of_not_reveals h hno, hno⟩

/-- Where the store refuses the manifest, the upload of a body of two stripes fails after both were
shipped. -/
theorem refused_put_fails_invisible : ∃ evs s' e m,
    Steps nodeEnv sampleHome (put sampleLibs sampleService (lit "film") twoStripes
      ⟨(sampleGroup 7).id, modeShared⟩) evs s' (fail e) ∧
    m.stripes.length = 2 ∧
    ⟨.storePut (manifestKey m.fileID) (sampleLibs.cbor.manifest.marshal m), .error .eof⟩ ∈ evs ∧
    s'.store = sampleHome.store ∧ ∀ ev ∈ evs, ¬ Reveals ev := by
  obtain ⟨evs, s', m, u, h⟩ := exists_sampleUpload (fun p _ => deliverable_allAck p)
    (show endOfFile (some twoStripes.term) = true from rfl) (show twoStripes.data ≠ [] by decide) (lit "film")
  -- The upload that succeeds, up to where its manifest is complete.
  have hput := h.put
  rw [put_eq] at hput
  obtain ⟨m', v, evs₁, evs₂, hasm, hrest, -⟩ := hput.bind_ret
  obtain ⟨_, _, _, _, -, hret, -⟩ := hrest.bind_ret
  obtain rfl : m' = m := by
    cases hret
    rfl
  let refusal : NodeEvent :=
    ⟨.storePut (manifestKey m'.fileID) (sampleLibs.cbor.manifest.marshal m'), .error .eof⟩
  have hrefused : nodeEnv.step v refusal.op refusal.ans v := .inr ⟨⟨_, rfl⟩, rfl⟩
  have hpublish : Steps nodeEnv v (publish sampleLibs sampleService m' (lit "film")) [refusal] v
      (fail (.wrap (lit "save manifest: ") .eof)) := .op hrefused (.refl _ _)
  have hsteps : Steps nodeEnv sampleHome (put sampleLibs sampleService (lit "film") twoStripes
      ⟨(sampleGroup 7).id, modeShared⟩) (evs₁ ++ [refusal]) v
        (fail (.wrap (lit "save manifest: ") .eof)) := by
    rw [put_eq]
    exact hasm.bind (hpublish.bind_left _)
  exact ⟨_, v, _, m', hsteps, h.made.stripes.length_eq, by simp [refusal], put_fails_invisible hsteps⟩

end FnShare
