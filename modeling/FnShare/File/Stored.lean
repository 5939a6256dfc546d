import FnShare.File.RoundTrip

/-!
# The manifest that is stored and sent

`Put` stores the manifest that it returns, and sends the same bytes to every holder
(`published_of_put`). CBOR takes any string for text when it encodes, but only UTF-8 when it decodes. All
text of a shared file's manifest is UTF-8 but for the name, which `Put` takes as it comes. So the manifest
can be read back, here and at the holders, exactly if the name is UTF-8 (`put_reads_back_iff`).
-/

namespace FnShare

open Prog

/-- The bytes that an operation sends to a holder as a manifest, or queues for it. -/
def replicated : NodeOp → Option Bytes
  | .request _ ⟨.putManifest, _, raw⟩ => some raw
  | .spoolWrite _ .manifest _ raw => some raw
  | _ => none

/-- An operation does not store under a manifest's key, and replicates nothing but the given bytes. -/
def Replicates (raw : Bytes) (o : NodeOp) : Prop :=
  (∀ key value, o = .storePut key value → ∀ fileID, manifestKey fileID ≠ key) ∧
    ∀ raw', replicated o = some raw' → raw' = raw

section Stored

variable {L : Libs} {svc : Service} {filename : Bytes} {body : Body} {opts : PutOptions} {m : Manifest}
  {s s' : NodeState} {evs : List NodeEvent}

/-- The operations of an upload replicate no manifest. -/
theorem replicated_of_uploadOp {o : NodeOp} (h : uploadOp o) : replicated o = none := by
  cases o with
  | request peer req =>
    obtain ⟨op, id, data⟩ := req
    obtain rfl : op = .putShard := h
    rfl
  | spoolWrite peer kind id data =>
    cases kind with
    | shard => rfl
    | manifest => exact h.elim
  | _ => rfl

section Announce

variable {A : NodeOp → Prop} (hpanic : A .panic)
include hpanic

variable (L svc) in
/-- A manifest is sent or queued. -/
theorem only_replicateManifest {fileID raw : Bytes}
    (hsend : ∀ pid, A (.request pid ⟨.putManifest, fileID, raw⟩))
    (hspool : ∀ h, A (.spoolWrite h .manifest fileID raw)) (holder : Bytes) :
    (replicateManifest L svc fileID raw holder).Only A := by
  unfold replicateManifest
  by_cases hself : holder = svc.self
  · rw [if_pos hself]
    trivial
  rw [if_neg hself]
  cases L.peerDecode holder with
  | error e => trivial
  | ok pid =>
    refine only_bind (only_attempt (only_bind (only_request (hsend pid)) fun _ => trivial)) fun r => ?_
    cases r with
    | ok u => trivial
    | error e =>
      simp only
      by_cases hattached : svc.spool = true
      · rw [if_pos hattached]
        refine ⟨hspool holder, fun r => ?_⟩
        cases r with
        | error e => trivial
        | ok u => exact only_slice12 hpanic _
      · rw [if_neg hattached]
        trivial

/-- A private name is stored under its own key. -/
theorem only_keepName
    (hname : m.mode = modePrivate → filename ≠ [] →
      A (.storePut (pnameKey m.fileID) (L.cbor.text.marshal filename))) :
    (keepName L m filename).Only A := by
  unfold keepName
  by_cases hmode : m.mode = modePrivate
  · rw [if_pos hmode]
    refine only_bind (only_attempt ?_) fun r => ?_
    · unfold savePrivateName
      by_cases hempty : filename = []
      · rw [if_pos hempty]
        trivial
      · rw [if_neg hempty]
        exact ⟨hname hmode hempty, fun r => only_ofExcept _⟩
    · cases r with
      | ok u => trivial
      | error e => exact only_slice12 hpanic _
  · rw [if_neg hmode]
    trivial

variable (svc) in
/-- What `Put` does once the manifest is stored. -/
theorem only_announce
    (hname : m.mode = modePrivate → filename ≠ [] →
      A (.storePut (pnameKey m.fileID) (L.cbor.text.marshal filename)))
    (hsend : ∀ pid, A (.request pid ⟨.putManifest, m.fileID, L.cbor.manifest.marshal m⟩))
    (hspool : ∀ h, A (.spoolWrite h .manifest m.fileID (L.cbor.manifest.marshal m))) :
    (keepName L m filename >>= fun _ =>
      m.holders.foldlM (fun _ h => replicateManifest L svc m.fileID (L.cbor.manifest.marshal m) h)
        () >>= fun _ =>
      slice12 m.fileID >>= fun _ => slice12 m.groupID).Only A := by
  refine only_bind (only_keepName hpanic hname) fun _ => ?_
  refine only_bind (only_foldlM (fun _ h _ => only_replicateManifest L svc hpanic hsend hspool h) ())
    fun _ => ?_
  exact only_bind (only_slice12 hpanic _) fun _ => only_slice12 hpanic _

end Announce

/-- What is stored under a manifest's key stays there. -/
theorem Replicates.get_of_step {raw fileID : Bytes} {o : NodeOp} (h : Replicates raw o) {r : o.Ans}
    (hs : s.step o r s') : s'.store.get (manifestKey fileID) = s.store.get (manifestKey fileID) := by
  rcases NodeState.step_cases hs with rfl | ⟨key, value, ho, rfl⟩ | ⟨_, _, -, -, rfl⟩ | ⟨_, _, -, rfl⟩ |
    ⟨_, -, rfl⟩
  · rfl
  · exact SortedMap.get_put_ne _ (h.1 key value (congrArg Event.op ho) fileID) _
  · rfl
  · rfl
  · rfl

/-- The manifest is stored, and nothing is sent as a manifest but its bytes. -/
def Published (L : Libs) (m : Manifest) (w : NodeState × List NodeEvent) : Prop :=
  w.1.store.get (manifestKey m.fileID) = some (L.cbor.manifest.marshal m) ∧
    ∀ e ∈ w.2, ∀ raw, replicated e.op = some raw → raw = L.cbor.manifest.marshal m

/-- What replicates the manifest leaves it as it was published. -/
theorem Published.only {α : Type} {p : NodeM α} (hp : p.Only (Replicates (L.cbor.manifest.marshal m)))
    {w : NodeState × List NodeEvent} (hw : Published L m w) :
    wp (nodeEnv.traced fun _ _ _ => True) p (onOk fun _ w' => Published L m w') w := by
  refine wp_mono (hp.wp_keeps (I := Published L m) (fun _ _ _ _ => trivial) ?_ hw) ?_
  · rintro ⟨v, l⟩ o r ⟨v', l'⟩ ⟨hstored, hsent⟩ ho ⟨hs, hl⟩
    obtain rfl : l' = _ := hl
    refine ⟨(ho.get_of_step hs).trans hstored, ?_⟩
    intro e he raw hraw
    rcases List.mem_append.mp he with he | he
    · exact hsent e he raw hraw
    · obtain rfl := List.mem_singleton.mp he
      exact ho.2 raw hraw
  · rintro (e | a) w' hw'
    · trivial
    · exact hw'

variable (svc) in
/-- The end of `Put` publishes the manifest. -/
theorem wp_publish_published (m : Manifest) (filename : Bytes) (v : NodeState) :
    wp (nodeEnv.traced fun _ _ _ => True) (publish L svc m filename) (onOk fun _ w => Published L m w)
      (v, []) := by
  unfold publish
  refine wp_bind_onOk (P := fun _ w => Published L m w) (wp_mapErr_onOk ?_) ?_
  · refine wp_traced_op.mpr ⟨trivial, ?_⟩
    rintro (e | ⟨⟩) v' hs
    · trivial
    · rcases hs with ⟨-, rfl⟩ | ⟨⟨e, he⟩, -⟩
      · exact ⟨SortedMap.get_put_self _ _ _, by simp [replicated]⟩
      · exact absurd he (by simp)
  rintro ⟨⟩ w hw
  refine hw.only (only_announce svc ⟨by simp, by simp [replicated]⟩ ?_ ?_ ?_)
  · refine fun _ _ => ⟨?_, by simp [replicated]⟩
    rintro key value h fileID
    obtain ⟨rfl, -⟩ := NodeOp.storePut.inj h
    exact manifestKey_ne_pnameKey _ _
  · exact fun pid => ⟨by simp, fun _ h => (Option.some.inj h).symm⟩
  · exact fun h => ⟨by simp, fun _ h => (Option.some.inj h).symm⟩

/-- `Put` stores the manifest that it returns and sends nothing else to the holders, which are listed as
members. -/
theorem published_of_put (hR : L.rs.Mds) (hA : L.aead.Correct)
    (hput : Steps nodeEnv s (put L svc filename body opts) evs s' (ret m)) :
    Published L m (s', evs) ∧ ∀ h ∈ m.holders, Listed L h := by
  rw [put_eq] at hput
  obtain ⟨m', v, evs₁, evs', hassemble, hrest, rfl⟩ := hput.bind_ret
  obtain ⟨⟨⟩, v', evs₂, evs₃, hpublish, hret, rfl⟩ := hrest.bind_ret
  cases hret
  have hwp : wp (nodeEnv.traced fun _ _ o => uploadOp o ∨ o = .panic) (assemble L svc filename body opts) _
      (s, []) := wp_assemble svc hR hA (fun _ _ _ ho => .inl ho) filename body opts
      (fun _ _ _ _ _ => .inr rfl) s
  obtain ⟨-, hlisted⟩ := wp_steps (hassemble.traced _ []) hwp
  obtain ⟨hstored, hsent⟩ := wp_steps (hpublish.traced _ []) (wp_publish_published svc m filename v)
  refine ⟨⟨hstored, ?_⟩, hlisted⟩
  intro e he raw hraw
  rw [List.append_nil] at he
  rcases List.mem_append.mp he with he | he
  · -- Nothing is sent as a manifest before there is one.
    obtain ⟨-, -, hop | hop⟩ := wp_traced_mem hwp hassemble he
    · exact absurd hraw (by rw [replicated_of_uploadOp hop]; simp)
    · exact absurd hraw (by rw [hop]; simp [replicated])
  · exact hsent e he raw hraw

/-- The group that a node has is text. -/
theorem NodeState.resolved.validText (hS : L.cbor.Strict) {gid : Bytes} {g : Group}
    (h : s.resolved L gid g) : g.validText = true := by
  unfold NodeState.resolved at h
  split_ifs at h
  · have hmem : g ∈ decodeValues L.cbor.group (s.scan (lit "group/")) := by simp [h]
    obtain ⟨p, -, hdec⟩ := mem_decodeValues.mp hmem
    exact hS.group hdec
  · obtain ⟨raw, -, hdec⟩ := NodeState.group_eq_some.mp h
    exact hS.group hdec

/-- `Get` comes to what is decoded from the record, if the store works. -/
theorem wp_getManifest_calm {net : Bytes → Request → Except GoErr Response} {fileID raw : Bytes}
    (hget : s.store.get (manifestKey fileID) = some raw) :
    wp (calmEnv net) (getManifest L fileID) (fun x _ => x = L.cbor.manifest.unmarshal raw) s := by
  have hread : s.read (manifestKey fileID) = .ok raw := NodeState.read_eq_ok.mpr hget
  refine ⟨id, ?_⟩
  rintro r s' ⟨⟨rfl, -⟩, rfl⟩
  simp only [bind_eq, ret_bind, hread, wp_bind, wp_attempt, ofExcept_ok, wp_ret, andThen_ok, wp_ofExcept]

/-- `Get` returns a manifest exactly if the record decodes to it. -/
theorem computes_getManifest_iff {net : Bytes → Request → Except GoErr Response} {fileID raw : Bytes}
    (hget : s.store.get (manifestKey fileID) = some raw) :
    Computes (calmEnv net) s (getManifest L fileID) m ↔ L.cbor.manifest.unmarshal raw = .ok m := by
  constructor
  · intro h
    obtain ⟨evs, s', hsteps⟩ := h _ _ _ (.refl _ _)
    exact (wp_steps hsteps (wp_getManifest_calm hget)).symm
  · intro h
    refine computes_of_wp (calmEnv_answers net) (wp_mono (wp_getManifest_calm hget) ?_)
    rintro x s' rfl
    rw [h]
    exact rfl

/-- The manifest of a shared file that `Put` returns is what `Get` returns for it afterwards, and what the
holders decode from the bytes that they are sent, if and only if the file's name is UTF-8. -/
theorem put_reads_back_iff (hR : L.rs.Mds) (hA : L.aead.Correct) (hC : L.cbor.Lawful)
    (hS : L.cbor.Strict) (hself : validUTF8 svc.self = true)
    (hput : Steps nodeEnv s (put L svc filename body opts) evs s' (ret m))
    (hmode : m.mode = modeShared) (net : Bytes → Request → Except GoErr Response) :
    (Computes (calmEnv net) s' (getManifest L m.fileID) m.norm ∧
        ∀ e ∈ evs, ∀ raw, replicated e.op = some raw →
          L.cbor.manifest.unmarshal raw = .ok m.norm) ↔
      validUTF8 filename = true := by
  obtain ⟨⟨hstored, hsent⟩, hlisted⟩ := published_of_put hR hA hput
  obtain ⟨u, hevs, hu, hgroup⟩ := uploaded_of_put hR hA hput
  have hgid : validUTF8 u.group.id = true := by
    have := hgroup.validText hS
    simp only [Group.validText, Bool.and_eq_true] at this
    exact this.1
  have hholders : ∀ h ∈ m.holders, validUTF8 h = true := by
    intro h hh
    obtain ⟨raw, mem, hdec, rfl⟩ := hlisted h hh
    have := hS.member hdec
    simp only [Member.validText, Bool.and_eq_true] at this
    exact this.1.1
  have htext : m.validText = validUTF8 filename := hu.validText_eq hR hA hmode hself hgid hholders
  have hlaw := hC.manifest m
  rw [computes_getManifest_iff hstored]
  constructor
  · rintro ⟨hdec, -⟩
    by_contra hname
    rw [if_neg (by rwa [htext])] at hlaw
    obtain ⟨e, he⟩ := hlaw
    exact absurd (he.symm.trans hdec) (by simp)
  · intro hname
    rw [if_pos (by rwa [htext])] at hlaw
    refine ⟨hlaw, ?_⟩
    intro e he raw hraw
    rw [hsent e he raw hraw]
    exact hlaw

end Stored

/-- A file whose name is not UTF-8 is uploaded, but its manifest cannot be read back: `Get` does not return
one, and neither the uploader's record nor what the holders are sent can be decoded. -/
theorem sampleHome_stores_unreadable :
    ∃ evs s' m, Steps nodeEnv sampleHome (put sampleLibs sampleService [0xff] sampleBody
        ⟨(sampleGroup 7).id, modeShared⟩) evs s' (ret m) ∧
      (∀ evs' s'' m', ¬ Steps (calmEnv allAck) s' (getManifest sampleLibs m.fileID) evs' s'' (ret m')) ∧
      ∀ e ∈ evs, ∀ raw, replicated e.op = some raw →
        ∃ err, sampleLibs.cbor.manifest.unmarshal raw = .error err := by
  obtain ⟨evs, s', m, u, hup⟩ := exists_sampleUpload (fun p _ => deliverable_allAck p)
    (show endOfFile (some sampleBody.term) = true from rfl) (show sampleBody.data ≠ [] by decide) [0xff]
  have hlaw := sampleCbor_lawful.manifest m
  rw [if_neg (by rw [hup.validText_eq]; decide)] at hlaw
  obtain ⟨err, herr⟩ := hlaw
  obtain ⟨⟨hstored, hsent⟩, -⟩ := published_of_put sampleRs_mds sampleAead_correct hup.put
  refine ⟨evs, s', m, hup.put, ?_, ?_⟩
  · intro evs' s'' m' hsteps
    have hdec := wp_steps hsteps (wp_getManifest_calm hstored)
    exact absurd (hdec.trans herr) (by simp)
  · intro e he raw hraw
    rw [hsent e he raw hraw]
    exact ⟨err, herr⟩

/-- A file whose name is text can be read back. -/
theorem sampleHome_stores_readable :
    ∃ evs s' m, Steps nodeEnv sampleHome (put sampleLibs sampleService (lit "film") sampleBody
        ⟨(sampleGroup 7).id, modeShared⟩) evs s' (ret m) ∧
      Computes (calmEnv allAck) s' (getManifest sampleLibs m.fileID) m.norm ∧
      ∀ e ∈ evs, ∀ raw, replicated e.op = some raw →
        sampleLibs.cbor.manifest.unmarshal raw = .ok m.norm := by
  obtain ⟨evs, s', m, u, hup⟩ := exists_sampleUpload (fun p _ => deliverable_allAck p)
    (show endOfFile (some sampleBody.term) = true from rfl) (show sampleBody.data ≠ [] by decide)
    (lit "film")
  exact ⟨evs, s', m, hup.put, (put_reads_back_iff sampleRs_mds sampleAead_correct sampleCbor_lawful
    sampleCbor_strict (by decide) hup.put hup.wrapped.1 allAck).mpr (by decide)⟩

end FnShare
