import FnShare.Repair.Trace

/-!
# What a scan stores

`ScanForOfflinePeer` reads the list of manifests once, at its start, and then repairs the files on that list
one after the other. So whatever it stores is one of the manifests that it read, with another holder in the
slot of the peer, and it stores each of them at most once (`wp_scanForOfflinePeer`).
-/

namespace FnShare

open Prog

/-! ## The manifests of a node -/

/-- The manifest that a node has stored of a file. -/
def NodeState.manifest (L : Libs) (s : NodeState) (fileID : Bytes) : Option Manifest :=
  (s.store.get (manifestKey fileID)).bind fun raw => (L.cbor.manifest.unmarshal raw).toOption

/-- The manifests that a node has stored. -/
def NodeState.manifests (L : Libs) (s : NodeState) : List Manifest :=
  decodeValues L.cbor.manifest (s.scan manifestPrefix)

/-- Every manifest is under the id of its file, where `manifest.Put` stores it. -/
def NodeState.FiledManifests (L : Libs) (s : NodeState) : Prop :=
  ∀ key raw m, manifestPrefix <+: key → s.store.get key = some raw →
    L.cbor.manifest.unmarshal raw = .ok m → key = manifestKey m.fileID

section Stored

variable {L : Libs} {s : NodeState}
variable {fileID : Bytes} {m : Manifest} {s' : NodeState}

/-- A manifest is stored as the encoding of it. -/
theorem NodeState.manifest_eq_some :
    s.manifest L fileID = some m ↔ ∃ raw, s.store.get (manifestKey fileID) = some raw ∧
      L.cbor.manifest.unmarshal raw = .ok m := by
  unfold NodeState.manifest
  simp only [Option.bind_eq_some_iff, toOption_eq_some]

/-- The manifest that is stored of a file is of that file. -/
theorem NodeState.fileID_of_manifest (h : s.FiledManifests L)
    (hm : s.manifest L fileID = some m) : m.fileID = fileID := by
  obtain ⟨raw, hget, hdec⟩ := NodeState.manifest_eq_some.mp hm
  exact (manifestKey_inj (h _ raw m (List.prefix_append _ _) hget hdec)).symm

/-- What is stored has only UTF-8 text. -/
theorem NodeState.validText_of_manifest (hS : L.cbor.Strict)
    (hm : s.manifest L fileID = some m) : m.validText = true := by
  obtain ⟨raw, -, hdec⟩ := NodeState.manifest_eq_some.mp hm
  exact hS.manifest hdec

/-- The manifests that a node has stored are each the one of its file. -/
theorem NodeState.mem_manifests (h : s.FiledManifests L) :
    m ∈ s.manifests L ↔ s.manifest L m.fileID = some m := by
  rw [NodeState.manifest_eq_some]
  simp only [NodeState.manifests, mem_decodeValues, Prod.exists, NodeState.mem_scan]
  constructor
  · rintro ⟨key, raw, ⟨hget, hpre⟩, hdec⟩
    obtain rfl := h key raw m hpre hget hdec
    exact ⟨raw, hget, hdec⟩
  · rintro ⟨raw, hget, hdec⟩
    exact ⟨manifestKey m.fileID, raw, ⟨hget, List.prefix_append _ _⟩, hdec⟩

/-- No two of them are of one file. -/
theorem NodeState.pairwise_manifests (h : s.FiledManifests L) :
    (s.manifests L).Pairwise fun m m' => m.fileID ≠ m'.fileID := by
  unfold NodeState.manifests decodeValues
  rw [List.pairwise_filterMap]
  have hsorted : (s.scan manifestPrefix).Pairwise fun a b => a.1 < b.1 := s.store.sorted.filter _
  refine hsorted.imp_of_mem ?_
  rintro ⟨key, raw⟩ ⟨key', raw'⟩ ha hb hlt m hm m' hm' heq
  unfold NodeState.scan at ha hb
  rw [List.mem_filter, List.isPrefixOf_iff_prefix, SortedMap.mem_entries_iff] at ha hb
  have hkey := h key raw m ha.2 ha.1 (toOption_eq_some.mp hm)
  have hkey' := h key' raw' m' hb.2 hb.1 (toOption_eq_some.mp hm')
  rw [heq, ← hkey'] at hkey
  exact absurd hlt (hkey ▸ List.lt_irrefl _)

/-- What is stored of a file depends on the record of the file only. -/
theorem NodeState.manifest_congr (h : s'.store.get (manifestKey fileID) = s.store.get (manifestKey fileID)) :
    s'.manifest L fileID = s.manifest L fileID := by
  unfold NodeState.manifest
  rw [h]

/-- A manifest with a spare in a slot has only UTF-8 text. -/
theorem validText_replaceHolder (hS : L.cbor.Strict) (hm : m.validText = true) {slot : ℕ}
    {spare : Bytes} (hspare : ∃ entry mem, L.cbor.member.unmarshal entry = .ok mem ∧ mem.peerID = spare) :
    (m.replaceHolder slot spare).validText = true := by
  obtain ⟨entry, mem, hdec, rfl⟩ := hspare
  have hpeer : validUTF8 mem.peerID = true := by
    have := hS.member hdec
    simp only [Member.validText, Bool.and_eq_true] at this
    exact this.1.1
  refine Manifest.validText_setHolders hm fun h hh => ?_
  rcases List.mem_or_eq_of_mem_set hh with hh | rfl
  · simp only [Manifest.validText, Bool.and_eq_true, List.all_eq_true] at hm
    exact hm.1.1.1.2 h hh
  · exact hpeer

/-- A manifest that is stored is there, with its time in seconds. -/
theorem NodeState.manifest_of_put (hC : L.cbor.Lawful) (hm : m.validText = true)
    (h : s'.store = s.store.put (manifestKey m.fileID) (L.cbor.manifest.marshal m)) :
    s'.manifest L m.fileID = some m.norm := by
  rw [NodeState.manifest_eq_some]
  exact ⟨_, by rw [h, SortedMap.get_put_self], hC.manifest.unmarshal_marshal hm⟩

/-- Storing a manifest leaves the members of the groups as they were. -/
theorem NodeState.mem_members_of_put {gid raw : Bytes} (h : s'.store = s.store.put (manifestKey fileID) raw)
    {mem : Member} : mem ∈ s'.members L gid ↔ mem ∈ s.members L gid := by
  have hkey : ∀ {key}, memberPrefix gid <+: key → key ≠ manifestKey fileID := by
    rintro key ⟨rest, rfl⟩
    unfold memberPrefix manifestKey manifestPrefix
    rw [List.append_assoc, List.append_assoc]
    exact append_ne_append 1 (by decide) _ _
  simp only [NodeState.mem_members_iff, h]
  constructor
  · rintro ⟨key, entry, hget, hpre, hdec⟩
    exact ⟨key, entry, by rwa [SortedMap.get_put_ne _ (hkey hpre)] at hget, hpre, hdec⟩
  · rintro ⟨key, entry, hget, hpre, hdec⟩
    exact ⟨key, entry, by rwa [SortedMap.get_put_ne _ (hkey hpre)], hpre, hdec⟩

/-- The pairs of an iteration where only one key is to be visited. -/
theorem NodeState.scan_eq_singleton {pre key raw : Bytes} (hget : s.store.get key = some raw)
    (hpre : pre <+: key) (honly : ∀ k v, s.store.get k = some v → pre <+: k → k = key) :
    s.scan pre = [(key, raw)] := by
  have hfilter : s.scan pre = s.store.entries.filter fun e => e.1 = key := by
    unfold NodeState.scan
    refine List.filter_congr ?_
    rintro ⟨k, v⟩ hmem
    have hk := (SortedMap.mem_entries_iff _ _ _).mp hmem
    rw [Bool.eq_iff_iff, List.isPrefixOf_iff_prefix, decide_eq_true_eq]
    exact ⟨honly k v hk, fun h => h ▸ hpre⟩
  rw [hfilter, SortedMap.filter_key_eq, hget]
  rfl

/-- Storing a manifest leaves every manifest under the id of its file. -/
theorem NodeState.FiledManifests.put (h : s.FiledManifests L) (hC : L.cbor.Lawful)
    (hs' : s'.store = s.store.put (manifestKey m.fileID) (L.cbor.manifest.marshal m)) :
    s'.FiledManifests L := by
  intro key raw m' hpre hget hdec
  rw [hs'] at hget
  by_cases hkey : key = manifestKey m.fileID
  · subst hkey
    rw [SortedMap.get_put_self] at hget
    rw [← Option.some.inj hget] at hdec
    rw [hC.manifest.eq_norm hdec]
    rfl
  · rw [SortedMap.get_put_ne _ hkey] at hget
    exact h key raw m' hpre hget hdec

end Stored

/-! ## The executions of a scan -/

/-- What stands at the place where a peer was found. -/
theorem getElem?_of_findIdx? {l : List Bytes} {i : ℕ} {a : Bytes} (h : l.findIdx? (· = a) = some i) :
    l[i]? = some a := by
  obtain ⟨hlt, heq, -⟩ := List.findIdx?_eq_some_iff_getElem.mp h
  rw [List.getElem?_eq_getElem hlt]
  exact congrArg some (by simpa using heq)

/-- The keys that were passed to `store.Put`. -/
def putKeys (evs : List NodeEvent) : List Bytes :=
  evs.filterMap fun e => match e.op with
    | .storePut key _ => some key
    | _ => none

/-- The keys of two parts of a trace. -/
@[simp] theorem putKeys_append (evs evs' : List NodeEvent) :
    putKeys (evs ++ evs') = putKeys evs ++ putKeys evs' := List.filterMap_append ..

/-- Only stores have keys. -/
theorem putKeys_of_storePuts {evs : List NodeEvent} : putKeys evs = putKeys (storePuts evs) := by
  induction evs with
  | nil => rfl
  | cons e evs ih =>
    rw [storePuts_cons, putKeys_append, ← ih, ← List.singleton_append, putKeys_append]
    congr 1
    obtain ⟨o, r⟩ := e
    cases o <;> rfl

/-- A manifest of a list with another holder in the slot of a peer, under the key of its file. The new
holder comes from an entry of a group's members. -/
def SlotWrite (L : Libs) (offlinePeer : Bytes) (ms : List Manifest) (key raw : Bytes) : Prop :=
  ∃ m ∈ ms, ∃ slot spare, m.holders.findIdx? (· = offlinePeer) = some slot ∧ spare ∉ m.holders ∧
    (∃ entry mem, L.cbor.member.unmarshal entry = .ok mem ∧ mem.peerID = spare) ∧
    key = manifestKey m.fileID ∧ raw = L.cbor.manifest.marshal (m.replaceHolder slot spare)

section Rules

variable {W : Type} {L : Libs} {self : Bytes} {E : Env NodeSig W}
  {guard : W → List NodeEvent → NodeOp → Prop} {offlinePeer : Bytes}

/-- The repairs of a list of manifests, after `start`. Each is stored at most once if no two are of one
file. -/
theorem wp_repairFiles {all : List Manifest} {Distinct : Prop} {start : List NodeEvent}
    (hg : ∀ v l o, Surveys o → guard v l o)
    (hsend : ∀ v l m o, Sends L m o → guard v l o)
    (hput : ∀ v l key raw, start <+: l → SlotWrite L offlinePeer all key raw →
      (Distinct → key ∉ putKeys l) → guard v l (.storePut key raw)) (ms : List Manifest) (hsub : ms ⊆ all)
    (hdistinct : Distinct → ms.Pairwise fun m m' => m.fileID ≠ m'.fileID) (v : W) (l : List NodeEvent)
    (hstart : start <+: l) (hnew : Distinct → ∀ m ∈ ms, manifestKey m.fileID ∉ putKeys l) :
    wp (E.traced guard) (repairFiles L self offlinePeer ms) (fun _ _ => True) (v, l) := by
  induction ms generalizing v l with
  | nil => trivial
  | cons m ms ih =>
    have hsub' : ms ⊆ all := fun m' hm' => hsub (List.mem_cons_of_mem _ hm')
    have hdistinct' : Distinct → ms.Pairwise fun m m' => m.fileID ≠ m'.fileID :=
      fun hD => (List.pairwise_cons.mp (hdistinct hD)).2
    unfold repairFiles
    cases hslot : m.holders.findIdx? (· = offlinePeer) with
    | none =>
      exact ih hsub' hdistinct' v l hstart fun hD m' hm' => hnew hD m' (List.mem_cons_of_mem _ hm')
    | some slot =>
      simp only
      rw [wp_bind, wp_attempt]
      have hrepair : wp (E.traced guard) (repairFile L self m slot)
          (Does (fun _ => True) l (Committed L self m slot)) (v, l) := wp_repairFile hg
        (fun v evs spare hmig hnone => hput v _ _ _ (hstart.trans (List.prefix_append _ _))
          ⟨m, hsub List.mem_cons_self, slot, spare, hslot, hmig.not_holder, hmig.decoded,
            rfl, rfl⟩ (fun hD => by
            rw [putKeys_append, show putKeys evs = _ from putKeys_of_storePuts, hnone]
            simpa [putKeys] using hnew hD m List.mem_cons_self))
        (fun v l' spare o _ ho => hsend v l' _ o ho) v
      refine wp_mono hrepair ?_
      rintro r ⟨v₁, l₁⟩ ⟨evs, hl, -, hcommit⟩
      obtain rfl : l₁ = l ++ evs := hl
      -- What was stored is of this file, and the others on the list are of other files.
      have hkeys : putKeys evs ⊆ [manifestKey m.fileID] := by
        rw [putKeys_of_storePuts]
        rcases hcommit with ⟨hnone, -⟩ | ⟨spare, a, -, hone, -⟩
        · rw [hnone]
          simp [putKeys]
        · rw [hone]
          simp [putKeys]
      have hnew' : ∀ evs', putKeys evs' = [] → Distinct →
          ∀ m' ∈ ms, manifestKey m'.fileID ∉ putKeys (l ++ evs ++ evs') := by
        intro evs' hevs' hD m' hm' hmem
        rw [putKeys_append, putKeys_append, hevs', List.append_nil] at hmem
        rcases List.mem_append.mp hmem with hmem | hmem
        · exact hnew hD m' (List.mem_cons_of_mem _ hm') hmem
        · have hkey := List.mem_singleton.mp (hkeys hmem)
          exact (List.pairwise_cons.mp (hdistinct hD)).1 m' hm' (manifestKey_inj hkey).symm
      cases r with
      | ok u =>
        exact ih hsub' hdistinct' v₁ (l ++ evs) (hstart.trans (List.prefix_append _ _))
          (by simpa using hnew' [] rfl)
      | error e =>
        refine wp_bind_of ((only_slice12 (A := (· = .panic)) rfl m.fileID).wp_does
          (fun v l o ho => hg v l o (ho ▸ trivial)) v₁ _) ?_ fun _ _ _ => trivial
        rintro u ⟨v₂, l₂⟩ ⟨evs', hl', hevs', -⟩
        obtain rfl : l₂ = l ++ evs ++ evs' := hl'
        refine ih hsub' hdistinct' v₂ _ (hstart.trans ?_) (hnew' evs' ?_)
        · rw [List.append_assoc]
          exact List.prefix_append _ _
        refine List.filterMap_eq_nil_iff.mpr fun e he => ?_
        rw [hevs' e he]

/-- What a scan stores comes from the list that it has read at its start. -/
theorem wp_scanForOfflinePeer (v : W) :
    wp (E.traced fun _ l o => ∀ key raw, o = .storePut key raw → ∃ pairs rest,
        l = ⟨.storeIterate manifestPrefix, (pairs, none)⟩ :: rest ∧
        SlotWrite L offlinePeer (decodeValues L.cbor.manifest pairs) key raw ∧
        ((decodeValues L.cbor.manifest pairs).Pairwise (fun m m' => m.fileID ≠ m'.fileID) →
          key ∉ putKeys l))
      (scanForOfflinePeer L self offlinePeer) (fun _ _ => True) (v, []) := by
  unfold scanForOfflinePeer
  refine wp_traced_op.mpr ⟨by simp, ?_⟩
  rintro ⟨pairs, err⟩ v₁ _
  simp only [bind_eq, pure_eq, ret_bind]
  cases err with
  | some e => trivial
  | none =>
    refine wp_repairFiles ?_ ?_ ?_ (decodeValues L.cbor.manifest pairs) (List.Subset.refl _) id v₁ _
      List.prefix_rfl (by simp [putKeys])
    · rintro v l o ho key raw rfl
      exact ho.elim
    · rintro v l m o (rfl | ⟨pid, rfl⟩) key raw ⟨⟩
    · rintro v l key raw ⟨rest, rfl⟩ hwrite hnew key' raw' ⟨⟩
      exact ⟨pairs, rest, rfl, hwrite, hnew⟩

end Rules

end FnShare
