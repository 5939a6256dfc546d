import FnShare.File.Reader
import FnShare.File.Success

/-!
# Opening a file

`OpenReader` takes the manifest that is stored under the id that it is asked for. If there is none, it asks
the members of all groups, in no certain order, and takes and stores the first manifest that one of them
sends (`Found`). Nothing compares the id in a manifest with the id that was asked for. So a reader is one of
the file, and no other manifest is touched, exactly if what is stored under the id and what the peers
send is (`openReader_own_iff`).
-/

namespace FnShare

open Prog

/-! ## The executions of `OpenReader` -/

/-- What `manifest.Get` makes of the answer of `store.Get`. -/
def manifestOf (L : Libs) : Except GoErr Bytes → Except GoErr Manifest
  | .error e => .error (if e = errStoreNotFound then errManifestNotFound else e)
  | .ok raw => L.cbor.manifest.unmarshal raw

/-- A peer that `fetchManifest` asks: one with an entry in the store that is not the node itself. -/
def Contact (L : Libs) (node : Service) (t : NodeState) (pid : Bytes) : Prop :=
  ∃ mem key raw, t.store.get key = some raw ∧ lit "member/" <+: key ∧
    L.cbor.member.unmarshal raw = .ok mem ∧ mem.peerID ≠ node.self ∧ L.peerDecode mem.peerID = .ok pid

/-- The manifest was not found in the store, and a peer that was asked has sent one. -/
def Sent (L : Libs) (node : Service) (fileID : Bytes) (t : NodeState) (evs : List NodeEvent)
    (m : Manifest) : Prop :=
  (∃ r, ⟨.storeGet (manifestKey fileID), r⟩ ∈ evs ∧ manifestOf L r = .error errManifestNotFound ∧
    (r = t.read (manifestKey fileID) ∨ ∃ e ≠ errStoreNotFound, r = .error e)) ∧
  ∃ pid resp, Contact L node t pid ∧
    (⟨.request pid ⟨.getManifest, fileID, []⟩, .ok resp⟩ : NodeEvent) ∈ evs ∧ resp.ok = true ∧
    L.cbor.manifest.unmarshal resp.body = .ok m

/-- The manifest that was found is stored at the node, or was sent by a peer. -/
def Found (L : Libs) (node : Service) (fileID : Bytes) (t : NodeState) (evs : List NodeEvent)
    (m : Manifest) : Prop :=
  (∃ raw, t.store.get (manifestKey fileID) = some raw ∧ L.cbor.manifest.unmarshal raw = .ok m) ∨
  Sent L node fileID t evs m

section Open

variable {L : Libs} {node : Service} {fileID : Bytes} {t : NodeState} {evs : List NodeEvent}
  {guard : NodeState → List NodeEvent → NodeOp → Prop}
variable {m : Manifest}

/-- What was sent stays sent. -/
theorem Sent.mono {evs' : List NodeEvent} (h : Sent L node fileID t evs m)
    (hsub : evs ⊆ evs') : Sent L node fileID t evs' m := by
  obtain ⟨⟨r, hr, hnone⟩, pid, resp, hpid, hmem, hok, hdec⟩ := h
  exact ⟨⟨r, hsub hr, hnone⟩, pid, resp, hpid, hsub hmem, hok, hdec⟩

/-- The key of a manifest is not that of a group. -/
theorem groupKey_ne_manifestKey (gid fileID : Bytes) : groupKey gid ≠ manifestKey fileID := by
  unfold groupKey manifestKey manifestPrefix
  exact append_ne_append 0 (by decide) _ _

/-- Storing a manifest changes no group. -/
theorem NodeState.group_putManifest (t : NodeState) (gid fileID raw : Bytes) :
    (t.putKey (manifestKey fileID) raw).group L gid = t.group L gid := by
  unfold NodeState.group NodeState.putKey
  rw [SortedMap.get_put_ne _ (groupKey_ne_manifestKey gid fileID)]

/-- The manifest that a peer sends. -/
theorem wp_fetchManifestFrom (hg : ∀ v l o, (∀ key raw, o ≠ .storePut key raw) → guard v l o)
    (mems : List Member) (hmems : ∀ mem ∈ mems, ∀ pid, mem.peerID ≠ node.self →
      L.peerDecode mem.peerID = .ok pid → Contact L node t pid) (evs : List NodeEvent) :
    wp (nodeEnv.traced guard) (fetchManifestFrom L node fileID mems)
      (onOk fun m w => w.1 = t ∧ evs ⊆ w.2 ∧ ∃ pid resp, Contact L node t pid ∧
        (⟨.request pid ⟨.getManifest, fileID, []⟩, .ok resp⟩ : NodeEvent) ∈ w.2 ∧ resp.ok = true ∧
        L.cbor.manifest.unmarshal resp.body = .ok m) (t, evs) := by
  induction mems generalizing evs with
  | nil => trivial
  | cons mem rest ih =>
    have ih := ih fun mem' hmem' => hmems mem' (List.mem_cons_of_mem _ hmem')
    unfold fetchManifestFrom
    by_cases hself : mem.peerID = node.self
    · rw [if_pos hself]
      exact ih evs
    rw [if_neg hself]
    cases hpid : L.peerDecode mem.peerID with
    | error e => exact ih evs
    | ok pid =>
      -- Whatever comes of asking this peer, the others can be asked.
      have hrest : ∀ a, wp (nodeEnv.traced guard) (fetchManifestFrom L node fileID rest)
          (onOk fun m w => w.1 = t ∧ evs ⊆ w.2 ∧ ∃ pid resp, Contact L node t pid ∧
            (⟨.request pid ⟨.getManifest, fileID, []⟩, .ok resp⟩ : NodeEvent) ∈ w.2 ∧ resp.ok = true ∧
            L.cbor.manifest.unmarshal resp.body = .ok m)
          (t, evs ++ [⟨.request pid ⟨.getManifest, fileID, []⟩, a⟩]) := by
        intro a
        refine wp_mono (ih _) ?_
        rintro (e | m) w hw
        · trivial
        · exact ⟨hw.1, fun e he => hw.2.1 (List.mem_append_left _ he), hw.2.2⟩
      simp only
      rw [wp_bind, wp_attempt]
      refine wp_getManifestFromPeer_of (hg _ _ _ (by simp)) ?_ ?_
      · rintro resp ⟨t', l'⟩ m ⟨ht, hl⟩ hok hdec
        obtain rfl : t = t' := ht.symm
        obtain rfl : l' = _ := hl
        exact ⟨rfl, List.subset_append_left _ _, pid, resp,
          hmems mem List.mem_cons_self pid hself hpid, by simp, hok, hdec⟩
      · rintro a ⟨t', l'⟩ ⟨ht, hl⟩ e
        obtain rfl : t = t' := ht.symm
        obtain rfl : l' = _ := hl
        exact hrest a

/-- The peers that are asked have an entry in the store. -/
theorem contact_of_scan {order : List Bytes} {mem : Member} {pid : Bytes}
    (hmem : mem ∈ order.filterMap fun p =>
      (decodeValues L.cbor.member (t.scan (lit "member/"))).find? fun m => m.peerID == p)
    (hself : mem.peerID ≠ node.self) (hpid : L.peerDecode mem.peerID = .ok pid) :
    Contact L node t pid := by
  obtain ⟨p, -, hfind⟩ := List.mem_filterMap.mp hmem
  obtain ⟨⟨key, raw⟩, hin, hdec⟩ := mem_decodeValues.mp (List.mem_of_find?_eq_some hfind)
  obtain ⟨hget, hpre⟩ := NodeState.mem_scan.mp hin
  exact ⟨mem, key, raw, hget, hpre, hdec, hself, hpid⟩

/-- The manifest that is not there is fetched and stored. -/
theorem wp_fetchManifest (hg : ∀ v l o, (∀ key raw, o ≠ .storePut key raw) → guard v l o)
    (hput : ∀ v l m, Sent L node fileID t l m →
      guard v l (.storePut (manifestKey m.fileID) (L.cbor.manifest.marshal m)))
    (hnone : ∃ r, ⟨.storeGet (manifestKey fileID), r⟩ ∈ evs ∧
      manifestOf L r = .error errManifestNotFound ∧
      (r = t.read (manifestKey fileID) ∨ ∃ e ≠ errStoreNotFound, r = .error e)) :
    wp (nodeEnv.traced guard)
      (do
        let m ← fetchManifest L node fileID
        let _ ← (attempt (putManifest L m) : NodeM (Except GoErr Unit))
        return m)
      (onOk fun m w => Found L node fileID t w.2 m ∧ ∀ gid, w.1.group L gid = t.group L gid)
      (t, evs) := by
  unfold fetchManifest allMembersAcrossGroups
  simp only [bind_assoc]
  refine wp_traced_op.mpr ⟨hg _ _ _ (by simp), ?_⟩
  rintro ⟨pairs, err⟩ t' ⟨rfl, hread⟩
  simp only [bind_eq, ret_bind]
  cases err with
  | some e => trivial
  | none =>
    obtain rfl : pairs = t'.scan (lit "member/") := NodeState.scan_of_step ⟨rfl, hread⟩
    simp only [op_bind, ret_bind, pure_eq]
    refine wp_traced_op.mpr ⟨hg _ _ _ (by simp), ?_⟩
    rintro order t'' ht''
    obtain rfl : t' = t'' := ht''.symm
    refine wp_bind_onOk (wp_fetchManifestFrom hg _ (fun mem hmem pid => contact_of_scan hmem) _) ?_
    rintro m ⟨t₁, evs₁⟩ ⟨ht₁, hsub, pid, resp, hpid, hmem, hok, hdec⟩
    obtain rfl : t' = t₁ := ht₁.symm
    have hsent : Sent L node fileID t' evs₁ m := by
      obtain ⟨r, hr, hr'⟩ := hnone
      exact ⟨⟨r, hsub (by simp [hr]), hr'⟩, pid, resp, hpid, hmem, hok, hdec⟩
    rw [wp_bind, wp_attempt]
    refine wp_traced_op.mpr ⟨hput _ _ _ hsent, ?_⟩
    rintro a t₂ hs
    -- Whether or not the manifest could be stored, it is used.
    have hfound : Found L node fileID t' (evs₁ ++ [⟨.storePut (manifestKey m.fileID)
        (L.cbor.manifest.marshal m), a⟩]) m := .inr (hsent.mono (List.subset_append_left _ _))
    have hgroup : ∀ gid, t₂.group L gid = t'.group L gid := by
      intro gid
      rcases hs with ⟨-, rfl⟩ | ⟨-, rfl⟩
      · exact t'.group_putManifest gid m.fileID _
      · rfl
    cases a with
    | ok u => exact ⟨hfound, hgroup⟩
    | error e => exact ⟨hfound, hgroup⟩

/-- The manifest that `OpenReader` goes by, and the groups after it was found. -/
theorem wp_findManifest (hg : ∀ v l o, (∀ key raw, o ≠ .storePut key raw) → guard v l o)
    (hput : ∀ v l m, Sent L node fileID t l m →
      guard v l (.storePut (manifestKey m.fileID) (L.cbor.manifest.marshal m))) :
    wp (nodeEnv.traced guard) (findManifest L node fileID)
      (onOk fun m w => Found L node fileID t w.2 m ∧ ∀ gid, w.1.group L gid = t.group L gid)
      (t, []) := by
  unfold findManifest getManifest storeGet
  rw [wp_bind, wp_attempt, wp_bind, wp_attempt, wp_bind]
  refine wp_traced_op.mpr ⟨hg _ _ _ (by simp), ?_⟩
  rintro a t' ⟨rfl, ha⟩
  -- Any error but one ends the search.
  have herr : ∀ e : GoErr, manifestOf L a = .error e →
      wp (nodeEnv.traced guard)
        (if e = errManifestNotFound then (do
          let m ← fetchManifest L node fileID
          let _ ← (attempt (putManifest L m) : NodeM (Except GoErr Unit))
          return m)
        else fail e)
        (onOk fun m w => Found L node fileID t' w.2 m ∧ ∀ gid, w.1.group L gid = t'.group L gid)
        (t', [] ++ [⟨.storeGet (manifestKey fileID), a⟩]) := by
    intro e hof
    by_cases he : e = errManifestNotFound
    · rw [if_pos he]
      exact wp_fetchManifest hg hput ⟨a, by simp, he ▸ hof, ha⟩
    · rw [if_neg he]
      trivial
  simp only [wp_ret, andThen_ok, wp_ofExcept]
  cases a with
  | ok raw =>
    simp only [wp_ofExcept]
    cases hdec : L.cbor.manifest.unmarshal raw with
    | error e => exact herr e hdec
    | ok m =>
      exact ⟨.inl ⟨raw, NodeState.get_of_step ⟨rfl, ha⟩, hdec⟩, fun _ => rfl⟩
  | error e =>
    simp only
    split_ifs with he
    · exact herr errManifestNotFound (by simp [manifestOf, he])
    · exact herr e (by simp [manifestOf, he])

/-- A reader has a manifest that was found, and the key that the node's group or key pair opens. -/
theorem wp_openReader (hg : ∀ v l o, (∀ key raw, o ≠ .storePut key raw) → guard v l o)
    (hput : ∀ v l m, Sent L node fileID t l m →
      guard v l (.storePut (manifestKey m.fileID) (L.cbor.manifest.marshal m))) :
    wp (nodeEnv.traced guard) (openReader L node fileID)
      (onOk fun r w => Found L node fileID t w.2 r.m ∧ ∃ g, t.group L r.m.groupID = some g ∧
        unwrapForMode L node r.m g = .ok r.key) (t, []) := by
  unfold openReader
  refine wp_bind_onOk (wp_findManifest hg hput) ?_
  rintro m ⟨t₁, evs₁⟩ ⟨hfound, hgroup⟩
  rw [wp_bind, wp_attempt]
  refine wp_loadByID (hg _ _ _ (by simp)) (fun _ _ => trivial) ?_
  intro g a hg
  simp only [andThen_ok]
  cases hkey : unwrapForMode L node m g with
  | error e => trivial
  | ok key =>
    refine ⟨hfound.imp_right fun h => h.mono (List.subset_append_left _ _), g, ?_, hkey⟩
    rw [← hgroup]
    exact hg

/-- What is left to do once the manifest is known. -/
theorem steps_openReader_of_find {t' : NodeState} {key : Bytes} {g : Group}
    (hfind : Steps nodeEnv t (findManifest L node fileID) evs t' (ret m))
    (hgroup : t'.group L m.groupID = some g) (hkey : unwrapForMode L node m g = .ok key) :
    ∃ b, Steps nodeEnv t (openReader L node fileID) (evs ++ [⟨.storeGet (groupKey m.groupID), .ok b⟩]) t'
      (ret { m := m, key := key, decryptedFilename := maybeDecryptFilename L m key }) := by
  obtain ⟨b, hload⟩ := steps_loadByID hgroup
  refine ⟨b, Steps.bind hfind (Steps.bind hload.attempt ?_)⟩
  simp only [hkey, ofExcept_ok, ret_bind]
  exact .refl _ _

/-- A node that has a manifest and can unwrap its key opens a reader. -/
theorem steps_openReader {raw key : Bytes} {g : Group} (hraw : t.store.get (manifestKey fileID) = some raw)
    (hdec : L.cbor.manifest.unmarshal raw = .ok m) (hgroup : t.group L m.groupID = some g)
    (hkey : unwrapForMode L node m g = .ok key) :
    ∃ a b, Steps nodeEnv t (openReader L node fileID)
      [⟨.storeGet (manifestKey fileID), .ok a⟩, ⟨.storeGet (groupKey m.groupID), .ok b⟩] t
      (ret { m := m, key := key, decryptedFilename := maybeDecryptFilename L m key }) := by
  have hread : t.read (manifestKey fileID) = .ok raw := NodeState.read_eq_ok.mpr hraw
  have hget : Steps nodeEnv t (getManifest L fileID) [⟨.storeGet (manifestKey fileID), .ok raw⟩] t
      (ret m) := by
    refine .op ⟨rfl, .inl hread.symm⟩ ?_
    change Steps nodeEnv t (Prog.ofExcept (L.cbor.manifest.unmarshal raw)) [] t _
    rw [hdec]
    exact .refl _ _
  have hfind : Steps nodeEnv t (findManifest L node fileID)
      ([⟨.storeGet (manifestKey fileID), .ok raw⟩] ++ []) t (ret m) :=
    Steps.bind hget.attempt (.refl _ _)
  obtain ⟨b, hopens⟩ := steps_openReader_of_find hfind hgroup hkey
  exact ⟨raw, b, hopens⟩

end Open

/-! ## The file that was asked for -/

/-- What the peers answer, whatever they are asked. An error of the store is not that of `manifest.Get`. -/
def Told (ans : Bytes → Except GoErr Response) : (o : NodeOp) → o.Ans → Prop
  | .request pid _, r => r = ans pid
  | .storeGet _, r => r ≠ .error errManifestNotFound
  | _, _ => True

/-- A node whose peers give these answers. -/
def toldEnv (ans : Bytes → Except GoErr Response) : Env NodeSig NodeState where
  step t o r t' := t.step o r t' ∧ Told ans o r
  guard _ _ := True

/-- The node has the group of a manifest, and can unwrap its key. -/
def Opens (L : Libs) (node : Service) (t : NodeState) (m : Manifest) : Prop :=
  ∃ g key, t.group L m.groupID = some g ∧ unwrapForMode L node m g = .ok key

/-- What is stored under the id of a file is of this file, unless it cannot be opened. If nothing is stored,
then what any member sends is of this file, unless it cannot be opened and is what the node has already. -/
structure Faithful (L : Libs) (node : Service) (fileID : Bytes) (t : NodeState)
    (ans : Bytes → Except GoErr Response) : Prop where
  stored : ∀ m, manifestOf L (t.read (manifestKey fileID)) = .ok m →
    m.fileID = fileID ∨ ¬ Opens L node t m
  sent : manifestOf L (t.read (manifestKey fileID)) = .error errManifestNotFound →
    ∀ pid resp m, Contact L node t pid → ans pid = .ok resp → resp.ok = true →
      L.cbor.manifest.unmarshal resp.body = .ok m →
      m.fileID = fileID ∨
        (t.store.get (manifestKey m.fileID) = some (L.cbor.manifest.marshal m) ∧ ¬ Opens L node t m)

section Own

variable {L : Libs} {node : Service} {fileID : Bytes} {t : NodeState} {evs : List NodeEvent}
  {ans : Bytes → Except GoErr Response}
variable {α : Type} {t' : NodeState}

/-- A run with these answers is a run. -/
theorem steps_of_told {p p' : NodeM α} (h : Steps (toldEnv ans) t p evs t' p') :
    Steps nodeEnv t p evs t' p' :=
  h.mono fun _ _ _ _ (hs : (toldEnv ans).step _ _ _ _) => hs.1

/-- A run in which the answers are these. -/
theorem steps_toldEnv {p p' : NodeM α} (h : Steps nodeEnv t p evs t' p')
    (htold : ∀ e ∈ evs, Told ans e.op e.ans) : Steps (toldEnv ans) t p evs t' p' :=
  h.restrict (P := Told ans) (F := toldEnv ans) (fun _ _ _ _ hs hP => ⟨hs, hP⟩) htold

/-- The answers of such a run are these. -/
theorem told_of_steps {p p' : NodeM α} (h : Steps (toldEnv ans) t p evs t' p') :
    ∀ e ∈ evs, Told ans e.op e.ans := by
  intro e he
  obtain ⟨v, v', hs⟩ := h.exists_step e he
  exact hs.2

/-- A record stays as it is if nothing else is put under its key. -/
theorem get_of_storePuts {p p' : NodeM α} {key : Bytes} {x : Option Bytes}
    (h : Steps nodeEnv t p evs t' p') (hx : t.store.get key = x)
    (hputs : ∀ raw, ⟨.storePut key raw, .ok ()⟩ ∈ evs → x = some raw) : t'.store.get key = x := by
  induction h with
  | refl t p => exact hx
  | @op t t' t'' o r k evs p' hs h ih =>
    refine ih ?_ fun raw hraw => hputs raw (List.mem_cons_of_mem _ hraw)
    rcases NodeState.step_cases hs with rfl | ⟨key', raw, he, rfl⟩ | ⟨id, data, -, -, rfl⟩ |
      ⟨e, data, -, rfl⟩ | ⟨e, -, rfl⟩
    · exact hx
    · by_cases hkey : key = key'
      · subst hkey
        rw [hputs raw (he ▸ List.mem_cons_self)]
        exact SortedMap.get_put_self _ _ _
      · exact (SortedMap.get_put_ne _ hkey _).trans hx
    · exact hx
    · exact hx
    · exact hx

/-- What was sent, where the answers are known. -/
theorem Sent.told {m : Manifest} (h : Sent L node fileID t evs m)
    (htold : ∀ e ∈ evs, Told ans e.op e.ans) :
    manifestOf L (t.read (manifestKey fileID)) = .error errManifestNotFound ∧
    ∃ pid resp, Contact L node t pid ∧ ans pid = .ok resp ∧ resp.ok = true ∧
      L.cbor.manifest.unmarshal resp.body = .ok m := by
  obtain ⟨⟨r, hr, hnone, hread⟩, pid, resp, hpid, hmem, hok, hdec⟩ := h
  refine ⟨?_, pid, resp, hpid, (htold _ hmem).symm, hok, hdec⟩
  rcases hread with rfl | ⟨e, he, rfl⟩
  · exact hnone
  · simp only [manifestOf, if_neg he] at hnone
    obtain rfl := Except.error.inj hnone
    exact absurd rfl (htold _ hr)

/-- The store does not answer with the error of `manifest.Get`. -/
theorem read_ne_errManifestNotFound (t : NodeState) (key : Bytes) :
    t.read key ≠ .error errManifestNotFound := by
  unfold NodeState.read
  cases t.store.get key with
  | some v => simp
  | none => decide

/-- A manifest that a member sends can be the one that is taken. -/
theorem steps_findManifest_sent {pid : Bytes} {resp : Response} {m : Manifest}
    (hnone : manifestOf L (t.read (manifestKey fileID)) = .error errManifestNotFound)
    (hpid : Contact L node t pid) (hans : ans pid = .ok resp) (hok : resp.ok = true)
    (hdec : L.cbor.manifest.unmarshal resp.body = .ok m) :
    ∃ evs, Steps (toldEnv ans) t (findManifest L node fileID) evs
      (t.putKey (manifestKey m.fileID) (L.cbor.manifest.marshal m)) (ret m) := by
  have hget : Steps (toldEnv ans) t (getManifest L fileID)
      [⟨.storeGet (manifestKey fileID), t.read (manifestKey fileID)⟩] t (fail errManifestNotFound) := by
    refine .op ⟨⟨rfl, .inl rfl⟩, read_ne_errManifestNotFound t _⟩ ?_
    cases hread : t.read (manifestKey fileID) with
    | error e =>
      rw [hread] at hnone
      change Steps (toldEnv ans) t (if e = errStoreNotFound then fail errManifestNotFound else fail e) [] t _
      have he : (if e = errStoreNotFound then errManifestNotFound else e) = errManifestNotFound :=
        Except.error.inj hnone
      split_ifs at he ⊢ with hne
      · exact .refl _ _
      · rw [he]
        exact .refl _ _
    | ok raw =>
      rw [hread] at hnone
      change Steps (toldEnv ans) t (Prog.ofExcept (L.cbor.manifest.unmarshal raw)) [] t _
      rw [show L.cbor.manifest.unmarshal raw = _ from hnone]
      exact .refl _ _
  obtain ⟨mem, key, raw, hentry, hpre, hmem, hself, hpeer⟩ := hpid
  have hfrom : Steps (toldEnv ans) t (getManifestFromPeer L pid fileID)
      [⟨.request pid ⟨.getManifest, fileID, []⟩, .ok resp⟩] t (ret m) := by
    refine .op ⟨rfl, hans.symm⟩ ?_
    simp only [bind_eq, pure_eq, ret_bind, ofExcept_ok, hok, if_true, hdec]
    exact .refl _ _
  -- The order in which the members are asked begins with this one.
  have hin : mem ∈ decodeValues L.cbor.member (t.scan (lit "member/")) := by
    refine List.mem_filterMap.mpr ⟨(key, raw), List.mem_filter.mpr
      ⟨(SortedMap.mem_entries_iff _ _ _).mpr hentry, by simpa using hpre⟩, ?_⟩
    simp [hmem, Except.toOption]
  have hasked : Steps (toldEnv ans) t (fetchManifest L node fileID)
      [⟨.storeIterate (lit "member/"), (t.scan (lit "member/"), none)⟩,
        ⟨.rangeMap ((decodeValues L.cbor.member (t.scan (lit "member/"))).map Member.peerID).dedup,
          ⟨mem.peerID :: (((decodeValues L.cbor.member (t.scan (lit "member/"))).map
            Member.peerID).dedup.erase mem.peerID), (List.perm_cons_erase (by
              rw [List.mem_dedup]; exact List.mem_map_of_mem hin)).symm⟩⟩,
        ⟨.request pid ⟨.getManifest, fileID, []⟩, .ok resp⟩] t (ret m) := by
    refine .op ⟨⟨rfl, .inl rfl⟩, trivial⟩ (.op ⟨rfl, trivial⟩ ?_)
    obtain ⟨mem', hfind, hsame⟩ : ∃ mem', (decodeValues L.cbor.member (t.scan (lit "member/"))).find?
        (fun m => m.peerID == mem.peerID) = some mem' ∧ mem'.peerID = mem.peerID := by
      have hsome : ((decodeValues L.cbor.member (t.scan (lit "member/"))).find?
          fun m => m.peerID == mem.peerID).isSome := List.find?_isSome.mpr ⟨mem, hin, by simp⟩
      obtain ⟨mem', hfind⟩ := Option.isSome_iff_exists.mp hsome
      exact ⟨mem', hfind, by simpa using List.find?_some hfind⟩
    simp only [bind_eq, pure_eq, ret_bind, List.filterMap_cons, hfind]
    unfold fetchManifestFrom
    rw [if_neg (hsame ▸ hself)]
    simp only [hsame, hpeer]
    exact (Steps.bind hfrom.attempt (.refl _ _) : Steps _ _ _ (_ ++ []) _ _)
  have hput : Steps (toldEnv ans) t (putManifest L m)
      [⟨.storePut (manifestKey m.fileID) (L.cbor.manifest.marshal m), .ok ()⟩]
      (t.putKey (manifestKey m.fileID) (L.cbor.manifest.marshal m)) (ret ()) :=
    .op ⟨.inl ⟨rfl, rfl⟩, trivial⟩ (.refl _ _)
  have hmissing : Steps (toldEnv ans) t (attempt (getManifest L fileID) : NodeM (Except GoErr Manifest))
      _ t (ret (.error errManifestNotFound)) := hget.attempt
  obtain ⟨evs, hrest⟩ : ∃ evs, Steps (toldEnv ans) t (fetchManifest L node fileID >>= fun m =>
      (attempt (putManifest L m) : NodeM (Except GoErr Unit)) >>= fun _ => pure m) evs
      (t.putKey (manifestKey m.fileID) (L.cbor.manifest.marshal m)) (ret m) :=
    ⟨_, Steps.bind hasked (Steps.bind hput.attempt (.refl _ _))⟩
  unfold findManifest
  refine ⟨_ ++ evs, Steps.bind hmissing ?_⟩
  simp only [if_true]
  exact hrest

/-- A reader is one of the file that was asked for, and opening it touches no other manifest, exactly if
what is stored under the id, or else what the members send, is of the file. -/
theorem openReader_own_iff :
    (∀ evs t' p', Steps (toldEnv ans) t (openReader L node fileID) evs t' p' →
      (∀ r, p' = ret r → r.m.fileID = fileID) ∧
      ∀ other, other ≠ fileID →
        t'.store.get (manifestKey other) = t.store.get (manifestKey other)) ↔
    Faithful L node fileID t ans := by
  constructor
  · intro h
    refine ⟨fun m hm => ?_, fun hnone pid resp m hpid hans hok hdec => ?_⟩
    · -- A stored manifest that can be opened gives a reader.
      refine or_not_of_imp ?_
      rintro ⟨g, key, hg, hkey⟩
      cases hread : t.read (manifestKey fileID) with
      | error e => simp [hread, manifestOf] at hm
      | ok raw =>
        rw [hread] at hm
        obtain ⟨a, b, hsteps⟩ := steps_openReader (NodeState.read_eq_ok.mp hread) hm hg hkey
        exact (h _ _ _ (steps_toldEnv hsteps (by simp [Told]))).1 _ rfl
    · -- A manifest that a member sends is stored under its own id, and then opened.
      obtain ⟨evs, hfind⟩ := steps_findManifest_sent hnone hpid hans hok hdec
      by_cases hown : m.fileID = fileID
      · exact .inl hown
      refine .inr ⟨?_, ?_⟩
      · rw [← (h _ _ _ (hfind.bind_left _)).2 m.fileID hown]
        exact SortedMap.get_put_self _ _ _
      · rintro ⟨g, key, hg, hkey⟩
        obtain ⟨b, hsteps⟩ := steps_openReader_of_find (steps_of_told hfind)
          ((t.group_putManifest _ _ _).trans hg) hkey
        refine hown ((h _ _ _ (steps_toldEnv hsteps ?_)).1 _ rfl)
        intro e he
        rcases List.mem_append.mp he with he | he
        · exact told_of_steps hfind e he
        · obtain rfl := List.mem_singleton.mp he
          simp [Told]
  · intro h evs t' p' hsteps
    have hnode := steps_of_told hsteps
    have htold := told_of_steps hsteps
    -- Every manifest that is stored on the way is one that a member has sent.
    have hwp : wp (nodeEnv.traced fun _ l o => ∀ key raw, o = .storePut key raw → ∃ m,
        Sent L node fileID t l m ∧ key = manifestKey m.fileID ∧ raw = L.cbor.manifest.marshal m)
        (openReader L node fileID) _ (t, []) := wp_openReader
      (fun v l o ho key raw heq => absurd heq (ho key raw))
      (by rintro v l m hsent key raw ⟨⟩; exact ⟨m, hsent, rfl, rfl⟩)
    refine ⟨?_, fun other hother => ?_⟩
    · rintro r rfl
      obtain ⟨hfound, g, hg, hkey⟩ := wp_steps (hnode.traced _ []) hwp
      have hopens : Opens L node t r.m := ⟨g, r.key, hg, hkey⟩
      rw [List.nil_append] at hfound
      rcases hfound with ⟨raw, hget, hdec⟩ | hsent
      · refine (h.stored r.m ?_).resolve_right fun hnot => hnot hopens
        simp [NodeState.read, hget, manifestOf, hdec]
      · obtain ⟨hnone, pid, resp, hpid, hans, hok, hdec⟩ := hsent.told htold
        exact (h.sent hnone pid resp r.m hpid hans hok hdec).resolve_right fun hnot => hnot.2 hopens
    · refine get_of_storePuts hnode rfl fun raw hput => ?_
      obtain ⟨pre, post, rfl⟩ := List.append_of_mem hput
      obtain ⟨v, v', q, -, hguard, -⟩ := wp_traced_at hwp hnode
      obtain ⟨m, hsent, hkey, rfl⟩ := hguard _ raw rfl
      obtain rfl := manifestKey_inj hkey
      obtain ⟨hnone, pid, resp, hpid, hans, hok, hdec⟩ :=
        hsent.told fun e he => htold e (List.mem_append_left _ he)
      exact ((h.sent hnone pid resp m hpid hans hok hdec).resolve_left hother).1

end Own

/-! ## A peer that sends another file -/

/-- The manifest of a file without contents, wrapped for the sample group. -/
def sampleOther : Manifest where
  fileID := lit "other"
  groupID := (sampleGroup 7).id
  filename := lit "film"
  size := 0
  dataShards := 1
  parityShards := 1
  stripeDataSize := 4
  holders := []
  stripes := []
  createdAt := 0
  ownerPeerID := lit "alice"
  mode := modeShared
  wrappedKey := sealedAES sampleLibs (sampleGroup 7).sharedKey (List.replicate gcmNonceSize 0)
    (List.replicate fileKeySize 2)
  filenameEncrypted := false

/-- Whatever they are asked for, the peers send a manifest. -/
def sendsManifest (m : Manifest) (_ : Bytes) : Except GoErr Response :=
  .ok { ok := true, body := sampleLibs.cbor.manifest.marshal m }

/-- Nothing is stored at the sample node under the ids of files. -/
theorem get_manifestKey_sampleHome (fileID : Bytes) : sampleHome.store.get (manifestKey fileID) = none :=
  get_sampleHome (not_prefix_append 1 (by decide) _) (not_prefix_append 0 (by decide) _)

/-- The group of the sample node. -/
theorem group_sampleHome : sampleHome.group sampleLibs (sampleGroup 7).id = some (sampleGroup 7) := by
  have hres := sampleHome_ready.resolved
  unfold NodeState.resolved at hres
  rwa [if_neg (by decide)] at hres

/-- The sample node opens whatever file a peer sends, if it can, and stores its manifest. -/
theorem sampleHome_takes {m : Manifest} {key : Bytes} (hvalid : m.validText = true)
    (hgroup : m.groupID = (sampleGroup 7).id)
    (hkey : unwrapForMode sampleLibs sampleService m.norm (sampleGroup 7) = .ok key) (fileID : Bytes) :
    ∃ evs r, Steps (toldEnv (sendsManifest m)) sampleHome (openReader sampleLibs sampleService fileID) evs
        (sampleHome.putKey (manifestKey m.fileID) (sampleLibs.cbor.manifest.marshal m.norm)) (ret r) ∧
      r.m = m.norm := by
  have hnone : manifestOf sampleLibs (sampleHome.read (manifestKey fileID)) =
      .error errManifestNotFound := by
    simp [NodeState.read, get_manifestKey_sampleHome, manifestOf]
  have hcontact : Contact sampleLibs sampleService sampleHome (lit "alice") := by
    obtain ⟨key, raw, hget, ⟨rest, rfl⟩, hdec⟩ :=
      (NodeState.mem_members_iff _ _ _).mp (mem_members_sampleHome.mpr (.inl rfl))
    refine ⟨sampleMember (lit "alice"), _, raw, hget, ?_, hdec, by decide, rfl⟩
    unfold memberPrefix
    rw [List.append_assoc, List.append_assoc]
    exact List.prefix_append _ _
  obtain ⟨evs, hfind⟩ := steps_findManifest_sent hnone hcontact (show sendsManifest m _ = _ from rfl) rfl
    (unmarshal_sampleManifest hvalid)
  have hloaded : (sampleHome.putKey (manifestKey m.norm.fileID)
      (sampleLibs.cbor.manifest.marshal m.norm)).group sampleLibs m.norm.groupID =
        some (sampleGroup 7) := by
    rw [NodeState.group_putManifest, show m.norm.groupID = _ from hgroup]
    exact group_sampleHome
  obtain ⟨b, hsteps⟩ := steps_openReader_of_find (steps_of_told hfind) hloaded hkey
  refine ⟨_, _, steps_toldEnv hsteps fun e he => ?_, rfl⟩
  rcases List.mem_append.mp he with he | he
  · exact told_of_steps hfind e he
  · obtain rfl := List.mem_singleton.mp he
    simp [Told]

/-- A peer answers with the manifest of another file. The node opens that file and stores the manifest. -/
theorem sampleHome_opens_other :
    ∃ evs t' r, Steps (toldEnv (sendsManifest sampleOther)) sampleHome
        (openReader sampleLibs sampleService (lit "wanted")) evs t' (ret r) ∧
      r.m.fileID ≠ lit "wanted" ∧
      t'.store.get (manifestKey (lit "other")) ≠ sampleHome.store.get (manifestKey (lit "other")) := by
  have hkey : unwrapForMode sampleLibs sampleService sampleOther.norm (sampleGroup 7) =
      .ok (List.replicate fileKeySize 2) := by
    have hopen := openAES_sealedAES (L := sampleLibs) sampleAead_correct
      (show (sampleGroup 7).sharedKey.length = fileKeySize by decide)
      (show (List.replicate gcmNonceSize 0).length = gcmNonceSize by decide) (List.replicate fileKeySize 2)
    rw [← hopen]
    rfl
  obtain ⟨evs, r, hsteps, hm⟩ := sampleHome_takes (by decide) rfl hkey (lit "wanted")
  refine ⟨evs, _, r, hsteps, ?_, ?_⟩
  · rw [hm]
    exact show lit "other" ≠ lit "wanted" by decide
  · rw [get_manifestKey_sampleHome]
    exact fun h => absurd ((SortedMap.get_put_self _ _ _).symm.trans h) (by simp)

end FnShare
