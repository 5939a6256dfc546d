import FnShare.Lib.Interleave
import FnShare.Repair.Scan
import FnShare.Repair.Commit

/-!
# Two scans at the same time

Two peers drop out in one round of the heartbeat, and a scan runs for each of them at the same node. Each
scan reads the manifests when it starts and writes one back as a whole. Where both replace their holder of
one file, both replacements are kept exactly if one scan has written the manifest before the other one has
read it (`repairs_kept_iff`). Otherwise the later write takes the earlier one back
(`sampleOwner_loses_repair`).
-/

namespace FnShare

open Prog

/-- The manifest of a file is stored. -/
def Stores (fileID : Bytes) (e : NodeEvent) : Prop :=
  ∃ raw, e = ⟨.storePut (manifestKey fileID) raw, .ok ()⟩

/-- One of two programs has stored the manifest of a file before the other one has done anything. -/
def Apart (fileID : Bytes) (tr : List (Bool × NodeEvent)) : Prop :=
  ∃ b u e v, tr = u ++ (b, e) :: v ∧ Stores fileID e ∧ own (!b) u = []

section Overlap

variable {L : Libs} {self fileID : Bytes} {peer : Bool → Bytes} {s s' : NodeState}
  {ps ps' : Bool → NodeM Unit} {tr : List (Bool × NodeEvent)}
variable {b : Bool} {e : NodeEvent} {u v : List (Bool × NodeEvent)}

/-- The record of a file stays as it is until the manifest of the file is stored. -/
theorem Together.get_of_not_stores (h : Together nodeEnv s ps tr s' ps')
    (hnone : ∀ x ∈ tr, ¬ Stores fileID x.2) :
    s'.store.get (manifestKey fileID) = s.store.get (manifestKey fileID) := by
  induction h with
  | refl w ps => rfl
  | @step w w' w'' ps ps' tr i o r k hi hs h ih =>
    rw [ih fun x hx => hnone x (List.mem_cons_of_mem _ hx)]
    rcases NodeState.step_cases hs with rfl | ⟨key, value, he, rfl⟩ | ⟨id, data, -, -, rfl⟩ |
      ⟨e, data, -, rfl⟩ | ⟨e, -, rfl⟩
    · rfl
    · have hkey : manifestKey fileID ≠ key := by
        rintro rfl
        exact hnone (i, ⟨o, r⟩) List.mem_cons_self ⟨value, he⟩
      exact SortedMap.get_put_ne _ hkey _
    · rfl
    · rfl
    · rfl

/-- Every manifest that is stored goes under the id of its file. -/
def FilesManifests (L : Libs) (tr : List (Bool × NodeEvent)) : Prop :=
  ∀ x ∈ tr, ∀ key raw, x.2.op = .storePut key raw →
    ∃ m, key = manifestKey m.fileID ∧ raw = L.cbor.manifest.marshal m

/-- So every manifest stays under the id of its file. -/
theorem Together.filed (hC : L.cbor.Lawful) (h : Together nodeEnv s ps tr s' ps')
    (htr : FilesManifests L tr) (hs : s.FiledManifests L) : s'.FiledManifests L := by
  induction h with
  | refl w ps => exact hs
  | @step w w' w'' ps ps' tr i o r k hi hstep h ih =>
    refine ih (fun x hx => htr x (List.mem_cons_of_mem _ hx)) ?_
    rcases NodeState.step_cases hstep with rfl | ⟨key, value, he, rfl⟩ | ⟨id, data, -, -, rfl⟩ |
      ⟨e, data, -, rfl⟩ | ⟨e, -, rfl⟩
    · exact hs
    · obtain ⟨m, rfl, rfl⟩ := htr _ List.mem_cons_self key value (congrArg Event.op he)
      exact hs.put hC rfl
    · exact hs
    · exact hs
    · exact hs

/-- The first operation of a program in a trace. -/
theorem exists_first_own {rest : List NodeEvent} (h : own b tr = e :: rest) :
    ∃ u v, tr = u ++ (b, e) :: v ∧ own b u = [] := by
  induction tr with
  | nil => exact absurd h (by simp)
  | cons x tr ih =>
    obtain ⟨c, e'⟩ := x
    by_cases hcb : c = b
    · subst hcb
      rw [own_cons_self] at h
      obtain ⟨rfl, -⟩ := List.cons.inj h
      exact ⟨[], tr, rfl, rfl⟩
    · rw [own_cons_ne hcb] at h
      obtain ⟨u, v, rfl, hu⟩ := ih h
      exact ⟨(c, e') :: u, v, rfl, by rw [own_cons_ne hcb, hu]⟩

/-- The scans for two peers. -/
def scans (L : Libs) (self : Bytes) (peer : Bool → Bytes) (b : Bool) : NodeM Unit :=
  scanForOfflinePeer L self (peer b)

/-- What a scan stores, where it does: one of the manifests on the list that it has read first. -/
theorem Together.scan_writes (h : Together nodeEnv s (scans L self peer) tr s' ps') {key raw : Bytes}
    {r : Except GoErr Unit} (htr : tr = u ++ (b, ⟨.storePut key raw, r⟩) :: v) :
    ∃ pairs rest, own b u = ⟨.storeIterate manifestPrefix, (pairs, none)⟩ :: rest ∧
      SlotWrite L (peer b) (decodeValues L.cbor.manifest pairs) key raw ∧
      ((decodeValues L.cbor.manifest pairs).Pairwise (fun m m' => m.fileID ≠ m'.fileID) →
        key ∉ putKeys (own b u)) := by
  have hsteps := h.own_steps b
  rw [htr, own_append, own_cons_self] at hsteps
  obtain ⟨w, w', q, -, hguard, -⟩ := wp_traced_at (wp_scanForOfflinePeer ()) hsteps
  exact hguard key raw rfl

/-- Every manifest is stored under its own key. -/
theorem Together.filesManifests (h : Together nodeEnv s (scans L self peer) tr s' ps') :
    FilesManifests L tr := by
  rintro ⟨b, ⟨o, r⟩⟩ hx key raw rfl
  obtain ⟨u, v, htr⟩ := List.append_of_mem hx
  obtain ⟨pairs, rest, -, ⟨m, -, slot, spare, -, -, -, rfl, rfl⟩, -⟩ := h.scan_writes htr
  exact ⟨m.replaceHolder slot spare, rfl, rfl⟩

/-- A scan that stores the manifest of a file has read the one that was stored when it started. -/
theorem Together.scan_read (hC : L.cbor.Lawful) (hfiled : s.FiledManifests L)
    (h : Together nodeEnv s (scans L self peer) tr s' ps') {raw : Bytes} {r : Except GoErr Unit}
    (htr : tr = u ++ (b, ⟨.storePut (manifestKey fileID) raw, r⟩) :: v) :
    manifestKey fileID ∉ putKeys (own b u) ∧ ∃ u₁ e u₂ t qs m slot spare, u = u₁ ++ (b, e) :: u₂ ∧
      own b u₁ = [] ∧ Together nodeEnv s (scans L self peer) u₁ t qs ∧ t.manifest L fileID = some m ∧
      m.holders.findIdx? (· = peer b) = some slot ∧ spare ∉ m.holders ∧
      (∃ entry mem, L.cbor.member.unmarshal entry = .ok mem ∧ mem.peerID = spare) ∧
      raw = L.cbor.manifest.marshal (m.replaceHolder slot spare) := by
  obtain ⟨pairs, rest, hown, ⟨m, hm, slot, spare, hslot, hnot, hspare, hkey, hraw⟩, hnew⟩ :=
    h.scan_writes htr
  obtain ⟨u₁, u₂, rfl, hu₁⟩ := exists_first_own hown
  rw [htr, List.append_assoc] at h
  have hfiles := h.filesManifests
  obtain ⟨t, qs, h₁, h₂⟩ := h.split
  have ht : t.FiledManifests L :=
    h₁.filed hC (fun x hx => hfiles x (List.mem_append_left _ hx)) hfiled
  -- The list was read in the state `t`.
  have hpairs : pairs = t.scan manifestPrefix := by
    cases h₂ with
    | step i hi hs h₂ => exact NodeState.scan_of_step hs
  have hlist : decodeValues L.cbor.manifest pairs = t.manifests L := by rw [hpairs]; rfl
  rw [hlist] at hm hnew
  obtain rfl := manifestKey_inj hkey
  exact ⟨hnew (NodeState.pairwise_manifests ht), u₁, _, u₂, t, qs, m, slot, spare, rfl, hu₁, h₁,
    (NodeState.mem_manifests ht).mp hm, hslot, hnot, hspare, hraw⟩

/-- Each scan stores the manifest of a file once at most. -/
theorem Together.stores_once (hC : L.cbor.Lawful) (hfiled : s.FiledManifests L)
    (h : Together nodeEnv s (scans L self peer) tr s' ps') {e' : NodeEvent} (htr : tr = u ++ (b, e) :: v)
    (he : Stores fileID e) (he' : Stores fileID e') : (b, e') ∉ u ∧ (b, e') ∉ v := by
  have hbefore : ∀ {u v e e'}, tr = u ++ (b, e) :: v → Stores fileID e → Stores fileID e' →
      (b, e') ∉ u := by
    rintro u v e e' htr ⟨raw, rfl⟩ ⟨raw', rfl⟩ hmem
    refine (h.scan_read hC hfiled htr).1 (List.mem_filterMap.mpr ⟨_, mem_own.mpr hmem, rfl⟩)
  refine ⟨hbefore htr he he', fun hmem => ?_⟩
  obtain ⟨v₁, v₂, rfl⟩ := List.append_of_mem hmem
  refine hbefore (u := u ++ (b, e) :: v₁) (v := v₂) (by rw [htr]; simp) he' he ?_
  simp

/-- The first time that the manifest of a file is stored. -/
theorem exists_first_stores (h : ∃ x ∈ tr, Stores fileID x.2) :
    ∃ u b e v, tr = u ++ (b, e) :: v ∧ Stores fileID e ∧ ∀ x ∈ u, ¬ Stores fileID x.2 := by
  induction tr with
  | nil => simp at h
  | cons x tr ih =>
    by_cases hx : Stores fileID x.2
    · exact ⟨[], x.1, x.2, tr, rfl, hx, by simp⟩
    · obtain ⟨u, b, e, v, rfl, he, hu⟩ := ih (by simpa [hx] using h)
      exact ⟨x :: u, b, e, v, rfl, he, List.forall_mem_cons.mpr ⟨hx, hu⟩⟩

/-- The place of an element stays if another one is replaced. -/
theorem findIdx?_set {l : List Bytes} {i j : ℕ} {a b : Bytes} (h : l.findIdx? (· = a) = some i) (hij : j ≠ i)
    (hb : b ≠ a) : (l.set j b).findIdx? (· = a) = some i := by
  obtain ⟨hlt, heq, hfirst⟩ := List.findIdx?_eq_some_iff_getElem.mp h
  refine List.findIdx?_eq_some_iff_getElem.mpr ⟨by simpa using hlt, ?_, fun n hn => ?_⟩
  · rwa [List.getElem_set_ne hij]
  · rw [List.getElem_set]
    split_ifs
    · simpa using hb
    · exact hfirst n hn

/-- The manifest after one store of it. -/
theorem Together.manifest_of_store (hC : L.cbor.Lawful) {m : Manifest} (hm : m.validText = true)
    (h : Together nodeEnv s ps (u ++ (b, ⟨.storePut (manifestKey m.fileID) (L.cbor.manifest.marshal m),
      .ok ()⟩) :: v) s' ps')
    (hv : ∀ x ∈ v, ¬ Stores m.fileID x.2) : s'.manifest L m.fileID = some m.norm := by
  obtain ⟨t, qs, -, h₂⟩ := h.split
  cases h₂ with
  | step i hi hs h₂ =>
    rcases hs with ⟨-, rfl⟩ | ⟨⟨e, he⟩, -⟩
    · rw [NodeState.manifest_congr (h₂.get_of_not_stores hv)]
      exact NodeState.manifest_of_put hC hm rfl
    · exact absurd he (by simp)

/-- Where both scans store the manifest of a file, one does it first, and there is no other time. -/
theorem Together.exists_stores (hC : L.cbor.Lawful) (hfiled : s.FiledManifests L)
    (h : Together nodeEnv s (scans L self peer) tr s' ps')
    (hstores : ∀ b, ∃ e ∈ own b tr, Stores fileID e) :
    ∃ b u e v e' v', tr = u ++ (b, e) :: (v ++ (!b, e') :: v') ∧ Stores fileID e ∧ Stores fileID e' ∧
      (∀ x ∈ u, ¬ Stores fileID x.2) ∧ (∀ x ∈ v, ¬ Stores fileID x.2) ∧
      ∀ x ∈ v', ¬ Stores fileID x.2 := by
  have hsome : ∃ x ∈ tr, Stores fileID x.2 := by
    obtain ⟨e, hmem, he⟩ := hstores true
    exact ⟨_, mem_own.mp hmem, he⟩
  obtain ⟨u, b, e, w, htr, he, hu⟩ := exists_first_stores hsome
  obtain ⟨e', hmem', he'⟩ := hstores (!b)
  have hin : (!b, e') ∈ w := by
    have := mem_own.mp hmem'
    rw [htr] at this
    rcases List.mem_append.mp this with hmem | hmem
    · exact absurd he' (hu _ hmem)
    · exact (List.mem_cons.mp hmem).resolve_left fun heq => absurd (congrArg Prod.fst heq) (by simp)
  obtain ⟨v, v', rfl⟩ := List.append_of_mem hin
  have htr' : tr = (u ++ (b, e) :: v) ++ (!b, e') :: v' := by rw [htr]; simp
  have honce : ∀ {e''}, Stores fileID e'' → (b, e'') ∉ v ++ (!b, e') :: v' := fun hst =>
    (h.stores_once hC hfiled htr he hst).2
  have honce' : ∀ {e''}, Stores fileID e'' → (!b, e'') ∉ u ++ (b, e) :: v ∧ (!b, e'') ∉ v' :=
    fun hst => h.stores_once hC hfiled htr' he' hst
  refine ⟨b, u, e, v, e', v', htr, he, he', hu, ?_, ?_⟩
  · rintro ⟨c, e''⟩ hx hst
    rcases Bool.eq_or_eq_not c b with rfl | rfl
    · exact honce hst (List.mem_append_left _ hx)
    · exact (honce' hst).1 (List.mem_append_right _ (List.mem_cons_of_mem _ hx))
  · rintro ⟨c, e''⟩ hx hst
    rcases Bool.eq_or_eq_not c b with rfl | rfl
    · exact honce hst (List.mem_append_right _ (List.mem_cons_of_mem _ hx))
    · exact (honce' hst).2 hx

/-- A file has two holders replaced, by two different peers. -/
def BothReplaced (L : Libs) (s : NodeState) (fileID : Bytes) (slot : Bool → ℕ) (peer : Bool → Bytes) :
    Prop :=
  ∃ (m : Manifest) (a : Bool → Bytes), s.manifest L fileID = some m ∧
    (∀ b, m.holders[slot b]? = some (a b) ∧ a b ≠ peer b) ∧ a true ≠ a false

section Stored

variable {m : Manifest} {slot : Bool → ℕ} {v' : List (Bool × NodeEvent)} {e' : NodeEvent}

/-- What the scan that stores first has stored. -/
theorem Together.first_stored (hC : L.cbor.Lawful) (hfiled : s.FiledManifests L)
    (hm : s.manifest L fileID = some m)
    (hslot : ∀ b, m.holders.findIdx? (· = peer b) = some (slot b))
    (h : Together nodeEnv s (scans L self peer) (u ++ (b, e) :: v) s' ps') (he : Stores fileID e)
    (hu : ∀ x ∈ u, ¬ Stores fileID x.2) :
    own b u ≠ [] ∧ ∃ spare, spare ∉ m.holders ∧
      (∃ entry mem, L.cbor.member.unmarshal entry = .ok mem ∧ mem.peerID = spare) ∧
      e = ⟨.storePut (manifestKey fileID) (L.cbor.manifest.marshal (m.replaceHolder (slot b) spare)),
        .ok ()⟩ := by
  obtain ⟨raw, rfl⟩ := he
  obtain ⟨-, u₁, e₁, u₂, t, qs, m₁, i, spare, rfl, -, ht, hm₁, hi, hnot, hspare, rfl⟩ :=
    h.scan_read hC hfiled rfl
  -- Nothing was stored of the file before the list was read.
  have hsame : t.manifest L fileID = s.manifest L fileID :=
    NodeState.manifest_congr (ht.get_of_not_stores fun x hx => hu x (List.mem_append_left _ hx))
  obtain rfl : m = m₁ := Option.some.inj (hm.symm.trans (hsame.symm.trans hm₁))
  obtain rfl : slot b = i := Option.some.inj ((hslot b).symm.trans hi)
  exact ⟨by simp, spare, hnot, hspare, rfl⟩

/-- What the other scan stores after it. If it had started before, it has the manifest as it was at first;
otherwise it has what the first scan has stored. -/
theorem Together.second_stored (hC : L.cbor.Lawful) (hS : L.cbor.Strict) (hfiled : s.FiledManifests L)
    (hm : s.manifest L fileID = some m)
    (hslot : ∀ b, m.holders.findIdx? (· = peer b) = some (slot b)) (hpeer : peer b ≠ peer (!b))
    (h : Together nodeEnv s (scans L self peer) (u ++ (b, e) :: (v ++ (!b, e') :: v')) s' ps')
    {spare : Bytes} (hnot : spare ∉ m.holders)
    (hspare : ∃ entry mem, L.cbor.member.unmarshal entry = .ok mem ∧ mem.peerID = spare)
    (he : e = ⟨.storePut (manifestKey fileID)
      (L.cbor.manifest.marshal (m.replaceHolder (slot b) spare)), .ok ()⟩)
    (he' : Stores fileID e') (hu : ∀ x ∈ u, ¬ Stores fileID x.2) (hv : ∀ x ∈ v, ¬ Stores fileID x.2) :
    ∃ m₁ spare', m₁ = (if own (!b) u = [] then (m.replaceHolder (slot b) spare).norm else m) ∧
      spare' ∉ m₁.holders ∧
      (∃ entry mem, L.cbor.member.unmarshal entry = .ok mem ∧ mem.peerID = spare') ∧
      e' = ⟨.storePut (manifestKey fileID)
        (L.cbor.manifest.marshal (m₁.replaceHolder (slot (!b)) spare')), .ok ()⟩ := by
  obtain ⟨raw, rfl⟩ := he'
  have htr : u ++ (b, e) :: (v ++ (!b, ⟨.storePut (manifestKey fileID) raw, .ok ()⟩) :: v') =
      (u ++ (b, e) :: v) ++ (!b, ⟨.storePut (manifestKey fileID) raw, .ok ()⟩) :: v' := by simp
  obtain ⟨-, u₁, e₁, u₂, t, qs, m₁, i, spare', hsplit, hown, ht, hm₁, hi, hnot', hspare', rfl⟩ :=
    h.scan_read hC hfiled htr
  have hfileID : m.fileID = fileID := NodeState.fileID_of_manifest hfiled hm
  have hvalid : m.validText = true := NodeState.validText_of_manifest hS hm
  rcases List.append_eq_append_iff.mp hsplit with ⟨a, rfl, ha⟩ | ⟨a, rfl, ha⟩
  · -- The list was read after the first scan had stored.
    cases a with
    | nil => exact absurd (congrArg Prod.fst (List.cons.inj ha).1) (by simp)
    | cons x a =>
      obtain ⟨rfl, rfl⟩ := List.cons.inj ha
      rw [own_append, List.append_eq_nil_iff] at hown
      subst he
      subst hfileID
      have hstored : t.manifest L m.fileID = some (m.replaceHolder (slot b) spare).norm :=
        Together.manifest_of_store (m := m.replaceHolder (slot b) spare) hC
          (validText_replaceHolder hS hvalid hspare) ht
          fun x hx => hv x (List.mem_append_left _ hx)
      obtain rfl := Option.some.inj (hm₁.symm.trans hstored)
      refine ⟨_, spare', (if_pos hown.1).symm, hnot', hspare', ?_⟩
      have hat := getElem?_of_findIdx? (hslot (!b))
      have hslots : slot b ≠ slot (!b) := fun heq =>
        hpeer (Option.some.inj ((getElem?_of_findIdx? (hslot b)).symm.trans (heq ▸ hat)))
      have hother : spare ≠ peer (!b) := by
        rintro rfl
        exact hnot (List.mem_of_getElem? hat)
      obtain rfl : slot (!b) = i :=
        Option.some.inj ((findIdx?_set (hslot (!b)) hslots hother).symm.trans hi)
      rfl
  · -- The list was read before.
    cases a with
    | nil => exact absurd (congrArg Prod.fst (List.cons.inj ha).1) (by simp)
    | cons x a =>
      obtain ⟨rfl, -⟩ := List.cons.inj ha
      have hsame : t.manifest L fileID = s.manifest L fileID :=
        NodeState.manifest_congr (ht.get_of_not_stores fun x hx => hu x (List.mem_append_left _ hx))
      obtain rfl : m = m₁ := Option.some.inj (hm.symm.trans (hsame.symm.trans hm₁))
      refine ⟨m, spare', by simp, hnot', hspare', ?_⟩
      obtain rfl : slot (!b) = i := Option.some.inj ((hslot (!b)).symm.trans hi)
      rfl

end Stored

/-- Programs that have both started before anything is stored are not apart. -/
theorem not_apart {x : Bool × NodeEvent} (hu : ∀ y ∈ u, ¬ Stores fileID y.2)
    (hstarted : ∀ b, own b u ≠ []) : ¬ Apart fileID (u ++ x :: v) := by
  rintro ⟨c, u', e', w, htr, hst, hc⟩
  have hsub : u <+: u' := by
    rcases List.append_eq_append_iff.mp htr with ⟨a, rfl, -⟩ | ⟨a, rfl, ha⟩
    · exact List.prefix_append _ _
    · cases a with
      | nil => simp
      | cons y a =>
        obtain ⟨rfl, -⟩ := List.cons.inj ha
        exact absurd hst (hu (c, e') (by simp))
  obtain ⟨a, rfl⟩ := hsub
  rw [own_append, List.append_eq_nil_iff] at hc
  exact hstarted (!c) hc.1

/-- A second replacement, made in the list with the first one, keeps it. -/
theorem replaced_twice {holders : List Bytes} {slot : Bool → ℕ} {spare spare' : Bytes}
    (hholder : ∀ b, holders[slot b]? = some (peer b)) (hslots : slot b ≠ slot (!b)) (hnot : spare ∉ holders)
    (hnot' : spare' ∉ holders.set (slot b) spare) (c : Bool) :
    ((holders.set (slot b) spare).set (slot (!b)) spare')[slot c]? = some (if c = b then spare else spare') ∧
      (if c = b then spare else spare') ≠ peer c := by
  have hat' : (holders.set (slot b) spare)[slot (!b)]? = some (peer (!b)) := by
    rw [List.getElem?_set_ne hslots, hholder]
  rcases Bool.eq_or_eq_not c b with rfl | rfl
  · rw [List.getElem?_set_ne hslots.symm, if_pos rfl,
      List.getElem?_set_self (List.getElem?_eq_some_iff.mp (hholder c)).1]
    exact ⟨rfl, fun heq => hnot (heq ▸ List.mem_of_getElem? (hholder c))⟩
  · rw [List.getElem?_set_self (List.getElem?_eq_some_iff.mp hat').1, if_neg (by simp)]
    exact ⟨rfl, fun heq => hnot' (heq ▸ List.mem_of_getElem? hat')⟩

/-- Two scans that run at the same time for two holders of a file, and both replace their holder, keep both
replacements, by different peers, exactly if one of them has stored the manifest before the other one has
started. -/
theorem repairs_kept_iff (hC : L.cbor.Lawful) (hS : L.cbor.Strict) (hfiled : s.FiledManifests L)
    {m : Manifest} (hm : s.manifest L fileID = some m) {slot : Bool → ℕ}
    (hslot : ∀ b, m.holders.findIdx? (· = peer b) = some (slot b)) (hpeer : peer true ≠ peer false)
    (h : Together nodeEnv s (scans L self peer) tr s' fun _ => ret ())
    (hstores : ∀ b, ∃ e ∈ own b tr, Stores fileID e) :
    BothReplaced L s' fileID slot peer ↔ Apart fileID tr := by
  obtain ⟨b, u, e, v, e', v', rfl, he, he', hu, hv, hv'⟩ := h.exists_stores hC hfiled hstores
  have hpeers : ∀ b, peer b ≠ peer (!b) := fun b => by cases b <;> simp [hpeer, hpeer.symm]
  have hholder : ∀ b, m.holders[slot b]? = some (peer b) := fun b => getElem?_of_findIdx? (hslot b)
  have hslots : slot b ≠ slot (!b) := fun heq =>
    hpeers b (Option.some.inj ((hholder b).symm.trans (heq ▸ hholder (!b))))
  obtain ⟨hown, spare, hnot, hspare, he⟩ := h.first_stored hC hfiled hm hslot he hu
  obtain ⟨m₁, spare', hm₁, hnot', hspare', rfl⟩ := h.second_stored hC hS hfiled hm hslot
    (hpeers b) hnot hspare he he' hu hv
  have hfileID : m.fileID = fileID := NodeState.fileID_of_manifest hfiled hm
  have hvalid : m.validText = true := NodeState.validText_of_manifest hS hm
  -- The manifest in the end is the one that was stored last.
  have hfinal : s'.manifest L fileID = some (m₁.replaceHolder (slot (!b)) spare').norm := by
    have hvalid₁ : m₁.validText = true := by
      rw [hm₁]
      split_ifs
      · exact validText_replaceHolder hS hvalid hspare
      · exact hvalid
    have hfileID₁ : m₁.fileID = fileID := by
      rw [hm₁]
      split_ifs
      · exact hfileID
      · exact hfileID
    rw [← hfileID₁] at h hv' ⊢
    rw [← List.cons_append, ← List.append_assoc] at h
    exact Together.manifest_of_store (m := m₁.replaceHolder (slot (!b)) spare') hC
      (validText_replaceHolder hS hvalid₁ hspare') h hv'
  by_cases hlate : own (!b) u = []
  · -- The second scan works on what the first one has stored.
    refine iff_of_true ?_ ⟨b, u, e, _, rfl, ⟨_, he⟩, hlate⟩
    rw [if_pos hlate] at hm₁
    subst hm₁
    have hmem : spare ∈ m.holders.set (slot b) spare :=
      List.mem_set (List.getElem?_eq_some_iff.mp (hholder b)).1 _
    have hne : spare ≠ spare' := fun heq => hnot' (heq ▸ hmem)
    refine ⟨_, fun c => if c = b then spare else spare', hfinal, replaced_twice hholder hslots hnot hnot', ?_⟩
    cases b
    · simpa using hne.symm
    · simpa using hne
  · -- The second scan takes the holder back that the first one has replaced.
    refine iff_of_false ?_ ?_
    · rintro ⟨m', a, hm', ha, -⟩
      rw [if_neg hlate] at hm₁
      subst hm₁
      obtain rfl := Option.some.inj (hfinal.symm.trans hm')
      have hback : (m₁.holders.set (slot (!b)) spare')[slot b]? = some (peer b) := by
        rw [List.getElem?_set_ne hslots.symm, hholder]
      exact (ha b).2 (Option.some.inj ((ha b).1.symm.trans hback))
    · refine not_apart hu fun c => ?_
      rcases Bool.eq_or_eq_not c b with rfl | rfl
      · exact hown
      · exact hlate

/-- Whatever follows, a program that has stored the manifest first is apart from the other one. -/
theorem apart_of_mem {evs : List NodeEvent} (he : e ∈ evs) (hst : Stores fileID e) (b : Bool)
    (rest : List (Bool × NodeEvent)) : Apart fileID (evs.map (fun e => (b, e)) ++ rest) := by
  obtain ⟨u, v, rfl⟩ := List.append_of_mem he
  refine ⟨b, u.map fun e => (b, e), e, v.map (fun e => (b, e)) ++ rest, by simp, hst, ?_⟩
  simp [own]

end Overlap

/-! ## Two scans of the sample node -/

/-- A file at two peers that are down and at the node itself. -/
def sampleHolders : List Bytes := [lit "carol", lit "dave", sampleService.self]

/-- The two peers that are down. -/
def samplePeers (b : Bool) : Bytes := if b then lit "carol" else lit "dave"

/-- Their slots. -/
def sampleSlots (b : Bool) : ℕ := if b then 0 else 1

/-- A scan reads the manifests, of which there is one. -/
theorem steps_sampleRead {s : NodeState} {hs : List Bytes} (h : s.manifests sampleLibs = [sampleFile hs])
    (peer : Bytes) :
    Steps nodeEnv s (scanForOfflinePeer sampleLibs sampleService.self peer)
      [⟨.storeIterate manifestPrefix, (s.scan manifestPrefix, none)⟩] s
      (repairFiles sampleLibs sampleService.self peer [sampleFile hs]) := by
  refine .op ⟨rfl, .inl rfl⟩ ?_
  unfold NodeState.manifests at h
  simp only [bind_eq, pure_eq, ret_bind, h]
  exact .refl _ _

/-- Both programs have ended. -/
theorem update_both (ps : Bool → NodeM Unit) :
    Function.update (Function.update ps true (ret ())) false (ret ()) = fun _ => ret () := by
  funext b
  cases b <;> rfl

/-- Both scans read the manifest, then one replaces its holder, then the other. The second has the first
holder as it was and puts it back. -/
theorem sampleOwner_loses_repair :
    (sampleOwner sampleHolders).1.FiledManifests sampleLibs ∧
    (sampleOwner sampleHolders).1.manifest sampleLibs (lit "0123456789abcdef") =
      some (sampleFile sampleHolders) ∧
    (∀ b, (sampleFile sampleHolders).holders.findIdx? (· = samplePeers b) = some (sampleSlots b)) ∧
    ∃ tr s', Together nodeEnv (sampleOwner sampleHolders).1
        (scans sampleLibs sampleService.self samplePeers) tr s' (fun _ => ret ()) ∧
      (∀ b, ∃ e ∈ own b tr, Stores (lit "0123456789abcdef") e) ∧
      ¬ BothReplaced sampleLibs s' (lit "0123456789abcdef") sampleSlots samplePeers := by
  have hvalid : ∀ h ∈ sampleHolders, validUTF8 h = true := by decide
  let live : Bytes → Bool := fun h => h = lit "alice"
  have hdown : ∀ h ∈ sampleHolders, h ≠ sampleService.self → live h = false := by decide
  have hlist := manifests_sampleOwner hvalid
  have hspare : ∃ p, (p = lit "alice" ∨ p = lit "bob") ∧ p ∉ sampleHolders ∧ live p = true :=
    ⟨lit "alice", by decide⟩
  obtain ⟨evs₁, s₁, spare₁, h₁, hst₁, -⟩ := exists_sampleScan (h := lit "carol")
    (by decide) (by decide) rfl hdown (show _ = some 0 by decide) (by decide) (sampleOwner sampleHolders)
    hspare
  obtain ⟨evs₂, s₂, spare₂, h₂, hst₂, hstore₂, hlive₂, -⟩ := exists_sampleScan
    (h := lit "dave") (by decide) (by decide) rfl hdown (show _ = some 1 by decide) (by decide) s₁ hspare
  have hspare₂ : validUTF8 spare₂ = true := by
    obtain rfl : spare₂ = lit "alice" := by simpa [live] using hlive₂
    decide
  -- Both scans read the list before one of them stores.
  have hr₁ := Together.alone (i := true) (steps_sampleRead hlist (lit "carol"))
    (show scans sampleLibs sampleService.self samplePeers true = _ from rfl)
  have hr₂ := hr₁.trans (Together.alone (i := false) (steps_sampleRead hlist (lit "dave")) rfl)
  have hr₃ := hr₂.trans (Together.alone (i := true) (steps_of_keeper h₁) rfl)
  have hr₄ := hr₃.trans (Together.alone (i := false) (steps_of_keeper h₂) rfl)
  rw [update_both] at hr₄
  refine ⟨filed_sampleOwner hvalid, manifest_sampleOwner hvalid, by decide, _, s₂.1, hr₄, ?_, ?_⟩
  · intro b
    cases b
    · exact ⟨_, mem_own.mpr (List.mem_append_right _ (List.mem_map_of_mem hst₂)), _, rfl⟩
    · exact ⟨_, mem_own.mpr (List.mem_append_left _
        (List.mem_append_right _ (List.mem_map_of_mem hst₁))), _, rfl⟩
  · rintro ⟨m', a, hm', ha, -⟩
    have hvalid₂ : (sampleFile (sampleHolders.set 1 spare₂)).validText = true := by
      refine validText_sampleFile fun h hh => ?_
      rcases List.mem_or_eq_of_mem_set hh with hh | rfl
      · exact hvalid h hh
      · exact hspare₂
    have hfinal := NodeState.manifest_of_put (m := sampleFile (sampleHolders.set 1 spare₂))
      sampleCbor_lawful hvalid₂ hstore₂
    obtain rfl := Option.some.inj (hfinal.symm.trans hm')
    exact (ha true).2 (Option.some.inj (ha true).1).symm

/-- The same scans one after the other, where the second one has another spare, replace both holders. -/
theorem sampleOwner_keeps_repairs :
    ∃ tr s', Together nodeEnv (sampleOwner sampleHolders).1
        (scans sampleLibs sampleService.self samplePeers) tr s' (fun _ => ret ()) ∧
      (∀ b, ∃ e ∈ own b tr, Stores (lit "0123456789abcdef") e) ∧
      BothReplaced sampleLibs s' (lit "0123456789abcdef") sampleSlots samplePeers := by
  have hvalid : ∀ h ∈ sampleHolders, validUTF8 h = true := by decide
  let live₁ : Bytes → Bool := fun h => h = lit "alice"
  let live₂ : Bytes → Bool := fun h => h = lit "bob"
  have hdown : ∀ h ∈ sampleHolders, h ≠ sampleService.self → live₁ h = false := by decide
  obtain ⟨evs₁, s₁, spare₁, h₁, hst₁, hstore₁, hlive₁, -⟩ :=
    exists_sampleScan (h := lit "carol") (by decide) (by decide) rfl hdown (show _ = some 0 by decide)
      (by decide) (sampleOwner sampleHolders) ⟨lit "alice", by decide⟩
  obtain rfl : spare₁ = lit "alice" := by simpa [live₁] using hlive₁
  have hvalid₁ : ∀ h ∈ sampleHolders.set 0 (lit "alice"), validUTF8 h = true := by decide
  have hdown₁ : ∀ h ∈ sampleHolders.set 0 (lit "alice"), h ≠ sampleService.self → live₂ h = false := by
    decide
  obtain ⟨evs₂, s₂, spare₂, h₂, hst₂, -⟩ := exists_sampleScan
    (h := lit "dave") (by decide) (by decide) rfl hdown₁ (show _ = some 1 by decide) (by decide) s₁
    ⟨lit "bob", by decide⟩
  -- The second scan reads what the first one has stored.
  have hlist₁ := manifests_of_sampleOwner hvalid₁ hstore₁
  have hr₁ := Together.alone (i := true) (steps_sampleRead (manifests_sampleOwner hvalid) (lit "carol"))
    (show scans sampleLibs sampleService.self samplePeers true = _ from rfl)
  have hr₂ := hr₁.trans (Together.alone (i := true) (steps_of_keeper h₁) rfl)
  have hr₃ := hr₂.trans (Together.alone (i := false) (steps_sampleRead hlist₁ (lit "dave")) rfl)
  have hr₄ := hr₃.trans (Together.alone (i := false) (steps_of_keeper h₂) rfl)
  rw [Function.update_idem, Function.update_idem, update_both] at hr₄
  refine ⟨_, s₂.1, hr₄, ?stores, (repairs_kept_iff sampleCbor_lawful sampleCbor_strict
    (filed_sampleOwner hvalid) (manifest_sampleOwner hvalid) (by decide) (by decide) hr₄
    ?stores).mpr ?apart⟩
  case stores =>
    intro b
    cases b
    · exact ⟨_, mem_own.mpr (List.mem_append_right _ (List.mem_map_of_mem hst₂)), _, rfl⟩
    · exact ⟨_, mem_own.mpr (List.mem_append_left _ (List.mem_append_left _
        (List.mem_append_right _ (List.mem_map_of_mem hst₁)))), _, rfl⟩
  case apart =>
    rw [← List.map_append, List.append_assoc]
    exact apart_of_mem (List.mem_append_right _ hst₁) ⟨_, rfl⟩ true _

end FnShare
