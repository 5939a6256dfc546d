import Mathlib.Logic.Relation
import FnShare.Ledger
import FnShare.Repair.Commit

/-!
# The redundancy floor

A daemon pings its peers, and runs a scan for each one that has gone offline. A scan replaces a holder only
when no more than `DataShards` holders are up, and it replaces only the one that was lost last. This is
enough: as long as peers drop out one at a time, the holders that are up serve their shards and there is a
spare that takes them, one holder more than needed stays up (`redundancy_floor`).
-/

namespace FnShare

open Prog

/-- What a scan meets for a file with the holders and shards of `m`: the ledger has the peers of `live`
online, the disk works, the holders that are up serve their shards, and `spare` is the one to be found among
the members and takes the shards. -/
def Attends (L : Libs) (me : Bytes) (live : Bytes → Bool) (m : Manifest) (code : Stripe → List Bytes)
    (spare : Bytes) : (o : NodeOp) → o.Ans → Prop
  | .isOnline h, r => r = live h
  | .storeIterate pre, r => r.2 = none ∧ (pre = memberPrefix m.groupID →
      (spareOf me live m.holders (decodeValues L.cbor.member r.1)).map Member.peerID = some spare)
  | .storePut _ _, r => r = .ok ()
  | .blockGet id, r => ∀ st ∈ m.stripes, ∀ i : ℕ, st.shardIDs[i]? = some id →
      (∀ d, r = .ok d → (code st)[i]? = some d) ∧ (m.holders[i]? = some me → ∃ d, r = .ok d)
  | .blockPut _ data, r => spare = me → (∃ st ∈ m.stripes, data ∈ code st) → r = .ok ()
  | .request pid ⟨.getShard, id, _⟩, r => ∀ st ∈ m.stripes, ∀ (i : ℕ) (h : Bytes),
      m.holders[i]? = some h → h ≠ me → live h = true → L.peerDecode h = .ok pid →
      st.shardIDs[i]? = some id → ∃ resp, r = .ok resp ∧ resp.ok = true ∧ (code st)[i]? = some resp.body
  | .request pid ⟨.putShard, _, data⟩, r => L.peerDecode spare = .ok pid →
      (∃ st ∈ m.stripes, data ∈ code st) → ∃ resp, r = .ok resp ∧ resp.ok = true
  | _, _ => True

/-- A node of which this holds. -/
def attendEnv (L : Libs) (me : Bytes) (live : Bytes → Bool) (m : Manifest) (code : Stripe → List Bytes)
    (spare : Bytes) : Env NodeSig NodeState where
  step s o r s' := s.step o r s' ∧ Attends L me live m code spare o r
  guard _ _ := True

/-- The holders that are up can be contacted, and so can the spare. -/
structure Contactable (L : Libs) (me : Bytes) (live : Bytes → Bool) (m : Manifest) (spare : Bytes) :
    Prop where
  holders : ∀ h ∈ m.holders, h ≠ me → live h = true → ∃ pid, L.peerDecode h = .ok pid
  ne_nil : spare ≠ []
  spare : spare ≠ me → ∃ pid, L.peerDecode spare = .ok pid

/-- A file that can be repaired: its holders are different, and its stripes have their shards. -/
structure Sound (L : Libs) (code : Stripe → List Bytes) (m : Manifest) : Prop where
  distinct : m.holders.Nodup
  length : (m.holders.length : ℤ) = m.dataShards + m.parityShards
  coded : ∀ st ∈ m.stripes, ∃ ct, Coded L m st ct (code st)

/-- A file of which more than `DataShards` holders are up. -/
def Redundant (me : Bytes) (live : Bytes → Bool) (m : Manifest) : Prop :=
  m.dataShards + 1 ≤ m.holders.countP (isUp me live)

/-! ## Counting the holders that are up -/

section Count

variable {f g : Bytes → Bool} {hs : List Bytes}

/-- Without one peer, the count is one less at most. -/
theorem countP_le_add_one (hdistinct : hs.Nodup) {p : Bytes} (h : ∀ x ∈ hs, x ≠ p → f x = true → g x = true) :
    hs.countP f ≤ hs.countP g + 1 := by
  induction hs with
  | nil => simp
  | cons a hs ih =>
    obtain ⟨hnot, hdistinct'⟩ := List.nodup_cons.mp hdistinct
    rw [List.countP_cons, List.countP_cons]
    by_cases ha : a = p
    · -- The others are all counted as before.
      have hle : hs.countP f ≤ hs.countP g := List.countP_mono_left fun x hx =>
        h x (List.mem_cons_of_mem _ hx) fun heq => hnot ((ha.trans heq.symm) ▸ hx)
      split_ifs <;> omega
    · have hle := ih hdistinct' fun x hx => h x (List.mem_cons_of_mem _ hx)
      have hstep := h a List.mem_cons_self ha
      split_ifs with h₁ h₂
      · omega
      · exact absurd (hstep h₁) h₂
      · omega
      · omega

/-- With another peer that counts in a slot, the count is not less, and one more if the slot did not
count. -/
theorem countP_set {slot : ℕ} {p q : Bytes} (hslot : hs[slot]? = some p) (hq : f q = true) :
    (hs.set slot q).countP f = hs.countP f + if f p then 0 else 1 := by
  induction hs generalizing slot with
  | nil => simp at hslot
  | cons a hs ih =>
    cases slot with
    | zero =>
      obtain rfl : a = p := by simpa using hslot
      rw [List.set_cons_zero, List.countP_cons, List.countP_cons, if_pos hq]
      split_ifs <;> omega
    | succ slot =>
      rw [List.set_cons_succ, List.countP_cons, List.countP_cons, ih (by simpa using hslot)]
      omega

end Count

/-! ## One scan -/

section Scan

variable {L : Libs} {me : Bytes} {live : Bytes → Bool} {m : Manifest} {code : Stripe → List Bytes}
  {spare p : Bytes} {slot : ℕ}
variable {s : NodeState} {evs : List NodeEvent}

/-- What the holders that are up serve is enough for the loop over the slots. -/
theorem serving_of_attends (hcontact : Contactable L me live m spare) {st : Stripe} (hst : st ∈ m.stripes) :
    Serving L me (attendEnv L me live m code spare) live m st (code st) where
  guard _ _ := trivial
  online h := h.2
  found hid h := (h.2 st hst _ hid).1 _ rfl
  own hholder hid h := by
    obtain ⟨d, hd⟩ := (h.2 st hst _ hid).2 hholder
    exact absurd hd (by simp)
  held hholder hne hlive := by
    obtain ⟨pid, hpid⟩ := hcontact.holders _ (List.mem_of_getElem? hholder) hne hlive
    exact ⟨pid, hpid, fun hid h => h.2 st hst _ _ hholder hne hlive hpid hid⟩

/-- The spare takes the shards. -/
theorem repairable_of_attends (hcontact : Contactable L me live m spare) :
    Repairable L me (attendEnv L me live m code spare) live m slot code where
  guard _ _ := trivial
  panic := .inr fun _ => trivial
  online h := h.2
  members := by
    rintro w pairs err w' ⟨-, hnone, hspare⟩
    refine ⟨hnone, fun mem hmem st hst d hd => ?_⟩
    obtain rfl : mem.peerID = spare := by simpa [hmem] using hspare rfl
    have hcode : ∃ st ∈ m.stripes, d ∈ code st := ⟨st, hst, List.mem_of_getElem? hd⟩
    by_cases hself : mem.peerID = me
    · refine .inl ⟨hself, ?_⟩
      rintro w e w' ⟨-, hput⟩
      exact absurd (hput hself hcode) (by simp)
    · obtain ⟨pid, hpid⟩ := hcontact.spare hself
      exact .inr ⟨hself, pid, hpid, fun h => h.2 hpid hcode⟩
  save := by
    rintro w raw e w' ⟨-, hr⟩
    obtain ⟨⟩ : Except.error e = Except.ok () := hr

/-- What the scan does, the node does on its disk. -/
theorem steps_of_attends {α : Type} {s' : NodeState} {q q' : NodeM α}
    (h : Steps (attendEnv L me live m code spare) s q evs s' q') : Steps nodeEnv s q evs s' q' :=
  h.mono fun _ _ _ _ (hs : (attendEnv L me live m code spare).step _ _ _ _) => hs.1

/-- What was found up is up. -/
theorem isUp_of_attends {α : Type} {s' : NodeState} {q q' : NodeM α}
    (h : Steps (attendEnv L me live m code spare) s q evs s' q') {peer : Bytes} {online : Bool}
    (he : ⟨.isOnline peer, online⟩ ∈ evs) : online = live peer := by
  obtain ⟨v, v', hstep⟩ := h.exists_step _ he
  exact hstep.2

/-- If enough holders were found up, more than `DataShards` are. -/
theorem redundant_of_enoughLive (hon : ∀ {peer online}, ⟨.isOnline peer, online⟩ ∈ evs → online = live peer)
    (h : EnoughLive me m evs) : Redundant me live m := by
  obtain ⟨up, hsub, hcount, hup⟩ := h
  have hall : up.countP (isUp me live) = up.length := by
    refine List.countP_eq_length.mpr fun x hx => ?_
    rcases hup x hx with rfl | hmem
    · simp [isUp]
    · simp [isUp, ← hon hmem]
  have hle := hsub.countP_le (p := isUp me live)
  unfold Redundant
  omega

/-- There is a spare to be found. -/
theorem not_noSpare {members : List Member}
    (hon : ∀ {peer online}, ⟨.isOnline peer, online⟩ ∈ evs → online = live peer)
    (hspare : (spareOf me live m.holders members).map Member.peerID = some spare) (hne : spare ≠ []) :
    ¬ NoSpare me m members evs := by
  have hpassed : ∀ {mem}, PassedOver me m.holders mem evs →
      (decide (mem.peerID ∉ m.holders) && isUp me live mem.peerID) = false := by
    rintro mem (hmem | ⟨hself, hoff⟩)
    · simp [hmem]
    · simp [isUp, hself, ← hon hoff]
  obtain ⟨mem, hmem, hpeer⟩ := Option.map_eq_some_iff.mp hspare
  rintro (⟨before, mem', after, rfl, hbefore, hnil, hnot, hup⟩ | ⟨-, hall⟩)
  · -- The first member that is up and no holder would be the one with the empty id.
    have hfit : isUp me live mem'.peerID = true := by
      rcases hup with hself | hmem
      · simp [isUp, hnil, hself]
      · simp [isUp, hnil, ← hon hmem]
    have hfirst : spareOf me live m.holders (before ++ mem' :: after) = some mem' := by
      refine List.find?_eq_some_iff_append.mpr ⟨?_, before, after, rfl, fun x hx => ?_⟩
      · rw [hfit, hnil, decide_eq_true hnot]
        rfl
      · rw [hpassed (hbefore x hx)]
        rfl
    rw [hfirst] at hmem
    exact hne (hpeer.symm.trans ((congrArg Member.peerID (Option.some.inj hmem)).symm.trans hnil))
  · have hfit := List.find?_some hmem
    rw [hpassed (hall mem (List.mem_of_find?_eq_some hmem))] at hfit
    exact absurd hfit (by simp)

/-- A node has the manifest of a file with `k` data shards that can be repaired, and enough of its holders
are up. -/
def Upheld (L : Libs) (me : Bytes) (live : Bytes → Bool) (code : Stripe → List Bytes) (fileID : Bytes) (k : ℤ)
    (s : NodeState) : Prop :=
  ∃ m, s.manifest L fileID = some m ∧ m.dataShards = k ∧ Sound L code m ∧ Redundant me live m

/-- Another holder in a slot, which was none before, leaves the file one that can be repaired. -/
theorem Sound.replaceHolder (h : Sound L code m) {q : Bytes} (hnot : q ∉ m.holders) :
    Sound L code (m.replaceHolder slot q).norm where
  distinct := h.distinct.set hnot
  length := by
    change (((m.holders.set slot q).length : ℕ) : ℤ) = _
    rw [List.length_set, h.length]
    rfl
  coded st hst := by
    obtain ⟨ct, hct⟩ := h.coded st hst
    exact ⟨ct, hct.ne_nil, hct.encode, hct.shardIDs, hct.ciphertextBytes, hct.allocatable⟩

/-- The repair of a file that has lost one of its holders, with the others serving and a spare that takes
the shards, leaves it with enough holders. -/
theorem wp_repairFile_kept (hR : L.rs.Mds) (hC : L.cbor.Lawful) (hS : L.cbor.Strict)
    (hfiled : s.FiledManifests L) (hm : s.manifest L m.fileID = some m) (hsound : Sound L code m)
    (hcontact : Contactable L me live m spare) (hslot : m.holders[slot]? = some p)
    (hcount : m.dataShards ≤ m.holders.countP (isUp me live))
    (hup : isUp me live p = true → Redundant me live m) :
    wp (attendEnv L me live m code spare) (repairFile L me m slot)
      (fun _ s' => s'.FiledManifests L ∧ Upheld L me live code m.fileID m.dataShards s') s := by
  refine wp_of_steps (fun _ _ => trivial) ?_
  intro evs s' x hsteps
  have hon : ∀ {peer online}, ⟨.isOnline peer, online⟩ ∈ evs → online = live peer :=
    isUp_of_attends hsteps
  rcases repairFile_trace (steps_of_attends hsteps) with
    ⟨hsame, hdone⟩ | ⟨q, pre, post, rfl, -, hmig, hstore, -⟩
  · -- Nothing was stored, so nothing was to be done.
    have hred : Redundant me live m := by
      by_contra hfew
      have hdown : isUp me live p = false := by simpa using fun h => hfew (hup h)
      choose! ct hct using hsound.coded
      have hserved := wp_repairFile_served hR _ (repairable_of_attends hcontact) hsound.length
        (List.getElem?_eq_some_iff.mp hslot).1
        (fun h hh => (Option.some.inj (hslot.symm.trans hh)) ▸ hdown) hcount
        (fun st hst => ⟨hct st hst, serving_of_attends hcontact hst⟩) s
      have hx := (wp_ofExcept x _ _).mp (wp_steps hsteps hserved)
      cases x with
      | error e => exact hx.elim
      | ok u =>
        rcases hdone rfl with henough | ⟨hread, hnone⟩
        · exact hfew (redundant_of_enoughLive hon henough)
        · obtain ⟨v, v', -, -, hspare⟩ := hsteps.exists_step _ hread
          exact not_noSpare hon (hspare rfl) hcontact.ne_nil hnone
    refine ⟨fun key raw m' hpre hget => hfiled key raw m' hpre (hsame ▸ hget), m, ?_, rfl, hsound, hred⟩
    rw [← hm]
    exact NodeState.manifest_congr (by rw [hsame])
  · have hvalid : (m.replaceHolder slot q).validText = true :=
      validText_replaceHolder hS (NodeState.validText_of_manifest hS hm) hmig.decoded
    -- The manifest that was stored has the spare in the slot.
    refine ⟨hfiled.put hC (m := m.replaceHolder slot q) hstore, _,
      NodeState.manifest_of_put (m := m.replaceHolder slot q) hC hvalid hstore, rfl,
      hsound.replaceHolder hmig.not_holder, ?_⟩
    have hq : isUp me live q = true := by
      rcases hmig.live with rfl | hmem
      · simp [isUp]
      · simp [isUp, ← hon (List.mem_append_left _ hmem)]
    change m.dataShards + 1 ≤ ((m.holders.set slot q).countP (isUp me live) : ℤ)
    rw [countP_set hslot hq]
    unfold Redundant at hup
    split_ifs with hp
    · simpa using hup hp
    · push_cast
      omega

/-- The repair of another file leaves the manifest as it is. -/
theorem wp_repairFile_other (hC : L.cbor.Lawful) (hfiled : s.FiledManifests L)
    {m' : Manifest} {fileID : Bytes} (hother : m'.fileID ≠ fileID) :
    wp (attendEnv L me live m code spare) (repairFile L me m' slot)
      (fun _ s' => s'.FiledManifests L ∧ s'.manifest L fileID = s.manifest L fileID) s := by
  refine wp_of_steps (fun _ _ => trivial) ?_
  intro evs s' x hsteps
  rcases repairFile_trace (steps_of_attends hsteps) with
    ⟨hsame, -⟩ | ⟨q, pre, post, -, -, -, hstore, -⟩
  · exact ⟨fun key raw m' hpre hget => hfiled key raw m' hpre (hsame ▸ hget),
      NodeState.manifest_congr (by rw [hsame])⟩
  · refine ⟨hfiled.put hC (m := m'.replaceHolder slot q) hstore, NodeState.manifest_congr ?_⟩
    rw [hstore, SortedMap.get_put_ne _ fun h => hother (manifestKey_inj h).symm]

/-- In the middle of a scan: the file has had its turn and is kept, or its manifest is as it was read. -/
def Midway (L : Libs) (me : Bytes) (live : Bytes → Bool) (code : Stripe → List Bytes) (m : Manifest)
    (rest : List Manifest) (s : NodeState) : Prop :=
  s.FiledManifests L ∧
  ((m ∈ rest ∧ s.manifest L m.fileID = some m) ∨
    ((∀ x ∈ rest, x.fileID ≠ m.fileID) ∧ Upheld L me live code m.fileID m.dataShards s))

/-- The repairs of a list of manifests. -/
theorem wp_repairFiles_kept (hR : L.rs.Mds) (hC : L.cbor.Lawful) (hS : L.cbor.Strict)
    (hsound : Sound L code m) (hcontact : Contactable L me live m spare)
    (hcount : m.dataShards ≤ m.holders.countP (isUp me live))
    (hup : p ∉ m.holders ∨ isUp me live p = true → Redundant me live m) (ms : List Manifest)
    (hdistinct : ms.Pairwise fun x y => x.fileID ≠ y.fileID) (s : NodeState)
    (h : Midway L me live code m ms s) :
    wp (attendEnv L me live m code spare) (repairFiles L me p ms)
      (fun _ s' => s'.FiledManifests L ∧ Upheld L me live code m.fileID m.dataShards s') s := by
  induction ms generalizing s with
  | nil =>
    obtain ⟨hfiled, ⟨hmem, -⟩ | ⟨-, hkept⟩⟩ := h
    · exact absurd hmem (by simp)
    · exact ⟨hfiled, hkept⟩
  | cons x ms ih =>
    obtain ⟨hx, hdistinct'⟩ := List.pairwise_cons.mp hdistinct
    obtain ⟨hfiled, hturn⟩ := h
    -- The turn of `x`, with its repair or without it.
    have hskip : x.holders.findIdx? (· = p) = none → Midway L me live code m ms s := by
      intro hnone
      refine ⟨hfiled, ?_⟩
      rcases hturn with ⟨hmem, hm⟩ | ⟨hrest, hkept⟩
      · rcases List.mem_cons.mp hmem with rfl | hmem
        · refine .inr ⟨fun y hy => (hx y hy).symm, m, hm, rfl, hsound, hup (.inl fun hp => ?_)⟩
          simpa using List.findIdx?_eq_none_iff.mp hnone p hp
        · exact .inl ⟨hmem, hm⟩
      · exact .inr ⟨fun y hy => hrest y (List.mem_cons_of_mem _ hy), hkept⟩
    have hrepair : ∀ slot, x.holders.findIdx? (· = p) = some slot →
        wp (attendEnv L me live m code spare) (repairFile L me x slot)
          (fun _ s' => Midway L me live code m ms s') s := by
      intro slot hslot
      by_cases hfile : x.fileID = m.fileID
      · obtain ⟨hmem, hm⟩ := hturn.resolve_right fun h => h.1 x List.mem_cons_self hfile
        obtain rfl : m = x := (List.mem_cons.mp hmem).resolve_right fun hmem => hx m hmem hfile
        refine wp_mono (wp_repairFile_kept hR hC hS hfiled hm hsound hcontact
          (getElem?_of_findIdx? hslot) hcount fun h => hup (.inr h)) ?_
        rintro r s' ⟨hfiled', hkept⟩
        exact ⟨hfiled', .inr ⟨fun y hy => (hx y hy).symm, hkept⟩⟩
      · refine wp_mono (wp_repairFile_other hC hfiled hfile) ?_
        rintro r s' ⟨hfiled', hsame⟩
        refine ⟨hfiled', ?_⟩
        rcases hturn with ⟨hmem, hm⟩ | ⟨hrest, m', hm', hkept⟩
        · refine .inl ⟨(List.mem_cons.mp hmem).resolve_left fun h => hfile (h ▸ rfl), hsame.trans hm⟩
        · exact .inr ⟨fun y hy => hrest y (List.mem_cons_of_mem _ hy), m', hsame.trans hm', hkept⟩
    unfold repairFiles
    cases hslot : x.holders.findIdx? (· = p) with
    | none => exact ih hdistinct' s (hskip hslot)
    | some slot =>
      have hattempt : wp (attendEnv L me live m code spare)
          (attempt (repairFile L me x slot) : NodeM (Except GoErr Unit))
          (returns fun _ s' => Midway L me live code m ms s') s :=
        (wp_attempt _ _ _).mpr (hrepair slot hslot)
      refine wp_bind_of hattempt (fun r s₁ h₁ => ?_) fun e s₁ h₁ => h₁.elim
      cases r with
      | ok u => exact ih hdistinct' s₁ h₁
      | error e =>
        -- The log line can only panic.
        have hlog := (only_slice12 (A := (· = .panic)) rfl x.fileID).wp_keeps
          (E := attendEnv L me live m code spare) (I := Midway L me live code m ms)
          (fun _ _ _ _ => trivial) (fun w o r w' _ ho hstep => ?_) h₁
        · exact wp_bind_of ((handled_slice12 _).wp_ok hlog) (fun u s₂ h₂ => ih hdistinct' s₂ h₂)
            fun e s₂ h₂ => h₂.elim
        · subst ho
          obtain rfl : w' = w := hstep.1
          assumption

/-- A scan for a peer that has gone offline leaves every file with enough holders that had one more, or of
which the peer was no holder. -/
theorem wp_scan_kept (hR : L.rs.Mds) (hC : L.cbor.Lawful) (hS : L.cbor.Strict) (hfiled : s.FiledManifests L)
    (hm : s.manifest L m.fileID = some m) (hsound : Sound L code m)
    (hcontact : Contactable L me live m spare) (hcount : m.dataShards ≤ m.holders.countP (isUp me live))
    (hup : p ∉ m.holders ∨ isUp me live p = true → Redundant me live m) :
    wp (attendEnv L me live m code spare) (scanForOfflinePeer L me p)
      (fun _ s' => s'.FiledManifests L ∧ Upheld L me live code m.fileID m.dataShards s') s := by
  refine ⟨trivial, ?_⟩
  rintro ⟨pairs, err⟩ s₁ ⟨⟨rfl, hread⟩, hnone, -⟩
  obtain rfl : err = none := hnone
  obtain rfl : pairs = s₁.scan manifestPrefix := NodeState.scan_of_step ⟨rfl, hread⟩
  simp only [bind_eq, pure_eq, ret_bind]
  exact wp_repairFiles_kept hR hC hS hsound hcontact hcount hup _ (NodeState.pairwise_manifests hfiled)
    s₁ ⟨hfiled, .inl ⟨(NodeState.mem_manifests hfiled).mpr hm, hm⟩⟩

end Scan

/-! ## The events of a daemon -/

/-- A daemon: its node, and its ledger of peers. -/
structure Daemon where
  node : NodeState
  ledger : LedgerState

/-- A ping of a peer. If the peer has gone offline by it, a scan runs to its end, in which the holders of the
file that are up serve their shards and the spare takes them. -/
inductive Daemon.Pings (L : Libs) (me fileID : Bytes) (code : Stripe → List Bytes) (d : Daemon) :
    Daemon → Prop
  | stays (p : Bytes) (ok : Bool) {t t' : ℤ} (ht : t' ≠ zeroTime)
      (h : (d.ledger.recordPing L p ok t t').2.wentOffline = false) :
      Daemon.Pings L me fileID code d ⟨d.node, (d.ledger.recordPing L p ok t t').1⟩
  | drops (p : Bytes) (ok : Bool) {t t' : ℤ} (ht : t' ≠ zeroTime)
      (h : (d.ledger.recordPing L p ok t t').2.wentOffline = true) {m : Manifest} {spare : Bytes}
      {evs : List NodeEvent} {s' : NodeState} (hm : d.node.manifest L fileID = some m)
      (hcontact : Contactable L me ((d.ledger.recordPing L p ok t t').1.isOnline L) m spare)
      (hscan : Steps (attendEnv L me ((d.ledger.recordPing L p ok t t').1.isOnline L) m code spare)
        d.node (scanForOfflinePeer L me p) evs s' (ret ())) :
      Daemon.Pings L me fileID code d ⟨s', (d.ledger.recordPing L p ok t t').1⟩

section Daemon

variable {L : Libs} {me fileID : Bytes} {code : Stripe → List Bytes} {k : ℤ}

/-- What every event keeps. -/
structure Daemon.Floor (L : Libs) (me fileID : Bytes) (code : Stripe → List Bytes) (k : ℤ) (d : Daemon) :
    Prop where
  filed : d.node.FiledManifests L
  probed : d.ledger.Probed L
  kept : Upheld L me (d.ledger.isOnline L) code fileID k d.node

/-- An event keeps the floor. -/
theorem Daemon.Floor.step (hR : L.rs.Mds) (hC : L.cbor.Lawful) (hS : L.cbor.Strict) {d d' : Daemon}
    (h : d.Floor L me fileID code k) (hstep : Daemon.Pings L me fileID code d d') :
    d'.Floor L me fileID code k := by
  obtain ⟨m, hm, rfl, hsound, hred⟩ := h.kept
  cases hstep with
  | stays p ok ht hw =>
    refine ⟨h.filed, h.probed.recordPing ht, m, hm, rfl, hsound, hred.trans ?_⟩
    -- Whoever was up still is.
    refine Int.ofNat_le.mpr (List.countP_mono_left fun x _ hx => ?_)
    unfold isUp at hx ⊢
    rcases Bool.or_eq_true_iff.mp hx with hself | hon
    · simp [hself]
    · rw [Bool.or_eq_true_iff]
      refine .inr ?_
      by_cases hxp : x = p
      · subst hxp
        exact LedgerState.isOnline_of_not_wentOffline h.probed hw hon
      · rwa [LedgerState.isOnline_recordPing_ne hxp]
  | @drops p ok t t' ht hw m' spare evs s' hm' hcontact hscan =>
    obtain rfl : m = m' := Option.some.inj (hm.symm.trans hm')
    obtain rfl : m.fileID = fileID := NodeState.fileID_of_manifest h.filed hm
    have hother : ∀ x, x ≠ p → isUp me (d.ledger.isOnline L) x = true →
        isUp me ((d.ledger.recordPing L p ok t t').1.isOnline L) x = true := by
      intro x hx hup
      unfold isUp at hup ⊢
      rwa [LedgerState.isOnline_recordPing_ne hx]
    unfold Redundant at hred
    have hcount := countP_le_add_one hsound.distinct fun x _ => hother x
    -- A peer that is no holder, or that is the node itself, is not missed.
    have hmissed : p ∉ m.holders ∨
        isUp me ((d.ledger.recordPing L p ok t t').1.isOnline L) p = true →
        Redundant me ((d.ledger.recordPing L p ok t t').1.isOnline L) m := by
      intro hp
      refine hred.trans (Int.ofNat_le.mpr (List.countP_mono_left fun x hx hup => ?_))
      by_cases hxp : x = p
      · subst hxp
        exact hp.resolve_left fun hnot => hnot hx
      · exact hother x hxp hup
    obtain ⟨hfiled, hkept⟩ := wp_steps hscan
      (wp_scan_kept hR hC hS h.filed hm hsound hcontact (by omega) hmissed)
    exact ⟨hfiled, h.probed.recordPing ht, hkept⟩

/-- Over any run of events in which one peer at a time goes offline or comes online, and the scans are
served, a file with more than `DataShards` holders up keeps more than `DataShards` different holders up. -/
theorem redundancy_floor (hR : L.rs.Mds) (hC : L.cbor.Lawful) (hS : L.cbor.Strict) {d d' : Daemon}
    (hfiled : d.node.FiledManifests L) (hprobed : d.ledger.Probed L) {m : Manifest}
    (hm : d.node.manifest L fileID = some m) (hsound : Sound L code m)
    (hred : Redundant me (d.ledger.isOnline L) m)
    (hrun : Relation.ReflTransGen (Daemon.Pings L me fileID code) d d') :
    ∃ m', d'.node.manifest L fileID = some m' ∧ m'.dataShards = m.dataShards ∧ m'.holders.Nodup ∧
      m'.dataShards + 1 ≤ m'.holders.countP (isUp me (d'.ledger.isOnline L)) := by
  have hfloor : d'.Floor L me fileID code m.dataShards := by
    induction hrun with
    | refl => exact ⟨hfiled, hprobed, m, hm, rfl, hsound, hred⟩
    | tail _ hstep ih => exact ih.step hR hC hS hstep
  obtain ⟨m', hm', hk, hsound', hred'⟩ := hfloor.kept
  exact ⟨m', hm', hk, hsound'.distinct, hred'⟩

end Daemon

/-! ## A daemon that loses a holder -/

/-- A ledger with a peer that has missed two pings, and one that has missed none. -/
def sampleLedger : LedgerState where
  store := .empty
  dirty := (SortedMap.empty.put (lit "alice")
      { peerID := lit "alice", isOnline := true, lastPingAt := 1 }).put (lit "carol")
    { peerID := lit "carol", isOnline := true, lastPingAt := 1, consecFailures := 2 }
  flushes := []

/-- One shard for each holder. -/
theorem map_shardIDs_sampleStripe (hs : List Bytes) :
    (sampleStripe hs).shardIDs.map (fun _ => sampleShard) = hs.map fun _ => sampleShard := by
  simp [sampleStripe]

/-- Whoever is online in the sample ledger was probed. -/
theorem probed_sampleLedger : sampleLedger.Probed sampleLibs := by
  intro p t hzero
  by_cases hcarol : p = lit "carol"
  · subst hcarol
    exact absurd hzero (show (1 : ℤ) ≠ zeroTime by decide)
  by_cases halice : p = lit "alice"
  · subst halice
    exact absurd hzero (show (1 : ℤ) ≠ zeroTime by decide)
  unfold LedgerState.isOnline sampleLedger
  simp only [SortedMap.get_put_ne _ hcarol, SortedMap.get_put_ne _ halice]
  rfl

/-- With the other holders of the sample file down and one member up, the node is one that a scan needs. -/
theorem attends_of_keeper {live : Bytes → Bool} {hs : List Bytes}
    (hdown : ∀ h ∈ hs, h ≠ sampleService.self → live h = false) (halice : live (lit "alice") = true)
    (hbob : live (lit "bob") = false) (hnot : lit "alice" ∉ hs) {s s' : Keeper} {o : NodeOp} {r : o.Ans}
    (h : (keeperEnv live).step s o r s') :
    (attendEnv sampleLibs sampleService.self live (sampleFile hs)
      (fun st => st.shardIDs.map fun _ => sampleShard) (lit "alice")).step s.1 o r s'.1 := by
  refine ⟨h.1, ?_⟩
  have hserves := serving_sampleFile hdown
  cases o with
  | isOnline peer => exact h.2
  | storeIterate pre =>
    obtain rfl : r = (s.1.scan pre, none) := h.2
    refine ⟨rfl, ?_⟩
    rintro rfl
    have hmembers : ∀ {mem}, mem ∈ decodeValues sampleLibs.cbor.member
        (s.1.scan (memberPrefix (sampleFile hs).groupID)) ↔ _ := s.2.2
    -- The spare that is found is the member that is up.
    cases hfind : spareOf sampleService.self live (sampleFile hs).holders
        (decodeValues sampleLibs.cbor.member (s.1.scan (memberPrefix (sampleFile hs).groupID))) with
    | none =>
      refine absurd ?_ (List.find?_eq_none.mp hfind _ (hmembers.mpr (.inl rfl)))
      rw [Bool.and_eq_true]
      exact ⟨decide_eq_true hnot, by simp [isUp, sampleMember, halice]⟩
    | some mem =>
      have hfit := List.find?_some hfind
      rcases hmembers.mp (List.mem_of_find?_eq_some hfind) with rfl | rfl
      · rfl
      · have hne : lit "bob" ≠ sampleService.self := by decide
        simp [sampleMember, isUp, hbob, hne] at hfit
  | storePut key value => exact h.2
  | blockGet id =>
    intro st hst i hid
    obtain rfl := List.mem_singleton.mp hst
    simp only [map_shardIDs_sampleStripe]
    refine ⟨fun d hd => ?_, fun hholder => ?_⟩
    · subst hd
      exact hserves.found hid h
    · cases r with
      | error e => exact absurd h (hserves.own hholder hid)
      | ok d => exact ⟨d, rfl⟩
  | blockPut id data => exact fun heq => absurd heq (by decide)
  | request pid req =>
    obtain ⟨op, id, body⟩ := req
    cases op with
    | getShard =>
      -- No other holder is up, so that none is asked for its shard.
      intro st _ i peer hpeer hne hlive
      exact absurd (hlive.symm.trans (hdown peer (List.mem_of_getElem? hpeer) hne)) (by simp)
    | putShard => exact fun _ _ => ⟨_, h.2, rfl⟩
    | _ => trivial
  | _ => trivial

/-- The third ping that the peer misses is followed by a scan, which gives its place to the other one. -/
theorem sampleDaemon_repairs :
    ∃ d' : Daemon, Relation.ReflTransGen (Daemon.Pings sampleLibs sampleService.self
        (lit "0123456789abcdef") fun st => st.shardIDs.map fun _ => sampleShard)
        ⟨(sampleOwner [lit "carol", sampleService.self]).1, sampleLedger⟩ d' ∧
      d'.ledger.isOnline sampleLibs (lit "carol") = false ∧
      ∃ m', d'.node.manifest sampleLibs (lit "0123456789abcdef") = some m' ∧ m'.dataShards = 1 ∧
        m'.holders.Nodup ∧ m'.dataShards + 1 ≤ m'.holders.countP
          (isUp sampleService.self (d'.ledger.isOnline sampleLibs)) := by
  have hvalid : ∀ h ∈ [lit "carol", sampleService.self], validUTF8 h = true := by decide
  let ping := sampleLedger.recordPing sampleLibs (lit "carol") false 2 2
  have hdown : ∀ h ∈ [lit "carol", sampleService.self], h ≠ sampleService.self →
      ping.1.isOnline sampleLibs h = false := by decide
  have halice : ping.1.isOnline sampleLibs (lit "alice") = true := by decide
  have hbob : ping.1.isOnline sampleLibs (lit "bob") = false := by decide
  obtain ⟨evs, s', spare, hsteps, -⟩ := exists_sampleScan
    (h := lit "carol") (by decide) (by decide) rfl hdown (show _ = some 0 by decide) (by decide)
    (sampleOwner [lit "carol", sampleService.self]) ⟨lit "alice", .inl rfl, by decide, halice⟩
  -- The scan of the sample node, seen as one of a node that attends to the file.
  have hscan : Steps (attendEnv sampleLibs sampleService.self (ping.1.isOnline sampleLibs)
      (sampleFile [lit "carol", sampleService.self]) (fun st => st.shardIDs.map fun _ => sampleShard)
      (lit "alice")) (sampleOwner [lit "carol", sampleService.self]).1
      (scanForOfflinePeer sampleLibs sampleService.self (lit "carol"))
      (⟨.storeIterate manifestPrefix,
        ((sampleOwner [lit "carol", sampleService.self]).1.scan manifestPrefix, none)⟩ :: evs)
      s'.1 (ret ()) := by
    have hread := manifests_sampleOwner hvalid
    unfold NodeState.manifests at hread
    refine .op ⟨⟨rfl, .inl rfl⟩, rfl, fun h => absurd h (by decide)⟩ ?_
    simp only [bind_eq, pure_eq, ret_bind, hread]
    exact hsteps.map Subtype.val fun _ _ _ _ => attends_of_keeper hdown halice hbob (by decide)
  have hrun : Relation.ReflTransGen (Daemon.Pings sampleLibs sampleService.self
      (lit "0123456789abcdef") fun st => st.shardIDs.map fun _ => sampleShard)
      ⟨(sampleOwner [lit "carol", sampleService.self]).1, sampleLedger⟩ ⟨s'.1, ping.1⟩ :=
    .single (.drops (lit "carol") false (by decide) (by decide) (manifest_sampleOwner hvalid)
      ⟨fun h _ _ _ => ⟨h, rfl⟩, by decide, fun _ => ⟨_, rfl⟩⟩ hscan)
  have hsound : Sound sampleLibs (fun st => st.shardIDs.map fun _ => sampleShard)
      (sampleFile [lit "carol", sampleService.self]) := by
    refine ⟨by decide, by decide, fun st hst => ⟨sampleShard, ?_⟩⟩
    obtain rfl := List.mem_singleton.mp hst
    simp only [map_shardIDs_sampleStripe]
    exact ⟨by decide, rfl, by simp [sampleStripe], rfl, by decide⟩
  have hred : Redundant sampleService.self (sampleLedger.isOnline sampleLibs)
      (sampleFile [lit "carol", sampleService.self]) := by
    have hcount : [lit "carol", sampleService.self].countP
        (isUp sampleService.self (sampleLedger.isOnline sampleLibs)) = 2 := by decide
    change (1 : ℤ) + 1 ≤ ([lit "carol", sampleService.self].countP _ : ℕ)
    rw [hcount]
    rfl
  exact ⟨⟨s'.1, ping.1⟩, hrun, hdown _ (by decide) (by decide),
    redundancy_floor (d := ⟨(sampleOwner [lit "carol", sampleService.self]).1, sampleLedger⟩)
      sampleRs_mds sampleCbor_lawful sampleCbor_strict (filed_sampleOwner hvalid) probed_sampleLedger
      (manifest_sampleOwner hvalid) hsound hred hrun⟩

end FnShare
