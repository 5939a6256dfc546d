import FnShare.File.RoundTrip
import FnShare.Placement
import FnShare.Repair.Trace

/-!
# The programs that place shards

Each of the three kinds of programs keeps the invariant of `Placement.lean` among all others
(`keeps_flushAll`, `keeps_scanForOfflinePeer`, `keeps_put`). The worker removes what was acknowledged. A
repair writes a manifest in which one holder is new, after it has put that holder's shard of every stripe
there. An upload writes a manifest after it has shipped every shard of it (`Uploaded`).
-/

namespace FnShare

open Prog

variable {L : Libs} {w : Cluster} {n : Bytes}

/-! ## The worker of the spool -/

/-- What was sent of an entry is stored, if it is a shard. -/
theorem keeps_sendEntry (hC : L.cbor.Lawful) (hI : Inv L w) (pid : Bytes) {e : SpoolEntry}
    {data : Bytes} (hdata : e.kind = .manifest → PlacedRaw L w data) :
    wp (among L n) (sendEntry pid e data)
      (Kept L w fun r w' => r = .ok () → e.kind = .shard → Stored w' pid e.key) w := by
  unfold sendEntry
  cases hkind : e.kind with
  | shard =>
    refine wp_mono (keeps_putShardOnPeer hC hI pid e.key data) ?_
    rintro r w' ⟨hI', hl, hs⟩
    exact ⟨hI', hl, fun hr _ => hs hr⟩
  | manifest =>
    refine wp_mono (keeps_putManifestRawOnPeer hC hI pid e.key (hdata hkind)) ?_
    rintro r w' ⟨hI', hl, -⟩
    exact ⟨hI', hl, by simp⟩

/-- The entries of one kind: each is removed only when it was sent. -/
theorem keeps_flushKind (hC : L.cbor.Lawful) {peerID pid : Bytes} (hpid : L.peerDecode peerID = .ok pid)
    (kind : Kind) (entries : List SpoolEntry) (hentries : ∀ e ∈ entries, e.peerID = peerID)
    (w : Cluster) (hI : Inv L w) :
    wp (among L n) (flushKind pid kind entries) (Kept L w fun _ _ => True) w := by
  induction entries generalizing w with
  | nil => exact wp_among_ret hI trivial
  | cons e rest ih =>
    have hnext := ih fun e he => hentries e (List.mem_cons_of_mem _ he)
    unfold flushKind
    split_ifs
    · exact hnext w hI
    · refine wp_among_op hC hI trivial ?_
      rintro r v w₁ hIv hlv ⟨s', ⟨rfl, hread⟩, hw₁⟩ hI₁ hl₁
      rw [Cluster.set_node] at hw₁
      subst hw₁
      simp only [bind_eq, ret_bind]
      cases r with
      | error err => exact hnext _ hI₁
      | ok data =>
        have hspool : (w₁.node n).spool e = some data := by
          rcases hread with ⟨b, hb, hr⟩ | ⟨err, hr⟩
          · rw [Except.ok.inj hr, hb]
          · exact absurd hr (by simp)
        simp only
        refine wp_among_attempt
          (keeps_sendEntry hC hI₁ pid fun hkind => hI₁.queued n e data hspool hkind) ?_
        rintro (err | ⟨⟩) w₂ hI₂ hl₂ hsent
        · exact wp_among_ret hI₂ trivial
        · -- The peer has acknowledged it, so that the entry can go.
          refine wp_among_any hC hI₂ ?_ fun u w₃ hI₃ hl₃ => hnext w₃ hI₃
          intro hkind
          exact ⟨pid, by rw [hentries e List.mem_cons_self, hpid], hsent rfl hkind⟩

/-- The entries of one peer. -/
theorem keeps_flushPeer (hC : L.cbor.Lawful) (hI : Inv L w) (peerID : Bytes) :
    wp (among L n) (flushPeer L peerID) (Kept L w fun _ _ => True) w := by
  unfold flushPeer
  cases hpid : L.peerDecode peerID with
  | error e => exact wp_among_ret hI trivial
  | ok pid =>
    refine wp_among_op hC hI trivial ?_
    rintro r v w₁ hIv hlv ⟨s', ⟨rfl, hlist⟩, -⟩ hI₁ hl₁
    simp only [bind_eq, ret_bind]
    cases r with
    | error err => exact wp_among_ret hI₁ trivial
    | ok entries =>
      have hentries : ∀ e ∈ entries, e.peerID = peerID := by
        rcases hlist with ⟨es, hes, -, hmem⟩ | ⟨err, hr⟩
        · obtain rfl := Except.ok.inj hes
          exact fun e he => ((hmem e).mp he).1
        · exact absurd hr (by simp)
      refine wp_among_bind (keeps_flushKind hC hpid .shard entries hentries w₁ hI₁) ?_
        fun _ _ _ => trivial
      rintro (_ | _) w₂ hI₂ hl₂ -
      · exact wp_among_ret hI₂ trivial
      · refine wp_among_bind (keeps_flushKind hC hpid .manifest entries hentries w₂ hI₂) ?_
          fun _ _ _ => trivial
        intro b w₃ hI₃ hl₃ _
        exact wp_among_ret hI₃ trivial

/-- The peers of a round. -/
theorem keeps_flushPeers (hC : L.cbor.Lawful) (peers : List Bytes) (w : Cluster) (hI : Inv L w) :
    wp (among L n) (flushPeers L peers) (Kept L w fun _ _ => True) w := by
  induction peers generalizing w with
  | nil => exact wp_among_ret hI trivial
  | cons p rest ih =>
    unfold flushPeers
    refine wp_among_any hC hI trivial ?_
    rintro (_ | _) w₁ hI₁ hl₁
    · exact ih w₁ hI₁
    · simp only [bind_eq, ret_bind]
      refine wp_among_bind (keeps_flushPeer hC hI₁ p) ?_ fun _ _ _ => trivial
      exact fun _ w₂ hI₂ _ _ => ih w₂ hI₂

/-- A round of the worker. -/
theorem keeps_flushAll (hC : L.cbor.Lawful) (hI : Inv L w) :
    wp (among L n) (flushAll L) (Kept L w fun _ _ => True) w := by
  unfold flushAll
  refine wp_among_any hC hI trivial ?_
  rintro (e | peers) w₁ hI₁ hl₁
  · exact wp_among_ret hI₁ trivial
  · exact keeps_flushPeers hC peers w₁ hI₁

/-! ## Repairs -/

/-- What reads, asks and puts shards keeps the invariant. -/
theorem keeps_of_surveys (hC : L.cbor.Lawful) {α : Type} {p : NodeM α} (hp : p.Only Surveys) (hI : Inv L w) :
    wp (among L n) p (Kept L w fun _ _ => True) w := by
  induction p generalizing w with
  | ret a => exact wp_among_ret hI trivial
  | fail e => exact ⟨hI, .refl w, trivial⟩
  | op o k ih =>
    refine wp_among_any hC hI ?_ fun r w' hI' _ => ih r (hp.2 r) hI'
    have ho : Surveys o := hp.1
    cases o with
    | request pid req =>
      rintro hop
      rcases ho with hget | hput
      · exact absurd (hop.symm.trans hget) (by simp)
      · exact absurd (hop.symm.trans hput) (by simp)
    | isOnline | storeIterate | blockGet | blockPut | record | panic => trivial
    | _ => exact ho.elim

/-- A slice for the log. -/
theorem keeps_slice12 (hC : L.cbor.Lawful) (hI : Inv L w) (b : Bytes) :
    wp (among L n) (slice12 b) (Kept L w fun _ _ => True) w :=
  keeps_of_surveys hC (only_slice12 trivial b) hI

/-- A shard that was placed is stored at the spare. -/
theorem keeps_placeShard (hC : L.cbor.Lawful) (hn : L.peerDecode n = .ok n) (hI : Inv L w)
    (spare id data : Bytes) :
    wp (among L n) (placeShard L n spare id data)
      (Kept L w fun r w' => r = .ok () → ∃ pid, L.peerDecode spare = .ok pid ∧ Stored w' pid id) w := by
  unfold placeShard
  by_cases hself : spare = n
  · rw [if_pos hself]
    refine wp_among_op hC hI trivial ?_
    rintro r v w₁ hIv hlv ⟨s', hs, rfl⟩ hI₁ hl₁
    simp only [bind_eq, ret_bind, wp_ofExcept]
    refine ⟨hI₁, .refl _, ?_⟩
    rintro rfl
    refine ⟨n, by rw [hself, hn], ?_⟩
    obtain ⟨hhash, rfl⟩ := NodeState.step_blockPut_ok hs
    exact ⟨data, by simp [NodeState.putBlock], hhash⟩
  · rw [if_neg hself]
    cases hpid : L.peerDecode spare with
    | error e => exact ⟨hI, .refl w, fun h => absurd h (by simp)⟩
    | ok pid =>
      refine wp_mono (keeps_putShardOnPeer hC hI pid id data) ?_
      rintro r w' ⟨hI', hl, hs⟩
      exact ⟨hI', hl, fun hr => ⟨pid, rfl, hs hr⟩⟩

/-- A stripe that was migrated has its shard at the spare. -/
theorem keeps_migrateStripeShard (hC : L.cbor.Lawful) (hn : L.peerDecode n = .ok n) (hI : Inv L w)
    (m : Manifest) (stripe : Stripe) (slot : ℕ) (spare : Bytes) :
    wp (among L n) (migrateStripeShard L n m stripe slot spare)
      (Kept L w fun r w' => r = .ok () → ∀ id, stripe.shardIDs[slot]? = some id →
        ∃ pid, L.peerDecode spare = .ok pid ∧ Stored w' pid id) w := by
  have hfail : ∀ (e : GoErr) (w : Cluster), Inv L w → wp (among L n) (fail e : NodeM Unit)
      (Kept L w fun r w' => r = .ok () → ∀ id, stripe.shardIDs[slot]? = some id →
        ∃ pid, L.peerDecode spare = .ok pid ∧ Stored w' pid id) w :=
    fun e w hI => ⟨hI, .refl w, fun h => absurd h (by simp)⟩
  unfold migrateStripeShard
  simp only
  split_ifs
  · exact hfail _ w hI
  refine wp_among_bind (keeps_of_surveys hC (only_gatherSurvivors m slot 0 stripe.shardIDs 0) hI) ?_
    fun _ _ _ h => absurd h (by simp)
  rintro ⟨got, gathered⟩ w₁ hI₁ hl₁ -
  simp only
  split_ifs
  · exact hfail _ w₁ hI₁
  -- From here on every index that the code takes unchecked can panic.
  cases Params.decode L ⟨m.dataShards, m.parityShards⟩ got stripe.ciphertextBytes with
  | none => exact wp_among_panic
  | some x =>
    rw [orPanic_some, ret_bind]
    cases x with
    | error e => exact hfail _ w₁ hI₁
    | ok y =>
      obtain ⟨full, data⟩ := y
      simp only
      cases full[slot]? with
      | none => exact wp_among_panic
      | some shard =>
        rw [orPanic_some, ret_bind]
        cases shard with
        | none => exact hfail _ w₁ hI₁
        | some data =>
          simp only
          cases hid : stripe.shardIDs[slot]? with
          | none => exact wp_among_panic
          | some id =>
            rw [orPanic_some, ret_bind]
            split_ifs
            · exact ⟨hI₁, .refl w₁, fun h => absurd h (by simp)⟩
            · refine wp_mono (keeps_placeShard hC hn hI₁ spare id data) ?_
              rintro r w₂ ⟨hI₂, hl₂, hs⟩
              refine ⟨hI₂, hl₂, fun hr id' hid' => ?_⟩
              obtain rfl := Option.some.inj hid'
              exact hs hr

/-- All stripes that were migrated have their shard at the spare. -/
theorem keeps_migrateStripes (hC : L.cbor.Lawful) (hn : L.peerDecode n = .ok n) (m : Manifest)
    (slot : ℕ) (spare : Bytes) (stripes : List Stripe) (w : Cluster) (hI : Inv L w) :
    wp (among L n) (migrateStripes L n m slot spare stripes)
      (Kept L w fun r w' => r = .ok () → ∀ st ∈ stripes, ∀ id, st.shardIDs[slot]? = some id →
        ∃ pid, L.peerDecode spare = .ok pid ∧ Stored w' pid id) w := by
  induction stripes generalizing w with
  | nil => exact wp_among_ret hI fun _ => by simp
  | cons st rest ih =>
    unfold migrateStripes
    refine wp_among_attempt (keeps_migrateStripeShard hC hn hI m st slot spare) ?_
    rintro (e | ⟨⟩) w₁ hI₁ hl₁ hst
    · refine wp_among_bind (keeps_slice12 hC hI₁ _) ?_ fun _ _ _ h => absurd h (by simp)
      intro _ w₂ hI₂ _ _
      exact ⟨hI₂, .refl w₂, fun h => absurd h (by simp)⟩
    · refine wp_mono (ih w₁ hI₁) ?_
      rintro r w₂ ⟨hI₂, hl₂, hrest⟩
      refine ⟨hI₂, hl₂, fun hr st' hst' id hid => ?_⟩
      rcases List.mem_cons.mp hst' with rfl | hst'
      · obtain ⟨pid, hpid, hs⟩ := hst rfl id hid
        exact ⟨pid, hpid, hl₂.stored pid id hs⟩
      · exact hrest hr st' hst' id hid

/-- A manifest in which one holder is new is placed, if the new one has the slot's shards. -/
theorem Placed.set {m : Manifest} (h : Placed L w m) {slot : ℕ} {spare : Bytes}
    (hspare : ∀ st ∈ m.stripes, ∀ id, st.shardIDs[slot]? = some id →
      ∃ pid, L.peerDecode spare = .ok pid ∧ Stored w pid id) :
    Placed L w { m with holders := m.holders.set slot spare } := by
  refine ⟨?_, ?_⟩
  · rw [← h.length_holders]
    simp
  · intro st hst
    have hheld := h.held st hst
    rw [List.forall₂_iff_get] at hheld ⊢
    refine ⟨by simpa using hheld.1, ?_⟩
    intro i h₁ h₂
    have hi : i < m.holders.length := by simpa using h₁
    by_cases hslot : i = slot
    · subst hslot
      obtain ⟨pid, hpid, hs⟩ := hspare st hst _ (List.getElem?_eq_getElem h₂)
      refine .inl ⟨pid, ?_, hs⟩
      simpa using hpid
    · have := hheld.2 i hi h₂
      simpa [List.getElem_set_ne (Ne.symm hslot)] using this

/-- A manifest that is placed can be stored. -/
theorem keeps_putManifest (hC : L.cbor.Lawful) (hI : Inv L w) {m : Manifest} (hm : Placed L w m) :
    wp (among L n) (putManifest L m) (Kept L w fun _ _ => True) w := by
  unfold putManifest storePut
  refine wp_among_any hC hI (fun _ => hm.raw hC) ?_
  intro r w₁ hI₁ _
  simp only [bind_eq, ret_bind, wp_ofExcept]
  exact ⟨hI₁, .refl w₁, trivial⟩

/-- A manifest that is placed can be sent to a holder. -/
theorem keeps_propagate (hC : L.cbor.Lawful) (hI : Inv L w) {m : Manifest} (hm : Placed L w m)
    (h : Bytes) : wp (among L n) (propagate L n m h) (Kept L w fun _ _ => True) w := by
  unfold propagate
  split_ifs
  · exact wp_among_ret hI trivial
  cases L.peerDecode h with
  | error e => exact wp_among_ret hI trivial
  | ok pid =>
    refine wp_among_attempt (keeps_putManifestRawOnPeer hC hI pid m.fileID (hm.raw hC)) ?_
    exact fun _ w₁ hI₁ _ _ => wp_among_ret hI₁ trivial

/-- The slot of a manifest that is placed is migrated. -/
theorem keeps_migrateSlot (hC : L.cbor.Lawful) (hn : L.peerDecode n = .ok n) (hI : Inv L w)
    {m : Manifest} (hm : Placed L w m) (slot : ℕ) (spare : Bytes) :
    wp (among L n) (migrateSlot L n m slot spare) (Kept L w fun _ _ => True) w := by
  unfold migrateSlot
  refine wp_among_bind (keeps_migrateStripes hC hn m slot spare m.stripes w hI) ?_ fun _ _ _ => trivial
  intro _ w₁ hI₁ hl₁ hst
  have hm' : Placed L w₁ { m with holders := m.holders.set slot spare } :=
    (hm.later hl₁).set (hst rfl)
  generalize ({ m with holders := m.holders.set slot spare } : Manifest) = m' at hm'
  have hput : wp (among L n) (mapErr (GoErr.wrap (lit "save manifest: ")) (putManifest L m'))
      (Kept L w₁ fun _ _ => True) w₁ := by
    rw [wp_mapErr]
    exact keeps_putManifest hC hI₁ hm'
  refine wp_among_bind hput ?_ fun _ _ _ => trivial
  intro _ w₂ hI₂ hl₂ _
  have hfold : wp (among L n) (m'.holders.foldlM (fun _ h => propagate L n m' h) ())
      (Kept L w₂ fun _ _ => True) w₂ := by
    refine wp_foldlM (fun _ _ v => Inv L v ∧ Later L w₂ v) (fun _ v hv => ⟨hv.1, hv.2, trivial⟩) ?_
      m'.holders () w₂ ⟨hI₂, .refl w₂⟩
    rintro h hs ⟨⟩ v ⟨hIv, hlv⟩
    refine wp_mono (keeps_propagate hC hIv (hm'.later (hl₂.trans hlv)) h) ?_
    rintro (e | ⟨⟩) v' ⟨hI', hl', -⟩
    · exact ⟨hI', hlv.trans hl', trivial⟩
    · exact ⟨hI', hlv.trans hl'⟩
  refine wp_among_bind hfold ?_ fun _ _ _ => trivial
  exact fun _ w₃ hI₃ _ _ => keeps_slice12 hC hI₃ _

/-- A file whose manifest is placed is repaired. -/
theorem keeps_repairFile (hC : L.cbor.Lawful) (hn : L.peerDecode n = .ok n) (hI : Inv L w)
    {m : Manifest} (hm : Placed L w m) (slot : ℕ) :
    wp (among L n) (repairFile L n m slot) (Kept L w fun _ _ => True) w := by
  unfold repairFile
  refine wp_among_bind (keeps_of_surveys hC (surveys_countLive m.holders 0) hI) ?_ fun _ _ _ => trivial
  intro live w₁ hI₁ hl₁ _
  split_ifs
  · exact keeps_slice12 hC hI₁ _
  refine wp_among_any hC hI₁ trivial ?_
  rintro ⟨pairs, err⟩ w₂ hI₂ hl₂
  simp only [bind_eq, ret_bind, pure_eq]
  cases err with
  | some e => exact ⟨hI₂, .refl w₂, trivial⟩
  | none =>
    simp only
    refine wp_among_bind (keeps_of_surveys hC (only_findSpare m.holders _) hI₂) ?_ fun _ _ _ => trivial
    intro spare w₃ hI₃ hl₃ _
    split_ifs
    · refine wp_among_bind (keeps_slice12 hC hI₃ _) ?_ fun _ _ _ => trivial
      exact fun _ w₄ hI₄ _ _ => keeps_slice12 hC hI₄ _
    · exact keeps_migrateSlot hC hn hI₃ (hm.later ((hl₁.trans hl₂).trans hl₃)) slot spare

/-- Files whose manifests are placed are repaired. -/
theorem keeps_repairFiles (hC : L.cbor.Lawful) (hn : L.peerDecode n = .ok n) (offlinePeer : Bytes)
    (ms : List Manifest) (w : Cluster) (hI : Inv L w) (hms : ∀ m ∈ ms, Placed L w m) :
    wp (among L n) (repairFiles L n offlinePeer ms) (Kept L w fun _ _ => True) w := by
  induction ms generalizing w with
  | nil => exact wp_among_ret hI trivial
  | cons m rest ih =>
    have hnext : ∀ v, Inv L v → Later L w v →
        wp (among L n) (repairFiles L n offlinePeer rest) (Kept L v fun _ _ => True) v :=
      fun v hIv hl => ih v hIv fun m' hm' => (hms m' (List.mem_cons_of_mem _ hm')).later hl
    unfold repairFiles
    cases m.holders.findIdx? (· = offlinePeer) with
    | none => exact hnext w hI (.refl w)
    | some slot =>
      refine wp_among_attempt (keeps_repairFile hC hn hI (hms m List.mem_cons_self) slot) ?_
      rintro (e | ⟨⟩) w₁ hI₁ hl₁ -
      · refine wp_among_bind (keeps_slice12 hC hI₁ _) ?_ fun _ _ _ => trivial
        exact fun _ w₂ hI₂ hl₂ _ => hnext w₂ hI₂ (hl₁.trans hl₂)
      · exact hnext w₁ hI₁ hl₁

/-- A scan reads manifests that are placed, and repairs them. -/
theorem keeps_scanForOfflinePeer (hC : L.cbor.Lawful) (hn : L.peerDecode n = .ok n) (hI : Inv L w)
    (offlinePeer : Bytes) :
    wp (among L n) (scanForOfflinePeer L n offlinePeer) (Kept L w fun _ _ => True) w := by
  unfold scanForOfflinePeer listManifests
  refine wp_among_op hC hI trivial ?_
  rintro ⟨pairs, err⟩ v w₁ hIv hlv ⟨s', ⟨rfl, hscan⟩, hw₁⟩ hI₁ hl₁
  rw [Cluster.set_node] at hw₁
  subst hw₁
  simp only [bind_eq, ret_bind, pure_eq]
  cases err with
  | some e => exact wp_among_ret hI₁ trivial
  | none =>
    refine keeps_repairFiles hC hn offlinePeer _ w₁ hI₁ ?_
    intro m hm
    obtain ⟨⟨key, raw⟩, hmem, hdec⟩ := mem_decodeValues.mp hm
    rw [NodeState.scan_of_step ⟨rfl, hscan⟩, NodeState.mem_scan] at hmem
    exact hI₁.stored n key raw hmem.2 hmem.1 m hdec

/-! ## Uploads -/

/-- What an operation of an upload at the node `n` has established. -/
def Established (L : Libs) (n : Bytes) : NodeEvent → Cluster → Prop
  | ⟨.blockPut id _, .ok ()⟩, w => Stored w n id
  | ⟨.request pid req, .ok resp⟩, w => req.op = .putShard → resp.ok = true → Stored w pid req.id
  | ⟨.spoolWrite holder .shard id _, .ok ()⟩, w => Held L w n holder id
  | _, _ => True

/-- What was established lasts. -/
theorem Established.later {e : NodeEvent} {w' : Cluster} (h : Established L n e w)
    (hl : Later L w w') : Established L n e w' := by
  obtain ⟨o, r⟩ := e
  cases o with
  | blockPut id data =>
    cases r with
    | ok u => exact hl.stored n id h
    | error e => trivial
  | request pid req =>
    cases r with
    | ok resp => exact fun hop hok => hl.stored pid req.id (h hop hok)
    | error e => trivial
  | spoolWrite holder kind id data =>
    cases kind with
    | shard =>
      cases r with
      | ok u => exact hl.held n holder id h
      | error e => trivial
    | manifest => trivial
  | _ => trivial

/-- An operation establishes what it should. -/
theorem established_of_exec {v w' : Cluster} {o : NodeOp} {r : o.Ans} (hI' : Inv L w')
    (h : Cluster.exec L n v o r w') : Established L n ⟨o, r⟩ w' := by
  cases o with
  | blockPut id data =>
    cases r with
    | error e => trivial
    | ok u =>
      obtain ⟨s', hs, rfl⟩ := h
      obtain ⟨hhash, rfl⟩ := NodeState.step_blockPut_ok hs
      exact ⟨data, by simp [NodeState.putBlock], hhash⟩
  | request pid req =>
    cases r with
    | error e => trivial
    | ok resp => exact stored_of_exec h
  | spoolWrite holder kind id data =>
    cases kind with
    | manifest => trivial
    | shard =>
      cases r with
      | error e => trivial
      | ok u =>
        obtain ⟨s', hs, rfl⟩ := h
        have hspool : s'.spool ⟨holder, .shard, id⟩ = some data := by
          simp only [NodeState.step] at hs
          split_ifs at hs
          · exact absurd hs.1 (by simp)
          · rcases hs with ⟨-, rfl⟩ | ⟨⟨e, he⟩, -⟩
            · simp [NodeState.setSpool]
            · exact absurd he (by simp)
        have hentry : ((v.set n s').node n).spool ⟨holder, .shard, id⟩ = some data := by
          rw [Cluster.node_set_self]
          exact hspool
        exact .inr ⟨data, hentry, hI'.shards n _ data hentry rfl⟩
  | _ => trivial

section Put

variable {svc : Service} {filename : Bytes} {body : Body} {opts : PutOptions} {m : Manifest}
  {evs : List NodeEvent}

/-- A shard that was shipped is held. -/
theorem Shipped.held (hself : L.peerDecode svc.self = .ok svc.self) {h sh : Bytes} {ok : Bool}
    (hship : Shipped L svc h sh ok evs) (hest : ∀ e ∈ evs, Established L svc.self e w) :
    Held L w svc.self h (hashOf sh) := by
  cases hship with
  | here hh =>
    have hs : Stored w svc.self (hashOf sh) := hest _ List.mem_cons_self
    exact .inl ⟨svc.self, by rw [hh, hself], hs⟩
  | @remote pid resp _ hpid hok =>
    have hs : Stored w pid (hashOf sh) :=
      hest ⟨.request pid ⟨.putShard, hashOf sh, sh⟩, .ok resp⟩ List.mem_cons_self rfl hok
    exact .inl ⟨pid, hpid, hs⟩
  | spooled _ hpid _ =>
    exact hest ⟨.spoolWrite h .shard (hashOf sh) sh, .ok ()⟩ (by simp)

/-- Shards that were shipped are held, each at the holder of its slot. -/
theorem ShippedAll.held (hself : L.peerDecode svc.self = .ok svc.self) {hs shs : List Bytes}
    {oks : List Bool} (hship : ShippedAll L svc hs shs oks evs)
    (hest : ∀ e ∈ evs, Established L svc.self e w) (hlen : hs.length = shs.length) :
    List.Forall₂ (fun holder id => Held L w svc.self holder id) hs (shs.map hashOf) := by
  induction hship with
  | nil hs =>
    rw [List.length_eq_zero_iff.mp hlen]
    exact .nil
  | @cons h sh ok hs shs oks evs evs' hone hrest ih =>
    refine .cons (hone.held hself fun e he => hest e (List.mem_append_left _ he)) ?_
    exact ih (fun e he => hest e (List.mem_append_right _ he)) (by simpa using hlen)

/-- The stripes that were uploaded are held. -/
theorem StripesUploaded.held (hR : L.rs.Mds) (hA : L.aead.Correct)
    (hself : L.peerDecode svc.self = .ok svc.self) {key data : Bytes} {holders : List Bytes} {idx : ℕ}
    {sts : List Stripe} {okss : List (List Bool)}
    (h : StripesUploaded L svc key holders idx data sts okss evs)
    (hlen : (holders.length : ℤ) = svc.params.total)
    (hest : ∀ e ∈ evs, Established L svc.self e w) :
    ∀ st ∈ sts, List.Forall₂ (fun holder id => Held L w svc.self holder id) holders st.shardIDs := by
  induction h with
  | nil idx => simp
  | @cons idx data st sts oks okss evs evs' hdata hstripe hrest ih =>
    intro st' hst'
    rcases List.mem_cons.mp hst' with rfl | hst'
    · cases hstripe with
      | @mk nonce shards oks evs hencode hship =>
        have hne : sealedAES L key nonce.1 (data.take svc.stripeSize) ≠ [] := sealedAES_ne_nil hA nonce.2 _
        obtain ⟨-, -, -, hcode⟩ := Params.encodes_of_encode hR hne hencode
        have hshards : (shards.length : ℤ) = svc.params.total := hcode.length_eq
        refine hship.held hself ?_ (by omega)
        exact fun e he => hest e (List.mem_append_left _ (List.mem_cons_of_mem _ he))
    · exact ih (fun e he => hest e (List.mem_append_right _ he)) st' hst'

/-- The manifest of an upload is placed, once it is complete. -/
theorem Uploaded.placed (hR : L.rs.Mds) (hA : L.aead.Correct)
    (hself : L.peerDecode svc.self = .ok svc.self) (h : Uploaded L svc filename body opts evs m)
    (hest : ∀ e ∈ evs, Established L svc.self e w) : Placed L w m := by
  obtain ⟨u, rfl, hu⟩ := h
  refine ⟨?_, ?_⟩
  · rw [hu.length_holders, hu.dataShards_eq, hu.parityShards_eq]
    rfl
  · rw [hu.owner_eq]
    exact hu.stripes.held hR hA hself hu.length_holders fun e he =>
      hest e (List.mem_append_left _ (List.mem_append_right _ he))

/-- The name of a private file is no manifest. -/
theorem not_prefix_pnameKey (fileID : Bytes) : ¬ manifestPrefix <+: pnameKey fileID := by
  rintro ⟨rest, h⟩
  exact manifestKey_ne_pnameKey rest fileID h

/-- What `Put` may do is admissible. -/
theorem admissible_of_putGuard (hR : L.rs.Mds) (hA : L.aead.Correct) (hC : L.cbor.Lawful)
    (hself : L.peerDecode svc.self = .ok svc.self) {o : NodeOp}
    (h : putGuard L svc filename body opts evs o) (hest : ∀ e ∈ evs, Established L svc.self e w) :
    Admissible L w o := by
  have hraw : ∀ {m raw}, Uploaded L svc filename body opts evs m → raw = L.cbor.manifest.marshal m →
      PlacedRaw L w raw := by
    rintro m raw hup rfl
    exact (hup.placed hR hA hself hest).raw hC
  cases o with
  | storePut key raw =>
    rcases h with ho | ⟨m, hup, -, hm⟩ | ⟨fileID, rfl⟩
    · exact ho.elim
    · exact fun _ => hraw hup hm
    · exact fun hpre => absurd hpre (not_prefix_pnameKey fileID)
  | spoolWrite peer kind key data =>
    cases kind with
    | shard =>
      rcases h with ho | ho
      · exact Eq.symm ho
      · exact ho.elim
    | manifest =>
      rcases h with ho | ⟨m, hup, -, hm⟩
      · exact ho.elim
      · exact hraw hup hm
  | spoolRemove e => exact h.elim False.elim False.elim
  | request peer req =>
    intro hop
    rcases h with ho | ⟨-, m, hup, -, hm⟩
    · exact absurd (hop.symm.trans ho) (by simp)
    · exact hraw hup hm
  | _ => trivial

/-- An upload. -/
theorem keeps_put (hR : L.rs.Mds) (hA : L.aead.Correct) (hC : L.cbor.Lawful)
    (hself : L.peerDecode svc.self = .ok svc.self) (hI : Inv L w) :
    wp (among L svc.self) (put L svc filename body opts) (fun _ _ => True) w := by
  have hstep : ∀ w o r w', Inv L w → (among L svc.self).guard w o →
      (among L svc.self).step w o r w' →
      Inv L w' ∧ Later L w w' ∧ Established L svc.self ⟨o, r⟩ w' := by
    rintro w o r w' hI hguard ⟨v, hv, hs⟩
    obtain ⟨hIv, hlv⟩ := hv hI
    obtain ⟨hI', hl'⟩ := hguard v hv r w' hs hIv
    exact ⟨hI', hlv.trans hl', established_of_exec hI' hs⟩
  refine wp_mono (wp_of_traced (Inv L) (Established L svc.self)
    (fun w o r w' hI hg hs => (hstep w o r w' hI hg hs).1)
    (fun w o r w' hI hg hs => (hstep w o r w' hI hg hs).2.2)
    (fun w o r w' e hI hg hs he => he.later (hstep w o r w' hI hg hs).2.1) ?_
    (wp_put svc hR hA filename body opts w) hI (by simp)) fun _ _ _ => trivial
  intro w l o hI hest hguard v hv r w' hs hIv
  exact exec_keeps hC hIv ((admissible_of_putGuard hR hA hC hself hguard hest).later (hv hI).2) hs

end Put

/-! ## All of them -/

/-- Where the bytes of a manifest can be: in a node's store, queued in a spool, under way to a peer, or
about to be sent by a program. -/
inductive About (w : Cluster) (ps : List (Bytes × NodeM Unit)) (raw : Bytes) : Prop
  | stored (n fileID : Bytes) (h : (w.node n).store.get (manifestKey fileID) = some raw)
  | queued (n : Bytes) (e : SpoolEntry) (h : (w.node n).spool e = some raw) (hkind : e.kind = .manifest)
  | flight (n pid fileID : Bytes) (h : (n, pid, ⟨.putManifest, fileID, raw⟩) ∈ w.flight)
  | sent (n pid fileID : Bytes) (k : Except GoErr Response → NodeM Unit)
      (h : (n, .op (.request pid ⟨.putManifest, fileID, raw⟩) k) ∈ ps)

/-- Nothing is stored yet. -/
theorem inv_fresh : Inv L Cluster.fresh := by
  constructor
  · intro n key raw _ h
    exact absurd h (by simp [Cluster.fresh, NodeState.fresh])
  · intro n e raw h
    exact absurd h (by simp [Cluster.fresh, NodeState.fresh])
  · intro x hx
    exact absurd hx (by simp [Cluster.fresh])
  · intro n e data h
    exact absurd h (by simp [Cluster.fresh, NodeState.fresh])
  · intro n id data h
    exact absurd h (by simp [Cluster.fresh, NodeState.fresh])

/-- The invariant holds in whatever the nodes reach, and their programs keep it from there. -/
theorem inv_of_reach (hR : L.rs.Mds) (hA : L.aead.Correct) (hC : L.cbor.Lawful)
    {ps : List (Bytes × NodeM Unit)} (h : (cluster L).Reach .fresh w ps) :
    Inv L w ∧ ∀ np ∈ ps, wp (among L np.1) np.2 (fun _ _ => True) w := by
  have hkeeps := h.guarantee (R := Keeps L) (fun w hI => ⟨hI, .refl w⟩)
    (fun u v w h h' hI => by
      obtain ⟨hIv, hl⟩ := h hI
      obtain ⟨hIw, hl'⟩ := h' hIv
      exact ⟨hIw, hl.trans hl'⟩)
    (fun w w' _ hd hI => drift_keeps hC hI hd) ?_
  · exact ⟨(hkeeps.1 inv_fresh).1, hkeeps.2⟩
  · rintro n p v hv ⟨hn, hruns⟩
    obtain ⟨hI, -⟩ := hv inv_fresh
    cases hruns with
    | put =>
      exact wp_bind_of (keeps_put hR hA hC hn hI) (fun _ _ _ => trivial) fun _ _ _ => trivial
    | flush => exact wp_mono (keeps_flushAll hC hI) fun _ _ _ => trivial
    | repair =>
      exact wp_mono (keeps_scanForOfflinePeer hC hn hI _) fun _ _ _ => trivial

/-- Whatever uploads, workers and repairs have done at the nodes and in whatever order, for every manifest
that is stored, queued or under way, the shard of every slot is in the block store of its holder or in the
uploader's spool. -/
theorem manifests_placed (hR : L.rs.Mds) (hA : L.aead.Correct) (hC : L.cbor.Lawful)
    {ps : List (Bytes × NodeM Unit)} (h : (cluster L).Reach .fresh w ps) {raw : Bytes} {m : Manifest}
    (habout : About w ps raw) (hdec : L.cbor.manifest.unmarshal raw = .ok m) : Placed L w m := by
  obtain ⟨hI, hps⟩ := inv_of_reach hR hA hC h
  cases habout with
  | stored n fileID hraw => exact hI.stored n _ raw (List.prefix_append _ _) hraw m hdec
  | queued n e hraw hkind => exact hI.queued n e raw hraw hkind m hdec
  | flight n pid fileID hmem => exact hI.flight _ hmem rfl m hdec
  | sent n pid fileID k hmem =>
    -- The sender may give up at once, and then the request is under way.
    have hkeeps := (hps _ hmem).1 w (fun hI => ⟨hI, .refl w⟩) (.error .eof)
      { w with flight := (n, pid, ⟨.putManifest, fileID, raw⟩) :: w.flight }
      (.inr (.inr ⟨⟨_, rfl⟩, rfl⟩))
    have hplaced := (hkeeps hI).1.flight _ List.mem_cons_self rfl m hdec
    exact ⟨hplaced.length_holders, hplaced.held⟩

/-! ## A file that is placed -/

/-- Where no peer is reached, what happens at a node happens in the cluster. -/
theorem exec_of_calm {s s' : NodeState} {o : NodeOp} {r : o.Ans} (w : Cluster) (n : Bytes)
    (h : (calmEnv noneReached).step s o r s') : Cluster.exec L n (w.set n s) o r (w.set n s') := by
  obtain ⟨hs, hcalm⟩ := h
  cases o with
  | request pid req =>
    obtain rfl : r = noneReached pid req := hcalm
    obtain rfl : s' = s := hs
    exact .inl ⟨rfl, rfl⟩
  | _ => exact ⟨s', by rwa [Cluster.node_set_self], (Cluster.set_set _ _ _ _).symm⟩

/-- The sample node comes about from nothing, without a program. -/
theorem reach_sampleHome {N : Type} {sys : System NodeSig Cluster N GoErr Unit}
    (hdrift : ∀ w n key raw, ¬ manifestPrefix <+: key → ¬ lit "pname/" <+: key →
      sys.drift w (w.set n ((w.node n).putKey key raw))) :
    sys.Reach .fresh (Cluster.fresh.set sampleService.self sampleHome) [] := by
  have hput : ∀ {s key raw}, sys.Reach .fresh (Cluster.fresh.set sampleService.self s) [] →
      ¬ manifestPrefix <+: key → ¬ lit "pname/" <+: key →
      sys.Reach .fresh (Cluster.fresh.set sampleService.self (s.putKey key raw)) [] := by
    intro s key raw h hkey hname
    have hnext := h.drift (hdrift _ sampleService.self key raw hkey hname)
    rwa [Cluster.node_set_self, Cluster.set_set] at hnext
  have hfresh : sys.Reach .fresh
      (Cluster.fresh.set sampleService.self (Cluster.fresh.node sampleService.self)) [] := by
    rw [Cluster.set_node]
    exact .init
  exact hput (hput (hput hfresh (by decide) (by decide)) (by decide) (by decide)) (by decide) (by decide)

/-- With all peers out of reach, the shards of an upload are in the spool, and so its manifest is placed. -/
theorem sampleHome_places :
    ∃ w ps m, (cluster sampleLibs).Reach .fresh w ps ∧
      About w ps (sampleLibs.cbor.manifest.marshal m) ∧ m.stripes ≠ [] ∧ Placed sampleLibs w m.norm := by
  obtain ⟨evs, s', m, u, hup⟩ := exists_sampleUpload deliverable_noneReached
    (show endOfFile (some sampleBody.term) = true from rfl) (show sampleBody.data ≠ [] by decide)
    (lit "film")
  have hdec := unmarshal_sampleManifest (hup.validText_eq.trans (by decide))
  have hstripes : m.stripes ≠ [] := by
    rw [← List.length_pos_iff, hup.made.stripes.length_eq]
    decide
  -- The upload is a run of the cluster in which nothing else happens.
  have hhome : (cluster sampleLibs).Reach .fresh (Cluster.fresh.set sampleService.self sampleHome) [] :=
    reach_sampleHome fun _ _ _ _ hkey _ => .inr ⟨_, _, _, hkey, rfl⟩
  have hstart := hhome.start (show (cluster sampleLibs).start sampleService.self (put sampleLibs sampleService
    (lit "film") sampleBody ⟨(sampleGroup 7).id, modeShared⟩ >>= fun _ => ret ()) from ⟨rfl, .put trivial⟩)
  have hreach := hstart.steps (fun s => Cluster.fresh.set sampleService.self s)
    (fun _ _ _ _ hs => exec_of_calm _ _ hs) (hup.steps.bind_left _)
  have habout : About (Cluster.fresh.set sampleService.self s')
      [(sampleService.self, ret m >>= fun _ => ret ())]
      (sampleLibs.cbor.manifest.marshal m) :=
    .stored sampleService.self m.fileID (by rw [Cluster.node_set_self, hup.stored])
  exact ⟨_, _, m, hreach, habout, hstripes,
    manifests_placed sampleRs_mds sampleAead_correct sampleCbor_lawful hreach habout hdec⟩

end FnShare
