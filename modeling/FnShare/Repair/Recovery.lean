import FnShare.Repair.Trace

/-!
# A repair that is served succeeds

The environments in which the holders that are up serve their shards (`Serving`) and a spare takes what it
is given (`Accepts`). With `DataShards` holders up besides the slot that is repaired, the shards of the
slot are reconstructed as they were (`wp_migrateStripeShard_served`), and so the repair does not fail
(`wp_repairFile_served`).
-/

namespace FnShare

open Prog

/-- A peer that counts as up: the node itself, or one that its ledger has online. -/
def isUp (me : Bytes) (live : Bytes → Bool) (h : Bytes) : Bool := h = me || live h

/-- The member that a repair takes as the spare: the first one that is up and no holder. -/
def spareOf (me : Bytes) (live : Bytes → Bool) (holders : List Bytes) (members : List Member) :
    Option Member :=
  members.find? fun mem => decide (mem.peerID ∉ holders) && isUp me live mem.peerID

/-- One more member. -/
theorem spareOf_cons (me : Bytes) (live : Bytes → Bool) (holders : List Bytes) (mem : Member)
    (members : List Member) :
    spareOf me live holders (mem :: members) =
      if mem.peerID ∉ holders ∧ isUp me live mem.peerID = true then some mem
      else spareOf me live holders members := by
  unfold spareOf
  rw [List.find?_cons]
  split_ifs with h
  · simp [h]
  · rw [show (decide (mem.peerID ∉ holders) && isUp me live mem.peerID) = false by simpa using h]

/-- The shards of a stripe: those of some ciphertext, under their hashes. -/
structure Coded (L : Libs) (m : Manifest) (st : Stripe) (ct : Bytes) (shards : List Bytes) : Prop where
  ne_nil : ct ≠ []
  encode : (⟨m.dataShards, m.parityShards⟩ : Params).encode L ct = .ok shards
  shardIDs : st.shardIDs = shards.map hashOf
  ciphertextBytes : st.ciphertextBytes = ct.length
  /-- The stripe is in memory when it is encoded. -/
  allocatable : Allocatable ct.length

/-- An environment in which the holders that are up serve the shards of a stripe. What is in the node's own
block store under their ids is these shards. -/
structure Serving {W : Type} (L : Libs) (me : Bytes) (E : Env NodeSig W) (live : Bytes → Bool)
    (m : Manifest) (st : Stripe) (shards : List Bytes) : Prop where
  guard : ∀ {w : W} {o : NodeOp}, Surveys o → o ≠ .panic → E.guard w o
  online : ∀ {w h r w'}, E.step w (.isOnline h) r w' → r = live h
  found : ∀ {i : ℕ} {id w d w'}, st.shardIDs[i]? = some id → E.step w (.blockGet id) (.ok d) w' →
    shards[i]? = some d
  own : ∀ {i : ℕ} {id w e w'}, m.holders[i]? = some me → st.shardIDs[i]? = some id →
    ¬ E.step w (.blockGet id) (.error e) w'
  held : ∀ {i : ℕ} {h}, m.holders[i]? = some h → h ≠ me → live h = true →
    ∃ pid, L.peerDecode h = .ok pid ∧ ∀ {id w r w'}, st.shardIDs[i]? = some id →
      E.step w (.request pid ⟨.getShard, id, []⟩) r w' →
      ∃ resp, r = .ok resp ∧ resp.ok = true ∧ shards[i]? = some resp.body

/-- A peer takes a shard that it is given. -/
def Accepts {W : Type} (L : Libs) (me : Bytes) (E : Env NodeSig W) (peer id data : Bytes) : Prop :=
  (peer = me ∧ ∀ {w e w'}, ¬ E.step w (.blockPut id data) (.error e) w') ∨
  (peer ≠ me ∧ ∃ pid, L.peerDecode peer = .ok pid ∧ ∀ {w r w'},
    E.step w (.request pid ⟨.putShard, id, data⟩) r w' → ∃ resp, r = .ok resp ∧ resp.ok = true)

section Served

variable {W : Type} {L : Libs} {self : Bytes} {E : Env NodeSig W} {live : Bytes → Bool} {m : Manifest}
  {st : Stripe} {ct : Bytes} {shards : List Bytes} {slot : ℕ}

/-- The shard of a slot is had, or its holder is not up. -/
theorem wp_fetchSurvivor (hE : Serving L self E live m st shards) {i : ℕ} {id h : Bytes}
    (hid : st.shardIDs[i]? = some id) (hh : m.holders[i]? = some h) (w : W) :
    wp E (fetchSurvivor L self m i id)
      (returns fun g _ => (g = none ∧ isUp self live h = false) ∨ ∃ d, g = some d ∧ shards[i]? = some d)
      w := by
  unfold fetchSurvivor
  refine ⟨hE.guard trivial (by simp), ?_⟩
  intro r w₁ hstep
  simp only [bind_eq, ret_bind]
  cases r with
  | ok d => exact .inr ⟨d, rfl, hE.found hid hstep⟩
  | error e =>
    rw [hh, orPanic_some, ret_bind]
    by_cases hself : h = self
    · subst hself
      exact absurd hstep (hE.own hh hid)
    rw [if_neg hself]
    refine ⟨hE.guard trivial (by simp), ?_⟩
    intro online w₂ hstep₂
    obtain rfl := hE.online hstep₂
    simp only [bind_eq, ret_bind]
    cases hlive : live h with
    | false => exact .inl ⟨rfl, by simp [isUp, hself, hlive]⟩
    | true =>
      obtain ⟨pid, hpid, hserve⟩ := hE.held hh hself hlive
      simp only [Bool.not_true, Bool.false_eq_true, if_false, hpid]
      unfold getShardFromPeer request
      rw [wp_bind, wp_attempt, wp_bind, wp_bind]
      refine ⟨hE.guard (.inl rfl) (by simp), ?_⟩
      intro r w₃ hstep₃
      obtain ⟨resp, rfl, hok, hbody⟩ := hserve hid hstep₃
      simp only [wp_ret, andThen_ok, ofExcept_ok, ret_bind, hok, if_true]
      refine ⟨hE.guard trivial (by simp), ?_⟩
      intro u w₄ _
      exact .inr ⟨resp.body, rfl, hbody⟩

/-- The slots from `i` on give some of the shards, in number all whose holder is up if that is not enough. -/
theorem wp_gatherSurvivors (hE : Serving L self E live m st shards)
    (hslot : ∀ h, m.holders[slot]? = some h → isUp self live h = false)
    (hids : st.shardIDs.length = shards.length) (hholders : m.holders.length = shards.length) (n i : ℕ)
    (hn : shards.length = i + n) (gathered : ℤ) (w : W) :
    wp E (gatherSurvivors L self m slot i (st.shardIDs.drop i) gathered)
      (returns fun x _ => SomeOf (shards.drop i) x.1 ∧ x.2 = gathered + present x.1 ∧
        (m.dataShards ≤ x.2 ∨ gathered + (m.holders.drop i).countP (isUp self live) ≤ x.2)) w := by
  induction n generalizing i gathered w with
  | zero =>
    rw [List.drop_eq_nil_of_le (by omega), List.drop_eq_nil_of_le (by omega),
      List.drop_eq_nil_of_le (by omega)]
    exact ⟨.nil, by simp [present], .inr (by simp)⟩
  | succ n ih =>
    have hi : i < shards.length := by omega
    rw [List.drop_eq_getElem_cons (show i < st.shardIDs.length by omega), List.drop_eq_getElem_cons hi,
      List.drop_eq_getElem_cons (show i < m.holders.length by omega)]
    have hrest := ih (i + 1) (by omega)
    unfold gatherSurvivors
    split_ifs with hfew hskip
    · -- The slot that is repaired: its holder is not up.
      have hdown : isUp self live m.holders[i] = false :=
        hslot _ (by rw [← hskip]; exact List.getElem?_eq_getElem _)
      refine wp_bind_returns (hrest gathered w) ?_
      rintro ⟨got, total⟩ w' ⟨hsome, htotal, hcount⟩
      refine ⟨.cons (.inl rfl) hsome, by simpa [present_cons] using htotal, ?_⟩
      rw [List.countP_cons_of_neg (by simp [hdown])]
      exact hcount
    · refine wp_bind_returns (wp_fetchSurvivor hE (List.getElem?_eq_getElem _)
        (List.getElem?_eq_getElem (show i < m.holders.length by omega)) w) ?_
      intro g w₁ hg
      refine wp_bind_returns (hrest _ w₁) ?_
      rintro ⟨got, total⟩ w' ⟨hsome, htotal, hcount⟩
      simp only at htotal hcount
      -- The slot yields its shard, unless its holder is not up.
      rcases hg with ⟨rfl, hdown⟩ | ⟨d, rfl, hd⟩
      · refine ⟨.cons (.inl rfl) hsome, by simpa [present_cons] using htotal, ?_⟩
        rw [List.countP_cons_of_neg (by simp [hdown])]
        exact hcount
      · rw [List.getElem?_eq_getElem hi] at hd
        refine ⟨.cons (.inr hd.symm) hsome, ?_, ?_⟩
        · simp only [Option.isSome_some, if_true, present_cons] at htotal ⊢
          omega
        · simp only [Option.isSome_some, if_true, List.countP_cons] at hcount ⊢
          split_ifs <;> omega
    · -- There are enough shards, and the other slots are left empty.
      have hlen : (shards.drop (i + 1)).length = (st.shardIDs.drop (i + 1)).length := by
        rw [List.length_drop, List.length_drop, hids]
      refine ⟨.cons (.inl rfl) (someOf_none hlen), ?_, .inl (by simpa using hfew)⟩
      simp only [present_cons, present_none]
      simp

/-- The shard of a slot is reconstructed as it was and put on the spare. -/
theorem wp_migrateStripeShard_served (hR : L.rs.Mds) (hE : Serving L self E live m st shards)
    (hcoded : Coded L m st ct shards) (hholders : m.holders.length = shards.length)
    (hslot : ∀ h, m.holders[slot]? = some h → isUp self live h = false)
    (hlive : m.dataShards ≤ m.holders.countP (isUp self live)) {spare d : Bytes}
    (hd : shards[slot]? = some d) (haccepts : Accepts L self E spare (hashOf d) d) (w : W) :
    wp E (migrateStripeShard L self m st slot spare) (returns fun _ _ => True) w := by
  have hids : st.shardIDs.length = shards.length := by rw [hcoded.shardIDs, List.length_map]
  obtain ⟨hk, hm, hnew, hcode⟩ := Params.encodes_of_encode hR hcoded.ne_nil hcoded.encode
  have hle := hR.total_le _ _ hnew
  -- The number of shards of a code is bounded, so the sum of the two fields does not wrap.
  have htotal : wrap64 (m.dataShards + m.parityShards) = shards.length := by
    rw [wrap64_of_range (by simp only at *; omega) (by simp only at *; omega)]
    exact hcode.length_eq.symm
  unfold migrateStripeShard
  simp only [htotal, hids]
  rw [if_neg (by simp)]
  refine wp_bind_returns (wp_gatherSurvivors hE hslot hids hholders shards.length 0 (by simp) 0 w) ?_
  rintro ⟨got, n⟩ w₁ ⟨hsome, hn, hcount⟩
  simp only [List.drop_zero, zero_add] at hsome hn hcount ⊢
  have henough : m.dataShards ≤ n := hcount.elim id hlive.trans
  rw [if_neg (by omega), hcoded.ciphertextBytes,
    Params.decode_encode hR hcoded.ne_nil hcoded.encode hcoded.allocatable hsome (by simp only; omega),
    orPanic_some, ret_bind]
  simp only [List.getElem?_map, hd, Option.map_some, orPanic_some, ret_bind, hcoded.shardIDs]
  rw [if_neg (by simp)]
  unfold placeShard
  rcases haccepts with ⟨rfl, hput⟩ | ⟨hne, pid, hpid, hput⟩
  · rw [if_pos rfl]
    refine ⟨hE.guard trivial (by simp), ?_⟩
    intro r w₂ hstep
    simp only [bind_eq, ret_bind, wp_ofExcept]
    cases r with
    | error e => exact absurd hstep hput
    | ok u => trivial
  · rw [if_neg hne]
    simp only [hpid]
    unfold putShardOnPeer request
    rw [wp_bind, wp_bind]
    refine ⟨hE.guard (.inr rfl) (by simp), ?_⟩
    intro r w₂ hstep
    obtain ⟨resp, rfl, hok⟩ := hput hstep
    simp only [wp_ret, andThen_ok, ofExcept_ok, ret_bind, hok, if_true]
    exact ⟨hE.guard trivial (by simp), fun u w₃ _ => trivial⟩

/-- The shards of a slot are put on the spare for all stripes. -/
theorem wp_migrateStripes_served (hR : L.rs.Mds) {cts : Stripe → Bytes} {code : Stripe → List Bytes}
    {spare : Bytes} (hholders : (m.holders.length : ℤ) = m.dataShards + m.parityShards)
    (hin : slot < m.holders.length)
    (hslot : ∀ h, m.holders[slot]? = some h → isUp self live h = false)
    (hlive : m.dataShards ≤ m.holders.countP (isUp self live)) (sts : List Stripe)
    (hsts : ∀ st ∈ sts, Coded L m st (cts st) (code st) ∧ Serving L self E live m st (code st) ∧
      ∀ d, (code st)[slot]? = some d → Accepts L self E spare (hashOf d) d) (w : W) :
    wp E (migrateStripes L self m slot spare sts) (returns fun _ _ => True) w := by
  induction sts generalizing w with
  | nil => trivial
  | cons st sts ih =>
    obtain ⟨hcoded, hE, haccepts⟩ := hsts st List.mem_cons_self
    obtain ⟨-, -, -, hcode⟩ := Params.encodes_of_encode hR hcoded.ne_nil hcoded.encode
    have hlen : m.holders.length = (code st).length := by
      have := hcode.length_eq
      simp only at this
      omega
    obtain ⟨d, hd⟩ : ∃ d, (code st)[slot]? = some d := ⟨_, List.getElem?_eq_getElem (hlen ▸ hin)⟩
    unfold migrateStripes
    rw [wp_bind, wp_attempt]
    refine wp_mono (wp_migrateStripeShard_served hR hE hcoded hlen hslot hlive hd (haccepts d hd) w) ?_
    rintro (e | u) w' hw'
    · exact hw'.elim
    · exact ih (fun st' hst' => hsts st' (List.mem_cons_of_mem _ hst')) w'

/-- The search for a spare comes to the first member that is up and no holder, or to none. -/
theorem wp_findSpare_served (hg : ∀ w h, E.guard w (.isOnline h))
    (honline : ∀ {w h r w'}, E.step w (.isOnline h) r w' → r = live h) (holders : List Bytes)
    (members : List Member) (w : W) :
    wp E (findSpare self holders members) (returns fun spare _ =>
      spare = ((spareOf self live holders members).map Member.peerID).getD []) w := by
  induction members generalizing w with
  | nil => rfl
  | cons mem members ih =>
    rw [spareOf_cons]
    unfold findSpare
    by_cases hholder : mem.peerID ∈ holders
    · rw [if_pos hholder, if_neg fun h => h.1 hholder]
      exact ih w
    rw [if_neg hholder]
    by_cases hself : mem.peerID = self
    · rw [if_pos hself, if_pos ⟨hholder, by simp [isUp, hself]⟩]
      rfl
    rw [if_neg hself]
    refine ⟨hg _ _, ?_⟩
    intro online w₁ hstep
    obtain rfl := honline hstep
    have hup : isUp self live mem.peerID = live mem.peerID := by simp [isUp, hself]
    simp only [bind_eq, ret_bind, hup, hholder, not_false_eq_true, true_and]
    cases hlive : live mem.peerID with
    | true => rfl
    | false => exact ih w₁

/-- Counting returns no error. -/
theorem handled_countLive (hs : List Bytes) (n : ℤ) : (countLive self hs n).Handled := by
  induction hs generalizing n with
  | nil => trivial
  | cons h hs ih =>
    unfold countLive
    split_ifs
    · exact ih _
    · exact fun online => ih _

/-- What a repair needs of its environment besides the shards: the node's disk works, and the spare
takes what it is given. -/
structure Repairable (L : Libs) (me : Bytes) (E : Env NodeSig W) (live : Bytes → Bool) (m : Manifest)
    (slot : ℕ) (code : Stripe → List Bytes) : Prop where
  guard : ∀ {w : W} {o : NodeOp}, o ≠ .panic →
    (∀ key raw, o = .storePut key raw → key = manifestKey m.fileID) → E.guard w o
  panic : (12 ≤ m.fileID.length ∧ 12 ≤ m.groupID.length) ∨ ∀ w, E.guard w .panic
  online : ∀ {w h r w'}, E.step w (.isOnline h) r w' → r = live h
  members : ∀ {w pairs err w'}, E.step w (.storeIterate (memberPrefix m.groupID)) (pairs, err) w' →
    err = none ∧ ∀ mem, spareOf me live m.holders (decodeValues L.cbor.member pairs) = some mem →
      ∀ st ∈ m.stripes, ∀ d, (code st)[slot]? = some d → Accepts L me E mem.peerID (hashOf d) d
  save : ∀ {w raw e w'}, ¬ E.step w (.storePut (manifestKey m.fileID) raw) (.error e) w'

/-- A log line of a repair. -/
theorem Repairable.wp_slice12 {code : Stripe → List Bytes} (h : Repairable L self E live m slot code)
    {b : Bytes} (hb : b = m.fileID ∨ b = m.groupID) (w : W) :
    wp E (slice12 b) (returns fun _ _ => True) w := by
  rcases h.panic with ⟨hf, hg⟩ | hpanic
  · rw [slice12_of_le (by rcases hb with rfl | rfl <;> assumption)]
    trivial
  · refine (only_slice12 (A := (· = .panic)) rfl b).wp_returns (handled_slice12 b) ?_ w
    rintro w o rfl
    exact hpanic w

/-- A repair whose holders serve and whose spare accepts does not fail. -/
theorem wp_repairFile_served (hR : L.rs.Mds) (cts : Stripe → Bytes) {code : Stripe → List Bytes}
    (hE : Repairable L self E live m slot code)
    (hholders : (m.holders.length : ℤ) = m.dataShards + m.parityShards)
    (hin : slot < m.holders.length)
    (hslot : ∀ h, m.holders[slot]? = some h → isUp self live h = false)
    (hlive : m.dataShards ≤ m.holders.countP (isUp self live))
    (hsts : ∀ st ∈ m.stripes, Coded L m st (cts st) (code st) ∧ Serving L self E live m st (code st))
    (w : W) : wp E (repairFile L self m slot) (returns fun _ _ => True) w := by
  unfold repairFile
  refine wp_bind_returns ((only_countLive _ _).wp_returns (handled_countLive _ _) ?_ w) ?_
  · rintro w o ⟨h, rfl⟩
    exact hE.guard (by simp) (by simp)
  intro live' w₁ _
  split_ifs
  · exact hE.wp_slice12 (.inl rfl) w₁
  refine ⟨hE.guard (by simp) (by simp), ?_⟩
  rintro ⟨pairs, err⟩ w₂ hstep
  obtain ⟨rfl, haccepts⟩ := hE.members hstep
  simp only [bind_eq, pure_eq, ret_bind]
  refine wp_bind_returns (wp_findSpare_served (fun w h => hE.guard (by simp) (by simp))
    hE.online m.holders _ w₂) ?_
  intro spare w₃ hspare
  by_cases hne : spare = []
  · rw [if_pos hne]
    exact wp_bind_returns (hE.wp_slice12 (.inl rfl) w₃) fun _ w₄ _ => hE.wp_slice12 (.inr rfl) w₄
  rw [if_neg hne]
  obtain ⟨mem, hmem, rfl⟩ : ∃ mem, spareOf self live m.holders (decodeValues L.cbor.member pairs) =
      some mem ∧ mem.peerID = spare := by
    cases hfind : spareOf self live m.holders (decodeValues L.cbor.member pairs) with
    | none => exact absurd (by simpa [hfind] using hspare) hne
    | some mem => exact ⟨mem, rfl, by simpa [hfind] using hspare.symm⟩
  unfold migrateSlot
  refine wp_bind_returns (wp_migrateStripes_served hR hholders hin hslot hlive m.stripes
    (fun st hst => ⟨(hsts st hst).1, (hsts st hst).2, haccepts mem hmem st hst⟩) w₃) ?_
  intro _ w₄ _
  simp only
  rw [wp_bind, wp_mapErr]
  refine ⟨hE.guard (by simp) (by rintro key raw ⟨⟩; rfl), ?_⟩
  intro r w₅ hstep₅
  simp only [bind_eq, ret_bind, wp_ofExcept]
  cases r with
  | error e => exact absurd hstep₅ hE.save
  | ok u =>
    -- The manifest is sent to the holders that can be reached.
    have hsend : ∀ m' : Manifest, m'.fileID = m.fileID → wp E (m'.holders.foldlM
        (fun _ h => propagate L self m' h) () >>= fun _ => slice12 m'.fileID)
        (returns fun _ _ => True) w₅ := by
      intro m' hm'
      refine wp_bind_returns ((only_foldlM (fun _ h _ => only_propagate m' h) ()).wp_returns
        (handled_foldlM (fun _ h => handled_propagate m' h) _ _) ?_ w₅) ?_
      · rintro w o ⟨pid, rfl⟩
        exact hE.guard (by simp) (by simp)
      · intro _ w₆ _
        exact hE.wp_slice12 (.inl hm') w₆
    exact hsend _ rfl

end Served

/-! ## A node whose disk works -/

/-- The answers of a node whose disk works, with what its ledger has online and what peers can answer. -/
def Watched (live : Bytes → Bool) (net : Bytes → Request → Except GoErr Response → Prop)
    (s : NodeState) : (o : NodeOp) → o.Ans → Prop
  | .isOnline h, r => r = live h
  | .storeIterate pre, r => r = (s.scan pre, none)
  | .storePut _ _, r => r = .ok ()
  | .blockGet id, r => isShardID id = true → r = s.block id
  | .request pid req, r => net pid req r
  | _, _ => True

/-- A node whose disk works. -/
def watchEnv (live : Bytes → Bool) (net : Bytes → Request → Except GoErr Response → Prop) :
    Env NodeSig NodeState where
  step s o r s' := s.step o r s' ∧ Watched live net s o r
  guard _ _ := True

/-- Whatever the node does but panic is answered. An answer need not change more than the record that is
stored. -/
theorem watchEnv_answers {live : Bytes → Bool} {net : Bytes → Request → Except GoErr Response → Prop}
    (hnet : ∀ pid req, ∃ r, net pid req r) (s : NodeState) (o : NodeOp) (ho : o ≠ .panic) :
    ∃ r s', (watchEnv live net).step s o r s' ∧ s'.blocks = s.blocks ∧
      (s'.store = s.store ∨ ∃ key value, o = .storePut key value ∧ s'.store = s.store.put key value) := by
  cases o with
  | now => exact ⟨(0 : ℤ), s, ⟨rfl, trivial⟩, rfl, .inl rfl⟩
  | rand n => exact ⟨.error .eof, s, ⟨rfl, trivial⟩, rfl, .inl rfl⟩
  | storeGet key => exact ⟨_, s, ⟨⟨rfl, .inl rfl⟩, trivial⟩, rfl, .inl rfl⟩
  | storePut key value => exact ⟨_, _, ⟨.inl ⟨rfl, rfl⟩, rfl⟩, rfl, .inr ⟨_, _, rfl, rfl⟩⟩
  | storeIterate pre => exact ⟨_, s, ⟨⟨rfl, .inl rfl⟩, rfl⟩, rfl, .inl rfl⟩
  | blockPut id data =>
    by_cases hv : verifyHash id data = true
    · refine ⟨.error .eof, s, ⟨?_, trivial⟩, rfl, .inl rfl⟩
      simp [NodeState.step, hv]
    · refine ⟨.error errHashMismatch, s, ⟨?_, trivial⟩, rfl, .inl rfl⟩
      simp [NodeState.step, hv]
  | blockGet id => exact ⟨_, s, ⟨⟨rfl, fun _ => .inl rfl⟩, fun _ => rfl⟩, rfl, .inl rfl⟩
  | request peer req =>
    obtain ⟨r, hr⟩ := hnet peer req
    exact ⟨r, s, ⟨rfl, hr⟩, rfl, .inl rfl⟩
  | isOnline peer => exact ⟨_, s, ⟨rfl, rfl⟩, rfl, .inl rfl⟩
  | record counter peer n => exact ⟨(), s, ⟨rfl, trivial⟩, rfl, .inl rfl⟩
  | spoolWrite peer kind key data =>
    by_cases hempty : peer = [] ∨ key = []
    · refine ⟨.error (.msg (lit "spool: empty peer id or key")), s, ⟨?_, trivial⟩, rfl, .inl rfl⟩
      simp [NodeState.step, hempty]
    · refine ⟨.error .eof, s, ⟨?_, trivial⟩, rfl, .inl rfl⟩
      simp [NodeState.step, hempty]
  | spoolPeers => exact ⟨.error .eof, s, ⟨⟨rfl, .inr ⟨_, rfl⟩⟩, trivial⟩, rfl, .inl rfl⟩
  | spoolList peer => exact ⟨.error .eof, s, ⟨⟨rfl, .inr ⟨_, rfl⟩⟩, trivial⟩, rfl, .inl rfl⟩
  | spoolRead e => exact ⟨.error .eof, s, ⟨⟨rfl, .inr ⟨_, rfl⟩⟩, trivial⟩, rfl, .inl rfl⟩
  | spoolRemove e => exact ⟨.error .eof, s, ⟨.inr ⟨⟨_, rfl⟩, rfl⟩, trivial⟩, rfl, .inl rfl⟩
  | cacheGet fileID idx => exact ⟨none, s, ⟨rfl, trivial⟩, rfl, .inl rfl⟩
  | cachePut fileID idx data => exact ⟨(), s, ⟨rfl, trivial⟩, rfl, .inl rfl⟩
  | rangeMap keys => exact ⟨⟨keys, .refl _⟩, s, ⟨rfl, trivial⟩, rfl, .inl rfl⟩
  | connected => exact ⟨([] : List Bytes), s, ⟨rfl, trivial⟩, rfl, .inl rfl⟩
  | sendJoin peer req => exact ⟨.error .eof, s, ⟨rfl, trivial⟩, rfl, .inl rfl⟩
  | sendMembers peer req => exact ⟨.error .eof, s, ⟨rfl, trivial⟩, rfl, .inl rfl⟩
  | replyJoin resp => exact ⟨.ok (), s, ⟨rfl, trivial⟩, rfl, .inl rfl⟩
  | replyMembers resp => exact ⟨.ok (), s, ⟨rfl, trivial⟩, rfl, .inl rfl⟩
  | panic => exact absurd rfl ho

end FnShare
