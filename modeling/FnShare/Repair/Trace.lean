import FnShare.Repair
import FnShare.World

/-!
# The executions of a repair

What `repairFile` does, whatever the peers, the disk and the ledger answer. Up to where the manifest is
stored, a repair reads, asks and puts shards (`Surveys`). It comes to store the manifest when it has put
the shard of every stripe on the spare (`Migrated`), and it stores once (`wp_repairFile`). Over the disk of
a node this says what becomes of its store (`repairFile_trace`).
-/

namespace FnShare

open Prog

/-! ## The operations of a repair -/

/-- The operations of a repair besides storing the manifest and sending it. -/
def Surveys : NodeOp → Prop
  | .isOnline _ | .storeIterate _ | .blockGet _ | .blockPut _ _ | .record _ _ _ | .panic => True
  | .request _ req => req.op = .getShard ∨ req.op = .putShard
  | _ => False

/-- Whether an event is a `store.Put`. -/
def isStorePut (e : NodeEvent) : Bool :=
  match e.op with
  | .storePut _ _ => true
  | _ => false

/-- Whether an event is a `store.Put` that succeeded. -/
def NodeEvent.stored : NodeEvent → Bool
  | ⟨.storePut _ _, .ok ()⟩ => true
  | _ => false

/-- The calls of `store.Put` in a trace. -/
def storePuts (evs : List NodeEvent) : List NodeEvent := evs.filter isStorePut

/-- Nothing was stored. -/
@[simp] theorem storePuts_nil : storePuts [] = [] := rfl

/-- The stores of two parts of a trace. -/
@[simp] theorem storePuts_append (evs evs' : List NodeEvent) :
    storePuts (evs ++ evs') = storePuts evs ++ storePuts evs' := List.filter_append ..

/-- The stores of the first operation. -/
theorem storePuts_cons (e : NodeEvent) (evs : List NodeEvent) :
    storePuts (e :: evs) = storePuts [e] ++ storePuts evs := storePuts_append [e] evs

/-- Surveying stores nothing. -/
theorem storePuts_of_surveys {evs : List NodeEvent} (h : ∀ e ∈ evs, Surveys e.op) :
    storePuts evs = [] := by
  unfold storePuts
  rw [List.filter_eq_nil_iff]
  rintro ⟨o, r⟩ he hput
  have := h _ he
  cases o with
  | storePut key value => exact this
  | _ => exact absurd hput (by simp [isStorePut])

/-- Of a trace with a `store.Put`, the part up to the first one. -/
theorem exists_first_storePut {evs : List NodeEvent} (h : storePuts evs ≠ []) :
    ∃ pre key value r post, evs = pre ++ ⟨.storePut key value, r⟩ :: post ∧ storePuts pre = [] := by
  induction evs with
  | nil => exact absurd rfl h
  | cons e evs ih =>
    obtain ⟨o, r⟩ := e
    cases o with
    | storePut key value => exact ⟨[], key, value, r, evs, rfl, rfl⟩
    | _ =>
      obtain ⟨pre, key, value, r', post, rfl, hpre⟩ := ih h
      exact ⟨_ :: pre, key, value, r', post, rfl, hpre⟩

section Survey

variable {L : Libs} {self : Bytes}

/-- Counting the holders that are up only asks the ledger. -/
theorem only_countLive (hs : List Bytes) (n : ℤ) :
    (countLive self hs n).Only fun o => ∃ h, o = NodeOp.isOnline h := by
  induction hs generalizing n with
  | nil => trivial
  | cons h hs ih =>
    unfold countLive
    split_ifs
    · exact ih _
    · exact ⟨⟨h, rfl⟩, fun online => ih _⟩

/-- So that counting them only surveys. -/
theorem surveys_countLive (hs : List Bytes) (n : ℤ) : (countLive self hs n).Only Surveys := by
  refine (only_countLive hs n).mono ?_
  rintro o ⟨h, rfl⟩
  trivial

/-- The search for a spare only surveys. -/
theorem only_findSpare (holders : List Bytes) (mems : List Member) :
    (findSpare self holders mems).Only Surveys := by
  induction mems with
  | nil => trivial
  | cons mem rest ih =>
    unfold findSpare
    split_ifs
    · exact ih
    · trivial
    · refine ⟨trivial, fun online => ?_⟩
      simp only [bind_eq, ret_bind]
      split_ifs
      · trivial
      · exact ih

/-- Fetching the shard of a slot only surveys. -/
theorem only_fetchSurvivor (m : Manifest) (i : ℕ) (shardID : Bytes) :
    (fetchSurvivor L self m i shardID).Only Surveys := by
  refine ⟨trivial, fun r => ?_⟩
  simp only [bind_eq, ret_bind]
  cases r with
  | ok data => trivial
  | error e =>
    refine only_bind (only_orPanic trivial _) fun holder => ?_
    split_ifs
    · trivial
    · refine ⟨trivial, fun online => ?_⟩
      simp only [bind_eq, ret_bind]
      cases online with
      | false => trivial
      | true =>
        simp only [Bool.not_true, Bool.false_eq_true, if_false]
        cases L.peerDecode holder with
        | error e => trivial
        | ok pid =>
          refine only_bind (only_attempt (only_getShardFromPeer (.inl rfl) fun _ _ _ => trivial)) ?_
          rintro (e | data) <;> trivial

/-- So does gathering shards. -/
theorem only_gatherSurvivors (m : Manifest) (slot i : ℕ) (ids : List Bytes) (gathered : ℤ) :
    (gatherSurvivors L self m slot i ids gathered).Only Surveys := by
  induction ids generalizing i gathered with
  | nil => trivial
  | cons id ids ih =>
    unfold gatherSurvivors
    split_ifs
    · exact only_bind (ih _ _) fun _ => trivial
    · exact only_bind (only_fetchSurvivor m i id) fun _ => only_bind (ih _ _) fun _ => trivial
    · trivial

end Survey

/-! ## The executions -/

section Rules

variable (L : Libs) (me : Bytes)

/-- A shard with the right hash was put on the spare, which has acknowledged it. -/
def ShardPlaced (spare id : Bytes) (evs : List NodeEvent) : Prop :=
  ∃ data, hashOf data = id ∧
    ((spare = me ∧ ⟨.blockPut id data, .ok ()⟩ ∈ evs) ∨
      ∃ pid resp, L.peerDecode spare = .ok pid ∧ resp.ok = true ∧
        ⟨.request pid ⟨.putShard, id, data⟩, .ok resp⟩ ∈ evs)

/-- The shards of a slot were put on a spare: a member of the group that is up and was no holder. -/
structure Migrated (m : Manifest) (slot : ℕ) (spare : Bytes) (evs : List NodeEvent) : Prop where
  not_holder : spare ∉ m.holders
  ne_nil : spare ≠ []
  live : spare = me ∨ ⟨.isOnline spare, true⟩ ∈ evs
  member : ∃ pairs mem, ⟨.storeIterate (memberPrefix m.groupID), (pairs, none)⟩ ∈ evs ∧
    mem ∈ decodeValues L.cbor.member pairs ∧ mem.peerID = spare
  placed : ∀ st ∈ m.stripes, ∃ id, st.shardIDs[slot]? = some id ∧ ShardPlaced L me spare id evs

/-- The manifest with another holder in a slot. -/
def Manifest.replaceHolder (m : Manifest) (slot : ℕ) (spare : Bytes) : Manifest :=
  { m with holders := m.holders.set slot spare }

/-- The file stays the same. -/
@[simp] theorem Manifest.fileID_replaceHolder (m : Manifest) (slot : ℕ) (spare : Bytes) :
    (m.replaceHolder slot spare).fileID = m.fileID := rfl

/-- More than `DataShards` holders were found up. -/
def EnoughLive (m : Manifest) (evs : List NodeEvent) : Prop :=
  ∃ live : List Bytes, live.Sublist m.holders ∧ m.dataShards < live.length ∧
    ∀ h ∈ live, h = me ∨ ⟨.isOnline h, true⟩ ∈ evs

/-- A member is passed over in the search for a spare: it is a holder, or it was found down. -/
def PassedOver (holders : List Bytes) (mem : Member) (evs : List NodeEvent) : Prop :=
  mem.peerID ∈ holders ∨ mem.peerID ≠ me ∧ ⟨.isOnline mem.peerID, false⟩ ∈ evs

/-- What the search for a spare comes to: the first member that is up and no holder, or the empty string
when there is none. -/
def SpareFound (holders : List Bytes) (members : List Member) (spare : Bytes) (evs : List NodeEvent) :
    Prop :=
  (∃ before mem after, members = before ++ mem :: after ∧ (∀ x ∈ before, PassedOver me holders x evs) ∧
    mem.peerID = spare ∧ spare ∉ holders ∧ (spare = me ∨ ⟨.isOnline spare, true⟩ ∈ evs)) ∨
  (spare = [] ∧ ∀ mem ∈ members, PassedOver me holders mem evs)

/-- No spare was found among the members of the group. One whose peer id is the empty string is none. -/
def NoSpare (m : Manifest) (members : List Member) (evs : List NodeEvent) : Prop :=
  SpareFound me m.holders members [] evs

/-- There was nothing to do for a repair, or nothing that it could do. -/
def Idle (m : Manifest) (evs : List NodeEvent) : Prop :=
  EnoughLive me m evs ∨ ∃ pairs, ⟨.storeIterate (memberPrefix m.groupID), (pairs, none)⟩ ∈ evs ∧
    NoSpare me m (decodeValues L.cbor.member pairs) evs

/-- What a repair has stored, by the trace: nothing, which is no error if there was nothing to do; or the
manifest with a spare that has the shards, which is no error if it succeeded. -/
def Committed (m : Manifest) (slot : ℕ) (r : Except GoErr Unit) (evs : List NodeEvent) : Prop :=
  (storePuts evs = [] ∧ (r = .ok () → Idle L me m evs)) ∨
  ∃ spare a, Migrated L me m slot spare evs ∧
    storePuts evs = [⟨.storePut (manifestKey m.fileID)
      (L.cbor.manifest.marshal (m.replaceHolder slot spare)), a⟩] ∧ (a = .ok () ↔ r = .ok ())

variable {L} {self : Bytes}
variable {spare : Bytes} {evs evs' : List NodeEvent} {m : Manifest} {holders : List Bytes}

/-- A shard that is placed stays so. -/
theorem ShardPlaced.mono {id : Bytes} (h : ShardPlaced L self spare id evs) (hsub : evs ⊆ evs') :
    ShardPlaced L self spare id evs' := by
  obtain ⟨data, hhash, ⟨hself, hmem⟩ | ⟨pid, resp, hpid, hok, hmem⟩⟩ := h
  · exact ⟨data, hhash, .inl ⟨hself, hsub hmem⟩⟩
  · exact ⟨data, hhash, .inr ⟨pid, resp, hpid, hok, hsub hmem⟩⟩

/-- So does a migrated slot. -/
theorem Migrated.mono {slot : ℕ} (h : Migrated L self m slot spare evs) (hsub : evs ⊆ evs') :
    Migrated L self m slot spare evs' where
  not_holder := h.not_holder
  ne_nil := h.ne_nil
  live := h.live.imp_right fun hmem => hsub hmem
  member := by
    obtain ⟨pairs, mem, hmem, hdec, hpeer⟩ := h.member
    exact ⟨pairs, mem, hsub hmem, hdec, hpeer⟩
  placed st hst := by
    obtain ⟨id, hid, hp⟩ := h.placed st hst
    exact ⟨id, hid, hp.mono hsub⟩

/-- The spare is the peer of an entry that was decoded. -/
theorem Migrated.decoded {slot : ℕ} (h : Migrated L self m slot spare evs) :
    ∃ entry mem, L.cbor.member.unmarshal entry = .ok mem ∧ mem.peerID = spare := by
  obtain ⟨pairs, mem, -, hmem, hpeer⟩ := h.member
  obtain ⟨⟨key, entry⟩, -, hdec⟩ := mem_decodeValues.mp hmem
  exact ⟨entry, mem, hdec, hpeer⟩

/-- What was counted stays counted. -/
theorem EnoughLive.mono (h : EnoughLive self m evs) (hsub : evs ⊆ evs') : EnoughLive self m evs' := by
  obtain ⟨live, hlive, hcount, hup⟩ := h
  exact ⟨live, hlive, hcount, fun h hh => (hup h hh).imp_right fun hmem => hsub hmem⟩

/-- Who was passed over stays so. -/
theorem PassedOver.mono {mem : Member} (h : PassedOver self holders mem evs) (hsub : evs ⊆ evs') :
    PassedOver self holders mem evs' :=
  h.imp_right fun ⟨hself, hoff⟩ => ⟨hself, hsub hoff⟩

/-- A spare that was found stays so. -/
theorem SpareFound.mono {members : List Member} (h : SpareFound self holders members spare evs)
    (hsub : evs ⊆ evs') : SpareFound self holders members spare evs' := by
  rcases h with ⟨before, mem, after, heq, hpass, hpeer, hnot, hup⟩ | ⟨hnil, hall⟩
  · exact .inl ⟨before, mem, after, heq, fun x hx => (hpass x hx).mono hsub, hpeer, hnot,
      hup.imp_right fun hmem => hsub hmem⟩
  · exact .inr ⟨hnil, fun mem hmem => (hall mem hmem).mono hsub⟩

/-- What was found idle stays so. -/
theorem Idle.mono (h : Idle L self m evs) (hsub : evs ⊆ evs') : Idle L self m evs' := by
  refine h.imp (fun h => h.mono hsub) ?_
  rintro ⟨pairs, hread, hnone⟩
  exact ⟨pairs, hsub hread, SpareFound.mono hnone hsub⟩

variable {W : Type} {E : Env NodeSig W} {guard : W → List NodeEvent → NodeOp → Prop} {v : W}
  {l : List NodeEvent} {slot : ℕ}

/-- A shard is put on the spare. -/
theorem wp_placeShard (hg : ∀ v l o, Surveys o → guard v l o) {id data : Bytes}
    (hhash : hashOf data = id) :
    wp (E.traced guard) (placeShard L self spare id data)
      (Does Surveys l fun r evs => r = .ok () → ShardPlaced L self spare id evs) (v, l) := by
  unfold placeShard
  by_cases hself : spare = self
  · rw [if_pos hself]
    refine wp_traced_op.mpr ⟨hg _ _ _ trivial, ?_⟩
    intro r v' _
    simp only [bind_eq, ret_bind, wp_ofExcept]
    refine ⟨[⟨.blockPut id data, r⟩], rfl, by simp [Surveys], ?_⟩
    rintro rfl
    exact ⟨data, hhash, .inl ⟨hself, List.mem_singleton_self _⟩⟩
  · rw [if_neg hself]
    cases hpid : L.peerDecode spare with
    | error e => exact does_nil (by simp) _ _
    | ok pid =>
      refine wp_putShardOnPeer_of (hg _ _ _ (.inr rfl)) ?_ ?_
      · rintro resp ⟨v', l'⟩ ⟨-, hl⟩ hok
        refine ⟨hg _ _ _ trivial, ?_⟩
        rintro u ⟨v'', l''⟩ ⟨-, hl'⟩
        refine ⟨[⟨.request pid ⟨.putShard, id, data⟩, .ok resp⟩, ⟨.record .storedOnThem pid data.length, u⟩],
          ?_, by simp [Surveys], fun _ => ?_⟩
        · rw [hl', hl, List.append_assoc]
          rfl
        · exact ⟨data, hhash, .inr ⟨pid, resp, hpid, hok, List.mem_cons_self⟩⟩
      · rintro a ⟨v', l'⟩ ⟨-, hl⟩ - e
        exact ⟨[_], hl, by simp [Surveys], by simp⟩

/-- The shard of one stripe is reconstructed and put on the spare. -/
theorem wp_migrateStripeShard (hg : ∀ v l o, Surveys o → guard v l o) (st : Stripe) (spare : Bytes) :
    wp (E.traced guard) (migrateStripeShard L self m st slot spare)
      (Does Surveys l fun r evs => r = .ok () →
        ∃ id, st.shardIDs[slot]? = some id ∧ ShardPlaced L self spare id evs) (v, l) := by
  unfold migrateStripeShard
  simp only
  split_ifs
  · exact does_nil (by simp) _ _
  refine wp_bind_does ((only_gatherSurvivors m slot 0 _ 0).wp_does hg v l) ?_ (by simp)
  rintro ⟨shardBytes, gathered⟩ v₁ evs₁ -
  simp only
  split_ifs
  · exact does_nil (by simp) _ _
  refine wp_bind_does ((only_orPanic trivial _).wp_does hg v₁ _) ?_ (by simp)
  rintro (e | ⟨full, ct⟩) v₂ evs₂ -
  · exact does_nil (by simp) _ _
  refine wp_bind_does ((only_orPanic trivial _).wp_does hg v₂ _) ?_ (by simp)
  rintro (_ | data) v₃ evs₃ -
  · exact does_nil (by simp) _ _
  cases hid : st.shardIDs[slot]? with
  | none => exact ⟨hg _ _ _ trivial, fun r => Empty.elim r⟩
  | some id =>
    simp only [orPanic_some, ret_bind]
    by_cases hhash : hashOf data = id
    · rw [if_neg (not_not.mpr hhash)]
      refine wp_mono (wp_placeShard hg hhash) ?_
      rintro r w ⟨evs, hl, hevs, hplaced⟩
      refine ⟨evs, hl, hevs, fun hr => ⟨id, rfl, (hplaced hr).mono ?_⟩⟩
      intro e he
      simp [he]
    · rw [if_pos hhash]
      exact does_nil (by simp) _ _

/-- The shards of all stripes are. -/
theorem wp_migrateStripes (hg : ∀ v l o, Surveys o → guard v l o) (spare : Bytes) (sts : List Stripe)
    (v : W) (l : List NodeEvent) :
    wp (E.traced guard) (migrateStripes L self m slot spare sts)
      (Does Surveys l fun r evs => r = .ok () → ∀ st ∈ sts,
        ∃ id, st.shardIDs[slot]? = some id ∧ ShardPlaced L self spare id evs) (v, l) := by
  induction sts generalizing v l with
  | nil => exact does_nil (by simp) _ _
  | cons st sts ih =>
    unfold migrateStripes
    refine wp_bind_does (wp_attempt_does (wp_migrateStripeShard hg st spare)) ?_ (by simp)
    rintro r v₁ evs₁ ⟨x, hx, hone⟩
    obtain rfl := Except.ok.inj hx
    cases r with
    | error e =>
      -- The error is passed on, after a log line.
      refine wp_bind_does ((only_slice12 trivial _).wp_does hg v₁ _) ?_ (by simp)
      intro _ v₂ evs₂ _
      exact does_nil (by simp) _ _
    | ok u =>
      refine wp_mono (ih v₁ _) ?_
      rintro r w ⟨evs₂, hl, hevs₂, hrest⟩
      refine ⟨evs₂, hl, hevs₂, fun hr st' hst' => ?_⟩
      rcases List.mem_cons.mp hst' with rfl | hst'
      · obtain ⟨id, hid, hp⟩ := hone rfl
        exact ⟨id, hid, hp.mono (List.subset_append_left _ _)⟩
      · obtain ⟨id, hid, hp⟩ := hrest hr st' hst'
        exact ⟨id, hid, hp.mono (List.subset_append_right _ _)⟩

/-- The count of the holders that are up is a count of holders that were found up. -/
theorem wp_countLive (hg : ∀ v l o, Surveys o → guard v l o) (hs : List Bytes) (n : ℤ) (v : W)
    (l : List NodeEvent) :
    wp (E.traced guard) (countLive self hs n)
      (Does Surveys l fun r evs => ∀ total, r = .ok total →
        ∃ live : List Bytes, live.Sublist hs ∧ total = n + live.length ∧
          ∀ h ∈ live, h = self ∨ ⟨.isOnline h, true⟩ ∈ evs) (v, l) := by
  induction hs generalizing n v l with
  | nil =>
    refine does_nil ?_ _ _
    rintro total ⟨⟩
    exact ⟨[], .slnil, by simp, by simp⟩
  | cons h hs ih =>
    unfold countLive
    split_ifs with hself
    · -- The node counts itself without asking the ledger.
      refine wp_mono (ih (n + 1) v l) ?_
      rintro r w ⟨evs, hl, hevs, hlive⟩
      refine ⟨evs, hl, hevs, fun total hr => ?_⟩
      obtain ⟨live, hsub, htotal, hup⟩ := hlive total hr
      refine ⟨h :: live, hsub.cons_cons h, by rw [htotal, List.length_cons]; push_cast; ring, ?_⟩
      exact List.forall_mem_cons.mpr ⟨.inl hself, hup⟩
    · have hask : wp (E.traced guard) (perform (.isOnline h))
          (Does Surveys l fun r evs => ∃ online, r = .ok online ∧ ⟨.isOnline h, online⟩ ∈ evs)
          (v, l) := by
        refine wp_traced_op.mpr ⟨hg _ _ _ trivial, ?_⟩
        intro online v' _
        exact ⟨[_], rfl, by simp [Surveys], online, rfl, List.mem_singleton_self _⟩
      refine wp_bind_does hask ?_ (by simp)
      rintro online v₁ evs₁ ⟨x, hx, hans⟩
      obtain rfl := Except.ok.inj hx
      refine wp_mono (ih _ v₁ _) ?_
      rintro r w ⟨evs₂, hl, hevs₂, hlive⟩
      refine ⟨evs₂, hl, hevs₂, fun total hr => ?_⟩
      obtain ⟨live, hsub, htotal, hup⟩ := hlive total hr
      have hup' : ∀ h' ∈ live, h' = self ∨ ⟨.isOnline h', true⟩ ∈ evs₁ ++ evs₂ := fun h' hh' =>
        (hup h' hh').imp_right (List.mem_append_right _)
      -- The holder is counted if the ledger says that it is up.
      cases online with
      | false => exact ⟨live, hsub.cons h, by simpa using htotal, hup'⟩
      | true =>
        refine ⟨h :: live, hsub.cons_cons h, ?_, ?_⟩
        · rw [htotal, List.length_cons, if_pos rfl]
          push_cast
          ring
        · exact List.forall_mem_cons.mpr ⟨.inr (List.mem_append_left _ hans), hup'⟩

/-- A member that is passed over changes nothing of what the search comes to. -/
theorem SpareFound.cons {mem : Member} {members : List Member} (hpass : PassedOver self holders mem evs)
    (h : SpareFound self holders members spare evs) : SpareFound self holders (mem :: members) spare evs := by
  rcases h with ⟨before, mem', after, rfl, hbefore, hfound⟩ | ⟨hnil, hall⟩
  · exact .inl ⟨mem :: before, mem', after, rfl, List.forall_mem_cons.mpr ⟨hpass, hbefore⟩, hfound⟩
  · exact .inr ⟨hnil, List.forall_mem_cons.mpr ⟨hpass, hall⟩⟩

/-- The search for a spare. -/
theorem wp_findSpare (hg : ∀ v l o, Surveys o → guard v l o) (holders : List Bytes)
    (members : List Member) (v : W) (l : List NodeEvent) :
    wp (E.traced guard) (findSpare self holders members)
      (Does Surveys l fun r evs => ∀ spare, r = .ok spare → SpareFound self holders members spare evs)
      (v, l) := by
  induction members generalizing v l with
  | nil =>
    refine does_nil ?_ _ _
    rintro spare ⟨⟩
    exact .inr ⟨rfl, by simp⟩
  | cons mem members ih =>
    have hfound : ∀ evs, mem.peerID ∉ holders →
        (mem.peerID = self ∨ ⟨.isOnline mem.peerID, true⟩ ∈ evs) → ∀ spare,
        (.ok mem.peerID : Except GoErr Bytes) = .ok spare →
        SpareFound self holders (mem :: members) spare evs := by
      rintro evs hnot hup spare ⟨⟩
      exact .inl ⟨[], mem, members, rfl, by simp, rfl, hnot, hup⟩
    unfold findSpare
    split_ifs with hholder hself
    · refine wp_mono (ih v l) ?_
      rintro r w ⟨evs, hl, hevs, hspare⟩
      exact ⟨evs, hl, hevs, fun spare hr => (hspare spare hr).cons (.inl hholder)⟩
    · exact does_nil (hfound _ hholder (.inl hself)) _ _
    · refine wp_traced_op.mpr ⟨hg _ _ _ trivial, ?_⟩
      intro online v₁ _
      simp only [bind_eq, ret_bind]
      cases online with
      | true =>
        exact ⟨[_], rfl, by simp [Surveys], hfound _ hholder (.inr (List.mem_singleton_self _))⟩
      | false =>
        -- A member that is not up is passed over like a holder.
        refine wp_mono (ih v₁ _) ?_
        rintro r ⟨v₂, l₂⟩ ⟨evs, hl, hevs, hspare⟩
        refine ⟨⟨.isOnline mem.peerID, false⟩ :: evs, ?_, ?_, fun spare hr => ?_⟩
        · rw [show l₂ = _ from hl]
          simp
        · exact List.forall_mem_cons.mpr ⟨trivial, hevs⟩
        · exact ((hspare spare hr).mono (List.subset_cons_self _ _)).cons
            (.inr ⟨hself, List.mem_cons_self⟩)

/-- What a repair does once the manifest is stored. -/
def Sends (L : Libs) (m : Manifest) (o : NodeOp) : Prop :=
  o = .panic ∨ ∃ pid, o = .request pid ⟨.putManifest, m.fileID, L.cbor.manifest.marshal m⟩

/-- The manifest is sent to a holder. -/
theorem only_propagate (m : Manifest) (h : Bytes) : (propagate L self m h).Only
    fun o => ∃ pid, o = NodeOp.request pid ⟨.putManifest, m.fileID, L.cbor.manifest.marshal m⟩ := by
  unfold propagate
  split_ifs
  · trivial
  · cases L.peerDecode h with
    | error e => trivial
    | ok pid =>
      refine only_bind (only_attempt (only_bind (only_request ⟨pid, rfl⟩) fun _ => trivial)) ?_
      intro _
      trivial

/-- That it cannot be sent is no error. -/
theorem handled_propagate (m : Manifest) (h : Bytes) : (propagate L self m h).Handled := by
  unfold propagate
  split_ifs
  · trivial
  · cases L.peerDecode h with
    | error e => trivial
    | ok pid => exact handled_bind (handled_attempt _) fun _ => trivial

/-- The rest of a repair that has nothing to do. -/
theorem wp_committed_of_only {p : NodeM Unit} (hp : p.Only Surveys)
    (hg : ∀ v l o, Surveys o → guard v l o) (hevs : ∀ e ∈ evs, Surveys e.op)
    (hdone : Idle L self m evs) (v : W) :
    wp (E.traced guard) p (Does (fun _ => True) l (Committed L self m slot)) (v, l ++ evs) := by
  refine wp_mono (hp.wp_does hg v _) ?_
  rintro r w ⟨evs', hl, hevs', -⟩
  have hsub : evs ⊆ evs ++ evs' := List.subset_append_left _ _
  refine ⟨evs ++ evs', by rw [hl, List.append_assoc], fun _ _ => trivial, .inl ⟨?_, fun _ => ?_⟩⟩
  · rw [storePuts_append, storePuts_of_surveys hevs, storePuts_of_surveys hevs', List.nil_append]
  · exact hdone.mono hsub

/-- The manifest is stored and sent. -/
theorem wp_commit (hevs : ∀ e ∈ evs, Surveys e.op) (hmig : Migrated L self m slot spare evs)
    (hput : guard v (l ++ evs) (.storePut (manifestKey m.fileID)
      (L.cbor.manifest.marshal (m.replaceHolder slot spare))))
    (hsend : ∀ v l' o, ⟨.storePut (manifestKey m.fileID)
      (L.cbor.manifest.marshal (m.replaceHolder slot spare)), .ok ()⟩ ∈ l' →
        Sends L (m.replaceHolder slot spare) o → guard v l' o) :
    wp (E.traced guard) (mapErr (.wrap (lit "save manifest: ")) (putManifest L (m.replaceHolder slot spare))
        >>= fun _ => (m.replaceHolder slot spare).holders.foldlM
          (fun _ h => propagate L self (m.replaceHolder slot spare) h) () >>= fun _ =>
          slice12 (m.replaceHolder slot spare).fileID)
      (Does (fun _ => True) l (Committed L self m slot)) (v, l ++ evs) := by
  rw [wp_bind, wp_mapErr]
  refine wp_traced_op.mpr ⟨hput, ?_⟩
  intro r v' _
  simp only [bind_eq, ret_bind, wp_ofExcept]
  have hnone := storePuts_of_surveys hevs
  cases r with
  | error e =>
    refine ⟨evs ++ [_], (List.append_assoc ..), fun _ _ => trivial, .inr ⟨spare, .error e, ?_, ?_, ?_⟩⟩
    · exact hmig.mono (List.subset_append_left _ _)
    · rw [storePuts_append, hnone]
      rfl
    · simp
  | ok u =>
    -- From here on the manifest is only sent.
    have honly : ((m.replaceHolder slot spare).holders.foldlM
        (fun _ h => propagate L self (m.replaceHolder slot spare) h) () >>= fun _ =>
        slice12 (m.replaceHolder slot spare).fileID).Only (Sends L (m.replaceHolder slot spare)) :=
      only_bind (only_foldlM (fun _ h _ => (only_propagate _ h).mono fun _ => .inr) ())
        fun _ => only_slice12 (.inl rfl) _
    have hhandled : ((m.replaceHolder slot spare).holders.foldlM
        (fun _ h => propagate L self (m.replaceHolder slot spare) h) () >>= fun _ =>
        slice12 (m.replaceHolder slot spare).fileID).Handled :=
      handled_bind (handled_foldlM (fun _ h => handled_propagate _ h) _ ()) fun _ => handled_slice12 _
    refine wp_mono (hhandled.wp_ok (honly.wp_does_from
      (fun v l' o hl => hsend v l' o (hl.subset (by simp))) v')) ?_
    rintro (e | u) w hw
    · exact hw.elim
    obtain ⟨evs', hl, hevs', -⟩ := hw
    refine ⟨evs ++ (⟨.storePut (manifestKey m.fileID)
      (L.cbor.manifest.marshal (m.replaceHolder slot spare)), .ok ()⟩ :: evs'), by rw [hl]; simp,
      fun _ _ => trivial, .inr ⟨spare, .ok (), ?_, ?_, ?_⟩⟩
    · exact hmig.mono (List.subset_append_left _ _)
    · have hrest : storePuts evs' = [] := by
        refine List.filter_eq_nil_iff.mpr fun e he hput' => ?_
        obtain ⟨o, a⟩ := e
        rcases hevs' _ he with ho | ⟨pid, ho⟩ <;> simp_all [isStorePut]
      rw [storePuts_append, hnone, storePuts_cons, hrest]
      rfl
    · simp

/-- Every execution of a repair stores at most the manifest, once the shards are on the spare, and sends
it only when it is stored. -/
theorem wp_repairFile (hg : ∀ v l o, Surveys o → guard v l o)
    (hput : ∀ v evs spare, Migrated L self m slot spare evs → storePuts evs = [] →
      guard v (l ++ evs) (.storePut (manifestKey m.fileID)
        (L.cbor.manifest.marshal (m.replaceHolder slot spare))))
    (hsend : ∀ v l' spare o, ⟨.storePut (manifestKey m.fileID)
        (L.cbor.manifest.marshal (m.replaceHolder slot spare)), .ok ()⟩ ∈ l' →
      Sends L (m.replaceHolder slot spare) o → guard v l' o) (v : W) :
    wp (E.traced guard) (repairFile L self m slot) (Does (fun _ => True) l (Committed L self m slot))
      (v, l) := by
  have happ : ∀ {evs evs' : List NodeEvent}, (∀ e ∈ evs, Surveys e.op) →
      (∀ e ∈ evs', Surveys e.op) → ∀ e ∈ evs ++ evs', Surveys e.op :=
    fun h h' e he => (List.mem_append.mp he).elim (h e) (h' e)
  have hfail : ∀ (e : GoErr) (v' : W) (evs : List NodeEvent), (∀ e ∈ evs, Surveys e.op) →
      Does (fun _ => True) l (Committed L self m slot) (.error e) (v', l ++ evs) :=
    fun e v' evs hevs => ⟨evs, rfl, fun _ _ => trivial, .inl ⟨storePuts_of_surveys hevs, by simp⟩⟩
  unfold repairFile
  refine wp_bind_of (wp_countLive hg m.holders 0 v l) ?_ ?_
  rotate_left
  · rintro e ⟨v₁, l₁⟩ ⟨evs₁, hl, hevs₁, -⟩
    obtain rfl : l₁ = l ++ evs₁ := hl
    exact hfail e v₁ evs₁ hevs₁
  rintro live ⟨v₁, l₁⟩ ⟨evs₁, hl, hevs₁, hlive⟩
  obtain rfl : l₁ = l ++ evs₁ := hl
  split_ifs with henough
  · -- More holders than data shards are up: the repair ends here.
    obtain ⟨up, hsub, hcount, hup⟩ := hlive live rfl
    refine wp_committed_of_only (only_slice12 trivial _) hg hevs₁ (.inl ⟨up, hsub, ?_, hup⟩) v₁
    omega
  have hlist : wp (E.traced guard) (listMembers L m.groupID)
      (Does Surveys (l ++ evs₁) fun r evs => ∀ members, r = .ok (members, none) →
        ∃ pairs, ⟨.storeIterate (memberPrefix m.groupID), (pairs, none)⟩ ∈ evs ∧
          members = decodeValues L.cbor.member pairs) (v₁, l ++ evs₁) := by
    refine wp_traced_op.mpr ⟨hg _ _ _ trivial, ?_⟩
    rintro ⟨pairs, err⟩ v₂ _
    refine ⟨[_], rfl, by simp [Surveys], ?_⟩
    rintro members ⟨⟩
    exact ⟨pairs, List.mem_singleton_self _, rfl⟩
  refine wp_bind_after hlist ?_ (fun e v₂ evs₂ hevs₂ _ => hfail e v₂ _ (happ hevs₁ hevs₂))
  rintro ⟨members, _ | err⟩ v₂ evs₂ hevs₂ hmem
  rotate_left
  · exact hfail _ v₂ _ (happ hevs₁ hevs₂)
  simp only
  refine wp_bind_after (wp_findSpare hg m.holders members v₂ _) ?_
    (fun e v₃ evs₃ hevs₃ _ => hfail e v₃ _ (happ (happ hevs₁ hevs₂) hevs₃))
  intro spare v₃ evs₃ hevs₃ hspare
  have hevs : ∀ e ∈ evs₁ ++ evs₂ ++ evs₃, Surveys e.op := happ (happ hevs₁ hevs₂) hevs₃
  obtain ⟨pairs, hread, rfl⟩ := hmem members rfl
  have hfound := hspare spare rfl
  by_cases hne : spare = []
  · -- No member is up that is not a holder yet.
    rw [if_pos hne]
    refine wp_committed_of_only (only_bind (only_slice12 trivial _) fun _ => only_slice12 trivial _)
      hg hevs (.inr ⟨pairs, by simp [hread], ?_⟩) v₃
    rw [hne] at hfound
    exact hfound.mono (List.subset_append_right _ _)
  rw [if_neg hne]
  unfold migrateSlot
  refine wp_bind_after (wp_migrateStripes hg spare m.stripes v₃ _) ?_
    (fun e v₄ evs₄ hevs₄ _ => hfail e v₄ _ (happ hevs hevs₄))
  intro u v₄ evs₄ hevs₄ hplaced
  -- Up to here nothing was stored; the shards of all stripes are on the spare.
  have hmig : Migrated L self m slot spare (evs₁ ++ evs₂ ++ evs₃ ++ evs₄) := by
    obtain ⟨before, mem, after, hmembers, -, hpeer, hnot, hup⟩ :=
      hfound.resolve_right fun h => hne h.1
    have hin : mem ∈ decodeValues L.cbor.member pairs := by simp [hmembers]
    refine ⟨hnot, hne, hup.imp_right fun h => by simp [h], ⟨pairs, mem, by simp [hread], hin, hpeer⟩,
      fun st hst => ?_⟩
    obtain ⟨id, hid, hp⟩ := hplaced rfl st hst
    exact ⟨id, hid, hp.mono (List.subset_append_right _ _)⟩
  have hall := happ hevs hevs₄
  exact wp_commit hall hmig (hput v₄ _ spare hmig (storePuts_of_surveys hall))
    (fun v l' o => hsend v l' spare o)

end Rules

/-! ## What is stored -/

section Commits

variable {L : Libs} {self : Bytes} {m : Manifest} {slot : ℕ}
variable {s s' : NodeState} {evs : List NodeEvent}

/-- Without a call of `store.Put` the store stays as it is. -/
theorem store_of_storePuts_nil {ε α : Type} {p p' : Prog NodeSig ε α} (h : Steps nodeEnv s p evs s' p')
    (hnone : storePuts evs = []) :
    s'.store = s.store := by
  induction h with
  | refl w p => rfl
  | @op w w' w'' o r k evs p' hs h ih =>
    rw [storePuts_cons, List.append_eq_nil_iff] at hnone
    rw [ih hnone.2]
    rcases NodeState.step_cases hs with rfl | ⟨key, value, he, -⟩ | ⟨id, data, -, -, rfl⟩ |
      ⟨e, data, -, rfl⟩ | ⟨e, -, rfl⟩
    · rfl
    · rw [he] at hnone
      exact absurd hnone.1 (by simp [storePuts, isStorePut])
    · rfl
    · rfl
    · rfl

/-- Without a call of `store.Put` before it, an iteration sees the store as it was at the start. -/
theorem scan_of_storePuts_nil {ε α : Type} {p p' : Prog NodeSig ε α} (h : Steps nodeEnv s p evs s' p')
    (hnone : storePuts evs = []) {pre : Bytes} {pairs : List (Bytes × Bytes)}
    (hmem : ⟨.storeIterate pre, (pairs, none)⟩ ∈ evs) : pairs = s.scan pre := by
  obtain ⟨evs₁, evs₂, rfl⟩ := List.append_of_mem hmem
  obtain ⟨v, q, h₁, h₂⟩ := h.split
  have hstore : v.store = s.store := by
    rw [storePuts_append, List.append_eq_nil_iff] at hnone
    exact store_of_storePuts_nil h₁ hnone.1
  obtain ⟨v', hstep⟩ := h₂.head rfl
  rw [NodeState.scan_of_step hstep]
  unfold NodeState.scan
  rw [hstore]

/-- What a repair does to the store, by the trace: it stores the manifest at most once, when the shards are
on the spare, and ends without an error if that succeeded. -/
theorem repairFile_trace {p' : NodeM Unit} (h : Steps nodeEnv s (repairFile L self m slot) evs s' p') :
    (s'.store = s.store ∧ (p' = ret () → EnoughLive self m evs ∨
      (⟨.storeIterate (memberPrefix m.groupID), (s.scan (memberPrefix m.groupID), none)⟩ ∈ evs ∧
        NoSpare self m (s.members L m.groupID) evs))) ∨
    ∃ spare pre post, evs = pre ++ ⟨.storePut (manifestKey m.fileID)
        (L.cbor.manifest.marshal (m.replaceHolder slot spare)), .ok ()⟩ :: post ∧
      storePuts pre = [] ∧ Migrated L self m slot spare pre ∧
      s'.store = s.store.put (manifestKey m.fileID)
        (L.cbor.manifest.marshal (m.replaceHolder slot spare)) ∧ ∀ e, p' ≠ fail e := by
  let guard : NodeState → List NodeEvent → NodeOp → Prop := fun _ l o => ∀ key value,
    o = .storePut key value → storePuts l = [] ∧ ∃ spare, Migrated L self m slot spare l ∧
      key = manifestKey m.fileID ∧ value = L.cbor.manifest.marshal (m.replaceHolder slot spare)
  have hwp : wp (nodeEnv.traced guard) (repairFile L self m slot)
      (Does (fun _ => True) [] (Committed L self m slot)) (s, []) := by
    refine wp_repairFile ?_ ?_ ?_ s
    · rintro v l o ho key value rfl
      exact ho.elim
    · rintro v evs spare hmig hnone key value ⟨⟩
      exact ⟨hnone, spare, hmig, rfl, rfl⟩
    · rintro v l' spare o - (rfl | ⟨pid, rfl⟩) key value ⟨⟩
  have hend : ∀ r, p' = Prog.ofExcept r → Committed L self m slot r evs := by
    rintro r rfl
    obtain ⟨evs', hl, -, hc⟩ := (wp_ofExcept r _ _).mp (wp_steps (h.traced guard []) hwp)
    rwa [show evs = evs' from hl]
  by_cases hnone : storePuts evs = []
  · refine .inl ⟨store_of_storePuts_nil h hnone, fun hret => ?_⟩
    rcases hend (.ok ()) hret with ⟨-, hdone⟩ | ⟨spare, a, -, hput, -⟩
    · refine (hdone rfl).imp_right ?_
      rintro ⟨pairs, hread, hspare⟩
      obtain rfl := scan_of_storePuts_nil h hnone hread
      exact ⟨hread, hspare⟩
    · exact absurd (hnone.symm.trans hput) (by simp)
  obtain ⟨pre, key, value, r, post, rfl, hpre⟩ := exists_first_storePut hnone
  rw [List.append_cons] at h
  obtain ⟨v', q, h₁, h₂⟩ := h.split
  obtain ⟨v, hguard, -⟩ := wp_traced_last hwp h₁
  obtain ⟨-, spare, hmig, rfl, rfl⟩ := hguard key value rfl
  obtain ⟨v₀, k, h₀, hstep, -⟩ := h₁.snoc
  have hstore₀ : v₀.store = s.store := store_of_storePuts_nil h₀ hpre
  -- A second call would come after the first one.
  have hpost : storePuts post = [] := by
    by_contra hne
    obtain ⟨pre', key', value', r', post', rfl, -⟩ := exists_first_storePut hne
    rw [← List.append_assoc] at h
    obtain ⟨u, u', q', -, hguard', -⟩ := wp_traced_at hwp h
    have := (hguard' key' value' rfl).1
    simp [storePuts, isStorePut] at this
  have hstore := store_of_storePuts_nil h₂ hpost
  have hputs : storePuts (pre ++ ⟨.storePut (manifestKey m.fileID)
      (L.cbor.manifest.marshal (m.replaceHolder slot spare)), r⟩ :: post) = [⟨.storePut
      (manifestKey m.fileID) (L.cbor.manifest.marshal (m.replaceHolder slot spare)), r⟩] := by
    rw [storePuts_append, storePuts_cons, hpre, hpost]
    rfl
  have hiff : ∀ x, p' = Prog.ofExcept x → (r = .ok () ↔ x = .ok ()) := by
    intro x hx
    rcases hend x hx with ⟨hnone', -⟩ | ⟨spare', a, -, hput, hiff⟩
    · exact absurd hnone' hnone
    · have hans := congrArg (List.map NodeEvent.stored) (hputs.symm.trans hput)
      rw [← hiff]
      cases r <;> cases a <;> simp_all [NodeEvent.stored]
  rcases hstep with ⟨rfl, rfl⟩ | ⟨⟨e, rfl⟩, rfl⟩
  · refine .inr ⟨spare, pre, post, rfl, hpre, hmig, ?_, ?_⟩
    · rw [hstore]
      unfold NodeState.putKey
      rw [hstore₀]
    · rintro e rfl
      exact absurd ((hiff (.error e) rfl).mp rfl) (by simp)
  · refine .inl ⟨hstore.trans hstore₀, ?_⟩
    rintro rfl
    exact absurd ((hiff (.ok ()) rfl).mpr rfl) (by simp)

end Commits

end FnShare
