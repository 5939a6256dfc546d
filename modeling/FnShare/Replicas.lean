import FnShare.Copies
import FnShare.Placement.Programs
import FnShare.Repair.Range

/-!
# The copies of a manifest

The uploader keeps the manifest of a file and sends it to the holders. A repair replaces one of the holders in
the copy that its own node has, and sends that copy to the holders that it lists. A node that is sent a
manifest stores it in the place of the one that it has, whichever is the newer one: manifests have no version.

So long as every scan that comes to a file finds it in order, or cannot repair it (`FindsIdle`), every copy of
its manifest lists the holders that the upload has picked (`copies_agree`): the copies that are stored, those
in the spools and those under way. Once a repair has taken effect this is over. The holder that was replaced
is not sent the new manifest, nor is the uploader unless it is a holder, and what is still in a spool or under
way is the old one (`exists_copies_apart`).
-/

namespace FnShare

open Prog

section Definitions

variable (L : Libs) (m₀ : Manifest)

/-- Encoded bytes are no manifest of the file, or the given one up to the fraction of a second in its time. -/
def Retimed (raw : Bytes) : Prop :=
  ∀ m, L.cbor.manifest.unmarshal raw = .ok m → m.fileID = m₀.fileID → ∃ t, m = { m₀ with createdAt := t }

/-- An upload that happens to have the id of the file makes the given manifest. -/
def Makes (o : NodeOp) : Prop :=
  ∀ raw m, o = .storePut (manifestKey m₀.fileID) raw → L.cbor.manifest.unmarshal raw = .ok m →
    ∃ t, m = { m₀ with createdAt := t }

/-- A scan at the node `n` that is answered as `A` says has nothing to do for the file, or cannot do it. -/
inductive FindsIdle (n : Bytes) (A : (o : NodeOp) → o.Ans → Prop) : Prop
  /-- More than `DataShards` of the holders are up: the node itself, and those that the ledger has online. -/
  | headroom (up : Bytes → Bool)
    (hlive : m₀.dataShards < (m₀.holders.countP fun h => decide (h = n) || up h : ℕ))
      (hup : ∀ h r, up h = true → A (.isOnline h) r → r = true)
  /-- The members of the group are holders already, or the ledger has them offline. -/
  | noSpare (hmembers : ∀ pairs, A (.storeIterate (memberPrefix m₀.groupID)) (pairs, none) →
      ∀ mem ∈ decodeValues L.cbor.member pairs, mem.peerID ∈ m₀.holders ∨
        mem.peerID ≠ n ∧ ∀ r, A (.isOnline mem.peerID) r → r = false)
  /-- Of some stripe, fewer than `DataShards` shards are there. -/
  | lost {st : Stripe} (hst : st ∈ m₀.stripes) (there : Bytes → Bool)
      (hfew : (st.shardIDs.countP there : ℕ) < m₀.dataShards)
      (hthere : ∀ id, there id = false → (∀ data, ¬ A (.blockGet id) (.ok data)) ∧
        ∀ pid resp, A (.request pid ⟨.getShard, id, []⟩) (.ok resp) → resp.ok = false)
  /-- No node takes a shard of some stripe. -/
  | unplaced {st : Stripe} (hst : st ∈ m₀.stripes)
      (hput : ∀ id ∈ st.shardIDs, ∀ data, ¬ A (.blockPut id data) (.ok ()) ∧
        ∀ pid resp, A (.request pid ⟨.putShard, id, data⟩) (.ok resp) → resp.ok = false)

/-- The nodes, in the runs in which no repair of the file takes effect. The label of a program is its node and
what its operations are answered. -/
def settled : System NodeSig Cluster (Bytes × ((o : NodeOp) → o.Ans → Prop)) GoErr Unit where
  exec l w o r w' := l.2 o r ∧ Cluster.exec L l.1 w o r w'
  start l p := L.peerDecode l.1 = .ok l.1 ∧
    RunsAt L (fun _ _ _ _ => ∀ o r, l.2 o r → Makes L m₀ o) (fun n _ => FindsIdle L m₀ n l.2) l.1 p
  drift := Cluster.drift L

/-- Every copy of the manifest is the given one, be it stored, queued or under way. -/
abbrev Agreed : Cluster → Prop := Copies L (Retimed L m₀) fun _ => True

/-- The environment of a program among all others. -/
abbrev copying (l : Bytes × ((o : NodeOp) → o.Ans → Prop)) : Env NodeSig Cluster :=
  (settled L m₀).inside (Agreed L m₀) (fun _ => True) l

end Definitions

section Steps

variable {L : Libs} {m₀ : Manifest} {w : Cluster} {l : Bytes × ((o : NodeOp) → o.Ans → Prop)}
variable {m : Manifest}

/-- A manifest that is decoded and encoded again differs in its time at most. -/
theorem restorable_retimed (hC : L.cbor.Lawful) : Restorable L (Retimed L m₀) := by
  intro raw m hraw hdec m' hdec' hid
  rw [hC.manifest.eq_norm hdec'] at hid ⊢
  obtain ⟨t, rfl⟩ := hraw m hdec hid
  exact ⟨_, rfl⟩

/-- A program may store a record if it is none of a manifest, or a right one whenever it is stored. -/
theorem copying_storePut (hC : L.cbor.Lawful) {key raw : Bytes}
    (h : manifestPrefix <+: key → ∃ m, key = manifestKey m.fileID ∧ raw = L.cbor.manifest.marshal m ∧
      ∀ r, l.2 (.storePut key raw) r → Retimed L m₀ raw) (w : Cluster) :
    (copying L m₀ l).guard w (.storePut key raw) := by
  refine ⟨trivial, ?_⟩
  rintro v r w' hv ⟨hA, hexec⟩
  refine hv.exec (o := .storePut key raw) hC (restorable_retimed hC) ?_ trivial hexec
  rintro key' raw' ho hkey
  obtain ⟨rfl, rfl⟩ := NodeOp.storePut.inj ho
  obtain ⟨m, rfl, rfl, hright⟩ := h hkey
  exact filedAs_marshal hC (hright r hA) hkey

/-- Among nodes whose copies agree, a program can count on that. -/
theorem relaying_copying (hC : L.cbor.Lawful) (m₀ : Manifest) (l : Bytes × ((o : NodeOp) → o.Ans → Prop)) :
    Relaying L (Retimed L m₀) (fun _ => True) (copying L m₀ l) l.1 where
  guard w o ho := by
    refine ⟨trivial, ?_⟩
    rintro v r w' hv ⟨-, hexec⟩
    exact hv.exec hC (restorable_retimed hC) (fun key raw h => absurd h (ho.1 key raw)) ho.2 hexec
  step := by
    rintro w o r w' ⟨v, hv, -, hexec⟩
    exact ⟨v, hv, hexec⟩

/-- A program may store a manifest that is right whenever it is stored. -/
theorem storable_copying (hC : L.cbor.Lawful)
    (h : ∀ r, l.2 (.storePut (manifestKey m.fileID) (L.cbor.manifest.marshal m)) r →
      Retimed L m₀ (L.cbor.manifest.marshal m)) :
    Storable L (Retimed L m₀) (copying L m₀ l) m where
  guard w := copying_storePut hC (fun _ => ⟨m, rfl, rfl, h⟩) w
  right := by
    rintro w r w' ⟨v, -, hA, -⟩
    exact h r hA

/-! ### Uploads -/

/-- What an upload stores as a manifest is right. -/
theorem Makes.retimed (hC : L.cbor.Lawful)
    (h : Makes L m₀ (.storePut (manifestKey m.fileID) (L.cbor.manifest.marshal m))) :
    Retimed L m₀ (L.cbor.manifest.marshal m) := by
  intro m' hdec hid
  have hfile : m.fileID = m₀.fileID := by
    rw [← hid, hC.manifest.eq_norm hdec]
    rfl
  exact h _ m' (by rw [hfile]) hdec

/-- Before the manifest is complete, an upload hands over shards only. -/
theorem passes_of_assembleOp {K : Bytes → Prop} {o : NodeOp} (h : assembleOp o) :
    Passes K (fun _ => True) o := by
  rcases h with h | rfl
  · cases o with
    | request peer req =>
      obtain ⟨op, id, data⟩ := req
      obtain rfl : op = .putShard := h
      exact ⟨by simp, trivial⟩
    | spoolWrite peer kind id data =>
      cases kind with
      | shard => exact ⟨by simp, trivial⟩
      | manifest => exact h.elim
    | storePut key raw => exact h.elim
    | _ => exact ⟨by simp, trivial⟩
  · exact ⟨by simp, trivial⟩

/-- An upload sends the manifest that it has stored. -/
theorem wp_put_copying (hC : L.cbor.Lawful) (hmakes : ∀ o r, l.2 o r → Makes L m₀ o) (svc : Service)
    (filename : Bytes) (body : Body) (opts : PutOptions) (w : Cluster) :
    wp (copying L m₀ l) (put L svc filename body opts) (fun _ _ => True) w := by
  have hassemble : (assemble L svc filename body opts).Only (Passes (Retimed L m₀) fun _ => True) :=
    (only_assemble L svc filename body opts).mono fun _ => passes_of_assembleOp
  rw [put_eq]
  refine wp_bind_of ((relaying_copying hC m₀ l).only hassemble w) ?_ fun _ _ _ => trivial
  intro m w₁ _
  have hm : Storable L (Retimed L m₀) (copying L m₀ l) m :=
    storable_copying hC fun r hA => (hmakes _ r hA).retimed hC
  refine wp_bind_of ((relaying_copying hC m₀ l).publish svc hm ?_ w₁) (fun _ _ _ => trivial)
    fun _ _ _ => trivial
  exact fun _ _ w => copying_storePut hC (fun hkey => absurd hkey (not_prefix_pnameKey _)) w

/-! ### Scans -/

/-- The count of the holders that are up has those in it that are always found up. -/
theorem wp_countLive_copying (hC : L.cbor.Lawful) {up : Bytes → Bool}
    (hup : ∀ h r, up h = true → l.2 (.isOnline h) r → r = true) (hs : List Bytes) (live : ℤ) (w : Cluster) :
    wp (copying L m₀ l) (countLive l.1 hs live)
      (onOk fun total _ => live + (hs.countP fun h => decide (h = l.1) || up h : ℕ) ≤ total) w := by
  induction hs generalizing live w with
  | nil => exact (add_zero live).le
  | cons h rest ih =>
    have hrest : ∀ {x : ℤ} (v : Cluster),
        live + ((if (decide (h = l.1) || up h) = true then 1 else 0 : ℕ) : ℤ) ≤ x →
        wp (copying L m₀ l) (countLive l.1 rest x) (onOk fun total _ =>
          live + ((h :: rest).countP fun h => decide (h = l.1) || up h : ℕ) ≤ total) v := by
      intro x v hx
      refine wp_mono (ih x v) ?_
      rintro (e | total) v' htotal
      · trivial
      · simp only [onOk] at htotal ⊢
        rw [List.countP_cons]
        push_cast at hx ⊢
        omega
    unfold countLive
    split_ifs with hself
    · exact hrest w (by simp [hself])
    · refine ⟨(relaying_copying hC m₀ l).guard w _ ⟨by simp, trivial⟩, ?_⟩
      rintro online w' ⟨v, -, hA, -⟩
      -- A holder that is not counted is none of those that are always up.
      refine hrest w' ?_
      cases online with
      | true =>
        rw [if_pos rfl]
        split_ifs <;> simp
      | false =>
        have hdown : up h = false := by
          by_contra hne
          exact absurd (hup h false (by simpa using hne) hA) (by simp)
        simp [hself, hdown]

/-- Among members that are holders or down, no spare is found. -/
theorem wp_findSpare_copying (hC : L.cbor.Lawful) {holders : List Bytes} {members : List Member}
    (h : ∀ mem ∈ members, mem.peerID ∈ holders ∨ mem.peerID ≠ l.1 ∧
      ∀ r, l.2 (.isOnline mem.peerID) r → r = false)
    (w : Cluster) :
    wp (copying L m₀ l) (findSpare l.1 holders members) (onOk fun spare _ => spare = []) w := by
  induction members generalizing w with
  | nil => exact rfl
  | cons mem rest ih =>
    obtain ⟨hfirst, hrest⟩ := List.forall_mem_cons.mp h
    unfold findSpare
    split_ifs with hholder hself
    · exact ih hrest w
    · exact absurd hself (hfirst.resolve_left hholder).1
    · refine ⟨(relaying_copying hC m₀ l).guard w _ ⟨by simp, trivial⟩, ?_⟩
      rintro online w' ⟨v, -, hA, -⟩
      obtain rfl : online = false := (hfirst.resolve_left hholder).2 online hA
      exact ih hrest w'

/-- The count of the shards that are gathered has none in it that is not there. -/
theorem wp_gatherSurvivors_copying (hC : L.cbor.Lawful) {there : Bytes → Bool}
    (hthere : ∀ id, there id = false → (∀ data, ¬ l.2 (.blockGet id) (.ok data)) ∧
      ∀ pid resp, l.2 (.request pid ⟨.getShard, id, []⟩) (.ok resp) → resp.ok = false)
    (slot i : ℕ) (ids : List Bytes) (gathered : ℤ) (w : Cluster) :
    wp (copying L m₀ l) (gatherSurvivors L l.1 m slot i ids gathered)
      (onOk fun r _ => r.2 ≤ gathered + (ids.countP there : ℕ)) w := by
  have hE := relaying_copying hC m₀ l
  induction ids generalizing i gathered w with
  | nil => exact (add_zero gathered).ge
  | cons id rest ih =>
    have hcount : ((id :: rest).countP there : ℤ) = (rest.countP there : ℤ) + if there id =
        true then 1 else 0 := by
      rw [List.countP_cons]
      push_cast
      rfl
    have hone : (0 : ℤ) ≤ if there id = true then 1 else 0 := by split_ifs <;> decide
    unfold gatherSurvivors
    split_ifs
    · refine wp_bind_onOk (ih (i + 1) gathered w) ?_
      rintro ⟨shards, k⟩ w₁ (h : k ≤ _)
      show k ≤ _
      omega
    · -- A shard that is fetched is there.
      have hfetch : wp (copying L m₀ l) (fetchSurvivor L l.1 m i id)
          (onOk fun r _ => (if r.isSome then 1 else 0 : ℤ) ≤ if there id = true then 1 else 0) w := by
        cases hid : there id with
        | true => exact hE.fetchSurvivor_of i (by simp) (by simp) (by simp) w
        | false =>
          refine hE.fetchSurvivor_of i (by simp) ?_ ?_ w
          · rintro w data w' ⟨v, -, hA, -⟩
            exact absurd hA ((hthere id hid).1 data)
          · rintro w pid resp w' ⟨v, -, hA, -⟩ hok
            exact absurd (hok.symm.trans ((hthere id hid).2 pid resp hA)) (by simp)
      refine wp_bind_onOk hfetch ?_
      intro shard w₁ hshard
      refine wp_bind_onOk (ih (i + 1) _ w₁) ?_
      rintro ⟨shards, k⟩ w₂ (h : k ≤ _)
      show k ≤ _
      split_ifs at h hshard hcount <;> omega
    · show gathered ≤ _
      omega

/-- Where some stripe cannot be migrated, no repair comes to its end. -/
theorem wp_migrateSlot_stuck (hC : L.cbor.Lawful) {st : Stripe} (hst : st ∈ m.stripes) (slot : ℕ)
    (spare : Bytes) (hstuck : ∀ w, wp (copying L m₀ l) (migrateStripeShard L l.1 m st slot spare)
      (fun r _ => r ≠ .ok ()) w) (w : Cluster) :
    wp (copying L m₀ l) (migrateSlot L l.1 m slot spare) (fun _ _ => True) w := by
  have hE := relaying_copying hC m₀ l
  have hstripes : ∀ sts, st ∈ sts → ∀ w, wp (copying L m₀ l) (migrateStripes L l.1 m slot spare sts)
      (fun r _ => r ≠ .ok ()) w := by
    intro sts
    induction sts with
    | nil => exact fun hmem => absurd hmem (by simp)
    | cons st' rest ih =>
      intro hmem w
      have hfirst : wp (copying L m₀ l) (migrateStripeShard L l.1 m st' slot spare)
          (fun r _ => r = .ok () → st ∈ rest) w := by
        rcases List.mem_cons.mp hmem with rfl | hrest
        · exact wp_mono (hstuck w) fun r _ hr hok => absurd hok hr
        · exact wp_mono (hE.migrateStripeShard (fun _ _ _ _ _ _ _ _ => trivial) slot spare
            (.inl fun _ => trivial) w)
            fun _ _ _ _ => hrest
      unfold migrateStripes
      rw [wp_bind, wp_attempt]
      refine wp_mono hfirst ?_
      rintro (e | ⟨⟩) w₁ hrest
      · exact wp_bind_of (hE.only (only_slice12 ⟨by simp, trivial⟩ _) w₁) (fun _ _ _ => by simp)
          fun _ _ _ => by simp
      · exact ih (hrest rfl) w₁
  unfold migrateSlot
  refine wp_bind_of (hstripes m.stripes hst w) ?_ fun _ _ _ => trivial
  rintro ⟨⟩ w₁ hno
  exact absurd rfl hno

/-- A scan that finds the file in order, or cannot repair it, stores nothing. -/
theorem FindsIdle.wp_repairFile (hC : L.cbor.Lawful) (h : FindsIdle L m₀ l.1 l.2)
    (hm : ∃ t, m = { m₀ with createdAt := t }) (slot : ℕ) (w : Cluster) :
    wp (copying L m₀ l) (repairFile L l.1 m slot) (fun _ _ => True) w := by
  obtain ⟨hholders, hgroup, hstripes, hk⟩ : m.holders = m₀.holders ∧ m.groupID = m₀.groupID ∧
      m.stripes = m₀.stripes ∧ m.dataShards = m₀.dataShards := by
    obtain ⟨t, rfl⟩ := hm
    exact ⟨rfl, rfl, rfl, rfl⟩
  have hE := relaying_copying hC m₀ l
  -- Where the migration of a stripe fails, it does so whatever the spare is.
  have hstuck : ∀ st ∈ m₀.stripes, (∀ spare w, wp (copying L m₀ l) (migrateStripeShard L l.1 m st slot spare)
      (fun r _ => r ≠ .ok ()) w) → wp (copying L m₀ l) (repairFile L l.1 m slot) (fun _ _ => True) w := by
    intro st hst hstripe
    refine hE.repairFile_of (fun _ pairs _ _ w => wp_mono (hE.findSpare m.holders _ w) ?_) w
    rintro (e | spare) w' -
    · trivial
    · exact .inr fun w => wp_migrateSlot_stuck hC (hstripes ▸ hst) slot spare (hstripe spare) w
  cases h with
  | headroom up hlive hup =>
    unfold repairFile
    rw [hholders]
    refine wp_bind_of (wp_countLive_copying hC hup m₀.holders 0 w) ?_ fun _ _ _ => trivial
    intro live w₁ hcount
    rw [if_pos (hk ▸ lt_of_lt_of_le hlive (le_of_eq_of_le (zero_add _).symm hcount))]
    exact hE.only (only_slice12 ⟨by simp, trivial⟩ _) w₁
  | noSpare hmembers =>
    refine hE.repairFile_of ?_ w
    rw [hgroup, hholders]
    rintro w₁ pairs w₂ ⟨v, -, hA, -⟩ w₃
    refine wp_mono (wp_findSpare_copying hC (hmembers pairs hA) w₃) ?_
    rintro (e | spare) w' hspare
    · trivial
    · exact .inl hspare
  | lost hst there hfew hthere =>
    refine hstuck _ hst fun spare w => ?_
    unfold migrateStripeShard
    extract_lets total
    split_ifs
    · simp [wp]
    refine wp_bind_of (wp_gatherSurvivors_copying hC hthere slot 0 _ 0 w) ?_ fun _ _ _ => by simp
    rintro ⟨got, gathered⟩ w₁ (hcount : gathered ≤ _)
    simp only
    rw [if_pos (by omega)]
    simp [wp]
  | unplaced hst hput =>
    refine hstuck _ hst fun spare w => ?_
    refine hE.migrateStripeShard_of (by simp) (fun _ _ _ _ _ _ _ _ => trivial) (.inl fun _ => trivial) ?_ w
    intro id hid data w _
    obtain ⟨hhere, hthere⟩ := hput id hid data
    unfold placeShard
    split_ifs
    · refine ⟨hE.guard w _ ⟨by simp, trivial⟩, ?_⟩
      rintro (e | ⟨⟩) w₁ ⟨v, -, hA, -⟩
      · simp
      · exact absurd hA hhere
    · cases L.peerDecode spare with
      | error e => simp [wp]
      | ok pid =>
        refine wp_putShardOnPeer_of (hE.guard w _ ⟨by simp, trivial⟩) ?_ (by simp)
        rintro resp w₁ ⟨v, -, hA, -⟩ hok
        exact absurd (hok.symm.trans (hthere pid resp hA)) (by simp)

/-- A scan may repair any other file. -/
theorem migratable_other (hC : L.cbor.Lawful) (hid : m.fileID ≠ m₀.fileID) :
    Migratable L (Retimed L m₀) (fun _ => True) (copying L m₀ l) m where
  ids := .inl fun _ => trivial
  storable _ _ _ _ mem _ slot := by
    refine storable_copying hC fun _ _ m' hdec hid' => absurd ?_ hid
    rw [← hid', hC.manifest.eq_norm hdec]
    rfl

/-- Whatever uploads, workers and such scans have done at the nodes and in whatever order, every copy is the
one manifest. -/
theorem agreed_of_reach (hC : L.cbor.Lawful)
    {ps : List ((Bytes × ((o : NodeOp) → o.Ans → Prop)) × NodeM Unit)}
    (h : (settled L m₀).Reach .fresh w ps) : Agreed L m₀ w := by
  refine (h.invariant (A := fun _ => True) copies_fresh
    (fun _ _ hI hd => hI.drift hC (restorable_retimed hC) hd) ?_).1
  rintro ⟨n, A⟩ p v ⟨-, hruns⟩
  have hE := relaying_copying hC m₀ (n, A)
  cases hruns with
  | put hmakes =>
    exact wp_bind_of (wp_put_copying hC hmakes _ _ _ _ v) (fun _ _ _ => trivial) fun _ _ _ => trivial
  | flush => exact hE.flushAll v
  | repair hidle =>
    refine hE.scanForOfflinePeer (fun raw m hraw hdec slot w => ?_) _ v
    by_cases hid : m.fileID = m₀.fileID
    · exact hidle.wp_repairFile (l := (n, A)) hC (hraw m hdec hid) slot w
    · exact hE.repairFile (fun _ _ _ _ _ _ _ _ => trivial) (migratable_other hC hid) slot w

/-- In every run of the nodes in which each scan for an offline peer finds more than `DataShards` holders of
the file up, or no spare, or cannot move the shards of some stripe, and no other upload has made a manifest
under its id, all copies that nodes have stored list the holders that the upload has picked, at any time. -/
theorem copies_agree (hC : L.cbor.Lawful) {ps : List ((Bytes × ((o : NodeOp) → o.Ans → Prop)) × NodeM Unit)}
    (h : (settled L m₀).Reach .fresh w ps) {n : Bytes} {m : Manifest}
    (hm : (w.node n).manifest L m₀.fileID = some m) : m.holders = m₀.holders := by
  obtain ⟨hid, raw, hraw, hdec⟩ := (agreed_of_reach hC h).manifest hm
  obtain ⟨t, rfl⟩ := hraw m hdec hid
  rfl

end Steps

/-! ## Runs in which everything arrives -/

section Granted

variable (L : Libs)

/-- A request that a node with a working disk grants. -/
inductive Granted : Request → Prop
  | putShard (data : Bytes) : Granted ⟨.putShard, hashOf data, data⟩
  | putManifest {m : Manifest} {raw : Bytes} (hdec : L.cbor.manifest.unmarshal raw = .ok m) :
      Granted ⟨.putManifest, m.fileID, raw⟩

/-- What becomes of a node that grants a request. -/
def NodeState.receive (s : NodeState) (req : Request) : NodeState :=
  match req.op, L.cbor.manifest.unmarshal req.body with
  | .putShard, _ => s.putBlock req.id req.body
  | .putManifest, .ok m => s.putKey (manifestKey m.fileID) (L.cbor.manifest.marshal m)
  | _, _ => s

/-- The requests to a node in a trace. -/
def requestsTo (k : Bytes) (evs : List NodeEvent) : List Request :=
  evs.filterMap fun e => match e.op with
    | .request pid req => if pid = k then some req else none
    | _ => none

/-- The requests of two parts of a trace. -/
theorem requestsTo_append (k : Bytes) (evs evs' : List NodeEvent) :
    requestsTo k (evs ++ evs') = requestsTo k evs ++ requestsTo k evs' := List.filterMap_append ..

/-- The nodes after a program at one of them has come to the state `s'`, and the others have granted it what
it has asked for. -/
def Cluster.after (w : Cluster) (n : Bytes) (s' : NodeState) (evs : List NodeEvent) : Cluster where
  node k := if k = n then s' else (requestsTo k evs).foldl (NodeState.receive L) (w.node k)
  flight := w.flight

/-- What a program at a node asks another for is granted. -/
def AsGranted (n : Bytes) : NodeEvent → Prop
  | ⟨.request pid req, r⟩ => pid ≠ n ∧ Granted L req ∧ r = .ok { ok := true }
  | _ => True

/-- A request is acknowledged. -/
def Acknowledges : (o : NodeOp) → o.Ans → Prop
  | .request _ _, r => acknowledged r = true
  | _, _ => True

variable {L} {w : Cluster} {n pid : Bytes} {req : Request} {s' : NodeState} {evs : List NodeEvent}
variable {s : NodeState}

/-- A request can be granted. -/
theorem Granted.served (h : Granted L req) (w : Cluster) (n pid : Bytes) :
    Served L w n pid req { ok := true } (w.set pid ((w.node pid).receive L req)) := by
  cases h with
  | putShard data =>
    have hput : nodeEnv.step (w.node pid) (.blockPut (hashOf data) data) (.ok ())
        ((w.node pid).putBlock (hashOf data) data) := by
      simp [nodeEnv, NodeState.step, verifyHash]
    have hrecord : nodeEnv.step ((w.node pid).putBlock (hashOf data) data)
        (.record .storedForThem n data.length) () ((w.node pid).putBlock (hashOf data) data) := rfl
    exact ⟨_, _, .op hput (.op hrecord (.refl _ _)), rfl⟩
  | @putManifest m raw hdec =>
    have hreceive : (w.node pid).receive L ⟨.putManifest, m.fileID, raw⟩ =
        (w.node pid).putKey (manifestKey m.fileID) (L.cbor.manifest.marshal m) := by
      simp only [NodeState.receive, hdec]
    rw [hreceive]
    exact ⟨_, _, (steps_serve_putManifest hdec _).bind (.refl _ _), rfl⟩

/-- The node itself. -/
theorem Cluster.node_after_self : (w.after L n s' evs).node n = s' := if_pos rfl

/-- Another node has received its requests. -/
theorem Cluster.node_after_ne {k : Bytes} (hk : k ≠ n) :
    (w.after L n s' evs).node k = (requestsTo k evs).foldl (NodeState.receive L) (w.node k) := if_neg hk

/-- A change at the node itself is overwritten by its last state. -/
theorem Cluster.after_set_self {e : NodeEvent} (he : ∀ k, requestsTo k [e] = []) :
    (w.set n s).after L n s' evs = w.after L n s' (e :: evs) := by
  unfold Cluster.after
  congr 1
  funext k
  split_ifs with hk
  · rfl
  · rw [Cluster.node_set_ne _ _ hk, ← List.singleton_append, requestsTo_append, he, List.nil_append]

/-- The first request that is granted. -/
theorem Cluster.after_set_request {r : Except GoErr Response} (hpid : pid ≠ n) :
    (w.set pid ((w.node pid).receive L req)).after L n s' evs =
      w.after L n s' (⟨.request pid req, r⟩ :: evs) := by
  unfold Cluster.after
  congr 1
  funext k
  split_ifs with hk
  · rfl
  · rw [← List.singleton_append, requestsTo_append, List.foldl_append]
    by_cases hkp : k = pid
    · subst hkp
      rw [Cluster.node_set_self]
      simp [requestsTo]
    · rw [Cluster.node_set_ne _ _ hkp]
      simp [requestsTo, Ne.symm hkp]

/-- What a program has done is done in the cluster, with everything granted that it has asked for. -/
theorem reach_after_of {N : Type} {sys : System NodeSig Cluster N GoErr Unit} {l : N}
    {A : (o : NodeOp) → o.Ans → Prop}
    (hsys : ∀ w o r w', A o r → Cluster.exec L n w o r w' → sys.exec l w o r w') {w₀ : Cluster}
    {ps : List (N × NodeM Unit)} {p p' : NodeM Unit} (hsteps : Steps nodeEnv s p evs s' p')
    (hn : w.node n = s) (hg : ∀ e ∈ evs, AsGranted L n e ∧ A e.op e.ans) (h : sys.Reach w₀ w ((l, p) :: ps)) :
    sys.Reach w₀ (w.after L n s' evs) ((l, p') :: ps) := by
  induction hsteps generalizing w with
  | refl v p =>
    have hsame : w.after L n v [] = w := by
      rw [← hn]
      unfold Cluster.after requestsTo
      congr 1
      funext k
      split_ifs with hk
      · rw [hk]
      · rfl
    rwa [hsame]
  | @op v v₁ v₂ o r k evs p' hs hrest ih =>
    obtain ⟨⟨hfirst, hA⟩, hrest⟩ := List.forall_mem_cons.mp hg
    -- The one step, and what the rest does from there.
    obtain ⟨w₁, hexec, hn₁, hafter⟩ : ∃ w₁, Cluster.exec L n w o r w₁ ∧ w₁.node n = v₁ ∧
        w₁.after L n v₂ evs = w.after L n v₂ (⟨o, r⟩ :: evs) := by
      cases o with
      | request pid req =>
        obtain ⟨hpid, hgrant, rfl⟩ := hfirst
        obtain rfl : v₁ = v := hs
        refine ⟨w.set pid ((w.node pid).receive L req),
          .inr (.inl ⟨_, hgrant.served w n pid, .inl rfl⟩), ?_, ?_⟩
        · rw [Cluster.node_set_ne _ _ (Ne.symm hpid), hn]
        · exact Cluster.after_set_request hpid
      | _ =>
        refine ⟨w.set n v₁, ⟨v₁, hn ▸ hs, rfl⟩, Cluster.node_set_self _ _ _, ?_⟩
        exact Cluster.after_set_self fun _ => rfl
    rw [← hafter]
    exact ih hn₁ hrest (h.step_head (hsys _ _ _ _ hA hexec))

/-- The same in the runs of a kind. -/
theorem reach_after {A : (o : NodeOp) → o.Ans → Prop} {w₀ : Cluster} {ps : List (Bytes × NodeM Unit)}
    {p p' : NodeM Unit} (hsteps : Steps nodeEnv s p evs s' p') (hn : w.node n = s)
    (hg : ∀ e ∈ evs, AsGranted L n e ∧ A e.op e.ans) (h : ((cluster L).limited A).Reach w₀ w ((n, p) :: ps)) :
    ((cluster L).limited A).Reach w₀ (w.after L n s' evs) ((n, p') :: ps) := by
  refine reach_after_of ?_ hsteps hn hg h
  exact fun _ _ _ _ hA hexec => ⟨hA, hexec⟩

/-- What is granted is acknowledged. -/
theorem AsGranted.acknowledges {e : NodeEvent} (h : AsGranted L n e) : Acknowledges e.op e.ans := by
  obtain ⟨o, r⟩ := e
  cases o with
  | request pid req =>
    obtain ⟨-, -, rfl⟩ := h
    rfl
  | _ => trivial

/-- Nothing that is granted is queued. -/
theorem spool_receive (s : NodeState) (reqs : List Request) :
    (reqs.foldl (NodeState.receive L) s).spool = s.spool := by
  induction reqs generalizing s with
  | nil => rfl
  | cons req reqs ih =>
    rw [List.foldl_cons, ih]
    unfold NodeState.receive
    split <;> rfl

/-- Where nothing was queued, nothing is after a program that has queued nothing. -/
theorem Cluster.spool_after (hw : ∀ k e, (w.node k).spool e = none) (hs : ∀ e, s'.spool e = none) (k : Bytes)
    (e : SpoolEntry) : ((w.after L n s' evs).node k).spool e = none := by
  by_cases hk : k = n
  · rw [hk, Cluster.node_after_self, hs]
  · rw [Cluster.node_after_ne hk, spool_receive, hw]

/-- A change at one node that queues nothing. -/
theorem Cluster.spool_set (hw : ∀ k e, (w.node k).spool e = none) (hs : ∀ e, s'.spool e = none) (k : Bytes)
    (e : SpoolEntry) : ((w.set n s').node k).spool e = none := by
  by_cases hk : k = n
  · rw [hk, Cluster.node_set_self, hs]
  · rw [Cluster.node_set_ne _ _ hk, hw]

end Granted

/-! ## An upload and a repair -/

section Sample

/-- Random bytes that are all zero. -/
def zeros (n : ℕ) : { b : Bytes // b.length = n } := ⟨List.replicate n 0, List.length_replicate⟩

/-- The one stripe of the sample body, encrypted. -/
def sampleCipher : Bytes := sealedAES sampleLibs (zeros fileKeySize).1 (zeros gcmNonceSize).1 [1, 2, 3]

/-- The manifest of an upload of the sample body. -/
def samplePut (hs : List Bytes) : Manifest where
  fileID := hexEncode (zeros 16).1
  groupID := (sampleGroup 7).id
  filename := lit "film"
  size := 3
  dataShards := 1
  parityShards := 1
  stripeDataSize := 4
  holders := hs
  stripes := [⟨0, [hashOf sampleCipher, hashOf sampleCipher], 3, sampleCipher.length⟩]
  createdAt := 0
  ownerPeerID := sampleService.self
  mode := modeShared
  wrappedKey := sealedAES sampleLibs (sampleGroup 7).sharedKey (zeros gcmNonceSize).1 (zeros fileKeySize).1
  filenameEncrypted := false

/-- The encrypted stripe is not empty. -/
theorem sampleCipher_ne_nil : sampleCipher ≠ [] :=
  sealedAES_ne_nil sampleAead_correct (zeros gcmNonceSize).2 _

/-- The encrypted stripe can be allocated. -/
theorem allocatable_sampleCipher : Allocatable sampleCipher.length := by
  rw [sampleCipher, length_sealedAES sampleAead_correct (zeros gcmNonceSize).2]
  decide

/-- The request to store the shard. -/
abbrev sampleShardRequest : Request := ⟨.putShard, hashOf sampleCipher, sampleCipher⟩

/-- The request to store a manifest. -/
abbrev sampleManifestRequest (m : Manifest) : Request :=
  ⟨.putManifest, m.fileID, sampleLibs.cbor.manifest.marshal m⟩

/-- The two requests to a holder, with the shard and with the manifest. -/
def sampleRequests (m : Manifest) : List Request := [sampleShardRequest, sampleManifestRequest m]

/-- A node that stores a manifest. -/
abbrev sampleKeeping (s : NodeState) (m : Manifest) : NodeState :=
  s.putKey (manifestKey m.fileID) (sampleLibs.cbor.manifest.marshal m)

/-- The upload of the sample body. -/
abbrev sampleUpload : NodeM Unit :=
  put sampleLibs sampleService (lit "film") sampleBody ⟨(sampleGroup 7).id, modeShared⟩ >>= fun _ => ret ()

/-- The members of the group in the store of a node. -/
abbrev sampleRoster (s : NodeState) : NodeEvent :=
  ⟨.storeIterate (memberPrefix (sampleGroup 7).id), (s.scan (memberPrefix (sampleGroup 7).id), none)⟩

/-- A request that is granted, as an event. -/
abbrev granted (pid : Bytes) (req : Request) : NodeEvent := ⟨.request pid req, .ok { ok := true }⟩

variable {s : NodeState} {a b : Bytes}
variable {hs : List Bytes} {raw k : Bytes}

/-- A shard that a peer takes. -/
theorem steps_putShardOnPeer (pid id data : Bytes) :
    Steps nodeEnv s (putShardOnPeer pid id data)
      [granted pid ⟨.putShard, id, data⟩, ⟨.record .storedOnThem pid data.length, ()⟩] s (ret ()) :=
  .op rfl (.op rfl (.refl _ _))

/-- A manifest that a peer takes. -/
theorem steps_putManifestRawOnPeer (pid fileID raw : Bytes) :
    Steps nodeEnv s (putManifestRawOnPeer pid fileID raw)
      [granted pid ⟨.putManifest, fileID, raw⟩] s (ret ()) :=
  .op rfl (.refl _ _)

/-- A shard is shipped to a holder. -/
theorem steps_sampleShip {i : ℕ} {h : Bytes} (hh : hs[i]? = some h)
    (hself : h ≠ sampleService.self) (sh : Bytes) :
    Steps nodeEnv s (shipShard sampleLibs sampleService hs i sh)
      [granted h ⟨.putShard, hashOf sh, sh⟩, ⟨.record .storedOnThem h sh.length, ()⟩] s
      (ret (hashOf sh)) := by
  unfold shipShard
  rw [hh, orPanic_some, ret_bind, if_neg hself]
  exact (steps_putShardOnPeer h (hashOf sh) sh).attempt.bind (.refl _ _)

/-- The operations that ship the stripe to two holders. -/
def sampleShipping (a b : Bytes) : List NodeEvent :=
  [⟨.rand gcmNonceSize, .ok (zeros gcmNonceSize)⟩,
    granted a sampleShardRequest,
    ⟨.record .storedOnThem a sampleCipher.length, ()⟩,
    granted b sampleShardRequest,
    ⟨.record .storedOnThem b sampleCipher.length, ()⟩]

/-- The stripe is shipped to both holders. -/
theorem steps_sampleStripe (ha : a ≠ sampleService.self) (hb : b ≠ sampleService.self) :
    Steps nodeEnv s (uploadStripe sampleLibs sampleService (zeros fileKeySize).1 [a, b] 0 [1, 2, 3])
      (sampleShipping a b) s
      (ret ⟨0, [hashOf sampleCipher, hashOf sampleCipher], 3, sampleCipher.length⟩) := by
  have hseal : Steps nodeEnv s (mapErr (GoErr.wrap (lit "encrypt: "))
      (sealAES sampleLibs (zeros fileKeySize).1 [1, 2, 3]))
      [⟨.rand gcmNonceSize, .ok (zeros gcmNonceSize)⟩] s (ret sampleCipher) := by
    unfold sealAES
    rw [if_neg (not_not.mpr (zeros fileKeySize).2)]
    exact .op rfl (.refl _ _)
  unfold uploadStripe
  refine hseal.bind ?_
  rw [encode_sampleService sampleCipher_ne_nil]
  simp only [Except.mapError, ofExcept_ok, ret_bind]
  have hfirst : Steps nodeEnv s (shipShard sampleLibs sampleService [a, b] 0 sampleCipher) _ s _ :=
    steps_sampleShip rfl ha sampleCipher
  have hsecond : Steps nodeEnv s (shipShard sampleLibs sampleService [a, b] 1 sampleCipher) _ s _ :=
    steps_sampleShip rfl hb sampleCipher
  have hlast : Steps nodeEnv s (shipShards sampleLibs sampleService [a, b] 1 [sampleCipher]) _ s
      (ret [hashOf sampleCipher]) := hsecond.bind (.refl _ _)
  have hship : Steps nodeEnv s (shipShards sampleLibs sampleService [a, b] 0 (List.replicate 2 sampleCipher))
      _ s
      (ret [hashOf sampleCipher, hashOf sampleCipher]) := hfirst.bind (hlast.bind (.refl _ _))
  exact hship.bind (.refl _ _)

/-- The holders of the upload are two members of the group, neither the uploader nor the third peer. -/
structure SamplePick (a b : Bytes) : Prop where
  picked : pick (sortStrings [lit "alice", lit "bob"]) (hexEncode (zeros 16).1) 2 = [a, b]
  ne : a ≠ b
  member : ∀ h ∈ [a, b], h ≠ sampleService.self ∧ lit "carol" ≠ h ∧ validUTF8 h = true

/-- The picked holders are the two members that the sample node knows of. -/
theorem exists_samplePick : ∃ a b, SamplePick a b := by
  have hperm : (pick (sortStrings [lit "alice", lit "bob"]) (hexEncode (zeros 16).1) 2).Perm
      [lit "alice", lit "bob"] := by
    have hsort : (sortStrings [lit "alice", lit "bob"]).Perm [lit "alice", lit "bob"] :=
      List.perm_insertionSort _ _
    unfold pick sortByScore
    rw [if_neg (by decide), if_pos (by rw [hsort.length_eq]; decide)]
    exact (List.perm_insertionSort _ _).trans hsort
  obtain ⟨a, b, heq⟩ := List.length_eq_two.mp hperm.length_eq
  have hnodup : ([a, b] : List Bytes).Nodup := heq ▸ hperm.nodup_iff.mpr (by decide)
  refine ⟨a, b, heq, by simpa using hnodup, ?_⟩
  intro h hh
  have hcases : h = lit "alice" ∨ h = lit "bob" := by simpa using hperm.subset (heq ▸ hh)
  rcases hcases with rfl | rfl
  · decide
  · decide

namespace SamplePick

variable (h : SamplePick a b)
include h

/-- The ids of the holders are valid text. -/
theorem valid : ∀ k ∈ [a, b], validUTF8 k = true := fun k hk => (h.member k hk).2.2

/-- The first holder is neither the uploader nor the third peer. -/
theorem first : a ≠ sampleService.self ∧ lit "carol" ≠ a :=
  ⟨(h.member a (by simp)).1, (h.member a (by simp)).2.1⟩

/-- The second holder is neither of them. -/
theorem second : b ≠ sampleService.self ∧ lit "carol" ≠ b :=
  ⟨(h.member b (by simp)).1, (h.member b (by simp)).2.1⟩

/-- With the third peer in place of the first holder. -/
theorem valid_repaired : ∀ k ∈ [lit "carol", b], validUTF8 k = true := by
  simp only [List.forall_mem_cons, h.valid b (by simp)]
  decide

end SamplePick

/-- The members of the sample node. -/
theorem members_sampleHome : sampleHome.members sampleLibs (sampleGroup 7).id =
    [sampleMember (lit "alice"), sampleMember (lit "bob")] := by
  have hscan : sampleHome.scan (memberPrefix (sampleGroup 7).id) =
      [(memberKey (sampleGroup 7).id (lit "alice"), sampleLibs.cbor.member.marshal
        (sampleMember (lit "alice"))),
        (memberKey (sampleGroup 7).id (lit "bob"), sampleLibs.cbor.member.marshal
          (sampleMember (lit "bob")))] :=
    rfl
  unfold NodeState.members
  rw [hscan]
  have halice : validUTF8 (lit "alice") = true := by decide
  have hbob : validUTF8 (lit "bob") = true := by decide
  simp only [decodeValues, List.filterMap_cons, List.filterMap_nil, unmarshal_sampleMember halice,
    unmarshal_sampleMember hbob, Except.toOption]

/-- The operations of the upload up to where the manifest is complete. -/
def sampleAssembling (raw a b : Bytes) : List NodeEvent :=
  [⟨.storeGet (groupKey (sampleGroup 7).id), .ok raw⟩, ⟨.rand 16, .ok (zeros 16)⟩,
    ⟨.rand fileKeySize, .ok (zeros fileKeySize)⟩,
    sampleRoster sampleHome,
    ⟨.rand gcmNonceSize, .ok (zeros gcmNonceSize)⟩, ⟨.now, (0 : ℤ)⟩] ++ sampleShipping a b

/-- The manifest is complete once both holders have their shard. -/
theorem steps_sampleAssemble (h : SamplePick a b) :
    ∃ raw, Steps nodeEnv sampleHome (assemble sampleLibs sampleService (lit "film") sampleBody
      ⟨(sampleGroup 7).id, modeShared⟩) (sampleAssembling raw a b) sampleHome (ret (samplePut [a, b])) := by
  obtain ⟨raw, hgroup⟩ := steps_loadByID group_sampleHome
  have hrand : ∀ n, Steps nodeEnv sampleHome (randRead n) [⟨.rand n, .ok (zeros n)⟩] sampleHome
      (ret (zeros n)) :=
    fun n => .op rfl (.refl _ _)
  have hmembers : Steps nodeEnv sampleHome (groupMemberIDs sampleLibs (sampleGroup 7).id)
      [sampleRoster sampleHome]
      sampleHome (ret (sortStrings [lit "alice", lit "bob"])) := by
    refine .op ⟨rfl, .inl rfl⟩ ?_
    have hms := members_sampleHome
    unfold NodeState.members at hms
    simp only [bind_eq, pure_eq, ret_bind, hms]
    exact .refl _ _
  have hwrap : Steps nodeEnv sampleHome (wrapForMode sampleLibs sampleService modeShared (zeros fileKeySize).1
      (lit "film") (sampleGroup 7)) [⟨.rand gcmNonceSize, .ok (zeros gcmNonceSize)⟩] sampleHome
      (ret ((samplePut [a, b]).wrappedKey, lit "film", false)) := by
    unfold wrapForMode sealAES
    rw [if_pos rfl, if_neg (by decide), if_neg (by decide)]
    exact .op rfl (.refl _ _)
  have hloop : Steps nodeEnv sampleHome
      (putLoop sampleLibs sampleService (zeros fileKeySize).1 [a, b] sampleBody 0 [] 0)
      (sampleShipping a b) sampleHome (ret ((samplePut [a, b]).stripes, 3)) := by
    rw [putLoop_of_lt (by decide), if_neg (by decide)]
    exact ((steps_sampleStripe h.first.1 h.second.1).mapErr _).bind (.refl _ _)
  refine ⟨raw, ?_⟩
  unfold assemble resolveGroup
  rw [if_pos (show (sampleGroup 7).id ≠ [] by decide)]
  refine hgroup.bind ?_
  rw [if_neg (by decide)]
  refine (hrand 16).bind ((hrand fileKeySize).bind (hmembers.bind ?_))
  rw [if_neg (by decide)]
  have hholders : pick (sortStrings [lit "alice", lit "bob"]) (hexEncode (zeros 16).1)
    sampleService.params.total = [a, b] := h.picked
  rw [hholders]
  have hnow : Steps nodeEnv sampleHome now [⟨.now, (0 : ℤ)⟩] sampleHome (ret 0) := .op rfl (.refl _ _)
  refine hwrap.bind (hnow.bind ?_)
  exact hloop.bind (.refl _ _)

/-- The operations of the upload from there on. -/
def samplePublishing (m : Manifest) (a b : Bytes) : List NodeEvent :=
  [⟨.storePut (manifestKey m.fileID) (sampleLibs.cbor.manifest.marshal m), .ok ()⟩,
    granted a (sampleManifestRequest m),
    granted b (sampleManifestRequest m)]

/-- A manifest is stored and sent to both holders. -/
theorem steps_samplePublish {m : Manifest} (hholders : m.holders = [a, b]) (hmode : m.mode = modeShared)
    (hfile : 12 ≤ m.fileID.length) (hgroup : 12 ≤ m.groupID.length) (ha : a ≠ sampleService.self)
    (hb : b ≠ sampleService.self) :
    Steps nodeEnv s (publish sampleLibs sampleService m (lit "film")) (samplePublishing m a b)
      (sampleKeeping s m) (ret ()) := by
  have hsend : ∀ h, h ≠ sampleService.self → ∀ v, Steps nodeEnv v
      (replicateManifest sampleLibs sampleService m.fileID (sampleLibs.cbor.manifest.marshal m) h)
      [granted h (sampleManifestRequest m)] v (ret ()) := by
    intro h hself v
    unfold replicateManifest
    rw [if_neg hself]
    exact (steps_putManifestRawOnPeer h _ _).attempt.bind (.refl _ _)
  have hput : Steps nodeEnv s (mapErr (GoErr.wrap (lit "save manifest: ")) (putManifest sampleLibs m))
      [⟨.storePut (manifestKey m.fileID) (sampleLibs.cbor.manifest.marshal m), .ok ()⟩]
      (sampleKeeping s m) (ret ()) :=
    .op (.inl ⟨rfl, rfl⟩) (.refl _ _)
  unfold publish keepName
  rw [if_neg (by rw [hmode]; decide), hholders, slice12_of_le hfile, slice12_of_le hgroup]
  have hfold : ∀ v, Steps nodeEnv v ([a, b].foldlM (fun _ h => replicateManifest sampleLibs sampleService
      m.fileID (sampleLibs.cbor.manifest.marshal m) h) ()) _ v (ret ()) :=
    fun v => (hsend a ha v).bind ((hsend b hb v).bind (.refl _ _))
  exact hput.bind ((hfold _).bind (.refl _ _))

/-- The events of the upload. -/
def sampleUploading (raw a b : Bytes) : List NodeEvent :=
  sampleAssembling raw a b ++ samplePublishing (samplePut [a, b]) a b

/-- The sample node uploads the sample body. -/
theorem steps_samplePut (h : SamplePick a b) :
    ∃ raw, Steps nodeEnv sampleHome sampleUpload (sampleUploading raw a b)
      (sampleKeeping sampleHome (samplePut [a, b])) (ret ()) := by
  obtain ⟨raw, hassemble⟩ := steps_sampleAssemble h
  have hpublish : Steps nodeEnv sampleHome (publish sampleLibs sampleService (samplePut [a, b])
      (lit "film")) _ _ _ :=
    steps_samplePublish rfl rfl (show 12 ≤ (hexEncode (zeros 16).1).length by decide)
      (show 12 ≤ (sampleGroup 7).id.length by decide) h.first.1 h.second.1
  refine ⟨raw, ?_⟩
  rw [sampleUpload, put_eq, bind_assoc]
  refine hassemble.bind ?_
  rw [bind_assoc]
  have hend := hpublish.bind (f := fun _ => ret ()) (.refl _ _)
  rwa [List.append_nil] at hend

/-- A manifest of the upload is read back as it was. -/
theorem unmarshal_samplePut (hvalid : ∀ h ∈ hs, validUTF8 h = true) :
    sampleLibs.cbor.manifest.unmarshal (sampleLibs.cbor.manifest.marshal (samplePut hs)) =
      .ok (samplePut hs) := by
  have htext : (samplePut hs).validText = true := by
    have hhs : hs.all validUTF8 = true := List.all_eq_true.mpr hvalid
    have hid : validUTF8 (hashOf sampleCipher) = true := validUTF8_hexEncode _
    unfold Manifest.validText samplePut
    simp only [hhs, hid, List.all_cons, List.all_nil]
    decide
  have hnorm : (samplePut hs).norm = samplePut hs := by
    unfold Manifest.norm
    rw [show wholeSeconds (samplePut hs).createdAt = (samplePut hs).createdAt from rfl]
  rw [unmarshal_sampleManifest htext, hnorm]

/-- A node that has the shard and the manifest of the upload. -/
def sampleHolder (hs : List Bytes) : NodeState :=
  (NodeState.fresh.putBlock (hashOf sampleCipher) sampleCipher).putKey (manifestKey (samplePut hs).fileID)
    (sampleLibs.cbor.manifest.marshal (samplePut hs))

/-- A node that has them, and that a third peer has become a member of the group. -/
def sampleRepairer (hs : List Bytes) : NodeState :=
  (sampleHolder hs).putKey (memberKey (sampleGroup 7).id (lit "carol"))
    (sampleLibs.cbor.member.marshal (sampleMember (lit "carol")))

/-- The operations of a repair that replaces the first holder. -/
def sampleRepairing (a b : Bytes) : List NodeEvent :=
  [⟨.storeIterate manifestPrefix, ((sampleRepairer [a, b]).scan manifestPrefix, none)⟩,
    ⟨.isOnline a, false⟩,
    sampleRoster (sampleRepairer [a, b]),
    ⟨.isOnline (lit "carol"), true⟩,
    ⟨.blockGet (hashOf sampleCipher), .ok sampleCipher⟩,
    granted (lit "carol") sampleShardRequest,
    ⟨.record .storedOnThem (lit "carol") sampleCipher.length, ()⟩,
    ⟨.storePut (manifestKey (samplePut [lit "carol", b]).fileID)
      (sampleLibs.cbor.manifest.marshal (samplePut [lit "carol", b])), .ok ()⟩,
    granted (lit "carol") (sampleManifestRequest (samplePut [lit "carol", b]))]

/-- The shard of the first slot is reconstructed from that of the second and put on the third peer. -/
theorem steps_sampleMigrate (hb : lit "carol" ≠ b) :
    Steps nodeEnv (sampleRepairer [a, b]) (migrateStripes sampleLibs b (samplePut [a, b]) 0 (lit "carol")
        (samplePut [a, b]).stripes)
      [⟨.blockGet (hashOf sampleCipher), .ok sampleCipher⟩,
        granted (lit "carol") sampleShardRequest,
        ⟨.record .storedOnThem (lit "carol") sampleCipher.length, ()⟩] (sampleRepairer [a, b]) (ret ()) := by
  have hblock : (sampleRepairer [a, b]).block (hashOf sampleCipher) = .ok sampleCipher := by
    simp [NodeState.block, sampleRepairer, sampleHolder, NodeState.putKey, NodeState.putBlock]
  have hget : nodeEnv.step (sampleRepairer [a, b]) (.blockGet (hashOf sampleCipher)) (.ok sampleCipher)
      (sampleRepairer [a, b]) := ⟨rfl, fun _ => .inl hblock.symm⟩
  have hgather : Steps nodeEnv (sampleRepairer [a, b]) (gatherSurvivors sampleLibs b (samplePut [a, b]) 0 0
      [hashOf sampleCipher, hashOf sampleCipher] 0) [⟨.blockGet (hashOf sampleCipher), .ok sampleCipher⟩]
      (sampleRepairer [a, b]) (ret ([none, some sampleCipher], 1)) := .op hget (.refl _ _)
  have hdecode : Params.decode sampleLibs ⟨(samplePut [a, b]).dataShards, (samplePut [a, b]).parityShards⟩
      [none, some sampleCipher] sampleCipher.length =
        some (.ok ([some sampleCipher, some sampleCipher], sampleCipher)) := by
    have hfind : [none, some sampleCipher].find? (fun s => s.any (!·.isEmpty)) =
        some (some sampleCipher) := by
      simp [sampleCipher_ne_nil]
    rw [Params.decode_eq_ok_iff]
    refine ⟨rfl, rfl, ?_, ?_, allocatable_sampleCipher, ?_⟩
    · simp only [sampleLibs, sampleRs, hfind, List.map_cons, List.map_nil]
    · simp [sampleLibs, sampleRs]
    · simp [Params.joinData, samplePut]
  have hstripe : Steps nodeEnv (sampleRepairer [a, b]) (migrateStripeShard sampleLibs b (samplePut [a, b])
      ⟨0, [hashOf sampleCipher, hashOf sampleCipher], 3, sampleCipher.length⟩ 0 (lit "carol"))
      [⟨.blockGet (hashOf sampleCipher), .ok sampleCipher⟩,
        granted (lit "carol") sampleShardRequest,
        ⟨.record .storedOnThem (lit "carol") sampleCipher.length, ()⟩] (sampleRepairer [a, b]) (ret ()) := by
    unfold migrateStripeShard
    refine hgather.bind ?_
    simp only
    rw [if_neg (show ¬ 1 < (samplePut [a, b]).dataShards from lt_irrefl (1 : ℤ)), hdecode]
    simp only [orPanic_some, ret_bind, List.getElem?_cons_zero, ne_eq, not_true_eq_false, if_false]
    unfold placeShard
    rw [if_neg hb]
    exact steps_putShardOnPeer (lit "carol") _ _
  exact hstripe.attempt.bind (.refl _ _)

/-- A text that is long enough is cut for the log. -/
theorem steps_slice12 {id : Bytes} (h : 12 ≤ id.length) : Steps nodeEnv s (slice12 id) [] s (ret ()) := by
  rw [slice12_of_le h]
  exact .refl _ _

/-- The manifest of the repair is stored, and sent to the third peer. -/
theorem steps_sampleSlot (hb : lit "carol" ≠ b) :
    Steps nodeEnv (sampleRepairer [a, b]) (migrateSlot sampleLibs b (samplePut [a, b]) 0 (lit "carol"))
      ((sampleRepairing a b).drop 4)
      (sampleKeeping (sampleRepairer [a, b]) (samplePut [lit "carol", b])) (ret ()) := by
  have hput : ∀ v, Steps nodeEnv v (mapErr (GoErr.wrap (lit "save manifest: "))
      (putManifest sampleLibs (samplePut [lit "carol", b]))) _
      (sampleKeeping v (samplePut [lit "carol", b])) (ret ()) :=
    fun v => .op (.inl ⟨rfl, rfl⟩) (.refl _ _)
  have hother : ∀ v, Steps nodeEnv v (propagate sampleLibs b (samplePut [lit "carol", b]) (lit "carol"))
      [granted (lit "carol") (sampleManifestRequest (samplePut [lit "carol", b]))] v (ret ()) := by
    intro v
    unfold propagate
    rw [if_neg hb]
    exact (steps_putManifestRawOnPeer (lit "carol") _ _).attempt.bind (.refl _ _)
  have hself : ∀ v, Steps nodeEnv v (propagate sampleLibs b (samplePut [lit "carol", b]) b) [] v
      (ret ()) := by
    intro v
    unfold propagate
    rw [if_pos rfl]
    exact .refl _ _
  have hsend : ∀ v, Steps nodeEnv v ([lit "carol", b].foldlM (fun _ h =>
      propagate sampleLibs b (samplePut [lit "carol", b]) h) ()) _ v (ret ()) :=
    fun v => (hother v).bind ((hself v).bind (.refl _ _))
  exact (steps_sampleMigrate hb).bind ((hput _).bind ((hsend _).bind
    (steps_slice12 (show 12 ≤ (hexEncode (zeros 16).1).length by decide))))

/-- A holder that takes the other one to be down counts itself. -/
theorem steps_sampleLive (hab : a ≠ b) :
    Steps nodeEnv s (countLive b [a, b] 0) [⟨.isOnline a, false⟩] s (ret 1) := by
  unfold countLive
  rw [if_neg hab]
  refine .op rfl ?_
  simp only [bind_eq, ret_bind, Bool.false_eq_true, if_false, countLive, if_true]
  exact .refl _ _

/-- A scan for the first holder at a node whose only manifest is that of the upload is the repair of this
file. -/
theorem steps_sampleScan_of {s' : NodeState} {evs : List NodeEvent} (h : SamplePick a b)
    (hscan : s.scan manifestPrefix = [(manifestKey (samplePut [a, b]).fileID,
      sampleLibs.cbor.manifest.marshal (samplePut [a, b]))])
    (hfile : Steps nodeEnv s (repairFile sampleLibs b (samplePut [a, b]) 0) evs s' (ret ())) :
    Steps nodeEnv s (scanForOfflinePeer sampleLibs b a)
      (⟨.storeIterate manifestPrefix, (s.scan manifestPrefix, none)⟩ :: evs) s' (ret ()) := by
  have hms : decodeValues sampleLibs.cbor.manifest (s.scan manifestPrefix) = [samplePut [a, b]] := by
    simp [hscan, decodeValues, unmarshal_samplePut h.valid, Except.toOption]
  refine .op ⟨rfl, .inl rfl⟩ ?_
  simp only [bind_eq, pure_eq, ret_bind, hms]
  have hfind : (samplePut [a, b]).holders.findIdx? (· = a) = some 0 := by
    simp [samplePut, List.findIdx?_cons]
  unfold repairFiles
  simp only [hfind]
  rw [← List.append_nil evs]
  exact hfile.attempt.bind (.refl _ _)

/-- The scan of a holder for the other one, which it takes to be down. -/
theorem steps_sampleScan (h : SamplePick a b) :
    Steps nodeEnv (sampleRepairer [a, b]) (scanForOfflinePeer sampleLibs b a) (sampleRepairing a b)
      (sampleKeeping (sampleRepairer [a, b]) (samplePut [lit "carol", b])) (ret ()) := by
  have hmembers : decodeValues sampleLibs.cbor.member
      ((sampleRepairer [a, b]).scan (memberPrefix (sampleGroup 7).id)) = [sampleMember (lit "carol")] := by
    have hscan : (sampleRepairer [a, b]).scan (memberPrefix (sampleGroup 7).id) =
      [(memberKey (sampleGroup 7).id (lit "carol"),
        sampleLibs.cbor.member.marshal (sampleMember (lit "carol")))] := rfl
    rw [hscan]
    simp [decodeValues, unmarshal_sampleMember (show validUTF8 (lit "carol") = true by decide),
      Except.toOption]
  have hspare : Steps nodeEnv (sampleRepairer [a, b]) (findSpare b [a, b] [sampleMember (lit "carol")])
      [⟨.isOnline (lit "carol"), true⟩] (sampleRepairer [a, b]) (ret (lit "carol")) := by
    have hnot : (sampleMember (lit "carol")).peerID ∉ [a, b] := by
      simp only [List.mem_cons, List.not_mem_nil, or_false, not_or]
      exact ⟨h.first.2, h.second.2⟩
    have hne : (sampleMember (lit "carol")).peerID ≠ b := h.second.2
    unfold findSpare
    rw [if_neg hnot, if_neg hne]
    exact .op rfl (.refl _ _)
  refine steps_sampleScan_of h rfl ?_
  unfold repairFile
  refine (steps_sampleLive h.ne).bind ?_
  rw [if_neg (show ¬ (samplePut [a, b]).dataShards < 1 from lt_irrefl (1 : ℤ))]
  refine .op ⟨rfl, .inl rfl⟩ ?_
  simp only [bind_eq, pure_eq, ret_bind, hmembers]
  refine hspare.bind ?_
  rw [if_neg (by decide)]
  exact steps_sampleSlot h.second.2

/-- What the upload asks for is granted. -/
theorem granted_sampleUploading (h : SamplePick a b) :
    ∀ e ∈ sampleUploading raw a b, AsGranted sampleLibs sampleService.self e := by
  have hshard : Granted sampleLibs sampleShardRequest := .putShard sampleCipher
  have hmanifest : Granted sampleLibs (sampleManifestRequest (samplePut [a, b])) :=
    .putManifest (unmarshal_samplePut h.valid)
  simp [sampleUploading, sampleAssembling, sampleShipping, samplePublishing, AsGranted, h.first.1, h.second.1,
    hshard, hmanifest]

/-- What the repair asks for is granted. -/
theorem granted_sampleRepairing (h : SamplePick a b) :
    ∀ e ∈ sampleRepairing a b, AsGranted sampleLibs b e := by
  have hshard : Granted sampleLibs sampleShardRequest := .putShard sampleCipher
  have hmanifest : Granted sampleLibs (sampleManifestRequest (samplePut [lit "carol", b])) :=
    .putManifest (unmarshal_samplePut h.valid_repaired)
  simp [sampleRepairing, AsGranted, h.second.2, hshard, hmanifest]

/-- Each of the holders is asked to store the shard and the manifest. -/
theorem requestsTo_sampleUploading (hab : a ≠ b) (hk : k ∈ [a, b]) :
    requestsTo k (sampleUploading raw a b) = sampleRequests (samplePut [a, b]) := by
  simp only [List.mem_cons, List.not_mem_nil, or_false] at hk
  rcases hk with rfl | rfl
  · simp [sampleUploading, sampleAssembling, sampleShipping, samplePublishing, requestsTo, sampleRequests,
      Ne.symm hab]
  · simp [sampleUploading, sampleAssembling, sampleShipping, samplePublishing,
      requestsTo, sampleRequests, hab]

/-- The repair asks the third peer only. -/
theorem requestsTo_sampleRepairing (hk : lit "carol" ≠ k) : requestsTo k (sampleRepairing a b) = [] := by
  simp [sampleRepairing, requestsTo, hk]

/-- The node that has granted both requests. -/
theorem receive_sampleRequests (hvalid : ∀ h ∈ hs, validUTF8 h = true) :
    (sampleRequests (samplePut hs)).foldl (NodeState.receive sampleLibs) .fresh = sampleHolder hs := by
  simp only [sampleRequests, List.foldl_cons, List.foldl_nil, NodeState.receive, unmarshal_samplePut hvalid]
  rfl

/-- The nodes after the upload. -/
def sampleReplicas (raw a b : Bytes) : Cluster :=
  (Cluster.fresh.set sampleService.self sampleHome).after sampleLibs sampleService.self
    (sampleKeeping sampleHome (samplePut [a, b])) (sampleUploading raw a b)

/-- A holder after the upload. -/
theorem node_sampleReplicas (h : SamplePick a b) (hk : k ∈ [a, b]) :
    (sampleReplicas raw a b).node k = sampleHolder [a, b] := by
  have hself := (h.member k hk).1
  unfold sampleReplicas
  rw [Cluster.node_after_ne hself, requestsTo_sampleUploading h.ne hk, Cluster.node_set_ne _ _ hself]
  exact receive_sampleRequests h.valid

/-- The manifest of a node that has stored it last. -/
theorem manifest_samplePut (hvalid : ∀ h ∈ hs, validUTF8 h = true) (s : NodeState) :
    (sampleKeeping s (samplePut hs)).manifest sampleLibs (samplePut hs).fileID = some (samplePut hs) :=
  NodeState.manifest_eq_some.mpr ⟨_, SortedMap.get_put_self _ _ _, unmarshal_samplePut hvalid⟩

/-- The upload is a run of the nodes, in which everything is granted. -/
theorem reach_sampleReplicas {N : Type} (sys : System NodeSig Cluster N GoErr Unit) {l : N}
    {A : (o : NodeOp) → o.Ans → Prop}
    (hsys : ∀ w o r w', A o r → Cluster.exec sampleLibs sampleService.self w o r w' → sys.exec l w o r w')
    (hdrift : ∀ w w', Cluster.drift sampleLibs w w' → sys.drift w w') (hstart : sys.start l sampleUpload)
    (h : SamplePick a b)
    (hA : ∀ raw s' (p p' : NodeM Unit), Steps nodeEnv sampleHome p (sampleUploading raw a b) s' p' →
      ∀ e ∈ sampleUploading raw a b, A e.op e.ans) :
    ∃ raw, sys.Reach .fresh (sampleReplicas raw a b) [(l, ret ())] := by
  obtain ⟨raw, hput⟩ := steps_samplePut h
  have hhome : sys.Reach .fresh (Cluster.fresh.set sampleService.self sampleHome) [] :=
    reach_sampleHome fun _ _ _ _ hkey _ => hdrift _ _ (.inr ⟨_, _, _, hkey, rfl⟩)
  exact ⟨raw, reach_after_of hsys hput (Cluster.node_set_self _ _ _)
    (fun e he => ⟨granted_sampleUploading h e he, hA raw _ _ _ hput e he⟩) (hhome.start hstart)⟩

/-- The nodes after a repair at the second holder, which has heard of the third peer. -/
def sampleRepaired (raw a b : Bytes) : Cluster :=
  ((sampleReplicas raw a b).set b (sampleRepairer [a, b])).after sampleLibs b
    (sampleKeeping (sampleRepairer [a, b]) (samplePut [lit "carol", b])) (sampleRepairing a b)

/-- The upload and the repair are a run of the nodes. -/
theorem reach_sampleRepaired (sys : System NodeSig Cluster Bytes GoErr Unit)
    {A : (o : NodeOp) → o.Ans → Prop}
    (hsys : ∀ n w o r w', A o r → Cluster.exec sampleLibs n w o r w' → sys.exec n w o r w')
    (hdrift : ∀ w w', Cluster.drift sampleLibs w w' → sys.drift w w')
    (hstart : sys.start sampleService.self sampleUpload)
    (hscan : sys.start b (scanForOfflinePeer sampleLibs b a)) (h : SamplePick a b)
    (hA : ∀ raw s' (p p' : NodeM Unit), Steps nodeEnv sampleHome p (sampleUploading raw a b) s' p' →
      ∀ e ∈ sampleUploading raw a b, A e.op e.ans)
    (hA' : ∀ e ∈ sampleRepairing a b, A e.op e.ans) :
    ∃ raw, sys.Reach .fresh (sampleRepaired raw a b) [(b, ret ()), (sampleService.self, ret ())] := by
  obtain ⟨raw, hupload⟩ := reach_sampleReplicas sys (hsys sampleService.self) hdrift hstart h hA
  -- One of the holders learns of the third peer and repairs.
  have hjoined := hupload.drift (hdrift _ _ (.inr ⟨b, memberKey (sampleGroup 7).id (lit "carol"),
    sampleLibs.cbor.member.marshal (sampleMember (lit "carol")), by decide, rfl⟩))
  rw [node_sampleReplicas h (by simp)] at hjoined
  exact ⟨raw, reach_after_of (hsys b) (steps_sampleScan h) (Cluster.node_set_self _ _ _)
    (fun e he => ⟨granted_sampleRepairing h e he, hA' e he⟩) (hjoined.start hscan)⟩

/-- An upload to two holders is followed by a repair at one of them, which replaces the other one by a third
peer. Everything that is sent arrives, and nothing is queued or under way at the end. The holder that was
replaced still has the manifest of the upload, and the one that has repaired has its own. -/
theorem exists_copies_apart :
    ∃ w ps, ((cluster sampleLibs).limited Acknowledges).Reach .fresh w ps ∧
      (∀ np ∈ ps, np.2 = ret ()) ∧ w.flight = [] ∧ (∀ n e, (w.node n).spool e = none) ∧
      ∃ fileID n n' m m', (w.node n).manifest sampleLibs fileID = some m ∧
        (w.node n').manifest sampleLibs fileID = some m' ∧ n ∈ m.holders ∧ n' ∈ m.holders ∧
        m.holders ≠ m'.holders := by
  obtain ⟨a, b, h⟩ := exists_samplePick
  obtain ⟨raw, hrepair⟩ := reach_sampleRepaired ((cluster sampleLibs).limited Acknowledges)
    (A := Acknowledges)
    (fun _ _ _ _ _ hA hexec => ⟨hA, hexec⟩) (fun _ _ hd => hd) ⟨rfl, .put trivial⟩ ⟨rfl, .repair trivial⟩ h
    (fun _ _ _ _ _ e he => (granted_sampleUploading h e he).acknowledges)
    (fun e he => (granted_sampleRepairing h e he).acknowledges)
  refine ⟨_, _, hrepair, by simp, rfl, ?_, (samplePut [a, b]).fileID, a, b, samplePut [a, b],
    samplePut [lit "carol", b], ?_, ?_, by simp [samplePut], by simp [samplePut], ?_⟩
  · refine Cluster.spool_after (Cluster.spool_set ?_ fun _ => rfl) fun _ => rfl
    exact Cluster.spool_after (Cluster.spool_set (fun _ _ => rfl) fun _ => rfl) fun _ => rfl
  · rw [sampleRepaired, Cluster.node_after_ne h.ne, requestsTo_sampleRepairing h.first.2, List.foldl_nil,
      Cluster.node_set_ne _ _ h.ne, node_sampleReplicas h (by simp)]
    exact manifest_samplePut h.valid _
  · rw [sampleRepaired, Cluster.node_after_self]
    exact manifest_samplePut h.valid_repaired _
  · intro heq
    exact h.first.2 (List.head_eq_of_cons_eq heq).symm

/-- The operations of a scan at a holder that takes the other one to be down and knows of no other member. -/
def sampleIdling (a b : Bytes) : List NodeEvent :=
  [⟨.storeIterate manifestPrefix, ((sampleHolder [a, b]).scan manifestPrefix, none)⟩, ⟨.isOnline a, false⟩,
    ⟨.storeIterate (memberPrefix (sampleGroup 7).id), ([], none)⟩]

/-- The scan finds no spare. -/
theorem steps_sampleIdling (h : SamplePick a b) :
    Steps nodeEnv (sampleHolder [a, b]) (scanForOfflinePeer sampleLibs b a) (sampleIdling a b)
      (sampleHolder [a, b]) (ret ()) := by
  refine steps_sampleScan_of h rfl ?_
  unfold repairFile
  refine (steps_sampleLive h.ne).bind ?_
  rw [if_neg (show ¬ (samplePut [a, b]).dataShards < 1 from lt_irrefl (1 : ℤ))]
  refine .op ⟨rfl, .inl rfl⟩ ?_
  exact (steps_slice12 (show 12 ≤ (hexEncode (zeros 16).1).length by decide)).bind
    (steps_slice12 (show 12 ≤ (sampleGroup 7).id.length by decide))

/-- After an upload to two holders, one of them takes the other to be down, and finds no spare. The copies
agree. -/
theorem sampleReplicas_agree :
    ∃ w ps n m m₀, (settled sampleLibs m₀).Reach .fresh w ps ∧ ps.length = 2 ∧
      (w.node n).manifest sampleLibs m₀.fileID = some m ∧ n ≠ m.ownerPeerID ∧ m.holders = m₀.holders := by
  obtain ⟨a, b, h⟩ := exists_samplePick
  have hmakes : ∀ raw, ∀ e ∈ sampleUploading raw a b, Makes sampleLibs (samplePut [a, b]) e.op := by
    have hstored : ∀ raw, ∀ e ∈ sampleUploading raw a b, ∀ key value, e.op = .storePut key value →
        value = sampleLibs.cbor.manifest.marshal (samplePut [a, b]) := by
      simp [sampleUploading, sampleAssembling, sampleShipping, samplePublishing]
    intro raw e he value m ho hdec
    rw [hstored raw e he _ value ho, unmarshal_samplePut h.valid] at hdec
    exact ⟨0, (Except.ok.inj hdec).symm⟩
  obtain ⟨raw, hupload⟩ := reach_sampleReplicas (settled sampleLibs (samplePut [a, b]))
    (l := (sampleService.self, fun o _ => Makes sampleLibs (samplePut [a, b]) o))
    (fun _ _ _ _ hA hexec => ⟨hA, hexec⟩) (fun _ _ hd => hd) ⟨rfl, .put fun _ _ h => h⟩ h
    fun raw _ _ _ _ => hmakes raw
  -- The scan is answered as in its trace, where the group has no other members.
  have hidle : FindsIdle sampleLibs (samplePut [a, b]) b fun o r => ⟨o, r⟩ ∈ sampleIdling a b := by
    refine .noSpare fun pairs hA => ?_
    have hne : memberPrefix (samplePut [a, b]).groupID ≠ manifestPrefix := by
      show memberPrefix (sampleGroup 7).id ≠ manifestPrefix
      decide
    obtain ⟨-, rfl⟩ : memberPrefix (samplePut [a, b]).groupID = memberPrefix (sampleGroup 7).id ∧
        pairs = [] := by
      simpa [sampleIdling, hne] using hA
    simp [decodeValues]
  have hstart := hupload.start (show (settled sampleLibs (samplePut [a, b])).start (b, _)
    (scanForOfflinePeer sampleLibs b a) from ⟨rfl, .repair hidle⟩)
  have hgranted : ∀ e ∈ sampleIdling a b, AsGranted sampleLibs b e := by simp [sampleIdling, AsGranted]
  have hexec : ∀ w o r w', (⟨o, r⟩ : NodeEvent) ∈ sampleIdling a b → Cluster.exec sampleLibs b w o r w' →
      (settled sampleLibs (samplePut [a, b])).exec (b, fun o r => ⟨o, r⟩ ∈ sampleIdling a b) w o r w' :=
    fun _ _ _ _ hA hexec => ⟨hA, hexec⟩
  have hscan := reach_after_of hexec (steps_sampleIdling h) (node_sampleReplicas h (by simp))
    (fun e he => ⟨hgranted e he, he⟩) hstart
  have hm : (((sampleReplicas raw a b).after sampleLibs b (sampleHolder [a, b]) (sampleIdling a b)).node
      a).manifest
      sampleLibs (samplePut [a, b]).fileID = some (samplePut [a, b]) := by
    have hnone : requestsTo a (sampleIdling a b) = [] := rfl
    rw [Cluster.node_after_ne h.ne, hnone, List.foldl_nil, node_sampleReplicas h (by simp)]
    exact manifest_samplePut h.valid _
  exact ⟨_, _, a, _, _, hscan, rfl, hm, h.first.1, copies_agree sampleCbor_lawful hscan hm⟩

end Sample

end FnShare
