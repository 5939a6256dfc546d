import FnShare.Repair.Recovery
import FnShare.Repair.Scan
import FnShare.File.Success

/-!
# A repair commits at once or not at all

Whatever fails and wherever it is, a repair leaves the store as it was or has replaced one holder, by a
spare that has the shards of all stripes (`repairFile_commits`).
-/

namespace FnShare

open Prog

section Commits

variable {L : Libs} {self : Bytes} {m : Manifest} {slot : ℕ}

/-- A repair of a slot, whatever fails and wherever it is, leaves the store as it was, or it has replaced
the holder of the slot by a member of the group that was no holder and has the shards of all stripes. It
leaves the store without an error only if enough holders were up or there was no spare, and it has not
failed once the holder is replaced. -/
theorem repairFile_commits (hdistinct : m.holders.Nodup)
    (hlen : (m.holders.length : ℤ) = m.dataShards + m.parityShards) {s s' : NodeState}
    {evs : List NodeEvent} {p' : NodeM Unit}
    (h : Steps nodeEnv s (repairFile L self m slot) evs s' p') :
    (s'.store = s.store ∧ (p' = ret () →
      EnoughLive self m evs ∨ NoSpare self m (s.members L m.groupID) evs)) ∨
    ∃ spare, s'.store = s.store.put (manifestKey m.fileID)
        (L.cbor.manifest.marshal { m with holders := m.holders.set slot spare }) ∧
      (∃ mem ∈ s.members L m.groupID, mem.peerID = spare) ∧ spare ∉ m.holders ∧
      (∀ st ∈ m.stripes, ∃ id, st.shardIDs[slot]? = some id ∧ ShardPlaced L self spare id evs) ∧
      (m.holders.set slot spare).Nodup ∧
      ((m.holders.set slot spare).length : ℤ) = m.dataShards + m.parityShards ∧
      ∀ e, p' ≠ fail e := by
  rcases repairFile_trace h with ⟨hsame, hdone⟩ | ⟨spare, pre, post, rfl, hpre, hmig, hstore, hend⟩
  · exact .inl ⟨hsame, fun hret => (hdone hret).imp_right And.right⟩
  refine .inr ⟨spare, hstore, ?_, hmig.not_holder, fun st hst => ?_, ?_, ?_, hend⟩
  · obtain ⟨pairs, mem, hread, hmem, hpeer⟩ := hmig.member
    obtain ⟨v, q, h₁, -⟩ := h.split
    rw [scan_of_storePuts_nil h₁ hpre hread] at hmem
    exact ⟨mem, hmem, hpeer⟩
  · obtain ⟨id, hid, hplaced⟩ := hmig.placed st hst
    exact ⟨id, hid, hplaced.mono (List.subset_append_left _ _)⟩
  · exact hdistinct.set hmig.not_holder
  · rw [List.length_set, hlen]

end Commits

/-! ## A repair that replaces a holder -/

/-- The ciphertext of the sample file's stripe, which with one data shard is every shard. -/
def sampleShard : Bytes := [1, 2, 3]

/-- The stripe of a file with these holders. -/
def sampleStripe (hs : List Bytes) : Stripe := ⟨0, hs.map fun _ => hashOf sampleShard, 3, 3⟩

/-- A file of one stripe with these holders and one data shard. -/
def sampleFile (hs : List Bytes) : Manifest where
  fileID := lit "0123456789abcdef"
  groupID := (sampleGroup 7).id
  filename := lit "film"
  size := 3
  dataShards := 1
  parityShards := hs.length - 1
  stripeDataSize := 4
  holders := hs
  stripes := [sampleStripe hs]
  createdAt := 0
  ownerPeerID := sampleService.self
  mode := modeShared
  wrappedKey := []
  filenameEncrypted := false

/-- The members of the group are those of the sample node. -/
def SampleMembers (s : NodeState) : Prop :=
  ∀ {mem}, mem ∈ s.members sampleLibs (sampleGroup 7).id ↔
    mem = sampleMember (lit "alice") ∨ mem = sampleMember (lit "bob")

/-- The states of a node that has the shard, and the members of the sample node. -/
abbrev Keeper : Type :=
  { s : NodeState // s.blocks (hashOf sampleShard) = some sampleShard ∧ SampleMembers s }

/-- The sample node with the shard. -/
def sampleKeeper : Keeper :=
  ⟨sampleHome.putBlock (hashOf sampleShard) sampleShard, by simp [NodeState.putBlock],
    mem_members_sampleHome⟩

/-- The answer of peers that take what they are given. -/
def Takes (_ : Bytes) (_ : Request) (r : Except GoErr Response) : Prop := r = .ok { ok := true }

/-- A node that has the shard and whose disk works, where all peers take what they are given. It stores
nothing but manifests. -/
def keeperEnv (live : Bytes → Bool) : Env NodeSig Keeper where
  step s o r s' := (watchEnv live Takes).step s.1 o r s'.1
  guard _ o := o ≠ .panic ∧ ∀ key raw, o = .storePut key raw → ∃ fileID, key = manifestKey fileID

section Sample

variable {live : Bytes → Bool} {hs : List Bytes}
variable {α : Type} {s s' : Keeper} {evs : List NodeEvent}

/-- What is allowed is answered. -/
theorem keeperEnv_answers (s : Keeper) (o : NodeOp) (ho : (keeperEnv live).guard s o) :
    ∃ r s', (keeperEnv live).step s o r s' := by
  obtain ⟨r, s', hstep, hblocks, hstore⟩ := @watchEnv_answers live Takes
    (fun _ _ => ⟨_, rfl⟩) s.1 o ho.1
  have hmembers : SampleMembers s' := by
    rcases hstore with hsame | ⟨key, value, rfl, hput⟩
    · intro mem
      rw [NodeState.mem_members_iff, hsame, ← NodeState.mem_members_iff]
      exact s.2.2
    · obtain ⟨fileID, rfl⟩ := ho.2 key value rfl
      exact (NodeState.mem_members_of_put hput).trans s.2.2
  exact ⟨r, ⟨s', by rw [hblocks, s.2.1], hmembers⟩, hstep⟩

/-- What the node does, it does on its disk. -/
theorem steps_of_keeper {p p' : NodeM α} (h : Steps (keeperEnv live) s p evs s' p') :
    Steps nodeEnv s.1 p evs s'.1 p' :=
  h.map Subtype.val fun _ _ _ _ (hs : (keeperEnv live).step _ _ _ _) => hs.1

/-- The node that repairs serves the shard, which is enough. -/
theorem serving_sampleFile (hdown : ∀ h ∈ hs, h ≠ sampleService.self → live h = false) :
    Serving sampleLibs sampleService.self (keeperEnv live) live (sampleFile hs) (sampleStripe hs)
      (hs.map fun _ => sampleShard) := by
  have hread : ∀ {s r s'}, (keeperEnv live).step s (.blockGet (hashOf sampleShard)) r s' →
      r = .ok sampleShard := by
    rintro s r s' ⟨-, hr⟩
    rw [hr (isShardID_hashOf _), NodeState.block, s.2.1]
  have hid : ∀ {i : ℕ} {id : Bytes}, (sampleStripe hs).shardIDs[i]? = some id →
      id = hashOf sampleShard ∧ (hs.map fun _ => sampleShard)[i]? = some sampleShard := by
    intro i id h
    unfold sampleStripe at h
    rw [List.getElem?_map] at h
    obtain ⟨a, ha, rfl⟩ := Option.map_eq_some_iff.mp h
    exact ⟨rfl, by rw [List.getElem?_map, ha]; rfl⟩
  refine ⟨?_, fun h => h.2, ?_, ?_, ?_⟩
  · intro s o hsurvey ho
    refine ⟨ho, ?_⟩
    rintro key raw rfl
    exact hsurvey.elim
  · intro i id s d s' h hstep
    obtain ⟨rfl, hshard⟩ := hid h
    rw [hshard, Except.ok.inj (hread hstep)]
  · intro i id s e s' _ h hstep
    obtain ⟨rfl, -⟩ := hid h
    exact absurd (hread hstep) (by simp)
  · intro i h hh hne hlive
    exact absurd (hlive.symm.trans (hdown h (List.mem_of_getElem? hh) hne)) (by simp)

/-- The spare takes the shards, and it is not the node itself, which is a holder. -/
theorem repairable_sampleFile (hself : sampleService.self ∈ hs) (slot : ℕ) :
    Repairable sampleLibs sampleService.self (keeperEnv live) live (sampleFile hs) slot
      fun _ => hs.map fun _ => sampleShard where
  guard ho hkey := ⟨ho, fun key raw h => ⟨_, hkey key raw h⟩⟩
  panic := .inl (show 12 ≤ (lit "0123456789abcdef").length ∧ 12 ≤ (sampleGroup 7).id.length by decide)
  online h := h.2
  members := by
    rintro s pairs err s' ⟨-, hread⟩
    refine ⟨congrArg Prod.snd hread, fun mem hmem st _ d _ => .inr ⟨?_, mem.peerID, rfl, ?_⟩⟩
    · rintro heq
      have hnot := List.find?_some hmem
      simp [sampleFile, heq, hself] at hnot
    · rintro w r w' ⟨-, hr⟩
      exact ⟨_, hr, rfl⟩
  save := by
    rintro s raw e s' ⟨-, hr⟩
    obtain ⟨⟩ : Except.error e = Except.ok () := hr

/-- With the other holders down, the node can repair the file, and no repair of it fails. -/
theorem wp_sampleRepair (hself : sampleService.self ∈ hs)
    (henc : (⟨1, hs.length - 1⟩ : Params).encode sampleLibs sampleShard =
      .ok (hs.map fun _ => sampleShard))
    (hdown : ∀ h ∈ hs, h ≠ sampleService.self → live h = false) {slot : ℕ} {h : Bytes}
    (hslot : hs[slot]? = some h) (hne : h ≠ sampleService.self) (s : Keeper) :
    wp (keeperEnv live) (repairFile sampleLibs sampleService.self (sampleFile hs) slot)
      (returns fun _ _ => True) s := by
  have hup : isUp sampleService.self live sampleService.self = true := by simp [isUp]
  refine wp_repairFile_served sampleRs_mds (fun _ => sampleShard)
    (repairable_sampleFile hself slot) (by simp [sampleFile])
    (List.getElem?_eq_some_iff.mp hslot).1 ?_ ?_ ?_ s
  · intro h' hh'
    obtain rfl : h = h' := Option.some.inj (hslot.symm.trans hh')
    simp [isUp, hne, hdown h (List.mem_of_getElem? hslot) hne]
  · have hpos : 0 < hs.countP (isUp sampleService.self live) :=
      List.countP_pos_iff.mpr ⟨_, hself, hup⟩
    change (1 : ℤ) ≤ _
    exact_mod_cast hpos
  · intro st hst
    obtain rfl := List.mem_singleton.mp hst
    exact ⟨⟨by decide, henc, by simp [sampleStripe], rfl, by decide⟩, serving_sampleFile hdown⟩

/-- The answers of the ledger in an execution of the node. -/
theorem isOnline_of_keeper {p p' : NodeM α} (h : Steps (keeperEnv live) s p evs s' p') {peer : Bytes}
    {online : Bool} (he : ⟨.isOnline peer, online⟩ ∈ evs) : online = live peer := by
  obtain ⟨v, v', hstep⟩ := h.exists_step _ he
  exact hstep.2

/-- With all holders down but the node itself, and a member of the group that is up and no holder, there is
something to do for a repair. -/
theorem sampleRepair_due {p p' : NodeM α} (hdistinct : hs.Nodup)
    (hdown : ∀ h ∈ hs, h ≠ sampleService.self → live h = false) (h : Steps (keeperEnv live) s p evs s' p')
    (hspare : ∃ p, (p = lit "alice" ∨ p = lit "bob") ∧ p ∉ hs ∧ live p = true) :
    ¬ (EnoughLive sampleService.self (sampleFile hs) evs ∨
      NoSpare sampleService.self (sampleFile hs) (s.1.members sampleLibs (sampleGroup 7).id) evs) := by
  rintro (⟨up, hsub, hcount, hup⟩ | ⟨before, mem, after, heq, -, hnil, -⟩ | ⟨-, hall⟩)
  · -- Only the node itself was found up.
    have hall : ∀ h' ∈ up, h' = sampleService.self := by
      intro h' hh'
      by_contra hne
      have hlive := isOnline_of_keeper h ((hup h' hh').resolve_left hne)
      rw [hdown h' (hsub.subset hh') hne] at hlive
      exact absurd hlive (by simp)
    have hle : up.length ≤ 1 := by
      have hrep := List.eq_replicate_of_mem hall
      have hnodup := hsub.nodup hdistinct
      rw [hrep] at hnodup
      exact List.nodup_replicate.mp hnodup
    have : (1 : ℤ) < up.length := hcount
    omega
  · rcases s.2.2.mp (show mem ∈ s.1.members _ _ by simp [heq]) with rfl | rfl
    · exact absurd hnil (by decide)
    · exact absurd hnil (by decide)
  · obtain ⟨peer, hpeer, hnot, hlive⟩ := hspare
    have hmem := s.2.2.mpr (hpeer.imp (congrArg sampleMember) (congrArg sampleMember))
    obtain ⟨-, hoff⟩ := (hall _ hmem).resolve_left hnot
    exact absurd ((isOnline_of_keeper h hoff).trans hlive) (by simp)

end Sample

/-- A repair that replaces the holder that is down. -/
theorem sampleKeeper_repairs :
    ∃ evs s' spare, Steps nodeEnv sampleKeeper.1 (repairFile sampleLibs sampleService.self
        (sampleFile [lit "carol", sampleService.self]) 0) evs s' (ret ()) ∧
      s'.store = sampleKeeper.1.store.put (manifestKey (lit "0123456789abcdef"))
        (sampleLibs.cbor.manifest.marshal { sampleFile [lit "carol", sampleService.self] with
          holders := [spare, sampleService.self] }) ∧
      spare ∉ [lit "carol", sampleService.self] := by
  let live : Bytes → Bool := fun h => h ≠ lit "carol"
  have hdown : ∀ h ∈ [lit "carol", sampleService.self], h ≠ sampleService.self → live h = false := by
    decide
  obtain ⟨evs, s', x, hsteps, hx⟩ := wp_exists keeperEnv_answers (wp_sampleRepair
    (by decide) rfl hdown (show _[0]? = _ from rfl) (by decide) sampleKeeper)
  cases x with
  | error e => exact hx.elim
  | ok u =>
    rcases repairFile_commits (by decide) (by decide) (steps_of_keeper hsteps) with
      ⟨hsame, hdone⟩ | ⟨spare, hstore, -, hnot, -⟩
    · exact absurd (hdone rfl) (sampleRepair_due (by decide) hdown hsteps ⟨lit "alice", by decide⟩)
    · exact ⟨evs, s'.1, spare, steps_of_keeper hsteps, hstore, hnot⟩

/-! ## The sample file in the store -/

section Stored

variable {live : Bytes → Bool} {hs : List Bytes}

/-- The sample file with another holder in a slot. -/
theorem replaceHolder_sampleFile (hs : List Bytes) (slot : ℕ) (spare : Bytes) :
    (sampleFile hs).replaceHolder slot spare = sampleFile (hs.set slot spare) := by
  simp [sampleFile, Manifest.replaceHolder, sampleStripe]

/-- The texts of the sample file. -/
theorem validText_sampleFile (hvalid : ∀ h ∈ hs, validUTF8 h = true) :
    (sampleFile hs).validText = true := by
  have hhs : hs.all validUTF8 = true := List.all_eq_true.mpr hvalid
  have hids : [sampleStripe hs].all (fun s => s.shardIDs.all validUTF8) = true := by
    have : validUTF8 (hashOf sampleShard) = true := validUTF8_hexEncode _
    simp [sampleStripe, this]
  unfold Manifest.validText sampleFile
  simp only [hhs, hids]
  decide

/-- The node after `store.Put` of a manifest. -/
def Keeper.putManifest (s : Keeper) (fileID raw : Bytes) : Keeper :=
  ⟨s.1.putKey (manifestKey fileID) raw, s.2.1, (NodeState.mem_members_of_put rfl).trans s.2.2⟩

/-- The sample node with the shard and the manifest of the sample file. -/
def sampleOwner (hs : List Bytes) : Keeper :=
  sampleKeeper.putManifest (lit "0123456789abcdef") (sampleLibs.cbor.manifest.marshal (sampleFile hs))

/-- The one manifest of the sample node is that of the sample file. -/
theorem eq_key_of_sampleOwner {key raw : Bytes} (hget : (sampleOwner hs).1.store.get key = some raw)
    (hpre : manifestPrefix <+: key) : key = manifestKey (lit "0123456789abcdef") := by
  by_contra hne
  unfold sampleOwner Keeper.putManifest sampleKeeper NodeState.putKey NodeState.putBlock at hget
  simp only at hget
  rw [SortedMap.get_put_ne _ hne] at hget
  obtain ⟨rest, rfl⟩ := hpre
  rw [show sampleHome.store.get (manifestPrefix ++ rest) = none from
    get_sampleHome (not_prefix_append 1 (by decide) rest) (not_prefix_append 0 (by decide) rest)] at hget
  exact absurd hget (by simp)

/-- The owner has its manifest. -/
theorem manifest_sampleOwner (hvalid : ∀ h ∈ hs, validUTF8 h = true) :
    (sampleOwner hs).1.manifest sampleLibs (lit "0123456789abcdef") = some (sampleFile hs) :=
  NodeState.manifest_of_put (m := sampleFile hs) sampleCbor_lawful (validText_sampleFile hvalid) rfl

/-- It is under its own key. -/
theorem filed_sampleOwner (hvalid : ∀ h ∈ hs, validUTF8 h = true) :
    (sampleOwner hs).1.FiledManifests sampleLibs := by
  intro key raw m hpre hget hdec
  obtain rfl := eq_key_of_sampleOwner hget hpre
  obtain ⟨raw', hget', hdec'⟩ := NodeState.manifest_eq_some.mp (manifest_sampleOwner hvalid)
  obtain rfl := Option.some.inj (hget.symm.trans hget')
  rw [Except.ok.inj (hdec.symm.trans hdec')]
  rfl

/-- It is the only one. -/
theorem manifests_sampleOwner (hvalid : ∀ h ∈ hs, validUTF8 h = true) :
    (sampleOwner hs).1.manifests sampleLibs = [sampleFile hs] := by
  obtain ⟨raw, hget, hdec⟩ := NodeState.manifest_eq_some.mp (manifest_sampleOwner hvalid)
  unfold NodeState.manifests
  rw [NodeState.scan_eq_singleton hget (List.prefix_append _ _) fun k v => eq_key_of_sampleOwner]
  simp [decodeValues, hdec, Except.toOption]

/-- It is still the only one when it has been stored again. -/
theorem manifests_of_sampleOwner {s : NodeState} {hs' : List Bytes}
    (hvalid : ∀ h ∈ hs', validUTF8 h = true)
    (h : s.store = (sampleOwner hs).1.store.put (manifestKey (lit "0123456789abcdef"))
      (sampleLibs.cbor.manifest.marshal (sampleFile hs'))) :
    s.manifests sampleLibs = [sampleFile hs'] := by
  have hm : s.manifest sampleLibs (lit "0123456789abcdef") = some (sampleFile hs') :=
    NodeState.manifest_of_put (m := sampleFile hs') sampleCbor_lawful (validText_sampleFile hvalid) h
  obtain ⟨raw, hget, hdec⟩ := NodeState.manifest_eq_some.mp hm
  unfold NodeState.manifests
  rw [NodeState.scan_eq_singleton hget (List.prefix_append _ _) fun k v hk hpre => ?_]
  · simp [decodeValues, hdec, Except.toOption]
  · by_contra hne
    rw [h, SortedMap.get_put_ne _ hne] at hk
    exact hne (eq_key_of_sampleOwner hk hpre)

/-- With the other holders down and one member up that is no holder, the node can run a scan that replaces
a holder by that member. -/
theorem exists_sampleScan (hself : sampleService.self ∈ hs) (hdistinct : hs.Nodup)
    (henc : (⟨1, hs.length - 1⟩ : Params).encode sampleLibs sampleShard =
      .ok (hs.map fun _ => sampleShard))
    (hdown : ∀ h ∈ hs, h ≠ sampleService.self → live h = false) {slot : ℕ} {h : Bytes}
    (hslot : hs.findIdx? (· = h) = some slot) (hne : h ≠ sampleService.self) (s : Keeper)
    (hspare : ∃ p, (p = lit "alice" ∨ p = lit "bob") ∧ p ∉ hs ∧ live p = true) :
    ∃ evs s' spare, Steps (keeperEnv live) s
        (repairFiles sampleLibs sampleService.self h [sampleFile hs]) evs s' (ret ()) ∧
      ⟨.storePut (manifestKey (lit "0123456789abcdef"))
        (sampleLibs.cbor.manifest.marshal (sampleFile (hs.set slot spare))), .ok ()⟩ ∈ evs ∧
      s'.1.store = s.1.store.put (manifestKey (lit "0123456789abcdef"))
        (sampleLibs.cbor.manifest.marshal (sampleFile (hs.set slot spare))) ∧
      live spare = true ∧ spare ∉ hs := by
  have hat : hs[slot]? = some h := getElem?_of_findIdx? hslot
  obtain ⟨evs, s', x, hsteps, hx⟩ := wp_exists keeperEnv_answers
    (wp_sampleRepair hself henc hdown hat hne s)
  cases x with
  | error e => exact hx.elim
  | ok u =>
    rcases repairFile_trace (steps_of_keeper hsteps) with
      ⟨-, hdone⟩ | ⟨spare, pre, post, rfl, -, hmig, hstore, -⟩
    · exact absurd ((hdone rfl).imp_right And.right) (sampleRepair_due hdistinct hdown hsteps hspare)
    have hlive : live spare = true := by
      have hup := hmig.live.resolve_left fun heq => hmig.not_holder (heq ▸ hself)
      exact (isOnline_of_keeper hsteps (List.mem_append_left _ hup)).symm
    rw [replaceHolder_sampleFile] at hstore hsteps
    refine ⟨pre ++ _ :: post, s', spare, ?_, List.mem_append_right _ List.mem_cons_self, hstore,
      hlive, hmig.not_holder⟩
    unfold repairFiles
    have hfind : (sampleFile hs).holders.findIdx? (· = h) = some slot := hslot
    simp only [hfind]
    rw [← List.append_nil (pre ++ _)]
    exact (Steps.attempt hsteps).bind (.refl _ _)

end Stored

end FnShare
