import FnShare.File.RoundTrip
import FnShare.Replicas

/-!
# Files last

What a file is to its owner is that it can be read back, whatever has happened since it was uploaded. Between
the upload and the read, shards wait in spools and are delivered, requests and their answers get lost, holders
are replaced by repairs at one node or another, and several versions of the manifest are about.
`file_survives` puts the parts together: the manifest that a reader goes by, its own or one that a peer has
sent, goes back to an upload (`Descends`), and if of each stripe that it touches `DataShards` slots are at
hand, the read returns the bytes of that upload's body. A slot is at hand if its holder answers and nothing is
queued for it any more (`AtHand`).

Two invariants of the cluster carry this. Every manifest is placed (`inv_of_reach`), so a slot that is at hand
has a shard under the right id. And every copy of a manifest is one that an upload has made, but for the
holders and the fraction of a second of its time (`lineage_of_reach`), so that the right id is that of an
original shard. The runs are those in which no two different shards have the same hash, and a group has one
key (`Regular`).
-/

namespace FnShare

open Prog

section Definitions

variable (L : Libs) (S : Service → Bytes → Body → PutOptions → Prop) (R : (o : NodeOp) → o.Ans → Prop)
  (D : Bytes → Prop) (keys : Bytes → Bytes)

/-- What the runs are like: whoever reads the record of a group finds the group's one key, and the shards that
are handed over are among `D`. -/
def Regular : (o : NodeOp) → o.Ans → Prop
  | .storeGet key, r => ∀ gid raw g, key = groupKey gid → r = .ok raw → L.cbor.group.unmarshal raw = .ok g →
      g.sharedKey = keys g.id
  | .storeIterate pre, r => pre = lit "group/" → ∀ g ∈ decodeValues L.cbor.group r.1, g.sharedKey = keys g.id
  | .blockPut _ data, _ => D data
  | .request _ req, _ => req.op = .putShard → D req.body
  | .spoolWrite _ kind _ data, _ => kind = .shard → D data
  | _, _ => True

/-- The nodes with the uploads `S`, in the runs in which every operation is answered as `R` says. -/
def uploads : System NodeSig Cluster Bytes GoErr Unit := (clusterOf L S).limited R

/-- A manifest goes back to one of the uploads: it is a version of the manifest that the upload has made of
the body. -/
def Descends (m' : Manifest) (svc : Service) (body : Body) (u : Upload) : Prop :=
  ∃ filename opts m, S svc filename body opts ∧ u.Made L svc filename body opts m ∧ m.Version m'

/-- Encoded bytes are those of a manifest that goes back to an upload in these runs, if of any. -/
def Lineage (raw : Bytes) : Prop :=
  ∀ m', L.cbor.manifest.unmarshal raw = .ok m' →
    ∃ svc body u, Descends L S m' svc body u ∧ ∀ e ∈ u.events, R e.op e.ans

/-- In these runs, what is handed over as a shard is among `D`. -/
def HandsOver : Prop := ∀ o r, R o r → Relays (fun _ => True) D o

/-- A state of the nodes at the time of `w` or after it. -/
def After (w v : Cluster) : Prop := (∃ ps, (uploads L S R).Reach .fresh v ps) ∧ Later L w v

/-- The answers that a reader at the node `n` gets from the time of `w` on, while the nodes go on: its own
disk works, and a peer that is up serves it, with the shard if it has it. -/
def Attending (w : Cluster) (n : Bytes) (up : Bytes → Prop) : (o : NodeOp) → o.Ans → Prop
  | .blockGet id, r => ∃ v, After L S R w v ∧ r = (v.node n).block id
  | .request pid req, r => req.op = .getShard →
    (∃ v v' resp, After L S R w v ∧ Served L v n pid req resp v' ∧ r = .ok resp ∧
      ((v.node pid).blocks req.id ≠ none → resp.ok = true)) ∨ (¬ up pid ∧ acknowledged r = false)
  | _, _ => True

/-- The shard of a slot is at hand for a reader at the node `n`: the holder is up or is the node itself, and
the uploader has nothing queued for it any more. -/
def AtHand (w : Cluster) (n : Bytes) (up : Bytes → Prop) (owner : Bytes) (slot : Bytes × Bytes) : Prop :=
  (∃ pid, L.peerDecode slot.2 = .ok pid ∧ (up pid ∨ pid = n)) ∧
    (w.node owner).spool ⟨slot.2, .shard, slot.1⟩ = none

open scoped Classical in
/-- How many slots of a stripe are at hand. -/
noncomputable def atHand (w : Cluster) (n : Bytes) (up : Bytes → Prop) (r : Reader) (st : Stripe) : ℕ :=
  (slots r st).countP fun slot => decide (AtHand L w n up r.m.ownerPeerID slot)

end Definitions

/-! ## Versions -/

/-- A version with other holders, as many. -/
theorem Manifest.Version.setHolders {m m' : Manifest} (h : m.Version m') {hs : List Bytes}
    (hlen : hs.length = m'.holders.length) (t : ℤ) : m.Version { m' with createdAt := t, holders := hs } := by
  obtain ⟨t', hs', hlen', rfl⟩ := h
  exact ⟨t, hs, hlen.trans hlen', rfl⟩

section Lineage

variable {L : Libs} {S : Service → Bytes → Body → PutOptions → Prop} {R : (o : NodeOp) → o.Ans → Prop}
  {D : Bytes → Prop} {w w' : Cluster} {n : Bytes}
variable {svc : Service} {body : Body} {m : Manifest}

/-- A manifest that differs in its time and its holders goes back to the same upload. -/
theorem Descends.setHolders {m' : Manifest} {u : Upload} (h : Descends L S m' svc body u) {hs : List Bytes}
    (hlen : hs.length = m'.holders.length) (t : ℤ) :
    Descends L S { m' with createdAt := t, holders := hs } svc body u := by
  obtain ⟨filename, opts, m, hS, hmade, hver⟩ := h
  exact ⟨filename, opts, m, hS, hmade, hver.setHolders hlen t⟩

/-- The encoding of a manifest that goes back to an upload. -/
theorem Descends.lineage (hC : L.cbor.Lawful) {u : Upload} (h : Descends L S m svc body u)
    (hR : ∀ e ∈ u.events, R e.op e.ans) : Lineage L S R (L.cbor.manifest.marshal m) := by
  intro m' hdec
  rw [hC.manifest.eq_norm hdec]
  exact ⟨svc, body, u, h.setHolders rfl _, hR⟩

/-- What is decoded and stored again goes back to the same upload. -/
theorem restorable_lineage (hC : L.cbor.Lawful) : Restorable L (Lineage L S R) := by
  intro raw m hraw hdec
  obtain ⟨svc, body, u, h, hR⟩ := hraw m hdec
  exact h.lineage hC hR

/-- The manifest that an upload has made. -/
theorem lineage_of_uploaded (hC : L.cbor.Lawful) {filename : Bytes}
    {opts : PutOptions} {evs : List NodeEvent} (hS : S svc filename body opts)
    (hup : Uploaded L svc filename body opts evs m) (hR : ∀ e ∈ evs, R e.op e.ans) :
    Lineage L S R (L.cbor.manifest.marshal m) := by
  obtain ⟨u, rfl, hu⟩ := hup
  have hdesc : Descends L S m svc body u := ⟨filename, opts, m, hS, hu, m.createdAt, m.holders, rfl, rfl⟩
  exact hdesc.lineage hC hR

/-! ## Programs among the others -/

/-- Every copy goes back to an upload, and every shard is among `D`. -/
abbrev Lasting (L : Libs) (S : Service → Bytes → Body → PutOptions → Prop) (R : (o : NodeOp) → o.Ans → Prop)
    (D : Bytes → Prop) : Cluster → Prop := Copies L (Lineage L S R) D

/-- The environment of a program at the node `n`, among all others. -/
abbrev lasting (L : Libs) (S : Service → Bytes → Body → PutOptions → Prop) (R : (o : NodeOp) → o.Ans → Prop)
    (D : Bytes → Prop) (n : Bytes) : Env NodeSig Cluster :=
  (uploads L S R).inside (Lasting L S R D) (fun _ => True) n

/-- Manifests and shards that are handed over are right if each of the two are. -/
theorem relays_and {K : Bytes → Prop} {o : NodeOp} (hK : Relays K (fun _ => True) o)
    (hD : Relays (fun _ => True) D o) : Relays K D o := by
  cases o with
  | blockPut id data => exact hD
  | request pid req =>
    obtain ⟨op, id, body⟩ := req
    cases op with
    | putShard => exact hD
    | putManifest => exact hK
    | _ => trivial
  | spoolWrite peer kind key data =>
    cases kind with
    | shard => exact hD
    | manifest => exact hK
  | _ => trivial

section

variable (hC : L.cbor.Lawful) (hD : HandsOver R D)
include hC hD

/-- An operation is admissible if what it stores, sends and queues as a manifest goes back to an upload. -/
theorem lasting_guard {o : NodeOp} (hfiles : StoresOnly L (Lineage L S R) o)
    (hrelays : Relays (Lineage L S R) (fun _ => True) o) (w : Cluster) : (lasting L S R D n).guard w o := by
  refine ⟨trivial, ?_⟩
  rintro v r w' hv ⟨hR, hexec⟩
  exact hv.exec hC (restorable_lineage hC) hfiles (relays_and hrelays (hD o r hR)) hexec

/-- Among nodes whose copies go back to uploads, a program can count on that. -/
theorem relaying_lasting : Relaying L (Lineage L S R) (fun _ => True) (lasting L S R D n) n where
  guard w o ho := lasting_guard hC hD (fun key raw h => absurd h (ho.1 key raw)) ho.2 w
  step := by
    rintro w o r w' ⟨v, hv, -, hexec⟩
    refine ⟨v, ⟨hv.stored, fun _ _ _ _ => trivial, ?_, hv.manifests, fun _ _ _ => trivial⟩, hexec⟩
    intro k e data hdata
    have hqueued := hv.queued k e data hdata
    split_ifs at hqueued ⊢
    exact hqueued

/-- A program may store a manifest that goes back to an upload. -/
theorem storable_lasting {m : Manifest} (hm : Lineage L S R (L.cbor.manifest.marshal m)) :
    Storable L (Lineage L S R) (lasting L S R D n) m where
  guard w := by
    refine lasting_guard (o := .storePut _ _) hC hD ?_ trivial w
    rintro key raw ho
    obtain ⟨rfl, rfl⟩ := NodeOp.storePut.inj ho
    exact filedAs_marshal hC hm
  right _ _ _ _ := hm

/-- An upload stores and sends its own manifest. -/
theorem lasting_put (hM : L.rs.Mds) (hA : L.aead.Correct) {svc : Service} {filename : Bytes} {body : Body}
    {opts : PutOptions} (hS : S svc filename body opts) (w : Cluster) :
    wp (lasting L S R D n) (put L svc filename body opts) (fun _ _ => True) w := by
  have hstep : ∀ w o r w', True → (lasting L S R D n).guard w o →
      (lasting L S R D n).step w o r w' → R o r := by
    rintro w o r w' - - ⟨v, -, hR, -⟩
    exact hR
  refine wp_mono (wp_of_traced (fun _ => True) (fun e _ => R e.op e.ans) (fun _ _ _ _ _ _ _ => trivial)
    hstep ?_ ?_ (wp_put svc hM hA filename body opts w) trivial (by simp)) fun _ _ _ => trivial
  · exact fun _ _ _ _ _ _ _ _ h => h
  intro w l o _ hR hguard
  have hraw : ∀ {m raw}, Uploaded L svc filename body opts l m → raw = L.cbor.manifest.marshal m →
      Lineage L S R raw := by
    rintro m raw hup rfl
    exact lineage_of_uploaded hC hS hup hR
  refine lasting_guard hC hD ?_ ?_ w
  · rintro key raw rfl
    rcases hguard with ho | ⟨m, hup, rfl, rfl⟩ | ⟨fileID, rfl⟩
    · exact ho.elim
    · exact filedAs_marshal hC (hraw hup rfl)
    · exact filedAs_other (not_prefix_pnameKey fileID) raw
  · cases o with
    | request pid req =>
      obtain ⟨op, id, data⟩ := req
      cases op with
      | putManifest =>
        rcases hguard with ho | ⟨-, m, hup, -, hm⟩
        · exact absurd ho (by simp [uploadOp])
        · exact hraw hup hm
      | _ => trivial
    | spoolWrite peer kind key data =>
      cases kind with
      | shard => trivial
      | manifest =>
        rcases hguard with ho | ⟨m, hup, -, hm⟩
        · exact ho.elim
        · exact hraw hup hm
    | _ => trivial

/-- A repair stores what it has read, with another holder. -/
theorem migratable_lasting {raw : Bytes} {m : Manifest} (hraw : Lineage L S R raw)
    (hdec : L.cbor.manifest.unmarshal raw = .ok m) :
    Migratable L (Lineage L S R) (fun _ => True) (lasting L S R D n) m where
  ids := .inl fun _ => trivial
  storable _ _ _ _ mem _ slot := by
    obtain ⟨svc, body, u, h, hR⟩ := hraw m hdec
    have hlen : (m.holders.set slot mem.peerID).length = m.holders.length := List.length_set
    exact storable_lasting hC hD ((h.setHolders hlen m.createdAt).lineage hC hR)

/-- Every copy goes back to an upload in whatever the nodes reach, and their programs keep it so. -/
theorem lineage_of_reach (hM : L.rs.Mds) (hA : L.aead.Correct) {ps : List (Bytes × NodeM Unit)}
    (h : (uploads L S R).Reach .fresh w ps) :
    Lasting L S R D w ∧ ∀ np ∈ ps, wp (lasting L S R D np.1) np.2 (fun _ _ => True) w := by
  refine h.invariant copies_fresh (fun _ _ hI hd => hI.drift hC (restorable_lineage hC) hd) ?_
  rintro n p v ⟨-, hruns⟩
  have hE := relaying_lasting (S := S) (n := n) hC hD
  cases hruns with
  | put hS => exact wp_bind_of (lasting_put hC hD hM hA hS v) (fun _ _ _ => trivial) fun _ _ _ => trivial
  | flush => exact hE.flushAll v
  | repair =>
    refine hE.scanForOfflinePeer (fun raw m hraw hdec slot w => ?_) _ v
    exact hE.repairFile (fun _ _ _ _ _ _ _ _ => trivial) (migratable_lasting hC hD hraw hdec) slot w

end

/-- These runs are runs of the cluster. -/
theorem reach_cluster {ps : List (Bytes × NodeM Unit)} (h : (uploads L S R).Reach .fresh w ps) :
    (cluster L).Reach .fresh w ps := by
  refine h.mono ?_ ?_ ?_
  · exact fun _ _ _ _ _ hs => hs.2
  · rintro n p ⟨hn, hruns⟩
    refine ⟨hn, ?_⟩
    cases hruns with
    | put => exact .put trivial
    | flush => exact .flush _
    | repair h => exact .repair h
  · exact fun _ _ hd => hd

/-- The manifest that a node has found goes back to an upload, and is placed. -/
theorem found_of_reach (hM : L.rs.Mds) (hA : L.aead.Correct) (hC : L.cbor.Lawful) (hD : HandsOver R D)
    {ps : List (Bytes × NodeM Unit)} (h : (uploads L S R).Reach .fresh w ps) {node : Service}
    {fileID : Bytes} {evs : List NodeEvent}
    (hsent : ∀ pid resp, (⟨.request pid ⟨.getManifest, fileID, []⟩, .ok resp⟩ : NodeEvent) ∈ evs →
      resp.ok = true → AnswersWith L ⟨.getManifest, fileID, []⟩ (w.node pid) resp)
    (hfound : Found L node fileID (w.node n) evs m) :
    m.fileID = fileID ∧ Placed L w m ∧
      ∃ svc body u, Descends L S m svc body u ∧ ∀ e ∈ u.events, R e.op e.ans := by
  have hcopies := (lineage_of_reach hC hD hM hA h).1
  have hinv := (inv_of_reach hM hA hC (reach_cluster h)).1
  have hstored : ∀ k m', (w.node k).manifest L fileID = some m' → m'.fileID = fileID ∧ Placed L w m' ∧
      ∃ svc body u, Descends L S m' svc body u ∧ ∀ e ∈ u.events, R e.op e.ans := by
    intro k m' hm'
    obtain ⟨hid, raw, hraw, hdec⟩ := hcopies.manifest hm'
    obtain ⟨raw', hget, hdec'⟩ := NodeState.manifest_eq_some.mp hm'
    exact ⟨hid, hinv.stored k _ raw' (List.prefix_append _ _) hget m' hdec', hraw m' hdec⟩
  rcases hfound with ⟨raw, hraw, hdec⟩ | ⟨-, pid, resp, -, hmem, hok, hdec⟩
  · exact hstored n m (NodeState.manifest_eq_some.mpr ⟨raw, hraw, hdec⟩)
  · -- A peer has sent what it has, which was encoded and decoded on the way.
    obtain ⟨m', hm', hbody⟩ := hsent pid resp hmem hok
    obtain ⟨hid, hplaced, svc, body, u, hdesc, hR⟩ := hstored pid m' hm'
    rw [hbody] at hdec
    rw [hC.manifest.eq_norm hdec]
    exact ⟨hid, ⟨hplaced.length_holders, hplaced.held⟩, svc, body, u, hdesc.setHolders rfl _, hR⟩

end Lineage

/-! ## Reading -/

section Reading

variable {L : Libs} {S : Service → Bytes → Body → PutOptions → Prop} {R : (o : NodeOp) → o.Ans → Prop}
  {D : Bytes → Prop} {keys : Bytes → Bytes} {w : Cluster} {node svc : Service}
  {up : Bytes → Prop} {r : Reader}
  {id holder : Bytes}
variable {st : Stripe}

/-- In regular runs, the shards that are handed over are among `D`. -/
theorem handsOver_regular : HandsOver (Regular L D keys) D := by
  intro o r hreg
  cases o with
  | blockPut id data => exact hreg
  | request pid req =>
    obtain ⟨op, id, body⟩ := req
    cases op with
    | putShard => exact hreg rfl
    | _ => trivial
  | spoolWrite peer kind key data =>
    cases kind with
    | shard => exact hreg rfl
    | manifest => trivial
  | _ => trivial

/-- What was delivered in these runs is among `D`. -/
theorem regular_originalShards {evs : List NodeEvent} (h : ∀ e ∈ evs, Regular L D keys e.op e.ans)
    (svc : Service) (j : ℕ) {s : Bytes} (hs : s ∈ originalShards svc evs j) : D s := by
  obtain ⟨⟨o, a⟩, he, rfl⟩ := List.mem_map.mp hs
  obtain ⟨hmem, hdel⟩ := List.mem_filter.mp (List.mem_of_mem_drop (List.mem_of_mem_take he))
  have hreg := h _ hmem
  cases o with
  | blockPut id data => exact hreg
  | request pid req => exact hreg (by simpa [isDelivery] using hdel)
  | _ => exact absurd hdel (by simp [isDelivery])

/-- The group that an upload was for has the group's one key. -/
theorem GroupRead.sharedKey {gid : Bytes} {evs : List NodeEvent} {g : Group} (h : GroupRead L gid evs g)
    (hreg : ∀ e ∈ evs, Regular L D keys e.op e.ans) : g.sharedKey = keys g.id := by
  rcases h with ⟨-, raw, hhead, hdec⟩ | ⟨-, pairs, hhead, hone⟩
  · exact hreg _ (List.mem_of_mem_head? hhead) gid raw g rfl rfl hdec
  · refine hreg _ (List.mem_of_mem_head? hhead) rfl g ?_
    rw [hone]
    exact List.mem_singleton_self g

/-- The key that a reader has unwrapped is that of the upload that its manifest goes back to. -/
theorem Descends.readerOf (hR : L.rs.Mds) (hA : L.aead.Correct) (hB : L.box.Correct) {body : Body}
    {u : Upload} (h : Descends L S r.m svc body u) (hreg : ∀ e ∈ u.events, Regular L D keys e.op e.ans)
    {g : Group} (hgroup : g.sharedKey = keys r.m.groupID) (hkey : unwrapForMode L node r.m g = .ok r.key)
    (howner : r.m.mode = modePrivate → SameKeys L svc node) :
    ReaderOf L svc body.data (originalShards svc u.events) r := by
  obtain ⟨filename, opts, m, -, hu, t, hs, hlen, hm⟩ := h
  have hbefore : ∀ e ∈ u.before, Regular L D keys e.op e.ans :=
    fun e he => hreg e (by simp [Upload.events, he])
  rw [hm] at hgroup howner
  have hshared : g.sharedKey = u.group.sharedKey := by
    rw [hgroup, hu.group_read.sharedKey hbefore]
    exact congrArg keys hu.group_eq
  exact (hu.readerOf_of_unwrap hR hA hB ⟨t, hs, hlen, hm⟩ (fun _ => hshared) howner hkey).2.2

/-- The ids in a stripe are the hashes of the shards that the upload has delivered. -/
theorem Descends.shardIDs_eq (hR : L.rs.Mds) (hA : L.aead.Correct) {m : Manifest} {body : Body} {u : Upload}
    (h : Descends L S m svc body u) {j : ℕ} (hst : m.stripes[j]? = some st) :
    st.shardIDs = (originalShards svc u.events j).map hashOf := by
  obtain ⟨filename, opts, m₀, -, hu, t, hs, -, hm⟩ := h
  rw [hm] at hst
  obtain ⟨nonce, -, -, hids, -⟩ := hu.stripe hR hA rfl hst
  exact hids

/-- Whatever is fetched under the hash of a shard is that shard. -/
theorem fetched_original (hR : L.rs.Mds) (hA : L.aead.Correct) (hC : L.cbor.Lawful)
    (hands : HandsOver R D) (hD : Set.InjOn hashOf {b | D b}) {s : Bytes} (hs : D s) {g : Option Bytes}
    (hg : Fetched L node (Attending L S R w node.self up) (hashOf s) holder g) : g = none ∨ g = some s := by
  have hblock : ∀ {v k data}, After L S R w v → (v.node k).blocks (hashOf s) = some data → data = s := by
    rintro v k data ⟨⟨ps, hreach⟩, -⟩ hdata
    have hhash := (inv_of_reach hR hA hC (reach_cluster hreach)).1.blocks k _ data hdata
    exact hD ((lineage_of_reach hC hands hR hA hreach).1.blocks k _ data hdata) hs hhash
  cases hg with
  | here h =>
    obtain ⟨v, hv, hdata⟩ := h
    exact .inr (congrArg some (hblock hv (NodeState.block_eq_ok.mp hdata.symm)))
  | lost | unknown | failed => exact .inl rfl
  | @remote e pid resp h hself hpid hr hok =>
    rcases hr rfl with ⟨v, v', resp', hv, hserved, hresp, -⟩ | ⟨-, hno⟩
    · obtain rfl := Except.ok.inj hresp
      have hans : AnswersWith L ⟨.getShard, hashOf s, []⟩ (v.node pid) resp := hserved.answers hok
      exact .inr (congrArg some (hblock hv (hans (isShardID_hashOf s))))
    · rw [acknowledged, hok] at hno
      exact absurd hno (by simp)

/-- A slot that is at hand gives something. -/
theorem AtHand.fetched (hself : L.peerDecode node.self = .ok node.self) {owner : Bytes}
    (h : AtHand L w node.self up owner (id, holder)) (hheld : Held L w owner holder id) {g : Option Bytes}
    (hg : Fetched L node (Attending L S R w node.self up) id holder g) : g ≠ none := by
  obtain ⟨⟨pid, hpid, hup⟩, hspool⟩ := h
  -- Nothing is queued, so the shard has arrived, and there it stays.
  have hstored : ∀ {v}, After L S R w v → (v.node pid).blocks id ≠ none := by
    rintro v ⟨-, hlater⟩
    rcases hheld with ⟨pid', hpid', hs⟩ | ⟨data, hdata, -⟩
    · obtain rfl : pid' = pid := Except.ok.inj (hpid'.symm.trans hpid)
      obtain ⟨data, hdata, -⟩ := hlater.stored pid' id hs
      rw [hdata]
      simp
    · rw [hspool] at hdata
      exact absurd hdata (by simp)
  have hhere : ∀ {e}, Attending L S R w node.self up (.blockGet id) (.error e) → pid ≠ node.self := by
    rintro e ⟨v, hv, hblock⟩ rfl
    obtain ⟨data, hdata⟩ := Option.ne_none_iff_exists'.mp (hstored hv)
    rw [NodeState.block_eq_ok.mpr hdata] at hblock
    exact absurd hblock (by simp)
  cases hg with
  | here | remote => simp
  | lost h hholder =>
    rw [hholder, hself] at hpid
    exact absurd (Except.ok.inj hpid).symm (hhere h)
  | unknown h _ hno => exact absurd (hpid.symm.trans hno) (by simp)
  | @failed e pid' a h hholder hpid' hr hno =>
    obtain rfl : pid' = pid := Except.ok.inj (hpid'.symm.trans hpid)
    rcases hr rfl with ⟨v, v', resp, hv, -, rfl, hok⟩ | ⟨hdown, -⟩
    · rw [acknowledged, hok (hstored hv)] at hno
      exact absurd hno (by simp)
    · exact absurd (hup.resolve_right (hhere h)) hdown

/-- Slots that are at hand give their shard. -/
theorem enough_of_atHand (hself : L.peerDecode node.self = .ok node.self)
    (hheld : List.Forall₂ (fun holder id => Held L w r.m.ownerPeerID holder id) r.m.holders st.shardIDs)
    {got : List (Option Bytes)}
    (hgot : List.Forall₂ (fun slot g => Fetched L node (Attending L S R w node.self up) slot.1 slot.2 g)
      (slots r st) got) :
    atHand L w node.self up r st ≤ present got := by
  have hslots : ∀ slot ∈ slots r st, Held L w r.m.ownerPeerID slot.2 slot.1 := by
    rintro ⟨id, holder⟩ hslot
    exact List.forall₂_zip hheld.flip hslot
  unfold atHand
  generalize slots r st = sls at hgot hslots
  induction hgot with
  | nil => exact Nat.zero_le _
  | @cons slot g sls got hg _ ih =>
    have hrest := ih fun slot hslot => hslots slot (List.mem_cons_of_mem _ hslot)
    rw [present_cons, List.countP_cons]
    by_cases hat : AtHand L w node.self up r.m.ownerPeerID slot
    · have hsome : g ≠ none := hat.fetched hself (hslots slot List.mem_cons_self) hg
      obtain ⟨b, rfl⟩ := Option.ne_none_iff_exists'.mp hsome
      simpa [hat] using hrest
    · simp only [hat]
      exact hrest.trans (Nat.le_add_right _ _)

/-- A slot that is at hand counts. -/
theorem AtHand.pos {n : Bytes} {slot : Bytes × Bytes} (h : AtHand L w n up r.m.ownerPeerID slot)
    (hslot : slot ∈ slots r st) : 0 < atHand L w n up r st :=
  List.countP_pos_iff.mpr ⟨slot, hslot, by simpa using h⟩

/-- A node that is asked for a shard can answer. -/
theorem exists_served (w : Cluster) (n pid id body : Bytes) :
    ∃ resp v', Served L w n pid ⟨.getShard, id, body⟩ resp v' ∧
      ((w.node pid).blocks id ≠ none → resp.ok = true) := by
  have hget : nodeEnv.step (w.node pid) (.blockGet id) ((w.node pid).block id) (w.node pid) :=
    ⟨rfl, fun _ => .inl rfl⟩
  cases hblock : (w.node pid).block id with
  | error e =>
    rw [hblock] at hget
    refine ⟨refuse e.text, _, ⟨_, _, .op hget (.refl _ _), rfl⟩, ?_⟩
    intro hne
    obtain ⟨data, hdata⟩ := Option.ne_none_iff_exists'.mp hne
    exact absurd (hblock.symm.trans (NodeState.block_eq_ok.mpr hdata)) (by simp)
  | ok data =>
    rw [hblock] at hget
    have hrecord : nodeEnv.step (w.node pid) (.record .servedToThem n data.length) () (w.node pid) := rfl
    exact ⟨{ ok := true, body := data }, _, ⟨_, _, .op hget (.op hrecord (.refl _ _)), rfl⟩, fun _ => rfl⟩

/-- The nodes can answer a reader. -/
theorem exists_attending {ps : List (Bytes × NodeM Unit)} (h : (uploads L S R).Reach .fresh w ps) (n : Bytes)
    (up : Bytes → Prop) {o : NodeOp} (ho : Answerable o) : ∃ a, Attending L S R w n up o a := by
  have hnow : After L S R w w := ⟨⟨ps, h⟩, .refl w⟩
  cases o with
  | blockGet id => exact ⟨_, w, hnow, rfl⟩
  | request pid req =>
    obtain ⟨op, id, body⟩ := req
    by_cases hop : op = .getShard
    · subst hop
      obtain ⟨resp, v', hserved, hok⟩ := exists_served (L := L) w n pid id body
      exact ⟨.ok resp, fun _ => .inl ⟨w, v', resp, hnow, hserved, rfl, hok⟩⟩
    · exact ⟨.error .eof, fun h => absurd h hop⟩
  | _ => exact ⟨(NodeOp.nonempty_ans ho).some, trivial⟩

/-- Whatever uploads, deliveries and repairs have done at the nodes, the manifest by which a node opens a file
goes back to an upload. If of every stripe that a read touches `DataShards` slots are at hand, it returns the
bytes of the body of that upload, while the nodes go on. -/
theorem file_survives (hR : L.rs.Mds) (hA : L.aead.Correct) (hB : L.box.Correct) (hC : L.cbor.Lawful)
    (hD : Set.InjOn hashOf {b | D b}) (hself : L.peerDecode node.self = .ok node.self)
    {ps : List (Bytes × NodeM Unit)} (hreach : (uploads L S (Regular L D keys)).Reach .fresh w ps)
    {fileID : Bytes} {evs : List NodeEvent} {t : NodeState}
    (hopen : Steps nodeEnv (w.node node.self) (openReader L node fileID) evs t (ret r))
    (hsent : ∀ pid resp, (⟨.request pid ⟨.getManifest, fileID, []⟩, .ok resp⟩ : NodeEvent) ∈ evs →
      resp.ok = true → AnswersWith L ⟨.getManifest, fileID, []⟩ (w.node pid) resp)
    (hgroup : ∀ g, (w.node node.self).group L r.m.groupID = some g → g.sharedKey = keys r.m.groupID) :
    r.m.fileID = fileID ∧ ∃ svc body u, Descends L S r.m svc body u ∧
      (∀ e ∈ u.events, Regular L D keys e.op e.ans) ∧
      ((r.m.mode = modePrivate → SameKeys L svc node) →
        ∀ (up : Bytes → Prop) (c : StripeCache) (size offset : ℕ),
        CacheSound svc fileID body.data c → 0 < size → body.data.length + size < 2^63 →
        (∀ j st, r.m.stripes[j]? = some st → j * svc.stripeSize < min (offset + size) body.data.length →
          offset < (j + 1) * svc.stripeSize → r.m.dataShards ≤ atHand L w node.self up r st) →
        Computes (answerEnv (Attending L S (Regular L D keys) w node.self up)) c (readAt L node r size offset)
          ((body.data.drop offset).take size,
            if ((body.data.drop offset).take size).length < size then some .eof else none)) := by
  obtain ⟨hfound, g, hg, hkey⟩ := wp_steps (hopen.traced _ [])
    (wp_openReader (fun _ _ _ _ => trivial) fun _ _ _ _ => trivial)
  rw [List.nil_append] at hfound
  obtain ⟨hid, hplaced, svc, body, u, hdesc, hreg⟩ :=
    found_of_reach hR hA hC handsOver_regular hreach hsent hfound
  refine ⟨hid, svc, body, u, hdesc, hreg, ?_⟩
  intro howner up c size offset hcache hpos hsize hslots
  have hof := hdesc.readerOf hR hA hB hreg (hgroup g hg) hkey howner
  rw [← hid] at hcache
  refine computes_of_wp (fun c o ho => answerEnv_answers (fun _ => exists_attending hreach node.self up) c ho)
    (wp_readAt hR hA (readsFrom_answerEnv _ _) hof hpos hsize offset ?_ hcache)
  intro j hlt hle
  constructor
  · -- Each slot is that of an original shard, under its hash.
    intro st hst
    have hids := hdesc.shardIDs_eq hR hA hst
    have hlen : st.shardIDs.length = r.m.holders.length := by
      have := hof.lengths hR hA hst
      omega
    have hmap : (originalShards svc u.events j).map hashOf = (slots r st).map Prod.fst := by
      rw [← hids]
      exact (List.map_fst_zip hlen.le).symm
    rw [← List.forall₂_eq_eq_eq, List.forall₂_map_left_iff, List.forall₂_map_right_iff] at hmap
    have hshards := (List.forall₂_and_left _ _).mpr ⟨fun s hs => regular_originalShards hreg svc j hs, hmap⟩
    refine (hshards.imp ?_).flip
    rintro s slot ⟨hs, hslot⟩ got hgot
    rw [← hslot] at hgot
    exact fetched_original hR hA hC handsOver_regular hD hs hgot
  · intro st hst got hgot
    have hheld := hplaced.held st (List.mem_of_getElem? hst)
    exact (hslots j st hst hlt hle).trans (by exact_mod_cast enough_of_atHand hself hheld hgot)

end Reading

/-! ## An upload, a repair and a read -/

section Sample

/-- The upload of the sample body. -/
def SampleUploads (svc : Service) (_ : Bytes) (body : Body) (_ : PutOptions) : Prop :=
  svc = sampleService ∧ body = sampleBody

/-- The runs of the upload of the sample body, which has one shard. -/
abbrev sampleUploads : System NodeSig Cluster Bytes GoErr Unit :=
  uploads sampleLibs SampleUploads (Regular sampleLibs (· = sampleCipher) fun _ => (sampleGroup 7).sharedKey)

variable {a b : Bytes}

/-- What the sample node reads as the record of its group is the group. -/
theorem regular_sampleUploading {raw : Bytes} {s' : NodeState} {p p' : NodeM Unit}
    (h : Steps nodeEnv sampleHome p (sampleUploading raw a b) s' p') :
    ∀ e ∈ sampleUploading raw a b,
      Regular sampleLibs (· = sampleCipher) (fun _ => (sampleGroup 7).sharedKey) e.op e.ans := by
  obtain ⟨s₁, hs⟩ := h.head rfl
  have hget : sampleHome.store.get (groupKey (sampleGroup 7).id) = some raw := NodeState.get_of_step hs
  obtain ⟨raw', hget', hdec⟩ := NodeState.group_eq_some.mp group_sampleHome
  obtain rfl : raw = raw' := Option.some.inj (hget.symm.trans hget')
  have hgroup : ∀ gid value g, groupKey (sampleGroup 7).id = groupKey gid → raw = value →
      sampleLibs.cbor.group.unmarshal value = .ok g → g.sharedKey = (sampleGroup 7).sharedKey := by
    rintro gid value g - rfl hg
    rw [Except.ok.inj (hg.symm.trans hdec)]
  have hmembers : memberPrefix (sampleGroup 7).id ≠ lit "group/" := by decide
  simpa [sampleUploading, sampleAssembling, sampleShipping, samplePublishing, Regular, hmembers] using hgroup

/-- What the repair reads and hands over. -/
theorem regular_sampleRepairing :
    ∀ e ∈ sampleRepairing a b,
      Regular sampleLibs (· = sampleCipher) (fun _ => (sampleGroup 7).sharedKey) e.op e.ans := by
  have hmembers : memberPrefix (sampleGroup 7).id ≠ lit "group/" := by decide
  have hmanifests : manifestPrefix ≠ lit "group/" := by decide
  simp [sampleRepairing, Regular, hmembers, hmanifests]

/-- The key of the upload is unwrapped with that of the group. -/
theorem unwrap_samplePut (hs : List Bytes) :
    unwrapForMode sampleLibs sampleService (samplePut hs) (sampleGroup 7) = .ok (zeros fileKeySize).1 := by
  have hlen : (sampleGroup 7).sharedKey.length = fileKeySize := by decide
  have hmode : (samplePut hs).mode = modeShared := rfl
  unfold unwrapForMode
  rw [hmode, if_neg (by decide), if_pos rfl, if_neg (not_not.mpr hlen)]
  exact openAES_sealedAES (L := sampleLibs) sampleAead_correct hlen (zeros gcmNonceSize).2 _

/-- An upload to two holders is followed by a repair that replaces the first one. The uploader does not hear
of it, and nothing is queued. -/
theorem exists_sampleRepaired :
    ∃ w ps a b, sampleUploads.Reach .fresh w ps ∧ (∀ h ∈ [a, b], validUTF8 h = true) ∧
      w.node sampleService.self = sampleKeeping sampleHome (samplePut [a, b]) := by
  obtain ⟨a, b, h⟩ := exists_samplePick
  obtain ⟨raw, hrepair⟩ := reach_sampleRepaired sampleUploads (fun _ _ _ _ _ hA hexec => ⟨hA, hexec⟩)
    (fun _ _ hd => hd) ⟨rfl, .put ⟨rfl, rfl⟩⟩ ⟨rfl, .repair trivial⟩ h
    (fun _ _ _ _ hput => regular_sampleUploading hput) regular_sampleRepairing
  have hself := Ne.symm h.second.1
  refine ⟨_, _, a, b, hrepair, h.valid, ?_⟩
  rw [sampleRepaired, Cluster.node_after_ne hself, requestsTo_sampleRepairing (by decide), List.foldl_nil,
    Cluster.node_set_ne _ _ hself, sampleReplicas, Cluster.node_after_self]

/-- With the first holder down and replaced, the uploader reads the file by the manifest that it has, from the
second byte on and past its end. -/
theorem sampleUploads_survive :
    ∃ w ps b r c, sampleUploads.Reach .fresh w ps ∧
      Computes (answerEnv (Attending sampleLibs SampleUploads (Regular sampleLibs (· = sampleCipher)
        fun _ => (sampleGroup 7).sharedKey) w sampleService.self (· = b))) c
        (readAt sampleLibs sampleService r 5 1) ([2, 3], some .eof) := by
  obtain ⟨w, ps, a, b, hreach, hvalid, hw⟩ := exists_sampleRepaired
  have hraw : (w.node sampleService.self).store.get (manifestKey (samplePut [a, b]).fileID) =
      some (sampleLibs.cbor.manifest.marshal (samplePut [a, b])) := by
    rw [hw]
    exact SortedMap.get_put_self _ _ _
  have hgroup : (w.node sampleService.self).group sampleLibs (samplePut [a, b]).groupID =
      some (sampleGroup 7) := by
    rw [hw, NodeState.group_putManifest]
    exact group_sampleHome
  obtain ⟨raw, raw', hopen⟩ := steps_openReader hraw (unmarshal_samplePut hvalid) hgroup
    (unwrap_samplePut [a, b])
  obtain ⟨-, svc, body, u, hdesc, -, hread⟩ := file_survives sampleRs_mds sampleAead_correct sampleBox_correct
    sampleCbor_lawful (fun x hx y hy _ => hx.trans hy.symm) rfl hreach hopen (by simp) (fun g hg => by
      rw [Option.some.inj (hg.symm.trans hgroup)])
  obtain ⟨-, -, -, ⟨rfl, rfl⟩, -⟩ := hdesc
  refine ⟨w, ps, b, _, .new 0, hreach, hread ?_ (· = b) (.new 0) 5 1 (.new _ _ _ _)
    (by decide) (by decide) ?_⟩
  · intro hmode
    exact absurd hmode (by simp only [samplePut]; decide)
  · intro j st hst _ _
    have hslot : AtHand sampleLibs w sampleService.self (· = b) sampleService.self
        (hashOf sampleCipher, b) := by
      refine ⟨⟨b, rfl, .inl rfl⟩, ?_⟩
      rw [hw]
      rfl
    refine Int.ofNat_le.mpr (hslot.pos ?_)
    rw [List.mem_singleton.mp (List.mem_of_getElem? hst)]
    exact List.mem_cons_of_mem _ List.mem_cons_self

end Sample

end FnShare
