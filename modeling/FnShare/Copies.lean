import FnShare.Cluster
import FnShare.File.Failure
import FnShare.File.Stored
import FnShare.Repair.Scan

/-!
# Copies of manifests and shards

What a program has stored, sent or queued goes on to other nodes, through requests, spools and what is under
way, and is stored there in its turn. `Copies K B` says that `K` holds of every encoded manifest that is about
and `B` of every shard, and that each manifest is stored under the id of its file. The steps of the nodes keep
it if what the programs hand over is right in this sense (`Copies.exec`, `Copies.drift`), since a node stores
what it was sent.

A program that runs among such nodes (`Relaying`) can count on what it reads. So the spool's worker, which
sends what was queued, is right whatever `K` and `B` are (`Relaying.flushAll`), and an upload and a scan are
if the manifests that they store are (`Relaying.publish`, `Relaying.scanForOfflinePeer`).
-/

namespace FnShare

open Prog

section Definitions

variable (L : Libs) (K B : Bytes → Prop)

/-- What is stored under the key of a manifest is right and belongs there. -/
def FiledAs (key raw : Bytes) : Prop :=
  manifestPrefix <+: key → K raw ∧ ∀ m, L.cbor.manifest.unmarshal raw = .ok m → key = manifestKey m.fileID

/-- Every copy of a manifest or a shard is right, be it stored, queued or under way. -/
structure Copies (w : Cluster) : Prop where
  stored : ∀ n key raw, (w.node n).store.get key = some raw → FiledAs L K key raw
  blocks : ∀ n id data, (w.node n).blocks id = some data → B data
  queued : ∀ n e data, (w.node n).spool e = some data → if e.kind = .manifest then K data else B data
  manifests : ∀ x ∈ w.flight, x.2.2.op = .putManifest → K x.2.2.body
  shards : ∀ x ∈ w.flight, x.2.2.op = .putShard → B x.2.2.body

/-- What an operation hands over to a store. -/
def StoresOnly (o : NodeOp) : Prop := ∀ key raw, o = .storePut key raw → FiledAs L K key raw

/-- What an operation hands over to the disk, the spool or another node, besides the records that it
stores. -/
def Relays : NodeOp → Prop
  | .blockPut _ data => B data
  | .request _ ⟨.putShard, _, data⟩ => B data
  | .request _ ⟨.putManifest, _, raw⟩ => K raw
  | .spoolWrite _ .shard _ data => B data
  | .spoolWrite _ .manifest _ raw => K raw
  | _ => True

/-- Storing what was decoded is as right as what was sent. -/
def Restorable : Prop := ∀ raw m, K raw → L.cbor.manifest.unmarshal raw = .ok m →
  K (L.cbor.manifest.marshal m)

end Definitions

section Steps

variable {L : Libs} {K B : Bytes → Prop} {w w' : Cluster} {n : Bytes}
variable {pid : Bytes} {req : Request} {resp : Response}

/-- There is no copy yet. -/
theorem copies_fresh : Copies L K B .fresh := by
  refine ⟨?_, ?_, ?_, by simp [Cluster.fresh], by simp [Cluster.fresh]⟩ <;>
  · intro n x raw h
    exact absurd h (by simp [Cluster.fresh, NodeState.fresh])

/-- A manifest that is stored under the id of its file belongs there. -/
theorem filedAs_marshal (hC : L.cbor.Lawful) {m : Manifest} (h : K (L.cbor.manifest.marshal m)) :
    FiledAs L K (manifestKey m.fileID) (L.cbor.manifest.marshal m) := by
  refine fun _ => ⟨h, ?_⟩
  intro m' hdec
  rw [hC.manifest.eq_norm hdec]
  rfl

/-- A record that is no manifest. -/
theorem filedAs_other {key : Bytes} (h : ¬ manifestPrefix <+: key) (raw : Bytes) : FiledAs L K key raw :=
  fun hkey => absurd hkey h

/-- The manifest that a node has of a file is one of that file. -/
theorem Copies.manifest (h : Copies L K B w) {fileID : Bytes} {m : Manifest}
    (hm : (w.node n).manifest L fileID = some m) :
    m.fileID = fileID ∧ ∃ raw, K raw ∧ L.cbor.manifest.unmarshal raw = .ok m := by
  obtain ⟨raw, hget, hdec⟩ := NodeState.manifest_eq_some.mp hm
  obtain ⟨hK, hkey⟩ := h.stored n _ raw hget (List.prefix_append _ _)
  exact ⟨(manifestKey_inj (hkey m hdec)).symm, raw, hK, hdec⟩

/-! ## What a step does to the copies -/

/-- A change at one node. -/
theorem Copies.set (h : Copies L K B w) {s' : NodeState}
    (hstore : ∀ key raw, s'.store.get key = some raw → FiledAs L K key raw)
    (hblocks : ∀ id data, s'.blocks id = some data → B data)
    (hspool : ∀ e data, s'.spool e = some data → if e.kind = .manifest then K data else B data) :
    Copies L K B (w.set n s') := by
  have hnode : ∀ k, (w.set n s').node k = s' ∨ (w.set n s').node k = w.node k := by
    intro k
    by_cases hk : k = n
    · subst hk
      exact .inl (Cluster.node_set_self _ _ _)
    · exact .inr (Cluster.node_set_ne _ _ hk)
  refine ⟨?_, ?_, ?_, h.manifests, h.shards⟩
  · intro k key raw hraw
    rcases hnode k with hk | hk <;> rw [hk] at hraw
    · exact hstore key raw hraw
    · exact h.stored k key raw hraw
  · intro k id data hdata
    rcases hnode k with hk | hk <;> rw [hk] at hdata
    · exact hblocks id data hdata
    · exact h.blocks k id data hdata
  · intro k e data hdata
    rcases hnode k with hk | hk <;> rw [hk] at hdata
    · exact hspool e data hdata
    · exact h.queued k e data hdata

/-- Storing a record. -/
theorem Copies.putKey (h : Copies L K B w) {key raw : Bytes} (hraw : FiledAs L K key raw) :
    Copies L K B (w.set n ((w.node n).putKey key raw)) := by
  refine h.set ?_ (h.blocks n) (h.queued n)
  intro key' raw' hget
  unfold NodeState.putKey at hget
  by_cases hkey : key' = key
  · subst hkey
    rw [SortedMap.get_put_self] at hget
    exact Option.some.inj hget ▸ hraw
  · rw [SortedMap.get_put_ne _ hkey] at hget
    exact h.stored n key' raw' hget

/-- Storing a shard. -/
theorem Copies.putBlock (h : Copies L K B w) {id data : Bytes} (hdata : B data) :
    Copies L K B (w.set n ((w.node n).putBlock id data)) := by
  refine h.set (h.stored n) ?_ (h.queued n)
  intro id' data' hget
  by_cases hid : id' = id
  · obtain rfl : data = data' := by simpa [NodeState.putBlock, hid] using hget
    exact hdata
  · exact h.blocks n id' data' (by simpa [NodeState.putBlock, hid] using hget)

/-- Changing an entry of the spool. -/
theorem Copies.setSpool (h : Copies L K B w) {e : SpoolEntry} {c : Option Bytes}
    (hc : ∀ data, c = some data → if e.kind = .manifest then K data else B data) :
    Copies L K B (w.set n ((w.node n).setSpool e c)) := by
  refine h.set (h.stored n) (h.blocks n) ?_
  intro e' data hget
  by_cases he : e' = e
  · subst he
    exact hc data (by simpa [NodeState.setSpool] using hget)
  · exact h.queued n e' data (by simpa [NodeState.setSpool, he] using hget)

/-- Serving a request: the node stores what it was sent, without a look at what it has. -/
theorem Served.copies (hC : L.cbor.Lawful) (hK : Restorable L K) (h : Copies L K B w)
    (hmanifest : req.op = .putManifest → K req.body) (hshard : req.op = .putShard → B req.body)
    (hserved : Served L w n pid req resp w') : Copies L K B w' := by
  obtain ⟨s', rfl, ⟨rfl, -⟩ | ⟨hop, -, rfl⟩ | ⟨hop, m, hdec, rfl⟩⟩ := hserved.change
  · rw [Cluster.set_node]
    exact h
  · exact h.putBlock (hshard hop)
  · exact h.putKey (filedAs_marshal hC (hK _ m (hmanifest hop) hdec))

/-- A step of a program that hands over what is right. -/
theorem Copies.exec (hC : L.cbor.Lawful) (hK : Restorable L K) (h : Copies L K B w) {o : NodeOp} {r : o.Ans}
    (hfiles : StoresOnly L K o) (hrelays : Relays K B o) (hs : Cluster.exec L n w o r w') :
    Copies L K B w' := by
  have hlocal : ∀ s', (w.node n).step o r s' → w' = w.set n s' → Copies L K B w' := by
    rintro s' hstep rfl
    -- An operation at the node itself changes one record, one shard or one entry of the spool.
    rcases NodeState.step_cases hstep with rfl | ⟨key, value, he, rfl⟩ | ⟨id, data, he, -, rfl⟩ |
      ⟨⟨peer, kind, key⟩, data, he, rfl⟩ | ⟨e, -, rfl⟩
    · rw [Cluster.set_node]
      exact h
    · obtain ⟨rfl, -⟩ := Event.mk.inj he
      exact h.putKey (hfiles key value rfl)
    · obtain ⟨rfl, -⟩ := Event.mk.inj he
      exact h.putBlock hrelays
    · obtain ⟨rfl, -⟩ := Event.mk.inj he
      refine h.setSpool ?_
      rintro data' hdata
      obtain rfl := Option.some.inj hdata
      cases kind with
      | shard => exact hrelays
      | manifest => exact hrelays
    · exact h.setSpool (by simp)
  cases o with
  | request pid req =>
    obtain ⟨op, id, body⟩ := req
    have hmanifest : op = .putManifest → K body := by
      rintro rfl
      exact hrelays
    have hshard : op = .putShard → B body := by
      rintro rfl
      exact hrelays
    -- A request fails, is served, or stays under way.
    rcases hs with ⟨-, rfl⟩ | ⟨resp, hserved, -⟩ | ⟨-, rfl⟩
    · exact h
    · exact hserved.copies hC hK h hmanifest hshard
    · refine ⟨h.stored, h.blocks, h.queued, ?_, ?_⟩
      · intro x hx hop
        rcases List.mem_cons.mp hx with rfl | hx
        · exact hmanifest hop
        · exact h.manifests x hx hop
      · intro x hx hop
        rcases List.mem_cons.mp hx with rfl | hx
        · exact hshard hop
        · exact h.shards x hx hop
  | _ =>
    obtain ⟨s', hstep, hw⟩ := hs
    exact hlocal s' hstep hw

/-- What a node returns on request, be it a manifest or a shard, it has. -/
def AnswersWith (L : Libs) (req : Request) (s : NodeState) (resp : Response) : Prop :=
  match req.op with
  | .getManifest => ∃ m, s.manifest L req.id = some m ∧ resp.body = L.cbor.manifest.marshal m
  | .getShard => isShardID req.id = true → s.blocks req.id = some resp.body
  | _ => True

/-- The answers of a node. -/
theorem Served.answers (h : Served L w n pid req resp w') (hok : resp.ok = true) :
    AnswersWith L req (w.node pid) resp := by
  obtain ⟨evs, s', hsteps, -⟩ := h
  have hwp : wp nodeEnv (serveBlock L true req)
      (onOk fun resp _ => resp.ok = true → AnswersWith L req (w.node pid) resp) (w.node pid) := by
    refine wp_serveBlock_of (fun _ _ _ _ => trivial) (fun _ hok => absurd hok (by simp [refuse])) ?_
    intro o r resp s' hby hs hok
    unfold AnswersWith
    cases hby with
    | shardPut hop | shardRefused hop | manifestPut hop | manifestRefused hop =>
      rw [hop]
      trivial
    | shardGot hop raw =>
      rw [hop]
      exact fun hid => NodeState.blocks_of_step hid hs
    | @manifestGot hop raw m hdec =>
      rw [hop]
      exact ⟨m, NodeState.manifest_eq_some.mpr ⟨raw, NodeState.get_of_step hs, hdec⟩, rfl⟩
    | shardMissing | manifestMissing => exact absurd hok (by simp [refuse])
  exact wp_steps hsteps (wp_handleBlocks hwp n) hok

/-- A request that succeeds was served by the node that was asked. -/
theorem answers_of_exec (h : Cluster.exec L n w (.request pid req) (.ok resp) w') (hok : resp.ok = true) :
    AnswersWith L req (w.node pid) resp := by
  rcases h with ⟨hack, -⟩ | ⟨resp', hserved, hr | ⟨e, hr⟩⟩ | ⟨⟨e, hr⟩, -⟩
  · exact absurd (hack.symm.trans hok) (by simp)
  · obtain rfl := Except.ok.inj hr
    exact hserved.answers hok
  · exact absurd hr (by simp)
  · exact absurd hr (by simp)

/-- A request arrives that nobody waits for. -/
theorem Copies.arrive (hC : L.cbor.Lawful) (hK : Restorable L K) (h : Copies L K B w) {v : Cluster}
    {x : Bytes × Bytes × Request} (hx : x ∈ w.flight) (hserved : Served L w x.1 x.2.1 x.2.2 resp v) :
    Copies L K B { v with flight := v.flight.erase x } := by
  have hv := hserved.copies hC hK h (h.manifests x hx) (h.shards x hx)
  exact ⟨hv.stored, hv.blocks, hv.queued, fun y hy => hv.manifests y (List.mem_of_mem_erase hy),
    fun y hy => hv.shards y (List.mem_of_mem_erase hy)⟩

/-- What happens by itself. -/
theorem Copies.drift (hC : L.cbor.Lawful) (hK : Restorable L K) (h : Copies L K B w)
    (hd : Cluster.drift L w w') : Copies L K B w' := by
  rcases hd with ⟨x, hx, resp, v, hserved, rfl⟩ | ⟨k, key, raw, hkey, rfl⟩
  · exact h.arrive hC hK hx hserved
  · exact h.putKey (filedAs_other hkey raw)

end Steps

/-! ## Programs -/

/-- An operation that stores no record and hands over nothing but what is right. -/
def Passes (K B : Bytes → Prop) (o : NodeOp) : Prop := (∀ key raw, o ≠ .storePut key raw) ∧ Relays K B o

/-- The environment of a program at the node `n`, among others that keep every copy right. -/
structure Relaying (L : Libs) (K B : Bytes → Prop) (E : Env NodeSig Cluster) (n : Bytes) : Prop where
  guard : ∀ w o, Passes K B o → E.guard w o
  step : ∀ w o r w', E.step w o r w' → ∃ v, Copies L K B v ∧ Cluster.exec L n v o r w'

/-- A program may store a manifest, which is right if it does. -/
structure Storable (L : Libs) (K : Bytes → Prop) (E : Env NodeSig Cluster) (m : Manifest) : Prop where
  guard : ∀ w, E.guard w (.storePut (manifestKey m.fileID) (L.cbor.manifest.marshal m))
  right : ∀ w r w', E.step w (.storePut (manifestKey m.fileID) (L.cbor.manifest.marshal m)) r w' →
    K (L.cbor.manifest.marshal m)

/-- A manifest that was stored is right. -/
theorem Storable.wp_putManifest {L : Libs} {K : Bytes → Prop} {E : Env NodeSig Cluster} {m : Manifest}
    (h : Storable L K E m) (w : Cluster) :
    wp E (mapErr (GoErr.wrap (lit "save manifest: ")) (putManifest L m))
      (fun _ _ => K (L.cbor.manifest.marshal m)) w := by
  rw [wp_mapErr]
  refine ⟨h.guard w, ?_⟩
  intro r w' hs
  simp only [bind_eq, ret_bind, wp_ofExcept]
  exact h.right w r w' hs

/-- A manifest that a repair can go by: what is under the ids of its shards is right, and so is the manifest
with another member of the group as a holder. -/
structure Migratable (L : Libs) (K B : Bytes → Prop) (E : Env NodeSig Cluster) (m : Manifest) : Prop where
  ids : (∀ data, B data) ∨ ∀ st ∈ m.stripes, ∀ id ∈ st.shardIDs, isShardID id = true
  storable : ∀ w pairs w', E.step w (.storeIterate (memberPrefix m.groupID)) (pairs, none) w' →
    ∀ mem ∈ decodeValues L.cbor.member pairs, ∀ slot, Storable L K E (m.replaceHolder slot mem.peerID)

/-- What is reconstructed from right shards is right. -/
def Rebuildable (L : Libs) (B : Bytes → Prop) : Prop :=
  ∀ k m got full, (∀ data, some data ∈ got → B data) → L.rs.reconstruct k m got = .ok full →
    ∀ data, some data ∈ full → B data

namespace Relaying

variable {L : Libs} {K B : Bytes → Prop} {E : Env NodeSig Cluster} {n : Bytes} {α : Type} {m : Manifest}

/-- A program of which every operation is admissible. -/
theorem wp_only {p : NodeM α} (hp : p.Only fun o => ∀ w, E.guard w o) (w : Cluster) :
    wp E p (fun _ _ => True) w :=
  hp.wp_keeps (I := fun _ => True) (fun w _ _ ho => ho w) (fun _ _ _ _ _ _ _ => trivial) trivial

section

variable (hE : Relaying L K B E n)
include hE

/-- A program that only passes on what is right. -/
theorem only {p : NodeM α} (hp : p.Only (Passes K B)) (w : Cluster) : wp E p (fun _ _ => True) w :=
  wp_only (hp.mono fun o ho w => hE.guard w o ho) w

/-! ### The spool's worker -/

/-- The entries of one kind: what is sent was in the spool. -/
theorem flushKind (pid : Bytes) (kind : Kind) (entries : List SpoolEntry) (w : Cluster) :
    wp E (flushKind pid kind entries) (fun _ _ => True) w := by
  induction entries generalizing w with
  | nil => trivial
  | cons e rest ih =>
    unfold FnShare.flushKind
    split_ifs
    · exact ih w
    refine ⟨hE.guard w _ ⟨by simp, trivial⟩, ?_⟩
    intro r w₁ hs
    obtain ⟨v, hv, s', ⟨-, hread⟩, -⟩ := hE.step _ _ _ _ hs
    simp only [bind_eq, ret_bind]
    cases r with
    | error err => exact ih w₁
    | ok data =>
      have hright : if e.kind = .manifest then K data else B data := by
        rcases hread with ⟨b, hb, hr⟩ | ⟨err, hr⟩
        · obtain rfl := Except.ok.inj hr
          exact hv.queued n e data hb
        · exact absurd hr (by simp)
      have hsend : (sendEntry pid e data).Only (Passes K B) := by
        unfold sendEntry
        cases hkind : e.kind with
        | shard =>
          rw [hkind] at hright
          exact only_putShardOnPeer ⟨by simp, hright⟩ fun _ _ _ => ⟨by simp, trivial⟩
        | manifest =>
          rw [hkind] at hright
          exact only_bind (only_request ⟨by simp, hright⟩) fun _ => trivial
      simp only [wp_bind, wp_attempt]
      refine wp_mono (hE.only hsend w₁) ?_
      rintro (err | ⟨⟩) w₂ -
      · trivial
      · refine ⟨hE.guard w₂ _ ⟨by simp, trivial⟩, ?_⟩
        intro _ w₃ _
        exact ih w₃

/-- The entries of one peer. -/
theorem flushPeer (peerID : Bytes) (w : Cluster) : wp E (flushPeer L peerID) (fun _ _ => True) w := by
  unfold FnShare.flushPeer
  cases L.peerDecode peerID with
  | error e => trivial
  | ok pid =>
    refine ⟨hE.guard w _ ⟨by simp, trivial⟩, ?_⟩
    rintro (e | entries) w₁ -
    · trivial
    simp only [bind_eq, ret_bind]
    refine wp_bind_of (hE.flushKind pid .shard entries w₁) ?_ fun _ _ _ => trivial
    rintro (_ | _) w₂ -
    · trivial
    · exact wp_bind_of (hE.flushKind pid .manifest entries w₂) (fun _ _ _ => trivial) fun _ _ _ => trivial

/-- A round of the spool's worker. -/
theorem flushAll (w : Cluster) : wp E (flushAll L) (fun _ _ => True) w := by
  have hpeers : ∀ peers w, wp E (flushPeers L peers) (fun _ _ => True) w := by
    intro peers
    induction peers with
    | nil => exact fun _ => trivial
    | cons p rest ih =>
      intro w
      unfold flushPeers
      refine ⟨hE.guard w _ ⟨by simp, trivial⟩, ?_⟩
      rintro (_ | _) w₁ -
      · exact ih w₁
      · simp only [bind_eq, ret_bind]
        exact wp_bind_of (hE.flushPeer p w₁) (fun _ w₂ _ => ih w₂) fun _ _ _ => trivial
  unfold FnShare.flushAll
  refine ⟨hE.guard w _ ⟨by simp, trivial⟩, ?_⟩
  rintro (e | peers) w₁ -
  · trivial
  · exact hpeers peers w₁

/-! ### The end of an upload -/

/-- Once the manifest is stored, it is sent as it is. -/
theorem publish (svc : Service) {filename : Bytes} (hm : Storable L K E m)
    (hname : m.mode = modePrivate → filename ≠ [] →
      ∀ w, E.guard w (.storePut (pnameKey m.fileID) (L.cbor.text.marshal filename))) (w : Cluster) :
    wp E (publish L svc m filename) (fun _ _ => True) w := by
  unfold FnShare.publish
  refine wp_bind_of (hm.wp_putManifest w) ?_ fun _ _ _ => trivial
  rintro ⟨⟩ w₁ hraw
  refine wp_only (only_announce svc ?_ hname ?_ ?_) w₁
  · exact fun w => hE.guard w _ ⟨by simp, trivial⟩
  · exact fun pid w => hE.guard w _ ⟨by simp, hraw⟩
  · exact fun h w => hE.guard w _ ⟨by simp, hraw⟩

/-! ### Repair -/

/-- The shard of one slot is on the disk, or the holder sends it. -/
theorem fetchSurvivor_of (i : ℕ) {id : Bytes} {Q : Option Bytes → Prop} (hnone : Q none)
    (hget : ∀ w data w', E.step w (.blockGet id) (.ok data) w' → Q (some data))
    (hask : ∀ w pid resp w', E.step w (.request pid ⟨.getShard, id, []⟩) (.ok resp) w' → resp.ok = true →
      Q (some resp.body)) (w : Cluster) :
    wp E (fetchSurvivor L n m i id) (onOk fun r _ => Q r) w := by
  unfold FnShare.fetchSurvivor
  refine ⟨hE.guard w _ ⟨by simp, trivial⟩, ?_⟩
  intro r w₁ hs
  simp only [bind_eq, ret_bind]
  cases r with
  | ok data => exact hget w data w₁ hs
  | error e =>
    refine wp_bind_onOk (P := fun _ _ => True) ?_ ?_
    · cases m.holders[i]? with
      | some h => trivial
      | none => exact ⟨hE.guard w₁ _ ⟨by simp, trivial⟩, fun r => Empty.elim r⟩
    intro holder w₂ _
    split_ifs
    · exact hnone
    refine ⟨hE.guard w₂ _ ⟨by simp, trivial⟩, ?_⟩
    rintro (_ | _) w₃ -
    · exact hnone
    simp only [bind_eq, ret_bind, Bool.not_true, Bool.false_eq_true, if_false]
    cases L.peerDecode holder with
    | error e => exact hnone
    | ok pid =>
      simp only [wp_bind, wp_attempt]
      refine wp_getShardFromPeer_of (hE.guard w₃ _ ⟨by simp, trivial⟩) ?_ fun _ _ _ _ _ => hnone
      intro resp w₄ hs hok
      refine ⟨hE.guard w₄ _ ⟨by simp, trivial⟩, ?_⟩
      rintro u w₅ -
      exact hask w₃ pid resp w₄ hs hok

/-- What is fetched under a proper id is right. -/
theorem fetchSurvivor (i : ℕ) {id : Bytes} (hid : (∀ data, B data) ∨ isShardID id = true) (w : Cluster) :
    wp E (fetchSurvivor L n m i id) (onOk fun r _ => ∀ data, r = some data → B data) w := by
  refine hE.fetchSurvivor_of i (by simp) ?_ ?_ w
  · rintro w data w' hs data' hdata
    obtain rfl := Option.some.inj hdata
    obtain ⟨v, hv, s', hread, -⟩ := hE.step _ _ _ _ hs
    rcases hid with hall | hid
    · exact hall data
    · exact hv.blocks n id data (NodeState.blocks_of_step hid hread)
  · -- What the holder sends it has on its disk.
    rintro w pid resp w' hs hok data hdata
    obtain rfl := Option.some.inj hdata
    obtain ⟨v, hv, hexec⟩ := hE.step _ _ _ _ hs
    rcases hid with hall | hid
    · exact hall _
    · exact hv.blocks pid id _ (answers_of_exec hexec hok hid)

/-- The shards that are gathered. -/
theorem gatherSurvivors (slot : ℕ) {ids : List Bytes}
    (hids : (∀ data, B data) ∨ ∀ id ∈ ids, isShardID id = true) (i : ℕ) (gathered : ℤ) (w : Cluster) :
    wp E (gatherSurvivors L n m slot i ids gathered)
      (onOk fun r _ => ∀ data, some data ∈ r.1 → B data) w := by
  induction ids generalizing i gathered w with
  | nil => exact fun data h => absurd h (by simp)
  | cons id rest ih =>
    have hrest : (∀ data, B data) ∨ ∀ id ∈ rest, isShardID id = true :=
      hids.imp_right fun h id hid => h id (List.mem_cons_of_mem _ hid)
    unfold FnShare.gatherSurvivors
    split_ifs
    · refine wp_bind_onOk (ih hrest (i + 1) gathered w) ?_
      rintro ⟨shards, k⟩ w₁ h data hdata
      exact h data (by simpa using hdata)
    · refine wp_bind_onOk (hE.fetchSurvivor i (hids.imp_right fun h => h id List.mem_cons_self) w) ?_
      intro shard w₁ hshard
      refine wp_bind_onOk (ih hrest (i + 1) _ w₁) ?_
      rintro ⟨shards, k⟩ w₂ h data hdata
      rcases List.mem_cons.mp hdata with hdata | hdata
      · exact hshard data hdata.symm
      · exact h data hdata
    · intro data hdata
      exact absurd hdata (by simp)

/-- The shard of one stripe is reconstructed from right ones, and then placed. -/
theorem migrateStripeShard_of {Q : Except GoErr Unit → Cluster → Prop} (herr : ∀ e w, Q (.error e) w)
    (hB : Rebuildable L B) {slot : ℕ} {spare : Bytes} {st : Stripe}
    (hids : (∀ data, B data) ∨ ∀ id ∈ st.shardIDs, isShardID id = true)
    (hplace : ∀ id ∈ st.shardIDs, ∀ data w, B data → wp E (placeShard L n spare id data) Q w) (w : Cluster) :
    wp E (migrateStripeShard L n m st slot spare) Q w := by
  have hpanic : ∀ {α : Type} (x : Option α) w, wp E (orPanic x) (onOk fun a _ => x = some a) w := by
    intro α x w
    cases x with
    | some a => exact rfl
    | none => exact ⟨hE.guard w _ ⟨by simp, trivial⟩, fun r => Empty.elim r⟩
  unfold FnShare.migrateStripeShard
  extract_lets total
  split_ifs
  · exact herr _ _
  refine wp_bind_of (hE.gatherSurvivors slot hids 0 0 w) ?_ fun _ _ _ => herr _ _
  rintro ⟨got, gathered⟩ w₁ hgot
  simp only
  split_ifs
  · exact herr _ _
  refine wp_bind_of (hpanic _ w₁) ?_ fun _ _ _ => herr _ _
  rintro (e | ⟨full, text⟩) w₂ hdecode
  · exact herr _ _
  refine wp_bind_of (hpanic _ w₂) ?_ fun _ _ _ => herr _ _
  rintro (_ | data) w₃ hdata
  · exact herr _ _
  have hright : B data :=
    hB _ _ got full hgot (Params.decode_eq_ok_iff.mp hdecode).2.2.1 data (List.mem_of_getElem? hdata)
  refine wp_bind_of (hpanic _ w₃) ?_ fun _ _ _ => herr _ _
  intro id w₄ hid
  split_ifs
  · exact herr _ _
  · exact hplace id (List.mem_of_getElem? hid) data w₄ hright

/-- What is placed is right. -/
theorem migrateStripeShard (hB : Rebuildable L B) (slot : ℕ) (spare : Bytes) {st : Stripe}
    (hids : (∀ data, B data) ∨ ∀ id ∈ st.shardIDs, isShardID id = true) (w : Cluster) :
    wp E (migrateStripeShard L n m st slot spare) (fun _ _ => True) w := by
  refine hE.migrateStripeShard_of (fun _ _ => trivial) hB hids ?_ w
  intro id _ data w hright
  refine hE.only ?_ w
  unfold placeShard
  split_ifs
  · exact ⟨⟨by simp, hright⟩, fun _ => only_ofExcept _⟩
  · cases L.peerDecode spare with
    | error e => trivial
    | ok pid => exact only_putShardOnPeer ⟨by simp, hright⟩ fun _ _ _ => ⟨by simp, trivial⟩

/-- The shards of all stripes are. -/
theorem migrateStripes (hB : Rebuildable L B) (slot : ℕ) (spare : Bytes) {sts : List Stripe}
    (hids : (∀ data, B data) ∨ ∀ st ∈ sts, ∀ id ∈ st.shardIDs, isShardID id = true) (w : Cluster) :
    wp E (migrateStripes L n m slot spare sts) (fun _ _ => True) w := by
  induction sts generalizing w with
  | nil => trivial
  | cons st rest ih =>
    unfold FnShare.migrateStripes
    simp only [wp_bind, wp_attempt]
    refine wp_mono (hE.migrateStripeShard hB slot spare (hids.imp_right fun h => h st List.mem_cons_self) w)
      ?_
    rintro (e | ⟨⟩) w₁ -
    · exact wp_bind_of (hE.only (only_slice12 ⟨by simp, trivial⟩ _) w₁) (fun _ _ _ => trivial)
        fun _ _ _ => trivial
    · exact ih (hids.imp_right fun h st hst => h st (List.mem_cons_of_mem _ hst)) w₁

/-- The spare is one of the members that are looked at. -/
theorem findSpare (holders : List Bytes) (members : List Member) (w : Cluster) :
    wp E (findSpare n holders members)
      (onOk fun spare _ => spare = [] ∨ ∃ mem ∈ members, mem.peerID = spare) w := by
  induction members generalizing w with
  | nil => exact .inl rfl
  | cons mem rest ih =>
    have hrest : ∀ w, wp E (FnShare.findSpare n holders rest)
        (onOk fun spare _ => spare = [] ∨ ∃ mem' ∈ mem :: rest, mem'.peerID = spare) w := by
      intro w
      refine wp_mono (ih w) ?_
      rintro (e | spare) w' h
      · trivial
      · exact h.imp_right fun ⟨mem', hmem, heq⟩ => ⟨mem', List.mem_cons_of_mem _ hmem, heq⟩
    unfold FnShare.findSpare
    split_ifs
    · exact hrest w
    · exact .inr ⟨mem, List.mem_cons_self, rfl⟩
    · refine ⟨hE.guard w _ ⟨by simp, trivial⟩, ?_⟩
      rintro (_ | _) w₁ -
      · exact hrest w₁
      · exact .inr ⟨mem, List.mem_cons_self, rfl⟩

/-- A repair of one file, if the slot may be migrated to whichever spare is found. -/
theorem repairFile_of {slot : ℕ}
    (hslot : ∀ w pairs w', E.step w (.storeIterate (memberPrefix m.groupID)) (pairs, none) w' →
      ∀ w₁, wp E (FnShare.findSpare n m.holders (decodeValues L.cbor.member pairs))
        (onOk fun spare _ => spare = [] ∨ ∀ w, wp E (migrateSlot L n m slot spare) (fun _ _ => True) w) w₁)
    (w : Cluster) : wp E (repairFile L n m slot) (fun _ _ => True) w := by
  have hpanic : Passes K B .panic := ⟨by simp, trivial⟩
  have hlive : (countLive n m.holders 0).Only (Passes K B) := by
    refine (only_countLive _ _).mono ?_
    rintro o ⟨h, rfl⟩
    exact ⟨by simp, trivial⟩
  unfold FnShare.repairFile
  refine wp_bind_of (hE.only hlive w) ?_ fun _ _ _ => trivial
  intro live w₁ _
  split_ifs
  · exact hE.only (only_slice12 hpanic _) w₁
  unfold listMembers
  refine ⟨hE.guard w₁ _ ⟨by simp, trivial⟩, ?_⟩
  rintro ⟨pairs, err⟩ w₂ hs
  cases err with
  | some e => trivial
  | none =>
    simp only [bind_eq, ret_bind, pure_eq]
    refine wp_bind_of (hslot w₁ pairs w₂ hs w₂) ?_ fun _ _ _ => trivial
    intro spare w₃ hfound
    split_ifs with hempty
    · exact hE.only (only_bind (only_slice12 hpanic _) fun _ => only_slice12 hpanic _) w₃
    · exact hfound.resolve_left hempty w₃

/-- A repair of one file. -/
theorem repairFile (hB : Rebuildable L B) (hm : Migratable L K B E m) (slot : ℕ) (w : Cluster) :
    wp E (repairFile L n m slot) (fun _ _ => True) w := by
  refine hE.repairFile_of (fun w₁ pairs w₂ hs w₃ => wp_mono (hE.findSpare m.holders _ w₃) ?_) w
  rintro (e | spare) w₄ hfound
  · trivial
  refine hfound.imp_right ?_
  rintro ⟨mem, hmem, rfl⟩ w₅
  have hnew : Storable L K E (m.replaceHolder slot mem.peerID) := hm.storable _ _ _ hs mem hmem slot
  unfold migrateSlot
  refine wp_bind_of (hE.migrateStripes hB slot mem.peerID hm.ids w₅) ?_ fun _ _ _ => trivial
  rintro ⟨⟩ w₆ -
  refine wp_bind_of (hnew.wp_putManifest w₆) ?_ fun _ _ _ => trivial
  rintro ⟨⟩ w₇ hraw
  refine hE.only (only_bind (only_foldlM ?_ ()) fun _ => only_slice12 ⟨by simp, trivial⟩ _) w₇
  rintro - h -
  refine (only_propagate _ h).mono ?_
  rintro o ⟨pid, rfl⟩
  exact ⟨by simp, hraw⟩

/-- A scan repairs what its node has stored. -/
theorem scanForOfflinePeer
    (hm : ∀ raw m, K raw → L.cbor.manifest.unmarshal raw = .ok m → ∀ slot w,
      wp E (FnShare.repairFile L n m slot) (fun _ _ => True) w)
    (offlinePeer : Bytes) (w : Cluster) : wp E (scanForOfflinePeer L n offlinePeer) (fun _ _ => True) w := by
  have hfiles : ∀ ms, (∀ m ∈ ms, ∀ slot w, wp E (FnShare.repairFile L n m slot) (fun _ _ => True) w) →
      ∀ w, wp E (repairFiles L n offlinePeer ms) (fun _ _ => True) w := by
    intro ms
    induction ms with
    | nil => exact fun _ _ => trivial
    | cons m rest ih =>
      intro hms w
      have hrest := ih fun m' h => hms m' (List.mem_cons_of_mem _ h)
      unfold repairFiles
      cases m.holders.findIdx? (· = offlinePeer) with
      | none => exact hrest w
      | some slot =>
        simp only [wp_bind, wp_attempt]
        refine wp_mono (hms m List.mem_cons_self slot w) ?_
        rintro (e | ⟨⟩) w₁ -
        · exact wp_bind_of (hE.only (only_slice12 ⟨by simp, trivial⟩ _) w₁) (fun _ w₂ _ => hrest w₂)
            fun _ _ _ => trivial
        · exact hrest w₁
  unfold FnShare.scanForOfflinePeer listManifests
  refine ⟨hE.guard w _ ⟨by simp, trivial⟩, ?_⟩
  rintro ⟨pairs, err⟩ w₁ hs
  cases err with
  | some e => trivial
  | none =>
    obtain ⟨v, hv, s', hread, -⟩ := hE.step _ _ _ _ hs
    refine hfiles _ ?_ w₁
    intro m hmem
    obtain ⟨⟨key, raw⟩, hpair, hdec⟩ := mem_decodeValues.mp hmem
    rw [NodeState.scan_of_step hread, NodeState.mem_scan] at hpair
    exact hm raw m (hv.stored n key raw hpair.1 hpair.2).1 hdec

end

end Relaying

end FnShare
