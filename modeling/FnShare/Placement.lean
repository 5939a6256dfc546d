import FnShare.Cluster
import FnShare.File.Success

/-!
# Where shards are

`Placed` is what a manifest promises: the shard of every slot is in the block store of the slot's holder,
or the uploader's spool still has it for that holder. Uploads, the spool's worker and repairs all move
shards and write manifests, and several versions of a manifest are about at the same time, stored, queued
and under way. `manifests_placed` says that every one of them is placed, whatever the order of their steps.

The argument is one of reliance and guarantee. Shards are never deleted from a block store, and an entry
leaves a spool only when its peer has acknowledged the shard; so what is held stays held (`Later`). Each
program needs to see to it that what it stores, sends or queues is placed at that moment, and that what it
removes is stored (`Admissible`). What it has done before tells it so.
-/

namespace FnShare

open Prog

section Definitions

variable (L : Libs)

/-- The block store of a node has bytes that hash to an id. -/
def Stored (w : Cluster) (pid id : Bytes) : Prop :=
  ∃ data, (w.node pid).blocks id = some data ∧ hashOf data = id

/-- The shard of a slot is at its holder or in the uploader's spool. -/
def Held (w : Cluster) (owner holder id : Bytes) : Prop :=
  (∃ pid, L.peerDecode holder = .ok pid ∧ Stored w pid id) ∨
  ∃ data, (w.node owner).spool ⟨holder, .shard, id⟩ = some data ∧ hashOf data = id

/-- The shard of every slot of every stripe is at its holder or in the uploader's spool. -/
structure Placed (w : Cluster) (m : Manifest) : Prop where
  /-- There are as many slots as the parameters say. -/
  length_holders : (m.holders.length : ℤ) = m.dataShards + m.parityShards
  held : ∀ st ∈ m.stripes, List.Forall₂ (fun holder id => Held L w m.ownerPeerID holder id) m.holders
    st.shardIDs

/-- Encoded bytes are those of a manifest that is placed, if of any. -/
def PlacedRaw (w : Cluster) (raw : Bytes) : Prop :=
  ∀ m, L.cbor.manifest.unmarshal raw = .ok m → Placed L w m

/-- The invariant: every manifest that is stored, queued or under way is placed, and shards are under their
hash. -/
structure Inv (w : Cluster) : Prop where
  stored : ∀ n key raw, manifestPrefix <+: key → (w.node n).store.get key = some raw → PlacedRaw L w raw
  queued : ∀ n e raw, (w.node n).spool e = some raw → e.kind = .manifest → PlacedRaw L w raw
  flight : ∀ x ∈ w.flight, x.2.2.op = .putManifest → PlacedRaw L w x.2.2.body
  shards : ∀ n e data, (w.node n).spool e = some data → e.kind = .shard → hashOf data = e.key
  blocks : ∀ n id data, (w.node n).blocks id = some data → hashOf data = id

/-- What is held in `w` is held in `w'`. -/
structure Later (w w' : Cluster) : Prop where
  stored : ∀ pid id, Stored w pid id → Stored w' pid id
  held : ∀ owner holder id, Held L w owner holder id → Held L w' owner holder id

/-- What a program may do: store, queue and send manifests that are placed, queue shards under their hash,
and remove shards from the spool that are stored. -/
def Admissible (w : Cluster) : NodeOp → Prop
  | .storePut key raw => manifestPrefix <+: key → PlacedRaw L w raw
  | .spoolWrite _ .shard key data => hashOf data = key
  | .spoolWrite _ .manifest _ data => PlacedRaw L w data
  | .spoolRemove e => e.kind = .shard → ∃ pid, L.peerDecode e.peerID = .ok pid ∧ Stored w pid e.key
  | .request _ req => req.op = .putManifest → PlacedRaw L w req.body
  | _ => True

end Definitions

section Steps

variable {L : Libs} {w v w' : Cluster} {n : Bytes}

/-! ## What lasts -/

/-- Nothing has changed. -/
theorem Later.refl (w : Cluster) : Later L w w := ⟨fun _ _ h => h, fun _ _ _ h => h⟩

/-- One change after another. -/
theorem Later.trans (h : Later L w v) (h' : Later L v w') : Later L w w' :=
  ⟨fun pid id hs => h'.stored pid id (h.stored pid id hs),
    fun owner holder id hs => h'.held owner holder id (h.held owner holder id hs)⟩

/-- What is placed stays placed. -/
theorem Placed.later {m : Manifest} (h : Placed L w m) (hl : Later L w w') : Placed L w' m :=
  ⟨h.length_holders, fun st hst => (h.held st hst).imp fun _ _ => hl.held _ _ _⟩

/-- So do encoded manifests. -/
theorem PlacedRaw.later {raw : Bytes} (h : PlacedRaw L w raw) (hl : Later L w w') :
    PlacedRaw L w' raw :=
  fun m hm => (h m hm).later hl

/-- What was allowed stays allowed. -/
theorem Admissible.later {o : NodeOp} (h : Admissible L w o) (hl : Later L w w') :
    Admissible L w' o := by
  cases o with
  | storePut key raw => exact fun hkey => (h hkey).later hl
  | spoolWrite peer kind key data =>
    cases kind with
    | shard => exact h
    | manifest => exact PlacedRaw.later h hl
  | spoolRemove e =>
    intro hkind
    obtain ⟨pid, hpid, hs⟩ := h hkind
    exact ⟨pid, hpid, hl.stored pid e.key hs⟩
  | request peer req => exact fun hop => (h hop).later hl
  | _ => trivial

/-- A manifest that is encoded is placed if it is. -/
theorem Placed.raw (hC : L.cbor.Lawful) {m : Manifest} (h : Placed L w m) :
    PlacedRaw L w (L.cbor.manifest.marshal m) := by
  intro m' hm'
  rw [hC.manifest.eq_norm hm']
  exact ⟨h.length_holders, h.held⟩

/-! ## Changes at one node -/

/-- A change at one node, under which what is held stays held. -/
theorem later_set {s' : NodeState}
    (hblocks : ∀ id data, (w.node n).blocks id = some data → hashOf data = id →
      ∃ data', s'.blocks id = some data' ∧ hashOf data' = id)
    (hspool : ∀ holder id data, (w.node n).spool ⟨holder, .shard, id⟩ = some data → hashOf data = id →
      (∃ data', s'.spool ⟨holder, .shard, id⟩ = some data' ∧ hashOf data' = id) ∨
        ∃ pid, L.peerDecode holder = .ok pid ∧ Stored w pid id) :
    Later L w (w.set n s') := by
  have hstored : ∀ pid id, Stored w pid id → Stored (w.set n s') pid id := by
    rintro pid id ⟨data, hdata, hhash⟩
    by_cases hpid : pid = n
    · subst hpid
      obtain ⟨data', hdata', hhash'⟩ := hblocks id data hdata hhash
      exact ⟨data', by rw [Cluster.node_set_self]; exact hdata', hhash'⟩
    · exact ⟨data, by rw [Cluster.node_set_ne _ _ hpid]; exact hdata, hhash⟩
  refine ⟨hstored, ?_⟩
  rintro owner holder id (⟨pid, hpid, hs⟩ | ⟨data, hdata, hhash⟩)
  · exact .inl ⟨pid, hpid, hstored pid id hs⟩
  · by_cases howner : owner = n
    · subst howner
      rcases hspool holder id data hdata hhash with ⟨data', hdata', hhash'⟩ | ⟨pid, hpid, hs⟩
      · exact .inr ⟨data', by rw [Cluster.node_set_self]; exact hdata', hhash'⟩
      · exact .inl ⟨pid, hpid, hstored pid id hs⟩
    · exact .inr ⟨data, by rw [Cluster.node_set_ne _ _ howner]; exact hdata, hhash⟩

/-- A change at one node keeps the invariant, if what it adds is as it should be. -/
theorem Inv.set (hI : Inv L w) {s' : NodeState} (hl : Later L w (w.set n s'))
    (hstore : ∀ key raw, manifestPrefix <+: key → s'.store.get key = some raw →
      (w.node n).store.get key = some raw ∨ PlacedRaw L w raw)
    (hspool : ∀ e data, s'.spool e = some data → (w.node n).spool e = some data ∨
      (e.kind = .manifest → PlacedRaw L w data) ∧ (e.kind = .shard → hashOf data = e.key))
    (hblocks : ∀ id data, s'.blocks id = some data →
      (w.node n).blocks id = some data ∨ hashOf data = id) : Inv L (w.set n s') := by
  -- What is placed stays placed, and only the node that changes has anything new.
  constructor
  case stored =>
    intro k key raw hkey hraw
    refine PlacedRaw.later ?_ hl
    by_cases hk : k = n
    · subst hk
      rw [Cluster.node_set_self] at hraw
      exact (hstore key raw hkey hraw).elim (hI.stored k key raw hkey) id
    · rw [Cluster.node_set_ne _ _ hk] at hraw
      exact hI.stored k key raw hkey hraw
  case queued =>
    intro k e raw hraw hkind
    refine PlacedRaw.later ?_ hl
    by_cases hk : k = n
    · subst hk
      rw [Cluster.node_set_self] at hraw
      exact (hspool e raw hraw).elim (fun h => hI.queued k e raw h hkind) fun h => h.1 hkind
    · rw [Cluster.node_set_ne _ _ hk] at hraw
      exact hI.queued k e raw hraw hkind
  case flight =>
    intro x hx hop
    exact (hI.flight x hx hop).later hl
  case shards =>
    intro k e data hdata hkind
    by_cases hk : k = n
    · subst hk
      rw [Cluster.node_set_self] at hdata
      exact (hspool e data hdata).elim (fun h => hI.shards k e data h hkind) fun h => h.2 hkind
    · rw [Cluster.node_set_ne _ _ hk] at hdata
      exact hI.shards k e data hdata hkind
  case blocks =>
    intro k id data hdata
    by_cases hk : k = n
    · subst hk
      rw [Cluster.node_set_self] at hdata
      exact (hblocks id data hdata).elim (hI.blocks k id data) fun h => h
    · rw [Cluster.node_set_ne _ _ hk] at hdata
      exact hI.blocks k id data hdata

/-- Storing a record. -/
theorem Inv.putKey (hI : Inv L w) {key raw : Bytes} (h : manifestPrefix <+: key → PlacedRaw L w raw) :
    Inv L (w.set n ((w.node n).putKey key raw)) ∧
      Later L w (w.set n ((w.node n).putKey key raw)) := by
  have hl : Later L w (w.set n ((w.node n).putKey key raw)) :=
    later_set (fun id data hd hh => ⟨data, hd, hh⟩) fun holder id data hd hh => .inl ⟨data, hd, hh⟩
  refine ⟨hI.set hl ?_ (fun e data hd => .inl hd) fun id data hd => .inl hd, hl⟩
  intro k r hk hr
  by_cases hkey : k = key
  · subst hkey
    have hr' : some raw = some r := (SortedMap.get_put_self _ _ _).symm.trans hr
    exact .inr (Option.some.inj hr' ▸ h hk)
  · exact .inl ((SortedMap.get_put_ne _ hkey _).symm.trans hr)

/-- Storing a shard. -/
theorem Inv.putBlock (hI : Inv L w) {id data : Bytes} (h : hashOf data = id) :
    Inv L (w.set n ((w.node n).putBlock id data)) ∧
      Later L w (w.set n ((w.node n).putBlock id data)) := by
  have hl : Later L w (w.set n ((w.node n).putBlock id data)) := by
    refine later_set ?_ fun holder id data hd hh => .inl ⟨data, hd, hh⟩
    intro id' data' hd hh
    by_cases hid : id' = id
    · exact ⟨data, by simp [NodeState.putBlock, hid], by rw [h, hid]⟩
    · exact ⟨data', by simpa [NodeState.putBlock, hid] using hd, hh⟩
  refine ⟨hI.set hl (fun _ _ _ hr => .inl hr) (fun e data hd => .inl hd) ?_, hl⟩
  intro id' data' hd
  by_cases hid : id' = id
  · obtain rfl : data = data' := by simpa [NodeState.putBlock, hid] using hd
    exact .inr (by rw [h, hid])
  · exact .inl (by simpa [NodeState.putBlock, hid] using hd)

/-- Queueing an entry. -/
theorem Inv.queue (hI : Inv L w) {e : SpoolEntry} {data : Bytes}
    (hm : e.kind = .manifest → PlacedRaw L w data) (hs : e.kind = .shard → hashOf data = e.key) :
    Inv L (w.set n ((w.node n).setSpool e (some data))) ∧
      Later L w (w.set n ((w.node n).setSpool e (some data))) := by
  have hl : Later L w (w.set n ((w.node n).setSpool e (some data))) := by
    refine later_set (fun id data hd hh => ⟨data, hd, hh⟩) ?_
    intro holder id data' hd hh
    by_cases he : (⟨holder, .shard, id⟩ : SpoolEntry) = e
    · -- The entry is queued again, with bytes of the same hash.
      subst he
      exact .inl ⟨data, by simp [NodeState.setSpool], hs rfl⟩
    · exact .inl ⟨data', by simpa [NodeState.setSpool, he] using hd, hh⟩
  refine ⟨hI.set hl (fun _ _ _ hr => .inl hr) ?_ fun id data hd => .inl hd, hl⟩
  intro e' data' hd
  by_cases he : e' = e
  · subst he
    obtain rfl : data = data' := by simpa [NodeState.setSpool] using hd
    exact .inr ⟨hm, hs⟩
  · exact .inl (by simpa [NodeState.setSpool, he] using hd)

/-- Removing an entry whose shard is stored. -/
theorem Inv.remove (hI : Inv L w) {e : SpoolEntry}
    (h : e.kind = .shard → ∃ pid, L.peerDecode e.peerID = .ok pid ∧ Stored w pid e.key) :
    Inv L (w.set n ((w.node n).setSpool e none)) ∧
      Later L w (w.set n ((w.node n).setSpool e none)) := by
  have hl : Later L w (w.set n ((w.node n).setSpool e none)) := by
    refine later_set (fun id data hd hh => ⟨data, hd, hh⟩) ?_
    intro holder id data hd hh
    by_cases he : (⟨holder, .shard, id⟩ : SpoolEntry) = e
    · subst he
      exact .inr (h rfl)
    · exact .inl ⟨data, by simpa [NodeState.setSpool, he] using hd, hh⟩
  refine ⟨hI.set hl (fun _ _ _ hr => .inl hr) ?_ fun id data hd => .inl hd, hl⟩
  intro e' data' hd
  by_cases he : e' = e
  · simp [NodeState.setSpool, he] at hd
  · exact .inl (by simpa [NodeState.setSpool, he] using hd)

/-- Requests that are under way, each with a manifest that is placed if with any. -/
theorem Inv.setFlight (hI : Inv L w) {flight : List (Bytes × Bytes × Request)}
    (h : ∀ x ∈ flight, x.2.2.op = .putManifest → PlacedRaw L w x.2.2.body) :
    Inv L { w with flight := flight } ∧ Later L w { w with flight := flight } := by
  have hl : Later L w { w with flight := flight } := ⟨fun _ _ h => h, fun _ _ _ h => h⟩
  refine ⟨?_, hl⟩
  constructor
  · exact fun n key raw hkey hraw => (hI.stored n key raw hkey hraw).later hl
  · exact fun n e raw hraw hkind => (hI.queued n e raw hraw hkind).later hl
  · exact fun x hx hop => (h x hx hop).later hl
  · exact hI.shards
  · exact hI.blocks

/-! ## Steps of the cluster -/

/-- Serving a request keeps the invariant, if a manifest that it carries is placed. -/
theorem Served.keeps (hC : L.cbor.Lawful) (hI : Inv L w) {pid : Bytes} {req : Request}
    {resp : Response} (hreq : req.op = .putManifest → PlacedRaw L w req.body)
    (h : Served L w n pid req resp w') : Inv L w' ∧ Later L w w' := by
  obtain ⟨s', rfl, ⟨rfl, -⟩ | ⟨-, hhash, rfl⟩ | ⟨hop, m, hdec, rfl⟩⟩ := h.change
  · rw [Cluster.set_node]
    exact ⟨hI, .refl w⟩
  · exact hI.putBlock hhash
  · exact hI.putKey fun _ => (hreq hop m hdec).raw hC

/-- An admissible operation keeps the invariant, and what is held stays held. -/
theorem exec_keeps (hC : L.cbor.Lawful) (hI : Inv L w) {o : NodeOp} {r : o.Ans}
    (hadm : Admissible L w o) (h : Cluster.exec L n w o r w') : Inv L w' ∧ Later L w w' := by
  have hlocal : ∀ s', (w.node n).step o r s' → w' = w.set n s' → Inv L w' ∧ Later L w w' := by
    rintro s' hs rfl
    rcases NodeState.step_cases hs with rfl | ⟨key, value, he, rfl⟩ | ⟨id, data, -, hhash, rfl⟩ |
      ⟨e, data, he, rfl⟩ | ⟨e, he, rfl⟩
    · rw [Cluster.set_node]
      exact ⟨hI, .refl w⟩
    · obtain ⟨rfl, -⟩ := Event.mk.inj he
      exact hI.putKey hadm
    · exact hI.putBlock hhash
    · obtain ⟨rfl, -⟩ := Event.mk.inj he
      obtain ⟨peer, kind, key⟩ := e
      cases kind with
      | shard => exact hI.queue (by simp) fun _ => hadm
      | manifest => exact hI.queue (fun _ => hadm) (by simp)
    · obtain ⟨rfl, -⟩ := Event.mk.inj he
      exact hI.remove hadm
  cases o with
  | request pid req =>
    rcases h with ⟨-, rfl⟩ | ⟨resp, hserved, -⟩ | ⟨-, rfl⟩
    · exact ⟨hI, .refl _⟩
    · exact hserved.keeps hC hI hadm
    · -- The request is under way, and nothing else has changed.
      refine hI.setFlight ?_
      intro x hx hop
      rcases List.mem_cons.mp hx with rfl | hx
      · exact hadm hop
      · exact hI.flight x hx hop
  | _ =>
    obtain ⟨s', hs, hw⟩ := h
    exact hlocal s' hs hw

/-- What happens by itself keeps the invariant. -/
theorem drift_keeps (hC : L.cbor.Lawful) (hI : Inv L w) (h : Cluster.drift L w w') :
    Inv L w' ∧ Later L w w' := by
  rcases h with ⟨x, hx, resp, v, hserved, rfl⟩ | ⟨k, key, raw, hkey, rfl⟩
  · obtain ⟨hI', hl⟩ := hserved.keeps hC hI (hI.flight x hx)
    obtain ⟨hI'', hl'⟩ := hI'.setFlight fun y hy => hI'.flight y (List.mem_of_mem_erase hy)
    exact ⟨hI'', hl.trans hl'⟩
  · exact hI.putKey fun h => absurd h hkey

end Steps

/-! ## Programs -/

section Programs

variable (L : Libs)

/-- What every program can rely on and has to guarantee. -/
def Keeps (w w' : Cluster) : Prop := Inv L w → Inv L w' ∧ Later L w w'

/-- The environment of a program at the node `n`, among all others. -/
def among (n : Bytes) : Env NodeSig Cluster := (cluster L).under (Keeps L) n

/-- A postcondition besides the invariant, and that what was held is held. -/
def Kept {ε α : Type} (w : Cluster) (Q : Except ε α → Cluster → Prop) (r : Except ε α) (w' : Cluster) :
    Prop :=
  Inv L w' ∧ Later L w w' ∧ Q r w'

variable {L} {w : Cluster} {n : Bytes} {α : Type}
variable {p : NodeM α} {Q : Except GoErr α → Cluster → Prop} {pid : Bytes} {req : Request}

/-- What is kept from a later state on is kept. -/
theorem wp_kept_later {v : Cluster} (hl : Later L w v) (h : wp (among L n) p (Kept L v Q) v) :
    wp (among L n) p (Kept L w Q) v := by
  refine wp_mono h ?_
  rintro r w' ⟨hI', hl', hQ⟩
  exact ⟨hI', hl.trans hl', hQ⟩

/-- The rule of one operation. -/
theorem wp_among_op (hC : L.cbor.Lawful) (hI : Inv L w) {o : NodeOp} {k : o.Ans → NodeM α}
    (hadm : Admissible L w o)
    (h : ∀ r v w', Inv L v → Later L w v → Cluster.exec L n v o r w' → Inv L w' → Later L w w' →
      wp (among L n) (k r) (Kept L w' Q) w') :
    wp (among L n) (.op o k) (Kept L w Q) w := by
  refine ⟨?_, ?_⟩
  · intro v hv r w' hs hIv
    exact exec_keeps hC hIv (hadm.later (hv hI).2) hs
  · rintro r w' ⟨v, hv, hs⟩
    obtain ⟨hIv, hl⟩ := hv hI
    obtain ⟨hI', hl'⟩ := exec_keeps hC hIv (hadm.later hl) hs
    exact wp_kept_later (hl.trans hl') (h r v w' hIv hl hs hI' (hl.trans hl'))

/-- The rule of an operation whose answer tells nothing. -/
theorem wp_among_any (hC : L.cbor.Lawful) (hI : Inv L w) {o : NodeOp} {k : o.Ans → NodeM α}
    (hadm : Admissible L w o) (h : ∀ r w', Inv L w' → Later L w w' → wp (among L n) (k r) (Kept L w' Q) w') :
    wp (among L n) (.op o k) (Kept L w Q) w :=
  wp_among_op hC hI hadm fun r _ w' _ _ _ => h r w'

/-- The rule of sequencing. -/
theorem wp_among_bind {β : Type} {f : α → NodeM β} {P : Except GoErr α → Cluster → Prop}
    {Q : Except GoErr β → Cluster → Prop} (h : wp (among L n) p (Kept L w P) w)
    (hok : ∀ a w', Inv L w' → Later L w w' → P (.ok a) w' → wp (among L n) (f a) (Kept L w' Q) w')
    (herr : ∀ e w', P (.error e) w' → Q (.error e) w') : wp (among L n) (p >>= f) (Kept L w Q) w := by
  refine wp_bind_of h ?_ ?_
  · rintro a w' ⟨hI', hl, hP⟩
    exact wp_kept_later hl (hok a w' hI' hl hP)
  · rintro e w' ⟨hI', hl, hP⟩
    exact ⟨hI', hl, herr e w' hP⟩

/-- The rule of sequencing after a handled error. -/
theorem wp_among_attempt {β : Type} {f : Except GoErr α → NodeM β} {P : Except GoErr α → Cluster → Prop}
    {Q : Except GoErr β → Cluster → Prop} (h : wp (among L n) p (Kept L w P) w)
    (hnext : ∀ r w', Inv L w' → Later L w w' → P r w' → wp (among L n) (f r) (Kept L w' Q) w') :
    wp (among L n) (attempt p >>= f) (Kept L w Q) w := by
  rw [wp_bind, wp_attempt]
  refine wp_mono h ?_
  rintro r w' ⟨hI', hl, hP⟩
  exact wp_kept_later hl (hnext r w' hI' hl hP)

/-- A program that has ended. -/
theorem wp_among_ret (hI : Inv L w) {a : α} (hQ : Q (.ok a) w) : wp (among L n) (ret a) (Kept L w Q) w :=
  ⟨hI, .refl w, hQ⟩

/-- A panic leaves everything as it is. -/
theorem wp_among_panic {k : Empty → NodeM α} :
    wp (among L n) (.op .panic k) Q w :=
  ⟨fun _ _ r => r.elim, fun r => r.elim⟩

/-- A shard that is acknowledged is stored. -/
theorem Served.stored {w' : Cluster} {resp : Response} (h : Served L w n pid req resp w')
    (hop : req.op = .putShard) (hok : resp.ok = true) : Stored w' pid req.id := by
  obtain ⟨s', rfl, ⟨-, hno⟩ | ⟨-, hhash, rfl⟩ | ⟨hop', -⟩⟩ := h.change
  · rw [hno hop] at hok
    exact absurd hok (by simp)
  · exact ⟨req.body, by simp [NodeState.putBlock], hhash⟩
  · rw [hop] at hop'
    exact absurd hop' (by simp)

/-- What the answer to a request tells of the peer. -/
theorem stored_of_exec {v w' : Cluster} {resp : Response}
    (h : Cluster.exec L n v (.request pid req) (.ok resp) w') (hop : req.op = .putShard)
    (hok : resp.ok = true) : Stored w' pid req.id := by
  rcases h with ⟨hno, -⟩ | ⟨resp', hserved, hr | ⟨e, he⟩⟩ | ⟨⟨e, he⟩, -⟩
  · simp [acknowledged, hok] at hno
  · obtain rfl := Except.ok.inj hr
    exact hserved.stored hop hok
  · exact absurd he (by simp)
  · exact absurd he (by simp)

/-- A request, with a manifest that is placed if with any. -/
theorem keeps_request (hC : L.cbor.Lawful) (hI : Inv L w)
    (hadm : req.op = .putManifest → PlacedRaw L w req.body) :
    wp (among L n) (request pid req)
      (Kept L w fun r w' => ∀ resp, r = .ok resp → req.op = .putShard → Stored w' pid req.id) w := by
  unfold request
  refine wp_among_op hC hI hadm ?_
  intro a v w' hIv hlv hs hI' hl
  simp only [bind_eq, ret_bind]
  cases a with
  | error e => exact ⟨hI', .refl w', fun _ h => absurd h (by simp)⟩
  | ok resp =>
    simp only [ofExcept_ok, ret_bind]
    by_cases hok : resp.ok = true
    · rw [if_pos hok]
      exact wp_among_ret hI' fun _ _ hop => stored_of_exec hs hop hok
    · rw [if_neg hok]
      exact ⟨hI', .refl w', fun _ h => absurd h (by simp)⟩

/-- A shard that was sent is stored. -/
theorem keeps_putShardOnPeer (hC : L.cbor.Lawful) (hI : Inv L w) (pid id data : Bytes) :
    wp (among L n) (putShardOnPeer pid id data)
      (Kept L w fun r w' => r = .ok () → Stored w' pid id) w := by
  unfold putShardOnPeer
  refine wp_among_bind (keeps_request hC hI (by simp)) ?_ fun _ _ _ h => absurd h (by simp)
  intro resp w' hI' hl hstored
  refine wp_among_any hC hI' trivial ?_
  intro u w'' hI'' hl'
  exact wp_among_ret hI'' fun _ => hl'.stored _ _ (hstored resp rfl rfl)

/-- A manifest that is placed can be sent. -/
theorem keeps_putManifestRawOnPeer (hC : L.cbor.Lawful) (hI : Inv L w) (pid fileID : Bytes)
    {raw : Bytes} (hraw : PlacedRaw L w raw) :
    wp (among L n) (putManifestRawOnPeer pid fileID raw) (Kept L w fun _ _ => True) w := by
  unfold putManifestRawOnPeer
  refine wp_among_bind (keeps_request hC hI fun _ => hraw) ?_ fun _ _ _ => trivial
  intro resp w' hI' hl _
  exact wp_among_ret hI' trivial

end Programs

end FnShare
