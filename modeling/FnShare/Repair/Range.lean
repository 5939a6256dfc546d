import FnShare.Repair.Commit

/-!
# The lengths that repair relies on

`repairFile` slices the ids of a manifest for its log, and indexes the holders and the shards of a stripe by
slots. The manifests come from other peers, and only the file id is known to be the one that was asked for.
`scanForOfflinePeer_completes_iff` says which manifests a scan gets to the end of, whatever the ledger, the
members, the block store and the other peers answer: the ids have twelve characters where they are sliced, and
the lengths of the lists fit (`RepairInRange`).

The condition is exact. What a scan cannot survive is met in some state of the node: the slots of a stripe are
all walked through if no shard is to be had, and every stripe is come to that the ones before it let pass.
-/

namespace FnShare

open Prog

/-! ## A node that others act on -/

/-- An operation of a node can be answered so, in some state of the node. The manifests are those of `s` when
they are listed. -/
def Answers (s : NodeState) (o : NodeOp) (r : o.Ans) : Prop :=
  ∃ t t' : NodeState, (o = .storeIterate manifestPrefix → t = s) ∧ t.step o r t'

/-- The environment of a program that runs beside others. Between two of its operations they can change the
state of the node in every way. -/
def othersEnv (s : NodeState) : Env NodeSig Unit where
  step _ o r _ := Answers s o r
  guard _ o := ∃ r, Answers s o r

/-- The admissible operations are those with an answer. -/
theorem othersEnv_guard (s : NodeState) (w : Unit) (o : NodeOp) :
    (othersEnv s).guard w o ↔ ∃ r w', (othersEnv s).step w o r w' :=
  ⟨fun ⟨r, h⟩ => ⟨r, (), h⟩, fun ⟨r, _, h⟩ => ⟨r, h⟩⟩

section Answers

variable {s : NodeState}

/-- The rule for an operation among others. -/
theorem wp_others {α : Type} {o : NodeOp} {k : o.Ans → NodeM α} {Q : Except GoErr α → Unit → Prop} :
    wp (othersEnv s) (op o k) Q () ↔
      (∃ r, Answers s o r) ∧ ∀ r, Answers s o r → wp (othersEnv s) (k r) Q () :=
  ⟨fun h => ⟨h.1, fun r hr => h.2 r () hr⟩, fun h => ⟨h.1, fun r _ hr => h.2 r hr⟩⟩

/-- A peer can be online or not. -/
theorem answers_isOnline (h : Bytes) (b : Bool) : Answers s (.isOnline h) b := ⟨s, s, fun _ => rfl, rfl⟩

/-- A request can be answered in any way. -/
theorem answers_request (peer : Bytes) (req : Request) (r : Except GoErr Response) :
    Answers s (.request peer req) r := ⟨s, s, fun _ => rfl, rfl⟩

/-- A record can be made. -/
theorem answers_record (c : Counter) (peer : Bytes) (n : ℤ) : Answers s (.record c peer n) () :=
  ⟨s, s, fun _ => rfl, rfl⟩

/-- A shard may be there or not, with any bytes. -/
theorem answers_blockGet (id : Bytes) (r : Except GoErr Bytes) : Answers s (.blockGet id) r := by
  refine ⟨{ s with blocks := fun _ => r.toOption }, _, fun h => NodeOp.noConfusion h, rfl, fun _ => ?_⟩
  cases r with
  | ok b => exact .inl rfl
  | error e => exact .inr ⟨e, rfl⟩

/-- A value can be stored or not. -/
theorem answers_storePut (key value : Bytes) (r : Except GoErr Unit) : Answers s (.storePut key value) r := by
  cases r with
  | ok u => exact ⟨s, _, fun _ => rfl, .inl ⟨rfl, rfl⟩⟩
  | error e => exact ⟨s, s, fun _ => rfl, .inr ⟨⟨e, rfl⟩, rfl⟩⟩

/-- A shard with the right hash can be put. -/
theorem answers_blockPut {id data : Bytes} (h : hashOf data = id) :
    Answers s (.blockPut id data) (.ok ()) := by
  have hverify : verifyHash id data = true := by simp [verifyHash, h]
  refine ⟨s, s.putBlock id data, fun _ => rfl, ?_⟩
  change if verifyHash id data = true then _ else _
  rw [if_pos hverify]
  exact .inl ⟨rfl, rfl⟩

/-- The two prefixes differ. -/
theorem memberPrefix_ne (gid : Bytes) : memberPrefix gid ≠ manifestPrefix := by
  intro h
  have hmember : (memberPrefix gid)[1]? = some 101 := rfl
  rw [h] at hmember
  cases hmember

/-- A group may have any members. -/
theorem answers_members (t : NodeState) (gid : Bytes) :
    Answers s (.storeIterate (memberPrefix gid)) (t.scan (memberPrefix gid), none) :=
  ⟨t, t, fun h => absurd (NodeOp.storeIterate.inj h) (memberPrefix_ne gid), rfl, .inl rfl⟩

/-- The manifests can be iterated over. -/
theorem answers_manifests : Answers s (.storeIterate manifestPrefix) (s.scan manifestPrefix, none) :=
  ⟨s, s, fun _ => rfl, rfl, .inl rfl⟩

/-- A panic is not answered. -/
theorem not_wp_goPanic {α : Type} {Q : Except GoErr α → Unit → Prop} : ¬ wp (othersEnv s) goPanic Q () := by
  rintro ⟨⟨r, -⟩, -⟩
  cases r

/-- The rule for slicing. -/
theorem wp_slice12 {id : Bytes} {Q : Except GoErr Unit → Unit → Prop} :
    wp (othersEnv s) (slice12 id) Q () ↔ 12 ≤ id.length ∧ Q (.ok ()) () := by
  unfold slice12
  split_ifs with h
  · simp [h]
  · simp [h, not_wp_goPanic]

/-- The rule for a value or a panic. -/
theorem wp_orPanic {α : Type} {x : Option α} {Q : Except GoErr α → Unit → Prop} :
    wp (othersEnv s) (orPanic x) Q () ↔ ∃ a, x = some a ∧ Q (.ok a) () := by
  cases x with
  | none => simp [orPanic, not_wp_goPanic]
  | some a => simp [orPanic]

/-- The operations that are always answered. -/
theorem wp_of_only {α : Type} {p : NodeM α} (hp : p.Only fun o => ∃ r, Answers s o r) :
    wp (othersEnv s) p (fun _ _ => True) () :=
  hp.wp_keeps (I := fun _ => True) (fun _ _ _ h => h) (fun _ _ _ _ _ _ _ => trivial) trivial

end Answers

/-! ## Gathering shards -/

section Gather

variable {L : Libs} {self : Bytes} {s : NodeState} {m : Manifest}

/-- The shard of a slot comes to anything, if the slot has a holder. -/
theorem wp_fetchSurvivor_iff {i : ℕ} {id : Bytes} {Q : Except GoErr (Option Bytes) → Unit → Prop} :
    wp (othersEnv s) (fetchSurvivor L self m i id) Q () ↔ i < m.holders.length ∧ ∀ x, Q (.ok x) () := by
  unfold fetchSurvivor
  simp only [perform, op_bind, ret_bind]
  rw [wp_others]
  constructor
  · rintro ⟨-, h⟩
    have herr := h (.error errBlockNotFound) (answers_blockGet id _)
    rw [wp_bind, wp_orPanic] at herr
    obtain ⟨holder, hholder, hnone⟩ := herr
    refine ⟨(List.getElem?_eq_some_iff.mp hholder).1, ?_⟩
    rintro (_ | data)
    · -- Without the shard, the holder is the node itself or not up.
      simp only [andThen_ok] at hnone
      split_ifs at hnone
      · exact hnone
      · exact (wp_others.mp hnone).2 false (answers_isOnline holder false)
    · exact h (.ok data) (answers_blockGet id _)
  · rintro ⟨hi, hQ⟩
    refine ⟨⟨_, answers_blockGet id (.error errBlockNotFound)⟩, ?_⟩
    rintro (e | data) -
    · rw [wp_bind, wp_orPanic]
      refine ⟨_, List.getElem?_eq_getElem hi, ?_⟩
      simp only [andThen_ok]
      split_ifs
      · exact hQ none
      · refine wp_others.mpr ⟨⟨true, answers_isOnline _ _⟩, fun online _ => ?_⟩
        cases online with
        | false => exact hQ none
        | true =>
          simp only [Bool.not_true, Bool.false_eq_true, if_false]
          cases L.peerDecode m.holders[i] with
          | error e => exact hQ none
          | ok pid =>
            rw [wp_bind, wp_attempt]
            refine wp_mono (wp_of_only (only_getShardFromPeer ⟨.error .eof, answers_request _ _ _⟩
              fun _ _ _ => ⟨(), answers_record _ _ _⟩)) ?_
            rintro (e | data) _ -
            · exact hQ none
            · exact hQ (some data)
    · exact hQ (some data)

/-- No shard is present if all are missing. -/
theorem eq_none_of_present {got : List (Option Bytes)} {ids : List Bytes} (hlen : got.length = ids.length)
    (h : present got = 0) : got = ids.map fun _ => none := by
  induction ids generalizing got with
  | nil => exact List.length_eq_zero_iff.mp hlen
  | cons id ids ih =>
    obtain ⟨g, got, rfl⟩ := List.exists_cons_of_length_eq_add_one hlen
    rw [present_cons] at h
    have hg : g = none := by
      cases g with
      | none => rfl
      | some b => simp at h
    have hrest : got = ids.map fun _ => none := ih (by simpa using hlen) (by omega)
    rw [hg, hrest, List.map_cons]

/-- Whatever shards are gathered, the outcome is in `Q`. They can be any, up to as many as there are data
shards, but for the slot that is left out. As long as there are too few, every other slot needs a holder. -/
structure Gathers (m : Manifest) (slot i : ℕ) (ids : List Bytes) (n : ℤ)
    (Q : List (Option Bytes) → ℤ → Prop) : Prop where
  held : n < m.dataShards → ∀ j < ids.length, i + j ≠ slot → i + j < m.holders.length
  all : ∀ got : List (Option Bytes), got.length = ids.length → (∀ j, i + j = slot → got[j]?.join = none) →
    n + present got ≤ max n m.dataShards → Q got (n + present got)

section Gathered

variable {slot i : ℕ} {id : Bytes} {ids : List Bytes} {n : ℤ} {Q : List (Option Bytes) → ℤ → Prop}

/-- No slots are left. -/
theorem gathers_nil : Gathers m slot i [] n Q ↔ Q [] n := by
  constructor
  · intro h
    simpa [present] using h.all [] rfl (by simp) (by simp [present])
  · intro hQ
    refine ⟨by simp, fun got hlen _ _ => ?_⟩
    obtain rfl := List.length_eq_zero_iff.mp hlen
    simpa [present] using hQ

/-- With enough shards, the others are left. -/
theorem gathers_full (hn : ¬ n < m.dataShards) :
    Gathers m slot i ids n Q ↔ Q (ids.map fun _ => none) n := by
  constructor
  · intro h
    have hnone := h.all (ids.map fun _ => none) (by simp) ?_ (by rw [present_none]; omega)
    · rw [present_none] at hnone
      simpa using hnone
    · intro j _
      rw [List.getElem?_map]
      cases ids[j]? <;> rfl
  · intro hQ
    refine ⟨fun hlt => absurd hlt hn, fun got hlen _ hle => ?_⟩
    have hzero : present got = 0 := by omega
    rw [eq_none_of_present hlen hzero, present_none]
    simpa using hQ

/-- The slot of the shard that is to be repaired is left out. -/
theorem gathers_slot (hn : n < m.dataShards) (hslot : i = slot) :
    Gathers m slot i (id :: ids) n Q ↔ Gathers m slot (i + 1) ids n fun got k => Q (none :: got) k := by
  constructor
  · intro h
    refine ⟨fun _ j hj hne => ?_, fun got hlen _ hle => ?_⟩
    · have := h.held hn (j + 1) (by simpa using hj) (by omega)
      omega
    · refine h.all (none :: got) (by simpa using hlen) (fun j hj => ?_) hle
      obtain rfl : j = 0 := by omega
      rfl
  · intro h
    refine ⟨fun _ j hj hne => ?_, fun got hlen hjoin hle => ?_⟩
    · obtain ⟨j, rfl⟩ : ∃ j', j = j' + 1 := ⟨j - 1, by omega⟩
      have := h.held hn j (by simpa using hj) (by omega)
      omega
    · obtain ⟨g, got, rfl⟩ := List.exists_cons_of_length_eq_add_one hlen
      obtain rfl : g = none := by simpa using hjoin 0 (by omega)
      exact h.all got (by simpa using hlen) (fun j hj => by omega) hle

/-- One more survivor. -/
theorem present_add (n : ℤ) (g : Option Bytes) (got : List (Option Bytes)) :
    (if g.isSome then n + 1 else n) + present got = n + present (g :: got) := by
  rw [present_cons]
  cases g with
  | none => simp
  | some b =>
    simp only [Option.isSome_some, if_true, Nat.cast_add, Nat.cast_one]
    ring

/-- Any other slot comes to anything, if it has a holder. -/
theorem gathers_fetch (hn : n < m.dataShards) (hslot : i ≠ slot) :
    Gathers m slot i (id :: ids) n Q ↔ i < m.holders.length ∧ ∀ g : Option Bytes,
      Gathers m slot (i + 1) ids (if g.isSome then n + 1 else n) fun got k => Q (g :: got) k := by
  constructor
  · intro h
    refine ⟨h.held hn 0 (by simp) hslot, fun g => ⟨fun _ j hj hne => ?_, fun got hlen hjoin hle => ?_⟩⟩
    · have := h.held hn (j + 1) (by simpa using hj) (by omega)
      omega
    · rw [present_add] at hle ⊢
      refine h.all (g :: got) (by simpa using hlen) ?_ (by split_ifs at hle <;> omega)
      rintro (_ | j) hj
      · exact absurd hj hslot
      · exact hjoin j (by omega)
  · rintro ⟨hi, hall⟩
    refine ⟨fun _ j hj hne => ?_, fun got hlen hjoin hle => ?_⟩
    · obtain _ | j := j
      · exact hi
      · have := (hall none).held hn j (by simpa using hj) (by omega)
        omega
    · obtain ⟨g, got, rfl⟩ := List.exists_cons_of_length_eq_add_one hlen
      have hQ := (hall g).all got (by simpa using hlen) (fun j hj => by simpa using hjoin (j + 1) (by omega))
      rw [present_add] at hQ
      exact hQ (by split_ifs <;> omega)

end Gathered

/-- The rule for gathering survivors. -/
theorem wp_gatherSurvivors_iff {slot i : ℕ} {ids : List Bytes} {n : ℤ}
    {Q : Except GoErr (List (Option Bytes) × ℤ) → Unit → Prop} :
    wp (othersEnv s) (gatherSurvivors L self m slot i ids n) Q () ↔
      Gathers m slot i ids n fun got k => Q (.ok (got, k)) () := by
  induction ids generalizing i n Q with
  | nil =>
    rw [gathers_nil]
    rfl
  | cons id ids ih =>
    unfold gatherSurvivors
    by_cases hn : n < m.dataShards
    · rw [if_pos hn]
      by_cases hslot : i = slot
      · rw [if_pos hslot, wp_bind, ih, gathers_slot hn hslot]
        rfl
      · rw [if_neg hslot, wp_bind, wp_fetchSurvivor_iff, gathers_fetch hn hslot]
        refine and_congr_right fun _ => forall_congr' fun g => ?_
        rw [andThen_ok, wp_bind, ih]
        rfl
    · rw [if_neg hn, gathers_full hn]
      rfl

end Gather

/-! ## One stripe -/

/-- The shards of a stripe that a repair of the slot can have gathered when there are enough of them. -/
def Survivors (m : Manifest) (slot : ℕ) (st : Stripe) (got : List (Option Bytes)) : Prop :=
  got.length = st.shardIDs.length ∧ got[slot]?.join = none ∧ present got = m.dataShards.toNat

/-- The stripe has as many shards as the manifest says. -/
def Stripe.Complete (m : Manifest) (st : Stripe) : Prop :=
  (st.shardIDs.length : ℤ) = wrap64 (m.dataShards + m.parityShards)

section Stripe

variable (L : Libs) (self : Bytes) (m : Manifest) (slot : ℕ)

/-- The lengths of a stripe fit: if there are shards to look for, every one has a holder, and if the stripe
can be put together, its size can be allocated and the slot is one of its slots. -/
def StripeInRange (st : Stripe) : Prop :=
  st.Complete m → (0 < m.dataShards → st.shardIDs.length ≤ m.holders.length) ∧
    ∀ got, Survivors m slot st got → (⟨m.dataShards, m.parityShards⟩ : Params).Decodable L got →
      Allocatable st.ciphertextBytes ∧ slot < st.shardIDs.length

/-- The shard of the slot can be put together, with its hash. -/
def Passable (st : Stripe) : Prop :=
  st.Complete m ∧ ∃ got full text data, Survivors m slot st got ∧
    Params.decode L ⟨m.dataShards, m.parityShards⟩ got st.ciphertextBytes = some (.ok (full, text)) ∧
    full[slot]? = some (some data) ∧ st.shardIDs[slot]? = some (hashOf data)

/-- The stripes that can be come to are in range. -/
def StripesInRange (sts : List Stripe) : Prop :=
  ∀ before st after, sts = before ++ st :: after → (∀ x ∈ before, Passable L m slot x) →
    StripeInRange L m slot st

variable {L self m slot} {s : NodeState} {st : Stripe} {spare : Bytes}

/-- No stripes are left. -/
theorem stripesInRange_nil : StripesInRange L m slot [] := by
  intro before st after h
  simp at h

/-- One more stripe. -/
theorem stripesInRange_cons {sts : List Stripe} : StripesInRange L m slot (st :: sts) ↔
    StripeInRange L m slot st ∧ (Passable L m slot st → StripesInRange L m slot sts) := by
  constructor
  · intro h
    refine ⟨h [] st sts rfl (by simp), fun hpass before x after hsts hbefore => ?_⟩
    refine h (st :: before) x after (by rw [hsts, List.cons_append]) ?_
    simpa using ⟨hpass, hbefore⟩
  · rintro ⟨hst, hrest⟩ before x after hsts hbefore
    cases before with
    | nil =>
      obtain ⟨rfl, -⟩ := List.cons.inj hsts
      exact hst
    | cons y before =>
      obtain ⟨rfl, rfl⟩ := List.cons.inj hsts
      exact hrest (hbefore _ (List.mem_cons_self ..)) before x after rfl
        fun z hz => hbefore z (List.mem_cons_of_mem _ hz)

/-- Placing a shard with its hash is answered. -/
theorem wp_placeShard_others {id data : Bytes} (h : hashOf data = id) :
    wp (othersEnv s) (placeShard L self spare id data) (fun _ _ => True) () := by
  refine wp_of_only ?_
  unfold placeShard
  split_ifs
  · exact ⟨⟨_, answers_blockPut h⟩, fun r => only_ofExcept r⟩
  · cases L.peerDecode spare with
    | error e => trivial
    | ok pid =>
      exact only_putShardOnPeer ⟨.error .eof, answers_request _ _ _⟩ fun _ _ _ => ⟨(), answers_record _ _ _⟩

/-- It can succeed, if the spare has a peer id. -/
theorem placed_of_wp_placeShard {id data pid : Bytes} (h : hashOf data = id)
    (hpid : L.peerDecode spare = .ok pid) {Q : Except GoErr Unit → Unit → Prop}
    (hQ : wp (othersEnv s) (placeShard L self spare id data) Q ()) : Q (.ok ()) () := by
  unfold placeShard at hQ
  split_ifs at hQ
  · exact (wp_others.mp hQ).2 (.ok ()) (answers_blockPut h)
  · rw [hpid] at hQ
    have hreq := (wp_others.mp hQ).2 (.ok { ok := true }) (answers_request _ _ _)
    exact (wp_others.mp hreq).2 () (answers_record _ _ _)

/-- A stripe in range is migrated or not, without a panic. It is only if it is passable. -/
theorem wp_migrateStripeShard_others (hR : L.rs.InPlace) (h : StripeInRange L m slot st) :
    wp (othersEnv s) (migrateStripeShard L self m st slot spare)
      (fun x _ => x = .ok () → Passable L m slot st) () := by
  unfold migrateStripeShard
  extract_lets total
  by_cases hlen : (st.shardIDs.length : ℤ) ≠ total
  · rw [if_pos hlen]
    simp
  rw [if_neg hlen]
  push Not at hlen
  obtain ⟨hholders, hdecodes⟩ := h hlen
  rw [wp_bind, wp_gatherSurvivors_iff]
  refine ⟨fun hk j hj _ => ?_, fun got hgot hnone hle => ?_⟩
  · have := hholders hk
    omega
  rw [andThen_ok]
  simp only [zero_add] at hle ⊢
  by_cases hfew : (present got : ℤ) < m.dataShards
  · rw [if_pos hfew]
    simp
  rw [if_neg hfew, wp_bind, wp_orPanic]
  have hsurv : Survivors m slot st got := ⟨hgot, hnone slot (by omega), by omega⟩
  cases hdec : Params.decode L ⟨m.dataShards, m.parityShards⟩ got st.ciphertextBytes with
  | none =>
    -- `Decode` panics on a length that cannot be allocated, which the range excludes.
    obtain ⟨hdecodable, hct⟩ := Params.decode_eq_none_iff.mp hdec
    exact absurd (hdecodes got hsurv hdecodable).1 hct
  | some x =>
    refine ⟨x, rfl, ?_⟩
    rw [andThen_ok]
    rcases x with e | ⟨full, text⟩
    · simp
    obtain ⟨hnew, htotal, hrec, hver, -, -⟩ := Params.decode_eq_ok_iff.mp hdec
    have hin : slot < st.shardIDs.length := (hdecodes got hsurv ⟨hnew, htotal, full, hrec, hver⟩).2
    have hfull : slot < full.length := by
      rw [hR _ _ _ _ hrec, hgot]
      exact hin
    simp only [wp_bind, wp_orPanic]
    refine ⟨_, List.getElem?_eq_getElem hfull, ?_⟩
    rw [andThen_ok]
    cases hdata : full[slot] with
    | none => simp
    | some data =>
      simp only [wp_bind, wp_orPanic]
      refine ⟨_, List.getElem?_eq_getElem hin, ?_⟩
      rw [andThen_ok]
      by_cases hhash : hashOf data ≠ st.shardIDs[slot]
      · rw [if_pos hhash]
        simp
      rw [if_neg hhash]
      push Not at hhash
      refine wp_mono (wp_placeShard_others hhash) fun _ _ _ _ => ?_
      refine ⟨hlen, got, full, text, data, hsurv, hdec, ?_, ?_⟩
      · rw [List.getElem?_eq_getElem hfull, hdata]
      · rw [List.getElem?_eq_getElem hin, hhash]

/-- A stripe that is migrated without a panic, whatever the answers, is in range. If it is passable, it may
be passed. -/
theorem stripeInRange_of_wp (hR : L.rs.InPlace) {pid : Bytes} (hpid : L.peerDecode spare = .ok pid)
    {Q : Except GoErr Unit → Unit → Prop} (hslot : slot < m.holders.length)
    (h : wp (othersEnv s) (migrateStripeShard L self m st slot spare) Q ()) :
    StripeInRange L m slot st ∧ (Passable L m slot st → Q (.ok ()) ()) := by
  unfold migrateStripeShard at h
  extract_lets total at h
  by_cases hlen : (st.shardIDs.length : ℤ) ≠ total
  · exact ⟨fun hcomplete => absurd hcomplete hlen, fun hpass => absurd hpass.1 hlen⟩
  rw [if_neg hlen, wp_bind, wp_gatherSurvivors_iff] at h
  push Not at hlen
  obtain ⟨hholders, hall⟩ := h
  -- What follows the gathering, once there are enough shards.
  have hafter : ∀ got, Survivors m slot st got → _ := fun got hgot =>
    hall got hgot.1 (fun j hj => by rw [← hgot.2.1]; congr; omega) (by rw [hgot.2.2]; omega)
  have henough : ∀ got, Survivors m slot st got → ¬ ((0 : ℤ) + present got < m.dataShards) := by
    intro got hgot
    rw [hgot.2.2]
    omega
  refine ⟨fun _ => ⟨fun hk => ?_, fun got hgot hdecodable => ?_⟩, ?_⟩
  · by_contra hlt
    have := hholders hk m.holders.length (by omega) (by omega)
    omega
  · have hdec := hafter got hgot
    rw [andThen_ok] at hdec
    simp only [if_neg (henough got hgot)] at hdec
    rw [wp_bind, wp_orPanic] at hdec
    obtain ⟨x, hx, hnext⟩ := hdec
    have hct : Allocatable st.ciphertextBytes := by
      by_contra hneg
      rw [Params.decode_eq_none_iff.mpr ⟨hdecodable, hneg⟩] at hx
      cases hx
    refine ⟨hct, ?_⟩
    obtain ⟨hnew, htotal, full, hrec, hver⟩ := hdecodable
    have hok := Params.decode_eq_ok_iff.mpr ⟨hnew, htotal, hrec, hver, hct, rfl⟩
    obtain rfl := Option.some.inj (hx.symm.trans hok)
    simp only [andThen_ok, wp_bind, wp_orPanic] at hnext
    obtain ⟨y, hy, -⟩ := hnext
    have := (List.getElem?_eq_some_iff.mp hy).1
    rw [hR _ _ _ _ hrec, hgot.1] at this
    exact this
  · rintro ⟨-, got, full, text, data, hgot, hok, hdata, hid⟩
    have hnext := hafter got hgot
    rw [andThen_ok] at hnext
    simp only [if_neg (henough got hgot)] at hnext
    simp only [wp_bind, wp_orPanic, hok, andThen_ok, hdata, hid, Option.some.injEq, exists_eq_left',
      ne_eq, not_true_eq_false, if_false] at hnext
    exact placed_of_wp_placeShard rfl hpid hnext

end Stripe

/-! ## One file -/

/-- However many peers are holders, a group can have a member that is another one. -/
def Libs.ManyPeers (L : Libs) : Prop :=
  ∀ hs : List Bytes, ∃ raw mem pid, L.cbor.member.unmarshal raw = .ok mem ∧
    mem.peerID ≠ [] ∧ mem.peerID ∉ hs ∧
    L.peerDecode mem.peerID = .ok pid

/-- The lengths of a manifest fit for a repair of the slot. The file id is always sliced. If the node itself
is not more than `DataShards` of the holders, the others can be down. Then the group id is sliced if there is
no spare, and the stripes are walked through if there is one. -/
def RepairInRange (L : Libs) (self : Bytes) (m : Manifest) (slot : ℕ) : Prop :=
  12 ≤ m.fileID.length ∧ ((m.holders.count self : ℤ) ≤ m.dataShards →
    12 ≤ m.groupID.length ∧ StripesInRange L m slot m.stripes)

section File

variable {L : Libs} {self : Bytes} {s : NodeState} {m : Manifest} {slot : ℕ} {spare : Bytes}

/-- All holders but the node itself can be down. -/
theorem live_of_wp_countLive {hs : List Bytes} {n : ℤ} {Q : Except GoErr ℤ → Unit → Prop}
    (h : wp (othersEnv s) (countLive self hs n) Q ()) : Q (.ok (n + hs.count self)) () := by
  induction hs generalizing n with
  | nil => simpa [countLive] using h
  | cons x hs ih =>
    unfold countLive at h
    split_ifs at h with hx
    · have := ih h
      rw [hx, List.count_cons_self]
      simpa [add_assoc, add_comm, add_left_comm] using this
    · have := ih ((wp_others.mp h).2 false (answers_isOnline x false))
      rwa [List.count_cons_of_ne hx]

/-- The search for a spare asks the ledger only. -/
theorem wp_findSpare_others (holders : List Bytes) (members : List Member) :
    wp (othersEnv s) (findSpare self holders members) (returns fun _ _ => True) () := by
  induction members with
  | nil => trivial
  | cons mem members ih =>
    unfold findSpare
    split_ifs
    · exact ih
    · trivial
    · refine wp_others.mpr ⟨⟨true, answers_isOnline _ _⟩, fun online _ => ?_⟩
      cases online with
      | true => trivial
      | false => exact ih

/-- The one member of a group that is no holder can be the spare. -/
theorem spare_of_wp_findSpare {holders : List Bytes} {mem : Member} (hmem : mem.peerID ∉ holders)
    {Q : Except GoErr Bytes → Unit → Prop} (h : wp (othersEnv s) (findSpare self holders [mem]) Q ()) :
    Q (.ok mem.peerID) () := by
  unfold findSpare at h
  rw [if_neg hmem] at h
  split_ifs at h
  · exact h
  · exact (wp_others.mp h).2 true (answers_isOnline _ true)

/-- Stripes in range are migrated, or one of them is not, without a panic. -/
theorem wp_migrateStripes_others (hR : L.rs.InPlace) (hid : 12 ≤ m.fileID.length) {sts : List Stripe}
    (h : StripesInRange L m slot sts) :
    wp (othersEnv s) (migrateStripes L self m slot spare sts) (fun _ _ => True) () := by
  induction sts with
  | nil => trivial
  | cons st sts ih =>
    obtain ⟨hst, hrest⟩ := stripesInRange_cons.mp h
    unfold migrateStripes
    rw [wp_bind, wp_attempt]
    refine wp_mono (wp_migrateStripeShard_others hR hst) ?_
    rintro (e | ⟨⟩) _ hpass
    · simp [slice12_of_le hid]
    · exact ih (hrest (hpass rfl))

/-- Stripes that are migrated to a spare without a panic, whatever the answers, are in range. -/
theorem stripesInRange_of_wp (hR : L.rs.InPlace) {pid : Bytes} (hpid : L.peerDecode spare = .ok pid)
    (hslot : slot < m.holders.length) {sts : List Stripe}
    (h : wp (othersEnv s) (migrateStripes L self m slot spare sts) (fun _ _ => True) ()) :
    StripesInRange L m slot sts := by
  induction sts with
  | nil => exact stripesInRange_nil
  | cons st sts ih =>
    unfold migrateStripes at h
    rw [wp_bind, wp_attempt] at h
    obtain ⟨hst, hnext⟩ := stripeInRange_of_wp hR hpid hslot h
    exact stripesInRange_cons.mpr ⟨hst, fun hpass => ih (hnext hpass)⟩

/-- The manifest is stored and sent without a panic. -/
theorem wp_migrateSlot_others (hR : L.rs.InPlace) (hid : 12 ≤ m.fileID.length)
    (h : StripesInRange L m slot m.stripes) :
    wp (othersEnv s) (migrateSlot L self m slot spare) (fun _ _ => True) () := by
  unfold migrateSlot
  refine wp_bind_of (wp_migrateStripes_others hR hid h) (fun _ _ _ => ?_) fun _ _ _ => trivial
  refine wp_of_only (only_bind (only_mapErr ⟨⟨.ok (), answers_storePut _ _ _⟩, fun r => only_ofExcept r⟩)
    fun _ => ?_)
  refine only_bind (only_foldlM (fun _ holder _ => (only_propagate _ holder).mono ?_) ()) fun _ => ?_
  · rintro o ⟨pid, rfl⟩
    exact ⟨.error .eof, answers_request _ _ _⟩
  · rw [slice12_of_le hid]
    trivial

/-- The node itself is among the holders that are counted. -/
theorem wp_countLive_others (hs : List Bytes) (n : ℤ) :
    wp (othersEnv s) (countLive self hs n) (returns fun live _ => n + hs.count self ≤ live) () := by
  induction hs generalizing n with
  | nil => simp [countLive]
  | cons x hs ih =>
    unfold countLive
    split_ifs with hx
    · refine wp_mono (ih (n + 1)) ?_
      rintro (e | live) _ hlive
      · exact hlive.elim
      · simp only [returns_ok, hx, List.count_cons_self] at hlive ⊢
        omega
    · refine wp_others.mpr ⟨⟨true, answers_isOnline _ _⟩, fun online _ => ?_⟩
      refine wp_mono (ih (if online then n + 1 else n)) ?_
      rintro (e | live) _ hlive
      · exact hlive.elim
      · rw [returns_ok, List.count_cons_of_ne hx]
        rw [returns_ok] at hlive
        split_ifs at hlive <;> omega

/-- A manifest in range is repaired, or not, without a panic. -/
theorem wp_repairFile_others (hR : L.rs.InPlace) (h : RepairInRange L self m slot) :
    wp (othersEnv s) (repairFile L self m slot) (fun _ _ => True) () := by
  obtain ⟨hid, hdown⟩ := h
  unfold repairFile
  refine wp_bind_of (wp_countLive_others m.holders 0) (fun live _ hlive => ?_) fun _ _ h => False.elim h
  rw [returns_ok] at hlive
  rw [slice12_of_le hid]
  split_ifs with hk
  · trivial
  obtain ⟨hgid, hstripes⟩ := hdown (by omega)
  unfold listMembers
  simp only [perform, op_bind, ret_bind, pure_eq]
  refine wp_others.mpr ⟨⟨_, answers_members s m.groupID⟩, ?_⟩
  rintro ⟨pairs, err⟩ -
  cases err with
  | some e => trivial
  | none =>
    refine wp_bind_of (wp_findSpare_others _ _) (fun spare _ _ => ?_) fun _ _ h => False.elim h
    split_ifs
    · simp [slice12_of_le hgid]
    · exact wp_migrateSlot_others hR hid hstripes

/-- A manifest that is repaired without a panic, whatever the answers, is in range but for its file id. -/
theorem repairInRange_of_wp (hR : L.rs.InPlace) (hP : L.ManyPeers) (hslot : slot < m.holders.length)
    (hid : 12 ≤ m.fileID.length)
    (h : wp (othersEnv s) (repairFile L self m slot) (fun _ _ => True) ()) : RepairInRange L self m slot := by
  refine ⟨hid, fun hk => ?_⟩
  unfold repairFile at h
  rw [wp_bind] at h
  have hlive := live_of_wp_countLive h
  rw [andThen_ok, if_neg (by omega)] at hlive
  unfold listMembers at hlive
  simp only [perform, op_bind, ret_bind, pure_eq] at hlive
  have hmembers := fun t => (wp_others.mp hlive).2 _ (answers_members t m.groupID)
  constructor
  · -- The group has no members.
    have hnone := hmembers .fresh
    rw [wp_bind] at hnone
    have hslices : wp (othersEnv s) (slice12 m.fileID >>= fun _ => slice12 m.groupID) (fun _ _ => True) () :=
      hnone
    rw [slice12_of_le hid] at hslices
    exact (wp_slice12.mp hslices).1
  · -- The group has one, which is the spare.
    obtain ⟨raw, mem, pid, hraw, hne, hmem, hpid⟩ := hP m.holders
    have hone := hmembers (NodeState.fresh.putKey (memberKey m.groupID mem.peerID) raw)
    have hscan : decodeValues L.cbor.member
        ((NodeState.fresh.putKey (memberKey m.groupID mem.peerID) raw).scan
        (memberPrefix m.groupID)) = [mem] := by
      have hentries : (NodeState.fresh.putKey (memberKey m.groupID mem.peerID) raw).store.entries =
          [(memberKey m.groupID mem.peerID, raw)] := rfl
      have hpre : (memberPrefix m.groupID).isPrefixOf (memberKey m.groupID mem.peerID) = true :=
        List.isPrefixOf_iff_prefix.mpr (List.prefix_append _ _)
      simp [NodeState.scan, decodeValues, hentries, hpre, hraw, Except.toOption]
    simp only [hscan] at hone
    rw [wp_bind] at hone
    have hspare := spare_of_wp_findSpare hmem hone
    rw [andThen_ok, if_neg hne] at hspare
    unfold migrateSlot at hspare
    rw [wp_bind] at hspare
    exact stripesInRange_of_wp hR hpid hslot (wp_mono hspare fun _ _ _ => trivial)

/-- A slice of an id that is too short does not return. -/
theorem not_steps_slice12 {id : Bytes} (h : ¬ 12 ≤ id.length) {evs : List NodeEvent} :
    ¬ Steps (othersEnv s) () (slice12 id) evs () (ret ()) := by
  unfold slice12
  rw [if_neg h]
  intro hsteps
  cases hsteps with
  | @op _ _ _ _ r => cases r

/-- If the file id is too short, no repair of the file returns. -/
theorem not_steps_repairFile (hid : ¬ 12 ≤ m.fileID.length) {evs : List NodeEvent} :
    ¬ Steps (othersEnv s) () (repairFile L self m slot) evs () (ret ()) := by
  intro h
  unfold repairFile at h
  obtain ⟨live, _, _, _, -, h, -⟩ := h.bind_ret
  split_ifs at h
  · exact not_steps_slice12 hid h
  obtain ⟨⟨members, err⟩, _, _, _, -, h, -⟩ := h.bind_ret
  cases err with
  | some e => cases h
  | none =>
    obtain ⟨spare, _, _, _, -, h, -⟩ := h.bind_ret
    split_ifs at h
    · obtain ⟨_, _, _, _, h, -, -⟩ := h.bind_ret
      exact not_steps_slice12 hid h
    · -- After the manifest was sent, the log has the file id once more.
      unfold migrateSlot at h
      obtain ⟨_, _, _, _, -, h, -⟩ := h.bind_ret
      obtain ⟨_, _, _, _, -, h, -⟩ := h.bind_ret
      obtain ⟨_, _, _, _, -, h, -⟩ := h.bind_ret
      exact not_steps_slice12 hid h

end File

/-! ## The scan -/

section Scan

variable {L : Libs} {self offlinePeer : Bytes} {s : NodeState}

/-- A scan goes through the manifests without a panic, whatever the answers, exactly if those of the offline
peer are in range. -/
theorem wp_repairFiles_iff (hR : L.rs.InPlace) (hP : L.ManyPeers) {ms : List Manifest} :
    wp (othersEnv s) (repairFiles L self offlinePeer ms) (fun _ _ => True) () ↔
      ∀ m ∈ ms, ∀ slot, m.holders.findIdx? (· = offlinePeer) = some slot → RepairInRange L self m slot := by
  induction ms with
  | nil => simp [repairFiles]
  | cons m ms ih =>
    unfold repairFiles
    cases hfind : m.holders.findIdx? (· = offlinePeer) with
    | none => simp [hfind, ih]
    | some slot =>
      simp only [wp_bind, wp_attempt, List.mem_cons, forall_eq_or_imp, hfind,
        Option.some.injEq, forall_eq', ← ih]
      constructor
      · intro h
        have hslot : slot < m.holders.length := (List.findIdx?_eq_some_iff_getElem.mp hfind).1
        -- Some repair of the file comes to an end.
        obtain ⟨evs, _, x, hsteps, hx⟩ := wp_exists (fun w o => (othersEnv_guard s w o).mp) h
        rcases x with e | ⟨⟩
        · obtain ⟨hid, hrest⟩ := wp_slice12.mp (wp_bind .. |>.mp hx)
          exact ⟨repairInRange_of_wp hR hP hslot hid (wp_mono h fun _ _ _ => trivial), hrest⟩
        · have hid : 12 ≤ m.fileID.length := by
            by_contra hid
            exact not_steps_repairFile hid hsteps
          exact ⟨repairInRange_of_wp hR hP hslot hid (wp_mono h fun _ _ _ => trivial), hx⟩
      · rintro ⟨hm, hrest⟩
        refine wp_mono (wp_repairFile_others hR hm) ?_
        rintro (e | ⟨⟩) _ -
        · exact (wp_bind ..).mpr (wp_slice12.mpr ⟨hm.1, hrest⟩)
        · exact hrest

/-- What goes wrong with a file does not end the scan. -/
theorem handled_repairFiles (ms : List Manifest) : (repairFiles L self offlinePeer ms).Handled := by
  induction ms with
  | nil => trivial
  | cons m ms ih =>
    unfold repairFiles
    cases m.holders.findIdx? (· = offlinePeer) with
    | none => exact ih
    | some slot =>
      refine handled_bind (handled_attempt _) ?_
      rintro (e | ⟨⟩)
      · exact handled_bind (handled_slice12 _) fun _ => ih
      · exact ih

/-- For every offline peer, a scan runs to its end, whatever the ledger, the members, the block store and the
other peers answer, if and only if each manifest that has the peer among its holders is in range. -/
theorem scanForOfflinePeer_completes_iff (hR : L.rs.InPlace) (hP : L.ManyPeers) :
    Completes (othersEnv s) () (scanForOfflinePeer L self offlinePeer) ↔
      ∀ m ∈ s.manifests L, ∀ slot, m.holders.findIdx? (· = offlinePeer) = some slot →
        RepairInRange L self m slot := by
  rw [completes_iff_wp (othersEnv_guard s)]
  unfold NodeState.manifests
  rw [← wp_repairFiles_iff hR hP]
  unfold scanForOfflinePeer listManifests
  simp only [perform, op_bind, ret_bind, pure_eq]
  rw [wp_others]
  constructor
  · rintro ⟨-, h⟩
    exact wp_mono (h _ answers_manifests) fun _ _ _ => trivial
  · intro h
    refine ⟨⟨_, answers_manifests⟩, ?_⟩
    rintro r ⟨t, t', ht, -, rfl | ⟨l, e, -, rfl⟩⟩
    · obtain rfl := ht rfl
      exact (handled_repairFiles _).wp_ok h
    · trivial

end Scan

/-! ## Manifests in range, and others -/

/-- The sample code fills in shards in their place. -/
theorem sampleRs_inPlace : sampleRs.InPlace := by
  intro k m shards full h
  simp only [sampleRs] at h
  split at h
  · cases h
    exact List.length_map ..
  · cases h

/-- There is always another peer. -/
theorem sampleLibs_manyPeers : sampleLibs.ManyPeers := by
  intro hs
  -- An id that is longer than all of them together.
  let peerID : Bytes := List.replicate (hs.flatten.length + 1) 97
  have hvalid : validUTF8 peerID = true := by
    refine validUTF8_of_ascii fun b hb => ?_
    rw [List.eq_of_mem_replicate hb]
    decide
  have hnew : peerID ∉ hs := by
    intro hmem
    have := (List.sublist_flatten_of_mem hmem).length_le
    simp [peerID] at this
  have hmem : (sampleMember peerID).validText = true := by
    simp [Member.validText, sampleMember, hvalid, show validUTF8 [] = true from rfl]
  exact ⟨_, _, peerID, sampleCbor_lawful.member.unmarshal_marshal hmem,
    by simp [peerID, sampleMember, Member.norm], hnew, rfl⟩

/-- A node stores every manifest that it is sent under the id of its file. -/
theorem steps_serve_putManifest {L : Libs} {m : Manifest} {raw : Bytes}
    (hdec : L.cbor.manifest.unmarshal raw = .ok m) (s : NodeState) :
    Steps nodeEnv s (serveBlock L true ⟨.putManifest, m.fileID, raw⟩)
      [⟨.storePut (manifestKey m.fileID) (L.cbor.manifest.marshal m), .ok ()⟩]
      (s.putKey (manifestKey m.fileID) (L.cbor.manifest.marshal m)) (ret { ok := true }) := by
  unfold serveBlock
  simp only [Bool.not_true, Bool.false_eq_true, if_false, hdec]
  rw [if_neg (by simp)]
  exact .op (.inl ⟨rfl, rfl⟩) (.refl _ _)

/-- The manifest of a file with an id of one character. -/
def shortFile : Manifest := { sampleFile [lit "carol", lit "dave", lit "erin"] with fileID := lit "x" }

/-- The short file is read back. -/
theorem unmarshal_shortFile :
    sampleLibs.cbor.manifest.unmarshal (sampleLibs.cbor.manifest.marshal shortFile) = .ok shortFile := by
  have hvalid : shortFile.validText = true := by
    have h : (sampleFile [lit "carol", lit "dave", lit "erin"]).validText = true :=
      validText_sampleFile (by decide)
    simp only [Manifest.validText, Bool.and_eq_true] at h ⊢
    exact ⟨⟨⟨⟨⟨⟨by decide, h.1.1.1.1.1.2⟩, h.1.1.1.1.2⟩, h.1.1.1.2⟩, h.1.1.2⟩, h.1.2⟩, h.2⟩
  have hnorm : shortFile.norm = shortFile := by
    unfold Manifest.norm
    rw [show wholeSeconds shortFile.createdAt = shortFile.createdAt from rfl]
  rw [unmarshal_sampleManifest hvalid, hnorm]

/-- The holders are counted, and two are up. -/
theorem steps_shortFile {s : NodeState} (h : s.manifests sampleLibs = [shortFile]) : ∃ evs k,
    Steps nodeEnv s (scanForOfflinePeer sampleLibs sampleService.self (lit "carol")) evs s (op .panic k) := by
  have hlive : Steps nodeEnv s (countLive sampleService.self shortFile.holders 0)
      [⟨.isOnline (lit "carol"), false⟩, ⟨.isOnline (lit "dave"), true⟩, ⟨.isOnline (lit "erin"), true⟩] s
      (ret 2) :=
    .op rfl (.op rfl (.op rfl (.refl _ _)))
  have hfile : Steps nodeEnv s (repairFile sampleLibs sampleService.self shortFile 0) _ s goPanic :=
    hlive.bind (.refl _ _)
  have hscan : Steps nodeEnv s (repairFiles sampleLibs sampleService.self (lit "carol") [shortFile]) _ s _ :=
    hfile.attempt.bind_left _
  have hread : Steps nodeEnv s (scanForOfflinePeer sampleLibs sampleService.self (lit "carol"))
      [⟨.storeIterate manifestPrefix, (s.scan manifestPrefix, none)⟩] s
      (repairFiles sampleLibs sampleService.self (lit "carol") [shortFile]) := by
    refine .op ⟨rfl, .inl rfl⟩ ?_
    unfold NodeState.manifests at h
    simp only [bind_eq, pure_eq, ret_bind, h]
    exact .refl _ _
  exact ⟨_, _, hread.trans hscan⟩

/-- A peer puts the manifest on a node. When one of its holders goes offline, the node panics, although the
other two are up. -/
theorem shortFile_panics : ∃ evs s evs' s' k,
    Steps nodeEnv .fresh (serveBlock sampleLibs true
      ⟨.putManifest, lit "x", sampleLibs.cbor.manifest.marshal shortFile⟩) evs s (ret { ok := true }) ∧
    Steps nodeEnv s (scanForOfflinePeer sampleLibs sampleService.self (lit "carol")) evs'
      s' (op .panic k) := by
  let s := NodeState.fresh.putKey (manifestKey (lit "x")) (sampleLibs.cbor.manifest.marshal shortFile)
  have hms : s.manifests sampleLibs = [shortFile] := by
    have hscan : s.scan manifestPrefix =
        [(manifestKey (lit "x"), sampleLibs.cbor.manifest.marshal shortFile)] := by
      have hpre : manifestPrefix.isPrefixOf (manifestKey (lit "x")) = true := rfl
      exact List.filter_cons_of_pos hpre
    unfold NodeState.manifests
    rw [hscan]
    simp [decodeValues, unmarshal_shortFile, Except.toOption]
  obtain ⟨evs', k, hscan⟩ := steps_shortFile hms
  exact ⟨_, s, evs', s, k, steps_serve_putManifest unmarshal_shortFile _, hscan⟩

/-- The manifest of a file whose lengths fit. -/
theorem sampleOwner_completes :
    (sampleOwner [lit "carol", lit "dave"]).1.manifests sampleLibs = [sampleFile [lit "carol", lit "dave"]] ∧
    Completes (othersEnv (sampleOwner [lit "carol", lit "dave"]).1) ()
      (scanForOfflinePeer sampleLibs sampleService.self (lit "carol")) := by
  have hms : (sampleOwner [lit "carol", lit "dave"]).1.manifests sampleLibs =
      [sampleFile [lit "carol", lit "dave"]] := manifests_sampleOwner (by decide)
  refine ⟨hms, (scanForOfflinePeer_completes_iff sampleRs_inPlace sampleLibs_manyPeers).mpr ?_⟩
  rw [hms]
  intro m hm slot hslot
  obtain rfl := List.mem_singleton.mp hm
  obtain rfl : 0 = slot := Option.some.inj hslot
  refine ⟨by decide, fun _ => ⟨by decide, ?_⟩⟩
  rw [show (sampleFile [lit "carol", lit "dave"]).stripes = [sampleStripe [lit "carol", lit "dave"]] from rfl,
    stripesInRange_cons]
  exact ⟨fun _ => ⟨fun _ => by decide, fun _ _ _ => by decide⟩, fun _ => stripesInRange_nil⟩

end FnShare
