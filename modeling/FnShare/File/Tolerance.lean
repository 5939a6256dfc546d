import FnShare.File.RoundTrip

/-!
# Holders that send something else

`fetchAndDecryptStripe` takes the first `DataShards` answers, in the order of the slots, for shards: it
does not compare them with the ids in the manifest. `stripeFrom` is what a stripe comes to, given what
its slots yield. A slot may yield its shard, nothing, or other bytes, possibly none at all. The stripe
comes back, whatever the wrong bytes are, exactly if none of them are among the first `DataShards`
answers (`fetchAndDecryptStripe_tolerant_iff`), however many slots behind them have their shard.
-/

namespace FnShare

open Prog

/-! ## What a stripe is put together from -/

/-- The first `n` answers, each in its slot: what the loop over the slots gathers. -/
def firstAnswers : ℕ → List (Option Bytes) → List (Option Bytes)
  | _, [] => []
  | 0, _ :: ys => none :: firstAnswers 0 ys
  | n + 1, none :: ys => none :: firstAnswers (n + 1) ys
  | n + 1, some d :: ys => some d :: firstAnswers n ys

/-- None of the answers is taken. -/
theorem firstAnswers_zero (ys : List (Option Bytes)) :
    firstAnswers 0 ys = ys.map fun _ => none := by
  induction ys with
  | nil => rfl
  | cons y ys ih => rw [firstAnswers, ih, List.map_cons]

/-- So many of the answers are taken. -/
theorem present_firstAnswers (n : ℕ) (ys : List (Option Bytes)) :
    present (firstAnswers n ys) = min n (present ys) := by
  fun_induction firstAnswers n ys with
  | case1 => simp [present]
  | case2 y ys ih => simpa [present_cons] using ih
  | case3 n ys ih => simpa [present_cons] using ih
  | case4 n d ys ih =>
    simp only [present_cons, Option.isSome_some, if_true, ih]
    omega

/-- The plaintext that a stripe comes to if its slots yield what the source gives. No plaintext is an
error, and nothing at all is a panic. -/
def stripeFrom (L : Libs) (node : Service) (src : Source) (r : Reader) (idx : ℤ) :
    Option (Option Bytes) :=
  if idx < 0 then some none
  else
    match r.m.stripes[idx.toNat]? with
    | none => some none
    | some st =>
      let total := wrap64 (r.m.dataShards + r.m.parityShards)
      let got := firstAnswers r.m.dataShards.toNat (slotYields L node src r st)
      if (st.shardIDs.length : ℤ) ≠ total ∨ (r.m.holders.length : ℤ) ≠ total then some none
      else if (present got : ℤ) < r.m.dataShards then some none
      else
        match Params.decode L ⟨r.m.dataShards, r.m.parityShards⟩ got st.ciphertextBytes with
        | none => none
        | some (.error _) => some none
        | some (.ok (_, ct)) => some (openAES L r.key ct).toOption

section Source

variable {L : Libs} {node : Service} {src : Source} {r : Reader} {c : StripeCache}
  {E : Env NodeSig StripeCache}

/-- The loop over the slots gathers the first answers. -/
theorem wp_gatherShards_source (hE : ReadsFrom src.answers (· = c) E) (k : ℤ) (sls : List (Bytes × Bytes))
    (gathered : ℤ) :
    wp E (gatherShards L node k sls gathered)
      (returns fun x c' => c' = c ∧ x.2 = gathered + present x.1 ∧
        x.1 = firstAnswers (k - gathered).toNat
          (sls.map fun slot => src.yields L node slot.1 slot.2)) c := by
  induction sls generalizing gathered with
  | nil => exact ⟨rfl, by simp [present], rfl⟩
  | cons slot rest ih =>
    obtain ⟨shardID, holder⟩ := slot
    unfold gatherShards
    by_cases hlt : gathered < k
    · rw [if_pos hlt]
      obtain ⟨n, hn⟩ : ∃ n, (k - gathered).toNat = n + 1 := ⟨(k - gathered).toNat - 1, by omega⟩
      refine wp_bind_returns (wp_fetchShard hE shardID holder rfl) ?_
      rintro shard c₁ ⟨hshard, rfl⟩
      refine wp_bind_returns (ih (if shard.isSome then gathered + 1 else gathered)) ?_
      rintro ⟨shards, n'⟩ c₂ ⟨rfl, hcount, hshards⟩
      rw [List.map_cons, ← hshard.eq_yields, hn]
      simp only at hcount hshards
      -- A slot that yields nothing leaves as many answers to be found.
      cases shard with
      | none =>
        simp only [Option.isSome_none, Bool.false_eq_true, if_false] at hcount hshards
        refine ⟨rfl, by simpa [present_cons] using hcount, ?_⟩
        rw [firstAnswers, ← hn, ← hshards]
      | some d =>
        simp only [Option.isSome_some, if_true] at hcount hshards
        have hn' : (k - (gathered + 1)).toNat = n := by omega
        refine ⟨rfl, ?_, ?_⟩
        · simp only [present_cons, Option.isSome_some, if_true]
          omega
        · rw [firstAnswers, ← hn', ← hshards]
    · -- Enough was gathered: the slots that are left stay empty.
      rw [if_neg hlt]
      have hn : (k - gathered).toNat = 0 := by omega
      have hnone : present (none :: rest.map fun _ => none) = 0 :=
        present_none ((shardID, holder) :: rest)
      refine ⟨rfl, by rw [hnone]; simp, ?_⟩
      rw [hn, firstAnswers_zero, List.map_map, List.map_cons]
      rfl

/-- Fetching a stripe comes to what the slots make of it, a panic included, and leaves the cache alone. -/
theorem wp_fetchAndDecryptStripe_source (hE : ReadsFrom src.answers (· = c) E) {idx : ℤ}
    (hpanic : stripeFrom L node src r idx = none → E.guard c .panic) :
    wp E (fetchAndDecryptStripe L node r idx)
      (fun x c' => c' = c ∧ stripeFrom L node src r idx = some x.toOption) c := by
  unfold stripeFrom at hpanic ⊢
  unfold fetchAndDecryptStripe
  by_cases hneg : idx < 0
  · rw [if_pos (.inl hneg)]
    exact ⟨rfl, by rw [if_pos hneg]; rfl⟩
  rw [if_neg hneg] at hpanic
  simp only [if_neg hneg]
  cases hst : r.m.stripes[idx.toNat]? with
  | none =>
    have := List.getElem?_eq_none_iff.mp hst
    rw [if_pos (.inr (by omega))]
    exact ⟨rfl, rfl⟩
  | some st =>
    have := (List.getElem?_eq_some_iff.mp hst).1
    rw [if_neg (by omega), orPanic_some, ret_bind]
    simp only [hst] at hpanic
    simp only
    split_ifs at hpanic ⊢ with hlen hfew
    · exact ⟨rfl, rfl⟩
    -- In the two cases that are left the shards are gathered.
    all_goals
      refine wp_bind_of (wp_gatherShards_source hE _ _ _) ?_ fun _ _ h => h.elim
      rintro ⟨got, n⟩ c₁ ⟨rfl, hn, hgot⟩
      simp only [zero_add, sub_zero] at hn hgot
      have hgot' : got = firstAnswers r.m.dataShards.toNat (slotYields L node src r st) := hgot
      simp only
      subst hgot'
    · rw [if_pos (by omega)]
      exact ⟨rfl, rfl⟩
    · rw [if_neg (by omega)]
      cases hdec : Params.decode L ⟨r.m.dataShards, r.m.parityShards⟩
          (firstAnswers r.m.dataShards.toNat (slotYields L node src r st)) st.ciphertextBytes with
      | none => exact ⟨hpanic (by rw [hdec]), fun a => Empty.elim a⟩
      | some d =>
        rw [orPanic_some, ret_bind]
        cases d with
        | error e => exact ⟨rfl, rfl⟩
        | ok p =>
          simp only
          cases openAES L r.key p.2 <;> exact ⟨rfl, rfl⟩

/-- Fetching a stripe that comes to a plaintext or an error. -/
theorem wp_fetchAndDecryptStripe_text {idx : ℤ} {t : Option Bytes}
    (ht : stripeFrom L node src r idx = some t) :
    wp (readEnv src) (fetchAndDecryptStripe L node r idx) (fun x c' => c' = c ∧ x.toOption = t) c := by
  refine wp_mono (wp_fetchAndDecryptStripe_source (readsFrom_readEnv src _) fun hnone => ?_) ?_
  · rw [ht] at hnone
    cases hnone
  · rintro x c' ⟨hc, hx⟩
    exact ⟨hc, Option.some.inj (hx.symm.trans ht)⟩

end Source

/-! ## Wrong answers -/

/-- What a slot yields, against its shard. -/
inductive Outcome
  /-- The shard. -/
  | right
  /-- An error. -/
  | failed
  /-- Other bytes. -/
  | wrong
  deriving DecidableEq

/-- The outcome at a slot that should have the shard `s`. -/
def outcomeOf (s : Bytes) : Option Bytes → Outcome
  | none => .failed
  | some d => if d = s then .right else .wrong

/-- The outcomes at the slots of a stripe that should have the shards `shards`. -/
def outcomes (L : Libs) (node : Service) (src : Source) (shards : List Bytes) (r : Reader)
    (st : Stripe) : List Outcome :=
  List.zipWith outcomeOf shards (slotYields L node src r st)

/-- None of the first `k` answers is wrong. -/
def FirstRight (k : ℕ) (os : List Outcome) : Prop :=
  ∀ o ∈ (os.filter (· ≠ .failed)).take k, o = .right

/-- The number of slots that yield bytes which hash to the id of their shard. -/
def hashing (L : Libs) (node : Service) (src : Source) (r : Reader) (st : Stripe) : ℕ :=
  (slots r st).countP fun slot => (src.yields L node slot.1 slot.2).any (hashOf · = slot.1)

/-- Where what a slot yields has the hash of its shard, it is the shard. -/
def CollisionFree (L : Libs) (node : Service) (src : Source) (shards : List Bytes) (r : Reader)
    (st : Stripe) : Prop :=
  List.Forall₂ (fun s y => ∀ d, y = some d → hashOf d = hashOf s → d = s) shards
    (slotYields L node src r st)

/-- Bytes that do not hash to the id, emptied. -/
def emptied (id data : Bytes) : Bytes := if hashOf data = id then data else []

/-- The source whose wrong answers are empty. -/
def Source.silenced (src : Source) : Source where
  blocks id := (src.blocks id).map (emptied id)
  peers pid id := (src.peers pid id).map fun resp => { resp with body := emptied id resp.body }

/-- A right shard counts. -/
theorem firstRight_right {k : ℕ} {os : List Outcome} :
    FirstRight (k + 1) (.right :: os) ↔ FirstRight k os := by
  simp [FirstRight]

/-- If none of the first answers is wrong, they are some of the shards. -/
theorem someOf_firstAnswers {k : ℕ} {shards : List Bytes} {ys : List (Option Bytes)}
    (hlen : shards.length = ys.length) (h : FirstRight k (List.zipWith outcomeOf shards ys)) :
    SomeOf shards (firstAnswers k ys) := by
  induction shards generalizing k ys with
  | nil =>
    obtain rfl := List.length_eq_zero_iff.mp hlen.symm
    exact .nil
  | cons s shards ih =>
    obtain ⟨y, ys, rfl⟩ := List.exists_cons_of_length_eq_add_one hlen.symm
    simp only [List.length_cons, add_left_inj] at hlen
    rw [List.zipWith_cons_cons] at h
    cases k with
    | zero =>
      rw [firstAnswers_zero]
      exact someOf_none (by simpa using hlen)
    | succ k =>
      cases y with
      | none => exact .cons (.inl rfl) (ih hlen h)
      | some d =>
        by_cases hd : d = s
        · rw [outcomeOf, if_pos hd] at h
          exact .cons (.inr (congrArg some hd)) (ih hlen (firstRight_right.mp h))
        · rw [outcomeOf, if_neg hd] at h
          exact absurd (h .wrong (by simp)) (by decide)

/-- If one of the first answers is wrong, and wrong answers are empty, too few shards are left. -/
theorem countP_firstAnswers_lt {k : ℕ} {shards : List Bytes} {ys : List (Option Bytes)}
    (hys : List.Forall₂ (fun s y => ∀ d, y = some d → d = s ∨ d = []) shards ys)
    (h : ¬ FirstRight k (List.zipWith outcomeOf shards ys)) :
    (firstAnswers k ys).countP (fun y => y.any (!·.isEmpty)) < k := by
  induction hys generalizing k with
  | nil => exact absurd (by simp [FirstRight]) h
  | @cons s y shards ys hy hys ih =>
    rw [List.zipWith_cons_cons] at h
    cases k with
    | zero => exact absurd (by simp [FirstRight]) h
    | succ k =>
      cases y with
      | none => simpa [firstAnswers] using ih h
      | some d =>
        by_cases hd : d = s
        · rw [outcomeOf, if_pos hd, firstRight_right] at h
          have := ih h
          rw [firstAnswers, List.countP_cons]
          split_ifs <;> omega
        · -- The wrong answer takes the place of a shard.
          obtain rfl : d = [] := (hy d rfl).resolve_left hd
          have hle : (firstAnswers k ys).countP (fun y => y.any (!·.isEmpty)) ≤
              present (firstAnswers k ys) :=
            List.countP_mono_left (by rintro (_ | d) - <;> simp)
          rw [present_firstAnswers] at hle
          rw [firstAnswers, List.countP_cons]
          simp only [Option.any_some, List.isEmpty_nil, Bool.not_true, Bool.false_eq_true, if_false]
          omega

/-- As many slots have an answer as have the right one. -/
theorem count_right_le_present (shards : List Bytes) (ys : List (Option Bytes)) :
    (List.zipWith outcomeOf shards ys).count .right ≤ present ys := by
  induction shards generalizing ys with
  | nil => simp
  | cons s shards ih =>
    cases ys with
    | nil => simp
    | cons y ys =>
      have := ih ys
      rw [List.zipWith_cons_cons, List.count_cons, present_cons]
      cases y with
      | none => simpa [outcomeOf] using this
      | some d =>
        simp only [Option.isSome_some, if_true]
        split_ifs <;> omega

section Slots

variable {L : Libs} {node : Service} {src : Source}

/-- What a slot yields if the wrong answers are empty. -/
theorem yields_silenced (shardID holder : Bytes) :
    src.silenced.yields L node shardID holder =
      (src.yields L node shardID holder).map (emptied shardID) := by
  simp only [Source.yields, Source.silenced]
  cases src.blocks shardID with
  | ok data => rfl
  | error e =>
    simp only [Except.map]
    split_ifs with hself
    · rfl
    cases L.peerDecode holder with
    | error e => rfl
    | ok pid =>
      simp only
      cases src.peers pid shardID with
      | error e => rfl
      | ok resp =>
        simp only
        split_ifs <;> rfl

/-- A slot has the id of its shard, and what it yields with that hash is the shard. -/
def Identified (L : Libs) (node : Service) (src : Source) (s : Bytes) (slot : Bytes × Bytes) : Prop :=
  slot.1 = hashOf s ∧ ∀ d, src.yields L node slot.1 slot.2 = some d → hashOf d = hashOf s → d = s

variable {s : Bytes} {slot : Bytes × Bytes}

/-- The answer that hashes to the id is the right one. -/
theorem Identified.any_iff (h : Identified L node src s slot) :
    (src.yields L node slot.1 slot.2).any (hashOf · = slot.1) = true ↔
      outcomeOf s (src.yields L node slot.1 slot.2) = .right := by
  obtain ⟨hid, hcoll⟩ := h
  cases hy : src.yields L node slot.1 slot.2 with
  | none => simp [outcomeOf]
  | some d =>
    have : hashOf d = slot.1 ↔ d = s := by
      rw [hid]
      exact ⟨hcoll d hy, congrArg hashOf⟩
    by_cases hd : d = s
    · simp [outcomeOf, hd, hid]
    · simp [outcomeOf, this, hd]

/-- If the wrong answers are empty, a slot yields its shard or nothing, and the outcome is the same. -/
theorem Identified.silenced (h : Identified L node src s slot) (hs : s ≠ []) :
    outcomeOf s (src.silenced.yields L node slot.1 slot.2) =
        outcomeOf s (src.yields L node slot.1 slot.2) ∧
      ∀ d, src.silenced.yields L node slot.1 slot.2 = some d → d = s ∨ d = [] := by
  obtain ⟨hid, hcoll⟩ := h
  rw [yields_silenced]
  cases hy : src.yields L node slot.1 slot.2 with
  | none => exact ⟨rfl, fun d hd => absurd hd (by simp)⟩
  | some d =>
    by_cases hd : d = s
    · have he : emptied slot.1 d = d := if_pos (by rw [hid, hd])
      rw [Option.map_some, he]
      exact ⟨rfl, fun d' hd' => .inl (Option.some.inj hd' ▸ hd)⟩
    · have he : emptied slot.1 d = [] := if_neg (by rw [hid]; exact fun hh => hd (hcoll d hy hh))
      rw [Option.map_some, he]
      refine ⟨?_, fun d' hd' => .inr (Option.some.inj hd').symm⟩
      rw [outcomeOf, outcomeOf, if_neg (Ne.symm hs), if_neg hd]

variable {shards : List Bytes} {r : Reader} {st : Stripe}

/-- The slots of a stripe, each with its shard. -/
theorem CollisionFree.identified (h : CollisionFree L node src shards r st)
    (hids : st.shardIDs = shards.map hashOf) :
    List.Forall₂ (Identified L node src) shards (slots r st) := by
  unfold CollisionFree slotYields at h
  rw [List.forall₂_map_right_iff] at h
  unfold slots at h ⊢
  rw [hids] at h ⊢
  clear hids
  generalize r.m.holders = hs at h ⊢
  induction shards generalizing hs with
  | nil => exact .nil
  | cons s shards ih =>
    cases hs with
    | nil => cases h
    | cons holder hs =>
      obtain ⟨hslot, hrest⟩ := List.forall₂_cons.mp h
      exact .cons ⟨rfl, hslot⟩ (ih hs hrest)

/-- The slots whose answers hash to the id are those with the right answer. -/
theorem hashing_eq (h : List.Forall₂ (Identified L node src) shards (slots r st)) :
    hashing L node src r st = (outcomes L node src shards r st).count .right := by
  unfold hashing outcomes slotYields
  generalize slots r st = sls at h
  induction h with
  | nil => rfl
  | @cons s slot shards sls hslot _ ih =>
    rw [List.countP_cons, List.map_cons, List.zipWith_cons_cons, List.count_cons, ih]
    simp only [beq_iff_eq, hslot.any_iff]

/-- If the wrong answers are empty, the outcomes are the same, and a slot yields its shard or nothing. -/
theorem outcomes_silenced (h : List.Forall₂ (Identified L node src) shards (slots r st))
    (hne : ∀ s ∈ shards, s ≠ []) :
    outcomes L node src.silenced shards r st = outcomes L node src shards r st ∧
      List.Forall₂ (fun s y => ∀ d, y = some d → d = s ∨ d = []) shards
        (slotYields L node src.silenced r st) := by
  unfold outcomes slotYields
  generalize slots r st = sls at h
  induction h with
  | nil => exact ⟨rfl, .nil⟩
  | @cons s slot shards sls hslot _ ih =>
    obtain ⟨hout, hyield⟩ := hslot.silenced (hne s (List.mem_cons_self ..))
    obtain ⟨houts, hyields⟩ := ih fun s' hs' => hne s' (List.mem_cons_of_mem _ hs')
    refine ⟨?_, .cons hyield hyields⟩
    simp only [List.map_cons, List.zipWith_cons_cons]
    rw [hout, houts]

end Slots

/-! ## The stripe of a file -/

section File

variable {L : Libs} {svc node : Service} {src : Source} {r : Reader} {data : Bytes}
  {orig : ℕ → List Bytes} {j : ℕ} {st : Stripe}

/-- If the first answers of a stripe of the file are some of its shards, it comes back. -/
theorem ReaderOf.stripeFrom_of_someOf (hR : L.rs.Mds) (hA : L.aead.Correct)
    (hof : ReaderOf L svc data orig r) (hst : r.m.stripes[j]? = some st)
    (hk : r.m.dataShards ≤ present (slotYields L node src r st))
    (hsome : SomeOf (orig j) (firstAnswers r.m.dataShards.toNat (slotYields L node src r st))) :
    stripeFrom L node src r j = some (some (svc.chunkAt data j)) := by
  obtain ⟨nonce, hnonce, henc, -, hct⟩ := hof.coded hst
  obtain ⟨hids, hholders⟩ := hof.lengths hR hA hst
  have hpresent := present_firstAnswers r.m.dataShards.toNat (slotYields L node src r st)
  have hdec := Params.decode_encode hR (sealedAES_ne_nil hA hnonce _) henc
    (svc.allocatable_sealed hA hnonce _ _ _) hsome (by rw [← hof.dataShards_eq]; omega)
  unfold stripeFrom
  rw [if_neg (by omega), Int.toNat_natCast, hst]
  simp only
  rw [if_neg (by omega), if_neg (by omega), hof.params_eq, hct, hdec]
  simp only [openAES_sealedAES hA hof.length_key hnonce]
  rfl

/-- If too few of the first answers of a stripe are more than nothing, it is an error. -/
theorem ReaderOf.stripeFrom_of_few (hR : L.rs.Mds) (hA : L.aead.Correct) (hN : L.rs.NeedsData)
    (hof : ReaderOf L svc data orig r) (hst : r.m.stripes[j]? = some st)
    (hfew : ((firstAnswers r.m.dataShards.toNat (slotYields L node src r st)).countP
      (fun y => y.any (!·.isEmpty)) : ℤ) < r.m.dataShards) :
    stripeFrom L node src r j = some none := by
  obtain ⟨nonce, hnonce, henc, -, hct⟩ := hof.coded hst
  obtain ⟨hids, hholders⟩ := hof.lengths hR hA hst
  obtain ⟨-, -, hnew, -⟩ := Params.encodes_of_encode hR (sealedAES_ne_nil hA hnonce _) henc
  obtain ⟨e, he⟩ := hN _ _ _ hnew (hof.dataShards_eq ▸ hfew)
  obtain ⟨e', hdec⟩ := Params.decode_of_reconstruct hnew he st.ciphertextBytes
  unfold stripeFrom
  rw [if_neg (by omega), Int.toNat_natCast, hst]
  simp only
  rw [if_neg (by omega), hof.params_eq, hof.dataShards_eq, hdec]
  split_ifs <;> rfl

variable {s s' : NodeState} {filename : Bytes} {body : Body} {opts : PutOptions} {m : Manifest}
  {evs : List NodeEvent}

/-- Let at least `DataShards` slots of a stripe that was put yield bytes which hash to the id of their
shard. Whatever the other slots yield in place of their shards, the stripe comes back, if and only if
none of the first `DataShards` answers in the order of the slots is wrong. -/
theorem fetchAndDecryptStripe_tolerant_iff (hR : L.rs.Mds) (hN : L.rs.NeedsData)
    (hA : L.aead.Correct) (hB : L.box.Correct)
    (hput : Steps nodeEnv s (put L svc filename body opts) evs s' (ret m))
    (hopen : Opened L svc node opts s m r) (hst : r.m.stripes[j]? = some st)
    (hcoll : CollisionFree L node src (originalShards svc evs j) r st)
    (hk : r.m.dataShards ≤ hashing L node src r st) :
    (∀ src', outcomes L node src' (originalShards svc evs j) r st =
        outcomes L node src (originalShards svc evs j) r st →
      ∀ c, Computes (readEnv src') c (fetchAndDecryptStripe L node r j)
        (svc.chunkAt body.data j)) ↔
      FirstRight r.m.dataShards.toNat (outcomes L node src (originalShards svc evs j) r st) := by
  obtain ⟨-, hof⟩ := hopen.readerOf hR hA hB hput
  have hids := hopen.shardIDs_eq hR hA hB hput hst
  have hident := hcoll.identified hids
  rw [hashing_eq hident] at hk
  constructor
  · -- Otherwise the source whose wrong answers are empty leaves too few shards.
    intro h
    by_contra hwrong
    obtain ⟨nonce, hnonce, henc, -, -⟩ := hof.coded hst
    obtain ⟨hpos, -, -, hcode⟩ :=
      Params.encodes_of_encode hR (sealedAES_ne_nil hA hnonce _) henc
    obtain ⟨houts, hyields⟩ := outcomes_silenced hident hcode.nonempty
    rw [← houts] at hwrong
    have hfew := countP_firstAnswers_lt hyields hwrong
    have hnone : stripeFrom L node src.silenced r j = some none := by
      refine hof.stripeFrom_of_few hR hA hN hst ?_
      have := hof.dataShards_eq
      omega
    obtain ⟨evs', c', hsteps⟩ := h src.silenced houts (.new 0) _ _ _ (.refl _ _)
    have := wp_steps hsteps (wp_fetchAndDecryptStripe_text hnone)
    exact absurd this.2 (by simp [Except.toOption])
  · intro hright src' houts c
    have hk' : r.m.dataShards ≤ present (slotYields L node src' r st) := by
      have := count_right_le_present (originalShards svc evs j) (slotYields L node src' r st)
      have heq : (outcomes L node src' (originalShards svc evs j) r st).count .right =
        (outcomes L node src (originalShards svc evs j) r st).count .right := by rw [houts]
      unfold outcomes at heq hk
      omega
    have hlen : (originalShards svc evs j).length = (slotYields L node src' r st).length := by
      obtain ⟨h1, h2⟩ := hof.lengths hR hA hst
      have h3 := congrArg List.length hids
      rw [List.length_map] at h3
      unfold slotYields slots
      rw [List.length_map, List.length_zip]
      omega
    rw [← houts] at hright
    -- The first answers are original shards, and there are enough of them.
    have hback := hof.stripeFrom_of_someOf hR hA hst hk' (someOf_firstAnswers hlen hright)
    refine computes_of_wp (readEnv_answers src') ?_
    refine wp_mono (wp_fetchAndDecryptStripe_text hback) ?_
    rintro (e | d) c' ⟨-, hd⟩
    · exact absurd hd (by simp [Except.toOption])
    · exact Option.some.inj hd

end File

/-- A file uploaded from the sample node and opened there has one stripe, with two slots for the same
shard. -/
theorem exists_sampleStripe :
    ∃ evs s' m r st d, Steps nodeEnv sampleHome (put sampleLibs sampleService (lit "film") sampleBody
        ⟨(sampleGroup 7).id, modeShared⟩) evs s' (ret m) ∧
      Opened sampleLibs sampleService sampleService ⟨(sampleGroup 7).id, modeShared⟩ sampleHome m r ∧
      ReaderOf sampleLibs sampleService sampleBody.data (originalShards sampleService evs) r ∧
      r.m.stripes[0]? = some st ∧ originalShards sampleService evs 0 = [d, d] ∧
      slots r st = [(hashOf d, lit "alice"), (hashOf d, lit "bob")] := by
  obtain ⟨evs, s', m, r, hput, hopen, hholders⟩ := exists_sampleOpened
    (show endOfFile (some sampleBody.term) = true from rfl) (show sampleBody.data ≠ [] by decide)
  obtain ⟨-, hof⟩ := hopen.readerOf sampleRs_mds sampleAead_correct sampleBox_correct hput
  have hlen : 0 < r.m.stripes.length := by
    rw [hof.length_stripes]
    decide
  have hst := List.getElem?_eq_getElem hlen
  obtain ⟨d, -, horig⟩ := hof.sampleShards hst
  have hids := hopen.shardIDs_eq sampleRs_mds sampleAead_correct sampleBox_correct hput hst
  refine ⟨evs, s', m, r, _, d, hput, hopen, hof, hst, horig, ?_⟩
  unfold slots
  rw [hids, horig, hholders]
  rfl

/-- Alice sends nothing in place of a shard, the others the bytes `d`. -/
def emptyFromAlice (d : Bytes) : Source where
  blocks _ := .error errBlockNotFound
  peers pid _ := .ok { ok := true, body := if pid = lit "alice" then [] else d }

/-- One of two slots has the shard and one shard is enough, but the stripe does not come back: the other
slot is the first, and its holder sends an empty answer. -/
theorem sampleHome_misled :
    ∃ evs s' m r st src, Steps nodeEnv sampleHome (put sampleLibs sampleService (lit "film") sampleBody
        ⟨(sampleGroup 7).id, modeShared⟩) evs s' (ret m) ∧
      Opened sampleLibs sampleService sampleService ⟨(sampleGroup 7).id, modeShared⟩ sampleHome m r ∧
      r.m.stripes[0]? = some st ∧ r.m.dataShards ≤ hashing sampleLibs sampleService src r st ∧
      ∀ c evs' c' d,
        ¬ Steps (readEnv src) c (fetchAndDecryptStripe sampleLibs sampleService r 0) evs' c' (ret d) := by
  obtain ⟨evs, s', m, r, st, d, hput, hopen, hof, hst, -, hslots⟩ := exists_sampleStripe
  have hk : r.m.dataShards = 1 := hof.dataShards_eq
  have hyields : slotYields sampleLibs sampleService (emptyFromAlice d) r st = [some [], some d] := by
    unfold slotYields
    rw [hslots]
    rfl
  refine ⟨evs, s', m, r, st, emptyFromAlice d, hput, hopen, hst, ?_, ?_⟩
  · -- Bob's answer is the shard.
    have hcount : 1 ≤ hashing sampleLibs sampleService (emptyFromAlice d) r st := by
      refine List.countP_pos_iff.mpr ⟨(hashOf d, lit "bob"), by simp [hslots], ?_⟩
      have : (emptyFromAlice d).yields sampleLibs sampleService (hashOf d) (lit "bob") = some d := rfl
      simp [this]
    omega
  · -- Alice's comes first, and is not enough.
    have hnone : stripeFrom sampleLibs sampleService (emptyFromAlice d) r (0 : ℕ) = some none := by
      refine hof.stripeFrom_of_few sampleRs_mds sampleAead_correct sampleRs_needsData hst ?_
      rw [hyields, hk]
      simp [firstAnswers]
    intro c evs' c' d' hsteps
    have := wp_steps hsteps (wp_fetchAndDecryptStripe_text hnone)
    exact absurd this.2 (by simp [Except.toOption])

/-- Where all slots have their shard, the stripe comes back. -/
theorem sampleHome_not_misled :
    ∃ evs s' m r st src, Steps nodeEnv sampleHome (put sampleLibs sampleService (lit "film") sampleBody
        ⟨(sampleGroup 7).id, modeShared⟩) evs s' (ret m) ∧
      Opened sampleLibs sampleService sampleService ⟨(sampleGroup 7).id, modeShared⟩ sampleHome m r ∧
      r.m.stripes[0]? = some st ∧ r.m.dataShards ≤ hashing sampleLibs sampleService src r st ∧
      ∀ c, Computes (readEnv src) c (fetchAndDecryptStripe sampleLibs sampleService r 0) [1, 2, 3] := by
  obtain ⟨evs, s', m, r, st, d, hput, hopen, hof, hst, horig, hslots⟩ := exists_sampleStripe
  let src : Source := ⟨fun _ => .ok d, fun _ _ => .error .eof⟩
  have hyields : slotYields sampleLibs sampleService src r st = [some d, some d] := by
    unfold slotYields
    rw [hslots]
    rfl
  have hcoll : CollisionFree sampleLibs sampleService src (originalShards sampleService evs 0) r st := by
    unfold CollisionFree
    rw [hyields, horig]
    exact .cons (fun d' h _ => (Option.some.inj h).symm)
      (.cons (fun d' h _ => (Option.some.inj h).symm) .nil)
  have hk : r.m.dataShards ≤ hashing sampleLibs sampleService src r st := by
    unfold hashing
    rw [hslots, show r.m.dataShards = 1 from hof.dataShards_eq]
    simp [Source.yields, src]
  have hright : FirstRight r.m.dataShards.toNat (outcomes sampleLibs sampleService src
      (originalShards sampleService evs 0) r st) := by
    intro o ho
    have hmem := List.mem_of_mem_filter (List.mem_of_mem_take ho)
    unfold outcomes at hmem
    rw [hyields, horig] at hmem
    simpa [outcomeOf] using hmem
  refine ⟨evs, s', m, r, st, src, hput, hopen, hst, hk, ?_⟩
  exact (fetchAndDecryptStripe_tolerant_iff sampleRs_mds sampleRs_needsData sampleAead_correct
    sampleBox_correct hput hopen hst hcoll hk).mpr hright src rfl

end FnShare
