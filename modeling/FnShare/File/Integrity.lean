import FnShare.File.Malformed

/-!
# What a tampered manifest can make of a file

The stripes of a file are sealed one by one, each under the key of the file and with nothing of its place. A
manifest that keeps the wrapped key can name them in any order, under any stripe size and total size. Where
AES-GCM is ideal, a stripe that opens has one of the texts that `Put` has sealed under the key (`SealedBy`);
which one, and where it stands, is up to the manifest.

`readAt_integrity_iff` says when all reads return the bytes of the file or an error: every sealed text that
the shards of a stripe are put together to, and every text that the cache holds under its index, agrees with
the file from the place of the stripe on, and reaches to its end. The cache is part of the condition because
it is shared by all readers of the file id, whatever their manifests.
-/

namespace FnShare

open Prog

section Bytes

variable {L : Libs} {node : Service} {src : Source} {r : Reader} {held : ℕ → Bytes → Prop} {c : StripeCache}
  {P : Prop} {data : Bytes}

/-! ## The texts of the stripes -/

variable (L node src r) in
/-- The ciphertext that the first answers of a stripe are put together to. -/
def AssemblesTo (st : Stripe) (ct : Bytes) : Prop :=
  (st.shardIDs.length : ℤ) = wrap64 (r.m.dataShards + r.m.parityShards) ∧
  (r.m.holders.length : ℤ) = wrap64 (r.m.dataShards + r.m.parityShards) ∧
  r.m.dataShards ≤ present (firstAnswers r.m.dataShards.toNat (slotYields L node src r st)) ∧
  ∃ full, Params.decode L ⟨r.m.dataShards, r.m.parityShards⟩
    (firstAnswers r.m.dataShards.toNat (slotYields L node src r st)) st.ciphertextBytes =
      some (.ok (full, ct))

/-- A stripe has a text if it is put together to a ciphertext that opens to it. -/
theorem stripeFrom_eq_text_iff {i : ℕ} {st : Stripe} (hst : r.m.stripes[i]? = some st) {d : Bytes} :
    stripeFrom L node src r i = some (some d) ↔
      ∃ ct, AssemblesTo L node src r st ct ∧ openAES L r.key ct = .ok d := by
  unfold stripeFrom AssemblesTo
  rw [if_neg (by omega), Int.toNat_natCast, hst]
  simp only
  constructor
  · intro h
    split_ifs at h with hlen hfew
    · cases h
    · cases h
    push Not at hlen
    cases hdec : Params.decode L ⟨r.m.dataShards, r.m.parityShards⟩
        (firstAnswers r.m.dataShards.toNat (slotYields L node src r st)) st.ciphertextBytes with
    | none => simp [hdec] at h
    | some x =>
      rcases x with e | ⟨full, ct⟩
      · simp [hdec] at h
      · simp only [hdec, Option.some.injEq] at h
        exact ⟨ct, ⟨hlen.1, hlen.2, not_lt.mp hfew, full, rfl⟩, toOption_eq_some.mp h⟩
  · rintro ⟨ct, ⟨h₁, h₂, h₃, full, hdec⟩, hopen⟩
    rw [if_neg (by omega), if_neg (by omega), hdec]
    simp [hopen, Except.toOption]

variable (L node src r held) in
/-- The texts of the stripes stand in their places in the data. Each place up to the end of the file has a
stripe. Its text, and whatever the cache may hold of it, reaches to the end of the place, and agrees with the
data as far as it is in the file. -/
def TextsInPlace (text : Stripe → Bytes → Prop) (data : Bytes) : Prop :=
  0 < r.m.size → r.m.stripeDataSize ≠ 0 ∧ ∀ i : ℕ, i * |r.m.stripeDataSize| < r.m.size →
    (0 < r.m.stripeDataSize ∨ i = 0) → ∃ st, r.m.stripes[i]? = some st ∧
      (Assembles L node src r st → Allocatable st.ciphertextBytes) ∧
      ∀ d, held i d ∨ text st d →
        min |r.m.stripeDataSize| (r.m.size - i * |r.m.stripeDataSize|) ≤ d.length ∧
        d.take (r.m.size - i * |r.m.stripeDataSize|).toNat <+: data.drop (i * |r.m.stripeDataSize|).toNat

variable (L node src r) in
/-- The text that a stripe opens to. -/
def OpensTo (st : Stripe) (d : Bytes) : Prop :=
  ∃ ct, AssemblesTo L node src r st ct ∧ openAES L r.key ct = .ok d

/-- A read at this offset gives bytes of the data, or an error, if its stripe comes to `t`. -/
def Reader.RightBy (r : Reader) (data : Bytes) (v : ℤ) (t : Option (Option Bytes)) : Prop :=
  r.m.stripeDataSize ≠ 0 ∧ r.stripeIdx v < r.m.stripes.length ∧
    ∃ x, t = some x ∧ ∀ d, x = some d → r.inStart v < d.length ∧
      (d.drop (r.inStart v).toNat).take (r.m.size - v).toNat <+: data.drop v.toNat

variable (L node src r held data) in
/-- A read at this offset gives bytes of the data, or an error, whatever its stripe comes to. -/
def RightAt (v : ℤ) : Prop :=
  ∀ t, ComesTo L node src r held (r.stripeIdx v) t → r.RightBy data v t

/-- A text that stands in its place is right at every offset of the place. -/
theorem prefix_of_place {d : Bytes} {place size q : ℤ} (h₀ : 0 ≤ place) (hq : 0 ≤ q)
    (h : d.take (size - place).toNat <+: data.drop place.toNat) :
    (d.drop q.toNat).take (size - (place + q)).toNat <+: data.drop (place + q).toNat := by
  have hdrop := h.drop q.toNat
  rw [List.drop_take, List.drop_drop] at hdrop
  convert hdrop using 2 <;> omega

/-- Reads are right at every offset of the file if and only if the texts stand in their places. -/
theorem textsInPlace_iff_rightAt (hsize : r.m.size < 2^63) :
    TextsInPlace L node src r held (OpensTo L node src r) data ↔
      ∀ v, 0 ≤ v → v < r.m.size → RightAt L node src r held data v := by
  constructor
  · intro hplaces v h₀ hv t ht
    obtain ⟨hw, hstripes⟩ := hplaces (by omega)
    by_cases hneg : r.stripeIdx v < 0
    · rcases ht with rfl | ⟨i, d, hi, -⟩
      · exact ⟨hw, by omega, none, by rw [stripeFrom, if_pos hneg], by simp⟩
      · omega
    obtain ⟨i, q, rfl, hq₀, hq₁, hi⟩ := Reader.exists_place hw h₀ (by omega) (not_lt.mp hneg)
    obtain ⟨hplace, hstart⟩ := Reader.turn_of_place hw hi hq₀ hq₁ (by omega)
    obtain ⟨st, hst, hct, htext⟩ := hstripes i (by omega) hi
    refine ⟨hw, by rw [hplace]; exact_mod_cast (List.getElem?_eq_some_iff.mp hst).1, ?_⟩
    have hplace₀ : 0 ≤ (i : ℤ) * |r.m.stripeDataSize| := by positivity
    rw [hplace] at ht
    rw [hstart]
    -- What stands in the place is right at the offset.
    refine (comesTo_iff hst _).mpr ⟨hct, fun d hd => ?_⟩ t ht
    obtain ⟨hlen, hpre⟩ := htext d (hd.imp_right (stripeFrom_eq_text_iff hst).mp)
    exact ⟨by omega, prefix_of_place hplace₀ hq₀ hpre⟩
  · intro hright hpos
    have hw := (hright 0 le_rfl hpos _ (.inl rfl)).1
    refine ⟨hw, fun i hi hsign => ?_⟩
    have hpos : 0 < |r.m.stripeDataSize| := abs_pos.mpr hw
    have hplace₀ : 0 ≤ (i : ℤ) * |r.m.stripeDataSize| := by positivity
    -- The first byte of the place of the stripe, and the last.
    obtain ⟨hfirst, hstart⟩ := Reader.turn_of_place hw hsign (q := 0) le_rfl hpos (by omega)
    rw [add_zero] at hfirst hstart
    obtain ⟨q, hq⟩ : ∃ q, q = min |r.m.stripeDataSize| (r.m.size - i * |r.m.stripeDataSize|) - 1 := ⟨_, rfl⟩
    obtain ⟨hlast, hend⟩ := Reader.turn_of_place hw hsign (q := q) (by omega) (by omega) (by omega)
    have hboth : ∀ t, ComesTo L node src r held i t → ∃ x, t = some x ∧ ∀ d, x = some d → q < d.length ∧
        d.take (r.m.size - i * |r.m.stripeDataSize|).toNat <+: data.drop
          (i * |r.m.stripeDataSize|).toNat := by
      intro t ht
      obtain ⟨-, -, x, rfl, htext⟩ := hright (i * |r.m.stripeDataSize|) hplace₀ hi t (by rwa [hfirst])
      obtain ⟨-, -, x', hx', htext'⟩ := hright (i * |r.m.stripeDataSize| + q) (by omega) (by omega) _
        (by rwa [hlast])
      refine ⟨x, rfl, fun d hd => ⟨?_, ?_⟩⟩
      · rw [← hend]
        exact (htext' d (Option.some.inj hx' ▸ hd)).1
      · have hpre := (htext d hd).2
        rw [hstart] at hpre
        simpa using hpre
    obtain ⟨-, hin, -⟩ := hright _ hplace₀ hi _ (.inl rfl)
    rw [hfirst] at hin
    have hst : r.m.stripes[i]? = some _ := List.getElem?_eq_getElem (by omega)
    obtain ⟨hct, htext⟩ := (comesTo_iff hst _).mp hboth
    refine ⟨_, hst, hct, fun d hd => ?_⟩
    obtain ⟨hlen, hpre⟩ := htext d (hd.imp_right (stripeFrom_eq_text_iff hst).mpr)
    exact ⟨by omega, hpre⟩

/-! ## What a read gives -/

/-- Where reads are right, the loop gives the bytes of the data up to its end, or an error. -/
theorem wp_readLoopAt_right {size : ℕ} {stop cur : ℤ} {written : Bytes} (h₀ : 0 ≤ cur) (h₁ : stop < 2^63)
    (hstop : stop ≤ r.m.size) (hsize : written.length + (stop - cur) ≤ size)
    (hright : ∀ v, cur ≤ v → v < stop → RightAt L node src r held data v)
    (hc : CacheAgrees L node src r held c) :
    wp (panicEnv src False) (readLoopAt L node r size stop cur written)
      (returns fun x _ => x.2 = none → ∃ more, x.1 = written ++ more ∧ more.length = (stop - cur).toNat ∧
        more <+: data.drop cur.toNat) c := by
  -- The induction is on what is left of the range.
  induction hn : (stop - cur).toNat using Nat.strongRecOn generalizing cur written c with
  | ind n ih =>
    unfold readLoopAt
    by_cases hlt : cur < stop
    · obtain ⟨hw, hidx, t, ht, htext⟩ := hright cur le_rfl hlt _ (hc.comesTo (wrap64_range _))
      rw [if_pos hlt, if_neg hw, if_neg (by omega), wp_bind, wp_attempt]
      refine wp_mono (wp_stripeBytes_source (wrap64_range _) (fun hnone => ?_) hc) ?_
      · rw [ht] at hnone
        cases hnone
      rintro (e | d) c' ⟨hc', hd⟩
      · simp
      simp only [andThen_ok]
      obtain ⟨hlen, hpre⟩ := htext d (Option.some.inj (ht.symm.trans hd))
      have hstart : 0 ≤ r.inStart cur := Reader.inStart_nonneg h₀ (by omega) hw
      have hwant : r.want stop cur d.length = min (stop - cur) (d.length - r.inStart cur) := by
        rw [Reader.want, wrap64_of_range (by omega) (by omega)]
      obtain ⟨k, hk⟩ : ∃ k : ℕ, r.want stop cur d.length = k := ⟨_, (Int.toNat_of_nonneg (by omega)).symm⟩
      rw [if_neg (by omega), if_neg (by omega), hk, Int.toNat_natCast]
      -- What is copied is as much of the data.
      have hpart : ((d.drop (r.inStart cur).toNat).take k).length = k := by
        rw [List.length_take, List.length_drop]
        omega
      have hcopy : (d.drop (r.inStart cur).toNat).take k <+: data.drop cur.toNat := by
        refine List.IsPrefix.trans ?_ hpre
        exact List.take_prefix_take_left (by omega)
      refine wp_mono (ih (stop - (cur + k)).toNat (by omega) (by omega) ?_ ?_ hc' rfl) ?_
      · rw [List.length_append, hpart]
        omega
      · intro v hv hv'
        exact hright v (by omega) hv'
      rintro (e | x) c'' hx
      · exact hx.elim
      intro hnone
      obtain ⟨more, hmore, hlen', hpre'⟩ := hx hnone
      refine ⟨_, hmore.trans (List.append_assoc ..), ?_, ?_⟩
      · rw [List.length_append, hpart]
        omega
      · obtain ⟨rest, hrest⟩ := hcopy
        have hdrop : data.drop (cur + k).toNat = rest := by
          rw [show (cur + k).toNat = cur.toNat + k by omega, ← List.drop_drop, ← hrest]
          exact List.drop_left' hpart
        rw [← hrest]
        exact (List.prefix_append_right_inj _).mpr (hdrop ▸ hpre')
    · rw [if_neg hlt]
      exact fun _ => ⟨[], by simp, by simp; omega, List.nil_prefix⟩

/-- Where reads are right, a read without an error gives the bytes that it was asked for. -/
theorem wp_readAt_right {size : ℕ} {offset : ℤ} (h₀ : 0 ≤ offset) (h₁ : offset + size < 2^63)
    (hright : ∀ v, 0 ≤ v → v < r.m.size → RightAt L node src r held data v)
    (hc : CacheAgrees L node src r held c) :
    wp (panicEnv src False) (readAt L node r size offset)
      (returns fun x _ => x.2 = none → x.1 = (data.drop offset.toNat).take size ∧ x.1.length = size) c := by
  unfold readAt
  by_cases heof : r.m.size ≤ offset
  · rw [if_pos heof]
    simp
  rw [if_neg heof]
  extract_lets stop
  have hstop : stop = min (offset + size) r.m.size := by
    simp only [stop]
    rw [wrap64_of_range (by omega) (by omega)]
  refine wp_bind_returns (wp_readLoopAt_right h₀ (by omega) (by omega) (by simp only [List.length_nil]; omega)
    (fun v hv hv' => hright v (by omega) (by omega)) hc) ?_
  rintro ⟨written, err⟩ c' hx
  cases err with
  | some e => simp
  | none =>
    obtain ⟨more, hmore, hlen, hpre⟩ := hx rfl
    obtain rfl : written = more := hmore
    simp only
    have hwrap : wrap64 (offset + written.length) = offset + written.length :=
      wrap64_of_range (by omega) (by omega)
    rw [hwrap]
    split_ifs with hshort
    · simp
    · have hfull : written.length = size := by omega
      refine fun _ => ⟨?_, hfull⟩
      rw [← hfull]
      exact List.prefix_iff_eq_take.mp hpre

/-- A read within the text of a stripe gives that part of it. -/
theorem wp_readAt_within {size : ℕ} {offset : ℤ} {d : Bytes} (h₀ : 0 ≤ offset) (hpos : 0 < size)
    (hend : offset + size ≤ r.m.size) (hsize : r.m.size < 2^63) (hw : r.m.stripeDataSize ≠ 0)
    (hidx : r.stripeIdx offset < r.m.stripes.length) (hin : r.inStart offset + size ≤ d.length)
    {I : StripeCache → Prop}
    (hd : wp (panicEnv src P) (stripeBytes L node r (r.stripeIdx offset))
      (returns fun d' c' => I c' ∧ d = d') c) :
    wp (panicEnv src P) (readAt L node r size offset)
      (returns fun x c' => I c' ∧ x = ((d.drop (r.inStart offset).toNat).take size, none)) c := by
  unfold readAt
  rw [if_neg (by omega)]
  extract_lets stop
  have hstop : stop = offset + size := by
    simp only [stop]
    rw [wrap64_of_range (by omega) (by omega)]
    omega
  have hstart : 0 ≤ r.inStart offset := Reader.inStart_nonneg h₀ (by omega) hw
  have hpart : ((d.drop (r.inStart offset).toNat).take size).length = size := by
    rw [List.length_take, List.length_drop]
    omega
  refine wp_bind_returns (P := fun x c' => I c' ∧ x = ((d.drop (r.inStart offset).toNat).take size, none)) ?_
    ?_
  · unfold readLoopAt
    rw [if_pos (by omega), if_neg hw, if_neg (by omega), wp_bind, wp_attempt]
    refine wp_mono hd ?_
    rintro (e | d') c' hx
    · exact hx.elim
    obtain ⟨hc', rfl⟩ := hx
    have hwant : r.want stop offset d.length = size := by
      rw [Reader.want, wrap64_of_range (by omega) (by omega)]
      omega
    simp only [andThen_ok]
    rw [hwant, if_neg (by simp only [List.length_nil]; omega), if_neg (by omega), Int.toNat_natCast]
    -- The second turn finds the range done.
    unfold readLoopAt
    rw [if_neg (by omega), List.nil_append]
    exact ⟨hc', rfl⟩
  · rintro _ c' ⟨hc', rfl⟩
    simp only
    rw [hpart, if_neg fun h => absurd h.1 (lt_irrefl _)]
    exact ⟨hc', rfl⟩

/-- Over any source whose answers are fixed, and with any cache that has of the file only what its stripes
come to and texts that are `held`, every read returns, and those without an error return the bytes of the data
that they were asked for, if and only if the texts of the stripes stand in their places. -/
theorem readAt_right_iff (hsize : r.m.size < 2^63) :
    (∀ c, CacheAgrees L node src r held c → ∀ (offset : ℤ) (size : ℕ), 0 ≤ offset → offset + size < 2^63 →
      Completes (readEnv src) c (readAt L node r size offset) ∧
      ∀ evs c' written, Steps (readEnv src) c (readAt L node r size offset) evs c' (ret (written, none)) →
        written = (data.drop offset.toNat).take size ∧ written.length = size) ↔
      TextsInPlace L node src r held (OpensTo L node src r) data := by
  rw [textsInPlace_iff_rightAt hsize]
  constructor
  · intro hall v h₀ hv t ht
    -- The cache that has the text in question.
    obtain ⟨c, hc, rfl⟩ := ht.exists_cache (wrap64_range _).2
    have hall := hall c hc
    -- A read of one byte returns, and with an error or a byte.
    obtain ⟨hreturns, hbyte⟩ := hall v 1 h₀ (by omega)
    obtain ⟨evs, c', x, hsteps⟩ := hreturns [] c _ (.refl _ _)
    have hnext : wrap64 (v + (1 : ℕ)) = v + 1 := wrap64_of_range (by omega) (by omega)
    have hcovered := ((wp_steps (steps_panicEnv True hsteps)
      (wp_readAt_source 1 h₀ hsize (fun _ _ _ _ => trivial) hc)).2.2 hv (by omega)).1
    have hprog : r.GoesOn v (stripeIn L node src r c (r.stripeIdx v)) := by
      by_contra hno
      obtain ⟨-, rfl⟩ := wp_steps (steps_panicEnv True hsteps)
        (wp_readAt_nothing h₀ hv hsize hcovered.1 (by norm_num) hc fun h => hno h.2)
      exact absurd (hbyte evs c' [] hsteps).2 (by simp)
    obtain ⟨t, ht, hreach⟩ := hcovered.2 hprog.1
    refine ⟨hcovered.1, hprog.1, t, ht, ?_⟩
    rintro d rfl
    have hle := hreach d rfl
    have hne := hprog.2 d ht
    refine ⟨by omega, ?_⟩
    have hstart : 0 ≤ r.inStart v := Reader.inStart_nonneg h₀ (by omega) hcovered.1
    -- A read of what the text has from there on gives it.
    obtain ⟨n, hn⟩ : ∃ n : ℕ, (n : ℤ) = min (d.length - r.inStart v) (r.m.size - v) :=
      ⟨_, Int.toNat_of_nonneg (by omega)⟩
    obtain ⟨hreturns, hbytes⟩ := hall v n h₀ (by omega)
    obtain ⟨evs, c', x, hsteps⟩ := hreturns [] c _ (.refl _ _)
    obtain ⟨-, rfl⟩ := wp_steps (steps_panicEnv True hsteps) (wp_readAt_within h₀ (by omega) (by omega) hsize
      hcovered.1 hprog.1 (by omega) (wp_stripeBytes_text ht hc))
    have htake : (d.drop (r.inStart v).toNat).take (r.m.size - v).toNat =
        (d.drop (r.inStart v).toNat).take n := by
      rw [List.take_eq_take_iff, List.length_drop]
      omega
    rw [htake, (hbytes evs c' _ hsteps).1]
    exact List.take_prefix _ _
  · intro hright c hc offset size h₀ h₁
    have hwp := wp_readAt_right (L := L) h₀ h₁ hright hc
    refine ⟨completes_of_wp (readEnv_answers src) (wp_mono (wp_readEnv_of_panicEnv hwp) ?_), ?_⟩
    · rintro (e | x) c' hx
      · exact hx.elim
      · trivial
    · intro evs c' written hsteps
      exact wp_steps (steps_panicEnv False hsteps) hwp rfl

/-- Only the texts matter that the stripes of the manifest have. -/
theorem textsInPlace_congr {text text' : Stripe → Bytes → Prop}
    (h : ∀ st ∈ r.m.stripes, ∀ d, text st d ↔ text' st d) :
    TextsInPlace L node src r held text data ↔ TextsInPlace L node src r held text' data := by
  suffices himp : ∀ {text text' : Stripe → Bytes → Prop}, (∀ st ∈ r.m.stripes, ∀ d, text' st d → text st d) →
      TextsInPlace L node src r held text data → TextsInPlace L node src r held text' data from
    ⟨himp fun st hst d => (h st hst d).mpr, himp fun st hst d => (h st hst d).mp⟩
  intro text text' hsub hplaces hpos
  obtain ⟨hw, hstripes⟩ := hplaces hpos
  refine ⟨hw, fun i hi hsign => ?_⟩
  obtain ⟨st, hst, hct, htext⟩ := hstripes i hi hsign
  exact ⟨st, hst, hct, fun d hd => htext d (hd.imp_right (hsub st (List.mem_of_getElem? hst) d))⟩

end Bytes

/-! ## A file whose manifest was tampered with -/

/-- A reader of the file `m` by a manifest of which the file id, the group, the mode and the wrapped key are
those of the file, and the rest can be anything. It was opened by a node that is entitled to the file. -/
structure Tampered (L : Libs) (svc node : Service) (opts : PutOptions) (s : NodeState) (m : Manifest)
    (r : Reader) : Prop where
  fileID_eq : r.m.fileID = m.fileID
  groupID_eq : r.m.groupID = m.groupID
  mode_eq : r.m.mode = m.mode
  wrappedKey_eq : r.m.wrappedKey = m.wrappedKey
  opened : ∃ t evs t', Steps nodeEnv t (openReader L node m.fileID) evs t' (ret r) ∧
    Entitled L svc node opts s t m

/-- What the upload has sealed under the key of the file: the parts of the data, and the name of a private
file. -/
def SealedBy (L : Libs) (svc : Service) (filename data : Bytes) (evs : List NodeEvent) (m : Manifest)
    (key ct text : Bytes) : Prop :=
  ∃ nonce : Bytes, nonce.length = gcmNonceSize ∧ ct = sealedAES L key nonce text ∧
    ((∃ j < m.stripes.length, text = svc.chunkAt data j ∧
        svc.params.encode L ct = .ok (originalShards svc evs j)) ∨
      (m.mode = modePrivate ∧ text = filename ∧ m.filename = Base64.encode ct))

/-- Nobody else has sealed anything under the key, and AES-GCM is ideal: what the shards of a stripe are put
together to was sealed by the upload, or does not open. -/
def Unforged (L : Libs) (svc node : Service) (filename data : Bytes) (evs : List NodeEvent) (m : Manifest)
    (src : Source) (r : Reader) : Prop :=
  ∀ st ∈ r.m.stripes, ∀ ct text, AssemblesTo L node src r st ct → openAES L r.key ct = .ok text →
    ∃ text', SealedBy L svc filename data evs m r.key ct text'

section File

variable {L : Libs} {svc node : Service} {filename : Bytes} {body : Body} {opts : PutOptions}
  {s s' : NodeState} {evs : List NodeEvent} {m : Manifest} {r : Reader} {src : Source}
  {held : ℕ → Bytes → Prop}

/-- The reader has the key of the file. -/
theorem Tampered.key_eq (hR : L.rs.Mds) (hA : L.aead.Correct) (hB : L.box.Correct)
    (hput : Steps nodeEnv s (put L svc filename body opts) evs s' (ret m))
    (hr : Tampered L svc node opts s m r) :
    ∃ u : Upload, evs = u.before ++ u.during ++ u.after ∧ u.Made L svc filename body opts m ∧
      r.key = u.key := by
  obtain ⟨u, hevs, hu, hgroup⟩ := uploaded_of_put hR hA hput
  obtain ⟨t, evs', t', hsteps, hent⟩ := hr.opened
  obtain ⟨-, g, hg, hkey⟩ := wp_steps (hsteps.traced _ [])
    (wp_openReader (fun _ _ _ _ => trivial) fun _ _ _ _ => trivial)
  exact ⟨u, hevs, hu, hent.unwrap hA hB hu hgroup hr.groupID_eq hr.mode_eq hr.wrappedKey_eq hg hkey⟩

/-- After `Put` has succeeded, let the manifest be tampered with in all but the file id, the group, the mode
and the wrapped key, and the shards in every way that forges no ciphertext. Let the cache have of the file
what its stripes come to, and texts that are `held`. All reads return, and those without an error return the
bytes of the body that they were asked for, if and only if the sealed texts that the stripes are put together
to, and the texts that are held, stand in their places. -/
theorem readAt_integrity_iff (hR : L.rs.Mds) (hA : L.aead.Correct) (hB : L.box.Correct)
    (hput : Steps nodeEnv s (put L svc filename body opts) evs s' (ret m))
    (hr : Tampered L svc node opts s m r) (hsize : r.m.size < 2^63)
    (hunforged : Unforged L svc node filename body.data evs m src r) :
    (∀ c, CacheAgrees L node src r held c → ∀ (offset : ℤ) (size : ℕ), 0 ≤ offset → offset + size < 2^63 →
      Completes (readEnv src) c (readAt L node r size offset) ∧
      ∀ evs c' written, Steps (readEnv src) c (readAt L node r size offset) evs c' (ret (written, none)) →
        written = (body.data.drop offset.toNat).take size ∧ written.length = size) ↔
      TextsInPlace L node src r held (fun st text => ∃ ct, AssemblesTo L node src r st ct ∧
        SealedBy L svc filename body.data evs m r.key ct text) body.data := by
  obtain ⟨u, -, hu, hkey⟩ := hr.key_eq hR hA hB hput
  have hlen : r.key.length = fileKeySize := hkey ▸ hu.length_key
  rw [readAt_right_iff hsize]
  refine textsInPlace_congr fun st hst d => ?_
  constructor
  · rintro ⟨ct, hct, hopen⟩
    obtain ⟨text, nonce, hnonce, rfl, htext⟩ := hunforged st hst ct d hct hopen
    -- What was sealed opens to what was sealed.
    obtain rfl : text = d := Except.ok.inj ((openAES_sealedAES hA hlen hnonce text).symm.trans hopen)
    exact ⟨_, hct, nonce, hnonce, rfl, htext⟩
  · rintro ⟨ct, hct, nonce, hnonce, rfl, -⟩
    exact ⟨_, hct, openAES_sealedAES hA hlen hnonce d⟩

end File

/-! ## A stripe left out -/

/-- The first answers of a stripe that are some of its shards are put together to its ciphertext. -/
theorem assemblesTo_iff_of_encode {L : Libs} {node : Service} {src : Source} {r : Reader} {st : Stripe}
    {shards : List Bytes} {ct : Bytes} (hR : L.rs.Mds) (hne : ct ≠ []) (halloc : Allocatable ct.length)
    (henc : Params.encode L ⟨r.m.dataShards, r.m.parityShards⟩ ct = .ok shards)
    (hids : st.shardIDs.length = shards.length) (hholders : r.m.holders.length = shards.length)
    (hbytes : st.ciphertextBytes = ct.length) (hk : r.m.dataShards ≤ present (slotYields L node src r st))
    (hsome : SomeOf shards (firstAnswers r.m.dataShards.toNat (slotYields L node src r st))) (ct' : Bytes) :
    AssemblesTo L node src r st ct' ↔ ct' = ct := by
  obtain ⟨-, -, hnew, hcode⟩ := Params.encodes_of_encode hR hne henc
  have hle : r.m.dataShards + r.m.parityShards ≤ 65536 := hR.total_le _ _ hnew
  have hlen : (shards.length : ℤ) = r.m.dataShards + r.m.parityShards := hcode.length_eq
  have hpresent := present_firstAnswers r.m.dataShards.toNat (slotYields L node src r st)
  have hdec := Params.decode_encode hR hne henc halloc hsome (by simp only; omega)
  have hwrap : wrap64 (r.m.dataShards + r.m.parityShards) = r.m.dataShards + r.m.parityShards :=
    wrap64_of_range (by omega) (by omega)
  unfold AssemblesTo
  rw [hwrap, hbytes, hdec, hids, hholders]
  constructor
  · rintro ⟨-, -, -, full, h⟩
    simp only [Option.some.injEq, Except.ok.injEq, Prod.mk.injEq] at h
    exact h.2.symm
  · rintro rfl
    exact ⟨hlen, hlen, by omega, _, rfl⟩

section Sample

variable {net : Bytes → Request → Except GoErr Response} {body : Body} {evs : List NodeEvent} {s' : NodeState}
  {m : Manifest} {u : Upload} (h : SampleUpload net (lit "film") body evs s' m u)

include h

/-- The manifest of a file uploaded from the sample node, with another size and without its first stripes, is
read there with the key of the file. -/
theorem SampleUpload.tampered (size : ℤ) (n : ℕ) : ∃ r : Reader,
    r.m = ({ m with size := size, stripes := m.stripes.drop n } : Manifest).norm ∧ r.key = u.key ∧
    Tampered sampleLibs sampleService sampleService ⟨(sampleGroup 7).id, modeShared⟩ sampleHome m r := by
  have htext : ({ m with size := size, stripes := m.stripes.drop n } : Manifest).validText = true := by
    have hm : m.validText = true := h.validText_eq.trans (by decide)
    simp only [Manifest.validText, Bool.and_eq_true, List.all_eq_true] at hm ⊢
    exact ⟨⟨⟨hm.1.1.1, fun st hst => hm.1.1.2 st (List.mem_of_mem_drop hst)⟩, hm.1.2⟩, hm.2⟩
  obtain ⟨hg, a, b, r, hopens, hr, hkey⟩ := h.opens
    (show ({ m with size := size, stripes := m.stripes.drop n } : Manifest).groupID = _ from rfl)
      rfl rfl htext rfl
  refine ⟨r, hr, hkey, ?_, ?_, ?_, ?_, _, _, _, hopens, ?_, ?_⟩
  · rw [hr]; rfl
  · rw [hr]; rfl
  · rw [hr]; rfl
  · rw [hr]; rfl
  · exact fun _ => ⟨sampleGroup 7, sampleGroup 7, sampleHome_ready.resolved, hg, rfl⟩
  · intro hprivate
    rw [h.wrapped.1] at hprivate
    exact absurd hprivate (by decide)

/-- With the sealed part of the data in the place of its shards, a stripe is put together to it and to nothing
else, and it was sealed by the upload. -/
theorem SampleUpload.assembles {size : ℤ} {n j : ℕ} {st : Stripe} (hst : m.stripes[j]? = some st)
    {r : Reader} (hr : r.m = ({ m with size := size, stripes := m.stripes.drop n } : Manifest).norm)
    (hkey : r.key = u.key) :
    ∃ ct, openAES sampleLibs r.key ct = .ok (sampleService.chunkAt body.data j) ∧
      SealedBy sampleLibs sampleService (lit "film") body.data evs m r.key ct
        (sampleService.chunkAt body.data j) ∧
      ∀ ct', AssemblesTo sampleLibs sampleService (constSource ct) r st ct' ↔ ct' = ct := by
  obtain ⟨nonce, hnonce, henc, hids, hbytes⟩ := h.made.stripe sampleRs_mds sampleAead_correct h.evs_eq hst
  rw [← hkey] at henc hbytes
  have hlen : r.key.length = fileKeySize := hkey ▸ h.made.length_key
  have hne : sealedAES sampleLibs r.key nonce (sampleService.chunkAt body.data j) ≠ [] :=
    sealedAES_ne_nil sampleAead_correct hnonce _
  have halloc := sampleService.allocatable_sealed (L := sampleLibs) sampleAead_correct
    hnonce r.key body.data j
  have hshards := Except.ok.inj (henc.symm.trans (encode_sampleService hne))
  have hparams : (⟨r.m.dataShards, r.m.parityShards⟩ : Params) = sampleService.params := by
    rw [hr]
    exact congrArg₂ Params.mk h.made.dataShards_eq h.made.parityShards_eq
  have hk : r.m.dataShards = 1 := congrArg Params.dataShards hparams
  have hholders : r.m.holders.length = 2 := by
    rw [hr]
    exact h.length_holders
  refine ⟨_, openAES_sealedAES sampleAead_correct hlen hnonce _,
    ⟨nonce, hnonce, rfl, .inl ⟨j, (List.getElem?_eq_some_iff.mp hst).1, rfl, henc⟩⟩, ?_⟩
  generalize sealedAES sampleLibs r.key nonce (sampleService.chunkAt body.data j) = ct at *
  have hyields : slotYields sampleLibs sampleService (constSource ct) r st = List.replicate 2 (some ct) := by
    have hslots : (slots r st).length = 2 := by
      rw [slots, List.length_zip, hids, hshards, List.length_map, hholders]
      rfl
    rw [← hslots]
    exact List.map_const' ..
  refine assemblesTo_iff_of_encode sampleRs_mds hne halloc (hparams ▸ encode_sampleService hne) ?_
    ?_ hbytes ?_ ?_
  · rw [hids, hshards, List.length_map]
  · rw [hholders, List.length_replicate]
  · rw [hyields, hk]
    simp [present]
  · rw [hyields, hk]
    exact .cons (.inr rfl) (.cons (.inl rfl) .nil)

end Sample

/-- The first turn of a read from the start of a file. -/
theorem Reader.turn_zero {r : Reader} (hw : r.m.stripeDataSize ≠ 0) :
    r.stripeIdx 0 = 0 ∧ r.inStart 0 = 0 := by
  obtain ⟨hidx, hstart⟩ := Reader.turn_eq (r := r) le_rfl (by decide) hw
  exact ⟨hidx.trans (Int.zero_ediv _), hstart.trans (Int.zero_emod _)⟩

/-- The reader by the manifest without the first of two stripes, and with half the size: the text of the
second stripe is that of its first place. -/
theorem SampleUpload.exists_halved {net : Bytes → Request → Except GoErr Response} {evs : List NodeEvent}
    {s' : NodeState} {m : Manifest} {u : Upload} (h : SampleUpload net (lit "film") twoStripes evs s' m u) :
    ∃ r ct, r.m = ({ m with size := 4, stripes := m.stripes.drop 1 } : Manifest).norm ∧
      Tampered sampleLibs sampleService sampleService ⟨(sampleGroup 7).id, modeShared⟩ sampleHome m r ∧
      r.m.stripeDataSize = 4 ∧ r.m.stripes.length = 1 ∧
      Unforged sampleLibs sampleService sampleService (lit "film") twoStripes.data evs m (constSource ct) r ∧
      stripeFrom sampleLibs sampleService (constSource ct) r 0 = some (some [5, 6, 7, 8]) := by
  obtain ⟨r, hr, hkey, htampered⟩ := h.tampered 4 1
  have hlen : m.stripes.length = 2 := h.made.stripes.length_eq
  obtain ⟨first, second, hstripes⟩ := List.length_eq_two.mp hlen
  obtain ⟨ct, hopen, hsealed, hasm⟩ := h.assembles
    (show m.stripes[1]? = some second by rw [hstripes]; rfl) hr hkey
  have hrest : r.m.stripes = [second] := by
    rw [hr]
    change m.stripes.drop 1 = _
    rw [hstripes]
    rfl
  refine ⟨r, ct, hr, htampered, ?_, by rw [hrest]; rfl, ?_, ?_⟩
  · rw [hr]
    exact h.made.stripeDataSize_eq
  · intro st hst ct' text hct' _
    rw [hrest, List.mem_singleton] at hst
    subst hst
    rw [(hasm ct').mp hct']
    exact ⟨_, hsealed⟩
  · exact (stripeFrom_eq_text_iff (i := 0) (by rw [hrest]; rfl)).mpr ⟨ct, (hasm ct).mpr rfl, hopen⟩

/-- A read of the first four bytes by a manifest of stripes of four bytes gives the text that its first stripe
comes to. -/
theorem exists_steps_readFirst (src : Source) {r : Reader} {d : Bytes} {c : StripeCache}
    {I : StripeCache → Prop} (hw : r.m.stripeDataSize = 4) (hstripes : 0 < r.m.stripes.length)
    (hsize : 4 ≤ r.m.size) (hmax : r.m.size < 2^63) (hlen : d.length = 4)
    (hd : wp (panicEnv src False) (stripeBytes sampleLibs sampleService r (r.stripeIdx 0))
      (returns fun d' c' => I c' ∧ d = d') c) :
    ∃ evs c', Steps (readEnv src) c (readAt sampleLibs sampleService r 4 0) evs c'
      (ret (d, none)) ∧ I c' := by
  obtain ⟨hidx, hstart⟩ := Reader.turn_zero (r := r) (by omega)
  have hwp := wp_readAt_within le_rfl (show 0 < 4 by decide) (by simpa using hsize) hmax (by omega)
    (by rw [hidx]; exact_mod_cast hstripes) (by rw [hstart, hlen]; decide) hd
  obtain ⟨evs, c', x, hsteps, hx⟩ := wp_exists (readEnv_answers _) (wp_readEnv_of_panicEnv hwp)
  cases x with
  | error e => exact hx.elim
  | ok x =>
    obtain ⟨hc', rfl⟩ := hx
    rw [hstart, Int.toNat_zero, List.drop_zero, ← hlen, List.take_length] at hsteps
    exact ⟨evs, c', hlen ▸ hsteps, hc'⟩

/-- Without the first stripe in the manifest, and with half the size, a read at the start of the file returns
the second half of it, and no error. -/
theorem twoStripes_misread :
    ∃ evs s' m r src evs' c', Steps nodeEnv sampleHome (put sampleLibs sampleService (lit "film") twoStripes
        ⟨(sampleGroup 7).id, modeShared⟩) evs s' (ret m) ∧
      Tampered sampleLibs sampleService sampleService ⟨(sampleGroup 7).id, modeShared⟩ sampleHome m r ∧
      r.m = ({ m with size := 4, stripes := m.stripes.drop 1 } : Manifest).norm ∧
      Unforged sampleLibs sampleService sampleService (lit "film") twoStripes.data evs m src r ∧
      Steps (readEnv src) (.new 0) (readAt sampleLibs sampleService r 4 0) evs' c'
        (ret ([5, 6, 7, 8], none)) ∧
      (twoStripes.data.drop 0).take 4 = [1, 2, 3, 4] := by
  obtain ⟨evs, s', m, u, h⟩ := exists_sampleUpload (fun p _ => deliverable_allAck p)
    (show endOfFile (some twoStripes.term) = true from rfl) (show twoStripes.data ≠ [] by decide) (lit "film")
  obtain ⟨r, ct, hr, htampered, hw, hlen, hunforged, htext⟩ := h.exists_halved
  have hsize : r.m.size = 4 := by
    rw [hr]
    rfl
  obtain ⟨hidx, -⟩ := Reader.turn_zero (r := r) (by omega)
  -- The text of the second stripe is read in the place of the first.
  have hagrees : CacheAgrees sampleLibs sampleService (constSource ct) r (fun _ _ => False) (.new 0) := .new 0
  obtain ⟨evs', c', hread, -⟩ := exists_steps_readFirst (constSource ct) hw (by omega) hsize.ge (by omega) rfl
    (wp_stripeBytes_text (stripeIn_new.trans (by rw [hidx]; exact htext)) hagrees)
  exact ⟨evs, s', m, r, _, evs', c', h.put, htampered, hr, hunforged, hread, rfl⟩

/-! ## A cache that was read into by another manifest -/

/-- A read by the manifest without the first stripe leaves the text of the second one in the cache, under the
index of the first. A read by the manifest of the file, with all shards of the first stripe at hand, then
returns it. -/
theorem twoStripes_poisoned :
    ∃ evs s' m r bad src bytes c evs' c', Steps nodeEnv sampleHome (put sampleLibs sampleService (lit "film")
        twoStripes ⟨(sampleGroup 7).id, modeShared⟩) evs s' (ret m) ∧
      Opened sampleLibs sampleService sampleService ⟨(sampleGroup 7).id, modeShared⟩ sampleHome m r ∧
      Tampered sampleLibs sampleService sampleService ⟨(sampleGroup 7).id, modeShared⟩ sampleHome m bad ∧
      bad.m = ({ m with size := 4, stripes := m.stripes.drop 1 } : Manifest).norm ∧
      (readers sampleLibs sampleService fun n => n.r = bad).Reach (.new 8) c
        [(⟨bad, (constSource bytes).answers⟩, ret ([5, 6, 7, 8], none))] ∧
      Readable sampleLibs sampleService src (originalShards sampleService evs) r 0 ∧
      Steps (readEnv src) c (readAt sampleLibs sampleService r 4 0) evs' c' (ret ([5, 6, 7, 8], none)) ∧
      (twoStripes.data.drop 0).take 4 = [1, 2, 3, 4] := by
  obtain ⟨evs, s', m, u, h⟩ := exists_sampleUpload (fun p _ => deliverable_allAck p)
    (show endOfFile (some twoStripes.term) = true from rfl) (show twoStripes.data ≠ [] by decide) (lit "film")
  obtain ⟨bad, ct, hbad, htampered, hw, hlen, -, htext⟩ := h.exists_halved
  obtain ⟨r, hopen, -⟩ := h.opened (show [lit "alice", lit "bob"].length = 2 from rfl) (by decide)
  obtain ⟨hfile, hof⟩ := hopen.readerOf sampleRs_mds sampleAead_correct sampleBox_correct h.put
  have hsize : r.m.size = 8 := hof.size_eq
  have hw' : r.m.stripeDataSize = 4 := hof.stripeDataSize_eq
  have hlen' : r.m.stripes.length = 2 := hof.length_stripes
  have hsize' : bad.m.size = 4 := by
    rw [hbad]
    rfl
  obtain ⟨src, hreadable⟩ := hof.exists_readable (show 0 < r.m.stripes.length by omega)
  obtain ⟨key, hkey⟩ := exists_cacheKey m.fileID (show -2^63 ≤ (0 : ℤ) ∧ (0 : ℤ) < 2^63 by decide)
  obtain ⟨hidx, -⟩ := Reader.turn_zero (r := bad) (by omega)
  obtain ⟨hidx', -⟩ := Reader.turn_zero (r := r) (by omega)
  -- The first read leaves the text of the second stripe in the cache.
  have hbadKey : cacheKey bad.m.fileID (bad.stripeIdx 0) = some key := by
    rw [hidx, htampered.fileID_eq]
    exact hkey
  obtain ⟨evs₁, c, hread, rfl⟩ :=
    exists_steps_readFirst (constSource ct) (c := .new 8) hw (by omega) hsize'.ge
    (by omega) rfl (wp_stripeBytes_new hbadKey (by rw [hidx]; exact htext))
  -- The second one finds it there.
  have hin : stripeIn sampleLibs sampleService (constSource src) r ((StripeCache.new 8).put key [5, 6, 7, 8])
      (r.stripeIdx 0) = some (some [5, 6, 7, 8]) := by
    unfold stripeIn
    rw [hidx', hfile, hkey, Option.bind_some, StripeCache.lookup_put_new (by decide)]
  obtain ⟨evs₂, c', hread', -⟩ := exists_steps_readFirst (constSource src) hw' (by omega) (by omega)
    (by omega) rfl (wp_stripeBytes_text hin
      (cacheAgrees_heldFirst _ _ _ 8 (by rw [hfile]; exact hkey)))
  have hreach : (readers sampleLibs sampleService fun n => n.r = bad).Reach (.new 8)
      ((StripeCache.new 8).put key [5, 6, 7, 8])
      [(⟨bad, (constSource ct).answers⟩, ret ([5, 6, 7, 8], none))] := by
    refine reach_readers .init ?_ hread
    exact rfl
  exact ⟨evs, s', m, r, bad, _, ct, _, evs₂, c', h.put, hopen, htampered, hbad, hreach,
    hreadable, hread', rfl⟩

/-! ## Stripes in their places -/

/-- With all stripes in their places, reads return the bytes of the file, also with a longer text of the
stripe in the cache. -/
theorem sampleBody_integrity :
    ∃ evs s' m r src key c, Steps nodeEnv sampleHome (put sampleLibs sampleService (lit "film") sampleBody
        ⟨(sampleGroup 7).id, modeShared⟩) evs s' (ret m) ∧
      Tampered sampleLibs sampleService sampleService ⟨(sampleGroup 7).id, modeShared⟩ sampleHome m r ∧
      cacheKey m.fileID 0 = some key ∧ c.lookup key = some [1, 2, 3, 9] ∧
      Completes (readEnv src) c (readAt sampleLibs sampleService r 2 1) ∧
      ∀ evs c' written, Steps (readEnv src) c (readAt sampleLibs sampleService r 2 1) evs c'
        (ret (written, none)) → written = [2, 3] := by
  obtain ⟨evs, s', m, u, h⟩ := exists_sampleUpload (fun p _ => deliverable_allAck p)
    (show endOfFile (some sampleBody.term) = true from rfl) (show sampleBody.data ≠ [] by decide) (lit "film")
  obtain ⟨r, hr, hkey, htampered⟩ := h.tampered 3 0
  have hlen : m.stripes.length = 1 := h.made.stripes.length_eq
  obtain ⟨st, hstripes⟩ := List.length_eq_one_iff.mp hlen
  obtain ⟨ct, hopen, hsealed, hasm⟩ := h.assembles
    (show m.stripes[0]? = some st by rw [hstripes]; rfl) hr hkey
  obtain ⟨key, c, hcached, hlook, hc⟩ :=
    exists_heldFirst sampleLibs sampleService (constSource ct) r [1, 2, 3, 9]
  have hall : r.m.stripes = [st] := by
    rw [hr]
    exact hstripes
  have hw : r.m.stripeDataSize = 4 := by
    rw [hr]
    exact h.made.stripeDataSize_eq
  have hsize : r.m.size = 3 := by
    rw [hr]
    rfl
  have hunforged : Unforged sampleLibs sampleService sampleService (lit "film") sampleBody.data evs m
      (constSource ct) r := by
    intro st' hst' ct' text hct' _
    rw [hall, List.mem_singleton] at hst'
    subst hst'
    rw [(hasm ct').mp hct']
    exact ⟨_, hsealed⟩
  have hread := (readAt_integrity_iff sampleRs_mds sampleAead_correct sampleBox_correct
    h.put htampered (by omega)
    hunforged).mpr ?_ c hc 1 2 (by decide) (by decide)
  · exact ⟨evs, s', m, r, _, key, c, h.put, htampered, htampered.fileID_eq ▸ hcached, hlook, hread.1,
      fun evs c' written hsteps => (hread.2 evs c' written hsteps).1⟩
  · have htext : stripeFrom sampleLibs sampleService (constSource ct) r (0 : ℕ) = some (some [1, 2, 3]) :=
      (stripeFrom_eq_text_iff (by rw [hall]; rfl)).mpr ⟨ct, (hasm ct).mpr rfl, hopen⟩
    refine fun _ => ⟨by omega, fun i hi _ => ?_⟩
    obtain rfl : i = 0 := by
      rw [hw, hsize, abs_of_pos (by decide)] at hi
      omega
    refine ⟨st, by rw [hall]; rfl, fun hasm' => ?_, ?_⟩
    · by_contra hneg
      rw [(stripeFrom_eq_none_iff (by rw [hall]; rfl)).mpr ⟨hasm', hneg⟩] at htext
      cases htext
    rw [hw, hsize]
    rintro d (⟨-, rfl⟩ | ⟨ct', hct', nonce, hnonce, hd, -⟩)
    · decide
    · -- What is sealed has one text.
      rw [(hasm ct').mp hct'] at hd
      rw [hd, openAES_sealedAES sampleAead_correct (hkey ▸ h.made.length_key) hnonce] at hopen
      rw [Except.ok.inj hopen]
      decide

end FnShare
