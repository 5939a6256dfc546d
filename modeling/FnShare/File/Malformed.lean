import FnShare.File.Turns

/-!
# Reading by a manifest that fits nothing

A manifest comes from any peer, and nothing checks that its numbers fit each other or the stripes. What
`ReadAt` and `Read` make of such a manifest is settled by the texts that its stripes can come to: what the
source makes of them, and what the cache has under the same file id and index, from reads by this manifest or
another.

`ReadAt` returns data or an error at every offset if and only if the manifest fits (`readAt_completes_iff`):
the stripe size is not zero, every stripe whose shards can be put together has a size that can be allocated,
and no text of it, fetched or cached, ends before the last byte but one of its place in the file.

`Read` gives something or an error if and only if its offset is in a stripe that is there and that does not
end at the offset, and the end of the buffer does not overflow (`read_progresses_iff`). Otherwise it returns
without an error what `io.Copy` waits for a change of: nothing.
-/

namespace FnShare

open Prog

section Malformed

variable {L : Libs} {node : Service} {src : Source} {r : Reader} {held : ℕ → Bytes → Prop} {c : StripeCache}
  {P : Prop}

/-! ## The stripes -/

variable (L node src r) in
/-- The shards of a stripe are gathered and can be put together. -/
def Assembles (st : Stripe) : Prop :=
  (st.shardIDs.length : ℤ) = wrap64 (r.m.dataShards + r.m.parityShards) ∧
  (r.m.holders.length : ℤ) = wrap64 (r.m.dataShards + r.m.parityShards) ∧
  r.m.dataShards ≤ present (firstAnswers r.m.dataShards.toNat (slotYields L node src r st)) ∧
  (⟨r.m.dataShards, r.m.parityShards⟩ : Params).Decodable L
    (firstAnswers r.m.dataShards.toNat (slotYields L node src r st))

/-- A stripe is a panic if it is put together and its size cannot be allocated. -/
theorem stripeFrom_eq_none_iff {i : ℕ} {st : Stripe} (hst : r.m.stripes[i]? = some st) :
    stripeFrom L node src r i = none ↔ Assembles L node src r st ∧ ¬ Allocatable st.ciphertextBytes := by
  unfold stripeFrom Assembles
  rw [if_neg (by omega), Int.toNat_natCast, hst]
  simp only
  by_cases hlen : (st.shardIDs.length : ℤ) ≠ wrap64 (r.m.dataShards + r.m.parityShards) ∨
      (r.m.holders.length : ℤ) ≠ wrap64 (r.m.dataShards + r.m.parityShards)
  · rw [if_pos hlen]
    constructor
    · intro h
      cases h
    · rintro ⟨⟨h₁, h₂, -⟩, -⟩
      omega
  rw [if_neg hlen]
  by_cases hfew : (present (firstAnswers r.m.dataShards.toNat (slotYields L node src r st)) : ℤ) <
      r.m.dataShards
  · rw [if_pos hfew]
    constructor
    · intro h
      cases h
    · rintro ⟨⟨-, -, h₃, -⟩, -⟩
      omega
  rw [if_neg hfew]
  have hdec : (Params.decode L ⟨r.m.dataShards, r.m.parityShards⟩
      (firstAnswers r.m.dataShards.toNat (slotYields L node src r st)) st.ciphertextBytes = none) ↔ _ :=
    Params.decode_eq_none_iff
  push Not at hlen
  rw [and_assoc, and_assoc, and_assoc, and_iff_right hlen.1, and_iff_right hlen.2,
    and_iff_right (not_lt.mp hfew), ← hdec]
  split <;> simp_all

/-! ## A read that completes -/

variable (L node src r held) in
/-- The manifest fits the texts of its stripes, those that the cache may hold included. A stripe has its place
in the file, which ends with the stripe size or with the file; with a stripe size below zero, only the first
one has. -/
def Fits : Prop :=
  0 < r.m.size → r.m.stripeDataSize ≠ 0 ∧ ∀ (i : ℕ) st, r.m.stripes[i]? = some st →
    i * |r.m.stripeDataSize| < r.m.size → (0 < r.m.stripeDataSize ∨ i = 0) →
    (Assembles L node src r st → Allocatable st.ciphertextBytes) ∧
    ∀ d, held i d ∨ stripeFrom L node src r i = some (some d) →
      min |r.m.stripeDataSize| (r.m.size - i * |r.m.stripeDataSize|) ≤ d.length + 1

/-- The place of an offset, by the index of its stripe. -/
theorem Reader.turn_of_place (hw : r.m.stripeDataSize ≠ 0) {i : ℕ} (hi : 0 < r.m.stripeDataSize ∨ i = 0)
    {q : ℤ} (h₀ : 0 ≤ q) (h₁ : q < |r.m.stripeDataSize|) (hmax : i * |r.m.stripeDataSize| + q < 2^63) :
    r.stripeIdx (i * |r.m.stripeDataSize| + q) = i ∧ r.inStart (i * |r.m.stripeDataSize| + q) = q := by
  have hpos : 0 < |r.m.stripeDataSize| := abs_pos.mpr hw
  have hplace : 0 ≤ (i : ℤ) * |r.m.stripeDataSize| := by positivity
  obtain ⟨hidx, hstart⟩ := Reader.turn_eq (r := r) (by omega) hmax hw
  rw [hidx, hstart]
  have huniq := (Int.ediv_emod_unique (a := i * |r.m.stripeDataSize| + q) (r := q) (q := i) hpos).mpr
    ⟨by rw [mul_comm]; omega, h₀, h₁⟩
  rw [← Int.emod_abs]
  refine ⟨?_, huniq.2⟩
  rcases hi with hi | rfl
  · rw [← abs_of_pos hi]
    simpa using huniq.1
  · rw [Nat.cast_zero, zero_mul, zero_add]
    exact Int.ediv_eq_zero_of_lt_abs h₀ h₁

/-- Every offset has its place. -/
theorem Reader.exists_place (hw : r.m.stripeDataSize ≠ 0) {v : ℤ} (h₀ : 0 ≤ v) (h₁ : v < 2^63)
    (hidx : 0 ≤ r.stripeIdx v) :
    ∃ (i : ℕ) (q : ℤ), v = i * |r.m.stripeDataSize| + q ∧ 0 ≤ q ∧ q < |r.m.stripeDataSize| ∧
      (0 < r.m.stripeDataSize ∨ i = 0) := by
  have hpos : 0 < |r.m.stripeDataSize| := abs_pos.mpr hw
  have hquot : 0 ≤ v / |r.m.stripeDataSize| := Int.ediv_nonneg h₀ hpos.le
  have hsum := Int.mul_ediv_add_emod v |r.m.stripeDataSize|
  refine ⟨(v / |r.m.stripeDataSize|).toNat, v % |r.m.stripeDataSize|, ?_, Int.emod_nonneg v hpos.ne',
    Int.emod_lt_of_pos v hpos, ?_⟩
  · rw [Int.toNat_of_nonneg hquot, mul_comm]
    exact hsum.symm
  · rcases lt_or_gt_of_ne hw with hneg | hpos'
    · -- The quotient by a negative number is not positive.
      rw [(Reader.turn_eq h₀ h₁ hw).1, ← neg_neg r.m.stripeDataSize, Int.ediv_neg, ← abs_of_neg hneg] at hidx
      omega
    · exact .inl hpos'

/-- Whatever a stripe comes to is an error or a text with a property if and only if its ciphertext can be
allocated and its texts have the property. -/
theorem comesTo_iff {i : ℕ} {st : Stripe} (hst : r.m.stripes[i]? = some st) (P : Bytes → Prop) :
    (∀ t, ComesTo L node src r held i t → ∃ x, t = some x ∧ ∀ d, x = some d → P d) ↔
      (Assembles L node src r st → Allocatable st.ciphertextBytes) ∧
        ∀ d, held i d ∨ stripeFrom L node src r i = some (some d) → P d := by
  constructor
  · intro hcomes
    refine ⟨fun hasm => ?_, fun d hd => ?_⟩
    · by_contra hct
      obtain ⟨x, hx, -⟩ := hcomes _ (.inl rfl)
      rw [(stripeFrom_eq_none_iff hst).mpr ⟨hasm, hct⟩] at hx
      cases hx
    · have hd' : ComesTo L node src r held i (some (some d)) := by
        rcases hd with hd | hd
        · exact .inr ⟨i, d, rfl, hd, rfl⟩
        · exact .inl hd.symm
      obtain ⟨x, hx, hP⟩ := hcomes _ hd'
      exact hP d (Option.some.inj hx).symm
  · rintro ⟨hct, htext⟩ t (rfl | ⟨i', d, hi', hd, rfl⟩)
    · cases hfrom : stripeFrom L node src r i with
      | none =>
        obtain ⟨hasm, hlarge⟩ := (stripeFrom_eq_none_iff hst).mp hfrom
        exact absurd (hct hasm) hlarge
      | some t =>
        refine ⟨t, rfl, ?_⟩
        rintro d rfl
        exact htext d (.inr hfrom)
    · obtain rfl : i = i' := by omega
      refine ⟨_, rfl, ?_⟩
      rintro d ⟨⟩
      exact htext d (.inl hd)

/-- Every offset of the file is covered if and only if the manifest fits. -/
theorem fits_iff_covered (hsize : r.m.size < 2^63) :
    Fits L node src r held ↔ ∀ v, 0 ≤ v → v < r.m.size → Covered L node src r held v := by
  constructor
  · intro hfits v h₀ hv t ht
    obtain ⟨hw, hstripes⟩ := hfits (by omega)
    refine ⟨hw, fun hidx => ?_⟩
    by_cases hneg : r.stripeIdx v < 0
    · -- There is no such stripe, and the cache has none.
      rcases ht with rfl | ⟨i, d, hi, -⟩
      · exact ⟨none, by rw [stripeFrom, if_pos hneg], by simp⟩
      · omega
    obtain ⟨i, q, rfl, hq₀, hq₁, hi⟩ := Reader.exists_place hw h₀ (by omega) (not_lt.mp hneg)
    obtain ⟨hplace, hstart⟩ := Reader.turn_of_place hw hi hq₀ hq₁ (by omega)
    rw [hplace] at hidx ht
    obtain ⟨st, hst⟩ : ∃ st, r.m.stripes[i]? = some st := ⟨_, List.getElem?_eq_getElem (by omega)⟩
    obtain ⟨hct, htext⟩ := hstripes i st hst (by omega) hi
    rw [hstart]
    refine (comesTo_iff hst _).mpr ⟨hct, fun d hd => ?_⟩ t ht
    have := htext d hd
    omega
  · intro hcovered hpos
    have hw := (hcovered 0 le_rfl hpos _ (.inl rfl)).1
    refine ⟨hw, fun i st hst hi hsign => ?_⟩
    have hpos : 0 < |r.m.stripeDataSize| := abs_pos.mpr hw
    have hplace₀ : 0 ≤ (i : ℤ) * |r.m.stripeDataSize| := by positivity
    have hin := (List.getElem?_eq_some_iff.mp hst).1
    -- The last byte of the place of the stripe.
    obtain ⟨q, hq⟩ : ∃ q, q = min |r.m.stripeDataSize| (r.m.size - i * |r.m.stripeDataSize|) - 1 := ⟨_, rfl⟩
    obtain ⟨hplace, hstart⟩ := Reader.turn_of_place hw hsign (q := q) (by omega) (by omega) (by omega)
    have hlast : ∀ t, ComesTo L node src r held i t → ∃ x, t = some x ∧ ∀ d, x = some d → q ≤ d.length := by
      intro t ht
      have := (hcovered (i * |r.m.stripeDataSize| + q) (by omega) (by omega) t (by rwa [hplace])).2 (by omega)
      rwa [hstart] at this
    obtain ⟨hct, htext⟩ := (comesTo_iff hst _).mp hlast
    refine ⟨hct, fun d hd => ?_⟩
    have := htext d hd
    omega

/-! ## What a read comes to -/

/-- A read panics only at an offset that is not covered. It gives no more than the file has. Where it goes on
and its end does not overflow, it gives something, or an error. -/
theorem wp_readAt_source (size : ℕ) {offset : ℤ} (h₀ : 0 ≤ offset) (hsize : r.m.size < 2^63)
    (hpanic : ∀ v, offset ≤ v → v < r.m.size → ¬ Covered L node src r held v → P)
    (hc : CacheAgrees L node src r held c) :
    wp (panicEnv src P) (readAt L node r size offset)
      (returns fun x c' => CacheAgrees L node src r held c' ∧
        (offset < r.m.size → offset + x.1.length ≤ r.m.size) ∧
        (offset < r.m.size → offset < wrap64 (offset + size) →
          r.Reaches offset (stripeIn L node src r c (r.stripeIdx offset)) ∧
          (r.GoesOn offset (stripeIn L node src r c (r.stripeIdx offset)) → x.1 ≠ [] ∨ x.2 ≠ none))) c := by
  unfold readAt
  by_cases heof : r.m.size ≤ offset
  · rw [if_pos heof]
    exact ⟨hc, fun h => absurd h (by omega), fun h => absurd h (by omega)⟩
  rw [if_neg heof]
  extract_lets stop
  have hstop : wrap64 (offset + size) ≤ offset + size := wrap64_le (by omega)
  have hend : stop ≤ r.m.size := min_le_right _ _
  refine wp_bind_returns (wp_readLoopAt_source h₀ (by omega) (by simp only [List.length_nil]; omega)
    (fun v hv hv' => hpanic v hv (by omega)) hc) ?_
  rintro ⟨written, err⟩ c' ⟨hc', ⟨more, hmore, hlen, hprog⟩, hcov⟩
  obtain rfl : written = more := hmore
  have hin : offset + (written.length : ℤ) ≤ r.m.size := by
    omega
  cases err with
  | some e =>
    refine ⟨hc', fun _ => hin, fun hlt hwrap => ⟨hcov (by omega), fun _ => .inr (by simp)⟩⟩
  | none =>
    simp only
    split_ifs
    · exact ⟨hc', fun _ => hin, fun hlt hwrap => ⟨hcov (by omega), fun _ => .inr (by simp)⟩⟩
    · exact ⟨hc', fun _ => hin, fun hlt hwrap => ⟨hcov (by omega), hprog (by omega)⟩⟩

/-- Over any source whose answers are fixed, and with any cache that has of the file only what its stripes
come to and texts that are `held`, `ReadAt` returns data or an error at every offset that is not below zero
and for every buffer, if and only if the manifest fits the texts of its stripes. -/
theorem readAt_completes_iff (hsize : r.m.size < 2^63) :
    (∀ c, CacheAgrees L node src r held c → ∀ offset size, 0 ≤ offset →
      Completes (readEnv src) c (readAt L node r size offset)) ↔ Fits L node src r held := by
  rw [fits_iff_covered hsize]
  constructor
  · -- A read of one byte that returns, with the cache that has the text in question.
    intro hall v h₀ hv t ht
    obtain ⟨c, hc, rfl⟩ := ht.exists_cache (wrap64_range _).2
    obtain ⟨evs, c', x, hsteps⟩ := hall c hc v 1 h₀ [] c _ (.refl _ _)
    have hwp := wp_readAt_source (P := True) 1 h₀ hsize (fun _ _ _ _ => trivial) hc
    have hret := wp_steps (steps_panicEnv True hsteps) hwp
    have hnext : wrap64 (v + (1 : ℕ)) = v + 1 := wrap64_of_range (by omega) (by omega)
    exact (hret.2.2 hv (by omega)).1
  · intro hcovered c hc offset size h₀
    refine completes_of_wp (readEnv_answers src) (wp_readEnv_of_panicEnv ?_)
    refine wp_mono (wp_readAt_source size h₀ hsize ?_ hc) ?_
    · intro v hv hv' hnot
      exact hnot (hcovered v (by omega) hv')
    · rintro (e | x) c' hx
      · exact hx.elim
      · trivial

/-! ## A read that makes progress -/

/-- A sequential read leaves the reader behind what it gave, which is in the file. Where it goes on and its
end does not overflow, it gives something, or an error. -/
theorem wp_read_source (size : ℕ) (h₀ : 0 ≤ r.pos) (hsize : r.m.size < 2^63)
    (hc : CacheAgrees L node src r held c) :
    wp (panicEnv src True) (read L node r size)
      (returns fun x c' => CacheAgrees L node src r held c' ∧
        (r.m.size ≤ r.pos → x.2.1 ≠ none) ∧
        (r.pos < r.m.size → x.2.2 = { r with pos := r.pos + x.1.length } ∧ r.pos + x.1.length ≤ r.m.size) ∧
        (r.pos < r.m.size → 0 < size → r.pos + size < 2^63 →
          r.GoesOn r.pos (stripeIn L node src r c (r.stripeIdx r.pos)) → x.1 ≠ [] ∨ x.2.1 ≠ none)) c := by
  unfold read
  by_cases heof : r.m.size ≤ r.pos
  · rw [if_pos heof]
    exact ⟨hc, fun _ => by simp, fun h => absurd h (by omega), fun h => absurd h (by omega)⟩
  rw [if_neg heof]
  refine wp_bind_returns (wp_readAt_source size h₀ hsize (fun _ _ _ _ => trivial) hc) ?_
  rintro ⟨written, err⟩ c' ⟨hc', hin, hprog⟩
  have hin' : r.pos + (written.length : ℤ) ≤ r.m.size := hin (by omega)
  refine ⟨hc', fun h => absurd h heof, fun _ => ⟨?_, hin'⟩, fun hlt hpos hmax => ?_⟩
  · rw [wrap64_of_range (by omega) (by omega)]
  · refine (hprog hlt ?_).2
    rw [wrap64_of_range (by omega) (by omega)]
    omega

/-- Where a read does not go on, or its end overflows, it returns nothing and no error. -/
theorem wp_readAt_nothing {size : ℕ} {offset : ℤ} (h₀ : 0 ≤ offset) (hlt : offset < r.m.size)
    (hsize : r.m.size < 2^63) (hw : r.m.stripeDataSize ≠ 0) (hbuf : (size : ℤ) < 2^63)
    (hc : CacheAgrees L node src r held c) (hno : ¬ (offset + size < 2^63 ∧
      r.GoesOn offset (stripeIn L node src r c (r.stripeIdx offset)))) :
    wp (panicEnv src P) (readAt L node r size offset)
      (returns fun x c' => CacheAgrees L node src r held c' ∧ x = ([], none)) c := by
  unfold readAt
  rw [if_neg (by omega)]
  extract_lets stop
  have hend : stop ≤ r.m.size := min_le_right _ _
  have hloop : offset < stop → ¬ r.GoesOn offset (stripeIn L node src r c (r.stripeIdx offset)) := by
    intro hlt' hprog
    refine hno ⟨?_, hprog⟩
    -- Past the largest `int64`, the end of the buffer is below zero.
    by_contra hover
    have hwrap : wrap64 (offset + size) = offset + size - 2^64 := by
      unfold wrap64
      rw [Int.bmod_eq_emod]
      split_ifs <;> omega
    have : stop ≤ wrap64 (offset + size) := min_le_left _ _
    omega
  refine wp_bind_returns (wp_readLoopAt_nothing h₀ (by omega) (by simp) hw hloop hc) ?_
  rintro x c' ⟨hc', rfl⟩
  simp only
  rw [List.length_nil, Nat.cast_zero, add_zero, wrap64_of_range (by omega) (by omega), if_neg (by omega)]
  exact ⟨hc', rfl⟩

/-- So does a sequential read, which stays where it is. -/
theorem wp_read_nothing {size : ℕ} (h₀ : 0 ≤ r.pos) (hlt : r.pos < r.m.size) (hsize : r.m.size < 2^63)
    (hw : r.m.stripeDataSize ≠ 0) (hbuf : (size : ℤ) < 2^63) (hc : CacheAgrees L node src r held c)
    (hno : ¬ (r.pos + size < 2^63 ∧ r.GoesOn r.pos (stripeIn L node src r c (r.stripeIdx r.pos)))) :
    wp (panicEnv src False) (read L node r size)
      (returns fun x c' => CacheAgrees L node src r held c' ∧ x = ([], none, r)) c := by
  unfold read
  rw [if_neg (by omega)]
  refine wp_bind_returns (wp_readAt_nothing h₀ hlt hsize hw hbuf hc hno) ?_
  rintro x c' ⟨hc', rfl⟩
  simp only
  rw [List.length_nil, Nat.cast_zero, add_zero, wrap64_of_range (by omega) (by omega)]
  exact ⟨hc', rfl⟩

/-- What `Read` is to do at its position, with a buffer of `size` bytes: the end of the buffer does not
overflow, the stripe is there, and none of the texts that it can come to ends at the position. -/
def Reader.Moves (L : Libs) (node : Service) (src : Source) (held : ℕ → Bytes → Prop)
    (size : ℕ) (r : Reader) :
    Prop :=
  r.pos + size < 2^63 ∧ Progresses L node src r held r.pos

/-! ## Copying a file -/

/-- The size of the buffer of `io.Copy`. -/
def copyBufferSize : ℕ := 32 * 1024

variable (L node) in
/-- The loop of `io.Copy` from a reader, to a writer that takes everything: what was copied, and the error.
Without an end, `none` is what it comes to when the fuel is used up. -/
def copyLoop : ℕ → Reader → Bytes → NodeM (Option (Bytes × Option GoErr))
  | 0, _, _ => return none
  | fuel + 1, r, out => do
    let (written, err, r') ← read L node r copyBufferSize
    match err with
    | some e => return some (out ++ written, if e = .eof then none else some e)
    | none => copyLoop fuel r' (out ++ written)

/-- A copy from a reader that moves at every position ends. -/
theorem wp_copyLoop {fuel : ℕ} {r : Reader} {out : Bytes} (h₀ : 0 ≤ r.pos) (hsize : r.m.size < 2^63)
    (hmoves : ∀ p, 0 ≤ p → p < r.m.size → Reader.Moves L node src held copyBufferSize { r with pos := p })
    (hfuel : (r.m.size - r.pos).toNat < fuel) (hc : CacheAgrees L node src r held c) :
    wp (panicEnv src True) (copyLoop L node fuel r out) (returns fun x _ => x ≠ none) c := by
  induction fuel generalizing r out c with
  | zero => omega
  | succ fuel ih =>
    unfold copyLoop
    refine wp_bind_returns (wp_read_source _ h₀ hsize hc) ?_
    rintro ⟨written, err, r'⟩ c' ⟨hc', heof, hnext, hprog⟩
    cases err with
    | some e => simp
    | none =>
      have hlt : r.pos < r.m.size := by
        by_contra hle
        exact heof (not_lt.mp hle) rfl
      simp only at hnext hprog
      obtain ⟨rfl, hin⟩ := hnext hlt
      obtain ⟨hmax, hgoes⟩ := hmoves r.pos h₀ hlt
      have hsome : written ≠ [] :=
        (hprog hlt (by decide) hmax (hgoes _ (hc.comesTo (wrap64_range _)))).resolve_right (by simp)
      have hlen : 0 < written.length := List.length_pos_iff.mpr hsome
      exact ih (by simp only; omega) hsize hmoves (by simp only; omega) (hc'.seek _)

/-- At a position in a file, over a stripe size of at least one, and with any cache that has of the file only
what its stripes come to and texts that are `held`, the reads with a buffer that return give something or an
error, if and only if the reader moves. If it does so at every position, a copy of the file ends. -/
theorem read_progresses_iff (hw : 1 ≤ r.m.stripeDataSize) (h₀ : 0 ≤ r.pos) (hlt : r.pos < r.m.size)
    (hsize : r.m.size < 2^63) {size : ℕ} (hpos : 0 < size) (hbuf : (size : ℤ) < 2^63) :
    ((∀ c, CacheAgrees L node src r held c → ∀ evs c' x,
        Steps (readEnv src) c (read L node r size) evs c' (ret x) → x.1 ≠ [] ∨ x.2.1 ≠ none) ↔
      r.Moves L node src held size) ∧
    ((∀ p, 0 ≤ p → p < r.m.size → Reader.Moves L node src held copyBufferSize { r with pos := p }) →
      ∀ c, CacheAgrees L node src r held c → ∀ fuel out evs c' x, (r.m.size - r.pos).toNat < fuel →
        Steps (readEnv src) c (copyLoop L node fuel r out) evs c' (ret x) → x ≠ none) := by
  refine ⟨⟨fun hall => ?_, ?_⟩, ?_⟩
  · -- A read that does not go on gives nothing, with the cache that has the text in question.
    have hgoes : ∀ c, CacheAgrees L node src r held c →
        r.pos + size < 2^63 ∧ r.GoesOn r.pos (stripeIn L node src r c (r.stripeIdx r.pos)) := by
      intro c hc
      by_contra hno
      have hwp := wp_read_nothing h₀ hlt hsize (by omega) hbuf hc hno
      obtain ⟨evs, c', x, hsteps, hx⟩ := wp_exists (readEnv_answers src) (wp_readEnv_of_panicEnv hwp)
      cases x with
      | error e => exact hx.elim
      | ok x =>
        obtain ⟨-, rfl⟩ := hx
        simpa using hall c hc evs c' _ hsteps
    refine ⟨(hgoes _ (.new 0)).1, fun t ht => ?_⟩
    obtain ⟨c, hc, rfl⟩ := ht.exists_cache (wrap64_range _).2
    exact (hgoes c hc).2
  · intro hmoves c hc evs c' x hsteps
    have hwp := wp_read_source size h₀ hsize hc
    exact (wp_steps (steps_panicEnv True hsteps) hwp).2.2.2 hlt hpos hmoves.1
      (hmoves.2 _ (hc.comesTo (wrap64_range _)))
  · intro hmoves c hc fuel out evs c' x hfuel hsteps
    exact wp_steps (steps_panicEnv True hsteps) (wp_copyLoop h₀ hsize hmoves hfuel hc)

end Malformed

/-! ## Manifests that fit, and others -/

/-- A reader by a manifest of one byte and no stripes, with the given stripe size. -/
def bareReader (stripeDataSize : ℤ) : Reader where
  m := { fileID := lit "0123456789abcdef", groupID := lit "g", filename := lit "film", size := 1,
         dataShards := 1, parityShards := 1, stripeDataSize := stripeDataSize, holders := [], stripes := [],
         createdAt := 0, ownerPeerID := lit "self", mode := modeShared, wrappedKey := [],
         filenameEncrypted := false }
  key := []
  decryptedFilename := lit "film"

/-- No block and no peer. -/
def emptySource : Source := ⟨fun _ => .error errBlockNotFound, fun _ _ => .error .eof⟩

/-- With a stripe size of zero, the read of one byte divides by zero. -/
theorem bareReader_panics : ∃ c' k, Steps (readEnv emptySource) (.new 0)
    (readAt sampleLibs sampleService (bareReader 0) 1 0) [] c' (op .panic k) := by
  have hloop : readLoopAt sampleLibs sampleService (bareReader 0) 1 1 0 [] = goPanic := by
    unfold readLoopAt
    rw [if_pos (by decide), if_pos (by decide)]
  have hstop : min (wrap64 (0 + (1 : ℕ))) (bareReader 0).m.size = 1 := by decide
  unfold readAt
  rw [if_neg (by decide), hstop]
  simp only [hloop]
  exact ⟨_, _, .refl _ _⟩

/-- A read at the start of the byte finds no stripe. -/
theorem readLoopAt_bareReader (size : ℕ) :
    readLoopAt sampleLibs sampleService (bareReader 1) size 1 0 [] = ret ([], none) := by
  unfold readLoopAt
  rw [if_pos (by decide), if_neg (by decide), if_pos (by decide)]

/-- With no stripes, a read returns nothing and no error, and a copy of the file has not ended after any
number of reads. -/
theorem bareReader_spins : read sampleLibs sampleService (bareReader 1) 1 = ret ([], none, bareReader 1) ∧
    ∀ fuel, copyLoop sampleLibs sampleService fuel (bareReader 1) [] = ret none := by
  have hread : ∀ size, 0 < size → size ≤ copyBufferSize →
      read sampleLibs sampleService (bareReader 1) size = ret ([], none, bareReader 1) := by
    intro size hpos hmax
    have hstop : min (wrap64 ((bareReader 1).pos + size)) (bareReader 1).m.size = 1 := by
      unfold copyBufferSize at hmax
      rw [show (bareReader 1).pos = 0 from rfl, wrap64_of_range (by omega) (by omega)]
      exact min_eq_right (by simp only [bareReader]; omega)
    unfold read readAt
    rw [if_neg (by decide), if_neg (by decide), hstop]
    simp only [show (bareReader 1).pos = 0 from rfl, readLoopAt_bareReader, ret_bind]
    rw [if_neg fun h => absurd h.2 (by decide)]
    rfl
  refine ⟨hread 1 (by decide) (by decide), fun fuel => ?_⟩
  induction fuel with
  | zero => rfl
  | succ fuel ih =>
    unfold copyLoop
    rw [hread copyBufferSize (by decide) le_rfl]
    exact ih

/-- The reader of a file with one stripe of three bytes, whose shards are all there. -/
theorem exists_sampleText :
    ∃ r src, stripeFrom sampleLibs sampleService src r (0 : ℕ) = some (some [1, 2, 3]) ∧
    r.m.size = 3 ∧ r.m.stripeDataSize = 4 ∧ r.m.stripes.length = 1 ∧ r.pos = 0 := by
  obtain ⟨evs, s', m, r, st, d, -, -, hof, hst, horig, hslots⟩ := exists_sampleStripe
  let src : Source := ⟨fun _ => .ok d, fun _ _ => .error .eof⟩
  have hyields : slotYields sampleLibs sampleService src r st = [some d, some d] := by
    unfold slotYields
    rw [hslots]
    rfl
  have hk : r.m.dataShards = 1 := hof.dataShards_eq
  refine ⟨{ r with pos := 0 }, src, ?_, hof.size_eq, hof.stripeDataSize_eq, hof.length_stripes, rfl⟩
  refine hof.stripeFrom_of_someOf sampleRs_mds sampleAead_correct hst ?_ ?_
  · rw [hyields, hk]
    simp [present]
  · rw [hyields, horig, hk]
    exact .cons (.inr rfl) (.cons (.inl rfl) .nil)

/-- What the cache has of the file when it has the given text of its first stripe. -/
def heldFirst (d : Bytes) (i : ℕ) (d' : Bytes) : Prop := i = 0 ∧ d' = d

/-- A cache that had nothing, and was given a text of the first stripe of a file. -/
theorem cacheAgrees_heldFirst (L : Libs) (node : Service) (src : Source) {r : Reader} (maxBytes : ℤ)
    {key d : Bytes} (hkey : cacheKey r.m.fileID 0 = some key) :
    CacheAgrees L node src r (heldFirst d) ((StripeCache.new maxBytes).put key d) :=
  (CacheAgrees.new _).put (by decide) hkey (.inr ⟨0, d, rfl, ⟨rfl, rfl⟩, rfl⟩)

/-- There is a cache with a text of the first stripe of a file, and room for it. -/
theorem exists_heldFirst (L : Libs) (node : Service) (src : Source) (r : Reader) (d : Bytes) :
    ∃ key c, cacheKey r.m.fileID 0 = some key ∧ c.lookup key = some d ∧
      CacheAgrees L node src r (heldFirst d) c := by
  obtain ⟨key, hkey⟩ := exists_cacheKey r.m.fileID (show -2^63 ≤ (0 : ℤ) ∧ (0 : ℤ) < 2^63 by decide)
  exact ⟨key, _, hkey, StripeCache.lookup_put_new le_rfl key, cacheAgrees_heldFirst L node src _ hkey⟩

/-- The manifest of such a file fits its text, and the two bytes that another read has left in the cache. -/
theorem sampleText_completes :
    ∃ r src key c, stripeFrom sampleLibs sampleService src r (0 : ℕ) = some (some [1, 2, 3]) ∧
      cacheKey r.m.fileID 0 = some key ∧ c.lookup key = some [4, 5] ∧
      Completes (readEnv src) c (readAt sampleLibs sampleService r 2 1) := by
  obtain ⟨r, src, htext, hsize, hw, hlen, -⟩ := exists_sampleText
  obtain ⟨key, c, hkey, hlook, hc⟩ := exists_heldFirst sampleLibs sampleService src r [4, 5]
  have hfits : Fits sampleLibs sampleService src r (heldFirst [4, 5]) := by
    refine fun _ => ⟨by omega, fun i st hst _ _ => ?_⟩
    obtain rfl : i = 0 := by
      have := (List.getElem?_eq_some_iff.mp hst).1
      omega
    refine ⟨fun hasm => ?_, ?_⟩
    · by_contra hct
      rw [(stripeFrom_eq_none_iff hst).mpr ⟨hasm, hct⟩] at htext
      cases htext
    rw [hw, hsize]
    rintro d (⟨-, rfl⟩ | hd)
    · decide
    · obtain rfl : [1, 2, 3] = d := Option.some.inj (Option.some.inj (htext.symm.trans hd))
      decide
  exact ⟨r, src, key, c, htext, hkey, hlook, (readAt_completes_iff (by omega)).mpr hfits c hc 1 2 (by decide)⟩

/-- A read from its start gives something, or an error, with the two bytes in the cache too. -/
theorem sampleText_progresses :
    ∃ r src key c, stripeFrom sampleLibs sampleService src r (0 : ℕ) = some (some [1, 2, 3]) ∧
      cacheKey r.m.fileID 0 = some key ∧ c.lookup key = some [4, 5] ∧
      ∀ evs c' x, Steps (readEnv src) c (read sampleLibs sampleService r 2) evs c' (ret x) →
        x.1 ≠ [] ∨ x.2.1 ≠ none := by
  obtain ⟨r, src, htext, hsize, hw, hlen, hpos⟩ := exists_sampleText
  obtain ⟨key, c, hkey, hlook, hc⟩ := exists_heldFirst sampleLibs sampleService src r [4, 5]
  obtain ⟨hidx, hstart⟩ : r.stripeIdx 0 = 0 ∧ r.inStart 0 = 0 := by
    obtain ⟨hidx, hstart⟩ := Reader.turn_eq (r := r) le_rfl (by decide) (by omega)
    exact ⟨hidx.trans (Int.zero_ediv _), hstart.trans (Int.zero_emod _)⟩
  have hmoves : r.Moves sampleLibs sampleService src (heldFirst [4, 5]) 2 := by
    refine ⟨by rw [hpos]; decide, fun t ht => ⟨by rw [hpos, hidx, hlen]; decide, ?_⟩⟩
    rw [hpos, hidx] at ht
    rw [hpos, hstart]
    rintro d rfl
    rcases ht with hd | ⟨i, d', -, ⟨-, rfl⟩, hd⟩
    · obtain rfl : d = [1, 2, 3] := Option.some.inj (Option.some.inj (hd.trans htext))
      decide
    · obtain rfl : d = [4, 5] := Option.some.inj (Option.some.inj hd)
      decide
  exact ⟨r, src, key, c, htext, hkey, hlook, (read_progresses_iff (by omega) (by omega) (by omega) (by omega)
    (by decide) (by decide)).1.mpr hmoves c hc⟩

end FnShare
