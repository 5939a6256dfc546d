import FnShare.File.Tolerance

/-!
# The turns of a read

What `ReadAt` comes to on any manifest, well formed or not, over a source whose answers are fixed. Each stripe
then comes to a text, an error or a panic (`stripeFrom`), unless the cache has a text of it. The cache knows a
stripe by the id of the file and its index, whatever manifest it was read by; `held` are the texts that
earlier reads may have left there (`CacheAgrees`, `wp_stripeBytes_source`). A turn of the loop divides the
offset by the stripe size, takes the stripe of the quotient, and copies from the remainder on.
`wp_readLoopAt_source` has what follows for the loop: where it can panic, how much it gives, and when it gives
nothing at all.

`panicEnv src P` is the environment of a read that is allowed to panic if `P` holds. With `P` false, what is
proved of a read in it excludes a panic; with `P` true, it says what holds of the reads that return.
-/

namespace FnShare

open Prog

/-- The environment of a read that may panic if `P`. -/
def panicEnv (src : Source) (P : Prop) : Env NodeSig StripeCache where
  step := cacheStep src.answers
  guard _ o := Answerable o ∨ (o = .panic ∧ P)

/-- A read that may panic gets the same answers. -/
theorem readsFrom_panicEnv (src : Source) (P : Prop) (I : StripeCache → Prop) :
    ReadsFrom src.answers I (panicEnv src P) where
  step hc hs := ⟨_, hc, hs⟩
  fetch hc ho := .inl ((readsFrom_readEnv src I).fetch hc ho)
  guard _ ho _ := .inl ho

/-- The executions of a read are the same. -/
theorem steps_panicEnv {src : Source} (P : Prop) {α : Type} {p p' : NodeM α} {evs : List NodeEvent}
    {c c' : StripeCache} (h : Steps (readEnv src) c p evs c' p') : Steps (panicEnv src P) c p evs c' p' := by
  refine h.mono ?_
  intro c o r c' hs
  exact hs

/-- A read that may not panic. -/
theorem wp_readEnv_of_panicEnv {src : Source} {α : Type} {p : NodeM α}
    {Q : Except GoErr α → StripeCache → Prop} {c : StripeCache} (h : wp (panicEnv src False) p Q c) :
    wp (readEnv src) p Q c := by
  induction p generalizing c with
  | ret a => exact h
  | fail e => exact h
  | op o k ih =>
    refine ⟨h.1.resolve_right fun hp => hp.2, ?_⟩
    intro r c' hs
    exact ih r (h.2 r c' hs)

section Source

variable {L : Libs} {node : Service} {src : Source} {r : Reader} {held : ℕ → Bytes → Prop} {c : StripeCache}
  {idx cur : ℤ} {t : Option (Option Bytes)} {P : Prop}

/-! ## The stripes and the cache -/

variable (L node src r held) in
/-- What a stripe can come to: what the source makes of it, or one of the texts `held` that the cache may have
under its index. -/
def ComesTo (idx : ℤ) (t : Option (Option Bytes)) : Prop :=
  t = stripeFrom L node src r idx ∨ ∃ (i : ℕ) (d : Bytes), idx = i ∧ held i d ∧ t = some (some d)

variable (L node src r held) in
/-- Whatever the cache has of the stripes of a reader is what they can come to. Texts that are `held` need not
be in the cache, which may have evicted them. -/
structure CacheAgrees (c : StripeCache) : Prop where
  linked : c.Linked
  agrees : ∀ idx key d, -2^63 ≤ idx ∧ idx < 2^63 → cacheKey r.m.fileID idx = some key →
    c.lookup key = some d → ComesTo L node src r held idx (some (some d))

variable (L node src r c) in
/-- What a stripe comes to: the text that the cache has of it, or what the source makes of it. -/
def stripeIn (idx : ℤ) : Option (Option Bytes) :=
  match (cacheKey r.m.fileID idx).bind c.lookup with
  | some d => some (some d)
  | none => stripeFrom L node src r idx

/-- An empty cache agrees with every source. -/
theorem CacheAgrees.new (maxBytes : ℤ) : CacheAgrees L node src r held (.new maxBytes) :=
  ⟨.new maxBytes, fun _ _ _ _ _ h => absurd h (by simp [StripeCache.lookup, StripeCache.new])⟩

/-- The position of the reader does not matter. -/
theorem CacheAgrees.seek (h : CacheAgrees L node src r held c) (p : ℤ) :
    CacheAgrees L node src { r with pos := p } held c :=
  ⟨h.linked, h.agrees⟩

/-- A `Get` changes nothing of what the cache has. -/
theorem CacheAgrees.get (h : CacheAgrees L node src r held c) (key : Bytes) :
    CacheAgrees L node src r held (c.get key).2 :=
  ⟨h.linked.get key, fun idx k d hidx hk hd => h.agrees idx k d hidx hk (by rwa [c.lookup_get] at hd)⟩

/-- A `Put` of what a stripe can come to keeps the cache in agreement. -/
theorem CacheAgrees.put (h : CacheAgrees L node src r held c) (hidx : -2^63 ≤ idx ∧ idx < 2^63)
    {key d : Bytes} (hkey : cacheKey r.m.fileID idx = some key)
    (hd : ComesTo L node src r held idx (some (some d))) : CacheAgrees L node src r held (c.put key d) := by
  refine ⟨h.linked.put key d, ?_⟩
  intro idx' k d' hidx' hk hlook
  rcases StripeCache.lookup_put h.linked hlook with ⟨rfl, rfl⟩ | hlook
  · obtain ⟨-, rfl⟩ := cacheKey_inj hidx hidx' hkey hk
    exact hd
  · exact h.agrees idx' k d' hidx' hk hlook

/-- With a cache that agrees, a stripe comes to what it can come to. -/
theorem CacheAgrees.comesTo (h : CacheAgrees L node src r held c) (hidx : -2^63 ≤ idx ∧ idx < 2^63) :
    ComesTo L node src r held idx (stripeIn L node src r c idx) := by
  obtain ⟨key, hkey⟩ := exists_cacheKey r.m.fileID hidx
  unfold stripeIn
  rw [hkey, Option.bind_some]
  cases hlook : c.lookup key with
  | none => exact .inl rfl
  | some d => exact h.agrees idx key d hidx hkey hlook

/-- With an empty cache, a stripe comes to what the source makes of it. -/
theorem stripeIn_new {maxBytes : ℤ} :
    stripeIn L node src r (.new maxBytes) idx = stripeFrom L node src r idx := by
  unfold stripeIn
  cases cacheKey r.m.fileID idx <;> rfl

/-- There is a cache for whatever a stripe can come to. -/
theorem ComesTo.exists_cache (h : ComesTo L node src r held idx t) (hidx : idx < 2^63) :
    ∃ c, CacheAgrees L node src r held c ∧ stripeIn L node src r c idx = t := by
  rcases h with rfl | ⟨i, d, rfl, hd, rfl⟩
  · exact ⟨.new 0, .new 0, stripeIn_new⟩
  · -- The cache has this text and no other.
    have hrange : -2^63 ≤ (i : ℤ) ∧ (i : ℤ) < 2^63 := ⟨by omega, hidx⟩
    obtain ⟨key, hkey⟩ := exists_cacheKey r.m.fileID hrange
    refine ⟨(StripeCache.new d.length).put key d,
      (CacheAgrees.new _).put hrange hkey (.inr ⟨i, d, rfl, hd, rfl⟩), ?_⟩
    unfold stripeIn
    rw [hkey, Option.bind_some, StripeCache.lookup_put_new le_rfl]

/-- A stripe is what it comes to with the cache. -/
theorem wp_stripeBytes_source (hidx : -2^63 ≤ idx ∧ idx < 2^63)
    (hpanic : stripeIn L node src r c idx = none → P) (hc : CacheAgrees L node src r held c) :
    wp (panicEnv src P) (stripeBytes L node r idx) (fun x c' => CacheAgrees L node src r held c' ∧
      stripeIn L node src r c idx = some x.toOption) c := by
  unfold stripeBytes
  refine ⟨.inl hidx, ?_⟩
  rintro a c₁ ⟨key, hkey, rfl, rfl⟩
  rw [StripeCache.get_fst]
  unfold stripeIn at hpanic ⊢
  rw [hkey, Option.bind_some] at hpanic ⊢
  cases hlook : c.lookup key with
  | some d => exact ⟨hc.get key, rfl⟩
  | none =>
    rw [hlook] at hpanic
    simp only [bind_eq, ret_bind]
    refine wp_bind_of (wp_fetchAndDecryptStripe_source (readsFrom_panicEnv src P (· = (c.get key).2))
      fun hnone => .inr ⟨rfl, hpanic hnone⟩) ?_ ?_
    · rintro d c₂ ⟨rfl, hd⟩
      refine ⟨.inl hidx, ?_⟩
      rintro ⟨⟩ c₃ ⟨key', hkey', rfl⟩
      obtain rfl : key = key' := Option.some.inj (hkey.symm.trans hkey')
      exact ⟨(hc.get key).put hidx hkey (.inl hd.symm), hd⟩
    · rintro e c₂ ⟨rfl, he⟩
      exact ⟨hc.get key, he⟩

/-- A stripe that has a text comes to it. -/
theorem wp_stripeBytes_text {d : Bytes} (hd : stripeIn L node src r c (r.stripeIdx cur) = some (some d))
    (hc : CacheAgrees L node src r held c) :
    wp (panicEnv src P) (stripeBytes L node r (r.stripeIdx cur))
      (returns fun d' c' => CacheAgrees L node src r held c' ∧ d = d') c := by
  have hpanic : stripeIn L node src r c (r.stripeIdx cur) = none → P := by
    rw [hd]
    exact fun h => absurd h (by simp)
  refine wp_mono (wp_stripeBytes_source (wrap64_range _) hpanic hc) ?_
  rintro (e | d') c' ⟨hc', hd'⟩
  · rw [hd] at hd'
    exact absurd hd' (by simp [Except.toOption])
  · refine ⟨hc', ?_⟩
    simpa [Except.toOption, hd] using hd'

/-- With an empty cache, a stripe that has a text is left there under its key. -/
theorem wp_stripeBytes_new {maxBytes : ℤ} {key d : Bytes}
    (hkey : cacheKey r.m.fileID (r.stripeIdx cur) = some key)
    (hd : stripeFrom L node src r (r.stripeIdx cur) = some (some d)) :
    wp (panicEnv src P) (stripeBytes L node r (r.stripeIdx cur))
      (returns fun d' c' => c' = (StripeCache.new maxBytes).put key d ∧ d = d') (.new maxBytes) := by
  unfold stripeBytes
  refine ⟨.inl (wrap64_range _), ?_⟩
  rintro a c₁ ⟨key', hkey', rfl, rfl⟩
  obtain rfl : key = key' := Option.some.inj (hkey.symm.trans hkey')
  simp only [bind_eq, ret_bind]
  have hpanic : stripeFrom L node src r (r.stripeIdx cur) ≠ none := by
    rw [hd]
    simp
  refine wp_bind_of (wp_fetchAndDecryptStripe_source (readsFrom_panicEnv src P (· = .new maxBytes))
    fun hnone => absurd hnone hpanic) ?_ ?_
  · rintro d' c₂ ⟨rfl, hd'⟩
    obtain rfl : d = d' := Option.some.inj (Option.some.inj (hd.symm.trans hd'))
    refine ⟨.inl (wrap64_range _), ?_⟩
    rintro ⟨⟩ c₃ ⟨key', hkey', rfl⟩
    obtain rfl : key = key' := Option.some.inj (hkey.symm.trans hkey')
    exact ⟨rfl, rfl⟩
  · rintro e c₂ ⟨-, he⟩
    rw [hd] at he
    exact absurd he (by simp [Except.toOption])

/-! ## One turn -/

/-- The stripe of an offset and the place in it are the quotient and the remainder. -/
theorem Reader.turn_eq (h₀ : 0 ≤ cur) (h₁ : cur < 2^63) (hw : r.m.stripeDataSize ≠ 0) :
    r.stripeIdx cur = cur / r.m.stripeDataSize ∧ r.inStart cur = cur % r.m.stripeDataSize := by
  have hdiv : |cur / r.m.stripeDataSize| ≤ cur := by
    calc |cur / r.m.stripeDataSize| ≤ |cur| := Int.abs_ediv_le_abs _ _
      _ = cur := abs_of_nonneg h₀
  have hmul : cur / r.m.stripeDataSize * r.m.stripeDataSize = cur - cur % r.m.stripeDataSize := by
    have := Int.mul_ediv_add_emod cur r.m.stripeDataSize
    rw [mul_comm]
    omega
  have hmod₀ := Int.emod_nonneg cur hw
  have hmod₁ : cur % r.m.stripeDataSize ≤ cur := by
    have hsum := Int.mul_ediv_add_emod cur |r.m.stripeDataSize|
    have hquot := mul_nonneg (abs_nonneg r.m.stripeDataSize)
      (Int.ediv_nonneg h₀ (abs_nonneg r.m.stripeDataSize))
    rw [Int.emod_abs] at hsum
    omega
  have hidx : r.stripeIdx cur = cur / r.m.stripeDataSize := by
    rw [Reader.stripeIdx, Int.tdiv_eq_ediv_of_nonneg h₀]
    exact wrap64_of_range (by have := (abs_le.mp hdiv).1; omega) (by have := (abs_le.mp hdiv).2; omega)
  refine ⟨hidx, ?_⟩
  rw [Reader.inStart, hidx, hmul]
  have hstart : wrap64 (cur - cur % r.m.stripeDataSize) = cur - cur % r.m.stripeDataSize :=
    wrap64_of_range (by omega) (by omega)
  rw [hstart, wrap64_of_range (by omega) (by omega)]
  omega

/-- The place in a stripe is not before its start. -/
theorem Reader.inStart_nonneg (h₀ : 0 ≤ cur) (h₁ : cur < 2^63) (hw : r.m.stripeDataSize ≠ 0) :
    0 ≤ r.inStart cur := by
  rw [(Reader.turn_eq h₀ h₁ hw).2]
  exact Int.emod_nonneg _ hw

/-! ## The loop -/

/-- A read at this offset goes on if its stripe comes to `t`: the stripe is there, and its text does not end
where the offset is. -/
def Reader.GoesOn (r : Reader) (cur : ℤ) (t : Option (Option Bytes)) : Prop :=
  r.stripeIdx cur < r.m.stripes.length ∧ ∀ d, t = some (some d) → (d.length : ℤ) ≠ r.inStart cur

/-- A read at this offset does not panic in its first turn if its stripe comes to `t`: the stripe, if it is
there, is an error or a text that reaches up to the offset. -/
def Reader.Reaches (r : Reader) (cur : ℤ) (t : Option (Option Bytes)) : Prop :=
  r.m.stripeDataSize ≠ 0 ∧ (r.stripeIdx cur < r.m.stripes.length →
    ∃ x, t = some x ∧ ∀ d, x = some d → r.inStart cur ≤ d.length)

variable (L node src r held) in
/-- A read at this offset goes on, whatever its stripe comes to. -/
def Progresses (cur : ℤ) : Prop :=
  ∀ t, ComesTo L node src r held (r.stripeIdx cur) t → r.GoesOn cur t

variable (L node src r held) in
/-- A read at this offset does not panic in its first turn, whatever its stripe comes to. -/
def Covered (cur : ℤ) : Prop :=
  ∀ t, ComesTo L node src r held (r.stripeIdx cur) t → r.Reaches cur t

/-- The loop panics at an offset that is not covered, and nowhere else. It gives no more than it was asked
for. Where it goes on, it gives something, or an error. -/
theorem wp_readLoopAt_source {size : ℕ} {stop : ℤ} {written : Bytes} (h₀ : 0 ≤ cur) (h₁ : stop < 2^63)
    (hsize : written.length + (stop - cur) ≤ size)
    (hpanic : ∀ v, cur ≤ v → v < stop → ¬ Covered L node src r held v → P)
    (hc : CacheAgrees L node src r held c) :
    wp (panicEnv src P) (readLoopAt L node r size stop cur written)
      (returns fun x c' => CacheAgrees L node src r held c' ∧
        (∃ more, x.1 = written ++ more ∧ (more.length : ℤ) ≤ max 0 (stop - cur) ∧
          (cur < stop → r.GoesOn cur (stripeIn L node src r c (r.stripeIdx cur)) → more ≠ [] ∨ x.2 ≠ none)) ∧
        (cur < stop → r.Reaches cur (stripeIn L node src r c (r.stripeIdx cur)))) c := by
  -- The induction is on what is left of the range.
  induction hn : (stop - cur).toNat using Nat.strongRecOn generalizing cur written c with
  | ind n ih =>
    unfold readLoopAt
    by_cases hlt : cur < stop
    · rw [if_pos hlt]
      -- A panic means that the offset is not covered.
      have hnot : ¬ r.Reaches cur (stripeIn L node src r c (r.stripeIdx cur)) → P := fun hnot =>
        hpanic cur le_rfl hlt fun h => hnot (h _ (hc.comesTo (wrap64_range _)))
      by_cases hw : r.m.stripeDataSize = 0
      · rw [if_pos hw]
        exact ⟨.inr ⟨rfl, hnot fun h => h.1 hw⟩, fun a => Empty.elim a⟩
      rw [if_neg hw]
      by_cases hend : (r.m.stripes.length : ℤ) ≤ r.stripeIdx cur
      · rw [if_pos hend]
        refine ⟨hc, ⟨[], by simp, by simp, fun _ h => absurd h.1 (by omega)⟩, fun _ => ⟨hw, fun h => ?_⟩⟩
        exact absurd h (by omega)
      rw [if_neg hend, wp_bind, wp_attempt]
      have hstart : 0 ≤ r.inStart cur := Reader.inStart_nonneg h₀ (by omega) hw
      have hleft : wrap64 (stop - cur) = stop - cur := wrap64_of_range (by omega) (by omega)
      refine wp_mono (wp_stripeBytes_source (wrap64_range _) (fun hnone => hnot fun h => ?_) hc) ?_
      · obtain ⟨t, ht, -⟩ := h.2 (by omega)
        rw [hnone] at ht
        cases ht
      rintro (e | d) c' ⟨hc', hd⟩
      · refine ⟨hc', ⟨[], by simp, by simp, fun _ _ => .inr (by simp)⟩, fun _ => ⟨hw, fun _ => ⟨_, hd, ?_⟩⟩⟩
        intro d h
        cases h
      simp only [andThen_ok]
      have hwant : r.want stop cur d.length = min (stop - cur) (d.length - r.inStart cur) := by
        rw [Reader.want, hleft]
      by_cases hshort : (d.length : ℤ) < r.inStart cur
      · -- The text ends before the offset.
        rw [if_pos (.inr (.inl (by omega)))]
        refine ⟨.inr ⟨rfl, hnot fun h => ?_⟩, fun a => Empty.elim a⟩
        obtain ⟨t, ht, hcover⟩ := h.2 (by omega)
        have := hcover d (Option.some.inj (ht.symm.trans hd))
        omega
      have hreaches : r.Reaches cur (stripeIn L node src r c (r.stripeIdx cur)) := by
        refine ⟨hw, fun _ => ⟨_, hd, ?_⟩⟩
        rintro d' ⟨⟩
        omega
      rw [if_neg (by omega)]
      by_cases hzero : r.want stop cur d.length = 0
      · rw [if_pos hzero]
        refine ⟨hc', ⟨[], by simp, by simp, fun _ h => absurd ?_ (h.2 d hd)⟩, fun _ => hreaches⟩
        omega
      rw [if_neg hzero]
      have hpart : ((d.drop (r.inStart cur).toNat).take (r.want stop cur d.length).toNat).length =
          (r.want stop cur d.length).toNat := by
        rw [List.length_take, List.length_drop]
        omega
      refine wp_mono (ih (stop - (cur + r.want stop cur d.length)).toNat (by omega) (by omega) ?_ ?_ hc' rfl)
        ?_
      · rw [List.length_append, hpart]
        omega
      · intro v hv hv'
        exact hpanic v (by omega) hv'
      · rintro (e | x) c'' hx
        · exact hx.elim
        obtain ⟨hc'', ⟨more, hmore, hlen, -⟩, -⟩ := hx
        refine ⟨hc'', ⟨_, hmore.trans (List.append_assoc ..), ?_, fun _ _ => .inl ?_⟩, fun _ => hreaches⟩
        · rw [List.length_append, hpart]
          omega
        · rw [← List.length_pos_iff, List.length_append, hpart]
          omega
    · rw [if_neg hlt]
      exact ⟨hc, ⟨[], by simp, by simp, fun h => absurd h hlt⟩, fun h => absurd h hlt⟩

/-- Where the loop does not go on, it gives nothing, and no error. -/
theorem wp_readLoopAt_nothing {size : ℕ} {stop : ℤ} {written : Bytes} (h₀ : 0 ≤ cur) (h₁ : stop < 2^63)
    (hsize : written.length ≤ size) (hw : r.m.stripeDataSize ≠ 0)
    (hno : cur < stop → ¬ r.GoesOn cur (stripeIn L node src r c (r.stripeIdx cur)))
    (hc : CacheAgrees L node src r held c) :
    wp (panicEnv src P) (readLoopAt L node r size stop cur written)
      (returns fun x c' => CacheAgrees L node src r held c' ∧ x = (written, none)) c := by
  unfold readLoopAt
  by_cases hlt : cur < stop
  · rw [if_pos hlt, if_neg hw]
    by_cases hend : (r.m.stripes.length : ℤ) ≤ r.stripeIdx cur
    · rw [if_pos hend]
      exact ⟨hc, rfl⟩
    rw [if_neg hend, wp_bind, wp_attempt]
    -- The stripe is there, and its text ends at the offset.
    obtain ⟨d, hd, hlen⟩ : ∃ d, stripeIn L node src r c (r.stripeIdx cur) = some (some d) ∧
        (d.length : ℤ) = r.inStart cur := by
      have := hno hlt
      unfold Reader.GoesOn at this
      push Not at this
      exact this (by omega)
    refine wp_mono (wp_stripeBytes_text hd hc) ?_
    rintro (e | d') c' hx
    · exact hx.elim
    obtain ⟨hc', rfl⟩ := hx
    have hleft : wrap64 (stop - cur) = stop - cur := wrap64_of_range (by omega) (by omega)
    have hwant : r.want stop cur d.length = 0 := by
      rw [Reader.want, hleft]
      omega
    simp only [andThen_ok]
    rw [if_neg (by omega), if_pos hwant]
    exact ⟨hc', rfl⟩
  · rw [if_neg hlt]
    exact ⟨hc, rfl⟩

end Source

end FnShare
