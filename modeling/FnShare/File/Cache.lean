import FnShare.Lib.Bytes

/-!
# The cache of decrypted stripes

`StripeCache` of `internal/file`: a list of elements in order of use, an index from keys to elements,
and a budget of bytes. The elements live in a heap, as in the code, where the list and the index both
point to them; an element is its number in the order of allocation.

`lookup` is what a `Get` finds. For the readers it matters that every `Put` only adds what it puts and
otherwise only forgets (`lookup_put`), and that the keys of different stripes are different
(`cacheKey_inj`).
-/

namespace FnShare

/-! ## Keys -/

/-- The loop of `itoa`, with `i` bytes left in front of the digits; `none` is a write out of the
buffer. -/
def itoaLoop : ℕ → ℕ → Bytes → Option (ℕ × Bytes)
  | i, 0, digits => some (i, digits)
  | 0, _ + 1, _ => none
  | i + 1, n + 1, digits =>
    itoaLoop i ((n + 1) / 10) (UInt8.ofNat (48 + (n + 1) % 10) :: digits)

/-- `itoa`. The loop does not run for a number that is still negative after its sign was changed. -/
def itoa (n : ℤ) : Option Bytes :=
  if n = 0 then some (lit "0")
  else
    match itoaLoop 20 (if n < 0 then wrap64 (-n) else n).toNat [] with
    | none => none
    | some (i, digits) =>
      if n < 0 then if i = 0 then none else some (45 :: digits) else some digits

/-- `cacheKey`. -/
def cacheKey (fileID : Bytes) (stripeIdx : ℤ) : Option Bytes :=
  (itoa stripeIdx).map fun digits => fileID ++ lit ":" ++ digits

/-- The loop writes the decimal form, where the buffer is long enough. -/
theorem itoaLoop_eq (i n : ℕ) (digits : Bytes) (h : n < 10 ^ i) :
    (Nat.digits 10 n).length ≤ i ∧ itoaLoop i n digits =
      some (i - (Nat.digits 10 n).length,
        ((Nat.digits 10 n).map fun d => UInt8.ofNat (48 + d)).reverse ++ digits) := by
  induction i generalizing n digits with
  | zero =>
    obtain rfl : n = 0 := by simpa using h
    exact ⟨by simp, by simp [itoaLoop]⟩
  | succ i ih =>
    cases n with
    | zero => exact ⟨by simp, by simp [itoaLoop]⟩
    | succ n =>
      have hdiv : (n + 1) / 10 < 10 ^ i := by
        rw [Nat.div_lt_iff_lt_mul (by norm_num)]
        calc n + 1 < 10 ^ (i + 1) := h
          _ = 10 ^ i * 10 := pow_succ 10 i
      have hdigits : Nat.digits 10 (n + 1) = (n + 1) % 10 :: Nat.digits 10 ((n + 1) / 10) :=
        Nat.digits_def' (by norm_num) (by omega)
      obtain ⟨hlen, heq⟩ := ih ((n + 1) / 10) (UInt8.ofNat (48 + (n + 1) % 10) :: digits) hdiv
      rw [hdigits]
      refine ⟨by simpa using hlen, ?_⟩
      rw [itoaLoop, heq]
      simp

/-- `itoa` is the decimal form of every `int64` but the least. -/
theorem itoa_eq_fmtInt {n : ℤ} (h0 : -2^63 < n) (h1 : n < 2^63) : itoa n = some (fmtInt n) := by
  by_cases hn : n = 0
  · subst hn
    decide
  have habs : n.natAbs ≠ 0 := by omega
  have hwrap : (if n < 0 then wrap64 (-n) else n).toNat = n.natAbs := by
    split_ifs with hneg
    · rw [wrap64_of_range (by omega) (by omega)]
      omega
    · omega
  have hlt : n.natAbs < 10 ^ 19 := by omega
  have hlen : (Nat.digits 10 n.natAbs).length ≤ 19 := (itoaLoop_eq 19 n.natAbs [] hlt).1
  obtain ⟨-, heq⟩ := itoaLoop_eq 20 n.natAbs [] (by omega)
  unfold itoa
  rw [if_neg hn, hwrap, heq]
  unfold fmtInt fmtNat
  rw [if_neg habs]
  by_cases hneg : n < 0
  · simp only [if_pos hneg, List.append_nil]
    rw [if_neg (by omega)]
  · simp only [if_neg hneg, List.append_nil]

/-- The least `int64` has only its sign. -/
theorem itoa_min : itoa (-2^63) = some [45] := by decide

variable {i : ℤ}

/-- Different `int64` have different texts, and all have one. -/
theorem itoa_inj {j : ℤ} (hi : -2^63 ≤ i ∧ i < 2^63) (hj : -2^63 ≤ j ∧ j < 2^63)
    (h : itoa i = itoa j) : i = j := by
  have hne : ∀ n : ℤ, fmtInt n ≠ [45] := by
    intro n hn
    unfold fmtInt at hn
    split_ifs at hn with hneg
    · exact fmtNat_ne_nil _ (List.cons.inj hn).2
    · have := fmtNat_digit (n := n.natAbs) (c := 45) (by rw [hn]; simp)
      exact absurd this (by decide)
  by_cases hi' : i = -2^63
  · by_cases hj' : j = -2^63
    · rw [hi', hj']
    · rw [hi', itoa_min, itoa_eq_fmtInt (by omega) hj.2] at h
      exact absurd (Option.some.inj h).symm (hne j)
  · rw [itoa_eq_fmtInt (by omega) hi.2] at h
    by_cases hj' : j = -2^63
    · rw [hj', itoa_min] at h
      exact absurd (Option.some.inj h) (hne i)
    · rw [itoa_eq_fmtInt (by omega) hj.2] at h
      exact fmtInt_inj (Option.some.inj h)

/-- The text of an `int64` has no colon. -/
theorem colon_not_mem_itoa (hi : -2^63 ≤ i ∧ i < 2^63) {digits : Bytes}
    (h : itoa i = some digits) : (58 : UInt8) ∉ digits := by
  by_cases hmin : i = -2^63
  · rw [hmin, itoa_min] at h
    rw [← Option.some.inj h]
    decide
  · rw [itoa_eq_fmtInt (by omega) hi.2] at h
    rw [← Option.some.inj h]
    intro hmem
    rcases fmtInt_byte hmem with h45 | ⟨-, hle⟩
    · exact absurd h45 (by decide)
    · exact absurd hle (by decide)

/-- The keys of different stripes are different. -/
theorem cacheKey_inj {f f' key : Bytes} {i' : ℤ} (hi : -2^63 ≤ i ∧ i < 2^63)
    (hi' : -2^63 ≤ i' ∧ i' < 2^63) (h : cacheKey f i = some key) (h' : cacheKey f' i' = some key) :
    f = f' ∧ i = i' := by
  obtain ⟨digits, hd, hkey⟩ := Option.map_eq_some_iff.mp h
  obtain ⟨digits', hd', hkey'⟩ := Option.map_eq_some_iff.mp h'
  have hcolon : lit ":" = [58] := by decide
  rw [← hkey', hcolon, List.append_assoc, List.append_assoc] at hkey
  obtain ⟨rfl, rfl⟩ := append_sep_inj (colon_not_mem_itoa hi hd) (colon_not_mem_itoa hi' hd') hkey
  exact ⟨rfl, itoa_inj hi hi' (hd.trans hd'.symm)⟩

/-- Every `int64` has a text: the buffer is long enough. -/
theorem exists_itoa (hi : -2^63 ≤ i ∧ i < 2^63) : ∃ digits, itoa i = some digits := by
  by_cases hmin : i = -2^63
  · exact ⟨[45], hmin ▸ itoa_min⟩
  · exact ⟨fmtInt i, itoa_eq_fmtInt (by omega) hi.2⟩

/-- Every stripe has a key. -/
theorem exists_cacheKey (fileID : Bytes) {idx : ℤ} (h : -2^63 ≤ idx ∧ idx < 2^63) :
    ∃ key, cacheKey fileID idx = some key := by
  obtain ⟨digits, hdigits⟩ := exists_itoa h
  exact ⟨_, Option.map_eq_some_iff.mpr ⟨digits, hdigits, rfl⟩⟩

/-- Of all strings and all `int64`, no two pairs have the same key, and every pair has one. The
number in it is in decimal form, for every `int64` but the least; no write is out of the buffer. -/
theorem cacheKey_injective :
    (∀ (f₁ f₂ : Bytes) (i₁ i₂ : ℤ), -2^63 ≤ i₁ ∧ i₁ < 2^63 → -2^63 ≤ i₂ ∧ i₂ < 2^63 →
      cacheKey f₁ i₁ = cacheKey f₂ i₂ → f₁ = f₂ ∧ i₁ = i₂) ∧
    (∀ (f : Bytes) (i : ℤ), -2^63 ≤ i ∧ i < 2^63 → ∃ key, cacheKey f i = some key) ∧
    (∀ i : ℤ, -2^63 ≤ i ∧ i < 2^63 → i ≠ -2^63 → itoa i = some (fmtInt i)) := by
  refine ⟨?_, fun f i hi => exists_cacheKey f hi, ?_⟩
  · intro f₁ f₂ i₁ i₂ h₁ h₂ heq
    obtain ⟨key, h⟩ := exists_cacheKey f₁ h₁
    exact cacheKey_inj h₁ h₂ h (heq ▸ h)
  · intro i hi hmin
    exact itoa_eq_fmtInt (by omega) hi.2

/-- A file id with a colon and a number in it, next to the least `int64` and a negative one. -/
theorem cacheKey_injective_at_min :
    cacheKey (lit "ab:-4") (-2^63) = some (lit "ab:-4:-") ∧
    cacheKey (lit "ab:-4") (-2^63) ≠ cacheKey (lit "ab") (-4) ∧
    itoa (-42) = some (fmtInt (-42)) := by
  refine ⟨by decide, fun h => ?_, cacheKey_injective.2.2 (-42) (by norm_num) (by norm_num)⟩
  have hid := (cacheKey_injective.1 _ _ _ _ (by norm_num) (by norm_num) h).1
  exact absurd hid (by decide)

/-! ## The cache -/

/-- `cacheEntry`. -/
structure CacheEntry where
  key : Bytes
  bytes : Bytes

/-- `StripeCache`. -/
structure StripeCache where
  maxBytes : ℤ
  /-- The elements that were ever allocated, by their numbers. -/
  elems : List CacheEntry
  /-- The elements in the list, the most recently used one first. -/
  lru : List ℕ
  index : Bytes → Option ℕ
  curBytes : ℤ

/-- `list.MoveToFront`, which leaves the list alone if the element is not in it. -/
def moveToFront (lru : List ℕ) (r : ℕ) : List ℕ := if r ∈ lru then r :: lru.erase r else lru

namespace StripeCache

/-- `NewStripeCache`. -/
def new (maxBytes : ℤ) : StripeCache := ⟨maxBytes, [], [], fun _ => none, 0⟩

/-- `Get`. -/
def get (c : StripeCache) (key : Bytes) : Option Bytes × StripeCache :=
  match c.index key with
  | none => (none, c)
  | some r => (c.elems[r]?.map CacheEntry.bytes, { c with lru := moveToFront c.lru r })

/-- The loop of `evictLocked`. It stops at the latest when the list is empty. -/
def evict : ℕ → StripeCache → StripeCache
  | 0, c => c
  | n + 1, c =>
    if c.curBytes ≤ c.maxBytes then c
    else
      match c.lru.getLast? with
      | none => c
      | some oldest =>
        match c.elems[oldest]? with
        | none => c
        | some entry =>
          evict n { c with
            lru := c.lru.dropLast
            index := fun k => if k = entry.key then none else c.index k
            curBytes := c.curBytes - entry.bytes.length }

/-- The part of `Put` before the eviction. -/
def insert (c : StripeCache) (key data : Bytes) : StripeCache :=
  match c.index key with
  | some r =>
    match c.elems[r]? with
    | none => c
    | some old =>
      { c with
        elems := c.elems.set r { old with bytes := data }
        curBytes := c.curBytes - old.bytes.length + data.length
        lru := moveToFront c.lru r }
  | none =>
    { c with
      elems := c.elems ++ [⟨key, data⟩]
      lru := c.elems.length :: c.lru
      index := fun k => if k = key then some c.elems.length else c.index k
      curBytes := c.curBytes + data.length }

/-- `Put`. -/
def put (c : StripeCache) (key data : Bytes) : StripeCache :=
  if c.maxBytes < data.length then c
  else (c.insert key data).evict (c.insert key data).lru.length

/-- What a `Get` of a key finds. -/
def lookup (c : StripeCache) (key : Bytes) : Option Bytes :=
  (c.index key).bind fun r => c.elems[r]?.map CacheEntry.bytes

/-- The index points to elements with the right key. -/
def Linked (c : StripeCache) : Prop :=
  ∀ key r, c.index key = some r → ∃ bytes, c.elems[r]? = some ⟨key, bytes⟩

/-- A `Get` returns what the cache has. -/
theorem get_fst (c : StripeCache) (key : Bytes) : (c.get key).1 = c.lookup key := by
  unfold get lookup
  cases c.index key <;> rfl

/-- A `Get` changes no entry. -/
@[simp] theorem lookup_get (c : StripeCache) (key k : Bytes) : (c.get key).2.lookup k = c.lookup k := by
  unfold get
  cases c.index key <;> rfl

/-- The new cache is linked. -/
theorem Linked.new (maxBytes : ℤ) : (new maxBytes).Linked := by
  intro key r h
  exact absurd h (by simp [StripeCache.new])

variable {c : StripeCache} {k d data : Bytes}

/-- A `Get` keeps the links. -/
theorem Linked.get (h : c.Linked) (key : Bytes) : (c.get key).2.Linked := by
  unfold StripeCache.get
  cases c.index key <;> exact h

/-- Eviction only forgets. -/
theorem lookup_evict {n : ℕ} (h : (c.evict n).lookup k = some d) :
    c.lookup k = some d := by
  induction n generalizing c with
  | zero => exact h
  | succ n ih =>
    unfold evict at h
    split_ifs at h
    · exact h
    · split at h
      · exact h
      · split at h
        · exact h
        · have h' := ih h
          unfold lookup at h' ⊢
          dsimp only at h'
          split_ifs at h'
          · exact absurd h' (by simp)
          · exact h'

/-- Eviction keeps the rest linked. -/
theorem Linked.evict (h : c.Linked) (n : ℕ) : (c.evict n).Linked := by
  induction n generalizing c with
  | zero => exact h
  | succ n ih =>
    unfold StripeCache.evict
    split_ifs
    · exact h
    · split
      · exact h
      · split
        · exact h
        · refine ih ?_
          intro key r hr
          dsimp only at hr
          split_ifs at hr
          exact h key r hr

/-- An insertion links the new entry and keeps the others linked. -/
theorem Linked.insert (h : c.Linked) (key data : Bytes) :
    (c.insert key data).Linked := by
  unfold StripeCache.insert
  cases hidx : c.index key with
  | none =>
    intro k r hr
    dsimp only at hr ⊢
    split_ifs at hr with hk
    · obtain rfl := Option.some.inj hr
      exact ⟨data, by simp [hk]⟩
    · obtain ⟨bytes, hb⟩ := h k r hr
      have hlt : r < c.elems.length := (List.getElem?_eq_some_iff.mp hb).1
      exact ⟨bytes, by rw [List.getElem?_append_left hlt, hb]⟩
  | some r =>
    obtain ⟨bytes, hb⟩ := h key r hidx
    simp only [hb]
    intro k r' hr'
    dsimp only at hr' ⊢
    obtain ⟨bytes', hb'⟩ := h k r' hr'
    rw [List.getElem?_set]
    split_ifs with heq hlt
    · -- The element is that of the key, so the other key is the same.
      subst heq
      have hk : key = k := by
        rw [hb] at hb'
        exact congrArg CacheEntry.key (Option.some.inj hb')
      exact ⟨data, by rw [hk]⟩
    · subst heq
      exact absurd (List.getElem?_eq_some_iff.mp hb).1 hlt
    · exact ⟨bytes', hb'⟩

/-- An insertion changes what is found at its key only. -/
theorem lookup_insert (h : c.Linked) {key : Bytes} (hk : (c.insert key data).lookup k = some d) :
    (k = key ∧ d = data) ∨ c.lookup k = some d := by
  unfold insert at hk
  cases hidx : c.index key with
  | none =>
    rw [hidx] at hk
    unfold lookup at hk ⊢
    dsimp only at hk
    by_cases heq : k = key
    · rw [if_pos heq] at hk
      exact .inl ⟨heq, by simpa using hk.symm⟩
    · rw [if_neg heq] at hk
      right
      obtain ⟨r, hr, hd⟩ := Option.bind_eq_some_iff.mp hk
      obtain ⟨bytes, hb⟩ := h k r hr
      have hlt : r < c.elems.length := (List.getElem?_eq_some_iff.mp hb).1
      rw [List.getElem?_append_left hlt] at hd
      rw [hr]
      exact hd
  | some r =>
    obtain ⟨bytes, hb⟩ := h key r hidx
    simp only [hidx, hb] at hk
    unfold lookup at hk ⊢
    dsimp only at hk
    obtain ⟨r', hr', hd⟩ := Option.bind_eq_some_iff.mp hk
    rw [hr']
    rw [List.getElem?_set] at hd
    split_ifs at hd with heq hlt
    · subst heq
      obtain ⟨bytes', hb'⟩ := h k r hr'
      left
      refine ⟨?_, by simpa using hd.symm⟩
      rw [hb] at hb'
      exact (congrArg CacheEntry.key (Option.some.inj hb')).symm
    · exact absurd hd (by simp)
    · exact .inr hd

/-- `Put` keeps the cache linked. -/
theorem Linked.put (h : c.Linked) (key data : Bytes) : (c.put key data).Linked := by
  unfold StripeCache.put
  split_ifs
  · exact h
  · exact (h.insert key data).evict _

/-- After a `Put`, what is found is what was put, or what was found before. -/
theorem lookup_put (h : c.Linked) {key : Bytes} (hk : (c.put key data).lookup k = some d) :
    (k = key ∧ d = data) ∨ c.lookup k = some d := by
  unfold put at hk
  split_ifs at hk
  · exact .inr hk
  · exact lookup_insert h (lookup_evict hk)

/-- A text that fits in the budget of an empty cache is found under its key. -/
theorem lookup_put_new {maxBytes : ℤ} (h : (data.length : ℤ) ≤ maxBytes) (key : Bytes) :
    ((new maxBytes).put key data).lookup key = some data := by
  have hinsert : ((new maxBytes).insert key data).curBytes ≤ ((new maxBytes).insert key data).maxBytes := by
    simpa [insert, new] using h
  rw [put, if_neg (show ¬ (new maxBytes).maxBytes < data.length from not_lt.mpr h)]
  change (evict 1 ((new maxBytes).insert key data)).lookup key = some data
  rw [evict, if_pos hinsert]
  simp [insert, new, lookup]

end StripeCache

end FnShare
