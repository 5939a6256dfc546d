import FnShare.File.Cache

/-!
# The cache of stripes is least recently used first out

The heap, the list, the index and the byte count of `StripeCache` together stand for one list of
entries, the most recently used one first (`entries`). `Sound` says how the four fit together, and
every operation keeps it. On the list of entries a `Get` moves the entry that it finds to the front,
and a `Put` puts its entry in front and then keeps the longest prefix within the budget
(`LongestWithin`), whatever the loop of `evictLocked` does to the four.
-/

namespace FnShare

/-! ## Lists of entries -/

/-- The bytes that the entries hold together. -/
def totalBytes (l : List CacheEntry) : ℤ := (l.map fun e => (e.bytes.length : ℤ)).sum

/-- Nothing has no bytes. -/
@[simp] theorem totalBytes_nil : totalBytes [] = 0 := rfl

/-- The bytes of one more entry. -/
@[simp] theorem totalBytes_cons (e : CacheEntry) (l : List CacheEntry) :
    totalBytes (e :: l) = e.bytes.length + totalBytes l := by
  simp [totalBytes]

/-- The bytes of two lists. -/
@[simp] theorem totalBytes_append (l l' : List CacheEntry) :
    totalBytes (l ++ l') = totalBytes l + totalBytes l' := by
  simp [totalBytes]

/-- The order does not matter. -/
theorem totalBytes_perm {l l' : List CacheEntry} (h : l.Perm l') : totalBytes l = totalBytes l' :=
  (h.map _).sum_eq

/-- The entries of other keys. -/
def without (key : Bytes) (l : List CacheEntry) : List CacheEntry := l.filter fun e => e.key ≠ key

/-- What is kept of a list is its longest prefix within a budget of bytes. -/
structure LongestWithin (max : ℤ) (l kept : List CacheEntry) : Prop where
  front : kept <+: l
  within : totalBytes kept ≤ max
  longest : ∀ p, p <+: l → totalBytes p ≤ max → p <+: kept

/-- A list before and after the entry of a key was used: if there is one it is in front, and the
others are behind it in their order. -/
def Used (key : Bytes) (l l' : List CacheEntry) : Prop :=
  ((∀ e ∈ l, e.key ≠ key) ∧ l' = l) ∨ ∃ e ∈ l, e.key = key ∧ l' = e :: without key l

/-- A prefix of a list, but not all of it, is a prefix of the list without its last element. -/
theorem prefix_dropLast {l p : List CacheEntry} (h : p <+: l) (hne : p ≠ l) : p <+: l.dropLast := by
  have hlt : p.length < l.length := by
    refine lt_of_le_of_ne h.length_le fun hlen => hne ?_
    exact h.eq_of_length hlen
  rw [List.dropLast_eq_take, List.prefix_take_iff]
  exact ⟨h, by omega⟩

namespace StripeCache

/-! ## What the cache stands for -/

/-- The entries in the order of their last use. -/
def entries (c : StripeCache) : List CacheEntry := c.lru.filterMap fun r => c.elems[r]?

/-- The parts of a cache fit together. -/
structure Sound (c : StripeCache) : Prop where
  /-- The list is of elements that exist. -/
  live : ∀ r ∈ c.lru, ∃ e, c.elems[r]? = some e
  /-- An element is in it once. -/
  once : c.lru.Nodup
  /-- The index has the keys of the elements of the list, and no others. -/
  index_iff : ∀ k r, c.index k = some r ↔ r ∈ c.lru ∧ c.elems[r]?.map CacheEntry.key = some k
  /-- The byte count is that of the entries. -/
  bytes : c.curBytes = totalBytes c.entries

/-- A `Get` keeps the budget. -/
theorem maxBytes_get (c : StripeCache) (key : Bytes) : (c.get key).2.maxBytes = c.maxBytes := by
  unfold StripeCache.get
  cases c.index key <;> rfl

/-- So does an insertion. -/
theorem maxBytes_insert (c : StripeCache) (key data : Bytes) :
    (c.insert key data).maxBytes = c.maxBytes := by
  unfold StripeCache.insert
  split
  · split <;> rfl
  · rfl

/-- So does eviction. -/
theorem maxBytes_evict (c : StripeCache) (n : ℕ) : (c.evict n).maxBytes = c.maxBytes := by
  induction n generalizing c with
  | zero => rfl
  | succ n ih =>
    unfold StripeCache.evict
    split_ifs
    · rfl
    · split
      · rfl
      · split
        · rfl
        · exact ih _

/-- So does a `Put`. -/
theorem maxBytes_put (c : StripeCache) (key data : Bytes) :
    (c.put key data).maxBytes = c.maxBytes := by
  unfold StripeCache.put
  split_ifs
  · rfl
  · rw [maxBytes_evict, maxBytes_insert]

/-- A text over the budget is not taken. -/
theorem put_of_lt {c : StripeCache} {data : Bytes} (h : c.maxBytes < data.length) (key : Bytes) :
    c.put key data = c :=
  if_pos h

/-- The entries are those of the list. -/
theorem mem_entries {c : StripeCache} {e : CacheEntry} :
    e ∈ c.entries ↔ ∃ r ∈ c.lru, c.elems[r]? = some e :=
  List.mem_filterMap

namespace Sound

variable {c : StripeCache} {key data : Bytes} {r : ℕ}

/-- The index leads to an entry of the list. -/
theorem entry_of_index (h : c.Sound) (hr : c.index key = some r) :
    r ∈ c.lru ∧ ∃ e, c.elems[r]? = some e ∧ e.key = key := by
  obtain ⟨hmem, hkey⟩ := (h.index_iff key r).mp hr
  exact ⟨hmem, Option.map_eq_some_iff.mp hkey⟩

/-- Elements of the list with the same key are the same. -/
theorem key_inj (h : c.Sound) {r' : ℕ} {e e' : CacheEntry} (hr : r ∈ c.lru) (hr' : r' ∈ c.lru)
    (he : c.elems[r]? = some e) (he' : c.elems[r']? = some e') (hkey : e.key = e'.key) : r = r' := by
  have hidx := (h.index_iff e.key r).mpr ⟨hr, by rw [he]; rfl⟩
  have hidx' := (h.index_iff e.key r').mpr ⟨hr', by rw [he', hkey]; rfl⟩
  exact Option.some.inj (hidx.symm.trans hidx')

/-- No key is in the list twice. -/
theorem nodup_keys (h : c.Sound) : (c.entries.map CacheEntry.key).Nodup := by
  unfold List.Nodup entries
  rw [List.pairwise_map, List.pairwise_filterMap]
  refine h.once.imp_of_mem fun {r r'} hr hr' hne e he e' he' hkey => ?_
  exact hne (h.key_inj hr hr' he he' hkey)

/-- A key without an index has no entry. -/
theorem key_ne_of_index (h : c.Sound) (hnone : c.index key = none) : ∀ e ∈ c.entries, e.key ≠ key := by
  rintro e he rfl
  obtain ⟨r, hr, hre⟩ := mem_entries.mp he
  have hidx := (h.index_iff e.key r).mpr ⟨hr, by rw [hre]; rfl⟩
  rw [hnone] at hidx
  exact absurd hidx (by simp)

/-- Then there is nothing to leave out. -/
theorem without_of_index_none (h : c.Sound) (hnone : c.index key = none) :
    without key c.entries = c.entries := by
  refine List.filter_eq_self.mpr fun e he => ?_
  simpa using h.key_ne_of_index hnone e he

/-- Without an element, the list has the entries of the other keys. -/
theorem entries_erase (h : c.Sound) (hr : c.index key = some r) :
    ((c.lru.erase r).filterMap fun r => c.elems[r]?) = without key c.entries := by
  obtain ⟨hmem, e, he, hkey⟩ := h.entry_of_index hr
  unfold without entries
  rw [h.once.erase_eq_filter, List.filterMap_filter, List.filter_filterMap]
  refine List.filterMap_congr fun r' hr' => ?_
  obtain ⟨e', he'⟩ := h.live r' hr'
  rw [he']
  have hiff : r' = r ↔ e'.key = key := by
    constructor
    · rintro rfl
      rw [he] at he'
      rw [← Option.some.inj he', hkey]
    · intro hk
      exact h.key_inj hr' hmem he' he (hk.trans hkey.symm)
  by_cases hk : e'.key = key
  · simp [Option.filter, hk, hiff.mpr hk]
  · simp [Option.filter, hk, mt hiff.mp hk]

/-- Moving to the front is a permutation. -/
theorem moveToFront_perm (hr : r ∈ c.lru) : (moveToFront c.lru r).Perm c.lru := by
  unfold moveToFront
  rw [if_pos hr]
  exact (List.perm_cons_erase hr).symm

/-- The entry that is found comes before the others. -/
theorem entries_moveToFront (h : c.Sound) (hr : c.index key = some r) {e : CacheEntry}
    (he : c.elems[r]? = some e) :
    ((moveToFront c.lru r).filterMap fun r => c.elems[r]?) = e :: without key c.entries := by
  unfold moveToFront
  rw [if_pos (h.entry_of_index hr).1, List.filterMap_cons_some he, h.entries_erase hr]

/-- The entry of a key and the others. -/
theorem entries_perm (h : c.Sound) (hr : c.index key = some r) {e : CacheEntry}
    (he : c.elems[r]? = some e) : c.entries.Perm (e :: without key c.entries) := by
  rw [← h.entries_moveToFront hr he]
  exact (moveToFront_perm (h.entry_of_index hr).1).symm.filterMap _

/-! ## Every operation keeps the parts together -/

/-- The new cache is sound. -/
theorem new (maxBytes : ℤ) : (StripeCache.new maxBytes).Sound where
  live := by simp [StripeCache.new]
  once := List.nodup_nil
  index_iff := by simp [StripeCache.new]
  bytes := rfl

/-- A `Get` keeps a cache sound. -/
theorem get (h : c.Sound) (key : Bytes) : (c.get key).2.Sound := by
  unfold StripeCache.get
  cases hidx : c.index key with
  | none => exact h
  | some r =>
    obtain ⟨hmem, e, he, hkey⟩ := h.entry_of_index hidx
    have hperm := moveToFront_perm hmem
    constructor
    case live => exact fun r' hr' => h.live r' (hperm.subset hr')
    case once => exact hperm.nodup_iff.mpr h.once
    case index_iff =>
      intro k r'
      rw [hperm.mem_iff]
      exact h.index_iff k r'
    case bytes => exact h.bytes.trans (totalBytes_perm (hperm.symm.filterMap _))

/-- It only changes the order. -/
theorem get_perm (h : c.Sound) (key : Bytes) : (c.get key).2.entries.Perm c.entries := by
  unfold StripeCache.get
  cases hidx : c.index key with
  | none => exact .refl _
  | some r => exact (moveToFront_perm (h.entry_of_index hidx).1).filterMap _

/-- The entry of the key, if there is one, is now the most recently used. -/
theorem used_get (h : c.Sound) (key : Bytes) : Used key c.entries (c.get key).2.entries := by
  unfold StripeCache.get
  cases hidx : c.index key with
  | none => exact .inl ⟨h.key_ne_of_index hidx, rfl⟩
  | some r =>
    obtain ⟨hmem, e, he, hkey⟩ := h.entry_of_index hidx
    exact .inr ⟨e, mem_entries.mpr ⟨r, hmem, he⟩, hkey, h.entries_moveToFront hidx he⟩

/-- What a `Get` finds is the entry of its key. -/
theorem entry_of_get (h : c.Sound) (hd : (c.get key).1 = some data) :
    (⟨key, data⟩ : CacheEntry) ∈ c.entries := by
  rw [get_fst] at hd
  obtain ⟨r, hidx, hbytes⟩ := Option.bind_eq_some_iff.mp hd
  obtain ⟨hmem, e, he, rfl⟩ := h.entry_of_index hidx
  rw [he] at hbytes
  obtain rfl := Option.some.inj hbytes
  exact mem_entries.mpr ⟨r, hmem, he⟩

/-- The new entry is in front of those of the other keys, before the eviction. -/
theorem entries_insert (h : c.Sound) (key data : Bytes) :
    (c.insert key data).entries = ⟨key, data⟩ :: without key c.entries := by
  unfold StripeCache.insert
  cases hidx : c.index key with
  | none =>
    rw [h.without_of_index_none hidx]
    unfold entries
    dsimp only
    rw [List.filterMap_cons_some List.getElem?_concat_length]
    congr 1
    refine List.filterMap_congr fun r hr => ?_
    obtain ⟨e, he⟩ := h.live r hr
    exact List.getElem?_append_left (List.getElem?_eq_some_iff.mp he).1
  | some r =>
    obtain ⟨hmem, e, he, rfl⟩ := h.entry_of_index hidx
    have hlt : r < c.elems.length := (List.getElem?_eq_some_iff.mp he).1
    rw [← h.entries_erase hidx]
    simp only [he]
    unfold entries moveToFront
    dsimp only
    rw [if_pos hmem, List.filterMap_cons_some (List.getElem?_set_self hlt)]
    congr 1
    -- The elements of the other keys are not the one that was overwritten.
    refine List.filterMap_congr fun r' hr' => ?_
    exact List.getElem?_set_ne (h.once.mem_erase_iff.mp hr').1.symm

/-- An entry of a new key: a new element in front. -/
theorem insert_new (h : c.Sound) {key : Bytes} (data : Bytes) (hidx : c.index key = none) :
    (c.insert key data).Sound := by
  have hentries := h.entries_insert key data
  unfold StripeCache.insert at hentries ⊢
  simp only [hidx] at hentries
  have hnew : c.elems.length ∉ c.lru := by
    intro hmem
    obtain ⟨e, he⟩ := h.live _ hmem
    exact absurd (List.getElem?_eq_some_iff.mp he).1 (lt_irrefl _)
  have hold {r : ℕ} (hr : r ∈ c.lru) : (c.elems ++ [⟨key, data⟩])[r]? = c.elems[r]? := by
    obtain ⟨e, he⟩ := h.live r hr
    exact List.getElem?_append_left (List.getElem?_eq_some_iff.mp he).1
  rw [hidx]
  constructor
  case live =>
    intro r hr
    rcases List.mem_cons.mp hr with rfl | hr
    · exact ⟨_, List.getElem?_concat_length⟩
    · obtain ⟨e, he⟩ := h.live r hr
      exact ⟨e, (hold hr).trans he⟩
  case once => exact List.nodup_cons.mpr ⟨hnew, h.once⟩
  case index_iff =>
    intro k r
    dsimp only
    by_cases hr : r = c.elems.length
    · subst hr
      have hindex : c.index k ≠ some c.elems.length := by
        intro hk
        exact hnew (h.entry_of_index hk).1
      by_cases hk : k = key
      · simp [hk]
      · simp [hk, hindex, Ne.symm hk]
    · by_cases hk : k = key
      · -- No older element has the new key.
        have hnone : ¬ (r ∈ c.lru ∧ c.elems[r]?.map CacheEntry.key = some key) := by
          rw [← h.index_iff, hidx]
          simp
        subst hk
        rw [if_pos rfl, List.mem_cons, or_iff_right hr]
        refine ⟨fun heq => absurd (Option.some.inj heq).symm hr, fun ⟨hmem, hkey⟩ => ?_⟩
        exact absurd ⟨hmem, hold hmem ▸ hkey⟩ hnone
      · rw [if_neg hk, h.index_iff, List.mem_cons, or_iff_right hr]
        refine and_congr_right fun hmem => ?_
        rw [hold hmem]
  case bytes =>
    rw [hentries, totalBytes_cons, h.without_of_index_none hidx, ← h.bytes, add_comm]

/-- An entry of a key that is there: its element has other bytes, and is moved to the front. -/
theorem insert_known (h : c.Sound) {key : Bytes} (data : Bytes) {r : ℕ} (hidx : c.index key = some r) :
    (c.insert key data).Sound := by
  have hentries := h.entries_insert key data
  unfold StripeCache.insert at hentries ⊢
  obtain ⟨hmem, e, he, rfl⟩ := h.entry_of_index hidx
  simp only [hidx, he] at hentries ⊢
  have hperm := moveToFront_perm hmem
  have hlt : r < c.elems.length := (List.getElem?_eq_some_iff.mp he).1
  -- The keys of the elements are as before.
  have hkeys (r' : ℕ) : (c.elems.set r ⟨e.key, data⟩)[r']?.map CacheEntry.key =
      c.elems[r']?.map CacheEntry.key := by
    by_cases heq : r = r'
    · rw [← heq, List.getElem?_set_self hlt, he]
      rfl
    · rw [List.getElem?_set_ne heq]
  constructor
  case live =>
    intro r' hr'
    obtain ⟨e', he'⟩ := h.live r' (hperm.subset hr')
    have hsome := hkeys r'
    rw [he'] at hsome
    obtain ⟨e'', he'', -⟩ := Option.map_eq_some_iff.mp hsome
    exact ⟨e'', he''⟩
  case once => exact hperm.nodup_iff.mpr h.once
  case index_iff =>
    intro k r'
    rw [hperm.mem_iff, hkeys]
    exact h.index_iff k r'
  case bytes =>
    rw [hentries, totalBytes_cons, h.bytes, totalBytes_perm (h.entries_perm hidx he),
      totalBytes_cons]
    dsimp only
    omega

/-- An insertion keeps a cache sound. -/
theorem insert (h : c.Sound) (key data : Bytes) : (c.insert key data).Sound := by
  cases hidx : c.index key with
  | none => exact h.insert_new data hidx
  | some r => exact h.insert_known data hidx

end Sound

/-- The cache after one turn of the loop of `evictLocked`, which takes the entry at the back. -/
def dropOldest (c : StripeCache) (entry : CacheEntry) : StripeCache :=
  { c with
    lru := c.lru.dropLast
    index := fun k => if k = entry.key then none else c.index k
    curBytes := c.curBytes - entry.bytes.length }

namespace Sound

variable {c : StripeCache}

/-- The list ends with its oldest element. -/
theorem lru_eq {oldest : ℕ} (hlast : c.lru.getLast? = some oldest) :
    c.lru = c.lru.dropLast ++ [oldest] :=
  (List.dropLast_append_getLast? oldest hlast).symm

/-- The oldest entry is the last one. -/
theorem entries_dropOldest {oldest : ℕ} {entry : CacheEntry} (hlast : c.lru.getLast? = some oldest)
    (hentry : c.elems[oldest]? = some entry) : c.entries = (c.dropOldest entry).entries ++ [entry] := by
  unfold entries dropOldest
  dsimp only
  conv_lhs => rw [lru_eq hlast, List.filterMap_append, List.filterMap_cons_some hentry]
  rfl

/-- Dropping it keeps the cache sound. -/
theorem dropOldest (h : c.Sound) {oldest : ℕ} {entry : CacheEntry}
    (hlast : c.lru.getLast? = some oldest) (hentry : c.elems[oldest]? = some entry) :
    (c.dropOldest entry).Sound := by
  have hmem : oldest ∈ c.lru := List.mem_of_getLast? hlast
  have hnot : oldest ∉ c.lru.dropLast := by
    have hnodup := h.once
    rw [lru_eq hlast] at hnodup
    exact fun hin => (List.nodup_append.mp hnodup).2.2 oldest hin oldest (by simp) rfl
  constructor
  case live => exact fun r hr => h.live r (List.dropLast_subset _ hr)
  case once => exact h.once.sublist (List.dropLast_sublist _)
  case index_iff =>
    intro k r
    change (if k = entry.key then none else c.index k) = some r ↔ r ∈ c.lru.dropLast ∧ _
    have hin : r ∈ c.lru ↔ r ∈ c.lru.dropLast ∨ r = oldest := by
      conv_lhs => rw [lru_eq hlast]
      simp
    by_cases hk : k = entry.key
    · -- The entry at the back is the only one of its key.
      rw [if_pos hk]
      refine ⟨fun habs => absurd habs (by simp), fun ⟨hr, hkey⟩ => ?_⟩
      obtain ⟨e, he, hek⟩ := Option.map_eq_some_iff.mp hkey
      have hsame := h.key_inj (hin.mpr (.inl hr)) hmem he hentry (hek.trans hk)
      exact absurd (hsame ▸ hr) hnot
    · rw [if_neg hk, h.index_iff, hin]
      refine ⟨fun ⟨hr, hkey⟩ => ⟨hr.resolve_right ?_, hkey⟩, fun ⟨hr, hkey⟩ => ⟨.inl hr, hkey⟩⟩
      rintro rfl
      rw [hentry] at hkey
      exact hk (Option.some.inj hkey).symm
  case bytes =>
    have htotal := h.bytes
    rw [entries_dropOldest hlast hentry, totalBytes_append, totalBytes_cons, totalBytes_nil] at htotal
    change c.curBytes - entry.bytes.length = _
    omega

/-- The loop of `evictLocked` stops at the longest prefix within the budget. -/
theorem evict (h : c.Sound) (hmax : 0 ≤ c.maxBytes) {n : ℕ} (hn : c.lru.length ≤ n) :
    (c.evict n).Sound ∧ LongestWithin c.maxBytes c.entries (c.evict n).entries := by
  induction n generalizing c with
  | zero =>
    have hnil : c.lru = [] := List.length_eq_zero_iff.mp (Nat.le_zero.mp hn)
    refine ⟨h, List.prefix_refl _, ?_, fun p hp _ => hp⟩
    unfold entries
    simpa [StripeCache.evict, hnil] using hmax
  | succ n ih =>
    unfold StripeCache.evict
    by_cases hfit : c.curBytes ≤ c.maxBytes
    · rw [if_pos hfit]
      exact ⟨h, List.prefix_refl _, h.bytes ▸ hfit, fun p hp _ => hp⟩
    rw [if_neg hfit]
    cases hlast : c.lru.getLast? with
    | none =>
      -- An empty list has no bytes to be over the budget with.
      have hnil : c.lru = [] := List.getLast?_eq_none_iff.mp hlast
      refine absurd ?_ hfit
      rw [h.bytes]
      unfold entries
      simpa [hnil] using hmax
    | some oldest =>
      obtain ⟨entry, hentry⟩ := h.live oldest (List.mem_of_getLast? hlast)
      simp only [hentry]
      have hlen : (c.dropOldest entry).lru.length ≤ n := by
        change c.lru.dropLast.length ≤ n
        rw [List.length_dropLast]
        omega
      obtain ⟨hsound, hlong⟩ := ih (c := c.dropOldest entry) (h.dropOldest hlast hentry) hmax hlen
      have hentries := entries_dropOldest hlast hentry
      refine ⟨hsound, hlong.front.trans ?_, hlong.within, fun p hp hwithin => ?_⟩
      · rw [hentries]
        exact List.prefix_append _ _
      · refine hlong.longest p ?_ hwithin
        have hne : p ≠ c.entries := by
          rintro rfl
          exact hfit (h.bytes ▸ hwithin)
        have hdrop := prefix_dropLast hp hne
        rwa [hentries, List.dropLast_concat] at hdrop

/-- An accepted `Put` keeps the longest prefix of the entries with its own in front. -/
theorem put (h : c.Sound) (hmax : 0 ≤ c.maxBytes) {key data : Bytes}
    (hfit : (data.length : ℤ) ≤ c.maxBytes) :
    (c.put key data).Sound ∧
      LongestWithin c.maxBytes (⟨key, data⟩ :: without key c.entries) (c.put key data).entries := by
  unfold StripeCache.put
  rw [if_neg (not_lt.mpr hfit), ← h.entries_insert key data, ← maxBytes_insert c key data]
  exact (h.insert key data).evict (by rwa [maxBytes_insert]) le_rfl

end Sound

/-! ## Runs -/

/-- A call of the cache. -/
inductive CacheOp where
  | get (key : Bytes)
  | put (key data : Bytes)

/-- The cache after a call. -/
def after (c : StripeCache) : CacheOp → StripeCache
  | .get key => (c.get key).2
  | .put key data => c.put key data

/-- The cache after a sequence of calls. -/
def run (maxBytes : ℤ) (ops : List CacheOp) : StripeCache := ops.foldl after (new maxBytes)

/-- What a call puts under a key, where it is accepted. -/
def CacheOp.accepted (maxBytes : ℤ) (key : Bytes) : CacheOp → Option Bytes
  | .get _ => none
  | .put k data => if k = key ∧ (data.length : ℤ) ≤ maxBytes then some data else none

/-- The bytes of the latest accepted `Put` of a key. -/
def latest (maxBytes : ℤ) (key : Bytes) (ops : List CacheOp) : Option Bytes :=
  ops.reverse.findSome? (CacheOp.accepted maxBytes key)

/-- The latest text after one more operation. -/
theorem latest_concat (maxBytes : ℤ) (key : Bytes) (ops : List CacheOp) (op : CacheOp) :
    latest maxBytes key (ops ++ [op]) = (op.accepted maxBytes key).or (latest maxBytes key ops) := by
  unfold latest
  rw [List.reverse_append, List.reverse_singleton, List.singleton_append, List.findSome?_cons]
  cases op.accepted maxBytes key <;> rfl

/-- What holds of the cache after the calls `ops`. -/
structure Holds (maxBytes : ℤ) (ops : List CacheOp) (c : StripeCache) : Prop where
  sound : c.Sound
  budget : c.maxBytes = maxBytes
  within : totalBytes c.entries ≤ maxBytes
  fresh : ∀ e ∈ c.entries, latest maxBytes e.key ops = some e.bytes

variable {maxBytes : ℤ} {ops : List CacheOp} {c : StripeCache}

/-- What a `Put` within the budget leaves. -/
theorem Holds.put (h : Holds maxBytes ops c) (h0 : 0 ≤ maxBytes) (key : Bytes) {data : Bytes}
    (hfit : (data.length : ℤ) ≤ maxBytes) :
    (c.put key data).Sound ∧
      LongestWithin maxBytes (⟨key, data⟩ :: without key c.entries) (c.put key data).entries := by
  obtain rfl := h.budget
  exact h.sound.put h0 hfit

/-- One more call keeps the invariant. -/
theorem Holds.step (h0 : 0 ≤ maxBytes) (h : Holds maxBytes ops c) (op : CacheOp) :
    Holds maxBytes (ops ++ [op]) (c.after op) := by
  cases op with
  | get key =>
    have hperm := h.sound.get_perm key
    constructor
    case sound => exact h.sound.get key
    case budget => exact (maxBytes_get c key).trans h.budget
    case within => exact (totalBytes_perm hperm).trans_le h.within
    case fresh =>
      intro e he
      rw [latest_concat]
      exact h.fresh e (hperm.subset he)
  | put key data =>
    by_cases hfit : (data.length : ℤ) ≤ maxBytes
    · obtain ⟨hsound, hlong⟩ := h.put h0 key hfit
      constructor
      case sound => exact hsound
      case budget => exact (maxBytes_put c key data).trans h.budget
      case within => exact hlong.within
      case fresh =>
        intro e he
        rw [latest_concat]
        rcases List.mem_cons.mp (hlong.front.subset he) with rfl | hold
        · simp [CacheOp.accepted, hfit]
        · obtain ⟨hmem, hkey⟩ := List.mem_filter.mp hold
          have hne : key ≠ e.key := Ne.symm (by simpa using hkey)
          simpa [CacheOp.accepted, hne] using h.fresh e hmem
    · have hsame : c.after (.put key data) = c := put_of_lt (h.budget.trans_lt (not_le.mp hfit)) key
      rw [hsame]
      refine ⟨h.sound, h.budget, h.within, fun e he => ?_⟩
      rw [latest_concat]
      simpa [CacheOp.accepted, hfit] using h.fresh e he

/-- The invariant holds after any calls. -/
theorem holds_run (h0 : 0 ≤ maxBytes) (ops : List CacheOp) :
    Holds maxBytes ops (run maxBytes ops) := by
  induction ops using List.reverseRecOn with
  | nil => exact ⟨.new maxBytes, rfl, h0, by simp [run, entries, StripeCache.new]⟩
  | append_singleton ops op ih =>
    unfold run
    rw [List.foldl_append]
    exact ih.step h0 op

end StripeCache

open StripeCache

/-- `StripeCache` is a cache that forgets the least recently used first. After every sequence of
calls its parts fit together within the budget, a `Get` brings the entry that it finds to the front,
an accepted `Put` keeps its own entry and those of the others that still fit behind it, in their
order, and a rejected one changes nothing; and what a `Get` finds is what was put last. -/
theorem stripeCache_lru {maxBytes : ℤ} (h0 : 0 ≤ maxBytes) (ops : List CacheOp) :
    (run maxBytes ops).Sound ∧ ((run maxBytes ops).entries.map CacheEntry.key).Nodup ∧
      (run maxBytes ops).curBytes ≤ maxBytes ∧
      (∀ key, Used key (run maxBytes ops).entries ((run maxBytes ops).get key).2.entries) ∧
      (∀ key data : Bytes, (data.length : ℤ) ≤ maxBytes →
        (⟨key, data⟩ : CacheEntry) ∈ ((run maxBytes ops).put key data).entries ∧
          LongestWithin maxBytes (⟨key, data⟩ :: without key (run maxBytes ops).entries)
            ((run maxBytes ops).put key data).entries) ∧
      (∀ key data : Bytes, maxBytes < data.length →
        (run maxBytes ops).put key data = run maxBytes ops) ∧
      ∀ key data : Bytes, ((run maxBytes ops).get key).1 = some data →
        latest maxBytes key ops = some data := by
  have h := holds_run h0 ops
  refine ⟨h.sound, h.sound.nodup_keys, h.sound.bytes.trans_le h.within, h.sound.used_get,
    fun key data hfit => ?_, fun key data hbig => ?_, fun key data hget => ?_⟩
  · obtain ⟨-, hlong⟩ := h.put h0 key hfit
    refine ⟨?_, hlong⟩
    -- On its own the entry is within the budget, so the prefix is not shorter.
    have hfirst : [(⟨key, data⟩ : CacheEntry)] <+: ((run maxBytes ops).put key data).entries := by
      refine hlong.longest _ ?_ (by simpa using hfit)
      exact List.cons_prefix_cons.mpr ⟨rfl, List.nil_prefix⟩
    exact hfirst.subset (by simp)
  · exact put_of_lt (h.budget.trans_lt hbig) key
  · exact h.fresh _ (h.sound.entry_of_get hget)

/-- A second text that needs the room evicts the first one. -/
theorem stripeCache_lru_two :
    (run 4 [.put (lit "a") [1, 2, 3], .put (lit "b") [4, 5]]).Sound ∧
      (run 4 [.put (lit "a") [1, 2, 3], .put (lit "b") [4, 5]]).entries = [⟨lit "b", [4, 5]⟩] :=
  ⟨(stripeCache_lru (by decide) _).1, rfl⟩

end FnShare
