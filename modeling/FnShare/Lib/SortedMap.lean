import Mathlib.Data.List.Basic
import Mathlib.Data.List.Pairwise
import Mathlib.Tactic.Common

/-!
# Maps kept in key order

A map is the list of its entries in strictly increasing key order, as an ordered key-value store
holds and enumerates them. The order is a field of the structure, so every map has each key once.
-/

namespace FnShare

/-- A map from `κ` to `υ`: its entries in strictly increasing key order. -/
structure SortedMap (κ υ : Type) [LT κ] where
  /-- The entries. -/
  entries : List (κ × υ)
  /-- The keys increase strictly. -/
  sorted : entries.Pairwise fun a b => a.1 < b.1

namespace SortedMap

variable {κ υ : Type} [LT κ]

/-- The map with no entries. -/
def empty : SortedMap κ υ := ⟨[], .nil⟩

variable [DecidableEq κ]

/-- The value of a key in a list of entries. -/
def lookup (k : κ) : List (κ × υ) → Option υ
  | [] => none
  | e :: es => if k = e.1 then some e.2 else lookup k es

/-- The value that a map holds at a key. -/
def get (m : SortedMap κ υ) (k : κ) : Option υ := lookup k m.entries

/-- The empty map. -/
@[simp] theorem get_empty (k : κ) : (empty : SortedMap κ υ).get k = none := rfl

variable [DecidableLT κ]

/-- Insert an entry before the first larger key, or in the place of the entry with its key. -/
def insert (k : κ) (v : υ) : List (κ × υ) → List (κ × υ)
  | [] => [(k, v)]
  | e :: es =>
    if k = e.1 then (k, v) :: es
    else if k < e.1 then (k, v) :: e :: es
    else e :: insert k v es

/-- The entries after an insertion are the new one and old ones. -/
theorem mem_insert {k : κ} {v : υ} {es : List (κ × υ)} {e : κ × υ} (h : e ∈ insert k v es) :
    e = (k, v) ∨ e ∈ es := by
  induction es with
  | nil => simpa [insert] using h
  | cons a es ih =>
    unfold insert at h
    split_ifs at h
    · rcases List.mem_cons.mp h with h | h
      · exact .inl h
      · exact .inr (List.mem_cons_of_mem _ h)
    · rcases List.mem_cons.mp h with h | h
      · exact .inl h
      · exact .inr h
    · rcases List.mem_cons.mp h with h | h
      · exact .inr (h ▸ List.mem_cons_self)
      · exact (ih h).imp_right (List.mem_cons_of_mem _)

/-- Looking up the inserted key gives the inserted value. -/
theorem lookup_insert_self (k : κ) (v : υ) (es : List (κ × υ)) :
    lookup k (insert k v es) = some v := by
  induction es with
  | nil => simp [insert, lookup]
  | cons a es ih =>
    unfold insert
    split_ifs with h1 h2
    · simp [lookup]
    · simp [lookup]
    · simp [lookup, h1, ih]

/-- An insertion leaves the other keys as they were. -/
theorem lookup_insert_ne {k k' : κ} (h : k' ≠ k) (v : υ) (es : List (κ × υ)) :
    lookup k' (insert k v es) = lookup k' es := by
  induction es with
  | nil => simp [insert, lookup, h]
  | cons a es ih =>
    unfold insert
    split_ifs with h1 h2
    · subst h1
      simp [lookup, h]
    · simp [lookup, h]
    · simp [lookup, ih]

section Order

variable [LE κ] [Std.IsLinearOrder κ] [Std.LawfulOrderLT κ]

/-- An insertion keeps the keys in order. -/
theorem pairwise_insert {k : κ} {v : υ} {es : List (κ × υ)}
    (h : es.Pairwise fun a b => a.1 < b.1) : (insert k v es).Pairwise fun a b => a.1 < b.1 := by
  induction es with
  | nil => simp [insert]
  | cons a es ih =>
    rw [List.pairwise_cons] at h
    unfold insert
    split_ifs with h1 h2
    · subst h1
      exact List.pairwise_cons.mpr ⟨h.1, h.2⟩
    · refine List.pairwise_cons.mpr ⟨?_, List.pairwise_cons.mpr h⟩
      intro e he
      rcases List.mem_cons.mp he with rfl | he
      · exact h2
      · exact Std.lt_trans h2 (h.1 e he)
    · refine List.pairwise_cons.mpr ⟨?_, ih h.2⟩
      intro e he
      have hak : a.1 < k := Std.lt_of_le_of_ne (Std.not_lt.mp h2) (Ne.symm h1)
      rcases mem_insert he with rfl | he
      · exact hak
      · exact h.1 e he

/-- The map with one entry added or replaced. -/
def put (m : SortedMap κ υ) (k : κ) (v : υ) : SortedMap κ υ :=
  ⟨insert k v m.entries, pairwise_insert m.sorted⟩

/-- The value that is put. -/
@[simp] theorem get_put_self (m : SortedMap κ υ) (k : κ) (v : υ) : (m.put k v).get k = some v :=
  lookup_insert_self k v m.entries

/-- The other keys stay. -/
@[simp] theorem get_put_ne (m : SortedMap κ υ) {k k' : κ} (h : k' ≠ k) (v : υ) :
    (m.put k v).get k' = m.get k' := lookup_insert_ne h v m.entries

/-- A map after values were put under their keys: the last one that was put under a key. -/
theorem get_foldl_put {α : Type} (key : α → κ) (value : α → υ) (l : List α) (m : SortedMap κ υ) (k : κ) :
    (l.foldl (fun m a => m.put (key a) (value a)) m).get k =
      ((l.reverse.find? fun a => key a = k).map value).or (m.get k) := by
  induction l generalizing m with
  | nil => rfl
  | cons a l ih =>
    rw [List.foldl_cons, ih, List.reverse_cons, List.find?_append]
    by_cases hk : key a = k
    · rw [List.find?_singleton, if_pos (by simpa using hk), ← hk, get_put_self]
      cases l.reverse.find? fun b => key b = key a <;> rfl
    · rw [List.find?_singleton, if_neg (by simpa using hk), get_put_ne _ (Ne.symm hk), Option.or_none]

omit [DecidableLT κ] [Std.IsLinearOrder κ] in
/-- The entries of a map are the keys that it holds with their values. -/
theorem mem_entries_iff (m : SortedMap κ υ) (k : κ) (v : υ) :
    (k, v) ∈ m.entries ↔ m.get k = some v := by
  obtain ⟨es, hs⟩ := m
  unfold get
  dsimp only
  induction es with
  | nil => simp [lookup]
  | cons a es ih =>
    rw [List.pairwise_cons] at hs
    rw [List.mem_cons, ih hs.2, lookup]
    split_ifs with h
    · subst h
      constructor
      · rintro (h | h)
        · exact congrArg some (congrArg Prod.snd h).symm
        · exact absurd (hs.1 (a.1, v) ((ih hs.2).mpr h)) Std.lt_irrefl
      · intro h
        exact .inl (Prod.ext rfl (Option.some.inj h).symm)
    · constructor
      · rintro (h' | h')
        · exact absurd (congrArg Prod.fst h') h
        · exact h'
      · exact .inr

omit [DecidableLT κ] [Std.IsLinearOrder κ] in
/-- A map has at most one entry for a key. -/
theorem filter_key_eq (m : SortedMap κ υ) (k : κ) :
    m.entries.filter (fun e => e.1 = k) = ((m.get k).map fun v => (k, v)).toList := by
  obtain ⟨es, hs⟩ := m
  unfold get
  dsimp only
  induction es with
  | nil => simp [lookup]
  | cons a es ih =>
    rw [List.pairwise_cons] at hs
    by_cases h : a.1 = k
    · subst h
      have hrest : es.filter (fun e => e.1 = a.1) = [] := by
        rw [List.filter_eq_nil_iff]
        intro e he heq
        have hlt := hs.1 e he
        rw [of_decide_eq_true heq] at hlt
        exact absurd hlt Std.lt_irrefl
      simp [lookup, hrest]
    · have h' : ¬ k = a.1 := fun e => h e.symm
      simp [lookup, h, h', ih hs.2]

end Order

end SortedMap

end FnShare
