import FnShare.Lib.Sha256
import Mathlib.Data.List.Sort

/-!
# The holders of a file

The package `internal/holders`: every member of a group has a weight for a file, the hash of the two,
and the members of the highest weights hold the file's shards.
-/

namespace FnShare

/-- `weight`. -/
def weight (peer key : Bytes) : ℕ := ofBE ((sha256 (peer ++ [0] ++ key)).take 8)

/-- `sortByScore`. Equal weights, between which `sort.Slice` promises no order, keep theirs. -/
def sortByScore (peers : List Bytes) (key : Bytes) : List Bytes :=
  peers.insertionSort fun a b => weight b key ≤ weight a key

/-- `Pick`. -/
def pick (candidates : List Bytes) (key : Bytes) (n : ℤ) : List Bytes :=
  if n ≤ 0 then []
  else if (candidates.length : ℤ) ≤ n then sortByScore candidates key
  else (sortByScore candidates key).take n.toNat

/-- `IndexOf`. -/
def indexOf (candidates : List Bytes) (key peer : Bytes) : ℤ :=
  match (sortByScore candidates key).idxOf? peer with
  | some i => i
  | none => -1

variable {n : ℤ} {key x : Bytes} {C : List Bytes}

/-- Where there are enough candidates, as many are picked as asked for. -/
theorem length_pick {candidates : List Bytes} (hn : 0 < n) (h : n ≤ candidates.length)
    (key : Bytes) : ((pick candidates key n).length : ℤ) = n := by
  unfold pick sortByScore
  rw [if_neg (by omega)]
  split_ifs with hle
  · rw [List.length_insertionSort]
    omega
  · rw [List.length_take, List.length_insertionSort]
    omega

/-- The holders picked are among the candidates. -/
theorem mem_of_mem_pick {candidates : List Bytes} {h : Bytes}
    (hh : h ∈ pick candidates key n) : h ∈ candidates := by
  unfold pick sortByScore at hh
  split_ifs at hh
  · exact absurd hh (by simp)
  · exact (List.mem_insertionSort _).mp hh
  · exact (List.mem_insertionSort _).mp (List.mem_of_mem_take hh)

/-! ### The candidates in the order of their weights -/

/-- Sorting is a permutation. -/
theorem sortByScore_perm (peers : List Bytes) (key : Bytes) :
    (sortByScore peers key).Perm peers :=
  List.perm_insertionSort _ _

/-- The weights do not increase. -/
theorem pairwise_sortByScore (peers : List Bytes) (key : Bytes) :
    (sortByScore peers key).Pairwise fun a b => weight b key ≤ weight a key := by
  have : Std.Total fun a b : Bytes => weight b key ≤ weight a key := ⟨fun a b => le_total _ _⟩
  have : IsTrans Bytes fun a b => weight b key ≤ weight a key := ⟨fun a b c hab hbc => hbc.trans hab⟩
  exact List.pairwise_insertionSort _ _

/-- No two of the peers have the same weight for the key. -/
def WeightsDistinct (peers : List Bytes) (key : Bytes) : Prop :=
  peers.Pairwise fun a b => weight a key ≠ weight b key

namespace WeightsDistinct

variable {C' : List Bytes}

/-- Candidates of distinct weights are distinct. -/
theorem nodup (h : WeightsDistinct C key) : C.Nodup := by
  refine List.Pairwise.imp ?_ h
  rintro a b hne rfl
  exact hne rfl

/-- The order does not matter. -/
theorem perm (h : WeightsDistinct C key) (hp : C.Perm C') : WeightsDistinct C' key :=
  (hp.pairwise_iff Ne.symm).mp h

/-- A weight belongs to one candidate. -/
theorem weight_inj (h : WeightsDistinct C key) {a b : Bytes} (ha : a ∈ C) (hb : b ∈ C)
    (hab : weight a key = weight b key) : a = b := by
  by_contra hne
  have : Std.Symm fun a b : Bytes => weight a key ≠ weight b key := ⟨fun _ _ => Ne.symm⟩
  exact List.Pairwise.forall h ha hb hne hab

/-- The order is the only one by descending weight: another sort, stable or not, would return the
same list. -/
theorem sortByScore_eq (h : WeightsDistinct C key) {out : List Bytes} (hp : out.Perm C)
    (hs : out.Pairwise fun a b => weight b key ≤ weight a key) : sortByScore C key = out := by
  refine List.Perm.eq_of_pairwise (fun a b ha hb hab hba => ?_) (pairwise_sortByScore C key) hs
    ((sortByScore_perm C key).trans hp.symm)
  exact h.weight_inj ((sortByScore_perm C key).mem_iff.mp ha) (hp.mem_iff.mp hb)
    (le_antisymm hba hab)

/-- The weights decrease. -/
theorem strict (h : WeightsDistinct C key) :
    (sortByScore C key).Pairwise fun a b => weight b key < weight a key :=
  ((pairwise_sortByScore C key).and (h.perm (sortByScore_perm C key).symm)).imp
    fun ⟨hle, hne⟩ => lt_of_le_of_ne hle hne.symm

/-- Without the candidate that two sets of candidates differ by, their orders are the same. That
candidate may have the weight of another one. -/
theorem erase_sortByScore (h : WeightsDistinct C key) {x : Bytes} (hp : C'.Perm (x :: C)) :
    (sortByScore C' key).erase x = sortByScore C key := by
  have hperm : ((sortByScore C' key).erase x).Perm C := by
    simpa using ((sortByScore_perm C' key).trans hp).erase x
  exact (h.sortByScore_eq hperm ((pairwise_sortByScore C' key).sublist List.erase_sublist)).symm

end WeightsDistinct

/-- Both branches of `Pick` cut the order at the number asked for. -/
theorem pick_eq_take (hn : 1 ≤ n) (C : List Bytes) (key : Bytes) :
    pick C key n = (sortByScore C key).take n.toNat := by
  unfold pick
  rw [if_neg (by omega)]
  split_ifs with hle
  · have hlen : (sortByScore C key).length = C.length := (sortByScore_perm C key).length_eq
    rw [List.take_of_length_le (by omega)]
  · rfl

/-- The position that `IndexOf` returns is the one of the order. -/
theorem indexOf_eq_iff (h : WeightsDistinct C key) (p : Bytes)
    (i : ℕ) : indexOf C key p = i ↔ (sortByScore C key)[i]? = some p := by
  have hnodup : (sortByScore C key).Nodup := (sortByScore_perm C key).nodup_iff.mpr h.nodup
  unfold indexOf
  cases hidx : (sortByScore C key).idxOf? p with
  | none =>
    have hp : p ∉ sortByScore C key := List.idxOf?_eq_none_iff.mp hidx
    simp only
    constructor
    · intro hi
      omega
    · intro hi
      exact absurd (List.mem_of_getElem? hi) hp
  | some j =>
    obtain ⟨hlt, hpj, -⟩ := List.findIdx?_eq_some_iff_getElem.mp hidx
    have hj : (sortByScore C key)[j]? = some p := by
      rw [List.getElem?_eq_getElem hlt, eq_of_beq hpj]
    simp only [Nat.cast_inj]
    constructor
    · rintro rfl
      exact hj
    · intro hi
      exact (List.getElem?_inj hlt hnodup).mp (hj.trans hi.symm)

/-! ### What a node picks -/

/-- The candidates of the highest weights, at most `n` of them. -/
structure Highest (C : List Bytes) (key : Bytes) (n : ℤ) (picked : List Bytes) : Prop where
  /-- There are `n` of them, or all where there are fewer. -/
  length : (picked.length : ℤ) = min n C.length
  /-- They are candidates. -/
  subset : picked ⊆ C
  /-- The weights descend. -/
  descending : picked.Pairwise fun a b => weight b key < weight a key
  /-- No candidate is picked twice. -/
  nodup : picked.Nodup
  /-- A candidate that was not picked weighs less than every one that was. -/
  above : ∀ c ∈ C, c ∉ picked → ∀ p ∈ picked, weight c key < weight p key

/-- The picked ones have the highest weights. -/
theorem WeightsDistinct.highest (h : WeightsDistinct C key) (hn : 1 ≤ n) :
    Highest C key n (pick C key n) := by
  have hperm := sortByScore_perm C key
  rw [pick_eq_take hn]
  constructor
  case length =>
    rw [List.length_take, hperm.length_eq]
    omega
  case subset => exact fun p hp => hperm.subset (List.mem_of_mem_take hp)
  case descending => exact h.strict.sublist (List.take_sublist _ _)
  case nodup => exact (hperm.nodup_iff.mpr h.nodup).sublist (List.take_sublist _ _)
  case above =>
    -- What was not picked is behind the cut.
    intro c hc hnot p hp
    have hsplit := List.take_append_drop n.toNat (sortByScore C key)
    have hdrop : c ∈ (sortByScore C key).drop n.toNat := by
      have hmem := hperm.symm.subset hc
      rw [← hsplit] at hmem
      exact (List.mem_append.mp hmem).resolve_left hnot
    have hstrict := h.strict
    rw [← hsplit] at hstrict
    exact (List.pairwise_append.mp hstrict).2.2 p hp c hdrop

/-- Holder agreement. Nodes whose member tables list the same peers in another order pick the same
holders, the candidates of the highest weights in descending order; more holders only extend the
list, and `IndexOf` is the position in it. -/
theorem holders_agree {C C' : List Bytes} {key : Bytes} {n : ℤ} (hn : 1 ≤ n) (hperm : C.Perm C')
    (hweights : WeightsDistinct C key) :
    pick C key n = pick C' key n ∧ Highest C key n (pick C key n) ∧
      pick C key n <+: pick C key (n + 1) ∧
      ∀ (p : Bytes) (i : ℕ), (i : ℤ) < n →
        ((pick C key n)[i]? = some p ↔ indexOf C key p = i) := by
  have hsame : sortByScore C key = sortByScore C' key :=
    hweights.sortByScore_eq ((sortByScore_perm C' key).trans hperm.symm) (pairwise_sortByScore C' key)
  refine ⟨?_, hweights.highest hn, ?_, ?_⟩
  · rw [pick_eq_take hn, pick_eq_take hn, hsame]
  · rw [pick_eq_take hn, pick_eq_take (by omega)]
    exact List.take_prefix_take_left (by omega)
  · intro p i hi
    rw [pick_eq_take hn, List.getElem?_take_of_lt (by omega), indexOf_eq_iff hweights]

/-- Two orders of three members. -/
theorem holders_agree_three :
    ∃ C C' : List Bytes, C ≠ C' ∧ C.Perm C' ∧ WeightsDistinct C (lit "file") ∧
      pick C (lit "file") 2 = pick C' (lit "file") 2 := by
  have hdistinct : WeightsDistinct [lit "alice", lit "bob", lit "carol"] (lit "file") := by
    unfold WeightsDistinct
    decide +kernel
  exact ⟨[lit "alice", lit "bob", lit "carol"], [lit "carol", lit "alice", lit "bob"], by decide,
    by decide, hdistinct, (holders_agree (by decide) (by decide) hdistinct).1⟩

/-! ### A candidate joins or leaves -/

/-- A list cut before one of its elements does not depend on it. -/
theorem take_erase_of_not_mem {S : List Bytes} {n : ℕ} (hx : x ∉ S.take n) :
    (S.erase x).take n = S.take n := by
  induction S generalizing n with
  | nil => rfl
  | cons a S ih =>
    cases n with
    | zero => rfl
    | succ n =>
      rw [List.take_succ_cons, List.mem_cons, not_or] at hx
      rw [List.erase_cons_tail (by simpa using Ne.symm hx.1), List.take_succ_cons,
        List.take_succ_cons, ih hx.2]

/-- Without an element before the cut, the cut is one place earlier. -/
theorem erase_take {S : List Bytes} {n : ℕ} (hx : x ∈ S.take n) :
    (S.take n).erase x = (S.erase x).take (n - 1) := by
  induction S generalizing n with
  | nil => simp at hx
  | cons a S ih =>
    cases n with
    | zero => simp at hx
    | succ n =>
      rw [List.take_succ_cons] at hx ⊢
      by_cases ha : a = x
      · rw [ha, List.erase_cons_head, List.erase_cons_head]
        rfl
      · have hS : x ∈ S.take n := (List.mem_cons.mp hx).resolve_left (Ne.symm ha)
        have hn : n ≠ 0 := by
          rintro rfl
          simp at hS
        obtain ⟨m, rfl⟩ := Nat.exists_eq_succ_of_ne_zero hn
        rw [List.erase_cons_tail (by simpa using ha), List.erase_cons_tail (by simpa using ha), ih hS]
        rfl

/-- The choice before a candidate `x` joined, `picked`, and after: the same, or `x` in the place
that its weight gives it, without the last one of before, which weighed the least. -/
def JoinedBy (key x : Bytes) (picked picked' : List Bytes) : Prop :=
  picked' = picked ∨
    ∃ kept lowest, picked = kept ++ [lowest] ∧ (∀ p ∈ kept, weight lowest key < weight p key) ∧
      x ∈ picked' ∧ lowest ∉ picked' ∧ picked'.erase x = kept

/-- A new candidate takes the place of the picked one of the lowest weight, or of none. -/
theorem WeightsDistinct.joined {C' : List Bytes} (h : WeightsDistinct C key) (hn : 1 ≤ n)
    (hlen : n ≤ C.length) (hx : x ∉ C) (hp : C'.Perm (x :: C)) :
    JoinedBy key x (pick C key n) (pick C' key n) := by
  have herase := h.erase_sortByScore hp
  have hC := sortByScore_perm C key
  rw [pick_eq_take hn, pick_eq_take hn]
  by_cases hmem : x ∈ (sortByScore C' key).take n.toNat
  · right
    -- The cut is behind `x`, so one fewer of the old order fits before it.
    have hlt : n.toNat - 1 < (sortByScore C key).length := by
      rw [hC.length_eq]
      omega
    have hcut : (sortByScore C key).take n.toNat =
        (sortByScore C key).take (n.toNat - 1) ++ [(sortByScore C key)[n.toNat - 1]] := by
      rw [List.take_append_getElem hlt, Nat.sub_add_cancel (by omega)]
    have hkept := erase_take hmem
    rw [herase] at hkept
    have hstrict := h.strict.sublist (List.take_sublist n.toNat _)
    rw [hcut] at hstrict
    have hbelow := (List.pairwise_append.mp hstrict).2.2
    refine ⟨_, _, hcut, fun p hpk => hbelow p hpk _ (by simp), hmem, ?_, hkept⟩
    intro hlow
    -- The one that went is not the new one, so it would be among those kept.
    have hne : (sortByScore C key)[n.toNat - 1] ≠ x := by
      intro heq
      exact hx (heq ▸ hC.subset (List.getElem_mem hlt))
    have hin := (List.mem_erase_of_ne hne).mpr hlow
    rw [hkept] at hin
    exact lt_irrefl _ (hbelow _ hin _ (by simp))
  · left
    rw [← herase, take_erase_of_not_mem hmem]

/-- The choice before a candidate `p` left, `picked`, and after, where `more` is the choice of one
more holder of before: the same where `p` was not picked, and otherwise the next candidate in the
order comes in. -/
structure LeftBy (p : Bytes) (picked more picked' : List Bytes) : Prop where
  kept : p ∉ picked → picked' = picked
  replaced : p ∈ picked → ∃ next, more = picked ++ [next] ∧ picked' = picked.erase p ++ [next]

/-- One of the candidates leaves. -/
theorem WeightsDistinct.left {C' : List Bytes} {p : Bytes} (h : WeightsDistinct C key) (hn : 1 ≤ n)
    (hlen : n < C.length) (hp : C.Perm (p :: C')) :
    LeftBy p (pick C key n) (pick C key (n + 1)) (pick C' key n) := by
  have hC' : WeightsDistinct C' key := (h.perm hp).sublist (List.sublist_cons_self _ _)
  have herase := hC'.erase_sortByScore hp
  rw [pick_eq_take hn, pick_eq_take hn, pick_eq_take (by omega)]
  constructor
  case kept =>
    intro hmem
    rw [← herase, take_erase_of_not_mem hmem]
  case replaced =>
    intro hmem
    have hlt : n.toNat < (sortByScore C key).length := by
      rw [(sortByScore_perm C key).length_eq]
      omega
    have hmore : (sortByScore C key).take (n + 1).toNat =
        (sortByScore C key).take n.toNat ++ [(sortByScore C key)[n.toNat]] := by
      rw [List.take_append_getElem hlt, Int.toNat_add (by omega) (by omega)]
      rfl
    refine ⟨_, hmore, ?_⟩
    -- Erased from the first `n + 1` of the order, `p` leaves the first `n` of the new one.
    have hmem' : p ∈ (sortByScore C key).take (n + 1).toNat := by
      rw [hmore]
      exact List.mem_append_left _ hmem
    have hcut := erase_take hmem'
    rw [hmore, List.erase_append_left _ hmem, herase] at hcut
    rw [hcut]
    congr 1
    omega

/-- Minimal disruption. A candidate that joins takes the place of the lowest of the holders picked
or of none, and one that leaves changes the choice only if it was picked, and then the next
candidate takes its place; the others keep their order. -/
theorem holders_minimal_disruption {C : List Bytes} {key : Bytes} {n : ℤ} (hn : 1 ≤ n)
    (hlen : n ≤ C.length) (hweights : WeightsDistinct C key) :
    (∀ (x : Bytes) (C' : List Bytes), x ∉ C → C'.Perm (x :: C) →
      JoinedBy key x (pick C key n) (pick C' key n)) ∧
    ∀ (p : Bytes) (C' : List Bytes), n < C.length → C.Perm (p :: C') →
      LeftBy p (pick C key n) (pick C key (n + 1)) (pick C' key n) :=
  ⟨fun _ _ hx hp => hweights.joined hn hlen hx hp, fun _ _ hlt hp => hweights.left hn hlt hp⟩

/-- A member joins the three, and one leaves. -/
theorem holders_minimal_disruption_three :
    JoinedBy (lit "file") (lit "dave")
      (pick [lit "alice", lit "bob", lit "carol"] (lit "file") 2)
      (pick [lit "alice", lit "bob", lit "dave", lit "carol"] (lit "file") 2) ∧
    LeftBy (lit "bob") (pick [lit "alice", lit "bob", lit "carol"] (lit "file") 2)
      (pick [lit "alice", lit "bob", lit "carol"] (lit "file") 3)
      (pick [lit "alice", lit "carol"] (lit "file") 2) := by
  have hdistinct : WeightsDistinct [lit "alice", lit "bob", lit "carol"] (lit "file") := by
    unfold WeightsDistinct
    decide +kernel
  have h := holders_minimal_disruption (n := 2) (by decide) (by decide) hdistinct
  exact ⟨h.1 _ _ (by decide) (by decide), h.2 _ _ (by decide) (by decide)⟩

end FnShare
