import Mathlib.Data.Nat.Digits.Lemmas
import Mathlib.Data.Int.Init
import Mathlib.Tactic.Common

/-!
# Byte strings

A Go string and a Go byte slice are both a sequence of bytes here. The module has the conversions
that the code applies to them: string literals, lower-case hexadecimal (`encoding/hex`), and the
decimal form of an integer (`%d` of `fmt`). The facts about them are that both number forms are
injective, and which bytes they are made of.
-/

namespace FnShare

/-- A byte string: the value of a Go `string` or a Go `[]byte`. -/
abbrev Bytes := List UInt8

/-- Equality of byte strings, as it is computed, is equality. -/
instance : LawfulBEq Bytes := inferInstance

/-- The lexicographic order of byte strings. -/
instance : Std.LawfulOrderLT Bytes := inferInstance

/-- The bytes of a string literal. -/
def lit (s : String) : Bytes := s.toUTF8.data.toList

/-- The value of a 64-bit two's complement operation whose exact result is `z`. -/
def wrap64 (z : ℤ) : ℤ := z.bmod (2^64)

variable {z : ℤ} {n : ℕ} {c : UInt8}

/-- An exact result in the range of `int64` is the operation's value. -/
theorem wrap64_of_range (h0 : -2^63 ≤ z) (h1 : z < 2^63) : wrap64 z = z := by
  unfold wrap64
  exact Int.bmod_eq_of_le (by omega) (by omega)

/-- The value of an operation is an `int64`. -/
theorem wrap64_range (z : ℤ) : -2^63 ≤ wrap64 z ∧ wrap64 z < 2^63 := by
  unfold wrap64
  rw [Int.bmod_eq_emod]
  split_ifs <;> omega

/-- A value above the range of `int64` wraps to a smaller one. -/
theorem wrap64_le (h : -2^63 ≤ z) : wrap64 z ≤ z := by
  unfold wrap64
  rw [Int.bmod_eq_emod]
  split_ifs <;> omega

/-! ## Hexadecimal -/

/-- The digit of a value below 16. -/
def hexDigit (n : ℕ) : UInt8 :=
  if n < 10 then UInt8.ofNat (48 + n) else UInt8.ofNat (87 + n)

/-- `hex.EncodeToString`: two lower-case digits for each byte. -/
def hexEncode : Bytes → Bytes
  | [] => []
  | b :: bs => hexDigit (b.toNat / 16) :: hexDigit (b.toNat % 16) :: hexEncode bs

/-- The bytes of a hexadecimal string: the digits and the letters from `a` to `f`. -/
def isHexDigit (b : UInt8) : Bool := (48 ≤ b && b ≤ 57) || (97 ≤ b && b ≤ 102)

/-- A hexadecimal string has two digits for each byte. -/
theorem length_hexEncode (bs : Bytes) : (hexEncode bs).length = 2 * bs.length := by
  induction bs with
  | nil => rfl
  | cons b bs ih =>
    simp only [hexEncode, List.length_cons, ih]
    omega

/-- The digit of a value below 16 is a hexadecimal digit. -/
theorem isHexDigit_hexDigit (h : n < 16) : isHexDigit (hexDigit n) = true := by
  interval_cases n <;> decide

/-- A hexadecimal string is made of hexadecimal digits. -/
theorem isHexDigit_of_mem_hexEncode {bs : Bytes} (h : c ∈ hexEncode bs) :
    isHexDigit c = true := by
  induction bs with
  | nil => simp [hexEncode] at h
  | cons b bs ih =>
    have hb := b.toNat_lt
    simp only [hexEncode, List.mem_cons] at h
    rcases h with rfl | rfl | h
    · exact isHexDigit_hexDigit (by omega)
    · exact isHexDigit_hexDigit (by omega)
    · exact ih h

/-- The digit of a value below 16 determines it. -/
theorem hexDigit_inj {m : ℕ} (hm : m < 16) (hn : n < 16) (h : hexDigit m = hexDigit n) : m = n := by
  interval_cases m <;> interval_cases n <;> first | rfl | exact absurd h (by decide)

/-- A hexadecimal string determines its bytes. -/
theorem hexEncode_inj {bs cs : Bytes} (h : hexEncode bs = hexEncode cs) : bs = cs := by
  induction bs generalizing cs with
  | nil =>
    cases cs with
    | nil => rfl
    | cons c cs => simp [hexEncode] at h
  | cons b bs ih =>
    cases cs with
    | nil => simp [hexEncode] at h
    | cons c cs =>
      have hb := b.toNat_lt
      have hc := c.toNat_lt
      simp only [hexEncode, List.cons.injEq] at h
      have hhigh := hexDigit_inj (by omega) (by omega) h.1
      have hlow := hexDigit_inj (by omega) (by omega) h.2.1
      rw [ih h.2.2, UInt8.toNat_inj.mp (show b.toNat = c.toNat by omega)]

/-! ## Decimal -/

/-- The decimal form of a natural number, most significant digit first. -/
def fmtNat (n : ℕ) : Bytes :=
  if n = 0 then [48] else ((Nat.digits 10 n).map fun d => UInt8.ofNat (48 + d)).reverse

/-- `%d` of an integer: a minus sign for a negative one, then the decimal form. -/
def fmtInt (z : ℤ) : Bytes :=
  if z < 0 then 45 :: fmtNat z.natAbs else fmtNat z.natAbs

/-- The byte of a decimal digit determines the digit. -/
theorem digitByte_inj {a b : ℕ} (ha : a < 10) (hb : b < 10)
    (h : UInt8.ofNat (48 + a) = UInt8.ofNat (48 + b)) : a = b := by
  have h' := congrArg UInt8.toNat h
  simp only [UInt8.toNat_ofNat'] at h'
  omega

/-- A decimal form has a digit. -/
theorem fmtNat_ne_nil (n : ℕ) : fmtNat n ≠ [] := by
  unfold fmtNat
  split_ifs with hn
  · simp
  · have hd : Nat.digits 10 n ≠ [] := Nat.digits_ne_nil_iff_ne_zero.mpr hn
    simpa using hd

/-- The bytes of a decimal form are decimal digits. -/
theorem fmtNat_digit (h : c ∈ fmtNat n) : 48 ≤ c.toNat ∧ c.toNat ≤ 57 := by
  unfold fmtNat at h
  split_ifs at h with hn
  · simp only [List.mem_singleton] at h
    subst h
    decide
  · rw [List.mem_reverse, List.mem_map] at h
    obtain ⟨d, hd, rfl⟩ := h
    have hlt : d < 10 := Nat.digits_lt_base (by norm_num) hd
    simp only [UInt8.toNat_ofNat']
    omega

/-- The bytes of lists of digits determine the digits. -/
theorem map_digitByte_inj : ∀ {as bs : List ℕ}, (∀ a ∈ as, a < 10) → (∀ b ∈ bs, b < 10) →
    as.map (fun d => UInt8.ofNat (48 + d)) = bs.map (fun d => UInt8.ofNat (48 + d)) → as = bs
  | [], [], _, _, _ => rfl
  | [], _ :: _, _, _, h => by simp at h
  | _ :: _, [], _, _, h => by simp at h
  | a :: as, b :: bs, ha, hb, h => by
    rw [List.map_cons, List.map_cons, List.cons.injEq] at h
    have hab := digitByte_inj (ha a (by simp)) (hb b (by simp)) h.1
    have ih := map_digitByte_inj (fun x hx => ha x (by simp [hx])) (fun x hx => hb x (by simp [hx]))
      h.2
    rw [hab, ih]

/-- The decimal form of a positive number does not start with the digit zero. -/
theorem fmtNat_ne_zero (hn : n ≠ 0) : fmtNat n ≠ [48] := by
  unfold fmtNat
  rw [if_neg hn]
  intro h
  have h' : (Nat.digits 10 n).map (fun d => UInt8.ofNat (48 + d)) =
      [0].map (fun d => UInt8.ofNat (48 + d)) := by
    have h2 := congrArg List.reverse h
    simpa using h2
  have hd := map_digitByte_inj (fun a ha => Nat.digits_lt_base (by norm_num) ha) (by simp) h'
  have := Nat.ofDigits_digits 10 n
  rw [hd] at this
  simp at this
  exact hn this.symm

/-- The decimal form determines the number. -/
theorem fmtNat_inj {m : ℕ} (h : fmtNat m = fmtNat n) : m = n := by
  by_cases hm : m = 0
  · subst hm
    by_contra hn
    exact fmtNat_ne_zero (Ne.symm hn) h.symm
  · by_cases hn : n = 0
    · subst hn
      exact absurd h (fmtNat_ne_zero hm)
    · unfold fmtNat at h
      rw [if_neg hm, if_neg hn, List.reverse_inj] at h
      have hd := map_digitByte_inj (fun a ha => Nat.digits_lt_base (by norm_num) ha)
        (fun a ha => Nat.digits_lt_base (by norm_num) ha) h
      exact Nat.digits_inj_iff.mp hd

/-- The bytes of `%d` are decimal digits, with a minus sign at most. -/
theorem fmtInt_byte (h : c ∈ fmtInt z) :
    c = 45 ∨ (48 ≤ c.toNat ∧ c.toNat ≤ 57) := by
  unfold fmtInt at h
  split_ifs at h
  · rcases List.mem_cons.mp h with rfl | h
    · exact .inl rfl
    · exact .inr (fmtNat_digit h)
  · exact .inr (fmtNat_digit h)

/-- A decimal form does not start with a minus sign. -/
theorem fmtNat_ne_neg (m n : ℕ) : fmtNat m ≠ 45 :: fmtNat n := by
  intro h
  have h45 : (45 : UInt8) ∈ fmtNat m := by rw [h]; simp
  have := fmtNat_digit h45
  revert this
  decide

/-- `%d` determines the integer. -/
theorem fmtInt_inj {x y : ℤ} (h : fmtInt x = fmtInt y) : x = y := by
  unfold fmtInt at h
  split_ifs at h with hx hy hy
  · have := fmtNat_inj (List.cons.inj h).2
    omega
  · exact absurd h.symm (fmtNat_ne_neg _ _)
  · exact absurd h (fmtNat_ne_neg _ _)
  · have := fmtNat_inj h
    omega

/-! ## Big-endian numbers -/

/-- The last `w` bytes of a number, most significant first. -/
def beBytes : ℕ → ℕ → Bytes
  | 0, _ => []
  | w + 1, n => beBytes w (n / 256) ++ [UInt8.ofNat n]

/-- The number of some bytes, most significant first. -/
def ofBE (bs : Bytes) : ℕ := bs.foldl (fun a b => a * 256 + b.toNat) 0

/-- The bytes are as many as asked for. -/
theorem length_beBytes (w n : ℕ) : (beBytes w n).length = w := by
  induction w generalizing n with
  | zero => rfl
  | succ w ih => simp [beBytes, ih]

/-- The bytes of a number that fits give it back. -/
theorem ofBE_beBytes {w : ℕ} (h : n < 256 ^ w) : ofBE (beBytes w n) = n := by
  induction w generalizing n with
  | zero =>
    have : n = 0 := by simpa using h
    subst this
    rfl
  | succ w ih =>
    have hdiv : n / 256 < 256 ^ w := by
      rw [pow_succ] at h
      omega
    have := ih hdiv
    unfold ofBE at this ⊢
    rw [beBytes, List.foldl_append, this, List.foldl_cons, List.foldl_nil, UInt8.toNat_ofNat']
    omega

/-! ## Strings put together -/

/-- A separator that does not occur after itself is found in one way. -/
theorem append_sep_inj {x x' y y' : Bytes} {sep : UInt8} (hy : sep ∉ y) (hy' : sep ∉ y')
    (h : x ++ sep :: y = x' ++ sep :: y') : x = x' ∧ y = y' := by
  induction x generalizing x' with
  | nil =>
    cases x' with
    | nil => exact ⟨rfl, (List.cons.inj h).2⟩
    | cons c x' =>
      have hmem : sep ∈ y := by
        rw [(List.cons.inj h).2]
        simp
      exact absurd hmem hy
  | cons c x ih =>
    cases x' with
    | nil =>
      have hmem : sep ∈ y' := by
        rw [← (List.cons.inj h).2]
        simp
      exact absurd hmem hy'
    | cons c' x' =>
      obtain ⟨rfl, h'⟩ := List.cons.inj h
      obtain ⟨rfl, rfl⟩ := ih h'
      exact ⟨rfl, rfl⟩

/-- A separator that does not occur before itself is found in one way. -/
theorem sep_append_inj {x x' y y' : Bytes} {sep : UInt8} (hx : sep ∉ x) (hx' : sep ∉ x')
    (h : x ++ sep :: y = x' ++ sep :: y') : x = x' ∧ y = y' := by
  have hrev : y.reverse ++ sep :: x.reverse = y'.reverse ++ sep :: x'.reverse := by
    simpa using congrArg List.reverse h
  obtain ⟨hy, hx⟩ := append_sep_inj (by simpa using hx) (by simpa using hx') hrev
  exact ⟨List.reverse_injective hx, List.reverse_injective hy⟩

/-- Byte strings are different whose beginnings differ at a place. -/
theorem append_ne_append {a b : Bytes} (i : ℕ) (h : a[i]? ≠ b[i]? ∧ i < a.length ∧ i < b.length)
    (s t : Bytes) : a ++ s ≠ b ++ t := by
  intro heq
  have hat := congrArg (·[i]?) heq
  simp only [List.getElem?_append_left h.2.1, List.getElem?_append_left h.2.2] at hat
  exact h.1 hat

/-- One byte string does not begin with another that differs at a place. -/
theorem not_prefix_append {a b : Bytes} (i : ℕ) (h : a[i]? ≠ b[i]? ∧ i < a.length ∧ i < b.length)
    (t : Bytes) : ¬ a <+: b ++ t := by
  rintro ⟨s, heq⟩
  exact append_ne_append i h s t heq

end FnShare
