import FnShare.Lib.Bytes

/-!
# UTF-8 validity of byte strings

Go strings need not be UTF-8. The encoders differ in what they do with one that is not:
`encoding/json` replaces each byte outside a valid encoding by U+FFFD, and a CBOR decoder rejects
the text. Both start from `runeLen`, the length of the encoding at the front of a byte string,
by the table of well-formed sequences of the Unicode standard.
-/

namespace FnShare

/-- A byte between two bounds. -/
def inRange (lo hi b : UInt8) : Bool := lo ≤ b && b ≤ hi

/-- The length of the UTF-8 encoding at the front of a byte string, if there is one. -/
def runeLen : Bytes → Option ℕ
  | [] => none
  | b0 :: bs =>
    if b0 < 0x80 then some 1
    else if inRange 0xC2 0xDF b0 then
      match bs with
      | b1 :: _ => if inRange 0x80 0xBF b1 then some 2 else none
      | _ => none
    else if inRange 0xE0 0xEF b0 then
      let lo : UInt8 := if b0 = 0xE0 then 0xA0 else 0x80
      let hi : UInt8 := if b0 = 0xED then 0x9F else 0xBF
      match bs with
      | b1 :: b2 :: _ => if inRange lo hi b1 && inRange 0x80 0xBF b2 then some 3 else none
      | _ => none
    else if inRange 0xF0 0xF4 b0 then
      let lo : UInt8 := if b0 = 0xF0 then 0x90 else 0x80
      let hi : UInt8 := if b0 = 0xF4 then 0x8F else 0xBF
      match bs with
      | b1 :: b2 :: b3 :: _ =>
        if inRange lo hi b1 && inRange 0x80 0xBF b2 && inRange 0x80 0xBF b3 then some 4 else none
      | _ => none
    else none

/-- `validUTF8` on the first `fuel` encodings; a byte string has at most as many as bytes. -/
def validAux : ℕ → Bytes → Bool
  | _, [] => true
  | 0, _ => false
  | fuel + 1, bs =>
    match runeLen bs with
    | some n => validAux fuel (bs.drop n)
    | none => false

/-- `utf8.ValidString`. -/
def validUTF8 (bs : Bytes) : Bool := validAux bs.length bs

/-- `toValidUTF8` on the first `fuel` encodings or stray bytes. -/
def toValidAux : ℕ → Bytes → Bytes
  | _, [] => []
  | 0, _ => []
  | fuel + 1, b :: bs =>
    match runeLen (b :: bs) with
    | some n => (b :: bs).take n ++ toValidAux fuel ((b :: bs).drop n)
    | none => [0xEF, 0xBF, 0xBD] ++ toValidAux fuel bs

/-- What `encoding/json` makes of a string: each byte outside a valid encoding becomes U+FFFD. -/
def toValidUTF8 (bs : Bytes) : Bytes := toValidAux bs.length bs

/-- Text that is valid passes unchanged, for any fuel that suffices for the check. -/
theorem toValidAux_of_valid : ∀ (fuel : ℕ) (bs : Bytes), validAux fuel bs = true →
    toValidAux fuel bs = bs
  | fuel, [], _ => by cases fuel <;> rfl
  | 0, _ :: _, h => by simp [validAux] at h
  | fuel + 1, b :: bs, h => by
    simp only [validAux] at h
    simp only [toValidAux]
    cases hr : runeLen (b :: bs) with
    | none => simp [hr] at h
    | some n =>
      simp only [hr] at h
      simp only [toValidAux_of_valid fuel _ h, List.take_append_drop]

/-- `encoding/json` leaves valid text unchanged. -/
theorem toValidUTF8_of_valid {bs : Bytes} (h : validUTF8 bs = true) : toValidUTF8 bs = bs :=
  toValidAux_of_valid _ bs h

/-- An encoding at the front is still there when something else comes after it. -/
theorem runeLen_take_append {bs : Bytes} {n : ℕ} (h : runeLen bs = some n) (rest : Bytes) :
    runeLen (bs.take n ++ rest) = some n ∧ (bs.take n).length = n ∧ 0 < n := by
  cases bs with
  | nil => exact absurd h (by simp [runeLen])
  | cons b0 bs =>
    simp only [runeLen] at h
    -- By the length that the first byte tells.
    by_cases h1 : b0 < 0x80
    · rw [if_pos h1] at h
      obtain rfl := Option.some.inj h
      simp [runeLen, h1]
    rw [if_neg h1] at h
    by_cases h2 : inRange 0xC2 0xDF b0
    · rw [if_pos h2] at h
      split at h
      · obtain ⟨hb, hn⟩ := Option.ite_none_right_eq_some.mp h
        obtain rfl := Option.some.inj hn
        simp_all [runeLen]
      · simp at h
    rw [if_neg h2] at h
    by_cases h3 : inRange 0xE0 0xEF b0
    · rw [if_pos h3] at h
      split at h
      · obtain ⟨hb, hn⟩ := Option.ite_none_right_eq_some.mp h
        obtain rfl := Option.some.inj hn
        simp_all [runeLen]
      · simp at h
    rw [if_neg h3] at h
    by_cases h4 : inRange 0xF0 0xF4 b0
    · rw [if_pos h4] at h
      split at h
      · obtain ⟨hb, hn⟩ := Option.ite_none_right_eq_some.mp h
        obtain rfl := Option.some.inj hn
        simp_all [runeLen]
      · simp at h
    · rw [if_neg h4] at h
      simp at h

/-- Text is valid if an encoding is at its front and the rest is valid. -/
theorem validAux_append {front rest : Bytes} {n fuel : ℕ} (hrune : runeLen (front ++ rest) = some n)
    (hlen : front.length = n) (hpos : 0 < n) (hfuel : (front ++ rest).length ≤ fuel)
    (hrest : ∀ k, rest.length ≤ k → validAux k rest = true) : validAux fuel (front ++ rest) = true := by
  rw [List.length_append] at hfuel
  obtain ⟨k, rfl⟩ : ∃ k, fuel = k + 1 := ⟨fuel - 1, by omega⟩
  have hne : front ++ rest ≠ [] :=
    List.append_ne_nil_of_left_ne_nil (List.ne_nil_of_length_pos (by omega)) _
  rw [validAux.eq_3 _ _ hne, hrune]
  simp only [← hlen, List.drop_left]
  exact hrest k (by omega)

/-- What is made valid is valid, for any fuel that suffices for its length. -/
theorem validAux_toValidAux (fuel : ℕ) (bs : Bytes) {fuel' : ℕ}
    (h : (toValidAux fuel bs).length ≤ fuel') : validAux fuel' (toValidAux fuel bs) = true := by
  induction fuel, bs using toValidAux.induct generalizing fuel' with
  | case1 => simp [toValidAux, validAux]
  | case2 bs hbs => simp [toValidAux, validAux]
  | case3 fuel b bs n hrune ih =>
    rw [toValidAux, hrune] at h ⊢
    obtain ⟨hrune', hlen, hpos⟩ := runeLen_take_append hrune (toValidAux fuel ((b :: bs).drop n))
    exact validAux_append hrune' hlen hpos h fun k hk => ih hk
  | case4 fuel b bs hrune ih =>
    rw [toValidAux, hrune] at h ⊢
    exact validAux_append rfl rfl (by omega) h fun k hk => ih hk

/-- What `encoding/json` makes of a string is valid. -/
theorem validUTF8_toValidUTF8 (bs : Bytes) : validUTF8 (toValidUTF8 bs) = true :=
  validAux_toValidAux _ bs le_rfl

/-- Any two amounts of fuel that suffice give the same. -/
theorem validAux_fuel {fuel fuel' : ℕ} {bs : Bytes} (h : bs.length ≤ fuel) (h' : bs.length ≤ fuel') :
    validAux fuel bs = validAux fuel' bs := by
  induction fuel generalizing fuel' bs with
  | zero =>
    obtain rfl := List.length_eq_zero_iff.mp (Nat.le_zero.mp h)
    simp [validAux]
  | succ fuel ih =>
    cases bs with
    | nil => simp [validAux]
    | cons b bs =>
      obtain ⟨k, rfl⟩ : ∃ k, fuel' = k + 1 := ⟨fuel' - 1, by simp at h'; omega⟩
      unfold validAux
      cases hrune : runeLen (b :: bs) with
      | none => rfl
      | some n =>
        obtain ⟨-, hlen, hpos⟩ := runeLen_take_append hrune []
        have hdrop := List.length_drop (i := n) (l := b :: bs)
        exact ih (by omega) (by omega)

/-- What comes after valid text decides whether the whole is valid. -/
theorem validUTF8_append {a : Bytes} (ha : validUTF8 a = true) (b : Bytes) :
    validUTF8 (a ++ b) = validUTF8 b := by
  induction hn : a.length using Nat.strong_induction_on generalizing a with
  | _ n ih =>
    cases a with
    | nil => rfl
    | cons c a =>
      unfold validUTF8 at ha
      rw [List.length_cons, validAux.eq_3 _ _ (by simp)] at ha
      cases hrune : runeLen (c :: a) with
      | none => simp [hrune] at ha
      | some k =>
        obtain ⟨hrune', hlen, hpos⟩ := runeLen_take_append hrune ((c :: a).drop k ++ b)
        rw [← List.append_assoc, List.take_append_drop] at hrune'
        rw [List.length_take] at hlen
        have hrest : validUTF8 ((c :: a).drop k) = true := by
          rw [hrune] at ha
          rw [← ha]
          exact validAux_fuel le_rfl (by simp; omega)
        rw [← ih _ (by simp at hn ⊢; omega) hrest rfl]
        unfold validUTF8
        rw [List.cons_append, List.length_cons, validAux.eq_3 _ _ (by simp), ← List.cons_append, hrune']
        dsimp only
        rw [List.drop_append_of_le_length (by omega)]
        exact validAux_fuel (by simp; omega) le_rfl

/-- The encoding of an ASCII character is its byte. -/
theorem runeLen_ascii {b : UInt8} (h : b < 0x80) (bs : Bytes) : runeLen (b :: bs) = some 1 := by
  simp [runeLen, h]

/-- Text of ASCII characters is valid. -/
theorem validUTF8_of_ascii {bs : Bytes} (h : ∀ b ∈ bs, b < 0x80) : validUTF8 bs = true := by
  unfold validUTF8
  induction bs with
  | nil => rfl
  | cons b bs ih =>
    simp only [List.length_cons, validAux, runeLen_ascii (h b (by simp)), List.drop_succ_cons,
      List.drop_zero]
    exact ih fun c hc => h c (List.mem_cons_of_mem _ hc)

/-- Hexadecimal text is valid. -/
theorem validUTF8_hexEncode (bs : Bytes) : validUTF8 (hexEncode bs) = true := by
  refine validUTF8_of_ascii fun b hb => ?_
  have hdigit := isHexDigit_of_mem_hexEncode hb
  simp only [isHexDigit, Bool.or_eq_true, Bool.and_eq_true, decide_eq_true_eq] at hdigit
  rcases hdigit with ⟨-, hle⟩ | ⟨-, hle⟩
  · exact UInt8.lt_of_le_of_lt hle (by decide)
  · exact UInt8.lt_of_le_of_lt hle (by decide)

end FnShare
