import FnShare.Lib.Bytes

/-!
# Base64

The encoding of bytes by six bits a letter: `encode` and `decode` without padding in the alphabet of
`base64.RawStdEncoding`, `encodeStd` and `decodeStd` with the padding of `base64.StdEncoding`, and `encodeURL`
and `decodeURL` in the alphabet of `base64.RawURLEncoding`. Each decoder gives back what was encoded; it skips
line breaks, and accepts other texts besides.
-/

namespace FnShare.Base64

/-- The letter of six bits. -/
def letter (n : ℕ) : UInt8 :=
  if n < 26 then UInt8.ofNat (65 + n)
  else if n < 52 then UInt8.ofNat (97 + (n - 26))
  else if n < 62 then UInt8.ofNat (48 + (n - 52))
  else if n = 62 then 43
  else 47

/-- The six bits of a letter. -/
def sextet (b : UInt8) : Option ℕ :=
  let n := b.toNat
  if 65 ≤ n ∧ n ≤ 90 then some (n - 65)
  else if 97 ≤ n ∧ n ≤ 122 then some (n - 97 + 26)
  else if 48 ≤ n ∧ n ≤ 57 then some (n - 48 + 52)
  else if n = 43 then some 62
  else if n = 47 then some 63
  else none

/-- `EncodeToString`. -/
def encode : Bytes → Bytes
  | a :: b :: c :: rest =>
    let n := a.toNat * 65536 + b.toNat * 256 + c.toNat
    letter (n / 262144) :: letter (n / 4096 % 64) :: letter (n / 64 % 64) :: letter (n % 64) ::
      encode rest
  | [a, b] =>
    let n := a.toNat * 1024 + b.toNat * 4
    [letter (n / 4096), letter (n / 64 % 64), letter (n % 64)]
  | [a] => [letter (a.toNat / 4), letter (a.toNat % 4 * 16)]
  | [] => []

/-- The bytes of a list of six bits each; what is left over of the last group is ignored. -/
def decodeSextets : List ℕ → Option Bytes
  | a :: b :: c :: d :: rest => do
    let n := a * 262144 + b * 4096 + c * 64 + d
    let bs ← decodeSextets rest
    return UInt8.ofNat (n / 65536) :: UInt8.ofNat (n / 256) :: UInt8.ofNat n :: bs
  | [a, b, c] =>
    let n := a * 4096 + b * 64 + c
    some [UInt8.ofNat (n / 1024), UInt8.ofNat (n / 4)]
  | [a, b] => some [UInt8.ofNat ((a * 64 + b) / 16)]
  | [_] => none
  | [] => some []

/-- `DecodeString`, which skips line breaks. -/
def decode (s : Bytes) : Option Bytes := do
  let sextets ← (s.filter fun b => b ≠ 10 && b ≠ 13).mapM sextet
  decodeSextets sextets

example : encode (lit "any carnal pleas") = lit "YW55IGNhcm5hbCBwbGVhcw" := by decide

/-! ## The other encodings -/

/-- `EncodeToString` of `base64.StdEncoding`: the last group of letters is padded to four. -/
def encodeStd (bs : Bytes) : Bytes :=
  encode bs ++ List.replicate ((4 - (encode bs).length % 4) % 4) 61

/-- `DecodeString` of `base64.StdEncoding`. -/
def decodeStd (s : Bytes) : Option Bytes :=
  let text := s.filter fun b => b ≠ 10 && b ≠ 13
  let letters := text.takeWhile (· ≠ 61)
  if text = letters ++ List.replicate ((4 - letters.length % 4) % 4) 61 then
    letters.mapM sextet >>= decodeSextets
  else none

/-- The letter of `base64.RawURLEncoding` for one of `base64.RawStdEncoding`. -/
def urlLetter (b : UInt8) : UInt8 := if b = 43 then 45 else if b = 47 then 95 else b

/-- The six bits of a letter of `base64.RawURLEncoding`. -/
def urlSextet (b : UInt8) : Option ℕ :=
  if b = 45 then some 62
  else if b = 95 then some 63
  else if b = 43 ∨ b = 47 then none
  else sextet b

/-- `EncodeToString` of `base64.RawURLEncoding`. -/
def encodeURL (bs : Bytes) : Bytes := (encode bs).map urlLetter

/-- `DecodeString` of `base64.RawURLEncoding`. -/
def decodeURL (s : Bytes) : Option Bytes := do
  let sextets ← (s.filter fun b => b ≠ 10 && b ≠ 13).mapM urlSextet
  decodeSextets sextets

/-! ## Decoding what was encoded -/

/-- The groups of six bits that the letters stand for. -/
def sextets : Bytes → List ℕ
  | a :: b :: c :: rest =>
    let n := a.toNat * 65536 + b.toNat * 256 + c.toNat
    n / 262144 :: n / 4096 % 64 :: n / 64 % 64 :: n % 64 :: sextets rest
  | [a, b] =>
    let n := a.toNat * 1024 + b.toNat * 4
    [n / 4096, n / 64 % 64, n % 64]
  | [a] => [a.toNat / 4, a.toNat % 4 * 16]
  | [] => []

/-- The letters of the sextets. -/
theorem encode_eq_map (bs : Bytes) : encode bs = (sextets bs).map letter := by
  fun_induction encode bs with
  | case1 a b c rest n ih => simp [sextets, ih, n]
  | case2 a b n => simp [sextets, n]
  | case3 a => simp [sextets]
  | case4 => rfl

/-- Sextets are below 64. -/
theorem sextets_lt (bs : Bytes) : ∀ k ∈ sextets bs, k < 64 := by
  fun_induction sextets bs with
  | case1 a b c rest n ih =>
    have ha := a.toNat_lt
    have hb := b.toNat_lt
    have hc := c.toNat_lt
    intro k hk
    simp only [List.mem_cons] at hk
    rcases hk with rfl | rfl | rfl | rfl | hk
    · omega
    · omega
    · omega
    · omega
    · exact ih k hk
  | case2 a b n =>
    have ha := a.toNat_lt
    have hb := b.toNat_lt
    intro k hk
    simp only [List.mem_cons, List.not_mem_nil, or_false] at hk
    omega
  | case3 a =>
    have ha := a.toNat_lt
    intro k hk
    simp only [List.mem_cons, List.not_mem_nil, or_false] at hk
    omega
  | case4 => simp

/-- A byte by its remainder. -/
theorem ofNat_eq_of_mod {n : ℕ} {b : UInt8} (h : n % 256 = b.toNat) : UInt8.ofNat n = b := by
  apply UInt8.toNat.inj
  rw [UInt8.toNat_ofNat', ← h]

/-- The bytes are those of the groups. -/
theorem decodeSextets_sextets (bs : Bytes) : decodeSextets (sextets bs) = some bs := by
  fun_induction sextets bs with
  | case1 a b c rest n ih =>
    have ha := a.toNat_lt
    have hb := b.toNat_lt
    have hc := c.toNat_lt
    have hn : n / 262144 * 262144 + n / 4096 % 64 * 4096 + n / 64 % 64 * 64 + n % 64 = n := by omega
    have h0 : UInt8.ofNat (n / 65536) = a := ofNat_eq_of_mod (by omega)
    have h1 : UInt8.ofNat (n / 256) = b := ofNat_eq_of_mod (by omega)
    have h2 : UInt8.ofNat n = c := ofNat_eq_of_mod (by omega)
    unfold decodeSextets
    simp only [ih, hn, h0, h1, h2]
    rfl
  | case2 a b n =>
    have ha := a.toNat_lt
    have hb := b.toNat_lt
    have hn : n / 4096 * 4096 + n / 64 % 64 * 64 + n % 64 = n := by omega
    have h0 : UInt8.ofNat (n / 1024) = a := ofNat_eq_of_mod (by omega)
    have h1 : UInt8.ofNat (n / 4) = b := ofNat_eq_of_mod (by omega)
    unfold decodeSextets
    simp only [hn, h0, h1]
  | case3 a =>
    have ha := a.toNat_lt
    have h0 : UInt8.ofNat ((a.toNat / 4 * 64 + a.toNat % 4 * 16) / 16) = a :=
      ofNat_eq_of_mod (by omega)
    unfold decodeSextets
    simp only [h0]
  | case4 => rfl

/-- The groups of a text, where `bits` reads the letters of an alphabet. -/
theorem mapM_map {alphabet : ℕ → UInt8} {bits : UInt8 → Option ℕ}
    (h : ∀ k < 64, bits (alphabet k) = some k) {ks : List ℕ} (hks : ∀ k ∈ ks, k < 64) :
    (ks.map alphabet).mapM bits = some ks := by
  induction ks with
  | nil => rfl
  | cons k ks ih =>
    rw [List.map_cons, List.mapM_cons, h k (hks k (by simp)), ih fun k' hk' => hks k' (by simp [hk'])]
    rfl

/-- A letter is read back. -/
theorem sextet_letter : ∀ k < 64, sextet (letter k) = some k := by decide

/-- So is one of the other alphabet. -/
theorem urlSextet_urlLetter : ∀ k < 64, urlSextet (urlLetter (letter k)) = some k := by decide

/-- No letter is a line break or a padding. -/
theorem letter_ne : ∀ k < 64, (letter k ≠ 10 ∧ letter k ≠ 13) ∧ letter k ≠ 61 := by decide

/-- No letter is a line break. -/
theorem urlLetter_ne : ∀ k < 64, urlLetter (letter k) ≠ 10 ∧ urlLetter (letter k) ≠ 13 := by decide

/-- The letters of the other alphabet. -/
theorem encodeURL_eq_map (bs : Bytes) :
    encodeURL bs = (sextets bs).map fun k => urlLetter (letter k) := by
  unfold encodeURL
  rw [encode_eq_map, List.map_map]
  rfl

/-- Every letter of an encoded text is one of the alphabet. -/
theorem exists_of_mem_encodeURL {bs : Bytes} {b : UInt8} (h : b ∈ encodeURL bs) :
    ∃ k < 64, b = urlLetter (letter k) := by
  rw [encodeURL_eq_map] at h
  obtain ⟨k, hk, rfl⟩ := List.mem_map.mp h
  exact ⟨k, sextets_lt bs k hk, rfl⟩

/-- No letter is skipped as a line break. -/
theorem filter_letters {alphabet : ℕ → UInt8} (h : ∀ k < 64, alphabet k ≠ 10 ∧ alphabet k ≠ 13)
    (bs : Bytes) : ((sextets bs).map alphabet).filter (fun b => b ≠ 10 && b ≠ 13) =
      (sextets bs).map alphabet := by
  refine List.filter_eq_self.mpr fun b hb => ?_
  obtain ⟨k, hk, rfl⟩ := List.mem_map.mp hb
  simpa using h k (sextets_lt bs k hk)

/-- The encoding is ASCII. -/
theorem encodeStd_ascii {bs : Bytes} {b : UInt8} (h : b ∈ encodeStd bs) : b < 0x80 := by
  have hletter : ∀ k < 64, letter k < 0x80 := by decide
  unfold encodeStd at h
  rw [encode_eq_map] at h
  rcases List.mem_append.mp h with h | h
  · obtain ⟨k, hk, rfl⟩ := List.mem_map.mp h
    exact hletter k (sextets_lt bs k hk)
  · rw [List.eq_of_mem_replicate h]
    decide

/-- What was encoded is read back. -/
theorem decode_encode (bs : Bytes) : decode (encode bs) = some bs := by
  unfold decode
  rw [encode_eq_map, filter_letters fun k hk => (letter_ne k hk).1, mapM_map sextet_letter (sextets_lt bs)]
  exact decodeSextets_sextets bs

/-- The same with the other alphabet. -/
theorem decodeURL_encodeURL (bs : Bytes) : decodeURL (encodeURL bs) = some bs := by
  unfold decodeURL
  rw [encodeURL_eq_map, filter_letters urlLetter_ne, mapM_map urlSextet_urlLetter (sextets_lt bs)]
  exact decodeSextets_sextets bs

/-- The same with padding. -/
theorem decodeStd_encodeStd (bs : Bytes) : decodeStd (encodeStd bs) = some bs := by
  have hletters := filter_letters (fun k hk => (letter_ne k hk).1) bs
  have hpad (n : ℕ) : (List.replicate n (61 : UInt8)).filter (fun b => b ≠ 10 && b ≠ 13) =
      List.replicate n 61 := List.filter_replicate_of_pos (by decide)
  have htake (n : ℕ) : ((sextets bs).map letter ++ List.replicate n 61).takeWhile (· ≠ 61) =
      (sextets bs).map letter := by
    rw [List.takeWhile_append_of_pos, List.takeWhile_replicate]
    · simp
    · intro b hb
      obtain ⟨k, hk, rfl⟩ := List.mem_map.mp hb
      simpa using (letter_ne k (sextets_lt bs k hk)).2
  unfold decodeStd encodeStd
  simp only [encode_eq_map, List.filter_append, hletters, hpad, htake, if_true]
  rw [mapM_map sextet_letter (sextets_lt bs)]
  exact decodeSextets_sextets bs

end FnShare.Base64
