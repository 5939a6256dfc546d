import FnShare.Lib.Utf8

/-!
# CBOR

The concise binary object representation (RFC 8949) of the values that Go structs are made of:
integers, byte strings, text, arrays, maps with text keys, Booleans and null, in definite-length
encoding with the shortest heads. `decode` reads one value off the front of a byte string, with fuel
for the nesting; `decode_encode` says that it reads back what `encode` wrote.
-/

namespace FnShare

namespace CborFormat

/-- A value of the data model. -/
inductive Value
  | int (z : ℤ)
  | bytes (b : Bytes)
  | text (b : Bytes)
  | array (vs : List Value)
  | map (kvs : List (Bytes × Value))
  | bool (b : Bool)
  | null

/-! ## Heads -/

/-- The head of an item: its major type and its argument, in the shortest form. An argument of more
than 64 bits has no form in the RFC; it is written in unary under a reserved code, so that there is a
head for every argument. -/
def encodeHead (major n : ℕ) : Bytes :=
  let code (c : ℕ) : UInt8 := UInt8.ofNat (32 * major + c)
  if n < 24 then [code n]
  else if n < 256 then code 24 :: beBytes 1 n
  else if n < 256^2 then code 25 :: beBytes 2 n
  else if n < 256^4 then code 26 :: beBytes 4 n
  else if n < 256^8 then code 27 :: beBytes 8 n
  else code 28 :: (List.replicate n 0 ++ [1])

/-- An argument of `w` bytes. -/
def takeBE (w : ℕ) (bs : Bytes) : Option (ℕ × Bytes) :=
  if w ≤ bs.length then some (ofBE (bs.take w), bs.drop w) else none

/-- An argument in unary. -/
def takeUnary : Bytes → Option (ℕ × Bytes)
  | [] => none
  | b :: bs => if b = 0 then (takeUnary bs).map fun x => (x.1 + 1, x.2) else some (0, bs)

/-- The argument after a head's first byte. -/
def decodeArg (c : ℕ) (bs : Bytes) : Option (ℕ × Bytes) :=
  if c < 24 then some (c, bs)
  else if c = 24 then takeBE 1 bs
  else if c = 25 then takeBE 2 bs
  else if c = 26 then takeBE 4 bs
  else if c = 27 then takeBE 8 bs
  else if c = 28 then takeUnary bs
  else none

/-- The major type and the argument of the head at the front. -/
def decodeHead : Bytes → Option (ℕ × ℕ × Bytes)
  | [] => none
  | b :: bs => (decodeArg (b.toNat % 32) bs).map fun x => (b.toNat / 32, x)

/-- An argument of `w` bytes is read back. -/
theorem takeBE_beBytes {w n : ℕ} (h : n < 256 ^ w) (rest : Bytes) :
    takeBE w (beBytes w n ++ rest) = some (n, rest) := by
  have hl := length_beBytes w n
  unfold takeBE
  rw [if_pos (by simp [hl]), List.take_append_of_le_length (by omega),
    List.drop_append_of_le_length (by omega), List.take_of_length_le (by omega),
    List.drop_of_length_le (by omega), ofBE_beBytes h, List.nil_append]

/-- An argument in unary is read back. -/
theorem takeUnary_replicate (n : ℕ) (rest : Bytes) :
    takeUnary (List.replicate n 0 ++ 1 :: rest) = some (n, rest) := by
  induction n with
  | zero => simp [takeUnary]
  | succ n ih => simp [List.replicate_succ, takeUnary, ih]

/-- A head is read back. -/
theorem decodeHead_encodeHead {major : ℕ} (hm : major < 8) (n : ℕ) (rest : Bytes) :
    decodeHead (encodeHead major n ++ rest) = some (major, n, rest) := by
  have hcode : ∀ c, c < 32 → (UInt8.ofNat (32 * major + c)).toNat = 32 * major + c := by
    intro c hc
    rw [UInt8.toNat_ofNat']
    omega
  have hread : ∀ c bs, c < 32 → decodeArg c (bs ++ rest) = some (n, rest) →
      decodeHead (UInt8.ofNat (32 * major + c) :: bs ++ rest) = some (major, n, rest) := by
    intro c bs hc harg
    have h1 : (32 * major + c) % 32 = c := by omega
    have h2 : (32 * major + c) / 32 = major := by omega
    rw [List.cons_append, decodeHead, hcode c hc, h1, h2, harg]
    rfl
  unfold encodeHead
  split_ifs with h0 h1 h2 h3 h4
  · exact hread n [] (by omega) (by simp [decodeArg, h0])
  · exact hread 24 _ (by norm_num) (by simpa [decodeArg] using takeBE_beBytes (by simpa using h1) rest)
  · exact hread 25 _ (by norm_num) (by simpa [decodeArg] using takeBE_beBytes h2 rest)
  · exact hread 26 _ (by norm_num) (by simpa [decodeArg] using takeBE_beBytes h3 rest)
  · exact hread 27 _ (by norm_num) (by simpa [decodeArg] using takeBE_beBytes h4 rest)
  · exact hread 28 _ (by norm_num) (by simpa [decodeArg] using takeUnary_replicate n rest)

/-- A head is not empty. -/
theorem encodeHead_length_pos (major n : ℕ) : 0 < (encodeHead major n).length := by
  unfold encodeHead
  split_ifs <;> simp

/-! ## Values -/

/-- A string with its length before it. -/
def encodeString (major : ℕ) (b : Bytes) : Bytes := encodeHead major b.length ++ b

mutual

/-- The encoding of a value. -/
def encode : Value → Bytes
  | .int z => if 0 ≤ z then encodeHead 0 z.toNat else encodeHead 1 (-1 - z).toNat
  | .bytes b => encodeString 2 b
  | .text b => encodeString 3 b
  | .array vs => encodeHead 4 vs.length ++ encodeList vs
  | .map kvs => encodeHead 5 kvs.length ++ encodePairs kvs
  | .bool b => encodeHead 7 (if b then 21 else 20)
  | .null => encodeHead 7 22

/-- The encodings of the elements of an array. -/
def encodeList : List Value → Bytes
  | [] => []
  | v :: vs => encode v ++ encodeList vs

/-- The encodings of the keys and values of a map. -/
def encodePairs : List (Bytes × Value) → Bytes
  | [] => []
  | (k, v) :: kvs => encodeString 3 k ++ (encode v ++ encodePairs kvs)

end

/-- The bytes of a map whose head has its length. -/
def DefiniteMap (raw : Bytes) : Prop := ∃ n rest, decodeHead raw = some (5, n, rest)

/-- A map is written with its length. -/
theorem definiteMap_encode (kvs : List (Bytes × Value)) : DefiniteMap (encode (.map kvs)) :=
  ⟨kvs.length, encodePairs kvs, by rw [encode, decodeHead_encodeHead (by norm_num)]⟩

/-- The first byte of a map has the major type of maps. -/
theorem DefiniteMap.major {b : UInt8} {bs : Bytes} (h : DefiniteMap (b :: bs)) : b.toNat / 32 = 5 := by
  obtain ⟨n, rest, hhead⟩ := h
  obtain ⟨x, -, hx⟩ := Option.map_eq_some_iff.mp hhead
  exact congrArg Prod.fst hx

/-- The bytes of a string after its head. -/
def takeString (n : ℕ) (bs : Bytes) : Option (Bytes × Bytes) :=
  if n ≤ bs.length then some (bs.take n, bs.drop n) else none

/-- The key at the front of a map's pair. -/
def decodeKey (bs : Bytes) : Option (Bytes × Bytes) :=
  match decodeHead bs with
  | some (3, n, rest) => takeString n rest
  | _ => none

mutual

/-- The value at the front of a byte string, and the bytes after it. -/
def decode : ℕ → Bytes → Option (Value × Bytes)
  | 0, _ => none
  | fuel + 1, bs =>
    match decodeHead bs with
    | some (0, n, rest) => some (.int n, rest)
    | some (1, n, rest) => some (.int (-1 - n), rest)
    | some (2, n, rest) => (takeString n rest).map fun x => (.bytes x.1, x.2)
    | some (3, n, rest) => (takeString n rest).map fun x => (.text x.1, x.2)
    | some (4, n, rest) => (decodeList fuel n rest).map fun x => (.array x.1, x.2)
    | some (5, n, rest) => (decodePairs fuel n rest).map fun x => (.map x.1, x.2)
    | some (7, n, rest) =>
      if n = 20 then some (.bool false, rest)
      else if n = 21 then some (.bool true, rest)
      else if n = 22 then some (.null, rest)
      else none
    | _ => none

/-- The values of an array of `n`. -/
def decodeList : ℕ → ℕ → Bytes → Option (List Value × Bytes)
  | _, 0, bs => some ([], bs)
  | 0, _ + 1, _ => none
  | fuel + 1, n + 1, bs =>
    match decode fuel bs with
    | none => none
    | some (v, rest) => (decodeList fuel n rest).map fun x => (v :: x.1, x.2)

/-- The pairs of a map of `n`. -/
def decodePairs : ℕ → ℕ → Bytes → Option (List (Bytes × Value) × Bytes)
  | _, 0, bs => some ([], bs)
  | 0, _ + 1, _ => none
  | fuel + 1, n + 1, bs =>
    match decodeKey bs with
    | none => none
    | some (k, rest) =>
      match decode fuel rest with
      | none => none
      | some (v, rest) => (decodePairs fuel n rest).map fun x => ((k, v) :: x.1, x.2)

end

/-- A string is read back. -/
theorem takeString_append (b rest : Bytes) : takeString b.length (b ++ rest) = some (b, rest) := by
  simp [takeString]

/-- A key is read back. -/
theorem decodeKey_encodeString (k rest : Bytes) :
    decodeKey (encodeString 3 k ++ rest) = some (k, rest) := by
  unfold decodeKey encodeString
  rw [List.append_assoc, decodeHead_encodeHead (by norm_num)]
  exact takeString_append k rest

/-- The encoding of a value is not empty. -/
theorem encode_length_pos (v : Value) : 0 < (encode v).length := by
  have h := encodeHead_length_pos
  cases v with
  | int z =>
    unfold encode
    split_ifs
    · exact h _ _
    · exact h _ _
  | bytes b => simpa [encode, encodeString] using Or.inl (h _ _)
  | text b => simpa [encode, encodeString] using Or.inl (h _ _)
  | array vs => simpa [encode] using Or.inl (h _ _)
  | map kvs => simpa [encode] using Or.inl (h _ _)
  | bool b => simpa [encode] using h _ _
  | null => simpa [encode] using h _ _

mutual

/-- A value is read back from its encoding, with fuel for two steps a byte. -/
theorem decode_encode (v : Value) (fuel : ℕ) (rest : Bytes) (h : 2 * (encode v).length ≤ fuel) :
    decode fuel (encode v ++ rest) = some (v, rest) := by
  have hpos := encode_length_pos v
  obtain ⟨fuel, rfl⟩ : ∃ f, fuel = f + 1 := ⟨fuel - 1, by omega⟩
  match v with
  | .int z =>
    unfold encode decode
    split_ifs with hz
    · rw [decodeHead_encodeHead (by norm_num)]
      simp [Int.toNat_of_nonneg hz]
    · rw [decodeHead_encodeHead (by norm_num)]
      have : ((-1 - z).toNat : ℤ) = -1 - z := Int.toNat_of_nonneg (by omega)
      simp [this]
  | .bytes b =>
    unfold encode decode encodeString
    rw [List.append_assoc, decodeHead_encodeHead (by norm_num)]
    simp [takeString_append]
  | .text b =>
    unfold encode decode encodeString
    rw [List.append_assoc, decodeHead_encodeHead (by norm_num)]
    simp [takeString_append]
  | .array vs =>
    have hh := encodeHead_length_pos 4 vs.length
    rw [encode, List.length_append] at h
    unfold encode decode
    rw [List.append_assoc, decodeHead_encodeHead (by norm_num)]
    simp [decodeList_encodeList vs fuel rest (by omega)]
  | .map kvs =>
    have hh := encodeHead_length_pos 5 kvs.length
    rw [encode, List.length_append] at h
    unfold encode decode
    rw [List.append_assoc, decodeHead_encodeHead (by norm_num)]
    simp [decodePairs_encodePairs kvs fuel rest (by omega)]
  | .bool b =>
    unfold encode decode
    rw [decodeHead_encodeHead (by norm_num)]
    cases b <;> simp
  | .null =>
    unfold encode decode
    rw [decodeHead_encodeHead (by norm_num)]
    simp

/-- The elements of an array are read back. -/
theorem decodeList_encodeList (vs : List Value) (fuel : ℕ) (rest : Bytes)
    (h : 2 * (encodeList vs).length + 1 ≤ fuel) :
    decodeList fuel vs.length (encodeList vs ++ rest) = some (vs, rest) := by
  match vs with
  | [] => cases fuel <;> simp [encodeList, decodeList]
  | v :: vs =>
    have hpos := encode_length_pos v
    rw [encodeList, List.length_append] at h
    obtain ⟨fuel, rfl⟩ : ∃ f, fuel = f + 1 := ⟨fuel - 1, by omega⟩
    rw [encodeList, List.length_cons, decodeList, List.append_assoc,
      decode_encode v fuel _ (by omega)]
    simp [decodeList_encodeList vs fuel rest (by omega)]

/-- The pairs of a map are read back. -/
theorem decodePairs_encodePairs (kvs : List (Bytes × Value)) (fuel : ℕ) (rest : Bytes)
    (h : 2 * (encodePairs kvs).length + 1 ≤ fuel) :
    decodePairs fuel kvs.length (encodePairs kvs ++ rest) = some (kvs, rest) := by
  match kvs with
  | [] => cases fuel <;> simp [encodePairs, decodePairs]
  | (k, v) :: kvs =>
    have hpos := encode_length_pos v
    rw [encodePairs, List.length_append, List.length_append] at h
    obtain ⟨fuel, rfl⟩ : ∃ f, fuel = f + 1 := ⟨fuel - 1, by omega⟩
    rw [encodePairs, List.length_cons, decodePairs, List.append_assoc, decodeKey_encodeString]
    simp only [List.append_assoc]
    rw [decode_encode v fuel _ (by omega)]
    simp [decodePairs_encodePairs kvs fuel rest (by omega)]

end

mutual

/-- All text of a value is UTF-8. -/
def Value.validText : Value → Bool
  | .text b => validUTF8 b
  | .array vs => validTextList vs
  | .map kvs => validTextPairs kvs
  | _ => true

/-- All text of some values is UTF-8. -/
def validTextList : List Value → Bool
  | [] => true
  | v :: vs => v.validText && validTextList vs

/-- All text of some keys and values is UTF-8. -/
def validTextPairs : List (Bytes × Value) → Bool
  | [] => true
  | (k, v) :: kvs => validUTF8 k && (v.validText && validTextPairs kvs)

end

/-- The value that a byte string encodes: all of it, with UTF-8 in its text. -/
def decodeAll (bs : Bytes) : Option Value :=
  match decode (2 * bs.length) bs with
  | some (v, []) => if v.validText then some v else none
  | _ => none

/-- Decoding an encoded value gives it back when its text is UTF-8, and fails otherwise. -/
theorem decodeAll_encode (v : Value) :
    decodeAll (encode v) = if v.validText then some v else none := by
  have := decode_encode v (2 * (encode v).length) [] le_rfl
  rw [List.append_nil] at this
  simp [decodeAll, this]

/-! ## Structs

A Go struct is a map from the names of its fields, in their order. A field marked `omitempty` is
left out at its zero value, and a field that the map does not have keeps its zero value. -/

/-- A field, left out if it is empty. -/
def omitEmpty (isEmpty : Bool) (k : Bytes) (v : Value) (kvs : List (Bytes × Value)) :
    List (Bytes × Value) := if isEmpty then kvs else (k, v) :: kvs

/-- The field of a struct, decoded. -/
def field {α : Type} (kvs : List (Bytes × Value)) (k : Bytes) (dec : Value → Option α)
    (zero : α) : Option α :=
  match kvs.lookup k with
  | none => some zero
  | some v => dec v

section Field

variable {α : Type} {dec : Value → Option α} {zero : α} {k k' : Bytes} {v : Value}
  {kvs : List (Bytes × Value)}

/-- A field of no map. -/
@[simp] theorem field_nil : field [] k dec zero = some zero := rfl

/-- The first field. -/
@[simp] theorem field_cons_self : field ((k, v) :: kvs) k dec zero = dec v := by
  simp [field]

/-- A field after another one. -/
theorem field_cons_ne (h : k ≠ k') : field ((k', v) :: kvs) k dec zero = field kvs k dec zero := by
  have : (k == k') = false := by simpa using h
  simp [field, List.lookup_cons, this]

/-- A field that may be left out. -/
theorem field_omitEmpty_self (isEmpty : Bool) :
    field (omitEmpty isEmpty k v kvs) k dec zero =
      if isEmpty then field kvs k dec zero else dec v := by
  cases isEmpty <;> simp [omitEmpty]

/-- A field after one that may be left out. -/
theorem field_omitEmpty_ne (isEmpty : Bool) (h : k ≠ k') :
    field (omitEmpty isEmpty k' v kvs) k dec zero = field kvs k dec zero := by
  cases isEmpty
  · exact field_cons_ne h
  · rfl

/-- There is no text. -/
@[simp] theorem validTextPairs_nil : validTextPairs [] = true := rfl

/-- The texts of one more field. -/
theorem validTextPairs_cons (h : validUTF8 k = true) :
    validTextPairs ((k, v) :: kvs) = (v.validText && validTextPairs kvs) := by
  simp [validTextPairs, h]

/-- The texts of a field that may be left out. -/
theorem validTextPairs_omitEmpty (isEmpty : Bool) (h : validUTF8 k = true) :
    validTextPairs (omitEmpty isEmpty k v kvs) =
      ((isEmpty || v.validText) && validTextPairs kvs) := by
  cases isEmpty <;> simp [omitEmpty, validTextPairs, h]

end Field

/-- An integer. -/
def Value.toInt : Value → Option ℤ
  | .int z => some z
  | _ => none

/-- A string. -/
def Value.toText : Value → Option Bytes
  | .text b => some b
  | _ => none

/-- A Boolean. -/
def Value.toBool : Value → Option Bool
  | .bool b => some b
  | _ => none

/-- A byte slice, where null is nil. -/
def Value.toBytes? : Value → Option (Option Bytes)
  | .bytes b => some (some b)
  | .null => some none
  | _ => none

/-- A byte slice, where nil and empty are not told apart. -/
def Value.toBytes (v : Value) : Option Bytes := v.toBytes?.map (·.getD [])

/-- A slice of strings, where null is nil. -/
def Value.toTexts? : Value → Option (Option (List Bytes))
  | .array vs => (vs.mapM toText).map some
  | .null => some none
  | _ => none

/-- A slice of strings, where nil and empty are not told apart. -/
def Value.toTexts (v : Value) : Option (List Bytes) := v.toTexts?.map (·.getD [])

/-- A byte slice that may be nil. -/
def ofBytes? : Option Bytes → Value
  | none => .null
  | some b => .bytes b

/-- A slice of strings. -/
def ofTexts (ts : List Bytes) : Value := .array (ts.map .text)

/-- A slice of strings that may be nil. -/
def ofTexts? : Option (List Bytes) → Value
  | none => .null
  | some ts => ofTexts ts

/-- Bytes are read back. -/
@[simp] theorem toBytes?_ofBytes? (b : Option Bytes) : (ofBytes? b).toBytes? = some b := by
  cases b <;> rfl

/-- Texts are read back. -/
theorem mapM_toText (ts : List Bytes) : (ts.map Value.text).mapM Value.toText = some ts := by
  induction ts with
  | nil => rfl
  | cons t ts ih => simp [Value.toText, ih]

/-- So is a list or none. -/
@[simp] theorem toTexts?_ofTexts? (ts : Option (List Bytes)) :
    (ofTexts? ts).toTexts? = some ts := by
  cases ts with
  | none => rfl
  | some ts => simp only [ofTexts?, ofTexts, Value.toTexts?, mapM_toText, Option.map_some]

/-- So is a list. -/
@[simp] theorem toTexts_ofTexts (ts : List Bytes) : (ofTexts ts).toTexts = some ts := by
  simp only [ofTexts, Value.toTexts, Value.toTexts?, mapM_toText, Option.map_some,
    Option.getD_some]

/-- Bytes are no text. -/
@[simp] theorem validText_ofBytes? (b : Option Bytes) : (ofBytes? b).validText = true := by
  cases b <;> rfl

/-- The texts of a list. -/
@[simp] theorem validText_ofTexts (ts : List Bytes) :
    (ofTexts ts).validText = ts.all validUTF8 := by
  unfold ofTexts Value.validText
  induction ts with
  | nil => rfl
  | cons t ts ih => simp [validTextList, Value.validText, ih]

/-- The texts of a list, if there is one. -/
@[simp] theorem validText_ofTexts? (ts : Option (List Bytes)) :
    (ofTexts? ts).validText = (ts.getD []).all validUTF8 := by
  cases ts with
  | none => rfl
  | some ts => exact validText_ofTexts ts

/-! ## Text that was decoded

The text in a value that was decoded is UTF-8, and so is what is taken out of it. -/

/-- What is decoded has valid texts. -/
theorem validText_of_decodeAll {bs : Bytes} {v : Value} (h : decodeAll bs = some v) :
    v.validText = true := by
  unfold decodeAll at h
  split at h
  · split_ifs at h with hv
    rwa [← Option.some.inj h]
  · exact absurd h (by simp)

/-- So has each of its fields. -/
theorem validText_of_lookup {kvs : List (Bytes × Value)} {k : Bytes} {v : Value}
    (hkvs : validTextPairs kvs = true) (h : kvs.lookup k = some v) : v.validText = true := by
  induction kvs with
  | nil => exact absurd h (by simp)
  | cons kv kvs ih =>
    obtain ⟨k', v'⟩ := kv
    simp only [validTextPairs, Bool.and_eq_true] at hkvs
    rw [List.lookup_cons] at h
    split at h
    · rw [← Option.some.inj h]
      exact hkvs.2.1
    · exact ih hkvs.2.2 h

/-- A field decodes to something valid, if its zero value is valid and its value decodes to something
valid. -/
theorem valid_of_field {α : Type} {P : α → Prop} {dec : Value → Option α} {zero : α}
    (hzero : P zero) (hdec : ∀ v a, v.validText = true → dec v = some a → P a)
    {kvs : List (Bytes × Value)} (hkvs : validTextPairs kvs = true) {k : Bytes} {a : α}
    (h : field kvs k dec zero = some a) : P a := by
  unfold field at h
  split at h
  · exact Option.some.inj h ▸ hzero
  · rename_i v hv
    exact hdec v a (validText_of_lookup hkvs hv) h

/-- A text that was read is valid. -/
theorem validUTF8_of_toText (v : Value) (t : Bytes) (hv : v.validText = true)
    (h : v.toText = some t) : validUTF8 t = true := by
  cases v with
  | text b =>
    obtain rfl := Option.some.inj h
    simpa [Value.validText] using hv
  | _ => exact absurd h (by simp [Value.toText])

/-- What is decoded from the elements of an array is valid if each of them decodes to something valid. -/
theorem valid_of_mapM {α : Type} {P : α → Prop} {dec : Value → Option α}
    (hdec : ∀ v a, v.validText = true → dec v = some a → P a) {vs : List Value} {as : List α}
    (hvs : validTextList vs = true) (h : vs.mapM dec = some as) : ∀ a ∈ as, P a := by
  induction vs generalizing as with
  | nil =>
    obtain rfl : as = [] := by simpa using h.symm
    simp
  | cons v vs ih =>
    simp only [validTextList, Bool.and_eq_true] at hvs
    rw [List.mapM_cons] at h
    obtain ⟨a, ha, h⟩ := Option.bind_eq_some_iff.mp h
    obtain ⟨as', has, h⟩ := Option.bind_eq_some_iff.mp h
    obtain rfl := Option.some.inj h
    exact List.forall_mem_cons.mpr ⟨hdec v a hvs.1 ha, ih hvs.2 has⟩

/-- So are texts, if there are any. -/
theorem validUTF8_of_toTexts? (v : Value) (ts : Option (List Bytes)) (hv : v.validText = true)
    (h : v.toTexts? = some ts) : ∀ t ∈ ts.getD [], validUTF8 t = true := by
  unfold Value.toTexts? at h
  cases v with
  | array vs =>
    obtain ⟨ts', hts, rfl⟩ := Option.map_eq_some_iff.mp h
    exact valid_of_mapM validUTF8_of_toText hv hts
  | null =>
    obtain rfl := Option.some.inj h
    simp
  | _ => exact absurd h (by simp)

/-- So are texts. -/
theorem validUTF8_of_toTexts (v : Value) (ts : List Bytes) (hv : v.validText = true)
    (h : v.toTexts = some ts) : ∀ t ∈ ts, validUTF8 t = true := by
  obtain ⟨ts?, hts, rfl⟩ := Option.map_eq_some_iff.mp h
  exact validUTF8_of_toTexts? v ts? hv hts

end CborFormat

end FnShare
