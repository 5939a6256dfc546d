import FnShare.Lib.Bytes

/-!
# SHA-256

The hash function of FIPS 180-4 on byte strings, and the one fact about it that the development
needs: a digest has 32 bytes.
-/

namespace FnShare.Sha256

/-- The round constants. -/
def roundConstants : List UInt32 :=
  [0x428a2f98, 0x71374491, 0xb5c0fbcf, 0xe9b5dba5, 0x3956c25b, 0x59f111f1, 0x923f82a4, 0xab1c5ed5,
   0xd807aa98, 0x12835b01, 0x243185be, 0x550c7dc3, 0x72be5d74, 0x80deb1fe, 0x9bdc06a7, 0xc19bf174,
   0xe49b69c1, 0xefbe4786, 0x0fc19dc6, 0x240ca1cc, 0x2de92c6f, 0x4a7484aa, 0x5cb0a9dc, 0x76f988da,
   0x983e5152, 0xa831c66d, 0xb00327c8, 0xbf597fc7, 0xc6e00bf3, 0xd5a79147, 0x06ca6351, 0x14292967,
   0x27b70a85, 0x2e1b2138, 0x4d2c6dfc, 0x53380d13, 0x650a7354, 0x766a0abb, 0x81c2c92e, 0x92722c85,
   0xa2bfe8a1, 0xa81a664b, 0xc24b8b70, 0xc76c51a3, 0xd192e819, 0xd6990624, 0xf40e3585, 0x106aa070,
   0x19a4c116, 0x1e376c08, 0x2748774c, 0x34b0bcb5, 0x391c0cb3, 0x4ed8aa4a, 0x5b9cca4f, 0x682e6ff3,
   0x748f82ee, 0x78a5636f, 0x84c87814, 0x8cc70208, 0x90befffa, 0xa4506ceb, 0xbef9a3f7, 0xc67178f2]

/-- The eight words of the hash state. -/
structure State where
  a : UInt32
  b : UInt32
  c : UInt32
  d : UInt32
  e : UInt32
  f : UInt32
  g : UInt32
  h : UInt32

/-- The state before the first block. -/
def init : State :=
  ⟨0x6a09e667, 0xbb67ae85, 0x3c6ef372, 0xa54ff53a, 0x510e527f, 0x9b05688c, 0x1f83d9ab, 0x5be0cd19⟩

/-- Rotation to the right. -/
def rotr (x : UInt32) (n : UInt32) : UInt32 := (x >>> n) ||| (x <<< (32 - n))

/-- The bytes of a word, most significant first. -/
def wordBytes (x : UInt32) : Bytes :=
  [(x >>> 24).toUInt8, (x >>> 16).toUInt8, (x >>> 8).toUInt8, x.toUInt8]

/-- The words of a byte string whose length is a multiple of four. -/
def toWords : Bytes → List UInt32
  | b0 :: b1 :: b2 :: b3 :: bs =>
    ((b0.toUInt32 <<< 24) ||| (b1.toUInt32 <<< 16) ||| (b2.toUInt32 <<< 8) ||| b3.toUInt32) ::
      toWords bs
  | _ => []

/-- The next word of the message schedule, from the words before it, newest first. -/
def nextWord (ws : List UInt32) : UInt32 :=
  let w15 := ws.getD 14 0
  let w2 := ws.getD 1 0
  let s0 := rotr w15 7 ^^^ rotr w15 18 ^^^ (w15 >>> 3)
  let s1 := rotr w2 17 ^^^ rotr w2 19 ^^^ (w2 >>> 10)
  s1 + ws.getD 6 0 + s0 + ws.getD 15 0

/-- The message schedule, newest word first, extended by `n` words. -/
def schedule : ℕ → List UInt32 → List UInt32
  | 0, ws => ws
  | n + 1, ws => schedule n (nextWord ws :: ws)

/-- One round, with the sum of its constant and its message word. -/
def round (s : State) (kw : UInt32) : State :=
  let s1 := rotr s.e 6 ^^^ rotr s.e 11 ^^^ rotr s.e 25
  let ch := (s.e &&& s.f) ^^^ (~~~s.e &&& s.g)
  let t1 := s.h + s1 + ch + kw
  let s0 := rotr s.a 2 ^^^ rotr s.a 13 ^^^ rotr s.a 22
  let maj := (s.a &&& s.b) ^^^ (s.a &&& s.c) ^^^ (s.b &&& s.c)
  ⟨t1 + (s0 + maj), s.a, s.b, s.c, s.d + t1, s.e, s.f, s.g⟩

/-- One block of 16 words. -/
def compress (s : State) (block : List UInt32) : State :=
  let ws := (schedule 48 block.reverse).reverse
  let t := (List.zipWith (· + ·) roundConstants ws).foldl round s
  ⟨s.a + t.a, s.b + t.b, s.c + t.c, s.d + t.d, s.e + t.e, s.f + t.f, s.g + t.g, s.h + t.h⟩

/-- The first `n` blocks of the words of a padded message. -/
def blocks : ℕ → State → List UInt32 → State
  | 0, s, _ => s
  | n + 1, s, ws => blocks n (compress s (ws.take 16)) (ws.drop 16)

/-- The padding: the bit one, zeroes, and the length in bits, up to a multiple of 64 bytes. -/
def pad (m : Bytes) : Bytes :=
  let zeroes := (119 - m.length % 64) % 64
  let bits := m.length * 8
  m ++ [0x80] ++ List.replicate zeroes 0 ++
    wordBytes (UInt32.ofNat (bits / 2^32)) ++ wordBytes (UInt32.ofNat bits)

end FnShare.Sha256

namespace FnShare

/-- `sha256.Sum256`. -/
def sha256 (m : Bytes) : Bytes :=
  let p := Sha256.pad m
  let s := Sha256.blocks (p.length / 64) Sha256.init (Sha256.toWords p)
  [s.a, s.b, s.c, s.d, s.e, s.f, s.g, s.h].flatMap Sha256.wordBytes

/-- A digest has 32 bytes. -/
theorem length_sha256 (m : Bytes) : (sha256 m).length = 32 := rfl

end FnShare
