import FnShare.Lib.Utf8

/-!
# Errors and times of the code

An error is one of the sentinels that the code compares against, a message, or another error with
a message in front of it (`fmt.Errorf` with `%w`). A `time.Time` is an integer, its distance from
the Unix epoch in nanoseconds.
-/

namespace FnShare

/-- The errors of the code. -/
inductive GoErr
  /-- `io.EOF`. -/
  | eof
  /-- `io.ErrUnexpectedEOF`. -/
  | unexpectedEOF
  /-- `errors.New`, or `fmt.Errorf` without a wrapped error. -/
  | msg (text : Bytes)
  /-- `fmt.Errorf("<before>%w", inner)`. -/
  | wrap (before : Bytes) (inner : GoErr)
  deriving DecidableEq, Repr

/-- `err.Error()`. -/
def GoErr.text : GoErr → Bytes
  | eof => lit "EOF"
  | unexpectedEOF => lit "unexpected EOF"
  | msg t => t
  | wrap before inner => before ++ inner.text

/-- An ASCII character in `%q`. -/
def quoteASCII (b : UInt8) : Bytes :=
  if b = 34 then lit "\\\"" else if b = 92 then lit "\\\\" else if b = 7 then lit "\\a"
  else if b = 8 then lit "\\b" else if b = 12 then lit "\\f" else if b = 10 then lit "\\n"
  else if b = 13 then lit "\\r" else if b = 9 then lit "\\t" else if b = 11 then lit "\\v"
  else if b < 32 || b = 127 then lit "\\x" ++ hexEncode [b] else [b]

/-- The characters of a string in `%q`. A byte that is no UTF-8 is written in hex. Characters that are not
ASCII stand as they are, those that are not printable too. -/
def quoteAux : ℕ → Bytes → Bytes
  | 0, _ => []
  | _, [] => []
  | fuel + 1, b :: bs => match runeLen (b :: bs) with
    | none => lit "\\x" ++ hexEncode [b] ++ quoteAux fuel bs
    | some 1 => quoteASCII b ++ quoteAux fuel bs
    | some n => (b :: bs).take n ++ quoteAux fuel ((b :: bs).drop n)

/-- `%q` of a string. -/
def quote (s : Bytes) : Bytes := lit "\"" ++ quoteAux s.length s ++ lit "\""

/-- `store.ErrNotFound`. -/
def errStoreNotFound : GoErr := .msg (lit "store: key not found")

/-- The zero `time.Time`, the first of January of the year 1. -/
def zeroTime : ℤ := -62135596800 * 1000000000

/-- `t.Unix()`: whole seconds, rounded down. -/
def unix (t : ℤ) : ℤ := t / 1000000000

/-- `t.UnixNano()`: an `int64`. -/
def unixNano (t : ℤ) : ℤ := wrap64 t

/-- `t.Truncate(time.Second)` as the whole seconds of `t` give it back. -/
def wholeSeconds (t : ℤ) : ℤ := unix t * 1000000000

/-- A time of whole seconds is one without a fraction. -/
theorem wholeSeconds_eq_iff (t : ℤ) : wholeSeconds t = t ↔ t % 1000000000 = 0 := by
  unfold wholeSeconds unix
  omega

/-- In nanoseconds a time is told apart from its whole seconds, if it has a fraction. -/
theorem unixNano_wholeSeconds_iff (t : ℤ) :
    unixNano (wholeSeconds t) = unixNano t ↔ t % 1000000000 = 0 := by
  rw [← wholeSeconds_eq_iff]
  refine ⟨fun h => ?_, fun h => by rw [h]⟩
  -- The two are less than a second apart, and `int64` wraps at far more.
  unfold unixNano wrap64 at h
  rw [Int.bmod_eq_emod, Int.bmod_eq_emod] at h
  unfold wholeSeconds unix at *
  split_ifs at h <;> omega

end FnShare
