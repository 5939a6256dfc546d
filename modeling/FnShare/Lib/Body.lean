import FnShare.Go

/-!
# Readers

An `io.Reader` as the list of what its reads have to give: each `Read` takes bytes off the first
chunk, and after the last chunk every `Read` gives the error that ends the stream. A reader can give
that error together with the last bytes, or by itself.

`readFull` is `io.ReadFull`. It does not depend on the chunks: it takes the bytes off the front of the
whole stream (`readFull_of_le`), and where these do not suffice it reports the end of the stream
(`readFull_of_lt`), with `io.EOF` turned into `io.ErrUnexpectedEOF` if there were some.
-/

namespace FnShare

/-- A stream of bytes, as its reads give it. -/
structure Body where
  /-- What the reads give, one after the other; an empty chunk is a read that gives nothing yet. -/
  chunks : List Bytes
  /-- The error that ends the stream. -/
  term : GoErr
  /-- Whether the error comes together with the last chunk. -/
  eager : Bool

/-- All bytes of the stream. -/
def Body.data (b : Body) : Bytes := b.chunks.flatten

/-- The loop of `io.ReadAtLeast` for `want` more bytes: the bytes, the error if these are fewer, and
the chunks that are left. -/
def readLoop (term : GoErr) (eager : Bool) : ℕ → List Bytes → Bytes × Option GoErr × List Bytes
  | 0, cs => ([], none, cs)
  | _ + 1, [] => ([], some term, [])
  | want + 1, c :: cs =>
    if want + 1 < c.length then (c.take (want + 1), none, c.drop (want + 1) :: cs)
    else if cs = [] ∧ eager = true then
      -- The last bytes come with the error, which counts only if they are too few.
      (c, if c.length = want + 1 then none else some term, [])
    else
      let (d, e, rest) := readLoop term eager (want + 1 - c.length) cs
      (c ++ d, e, rest)

/-- `io.ReadFull` into a buffer of `want` bytes. -/
def readFull (want : ℕ) (b : Body) : Bytes × Option GoErr × Body :=
  let (d, e, rest) := readLoop b.term b.eager want b.chunks
  (d, if 0 < d.length ∧ e = some .eof then some .unexpectedEOF else e, { b with chunks := rest })

/-- The loop takes bytes off the front of the stream, and has an error if there are too few. -/
theorem readLoop_eq (term : GoErr) (eager : Bool) (want : ℕ) (cs : List Bytes) :
    ∃ rest, readLoop term eager want cs =
        (cs.flatten.take want, if want ≤ cs.flatten.length then none else some term, rest) ∧
      rest.flatten = cs.flatten.drop want := by
  induction cs generalizing want with
  | nil =>
    cases want with
    | zero => exact ⟨[], rfl, rfl⟩
    | succ want => exact ⟨[], by simp [readLoop], by simp⟩
  | cons c cs ih =>
    cases want with
    | zero => exact ⟨c :: cs, by simp [readLoop], by simp⟩
    | succ want =>
      by_cases hlt : want + 1 < c.length
      · -- The chunk has more than is wanted.
        refine ⟨c.drop (want + 1) :: cs, ?_, ?_⟩
        · have htake : (c ++ cs.flatten).take (want + 1) = c.take (want + 1) :=
            List.take_append_of_le_length hlt.le
          have hle : want + 1 ≤ c.length + cs.flatten.length := by omega
          rw [readLoop, if_pos hlt, List.flatten_cons, htake, List.length_append, if_pos hle]
        · have hdrop : (c ++ cs.flatten).drop (want + 1) = c.drop (want + 1) ++ cs.flatten :=
            List.drop_append_of_le_length hlt.le
          simp [hdrop]
      · have hge : c.length ≤ want + 1 := by omega
        by_cases hlast : cs = [] ∧ eager = true
        · obtain ⟨rfl, rfl⟩ := hlast
          refine ⟨[], ?_, ?_⟩
          · have htake : c.take (want + 1) = c := List.take_of_length_le hge
            have hiff : c.length = want + 1 ↔ want + 1 ≤ c.length := by omega
            simp [readLoop, hlt, htake, hiff]
          · have hdrop : c.drop (want + 1) = [] := List.drop_of_length_le hge
            simp [hdrop]
        · obtain ⟨rest, hrest, hflat⟩ := ih (want + 1 - c.length)
          refine ⟨rest, ?_, ?_⟩
          · have htake : (c ++ cs.flatten).take (want + 1) =
                c ++ cs.flatten.take (want + 1 - c.length) := by
              rw [List.take_append, List.take_of_length_le hge]
            have hiff : want + 1 - c.length ≤ cs.flatten.length ↔
                want + 1 ≤ c.length + cs.flatten.length := by omega
            rw [readLoop, if_neg hlt, if_neg hlast, hrest]
            simp only [List.flatten_cons, List.length_append, htake, hiff]
          · rw [hflat, List.flatten_cons, List.drop_append, List.drop_of_length_le hge,
              List.nil_append]

/-- `io.ReadFull` where the stream has enough bytes. -/
theorem readFull_of_le {want : ℕ} {b : Body} (h : want ≤ b.data.length) :
    ∃ b', readFull want b = (b.data.take want, none, b') ∧ b'.data = b.data.drop want ∧
      b'.term = b.term := by
  obtain ⟨rest, hrest, hflat⟩ := readLoop_eq b.term b.eager want b.chunks
  rw [if_pos (show want ≤ b.chunks.flatten.length from h)] at hrest
  refine ⟨{ b with chunks := rest }, ?_, hflat, rfl⟩
  unfold readFull
  rw [hrest]
  simp [Body.data]

/-- `io.ReadFull` where the stream ends before: it reports how. -/
theorem readFull_of_lt {want : ℕ} {b : Body} (h : b.data.length < want) :
    ∃ b', readFull want b = (b.data, some (if 0 < b.data.length ∧ b.term = .eof then .unexpectedEOF
      else b.term), b') ∧ b'.data = [] ∧ b'.term = b.term := by
  obtain ⟨rest, hrest, hflat⟩ := readLoop_eq b.term b.eager want b.chunks
  have hle : ¬ want ≤ b.chunks.flatten.length := by
    have : b.data.length = b.chunks.flatten.length := rfl
    omega
  rw [if_neg hle, List.take_of_length_le (by omega)] at hrest
  refine ⟨{ b with chunks := rest }, ?_, ?_, rfl⟩
  · unfold readFull
    rw [hrest]
    simp only [Option.some.injEq]
    split_ifs with h1 h2 h2
    · rfl
    · exact absurd h1 h2
    · exact absurd h2 h1
    · rfl
  · change rest.flatten = []
    rw [hflat]
    exact List.drop_of_length_le (by omega)

/-- A buffer that was filled took bytes off the stream. -/
theorem length_readFull_lt {want : ℕ} {b : Body} (hpos : 0 < want)
    (h : (readFull want b).2.1 = none) : (readFull want b).2.2.data.length < b.data.length := by
  by_cases hle : want ≤ b.data.length
  · obtain ⟨b', hread, hdata, -⟩ := readFull_of_le hle
    rw [hread, hdata, List.length_drop]
    omega
  · obtain ⟨b', hread, -⟩ := readFull_of_lt (not_le.mp hle)
    rw [hread] at h
    exact absurd h (Option.some_ne_none _)

end FnShare
