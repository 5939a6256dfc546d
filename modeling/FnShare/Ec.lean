import FnShare.Libs

/-!
# Erasure coding

The package `internal/ec`, over the Reed-Solomon library. A stripe is padded with zeroes, split into
`DataShards` parts, and extended by `ParityShards` parity shards. `decode_encode` is what the rest of
the code builds on: from any `DataShards` of the shards, each in its slot, the stripe comes back.
-/

namespace FnShare

/-- The runtime's `maxAlloc` on a 64-bit platform. -/
def maxAlloc : ℤ := 2^48

/-- `make` of so many bytes does not panic. -/
def Allocatable (n : ℤ) : Prop := 0 ≤ n ∧ n ≤ maxAlloc

instance : DecidablePred Allocatable := fun n => inferInstanceAs (Decidable (0 ≤ n ∧ n ≤ maxAlloc))

/-- `ec.Params`. -/
structure Params where
  dataShards : ℤ
  parityShards : ℤ
  deriving DecidableEq

namespace Params

/-- `DataShards + ParityShards`. -/
def total (p : Params) : ℤ := p.dataShards + p.parityShards

/-- `Encode`. -/
def encode (L : Libs) (p : Params) (data : Bytes) : Except GoErr (List Bytes) :=
  if p.dataShards ≤ 0 ∨ p.parityShards ≤ 0 then .error (.msg (lit "ec: invalid params"))
  else do
    L.rs.new p.dataShards p.parityShards
    let parts ← (L.rs.split p.dataShards p.parityShards data).mapError (.wrap (lit "split: "))
    (L.rs.encode p.dataShards p.parityShards parts).mapError (.wrap (lit "encode: "))

/-- The data shards one after the other, cut to the size of the data. -/
def joinData (p : Params) (shards : List (Option Bytes)) (fileSize : ℤ) : Bytes :=
  ((shards.take p.dataShards.toNat).map (·.getD [])).flatten.take fileSize.toNat

/-- `Decode`: the shards, with the missing ones filled in, and the data. A size below zero, or above what
can be allocated, panics in the `make` of the result; `none` is the panic. -/
def decode (L : Libs) (p : Params) (shards : List (Option Bytes)) (fileSize : ℤ) :
    Option (Except GoErr (List (Option Bytes) × Bytes)) :=
  match L.rs.new p.dataShards p.parityShards with
  | .error e => some (.error e)
  | .ok () =>
    if (shards.length : ℤ) ≠ p.total then
      some (.error (.msg (lit "ec: expected " ++ fmtInt p.total ++ lit " shards, got " ++
        fmtNat shards.length)))
    else
      match L.rs.reconstruct p.dataShards p.parityShards shards with
      | .error e => some (.error (.wrap (lit "reconstruct: ") e))
      | .ok full =>
        match L.rs.verify p.dataShards p.parityShards full with
        | .error e => some (.error (.msg (lit "verify after reconstruct failed: " ++ e.text)))
        | .ok false => some (.error (.msg (lit "verify after reconstruct failed: <nil>")))
        | .ok true => if Allocatable fileSize then some (.ok (full, p.joinData full fileSize)) else none

/-- `Decode` gets as far as the allocation of its result. -/
def Decodable (L : Libs) (p : Params) (shards : List (Option Bytes)) : Prop :=
  L.rs.new p.dataShards p.parityShards = .ok () ∧ (shards.length : ℤ) = p.total ∧
    ∃ full, L.rs.reconstruct p.dataShards p.parityShards shards = .ok full ∧
      L.rs.verify p.dataShards p.parityShards full = .ok true

variable {L : Libs} {p : Params} {data : Bytes} {shards : List Bytes}

/-- `Decode` panics on a size that cannot be allocated, once the shards are there. -/
theorem decode_eq_none_iff {got : List (Option Bytes)} {fileSize : ℤ} :
    p.decode L got fileSize = none ↔ p.Decodable L got ∧ ¬ Allocatable fileSize := by
  unfold decode Decodable
  cases hnew : L.rs.new p.dataShards p.parityShards with
  | error e => simp
  | ok u =>
    by_cases hlen : (got.length : ℤ) = p.total
    · cases hrec : L.rs.reconstruct p.dataShards p.parityShards got with
      | error e => simp [hlen]
      | ok full =>
        cases hver : L.rs.verify p.dataShards p.parityShards full with
        | error e => simp [hlen, hver]
        | ok b => cases b <;> simp [hlen, hver]
    · simp [hlen]

/-- `Decode` gives its data once the shards are there and the size can be allocated. -/
theorem decode_eq_ok_iff {got full : List (Option Bytes)} {text : Bytes} {fileSize : ℤ} :
    p.decode L got fileSize = some (.ok (full, text)) ↔
      L.rs.new p.dataShards p.parityShards = .ok () ∧ (got.length : ℤ) = p.total ∧
      L.rs.reconstruct p.dataShards p.parityShards got = .ok full ∧
      L.rs.verify p.dataShards p.parityShards full = .ok true ∧ Allocatable fileSize ∧
      p.joinData full fileSize = text := by
  unfold decode
  cases hnew : L.rs.new p.dataShards p.parityShards with
  | error e => simp
  | ok u =>
    by_cases hlen : (got.length : ℤ) = p.total
    · cases hrec : L.rs.reconstruct p.dataShards p.parityShards got with
      | error e => simp [hlen]
      | ok full' =>
        cases hver : L.rs.verify p.dataShards p.parityShards full' with
        | error e =>
          simp only [hlen]
          grind
        | ok b =>
          simp only [hlen]
          cases b <;> grind
    · simp [hlen]

/-- The shards that `Encode` makes are those of the library's code, and there is some data. -/
theorem encodes_of_encode (hR : L.rs.Mds) (hdata : data ≠ []) (h : p.encode L data = .ok shards) :
    0 < p.dataShards ∧ 0 < p.parityShards ∧ L.rs.new p.dataShards p.parityShards = .ok () ∧
      L.rs.Encodes p.dataShards p.parityShards data shards := by
  unfold encode at h
  split_ifs at h with hpos
  cases hnew : L.rs.new p.dataShards p.parityShards with
  | error e => simp [hnew, Bind.bind, Except.bind] at h
  | ok u =>
    obtain ⟨parts, shards', hsplit, henc, hcode⟩ :=
      hR.encodes p.dataShards p.parityShards data (by omega) (by omega) hnew hdata
    rw [hnew, hsplit] at h
    simp only [Bind.bind, Except.bind, Except.mapError, henc, Except.ok.injEq] at h
    exact ⟨by omega, by omega, rfl, h ▸ hcode⟩

/-- Any `DataShards` of the shards that `Encode` makes give back all shards and the data. -/
theorem decode_encode (hR : L.rs.Mds) (hdata : data ≠ []) (h : p.encode L data = .ok shards)
    (halloc : Allocatable data.length) {got : List (Option Bytes)} (hgot : SomeOf shards got)
    (hk : p.dataShards ≤ present got) : p.decode L got data.length = some (.ok (shards.map some, data)) := by
  obtain ⟨hpos, -, hnew, hcode⟩ := encodes_of_encode hR hdata h
  have hlen : (got.length : ℤ) = p.total := by
    rw [← hgot.length_eq]
    exact hcode.length_eq
  obtain ⟨pad, hpad⟩ := hcode.data_eq
  have hjoin : p.joinData (shards.map some) data.length = data := by
    have hmap : ((shards.map some).take p.dataShards.toNat).map (·.getD []) =
        shards.take p.dataShards.toNat := by
      rw [← List.map_take, List.map_map]
      exact List.map_id' _
    rw [joinData, hmap, hpad, Int.toNat_natCast, List.take_left]
  unfold decode
  simp only [hnew, hlen, ne_eq, not_true_eq_false, if_false, hcode.reconstruct got hgot hk,
    hcode.verify, hjoin]
  rw [if_pos halloc]

/-- If the missing shards cannot be filled in, there is an error. -/
theorem decode_of_reconstruct (hnew : L.rs.new p.dataShards p.parityShards = .ok ())
    {got : List (Option Bytes)} {e : GoErr}
    (h : L.rs.reconstruct p.dataShards p.parityShards got = .error e) (fileSize : ℤ) :
    ∃ e', p.decode L got fileSize = some (.error e') := by
  unfold decode
  simp only [hnew]
  by_cases hlen : (got.length : ℤ) ≠ p.total
  · rw [if_pos hlen]
    exact ⟨_, rfl⟩
  · rw [if_neg hlen, h]
    exact ⟨_, rfl⟩

end Params

end FnShare
