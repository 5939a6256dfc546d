import FnShare.Lib.Body
import FnShare.Lib.Prog
import FnShare.Instance

/-!
# Frames

The framing of the blocks protocol (`internal/node/blocks.go`). A request or a response travels as the
length of its CBOR encoding, in four bytes with the most significant first, and the encoding.
`writeFrame` is a program over the writer that it is given, since a write can fail with only some of
its bytes written. `readFrame` takes a frame off the front of a stream, in whatever chunks the stream
delivers it (`readFrame_frame`); of a torn frame it makes an error (`readFrame_torn`).

Both sides have the same limit on the encoding. A shard comes in a request and goes out in a response,
whose fields take less room (`length_responseValue_le`).
-/

namespace FnShare

open Prog CborFormat

/-- `maxFrameSize`. -/
def maxFrameSize : ℕ := 64 * 1024 * 1024

/-- The error of a frame over the limit, which both sides report alike. -/
def errFrameTooLarge (n : ℕ) : GoErr :=
  .msg (lit "frame too large: " ++ fmtNat n ++ lit " > " ++ fmtNat maxFrameSize)

/-! ## Writing -/

/-- The operation of an `io.Writer`. -/
inductive WriterOp
  | write (p : Bytes)

/-- A writer as programs see it. -/
def WriterSig : Sig where
  Op := WriterOp
  Ans _ := Except GoErr Unit

/-- A writer is what has been written to it. A write adds its bytes, or fails after some of them. -/
def writerEnv : Env WriterSig Bytes where
  step
    | w, .write p, .ok (), w' => w' = w ++ p
    | w, .write p, .error _, w' => ∃ k, w' = w ++ p.take k
  guard _ _ := True

section Code

variable {α : Type} (c : Codec α)

/-- `writeFrame`. -/
def writeFrame (v : α) : Prog WriterSig GoErr Unit :=
  let raw := c.marshal v
  if maxFrameSize < raw.length then fail (errFrameTooLarge raw.length)
  else do
    let hdr := beBytes 4 (raw.length % 2^32)
    ofExcept (← op (WriterOp.write hdr) ret)
    ofExcept (← op (WriterOp.write raw) ret)

/-- `readFrame`: the value or the error, and what is left of the stream. -/
def readFrame (r : Body) : Except GoErr α × Body :=
  match readFull 4 r with
  | (_, some e, r) => (.error e, r)
  | (hdr, none, r) =>
    let n := ofBE hdr
    if maxFrameSize < n then (.error (errFrameTooLarge n), r)
    else
      match readFull n r with
      | (_, some e, r) => (.error e, r)
      | (buf, none, r) => (c.unmarshal buf, r)

/-- The bytes of an encoding and its length before it. -/
def frame (raw : Bytes) : Bytes := beBytes 4 raw.length ++ raw

end Code

section Frames

variable {α : Type} {c : Codec α} {v : α} {raw : Bytes}

/-- The length of an encoding that keeps the limit is not changed by its 32 bits. -/
theorem length_mod_of_le (h : raw.length ≤ maxFrameSize) : raw.length % 2^32 = raw.length := by
  unfold maxFrameSize at h
  exact Nat.mod_eq_of_lt (by omega)

/-- An encoding that keeps the limit is written as its frame, if no write fails. -/
theorem wp_writeFrame (h : (c.marshal v).length ≤ maxFrameSize) (w : Bytes) :
    wp writerEnv (writeFrame c v) (onOk fun _ w' => w' = w ++ frame (c.marshal v)) w := by
  unfold writeFrame
  rw [if_neg (not_lt.mpr h), length_mod_of_le h]
  refine ⟨trivial, fun r w₁ h₁ => ?_⟩
  cases r with
  | error e => trivial
  | ok u =>
    refine ⟨trivial, fun r w₂ h₂ => ?_⟩
    cases r with
    | error e => trivial
    | ok u =>
      change w₂ = w ++ frame (c.marshal v)
      have h₁ : w₁ = w ++ beBytes 4 (c.marshal v).length := h₁
      have h₂ : w₂ = w₁ ++ c.marshal v := h₂
      rw [h₂, h₁, List.append_assoc, frame]

/-- The run in which no write fails. -/
theorem steps_writeFrame (h : (c.marshal v).length ≤ maxFrameSize) (w : Bytes) :
    ∃ evs, Steps writerEnv w (writeFrame c v) evs (w ++ frame (c.marshal v)) (ret ()) := by
  unfold writeFrame
  rw [if_neg (not_lt.mpr h), length_mod_of_le h]
  have hhdr : writerEnv.step w (.write (beBytes 4 (c.marshal v).length)) (.ok ())
      (w ++ beBytes 4 (c.marshal v).length) := rfl
  have hraw : writerEnv.step (w ++ beBytes 4 (c.marshal v).length) (.write (c.marshal v)) (.ok ())
      (w ++ frame (c.marshal v)) := by
    change w ++ frame (c.marshal v) = w ++ beBytes 4 (c.marshal v).length ++ c.marshal v
    rw [List.append_assoc, frame]
  exact ⟨_, .op hhdr (.op hraw (.refl _ _))⟩

/-! ## Reading -/

/-- The length in front of an encoding that keeps the limit is read back. -/
theorem ofBE_length (h : raw.length ≤ maxFrameSize) : ofBE (beBytes 4 raw.length) = raw.length := by
  unfold maxFrameSize at h
  exact ofBE_beBytes (by omega)

/-- A frame at the front of a stream is read as its encoding, and no byte more is taken. -/
theorem readFrame_frame (h : raw.length ≤ maxFrameSize) {r : Body} {further : Bytes}
    (hr : r.data = frame raw ++ further) :
    ∃ r', readFrame c r = (c.unmarshal raw, r') ∧ r'.data = further ∧ r'.term = r.term := by
  have hhdr : (beBytes 4 raw.length).length = 4 := length_beBytes 4 raw.length
  rw [frame, List.append_assoc] at hr
  have hlen : 4 ≤ r.data.length := by
    rw [hr, List.length_append]
    omega
  -- First the header is taken off, then as many bytes as it says.
  obtain ⟨r₁, hread₁, hdata₁, hterm₁⟩ := readFull_of_le hlen
  rw [hr, List.take_left' hhdr] at hread₁
  rw [hr, List.drop_left' hhdr] at hdata₁
  have hlen₁ : raw.length ≤ r₁.data.length := by
    rw [hdata₁, List.length_append]
    omega
  obtain ⟨r₂, hread₂, hdata₂, hterm₂⟩ := readFull_of_le hlen₁
  rw [hdata₁, List.take_left] at hread₂
  rw [hdata₁, List.drop_left] at hdata₂
  refine ⟨r₂, ?_, hdata₂, hterm₂.trans hterm₁⟩
  unfold readFrame
  simp only [hread₁, ofBE_length h, if_neg (not_lt.mpr h), hread₂]

/-- A stream that ends inside a frame is read with an error. -/
theorem readFrame_torn (h : raw.length ≤ maxFrameSize) {r : Body} {missing : Bytes}
    (hne : missing ≠ []) (hr : r.data ++ missing = frame raw) :
    ∃ e, (readFrame c r).1 = .error e := by
  have hhdr : (beBytes 4 raw.length).length = 4 := length_beBytes 4 raw.length
  by_cases hlen : 4 ≤ r.data.length
  · -- The header is complete, the encoding is not.
    obtain ⟨r₁, hread₁, hdata₁, -⟩ := readFull_of_le hlen
    have htake : r.data.take 4 = beBytes 4 raw.length := by
      have := congrArg (List.take 4) hr
      rwa [List.take_append_of_le_length hlen, frame, List.take_left' hhdr] at this
    have hlt : r₁.data.length < raw.length := by
      have htotal := congrArg List.length hr
      have hpos := List.length_pos_iff.mpr hne
      simp only [frame, List.length_append, hhdr] at htotal
      rw [hdata₁, List.length_drop]
      omega
    obtain ⟨r₂, hread₂, -⟩ := readFull_of_lt hlt
    unfold readFrame
    simp only [hread₁, htake, ofBE_length h, if_neg (not_lt.mpr h), hread₂]
    exact ⟨_, rfl⟩
  · obtain ⟨r₁, hread₁, -⟩ := readFull_of_lt (not_le.mp hlen)
    unfold readFrame
    simp only [hread₁]
    exact ⟨_, rfl⟩

/-- What holds of a value that can be framed. Whenever `writeFrame` returns without error, which it can,
`readFrame` on the bytes gives the value and takes these bytes off the stream, and on any part from
their front that is not all of them it gives an error. -/
structure RoundTrips (c : Codec α) (v : α) : Prop where
  writes : ∃ evs bytes, Steps writerEnv [] (writeFrame c v) evs bytes (ret ())
  reads : ∀ evs bytes, Steps writerEnv [] (writeFrame c v) evs bytes (ret ()) →
    ∀ (r : Body) (further : Bytes), r.data = bytes ++ further →
      ∃ r', readFrame c r = (.ok v, r') ∧ r'.data = further
  torn : ∀ evs bytes, Steps writerEnv [] (writeFrame c v) evs bytes (ret ()) →
    ∀ r : Body, r.data <+: bytes → r.data ≠ bytes → ∃ e, (readFrame c r).1 = .error e

/-- A value whose encoding keeps the limit goes through a frame. -/
theorem roundTrips_of_le (h : (c.marshal v).length ≤ maxFrameSize)
    (hdec : c.unmarshal (c.marshal v) = .ok v) : RoundTrips c v := by
  have hwritten : ∀ evs bytes, Steps writerEnv [] (writeFrame c v) evs bytes (ret ()) →
      bytes = frame (c.marshal v) := fun evs bytes hsteps => wp_steps hsteps (wp_writeFrame h [])
  refine ⟨?_, ?_, ?_⟩
  · obtain ⟨evs, hsteps⟩ := steps_writeFrame h []
    exact ⟨evs, _, hsteps⟩
  · intro evs bytes hsteps r further hr
    rw [hwritten evs bytes hsteps] at hr
    obtain ⟨r', hread, hdata, -⟩ := readFrame_frame h hr
    exact ⟨r', hread.trans (by rw [hdec]), hdata⟩
  · rintro evs bytes hsteps r ⟨missing, hr⟩ hne
    rw [hwritten evs bytes hsteps] at hr hne
    have hmissing : missing ≠ [] := by
      rintro rfl
      exact hne (by simpa using hr)
    exact readFrame_torn h hmissing hr

/-- A larger value is refused, and nothing is written. -/
theorem writeFrame_of_lt (h : maxFrameSize < (c.marshal v).length) :
    writeFrame c v = fail (errFrameTooLarge (c.marshal v).length) := if_pos h

end Frames

/-! ## Requests and responses -/

/-- The number of a verb on the wire. -/
def BlockOp.code : BlockOp → ℕ
  | .putShard => 1
  | .getShard => 2
  | .putManifest => 3
  | .getManifest => 4
  | .unknown n => n.toNat

/-- `node.Request`. -/
def requestValue (req : Request) : Value :=
  .map <|
    (lit "op", .int req.op.code) ::
    (lit "id", .text req.id) ::
    omitEmpty req.body.isEmpty (lit "body") (.bytes req.body) []

/-- `node.Response`. -/
def responseValue (resp : Response) : Value :=
  .map <|
    (lit "ok", .bool resp.ok) ::
    omitEmpty resp.error.isEmpty (lit "err") (.text resp.error) (
    omitEmpty resp.body.isEmpty (lit "body") (.bytes resp.body) [])

/-- CBOR at `Request`, with some decoder. -/
def requestCodec (C : Cbor) (dec : Bytes → Except GoErr Request) : Codec Request where
  marshal req := C.encode (requestValue req)
  unmarshal := dec

/-- CBOR at `Response`, with some decoder. -/
def responseCodec (C : Cbor) (dec : Bytes → Except GoErr Response) : Codec Response where
  marshal resp := C.encode (responseValue resp)
  unmarshal := dec

/-- The room that a body takes in an encoding, with its key; an empty one is left out. -/
def bodyRoom (body : Bytes) : ℕ := if body.isEmpty then 0 else 5 + (encodeString 2 body).length

/-- The length of an encoded request. -/
theorem length_requestValue (req : Request) :
    (encode (requestValue req)).length =
      7 + (encodeHead 0 req.op.code).length + (encodeString 3 req.id).length + bodyRoom req.body := by
  have hkeys : (encodeString 3 (lit "op")).length = 3 ∧ (encodeString 3 (lit "id")).length = 3 ∧
      (encodeString 3 (lit "body")).length = 5 := by decide
  have hheads : (encodeHead 5 2).length = 1 ∧ (encodeHead 5 3).length = 1 := by decide
  unfold requestValue bodyRoom omitEmpty
  -- Without a body the map has two pairs, and three with it.
  split_ifs
  all_goals
    simp only [encode, encodePairs, List.length_append, List.length_cons, List.length_nil, zero_add,
      Nat.reduceAdd, Nat.cast_nonneg, if_true, Int.toNat_natCast, hkeys, hheads]
    omega

/-- The length of the encoded response that returns a body. -/
theorem length_responseValue (body : Bytes) :
    (encode (responseValue { ok := true, body := body })).length = 5 + bodyRoom body := by
  have hkeys : (encodeString 3 (lit "ok")).length = 3 ∧
      (encodeString 3 (lit "body")).length = 5 := by decide
  have hheads : (encodeHead 5 1).length = 1 ∧ (encodeHead 5 2).length = 1 ∧
      (encodeHead 7 21).length = 1 := by decide
  unfold responseValue bodyRoom omitEmpty
  simp only [List.isEmpty_nil, if_true]
  split_ifs
  · simp only [encode, encodePairs, List.length_append, List.length_cons, List.length_nil, zero_add,
      Nat.reduceAdd, if_true, hkeys, hheads]
  · simp only [encode, encodePairs, List.length_append, List.length_cons, List.length_nil, zero_add,
      Nat.reduceAdd, if_true, hkeys, hheads]
    omega

/-- A body takes no more room in the response that returns it than in a request that brought it: the
verb and the id take more than the flag. -/
theorem length_responseValue_le {C : Cbor} (hC : C.Shortest) (req : Request) :
    (C.encode (responseValue { ok := true, body := req.body })).length ≤
    (C.encode (requestValue req)).length := by
  rw [hC, hC, length_responseValue, length_requestValue]
  omega

/-- The frames of the blocks protocol. A request or a response whose encoding keeps the limit, and which
the decoder gives back, goes through a frame (`RoundTrips`). A larger one is refused before anything is
written. A shard that came in a request fits in the response that returns it. -/
theorem frames_round_trip {C : Cbor} (hC : C.Shortest) (decRequest : Bytes → Except GoErr Request)
    (decResponse : Bytes → Except GoErr Response) :
    (∀ req : Request, (C.encode (requestValue req)).length ≤ maxFrameSize →
      decRequest (C.encode (requestValue req)) = .ok req → RoundTrips (requestCodec C decRequest) req) ∧
    (∀ resp : Response, (C.encode (responseValue resp)).length ≤ maxFrameSize →
      decResponse (C.encode (responseValue resp)) = .ok resp →
        RoundTrips (responseCodec C decResponse) resp) ∧
    (∀ req : Request, maxFrameSize < (C.encode (requestValue req)).length →
      ∃ e, writeFrame (requestCodec C decRequest) req = fail e) ∧
    (∀ resp : Response, maxFrameSize < (C.encode (responseValue resp)).length →
      ∃ e, writeFrame (responseCodec C decResponse) resp = fail e) ∧
    (∀ req : Request, (C.encode (requestValue req)).length ≤ maxFrameSize →
      (C.encode (responseValue { ok := true, body := req.body })).length ≤ maxFrameSize) := by
  refine ⟨?_, ?_, ?_, ?_, ?_⟩
  · intro req hle hdec
    exact roundTrips_of_le hle hdec
  · intro resp hle hdec
    exact roundTrips_of_le hle hdec
  · intro req hlt
    exact ⟨_, writeFrame_of_lt hlt⟩
  · intro resp hlt
    exact ⟨_, writeFrame_of_lt hlt⟩
  · intro req hle
    exact (length_responseValue_le hC req).trans hle

/-! ## A decoder -/

/-- A verb from its number on the wire, which has eight bits. -/
def BlockOp.ofCode (z : ℤ) : Option BlockOp :=
  if 0 ≤ z ∧ z < 256 then
    some <| match z.toNat with
      | 1 => .putShard
      | 2 => .getShard
      | 3 => .putManifest
      | 4 => .getManifest
      | n => .unknown (UInt8.ofNat n)
  else none

/-- `node.Request`, decoded. -/
def valueRequest (v : Value) : Option Request := do
  let fs ← structFields v
  return {
    op := ← (← field fs (lit "op") Value.toInt 0) |> BlockOp.ofCode
    id := ← field fs (lit "id") Value.toText []
    body := ← field fs (lit "body") Value.toBytes [] }

/-- `node.Response`, decoded. -/
def valueResponse (v : Value) : Option Response := do
  let fs ← structFields v
  return {
    ok := ← field fs (lit "ok") Value.toBool false
    error := ← field fs (lit "err") Value.toText []
    body := ← field fs (lit "body") Value.toBytes [] }

/-- A request is read back. -/
theorem valueRequest_requestValue {req : Request} (hop : BlockOp.ofCode req.op.code = some req.op) :
    valueRequest (requestValue req) = some req := by
  simp (disch := decide) [valueRequest, requestValue, structFields, field_cons_ne,
    field_omitEmpty_self, Value.toText, Value.toBytes, Value.toBytes?,
    Value.toInt, hop, some_of_empty]

/-- A response is read back. -/
theorem valueResponse_responseValue (resp : Response) :
    valueResponse (responseValue resp) = some resp := by
  simp (disch := decide) [valueResponse, responseValue, structFields, field_cons_ne,
    field_omitEmpty_self, field_omitEmpty_ne, Value.toText, Value.toBytes, Value.toBytes?,
    Value.toBool, some_of_empty]

/-- CBOR gives back the requests with a known verb and text for an id. -/
theorem unmarshal_request {req : Request} (hid : validUTF8 req.id = true)
    (hop : BlockOp.ofCode req.op.code = some req.op) :
    (valueCodec requestValue valueRequest).unmarshal (encode (requestValue req)) = .ok req := by
  have htext : (requestValue req).validText = true := by
    simp (disch := decide) [requestValue, Value.validText, validTextPairs_cons,
      validTextPairs_omitEmpty, hid]
  simp [valueCodec, decodeAll_encode, htext, valueRequest_requestValue hop]

/-- CBOR gives back the responses with text for an error. -/
theorem unmarshal_response {resp : Response} (herror : validUTF8 resp.error = true) :
    (valueCodec responseValue valueResponse).unmarshal (encode (responseValue resp)) = .ok resp := by
  have htext : (responseValue resp).validText = true := by
    simp (disch := decide) [responseValue, Value.validText, validTextPairs_cons,
      validTextPairs_omitEmpty, herror]
  simp [valueCodec, decodeAll_encode, htext, valueResponse_responseValue resp]

/-- The encoding of a request is longer than its body. -/
theorem length_body_lt (req : Request) : req.body.length < (encode (requestValue req)).length := by
  have hroom : req.body.length ≤ bodyRoom req.body := by
    unfold bodyRoom encodeString
    split_ifs with hempty
    · simp [List.isEmpty_iff.mp hempty]
    · rw [List.length_append]
      omega
  rw [length_requestValue]
  omega

/-- A small shard, as it is sent and as it is returned, and one that is too large for a frame. -/
theorem sample_frames_round_trip :
    RoundTrips (requestCodec sampleCbor (valueCodec requestValue valueRequest).unmarshal)
      ⟨.putShard, lit "ab", [1, 2, 3]⟩ ∧
    RoundTrips (responseCodec sampleCbor (valueCodec responseValue valueResponse).unmarshal)
      { ok := true, body := [1, 2, 3] } ∧
    ∃ e, writeFrame (requestCodec sampleCbor (valueCodec requestValue valueRequest).unmarshal)
      ⟨.putShard, lit "ab", List.replicate maxFrameSize 0⟩ = fail e := by
  obtain ⟨hrequest, hresponse, hlarge, -, hfits⟩ := frames_round_trip (C := sampleCbor) (fun _ => rfl)
    (valueCodec requestValue valueRequest).unmarshal (valueCodec responseValue valueResponse).unmarshal
  have hsmall : (encode (requestValue ⟨.putShard, lit "ab", [1, 2, 3]⟩)).length ≤ maxFrameSize := by
    decide
  refine ⟨hrequest _ hsmall (unmarshal_request (by decide) (by decide)),
    hresponse _ (hfits _ hsmall) (unmarshal_response (by decide)), hlarge _ ?_⟩
  have hbody := length_body_lt ⟨.putShard, lit "ab", List.replicate maxFrameSize 0⟩
  rwa [List.length_replicate] at hbody

end FnShare
