import FnShare.File.Put

/-!
# What an upload does

The executions of `Put`, whatever the node's environment answers. `Shipped`, `ShippedAll`,
`StripeUploaded` and `StripesUploaded` follow the nesting of the code: the operations that ship a
shard, a stripe's shards, a stripe, and the stripes one after the other, with the outcomes. Every
delivery of a shard is one operation, to the holder of its slot; it succeeds, or the shard is in the
spool, or `Put` fails.

`wp_put` says what holds wherever `Put` stores a manifest, sends one or returns one (`Uploaded`): the
stripes are those of the whole body, and the body's end is one of the two that `Put` takes for the end
of the file.
-/

namespace FnShare

open Prog

/-! ## The turns of the loop -/

section Loop

variable {L : Libs} {svc : Service} {key : Bytes} {holders : List Bytes} {body : Body} {idx : ℕ}
  {sts : List Stripe} {total : ℤ}

variable (L key holders idx sts total) in
/-- A turn with a full stripe. -/
theorem putLoop_of_le (h : svc.stripeSize ≤ body.data.length) :
    ∃ body' : Body, body'.data = body.data.drop svc.stripeSize ∧ body'.term = body.term ∧
      putLoop L svc key holders body idx sts total =
        (do
          let stripe ← mapErr (.wrap (lit "stripe " ++ fmtNat idx ++ lit ": "))
            (uploadStripe L svc key holders idx (body.data.take svc.stripeSize))
          putLoop L svc key holders body' (idx + 1) (sts ++ [stripe])
            (total + (body.data.take svc.stripeSize).length)) := by
  obtain ⟨body', hread, hdata, hterm⟩ := readFull_of_le h
  refine ⟨body', hdata, hterm, ?_⟩
  have hpos := svc.stripeSize_pos
  have hne : ¬ ((body.data.take svc.stripeSize).length = 0 ∧ endOfFile none = true) := by
    simp [endOfFile]
  rw [putLoop]
  simp only [hread, if_neg hne]
  congr 1
  funext stripe
  rw [if_neg (by simp [endOfFile])]
  split
  · rename_i e he
    rw [hread] at he
    exact absurd he.symm (Option.some_ne_none e)
  · rfl

/-- The last turn. -/
theorem putLoop_of_lt (h : body.data.length < svc.stripeSize) :
    putLoop L svc key holders body idx sts total =
      if body.data = [] ∧ endOfFile (some body.term) then ret (sts, total)
      else (do
        let stripe ← mapErr (.wrap (lit "stripe " ++ fmtNat idx ++ lit ": "))
          (uploadStripe L svc key holders idx body.data)
        if endOfFile (some body.term) then ret (sts ++ [stripe], total + body.data.length)
        else fail (.wrap (lit "read body: ") body.term)) := by
  obtain ⟨body', hread, -, -⟩ := readFull_of_lt h
  -- `ReadFull` turns an `io.EOF` after some bytes into the other end of file.
  have hend : endOfFile (some (if 0 < body.data.length ∧ body.term = .eof then .unexpectedEOF
      else body.term)) = endOfFile (some body.term) := by
    split_ifs with hc
    · simp [endOfFile, hc.2]
    · rfl
  rw [putLoop]
  simp only [hread, hend, List.length_eq_zero_iff]
  by_cases hempty : body.data = [] ∧ endOfFile (some body.term) = true
  · rw [if_pos hempty, if_pos hempty]
  · rw [if_neg hempty, if_neg hempty]
    congr 1
    funext stripe
    by_cases hends : endOfFile (some body.term) = true
    · rw [if_pos hends, if_pos hends]
    · rw [if_neg hends, if_neg hends]
      have hne : body.term ≠ .eof := by
        rintro he
        simp [he, endOfFile] at hends
      split
      · rename_i e he
        rw [hread, if_neg fun hc => hne hc.2] at he
        rw [Option.some.inj he]
      · rename_i he
        rw [hread] at he
        exact absurd he (Option.some_ne_none _)

end Loop

/-! ## The operations of an upload -/

section Trace

variable (L : Libs) (svc : Service)

/-- The operations that ship a shard to a holder, and whether the holder has it after them. -/
inductive Shipped (h sh : Bytes) : Bool → List NodeEvent → Prop
  | here (hself : h = svc.self) : Shipped h sh true [⟨.blockPut (hashOf sh) sh, .ok ()⟩]
  | remote {pid : Bytes} {resp : Response} (hself : h ≠ svc.self)
      (hpid : L.peerDecode h = .ok pid) (hresp : resp.ok = true) :
      Shipped h sh true [⟨.request pid ⟨.putShard, hashOf sh, sh⟩, .ok resp⟩,
        ⟨.record .storedOnThem pid sh.length, ()⟩]
  | spooled {pid : Bytes} {r : Except GoErr Response} (hself : h ≠ svc.self)
      (hpid : L.peerDecode h = .ok pid) (hr : acknowledged r = false) :
      Shipped h sh false [⟨.request pid ⟨.putShard, hashOf sh, sh⟩, r⟩,
        ⟨.spoolWrite h .shard (hashOf sh) sh, .ok ()⟩]

/-- The operations that ship shards to the holders of their slots. -/
inductive ShippedAll : List Bytes → List Bytes → List Bool → List NodeEvent → Prop
  | nil (hs : List Bytes) : ShippedAll hs [] [] []
  | cons {h sh : Bytes} {ok : Bool} {hs shs : List Bytes} {oks : List Bool}
      {evs evs' : List NodeEvent} (hship : Shipped L svc h sh ok evs)
      (hrest : ShippedAll hs shs oks evs') :
      ShippedAll (h :: hs) (sh :: shs) (ok :: oks) (evs ++ evs')

/-- The operations that upload a stripe. -/
inductive StripeUploaded (key : Bytes) (holders : List Bytes) (idx : ℕ) (chunk : Bytes) :
    Stripe → List Bool → List NodeEvent → Prop
  | mk {nonce : { b : Bytes // b.length = gcmNonceSize }} {shards : List Bytes} {oks : List Bool}
      {evs : List NodeEvent}
      (hencode : svc.params.encode L (sealedAES L key nonce.1 chunk) = .ok shards)
      (hship : ShippedAll L svc holders shards oks evs) :
      StripeUploaded key holders idx chunk
        { index := idx, shardIDs := shards.map hashOf, plaintextBytes := chunk.length,
          ciphertextBytes := (sealedAES L key nonce.1 chunk).length }
        oks (⟨.rand gcmNonceSize, .ok nonce⟩ :: evs)

/-- The operations that upload data, from the stripe of an index on. -/
inductive StripesUploaded (key : Bytes) (holders : List Bytes) :
    ℕ → Bytes → List Stripe → List (List Bool) → List NodeEvent → Prop
  | nil (idx : ℕ) : StripesUploaded key holders idx [] [] [] []
  | cons {idx : ℕ} {data : Bytes} {st : Stripe} {sts : List Stripe} {oks : List Bool}
      {okss : List (List Bool)} {evs evs' : List NodeEvent} (hdata : data ≠ [])
      (hstripe : StripeUploaded L svc key holders idx (data.take svc.stripeSize) st oks evs)
      (hrest : StripesUploaded key holders (idx + 1) (data.drop svc.stripeSize) sts okss evs') :
      StripesUploaded key holders idx data (st :: sts) (oks :: okss) (evs ++ evs')

/-- The group that an upload goes to is what its first operation read. -/
def GroupRead (gid : Bytes) (evs : List NodeEvent) (g : Group) : Prop :=
  (gid ≠ [] ∧ ∃ raw, evs.head? = some ⟨.storeGet (groupKey gid), .ok raw⟩ ∧
    L.cbor.group.unmarshal raw = .ok g) ∨
  (gid = [] ∧ ∃ pairs, evs.head? = some ⟨.storeIterate (lit "group/"), (pairs, none)⟩ ∧
    decodeValues L.cbor.group pairs = [g])

/-- A peer is in an entry of the members. -/
def Listed (peer : Bytes) : Prop := ∃ raw mem, L.cbor.member.unmarshal raw = .ok mem ∧ mem.peerID = peer

/-- What `wrapForMode` makes of a key and a name. -/
def Wrapped (mode key filename : Bytes) (g : Group) (r : Bytes × Bytes × Bool) : Prop :=
  (mode = modeShared ∧ g.sharedKey.length = fileKeySize ∧ ∃ nonce : Bytes,
    nonce.length = gcmNonceSize ∧ r = (sealedAES L g.sharedKey nonce key, filename, false)) ∨
  (mode = modePrivate ∧ svc.encPub.length = encPubSize ∧ ∃ ephemeral nonce : Bytes,
    nonce.length = gcmNonceSize ∧
    r = (L.box.boxSeal key svc.encPub ephemeral, Base64.encode (sealedAES L key nonce filename),
      true))

/-- Whether an event is the delivery of a shard. -/
def isDelivery (e : NodeEvent) : Bool :=
  match e.op with
  | .blockPut _ _ => true
  | .request _ req => req.op = .putShard
  | _ => false

/-- The choices that an upload has made. -/
structure Upload where
  group : Group
  key : Bytes
  /-- For each stripe and slot, whether the holder has the shard. -/
  outcomes : List (List Bool)
  /-- The operations before the first stripe. -/
  before : List NodeEvent
  /-- The operations of the stripes. -/
  during : List NodeEvent
  /-- The operations since. -/
  after : List NodeEvent

/-- An upload has come to the manifest `m`. -/
structure Upload.Made (u : Upload) (filename : Bytes) (body : Body) (opts : PutOptions)
    (m : Manifest) : Prop where
  group_read : GroupRead L opts.groupID u.before u.group
  group_eq : m.groupID = u.group.id
  fileID_eq : ∃ fid : Bytes, fid.length = 16 ∧ m.fileID = hexEncode fid
  length_key : u.key.length = fileKeySize
  /-- The key is in the manifest, wrapped. -/
  wrapped : Wrapped L svc m.mode u.key filename u.group (m.wrappedKey, m.filename,
    m.filenameEncrypted)
  dataShards_eq : m.dataShards = svc.params.dataShards
  parityShards_eq : m.parityShards = svc.params.parityShards
  stripeDataSize_eq : m.stripeDataSize = svc.stripeSize
  owner_eq : m.ownerPeerID = svc.self
  length_holders : (m.holders.length : ℤ) = svc.params.total
  /-- The stripes are those of the whole body. -/
  stripes : StripesUploaded L svc u.key m.holders 0 body.data m.stripes u.outcomes u.during
  size_eq : m.size = body.data.length
  data_ne_nil : body.data ≠ []
  /-- The body has ended. -/
  ended : endOfFile (some body.term) = true
  /-- No shards are delivered outside the stripes. -/
  before_deliveries : u.before.filter isDelivery = []
  after_deliveries : u.after.filter isDelivery = []

/-- The operations `evs` have made the manifest `m`. -/
def Uploaded (filename : Bytes) (body : Body) (opts : PutOptions) (evs : List NodeEvent)
    (m : Manifest) : Prop :=
  ∃ u : Upload, evs = u.before ++ u.during ++ u.after ∧ u.Made L svc filename body opts m

/-- The operations of `Put` up to where the manifest is complete. -/
def uploadOp : NodeOp → Prop
  | .now | .rand _ | .storeGet _ | .storeIterate _ | .blockPut _ _ | .record _ _ _ => True
  | .request _ req => req.op = .putShard
  | .spoolWrite _ .shard id data => id = hashOf data
  | _ => False

/-- What `Put` may do besides, given what it has done: store and send the manifest, and panic on a
group id that is too short for the log. -/
def publishOp (filename : Bytes) (body : Body) (opts : PutOptions) (evs : List NodeEvent) :
    NodeOp → Prop
  | .storePut key raw =>
    (∃ m, Uploaded L svc filename body opts evs m ∧ key = manifestKey m.fileID ∧
      raw = L.cbor.manifest.marshal m) ∨ ∃ fileID, key = pnameKey fileID
  | .request _ req => req.op = .putManifest ∧ ∃ m, Uploaded L svc filename body opts evs m ∧
      req.id = m.fileID ∧ req.body = L.cbor.manifest.marshal m
  | .spoolWrite _ .manifest id raw => ∃ m, Uploaded L svc filename body opts evs m ∧
      id = m.fileID ∧ raw = L.cbor.manifest.marshal m
  | .record _ _ _ => True
  | .panic => ∃ g, GroupRead L opts.groupID evs g ∧ g.id.length < 12
  | _ => False

/-- What `Put` may do, given what it has done. -/
def putGuard (filename : Bytes) (body : Body) (opts : PutOptions) (evs : List NodeEvent)
    (o : NodeOp) : Prop :=
  uploadOp o ∨ publishOp L svc filename body opts evs o

end Trace

/-! ## The executions -/

section Rules

variable {L : Libs} {svc : Service} {W : Type} {E : Env NodeSig W}
  {guard : W → List NodeEvent → NodeOp → Prop} {v : W} {l : List NodeEvent}
variable {holders : List Bytes}

/-- Random bytes. -/
theorem wp_randRead {n : ℕ} (hg : guard v l (.rand n)) :
    wp (E.traced guard) (randRead n) (onOk fun b w => w.2 = l ++ [⟨.rand n, .ok b⟩]) (v, l) := by
  refine wp_traced_op.mpr ⟨hg, ?_⟩
  rintro (e | b) v' -
  · trivial
  · exact rfl

/-- `SealAES` draws a nonce. -/
theorem wp_sealAES {key : Bytes} (hg : guard v l (.rand gcmNonceSize)) (plaintext : Bytes) :
    wp (E.traced guard) (sealAES L key plaintext)
      (onOk fun ct w => ∃ nonce : { b : Bytes // b.length = gcmNonceSize },
        ct = sealedAES L key nonce.1 plaintext ∧ w.2 = l ++ [⟨.rand gcmNonceSize, .ok nonce⟩])
      (v, l) := by
  unfold sealAES
  by_cases hlen : key.length ≠ fileKeySize
  · rw [if_pos hlen]
    trivial
  · rw [if_neg hlen]
    refine wp_bind_onOk (wp_randRead hg) ?_
    rintro nonce w hw
    exact ⟨nonce, rfl, hw⟩

/-- A request to a peer, and the response that counts. -/
theorem wp_request {peer : Bytes} {req : Request} (hg : guard v l (.request peer req)) :
    wp (E.traced guard) (request peer req)
      (fun r w => ∃ a, w.2 = l ++ [⟨.request peer req, a⟩] ∧
        ((∃ resp, r = .ok resp ∧ a = .ok resp ∧ resp.ok = true) ∨
          ((∃ e, r = .error e) ∧ acknowledged a = false))) (v, l) := by
  refine wp_request_of hg ?_ ?_
  · rintro resp w' ⟨-, hl⟩ hok
    exact ⟨.ok resp, hl, .inl ⟨resp, rfl, rfl, hok⟩⟩
  · rintro a w' ⟨-, hl⟩ hno e
    exact ⟨a, hl, .inr ⟨⟨e, rfl⟩, hno⟩⟩

/-- A shard sent to a peer. -/
theorem wp_putShardOnPeer {peer id data : Bytes} (hg : ∀ v l o, uploadOp o → guard v l o) :
    wp (E.traced guard) (putShardOnPeer peer id data)
      (fun r w => (r = .ok () ∧ ∃ resp : Response, resp.ok = true ∧
          w.2 = l ++ [⟨.request peer ⟨.putShard, id, data⟩, .ok resp⟩,
            ⟨.record .storedOnThem peer data.length, ()⟩]) ∨
        ((∃ e, r = .error e) ∧ ∃ a, acknowledged a = false ∧
          w.2 = l ++ [⟨.request peer ⟨.putShard, id, data⟩, a⟩])) (v, l) := by
  refine wp_bind_of (wp_request (hg _ _ _ rfl)) ?_ ?_
  · rintro resp ⟨v', l'⟩ ⟨a, hl, ⟨resp', hr, rfl, hok⟩ | ⟨⟨e, hr⟩, -⟩⟩
    · obtain rfl := Except.ok.inj hr
      obtain rfl : l' = _ := hl
      refine wp_traced_op.mpr ⟨hg _ _ _ trivial, ?_⟩
      rintro ⟨⟩ v'' -
      exact .inl ⟨rfl, resp, hok, by simp⟩
    · exact absurd hr (by simp)
  · rintro e ⟨v', l'⟩ ⟨a, hl, ⟨resp', hr, -⟩ | ⟨-, ha⟩⟩
    · exact absurd hr (by simp)
    · exact .inr ⟨⟨e, rfl⟩, a, ha, hl⟩

/-- One shard is delivered or spooled. -/
theorem wp_shipShard (hg : ∀ v l o, uploadOp o → guard v l o) {i : ℕ}
    {h : Bytes} (hh : holders[i]? = some h) (sh : Bytes) :
    wp (E.traced guard) (shipShard L svc holders i sh)
      (onOk fun id w => id = hashOf sh ∧ ∃ ok evs, w.2 = l ++ evs ∧ Shipped L svc h sh ok evs)
      (v, l) := by
  unfold shipShard
  rw [hh, orPanic_some, ret_bind]
  by_cases hself : h = svc.self
  · rw [if_pos hself]
    refine wp_traced_op.mpr ⟨hg _ _ _ trivial, ?_⟩
    rintro (e | ⟨⟩) v' -
    · trivial
    · exact ⟨rfl, true, _, rfl, .here hself⟩
  · rw [if_neg hself]
    cases hpid : L.peerDecode h with
    | error e => trivial
    | ok pid =>
      simp only
      rw [wp_bind, wp_attempt]
      refine wp_mono (wp_putShardOnPeer hg) ?_
      rintro r ⟨v', l'⟩ (⟨rfl, resp, hok, hl⟩ | ⟨⟨e, rfl⟩, a, ha, hl⟩)
      · exact ⟨rfl, true, _, hl, .remote hself hpid hok⟩
      · obtain rfl : l' = _ := hl
        simp only [andThen_ok]
        by_cases hspool : svc.spool = true
        · rw [if_pos hspool]
          refine wp_traced_op.mpr ⟨hg _ _ _ rfl, ?_⟩
          rintro (e' | ⟨⟩) v'' -
          · trivial
          · -- The slice in the log line is of a hash.
            have hlen : 12 ≤ (hashOf sh).length := by
              rw [length_hashOf]
              omega
            simp only [ret_bind, slice12_of_le hlen]
            exact ⟨rfl, false, _, by simp, .spooled hself hpid ha⟩
        · rw [if_neg hspool]
          trivial

/-- The shards of a stripe are delivered or spooled, each at the holder of its slot. -/
theorem wp_shipShards (hg : ∀ v l o, uploadOp o → guard v l o)
    (shards : List Bytes) (i : ℕ) (hlen : i + shards.length ≤ holders.length) (v : W)
    (l : List NodeEvent) :
    wp (E.traced guard) (shipShards L svc holders i shards)
      (onOk fun ids w => ids = shards.map hashOf ∧ ∃ oks evs, w.2 = l ++ evs ∧
        ShippedAll L svc (holders.drop i) shards oks evs) (v, l) := by
  induction shards generalizing i v l with
  | nil => exact ⟨rfl, [], [], by simp, .nil _⟩
  | cons sh shs ih =>
    have hi : i < holders.length := by
      rw [List.length_cons] at hlen
      omega
    have hdrop : holders.drop i = holders[i] :: holders.drop (i + 1) := List.drop_eq_getElem_cons hi
    unfold shipShards
    refine wp_bind_onOk (wp_shipShard hg (List.getElem?_eq_getElem hi) sh) ?_
    rintro id ⟨v', l'⟩ ⟨rfl, ok, evs, hl, hship⟩
    obtain rfl : l' = _ := hl
    refine wp_bind_onOk (ih (i + 1) (by rw [List.length_cons] at hlen; omega) v' _) ?_
    rintro ids ⟨v'', l''⟩ ⟨rfl, oks, evs', hl, hrest⟩
    refine ⟨rfl, ok :: oks, evs ++ evs', ?_, ?_⟩
    · rw [show l'' = _ from hl, List.append_assoc]
    · rw [hdrop]
      exact .cons hship hrest

/-- A stripe is uploaded. -/
theorem wp_uploadStripe (hR : L.rs.Mds) (hA : L.aead.Correct) (hg : ∀ v l o, uploadOp o → guard v l o)
    (hlen : 0 < svc.params.total → (holders.length : ℤ) = svc.params.total) (key : Bytes) (idx : ℕ)
    (chunk : Bytes) :
    wp (E.traced guard) (uploadStripe L svc key holders idx chunk)
      (onOk fun st w => ∃ oks evs, w.2 = l ++ evs ∧
        StripeUploaded L svc key holders idx chunk st oks evs) (v, l) := by
  refine wp_bind_onOk (wp_mapErr_onOk (wp_sealAES (hg _ _ _ trivial) chunk)) ?_
  rintro ct ⟨v', l'⟩ ⟨nonce, rfl, hl⟩
  obtain rfl : l' = _ := hl
  cases hencode : svc.params.encode L (sealedAES L key nonce.1 chunk) with
  | error e => trivial
  | ok shards =>
    have hne : sealedAES L key nonce.1 chunk ≠ [] := sealedAES_ne_nil hA nonce.2 _
    obtain ⟨hk, hm, -, hcode⟩ := Params.encodes_of_encode hR hne hencode
    have hshards : 0 + shards.length ≤ holders.length := by
      have := hlen (by unfold Params.total; omega)
      have := hcode.length_eq
      unfold Params.total at *
      omega
    simp only [Except.mapError, ofExcept_ok, ret_bind]
    refine wp_bind_onOk (wp_shipShards hg shards 0 hshards v' _) ?_
    rintro ids ⟨v'', l''⟩ ⟨rfl, oks, evs, hl, hship⟩
    refine ⟨oks, _, ?_, .mk hencode hship⟩
    rw [show l'' = _ from hl, List.append_assoc]
    rfl

/-- The stripes of the body are uploaded, and the body has ended. -/
theorem wp_putLoop (hR : L.rs.Mds) (hA : L.aead.Correct) (hg : ∀ v l o, uploadOp o → guard v l o)
    (hlen : 0 < svc.params.total → (holders.length : ℤ) = svc.params.total) (key : Bytes) (body : Body)
    (idx : ℕ) (sts : List Stripe) (total : ℤ) (v : W) (l : List NodeEvent) :
    wp (E.traced guard) (putLoop L svc key holders body idx sts total)
      (onOk fun r w => endOfFile (some body.term) = true ∧ ∃ new okss evs,
        r = (sts ++ new, total + body.data.length) ∧ w.2 = l ++ evs ∧
        StripesUploaded L svc key holders idx body.data new okss evs) (v, l) := by
  -- The induction is on the length of what is still to be read.
  induction hn : body.data.length using Nat.strongRecOn generalizing body idx sts total v l with
  | ind n ih =>
    have hpos := svc.stripeSize_pos
    by_cases hle : svc.stripeSize ≤ body.data.length
    · obtain ⟨body', hdata, hterm, hturn⟩ := putLoop_of_le L key holders idx sts total hle
      rw [hturn]
      refine wp_bind_onOk (wp_mapErr_onOk (wp_uploadStripe hR hA hg hlen key idx _)) ?_
      rintro st ⟨v', l'⟩ ⟨oks, evs, hl, hstripe⟩
      obtain rfl : l' = _ := hl
      have hlt : body'.data.length < n := by
        rw [hdata, List.length_drop]
        omega
      refine wp_mono (ih _ hlt body' (idx + 1) _ _ v' _ rfl) ?_
      rintro (e | r) ⟨v'', l''⟩ hrest
      · trivial
      · obtain ⟨hend, new, okss, evs', rfl, hl, hrest⟩ := hrest
        rw [hterm] at hend
        rw [hdata] at hrest
        have hne : body.data ≠ [] := by
          rw [← List.length_pos_iff]
          omega
        refine ⟨hend, st :: new, oks :: okss, evs ++ evs', ?_, ?_, .cons hne hstripe hrest⟩
        · have hsplit : (body.data.take svc.stripeSize).length + body'.data.length = n := by
            rw [hdata, List.length_take, List.length_drop]
            omega
          rw [Prod.mk.injEq]
          exact ⟨by simp, by omega⟩
        · rw [show l'' = _ from hl, List.append_assoc]
    · have hlt : body.data.length < svc.stripeSize := by omega
      rw [putLoop_of_lt hlt]
      by_cases hempty : body.data = [] ∧ endOfFile (some body.term) = true
      · rw [if_pos hempty]
        refine ⟨hempty.2, [], [], [], ?_, by simp, ?_⟩
        · have : n = 0 := by rw [← hn, hempty.1]; rfl
          simp [this]
        · rw [hempty.1]
          exact .nil idx
      · rw [if_neg hempty]
        refine wp_bind_onOk (wp_mapErr_onOk (wp_uploadStripe hR hA hg hlen key idx _)) ?_
        rintro st ⟨v', l'⟩ ⟨oks, evs, hl, hstripe⟩
        by_cases hend : endOfFile (some body.term) = true
        · rw [if_pos hend]
          have hne : body.data ≠ [] := fun he => hempty ⟨he, hend⟩
          have htake : body.data.take svc.stripeSize = body.data :=
            List.take_of_length_le hlt.le
          have hdrop : body.data.drop svc.stripeSize = [] := List.drop_of_length_le hlt.le
          refine ⟨hend, [st], [oks], evs ++ [], by simp [hn], ?_, .cons hne ?_ ?_⟩
          · rw [show l' = _ from hl, List.append_nil]
          · rw [htake]
            exact hstripe
          · rw [hdrop]
            exact .nil _
        · rw [if_neg hend]
          trivial

/-- The group that an upload goes to is read first. -/
theorem wp_resolveGroup (hg : ∀ v l o, uploadOp o → guard v l o) (gid : Bytes) :
    wp (E.traced guard) (resolveGroup L gid)
      (onOk fun g w => GroupRead L gid w.2 g ∧ w.2.filter isDelivery = []) (v, []) := by
  unfold resolveGroup
  by_cases hgid : gid ≠ []
  · rw [if_pos hgid]
    unfold loadByID storeGet
    rw [wp_bind, wp_attempt, wp_bind]
    refine wp_traced_op.mpr ⟨hg _ _ _ trivial, ?_⟩
    rintro (e | raw) v' -
    · simp only [wp_ret, andThen_ok, wp_ofExcept]
      split_ifs <;> trivial
    · simp only [wp_ret, andThen_ok, wp_ofExcept]
      cases hdec : L.cbor.group.unmarshal raw with
      | error e => trivial
      | ok g => exact ⟨.inl ⟨hgid, raw, rfl, hdec⟩, rfl⟩
  · rw [if_neg hgid]
    unfold listGroups
    rw [wp_bind, wp_bind]
    refine wp_traced_op.mpr ⟨hg _ _ _ trivial, ?_⟩
    rintro ⟨pairs, err⟩ v' -
    simp only [wp_ret, andThen_ok, pure_eq]
    split
    · trivial
    · trivial
    · rename_i g hpairs
      obtain ⟨hdec, rfl⟩ := Prod.mk.inj hpairs
      exact ⟨.inr ⟨not_not.mp hgid, pairs, rfl, hdec⟩, rfl⟩
    · trivial

/-- The members of the group are read. -/
theorem wp_groupMemberIDs (hg : ∀ v l o, uploadOp o → guard v l o) (gid : Bytes) :
    wp (E.traced guard) (groupMemberIDs L gid)
      (onOk fun ids w => (∃ r, w.2 = l ++ [⟨.storeIterate (memberPrefix gid), r⟩]) ∧
        ∀ id ∈ ids, Listed L id) (v, l) := by
  unfold groupMemberIDs listMembers
  rw [wp_bind, wp_bind]
  refine wp_traced_op.mpr ⟨hg _ _ _ trivial, ?_⟩
  rintro ⟨pairs, err⟩ v' -
  simp only [wp_ret, andThen_ok, pure_eq]
  cases err with
  | some e => trivial
  | none =>
    refine ⟨⟨_, rfl⟩, ?_⟩
    intro id hid
    rw [sortStrings, List.mem_insertionSort] at hid
    obtain ⟨mem, hmem, rfl⟩ := List.mem_map.mp hid
    obtain ⟨p, -, hdec⟩ := mem_decodeValues.mp hmem
    exact ⟨p.2, mem, hdec, rfl⟩

/-- The key of the file is wrapped. -/
theorem wp_wrapForMode (hg : ∀ v l o, uploadOp o → guard v l o) (mode key filename : Bytes)
    (g : Group) :
    wp (E.traced guard) (wrapForMode L svc mode key filename g)
      (onOk fun r w => Wrapped L svc mode key filename g r ∧ ∃ evs, w.2 = l ++ evs ∧
        evs.filter isDelivery = []) (v, l) := by
  unfold wrapForMode
  by_cases hshared : mode = modeShared
  · rw [if_pos hshared]
    by_cases hlen : g.sharedKey.length ≠ fileKeySize
    · rw [if_pos hlen]
      trivial
    · rw [if_neg hlen]
      refine wp_bind_onOk (wp_sealAES (hg _ _ _ trivial) key) ?_
      rintro ct w ⟨nonce, rfl, hl⟩
      exact ⟨.inl ⟨hshared, not_not.mp hlen, nonce.1, nonce.2, rfl⟩, _, hl, rfl⟩
  · rw [if_neg hshared]
    by_cases hprivate : mode = modePrivate
    · rw [if_pos hprivate]
      by_cases hlen : svc.encPub.length ≠ encPubSize
      · rw [if_pos hlen]
        trivial
      · rw [if_neg hlen]
        unfold sealAnonymous
        rw [if_neg hlen, bind_assoc]
        refine wp_bind_onOk (wp_randRead (hg _ _ _ trivial)) ?_
        rintro ephemeral ⟨v', l'⟩ hl
        obtain rfl : l' = _ := hl
        simp only [pure_eq, ret_bind]
        refine wp_bind_onOk (wp_sealAES (hg _ _ _ trivial) filename) ?_
        rintro ct w ⟨nonce, rfl, hl⟩
        refine ⟨.inr ⟨hprivate, not_not.mp hlen, _, nonce.1, nonce.2, rfl⟩,
          [⟨.rand 32, .ok ephemeral⟩, ⟨.rand gcmNonceSize, .ok nonce⟩], ?_, rfl⟩
        rw [hl, List.append_assoc]
        rfl
    · rw [if_neg hprivate]
      trivial

end Rules

/-! ## The manifest -/

section Publish

variable {L : Libs} {svc : Service} {filename : Bytes} {body : Body} {opts : PutOptions}
  {m : Manifest} {evs : List NodeEvent}

/-- The group read stays the first thing done. -/
theorem GroupRead.append {gid : Bytes} {g : Group} (h : GroupRead L gid evs g)
    (evs' : List NodeEvent) : GroupRead L gid (evs ++ evs') g := by
  rcases h with ⟨hgid, raw, hhead, hdec⟩ | ⟨hgid, pairs, hhead, hdec⟩
  · exact .inl ⟨hgid, raw, by simp [List.head?_append, hhead], hdec⟩
  · exact .inr ⟨hgid, pairs, by simp [List.head?_append, hhead], hdec⟩

/-- A complete upload stays one, whatever is done besides delivering shards. -/
theorem Uploaded.append (h : Uploaded L svc filename body opts evs m) {evs' : List NodeEvent}
    (hquiet : evs'.filter isDelivery = []) :
    Uploaded L svc filename body opts (evs ++ evs') m := by
  obtain ⟨u, rfl, hu⟩ := h
  refine ⟨{ u with after := u.after ++ evs' }, by simp, { hu with after_deliveries := ?_ }⟩
  change (u.after ++ evs').filter isDelivery = []
  rw [List.filter_append, hu.after_deliveries, hquiet, List.append_nil]

/-- The file's id is long enough for the log. -/
theorem Uploaded.slice_fileID (h : Uploaded L svc filename body opts evs m) :
    slice12 m.fileID = ret () := by
  obtain ⟨u, -, hu⟩ := h
  obtain ⟨fid, hfid, heq⟩ := hu.fileID_eq
  refine slice12_of_le ?_
  rw [heq, length_hexEncode, hfid]
  omega

variable {W : Type} {E : Env NodeSig W} {v : W} {l : List NodeEvent}

/-- The manifest goes to one holder, or to the spool, or nowhere. -/
theorem wp_replicateManifest (h : Uploaded L svc filename body opts l m) (holder : Bytes) :
    wp (E.traced fun _ => putGuard L svc filename body opts)
      (replicateManifest L svc m.fileID (L.cbor.manifest.marshal m) holder)
      (onOk fun _ w => Uploaded L svc filename body opts w.2 m) (v, l) := by
  unfold replicateManifest
  by_cases hself : holder = svc.self
  · rw [if_pos hself]
    exact h
  · rw [if_neg hself]
    cases hpid : L.peerDecode holder with
    | error e => exact h
    | ok pid =>
      simp only
      rw [wp_bind, wp_attempt]
      unfold putManifestRawOnPeer
      rw [wp_bind]
      refine wp_mono (wp_request (.inr ⟨rfl, m, h, rfl, rfl⟩)) ?_
      rintro r ⟨v', l'⟩ ⟨a, hl, hr⟩
      obtain rfl : l' = _ := hl
      have h' : Uploaded L svc filename body opts (l ++ [⟨.request pid ⟨.putManifest, m.fileID,
          L.cbor.manifest.marshal m⟩, a⟩]) m := h.append rfl
      rcases hr with ⟨resp, rfl, -⟩ | ⟨⟨e, rfl⟩, -⟩
      · exact h'
      · simp only [andThen_error, andThen_ok]
        by_cases hspool : svc.spool = true
        · rw [if_pos hspool]
          refine wp_traced_op.mpr ⟨.inr ⟨m, h', rfl, rfl⟩, ?_⟩
          rintro (e' | ⟨⟩) v'' -
          · exact h'.append rfl
          · simp only [bind_eq, ret_bind, h'.slice_fileID]
            exact h'.append rfl
        · rw [if_neg hspool]
          exact h'

/-- The name of a private file is kept locally. -/
theorem wp_keepName (h : Uploaded L svc filename body opts l m) :
    wp (E.traced fun _ => putGuard L svc filename body opts) (keepName L m filename)
      (onOk fun _ w => Uploaded L svc filename body opts w.2 m) (v, l) := by
  unfold keepName
  by_cases hmode : m.mode = modePrivate
  · rw [if_pos hmode, wp_bind, wp_attempt]
    unfold savePrivateName
    by_cases hname : filename = []
    · rw [if_pos hname]
      exact h
    · rw [if_neg hname]
      refine wp_traced_op.mpr ⟨.inr (.inr ⟨_, rfl⟩), ?_⟩
      rintro (e | ⟨⟩) v' -
      · simp only [bind_eq, ret_bind, ofExcept_error, wp_fail, andThen_ok, h.slice_fileID]
        exact h.append rfl
      · exact h.append rfl
  · rw [if_neg hmode]
    exact h

/-- The manifest is stored and sent. -/
theorem wp_publish (h : Uploaded L svc filename body opts l m) :
    wp (E.traced fun _ => putGuard L svc filename body opts) (publish L svc m filename)
      (onOk fun _ w => Uploaded L svc filename body opts w.2 m) (v, l) := by
  unfold publish
  refine wp_bind_onOk (P := fun _ w => Uploaded L svc filename body opts (Prod.snd w) m) ?_ ?_
  · refine wp_mapErr_onOk ?_
    refine wp_traced_op.mpr ⟨.inr (.inl ⟨m, h, rfl, rfl⟩), ?_⟩
    rintro (e | ⟨⟩) v' -
    · trivial
    · exact h.append rfl
  rintro ⟨⟩ ⟨v', l'⟩ h'
  refine wp_bind_onOk (wp_keepName h') ?_
  rintro ⟨⟩ ⟨v', l'⟩ h'
  refine wp_bind_onOk (P := fun _ w => Uploaded L svc filename body opts (Prod.snd w) m) ?_ ?_
  · refine wp_foldlM (fun _ _ (w : W × List NodeEvent) => Uploaded L svc filename body opts w.2 m)
      (fun _ _ h => h) ?_ m.holders () (v', l') h'
    rintro holder hs ⟨⟩ ⟨v'', l''⟩ h''
    refine wp_mono (wp_replicateManifest h'' holder) ?_
    rintro (e | ⟨⟩) w hw
    · trivial
    · exact hw
  rintro ⟨⟩ ⟨v', l'⟩ h'
  rw [h'.slice_fileID, ret_bind]
  -- The group's id is sliced as it is.
  by_cases hlen : 12 ≤ m.groupID.length
  · rw [slice12_of_le hlen]
    exact h'
  · unfold slice12
    rw [if_neg hlen]
    obtain ⟨u, rfl, hu⟩ := h'
    refine ⟨.inr ⟨u.group, ?_, ?_⟩, fun r => r.elim⟩
    · rw [List.append_assoc]
      exact hu.group_read.append _
    · rw [← hu.group_eq]
      omega

/-- An upload of data has valid parameters. -/
theorem StripesUploaded.params_pos (hR : L.rs.Mds) (hA : L.aead.Correct) {key data : Bytes}
    {holders : List Bytes} {idx : ℕ} {sts : List Stripe} {okss : List (List Bool)}
    (h : StripesUploaded L svc key holders idx data sts okss evs) (hdata : data ≠ []) :
    0 < svc.params.dataShards ∧ 0 < svc.params.parityShards := by
  cases h with
  | nil => exact absurd rfl hdata
  | cons _ hstripe _ =>
    cases hstripe with
    | @mk nonce _ _ _ hencode _ =>
      have hne : sealedAES L key nonce.1 (data.take svc.stripeSize) ≠ [] := sealedAES_ne_nil hA nonce.2 _
      obtain ⟨hk, hm, -⟩ := Params.encodes_of_encode hR hne hencode
      exact ⟨hk, hm⟩

variable (L svc) in
/-- `Put` up to where the manifest is complete. -/
def assemble (filename : Bytes) (body : Body) (opts : PutOptions) : NodeM Manifest := do
  let g ← resolveGroup L opts.groupID
  let mode := if opts.mode = [] then modeShared else opts.mode
  if mode ≠ modeShared ∧ mode ≠ modePrivate then fail (.msg (lit "unknown mode " ++ quote mode))
  else
    let fid ← randRead 16
    let fileID := hexEncode fid.1
    let fileKey ← newFileKey
    let memberIDs ← groupMemberIDs L g.id
    if (memberIDs.length : ℤ) < svc.params.total then
      slice12 g.id
      fail (errTooFew g.id memberIDs.length svc.params)
    else
      let holderList := pick memberIDs fileID svc.params.total
      let (wrapped, displayName, fnEncrypted) ← wrapForMode L svc mode fileKey.1 filename g
      let t ← now
      let (stripes, total) ← putLoop L svc fileKey.1 holderList body 0 [] 0
      if total = 0 then fail (.msg (lit "file is empty"))
      else
        return { fileID := fileID, groupID := g.id, filename := displayName, size := total,
                 dataShards := svc.params.dataShards, parityShards := svc.params.parityShards,
                 stripeDataSize := svc.stripeSize, holders := holderList, stripes := stripes,
                 createdAt := t, ownerPeerID := svc.self, mode := mode, wrappedKey := wrapped,
                 filenameEncrypted := fnEncrypted }

variable (L svc) in
/-- `Put` publishes the manifest that it has assembled. -/
theorem put_eq (filename : Bytes) (body : Body) (opts : PutOptions) :
    put L svc filename body opts =
      (do
        let m ← assemble L svc filename body opts
        publish L svc m filename
        return m) := by
  unfold put assemble
  simp only [bind_assoc, ite_bind, fail_bind, ret_bind, pure_eq]

variable (svc) in
/-- Where the manifest is complete, it is that of the whole body, and its holders are listed as members. -/
theorem wp_assemble (hR : L.rs.Mds) (hA : L.aead.Correct) {guard : W → List NodeEvent → NodeOp → Prop}
    (hg : ∀ v l o, uploadOp o → guard v l o) (filename : Bytes) (body : Body) (opts : PutOptions)
    (hpanic : ∀ v l g, GroupRead L opts.groupID l g → g.id.length < 12 → guard v l .panic) (v : W) :
    wp (E.traced guard) (assemble L svc filename body opts)
      (onOk fun m w => Uploaded L svc filename body opts w.2 m ∧ ∀ h ∈ m.holders, Listed L h) (v, []) := by
  unfold assemble
  -- The group and the mode.
  refine wp_bind_onOk (wp_resolveGroup hg opts.groupID) ?_
  rintro g ⟨v₁, l₁⟩ ⟨hread, hquiet₁⟩
  generalize hmode : (if opts.mode = [] then modeShared else opts.mode) = mode
  simp only
  by_cases hbad : mode ≠ modeShared ∧ mode ≠ modePrivate
  · rw [if_pos hbad]
    trivial
  rw [if_neg hbad]
  -- The id of the file and its key are random.
  refine wp_bind_onOk (wp_randRead (hg v₁ _ _ trivial)) ?_
  rintro fid ⟨v₂, l₂⟩ hl₂
  obtain rfl : l₂ = _ := hl₂
  refine wp_bind_onOk (wp_randRead (hg v₂ _ _ trivial)) ?_
  rintro key ⟨v₃, l₃⟩ hl₃
  obtain rfl : l₃ = _ := hl₃
  refine wp_bind_onOk (wp_groupMemberIDs hg g.id) ?_
  rintro members ⟨v₄, l₄⟩ ⟨⟨r, hl₄⟩, hlisted⟩
  obtain rfl : l₄ = _ := hl₄
  by_cases hfew : (members.length : ℤ) < svc.params.total
  · -- The error names the group by the first bytes of its id.
    rw [if_pos hfew]
    by_cases hlen : 12 ≤ g.id.length
    · rw [slice12_of_le hlen]
      trivial
    · unfold slice12
      rw [if_neg hlen]
      refine ⟨hpanic _ _ g ?_ (by omega), fun r => r.elim⟩
      simp only [List.append_assoc]
      exact hread.append _
  rw [if_neg hfew]
  -- The holders are picked from the members.
  generalize hholders : pick members (hexEncode fid.1) svc.params.total = holders
  have hlen : 0 < svc.params.total → (holders.length : ℤ) = svc.params.total := by
    intro hpos
    rw [← hholders]
    exact length_pick hpos (not_lt.mp hfew) _
  refine wp_bind_onOk (wp_wrapForMode hg mode key.1 filename g) ?_
  rintro ⟨wrapped, displayName, fnEncrypted⟩ ⟨v₅, l₅⟩ ⟨hwrapped, evs₅, hl₅, hquiet₅⟩
  obtain rfl : l₅ = _ := hl₅
  refine wp_traced_op.mpr ⟨hg v₅ _ _ trivial, ?_⟩
  rintro t v₆ -
  simp only [bind_eq, ret_bind]
  -- When the loop returns it has read the whole body.
  refine wp_bind_onOk (wp_putLoop hR hA hg hlen key.1 body 0 [] 0 v₆ _) ?_
  rintro ⟨stripes, total⟩ ⟨v₇, l₇⟩ ⟨hend, new, okss, evs₇, hr, hl₇, hstripes⟩
  obtain ⟨rfl, rfl⟩ : stripes = new ∧ total = body.data.length := by simpa using hr
  obtain rfl : l₇ = _ := hl₇
  simp only
  by_cases hempty : (body.data.length : ℤ) = 0
  · rw [if_pos hempty]
    trivial
  rw [if_neg hempty]
  have hdata : body.data ≠ [] := by
    rw [← List.length_pos_iff]
    omega
  have hparams := hstripes.params_pos hR hA hdata
  refine ⟨⟨⟨g, key.1, okss, _, evs₇, []⟩, (List.append_nil _).symm, ?_⟩, ?_⟩
  · constructor <;> try rfl
    · simp only [List.append_assoc]
      exact hread.append _
    · exact ⟨fid.1, fid.2, rfl⟩
    · exact key.2
    · exact hwrapped
    · exact hlen (by unfold Params.total; omega)
    · exact hstripes
    · exact hdata
    · exact hend
    · simp only [List.filter_append, hquiet₁, hquiet₅]
      rfl
  · intro h hh
    rw [← hholders] at hh
    exact hlisted h (mem_of_mem_pick hh)

variable (svc) in
/-- Wherever `Put` stores, sends or returns a manifest, it is that of the whole body. -/
theorem wp_put (hR : L.rs.Mds) (hA : L.aead.Correct) (filename : Bytes) (body : Body)
    (opts : PutOptions) (v : W) :
    wp (E.traced fun _ => putGuard L svc filename body opts) (put L svc filename body opts)
      (onOk fun m w => Uploaded L svc filename body opts w.2 m) (v, []) := by
  rw [put_eq]
  refine wp_bind_onOk (wp_assemble svc hR hA (fun _ _ _ ho => .inl ho) filename body opts
    (fun _ _ g hread hlen => .inr ⟨g, hread, hlen⟩) v) ?_
  rintro m ⟨v', l⟩ ⟨hup, -⟩
  refine wp_bind_onOk (wp_publish hup) ?_
  rintro ⟨⟩ w hw
  exact hw

end Publish

end FnShare
