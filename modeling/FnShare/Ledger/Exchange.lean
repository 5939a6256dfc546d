import FnShare.Ledger
import FnShare.Lib.Rpc
import FnShare.Node.Blocks
import FnShare.World

/-!
# Accounts of two nodes

What a node stores on a peer or downloads from it is counted on both sides. The peer counts it in
`handleBlocks`, when it has served the request and before it responds; the node counts it in
`PutShardOnPeer` and `GetShardFromPeer`, when the response has arrived. In between, requests and
responses can be lost, and the node can give up and try again (`exchange`, an instance of `Rpc`).

The node's counters are not ahead of the peer's as long as the peer keeps what it counts
(`accounts_never_exceed`). The node's own ledger may do what it likes: no entry that it ever has counts
more than was recorded (`LedgerStep.has_counter`). At the peer, a record made while a `Flush` still has
the node's entry to write is lost, and so is one made before the ledger is attached, which `cmdDaemon` does
only after the handler is registered (`accounts_exceed`).
-/

namespace FnShare

open Prog

/-! ## The entries of a peer -/

section Entries

variable {L : Libs} {s s' : LedgerState} {peerID : Bytes} {ev : LedgerEvent}
variable {e' : LedgerEntry} {c : Counter}

/-- An entry of a peer: in memory, still to be written by a `Flush`, or in the store. -/
def LedgerState.Has (L : Libs) (s : LedgerState) (peerID : Bytes) (e : LedgerEntry) : Prop :=
  s.dirty.get peerID = some e ∨ e ∈ s.pending peerID ∨ loadEntry L (s.read peerID) = some e

/-- The entry that is touched has the counters of one that there was, or of a new one. -/
theorem has_touchLocked {answer : Except GoErr Bytes} (hans : s.Answers peerID answer) (t : ℤ) :
    ∃ e, (s.Has L peerID e ∨ e = { peerID := peerID }) ∧
      ∀ c, (touchLocked L s.dirty answer peerID t).counter c = e.counter c := by
  have htime : ∀ (e : LedgerEntry) c, { e with updatedAt := t }.counter c = e.counter c := by
    intro e c
    cases c <;> rfl
  unfold touchLocked
  cases hd : s.dirty.get peerID with
  | some e => exact ⟨e, .inl (.inl hd), htime e⟩
  | none =>
    simp only
    cases hl : loadEntry L answer with
    | none => exact ⟨_, .inr rfl, htime _⟩
    | some e =>
      rcases hans with rfl | ⟨err, rfl⟩
      · exact ⟨e, .inl (.inr (.inr hl)), htime e⟩
      · exact absurd hl (by simp [loadEntry])

/-- Adding to a counter sets that one. -/
theorem LedgerEntry.counter_add_eq (e : LedgerEntry) (n : ℤ) (c c' : Counter) :
    (e.add n c).counter c' = if c = c' then wrap64 (e.counter c' + n) else e.counter c' := by
  cases c <;> cases c' <;> rfl

/-- The entries of a peer after a new one was put into memory. -/
theorem LedgerState.Has.of_put {p : Bytes} {e : LedgerEntry}
    (h : LedgerState.Has L { s with dirty := s.dirty.put p e } peerID e') :
    (p = peerID ∧ e' = e) ∨ s.Has L peerID e' := by
  rcases h with h | h
  · by_cases hp : peerID = p
    · subst hp
      rw [SortedMap.get_put_self] at h
      exact .inl ⟨rfl, (Option.some.inj h).symm⟩
    · rw [SortedMap.get_put_ne _ hp] at h
      exact .inr (.inl h)
  · exact .inr (.inr h)

/-- What a step can have made of the entries of a peer. The counters of an entry are those of an entry that
there was before, or of a new one, with the amount of the step added where the step records one. -/
theorem LedgerStep.has_cases (hC : L.cbor.Lawful) (hstep : LedgerStep L s ev s') (hkeyed : s.Keyed L)
    (h : s'.Has L peerID e') :
    ∃ e, (s.Has L peerID e ∨ e = { peerID := peerID }) ∧
      ∀ c, e'.counter c = e.counter c ∨
        ∃ n answer, ev = .record c peerID n answer ∧ e'.counter c = wrap64 (e.counter c + n) := by
  -- An entry that there was before is its own origin.
  have hsame : s.Has L peerID e' → ∃ e, (s.Has L peerID e ∨ e = { peerID := peerID }) ∧
      ∀ c, e'.counter c = e.counter c ∨
        ∃ n answer, ev = .record c peerID n answer ∧ e'.counter c = wrap64 (e.counter c + n) :=
    fun he => ⟨e', .inl he, fun _ => .inl rfl⟩
  cases hstep with
  | @record c p n t answer hans =>
    rcases h.of_put with ⟨rfl, rfl⟩ | h
    · obtain ⟨e, he, heq⟩ := has_touchLocked hans t
      refine ⟨e, he, fun c' => ?_⟩
      rw [LedgerEntry.counter_add_eq, heq c']
      split_ifs with hcc
      · subst hcc
        exact .inr ⟨n, answer, rfl, rfl⟩
      · exact .inl rfl
    · exact hsame h
  | @ping p ok t t' answer hans =>
    rcases h.of_put with ⟨rfl, rfl⟩ | h
    · obtain ⟨e, he, heq⟩ := has_touchLocked hans t
      exact ⟨e, he, fun c => .inl (by rw [LedgerEntry.counter_pinged, heq c])⟩
    · exact hsame h
  | @flush order hperm =>
    rcases h with h | h | h
    · exact absurd h (by simp)
    -- What was in memory is now to be written.
    · have hmem : e' ∈ order.filter (fun e => e.peerID = peerID) ++ s.pending peerID := by
        simpa [LedgerState.pending] using h
      rw [filter_order hkeyed peerID hperm] at hmem
      rcases List.mem_append.mp hmem with hd | hp
      · exact hsame (.inl (Option.mem_toList.mp hd))
      · exact hsame (.inr (.inl hp))
    · exact hsame (.inr (.inr h))
  | @write e es fs fs' hfs =>
    obtain ⟨before, after, hbefore, hafter⟩ := pending_write hfs peerID
    rcases h with h | h | h
    · exact hsame (.inl h)
    · have hmem : e' ∈ before ++ after := hafter ▸ h
      refine hsame (.inr (.inl ?_))
      rw [hbefore]
      rcases List.mem_append.mp hmem with hm | hm <;> simp [hm]
    · by_cases hp : peerID = e.peerID
      · -- What was written is loaded with its times cut; the counters are the same.
        subst hp
        rw [LedgerState.load_put hC] at h
        split_ifs at h
        obtain rfl := Option.some.inj h
        refine ⟨e, .inl (.inr (.inl (by rw [hbefore]; simp))), fun c => .inl ?_⟩
        cases c <;> rfl
      · rw [LedgerState.read_put_ne hp] at h
        exact hsame (.inr (.inr h))
  | @failed es fs fs' hfs =>
    rcases h with h | h | h
    · exact hsame (.inl h)
    · refine hsame (.inr (.inl ?_))
      unfold LedgerState.pending at h ⊢
      rw [hfs]
      simp only [List.flatten_append, List.flatten_cons, List.filter_append, List.mem_append] at h ⊢
      tauto
    · exact hsame (.inr (.inr h))

/-- What holds of a counter in all entries of a peer, from step to step. -/
theorem LedgerStep.has_counter (hC : L.cbor.Lawful) (hstep : LedgerStep L s ev s') (hkeyed : s.Keyed L)
    (V V' : ℤ → Prop) (hzero : V 0) (hkeep : ∀ x, V x → V' x)
    (hadd : ∀ n answer x, ev = .record c peerID n answer → V x → V' (wrap64 (x + n)))
    (h : ∀ e, s.Has L peerID e → V (e.counter c)) (he' : s'.Has L peerID e') : V' (e'.counter c) := by
  obtain ⟨e, he, hc⟩ := hstep.has_cases hC hkeyed he'
  have hV : V (e.counter c) := by
    rcases he with he | rfl
    · exact h e he
    · cases c <;> exact hzero
  rcases hc c with heq | ⟨n, answer, hev, heq⟩
  · rw [heq]
    exact hkeep _ hV
  · rw [heq]
    exact hadd n answer _ hev hV

/-- No entry of a peer counts more than `u`. -/
structure LedgerState.AtMost (L : Libs) (peerID : Bytes) (c : Counter) (s : LedgerState) (u : ℤ) :
    Prop where
  keyed : s.Keyed L
  nonneg : 0 ≤ u
  bound : ∀ e, s.Has L peerID e → -2^63 ≤ e.counter c ∧ e.counter c ≤ u

/-- The entry of a peer that counts has the value `v`. -/
structure LedgerState.Exactly (L : Libs) (peerID : Bytes) (c : Counter) (s : LedgerState) (v : ℤ) :
    Prop where
  keyed : s.Keyed L
  nonneg : 0 ≤ v
  lt : v < 2^63
  range : ∀ e, s.Has L peerID e → -2^63 ≤ e.counter c ∧ e.counter c < 2^63
  counts : ∃ total, s.Counts L peerID total ∧ total c = v

/-- A larger bound. -/
theorem LedgerState.AtMost.mono {u u' : ℤ} (h : s.AtMost L peerID c u) (hle : u ≤ u') :
    s.AtMost L peerID c u' :=
  ⟨h.keyed, h.nonneg.trans hle, fun e he => ⟨(h.bound e he).1, (h.bound e he).2.trans hle⟩⟩

/-- Whatever a step does, and whatever it loses, no entry counts more than was recorded. -/
theorem LedgerStep.atMost (hC : L.cbor.Lawful) (hstep : LedgerStep L s ev s') {u : ℤ}
    (hamount : 0 ≤ ev.amount peerID c) (h : s.AtMost L peerID c u) :
    s'.AtMost L peerID c (u + ev.amount peerID c) := by
  refine ⟨hstep.keyed hC h.keyed, add_nonneg h.nonneg hamount, fun e he => ?_⟩
  refine hstep.has_counter hC h.keyed (fun z => -2^63 ≤ z ∧ z ≤ u)
    (fun z => -2^63 ≤ z ∧ z ≤ u + ev.amount peerID c) ⟨by norm_num, h.nonneg⟩ ?_ ?_ h.bound he
  · rintro z ⟨hlow, hle⟩
    exact ⟨hlow, by omega⟩
  · rintro n answer z rfl ⟨hlow, hle⟩
    have hn : LedgerEvent.amount peerID c (.record c peerID n answer) = n := if_pos ⟨rfl, rfl⟩
    rw [hn] at hamount ⊢
    have hwrap : wrap64 (z + n) ≤ z + n := wrap64_le (by omega)
    exact ⟨(wrap64_range _).1, by omega⟩

/-- The value of the entry that counts. -/
theorem LedgerState.Exactly.counterOf_current {v : ℤ} (h : s.Exactly L peerID c v) :
    counterOf (s.current L peerID) c = v := by
  obtain ⟨total, hcounts, rfl⟩ := h.counts
  have hrange : -2^63 ≤ counterOf (s.current L peerID) c ∧ counterOf (s.current L peerID) c < 2^63 := by
    cases hcur : s.current L peerID with
    | none => norm_num [counterOf]
    | some e =>
      refine h.range e ?_
      rcases Option.or_eq_some_iff.mp hcur with hd | ⟨-, hrest⟩
      · exact .inl hd
      · rcases Option.or_eq_some_iff.mp hrest with hp | ⟨-, hl⟩
        · exact .inr (.inl (List.mem_of_head? hp))
        · exact .inr (.inr hl)
  have hvalue := hcounts.value c
  rwa [wrap64_of_range hrange.1 hrange.2, wrap64_of_range (by linarith [h.nonneg]) h.lt] at hvalue

/-- A step that loses nothing adds what it records, if that is in range. -/
theorem LedgerStep.exactly (hC : L.cbor.Lawful) (hvalid : validUTF8 peerID = true)
    (hstep : LedgerStep L s ev s') (hclean : Lossless peerID s ev) {v : ℤ}
    (h : s.Exactly L peerID c v) (hnonneg : 0 ≤ v + ev.amount peerID c)
    (hlt : v + ev.amount peerID c < 2^63) : s'.Exactly L peerID c (v + ev.amount peerID c) := by
  obtain ⟨total, hcounts, rfl⟩ := h.counts
  refine ⟨hstep.keyed hC h.keyed, hnonneg, hlt, fun e he => ?_,
    _, hstep.counts hC hvalid h.keyed hclean hcounts, rfl⟩
  exact hstep.has_counter hC h.keyed (fun z => -2^63 ≤ z ∧ z < 2^63) (fun z => -2^63 ≤ z ∧ z < 2^63)
    ⟨by norm_num, by norm_num⟩ (fun _ hz => hz) (fun _ _ _ _ _ => wrap64_range _) h.range he

end Entries

/-! ## The two nodes -/

/-- A node that keeps accounts. -/
structure Accounting where
  disk : NodeState
  ledger : LedgerState
  /-- Whether `AttachLedger` was called. -/
  attached : Bool

/-- What an operation of a node can do and answer, where what happens to the ledger satisfies `P`. Without a
ledger nothing is counted. -/
def Accounting.exec (L : Libs) (P : Accounting → LedgerEvent → Prop) (w : Accounting) :
    (o : NodeOp) → o.Ans → Accounting → Prop
  | .record c peer n, _, w' =>
    ∃ answer, P w (.record c peer n answer) ∧
      if w.attached then ∃ s, LedgerStep L w.ledger (.record c peer n answer) s ∧ w' = { w with ledger := s }
      else w' = w
  | o, r, w' => ∃ d, w.disk.step o r d ∧ w' = { w with disk := d }

/-- What can happen at a node besides: the ledger is attached, the disk changes, or something is done with
the ledger that is of the kind `other` and satisfies `P`. -/
def Accounting.drift (L : Libs) (P : Accounting → LedgerEvent → Prop) (other : LedgerEvent → Prop)
    (w w' : Accounting) : Prop :=
  w' = { w with attached := true } ∨ (∃ d, w' = { w with disk := d }) ∨
    ∃ ev s, w.attached = true ∧ other ev ∧ P w ev ∧ LedgerStep L w.ledger ev s ∧ w' = { w with ledger := s }

/-- What two nodes count of each other: the shards stored and the shards fetched. -/
inductive Traffic
  | stored
  | fetched
  deriving DecidableEq

namespace Traffic

/-- The counter of the node that asks. -/
def client : Traffic → Counter
  | stored => .storedOnThem
  | fetched => .downloadedFrom

/-- The counter of the node that serves. -/
def server : Traffic → Counter
  | stored => .storedForThem
  | fetched => .servedToThem

/-- The bytes that a request with its response counts. -/
def due (x : Traffic) (req : Request) (resp : Response) : ℤ :=
  match x, req.op with
  | stored, .putShard => if resp.ok then req.body.length else 0
  | fetched, .getShard => if resp.ok then resp.body.length else 0
  | _, _ => 0

/-- Nothing negative is due. -/
theorem due_nonneg (x : Traffic) (req : Request) (resp : Response) : 0 ≤ x.due req resp := by
  unfold due
  split
  · split_ifs <;> omega
  · split_ifs <;> omega
  · exact le_rfl

end Traffic

/-- The calls of a node to a peer in the blocks protocol. -/
inductive CallsPeer (L : Libs) (peer : Bytes) : NodeM Unit → Prop
  | putShard (shardID data : Bytes) : CallsPeer L peer (putShardOnPeer peer shardID data)
  | getShard (shardID : Bytes) : CallsPeer L peer (getShardFromPeer peer shardID >>= fun _ => ret ())
  | putManifest (fileID raw : Bytes) : CallsPeer L peer (putManifestRawOnPeer peer fileID raw)
  | getManifest (fileID : Bytes) :
      CallsPeer L peer (getManifestFromPeer L peer fileID >>= fun _ => ret ())

/-- The node `aID` calls the node `bID`, where what happens to the ledger of `bID` satisfies `P`. A request
arrives as it was sent or is not decoded. Everything else at the two nodes leaves the counters of this
traffic alone. -/
def exchange (L : Libs) (P : Accounting → LedgerEvent → Prop) (aID bID : Bytes) :
    Rpc NodeSig Accounting Accounting Request Response GoErr GoErr Unit where
  call req := .request bID req
  arrived _ resp := .ok resp
  failed _ e := .error e
  client := Accounting.exec L fun _ _ => True
  server := Accounting.exec L P
  start := CallsPeer L bID
  handler req p := p = handleBlocks L true aID (.ok req) ∨ ∃ e, p = handleBlocks L true aID (.error e)
  clientDrift := Accounting.drift L (fun _ _ => True) fun ev => ∀ x : Traffic, ev.amount bID x.client = 0
  serverDrift := Accounting.drift L P fun ev => ∀ x : Traffic, ev.amount aID x.server = 0

/-- A node keeps what it counts of a peer: nothing of the peer is lost, and what is recorded on a counter of
its requests is recorded with the ledger attached and without an overflow. -/
def Accounting.Keeps (L : Libs) (peerID : Bytes) (w : Accounting) : LedgerEvent → Prop
  | .record c p n answer =>
    Lossless peerID w.ledger (.record c p n answer) ∧
      ∀ x : Traffic, c = x.server → p = peerID →
        w.attached = true ∧ counterOf (w.ledger.current L peerID) c + n < 2^63
  | ev => Lossless peerID w.ledger ev

/-! ## What the calls count -/

section Calls

variable {L : Libs} {P : Accounting → LedgerEvent → Prop} {aID bID : Bytes} {x : Traffic}
variable {req : Request}

/-- The amount that an operation records on a counter of a peer. -/
def recordedBy (c : Counter) (peerID : Bytes) : NodeOp → ℤ
  | .record c' p n => if p = peerID ∧ c' = c then n else 0
  | _ => 0

/-- What a response from a peer entitles to count. -/
def Traffic.got (x : Traffic) (peerID : Bytes) : (o : NodeOp) → o.Ans → ℤ
  | .request p req, .ok resp => if p = peerID then x.due req resp else 0
  | _, _ => 0

/-- The accounts of one kind of traffic. -/
def tariff (L : Libs) (P : Accounting → LedgerEvent → Prop) (aID bID : Bytes) (x : Traffic) :
    Rpc.Tariff (exchange L P aID bID) where
  cost := recordedBy x.client bID
  got := x.got bID
  gain := recordedBy x.server aID
  due := x.due
  due_nonneg := x.due_nonneg
  got_arrived req resp := if_pos rfl
  got_failed req e := rfl
  got_here o r ho := by
    unfold Traffic.got
    split
    · rename_i p req resp
      exact if_neg fun hp => ho req (by rw [hp]; rfl)
    · rfl

/-- A request to the peer, on a credit of nothing: what is left has the credit of the response. -/
theorem wp_credit_request {Q : Except GoErr Response → ℤ → Prop}
    (herror : ∀ e y, Q (.error e) y) (hok : ∀ resp, resp.ok = true → Q (.ok resp) (x.due req resp)) :
    wp (tariff L P aID bID x).credit (request bID req) Q 0 := by
  refine wp_request_of ⟨le_rfl, le_rfl⟩ ?_ fun _ y _ _ e => herror e y
  rintro resp y rfl hresp
  change Q (.ok resp) (0 - 0 + if bID = bID then x.due req resp else 0)
  rw [if_pos rfl, sub_zero, zero_add]
  exact hok resp hresp

/-- What an operation records on a peer's counter, where it is of that peer. -/
theorem recordedBy_record (c c' : Counter) (peerID : Bytes) (n : ℤ) :
    recordedBy c peerID (.record c' peerID n) = if c' = c then n else 0 := by
  simp [recordedBy]

/-- A call records what its response entitles to. -/
theorem credit_guard_record {c : Counter} {n y : ℤ} (hn : 0 ≤ n) (hy : 0 ≤ y)
    (h : c = x.client → n ≤ y) : (tariff L P aID bID x).credit.guard y (.record c bID n) := by
  change 0 ≤ recordedBy x.client bID (.record c bID n) ∧ recordedBy x.client bID (.record c bID n) ≤ y
  rw [recordedBy_record]
  split_ifs with hc
  · exact ⟨hn, h hc⟩
  · exact ⟨le_rfl, hy⟩

/-- The calls count what they have received responses for. -/
theorem wp_credit_calls {p : NodeM Unit} (h : CallsPeer L bID p) :
    wp (tariff L P aID bID x).credit p (fun _ _ => True) 0 := by
  cases h with
  | putShard shardID data =>
    unfold putShardOnPeer
    rw [wp_bind]
    refine wp_credit_request (fun _ _ => trivial) fun resp hresp => ⟨?_, fun _ _ _ => trivial⟩
    refine credit_guard_record (Int.natCast_nonneg _) (x.due_nonneg _ _) fun hx => ?_
    cases x with
    | stored => simp [Traffic.due, hresp]
    | fetched => exact absurd hx (by decide)
  | getShard shardID =>
    unfold getShardFromPeer
    rw [wp_bind, wp_bind]
    refine wp_credit_request (fun _ _ => trivial) fun resp hresp => ⟨?_, fun _ _ _ => trivial⟩
    refine credit_guard_record (Int.natCast_nonneg _) (x.due_nonneg _ _) fun hx => ?_
    cases x with
    | stored => exact absurd hx (by decide)
    | fetched => simp [Traffic.due, hresp]
  | putManifest fileID raw =>
    unfold putManifestRawOnPeer
    rw [wp_bind]
    exact wp_credit_request (fun _ _ => trivial) fun _ _ => trivial
  | getManifest fileID =>
    unfold getManifestFromPeer
    rw [wp_bind, wp_bind]
    refine wp_credit_request (fun _ _ => trivial) fun resp _ => ?_
    change wp _ (ofExcept (L.cbor.manifest.unmarshal resp.body)) _ _
    cases L.cbor.manifest.unmarshal resp.body with
    | error e => trivial
    | ok m => trivial

/-- `serveBlock` records nothing. -/
theorem recordedBy_servedBy {o : NodeOp} {r : o.Ans} {resp : Response}
    (h : ServedBy L req o r resp) (c : Counter) (peerID : Bytes) : recordedBy c peerID o = 0 := by
  cases h <;> rfl

/-- A record before the response adds its amount, if it is on the counter of this traffic. -/
theorem wp_giving_record {resp : Response} {c : Counter} {n : ℕ}
    (hdue : x.due req resp ≤ if c = x.server then (n : ℤ) else 0) :
    wp (tariff L P aID bID x).giving (perform (.record c aID n) >>= fun _ => ret resp)
      (onOk fun resp y => x.due req resp ≤ y) 0 := by
  have hgain : (tariff L P aID bID x).gain (.record c aID n) = if c = x.server then (n : ℤ) else 0 :=
    recordedBy_record x.server c aID n
  refine ⟨?_, ?_⟩
  · change 0 ≤ (tariff L P aID bID x).gain (.record c aID n)
    rw [hgain]
    split_ifs <;> omega
  · rintro r y rfl
    change x.due req resp ≤ 0 + (tariff L P aID bID x).gain (.record c aID n)
    rw [hgain, zero_add]
    exact hdue

/-- The handler records what its response entitles to, before it responds. -/
theorem wp_giving_handler {p : NodeM Response} (h : (exchange L P aID bID).handler req p) :
    wp (tariff L P aID bID x).giving p (onOk fun resp y => x.due req resp ≤ y) 0 := by
  rcases h with rfl | ⟨e, rfl⟩
  · have hserve : wp (tariff L P aID bID x).giving (serveBlock L true req) (onOk fun _ y => y = 0) 0 := by
      refine wp_serveBlock_of ?_ (fun _ => rfl) ?_
      · intro o r resp hby
        exact le_of_eq (recordedBy_servedBy hby x.server aID).symm
      · rintro o r resp y hby rfl
        exact (zero_add _).trans (recordedBy_servedBy hby x.server aID)
    unfold handleBlocks
    refine wp_bind_onOk hserve ?_
    rintro resp y rfl
    obtain ⟨op, id, body⟩ := req
    split_ifs with hresp
    · cases op with
      | putShard =>
        refine wp_giving_record ?_
        cases x <;> simp [Traffic.due, Traffic.server, hresp]
      | getShard =>
        refine wp_giving_record ?_
        cases x <;> simp [Traffic.due, Traffic.server, hresp]
      | putManifest => cases x <;> exact le_rfl
      | getManifest => cases x <;> exact le_rfl
      | unknown n => cases x <;> exact le_rfl
    · change x.due _ resp ≤ 0
      cases x <;> cases op <;> simp [Traffic.due, hresp]
  · -- A request that is not decoded is refused.
    change x.due req (refuse _) ≤ 0
    unfold Traffic.due refuse
    split <;> simp

end Calls

/-! ## The accounts -/

section Accounts

variable {L : Libs} {P : Accounting → LedgerEvent → Prop} {aID bID : Bytes} {x : Traffic}
variable {w w' : Accounting} {o : NodeOp} {other : LedgerEvent → Prop} {peerID : Bytes} {c : Counter}

/-- What an operation does to the ledger: it records something, or leaves it as it is. -/
theorem Accounting.exec_cases {r : o.Ans} (h : w.exec L P o r w') :
    (∃ c p n answer, o = .record c p n ∧ P w (.record c p n answer) ∧
      ((w.attached = true ∧ LedgerStep L w.ledger (.record c p n answer) w'.ledger) ∨
        (w.attached = false ∧ w'.ledger = w.ledger))) ∨
    ((∀ c p, recordedBy c p o = 0) ∧ w'.ledger = w.ledger) := by
  cases o with
  | record c p n =>
    obtain ⟨answer, hP, h⟩ := h
    refine .inl ⟨c, p, n, answer, rfl, hP, ?_⟩
    split_ifs at h with hatt
    · obtain ⟨s, hstep, rfl⟩ := h
      exact .inl ⟨hatt, hstep⟩
    · exact .inr ⟨by simpa using hatt, by rw [h]⟩
  | _ =>
    obtain ⟨d, -, rfl⟩ := h
    exact .inr ⟨fun _ _ => rfl, rfl⟩

/-- What else can happen to the ledger. -/
theorem Accounting.drift_cases (h : w.drift L P other w') :
    w'.ledger = w.ledger ∨ ∃ ev, other ev ∧ P w ev ∧ LedgerStep L w.ledger ev w'.ledger := by
  rcases h with rfl | ⟨d, rfl⟩ | ⟨ev, s, -, hother, hP, hstep, rfl⟩
  · exact .inl rfl
  · exact .inl rfl
  · exact .inr ⟨ev, hother, hP, hstep⟩

/-- A node that keeps what it counts loses nothing. -/
theorem Accounting.Keeps.lossless {ev : LedgerEvent} (h : w.Keeps L aID ev) :
    Lossless aID w.ledger ev := by
  cases ev with
  | record c p n answer => exact h.1
  | _ => exact h

/-- An operation adds to an account at most what it records. -/
theorem Accounting.exec_atMost (hC : L.cbor.Lawful) {r : o.Ans}
    (h : w.exec L P o r w') {u : ℤ} (hcost : 0 ≤ recordedBy c peerID o)
    (hu : w.ledger.AtMost L peerID c u) : w'.ledger.AtMost L peerID c (u + recordedBy c peerID o) := by
  rcases Accounting.exec_cases h with ⟨c', p, n, answer, rfl, -, ⟨-, hstep⟩ | ⟨-, hsame⟩⟩ | ⟨-, hsame⟩
  · exact hstep.atMost hC hcost hu
  · rw [hsame]
    exact hu.mono (le_add_of_nonneg_right hcost)
  · rw [hsame]
    exact hu.mono (le_add_of_nonneg_right hcost)

/-- What else happens adds nothing. -/
theorem Accounting.drift_atMost (hC : L.cbor.Lawful) (h : w.drift L P other w') {u : ℤ}
    (hother : ∀ ev, other ev → ev.amount peerID c = 0) (hu : w.ledger.AtMost L peerID c u) :
    w'.ledger.AtMost L peerID c u := by
  rcases Accounting.drift_cases h with hsame | ⟨ev, hev, -, hstep⟩
  · rw [hsame]
    exact hu
  · have hstep' := hstep.atMost hC (le_of_eq (hother ev hev).symm) hu
    rwa [hother ev hev, add_zero] at hstep'

/-- Where a node keeps what it counts, an operation adds to an account what it records. -/
theorem Accounting.exec_exactly (hC : L.cbor.Lawful) (hvalid : validUTF8 peerID = true) {r : o.Ans}
    (h : w.exec L (Accounting.Keeps L peerID) o r w') {v : ℤ} (hgain : 0 ≤ recordedBy x.server peerID o)
    (hv : w.ledger.Exactly L peerID x.server v) :
    w'.ledger.Exactly L peerID x.server (v + recordedBy x.server peerID o) := by
  rcases Accounting.exec_cases h with ⟨c, p, n, answer, rfl, hkeeps, hrecord⟩ | ⟨hnone, hsame⟩
  · have hnonneg : 0 ≤ v + recordedBy x.server peerID (.record c p n) := add_nonneg hv.nonneg hgain
    by_cases hcount : p = peerID ∧ c = x.server
    · -- The counter of this traffic: the ledger is attached, and there is room for the amount.
      obtain ⟨hatt, hlt⟩ := hkeeps.2 x hcount.2 hcount.1
      rw [hcount.2, hv.counterOf_current] at hlt
      have hroom : v + recordedBy x.server peerID (.record c p n) < 2^63 := by
        rwa [show recordedBy x.server peerID (.record c p n) = n from if_pos hcount]
      rcases hrecord with ⟨-, hstep⟩ | ⟨hdetached, -⟩
      · exact hstep.exactly hC hvalid hkeeps.1 hv hnonneg hroom
      · exact absurd hatt (by simp [hdetached])
    · have hamount : recordedBy x.server peerID (.record c p n) = 0 := if_neg hcount
      rcases hrecord with ⟨-, hstep⟩ | ⟨-, hsame⟩
      · refine hstep.exactly hC hvalid hkeeps.1 hv hnonneg ?_
        change v + recordedBy x.server peerID (.record c p n) < 2^63
        rw [hamount, add_zero]
        exact hv.lt
      · rw [hsame, hamount, add_zero]
        exact hv
  · rw [hsame, hnone, add_zero]
    exact hv

/-- Where a node keeps what it counts, what else happens adds nothing and takes nothing. -/
theorem Accounting.drift_exactly (hC : L.cbor.Lawful) (hvalid : validUTF8 peerID = true)
    (h : w.drift L (Accounting.Keeps L peerID) other w') {v : ℤ}
    (hother : ∀ ev, other ev → ev.amount peerID c = 0) (hv : w.ledger.Exactly L peerID c v) :
    w'.ledger.Exactly L peerID c v := by
  rcases Accounting.drift_cases h with hsame | ⟨ev, hev, hkeeps, hstep⟩
  · rw [hsame]
    exact hv
  · have hzero : v + ev.amount peerID c = v := by rw [hother ev hev, add_zero]
    have hstep' := hstep.exactly hC hvalid hkeeps.lossless hv (hzero.symm ▸ hv.nonneg) (hzero.symm ▸ hv.lt)
    rwa [hzero] at hstep'

/-- The accounts are kept, if the node that serves keeps what it counts. -/
theorem tariff_kept (hC : L.cbor.Lawful) (hvalid : validUTF8 aID = true) :
    (tariff L (Accounting.Keeps L aID) aID bID x).Kept
      (fun a u => a.ledger.AtMost L bID x.client u) (fun b v => b.ledger.Exactly L aID x.server v) where
  client _ _ _ _ _ h hcost hu := Accounting.exec_atMost (P := fun _ _ => True) hC h hcost hu
  clientDrift _ _ _ h hu := Accounting.drift_atMost (P := fun _ _ => True) hC h (fun _ hev => hev x) hu
  server _ _ _ _ _ h hgain hv := Accounting.exec_exactly hC hvalid h hgain hv
  serverDrift _ _ _ h hv := Accounting.drift_exactly hC hvalid h (fun _ hev => hev x) hv
  start _ hp := wp_credit_calls hp
  handler _ _ hp := wp_giving_handler hp

/-- A ledger that has just been opened counts what is in the store. -/
theorem LedgerState.atMost_opened {store : SortedMap Bytes Bytes}
    (hfiled : (LedgerState.opened store).Filed L)
    (hnonneg : 0 ≤ (LedgerState.opened store).persisted L peerID c) :
    (LedgerState.opened store).AtMost L peerID c ((LedgerState.opened store).persisted L peerID c) := by
  refine ⟨hfiled.keyed, hnonneg, fun e he => ?_⟩
  rcases he with hd | hp | hl
  · exact absurd hd (by simp [LedgerState.opened])
  · exact absurd hp (by simp [LedgerState.opened, LedgerState.pending])
  · have hvalue : (LedgerState.opened store).persisted L peerID c = e.counter c := by
      unfold LedgerState.persisted
      rw [hl]
      rfl
    exact ⟨by omega, by omega⟩

/-- A ledger that has just been opened counts exactly what is in the store. -/
theorem LedgerState.exactly_opened {store : SortedMap Bytes Bytes}
    (hfiled : (LedgerState.opened store).Filed L)
    (hnonneg : 0 ≤ (LedgerState.opened store).persisted L peerID c)
    (hlt : (LedgerState.opened store).persisted L peerID c < 2^63) :
    (LedgerState.opened store).Exactly L peerID c ((LedgerState.opened store).persisted L peerID c) := by
  have hbound := (LedgerState.atMost_opened hfiled hnonneg).bound
  refine ⟨hfiled.keyed, hnonneg, hlt, fun e he => ⟨(hbound e he).1, (hbound e he).2.trans_lt hlt⟩,
    fun c => (LedgerState.opened store).persisted L peerID c, ?_, rfl⟩
  exact ⟨by simp [LedgerState.opened, LedgerState.pending], fun _ => rfl, fun _ => rfl⟩

/-- The node `aID` calls the node `bID`, from any two ledgers that have just been opened and are not ahead of
each other the wrong way. Whatever is lost or tried again and in whatever order everything happens, if `bID`
keeps what it counts of `aID`, then no entry that `aID` has of `bID`, in memory or elsewhere, counts more
bytes stored there or fetched from there than `bID` counts. -/
theorem accounts_never_exceed (hC : L.cbor.Lawful) (hvalid : validUTF8 aID = true)
    {diskA diskB : NodeState} {storeA storeB : SortedMap Bytes Bytes} {attachedA attachedB : Bool}
    (hfiledA : (LedgerState.opened storeA).Filed L) (hfiledB : (LedgerState.opened storeB).Filed L)
    (hinit : ∀ x : Traffic, 0 ≤ (LedgerState.opened storeA).persisted L bID x.client ∧
      (LedgerState.opened storeA).persisted L bID x.client ≤
        (LedgerState.opened storeB).persisted L aID x.server ∧
      (LedgerState.opened storeB).persisted L aID x.server < 2^63)
    {a b : Accounting} {cs : List (Rpc.Call (exchange L (Accounting.Keeps L aID) aID bID))}
    (h : Rpc.Reach (exchange L (Accounting.Keeps L aID) aID bID) ⟨diskA, .opened storeA, attachedA⟩
      ⟨diskB, .opened storeB, attachedB⟩ a b cs) {e : LedgerEntry} (he : a.ledger.Has L bID e) :
    e.storedOnThemBytes ≤ counterOf (b.ledger.current L aID) .storedForThem ∧
      e.downloadedFromBytes ≤ counterOf (b.ledger.current L aID) .servedToThem := by
  have htraffic : ∀ x : Traffic, e.counter x.client ≤ counterOf (b.ledger.current L aID) x.server := by
    intro x
    obtain ⟨h0, hle, hlt⟩ := hinit x
    have hu₀ := LedgerState.atMost_opened hfiledA h0
    have hv₀ := LedgerState.exactly_opened hfiledB (h0.trans hle) hlt
    obtain ⟨u, v, hu, hv, huv⟩ := h.balanced (tariff_kept hC hvalid) hu₀ hv₀ hle
    rw [hv.counterOf_current]
    exact (hu.bound e he).2.trans huv
  exact ⟨htraffic .stored, htraffic .fetched⟩

end Accounts

/-! ## Runs -/

section Runs

variable {L : Libs} {P : Accounting → LedgerEvent → Prop} {aID bID : Bytes}
  {a₀ b₀ a a' b b' : Accounting} {cs : List (Rpc.Call (exchange L P aID bID))}

/-- A shard is stored and recorded by the peer, and the response is under way. When it arrives the shard is
recorded here too; otherwise the call ends with the error. -/
theorem Rpc.Reach.servePut (h : Rpc.Reach (exchange L P aID bID) a₀ b₀ a b cs) (data : Bytes)
    (hserver : Accounting.exec L P { b with disk := b.disk.putBlock (hashOf data) data }
      (.record .storedForThem aID data.length) () b') :
    ∃ k, Rpc.Reach (exchange L P aID bID) a₀ b₀ a b'
        (.waiting ⟨.putShard, hashOf data, data⟩ k (.answered { ok := true }) :: cs) ∧
      k ((exchange L P aID bID).arrived _ { ok := true }) = perform (.record .storedOnThem bID data.length) ∧
      ∀ e, k ((exchange L P aID bID).failed _ e) = fail e := by
  have hput : Accounting.exec L P b (.blockPut (hashOf data) data) (.ok ())
      { b with disk := b.disk.putBlock (hashOf data) data } := by
    refine ⟨_, ?_, rfl⟩
    simp [NodeState.step, verifyHash]
  have hstart := h.start (.putShard (hashOf data) data)
  have hissue : Rpc.CallStep (exchange L P aID bID) a b (.running (putShardOnPeer bID (hashOf data) data))
      a b [.waiting ⟨.putShard, hashOf data, data⟩ _ .sent] := .issue
  have hsent := hstart.step_head hissue
  have haccepted := hsent.step_head (.there (.accept (.inl rfl)))
  have hstored := haccepted.step_head (.there (.serve hput))
  have hrecorded := hstored.step_head (.there (.serve (r := ()) hserver))
  exact ⟨_, hrecorded.step_head (.there .reply), rfl, fun _ => rfl⟩

/-- A shard is put on the peer and recorded at both nodes. -/
theorem Rpc.Reach.putShard (h : Rpc.Reach (exchange L P aID bID) a₀ b₀ a b cs) (data : Bytes)
    (hserver : Accounting.exec L P { b with disk := b.disk.putBlock (hashOf data) data }
      (.record .storedForThem aID data.length) () b')
    (hclient : a.exec L (fun _ _ => True) (.record .storedOnThem bID data.length) () a') :
    Rpc.Reach (exchange L P aID bID) a₀ b₀ a' b' (.running (ret ()) :: cs) := by
  obtain ⟨k, hserved, harrived, -⟩ := h.servePut data hserver
  have hdelivered := hserved.step_head .deliver
  rw [harrived] at hdelivered
  have hhere : ∀ q, NodeOp.record .storedOnThem bID data.length ≠ (exchange L P aID bID).call q :=
    fun q hq => NodeOp.noConfusion hq
  exact hdelivered.step_here hhere hclient

/-- A shard is put on the peer and recorded there. The response is lost, and the node gives up. -/
theorem Rpc.Reach.losePut (h : Rpc.Reach (exchange L P aID bID) a₀ b₀ a b cs) (data : Bytes) (e : GoErr)
    (hserver : Accounting.exec L P { b with disk := b.disk.putBlock (hashOf data) data }
      (.record .storedForThem aID data.length) () b') :
    Rpc.Reach (exchange L P aID bID) a₀ b₀ a b'
      (.running (fail e) :: .orphan ⟨.putShard, hashOf data, data⟩ .lost :: cs) := by
  obtain ⟨k, hserved, -, hfailed⟩ := h.servePut data hserver
  have hlost : Rpc.Reach (exchange L P aID bID) a₀ b₀ a b'
      ([] ++ .waiting ⟨.putShard, hashOf data, data⟩ k .lost :: cs) :=
    hserved.step_head (.there .loseResponse)
  rw [← hfailed e]
  exact hlost.step (.giveUp e)

/-- A `Flush` starts at the peer. -/
theorem Rpc.Reach.flushServer (h : Rpc.Reach (exchange L P aID bID) a₀ b₀ a b cs) (hatt : b.attached = true)
    (hP : P b .flush) :
    Rpc.Reach (exchange L P aID bID) a₀ b₀ a
      { b with ledger := { b.ledger with
          dirty := .empty, flushes := b.ledger.dirty.entries.map Prod.snd :: b.ledger.flushes } } cs :=
  h.serverDrift (.inr (.inr ⟨.flush, _, hatt, fun _ => rfl, hP, .flush (.refl _), rfl⟩))

/-- The `Flush` that started last at the peer writes an entry. -/
theorem Rpc.Reach.writeServer (h : Rpc.Reach (exchange L P aID bID) a₀ b₀ a b cs) (hatt : b.attached = true)
    (e : LedgerEntry) {es : List LedgerEntry} {fs : List (List LedgerEntry)}
    (he : b.ledger.flushes = (e :: es) :: fs) (hP : P b (.write e)) :
    Rpc.Reach (exchange L P aID bID) a₀ b₀ a
      { b with ledger := { b.ledger with
          store := b.ledger.store.put (ledgerKey e.peerID) (L.cbor.ledgerEntry.marshal e)
          flushes := es :: fs } } cs :=
  h.serverDrift (.inr (.inr ⟨.write e, _, hatt, fun _ => rfl, hP, .write_head he, rfl⟩))

/-- A node with its ledger attached records what the store's answer and the clock make of an entry. -/
theorem Accounting.exec_record {w : Accounting} (hatt : w.attached = true) {c : Counter} {peerID : Bytes}
    {n : ℤ} (t : ℤ) (hP : P w (.record c peerID n (w.ledger.read peerID))) :
    w.exec L P (.record c peerID n) ()
      { w with ledger := { w.ledger with
          dirty := w.ledger.dirty.put peerID
            ((touchLocked L w.ledger.dirty (w.ledger.read peerID) peerID t).add n c) } } := by
  refine ⟨w.ledger.read peerID, hP, ?_⟩
  rw [if_pos hatt]
  exact ⟨_, .record c peerID n t (.inl rfl), rfl⟩

/-- A node that has just started, with its ledger attached or not yet. -/
def Accounting.started (attached : Bool) : Accounting := ⟨.fresh, .opened .empty, attached⟩

end Runs

/-- A shard of five bytes is put on a node and the response is lost; the second attempt succeeds. Then the
node's ledger is flushed, and a shard of seven bytes is put. The node that sent them counts twelve bytes, and
the other one no less: it counts seventeen. -/
theorem sample_accounts_agree :
    ∃ a b cs e, Rpc.Reach (exchange sampleLibs (Accounting.Keeps sampleLibs (lit "bob"))
      (lit "bob") (lit "alice"))
        (.started true) (.started true) a b cs ∧
      a.ledger.dirty.get (lit "alice") = some e ∧ e.storedOnThemBytes = 12 ∧
      e.storedOnThemBytes ≤ counterOf (b.ledger.current sampleLibs (lit "bob")) .storedForThem := by
  have h0 : Rpc.Reach (exchange sampleLibs (Accounting.Keeps sampleLibs (lit "bob"))
      (lit "bob") (lit "alice"))
      (.started true) (.started true) (.started true) (.started true) [] := .init
  have h1 := h0.losePut [1, 2, 3, 4, 5] .eof
    (Accounting.exec_record rfl 0 ⟨fun _ => ⟨rfl, rfl⟩, fun _ _ _ => ⟨rfl, by decide⟩⟩)
  have h2 := h1.putShard [1, 2, 3, 4, 5]
    (Accounting.exec_record rfl 0 ⟨fun _ => ⟨rfl, rfl⟩, fun _ _ _ => ⟨rfl, by decide⟩⟩)
    (Accounting.exec_record rfl 0 trivial)
  have h3 := h2.flushServer rfl trivial
  have h4 := h3.writeServer rfl (sampleEntry 10) rfl trivial
  have h5 := h4.putShard [1, 2, 3, 4, 5, 6, 7]
    (Accounting.exec_record rfl 0 ⟨fun _ => ⟨rfl, rfl⟩, fun _ _ _ => ⟨rfl, by decide⟩⟩)
    (Accounting.exec_record rfl 0 trivial)
  have hnone : ∀ peerID c, (LedgerState.opened .empty).persisted sampleLibs peerID c = 0 := fun _ _ => rfl
  refine ⟨_, _, _, _, h5, SortedMap.get_put_self _ _ _, rfl, ?_⟩
  exact (accounts_never_exceed sampleCbor_lawful (by decide) filed_empty filed_empty
    (fun x => by rw [hnone, hnone]; norm_num) h5 (.inl (SortedMap.get_put_self _ _ _))).1

/-- A shard of five bytes is put on a node that has registered the handler of requests and not yet attached
its ledger: the node that sent it counts five bytes, the other one none. -/
theorem early_serve_exceeds :
    ∃ a b cs e, Rpc.Reach (exchange sampleLibs (fun w => Faultless w.ledger) (lit "bob") (lit "alice"))
        (.started true) (.started false) a b cs ∧
      a.ledger.dirty.get (lit "alice") = some e ∧ e.storedOnThemBytes = 5 ∧
      counterOf (b.ledger.current sampleLibs (lit "bob")) .storedForThem = 0 := by
  have h0 : Rpc.Reach (exchange sampleLibs (fun w => Faultless w.ledger) (lit "bob") (lit "alice"))
      (.started true) (.started false) (.started true) (.started false) [] := .init
  -- Without a ledger the handler acknowledges and records nothing.
  have h1 := h0.putShard [1, 2, 3, 4, 5] ⟨.error errStoreNotFound, rfl, rfl⟩
    (Accounting.exec_record rfl 0 trivial)
  exact ⟨_, _, _, _, h1, SortedMap.get_put_self _ _ _, rfl, rfl⟩

/-- Shards of five and of seven bytes are put on a node, the second one while a `Flush` has still to write the
entry that counts the first. After both flushes the node counts seven bytes, the one that sent them twelve,
though no access to a store failed. -/
theorem flush_race_exceeds :
    ∃ a b cs e, Rpc.Reach (exchange sampleLibs (fun w => Faultless w.ledger) (lit "bob") (lit "alice"))
        (.started true) (.started true) a b cs ∧
      a.ledger.dirty.get (lit "alice") = some e ∧ e.storedOnThemBytes = 12 ∧ b.ledger.Quiet ∧
      counterOf (b.ledger.current sampleLibs (lit "bob")) .storedForThem = 7 := by
  have h0 : Rpc.Reach (exchange sampleLibs (fun w => Faultless w.ledger) (lit "bob") (lit "alice"))
      (.started true) (.started true) (.started true) (.started true) [] := .init
  have h1 := h0.putShard [1, 2, 3, 4, 5] (Accounting.exec_record rfl 0 rfl)
    (Accounting.exec_record rfl 0 trivial)
  have h2 := h1.flushServer rfl trivial
  -- The store has nothing of the node yet, so that its entry starts at zero again.
  have h3 := h2.putShard [1, 2, 3, 4, 5, 6, 7]
    (Accounting.exec_record rfl 0 rfl)
    (Accounting.exec_record rfl 0 trivial)
  have h4 := h3.writeServer rfl (sampleEntry 5) rfl trivial
  have h5 := h4.flushServer rfl trivial
  have h6 := h5.writeServer rfl (sampleEntry 7) rfl trivial
  refine ⟨_, _, _, _, h6, SortedMap.get_put_self _ _ _, rfl, ⟨rfl, rfl⟩, ?_⟩
  rw [LedgerState.Quiet.counterOf_current ⟨rfl, rfl⟩]
  exact persisted_sampleEntry _ 7 _

/-- The two runs. -/
theorem accounts_exceed :
    (∃ a b cs e, Rpc.Reach (exchange sampleLibs (fun w => Faultless w.ledger) (lit "bob") (lit "alice"))
        (.started true) (.started false) a b cs ∧
      a.ledger.dirty.get (lit "alice") = some e ∧
      counterOf (b.ledger.current sampleLibs (lit "bob")) .storedForThem < e.storedOnThemBytes) ∧
    (∃ a b cs e, Rpc.Reach (exchange sampleLibs (fun w => Faultless w.ledger) (lit "bob") (lit "alice"))
        (.started true) (.started true) a b cs ∧
      a.ledger.dirty.get (lit "alice") = some e ∧ b.ledger.Quiet ∧
      counterOf (b.ledger.current sampleLibs (lit "bob")) .storedForThem < e.storedOnThemBytes) := by
  obtain ⟨a, b, cs, e, hrun, he, h5, h0⟩ := early_serve_exceeds
  obtain ⟨a', b', cs', e', hrun', he', h12, hquiet, h7⟩ := flush_race_exceeds
  exact ⟨⟨a, b, cs, e, hrun, he, by omega⟩, ⟨a', b', cs', e', hrun', he', hquiet, by omega⟩⟩

end FnShare
