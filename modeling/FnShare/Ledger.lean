import FnShare.Instance
import FnShare.Lib.SortedMap

/-!
# The ledger

The package `internal/ledger`: the traffic with each peer and whether the peer is up. The `Record`
methods and `RecordPing` change an entry in memory, which is loaded from the store at its first use
(`touchLocked`); `Flush` takes all entries that were touched and writes them, one after the other.
Every method holds a mutex, but `Flush` only until it has the entries.

`LedgerStep` is what happens step by step, where any number of flushes are under way. An entry that is
touched while a flush still has an older one of the peer to write is loaded from the store without what
that older entry counts, and overwrites it later (`sampleLedger_loses`). If no entry is touched in that
time, every amount that was recorded arrives in the store (`persisted_eq_recorded`).
-/

namespace FnShare

/-! ## The code -/

/-- `key`. -/
def ledgerKey (peerID : Bytes) : Bytes := lit "ledger/local/" ++ peerID

/-- `OfflineThreshold`. -/
def offlineThreshold : ℤ := 3

/-- `ReputationBaseline`. -/
def reputationBaseline : ℤ := 100

/-- `ReputationMin`. -/
def reputationMin : ℤ := 0

/-- `ReputationMax`. -/
def reputationMax : ℤ := 100

/-- `ReputationGainOnPing`. -/
def reputationGainOnPing : ℤ := 1

/-- `ReputationLossOnFail`. -/
def reputationLossOnFail : ℤ := 5

/-- `PingResult`. -/
structure PingResult where
  wentOffline : Bool
  wentOnline : Bool
  isOnline : Bool
  reputation : ℤ
  deriving DecidableEq

namespace LedgerEntry

/-- One of the four traffic counters. -/
def counter (e : LedgerEntry) : Counter → ℤ
  | .storedForThem => e.storedForThemBytes
  | .servedToThem => e.servedToThemBytes
  | .storedOnThem => e.storedOnThemBytes
  | .downloadedFrom => e.downloadedFromBytes

/-- `+= n` on one of the traffic counters. -/
def add (e : LedgerEntry) (n : ℤ) : Counter → LedgerEntry
  | .storedForThem => { e with storedForThemBytes := wrap64 (e.storedForThemBytes + n) }
  | .servedToThem => { e with servedToThemBytes := wrap64 (e.servedToThemBytes + n) }
  | .storedOnThem => { e with storedOnThemBytes := wrap64 (e.storedOnThemBytes + n) }
  | .downloadedFrom => { e with downloadedFromBytes := wrap64 (e.downloadedFromBytes + n) }

/-- The reputation after a ping that succeeded. -/
def gain (rep : ℤ) : ℤ :=
  if rep < reputationMax then min (rep + reputationGainOnPing) reputationMax else rep

/-- The reputation after a ping that failed, of a peer that is offline. -/
def lose (rep : ℤ) : ℤ :=
  let loss := if rep - reputationLossOnFail < reputationMin then rep - reputationMin
    else reputationLossOnFail
  if 0 < loss then rep - loss else rep

/-- The entry after a ping at the time `t`. -/
def pinged (e : LedgerEntry) (ok : Bool) (t : ℤ) : LedgerEntry :=
  let rep := if e.lastPingAt = zeroTime then reputationBaseline else e.reputation
  if ok then
    { e with
      consecFailures := 0, lastPingAt := t, lastSeenAt := t, isOnline := true,
      offlineSince := zeroTime, reputation := gain rep }
  else
    let failures := wrap64 (e.consecFailures + 1)
    if offlineThreshold ≤ failures then
      { e with
        consecFailures := failures, lastPingAt := t, isOnline := false,
        offlineSince := if e.offlineSince = zeroTime then t else e.offlineSince,
        reputation := lose rep }
    else { e with consecFailures := failures, lastPingAt := t, reputation := rep }

/-- The result of a ping. At the first probe of a peer, it counts as having been what it is found. -/
def pingResult (e : LedgerEntry) (ok : Bool) (t : ℤ) : PingResult :=
  let wasOnline := if e.lastPingAt = zeroTime then ok else e.isOnline
  let e' := e.pinged ok t
  { wentOffline := wasOnline && !e'.isOnline
    wentOnline := !wasOnline && e'.isOnline
    isOnline := e'.isOnline
    reputation := e'.reputation }

end LedgerEntry

section Code

variable (L : Libs)

/-- `loadEntry`, on the answer of `store.Get`. -/
def loadEntry : Except GoErr Bytes → Option LedgerEntry
  | .error _ => none
  | .ok raw => (L.cbor.ledgerEntry.unmarshal raw).toOption

/-- `touchLocked`: the entry that is in memory, or the one in the store, or a new one. The answer of
`store.Get` matters where there is none in memory. -/
def touchLocked (dirty : SortedMap Bytes LedgerEntry) (answer : Except GoErr Bytes) (peerID : Bytes)
    (t : ℤ) : LedgerEntry :=
  match dirty.get peerID with
  | some e => { e with updatedAt := t }
  | none => { (loadEntry L answer).getD { peerID := peerID } with updatedAt := t }

end Code

/-! ## What happens step by step -/

/-- The ledger, its part of the store, and the flushes that are under way. -/
structure LedgerState where
  store : SortedMap Bytes Bytes
  /-- The entries in memory. -/
  dirty : SortedMap Bytes LedgerEntry
  /-- For each `Flush`, the entries that it has still to write. -/
  flushes : List (List LedgerEntry)

namespace LedgerState

/-- The answer of `store.Get` for a peer's entry, without a fault. -/
def read (s : LedgerState) (peerID : Bytes) : Except GoErr Bytes :=
  match s.store.get (ledgerKey peerID) with
  | some raw => .ok raw
  | none => .error errStoreNotFound

/-- The entries of a peer that flushes have still to write. -/
def pending (s : LedgerState) (peerID : Bytes) : List LedgerEntry :=
  s.flushes.flatten.filter fun e => e.peerID = peerID

/-- `IsOnline`, where the store answers. -/
def isOnline (L : Libs) (s : LedgerState) (peerID : Bytes) : Bool :=
  match s.dirty.get peerID with
  | some e => e.isOnline
  | none =>
    match loadEntry L (s.read peerID) with
    | some e => e.isOnline
    | none => false

/-- `RecordPing`, where the store answers. The clock shows `t` when the entry is touched, and then `t'`. -/
def recordPing (L : Libs) (s : LedgerState) (peerID : Bytes) (ok : Bool) (t t' : ℤ) :
    LedgerState × PingResult :=
  let e := touchLocked L s.dirty (s.read peerID) peerID t
  ({ s with dirty := s.dirty.put peerID (e.pinged ok t') }, e.pingResult ok t')

end LedgerState

/-- What can happen. A touch of an entry comes with the answer of `store.Get`. -/
inductive LedgerEvent
  /-- One of the four `Record` methods. -/
  | record (c : Counter) (peerID : Bytes) (n : ℤ) (answer : Except GoErr Bytes)
  /-- `RecordPing`. -/
  | ping (peerID : Bytes) (ok : Bool) (answer : Except GoErr Bytes)
  /-- A `Flush` takes the entries in memory. -/
  | flush
  /-- A `Flush` writes an entry. -/
  | write (e : LedgerEntry)
  /-- A `Flush` fails to write an entry and returns, with these entries not written. -/
  | failed (es : List LedgerEntry)

/-- An answer of `store.Get`: what is stored, or the error of a fault. -/
def LedgerState.Answers (s : LedgerState) (peerID : Bytes) (answer : Except GoErr Bytes) : Prop :=
  answer = s.read peerID ∨ ∃ e, answer = .error e

/-- One step of the ledger. The order in which a `Flush` goes through its map is any. -/
inductive LedgerStep (L : Libs) (s : LedgerState) : LedgerEvent → LedgerState → Prop
  | record (c : Counter) (peerID : Bytes) (n t : ℤ) {answer : Except GoErr Bytes}
      (h : s.Answers peerID answer) :
      LedgerStep L s (.record c peerID n answer)
        { s with dirty := s.dirty.put peerID ((touchLocked L s.dirty answer peerID t).add n c) }
  | ping (peerID : Bytes) (ok : Bool) (t t' : ℤ) {answer : Except GoErr Bytes}
      (h : s.Answers peerID answer) :
      LedgerStep L s (.ping peerID ok answer)
        { s with dirty := s.dirty.put peerID ((touchLocked L s.dirty answer peerID t).pinged ok t') }
  | flush {order : List LedgerEntry} (h : order.Perm (s.dirty.entries.map Prod.snd)) :
      LedgerStep L s .flush { s with dirty := .empty, flushes := order :: s.flushes }
  | write {e : LedgerEntry} {es : List LedgerEntry} {fs fs' : List (List LedgerEntry)}
      (h : s.flushes = fs ++ (e :: es) :: fs') :
      LedgerStep L s (.write e)
        { s with
          store := s.store.put (ledgerKey e.peerID) (L.cbor.ledgerEntry.marshal e)
          flushes := fs ++ es :: fs' }
  | failed {es : List LedgerEntry} {fs fs' : List (List LedgerEntry)}
      (h : s.flushes = fs ++ es :: fs') :
      LedgerStep L s (.failed es) { s with flushes := fs ++ fs' }

/-- A run of the ledger in which every step satisfies `P` where it is made. -/
inductive LedgerRun (L : Libs) (P : LedgerState → LedgerEvent → Prop) (s : LedgerState) :
    List LedgerEvent → LedgerState → Prop
  | nil : LedgerRun L P s [] s
  | snoc {evs : List LedgerEvent} {s' s'' : LedgerState} {e : LedgerEvent}
      (h : LedgerRun L P s evs s') (hP : P s' e) (hstep : LedgerStep L s' e s'') :
      LedgerRun L P s (evs ++ [e]) s''

/-- Nothing is in memory, and every `Flush` has finished. -/
def LedgerState.Quiet (s : LedgerState) : Prop := s.dirty.entries = [] ∧ s.flushes.flatten = []

/-- Every entry in the store is under the key of its peer, as `Flush` writes it. -/
def LedgerState.Filed (L : Libs) (s : LedgerState) : Prop :=
  ∀ peerID e, loadEntry L (s.read peerID) = some e → e.peerID = peerID

/-- The value of a counter in an entry, which is zero where there is none. -/
def counterOf (e : Option LedgerEntry) (c : Counter) : ℤ := (e.map fun e => e.counter c).getD 0

/-- The value of a peer's counter in the store. -/
def LedgerState.persisted (L : Libs) (s : LedgerState) (peerID : Bytes) (c : Counter) : ℤ :=
  counterOf (loadEntry L (s.read peerID)) c

/-- The amount that an event records on a peer's counter. -/
def LedgerEvent.amount (peerID : Bytes) (c : Counter) : LedgerEvent → ℤ
  | .record c' peerID' n _ => if peerID' = peerID ∧ c' = c then n else 0
  | _ => 0

/-- The sum of all amounts recorded on a peer's counter. -/
def recorded (peerID : Bytes) (c : Counter) (evs : List LedgerEvent) : ℤ :=
  (evs.map (LedgerEvent.amount peerID c)).sum

/-- A step does not lose anything of a peer: its entry is touched only when no `Flush` has one of it to
write, and no access to its part of the store fails. -/
def Lossless (peerID : Bytes) (s : LedgerState) : LedgerEvent → Prop
  | .record _ peerID' _ answer | .ping peerID' _ answer =>
    peerID' = peerID → s.pending peerID = [] ∧ answer = s.read peerID
  | .failed es => ∀ e ∈ es, e.peerID ≠ peerID
  | _ => True

/-! ## Entries -/

section Entries

variable {L : Libs} {s s' : LedgerState} {peerID : Bytes}

/-- Sums wrap once. -/
theorem wrap64_add_wrap64 (a n : ℤ) : wrap64 (wrap64 a + n) = wrap64 (a + n) := by
  unfold wrap64
  exact Int.bmod_add_bmod

/-- Wrapping twice. -/
@[simp] theorem wrap64_wrap64 (a : ℤ) : wrap64 (wrap64 a) = wrap64 a := by
  unfold wrap64
  exact Int.bmod_bmod

/-- Counting keeps the peer. -/
@[simp] theorem LedgerEntry.peerID_add (e : LedgerEntry) (n : ℤ) (c : Counter) :
    (e.add n c).peerID = e.peerID := by
  cases c <;> rfl

/-- Adding to a counter changes that one. -/
theorem LedgerEntry.counter_add (e : LedgerEntry) (n : ℤ) (c c' : Counter) :
    wrap64 ((e.add n c).counter c') = wrap64 (e.counter c' + if c = c' then n else 0) := by
  cases c <;> cases c' <;> simp [LedgerEntry.add, LedgerEntry.counter]

/-- So does a ping. -/
@[simp] theorem LedgerEntry.peerID_pinged (e : LedgerEntry) (ok : Bool) (t : ℤ) :
    (e.pinged ok t).peerID = e.peerID := by
  unfold LedgerEntry.pinged
  dsimp only
  split_ifs <;> rfl

/-- A ping changes no counter. -/
@[simp] theorem LedgerEntry.counter_pinged (e : LedgerEntry) (ok : Bool) (t : ℤ) (c : Counter) :
    (e.pinged ok t).counter c = e.counter c := by
  unfold LedgerEntry.pinged
  dsimp only
  cases c <;> split_ifs <;> rfl

/-- Keys of different peers are different. -/
theorem ledgerKey_inj {p p' : Bytes} (h : ledgerKey p = ledgerKey p') : p = p' :=
  List.append_cancel_left h

/-- The entry of another peer is read as before. -/
theorem LedgerState.read_put_ne {p p' raw : Bytes} (h : p' ≠ p) (s : LedgerState)
    (fs : List (List LedgerEntry)) :
    LedgerState.read { s with store := s.store.put (ledgerKey p) raw, flushes := fs } p' =
      s.read p' := by
  unfold LedgerState.read
  simp only
  rw [SortedMap.get_put_ne _ (fun hkey => h (ledgerKey_inj hkey))]

/-- An entry that was written is loaded with its times in seconds. -/
theorem LedgerState.load_put (hC : L.cbor.Lawful) (s : LedgerState) (e : LedgerEntry)
    (fs : List (List LedgerEntry)) :
    loadEntry L (LedgerState.read { s with
        store := s.store.put (ledgerKey e.peerID) (L.cbor.ledgerEntry.marshal e)
        flushes := fs } e.peerID) = if validUTF8 e.peerID then some e.norm else none := by
  have hread : LedgerState.read { s with
      store := s.store.put (ledgerKey e.peerID) (L.cbor.ledgerEntry.marshal e)
      flushes := fs } e.peerID = .ok (L.cbor.ledgerEntry.marshal e) := by
    unfold LedgerState.read
    simp only [SortedMap.get_put_self]
  have hdec := hC.ledgerEntry e
  rw [hread]
  unfold loadEntry
  by_cases hvalid : validUTF8 e.peerID = true
  · rw [if_pos hvalid]
    rw [if_pos (show e.validText = true from hvalid)] at hdec
    simp [hdec, Except.toOption]
  · rw [if_neg hvalid]
    rw [if_neg (show ¬ e.validText = true from hvalid)] at hdec
    obtain ⟨err, herr⟩ := hdec
    simp [herr, Except.toOption]

end Entries
/-! ## Nothing is lost -/

section Runs

variable {L : Libs} {s s' : LedgerState} {peerID : Bytes}
variable {e : LedgerEntry} {es : List LedgerEntry} {fs fs' : List (List LedgerEntry)} {total : Counter → ℤ}

/-- The entry that counts for a peer: the one in memory, or one that is still to be written, or the one in
the store. -/
def LedgerState.current (L : Libs) (s : LedgerState) (peerID : Bytes) : Option LedgerEntry :=
  (s.dirty.get peerID).or ((s.pending peerID).head?.or (loadEntry L (s.read peerID)))

/-- What every state satisfies: entries are under the key of their peer. -/
structure LedgerState.Keyed (L : Libs) (s : LedgerState) : Prop where
  filed : s.Filed L
  dirty : ∀ peerID e, s.dirty.get peerID = some e → e.peerID = peerID

/-- There is one entry of the peer at most besides the one in the store, and the entry that counts has
the values `total`. -/
structure LedgerState.Counts (L : Libs) (peerID : Bytes) (total : Counter → ℤ) (s : LedgerState) :
    Prop where
  single : (s.pending peerID).length ≤ 1
  apart : s.dirty.get peerID ≠ none → s.pending peerID = []
  value : ∀ c, wrap64 (counterOf (s.current L peerID) c) = wrap64 (total c)

/-- The entry that is touched is one of the peer. -/
theorem peerID_touchLocked (h : s.Keyed L) {answer : Except GoErr Bytes} (hans : s.Answers peerID answer)
    (t : ℤ) : (touchLocked L s.dirty answer peerID t).peerID = peerID := by
  unfold touchLocked
  cases hd : s.dirty.get peerID with
  | some e => exact h.dirty peerID e hd
  | none =>
    simp only
    rcases hans with rfl | ⟨err, rfl⟩
    · cases hl : loadEntry L (s.read peerID) with
      | some e => exact h.filed peerID e hl
      | none => rfl
    · rfl

/-- The entry that is touched has the values of the one that counts, if none is still to be written and
the store answers. -/
theorem counter_touchLocked (hpend : s.pending peerID = []) (t : ℤ) (c : Counter) :
    (touchLocked L s.dirty (s.read peerID) peerID t).counter c =
      counterOf (s.current L peerID) c := by
  unfold touchLocked LedgerState.current counterOf
  rw [hpend]
  cases s.dirty.get peerID with
  | some e => cases c <;> rfl
  | none =>
    cases loadEntry L (s.read peerID) with
    | some e => cases c <;> rfl
    | none => cases c <;> rfl

/-- The entries in memory of one peer. -/
theorem filter_dirty (h : s.Keyed L) (peerID : Bytes) :
    (s.dirty.entries.map Prod.snd).filter (fun e => e.peerID = peerID) =
      (s.dirty.get peerID).toList := by
  have hcongr : s.dirty.entries.filter ((fun e : LedgerEntry => decide (e.peerID = peerID)) ∘ Prod.snd) =
      s.dirty.entries.filter (fun kv => kv.1 = peerID) := by
    refine List.filter_congr fun kv hkv => ?_
    have hkey := h.dirty kv.1 kv.2 ((SortedMap.mem_entries_iff _ _ _).mp hkv)
    simp [hkey]
  rw [List.filter_map, hcongr, SortedMap.filter_key_eq]
  cases s.dirty.get peerID <;> rfl

/-- The entries of one peer that a `Flush` takes over. -/
theorem filter_order (h : s.Keyed L) (peerID : Bytes) {order : List LedgerEntry}
    (hperm : order.Perm (s.dirty.entries.map Prod.snd)) :
    order.filter (fun e => e.peerID = peerID) = (s.dirty.get peerID).toList := by
  have hp := hperm.filter fun e => e.peerID = peerID
  rw [filter_dirty h] at hp
  cases hd : s.dirty.get peerID with
  | none =>
    rw [hd] at hp
    exact hp.eq_nil
  | some e =>
    rw [hd] at hp
    exact List.perm_singleton.mp hp

/-- The entries of one peer, where an entry of a `Flush` is written. -/
theorem pending_write (h : s.flushes = fs ++ (e :: es) :: fs') (peerID : Bytes) :
    ∃ before after, s.pending peerID = before ++ (if e.peerID = peerID then [e] else []) ++ after ∧
      (fs ++ es :: fs').flatten.filter (fun e => e.peerID = peerID) = before ++ after := by
  refine ⟨fs.flatten.filter (fun e => e.peerID = peerID),
    (es ++ fs'.flatten).filter (fun e => e.peerID = peerID), ?_, ?_⟩
  · unfold LedgerState.pending
    rw [h]
    by_cases he : e.peerID = peerID
    · simp [he]
    · simp [he]
  · simp

/-- A new entry in memory, under the key of its peer. -/
theorem LedgerState.Keyed.put (h : s.Keyed L) {p : Bytes} (he : e.peerID = p) :
    LedgerState.Keyed L { s with dirty := s.dirty.put p e } := by
  refine ⟨h.filed, fun q e' hq => ?_⟩
  by_cases hqp : q = p
  · subst hqp
    rw [SortedMap.get_put_self] at hq
    rw [← Option.some.inj hq, he]
  · rw [SortedMap.get_put_ne _ hqp] at hq
    exact h.dirty q e' hq

/-- Entries stay under the key of their peer. -/
theorem LedgerStep.keyed (hC : L.cbor.Lawful) {e : LedgerEvent} (hstep : LedgerStep L s e s')
    (h : s.Keyed L) : s'.Keyed L := by
  cases hstep with
  | record c p n t hans => exact h.put (by rw [LedgerEntry.peerID_add, peerID_touchLocked h hans])
  | ping p ok t t' hans => exact h.put (by rw [LedgerEntry.peerID_pinged, peerID_touchLocked h hans])
  | flush hperm =>
    exact ⟨h.filed, fun q e hq => absurd hq (by simp)⟩
  | @write e es fs fs' hfs =>
    refine ⟨fun q e' hq => ?_, h.dirty⟩
    by_cases hqp : q = e.peerID
    · subst hqp
      rw [LedgerState.load_put hC] at hq
      split_ifs at hq
      rw [← Option.some.inj hq]
      rfl
    · rw [LedgerState.read_put_ne hqp] at hq
      exact h.filed q e' hq
  | failed hfs => exact ⟨h.filed, h.dirty⟩

/-- A touch of the peer's entry, when none is still to be written: the new entry counts. -/
theorem LedgerState.Counts.touch {total' : Counter → ℤ} {p : Bytes} (h : s.Counts L peerID total)
    (hother : p ≠ peerID → ∀ c, wrap64 (total c) = wrap64 (total' c))
    (hpeer : p = peerID → s.pending peerID = [] ∧ ∀ c, wrap64 (e.counter c) = wrap64 (total' c)) :
    LedgerState.Counts L peerID total' { s with dirty := s.dirty.put p e } := by
  by_cases hp : p = peerID
  · subst hp
    obtain ⟨hpend, hval⟩ := hpeer rfl
    refine ⟨h.single, fun _ => hpend, fun c => ?_⟩
    have hcur : LedgerState.current L { s with dirty := s.dirty.put p e } p = some e := by
      unfold LedgerState.current
      rw [SortedMap.get_put_self]
      rfl
    rw [hcur]
    exact hval c
  · have hget : (s.dirty.put p e).get peerID = s.dirty.get peerID :=
      SortedMap.get_put_ne _ (Ne.symm hp) _
    refine ⟨h.single, fun hne => h.apart (hget ▸ hne), fun c => ?_⟩
    have hcur : LedgerState.current L { s with dirty := s.dirty.put p e } peerID =
        s.current L peerID := by
      unfold LedgerState.current
      rw [hget]
      rfl
    rw [hcur, h.value c, hother hp c]

/-- A step that leaves the entries of the peer where they are. -/
theorem LedgerState.Counts.congr (h : s.Counts L peerID total)
    (hdirty : s'.dirty.get peerID = s.dirty.get peerID) (hpending : s'.pending peerID = s.pending peerID)
    (hread : s'.read peerID = s.read peerID) : s'.Counts L peerID total where
  single := by
    rw [hpending]
    exact h.single
  apart hne := by
    rw [hdirty] at hne
    rw [hpending]
    exact h.apart hne
  value c := by
    rw [← h.value c]
    unfold LedgerState.current
    rw [hdirty, hpending, hread]

/-- `Flush` takes the entry in memory over, to be written. -/
theorem LedgerState.Counts.flush {order : List LedgerEntry} (hkeyed : s.Keyed L)
    (hperm : order.Perm (s.dirty.entries.map Prod.snd)) (h : s.Counts L peerID total) :
    LedgerState.Counts L peerID total { s with dirty := .empty, flushes := order :: s.flushes } := by
  have hpending : LedgerState.pending { s with dirty := .empty, flushes := order :: s.flushes } peerID =
      (s.dirty.get peerID).toList ++ s.pending peerID := by
    unfold LedgerState.pending
    simp only [List.flatten_cons, List.filter_append, filter_order hkeyed peerID hperm]
  have hnone : (SortedMap.empty : SortedMap Bytes LedgerEntry).get peerID = none := rfl
  refine ⟨?_, fun hne => absurd hnone hne, fun c => ?_⟩
  · rw [hpending]
    cases hd : s.dirty.get peerID with
    | none => exact h.single
    | some e => simp [h.apart (by simp [hd])]
  · have hcur : LedgerState.current L { s with dirty := .empty, flushes := order :: s.flushes } peerID =
        s.current L peerID := by
      unfold LedgerState.current
      rw [hpending, hnone]
      cases hd : s.dirty.get peerID with
      | none => rfl
      | some e => rfl
    rw [hcur, h.value c]

/-- One entry of a `Flush` is written. -/
theorem LedgerState.Counts.write (hC : L.cbor.Lawful) (hvalid : validUTF8 peerID = true)
    (hfs : s.flushes = fs ++ (e :: es) :: fs') (h : s.Counts L peerID total) :
    LedgerState.Counts L peerID total { s with
      store := s.store.put (ledgerKey e.peerID) (L.cbor.ledgerEntry.marshal e)
      flushes := fs ++ es :: fs' } := by
  obtain ⟨before, after, hbefore, hafter⟩ := pending_write hfs peerID
  by_cases he : e.peerID = peerID
  · -- The one entry of the peer is in the store from here on.
    subst he
    rw [if_pos rfl] at hbefore
    have hlen := h.single
    rw [hbefore, List.length_append, List.length_append, List.length_singleton] at hlen
    have hb : before = [] := List.length_eq_zero_iff.mp (by omega)
    have ha : after = [] := List.length_eq_zero_iff.mp (by omega)
    subst hb ha
    have hdirty : s.dirty.get e.peerID = none := by
      by_contra hne
      exact absurd (h.apart hne) (by rw [hbefore]; simp)
    have hpending : LedgerState.pending { s with
        store := s.store.put (ledgerKey e.peerID) (L.cbor.ledgerEntry.marshal e)
        flushes := fs ++ es :: fs' } e.peerID = [] := hafter
    refine ⟨by rw [hpending]; simp, fun _ => hpending, fun c => ?_⟩
    rw [← h.value c]
    unfold LedgerState.current
    rw [hbefore, hdirty, hpending, LedgerState.load_put hC, if_pos hvalid]
    cases c <;> rfl
  · rw [if_neg he, List.append_nil] at hbefore
    exact h.congr rfl (hafter.trans hbefore.symm) (LedgerState.read_put_ne (Ne.symm he) _ _)

/-- A `Flush` that stops leaves the peer as it is, if it has nothing of the peer to write. -/
theorem LedgerState.Counts.failed (hfs : s.flushes = fs ++ es :: fs') (hes : ∀ e ∈ es, e.peerID ≠ peerID)
    (h : s.Counts L peerID total) : LedgerState.Counts L peerID total { s with flushes := fs ++ fs' } := by
  refine h.congr rfl ?_ rfl
  have hnone : es.filter (fun e => e.peerID = peerID) = [] := by
    rw [List.filter_eq_nil_iff]
    intro e he heq
    exact hes e he (of_decide_eq_true heq)
  unfold LedgerState.pending
  rw [hfs]
  simp [hnone]

/-- A step that loses nothing keeps account of what was recorded. -/
theorem LedgerStep.counts (hC : L.cbor.Lawful) (hvalid : validUTF8 peerID = true) {e : LedgerEvent}
    (hstep : LedgerStep L s e s') (hkeyed : s.Keyed L) (hclean : Lossless peerID s e)
    (h : s.Counts L peerID total) :
    s'.Counts L peerID fun c => total c + e.amount peerID c := by
  cases hstep with
  | @record c p n t answer hans =>
    refine h.touch (fun hp c' => ?_) fun hp => ?_
    · have : LedgerEvent.amount peerID c' (.record c p n answer) = 0 := if_neg fun hpc => hp hpc.1
      rw [this, add_zero]
    · subst hp
      obtain ⟨hpend, rfl⟩ := hclean rfl
      refine ⟨hpend, fun c' => ?_⟩
      have hamount : LedgerEvent.amount p c' (.record c p n (s.read p)) = if c = c' then n else 0 := by
        simp [LedgerEvent.amount]
      rw [LedgerEntry.counter_add, counter_touchLocked hpend, ← wrap64_add_wrap64, h.value,
        wrap64_add_wrap64, hamount]
  | @ping p ok t t' answer hans =>
    have hamount : ∀ c, LedgerEvent.amount peerID c (.ping p ok answer) = 0 := fun _ => rfl
    refine h.touch (fun hp c' => by rw [hamount, add_zero]) fun hp => ?_
    subst hp
    obtain ⟨hpend, rfl⟩ := hclean rfl
    refine ⟨hpend, fun c' => ?_⟩
    rw [LedgerEntry.counter_pinged, counter_touchLocked hpend, h.value, hamount, add_zero]
  -- The other steps record nothing.
  | flush hperm => simpa only [LedgerEvent.amount, add_zero] using h.flush hkeyed hperm
  | write hfs => simpa only [LedgerEvent.amount, add_zero] using h.write hC hvalid hfs
  | failed hfs => simpa only [LedgerEvent.amount, add_zero] using h.failed hfs hclean

/-- A run that loses nothing keeps account of what was recorded. -/
theorem LedgerRun.counts (hC : L.cbor.Lawful) (hvalid : validUTF8 peerID = true)
    {evs : List LedgerEvent} (hrun : LedgerRun L (Lossless peerID) s evs s') (hkeyed : s.Keyed L)
    (h : s.Counts L peerID fun c => s.persisted L peerID c) :
    s'.Keyed L ∧ s'.Counts L peerID fun c => s.persisted L peerID c + recorded peerID c evs := by
  induction hrun with
  | nil => exact ⟨hkeyed, by simpa [recorded] using h⟩
  | snoc _ hP hstep ih =>
    obtain ⟨hk, hc⟩ := ih
    refine ⟨hstep.keyed hC hk, ?_⟩
    have := hstep.counts hC hvalid hk hP hc
    simpa [recorded, add_assoc] using this

/-- A ledger that has just been opened over a store. -/
def LedgerState.opened (store : SortedMap Bytes Bytes) : LedgerState := ⟨store, .empty, []⟩

/-- An opened ledger is keyed if its store is filed. -/
theorem LedgerState.Filed.keyed {store : SortedMap Bytes Bytes} (h : (LedgerState.opened store).Filed L) :
    (LedgerState.opened store).Keyed L :=
  ⟨h, fun _ _ hq => absurd hq (by simp [LedgerState.opened])⟩

/-- Nothing is in an empty store. -/
theorem filed_empty : (LedgerState.opened .empty).Filed L := by
  intro p e he
  simp [LedgerState.opened, LedgerState.read, loadEntry] at he

/-- Once every `Flush` has finished, the entry in the store counts. -/
theorem LedgerState.Quiet.counterOf_current (h : s.Quiet) (c : Counter) :
    counterOf (s.current L peerID) c = s.persisted L peerID c := by
  have hdirty : s.dirty.get peerID = none := by
    unfold SortedMap.get
    rw [h.1]
    rfl
  have hpend : s.pending peerID = [] := by
    unfold LedgerState.pending
    rw [h.2]
    rfl
  unfold LedgerState.current
  rw [hdirty, hpend]
  rfl

/-- From a ledger that has just been opened, over any run in which no step loses anything of a peer, once
every flush has finished and nothing is in memory, each counter of the peer in the store is its initial
value plus all amounts recorded on it, as `int64` values. -/
theorem persisted_eq_recorded (hC : L.cbor.Lawful) {store : SortedMap Bytes Bytes}
    (hfiled : (LedgerState.opened store).Filed L) (hvalid : validUTF8 peerID = true)
    {evs : List LedgerEvent} (hrun : LedgerRun L (Lossless peerID) (.opened store) evs s')
    (hquiet : s'.Quiet) (c : Counter) :
    wrap64 (s'.persisted L peerID c) =
      wrap64 ((LedgerState.opened store).persisted L peerID c + recorded peerID c evs) := by
  have hkeyed : (LedgerState.opened store).Keyed L := hfiled.keyed
  have hcounts : (LedgerState.opened store).Counts L peerID
      fun c => (LedgerState.opened store).persisted L peerID c :=
    ⟨by simp [LedgerState.opened, LedgerState.pending], fun _ => rfl, fun _ => rfl⟩
  obtain ⟨-, hc⟩ := hrun.counts hC hvalid hkeyed hcounts
  rw [← hc.value c, hquiet.counterOf_current]

end Runs

/-! ## Who is online -/

section Online

variable {L : Libs} {s : LedgerState} {p q : Bytes} {ok : Bool} {t t' : ℤ}

/-- Whoever is online has been probed. -/
def LedgerState.Probed (L : Libs) (s : LedgerState) : Prop :=
  ∀ p t, (touchLocked L s.dirty (s.read p) p t).lastPingAt = zeroTime → s.isOnline L p = false

/-- Touching an entry keeps it online or not. -/
theorem LedgerState.isOnline_touchLocked (s : LedgerState) (p : Bytes) (t : ℤ) :
    (touchLocked L s.dirty (s.read p) p t).isOnline = s.isOnline L p := by
  unfold touchLocked LedgerState.isOnline
  cases s.dirty.get p with
  | some e => rfl
  | none => cases loadEntry L (s.read p) <;> rfl

/-- A ping sets whether its peer is online. -/
theorem LedgerState.isOnline_recordPing_self :
    (s.recordPing L p ok t t').1.isOnline L p =
      ((touchLocked L s.dirty (s.read p) p t).pinged ok t').isOnline := by
  unfold LedgerState.isOnline LedgerState.recordPing
  simp only [SortedMap.get_put_self]

/-- It changes nothing of other peers. -/
theorem LedgerState.isOnline_recordPing_ne (h : q ≠ p) :
    (s.recordPing L p ok t t').1.isOnline L q = s.isOnline L q := by
  unfold LedgerState.isOnline LedgerState.recordPing
  simp only [SortedMap.get_put_ne _ h]
  rfl

/-- The time of the last ping. -/
theorem LedgerEntry.lastPingAt_pinged (e : LedgerEntry) : (e.pinged ok t).lastPingAt = t := by
  unfold LedgerEntry.pinged
  dsimp only
  split_ifs <;> rfl

/-- A ping leaves whoever is online probed. -/
theorem LedgerState.Probed.recordPing (h : s.Probed L) (ht : t' ≠ zeroTime) :
    (s.recordPing L p ok t t').1.Probed L := by
  intro q u hzero
  by_cases hq : q = p
  · subst hq
    unfold LedgerState.recordPing touchLocked at hzero
    simp only [SortedMap.get_put_self, LedgerEntry.lastPingAt_pinged] at hzero
    exact absurd hzero ht
  · rw [LedgerState.isOnline_recordPing_ne hq]
    refine h q u ?_
    unfold LedgerState.recordPing touchLocked at hzero
    simp only [SortedMap.get_put_ne _ hq] at hzero
    exact hzero

/-- A peer that was online and has not gone offline is online. -/
theorem LedgerState.isOnline_of_not_wentOffline (hprobed : s.Probed L)
    (h : (s.recordPing L p ok t t').2.wentOffline = false) (hon : s.isOnline L p = true) :
    (s.recordPing L p ok t t').1.isOnline L p = true := by
  have hping : (touchLocked L s.dirty (s.read p) p t).lastPingAt ≠ zeroTime := by
    intro hzero
    rw [hprobed p t hzero] at hon
    exact absurd hon (by simp)
  rw [LedgerState.isOnline_recordPing_self]
  unfold LedgerState.recordPing LedgerEntry.pingResult at h
  dsimp only at h
  rw [if_neg hping, LedgerState.isOnline_touchLocked, hon, Bool.true_and] at h
  simpa using h

end Online

/-! ## A record during a flush -/

/-- The entry of a peer of which only some stored bytes are counted. -/
def sampleEntry (n : ℤ) : LedgerEntry := { peerID := lit "bob", storedForThemBytes := n, updatedAt := 0 }

/-- The entry is in the store after it was written, with what it counts. -/
theorem persisted_sampleEntry (s : LedgerState) (n : ℤ) (fs : List (List LedgerEntry)) :
    LedgerState.persisted sampleLibs { s with
      store := s.store.put (ledgerKey (lit "bob")) (sampleLibs.cbor.ledgerEntry.marshal (sampleEntry n))
      flushes := fs } (lit "bob") .storedForThem = n := by
  have hload := LedgerState.load_put (L := sampleLibs) sampleCbor_lawful s (sampleEntry n) fs
  rw [show (sampleEntry n).peerID = lit "bob" from rfl, if_pos (by decide)] at hload
  unfold LedgerState.persisted
  rw [hload]
  rfl

/-- No access to the store fails. -/
def Faultless (s : LedgerState) : LedgerEvent → Prop
  | .record _ peerID _ answer | .ping peerID _ answer => answer = s.read peerID
  | .failed _ => False
  | _ => True

/-- The last `Flush` that was started writes an entry. -/
theorem LedgerStep.write_head {L : Libs} {s : LedgerState} {e : LedgerEntry} {es : List LedgerEntry}
    {fs : List (List LedgerEntry)} (h : s.flushes = (e :: es) :: fs) :
    LedgerStep L s (.write e)
      { s with
        store := s.store.put (ledgerKey e.peerID) (L.cbor.ledgerEntry.marshal e)
        flushes := es :: fs } := by
  have h' : s.flushes = [] ++ (e :: es) :: fs := h
  exact .write h'

/-- Five bytes are recorded and a flush takes the entry; seven more are recorded before the flush has
written it. After both flushes the store has the seven only, though nothing failed. -/
theorem sampleLedger_loses :
    ∃ evs s', LedgerRun sampleLibs Faultless (.opened .empty) evs s' ∧ s'.Quiet ∧
      (LedgerState.opened .empty).persisted sampleLibs (lit "bob") .storedForThem = 0 ∧
      recorded (lit "bob") .storedForThem evs = 12 ∧
      s'.persisted sampleLibs (lit "bob") .storedForThem = 7 := by
  have h0 : LedgerRun sampleLibs Faultless (.opened .empty) [] (.opened .empty) := .nil
  have h1 := h0.snoc (e := .record .storedForThem (lit "bob") 5 (.error errStoreNotFound)) rfl
    (.record _ _ _ 0 (.inl rfl))
  have h2 := h1.snoc (e := .flush) trivial (.flush (.refl _))
  have h3 := h2.snoc (e := .record .storedForThem (lit "bob") 7 (.error errStoreNotFound)) rfl
    (.record _ _ _ 0 (.inl rfl))
  have h4 := h3.snoc (e := .write (sampleEntry 5)) trivial (.write_head rfl)
  have h5 := h4.snoc (e := .flush) trivial (.flush (.refl _))
  have h6 := h5.snoc (e := .write (sampleEntry 7)) trivial (.write_head rfl)
  exact ⟨_, _, h6, ⟨rfl, rfl⟩, rfl, rfl, persisted_sampleEntry _ 7 _⟩

/-- If a record comes after the flush of an earlier one, the store has both. -/
theorem sampleLedger_keeps :
    ∃ evs s', LedgerRun sampleLibs (Lossless (lit "bob")) (.opened .empty) evs s' ∧ s'.Quiet ∧
      recorded (lit "bob") .storedForThem evs = 12 ∧
      wrap64 (s'.persisted sampleLibs (lit "bob") .storedForThem) = 12 := by
  have h0 : LedgerRun sampleLibs (Lossless (lit "bob")) (.opened .empty) [] (.opened .empty) := .nil
  have h1 := h0.snoc (e := .record .storedForThem (lit "bob") 5 (.error errStoreNotFound))
    (fun _ => ⟨rfl, rfl⟩) (.record _ _ _ 0 (.inl rfl))
  have h2 := h1.snoc (e := .flush) trivial (.flush (.refl _))
  have h3 := h2.snoc (e := .write (sampleEntry 5)) trivial (.write_head rfl)
  have h4 := h3.snoc (e := .record .storedForThem (lit "bob") 7
    (.ok (sampleLibs.cbor.ledgerEntry.marshal (sampleEntry 5)))) (fun _ => ⟨rfl, rfl⟩)
    (.record _ _ _ 0 (.inl rfl))
  have h5 := h4.snoc (e := .flush) trivial (.flush (.refl _))
  have h6 := h5.snoc (e := .write _) trivial (.write_head rfl)
  refine ⟨_, _, h6, ⟨rfl, rfl⟩, rfl, ?_⟩
  exact persisted_eq_recorded sampleCbor_lawful filed_empty (by decide) h6 ⟨rfl, rfl⟩ .storedForThem

end FnShare
