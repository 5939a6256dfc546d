import FnShare.Ledger.Flush
import Mathlib.Data.List.Chain
import Mathlib.Data.List.TakeWhile

/-!
# The probes of a peer

`RecordPing` keeps five fields of an entry that say how the probes of the peer went, and reports when the
peer goes offline or comes back; the heartbeat passes the reports on (`onTransition`). What the fields say
is a function of the results of the probes, oldest first (`LedgerEntry.Tracks`), and stays so when the entry
is changed by traffic, or written and loaded again (`liveness_of_history`).

A peer has to have been online to go offline. So of the first probes, three failures in a row are not
reported (`callback_at_threshold_iff`).
-/

namespace FnShare

/-! ## Histories -/

/-- A reading of the clock. It is not in the first second of the year 1, whose beginning is the zero time. -/
def ClockTime : Type := { t : ℤ // wholeSeconds t ≠ zeroTime }

/-- The number of failures since the last success, of the results of probes. -/
def failuresSince (hist : List Bool) : ℕ := (hist.reverse.takeWhile (!·)).length

/-- No failures yet. -/
@[simp] theorem failuresSince_nil : failuresSince [] = 0 := rfl

/-- A success starts anew. -/
@[simp] theorem failuresSince_success (hist : List Bool) : failuresSince (hist ++ [true]) = 0 := by
  simp [failuresSince]

/-- One more failure. -/
@[simp] theorem failuresSince_failure (hist : List Bool) :
    failuresSince (hist ++ [false]) = failuresSince hist + 1 := by
  simp [failuresSince]

/-- Without a success, all probes have failed. -/
theorem failuresSince_of_not_mem {hist : List Bool} (h : true ∉ hist) :
    failuresSince hist = hist.length := by
  have hall : ∀ b ∈ hist.reverse, (!b) = true := by
    intro b hb
    cases b with
    | false => rfl
    | true => exact absurd (List.mem_reverse.mp hb) h
  rw [failuresSince, List.takeWhile_eq_self_iff.mpr hall, List.length_reverse]

/-! ## What an entry says -/

/-- An entry says how the probes of its peer went. -/
structure LedgerEntry.Tracks (e : LedgerEntry) (hist : List Bool) : Prop where
  unprobed : hist = [] → e.lastPingAt = zeroTime
  probed : hist ≠ [] → wholeSeconds e.lastPingAt ≠ zeroTime
  failures : e.consecFailures = wrap64 (failuresSince hist)
  online : e.isOnline = true ↔ true ∈ hist ∧ (failuresSince hist : ℤ) < offlineThreshold
  up : (failuresSince hist : ℤ) < offlineThreshold → e.offlineSince = zeroTime
  down : offlineThreshold ≤ (failuresSince hist : ℤ) → wholeSeconds e.offlineSince ≠ zeroTime
  reputation : hist ≠ [] → reputationMin ≤ e.reputation ∧ e.reputation ≤ reputationMax

section Tracks

variable {e : LedgerEntry} {hist : List Bool}

/-- The zero time is whole. -/
theorem wholeSeconds_zeroTime : wholeSeconds zeroTime = zeroTime := by decide

/-- Cutting a time twice. -/
theorem wholeSeconds_wholeSeconds (t : ℤ) : wholeSeconds (wholeSeconds t) = wholeSeconds t := by
  unfold wholeSeconds unix
  omega

/-- A new entry is one of a peer that was not probed. -/
theorem tracks_new (p : Bytes) : LedgerEntry.Tracks { peerID := p } [] := by
  constructor <;> simp [offlineThreshold, wrap64]

/-- Other fields do not matter. -/
theorem LedgerEntry.Tracks.add (h : e.Tracks hist) (n : ℤ) (c : Counter) : (e.add n c).Tracks hist := by
  cases c <;> exact ⟨h.unprobed, h.probed, h.failures, h.online, h.up, h.down, h.reputation⟩

/-- The time of the update does not matter. -/
theorem LedgerEntry.Tracks.updated (h : e.Tracks hist) (t : ℤ) :
    LedgerEntry.Tracks { e with updatedAt := t } hist :=
  ⟨h.unprobed, h.probed, h.failures, h.online, h.up, h.down, h.reputation⟩

/-- An entry says the same with its times in whole seconds. -/
theorem LedgerEntry.Tracks.norm (h : e.Tracks hist) : e.norm.Tracks hist where
  unprobed hnil := by
    simp only [LedgerEntry.norm, h.unprobed hnil, wholeSeconds_zeroTime]
  probed hne := by
    simp only [LedgerEntry.norm, wholeSeconds_wholeSeconds]
    exact h.probed hne
  failures := h.failures
  online := h.online
  up hlt := by
    simp only [LedgerEntry.norm, h.up hlt, wholeSeconds_zeroTime]
  down hle := by
    simp only [LedgerEntry.norm, wholeSeconds_wholeSeconds]
    exact h.down hle
  reputation := h.reputation

/-- A gain stays in range. -/
theorem gain_range {rep : ℤ} (h : reputationMin ≤ rep ∧ rep ≤ reputationMax) :
    reputationMin ≤ LedgerEntry.gain rep ∧ LedgerEntry.gain rep ≤ reputationMax := by
  unfold LedgerEntry.gain
  simp only [reputationMin, reputationMax, reputationGainOnPing] at *
  split_ifs <;> omega

/-- A loss stays in range. -/
theorem lose_range {rep : ℤ} (h : reputationMin ≤ rep ∧ rep ≤ reputationMax) :
    reputationMin ≤ LedgerEntry.lose rep ∧ LedgerEntry.lose rep ≤ reputationMax := by
  unfold LedgerEntry.lose
  simp only [reputationMin, reputationMax, reputationLossOnFail] at *
  split_ifs <;> omega

/-- Where the count of the failures has wrapped, there were more than enough of them. -/
theorem failures_of_wrapped {n : ℕ} (h : ¬ offlineThreshold ≤ wrap64 (n + 1))
    (hle : offlineThreshold ≤ (n : ℤ) + 1) : offlineThreshold ≤ (n : ℤ) := by
  unfold offlineThreshold at *
  by_contra hlt
  rw [wrap64_of_range (by omega) (by omega)] at h
  omega

/-- A probe, and what the entry says after it. -/
theorem LedgerEntry.Tracks.pinged (h : e.Tracks hist) (ok : Bool) (t : ClockTime) :
    (e.pinged ok t.1).Tracks (hist ++ [ok]) := by
  -- The reputation that the probe starts from is in range, also at the first probe.
  have hrep : reputationMin ≤ (if e.lastPingAt = zeroTime then reputationBaseline else e.reputation) ∧
      (if e.lastPingAt = zeroTime then reputationBaseline else e.reputation) ≤ reputationMax := by
    split_ifs with hzero
    · decide
    · exact h.reputation fun hnil => hzero (h.unprobed hnil)
  unfold LedgerEntry.pinged
  generalize (if e.lastPingAt = zeroTime then reputationBaseline else e.reputation) = rep at hrep ⊢
  cases ok with
  | true =>
    simp only [if_true]
    refine ⟨by simp, fun _ => t.2, by simp [wrap64], by simp [offlineThreshold], fun _ => rfl, ?_,
      fun _ => gain_range hrep⟩
    simp [offlineThreshold]
  | false =>
    have hcount : wrap64 (e.consecFailures + 1) = wrap64 (failuresSince hist + 1) := by
      rw [h.failures, wrap64_add_wrap64]
    have hwrap : wrap64 (failuresSince hist + 1) ≤ failuresSince hist + 1 := wrap64_le (by omega)
    have hsince : ((failuresSince (hist ++ [false]) : ℕ) : ℤ) = failuresSince hist + 1 := by
      rw [failuresSince_failure]
      rfl
    have hfailures : wrap64 (e.consecFailures + 1) = wrap64 (failuresSince (hist ++ [false])) := by
      rw [hcount, hsince]
    simp only [Bool.false_eq_true, if_false]
    by_cases hle : offlineThreshold ≤ wrap64 (e.consecFailures + 1)
    · -- The peer is found offline.
      rw [if_pos hle]
      rw [hcount] at hle
      refine ⟨by simp, fun _ => t.2, hfailures, ?_, ?_, ?_, fun _ => lose_range hrep⟩
      · rw [hsince]
        constructor
        · intro habs
          exact absurd habs (by simp)
        · rintro ⟨-, hlt⟩
          omega
      · intro hlt
        omega
      · intro _
        by_cases hzero : e.offlineSince = zeroTime
        · simp only [hzero, if_true]
          exact t.2
        · simp only [hzero, if_false]
          refine h.down (not_lt.mp fun hlt => hzero (h.up hlt))
    · -- Too few failures yet, or so many that the count has wrapped.
      rw [if_neg hle]
      rw [hcount] at hle
      have hmany : offlineThreshold ≤ (failuresSince hist : ℤ) + 1 →
          offlineThreshold ≤ (failuresSince hist : ℤ) := failures_of_wrapped hle
      refine ⟨by simp, fun _ => t.2, hfailures, ?_, ?_, ?_, fun _ => hrep⟩
      · rw [h.online, hsince]
        simp only [List.mem_append, List.mem_singleton, Bool.true_eq_false, or_false]
        refine and_congr_right fun _ => ⟨fun hlt => ?_, fun hlt => by omega⟩
        by_contra hge
        have := hmany (by omega)
        omega
      · intro hlt
        exact h.up (by omega)
      · intro hge
        exact h.down (hmany (by omega))

/-- At the first probe the peer counts as having been what it is found; from then on as it was. -/
theorem LedgerEntry.Tracks.pingResult_eq (h : e.Tracks hist) (ok : Bool) (t : ℤ) :
    e.pingResult ok t =
      let wasOnline := if hist = [] then ok else e.isOnline
      { wentOffline := wasOnline && !(e.pinged ok t).isOnline
        wentOnline := !wasOnline && (e.pinged ok t).isOnline
        isOnline := (e.pinged ok t).isOnline
        reputation := (e.pinged ok t).reputation } := by
  have hzero : e.lastPingAt = zeroTime ↔ hist = [] := by
    refine ⟨fun hz => ?_, h.unprobed⟩
    by_contra hne
    exact h.probed hne (by rw [hz, wholeSeconds_zeroTime])
  unfold LedgerEntry.pingResult
  simp only [hzero]

/-- A peer is reported offline at the third failure in a row, if any probe has succeeded before. -/
theorem LedgerEntry.Tracks.wentOffline_iff (h : e.Tracks hist) (ok : Bool) (t : ClockTime) :
    (e.pingResult ok t.1).wentOffline = true ↔
      true ∈ hist ∧ (failuresSince (hist ++ [ok]) : ℤ) = offlineThreshold := by
  have hafter := (h.pinged ok t).online
  rw [h.pingResult_eq]
  simp only [Bool.and_eq_true, Bool.not_eq_true', ← Bool.not_eq_true, hafter]
  by_cases hnil : hist = []
  · subst hnil
    cases ok <;> simp [offlineThreshold, failuresSince]
  · rw [if_neg hnil, h.online]
    cases ok with
    | true => simp [offlineThreshold]
    | false =>
      simp only [List.mem_append, List.mem_singleton, Bool.true_eq_false, or_false,
        failuresSince_failure]
      push_cast
      constructor
      · rintro ⟨⟨hmem, hlt⟩, hnot⟩
        refine ⟨hmem, ?_⟩
        have hge : offlineThreshold ≤ (failuresSince hist : ℤ) + 1 := not_lt.mp fun hlt' => hnot ⟨hmem, hlt'⟩
        omega
      · rintro ⟨hmem, heq⟩
        exact ⟨⟨hmem, by omega⟩, fun hlt => by omega⟩

end Tracks

/-! ## The heartbeat -/

section Heartbeat

variable (L : Libs)

/-- What `scan` of the heartbeat calls its callback with, if it does: whether the peer went offline. -/
def onTransition (r : PingResult) : Option Bool :=
  if r.wentOffline then some true else if r.wentOnline then some false else none

/-- The probes of a peer one after the other, each with its result and the readings of the clock, and the
calls of the callback. -/
def LedgerState.probes (s : LedgerState) (p : Bytes) :
    List (Bool × ClockTime × ClockTime) → List (Option Bool)
  | [] => []
  | (ok, t, t') :: rest =>
    let (s', result) := s.recordPing L p ok t.1 t'.1
    onTransition result :: s'.probes p rest

/-- The entry of a peer: the one in memory, or the one in the store, or a new one. -/
def LedgerState.entry (s : LedgerState) (p : Bytes) : LedgerEntry :=
  ((s.dirty.get p).or (loadEntry L (s.read p))).getD { peerID := p }

variable {L} {s : LedgerState} {p : Bytes}

/-- A touched entry has a new time. -/
theorem LedgerState.touchLocked_eq (t : ℤ) :
    touchLocked L s.dirty (s.read p) p t = { s.entry L p with updatedAt := t } := by
  unfold touchLocked LedgerState.entry
  cases s.dirty.get p <;> rfl

/-- Whether a peer is online is in its entry. -/
theorem LedgerState.isOnline_eq : s.isOnline L p = (s.entry L p).isOnline := by
  unfold LedgerState.isOnline LedgerState.entry
  cases s.dirty.get p with
  | some e => rfl
  | none => cases loadEntry L (s.read p) <;> rfl

/-- The entry after a ping. -/
theorem LedgerState.entry_recordPing (ok : Bool) (t t' : ℤ) :
    (s.recordPing L p ok t t').1.entry L p = (touchLocked L s.dirty (s.read p) p t).pinged ok t' := by
  unfold LedgerState.entry LedgerState.recordPing
  rw [SortedMap.get_put_self]
  rfl

/-- When the callback is told of a peer that went offline. -/
theorem onTransition_eq_true {r : PingResult} : onTransition r = some true ↔ r.wentOffline = true := by
  unfold onTransition
  split_ifs <;> simp_all

/-- The callback is called at the third failure of a run, if a probe has succeeded before. -/
theorem probes_getElem? {hist : List Bool} (h : (s.entry L p).Tracks hist)
    (xs : List (Bool × ClockTime × ClockTime)) (i : ℕ) (hi : i < xs.length) :
    (s.probes L p xs)[i]? = some (some true) ↔
      true ∈ hist ++ (xs.map Prod.fst).take i ∧
        (failuresSince (hist ++ (xs.map Prod.fst).take (i + 1)) : ℤ) = offlineThreshold := by
  induction xs generalizing s hist i with
  | nil => exact absurd hi (by simp)
  | cons x xs ih =>
    obtain ⟨ok, t, t'⟩ := x
    have htouch : (touchLocked L s.dirty (s.read p) p t.1).Tracks hist := by
      rw [LedgerState.touchLocked_eq]
      exact h.updated t.1
    cases i with
    | zero =>
      simp only [LedgerState.probes, List.getElem?_cons_zero, Option.some.injEq, onTransition_eq_true,
        List.map_cons, List.take_zero, List.append_nil, zero_add, List.take_succ_cons]
      exact htouch.wentOffline_iff ok t'
    | succ i =>
      have hentry : (((s.recordPing L p ok t.1 t'.1).1).entry L p).Tracks (hist ++ [ok]) := by
        rw [LedgerState.entry_recordPing]
        exact htouch.pinged ok t'
      have hnext := ih hentry i (by simpa using hi)
      simp only [LedgerState.probes, List.getElem?_cons_succ, List.map_cons, List.take_succ_cons]
      rw [hnext]
      simp only [List.append_assoc, List.singleton_append]

/-- From no entry of a peer, over any results of probes: the callback is called with `wentOffline` at the
third failure of every run of failures and never else, if and only if the first three probes do not all
fail. -/
theorem callback_at_threshold_iff (hnone : s.dirty.get p = none ∧ loadEntry L (s.read p) = none)
    (xs : List (Bool × ClockTime × ClockTime)) :
    (∀ i < xs.length, (s.probes L p xs)[i]? = some (some true) ↔
        (failuresSince ((xs.map Prod.fst).take (i + 1)) : ℤ) = offlineThreshold) ↔
      ¬ [false, false, false] <+: xs.map Prod.fst := by
  have hentry : (s.entry L p).Tracks [] := by
    unfold LedgerState.entry
    rw [hnone.1, hnone.2]
    exact tracks_new p
  have hcalls : ∀ i < xs.length, (s.probes L p xs)[i]? = some (some true) ↔
      true ∈ (xs.map Prod.fst).take i ∧
        (failuresSince ((xs.map Prod.fst).take (i + 1)) : ℤ) = offlineThreshold :=
    fun i hi => probes_getElem? hentry xs i hi
  constructor
  · rintro hall ⟨rest, hrest⟩
    have hlen : 2 < xs.length := by
      rw [← List.length_map Prod.fst, ← hrest]
      simp
    have hthird : (failuresSince ((xs.map Prod.fst).take (2 + 1)) : ℤ) = offlineThreshold := by
      rw [← hrest]
      rfl
    have hmem := ((hcalls 2 hlen).mp ((hall 2 hlen).mpr hthird)).1
    rw [← hrest] at hmem
    exact absurd hmem (by simp)
  · intro hfirst i hi
    rw [hcalls i hi]
    refine ⟨And.right, fun heq => ⟨?_, heq⟩⟩
    by_contra hmem
    -- Without a success before, the third failure of the run is the third probe.
    have hnext : (xs.map Prod.fst).take (i + 1) = (xs.map Prod.fst).take i ++ [xs[i].1] := by
      rw [List.take_succ_eq_append_getElem (by simpa using hi), List.getElem_map]
    have hfail : xs[i].1 = false := by
      by_contra hok
      rw [hnext, Bool.not_eq_false _ |>.mp hok, failuresSince_success] at heq
      exact absurd heq (by decide)
    have hall : true ∉ (xs.map Prod.fst).take (i + 1) := by
      rw [hnext, hfail]
      simpa using hmem
    have htwo : i = 2 := by
      rw [failuresSince_of_not_mem hall, List.length_take, List.length_map] at heq
      unfold offlineThreshold at heq
      omega
    subst htwo
    refine hfirst ?_
    have hthree : (xs.map Prod.fst).take 3 = [false, false, false] := by
      have hlen : ((xs.map Prod.fst).take 3).length = 3 := by simp; omega
      exact List.eq_replicate_iff.mpr ⟨hlen, fun b hb => by
        cases b with
        | false => rfl
        | true => exact absurd hb hall⟩
    rw [← hthree]
    exact List.take_prefix _ _

end Heartbeat

/-- A time at which the sample peers are probed. -/
def sampleClock : ClockTime := ⟨1, by decide⟩

/-- The first three probes of a peer fail, and the callback is not called. -/
theorem sampleLedger_silent :
    (LedgerState.opened .empty).dirty.get (lit "bob") = none ∧
    loadEntry sampleLibs ((LedgerState.opened .empty).read (lit "bob")) = none ∧
    (LedgerState.opened .empty).probes sampleLibs (lit "bob")
        (List.replicate 3 (false, sampleClock, sampleClock)) = [none, none, none] ∧
      (failuresSince (List.replicate 3 false) : ℤ) = offlineThreshold := by
  decide

/-- A peer that was online goes offline, and the callback is called at the third failure. -/
theorem sampleLedger_reports :
    (LedgerState.opened .empty).probes sampleLibs (lit "bob")
        ([true, false, false, false].map fun ok => (ok, sampleClock, sampleClock)) =
      [none, none, none, some true] ∧
    ∀ i < 4, ((LedgerState.opened .empty).probes sampleLibs (lit "bob")
        ([true, false, false, false].map fun ok => (ok, sampleClock, sampleClock)))[i]? =
          some (some true) ↔
      (failuresSince ([true, false, false, false].take (i + 1)) : ℤ) = offlineThreshold :=
  ⟨by decide, (callback_at_threshold_iff ⟨rfl, rfl⟩
    ([true, false, false, false].map fun ok => (ok, sampleClock, sampleClock))).mpr (by decide)⟩

/-! ## Runs -/

section Runs

variable {L : Libs} {s s' : LedgerState} {p : Bytes}

/-- What happens to a ledger as a whole, with the result of a ping. -/
inductive AtomicEvent
  | ping (peerID : Bytes) (ok : Bool) (result : PingResult)
  | record
  | flush

/-- One method of the ledger, taken as a whole. A flush writes all entries. -/
inductive AtomicStep (L : Libs) (s : LedgerState) : AtomicEvent → LedgerState → Prop
  | ping (peerID : Bytes) (ok : Bool) (t t' : ClockTime) :
      AtomicStep L s (.ping peerID ok (s.recordPing L peerID ok t.1 t'.1).2)
        (s.recordPing L peerID ok t.1 t'.1).1
  | record (c : Counter) (peerID : Bytes) (n : ℤ) (t : ClockTime) :
      AtomicStep L s .record
        { s with
          dirty := s.dirty.put peerID ((touchLocked L s.dirty (s.read peerID) peerID t.1).add n c) }
  | flush {order : List LedgerEntry} (h : order.Perm (s.dirty.entries.map Prod.snd)) :
      AtomicStep L s .flush (s.flushed L order)

/-- A run of the ledger, one method after the other. -/
inductive AtomicRun (L : Libs) (s : LedgerState) : List AtomicEvent → LedgerState → Prop
  | nil : AtomicRun L s [] s
  | snoc {evs : List AtomicEvent} {s' s'' : LedgerState} {e : AtomicEvent} (h : AtomicRun L s evs s')
      (hstep : AtomicStep L s' e s'') : AtomicRun L s (evs ++ [e]) s''

/-- The results of the probes of a peer. -/
def history (p : Bytes) (evs : List AtomicEvent) : List Bool :=
  evs.filterMap fun
    | .ping q ok _ => if q = p then some ok else none
    | _ => none

/-- The reports on a peer: whether it went offline. -/
def reports (p : Bytes) (evs : List AtomicEvent) : List Bool :=
  evs.filterMap fun
    | .ping q _ result => if q = p then onTransition result else none
    | _ => none

/-- The entry of a peer follows its probes, and the reports alternate. -/
structure Follows (L : Libs) (s : LedgerState) (p : Bytes) (hist reps : List Bool) : Prop where
  tracks : (s.entry L p).Tracks hist
  alternate : reps.IsChain (· ≠ ·)
  last : ∀ r ∈ reps.getLast?, (s.entry L p).isOnline = !r
  unreported : hist = [] → reps = []

/-- A transition is reported where the peer was probed before and is now found different. -/
theorem LedgerEntry.Tracks.onTransition_eq {e : LedgerEntry} {hist : List Bool} (h : e.Tracks hist)
    (ok : Bool) (t : ClockTime) :
    onTransition (e.pingResult ok t.1) =
      if hist = [] ∨ (e.pinged ok t.1).isOnline = e.isOnline then none else some e.isOnline := by
  rw [h.pingResult_eq]
  by_cases hnil : hist = []
  · have hok : (e.pinged ok t.1).isOnline = ok := by
      have hafter := (h.pinged ok t).online
      subst hnil
      cases ok with
      | true => exact hafter.mpr (by decide)
      | false => exact Bool.eq_false_iff.mpr fun hon => absurd (hafter.mp hon).1 (by simp)
    simp [onTransition, hnil, hok]
  · cases hon : (e.pinged ok t.1).isOnline <;> cases e.isOnline <;> simp [onTransition, hnil]

/-- The entries of others stay. -/
theorem LedgerState.entry_put_ne {q : Bytes} (h : p ≠ q) (e : LedgerEntry) :
    LedgerState.entry L { s with dirty := s.dirty.put q e } p = s.entry L p := by
  unfold LedgerState.entry
  rw [SortedMap.get_put_ne _ h]
  rfl

/-- The entry that is put. -/
theorem LedgerState.entry_put_self (e : LedgerEntry) :
    LedgerState.entry L { s with dirty := s.dirty.put p e } p = e := by
  unfold LedgerState.entry
  rw [SortedMap.get_put_self]
  rfl

/-- A flush leaves the entry of a peer, but for the fractions of its times. -/
theorem LedgerState.entry_flushed (hC : L.cbor.Lawful) (hkeyed : s.Keyed L) (hvalid : validUTF8 p = true)
    {order : List LedgerEntry} (hperm : order.Perm (s.dirty.entries.map Prod.snd)) :
    (s.flushed L order).entry L p = s.entry L p ∨ (s.flushed L order).entry L p = (s.entry L p).norm := by
  have hload := LedgerState.load_flushed (s := s) hC (filter_order hkeyed p hperm)
  have hdirty : (s.flushed L order).dirty.get p = none := rfl
  unfold LedgerState.entry
  rw [hdirty, hload]
  cases hget : s.dirty.get p with
  | none => exact .inl rfl
  | some e =>
    right
    have hpeer : e.validText = true := by
      unfold LedgerEntry.validText
      rw [hkeyed.dirty p e hget]
      exact hvalid
    simp [LedgerEntry.reloaded, hpeer]

variable {hist reps : List Bool}

/-- Where the entry of a peer is as before or has its times cut, nothing changes. -/
theorem Follows.of_entry (h : Follows L s p hist reps)
    (he : s'.entry L p = s.entry L p ∨ s'.entry L p = (s.entry L p).norm) : Follows L s' p hist reps := by
  rcases he with he | he
  · exact ⟨he ▸ h.tracks, h.alternate, he ▸ h.last, h.unreported⟩
  · refine ⟨?_, h.alternate, ?_, h.unreported⟩
    · rw [he]
      exact h.tracks.norm
    · rw [he]
      exact h.last

/-- A probe of the peer. -/
theorem Follows.ping (h : Follows L s p hist reps) (ok : Bool) (t t' : ClockTime) :
    Follows L (s.recordPing L p ok t.1 t'.1).1 p (hist ++ [ok])
      (reps ++ (onTransition (s.recordPing L p ok t.1 t'.1).2).toList) := by
  have htouch : (touchLocked L s.dirty (s.read p) p t.1).Tracks hist := by
    rw [LedgerState.touchLocked_eq]
    exact h.tracks.updated t.1
  have hon : (touchLocked L s.dirty (s.read p) p t.1).isOnline = (s.entry L p).isOnline := by
    rw [LedgerState.touchLocked_eq]
  have htrans : onTransition (s.recordPing L p ok t.1 t'.1).2 = _ := htouch.onTransition_eq ok t'
  have hentry := LedgerState.entry_recordPing (L := L) (s := s) (p := p) ok t.1 t'.1
  rw [hon] at htrans
  rw [← hentry] at htrans
  have htracks : ((s.recordPing L p ok t.1 t'.1).1.entry L p).Tracks (hist ++ [ok]) := by
    rw [hentry]
    exact htouch.pinged ok t'
  rw [htrans]
  by_cases hsame : hist = [] ∨ ((s.recordPing L p ok t.1 t'.1).1.entry L p).isOnline =
      (s.entry L p).isOnline
  · -- Nothing is reported.
    rw [if_pos hsame, Option.toList_none, List.append_nil]
    refine ⟨htracks, h.alternate, fun r hr => ?_, by simp⟩
    rcases hsame with hnil | heq
    · rw [h.unreported hnil] at hr
      exact absurd hr (by simp)
    · rw [heq]
      exact h.last r hr
  · -- The last report was of the other kind.
    rw [if_neg hsame, Option.toList_some]
    obtain ⟨-, hne⟩ := not_or.mp hsame
    refine ⟨htracks, h.alternate.append (.singleton _) ?_, ?_, by simp⟩
    · intro r hr r' hr'
      obtain rfl : (s.entry L p).isOnline = r' := by simpa using hr'
      rw [h.last r hr]
      cases r <;> simp
    · intro r hr
      obtain rfl : (s.entry L p).isOnline = r := by simpa using hr
      exact Bool.eq_not_of_ne hne

/-- A method of the ledger keeps the reports in step with the probes. -/
theorem AtomicStep.follows (hC : L.cbor.Lawful) (hvalid : validUTF8 p = true) {e : AtomicEvent}
    (hstep : AtomicStep L s e s') (hkeyed : s.Keyed L) (h : Follows L s p hist reps) :
    s'.Keyed L ∧ Follows L s' p (hist ++ history p [e]) (reps ++ reports p [e]) := by
  cases hstep with
  | ping q ok t t' =>
    have hk : (s.recordPing L q ok t.1 t'.1).1.Keyed L :=
      hkeyed.put (by rw [LedgerEntry.peerID_pinged, peerID_touchLocked hkeyed (.inl rfl)])
    refine ⟨hk, ?_⟩
    by_cases hq : q = p
    · subst hq
      have hping := h.ping ok t t'
      cases htr : onTransition (s.recordPing L q ok t.1 t'.1).2 <;>
        simpa [history, reports, htr] using hping
    · simp only [history, reports, List.filterMap_cons, if_neg hq, List.filterMap_nil, List.append_nil]
      exact h.of_entry (.inl (LedgerState.entry_put_ne (Ne.symm hq) _))
  | record c q n t =>
    refine ⟨hkeyed.put (by rw [LedgerEntry.peerID_add, peerID_touchLocked hkeyed (.inl rfl)]), ?_⟩
    simp only [history, reports, List.filterMap_cons, List.filterMap_nil, List.append_nil]
    by_cases hq : q = p
    · subst hq
      have hentry : LedgerState.entry L { s with
          dirty := s.dirty.put q ((touchLocked L s.dirty (s.read q) q t.1).add n c) } q =
          LedgerEntry.add { s.entry L q with updatedAt := t.1 } n c := by
        rw [LedgerState.entry_put_self, LedgerState.touchLocked_eq]
      refine ⟨?_, h.alternate, ?_, h.unreported⟩
      · rw [hentry]
        exact (h.tracks.updated t.1).add n c
      · rw [hentry]
        cases c <;> exact h.last
    · exact h.of_entry (.inl (LedgerState.entry_put_ne (Ne.symm hq) _))
  | @flush order hperm =>
    have hall : (order ++ []).Perm (s.dirty.entries.map Prod.snd) := by simpa using hperm
    refine ⟨hkeyed.flushed hC order [] hall, ?_⟩
    simp only [history, reports, List.filterMap_cons, List.filterMap_nil, List.append_nil]
    exact h.of_entry (LedgerState.entry_flushed hC hkeyed hvalid hperm)

/-- A run of the ledger keeps the reports in step with the probes. -/
theorem AtomicRun.follows (hC : L.cbor.Lawful) (hvalid : validUTF8 p = true) {evs : List AtomicEvent}
    (hrun : AtomicRun L s evs s') (hkeyed : s.Keyed L) (h : Follows L s p [] []) :
    s'.Keyed L ∧ Follows L s' p (history p evs) (reports p evs) := by
  induction hrun with
  | nil => exact ⟨hkeyed, h⟩
  | @snoc evs s' s'' e hprev hstep ih =>
    have hnext := hstep.follows hC hvalid ih.1 ih.2
    simpa only [history, reports, List.filterMap_append] using hnext

/-- A ledger without an entry of the peer. -/
theorem follows_opened {store : SortedMap Bytes Bytes}
    (hnone : loadEntry L ((LedgerState.opened store).read p) = none) :
    Follows L (.opened store) p [] [] := by
  have hentry : (LedgerState.opened store).entry L p = { peerID := p } := by
    unfold LedgerState.entry
    rw [hnone]
    rfl
  refine ⟨?_, .nil, by simp, fun _ => rfl⟩
  rw [hentry]
  exact tracks_new p

/-- From a ledger without an entry of a peer, over any run of `RecordPing`, the `Record` methods and flushes
that succeed, once the peer has been probed: its reputation is in range; it is online if some probe succeeded
and fewer than three failed since the last that did; the reports on it alternate; and as long as the failures
in a row fit an `int`, they are what is counted, and the peer is offline since some time exactly if there are
three or more of them. -/
theorem liveness_of_history (hC : L.cbor.Lawful) {store : SortedMap Bytes Bytes}
    (hfiled : (LedgerState.opened store).Filed L)
    (hnone : loadEntry L ((LedgerState.opened store).read p) = none) (hvalid : validUTF8 p = true)
    {evs : List AtomicEvent} (hrun : AtomicRun L (.opened store) evs s)
    (hprobed : history p evs ≠ []) :
    (0 ≤ (s.entry L p).reputation ∧ (s.entry L p).reputation ≤ 100) ∧
    (s.isOnline L p = true ↔
      true ∈ history p evs ∧ (failuresSince (history p evs) : ℤ) < offlineThreshold) ∧
    (reports p evs).IsChain (· ≠ ·) ∧
    (failuresSince (history p evs) < 2 ^ 63 →
      (s.entry L p).consecFailures = failuresSince (history p evs) ∧
      ((s.entry L p).offlineSince ≠ zeroTime ↔ offlineThreshold ≤ (s.entry L p).consecFailures)) := by
  obtain ⟨-, h⟩ := hrun.follows hC hvalid hfiled.keyed (follows_opened hnone)
  refine ⟨h.tracks.reputation hprobed, ?_, h.alternate, fun hfit => ?_⟩
  · rw [LedgerState.isOnline_eq]
    exact h.tracks.online
  · have hcount : (s.entry L p).consecFailures = failuresSince (history p evs) := by
      rw [h.tracks.failures, wrap64_of_range (by omega) (by exact_mod_cast hfit)]
    refine ⟨hcount, ?_⟩
    rw [hcount]
    constructor
    · intro hne
      exact not_lt.mp fun hlt => hne (h.tracks.up hlt)
    · intro hle hzero
      exact h.tracks.down hle (by rw [hzero, wholeSeconds_zeroTime])

end Runs

/-! ## A peer that is never back -/

/-- The probes of a peer can fail any number of times. -/
theorem exists_failures (n : ℕ) :
    ∃ evs s, AtomicRun sampleLibs (.opened .empty) evs s ∧
      true ∉ history (lit "bob") evs ∧ failuresSince (history (lit "bob") evs) = n := by
  induction n with
  | zero => exact ⟨[], _, .nil, by simp [history], rfl⟩
  | succ n ih =>
    obtain ⟨evs, s, hrun, hmem, hfail⟩ := ih
    refine ⟨_, _, hrun.snoc (.ping (lit "bob") false sampleClock sampleClock), ?_⟩
    have hhist : history (lit "bob") (evs ++ [.ping (lit "bob") false
        (s.recordPing sampleLibs (lit "bob") false sampleClock.1 sampleClock.1).2]) =
        history (lit "bob") evs ++ [false] := by
      simp [history]
    rw [hhist, failuresSince_failure, hfail]
    exact ⟨by simpa using hmem, rfl⟩

/-- After `2 ^ 63` failures in a row the count has wrapped, and is no number of failures. -/
theorem sampleLedger_wraps :
    ∃ evs s, AtomicRun sampleLibs (.opened .empty) evs s ∧
      failuresSince (history (lit "bob") evs) = 2 ^ 63 ∧
      (s.entry sampleLibs (lit "bob")).consecFailures = -2 ^ 63 ∧
      (s.entry sampleLibs (lit "bob")).offlineSince ≠ zeroTime := by
  obtain ⟨evs, s, hrun, -, hfail⟩ := exists_failures (2 ^ 63)
  obtain ⟨-, h⟩ := hrun.follows (p := lit "bob") sampleCbor_lawful (by decide) filed_empty.keyed
    (follows_opened rfl)
  refine ⟨evs, s, hrun, hfail, ?_, fun hzero => ?_⟩
  · rw [h.tracks.failures, hfail]
    decide
  · refine h.tracks.down ?_ (by rw [hzero, wholeSeconds_zeroTime])
    rw [hfail]
    decide

/-- A peer that answers one probe and misses the next, with a flush between them. -/
theorem sampleLedger_tracks :
    ∃ evs s, AtomicRun sampleLibs (.opened .empty) evs s ∧ history (lit "bob") evs = [true, false] ∧
      s.isOnline sampleLibs (lit "bob") = true ∧
      (s.entry sampleLibs (lit "bob")).consecFailures = 1 := by
  have h0 : AtomicRun sampleLibs (.opened .empty) [] (.opened .empty) := .nil
  have h1 := h0.snoc (.ping (lit "bob") true sampleClock sampleClock)
  have h2 := h1.snoc (.flush (.refl _))
  have h3 := h2.snoc (.ping (lit "bob") false sampleClock sampleClock)
  obtain ⟨-, honline, -, hcount⟩ := liveness_of_history (p := lit "bob") sampleCbor_lawful filed_empty rfl
    (by decide) h3 (by simp [history])
  refine ⟨_, _, h3, by simp [history], honline.mpr ?_, (hcount ?_).1.trans ?_⟩ <;>
    simp [history, failuresSince, offlineThreshold]

end FnShare
