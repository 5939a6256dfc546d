import FnShare.Lib.Pool
import FnShare.Ledger.Liveness
import FnShare.World

/-!
# The heartbeat

The package `internal/heartbeat`, with `Ping` of the node and the callback that the daemon gives it. `scan`
takes the members of all groups and probes them in goroutines, eight at a time (`Lib/Pool.lean`); a goroutine
records the result with the ledger, and where the peer has gone offline or come back it calls the callback,
which starts a repair. All of this goes on while traffic is recorded and the ledger is flushed.

However the goroutines are scheduled, a scan ends, and then each peer has been probed once
(`scan_probes_each`). So the results of the probes of a peer are one for each scan, and they decide when it is
repaired: a repair is started each time that three probes in a row have failed after one that succeeded, and
at no other time (`repairs_eq_outages`).
-/

namespace FnShare

open Prog

/-! ## The code -/

/-- The operations of the heartbeat. -/
inductive BeatOp
  /-- `Host.NewStream` with the ping protocol. -/
  | newStream (target : Bytes)
  /-- `s.Write` of one byte. -/
  | write (target : Bytes)
  /-- `ledger.RecordPing`. -/
  | recordPing (peerID : Bytes) (ok : Bool)
  /-- The callback. -/
  | on (peerID : Bytes) (wentOffline : Bool)

/-- The answer to an operation. -/
@[reducible] def BeatOp.Ans : BeatOp → Type
  | newStream _ => Except GoErr Unit
  | write _ => Except GoErr Unit
  | recordPing _ _ => PingResult
  | on _ _ => Unit

/-- The effect signature of the heartbeat. -/
@[reducible] def BeatSig : Sig := ⟨BeatOp, BeatOp.Ans⟩

/-- A program of the heartbeat. -/
abbrev BeatM (α : Type) := Prog BeatSig GoErr α

/-- One operation of the heartbeat, with its answer. -/
abbrev BeatEvent := Event BeatSig

/-- Perform one operation of the heartbeat. -/
abbrev beat (o : BeatOp) : BeatM o.Ans := Prog.op (S := BeatSig) o ret

/-- `Ping`. -/
def ping (target : Bytes) : BeatM Unit := do
  mapErr (.wrap (lit "open ping stream: ")) (do ofExcept (← beat (.newStream target)))
  mapErr (.wrap (lit "write ping: ")) (do ofExcept (← beat (.write target)))

/-- The goroutine of `scan`, for a peer and its id as text. -/
def probe (x : Bytes × Bytes) : BeatM Unit := do
  let err ← attempt (ping x.1)
  let result ← beat (.recordPing x.2 err.isOk)
  match onTransition result with
  | some wentOffline => beat (.on x.2 wentOffline)
  | none => return ()

/-- `maxParallel`. -/
def maxParallel : ℕ := 8

section Code

variable (L : Libs)

/-- The goroutine that `scan` starts for a member, if it does. -/
def target (self : Bytes) (m : Member) : Option (Bytes × Bytes) :=
  if m.peerID = self then none else (L.peerDecode m.peerID).toOption.map fun pid => (pid, m.peerID)

/-- The goroutines that `scan` starts. -/
def targets (self : Bytes) (members : List Member) : List (Bytes × Bytes) := members.filterMap (target L self)

end Code

/-! ## What happens -/

/-- The ledger of a daemon, and the peers for which it has started a repair. -/
structure BeatState where
  ledger : LedgerState
  repairs : List Bytes

/-- The events of the ledger that the heartbeat has no part in. -/
def LedgerEvent.Other : LedgerEvent → Prop
  | .ping _ _ _ => False
  | _ => True

section System

variable (L : Libs) (P : LedgerState → LedgerEvent → Prop)

/-- What an operation of the heartbeat can do and answer, where the steps of the ledger satisfy `P`. -/
def BeatState.step (w : BeatState) : (o : BeatOp) → o.Ans → BeatState → Prop
  | .newStream _, _, w' => w' = w
  | .write _, _, w' => w' = w
  | .recordPing p ok, r, w' => ∃ (answer : Except GoErr Bytes) (t t' : ClockTime),
      w.ledger.Answers p answer ∧ P w.ledger (.ping p ok answer) ∧
      r = (touchLocked L w.ledger.dirty answer p t.1).pingResult ok t'.1 ∧
      w' = { w with
        ledger := { w.ledger with
          dirty := w.ledger.dirty.put p ((touchLocked L w.ledger.dirty answer p t.1).pinged ok t'.1) } }
  -- The callback of the daemon starts `ScanForOfflinePeer`.
  | .on p wentOffline, _, w' => w' = if wentOffline then { w with repairs := p :: w.repairs } else w

/-- The environment of the goroutines. -/
def beatEnv : Env BeatSig BeatState where
  step w o r w' := w.step L P o r w'
  guard _ _ := True

/-- What happens to the ledger besides. -/
def BeatState.drift (w w' : BeatState) : Prop :=
  ∃ ev s, ev.Other ∧ P w.ledger ev ∧ LedgerStep L w.ledger ev s ∧ w' = { w with ledger := s }

/-- What `scan` does with the members that it got, up to some point. -/
abbrev Scanning (self : Bytes) (members : List Member) (w : BeatState) (n : ℕ)
    (tr : List ((Bytes × Bytes) × BeatEvent)) (w' : BeatState) (s : Pool BeatSig (Bytes × Bytes) GoErr) :
    Prop :=
  PoolRun (beatEnv L P) (BeatState.drift L P) probe maxParallel w (targets L self members) n tr w' s

/-- `Run`: one scan after the other, each with the peers that it probed and what was done. The tables of a
node can be any when a scan begins. -/
inductive Beating (self : Bytes) (w₀ : BeatState) :
    List (List (Bytes × Bytes) × List ((Bytes × Bytes) × BeatEvent)) → BeatState → Prop
  | start : Beating self w₀ [] w₀
  | scan {rounds : List (List (Bytes × Bytes) × List ((Bytes × Bytes) × BeatEvent))} {w w' : BeatState}
      {node node' : NodeState} {evs : List NodeEvent} {members : List Member} {n : ℕ}
      {tr : List ((Bytes × Bytes) × BeatEvent)} {s : Pool BeatSig (Bytes × Bytes) GoErr}
      (h : Beating self w₀ rounds w)
      (hlist : Steps nodeEnv node (allMembersAcrossGroups L) evs node' (ret members))
      (hrun : Scanning L P self members w n tr w' s) (hret : s.loop = .returned) :
      Beating self w₀ (rounds ++ [(targets L self members, tr)]) w'
  | unlisted {rounds : List (List (Bytes × Bytes) × List ((Bytes × Bytes) × BeatEvent))} {w : BeatState}
      {node node' : NodeState} {evs : List NodeEvent} {e : GoErr} (h : Beating self w₀ rounds w)
      (hlist : Steps nodeEnv node (allMembersAcrossGroups L) evs node' (fail e)) :
      Beating self w₀ (rounds ++ [([], [])]) w
  | wait {rounds : List (List (Bytes × Bytes) × List ((Bytes × Bytes) × BeatEvent))} {w w' : BeatState}
      (h : Beating self w₀ rounds w) (hd : w.drift L P w') : Beating self w₀ rounds w'

end System

/-! ## The members of all groups -/

section Members

variable {L : Libs} {self : Bytes}
variable {members : List Member}

/-- The first entries of some peers, each of which has one. -/
theorem peerIDs_find {order : List Bytes} (h : ∀ q ∈ order, q ∈ members.map Member.peerID) :
    (order.filterMap fun q => members.find? fun m => m.peerID == q).map Member.peerID = order := by
  induction order with
  | nil => rfl
  | cons q order ih =>
    obtain ⟨m, hm, rfl⟩ := List.mem_map.mp (h q List.mem_cons_self)
    cases hfind : members.find? fun m' => m'.peerID == m.peerID with
    | none => exact absurd (List.find?_eq_none.mp hfind m hm) (by simp)
    | some m' =>
      have hpeer : m'.peerID = m.peerID := by simpa using List.find?_some hfind
      simp only [List.filterMap_cons, hfind, List.map_cons, hpeer]
      rw [ih fun q hq => h q (List.mem_cons_of_mem _ hq)]

/-- What `AllMembersAcrossGroups` gives: one entry of each peer that is in some table. -/
theorem members_of_allMembers {node node' : NodeState} {evs : List NodeEvent}
    (h : Steps nodeEnv node (allMembersAcrossGroups L) evs node' (ret members)) :
    (members.map Member.peerID).Nodup ∧ ∀ q, q ∈ members.map Member.peerID ↔
      ∃ key raw m, node.store.get key = some raw ∧ lit "member/" <+: key ∧
        L.cbor.member.unmarshal raw = .ok m ∧
        m.peerID = q := by
  let all := decodeValues L.cbor.member (node.scan (lit "member/"))
  have hwp : wp nodeEnv (allMembersAcrossGroups L)
      (onOk fun members _ => (members.map Member.peerID).Perm (all.map Member.peerID).dedup) node := by
    unfold allMembersAcrossGroups
    refine ⟨trivial, ?_⟩
    rintro ⟨pairs, err⟩ node' hs
    obtain rfl : node' = node := hs.1
    cases err with
    | some e => trivial
    | none =>
      obtain rfl := NodeState.scan_of_step hs
      refine ⟨trivial, ?_⟩
      rintro ⟨order, hperm⟩ node'' -
      have hmem : ∀ q ∈ order, q ∈ all.map Member.peerID :=
        fun q hq => List.mem_dedup.mp (hperm.mem_iff.mp hq)
      change (List.map Member.peerID _).Perm _
      rw [peerIDs_find hmem]
      exact hperm
  have hperm : (members.map Member.peerID).Perm (all.map Member.peerID).dedup := wp_steps h hwp
  refine ⟨hperm.nodup_iff.mpr (List.nodup_dedup _), fun q => ?_⟩
  rw [hperm.mem_iff, List.mem_dedup, List.mem_map]
  simp only [all, mem_decodeValues, Prod.exists, NodeState.mem_scan]
  constructor
  · rintro ⟨m, ⟨key, raw, ⟨hget, hpre⟩, hdec⟩, rfl⟩
    exact ⟨key, raw, m, hget, hpre, hdec, rfl⟩
  · rintro ⟨key, raw, m, hget, hpre, hdec, rfl⟩
    exact ⟨m, ⟨key, raw, ⟨hget, hpre⟩, hdec⟩, rfl⟩

/-- Who is a target. -/
theorem target_eq_some {m : Member} {x : Bytes × Bytes} :
    target L self m = some x ↔ m.peerID = x.2 ∧ x.2 ≠ self ∧ L.peerDecode x.2 = .ok x.1 := by
  obtain ⟨pid, q⟩ := x
  unfold target
  split_ifs with hself
  · simp only [false_iff]
    rintro ⟨rfl, hne, -⟩
    exact hne hself
  · rw [Option.map_eq_some_iff]
    constructor
    · rintro ⟨pid', hdec, heq⟩
      obtain ⟨rfl, rfl⟩ := Prod.mk.inj heq
      exact ⟨rfl, hself, toOption_eq_some.mp hdec⟩
    · rintro ⟨rfl, -, hdec⟩
      exact ⟨pid, toOption_eq_some.mpr hdec, rfl⟩

/-- The targets of a member list. -/
theorem mem_targets {x : Bytes × Bytes} :
    x ∈ targets L self members ↔ x.2 ∈ members.map Member.peerID ∧ x.2 ≠ self ∧
      L.peerDecode x.2 = .ok x.1 := by
  rw [targets, List.mem_filterMap, List.mem_map]
  constructor
  · rintro ⟨m, hm, htarget⟩
    obtain ⟨hpeer, hx⟩ := target_eq_some.mp htarget
    exact ⟨⟨m, hm, hpeer⟩, hx⟩
  · rintro ⟨⟨m, hm, hpeer⟩, hx⟩
    exact ⟨m, hm, target_eq_some.mpr ⟨hpeer, hx⟩⟩

/-- A peer has one goroutine at most. -/
theorem nodup_targets (h : (members.map Member.peerID).Nodup) :
    ((targets L self members).map Prod.snd).Nodup := by
  refine h.sublist ?_
  clear h
  induction members with
  | nil => exact List.Sublist.refl _
  | cons m members ih =>
    rw [targets, List.map_cons]
    cases hm : target L self m with
    | none =>
      rw [List.filterMap_cons_none hm]
      exact ih.trans (List.sublist_cons_self _ _)
    | some x =>
      rw [List.filterMap_cons_some hm, List.map_cons, (target_eq_some.mp hm).1]
      exact ih.cons_cons _

end Members

/-! ## Outages -/

/-- The results of probes at the end of which a peer has gone offline. -/
def outage : List Bool := [true, false, false, false]

/-- The number of times that a peer has gone offline, by the results of its probes. -/
def outages (hist : List Bool) : ℕ := hist.inits.countP fun l => outage.isSuffixOf l

/-- Suffixes with a last element. -/
theorem concat_suffix_concat {l l' : List Bool} {a b : Bool} : l ++ [a] <:+ l' ++ [b] ↔ a = b ∧ l <:+ l' := by
  rw [List.suffix_concat_iff]
  constructor
  · rintro (habs | ⟨t, heq, hsuffix⟩)
    · exact absurd habs (by simp)
    · obtain ⟨rfl, hlast⟩ := List.append_inj' heq rfl
      exact ⟨List.singleton_inj.mp hlast, hsuffix⟩
  · rintro ⟨rfl, hsuffix⟩
    exact .inr ⟨l, rfl, hsuffix⟩

/-- So many failures in a row, with a success before. -/
theorem failuresSince_eq_iff {hist : List Bool} {n : ℕ} :
    true ∈ hist ∧ failuresSince hist = n ↔ (true :: List.replicate n false) <:+ hist := by
  induction hist using List.reverseRecOn generalizing n with
  | nil => simp
  | append_singleton hist ok ih =>
    cases n with
    | zero =>
      rw [List.replicate_zero, ← List.nil_append [true], concat_suffix_concat]
      cases ok <;> simp
    | succ n =>
      rw [List.replicate_succ', ← List.cons_append, concat_suffix_concat, ← ih]
      cases ok <;> simp

/-- One more result. -/
theorem outages_concat (hist : List Bool) (ok : Bool) :
    outages (hist ++ [ok]) = outages hist + if outage <:+ hist ++ [ok] then 1 else 0 := by
  simp [outages, List.inits_append, List.countP_append, List.countP_cons]

/-- A probe that ends an outage's pattern is one at which the peer is reported offline. -/
theorem LedgerEntry.Tracks.wentOffline_iff_outage {e : LedgerEntry} {hist : List Bool} (h : e.Tracks hist)
    (ok : Bool) (t : ClockTime) : (e.pingResult ok t.1).wentOffline = true ↔ outage <:+ hist ++ [ok] := by
  have hpattern : outage = true :: List.replicate 3 false := rfl
  rw [h.wentOffline_iff, hpattern, ← failuresSince_eq_iff]
  cases ok with
  | true => simp [offlineThreshold]
  | false =>
    rw [failuresSince_failure]
    unfold offlineThreshold
    simp only [List.mem_append, List.mem_singleton, Bool.true_eq_false, or_false]
    exact and_congr_right fun _ => by omega

/-! ## The ledger under way -/

section Tracking

variable {L : Libs} {s s' : LedgerState} {p : Bytes} {hist : List Bool}

/-- The entry that counts for a peer says how its probes went, also while it is being written. -/
structure LedgerState.Tracking (L : Libs) (p : Bytes) (hist : List Bool) (s : LedgerState) : Prop where
  keyed : s.Keyed L
  single : (s.pending p).length ≤ 1
  apart : s.dirty.get p ≠ none → s.pending p = []
  tracks : ((s.current L p).getD { peerID := p }).Tracks hist

/-- The counters of a tracked peer. -/
theorem LedgerState.Tracking.counts (h : s.Tracking L p hist) :
    s.Counts L p fun c => counterOf (s.current L p) c :=
  ⟨h.single, h.apart, fun _ => rfl⟩

/-- A peer without an entry has no history. -/
theorem LedgerState.tracking_opened {store : SortedMap Bytes Bytes}
    (hfiled : (LedgerState.opened store).Filed L)
    (hnone : loadEntry L ((LedgerState.opened store).read p) = none) :
    (LedgerState.opened store).Tracking L p [] := by
  have hcurrent : (LedgerState.opened store).current L p = none := by
    unfold LedgerState.current
    rw [hnone]
    rfl
  refine ⟨hfiled.keyed, Nat.zero_le _, fun _ => rfl, ?_⟩
  rw [hcurrent]
  exact tracks_new p

/-- Where nothing of a peer is to be written, the entry that is touched is the one that counts. -/
theorem touchLocked_current (hpend : s.pending p = []) (t : ℤ) :
    touchLocked L s.dirty (s.read p) p t = { (s.current L p).getD { peerID := p } with updatedAt := t } := by
  unfold touchLocked LedgerState.current
  rw [hpend]
  cases s.dirty.get p with
  | some e => rfl
  | none => cases loadEntry L (s.read p) <;> rfl

/-- What the current entry depends on. -/
theorem LedgerState.current_congr (hpending : s'.pending p = s.pending p) (hread : s'.read p = s.read p)
    (hdirty : s'.dirty.get p = s.dirty.get p) : s'.current L p = s.current L p := by
  unfold LedgerState.current
  rw [hdirty, hpending, hread]

/-- The entry that is put. -/
theorem LedgerState.current_put_self (e : LedgerEntry) :
    LedgerState.current L { s with dirty := s.dirty.put p e } p = some e := by
  unfold LedgerState.current
  rw [SortedMap.get_put_self]
  rfl

/-- The entries of others stay. -/
theorem LedgerState.current_put_ne {q : Bytes} (h : q ≠ p) (e : LedgerEntry) :
    LedgerState.current L { s with dirty := s.dirty.put q e } p = s.current L p := by
  unfold LedgerState.current
  rw [SortedMap.get_put_ne _ (Ne.symm h)]
  rfl

/-- What else happens to the ledger leaves the entry that counts, but for its counters and the fractions of
its times. -/
theorem LedgerState.Tracking.other (hC : L.cbor.Lawful) (hvalid : validUTF8 p = true)
    (h : s.Tracking L p hist) {ev : LedgerEvent} (hstep : LedgerStep L s ev s') (hclean : Lossless p s ev)
    (hother : ev.Other) : s'.Tracking L p hist := by
  have hcounts := hstep.counts hC hvalid h.keyed hclean h.counts
  refine ⟨hstep.keyed hC h.keyed, hcounts.single, hcounts.apart, ?_⟩
  cases hstep with
  | @record c q n t answer hans =>
    by_cases hq : q = p
    · subst hq
      obtain ⟨hpend, rfl⟩ := hclean rfl
      rw [LedgerState.current_put_self, Option.getD_some, touchLocked_current hpend]
      exact (h.tracks.updated t).add n c
    · rw [LedgerState.current_put_ne hq]
      exact h.tracks
  | ping => exact hother.elim
  | @flush order hperm =>
    -- The entry in memory is the one that is written first.
    have hpending : LedgerState.pending { s with dirty := .empty, flushes := order :: s.flushes } p =
        (s.dirty.get p).toList ++ s.pending p := by
      unfold LedgerState.pending
      simp only [List.flatten_cons, List.filter_append, filter_order h.keyed p hperm]
    have hcurrent : LedgerState.current L { s with dirty := .empty, flushes := order :: s.flushes } p =
        s.current L p := by
      unfold LedgerState.current
      rw [hpending, SortedMap.get_empty]
      cases s.dirty.get p <;> rfl
    rw [hcurrent]
    exact h.tracks
  | @write e es fs fs' hfs =>
    obtain ⟨before, after, hbefore, hafter⟩ := pending_write hfs p
    by_cases he : e.peerID = p
    · subst he
      rw [if_pos rfl] at hbefore
      have hlen := h.single
      rw [hbefore, List.length_append, List.length_append, List.length_singleton] at hlen
      obtain rfl : before = [] := List.length_eq_zero_iff.mp (by omega)
      obtain rfl : after = [] := List.length_eq_zero_iff.mp (by omega)
      have hdirty : s.dirty.get e.peerID = none := by
        by_contra hne
        exact absurd (h.apart hne) (by rw [hbefore]; simp)
      have hold : s.current L e.peerID = some e := by
        unfold LedgerState.current
        rw [hdirty, hbefore]
        rfl
      have hnew : LedgerState.current L { s with
          store := s.store.put (ledgerKey e.peerID) (L.cbor.ledgerEntry.marshal e)
          flushes := fs ++ es :: fs' } e.peerID = some e.norm := by
        unfold LedgerState.current LedgerState.pending
        rw [hdirty, hafter, LedgerState.load_put hC, if_pos hvalid]
        rfl
      have htracks := h.tracks
      rw [hold] at htracks
      rw [hnew]
      exact htracks.norm
    · rw [if_neg he, List.append_nil] at hbefore
      have hpending : LedgerState.pending { s with
          store := s.store.put (ledgerKey e.peerID) (L.cbor.ledgerEntry.marshal e)
          flushes := fs ++ es :: fs' } p = s.pending p := hafter.trans hbefore.symm
      rw [LedgerState.current_congr hpending (LedgerState.read_put_ne (Ne.symm he) s _) rfl]
      exact h.tracks
  | @failed es fs fs' hfs =>
    have hnone : es.filter (fun e => e.peerID = p) = [] :=
      List.filter_eq_nil_iff.mpr fun e he heq => hclean e he (of_decide_eq_true heq)
    have hpending : LedgerState.pending { s with flushes := fs ++ fs' } p = s.pending p := by
      unfold LedgerState.pending
      rw [hfs]
      simp [hnone]
    rw [LedgerState.current_congr hpending rfl rfl]
    exact h.tracks

/-- A probe of the peer, and its report. -/
theorem LedgerState.Tracking.ping (h : s.Tracking L p hist) (hpend : s.pending p = []) (ok : Bool)
    (t t' : ClockTime) :
    LedgerState.Tracking L p (hist ++ [ok]) { s with
        dirty := s.dirty.put p ((touchLocked L s.dirty (s.read p) p t.1).pinged ok t'.1) } ∧
      (((touchLocked L s.dirty (s.read p) p t.1).pingResult ok t'.1).wentOffline = true ↔
        outage <:+ hist ++ [ok]) := by
  have htouch : (touchLocked L s.dirty (s.read p) p t.1).Tracks hist := by
    rw [touchLocked_current hpend]
    exact h.tracks.updated t.1
  refine ⟨⟨?_, h.single, fun _ => hpend, ?_⟩, htouch.wentOffline_iff_outage ok t'⟩
  · exact h.keyed.put (by rw [LedgerEntry.peerID_pinged, peerID_touchLocked h.keyed (.inl rfl)])
  · rw [LedgerState.current_put_self]
    exact htouch.pinged ok t'

/-- A probe of another peer. -/
theorem LedgerState.Tracking.ping_ne (h : s.Tracking L p hist) {q : Bytes} (hq : q ≠ p) {e : LedgerEntry}
    (he : e.peerID = q) : LedgerState.Tracking L p hist { s with dirty := s.dirty.put q e } := by
  refine ⟨h.keyed.put he, h.single, fun hne => h.apart ?_, ?_⟩
  · rwa [SortedMap.get_put_ne _ (Ne.symm hq)] at hne
  · rw [LedgerState.current_put_ne hq]
    exact h.tracks

end Tracking

/-! ## One goroutine -/

/-- What `Ping` has done when it ends, and whether it succeeded. -/
inductive Pinged (target : Bytes) : List BeatEvent → Bool → Prop
  | unopened (e : GoErr) : Pinged target [⟨.newStream target, .error e⟩] false
  | unwritten (e : GoErr) : Pinged target [⟨.newStream target, .ok ()⟩, ⟨.write target, .error e⟩] false
  | answered : Pinged target [⟨.newStream target, .ok ()⟩, ⟨.write target, .ok ()⟩] true

/-- What a goroutine has done when it ends: a ping, a record of its result, and a call if that changed
something. -/
def Probed (x : Bytes × Bytes) (evs : List BeatEvent) : Prop :=
  ∃ front ok r, Pinged x.1 front ok ∧
    evs = front ++ ⟨.recordPing x.2 ok, r⟩ :: (onTransition r).toList.map fun b => ⟨.on x.2 b, ()⟩

/-- The operations of a goroutine. -/
def BeatOp.About (x : Bytes × Bytes) : BeatOp → Prop
  | newStream target => target = x.1
  | write target => target = x.1
  | recordPing q _ => q = x.2
  | on q _ => q = x.2

/-- A goroutine that has come so far. -/
abbrev goroutine (x : Bytes × Bytes) : Env BeatSig (Unit × List BeatEvent) :=
  (Env.any BeatSig).traced fun _ l o => o.About x ∧ l.length < 4

/-- A goroutine after its ping. -/
theorem wp_recordPing {x : Bytes × Bytes} {front : List BeatEvent} {ok : Bool} (h : Pinged x.1 front ok) :
    wp (goroutine x) (beat (.recordPing x.2 ok) >>= fun result =>
      match onTransition result with
      | some wentOffline => beat (.on x.2 wentOffline)
      | none => ret ()) (fun _ w => Probed x w.2) ((), front) := by
  have hlen : front.length ≤ 2 := by cases h <;> simp
  refine wp_traced_op.mpr ⟨⟨rfl, by omega⟩, fun r _ _ => ?_⟩
  cases htrans : onTransition r with
  | none =>
    simp only [bind_eq, ret_bind, htrans]
    exact ⟨front, ok, r, h, by simp [htrans]⟩
  | some b =>
    simp only [bind_eq, ret_bind, htrans]
    refine wp_traced_op.mpr ⟨⟨rfl, ?_⟩, fun _ _ _ => ?_⟩
    · rw [List.length_append, List.length_singleton]
      omega
    · exact ⟨front, ok, r, h, by simp [htrans]⟩

/-- A goroutine from its start. -/
theorem wp_probe (x : Bytes × Bytes) : wp (goroutine x) (probe x) (fun _ w => Probed x w.2) ((), []) := by
  refine wp_traced_op.mpr ⟨⟨rfl, by decide⟩, fun r _ _ => ?_⟩
  cases r with
  | error e => exact wp_recordPing (.unopened e)
  | ok u =>
    refine wp_traced_op.mpr ⟨⟨rfl, by simp⟩, fun r _ _ => ?_⟩
    cases r with
    | error e => exact wp_recordPing (.unwritten e)
    | ok u => exact wp_recordPing .answered

section Goroutine

variable {x : Bytes × Bytes} {evs : List BeatEvent} {p : BeatM Unit}

/-- A probe is about its target. -/
theorem about_of_probe (h : Steps (Env.any BeatSig) () (probe x) evs () p) {e : BeatEvent} (he : e ∈ evs) :
    e.op.About x := by
  obtain ⟨-, -, habout, -⟩ := wp_traced_mem (wp_probe x) h he
  exact habout

/-- A probe has at most four operations. -/
theorem length_probe (h : Steps (Env.any BeatSig) () (probe x) evs () p) : evs.length ≤ 4 := by
  rcases List.eq_nil_or_concat evs with rfl | ⟨init, e, rfl⟩
  · exact Nat.zero_le _
  · rw [List.concat_eq_append] at h ⊢
    obtain ⟨-, ⟨-, hlen⟩, -⟩ := wp_traced_last (wp_probe x) h
    rw [List.length_append, List.length_singleton]
    exact hlen

/-- A probe that has ended is complete. -/
theorem probed_of_probe (h : Steps (Env.any BeatSig) () (probe x) evs () p) (hp : p.Ended) :
    Probed x evs := by
  have hwp := wp_steps (h.traced _ []) (wp_probe x)
  cases p with
  | ret a => exact hwp
  | fail e => exact hwp
  | op o k => exact hp.elim

end Goroutine

/-! ## One scan -/

/-- The peers that are to be probed: those in some table that are not the node itself and have an id. -/
structure Probable (L : Libs) (me : Bytes) (node : NodeState) (x : Bytes × Bytes) : Prop where
  listed : ∃ key raw m, node.store.get key = some raw ∧ lit "member/" <+: key ∧
    L.cbor.member.unmarshal raw = .ok m ∧
    m.peerID = x.2
  other : x.2 ≠ me
  decoded : L.peerDecode x.2 = .ok x.1

section Scan

variable {L : Libs} {P : LedgerState → LedgerEvent → Prop} {self : Bytes} {members : List Member}
  {node node' : NodeState} {evs : List NodeEvent} {w w' : BeatState} {n : ℕ}
  {tr : List ((Bytes × Bytes) × BeatEvent)} {s : Pool BeatSig (Bytes × Bytes) GoErr}

/-- The targets are the probable peers. -/
theorem mem_targets_iff (hlist : Steps nodeEnv node (allMembersAcrossGroups L) evs node' (ret members))
    {x : Bytes × Bytes} : x ∈ targets L self members ↔ Probable L self node x := by
  rw [mem_targets, (members_of_allMembers hlist).2]
  constructor
  · rintro ⟨hentry, hself, hdec⟩
    exact ⟨hentry, hself, hdec⟩
  · intro h
    exact ⟨h.listed, h.other, h.decoded⟩

/-- Operations of the heartbeat are answered. -/
theorem beat_answers (w : BeatState) (o : BeatOp) : ∃ r w', (beatEnv L fun _ _ => True).step w o r w' := by
  have t : ClockTime := ⟨1, by decide⟩
  cases o with
  | newStream target => exact ⟨.ok (), w, rfl⟩
  | write target => exact ⟨.ok (), w, rfl⟩
  | recordPing p ok => exact ⟨_, _, _, t, t, .inl rfl, trivial, rfl, rfl⟩
  | on p wentOffline => exact ⟨(), _, rfl⟩

/-- `scan` at any point, however its goroutines are scheduled and whatever else happens to the ledger. At most
eight goroutines probe at a time. It is not stuck, and takes no more than nine steps for each peer. When it
has returned, each peer in the tables, besides the node itself and those whose id does not decode, has been
pinged once, with the result recorded and a call of the callback if there was a transition; and nothing else
has been done. -/
theorem scan_probes_each (hlist : Steps nodeEnv node (allMembersAcrossGroups L) evs node' (ret members))
    (hrun : Scanning L (fun _ _ => True) self members w n tr w' s) :
    s.workers.countP (fun x => x.2.busy) ≤ maxParallel ∧
    n ≤ (targets L self members).length * 9 + 1 ∧
    (s.loop ≠ .returned →
      ∃ e w'' s', PoolStep (beatEnv L fun _ _ => True) probe maxParallel w' s e w'' s') ∧
    (s.loop = .returned → ∀ x, (Probable L self node x → Probed x (own x tr)) ∧
      (¬ Probable L self node x → own x tr = [])) := by
  have hnodup : (targets L self members).Nodup := .of_map _ (nodup_targets (members_of_allMembers hlist).1)
  refine ⟨hrun.counted.busy_le, ?_, ?_, fun hret x => ⟨fun hx => ?_, fun hx => ?_⟩⟩
  · exact hrun.steps_le hnodup fun i evs p h => length_probe h
  · exact fun hloop => hrun.counted.progress (by decide) beat_answers w' hloop
  · obtain ⟨p, hp, hperf⟩ := hrun.returned_own hnodup hret ((mem_targets_iff hlist).mpr hx)
    exact probed_of_probe hperf hp
  · exact (hrun.accounts hnodup).waiting x (.inr fun hmem => hx ((mem_targets_iff hlist).mp hmem))

end Scan

/-! ## What a scan does about one peer -/

/-- The result and the answer, if an operation records a ping of a peer. -/
def recordOf (p : Bytes) : BeatEvent → Option (Bool × PingResult)
  | ⟨.recordPing q ok, r⟩ => if q = p then some (ok, r) else none
  | _ => none

/-- What the callback is called with, if an operation calls it for a peer. -/
def callOf (p : Bytes) : BeatEvent → Option Bool
  | ⟨.on q wentOffline, _⟩ => if q = p then some wentOffline else none
  | _ => none

/-- A record of a ping. -/
@[simp] theorem recordOf_recordPing (p q : Bytes) (ok : Bool) (r : PingResult) :
    recordOf p ⟨.recordPing q ok, r⟩ = if q = p then some (ok, r) else none := rfl

/-- A stream is no record. -/
@[simp] theorem recordOf_newStream (p q : Bytes) (r : Except GoErr Unit) :
    recordOf p ⟨.newStream q, r⟩ = none := rfl

/-- Nor is a write. -/
@[simp] theorem recordOf_write (p q : Bytes) (r : Except GoErr Unit) : recordOf p ⟨.write q, r⟩ = none := rfl

/-- Nor is the callback. -/
@[simp] theorem recordOf_on (p q : Bytes) (b : Bool) (u : Unit) : recordOf p ⟨.on q b, u⟩ = none := rfl

/-- A call of the callback. -/
@[simp] theorem callOf_on (p q : Bytes) (b : Bool) (u : Unit) :
    callOf p ⟨.on q b, u⟩ = if q = p then some b else none := rfl

/-- A record is no call. -/
@[simp] theorem callOf_recordPing (p q : Bytes) (ok : Bool) (r : PingResult) :
    callOf p ⟨.recordPing q ok, r⟩ = none := rfl

/-- The results of the probes of a peer. -/
def results (p : Bytes) (tr : List ((Bytes × Bytes) × BeatEvent)) : List Bool :=
  (tr.filterMap fun x => recordOf p x.2).map Prod.fst

section Peer

variable {p : Bytes} {tr : List ((Bytes × Bytes) × BeatEvent)}
variable {x : Bytes × Bytes}

/-- A record is about its target. -/
theorem recordOf_about {e : BeatEvent} (habout : e.op.About x) (h : recordOf p e ≠ none) :
    x.2 = p := by
  obtain ⟨o, r⟩ := e
  cases o with
  | recordPing q ok =>
    obtain rfl : q = x.2 := habout
    by_contra hne
    exact h (if_neg hne)
  | newStream | write | on => exact absurd rfl h

/-- A call is about its target. -/
theorem callOf_about {e : BeatEvent} (habout : e.op.About x) (h : callOf p e ≠ none) :
    x.2 = p := by
  obtain ⟨o, r⟩ := e
  cases o with
  | on q wentOffline =>
    obtain rfl : q = x.2 := habout
    by_contra hne
    exact h (if_neg hne)
  | newStream | write | recordPing => exact absurd rfl h

/-- What is selected of a trace, where that is in one part of it. -/
theorem filterMap_own {β : Type} {f : BeatEvent → Option β} {i : Bytes × Bytes}
    (h : ∀ x ∈ tr, f x.2 ≠ none → x.1 = i) : (tr.filterMap fun x => f x.2) = (own i tr).filterMap f := by
  induction tr with
  | nil => rfl
  | cons x tr ih =>
    have ih := ih fun y hy => h y (List.mem_cons_of_mem _ hy)
    obtain ⟨j, e⟩ := x
    by_cases hj : j = i
    · subst hj
      rw [own_cons_self, List.filterMap_cons, List.filterMap_cons, ih]
    · have hnone : f e = none := by
        by_contra hne
        exact hj (h (j, e) List.mem_cons_self hne)
      simp only [own_cons_ne hj, List.filterMap_cons, hnone, ih]

/-- What a goroutine has done about its peer. -/
theorem Probed.selected {evs : List BeatEvent} (h : Probed x evs) :
    ∃ ok r, evs.filterMap (recordOf x.2) = [(ok, r)] ∧
      evs.filterMap (callOf x.2) = (onTransition r).toList := by
  obtain ⟨front, ok, r, hping, rfl⟩ := h
  have hrecord : front.filterMap (recordOf x.2) = [] := by cases hping <;> rfl
  have hcall : front.filterMap (callOf x.2) = [] := by cases hping <;> rfl
  refine ⟨ok, r, ?_, ?_⟩
  · rw [List.filterMap_append, hrecord]
    cases onTransition r <;> simp
  · rw [List.filterMap_append, hcall]
    cases onTransition r with
    | none => rfl
    | some b => simp [List.filterMap_cons]

end Peer

/-! ## Scan after scan -/

section Rounds

variable {L : Libs} {self p : Bytes} {members : List Member} {hist : List Bool} {k : ℕ} {w w' : BeatState}
  {tr : List ((Bytes × Bytes) × BeatEvent)}

/-- While a scan goes on that began with a history of a peer and so many repairs of it: the ledger knows the
history, the outages in it are those that were reported, and the repairs are those that the callback was
called for. -/
structure Accounted (L : Libs) (p : Bytes) (hist : List Bool) (k : ℕ)
    (tr : List ((Bytes × Bytes) × BeatEvent))
    (w : BeatState) : Prop where
  tracking : w.ledger.Tracking L p (hist ++ results p tr)
  reported : outages (hist ++ results p tr) =
    outages hist + (tr.filterMap fun x => recordOf p x.2).countP fun x => x.2.wentOffline
  called : w.repairs.count p = k + (tr.filterMap fun x => callOf p x.2).count true

/-- Before the scan. -/
theorem accounted_start (h : w.ledger.Tracking L p hist) : Accounted L p hist (w.repairs.count p) [] w := by
  refine ⟨?_, by simp [results], rfl⟩
  simpa [results] using h

/-- An operation that neither records a ping of the peer nor calls the callback for it. -/
theorem Accounted.skip (h : Accounted L p hist k tr w) (i : Bytes × Bytes) {e : BeatEvent}
    (hrecord : recordOf p e = none) (hcall : callOf p e = none)
    (hledger : w'.ledger.Tracking L p (hist ++ results p tr))
    (hrepairs : w'.repairs.count p = w.repairs.count p) : Accounted L p hist k (tr ++ [(i, e)]) w' := by
  have hresults : results p (tr ++ [(i, e)]) = results p tr := by
    simp [results, List.filterMap_append, hrecord]
  refine ⟨?_, ?_, ?_⟩
  · rw [hresults]
    exact hledger
  · rw [hresults, h.reported]
    simp [List.filterMap_append, hrecord]
  · rw [hrepairs, h.called]
    simp [List.filterMap_append, hcall]

/-- An operation of a goroutine. -/
theorem Accounted.step (h : Accounted L p hist k tr w) (i : Bytes × Bytes) {o : BeatOp} {r : o.Ans}
    (hs : (beatEnv L (Lossless p)).step w o r w') : Accounted L p hist k (tr ++ [(i, ⟨o, r⟩)]) w' := by
  cases o with
  | newStream target =>
    obtain rfl : w' = w := hs
    exact h.skip i rfl rfl h.tracking rfl
  | write target =>
    obtain rfl : w' = w := hs
    exact h.skip i rfl rfl h.tracking rfl
  | recordPing q ok =>
    obtain ⟨answer, t, t', hans, hclean, rfl, rfl⟩ := hs
    by_cases hq : q = p
    · subst hq
      obtain ⟨hpend, rfl⟩ := hclean rfl
      obtain ⟨htracking, hoffline⟩ := h.tracking.ping hpend ok t t'
      have hresults : ∀ r, results q (tr ++ [(i, ⟨.recordPing q ok, r⟩)]) = results q tr ++ [ok] := by
        simp [results, List.filterMap_append]
      refine ⟨?_, ?_, ?_⟩
      · rw [hresults, ← List.append_assoc]
        exact htracking
      · -- The ping is one more in both counts if it ends an outage's pattern.
        rw [hresults, ← List.append_assoc, outages_concat, h.reported]
        simp only [← hoffline]
        simp [List.filterMap_append, List.countP_append, List.countP_cons, Nat.add_assoc]
      · rw [h.called]
        simp [List.filterMap_append, List.filterMap_cons]
    · refine h.skip i (if_neg hq) rfl ?_ rfl
      have hpeer : ((touchLocked L w.ledger.dirty answer q t.1).pinged ok t'.1).peerID = q := by
        rw [LedgerEntry.peerID_pinged, peerID_touchLocked h.tracking.keyed hans]
      exact h.tracking.ping_ne hq hpeer
  | on q wentOffline =>
    obtain rfl : w' = if wentOffline then { w with repairs := q :: w.repairs } else w := hs
    have hledger : (if wentOffline then { w with repairs := q :: w.repairs } else w).ledger = w.ledger := by
      split_ifs <;> rfl
    have htracking := h.tracking
    rw [← hledger] at htracking
    by_cases hq : q = p
    · subst hq
      refine ⟨?_, ?_, ?_⟩
      · simpa [results, List.filterMap_append, List.filterMap_cons] using htracking
      · simpa [results, List.filterMap_append, List.filterMap_cons] using h.reported
      · have hcalls : ((tr ++ [(i, (⟨.on q wentOffline, r⟩ : BeatEvent))]).filterMap fun x => callOf q x.2) =
            (tr.filterMap fun x => callOf q x.2) ++ [wentOffline] := by
          simp [List.filterMap_append]
        rw [hcalls, List.count_append, ← Nat.add_assoc, ← h.called]
        cases wentOffline <;> simp
    · refine h.skip i rfl (if_neg hq) htracking ?_
      split_ifs
      · exact List.count_cons_of_ne hq
      · rfl

/-- What happens to the ledger besides. -/
theorem Accounted.drift (hC : L.cbor.Lawful) (hvalid : validUTF8 p = true) (h : Accounted L p hist k tr w)
    (hd : w.drift L (Lossless p) w') : Accounted L p hist k tr w' := by
  obtain ⟨ev, s, hother, hclean, hstep, rfl⟩ := hd
  exact ⟨h.tracking.other hC hvalid hstep hclean hother, h.reported, h.called⟩

variable {n : ℕ} {s : Pool BeatSig (Bytes × Bytes) GoErr}

/-- A scan that has returned has probed a peer once, or not at all, and has called the callback as the result
of the probe says. -/
theorem selected_of_returned {P : LedgerState → LedgerEvent → Prop}
    (hnodup : ((targets L self members).map Prod.snd).Nodup) (hrun : Scanning L P self members w n tr w' s)
    (hret : s.loop = .returned) :
    (p ∈ (targets L self members).map Prod.snd ∧ ∃ ok r, (tr.filterMap fun x => recordOf p x.2) = [(ok, r)] ∧
      (tr.filterMap fun x => callOf p x.2) = (onTransition r).toList) ∨
    (p ∉ (targets L self members).map Prod.snd ∧ (tr.filterMap fun x => recordOf p x.2) = [] ∧
      (tr.filterMap fun x => callOf p x.2) = []) := by
  have hitems : (targets L self members).Nodup := .of_map _ hnodup
  -- Only the goroutine of the peer does something about it.
  have habout : ∀ y ∈ tr, y.1 ∈ targets L self members ∧ y.2.op.About y.1 := by
    intro y hy
    have hmem := hrun.mem_items hitems hy
    obtain ⟨q, hperf⟩ := (hrun.accounts hitems).performs hmem
    exact ⟨hmem, about_of_probe hperf (mem_own.mpr hy)⟩
  by_cases hp : p ∈ (targets L self members).map Prod.snd
  · obtain ⟨x, hx, rfl⟩ := List.mem_map.mp hp
    have hsame : ∀ y ∈ targets L self members, y.2 = x.2 → y = x := fun y hy =>
      List.inj_on_of_nodup_map hnodup hy hx
    obtain ⟨q, hq, hperf⟩ := hrun.returned_own hitems hret hx
    obtain ⟨ok, r, hrecord, hcall⟩ := (probed_of_probe hperf hq).selected
    refine .inl ⟨hp, ok, r, ?_, ?_⟩
    · rw [filterMap_own fun y hy hne => hsame _ (habout y hy).1 (recordOf_about (habout y hy).2 hne), hrecord]
    · rw [filterMap_own fun y hy hne => hsame _ (habout y hy).1 (callOf_about (habout y hy).2 hne), hcall]
  · refine .inr ⟨hp, List.filterMap_eq_nil_iff.mpr fun y hy => ?_,
      List.filterMap_eq_nil_iff.mpr fun y hy => ?_⟩
    · by_contra hne
      exact hp (List.mem_map.mpr ⟨y.1, (habout y hy).1, recordOf_about (habout y hy).2 hne⟩)
    · by_contra hne
      exact hp (List.mem_map.mpr ⟨y.1, (habout y hy).1, callOf_about (habout y hy).2 hne⟩)

/-- After a scan there are as many more repairs of a peer as there are outages. -/
theorem repairs_of_scan (hC : L.cbor.Lawful) (hvalid : validUTF8 p = true)
    (hnodup : ((targets L self members).map Prod.snd).Nodup) (htracking : w.ledger.Tracking L p hist)
    (hcount : w.repairs.count p = outages hist) (hrun : Scanning L (Lossless p) self members w n tr w' s)
    (hret : s.loop = .returned) :
    w'.ledger.Tracking L p (hist ++ results p tr) ∧ w'.repairs.count p = outages (hist ++ results p tr) ∧
      (results p tr).length = if p ∈ (targets L self members).map Prod.snd then 1 else 0 := by
  have hacc : Accounted L p hist (w.repairs.count p) tr w' :=
    hrun.invariant (fun tr w => Accounted L p hist _ tr w) (accounted_start htracking)
      (fun _ _ i _ _ _ h hs => h.step i hs) fun _ _ _ h hd => h.drift hC hvalid hd
  refine ⟨hacc.tracking, ?_, ?_⟩
  · rw [hacc.reported, hacc.called, hcount]
    rcases selected_of_returned hnodup hrun hret with ⟨-, ok, r, hrecord, hcall⟩ | ⟨-, hrecord, hcall⟩
    · rw [hrecord, hcall]
      cases hoffline : r.wentOffline <;> cases honline : r.wentOnline <;>
        simp [onTransition, hoffline, honline]
    · rw [hrecord, hcall]
      rfl
  · unfold results
    rcases selected_of_returned hnodup hrun hret with ⟨hp, ok, r, hrecord, -⟩ | ⟨hp, hrecord, -⟩
    · rw [hrecord, if_pos hp]
      rfl
    · rw [hrecord, if_neg hp]
      rfl

/-- From a ledger without an entry of a peer, over any number of scans, whatever is recorded and flushed
meanwhile, as long as no step of the ledger loses anything of the peer. Each scan probes the peer once if it
is to be probed. The repairs of the peer that were started are as many as its outages: the times that three
probes failed one after the other with one just before that succeeded. -/
theorem repairs_eq_outages (hC : L.cbor.Lawful) (hvalid : validUTF8 p = true) {store : SortedMap Bytes Bytes}
    (hfiled : (LedgerState.opened store).Filed L)
    (hnone : loadEntry L ((LedgerState.opened store).read p) = none)
    {rounds : List (List (Bytes × Bytes) × List ((Bytes × Bytes) × BeatEvent))}
    (h : Beating L (Lossless p) self ⟨.opened store, []⟩ rounds w) :
    (∀ r ∈ rounds, (results p r.2).length = if p ∈ r.1.map Prod.snd then 1 else 0) ∧
      w.repairs.count p = outages (rounds.flatMap fun r => results p r.2) := by
  suffices hall : w.ledger.Tracking L p (rounds.flatMap fun r => results p r.2) ∧
      (∀ r ∈ rounds, (results p r.2).length = if p ∈ r.1.map Prod.snd then 1 else 0) ∧
      w.repairs.count p = outages (rounds.flatMap fun r => results p r.2) from hall.2
  induction h with
  | start => exact ⟨LedgerState.tracking_opened hfiled hnone, by simp, rfl⟩
  | wait _ hd ih =>
    obtain ⟨htracking, hlen, hcount⟩ := ih
    obtain ⟨ev, s, hother, hclean, hstep, rfl⟩ := hd
    exact ⟨htracking.other hC hvalid hstep hclean hother, hlen, hcount⟩
  | unlisted _ _ ih =>
    obtain ⟨htracking, hlen, hcount⟩ := ih
    rw [List.flatMap_append, List.flatMap_singleton, results, List.filterMap_nil,
      List.map_nil, List.append_nil]
    exact ⟨htracking, List.forall_mem_append.mpr ⟨hlen, List.forall_mem_singleton.mpr rfl⟩, hcount⟩
  | scan _ hlist hrun hret ih =>
    obtain ⟨htracking, hlen, hcount⟩ := ih
    obtain ⟨htracking', hcount', hlen'⟩ :=
      repairs_of_scan hC hvalid (nodup_targets (members_of_allMembers hlist).1)
      htracking hcount hrun hret
    rw [List.flatMap_append, List.flatMap_singleton]
    exact ⟨htracking', List.forall_mem_append.mpr ⟨hlen, List.forall_mem_singleton.mpr hlen'⟩, hcount'⟩

end Rounds

/-! ## A peer that goes offline -/

section Sample

variable {L : Libs} {P : LedgerState → LedgerEvent → Prop}

/-- A goroutine can come to its end with either result, while no flush is under way. -/
theorem exists_probe (hP : ∀ s q ok, s.flushes = [] → P s (.ping q ok (s.read q))) (x : Bytes × Bytes)
    (ok : Bool) {w : BeatState} (hw : w.ledger.flushes = []) :
    ∃ evs w', Steps (beatEnv L P) w (probe x) evs w' (ret ()) ∧
      (∀ p, (evs.filterMap (recordOf p)).map Prod.fst = if x.2 = p then [ok] else []) ∧
        w'.ledger.flushes = [] := by
  have t : ClockTime := ⟨1, by decide⟩
  let e := touchLocked L w.ledger.dirty (w.ledger.read x.2) x.2 t.1
  let w₁ : BeatState := { w with ledger :=
    { w.ledger with dirty := w.ledger.dirty.put x.2 (e.pinged ok t.1) } }
  have hrecord : (beatEnv L P).step w (.recordPing x.2 ok) (e.pingResult ok t.1) w₁ :=
    ⟨_, t, t, .inl rfl, hP _ _ _ hw, rfl, rfl⟩
  -- What follows the record is a call or nothing.
  have hrest : ∃ evs w', Steps (beatEnv L P) w₁ (match onTransition (e.pingResult ok t.1) with
      | some wentOffline => beat (.on x.2 wentOffline)
      | none => ret ()) evs w' (ret ()) ∧ (∀ p, evs.filterMap (recordOf p) = []) ∧
        w'.ledger.flushes = [] := by
    cases onTransition (e.pingResult ok t.1) with
    | none => exact ⟨[], w₁, .refl _ _, fun _ => rfl, hw⟩
    | some b =>
      refine ⟨[⟨.on x.2 b, ()⟩], _, .op rfl (.refl _ _), fun _ => rfl, ?_⟩
      cases b <;> exact hw
  obtain ⟨evs, w', hsteps, hnone, hw'⟩ := hrest
  cases ok with
  | true =>
    refine ⟨⟨.newStream x.1, .ok ()⟩ :: ⟨.write x.1, .ok ()⟩ :: ⟨.recordPing x.2 true,
      e.pingResult true t.1⟩ :: evs,
      w', .op rfl (.op rfl (.op hrecord hsteps)), fun p => ?_, hw'⟩
    by_cases hp : x.2 = p <;> simp [List.filterMap_cons, hnone, hp]
  | false =>
    refine ⟨⟨.newStream x.1, .error .eof⟩ :: ⟨.recordPing x.2 false, e.pingResult false t.1⟩ :: evs, w',
      .op rfl (.op hrecord hsteps), fun p => ?_, hw'⟩
    by_cases hp : x.2 = p <;> simp [List.filterMap_cons, hnone, hp]

/-- A scan can end with any results of its probes. -/
theorem exists_scan (hP : ∀ s q ok, s.flushes = [] → P s (.ping q ok (s.read q))) (self : Bytes)
    (members : List Member) (answers : Bytes → Bool) {w : BeatState} (hw : w.ledger.flushes = []) :
    ∃ n tr w', Scanning L P self members w n tr w' ⟨.returned, [], 0, 0⟩ ∧ w'.ledger.flushes = [] ∧
      ∀ p, results p tr = ((targets L self members).filter (·.2 = p)).map fun x => answers x.2 := by
  -- One goroutine after the other, with the elements that are left.
  have hloop : ∀ rest n tr w₁, Scanning L P self members w n tr w₁ ⟨.head rest, [], 0, 0⟩ →
      w₁.ledger.flushes = [] →
      ∃ n' tr' w', Scanning L P self members w n' tr' w' ⟨.returned, [], 0, 0⟩ ∧ w'.ledger.flushes = [] ∧
        ∀ p, results p tr' = results p tr ++ (rest.filter (·.2 = p)).map fun x => answers x.2 := by
    intro rest
    induction rest with
    | nil =>
      intro n tr w₁ hrun hw₁
      have hend := hrun.step .wait
      rw [Option.toList_none, List.append_nil] at hend
      exact ⟨_, _, _, hend, hw₁, fun _ => (List.append_nil _).symm⟩
    | cons x rest ih =>
      intro n tr w₁ hrun hw₁
      obtain ⟨evs, w₂, hsteps, hresult, hw₂⟩ := exists_probe hP x (answers x.2) hw₁
      obtain ⟨m, hnext⟩ := hrun.next (show 0 < maxParallel by decide) hsteps trivial
      obtain ⟨n', tr', w', hend, hw', hresults⟩ := ih m _ w₂ hnext hw₂
      refine ⟨n', tr', w', hend, hw', fun p => ?_⟩
      have hown : results p (tr ++ evs.map fun e => (x, e)) =
          results p tr ++ if x.2 = p then [answers x.2] else [] := by
        rw [← hresult, results, List.filterMap_append, List.map_append, List.filterMap_map]
        rfl
      rw [hresults, hown, List.append_assoc]
      by_cases hp : x.2 = p <;> simp [hp]
  obtain ⟨n, tr, w', hrun, hw', hresults⟩ := hloop _ 0 [] w .start hw
  exact ⟨n, tr, w', hrun, hw', hresults⟩

/-- The entry of a peer. -/
def samplePeerEntry (peer : Bytes) : Member := { peerID := peer }

/-- A node with two peers in one of its tables. -/
def sampleTables : NodeState :=
  (NodeState.fresh.putKey (memberKey (lit "nas") (lit "bob"))
    (sampleLibs.cbor.member.marshal (samplePeerEntry (lit "bob")))).putKey
      (memberKey (lit "nas") (lit "carol"))
    (sampleLibs.cbor.member.marshal (samplePeerEntry (lit "carol")))

/-- The peers that the node probes. -/
def sampleTargets : List (Bytes × Bytes) := [(lit "bob", lit "bob"), (lit "carol", lit "carol")]

/-- The node lists both peers. -/
theorem exists_sampleMembers :
    ∃ evs members, Steps nodeEnv sampleTables (allMembersAcrossGroups sampleLibs) evs sampleTables
      (ret members) ∧
      targets sampleLibs (lit "alice") members = sampleTargets := by
  have hlawful : sampleLibs.cbor.Lawful := sampleCbor_lawful
  have hdec : ∀ peer, validUTF8 peer = true → sampleLibs.cbor.member.unmarshal
      (sampleLibs.cbor.member.marshal (samplePeerEntry peer)) = .ok (samplePeerEntry peer).norm := by
    intro peer hpeer
    refine hlawful.member.unmarshal_marshal ?_
    simp only [Member.validText, samplePeerEntry, hpeer]
    decide
  have hall : decodeValues sampleLibs.cbor.member (sampleTables.scan (lit "member/")) =
      [(samplePeerEntry (lit "bob")).norm, (samplePeerEntry (lit "carol")).norm] := by
    have hscan : sampleTables.scan (lit "member/") =
        [(memberKey (lit "nas") (lit "bob"), sampleLibs.cbor.member.marshal (samplePeerEntry (lit "bob"))),
          (memberKey (lit "nas") (lit "carol"), sampleLibs.cbor.member.marshal
            (samplePeerEntry (lit "carol")))] := rfl
    have hbob := hdec (lit "bob") (by decide)
    have hcarol := hdec (lit "carol") (by decide)
    rw [hscan]
    simp [decodeValues, hbob, hcarol, Except.toOption]
  refine ⟨[⟨.storeIterate (lit "member/"), (sampleTables.scan (lit "member/"), none)⟩,
    ⟨.rangeMap ((decodeValues sampleLibs.cbor.member (sampleTables.scan (lit "member/"))).map
      Member.peerID).dedup,
      ⟨_, .refl _⟩⟩], _, .op ⟨rfl, .inl rfl⟩ (.op rfl (.refl _ _)), ?_⟩
  rw [hall]
  rfl

/-- Scan after scan, the peer can answer or not. -/
theorem exists_beating (hist : List Bool) :
    ∃ rounds w, Beating sampleLibs (Lossless (lit "bob")) (lit "alice") ⟨.opened .empty, []⟩ rounds w ∧
      (rounds.flatMap fun r => results (lit "bob") r.2) = hist ∧ w.ledger.flushes = [] := by
  have hclean : ∀ (s : LedgerState) q ok, s.flushes = [] →
      Lossless (lit "bob") s (.ping q ok (s.read q)) := by
    rintro s q ok hs rfl
    refine ⟨?_, rfl⟩
    rw [LedgerState.pending, hs]
    rfl
  obtain ⟨evs, members, hlist, htargets⟩ := exists_sampleMembers
  induction hist using List.reverseRecOn with
  | nil => exact ⟨[], _, .start, rfl, rfl⟩
  | append_singleton hist ok ih =>
    obtain ⟨rounds, w, hbeating, hresults, hw⟩ := ih
    obtain ⟨n, tr, w', hrun, hw', hresult⟩ := exists_scan hclean (lit "alice") members (fun _ => ok) hw
    refine ⟨_, w', hbeating.scan hlist hrun rfl, ?_, hw'⟩
    rw [List.flatMap_append, List.flatMap_singleton, hresults, hresult, htargets]
    rfl

/-- A peer that answers once and then no more is repaired once, however often it is probed. -/
theorem sampleBob_repaired :
    ∃ rounds w, Beating sampleLibs (Lossless (lit "bob")) (lit "alice") ⟨.opened .empty, []⟩ rounds w ∧
      (rounds.flatMap fun r => results (lit "bob") r.2) = [true, false, false, false, false] ∧
      w.repairs.count (lit "bob") = 1 := by
  obtain ⟨rounds, w, hbeating, hresults, -⟩ := exists_beating [true, false, false, false, false]
  have hcount := (repairs_eq_outages sampleCbor_lawful (by decide) filed_empty rfl hbeating).2
  refine ⟨rounds, w, hbeating, hresults, ?_⟩
  rw [hcount, hresults]
  decide

/-- A scan of a node with two peers in its tables, of which one answers. -/
theorem sampleTables_scanned :
    ∃ (evs : List NodeEvent) (members : List Member) (n : ℕ) (tr : List ((Bytes × Bytes) × BeatEvent))
      (w' : BeatState),
      Steps nodeEnv sampleTables (allMembersAcrossGroups sampleLibs) evs sampleTables (ret members) ∧
      Scanning sampleLibs (fun _ _ => True) (lit "alice") members ⟨.opened .empty, []⟩ n tr w'
        ⟨.returned, [], 0, 0⟩ ∧
      results (lit "bob") tr = [true] ∧ results (lit "carol") tr = [false] ∧
      n ≤ (targets sampleLibs (lit "alice") members).length * 9 + 1 ∧
        ∀ x ∈ sampleTargets, Probed x (own x tr) := by
  obtain ⟨evs, members, hlist, htargets⟩ := exists_sampleMembers
  have hw : (⟨.opened .empty, []⟩ : BeatState).ledger.flushes = [] := rfl
  obtain ⟨n, tr, w', hrun, -, hresults⟩ :=
    exists_scan (P := fun _ _ => True) (fun _ _ _ _ => trivial) (lit "alice")
    members (· = lit "bob") hw
  obtain ⟨-, hsteps, -, hreturned⟩ := scan_probes_each hlist hrun
  rw [htargets] at hresults
  refine ⟨evs, members, n, tr, w', hlist, hrun, hresults _, hresults _, hsteps,
    fun x hx => (hreturned rfl x).1 ?_⟩
  rw [← mem_targets_iff hlist, htargets]
  exact hx

end Sample

end FnShare
