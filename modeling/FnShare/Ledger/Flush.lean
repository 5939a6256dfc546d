import FnShare.Group
import FnShare.Ledger

/-!
# A flush that fails

`Flush` takes the entries out of memory and then writes them, in the order of a map, and returns at the
first write that fails. `All` shows the entries of the store, overlaid with those in memory. So after a
flush that failed, `All` shows of each pending entry what the store has of it: the entry itself with its
times in whole seconds if it was written, and what was there before if it was not. That is what `All` showed
just before the flush only where these are equal (`all_flush_eq_iff`).
-/

namespace FnShare

/-! ## The code -/

section Code

variable (L : Libs)

/-- The map that `All` makes of the pairs of an iteration. -/
def diskEntries (pairs : List (Bytes × Bytes)) : SortedMap Bytes LedgerEntry :=
  (decodeValues L.cbor.ledgerEntry pairs).foldl (fun disk e => disk.put e.peerID e) .empty

/-- `All`, as a map from peers to entries, where the store answers. -/
def LedgerState.all (s : LedgerState) : SortedMap Bytes LedgerEntry :=
  s.dirty.entries.foldl (fun disk kv => disk.put kv.1 kv.2)
    (diskEntries L (s.store.entries.filter fun kv => (lit "ledger/local/").isPrefixOf kv.1))

/-- A `Flush` that goes through the entries in some order and has written these when it returns. -/
def LedgerState.flushed (s : LedgerState) (written : List LedgerEntry) : LedgerState :=
  { s with
    store := written.foldl (fun st e => st.put (ledgerKey e.peerID) (L.cbor.ledgerEntry.marshal e))
      s.store
    dirty := .empty }

end Code

/-! ## What `All` shows -/

section All

variable {L : Libs} {s : LedgerState} {peerID : Bytes}

/-- A search that can find one element only. -/
theorem find?_eq_of_unique {α : Type} {l : List α} {p : α → Bool} {o : Option α}
    (h : ∀ a, (a ∈ l ∧ p a = true) ↔ o = some a) : l.find? p = o := by
  cases hfind : l.find? p with
  | none =>
    cases o with
    | none => rfl
    | some a =>
      obtain ⟨hmem, hp⟩ := (h a).mpr rfl
      exact absurd hp (List.find?_eq_none.mp hfind a hmem)
  | some a => exact ((h a).mp ⟨List.mem_of_find?_eq_some hfind, List.find?_some hfind⟩).symm

/-- The entries of a peer in the store are the one that is loaded. -/
theorem LedgerState.Filed.mem_iff (h : s.Filed L) (peerID : Bytes) (e : LedgerEntry) :
    (e ∈ decodeValues L.cbor.ledgerEntry
        (s.store.entries.filter fun kv => (lit "ledger/local/").isPrefixOf kv.1) ∧ e.peerID = peerID) ↔
      loadEntry L (s.read peerID) = some e := by
  have hload : ∀ p, loadEntry L (s.read p) = some e ↔
      ∃ raw, s.store.get (ledgerKey p) = some raw ∧ L.cbor.ledgerEntry.unmarshal raw = .ok e := by
    intro p
    unfold LedgerState.read
    cases s.store.get (ledgerKey p) with
    | none => simp [loadEntry]
    | some raw => simp [loadEntry, toOption_eq_some]
  rw [mem_decodeValues]
  constructor
  · rintro ⟨⟨⟨key, raw⟩, hmem, hdec⟩, rfl⟩
    rw [List.mem_filter, SortedMap.mem_entries_iff, List.isPrefixOf_iff_prefix] at hmem
    obtain ⟨hget, p, rfl⟩ := hmem
    have hp : loadEntry L (s.read p) = some e := (hload p).mpr ⟨raw, hget, hdec⟩
    rw [h p e hp]
    exact hp
  · intro he
    obtain ⟨raw, hget, hdec⟩ := (hload peerID).mp he
    refine ⟨⟨(ledgerKey peerID, raw), ?_, hdec⟩, h peerID e he⟩
    rw [List.mem_filter, SortedMap.mem_entries_iff, List.isPrefixOf_iff_prefix]
    exact ⟨hget, List.prefix_append _ _⟩

/-- `All` shows the entry in memory, or the one in the store. -/
theorem LedgerState.Keyed.get_all (h : s.Keyed L) (peerID : Bytes) :
    (s.all L).get peerID = (s.dirty.get peerID).or (loadEntry L (s.read peerID)) := by
  have hdirty : (s.dirty.entries.reverse.find? fun kv => kv.1 = peerID) =
      (s.dirty.get peerID).map fun e => (peerID, e) := by
    refine find?_eq_of_unique fun kv => ?_
    rw [List.mem_reverse, decide_eq_true_eq, SortedMap.mem_entries_iff, Option.map_eq_some_iff]
    constructor
    · rintro ⟨hget, rfl⟩
      exact ⟨kv.2, hget, rfl⟩
    · rintro ⟨e, hget, rfl⟩
      exact ⟨hget, rfl⟩
  have hdisk : ((decodeValues L.cbor.ledgerEntry
      (s.store.entries.filter fun kv => (lit "ledger/local/").isPrefixOf kv.1)).reverse.find?
        fun e => e.peerID = peerID) = loadEntry L (s.read peerID) := by
    refine find?_eq_of_unique fun e => ?_
    rw [List.mem_reverse, decide_eq_true_eq]
    exact h.filed.mem_iff peerID e
  unfold LedgerState.all diskEntries
  rw [SortedMap.get_foldl_put Prod.fst Prod.snd,
    SortedMap.get_foldl_put LedgerEntry.peerID (fun e => e), hdirty, hdisk]
  cases s.dirty.get peerID <;> simp

end All

/-! ## A flush -/

section Flush

variable {L : Libs} {s : LedgerState} {peerID : Bytes}

/-- What is loaded of an entry that was written. -/
def LedgerEntry.reloaded (e : LedgerEntry) : Option LedgerEntry :=
  if e.validText then some e.norm else none

/-- After a flush, an entry that was written is loaded with its times in whole seconds, and one of a peer
that nothing was written of as before. -/
theorem LedgerState.load_flushed (hC : L.cbor.Lawful) {written : List LedgerEntry} {o : Option LedgerEntry}
    (h : written.filter (fun e => e.peerID = peerID) = o.toList) :
    loadEntry L ((s.flushed L written).read peerID) =
      o.elim (loadEntry L (s.read peerID)) LedgerEntry.reloaded := by
  have hfind : (written.reverse.find? fun e => ledgerKey e.peerID = ledgerKey peerID) = o := by
    refine find?_eq_of_unique fun e => ?_
    have hmem : e ∈ written.filter (fun e => e.peerID = peerID) ↔ o = some e := by
      rw [h, Option.mem_toList]
    rw [← hmem, List.mem_filter, List.mem_reverse, decide_eq_true_eq, decide_eq_true_eq]
    exact and_congr_right fun _ => ⟨ledgerKey_inj, congrArg ledgerKey⟩
  have hget : (s.flushed L written).store.get (ledgerKey peerID) =
      (o.map L.cbor.ledgerEntry.marshal).or (s.store.get (ledgerKey peerID)) := by
    unfold LedgerState.flushed
    rw [SortedMap.get_foldl_put (fun e => ledgerKey e.peerID) L.cbor.ledgerEntry.marshal, hfind]
  unfold LedgerState.read
  rw [hget]
  cases o with
  | none => rfl
  | some e =>
    have hlaw := hC.ledgerEntry e
    simp only [Option.map_some, Option.some_or, loadEntry, Option.elim_some, LedgerEntry.reloaded]
    by_cases hvalid : e.validText = true
    · rw [if_pos hvalid] at hlaw ⊢
      rw [hlaw]
      rfl
    · rw [if_neg hvalid] at hlaw ⊢
      obtain ⟨err, herr⟩ := hlaw
      rw [herr]
      rfl

/-- The entry of a peer in memory is among those that are written, or among the others. -/
theorem filter_split (h : s.Keyed L) {written rest : List LedgerEntry}
    (hperm : (written ++ rest).Perm (s.dirty.entries.map Prod.snd)) (peerID : Bytes) :
    ∃ o o' : Option LedgerEntry, written.filter (fun e => e.peerID = peerID) = o.toList ∧
      rest.filter (fun e => e.peerID = peerID) = o'.toList ∧ s.dirty.get peerID = o.or o' ∧
      (o = none ∨ o' = none) := by
  have horder := filter_order h peerID hperm
  rw [List.filter_append] at horder
  cases hget : s.dirty.get peerID with
  | none =>
    rw [hget] at horder
    obtain ⟨hw, hr⟩ := List.append_eq_nil_iff.mp horder
    exact ⟨none, none, hw, hr, rfl, .inl rfl⟩
  | some e =>
    rw [hget] at horder
    rcases List.append_eq_singleton_iff.mp horder with ⟨hw, hr⟩ | ⟨hw, hr⟩
    · exact ⟨none, some e, hw, hr, rfl, .inl rfl⟩
    · exact ⟨some e, none, hw, hr, rfl, .inr rfl⟩

/-- A flush keeps the entries under the keys of their peers. -/
theorem LedgerState.Keyed.flushed (hC : L.cbor.Lawful) (h : s.Keyed L) (written rest : List LedgerEntry)
    (hperm : (written ++ rest).Perm (s.dirty.entries.map Prod.snd)) : (s.flushed L written).Keyed L := by
  refine ⟨fun p e hload => ?_, fun p e hget => ?_⟩
  · obtain ⟨o, -, hw, -⟩ := filter_split h hperm p
    rw [LedgerState.load_flushed hC hw] at hload
    cases o with
    | none => exact h.filed p e hload
    | some e' =>
      have hmem : e' ∈ written.filter (fun e => e.peerID = p) := by simp [hw]
      simp only [Option.elim_some, LedgerEntry.reloaded] at hload
      split_ifs at hload
      obtain rfl := Option.some.inj hload
      exact of_decide_eq_true (List.mem_filter.mp hmem).2
  · exact absurd hget (by simp [LedgerState.flushed])

/-- What `All` shows of a peer after a flush. -/
theorem LedgerState.Keyed.get_all_flushed (hC : L.cbor.Lawful) (h : s.Keyed L)
    (written rest : List LedgerEntry) (hperm : (written ++ rest).Perm (s.dirty.entries.map Prod.snd))
    (peerID : Bytes) :
    ((s.flushed L written).all L).get peerID = loadEntry L ((s.flushed L written).read peerID) := by
  rw [(h.flushed hC written rest hperm).get_all]
  rfl

/-- `Flush` fails to write an entry, after it has written those before it. Then `All` shows of every peer what
it showed just before, if and only if the entries that were written have valid text and times of whole
seconds, and the store has the others already. -/
theorem all_flush_eq_iff (hC : L.cbor.Lawful) (h : s.Keyed L) (written rest : List LedgerEntry)
    (failed : LedgerEntry)
    (hperm : (written ++ failed :: rest).Perm (s.dirty.entries.map Prod.snd)) :
    (∀ p, ((s.flushed L written).all L).get p = (s.all L).get p) ↔
      (∀ e ∈ written, e.validText = true ∧ e.norm = e) ∧
        ∀ e ∈ failed :: rest, loadEntry L (s.read e.peerID) = some e := by
  -- For one peer, by where its entry is.
  have hpeer : ∀ p, ((s.flushed L written).all L).get p = (s.all L).get p ↔
      (∀ e ∈ written.filter (fun e => e.peerID = p), e.validText = true ∧ e.norm = e) ∧
        ∀ e ∈ (failed :: rest).filter (fun e => e.peerID = p), loadEntry L (s.read p) = some e := by
    intro p
    obtain ⟨o, o', hw, hr, hget, hone⟩ := filter_split h hperm p
    rw [h.get_all_flushed hC _ _ hperm, LedgerState.load_flushed hC hw, h.get_all, hget, hw, hr]
    cases o with
    | none =>
      cases o' with
      | none => simp
      | some e => simp
    | some e =>
      obtain rfl := hone.resolve_left (by simp)
      by_cases hvalid : e.validText = true
      · simp [LedgerEntry.reloaded, hvalid]
      · simp [LedgerEntry.reloaded, hvalid]
  constructor
  · intro hall
    refine ⟨fun e he => ?_, fun e he => ?_⟩
    · exact ((hpeer e.peerID).mp (hall _)).1 e (List.mem_filter.mpr ⟨he, by simp⟩)
    · exact ((hpeer e.peerID).mp (hall _)).2 e (List.mem_filter.mpr ⟨he, by simp⟩)
  · rintro ⟨hwritten, hrest⟩ p
    refine (hpeer p).mpr ⟨fun e he => hwritten e (List.mem_filter.mp he).1, fun e he => ?_⟩
    obtain ⟨hmem, hp⟩ := List.mem_filter.mp he
    rw [decide_eq_true_eq] at hp
    rw [← hp]
    exact hrest e hmem

end Flush

/-! ## A pending entry and a write that fails -/

/-- Five bytes are recorded and the write of the entry fails: before the flush `All` shows them, and after it
nothing of the peer. -/
theorem sampleLedger_forgets :
    ∃ s, LedgerRun sampleLibs Faultless (.opened .empty)
        [.record .storedForThem (lit "bob") 5 (.error errStoreNotFound)] s ∧
      ([] ++ [sampleEntry 5]).Perm (s.dirty.entries.map Prod.snd) ∧
      (s.all sampleLibs).get (lit "bob") = some (sampleEntry 5) ∧
      ((s.flushed sampleLibs []).all sampleLibs).get (lit "bob") = none := by
  have h0 : LedgerRun sampleLibs Faultless (.opened .empty) [] (.opened .empty) := .nil
  have hstep : LedgerStep sampleLibs (.opened .empty)
      (.record .storedForThem (lit "bob") 5 (.error errStoreNotFound)) _ := .record _ _ _ 0 (.inl rfl)
  have hkeyed := hstep.keyed sampleCbor_lawful filed_empty.keyed
  refine ⟨_, h0.snoc rfl hstep, .refl _, ?_, ?_⟩
  · rw [hkeyed.get_all]
    rfl
  · rw [hkeyed.get_all_flushed sampleCbor_lawful [] [sampleEntry 5] (.refl _)]
    rfl

/-- Five bytes are recorded and flushed. Then nothing is recorded, and the write of the entry fails: `All`
shows the same as before. -/
theorem sampleLedger_remembers :
    ∃ s : LedgerState, ([] ++ [sampleEntry 5]).Perm (s.dirty.entries.map Prod.snd) ∧
      ∀ p, ((s.flushed sampleLibs []).all sampleLibs).get p = (s.all sampleLibs).get p := by
  have hpending := filed_empty.keyed.put (L := sampleLibs) (e := sampleEntry 5) rfl
  have hflushed := hpending.flushed sampleCbor_lawful [sampleEntry 5] [] (.refl _)
  have hkeyed := hflushed.put (e := sampleEntry 5) rfl
  refine ⟨_, .refl _, (all_flush_eq_iff sampleCbor_lawful hkeyed [] [] (sampleEntry 5) (.refl _)).mpr
    ⟨?_, ?_⟩⟩
  · simp
  · intro e he
    obtain rfl := List.mem_singleton.mp he
    have hwritten : [sampleEntry 5].filter (fun e => e.peerID = lit "bob") =
        (some (sampleEntry 5)).toList := by decide
    have hload := LedgerState.load_flushed (L := sampleLibs) (s := .opened .empty) sampleCbor_lawful hwritten
    have hreloaded : (sampleEntry 5).reloaded = some (sampleEntry 5) := by decide
    exact hload.trans hreloaded

end FnShare
