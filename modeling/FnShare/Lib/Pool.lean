import FnShare.Lib.Interleave
import Mathlib.Data.List.Nodup

/-!
# A loop that starts goroutines, so many at a time

The loop goes through a list. For each element it adds one to a wait group, sends on a channel with `cap`
places, and starts a goroutine that does a job for the element. The goroutine receives from the channel when
the job has ended, and then tells the wait group. After the last element the loop waits for the group.

`PoolStep` is one step of the loop, of a goroutine or of its job, with the counters of the channel and of the
wait group as the runtime has them. The counters agree with the goroutines (`Pool.Counted`), so that at most
`cap` jobs run at any time, a pool that has not returned is never stuck (`Pool.Counted.progress`), and a run
has a bound on its steps if the jobs have one on their operations (`PoolRun.steps_le`). When the loop returns,
each job has run once, from its beginning to its end (`PoolRun.returned_own`).
-/

namespace FnShare

open Prog

section Definitions

variable (S : Sig) (ι ε : Type)

/-- Where the loop is. -/
inductive Loop
  /-- Before an element, with these left. -/
  | head (rest : List ι)
  /-- After `wg.Add(1)`, before the send. -/
  | added (i : ι) (rest : List ι)
  /-- After the send, before the goroutine is started. -/
  | acquired (i : ι) (rest : List ι)
  /-- After `wg.Wait()`. -/
  | returned

/-- Where a goroutine is. -/
inductive Worker
  /-- In its job. -/
  | body (p : Prog S ε Unit)
  /-- After the receive, before `wg.Done()`. -/
  | released

/-- The loop, the goroutines that have not ended, the number of elements in the channel and the counter of the
wait group. -/
structure Pool where
  loop : Loop ι
  workers : List (ι × Worker S ε)
  sem : ℕ
  wg : ℕ

end Definitions

variable {S : Sig} {W ι ε : Type}

/-- The elements for which no goroutine has been started. -/
def Loop.rest : Loop ι → List ι
  | head rest => rest
  | added i rest => i :: rest
  | acquired i rest => i :: rest
  | returned => []

/-- Whether the loop has added to the wait group for an element without a goroutine. -/
def Loop.adds : Loop ι → ℕ
  | added _ _ => 1
  | acquired _ _ => 1
  | _ => 0

/-- Whether the loop has sent for an element without a goroutine. -/
def Loop.sends : Loop ι → ℕ
  | acquired _ _ => 1
  | _ => 0

/-- Whether a goroutine is in its job. -/
def Worker.busy : Worker S ε → Bool
  | body _ => true
  | released => false

/-- A program that has ended. -/
def Prog.Ended {α : Type} : Prog S ε α → Prop
  | op _ _ => False
  | _ => True

/-- The pool at the start of the loop. -/
def Pool.start (items : List ι) : Pool S ι ε := ⟨.head items, [], 0, 0⟩

/-- One step of a pool, with the operation that a job performs in it if it is one of a job. -/
inductive PoolStep (E : Env S W) (job : ι → Prog S ε Unit) (cap : ℕ) :
    W → Pool S ι ε → Option (ι × Event S) → W → Pool S ι ε → Prop
  | add {w : W} {i : ι} {rest : List ι} {ws : List (ι × Worker S ε)} {sem wg : ℕ} :
      PoolStep E job cap w ⟨.head (i :: rest), ws, sem, wg⟩ none w ⟨.added i rest, ws, sem, wg + 1⟩
  | acquire {w : W} {i : ι} {rest : List ι} {ws : List (ι × Worker S ε)} {sem wg : ℕ} (h : sem < cap) :
      PoolStep E job cap w ⟨.added i rest, ws, sem, wg⟩ none w ⟨.acquired i rest, ws, sem + 1, wg⟩
  | go {w : W} {i : ι} {rest : List ι} {ws : List (ι × Worker S ε)} {sem wg : ℕ} :
      PoolStep E job cap w ⟨.acquired i rest, ws, sem, wg⟩ none w
        ⟨.head rest, (i, .body (job i)) :: ws, sem, wg⟩
  | op {w w' : W} {l : Loop ι} {ws ws' : List (ι × Worker S ε)} {i : ι} {o : S.Op} {r : S.Ans o}
      {k : S.Ans o → Prog S ε Unit} {sem wg : ℕ} (hs : E.step w o r w') :
      PoolStep E job cap w ⟨l, ws ++ (i, .body (.op o k)) :: ws', sem, wg⟩ (some (i, ⟨o, r⟩))
        w' ⟨l, ws ++ (i, .body (k r)) :: ws', sem, wg⟩
  | release {w : W} {l : Loop ι} {ws ws' : List (ι × Worker S ε)} {i : ι} {p : Prog S ε Unit} {sem wg : ℕ}
      (hp : p.Ended) :
      PoolStep E job cap w ⟨l, ws ++ (i, .body p) :: ws', sem + 1, wg⟩ none w
        ⟨l, ws ++ (i, .released) :: ws', sem, wg⟩
  | done {w : W} {l : Loop ι} {ws ws' : List (ι × Worker S ε)} {i : ι} {sem wg : ℕ} :
      PoolStep E job cap w ⟨l, ws ++ (i, .released) :: ws', sem, wg + 1⟩ none w ⟨l, ws ++ ws', sem, wg⟩
  | wait {w : W} {ws : List (ι × Worker S ε)} {sem : ℕ} :
      PoolStep E job cap w ⟨.head [], ws, sem, 0⟩ none w ⟨.returned, ws, sem, 0⟩

/-- A run of a pool from its start, with its steps counted and what the jobs have done. Between its steps the
world can change by itself. -/
inductive PoolRun (E : Env S W) (D : W → W → Prop) (job : ι → Prog S ε Unit) (cap : ℕ)
    (w : W) (items : List ι) :
    ℕ → List (ι × Event S) → W → Pool S ι ε → Prop
  | start : PoolRun E D job cap w items 0 [] w (.start items)
  | step {n : ℕ} {tr : List (ι × Event S)} {w' w'' : W} {s s' : Pool S ι ε} {e : Option (ι × Event S)}
      (h : PoolRun E D job cap w items n tr w' s) (hs : PoolStep E job cap w' s e w'' s') :
      PoolRun E D job cap w items (n + 1) (tr ++ e.toList) w'' s'
  | drift {n : ℕ} {tr : List (ι × Event S)} {w' w'' : W} {s : Pool S ι ε}
    (h : PoolRun E D job cap w items n tr w' s)
      (hd : D w' w'') : PoolRun E D job cap w items n tr w'' s

variable {E : Env S W} {D : W → W → Prop} {job : ι → Prog S ε Unit} {cap : ℕ} {w w' : W} {items : List ι}
  {n : ℕ} {tr : List (ι × Event S)} {s s' : Pool S ι ε} {e : Option (ι × Event S)}
variable {ws ws' : List (ι × Worker S ε)} {i : ι} {x : ι × Worker S ε}

/-- What holds at the start and is kept by each operation of a job, and by what happens besides, holds in the
end. -/
theorem PoolRun.invariant (I : List (ι × Event S) → W → Prop) (hinit : I [] w)
    (hstep : ∀ tr v i o r v', I tr v → E.step v o r v' → I (tr ++ [(i, ⟨o, r⟩)]) v')
    (hdrift : ∀ tr v v', I tr v → D v v' → I tr v') (h : PoolRun E D job cap w items n tr w' s) :
    I tr w' := by
  induction h with
  | start => exact hinit
  | drift _ hd ih => exact hdrift _ _ _ ih hd
  | step _ hs ih =>
    cases hs with
    | op hexec => exact hstep _ _ _ _ _ _ ih hexec
    | add => simpa using ih
    | acquire => simpa using ih
    | go => simpa using ih
    | release => simpa using ih
    | done => simpa using ih
    | wait => simpa using ih

/-- A goroutine goes on while everything else waits. -/
theorem PoolRun.work {l : Loop ι} {p p' : Prog S ε Unit} {sem wg : ℕ} {evs : List (Event S)} {w'' : W}
    (h : PoolRun E D job cap w items n tr w' ⟨l, ws ++ (i, .body p) :: ws', sem, wg⟩)
    (hs : Steps E w' p evs w'' p') :
    PoolRun E D job cap w items (n + evs.length) (tr ++ evs.map fun e => (i, e)) w''
      ⟨l, ws ++ (i, .body p') :: ws', sem, wg⟩ := by
  induction hs generalizing n tr with
  | refl w p => simpa using h
  | @op v v' _ o r k evs p' hexec _ ih =>
    have hnext := ih (h.step (.op hexec))
    rw [Option.toList_some, List.append_assoc, List.singleton_append, Nat.add_assoc, Nat.add_comm 1] at hnext
    exact hnext

/-- The job of the next element is started and comes to its end, while the loop waits. -/
theorem PoolRun.next (hcap : 0 < cap) {rest : List ι} {evs : List (Event S)} {p : Prog S ε Unit} {w'' : W}
    (h : PoolRun E D job cap w items n tr w' ⟨.head (i :: rest), [], 0, 0⟩)
    (hs : Steps E w' (job i) evs w'' p) (hp : p.Ended) :
    ∃ m, PoolRun E D job cap w items m (tr ++ evs.map fun e => (i, e)) w'' ⟨.head rest, [], 0, 0⟩ := by
  have hgo := ((h.step .add).step (.acquire hcap)).step .go
  simp only [Option.toList_none, List.append_nil] at hgo
  have hwork : PoolRun E D job cap w items _ _ w'' ⟨.head rest, [] ++ (i, .body p) :: [], 1, 1⟩ := hgo.work hs
  have hend := (hwork.step (.release hp)).step .done
  simp only [Option.toList_none, List.append_nil] at hend
  exact ⟨_, hend⟩

/-! ## The counters -/

/-- The counters agree with the loop and the goroutines. -/
structure Pool.Counted (cap : ℕ) (s : Pool S ι ε) : Prop where
  sem : s.sem = s.workers.countP (fun x => x.2.busy) + s.loop.sends
  sem_le : s.sem ≤ cap
  wg : s.wg = s.workers.length + s.loop.adds
  returned : s.loop = .returned → s.workers = []

/-- The counters at the start. -/
theorem Pool.counted_start (cap : ℕ) (items : List ι) : (Pool.start items : Pool S ι ε).Counted cap :=
  ⟨rfl, Nat.zero_le _, rfl, fun h => absurd h (by simp [Pool.start])⟩

/-- A step keeps the counters right. -/
theorem PoolStep.counted (hs : PoolStep E job cap w s e w' s') (h : s.Counted cap) : s'.Counted cap := by
  obtain ⟨hsem, hle, hwg, hret⟩ := h
  cases hs with
  | add =>
    refine ⟨hsem, hle, ?_, fun habs => absurd habs (by simp)⟩
    simpa [Loop.adds] using hwg
  | acquire hlt =>
    refine ⟨?_, hlt, hwg, fun habs => absurd habs (by simp)⟩
    simpa [Loop.sends] using hsem
  | go =>
    refine ⟨?_, hle, ?_, fun habs => absurd habs (by simp)⟩
    · simpa [Loop.sends, Worker.busy] using hsem
    · simpa [Loop.adds] using hwg
  | op =>
    refine ⟨?_, hle, ?_, fun habs => absurd (hret habs) (by simp)⟩
    · simpa [Worker.busy, List.countP_append] using hsem
    · simpa using hwg
  | @release l ws ws' i p sem wg hp =>
    refine ⟨?_, Nat.le_of_succ_le hle, ?_, fun habs => absurd (hret habs) (by simp)⟩
    · simp only [List.countP_append, List.countP_cons, Worker.busy, if_true] at hsem
      simp only [List.countP_append, List.countP_cons, Worker.busy, Bool.false_eq_true, if_false]
      omega
    · simpa using hwg
  | @done l ws ws' i sem wg =>
    refine ⟨?_, hle, ?_, fun habs => absurd (hret habs) (by simp)⟩
    · simpa [Worker.busy, List.countP_append] using hsem
    · simp only [List.length_append, List.length_cons] at hwg ⊢
      omega
  | @wait ws sem =>
    refine ⟨hsem, hle, hwg, fun _ => ?_⟩
    -- The group is empty, so no goroutine is left.
    have hnone : ws.length = 0 := by
      simp only [Loop.adds] at hwg
      omega
    exact List.length_eq_zero_iff.mp hnone

/-- The counters agree with the goroutines in every run. -/
theorem PoolRun.counted (h : PoolRun E D job cap w items n tr w' s) : s.Counted cap := by
  induction h with
  | start => exact Pool.counted_start cap items
  | step _ hs ih => exact hs.counted ih
  | drift _ _ ih => exact ih

/-- At most `cap` jobs run at a time. -/
theorem Pool.Counted.busy_le (h : s.Counted cap) : s.workers.countP (fun x => x.2.busy) ≤ cap := by
  have hsem := h.sem
  have hle := h.sem_le
  omega

/-- A goroutine can go on. -/
theorem Pool.Counted.worker_step (h : s.Counted cap) (hE : ∀ w o, ∃ r w', E.step w o r w') (w : W)
    (hx : x ∈ s.workers) : ∃ e w' s', PoolStep E job cap w s e w' s' := by
  obtain ⟨l, workers, sem, wg⟩ := s
  obtain ⟨ws, ws', rfl⟩ := List.append_of_mem hx
  obtain ⟨hsem, -, hwg, -⟩ := h
  obtain ⟨i, job' | _⟩ := x
  · -- It has sent, so that the receive does not block.
    obtain ⟨sem, rfl⟩ : ∃ m, sem = m + 1 := by
      simp only [List.countP_append, List.countP_cons, Worker.busy, if_true] at hsem
      exact ⟨sem - 1, by omega⟩
    cases job' with
    | ret a => exact ⟨_, _, _, .release trivial⟩
    | fail e => exact ⟨_, _, _, .release trivial⟩
    | op o k =>
      obtain ⟨r, w', hs⟩ := hE w o
      exact ⟨_, _, _, .op hs⟩
  · obtain ⟨wg, rfl⟩ : ∃ m, wg = m + 1 := by
      simp only [List.length_append, List.length_cons] at hwg
      exact ⟨wg - 1, by omega⟩
    exact ⟨_, _, _, .done⟩

/-- A pool that has not returned is not stuck, if operations are answered. -/
theorem Pool.Counted.progress (h : s.Counted cap) (hcap : 0 < cap) (hE : ∀ w o, ∃ r w', E.step w o r w')
    (w : W) (hloop : s.loop ≠ .returned) : ∃ e w' s', PoolStep E job cap w s e w' s' := by
  have hworker : ∀ x ∈ s.workers, ∃ e w' s', PoolStep E job cap w s e w' s' :=
    fun _ hx => h.worker_step hE w hx
  obtain ⟨loop, workers, sem, wg⟩ := s
  obtain ⟨hsem, hle, hwg, -⟩ := h
  cases loop with
  | returned => exact absurd rfl hloop
  | acquired i rest => exact ⟨_, _, _, .go⟩
  | added i rest =>
    by_cases hlt : sem < cap
    · exact ⟨_, _, _, .acquire hlt⟩
    · -- The channel is full of the sends of goroutines in their jobs.
      have hbusy : 0 < workers.countP (fun x => x.2.busy) := by
        simp only [Loop.sends] at hsem
        omega
      obtain ⟨x, hx, -⟩ := List.countP_pos_iff.mp hbusy
      exact hworker x hx
  | head rest =>
    cases rest with
    | cons i rest => exact ⟨_, _, _, .add⟩
    | nil =>
      cases workers with
      | cons x ws => exact hworker x List.mem_cons_self
      | nil =>
        obtain rfl : wg = 0 := hwg
        exact ⟨_, _, _, .wait⟩

/-! ## What the jobs have done -/

/-- The goroutines are for different elements. -/
theorem ne_of_mem_workers {rest : List ι} {a : Worker S ε}
    (h : (rest ++ (ws ++ (i, a) :: ws').map Prod.fst).Nodup) (hx : x ∈ ws ++ ws') : i ≠ x.1 := by
  have hsplit : (i :: (rest ++ ((ws ++ ws').map Prod.fst))).Nodup := by
    rw [List.map_append, List.map_cons, ← List.append_assoc, List.nodup_middle, List.append_assoc,
      ← List.map_append] at h
    exact h
  intro heq
  refine (List.nodup_cons.mp hsplit).1 ?_
  rw [heq]
  exact List.mem_append_right _ (List.mem_map_of_mem hx)

/-- One worker and the others. -/
theorem mem_workers {y : ι × Worker S ε} :
    x ∈ ws ++ y :: ws' ↔ x = y ∨ x ∈ ws ++ ws' := by
  simp only [List.mem_append, List.mem_cons]
  tauto

section Accounts

variable [DecidableEq ι]

/-- What a job has done, and what it has left to do. -/
def Performs (job : ι → Prog S ε Unit) (tr : List (ι × Event S)) (i : ι) (p : Prog S ε Unit) : Prop :=
  Steps (Env.any S) () (job i) (own i tr) () p

/-- A job performs an operation. -/
theorem Performs.op {o : S.Op} {k : S.Ans o → Prog S ε Unit} (h : Performs job tr i (.op o k)) (r : S.Ans o) :
    Performs job (tr ++ [(i, ⟨o, r⟩)]) i (k r) := by
  unfold Performs
  rw [own_append, own_cons_self, own_nil]
  exact h.trans (.op trivial (.refl _ _))

/-- Another's operation last. -/
theorem own_concat_ne {j : ι} (h : j ≠ i) (ev : Event S) : own i (tr ++ [(j, ev)]) = own i tr := by
  rw [own_append, own_cons_ne h, own_nil, List.append_nil]

/-- Another job performs an operation. -/
theorem Performs.other {j : ι} {p : Prog S ε Unit} (h : Performs job tr i p) (hne : j ≠ i) (ev : Event S) :
    Performs job (tr ++ [(j, ev)]) i p := by
  unfold Performs
  rw [own_concat_ne hne]
  exact h

/-- An element is in one place: the loop has not come to it, or its goroutine runs, or its job has ended. -/
structure Pool.Accounts (job : ι → Prog S ε Unit) (items : List ι) (tr : List (ι × Event S))
    (s : Pool S ι ε) :
    Prop where
  nodup : (s.loop.rest ++ s.workers.map Prod.fst).Nodup
  subset : ∀ i ∈ s.loop.rest ++ s.workers.map Prod.fst, i ∈ items
  waiting : ∀ i, i ∈ s.loop.rest ∨ i ∉ items → own i tr = []
  running : ∀ i p, (i, .body p) ∈ s.workers → Performs job tr i p
  ended : ∀ i ∈ items, i ∉ s.loop.rest → (∀ p, (i, .body p) ∉ s.workers) → ∃ p, p.Ended ∧ Performs job tr i p

/-- The jobs at the start. -/
theorem Pool.accounts_start (hnodup : items.Nodup) :
    (Pool.start items : Pool S ι ε).Accounts job items [] where
  nodup := by simpa [Pool.start, Loop.rest] using hnodup
  subset := by simp [Pool.start, Loop.rest]
  waiting _ _ := rfl
  running i p hmem := absurd hmem (by simp [Pool.start])
  ended i hi hrest := absurd hi hrest

/-- A step keeps the accounts. -/
theorem PoolStep.accounts (hs : PoolStep E job cap w s e w' s') (h : s.Accounts job items tr) :
    s'.Accounts job items (tr ++ e.toList) := by
  obtain ⟨hnodup, hsubset, hwaiting, hrunning, hended⟩ := h
  cases hs with
  | add => simpa using ⟨hnodup, hsubset, hwaiting, hrunning, hended⟩
  | acquire => simpa using ⟨hnodup, hsubset, hwaiting, hrunning, hended⟩
  | wait => simpa using ⟨hnodup, hsubset, hwaiting, hrunning, hended⟩
  | @go i rest ws sem wg =>
    rw [Option.toList_none, List.append_nil]
    have hperm : (rest ++ (i :: ws.map Prod.fst)).Perm ((i :: rest) ++ ws.map Prod.fst) := List.perm_middle
    refine ⟨hperm.nodup_iff.mpr hnodup, fun j hj => hsubset j (hperm.mem_iff.mp hj),
      fun j hj => ?_, fun j q hq => ?_,
      fun j hj hrest hidle => ?_⟩
    · exact hwaiting j (hj.imp_left (List.mem_cons_of_mem i))
    · rcases List.mem_cons.mp hq with heq | hq
      · -- The job of a new goroutine has all of it to do.
        obtain ⟨rfl, hbody⟩ := Prod.mk.inj heq
        obtain rfl := Worker.body.inj hbody
        unfold Performs
        rw [hwaiting j (.inl List.mem_cons_self)]
        exact .refl _ _
      · exact hrunning j q hq
    · have hne : j ≠ i := fun heq => hidle (job i) (by rw [heq]; exact List.mem_cons_self)
      refine hended j hj (fun hmem => ?_) fun q hq => hidle q (List.mem_cons_of_mem _ hq)
      exact (List.mem_cons.mp hmem).elim hne hrest
  | @op _ l ws ws' i o r k sem wg hexec =>
    have hkeys : (ws ++ (i, Worker.body (k r)) :: ws').map Prod.fst =
        (ws ++ (i, Worker.body (.op o k)) :: ws').map Prod.fst := by simp
    have hi : i ∈ l.rest ++ (ws ++ (i, Worker.body (.op o k)) :: ws').map Prod.fst := by simp
    refine ⟨?_, ?_, fun j hj => ?_, fun j q hq => ?_, fun j hj hrest hidle => ?_⟩
    · rw [hkeys]
      exact hnodup
    · rw [hkeys]
      exact hsubset
    · -- The element of a goroutine is not one that waits.
      have hne : i ≠ j := by
        rintro rfl
        rcases hj with hj | hj
        · exact (List.nodup_append.mp hnodup).2.2 i hj i (by simp) rfl
        · exact hj (hsubset i hi)
      exact (own_concat_ne hne _).trans (hwaiting j hj)
    · rcases mem_workers.mp hq with heq | hq
      · obtain ⟨rfl, hbody⟩ := Prod.mk.inj heq
        obtain rfl := Worker.body.inj hbody
        exact (hrunning j _ (by simp)).op r
      · exact (hrunning j q (mem_workers.mpr (.inr hq))).other (ne_of_mem_workers hnodup hq) _
    · have hne : i ≠ j := by
        rintro rfl
        exact hidle (k r) (by simp)
      obtain ⟨q, hq, hperf⟩ := hended j hj hrest fun q hq => by
        rcases mem_workers.mp hq with heq | hq
        · exact hne (Prod.mk.inj heq).1.symm
        · exact hidle q (mem_workers.mpr (.inr hq))
      exact ⟨q, hq, hperf.other hne _⟩
  | @release l ws ws' i p sem wg hp =>
    rw [Option.toList_none, List.append_nil]
    have hkeys : (ws ++ (i, Worker.released) :: ws').map Prod.fst = (ws ++ (i, Worker.body p) :: ws').map
        Prod.fst := by
      rw [List.map_append, List.map_append, List.map_cons, List.map_cons]
    refine ⟨?_, ?_, hwaiting, fun j q hq => ?_, fun j hj hrest hidle => ?_⟩
    · rw [hkeys]
      exact hnodup
    · rw [hkeys]
      exact hsubset
    · rcases mem_workers.mp hq with heq | hq
      · exact absurd (Prod.mk.inj heq).2 (by simp)
      · exact hrunning j q (mem_workers.mpr (.inr hq))
    · by_cases hji : j = i
      · subst hji
        exact ⟨p, hp, hrunning j p (by simp)⟩
      · refine hended j hj hrest fun q hq => ?_
        rcases mem_workers.mp hq with heq | hq
        · exact hji (Prod.mk.inj heq).1
        · exact hidle q (mem_workers.mpr (.inr hq))
  | @done l ws ws' i sem wg =>
    rw [Option.toList_none, List.append_nil]
    have hsub : (ws ++ ws').Sublist (ws ++ (i, Worker.released) :: ws') :=
      (List.sublist_cons_self _ _).append_left ws
    have hkeys := (hsub.map Prod.fst).append_left l.rest
    refine ⟨hnodup.sublist hkeys, fun j hj => hsubset j (hkeys.subset hj), hwaiting, fun j q hq => ?_,
      fun j hj hrest hidle => hended j hj hrest fun q hq => ?_⟩
    · exact hrunning j q (hsub.subset hq)
    · rcases mem_workers.mp hq with heq | hq
      · exact absurd (Prod.mk.inj heq).2 (by simp)
      · exact hidle q hq

/-- The accounts of every run. -/
theorem PoolRun.accounts (h : PoolRun E D job cap w items n tr w' s) (hnodup : items.Nodup) :
    s.Accounts job items tr := by
  induction h with
  | start => exact Pool.accounts_start hnodup
  | step _ hs ih => exact hs.accounts ih
  | drift _ _ ih => exact ih

/-- Only the elements of the list have jobs. -/
theorem PoolRun.mem_items (h : PoolRun E D job cap w items n tr w' s) (hnodup : items.Nodup) {x : ι × Event S}
    (hx : x ∈ tr) : x.1 ∈ items := by
  by_contra hnot
  have hown := (h.accounts hnodup).waiting x.1 (.inr hnot)
  have hmem : x.2 ∈ own x.1 tr := mem_own.mpr hx
  rw [hown] at hmem
  exact absurd hmem (by simp)

/-- Each job has been begun, or run to its end, or not begun. -/
theorem Pool.Accounts.performs (h : s.Accounts job items tr) (hi : i ∈ items) :
    ∃ p, Performs job tr i p := by
  by_cases hrest : i ∈ s.loop.rest
  · refine ⟨job i, ?_⟩
    unfold Performs
    rw [h.waiting i (.inl hrest)]
    exact .refl _ _
  by_cases hrun : ∃ p, (i, .body p) ∈ s.workers
  · obtain ⟨p, hp⟩ := hrun
    exact ⟨p, h.running i p hp⟩
  · obtain ⟨p, -, hperf⟩ := h.ended i hi hrest (not_exists.mp hrun)
    exact ⟨p, hperf⟩

/-- When the loop has returned, each job has run to its end. -/
theorem PoolRun.returned_own (h : PoolRun E D job cap w items n tr w' s) (hnodup : items.Nodup)
    (hret : s.loop = .returned) (hi : i ∈ items) : ∃ p, p.Ended ∧ Performs job tr i p := by
  have hworkers := h.counted.returned hret
  refine (h.accounts hnodup).ended i hi ?_ fun p hp => ?_
  · rw [hret]
    simp [Loop.rest]
  · rw [hworkers] at hp
    exact absurd hp (by simp)

end Accounts

/-! ## How long it takes -/

/-- What the loop and the goroutines have left to do besides the jobs. -/
def Pool.left (s : Pool S ι ε) : ℕ :=
  s.workers.length + s.workers.countP (fun x => x.2.busy) +
    match s.loop with
    | .head rest => 5 * rest.length + 1
    | .added _ rest => 5 * rest.length + 5
    | .acquired _ rest => 5 * rest.length + 4
    | .returned => 0

/-- Each step is one of a job, or there is less to do besides. -/
theorem PoolStep.left_add (hs : PoolStep E job cap w s e w' s') : s'.left + 1 = s.left + e.toList.length := by
  cases hs <;> simp [Pool.left, Worker.busy, List.countP_append] <;> omega

/-- The steps done and those left. -/
theorem PoolRun.steps_add (h : PoolRun E D job cap w items n tr w' s) :
    n + s.left = 5 * items.length + 1 + tr.length := by
  induction h with
  | start => simp [Pool.left, Pool.start]
  | @step n tr w' w'' s s' e _ hs ih =>
    have hleft := hs.left_add
    rw [List.length_append]
    omega
  | drift _ _ ih => exact ih

/-- How much one of them has done. -/
theorem length_own [DecidableEq ι] (i : ι) (tr : List (ι × Event S)) :
    (own i tr).length = tr.countP fun x => decide (x.1 = i) := by
  induction tr with
  | nil => rfl
  | cons x tr ih =>
    obtain ⟨j, ev⟩ := x
    by_cases hj : j = i
    · subst hj
      simp [ih]
    · rw [own_cons_ne hj, ih, List.countP_cons_of_neg (by simpa using hj)]

/-- If no part of a trace is longer than `m`, the trace is no longer than this. -/
theorem length_le_of_own [DecidableEq ι] {m : ℕ} (hmem : ∀ x ∈ tr, x.1 ∈ items)
    (hown : ∀ i ∈ items, (own i tr).length ≤ m) : tr.length ≤ items.length * m := by
  induction items generalizing tr with
  | nil =>
    have hnil : tr = [] := List.eq_nil_iff_forall_not_mem.mpr fun x hx => absurd (hmem x hx) (by simp)
    simp [hnil]
  | cons i items ih =>
    -- The trace without the part of the first element.
    let others := tr.filter fun x => !decide (x.1 = i)
    have hothers : others.length ≤ items.length * m := by
      refine ih (fun x hx => ?_) fun j hj => ?_
      · obtain ⟨hx, hne⟩ := List.mem_filter.mp hx
        exact (List.mem_cons.mp (hmem x hx)).resolve_left (by simpa using hne)
      · calc (own j others).length ≤ (own j tr).length := (List.filter_sublist.filterMap _).length_le
          _ ≤ m := hown j (List.mem_cons_of_mem i hj)
    have hfirst := hown i List.mem_cons_self
    calc tr.length = (own i tr).length + others.length := by
          rw [length_own, ← List.countP_eq_length_filter, List.length_eq_countP_add_countP
            fun x => decide (x.1 = i)]
          simp
      _ ≤ m + items.length * m := Nat.add_le_add hfirst hothers
      _ = (i :: items).length * m := by rw [List.length_cons, Nat.succ_mul, Nat.add_comm]

/-- If no job performs more than `m` operations, no run is longer than this. -/
theorem PoolRun.steps_le [DecidableEq ι] (h : PoolRun E D job cap w items n tr w' s) (hnodup : items.Nodup)
    {m : ℕ} (hjob : ∀ i evs p, Steps (Env.any S) () (job i) evs () p → evs.length ≤ m) :
    n ≤ items.length * (m + 5) + 1 := by
  have hadd := h.steps_add
  have hlen : tr.length ≤ items.length * m := by
    refine length_le_of_own (fun x hx => h.mem_items hnodup hx) fun i hi => ?_
    obtain ⟨p, hp⟩ := (h.accounts hnodup).performs hi
    exact hjob i _ p hp
  rw [Nat.mul_add]
  omega

end FnShare
