import FnShare.Lib.Prog
import Mathlib.Logic.Function.Basic

/-!
# Programs that run concurrently

A system is a world that several programs act on, one operation at a time and in any order; any number
of them can be started at any time, and the world can also change by itself. What a program can rely on
is a relation `R` that everything else keeps between two worlds, and what it has to guarantee is that
its own operations keep it too. `System.under R` is the environment of one program among the others:
before each operation the world can have moved along `R`.

`System.Reach.guarantee` puts the programs together. If each program that can be started keeps `R` where
the others do, then whatever the order, all of them do. `System.Reach.invariant` is the case of a relation
that only keeps a property of worlds, with a kind that all operations are of. `wp_of_traced` serves the
programs of which it is known what they do when (`Env.traced`): if the facts that the operations of a program
establish are stable, they hold of everything that it has done.

Where the order itself matters, `Together` has it: a family of programs that run together, with the trace of
all of them. `TogetherIf` are the runs of which every step meets a condition.
-/

namespace FnShare

open Prog

/-- A system of programs of type `Prog S ε α`, each with a label in `N`, that act on a world in `W`. -/
structure System (S : Sig) (W N ε α : Type) where
  /-- What an operation of the program with a label can do to the world and answer. -/
  exec : N → W → (o : S.Op) → S.Ans o → W → Prop
  /-- The programs that can be started. -/
  start : N → Prog S ε α → Prop
  /-- What can happen without a program. -/
  drift : W → W → Prop

namespace System

variable {S : Sig} {W N ε α : Type} {sys : System S W N ε α} {R : W → W → Prop}
variable {w₀ w w' : W} {n : N} {ps : List (N × Prog S ε α)} {p : Prog S ε α}

/-- From the world `w₀`, the system can reach the world `w` with the programs `ps` left to run. -/
inductive Reach (sys : System S W N ε α) (w₀ : W) : W → List (N × Prog S ε α) → Prop
  | init : Reach sys w₀ w₀ []
  | start {w : W} {ps : List (N × Prog S ε α)} {n : N} {p : Prog S ε α} (h : Reach sys w₀ w ps)
      (hp : sys.start n p) : Reach sys w₀ w ((n, p) :: ps)
  | step {w w' : W} {ps qs : List (N × Prog S ε α)} {n : N} {o : S.Op} {r : S.Ans o}
      {k : S.Ans o → Prog S ε α} (h : Reach sys w₀ w (ps ++ (n, .op o k) :: qs))
      (hs : sys.exec n w o r w') : Reach sys w₀ w' (ps ++ (n, k r) :: qs)
  | drift {w w' : W} {ps : List (N × Prog S ε α)} (h : Reach sys w₀ w ps) (hd : sys.drift w w') :
      Reach sys w₀ w' ps

/-- A step of the first program. -/
theorem Reach.step_head {o : S.Op} {r : S.Ans o} {k : S.Ans o → Prog S ε α}
    (h : sys.Reach w₀ w ((n, .op o k) :: ps)) (hs : sys.exec n w o r w') :
    sys.Reach w₀ w' ((n, k r) :: ps) := by
  rw [← List.nil_append ((n, k r) :: ps)]
  exact .step h hs

/-- What the first program does over a part of the world, while nothing else happens. -/
theorem Reach.steps {V : Type} {E : Env S V} (f : V → W)
    (hE : ∀ v o r v', E.step v o r v' → sys.exec n (f v) o r (f v')) {v v' : V} {p' : Prog S ε α}
    {evs : List (Event S)} (h : sys.Reach w₀ (f v) ((n, p) :: ps)) (hs : Steps E v p evs v' p') :
    sys.Reach w₀ (f v') ((n, p') :: ps) := by
  induction hs with
  | refl v p => exact h
  | op hstep _ ih => exact ih (Reach.step_head h (hE _ _ _ _ hstep))

/-- The environment of a program that runs alone. -/
def alone (sys : System S W N ε α) (n : N) : Env S W where
  step := sys.exec n
  guard _ _ := True

/-- What a program that is started does, while nothing else happens. -/
theorem Reach.run {p' : Prog S ε α} {evs : List (Event S)} (h : sys.Reach w₀ w ps) (hp : sys.start n p)
    (hs : Steps (sys.alone n) w p evs w' p') : sys.Reach w₀ w' ((n, p') :: ps) :=
  Reach.steps id (fun _ _ _ _ hstep => hstep) (.start h hp) hs

/-- A run of a system is one of a system that can do more. -/
theorem Reach.mono {sys' : System S W N ε α}
    (hexec : ∀ n w o r w', sys.exec n w o r w' → sys'.exec n w o r w')
    (hstart : ∀ n p, sys.start n p → sys'.start n p) (hdrift : ∀ w w', sys.drift w w' → sys'.drift w w')
    (h : sys.Reach w₀ w ps) : sys'.Reach w₀ w ps := by
  induction h with
  | init => exact .init
  | start _ hp ih => exact .start ih (hstart _ _ hp)
  | step _ hs ih => exact .step ih (hexec _ _ _ _ _ hs)
  | drift _ hd ih => exact .drift ih (hdrift _ _ hd)

/-- The system in the runs of which every operation, with its answer, is of a kind. -/
def limited (sys : System S W N ε α) (A : (o : S.Op) → S.Ans o → Prop) : System S W N ε α where
  exec n w o r w' := A o r ∧ sys.exec n w o r w'
  start := sys.start
  drift := sys.drift

/-- The environment of one program, where everything else keeps `R`. It may perform what keeps `R`
too. -/
def under (sys : System S W N ε α) (R : W → W → Prop) (n : N) : Env S W where
  step w o r w' := ∃ v, R w v ∧ sys.exec n v o r w'
  guard w o := ∀ v, R w v → ∀ r w', sys.exec n v o r w' → R v w'

/-- A program that keeps `R` still does after the others have moved. -/
theorem wp_under_stable (htrans : ∀ u v w, R u v → R v w → R u w)
    (h : wp (sys.under R n) p (fun _ _ => True) w) (hR : R w w') :
    wp (sys.under R n) p (fun _ _ => True) w' := by
  cases p with
  | ret a => trivial
  | fail e => trivial
  | op o k =>
    refine ⟨fun v hv => h.1 v (htrans _ _ _ hR hv), ?_⟩
    rintro r w'' ⟨v, hv, hs⟩
    exact h.2 r w'' ⟨v, htrans _ _ _ hR hv, hs⟩

/-- If what happens by itself and the programs that can be started keep `R`, whatever the others do,
then everything that can be reached is reached along `R`, and the programs that are left go on so. -/
theorem Reach.guarantee (hrefl : ∀ w, R w w) (htrans : ∀ u v w, R u v → R v w → R u w)
    (hdrift : ∀ w w', R w₀ w → sys.drift w w' → R w w')
    (hstart : ∀ n p w, R w₀ w → sys.start n p → wp (sys.under R n) p (fun _ _ => True) w)
    (h : sys.Reach w₀ w ps) : R w₀ w ∧ ∀ np ∈ ps, wp (sys.under R np.1) np.2 (fun _ _ => True) w := by
  induction h with
  | init => exact ⟨hrefl _, by simp⟩
  | @start w ps n p h hp ih =>
    refine ⟨ih.1, ?_⟩
    intro np hnp
    rcases List.mem_cons.mp hnp with rfl | hnp
    · exact hstart n p w ih.1 hp
    · exact ih.2 np hnp
  | @step w w' ps qs n o r k h hs ih =>
    have hop := ih.2 (n, .op o k) (by simp)
    -- The operation is admissible, so the others see a move along `R`.
    have hR : R w w' := hop.1 w (hrefl w) r w' hs
    refine ⟨htrans _ _ _ ih.1 hR, ?_⟩
    intro np hnp
    rcases List.mem_append.mp hnp with hnp | hnp
    · exact wp_under_stable htrans (ih.2 np (by simp [hnp])) hR
    · rcases List.mem_cons.mp hnp with rfl | hnp
      · exact hop.2 r w' ⟨w, hrefl w, hs⟩
      · exact wp_under_stable htrans (ih.2 np (by simp [hnp])) hR
  | @drift w w' ps h hd ih =>
    have hR : R w w' := hdrift w w' ih.1 hd
    exact ⟨htrans _ _ _ ih.1 hR, fun np hnp => wp_under_stable htrans (ih.2 np hnp) hR⟩

/-- The environment of one program where everything else keeps the invariant `I`. It may perform operations of
the kind `A` that keep `I`. -/
def inside (sys : System S W N ε α) (I : W → Prop) (A : S.Op → Prop) (n : N) : Env S W where
  step _ o r w' := ∃ v, I v ∧ sys.exec n v o r w'
  guard _ o := A o ∧ ∀ v r w', I v → sys.exec n v o r w' → I w'

/-- In an environment that only keeps an invariant, it does not matter where a program is. -/
theorem wp_inside_stable {I : W → Prop} {A : S.Op → Prop} (h : wp (sys.inside I A n) p (fun _ _ => True) w)
    (w' : W) : wp (sys.inside I A n) p (fun _ _ => True) w' := by
  cases p with
  | ret a => trivial
  | fail e => trivial
  | op o k => exact h

/-- If what happens by itself and the programs that can be started keep an invariant, it holds of everything
that can be reached, and the programs that are left perform operations of the kind `A` only. -/
theorem Reach.invariant {I : W → Prop} {A : S.Op → Prop} (hinit : I w₀)
    (hdrift : ∀ w w', I w → sys.drift w w' → I w')
    (hstart : ∀ n p w, sys.start n p → wp (sys.inside I A n) p (fun _ _ => True) w) (h : sys.Reach w₀ w ps) :
    I w ∧ ∀ np ∈ ps, wp (sys.inside I A np.1) np.2 (fun _ _ => True) w := by
  induction h with
  | init => exact ⟨hinit, by simp⟩
  | @start w ps n p h hp ih =>
    refine ⟨ih.1, ?_⟩
    intro np hnp
    rcases List.mem_cons.mp hnp with rfl | hnp
    · exact hstart n p w hp
    · exact ih.2 np hnp
  | @step w w' ps qs n o r k h hs ih =>
    have hop := ih.2 (n, .op o k) (by simp)
    refine ⟨hop.1.2 w r w' ih.1 hs, ?_⟩
    intro np hnp
    rcases List.mem_append.mp hnp with hnp | hnp
    · exact wp_inside_stable (ih.2 np (by simp [hnp])) w'
    · rcases List.mem_cons.mp hnp with rfl | hnp
      · exact hop.2 r w' ⟨w, ih.1, hs⟩
      · exact wp_inside_stable (ih.2 np (by simp [hnp])) w'
  | @drift w w' ps h hd ih =>
    exact ⟨hdrift w w' ih.1 hd, fun np hnp => wp_inside_stable (ih.2 np hnp) w'⟩

end System

/-- A program of which it is known what it has done at each operation, in an environment where its
operations establish facts that last. -/
theorem Prog.wp_of_traced {S : Sig} {W ε α : Type} {E : Env S W}
    {guard : W → List (Event S) → S.Op → Prop} (I : W → Prop) (Fact : Event S → W → Prop)
    (hinv : ∀ w o r w', I w → E.guard w o → E.step w o r w' → I w')
    (hnew : ∀ w o r w', I w → E.guard w o → E.step w o r w' → Fact ⟨o, r⟩ w')
    (hold : ∀ w o r w' e, I w → E.guard w o → E.step w o r w' → Fact e w → Fact e w')
    (hguard : ∀ w l o, I w → (∀ e ∈ l, Fact e w) → guard w l o → E.guard w o) {p : Prog S ε α}
    {Q : Except ε α → W × List (Event S) → Prop} {w : W} {l : List (Event S)}
    (h : wp (E.traced guard) p Q (w, l)) (hI : I w) (hl : ∀ e ∈ l, Fact e w) :
    wp E p (fun r w' => I w' ∧ ∃ l', (∀ e ∈ l', Fact e w') ∧ Q r (w', l')) w := by
  induction p generalizing w l with
  | ret a => exact ⟨hI, l, hl, h⟩
  | fail e => exact ⟨hI, l, hl, h⟩
  | op o k ih =>
    obtain ⟨hg, hk⟩ := wp_traced_op.mp h
    have hadm := hguard w l o hI hl hg
    refine ⟨hadm, ?_⟩
    intro r w' hs
    refine ih r (hk r w' hs) (hinv w o r w' hI hadm hs) ?_
    intro e he
    rcases List.mem_append.mp he with he | he
    · exact hold w o r w' e hI hadm hs (hl e he)
    · rw [List.mem_singleton.mp he]
      exact hnew w o r w' hI hadm hs

/-- Where a list with one more element at its end is split at an element, that is the last one or one of the
others. -/
theorem concat_eq_append_cons {α : Type} {l before after : List α} {x y : α} :
    l ++ [x] = before ++ y :: after ↔
      (after = [] ∧ l = before ∧ x = y) ∨ ∃ rest, after = rest ++ [x] ∧ l = before ++ y :: rest := by
  constructor
  · intro h
    rcases List.eq_nil_or_concat after with rfl | ⟨rest, z, rfl⟩
    · obtain ⟨rfl, hx⟩ := List.append_inj' h rfl
      exact .inl ⟨rfl, rfl, (List.cons.inj hx).1⟩
    · rw [List.concat_eq_append, ← List.cons_append, ← List.append_assoc] at h
      obtain ⟨hl, hx⟩ := List.append_inj' h rfl
      exact .inr ⟨rest, by rw [List.concat_eq_append, (List.cons.inj hx).1], hl⟩
  · rintro (⟨rfl, rfl, rfl⟩ | ⟨rest, rfl, rfl⟩)
    · rfl
    · simp

/-! ## Programs that run together -/

section Together

variable {S : Sig} {W ι ε α : Type} [DecidableEq ι] {E : Env S W}
variable {i : ι} {tr : List (ι × Event S)} {w w' : W} {ps ps' : ι → Prog S ε α}

/-- From the world `w`, the programs `ps` can perform the operations of the trace, one at a time, which
leads to the world `w'` and leaves the programs `ps'` to run. -/
inductive Together (E : Env S W) :
    W → (ι → Prog S ε α) → List (ι × Event S) → W → (ι → Prog S ε α) → Prop
  | refl (w : W) (ps : ι → Prog S ε α) : Together E w ps [] w ps
  | step {w w' w'' : W} {ps ps' : ι → Prog S ε α} {tr : List (ι × Event S)} (i : ι) {o : S.Op}
      {r : S.Ans o} {k : S.Ans o → Prog S ε α} (hi : ps i = .op o k) (hs : E.step w o r w')
      (h : Together E w' (Function.update ps i (k r)) tr w'' ps') :
      Together E w ps ((i, ⟨o, r⟩) :: tr) w'' ps'

/-- What one of the programs has done. -/
def own (i : ι) (tr : List (ι × Event S)) : List (Event S) :=
  tr.filterMap fun x => if x.1 = i then some x.2 else none

/-- Nothing was done. -/
@[simp] theorem own_nil (i : ι) : own i ([] : List (ι × Event S)) = [] := rfl

/-- An own operation first. -/
@[simp] theorem own_cons_self (i : ι) (e : Event S) (tr : List (ι × Event S)) :
    own i ((i, e) :: tr) = e :: own i tr := by
  simp [own]

/-- Another's operation first. -/
theorem own_cons_ne {j : ι} (h : j ≠ i) (e : Event S) (tr : List (ι × Event S)) :
    own i ((j, e) :: tr) = own i tr := by
  simp [own, h]

/-- Two parts of a trace. -/
@[simp] theorem own_append (i : ι) (tr tr' : List (ι × Event S)) :
    own i (tr ++ tr') = own i tr ++ own i tr' := List.filterMap_append ..

/-- The own operations are those of the trace. -/
theorem mem_own {e : Event S} : e ∈ own i tr ↔ (i, e) ∈ tr := by
  unfold own
  rw [List.mem_filterMap]
  constructor
  · rintro ⟨⟨j, e'⟩, hmem, h⟩
    split_ifs at h with hj
    obtain rfl := Option.some.inj h
    obtain rfl : j = i := hj
    exact hmem
  · intro hmem
    exact ⟨(i, e), hmem, by simp⟩

/-- An environment in which anything can be answered. -/
def Env.any (S : Sig) : Env S Unit where
  step _ _ _ _ := True
  guard _ _ := True

/-- What one of the programs has done, taken by itself. -/
theorem Together.own_steps (h : Together E w ps tr w' ps') (i : ι) :
    Steps (Env.any S) () (ps i) (own i tr) () (ps' i) := by
  induction h with
  | refl w ps => exact .refl _ _
  | @step w w' w'' ps ps' tr j o r k hj hs h ih =>
    by_cases hji : j = i
    · subst hji
      rw [own_cons_self, hj]
      rw [Function.update_self] at ih
      exact .op trivial ih
    · rw [own_cons_ne hji]
      rwa [Function.update_of_ne (Ne.symm hji)] at ih

/-- What the programs do in two parts. -/
theorem Together.split {tr' : List (ι × Event S)} (h : Together E w ps (tr ++ tr') w' ps') :
    ∃ v qs, Together E w ps tr v qs ∧ Together E v qs tr' w' ps' := by
  induction tr generalizing w ps with
  | nil => exact ⟨w, ps, .refl _ _, h⟩
  | cons x tr ih =>
    cases h with
    | step i hi hs h =>
      obtain ⟨v, qs, h₁, h₂⟩ := ih h
      exact ⟨v, qs, .step i hi hs h₁, h₂⟩

/-- One part after the other. -/
theorem Together.trans {w'' : W} {ps'' : ι → Prog S ε α} {tr' : List (ι × Event S)}
    (h : Together E w ps tr w' ps') (h' : Together E w' ps' tr' w'' ps'') :
    Together E w ps (tr ++ tr') w'' ps'' := by
  induction h with
  | refl w ps => exact h'
  | step i hi hs _ ih => exact .step i hi hs (ih h')

/-- What holds at the start and is kept by each operation of a program, given what all of them have done so
far, holds at the end. -/
theorem Together.invariant (I : List (ι × Event S) → W → (ι → Prog S ε α) → Prop) (hinit : I [] w ps)
    (hstep : ∀ tr v qs i o r k v', I tr v qs → qs i = .op o k → E.step v o r v' → I (tr ++ [(i, ⟨o, r⟩)]) v'
      (Function.update qs i (k r)))
    (h : Together E w ps tr w' ps') : I tr w' ps' := by
  -- The trace so far is the index of the induction: it grows while the rest gets shorter.
  suffices hgen : ∀ pre, I pre w ps → I (pre ++ tr) w' ps' from hgen [] hinit
  clear hinit
  induction h with
  | refl w ps =>
    intro pre hpre
    rwa [List.append_nil]
  | @step w v w' ps ps' tr i o r k hi hs _ ih =>
    intro pre hpre
    rw [List.append_cons]
    exact ih _ (hstep pre w ps i o r k v hpre hi hs)

/-- One of the programs runs while the others wait. -/
theorem Together.alone {p p' : Prog S ε α} {evs : List (Event S)}
    (h : Steps E w p evs w' p') (hi : ps i = p) :
    Together E w ps (evs.map fun e => (i, e)) w' (Function.update ps i p') := by
  induction h generalizing ps with
  | refl w p => rw [← hi, Function.update_eq_self]; exact .refl _ _
  | @op w w' w'' o r k evs p' hs h ih =>
    have := ih (Function.update_self i (k r) ps)
    rw [Function.update_idem] at this
    exact .step i hi hs this

/-- After a run, one of the programs goes on while the others wait. -/
theorem Together.go {w'' : W} (h : Together E w ps tr w' ps') (i : ι) {evs : List (Event S)}
    {p' : Prog S ε α} (hs : Steps E w' (ps' i) evs w'' p') :
    Together E w ps (tr ++ evs.map fun e => (i, e)) w'' (Function.update ps' i p') :=
  h.trans (.alone hs rfl)

/-- As `Together`, where every step meets a condition on what was done before it, the world and the programs
at that point, and the operation with its answer. -/
inductive TogetherIf (E : Env S W)
    (C : List (ι × Event S) → W → (ι → Prog S ε α) → ι → Event S → Prop) (w : W)
    (ps : ι → Prog S ε α) : List (ι × Event S) → W → (ι → Prog S ε α) → Prop
  | refl : TogetherIf E C w ps [] w ps
  | step {w' w'' : W} {ps' : ι → Prog S ε α} {tr : List (ι × Event S)}
      (h : TogetherIf E C w ps tr w' ps') (i : ι) {o : S.Op} {r : S.Ans o} {k : S.Ans o → Prog S ε α}
      (hi : ps' i = .op o k) (hs : E.step w' o r w'') (hC : C tr w' ps' i ⟨o, r⟩) :
      TogetherIf E C w ps (tr ++ [(i, ⟨o, r⟩)]) w'' (Function.update ps' i (k r))

/-- Runs under a condition are runs. -/
theorem TogetherIf.together {C : List (ι × Event S) → W → (ι → Prog S ε α) → ι → Event S → Prop}
    (h : TogetherIf E C w ps tr w' ps') : Together E w ps tr w' ps' := by
  induction h with
  | refl => exact .refl _ _
  | step _ i hi hs _ ih => exact ih.trans (.step i hi hs (.refl _ _))

end Together

end FnShare
