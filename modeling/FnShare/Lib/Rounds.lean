import FnShare.Lib.Interleave

/-!
# Runs in rounds

A part of a run of a system, with the programs that it starts apart from those that were running
(`System.From`). If everything keeps a relation `R`, and each program that is started comes to something that
lasts along `R`, then the programs that were started in the part and have ended have come to it
(`System.From.guarantee`).

A round is such a part after which a condition holds of what was started in it (`System.Rounds`). Programs may
run on from one round into another. Where in a round each node learns what its neighbours knew when the round
began, after `d` rounds it knows what was known within a distance of `d` (`System.Rounds.spread`).
-/

namespace FnShare

open Prog

namespace System

variable {S : Sig} {W N ε α : Type} {sys : System S W N ε α} {R : W → W → Prop}

/-- From the world `w₀` with the programs `ps₀` running, the system can reach the world `w` with the programs
`new` started since then and left to run, and `old` left of the others. -/
inductive From (sys : System S W N ε α) (w₀ : W) (ps₀ : List (N × Prog S ε α)) :
    W → List (N × Prog S ε α) → List (N × Prog S ε α) → Prop
  | init : From sys w₀ ps₀ w₀ [] ps₀
  | start {w : W} {new old : List (N × Prog S ε α)} {n : N} {p : Prog S ε α} (h : From sys w₀ ps₀ w new old)
      (hp : sys.start n p) : From sys w₀ ps₀ w ((n, p) :: new) old
  | stepNew {w w' : W} {ps qs old : List (N × Prog S ε α)} {n : N} {o : S.Op} {r : S.Ans o}
      {k : S.Ans o → Prog S ε α} (h : From sys w₀ ps₀ w (ps ++ (n, .op o k) :: qs) old)
      (hs : sys.exec n w o r w') : From sys w₀ ps₀ w' (ps ++ (n, k r) :: qs) old
  | stepOld {w w' : W} {new ps qs : List (N × Prog S ε α)} {n : N} {o : S.Op} {r : S.Ans o}
      {k : S.Ans o → Prog S ε α} (h : From sys w₀ ps₀ w new (ps ++ (n, .op o k) :: qs))
      (hs : sys.exec n w o r w') : From sys w₀ ps₀ w' new (ps ++ (n, k r) :: qs)
  | drift {w w' : W} {new old : List (N × Prog S ε α)} (h : From sys w₀ ps₀ w new old) (hd : sys.drift w w') :
      From sys w₀ ps₀ w' new old

/-- What a program that is started does, while nothing else happens. -/
theorem From.run {w₀ w w' : W} {ps₀ new old : List (N × Prog S ε α)} {n : N} {p p' : Prog S ε α}
    {evs : List (Event S)} (h : sys.From w₀ ps₀ w new old) (hp : sys.start n p)
    (hs : Steps (sys.alone n) w p evs w' p') : sys.From w₀ ps₀ w' ((n, p') :: new) old := by
  have hstarted : sys.From w₀ ps₀ w ((n, p) :: new) old := .start h hp
  clear h hp
  induction hs with
  | refl w p => exact hstarted
  | op hstep _ ih =>
    refine ih ?_
    rw [← List.nil_append ((_, _) :: new)] at hstarted ⊢
    exact .stepNew hstarted hstep

/-- What a program comes to lasts while the others move. -/
theorem wp_under_moved (htrans : ∀ u v w, R u v → R v w → R u w) {n : N} {Q : Except ε α → W → Prop}
    (hQ : ∀ x u v, Q x u → R u v → Q x v) {p : Prog S ε α} {w w' : W} (h : wp (sys.under R n) p Q w)
    (hR : R w w') : wp (sys.under R n) p Q w' := by
  cases p with
  | ret a => exact hQ _ _ _ h hR
  | fail e => exact hQ _ _ _ h hR
  | op o k =>
    refine ⟨fun v hv => h.1 v (htrans _ _ _ hR hv), ?_⟩
    rintro r w'' ⟨v, hv, hs⟩
    exact h.2 r w'' ⟨v, htrans _ _ _ hR hv, hs⟩

/-- One of several programs, each on its way to its postcondition, takes a step. -/
theorem wp_under_step (hrefl : ∀ w, R w w) (htrans : ∀ u v w, R u v → R v w → R u w)
    {Q : N → Except ε α → W → Prop} (hQ : ∀ n x u v, Q n x u → R u v → Q n x v) {w w' : W} {n : N} {o : S.Op}
    {r : S.Ans o} {k : S.Ans o → Prog S ε α} {ps qs : List (N × Prog S ε α)}
    (h : ∀ np ∈ ps ++ (n, .op o k) :: qs, wp (sys.under R np.1) np.2 (Q np.1) w) (hs : sys.exec n w o r w') :
    R w w' ∧ ∀ np ∈ ps ++ (n, k r) :: qs, wp (sys.under R np.1) np.2 (Q np.1) w' := by
  have hop := h (n, .op o k) (by simp)
  have hR : R w w' := hop.1 w (hrefl w) r w' hs
  refine ⟨hR, fun np hnp => ?_⟩
  rcases List.mem_append.mp hnp with hnp | hnp
  · exact wp_under_moved htrans (hQ np.1) (h np (by simp [hnp])) hR
  · rcases List.mem_cons.mp hnp with rfl | hnp
    · exact hop.2 r w' ⟨w, hrefl w, hs⟩
    · exact wp_under_moved htrans (hQ np.1) (h np (by simp [hnp])) hR

/-- If what happens by itself, the programs that were running and those that are started keep `R`, whatever
the others do, everything that is reached is reached along `R`, and each program that was started comes to its
postcondition. -/
theorem From.guarantee (hrefl : ∀ w, R w w) (htrans : ∀ u v w, R u v → R v w → R u w)
    {Q : N → Except ε α → W → Prop} (hQ : ∀ n x u v, Q n x u → R u v → Q n x v) {w₀ : W}
    {ps₀ : List (N × Prog S ε α)} (hdrift : ∀ w w', R w₀ w → sys.drift w w' → R w w')
    (hrunning : ∀ np ∈ ps₀, wp (sys.under R np.1) np.2 (fun _ _ => True) w₀)
    (hstart : ∀ n p w, R w₀ w → sys.start n p → wp (sys.under R n) p (Q n) w) {w : W}
    {new old : List (N × Prog S ε α)} (h : sys.From w₀ ps₀ w new old) :
    R w₀ w ∧ (∀ np ∈ new, wp (sys.under R np.1) np.2 (Q np.1) w) ∧
      ∀ np ∈ old, wp (sys.under R np.1) np.2 (fun _ _ => True) w := by
  have hmoved : ∀ {ps : List (N × Prog S ε α)} {v v' : W},
      (∀ np ∈ ps, wp (sys.under R np.1) np.2 (Q np.1) v) →
      R v v' → ∀ np ∈ ps, wp (sys.under R np.1) np.2 (Q np.1) v' :=
    fun hps hR np hnp => wp_under_moved htrans (hQ np.1) (hps np hnp) hR
  have hstable : ∀ {ps : List (N × Prog S ε α)} {v v' : W},
      (∀ np ∈ ps, wp (sys.under R np.1) np.2 (fun _ _ => True) v) → R v v' →
      ∀ np ∈ ps, wp (sys.under R np.1) np.2 (fun _ _ => True) v' :=
    fun hps hR np hnp => wp_under_stable htrans (hps np hnp) hR
  induction h with
  | init => exact ⟨hrefl _, by simp, hrunning⟩
  | @start w new old n p h hp ih =>
    obtain ⟨hw, hnew, hold⟩ := ih
    refine ⟨hw, fun np hnp => ?_, hold⟩
    rcases List.mem_cons.mp hnp with rfl | hnp
    · exact hstart n p w hw hp
    · exact hnew np hnp
  | @stepNew w w' ps qs old n o r k h hs ih =>
    obtain ⟨hw, hnew, hold⟩ := ih
    obtain ⟨hR, hnew'⟩ := wp_under_step hrefl htrans hQ hnew hs
    exact ⟨htrans _ _ _ hw hR, hnew', hstable hold hR⟩
  | @stepOld w w' new ps qs n o r k h hs ih =>
    obtain ⟨hw, hnew, hold⟩ := ih
    obtain ⟨hR, hold'⟩ := wp_under_step hrefl htrans (Q := fun _ _ _ => True)
      (fun _ _ _ _ _ _ => trivial) hold hs
    exact ⟨htrans _ _ _ hw hR, hmoved hnew hR, hold'⟩
  | @drift w w' new old h hd ih =>
    obtain ⟨hw, hnew, hold⟩ := ih
    have hR := hdrift w w' hw hd
    exact ⟨htrans _ _ _ hw hR, hmoved hnew hR, hstable hold hR⟩

/-- A run in rounds, where a condition holds of what was started in each of them. -/
inductive Rounds (sys : System S W N ε α) (P : List (N × Prog S ε α) → Prop) (w₀ : W)
    (ps₀ : List (N × Prog S ε α)) :
    ℕ → W → List (N × Prog S ε α) → Prop
  | zero : Rounds sys P w₀ ps₀ 0 w₀ ps₀
  | succ {d : ℕ} {w w' : W} {ps new old : List (N × Prog S ε α)} (h : Rounds sys P w₀ ps₀ d w ps)
      (hround : sys.From w ps w' new old) (hP : P new) : Rounds sys P w₀ ps₀ (d + 1) w' (new ++ old)

end System

/-- `j` can be reached from `i` in `d` steps or fewer, where `nbr j i` says that `j` is one step from `i`. -/
inductive Within {ι : Type} (nbr : ι → ι → Prop) (i : ι) : ℕ → ι → Prop
  | here : Within nbr i 0 i
  | stay {d : ℕ} {j : ι} (h : Within nbr i d j) : Within nbr i (d + 1) j
  | hop {d : ℕ} {j k : ι} (h : Within nbr i d j) (hk : nbr k j) : Within nbr i (d + 1) k

/-- If in each round everyone keeps what they know and learns what their neighbours knew, then after `d`
rounds what one of them knew at the start is known within a distance of `d`. -/
theorem System.Rounds.spread {S : Sig} {W N ε α ι : Type} {sys : System S W N ε α}
    {P : List (N × Prog S ε α) → Prop} {nbr : ι → ι → Prop} (I : W → List (N × Prog S ε α) → Prop)
    (Knows : W → ι → Prop)
    (hround : ∀ w ps w' new old, I w ps → sys.From w ps w' new old → P new →
      I w' (new ++ old) ∧ (∀ i, Knows w i → Knows w' i) ∧ ∀ i j, nbr j i → Knows w i → Knows w' j)
    {w₀ w : W} {ps₀ ps : List (N × Prog S ε α)} {d : ℕ} (hI : I w₀ ps₀) (h : sys.Rounds P w₀ ps₀ d w ps) :
    I w ps ∧ ∀ i j, Within nbr i d j → Knows w₀ i → Knows w j := by
  induction h with
  | zero =>
    refine ⟨hI, fun i j hij hi => ?_⟩
    cases hij
    exact hi
  | @succ d w w' ps new old h hpart hP ih =>
    obtain ⟨hIw, hknown⟩ := ih
    obtain ⟨hIw', hkeep, hlearn⟩ := hround w ps w' new old hIw hpart hP
    refine ⟨hIw', fun i k hik hi => ?_⟩
    cases hik with
    | stay h => exact hkeep _ (hknown _ _ h hi)
    | hop h hk => exact hlearn _ _ hk (hknown _ _ h hi)

end FnShare
