import FnShare.Lib.Prog

/-!
# Handlers

A program over one signature can be carried out over another one: a handler has a program for each operation,
and a state that it keeps in between (`handle`). A handler implements an environment (`Implements`) if the
answers that it comes to are among those of the environment. What was shown of a program in that environment
then holds of the program as it is carried out (`Implements.wp`).

Two environments of the same operations make one of pairs of worlds, in which an answer has to be possible in
both (`Env.both`).
-/

namespace FnShare

variable {S T : Sig} {V W σ ε α : Type}

namespace Prog

/-- Carry out the operations of a program by a handler. -/
def handle (h : (o : S.Op) → σ → Prog T ε (S.Ans o × σ)) : Prog S ε α → σ → Prog T ε (α × σ)
  | ret a, s => ret (a, s)
  | fail e, _ => fail e
  | op o k, s => h o s >>= fun x => (k x.1).handle h x.2

/-- In the environment `E`, the handler gives answers that are possible in `A`. The relation `R` connects its
state and the world of `E` with the world of `A`. -/
structure Implements (h : (o : S.Op) → σ → Prog T ε (S.Ans o × σ)) (E : Env T V) (A : Env S W)
    (R : σ → V → W → Prop) : Prop where
  op : ∀ {s v w o}, R s v w → A.guard w o →
    wp E (h o s) (returns fun x v' => ∃ w', A.step w o x.1 w' ∧ R x.2 v' w') v

/-- What holds of a program in the environment that is implemented holds of it as it is carried out. -/
theorem Implements.wp {h : (o : S.Op) → σ → Prog T ε (S.Ans o × σ)} {E : Env T V} {A : Env S W}
    {R : σ → V → W → Prop} (hI : Implements h E A R) {p : Prog S ε α} {Q : Except ε α → W → Prop} {s : σ}
    {v : V} {w : W} (hR : R s v w) (hp : p.wp A Q w) :
    (p.handle h s).wp E (fun x v' => match x with
      | .ok (a, s') => ∃ w', R s' v' w' ∧ Q (.ok a) w'
      | .error e => ∃ w', Q (.error e) w') v := by
  induction p generalizing s v w with
  | ret a => exact ⟨w, hR, hp⟩
  | fail e => exact ⟨w, hp⟩
  | op o k ih =>
    refine wp_bind_of (hI.op hR hp.1) ?_ fun _ _ h => h.elim
    rintro ⟨r, s'⟩ v' ⟨w', hs, hR'⟩
    exact ih r hR' (hp.2 r w' hs)

end Prog

namespace Prog

end Prog

end FnShare
