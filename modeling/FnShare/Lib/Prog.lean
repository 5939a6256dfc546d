import Mathlib.Data.List.Basic

/-!
# Programs over an effect signature

A program is a tree: it returns a value, fails with an error, or performs one operation of an
effect signature and continues on the answer. The tree says nothing of how the answers come
about. That is the part of an environment (`Env`), a relation between a world, an operation, an
answer and the world after it, with a guard that says which operations are admissible where.

`wp E p Q w` says that every execution of `p` from the world `w` performs only admissible
operations, and ends in `Q` when it ends. Its rules follow the program's text: `wp_bind` for
sequencing, `wp_attempt` for a handled error, `wp_foldlM` for a loop with an invariant. Two
readings of it are used throughout. With the world that the environment keeps, and the guard "some
answer exists", it is total correctness (`wp_exists`). With the history of the program's own
operations beside the world (`Env.traced`), it is a property of the program's traces;
`Interleave.lean` combines such properties of programs that run concurrently. For a program that
performs nothing of interest, it is enough to know which operations it can perform (`Only`).
-/

namespace FnShare

/-- An effect signature: the operations that a program can perform, and the type of the answer to
each of them. -/
structure Sig where
  /-- The operations. -/
  Op : Type
  /-- The type of the answer to an operation. -/
  Ans : Op → Type

/-- One operation performed, with its answer. -/
structure Event (S : Sig) where
  /-- The operation. -/
  op : S.Op
  /-- Its answer. -/
  ans : S.Ans op

/-- A program over the signature `S`, with errors in `ε` and results in `α`. -/
inductive Prog (S : Sig) (ε α : Type) : Type
  | ret (a : α)
  | fail (e : ε)
  | op (o : S.Op) (k : S.Ans o → Prog S ε α)

namespace Prog

variable {S : Sig} {ε ε' α β : Type}

/-- Sequencing; an error ends the sequence. -/
protected def bind : Prog S ε α → (α → Prog S ε β) → Prog S ε β
  | ret a, f => f a
  | fail e, _ => fail e
  | op o k, f => op o fun r => (k r).bind f

instance : Monad (Prog S ε) where
  pure := ret
  bind := Prog.bind

/-- Perform one operation and return its answer. -/
def call (o : S.Op) : Prog S ε (S.Ans o) := op o ret

/-- Continue with the value, or fail with the error. -/
def ofExcept : Except ε α → Prog S ε α
  | .ok a => ret a
  | .error e => fail e

/-- Run a program to its result, error or value, without failing. -/
def attempt : Prog S ε α → Prog S ε' (Except ε α)
  | ret a => ret (.ok a)
  | fail e => ret (.error e)
  | op o k => op o fun r => (k r).attempt

/-- Rewrite the error of a program that fails. -/
def mapErr (f : ε → ε') : Prog S ε α → Prog S ε' α
  | ret a => ret a
  | fail e => fail (f e)
  | op o k => op o fun r => (k r).mapErr f

/-- Returning a value. -/
@[simp] theorem pure_eq (a : α) : (pure a : Prog S ε α) = ret a := rfl

/-- Sequencing is `>>=`. -/
@[simp] theorem bind_eq (p : Prog S ε α) (f : α → Prog S ε β) : p.bind f = p >>= f := rfl

/-- After a value. -/
@[simp] theorem ret_bind (a : α) (f : α → Prog S ε β) : (ret a >>= f) = f a := rfl

/-- After an error. -/
@[simp] theorem fail_bind (e : ε) (f : α → Prog S ε β) : (fail e >>= f) = fail e := rfl

/-- After an operation. -/
@[simp] theorem op_bind (o : S.Op) (k : S.Ans o → Prog S ε α) (f : α → Prog S ε β) :
    (op o k >>= f) = op o fun r => k r >>= f := rfl

/-- An operation first. -/
@[simp] theorem call_bind (o : S.Op) (f : S.Ans o → Prog S ε β) : (call o >>= f) = op o f := rfl

/-- A value as a program. -/
@[simp] theorem ofExcept_ok (a : α) : (ofExcept (.ok a) : Prog S ε α) = ret a := rfl

/-- An error as a program. -/
@[simp] theorem ofExcept_error (e : ε) : (ofExcept (.error e) : Prog S ε α) = fail e := rfl

/-- Sequencing after a condition. -/
theorem ite_bind (c : Prop) [Decidable c] (p q : Prog S ε α) (f : α → Prog S ε β) :
    ((if c then p else q) >>= f) = if c then p >>= f else q >>= f := by
  split_ifs <;> rfl

/-- Sequencing is associative. -/
theorem bind_assoc {γ : Type} (p : Prog S ε α) (f : α → Prog S ε β) (g : β → Prog S ε γ) :
    (p >>= f) >>= g = p >>= fun a => f a >>= g := by
  induction p with
  | ret a => rfl
  | fail e => rfl
  | op o k ih =>
    simp only [op_bind]
    congr 1
    funext r
    exact ih r

end Prog

/-- An environment: what an operation can do to a world and answer, and which operations are
admissible. -/
structure Env (S : Sig) (W : Type) where
  /-- `step w o r w'`: performed in `w`, the operation `o` can answer `r` and leave `w'`. -/
  step : W → (o : S.Op) → S.Ans o → W → Prop
  /-- Whether an operation is admissible in a world. -/
  guard : W → S.Op → Prop

namespace Prog

variable {S : Sig} {W ε ε' α β : Type}

/-- Every execution of a program from a world performs admissible operations only, and its result
and last world satisfy `Q`. -/
def wp (E : Env S W) : Prog S ε α → (Except ε α → W → Prop) → W → Prop
  | ret a, Q, w => Q (.ok a) w
  | fail e, Q, w => Q (.error e) w
  | op o k, Q, w => E.guard w o ∧ ∀ r w', E.step w o r w' → wp E (k r) Q w'

variable {E : Env S W}
variable {p p' : Prog S ε α} {Q : Except ε α → W → Prop} {w w' : W} {f : α → Prog S ε β}
  {evs evs' : List (Event S)} {a b : α}

/-- The rule for a value. -/
@[simp] theorem wp_ret (a : α) (Q : Except ε α → W → Prop) (w : W) :
    wp E (ret a) Q w ↔ Q (.ok a) w := Iff.rfl

/-- The rule for an error. -/
@[simp] theorem wp_fail (e : ε) (Q : Except ε α → W → Prop) (w : W) :
    wp E (fail e) Q w ↔ Q (.error e) w := Iff.rfl

/-- The rule for an operation. -/
@[simp] theorem wp_op (o : S.Op) (k : S.Ans o → Prog S ε α) (Q : Except ε α → W → Prop) (w : W) :
    wp E (op o k) Q w ↔ E.guard w o ∧ ∀ r w', E.step w o r w' → wp E (k r) Q w' := Iff.rfl

/-- The rule for a single operation. -/
@[simp] theorem wp_call (o : S.Op) (Q : Except ε (S.Ans o) → W → Prop) (w : W) :
    wp E (call o) Q w ↔ E.guard w o ∧ ∀ r w', E.step w o r w' → Q (.ok r) w' := Iff.rfl

/-- The rule for either. -/
@[simp] theorem wp_ofExcept (x : Except ε α) (Q : Except ε α → W → Prop) (w : W) :
    wp E (ofExcept x) Q w ↔ Q x w := by
  cases x <;> rfl

/-- What the first of two programs in sequence has to establish for the second. -/
def andThen (f : α → Prog S ε β) (E : Env S W) (Q : Except ε β → W → Prop) :
    Except ε α → W → Prop
  | .ok a, w => wp E (f a) Q w
  | .error e, w => Q (.error e) w

/-- A value is passed on. -/
@[simp] theorem andThen_ok (f : α → Prog S ε β) (Q : Except ε β → W → Prop) (a : α) (w : W) :
    andThen f E Q (.ok a) w ↔ wp E (f a) Q w := Iff.rfl

/-- An error ends the program. -/
@[simp] theorem andThen_error (f : α → Prog S ε β) (Q : Except ε β → W → Prop) (e : ε) (w : W) :
    andThen f E Q (.error e) w ↔ Q (.error e) w := Iff.rfl

/-- The rule of sequencing. -/
theorem wp_bind (p : Prog S ε α) (f : α → Prog S ε β) (Q : Except ε β → W → Prop) (w : W) :
    wp E (p >>= f) Q w ↔ wp E p (andThen f E Q) w := by
  induction p generalizing w with
  | ret a => rfl
  | fail e => rfl
  | op o k ih => simp only [op_bind, wp_op, ih]

/-- The rule of a handled error. -/
theorem wp_attempt (p : Prog S ε α) (Q : Except ε' (Except ε α) → W → Prop) (w : W) :
    wp E (attempt p) Q w ↔ wp E p (fun r w' => Q (.ok r) w') w := by
  induction p generalizing w with
  | ret a => rfl
  | fail e => rfl
  | op o k ih => simp only [attempt, wp_op, ih]

/-- The rule of a rewritten error. -/
theorem wp_mapErr (f : ε → ε') (p : Prog S ε α) (Q : Except ε' α → W → Prop) (w : W) :
    wp E (mapErr f p) Q w ↔ wp E p (fun r w' => Q (r.mapError f) w') w := by
  induction p generalizing w with
  | ret a => rfl
  | fail e => rfl
  | op o k ih => simp only [mapErr, wp_op, ih]

/-- A weaker postcondition is easier to establish. -/
theorem wp_mono {Q' : Except ε α → W → Prop} (h : wp E p Q w)
    (hQ : ∀ r w', Q r w' → Q' r w') : wp E p Q' w := by
  induction p generalizing w with
  | ret a => exact hQ _ _ h
  | fail e => exact hQ _ _ h
  | op o k ih => exact ⟨h.1, fun r w' hs => ih r (h.2 r w' hs)⟩

/-- A step of a proof along a sequence: a specification of the first program, and the second
program from wherever the specification lets the first one end. -/
theorem wp_bind_of {P : Except ε α → W → Prop} {Q : Except ε β → W → Prop} (h : wp E p P w)
    (hok : ∀ a w', P (.ok a) w' → wp E (f a) Q w') (herr : ∀ e w', P (.error e) w' → Q (.error e) w') :
    wp E (p >>= f) Q w := by
  rw [wp_bind]
  refine wp_mono h ?_
  rintro (e | a) w' hP
  · exact herr e w' hP
  · exact hok a w' hP

/-- A postcondition on the executions that return; those that fail may end anywhere. -/
def onOk (Q : α → W → Prop) : Except ε α → W → Prop
  | .ok a, w => Q a w
  | .error _, _ => True

/-- What holds of a value. -/
@[simp] theorem onOk_ok (Q : α → W → Prop) (a : α) (w : W) :
    onOk (ε := ε) Q (.ok a) w ↔ Q a w := Iff.rfl

/-- Nothing is asked of an error. -/
@[simp] theorem onOk_error (Q : α → W → Prop) (e : ε) (w : W) : onOk Q (.error e) w ↔ True := Iff.rfl

/-- A step of a proof along a sequence where only the executions that return matter. -/
theorem wp_bind_onOk {P : α → W → Prop} {Q : β → W → Prop} (h : wp E p (onOk P) w)
    (hok : ∀ a w', P a w' → wp E (f a) (onOk Q) w') : wp E (p >>= f) (onOk Q) w :=
  wp_bind_of h hok fun _ _ _ => trivial

/-- Rewriting the error changes nothing for the executions that return. -/
theorem wp_mapErr_onOk {f : ε → ε'} {Q : α → W → Prop} (h : wp E p (onOk Q) w) :
    wp E (mapErr f p) (onOk Q) w := by
  rw [wp_mapErr]
  refine wp_mono h ?_
  rintro (e | a) w' hQ
  · trivial
  · exact hQ

/-- A postcondition under which every execution returns. -/
def returns (Q : α → W → Prop) : Except ε α → W → Prop
  | .ok a, w => Q a w
  | .error _, _ => False

/-- What is returned. -/
@[simp] theorem returns_ok (Q : α → W → Prop) (a : α) (w : W) :
    returns (ε := ε) Q (.ok a) w ↔ Q a w := Iff.rfl

/-- A step of a proof along a sequence where every execution returns. -/
theorem wp_bind_returns {P : α → W → Prop} {Q : β → W → Prop} (h : wp E p (returns P) w)
    (hok : ∀ a w', P a w' → wp E (f a) (returns Q) w') : wp E (p >>= f) (returns Q) w :=
  wp_bind_of h hok fun _ _ h => h.elim

/-- There is no error to rewrite where every execution returns. -/
theorem wp_mapErr_returns {f : ε → ε'} {Q : α → W → Prop} (h : wp E p (returns Q) w) :
    wp E (mapErr f p) (returns Q) w := by
  rw [wp_mapErr]
  refine wp_mono h ?_
  rintro (e | a) w' hQ
  · exact hQ.elim
  · exact hQ

/-- The rule of a loop over a list, with an invariant on the part of the list still to come. -/
theorem wp_foldlM {f : β → α → Prog S ε β} {Q : Except ε β → W → Prop}
    (inv : List α → β → W → Prop) (hnil : ∀ b w, inv [] b w → Q (.ok b) w)
    (hcons : ∀ a as b w, inv (a :: as) b w →
      wp E (f b a) (fun r w' => match r with
        | .ok b' => inv as b' w'
        | .error e => Q (.error e) w') w) :
    ∀ (as : List α) (b : β) (w : W), inv as b w → wp E (as.foldlM f b) Q w
  | [], b, w, h => hnil b w h
  | a :: as, b, w, h => by
    rw [List.foldlM_cons]
    refine wp_bind_of (hcons a as b w h) ?_ ?_
    · intro b' w' h'
      exact wp_foldlM inv hnil hcons as b' w' h'
    · intro e w' h'
      exact h'

/-- `Steps E w p evs w' p'`: from the world `w`, the program `p` can perform the operations of
`evs`, which leads to the world `w'` and leaves the program `p'` to run. -/
inductive Steps (E : Env S W) : W → Prog S ε α → List (Event S) → W → Prog S ε α → Prop
  | refl (w : W) (p : Prog S ε α) : Steps E w p [] w p
  | op {w w' w'' : W} {o : S.Op} {r : S.Ans o} {k : S.Ans o → Prog S ε α} {evs : List (Event S)}
      {p' : Prog S ε α} (hs : E.step w o r w') (h : Steps E w' (k r) evs w'' p') :
      Steps E w (.op o k) (⟨o, r⟩ :: evs) w'' p'

/-- What holds of every execution holds of what is left of one. -/
theorem wp_steps (h : Steps E w p evs w' p') (hp : wp E p Q w) : wp E p' Q w' := by
  induction h with
  | refl w p => exact hp
  | op hs _ ih => exact ih (hp.2 _ _ hs)

/-- An execution that goes on. -/
theorem Steps.trans {w'' : W} {p'' : Prog S ε α} (h : Steps E w p evs w' p')
    (h' : Steps E w' p' evs' w'' p'') : Steps E w p (evs ++ evs') w'' p'' := by
  induction h with
  | refl => exact h'
  | op hs _ ih => exact .op hs (ih h')

/-- The steps of two programs in sequence, when the first one returns. -/
theorem Steps.bind {w'' : W} {q : Prog S ε β} (h : Steps E w p evs w' (ret a))
    (h' : Steps E w' (f a) evs' w'' q) : Steps E w (p >>= f) (evs ++ evs') w'' q := by
  generalize hr : ret a = p' at h
  induction h with
  | refl w p =>
    subst hr
    exact h'
  | op hs _ ih => exact .op hs (ih h' hr)

/-- The steps that a sequence shares with its first program. -/
theorem Steps.bind_left (f : α → Prog S ε β) (h : Steps E w p evs w' p') :
    Steps E w (p >>= f) evs w' (p' >>= f) := by
  induction h with
  | refl w p => exact .refl _ _
  | op hs _ ih => exact .op hs ih

/-- Two programs in sequence that fail: the first fails, or it returns and the second fails. -/
theorem Steps.bind_fail {e : ε} (h : Steps E w (p >>= f) evs w' (fail e)) :
    Steps E w p evs w' (fail e) ∨ ∃ a v evs₁ evs₂, Steps E w p evs₁ v (ret a) ∧
      Steps E v (f a) evs₂ w' (fail e) ∧ evs = evs₁ ++ evs₂ := by
  induction p generalizing w evs with
  | ret a => exact .inr ⟨a, w, [], evs, .refl _ _, h, rfl⟩
  | fail e' =>
    cases h with
    | refl => exact .inl (.refl _ _)
  | op o k ih =>
    cases h with
    | op hs h' =>
      rcases ih _ h' with hl | ⟨a, v, evs₁, evs₂, h₁, h₂, rfl⟩
      · exact .inl (.op hs hl)
      · exact .inr ⟨a, v, _ :: evs₁, evs₂, .op hs h₁, h₂, rfl⟩

/-- Two programs in sequence that return: the first returns, and then the second. -/
theorem Steps.bind_ret {b : β} (h : Steps E w (p >>= f) evs w' (ret b)) :
    ∃ a v evs₁ evs₂, Steps E w p evs₁ v (ret a) ∧ Steps E v (f a) evs₂ w' (ret b) ∧
      evs = evs₁ ++ evs₂ := by
  induction p generalizing w evs with
  | ret a => exact ⟨a, w, [], evs, .refl _ _, h, rfl⟩
  | fail e => cases h
  | op o k ih =>
    cases h with
    | @op _ v _ _ r _ evs _ hs h =>
      obtain ⟨a, v', evs₁, evs₂, h₁, h₂, rfl⟩ := ih r h
      exact ⟨a, v', ⟨o, r⟩ :: evs₁, evs₂, .op hs h₁, h₂, rfl⟩

/-- The steps of a program whose error is handled. -/
theorem Steps.attempt (h : Steps E w p evs w' p') :
    Steps E w (Prog.attempt p : Prog S ε' (Except ε α)) evs w' (Prog.attempt p') := by
  induction h with
  | refl w p => exact .refl _ _
  | op hs _ ih => exact .op hs ih

/-- The steps of a program whose error is rewritten. -/
theorem Steps.mapErr (f : ε → ε') (h : Steps E w p evs w' p') :
    Steps E w (Prog.mapErr f p) evs w' (Prog.mapErr f p') := by
  induction h with
  | refl w p => exact .refl _ _
  | op hs _ ih => exact .op hs ih

/-- An execution without operations. -/
theorem Steps.eq_of_nil (h : Steps E w p [] w' p') :
    w' = w ∧ p' = p := by
  generalize hl : ([] : List (Event S)) = l at h
  cases h with
  | refl => exact ⟨rfl, rfl⟩
  | op => simp at hl

/-- The last operation of an execution: where it was performed, and what was left to run. -/
theorem Steps.snoc {e : Event S} (h : Steps E w p (evs ++ [e]) w' p') :
    ∃ v k, Steps E w p evs v (.op e.op k) ∧ E.step v e.op e.ans w' ∧ p' = k e.ans := by
  generalize hl : evs ++ [e] = l at h
  induction h generalizing evs with
  | refl w p => simp at hl
  | @op w w1 w' o r k l' p' hs h ih =>
    cases evs with
    | nil =>
      obtain ⟨rfl, rfl⟩ : e = ⟨o, r⟩ ∧ [] = l' := by simpa using hl
      obtain ⟨rfl, rfl⟩ := h.eq_of_nil
      exact ⟨w, k, .refl _ _, hs, rfl⟩
    | cons e' evs =>
      obtain ⟨rfl, hl'⟩ : e' = ⟨o, r⟩ ∧ evs ++ [e] = l' := by simpa using hl
      obtain ⟨v, k', hv, hs', hp⟩ := ih hl'
      exact ⟨v, k', .op hs hv, hs', hp⟩

/-- An execution in two parts. -/
theorem Steps.split (h : Steps E w p (evs ++ evs') w' p') :
    ∃ v q, Steps E w p evs v q ∧ Steps E v q evs' w' p' := by
  induction evs generalizing w p with
  | nil => exact ⟨w, p, .refl _ _, h⟩
  | cons e evs ih =>
    cases h with
    | op hs h =>
      obtain ⟨v, q, hv, hq⟩ := ih h
      exact ⟨v, q, .op hs hv, hq⟩

/-- The first operation of an execution. -/
theorem Steps.head {e : Event S} (h : Steps E w p evs w' p') (he : evs.head? = some e) :
    ∃ v, E.step w e.op e.ans v := by
  cases h with
  | refl => simp at he
  | op hs _ =>
    obtain rfl := Option.some.inj he
    exact ⟨_, hs⟩

/-- An execution over a part of the world is one over the world. -/
theorem Steps.map {V : Type} {F : Env S V} (f : V → W)
    (hE : ∀ v o r v', F.step v o r v' → E.step (f v) o r (f v')) {v v' : V} (h : Steps F v p evs v' p') :
    Steps E (f v) p evs (f v') p' := by
  induction h with
  | refl w p => exact .refl _ _
  | op hs _ ih => exact .op (hE _ _ _ _ hs) ih

/-- What an environment can do, one that can do more can do. -/
theorem Steps.mono {E' : Env S W} (hE : ∀ w o r w', E.step w o r w' → E'.step w o r w')
    (h : Steps E w p evs w' p') :
    Steps E' w p evs w' p' :=
  h.map id hE

/-- An execution whose events all satisfy something is one of an environment in which they have to. -/
theorem Steps.restrict {P : (o : S.Op) → S.Ans o → Prop} {F : Env S W}
    (hF : ∀ w o r w', E.step w o r w' → P o r → F.step w o r w') (h : Steps E w p evs w' p')
    (hevs : ∀ e ∈ evs, P e.op e.ans) :
    Steps F w p evs w' p' := by
  induction h with
  | refl w p => exact .refl _ _
  | op hs _ ih =>
    exact .op (hF _ _ _ _ hs (hevs _ List.mem_cons_self)) (ih fun e he => hevs e (List.mem_cons_of_mem _ he))

/-- Every operation of an execution was answered by the environment. -/
theorem Steps.exists_step (h : Steps E w p evs w' p') : ∀ e ∈ evs, ∃ v v', E.step v e.op e.ans v' := by
  induction h with
  | refl w p => simp
  | op hs _ ih =>
    intro e he
    rcases List.mem_cons.mp he with rfl | he
    · exact ⟨_, _, hs⟩
    · exact ih e he

/-- What every execution that ends is known to end in, where all operations are admissible. -/
theorem wp_of_steps (hg : ∀ w o, E.guard w o) (h : ∀ evs w' x, Steps E w p evs w' (ofExcept x) → Q x w') :
    wp E p Q w := by
  induction p generalizing w with
  | ret a => exact h [] w (.ok a) (.refl _ _)
  | fail e => exact h [] w (.error e) (.refl _ _)
  | op o k ih =>
    refine ⟨hg w o, fun r w' hs => ih r ?_⟩
    intro evs w'' x hx
    exact h _ w'' x (.op hs hx)

/-- Where every admissible operation has an answer, a program whose executions all end in `Q` has
an execution, and it returns or fails. -/
theorem wp_exists (hE : ∀ w o, E.guard w o → ∃ r w', E.step w o r w') (h : wp E p Q w) :
    ∃ evs w' x, Steps E w p evs w' (ofExcept x) ∧ Q x w' := by
  induction p generalizing w with
  | ret a => exact ⟨[], w, .ok a, .refl _ _, h⟩
  | fail e => exact ⟨[], w, .error e, .refl _ _, h⟩
  | op o k ih =>
    obtain ⟨r, w', hs⟩ := hE w o h.1
    obtain ⟨evs, w'', x, hx, hQ⟩ := ih r (h.2 r w' hs)
    exact ⟨⟨o, r⟩ :: evs, w'', x, .op hs hx, hQ⟩

/-- Whatever an execution of a program has done, it can go on to return `a`. So no execution is stuck,
fails or returns something else, and since a program is a well-founded tree, every one that goes on
returns `a`. -/
def Computes (E : Env S W) (w : W) (p : Prog S ε α) (a : α) : Prop :=
  ∀ evs w' p', Steps E w p evs w' p' → ∃ evs' w'', Steps E w' p' evs' w'' (ret a)

/-- Whatever a program has done, it goes on to return something. -/
def Completes (E : Env S W) (w : W) (p : Prog S ε α) : Prop :=
  ∀ evs w' p', Steps E w p evs w' p' → ∃ evs' w'' a, Steps E w' p' evs' w'' (ret a)

/-- A program whose executions are known to return completes. -/
theorem completes_of_wp (hE : ∀ w o, E.guard w o → ∃ r w', E.step w o r w')
    (h : wp E p (returns fun _ _ => True) w) : Completes E w p := by
  intro evs w' p' hsteps
  obtain ⟨evs', w'', x, hx, hQ⟩ := wp_exists hE (wp_steps hsteps h)
  cases x with
  | error e => exact hQ.elim
  | ok a => exact ⟨evs', w'', a, hx⟩

/-- Where the admissible operations are those with an answer, the executions of a program that completes are
all known to return. -/
theorem completes_iff_wp (hE : ∀ w o, E.guard w o ↔ ∃ r w', E.step w o r w') :
    Completes E w p ↔ wp E p (returns fun _ _ => True) w := by
  refine ⟨fun h => ?_, completes_of_wp fun w o => (hE w o).mp⟩
  induction p generalizing w with
  | ret a => trivial
  | fail e =>
    obtain ⟨evs, w', a, hsteps⟩ := h [] w _ (.refl _ _)
    cases hsteps
  | op o k ih =>
    obtain ⟨evs, w', a, hsteps⟩ := h [] w _ (.refl _ _)
    cases hsteps with
    | op hs _ =>
      refine ⟨(hE w o).mpr ⟨_, _, hs⟩, fun r v hv => ih r ?_⟩
      intro evs' v' p' hsteps'
      exact h _ _ _ (.op hv hsteps')

/-- A program computes one value only. -/
theorem Computes.eq_iff (h : Computes E w p a) :
    Computes E w p b ↔ a = b := by
  constructor
  · intro h'
    obtain ⟨evs, w', hs⟩ := h _ _ _ (.refl w p)
    obtain ⟨evs', w'', hs'⟩ := h' _ _ _ hs
    cases hs'
    rfl
  · rintro rfl
    exact h

/-- A value computes itself. -/
@[simp] theorem computes_ret : Computes E w (ret a : Prog S ε α) b ↔ a = b := by
  constructor
  · intro h
    obtain ⟨evs, w', hs⟩ := h _ _ _ (.refl _ _)
    cases hs
    rfl
  · rintro rfl evs w' p' hs
    cases hs
    exact ⟨[], w, .refl _ _⟩

/-- An error computes nothing. -/
@[simp] theorem not_computes_fail {e : ε} : ¬ Computes E w (fail e : Prog S ε α) b := by
  intro h
  obtain ⟨evs, w', hs⟩ := h _ _ _ (.refl _ _)
  cases hs

/-- An operation that is answered, whatever the answer. -/
theorem computes_op {o : S.Op} {k : S.Ans o → Prog S ε α} (hs : ∃ r w', E.step w o r w') :
    Computes E w (op o k) b ↔ ∀ r w', E.step w o r w' → Computes E w' (k r) b := by
  constructor
  · intro h r w' hstep evs w'' p' hrest
    exact h _ _ _ (.op hstep hrest)
  · intro h evs w' p' hrun
    cases hrun with
    | refl =>
      obtain ⟨r, w', hstep⟩ := hs
      obtain ⟨evs, w'', hrest⟩ := h r w' hstep _ _ _ (.refl _ _)
      exact ⟨_, w'', .op hstep hrest⟩
    | op hstep hrest => exact h _ _ hstep _ _ _ hrest

/-- A program whose executions are known to return `a` computes it. -/
theorem computes_of_wp (hE : ∀ w o, E.guard w o → ∃ r w', E.step w o r w')
    (h : wp E p (returns fun b _ => b = a) w) : Computes E w p a := by
  intro evs w' p' hsteps
  obtain ⟨evs', w'', x, hx, hQ⟩ := wp_exists hE (wp_steps hsteps h)
  cases x with
  | error e => exact hQ.elim
  | ok b =>
    obtain rfl : b = a := hQ
    exact ⟨evs', w'', hx⟩

end Prog

/-- An environment that remembers what was asked, oldest first, besides what it does. The
guard can depend on both. -/
def Env.traced {S : Sig} {W : Type} (E : Env S W) (guard : W → List (Event S) → S.Op → Prop) :
    Env S (W × List (Event S)) where
  step w o r w' := E.step w.1 o r w'.1 ∧ w'.2 = w.2 ++ [⟨o, r⟩]
  guard w o := guard w.1 w.2 o

namespace Prog

variable {S : Sig} {W ε ε' α β : Type} {E : Env S W}
variable {w w' : W} {p p' : Prog S ε α} {evs l : List (Event S)} {guard : W → List (Event S) → S.Op → Prop}
  {Q : Except ε α → W × List (Event S) → Prop} {e : Event S} {f : α → Prog S ε β}
  {P : Except ε α → List (Event S) → Prop}

/-- An execution, remembered. -/
theorem Steps.traced (h : Steps E w p evs w' p') (guard : W → List (Event S) → S.Op → Prop)
    (l : List (Event S)) : Steps (E.traced guard) (w, l) p evs (w', l ++ evs) p' := by
  induction h generalizing l with
  | refl w p =>
    rw [List.append_nil]
    exact .refl _ _
  | @op w w1 _ o r k evs _ hs _ ih =>
    have hs' : (E.traced guard).step (w, l) o r (w1, l ++ [⟨o, r⟩]) := ⟨hs, rfl⟩
    have := ih (l ++ [⟨o, r⟩])
    rw [List.append_assoc] at this
    exact .op hs' this

/-- The rule of one operation, remembered. -/
theorem wp_traced_op {o : S.Op} {k : S.Ans o → Prog S ε α} :
    wp (E.traced guard) (.op o k) Q (w, l) ↔
      guard w l o ∧ ∀ r w', E.step w o r w' → wp (E.traced guard) (k r) Q (w', l ++ [⟨o, r⟩]) := by
  refine and_congr_right fun _ => ⟨fun h r w' hs => h r (w', _) ⟨hs, rfl⟩, ?_⟩
  rintro h r ⟨w', l'⟩ ⟨hs, hl⟩
  obtain rfl : l' = l ++ [⟨o, r⟩] := hl
  exact h r w' hs

/-- What a program is known to satisfy at its operations, at each operation of an execution. -/
theorem wp_traced_mem (hp : wp (E.traced guard) p Q (w, l)) (h : Steps E w p evs w' p') (he : e ∈ evs) :
    ∃ v pre, guard v pre e.op := by
  induction h generalizing l with
  | refl w p => simp at he
  | @op w w1 _ o r k evs _ hs _ ih =>
    rcases List.mem_cons.mp he with rfl | he
    · exact ⟨w, l, hp.1⟩
    · exact ih ((wp_traced_op.mp hp).2 r w1 hs) he

/-- What a program is known to satisfy at its operations, at the last operation of an execution. -/
theorem wp_traced_last (hp : wp (E.traced guard) p Q (w, [])) (h : Steps E w p (evs ++ [e]) w' p') :
    ∃ v, guard v evs e.op ∧ E.step v e.op e.ans w' := by
  obtain ⟨v, k, hv, hs, -⟩ := h.snoc
  have := wp_steps (hv.traced guard []) hp
  rw [List.nil_append] at this
  exact ⟨v, this.1, hs⟩

/-- What a program is known to satisfy at its operations, at any operation of an execution, with what it
has done before. -/
theorem wp_traced_at {pre post : List (Event S)} (hp : wp (E.traced guard) p Q (w, []))
    (h : Steps E w p (pre ++ e :: post) w' p') :
    ∃ v v' q, Steps E w p pre v q ∧ guard v pre e.op ∧ E.step v e.op e.ans v' := by
  rw [List.append_cons] at h
  obtain ⟨v', q', hpre, -⟩ := h.split
  obtain ⟨v, k, hv, hs, -⟩ := hpre.snoc
  obtain ⟨hg, -⟩ : guard v ([] ++ pre) e.op ∧ _ := wp_steps (hv.traced guard []) hp
  exact ⟨v, v', _, hv, hg, hs⟩

/-! ## Programs that can end -/

/-- From any world the program can come to its end and return. -/
def Finishes (E : Env S W) (p : Prog S ε α) : Prop := ∀ w, ∃ evs a w', Steps E w p evs w' (ret a)

/-- A value is finished. -/
theorem finishes_ret (a : α) : Finishes E (ret a : Prog S ε α) := fun w => ⟨[], a, w, .refl _ _⟩

/-- An operation with an answer after which it finishes. -/
theorem finishes_op {o : S.Op} {k : S.Ans o → Prog S ε α}
    (h : ∀ w, ∃ r w', E.step w o r w' ∧ Finishes E (k r)) : Finishes E (op o k) := by
  intro w
  obtain ⟨r, w', hs, hk⟩ := h w
  obtain ⟨evs, a, w'', hrest⟩ := hk w'
  exact ⟨_, a, w'', .op hs hrest⟩

/-- Two programs in sequence. -/
theorem finishes_bind (hp : Finishes E p) (hf : ∀ a, Finishes E (f a)) : Finishes E (p >>= f) := by
  intro w
  obtain ⟨evs, a, w', hsteps⟩ := hp w
  obtain ⟨evs', b, w'', hrest⟩ := hf a w'
  exact ⟨_, b, w'', hsteps.bind hrest⟩

/-- A loop over a list. -/
theorem finishes_foldlM {f : β → α → Prog S ε β} {as : List α}
    (hf : ∀ b, ∀ a ∈ as, Finishes E (f b a)) (b : β) : Finishes E (as.foldlM f b) := by
  induction as generalizing b with
  | nil => exact finishes_ret b
  | cons a as ih =>
    rw [List.foldlM_cons]
    exact finishes_bind (hf b a List.mem_cons_self) fun b' => ih
      (fun b a ha => hf b a (List.mem_cons_of_mem _ ha)) b'

/-! ## Programs by their operations -/

/-- All operations of a program are of a kind. -/
def Only (A : S.Op → Prop) : Prog S ε α → Prop
  | ret _ => True
  | fail _ => True
  | op o k => A o ∧ ∀ r, (k r).Only A

variable {A : S.Op → Prop}

/-- The operations of two programs in sequence. -/
theorem only_bind (hp : p.Only A) (hf : ∀ a, (f a).Only A) :
    (p >>= f).Only A := by
  induction p with
  | ret a => exact hf a
  | fail e => trivial
  | op o k ih => exact ⟨hp.1, fun r => ih r (hp.2 r)⟩

/-- The operations of a program whose error is handled. -/
theorem only_attempt (hp : p.Only A) :
    (attempt p : Prog S ε' (Except ε α)).Only A := by
  induction p with
  | ret a => trivial
  | fail e => trivial
  | op o k ih => exact ⟨hp.1, fun r => ih r (hp.2 r)⟩

/-- The operations of a program whose error is rewritten. -/
theorem only_mapErr {f : ε → ε'} (hp : p.Only A) : (mapErr f p).Only A := by
  induction p with
  | ret a => trivial
  | fail e => trivial
  | op o k ih => exact ⟨hp.1, fun r => ih r (hp.2 r)⟩

/-- No operation at all. -/
@[simp] theorem only_ofExcept (x : Except ε α) : (ofExcept x : Prog S ε α).Only A := by
  cases x <;> trivial

/-- The operations of a loop over a list. -/
theorem only_foldlM {f : β → α → Prog S ε β} {as : List α} (hf : ∀ b, ∀ a ∈ as, (f b a).Only A)
    (b : β) : (as.foldlM f b).Only A := by
  induction as generalizing b with
  | nil => trivial
  | cons a as ih =>
    rw [List.foldlM_cons]
    exact only_bind (hf b a List.mem_cons_self) fun b' =>
      ih (fun b a ha => hf b a (List.mem_cons_of_mem _ ha)) b'

/-- A program whose operations are of a wider kind. -/
theorem Only.mono {A' : S.Op → Prop} (hp : p.Only A) (h : ∀ o, A o → A' o) :
    p.Only A' := by
  induction p with
  | ret a => trivial
  | fail e => trivial
  | op o k ih => exact ⟨h o hp.1, fun r => ih r (hp.2 r)⟩

/-- No execution of a program fails. -/
def Handled : Prog S ε α → Prop
  | ret _ => True
  | fail _ => False
  | op _ k => ∀ r, (k r).Handled

/-- Two programs in sequence of which neither fails. -/
theorem handled_bind (hp : p.Handled) (hf : ∀ a, (f a).Handled) : (p >>= f).Handled := by
  induction p with
  | ret a => exact hf a
  | fail e => exact hp.elim
  | op o k ih => exact fun r => ih r (hp r)

/-- A program whose error is handled does not fail. -/
theorem handled_attempt (p : Prog S ε α) : (attempt p : Prog S ε' (Except ε α)).Handled := by
  induction p with
  | ret a => trivial
  | fail e => trivial
  | op o k ih => exact fun r => ih r

/-- A program that does not fail does not come to a failure. -/
theorem Handled.steps (hp : p.Handled) (h : Steps E w p evs w' p') : p'.Handled := by
  induction h with
  | refl w p => exact hp
  | op _ _ ih => exact ih (hp _)

/-- A loop over a list whose body does not fail. -/
theorem handled_foldlM {f : β → α → Prog S ε β} (hf : ∀ b a, (f b a).Handled) (as : List α) (b : β) :
    (as.foldlM f b).Handled := by
  induction as generalizing b with
  | nil => trivial
  | cons a as ih =>
    rw [List.foldlM_cons]
    exact handled_bind (hf b a) ih

/-- The executions of a program that does not fail return. -/
theorem Handled.wp_ok (hp : p.Handled) {Q : Except ε α → W → Prop}
    (h : wp E p Q w) : wp E p (returns fun a w' => Q (.ok a) w') w := by
  induction p generalizing w with
  | ret a => exact h
  | fail e => exact hp.elim
  | op o k ih => exact ⟨h.1, fun r w' hs => ih r (hp r) (h.2 r w' hs)⟩

/-- A program fails with certain errors only. -/
def Errs (P : ε → Prop) : Prog S ε α → Prop
  | ret _ => True
  | fail e => P e
  | op _ k => ∀ r, (k r).Errs P

/-- A program that does not fail. -/
theorem Handled.errs {P : ε → Prop} (hp : p.Handled) : p.Errs P := by
  induction p with
  | ret a => trivial
  | fail e => exact hp.elim
  | op o k ih => exact fun r => ih r (hp r)

/-- Two programs in sequence that both fail with such errors. -/
theorem errs_bind {P : ε → Prop} (hp : p.Errs P) (hf : ∀ a, (f a).Errs P) :
    (p >>= f).Errs P := by
  induction p with
  | ret a => exact hf a
  | fail e => exact hp
  | op o k ih => exact fun r => ih r (hp r)

/-- The errors of the executions are such errors. -/
theorem Errs.wp_and {P : ε → Prop} (hp : p.Errs P) {Q : Except ε α → W → Prop}
    (h : wp E p Q w) : wp E p (fun x w' => Q x w' ∧ ∀ e, x = .error e → P e) w := by
  induction p generalizing w with
  | ret a => exact ⟨h, by simp⟩
  | fail e =>
    refine ⟨h, ?_⟩
    rintro e' he
    exact Except.error.inj he ▸ hp
  | op o k ih => exact ⟨h.1, fun r w' hs => ih r (hp r) (h.2 r w' hs)⟩

/-- What every execution that ends is known to end in, where the operations of the program are admissible. -/
theorem Only.wp_of_steps (hp : p.Only A) (hg : ∀ w o, A o → E.guard w o)
    {Q : Except ε α → W → Prop} (h : ∀ evs w' x, Steps E w p evs w' (ofExcept x) → Q x w') : wp E p Q w := by
  induction p generalizing w with
  | ret a => exact h [] w (.ok a) (.refl _ _)
  | fail e => exact h [] w (.error e) (.refl _ _)
  | op o k ih =>
    refine ⟨hg w o hp.1, fun r w' hs => ih r (hp.2 r) ?_⟩
    intro evs w'' x hx
    exact h _ w'' x (.op hs hx)

/-- A program whose operations all keep something keeps it. -/
theorem Only.wp_keeps {I : W → Prop} (hp : p.Only A) (hg : ∀ w o, I w → A o → E.guard w o)
    (hs : ∀ w o r w', I w → A o → E.step w o r w' → I w') (hw : I w) : wp E p (fun _ w' => I w') w := by
  induction p generalizing w with
  | ret a => exact hw
  | fail e => exact hw
  | op o k ih =>
    exact ⟨hg w o hw hp.1, fun r w' hstep => ih r (hp.2 r) (hs w o r w' hw hp.1 hstep)⟩

/-- At every point of an execution of a program whose operations all keep something, it is kept. -/
theorem Only.steps_keeps {I : W → Prop} (hp : p.Only A)
    (hs : ∀ w o r w', I w → A o → E.step w o r w' → I w') (h : Steps E w p evs w' p') (hw : I w) : I w' := by
  induction h with
  | refl w p => exact hw
  | op hstep _ ih => exact ih (hp.2 _) (hs _ _ _ _ hw hp.1 hstep)

/-- The operations of an execution are of the program's kind. -/
theorem Only.of_mem (hp : p.Only A) (h : Steps E w p evs w' p') (he : e ∈ evs) : A e.op := by
  induction h with
  | refl w p => simp at he
  | op hstep _ ih =>
    rcases List.mem_cons.mp he with rfl | he
    · exact hp.1
    · exact ih (hp.2 _) he

/-- A program that does not fail and whose operations are of an admissible kind returns. -/
theorem Only.wp_returns (hp : p.Only A) (hhandled : p.Handled)
    (hg : ∀ w o, A o → E.guard w o) (w : W) : wp E p (returns fun _ _ => True) w :=
  hhandled.wp_ok (hp.wp_keeps (I := fun _ => True) (fun w o _ => hg w o) (fun _ _ _ _ _ _ _ => trivial)
    trivial)

/-- A program has ended and has added to the trace: operations of a kind, of which `P` holds with its
result. -/
def Does (A : S.Op → Prop) (l : List (Event S)) (P : Except ε α → List (Event S) → Prop) :
    Except ε α → W × List (Event S) → Prop :=
  fun r w => ∃ evs, w.2 = l ++ evs ∧ (∀ e ∈ evs, A e.op) ∧ P r evs

/-- What a program adds to the trace, of which only the kind matters. The kind is admissible once the
trace is at `l`. -/
theorem Only.wp_does_from (hp : p.Only A) (hg : ∀ v l' o, l <+: l' → A o → guard v l' o) (w : W) :
    wp (E.traced guard) p (Does A l fun _ _ => True) (w, l) := by
  induction p generalizing w l with
  | ret a => exact ⟨[], by simp, by simp, trivial⟩
  | fail e => exact ⟨[], by simp, by simp, trivial⟩
  | op o k ih =>
    refine wp_traced_op.mpr ⟨hg _ _ _ List.prefix_rfl hp.1, ?_⟩
    intro r w' _
    have hg' : ∀ v l' o', l ++ [⟨o, r⟩] <+: l' → A o' → guard v l' o' := fun v l' o' hl =>
      hg v l' o' ((List.prefix_append _ _).trans hl)
    refine wp_mono (ih r (hp.2 r) hg' w') ?_
    rintro x ⟨w'', l''⟩ ⟨evs, hl, hevs, -⟩
    refine ⟨⟨o, r⟩ :: evs, by rw [show l'' = _ from hl]; simp, ?_, trivial⟩
    intro e he
    rcases List.mem_cons.mp he with rfl | he
    · exact hp.1
    · exact hevs e he

/-- What a program of a kind that is always admissible adds to the trace. -/
theorem Only.wp_does (hp : p.Only A) (hg : ∀ v l o, A o → guard v l o) (w : W) (l : List (Event S)) :
    wp (E.traced guard) p (Does A l fun _ _ => True) (w, l) :=
  hp.wp_does_from (fun v l' o _ => hg v l' o) w

/-- What a program adds to the trace whose error is handled. -/
theorem wp_attempt_does (hp : wp (E.traced guard) p (Does A l P) (w, l)) :
    wp (E.traced guard) (attempt p : Prog S ε' (Except ε α))
      (Does A l fun r evs => ∃ x, r = .ok x ∧ P x evs) (w, l) := by
  rw [wp_attempt]
  refine wp_mono hp ?_
  rintro r w' ⟨evs, hl, hevs, hP⟩
  exact ⟨evs, hl, hevs, r, rfl, hP⟩

/-- What two programs in sequence add to the trace. -/
theorem wp_bind_does {Q : Except ε β → List (Event S) → Prop}
    (hp : wp (E.traced guard) p (Does A l P) (w, l))
    (hok : ∀ a w' evs, P (.ok a) evs →
      wp (E.traced guard) (f a) (Does A (l ++ evs) fun r evs' => Q r (evs ++ evs')) (w', l ++ evs))
    (herr : ∀ e evs, P (.error e) evs → Q (.error e) evs) :
    wp (E.traced guard) (p >>= f) (Does A l Q) (w, l) := by
  refine wp_bind_of hp ?_ ?_
  · rintro a ⟨w', l'⟩ ⟨evs, hl, hevs, hP⟩
    obtain rfl : l' = l ++ evs := hl
    refine wp_mono (hok a w' evs hP) ?_
    rintro r ⟨w'', l''⟩ ⟨evs', hl', hevs', hQ⟩
    refine ⟨evs ++ evs', by rw [show l'' = _ from hl', List.append_assoc], ?_, hQ⟩
    intro e he
    exact (List.mem_append.mp he).elim (hevs e) (hevs' e)
  · rintro e ⟨w', l'⟩ ⟨evs, hl, hevs, hP⟩
    exact ⟨evs, hl, hevs, herr e evs hP⟩

/-- A step of a proof along a sequence, where what was done so far is `evs`. -/
theorem wp_bind_after {Q : Except ε β → W × List (Event S) → Prop}
    (hp : wp (E.traced guard) p (Does A (l ++ evs) P) (w, l ++ evs))
    (hok : ∀ a w' evs', (∀ e ∈ evs', A e.op) → P (.ok a) evs' → wp (E.traced guard) (f a) Q
      (w', l ++ (evs ++ evs')))
    (herr : ∀ e w' evs', (∀ e ∈ evs', A e.op) → P (.error e) evs' → Q (.error e) (w', l ++ (evs ++ evs'))) :
    wp (E.traced guard) (p >>= f) Q (w, l ++ evs) := by
  refine wp_bind_of hp ?_ ?_
  · rintro a ⟨w', l'⟩ ⟨evs', hl, hevs', hP⟩
    obtain rfl : l' = l ++ (evs ++ evs') := by rw [← List.append_assoc]; exact hl
    exact hok a w' evs' hevs' hP
  · rintro e ⟨w', l'⟩ ⟨evs', hl, hevs', hP⟩
    obtain rfl : l' = l ++ (evs ++ evs') := by rw [← List.append_assoc]; exact hl
    exact herr e w' evs' hevs' hP

/-- A program that adds nothing more. -/
theorem does_nil {r : Except ε α} (h : P r []) (w : W) (l : List (Event S)) : Does A l P r (w, l) :=
  ⟨[], by simp, by simp, h⟩

end Prog

end FnShare
