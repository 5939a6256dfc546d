import FnShare.Lib.Prog
import Mathlib.Algebra.Order.Ring.Int

/-!
# Remote calls

A client and a server, and a network between them that can lose every message. The client runs any
number of programs. Where one of them performs a remote call, a request is sent and the program waits;
the server runs a program of its own for the request and sends its response back. The client can stop
waiting at any time, and the request then goes its way without anybody to wait for it. All of this is
interleaved in any order (`Rpc.Reach`).

`Rpc.Reach.balanced` is a rule for accounts that the two sides keep of their exchange. The server adds to
its account before it responds, at least what the response entitles the client to (`Tariff.due`); the
client adds to its own at most what it has received responses for. Then whatever is lost, the client's
account is never ahead of the server's. What carries the proof is a sum over all calls under way: what the
server has added for a call and the client has not yet.
-/

namespace FnShare

open Prog

/-- A client in states `A` and a server in states `B`. -/
structure Rpc (S : Sig) (A B Req Resp Err ε α : Type) where
  /-- The operation of the client that is a remote call. -/
  call : Req → S.Op
  /-- The answer to a call when the response has arrived. -/
  arrived : (q : Req) → Resp → S.Ans (call q)
  /-- The answer to a call when the client has stopped waiting. -/
  failed : (q : Req) → Err → S.Ans (call q)
  /-- What another operation of the client does and answers. -/
  client : A → (o : S.Op) → S.Ans o → A → Prop
  /-- What an operation of the server does and answers. -/
  server : B → (o : S.Op) → S.Ans o → B → Prop
  /-- The programs that the client can start. -/
  start : Prog S ε α → Prop
  /-- The programs that can serve a request. -/
  handler : Req → Prog S ε Resp → Prop
  /-- What can happen at the client otherwise. -/
  clientDrift : A → A → Prop
  /-- What can happen at the server otherwise. -/
  serverDrift : B → B → Prop

namespace Rpc

variable {S : Sig} {A B Req Resp Err ε α : Type} {R : Rpc S A B Req Resp Err ε α}

/-- Where a request is on its way through the server. -/
inductive Part (S : Sig) (ε Resp : Type)
  | sent
  | serving (p : Prog S ε Resp)
  | answered (resp : Resp)
  | lost

/-- A program of the client, or a request that nobody waits for any more. -/
inductive Call (R : Rpc S A B Req Resp Err ε α)
  | running (p : Prog S ε α)
  | waiting (q : Req) (k : S.Ans (R.call q) → Prog S ε α) (part : Part S ε Resp)
  | orphan (q : Req) (part : Part S ε Resp)

/-- One step of a request on its way. -/
inductive PartStep (R : Rpc S A B Req Resp Err ε α) (q : Req) :
    B → Part S ε Resp → B → Part S ε Resp → Prop
  | accept {b : B} {p : Prog S ε Resp} (h : R.handler q p) : PartStep R q b .sent b (.serving p)
  | serve {b b' : B} {o : S.Op} {r : S.Ans o} {k : S.Ans o → Prog S ε Resp} (h : R.server b o r b') :
      PartStep R q b (.serving (.op o k)) b' (.serving (k r))
  | reply {b : B} {resp : Resp} : PartStep R q b (.serving (.ret resp)) b (.answered resp)
  | loseRequest {b : B} : PartStep R q b .sent b .lost
  | loseResponse {b : B} {resp : Resp} : PartStep R q b (.answered resp) b .lost

/-- One step of a call, and what it leaves in place of the call. -/
inductive CallStep (R : Rpc S A B Req Resp Err ε α) :
    A → B → Call R → A → B → List (Call R) → Prop
  | here {a a' : A} {b : B} {o : S.Op} {r : S.Ans o} {k : S.Ans o → Prog S ε α}
      (ho : ∀ q, o ≠ R.call q) (h : R.client a o r a') :
      CallStep R a b (.running (.op o k)) a' b [.running (k r)]
  | issue {a : A} {b : B} {q : Req} {k : S.Ans (R.call q) → Prog S ε α} :
      CallStep R a b (.running (.op (R.call q) k)) a b [.waiting q k .sent]
  | there {a : A} {b b' : B} {q : Req} {k : S.Ans (R.call q) → Prog S ε α} {part part' : Part S ε Resp}
      (h : PartStep R q b part b' part') :
      CallStep R a b (.waiting q k part) a b' [.waiting q k part']
  | deliver {a : A} {b : B} {q : Req} {k : S.Ans (R.call q) → Prog S ε α} {resp : Resp} :
      CallStep R a b (.waiting q k (.answered resp)) a b [.running (k (R.arrived q resp))]
  | giveUp {a : A} {b : B} {q : Req} {k : S.Ans (R.call q) → Prog S ε α} {part : Part S ε Resp} (e : Err) :
      CallStep R a b (.waiting q k part) a b [.running (k (R.failed q e)), .orphan q part]
  | late {a : A} {b b' : B} {q : Req} {part part' : Part S ε Resp} (h : PartStep R q b part b' part') :
      CallStep R a b (.orphan q part) a b' [.orphan q part']

/-- From the states `a₀` and `b₀`, the two sides can come to the states `a` and `b` with the calls `cs`. -/
inductive Reach (R : Rpc S A B Req Resp Err ε α) (a₀ : A) (b₀ : B) : A → B → List (Call R) → Prop
  | init : Reach R a₀ b₀ a₀ b₀ []
  | start {a : A} {b : B} {cs : List (Call R)} {p : Prog S ε α} (h : Reach R a₀ b₀ a b cs)
      (hp : R.start p) : Reach R a₀ b₀ a b (.running p :: cs)
  | step {a a' : A} {b b' : B} {cs cs' new : List (Call R)} {c : Call R}
      (h : Reach R a₀ b₀ a b (cs ++ c :: cs')) (hs : CallStep R a b c a' b' new) :
      Reach R a₀ b₀ a' b' (cs ++ (new ++ cs'))
  | clientDrift {a a' : A} {b : B} {cs : List (Call R)} (h : Reach R a₀ b₀ a b cs)
      (hd : R.clientDrift a a') : Reach R a₀ b₀ a' b cs
  | serverDrift {a : A} {b b' : B} {cs : List (Call R)} (h : Reach R a₀ b₀ a b cs)
      (hd : R.serverDrift b b') : Reach R a₀ b₀ a b' cs

/-- A step of the first call. -/
theorem Reach.step_head {a₀ a a' : A} {b₀ b b' : B} {c c' : Call R} {cs : List (Call R)}
    (h : Reach R a₀ b₀ a b (c :: cs)) (hs : CallStep R a b c a' b' [c']) :
    Reach R a₀ b₀ a' b' (c' :: cs) := by
  have h' : Reach R a₀ b₀ a b ([] ++ c :: cs) := h
  exact h'.step hs

/-- An operation of the first call, if that is a program of the client. -/
theorem Reach.step_here {a₀ a a' : A} {b₀ b : B} {cs : List (Call R)} {o : S.Op} {r : S.Ans o}
    {k : S.Ans o → Prog S ε α} (h : Reach R a₀ b₀ a b (.running (.op o k) :: cs))
    (ho : ∀ q, o ≠ R.call q) (hs : R.client a o r a') : Reach R a₀ b₀ a' b (.running (k r) :: cs) :=
  h.step_head (.here ho hs)

/-! ## Accounts -/

/-- What the operations of the two sides add to their accounts, and what a response entitles to. -/
structure Tariff (R : Rpc S A B Req Resp Err ε α) where
  /-- What an operation of the client adds to the client's account. -/
  cost : S.Op → ℤ
  /-- What an answer allows the client to add later. -/
  got : (o : S.Op) → S.Ans o → ℤ
  /-- What an operation of the server adds to the server's account. -/
  gain : S.Op → ℤ
  /-- What the response to a request entitles the client to. -/
  due : Req → Resp → ℤ
  due_nonneg : ∀ q resp, 0 ≤ due q resp
  got_arrived : ∀ q resp, got (R.call q) (R.arrived q resp) = due q resp
  got_failed : ∀ q e, got (R.call q) (R.failed q e) = 0
  got_here : ∀ o r, (∀ q, o ≠ R.call q) → got o r = 0

namespace Tariff

variable (T : Tariff R)

/-- A program of the client runs on what it has received: it may add that much. -/
def credit : Env S ℤ where
  step x o r x' := x' = x - T.cost o + T.got o r
  guard x o := 0 ≤ T.cost o ∧ T.cost o ≤ x

/-- A program of the server, with what it has added so far. -/
def giving : Env S ℤ where
  step y o _ y' := y' = y + T.gain o
  guard _ o := 0 ≤ T.gain o

/-- The server has added `y` for a request, or at least what the response entitles to. -/
def PartHolds (q : Req) : Part S ε Resp → ℤ → Prop
  | .sent, y => y = 0
  | .serving p, y => 0 ≤ y ∧ wp T.giving p (onOk fun resp y' => T.due q resp ≤ y') y
  | .answered resp, y => T.due q resp ≤ y
  | .lost, y => 0 ≤ y

/-- The server is ahead of the client by `x` in a call. -/
def Holds : Call R → ℤ → Prop
  | .running p, x => 0 ≤ x ∧ wp T.credit p (fun _ _ => True) x
  | .waiting q k part, x => ∃ x₁ y, x = x₁ + y ∧ 0 ≤ x₁ ∧ T.PartHolds q part y ∧
      ∀ r, wp T.credit (k r) (fun _ _ => True) (x₁ + T.got (R.call q) r)
  | .orphan q part, y => T.PartHolds q part y

/-- The server is ahead of the client by `z` in some calls together. -/
inductive Held : List (Call R) → ℤ → Prop
  | nil : Held [] 0
  | cons {c : Call R} {cs : List (Call R)} {x z : ℤ} (h : T.Holds c x) (hs : Held cs z) :
      Held (c :: cs) (x + z)

/-- The accounts are kept by the tariff: `Paid a u` says that the client's account in `a` is at most `u`,
and `Earned b v` that the server's in `b` is `v`. -/
structure Kept (Paid : A → ℤ → Prop) (Earned : B → ℤ → Prop) : Prop where
  client : ∀ a o r a' u, R.client a o r a' → 0 ≤ T.cost o → Paid a u → Paid a' (u + T.cost o)
  clientDrift : ∀ a a' u, R.clientDrift a a' → Paid a u → Paid a' u
  server : ∀ b o r b' v, R.server b o r b' → 0 ≤ T.gain o → Earned b v → Earned b' (v + T.gain o)
  serverDrift : ∀ b b' v, R.serverDrift b b' → Earned b v → Earned b' v
  /-- A program of the client adds what it has received responses for. -/
  start : ∀ p, R.start p → wp T.credit p (fun _ _ => True) 0
  /-- A program of the server adds what its response entitles to. -/
  handler : ∀ q p, R.handler q p → wp T.giving p (onOk fun resp y => T.due q resp ≤ y) 0

variable {T}

/-- In no part is the server behind. -/
theorem PartHolds.nonneg {q : Req} {part : Part S ε Resp} {y : ℤ} (h : T.PartHolds q part y) : 0 ≤ y := by
  cases part with
  | sent => exact le_of_eq (Eq.symm h)
  | serving p => exact h.1
  | answered resp => exact (T.due_nonneg q resp).trans h
  | lost => exact h

/-- In no call is the server behind. -/
theorem Holds.nonneg {c : Call R} {x : ℤ} (h : T.Holds c x) : 0 ≤ x := by
  cases c with
  | running p => exact h.1
  | waiting q k part =>
    obtain ⟨x₁, y, rfl, hx₁, hy, -⟩ := h
    exact add_nonneg hx₁ hy.nonneg
  | orphan q part => exact PartHolds.nonneg h

/-- In no calls is the server behind. -/
theorem Held.nonneg {cs : List (Call R)} {z : ℤ} (h : T.Held cs z) : 0 ≤ z := by
  induction h with
  | nil => exact le_rfl
  | cons h _ ih => exact add_nonneg h.nonneg ih

/-- Two lots of calls. -/
theorem held_append {cs cs' : List (Call R)} {z : ℤ} :
    T.Held (cs ++ cs') z ↔ ∃ z₁ z₂, z = z₁ + z₂ ∧ T.Held cs z₁ ∧ T.Held cs' z₂ := by
  induction cs generalizing z with
  | nil =>
    constructor
    · intro h
      exact ⟨0, z, (zero_add z).symm, .nil, h⟩
    · rintro ⟨z₁, z₂, rfl, h₁, h₂⟩
      cases h₁
      rw [zero_add]
      exact h₂
  | cons c cs ih =>
    constructor
    · intro h
      cases h with
      | cons hc hs =>
        obtain ⟨z₁, z₂, rfl, h₁, h₂⟩ := ih.mp hs
        exact ⟨_, z₂, (add_assoc _ _ _).symm, .cons hc h₁, h₂⟩
    · rintro ⟨z₁, z₂, rfl, h₁, h₂⟩
      cases h₁ with
      | cons hc hs =>
        rw [add_assoc]
        exact .cons hc (ih.mpr ⟨_, z₂, rfl, hs, h₂⟩)

/-- One call. -/
theorem held_singleton {c : Call R} {x : ℤ} (h : T.Holds c x) : T.Held [c] x := by
  rw [← add_zero x]
  exact .cons h .nil

variable {Paid : A → ℤ → Prop} {Earned : B → ℤ → Prop}

/-- A step of a request: what the server adds, it is ahead by. -/
theorem Kept.partStep (hT : T.Kept Paid Earned) {q : Req} {b b' : B} {part part' : Part S ε Resp} {v y : ℤ}
    (h : PartStep R q b part b' part') (hv : Earned b v) (hy : T.PartHolds q part y) :
    ∃ v' y', Earned b' v' ∧ T.PartHolds q part' y' ∧ y' - v' ≤ y - v := by
  cases h with
  | accept hp =>
    refine ⟨v, 0, hv, ⟨le_rfl, hT.handler q _ hp⟩, ?_⟩
    rw [show y = 0 from hy]
  | @serve b' o r k hs =>
    obtain ⟨hy0, hgain, hk⟩ := hy
    refine ⟨v + T.gain o, y + T.gain o, hT.server b o r b' v hs hgain hv, ⟨?_, hk r _ rfl⟩, ?_⟩
    · exact add_nonneg hy0 hgain
    · omega
  | reply => exact ⟨v, y, hv, hy.2, le_rfl⟩
  | loseRequest => exact ⟨v, y, hv, PartHolds.nonneg hy, le_rfl⟩
  | loseResponse => exact ⟨v, y, hv, PartHolds.nonneg hy, le_rfl⟩

/-- A step of a call: the client adds no more than the server is ahead by. -/
theorem Kept.callStep (hT : T.Kept Paid Earned) {a a' : A} {b b' : B} {c : Call R} {new : List (Call R)}
    {u v x : ℤ} (h : CallStep R a b c a' b' new) (hu : Paid a u) (hv : Earned b v) (hx : T.Holds c x) :
    ∃ u' v' z, Paid a' u' ∧ Earned b' v' ∧ T.Held new z ∧ u' + z - v' ≤ u + x - v := by
  cases h with
  | @here a' b o r k ho hs =>
    obtain ⟨hx0, ⟨hcost, hle⟩, hk⟩ := hx
    have hgot : T.got o r = 0 := T.got_here o r ho
    have hrest := hk r _ rfl
    rw [hgot, add_zero] at hrest
    refine ⟨u + T.cost o, v, x - T.cost o, hT.client a o r a' u hs hcost hu, hv,
      held_singleton ⟨by omega, hrest⟩, ?_⟩
    omega
  | @issue b q k =>
    obtain ⟨hx0, ⟨hcost, hle⟩, hk⟩ := hx
    refine ⟨u, v, x - T.cost (R.call q), hu, hv, held_singleton
      ⟨x - T.cost (R.call q), 0, (add_zero _).symm, by omega, rfl, fun r => hk r _ rfl⟩, ?_⟩
    omega
  | there hs =>
    obtain ⟨x₁, y, rfl, hx₁, hy, hk⟩ := hx
    obtain ⟨v', y', hv', hy', hle⟩ := hT.partStep hs hv hy
    exact ⟨u, v', x₁ + y', hu, hv', held_singleton ⟨x₁, y', rfl, hx₁, hy', hk⟩, by omega⟩
  | @deliver b q k resp =>
    obtain ⟨x₁, y, rfl, hx₁, hy, hk⟩ := hx
    -- What the server has added covers what the response entitles to.
    have hrest := hk (R.arrived q resp)
    have hdue : T.due q resp ≤ y := hy
    have hdue0 := T.due_nonneg q resp
    rw [T.got_arrived] at hrest
    exact ⟨u, v, x₁ + T.due q resp, hu, hv, held_singleton ⟨by omega, hrest⟩, by omega⟩
  | @giveUp b q k part e =>
    obtain ⟨x₁, y, rfl, hx₁, hy, hk⟩ := hx
    -- The request keeps what the server has added for it, and goes on alone.
    have hrest := hk (R.failed q e)
    rw [T.got_failed, add_zero] at hrest
    exact ⟨u, v, x₁ + y, hu, hv, .cons ⟨hx₁, hrest⟩ (held_singleton hy), le_rfl⟩
  | late hs =>
    obtain ⟨v', y', hv', hy', hle⟩ := hT.partStep hs hv hx
    exact ⟨u, v', y', hu, hv', held_singleton hy', by omega⟩

end Tariff

/-- Whatever the order and whatever is lost, the client's account is not ahead of the server's, if it is
not at the start. -/
theorem Reach.balanced {T : Tariff R} {Paid : A → ℤ → Prop} {Earned : B → ℤ → Prop}
    (hT : T.Kept Paid Earned) {a₀ a : A} {b₀ b : B} {cs : List (Call R)} {u₀ v₀ : ℤ} (hu₀ : Paid a₀ u₀)
    (hv₀ : Earned b₀ v₀) (hle : u₀ ≤ v₀) (h : Reach R a₀ b₀ a b cs) :
    ∃ u v, Paid a u ∧ Earned b v ∧ u ≤ v := by
  -- The invariant has the calls in it: the server is ahead by all that they hold.
  have hinv : ∃ u v z, Paid a u ∧ Earned b v ∧ T.Held cs z ∧ u + z ≤ v := by
    induction h with
    | init => exact ⟨u₀, v₀, 0, hu₀, hv₀, .nil, by omega⟩
    | start _ hp ih =>
      obtain ⟨u, v, z, hu, hv, hz, hle⟩ := ih
      exact ⟨u, v, 0 + z, hu, hv, .cons ⟨le_rfl, hT.start _ hp⟩ hz, by omega⟩
    | step _ hs ih =>
      obtain ⟨u, v, z, hu, hv, hz, hle⟩ := ih
      obtain ⟨z₁, z₂, rfl, hz₁, hz₂⟩ := Tariff.held_append.mp hz
      cases hz₂ with
      | cons hc hz₂ =>
        obtain ⟨u', v', w, hu', hv', hw, hle'⟩ := hT.callStep hs hu hv hc
        refine ⟨u', v', _, hu', hv', Tariff.held_append.mpr ⟨_, _, rfl, hz₁,
          Tariff.held_append.mpr ⟨_, _, rfl, hw, hz₂⟩⟩, ?_⟩
        omega
    | clientDrift _ hd ih =>
      obtain ⟨u, v, z, hu, hv, hz, hle⟩ := ih
      exact ⟨u, v, z, hT.clientDrift _ _ u hd hu, hv, hz, hle⟩
    | serverDrift _ hd ih =>
      obtain ⟨u, v, z, hu, hv, hz, hle⟩ := ih
      exact ⟨u, v, z, hu, hT.serverDrift _ _ v hd hv, hz, hle⟩
  obtain ⟨u, v, z, hu, hv, hz, hle⟩ := hinv
  have hz0 := hz.nonneg
  exact ⟨u, v, hu, hv, by omega⟩

end Rpc

end FnShare
