import FnShare.Api.Auth

/-!
# The first password

`POST /v1/auth/init` sets the owner's password if there is none. The check and the write are two steps
with the slow hash between them and no lock around them, so requests that run together can all find no
password, and all of them set theirs and answer with success: the last one wins
(`init_overtaken`). Where no request makes its check while another one is between its check and its write,
and no check is answered with an error of the store instead of the password, one request succeeds at most,
and its password stays (`init_once`).
-/

namespace FnShare

open Prog

/-- The operations of requests that run together, while the clock goes on. -/
def initEnv (compare : Bytes → Bytes → Bool) : Env AuthSig AuthWorld where
  step w o r w' := ∃ v, w.Later v ∧ authStep compare v o r w'
  guard _ _ := True

/-- What an init request has done when it comes to an operation: it writes after its check and the hash,
and reads again after it has written. -/
def InitOp (l : List (Event AuthSig)) : AuthOp → Prop
  | .storeGet _ => l = [] ∨ ∃ value r, (⟨.storePut keyPasswordHash value, r⟩ : Event AuthSig) ∈ l
  | .storePut key value => key = keyPasswordHash ∧ ∃ err password,
      l = [⟨.storeGet keyPasswordHash, .error err⟩, ⟨.bcryptHash password, .ok value⟩]
  | _ => True

/-- A request that answers with success has written its hash. -/
def InitReply (reply : Reply) (l : List (Event AuthSig)) : Prop :=
  (∃ tok, reply = loggedIn tok) →
    ∃ value, (⟨.storePut keyPasswordHash value, .ok ()⟩ : Event AuthSig) ∈ l

section

variable {compare : Bytes → Bytes → Bool}

/-- An error is not an answer with a token. -/
theorem not_loggedIn_writeErr (code : ℕ) (err : GoErr) : ¬ ∃ tok, writeErr code err = loggedIn tok := by
  rintro ⟨tok, h⟩
  injection h with _ hbody _
  exact absurd hbody (by simp)

/-- `VerifyAndIssue`, after a write. -/
theorem wp_verifyAndIssue_init {l : List (Event AuthSig)} {value : Bytes} {u : Except GoErr Unit}
    (hl : (⟨.storePut keyPasswordHash value, u⟩ : Event AuthSig) ∈ l) (password : Bytes) :
    wp ((Env.any AuthSig).traced fun _ => InitOp) (verifyAndIssue compare password)
      (fun _ wl => l <+: wl.2) ((), l) := by
  refine wp_traced_op.mpr ⟨.inr ⟨value, u, hl⟩, fun r _ _ => ?_⟩
  cases r with
  | error e => exact List.prefix_append _ _
  | ok hash =>
    change wp (S := AuthSig) _ (if (!compare hash password) = true then _ else _) _ _
    split_ifs
    · exact List.prefix_append _ _
    · refine wp_traced_op.mpr ⟨trivial, fun rand _ _ => ?_⟩
      cases rand with
      | error e => exact (List.prefix_append _ _).trans (List.prefix_append _ _)
      | ok b =>
        refine wp_traced_op.mpr ⟨trivial, fun _ _ _ => ?_⟩
        exact ((List.prefix_append _ _).trans (List.prefix_append _ _)).trans (List.prefix_append _ _)

/-- `SetPassword`, after a check that found none. -/
theorem wp_setPassword_init (err : GoErr) (password : Bytes) :
    wp ((Env.any AuthSig).traced fun _ => InitOp) (setPassword password)
      (onOk fun _ wl => ∃ value, (⟨.storePut keyPasswordHash value, .ok ()⟩ : Event AuthSig) ∈ wl.2)
      ((), [⟨.storeGet keyPasswordHash, .error err⟩]) := by
  unfold setPassword
  split_ifs
  · trivial
  · refine wp_traced_op.mpr ⟨trivial, fun r _ _ => ?_⟩
    cases r with
    | error e => trivial
    | ok hash =>
      refine wp_traced_op.mpr ⟨⟨rfl, err, password, rfl⟩, fun r' _ _ => ?_⟩
      cases r' with
      | error e => trivial
      | ok u => exact ⟨hash, by simp⟩

/-- What the handler does, and how it answers. -/
theorem wp_handleAuthInit (body : Except GoErr AuthRequest) :
    wp ((Env.any AuthSig).traced fun _ => InitOp) (handleAuthInit compare body)
      (returns fun reply wl => InitReply reply wl.2) ((), []) := by
  have hrefused (code : ℕ) (err : GoErr) (l : List (Event AuthSig)) :
      InitReply (writeErr code err) l := fun h => absurd h (not_loggedIn_writeErr code err)
  refine wp_traced_op.mpr ⟨.inl rfl, fun r _ _ => ?_⟩
  cases r with
  | ok hash => exact hrefused _ _ _
  | error err =>
    cases body with
    | error e => exact hrefused _ _ _
    | ok req =>
      change wp _ (attempt (setPassword req.password) >>= _) _ _
      refine (wp_bind _ _ _ _).mpr ((wp_attempt _ _ _).mpr ?_)
      refine wp_mono (wp_setPassword_init err req.password) ?_
      rintro (e | u) ⟨⟨⟩, l⟩ hset
      · exact hrefused _ _ _
      · obtain ⟨value, hmem⟩ := hset
        refine (wp_bind _ _ _ _).mpr ((wp_attempt _ _ _).mpr ?_)
        refine wp_mono (wp_verifyAndIssue_init hmem req.password) ?_
        rintro (e | tok) ⟨⟨⟩, l'⟩ hpre
        · exact hrefused _ _ _
        · exact fun _ => ⟨value, hpre.subset hmem⟩

/-! ## Requests that do not overlap -/

variable {ι : Type} [DecidableEq ι]

/-- A request is between its check and its write: it has found no password, has not written its own, and
has not answered. -/
structure Setting (tr : List (ι × Event AuthSig)) (ps : ι → AuthM Reply) (i : ι) : Prop where
  checked : ∃ err, (⟨.storeGet keyPasswordHash, .error err⟩ : Event AuthSig) ∈ own i tr
  unwritten : ∀ value r, (⟨.storePut keyPasswordHash value, r⟩ : Event AuthSig) ∉ own i tr
  unanswered : ∀ reply, ps i ≠ ret reply

/-- The condition on a step: a request whose check finds no password makes it while there is none, and
no other request is between its check and its write. -/
def Unraced (tr : List (ι × Event AuthSig)) (w : AuthWorld) (ps : ι → AuthM Reply) (i : ι)
    (e : Event AuthSig) : Prop :=
  own i tr = [] → (∃ err, e = ⟨.storeGet keyPasswordHash, .error err⟩) →
    w.store keyPasswordHash = none ∧ ∀ j, ¬ Setting tr ps j

/-- What unraced requests keep. -/
structure FirstOnly (tr : List (ι × Event AuthSig)) (w : AuthWorld) (ps : ι → AuthM Reply) : Prop where
  /-- One request at a time is between its check and its write. -/
  one : ∀ i j, Setting tr ps i → Setting tr ps j → i = j
  /-- Meanwhile there is no password. -/
  empty : ∀ i, Setting tr ps i → w.store keyPasswordHash = none
  /-- The password that was written is there. -/
  written : ∀ i value, (i, ⟨.storePut keyPasswordHash value, .ok ()⟩) ∈ tr →
    w.store keyPasswordHash = some value
  /-- One request has written it. -/
  writer : ∀ i j value value', (i, ⟨.storePut keyPasswordHash value, .ok ()⟩) ∈ tr →
    (j, ⟨.storePut keyPasswordHash value', .ok ()⟩) ∈ tr → i = j

section Steps

variable {tr : List (ι × Event AuthSig)} {w w' : AuthWorld} {ps : ι → AuthM Reply} {i j : ι}
  {o : AuthOp} {r : o.Ans} {k : o.Ans → AuthM Reply}

/-- A step of another handler. -/
theorem setting_of_ne (hij : i ≠ j) (e : Event AuthSig) (p : AuthM Reply) :
    Setting (tr ++ [(i, e)]) (Function.update ps i p) j ↔ Setting tr ps j := by
  have hown : own j (tr ++ [(i, e)]) = own j tr := by
    rw [own_append, own_cons_ne hij, own_nil, List.append_nil]
  constructor
  · rintro ⟨hchecked, hunwritten, hunanswered⟩
    rw [hown] at hchecked hunwritten
    rw [Function.update_of_ne hij.symm] at hunanswered
    exact ⟨hchecked, hunwritten, hunanswered⟩
  · rintro ⟨hchecked, hunwritten, hunanswered⟩
    rw [← hown] at hchecked hunwritten
    exact ⟨hchecked, hunwritten, by rwa [Function.update_of_ne hij.symm]⟩

/-- A request comes between its check and its write by the check. -/
theorem setting_self (hi : ps i = .op o k) (ho : InitOp (own i tr) o)
    (h : Setting (tr ++ [(i, ⟨o, r⟩)]) (Function.update ps i (k r)) i) :
    Setting tr ps i ∨
      own i tr = [] ∧ ∃ err, (⟨o, r⟩ : Event AuthSig) = ⟨.storeGet keyPasswordHash, .error err⟩ := by
  obtain ⟨⟨err, hchecked⟩, hunwritten, -⟩ := h
  rw [own_append, own_cons_self, own_nil] at hchecked hunwritten
  have hbefore : ∀ value r, (⟨.storePut keyPasswordHash value, r⟩ : Event AuthSig) ∉ own i tr :=
    fun value r hmem => hunwritten value r (List.mem_append_left _ hmem)
  rcases List.mem_append.mp hchecked with hold | hnew
  · exact .inl ⟨⟨err, hold⟩, hbefore, by simp [hi]⟩
  · right
    have he : (⟨o, r⟩ : Event AuthSig) = ⟨.storeGet keyPasswordHash, .error err⟩ :=
      (List.mem_singleton.mp hnew).symm
    refine ⟨?_, err, he⟩
    -- A second read would come after the write.
    obtain rfl : o = .storeGet keyPasswordHash := congrArg Event.op he
    rcases ho with hnil | ⟨value, u, hmem⟩
    · exact hnil
    · exact absurd hmem (hbefore value u)

/-- A request that writes is between its check and its write. -/
theorem setting_of_put {key value : Bytes} {k : (AuthOp.storePut key value).Ans → AuthM Reply}
    (hi : ps i = .op (.storePut key value) k) (ho : InitOp (own i tr) (.storePut key value)) :
    key = keyPasswordHash ∧ Setting tr ps i := by
  obtain ⟨hkey, err, password, hown⟩ := ho
  exact ⟨hkey, ⟨err, by simp [hown]⟩, by simp [hown], by simp [hi]⟩

/-- An operation that is no write leaves the store as it is. -/
theorem store_of_step (hs : (initEnv compare).step w o r w')
    (ho : ∀ key value, o ≠ .storePut key value) : w'.store = w.store := by
  obtain ⟨v, ⟨-, hv⟩, hs⟩ := hs
  have hstore : v.store = w.store := by rw [hv]
  rw [← hstore]
  cases o with
  | storeGet key => rw [hs.1]
  | storePut key value => exact absurd rfl (ho key value)
  | rand => rw [show w' = v from hs]
  | bcryptHash password => rw [hs.1]
  | issue token => rw [show w' = v.issue token from hs]; rfl
  | validate token =>
    rw [show w' = (v.validate token).2 from congrArg Prod.snd hs]
    unfold AuthWorld.validate
    cases v.sessions token with
    | none => rfl
    | some exp =>
      dsimp only
      split_ifs <;> rfl
  | revoke token => rw [show w' = v.revoke token from hs]; rfl
  | serve => rw [show w' = v from hs]

/-- A write, after which no request is between its check and its write. -/
theorem FirstOnly.put {key value : Bytes} {u : Except GoErr Unit}
    {k : (AuthOp.storePut key value).Ans → AuthM Reply} (h : FirstOnly tr w ps)
    (hi : ps i = .op (.storePut key value) k) (ho : InitOp (own i tr) (.storePut key value))
    (hs : (initEnv compare).step w (.storePut key value) u w') :
    FirstOnly (tr ++ [(i, ⟨.storePut key value, u⟩)]) w' (Function.update ps i (k u)) := by
  obtain ⟨rfl, hsetting⟩ := setting_of_put hi ho
  have hempty := h.empty i hsetting
  have hnone (j : ι) : ¬ Setting (tr ++ [(i, ⟨.storePut keyPasswordHash value, u⟩)])
      (Function.update ps i (k u)) j := by
    intro hj
    by_cases hij : i = j
    · subst hij
      exact hj.unwritten value u (by simp [own_append])
    · exact hij (h.one i j hsetting ((setting_of_ne hij _ _).mp hj))
  -- Nobody has written before, since there was no password.
  have hnew : ∀ j value', (j, ⟨.storePut keyPasswordHash value', .ok ()⟩) ∈
      tr ++ [(i, ⟨.storePut keyPasswordHash value, u⟩)] → j = i ∧ value' = value ∧ u = .ok () := by
    intro j value' hj
    rcases List.mem_append.mp hj with hold | hlast
    · rw [h.written j value' hold] at hempty
      exact absurd hempty (by simp)
    · injection List.mem_singleton.mp hlast with hij he
      injection he with hop hu
      injection hop with _ hvalue
      subst hvalue
      exact ⟨hij, rfl, hu.symm⟩
  constructor
  case one => exact fun j _ hj => absurd hj (hnone j)
  case empty => exact fun j hj => absurd hj (hnone j)
  case written =>
    intro j value' hj
    obtain ⟨-, rfl, rfl⟩ := hnew j value' hj
    obtain ⟨v, -, hv⟩ := hs
    obtain rfl : w' = v.put keyPasswordHash value' := hv
    exact Function.update_self keyPasswordHash (some value') v.store
  case writer =>
    intro j j' value' value'' hj hj'
    exact (hnew j value' hj).1.trans (hnew j' value'' hj').1.symm

/-- Each step keeps the invariant. -/
theorem FirstOnly.step (h : FirstOnly tr w ps) (hi : ps i = .op o k) (ho : InitOp (own i tr) o)
    (hs : (initEnv compare).step w o r w') (hC : Unraced tr w ps i ⟨o, r⟩) :
    FirstOnly (tr ++ [(i, ⟨o, r⟩)]) w' (Function.update ps i (k r)) := by
  by_cases hput : ∃ key value, o = .storePut key value
  · obtain ⟨key, value, rfl⟩ := hput
    exact h.put hi ho hs
  push Not at hput
  have hstore := store_of_step hs hput
  have hold : ∀ j value, (j, ⟨.storePut keyPasswordHash value, .ok ()⟩) ∈ tr ++ [(i, ⟨o, r⟩)] →
      (j, ⟨.storePut keyPasswordHash value, .ok ()⟩) ∈ tr := by
    intro j value hj
    refine (List.mem_append.mp hj).resolve_right fun hlast => ?_
    injection List.mem_singleton.mp hlast with _ he
    exact hput _ _ (congrArg Event.op he).symm
  -- Who is between check and write was so before, or has just made the check, with nobody else there.
  have hsetting : ∀ j, Setting (tr ++ [(i, ⟨o, r⟩)]) (Function.update ps i (k r)) j →
      Setting tr ps j ∨ j = i ∧ w.store keyPasswordHash = none ∧ ∀ j, ¬ Setting tr ps j := by
    intro j hj
    by_cases hij : i = j
    · subst hij
      rcases setting_self hi ho hj with hbefore | ⟨hnil, hcheck⟩
      · exact .inl hbefore
      · exact .inr ⟨rfl, hC hnil hcheck⟩
    · exact .inl ((setting_of_ne hij _ _).mp hj)
  constructor
  case one =>
    intro j j' hj hj'
    rcases hsetting j hj with hj | ⟨hji, -, hnone⟩
    · rcases hsetting j' hj' with hj' | ⟨-, -, hnone⟩
      · exact h.one j j' hj hj'
      · exact absurd hj (hnone j)
    · rcases hsetting j' hj' with hj' | ⟨hji', -, -⟩
      · exact absurd hj' (hnone j')
      · exact hji.trans hji'.symm
  case empty =>
    intro j hj
    rw [hstore]
    rcases hsetting j hj with hj | ⟨-, hnone, -⟩
    · exact h.empty j hj
    · exact hnone
  case written =>
    intro j value hj
    rw [hstore]
    exact h.written j value (hold j value hj)
  case writer =>
    intro j j' value value' hj hj'
    exact h.writer j j' value value' (hold j value hj) (hold j' value' hj')

end Steps

/-- What an init request that runs with others has done before an operation. -/
theorem initOp_of_steps {body : Except GoErr AuthRequest} {l : List (Event AuthSig)} {o : AuthOp}
    {k : o.Ans → AuthM Reply}
    (h : Steps (Env.any AuthSig) () (handleAuthInit compare body) l () (.op o k)) : InitOp l o := by
  have hsteps := h.traced (fun _ => InitOp) []
  exact (wp_steps hsteps (wp_handleAuthInit body)).1

/-- How a handler that has ended has answered. -/
theorem initReply_of_steps {body : Except GoErr AuthRequest} {l : List (Event AuthSig)} {reply : Reply}
    (h : Steps (Env.any AuthSig) () (handleAuthInit compare body) l () (ret reply)) :
    InitReply reply l := by
  have hsteps := h.traced (fun _ => InitOp) []
  exact wp_steps hsteps (wp_handleAuthInit body)

/-- The invariant holds in every run. -/
theorem firstOnly_of_together {body : ι → Except GoErr AuthRequest} {w₀ w : AuthWorld}
    {tr : List (ι × Event AuthSig)} {ps : ι → AuthM Reply}
    (h : TogetherIf (initEnv compare) Unraced w₀ (fun i => handleAuthInit compare (body i)) tr w ps) :
    FirstOnly tr w ps := by
  induction h with
  | refl =>
    refine ⟨fun i _ hi => ?_, fun i hi => ?_, by simp, by simp⟩
    · obtain ⟨err, hmem⟩ := hi.checked
      simp at hmem
    · obtain ⟨err, hmem⟩ := hi.checked
      simp at hmem
  | step h i hi hs hC ih =>
    have hown := h.together.own_steps i
    rw [hi] at hown
    exact ih.step hi (initOp_of_steps hown) hs hC

/-- Init requests whose checks do not fall between the check and the write of another one: one of them
answers with success at most, and the hash that it wrote is the password from then on. -/
theorem init_once {body : ι → Except GoErr AuthRequest} {w₀ w : AuthWorld}
    {tr : List (ι × Event AuthSig)} {ps : ι → AuthM Reply}
    (h : TogetherIf (initEnv compare) Unraced w₀ (fun i => handleAuthInit compare (body i)) tr w ps) :
    (∀ i j tok tok', ps i = ret (loggedIn tok) → ps j = ret (loggedIn tok') → i = j) ∧
      ∀ i tok, ps i = ret (loggedIn tok) → ∃ hash,
        (i, ⟨.storePut keyPasswordHash hash, .ok ()⟩) ∈ tr ∧ w.store keyPasswordHash = some hash := by
  have hfirst := firstOnly_of_together h
  have hwrote : ∀ i tok, ps i = ret (loggedIn tok) →
      ∃ hash, (i, ⟨.storePut keyPasswordHash hash, .ok ()⟩) ∈ tr := by
    intro i tok hi
    have hown := h.together.own_steps i
    rw [hi] at hown
    obtain ⟨hash, hmem⟩ := initReply_of_steps hown ⟨tok, rfl⟩
    exact ⟨hash, mem_own.mp hmem⟩
  constructor
  · intro i j tok tok' hi hj
    obtain ⟨hash, hmem⟩ := hwrote i tok hi
    obtain ⟨hash', hmem'⟩ := hwrote j tok' hj
    exact hfirst.writer i j hash hash' hmem hmem'
  · intro i tok hi
    obtain ⟨hash, hmem⟩ := hwrote i tok hi
    exact ⟨hash, hmem, hfirst.written i hash hmem⟩

end

/-! ## Requests that overlap -/

/-- A request that found no password can go on to set its own, whatever has happened since, where bcrypt is
the identity. -/
theorem steps_handleAuthInit {password : Bytes} (hlen : ¬ password.length < 6)
    (b : { b : Bytes // b.length = 32 }) :
    ∃ p evs, (∀ w : AuthWorld, Steps (initEnv (· == ·)) w (handleAuthInit (· == ·) (.ok ⟨password⟩))
        [⟨.storeGet keyPasswordHash, .error errStoreNotFound⟩] w p) ∧
      ((⟨.storePut keyPasswordHash password, .ok ()⟩ : Event AuthSig) ∈ evs) ∧
      ∀ w : AuthWorld, Steps (initEnv (· == ·)) w p evs
        ((w.put keyPasswordHash password).issue (Base64.encodeURL b.1))
        (ret (loggedIn (Base64.encodeURL b.1))) := by
  have hnow (w : AuthWorld) : w.Later w := ⟨le_rfl, rfl⟩
  refine ⟨_, [⟨.bcryptHash password, .ok password⟩, ⟨.storePut keyPasswordHash password, .ok ()⟩,
    ⟨.storeGet keyPasswordHash, .ok password⟩, ⟨.rand, .ok b⟩, ⟨.issue (Base64.encodeURL b.1), ()⟩],
    fun w => .op ⟨w, hnow w, rfl, by simp⟩ (.refl _ _), by simp, fun w => ?_⟩
  have hset : setPassword password = authOp (.bcryptHash password) >>= fun r => ofExcept r >>=
      fun hash => authOp (.storePut keyPasswordHash hash) >>= ofExcept := by
    unfold setPassword
    rw [if_neg hlen]
  have hread : ∀ value, Except.ok (ε := GoErr) password = .ok value →
      (w.put keyPasswordHash password).store keyPasswordHash = some value := by
    rintro _ ⟨rfl⟩
    exact Function.update_self keyPasswordHash (some password) w.store
  change Steps _ _ (attempt (setPassword password) >>= _) _ _ _
  rw [hset]
  refine .op ⟨w, hnow w, rfl, by simp⟩ (.op ⟨w, hnow w, rfl⟩ ?_)
  change Steps _ _ (attempt (verifyAndIssue (· == ·) password) >>= _) _ _ _
  refine .op ⟨_, hnow _, rfl, hread⟩ ?_
  change Steps _ _ (attempt (if (!(password == password)) = true then _ else _) >>= _) _ _ _
  rw [if_neg (by simp)]
  exact .op ⟨_, hnow _, rfl⟩ (.op ⟨_, hnow _, rfl⟩ (.refl _ _))

/-- The random bytes of the samples. -/
def sampleRandom : { b : Bytes // b.length = 32 } := ⟨List.replicate 32 0, by decide⟩

/-- Two requests both find no password; the first one sets its own and answers with success, and then the
second one overwrites it and answers with success too. -/
theorem init_overtaken :
    ∃ (tr tr' : List (Bool × Event AuthSig)) (w w' : AuthWorld) (ps ps' : Bool → AuthM Reply)
      (tok tok' hash : Bytes),
      Together (initEnv (· == ·)) sampleAuthWorld (fun first => handleAuthInit (· == ·)
          (.ok ⟨if first then lit "secret" else lit "hunter"⟩)) tr w ps ∧
        ps true = ret (loggedIn tok) ∧ (true, ⟨.storePut keyPasswordHash hash, .ok ()⟩) ∈ tr ∧
        w.store keyPasswordHash = some hash ∧
        Together (initEnv (· == ·)) w ps tr' w' ps' ∧ ps' true = ret (loggedIn tok) ∧
        ps' false = ret (loggedIn tok') ∧ w'.store keyPasswordHash ≠ some hash := by
  obtain ⟨p, evs, hcheck, hmem, hrest⟩ :=
    steps_handleAuthInit (show ¬ (lit "secret").length < 6 by decide) sampleRandom
  obtain ⟨p', evs', hcheck', -, hrest'⟩ :=
    steps_handleAuthInit (show ¬ (lit "hunter").length < 6 by decide) sampleRandom
  have h1 := (Together.refl sampleAuthWorld fun first => handleAuthInit (· == ·)
    (.ok ⟨if first then lit "secret" else lit "hunter"⟩)).go true (hcheck _)
  have h2 := h1.go false (hcheck' _)
  have h3 := h2.go true (hrest _)
  refine ⟨_, _, _, _, _, _, _, _, lit "secret", h3, rfl, by simp [hmem], by decide,
    (Together.refl _ _).go false (hrest' _), rfl, rfl, by decide⟩

/-- A request that goes on after its check is unraced, while the others wait. -/
theorem TogetherIf.go_after_check {ι : Type} [DecidableEq ι] {w₀ w w' : AuthWorld} {ps₀ ps : ι → AuthM Reply}
    {tr : List (ι × Event AuthSig)} {i : ι} {p p' : AuthM Reply} {evs : List (Event AuthSig)}
    (h : TogetherIf (initEnv (· == ·)) Unraced w₀ ps₀ tr w ps) (hown : own i tr ≠ [])
    (hs : Steps (initEnv (· == ·)) w p evs w' p') (hp : ps i = p) :
    ∃ ps', TogetherIf (initEnv (· == ·)) Unraced w₀ ps₀ (tr ++ evs.map fun e => (i, e)) w' ps' ∧
      ps' i = p' ∧ ∀ j ≠ i, ps' j = ps j := by
  induction hs generalizing tr ps with
  | refl w p => exact ⟨ps, by simpa using h, hp, fun _ _ => rfl⟩
  | @op w w₁ w₂ o r k evs p' hstep _ ih =>
    have hnext := h.step i (r := r) hp hstep fun hnil => absurd hnil hown
    have hown' : own i (tr ++ [(i, (⟨o, r⟩ : Event AuthSig))]) ≠ [] := by simp [own_append]
    obtain ⟨ps', hrun, hps', hothers⟩ := ih hnext hown' (Function.update_self ..)
    refine ⟨ps', by simpa using hrun, hps', fun j hj => ?_⟩
    rw [hothers j hj, Function.update_of_ne hj]

/-- Two requests, one after the other: the first one sets its password, and the second one finds it and is
refused. -/
theorem sample_init_once :
    ∃ (tr : List (Bool × Event AuthSig)) (w : AuthWorld) (ps : Bool → AuthM Reply)
      (tok : Bytes) (err : GoErr),
      TogetherIf (initEnv (· == ·)) Unraced sampleAuthWorld (fun first => handleAuthInit (· == ·)
        (.ok ⟨if first then lit "secret" else lit "hunter"⟩)) tr w ps ∧
      ps true = ret (loggedIn tok) ∧ ps false = ret (writeErr 409 err) ∧
      (false, ⟨.storeGet keyPasswordHash, .ok (lit "secret")⟩) ∈ tr ∧
      ∃ hash, (true, ⟨.storePut keyPasswordHash hash, .ok ()⟩) ∈ tr ∧
        w.store keyPasswordHash = some hash := by
  obtain ⟨p, evs, hcheck, -, hrest⟩ :=
    steps_handleAuthInit (show ¬ (lit "secret").length < 6 by decide) sampleRandom
  -- The first check is made while no other request is under way.
  have hunraced : Unraced [] sampleAuthWorld (fun first => handleAuthInit (· == ·)
      (.ok ⟨if first then lit "secret" else lit "hunter"⟩)) true
      ⟨.storeGet keyPasswordHash, .error errStoreNotFound⟩ := by
    refine fun _ _ => ⟨rfl, fun j hj => ?_⟩
    obtain ⟨err, hmem⟩ := hj.checked
    simp at hmem
  obtain ⟨hstep, rfl⟩ : (initEnv (· == ·)).step sampleAuthWorld (.storeGet keyPasswordHash)
      (.error errStoreNotFound) sampleAuthWorld ∧ _ = p := by
    cases hcheck sampleAuthWorld with
    | op hstep hrefl =>
      cases hrefl
      exact ⟨hstep, rfl⟩
  have h1 := TogetherIf.refl.step true rfl hstep hunraced
  obtain ⟨ps, hrun, hfirst, hothers⟩ := h1.go_after_check (i := true) (by simp) (hrest sampleAuthWorld)
    (Function.update_self ..)
  -- The second one finds the password.
  let w := (sampleAuthWorld.put keyPasswordHash (lit "secret")).issue (Base64.encodeURL sampleRandom.1)
  have hfound : (initEnv (· == ·)).step w (.storeGet keyPasswordHash) (.ok (lit "secret")) w := by
    refine ⟨w, ⟨le_rfl, rfl⟩, rfl, ?_⟩
    rintro _ ⟨rfl⟩
    exact Function.update_self keyPasswordHash (some (lit "secret")) sampleAuthWorld.store
  have h2 := hrun.step false (hothers false (by decide)) hfound (by rintro - ⟨err, ⟨⟩⟩)
  have htrue (q : AuthM Reply) :
      (Function.update ps false q : Bool → AuthM Reply) true =
        ret (loggedIn (Base64.encodeURL sampleRandom.1)) := by
    rw [Function.update_of_ne (by decide)]
    exact hfirst
  obtain ⟨hash, hput, hstore⟩ := (init_once h2).2 true _ (htrue _)
  exact ⟨_, _, _, _, _, h2, htrue _, Function.update_self .., by simp, hash, hput, hstore⟩

end FnShare
