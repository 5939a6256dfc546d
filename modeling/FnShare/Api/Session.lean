import FnShare.Api.Auth

/-!
# Who passes the authentication

The sessions in memory are what is left of the history of the tokens: a token that was issued and not
revoked since is there with its expiry, unless it has expired and was deleted on the way (`Recorded`).
Every operation of every handler keeps that, in whatever order they are served, so that
`ValidateSession` decides by the history (`Recorded.validate_iff`).

`requireAuth` looks at one token of a request only, the cookie where there is one. So a request with an
old cookie is refused whatever is in its header, although either would do by itself; in all other cases
it is served exactly when one of the two is valid.
-/

namespace FnShare

open Prog

/-! ## The history of a token -/

/-- A token was issued at a time and has not been logged out since. -/
def Outstanding (log : List TokenEvent) (token : Bytes) (time : ℤ) : Prop :=
  ∃ before after, log = before ++ .issued token time :: after ∧ .loggedOut token ∉ after

/-- An outstanding token was issued. -/
theorem Outstanding.mem {log : List TokenEvent} {token : Bytes} {time : ℤ}
    (h : Outstanding log token time) : .issued token time ∈ log := by
  obtain ⟨before, after, rfl, -⟩ := h
  simp

/-- With one more event, a token is outstanding that was issued by it, or that was before and is not
the one logged out. -/
theorem outstanding_concat {log : List TokenEvent} {e : TokenEvent} {token : Bytes} {time : ℤ} :
    Outstanding (log ++ [e]) token time ↔
      e = .issued token time ∨ Outstanding log token time ∧ e ≠ .loggedOut token := by
  constructor
  · rintro ⟨before, after, heq, hout⟩
    rcases concat_eq_append_cons.mp heq with ⟨-, -, he⟩ | ⟨rest, rfl, hlog⟩
    · exact .inl he
    · rw [List.mem_append, not_or] at hout
      exact .inr ⟨⟨before, rest, hlog, hout.1⟩, fun h => hout.2 (by simp [h])⟩
  · rintro (rfl | ⟨⟨before, after, rfl, hout⟩, hne⟩)
    · exact ⟨log, [], rfl, by simp⟩
    · refine ⟨before, after ++ [e], by simp, ?_⟩
      simpa [hout] using hne.symm

/-- A token is valid in a world: it was issued at most 30 days ago and not logged out since. -/
def AuthWorld.Live (w : AuthWorld) (token : Bytes) : Prop :=
  ∃ time, Outstanding w.log token time ∧ w.now - time ≤ tokenTTL

/-- The sessions are those of the history. -/
structure Recorded (w : AuthWorld) : Prop where
  /-- Tokens are not empty, and were issued in the past. -/
  issued : ∀ token time, .issued token time ∈ w.log → token ≠ [] ∧ time ≤ w.now
  /-- A session is of a token that is outstanding. -/
  outstanding : ∀ token exp, w.sessions token = some exp →
    ∃ time, Outstanding w.log token time ∧ exp = time + tokenTTL
  /-- A valid token has a session that does not end before it. -/
  kept : ∀ token time, Outstanding w.log token time → w.now - time ≤ tokenTTL →
    ∃ exp, w.sessions token = some exp ∧ time + tokenTTL ≤ exp

namespace Recorded

variable {w w' : AuthWorld} {token : Bytes}

/-- Time passes and tokens expire. -/
theorem later (h : Recorded w) (hl : w.Later w') : Recorded w' := by
  obtain ⟨hle, heq⟩ := hl
  rw [heq]
  refine ⟨fun tok t ht => ?_, h.outstanding, fun tok t ht hnow => ?_⟩
  · obtain ⟨hne, hpast⟩ := h.issued tok t ht
    exact ⟨hne, hpast.trans hle⟩
  · dsimp only at hnow
    exact h.kept tok t ht (by omega)

/-- The section of `ValidateSession` decides by the history. -/
theorem validate_iff (h : Recorded w) (token : Bytes) :
    (w.validate token).1 = true ↔ w.Live token := by
  unfold AuthWorld.validate
  constructor
  · intro hv
    cases hs : w.sessions token with
    | none => simp [hs] at hv
    | some exp =>
      rw [hs] at hv
      obtain ⟨time, hout, rfl⟩ := h.outstanding token exp hs
      by_cases hexp : time + tokenTTL < w.now
      · simp [hexp] at hv
      · exact ⟨time, hout, by omega⟩
  · rintro ⟨time, hout, hnow⟩
    obtain ⟨exp, hs, hle⟩ := h.kept token time hout hnow
    simp [hs, show ¬ exp < w.now by omega]

/-- A validation drops only what has expired. -/
theorem validate (h : Recorded w) (token : Bytes) : Recorded (w.validate token).2 := by
  unfold AuthWorld.validate
  cases hs : w.sessions token with
  | none => exact h
  | some exp =>
    dsimp only
    split_ifs with hexp
    · -- What is deleted had expired, and so has every earlier issue of the token.
      refine ⟨h.issued, fun tok exp' hs' => ?_, fun tok t ht hnow => ?_⟩
      · dsimp only at hs'
        by_cases htok : tok = token
        · simp [htok] at hs'
        · rw [Function.update_of_ne htok] at hs'
          exact h.outstanding tok exp' hs'
      · obtain ⟨exp', hs', hle⟩ := h.kept tok t ht hnow
        refine ⟨exp', ?_, hle⟩
        have htok : tok ≠ token := by
          rintro rfl
          rw [hs] at hs'
          obtain rfl := Option.some.inj hs'
          dsimp only at hnow
          omega
        simpa [htok] using hs'
    · exact h

/-- A new token is in the log. -/
theorem issue (h : Recorded w) (hne : token ≠ []) : Recorded (w.issue token) := by
  unfold AuthWorld.issue
  refine ⟨fun tok t ht => ?_, fun tok exp hs => ?_, fun tok t ht hnow => ?_⟩
  · rcases List.mem_append.mp ht with ht | ht
    · exact h.issued tok t ht
    · obtain ⟨rfl, rfl⟩ : tok = token ∧ t = w.now := by simpa using ht
      exact ⟨hne, le_rfl⟩
  · dsimp only at hs ⊢
    by_cases htok : tok = token
    · subst htok
      rw [Function.update_self] at hs
      exact ⟨w.now, outstanding_concat.mpr (.inl rfl), (Option.some.inj hs).symm⟩
    · rw [Function.update_of_ne htok] at hs
      obtain ⟨t, hout, hexp⟩ := h.outstanding tok exp hs
      exact ⟨t, outstanding_concat.mpr (.inr ⟨hout, by simp⟩), hexp⟩
  · dsimp only at ht hnow ⊢
    by_cases htok : tok = token
    · -- A session that is issued again ends later than before.
      subst htok
      refine ⟨w.now + tokenTTL, Function.update_self .., ?_⟩
      rcases outstanding_concat.mp ht with heq | ⟨hout, -⟩
      · injection heq with _ ht
        omega
      · have := (h.issued tok t hout.mem).2
        omega
    · rw [Function.update_of_ne htok]
      refine h.kept tok t ?_ hnow
      rcases outstanding_concat.mp ht with heq | ⟨hout, -⟩
      · injection heq with heq _
        exact absurd heq.symm htok
      · exact hout

/-- A token that is revoked is gone. -/
theorem revoke (h : Recorded w) (token : Bytes) : Recorded (w.revoke token) := by
  unfold AuthWorld.revoke
  refine ⟨fun tok t ht => h.issued tok t (by simpa using ht), fun tok exp hs => ?_,
    fun tok t ht hnow => ?_⟩
  · dsimp only at hs ⊢
    by_cases htok : tok = token
    · simp [htok] at hs
    · rw [Function.update_of_ne htok] at hs
      obtain ⟨t, hout, hexp⟩ := h.outstanding tok exp hs
      refine ⟨t, outstanding_concat.mpr (.inr ⟨hout, fun heq => htok ?_⟩), hexp⟩
      injection heq with heq
      exact heq.symm
  · dsimp only at ht hnow ⊢
    rcases outstanding_concat.mp ht with heq | ⟨hout, hne⟩
    · injection heq
    · have htok : tok ≠ token := by
        rintro rfl
        exact hne rfl
      rw [Function.update_of_ne htok]
      exact h.kept tok t hout hnow

end Recorded

/-! ## The handlers keep the history -/

/-- The programs that serve the requests. -/
inductive AuthHandler (compare : Bytes → Bytes → Bool) (cliToken : Bytes) : AuthM Reply → Prop
  | state (r : HttpRequest) : AuthHandler compare cliToken (handleAuthState cliToken r)
  | init (body : Except GoErr AuthRequest) : AuthHandler compare cliToken (handleAuthInit compare body)
  | login (body : Except GoErr AuthRequest) :
    AuthHandler compare cliToken (handleAuthLogin compare body)
  | logout (r : HttpRequest) : AuthHandler compare cliToken (handleAuthLogout cliToken r)
  | gate (r : HttpRequest) : AuthHandler compare cliToken (requireAuth cliToken r)

/-- Any number of requests are served at a time, while the clock goes on. -/
def authSystem (compare : Bytes → Bytes → Bool) (cliToken : Bytes) :
    System AuthSig AuthWorld Unit GoErr Reply where
  exec _ := authStep compare
  start _ := AuthHandler compare cliToken
  drift := AuthWorld.Later

/-- An operation that issues no empty token. -/
def IssuesTokens (o : AuthOp) : Prop := ∀ token, o = .issue token → token ≠ []

/-- The encoding of some bytes is not empty. -/
theorem encodeURL_ne_nil {bs : Bytes} (h : bs ≠ []) : Base64.encodeURL bs ≠ [] := by
  unfold Base64.encodeURL
  rw [Ne, List.map_eq_nil_iff]
  unfold Base64.encode
  split <;> simp_all

section

variable {compare : Bytes → Bytes → Bool} {cliToken : Bytes}

/-- Looking for a password issues no empty token. -/
theorem only_hasPassword : hasPassword.Only IssuesTokens := by
  refine ⟨by simp [IssuesTokens], fun r => ?_⟩
  cases r <;> trivial

/-- Setting one neither. -/
theorem only_setPassword (password : Bytes) : (setPassword password).Only IssuesTokens := by
  unfold setPassword
  split_ifs
  · trivial
  · refine ⟨by simp [IssuesTokens], fun r => ?_⟩
    cases r with
    | error e => trivial
    | ok hash => exact ⟨by simp [IssuesTokens], fun r' => only_ofExcept r'⟩

/-- A login issues a token that is not empty. -/
theorem only_verifyAndIssue (password : Bytes) :
    (verifyAndIssue compare password).Only IssuesTokens := by
  unfold verifyAndIssue
  refine ⟨by simp [IssuesTokens], fun r => ?_⟩
  cases r with
  | error e => trivial
  | ok hash =>
    change Only (S := AuthSig) IssuesTokens (if (!compare hash password) = true then _ else _)
    split_ifs
    · trivial
    · refine ⟨by simp [IssuesTokens], fun rand => ?_⟩
      cases rand with
      | error e => trivial
      | ok b =>
        refine ⟨fun token htok => ?_, fun _ => trivial⟩
        injection htok with htok
        rw [← htok]
        refine encodeURL_ne_nil ?_
        rintro hnil
        have hlen := b.2
        rw [hnil] at hlen
        exact absurd hlen (by decide)

/-- A validation neither. -/
theorem only_validateSession (token : Bytes) :
    (validateSession cliToken token).Only IssuesTokens := by
  unfold validateSession
  split_ifs
  · trivial
  · trivial
  · exact ⟨by simp [IssuesTokens], fun _ => trivial⟩

/-- No handler issues an empty token. -/
theorem AuthHandler.only {p : AuthM Reply} (h : AuthHandler compare cliToken p) :
    p.Only IssuesTokens := by
  cases h with
  | state r =>
    refine only_bind only_hasPassword fun b => ?_
    split_ifs
    · trivial
    · refine only_bind (only_validateSession _) fun b => ?_
      split_ifs <;> trivial
  | init body =>
    refine only_bind only_hasPassword fun b => ?_
    split_ifs
    · trivial
    · cases body with
      | error e => trivial
      | ok req =>
        refine only_bind (only_attempt (only_setPassword _)) fun r => ?_
        cases r with
        | error e => trivial
        | ok u =>
          refine only_bind (only_attempt (only_verifyAndIssue _)) fun r => ?_
          cases r <;> trivial
  | login body =>
    cases body with
    | error e => trivial
    | ok req =>
      refine only_bind (only_attempt (only_verifyAndIssue _)) fun r => ?_
      cases r <;> trivial
  | logout r =>
    unfold handleAuthLogout FnShare.logout
    split_ifs
    · trivial
    · exact ⟨by simp [IssuesTokens], fun _ => trivial⟩
    · trivial
  | gate r =>
    refine only_bind (only_validateSession _) fun b => ?_
    split_ifs
    · exact ⟨by simp [IssuesTokens], fun _ => trivial⟩
    · refine only_bind only_hasPassword fun b => ?_
      split_ifs <;> trivial

/-- Each operation keeps the invariant. -/
theorem Recorded.step {w w' : AuthWorld} {o : AuthOp} {r : o.Ans} (h : Recorded w)
    (ho : IssuesTokens o) (hs : authStep compare w o r w') : Recorded w' := by
  cases o with
  | storeGet key => exact hs.1 ▸ h
  | storePut key value =>
    cases r with
    | ok u =>
      obtain rfl : w' = w.put key value := hs
      exact ⟨h.issued, h.outstanding, h.kept⟩
    | error e =>
      obtain rfl : w' = w := hs
      exact h
  | rand =>
    obtain rfl : w' = w := hs
    exact h
  | bcryptHash password => exact hs.1 ▸ h
  | issue token =>
    obtain rfl : w' = w.issue token := hs
    exact h.issue (ho token rfl)
  | validate token =>
    obtain rfl : w' = (w.validate token).2 := congrArg Prod.snd hs
    exact h.validate token
  | revoke token =>
    obtain rfl : w' = w.revoke token := hs
    exact h.revoke token
  | serve =>
    obtain rfl : w' = w := hs
    exact h

/-- The world of a daemon that has just started: no sessions, and nothing has happened to a token. -/
def AuthWorld.Fresh (w : AuthWorld) : Prop := (∀ token, w.sessions token = none) ∧ w.log = []

/-- Whatever requests were served and in whatever order, the sessions are those of the history. -/
theorem recorded_of_reach {w₀ w : AuthWorld} {ps : List (Unit × AuthM Reply)} (h0 : w₀.Fresh)
    (h : (authSystem compare cliToken).Reach w₀ w ps) : Recorded w := by
  have hinit : Recorded w₀ := by
    refine ⟨fun tok t ht => ?_, fun tok exp hs => ?_, fun tok t ht _ => ?_⟩
    · simp [h0.2] at ht
    · simp [h0.1] at hs
    · simpa [h0.2] using ht.mem
  refine (h.invariant (A := IssuesTokens) hinit (fun w w' hw hd => hw.later hd) ?_).1
  intro n p w hp
  have hkeeps := hp.only.wp_keeps (E := (authSystem compare cliToken).inside Recorded IssuesTokens n)
    (I := fun _ => True) (fun w o _ ho => ⟨ho, fun v r w' hv hs => hv.step ho hs⟩)
    (fun _ _ _ _ _ _ _ => trivial) (w := w) trivial
  exact hkeeps

/-! ## The middleware -/

/-- The operations without the others. -/
def authEnv (compare : Bytes → Bytes → Bool) : Env AuthSig AuthWorld where
  step := authStep compare
  guard _ _ := True

/-- A token that lets a request pass: that of the command line, or one of a session. -/
def Credential (cliToken : Bytes) (w : AuthWorld) (token : Bytes) : Prop :=
  token = cliToken ∨ w.Live token

/-- A trace in which the wrapped handler was called. -/
def HandlerCalled (evs : List (Event AuthSig)) : Prop := ∃ e ∈ evs, e.op = .serve

/-- The empty text is no credential. -/
theorem Recorded.not_credential_nil {w : AuthWorld} (h : Recorded w) (hcli : cliToken ≠ []) :
    ¬ Credential cliToken w [] := by
  rintro (heq | ⟨time, hout, -⟩)
  · exact hcli heq.symm
  · exact (h.issued [] time hout.mem).1 rfl

/-- `extractToken` takes the cookie, and the header only where there is none. -/
theorem extractToken_eq (r : HttpRequest) :
    extractToken r = if r.session = [] then r.authToken else r.session := by
  unfold extractToken HttpRequest.session
  cases r.cookie sessionCookie with
  | none => rfl
  | some value => by_cases hv : value = [] <;> simp [hv]

/-- The trace with an operation that is not the wrapped handler. -/
theorem not_handlerCalled_concat {l : List (Event AuthSig)} {e : Event AuthSig} (hl : ¬ HandlerCalled l)
    (he : e.op ≠ .serve) : ¬ HandlerCalled (l ++ [e]) := by
  rintro ⟨e', he', hop⟩
  rcases List.mem_append.mp he' with hmem | hmem
  · exact hl ⟨e', hmem, hop⟩
  · exact he (List.mem_singleton.mp hmem ▸ hop)

/-- The handler is not called by this check. -/
theorem wp_hasPassword_traced {w : AuthWorld} {l : List (Event AuthSig)} (hl : ¬ HandlerCalled l) :
    wp ((authEnv compare).traced fun _ _ _ => True) hasPassword
      (returns fun _ wl => ¬ HandlerCalled wl.2) (w, l) := by
  refine wp_traced_op.mpr ⟨trivial, fun r w' _ => ?_⟩
  cases r <;> exact not_handlerCalled_concat hl (by simp)

/-- `ValidateSession` accepts the credentials. -/
theorem wp_validateSession_traced {w : AuthWorld} (h : Recorded w) (hcli : cliToken ≠ [])
    (token : Bytes) :
    wp ((authEnv compare).traced fun _ _ _ => True) (validateSession cliToken token)
      (returns fun b wl => (b = true ↔ Credential cliToken w token) ∧ ¬ HandlerCalled wl.2) (w, []) := by
  have hnil : ¬ HandlerCalled [] := by simp [HandlerCalled]
  unfold validateSession
  split_ifs with hempty heq
  · subst hempty
    exact ⟨by simpa using h.not_credential_nil hcli, hnil⟩
  · exact ⟨by simp [Credential, heq], hnil⟩
  · refine wp_traced_op.mpr ⟨trivial, fun b w' hs => ⟨?_, not_handlerCalled_concat hnil (by simp)⟩⟩
    have hb : b = (w.validate token).1 := congrArg Prod.fst hs
    rw [hb, h.validate_iff]
    simp [Credential, heq]

/-- The wrapped handler is called exactly for a credential in the place that is looked at. -/
theorem wp_requireAuth {w : AuthWorld} (h : Recorded w) (hcli : cliToken ≠ []) (r : HttpRequest) :
    wp ((authEnv compare).traced fun _ _ _ => True) (requireAuth cliToken r)
      (returns fun _ wl => HandlerCalled wl.2 ↔ Credential cliToken w (extractToken r)) (w, []) := by
  refine wp_bind_returns (wp_validateSession_traced h hcli _) ?_
  rintro b wl ⟨hb, hnot⟩
  by_cases hcred : Credential cliToken w (extractToken r)
  · obtain rfl := hb.mpr hcred
    refine wp_traced_op.mpr ⟨trivial, fun reply w' _ => ?_⟩
    exact iff_of_true ⟨⟨.serve, reply⟩, by simp, rfl⟩ hcred
  · obtain rfl : b = false := Bool.eq_false_iff.mpr fun hb' => hcred (hb.mp hb')
    refine wp_bind_returns (wp_hasPassword_traced hnot) fun has wl' hnot' => ?_
    cases has <;> exact iff_of_false hnot' hcred

/-- Every operation has an answer. -/
theorem authStep_total (compare : Bytes → Bytes → Bool) (w : AuthWorld) (o : AuthOp) :
    ∃ r w', authStep compare w o r w' := by
  cases o with
  | storeGet key => exact ⟨.error errBadPassword, w, rfl, by simp⟩
  | storePut key value => exact ⟨.ok (), _, rfl⟩
  | rand => exact ⟨.error errBadPassword, w, rfl⟩
  | bcryptHash password => exact ⟨.error errBadPassword, w, rfl, by simp⟩
  | issue token => exact ⟨(), _, rfl⟩
  | validate token => exact ⟨_, _, rfl⟩
  | revoke token => exact ⟨(), _, rfl⟩
  | serve => exact ⟨writeErr 200 errBadPassword, _, rfl⟩

/-- The middleware always answers. -/
theorem completes_requireAuth (w : AuthWorld) (r : HttpRequest) :
    Completes (authEnv compare) w (requireAuth cliToken r) := by
  have hhandled : (requireAuth cliToken r).Handled := by
    refine handled_bind ?_ fun b => ?_
    · unfold validateSession
      split_ifs
      · trivial
      · trivial
      · exact fun _ => trivial
    · cases b with
      | true => exact fun _ => trivial
      | false => exact fun has => by cases has <;> trivial
  refine completes_of_wp (fun w o _ => authStep_total compare w o) ?_
  have hgate : AuthHandler compare cliToken (requireAuth cliToken r) := .gate r
  exact hgate.only.wp_returns hhandled (fun _ _ _ => trivial) w

/-- The middleware as it is: it serves a request exactly when the token that it looks at is a
credential. -/
theorem handlerCalled_iff {w w' : AuthWorld} {r : HttpRequest} {evs : List (Event AuthSig)} {reply : Reply}
    (h : Recorded w) (hcli : cliToken ≠ [])
    (hrun : Steps (authEnv compare) w (requireAuth cliToken r) evs w' (ret reply)) :
    HandlerCalled evs ↔ Credential cliToken w (extractToken r) := by
  have hsteps := hrun.traced (fun _ _ _ => True) []
  rw [List.nil_append] at hsteps
  exact wp_steps hsteps (wp_requireAuth h hcli r)

/-- A request with two tokens is treated as if either would do, unless the cookie is there and not
valid while the header is. -/
theorem requireAuth_serves_iff {w₀ w : AuthWorld} {ps : List (Unit × AuthM Reply)} (h0 : w₀.Fresh)
    (hcli : cliToken ≠ []) (hreach : (authSystem compare cliToken).Reach w₀ w ps) (r : HttpRequest) :
    Completes (authEnv compare) w (requireAuth cliToken r) ∧
      ∀ evs w' reply, Steps (authEnv compare) w (requireAuth cliToken r) evs w' (ret reply) →
        ((HandlerCalled evs ↔ Credential cliToken w r.session ∨ Credential cliToken w r.authToken) ↔
          (r.session = [] ∨ Credential cliToken w r.session ∨ ¬ Credential cliToken w r.authToken)) := by
  have h := recorded_of_reach h0 hreach
  refine ⟨completes_requireAuth w r, fun evs w' reply hrun => ?_⟩
  rw [handlerCalled_iff h hcli hrun, extractToken_eq]
  by_cases hsession : r.session = []
  · simp [hsession, h.not_credential_nil hcli]
  · rw [if_neg hsession]
    by_cases hcookie : Credential cliToken w r.session
    · simp [hcookie]
    · simp [hcookie, hsession]

end

/-- The sample starts without tokens. -/
theorem sampleAuthWorld_fresh : sampleAuthWorld.Fresh := ⟨fun _ => rfl, rfl⟩

/-- A request with the token of the command line in its header. -/
def cliRequest (cookies : List (Bytes × Bytes)) : HttpRequest :=
  ⟨cookies, [(lit "X-Auth-Token", lit "cli")]⟩

/-- A request with the token of the command line is refused for an old cookie beside it. -/
theorem stale_cookie_refused :
    ∃ (w w' : AuthWorld) (r : HttpRequest) (evs : List (Event AuthSig)) (reply : Reply),
      w.Fresh ∧ (authSystem (· == ·) (lit "cli")).Reach w w [] ∧
        Steps (authEnv (· == ·)) w (requireAuth (lit "cli") r) evs w' (ret reply) ∧
        Credential (lit "cli") w r.authToken ∧ ¬ HandlerCalled evs := by
  have hvalidate : authStep (· == ·) sampleAuthWorld (.validate (lit "old")) false sampleAuthWorld :=
    rfl
  have hget : authStep (· == ·) sampleAuthWorld (.storeGet keyPasswordHash)
      (.error errStoreNotFound) sampleAuthWorld := ⟨rfl, by simp⟩
  obtain ⟨reply, hrun⟩ : ∃ reply, Steps (authEnv (· == ·)) sampleAuthWorld
      (requireAuth (lit "cli") (cliRequest [(sessionCookie, lit "old")]))
      [⟨.validate (lit "old"), false⟩, ⟨.storeGet keyPasswordHash, .error errStoreNotFound⟩]
      sampleAuthWorld (ret reply) :=
    ⟨_, .op hvalidate (.op hget (.refl _ _))⟩
  exact ⟨_, _, _, _, _, sampleAuthWorld_fresh, .init, hrun, .inl (by decide), by simp [HandlerCalled]⟩

/-- A daemon that has just started, with a password. -/
def sampleLockedWorld : AuthWorld := sampleAuthWorld.put keyPasswordHash (lit "secret")

/-- The token that is issued there, out of random bytes that are all zero. -/
def sampleToken : Bytes := Base64.encodeURL (List.replicate 32 0)

/-- A request with the token in its cookie. -/
def cookieRequest : HttpRequest := ⟨[(sessionCookie, sampleToken)], []⟩

/-- The world after the login. -/
def sampleLoggedIn : AuthWorld := sampleLockedWorld.issue sampleToken

/-- The world after the logout. -/
def sampleLoggedOut : AuthWorld := sampleLoggedIn.revoke sampleToken

/-- Somebody logs in. -/
theorem reach_sampleLoggedIn :
    (authSystem (· == ·) (lit "cli")).Reach sampleLockedWorld sampleLoggedIn
    [((), ret (loggedIn sampleToken))] := by
  have hget : authStep (· == ·) sampleLockedWorld (.storeGet keyPasswordHash) (.ok (lit "secret"))
      sampleLockedWorld := by
    refine ⟨rfl, ?_⟩
    rintro value hvalue
    obtain rfl := Except.ok.inj hvalue
    simp [sampleLockedWorld, AuthWorld.put]
  have hrand : authStep (· == ·) sampleLockedWorld .rand
      (.ok ⟨List.replicate 32 0, by decide⟩) sampleLockedWorld :=
    rfl
  have hissue : authStep (· == ·) sampleLockedWorld (.issue sampleToken) () sampleLoggedIn := rfl
  have hverify : Steps ((authSystem (· == ·) (lit "cli")).alone ()) sampleLockedWorld
      (verifyAndIssue (· == ·) (lit "secret")) [⟨.storeGet keyPasswordHash, .ok (lit "secret")⟩,
        ⟨.rand, .ok ⟨List.replicate 32 0, by decide⟩⟩, ⟨.issue sampleToken, ()⟩] sampleLoggedIn
          (ret sampleToken) := by
    refine .op hget ?_
    simp only [bind_eq, ret_bind, beq_self_eq_true, Bool.not_true, Bool.false_eq_true, if_false, pure_eq]
    exact .op hrand (.op hissue (.refl _ _))
  have hlogin : Steps ((authSystem (· == ·) (lit "cli")).alone ()) sampleLockedWorld
      (handleAuthLogin (· == ·) (.ok ⟨lit "secret"⟩)) _ sampleLoggedIn (ret (loggedIn sampleToken)) :=
    hverify.attempt.bind (.refl _ _)
  exact System.Reach.run .init (.login _) hlogin

/-- After a login, a request with its cookie is served. After the logout it is not. -/
theorem sample_requireAuth_serves :
    ∃ (w₀ w w' : AuthWorld) (ps ps' : List (Unit × AuthM Reply)) (r : HttpRequest)
      (evs evs' : List (Event AuthSig)) (reply reply' : Reply),
      (authSystem (· == ·) (lit "cli")).Reach w₀ w ps ∧ (authSystem (· == ·) (lit "cli")).Reach w₀ w' ps' ∧
        Steps (authEnv (· == ·)) w (requireAuth (lit "cli") r) evs w (ret reply) ∧
        Steps (authEnv (· == ·)) w' (requireAuth (lit "cli") r) evs' w' (ret reply') ∧
        HandlerCalled evs ∧ Credential (lit "cli") w r.session ∧
        ¬ HandlerCalled evs' ∧ ¬ Credential (lit "cli") w' r.session := by
  have hlocked : sampleLockedWorld.Fresh := ⟨fun _ => rfl, rfl⟩
  have hlogout : Steps ((authSystem (· == ·) (lit "cli")).alone ()) sampleLoggedIn
      (handleAuthLogout (lit "cli") cookieRequest) [⟨.revoke sampleToken, ()⟩] sampleLoggedOut
      (ret ⟨200, .auth true [], some ([], -1)⟩) := .op rfl (.refl _ _)
  have hreach := reach_sampleLoggedIn
  have hreach' := hreach.run (.logout cookieRequest) hlogout
  -- The cookie is valid at first, and has no session then.
  have hvalidate : authStep (· == ·) sampleLoggedIn (.validate sampleToken) true sampleLoggedIn := by
    simp [authStep, AuthWorld.validate, sampleLoggedIn, AuthWorld.issue, tokenTTL]
  have hrun : Steps (authEnv (· == ·)) sampleLoggedIn (requireAuth (lit "cli") cookieRequest)
      [⟨.validate sampleToken, true⟩, ⟨.serve, writeErr 200 errBadPassword⟩] sampleLoggedIn
      (ret (writeErr 200 errBadPassword)) := .op hvalidate (.op rfl (.refl _ _))
  have hvalidate' : authStep (· == ·) sampleLoggedOut (.validate sampleToken) false sampleLoggedOut := by
    simp [authStep, AuthWorld.validate, sampleLoggedOut, AuthWorld.revoke]
  have hget : authStep (· == ·) sampleLoggedOut (.storeGet keyPasswordHash) (.error errStoreNotFound)
      sampleLoggedOut := ⟨rfl, by simp⟩
  obtain ⟨reply', hrun'⟩ : ∃ reply, Steps (authEnv (· == ·)) sampleLoggedOut
      (requireAuth (lit "cli") cookieRequest)
      [⟨.validate sampleToken, false⟩, ⟨.storeGet keyPasswordHash, .error errStoreNotFound⟩] sampleLoggedOut
      (ret reply) := ⟨_, .op hvalidate' (.op hget (.refl _ _))⟩
  have hnone : ¬ Credential (lit "cli") sampleLoggedIn cookieRequest.authToken ∧
      ¬ Credential (lit "cli") sampleLoggedOut cookieRequest.authToken :=
    ⟨(recorded_of_reach hlocked hreach).not_credential_nil (by decide),
      (recorded_of_reach hlocked hreach').not_credential_nil (by decide)⟩
  have hcalled : HandlerCalled [⟨.validate sampleToken, true⟩, ⟨.serve, writeErr 200 errBadPassword⟩] :=
    ⟨⟨.serve, writeErr 200 errBadPassword⟩, by simp, rfl⟩
  have hnot : ¬ HandlerCalled [⟨.validate sampleToken, false⟩,
      ⟨.storeGet keyPasswordHash, .error errStoreNotFound⟩] := by
    simp [HandlerCalled]
  have hserved := ((requireAuth_serves_iff hlocked (by decide) hreach cookieRequest).2 _ _ _ hrun).mpr
    (.inr (.inr hnone.1))
  have hrefused := ((requireAuth_serves_iff hlocked (by decide) hreach' cookieRequest).2 _ _ _ hrun').mpr
    (.inr (.inr hnone.2))
  exact ⟨_, _, _, _, _, cookieRequest, _, _, _, _, hreach, hreach', hrun, hrun', hcalled,
    (hserved.mp hcalled).resolve_right hnone.1, hnot, fun h => hnot (hrefused.mpr (.inl h))⟩

end FnShare
