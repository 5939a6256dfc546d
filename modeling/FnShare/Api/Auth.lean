import FnShare.Go
import FnShare.Lib.Base64
import FnShare.Lib.Interleave

/-!
# The password and the sessions of the web interface

The package `internal/auth`, and the handlers and the middleware of `internal/api` in front of it.
The owner's password is a bcrypt hash in the store, and a session is a random token in memory that is
valid for 30 days. The handlers are programs over the operations that they share: the store, the
random source, bcrypt, and the sections of the auth service that hold its mutex, each of which is one
step. `AuthWorld` is what they act on. It has the history of the tokens besides the sessions, which
no handler reads.

The request and its response are taken apart: a handler is given the outcome of decoding its body, and
answers with a status, a value and the session cookie that it sets.
-/

namespace FnShare

open Prog

/-! ## Requests and responses -/

/-- What the handlers read of an `http.Request`, besides its body. -/
structure HttpRequest where
  /-- The cookies, in the order of the `Cookie` headers. -/
  cookies : List (Bytes × Bytes)
  /-- The header fields by their canonical names. -/
  headers : List (Bytes × Bytes)

/-- `AuthRequest`. -/
structure AuthRequest where
  password : Bytes

/-- `sessionCookie`. -/
def sessionCookie : Bytes := lit "fnshare_session"

/-- `r.Cookie(name)`; `none` is `http.ErrNoCookie`. -/
def HttpRequest.cookie (r : HttpRequest) (name : Bytes) : Option Bytes := r.cookies.lookup name

/-- `r.Header.Get(name)`, which is empty for a field that is not there. -/
def HttpRequest.header (r : HttpRequest) (name : Bytes) : Bytes := (r.headers.lookup name).getD []

/-- The session cookie of a request, empty where there is none. -/
def HttpRequest.session (r : HttpRequest) : Bytes := (r.cookie sessionCookie).getD []

/-- The authentication header of a request. -/
def HttpRequest.authToken (r : HttpRequest) : Bytes := r.header (lit "X-Auth-Token")

/-- What a handler writes. -/
inductive ReplyBody
  /-- `ErrorResponse`. -/
  | error (err : GoErr)
  /-- `AuthState`. -/
  | state (text : Bytes)
  /-- `AuthResponse`. -/
  | auth (ok : Bool) (token : Bytes)
  /-- The response of a handler that `requireAuth` wraps. -/
  | other (raw : Bytes)

/-- The response of a handler. -/
structure Reply where
  status : ℕ
  body : ReplyBody
  /-- The session cookie that it sets, with its `MaxAge`. -/
  setCookie : Option (Bytes × ℤ)

/-- `writeErr`. -/
def writeErr (code : ℕ) (err : GoErr) : Reply := ⟨code, .error err, none⟩

/-! ## The operations -/

/-- The operations of the handlers. -/
inductive AuthOp
  /-- `store.Get`. -/
  | storeGet (key : Bytes)
  /-- `store.Put`. -/
  | storePut (key value : Bytes)
  /-- `rand.Read` of 32 bytes. -/
  | rand
  /-- `bcrypt.GenerateFromPassword` at the default cost. -/
  | bcryptHash (password : Bytes)
  /-- The section of `VerifyAndIssue` under the mutex. -/
  | issue (token : Bytes)
  /-- The section of `ValidateSession` under the mutex. -/
  | validate (token : Bytes)
  /-- The section of `Logout` under the mutex. -/
  | revoke (token : Bytes)
  /-- The handler that `requireAuth` wraps. -/
  | serve

/-- The answer to an operation. -/
@[reducible] def AuthOp.Ans : AuthOp → Type
  | storeGet _ => Except GoErr Bytes
  | storePut _ _ => Except GoErr Unit
  | rand => Except GoErr { b : Bytes // b.length = 32 }
  | bcryptHash _ => Except GoErr Bytes
  | issue _ => Unit
  | validate _ => Bool
  | revoke _ => Unit
  | serve => Reply

/-- The effect signature of the handlers. -/
@[reducible] def AuthSig : Sig := ⟨AuthOp, AuthOp.Ans⟩

/-- A program of the auth service or of a handler. -/
abbrev AuthM (α : Type) := Prog AuthSig GoErr α

/-- Perform one operation. -/
abbrev authOp (o : AuthOp) : AuthM o.Ans := Prog.op (S := AuthSig) o ret

/-! ## The auth service -/

/-- `keyPasswordHash`. -/
def keyPasswordHash : Bytes := lit "auth/password"

/-- `tokenTTL`, in nanoseconds. -/
def tokenTTL : ℤ := 30 * 24 * 3600 * 1000000000

/-- `ErrBadPassword`. -/
def errBadPassword : GoErr := .msg (lit "auth: bad password")

/-- `newRandomToken`. -/
def newRandomToken : AuthM Bytes := do
  let b ← ofExcept (← authOp .rand)
  return Base64.encodeURL b.1

/-- `HasPassword`. -/
def hasPassword : AuthM Bool := do
  match ← authOp (.storeGet keyPasswordHash) with
  | .ok _ => return true
  | .error _ => return false

/-- `SetPassword`. -/
def setPassword (password : Bytes) : AuthM Unit := do
  if password.length < 6 then
    fail (.msg (lit "auth: password must be at least 6 characters"))
  let hash ← ofExcept (← authOp (.bcryptHash password))
  ofExcept (← authOp (.storePut keyPasswordHash hash))

/-- `VerifyAndIssue`. The function `compare` is `bcrypt.CompareHashAndPassword`, whose errors all
come to the same. -/
def verifyAndIssue (compare : Bytes → Bytes → Bool) (password : Bytes) : AuthM Bytes := do
  match ← authOp (.storeGet keyPasswordHash) with
  | .error _ => fail errBadPassword
  | .ok hash =>
    if !compare hash password then
      fail errBadPassword
    let tok ← newRandomToken
    authOp (.issue tok)
    return tok

/-- `ValidateSession`. -/
def validateSession (cliToken token : Bytes) : AuthM Bool :=
  if token = [] then return false
  else if token = cliToken then return true
  else authOp (.validate token)

/-- `Logout`. -/
def logout (cliToken token : Bytes) : AuthM Unit :=
  if token = cliToken then return ()
  else authOp (.revoke token)

/-! ## The handlers -/

/-- `extractToken`. -/
def extractToken (r : HttpRequest) : Bytes :=
  match r.cookie sessionCookie with
  | some value => if value ≠ [] then value else r.authToken
  | none => r.authToken

/-- `requireAuth`. -/
def requireAuth (cliToken : Bytes) (r : HttpRequest) : AuthM Reply := do
  if ← validateSession cliToken (extractToken r) then
    authOp .serve
  else if !(← hasPassword) then
    return writeErr 401 (.msg (lit ("daemon has no password set — open the Web UI to set one, " ++
      "or use the CLI inside the container")))
  else
    return writeErr 401 (.msg (lit "login required"))

/-- `handleAuthState`. -/
def handleAuthState (cliToken : Bytes) (r : HttpRequest) : AuthM Reply := do
  if !(← hasPassword) then
    return ⟨200, .state (lit "no_password"), none⟩
  else if !(← validateSession cliToken (extractToken r)) then
    return ⟨200, .state (lit "needs_login"), none⟩
  else
    return ⟨200, .state (lit "ok"), none⟩

/-- The response to a request that was logged in, with the cookie of `setSessionCookie`. -/
def loggedIn (tok : Bytes) : Reply := ⟨200, .auth true tok, some (tok, 30 * 24 * 3600)⟩

/-- `handleAuthInit`. -/
def handleAuthInit (compare : Bytes → Bytes → Bool) (body : Except GoErr AuthRequest) :
    AuthM Reply := do
  if ← hasPassword then
    return writeErr 409 (.msg (lit "password already set — use UI to change it"))
  else
    match body with
    | .error err => return writeErr 400 err
    | .ok req =>
      match ← attempt (setPassword req.password) with
      | .error err => return writeErr 400 err
      | .ok () =>
        match ← attempt (verifyAndIssue compare req.password) with
        | .error err => return writeErr 500 err
        | .ok tok => return loggedIn tok

/-- `handleAuthLogin`. -/
def handleAuthLogin (compare : Bytes → Bytes → Bool) (body : Except GoErr AuthRequest) :
    AuthM Reply := do
  match body with
  | .error err => return writeErr 400 err
  | .ok req =>
    match ← attempt (verifyAndIssue compare req.password) with
    | .error err => return writeErr 401 err
    | .ok tok => return loggedIn tok

/-- `handleAuthLogout`. -/
def handleAuthLogout (cliToken : Bytes) (r : HttpRequest) : AuthM Reply := do
  if extractToken r ≠ [] then
    logout cliToken (extractToken r)
  return ⟨200, .auth true [], some ([], -1)⟩

/-! ## The world -/

/-- What happened to a token. -/
inductive TokenEvent
  /-- `VerifyAndIssue` issued it at a time. -/
  | issued (token : Bytes) (time : ℤ)
  /-- `Logout` revoked it. -/
  | loggedOut (token : Bytes)

/-- What the handlers act on. -/
structure AuthWorld where
  /-- The time, in nanoseconds. -/
  now : ℤ
  /-- The key-value store. -/
  store : Bytes → Option Bytes
  /-- The sessions with their expiries. -/
  sessions : Bytes → Option ℤ
  /-- What happened to the tokens so far, oldest first. -/
  log : List TokenEvent

namespace AuthWorld

/-- The body of `VerifyAndIssue` under the mutex. -/
def issue (w : AuthWorld) (token : Bytes) : AuthWorld :=
  { w with
    sessions := Function.update w.sessions token (some (w.now + tokenTTL))
    log := w.log ++ [.issued token w.now] }

/-- The body of `ValidateSession` under the mutex. -/
def validate (w : AuthWorld) (token : Bytes) : Bool × AuthWorld :=
  match w.sessions token with
  | none => (false, w)
  | some exp =>
    if exp < w.now then (false, { w with sessions := Function.update w.sessions token none })
    else (true, w)

/-- The body of `Logout` under the mutex. -/
def revoke (w : AuthWorld) (token : Bytes) : AuthWorld :=
  { w with
    sessions := Function.update w.sessions token none
    log := w.log ++ [.loggedOut token] }

/-- The world with a value in the store. -/
def put (w : AuthWorld) (key value : Bytes) : AuthWorld :=
  { w with store := Function.update w.store key (some value) }

/-- The world at a later time. -/
def Later (w w' : AuthWorld) : Prop := w.now ≤ w'.now ∧ w' = { w with now := w'.now }

end AuthWorld

/-- What an operation does. Reading the store can fail, and finds what is there if it does not; a
hash that bcrypt made is one that it accepts for the password. -/
def authStep (compare : Bytes → Bytes → Bool) (w : AuthWorld) :
    (o : AuthOp) → o.Ans → AuthWorld → Prop
  | .storeGet key, r, w' => w' = w ∧ ∀ value, r = .ok value → w.store key = some value
  | .storePut key value, r, w' => w' = match r with
    | .ok () => w.put key value
    | .error _ => w
  | .rand, _, w' => w' = w
  | .bcryptHash password, r, w' => w' = w ∧ ∀ hash, r = .ok hash → compare hash password = true
  | .issue token, _, w' => w' = w.issue token
  | .validate token, r, w' => (r, w') = w.validate token
  | .revoke token, _, w' => w' = w.revoke token
  | .serve, _, w' => w' = w

/-- A daemon that has just started, without a password. -/
def sampleAuthWorld : AuthWorld := ⟨0, fun _ => none, fun _ => none, []⟩

end FnShare
