import FnShare.Spool
import FnShare.World

/-!
# One pass over the spool of a peer

What `flushPeer` does with the entries that it has listed is a function of how the pass goes (`Pass`): the
order of the listing, which entries can be read, which the peer acknowledges, and which can be removed. It
tries the shards and then the manifests that can be read, one by one, until the peer does not acknowledge one
(`Pass.attempts`, `wp_flushPeer`).

Two things follow. An entry that the peer rejects keeps those after it from being tried, in this pass and in
all others (`flushPeer_delivers_iff`). And an entry that cannot be read is passed over, so the manifests can
be sent without a shard (`flushPeer_shards_first_iff`).
-/

namespace FnShare

open Prog

/-- The request that sends an entry. -/
def SpoolEntry.request (e : SpoolEntry) (data : Bytes) : Request :=
  match e.kind with
  | .shard => ⟨.putShard, e.key, data⟩
  | .manifest => ⟨.putManifest, e.key, data⟩

/-- How a pass over the entries of a peer goes. -/
structure Pass where
  /-- The entries as they are listed. -/
  order : List SpoolEntry
  /-- Whether an entry can be read. -/
  reads : SpoolEntry → Bool
  /-- Whether the peer acknowledges an entry. -/
  acks : SpoolEntry → Bool
  /-- Whether an entry can be removed. -/
  removes : SpoolEntry → Bool

namespace Pass

/-- What the operations of a pass are answered. -/
def Answers (P : Pass) (peerID : Bytes) : (o : NodeOp) → o.Ans → Prop
  | .spoolList _, r => r = .ok P.order
  | .spoolRead e, r => r.isOk = P.reads e
  | .request _ req, r => ∀ e data, e.peerID = peerID → req = e.request data → acknowledged r = P.acks e
  | .spoolRemove e, r => r.isOk = P.removes e
  | _, _ => True

/-- A pass over the spool of a node. It performs only what can be answered. -/
def env (P : Pass) (peerID : Bytes) : Env NodeSig NodeState where
  step s o r s' := s.step o r s' ∧ P.Answers peerID o r
  guard s o := ∃ r s', s.step o r s' ∧ P.Answers peerID o r

/-- The entries that are tried, of those that the pass comes to. -/
def attempts (P : Pass) : List SpoolEntry → List SpoolEntry
  | [] => []
  | e :: es => if P.reads e then if P.acks e then e :: P.attempts es else [e] else P.attempts es

/-- One more entry. -/
theorem attempts_cons (P : Pass) (e : SpoolEntry) (es : List SpoolEntry) :
    P.attempts (e :: es) =
      if P.reads e then if P.acks e then e :: P.attempts es else [e] else P.attempts es := rfl

/-- Whether the pass goes on after these entries. -/
def through (P : Pass) (es : List SpoolEntry) : Bool := es.all fun e => !P.reads e || P.acks e

/-- The shards of a pass. -/
def shards (P : Pass) : List SpoolEntry := P.order.filter (·.kind = .shard)

/-- The manifests of a pass. -/
def manifests (P : Pass) : List SpoolEntry := P.order.filter (·.kind = .manifest)

/-- The entries in the order in which a pass comes to them. -/
def queue (P : Pass) : List SpoolEntry := P.shards ++ P.manifests

/-- What is queued is what is listed. -/
theorem mem_queue (P : Pass) (e : SpoolEntry) : e ∈ P.queue ↔ e ∈ P.order := by
  simp only [queue, shards, manifests, List.mem_append, List.mem_filter, decide_eq_true_eq]
  cases e.kind <;> simp

/-- The pass goes on after entries, or it does not. -/
theorem attempts_append (P : Pass) (es es' : List SpoolEntry) :
    P.attempts (es ++ es') = P.attempts es ++ if P.through es then P.attempts es' else [] := by
  induction es with
  | nil => rfl
  | cons e es ih =>
    by_cases hr : P.reads e = true
    · by_cases ha : P.acks e = true
      · simp only [List.cons_append, attempts, hr, ha, if_true, ih]
        simp [through, hr, ha]
      · simp [attempts, through, hr, ha]
    · simp only [List.cons_append, attempts, hr, Bool.false_eq_true, if_false, ih]
      simp [through, hr]

/-- What is tried was listed and read. -/
theorem mem_of_mem_attempts {P : Pass} {es : List SpoolEntry} {e : SpoolEntry} (h : e ∈ P.attempts es) :
    e ∈ es ∧ P.reads e = true := by
  induction es with
  | nil => exact absurd h (by simp [attempts])
  | cons a es ih =>
    unfold attempts at h
    split_ifs at h with hr ha
    · rcases List.mem_cons.mp h with rfl | h
      · exact ⟨List.mem_cons_self, hr⟩
      · exact ⟨List.mem_cons_of_mem _ (ih h).1, (ih h).2⟩
    · obtain rfl := List.mem_singleton.mp h
      exact ⟨List.mem_cons_self, hr⟩
    · exact ⟨List.mem_cons_of_mem _ (ih h).1, (ih h).2⟩

end Pass

/-- The requests to a peer, each with whether it was acknowledged. -/
def tried (pid : Bytes) (evs : List NodeEvent) : List (Request × Bool) :=
  evs.filterMap fun
    | ⟨.request p req, r⟩ => if p = pid then some (req, acknowledged r) else none
    | _ => none

section Flush

variable {L : Libs} {P : Pass} {peerID pid : Bytes} {s : NodeState} {l : List NodeEvent}
  {X : List NodeEvent → NodeOp → Prop}
variable {e : SpoolEntry} {data : Bytes}

/-- What is performed can be answered, and is as `X` says. -/
def Pass.guard (P : Pass) (peerID : Bytes) (X : List NodeEvent → NodeOp → Prop) (s : NodeState)
    (l : List NodeEvent) (o : NodeOp) : Prop :=
  (P.env peerID).guard s o ∧ X l o

/-- The request tells the entry and its content. -/
theorem SpoolEntry.request_inj {e' : SpoolEntry} {data' : Bytes} (hpeer : e.peerID = e'.peerID)
    (h : e.request data = e'.request data') : e = e' ∧ data = data' := by
  obtain ⟨p, k, key⟩ := e
  obtain ⟨p', k', key'⟩ := e'
  obtain rfl : p = p' := hpeer
  cases k <;> cases k' <;> simp_all [SpoolEntry.request]

/-- An entry of the peer may be sent. -/
theorem Pass.guard_request (he : e.peerID = peerID) (data : Bytes) :
    (P.env peerID).guard s (.request pid (e.request data)) := by
  refine ⟨.ok { ok := P.acks e }, s, rfl, ?_⟩
  intro e' data' he' heq
  rw [(SpoolEntry.request_inj (he.trans he'.symm) heq).1]
  rfl

/-- An entry that is there may be read. -/
theorem Pass.guard_spoolRead (h : s.spool e = some data) :
    (P.env peerID).guard s (.spoolRead e) := by
  cases hreads : P.reads e with
  | true => exact ⟨.ok data, s, ⟨rfl, .inl ⟨data, h, rfl⟩⟩, hreads.symm⟩
  | false => exact ⟨.error .eof, s, ⟨rfl, .inr ⟨_, rfl⟩⟩, hreads.symm⟩

/-- An entry may be removed. -/
theorem Pass.guard_spoolRemove (e : SpoolEntry) : (P.env peerID).guard s (.spoolRemove e) := by
  cases hremoves : P.removes e with
  | true => exact ⟨.ok (), _, .inl ⟨rfl, rfl⟩, hremoves.symm⟩
  | false => exact ⟨.error .eof, s, .inr ⟨⟨_, rfl⟩, rfl⟩, hremoves.symm⟩

/-- What two parts of a trace have tried. -/
theorem tried_append (l l' : List NodeEvent) : tried pid (l ++ l') = tried pid l ++ tried pid l' :=
  List.filterMap_append ..

/-- What was tried was answered. -/
theorem exists_of_mem_tried {req : Request} {b : Bool} (h : (req, b) ∈ tried pid l) :
    ∃ r, (⟨.request pid req, r⟩ : NodeEvent) ∈ l ∧ acknowledged r = b := by
  obtain ⟨⟨o, r⟩, hmem, heq⟩ := List.mem_filterMap.mp h
  cases o with
  | request p req' =>
    simp only [Option.ite_none_right_eq_some, Option.some.injEq, Prod.mk.injEq] at heq
    obtain ⟨rfl, rfl, rfl⟩ := heq
    exact ⟨r, hmem, rfl⟩
  | _ => simp at heq

/-- An entry is sent: the peer acknowledges it or not. -/
theorem wp_sendEntry (hX : ∀ l o, (∀ p req, o ≠ .request p req) → X l o)
    (he : e.peerID = peerID) (hsend : X l (.request pid (e.request data))) :
    wp ((P.env peerID).traced (P.guard peerID X)) (sendEntry pid e data)
      (fun r w => w.1 = s ∧ r.isOk = P.acks e ∧
        tried pid w.2 = tried pid l ++ [(e.request data, P.acks e)]) (s, l) := by
  -- The request is the first operation for either kind; a shard is put on record once it is acknowledged.
  have hrequest : sendEntry pid e data = FnShare.request pid (e.request data) >>= fun _ =>
      match e.kind with
      | .shard => perform (.record .storedOnThem pid data.length)
      | .manifest => ret () := by
    obtain ⟨p, k, key⟩ := e
    cases k <;> rfl
  rw [hrequest]
  refine wp_traced_op.mpr ⟨⟨P.guard_request he data, hsend⟩, ?_⟩
  rintro ans s' ⟨hs, hans⟩
  obtain rfl : s' = s := hs
  have hack : acknowledged ans = P.acks e := hans e data he rfl
  have htried : tried pid (l ++ [⟨.request pid (e.request data), ans⟩]) =
      tried pid l ++ [(e.request data, P.acks e)] := by
    rw [tried_append, ← hack]
    simp [tried]
  cases ans with
  | error err => exact ⟨rfl, hack, htried⟩
  | ok resp =>
    have hok : resp.ok = P.acks e := hack
    simp only [bind_eq, ret_bind, ofExcept_ok]
    by_cases hacks : P.acks e = true
    · rw [if_pos (hok.trans hacks)]
      cases e.kind with
      | shard =>
        refine wp_traced_op.mpr ⟨⟨⟨(), s', rfl, trivial⟩, hX _ _ (by simp)⟩, ?_⟩
        rintro r s'' ⟨hs, -⟩
        refine ⟨hs, hacks.symm, ?_⟩
        rw [tried_append, htried]
        simp [tried]
      | manifest => exact ⟨rfl, hacks.symm, htried⟩
    · rw [if_neg (by rw [hok]; exact hacks)]
      exact ⟨rfl, (Bool.eq_false_iff.mpr hacks).symm, htried⟩

/-- The spool after an entry was to be removed. -/
theorem spool_of_remove {s' : NodeState} {r : Except GoErr Unit}
    (hstep : s.step (.spoolRemove e) r s') (hrem : r.isOk = P.removes e) :
    s'.spool = fun e' => if e' = e ∧ P.removes e = true then none else s.spool e' := by
  rcases hstep with ⟨rfl, rfl⟩ | ⟨⟨err, rfl⟩, rfl⟩
  · have hremoves : P.removes e = true := hrem.symm
    funext e'
    simp [NodeState.setSpool, hremoves]
  · have hremoves : P.removes e = false := hrem.symm
    funext e'
    simp [hremoves]

/-- The content of an entry. -/
def NodeState.content (s : NodeState) (e : SpoolEntry) : Bytes := (s.spool e).getD []

/-- What is tried of entries. -/
def Pass.trials (P : Pass) (c : SpoolEntry → Bytes) (es : List SpoolEntry) : List (Request × Bool) :=
  (P.attempts es).map fun e => (e.request (c e), P.acks e)

/-- The spool after entries were tried. -/
def Pass.left (P : Pass) (s : NodeState) (es : List SpoolEntry) (e : SpoolEntry) : Option Bytes :=
  if e ∈ P.attempts es ∧ P.acks e = true ∧ P.removes e = true then none else s.spool e

/-- From one state to another the entries were tried, and nothing else. -/
structure Pass.Run (P : Pass) (pid : Bytes) (c : SpoolEntry → Bytes) (es : List SpoolEntry)
    (w : NodeState × List NodeEvent) (b : Bool) (w' : NodeState × List NodeEvent) : Prop where
  through : b = P.through es
  tried : tried pid w'.2 = FnShare.tried pid w.2 ++ P.trials c es
  left : w'.1.spool = P.left w.1 es

section Run

variable {c : SpoolEntry → Bytes} {es : List SpoolEntry} {b : Bool} {w w₁ w' : NodeState × List NodeEvent}

/-- Nothing is left. -/
theorem Pass.Run.nil : P.Run pid c [] w true w where
  through := rfl
  tried := by simp [Pass.trials, Pass.attempts]
  left := by
    funext e
    simp [Pass.left, Pass.attempts]

/-- An entry that cannot be read is passed over. -/
theorem Pass.Run.skip (h : P.Run pid c es w₁ b w') (hreads : P.reads e = false)
    (htried : FnShare.tried pid w₁.2 = FnShare.tried pid w.2) (hspool : w₁.1.spool = w.1.spool) :
    P.Run pid c (e :: es) w b w' := by
  have hattempts : P.attempts (e :: es) = P.attempts es := by simp [Pass.attempts, hreads]
  refine ⟨?_, ?_, ?_⟩
  · rw [h.through]
    simp [Pass.through, hreads]
  · rw [h.tried, htried]
    unfold Pass.trials
    rw [hattempts]
  · rw [h.left]
    unfold Pass.left
    rw [hattempts, hspool]

/-- The run is over when an entry is not acknowledged. -/
theorem Pass.Run.stop (hreads : P.reads e = true) (hacks : P.acks e = false)
    (htried : FnShare.tried pid w'.2 = FnShare.tried pid w.2 ++ [(e.request (c e), P.acks e)])
    (hspool : w'.1.spool = w.1.spool) : P.Run pid c (e :: es) w false w' := by
  refine ⟨?_, ?_, ?_⟩
  · simp [Pass.through, hreads, hacks]
  · rw [htried]
    simp [Pass.trials, Pass.attempts, hreads, hacks]
  · funext e'
    rw [hspool, Pass.left, if_neg]
    rintro ⟨hmem, hack, -⟩
    obtain rfl : e' = e := by simpa [Pass.attempts, hreads, hacks] using hmem
    exact absurd (hack.symm.trans hacks) (by simp)

/-- The run goes on after an entry that is acknowledged. -/
theorem Pass.Run.next (h : P.Run pid c es w₁ b w') (hreads : P.reads e = true) (hacks : P.acks e = true)
    (htried : FnShare.tried pid w₁.2 = FnShare.tried pid w.2 ++ [(e.request (c e), P.acks e)])
    (hspool : w₁.1.spool = fun e' => if e' = e ∧ P.removes e = true then none else w.1.spool e') :
    P.Run pid c (e :: es) w b w' := by
  have hattempts : P.attempts (e :: es) = e :: P.attempts es := by simp [Pass.attempts, hreads, hacks]
  refine ⟨?_, ?_, ?_⟩
  · rw [h.through]
    simp [Pass.through, hacks]
  · rw [h.tried, htried]
    simp [Pass.trials, hattempts]
  · rw [h.left]
    funext e'
    unfold Pass.left
    rw [hattempts, hspool]
    by_cases he' : e' = e
    · subst he'
      by_cases hremoves : P.removes e' = true <;> simp [hacks, hremoves]
    · simp [he']

end Run

/-- The inner loop of `flushPeer`: the entries of the kind are tried until one is not acknowledged. -/
theorem wp_flushKind (hX : ∀ l o, (∀ p req, o ≠ .request p req) → X l o) (kind : Kind)
    {c : SpoolEntry → Bytes} (es : List SpoolEntry) (hnodup : es.Nodup) (s : NodeState) (l : List NodeEvent)
    (hes : ∀ e ∈ es, e.kind = kind → e.peerID = peerID ∧ s.spool e = some (c e))
    (hsend : ∀ e ∈ es, e.kind = kind → P.reads e = true → ∀ l', tried pid l <+: tried pid l' →
      X l' (.request pid (e.request (c e)))) :
    wp ((P.env peerID).traced (P.guard peerID X)) (flushKind pid kind es)
      (returns fun b w => P.Run pid c (es.filter (·.kind = kind)) (s, l) b w) (s, l) := by
  induction es generalizing s l with
  | nil => exact .nil
  | cons e es ih =>
    obtain ⟨hnew, hrest⟩ := List.nodup_cons.mp hnodup
    have hnext : ∀ e' ∈ es, e'.kind = kind → P.reads e' = true → ∀ l', tried pid l <+: tried pid l' →
        X l' (.request pid (e'.request (c e'))) :=
      fun e' he' => hsend e' (List.mem_cons_of_mem _ he')
    unfold flushKind
    by_cases hkind : e.kind = kind
    · obtain ⟨hpeer, hspool⟩ := hes e List.mem_cons_self hkind
      rw [if_neg (not_not.mpr hkind), List.filter_cons_of_pos (by simpa using hkind)]
      refine wp_traced_op.mpr ⟨⟨P.guard_spoolRead hspool, hX _ _ (by simp)⟩, ?_⟩
      rintro r s' ⟨⟨hs, hr⟩, hans⟩
      obtain rfl : s' = s := hs
      have hread : tried pid (l ++ [⟨.spoolRead e, r⟩]) = tried pid l := by
        rw [tried_append]
        simp [tried]
      cases r with
      | error err =>
        have hreads : P.reads e = false := hans.symm
        refine wp_mono (ih hrest s' _ (fun e' he' => hes e' (List.mem_cons_of_mem _ he'))
          (by rw [hread]; exact hnext)) ?_
        rintro (err | b) w hpost
        · exact hpost
        · exact hpost.skip hreads hread rfl
      | ok data =>
        have hreads : P.reads e = true := hans.symm
        obtain rfl : c e = data := by
          rcases hr with ⟨b, hb, hdata⟩ | ⟨err, herr⟩
          · exact Option.some.inj (hspool.symm.trans (hb.trans (congrArg some (Except.ok.inj hdata).symm)))
          · exact absurd herr (by simp)
        simp only [bind_eq, ret_bind]
        rw [wp_bind, wp_attempt]
        refine wp_mono (wp_sendEntry hX hpeer (hsend e List.mem_cons_self hkind hreads _ ?_)) ?_
        · rw [hread]
        rintro r ⟨v, l'⟩ ⟨hv, hok, htried⟩
        obtain rfl : v = s' := hv
        rw [andThen_ok]
        rw [hread] at htried
        cases r with
        | error err => exact .stop hreads hok.symm htried rfl
        | ok u =>
          refine wp_traced_op.mpr ⟨⟨P.guard_spoolRemove e, hX _ _ (by simp)⟩, ?_⟩
          rintro r' v' ⟨hstep, hrem⟩
          have hspool' : v'.spool = fun e' => if e' = e ∧ P.removes e = true then none else v.spool e' :=
            spool_of_remove hstep hrem
          -- The entries that are left are others, so they are still in the spool.
          have hes' : ∀ e' ∈ es, e'.kind = kind → e'.peerID = peerID ∧ v'.spool e' = some (c e') := by
            intro e' he' hk
            obtain ⟨hpeer', hc⟩ := hes e' (List.mem_cons_of_mem _ he') hk
            refine ⟨hpeer', ?_⟩
            rw [congrFun hspool' e', if_neg (fun h : e' = e ∧ _ => hnew (h.1 ▸ he'))]
            exact hc
          have hl : tried pid (l' ++ [⟨.spoolRemove e, r'⟩]) =
              tried pid l ++ [(e.request (c e), P.acks e)] := by
            rw [tried_append, htried]
            simp [tried]
          refine wp_mono (ih hrest v' _ hes' ?_) ?_
          · intro e' he' hk hreads' l'' hle
            rw [hl] at hle
            exact hnext e' he' hk hreads' l'' ((List.prefix_append _ _).trans hle)
          rintro (err | b) w hpost
          · exact hpost
          · exact hpost.next hreads hok.symm hl hspool'
    · rw [if_pos hkind, List.filter_cons_of_neg (by simpa using hkind)]
      exact ih hrest s l (fun e' he' => hes e' (List.mem_cons_of_mem _ he')) hnext

/-- The listing of a pass shows the entries of the peer, each once. -/
structure Pass.Lists (P : Pass) (peerID : Bytes) (s : NodeState) : Prop where
  nodup : P.order.Nodup
  mem_iff : ∀ e, e ∈ P.order ↔ e.peerID = peerID ∧ s.spool e ≠ none

/-- A listed entry is of the peer and there. -/
theorem Pass.Lists.content (h : P.Lists peerID s) (he : e ∈ P.order) :
    e.peerID = peerID ∧ s.spool e = some (s.content e) := by
  obtain ⟨hpeer, hsome⟩ := (h.mem_iff e).mp he
  obtain ⟨b, hb⟩ := Option.ne_none_iff_exists'.mp hsome
  refine ⟨hpeer, ?_⟩
  unfold NodeState.content
  rw [hb]
  rfl

/-- What is tried tells the entries. -/
theorem Pass.Lists.mem_attempts_of_trial (h : P.Lists peerID s) (he : e ∈ P.order) {b : Bool}
    (hmem : (e.request (s.content e), b) ∈ P.trials s.content P.queue) : e ∈ P.attempts P.queue := by
  obtain ⟨e', hattempt, heq⟩ := List.mem_map.mp hmem
  have he' := (P.mem_queue e').mp (Pass.mem_of_mem_attempts hattempt).1
  have hpeer : e'.peerID = e.peerID := (h.content he').1.trans (h.content he).1.symm
  rw [← (SpoolEntry.request_inj hpeer (Prod.mk.inj heq).1).1]
  exact hattempt

/-- `flushPeer`: what it tries is a function of how the pass goes, and so is what it leaves. -/
theorem wp_flushPeer (hpid : L.peerDecode peerID = .ok pid) (hlist : P.Lists peerID s)
    (hX : ∀ l o, (∀ p req, o ≠ .request p req) → X l o)
    (hshard : ∀ e ∈ P.shards, ∀ l, X l (.request pid (e.request (s.content e))))
    (hmanifest : P.through P.shards = true → ∀ e ∈ P.manifests, P.reads e = true → ∀ l,
      P.trials s.content P.shards <+: tried pid l → X l (.request pid (e.request (s.content e)))) :
    wp ((P.env peerID).traced (P.guard peerID X)) (flushPeer L peerID)
      (returns fun _ w => tried pid w.2 = P.trials s.content P.queue ∧ w.1.spool = P.left s P.queue)
      (s, []) := by
  unfold flushPeer
  rw [hpid]
  have hanswer : s.step (.spoolList peerID) (.ok P.order) s :=
    ⟨rfl, .inl ⟨P.order, rfl, hlist.nodup, hlist.mem_iff⟩⟩
  refine wp_traced_op.mpr ⟨⟨⟨.ok P.order, s, hanswer, rfl⟩, hX _ _ (by simp)⟩, ?_⟩
  rintro r s' ⟨⟨hs, -⟩, hr⟩
  obtain rfl : s' = s := hs
  obtain rfl : r = .ok P.order := hr
  simp only [bind_eq, ret_bind, List.nil_append]
  have hlist0 : tried pid [(⟨.spoolList peerID, .ok P.order⟩ : NodeEvent)] = [] := rfl
  refine wp_bind_returns (wp_flushKind hX .shard P.order hlist.nodup s' _ (fun e he _ => hlist.content he)
    (fun e he hk _ l' _ => hshard e (List.mem_filter.mpr ⟨he, by simpa using hk⟩) l')) ?_
  rintro b ⟨v, l⟩ ⟨hb, htried, hspool⟩
  rw [hlist0, List.nil_append] at htried
  have hqueue : P.attempts P.queue = _ := P.attempts_append P.shards P.manifests
  unfold Pass.trials Pass.left
  rw [hqueue]
  cases hthrough : P.through P.shards with
  | false =>
    -- A shard was not acknowledged: the manifests are left to the next round.
    obtain rfl : b = false := hb.trans hthrough
    rw [if_neg (by simp), List.append_nil]
    exact ⟨htried, hspool⟩
  | true =>
    obtain rfl : b = true := hb.trans hthrough
    -- Sending the shards has left the manifests in the spool.
    have hes : ∀ e ∈ P.order, e.kind = .manifest →
        e.peerID = peerID ∧ v.spool e = some (s'.content e) := by
      intro e he hk
      obtain ⟨hpeer, hc⟩ := hlist.content he
      refine ⟨hpeer, ?_⟩
      rw [congrFun hspool e, Pass.left, if_neg, hc]
      rintro ⟨hmem, -⟩
      have hshards := (List.mem_filter.mp (Pass.mem_of_mem_attempts hmem).1).2
      simp [hk] at hshards
    have hsend : ∀ e ∈ P.order, e.kind = .manifest → P.reads e = true → ∀ l',
        tried pid l <+: tried pid l' → X l' (.request pid (e.request (s'.content e))) := by
      intro e he hk hreads l' hle
      rw [htried] at hle
      exact hmanifest hthrough e (List.mem_filter.mpr ⟨he, by simpa using hk⟩) hreads l' hle
    refine wp_bind_returns (wp_flushKind hX .manifest P.order hlist.nodup v l hes hsend) ?_
    rintro b ⟨v', l'⟩ ⟨-, htried', hspool'⟩
    refine ⟨?_, ?_⟩
    · rw [htried', htried, if_pos rfl, List.map_append]
      rfl
    · rw [hspool']
      funext e
      unfold Pass.left
      rw [congrFun hspool e, if_pos rfl]
      unfold Pass.left Pass.shards Pass.manifests
      by_cases hgone : P.acks e = true ∧ P.removes e = true
      · by_cases hman : e ∈ P.attempts (P.order.filter (·.kind = .manifest)) <;> simp [hgone, hman]
      · simp [hgone]

end Flush

/-! ## Entries that are rejected -/

section Delivery

variable {L : Libs} {P : Pass} {peerID pid : Bytes} {s : NodeState}

/-- The pass ends, and whenever it does, every entry that the peer acknowledges has been sent and removed. -/
def Delivers (L : Libs) (P : Pass) (peerID pid : Bytes) (s : NodeState) : Prop :=
  (∃ evs s', Steps (P.env peerID) s (flushPeer L peerID) evs s' (ret ())) ∧
    ∀ evs s', Steps (P.env peerID) s (flushPeer L peerID) evs s' (ret ()) → ∀ e ∈ P.order,
      P.acks e = true → (e.request (s.content e), true) ∈ tried pid evs ∧ s'.spool e = none

/-- A pass ends, and it tries and leaves what it should. -/
theorem flushPeer_ends (hpid : L.peerDecode peerID = .ok pid) (hlist : P.Lists peerID s) :
    (∃ evs s', Steps (P.env peerID) s (flushPeer L peerID) evs s' (ret ())) ∧
      ∀ evs s', Steps (P.env peerID) s (flushPeer L peerID) evs s' (ret ()) →
        tried pid evs = P.trials s.content P.queue ∧ s'.spool = P.left s P.queue := by
  have hwp := wp_flushPeer (X := fun _ _ => True) hpid hlist (fun _ _ _ => trivial)
    (fun _ _ _ => trivial) (fun _ _ _ _ _ _ => trivial)
  constructor
  · have hanswered : ∀ (w : NodeState × List NodeEvent) o,
        ((P.env peerID).traced (P.guard peerID fun _ _ => True)).guard w o →
          ∃ r w', ((P.env peerID).traced (P.guard peerID fun _ _ => True)).step w o r w' := by
      rintro w o ⟨⟨r, s', h⟩, -⟩
      exact ⟨r, (s', w.2 ++ [⟨o, r⟩]), h, rfl⟩
    obtain ⟨evs, w', x, hsteps, hx⟩ := wp_exists hanswered hwp
    cases x with
    | error err => exact hx.elim
    | ok u => exact ⟨evs, w'.1, Steps.map Prod.fst (fun _ _ _ _ h => And.left h) hsteps⟩
  · intro evs s' hsteps
    have h := wp_steps (hsteps.traced (P.guard peerID fun _ _ => True) []) hwp
    exact h

/-- The entries that are tried up to the first that is not acknowledged. -/
theorem Pass.mem_attempts_iff (hreads : ∀ e, P.reads e = true) {es : List SpoolEntry} (hnodup : es.Nodup) :
    (∀ e ∈ es, P.acks e = true → e ∈ P.attempts es) ↔
      es.Pairwise fun e e' => P.acks e = false → P.acks e' = false := by
  induction es with
  | nil => simp
  | cons e es ih =>
    obtain ⟨hnew, hrest⟩ := List.nodup_cons.mp hnodup
    rw [List.pairwise_cons, ← ih hrest]
    rw [Pass.attempts_cons, if_pos (hreads e)]
    cases hacks : P.acks e with
    | true =>
      rw [if_pos rfl]
      constructor
      · intro h
        refine ⟨fun _ _ habs => absurd habs (by simp), fun e' he' hacks' => ?_⟩
        rcases List.mem_cons.mp (h e' (List.mem_cons_of_mem _ he') hacks') with rfl | hmem
        · exact absurd he' hnew
        · exact hmem
      · rintro ⟨-, h⟩ e' he' hacks'
        rcases List.mem_cons.mp he' with rfl | he'
        · exact List.mem_cons_self
        · exact List.mem_cons_of_mem _ (h e' he' hacks')
    | false =>
      -- Whatever comes after a rejected entry has to be rejected too.
      rw [if_neg (by simp)]
      constructor
      · intro h
        have hall : ∀ e' ∈ es, P.acks e' = false := by
          intro e' he'
          by_contra hacks'
          have hmem := h e' (List.mem_cons_of_mem _ he') (by simpa using hacks')
          exact hnew (List.mem_singleton.mp hmem ▸ he')
        exact ⟨fun e' he' _ => hall e' he', fun e' he' hacks' => absurd hacks' (by simp [hall e' he'])⟩
      · rintro ⟨h, -⟩ e' he' hacks'
        rcases List.mem_cons.mp he' with rfl | he'
        · exact List.mem_cons_self
        · exact absurd hacks' (by simp [h e' he' rfl])

/-- For every content of the spool, listing, and set of entries that the peer rejects, where nothing else
fails: one pass delivers and removes all other entries, if and only if none of them comes after one that is
rejected, in the order shards, then manifests. -/
theorem flushPeer_delivers_iff (hpid : L.peerDecode peerID = .ok pid) (hlist : P.Lists peerID s)
    (hreads : ∀ e, P.reads e = true) (hremoves : ∀ e, P.removes e = true) :
    Delivers L P peerID pid s ↔
      P.queue.Pairwise fun e e' => P.acks e = false → P.acks e' = false := by
  obtain ⟨hexists, hends⟩ := flushPeer_ends hpid hlist
  have hnodup : P.queue.Nodup := by
    refine List.nodup_append.mpr ⟨hlist.nodup.filter _, hlist.nodup.filter _, ?_⟩
    rintro e he e' he' rfl
    have hshard := (List.mem_filter.mp he).2
    have hmanifest := (List.mem_filter.mp he').2
    simp_all
  rw [← Pass.mem_attempts_iff hreads hnodup]
  constructor
  · rintro ⟨-, hall⟩ e he hacks
    obtain ⟨evs, s', hsteps⟩ := hexists
    obtain ⟨htried, -⟩ := hends evs s' hsteps
    have hmem := (hall evs s' hsteps e ((P.mem_queue e).mp he) hacks).1
    rw [htried] at hmem
    exact hlist.mem_attempts_of_trial ((P.mem_queue e).mp he) hmem
  · intro hall
    refine ⟨hexists, fun evs s' hsteps e he hacks => ?_⟩
    obtain ⟨htried, hspool⟩ := hends evs s' hsteps
    have hmem := hall e ((P.mem_queue e).mpr he) hacks
    refine ⟨?_, ?_⟩
    · rw [htried]
      exact List.mem_map.mpr ⟨e, hmem, by rw [hacks]⟩
    · rw [hspool, Pass.left, if_pos ⟨hmem, hacks, hremoves e⟩]

end Delivery

/-! ## Shards before manifests -/

section Order

variable {L : Libs} {P : Pass} {peerID pid : Bytes} {s : NodeState}

/-- Whenever the pass sends a manifest, the peer has acknowledged every shard of the listing. -/
def ShardsFirst (L : Libs) (P : Pass) (peerID pid : Bytes) (s : NodeState) : Prop :=
  ∀ evs key data r s' p', Steps (P.env peerID) s (flushPeer L peerID)
      (evs ++ [⟨.request pid ⟨.putManifest, key, data⟩, r⟩]) s' p' →
    ∀ e ∈ P.order, e.kind = .shard → (e.request (s.content e), true) ∈ tried pid evs

/-- If all that can be read is acknowledged, all of it is tried. -/
theorem Pass.attempts_of_through {es : List SpoolEntry} (h : P.through es = true) :
    P.attempts es = es.filter P.reads := by
  induction es with
  | nil => rfl
  | cons e es ih =>
    unfold Pass.through at h ih
    rw [List.all_cons, Bool.and_eq_true] at h
    rw [Pass.attempts_cons, ih h.2]
    by_cases hreads : P.reads e = true
    · have hacks : P.acks e = true := by simpa [hreads] using h.1
      rw [if_pos hreads, if_pos hacks, List.filter_cons_of_pos hreads]
    · rw [if_neg hreads, List.filter_cons_of_neg hreads]

/-- The first that can be read is tried. -/
theorem Pass.attempts_ne_nil {es : List SpoolEntry} {e : SpoolEntry} (he : e ∈ es)
    (hreads : P.reads e = true) : P.attempts es ≠ [] := by
  induction es with
  | nil => exact absurd he (by simp)
  | cons a es ih =>
    rw [Pass.attempts_cons]
    split_ifs with hr ha
    · simp
    · simp
    · rcases List.mem_cons.mp he with rfl | he
      · exact absurd hreads hr
      · exact ih he

/-- The shards of a pass. -/
theorem Pass.mem_shards (e : SpoolEntry) : e ∈ P.shards ↔ e ∈ P.order ∧ e.kind = .shard := by
  simp [Pass.shards]

/-- The manifests of a pass. -/
theorem Pass.mem_manifests (e : SpoolEntry) : e ∈ P.manifests ↔ e ∈ P.order ∧ e.kind = .manifest := by
  simp [Pass.manifests]

/-- If a shard cannot be read, the others that can are acknowledged, and some manifest can be read, then a
manifest is sent without the shard. -/
theorem exists_manifest_before_shard (hpid : L.peerDecode peerID = .ok pid) (hlist : P.Lists peerID s)
    {e m : SpoolEntry} (he : e ∈ P.order) (hreads : P.reads e = false)
    (hacks : ∀ a ∈ P.order, a.kind = .shard → P.reads a = true → P.acks a = true)
    (hm : m ∈ P.order) (hmkind : m.kind = .manifest) (hmreads : P.reads m = true) :
    ∃ evs key data r s' p', Steps (P.env peerID) s (flushPeer L peerID)
        (evs ++ [⟨.request pid ⟨.putManifest, key, data⟩, r⟩]) s' p' ∧
      (e.request (s.content e), true) ∉ tried pid evs := by
  -- All shards that can be read are acknowledged, so the pass goes on to the manifests.
  have hthrough : P.through P.shards = true := by
    refine List.all_eq_true.mpr fun a ha => ?_
    obtain ⟨hmem, hk⟩ := (P.mem_shards a).mp ha
    cases hr : P.reads a with
    | false => rfl
    | true => simpa using hacks a hmem hk hr
  have hattempts : P.attempts P.queue = P.attempts P.shards ++ P.attempts P.manifests := by
    rw [Pass.queue, Pass.attempts_append, if_pos hthrough]
  obtain ⟨m', hm'⟩ := List.exists_mem_of_ne_nil _
    (Pass.attempts_ne_nil ((P.mem_manifests m).mpr ⟨hm, hmkind⟩) hmreads)
  obtain ⟨⟨evs, s', hsteps⟩, hends⟩ := flushPeer_ends hpid hlist
  obtain ⟨htried, -⟩ := hends evs s' hsteps
  have hsent : (m'.request (s.content m'), P.acks m') ∈ tried pid evs := by
    rw [htried]
    exact List.mem_map.mpr ⟨m', by rw [hattempts]; exact List.mem_append_right _ hm', rfl⟩
  obtain ⟨r, hevent, -⟩ := exists_of_mem_tried hsent
  obtain ⟨before, after, rfl⟩ := List.append_of_mem hevent
  rw [List.append_cons] at hsteps
  obtain ⟨v, q, hpart, -⟩ := hsteps.split
  have hrequest : m'.request (s.content m') = ⟨.putManifest, m'.key, s.content m'⟩ := by
    have hk := ((P.mem_manifests m').mp (Pass.mem_of_mem_attempts hm').1).2
    simp [SpoolEntry.request, hk]
  rw [hrequest] at hpart
  refine ⟨before, _, _, r, v, q, hpart, fun hacked => ?_⟩
  have hall : (e.request (s.content e), true) ∈ P.trials s.content P.queue := by
    rw [← htried, tried_append]
    exact List.mem_append_left _ hacked
  have hread := (Pass.mem_of_mem_attempts (hlist.mem_attempts_of_trial he hall)).2
  exact absurd (hread.symm.trans hreads) (by simp)

/-- For every content of the spool, listing, and pattern of failures to read, send and remove entries: the
pass sends a manifest only when the peer has acknowledged all shards of the listing, if and only if all shards
can be read, or one that can be read is not acknowledged, or no manifest can be read. -/
theorem flushPeer_shards_first_iff (hpid : L.peerDecode peerID = .ok pid) (hlist : P.Lists peerID s) :
    ShardsFirst L P peerID pid s ↔
      (∀ e ∈ P.order, e.kind = .shard → P.reads e = true) ∨
      (∃ e ∈ P.order, e.kind = .shard ∧ P.reads e = true ∧ P.acks e = false) ∨
      ∀ e ∈ P.order, e.kind = .manifest → P.reads e = false := by
  constructor
  · intro hfirst
    by_contra hnot
    simp only [not_or, not_forall, not_exists, not_and, Bool.not_eq_true, Bool.not_eq_false] at hnot
    obtain ⟨⟨e, he, hkind, hreads⟩, hacks, m, hm, hmkind, hmreads⟩ := hnot
    obtain ⟨evs, key, data, r, s', p', hsteps, hmissing⟩ :=
      exists_manifest_before_shard hpid hlist he hreads hacks hm hmkind hmreads
    exact hmissing (hfirst _ _ _ _ _ _ hsteps e he hkind)
  · intro hcond evs key data r s' p' hsteps
    have hwp := wp_flushPeer (X := fun l o => ∀ key data, o = .request pid ⟨.putManifest, key, data⟩ →
        ∀ e ∈ P.order, e.kind = .shard → (e.request (s.content e), true) ∈ tried pid l) hpid hlist
      (fun _ o ho key data heq => absurd heq (ho _ _)) ?shards ?manifests
    · obtain ⟨v, ⟨-, hguard⟩, -⟩ := wp_traced_last hwp hsteps
      exact hguard key data rfl
    case shards =>
      intro e he l key data heq
      have hk := ((P.mem_shards e).mp he).2
      simp [SpoolEntry.request, hk] at heq
    case manifests =>
      intro hthrough m hm hmreads l hle key data _ e he hkind
      have hacked : ∀ a ∈ P.order, a.kind = .shard → P.reads a = true → P.acks a = true := by
        intro a ha hk hr
        simpa [hr] using List.all_eq_true.mp hthrough a ((P.mem_shards a).mpr ⟨ha, hk⟩)
      obtain ⟨hmorder, hmkind⟩ := (P.mem_manifests m).mp hm
      have hreads : P.reads e = true := by
        rcases hcond with hall | ⟨a, ha, hk, hr, hacks⟩ | hnone
        · exact hall e he hkind
        · exact absurd ((hacked a ha hk hr).symm.trans hacks) (by simp)
        · exact absurd (hmreads.symm.trans (hnone m hmorder hmkind)) (by simp)
      refine hle.subset (List.mem_map.mpr ⟨e, ?_, by rw [hacked e he hkind hreads]⟩)
      rw [Pass.attempts_of_through hthrough]
      exact List.mem_filter.mpr ⟨(P.mem_shards e).mpr ⟨he, hkind⟩, hreads⟩

end Order

/-! ## A pass that leaves something -/

/-- An entry for the peer `bob`. -/
def sampleQueued (kind : Kind) (key : String) : SpoolEntry := ⟨lit "bob", kind, lit key⟩

/-- A node with these entries in its spool. -/
def sampleSpool (es : List SpoolEntry) : NodeState :=
  { NodeState.fresh with spool := fun e => if e ∈ es then some [1] else none }

/-- A pass in which all entries can be read but for `unread`, all are acknowledged but for `rejected`, and all
can be removed. -/
def samplePass (order unread rejected : List SpoolEntry) : Pass :=
  ⟨order, fun e => e ∉ unread, fun e => e ∉ rejected, fun _ => true⟩

/-- The sample pass lists its spool. -/
theorem lists_samplePass {order unread rejected : List SpoolEntry} (hnodup : order.Nodup)
    (hpeer : ∀ e ∈ order, e.peerID = lit "bob") :
    (samplePass order unread rejected).Lists (lit "bob") (sampleSpool order) := by
  refine ⟨hnodup, fun e => ?_⟩
  simp only [samplePass, sampleSpool, ne_eq, ite_eq_right_iff, reduceCtorEq, imp_false, not_not]
  exact ⟨fun he => ⟨hpeer e he, he⟩, And.right⟩

/-- The peer rejects the first of two shards. The second one, which it would acknowledge, is not sent, and the
spool is as before: so it goes in every round. -/
theorem sampleSpool_starves :
    ∃ P : Pass, P.Lists (lit "bob") (sampleSpool P.order) ∧ (∀ e, P.reads e = true) ∧
      (∀ e, P.removes e = true) ∧ sampleQueued .shard "b" ∈ P.order ∧
      P.acks (sampleQueued .shard "b") = true ∧
      (∃ evs s', Steps (P.env (lit "bob")) (sampleSpool P.order) (flushPeer sampleLibs (lit "bob")) evs s'
        (ret ())) ∧
      ∀ evs s', Steps (P.env (lit "bob")) (sampleSpool P.order) (flushPeer sampleLibs (lit "bob")) evs s'
        (ret ()) →
          ((sampleQueued .shard "b").request [1], true) ∉ tried (lit "bob") evs ∧
            s'.spool = (sampleSpool P.order).spool := by
  let order := [sampleQueued .shard "a", sampleQueued .shard "b"]
  have hlist : (samplePass order [] [sampleQueued .shard "a"]).Lists (lit "bob") (sampleSpool order) :=
    lists_samplePass (by decide) (by decide)
  obtain ⟨hexists, hends⟩ := flushPeer_ends (L := sampleLibs) rfl hlist
  refine ⟨_, hlist, fun _ => rfl, fun _ => rfl, by decide, by decide, hexists, fun evs s' hsteps => ?_⟩
  obtain ⟨htried, hspool⟩ := hends evs s' hsteps
  refine ⟨?_, ?_⟩
  · rw [htried]
    decide
  · rw [hspool]
    funext e
    refine if_neg ?_
    rintro ⟨hmem, hack, -⟩
    have hattempts : (samplePass order [] [sampleQueued .shard "a"]).attempts
        (samplePass order [] [sampleQueued .shard "a"]).queue = [sampleQueued .shard "a"] := by decide
    rw [hattempts, List.mem_singleton] at hmem
    subst hmem
    exact absurd hack (by decide)

/-- The peer rejects the last of three entries, and the others are delivered. -/
theorem sampleSpool_delivers :
    ∃ P : Pass, P.Lists (lit "bob") (sampleSpool P.order) ∧
      P.acks (sampleQueued .manifest "m") = false ∧
      Delivers sampleLibs P (lit "bob") (lit "bob") (sampleSpool P.order) := by
  let order := [sampleQueued .manifest "m", sampleQueued .shard "a", sampleQueued .shard "b"]
  have hlist : (samplePass order [] [sampleQueued .manifest "m"]).Lists (lit "bob") (sampleSpool order) :=
    lists_samplePass (by decide) (by decide)
  exact ⟨_, hlist, by decide, (flushPeer_delivers_iff rfl hlist (fun _ => rfl) (fun _ => rfl)).mpr
    (by decide)⟩

/-- A shard that cannot be read does not keep the manifest from being sent. -/
theorem sampleSpool_manifest_first :
    ∃ P : Pass, P.Lists (lit "bob") (sampleSpool P.order) ∧ sampleQueued .shard "a" ∈ P.order ∧
      ∃ evs key data r s' p', Steps (P.env (lit "bob")) (sampleSpool P.order)
          (flushPeer sampleLibs (lit "bob"))
          (evs ++ [⟨.request (lit "bob") ⟨.putManifest, key, data⟩, r⟩]) s' p' ∧
        ((sampleQueued .shard "a").request [1], true) ∉ tried (lit "bob") evs := by
  let order := [sampleQueued .shard "a", sampleQueued .manifest "m"]
  have hlist : (samplePass order [sampleQueued .shard "a"] []).Lists (lit "bob") (sampleSpool order) :=
    lists_samplePass (by decide) (by decide)
  exact ⟨_, hlist, by decide, exists_manifest_before_shard (L := sampleLibs) rfl hlist
    (e := sampleQueued .shard "a") (m := sampleQueued .manifest "m") (by decide) (by decide) (by decide)
    (by decide) rfl (by decide)⟩

/-- Where the shard can be read, it goes first. -/
theorem sampleSpool_shard_first :
    ∃ P : Pass, P.Lists (lit "bob") (sampleSpool P.order) ∧
      P.order = [sampleQueued .manifest "m", sampleQueued .shard "a"] ∧
      ShardsFirst sampleLibs P (lit "bob") (lit "bob") (sampleSpool P.order) := by
  let order := [sampleQueued .manifest "m", sampleQueued .shard "a"]
  have hlist : (samplePass order [] []).Lists (lit "bob") (sampleSpool order) :=
    lists_samplePass (by decide) (by decide)
  exact ⟨_, hlist, rfl, (flushPeer_shards_first_iff rfl hlist).mpr (.inl fun _ _ _ => rfl)⟩

end FnShare
