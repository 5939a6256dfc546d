import FnShare.File.Reader
import FnShare.File.Success

/-!
# What a read does

The executions of `ReadAt`, over a cache that it shares with other reads. `Fetched` says what a slot of a
stripe can give, by the answers of the local block store and the peers. From the shards that are gathered
a stripe comes back if they are enough, and otherwise an error does (`wp_fetchAndDecryptStripe`). A read
over several stripes is put together from their parts (`wp_readLoopAt_some`).

`ReadsFrom answers I E` collects what these rules need of an environment `E`. The cache may change between
two operations, as long as it satisfies `I`; so the rules hold for a read alone and for one among others.
-/

namespace FnShare

open Prog

/-! ## The environment of a reader -/

/-- What an operation of a reader does to the cache, where the other answers are given. -/
def cacheStep (answers : (o : NodeOp) → o.Ans → Prop) (c : StripeCache) :
    (o : NodeOp) → o.Ans → StripeCache → Prop
  | .cacheGet fileID idx, r, c' =>
    ∃ key, cacheKey fileID idx = some key ∧ r = (c.get key).1 ∧ c' = (c.get key).2
  | .cachePut fileID idx data, _, c' => ∃ key, cacheKey fileID idx = some key ∧ c' = c.put key data
  | o, r, c' => answers o r ∧ c' = c

/-- The operations that always have an answer: no panic, and a stripe index that is an `int64`. -/
def Answerable : NodeOp → Prop
  | .panic => False
  | .cacheGet _ idx | .cachePut _ idx _ => -2^63 ≤ idx ∧ idx < 2^63
  | _ => True

/-- The operations by which a shard is fetched. -/
def Fetches : NodeOp → Prop
  | .blockGet _ | .request _ _ | .record _ _ _ => True
  | _ => False

/-- In the environment `E`, whose cache satisfies `I`, a reader gets the given answers. -/
structure ReadsFrom (answers : (o : NodeOp) → o.Ans → Prop) (I : StripeCache → Prop)
    (E : Env NodeSig StripeCache) : Prop where
  /-- An operation is performed on a cache that satisfies `I`. -/
  step : ∀ {c o r c'}, I c → E.step c o r c' → ∃ v, I v ∧ cacheStep answers v o r c'
  fetch : ∀ {c o}, I c → Fetches o → E.guard c o
  /-- What keeps `I` is admissible. -/
  guard : ∀ {c o}, I c → Answerable o →
    (∀ v r v', I v → cacheStep answers v o r v' → I v') → E.guard c o

/-- What fetching a slot can give. -/
inductive Fetched (L : Libs) (svc : Service) (answers : (o : NodeOp) → o.Ans → Prop)
    (shardID holder : Bytes) : Option Bytes → Prop
  /-- The local block store has the shard. -/
  | here {data : Bytes} (h : answers (.blockGet shardID) (.ok data)) :
      Fetched L svc answers shardID holder (some data)
  /-- The node should have it, and does not. -/
  | lost {e : GoErr} (h : answers (.blockGet shardID) (.error e)) (hself : holder = svc.self) :
      Fetched L svc answers shardID holder none
  /-- The holder is no peer id. -/
  | unknown {e e' : GoErr} (h : answers (.blockGet shardID) (.error e)) (hself : holder ≠ svc.self)
      (hpid : L.peerDecode holder = .error e') : Fetched L svc answers shardID holder none
  /-- The holder sends something. -/
  | remote {e : GoErr} {pid : Bytes} {resp : Response} (h : answers (.blockGet shardID) (.error e))
      (hself : holder ≠ svc.self) (hpid : L.peerDecode holder = .ok pid)
      (hr : answers (.request pid ⟨.getShard, shardID, []⟩) (.ok resp)) (hok : resp.ok = true) :
      Fetched L svc answers shardID holder (some resp.body)
  /-- The holder does not. -/
  | failed {e : GoErr} {pid : Bytes} {a : Except GoErr Response}
      (h : answers (.blockGet shardID) (.error e)) (hself : holder ≠ svc.self)
      (hpid : L.peerDecode holder = .ok pid)
      (hr : answers (.request pid ⟨.getShard, shardID, []⟩) a) (ha : acknowledged a = false) :
      Fetched L svc answers shardID holder none

/-! ## One stripe -/

section Stripe

variable {L : Libs} {svc : Service} {answers : (o : NodeOp) → o.Ans → Prop} {I : StripeCache → Prop}
  {E : Env NodeSig StripeCache} {c : StripeCache}

/-- An operation that fetches leaves the cache alone. -/
theorem ReadsFrom.fetches (hE : ReadsFrom answers I E) {o : NodeOp} {r : o.Ans} {c' : StripeCache}
    (hc : I c) (hs : E.step c o r c') (ho : Fetches o) : answers o r ∧ I c' := by
  obtain ⟨v, hv, hstep⟩ := hE.step hc hs
  cases o with
  | blockGet _ | request _ _ | record _ _ _ =>
    obtain ⟨ha, rfl⟩ := hstep
    exact ⟨ha, hv⟩
  | _ => exact ho.elim

/-- The shard of one slot. -/
theorem wp_fetchShard (hE : ReadsFrom answers I E) (shardID holder : Bytes) (hc : I c) :
    wp E (fetchShard L svc shardID holder)
      (returns fun x c' => Fetched L svc answers shardID holder x ∧ I c') c := by
  unfold fetchShard
  refine ⟨hE.fetch hc trivial, ?_⟩
  intro r c₁ hs
  obtain ⟨hblock, hc₁⟩ := hE.fetches hc hs trivial
  simp only [bind_eq, ret_bind]
  cases r with
  | ok data => exact ⟨.here hblock, hc₁⟩
  | error e =>
    simp only
    by_cases hself : holder = svc.self
    · rw [if_pos hself]
      exact ⟨.lost hblock hself, hc₁⟩
    · rw [if_neg hself]
      cases hpid : L.peerDecode holder with
      | error e' => exact ⟨.unknown hblock hself hpid, hc₁⟩
      | ok pid =>
        simp only
        rw [wp_bind, wp_attempt]
        refine wp_getShardFromPeer_of (hE.fetch hc₁ trivial) ?_ ?_
        · intro resp c₂ hs hok
          obtain ⟨hr, hc₂⟩ := hE.fetches hc₁ hs trivial
          refine ⟨hE.fetch hc₂ trivial, ?_⟩
          intro u c₃ hs
          exact ⟨.remote hblock hself hpid hr hok, (hE.fetches hc₂ hs trivial).2⟩
        · intro a c₂ hs hno e'
          obtain ⟨hr, hc₂⟩ := hE.fetches hc₁ hs trivial
          exact ⟨.failed hblock hself hpid hr hno, hc₂⟩

/-- The shards gathered from the slots, all of them if they are too few. -/
theorem wp_gatherShards (hE : ReadsFrom answers I E) (k : ℤ) (slots : List (Bytes × Bytes))
    (gathered : ℤ) (hc : I c) :
    wp E (gatherShards L svc k slots gathered)
      (returns fun x c' => I c' ∧ x.2 = gathered + present x.1 ∧
        List.Forall₂ (fun slot g => g = none ∨ Fetched L svc answers slot.1 slot.2 g) slots x.1 ∧
        (x.2 < k → List.Forall₂ (fun slot g => Fetched L svc answers slot.1 slot.2 g) slots x.1))
      c := by
  induction slots generalizing gathered c with
  | nil => exact ⟨hc, by simp [present], .nil, fun _ => .nil⟩
  | cons slot rest ih =>
    obtain ⟨shardID, holder⟩ := slot
    unfold gatherShards
    by_cases hlt : gathered < k
    · rw [if_pos hlt]
      refine wp_bind_returns (wp_fetchShard hE shardID holder hc) ?_
      rintro shard c₁ ⟨hshard, hc₁⟩
      refine wp_bind_returns (ih (if shard.isSome then gathered + 1 else gathered) hc₁) ?_
      rintro ⟨shards, n⟩ c₂ ⟨hc₂, hn, hsome, hall⟩
      have hcount : n = gathered + present (shard :: shards) := by
        rw [present_cons]
        cases shard <;> simp only [Option.isSome_none, Option.isSome_some, if_true,
          Bool.false_eq_true, if_false] at hn ⊢ <;> omega
      exact ⟨hc₂, hcount, .cons (.inr hshard) hsome, fun h => .cons hshard (hall h)⟩
    · -- Enough was gathered: the slots that are left stay empty.
      rw [if_neg hlt]
      have hempty : ∀ l : List (Bytes × Bytes), List.Forall₂ (fun slot g => g = none ∨
          Fetched L svc answers slot.1 slot.2 g) l (l.map fun _ => none) := by
        intro l
        induction l with
        | nil => exact .nil
        | cons _ _ ih => exact .cons (.inl rfl) ih
      refine ⟨hc, ?_, hempty ((shardID, holder) :: rest), fun h => absurd h hlt⟩
      have := present_none ((shardID, holder) :: rest)
      rw [List.map_cons] at this
      rw [this]
      simp

end Stripe

/-! ## A reader of a file -/

/-- The slots of a stripe: the id of each shard, with its holder. -/
def slots (r : Reader) (st : Stripe) : List (Bytes × Bytes) := st.shardIDs.zip r.m.holders

/-- A reader of the file with the contents `data`, uploaded by `svc`, whose stripe of index `j` was coded
into the shards `orig j`. -/
structure ReaderOf (L : Libs) (svc : Service) (data : Bytes) (orig : ℕ → List Bytes) (r : Reader) :
    Prop where
  length_key : r.key.length = fileKeySize
  size_eq : r.m.size = data.length
  stripeDataSize_eq : r.m.stripeDataSize = svc.stripeSize
  dataShards_eq : r.m.dataShards = svc.params.dataShards
  parityShards_eq : r.m.parityShards = svc.params.parityShards
  length_stripes : r.m.stripes.length = (data.length + svc.stripeSize - 1) / svc.stripeSize
  length_holders : (r.m.holders.length : ℤ) = svc.params.total
  /-- The shards are those of the sealed part of the data. -/
  coded : ∀ {j : ℕ} {st : Stripe}, r.m.stripes[j]? = some st → ∃ nonce : Bytes, nonce.length = gcmNonceSize ∧
    svc.params.encode L (sealedAES L r.key nonce (svc.chunkAt data j)) = .ok (orig j) ∧
    st.shardIDs.length = (orig j).length ∧
    st.ciphertextBytes = (sealedAES L r.key nonce (svc.chunkAt data j)).length

section Reader

variable {L : Libs} {svc node : Service} {data : Bytes} {orig : ℕ → List Bytes} {r : Reader}
  {answers : (o : NodeOp) → o.Ans → Prop} {I : StripeCache → Prop} {E : Env NodeSig StripeCache}
  {c : StripeCache}
variable {fileID : Bytes} {idx : ℤ} {stop size : ℕ}

/-- The shards of the reader are those of the upload. -/
theorem ReaderOf.params_eq (hof : ReaderOf L svc data orig r) :
    (⟨r.m.dataShards, r.m.parityShards⟩ : Params) = svc.params := by
  rw [hof.dataShards_eq, hof.parityShards_eq]

/-- A stripe of the file has as many slots as there are shards, a number that does not wrap. -/
theorem ReaderOf.lengths (hR : L.rs.Mds) (hA : L.aead.Correct) (hof : ReaderOf L svc data orig r)
    {j : ℕ} {st : Stripe} (hst : r.m.stripes[j]? = some st) :
    (st.shardIDs.length : ℤ) = wrap64 (r.m.dataShards + r.m.parityShards) ∧
      (r.m.holders.length : ℤ) = wrap64 (r.m.dataShards + r.m.parityShards) := by
  obtain ⟨nonce, hnonce, henc, hids, -⟩ := hof.coded hst
  obtain ⟨hk, hm, hnew, hcode⟩ :=
    Params.encodes_of_encode hR (sealedAES_ne_nil hA hnonce _) henc
  -- The library has no encoder for so many shards that their number would wrap.
  have htotal : wrap64 (r.m.dataShards + r.m.parityShards) = svc.params.total := by
    have hle := hR.total_le _ _ hnew
    rw [hof.dataShards_eq, hof.parityShards_eq, wrap64_of_range (by omega) (by omega)]
    rfl
  rw [htotal, hids]
  exact ⟨hcode.length_eq, hof.length_holders⟩

/-- A slot of a stripe can give nothing but its original shard. -/
def OnlyOriginals (L : Libs) (node : Service) (answers : (o : NodeOp) → o.Ans → Prop)
    (orig : ℕ → List Bytes) (r : Reader) (j : ℕ) : Prop :=
  ∀ st, r.m.stripes[j]? = some st →
    List.Forall₂ (fun slot s => ∀ g, Fetched L node answers slot.1 slot.2 g → g = none ∨ g = some s)
      (slots r st) (orig j)

/-- What the slots give is some of the shards, if they can give nothing else. -/
theorem someOf_of_fetched {sls : List (Bytes × Bytes)} {shards : List Bytes} {got : List (Option Bytes)}
    (hsls : List.Forall₂ (fun slot s => ∀ g, Fetched L node answers slot.1 slot.2 g →
      g = none ∨ g = some s) sls shards)
    (hgot : List.Forall₂ (fun slot g => g = none ∨ Fetched L node answers slot.1 slot.2 g) sls got) :
    SomeOf shards got := by
  induction hsls generalizing got with
  | nil =>
    cases hgot
    exact .nil
  | cons hslot _ ih =>
    cases hgot with
    | cons hg hrest =>
      refine .cons ?_ (ih hrest)
      rcases hg with hg | hg
      · exact .inl hg
      · exact hslot _ hg

/-- A stripe comes back, or the slots have given too few shards. -/
theorem wp_fetchAndDecryptStripe (hR : L.rs.Mds) (hA : L.aead.Correct) (hE : ReadsFrom answers I E)
    (hof : ReaderOf L svc data orig r) (idx : ℤ)
    (horig : ∀ j : ℕ, idx = j → OnlyOriginals L node answers orig r j) (hc : I c) :
    wp E (fetchAndDecryptStripe L node r idx)
      (fun x c' => I c' ∧
        match x with
        | .ok d => ∀ j : ℕ, idx = j → d = svc.chunkAt data j
        | .error _ => ∀ (j : ℕ) st, idx = j → r.m.stripes[j]? = some st →
          ∃ got, List.Forall₂ (fun slot g => Fetched L node answers slot.1 slot.2 g) (slots r st) got ∧
            (present got : ℤ) < r.m.dataShards) c := by
  unfold fetchAndDecryptStripe
  by_cases hrange : idx < 0 ∨ (r.m.stripes.length : ℤ) ≤ idx
  · rw [if_pos hrange]
    refine ⟨hc, ?_⟩
    rintro j st rfl hst
    have := (List.getElem?_eq_some_iff.mp hst).1
    omega
  rw [if_neg hrange]
  obtain ⟨j, rfl⟩ : ∃ j : ℕ, idx = j := ⟨idx.toNat, by omega⟩
  have hj : j < r.m.stripes.length := by omega
  obtain ⟨st, hst⟩ : ∃ st, r.m.stripes[j]? = some st := ⟨_, List.getElem?_eq_getElem hj⟩
  obtain ⟨nonce, hnonce, henc, hids, hct⟩ := hof.coded hst
  have hne : sealedAES L r.key nonce (svc.chunkAt data j) ≠ [] := sealedAES_ne_nil hA hnonce _
  obtain ⟨hlen, hholders⟩ := hof.lengths hR hA hst
  rw [Int.toNat_natCast, hst, orPanic_some, ret_bind]
  simp only
  rw [if_neg (by omega)]
  refine wp_bind_of (wp_gatherShards hE r.m.dataShards (st.shardIDs.zip r.m.holders) 0 hc) ?_
    fun _ _ h => h.elim
  rintro ⟨got, n⟩ c₁ ⟨hc₁, hn, hsome, hall⟩
  simp only [zero_add] at hn
  simp only
  by_cases hfew : n < r.m.dataShards
  · rw [if_pos hfew]
    refine ⟨hc₁, ?_⟩
    rintro j' st' hj' hst'
    obtain rfl : j = j' := by omega
    obtain rfl : st = st' := Option.some.inj (hst.symm.trans hst')
    exact ⟨got, hall hfew, by rw [← hn]; exact hfew⟩
  · rw [if_neg hfew]
    -- The shards are some of the original ones, and enough to decode.
    have hgot : SomeOf (orig j) got := someOf_of_fetched (horig j rfl st hst) hsome
    have hdec := Params.decode_encode hR hne henc (svc.allocatable_sealed hA hnonce _ _ _) hgot
      (by rw [← hof.dataShards_eq]; omega)
    rw [hof.params_eq, hct, hdec, orPanic_some, ret_bind]
    simp only [openAES_sealedAES hA hof.length_key hnonce]
    refine ⟨hc₁, ?_⟩
    rintro j' hj'
    obtain rfl : j = j' := by omega
    rfl

/-! ## The cache -/

/-- Whatever the cache has of a file is right. -/
structure CacheSound (svc : Service) (fileID data : Bytes) (c : StripeCache) : Prop where
  linked : c.Linked
  right : ∀ (j : ℕ) key d, (j : ℤ) < 2^63 → cacheKey fileID j = some key → c.lookup key = some d →
    d = svc.chunkAt data j

/-- An empty cache is right. -/
theorem CacheSound.new (svc : Service) (fileID data : Bytes) (maxBytes : ℤ) :
    CacheSound svc fileID data (.new maxBytes) :=
  ⟨.new maxBytes, fun _ _ _ _ _ h => absurd h (by simp [StripeCache.lookup, StripeCache.new])⟩

/-- A `Get` changes nothing of what the cache has. -/
theorem CacheSound.get (h : CacheSound svc fileID data c) (key : Bytes) :
    CacheSound svc fileID data (c.get key).2 :=
  ⟨h.linked.get key, fun j k d hj hk hd => h.right j k d hj hk (by rwa [c.lookup_get] at hd)⟩

/-- A `Put` of what is right, or of another file, keeps the cache right. -/
theorem CacheSound.put {fileID' key d : Bytes} (h : CacheSound svc fileID data c)
    (hidx : -2^63 ≤ idx ∧ idx < 2^63) (hkey : cacheKey fileID' idx = some key)
    (hd : fileID' = fileID → ∀ j : ℕ, idx = j → d = svc.chunkAt data j) :
    CacheSound svc fileID data (c.put key d) := by
  refine ⟨h.linked.put key d, ?_⟩
  intro j k d' hj hk hlook
  rcases StripeCache.lookup_put h.linked hlook with ⟨rfl, rfl⟩ | hlook
  · -- The keys are equal, so it is the same stripe of the same file.
    obtain ⟨hfile, hj'⟩ := cacheKey_inj hidx ⟨by omega, hj⟩ hkey hk
    exact hd hfile j hj'
  · exact h.right j k d' hj hk hlook

/-- A stripe comes from the cache or is fetched, and then put into the cache: what holds in both cases holds
of it, if that is enough for the cache to stay right. -/
theorem wp_stripeBytes_of (hE : ReadsFrom answers (CacheSound svc fileID data) E)
    (hidx : -2^63 ≤ idx ∧ idx < 2^63) {P : Except GoErr Bytes → Prop}
    (hfound : ∀ v key d, CacheSound svc fileID data v → cacheKey r.m.fileID idx = some key →
      v.lookup key = some d → P (.ok d))
    (hfetch : ∀ c, CacheSound svc fileID data c → wp E (fetchAndDecryptStripe L node r idx)
      (fun x c' => CacheSound svc fileID data c' ∧ P x) c)
    (hright : ∀ d, P (.ok d) → r.m.fileID = fileID → ∀ j : ℕ, idx = j → d = svc.chunkAt data j)
    (hc : CacheSound svc fileID data c) :
    wp E (stripeBytes L node r idx) (fun x c' => CacheSound svc fileID data c' ∧ P x) c := by
  unfold stripeBytes
  refine ⟨hE.guard hc hidx ?_, ?_⟩
  · rintro v found v' hv ⟨key, -, -, rfl⟩
    exact hv.get key
  intro found c₁ hs
  obtain ⟨v, hv, key, hkey, rfl, rfl⟩ := hE.step hc hs
  simp only [bind_eq, ret_bind, StripeCache.get_fst]
  cases hlook : v.lookup key with
  | some d => exact ⟨hv.get key, hfound v key d hv hkey hlook⟩
  | none =>
    simp only
    refine wp_bind_of (hfetch _ (hv.get key)) ?_ fun _ _ h => h
    rintro d c₂ ⟨hc₂, hd⟩
    have hput : ∀ v u v', CacheSound svc fileID data v →
        cacheStep answers v (.cachePut r.m.fileID idx d) u v' → CacheSound svc fileID data v' := by
      rintro v u v' hv ⟨key', hkey', rfl⟩
      exact hv.put hidx hkey' (hright d hd)
    refine ⟨hE.guard hc₂ hidx hput, ?_⟩
    intro u c₃ hs
    obtain ⟨v', hv', hstep⟩ := hE.step hc₂ hs
    exact ⟨hput v' u c₃ hv' hstep, hd⟩

/-- A stripe of the file comes back, or the slots have given too few shards. -/
theorem wp_stripeBytes (hR : L.rs.Mds) (hA : L.aead.Correct)
    (hE : ReadsFrom answers (CacheSound svc r.m.fileID data) E) (hof : ReaderOf L svc data orig r)
    (hidx : -2^63 ≤ idx ∧ idx < 2^63) (horig : ∀ j : ℕ, idx = j → OnlyOriginals L node answers orig r j)
    (hc : CacheSound svc r.m.fileID data c) :
    wp E (stripeBytes L node r idx)
      (fun x c' => CacheSound svc r.m.fileID data c' ∧
        match x with
        | .ok d => ∀ j : ℕ, idx = j → d = svc.chunkAt data j
        | .error _ => ∀ (j : ℕ) st, idx = j → r.m.stripes[j]? = some st →
          ∃ got, List.Forall₂ (fun slot g => Fetched L node answers slot.1 slot.2 g) (slots r st) got ∧
            (present got : ℤ) < r.m.dataShards) c := by
  refine wp_stripeBytes_of hE hidx ?_ ?_ (fun d hd _ => hd) hc
  · rintro v key d hv hkey hlook j rfl
    exact hv.right j key d hidx.2 hkey hlook
  · intro c hc
    exact wp_fetchAndDecryptStripe hR hA hE hof idx horig hc

/-! ## A read -/

variable (svc) in
/-- The parts of a stripe that a read takes. -/
theorem take_chunkAt {data : Bytes} {cur : ℕ} (hcur : cur < stop) (hstop : stop ≤ data.length) :
    0 < min (stop - cur) ((svc.chunkAt data (cur / svc.stripeSize)).length - cur % svc.stripeSize) ∧
    ((svc.chunkAt data (cur / svc.stripeSize)).drop (cur % svc.stripeSize)).take
        (min (stop - cur) ((svc.chunkAt data (cur / svc.stripeSize)).length - cur % svc.stripeSize)) =
      (data.drop cur).take
        (min (stop - cur)
          ((svc.chunkAt data (cur / svc.stripeSize)).length - cur % svc.stripeSize)) := by
  have hpos := svc.stripeSize_pos
  have hmod := Nat.mod_lt cur hpos
  have hdiv : cur / svc.stripeSize * svc.stripeSize + cur % svc.stripeSize = cur :=
    Nat.div_add_mod' cur svc.stripeSize
  have hlen : (svc.chunkAt data (cur / svc.stripeSize)).length =
      min svc.stripeSize (data.length - cur / svc.stripeSize * svc.stripeSize) := by
    unfold Service.chunkAt
    rw [List.length_take, List.length_drop]
  generalize hwant : min (stop - cur)
    ((svc.chunkAt data (cur / svc.stripeSize)).length - cur % svc.stripeSize) = want
  rw [hlen] at hwant
  refine ⟨by omega, ?_⟩
  unfold Service.chunkAt
  rw [List.drop_take, List.take_take, List.drop_drop, hdiv]
  congr 1
  omega

/-- The indices of a turn of the loop, for an offset in the file. -/
theorem ReaderOf.turn (hof : ReaderOf L svc data orig r) {cur : ℕ} (hcur : cur < stop)
    (hstop : stop ≤ data.length) (hdata : (data.length : ℤ) < 2^63) :
    r.stripeIdx cur = (cur / svc.stripeSize : ℕ) ∧ r.inStart cur = (cur % svc.stripeSize : ℕ) ∧
      wrap64 (stop - cur) = (stop - cur : ℕ) ∧ cur / svc.stripeSize < r.m.stripes.length := by
  have hpos := svc.stripeSize_pos
  have hle : cur / svc.stripeSize ≤ cur := Nat.div_le_self _ _
  have hmul : cur / svc.stripeSize * svc.stripeSize ≤ cur := Nat.div_mul_le_self _ _
  have hidx : r.stripeIdx cur = (cur / svc.stripeSize : ℕ) := by
    unfold Reader.stripeIdx
    rw [hof.stripeDataSize_eq, ← Int.ofNat_tdiv]
    generalize cur / svc.stripeSize = j at hle ⊢
    exact wrap64_of_range (by omega) (by omega)
  refine ⟨hidx, ?_, ?_, ?_⟩
  · have hdiv : cur / svc.stripeSize * svc.stripeSize + cur % svc.stripeSize = cur :=
      Nat.div_add_mod' cur svc.stripeSize
    have hstart : wrap64 ((cur / svc.stripeSize * svc.stripeSize : ℕ) : ℤ) =
        (cur / svc.stripeSize * svc.stripeSize : ℕ) := wrap64_of_range (by omega) (by omega)
    unfold Reader.inStart
    rw [hidx, hof.stripeDataSize_eq, ← Nat.cast_mul, hstart, wrap64_of_range (by omega) (by omega)]
    omega
  · rw [wrap64_of_range (by omega) (by omega)]
    omega
  · rw [hof.length_stripes, Nat.div_lt_iff_lt_mul hpos, Nat.div_mul_self_eq_mod_sub_self]
    have := Nat.mod_lt (data.length + svc.stripeSize - 1) hpos
    omega

/-- Enough slots of a stripe give their shard. -/
def Enough (L : Libs) (node : Service) (answers : (o : NodeOp) → o.Ans → Prop) (r : Reader) (j : ℕ) :
    Prop :=
  ∀ st, r.m.stripes[j]? = some st → ∀ got,
    List.Forall₂ (fun slot g => Fetched L node answers slot.1 slot.2 g) (slots r st) got →
      r.m.dataShards ≤ present got

/-- No error of a stripe is the end of the file. -/
theorem errs_stripeBytes (L : Libs) (node : Service) (r : Reader) (idx : ℤ) :
    (stripeBytes L node r idx).Errs (· ≠ .eof) := by
  have hslot : ∀ shardID holder, (fetchShard L node shardID holder).Handled := by
    intro shardID holder
    unfold fetchShard
    refine handled_bind (fun _ => trivial) ?_
    rintro (e | data)
    · simp only
      split_ifs
      · trivial
      · cases L.peerDecode holder with
        | error e => trivial
        | ok pid =>
          refine handled_bind (handled_attempt _) ?_
          rintro (e | data) <;> trivial
    · trivial
  have hgather : ∀ k sls n, (gatherShards L node k sls n).Handled := by
    intro k sls
    induction sls with
    | nil => exact fun _ => trivial
    | cons slot rest ih =>
      intro n
      unfold gatherShards
      split_ifs
      · exact handled_bind (hslot _ _) fun _ => handled_bind (ih _) fun _ => trivial
      · trivial
  have hpanic : ∀ {α : Type} (x : Option α), (orPanic x).Errs (· ≠ .eof) := by
    rintro α (_ | a)
    · exact fun r => r.elim
    · trivial
  unfold stripeBytes fetchAndDecryptStripe
  refine errs_bind (fun _ => trivial) ?_
  rintro (_ | data)
  · refine errs_bind ?_ fun _ => errs_bind (fun _ => trivial) fun _ => trivial
    split_ifs
    · exact GoErr.noConfusion
    · refine errs_bind (hpanic _) fun stripe => ?_
      simp only
      split_ifs
      · exact GoErr.noConfusion
      · refine errs_bind (hgather _ _ _).errs fun got => ?_
        split_ifs
        · exact GoErr.noConfusion
        · refine errs_bind (hpanic _) ?_
          rintro (e | ⟨-, ct⟩)
          · exact GoErr.noConfusion
          · simp only
            cases openAES L r.key ct with
            | error e => exact GoErr.noConfusion
            | ok pt => trivial
  · trivial

/-- A stripe that a read touches. -/
def TouchesStripe (svc : Service) (cur stop j : ℕ) : Prop :=
  j * svc.stripeSize < stop ∧ cur < (j + 1) * svc.stripeSize

/-- The loop of a read returns what it was asked for, or a part of it and an error, where the slots of a
stripe that it touches have not given enough shards. -/
theorem wp_readLoopAt_some (hR : L.rs.Mds) (hA : L.aead.Correct)
    (hE : ReadsFrom answers (CacheSound svc r.m.fileID data) E) (hof : ReaderOf L svc data orig r)
    (hdata : (data.length : ℤ) < 2^63) (hstop : stop ≤ data.length) (cur : ℕ)
    (hcur : cur ≤ stop) (written : Bytes) (hsize : written.length + (stop - cur) ≤ size)
    (hslots : ∀ j, TouchesStripe svc cur stop j → OnlyOriginals L node answers orig r j)
    (c : StripeCache) (hc : CacheSound svc r.m.fileID data c) :
    wp E (readLoopAt L node r size stop cur written)
      (returns fun x c' => CacheSound svc r.m.fileID data c' ∧
        (x = (written ++ (data.drop cur).take (stop - cur), none) ∨
          ∃ n e j, n ≤ stop - cur ∧ x = (written ++ (data.drop cur).take n, some e) ∧ e ≠ .eof ∧
            TouchesStripe svc cur stop j ∧ ¬ Enough L node answers r j)) c := by
  -- The induction is on the bytes that are still to be read.
  induction hn : stop - cur using Nat.strongRecOn generalizing cur written c with
  | ind n ih =>
    have hpos := svc.stripeSize_pos
    rw [readLoopAt]
    by_cases hlt : cur < stop
    · obtain ⟨hidx, hin, hwrap, hj⟩ := hof.turn hlt hstop hdata
      have hchunk := take_chunkAt svc hlt hstop
      generalize hj' : cur / svc.stripeSize = j at hidx hj hchunk
      have htouched : TouchesStripe svc cur stop j := by
        rw [← hj']
        refine ⟨lt_of_le_of_lt (Nat.div_mul_le_self _ _) hlt, ?_⟩
        rw [Nat.succ_mul]
        exact Nat.lt_div_mul_add hpos
      have hstripe : r.m.stripeDataSize ≠ 0 := by
        rw [hof.stripeDataSize_eq]
        omega
      rw [if_pos (by omega), if_neg hstripe, hidx, if_neg (by omega), wp_bind, wp_attempt]
      have hrange : -2^63 ≤ (j : ℤ) ∧ (j : ℤ) < 2^63 := by
        have : j ≤ cur := hj' ▸ Nat.div_le_self _ _
        omega
      refine wp_mono ((errs_stripeBytes L node r j).wp_and (wp_stripeBytes hR hA hE hof hrange ?_ hc)) ?_
      · intro j' he
        obtain rfl : j = j' := by omega
        exact hslots j htouched
      rintro (e | d) c₁ ⟨⟨hc₁, hd⟩, herr⟩
      · -- The slots of this stripe were too few.
        obtain ⟨got, hgot, hfew⟩ := hd j _ rfl (List.getElem?_eq_getElem hj)
        refine ⟨hc₁, .inr ⟨0, e, j, Nat.zero_le _, by simp, herr e rfl, htouched, ?_⟩⟩
        intro henough
        have := henough _ (List.getElem?_eq_getElem hj) got hgot
        omega
      · obtain rfl : d = svc.chunkAt data j := hd j rfl
        have hwant : r.want stop cur (svc.chunkAt data j).length =
            (min (stop - cur) ((svc.chunkAt data j).length - cur % svc.stripeSize) : ℕ) := by
          have := hchunk.1
          unfold Reader.want
          rw [hwrap, hin]
          omega
        simp only [andThen_ok, hwant, hin, Int.toNat_natCast]
        rw [hchunk.2]
        have hle := min_le_left (stop - cur) ((svc.chunkAt data j).length - cur % svc.stripeSize)
        generalize min (stop - cur) ((svc.chunkAt data j).length - cur % svc.stripeSize) = want
          at hchunk hle
        rw [if_neg (by omega), if_neg (by omega), ← Nat.cast_add]
        have hjoin : ∀ k, written ++ (data.drop cur).take want ++ (data.drop (cur + want)).take k =
            written ++ (data.drop cur).take (want + k) := by
          intro k
          rw [List.append_assoc, List.take_add, List.drop_drop]
        refine wp_mono (ih (stop - (cur + want)) (by omega) (cur + want) (by omega) _ ?_ ?_ c₁ hc₁ rfl) ?_
        · rw [List.length_append, List.length_take, List.length_drop]
          omega
        · exact fun j' h => hslots j' ⟨h.1, by have := h.2; omega⟩
        · rintro (e | x) c₂ hx
          · exact hx
          · obtain ⟨hc₂, rfl | ⟨k, e, j', hk, rfl, he, ht, hno⟩⟩ := hx
            · refine ⟨hc₂, .inl ?_⟩
              rw [hjoin, ← hn]
              congr 3
              omega
            · refine ⟨hc₂, .inr ⟨want + k, e, j', by omega, by rw [hjoin], he, ⟨ht.1, ?_⟩, hno⟩⟩
              have := ht.2
              omega
    · rw [if_neg (by omega)]
      have h0 : n = 0 := by omega
      exact ⟨hc, .inl (by simp [h0])⟩

/-- A read returns what it was asked for, as far as the file goes, and reports the end of the file if it comes
first; or it returns a part of that and an error, where the slots of a stripe have not given enough shards. -/
theorem wp_readAt_some (hR : L.rs.Mds) (hA : L.aead.Correct)
    (hE : ReadsFrom answers (CacheSound svc r.m.fileID data) E) (hof : ReaderOf L svc data orig r)
    (hsize : data.length + size < 2^63) (offset : ℕ)
    (hslots : ∀ j, TouchesStripe svc offset (min (offset + size) data.length) j →
      OnlyOriginals L node answers orig r j)
    (hc : CacheSound svc r.m.fileID data c) :
    wp E (readAt L node r size offset)
      (returns fun x c' => CacheSound svc r.m.fileID data c' ∧
        (x = ((data.drop offset).take size,
            if data.length ≤ offset ∨ ((data.drop offset).take size).length < size then some .eof else none) ∨
          ∃ n e j, n ≤ size ∧ offset < data.length ∧ x = ((data.drop offset).take n, some e) ∧ e ≠ .eof ∧
            TouchesStripe svc offset (min (offset + size) data.length) j ∧ ¬ Enough L node answers r j))
              c := by
  unfold readAt
  rw [hof.size_eq]
  by_cases hend : (data.length : ℤ) ≤ offset
  · rw [if_pos hend]
    have hdrop : data.drop offset = [] := List.drop_of_length_le (by omega)
    refine ⟨hc, .inl ?_⟩
    rw [hdrop, List.take_nil, if_pos (.inl (by omega))]
  rw [if_neg hend]
  have hstop : min (wrap64 ((offset : ℤ) + size)) data.length =
      (min (offset + size) data.length : ℕ) := by
    rw [wrap64_of_range (by omega) (by omega)]
    omega
  rw [hstop]
  refine wp_bind_returns (wp_readLoopAt_some hR hA hE hof (by omega) (min_le_right _ _) offset (by omega) []
    (by rw [List.length_nil]; omega) hslots c hc) ?_
  rintro ⟨written, err⟩ c₁ ⟨hc₁, hw | ⟨n, e, j, hn, hw, he, ht, hno⟩⟩
  · obtain ⟨rfl, rfl⟩ := Prod.mk.inj hw
    have htake : (data.drop offset).take (min (offset + size) data.length - offset) =
        (data.drop offset).take size := by
      by_cases hle : offset + size ≤ data.length
      · rw [min_eq_left hle, Nat.add_sub_cancel_left]
      · rw [min_eq_right (by omega), ← List.length_drop, List.take_length,
          List.take_of_length_le (by rw [List.length_drop]; omega)]
    have hlen : ((data.drop offset).take size).length = min size (data.length - offset) := by
      rw [List.length_take, List.length_drop]
    simp only [List.nil_append, htake]
    -- The loop stops short of the buffer's end only at the end of the file.
    by_cases hshort : ((data.drop offset).take size).length < size
    · have hwrap : (data.length : ℤ) ≤ wrap64 (offset + ((data.drop offset).take size).length) := by
        rw [wrap64_of_range (by omega) (by omega)]
        omega
      rw [if_pos ⟨hshort, hwrap⟩]
      exact ⟨hc₁, .inl (by rw [if_pos (.inr hshort)])⟩
    · rw [if_neg fun h => hshort h.1]
      refine ⟨hc₁, .inl ?_⟩
      rw [if_neg]
      rintro (h | h)
      · omega
      · exact hshort h
  · obtain ⟨rfl, rfl⟩ := Prod.mk.inj hw
    exact ⟨hc₁, .inr ⟨n, e, j, by omega, by omega, rfl, he, ht, hno⟩⟩

/-- A read returns what it was asked for, as far as the file goes, and reports the end of the file if it
comes first. -/
theorem wp_readAt (hR : L.rs.Mds) (hA : L.aead.Correct)
    (hE : ReadsFrom answers (CacheSound svc r.m.fileID data) E) (hof : ReaderOf L svc data orig r)
    (hpos : 0 < size) (hsize : data.length + size < 2^63) (offset : ℕ)
    (hslots : ∀ j, j * svc.stripeSize < min (offset + size) data.length → offset < (j + 1) * svc.stripeSize →
      OnlyOriginals L node answers orig r j ∧ Enough L node answers r j)
    (hc : CacheSound svc r.m.fileID data c) :
    wp E (readAt L node r size offset)
      (returns fun x _ => x = ((data.drop offset).take size,
        if ((data.drop offset).take size).length < size then some .eof else none)) c := by
  refine wp_mono (wp_readAt_some hR hA hE hof hsize offset (fun j h => (hslots j h.1 h.2).1) hc) ?_
  rintro (e | x) c' hx
  · exact hx
  obtain ⟨-, hx | ⟨n, e, j, -, -, -, -, ht, hno⟩⟩ := hx
  · rw [returns_ok, hx]
    congr 2
    -- Past the end of the file nothing is read.
    refine propext (or_iff_right_of_imp fun h => ?_)
    rwa [List.drop_of_length_le h, List.take_nil]
  · exact absurd (hslots j ht.1 ht.2).2 hno

/-! ## What every read keeps -/

/-- If fetching a stripe keeps something of the cache, the loop of a read does. -/
theorem wp_readLoopAt_keeps (hpanic : ∀ c, I c → E.guard c .panic)
    (hstripe : ∀ idx : ℤ, -2^63 ≤ idx ∧ idx < 2^63 → ∀ c, I c →
      wp E (stripeBytes L node r idx) (fun _ c' => I c') c) (size : ℕ) (stop cur : ℤ)
    (written : Bytes) (c : StripeCache) (hc : I c) :
    wp E (readLoopAt L node r size stop cur written) (fun _ c' => I c') c := by
  induction hn : (stop - cur).toNat using Nat.strongRecOn generalizing cur written c with
  | ind n ih =>
    rw [readLoopAt]
    by_cases hlt : cur < stop
    · rw [if_pos hlt]
      by_cases hzero : r.m.stripeDataSize = 0
      · rw [if_pos hzero]
        exact ⟨hpanic c hc, fun a => a.elim⟩
      rw [if_neg hzero]
      by_cases hrange : (r.m.stripes.length : ℤ) ≤ r.stripeIdx cur
      · rw [if_pos hrange]
        exact hc
      rw [if_neg hrange, wp_bind, wp_attempt]
      refine wp_mono (hstripe _ (wrap64_range _) c hc) ?_
      rintro (e | d) c₁ hc₁
      · exact hc₁
      simp only [andThen_ok]
      by_cases hbad : r.inStart cur < 0 ∨ r.want stop cur d.length < 0 ∨
          (size : ℤ) < written.length + r.want stop cur d.length
      · rw [if_pos hbad]
        exact ⟨hpanic c₁ hc₁, fun a => a.elim⟩
      rw [if_neg hbad]
      by_cases hnone : r.want stop cur d.length = 0
      · rw [if_pos hnone]
        exact hc₁
      rw [if_neg hnone]
      have hle : r.want stop cur d.length ≤ stop - cur :=
        le_trans (min_le_left _ _) (wrap64_le (by omega))
      exact ih _ (by omega) _ _ c₁ hc₁ rfl
    · rw [if_neg hlt]
      exact hc

/-- If fetching a stripe keeps something of the cache, a read does, at any offset. -/
theorem wp_readAt_keeps (hpanic : ∀ c, I c → E.guard c .panic)
    (hstripe : ∀ idx : ℤ, -2^63 ≤ idx ∧ idx < 2^63 → ∀ c, I c →
      wp E (stripeBytes L node r idx) (fun _ c' => I c') c) (size : ℕ) (offset : ℤ) (hc : I c) :
    wp E (readAt L node r size offset) (fun _ c' => I c') c := by
  unfold readAt
  by_cases hend : r.m.size ≤ offset
  · rw [if_pos hend]
    exact hc
  rw [if_neg hend]
  refine wp_bind_of (wp_readLoopAt_keeps hpanic hstripe size _ offset [] c hc) ?_ fun _ _ h => h
  rintro ⟨written, err⟩ c₁ hc₁
  cases err with
  | some e => exact hc₁
  | none =>
    simp only
    split_ifs
    · exact hc₁
    · exact hc₁

/-- Fetching a stripe leaves the cache to the others. -/
theorem wp_fetchAndDecryptStripe_keeps (hE : ReadsFrom answers I E)
    (hpanic : ∀ c, I c → E.guard c .panic) (idx : ℤ) (hc : I c) :
    wp E (fetchAndDecryptStripe L node r idx) (fun _ c' => I c') c := by
  unfold fetchAndDecryptStripe
  split_ifs
  · exact hc
  cases r.m.stripes[idx.toNat]? with
  | none => exact ⟨hpanic c hc, fun a => a.elim⟩
  | some st =>
    rw [orPanic_some, ret_bind]
    simp only
    split_ifs
    · exact hc
    refine wp_bind_of (wp_gatherShards hE _ _ 0 hc) ?_ fun _ _ h => h.elim
    rintro ⟨got, n⟩ c₁ ⟨hc₁, -⟩
    simp only
    split_ifs
    · exact hc₁
    cases Params.decode L ⟨r.m.dataShards, r.m.parityShards⟩ got st.ciphertextBytes with
    | none => exact ⟨hpanic c₁ hc₁, fun a => a.elim⟩
    | some x =>
      rw [orPanic_some, ret_bind]
      cases x with
      | error e => exact hc₁
      | ok y =>
        simp only [wp_ofExcept]
        exact hc₁

/-- A stripe of another file, whatever comes of it, does not touch what the cache has of this one. -/
theorem wp_stripeBytes_other (hne : r.m.fileID ≠ fileID)
    (hE : ReadsFrom answers (CacheSound svc fileID data) E)
    (hpanic : ∀ c, CacheSound svc fileID data c → E.guard c .panic) (hidx : -2^63 ≤ idx ∧ idx < 2^63)
    (hc : CacheSound svc fileID data c) :
    wp E (stripeBytes L node r idx) (fun _ c' => CacheSound svc fileID data c') c := by
  have hfetch : ∀ c, CacheSound svc fileID data c → wp E (fetchAndDecryptStripe L node r idx)
      (fun _ c' => CacheSound svc fileID data c' ∧ True) c := by
    intro c hc
    exact wp_mono (wp_fetchAndDecryptStripe_keeps hE hpanic idx hc) fun _ _ h => ⟨h, trivial⟩
  refine wp_mono (wp_stripeBytes_of (P := fun _ => True) hE hidx ?_ hfetch ?_ hc) fun _ _ h => h.1
  · exact fun _ _ _ _ _ _ => trivial
  · exact fun _ _ he => absurd he hne

end Reader

end FnShare
