import FnShare.Copies
import FnShare.File.Listing
import FnShare.File.Open
import FnShare.Placement.Programs

/-!
# What others learn of a private file

The name and the key of a private file are in its manifest only under a seal. A `Term` says how a text of a
manifest has come about, with `SealAES` and `SealAnonymous` as constructors that are not looked into, and
`Term.Shows` whether it shows a secret outside of them. `Derived` are the manifests, text by text, that the
code puts together: `Put` makes one of the name that it is given and of what it has read and drawn, a repair
replaces a holder, and storing one cuts its time.

Uploads, listings, openings, the spool's worker and repairs run at all nodes in any order (`handling`).
Listings and readers put the plaintext name into the copies that they return, but what is stored, queued, sent
or served is always the encoding of a derived manifest, and the name is only under its own key at the node of
the owner (`private_names_sealed`). The statement is relative to the uploads `S` and to the operations with
their answers `T` that occur in a run, so that the texts of a manifest are traced back to what was read and
drawn in that very run.
-/

namespace FnShare

open Prog

/-! ## Terms -/

/-- How a text has come about. -/
inductive Term
  /-- Bytes that were read from the store or the configuration, or drawn for an id. -/
  | data (b : Bytes)
  /-- The plaintext name of a file. -/
  | name (filename : Bytes)
  /-- The key of a file. -/
  | fileKey (key : Bytes)
  /-- The key of a group. -/
  | sharedKey (key : Bytes)
  /-- The plaintext of a stripe. -/
  | chunk (plaintext : Bytes)
  | sealAES (key : Term) (nonce : Bytes) (text : Term)
  | sealAnonymous (text : Term) (recipientPub ephemeral : Bytes)
  | base64 (t : Term)
  | hash (t : Term)
  /-- One of the shards of a text. -/
  | shard (p : Params) (i : ℕ) (t : Term)

namespace Term

/-- The bytes of a text. -/
def eval (L : Libs) : Term → Bytes
  | data b | name b | fileKey b | sharedKey b | chunk b => b
  | sealAES key nonce text => sealedAES L (key.eval L) nonce (text.eval L)
  | sealAnonymous text pub ephemeral => L.box.boxSeal (text.eval L) pub ephemeral
  | base64 t => Base64.encode (t.eval L)
  | hash t => hashOf (t.eval L)
  | shard p i t =>
    match p.encode L (t.eval L) with
    | .ok shards => shards[i]?.getD []
    | .error _ => []

/-- A text shows a secret outside of all seals. -/
def Shows : Term → Term → Prop
  | sealAES _ _ _, _ | sealAnonymous _ _ _, _ => False
  | base64 t, secret | hash t, secret | shard _ _ t, secret => t.Shows secret
  | t, secret => t = secret

end Term

/-- A stripe of a manifest, by its texts. -/
structure SymbolicStripe where
  index : ℤ
  shardIDs : List Term
  plaintextBytes : ℤ
  ciphertextBytes : ℤ

/-- A manifest, by its texts. -/
structure SymbolicManifest where
  fileID : Term
  groupID : Term
  filename : Term
  size : ℤ
  dataShards : ℤ
  parityShards : ℤ
  stripeDataSize : ℤ
  holders : List Term
  stripes : List SymbolicStripe
  createdAt : ℤ
  ownerPeerID : Term
  mode : Term
  wrappedKey : Term
  filenameEncrypted : Bool

/-- The stripe. -/
def SymbolicStripe.eval (L : Libs) (st : SymbolicStripe) : Stripe where
  index := st.index
  shardIDs := st.shardIDs.map (Term.eval L)
  plaintextBytes := st.plaintextBytes
  ciphertextBytes := st.ciphertextBytes

namespace SymbolicManifest

/-- The manifest. -/
def eval (L : Libs) (m : SymbolicManifest) : Manifest where
  fileID := m.fileID.eval L
  groupID := m.groupID.eval L
  filename := m.filename.eval L
  size := m.size
  dataShards := m.dataShards
  parityShards := m.parityShards
  stripeDataSize := m.stripeDataSize
  holders := m.holders.map (Term.eval L)
  stripes := m.stripes.map (SymbolicStripe.eval L)
  createdAt := m.createdAt
  ownerPeerID := m.ownerPeerID.eval L
  mode := m.mode.eval L
  wrappedKey := m.wrappedKey.eval L
  filenameEncrypted := m.filenameEncrypted

/-- All texts of a manifest. -/
def texts (m : SymbolicManifest) : List Term :=
  [m.fileID, m.groupID, m.filename, m.ownerPeerID, m.mode, m.wrappedKey] ++ m.holders ++
    m.stripes.flatMap SymbolicStripe.shardIDs

/-- A manifest shows a secret outside of all seals. -/
def Shows (m : SymbolicManifest) (secret : Term) : Prop := ∃ t ∈ m.texts, t.Shows secret

end SymbolicManifest

/-! ## The manifests that the code makes -/

section Derived

variable (L : Libs) (S : Service → Bytes → Body → PutOptions → Prop) (T : Bytes → (o : NodeOp) → o.Ans → Prop)

/-- The group of an upload was read from the store. -/
def GroupGiven (n gid : Bytes) (g : Group) : Prop :=
  (gid ≠ [] ∧ ∃ raw, T n (.storeGet (groupKey gid)) (.ok raw) ∧ L.cbor.group.unmarshal raw = .ok g) ∨
  (gid = [] ∧ ∃ pairs, T n (.storeIterate (lit "group/")) (pairs, none) ∧
    decodeValues L.cbor.group pairs = [g])

/-- The texts that `wrapForMode` makes of a key and a name. -/
inductive Wraps (svc : Service) (key filename : Bytes) (g : Group) : Bytes → Term × Term × Bool → Prop
  | inShared {nonce : { b : Bytes // b.length = gcmNonceSize }}
      (hnonce : T svc.self (.rand gcmNonceSize) (.ok nonce)) :
      Wraps svc key filename g modeShared
        (.sealAES (.sharedKey g.sharedKey) nonce.1 (.fileKey key), .name filename, false)
  | inPrivate {ephemeral : { b : Bytes // b.length = 32 }} {nonce : { b : Bytes // b.length = gcmNonceSize }}
      (hephemeral : T svc.self (.rand 32) (.ok ephemeral))
      (hnonce : T svc.self (.rand gcmNonceSize) (.ok nonce)) :
      Wraps svc key filename g modePrivate
        (.sealAnonymous (.fileKey key) svc.encPub ephemeral.1,
          .base64 (.sealAES (.fileKey key) nonce.1 (.name filename)), true)

/-- The texts that `uploadStripe` makes. -/
inductive SealsStripe (svc : Service) (key : Bytes) : SymbolicStripe → Prop
  | mk {chunk : Bytes} {nonce : { b : Bytes // b.length = gcmNonceSize }} {shards : List Bytes} (idx : ℤ)
      (hnonce : T svc.self (.rand gcmNonceSize) (.ok nonce))
      (hencode : svc.params.encode L (sealedAES L key nonce.1 chunk) = .ok shards) :
      SealsStripe svc key
        { index := idx
          shardIDs := (List.range shards.length).map fun i =>
            .hash (.shard svc.params i (.sealAES (.fileKey key) nonce.1 (.chunk chunk)))
          plaintextBytes := chunk.length
          ciphertextBytes := (sealedAES L key nonce.1 chunk).length }

/-- The manifests of the files that were uploaded, repaired and stored. -/
inductive Derived : SymbolicManifest → Prop
  | put {svc : Service} {filename : Bytes} {body : Body} {opts : PutOptions} {g : Group}
      {fid : { b : Bytes // b.length = 16 }} {key : { b : Bytes // b.length = fileKeySize }}
      {pairs : List (Bytes × Bytes)} {wrapped displayName : Term} {fnEncrypted : Bool} {t : ℤ}
      {stripes : List SymbolicStripe} (total : ℤ) (hput : S svc filename body opts)
      (hgroup : GroupGiven L T svc.self opts.groupID g) (hfid : T svc.self (.rand 16) (.ok fid))
      (hkey : T svc.self (.rand fileKeySize) (.ok key))
      (hmembers : T svc.self (.storeIterate (memberPrefix g.id)) (pairs, none))
      (hwraps : Wraps T svc key.1 filename g (if opts.mode = [] then modeShared else opts.mode)
        (wrapped, displayName, fnEncrypted))
      (hnow : T svc.self .now t) (hstripes : ∀ st ∈ stripes, SealsStripe L T svc key.1 st) :
      Derived
        { fileID := .data (hexEncode fid.1)
          groupID := .data g.id
          filename := displayName
          size := total
          dataShards := svc.params.dataShards
          parityShards := svc.params.parityShards
          stripeDataSize := svc.stripeSize
          holders := (pick (sortStrings ((decodeValues L.cbor.member pairs).map Member.peerID))
            (hexEncode fid.1)
            svc.params.total).map .data
          stripes := stripes
          createdAt := t
          ownerPeerID := .data svc.self
          mode := .data (if opts.mode = [] then modeShared else opts.mode)
          wrappedKey := wrapped
          filenameEncrypted := fnEncrypted }
  | repair {m : SymbolicManifest} {n gid : Bytes} {pairs : List (Bytes × Bytes)} {mem : Member} (slot : ℕ)
      (h : Derived m) (hmembers : T n (.storeIterate (memberPrefix gid)) (pairs, none))
      (hmem : mem ∈ decodeValues L.cbor.member pairs) :
      Derived { m with holders := m.holders.set slot (.data mem.peerID) }
  | stored {m : SymbolicManifest} (h : Derived m) : Derived { m with createdAt := wholeSeconds m.createdAt }

/-- The encoding of a derived manifest. -/
def Known (raw : Bytes) : Prop := ∃ m, Derived L S T m ∧ raw = L.cbor.manifest.marshal (m.eval L)

/-- The shards of encrypted stripes, and what is reconstructed from them. -/
inductive SealedShard : Bytes → Prop
  | cut {svc : Service} {filename : Bytes} {body : Body} {opts : PutOptions}
      {key : { b : Bytes // b.length = fileKeySize }} {nonce : { b : Bytes // b.length = gcmNonceSize }}
      {chunk sh : Bytes} {shards : List Bytes} (hput : S svc filename body opts)
      (hkey : T svc.self (.rand fileKeySize) (.ok key)) (hnonce : T svc.self (.rand gcmNonceSize) (.ok nonce))
      (hencode : svc.params.encode L (sealedAES L key.1 nonce.1 chunk) = .ok shards) (hmem : sh ∈ shards) :
      SealedShard sh
  | rebuilt {k m : ℤ} {got full : List (Option Bytes)} {sh : Bytes}
      (hgot : ∀ data, some data ∈ got → SealedShard data)
      (hfull : L.rs.reconstruct k m got = .ok full) (hmem : some sh ∈ full) : SealedShard sh

/-- The record of the name of a private file, at the node of its owner. -/
def OwnName (n fileID raw : Bytes) : Prop :=
  ∃ m filename key nonce, Derived L S T m ∧ m.mode = .data modePrivate ∧ m.ownerPeerID = .data n ∧
    m.fileID = .data fileID ∧ m.filename = .base64 (.sealAES (.fileKey key) nonce (.name filename)) ∧
    raw = L.cbor.text.marshal filename

/-- The encoding of a derived manifest, which shows no key, and no name if the file is private. -/
def Confidential (raw : Bytes) : Prop :=
  ∃ m, Derived L S T m ∧ raw = L.cbor.manifest.marshal (m.eval L) ∧ (∀ key, ¬ m.Shows (.fileKey key)) ∧
    (m.mode = .data modePrivate → ∀ filename, ¬ m.Shows (.name filename))

end Derived


section Sealed

variable {L : Libs} {S : Service → Bytes → Body → PutOptions → Prop} {T : Bytes → (o : NodeOp) → o.Ans → Prop}

/-! ## What a derived manifest shows -/

/-- Every text of a derived manifest is bytes that were given, or sealed, but for the name of a shared
file. -/
theorem Derived.text_cases {m : SymbolicManifest} (h : Derived L S T m) :
    ∀ t ∈ m.texts, (∃ b, t = .data b) ∨ (∀ secret, ¬ t.Shows secret) ∨
      (m.mode = .data modeShared ∧ ∃ filename, t = .name filename) := by
  induction h with
  | @put svc filename body opts g fid key pairs wrapped displayName fnEncrypted t stripes
    total hput hgroup hfid hkey
      hmembers hwraps hnow hstripes =>
    have hids : ∀ st ∈ stripes, ∀ id ∈ st.shardIDs, ∀ secret, ¬ id.Shows secret := by
      intro st hst id hid secret
      obtain ⟨idx, hnonce, hencode⟩ := hstripes st hst
      obtain ⟨i, -, rfl⟩ := List.mem_map.mp hid
      exact not_false
    have hwrapped : (∀ secret, ¬ wrapped.Shows secret) ∧ ((∀ secret, ¬ displayName.Shows secret) ∨
        (if opts.mode = [] then modeShared else opts.mode) = modeShared ∧ displayName = .name filename) := by
      generalize (if opts.mode = [] then modeShared else opts.mode) = mode at hwraps
      cases hwraps with
      | inShared hnonce => exact ⟨fun _ => not_false, .inr ⟨rfl, rfl⟩⟩
      | inPrivate hephemeral hnonce => exact ⟨fun _ => not_false, .inl fun _ => not_false⟩
    intro text htext
    simp only [SymbolicManifest.texts, List.mem_append, List.mem_cons, List.not_mem_nil,
      or_false, List.mem_flatMap,
      List.mem_map] at htext
    rcases htext with ((rfl | rfl | rfl | rfl | rfl | rfl) | ⟨b, -, rfl⟩) | ⟨st, hst, hid⟩
    · exact .inl ⟨_, rfl⟩
    · exact .inl ⟨_, rfl⟩
    · rcases hwrapped.2 with hsealed | ⟨hmode, rfl⟩
      · exact .inr (.inl hsealed)
      · exact .inr (.inr ⟨by rw [hmode], filename, rfl⟩)
    · exact .inl ⟨_, rfl⟩
    · exact .inl ⟨_, rfl⟩
    · exact .inr (.inl hwrapped.1)
    · exact .inl ⟨b, rfl⟩
    · exact .inr (.inl (hids st hst text hid))
  | @repair m n gid pairs mem slot h hmembers hmem ih =>
    intro text htext
    simp only [SymbolicManifest.texts, List.mem_append] at htext
    rcases htext with (htext | htext) | htext
    · exact ih text (by simp only [SymbolicManifest.texts, List.mem_append]; exact .inl (.inl htext))
    · rcases List.mem_or_eq_of_mem_set htext with htext | rfl
      · exact ih text (by simp only [SymbolicManifest.texts, List.mem_append]; exact .inl (.inr htext))
      · exact .inl ⟨_, rfl⟩
    · exact ih text (by simp only [SymbolicManifest.texts, List.mem_append]; exact .inr htext)
  | stored h ih => exact ih

/-- A derived manifest shows no key, and no name if the file is private. -/
theorem Known.confidential {raw : Bytes} (h : Known L S T raw) : Confidential L S T raw := by
  obtain ⟨m, hm, rfl⟩ := h
  refine ⟨m, hm, rfl, ?_, ?_⟩
  · rintro key ⟨t, ht, hshows⟩
    rcases hm.text_cases t ht with ⟨b, rfl⟩ | hsealed | ⟨-, filename, rfl⟩
    · exact Term.noConfusion hshows
    · exact hsealed _ hshows
    · exact Term.noConfusion hshows
  · rintro hmode filename ⟨t, ht, hshows⟩
    rcases hm.text_cases t ht with ⟨b, rfl⟩ | hsealed | ⟨hshared, -⟩
    · exact Term.noConfusion hshows
    · exact hsealed _ hshows
    · exact absurd (Term.data.inj (hmode.symm.trans hshared)) (by decide)

/-- The ids of the shards of a derived manifest are hashes. -/
theorem Derived.isShardID {m : SymbolicManifest} (h : Derived L S T m) :
    ∀ st ∈ (m.eval L).stripes, ∀ id ∈ st.shardIDs, isShardID id = true := by
  induction h with
  | put total hput hgroup hfid hkey hmembers hwraps hnow hstripes =>
    intro st hst id hid
    obtain ⟨st, hmem, rfl⟩ := List.mem_map.mp hst
    obtain ⟨idx, hnonce, hencode⟩ := hstripes st hmem
    obtain ⟨t, ht, rfl⟩ := List.mem_map.mp hid
    obtain ⟨i, -, rfl⟩ := List.mem_map.mp ht
    exact isShardID_hashOf _
  | repair slot h hmembers hmem ih => exact ih
  | stored h ih => exact ih

/-- What is decoded from a derived manifest is derived. -/
theorem Known.decoded (hC : L.cbor.Lawful) {raw : Bytes} {m : Manifest} (h : Known L S T raw)
    (hdec : L.cbor.manifest.unmarshal raw = .ok m) : ∃ sm, Derived L S T sm ∧ m = sm.eval L := by
  obtain ⟨sm, hsm, rfl⟩ := h
  exact ⟨_, .stored hsm, hC.manifest.eq_norm hdec⟩

/-- A known manifest is known when it is stored anew. -/
theorem restorable_known (hC : L.cbor.Lawful) : Restorable L (Known L S T) := by
  intro raw m hraw hdec
  obtain ⟨sm, hsm, rfl⟩ := hraw.decoded hC hdec
  exact ⟨sm, hsm, rfl⟩

/-- What is reconstructed from shards of encrypted stripes is one. -/
theorem rebuildable_sealedShard : Rebuildable L (SealedShard L S T) :=
  fun _ _ _ _ hgot hfull _ hmem => .rebuilt hgot hfull hmem

end Sealed

/-! ## An upload, text by text -/

section Upload

variable {L : Libs} {S : Service → Bytes → Body → PutOptions → Prop} {T : Bytes → (o : NodeOp) → o.Ans → Prop}
  {E : Env NodeSig Cluster} {svc : Service}
  (hE : Relaying L (Known L S T) (SealedShard L S T) E svc.self)
  (hT : ∀ w o r w', E.step w o r w' → T svc.self o r)
variable {filename : Bytes} {opts : PutOptions}
include hE hT

/-- Random bytes are those that were drawn. -/
theorem secret_randRead (k : ℕ) (w : Cluster) :
    wp E (randRead k) (onOk fun b _ => T svc.self (.rand k) (.ok b)) w := by
  refine ⟨hE.guard w _ ⟨by simp, trivial⟩, ?_⟩
  rintro (e | b) w' hs
  · trivial
  · exact hT _ _ _ _ hs

/-- A nonce is drawn and used. -/
theorem secret_sealAES (key text : Bytes) (w : Cluster) :
    wp E (sealAES L key text) (onOk fun ct _ => ∃ nonce : { b : Bytes // b.length = gcmNonceSize },
      T svc.self (.rand gcmNonceSize) (.ok nonce) ∧ ct = sealedAES L key nonce.1 text) w := by
  unfold sealAES
  split_ifs
  · trivial
  · refine wp_bind_onOk (secret_randRead hE hT _ w) ?_
    intro nonce w' hnonce
    exact ⟨nonce, hnonce, rfl⟩

/-- The group is read. -/
theorem secret_resolveGroup (gid : Bytes) (w : Cluster) :
    wp E (resolveGroup L gid) (onOk fun g _ => GroupGiven L T svc.self gid g) w := by
  unfold resolveGroup
  split_ifs with hgid
  · unfold loadByID storeGet
    rw [wp_bind, wp_attempt]
    refine ⟨hE.guard w _ ⟨by simp, trivial⟩, ?_⟩
    rintro (e | raw) w' hs
    · simp only [bind_eq, ret_bind, ofExcept_error, wp_fail, andThen_ok]
      split_ifs <;> trivial
    · simp only [bind_eq, ret_bind, ofExcept_ok, wp_ret, andThen_ok, wp_ofExcept]
      cases hdec : L.cbor.group.unmarshal raw with
      | error e => trivial
      | ok g => exact .inl ⟨hgid, raw, hT _ _ _ _ hs, hdec⟩
  · refine ⟨hE.guard w _ ⟨by simp, trivial⟩, ?_⟩
    rintro ⟨pairs, err⟩ w' hs
    simp only [bind_eq, ret_bind, pure_eq]
    split
    · trivial
    · trivial
    · rename_i g heq
      obtain ⟨hlist, rfl⟩ := Prod.mk.inj heq
      exact .inr ⟨not_not.mp hgid, pairs, hT _ _ _ _ hs, hlist⟩
    · trivial

/-- The members are read. -/
theorem secret_groupMemberIDs (gid : Bytes) (w : Cluster) :
    wp E (groupMemberIDs L gid) (onOk fun ids _ => ∃ pairs,
      T svc.self (.storeIterate (memberPrefix gid)) (pairs, none) ∧
      ids = sortStrings ((decodeValues L.cbor.member pairs).map Member.peerID)) w := by
  unfold groupMemberIDs listMembers
  refine ⟨hE.guard w _ ⟨by simp, trivial⟩, ?_⟩
  rintro ⟨pairs, err⟩ w' hs
  cases err with
  | some e => trivial
  | none => exact ⟨pairs, hT _ _ _ _ hs, rfl⟩

/-- The key is wrapped, and the name of a private file encrypted. -/
theorem secret_wrapForMode (mode key filename : Bytes) (g : Group) (w : Cluster) :
    wp E (wrapForMode L svc mode key filename g)
      (onOk fun r _ => ∃ wrapped displayName, Wraps T svc key filename g mode (wrapped, displayName, r.2.2) ∧
        r.1 = wrapped.eval L ∧ r.2.1 = displayName.eval L) w := by
  unfold wrapForMode
  split_ifs with hshared hlen hprivate hpub
  · trivial
  · subst hshared
    refine wp_bind_onOk (secret_sealAES hE hT _ _ w) ?_
    rintro ct w' ⟨nonce, hnonce, rfl⟩
    exact ⟨_, _, .inShared hnonce, rfl, rfl⟩
  · trivial
  · subst hprivate
    unfold sealAnonymous
    rw [if_neg (not_not.mpr (not_not.mp hpub)), bind_assoc]
    refine wp_bind_onOk (secret_randRead hE hT _ w) ?_
    intro ephemeral w₁ hephemeral
    simp only [pure_eq, ret_bind]
    refine wp_bind_onOk (secret_sealAES hE hT _ _ w₁) ?_
    rintro ct w₂ ⟨nonce, hnonce, rfl⟩
    exact ⟨_, _, .inPrivate hephemeral hnonce, rfl, rfl⟩
  · trivial

omit hT in
/-- A shard of an encrypted stripe is shipped: it is stored, sent or put in the spool, and named by its
hash. -/
theorem secret_shipShard (holders : List Bytes) (i : ℕ) {sh : Bytes} (hsh : SealedShard L S T sh)
    (w : Cluster) : wp E (shipShard L svc holders i sh) (onOk fun id _ => id = hashOf sh) w := by
  unfold shipShard
  refine wp_bind_onOk (P := fun _ _ => True) ?_ ?_
  · cases holders[i]? with
    | some h => trivial
    | none => exact ⟨hE.guard w _ ⟨by simp, trivial⟩, fun r => Empty.elim r⟩
  intro holder w₁ _
  by_cases hself : holder = svc.self
  · rw [if_pos hself]
    refine ⟨hE.guard w₁ _ ⟨by simp, hsh⟩, ?_⟩
    rintro (e | u) w₂ -
    · trivial
    · exact rfl
  rw [if_neg hself]
  cases L.peerDecode holder with
  | error e => trivial
  | ok pid =>
    have hsend : (putShardOnPeer pid (hashOf sh) sh).Only (Passes (Known L S T) (SealedShard L S T)) :=
      only_putShardOnPeer ⟨by simp, hsh⟩ fun _ _ _ => ⟨by simp, trivial⟩
    simp only [wp_bind, wp_attempt]
    refine wp_mono (hE.only hsend w₁) ?_
    rintro (e | u) w₂ -
    · simp only [andThen_ok]
      by_cases hspool : svc.spool = true
      · rw [if_pos hspool]
        refine ⟨hE.guard w₂ _ ⟨by simp, hsh⟩, ?_⟩
        rintro (e' | u) w₃ -
        · trivial
        · simp only [bind_eq, ret_bind, pure_eq]
          exact wp_bind_of (hE.only (only_slice12 ⟨by simp, trivial⟩ _) w₃) (fun _ _ _ => rfl)
            fun _ _ _ => trivial
      · rw [if_neg hspool]
        trivial
    · exact rfl

omit hT in
/-- The shards of an encrypted stripe are shipped. -/
theorem secret_shipShards (holders : List Bytes) (i : ℕ) {shs : List Bytes}
    (hshs : ∀ sh ∈ shs, SealedShard L S T sh) (w : Cluster) :
    wp E (shipShards L svc holders i shs) (onOk fun ids _ => ids = shs.map hashOf) w := by
  induction shs generalizing i w with
  | nil => exact rfl
  | cons sh rest ih =>
    refine wp_bind_onOk (secret_shipShard hE holders i (hshs sh List.mem_cons_self) w) ?_
    rintro id w₁ rfl
    refine wp_bind_onOk (ih (i + 1) (fun sh hsh => hshs sh (List.mem_cons_of_mem _ hsh)) w₁) ?_
    rintro ids w₂ rfl
    exact rfl

omit hE hT in
/-- The ids of the shards of a text, one by one. -/
theorem map_range_hashOf (shards : List Bytes) :
    (List.range shards.length).map (fun i => hashOf (shards[i]?.getD [])) = shards.map hashOf := by
  apply List.ext_getElem
  · simp
  · intro i hi hi'
    simp at hi
    simp [hi]

/-- A stripe is encrypted, encoded and shipped. -/
theorem secret_uploadStripe {body : Body} (hput : S svc filename body opts)
    {key : { b : Bytes // b.length = fileKeySize }} (hkey : T svc.self (.rand fileKeySize) (.ok key))
    (holders : List Bytes) (idx : ℕ) (plaintext : Bytes) (w : Cluster) :
    wp E (uploadStripe L svc key.1 holders idx plaintext)
      (onOk fun st _ => ∃ sst, SealsStripe L T svc key.1 sst ∧ st = sst.eval L) w := by
  unfold uploadStripe
  refine wp_bind_onOk (wp_mapErr_onOk (secret_sealAES hE hT key.1 plaintext w)) ?_
  rintro ct w₁ ⟨nonce, hnonce, rfl⟩
  cases hencode : svc.params.encode L (sealedAES L key.1 nonce.1 plaintext) with
  | error e => trivial
  | ok shards =>
    rw [show (Except.ok shards).mapError (GoErr.wrap (lit "ec encode: ")) = .ok shards from rfl, ofExcept_ok,
      ret_bind]
    refine wp_bind_onOk (secret_shipShards hE holders 0 (fun sh hsh => .cut hput hkey hnonce hencode hsh) w₁)
      ?_
    rintro ids w₂ rfl
    refine ⟨_, .mk idx hnonce hencode, ?_⟩
    have hids : ∀ i, Term.eval L
        (.hash (.shard svc.params i (.sealAES (.fileKey key.1) nonce.1 (.chunk plaintext)))) =
        hashOf (shards[i]?.getD []) := by
      intro i
      simp only [Term.eval, hencode]
    simp only [SymbolicStripe.eval, List.map_map, Function.comp_def, hids, map_range_hashOf]

/-- The stripes of a body are. -/
theorem secret_putLoop {body₀ : Body} (hput : S svc filename body₀ opts)
    {key : { b : Bytes // b.length = fileKeySize }} (hkey : T svc.self (.rand fileKeySize) (.ok key))
    (holders : List Bytes) (body : Body) (idx : ℕ) (sts : List SymbolicStripe)
    (hsts : ∀ st ∈ sts, SealsStripe L T svc key.1 st) (total : ℤ) (w : Cluster) :
    wp E (putLoop L svc key.1 holders body idx (sts.map (SymbolicStripe.eval L)) total)
      (onOk fun r _ => ∃ all : List SymbolicStripe, (∀ st ∈ all, SealsStripe L T svc key.1 st) ∧
        r.1 = all.map (SymbolicStripe.eval L)) w := by
  have hstripe := fun chunk idx w => wp_mapErr_onOk
    (f := GoErr.wrap (lit "stripe " ++ fmtNat idx ++ lit ": "))
    (secret_uploadStripe hE hT hput hkey holders idx chunk w)
  have hadd : ∀ sst, SealsStripe L T svc key.1 sst → ∀ st ∈ sts ++ [sst], SealsStripe L T svc key.1 st := by
    intro sst hsst st hst
    rcases List.mem_append.mp hst with hst | hst
    · exact hsts st hst
    · rw [List.mem_singleton.mp hst]
      exact hsst
  -- The induction is on the length of what is still to be read.
  induction hn : body.data.length using Nat.strongRecOn generalizing body idx sts total w with
  | ind k ih =>
    have hpos := svc.stripeSize_pos
    by_cases hle : svc.stripeSize ≤ body.data.length
    · obtain ⟨body', hdata, -, hturn⟩ :=
        putLoop_of_le L key.1 holders idx (sts.map (SymbolicStripe.eval L)) total hle
      rw [hturn]
      refine wp_bind_onOk (hstripe _ idx w) ?_
      rintro st w₁ ⟨sst, hsst, rfl⟩
      have hlt : body'.data.length < k := by
        rw [hdata, List.length_drop]
        omega
      have hmap : sts.map (SymbolicStripe.eval L) ++ [sst.eval L] = (sts ++ [sst]).map
          (SymbolicStripe.eval L) := by
        rw [List.map_append]
        rfl
      rw [hmap]
      refine ih _ hlt body' (idx + 1) (sts ++ [sst]) (hadd sst hsst) _ w₁ ?_ rfl
      intro sst' hsst' st hst
      rcases List.mem_append.mp hst with hst | hst
      · exact hadd sst hsst st hst
      · rw [List.mem_singleton.mp hst]
        exact hsst'
    · rw [putLoop_of_lt (by omega)]
      split_ifs
      · exact ⟨sts, hsts, rfl⟩
      · refine wp_bind_onOk (hstripe _ idx w) ?_
        rintro st w₁ ⟨sst, hsst, rfl⟩
        refine ⟨sts ++ [sst], hadd sst hsst, ?_⟩
        rw [List.map_append]
        rfl
      · exact wp_bind_onOk (hstripe _ idx w) fun _ _ _ => trivial

/-- The manifest that is assembled is a derived one, made by the node, and has the name of a private file
encrypted. -/
theorem secret_assemble {body : Body} (hput : S svc filename body opts)
    (w : Cluster) :
    wp E (assemble L svc filename body opts)
      (onOk fun m _ => ∃ sm, Derived L S T sm ∧ m = sm.eval L ∧ sm.fileID = .data m.fileID ∧
        sm.ownerPeerID = .data svc.self ∧ (m.mode = modePrivate → sm.mode = .data modePrivate ∧
          ∃ key nonce, sm.filename = .base64 (.sealAES (.fileKey key) nonce (.name filename)))) w := by
  unfold assemble
  refine wp_bind_onOk (secret_resolveGroup hE hT opts.groupID w) ?_
  intro g w₁ hg
  extract_lets mode
  split_ifs
  · trivial
  refine wp_bind_onOk (secret_randRead hE hT 16 w₁) ?_
  intro fid w₂ hfid
  refine wp_bind_onOk (secret_randRead hE hT fileKeySize w₂) ?_
  intro key w₃ hkey
  refine wp_bind_onOk (secret_groupMemberIDs hE hT g.id w₃) ?_
  rintro ids w₄ ⟨pairs, hpairs, rfl⟩
  split_ifs
  · exact wp_bind_of (hE.only (only_slice12 ⟨by simp, trivial⟩ _) w₄) (fun _ _ _ => trivial)
      fun _ _ _ => trivial
  refine wp_bind_onOk (secret_wrapForMode hE hT mode key.1 filename g w₄) ?_
  rintro ⟨wrappedKey, shownName, fnEncrypted⟩ w₅ ⟨wrapped, displayName, hwraps, rfl, rfl⟩
  refine wp_bind_onOk (P := fun t _ => T svc.self .now t) ?_ ?_
  · exact ⟨hE.guard w₅ _ ⟨by simp, trivial⟩, fun t w' hs => hT _ _ _ _ hs⟩
  intro t w₆ ht
  refine wp_bind_onOk (secret_putLoop hE hT hput hkey _ body 0 [] (by simp) 0 w₆) ?_
  rintro ⟨stripes, total⟩ w₇ ⟨all, hall, rfl⟩
  simp only
  split_ifs
  · trivial
  · refine ⟨_, .put total hput hg hfid hkey hpairs hwraps ht hall, ?_, rfl, rfl, ?_⟩
    · simp only [SymbolicManifest.eval, List.map_map, Function.comp_def, Term.eval, List.map_id']
      rfl
    · intro hmode
      refine ⟨congrArg Term.data hmode, key.1, ?_⟩
      have hmode' : mode = modePrivate := hmode
      rw [hmode'] at hwraps
      cases hwraps with
      | inPrivate hephemeral hnonce => exact ⟨_, rfl⟩

end Upload

/-! ## The nodes -/

section Nodes

variable (L : Libs) (S : Service → Bytes → Body → PutOptions → Prop) (T : Bytes → (o : NodeOp) → o.Ans → Prop)

/-- The programs that run at a node. What a listing or a reader returns goes to a local caller. -/
inductive Handles : Bytes → NodeM Unit → Prop
  | runs {n : Bytes} {p : NodeM Unit} (h : RunsAt L S (fun _ _ => True) n p) : Handles n p
  | list (svc : Service) : Handles svc.self (listFiles L svc >>= fun _ => ret ())
  | openReader (svc : Service) (fileID : Bytes) : Handles svc.self
    (openReader L svc fileID >>= fun _ => ret ())

/-- The nodes with these programs, in the runs with the uploads `S` in which every operation of a node has an
answer in `T`. By themselves nodes serve requests that are under way, and store records that are neither
manifests nor names: groups, members, the ledger. -/
def handling : System NodeSig Cluster Bytes GoErr Unit where
  exec n w o r w' := T n o r ∧ Cluster.exec L n w o r w'
  start := Handles L S
  drift w w' :=
    (∃ x ∈ w.flight, ∃ resp v, Served L w x.1 x.2.1 x.2.2 resp v ∧
      w' = { v with flight := v.flight.erase x }) ∨
    ∃ n key raw, ¬ manifestPrefix <+: key ∧ ¬ lit "pname/" <+: key ∧ w' = w.set n ((w.node n).putKey key raw)

/-- Manifests and shards are as the code makes them, and the names of private files are at their owners. -/
structure Guarded (w : Cluster) : Prop where
  copies : Copies L (Known L S T) (SealedShard L S T) w
  names : ∀ n fileID raw, (w.node n).store.get (pnameKey fileID) = some raw → OwnName L S T n fileID raw

/-- An operation that stores manifests and names only, and hands over what the code makes. -/
def Proper (o : NodeOp) : Prop :=
  (∀ key raw, o = .storePut key raw → manifestPrefix <+: key ∨ lit "pname/" <+: key) ∧
    Relays (Known L S T) (SealedShard L S T) o

/-- The environment of a program at the node `n`, among all others. -/
abbrev guarding (n : Bytes) : Env NodeSig Cluster := (handling L S T).inside (Guarded L S T) (Proper L S T) n

end Nodes

section Steps

variable {L : Libs} {S : Service → Bytes → Body → PutOptions → Prop} {T : Bytes → (o : NodeOp) → o.Ans → Prop}
  {w w' : Cluster} {n k key raw : Bytes}

/-- Serving a request changes no record but manifests. -/
theorem Served.get_other {pid : Bytes} {req : Request} {resp : Response} (h : Served L w n pid req resp w')
    (hkey : ¬ manifestPrefix <+: key) : (w'.node k).store.get key = (w.node k).store.get key := by
  obtain ⟨s', rfl, hchange⟩ := h.change
  by_cases hk : k = pid
  · subst hk
    rw [Cluster.node_set_self]
    rcases hchange with ⟨rfl, -⟩ | ⟨-, -, rfl⟩ | ⟨-, m, -, rfl⟩
    · rfl
    · rfl
    · refine SortedMap.get_put_ne _ ?_ _
      rintro rfl
      exact hkey (List.prefix_append _ _)
  · rw [Cluster.node_set_ne _ _ hk]

/-- A record that is no manifest is stored by an operation of its own node. -/
theorem get_other_of_exec {o : NodeOp} {r : o.Ans} (hs : Cluster.exec L n w o r w')
    (hkey : ¬ manifestPrefix <+: key) (hget : (w'.node k).store.get key = some raw) :
    (w.node k).store.get key = some raw ∨ (k = n ∧ o = .storePut key raw) := by
  have hlocal : ∀ s', (w.node n).step o r s' → w' = w.set n s' →
      (w.node k).store.get key = some raw ∨ (k = n ∧ o = .storePut key raw) := by
    rintro s' hstep rfl
    by_cases hk : k = n
    · subst hk
      rw [Cluster.node_set_self] at hget
      rcases NodeState.step_cases hstep with rfl | ⟨key', value, he, rfl⟩ |
        ⟨_, _, -, -, rfl⟩ | ⟨_, _, -, rfl⟩ |
        ⟨_, -, rfl⟩
      · exact .inl hget
      · unfold NodeState.putKey at hget
        by_cases heq : key = key'
        · subst heq
          rw [SortedMap.get_put_self] at hget
          obtain ⟨rfl, -⟩ := Event.mk.inj he
          exact .inr ⟨rfl, by rw [Option.some.inj hget]⟩
        · rw [SortedMap.get_put_ne _ heq] at hget
          exact .inl hget
      · exact .inl hget
      · exact .inl hget
      · exact .inl hget
    · rw [Cluster.node_set_ne _ _ hk] at hget
      exact .inl hget
  cases o with
  | request pid req =>
    rcases hs with ⟨-, rfl⟩ | ⟨resp, hserved, -⟩ | ⟨-, rfl⟩
    · exact .inl hget
    · rw [hserved.get_other hkey] at hget
      exact .inl hget
    · exact .inl hget
  | _ =>
    obtain ⟨s', hstep, hw⟩ := hs
    exact hlocal s' hstep hw

/-- Nothing is there yet. -/
theorem guarded_fresh : Guarded L S T .fresh := by
  refine ⟨copies_fresh, ?_⟩
  intro n fileID raw h
  exact absurd h (by simp [Cluster.fresh, NodeState.fresh])

/-- What happens by itself. -/
theorem Guarded.drift (hC : L.cbor.Lawful) (h : Guarded L S T w) (hd : (handling L S T).drift w w') :
    Guarded L S T w' := by
  rcases hd with ⟨x, hx, resp, v, hserved, rfl⟩ | ⟨k, key, raw, hmanifest, hname, rfl⟩
  · refine ⟨h.copies.arrive hC (restorable_known hC) hx hserved, ?_⟩
    intro n fileID raw hget
    refine h.names n fileID raw ?_
    rw [← hserved.get_other (not_prefix_pnameKey fileID)]
    exact hget
  · refine ⟨h.copies.putKey (filedAs_other hmanifest raw), ?_⟩
    intro n fileID raw' hget
    refine h.names n fileID raw' ?_
    by_cases hn : n = k
    · subst hn
      rw [Cluster.node_set_self] at hget
      have hne : pnameKey fileID ≠ key := by
        rintro rfl
        exact hname (List.prefix_append _ _)
      rwa [NodeState.putKey, SortedMap.get_put_ne _ hne] at hget
    · rwa [Cluster.node_set_ne _ _ hn] at hget

/-- A step of a program that stores manifests and own names. -/
theorem Guarded.exec (hC : L.cbor.Lawful) (h : Guarded L S T w) {o : NodeOp} {r : o.Ans}
    (hstores : StoresOnly L (Known L S T) o) (hrelays : Relays (Known L S T) (SealedShard L S T) o)
    (hnames : ∀ fileID raw, o = .storePut (pnameKey fileID) raw → OwnName L S T n fileID raw)
    (hs : Cluster.exec L n w o r w') : Guarded L S T w' := by
  refine ⟨h.copies.exec hC (restorable_known hC) hstores hrelays hs, ?_⟩
  intro k fileID raw hget
  rcases get_other_of_exec hs (not_prefix_pnameKey fileID) hget with hget | ⟨rfl, ho⟩
  · exact h.names k fileID raw hget
  · exact hnames fileID raw ho

/-! ## The programs -/

/-- Among such nodes, a program can count on what it reads. -/
theorem relaying_guarding (hC : L.cbor.Lawful) :
    Relaying L (Known L S T) (SealedShard L S T) (guarding L S T n) n where
  guard w o ho := by
    refine ⟨⟨fun key raw h => absurd h (ho.1 key raw), ho.2⟩, ?_⟩
    rintro v r w' hv ⟨-, hexec⟩
    exact hv.exec hC (fun key raw h => absurd h (ho.1 key raw)) ho.2 (fun _ _ h => absurd h (ho.1 _ _)) hexec
  step := by
    rintro w o r w' ⟨v, hv, -, hexec⟩
    exact ⟨v, hv.copies, hexec⟩

/-- A derived manifest may be stored. -/
theorem storable_guarding (hC : L.cbor.Lawful) {m : Manifest} (hm : Known L S T (L.cbor.manifest.marshal m)) :
    Storable L (Known L S T) (guarding L S T n) m where
  guard w := by
    refine ⟨⟨?_, trivial⟩, ?_⟩
    · intro key raw h
      obtain ⟨rfl, -⟩ := NodeOp.storePut.inj h
      exact .inl (List.prefix_append _ _)
    · rintro v r w' hv ⟨-, hexec⟩
      refine hv.exec (o := .storePut (manifestKey m.fileID) (L.cbor.manifest.marshal m))
        hC ?_ trivial ?_ hexec
      · intro key raw h
        obtain ⟨rfl, rfl⟩ := NodeOp.storePut.inj h
        exact filedAs_marshal hC hm
      · intro fileID raw h
        exact absurd (NodeOp.storePut.inj h).1 (manifestKey_ne_pnameKey _ _)
  right _ _ _ _ := hm

/-- The owner may keep the name. -/
theorem guarding_name (hC : L.cbor.Lawful) {fileID : Bytes} (hname : OwnName L S T n fileID raw)
    (w : Cluster) : (guarding L S T n).guard w (.storePut (pnameKey fileID) raw) := by
  refine ⟨⟨?_, trivial⟩, ?_⟩
  · intro key raw' h
    obtain ⟨rfl, -⟩ := NodeOp.storePut.inj h
    exact .inr (List.prefix_append _ _)
  · rintro v r w' hv ⟨-, hexec⟩
    refine hv.exec (o := .storePut (pnameKey fileID) raw) hC ?_ trivial ?_ hexec
    · intro key raw' h
      obtain ⟨rfl, -⟩ := NodeOp.storePut.inj h
      exact filedAs_other (not_prefix_pnameKey fileID) _
    · intro fileID' raw' h
      obtain ⟨hkey, rfl⟩ := NodeOp.storePut.inj h
      obtain rfl : fileID = fileID' := List.append_cancel_left hkey
      exact hname

/-- An upload. -/
theorem guarding_put (hC : L.cbor.Lawful) {svc : Service} {filename : Bytes} {body : Body} {opts : PutOptions}
    (hput : S svc filename body opts) (w : Cluster) :
    wp (guarding L S T svc.self) (put L svc filename body opts) (fun _ _ => True) w := by
  have hE := relaying_guarding (L := L) (S := S) (T := T) (n := svc.self) hC
  have hT : ∀ w o r w', (guarding L S T svc.self).step w o r w' → T svc.self o r := by
    rintro w o r w' ⟨v, -, hTo, -⟩
    exact hTo
  rw [put_eq]
  refine wp_bind_of (secret_assemble hE hT hput w) ?_ fun _ _ _ => trivial
  rintro m w₁ ⟨sm, hsm, hm, hid, howner, hprivate⟩
  have hknown : Known L S T (L.cbor.manifest.marshal m) := ⟨sm, hsm, by rw [hm]⟩
  refine wp_bind_of (hE.publish svc (storable_guarding hC hknown) ?_ w₁) (fun _ _ _ => trivial)
    fun _ _ _ => trivial
  intro hmode _ w
  obtain ⟨hsmode, key, nonce, hname⟩ := hprivate hmode
  exact guarding_name hC ⟨sm, filename, key, nonce, hsm, hsmode, howner, hid, hname, rfl⟩ w

/-- What a peer sends as a manifest is one that it has stored. -/
theorem guarding_fetchManifestFrom (hC : L.cbor.Lawful) (svc : Service) (fileID : Bytes) (mems : List Member)
    (w : Cluster) :
    wp (guarding L S T n) (fetchManifestFrom L svc fileID mems)
      (onOk fun m _ => Known L S T (L.cbor.manifest.marshal m)) w := by
  have hE := relaying_guarding (L := L) (S := S) (T := T) (n := n) hC
  induction mems generalizing w with
  | nil => trivial
  | cons mem rest ih =>
    unfold fetchManifestFrom
    split_ifs
    · exact ih w
    cases L.peerDecode mem.peerID with
    | error e => exact ih w
    | ok pid =>
      simp only [wp_bind, wp_attempt]
      refine wp_getManifestFromPeer_of (hE.guard w _ ⟨by simp, trivial⟩) ?_ fun _ w₁ _ _ => ih w₁
      intro resp w₁ m hs hok hdec
      obtain ⟨v, hv, hexec⟩ := hE.step _ _ _ _ hs
      obtain ⟨m', hm', hbody⟩ := answers_of_exec hexec hok
      obtain ⟨-, raw, hraw, hdec'⟩ := hv.manifest hm'
      refine restorable_known hC resp.body m ?_ hdec
      rw [hbody]
      exact restorable_known hC raw m' hraw hdec'

/-- A manifest that is fetched is known. -/
theorem guarding_fetchManifest (hC : L.cbor.Lawful) (svc : Service) (fileID : Bytes) (w : Cluster) :
    wp (guarding L S T n) (fetchManifest L svc fileID)
      (onOk fun m _ => Known L S T (L.cbor.manifest.marshal m)) w := by
  have hE := relaying_guarding (L := L) (S := S) (T := T) (n := n) hC
  unfold fetchManifest allMembersAcrossGroups
  refine wp_bind_onOk (P := fun _ _ => True) ?_ fun mems w₁ _ => guarding_fetchManifestFrom hC svc
    fileID mems w₁
  refine ⟨hE.guard w _ ⟨by simp, trivial⟩, ?_⟩
  rintro ⟨pairs, err⟩ w₁ -
  cases err with
  | some e => trivial
  | none => exact ⟨hE.guard w₁ _ ⟨by simp, trivial⟩, fun _ _ _ => trivial⟩

/-- A program that only reads may run. -/
theorem guarding_of_reads (hC : L.cbor.Lawful) {α : Type} {p : NodeM α} (hp : p.Only Reads) (w : Cluster) :
    wp (guarding L S T n) p (fun _ _ => True) w := by
  refine (relaying_guarding hC).only (hp.mono ?_) w
  rintro o (⟨key, rfl⟩ | ⟨pre, rfl⟩)
  · exact ⟨by simp, trivial⟩
  · exact ⟨by simp, trivial⟩

/-- The record under a key is read and decoded. -/
theorem only_lookup {α : Type} (c : Codec α) (key : Bytes) (e' : GoErr) :
    (do match ← (attempt (storeGet key) : NodeM (Except GoErr Bytes)) with
        | .error e => if e = errStoreNotFound then fail e' else fail e
        | .ok raw => ofExcept (c.unmarshal raw) : NodeM α).Only Reads := by
  refine only_bind (only_attempt ⟨.inl ⟨_, rfl⟩, fun _ => only_ofExcept _⟩) fun r => ?_
  cases r with
  | error e =>
    simp only
    split_ifs <;> trivial
  | ok raw => exact only_ofExcept _

/-- A manifest that is not there is stored as it was sent. -/
theorem guarding_findManifest (hC : L.cbor.Lawful) (svc : Service) (fileID : Bytes) (w : Cluster) :
    wp (guarding L S T n) (findManifest L svc fileID) (fun _ _ => True) w := by
  unfold findManifest
  rw [wp_bind, wp_attempt]
  refine wp_mono (guarding_of_reads hC
    (only_lookup L.cbor.manifest (manifestKey fileID) errManifestNotFound) w) ?_
  rintro (e | m) w₁ -
  · simp only [andThen_ok]
    split_ifs
    · refine wp_bind_of (guarding_fetchManifest hC svc fileID w₁) ?_ fun _ _ _ => trivial
      intro m w₂ hm
      exact ⟨(storable_guarding hC hm).guard w₂, fun _ _ _ => by
        simp only [bind_eq, ret_bind, wp_bind, wp_attempt, wp_ofExcept]
        trivial⟩
    · trivial
  · trivial

/-- `OpenReader` stores the manifest as it was sent, before it decrypts the name. -/
theorem guarding_openReader (hC : L.cbor.Lawful) (svc : Service) (fileID : Bytes) (w : Cluster) :
    wp (guarding L S T n) (openReader L svc fileID) (fun _ _ => True) w := by
  unfold openReader
  refine wp_bind_of (guarding_findManifest hC svc fileID w) ?_ fun _ _ _ => trivial
  intro m w₁ _
  rw [wp_bind, wp_attempt]
  refine wp_mono (guarding_of_reads hC (only_lookup L.cbor.group (groupKey m.groupID) errNoGroup) w₁) ?_
  rintro (e | g) w₂ -
  · trivial
  · simp only [andThen_ok]
    cases unwrapForMode L svc m g with
    | error e => trivial
    | ok key => trivial

/-- What every program does in its turn keeps all that. -/
theorem guarded_of_reach (hC : L.cbor.Lawful) {ps : List (Bytes × NodeM Unit)}
    (h : (handling L S T).Reach .fresh w ps) :
    Guarded L S T w ∧ ∀ np ∈ ps, wp (guarding L S T np.1) np.2 (fun _ _ => True) w := by
  have hE := fun n => relaying_guarding (L := L) (S := S) (T := T) (n := n) hC
  refine h.invariant guarded_fresh (fun _ _ hI hd => hI.drift hC hd) ?_
  intro n p v hstart
  cases hstart with
  | list svc =>
    exact guarding_of_reads hC (only_bind (f := fun _ => ret ()) only_listFiles fun _ => trivial) v
  | openReader svc fileID =>
    exact wp_bind_of (guarding_openReader hC svc fileID v) (fun _ _ _ => trivial) fun _ _ _ => trivial
  | runs hruns =>
    cases hruns with
    | put hput => exact wp_bind_of (guarding_put hC hput v) (fun _ _ _ => trivial) fun _ _ _ => trivial
    | flush => exact (hE n).flushAll v
    | repair =>
      refine (hE n).scanForOfflinePeer (fun raw m hraw hdec => ?_) _ v
      obtain ⟨sm, hsm, rfl⟩ := hraw.decoded hC hdec
      refine (hE n).repairFile rebuildable_sealedShard ⟨.inr hsm.isShardID, ?_⟩
      rintro w pairs w' ⟨u, -, hT, -⟩ mem hmem slot
      refine storable_guarding hC ⟨_, .repair slot hsm hT hmem, ?_⟩
      simp only [Manifest.replaceHolder, SymbolicManifest.eval, List.map_set, Term.eval]

end Steps

/-- What is about in a run of the nodes. -/
structure PrivacyKept (L : Libs) (S : Service → Bytes → Body → PutOptions → Prop)
    (T : Bytes → (o : NodeOp) → o.Ans → Prop) (w : Cluster) (ps : List (Bytes × NodeM Unit)) : Prop where
  /-- The manifests that are stored, queued, under way, sent in the next step or served on request. -/
  stored : ∀ n key raw, manifestPrefix <+: key → (w.node n).store.get key = some raw → Confidential L S T raw
  spooled : ∀ n e raw, e.kind = .manifest → (w.node n).spool e = some raw → Confidential L S T raw
  underway : ∀ x ∈ w.flight, x.2.2.op = .putManifest → Confidential L S T x.2.2.body
  sent : ∀ np ∈ ps, ∀ o k raw, np.2 = .op o k → replicated o = some raw → Confidential L S T raw
  served : ∀ n pid id body resp w', Served L w n pid ⟨.getManifest, id, body⟩ resp w' → resp.ok = true →
    Confidential L S T resp.body
  /-- The names of private files are at the nodes of their owners. -/
  names : ∀ n fileID raw, (w.node n).store.get (pnameKey fileID) = some raw → OwnName L S T n fileID raw
  /-- No program stores any other record. -/
  records : ∀ np ∈ ps, ∀ key raw k, np.2 = .op (.storePut key raw) k →
    manifestPrefix <+: key ∨ lit "pname/" <+: key
  /-- The shards are those of encrypted stripes. -/
  blocks : ∀ n id data, (w.node n).blocks id = some data → SealedShard L S T data
  spooledShards : ∀ n e data, e.kind = .shard → (w.node n).spool e = some data → SealedShard L S T data
  shardsUnderway : ∀ x ∈ w.flight, x.2.2.op = .putShard → SealedShard L S T x.2.2.body
  shardsSent : ∀ np ∈ ps, ∀ pid id data k, np.2 = .op (.request pid ⟨.putShard, id, data⟩) k →
    SealedShard L S T data

/-- In every run of uploads, listings, openings, rounds of the spool's worker and repairs at all nodes, in any
order and with any losses, every manifest that is stored, queued, sent or served is one of those that the code
makes, and shows no key of a file, and no name of a private file. The name of a private file is only under its
own key at the node of the owner, and in what is returned to local callers. -/
theorem private_names_sealed {L : Libs} {S : Service → Bytes → Body → PutOptions → Prop}
    {T : Bytes → (o : NodeOp) → o.Ans → Prop} (hC : L.cbor.Lawful) {w : Cluster}
    {ps : List (Bytes × NodeM Unit)} (h : (handling L S T).Reach .fresh w ps) : PrivacyKept L S T w ps := by
  obtain ⟨⟨hcopies, hnames⟩, hps⟩ := guarded_of_reach hC h
  have hproper : ∀ np ∈ ps, ∀ o k, np.2 = .op o k → Proper L S T o := by
    intro np hnp o k hop
    have hwp := hps np hnp
    rw [hop] at hwp
    exact hwp.1.1
  constructor
  · exact fun n key raw hkey hget => (hcopies.stored n key raw hget hkey).1.confidential
  · intro n e raw hkind hget
    have := hcopies.queued n e raw hget
    rw [if_pos hkind] at this
    exact this.confidential
  · exact fun x hx hop => (hcopies.manifests x hx hop).confidential
  · intro np hnp o k raw hop hraw
    have hrelays := (hproper np hnp o k hop).2
    cases o with
    | request pid req =>
      obtain ⟨op, id, body⟩ := req
      cases op with
      | putManifest =>
        obtain rfl := Option.some.inj hraw
        exact Known.confidential hrelays
      | _ => exact absurd hraw (by simp [replicated])
    | spoolWrite peer kind key data =>
      cases kind with
      | manifest =>
        obtain rfl := Option.some.inj hraw
        exact Known.confidential hrelays
      | shard => exact absurd hraw (by simp [replicated])
    | _ => exact absurd hraw (by simp [replicated])
  · intro n pid id body resp w' hserved hok
    obtain ⟨m, hm, hbody⟩ := hserved.answers hok
    obtain ⟨-, raw, hraw, hdec⟩ := hcopies.manifest hm
    rw [hbody]
    exact (restorable_known hC raw m hraw hdec).confidential
  · exact hnames
  · exact fun np hnp key raw k hop => (hproper np hnp _ k hop).1 key raw rfl
  · exact hcopies.blocks
  · intro n e data hkind hget
    have := hcopies.queued n e data hget
    rwa [hkind, if_neg (by simp)] at this
  · exact hcopies.shards
  · exact fun np hnp pid id data k hop => (hproper np hnp _ k hop).2

/-- A node with a key pair for private files. -/
def sampleOwnerService : Service := { sampleService with encPub := List.replicate encPubSize 0 }

/-- The node can upload private files. -/
theorem sampleHome_ready_private :
    sampleOwnerService.Ready sampleLibs ⟨(sampleGroup 7).id, modePrivate⟩ sampleHome (sampleGroup 7) where
  resolved := sampleHome_ready.resolved
  length_id := sampleHome_ready.length_id
  mode := .inr ⟨rfl, rfl⟩
  dataShards_pos := sampleHome_ready.dataShards_pos
  parityShards_pos := sampleHome_ready.parityShards_pos
  new_eq := sampleHome_ready.new_eq
  enough := sampleHome_ready.enough
  decodes := sampleHome_ready.decodes

/-- The upload of one private file. -/
def sampleSecret (svc : Service) (filename : Bytes) (_ : Body) (opts : PutOptions) : Prop :=
  svc = sampleOwnerService ∧ filename = lit "film" ∧ opts = ⟨(sampleGroup 7).id, modePrivate⟩

/-- A private file is uploaded while no other node is reached, so that its manifest is stored and queued. -/
theorem sampleOwner_keeps_privacy : ∃ w ps fileID raw,
    (handling sampleLibs sampleSecret fun _ _ _ => True).Reach .fresh w ps ∧
      (w.node sampleOwnerService.self).store.get (manifestKey fileID) = some raw ∧
      PrivacyKept sampleLibs sampleSecret (fun _ _ _ => True) w ps := by
  have hnet : ∀ mem ∈ sampleHome.members sampleLibs (sampleGroup 7).id,
      Deliverable sampleLibs sampleOwnerService noneReached mem.peerID := by
    intro mem hmem
    refine deliverable_noneReached mem.peerID ?_
    rcases mem_members_sampleHome.mp hmem with rfl | rfl
    · exact .inl rfl
    · exact .inr rfl
  obtain ⟨evs, s', m, hsteps, -, hstored⟩ :=
    exists_upload sampleRs_mds sampleAead_correct sampleHome_ready_private
    hnet (show endOfFile (some sampleBody.term) = true from rfl)
      (show sampleBody.data ≠ [] by decide) (lit "film")
  have hhome : (handling sampleLibs sampleSecret fun _ _ _ => True).Reach .fresh
      (Cluster.fresh.set sampleService.self sampleHome) [] :=
    reach_sampleHome fun _ _ _ _ hkey hname => .inr ⟨_, _, _, hkey, hname, rfl⟩
  have hupload : sampleSecret sampleOwnerService (lit "film") sampleBody ⟨(sampleGroup 7).id, modePrivate⟩ :=
    ⟨rfl, rfl, rfl⟩
  have hstart := hhome.start (show (handling sampleLibs sampleSecret fun _ _ _ => True).start
    sampleOwnerService.self _ from .runs (.put hupload))
  have hexec : ∀ s o r s', (calmEnv noneReached).step s o r s' →
      (handling sampleLibs sampleSecret fun _ _ _ => True).exec sampleOwnerService.self
        (Cluster.fresh.set sampleService.self s) o r (Cluster.fresh.set sampleService.self s') :=
    fun _ _ _ _ hs => ⟨trivial, exec_of_calm _ _ hs⟩
  have hreach := hstart.steps (fun s => Cluster.fresh.set sampleService.self s) hexec (hsteps.bind_left _)
  have hget : ((Cluster.fresh.set sampleService.self s').node sampleOwnerService.self).store.get
      (manifestKey m.fileID) = some (sampleLibs.cbor.manifest.marshal m) := by
    rw [show sampleOwnerService.self = sampleService.self from rfl, Cluster.node_set_self]
    exact hstored
  exact ⟨_, _, m.fileID, _, hreach, hget, private_names_sealed sampleCbor_lawful hreach⟩

end FnShare
