import FnShare.Invite
import FnShare.Instance
import FnShare.Lib.Base64

/-!
# Invite links

`Encode` and `Decode` of `internal/invite`: an invite travels as the fragment of a URL, in CBOR and base64.
`Decode` removes white space around the link, parses the URL, decodes the fragment, and verifies the invite as
`Verify` does. Its one look at the outside is the clock.

An invite that `Create` made is decoded to itself until it expires, and whatever `Decode` accepts is accepted
again in the form that `Encode` gives it. Of `url.Parse` it is enough that it leaves a fragment of base64
letters as it is (`KeepsFragment`).
-/

namespace FnShare

open Prog

/-! ## White space -/

/-- The UTF-8 encodings of the characters of `unicode.IsSpace`. -/
def spaces : List Bytes :=
  [[9], [10], [11], [12], [13], [32], [0xC2, 0x85], [0xC2, 0xA0], [0xE1, 0x9A, 0x80],
   [0xE2, 0x80, 0x80], [0xE2, 0x80, 0x81], [0xE2, 0x80, 0x82], [0xE2, 0x80, 0x83],
   [0xE2, 0x80, 0x84], [0xE2, 0x80, 0x85], [0xE2, 0x80, 0x86], [0xE2, 0x80, 0x87],
   [0xE2, 0x80, 0x88], [0xE2, 0x80, 0x89], [0xE2, 0x80, 0x8A], [0xE2, 0x80, 0xA8],
   [0xE2, 0x80, 0xA9], [0xE2, 0x80, 0xAF], [0xE2, 0x81, 0x9F], [0xE3, 0x80, 0x80]]

/-- A text without the words at its front, at most `n` of them. -/
def strip (words : List Bytes) : ℕ → Bytes → Bytes
  | 0, s => s
  | n + 1, s =>
    match words.find? fun w => w.isPrefixOf s with
    | some w => strip words n (s.drop w.length)
    | none => s

/-- `strings.TrimSpace`. -/
def trimSpace (s : Bytes) : Bytes :=
  let front := strip spaces s.length s
  (strip (spaces.map List.reverse) front.length front.reverse).reverse

/-- No word is the beginning of another one, and none is empty. -/
structure PrefixFree (words : List Bytes) : Prop where
  eq_of_front : ∀ w ∈ words, ∀ w' ∈ words, w <+: w' → w = w'
  ne_nil : ∀ w ∈ words, w ≠ []

/-- The words at the front of a text that begins with none of them are stripped, and no more. -/
theorem strip_flatten {words : List Bytes} (hfree : PrefixFree words) {text : Bytes}
    (htext : ∀ w ∈ words, ¬ w <+: text) {ws : List Bytes} (hws : ∀ w ∈ ws, w ∈ words) {n : ℕ}
    (hn : ws.length ≤ n) : strip words n (ws.flatten ++ text) = text := by
  induction ws generalizing n with
  | nil =>
    cases n with
    | zero => rfl
    | succ n =>
      have hnone : words.find? (fun w => w.isPrefixOf text) = none := by
        simpa [List.find?_eq_none] using htext
      rw [List.flatten_nil, List.nil_append, strip, hnone]
  | cons w ws ih =>
    obtain ⟨n, rfl⟩ : ∃ m, n = m + 1 := ⟨n - 1, by simp at hn; omega⟩
    have hfind : words.find? (fun w' => w'.isPrefixOf ((w :: ws).flatten ++ text)) = some w := by
      have hfront : w <+: (w :: ws).flatten ++ text := by simp
      obtain ⟨w', hw'⟩ : ∃ w', words.find? (fun w' => w'.isPrefixOf ((w :: ws).flatten ++ text)) =
          some w' := by
        rw [← Option.isSome_iff_exists, List.find?_isSome]
        exact ⟨w, hws w (by simp), List.isPrefixOf_iff_prefix.mpr hfront⟩
      -- Of two words at the front, one is the beginning of the other.
      have hfront' : w' <+: (w :: ws).flatten ++ text := by simpa using List.find?_some hw'
      have hmem' := List.mem_of_find?_eq_some hw'
      rw [hw']
      rcases List.prefix_or_prefix_of_prefix hfront hfront' with h | h
      · rw [hfree.eq_of_front w (hws w (by simp)) w' hmem' h]
      · rw [hfree.eq_of_front w' hmem' w (hws w (by simp)) h]
    rw [strip, hfind]
    simp only [List.flatten_cons, List.append_assoc, List.drop_left]
    exact ih (fun w' hw' => hws w' (by simp [hw'])) (by simpa using hn)

/-- No encoding of a space begins another. -/
theorem prefixFree_spaces : PrefixFree spaces := ⟨by decide, by decide⟩

/-- Nor does one end another. -/
theorem prefixFree_reverse_spaces : PrefixFree (spaces.map List.reverse) := ⟨by decide, by decide⟩

/-- White space: any number of space characters. -/
def IsSpace (s : Bytes) : Prop := ∃ ws : List Bytes, (∀ w ∈ ws, w ∈ spaces) ∧ s = ws.flatten

/-- Every word has a byte. -/
theorem length_le_flatten {words ws : List Bytes} (hfree : PrefixFree words)
    (hws : ∀ w ∈ ws, w ∈ words) : ws.length ≤ ws.flatten.length := by
  induction ws with
  | nil => exact le_rfl
  | cons w ws ih =>
    have hpos : 0 < w.length := List.length_pos_iff.mpr (hfree.ne_nil w (hws w (by simp)))
    have htail := ih fun w' hw' => hws w' (by simp [hw'])
    simp only [List.length_cons, List.flatten_cons, List.length_append]
    omega

/-- A word is not at the front of a text that begins with another byte. -/
theorem not_front {words : List Bytes} (hfree : PrefixFree words) {b : UInt8}
    (hb : ∀ w ∈ words, w.head? ≠ some b) (text : Bytes) : ∀ w ∈ words, ¬ w <+: b :: text := by
  intro w hw hfront
  cases w with
  | nil => exact hfree.ne_nil [] hw rfl
  | cons c w =>
    obtain ⟨rfl, -⟩ := List.cons_prefix_cons.mp hfront
    exact hb _ hw rfl

/-- The white space around a text is removed, where the text neither begins nor ends with any. -/
theorem trimSpace_append {before after text : Bytes} (hbefore : IsSpace before) (hafter : IsSpace after)
    {first last : UInt8} (hfirst : text.head? = some first) (hlast : text.getLast? = some last)
    (hfirst' : ∀ w ∈ spaces, w.head? ≠ some first)
    (hlast' : ∀ w ∈ spaces.map List.reverse, w.head? ≠ some last) :
    trimSpace (before ++ text ++ after) = text := by
  obtain ⟨ws, hws, rfl⟩ := hbefore
  obtain ⟨ws', hws', rfl⟩ := hafter
  obtain ⟨rest, rfl⟩ : ∃ rest, text = first :: rest := by
    cases text with
    | nil => simp at hfirst
    | cons b rest => exact ⟨rest, by rw [Option.some.inj hfirst]⟩
  obtain ⟨rest', hrev⟩ : ∃ rest', (first :: rest).reverse = last :: rest' := by
    rw [← List.head?_reverse] at hlast
    exact ⟨_, (List.cons_head?_tail hlast).symm⟩
  have hfront : strip spaces (ws.flatten ++ first :: rest ++ ws'.flatten).length
      (ws.flatten ++ first :: rest ++ ws'.flatten) = first :: rest ++ ws'.flatten := by
    rw [List.append_assoc]
    refine strip_flatten prefixFree_spaces ?_ hws ?_
    · exact not_front prefixFree_spaces hfirst' _
    · have := length_le_flatten prefixFree_spaces hws
      rw [List.length_append]
      omega
  have hmem : ∀ w ∈ (ws'.map List.reverse).reverse, w ∈ spaces.map List.reverse := by
    intro w hw
    obtain ⟨w', hw', rfl⟩ := List.mem_map.mp (List.mem_reverse.mp hw)
    exact List.mem_map_of_mem (hws' w' hw')
  unfold trimSpace
  simp only [hfront]
  -- Backwards, the white space behind the text is in front of it.
  rw [List.reverse_append, List.reverse_flatten, hrev,
    strip_flatten prefixFree_reverse_spaces (not_front prefixFree_reverse_spaces hlast' rest') hmem,
    ← hrev, List.reverse_reverse]
  have hlen := length_le_flatten prefixFree_reverse_spaces hmem
  rw [← List.reverse_flatten] at hlen
  simp only [List.length_reverse, List.length_append] at hlen ⊢
  omega

/-! ## Links -/

/-- What `Decode` uses of a `url.URL`. -/
structure ParsedURL where
  scheme : Bytes
  fragment : Bytes

/-- `Scheme`. -/
def inviteScheme : Bytes := lit "fnshare"

section Code

variable (L : Libs) (parse : Bytes → Except GoErr ParsedURL)

/-- `Encode`. -/
def Invite.encode (i : Invite) : Bytes :=
  inviteScheme ++ lit "://join#" ++ Base64.encodeURL (L.cbor.invite.marshal i)

/-- `Decode`, where `parse` is `url.Parse`. -/
def decodeInvite (s : Bytes) : NodeM Invite := do
  match parse (trimSpace s) with
  | .error e => fail (.wrap (lit "parse invite url: ") e)
  | .ok u =>
    if u.scheme ≠ inviteScheme then
      fail (.msg (lit "expected scheme " ++ quote inviteScheme ++ lit ", got " ++ quote u.scheme))
    else if u.fragment = [] then fail (.msg (lit "invite missing fragment payload"))
    else
      match Base64.decodeURL u.fragment with
      | none => fail (.wrap (lit "base64 decode: ") (.msg (lit "illegal base64 data")))
      | some raw =>
        match L.cbor.invite.unmarshal raw with
        | .error e => fail (.wrap (lit "cbor decode: ") e)
        | .ok inv =>
          inv.verify L
          return inv

end Code

/-- What is relied on of `url.Parse`: a fragment of letters of the URL alphabet is as it was. -/
def KeepsFragment (parse : Bytes → Except GoErr ParsedURL) : Prop :=
  ∀ fragment, (∀ b ∈ fragment, ∃ k < 64, b = Base64.urlLetter (Base64.letter k)) →
    parse (inviteScheme ++ lit "://join#" ++ fragment) = .ok ⟨inviteScheme, fragment⟩

/-- What is relied on of Ed25519: what is signed verifies under the public key of the private key. -/
structure Ed25519.Correct (E : Ed25519) : Prop where
  verify_sign : ∀ priv m, priv.length = privateKeySize → E.verify (E.pub priv) m (E.sign priv m) = true
  length_pub : ∀ priv, priv.length = privateKeySize → (E.pub priv).length = publicKeySize

/-- The clock, which shows one time. -/
def clockEnv (t : ℤ) : Env NodeSig Unit where
  step _ o r _ :=
    match o, r with
    | .now, r => r = t
    | _, _ => False
  guard _ o := o = .now

section Links

variable {L : Libs} {parse : Bytes → Except GoErr ParsedURL} {inv : Invite} {t : ℤ}

/-- What `Verify` accepts at a time. -/
structure Invite.ValidAt (L : Libs) (inv : Invite) (t : ℤ) : Prop where
  length_pub : (sliceBytes inv.groupAdminPub).length = publicKeySize
  unexpired : unix t ≤ inv.expiresAt
  signed : inv.selfSigned L = true

/-- The clock is read. -/
theorem computes_now {k : ℤ → NodeM Invite} {b : Invite} :
    Computes (clockEnv t) () (now >>= k) b ↔ Computes (clockEnv t) () (k t) b := by
  refine (computes_op ⟨t, (), rfl⟩).trans ⟨fun h => h t () rfl, ?_⟩
  rintro h r ⟨⟩ rfl
  exact h

/-- `Verify` and what follows. -/
theorem computes_verify {p : NodeM Invite} {b : Invite} :
    Computes (clockEnv t) () (inv.verify L >>= fun _ => p) b ↔
      inv.ValidAt L t ∧ Computes (clockEnv t) () p b := by
  unfold Invite.verify
  by_cases hlen : (sliceBytes inv.groupAdminPub).length = publicKeySize
  · rw [if_neg (not_not.mpr hlen), bind_assoc, computes_now]
    by_cases hexp : unix t > inv.expiresAt
    · rw [if_pos hexp, fail_bind]
      exact iff_of_false not_computes_fail fun h => absurd h.1.unexpired (not_le.mpr hexp)
    · rw [if_neg hexp]
      cases hsig : inv.selfSigned L with
      | false => exact iff_of_false not_computes_fail fun h => absurd h.1.signed (by simp [hsig])
      | true => exact (and_iff_right ⟨hlen, not_lt.mp hexp, hsig⟩).symm
  · rw [if_pos hlen, fail_bind]
    exact iff_of_false not_computes_fail fun h => hlen h.1.length_pub

/-- What `Decode` accepts, and what it returns. -/
theorem computes_decodeInvite {s : Bytes} :
    Computes (clockEnv t) () (decodeInvite L parse s) inv ↔
      ∃ fragment raw, parse (trimSpace s) = .ok ⟨inviteScheme, fragment⟩ ∧ fragment ≠ [] ∧
        Base64.decodeURL fragment = some raw ∧ L.cbor.invite.unmarshal raw = .ok inv ∧
        inv.ValidAt L t := by
  unfold decodeInvite
  cases parse (trimSpace s) with
  | error e => simp
  | ok u =>
    obtain ⟨scheme, fragment⟩ := u
    dsimp only
    by_cases hscheme : scheme = inviteScheme
    · by_cases hfragment : fragment = []
      · simp [hscheme, hfragment]
      · cases hraw : Base64.decodeURL fragment with
        | none => simp [hscheme, hfragment, hraw]
        | some raw =>
          cases hinv : L.cbor.invite.unmarshal raw with
          | error e => simp [hscheme, hfragment, hraw, hinv]
          | ok inv' =>
            rw [if_neg (not_not.mpr hscheme), if_neg hfragment]
            simp only [hinv]
            refine computes_verify.trans ?_
            rw [pure_eq, computes_ret]
            constructor
            · rintro ⟨hvalid, rfl⟩
              exact ⟨fragment, raw, by rw [hscheme], hfragment, hraw, hinv, hvalid⟩
            · rintro ⟨fragment', raw', hu, -, hraw', hinv', hvalid⟩
              injection hu with hu
              injection hu with _ hfragment'
              rw [← hfragment', hraw] at hraw'
              rw [← Option.some.inj hraw', hinv] at hinv'
              obtain rfl := Except.ok.inj hinv'
              exact ⟨hvalid, rfl⟩
    · simp [hscheme]

/-! ## Round trips -/

/-- The text of an invite is not empty. -/
theorem encodeURL_marshal_ne_nil (hC : L.cbor.Lawful) (inv : Invite) :
    Base64.encodeURL (L.cbor.invite.marshal inv) ≠ [] := by
  intro hnil
  have hround := Base64.decodeURL_encodeURL (L.cbor.invite.marshal inv)
  rw [hnil] at hround
  exact hC.invite_ne_nil inv (Option.some.inj hround).symm

/-- A link is found whatever white space is around it. -/
theorem trimSpace_encode (hC : L.cbor.Lawful) (inv : Invite) {before after : Bytes}
    (hbefore : IsSpace before) (hafter : IsSpace after) :
    trimSpace (before ++ inv.encode L ++ after) = inv.encode L := by
  have hne := encodeURL_marshal_ne_nil hC inv
  have hlast : (inv.encode L).getLast? =
      some ((Base64.encodeURL (L.cbor.invite.marshal inv)).getLast hne) := by
    unfold Invite.encode
    rw [List.getLast?_append_of_ne_nil _ hne, List.getLast?_eq_getLast_of_ne_nil hne]
  have hfirst : (inv.encode L).head? = some 102 := rfl
  refine trimSpace_append hbefore hafter hfirst hlast (by decide) ?_
  -- The last letter is one of the alphabet, and no space character ends with one.
  have hletter : ∀ k < 64, ∀ w ∈ spaces.map List.reverse,
      w.head? ≠ some (Base64.urlLetter (Base64.letter k)) := by decide
  obtain ⟨k, hk, heq⟩ := Base64.exists_of_mem_encodeURL (List.getLast_mem hne)
  rw [heq]
  exact hletter k hk

/-- Decoding a link, with any white space around it. -/
theorem computes_decode_encode (hC : L.cbor.Lawful) (hparse : KeepsFragment parse)
    (htext : inv.toPayload.validText = true) {before after : Bytes} (hbefore : IsSpace before)
    (hafter : IsSpace after) (t : ℤ) (inv' : Invite) :
    Computes (clockEnv t) () (decodeInvite L parse (before ++ inv.encode L ++ after)) inv' ↔
      inv.ValidAt L t ∧ inv = inv' := by
  have hu : parse (inv.encode L) =
      .ok ⟨inviteScheme, Base64.encodeURL (L.cbor.invite.marshal inv)⟩ :=
    hparse _ fun _ hb => Base64.exists_of_mem_encodeURL hb
  have hraw := Base64.decodeURL_encodeURL (L.cbor.invite.marshal inv)
  have hinv := hC.invite.unmarshal_marshal htext
  rw [computes_decodeInvite, trimSpace_encode hC inv hbefore hafter, hu]
  constructor
  · rintro ⟨fragment, raw, hfragment, -, hraw', hinv', hvalid⟩
    injection hfragment with hfragment
    injection hfragment with _ hfragment
    rw [← hfragment, hraw] at hraw'
    rw [← Option.some.inj hraw', hinv] at hinv'
    obtain rfl := Except.ok.inj hinv'
    exact ⟨hvalid, rfl⟩
  · rintro ⟨hvalid, rfl⟩
    exact ⟨_, _, rfl, encodeURL_marshal_ne_nil hC inv, hraw, hinv, hvalid⟩

/-- An invite that `Create` made is valid until it expires. -/
theorem validAt_of_create (hE : L.ed25519.Correct) {g : Group} {bootstrap : Option (List Bytes)}
    {ttl quotaCap : ℤ} {evs : List NodeEvent} (hkeys : L.ed25519.pub g.adminPriv = g.adminPub)
    (h : Steps (Env.any NodeSig) () (createInvite L g bootstrap ttl quotaCap) evs () (ret inv)) :
    inv.ValidAt L t ↔ unix t ≤ inv.expiresAt := by
  obtain ⟨hlen, -, -, -, hpub, hsig⟩ := createInvite_eq h
  refine ⟨fun hvalid => hvalid.unexpired, fun hexp => ⟨?_, hexp, ?_⟩⟩
  · rw [hpub, ← hkeys]
    exact hE.length_pub _ hlen
  · unfold Invite.selfSigned
    rw [hpub, hsig, ← hkeys]
    exact hE.verify_sign _ _ hlen

/-- An invite link, with white space around it, is decoded to the invite that `Create` made, until the invite
expires. Whatever `Decode` accepts, it accepts again as `Encode` writes it, and returns the same. -/
theorem invite_link_round_trip (hC : L.cbor.Lawful)
    (hstrict : ∀ raw inv, L.cbor.invite.unmarshal raw = .ok inv → inv.toPayload.validText = true)
    (hE : L.ed25519.Correct) (hparse : KeepsFragment parse) :
    (∀ (g : Group) (bootstrap : Option (List Bytes)) (ttl quotaCap : ℤ) (evs : List NodeEvent)
      (inv : Invite), L.ed25519.pub g.adminPriv = g.adminPub →
      validUTF8 g.id = true → validUTF8 g.name = true →
      (∀ addr ∈ bootstrap.getD [], validUTF8 addr = true) →
      Steps (Env.any NodeSig) () (createInvite L g bootstrap ttl quotaCap) evs () (ret inv) →
      ∀ (before after : Bytes) (t : ℤ), IsSpace before → IsSpace after →
        ((∃ inv', Computes (clockEnv t) () (decodeInvite L parse (before ++ inv.encode L ++ after)) inv') ↔
          unix t ≤ inv.expiresAt) ∧
        ∀ inv', Computes (clockEnv t) () (decodeInvite L parse (before ++ inv.encode L ++ after)) inv' →
          inv' = inv) ∧
    ∀ (s : Bytes) (inv : Invite) (t : ℤ), Computes (clockEnv t) () (decodeInvite L parse s) inv →
      Computes (clockEnv t) () (decodeInvite L parse (inv.encode L)) inv := by
  constructor
  · intro g bootstrap ttl quotaCap evs inv hkeys hid hname hboot hcreate before after t hbefore hafter
    obtain ⟨-, hgid, hgname, hbootstrap, -⟩ := createInvite_eq hcreate
    have htext : inv.toPayload.validText = true := by
      simp only [Payload.validText, hgid, hgname, hbootstrap, hid, hname, Bool.and_true, Bool.true_and,
        List.all_eq_true]
      exact hboot
    have hdecode := computes_decode_encode hC hparse htext hbefore hafter t
    constructor
    · rw [← validAt_of_create hE hkeys hcreate]
      constructor
      · rintro ⟨inv', h⟩
        exact ((hdecode inv').mp h).1
      · intro h
        exact ⟨inv, (hdecode inv).mpr ⟨h, rfl⟩⟩
    · exact fun inv' h => ((hdecode inv').mp h).2.symm
  · intro s inv t h
    obtain ⟨fragment, raw, -, -, -, hinv, hvalid⟩ := computes_decodeInvite.mp h
    have hnone : IsSpace [] := ⟨[], by simp, rfl⟩
    have hdecode := (computes_decode_encode hC hparse (hstrict raw inv hinv) hnone hnone t inv).mpr
      ⟨hvalid, rfl⟩
    simpa using hdecode

/-- A URL parser that knows nothing but invite links. -/
def sampleParse (s : Bytes) : Except GoErr ParsedURL :=
  if (inviteScheme ++ lit "://join#").isPrefixOf s then
    .ok ⟨inviteScheme, s.drop (inviteScheme ++ lit "://join#").length⟩
  else .error (.msg (lit "not an invite link"))

/-- The sample parser keeps the fragment. -/
theorem sampleParse_keepsFragment : KeepsFragment sampleParse := by
  intro fragment _
  unfold sampleParse
  rw [if_pos (List.isPrefixOf_iff_prefix.mpr (List.prefix_append _ _)), List.drop_left]

/-- The sample signatures verify. -/
theorem sampleEd25519_correct : sampleEd25519.Correct where
  verify_sign priv m hl := sampleEd25519_ideal.verify_sign priv hl m
  length_pub := sampleEd25519_ideal.length_pub

/-- The admin of a group makes an invite; the link, pasted with a line break behind it, is decoded to the
invite, and is accepted again. -/
theorem sample_invite_link_round_trip : ∃ (evs : List NodeEvent) (inv : Invite),
    Steps (Env.any NodeSig) () (createInvite sampleLibs (sampleGroup 1) none 1000000000 0) evs () (ret inv) ∧
      Computes (clockEnv 0) () (decodeInvite sampleLibs sampleParse (inv.encode sampleLibs ++ [10])) inv ∧
      Computes (clockEnv 0) () (decodeInvite sampleLibs sampleParse (inv.encode sampleLibs)) inv := by
  have hlink := @invite_link_round_trip sampleLibs sampleParse sampleCbor_lawful
    (fun _ _ h => validText_of_sampleInvite h) sampleEd25519_correct sampleParse_keepsFragment
  have hany : ∀ o r, (Env.any NodeSig).step () o r () := fun _ _ => trivial
  have hcreate : Steps (Env.any NodeSig) ()
      (createInvite sampleLibs (sampleGroup 1) none 1000000000 0)
      [⟨.rand 16, .ok ⟨List.replicate 16 7, rfl⟩⟩, ⟨.now, (0 : ℤ)⟩] () (ret _) :=
    .op (hany _ _) (.op (hany _ _) (.refl _ _))
  obtain ⟨hiff, heq⟩ := hlink.1 (sampleGroup 1) none 1000000000 0 _ _ (by decide) (by decide) (by decide)
    (by simp) hcreate [] [10] 0 ⟨[], by simp, rfl⟩ ⟨[[10]], by decide, rfl⟩
  obtain ⟨inv', hdecode⟩ := hiff.mpr (by decide)
  obtain rfl := heq inv' hdecode
  exact ⟨_, _, hcreate, hdecode, hlink.2 _ _ _ hdecode⟩

end Links

end FnShare
