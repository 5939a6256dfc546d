import FnShare.Effects

/-!
# Encryption

The package `internal/crypto`: AES-256-GCM with the nonce in front of the sealed text, for contents,
names and the keys of shared files, and anonymous boxes for the keys of private files.
-/

namespace FnShare

open Prog

/-- `FileKeySize`. -/
def fileKeySize : ℕ := 32

/-- `EncPubSize`. -/
def encPubSize : ℕ := 32

/-- `EncPrivSize`. -/
def encPrivSize : ℕ := 32

/-- `gcmNonceSize`. -/
def gcmNonceSize : ℕ := 12

/-- The error of a key of the wrong size. -/
def errKeySize (n : ℕ) : GoErr :=
  .msg (lit "crypto: key must be " ++ fmtNat fileKeySize ++ lit " bytes, got " ++ fmtNat n)

/-- `NewFileKey`. -/
def newFileKey : NodeM { b : Bytes // b.length = fileKeySize } := randRead fileKeySize

variable (L : Libs)

/-- What `SealAES` makes of a nonce. -/
def sealedAES (key nonce plaintext : Bytes) : Bytes := nonce ++ L.aead.gcmSeal key nonce plaintext

/-- `SealAES`. -/
def sealAES (key plaintext : Bytes) : NodeM Bytes := do
  if key.length ≠ fileKeySize then fail (errKeySize key.length)
  else
    let nonce ← randRead gcmNonceSize
    return sealedAES L key nonce.1 plaintext

/-- `OpenAES`. -/
def openAES (key ciphertext : Bytes) : Except GoErr Bytes :=
  if key.length ≠ fileKeySize then .error (errKeySize key.length)
  else if ciphertext.length < gcmNonceSize + 1 then .error (.msg (lit "crypto: ciphertext too short"))
  else
    match L.aead.gcmOpen key (ciphertext.take gcmNonceSize) (ciphertext.drop gcmNonceSize) with
    | some plaintext => .ok plaintext
    | none => .error (.msg (lit "cipher: message authentication failed"))

/-- `SealAnonymous`. -/
def sealAnonymous (plaintext recipientPub : Bytes) : NodeM Bytes := do
  if recipientPub.length ≠ encPubSize then
    fail (.msg (lit "crypto: recipient pub must be " ++ fmtNat encPubSize ++ lit " bytes"))
  else
    let ephemeral ← randRead 32
    return L.box.boxSeal plaintext recipientPub ephemeral.1

/-- `OpenAnonymous`. -/
def openAnonymous (ciphertext recipientPub recipientPriv : Bytes) : Except GoErr Bytes :=
  if recipientPub.length ≠ encPubSize ∨ recipientPriv.length ≠ encPrivSize then
    .error (.msg (lit "crypto: bad recipient key sizes"))
  else
    match L.box.boxOpen ciphertext recipientPub recipientPriv with
    | some plaintext => .ok plaintext
    | none => .error (.msg (lit "crypto: anonymous box decrypt failed"))

variable {L}

/-- A sealed text is never too short to be opened. -/
theorem length_sealedAES (hA : L.aead.Correct) {key nonce : Bytes}
    (hn : nonce.length = gcmNonceSize) (plaintext : Bytes) :
    (sealedAES L key nonce plaintext).length = plaintext.length + 28 := by
  rw [sealedAES, List.length_append, hn, hA.length_seal, gcmNonceSize]
  omega

/-- A sealed text is not empty. -/
theorem sealedAES_ne_nil (hA : L.aead.Correct) {key nonce : Bytes}
    (hn : nonce.length = gcmNonceSize) (plaintext : Bytes) : sealedAES L key nonce plaintext ≠ [] := by
  rw [← List.length_pos_iff, length_sealedAES hA hn]
  omega

/-- `OpenAES` inverts `SealAES`. -/
theorem openAES_sealedAES (hA : L.aead.Correct) {key nonce : Bytes}
    (hk : key.length = fileKeySize) (hn : nonce.length = gcmNonceSize) (plaintext : Bytes) :
    openAES L key (sealedAES L key nonce plaintext) = .ok plaintext := by
  have hlen : (sealedAES L key nonce plaintext).length = plaintext.length + 28 :=
    length_sealedAES hA hn plaintext
  have htake : (sealedAES L key nonce plaintext).take gcmNonceSize = nonce := by
    rw [sealedAES, ← hn, List.take_left]
  have hdrop : (sealedAES L key nonce plaintext).drop gcmNonceSize =
      L.aead.gcmSeal key nonce plaintext := by
    rw [sealedAES, ← hn, List.drop_left]
  unfold openAES
  rw [if_neg (not_not.mpr hk), if_neg (by rw [hlen, gcmNonceSize]; omega), htake, hdrop,
    hA.open_seal]

/-- `OpenAnonymous` inverts `SealAnonymous` for the holder of the key pair. -/
theorem openAnonymous_boxSeal (hB : L.box.Correct) {priv : Bytes}
    (hpub : (L.box.pub priv).length = encPubSize) (hpriv : priv.length = encPrivSize)
    (plaintext ephemeral : Bytes) :
    openAnonymous L (L.box.boxSeal plaintext (L.box.pub priv) ephemeral) (L.box.pub priv) priv =
      .ok plaintext := by
  unfold openAnonymous
  rw [if_neg (by simp [hpub, hpriv]), hB.open_seal]

end FnShare
