import Syndeo.Keystore.Derive

/-!
# The sealed seed

Two layers of authenticated encryption around the seed: under a key derived from
the passphrase, where there is one, and under the *wrapping key* that the
operating system holds. `Syndeo.seal` draws a salt and two nonces, which are its
arguments here; `Syndeo.unseal` undoes it, given both factors.
-/

namespace Syndeo

open Text

/-- `SealError`. -/
inductive SealError
  | «unseal»
  | version (n : ℕ)
  | malformed (what : String)
  | kdf (what : String)
  | passphraseRequired
  | unexpectedPassphrase
  deriving DecidableEq

/-- What a `SealError` says. -/
def SealError.message : SealError → String
  | .«unseal» => "the passphrase is wrong, or the sealed seed has been altered"
  | .version n => "this build cannot read a version " ++ toString n ++ " sealed seed"
  | .malformed what => "malformed sealed seed: " ++ what
  | .kdf what => "argon2: " ++ what
  | .passphraseRequired => "a passphrase is required to unseal this seed"
  | .unexpectedPassphrase => "this seed was sealed without a passphrase"

/-- `VERSION`. -/
def sealVersion : ℕ := 1

/-- `AAD`. -/
def sealAad : Bytes := utf8 "syndeo-keystore-seed-v1"

variable (C : Crypto)

/-- `SealedSeed::from_bytes`. -/
def SealedSeed.fromBytes (bytes : Bytes) : Except SealError SealedSeed :=
  match C.readSealed bytes with
  | .error e => .error (.malformed e)
  | .ok sealed => if sealed.version ≠ sealVersion then .error (.version sealed.version) else .ok sealed

/-- `derive_key`. -/
def deriveKey (passphrase : String) (salt : Bytes) (kdf : KdfParams) : Except SealError Bytes :=
  (C.argon2id kdf (utf8 passphrase) salt).mapError .kdf

/-- `encrypt`. -/
def encrypt (key nonce plaintext : Bytes) : Except SealError Bytes :=
  ((C.encrypt key nonce sealAad plaintext).map .ok).getD (.error .«unseal»)

/-- `decrypt`. -/
def decrypt (key nonce ciphertext : Bytes) : Except SealError Bytes :=
  ((C.decrypt key nonce sealAad ciphertext).map .ok).getD (.error .«unseal»)

/-- `hex::decode`, whose failure is a malformed seed. -/
def decodeHex (text : String) : Except SealError Bytes :=
  ((hexDecode text).map .ok).getD (.error (.malformed (C.hexError text)))

/-- `decode_nonce`. -/
def decodeNonce (text : String) : Except SealError Bytes := do
  let bytes ← decodeHex C text
  if bytes.length = 24 then .ok bytes else .error (.malformed "nonce is not 24 bytes")

/-- `seal`, with the salt and the nonces it draws. -/
def «seal» (seed wrappingKey : Bytes) (passphrase : Option String) (kdf : KdfParams)
    (identityHint : String) (salt innerNonce outerNonce : Bytes) : Except SealError SealedSeed := do
  let inner ← match passphrase with
    | some passphrase => do
      let key ← deriveKey C passphrase salt kdf
      encrypt C key innerNonce seed
    | none => .ok seed
  let outer ← encrypt C wrappingKey outerNonce inner
  .ok
    { version := sealVersion
      passphraseLayer := passphrase.isSome
      kdf := kdf
      kdfSalt := hexEncode salt
      innerNonce := hexEncode innerNonce
      outerNonce := hexEncode outerNonce
      ciphertext := hexEncode outer
      identityHint := identityHint }

/-- `unseal`. -/
def «unseal» (sealed : SealedSeed) (wrappingKey : Bytes) (passphrase : Option String) :
    Except SealError Bytes := do
  if sealed.passphraseLayer && passphrase.isNone then .error .passphraseRequired
  if !sealed.passphraseLayer && passphrase.isSome then .error .unexpectedPassphrase
  let outerNonce ← decodeNonce C sealed.outerNonce
  let ciphertext ← decodeHex C sealed.ciphertext
  let inner ← decrypt C wrappingKey outerNonce ciphertext
  match passphrase with
  | some passphrase =>
    let salt ← decodeHex C sealed.kdfSalt
    let innerNonce ← decodeNonce C sealed.innerNonce
    let key ← deriveKey C passphrase salt sealed.kdf
    decrypt C key innerNonce inner
  | none => .ok inner

variable {C}

/-- What was encoded is decoded. -/
@[simp] theorem decodeHex_hexEncode (bytes : Bytes) : decodeHex C (hexEncode bytes) = .ok bytes := by
  rw [decodeHex, hexDecode_hexEncode]
  rfl

@[simp] theorem decodeNonce_hexEncode {bytes : Bytes} (h : bytes.length = 24) :
    decodeNonce C (hexEncode bytes) = .ok bytes := by
  simp [decodeNonce, h, bind, Except.bind]

section Layers

variable {sealed : SealedSeed} {wrappingKey outerNonce ciphertext inner : Bytes}

/-- What does not open under the wrapping key does not open. -/
theorem unseal_of_decrypt_error {passphrase : String} {e : SealError}
    (hlayer : sealed.passphraseLayer = true)
    (hnonce : decodeNonce C sealed.outerNonce = .ok outerNonce)
    (hcipher : decodeHex C sealed.ciphertext = .ok ciphertext)
    (hdecrypt : decrypt C wrappingKey outerNonce ciphertext = .error e) :
    «unseal» C sealed wrappingKey (some passphrase) = .error e := by
  simp [«unseal», hlayer, hnonce, hcipher, hdecrypt, bind, Except.bind]

/-- Where the wrapping key opens the outer layer, the passphrase opens the inner one. -/
theorem unseal_of_layers {passphrase : String} {salt innerNonce key : Bytes}
    (hlayer : sealed.passphraseLayer = true)
    (hnonce : decodeNonce C sealed.outerNonce = .ok outerNonce)
    (hcipher : decodeHex C sealed.ciphertext = .ok ciphertext)
    (hdecrypt : decrypt C wrappingKey outerNonce ciphertext = .ok inner)
    (hsalt : decodeHex C sealed.kdfSalt = .ok salt)
    (hinner : decodeNonce C sealed.innerNonce = .ok innerNonce)
    (hkey : deriveKey C passphrase salt sealed.kdf = .ok key) :
    «unseal» C sealed wrappingKey (some passphrase) = decrypt C key innerNonce inner := by
  simp [«unseal», hlayer, hnonce, hcipher, hdecrypt, hsalt, hinner, hkey, bind, Except.bind]

/-- **What was unsealed under a passphrase** came out of both layers. -/
theorem layers_of_unseal {seed : Bytes} {passphrase : String}
    (h : «unseal» C sealed wrappingKey (some passphrase) = .ok seed) :
    sealed.passphraseLayer = true ∧ ∃ outerNonce ciphertext inner innerNonce key,
      decodeNonce C sealed.outerNonce = .ok outerNonce ∧
      decodeHex C sealed.ciphertext = .ok ciphertext ∧
      decrypt C wrappingKey outerNonce ciphertext = .ok inner ∧
      decrypt C key innerNonce inner = .ok seed := by
  rcases hlayer : sealed.passphraseLayer with _ | _
  · simp [«unseal», hlayer, bind, Except.bind] at h
  · rcases hnonce : decodeNonce C sealed.outerNonce with e | outerNonce
    · simp [«unseal», hlayer, hnonce, bind, Except.bind] at h
    rcases hcipher : decodeHex C sealed.ciphertext with e | ciphertext
    · simp [«unseal», hlayer, hnonce, hcipher, bind, Except.bind] at h
    rcases hdecrypt : decrypt C wrappingKey outerNonce ciphertext with e | inner
    · simp [«unseal», hlayer, hnonce, hcipher, hdecrypt, bind, Except.bind] at h
    rcases hsalt : decodeHex C sealed.kdfSalt with e | salt
    · simp [«unseal», hlayer, hnonce, hcipher, hdecrypt, hsalt, bind, Except.bind] at h
    rcases hinner : decodeNonce C sealed.innerNonce with e | innerNonce
    · simp [«unseal», hlayer, hnonce, hcipher, hdecrypt, hsalt, hinner, bind, Except.bind] at h
    rcases hkey : deriveKey C passphrase salt sealed.kdf with e | key
    · simp [«unseal», hlayer, hnonce, hcipher, hdecrypt, hsalt, hinner, hkey, bind,
        Except.bind] at h
    rw [unseal_of_layers hlayer hnonce hcipher hdecrypt hsalt hinner hkey] at h
    exact ⟨rfl, outerNonce, ciphertext, inner, innerNonce, key, rfl, rfl, hdecrypt, h⟩

end Layers

/-! ### What is sealed is unsealed -/

/-- **What the keystore relies on its libraries for**: what was encrypted is
decrypted under the same key, and what was written out is read back. -/
structure Crypto.Lawful (C : Crypto) : Prop where
  decrypts : ∀ {key nonce aad plaintext ciphertext : Bytes},
    C.encrypt key nonce aad plaintext = some ciphertext →
      C.decrypt key nonce aad ciphertext = some plaintext
  reads : ∀ sealed, C.readSealed (C.showSealed sealed) = .ok sealed

section RoundTrip

variable {seed key nonce ciphertext wrappingKey salt innerNonce outerNonce : Bytes}
  {passphrase : Option String} {kdf : KdfParams} {hint : String} {sealed : SealedSeed}

theorem decrypt_of_encrypt (hC : C.Lawful) (h : encrypt C key nonce seed = .ok ciphertext) :
    decrypt C key nonce ciphertext = .ok seed := by
  rw [encrypt] at h
  rcases hsome : C.encrypt key nonce sealAad seed with _ | bytes
  · rw [hsome] at h
    exact nomatch h
  · rw [hsome] at h
    obtain rfl : bytes = ciphertext := Except.ok.inj h
    rw [decrypt, hC.decrypts hsome]
    rfl

/-- **Sealing and unsealing** under the same factors. -/
theorem unseal_seal (hC : C.Lawful) (hinner : innerNonce.length = 24)
    (houter : outerNonce.length = 24)
    (h : «seal» C seed wrappingKey passphrase kdf hint salt innerNonce outerNonce = .ok sealed) :
    sealed.version = sealVersion ∧ «unseal» C sealed wrappingKey passphrase = .ok seed := by
  rcases passphrase with _ | passphrase
  · rcases hcipher : encrypt C wrappingKey outerNonce seed with e | outer
    · simp [«seal», hcipher, bind, Except.bind] at h
    · simp only [«seal», hcipher, bind, Except.bind, Except.ok.injEq] at h
      subst h
      simp [«unseal», houter, decrypt_of_encrypt hC hcipher, bind, Except.bind]
  · rcases hkey : deriveKey C passphrase salt kdf with e | key
    · simp [«seal», hkey, bind, Except.bind] at h
    · rcases hfirst : encrypt C key innerNonce seed with e | inner
      · simp [«seal», hkey, hfirst, bind, Except.bind] at h
      · rcases hsecond : encrypt C wrappingKey outerNonce inner with e | outer
        · simp [«seal», hkey, hfirst, hsecond, bind, Except.bind] at h
        · simp only [«seal», hkey, hfirst, hsecond, bind, Except.bind, Except.ok.injEq] at h
          subst h
          simp [«unseal», hinner, houter, decrypt_of_encrypt hC hsecond, hkey,
            decrypt_of_encrypt hC hfirst, bind, Except.bind]

end RoundTrip

end Syndeo
