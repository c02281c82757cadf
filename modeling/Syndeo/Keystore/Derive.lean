import Syndeo.Cache.Vary

/-!
# Keys and origins

From the seed to the key of one origin: SLIP-0010 derivation, in which every
level is hardened, along a path whose last three indices are slices of the hash
of the *canonical origin* – scheme, host and port, in lower case, without a
default port. So what a `Syndeo.canonicalOrigin` is decides whose key signs.

The cryptography underneath is a `Syndeo.Crypto`, over which the keystore is
parameterised as the cache is over its `Syndeo.Platform`.
-/

namespace Syndeo

open Text

/-- `KdfParams`: the cost of Argon2id. -/
structure KdfParams where
  mCost : ℕ
  tCost : ℕ
  pCost : ℕ
  deriving DecidableEq

/-- `KdfParams::default`. -/
def KdfParams.default : KdfParams := ⟨64 * 1024, 3, 1⟩

/-- `SealedSeed`: what lands on disk. -/
structure SealedSeed where
  version : ℕ
  passphraseLayer : Bool
  kdf : KdfParams
  kdfSalt : String
  innerNonce : String
  outerNonce : String
  ciphertext : String
  identityHint : String
  deriving DecidableEq

/-- **The libraries the keystore calls.** -/
structure Crypto where
  /-- HMAC-SHA256, of a key and a message. -/
  hmacSha256 : Bytes → Bytes → Bytes
  /-- HMAC-SHA512, of a key and a message: 64 bytes. -/
  hmacSha512 : Bytes → Bytes → Bytes
  /-- The Ed25519 public key of a secret one. -/
  publicKey : Bytes → Bytes
  /-- An Ed25519 signature, by a secret key, of a message. -/
  sign : Bytes → Bytes → Bytes
  /-- Argon2id into 32 bytes, of a passphrase and a salt, or why it fails. -/
  argon2id : KdfParams → Bytes → Bytes → Except String Bytes
  /-- XChaCha20-Poly1305, under a key and a nonce, of associated data and a message. -/
  encrypt : Bytes → Bytes → Bytes → Bytes → Option Bytes
  /-- And back, where the tag is right. -/
  decrypt : Bytes → Bytes → Bytes → Bytes → Option Bytes
  /-- `bs58::encode`. -/
  base58 : Bytes → String
  /-- `Mnemonic::from_entropy_in`. -/
  mnemonicFromEntropy : Bytes → Except String String
  /-- `Mnemonic::parse_in_normalized`. -/
  parseMnemonic : String → Except String String
  /-- `Mnemonic::to_seed_normalized`, with no passphrase. -/
  mnemonicSeed : String → Bytes
  /-- `serde_json::to_vec_pretty` of a sealed seed. -/
  showSealed : SealedSeed → Bytes
  /-- `serde_json::from_slice` of one, or what is wrong with it. -/
  readSealed : Bytes → Except String SealedSeed
  /-- What `hex::decode` says of a text it cannot read. -/
  hexError : String → String

variable (P : Platform) (C : Crypto)

/-! ### Addresses -/

/-- `Address`: its 20 bytes. -/
structure Address where
  bytes : Bytes
  deriving DecidableEq

namespace Address

/-- `Address::from_public_key`: the last 20 bytes of the hash. -/
def fromPublicKey (publicKey : Bytes) : Address :=
  ⟨(beBytes 32 (P.blake3 publicKey).toNat).drop 12⟩

/-- `checksum`. -/
def checksum (bytes : Bytes) : Bytes :=
  (beBytes 32 (P.blake3 (beBytes 32 (P.blake3 bytes).toNat)).toNat).take 4

/-- `Address::to_base58`. -/
def toBase58 (self : Address) : String := C.base58 (self.bytes ++ checksum P self.bytes)

end Address

/-! ### Derivation -/

/-- `ExtendedKey`: a secret scalar and its chain code. -/
structure ExtendedKey where
  key : Bytes
  chainCode : Bytes
  deriving DecidableEq

/-- `SUM_COIN_TYPE`. -/
def sumCoinType : ℕ := 8848

/-- `HARDENED`. -/
def hardened : ℕ := 0x80000000

namespace ExtendedKey

/-- The two halves of an HMAC-SHA512. -/
def ofOutput (output : Bytes) : ExtendedKey := ⟨output.take 32, (output.drop 32).take 32⟩

/-- `ExtendedKey::master`. -/
def master (seed : Bytes) : ExtendedKey := ofOutput (C.hmacSha512 (utf8 "ed25519 seed") seed)

/-- `ExtendedKey::derive_hardened`. -/
def deriveHardened (self : ExtendedKey) (index : ℕ) : ExtendedKey :=
  ofOutput (C.hmacSha512 self.chainCode ([0] ++ self.key ++ beBytes 4 (index ||| hardened)))

/-- `ExtendedKey::derive_path`. -/
def derivePath (self : ExtendedKey) (path : List ℕ) : ExtendedKey :=
  path.foldl (deriveHardened C) self

/-- `ExtendedKey::public_key`. -/
def publicKey (self : ExtendedKey) : Bytes := C.publicKey self.key

/-- `ExtendedKey::address`. -/
def address (self : ExtendedKey) : Address := .fromPublicKey P (self.publicKey C)

/-- `ExtendedKey::sign`. -/
def sign (self : ExtendedKey) (message : Bytes) : Bytes := C.sign self.key message

end ExtendedKey

/-! ### Origins -/

/-- What ends an authority. -/
def endsAuthority (c : Char) : Bool := c == '/' || c == '?' || c == '#'

/-- The port at the end of an authority: digits, and at least one. -/
def splitPort (authority : List Char) : List Char × Option (List Char) :=
  match rsplitOnce ':' authority with
  | some (host, port) =>
    if port.all Char.isDigit && !port.isEmpty then (host, some port) else (authority, none)
  | none => (authority, none)

/-- The port is found whatever the case. -/
theorem splitPort_map_lowerChar (authority : List Char) :
    splitPort (authority.map lowerChar) =
      ((splitPort authority).1.map lowerChar, (splitPort authority).2) := by
  rw [splitPort, splitPort, rsplitOnce_map fun c => lowerChar_eq_iff (by decide)]
  rcases rsplitOnce ':' authority with _ | ⟨host, port⟩
  · rfl
  · have hdigits : (port.map lowerChar).all Char.isDigit = port.all Char.isDigit := by
      rw [List.all_map]
      exact congrArg port.all (funext isDigit_lowerChar)
    simp only [Option.map_some, hdigits, List.isEmpty_map]
    split_ifs with hport
    · rw [Bool.and_eq_true, List.all_eq_true] at hport
      have hsame : port.map lowerChar = port :=
        (List.map_congr_left fun c hc => lowerChar_of_isDigit (hport.1 c hc)).trans
          (List.map_id' port)
      rw [hsame]
    · rfl

/-- What an authority is made of. -/
theorem mem_of_mem_authority {authority : List Char} {c : Char} (h : c ∈ authority) :
    c ∈ (splitPort authority).1 ∨ c = ':' ∨ c.isDigit = true := by
  rw [splitPort]
  rcases hsplit : rsplitOnce ':' authority with _ | ⟨host, port⟩
  · exact Or.inl h
  · dsimp only
    split_ifs with hport
    · rw [Bool.and_eq_true, List.all_eq_true] at hport
      rw [eq_append_of_rsplitOnce hsplit] at h
      rcases List.mem_append.mp h with h | h
      · exact Or.inl h
      · rcases List.mem_cons.mp h with rfl | h
        · exact Or.inr (Or.inl rfl)
        · exact Or.inr (Or.inr (hport.1 c h))
    · exact Or.inl h

/-- Digits at the end are a port. -/
theorem splitPort_append {host port : List Char} (hne : port ≠ [])
    (hport : ∀ c ∈ port, c.isDigit = true) :
    splitPort (host ++ ':' :: port) = (host, some port) := by
  have hcolon : ':' ∉ port := fun hm => absurd (hport _ hm) (by decide)
  rw [splitPort, rsplitOnce_append hcolon]
  dsimp only
  rw [if_pos (by simpa [hne] using hport)]

/-- A host in brackets, or without a colon, has no port. -/
theorem splitPort_host {host : List Char} (h : ':' ∈ host → host.getLast? = some ']') :
    splitPort host = (host, none) := by
  rw [splitPort]
  rcases hsplit : rsplitOnce ':' host with _ | ⟨host', port⟩
  · rfl
  · dsimp only
    split_ifs with hport
    · rw [Bool.and_eq_true, List.all_eq_true] at hport
      have hlast := h (by rw [eq_append_of_rsplitOnce hsplit]; simp)
      rw [eq_append_of_rsplitOnce hsplit, List.getLast?_append_cons] at hlast
      have hmem : ']' ∈ ':' :: port := List.mem_of_getLast? hlast
      rcases List.mem_cons.mp hmem with heq | hmem
      · exact absurd heq (by decide)
      · exact absurd (hport.1 _ hmem) (by decide)
    · rfl

/-- The port is the one of the scheme. -/
def isDefaultPort (scheme port : List Char) : Bool :=
  (scheme == "https".toList && port == "443".toList) ||
    (scheme == "http".toList && port == "80".toList)

/-- An origin, written out. -/
def showOrigin (scheme host : List Char) (port : Option (List Char)) : List Char :=
  scheme ++ "://".toList ++ host ++ (port.elim [] fun p => ':' :: p)

/-- `derive::canonical_origin`, on the characters. -/
def canonicalOriginChars (origin : List Char) : List Char :=
  let trimmed := trimChars origin
  let (scheme, rest) :=
    match splitOnceAt "://".toList trimmed with
    | some (s, r) => (s.map lowerChar, r)
    | none => ("https".toList, trimmed)
  let authority := (rest.takeWhile fun c => !endsAuthority c).map lowerChar
  let authority :=
    match rsplitOnce '@' authority with
    | some (_, a) => a
    | none => authority
  let (host, port) := splitPort authority
  showOrigin scheme host (port.filter fun p => !isDefaultPort scheme p)

/-- `derive::canonical_origin`. -/
def canonicalOrigin (origin : String) : String :=
  String.ofList (canonicalOriginChars origin.toList)

/-- **What is read of an origin with an authority**, where nothing is trimmed off and
no user information stands in front of the host. -/
theorem canonicalOriginChars_eq {scheme authority tail : List Char}
    (htrim : trimChars (scheme ++ ("://".toList ++ (authority ++ tail))) =
      scheme ++ ("://".toList ++ (authority ++ tail)))
    (hscheme : ':' ∉ scheme) (hauthority : ∀ c ∈ authority, endsAuthority c = false)
    (hat : '@' ∉ authority) (htail : ∀ c ∈ tail.head?, endsAuthority c = true) :
    canonicalOriginChars (scheme ++ ("://".toList ++ (authority ++ tail))) =
      showOrigin (scheme.map lowerChar) ((splitPort authority).1.map lowerChar)
        ((splitPort authority).2.filter fun p => !isDefaultPort (scheme.map lowerChar) p) := by
  have hsplit : splitOnceAt "://".toList (scheme ++ ("://".toList ++ (authority ++ tail))) =
      some (scheme, authority ++ tail) := splitOnceAt_append hscheme _
  have htake : ((authority ++ tail).takeWhile fun c => !endsAuthority c) = authority := by
    rw [List.takeWhile_append_of_pos fun c hc => by rw [hauthority c hc]; rfl]
    rcases tail with _ | ⟨c, tail⟩
    · exact List.append_nil _
    · rw [List.takeWhile_cons_of_neg (by rw [htail c rfl]; exact Bool.false_ne_true),
        List.append_nil]
  have hat : '@' ∉ authority.map lowerChar := fun hm => by
    obtain ⟨c, hc, heq⟩ := List.mem_map.mp hm
    rw [lowerChar_eq_iff (by decide)] at heq
    exact hat (heq ▸ hc)
  rw [canonicalOriginChars, htrim, hsplit]
  simp only [htake, rsplitOnce_of_not_mem hat, splitPort_map_lowerChar]

/-- 31 bits of a hash, from a byte on. -/
def pathSlice (digest : ContentId) (offset : ℕ) : ℕ := (digest.extractLsb' (224 - 8 * offset) 31).toNat

/-- `origin_path`. -/
def originPath (origin : String) : List ℕ :=
  let digest := P.blake3 (utf8 (canonicalOrigin origin))
  [44, sumCoinType, pathSlice digest 0, pathSlice digest 4, pathSlice digest 8]

/-- `origin_key`. -/
def originKey (master : ExtendedKey) (origin : String) : ExtendedKey :=
  master.derivePath C (originPath P origin)

end Syndeo
