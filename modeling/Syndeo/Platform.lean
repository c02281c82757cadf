import Mathlib.Data.Rat.Defs
import Syndeo.Http.Text

/-!
# What the cache is built on

The libraries the source calls and does not contain: hashing, compression, URL
parsing, HTTP dates and floating-point arithmetic. They are the fields of a
`Syndeo.Platform`, over which everything else is parameterised; what is relied
on of one of them is a hypothesis where it is relied on, and nowhere else.

Hash collisions deserve a word. A content address has 256 bits, so no function
to it is injective, and none is assumed to be: a statement that needs two bodies
to have two addresses says which bodies.
-/

namespace Syndeo

/-- A string of bytes: a body, or a file. -/
abbrev Bytes := List UInt8

/-- `ContentId`: a BLAKE3 content address, its 32 bytes read most significant
first. -/
abbrev ContentId := BitVec 256

instance : LawfulBEq Bytes := inferInstance

instance : LawfulBEq ContentId := inferInstance

/-- `sri::Algorithm`, in order of strength. -/
inductive Algorithm
  | sha256
  | sha384
  | sha512
  deriving DecidableEq

/-- The parts of a `url::Url` the source looks at; `rest` is what it only carries
along: user information, path and query. -/
structure Url where
  scheme : String
  host : Option String
  port : Option ℕ
  rest : String
  fragment : Option String
  deriving DecidableEq

/-- **The libraries underneath.** -/
structure Platform where
  /-- `blake3::hash`. -/
  blake3 : Bytes → ContentId
  /-- `Sha256::digest` and its siblings. -/
  digest : Algorithm → Bytes → Bytes
  /-- `base64::engine::general_purpose::STANDARD.encode`. -/
  base64 : Bytes → String
  /-- `zstd::stream::encode_all`, at the level the store uses. -/
  zstdEncode : Bytes → Bytes
  /-- `zstd::stream::decode_all`, which fails on what is not a whole frame. -/
  zstdDecode : Bytes → Option Bytes
  /-- `url::Url::parse`. -/
  parseUrl : String → Option Url
  /-- `Url::to_string`. -/
  showUrl : Url → String
  /-- `Url::join`. -/
  joinUrl : Url → String → Option Url
  /-- `httpdate::parse_http_date`, in seconds since the epoch; none for a date
  before it. -/
  parseHttpDate : String → Option ℕ
  /-- `(n as f64 * q) as u64`. -/
  scale : ℕ → ℚ → ℕ
  /-- `a as f64 / b as f64`. -/
  divide : ℕ → ℕ → ℚ

namespace Url

/-- `default_port` of the `url` crate. -/
def defaultPort : String → Option ℕ
  | "http" => some 80
  | "ws" => some 80
  | "https" => some 443
  | "wss" => some 443
  | "ftp" => some 21
  | _ => none

/-- `Url::port_or_known_default`. -/
def portOrKnownDefault (u : Url) : Option ℕ := u.port.or (defaultPort u.scheme)

/-- `Url::set_port`, which leaves alone a URL that can have no port. -/
def setPort (u : Url) (port : Option ℕ) : Url :=
  if u.host = none ∨ u.host = some "" ∨ u.scheme = "file" then u
  else if port.isSome ∧ port = defaultPort u.scheme then { u with port := none }
  else { u with port := port }

end Url

variable (P : Platform)

/-- `Cache::normalize_url`: no fragment, no default port; a string that is no URL
is its own normal form. -/
def normalizeUrl (raw : String) : String :=
  match P.parseUrl raw with
  | some u =>
    let u := { u with fragment := none }
    P.showUrl (u.setPort (u.portOrKnownDefault.filter fun p =>
      ¬((u.scheme = "http" ∧ p = 80) ∨ (u.scheme = "https" ∧ p = 443))))
  | none => raw

/-! ### A platform to compute with

The libraries, on the few inputs that the concrete runs of this development hand
to them: the hashes of the bodies they store, the URL and the date they use. -/

/-- A number as so many bytes, most significant first. -/
def beBytes : ℕ → ℕ → Bytes
  | 0, _ => []
  | k + 1, n => beBytes k (n / 256) ++ [UInt8.ofNat (n % 256)]

namespace Platform

/-- BLAKE3 of the bodies the examples store. -/
def sampleBlake3 : Bytes → ContentId
  | [] => 0xaf1349b9f5f9a1a6a0404dea36dcc9499bcb25c9adc112b7cc9a93cae41f3262
  | [97] => 0x17762fddd969a453925d65717ac3eea21320b66b54342fde15128d6caf21215f
  | [98] => 0x10e5cf3d3c8a4f9f3468c8cc58eea84892a22fdadbc1acb22410190044c1d553
  | [97, 98] => 0x2dc99999a6aaef3f20349d2ed4057a2b54419545dabb809e6381de1bad8337e2
  | _ => 0

/-- The SHA-2 digests of the bodies the examples store. -/
def sampleDigest : Algorithm → Bytes → Bytes
  | .sha256, [] => beBytes 32 0xe3b0c44298fc1c149afbf4c8996fb92427ae41e4649b934ca495991b7852b855
  | .sha256, [97] => beBytes 32 0xca978112ca1bbdcafac231b39a23dc4da786eff8147c4e72b9807785afee48bb
  | .sha256, [98] => beBytes 32 0x3e23e8160039594a33894f6564e1b1348bbd7a0088d42c4acb73eeaed59c009d
  | .sha256, [97, 98] => beBytes 32
      0xfb8e20fc2e4c3f248c60c39bd652f3c1347298bb977b8b4d5903b85055620603
  | .sha384, [] =>
    beBytes 24 0x38b060a751ac96384cd9327eb1b1e36a21fdb71114be0743 ++
      beBytes 24 0x4c0cc7bf63f6e1da274edebfe76f65fbd51ad2f14898b95b
  | .sha384, [97] =>
    beBytes 24 0x54a59b9f22b0b80880d8427e548b7c23abd873486e1f035d ++
      beBytes 24 0xce9cd697e85175033caa88e6d57bc35efae0b5afd3145f31
  | .sha384, [98] =>
    beBytes 24 0x98a906182cdcfb1eb4eb47117600f68958e2ddd140248b47 ++
      beBytes 24 0x984f4bde6587b89c8215c3da895a336e94ad1aca39015c40
  | .sha384, [97, 98] =>
    beBytes 24 0xc7be03ba5bcaa384727076db0018e99248e1a6e8bd1b9ef5 ++
      beBytes 24 0x8a9ec9dd4eeebb3f48b836201221175befa74ddc3d35afdd
  | .sha512, [] =>
    beBytes 32 0xcf83e1357eefb8bdf1542850d66d8007d620e4050b5715dc83f4a921d36ce9ce ++
      beBytes 32 0x47d0d13c5d85f2b0ff8318d2877eec2f63b931bd47417a81a538327af927da3e
  | .sha512, [97] =>
    beBytes 32 0x1f40fc92da241694750979ee6cf582f2d5d7d28e18335de05abc54d0560e0f53 ++
      beBytes 32 0x02860c652bf08d560252aa5e74210546f369fbbbce8c12cfc7957b2652fe9a75
  | .sha512, [98] =>
    beBytes 32 0x5267768822ee624d48fce15ec5ca79cbd602cb7f4c2157a516556991f22ef8c7 ++
      beBytes 32 0xb5ef7b18d1ff41c59370efb0858651d44a936c11b7b144c48fe04df3c6a3e8da
  | .sha512, [97, 98] =>
    beBytes 32 0x2d408a0717ec188158278a796c689044361dc6fdde28d6f04973b80896e18239 ++
      beBytes 32 0x75cdbf12eb63f9e0591328ee235d80e9b5bf1aa6a44f4617ff3caf6400eb172d
  | _, _ => []

/-- The platform of the examples. -/
def sample : Platform where
  blake3 := sampleBlake3
  digest := sampleDigest
  base64 := fun _ => ""
  zstdEncode := id
  zstdDecode := some
  parseUrl := fun s =>
    if s = "http://a.test/x" then some ⟨"http", some "a.test", none, "/x", none⟩ else none
  showUrl := fun u => u.scheme ++ "://" ++ u.host.getD "" ++ u.rest
  joinUrl := fun _ _ => none
  parseHttpDate := fun s =>
    if s = "Sun, 06 Nov 1994 08:49:37 GMT" then some 784111777 else none
  scale := fun n q => (n * q).floor.toNat
  divide := fun a b => a / b

end Platform

end Syndeo
