import Syndeo.Keystore.Derive

/-!
# The origins that the shell accepts

`prompt::canonical_origin` reads an origin with a URL parser, and accepts it only
where that reading and the keystore's own, which is by hand, are to agree: what is
shown is what the confirmation is minted over, and what the keystore derives a key
from. They do agree (`Syndeo.Shell.origins_agree`), given what is documented of
the parser (`Syndeo.Shell.Documented`).

The point at which the two differ most is the port. The keystore cuts digits off
the end of the authority; the parser reads a number, drops a default one, and
writes the rest without redundant digits. An accepted origin is one whose digits
are written as the parser would write them.
-/

namespace Syndeo

open Text

/-! ### What comes from other packages -/

/-- A `url::Url`, as the shell asks about it. -/
structure ParsedUrl where
  scheme : String
  username : String
  password : Option String
  /-- `Url::host_str`. -/
  host : Option String
  port : Option ℕ
  path : String
  query : Option String
  fragment : Option String
  deriving DecidableEq

/-- `url::ParseError`, as far as it is looked at. -/
inductive UrlError
  | emptyHost
  | other
  deriving DecidableEq

/-- The URL parser, and the Unicode tables. -/
structure Libraries where
  /-- `Url::parse`. -/
  parseUrl : String → Except UrlError ParsedUrl
  /-- `get_general_category`. -/
  generalCategory : Char → GeneralCategory

namespace Shell

/-! ### Refusals -/

/-- `MAX_ORIGIN_BYTES`. -/
def maxOriginBytes : ℕ := 256

/-- `MAX_DESCRIPTION_CHARS`. -/
def maxDescriptionChars : ℕ := 200

/-- `MAX_TEXT_PAYLOAD_BYTES`. -/
def maxTextPayloadBytes : ℕ := 4 * 1024

/-- `MAX_TEXT_PAYLOAD_LINES`. -/
def maxTextPayloadLines : ℕ := 64

/-- `MAX_HEX_PAYLOAD_BYTES`. -/
def maxHexPayloadBytes : ℕ := 512

/-- `Refusal`: why a request is refused before anyone is asked about it. -/
inductive Refusal
  | originNotAUrl
  | originScheme
  | originWithoutHost
  | originCredentials
  | originQuery
  | originFragment
  | originPath
  | originNotCanonical
  | originTooLong
  | originCharacter (c : Char)
  | descriptionCharacter (c : Char)
  | descriptionTooLong
  | textPayloadTooLarge
  | textPayloadTooManyLines
  | hexPayloadTooLarge
  deriving DecidableEq

/-- `U+{:04X}`. -/
def codePoint (c : Char) : String :=
  let digits := (Nat.toDigits 16 c.toNat).map upperChar
  "U+" ++ String.ofList (List.replicate (4 - digits.length) '0' ++ digits)

/-- What a `Refusal` says. -/
def Refusal.message : Refusal → String
  | .originNotAUrl => "the origin is not a scheme://host URL"
  | .originScheme => "the origin must be http or https"
  | .originWithoutHost => "the origin has no host"
  | .originCredentials => "the origin carries a user name or password"
  | .originQuery => "the origin carries a query"
  | .originFragment => "the origin carries a fragment"
  | .originPath => "the origin carries a path"
  | .originNotCanonical =>
    "the origin is not written in its canonical form (lowercase ASCII host, " ++
      "no redundant port digits, nothing after the host but an optional /)"
  | .originTooLong =>
    "the origin is longer than " ++ toString maxOriginBytes ++ " bytes in canonical form"
  | .originCharacter c =>
    "the origin contains " ++ codePoint c ++ ", which cannot be shown faithfully"
  | .descriptionCharacter c =>
    "the description contains " ++ codePoint c ++ ", which cannot be shown faithfully"
  | .descriptionTooLong =>
    "the description is longer than " ++ toString maxDescriptionChars ++ " characters"
  | .textPayloadTooLarge =>
    "the payload is more than " ++ toString maxTextPayloadBytes ++ " bytes of text, " ++
      "too much to show in full"
  | .textPayloadTooManyLines =>
    "the payload is more than " ++ toString maxTextPayloadLines ++ " lines once wrapped, " ++
      "too much to show in full"
  | .hexPayloadTooLarge =>
    "the payload is more than " ++ toString maxHexPayloadBytes ++ " bytes of binary, " ++
      "too much to show in full"

/-! ### The canonical form -/

/-- The default port of the two schemes there are. -/
def defaultPort (scheme : List Char) : Option (List Char) :=
  if scheme = "https".toList then some "443".toList
  else if scheme = "http".toList then some "80".toList
  else none

/-- The port that is written, from the one typed and the one parsed, where they agree. -/
def agreedPort (default : List Char) : Option (List Char) → Option ℕ → Option (Option ℕ)
  | none, none => some none
  | some typed, none => if typed = default then some none else none
  | some typed, some port => if typed = (toString port).toList then some (some port) else none
  | none, some _ => none

/-- What of a URL is no part of an origin. -/
def surplus (url : ParsedUrl) (authority : List Char) : Option Refusal :=
  if url.username ≠ "" ∨ url.password.isSome ∨ '@' ∈ authority then some .originCredentials
  else if url.query.isSome then some .originQuery
  else if url.fragment.isSome then some .originFragment
  else if url.path ≠ "/" then some .originPath
  else none

/-- The canonical form of an origin that was typed as `default`'s scheme and `rest`, and
parsed as `url`, `host`. -/
def ofUrl (default rest : List Char) (url : ParsedUrl) (host : String) : Except Refusal String :=
  let authority := rest.takeWhile fun c => !endsAuthority c
  let tail := rest.dropWhile fun c => !endsAuthority c
  match surplus url authority with
  | some refusal => .error refusal
  | none =>
    if tail ≠ [] ∧ tail ≠ ['/'] then .error .originNotCanonical
    else if (splitPort authority).1.map lowerChar ≠ host.toList then .error .originNotCanonical
    else
      match agreedPort default (splitPort authority).2 url.port with
      | none => .error .originNotCanonical
      | some port =>
        let canonical := String.ofList (showOrigin url.scheme.toList host.toList
          (port.map fun p => (toString p).toList))
        if maxOriginBytes < (utf8 canonical).length then .error .originTooLong
        else .ok canonical

section

variable (L : Libraries)

/-- `is_unshowable`. -/
def isUnshowable (c : Char) : Bool :=
  L.generalCategory c == .control || L.generalCategory c == .format || c.toNat == 0x2028 ||
    c.toNat == 0x2029

/-- `canonical_origin`. -/
def canonicalOrigin (raw : String) : Except Refusal String :=
  match raw.toList.find? (isUnshowable L) with
  | some c => .error (.originCharacter c)
  | none =>
    match splitOnceAt "://".toList raw.toList with
    | none => .error .originNotAUrl
    | some (scheme, rest) =>
      match defaultPort (scheme.map lowerChar) with
      | none => .error .originScheme
      | some default =>
        match L.parseUrl raw with
        | .error .emptyHost => .error .originWithoutHost
        | .error .other => .error .originNotAUrl
        | .ok url =>
          match url.host with
          | none => .error .originWithoutHost
          | some host => ofUrl default rest url host

/-- `ValidatedOrigin`: an origin in canonical form. -/
structure ValidatedOrigin where
  text : String
  isCanonical : ∃ raw, canonicalOrigin L raw = .ok text

variable {L} in
theorem canonical_of_eq {raw text : String} (h : canonicalOrigin L raw = .ok text) :
    ∃ raw, canonicalOrigin L raw = .ok text := ⟨raw, h⟩

/-- No white space, and nothing that ends a host or begins one. -/
def Plain (c : Char) : Prop := isWhitespace c = false ∧ c ∉ ['/', '?', '#', '@']

/-- **What is documented of the URL parser**: a scheme comes out in lower case; a
host has no white space and none of `/ ? # @`, and a colon only between brackets;
a port that is the default one of its scheme is not there. -/
structure Documented : Prop where
  scheme : ∀ {raw url scheme rest}, L.parseUrl raw = .ok url →
    splitOnceAt "://".toList raw.toList = some (scheme, rest) → (∀ c ∈ scheme, c.isAlpha) →
    url.scheme.toList = scheme.map lowerChar
  plain : ∀ {raw url host}, L.parseUrl raw = .ok url → url.host = some host →
    ∀ c ∈ host.toList, Plain c
  bracketed : ∀ {raw url host}, L.parseUrl raw = .ok url → url.host = some host →
    ':' ∈ host.toList → host.toList.getLast? = some ']'
  port : ∀ {raw url port default}, L.parseUrl raw = .ok url → url.port = some port →
    defaultPort url.scheme.toList = some default → (toString port).toList ≠ default

end

variable {L : Libraries} {raw origin : String}

theorem ofUrl_ok {default rest : List Char} {url : ParsedUrl} {host : String}
    (h : ofUrl default rest url host = .ok origin) :
    ∃ port, '@' ∉ (rest.takeWhile fun c => !endsAuthority c) ∧
      ((rest.dropWhile fun c => !endsAuthority c) = [] ∨
        (rest.dropWhile fun c => !endsAuthority c) = ['/']) ∧
      (splitPort (rest.takeWhile fun c => !endsAuthority c)).1.map lowerChar = host.toList ∧
      agreedPort default (splitPort (rest.takeWhile fun c => !endsAuthority c)).2 url.port =
        some port ∧
      origin.toList = showOrigin url.scheme.toList host.toList
        (port.map fun p => (toString p).toList) := by
  rw [ofUrl] at h
  rcases hsurplus : surplus url (rest.takeWhile fun c => !endsAuthority c) with _ | refusal
  · simp only [hsurplus] at h
    have hat : '@' ∉ (rest.takeWhile fun c => !endsAuthority c) := by
      rw [surplus] at hsurplus
      split_ifs at hsurplus with hcredentials
      exact fun hat => hcredentials (Or.inr (Or.inr hat))
    split_ifs at h with htail hhost
    rcases hport : agreedPort default (splitPort (rest.takeWhile fun c => !endsAuthority c)).2
      url.port with _ | port
    · simp only [hport] at h
      exact nomatch h
    · simp only [hport] at h
      split_ifs at h
      refine ⟨port, hat, ?_, not_not.mp hhost, rfl, ?_⟩
      · tauto
      · rw [← Except.ok.inj h, String.toList_ofList]
  · simp only [hsurplus] at h
    exact nomatch h

/-- What is accepted was typed so, and parsed so. -/
theorem canonicalOrigin_ok (h : canonicalOrigin L raw = .ok origin) :
    ∃ scheme rest default url host port,
      splitOnceAt "://".toList raw.toList = some (scheme, rest) ∧
      defaultPort (scheme.map lowerChar) = some default ∧ L.parseUrl raw = .ok url ∧
      url.host = some host ∧ '@' ∉ (rest.takeWhile fun c => !endsAuthority c) ∧
      ((rest.dropWhile fun c => !endsAuthority c) = [] ∨
        (rest.dropWhile fun c => !endsAuthority c) = ['/']) ∧
      (splitPort (rest.takeWhile fun c => !endsAuthority c)).1.map lowerChar = host.toList ∧
      agreedPort default (splitPort (rest.takeWhile fun c => !endsAuthority c)).2 url.port =
        some port ∧
      origin.toList = showOrigin url.scheme.toList host.toList
        (port.map fun p => (toString p).toList) := by
  rw [canonicalOrigin] at h
  split at h
  · exact nomatch h
  · split at h
    · exact nomatch h
    · rename_i scheme rest hsplit
      split at h
      · exact nomatch h
      · rename_i default hdefault
        split at h
        · exact nomatch h
        · exact nomatch h
        · rename_i url hparse
          split at h
          · exact nomatch h
          · rename_i host hhost
            exact ⟨scheme, rest, default, url, host, (ofUrl_ok h).imp fun port hport =>
              ⟨hsplit, hdefault, hparse, hhost, hport⟩⟩

/-! ### The two readings agree -/

/-- What an accepted scheme is. -/
theorem scheme_of_defaultPort {scheme default : List Char}
    (h : defaultPort (scheme.map lowerChar) = some default) :
    ':' ∉ scheme ∧ (∀ c ∈ scheme, c.isAlpha = true) ∧
      ∀ port, isDefaultPort (scheme.map lowerChar) port = (port == default) := by
  have hcases : scheme.map lowerChar = "https".toList ∧ "443".toList = default ∨
      scheme.map lowerChar = "http".toList ∧ "80".toList = default := by
    rw [defaultPort] at h
    split_ifs at h with hs hs'
    · exact Or.inl ⟨hs, Option.some.inj h⟩
    · exact Or.inr ⟨hs', Option.some.inj h⟩
  have hletters : ∀ c ∈ scheme, 97 ≤ (lowerChar c).toNat ∧ (lowerChar c).toNat ≤ 122 := by
    intro c hc
    have hmem : lowerChar c ∈ scheme.map lowerChar := List.mem_map_of_mem hc
    have hall : ∀ d ∈ "https".toList ++ "http".toList, 97 ≤ d.toNat ∧ d.toNat ≤ 122 := by decide
    refine hall _ (List.mem_append.mpr (hcases.imp ?_ ?_))
    · exact fun h => h.1 ▸ hmem
    · exact fun h => h.1 ▸ hmem
  refine ⟨fun hm => absurd (hletters _ hm) (by decide), fun c hc => ?_, fun port => ?_⟩
  · have hc := hletters c hc
    rw [toNat_lowerChar] at hc
    rw [isAlpha_iff]
    split_ifs at hc <;> omega
  · rcases hcases with ⟨hs, rfl⟩ | ⟨hs, rfl⟩
    · simp [isDefaultPort, hs]
    · simp [isDefaultPort, hs]

/-- The port that is written is the one the keystore keeps. -/
theorem agreedPort_eq {default : List Char} {typed : Option (List Char)} {parsed port : Option ℕ}
    (h : agreedPort default typed parsed = some port)
    (hparsed : ∀ p, parsed = some p → (toString p).toList ≠ default) :
    typed.filter (fun p => !(p == default)) = port.map fun p => (toString p).toList := by
  rcases typed with _ | typed <;> rcases parsed with _ | parsed
  · obtain rfl := Option.some.inj h
    rfl
  · exact nomatch h
  · rw [agreedPort] at h
    split_ifs at h with htyped
    obtain rfl := Option.some.inj h
    simp [htyped]
  · rw [agreedPort] at h
    split_ifs at h with htyped
    obtain rfl := Option.some.inj h
    have hne := hparsed parsed rfl
    rw [← htyped] at hne
    rw [Option.filter_some_pos (by simpa using hne), htyped]
    rfl

theorem plain_of_isDigit {c : Char} (h : c.isDigit = true) : Plain c := by
  rw [isDigit_iff] at h
  constructor
  · simp only [isWhitespace, Bool.or_eq_false_iff, Bool.and_eq_false_iff, decide_eq_false_iff_not,
      beq_eq_false_iff_ne]
    omega
  · intro hmem
    have hall : ∀ d ∈ ['/', '?', '#', '@'], ¬(48 ≤ d.toNat ∧ d.toNat ≤ 57) := by decide
    exact hall c hmem h

theorem Plain.endsAuthority {c : Char} (h : Plain c) : Syndeo.endsAuthority c = false := by
  rw [← Bool.not_eq_true]
  intro hends
  refine h.2 ?_
  simp only [Syndeo.endsAuthority, Bool.or_eq_true, beq_iff_eq] at hends
  simp only [List.mem_cons]
  tauto

/-- Nothing in an accepted authority ends it, or could be trimmed off. -/
theorem plain_authority {authority host : List Char}
    (htyped : (splitPort authority).1.map lowerChar = host) (hplain : ∀ c ∈ host, Plain c) :
    ∀ c ∈ authority, Plain c := by
  intro c hc
  rcases mem_of_mem_authority hc with hc | rfl | hc
  · have hlower := hplain (lowerChar c) (htyped ▸ List.mem_map_of_mem hc)
    refine ⟨by rw [← isWhitespace_lowerChar, hlower.1], fun hmem => hlower.2 ?_⟩
    have hsame : lowerChar c = c := (lowerChar_eq_iff (by
      have hall : ∀ d ∈ ['/', '?', '#', '@'], d.toNat < 65 := by decide
      exact hall c hmem)).mpr rfl
    rwa [hsame]
  · exact ⟨by decide, by decide⟩
  · exact plain_of_isDigit hc

/-- Nothing is trimmed off an origin whose parts are plain. -/
theorem trimChars_origin {scheme authority tail : List Char}
    (hscheme : ∀ c ∈ scheme, c.isAlpha = true) (hauthority : ∀ c ∈ authority, Plain c)
    (htail : tail = [] ∨ tail = ['/']) :
    trimChars (scheme ++ ("://".toList ++ (authority ++ tail))) =
      scheme ++ ("://".toList ++ (authority ++ tail)) := by
  have hall : ∀ c ∈ scheme ++ ("://".toList ++ (authority ++ tail)), isWhitespace c = false := by
    intro c hc
    simp only [List.mem_append] at hc
    rcases hc with hc | hc | hc | hc
    · have halpha := isAlpha_iff.mp (hscheme c hc)
      simp only [isWhitespace, Bool.or_eq_false_iff, Bool.and_eq_false_iff,
        decide_eq_false_iff_not, beq_eq_false_iff_ne]
      omega
    · have hseparator : ∀ c ∈ "://".toList, isWhitespace c = false := by decide
      exact hseparator c hc
    · exact (hauthority c hc).1
    · rcases htail with rfl | rfl
      · exact absurd hc List.not_mem_nil
      · rw [List.mem_singleton.mp hc]
        decide
  exact trimChars_eq_self (fun c hc => hall c (List.mem_of_head? hc))
    fun c hc => hall c (List.mem_of_getLast? hc)

/-- A port, as it is written after a host. -/
def shownPort : Option ℕ → List Char
  | none => []
  | some p => ':' :: (toString p).toList

theorem showOrigin_eq {scheme host : List Char} {port : Option ℕ} :
    showOrigin scheme host (port.map fun p => (toString p).toList) =
      scheme ++ ("://".toList ++ (host ++ shownPort port)) := by
  rw [showOrigin, List.append_assoc, List.append_assoc]
  cases port <;> rfl

/-- The port that is written is the one that was parsed. -/
theorem parsed_of_agreedPort {default : List Char} {typed : Option (List Char)}
    {parsed : Option ℕ} {p : ℕ} (h : agreedPort default typed parsed = some (some p)) :
    parsed = some p := by
  rcases typed with _ | typed <;> rcases parsed with _ | parsed
  · exact nomatch h
  · exact nomatch h
  · rw [agreedPort] at h
    split_ifs at h
    exact nomatch Option.some.inj h
  · rw [agreedPort] at h
    split_ifs at h
    exact Option.some.inj h

/-- **What the keystore reads in the origin as it was typed** is the canonical form. -/
theorem canonicalOrigin_typed (hL : Documented L) (h : canonicalOrigin L raw = .ok origin) :
    Syndeo.canonicalOrigin raw = origin := by
  obtain ⟨scheme, rest, default, url, host, port, hsplit, hdefault, hparse, hhost, hat, htail,
    htyped, hport, horigin⟩ := canonicalOrigin_ok h
  obtain ⟨hcolon, halpha, hdefaultPort⟩ := scheme_of_defaultPort hdefault
  have hscheme : url.scheme.toList = scheme.map lowerChar := hL.scheme hparse hsplit halpha
  have hraw : raw.toList = scheme ++ ("://".toList ++
      ((rest.takeWhile fun c => !endsAuthority c) ++ rest.dropWhile fun c => !endsAuthority c)) := by
    rw [List.takeWhile_append_dropWhile, ← List.append_assoc]
    exact eq_append_of_splitOnceAt hsplit
  have hplain := plain_authority htyped (hL.plain hparse hhost)
  have hagreed := agreedPort_eq hport fun p hp =>
    hL.port hparse hp (by rw [hscheme]; exact hdefault)
  have htailEnds : ∀ c ∈ (rest.dropWhile fun c => !endsAuthority c).head?,
      endsAuthority c = true := by
    rcases htail with htail | htail <;> rw [htail]
    · exact fun c hc => nomatch hc
    · rintro c hc
      obtain rfl := Option.some.inj hc
      rfl
  refine String.toList_injective ?_
  rw [Syndeo.canonicalOrigin, String.toList_ofList, hraw,
    canonicalOriginChars_eq (trimChars_origin halpha hplain htail) hcolon
      (fun c hc => (hplain c hc).endsAuthority) hat htailEnds, htyped, horigin, hscheme]
  simp only [hdefaultPort]
  rw [hagreed]

/-- **What it reads in the canonical form** is the canonical form. -/
theorem canonicalOrigin_canonical (hL : Documented L) (h : canonicalOrigin L raw = .ok origin) :
    Syndeo.canonicalOrigin origin = origin := by
  obtain ⟨scheme, rest, default, url, host, port, hsplit, hdefault, hparse, hhost, hat, htail,
    htyped, hport, horigin⟩ := canonicalOrigin_ok h
  obtain ⟨-, halpha, -⟩ := scheme_of_defaultPort hdefault
  have hscheme : url.scheme.toList = scheme.map lowerChar := hL.scheme hparse hsplit halpha
  have hlower : ∀ cs : List Char, (cs.map lowerChar).map lowerChar = cs.map lowerChar := by
    intro cs
    rw [List.map_map]
    exact List.map_congr_left fun c _ => lowerChar_lowerChar c
  rw [← hlower scheme] at hdefault
  obtain ⟨hcolon, halpha', hdefaultPort⟩ := scheme_of_defaultPort hdefault
  rw [hlower] at hdefault hdefaultPort
  have hplain := hL.plain hparse hhost
  -- the port is read off the end of the host again, and is not the default one
  have hread : splitPort (host.toList ++ shownPort port) =
        (host.toList, port.map fun p => (toString p).toList) ∧
      (∀ c ∈ host.toList ++ shownPort port, Plain c) ∧
      (port.map fun p => (toString p).toList).filter (fun p => !(p == default)) =
        port.map fun p => (toString p).toList := by
    rcases port with _ | p
    · refine ⟨?_, ?_, rfl⟩
      · rw [shownPort, List.append_nil]
        exact splitPort_host (hL.bracketed hparse hhost)
      · rw [shownPort, List.append_nil]
        exact hplain
    · obtain ⟨hne, hdigits⟩ := toList_toString_nat p
      refine ⟨splitPort_append hne hdigits, fun c hc => ?_, ?_⟩
      · rcases List.mem_append.mp hc with hc | hc
        · exact hplain c hc
        · rcases List.mem_cons.mp hc with rfl | hc
          · exact ⟨by decide, by decide⟩
          · exact plain_of_isDigit (hdigits c hc)
      · have hshown : (toString p).toList ≠ default :=
          hL.port hparse (parsed_of_agreedPort hport) (by rw [hscheme]; exact hdefault)
        rw [Option.map_some, Option.filter_some_pos (by simpa using hshown)]
  obtain ⟨hsplitPort, hplain, hkept⟩ := hread
  have hat : '@' ∉ host.toList ++ shownPort port := fun hm => (hplain _ hm).2 (by decide)
  have hhostLower : host.toList.map lowerChar = host.toList := by rw [← htyped, hlower]
  have horigin' : origin.toList = scheme.map lowerChar ++ ("://".toList ++
      ((host.toList ++ shownPort port) ++ [])) := by
    rw [horigin, hscheme, showOrigin_eq, List.append_nil]
  refine String.toList_injective ?_
  rw [Syndeo.canonicalOrigin, String.toList_ofList, horigin',
    canonicalOriginChars_eq (trimChars_origin halpha' hplain (Or.inl rfl)) hcolon
      (fun c hc => (hplain c hc).endsAuthority) hat (fun c hc => nomatch hc), hsplitPort,
    hlower, hhostLower]
  simp only [hdefaultPort]
  rw [hkept, showOrigin_eq, List.append_nil]

/-- **The shell and the keystore agree on origins.** -/
theorem origins_agree (P : Platform) (L : Libraries) (hL : Documented L) :
    (∀ raw origin, canonicalOrigin L raw = .ok origin →
      Syndeo.canonicalOrigin raw = origin ∧ Syndeo.canonicalOrigin origin = origin ∧
        originPath P raw = originPath P origin) ∧
    Set.InjOn Syndeo.canonicalOrigin {origin | ∃ raw, canonicalOrigin L raw = .ok origin} := by
  constructor
  · intro raw origin h
    have htyped := canonicalOrigin_typed hL h
    have hcanonical := canonicalOrigin_canonical hL h
    exact ⟨htyped, hcanonical, by rw [originPath, originPath, htyped, hcanonical]⟩
  · rintro o ⟨raw, h⟩ o' ⟨raw', h'⟩ hsame
    rwa [canonicalOrigin_canonical hL h, canonicalOrigin_canonical hL h'] at hsame

/-- A parser that knows one URL, and the controls of ASCII and Latin-1. -/
def sampleLibraries : Libraries where
  parseUrl := fun raw =>
    if raw = "HTTPS://A.test:443/" then
      .ok ⟨"https", "", none, some "a.test", none, "/", none, none⟩
    else .error .other
  generalCategory := fun c =>
    if c.toNat < 32 ∨ (127 ≤ c.toNat ∧ c.toNat < 160) then .control else .other

theorem documented_sampleLibraries : Documented sampleLibraries := by
  have hparse : ∀ {raw url}, sampleLibraries.parseUrl raw = .ok url →
      raw = "HTTPS://A.test:443/" ∧
        url = ⟨"https", "", none, some "a.test", none, "/", none, none⟩ := by
    intro raw url h
    simp only [sampleLibraries] at h
    split_ifs at h with hraw
    exact ⟨hraw, (Except.ok.inj h).symm⟩
  constructor
  · intro raw url scheme rest h hsplit _
    obtain ⟨rfl, rfl⟩ := hparse h
    have hsplit' : splitOnceAt "://".toList "HTTPS://A.test:443/".toList =
        some ("HTTPS".toList, "A.test:443/".toList) := by decide
    obtain ⟨rfl, -⟩ := Prod.mk.inj (Option.some.inj (hsplit'.symm.trans hsplit))
    decide
  · intro raw url host h hhost
    obtain ⟨rfl, rfl⟩ := hparse h
    obtain rfl : "a.test" = host := Option.some.inj hhost
    unfold Plain
    decide
  · intro raw url host h hhost hcolon
    obtain ⟨rfl, rfl⟩ := hparse h
    obtain rfl : "a.test" = host := Option.some.inj hhost
    exact absurd hcolon (by decide)
  · intro raw url port default h hport
    obtain ⟨rfl, rfl⟩ := hparse h
    exact nomatch hport

/-- An origin that was typed with its default port, in capitals. -/
theorem origins_agree_sample :
    Syndeo.canonicalOrigin "HTTPS://A.test:443/" = "https://a.test" ∧
      originPath .sample "HTTPS://A.test:443/" = originPath .sample "https://a.test" := by
  obtain ⟨htyped, -, hpath⟩ := (origins_agree .sample sampleLibraries
    documented_sampleLibraries).1 "HTTPS://A.test:443/" "https://a.test" (by decide)
  exact ⟨htyped, hpath⟩

end Shell

end Syndeo
