import Syndeo.Platform
import Syndeo.Http.HeaderMap

/-!
# The header fields the cache reads

`Cache-Control` and its directives, HTTP dates, the fields that describe a
connection rather than a message, and the boundary of storage: a stored
response's fields are a `Syndeo.StoredHeaders`, built by
`Syndeo.StoredHeaders.forStorage` alone, which leaves out the connection's
fields and the cookies.

What storage does to a field is one lemma, `Syndeo.StoredHeaders.getAll_forStorage`:
every value that is text is kept, in order, unless the field as a whole is left
out.
-/

namespace Syndeo

open Text

/-! ### Cache-Control -/

/-- `CacheControl`: the directives of a request or of a response. -/
structure CacheControl where
  noStore : Bool
  noCache : Bool
  /-- `no-cache="field, field"`: only those fields are unusable. -/
  noCacheFields : List String
  noTransform : Bool
  onlyIfCached : Bool
  mustRevalidate : Bool
  proxyRevalidate : Bool
  mustUnderstand : Bool
  immutable : Bool
  isPublic : Bool
  isPrivate : Bool
  privateFields : List String
  maxAge : Option ℕ
  sMaxage : Option ℕ
  /-- `max-stale` with no value means that any staleness is acceptable. -/
  maxStale : Option (Option ℕ)
  minFresh : Option ℕ
  staleWhileRevalidate : Option ℕ
  staleIfError : Option ℕ
  deriving DecidableEq

namespace CacheControl

/-- No directive at all. -/
def default : CacheControl where
  noStore := false
  noCache := false
  noCacheFields := []
  noTransform := false
  onlyIfCached := false
  mustRevalidate := false
  proxyRevalidate := false
  mustUnderstand := false
  immutable := false
  isPublic := false
  isPrivate := false
  privateFields := []
  maxAge := none
  sMaxage := none
  maxStale := none
  minFresh := none
  staleWhileRevalidate := none
  staleIfError := none

/-- What `split_directives` carries from one character to the next: the finished
directives and the current one, both backwards, and where in a quoted string
it is. -/
structure Splitting where
  out : List (List Char)
  cur : List Char
  inQuotes : Bool
  escaped : Bool

/-- The end of a directive: it is kept unless it is blank. -/
def Splitting.flush (st : Splitting) : List (List Char) :=
  let cur := trimChars st.cur.reverse
  if cur = [] then st.out else cur :: st.out

/-- One character of `split_directives`. -/
def Splitting.push (st : Splitting) (ch : Char) : Splitting :=
  if st.escaped then { st with cur := ch :: st.cur, escaped := false }
  else if ch = '\\' ∧ st.inQuotes then { st with cur := ch :: st.cur, escaped := true }
  else if ch = '"' then { st with cur := ch :: st.cur, inQuotes := !st.inQuotes }
  else if ch = ',' ∧ st.inQuotes = false then { st with out := st.flush, cur := [] }
  else { st with cur := ch :: st.cur }

/-- `split_directives`: split on the commas that are not inside a quoted
string. -/
def splitDirectives (value : String) : List (List Char) :=
  (value.toList.foldl Splitting.push ⟨[], [], false, false⟩).flush.reverse

/-- `replace("\\\"", "\"")`: an escaped quotation mark becomes a bare one. -/
def unescapeQuotes : List Char → List Char
  | '\\' :: '"' :: cs => '"' :: unescapeQuotes cs
  | c :: cs => c :: unescapeQuotes cs
  | [] => []

/-- `unquote`. -/
def unquote (v : List Char) : List Char :=
  if 2 ≤ v.length ∧ v.head? = some '"' ∧ v.getLast? = some '"' then
    unescapeQuotes (v.drop 1).dropLast
  else v

/-- The field names in a directive's argument. -/
def fieldList (arg : Option (List Char)) : List String :=
  match arg with
  | some v =>
    ((v.splitOn ',').map fun f => toAsciiLowercase (String.ofList (trimChars f))).filter (· ≠ "")
  | none => []

/-- `absorb`, for one directive. -/
def absorbDirective (cc : CacheControl) (directive : List Char) : CacheControl :=
  let (name, arg) := match splitOnce '=' directive with
    | some (n, v) => (trimChars n, some (unquote (trimChars v)))
    | none => (trimChars directive, none)
  let secs := arg.bind fun v => parseU64 (trimChars v)
  match toAsciiLowercase (String.ofList name) with
  | "no-store" => { cc with noStore := true }
  | "no-cache" =>
    { cc with noCache := true, noCacheFields := cc.noCacheFields ++ fieldList arg }
  | "no-transform" => { cc with noTransform := true }
  | "only-if-cached" => { cc with onlyIfCached := true }
  | "must-revalidate" => { cc with mustRevalidate := true }
  | "proxy-revalidate" => { cc with proxyRevalidate := true }
  | "must-understand" => { cc with mustUnderstand := true }
  | "immutable" => { cc with immutable := true }
  | "public" => { cc with isPublic := true }
  | "private" =>
    { cc with isPrivate := true, privateFields := cc.privateFields ++ fieldList arg }
  -- a malformed number is as if the directive were absent
  | "max-age" => { cc with maxAge := secs }
  | "s-maxage" => { cc with sMaxage := secs }
  | "max-stale" => { cc with maxStale := some secs }
  | "min-fresh" => { cc with minFresh := secs }
  | "stale-while-revalidate" => { cc with staleWhileRevalidate := secs }
  | "stale-if-error" => { cc with staleIfError := secs }
  | _ => cc

/-- `CacheControl::absorb`. -/
def absorb (cc : CacheControl) (value : String) : CacheControl :=
  (splitDirectives value).foldl absorbDirective cc

/-- `CacheControl::from_headers`: every `Cache-Control` field, or, where none of
them is readable, `Pragma: no-cache`. -/
def fromHeaders (headers : HeaderMap) : CacheControl :=
  let values := (headers.getAll header.cacheControl).filterMap HeaderValue.toStr
  let cc := values.foldl absorb default
  if values = [] ∧ ((headers.getAll header.pragma).filterMap HeaderValue.toStr).any (fun s =>
      (s.toList.splitOn ',').any fun d =>
        eqIgnoreAsciiCase (String.ofList (trimChars d)) "no-cache") then
    { cc with noCache := true }
  else cc

end CacheControl

/-! ### Dates -/

section Dates

variable (P : Platform)

/-- `parse_http_date`. -/
def parseHttpDate (raw : String) : Option ℕ := P.parseHttpDate (trim raw)

/-- `header_date`: the date in a field, if it parses. -/
def headerDate (headers : HeaderMap) (name : HeaderName) : Option ℕ :=
  (headers.getStr name).bind (parseHttpDate P)

end Dates

/-! ### Fields that are not stored -/

/-- `HOP_BY_HOP`. -/
def hopByHop : List String :=
  ["connection", "proxy-connection", "keep-alive", "proxy-authenticate", "proxy-authorization",
    "te", "trailer", "transfer-encoding", "upgrade"]

/-- `is_hop_by_hop`. -/
def isHopByHop (name : String) (connectionTokens : List String) : Bool :=
  hopByHop.contains (toAsciiLowercase name) || connectionTokens.contains (toAsciiLowercase name)

/-- `connection_tokens`: the fields a message says are the connection's. -/
def connectionTokens (headers : HeaderMap) : List String :=
  ((headers.getAll header.connection).filterMap HeaderValue.toStr).flatMap fun s =>
    ((s.toList.splitOn ',').map fun t =>
      toAsciiLowercase (String.ofList (trimChars t))).filter (· ≠ "")

/-- `sanitize`: the end-to-end fields that are text. -/
def sanitize (headers : HeaderMap) : List (String × String) :=
  (headers.fields.filter fun f => !isHopByHop f.1.text (connectionTokens headers)).filterMap
    fun f => f.2.toStr.map fun v => (f.1.text, v)

/-- `NEVER_STORED`. -/
def neverStored : List HeaderName := [header.setCookie, header.setCookie2]

/-- `is_never_stored`. -/
def isNeverStored (name : String) : Bool :=
  neverStored.any fun never => eqIgnoreAsciiCase name never.text

/-- `strip_never_stored`. -/
def stripNeverStored (headers : HeaderMap) : HeaderMap := neverStored.foldl HeaderMap.remove headers

/-- `to_header_map`: the fields whose names and values the `http` crate takes. -/
def toHeaderMap (pairs : List (String × String)) : HeaderMap :=
  ⟨pairs.filterMap fun p =>
    (HeaderName.fromBytes p.1).bind fun n => (HeaderValue.fromStr p.2).map fun v => (n, v)⟩

/-- `StoredHeaders`: the fields of a stored response, as text. -/
structure StoredHeaders where
  pairs : List (String × String)
  deriving DecidableEq

namespace StoredHeaders

/-- `StoredHeaders::for_storage`, the only way to make one. -/
def forStorage (headers : HeaderMap) : StoredHeaders :=
  ⟨(sanitize headers).filter fun p => !isNeverStored p.1⟩

/-- `StoredHeaders::to_header_map`. -/
def toHeaderMap (h : StoredHeaders) : HeaderMap := Syndeo.toHeaderMap h.pairs

/-- A field that is left out of storage as a whole. -/
def omits (headers : HeaderMap) (n : HeaderName) : Bool :=
  isHopByHop n.text (connectionTokens headers) || isNeverStored n.text

/-- The fields that come back from storage: those that are text, unless they are
left out. -/
theorem fields_forStorage (headers : HeaderMap) :
    (forStorage headers).toHeaderMap.fields =
      headers.fields.filter fun f => !omits headers f.1 && f.2.toStr.isSome := by
  rw [toHeaderMap, Syndeo.toHeaderMap, forStorage, sanitize]
  simp only [omits]
  generalize connectionTokens headers = tokens
  induction headers.fields with
  | nil => rfl
  | cons f l ih =>
    obtain ⟨n, v⟩ := f
    rcases hop : isHopByHop n.text tokens with _ | _
    · rcases hs : v.toStr with _ | s
      · simpa [List.filterMap_cons, hop, hs] using ih
      · rcases hn : isNeverStored n.text with _ | _
        · simpa [List.filterMap_cons, hop, hs, hn, HeaderName.fromBytes_text,
            HeaderValue.fromStr_of_toStr hs] using ih
        · simpa [List.filterMap_cons, hop, hs, hn] using ih
    · simpa [List.filterMap_cons, hop] using ih

/-- **What storage does to a field**: its values that are text are kept, in order,
unless the field is left out. -/
theorem getAll_forStorage (headers : HeaderMap) (n : HeaderName) :
    (forStorage headers).toHeaderMap.getAll n =
      if omits headers n then [] else (headers.getAll n).filter fun v => v.toStr.isSome := by
  rw [HeaderMap.getAll, HeaderMap.getAll, fields_forStorage, List.filter_filter,
    List.filter_map, List.filter_filter]
  rcases ho : omits headers n with _ | _
  · rw [if_neg Bool.false_ne_true]
    refine congrArg _ (List.filter_congr fun f _ => ?_)
    by_cases hf : f.1 = n
    · simp [hf, ho]
    · simp [hf]
  · rw [if_pos rfl, List.map_eq_nil_iff, List.filter_eq_nil_iff]
    rintro f - h
    obtain ⟨hf, hnot⟩ : f.1 = n ∧ _ := by simpa using h
    simp [hf, ho] at hnot

/-- A field that is text, and not left out, comes back from storage as it was. -/
theorem getStr_forStorage {headers : HeaderMap} {n : HeaderName} {s : String}
    (hs : headers.getStr n = some s) (ho : omits headers n = false) :
    (forStorage headers).toHeaderMap.getStr n = some s := by
  obtain ⟨v, hv, hvs⟩ := Option.bind_eq_some_iff.mp hs
  rw [HeaderMap.getStr, HeaderMap.get, getAll_forStorage, ho, if_neg Bool.false_ne_true]
  obtain ⟨l, hl⟩ : ∃ l, headers.getAll n = v :: l := by
    rw [HeaderMap.get] at hv
    rcases hall : headers.getAll n with _ | ⟨w, l⟩
    · simp [hall] at hv
    · simp only [hall, List.head?_cons, Option.some.injEq] at hv
      exact ⟨l, by rw [hv]⟩
  simp [hl, hvs]

end StoredHeaders

/-! ### Content codings -/

/-- What `parse::<f32>` makes of the part of a weight after its sign: a
mantissa and a decimal exponent. -/
def decimalParts (cs : List Char) : Option (ℕ × ℤ) :=
  let whole := cs.takeWhile Char.isDigit
  let rest := cs.dropWhile Char.isDigit
  let (fraction, rest) := match rest with
    | '.' :: cs => (cs.takeWhile Char.isDigit, cs.dropWhile Char.isDigit)
    | _ => ([], rest)
  match digitsValue 0 (whole ++ fraction), rest with
  | some m, [] => if whole ++ fraction = [] then none else some (m, -fraction.length)
  | some m, e :: cs =>
    if whole ++ fraction = [] ∨ ¬(e = 'e' ∨ e = 'E') then none
    else
      let (negative, cs) := match cs with
        | '-' :: cs => (true, cs)
        | '+' :: cs => (false, cs)
        | _ => (false, cs)
      if cs = [] then none
      else (digitsValue 0 cs).map fun x =>
        (m, (if negative then -(x : ℤ) else x) - fraction.length)
  | none, _ => none

/-- Whether `m * 10 ^ e` is above zero once it is rounded to an `f32`: half the
least of those is `2 ^ -150`, and the tie goes to the even one, which is zero. -/
def roundsAboveZero (m : ℕ) (e : ℤ) : Bool :=
  m ≠ 0 && (0 ≤ e || 10 ^ e.natAbs < m * 2 ^ 150)

/-- `q.parse::<f32>().map(|q| q > 0.0).unwrap_or(false)`. -/
def weightAboveZero (cs : List Char) : Bool :=
  match cs with
  | '-' :: _ => false
  | _ =>
    let cs := match cs with
      | '+' :: cs => cs
      | cs => cs
    let name := String.ofList (cs.map lowerChar)
    name = "inf" || name = "infinity" ||
      match decimalParts cs with
      | some (m, e) => roundsAboveZero m e
      | none => false

/-- `coding_name`: a content coding's name as it is compared. -/
def codingName (raw : List Char) : Option String :=
  match toAsciiLowercase (String.ofList (trimChars raw)) with
  | "" => none
  | "x-gzip" => some "gzip"
  | "x-compress" => some "compress"
  | name => some name

/-- One item of an `Accept-Encoding`: a coding, and whether it is wanted. -/
def codingWeight (item : List Char) : Option (String × Bool) :=
  match item.splitOn ';' with
  | [] => none
  | name :: params =>
    (codingName name).map fun name =>
      let weights := (params.filterMap (splitOnce '=')).filter fun kv =>
        eqIgnoreAsciiCase (String.ofList (trimChars kv.1)) "q"
      (name, match weights.head? with
        | some (_, q) => weightAboveZero (trimChars q)
        | none => true)

/-- `coding_acceptable`: whether a client that sent `accept` can take a body in
the coding `content`. -/
def codingAcceptable (content accept : Option String) : Bool :=
  match accept with
  | none => true
  | some accept =>
    let weights := (accept.toList.splitOn ',').filterMap codingWeight
    let named (coding : String) : Option Bool :=
      (weights.find? fun w => w.1 = coding).map Prod.snd
    ((((content.getD "").toList.splitOn ',').filterMap codingName).filter (· ≠ "identity")).all
      fun coding => ((named coding).or (named "*")).getD false

end Syndeo
