import Syndeo.Cache.Range
import Syndeo.Cache.Vary

/-!
# Freshness, storability and revalidation

The rules of HTTP caching as the source decides them, as functions of the headers
and the time: what may be stored, whether what is stored may answer a request,
and what a confirmation from the origin changes.
-/

namespace Syndeo

open Text

/-- `HEURISTICALLY_CACHEABLE`. -/
def heuristicallyCacheable : List ℕ := [200, 203, 204, 206, 300, 301, 308, 404, 405, 410, 414, 501]

/-- `Eviction`: which entry goes first. -/
inductive Eviction
  | leastRecentlyUsed
  | leastFrequentlyUsed
  | cost
  deriving DecidableEq

/-- `CacheOptions`. -/
structure CacheOptions where
  shared : Bool
  heuristicFraction : ℚ
  maxHeuristicLifetime : ℕ
  maxBodyBytes : ℕ
  /-- `None` lets the cache grow without limit. -/
  capacityBytes : Option ℕ
  eviction : Eviction
  evictToFraction : ℚ

/-- `CacheOptions::default`. -/
def CacheOptions.default : CacheOptions where
  shared := false
  heuristicFraction := 1 / 10
  maxHeuristicLifetime := 24 * 60 * 60
  maxBodyBytes := 256 * 1024 * 1024
  capacityBytes := some (2 * 1024 * 1024 * 1024)
  eviction := .leastRecentlyUsed
  evictToFraction := 9 / 10

/-- `StoredMeta`: what a freshness decision needs of a response. -/
structure StoredMeta where
  status : ℕ
  headers : HeaderMap
  requestTime : ℕ
  responseTime : ℕ

/-- `Freshness`. -/
inductive Freshness
  | fresh (age lifetime : ℕ)
  | serveStale (age lifetime : ℕ) (refreshInBackground : Bool) (reason : String)
  | revalidate (age lifetime : ℕ) (staleIfError : Option ℕ) (reason : String)
  | unusable (reason : String)
  deriving DecidableEq

/-- `Storability`. -/
inductive Storability
  | store
  | reject (reason : String)
  deriving DecidableEq

/-- `is_cacheable_method`. -/
def isCacheableMethod (method : String) : Bool :=
  ["GET", "HEAD"].contains (toAsciiUppercase method)

/-- `invalidates`: the unsafe methods. -/
def invalidates (method : String) : Bool :=
  ! ["GET", "HEAD", "OPTIONS", "TRACE"].contains (toAsciiUppercase method)

/-- `is_heuristically_cacheable`. -/
def isHeuristicallyCacheable (status : ℕ) : Bool := heuristicallyCacheable.contains status

/-- Saturating `u64` addition. -/
def saturatingAdd (a b : ℕ) : ℕ := min (a + b) (u64Bound - 1)

section

variable (P : Platform)

/-- `freshness_lifetime`: in seconds, and whether it is heuristic. -/
def freshnessLifetime (metadata : StoredMeta) (opts : CacheOptions) : ℕ × Bool :=
  let cc := CacheControl.fromHeaders metadata.headers
  let date := (headerDate P metadata.headers header.date).getD metadata.responseTime
  match (if opts.shared then cc.sMaxage else none), cc.maxAge with
  | some s, _ => (s, false)
  | none, some m => (m, false)
  | none, none =>
    match headerDate P metadata.headers header.expires with
    | some expires => (expires - date, false)
    | none =>
      -- an `Expires` that is there and does not parse is in the past
      if metadata.headers.containsKey header.expires then (0, false)
      else if metadata.status = 301 ∨ metadata.status = 308 then (opts.maxHeuristicLifetime, true)
      else match headerDate P metadata.headers header.lastModified with
        | some lastModified =>
          (min (P.scale (date - lastModified) opts.heuristicFraction) opts.maxHeuristicLifetime,
            true)
        | none => (0, true)

/-- `current_age`. -/
def currentAge (metadata : StoredMeta) (now : ℕ) : ℕ :=
  let date := (headerDate P metadata.headers header.date).getD metadata.responseTime
  let ageValue :=
    ((metadata.headers.getStr header.age).bind fun v => parseU64 (trimChars v.toList)).getD 0
  let apparentAge := metadata.responseTime - date
  let responseDelay := metadata.responseTime - metadata.requestTime
  let correctedInitialAge := max apparentAge (saturatingAdd ageValue responseDelay)
  saturatingAdd correctedInitialAge (now - metadata.responseTime)

/-- `storability`: whether a response may be written to the store. -/
def storability (method : String) (requestHeaders : HeaderMap) (metadata : StoredMeta) (bodyLen : ℕ)
    (opts : CacheOptions) : Storability :=
  let reqCc := CacheControl.fromHeaders requestHeaders
  let cc := CacheControl.fromHeaders metadata.headers
  let understood := isHeuristicallyCacheable metadata.status
  let (lifetime, heuristic) := freshnessLifetime P metadata opts
  if !isCacheableMethod method then .reject "method is not cacheable"
  else if opts.maxBodyBytes < bodyLen then .reject "body exceeds max_body_bytes"
  else if reqCc.noStore then .reject "request no-store"
  -- `must-understand` overrides `no-store` where the status is understood
  else if cc.noStore && !(cc.mustUnderstand && understood) then .reject "response no-store"
  else if opts.shared && cc.isPrivate then .reject "private response in a shared cache"
  else if opts.shared && requestHeaders.containsKey header.authorization &&
      !(cc.isPublic || cc.sMaxage.isSome || cc.mustRevalidate) then
    .reject "authorized request without shared-cache permission"
  else if opts.shared && metadata.headers.containsKey header.setCookie && !cc.isPublic then
    .reject "set-cookie in a shared cache"
  else if variesOnEverything (varyFields metadata.headers) then .reject "Vary: *"
  else if metadata.status = 304 then .reject "a conditional response is folded in, not stored"
  else if metadata.status = 206 ∧
      ((metadata.headers.getStr header.contentRange).bind parseContentRange).isNone then
    .reject "206 without a usable Content-Range"
  else if !understood && heuristic then .reject "status needs explicit freshness information"
  else if lifetime = 0 ∧ !metadata.headers.containsKey header.etag ∧
      !metadata.headers.containsKey header.lastModified then
    .reject "no freshness lifetime and no validator"
  else .store

/-- `stale_if_error_allowance`. -/
def staleIfErrorAllowance (cc : CacheControl) (staleness : ℕ) (pinned : Bool) : Option ℕ :=
  if pinned || (cc.noCache && cc.noCacheFields.isEmpty) then none
  else match cc.staleIfError with
    | some window => if staleness ≤ window then some (window - staleness) else none
    | none => none

/-- `evaluate`: whether a stored response may answer a request, and under what
conditions. -/
def evaluate (requestHeaders : HeaderMap) (metadata : StoredMeta) (now : ℕ) (opts : CacheOptions) :
    Freshness :=
  if requestHeaders.containsKey header.ifNoneMatch ||
      requestHeaders.containsKey header.ifModifiedSince ||
      requestHeaders.containsKey header.ifMatch ||
      requestHeaders.containsKey header.ifUnmodifiedSince then
    .unusable "client-supplied conditional"
  else
  let reqCc := CacheControl.fromHeaders requestHeaders
  if reqCc.noStore then .unusable "request no-store"
  else
  let cc := CacheControl.fromHeaders metadata.headers
  let age := currentAge P metadata now
  let lifetime := (freshnessLifetime P metadata opts).1
  let staleness := age - lifetime
  let pinned := cc.mustRevalidate || (opts.shared && cc.proxyRevalidate)
  let staleIfError := staleIfErrorAllowance cc staleness pinned
  if reqCc.noCache then .revalidate age lifetime staleIfError "request no-cache"
  else if cc.noCache && cc.noCacheFields.isEmpty then
    .revalidate age lifetime staleIfError "response no-cache"
  else if reqCc.maxAge.any (· < age) then
    .revalidate age lifetime staleIfError "request max-age exceeded"
  else
  let minFresh := reqCc.minFresh.getD 0
  if saturatingAdd age minFresh < lifetime then .fresh age lifetime
  else if 0 < minFresh ∧ age < lifetime then
    .revalidate age lifetime staleIfError "request min-fresh not satisfied"
  else if !pinned && reqCc.maxStale.any (fun s => s.all (staleness ≤ ·)) then
    .serveStale age lifetime false "request max-stale"
  else if !pinned && cc.staleWhileRevalidate.any (staleness ≤ ·) then
    .serveStale age lifetime true "stale-while-revalidate"
  else .revalidate age lifetime staleIfError (if pinned then "must-revalidate" else "stale")

end

/-- `conditional_headers`: what lets the origin answer 304. -/
def conditionalHeaders (metadata : StoredMeta) : List (HeaderName × String) :=
  ((metadata.headers.getStr header.etag).map fun etag => (header.ifNoneMatch, etag)).toList ++
    ((metadata.headers.getStr header.lastModified).map fun lm =>
      (header.ifModifiedSince, lm)).toList

/-- `has_validator`. -/
def hasValidator (metadata : StoredMeta) : Bool :=
  metadata.headers.containsKey header.etag || metadata.headers.containsKey header.lastModified

/-- `NOT_UPDATED_BY_304`. -/
def notUpdatedBy304 : List String := ["content-length", "content-encoding", "content-range"]

/-- `apply_304`: every field a confirmation names replaces the stored one as a
whole. -/
def apply304 (stored fresh : HeaderMap) : HeaderMap :=
  let tokens := connectionTokens fresh
  let updates (name : HeaderName) : Bool :=
    !isHopByHop name.text tokens && !notUpdatedBy304.contains name.text
  let given := fresh.fields.filter fun f => updates f.1
  ⟨(given.foldl (fun h f => h.remove f.1) stored).fields ++ given⟩

/-- The confirmation replaces this field. -/
def updatedBy304 (fresh : HeaderMap) (name : HeaderName) : Bool :=
  fresh.containsKey name && !isHopByHop name.text (connectionTokens fresh) &&
    !notUpdatedBy304.contains name.text

theorem HeaderMap.containsKey_iff {h : HeaderMap} {n : HeaderName} :
    h.containsKey n = true ↔ ∃ f ∈ h.fields, f.1 = n := by
  simp [containsKey]

theorem HeaderMap.getAll_foldl_remove {given : List (HeaderName × HeaderValue)} {h : HeaderMap}
    {n : HeaderName} : (given.foldl (fun h f => h.remove f.1) h).getAll n =
      if given.any fun f => f.1 = n then [] else h.getAll n := by
  induction given generalizing h with
  | nil => rfl
  | cons f given ih =>
    rw [List.foldl_cons, ih, List.any_cons]
    by_cases hf : f.1 = n
    · simp [hf]
    · rw [getAll_remove_of_ne (Ne.symm hf), decide_eq_false hf, Bool.false_or]

/-- **What a confirmation does to a field**: it is replaced as a whole, or left alone. -/
theorem getAll_apply304 {stored fresh : HeaderMap} {n : HeaderName} :
    (apply304 stored fresh).getAll n =
      if updatedBy304 fresh n then fresh.getAll n else stored.getAll n := by
  let updates (name : HeaderName) : Bool :=
    !isHopByHop name.text (connectionTokens fresh) && !notUpdatedBy304.contains name.text
  let given := fresh.fields.filter fun f => updates f.1
  have happend : (apply304 stored fresh).getAll n =
      (given.foldl (fun h f => h.remove f.1) stored).getAll n ++ HeaderMap.getAll ⟨given⟩ n := by
    rw [HeaderMap.getAll, HeaderMap.getAll, HeaderMap.getAll, ← List.map_append,
      ← List.filter_append]
    rfl
  have hgiven : HeaderMap.getAll ⟨given⟩ n = if updates n then fresh.getAll n else [] := by
    rw [HeaderMap.getAll, HeaderMap.getAll, List.filter_filter]
    split
    · rename_i hupdates
      refine congrArg _ (List.filter_congr fun f _ => ?_)
      by_cases hf : f.1 = n
      · simp [hf, hupdates]
      · simp [hf]
    · rename_i hupdates
      refine List.map_eq_nil_iff.mpr (List.filter_eq_nil_iff.mpr fun f _ hf => hupdates ?_)
      obtain ⟨hname, hf⟩ := Bool.and_eq_true_iff.mp hf
      rwa [← of_decide_eq_true hname]
  have hany : (given.any fun f => f.1 = n) = (fresh.containsKey n && updates n) := by
    rw [Bool.eq_iff_iff, List.any_eq_true, Bool.and_eq_true, HeaderMap.containsKey_iff]
    constructor
    · rintro ⟨f, hf, hname⟩
      obtain ⟨hmem, hupdates⟩ := List.mem_filter.mp hf
      obtain rfl := of_decide_eq_true hname
      exact ⟨⟨f, hmem, rfl⟩, hupdates⟩
    · rintro ⟨⟨f, hmem, rfl⟩, hupdates⟩
      exact ⟨f, List.mem_filter.mpr ⟨hmem, hupdates⟩, decide_eq_true rfl⟩
  have hupdated : updatedBy304 fresh n = (fresh.containsKey n && updates n) :=
    Bool.and_assoc _ _ _
  rw [happend, hgiven, HeaderMap.getAll_foldl_remove, hany, hupdated]
  rcases hkey : fresh.containsKey n with _ | _
  · have hnone : fresh.getAll n = [] := by
      refine List.map_eq_nil_iff.mpr (List.filter_eq_nil_iff.mpr fun f hf hname => ?_)
      exact absurd (HeaderMap.containsKey_iff.mpr ⟨f, hf, of_decide_eq_true hname⟩) (by simp [hkey])
    simp [hnone]
  · rcases updates n with _ | _
    · simp
    · simp

/-- `suppressed_fields`: what is left out on serving a response stored with a
qualified `no-cache` or `private`. -/
def suppressedFields (metadata : StoredMeta) : List String :=
  let cc := CacheControl.fromHeaders metadata.headers
  cc.noCacheFields ++ cc.privateFields

end Syndeo
