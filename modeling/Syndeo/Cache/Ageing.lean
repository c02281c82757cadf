import Syndeo.Cache.Staleness
import Syndeo.Cache.Write

/-!
# Age

How old a stored response is, and what that decides. The age is a number of
seconds made of the `Date` and the `Age` of the response and of when it was asked
for and received, and it grows with the clock.

The additions saturate, so the age is the one that mathematics gives or the
greatest there is. What does not saturate is the reading of a number: one that
does not fit is not read at all, and an `Age` that large counts for none
(`Syndeo.delta_seconds_count_iff`).
-/

namespace Syndeo

open Text

open Concurrent (Prog)

variable {P : Platform} {metadata : StoredMeta} {opts : CacheOptions} {requestHeaders : HeaderMap}
  {now : ℕ}

/-! ### Delta-seconds -/

/-- The greatest number of seconds that has to be told apart. -/
def deltaBound : ℕ := 2 ^ 31

/-- A number in decimal digits. -/
structure IsDelta (d : String) (n : ℕ) : Prop where
  ne : d.toList ≠ []
  digits : ∀ c ∈ d.toList, c.isDigit = true
  value : Nat.ofDigitChars 10 d.toList 0 = n

/-- An `Age` of so many seconds makes a response at least that old. -/
def AgeCounts (P : Platform) (d : String) (n : ℕ) : Prop :=
  ∀ (metadata : StoredMeta) (now : ℕ), metadata.headers.getStr header.age = some d →
    min n deltaBound ≤ currentAge P metadata now

/-- Nothing but this `max-age` says how long a response is fresh. -/
structure OnlyMaxAge (h : HeaderMap) (d : String) : Prop where
  cacheControl : ∃ v, h.getAll header.cacheControl = [v] ∧ v.toStr = some ("max-age=" ++ d)
  expires : h.getAll header.expires = []
  lastModified : h.getAll header.lastModified = []

/-- A `max-age` of so many seconds makes a response fresh for at least that long. -/
def LifetimeCounts (P : Platform) (d : String) (n : ℕ) : Prop :=
  ∀ (metadata : StoredMeta) (opts : CacheOptions), OnlyMaxAge metadata.headers d →
    min n deltaBound ≤ (freshnessLifetime P metadata opts).1

/-- The `Age` that is read of a response. -/
def ageValue (h : HeaderMap) : ℕ :=
  ((h.getStr header.age).bind fun v => parseU64 (trimChars v.toList)).getD 0

/-- The age of a response without a bound. -/
def unboundedAge (P : Platform) (metadata : StoredMeta) (now : ℕ) : ℕ :=
  let date := (headerDate P metadata.headers header.date).getD metadata.responseTime
  max (metadata.responseTime - date)
      (ageValue metadata.headers + (metadata.responseTime - metadata.requestTime)) +
    (now - metadata.responseTime)

/-- A bound that is taken again before more is added is no other bound. -/
theorem min_max_min_add (a b c bound : ℕ) :
    min (max a (min b bound) + c) bound = min (max a b + c) bound := by
  rcases Nat.le_total b bound with hle | hle
  · rw [min_eq_left hle]
  · have hbounded : bound ≤ max a bound + c := Nat.le_add_right_of_le (le_max_right _ _)
    have hunbounded : bound ≤ max a b + c :=
      Nat.le_add_right_of_le (Nat.le_trans hle (le_max_right _ _))
    rw [min_eq_right hle, min_eq_right hbounded, min_eq_right hunbounded]

/-- **The age never overflows**: it is what mathematics gives, or the greatest
number there is. -/
theorem currentAge_eq_min (P : Platform) (metadata : StoredMeta) (now : ℕ) :
    currentAge P metadata now = min (unboundedAge P metadata now) (u64Bound - 1) := by
  rw [currentAge, unboundedAge]
  dsimp only [ageValue, saturatingAdd]
  exact min_max_min_add _ _ _ _

section Delta

variable {d : String} {n : ℕ}

/-- Digits have nothing around them. -/
theorem IsDelta.trimChars (h : IsDelta d n) : trimChars d.toList = d.toList :=
  trimChars_eq_self (fun c hc => isWhitespace_of_isDigit (h.digits c (List.mem_of_mem_head? hc)))
    fun c hc => isWhitespace_of_isDigit (h.digits c (List.mem_of_getLast? hc))

/-- **A number is read where it fits.** -/
theorem IsDelta.parseU64 (h : IsDelta d n) :
    parseU64 d.toList = if n < u64Bound then some n else none := by
  rw [parseU64_of_digits h.ne h.digits, h.value]
  by_cases hlt : n < u64Bound
  · rw [if_pos hlt, Option.filter_some, if_pos (by simpa using hlt)]
  · rw [if_neg hlt, Option.filter_some, if_neg (by simpa using hlt)]

/-- What is read of an `Age`. -/
theorem IsDelta.ageValue (h : IsDelta d n) {headers : HeaderMap}
    (hage : headers.getStr header.age = some d) :
    ageValue headers = if n < u64Bound then n else 0 := by
  rw [Syndeo.ageValue, hage, Option.bind_some, h.trimChars, h.parseU64]
  split_ifs <;> rfl

/-- A text without marks is one directive. -/
theorem splitDirectives_of_unmarked {s : String}
    (h : ∀ c ∈ s.toList, c ≠ '\\' ∧ c ≠ '"' ∧ c ≠ ',') (hne : trimChars s.toList ≠ []) :
    CacheControl.splitDirectives s = [trimChars s.toList] := by
  have hfold : ∀ (cs cur : List Char), (∀ c ∈ cs, c ≠ '\\' ∧ c ≠ '"' ∧ c ≠ ',') →
      cs.foldl CacheControl.Splitting.push ⟨[], cur, false, false⟩ =
        ⟨[], cs.reverse ++ cur, false, false⟩ := by
    intro cs
    induction cs with
    | nil => exact fun _ _ => rfl
    | cons c cs ih =>
      intro cur hcs
      obtain ⟨hescape, hquote, hcomma⟩ := hcs c List.mem_cons_self
      have hpush : CacheControl.Splitting.push ⟨[], cur, false, false⟩ c =
          ⟨[], c :: cur, false, false⟩ := by
        simp [CacheControl.Splitting.push, hescape, hquote, hcomma]
      rw [List.foldl_cons, hpush, ih _ fun d hd => hcs d (List.mem_cons_of_mem _ hd)]
      simp
  rw [CacheControl.splitDirectives, hfold _ _ h, CacheControl.Splitting.flush]
  simp only [List.append_nil, List.reverse_reverse]
  rw [if_neg hne]
  rfl

/-- What is read of a `max-age`. -/
theorem IsDelta.maxAge (h : IsDelta d n) : CacheControl.absorb .default ("max-age=" ++ d) =
    { CacheControl.default with maxAge := if n < u64Bound then some n else none } := by
  have htext : ("max-age=" ++ d).toList = "max-age".toList ++ '=' :: d.toList := by
    rw [String.toList_append]
    exact congrArg (· ++ d.toList) (by decide : "max-age=".toList = "max-age".toList ++ ['='])
  have hunmarked : ∀ c ∈ ("max-age=" ++ d).toList, c ≠ '\\' ∧ c ≠ '"' ∧ c ≠ ',' := by
    intro c hc
    rw [htext] at hc
    rcases List.mem_append.mp hc with hc | hc
    · have hname : ∀ c ∈ "max-age".toList, c ≠ '\\' ∧ c ≠ '"' ∧ c ≠ ',' := by decide
      exact hname c hc
    · rcases List.mem_cons.mp hc with rfl | hc
      · decide
      · have hdigit := h.digits c hc
        refine ⟨?_, ?_, ?_⟩
        · rintro rfl
          exact absurd hdigit (by decide)
        · rintro rfl
          exact absurd hdigit (by decide)
        · rintro rfl
          exact absurd hdigit (by decide)
  have htrim : Text.trimChars ("max-age=" ++ d).toList = ("max-age=" ++ d).toList := by
    rw [htext]
    refine trimChars_eq_self (fun c hc => ?_) fun c hc => ?_
    · obtain rfl : 'm' = c := Option.some.inj hc
      decide
    · rw [List.getLast?_append_of_ne_nil _ (List.cons_ne_nil _ _),
        List.getLast?_cons_of_ne_nil h.ne] at hc
      exact isWhitespace_of_isDigit (h.digits c (List.mem_of_getLast? hc))
  have hne : Text.trimChars ("max-age=" ++ d).toList ≠ [] := by
    rw [htrim, htext]
    exact List.cons_ne_nil _ _
  have hunquote : CacheControl.unquote d.toList = d.toList := by
    refine if_neg fun hq => ?_
    exact absurd (h.digits '"' (List.mem_of_mem_head? hq.2.1)) (by decide)
  rw [CacheControl.absorb, splitDirectives_of_unmarked hunmarked hne, htrim, htext,
    List.foldl_cons, List.foldl_nil, CacheControl.absorbDirective,
    splitOnce_append (by decide : '=' ∉ "max-age".toList)]
  dsimp only
  rw [h.trimChars, hunquote, Option.bind_some, h.trimChars, h.parseU64]
  have hlower : toAsciiLowercase (String.ofList (Text.trimChars "max-age".toList)) = "max-age" := by
    decide
  rw [hlower]
  rfl

theorem OnlyMaxAge.fromHeaders {headers : HeaderMap} (h : IsDelta d n)
    (hmax : OnlyMaxAge headers d) : CacheControl.fromHeaders headers =
      { CacheControl.default with maxAge := if n < u64Bound then some n else none } := by
  obtain ⟨v, hv, htext⟩ := hmax.cacheControl
  have hvalues : (headers.getAll header.cacheControl).filterMap HeaderValue.toStr =
      ["max-age=" ++ d] := by
    rw [hv, List.filterMap_cons_some htext]
    rfl
  rw [CacheControl.fromHeaders, hvalues]
  dsimp only
  rw [if_neg fun hnone => List.cons_ne_nil _ _ hnone.1, List.foldl_cons, List.foldl_nil, h.maxAge]

/-- A response that says of itself only how old it is, received as it was asked for. -/
def agedResponse (v : HeaderValue) : StoredMeta where
  status := 200
  headers := ⟨[(header.age, v)]⟩
  requestTime := 0
  responseTime := 0

/-- Digits are a field value. -/
theorem IsDelta.exists_value (h : IsDelta d n) : ∃ v, HeaderValue.toStr v = some d := by
  have hvisible : (d.toList.all fun c => isVisibleAscii c.toNat) = true := by
    rw [List.all_eq_true]
    intro c hc
    have hrange := isDigit_iff.mp (h.digits c hc)
    simp only [isVisibleAscii, Bool.or_eq_true, Bool.and_eq_true, decide_eq_true_eq, beq_iff_eq]
    omega
  exact ⟨_, HeaderValue.toStr_of_fromStr (dif_pos hvisible)⟩

/-- **Delta-seconds count exactly where they fit.** One too large counts as none
at all, so a large `Age` makes a response fresh and a large `max-age` makes it
stale; the age itself never overflows. -/
theorem delta_seconds_count_iff (P : Platform) {d : String} {n : ℕ} (h : IsDelta d n) :
    ((AgeCounts P d n ∧ LifetimeCounts P d n) ↔ n < 2 ^ 64) ∧
      ∀ (metadata : StoredMeta) (now : ℕ),
        currentAge P metadata now = min (unboundedAge P metadata now) (2 ^ 64 - 1) := by
  refine ⟨⟨fun ⟨hage, _⟩ => ?_, fun hn => ⟨fun metadata now hage => ?_,
    fun metadata opts hmax => ?_⟩⟩, currentAge_eq_min P⟩
  · by_contra hlarge
    obtain ⟨v, hv⟩ := h.exists_value
    have hread : (agedResponse v).headers.getStr header.age = some d := hv
    have hnone : headerDate P (agedResponse v).headers header.date = none := rfl
    have hlarge : ¬n < u64Bound := hlarge
    have hold := hage (agedResponse v) 0 hread
    rw [currentAge_eq_min, unboundedAge, h.ageValue hread, if_neg hlarge, hnone] at hold
    simp only [agedResponse, deltaBound, u64Bound, Option.getD_none] at hold hlarge
    omega
  · have hn : n < u64Bound := hn
    rw [currentAge_eq_min, unboundedAge, h.ageValue hage, if_pos hn]
    dsimp only [deltaBound, u64Bound] at hn ⊢
    omega
  · have hn : n < u64Bound := hn
    rw [freshnessLifetime, hmax.fromHeaders h, if_pos hn]
    dsimp only [CacheControl.default]
    rw [ite_self]
    exact min_le_left _ _

end Delta

/-- A minute counts. -/
theorem delta_seconds_count_minute :
    AgeCounts .sample "60" 60 ∧ LifetimeCounts .sample "60" 60 := by
  have hdelta : IsDelta "60" 60 := ⟨by decide, by decide, by decide⟩
  exact (delta_seconds_count_iff .sample hdelta).1.mpr (by decide)

/-- **Five hundred billion years do not**: the least number that does not fit is an age of
nothing. -/
theorem age_of_two_pow_64 : ¬∀ (P : Platform) (d : String) (n : ℕ), IsDelta d n →
    (AgeCounts P d n ∧ LifetimeCounts P d n) ∧
      ∀ (metadata : StoredMeta) (now : ℕ),
        currentAge P metadata now = min (unboundedAge P metadata now) (2 ^ 64 - 1) := by
  intro h
  have hdelta : IsDelta "18446744073709551616" (2 ^ 64) := ⟨by decide, by decide, by decide⟩
  obtain ⟨v, hv⟩ := hdelta.exists_value
  have hread : (agedResponse v).headers.getStr header.age = some "18446744073709551616" := hv
  have hnone : headerDate .sample (agedResponse v).headers header.date = none := rfl
  have hold := (h .sample _ _ hdelta).1.1 (agedResponse v) 0 hread
  rw [currentAge_eq_min, unboundedAge, hdelta.ageValue hread, if_neg (by decide), hnone] at hold
  simp only [agedResponse, deltaBound, u64Bound, Option.getD_none] at hold
  omega

/-! ### Time -/

/-- **The answer is served without the origin.** -/
def Freshness.Serves : Freshness → Prop
  | .fresh _ _ => True
  | .serveStale _ _ _ _ => True
  | _ => False

/-- A response only grows older. -/
theorem currentAge_mono (P : Platform) (metadata : StoredMeta) {t t' : ℕ} (h : t ≤ t') :
    currentAge P metadata t ≤ currentAge P metadata t' := by
  rw [currentAge_eq_min, currentAge_eq_min, unboundedAge, unboundedAge]
  exact min_le_min_right _ (Nat.add_le_add_left (Nat.sub_le_sub_right h _) _)

/-- What of a request and a response does not depend on the time. -/
structure MayServe (requestHeaders : HeaderMap) (headers : HeaderMap) : Prop where
  conditional : (requestHeaders.containsKey header.ifNoneMatch ||
      requestHeaders.containsKey header.ifModifiedSince ||
      requestHeaders.containsKey header.ifMatch ||
      requestHeaders.containsKey header.ifUnmodifiedSince) = false
  noStore : (CacheControl.fromHeaders requestHeaders).noStore = false
  noCache : (CacheControl.fromHeaders requestHeaders).noCache = false
  unqualified : ((CacheControl.fromHeaders headers).noCache &&
      (CacheControl.fromHeaders headers).noCacheFields.isEmpty) = false

/-- So much staleness is accepted, by the request or by the response. -/
def AcceptsStale (requestHeaders : HeaderMap) (headers : HeaderMap) (shared : Bool)
    (staleness : ℕ) : Prop :=
  ((CacheControl.fromHeaders headers).mustRevalidate ||
      (shared && (CacheControl.fromHeaders headers).proxyRevalidate)) = false ∧
    ((CacheControl.fromHeaders requestHeaders).maxStale.any
        (fun s => s.all (staleness ≤ ·)) = true ∨
      (CacheControl.fromHeaders headers).staleWhileRevalidate.any (staleness ≤ ·) = true)

/-- The response is fresh, but not for as long as the request asks. -/
def ShortOfMinFresh (requestHeaders : HeaderMap) (age lifetime : ℕ) : Prop :=
  age < lifetime ∧
    lifetime ≤ saturatingAdd age ((CacheControl.fromHeaders requestHeaders).minFresh.getD 0)

theorem AcceptsStale.mono {headers : HeaderMap} {shared : Bool} {staleness staleness' : ℕ}
    (h : AcceptsStale requestHeaders headers shared staleness') (hle : staleness ≤ staleness') :
    AcceptsStale requestHeaders headers shared staleness := by
  obtain ⟨hfree, haccepts⟩ := h
  refine ⟨hfree, ?_⟩
  rcases haccepts with hmax | hwindow
  · obtain ⟨s, hs, hall⟩ := (Option.any_eq_true _ _).mp hmax
    refine Or.inl ((Option.any_eq_true _ _).mpr ⟨s, hs, (Option.all_eq_true _ _).mpr ?_⟩)
    intro most hmost
    have hmost := of_decide_eq_true ((Option.all_eq_true _ _).mp hall most hmost)
    exact decide_eq_true (hle.trans hmost)
  · obtain ⟨window, hsome, hwithin⟩ := (Option.any_eq_true _ _).mp hwindow
    exact Or.inr ((Option.any_eq_true _ _).mpr
      ⟨window, hsome, decide_eq_true (hle.trans (of_decide_eq_true hwithin))⟩)

/-- **When `evaluate` serves**, in one condition. -/
theorem serves_evaluate_iff : (evaluate P requestHeaders metadata now opts).Serves ↔
    MayServe requestHeaders metadata.headers ∧
      (∀ m ∈ (CacheControl.fromHeaders requestHeaders).maxAge, currentAge P metadata now ≤ m) ∧
        ¬ShortOfMinFresh requestHeaders (currentAge P metadata now)
            (freshnessLifetime P metadata opts).1 ∧
          (currentAge P metadata now < (freshnessLifetime P metadata opts).1 ∨
            AcceptsStale requestHeaders metadata.headers opts.shared
              (currentAge P metadata now - (freshnessLifetime P metadata opts).1)) := by
  have hage := currentAge_lt P metadata now
  rw [evaluate, ShortOfMinFresh, AcceptsStale]
  dsimp only
  by_cases hconditional : (requestHeaders.containsKey header.ifNoneMatch ||
      requestHeaders.containsKey header.ifModifiedSince ||
      requestHeaders.containsKey header.ifMatch ||
      requestHeaders.containsKey header.ifUnmodifiedSince) = true
  · rw [if_pos hconditional]
    exact iff_of_false id fun h => absurd (hconditional.symm.trans h.1.conditional) (by decide)
  rw [if_neg hconditional]
  by_cases hstore : (CacheControl.fromHeaders requestHeaders).noStore = true
  · rw [if_pos hstore]
    exact iff_of_false id fun h => absurd (hstore.symm.trans h.1.noStore) (by decide)
  rw [if_neg hstore]
  by_cases hreq : (CacheControl.fromHeaders requestHeaders).noCache = true
  · rw [if_pos hreq]
    exact iff_of_false id fun h => absurd (hreq.symm.trans h.1.noCache) (by decide)
  rw [if_neg hreq]
  by_cases hres : ((CacheControl.fromHeaders metadata.headers).noCache &&
      (CacheControl.fromHeaders metadata.headers).noCacheFields.isEmpty) = true
  · rw [if_pos hres]
    exact iff_of_false id fun h => absurd (hres.symm.trans h.1.unqualified) (by decide)
  rw [if_neg hres]
  have hmay : MayServe requestHeaders metadata.headers :=
    ⟨by simpa using hconditional, by simpa using hstore, by simpa using hreq, by simpa using hres⟩
  generalize (freshnessLifetime P metadata opts).1 = lifetime at *
  generalize currentAge P metadata now = age at *
  generalize CacheControl.fromHeaders requestHeaders = reqCc at *
  generalize CacheControl.fromHeaders metadata.headers = cc at *
  by_cases hmaxAge : reqCc.maxAge.any (· < age) = true
  · rw [if_pos hmaxAge]
    obtain ⟨m, hm, hlt⟩ := (Option.any_eq_true _ _).mp hmaxAge
    exact iff_of_false id fun h => absurd (of_decide_eq_true hlt) (not_lt.mpr (h.2.1 m hm))
  rw [if_neg hmaxAge]
  have hyoung : ∀ m ∈ reqCc.maxAge, age ≤ m := by
    intro m hm
    by_contra hlt
    exact hmaxAge ((Option.any_eq_true _ _).mpr ⟨m, hm, decide_eq_true (not_le.mp hlt)⟩)
  by_cases hfresh : saturatingAdd age (reqCc.minFresh.getD 0) < lifetime
  · rw [if_pos hfresh]
    exact iff_of_true trivial ⟨hmay, hyoung, fun h => absurd hfresh (not_lt.mpr h.2),
      Or.inl (lt_of_saturatingAdd_lt hage hfresh)⟩
  rw [if_neg hfresh]
  by_cases hminFresh : 0 < reqCc.minFresh.getD 0 ∧ age < lifetime
  · rw [if_pos hminFresh]
    exact iff_of_false id fun h => h.2.2.1 ⟨hminFresh.2, not_lt.mp hfresh⟩
  rw [if_neg hminFresh]
  have hstale : lifetime ≤ age := by
    rw [saturatingAdd, min_lt_iff, not_or] at hfresh
    omega
  have hserves : ∀ answer : Freshness, (answer.Serves ↔
      (cc.mustRevalidate || (opts.shared && cc.proxyRevalidate)) = false ∧
        (reqCc.maxStale.any (fun s => s.all (age - lifetime ≤ ·)) = true ∨
          cc.staleWhileRevalidate.any (age - lifetime ≤ ·) = true)) →
      (answer.Serves ↔ MayServe requestHeaders metadata.headers ∧ (∀ m ∈ reqCc.maxAge, age ≤ m) ∧
        ¬(age < lifetime ∧ lifetime ≤ saturatingAdd age (reqCc.minFresh.getD 0)) ∧
          (age < lifetime ∨ (cc.mustRevalidate || (opts.shared && cc.proxyRevalidate)) = false ∧
            (reqCc.maxStale.any (fun s => s.all (age - lifetime ≤ ·)) = true ∨
              cc.staleWhileRevalidate.any (age - lifetime ≤ ·) = true))) := by
    intro answer hanswer
    rw [hanswer]
    exact ⟨fun h => ⟨hmay, hyoung, fun hs => absurd hs.1 (not_lt.mpr hstale), Or.inr h⟩,
      fun h => h.2.2.2.resolve_left (not_lt.mpr hstale)⟩
  refine hserves _ ?_
  generalize (cc.mustRevalidate || (opts.shared && cc.proxyRevalidate)) = pinned at *
  by_cases hmaxStale : (!pinned && reqCc.maxStale.any fun s => s.all (age - lifetime ≤ ·)) = true
  · rw [if_pos hmaxStale]
    obtain ⟨hfree, haccepts⟩ := Bool.and_eq_true_iff.mp hmaxStale
    exact iff_of_true trivial ⟨by simpa using hfree, Or.inl haccepts⟩
  rw [if_neg hmaxStale]
  by_cases hwindow : (!pinned && cc.staleWhileRevalidate.any (age - lifetime ≤ ·)) = true
  · rw [if_pos hwindow]
    obtain ⟨hfree, hwithin⟩ := Bool.and_eq_true_iff.mp hwindow
    exact iff_of_true trivial ⟨by simpa using hfree, Or.inr hwithin⟩
  rw [if_neg hwindow]
  refine iff_of_false id ?_
  rintro ⟨rfl, haccepts | hwithin⟩
  · exact hmaxStale (by simpa using haccepts)
  · exact hwindow (by simpa using hwithin)

/-- **Permission to serve is lost with time alone**: what may be served later may be
served earlier, unless it is then still fresh and the request asks for it to stay
so for longer than it does. -/
theorem serves_earlier_iff (P : Platform) (requestHeaders : HeaderMap) (metadata : StoredMeta)
    (opts : CacheOptions) {t t' : ℕ} (hle : t ≤ t')
    (h : (evaluate P requestHeaders metadata t' opts).Serves) :
    (evaluate P requestHeaders metadata t opts).Serves ↔
      ¬ShortOfMinFresh requestHeaders (currentAge P metadata t)
        (freshnessLifetime P metadata opts).1 := by
  have hage := currentAge_mono P metadata hle
  obtain ⟨hmay, hyoung, -, hserves⟩ := serves_evaluate_iff.mp h
  rw [serves_evaluate_iff]
  refine ⟨fun h => h.2.2.1, fun hlong => ⟨hmay, fun m hm => hage.trans (hyoung m hm), hlong, ?_⟩⟩
  rcases hserves with hfresh | hstale
  · exact Or.inl (lt_of_le_of_lt hage hfresh)
  · exact Or.inr (hstale.mono (Nat.sub_le_sub_right hage _))

/-- A response that is fresh for fifty seconds. -/
def fiftySeconds : StoredMeta where
  status := 200
  headers := toHeaderMap [("cache-control", "max-age=50")]
  requestTime := 0
  responseTime := 0

/-- A request for ten seconds more, or for anything that is not too stale. -/
def freshOrStale : HeaderMap := toHeaderMap [("cache-control", "min-fresh=10, max-stale=100")]

theorem serves_earlier_fifty : (evaluate .sample freshOrStale fiftySeconds 60 .default).Serves ∧
    ((evaluate .sample freshOrStale fiftySeconds 30 .default).Serves ↔
      ¬ShortOfMinFresh freshOrStale (currentAge .sample fiftySeconds 30)
        (freshnessLifetime .sample fiftySeconds .default).1) := by
  have hstale : evaluate .sample freshOrStale fiftySeconds 60 .default =
      .serveStale 60 50 false "request max-stale" := by decide +kernel
  have hserves : (evaluate .sample freshOrStale fiftySeconds 60 .default).Serves := by
    rw [hstale]
    trivial
  exact ⟨hserves, serves_earlier_iff .sample freshOrStale fiftySeconds .default (by decide) hserves⟩

/-- **Stale is served where nearly stale is not.** -/
theorem not_serves_earlier : ¬∀ (P : Platform) (requestHeaders : HeaderMap)
    (metadata : StoredMeta) (opts : CacheOptions) (t t' : ℕ), metadata.responseTime ≤ t → t ≤ t' →
      (evaluate P requestHeaders metadata t' opts).Serves →
        (evaluate P requestHeaders metadata t opts).Serves := by
  intro h
  have hlater : evaluate .sample freshOrStale fiftySeconds 60 .default =
      .serveStale 60 50 false "request max-stale" := by decide +kernel
  have hearlier : evaluate .sample freshOrStale fiftySeconds 45 .default =
      .revalidate 45 50 none "request min-fresh not satisfied" := by decide +kernel
  have hserves := h .sample freshOrStale fiftySeconds .default 45 60 (by decide) (by decide)
    (by rw [hlater]; trivial)
  rw [hearlier] at hserves
  exact hserves

/-! ### A confirmation -/

/-- The operation reads this entry and writes that one in its place. -/
def Refreshes {α : Type} (x : CacheM α) (key : String) (old r : EntryRecord) : Prop :=
  ∃ (k : Except CacheError (Option EntryRecord) → Prog CacheAct (Except CacheError α))
    (k' : Except CacheError Unit → Prog CacheAct (Except CacheError α)),
    x.run = .act (.index (.getEntry key)) k ∧
      k (.ok (some old)) = .act (.index (.refreshEntry r)) k'

/-- **The entry a confirmation leaves.** -/
theorem refreshes_recordNotModified_iff {key : String} {freshHeaders : HeaderMap} {t t' : ℕ}
    {old r : EntryRecord} : Refreshes (recordNotModified P key freshHeaders t t') key old r ↔
      r = old.confirmed freshHeaders t t' := by
  constructor
  · rintro ⟨k, k', hread, hwrite⟩
    obtain ⟨-, -, hk⟩ := Prog.act.inj hread
    obtain rfl := eq_of_heq hk
    obtain ⟨-, hact, -⟩ := Prog.act.inj hwrite
    exact (IndexAct.refreshEntry.inj (CacheAct.index.inj (eq_of_heq hact))).symm
  · rintro rfl
    exact ⟨_, _, rfl, rfl⟩

/-- The values of a field that come back from storage. -/
def storedValues (h : HeaderMap) (n : HeaderName) : List HeaderValue :=
  (h.getAll n).filter fun v => v.toStr.isSome

/-- The fields of a 304 that an age is made of. -/
def ownAge (freshHeaders : HeaderMap) : HeaderMap :=
  ⟨freshHeaders.fields.filter fun f => f.1 = header.date ∨ f.1 = header.age⟩

/-- A response that carries them and nothing else, stored as it is received. -/
def receivedNow (freshHeaders : HeaderMap) (t : ℕ) : StoredMeta where
  status := 200
  headers := (StoredHeaders.forStorage (ownAge freshHeaders)).toHeaderMap
  requestTime := t
  responseTime := t

/-- The entry of a response. -/
def EntryRecord.Received (r : EntryRecord) : Prop := ∃ h, r.headers = .forStorage h

section Confirmed

variable {freshHeaders : HeaderMap} {t : ℕ} {old : EntryRecord} {n : HeaderName}

theorem omits_age {h : HeaderMap} (hn : n = header.date ∨ n = header.age)
    (hconnection : h.getAll header.connection = []) : StoredHeaders.omits h n = false := by
  have htokens : connectionTokens h = [] := by
    rw [connectionTokens, hconnection]
    rfl
  rw [StoredHeaders.omits, htokens]
  rcases hn with rfl | rfl
  · decide
  · decide

theorem isHopByHop_connection (tokens : List String) :
    isHopByHop header.connection.text tokens = true :=
  Bool.or_eq_true_iff.mpr (Or.inl (by decide))

/-- A stored response has no fields of its connection. -/
theorem EntryRecord.Received.connection (h : old.Received) :
    old.headers.toHeaderMap.getAll header.connection = [] := by
  obtain ⟨headers, heq⟩ := h
  have homits : StoredHeaders.omits headers header.connection = true :=
    Bool.or_eq_true_iff.mpr (Or.inl (isHopByHop_connection _))
  rw [heq, StoredHeaders.getAll_forStorage, if_pos homits]

/-- And all its values are text. -/
theorem EntryRecord.Received.filter_getAll (h : old.Received) (n : HeaderName) :
    storedValues old.headers.toHeaderMap n = old.headers.toHeaderMap.getAll n := by
  obtain ⟨headers, heq⟩ := h
  rw [storedValues, heq, StoredHeaders.getAll_forStorage]
  split
  · rfl
  · rw [List.filter_filter]
    simp

/-- **What a confirmation leaves of `Date` and `Age`.** -/
theorem getAll_confirmed (h : old.Received) (hn : n = header.date ∨ n = header.age) :
    (old.confirmed freshHeaders t t).headers.toHeaderMap.getAll n =
      if updatedBy304 freshHeaders n then storedValues freshHeaders n
      else old.headers.toHeaderMap.getAll n := by
  have hconnection : (apply304 old.headers.toHeaderMap freshHeaders).getAll header.connection =
      [] := by
    rw [getAll_apply304, if_neg, h.connection]
    rw [updatedBy304, isHopByHop_connection]
    simp
  rw [EntryRecord.confirmed, StoredHeaders.getAll_forStorage, omits_age hn hconnection,
    if_neg Bool.false_ne_true, getAll_apply304]
  split
  · rfl
  · exact h.filter_getAll n

theorem getAll_receivedNow (hn : n = header.date ∨ n = header.age) :
    (receivedNow freshHeaders t).headers.getAll n = storedValues freshHeaders n := by
  have hown : ∀ m, (ownAge freshHeaders).getAll m =
      if m = header.date ∨ m = header.age then freshHeaders.getAll m else [] := by
    intro m
    rw [HeaderMap.getAll, HeaderMap.getAll, ownAge, List.filter_filter]
    split
    · rename_i hm
      refine congrArg _ (List.filter_congr fun f _ => ?_)
      by_cases hf : f.1 = m
      · simp [hf, hm]
      · simp [hf]
    · rename_i hm
      refine List.map_eq_nil_iff.mpr (List.filter_eq_nil_iff.mpr fun f _ hf => hm ?_)
      obtain ⟨hname, hf⟩ := Bool.and_eq_true_iff.mp hf
      rw [← of_decide_eq_true hname]
      exact of_decide_eq_true hf
  have hconnection : (ownAge freshHeaders).getAll header.connection = [] := by
    rw [hown, if_neg (by decide)]
  rw [receivedNow, StoredHeaders.getAll_forStorage, omits_age hn hconnection,
    if_neg Bool.false_ne_true, hown, if_pos hn]
  rfl

/-- The date that some values of `Date` say. -/
def dateIn (P : Platform) (values : List HeaderValue) : Option ℕ :=
  (values.head?.bind HeaderValue.toStr).bind (parseHttpDate P)

/-- The seconds that some values of `Age` say. -/
def ageIn (values : List HeaderValue) : ℕ :=
  ((values.head?.bind HeaderValue.toStr).bind fun v => parseU64 (trimChars v.toList)).getD 0

theorem ageIn_lt (values : List HeaderValue) : ageIn values < u64Bound := by
  rw [ageIn]
  rcases hv : (values.head?.bind HeaderValue.toStr).bind fun v => parseU64 (trimChars v.toList) with
    _ | n
  · decide
  · obtain ⟨v, -, hn⟩ := Option.bind_eq_some_iff.mp hv
    exact parseU64_lt hn

/-- The age of a response at the moment it is received. -/
theorem currentAge_received {metadata : StoredMeta} (hrequest : metadata.requestTime = t)
    (hresponse : metadata.responseTime = t) (ht : t < u64Bound) :
    currentAge P metadata t = max (t - (dateIn P (metadata.headers.getAll header.date)).getD t)
      (ageIn (metadata.headers.getAll header.age)) := by
  have hage := ageIn_lt (metadata.headers.getAll header.age)
  have hdate : headerDate P metadata.headers header.date =
      dateIn P (metadata.headers.getAll header.date) := rfl
  have hvalue : ageValue metadata.headers = ageIn (metadata.headers.getAll header.age) := rfl
  rw [currentAge_eq_min, unboundedAge, hrequest, hresponse, hdate, hvalue]
  omega

/-- A confirmation leaves nothing of this field that it does not say itself. -/
def Renews (freshHeaders : HeaderMap) (old : EntryRecord) (n : HeaderName) : Prop :=
  updatedBy304 freshHeaders n = true ∨
    old.headers.toHeaderMap.getAll n = [] ∧ storedValues freshHeaders n = []

theorem Renews.getAll (h : old.Received) (hn : n = header.date ∨ n = header.age)
    (hrenews : Renews freshHeaders old n) :
    (old.confirmed freshHeaders t t).headers.toHeaderMap.getAll n = storedValues freshHeaders n := by
  rw [getAll_confirmed h hn]
  rcases hrenews with hupdated | ⟨hold, hfresh⟩
  · rw [if_pos hupdated]
  · rw [hold, hfresh, ite_self]

/-- The age of an entry that was just confirmed. -/
theorem currentAge_confirmed (h : old.Received) (ht : t < u64Bound) :
    currentAge P (old.confirmed freshHeaders t t).metadata t =
      max (t - (dateIn P (if updatedBy304 freshHeaders header.date
          then storedValues freshHeaders header.date
          else old.headers.toHeaderMap.getAll header.date)).getD t)
        (ageIn (if updatedBy304 freshHeaders header.age then storedValues freshHeaders header.age
          else old.headers.toHeaderMap.getAll header.age)) := by
  rw [← getAll_confirmed (t := t) h (Or.inl rfl), ← getAll_confirmed (t := t) h (Or.inr rfl)]
  exact currentAge_received rfl rfl ht

/-- The age of a response that carries what the confirmation does. -/
theorem currentAge_receivedNow (ht : t < u64Bound) :
    currentAge P (receivedNow freshHeaders t) t =
      max (t - (dateIn P (storedValues freshHeaders header.date)).getD t)
        (ageIn (storedValues freshHeaders header.age)) := by
  rw [currentAge_received (t := t) rfl rfl ht, getAll_receivedNow (Or.inl rfl),
    getAll_receivedNow (Or.inr rfl)]

/-- An entry with these fields. -/
def entryOf (h : HeaderMap) : EntryRecord where
  «partition» := none
  url := ""
  method := "GET"
  status := 200
  headers := .forStorage h
  varyFields := []
  varyKey := ""
  body := .Complete 0 0
  requestTime := 0
  responseTime := 0
  storedAt := 0
  lastUsed := 0
  hits := 0
  provenance := .origin

/-- Stored a second old. -/
def aSecondOld : HeaderMap := toHeaderMap [("age", "1")]

/-- The first date there is. -/
def epoch : String := "Thu, 01 Jan 1970 00:00:00 GMT"

/-- Made then. -/
def madeAtEpoch : HeaderMap := toHeaderMap [("date", epoch)]

theorem getAll_aSecondOld :
    ageIn ((entryOf aSecondOld).headers.toHeaderMap.getAll header.age) = 1 := by
  decide

theorem dateIn_madeAtEpoch (hepoch : P.parseHttpDate epoch = some 0) :
    dateIn P ((entryOf madeAtEpoch).headers.toHeaderMap.getAll header.date) = some 0 := by
  have htext : ((entryOf madeAtEpoch).headers.toHeaderMap.getAll header.date).head?.bind
      HeaderValue.toStr = some epoch := by
    decide +kernel
  have htrim : trim epoch = epoch := by
    decide +kernel
  rw [dateIn, htext, Option.bind_some, parseHttpDate, htrim, hepoch]

/-- **A confirmed entry is as old as the confirmation says**, where the confirmation
renews both fields an age is made of. -/
theorem currentAge_confirmed_of_renews (h : old.Received) (ht : t < u64Bound)
    (hdate : Renews freshHeaders old header.date) (hage : Renews freshHeaders old header.age) :
    currentAge P (old.confirmed freshHeaders t t).metadata t =
      currentAge P (receivedNow freshHeaders t) t := by
  have hleft : currentAge P (old.confirmed freshHeaders t t).metadata t =
      max (t - (dateIn P ((old.confirmed freshHeaders t t).headers.toHeaderMap.getAll
          header.date)).getD t)
        (ageIn ((old.confirmed freshHeaders t t).headers.toHeaderMap.getAll header.age)) :=
    currentAge_received rfl rfl ht
  rw [hleft, hdate.getAll h (Or.inl rfl), hage.getAll h (Or.inr rfl), currentAge_receivedNow ht]

/-- An `Age` that is left as it was is counted, whenever the confirmation came. -/
theorem updatedBy304_age_of_forall (h : ∀ old : EntryRecord, old.Received →
    currentAge P (old.confirmed freshHeaders 0 0).metadata 0 =
      currentAge P (receivedNow freshHeaders 0) 0) :
    updatedBy304 freshHeaders header.age = true := by
  by_contra hkept
  have hage : ∀ old : EntryRecord, old.Received →
      ageIn (old.headers.toHeaderMap.getAll header.age) =
        ageIn (storedValues freshHeaders header.age) := by
    intro old hold
    have heq := h old hold
    rw [currentAge_confirmed hold (by decide), currentAge_receivedNow (by decide), if_neg hkept,
      Nat.zero_sub, Nat.zero_sub, Nat.zero_max, Nat.zero_max] at heq
    exact heq
  have hone := hage (entryOf aSecondOld) ⟨_, rfl⟩
  have hnone : ageIn ((entryOf ⟨[]⟩).headers.toHeaderMap.getAll header.age) = 0 := by
    decide
  rw [getAll_aSecondOld, ← hage (entryOf ⟨[]⟩) ⟨_, rfl⟩, hnone] at hone
  exact absurd hone (by decide)

/-- A `Date` that is left as it was is counted, unless the `Age` is all there can be. -/
theorem updatedBy304_date_of_forall (hepoch : P.parseHttpDate epoch = some 0)
    (h : ∀ old : EntryRecord, old.Received →
      currentAge P (old.confirmed freshHeaders (u64Bound - 1) (u64Bound - 1)).metadata
          (u64Bound - 1) = currentAge P (receivedNow freshHeaders (u64Bound - 1)) (u64Bound - 1))
    (hage : updatedBy304 freshHeaders header.age = true) :
    updatedBy304 freshHeaders header.date = true ∨
      ageIn (storedValues freshHeaders header.age) = u64Bound - 1 := by
  by_contra hneither
  obtain ⟨hkept, hless⟩ := not_or.mp hneither
  have hlt := ageIn_lt (storedValues freshHeaders header.age)
  have hdate : ∀ old : EntryRecord, old.Received →
      max (u64Bound - 1 - (dateIn P (old.headers.toHeaderMap.getAll header.date)).getD
          (u64Bound - 1)) (ageIn (storedValues freshHeaders header.age)) =
        currentAge P (receivedNow freshHeaders (u64Bound - 1)) (u64Bound - 1) := by
    intro old hold
    rw [← h old hold, currentAge_confirmed hold (by decide), if_neg hkept, if_pos hage]
  have hold := hdate (entryOf madeAtEpoch) ⟨_, rfl⟩
  have hnone : (entryOf ⟨[]⟩).headers.toHeaderMap.getAll header.date = [] := by
    decide
  have hnew := hdate (entryOf ⟨[]⟩) ⟨_, rfl⟩
  rw [dateIn_madeAtEpoch hepoch, ← hnew, hnone] at hold
  simp only [dateIn, List.head?_nil, Option.bind_none, Option.getD_none, Option.getD_some,
    u64Bound] at hold hless hlt
  omega

/-- **A confirmation makes an entry as young as itself exactly where it says both how old
it is and when it was made.** What it leaves out stays as it was stored, and an
old `Date` or `Age` goes on counting. -/
theorem confirmed_age_iff (P : Platform) (hepoch : P.parseHttpDate epoch = some 0)
    (freshHeaders : HeaderMap) :
    ((∀ (key : String) (old r : EntryRecord) (t : ℕ), old.Received → t < 2 ^ 64 →
        Refreshes (recordNotModified P key freshHeaders t t) key old r →
          currentAge P r.metadata t = currentAge P (receivedNow freshHeaders t) t) ↔
      updatedBy304 freshHeaders header.age = true ∧
        (updatedBy304 freshHeaders header.date = true ∨
          ageIn (storedValues freshHeaders header.age) = 2 ^ 64 - 1)) ∧
      ∀ (key : String) (old r : EntryRecord) (t : ℕ), old.Received → t < 2 ^ 64 →
        Refreshes (recordNotModified P key freshHeaders t t) key old r →
          Renews freshHeaders old header.date → Renews freshHeaders old header.age →
            currentAge P r.metadata t = currentAge P (receivedNow freshHeaders t) t := by
  refine ⟨⟨fun h => ?_, ?_⟩, ?_⟩
  · have hyoung : ∀ t < 2 ^ 64, ∀ old : EntryRecord, old.Received →
        currentAge P (old.confirmed freshHeaders t t).metadata t =
          currentAge P (receivedNow freshHeaders t) t :=
      fun t ht old hold => h "" old _ t hold ht (refreshes_recordNotModified_iff.mpr rfl)
    have hage := updatedBy304_age_of_forall (hyoung 0 (by decide))
    exact ⟨hage, updatedBy304_date_of_forall hepoch (hyoung (2 ^ 64 - 1) (by decide)) hage⟩
  · rintro ⟨hage, hdate⟩ key old r t hold ht hrefreshes
    obtain rfl := refreshes_recordNotModified_iff.mp hrefreshes
    rcases hdate with hdate | hall
    · exact currentAge_confirmed_of_renews hold ht (Or.inl hdate) (Or.inl hage)
    · rw [currentAge_confirmed hold ht, currentAge_receivedNow ht, if_pos hage, hall]
      omega
  · intro key old r t hold ht hrefreshes hdate hage
    obtain rfl := refreshes_recordNotModified_iff.mp hrefreshes
    exact currentAge_confirmed_of_renews hold ht hdate hage

end Confirmed

/-- A platform that knows the first date there is. -/
def datingPlatform : Platform :=
  { Platform.sample with
    parseHttpDate := fun s => if s = epoch then some 0 else Platform.sample.parseHttpDate s }

/-- A confirmation that says how old it is and when it was made. -/
def saysBoth : HeaderMap := toHeaderMap [("age", "7"), ("date", epoch)]

theorem confirmed_age_both :
    currentAge datingPlatform ((entryOf (toHeaderMap [("age", "3600")])).confirmed
        saysBoth 1000 1000).metadata 1000 =
      currentAge datingPlatform (receivedNow saysBoth 1000) 1000 :=
  (confirmed_age_iff datingPlatform rfl saysBoth).1.mpr ⟨by decide, Or.inl (by decide)⟩ "" _ _
    1000 ⟨_, rfl⟩ (by decide) (refreshes_recordNotModified_iff.mpr rfl)

/-- **An hour goes on counting**: a confirmation without an `Age` leaves the stored one. -/
theorem confirmed_an_hour_old : ¬∀ (P : Platform) (freshHeaders : HeaderMap) (key : String)
    (old r : EntryRecord) (t : ℕ), old.Received → t < 2 ^ 64 →
      Refreshes (recordNotModified P key freshHeaders t t) key old r →
        currentAge P r.metadata t = currentAge P (receivedNow freshHeaders t) t := by
  intro h
  have hyoung := h .sample ⟨[]⟩ "" (entryOf (toHeaderMap [("age", "3600")])) _ 0 ⟨_, rfl⟩
    (by decide) (refreshes_recordNotModified_iff.mpr rfl)
  exact absurd hyoung (by decide)

end Syndeo
