import Syndeo.Cache.Directives

/-!
# Directives that forbid a stale answer

What `Syndeo.evaluate` decides of a stored response depends on its directives in
two ways only. A response is *pinned* when `must-revalidate` is read from it, or
`proxy-revalidate` in a shared cache, and it is *unqualified* when a `no-cache` is
read from it and none of those read names a field. `Syndeo.evaluate_cases` is all
that can happen then: an unqualified response is confirmed each time, a pinned one
is never answered with once it is stale.

Each of the two laws below is about a response that lists such a directive by its
bytes, and says of which responses it holds.
-/

namespace Syndeo

open Text

/-! ### What a response forbids -/

/-- The answer is not given before the origin has been asked. -/
def Freshness.Confirms : Freshness → Prop
  | .revalidate _ _ _ _ => True
  | .unusable _ => True
  | _ => False

/-- The answer may be given stale, at once or when the origin fails. -/
def Freshness.AllowsStale : Freshness → Prop
  | .serveStale _ _ _ _ => True
  | .revalidate _ _ (some _) _ => True
  | _ => False

namespace HeaderMap

/-- `no-cache` is read, and no field with it. -/
def Unqualified (h : HeaderMap) : Prop :=
  ((∃ item, h.Reads item ∧ IsNamed item "no-cache") ∨ CacheControl.AsksByPragma h) ∧
    ∀ item, h.Reads item → ¬NamesFields item

/-- `must-revalidate` is read, or `proxy-revalidate` where it binds. -/
def Pinned (h : HeaderMap) (shared : Bool) : Prop :=
  (∃ item, h.Reads item ∧ IsNamed item "must-revalidate") ∨
    shared = true ∧ ∃ item, h.Reads item ∧ IsNamed item "proxy-revalidate"

/-- A directive is listed that forbids a shared cache to answer stale. -/
def ForbidsStale (h : HeaderMap) : Prop :=
  ∃ item, h.Lists item ∧ (IsNamed item "s-maxage" ∨ IsNamed item "must-revalidate" ∨
    IsNamed item "proxy-revalidate" ∨ IsWord item "no-cache")

end HeaderMap

variable {P : Platform} {metadata : StoredMeta} {opts : CacheOptions} {requestHeaders : HeaderMap}
  {now : ℕ}

theorem unqualified_iff (headers : HeaderMap) :
    ((CacheControl.fromHeaders headers).noCache &&
      (CacheControl.fromHeaders headers).noCacheFields.isEmpty) = true ↔ headers.Unqualified := by
  have hmem : (CacheControl.noCache, "no-cache") ∈ CacheControl.flags := by
    simp [CacheControl.flags]
  have hflag := CacheControl.flag_fromHeaders headers hmem
  rw [Bool.and_eq_true, List.isEmpty_iff, CacheControl.noCacheFields_fromHeaders, hflag,
    HeaderMap.Unqualified]
  simp

theorem pinned_iff (headers : HeaderMap) (shared : Bool) :
    ((CacheControl.fromHeaders headers).mustRevalidate ||
      (shared && (CacheControl.fromHeaders headers).proxyRevalidate)) = true ↔
        headers.Pinned shared := by
  have hmust : (CacheControl.mustRevalidate, "must-revalidate") ∈ CacheControl.flags := by
    simp [CacheControl.flags]
  have hproxy : (CacheControl.proxyRevalidate, "proxy-revalidate") ∈ CacheControl.flags := by
    simp [CacheControl.flags]
  rw [Bool.or_eq_true, Bool.and_eq_true, CacheControl.flag_fromHeaders headers hmust,
    CacheControl.flag_fromHeaders headers hproxy, HeaderMap.Pinned]
  simp

/-! ### What is decided -/

/-- What `evaluate` may allow when the origin fails. -/
theorem staleIfErrorAllowance_eq_some {cc : CacheControl} {staleness window : ℕ} {pinned : Bool}
    (h : staleIfErrorAllowance cc staleness pinned = some window) :
    pinned = false ∧ (cc.noCache && cc.noCacheFields.isEmpty) = false ∧ cc.staleIfError ≠ none := by
  rw [staleIfErrorAllowance] at h
  split_ifs at h with hforbidden
  obtain ⟨hpinned, hunqualified⟩ := Bool.or_eq_false_iff.mp (Bool.eq_false_iff.mpr hforbidden)
  refine ⟨hpinned, hunqualified, fun hnone => ?_⟩
  rw [hnone] at h
  exact absurd h nofun

theorem currentAge_lt (P : Platform) (metadata : StoredMeta) (now : ℕ) :
    currentAge P metadata now < u64Bound := by
  rw [currentAge, saturatingAdd]
  exact lt_of_le_of_lt (min_le_right _ _) (by decide)

/-- Adding to an age does not make it less. -/
theorem lt_of_saturatingAdd_lt {age minFresh lifetime : ℕ} (hage : age < u64Bound)
    (h : saturatingAdd age minFresh < lifetime) : age < lifetime := by
  rw [saturatingAdd, min_lt_iff] at h
  omega

/-- **Everything `evaluate` can answer.** -/
theorem evaluate_cases (P : Platform) (requestHeaders : HeaderMap) (metadata : StoredMeta)
    (now : ℕ) (opts : CacheOptions) :
    (∃ reason, evaluate P requestHeaders metadata now opts = .unusable reason) ∨
    (∃ age lifetime allowed reason,
      evaluate P requestHeaders metadata now opts = .revalidate age lifetime allowed reason ∧
      (allowed ≠ none → ¬metadata.headers.Pinned opts.shared ∧ ¬metadata.headers.Unqualified ∧
        (CacheControl.fromHeaders metadata.headers).staleIfError ≠ none)) ∨
    ¬metadata.headers.Unqualified ∧
      ((∃ age lifetime, evaluate P requestHeaders metadata now opts = .fresh age lifetime ∧
        currentAge P metadata now < (freshnessLifetime P metadata opts).1) ∨
      ∃ age lifetime background reason, evaluate P requestHeaders metadata now opts =
          .serveStale age lifetime background reason ∧ ¬metadata.headers.Pinned opts.shared ∧
        (freshnessLifetime P metadata opts).1 ≤ currentAge P metadata now) := by
  have hage := currentAge_lt P metadata now
  have hunqualified := unqualified_iff metadata.headers
  have hpinned := pinned_iff metadata.headers opts.shared
  rw [evaluate]
  dsimp only
  generalize CacheControl.fromHeaders requestHeaders = reqCc
  generalize CacheControl.fromHeaders metadata.headers = cc at *
  generalize currentAge P metadata now = age at *
  generalize (freshnessLifetime P metadata opts).1 = lifetime at *
  generalize (cc.mustRevalidate || (opts.shared && cc.proxyRevalidate)) = pinned at *
  have hallowed : ∀ {allowed : Option ℕ}, staleIfErrorAllowance cc (age - lifetime) pinned =
      allowed → allowed ≠ none → ¬metadata.headers.Pinned opts.shared ∧
        ¬metadata.headers.Unqualified ∧ cc.staleIfError ≠ none := by
    rintro (_ | window) hsome hne
    · exact absurd rfl hne
    · obtain ⟨hfree, hnot, hwindow⟩ := staleIfErrorAllowance_eq_some hsome
      rw [← hpinned, ← hunqualified, hfree, hnot]
      exact ⟨Bool.false_ne_true, Bool.false_ne_true, hwindow⟩
  by_cases hconditional : (requestHeaders.containsKey header.ifNoneMatch ||
      requestHeaders.containsKey header.ifModifiedSince ||
      requestHeaders.containsKey header.ifMatch ||
      requestHeaders.containsKey header.ifUnmodifiedSince) = true
  · exact Or.inl ⟨_, if_pos hconditional⟩
  rw [if_neg hconditional]
  by_cases hstore : reqCc.noStore = true
  · exact Or.inl ⟨_, if_pos hstore⟩
  rw [if_neg hstore]
  by_cases hreq : reqCc.noCache = true
  · exact Or.inr (Or.inl ⟨_, _, _, _, if_pos hreq, hallowed rfl⟩)
  rw [if_neg hreq]
  by_cases hres : (cc.noCache && cc.noCacheFields.isEmpty) = true
  · exact Or.inr (Or.inl ⟨_, _, _, _, if_pos hres, hallowed rfl⟩)
  rw [if_neg hres]
  by_cases hmaxAge : reqCc.maxAge.any (· < age) = true
  · exact Or.inr (Or.inl ⟨_, _, _, _, if_pos hmaxAge, hallowed rfl⟩)
  rw [if_neg hmaxAge]
  by_cases hfresh : saturatingAdd age (reqCc.minFresh.getD 0) < lifetime
  · exact Or.inr (Or.inr ⟨mt hunqualified.mpr hres, Or.inl ⟨_, _, if_pos hfresh,
      lt_of_saturatingAdd_lt hage hfresh⟩⟩)
  rw [if_neg hfresh]
  by_cases hminFresh : 0 < reqCc.minFresh.getD 0 ∧ age < lifetime
  · exact Or.inr (Or.inl ⟨_, _, _, _, if_pos hminFresh, hallowed rfl⟩)
  rw [if_neg hminFresh]
  have hstale : lifetime ≤ age := by
    rw [saturatingAdd, min_lt_iff, not_or] at hfresh
    omega
  by_cases hmaxStale : (!pinned && reqCc.maxStale.any fun s => s.all (age - lifetime ≤ ·)) = true
  · have hfree : pinned ≠ true := by
      rintro rfl
      exact absurd hmaxStale (by simp)
    exact Or.inr (Or.inr ⟨mt hunqualified.mpr hres, Or.inr ⟨_, _, _, _, if_pos hmaxStale,
      mt hpinned.mpr hfree, hstale⟩⟩)
  rw [if_neg hmaxStale]
  by_cases hwindow : (!pinned && cc.staleWhileRevalidate.any (age - lifetime ≤ ·)) = true
  · have hfree : pinned ≠ true := by
      rintro rfl
      exact absurd hwindow (by simp)
    exact Or.inr (Or.inr ⟨mt hunqualified.mpr hres, Or.inr ⟨_, _, _, _, if_pos hwindow,
      mt hpinned.mpr hfree, hstale⟩⟩)
  exact Or.inr (Or.inl ⟨_, _, _, _, if_neg hwindow, hallowed rfl⟩)

/-! ### Requests that bring it out -/

/-- A request that takes any staleness. -/
def maxStaleRequest : HeaderMap := toHeaderMap [("cache-control", "max-stale")]

/-- A request for a confirmation. -/
def noCacheRequest : HeaderMap := toHeaderMap [("cache-control", "no-cache")]

theorem evaluate_plain (hfresh : currentAge P metadata now < (freshnessLifetime P metadata opts).1)
    (hunqualified : ¬metadata.headers.Unqualified) : evaluate P ∅ metadata now opts =
      .fresh (currentAge P metadata now) (freshnessLifetime P metadata opts).1 := by
  have hage := currentAge_lt P metadata now
  have hrecord : CacheControl.fromHeaders ∅ = CacheControl.default := by decide
  rw [evaluate]
  dsimp only
  rw [hrecord, if_neg (by decide), if_neg (by decide), if_neg (by decide),
    if_neg (mt (unqualified_iff _).mp hunqualified), if_neg (by simp [CacheControl.default])]
  refine if_pos ?_
  simp only [CacheControl.default, saturatingAdd, Option.getD_none, min_lt_iff]
  omega

theorem evaluate_maxStaleRequest (hunqualified : ¬metadata.headers.Unqualified)
    (hpinned : ¬metadata.headers.Pinned opts.shared)
    (hstale : (freshnessLifetime P metadata opts).1 ≤ currentAge P metadata now) :
    evaluate P maxStaleRequest metadata now opts = .serveStale (currentAge P metadata now)
      (freshnessLifetime P metadata opts).1 false "request max-stale" := by
  have hage := currentAge_lt P metadata now
  have hrecord : CacheControl.fromHeaders maxStaleRequest =
      { CacheControl.default with maxStale := some none } := by decide +kernel
  have hfree := mt (pinned_iff _ _).mp hpinned
  rw [evaluate]
  dsimp only
  rw [hrecord, if_neg (by decide), if_neg (by simp [CacheControl.default]),
    if_neg (by simp [CacheControl.default]),
    if_neg (mt (unqualified_iff _).mp hunqualified), if_neg (by simp [CacheControl.default]),
    if_neg, if_neg (by simp [CacheControl.default]), if_pos]
  · rw [Bool.not_eq_true] at hfree
    rw [hfree]
    rfl
  · simp only [CacheControl.default, saturatingAdd, Option.getD_none, min_lt_iff]
    omega

theorem evaluate_noCacheRequest {window : ℕ} (hunqualified : ¬metadata.headers.Unqualified)
    (hpinned : ¬metadata.headers.Pinned opts.shared)
    (hwindow : (CacheControl.fromHeaders metadata.headers).staleIfError = some window)
    (hle : currentAge P metadata now - (freshnessLifetime P metadata opts).1 ≤ window) :
    (evaluate P noCacheRequest metadata now opts).AllowsStale := by
  have hrecord : CacheControl.fromHeaders noCacheRequest =
      { CacheControl.default with noCache := true } := by decide
  have hfree := mt (pinned_iff _ _).mp hpinned
  have hnot := mt (unqualified_iff _).mp hunqualified
  rw [Bool.not_eq_true] at hfree hnot
  rw [evaluate]
  dsimp only
  rw [hrecord, if_neg (by decide), if_neg (by simp [CacheControl.default]), if_pos rfl,
    staleIfErrorAllowance, hfree, hnot, if_neg (by simp), hwindow]
  dsimp only
  rw [if_pos hle]
  trivial

/-! ### The two laws -/

/-- **An unqualified `no-cache` and its confirmation**: a response that lists it is
confirmed for every request at every time just when a `no-cache` is read from it
and none that is read names a field, or when it is pinned and never fresh. -/
theorem confirms_of_no_cache_iff (P : Platform) (metadata : StoredMeta) (opts : CacheOptions) :
    ((∃ item, metadata.headers.Lists item ∧ IsWord item "no-cache") →
        ∀ requestHeaders, ∀ now < u64Bound,
          (evaluate P requestHeaders metadata now opts).Confirms) ↔
      ((∃ item, metadata.headers.Lists item ∧ IsWord item "no-cache") →
        metadata.headers.Unqualified ∨ metadata.headers.Pinned opts.shared ∧
          ∀ now < u64Bound, (freshnessLifetime P metadata opts).1 ≤ currentAge P metadata now) := by
  refine imp_congr_right fun _ => ⟨fun h => ?_, fun h requestHeaders now hnow => ?_⟩
  · by_contra hnot
    obtain ⟨hunqualified, hpinned⟩ := not_or.mp hnot
    have hstale : ∀ now < u64Bound,
        (freshnessLifetime P metadata opts).1 ≤ currentAge P metadata now := by
      intro now hnow
      by_contra hfresh
      have hconfirms := h ∅ now hnow
      rw [evaluate_plain (not_le.mp hfresh) hunqualified] at hconfirms
      exact hconfirms
    have hconfirms := h maxStaleRequest 0 (by decide)
    rw [evaluate_maxStaleRequest hunqualified (fun hp => hpinned ⟨hp, hstale⟩)
      (hstale 0 (by decide))] at hconfirms
    exact hconfirms
  · rcases evaluate_cases P requestHeaders metadata now opts with ⟨reason, heq⟩ |
      ⟨age, lifetime, allowed, reason, heq, -⟩ | ⟨hunqualified, ⟨age, lifetime, -, hfresh⟩ |
      ⟨age, lifetime, background, reason, -, hfree, -⟩⟩
    · rw [heq]
      trivial
    · rw [heq]
      trivial
    · obtain ⟨-, hstale⟩ := h.resolve_left hunqualified
      exact absurd hfresh (not_lt.mpr (hstale now hnow))
    · exact absurd (h.resolve_left hunqualified).1 hfree

/-- A response with the fields of one `no-cache` beside an unqualified one. -/
def besideFields : StoredMeta where
  status := 200
  headers := toHeaderMap [("cache-control", "max-age=60, no-cache, no-cache=\"set-cookie\"")]
  requestTime := 0
  responseTime := 0

theorem fresh_beside_fields : ¬∀ (P : Platform) (metadata : StoredMeta) (opts : CacheOptions),
    (∃ item, metadata.headers.Lists item ∧ IsWord item "no-cache") →
      ∀ requestHeaders, ∀ now < u64Bound,
        (evaluate P requestHeaders metadata now opts).Confirms := by
  intro h
  have hlists : besideFields.headers.Lists " no-cache".toList :=
    ⟨besideFields.headers.fields.head (by decide) |>.2, by decide,
      Quoted.mem_itemsFrom_iff.mp (by decide)⟩
  have hword : IsWord " no-cache".toList "no-cache" :=
    ⟨" ".toList, "no-cache".toList, [], by decide, by decide, by decide⟩
  have hfresh : evaluate .sample ∅ besideFields 1 .default = .fresh 1 60 := by decide +kernel
  have hanswer : ∀ {metadata : StoredMeta} {answer : Freshness} {item : List Char},
      metadata.headers.Lists item → IsWord item "no-cache" →
        evaluate .sample ∅ metadata 1 .default = answer → answer.Confirms := by
    rintro metadata _ item hlists hword rfl
    exact h .sample metadata .default ⟨item, hlists, hword⟩ ∅ 1 (by decide)
  exact hanswer hlists hword hfresh

/-- **A forbidden stale answer and a shared cache**: a response that lists such a
directive is never answered with stale just when it is pinned or unqualified, or
when it has no `stale-if-error` and outlives the clock. -/
theorem never_stale_of_forbidden_iff (P : Platform) (metadata : StoredMeta) (opts : CacheOptions) :
    (opts.shared = true → metadata.headers.ForbidsStale →
        ∀ requestHeaders, ∀ now < u64Bound,
          ¬(evaluate P requestHeaders metadata now opts).AllowsStale) ↔
      (opts.shared = true → metadata.headers.ForbidsStale →
        metadata.headers.Pinned true ∨ metadata.headers.Unqualified ∨
          (CacheControl.fromHeaders metadata.headers).staleIfError = none ∧
            ∀ now < u64Bound,
              currentAge P metadata now < (freshnessLifetime P metadata opts).1) := by
  refine imp_congr_right fun hshared => imp_congr_right fun _ =>
    ⟨fun h => ?_, fun h requestHeaders now hnow => ?_⟩
  · by_contra hnot
    simp only [not_or] at hnot
    obtain ⟨hpinned, hunqualified, hnever⟩ := hnot
    rw [← hshared] at hpinned
    have hfresh : ∀ now < u64Bound,
        currentAge P metadata now < (freshnessLifetime P metadata opts).1 := by
      intro now hnow
      by_contra hstale
      refine h maxStaleRequest now hnow ?_
      rw [evaluate_maxStaleRequest hunqualified hpinned (not_lt.mp hstale)]
      trivial
    rcases hwindow : (CacheControl.fromHeaders metadata.headers).staleIfError with _ | window
    · exact hnever ⟨hwindow, hfresh⟩
    · refine h noCacheRequest 0 (by decide)
        (evaluate_noCacheRequest hunqualified hpinned hwindow ?_)
      have hlt := hfresh 0 (by decide)
      omega
  · rw [← hshared] at h
    rcases evaluate_cases P requestHeaders metadata now opts with ⟨reason, heq⟩ |
      ⟨age, lifetime, allowed, reason, heq, hallowed⟩ | ⟨hunqualified, ⟨age, lifetime, heq, -⟩ |
      ⟨age, lifetime, background, reason, -, hfree, hstale⟩⟩
    · rw [heq]
      exact id
    · rw [heq]
      rcases allowed with _ | window
      · exact id
      · obtain ⟨hfree, hunqualified, hwindow⟩ := hallowed (Option.some_ne_none _)
        rcases h with hp | hu | ⟨hnone, -⟩
        · exact absurd hp hfree
        · exact absurd hu hunqualified
        · exact absurd hnone hwindow
    · rw [heq]
      exact id
    · rcases h with hp | hu | ⟨-, hfresh⟩
      · exact absurd hp hfree
      · exact absurd hu hunqualified
      · exact absurd (hfresh now hnow) (not_lt.mpr hstale)

/-- A response for shared caches that may be served while it is confirmed. -/
def sharedWindow : StoredMeta where
  status := 200
  headers := toHeaderMap [("cache-control", "s-maxage=10, stale-while-revalidate=60")]
  requestTime := 0
  responseTime := 0

theorem stale_despite_s_maxage : ¬∀ (P : Platform) (metadata : StoredMeta) (opts : CacheOptions),
    opts.shared = true → metadata.headers.ForbidsStale →
      ∀ requestHeaders, ∀ now < u64Bound,
        ¬(evaluate P requestHeaders metadata now opts).AllowsStale := by
  intro h
  have hlists : sharedWindow.headers.Lists "s-maxage=10".toList :=
    ⟨sharedWindow.headers.fields.head (by decide) |>.2, by decide,
      Quoted.mem_itemsFrom_iff.mp (by decide)⟩
  refine h .sample sharedWindow { CacheOptions.default with shared := true } rfl
    ⟨_, hlists, Or.inl (by decide : directiveName _ = _)⟩ ∅ 20 (by decide) ?_
  have hstale : evaluate .sample ∅ sharedWindow 20 { CacheOptions.default with shared := true } =
      .serveStale 20 10 true "stale-while-revalidate" := by decide +kernel
  rw [hstale]
  trivial

end Syndeo
