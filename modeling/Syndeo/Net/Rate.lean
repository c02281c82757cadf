import Mathlib.Algebra.BigOperators.Group.Finset.Basic
import Mathlib.Algebra.Order.BigOperators.Group.Finset
import Mathlib.Algebra.Order.Field.Rat
import Syndeo.Concurrent.Pool
import Syndeo.Net.Walk

/-!
# The hit rate

`Stats::hit_rate` is what was answered from the store, as a share of the requests.
A lookup counts its request, and a hit or a stale hit where it answers; one that asks
for a revalidation counts neither, and earns the fetch the hit that a confirmation
counts (`Syndeo.Net.creditDiscipline`). So what has been counted as answered and what
has been earned are together no more than the requests (`Syndeo.Net.Credited`).

A refresh behind a stale answer earns nothing: its request was counted as a stale hit
already, and when the origin confirms the entry a hit is counted for it once more.
Where that does not happen, and the counters have room, the rate is a rate
(`Syndeo.Net.hit_rate_le_one`).
-/

namespace Syndeo

namespace Net

open Concurrent Tables
open Prog (Asks Stays Leads)
open Text (u64Bound eqIgnoreAsciiCase)

/-! ### The source -/

/-- `Stats`, as far as its hit rate goes. -/
structure Stats where
  requests : ℕ
  hits : ℕ
  staleHits : ℕ

/-- `Cache::stats`. -/
def stats (s : NetState) : Stats where
  requests := s.store.index.counter counters.requests
  hits := s.store.index.counter counters.hits
  staleHits := s.store.index.counter counters.staleHits

/-- `Stats::hit_rate`. -/
def Stats.hitRate (P : Platform) (stats : Stats) : ℚ :=
  if stats.requests = 0 then 0 else P.divide (stats.hits + stats.staleHits) stats.requests

/-- **A step that counts as it should**: no refresh counts a hit, and there is room for
the request that is counted. -/
def countsOnce (s : NetState) : ∀ {β : Type}, NetAct β → Bool
  | _, .cache .refresh (.index (.bump name _)) => name ≠ counters.hits
  | _, .cache _ (.index (.recordAccess _ _ _)) =>
    s.store.index.counter counters.requests + 1 < u64Bound
  | _, _ => true

/-! ### What is earned -/

/-- A fetch counts a hit only where it has earned one, and a lookup earns what it does
not count. -/
def creditDiscipline : Discipline NetAct ℕ where
  may := fun {_} credit a =>
    match a with
    | .cache errand (.index (.bump name n)) =>
      name ≠ counters.requests ∧ name ≠ counters.staleHits ∧
        (name = counters.hits → errand ≠ .refresh → n ≤ credit)
    | .cache _ (.index (.recordAccess _ _ tally)) =>
      counted tally counters.requests = 1 ∧
        counted tally counters.hits + counted tally counters.staleHits ≤ 1
    | _ => True
  sees := fun {_} _ _ _ => True
  next := fun {_} credit a b =>
    match a, b with
    | .cache _ (.index (.bump name n)), .ok _ => if name = counters.hits then credit - n else credit
    | .cache _ (.index (.recordAccess _ _ tally)), .ok _ =>
      credit + (1 - (counted tally counters.hits + counted tally counters.staleHits))
    | _, _ => credit
  born := fun {_} _ _ => 0

/-- **What was answered and what was earned** is no more than what was asked. -/
def Credited (s : NetState) (credit : ℕ → ℕ) : Prop :=
  ∀ n, (stats s).hits + (stats s).staleHits + (Finset.range n).sum credit ≤ (stats s).requests

section Sums

variable {f g : ℕ → ℕ} {i d m : ℕ}

/-- What one of them gives and takes, all of them do. -/
theorem exists_sum_le (hothers : ∀ j, j ≠ i → g j ≤ f j) (hi : g i + m ≤ f i + d) (n : ℕ) :
    ∃ n', (Finset.range n).sum g + m ≤ (Finset.range n').sum f + d := by
  refine ⟨max n (i + 1), ?_⟩
  have hmem : i ∈ Finset.range (max n (i + 1)) := by
    rw [Finset.mem_range]
    omega
  have hmore : (Finset.range n).sum g ≤ (Finset.range (max n (i + 1))).sum g :=
    Finset.sum_le_sum_of_subset (Finset.range_mono (le_max_left _ _))
  have hrest : ((Finset.range (max n (i + 1))).erase i).sum g ≤
      ((Finset.range (max n (i + 1))).erase i).sum f :=
    Finset.sum_le_sum fun j hj => hothers j (Finset.ne_of_mem_erase hj)
  have hg : g i + ((Finset.range (max n (i + 1))).erase i).sum g =
      (Finset.range (max n (i + 1))).sum g := Finset.add_sum_erase _ g hmem
  have hf : f i + ((Finset.range (max n (i + 1))).erase i).sum f =
      (Finset.range (max n (i + 1))).sum f := Finset.add_sum_erase _ f hmem
  omega

end Sums

/-! ### What a step leaves -/

section Steps

variable {s s' : NetState} {credit credit' : ℕ → ℕ} {i d m r : ℕ} {w : World} {β : Type}

theorem Credited.step (h : Credited s credit) (hothers : ∀ j, j ≠ i → credit' j ≤ credit j)
    (hi : credit' i + m ≤ credit i + d)
    (hserved : (stats s').hits + (stats s').staleHits + d ≤
      (stats s).hits + (stats s).staleHits + m + r)
    (hrequests : (stats s).requests + r ≤ (stats s').requests) : Credited s' credit' := by
  intro n
  obtain ⟨n', hn'⟩ := exists_sum_le hothers hi n
  have hbefore := h n'
  omega

/-- Nothing is counted and nothing is earned. -/
theorem Credited.unchanged (h : Credited s credit) (hothers : ∀ j, j ≠ i → credit' j ≤ credit j)
    (hi : credit' i = credit i) (hstats : stats s' = stats s) : Credited s' credit' :=
  @Credited.step s s' credit credit' i 0 0 0 h hothers (by omega) (by rw [hstats])
    (by rw [hstats]; exact le_rfl)

theorem stats_of_counters (h : s'.store.index.counters = s.store.index.counters) :
    stats s' = stats s := by
  simp only [stats, Index.counter, h]

/-- The step counts something. -/
def NetAct.Counting : ∀ {β : Type}, NetAct β → Prop
  | _, .cache _ a => a.Counting
  | _, _ => False

theorem creditDiscipline_next {a : NetAct β} {b : β} {t : ℕ} (ha : ¬a.Counting) :
    creditDiscipline.next t a b = t := by
  cases a with
  | cache errand a =>
    cases a with
    | index a =>
      cases a with
      | recordAccess key now tally => exact absurd trivial ha
      | bump name n => exact absurd trivial ha
      | _ => rfl
    | _ => rfl
  | _ => rfl

theorem stats_of_perform {a : NetAct β} {b : β} (ha : ¬a.Counting)
    (hstep : NetState.perform w i a s = some (b, s')) : stats s' = stats s := by
  by_cases hcache : a.OnCache
  · cases a with
    | cache errand a =>
      exact stats_of_counters (Store.counters_of_perform ha (NetState.perform_cache.mp hstep).1)
    | _ => exact hcache.elim
  · exact stats_of_counters (by rw [NetState.store_of_perform hcache hstep])

theorem advance_le {starts : Bool} {t : ℕ → ℕ} {n : ℕ} {a : NetAct β} {b : β} (j : ℕ) (hj : j ≠ i) :
    creditDiscipline.advance starts t i n a b j ≤ t j := by
  rw [Discipline.advance, if_neg hj]
  split
  · exact Nat.zero_le _
  · exact le_rfl

/-- **A request is counted**, with what was answered of it. -/
theorem Credited.recordAccess {starts : Bool} {t : ℕ → ℕ} {n now : ℕ} {errand : Errand}
    {key : Option String} {tally : List (String × ℕ)} {b : Except CacheError Unit}
    (h : Credited s t) (hroom : s.store.index.counter counters.requests + 1 < u64Bound)
    (hone : counted tally counters.requests = 1)
    (hserved : counted tally counters.hits + counted tally counters.staleHits ≤ 1)
    (hstep : NetState.perform w i (.cache errand (.index (.recordAccess key now tally))) s =
      some (b, s')) :
    Credited s' (creditDiscipline.advance starts t i n
      (.cache errand (.index (.recordAccess key now tally))) b) := by
  rcases Store.perform_index.mp (NetState.perform_cache.mp hstep).1 with
    ⟨_, -, rfl, hsame⟩ | ⟨-, _, ix, hrun, rfl, hsame⟩ | ⟨-, _, hrun, -⟩
  · refine h.unchanged advance_le ?_ (stats_of_counters (by rw [hsame]))
    rw [Discipline.advance_self]
    rfl
  · obtain ⟨-, rfl⟩ := Prod.mk.inj (Except.ok.inj hrun)
    have hindex : s'.store.index = s.store.index.recordAccess key now tally := by rw [hsame]
    have hrequests : (stats s').requests = (stats s).requests + 1 := by
      simp only [stats, hindex]
      rw [Index.counter_recordAccess (by rw [hone]; exact hroom), hone]
    have hhits : (stats s').hits ≤ (stats s).hits + counted tally counters.hits := by
      simp only [stats, hindex]
      exact Index.counter_recordAccess_le
    have hstale : (stats s').staleHits ≤
        (stats s).staleHits + counted tally counters.staleHits := by
      simp only [stats, hindex]
      exact Index.counter_recordAccess_le
    refine @Credited.step s s' t _ i
      (1 - (counted tally counters.hits + counted tally counters.staleHits)) 0 1 h
      advance_le ?_ (by omega) hrequests.ge
    rw [Discipline.advance_self]
    exact le_rfl
  · exact nomatch hrun

/-- **A hit is counted** that was earned. -/
theorem Credited.bump {starts : Bool} {t : ℕ → ℕ} {n k : ℕ} {errand : Errand} {name : String}
    {b : Except CacheError Unit} (h : Credited s t) (hrequests : name ≠ counters.requests)
    (hstale : name ≠ counters.staleHits) (hearned : name = counters.hits → k ≤ t i)
    (hstep : NetState.perform w i (.cache errand (.index (.bump name k))) s = some (b, s')) :
    Credited s' (creditDiscipline.advance starts t i n
      (.cache errand (.index (.bump name k))) b) := by
  rcases Store.perform_index.mp (NetState.perform_cache.mp hstep).1 with
    ⟨_, -, rfl, hsame⟩ | ⟨-, answer, ix, hrun, rfl, hsame⟩ | ⟨-, _, hrun, -⟩
  · refine h.unchanged advance_le ?_ (stats_of_counters (by rw [hsame]))
    rw [Discipline.advance_self]
    rfl
  · obtain ⟨-, rfl⟩ := Prod.mk.inj (Except.ok.inj hrun)
    have hindex : s'.store.index = s.store.index.bump name k := by rw [hsame]
    have hsameRequests : (stats s').requests = (stats s).requests := by
      simp only [stats, hindex, Index.counter_bump_of_ne (Ne.symm hrequests)]
    have hsameStale : (stats s').staleHits = (stats s).staleHits := by
      simp only [stats, hindex, Index.counter_bump_of_ne (Ne.symm hstale)]
    by_cases hhits : name = counters.hits
    · have hle := hearned hhits
      have hcount : (stats s').hits ≤ (stats s).hits + k := by
        simp only [stats, hindex, hhits]
        exact Index.counter_bump_le
      refine @Credited.step s s' t _ i 0 k 0 h advance_le ?_ (by omega) (by omega)
      rw [Discipline.advance_self]
      have hnext : creditDiscipline.next (t i)
          (.cache errand (.index (.bump name k))) (.ok answer) = t i - k := if_pos hhits
      omega
    · refine h.unchanged advance_le ?_ ?_
      · rw [Discipline.advance_self]
        exact if_neg hhits
      · simp only [stats, hindex, Index.counter_bump_of_ne (Ne.symm hrequests),
          Index.counter_bump_of_ne (Ne.symm hstale), Index.counter_bump_of_ne (Ne.symm hhits)]
  · exact nomatch hrun

/-- **One step** that counts as it should. -/
theorem Credited.perform {starts : Bool} {t : ℕ → ℕ} {n : ℕ} {a : NetAct β} {b : β}
    (h : Credited s t) (hok : countsOnce s a = true) (hmay : creditDiscipline.may (t i) a)
    (hstep : NetState.perform w i a s = some (b, s')) :
    Credited s' (creditDiscipline.advance starts t i n a b) := by
  by_cases hcounting : a.Counting
  · cases a with
    | cache errand a =>
      cases a with
      | index a =>
        cases a with
        | recordAccess key now tally =>
          have hroom : s.store.index.counter counters.requests + 1 < u64Bound := by
            cases errand <;> exact of_decide_eq_true hok
          exact h.recordAccess hroom hmay.1 hmay.2 hstep
        | bump name k =>
          refine h.bump hmay.1 hmay.2.1 (fun hhits => hmay.2.2 hhits ?_) hstep
          rintro rfl
          exact of_decide_eq_true hok hhits
        | _ => exact hcounting.elim
      | _ => exact hcounting.elim
    | _ => exact hcounting.elim
  · have hstats := stats_of_perform hcounting hstep
    refine h.unchanged advance_le ?_ hstats
    rw [Discipline.advance_self, creditDiscipline_next hcounting]

end Steps

/-! ### What a fetch earns and counts -/

attribute [local irreducible] invalidates isCacheableMethod

section Programs

variable {P : Platform} {config : NetConfig} {opts : CacheOptions} {errand : Errand} {n : ℕ}
  {α : Type}

/-- So much is earned. -/
abbrev Earned (n : ℕ) (credit : ℕ) : Prop := n ≤ credit

/-- The steps that neither count nor earn. -/
def NetAct.Idle : ∀ {β : Type}, NetAct β → Prop
  | _, .cache _ a => a.Uncounted
  | _, _ => True

theorem tolerates_idle : Tolerates @NetAct.Idle where
  cache := fun _ _ ha => ha
  apart := fun a ha => by
    cases a with
    | cache errand a => exact ha.elim
    | _ => trivial

theorem asking_idle : Asking @NetAct.Idle := fun _ _ => ⟨trivial, trivial⟩

/-- What is idle earns nothing, and takes nothing. -/
theorem NetAct.Idle.step {β : Type} {a : NetAct β} {credit : ℕ} (ha : a.Idle) :
    creditDiscipline.may credit a ∧ ∀ b, creditDiscipline.next credit a b = credit := by
  cases a with
  | cache errand a =>
    cases a with
    | index a =>
      cases a with
      | recordAccess key now tally => exact ha.elim
      | bump name k =>
        obtain ⟨hrequests, hhits, hstale, -⟩ := ha
        refine ⟨⟨hrequests, hstale, fun h => absurd h hhits⟩, fun b => ?_⟩
        rcases b with e | _
        · rfl
        · exact if_neg hhits
      | _ => exact ⟨trivial, fun _ => rfl⟩
    | _ => exact ⟨trivial, fun _ => rfl⟩
  | _ => exact ⟨trivial, fun _ => rfl⟩

theorem stays_idle {T : ℕ → Prop} {x : NetM α} (hx : x.run.Asks NetAct.Idle) :
    Stays creditDiscipline T x :=
  Prog.stays_of_asks hx fun a t ha ht => ⟨ha.step.1, fun b _ => by rw [ha.step.2 b]; exact ht⟩

theorem stays_uncounted {T : ℕ → Prop} {x : CacheM α} (hx : x.run.Asks CacheAct.Uncounted) :
    Stays (creditDiscipline.comap (NetAct.cache errand)) T x :=
  Prog.stays_of_asks hx fun a t ha ht =>
    have hidle : (NetAct.cache errand a).Idle := ha
    ⟨hidle.step.1, fun b _ => by
      change T (creditDiscipline.next t (.cache errand a) b)
      rw [hidle.step.2 b]
      exact ht⟩

/-- Where it has to be asked, what was looked up has earned a hit. -/
def Earning : Lookup → ℕ → Prop
  | .revalidate _ _ _ _, credit => Earned 1 credit
  | _, _ => True

/-- **A lookup** counts one request, and what it does not answer itself it has earned. -/
theorem settles_lookup_credit {partition : Option String} {method url : String} {h : HeaderMap}
    {t : ℕ} : Prog.Settles (creditDiscipline.comap (NetAct.cache errand)) (fun _ => True)
      (lookup P opts partition method url h) t Earning := by
  refine settles_lookup stays_uncounted ?_ trivial
  intro key now tally found t hcounts _
  refine ⟨⟨hcounts.requests, ?_⟩, fun b _ => ?_⟩
  · rw [hcounts.served]
    exact Bool.toNat_le found.serves
  · rcases b with e | _
    · trivial
    · cases found with
      | revalidate response conditional staleIfError reason =>
        have hserved : counted tally counters.hits + counted tally counters.staleHits = 0 :=
          hcounts.served
        have hnext : (creditDiscipline.comap (NetAct.cache errand)).next t
            (.index (.recordAccess key now tally)) (.ok ()) =
              t + (1 - (counted tally counters.hits + counted tally counters.staleHits)) := rfl
        refine le_of_le_of_eq ?_ hnext.symm
        omega
      | _ => trivial

/-- **A confirmation** counts a hit, which is earned where it is not a refresh's. -/
theorem obeys_recordNotModified {key : String} {fresh : HeaderMap} {requestTime responseTime t : ℕ}
    (ht : errand ≠ .refresh → Earned 1 t) :
    (recordNotModified P key fresh requestTime responseTime).run.Obeys
      (creditDiscipline.comap (NetAct.cache errand)) (fun _ _ => True) t := by
  have hstays : ∀ {β : Type} {x : CacheM β}, x.run.Asks CacheAct.Uncounted →
      Stays (creditDiscipline.comap (NetAct.cache errand))
        (fun t => errand ≠ .refresh → Earned 1 t) x := fun hx => stays_uncounted hx
  refine (hstays (uncounted_ask (a := .getEntry key) trivial)).obeys_then (fun found t ht => ?_) t ht
  rcases found with _ | old
  · trivial
  · refine (hstays (uncounted_ask (a := .refreshEntry (old.confirmed fresh requestTime responseTime))
        trivial)).obeys_then (fun _ t ht => ?_) t ht
    refine (hstays (uncounted_bump (by decide))).obeys_then (fun _ t ht => ?_) t ht
    refine (hstays uncounted_clock).obeys_then (fun _ t ht => ?_) t ht
    refine (hstays (Syndeo.asks_attempt uncounted_materialize)).obeys_then (fun r t ht => ?_) t ht
    rcases r with e | response
    · simp only
      split
      · refine (hstays uncounted_dropBroken).obeys_then ?_ t ht
        exact fun _ _ _ => trivial
      · trivial
    · refine ⟨⟨by decide, by decide, fun h => absurd h (by decide)⟩, fun b _ => ?_⟩
      rcases b with e | _
      · trivial
      · refine ⟨⟨by decide, by decide, fun _ hnot => ht hnot⟩, fun b _ => ?_⟩
        rcases b with e | _
        · trivial
        · trivial

/-- The piece keeps to what is earned. -/
abbrev Keeps {α : Type} (x : NetM α) : Prop := Stays creditDiscipline (fun _ => True) x

theorem keeps_idle {x : NetM α} (hx : x.run.Asks NetAct.Idle) : Keeps x := stays_idle hx

variable {request : FetchRequest} {keep : Keep} {stored : StoredResponse} {answer : Answer}

theorem obeys_serveOr {m t : ℕ} {serve : NetM Fetched} (ht : Earned m t)
    (hserve : ∀ t, Earned m t → serve.run.Obeys creditDiscipline (fun _ _ => True) t) :
    (serveOr P config request stored keep serve).run.Obeys creditDiscipline (fun _ _ => True) t := by
  refine Prog.Stays.obeys_then (stays_idle tolerates_idle.storedSatisfies) (fun satisfies t ht => ?_)
    t ht
  split
  · exact hserve t ht
  · exact keeps_idle (tolerates_idle.fetchFromOrigin asking_idle) t trivial

theorem keeps_serveOr {serve : NetM Fetched} (hserve : Keeps serve) :
    Keeps (serveOr P config request stored keep serve) := fun t _ =>
  obeys_serveOr (Nat.zero_le t) fun t _ => hserve t trivial

theorem keeps_finish {status : ℕ} {headers : HeaderMap} {body : Bytes} {source : Source}
    {content : Option ContentId} : Keeps (finish status headers body source content) :=
  keeps_idle tolerates_idle.finish

/-- What was earned by asking is what a confirmation counts. -/
theorem obeys_confirmed {t : ℕ} (ht : Earned 1 t) :
    (confirmed P config request stored answer keep).run.Obeys creditDiscipline
      (fun _ _ => True) t := by
  refine Prog.Stays.obeys_then (stays_idle tolerates_idle.admits) (fun kept t ht => ?_) t ht
  split
  · refine Prog.Stays.obeys_then (stays_idle tolerates_idle.now) (fun time t ht => ?_) t ht
    refine Prog.obeys_run_bind.mpr (obeys_attemptCache.mpr ?_)
    refine (obeys_recordNotModified fun _ => ht).mono fun recorded u _ => ?_
    refine Stays.bind (keeps_idle (tolerates_idle.act (a := .release) trivial)) (fun _ => ?_) u trivial
    rcases recorded with e | _ | refreshed
    · simp only
      split
      · exact keeps_idle (tolerates_idle.refetchLost asking_idle)
      · exact Prog.stays_return
    · exact keeps_finish
    · exact keeps_serveOr keeps_finish
  · exact keeps_finish t trivial

theorem obeys_revalidate {conditional : List (HeaderName × String)} {staleIfError : Option ℕ} {t : ℕ}
    (ht : Earned 1 t) :
    (revalidate P config request stored conditional staleIfError keep).run.Obeys creditDiscipline
      (fun _ _ => True) t := by
  refine Prog.Stays.obeys_then (stays_idle (asks_attempt (asks_origin asking_idle)))
    (fun attempted t ht => ?_) t ht
  rcases attempted with e | answer
  · simp only
    split
    · exact keeps_finish t trivial
    · trivial
  · simp only
    split
    · exact obeys_confirmed ht
    · exact keeps_idle tolerates_idle.replaced t trivial

theorem obeys_answerFrom {found : Lookup} {t : ℕ} (ht : Earning found t) :
    (answerFrom P config request keep found).run.Obeys creditDiscipline (fun _ _ => True) t := by
  cases found with
  | fresh stored => exact keeps_serveOr keeps_finish t trivial
  | stale stored refreshInBackground reason =>
    refine keeps_serveOr ?_ t trivial
    split
    · exact Stays.bind (keeps_idle tolerates_idle.spawnRefresh) fun _ => keeps_finish
    · exact keeps_finish
  | revalidate stored conditional staleIfError reason =>
    exact obeys_serveOr ht fun t ht => obeys_revalidate ht
  | miss reason =>
    refine Stays.bind (keeps_idle tolerates_idle.tryPeers) (fun found => ?_) t trivial
    rcases found with _ | fetched
    · exact keeps_idle (tolerates_idle.fetchFromOrigin asking_idle)
    · exact Prog.stays_pure

theorem keeps_consult : Keeps (consult P config request keep) := by
  intro t _
  refine Prog.obeys_run_bind.mpr
    (obeys_onCache.mpr (Prog.Obeys.mono settles_lookup_credit fun r u hr => ?_))
  rcases r with e | found
  · trivial
  · exact obeys_answerFrom hr

theorem keeps_fetchOnce : Keeps (fetchOnce P config request) := by
  refine Stays.bind (keeps_idle (asks_act trivial)) fun _ => ?_
  refine Stays.bind (keeps_idle tolerates_idle.settled) fun _ => ?_
  refine Stays.bind (keeps_idle (tolerates_idle.act trivial)) fun since => ?_
  split
  · exact keeps_idle (tolerates_idle.passThrough asking_idle)
  · exact keeps_consult

theorem keeps_fetchFrom {left : ℕ} {visited : List String} :
    Keeps (fetchFrom P config left request visited) := by
  induction left generalizing request visited with
  | zero =>
    rw [fetchFrom]
    refine keeps_fetchOnce.bind fun fetched => ?_
    split
    · exact Stays.bind Prog.stays_return fun _ => Prog.stays_pure
    · exact Prog.stays_return
  | succ left ih =>
    rw [fetchFrom]
    refine keeps_fetchOnce.bind fun fetched => ?_
    split
    · exact Stays.bind Prog.stays_return fun _ => Prog.stays_pure
    · exact ih

theorem keeps_fetch : Keeps (fetch P config request) :=
  Stays.bind Prog.stays_return fun _ => keeps_fetchFrom

theorem keeps_clearCache : Keeps clearCache := by
  refine Stays.bind (keeps_idle (tolerates_idle.act trivial)) fun _ => ?_
  refine Stays.bind (keeps_idle (asks_attempt (tolerates_idle.onCache uncounted_clear))) fun _ => ?_
  exact Stays.bind (keeps_idle (tolerates_idle.act trivial)) fun _ => Prog.stays_return

theorem keeps_refreshEntry {key : String} {conditional : List (HeaderName × String)} :
    Keeps (refreshEntry P config request key conditional keep) := by
  refine Stays.bind (keeps_idle (asks_origin asking_idle)) fun answer => ?_
  refine Stays.bind (keeps_idle tolerates_idle.admits) fun kept => ?_
  split
  · refine Stays.bind (Stays.lift_run ?_) fun outcome =>
      Stays.bind (keeps_idle (tolerates_idle.act trivial)) fun _ => Prog.stays_return
    split
    · refine Stays.bind (keeps_idle tolerates_idle.now) fun time => ?_
      refine Stays.bind (fun t _ => obeys_onCache.mpr ?_) fun _ => Prog.stays_pure
      exact obeys_recordNotModified fun h => absurd rfl h
    · exact keeps_idle tolerates_idle.replaceEntry
  · exact Prog.stays_pure

theorem keeps_task {task : Task} : Keeps (task.body P config) := by
  cases task with
  | refresh key request conditional keep =>
    refine Stays.bind keeps_refreshEntry.lift_run fun outcome => ?_
    have hend : Keeps (act (.endRefresh key)) := keeps_idle (tolerates_idle.act trivial)
    rcases outcome with e | shared | _
    · exact hend
    · exact Stays.bind (keeps_idle tolerates_idle.announce) fun _ => hend
    · exact hend
  | write teed writer landing =>
    exact Stays.bind (keeps_idle (asks_attempt tolerates_idle.writeStreamed)) fun _ =>
      keeps_idle (tolerates_idle.act trivial)

theorem keeps_job {job : Job} :
    (job.program P config).Obeys creditDiscipline (fun _ _ => True) 0 := by
  have hidle : ∀ {α : Type} {x : CacheM α} {f : Except CacheError α → Outcome},
      x.run.Asks CacheAct.Uncounted →
        (do let r ← x.run.lift (NetAct.cache .upkeep); pure (f r) : Prog NetAct Outcome).Obeys
          creditDiscipline (fun _ _ => True) 0 := fun hx =>
    Prog.obeys_bind.mpr (Prog.obeys_lift.mpr ((stays_uncounted (T := fun _ => True) hx) 0 trivial))
  cases job with
  | fetch request =>
    refine Prog.obeys_bind.mpr ?_
    exact Stays.bind keeps_fetch (fun _ => keeps_idle tolerates_idle.receive) 0 trivial
  | clearCache => exact Prog.obeys_bind.mpr (keeps_clearCache 0 trivial)
  | landed => exact Prog.obeys_bind.mpr (keeps_idle tolerates_idle.settled 0 trivial)
  | collectGarbage => exact hidle uncounted_collectGarbage
  | serve asked => exact hidle uncounted_bodyForPeer

end Programs

/-! ### Every run -/

variable {P : Platform} {config : NetConfig}

/-- **What was earned is kept up** by every step that counts as it should. -/
theorem governs_credited : Governs ((netSystem P config).when fun _ {_} a s => countsOnce s a = true)
    creditDiscipline Credited (fun _ _ _ => True) where
  step := by
    rintro i n β a s b s' credit hin hcredited hmay ⟨hok, w, -, hstep⟩
    exact ⟨trivial, hcredited.perform hok hmay hstep⟩
  child := by
    intro n β a p credit hmay hchild
    cases a with
    | spawn task =>
      obtain rfl := Option.some.inj hchild
      exact Prog.obeys_bind.mpr (keeps_task 0 trivial)
    | _ => exact nomatch hchild

/-- **The hit rate is a rate**: in every run in which no refresh counts a hit and the
requests have room, what was answered from the store is no more than was asked. -/
theorem hit_rate_le_one (hP : ∀ a b, a ≤ b → P.divide a b ≤ 1) {s : NetState} {jobs : List Job}
    {c : Config NetAct NetState Outcome} (hs : (stats s).hits + (stats s).staleHits ≤ (stats s).requests)
    (hrun : ((netSystem P config).when fun _ {_} a s => countsOnce s a = true).Runs
      (running P config s jobs) c) :
    (stats c.shared).hits + (stats c.shared).staleHits ≤ (stats c.shared).requests ∧
      (stats c.shared).hitRate P ≤ 1 := by
  have hstart : Kept creditDiscipline Credited (fun _ _ _ => True) (running P config s jobs) := by
    refine ⟨fun _ => 0, fun n => ?_, fun i p hp => ?_⟩
    · rw [Finset.sum_const_zero]
      exact hs
    · rw [running, List.getElem?_map] at hp
      obtain ⟨job, -, rfl⟩ := Option.map_eq_some_iff.mp hp
      exact keeps_job
  obtain ⟨credit, hcredited, -⟩ := Kept.runs governs_credited hstart hrun
  have hserved := hcredited 0
  rw [Finset.range_zero, Finset.sum_empty] at hserved
  refine ⟨hserved, ?_⟩
  rw [Stats.hitRate]
  split
  · exact zero_le_one
  · exact hP _ _ hserved

/-! ### A page that is served stale -/

/-- Three callers ask for the page. -/
def pageJobs : List Job :=
  List.replicate 3 (.fetch (Redirects.sampleRequest "GET" ∅ []))

/-- The page, which is stale at once, or its confirmation. -/
def pageWorld (time status : ℕ) : World :=
  sampleWorld time status
    [("etag", "\"1\""), ("cache-control", "max-age=0, stale-while-revalidate=60")] [97]

/-- The first caller has read the page and it is stored, and the second is given it
stale. -/
def servedStale : List (World × ℕ) :=
  stretch (pageWorld 10 200) 0 18 ++ stretch (pageWorld 10 200) 3 14 ++
    stretch (pageWorld 12 304) 1 11

/-- So it has been counted. -/
def hasCounted (requests hits staleHits : ℕ) (c : Config NetAct NetState Outcome) : Bool :=
  (stats c.shared).requests = requests && (stats c.shared).hits = hits &&
    (stats c.shared).staleHits = staleHits

theorem hasCounted_iff {requests hits staleHits : ℕ} {c : Config NetAct NetState Outcome} :
    hasCounted requests hits staleHits c = true ↔ (stats c.shared).requests = requests ∧
      (stats c.shared).hits = hits ∧ (stats c.shared).staleHits = staleHits := by
  simp [hasCounted, and_assoc]

/-- While no refresh has ended, the rate is a rate. -/
theorem hit_rate_of_served_stale : ∃ c : Config NetAct NetState Outcome,
    ((netSystem Platform.sample sampleConfig).when fun _ {_} a s => countsOnce s a = true).Runs
        (running Platform.sample sampleConfig (.starting .empty) pageJobs) c ∧
      (stats c.shared).requests = 2 ∧ (stats c.shared).staleHits = 1 ∧
      (stats c.shared).hitRate Platform.sample ≤ 1 := by
  have hfollow : ((running Platform.sample sampleConfig (.starting .empty) pageJobs).follow
      (allowing (fun _ {_} a s => countsOnce s a = true) NetState.perform)
      (child Platform.sample sampleConfig) servedStale).any (hasCounted 2 0 1) = true := by
    decide +kernel
  obtain ⟨c, hruns, hc⟩ : ∃ c, (System.ofPerform (allowing (fun _ {_} a s =>
      countsOnce s a = true) NetState.perform) (fun _ => True)
        (child Platform.sample sampleConfig)).Runs
        (running Platform.sample sampleConfig (.starting .empty) pageJobs) c ∧
      hasCounted 2 0 1 c = true := Config.exists_runs_of_follow (fun _ _ => trivial) hfollow
  rw [System.ofPerform_allowing] at hruns
  obtain ⟨hrequests, -, hstale⟩ := hasCounted_iff.mp hc
  have hdivide : ∀ a b : ℕ, a ≤ b → Platform.sample.divide a b ≤ 1 := fun a b h =>
    div_le_one_of_le₀ (by exact_mod_cast h) (Nat.cast_nonneg b)
  exact ⟨c, hruns, hrequests, hstale, (hit_rate_le_one hdivide (by decide) hruns).2⟩

/-- **Four answers to three requests**: two callers are given the page stale, and each
refresh that is started for them counts a hit. -/
theorem hit_rate_above_one : ∃ c : Config NetAct NetState Outcome,
    (netSystem Platform.sample sampleConfig).Runs
        (running Platform.sample sampleConfig (.starting .empty) pageJobs) c ∧
      ¬((stats c.shared).hits + (stats c.shared).staleHits ≤ (stats c.shared).requests) ∧
      ¬(stats c.shared).hitRate Platform.sample ≤ 1 := by
  have hfollow : ((running Platform.sample sampleConfig (.starting .empty) pageJobs).follow
      NetState.perform (child Platform.sample sampleConfig)
      (servedStale ++ stretch (pageWorld 12 304) 4 12 ++ stretch (pageWorld 14 304) 2 11 ++
        stretch (pageWorld 14 304) 5 12)).any (hasCounted 3 2 2) = true := by decide +kernel
  obtain ⟨c, hruns, hc⟩ := exists_netRuns hfollow
  obtain ⟨hrequests, hhits, hstale⟩ := hasCounted_iff.mp hc
  refine ⟨c, hruns, by omega, ?_⟩
  rw [Stats.hitRate, hrequests, hhits, hstale]
  decide +kernel

end Net

end Syndeo
