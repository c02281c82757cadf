import Syndeo.Net.Redirects

/-!
# Methods, bodies, and coming back

What a redirect does to the request: a 307 or a 308 keeps the method and the body, and
anything else makes it a `GET` without one. So a chain has two phases,
`Syndeo.Redirects.hop_phase`, and in each of them all the requests have one method and
one body.

Two things do not go with that. Of the fields that describe a body, `Content-Type` is
dropped with the body kept. And the addresses that were asked for are remembered
without the method, so a chain that comes back to one of them in its second phase is
refused as a loop, although it was asked for in the first phase only
(`Syndeo.Redirects.follows_faithfully_iff`).
-/

namespace Syndeo

namespace Redirects

open Text

/-- The fields that describe a body, whichever way it is sent: its length is told by
whoever sends it. -/
def describing : List HeaderName :=
  [header.contentType, header.contentEncoding, header.contentLanguage, header.contentLocation]

/-- **The very same request**: one method, one resource and one body. -/
structure AsksSame (P : Platform) (a b : FetchRequest) : Prop where
  method : a.method = b.method
  url : normalizeUrl P a.url = normalizeUrl P b.url
  body : a.body = b.body

section Faithful

variable (P : Platform) {E : Type} (limit : ℕ) (once : ℕ → FetchRequest → Except E FetchResponse)
  (request : FetchRequest)

/-- **A chain that is followed faithfully**: a 307 or a 308 takes the method, the body
and what describes it along, and only what would be asked twice is a loop. -/
structure FollowsFaithfully : Prop where
  preserves : ∀ k current visited next visited' response,
    hop P limit once request k = some (current, visited) →
      hop P limit once request (k + 1) = some (next, visited') →
        once k current = .ok response → Preserves response.status →
          next.method = current.method ∧ next.body = current.body ∧
            ∀ n ∈ describing, next.headers.getAll n = current.headers.getAll n
  loops : ∀ k current visited url, hop P limit once request k = some (current, visited) →
    round P limit k current visited (once k current) = .done (.error (.redirectLoop url)) →
      ∃ next status, Leads P limit k current (once k current) next status ∧
        ∃ j ≤ k, ∃ earlier w, hop P limit once request j = some (earlier, w) ∧
          AsksSame P earlier (followed P current next status)

/-- The answer to the request of this number makes anything a `GET`. -/
def Rewrites (k : ℕ) : Prop :=
  ∃ current visited response, hop P limit once request k = some (current, visited) ∧
    once k current = .ok response ∧ ¬Preserves response.status

/-- The address of the request of this number. -/
def WasAsked (k : ℕ) (url : String) : Prop :=
  ∃ current visited, hop P limit once request k = some (current, visited) ∧
    normalizeUrl P current.url = url

/-- **A chain that goes straight**: no 307 or 308 is followed with a body that has a
type; and a redirect to an address that was asked for is one of a `GET` without a body
from the first on, or comes before anything was made one, or leads to an address that
was asked for afterwards. -/
structure Straight : Prop where
  untyped : ∀ k current visited next visited' response,
    hop P limit once request k = some (current, visited) →
      hop P limit once request (k + 1) = some (next, visited') →
        once k current = .ok response → Preserves response.status →
          current.headers.getAll header.contentType = []
  back : ∀ k current visited next status, hop P limit once request k = some (current, visited) →
    Leads P limit k current (once k current) next status →
      (∃ j ≤ k, WasAsked P limit once request j (normalizeUrl P (P.showUrl next))) →
        request.method = "GET" ∧ request.body = [] ∨
        Preserves status ∧ (∀ i < k, ¬Rewrites P limit once request i) ∨
        ∃ i j, i < j ∧ j ≤ k ∧ Rewrites P limit once request i ∧
          WasAsked P limit once request j (normalizeUrl P (P.showUrl next))

end Faithful

section Phases

variable {P : Platform} {E : Type} {limit : ℕ} {once : ℕ → FetchRequest → Except E FetchResponse}
  {request current : FetchRequest} {visited : List String} {k : ℕ}

/-- The addresses that are remembered are those that were asked for. -/
theorem mem_visited_iff (h : hop P limit once request k = some (current, visited)) (url : String) :
    url ∈ visited ↔ ∃ j ≤ k, WasAsked P limit once request j url := by
  induction k generalizing current visited with
  | zero =>
    obtain ⟨hcurrent, hvisited⟩ := hop_zero h
    rw [hvisited, List.mem_singleton]
    constructor
    · rintro rfl
      exact ⟨0, le_rfl, current, visited, h, by rw [hcurrent]⟩
    · rintro ⟨j, hj, earlier, w, hearlier, rfl⟩
      obtain rfl := Nat.le_zero.mp hj
      rw [(hop_zero hearlier).1]
  | succ k ih =>
    obtain ⟨before, seen, next, status, hbefore, -, -, hcurrent, hvisited⟩ := hop_succ.mp h
    have hurl : current.url = P.showUrl next := by rw [hcurrent]; rfl
    rw [hvisited, List.mem_append, ih hbefore, List.mem_singleton]
    constructor
    · rintro (⟨j, hj, hasked⟩ | rfl)
      · exact ⟨j, Nat.le_succ_of_le hj, hasked⟩
      · exact ⟨k + 1, le_rfl, current, visited, h, by rw [hurl]⟩
    · rintro ⟨j, hj, earlier, w, hearlier, heq⟩
      rcases Nat.lt_or_eq_of_le hj with hj | rfl
      · exact Or.inl ⟨j, Nat.le_of_lt_succ hj, earlier, w, hearlier, heq⟩
      · rw [h] at hearlier
        obtain ⟨rfl, -⟩ := Prod.mk.inj (Option.some.inj hearlier)
        exact Or.inr (by rw [← heq, hurl])

/-- **The two phases of a chain**: the method and the body of the first request up to
where something is made a `GET`, and from there on those of a `GET` without a body. -/
theorem hop_phase (h : hop P limit once request k = some (current, visited)) :
    (∃ i < k, Rewrites P limit once request i) ∧ current.method = "GET" ∧ current.body = [] ∨
      (∀ i < k, ¬Rewrites P limit once request i) ∧ current.method = request.method ∧
        current.body = request.body := by
  induction k generalizing current visited with
  | zero =>
    rw [(hop_zero h).1]
    exact Or.inr ⟨fun i hi => absurd hi (Nat.not_lt_zero i), rfl, rfl⟩
  | succ k ih =>
    obtain ⟨before, seen, next, status, hbefore, hleads, -, rfl, -⟩ := hop_succ.mp h
    obtain ⟨response, hresponse, hstatus, -⟩ := hleads.answer
    by_cases hpreserves : Preserves status
    · have hkept : (followed P before next status).method = before.method ∧
          (followed P before next status).body = before.body :=
        ⟨if_pos hpreserves, if_pos hpreserves⟩
      have hnot : ¬Rewrites P limit once request k := by
        rintro ⟨current', visited', response', hcurrent', hresponse', hrewrites⟩
        rw [hbefore] at hcurrent'
        obtain ⟨rfl, rfl⟩ := Prod.mk.inj (Option.some.inj hcurrent')
        rw [hresponse] at hresponse'
        obtain rfl := Except.ok.inj hresponse'
        exact hrewrites (hstatus ▸ hpreserves)
      rw [hkept.1, hkept.2]
      rcases ih hbefore with ⟨⟨i, hi, hrewrites⟩, hget⟩ | ⟨hnone, hsame⟩
      · exact Or.inl ⟨⟨i, Nat.lt_succ_of_lt hi, hrewrites⟩, hget⟩
      · refine Or.inr ⟨fun i hi => ?_, hsame⟩
        rcases Nat.lt_or_eq_of_le (Nat.le_of_lt_succ hi) with hi | rfl
        · exact hnone i hi
        · exact hnot
    · exact Or.inl ⟨⟨k, Nat.lt_succ_self k, before, seen, response, hbefore, hresponse,
        hstatus ▸ hpreserves⟩, if_neg hpreserves, if_neg hpreserves⟩

/-- A field of the body but its type is kept by every redirect. -/
theorem getAll_forwardable_describing {headers : HeaderMap} {source target : String}
    {n : HeaderName} (hn : n ∈ describing) :
    (forwardableHeaders P headers source target).getAll n =
      if n = header.contentType then [] else headers.getAll n := by
  have hkept : ∀ m ∈ describing, sensitive.contains m = false ∧
      ownOfTarget.contains m = decide (m = header.contentType) := by decide
  obtain ⟨hsensitive, hown⟩ := hkept n hn
  rw [forwardableHeaders, HeaderMap.getAll_filter fun m =>
    !(sensitive.contains m && !sameOrigin P source target) && !ownOfTarget.contains m,
    hsensitive, hown]
  by_cases hne : n = header.contentType
  · simp [hne]
  · simp [hne]

/-- **When the very same request would be made twice**, of a redirect to an address that
was asked for. -/
theorem exists_asksSame_iff {next : Url} {status : ℕ}
    (h : hop P limit once request k = some (current, visited))
    (hleads : Leads P limit k current (once k current) next status)
    (hasked : ∃ j ≤ k, WasAsked P limit once request j (normalizeUrl P (P.showUrl next))) :
    (∃ j ≤ k, ∃ earlier w, hop P limit once request j = some (earlier, w) ∧
        AsksSame P earlier (followed P current next status)) ↔
      request.method = "GET" ∧ request.body = [] ∨
      Preserves status ∧ (∀ i < k, ¬Rewrites P limit once request i) ∨
      ∃ i j, i < j ∧ j ≤ k ∧ Rewrites P limit once request i ∧
        WasAsked P limit once request j (normalizeUrl P (P.showUrl next)) := by
  obtain ⟨response, hresponse, hstatus, -⟩ := hleads.answer
  have hrewrites : ¬Preserves status → Rewrites P limit once request k := fun hnot =>
    ⟨current, visited, response, h, hresponse, hstatus ▸ hnot⟩
  -- the request that would be made next, by the phase it would be made in
  have hnext : (∃ i ≤ k, Rewrites P limit once request i) ∧
        (followed P current next status).method = "GET" ∧
          (followed P current next status).body = [] ∨
      (Preserves status ∧ ∀ i < k, ¬Rewrites P limit once request i) ∧
        (followed P current next status).method = request.method ∧
          (followed P current next status).body = request.body := by
    by_cases hpreserves : Preserves status
    · have hkept : (followed P current next status).method = current.method ∧
          (followed P current next status).body = current.body :=
        ⟨if_pos hpreserves, if_pos hpreserves⟩
      rw [hkept.1, hkept.2]
      rcases hop_phase h with ⟨⟨i, hi, hrewrites⟩, hget⟩ | ⟨hnone, hsame⟩
      · exact Or.inl ⟨⟨i, hi.le, hrewrites⟩, hget⟩
      · exact Or.inr ⟨⟨hpreserves, hnone⟩, hsame⟩
    · exact Or.inl ⟨⟨k, le_rfl, hrewrites hpreserves⟩, if_neg hpreserves, if_neg hpreserves⟩
  constructor
  · rintro ⟨j, hj, earlier, w, hearlier, hsame⟩
    rcases hnext with ⟨-, hmethod, hbody⟩ | ⟨hstraight, -⟩
    · rcases hop_phase hearlier with ⟨⟨i, hi, hrewrites⟩, -⟩ | ⟨-, hmethod', hbody'⟩
      · exact Or.inr (Or.inr ⟨i, j, hi, hj, hrewrites, earlier, w, hearlier, hsame.url⟩)
      · exact Or.inl ⟨by rw [← hmethod', hsame.method, hmethod],
          by rw [← hbody', hsame.body, hbody]⟩
    · exact Or.inr (Or.inl hstraight)
  · have hfound : ∀ j ≤ k, WasAsked P limit once request j (normalizeUrl P (P.showUrl next)) →
        (∀ earlier w, hop P limit once request j = some (earlier, w) →
          earlier.method = (followed P current next status).method ∧
            earlier.body = (followed P current next status).body) →
        ∃ j ≤ k, ∃ earlier w, hop P limit once request j = some (earlier, w) ∧
          AsksSame P earlier (followed P current next status) := by
      rintro j hj ⟨earlier, w, hearlier, hurl⟩ hsame
      obtain ⟨hmethod, hbody⟩ := hsame earlier w hearlier
      exact ⟨j, hj, earlier, w, hearlier, hmethod, hurl, hbody⟩
    rintro (⟨hget, hempty⟩ | ⟨hpreserves, hnone⟩ | ⟨i, j, hij, hjk, hrewritten, hagain⟩)
    · -- a `GET` without a body is the same in both phases
      obtain ⟨j, hj, hbefore⟩ := hasked
      refine hfound j hj hbefore fun earlier w hearlier => ?_
      rcases hnext with ⟨-, hmethod, hbody⟩ | ⟨-, hmethod, hbody⟩ <;>
        rcases hop_phase hearlier with ⟨-, hmethod', hbody'⟩ | ⟨-, hmethod', hbody'⟩ <;>
        simp only [hmethod, hbody, hmethod', hbody', hget, hempty, and_self]
    · obtain ⟨j, hj, hbefore⟩ := hasked
      refine hfound j hj hbefore fun earlier w hearlier => ?_
      rcases hnext with ⟨⟨i, hi, hrewritten⟩, -⟩ | ⟨-, hmethod, hbody⟩
      · rcases Nat.lt_or_eq_of_le hi with hi | rfl
        · exact absurd hrewritten (hnone i hi)
        · obtain ⟨current', visited', response', hcurrent', hresponse', hnot⟩ := hrewritten
          rw [h] at hcurrent'
          obtain ⟨rfl, rfl⟩ := Prod.mk.inj (Option.some.inj hcurrent')
          rw [hresponse] at hresponse'
          obtain rfl := Except.ok.inj hresponse'
          exact absurd (hstatus ▸ hpreserves) hnot
      · rcases hop_phase hearlier with ⟨⟨i, hi, hrewritten⟩, -⟩ | ⟨-, hmethod', hbody'⟩
        · exact absurd hrewritten (hnone i (hi.trans_le hj))
        · exact ⟨hmethod'.trans hmethod.symm, hbody'.trans hbody.symm⟩
    · refine hfound j hjk hagain fun earlier w hearlier => ?_
      rcases hnext with ⟨-, hmethod, hbody⟩ | ⟨⟨-, hnone⟩, -⟩
      · rcases hop_phase hearlier with ⟨-, hmethod', hbody'⟩ | ⟨hnone', -⟩
        · exact ⟨hmethod'.trans hmethod.symm, hbody'.trans hbody.symm⟩
        · exact absurd hrewritten (hnone' i hij)
      · exact absurd hrewritten (hnone i (hij.trans_le hjk))

end Phases

end Redirects

end Syndeo
