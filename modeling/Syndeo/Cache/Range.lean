import Mathlib.Data.List.Sort
import Syndeo.Cache.Headers
import Syndeo.Data.Intervals

/-!
# Byte ranges

Parsing `Range` and `Content-Range`, and the arithmetic that decides which stored
bytes answer a partial request. Positions are `u64`s, and the two places where
the source adds one to a position are the two places where it could wrap; they
wrap here as they do there (`Syndeo.wrap`).

`Syndeo.Coverage` is the list of intervals a partial entry holds. What it means
is said by the points of its intervals: normalizing keeps them
(`Syndeo.Coverage.points_fromSorted`), `covers` decides containment
(`Syndeo.Coverage.covers_iff`), and `missing` is exactly what is asked for and
not held (`Syndeo.Coverage.points_missing`).
-/

namespace Syndeo

open Text

/-! ### What the client asks for -/

/-- `RangeSpec`: one range as the client wrote it. -/
inductive RangeSpec
  | fromTo (first last : ℕ)
  | from (first : ℕ)
  | suffix (length : ℕ)
  deriving DecidableEq

/-- One element of a range set. -/
def parseSpec (part : List Char) : Option RangeSpec := do
  let (start, stop) ← splitOnce '-' part
  let (start, stop) := (trimChars start, trimChars stop)
  match start, stop with
  -- the last bytes; none of them cannot be satisfied
  | [], _ :: _ => do
    let length ← parseU64 stop
    if length = 0 then none else some (.suffix length)
  | _ :: _, [] => (parseU64 start).map .from
  | _ :: _, _ :: _ => do
    let first ← parseU64 start
    let last ← parseU64 stop
    if last < first then none else some (.fromTo first last)
  | [], [] => none

/-- `parse_range`: a malformed range is no range. -/
def parseRange (value : String) : Option (List RangeSpec) := do
  let rest ← stripStart "bytes".toList (trimChars value.toList)
  let rest ← stripStart ['='] (trimStartChars rest)
  let specs ← (((rest.splitOn ',').map trimChars).filter (· ≠ [])).mapM parseSpec
  if specs = [] then none else some specs

/-- `Resolved`: inclusive positions into a representation of a known length. -/
structure Resolved where
  first : ℕ
  last : ℕ
  completeLen : ℕ
  deriving DecidableEq

namespace Resolved

/-- `Resolved::len`. -/
def len (r : Resolved) : ℕ := wrap (wrapSub r.last r.first + 1)

/-- `Resolved::half_open`. -/
def halfOpen (r : Resolved) : ℕ × ℕ := (r.first, wrap (r.last + 1))

/-- `Resolved::content_range`. -/
def contentRange (r : Resolved) : String :=
  "bytes " ++ toString r.first ++ "-" ++ toString r.last ++ "/" ++ toString r.completeLen

end Resolved

/-- `resolve`: one spec against a known length. -/
def resolve (spec : RangeSpec) (completeLen : ℕ) : Option Resolved :=
  if completeLen = 0 then none
  else match spec with
    | .fromTo first last =>
      if completeLen ≤ first then none
      else some ⟨first, min last (completeLen - 1), completeLen⟩
    | .from first =>
      if completeLen ≤ first then none else some ⟨first, completeLen - 1, completeLen⟩
    | .suffix length =>
      some ⟨completeLen - min length completeLen, completeLen - 1, completeLen⟩

/-- A spec a client can write has its ends in order, and asks for something. -/
def RangeSpec.WellFormed : RangeSpec → Prop
  | .fromTo first last => first ≤ last
  | .from _ => True
  | .suffix length => 0 < length

theorem exists_of_mem_mapM {α β : Type} {f : α → Option β} {l : List α} {l' : List β}
    (h : l.mapM f = some l') {b : β} (hb : b ∈ l') : ∃ a ∈ l, f a = some b := by
  induction l generalizing l' with
  | nil =>
    obtain rfl : [] = l' := by simpa using h
    exact absurd hb List.not_mem_nil
  | cons a l ih =>
    simp only [List.mapM_cons, Option.bind_eq_bind, Option.bind_eq_some_iff, Option.pure_def,
      Option.some.injEq] at h
    obtain ⟨c, hc, rest, hrest, rfl⟩ := h
    rcases List.mem_cons.mp hb with rfl | hb
    · exact ⟨a, List.mem_cons_self, hc⟩
    · obtain ⟨a', ha', hb'⟩ := ih hrest hb
      exact ⟨a', List.mem_cons_of_mem _ ha', hb'⟩

theorem parseSpec_wellFormed {part : List Char} {spec : RangeSpec}
    (h : parseSpec part = some spec) : spec.WellFormed := by
  simp only [parseSpec, Option.bind_eq_bind, Option.bind_eq_some_iff] at h
  obtain ⟨⟨start, stop⟩, -, h⟩ := h
  simp only at h
  split at h
  · simp only [Option.bind_eq_some_iff] at h
    obtain ⟨length, -, h⟩ := h
    split at h
    · exact absurd h (by simp)
    · obtain rfl := Option.some.inj h
      exact Nat.pos_of_ne_zero ‹_›
  · obtain ⟨first, -, rfl⟩ := Option.map_eq_some_iff.mp h
    trivial
  · simp only [Option.bind_eq_some_iff] at h
    obtain ⟨first, -, last, -, h⟩ := h
    split at h
    · exact absurd h (by simp)
    · obtain rfl := Option.some.inj h
      exact not_lt.mp ‹_›
  · exact absurd h (by simp)

/-- What a client can ask for is well formed. -/
theorem parseRange_wellFormed {value : String} {specs : List RangeSpec}
    (h : parseRange value = some specs) : ∀ spec ∈ specs, spec.WellFormed := by
  simp only [parseRange, Option.bind_eq_bind, Option.bind_eq_some_iff] at h
  obtain ⟨rest, -, rest', -, parsed, hparsed, h⟩ := h
  split at h
  · exact absurd h (by simp)
  · obtain rfl := Option.some.inj h
    intro spec hspec
    obtain ⟨part, -, hpart⟩ := exists_of_mem_mapM hparsed hspec
    exact parseSpec_wellFormed hpart

/-- What is resolved lies within the representation. -/
theorem resolve_bounds {spec : RangeSpec} {n : ℕ} {r : Resolved} (h : resolve spec n = some r)
    (hspec : spec.WellFormed) : r.completeLen = n ∧ r.first ≤ r.last ∧ r.last < n := by
  unfold resolve at h
  split at h
  · exact absurd h (by simp)
  · rename_i hn
    cases spec with
    | fromTo first last =>
      have hspec' : first ≤ last := hspec
      simp only at h
      split at h
      · exact absurd h (by simp)
      · obtain rfl := Option.some.inj h
        simp only [true_and]
        omega
    | «from» first =>
      simp only at h
      split at h
      · exact absurd h (by simp)
      · obtain rfl := Option.some.inj h
        simp only [true_and]
        omega
    | suffix length =>
      have hspec' : 0 < length := hspec
      obtain rfl := Option.some.inj h
      simp only [true_and]
      omega

/-! ### What the origin sends -/

/-- `ContentRange`; no complete length for the `*` form. -/
structure ContentRange where
  first : ℕ
  last : ℕ
  completeLen : Option ℕ
  deriving DecidableEq

namespace ContentRange

/-- `ContentRange::len`. -/
def len (r : ContentRange) : ℕ := wrap (wrapSub r.last r.first + 1)

/-- `ContentRange::half_open`. -/
def halfOpen (r : ContentRange) : ℕ × ℕ := (r.first, wrap (r.last + 1))

end ContentRange

/-- `parse_content_range`. -/
def parseContentRange (value : String) : Option ContentRange := do
  let rest ← stripStart "bytes".toList (trimChars value.toList)
  let (range, complete) ← splitOnce '/' (trimStartChars rest)
  let range := trimChars range
  if range = ['*'] then none
  let (first, last) ← splitOnce '-' range
  let first ← parseU64 (trimChars first)
  let last ← parseU64 (trimChars last)
  if last < first then none
  let complete := trimChars complete
  let completeLen ← if complete = ['*'] then some none else (parseU64 complete).map some
  match completeLen with
  | some total => if total ≤ last then none else some ⟨first, last, completeLen⟩
  | none => some ⟨first, last, completeLen⟩

/-- What a `Content-Range` says is in order. -/
theorem parseContentRange_bounds {value : String} {r : ContentRange}
    (h : parseContentRange value = some r) :
    r.first ≤ r.last ∧ r.last < u64Bound ∧ ∀ n, r.completeLen = some n → r.last < n := by
  simp only [parseContentRange, Option.bind_eq_bind, Option.bind_eq_some_iff] at h
  obtain ⟨rest, -, ⟨range, complete⟩, -, h⟩ := h
  simp only [Option.bind_none, ite_eq_iff, reduceCtorEq, and_false, false_or,
    Option.bind_eq_some_iff] at h
  obtain ⟨-, ⟨first', last'⟩, -, first, -, last, hlast, hle, h⟩ := h
  have hlt := parseU64_lt hlast
  obtain ⟨completeLen, h⟩ : ∃ completeLen : Option ℕ, (match completeLen with
      | some total => if total ≤ last then none else some ⟨first, last, completeLen⟩
      | none => some ⟨first, last, completeLen⟩) = some r := by
    rcases h with ⟨-, completeLen, -, h⟩ | ⟨-, completeLen, -, h⟩ <;> exact ⟨completeLen, h⟩
  rcases completeLen with _ | total
  · obtain rfl := Option.some.inj h
    exact ⟨not_lt.mp hle, hlt, by simp⟩
  · simp only at h
    split at h
    · exact absurd h (by simp)
    · rename_i htotal
      obtain rfl := Option.some.inj h
      refine ⟨not_lt.mp hle, hlt, fun n hn => ?_⟩
      obtain rfl := Option.some.inj hn
      exact not_le.mp htotal

/-- The complete length is one that a `u64` can hold. -/
theorem lt_of_parseContentRange {value : String} {r : ContentRange}
    (h : parseContentRange value = some r) : ∀ n, r.completeLen = some n → n < u64Bound := by
  simp only [parseContentRange, Option.bind_eq_bind, Option.bind_eq_some_iff] at h
  obtain ⟨rest, -, ⟨range, complete⟩, -, h⟩ := h
  simp only [Option.bind_none, ite_eq_iff, reduceCtorEq, and_false, false_or,
    Option.bind_eq_some_iff] at h
  obtain ⟨-, ⟨first', last'⟩, -, first, -, last, -, -, h⟩ := h
  intro n hn
  rcases h with ⟨-, completeLen, heq, h⟩ | ⟨-, completeLen, heq, h⟩
  · obtain rfl := Option.some.inj heq
    obtain rfl := Option.some.inj h
    exact nomatch hn
  · obtain ⟨total, htotal, rfl⟩ := Option.map_eq_some_iff.mp heq
    simp only at h
    split at h
    · exact nomatch h
    · obtain rfl := Option.some.inj h
      obtain rfl := Option.some.inj hn
      exact parseU64_lt htotal

/-- `is_multipart`: several ranges in one body. -/
def isMultipart (headers : HeaderMap) : Bool :=
  match headers.getStr header.contentType with
  | some v => startsWith (toAsciiLowercase (trim v)) "multipart/byteranges"
  | none => false

/-- `if_range_matches`: whether an `If-Range` still names what is held. -/
def ifRangeMatches (P : Platform) (value : String) (stored : HeaderMap) : Bool :=
  let value := trim value
  if startsWith value "\"" || startsWith value "W/" then
    if startsWith value "W/" then false
    else match stored.getStr header.etag with
      | some etag => trim etag = value && !startsWith (trim etag) "W/"
      | none => false
  else match parseHttpDate P value, headerDate P stored header.lastModified with
    | some a, some b => a = b
    | _, _ => false

/-! ### What is held -/

/-- `Coverage`: byte intervals, ascending and apart. -/
structure Coverage where
  intervals : List (ℕ × ℕ)
  deriving DecidableEq

namespace Coverage

/-- The order of `sort_unstable` on pairs. -/
def pairLe (p q : ℕ × ℕ) : Prop := p.1 < q.1 ∨ (p.1 = q.1 ∧ p.2 ≤ q.2)

instance : DecidableRel pairLe := fun _ _ => inferInstanceAs (Decidable (_ ∨ _))

/-- One interval of `normalize`, onto the merged ones, the last of which is first.
Adjacent counts as contiguous. -/
def mergeOne (merged : List (ℕ × ℕ)) (run : ℕ × ℕ) : List (ℕ × ℕ) :=
  match merged with
  | last :: rest =>
    if run.1 ≤ last.2 then (last.1, max last.2 run.2) :: rest else run :: last :: rest
  | [] => [run]

/-- `normalize`. -/
def normalize (l : List (ℕ × ℕ)) : List (ℕ × ℕ) :=
  ((l.insertionSort pairLe).foldl mergeOne []).reverse

/-- `Coverage::from_sorted`. -/
def fromSorted (l : List (ℕ × ℕ)) : Coverage := ⟨normalize l⟩

/-- `Coverage::covers`: whether every byte of `[start, stop)` is held. -/
def covers (c : Coverage) (start stop : ℕ) : Bool :=
  decide (stop ≤ start) || c.intervals.any fun r => decide (r.1 ≤ start) && decide (stop ≤ r.2)

/-- The loop of `missing`, from a position on. -/
def missingFrom (stop cursor : ℕ) : List (ℕ × ℕ) → List (ℕ × ℕ)
  | [] => if cursor < stop then [(cursor, stop)] else []
  | (s, e) :: rest =>
    if e ≤ cursor then missingFrom stop cursor rest
    else if stop ≤ s then (if cursor < stop then [(cursor, stop)] else [])
    else (if cursor < s then [(cursor, min s stop)] else []) ++
      if stop ≤ max cursor e then [] else missingFrom stop (max cursor e) rest

/-- `Coverage::missing`: the parts of `[start, stop)` that are not held. -/
def missing (c : Coverage) (start stop : ℕ) : List (ℕ × ℕ) := missingFrom stop start c.intervals

/-! ### What it means -/

open Intervals

/-- **Merging keeps the points.** -/
theorem points_mergeOne {merged : List (ℕ × ℕ)} {run : ℕ × ℕ}
    (h : ∀ last ∈ merged.head?, last.1 ≤ run.1) :
    points (mergeOne merged run) = points merged ∪ Set.Ico run.1 run.2 := by
  rcases merged with _ | ⟨last, rest⟩
  · simp [mergeOne]
  · have hle : last.1 ≤ run.1 := h last rfl
    rw [mergeOne]
    split
    · rename_i hin
      rw [points_cons, points_cons, Set.union_right_comm]
      congr 1
      ext x
      simp only [Set.mem_Ico, Set.mem_union]
      omega
    · rw [points_cons, points_cons, Set.union_comm]

theorem head_mergeOne {merged : List (ℕ × ℕ)} {run : ℕ × ℕ}
    (h : ∀ last ∈ merged.head?, last.1 ≤ run.1) :
    ∀ last ∈ (mergeOne merged run).head?, last.1 ≤ run.1 := by
  rcases merged with _ | ⟨last, rest⟩
  · simp [mergeOne]
  · rw [mergeOne]
    split
    · rintro l hl
      obtain rfl := Option.some.inj hl
      exact h last rfl
    · rintro l hl
      obtain rfl := Option.some.inj hl
      exact le_refl _

theorem points_foldl_mergeOne {l merged : List (ℕ × ℕ)}
    (hl : l.Pairwise fun p q => p.1 ≤ q.1) (h : ∀ p ∈ l, ∀ last ∈ merged.head?, last.1 ≤ p.1) :
    points (l.foldl mergeOne merged) = points merged ∪ points l := by
  induction l generalizing merged with
  | nil => simp
  | cons p l ih =>
    have hp := h p List.mem_cons_self
    obtain ⟨hpl, hl'⟩ := List.pairwise_cons.mp hl
    rw [List.foldl_cons, ih hl' fun q hq last hlast =>
        (head_mergeOne hp last hlast).trans (hpl q hq),
      points_mergeOne hp, points_cons, Set.union_assoc]

theorem pairwise_fst_insertionSort (l : List (ℕ × ℕ)) :
    (l.insertionSort pairLe).Pairwise fun p q => p.1 ≤ q.1 := by
  have : Std.Total pairLe := ⟨fun p q => by simp only [pairLe]; omega⟩
  have : IsTrans (ℕ × ℕ) pairLe := ⟨fun p q r => by simp only [pairLe]; omega⟩
  refine (List.pairwise_insertionSort pairLe l).imp fun {p q} h => ?_
  simp only [pairLe] at h
  omega

/-- **Normalizing keeps the points**, of any list of intervals. -/
@[simp] theorem points_fromSorted (l : List (ℕ × ℕ)) :
    points (fromSorted l).intervals = points l := by
  rw [fromSorted, normalize, points_perm (List.reverse_perm _),
    points_foldl_mergeOne (pairwise_fst_insertionSort l) (by simp), points_nil, Set.empty_union,
    points_perm (List.perm_insertionSort _ l)]

theorem proper_mergeOne {merged : List (ℕ × ℕ)} {run : ℕ × ℕ} (h : Proper merged)
    (hrun : run.1 < run.2) : Proper (mergeOne merged run) := by
  rcases merged with _ | ⟨last, rest⟩
  · simpa [mergeOne, Proper] using hrun
  · have hlast := h last List.mem_cons_self
    rw [mergeOne]
    split
    · rintro p hp
      rcases List.mem_cons.mp hp with rfl | hp
      · exact lt_of_lt_of_le hlast (le_max_left _ _)
      · exact h p (List.mem_cons_of_mem _ hp)
    · rintro p hp
      rcases List.mem_cons.mp hp with rfl | hp
      · exact hrun
      · exact h p hp

theorem apart_mergeOne {merged : List (ℕ × ℕ)} {run : ℕ × ℕ} (hm : Proper merged)
    (h : merged.Pairwise fun p q => q.2 < p.1) :
    (mergeOne merged run).Pairwise fun p q => q.2 < p.1 := by
  rcases merged with _ | ⟨last, rest⟩
  · simp [mergeOne]
  · obtain ⟨hlast, hrest⟩ := List.pairwise_cons.mp h
    rw [mergeOne]
    split
    · exact List.pairwise_cons.mpr ⟨hlast, hrest⟩
    · rename_i hout
      refine List.pairwise_cons.mpr ⟨fun q hq => ?_, h⟩
      have hproper := hm last List.mem_cons_self
      rcases List.mem_cons.mp hq with rfl | hq
      · omega
      · have := hlast q hq
        omega

theorem apart_foldl_mergeOne {l merged : List (ℕ × ℕ)} (hl : Proper l) (hm : Proper merged)
    (h : merged.Pairwise fun p q => q.2 < p.1) :
    Proper (l.foldl mergeOne merged) ∧
      (l.foldl mergeOne merged).Pairwise fun p q => q.2 < p.1 := by
  induction l generalizing merged with
  | nil => exact ⟨hm, h⟩
  | cons p l ih =>
    exact ih (fun q hq => hl q (List.mem_cons_of_mem _ hq))
      (proper_mergeOne hm (hl p List.mem_cons_self)) (apart_mergeOne hm h)

/-- **Normalizing puts the intervals apart**, where none is empty. -/
theorem apart_fromSorted {l : List (ℕ × ℕ)} (hl : Proper l) :
    Proper (fromSorted l).intervals ∧ Apart (fromSorted l).intervals := by
  have hsorted : Proper (l.insertionSort pairLe) := fun p hp =>
    hl p ((List.perm_insertionSort _ l).mem_iff.mp hp)
  have hnone : Proper ([] : List (ℕ × ℕ)) := fun _ hp => absurd hp List.not_mem_nil
  obtain ⟨h1, h2⟩ := apart_foldl_mergeOne hsorted hnone List.Pairwise.nil
  exact ⟨fun p hp => h1 p (List.mem_reverse.mp hp), List.pairwise_reverse.mpr h2⟩

/-- **`covers` decides containment**, of intervals that are apart. -/
theorem covers_iff {c : Coverage} (hc : Apart c.intervals) {start stop : ℕ} :
    c.covers start stop = true ↔ Set.Ico start stop ⊆ points c.intervals := by
  rw [covers, Bool.or_eq_true, decide_eq_true_eq]
  rcases Nat.lt_or_ge start stop with hlt | hge
  · rw [Ico_subset_points_iff hc hlt]
    simp [List.any_eq_true, Nat.not_le.mpr hlt]
  · simp [hge]

theorem points_missingFrom {stop cursor : ℕ} {l : List (ℕ × ℕ)} (hl : Ascending l)
    (hp : Proper l) :
    points (missingFrom stop cursor l) = Set.Ico cursor stop \ points l := by
  induction l generalizing cursor with
  | nil =>
    rw [missingFrom, points_nil, Set.sdiff_empty]
    split
    · simp
    · rw [points_nil, Set.Ico_eq_empty ‹_›]
  | cons p l ih =>
    obtain ⟨s, e⟩ := p
    obtain ⟨hfirst, hl'⟩ := List.pairwise_cons.mp hl
    have hse : s < e := hp (s, e) List.mem_cons_self
    -- everything after this interval lies beyond its end
    have hbeyond : ∀ x ∈ points l, e ≤ x := fun x ⟨q, hq, hqx, _⟩ => (hfirst q hq).trans hqx
    have hrec := fun c => @ih c hl' fun q hq => hp q (List.mem_cons_of_mem _ hq)
    rw [missingFrom]
    split
    · -- the interval is behind the cursor
      rw [hrec]
      ext x
      simp only [Set.mem_sdiff, Set.mem_Ico, points_cons, Set.mem_union]
      grind
    · split
      · -- the interval is beyond the end
        have hone : points (if cursor < stop then [(cursor, stop)] else []) =
            Set.Ico cursor stop := by
          split
          · simp
          · rw [points_nil, Set.Ico_eq_empty ‹_›]
        rw [hone]
        ext x
        simp only [Set.mem_sdiff, Set.mem_Ico, points_cons, Set.mem_union]
        grind
      · -- what is before the interval, and what is after it
        have hone : points (if cursor < s then [(cursor, min s stop)] else []) =
            Set.Ico cursor s := by
          split
          · have : min s stop = s := by omega
            simp [this]
          · rw [points_nil, Set.Ico_eq_empty ‹_›]
        have htwo : points (if stop ≤ max cursor e then [] else missingFrom stop (max cursor e) l) =
            Set.Ico (max cursor e) stop \ points l := by
          split
          · rw [points_nil, Set.Ico_eq_empty (by omega), Set.empty_sdiff]
          · exact hrec _
        rw [points_append, hone, htwo]
        ext x
        simp only [Set.mem_sdiff, Set.mem_Ico, points_cons, Set.mem_union]
        grind

/-- **`missing` is what is asked for and not held.** -/
theorem points_missing {c : Coverage} (hc : Ascending c.intervals) (hp : Proper c.intervals)
    (start stop : ℕ) :
    points (c.missing start stop) = Set.Ico start stop \ points c.intervals :=
  points_missingFrom hc hp

theorem bounds_missingFrom {stop cursor : ℕ} {l : List (ℕ × ℕ)} :
    ∀ p ∈ missingFrom stop cursor l, cursor ≤ p.1 ∧ p.1 < p.2 ∧ p.2 ≤ stop := by
  induction l generalizing cursor with
  | nil =>
    rw [missingFrom]
    split <;> simp_all
  | cons p l ih =>
    obtain ⟨s, e⟩ := p
    rw [missingFrom]
    split
    · exact ih
    · split
      · split <;> simp_all
      · rintro q hq
        rcases List.mem_append.mp hq with hq | hq
        · split at hq
          · obtain rfl := List.mem_singleton.mp hq
            simp only
            omega
          · exact absurd hq List.not_mem_nil
        · split at hq
          · exact absurd hq List.not_mem_nil
          · have := ih q hq
            omega

/-- Each missing part is a part of what was asked for. -/
theorem bounds_missing {c : Coverage} {start stop : ℕ} :
    ∀ p ∈ c.missing start stop, start ≤ p.1 ∧ p.1 < p.2 ∧ p.2 ≤ stop := bounds_missingFrom

/-- Between two missing parts there is something that is held. -/
theorem apart_missingFrom {stop cursor : ℕ} {l : List (ℕ × ℕ)} (hp : Proper l) :
    Apart (missingFrom stop cursor l) := by
  induction l generalizing cursor with
  | nil =>
    rw [missingFrom]
    split <;> simp [Apart]
  | cons p l ih =>
    obtain ⟨s, e⟩ := p
    have hse : s < e := hp (s, e) List.mem_cons_self
    have hrec := fun c => @ih c fun q hq => hp q (List.mem_cons_of_mem _ hq)
    rw [missingFrom]
    split
    · exact hrec _
    · split
      · split <;> simp [Apart]
      · refine List.pairwise_append.mpr ⟨by split <;> simp, by split <;> [simp; exact hrec _], ?_⟩
        rintro q hq r hr
        split at hq
        · obtain rfl := List.mem_singleton.mp hq
          split at hr
          · exact absurd hr List.not_mem_nil
          · have := bounds_missingFrom r hr
            simp only
            omega
        · exact absurd hq List.not_mem_nil

/-- The missing parts come in ascending order. -/
theorem ascending_missing {c : Coverage} (hp : Proper c.intervals) (start stop : ℕ) :
    Ascending (c.missing start stop) := (apart_missingFrom hp).ascending

end Coverage

end Syndeo
