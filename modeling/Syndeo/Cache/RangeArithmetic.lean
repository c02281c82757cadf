import Syndeo.Cache.Assembly
import Syndeo.Cache.Partitions

/-!
# The arithmetic of ranges

A range says its last byte, and its length and its end are one more than a
difference and a position. Positions are `u64`s, so there is one last byte with no
end: `Syndeo.range_arithmetic_iff` says that it is what nothing keeps out where the
complete length is not said, and that it is all that goes wrong. The runs that are
stored have an end in any case, since what is not held of an empty range is
nothing.
-/

namespace Syndeo

open Concurrent

/-- **Nothing wraps**: the length and the end are what mathematics gives, and the interval
is one with something in it. -/
structure Exact (first last len : ℕ) (halfOpen : ℕ × ℕ) : Prop where
  ordered : first ≤ last
  count : last - first + 1 < 2 ^ 64
  stop : last + 1 < 2 ^ 64
  len_eq : len = last - first + 1
  halfOpen_eq : halfOpen = (first, last + 1)
  proper : halfOpen.1 < halfOpen.2

/-- What is resolved is exact. -/
def Resolved.Exact (r : Resolved) : Prop := Syndeo.Exact r.first r.last r.len r.halfOpen

/-- What an origin says is exact. -/
def ContentRange.Exact (r : ContentRange) : Prop := Syndeo.Exact r.first r.last r.len r.halfOpen

/-- **Storing the range does not panic**: no sum overflows, and what is cut out of a body
of its length is in it and is not empty. -/
def ContentRange.StoresSafely (cr : ContentRange) : Prop :=
  ∀ (body : Bytes) (existing : Option EntryRecord), cr.last - cr.first + 1 < 2 ^ 64 ∧
    (cr.len = body.length → cr.last + 1 < 2 ^ 64 ∧ ∀ gap ∈ gapsOf existing cr,
      cr.halfOpen.1 ≤ gap.1 ∧ gap.1 < gap.2 ∧ gap.2 - cr.halfOpen.1 ≤ body.length)

/-- Every run of the entry has something in it. -/
def EntryRecord.ProperRuns (r : EntryRecord) : Prop :=
  ∀ seg ∈ segmentsOf (some r), seg.start < seg.stop

theorem exact_of_lt {first last len : ℕ} {halfOpen : ℕ × ℕ} (hle : first ≤ last)
    (hlt : last < 2 ^ 64 - 1) (hlen : len = wrap (wrapSub last first + 1))
    (hhalf : halfOpen = (first, wrap (last + 1))) : Exact first last len halfOpen := by
  have hbound : last < Text.u64Bound := lt_of_lt_of_le hlt (Nat.sub_le _ _)
  have hstop : last + 1 < Text.u64Bound := Nat.add_lt_of_lt_sub hlt
  have hcount : last - first + 1 < Text.u64Bound := by omega
  rw [wrapSub_of_le hle hbound, wrap_of_lt hcount] at hlen
  rw [wrap_of_lt hstop] at hhalf
  refine ⟨hle, hcount, hstop, hlen, hhalf, ?_⟩
  rw [hhalf]
  exact Nat.lt_succ_of_le hle

/-- **A content range is exact where its last byte has an end.** -/
theorem ContentRange.exact_iff {cr : ContentRange} (hle : cr.first ≤ cr.last) :
    cr.Exact ∧ cr.StoresSafely ↔ cr.last < 2 ^ 64 - 1 := by
  constructor
  · exact fun h => Nat.lt_sub_of_add_lt h.1.stop
  · intro hlt
    have hexact : cr.Exact := exact_of_lt hle hlt rfl rfl
    refine ⟨hexact, fun body existing => ⟨hexact.count, fun hlen => ⟨hexact.stop, ?_⟩⟩⟩
    intro gap hgap
    obtain ⟨hstart, hproper, hstop⟩ := Coverage.bounds_missing gap hgap
    refine ⟨hstart, hproper, ?_⟩
    have hlen' := hexact.len_eq
    have hhalf := hexact.halfOpen_eq
    rw [hhalf] at hstart hstop ⊢
    dsimp only at hstart hstop ⊢
    omega

/-- **What is resolved is exact where the spec is one a client can write.** -/
theorem resolve_exact_iff {spec : RangeSpec} {n : ℕ} {r : Resolved} (hn : n < 2 ^ 64)
    (h : resolve spec n = some r) : r.Exact ↔ spec.WellFormed := by
  constructor
  · intro hexact
    have hordered := hexact.ordered
    unfold resolve at h
    split_ifs at h with hzero
    cases spec with
    | fromTo first last =>
      dsimp only at h
      split_ifs at h with hbeyond
      obtain rfl := Option.some.inj h
      exact hordered.trans (min_le_left _ _)
    | «from» first => trivial
    | suffix length =>
      obtain rfl := Option.some.inj h
      by_contra hnone
      obtain rfl : length = 0 := Nat.eq_zero_of_not_pos hnone
      simp only [Nat.zero_min, Nat.sub_zero] at hordered
      omega
  · intro hspec
    obtain ⟨-, hle, hlt⟩ := resolve_bounds h hspec
    exact exact_of_lt hle (by omega) rfl rfl

/-- Entries whose runs have something in them are a kind that operations write. -/
theorem written_properRuns {P : Platform} {opts : CacheOptions} {ops : List Op} :
    Written P opts ops fun r => keySeparator ∉ r.varyKey.toList ∧ r.ProperRuns where
  touched := fun _ _ h => h
  variant := fun _ h => h.1
  whole := fun _ _ w _ _ _ _ _ => ⟨separator_not_mem_varyKey P _ _, fun _ hseg => nomatch hseg⟩
  range := fun _ _ w _ _ _ _ _ existing record hexisting hleaves => by
    refine ⟨?_, fun seg hseg => ?_⟩
    · obtain ⟨_, _, _, _, rfl⟩ := hleaves.fields
      exact separator_not_mem_varyKey P _ _
    · rcases hleaves.runs seg hseg with hold | hproper
      · rcases existing with _ | old
        · exact nomatch hold
        · exact (hexisting old rfl).2 seg hold
      · exact hproper
  folded := fun _ _ _ _ _ _ _ h => h

/-- **Range arithmetic wraps exactly at the last byte there is**, which only a
`Content-Range` without a complete length can name, and which no client can make
`resolve` come to; and whatever is stored, no run of an entry is without an end. -/
theorem range_arithmetic_iff (P : Platform) (opts : CacheOptions) :
    (∀ value cr, parseContentRange value = some cr →
      (cr.Exact ∧ cr.StoresSafely ↔ cr.last < 2 ^ 64 - 1)) ∧
      (∀ spec n r, n < 2 ^ 64 → resolve spec n = some r → (r.Exact ↔ spec.WellFormed)) ∧
        (∀ value specs, parseRange value = some specs → ∀ spec ∈ specs, spec.WellFormed) ∧
          ∀ ops c, cacheRuns.Runs (running P opts .empty ops) c →
            ∀ k r, c.shared.index.entries.lookup k = some r → r.ProperRuns := by
  refine ⟨fun value cr h => ContentRange.exact_iff (parseContentRange_bounds h).1,
    fun spec n r hn h => resolve_exact_iff hn h, fun value specs h => parseRange_wellFormed h, ?_⟩
  intro ops c hrun k r hr
  exact ((named_of_runs written_properRuns hrun).entries k r hr).2.2

/-- **The last byte there is has no end.** -/
theorem last_byte_wraps : ¬∀ value cr, parseContentRange value = some cr →
    cr.Exact ∧ cr.StoresSafely := by
  intro h
  have hread : parseContentRange "bytes 18446744073709551615-18446744073709551615/*" =
      some ⟨18446744073709551615, 18446744073709551615, none⟩ := by
    decide
  exact absurd (h _ _ hread).1.stop (by decide)

end Syndeo
