import Syndeo.Cache.Operations

/-!
# Assembling a representation from its ranges

What the entry of a partial representation says of the representation `R`: each
of its segments is a run of `R`, stored under the address of those bytes, and the
segments come in ascending order (`Syndeo.StoredBody.Holds`). A range that is
folded in writes the parts that are missing, and the entry goes on to say so
(`Syndeo.foldedSegments_holds`); reading a run across segments gives the bytes of
`R` (`Syndeo.obeys_readSegments`).

Nothing here depends on who else is at work. The statements about programs are
about every discipline, and ask of it only what reading a blob comes to.
-/

namespace Syndeo

open Concurrent Tables Intervals
open Prog (Ends obeys_run_bind obeys_bind_ends)

/-! ### Runs of a body -/

/-- The bytes `[first, last)` of a body. -/
def slice (R : Bytes) (first last : ℕ) : Bytes := (R.take last).drop first

section Slice

variable {R : Bytes} {a b c d : ℕ}

theorem length_slice (hb : b ≤ R.length) : (slice R a b).length = b - a := by
  rw [slice, List.length_drop, List.length_take, min_eq_left hb]

theorem slice_all : slice R 0 R.length = R := by
  rw [slice, List.take_length, List.drop_zero]

theorem slice_empty (h : b ≤ a) : slice R a b = [] :=
  List.drop_eq_nil_of_le ((List.length_take_le _ _).trans h)

/-- A run of a run. -/
theorem slice_slice (hac : a ≤ c) (hdb : d ≤ b) :
    slice (slice R a b) (c - a) (d - a) = slice R c d := by
  rcases Nat.lt_or_ge d a with hda | had
  · rw [slice_empty (by omega), slice_empty (by omega)]
  · rw [slice, slice, slice, List.take_drop, List.drop_drop, List.take_take,
      Nat.add_sub_cancel' hac, Nat.add_sub_cancel' had, min_eq_left hdb]

/-- Two runs that meet. -/
theorem slice_append (hab : a ≤ b) (hbc : b ≤ c) :
    slice R a b ++ slice R b c = slice R a c := by
  have hsplit : c - a = (b - a) + (c - b) := by omega
  have hdrop : R.drop b = (R.drop a).drop (b - a) := by rw [List.drop_drop, Nat.add_sub_cancel' hab]
  rw [slice, slice, slice, List.drop_take, List.drop_take, List.drop_take, hsplit, List.take_add,
    hdrop]

end Slice

/-! ### What a store of a range makes of what it finds -/

namespace Storing

variable (P : Platform) (w : Storing) (found : Option EntryRecord)

/-- The range a response says it is. -/
def contentRange : Option ContentRange :=
  (w.responseHeaders.getStr header.contentRange).bind parseContentRange

/-- What is kept of the entry that was found. -/
def kept : Option EntryRecord :=
  found.filter fun r => sameRepresentation P r.headers.toHeaderMap w.responseHeaders

/-- What will be held once the range is folded in. -/
def assembled (cr : ContentRange) : Coverage :=
  Coverage.fromSorted ((segmentsOf (w.kept P found)).map Segment.run ++ [cr.halfOpen])

/-- The complete length, as far as it is known then. -/
def knownLen (cr : ContentRange) : Option ℕ :=
  cr.completeLen.or ((w.kept P found).bind fun r => r.body.completeLen)

end Storing

/-- The parts of a range that are not held yet. -/
def gapsOf (existing : Option EntryRecord) (cr : ContentRange) : List (ℕ × ℕ) :=
  (Coverage.fromSorted ((segmentsOf existing).map Segment.run)).missing cr.halfOpen.1 cr.halfOpen.2

/-- The bytes `[first, last)` of a body that begins at `start`. -/
def partFrom (body : Bytes) (start : ℕ) (gap : ℕ × ℕ) : Bytes :=
  (body.take (gap.2 - start)).drop (gap.1 - start)

/-- The segments that the parts of a range become. -/
def segmentsFrom (P : Platform) (body : Bytes) (start : ℕ) (gaps : List (ℕ × ℕ)) : List Segment :=
  gaps.map fun gap => ⟨gap.1, gap.2, P.blake3 (partFrom body start gap)⟩

theorem run_segmentsFrom {P : Platform} {body : Bytes} {start : ℕ} {gaps : List (ℕ × ℕ)} :
    (segmentsFrom P body start gaps).map Segment.run = gaps := by
  rw [segmentsFrom, List.map_map]
  exact List.map_id _

/-- The entry, once the whole body is made of it. -/
def EntryRecord.madeWhole (P : Platform) (record : EntryRecord) : Option Bytes → EntryRecord
  | none => record
  | some whole => { record with body := .Complete (P.blake3 whole) whole.length }

/-- The entry says how long the body is, and holds that much. -/
def StoredBody.hasMet (b : StoredBody) : Bool := b.completeLen.any fun n => b.coverage.covers 0 n

/-- The entry of a range before it is known whether the body is whole. -/
def Storing.folded (P : Platform) (w : Storing) (body : Bytes) (cr : ContentRange)
    (existing : Option EntryRecord) (now : ℕ) : EntryRecord :=
  w.partialRecord P existing
    (cr.completeLen.or (existing.bind fun r => r.body.completeLen))
    ((segmentsOf existing ++ segmentsFrom P body cr.halfOpen.1 (gapsOf existing cr)).insertionSort
      fun a b => a.start ≤ b.start) now

/-- The bodies a store of a range writes, besides the whole one. -/
def partsOf (body : Bytes) (cr : ContentRange) (existing : Option EntryRecord) : List Bytes :=
  (gapsOf existing cr).map (partFrom body cr.halfOpen.1)

/-- What the entry of a range names: what was held, and the parts. -/
theorem mem_contents_folded {w : Storing} {body : Bytes} {cr : ContentRange}
    {existing : Option EntryRecord} {now : ℕ} {c : ContentId} :
    c ∈ (w.folded P body cr existing now).contents ↔
      (∃ seg ∈ segmentsOf existing, seg.content = c) ∨
        c ∈ (partsOf body cr existing).map P.blake3 := by
  have hperm : ((w.folded P body cr existing now).body.named).Perm
      ((segmentsOf existing).map Segment.content ++ (partsOf body cr existing).map P.blake3) := by
    refine ((List.perm_insertionSort _ _).map _).trans ?_
    rw [List.map_append, segmentsFrom, partsOf, List.map_map, List.map_map]
    rfl
  rw [EntryRecord.contents, StoredBody.mem_contents, hperm.mem_iff, List.mem_append, List.mem_map]

/-! ### What an entry says of a representation -/

/-- The bytes an entry holds, by their places. -/
def StoredBody.points : StoredBody → Set ℕ
  | .Complete _ len => Set.Ico 0 len
  | .Partial _ segments => Intervals.points (segments.map Segment.run)

/-- The runs that are stored, each under the address of its bytes. -/
def StoredBody.runs : StoredBody → List (ℕ × ℕ)
  | .Complete _ len => [(0, len)]
  | .Partial _ segments => segments.map Segment.run

theorem StoredBody.points_coverage (b : StoredBody) :
    Intervals.points b.coverage.intervals = b.points := by
  cases b with
  | Complete content len => simp [coverage, points]
  | Partial completeLen segments => simp [coverage, points]

variable (P : Platform) (R : Bytes)

/-- The segment is a run of `R`, stored under the address of its bytes. -/
structure Segment.Of (seg : Segment) : Prop where
  proper : seg.start < seg.stop
  bound : seg.stop ≤ R.length
  content : seg.content = P.blake3 (slice R seg.start seg.stop)

/-- Segments of `R`, in ascending order. -/
structure SegmentsOf (segments : List Segment) : Prop where
  each : ∀ seg ∈ segments, seg.Of P R
  ascending : Ascending (segments.map Segment.run)

/-- **The entry holds `R`, or part of it.** -/
def StoredBody.Of : StoredBody → Prop
  | .Complete content len => content = P.blake3 R ∧ len = R.length
  | .Partial _ segments => SegmentsOf P R segments

/-- **The entry holds `R`, or part of it**, and is not mistaken about how long it
is. -/
def StoredBody.Holds : StoredBody → Prop
  | .Complete content len => content = P.blake3 R ∧ len = R.length
  | .Partial completeLen segments =>
    (∀ n, completeLen = some n → n = R.length) ∧ SegmentsOf P R segments

variable {P R} {segments kept : List Segment} {start stop : ℕ}

theorem SegmentsOf.proper (h : SegmentsOf P R segments) : Proper (segments.map Segment.run) := by
  intro p hp
  obtain ⟨seg, hseg, rfl⟩ := List.mem_map.mp hp
  exact (h.each seg hseg).proper

theorem StoredBody.Holds.of {b : StoredBody} (h : b.Holds P R) : b.Of P R := by
  cases b with
  | Complete content len => exact h
  | Partial completeLen segments => exact h.2

/-- What is held is within the representation. -/
theorem StoredBody.Of.points_subset {b : StoredBody} (h : b.Of P R) :
    b.points ⊆ Set.Ico 0 R.length := by
  cases b with
  | Complete content len =>
    obtain ⟨-, rfl⟩ := h
    exact le_rfl
  | Partial completeLen segments =>
    rintro x ⟨p, hp, hpx, hxp⟩
    obtain ⟨seg, hseg, rfl⟩ := List.mem_map.mp hp
    have hbound := (h.each seg hseg).bound
    exact ⟨Nat.zero_le x, lt_of_lt_of_le hxp hbound⟩

theorem StoredBody.Holds.points_subset {b : StoredBody} (h : b.Holds P R) :
    b.points ⊆ Set.Ico 0 R.length := h.of.points_subset

/-- What is covered is held. -/
theorem StoredBody.subset_points_of_covers {b : StoredBody}
    (h : b.coverage.covers start stop = true) : Set.Ico start stop ⊆ b.points := by
  rw [← b.points_coverage]
  rcases Bool.or_eq_true_iff.mp h with hempty | hwithin
  · rw [Set.Ico_eq_empty (not_lt.mpr (of_decide_eq_true hempty))]
    exact Set.empty_subset _
  · obtain ⟨run, hrun, hbounds⟩ := List.any_eq_true.mp hwithin
    obtain ⟨hstart, hstop⟩ := Bool.and_eq_true_iff.mp hbounds
    exact fun x hx => ⟨run, hrun, (of_decide_eq_true hstart).trans hx.1,
      lt_of_lt_of_le hx.2 (of_decide_eq_true hstop)⟩

/-- And does not go beyond the end of the representation. -/
theorem StoredBody.Of.le_length {b : StoredBody} (h : b.Of P R)
    (hcovers : b.coverage.covers start stop = true) (hlt : start < stop) : stop ≤ R.length := by
  have hlast : stop - 1 ∈ b.points :=
    StoredBody.subset_points_of_covers hcovers ⟨Nat.le_sub_one_of_lt hlt, by omega⟩
  have hbound := (h.points_subset hlast).2
  omega

/-! ### Folding a range in -/

section Sorted

variable {added : List Segment}

/-- What was held, and what is missing of a range, in the order of their starts. -/
theorem run_sorted_perm : (((kept ++ added).insertionSort fun a b => a.start ≤ b.start).map
    Segment.run).Perm (kept.map Segment.run ++ added.map Segment.run) := by
  rw [← List.map_append]
  exact (List.perm_insertionSort _ _).map _

/-- **What is held after the parts that were missing were added**: what was held, and
the range. -/
theorem points_sorted (hproper : Proper (kept.map Segment.run))
    (hadded : added.map Segment.run =
      (Coverage.fromSorted (kept.map Segment.run)).missing start stop) :
    Intervals.points (((kept ++ added).insertionSort fun a b => a.start ≤ b.start).map
        Segment.run) =
      Intervals.points (kept.map Segment.run) ∪ Set.Ico start stop := by
  obtain ⟨hwhole, hapart⟩ := Coverage.apart_fromSorted hproper
  rw [points_perm run_sorted_perm, points_append, hadded,
    Coverage.points_missing hapart.ascending hwhole, Coverage.points_fromSorted,
    Set.union_sdiff_self]

/-- No segment is empty then, either. -/
theorem proper_sorted (hproper : Proper (kept.map Segment.run))
    (hadded : added.map Segment.run =
      (Coverage.fromSorted (kept.map Segment.run)).missing start stop) :
    Proper (((kept ++ added).insertionSort fun a b => a.start ≤ b.start).map Segment.run) := by
  intro p hp
  rcases List.mem_append.mp (run_sorted_perm.mem_iff.mp hp) with hkept | hnew
  · exact hproper p hkept
  · rw [hadded] at hnew
    exact (Coverage.bounds_missing p hnew).2.1

/-- And they are in ascending order. -/
theorem ascending_sorted (hproper : Proper (kept.map Segment.run))
    (hasc : Ascending (kept.map Segment.run))
    (hadded : added.map Segment.run =
      (Coverage.fromSorted (kept.map Segment.run)).missing start stop) :
    Ascending (((kept ++ added).insertionSort fun a b => a.start ≤ b.start).map Segment.run) := by
  obtain ⟨hwhole, hapart⟩ := Coverage.apart_fromSorted hproper
  have hmissing := Coverage.points_missing hapart.ascending hwhole start stop
  rw [Coverage.points_fromSorted] at hmissing
  have hseparate : Separate (kept.map Segment.run ++ added.map Segment.run) := by
    rw [hadded]
    refine separate_append.mpr ⟨hasc.separate,
      (Coverage.ascending_missing hwhole start stop).separate, ?_⟩
    rw [hmissing]
    exact Set.disjoint_sdiff_right
  refine (hseparate.perm run_sorted_perm.symm).ascending (proper_sorted hproper hadded) ?_
  have : Std.Total fun a b : Segment => a.start ≤ b.start := ⟨fun a b => Nat.le_total _ _⟩
  have : IsTrans Segment fun a b => a.start ≤ b.start := ⟨fun a b c => Nat.le_trans⟩
  rw [List.pairwise_map]
  exact List.pairwise_insertionSort _ _

end Sorted

/-- The segments that are added for the parts of a range that are missing. -/
def addedSegments (P : Platform) (R : Bytes) (gaps : List (ℕ × ℕ)) : List Segment :=
  gaps.map fun gap => ⟨gap.1, gap.2, P.blake3 (slice R gap.1 gap.2)⟩

/-- The segments of an entry, after a range of `R` was folded in. -/
def foldedSegments (P : Platform) (R : Bytes) (kept : List Segment) (start stop : ℕ) :
    List Segment :=
  (kept ++ addedSegments P R ((Coverage.fromSorted (kept.map Segment.run)).missing start stop))
    |>.insertionSort fun a b => a.start ≤ b.start

theorem run_addedSegments {gaps : List (ℕ × ℕ)} :
    (addedSegments P R gaps).map Segment.run = gaps := by
  rw [addedSegments, List.map_map]
  exact List.map_id _

theorem points_foldedSegments (h : SegmentsOf P R kept) :
    Intervals.points ((foldedSegments P R kept start stop).map Segment.run) =
      Intervals.points (kept.map Segment.run) ∪ Set.Ico start stop :=
  points_sorted h.proper run_addedSegments

/-- **Folding a range in** leaves segments of the same representation. -/
theorem foldedSegments_of (h : SegmentsOf P R kept) (hstop : stop ≤ R.length) :
    SegmentsOf P R (foldedSegments P R kept start stop) where
  each seg hseg := by
    rcases List.mem_append.mp ((List.perm_insertionSort _ _).mem_iff.mp hseg) with hkept | hadded
    · exact h.each seg hkept
    · obtain ⟨gap, hgap, rfl⟩ := List.mem_map.mp hadded
      obtain ⟨-, hlt, hle⟩ := Coverage.bounds_missing gap hgap
      exact ⟨hlt, hle.trans hstop, rfl⟩
  ascending := ascending_sorted h.proper h.ascending run_addedSegments

/-- Whether a run is held is read off the coverage. -/
theorem SegmentsOf.covers_iff (h : SegmentsOf P R segments) :
    (Coverage.fromSorted (segments.map Segment.run)).covers start stop = true ↔
      Set.Ico start stop ⊆ Intervals.points (segments.map Segment.run) := by
  rw [Coverage.covers_iff (Coverage.apart_fromSorted h.proper).2, Coverage.points_fromSorted]

/-! ### Reading it back -/

section Reading

variable {τ : Type} {D : Discipline CacheAct τ} {T : τ → Prop} {F : CacheError → Prop} {t : τ}
  {first cursor : ℕ} {record : EntryRecord}

/-- What is read of a segment, from the cursor on. -/
def segmentPart (seg : Segment) (cursor stop : ℕ) (bytes : Bytes) : Bytes :=
  let last := min (min stop seg.stop - seg.start) bytes.length
  (bytes.take last).drop (min (cursor - seg.start) last)

/-- **Reading across segments** gets as far as the segments reach without a gap,
and adds to what was read a part of each it comes to. -/
theorem obeys_readSegments {G : Segment → Bytes → Prop} {I : ℕ → Bytes → Prop} {out : Bytes}
    (hproper : Proper (segments.map Segment.run))
    (hget : ∀ seg ∈ segments, ∀ t, T t → (get P seg.content).run.Obeys D (Ends T F (G seg)) t)
    (hread : ∀ seg ∈ segments, ∀ cursor out bytes, seg.start ≤ cursor → cursor < seg.stop →
      cursor ≤ stop → seg.start < stop → G seg bytes → I cursor out →
        I (min stop seg.stop) (out ++ segmentPart seg cursor stop bytes))
    (hcursor : cursor ≤ stop) (hout : I cursor out) (ht : T t) :
    (readSegments P stop segments cursor out).run.Obeys D
      (Ends T F fun r => I r.2 r.1 ∧ r.2 ≤ stop ∧
        (Ascending (segments.map Segment.run) →
          Set.Ico cursor stop ⊆ Intervals.points (segments.map Segment.run) → r.2 = stop)) t := by
  induction segments generalizing cursor out t with
  | nil =>
    refine ⟨ht, hout, hcursor, fun _ hsub => le_antisymm hcursor (not_lt.mp fun hlt => ?_)⟩
    simpa using hsub ⟨le_rfl, hlt⟩
  | cons seg rest ih =>
    have hseg : seg.start < seg.stop := hproper seg.run (List.mem_map.mpr ⟨seg, by simp, rfl⟩)
    have hrec := fun {c o t} => @ih c t o (fun p hp => hproper p (List.mem_cons_of_mem _ hp))
      (fun s hs => hget s (List.mem_cons_of_mem _ hs))
      fun s hs => hread s (List.mem_cons_of_mem _ hs)
    -- past this segment, what is left to read lies in the rest
    have hleft : ∀ {c : ℕ}, seg.stop ≤ c → cursor ≤ c →
        Set.Ico cursor stop ⊆ Intervals.points ((seg :: rest).map Segment.run) →
        Set.Ico c stop ⊆ Intervals.points (rest.map Segment.run) := by
      intro c hc hle hsub x hx
      have hmem := hsub ⟨hle.trans hx.1, hx.2⟩
      rw [List.map_cons, points_cons] at hmem
      rcases hmem with hin | hin
      · exact absurd hin.2 (not_lt.mpr (hc.trans hx.1))
      · exact hin
    rw [readSegments]
    split
    · rename_i hbehind
      refine (hrec hcursor hout ht).mono fun r u hu => ?_
      rcases r with e | r
      · exact hu
      · obtain ⟨hT, hr, hle, hall⟩ := hu
        exact ⟨hT, hr, hle, fun hasc hsub =>
          hall (List.pairwise_cons.mp hasc).2 (hleft hbehind le_rfl hsub)⟩
    · split
      · rename_i hgap
        refine ⟨ht, hout, hcursor, fun hasc hsub => le_antisymm hcursor (not_lt.mp fun hlt => ?_)⟩
        obtain ⟨p, hp, hpc, hcp⟩ := hsub ⟨le_rfl, hlt⟩
        rcases List.mem_cons.mp hp with rfl | hp
        · simp only [Segment.run] at hpc
          omega
        · have hbeyond := (List.pairwise_cons.mp hasc).1 p hp
          simp only [Segment.run] at hbeyond
          omega
      · rename_i hbehind hgap
        obtain ⟨hstart, hwithin⟩ : seg.start ≤ cursor ∧ seg.start < stop := by omega
        refine obeys_bind_ends (hget seg List.mem_cons_self t ht) fun bytes u hbytes hu => ?_
        have hpart := hread seg List.mem_cons_self cursor out bytes hstart (not_le.mp hbehind)
          hcursor hwithin hbytes hout
        change (if stop ≤ min stop seg.stop then _ else _ : CacheM (Bytes × ℕ)).run.Obeys D _ u
        split
        · rename_i hend
          exact ⟨hu, hpart, min_le_left _ _, fun _ _ => le_antisymm (min_le_left _ _) hend⟩
        · refine (hrec (min_le_left _ _) hpart hu).mono fun r v hv => ?_
          rcases r with e | r
          · exact hv
          · obtain ⟨hT, hr, hle, hall⟩ := hv
            refine ⟨hT, hr, hle, fun hasc hsub => hall (List.pairwise_cons.mp hasc).2 ?_⟩
            exact hleft (by omega) (by omega) hsub

/-- What is read of a segment of `R` is what comes next. -/
theorem Segment.Of.slice_append {seg : Segment} (h : seg.Of P R) (hfirst : first ≤ cursor)
    (hstart : seg.start ≤ cursor) (hcursor : cursor < seg.stop) (hstop : cursor ≤ stop) :
    slice R first cursor ++ segmentPart seg cursor stop (slice R seg.start seg.stop) =
      slice R first (min stop seg.stop) := by
  have hpart : segmentPart seg cursor stop (slice R seg.start seg.stop) =
      slice R cursor (min stop seg.stop) := by
    have hmin : min (min stop seg.stop - seg.start) (seg.stop - seg.start) =
        min stop seg.stop - seg.start := by omega
    have hmin' : min (cursor - seg.start) (min stop seg.stop - seg.start) =
        cursor - seg.start := by omega
    rw [segmentPart, length_slice h.bound, hmin, hmin']
    exact slice_slice hstart (min_le_right _ _)
  rw [hpart]
  exact Syndeo.slice_append hfirst (by omega)

/-- **Reading a run out of an entry** gives the bytes of `R`. -/
theorem obeys_readSpan (h : record.body.Of P R)
    (hget : ∀ run ∈ record.body.runs, ∀ t, T t →
      (get P (P.blake3 (slice R run.1 run.2))).run.Obeys D (Ends T F (· = slice R run.1 run.2)) t)
    (hfirst : first ≤ stop) (hstop : stop ≤ R.length) (ht : T t)
    (hheld : Set.Ico first stop ⊆ record.body.points ∨ ∀ what, F (.missingBlob what)) :
    (readSpan P record first stop).run.Obeys D (Ends T F (· = slice R first stop)) t := by
  rw [readSpan]
  split
  · rename_i content len hbody
    rw [hbody] at h hget
    obtain ⟨rfl, rfl⟩ := h
    rw [← slice_all (R := R)]
    refine obeys_bind_ends (hget (0, R.length) List.mem_cons_self t ht) ?_
    rintro body u rfl hu
    refine ⟨hu, ?_⟩
    rw [slice_all, min_eq_left hstop, min_eq_left hfirst]
    rfl
  · rename_i completeLen segments hbody
    rw [hbody] at h hget hheld
    have hread : (readSegments P stop segments first []).run.Obeys D
        (Ends T F fun r => (first ≤ r.2 ∧ r.1 = slice R first r.2) ∧ r.2 ≤ stop ∧
          (Ascending (segments.map Segment.run) →
            Set.Ico first stop ⊆ Intervals.points (segments.map Segment.run) → r.2 = stop)) t := by
      refine obeys_readSegments (G := fun seg bytes => bytes = slice R seg.start seg.stop)
        (I := fun cursor out => first ≤ cursor ∧ out = slice R first cursor) h.proper ?_ ?_ hfirst
        ⟨le_rfl, (slice_empty le_rfl).symm⟩ ht
      · intro seg hseg
        rw [(h.each seg hseg).content]
        exact hget _ (List.mem_map_of_mem hseg)
      · rintro seg hseg cursor out bytes hstart hcursor hle hwithin rfl ⟨hfrom, rfl⟩
        exact ⟨by omega, (h.each seg hseg).slice_append hfrom hstart hcursor hle⟩
    refine obeys_bind_ends hread fun r u hr hu => ?_
    obtain ⟨out, reached⟩ := r
    obtain ⟨⟨-, hout⟩, hle, hall⟩ := hr
    simp only at hout hle hall ⊢
    split
    · rename_i hshort
      rcases hheld with hheld | hmissing
      · exact absurd (hall h.ascending hheld) hshort.ne
      · exact ⟨hu, hmissing _⟩
    · rename_i hreached
      obtain rfl : reached = stop := le_antisymm hle (not_lt.mp hreached)
      exact ⟨hu, hout⟩

end Reading

end Syndeo
