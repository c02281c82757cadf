import Syndeo.Cache.Fidelity
import Syndeo.Cache.Folding
import Syndeo.Cache.RangeArithmetic
import Mathlib.Data.Set.Piecewise

/-!
# What a request for a range is answered with

A range is asked of a `GET`, and is answered out of a response that would be a `200`.
`Syndeo.wantedBytes` looks at the fields of the request and at the stored body, and at
neither the method nor the stored status, so that a `HEAD` and a stored `404` are
answered with a `206` as well: `Syndeo.ranges_answered_iff` says that this is where the
answers go wrong, and the only place.

The bytes of an answer are those of the stored representation. What is stored is
named by addresses, so this is a statement about all that came in: a body that was
stored whole, or bytes of several ranges, each at the place its range gave it
(`Syndeo.receivedBodies`).
-/

namespace Syndeo

open Concurrent Intervals
open Text (eqIgnoreAsciiCase)
open Prog (Ends Stays StaysWith stays_pure staysWith_pure staysWith_throw obeys_run_bind
  obeys_bind_ends)

/-! ### Bytes by their places -/

/-- The bytes at the places `[a, b)`. -/
def bytesAt (f : ℕ → UInt8) (a b : ℕ) : Bytes := (List.range' a (b - a)).map f

section BytesAt

variable {f g : ℕ → UInt8} {a b n start : ℕ}

theorem length_bytesAt : (bytesAt f a b).length = b - a := by simp [bytesAt]

theorem getElem?_bytesAt {k : ℕ} (hk : k < b - a) : (bytesAt f a b)[k]? = some (f (a + k)) := by
  simp [bytesAt, hk]

theorem bytesAt_congr (h : ∀ p, a ≤ p → p < b → f p = g p) : bytesAt f a b = bytesAt g a b := by
  refine List.map_congr_left fun p hp => ?_
  obtain ⟨hle, hlt⟩ := List.mem_range'_1.mp hp
  exact h p hle (by omega)

/-- A run of them. -/
theorem slice_bytesAt (hb : b ≤ n) : slice (bytesAt f 0 n) a b = bytesAt f a b := by
  rcases Nat.lt_or_ge b a with hlt | hle
  · rw [slice_empty hlt.le, bytesAt, Nat.sub_eq_zero_of_le hlt.le]
    rfl
  · have htake : List.range' 0 n = List.range' 0 b ++ List.range' b (n - b) := by
      rw [← Nat.add_sub_cancel' hb, ← List.range'_append_1]
      simp
    have hdrop : List.range' 0 b = List.range' 0 a ++ List.range' a (b - a) := by
      rw [← Nat.add_sub_cancel' hle, ← List.range'_append_1]
      simp
    rw [slice, bytesAt, bytesAt, Nat.sub_zero, htake, List.map_append,
      List.take_left' (by simp), hdrop, List.map_append, List.drop_left' (by simp)]

/-- The part of a body that goes to these places. -/
theorem partFrom_eq_bytesAt {body : Bytes} {gap : ℕ × ℕ} (hstart : start ≤ gap.1)
    (hbody : ∀ p, gap.1 ≤ p → p < gap.2 → body[p - start]? = some (f p)) :
    partFrom body start gap = bytesAt f gap.1 gap.2 := by
  refine List.ext_getElem? fun k => ?_
  rw [partFrom, List.getElem?_drop, List.getElem?_take]
  rcases Nat.lt_or_ge k (gap.2 - gap.1) with hlt | hge
  · rw [if_pos (by omega), getElem?_bytesAt hlt, ← hbody (gap.1 + k) (by omega) (by omega)]
    congr 1
    omega
  · rw [if_neg (by omega), List.getElem?_eq_none (by rw [length_bytesAt]; exact hge)]

end BytesAt

/-! ### What came in -/

/-- The operation stores this body. -/
def Op.Carries (body : Bytes) : Op → Prop
  | .store _ body' => body' = body
  | .finishStreamed _ writer => writer.bytes = body
  | _ => False

/-- **The byte came in at this place**: a range that one of the operations stores has it
there. -/
def ByteReceived (ops : List Op) (p : ℕ) (x : UInt8) : Prop :=
  ∃ w body cr, Op.store w body ∈ ops ∧ w.status = 206 ∧ w.contentRange = some cr ∧
    cr.first ≤ p ∧ body[p - cr.first]? = some x

/-- **The bodies that came in**: those that were to be stored, and those of whose bytes each
came in at its place. -/
def receivedBodies (ops : List Op) : Set Bytes :=
  {body | (∃ op ∈ ops, op.Carries body) ∨
    ∃ start, ∀ k x, body[k]? = some x → ByteReceived ops (start + k) x}

section Received

variable (P : Platform) (ops : List Op)

/-- **The segments hold bytes that came in**, each at its place. -/
def SegmentsReceived (segments : List Segment) : Prop :=
  Ascending (segments.map Segment.run) ∧ ∃ f : ℕ → UInt8, ∀ seg ∈ segments, seg.start < seg.stop ∧
    seg.content = P.blake3 (bytesAt f seg.start seg.stop) ∧
      ∀ p, seg.start ≤ p → p < seg.stop → ByteReceived ops p (f p)

/-- The body holds what came in. -/
def StoredBody.Grounded : StoredBody → Prop
  | .Complete content len => ∃ R ∈ receivedBodies ops, content = P.blake3 R ∧ len = R.length
  | .Partial _ segments => SegmentsReceived P ops segments

/-- **The entry holds what came in**: it was stored by one of the operations, and not as
part of anything. -/
structure EntryRecord.Grounded (r : EntryRecord) : Prop where
  stored : r.StoredBy P ops
  status : r.status ≠ 206
  body : r.body.Grounded P ops
  fits : ∀ n, r.body.completeLen = some n → n < 2 ^ 64

/-- **The entry represents `R`**, whose runs that it holds are among these bodies. -/
structure EntryRecord.Represents (B : Set Bytes) (r : EntryRecord) (R : Bytes) : Prop where
  holds : r.body.Of P R
  among : ∀ run ∈ r.body.runs, slice R run.1 run.2 ∈ B

variable {P ops} {f : ℕ → UInt8} {a b : ℕ}

theorem bytesAt_mem_receivedBodies (h : ∀ p, a ≤ p → p < b → ByteReceived ops p (f p)) :
    bytesAt f a b ∈ receivedBodies ops := by
  refine Or.inr ⟨a, fun k x hx => ?_⟩
  obtain ⟨hk, -⟩ := List.getElem?_eq_some_iff.mp hx
  rw [length_bytesAt] at hk
  obtain rfl := Option.some.inj ((getElem?_bytesAt hk).symm.trans hx)
  exact h _ (by omega) (by omega)

/-- **Segments that hold what came in** represent the bytes at their places. -/
theorem SegmentsReceived.exists_represents {segments : List Segment} {r : EntryRecord}
    {completeLen : Option ℕ} (h : SegmentsReceived P ops segments)
    (hr : r.body = .Partial completeLen segments) :
    ∃ f n, r.Represents P (receivedBodies ops) (bytesAt f 0 n) ∧
      ∀ p ∈ r.body.points, ByteReceived ops p (f p) := by
  obtain ⟨hasc, f, hf⟩ := h
  have hbound : ∀ seg ∈ segments, seg.stop ≤ (segments.map Segment.stop).sum := fun seg hseg =>
    List.le_sum_of_mem (List.mem_map_of_mem hseg)
  have hslice : ∀ seg ∈ segments, slice (bytesAt f 0 (segments.map Segment.stop).sum) seg.start
      seg.stop = bytesAt f seg.start seg.stop := fun seg hseg => slice_bytesAt (hbound seg hseg)
  refine ⟨f, (segments.map Segment.stop).sum, ⟨?_, fun run hrun => ?_⟩, fun p hp => ?_⟩
  · rw [hr]
    refine ⟨fun seg hseg => ⟨(hf seg hseg).1, ?_, ?_⟩, hasc⟩
    · rw [length_bytesAt]
      exact hbound seg hseg
    · rw [hslice seg hseg]
      exact (hf seg hseg).2.1
  · rw [hr] at hrun
    obtain ⟨seg, hseg, rfl⟩ := List.mem_map.mp hrun
    rw [Segment.run, hslice seg hseg]
    exact bytesAt_mem_receivedBodies (hf seg hseg).2.2
  · rw [hr] at hp
    obtain ⟨run, hrun, hfrom, hto⟩ := hp
    obtain ⟨seg, hseg, rfl⟩ := List.mem_map.mp hrun
    exact (hf seg hseg).2.2 p hfrom hto

/-- **What came in is represented.** -/
theorem EntryRecord.Grounded.exists_represents {r : EntryRecord} (h : r.Grounded P ops) :
    ∃ R, r.Represents P (receivedBodies ops) R := by
  have hbody := h.body
  rcases hr : r.body with ⟨content, len⟩ | ⟨completeLen, segments⟩
  · rw [hr] at hbody
    obtain ⟨R, hR, hcontent, hlen⟩ := hbody
    refine ⟨R, by rw [hr]; exact ⟨hcontent, hlen⟩, fun run hrun => ?_⟩
    rw [hr] at hrun
    obtain rfl := List.mem_singleton.mp hrun
    rw [hlen, slice_all]
    exact hR
  · rw [hr] at hbody
    obtain ⟨f, n, hrepresents, -⟩ := SegmentsReceived.exists_represents hbody hr
    exact ⟨_, hrepresents⟩

/-! ### A range is folded in -/

variable {w : Storing} {body : Bytes} {cr : ContentRange} {existing : Option EntryRecord}

/-- The parts of a range that are missing are parts of the body that came with it. -/
theorem bounds_gapsOf (hcr : w.contentRange = some cr) (hlen : cr.len = body.length) {gap : ℕ × ℕ}
    (hgap : gap ∈ gapsOf existing cr) : cr.first ≤ gap.1 ∧ gap.1 < gap.2 ∧
      ∀ p, gap.1 ≤ p → p < gap.2 → body[p - cr.first]? = some (body.getD (p - cr.first) 0) := by
  obtain ⟨value, -, hparse⟩ := Option.bind_eq_some_iff.mp hcr
  obtain ⟨hle, hlast, -⟩ := parseContentRange_bounds hparse
  obtain ⟨hstart, hproper, hstop⟩ := Coverage.bounds_missing gap hgap
  have hlt : cr.last < 2 ^ 64 - 1 := by
    by_contra hnot
    have hmax : cr.last = 2 ^ 64 - 1 :=
      Nat.le_antisymm (Nat.le_sub_one_of_lt hlast) (not_lt.mp hnot)
    have hend : cr.halfOpen.2 = 0 := by
      change wrap (cr.last + 1) = 0
      rw [hmax]
      decide
    omega
  obtain ⟨-, hsafe⟩ := (ContentRange.exact_iff hle).mpr hlt
  obtain ⟨-, -, hwithin⟩ := ((hsafe body existing).2 hlen).2 gap hgap
  refine ⟨hstart, hproper, fun p hfrom hto => ?_⟩
  have hp : p - cr.first < body.length := by
    have hfirst : cr.first ≤ gap.1 := hstart
    have hwithin' : gap.2 - cr.first ≤ body.length := hwithin
    omega
  rw [List.getD_eq_getElem?_getD, List.getElem?_eq_getElem hp, Option.getD_some]

variable (hop : Op.store w body ∈ ops) (hstatus : w.status = 206)
  (hcr : w.contentRange = some cr) (hlen : cr.len = body.length)
include hop hstatus hcr hlen

theorem byteReceived_of_gap {gap : ℕ × ℕ} (hgap : gap ∈ gapsOf existing cr) {p : ℕ}
    (hfrom : gap.1 ≤ p) (hto : p < gap.2) :
    ByteReceived ops p (body.getD (p - cr.first) 0) := by
  obtain ⟨hfirst, -, hbytes⟩ := bounds_gapsOf hcr hlen hgap
  exact ⟨w, body, cr, hop, hstatus, hcr, hfirst.trans hfrom, hbytes p hfrom hto⟩

/-- **The parts that are written came in.** -/
theorem mem_receivedBodies_of_mem_partsOf :
    ∀ part ∈ partsOf body cr existing, part ∈ receivedBodies ops := by
  intro part hpart
  obtain ⟨gap, hgap, rfl⟩ := List.mem_map.mp hpart
  obtain ⟨hfirst, -, hbytes⟩ := bounds_gapsOf hcr hlen hgap
  have heq : partFrom body cr.halfOpen.1 gap =
      bytesAt (fun p => body.getD (p - cr.first) 0) gap.1 gap.2 := partFrom_eq_bytesAt hfirst hbytes
  rw [heq]
  exact bytesAt_mem_receivedBodies fun p => byteReceived_of_gap hop hstatus hcr hlen hgap

open Classical in
/-- **Folding a range in** leaves bytes that came in: what was held where it was held, and
those of the range where it was missing. -/
theorem segmentsReceived_folded (h : SegmentsReceived P ops (segmentsOf existing)) :
    SegmentsReceived P ops ((segmentsOf existing ++
      segmentsFrom P body cr.halfOpen.1 (gapsOf existing cr)).insertionSort
        fun a b => a.start ≤ b.start) := by
  obtain ⟨hasc, f, hf⟩ := h
  have hproper : Proper ((segmentsOf existing).map Segment.run) := by
    intro p hp
    obtain ⟨seg, hseg, rfl⟩ := List.mem_map.mp hp
    exact (hf seg hseg).1
  let held : Set ℕ := points ((segmentsOf existing).map Segment.run)
  refine ⟨ascending_sorted hproper hasc run_segmentsFrom,
    held.piecewise f fun p => body.getD (p - cr.first) 0, fun seg hseg => ?_⟩
  rcases List.mem_append.mp ((List.perm_insertionSort _ _).mem_iff.mp hseg) with hold | hnew
  · obtain ⟨hseg', hcontent, hbytes⟩ := hf seg hold
    have hsame : ∀ p, seg.start ≤ p → p < seg.stop →
        f p = held.piecewise f (fun p => body.getD (p - cr.first) 0) p := by
      intro p hfrom hto
      have hmem : p ∈ held := ⟨seg.run, List.mem_map_of_mem hold, hfrom, hto⟩
      exact (held.piecewise_eq_of_mem f _ hmem).symm
    refine ⟨hseg', hcontent.trans (congrArg P.blake3 (bytesAt_congr hsame)), fun p hfrom hto => ?_⟩
    rw [← hsame p hfrom hto]
    exact hbytes p hfrom hto
  · obtain ⟨gap, hgap, rfl⟩ := List.mem_map.mp hnew
    obtain ⟨hfirst, hgap', hbytes⟩ := bounds_gapsOf hcr hlen hgap
    have hsame : ∀ p, gap.1 ≤ p → p < gap.2 → body.getD (p - cr.first) 0 =
        held.piecewise f (fun p => body.getD (p - cr.first) 0) p := by
      intro p hfrom hto
      obtain ⟨hwhole, hapart⟩ := Coverage.apart_fromSorted hproper
      have hpoint : p ∈ points (gapsOf existing cr) := ⟨gap, hgap, hfrom, hto⟩
      rw [gapsOf, Coverage.points_missing hapart.ascending hwhole, Coverage.points_fromSorted] at hpoint
      exact (held.piecewise_eq_of_notMem f (fun p => body.getD (p - cr.first) 0) hpoint.2).symm
    refine ⟨hgap', ?_, fun p hfrom hto => ?_⟩
    · exact congrArg P.blake3 (partFrom_eq_bytesAt hfirst fun p hfrom hto => by
        rw [← hsame p hfrom hto]
        exact hbytes p hfrom hto)
    · rw [← hsame p hfrom hto]
      exact byteReceived_of_gap hop hstatus hcr hlen hgap hfrom hto

omit hop hstatus hcr hlen in
/-- What an entry that holds what came in has of segments. -/
theorem EntryRecord.Grounded.segments {r : EntryRecord} (h : r.Grounded P ops) :
    SegmentsReceived P ops (segmentsOf (some r)) := by
  have hbody := h.body
  rcases hr : r.body with ⟨content, len⟩ | ⟨completeLen, segments⟩
  · simp only [segmentsOf, hr]
    exact ⟨List.Pairwise.nil, fun _ => 0, by simp⟩
  · rw [hr] at hbody
    simp only [segmentsOf, hr]
    exact hbody

end Received

/-! ### The discipline -/

/-- The file is that of a body that came in. -/
def FileReceived (P : Platform) (ops : List Op) (id : ContentId) (raw : Bytes) : Prop :=
  ∃ body ∈ receivedBodies ops, id = P.blake3 body ∧ raw = blobFile P body

/-- **What came in is all there is**: entries are written that hold it and files that are of
it, and nothing else is read. -/
def groundDiscipline (P : Platform) (ops : List Op) : Discipline CacheAct Unit where
  may := fun {_} _ a =>
    match a with
    | .index a => ∀ r, a.Writes r → r.Grounded P ops
    | .file (.write id raw) => FileReceived P ops id raw
    | _ => True
  sees := fun {_} _ a =>
    match a with
    | .index a => fun r => ∀ b, r = .ok b → ∃ ix ix', ix.Named (EntryRecord.Grounded P ops) ∧
      a.run ix = .ok (b, ix')
    | .file (.read id) => fun r => ∀ raw, r = .ok (some raw) → FileReceived P ops id raw
    | _ => fun _ => True
  next := fun {_} t _ _ => t
  born := fun {_} t _ => t

section Walk

variable {P : Platform} {opts : CacheOptions} {ops : List Op} {T : Unit → Prop} {w : Storing}
  {key : String} {record : EntryRecord} {body R : Bytes} {β : Type}

theorem enduring_grounded : Enduring (EntryRecord.Grounded P ops) where
  touched r now h :=
    have hby : Written P .default ops (EntryRecord.StoredBy P ops) := written_storedBy
    ⟨hby.touched r now h.stored, h.status, h.body, h.fits⟩
  variant r h :=
    have hby : Written P .default ops (EntryRecord.StoredBy P ops) := written_storedBy
    hby.variant r h.stored

theorem staysDry_ground : StaysDry (groundDiscipline P ops) T :=
  StaysDry.of_act fun a t ha ht => by
    cases a with
    | index a =>
      refine ⟨?_, fun _ _ => ht⟩
      cases a <;> first | exact ha.elim | exact fun _ h => h.elim
    | file a =>
      cases a with
      | write id raw => exact ha.elim
      | _ => exact ⟨trivial, fun _ _ => ht⟩
    | _ => exact ⟨trivial, fun _ _ => ht⟩

theorem stays_groundAsk {a : IndexAct β} (hwrites : ∀ r, a.Writes r → r.Grounded P ops) :
    Stays (groundDiscipline P ops) T (ask a) := fun _ ht => ⟨hwrites, fun _ _ => ht⟩

theorem stays_putGrounded {newBlobs : List (ContentId × BlobRecord)}
    (hrecord : record.Grounded P ops) :
    Stays (groundDiscipline P ops) T (ask (.putEntry record newBlobs)) :=
  stays_groundAsk fun _ h => by rw [h]; exact hrecord

theorem stays_refreshGrounded (hrecord : record.Grounded P ops) :
    Stays (groundDiscipline P ops) T (ask (.refreshEntry record)) :=
  stays_groundAsk fun _ h => by rw [h]; exact hrecord

theorem mayWrite_ground : MayWrite P (groundDiscipline P ops) T (receivedBodies ops) :=
  fun bytes hbytes _ ht => ⟨⟨bytes, hbytes, rfl, rfl⟩, fun _ _ => ht⟩

/-- An entry that is read holds what came in. -/
theorem staysWith_groundedEntry : StaysWith (groundDiscipline P ops) T
    (fun found => ∀ r, found = some r → r.key = key ∧ r.Grounded P ops) (ask (.getEntry key)) := by
  refine fun t ht => ⟨fun _ h => h.elim, fun r hr => ?_⟩
  rcases r with e | found
  · exact ⟨ht, trivial⟩
  · obtain ⟨ix, ix', hnamed, hrun⟩ := hr found rfl
    refine ⟨ht, fun record hrecord => ?_⟩
    obtain rfl : ix.entries.lookup key = found := (Prod.mk.inj (Except.ok.inj hrun)).1
    exact hnamed.entries key record hrecord

theorem staysWith_groundedVariant {partition : Option String} {method url : String}
    {h : HeaderMap} : StaysWith (groundDiscipline P ops) T
      (fun selected => ∀ key r, selected = some (key, r) → r.key = key ∧ r.Grounded P ops)
      (selectVariant P partition method url h) := by
  have hlist : StaysWith (groundDiscipline P ops) T (fun keys => ∀ v ∈ keys, True)
      (ask (.variantKeys partition method url)) :=
    (Stays.with (stays_groundAsk (a := .variantKeys partition method url) fun _ h => h.elim)).mono
      fun _ _ _ _ => trivial
  have hselects : StaysWith (groundDiscipline P ops) T (fun selected => ∀ key r,
      selected = some (key, r) → (∃ v, True ∧ key = entryKey partition method url v) ∧
        (r.key = key ∧ r.Grounded P ops) ∧ selects P r h = true)
      (selectVariant P partition method url h) :=
    staysWith_selects hlist fun _ _ => staysWith_groundedEntry
  exact hselects.mono fun selected hselected key r heq => (hselected key r heq).2.1

variable (hP : P.Lossless) (hB : Set.InjOn P.blake3 (receivedBodies ops))
include hP hB

/-- **A body that came in reads back as itself**: no other has its address. -/
theorem staysWith_groundedGet (hbody : body ∈ receivedBodies ops) :
    StaysWith (groundDiscipline P ops) T (· = body) (get P (P.blake3 body)) := by
  have hread : StaysWith (groundDiscipline P ops) T
      (fun file => ∀ raw, file = some raw → FileReceived P ops (P.blake3 body) raw)
      (onFile (.read (P.blake3 body))) := by
    refine fun t ht => ⟨trivial, fun r hr => ?_⟩
    rcases r with e | file
    · exact ⟨ht, trivial⟩
    · exact ⟨ht, fun raw hraw => hr raw (congrArg Except.ok hraw)⟩
  refine hread.bind fun file hfile => ?_
  rcases file with _ | raw
  · exact staysWith_throw
  · obtain ⟨body', hbody', hname, rfl⟩ := hfile raw rfl
    obtain rfl : body = body' := hB hbody hbody' hname
    simp only [decodeFile_blobFile P hP]
    refine StaysWith.bind (G := fun decoded => decoded = some body)
      (Prog.staysWith_return fun decoded h => (Except.ok.inj h).symm) ?_
    rintro _ rfl
    simp only [if_true]
    exact staysWith_pure rfl

/-- **A run of an entry reads back** as the bytes of what it represents. -/
theorem staysWith_groundedSpan {first stop : ℕ}
    (hrecord : record.Represents P (receivedBodies ops) R) (hfirst : first ≤ stop)
    (hstop : stop ≤ R.length) :
    StaysWith (groundDiscipline P ops) T (· = slice R first stop) (readSpan P record first stop) :=
  fun _ ht => obeys_readSpan hrecord.holds (fun run hrun t ht =>
    staysWith_groundedGet hP hB (hrecord.among run hrun) t ht) hfirst hstop ht (Or.inr fun _ => trivial)

/-! ### What operations write -/

/-- **A range** is folded into what came in. -/
theorem stays_groundedPartial {existing : Option EntryRecord} {cr : ContentRange}
    (hop : Op.store w body ∈ ops) (hstatus : w.status = 206) (hcr : w.contentRange = some cr)
    (hlen : cr.len = body.length)
    (hstored : ∀ record, w.Leaves P existing record → record.StoredBy P ops)
    (hexisting : ∀ r, existing = some r → r.Grounded P ops) :
    Stays (groundDiscipline P ops) T (writePartial P w body cr existing) := by
  have hold : SegmentsReceived P ops (segmentsOf existing) := by
    rcases existing with _ | r
    · exact ⟨List.Pairwise.nil, fun _ => 0, fun _ hseg => nomatch hseg⟩
    · exact (hexisting r rfl).segments
  have hsegments := segmentsReceived_folded hop hstatus hcr hlen hold
  have hknown : ∀ n, cr.completeLen.or (existing.bind fun r => r.body.completeLen) = some n →
      n < 2 ^ 64 := by
    intro n hn
    rcases Option.or_eq_some_iff.mp hn with hsaid | ⟨-, hknown⟩
    · obtain ⟨value, -, hparse⟩ := Option.bind_eq_some_iff.mp hcr
      exact lt_of_parseContentRange hparse n hsaid
    · obtain ⟨r, hr, hrlen⟩ := Option.bind_eq_some_iff.mp hknown
      exact (hexisting r hr).fits n hrlen
  refine StaysDry.writePartial staysDry_ground mayWrite_ground
    (W := fun whole => whole ∈ receivedBodies ops ∧ whole.length < 2 ^ 64)
    (mem_receivedBodies_of_mem_partsOf hop hstatus hcr hlen) (fun now n hn hmet => ?_)
    (fun whole hwhole => hwhole.1) fun record newBlobs hleaves => stays_putGrounded ?_
  · obtain ⟨f, m, hrepresents, hreceived⟩ := hsegments.exists_represents
      (r := w.folded P body cr existing now) rfl
    have hcovers : (w.folded P body cr existing now).body.coverage.covers 0 n = true := by
      rw [StoredBody.hasMet, hn] at hmet
      exact hmet
    have hle : n ≤ m := by
      rcases Nat.eq_zero_or_pos n with rfl | hpos
      · exact Nat.zero_le m
      · have hlength := hrepresents.holds.le_length hcovers hpos
        rwa [length_bytesAt] at hlength
    refine (staysWith_groundedSpan hP hB hrepresents (Nat.zero_le n) ?_).mono fun whole hwhole => ?_
    · rw [length_bytesAt]
      exact hle
    · rw [slice_bytesAt hle] at hwhole
      subst hwhole
      refine ⟨bytesAt_mem_receivedBodies fun p _ hp =>
        hreceived p (StoredBody.subset_points_of_covers hcovers ⟨Nat.zero_le p, hp⟩), ?_⟩
      rw [length_bytesAt]
      exact hknown n hn
  · have hby := hstored record hleaves.leaves
    obtain ⟨now, made, hmade, rfl⟩ := hleaves
    rcases made with _ | whole
    · exact ⟨hby, (by decide : (200 : ℕ) ≠ 206), hsegments, hknown⟩
    · obtain ⟨hwhole, hlt⟩ := hmade whole rfl
      refine ⟨hby, (by decide : (200 : ℕ) ≠ 206), ⟨whole, hwhole, rfl, rfl⟩, fun n hn => ?_⟩
      obtain rfl := Option.some.inj hn
      exact hlt

omit hP hB in
/-- Fresh fields leave what is held as it is. -/
theorem EntryRecord.Grounded.refreshed {r : EntryRecord} {headers : StoredHeaders}
    {requestTime responseTime : ℕ} (h : r.Grounded P ops) : EntryRecord.Grounded P ops
      { r with headers := headers, requestTime := requestTime, responseTime := responseTime } := by
  obtain ⟨op, hop, w, n, hstores, hw⟩ := h.stored
  exact ⟨⟨op, hop, w, n, hstores, hw.cacheable, hw.partition, hw.method, hw.url, hw.varyKey⟩,
    h.status, h.body, h.fits⟩

omit hP hB in
/-- **A whole body** came in. -/
theorem EntryRecord.grounded_record {op : Op} {bodyLen now : ℕ} {receipt : WriteReceipt}
    (hfits : ∀ body, op.Carries body → body.length < 2 ^ 64) (hop : op ∈ ops)
    (hstores : op.Stores w bodyLen) (hcarries : op.Carries body)
    (hstore : storability P w.method w.requestHeaders w.metadata bodyLen opts = .store)
    (hstatus : w.status ≠ 206)
    (hreceipt : receipt.id = P.blake3 body ∧ receipt.len = body.length) :
    (w.record P receipt now).Grounded P ops where
  stored := written_storedBy.whole op hop w bodyLen hstores hstore receipt now
  status := hstatus
  body := ⟨body, Or.inl ⟨op, hop, hcarries⟩, hreceipt⟩
  fits n hn := by
    obtain rfl : receipt.len = n := Option.some.inj hn
    rw [hreceipt.2]
    exact hfits body hcarries

/-- **Every operation** writes what came in. -/
theorem stays_grounded (hfits : ∀ op ∈ ops, ∀ body, op.Carries body → body.length < 2 ^ 64) {op : Op}
    (hop : op ∈ ops) : Stays (groundDiscipline P ops) T (op.run P opts) := by
  have hdry : StaysDry (groundDiscipline P ops) T := staysDry_ground
  have hreturn : ∀ {α : Type} {x : CacheM α} {reply : α → Reply},
      Stays (groundDiscipline P ops) T x →
        Stays (groundDiscipline P ops) T (do pure (reply (← x))) := fun hx => hx.bind fun _ => stays_pure
  have hhead : ∀ w : Storing, Stays (groundDiscipline P ops) T
      (reconcileHead P w.partition (normalizeUrl P w.url) w.requestHeaders w.responseHeaders) :=
    fun w => hdry.reconcileHead staysWith_groundedVariant fun _ r hr =>
      stays_refreshGrounded hr.2.refreshed
  cases op with
  | lookup partition method url h => exact hreturn (hdry dry_lookup)
  | store w body =>
    refine hreturn (hdry.store mayWrite_ground (K := fun r => r.Grounded P ops)
      (fun _ => Or.inl ⟨_, hop, rfl⟩)
      (fun _ => staysWith_groundedEntry.mono fun _ hfound r hr => (hfound r hr).2)
      (fun hstore hstatus receipt now _ hreceipt => stays_putGrounded
        (EntryRecord.grounded_record (hfits _ hop) hop ⟨rfl, rfl⟩ rfl hstore hstatus hreceipt))
      (fun _ _ => hhead w) fun hstore hstatus hget cr existing hcr hlen hexisting _ =>
        stays_groundedPartial hP hB hop hstatus hcr hlen (fun record hleaves => ?_) hexisting)
    exact written_storedBy.range _ hop w _ ⟨rfl, rfl⟩ hstore hstatus hget existing record
      (fun r hr => (hexisting r hr).stored) hleaves
  | finishStreamed w writer =>
    exact hreturn (hdry.finishStreamed mayWrite_ground (fun _ => Or.inl ⟨_, hop, rfl⟩)
      (fun hstore hstatus receipt now _ hreceipt => stays_putGrounded
        (EntryRecord.grounded_record (hfits _ hop) hop ⟨rfl, rfl⟩ rfl hstore hstatus hreceipt))
      fun _ _ => hhead w)
  | recordNotModified key freshHeaders requestTime responseTime =>
    refine hreturn (staysWith_groundedEntry.then fun found hfound => ?_)
    rcases found with _ | old
    · exact stays_pure
    · exact Stays.bind (stays_refreshGrounded (hfound old rfl).2.refreshed) fun _ => hdry.confirmed
  | discardRepresentation key content => exact hreturn (hdry dry_discardRepresentation)
  | invalidate partition method url => exact hreturn (hdry dry_invalidateUrl)
  | purge partition method url => exact hreturn (hdry dry_purge)
  | enforceBudget => exact hreturn (hdry dry_enforceBudget)
  | collectGarbage => exact hreturn (hdry dry_collectGarbage)
  | clear => exact hreturn (hdry dry_clear)
  | grantPeerEligibility content declared =>
    exact hreturn (hdry.grantPeerEligibility fun _ => stays_groundAsk fun _ h => h.elim)
  | bodyForPeer asked =>
    exact hreturn (hdry.bodyForPeer fun _ => stays_groundAsk fun _ h => h.elim)
  | acceptPeerBody integrity body => exact hreturn (hdry dry_acceptPeerBody)

end Walk

/-! ### What a request asks for -/

/-- **The request asks for a range of the entry**: its `Range` is one range, which is to be
had of a body as long as the stored one, and its `If-Range`, if there is one, names what
is stored. -/
def HeaderMap.AsksRange (P : Platform) (h : HeaderMap) (r : EntryRecord) (resolved : Resolved) :
    Prop :=
  ∃ raw spec n, h.getStr header.range = some raw ∧
    (∀ condition, h.getStr header.ifRange = some condition →
      ifRangeMatches P condition r.headers.toHeaderMap = true) ∧
    parseRange raw = some [spec] ∧ r.body.completeLen = some n ∧ resolve spec n = some resolved

section Wanted

variable {P : Platform} {h : HeaderMap} {r : EntryRecord} {resolved : Resolved}

/-- **The range a request is given** is the one it asks for, and is held. -/
theorem wantedBytes_eq_range (hwanted : wantedBytes P h r r.metadata = .range resolved) :
    h.AsksRange P r resolved ∧
      r.body.coverage.covers resolved.halfOpen.1 resolved.halfOpen.2 = true := by
  have hentire : (if r.body.isComplete then Wanted.whole
      else .unusable "only part of the body is stored") ≠ .range resolved := by
    split <;> exact nofun
  simp only [wantedBytes] at hwanted
  split at hwanted
  · exact absurd hwanted hentire
  · rename_i raw hraw
    split at hwanted
    · exact nomatch hwanted
    · rename_i hcondition
      split at hwanted
      · exact absurd hwanted hentire
      · rename_i specs hspecs
        split at hwanted
        · rename_i spec
          split at hwanted
          · exact nomatch hwanted
          · rename_i n hn
            split at hwanted
            · exact absurd hwanted hentire
            · rename_i resolved' hresolved
              split at hwanted
              · rename_i hcovers
                obtain rfl := Wanted.range.inj hwanted
                refine ⟨⟨raw, spec, n, hraw, fun condition hif => ?_, hspecs, hn, hresolved⟩, hcovers⟩
                have hmatches : ifRangeMatches P condition r.metadata.headers = true := by
                  rw [hif] at hcondition
                  simpa using hcondition
                exact hmatches
              · exact nomatch hwanted
        · exact nomatch hwanted

/-- **A request that is given the whole body** asks for no range of it. -/
theorem wantedBytes_eq_whole (hwanted : wantedBytes P h r r.metadata = .whole) :
    r.body.isComplete = true ∧ ∀ resolved, ¬h.AsksRange P r resolved := by
  have hentire : (if r.body.isComplete then Wanted.whole
      else .unusable "only part of the body is stored") = .whole → r.body.isComplete = true := by
    split
    · exact fun _ => ‹_›
    · exact nofun
  refine ⟨?_, ?_⟩
  · simp only [wantedBytes] at hwanted
    split at hwanted
    · exact hentire hwanted
    · split at hwanted
      · exact nomatch hwanted
      · split at hwanted
        · exact hentire hwanted
        · split at hwanted
          · split at hwanted
            · exact nomatch hwanted
            · split at hwanted
              · exact hentire hwanted
              · split at hwanted <;> exact nomatch hwanted
          · exact nomatch hwanted
  · rintro resolved ⟨raw, spec, n, hraw, hif, hspecs, hn, hresolved⟩
    have hcondition : ((h.getStr header.ifRange).any fun condition =>
        !ifRangeMatches P condition r.metadata.headers) = false := by
      rcases hsaid : h.getStr header.ifRange with _ | condition
      · rfl
      · have hmatches : ifRangeMatches P condition r.metadata.headers = true := hif condition hsaid
        simp [hmatches]
    simp only [wantedBytes, hraw, hcondition, hspecs, hn, hresolved, Bool.false_eq_true,
      if_false] at hwanted
    split at hwanted <;> exact nomatch hwanted

end Wanted

/-! ### What it is answered with -/

/-- **The response was read from this entry**, which represents `R`. -/
structure StoredResponse.ReadFrom (P : Platform) (ops : List Op) (response : StoredResponse)
    (r : EntryRecord) (R : Bytes) : Prop where
  made : response.MadeOf r
  status : response.metadata.status = r.status
  stored : r.StoredBy P ops
  represents : r.Represents P (receivedBodies ops) R

/-- **The response is the range that was asked for**: of a `GET`, and of what would be a
`200`; its bytes are those of the range, and its fields say which they are. -/
structure StoredResponse.IsRangeOf (P : Platform) (response : StoredResponse) (method : String)
    (h : HeaderMap) (r : EntryRecord) (R : Bytes) (resolved : Resolved) : Prop where
  get : eqIgnoreAsciiCase method "GET" = true
  ok : r.status = 200
  asked : h.AsksRange P r resolved
  ordered : resolved.first ≤ resolved.last
  within : resolved.last < R.length
  body : response.body = slice R resolved.first (resolved.last + 1)
  contentRange : ∃ n, r.body.completeLen = some n ∧
    (response.headers.getAll header.contentRange).map HeaderValue.toStr =
      [some ("bytes " ++ toString resolved.first ++ "-" ++ toString resolved.last ++ "/" ++ toString n)]
  contentLength : (response.headers.getAll header.contentLength).map HeaderValue.toStr =
    [some (toString (resolved.last + 1 - resolved.first))]

/-- **The response is the stored one**, with its status, its whole body where the request is
no `HEAD`, and no `Content-Range` that was not stored. -/
structure StoredResponse.IsWholeOf (response : StoredResponse) (method : String) (r : EntryRecord)
    (R : Bytes) : Prop where
  complete : r.body.isComplete = true
  status : response.status = r.status
  body : response.body = if eqIgnoreAsciiCase method "HEAD" then [] else R
  contentRange : ∀ v ∈ response.headers.getAll header.contentRange,
    v ∈ r.headers.toHeaderMap.getAll header.contentRange

/-- **The response answers the request**: a `206` with the range that was asked for, and
anything else with the stored response. -/
def StoredResponse.Answers (P : Platform) (response : StoredResponse) (method : String)
    (h : HeaderMap) (r : EntryRecord) (R : Bytes) : Prop :=
  if response.status = 206 then ∃ resolved, response.IsRangeOf P method h r R resolved
  else response.IsWholeOf method r R

section Fields

variable {h : HeaderMap} {n m : HeaderName} {metadata : StoredMeta} {age : ℕ} {resolved : Resolved}

theorem visible_toString_nat (k : ℕ) :
    ∀ c ∈ (toString k).toList, isVisibleAscii c.toNat = true := by
  intro c hc
  have hdigit := (Text.toList_toString_nat k).2 c hc
  obtain ⟨hlow, hhigh⟩ := Text.isDigit_iff.mp hdigit
  simp only [isVisibleAscii, Bool.or_eq_true, Bool.and_eq_true, decide_eq_true_eq, beq_iff_eq]
  omega

/-- **A field that is made from visible text** says that text. -/
theorem getAll_insertText {text : String}
    (hvisible : ∀ c ∈ text.toList, isVisibleAscii c.toNat = true) :
    ((insertText h n text).getAll n).map HeaderValue.toStr = [some text] := by
  obtain ⟨v, hv⟩ : ∃ v, HeaderValue.fromStr text = some v := by
    rw [HeaderValue.fromStr, dif_pos (List.all_eq_true.mpr hvisible)]
    exact ⟨_, rfl⟩
  rw [insertText, hv]
  simp only [HeaderMap.getAll_insert_self, List.map_cons, List.map_nil]
  rw [HeaderValue.toStr_of_fromStr hv]

theorem visible_contentRange :
    ∀ c ∈ resolved.contentRange.toList, isVisibleAscii c.toNat = true := by
  intro c hc
  rw [Resolved.contentRange] at hc
  simp only [String.toList_append, List.mem_append] at hc
  rcases hc with ((((hc | hc) | hc) | hc) | hc) | hc
  · exact List.all_eq_true.mp (by decide : "bytes ".toList.all fun c => isVisibleAscii c.toNat) c hc
  · exact visible_toString_nat _ c hc
  · exact List.all_eq_true.mp (by decide : "-".toList.all fun c => isVisibleAscii c.toNat) c hc
  · exact visible_toString_nat _ c hc
  · exact List.all_eq_true.mp (by decide : "/".toList.all fun c => isVisibleAscii c.toNat) c hc
  · exact visible_toString_nat _ c hc

/-- What a range is served with says which bytes it has. -/
theorem getAll_servedHeaders_range :
    ((servedHeaders metadata age (some resolved)).getAll header.contentRange).map
        HeaderValue.toStr = [some resolved.contentRange] ∧
      ((servedHeaders metadata age (some resolved)).getAll header.contentLength).map
        HeaderValue.toStr = [some (toString resolved.len)] := by
  refine ⟨?_, getAll_insertText (visible_toString_nat _)⟩
  have hskip : (insertText (insertText (servedHeaders metadata age none) header.contentRange
      resolved.contentRange) header.contentLength (toString resolved.len)).getAll
        header.contentRange =
      (insertText (servedHeaders metadata age none) header.contentRange
        resolved.contentRange).getAll header.contentRange :=
    getAll_insertText_of_ne (by decide)
  change ((insertText (insertText (servedHeaders metadata age none) header.contentRange
    resolved.contentRange) header.contentLength (toString resolved.len)).getAll
      header.contentRange).map HeaderValue.toStr = _
  rw [hskip]
  exact getAll_insertText visible_contentRange

/-- What is left after fields were taken out was there before. -/
theorem mem_getAll_of_foldl_remove {names : List HeaderName} {v : HeaderValue}
    (hv : v ∈ (names.foldl HeaderMap.remove h).getAll n) : v ∈ h.getAll n := by
  induction names generalizing h with
  | nil => exact hv
  | cons first rest ih =>
    have hrest := ih hv
    rcases eq_or_ne n first with rfl | hne
    · rw [HeaderMap.getAll_remove_self] at hrest
      exact nomatch hrest
    · rwa [HeaderMap.getAll_remove_of_ne hne] at hrest

/-- Where no range is served, no `Content-Range` is made. -/
theorem mem_stored_of_mem_served {v : HeaderValue}
    (hv : v ∈ (servedHeaders { metadata with headers := stripNeverStored metadata.headers } age
      none).getAll header.contentRange) : v ∈ metadata.headers.getAll header.contentRange := by
  rw [servedHeaders, getAll_insertText_of_ne (by decide),
    HeaderMap.getAll_remove_of_ne (by decide)] at hv
  exact mem_getAll_of_foldl_remove (mem_getAll_of_foldl_remove hv)

end Fields

/-! ### What a lookup comes to -/

/-- A `HEAD` is no `GET`. -/
theorem not_get_of_head {method : String} (hhead : eqIgnoreAsciiCase method "HEAD" = true) :
    ¬eqIgnoreAsciiCase method "GET" = true := by
  intro hget
  have hsame := (Text.eqIgnoreAsciiCase_iff.mp hget).symm.trans (Text.eqIgnoreAsciiCase_iff.mp hhead)
  exact absurd hsame (by decide)

/-- **A range that is asked for** is one of a `GET`, and of what would be a `200`. -/
def RangeDue (P : Platform) (method : String) (h : HeaderMap) (r : EntryRecord) : Prop :=
  ∀ resolved, h.AsksRange P r resolved → eqIgnoreAsciiCase method "GET" = true ∧ r.status = 200

/-- **The response is right exactly when a range was due**, of an entry that holds what
came in. -/
def StoredResponse.RightWhenDue (P : Platform) (ops : List Op) (method : String) (h : HeaderMap)
    (response : StoredResponse) : Prop :=
  ∃ r R, response.ReadFrom P ops r R ∧ (response.Answers P method h r R ↔ RangeDue P method h r)

section Lookup

variable {P : Platform} {opts : CacheOptions} {ops : List Op} {T : Unit → Prop} {method : String}
  {h : HeaderMap} {r : EntryRecord} {R : Bytes} {age : ℕ} {response : StoredResponse}

/-- **What is asked for is exact**, and is held where it is covered. -/
theorem HeaderMap.AsksRange.exact {resolved : Resolved} (hasks : h.AsksRange P r resolved)
    (hfits : ∀ n, r.body.completeLen = some n → n < 2 ^ 64) :
    r.body.completeLen = some resolved.completeLen ∧ resolved.Exact := by
  obtain ⟨raw, spec, n, -, -, hspecs, hn, hresolved⟩ := hasks
  have hspec : spec.WellFormed := parseRange_wellFormed hspecs spec List.mem_cons_self
  obtain ⟨rfl, -, -⟩ := resolve_bounds hresolved hspec
  exact ⟨hn, (resolve_exact_iff (hfits _ hn) hresolved).mpr hspec⟩

variable (hP : P.Lossless) (hB : Set.InjOn P.blake3 (receivedBodies ops))
include hP hB

/-- **A whole body** is read back where no range is asked for. -/
theorem staysWith_answeredWhole (hrecord : r.Grounded P ops) (hcomplete : r.body.isComplete = true)
    (hnone : ∀ resolved, ¬h.AsksRange P r resolved) :
    StaysWith (groundDiscipline P ops) T (StoredResponse.RightWhenDue P ops method h)
      (materialize P r.key r r.metadata age ⟨none, eqIgnoreAsciiCase method "HEAD"⟩) := by
  obtain ⟨R, hR⟩ := hrecord.exists_represents
  have hdue : RangeDue P method h r := fun resolved hasks => absurd hasks (hnone resolved)
  have hanswers : ∀ response : StoredResponse, response.ReadFrom P ops r R →
      response.IsWholeOf method r R → response.RightWhenDue P ops method h := by
    intro response hread hwhole
    refine ⟨r, R, hread, iff_of_true ?_ hdue⟩
    rw [StoredResponse.Answers, if_neg (by rw [hwhole.status]; exact hrecord.status)]
    exact hwhole
  rcases hhead : eqIgnoreAsciiCase method "HEAD" with _ | _
  · rcases hbody : r.body with ⟨content, len⟩ | ⟨completeLen, segments⟩
    · have hlen : len = R.length := by
        have hof := hR.holds
        rw [hbody] at hof
        exact hof.2
      have hread : StaysWith (groundDiscipline P ops) T (· = slice R 0 len) (readSpan P r 0 len) :=
        staysWith_groundedSpan hP hB hR (Nat.zero_le _) hlen.le
      rw [materialize]
      simp only [hbody, StoredBody.completeLen, Option.getD_some]
      refine hread.bind ?_
      rintro body rfl
      refine staysWith_pure (hanswers _ ⟨⟨rfl, rfl, rfl⟩, rfl, hrecord.stored, hR⟩
        ⟨hcomplete, rfl, ?_, fun v hv => mem_stored_of_mem_served hv⟩)
      rw [hhead, hlen, slice_all]
      rfl
    · rw [hbody] at hcomplete
      cases hcomplete
  · refine staysWith_pure (hanswers _ ⟨⟨rfl, rfl, rfl⟩, rfl, hrecord.stored, hR⟩
      ⟨hcomplete, rfl, ?_, fun v hv => mem_stored_of_mem_served hv⟩)
    rw [hhead]
    rfl

/-- **A range** is read back where one is asked for, and is answered with a `206`. -/
theorem staysWith_answeredRange {resolved : Resolved} (hrecord : r.Grounded P ops)
    (hasks : h.AsksRange P r resolved)
    (hcovers : r.body.coverage.covers resolved.halfOpen.1 resolved.halfOpen.2 = true) :
    StaysWith (groundDiscipline P ops) T (StoredResponse.RightWhenDue P ops method h)
      (materialize P r.key r r.metadata age ⟨some resolved, eqIgnoreAsciiCase method "HEAD"⟩) := by
  obtain ⟨R, hR⟩ := hrecord.exists_represents
  obtain ⟨hknown, hexact⟩ := hasks.exact hrecord.fits
  have hordered := hexact.ordered
  have hlen := hexact.len_eq
  rw [hexact.halfOpen_eq] at hcovers
  have hwithin : resolved.last + 1 ≤ R.length :=
    hR.holds.le_length hcovers (Nat.lt_succ_of_le hordered)
  have hranged : ∀ response : StoredResponse, response.ReadFrom P ops r R → response.status = 206 →
      ((∃ resolved, response.IsRangeOf P method h r R resolved) ↔ RangeDue P method h r) →
        response.RightWhenDue P ops method h := by
    intro response hread hstatus hiff
    refine ⟨r, R, hread, ?_⟩
    rw [StoredResponse.Answers, if_pos hstatus]
    exact hiff
  rcases hhead : eqIgnoreAsciiCase method "HEAD" with _ | _
  · have hread : StaysWith (groundDiscipline P ops) T (· = slice R resolved.first (resolved.last + 1))
        (readSpan P r resolved.halfOpen.1 resolved.halfOpen.2) := by
      rw [hexact.halfOpen_eq]
      exact staysWith_groundedSpan hP hB hR (hordered.trans (Nat.le_succ _)) hwithin
    refine hread.bind ?_
    rintro body rfl
    refine staysWith_pure (hranged _ ⟨⟨rfl, rfl, rfl⟩, rfl, hrecord.stored, hR⟩ rfl
      ⟨fun ⟨_, hrange⟩ _ _ => ⟨hrange.get, hrange.ok⟩, fun hdue => ?_⟩)
    obtain ⟨hget, hok⟩ := hdue resolved hasks
    obtain ⟨hcontent, hcount⟩ := @getAll_servedHeaders_range
      { r.metadata with headers := stripNeverStored r.metadata.headers } age resolved
    have hsize : resolved.len = resolved.last + 1 - resolved.first := by omega
    rw [hsize] at hcount
    exact ⟨resolved, hget, hok, hasks, hordered, hwithin, rfl, ⟨_, hknown, hcontent⟩, hcount⟩
  · have hnot := not_get_of_head hhead
    refine staysWith_pure (hranged _ ⟨⟨rfl, rfl, rfl⟩, rfl, hrecord.stored, hR⟩ rfl
      (iff_of_false ?_ ?_))
    · exact fun ⟨_, hrange⟩ => hnot hrange.get
    · exact fun hdue => hnot (hdue resolved hasks).1

/-- **A lookup** gives what is right when a range was due. -/
theorem staysWith_answered {partition : Option String} {url : String} :
    StaysWith (groundDiscipline P ops) T (Lookup.Each (StoredResponse.RightWhenDue P ops method h))
      (lookup P opts partition method url h) := by
  have hdry : StaysDry (groundDiscipline P ops) T := staysDry_ground
  refine staysWith_lookup_of (G := fun key r => r.key = key ∧ r.Grounded P ops)
    (fun _ => hdry.asking trivial) (fun _ _ _ _ _ hx => hdry (hx.mono fun _ => CacheAct.Within.dry))
    (fun _ _ _ => staysWith_groundedVariant) ?_
  rintro key r age ⟨range, omitBody⟩ ⟨rfl, hrecord⟩ hwants
  obtain rfl : omitBody = eqIgnoreAsciiCase method "HEAD" := hwants.omitBody
  have hrange := hwants.wanted
  rcases hwanted : wantedBytes P h r r.metadata with _ | resolved | reason
  · rw [hwanted] at hrange
    obtain rfl : range = none := hrange
    obtain ⟨hcomplete, hnone⟩ := wantedBytes_eq_whole hwanted
    exact staysWith_answeredWhole hP hB hrecord hcomplete hnone
  · rw [hwanted] at hrange
    obtain rfl : range = some resolved := hrange
    obtain ⟨hasks, hcovers⟩ := wantedBytes_eq_range hwanted
    exact staysWith_answeredRange hP hB hrecord hasks hcovers
  · rw [hwanted] at hrange
    exact hrange.elim

end Lookup

/-! ### Every run -/

section Runs

variable {P : Platform} {opts : CacheOptions} {ops : List Op}

/-- **The discipline governs the runs.** -/
theorem governs_ground {Q : ℕ → Outcome → Unit → Prop} : Governs cacheRuns (groundDiscipline P ops)
    (fun s _ => s.index.Named (EntryRecord.Grounded P ops) ∧
      ∀ id raw, s.files.lookup id = some raw → FileReceived P ops id raw) Q where
  child := fun _ _ _ _ _ _ hchild => absurd hchild (by simp [cacheSystem, System.ofPerform])
  step := by
    rintro i n β a s b s' t - ⟨hnamed, hfiles⟩ hmay ⟨w, -, hperform⟩
    cases a with
    | index a =>
      rcases Store.perform_index.mp hperform with ⟨m, -, rfl, rfl⟩ | ⟨-, r, ix, hrun, rfl, rfl⟩ |
        ⟨-, e, -, rfl, rfl⟩
      · exact ⟨fun b hb => (nomatch hb), hnamed, hfiles⟩
      · refine ⟨fun b hb => ?_, a.run_named enduring_grounded hnamed hmay hrun, hfiles⟩
        rw [← Except.ok.inj hb]
        exact ⟨s.index, ix, hnamed, hrun⟩
      · exact ⟨fun b hb => (nomatch hb), hnamed, hfiles⟩
    | file a =>
      rcases Store.perform_file.mp hperform with ⟨m, -, rfl, rfl⟩ | ⟨-, rfl, rfl⟩
      · refine ⟨?_, hnamed, hfiles⟩
        cases a <;> first | exact fun _ hb => (nomatch hb) | trivial
      · cases a with
        | read id =>
          exact ⟨fun raw hraw => hfiles id raw (Except.ok.inj hraw), hnamed, hfiles⟩
        | write id raw =>
          refine ⟨trivial, hnamed, fun id' raw' hlookup => ?_⟩
          change (s.files.insert id raw).lookup id' = some raw' at hlookup
          rcases eq_or_ne id' id with rfl | hne
          · rw [AList.lookup_insert] at hlookup
            obtain rfl := Option.some.inj hlookup
            exact hmay
          · rw [AList.lookup_insert_ne hne] at hlookup
            exact hfiles id' raw' hlookup
        | remove id =>
          refine ⟨trivial, hnamed, fun id' raw' hlookup => ?_⟩
          change (s.files.erase id).lookup id' = some raw' at hlookup
          rcases eq_or_ne id' id with rfl | hne
          · rw [AList.lookup_erase] at hlookup
            exact nomatch hlookup
          · rw [AList.lookup_erase_ne hne] at hlookup
            exact hfiles id' raw' hlookup
        | _ => exact ⟨trivial, hnamed, hfiles⟩
    | gate a =>
      obtain ⟨gate, -, rfl⟩ := Store.perform_gate.mp hperform
      exact ⟨trivial, hnamed, hfiles⟩
    | now =>
      obtain ⟨-, rfl⟩ := Store.perform_now.mp hperform
      exact ⟨trivial, hnamed, hfiles⟩

/-- **A response is right exactly when a range was due**: in every run, whatever a lookup
came to was read from an entry that one of the operations stored, and answers the
request just when the request asks for no range of that entry, or is a `GET` and the
entry a `200`. -/
theorem ranges_answered_iff (P : Platform) (opts : CacheOptions) (ops : List Op) (hP : P.Lossless)
    (hB : Set.InjOn P.blake3 (receivedBodies ops))
    (hfits : ∀ op ∈ ops, ∀ body, op.Carries body → body.length < 2 ^ 64)
    (c : Config CacheAct Store Outcome) (hrun : cacheRuns.Runs (running P opts .empty ops) c)
    (i : ℕ) (partition : Option String) (method url : String) (h : HeaderMap) (L : Lookup)
    (response : StoredResponse) (hop : ops[i]? = some (.lookup partition method url h))
    (hresult : c.result i = some (.ok (.lookup L)))
    (hmem : response ∈ (Reply.lookup L).responses) :
    ∃ r R, response.ReadFrom P ops r R ∧
      (response.Answers P method h r R ↔ RangeDue P method h r) := by
  have hkept := Kept.runs (@governs_ground P ops fun j r _ =>
    j = i → ∀ L, r = .ok (.lookup L) → L.Each (StoredResponse.RightWhenDue P ops method h))
    ⟨fun _ => (), ⟨Index.named_empty, fun id raw hraw =>
      absurd hraw (by simp [running, Store.empty])⟩, fun j p hj => ?_⟩ hrun
  · obtain ⟨t, -, hobeys⟩ := hkept
    exact hobeys i _ (Config.result_eq_some.mp hresult) rfl L rfl response hmem
  · change (ops.map (Op.program P opts))[j]? = some p at hj
    rw [List.getElem?_map] at hj
    obtain ⟨op, hop', rfl⟩ := Option.map_eq_some_iff.mp hj
    rcases eq_or_ne j i with rfl | hne
    · obtain rfl := Option.some.inj (hop.symm.trans hop')
      refine obeys_run_bind.mpr ((staysWith_answered (T := fun _ => True) hP hB () trivial).mono
        fun r u hr => ?_)
      rcases r with e | served
      · rintro _ _ ⟨⟩
      · rintro - L heq
        obtain rfl : served = L := Reply.lookup.inj (Except.ok.inj heq)
        exact hr.2
    · have hstays : Stays (groundDiscipline P ops) (fun _ => True) (op.run P opts) :=
        stays_grounded hP hB hfits (List.mem_of_getElem? hop')
      exact (hstays () trivial).mono fun _ _ _ heq => absurd heq hne

end Runs

/-! ### A page of one byte -/

/-- The page is stored, and its first byte is asked for. -/
def firstByteOps (method : String) : List Op :=
  [.store pageStore [97],
    .lookup none method "http://a.test/x" (toHeaderMap [("range", "bytes=0-0")])]

/-- Nothing but the page comes in. -/
theorem receivedBodies_firstByteOps (method : String) :
    receivedBodies (firstByteOps method) ⊆ rangeBodies := by
  rintro body (⟨op, hop, hcarries⟩ | ⟨start, hbytes⟩)
  · rcases List.mem_cons.mp hop with rfl | hop
    · obtain rfl : [97] = body := hcarries
      exact Or.inr (Or.inl rfl)
    · obtain rfl := List.mem_singleton.mp hop
      exact hcarries.elim
  · rcases body with _ | ⟨x, rest⟩
    · exact Or.inl rfl
    · obtain ⟨w, body, cr, hop, hstatus, -⟩ := hbytes 0 x rfl
      rcases List.mem_cons.mp hop with heq | hop
      · obtain ⟨rfl, -⟩ := Op.store.inj heq
        exact absurd hstatus (by decide)
      · exact nomatch List.mem_singleton.mp hop

theorem fits_firstByteOps (method : String) :
    ∀ op ∈ firstByteOps method, ∀ body, op.Carries body → body.length < 2 ^ 64 := by
  intro op hop body hcarries
  rcases List.mem_cons.mp hop with rfl | hop
  · obtain rfl : [97] = body := hcarries
    decide
  · obtain rfl := List.mem_singleton.mp hop
    exact hcarries.elim

/-- The lookup comes to a fresh response with a `206`. -/
theorem exists_firstByte {method : String}
    (hfollow : ((running .sample .default .empty (firstByteOps method)).follow Store.perform
      (fun {_} _ => none) siteSchedule).any (fun c => match c.result 1 with
        | some (.ok (.lookup (.fresh response))) => response.status = 206
        | _ => false) = true) :
    ∃ c, ∃ response : StoredResponse,
      cacheRuns.Runs (running .sample .default .empty (firstByteOps method)) c ∧
        c.result 1 = some (.ok (.lookup (.fresh response))) ∧ response.status = 206 := by
  obtain ⟨c, hrun, hserved⟩ := exists_cacheRuns hfollow
  split at hserved
  · exact ⟨c, _, hrun, ‹_›, of_decide_eq_true hserved⟩
  · exact nomatch hserved

theorem ranges_answered_iff_page : ∃ c, ∃ response : StoredResponse, ∃ r R,
    cacheRuns.Runs (running .sample .default .empty (firstByteOps "GET")) c ∧
      response.status = 206 ∧ response.ReadFrom .sample (firstByteOps "GET") r R ∧
        (response.Answers .sample "GET" (toHeaderMap [("range", "bytes=0-0")]) r R ↔
          RangeDue .sample "GET" (toHeaderMap [("range", "bytes=0-0")]) r) := by
  obtain ⟨c, response, hrun, hresult, hstatus⟩ := @exists_firstByte "GET" (by decide +kernel)
  obtain ⟨r, R, hr⟩ := ranges_answered_iff .sample .default (firstByteOps "GET") lossless_sample
    (injOn_rangeBodies.mono (receivedBodies_firstByteOps "GET")) (fits_firstByteOps "GET") c hrun 1
    none "GET" "http://a.test/x" (toHeaderMap [("range", "bytes=0-0")]) (.fresh response) response
    rfl hresult (List.mem_singleton_self _)
  exact ⟨c, response, r, R, hrun, hstatus, hr⟩

/-- **A `HEAD` with a `Range` is answered with a `206`.** -/
theorem head_given_range : ¬∀ (P : Platform) (opts : CacheOptions) (ops : List Op), P.Lossless →
    Set.InjOn P.blake3 (receivedBodies ops) →
    (∀ op ∈ ops, ∀ body, op.Carries body → body.length < 2 ^ 64) →
    ∀ c, cacheRuns.Runs (running P opts .empty ops) c →
    ∀ (i : ℕ) (partition : Option String) (method url : String) (h : HeaderMap) (L : Lookup)
      (response : StoredResponse), ops[i]? = some (.lookup partition method url h) →
      c.result i = some (.ok (.lookup L)) → response ∈ (Reply.lookup L).responses →
      ∃ r R, response.ReadFrom P ops r R ∧ response.Answers P method h r R := by
  intro hall
  obtain ⟨c, response, hrun, hresult, hstatus⟩ := @exists_firstByte "HEAD" (by decide +kernel)
  obtain ⟨r, R, -, hanswers⟩ := hall .sample .default (firstByteOps "HEAD") lossless_sample
    (injOn_rangeBodies.mono (receivedBodies_firstByteOps "HEAD")) (fits_firstByteOps "HEAD") c hrun 1
    none "HEAD" "http://a.test/x" (toHeaderMap [("range", "bytes=0-0")]) (.fresh response) response
    rfl hresult (List.mem_singleton_self _)
  rw [StoredResponse.Answers, if_pos hstatus] at hanswers
  obtain ⟨resolved, hrange⟩ := hanswers
  exact not_get_of_head (by decide) hrange.get

end Syndeo
