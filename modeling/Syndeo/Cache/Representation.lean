import Syndeo.Cache.Operations

/-!
# When two answers are put together

A range that arrives is stitched onto the ranges that are stored, and a `HEAD`
refreshes the `GET` that is stored, if `Syndeo.sameRepresentation` takes the two
to be about one representation. `Syndeo.MayCombine` is the rule it states for
itself: a weak entity tag on either side, a mismatch, or no validator at all
means that they are not.

The code keeps to the rule where both sides carry a strong tag. Elsewhere it goes
by the modification dates, also where a tag is there and says otherwise, and
`Syndeo.combined_only_same_representation_iff` says when that is a difference.
-/

namespace Syndeo

open Text

/-! ### Entity tags -/

/-- A space or a tab. -/
def isOws (b : UInt8) : Bool := b == 32 || b == 9

/-- A field value without the white space around it. -/
def trimBytes (bs : Bytes) : Bytes := ((bs.dropWhile isOws).reverse.dropWhile isOws).reverse

/-- The entity tag of a message, as its bytes. -/
def etagOf (h : HeaderMap) : Option Bytes := (h.get header.etag).map fun v => trimBytes v.bytes

/-- `W/`, which marks an entity tag as weak. -/
def weakMark : Bytes := [87, 47]

/-- A message carries a weak entity tag. -/
def CarriesWeakEtag (h : HeaderMap) : Prop := ∃ tag, etagOf h = some tag ∧ weakMark <+: tag

/-- Two messages carry different entity tags. -/
def EtagsDiffer (h h' : HeaderMap) : Prop :=
  ∃ tag tag', etagOf h = some tag ∧ etagOf h' = some tag' ∧ tag ≠ tag'

variable (P : Platform)

/-- Two messages carry one modification date. -/
def SameLastModified (h h' : HeaderMap) : Prop :=
  ∃ date, headerDate P h header.lastModified = some date ∧
    headerDate P h' header.lastModified = some date

/-- **The rule for putting two answers together**: no weak tag, no mismatch, and
some validator in common. -/
structure MayCombine (stored fresh : HeaderMap) : Prop where
  storedStrong : ¬CarriesWeakEtag stored
  freshStrong : ¬CarriesWeakEtag fresh
  agree : ¬EtagsDiffer stored fresh
  shared : (∃ tag, etagOf stored = some tag ∧ etagOf fresh = some tag) ∨
    SameLastModified P stored fresh

/-! ### What the code reads of a tag -/

private theorem isWhitespace_ofNat {b : UInt8} (h : isVisibleAscii b.toNat = true) :
    isWhitespace (Char.ofNat b.toNat) = isOws b := by
  have hb := b.toNat_lt
  have hn := HeaderValue.toNat_ofNat_of_lt hb
  have h32 : b = 32 ↔ b.toNat = 32 := UInt8.toNat_inj.symm
  have h9 : b = 9 ↔ b.toNat = 9 := UInt8.toNat_inj.symm
  simp only [isVisibleAscii, Bool.or_eq_true, Bool.and_eq_true, decide_eq_true_eq,
    beq_iff_eq] at h
  rw [Bool.eq_iff_iff]
  simp only [isWhitespace, hn, isOws, Bool.or_eq_true, Bool.and_eq_true, decide_eq_true_eq,
    beq_iff_eq, h32, h9]
  omega

private theorem dropWhile_chars {bs : Bytes} (h : ∀ b ∈ bs, isVisibleAscii b.toNat = true) :
    (bs.map fun b => Char.ofNat b.toNat).dropWhile isWhitespace =
      (bs.dropWhile isOws).map fun b => Char.ofNat b.toNat := by
  induction bs with
  | nil => rfl
  | cons b bs ih =>
    rw [List.map_cons, List.dropWhile_cons, List.dropWhile_cons,
      isWhitespace_ofNat (h b List.mem_cons_self)]
    split
    · exact ih fun c hc => h c (List.mem_cons_of_mem _ hc)
    · rfl

private theorem trimChars_chars {bs : Bytes} (h : ∀ b ∈ bs, isVisibleAscii b.toNat = true) :
    trimChars (bs.map fun b => Char.ofNat b.toNat) =
      (trimBytes bs).map fun b => Char.ofNat b.toNat := by
  rw [trimChars, trimStartChars, dropWhile_chars h, trimEndChars, ← List.map_reverse,
    dropWhile_chars, ← List.map_reverse]
  · rfl
  · exact fun b hb => h b ((List.dropWhile_sublist _).subset (List.mem_reverse.mp hb))

private theorem ofNat_injective : Function.Injective fun b : UInt8 => Char.ofNat b.toNat := by
  intro a b h
  have := congrArg Char.toNat h
  simp only [HeaderValue.toNat_ofNat_of_lt a.toNat_lt,
    HeaderValue.toNat_ofNat_of_lt b.toNat_lt] at this
  exact UInt8.toNat_inj.mp this

/-- The strong tag the code goes by is the tag, and it is not weak. -/
theorem strongEtag_eq_some {h : HeaderMap} {s : String} (hs : strongEtag h = some s) :
    ∃ tag, etagOf h = some tag ∧ s.toList = tag.map (fun b => Char.ofNat b.toNat) ∧
      ¬weakMark <+: tag := by
  obtain ⟨hmap, hstrong⟩ := Option.filter_eq_some_iff.mp hs
  obtain ⟨text, htext, rfl⟩ := Option.map_eq_some_iff.mp hmap
  obtain ⟨v, hv, hvs⟩ := Option.bind_eq_some_iff.mp htext
  rw [HeaderValue.toStr] at hvs
  split at hvs
  · rename_i hall
    obtain rfl := Option.some.inj hvs
    have htrim := trimChars_chars (List.all_eq_true.mp hall)
    refine ⟨trimBytes v.bytes, by rw [etagOf, hv]; rfl, ?_, fun hweak => ?_⟩
    · rw [trim, String.toList_ofList, String.toList_ofList, htrim]
    · rw [trim, String.toList_ofList, htrim] at hstrong
      obtain ⟨rest, hrest⟩ := hweak
      rw [← hrest, startsWith, String.toList_ofList, List.map_append] at hstrong
      exact absurd hstrong (by simp [weakMark, List.isPrefixOf])
  · exact absurd hvs (by simp)

/-- Equal strong tags are equal tags. -/
theorem etagOf_eq_of_strongEtag {h h' : HeaderMap} {s : String} (hs : strongEtag h = some s)
    (hs' : strongEtag h' = some s) : ∃ tag, etagOf h = some tag ∧ etagOf h' = some tag := by
  obtain ⟨tag, htag, hmap, -⟩ := strongEtag_eq_some hs
  obtain ⟨tag', htag', hmap', -⟩ := strongEtag_eq_some hs'
  obtain rfl := ofNat_injective.list_map (hmap.symm.trans hmap')
  exact ⟨tag, htag, htag'⟩

theorem not_carriesWeakEtag {h : HeaderMap} (hs : (strongEtag h).isSome) :
    ¬CarriesWeakEtag h := by
  rintro ⟨tag, htag, hweak⟩
  obtain ⟨s, hs⟩ := Option.isSome_iff_exists.mp hs
  obtain ⟨tag', htag', -, hstrong⟩ := strongEtag_eq_some hs
  rw [htag] at htag'
  obtain rfl := Option.some.inj htag'
  exact hstrong hweak

/-! ### When the decision keeps to the rule -/

/-- The condition under which the decision keeps to the rule. -/
def DecidedByRule (stored fresh : HeaderMap) : Prop :=
  ¬SameLastModified P stored fresh ∨
    ((strongEtag stored).isSome ∧ (strongEtag fresh).isSome) ∨
    (¬CarriesWeakEtag stored ∧ ¬CarriesWeakEtag fresh ∧ ¬EtagsDiffer stored fresh)

variable {P} {stored fresh : HeaderMap}

theorem sameRepresentation_of_strong {a b : String} (ha : strongEtag stored = some a)
    (hb : strongEtag fresh = some b) : sameRepresentation P stored fresh = true ↔ a = b := by
  simp [sameRepresentation, ha, hb]

theorem sameLastModified_iff : (match headerDate P stored header.lastModified,
      headerDate P fresh header.lastModified with
    | some a, some b => decide (a = b)
    | _, _ => false) = true ↔ SameLastModified P stored fresh := by
  rw [SameLastModified]
  rcases headerDate P stored header.lastModified with _ | a <;>
    rcases headerDate P fresh header.lastModified with _ | b <;> simp [eq_comm]

theorem sameRepresentation_of_not_strong
    (h : ¬((strongEtag stored).isSome ∧ (strongEtag fresh).isSome)) :
    sameRepresentation P stored fresh = true ↔ SameLastModified P stored fresh := by
  rw [← sameLastModified_iff, sameRepresentation]
  rcases ha : strongEtag stored with _ | a
  · rfl
  · rcases hb : strongEtag fresh with _ | b
    · rfl
    · exact absurd (by simp [ha, hb]) h

/-- **The decision against the rule.** -/
theorem mayCombine_iff_decidedByRule :
    (sameRepresentation P stored fresh = true → MayCombine P stored fresh) ↔
      DecidedByRule P stored fresh := by
  by_cases hstrong : (strongEtag stored).isSome ∧ (strongEtag fresh).isSome
  · -- both tags are strong, and the decision is their comparison
    refine iff_of_true (fun hsame => ?_) (Or.inr (Or.inl hstrong))
    obtain ⟨a, ha⟩ := Option.isSome_iff_exists.mp hstrong.1
    obtain ⟨b, hb⟩ := Option.isSome_iff_exists.mp hstrong.2
    obtain rfl := (sameRepresentation_of_strong ha hb).mp hsame
    obtain ⟨tag, htag, htag'⟩ := etagOf_eq_of_strongEtag ha hb
    refine ⟨not_carriesWeakEtag hstrong.1, not_carriesWeakEtag hstrong.2, ?_,
      Or.inl ⟨tag, htag, htag'⟩⟩
    rintro ⟨t, t', ht, ht', hne⟩
    rw [htag] at ht
    rw [htag'] at ht'
    exact hne ((Option.some.inj ht).symm.trans (Option.some.inj ht'))
  · rw [sameRepresentation_of_not_strong hstrong]
    constructor
    · intro h
      by_cases hdate : SameLastModified P stored fresh
      · exact Or.inr (Or.inr ⟨(h hdate).storedStrong, (h hdate).freshStrong, (h hdate).agree⟩)
      · exact Or.inl hdate
    · rintro (hdate | hboth | ⟨h1, h2, h3⟩) hsame
      · exact absurd hsame hdate
      · exact absurd hboth hstrong
      · exact ⟨h1, h2, h3, Or.inr hsame⟩

/-! ### What is combined -/

/-- The step takes an entry out of the index. -/
def CacheAct.Removes (key : String) : ∀ {β : Type}, CacheAct β → Prop
  | _, .index (.removeEntry k) => k = key
  | _, _ => False

variable (P)

/-- A 206 is put together with the entry that was found: it is not dropped first. -/
def MergesRange (opts : CacheOptions) (w : Storing) (body : Bytes) (contentRange : ContentRange)
    (key : String) (r : EntryRecord) : Prop :=
  ¬(foldRange P opts w body contentRange key (some r)).run.Begins (CacheAct.Removes key)

/-- A `HEAD` refreshes the entry that was found, rather than dropping it. -/
def RefreshedByHead (key : String) (r : EntryRecord) (headHeaders : HeaderMap) : Prop :=
  (reconcileWith P key r headHeaders).run.Begins CacheAct.Refreshes

variable {P} {opts : CacheOptions} {w : Storing} {body : Bytes} {contentRange : ContentRange}
  {key : String} {r : EntryRecord} {headHeaders : HeaderMap}

theorem mergesRange_iff : MergesRange P opts w body contentRange key r ↔
    sameRepresentation P r.headers.toHeaderMap w.responseHeaders = true := by
  rw [MergesRange, foldRange]
  rcases hs : sameRepresentation P r.headers.toHeaderMap w.responseHeaders with _ | _
  · simp only [Bool.false_eq_true, if_false, iff_false, not_not]
    exact rfl
  · simp only [if_true, iff_true]
    rw [extendRange]
    split
    · exact id
    · exact id

theorem refreshedByHead_iff : RefreshedByHead P key r headHeaders ↔
    sameRepresentation P r.headers.toHeaderMap headHeaders = true := by
  rw [RefreshedByHead, reconcileWith]
  rcases hs : sameRepresentation P r.headers.toHeaderMap headHeaders with _ | _
  · simp only [Bool.false_eq_true, if_false, iff_false]
    exact id
  · simp only [if_true, iff_true]
    exact trivial

/-- **Two answers are put together only where the rule allows it, exactly under
the condition**: for every entry that is stored and every 206 or `HEAD` that
arrives. -/
theorem combined_only_same_representation_iff (P : Platform) (opts : CacheOptions) (w : Storing)
    (body : Bytes) (contentRange : ContentRange) (key : String) (r : EntryRecord)
    (headHeaders : HeaderMap) :
    ((MergesRange P opts w body contentRange key r →
        MayCombine P r.headers.toHeaderMap w.responseHeaders) ↔
      DecidedByRule P r.headers.toHeaderMap w.responseHeaders) ∧
    ((RefreshedByHead P key r headHeaders → MayCombine P r.headers.toHeaderMap headHeaders) ↔
      DecidedByRule P r.headers.toHeaderMap headHeaders) := by
  rw [mergesRange_iff, refreshedByHead_iff]
  exact ⟨mayCombine_iff_decidedByRule, mayCombine_iff_decidedByRule⟩

/-! ### Two weak tags and one date -/

/-- The headers of a range: a weak entity tag, and a modification date. -/
def datedHeaders (etag : String) : HeaderMap :=
  toHeaderMap [("etag", etag), ("last-modified", "Sun, 06 Nov 1994 08:49:37 GMT")]

/-- The range `bytes 0-0/2` of a URL, as it is stored. -/
def datedEntry (etag : String) : EntryRecord where
  partition := none
  url := "http://a.test/x"
  method := "GET"
  status := 200
  headers := .forStorage (datedHeaders etag)
  varyFields := []
  varyKey := ""
  body := .Partial (some 2) [⟨0, 1, Platform.sampleBlake3 [97]⟩]
  requestTime := 784111800
  responseTime := 784111800
  storedAt := 784111800
  lastUsed := 784111800
  hits := 0
  provenance := .origin

/-- The store of the range `bytes 1-1/2` of the same URL. -/
def datedStore (etag : String) : Storing where
  partition := none
  method := "GET"
  url := "http://a.test/x"
  requestHeaders := ∅
  status := 206
  responseHeaders := datedHeaders etag
  requestTime := 784111801
  responseTime := 784111801
  provenance := .origin

/-- **Different weak tags are no obstacle**: with one modification date, a range
is stitched onto a range of another tag. -/
theorem weak_etags_are_combined :
    MergesRange Platform.sample .default (datedStore "W/\"2\"") [98] ⟨1, 1, some 2⟩
        (datedEntry "W/\"1\"").key (datedEntry "W/\"1\"") ∧
      ¬MayCombine Platform.sample (datedEntry "W/\"1\"").headers.toHeaderMap
        (datedStore "W/\"2\"").responseHeaders := by
  refine ⟨mergesRange_iff.mpr (by decide +kernel), fun h => h.storedStrong ?_⟩
  exact ⟨[87, 47, 34, 49, 34], by decide, by decide⟩

end Syndeo
