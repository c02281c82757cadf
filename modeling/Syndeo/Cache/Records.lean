import Syndeo.Cache.Refcount

/-!
# Which blobs have a record

A blob has a record from the first entry that names it until it is deleted, with
a count that may be zero in between. Only `Syndeo.Index.putEntry` makes records,
for the new blobs it is given, and it fails exactly when one that it has to name
neither has a record nor is given one.
-/

namespace Syndeo

open Tables

namespace Index

/-- The blob has a record. -/
def Recorded (ix : Index) (c : ContentId) : Prop := (ix.blobs.lookup c).isSome = true

variable {blobs blobs' : Table ContentId BlobRecord} {c d : ContentId} {cs : List ContentId}
  {newBlobs : List (ContentId × BlobRecord)} {ix : Index} {key : String} {record : EntryRecord}

theorem isSome_lookup_release :
    ((release blobs c).1.lookup d).isSome = (blobs.lookup d).isSome := by
  rw [release]
  rcases hb : blobs.lookup c with _ | b
  · rfl
  · by_cases h : d = c
    · obtain rfl := h
      rw [AList.lookup_insert, hb]
      rfl
    · rw [AList.lookup_insert_ne h]

theorem isSome_lookup_releaseAll :
    ((releaseAll cs blobs).1.lookup d).isSome = (blobs.lookup d).isSome := by
  induction cs generalizing blobs with
  | nil => rfl
  | cons c cs ih =>
    rw [releaseAll]
    exact ih.trans isSome_lookup_release

theorem recorded_take (h : take newBlobs blobs c = .ok blobs')
    (hd : (blobs'.lookup d).isSome = true) :
    (blobs.lookup d).isSome = true ∨ d ∈ newBlobs.map Prod.fst := by
  rw [take] at h
  rcases hb : blobs.lookup c with _ | b
  · rw [hb] at h
    simp only at h
    split at h
    · rename_i b hfind
      obtain rfl := Except.ok.inj h
      by_cases hdc : d = c
      · have hname := List.find?_some hfind
        rw [decide_eq_true_eq] at hname
        exact Or.inr (List.mem_map.mpr ⟨_, List.mem_of_find?_eq_some hfind, hname.trans hdc.symm⟩)
      · rw [AList.lookup_insert_ne hdc] at hd
        exact Or.inl hd
    · exact absurd h (by simp)
  · rw [hb] at h
    obtain rfl := Except.ok.inj h
    by_cases hdc : d = c
    · exact Or.inl (by rw [hdc, hb]; rfl)
    · rw [AList.lookup_insert_ne hdc] at hd
      exact Or.inl hd

theorem recorded_takeAll (h : takeAll newBlobs cs blobs = .ok blobs')
    (hd : (blobs'.lookup d).isSome = true) :
    (blobs.lookup d).isSome = true ∨ d ∈ newBlobs.map Prod.fst := by
  induction cs generalizing blobs with
  | nil =>
    obtain rfl := Except.ok.inj h
    exact Or.inl hd
  | cons c cs ih =>
    rw [takeAll] at h
    rcases htake : take newBlobs blobs c with e | blobs₁
    · rw [htake] at h
      exact absurd h (by simp [Except.bind])
    · rw [htake] at h
      rcases ih h with hsome | hnew
      · exact recorded_take htake hsome
      · exact Or.inr hnew

theorem recorded_putEntry {orphaned : List ContentId} {ix' : Index}
    (hput : ix.putEntry record newBlobs = .ok (orphaned, ix')) (hd : ix'.Recorded d) :
    ix.Recorded d ∨ d ∈ newBlobs.map Prod.fst := by
  obtain ⟨htake, -⟩ := putEntry_eq hput
  rcases recorded_takeAll htake hd with hsome | hnew
  · exact Or.inl (isSome_lookup_releaseAll.symm.trans hsome)
  · exact Or.inr hnew

theorem recorded_removeKey : (ix.removeKey key).2.Recorded d ↔ ix.Recorded d := by
  rw [Recorded, Recorded, removeKey]
  exact iff_of_eq (congrArg (· = true) isSome_lookup_releaseAll)

theorem recorded_removeVariants {pkey : String} {keys : List String} :
    (removeVariants pkey keys ix).2.Recorded d ↔ ix.Recorded d := by
  induction keys generalizing ix with
  | nil => exact Iff.rfl
  | cons k keys ih => exact ih.trans recorded_removeKey

theorem recorded_invalidate {partition : Option String} {method url : String} :
    (ix.invalidate partition method url).2.Recorded d ↔ ix.Recorded d :=
  recorded_removeVariants

theorem recorded_removeEntry : (ix.removeEntry key).2.Recorded d ↔ ix.Recorded d := by
  rw [removeEntry]
  split
  · exact Iff.rfl
  · exact recorded_removeKey

theorem recorded_dropEntryIfUnchanged {expected : EntryRecord} {revoke : Bool} :
    (ix.dropEntryIfUnchanged key expected revoke).2.Recorded d ↔ ix.Recorded d := by
  rw [dropEntryIfUnchanged]
  split
  · simp only
    split
    · exact recorded_removeEntry
    · exact recorded_removeEntry
  · exact Iff.rfl

theorem recorded_forget (hd : (ix.forgetBlobIfUnreferenced c).2.Recorded d) : ix.Recorded d := by
  rw [forgetBlobIfUnreferenced] at hd
  rcases hb : ix.blobs.lookup c with _ | b
  · rw [hb] at hd
    exact hd
  · rw [hb] at hd
    simp only at hd
    split at hd
    · by_cases hdc : d = c
      · rw [Recorded, hdc, hb]
        rfl
      · rw [Recorded, AList.lookup_erase_ne hdc] at hd
        exact hd
    · exact hd

theorem recorded_forget_of_ne (hne : d ≠ c) (hd : ix.Recorded d) :
    (ix.forgetBlobIfUnreferenced c).2.Recorded d := by
  rw [forgetBlobIfUnreferenced]
  split
  · split
    · rw [Recorded]
      simp only
      rw [AList.lookup_erase_ne hne]
      exact hd
    · exact hd
  · exact hd

/-- What was forgotten has no record. -/
theorem not_recorded_of_forgotten (h : (ix.forgetBlobIfUnreferenced c).1 = true) :
    ¬(ix.forgetBlobIfUnreferenced c).2.Recorded c := by
  rw [forgetBlobIfUnreferenced] at h ⊢
  rcases hb : ix.blobs.lookup c with _ | b
  · simp [Recorded, hb]
  · rw [hb] at h
    simp only at h ⊢
    split at h
    · simp [Recorded, *]
    · exact absurd h Bool.false_ne_true

theorem recorded_grantEligibility {verified : List Bytes} :
    (ix.grantEligibility c verified).2.Recorded d ↔ ix.Recorded d := by
  unfold grantEligibility
  split
  · exact Iff.rfl
  · simp only
    split <;> exact Iff.rfl

/-- **What an entry names has a record**, where the counts are exact. -/
theorem recorded_of_named (h : ix.RefcountsExact) (hr : ix.entries.lookup key = some record)
    (hc : c ∈ record.contents) : ix.Recorded c := by
  have hpos : 0 < ix.references c :=
    count_pos_iff.mpr ⟨key, record, hr, by simpa [names] using hc⟩
  rw [← h c, refcount, countIn] at hpos
  rw [Recorded]
  rcases hb : ix.blobs.lookup c with _ | b
  · rw [hb] at hpos
    exact absurd hpos (by simp)
  · rfl

/-! ### Writing an entry -/

theorem exists_insert_of_take (h : take newBlobs blobs c = .ok blobs') :
    ∃ b, blobs' = blobs.insert c b := by
  rw [take] at h
  split at h
  · exact ⟨_, (Except.ok.inj h).symm⟩
  · split at h
    · exact ⟨_, (Except.ok.inj h).symm⟩
    · exact absurd h (by simp)

theorem isSome_lookup_insert {b : BlobRecord} :
    ((blobs.insert c b).lookup d).isSome = true ↔ (blobs.lookup d).isSome = true ∨ d = c := by
  rcases eq_or_ne d c with rfl | hne
  · simp
  · rw [AList.lookup_insert_ne hne, or_iff_left hne]

/-- What a reference was taken to has a record, and what had one keeps it. -/
theorem isSome_lookup_takeAll (h : takeAll newBlobs cs blobs = .ok blobs') :
    (blobs'.lookup d).isSome = true ↔ (blobs.lookup d).isSome = true ∨ d ∈ cs := by
  induction cs generalizing blobs with
  | nil =>
    obtain rfl := Except.ok.inj h
    simp
  | cons c cs ih =>
    rw [takeAll] at h
    rcases htake : take newBlobs blobs c with e | blobs₁
    · rw [htake] at h
      exact absurd h (by simp [Except.bind])
    · rw [htake] at h
      obtain ⟨b, rfl⟩ := exists_insert_of_take htake
      rw [ih h, isSome_lookup_insert, List.mem_cons, or_assoc]

theorem exists_take (hc : (blobs.lookup c).isSome = true ∨ c ∈ newBlobs.map Prod.fst) :
    ∃ blobs', take newBlobs blobs c = .ok blobs' := by
  rw [take]
  split
  · exact ⟨_, rfl⟩
  · rename_i hnone
    rw [hnone] at hc
    obtain ⟨nb, hnb, rfl⟩ := List.mem_map.mp (hc.resolve_left Bool.false_ne_true)
    split
    · exact ⟨_, rfl⟩
    · rename_i hfind
      exact absurd (List.find?_eq_none.mp hfind nb hnb) (by simp)

theorem exists_takeAll
    (hcs : ∀ c ∈ cs, (blobs.lookup c).isSome = true ∨ c ∈ newBlobs.map Prod.fst) :
    ∃ blobs', takeAll newBlobs cs blobs = .ok blobs' := by
  induction cs generalizing blobs with
  | nil => exact ⟨_, rfl⟩
  | cons c cs ih =>
    obtain ⟨blobs₁, htake⟩ := exists_take (hcs c List.mem_cons_self)
    obtain ⟨b, rfl⟩ := exists_insert_of_take htake
    rw [takeAll, htake]
    refine ih fun d hd => (hcs d (List.mem_cons_of_mem _ hd)).imp_left fun hsome => ?_
    exact isSome_lookup_insert.mpr (Or.inl hsome)

/-- Where a URL's variants are listed once an entry of it has been written. -/
def listed (ix : Index) (record : EntryRecord) : Table String (List String) :=
  if record.varyKey ∈ (ix.variants.lookup record.pkey).getD [] then ix.variants
  else ix.variants.insert record.pkey ((ix.variants.lookup record.pkey).getD [] ++ [record.varyKey])

/-- **An entry can be written** when each blob it names has a record or is given
one. -/
theorem exists_putEntry
    (h : ∀ c ∈ record.contents, ix.Recorded c ∨ c ∈ newBlobs.map Prod.fst) :
    ∃ ix', ix.putEntry record newBlobs =
        .ok ((releaseAll ((ix.heldAt record.key).filter (· ∉ record.contents)) ix.blobs).2, ix') ∧
      ix'.entries = ix.entries.insert record.key record ∧ ix'.variants = ix.listed record := by
  have htakes : ∃ blobs', takeAll newBlobs (record.contents.filter (· ∉ ix.heldAt record.key))
      (releaseAll ((ix.heldAt record.key).filter (· ∉ record.contents)) ix.blobs).1 =
        .ok blobs' := by
    refine exists_takeAll fun c hc => ?_
    refine (h c (List.mem_of_mem_filter hc)).imp_left fun hsome => ?_
    exact isSome_lookup_releaseAll.trans hsome
  obtain ⟨blobs', htake⟩ := htakes
  rw [putEntry]
  simp only
  rw [htake]
  exact ⟨_, rfl, rfl, rfl⟩

/-- Exactly what had a record has one then, and what is named. -/
theorem recorded_putEntry_iff {orphaned : List ContentId} {ix' : Index} (h : ix.RefcountsExact)
    (hput : ix.putEntry record newBlobs = .ok (orphaned, ix')) :
    ix'.Recorded d ↔ ix.Recorded d ∨ d ∈ record.contents := by
  obtain ⟨htake, -⟩ := putEntry_eq hput
  rw [Recorded, isSome_lookup_takeAll htake, isSome_lookup_releaseAll, List.mem_filter,
    decide_eq_true_eq]
  refine ⟨Or.imp_right And.left, ?_⟩
  rintro (hold | hnamed)
  · exact Or.inl hold
  · by_cases hheld : d ∈ ix.heldAt record.key
    · obtain ⟨r, hr, hd⟩ := mem_heldAt.mp hheld
      exact Or.inl (recorded_of_named h hr hd)
    · exact Or.inr ⟨hnamed, hheld⟩

end Index

/-- The blobs a transaction may make records for. -/
def IndexAct.brings : ∀ {β : Type}, IndexAct β → List ContentId
  | _, .putEntry _ newBlobs => newBlobs.map Prod.fst
  | _, _ => []

/-- **No transaction makes a record that was not brought.** -/
theorem IndexAct.run_recorded {ix ix' : Index} {β : Type} {a : IndexAct β} {b : β} {c : ContentId}
    (hrun : a.run ix = .ok (b, ix')) (hc : ix'.Recorded c) : ix.Recorded c ∨ c ∈ a.brings := by
  cases a with
  | putEntry record newBlobs => exact Index.recorded_putEntry hrun hc
  | invalidate partition method url =>
    obtain rfl := (Prod.mk.inj (Except.ok.inj hrun)).2
    exact Or.inl (Index.recorded_removeVariants.mp hc)
  | removeEntry key =>
    obtain rfl := (Prod.mk.inj (Except.ok.inj hrun)).2
    exact Or.inl (Index.recorded_removeEntry.mp hc)
  | dropBrokenEntry key expected =>
    obtain rfl := (Prod.mk.inj (Except.ok.inj hrun)).2
    exact Or.inl (Index.recorded_dropEntryIfUnchanged.mp hc)
  | dropEntryHolding key expected =>
    obtain rfl := (Prod.mk.inj (Except.ok.inj hrun)).2
    exact Or.inl (Index.recorded_dropEntryIfUnchanged.mp hc)
  | clear =>
    obtain rfl := (Prod.mk.inj (Except.ok.inj hrun)).2
    exact absurd hc Bool.false_ne_true
  | forgetBlobIfUnreferenced id =>
    obtain rfl := (Prod.mk.inj (Except.ok.inj hrun)).2
    exact Or.inl (Index.recorded_forget hc)
  | grantEligibility id verified =>
    obtain rfl := (Prod.mk.inj (Except.ok.inj hrun)).2
    exact Or.inl (Index.recorded_grantEligibility.mp hc)
  | getEntry _ | refreshEntry _ | variantKeys _ _ _ | allEntries | getBlob _ | blobTotals
  | orphanedBlobs | eligibleHashes _ | indexSri _ | staleSri | dropSri _ | contentForSri _
  | bump _ _ | recordAccess _ _ _ =>
    obtain rfl := (Prod.mk.inj (Except.ok.inj hrun)).2
    exact Or.inl hc

end Syndeo
