import Syndeo.Cache.Operations

/-!
# Reference counts

The reference count of a blob is the number of entries that name it. Each
transaction of the index that writes entries adjusts the counts as it goes, so
the equation is an invariant of the transactions and not of the operations: it
holds between any two steps of any interleaving, whatever the operations are in
the middle of.

Two things break it. `Syndeo.Index.refreshEntry` adjusts nothing, which is right
as long as it finds under its key an entry that names what the written one
names – and the operations that use it read that entry in an earlier
transaction. And a count is a `u32` that stays at its largest value.
`Syndeo.IndexAct.KeepsCount` says that a transaction does neither, and
`Syndeo.refcounts_exact_of_runs` that nothing else can go wrong.
-/

namespace Syndeo

open Concurrent Tables

namespace Index

/-! ### The counts of a table -/

/-- The count a table holds for a blob; none where there is no record. -/
def countIn (blobs : Table ContentId BlobRecord) (c : ContentId) : ℕ :=
  ((blobs.lookup c).map BlobRecord.refcount).getD 0

/-- The reference count of a blob. -/
def refcount (ix : Index) (c : ContentId) : ℕ := countIn ix.blobs c

/-- An entry names this blob. -/
def names (c : ContentId) (_ : String) (r : EntryRecord) : Bool := c ∈ r.contents

/-- How many entries name a blob. -/
def references (ix : Index) (c : ContentId) : ℕ := count (names c) ix.entries

/-- **Every reference count is the number of entries that name the blob.** -/
def RefcountsExact (ix : Index) : Prop := ∀ c, ix.refcount c = ix.references c

variable {blobs blobs' : Table ContentId BlobRecord} {c d : ContentId} {cs : List ContentId}
  {newBlobs : List (ContentId × BlobRecord)} {ix : Index} {key : String} {record : EntryRecord}

theorem countIn_insert {b : BlobRecord} :
    countIn (blobs.insert c b) d = if d = c then b.refcount else countIn blobs d := by
  rw [countIn, countIn]
  by_cases h : d = c
  · rw [if_pos h, h, AList.lookup_insert]
    rfl
  · rw [if_neg h, AList.lookup_insert_ne h]

theorem countIn_release :
    countIn (release blobs c).1 d = countIn blobs d - if d = c then 1 else 0 := by
  rw [release]
  rcases hb : blobs.lookup c with _ | b
  · have hnone : countIn blobs c = 0 := by rw [countIn, hb]; rfl
    by_cases h : d = c
    · rw [if_pos h, h, hnone]
    · rw [if_neg h, Nat.sub_zero]
  · rw [countIn_insert]
    by_cases h : d = c
    · rw [if_pos h, if_pos h, h, countIn, hb]
      rfl
    · rw [if_neg h, if_neg h, Nat.sub_zero]

/-- Releasing a list of blobs takes one off each. -/
theorem countIn_releaseAll (hcs : cs.Nodup) :
    countIn (releaseAll cs blobs).1 d = countIn blobs d - if d ∈ cs then 1 else 0 := by
  induction cs generalizing blobs with
  | nil => simp [releaseAll]
  | cons c cs ih =>
    obtain ⟨hc, hcs'⟩ := List.nodup_cons.mp hcs
    rw [releaseAll, ih hcs', countIn_release]
    by_cases h : d = c
    · subst h
      simp [hc]
    · simp [h]

theorem countIn_take (h : take newBlobs blobs c = .ok blobs') :
    countIn blobs' d = if d = c then min (countIn blobs c + 1) maxRefcount else countIn blobs d := by
  rw [take] at h
  rcases hb : blobs.lookup c with _ | b
  · rw [hb] at h
    simp only at h
    split at h
    · rename_i b hfind
      obtain rfl := Except.ok.inj h
      have hnone : countIn blobs c = 0 := by rw [countIn, hb]; rfl
      rw [countIn_insert, hnone]
      rfl
    · exact absurd h (by simp)
  · rw [hb] at h
    obtain rfl := Except.ok.inj h
    have hsome : countIn blobs c = b.refcount := by rw [countIn, hb]; rfl
    rw [countIn_insert, hsome]

/-- Taking a reference to each of a list of blobs adds one to each, as far as the
counts go. -/
theorem countIn_takeAll (hcs : cs.Nodup) (h : takeAll newBlobs cs blobs = .ok blobs') :
    countIn blobs' d =
      if d ∈ cs then min (countIn blobs d + 1) maxRefcount else countIn blobs d := by
  induction cs generalizing blobs with
  | nil =>
    obtain rfl := Except.ok.inj h
    simp
  | cons c cs ih =>
    obtain ⟨hc, hcs'⟩ := List.nodup_cons.mp hcs
    rw [takeAll] at h
    rcases htake : take newBlobs blobs c with e | blobs₁
    · rw [htake] at h
      exact absurd h (by simp [Except.bind])
    · rw [htake] at h
      rw [ih hcs' h, countIn_take htake]
      by_cases hdc : d = c
      · subst hdc
        simp [hc]
      · simp [hdc]

/-! ### The entries that name a blob -/

theorem mem_heldAt : c ∈ ix.heldAt key ↔ ∃ r, ix.entries.lookup key = some r ∧ c ∈ r.contents := by
  rw [heldAt]
  rcases ix.entries.lookup key with _ | r <;> simp

theorem nodup_heldAt : (ix.heldAt key).Nodup := by
  rw [heldAt]
  rcases ix.entries.lookup key with _ | r
  · exact List.nodup_nil
  · exact StoredBody.nodup_contents

/-- The entry under a key counts for the blobs that are held there. -/
theorem weight_lookup :
    weight (names c) key (ix.entries.lookup key) = if c ∈ ix.heldAt key then 1 else 0 := by
  rw [heldAt]
  rcases ix.entries.lookup key with _ | r
  · simp
  · simp [names]

theorem weight_record :
    weight (names c) key (some record) = if c ∈ record.contents then 1 else 0 := by
  simp [names]

/-! ### What the transactions do to the counts -/

/-- **Taking an entry out** keeps the counts exact. -/
theorem removeKey_exact (h : ix.RefcountsExact) : (ix.removeKey key).2.RefcountsExact := by
  intro c
  have herase := count_erase (names c) ix.entries key
  have hex := h c
  rw [refcount, references] at hex ⊢
  rw [weight_lookup] at herase
  rw [removeKey]
  simp only
  rw [countIn_releaseAll nodup_heldAt]
  omega

theorem removeVariants_exact {pkey : String} {keys : List String} (h : ix.RefcountsExact) :
    (removeVariants pkey keys ix).2.RefcountsExact := by
  induction keys generalizing ix with
  | nil => exact h
  | cons k keys ih => exact ih (removeKey_exact h)

theorem removeEntry_exact (h : ix.RefcountsExact) : (ix.removeEntry key).2.RefcountsExact := by
  rw [removeEntry]
  split
  · exact h
  · exact removeKey_exact h

theorem dropEntryIfUnchanged_exact {expected : EntryRecord} {revoke : Bool}
    (h : ix.RefcountsExact) :
    (ix.dropEntryIfUnchanged key expected revoke).2.RefcountsExact := by
  rw [dropEntryIfUnchanged]
  split
  · simp only
    split
    · exact removeEntry_exact h
    · exact removeEntry_exact h
  · exact h

/-- What writing an entry comes to, where it does not fail. -/
theorem putEntry_ok {orphaned : List ContentId} {ix' : Index}
    (hput : ix.putEntry record newBlobs = .ok (orphaned, ix')) :
    ∃ blobs, takeAll newBlobs (record.contents.filter (· ∉ ix.heldAt record.key))
        (releaseAll ((ix.heldAt record.key).filter (· ∉ record.contents)) ix.blobs).1 = .ok blobs ∧
      ix' = { ix with
        entries := ix.entries.insert record.key record
        blobs := blobs
        variants :=
          if record.varyKey ∈ (ix.variants.lookup record.pkey).getD [] then ix.variants
          else ix.variants.insert record.pkey
            ((ix.variants.lookup record.pkey).getD [] ++ [record.varyKey]) } := by
  rw [putEntry] at hput
  simp only at hput
  rcases ht : takeAll newBlobs (record.contents.filter (· ∉ ix.heldAt record.key))
      (releaseAll ((ix.heldAt record.key).filter (· ∉ record.contents)) ix.blobs).1 with e | blobs
  · rw [ht] at hput
    exact absurd hput (by simp [Except.map])
  · rw [ht] at hput
    exact ⟨blobs, rfl, ((Prod.mk.inj (Except.ok.inj hput)).2).symm⟩

/-- What it comes to for the blobs and the entries. -/
theorem putEntry_eq {orphaned : List ContentId} {ix' : Index}
    (hput : ix.putEntry record newBlobs = .ok (orphaned, ix')) :
    takeAll newBlobs (record.contents.filter (· ∉ ix.heldAt record.key))
        (releaseAll ((ix.heldAt record.key).filter (· ∉ record.contents)) ix.blobs).1 =
          .ok ix'.blobs ∧
      ix'.entries = ix.entries.insert record.key record := by
  obtain ⟨blobs, htake, rfl⟩ := putEntry_ok hput
  exact ⟨htake, rfl⟩

/-- **Writing an entry** keeps the counts exact, as long as none is full. -/
theorem putEntry_exact {orphaned : List ContentId} {ix' : Index} (h : ix.RefcountsExact)
    (hroom : ∀ c ∈ record.contents, c ∉ ix.heldAt record.key → ix.refcount c < maxRefcount)
    (hput : ix.putEntry record newBlobs = .ok (orphaned, ix')) : ix'.RefcountsExact := by
  obtain ⟨htake, hentries⟩ := putEntry_eq hput
  intro c
  have hins := count_insert (names c) ix.entries record.key record
  rw [weight_lookup, weight_record] at hins
  have hex := h c
  rw [refcount, references] at hex ⊢
  have hnodup : record.contents.Nodup := StoredBody.nodup_contents
  rw [hentries, countIn_takeAll (hnodup.filter _) htake, countIn_releaseAll (nodup_heldAt.filter _)]
  have hroom' := hroom c
  rw [refcount] at hroom'
  have hgained : c ∈ record.contents.filter (· ∉ ix.heldAt record.key) ↔
      c ∈ record.contents ∧ c ∉ ix.heldAt record.key := by
    rw [List.mem_filter, decide_eq_true_eq]
  have hdropped : c ∈ (ix.heldAt record.key).filter (· ∉ record.contents) ↔
      c ∈ ix.heldAt record.key ∧ c ∉ record.contents := by
    rw [List.mem_filter, decide_eq_true_eq]
  simp only [hgained, hdropped]
  by_cases hw : c ∈ record.contents <;> by_cases hh : c ∈ ix.heldAt record.key <;>
    simp only [hw, hh, if_true, if_false, not_true, not_false_iff, and_true, and_false] at hins ⊢
  · omega
  · have := hroom' hw hh
    omega
  · omega
  · omega

/-- **Refreshing an entry** keeps the counts exact exactly when the entry it finds
names the same blobs. -/
theorem refreshEntry_exact_iff (h : ix.RefcountsExact) :
    (ix.refreshEntry record).RefcountsExact ↔
      ∀ c, c ∈ ix.heldAt record.key ↔ c ∈ record.contents := by
  refine forall_congr' fun c => ?_
  have hins := count_insert (names c) ix.entries record.key record
  rw [weight_lookup, weight_record] at hins
  have hex := h c
  rw [refcount, references] at hex ⊢
  have hrefresh : (ix.refreshEntry record).entries = ix.entries.insert record.key record := rfl
  have hblobs : (ix.refreshEntry record).blobs = ix.blobs := rfl
  rw [hrefresh, hblobs]
  by_cases hw : c ∈ record.contents <;> by_cases hh : c ∈ ix.heldAt record.key <;>
    simp only [hw, hh, if_true, if_false, iff_true, iff_false, not_true_eq_false] at hins ⊢ <;>
    omega

theorem recordAccess_exact {key : Option String} {now : ℕ} {tally : List (String × ℕ)}
    (h : ix.RefcountsExact) : (ix.recordAccess key now tally).RefcountsExact := by
  have hblobs : (ix.recordAccess key now tally).blobs = ix.blobs := rfl
  have hentries : ∀ c, count (names c) (ix.recordAccess key now tally).entries =
      count (names c) ix.entries := by
    intro c
    rcases key with _ | key
    · rfl
    · rcases hr : ix.entries.lookup key with _ | r
      · simp only [recordAccess, hr]
      · simp only [recordAccess, hr]
        -- the use stamp changes nothing of what the entry names
        exact count_insert_of_weight_eq (by rw [hr]; rfl)
  intro c
  have hex := h c
  rw [refcount, references] at hex ⊢
  rw [hblobs, hentries, hex]

theorem grantEligibility_exact {verified : List Bytes} (h : ix.RefcountsExact) :
    (ix.grantEligibility c verified).2.RefcountsExact := by
  unfold grantEligibility
  split
  · exact h
  · simp only
    split <;> exact h

theorem forget_exact (h : ix.RefcountsExact) :
    (ix.forgetBlobIfUnreferenced c).2.RefcountsExact := by
  rw [forgetBlobIfUnreferenced]
  rcases hb : ix.blobs.lookup c with _ | b
  · exact h
  · simp only
    split
    · rename_i hzero
      intro d
      have hex := h d
      rw [refcount, references] at hex ⊢
      simp only
      rw [← hex, countIn, countIn]
      by_cases hd : d = c
      · rw [hd, AList.lookup_erase, hb]
        exact hzero.symm
      · rw [AList.lookup_erase_ne hd]
    · exact h

theorem clear_exact : ix.clear.2.RefcountsExact := fun _ => rfl

theorem empty_exact : Index.empty.RefcountsExact := fun _ => rfl

end Index

/-! ### Transactions, and runs of them -/

/-- **The transaction keeps count**: a refresh finds what it writes, and a store
finds room for its references. -/
def IndexAct.KeepsCount (ix : Index) : ∀ {β : Type}, IndexAct β → Prop
  | _, .refreshEntry record =>
    (∀ c ∈ ix.heldAt record.key, c ∈ record.contents) ∧
      ∀ c ∈ record.contents, c ∈ ix.heldAt record.key
  | _, .putEntry record _ =>
    ∀ c ∈ record.contents, c ∉ ix.heldAt record.key → ix.refcount c < Index.maxRefcount
  | _, _ => True

instance {ix : Index} {β : Type} {a : IndexAct β} : Decidable (a.KeepsCount ix) :=
  match a with
  | .refreshEntry _ => instDecidableAnd
  | .putEntry record _ => List.decidableBAll _ record.contents
  | .getEntry _ | .variantKeys _ _ _ | .invalidate _ _ _ | .removeEntry _ | .dropBrokenEntry _ _
  | .dropEntryHolding _ _ | .recordAccess _ _ _ | .allEntries | .getBlob _ | .blobTotals | .clear
  | .orphanedBlobs | .forgetBlobIfUnreferenced _ | .grantEligibility _ _ | .eligibleHashes _
  | .indexSri _ | .staleSri | .dropSri _ | .contentForSri _ | .bump _ _ => .isTrue trivial

/-- **One transaction.** -/
theorem IndexAct.run_exact {ix ix' : Index} {β : Type} {a : IndexAct β} {b : β}
    (h : ix.RefcountsExact) (hok : a.KeepsCount ix) (hrun : a.run ix = .ok (b, ix')) :
    ix'.RefcountsExact := by
  cases a with
  | putEntry record newBlobs => exact Index.putEntry_exact h hok hrun
  | refreshEntry record =>
    obtain rfl := (Prod.mk.inj (Except.ok.inj hrun)).2
    exact (Index.refreshEntry_exact_iff h).mpr fun c => ⟨hok.1 c, hok.2 c⟩
  | invalidate partition method url =>
    obtain rfl := (Prod.mk.inj (Except.ok.inj hrun)).2
    exact Index.removeVariants_exact h
  | removeEntry key =>
    obtain rfl := (Prod.mk.inj (Except.ok.inj hrun)).2
    exact Index.removeEntry_exact h
  | dropBrokenEntry key expected =>
    obtain rfl := (Prod.mk.inj (Except.ok.inj hrun)).2
    exact Index.dropEntryIfUnchanged_exact h
  | dropEntryHolding key expected =>
    obtain rfl := (Prod.mk.inj (Except.ok.inj hrun)).2
    exact Index.dropEntryIfUnchanged_exact h
  | recordAccess key now tally =>
    obtain rfl := (Prod.mk.inj (Except.ok.inj hrun)).2
    exact Index.recordAccess_exact h
  | clear =>
    obtain rfl := (Prod.mk.inj (Except.ok.inj hrun)).2
    exact Index.clear_exact
  | forgetBlobIfUnreferenced id =>
    obtain rfl := (Prod.mk.inj (Except.ok.inj hrun)).2
    exact Index.forget_exact h
  | grantEligibility id verified =>
    obtain rfl := (Prod.mk.inj (Except.ok.inj hrun)).2
    exact Index.grantEligibility_exact h
  | getEntry _ | variantKeys _ _ _ | allEntries | getBlob _ | blobTotals | orphanedBlobs
  | eligibleHashes _ | indexSri _ | staleSri | dropSri _ | contentForSri _ | bump _ _ =>
    obtain rfl := (Prod.mk.inj (Except.ok.inj hrun)).2
    exact h

/-- The step keeps count, in the store it is taken in. -/
def CacheAct.KeepsCount (s : Store) : ∀ {β : Type}, CacheAct β → Prop
  | _, .index a => a.KeepsCount s.index
  | _, _ => True

/-- The step takes a reference only where the count of it is not full. -/
def CacheAct.HasRoom (s : Store) : ∀ {β : Type}, CacheAct β → Prop
  | _, .index (.putEntry record _) =>
    ∀ c ∈ record.contents, c ∉ s.index.heldAt record.key → s.index.refcount c < Index.maxRefcount
  | _, _ => True

/-- Then it keeps count, unless it refreshes an entry. -/
theorem CacheAct.HasRoom.keepsCount {s : Store} {β : Type} {a : CacheAct β} (h : a.HasRoom s)
    (hrefresh : ¬a.Refreshes) : a.KeepsCount s := by
  cases a with
  | index a =>
    cases a with
    | putEntry record newBlobs => exact h
    | refreshEntry record => exact absurd trivial hrefresh
    | _ => trivial
  | _ => trivial

instance {s : Store} {β : Type} {a : CacheAct β} : Decidable (a.KeepsCount s) :=
  match a with
  | .index a => inferInstanceAs (Decidable (a.KeepsCount s.index))
  | .file _ | .gate _ | .now => .isTrue trivial

instance {s : Store} {β : Type} {a : CacheAct β} : Decidable (a.HasRoom s) :=
  match a with
  | .index (.putEntry record _) => List.decidableBAll _ record.contents
  | .index (.refreshEntry _) | .index (.getEntry _) | .index (.variantKeys _ _ _)
  | .index (.invalidate _ _ _) | .index (.removeEntry _) | .index (.dropBrokenEntry _ _)
  | .index (.dropEntryHolding _ _) | .index (.recordAccess _ _ _) | .index .allEntries
  | .index (.getBlob _) | .index .blobTotals | .index .clear | .index .orphanedBlobs
  | .index (.forgetBlobIfUnreferenced _) | .index (.grantEligibility _ _)
  | .index (.eligibleHashes _) | .index (.indexSri _) | .index .staleSri | .index (.dropSri _)
  | .index (.contentForSri _) | .index (.bump _ _) | .file _ | .gate _ | .now => .isTrue trivial

/-- **One step of any operation.** -/
theorem Store.perform_exact {s s' : Store} {w : Weather} {i : ℕ} {β : Type} {a : CacheAct β} {b : β}
    (h : s.index.RefcountsExact) (hok : a.KeepsCount s)
    (hperform : Store.perform w i a s = some (b, s')) : s'.index.RefcountsExact := by
  cases a with
  | index a =>
    rcases Store.perform_index.mp hperform with
      ⟨_, -, -, rfl⟩ | ⟨-, _, ix, hrun, -, rfl⟩ | ⟨-, _, -, -, rfl⟩
    · exact h
    · exact IndexAct.run_exact h hok hrun
    · exact h
  | file a =>
    rcases Store.perform_file.mp hperform with ⟨_, -, -, rfl⟩ | ⟨-, -, rfl⟩
    · exact h
    · exact h
  | gate a =>
    obtain ⟨_, -, rfl⟩ := Store.perform_gate.mp hperform
    exact h
  | now =>
    obtain ⟨-, rfl⟩ := Store.perform_now.mp hperform
    exact h

/-- **The counts stay exact along every run of cache operations**, of any number
of them and in any interleaving, whose steps keep count. -/
theorem refcounts_exact_of_runs (P : Platform) (opts : CacheOptions) (ops : List Op) (s : Store)
    (hs : s.index.RefcountsExact) (c : Config CacheAct Store Outcome)
    (hrun : (cacheRuns.when fun _ {_} a s => a.KeepsCount s).Runs (running P opts s ops) c) :
    c.shared.index.RefcountsExact := by
  let Inv : Store → Prop := fun t => t.index.RefcountsExact
  refine System.Runs.invariant (I := Inv) (fun i n β a t b t' ht hstep => ?_) hrun hs
  obtain ⟨hok, w, -, hperform⟩ := hstep
  exact Store.perform_exact ht hok hperform

/-! ### A confirmation across an invalidation -/

/-- A page that stays fresh for a minute, as it is stored. -/
def pageStore : Storing where
  partition := none
  method := "GET"
  url := "http://a.test/x"
  requestHeaders := ∅
  status := 200
  responseHeaders := toHeaderMap [("etag", "\"1\""), ("cache-control", "max-age=60")]
  requestTime := 10
  responseTime := 10
  provenance := .origin

/-- The page is stored, then confirmed by the origin while an unsafe request takes
it out. -/
def pageOps : List Op :=
  [.store pageStore [97], .recordNotModified (entryKey none "GET" "http://a.test/x" "") ∅ 20 20,
    .invalidate none "POST" "http://a.test/x"]

/-- Who moves when: the store runs to its end, the confirmation reads the entry,
the invalidation runs to its end, and the confirmation writes the entry back. -/
def pageSchedule : List (Weather × ℕ) :=
  (List.replicate 10 0 ++ [1] ++ List.replicate 6 2 ++ [1]).map fun i => (⟨10, none⟩, i)

/-- The counts are exact after the store alone: each of its steps keeps count. -/
theorem refcounts_exact_of_runs_page :
    ∃ c, (cacheRuns.when fun _ {_} a s => a.KeepsCount s).Runs
        (running Platform.sample .default .empty pageOps) c ∧
      (rows c.shared.index.entries).length = 1 ∧ c.shared.index.RefcountsExact := by
  let stored : Config CacheAct Store Outcome → Bool := fun c =>
    (rows c.shared.index.entries).length = 1
  have hfollow : ((running Platform.sample .default .empty pageOps).follow
      (allowing (fun _ {_} a s => a.KeepsCount s) Store.perform)
      (fun {_} _ => none) (pageSchedule.take 10)).any stored = true := by decide +kernel
  obtain ⟨c, hc, hstored⟩ := exists_cacheRuns_when _ hfollow
  exact ⟨c, hc, of_decide_eq_true hstored,
    refcounts_exact_of_runs _ _ _ _ Index.empty_exact c hc⟩

/-- **An entry that was taken out is written back without its reference**: it
names a blob whose count is zero. -/
theorem removed_entry_written_back :
    Store.empty.index.RefcountsExact ∧
      ∃ c, cacheRuns.Runs (running Platform.sample .default .empty pageOps) c ∧
        ¬c.shared.index.RefcountsExact := by
  refine ⟨Index.empty_exact, ?_⟩
  let drifted : Config CacheAct Store Outcome → Bool := fun c =>
    c.shared.index.refcount (Platform.sampleBlake3 [97]) ≠
      c.shared.index.references (Platform.sampleBlake3 [97])
  have hfollow : ((running Platform.sample .default .empty pageOps).follow Store.perform
      (fun {_} _ => none) pageSchedule).any drifted = true := by decide +kernel
  obtain ⟨c, hc, hcount⟩ := exists_cacheRuns hfollow
  exact ⟨c, hc, fun h => of_decide_eq_true hcount (h _)⟩

end Syndeo
