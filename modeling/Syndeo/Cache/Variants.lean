import Syndeo.Cache.NoStore

/-!
# The variants of a URL

What a response varies on is written down four times: in its stored headers, in
the entry's own list of fields, in the key the entry is under, and in the list of
variants of its URL. `Syndeo.Index.Tuned` says that the four agree.

The key and the list are looked after by every transaction (`Syndeo.Index.Files`),
as long as an entry that is written back is still there; and operations that take
turns see to that. The headers are not: a confirmation, or a `HEAD`, puts new
headers into an entry and leaves its list of fields as it was, and what a response
says of its connection is not stored with it. `Syndeo.Op.KeepsVary` says when
neither comes to anything, and `Syndeo.tuned_of_one_at_a_time` that the four then
agree in every state a run of operations one at a time comes by.
-/

namespace Syndeo

open Concurrent Tables
open Text (eqIgnoreAsciiCase toAsciiUppercase toAsciiLowercase)
open Prog (Stays StaysWith stays_pure staysWith_pure obeys_run_bind)

/-! ### The invariant -/

/-- **What is said of an entry's variant agrees**: its list of fields with its
headers, its key with what it is a variant of, and the list of its URL with it. -/
structure Index.Tuned (ix : Index) : Prop where
  varies : ∀ k r, ix.entries.lookup k = some r → r.varyFields = varyFields r.headers.toHeaderMap
  named : ∀ k r, ix.entries.lookup k = some r → "*" ∉ r.varyFields
  keyed : ∀ k r, ix.entries.lookup k = some r →
    k = entryKey r.partition r.method r.url r.varyKey
  listed : ∀ k r, ix.entries.lookup k = some r →
    r.varyKey ∈ ix.variantKeys r.partition r.method r.url

/-- **Every entry is filed**: under its own key, and in the list of its URL; and it is
of the kind `C`. -/
def Index.Files (C : String → EntryRecord → Prop) (ix : Index) : Prop :=
  ∀ k r, ix.entries.lookup k = some r →
    r.key = k ∧ r.varyKey ∈ ix.variantKeys r.partition r.method r.url ∧ C k r

/-- The transaction writes no entry but of the kind `C`, and puts back none that is not
in the list of its URL. -/
def IndexAct.Files (C : String → EntryRecord → Prop) (ix : Index) : ∀ {β : Type}, IndexAct β → Prop
  | _, .putEntry record _ => C record.key record
  | _, .refreshEntry record => C record.key record ∧
    record.varyKey ∈ ix.variantKeys record.partition record.method record.url
  | _, _ => True

/-! ### The lists of variants -/

section Lists

variable {variants : Table String (List String)} {p q v w : String}

/-- A variant is listed, if it is not. -/
theorem mem_listed_grown : v ∈ ((if w ∈ (variants.lookup p).getD [] then variants
    else variants.insert p ((variants.lookup p).getD [] ++ [w])).lookup q).getD [] ↔
      v ∈ (variants.lookup q).getD [] ∨ q = p ∧ v = w := by
  split
  · rename_i hmem
    refine (or_iff_left_of_imp ?_).symm
    rintro ⟨rfl, rfl⟩
    exact hmem
  · rcases eq_or_ne q p with rfl | hne
    · rw [AList.lookup_insert, Option.getD_some, List.mem_append, List.mem_singleton]
      exact or_congr_right (iff_and_self.mpr fun _ => rfl)
    · rw [AList.lookup_insert_ne hne]
      exact (or_iff_left fun h => hne h.1).symm

/-- A URL's list is dropped. -/
theorem mem_listed_erase : v ∈ ((variants.erase p).lookup q).getD [] ↔
    q ≠ p ∧ v ∈ (variants.lookup q).getD [] := by
  rcases eq_or_ne q p with rfl | hne
  · simp [AList.lookup_erase]
  · rw [AList.lookup_erase_ne hne]
    exact (and_iff_right hne).symm

/-- A variant is taken off its list, which is dropped when nothing is left on it. -/
theorem mem_listed_shrunk : v ∈ ((if ((variants.lookup p).getD []).filter (· ≠ w) = [] then
    variants.erase p else variants.insert p (((variants.lookup p).getD []).filter (· ≠ w))).lookup
      q).getD [] ↔ v ∈ (variants.lookup q).getD [] ∧ (q = p → v ≠ w) := by
  rcases eq_or_ne q p with rfl | hne
  · have hkept : v ∈ ((variants.lookup q).getD []).filter (· ≠ w) ↔
        v ∈ (variants.lookup q).getD [] ∧ (q = q → v ≠ w) := by simp
    split
    · rename_i hnil
      rw [hnil] at hkept
      rw [mem_listed_erase, ← hkept]
      simp
    · rw [AList.lookup_insert, Option.getD_some, hkept]
  · have hany : v ∈ (variants.lookup q).getD [] ↔
        v ∈ (variants.lookup q).getD [] ∧ (q = p → v ≠ w) :=
      iff_self_and.mpr fun _ h => absurd h hne
    split
    · rw [AList.lookup_erase_ne hne]
      exact hany
    · rw [AList.lookup_insert_ne hne]
      exact hany

end Lists

namespace Index

variable {C C' : String → EntryRecord → Prop} {ix ix' : Index} {key pkey : String}
  {record : EntryRecord}

theorem files_empty : Index.empty.Files C := fun _ _ h => absurd h (by simp [Index.empty])

theorem Files.mono (h : ix.Files C) (hC : ∀ k r, ix.entries.lookup k = some r → C k r → C' k r) :
    ix.Files C' := fun k r hr =>
  ⟨(h k r hr).1, (h k r hr).2.1, hC k r hr (h k r hr).2.2⟩

/-- Fewer entries, and the lists as they were for those. -/
theorem Files.of_rows (h : ix.Files C)
    (hentries : ∀ k r, ix'.entries.lookup k = some r → ix.entries.lookup k = some r)
    (hlisted : ∀ k r, ix'.entries.lookup k = some r → ix.entries.lookup k = some r →
      r.varyKey ∈ (ix.variants.lookup r.pkey).getD [] →
        r.varyKey ∈ (ix'.variants.lookup r.pkey).getD []) : ix'.Files C := by
  intro k r hr
  obtain ⟨hkey, hmem, hC⟩ := h k r (hentries k r hr)
  exact ⟨hkey, hlisted k r hr (hentries k r hr) hmem, hC⟩

/-- Entries of which only the stamps are others. -/
theorem Files.of_touched (h : ix.Files C) (hC : ∀ k r now, C k r → C k (touched now r))
    (hentries : ∀ k r, ix'.entries.lookup k = some r → ix.entries.lookup k = some r ∨
      ∃ old now, ix.entries.lookup k = some old ∧ r = touched now old)
    (hvariants : ix'.variants = ix.variants) : ix'.Files C := by
  have hlists : ∀ p m u, ix'.variantKeys p m u = ix.variantKeys p m u := fun p m u => by
    rw [variantKeys, variantKeys, hvariants]
  intro k r hr
  rw [hlists]
  rcases hentries k r hr with hsame | ⟨old, now, hold, rfl⟩
  · exact h k r hsame
  · obtain ⟨hkey, hmem, hold⟩ := h k old hold
    exact ⟨hkey, hmem, hC k old now hold⟩

/-- **An entry is written** and listed. -/
theorem Files.put {newBlobs : List (ContentId × BlobRecord)} {orphaned : List ContentId}
    (h : ix.Files C) (hrecord : C record.key record)
    (hput : ix.putEntry record newBlobs = .ok (orphaned, ix')) : ix'.Files C := by
  obtain ⟨blobs, -, rfl⟩ := putEntry_ok hput
  intro k r hr
  rcases eq_or_ne k record.key with rfl | hne
  · obtain rfl : record = r := by simpa using hr
    exact ⟨rfl, mem_listed_grown.mpr (Or.inr ⟨rfl, rfl⟩), hrecord⟩
  · obtain ⟨hkey, hmem, hC⟩ := h k r ((AList.lookup_insert_ne hne).symm.trans hr)
    exact ⟨hkey, mem_listed_grown.mpr (Or.inl hmem), hC⟩

/-- **An entry is put back**, which its URL lists. -/
theorem Files.refresh (h : ix.Files C) (hrecord : C record.key record)
    (hlisted : record.varyKey ∈ ix.variantKeys record.partition record.method record.url) :
    (ix.refreshEntry record).Files C := by
  intro k r hr
  rcases eq_or_ne k record.key with rfl | hne
  · obtain rfl : record = r := by simpa [refreshEntry] using hr
    exact ⟨rfl, hlisted, hrecord⟩
  · exact h k r ((AList.lookup_insert_ne hne).symm.trans hr)

/-- **An entry is taken out**, and off the list of its URL; no other is on that list
under the same name. -/
theorem Files.remove (h : ix.Files C) : (ix.removeEntry key).2.Files C := by
  rw [removeEntry]
  split
  · exact h
  · rename_i record hrecord
    refine h.of_rows (fun k r hr => lookup_of_removeKey hr) fun k r hr hold hmem => ?_
    refine mem_listed_shrunk.mpr ⟨hmem, fun hpkey hvary => ?_⟩
    have hsame : k = key := (h k r hold).1.symm.trans
      ((congrArg₂ variantKey hpkey hvary).trans (h key record hrecord).1)
    subst hsame
    exact absurd (hr.symm.trans (AList.lookup_erase _ _)) (by simp)

theorem variants_removeVariants {keys : List String} :
    (removeVariants pkey keys ix).2.variants = ix.variants := by
  induction keys generalizing ix with
  | nil => rfl
  | cons v keys ih => exact ih

/-- The variants that are taken out are gone. -/
theorem lookup_removeVariants {keys : List String} {v : String} (hv : v ∈ keys) :
    (removeVariants pkey keys ix).2.entries.lookup (variantKey pkey v) = none := by
  induction keys generalizing ix with
  | nil => exact absurd hv List.not_mem_nil
  | cons w keys ih =>
    rcases List.mem_cons.mp hv with rfl | hmem
    · refine Option.eq_none_iff_forall_ne_some.mpr fun r hr => ?_
      have herased : (removeKey (variantKey pkey v) ix).2.entries.lookup (variantKey pkey v) =
          some r := lookup_of_removeVariants hr
      exact absurd (herased.symm.trans (AList.lookup_erase _ _)) (by simp)
    · exact ih hmem

/-- **A URL is invalidated**: all it lists goes, and so its list may go. -/
theorem Files.invalidate {partition : Option String} {method url : String} (h : ix.Files C) :
    (ix.invalidate partition method url).2.Files C := by
  refine h.of_rows (fun k r hr => lookup_of_removeVariants hr) fun k r hr hold hmem => ?_
  refine mem_listed_erase.mpr ⟨fun hpkey => ?_, ?_⟩
  · have hkey : k = variantKey (primaryKey partition method url) r.varyKey :=
      (h k r hold).1.symm.trans (congrArg (variantKey · r.varyKey) hpkey)
    subst hkey
    rw [hpkey] at hmem
    exact absurd (hr.symm.trans (lookup_removeVariants hmem)) (by simp)
  · rwa [variants_removeVariants]

theorem variants_forget {id : ContentId} :
    (ix.forgetBlobIfUnreferenced id).2.variants = ix.variants := by
  rw [forgetBlobIfUnreferenced]
  split
  · split <;> rfl
  · rfl

theorem variants_grant {id : ContentId} {keys : List Bytes} :
    (ix.grantEligibility id keys).2.variants = ix.variants := by
  unfold grantEligibility
  split
  · rfl
  · simp only
    split <;> rfl

theorem Files.drop {expected : EntryRecord} {revoke : Bool} (h : ix.Files C) :
    (ix.dropEntryIfUnchanged key expected revoke).2.Files C := by
  rw [dropEntryIfUnchanged]
  split
  · simp only
    split
    · exact h.remove
    · exact h.remove
  · exact h

end Index

/-- The kind of an entry is not in its stamps. -/
def Stampless (C : String → EntryRecord → Prop) : Prop :=
  ∀ k r now, C k r → C k (Index.touched now r)

variable {C : String → EntryRecord → Prop}

/-- **A transaction that files what it writes leaves every entry filed.** -/
theorem IndexAct.run_files {ix ix' : Index} {β : Type} {a : IndexAct β} {b : β}
    (hC : Stampless C) (h : ix.Files C) (hfiles : a.Files C ix) (hrun : a.run ix = .ok (b, ix')) :
    ix'.Files C := by
  cases a with
  | putEntry record newBlobs => exact h.put hfiles hrun
  | refreshEntry record =>
    obtain rfl := (Prod.mk.inj (Except.ok.inj hrun)).2
    exact h.refresh hfiles.1 hfiles.2
  | invalidate partition method url =>
    obtain rfl := (Prod.mk.inj (Except.ok.inj hrun)).2
    exact h.invalidate
  | removeEntry key =>
    obtain rfl := (Prod.mk.inj (Except.ok.inj hrun)).2
    exact h.remove
  | dropBrokenEntry key expected =>
    obtain rfl := (Prod.mk.inj (Except.ok.inj hrun)).2
    exact h.drop
  | dropEntryHolding key expected =>
    obtain rfl := (Prod.mk.inj (Except.ok.inj hrun)).2
    exact h.drop
  | recordAccess key now tally =>
    obtain rfl := (Prod.mk.inj (Except.ok.inj hrun)).2
    refine h.of_touched hC (fun k r hr => ?_) rfl
    rcases key with _ | key
    · exact Or.inl hr
    · rcases hfound : ix.entries.lookup key with _ | old
      · simp only [Index.recordAccess, hfound] at hr
        exact Or.inl hr
      · simp only [Index.recordAccess, hfound] at hr
        rcases eq_or_ne k key with rfl | hne
        · rw [AList.lookup_insert] at hr
          exact Or.inr ⟨old, now, hfound, (Option.some.inj hr).symm⟩
        · rw [AList.lookup_insert_ne hne] at hr
          exact Or.inl hr
  | clear =>
    obtain rfl := (Prod.mk.inj (Except.ok.inj hrun)).2
    exact fun k r hr => absurd hr (by simp)
  | forgetBlobIfUnreferenced id =>
    have hentries := IndexAct.run_entries (a := .forgetBlobIfUnreferenced id) (fun ht => ht) hrun
    obtain rfl := (Prod.mk.inj (Except.ok.inj hrun)).2
    exact h.of_touched hC (fun k r hr => Or.inl (hentries ▸ hr)) Index.variants_forget
  | grantEligibility id keys =>
    have hentries := IndexAct.run_entries (a := .grantEligibility id keys) (fun ht => ht) hrun
    obtain rfl := (Prod.mk.inj (Except.ok.inj hrun)).2
    exact h.of_touched hC (fun k r hr => Or.inl (hentries ▸ hr)) Index.variants_grant
  | getEntry _ | variantKeys _ _ _ | allEntries | getBlob _ | blobTotals | orphanedBlobs
  | eligibleHashes _ | indexSri _ | staleSri | dropSri _ | contentForSri _ | bump _ _ =>
    obtain rfl := (Prod.mk.inj (Except.ok.inj hrun)).2
    exact h.of_rows (fun _ _ hr => hr) fun _ _ _ _ hmem => hmem

/-! ### An operation that is alone -/

/-- The index a transaction leaves, told from what it answers. -/
def IndexAct.leaves (ix : Index) {β : Type} (a : IndexAct β) : Except CacheError β → Index
  | .ok _ =>
    match a.run ix with
    | .ok (_, ix') => ix'
    | .error _ => ix
  | .error _ => ix

theorem IndexAct.leaves_ok {ix ix' : Index} {β : Type} {a : IndexAct β} {b : β}
    (hrun : a.run ix = .ok (b, ix')) : a.leaves ix (.ok b) = ix' := by
  rw [leaves, hrun]

/-- **The discipline of an operation that is alone**: it knows the index, and files what
it writes. -/
def filingDiscipline (C : String → EntryRecord → Prop) : Discipline CacheAct Index where
  may := fun {_} ix a =>
    match a with
    | .index a => a.Files C ix
    | _ => True
  sees := fun {_} ix a =>
    match a with
    | .index a => fun r => ∀ b, r = .ok b → ∃ ix', a.run ix = .ok (b, ix')
    | _ => fun _ => True
  next := fun {_} ix a =>
    match a with
    | .index a => fun r => a.leaves ix r
    | _ => fun _ => ix
  born := fun {_} ix _ => ix

/-- One step of an operation that is alone, in any weather. -/
def AloneStep {β : Type} (a : CacheAct β) (s : Store) (b : β) (s' : Store) : Prop :=
  ∃ w, Store.perform w 0 a s = some (b, s')

/-- **The discipline governs such steps.** -/
theorem filed_step (hC : Stampless C) {β : Type} (a : CacheAct β) (s : Store) (ix : Index) (b : β)
    (s' : Store) (h : s.index = ix ∧ ix.Files C) (hmay : (filingDiscipline C).may ix a)
    (hstep : AloneStep a s b s') : (filingDiscipline C).sees ix a b ∧
      s'.index = (filingDiscipline C).next ix a b ∧ ((filingDiscipline C).next ix a b).Files C := by
  obtain ⟨rfl, hix⟩ := h
  obtain ⟨w, hperform⟩ := hstep
  cases a with
  | index a =>
    rcases Store.perform_index.mp hperform with ⟨m, -, rfl, rfl⟩ | ⟨-, r, ix, hrun, rfl, rfl⟩ |
      ⟨-, e, -, rfl, rfl⟩
    · exact ⟨fun b hb => (nomatch hb), rfl, hix⟩
    · refine ⟨fun b hb => ?_, (IndexAct.leaves_ok hrun).symm, ?_⟩
      · rw [← Except.ok.inj hb]
        exact ⟨ix, hrun⟩
      · change (a.leaves s.index (.ok r)).Files C
        rw [IndexAct.leaves_ok hrun]
        exact a.run_files hC hix hmay hrun
    · exact ⟨fun b hb => (nomatch hb), rfl, hix⟩
  | file a =>
    rcases Store.perform_file.mp hperform with ⟨m, -, -, rfl⟩ | ⟨-, -, rfl⟩
    · exact ⟨trivial, rfl, hix⟩
    · exact ⟨trivial, rfl, hix⟩
  | gate a =>
    obtain ⟨gate, -, rfl⟩ := Store.perform_gate.mp hperform
    exact ⟨trivial, rfl, hix⟩
  | now =>
    obtain ⟨-, rfl⟩ := Store.perform_now.mp hperform
    exact ⟨trivial, rfl, hix⟩

/-! ### Headers and what they vary on -/

section Headers

variable {h h' stored fresh : HeaderMap}

theorem varyFields_congr (hall : (h.getAll header.vary).filterMap HeaderValue.toStr =
    (h'.getAll header.vary).filterMap HeaderValue.toStr) : varyFields h = varyFields h' := by
  rw [varyFields, varyFields, hall]

theorem varyFields_of_nil (hnil : h.getAll header.vary = []) : varyFields h = [] := by
  rw [varyFields, hnil]
  rfl

/-- **What storage does to a `Vary`**: it is kept as it reads, or left out. -/
theorem varyFields_forStorage : varyFields (StoredHeaders.forStorage h).toHeaderMap =
    if StoredHeaders.omits h header.vary then [] else varyFields h := by
  have hall := StoredHeaders.getAll_forStorage h header.vary
  split
  · rename_i homits
    rw [if_pos homits] at hall
    exact varyFields_of_nil hall
  · rename_i homits
    rw [if_neg homits] at hall
    refine varyFields_congr ?_
    rw [hall]
    induction h.getAll header.vary with
    | nil => rfl
    | cons v vs ih =>
      rcases hv : v.toStr with _ | text
      · simpa [hv] using ih
      · simpa [hv] using ih

/-- What is stored has no `Connection`. -/
theorem getAll_connection_forStorage :
    (StoredHeaders.forStorage h).toHeaderMap.getAll header.connection = [] := by
  rw [StoredHeaders.getAll_forStorage, if_pos]
  rw [StoredHeaders.omits, isHopByHop, show hopByHop.contains (toAsciiLowercase
    header.connection.text) = true from by decide, Bool.true_or, Bool.true_or]

/-- So where a confirmation is folded into what is stored, `Vary` is the one or the
other's. -/
theorem varyFields_fold (hstored : stored.getAll header.connection = []) :
    varyFields (StoredHeaders.forStorage (apply304 stored fresh)).toHeaderMap =
      if updatedBy304 fresh header.vary then varyFields fresh else varyFields stored := by
  have hconnection : (apply304 stored fresh).getAll header.connection = [] := by
    have hkept : updatedBy304 fresh header.connection = false := by
      rw [updatedBy304, isHopByHop, show hopByHop.contains (toAsciiLowercase
        header.connection.text) = true from by decide, Bool.true_or, Bool.not_true,
        Bool.and_false, Bool.false_and]
    rw [getAll_apply304, hkept, if_neg Bool.false_ne_true]
    exact hstored
  have homits : StoredHeaders.omits (apply304 stored fresh) header.vary = false := by
    rw [StoredHeaders.omits, connectionTokens, hconnection]
    decide
  rw [varyFields_forStorage, homits, if_neg Bool.false_ne_true]
  have hall : (apply304 stored fresh).getAll header.vary = _ := getAll_apply304
  split
  · rename_i hupdated
    rw [if_pos hupdated] at hall
    exact varyFields_congr (congrArg _ hall)
  · rename_i hupdated
    rw [if_neg hupdated] at hall
    exact varyFields_congr (congrArg _ hall)

end Headers

/-- **What an entry has of its `Vary`**: its fields are those of its headers, each of
them a field, and nothing of the connection it came by is stored with it. -/
structure EntryRecord.Sound (r : EntryRecord) : Prop where
  varies : r.varyFields = Syndeo.varyFields r.headers.toHeaderMap
  named : "*" ∉ r.varyFields
  endToEnd : r.headers.toHeaderMap.getAll header.connection = []

/-- **A fold leaves the fields alone**: the message that is folded in says nothing of
`Vary` that the entry would take, or says the same again. -/
def EntryRecord.FoldKeepsVary (r : EntryRecord) (fresh : HeaderMap) : Prop :=
  updatedBy304 fresh header.vary = true → Syndeo.varyFields fresh = r.varyFields

/-- **A response keeps its `Vary` when it is stored**: its `Connection` does not name
it, or it varies on nothing. -/
def Storing.KeepsVary (w : Storing) : Prop :=
  StoredHeaders.omits w.responseHeaders header.vary = false ∨ varyFields w.responseHeaders = []

theorem EntryRecord.Sound.fold {r : EntryRecord} {fresh : HeaderMap} (h : r.Sound)
    (hfold : r.FoldKeepsVary fresh) : EntryRecord.Sound
      { r with headers := .forStorage (apply304 r.headers.toHeaderMap fresh) } where
  varies := by
    simp only
    rw [varyFields_fold h.endToEnd]
    split
    · exact (hfold ‹_›).symm
    · exact h.varies
  named := h.named
  endToEnd := getAll_connection_forStorage

section Storing

variable {P : Platform} {opts : CacheOptions} {w : Storing} {bodyLen : ℕ}

/-- What is stored does not vary on everything. -/
theorem not_mem_varyFields_of_store
    (hstore : storability P w.method w.requestHeaders w.metadata bodyLen opts = .store) :
    "*" ∉ varyFields w.responseHeaders := by
  intro hmem
  have hvaries : variesOnEverything (varyFields w.responseHeaders) = true :=
    List.any_eq_true.mpr ⟨"*", hmem, decide_eq_true rfl⟩
  have hdeclined : w.OtherwiseDeclined P opts bodyLen :=
    Or.inr (Or.inr (Or.inr (Or.inr (Or.inr (Or.inl hvaries)))))
  obtain ⟨reason, hreject⟩ := storability_reject_iff.mpr (Or.inr hdeclined)
  exact nomatch hstore.symm.trans hreject

theorem Storing.KeepsVary.eq (hw : w.KeepsVary) {h : HeaderMap}
    (hvary : h.getAll header.vary = w.responseHeaders.getAll header.vary)
    (hconnection : h.getAll header.connection = w.responseHeaders.getAll header.connection) :
    varyFields w.responseHeaders = varyFields (StoredHeaders.forStorage h).toHeaderMap := by
  have hfields : varyFields h = varyFields w.responseHeaders := varyFields_congr (by rw [hvary])
  have homits : StoredHeaders.omits h header.vary =
      StoredHeaders.omits w.responseHeaders header.vary := by
    rw [StoredHeaders.omits, StoredHeaders.omits, connectionTokens, connectionTokens, hconnection]
  rw [varyFields_forStorage, homits, hfields]
  rcases hw with hw | hw
  · rw [hw, if_neg Bool.false_ne_true]
  · rw [hw, ite_self]

/-- The entry of a whole body. -/
theorem Storing.sound_record (hw : w.KeepsVary)
    (hstore : storability P w.method w.requestHeaders w.metadata bodyLen opts = .store)
    (receipt : WriteReceipt) (now : ℕ) : (w.record P receipt now).Sound where
  varies := hw.eq rfl rfl
  named := not_mem_varyFields_of_store hstore
  endToEnd := getAll_connection_forStorage

/-- The entry of a range. -/
theorem Storing.sound_partialRecord (hw : w.KeepsVary)
    (hstore : storability P w.method w.requestHeaders w.metadata bodyLen opts = .store)
    (existing : Option EntryRecord) (completeLen : Option ℕ) (segments : List Segment) (now : ℕ)
    (body : StoredBody) : EntryRecord.Sound
      { w.partialRecord P existing completeLen segments now with body := body } where
  varies := hw.eq (getAll_representationHeaders (by decide) (by decide))
    (getAll_representationHeaders (by decide) (by decide))
  named := not_mem_varyFields_of_store hstore
  endToEnd := getAll_connection_forStorage

end Storing

section Walk

variable {P : Platform} {opts : CacheOptions} {T : Index → Prop} {w : Storing} {β : Type}
  {ix : Index} {partition : Option String} {method url key : String} {requestHeaders : HeaderMap}
  {record : EntryRecord}

/-- **A transaction that files what it writes.** -/
theorem obeys_transact {a : IndexAct β} (hC : Stampless C) (hix : ix.Files C)
    (ha : a.Files C ix) :
    (ask a).run.Obeys (filingDiscipline C) (fun _ ix => ix.Files C) ix := by
  refine ⟨ha, fun r hr => ?_⟩
  change (a.leaves ix r).Files C
  rcases r with e | b
  · exact hix
  · obtain ⟨ix', hrun⟩ := hr b rfl
    rw [IndexAct.leaves_ok hrun]
    exact a.run_files hC hix ha hrun

/-- **A plain piece writes nothing that would have to be filed.** -/
theorem staysPlain_files (hC : Stampless C) : StaysPlain (filingDiscipline C) (Index.Files C) :=
  StaysPlain.of_act fun a ix ha hix => by
    cases a with
    | index a =>
      have hfiles : a.Files C ix := by
        cases a <;> first | exact ha.elim | trivial
      exact obeys_transact hC hix hfiles
    | _ => exact ⟨trivial, fun _ _ => hix⟩

theorem stays_putFiled (hC : Stampless C) {newBlobs : List (ContentId × BlobRecord)}
    (hrecord : C record.key record) :
    Stays (filingDiscipline C) (Index.Files C) (ask (.putEntry record newBlobs)) :=
  fun _ hix => obeys_transact hC hix hrecord

/-- What is read is what is there, and nothing changes. -/
theorem staysWith_readEntry : StaysWith (filingDiscipline C) (· = ix)
    (fun found => found = ix.entries.lookup key) (ask (.getEntry key)) := by
  rintro _ rfl
  refine ⟨trivial, fun r hr => ?_⟩
  rcases r with e | found
  · exact ⟨rfl, trivial⟩
  · obtain ⟨ix', hrun⟩ := hr found rfl
    exact ⟨rfl, (Prod.mk.inj (Except.ok.inj hrun)).1.symm⟩

/-- The entry that a request selects: it is there, a variant of the URL, and made for
such a request. -/
def EntryRecord.Selected (P : Platform) (ix : Index) (partition : Option String)
    (method url : String) (requestHeaders : HeaderMap) (key : String) (r : EntryRecord) : Prop :=
  ix.entries.lookup key = some r ∧ (∃ vkey, key = entryKey partition method url vkey) ∧
    selects P r requestHeaders = true

theorem staysWith_selectEntry : StaysWith (filingDiscipline C) (· = ix)
    (fun selected => ∀ key r, selected = some (key, r) →
      r.Selected P ix partition method url requestHeaders key)
    (selectVariant P partition method url requestHeaders) := by
  have hlist : StaysWith (filingDiscipline C) (· = ix) (fun keys => ∀ v ∈ keys, True)
      (ask (.variantKeys partition method url)) := by
    rintro _ rfl
    refine ⟨trivial, fun r hr => ?_⟩
    rcases r with e | keys
    · exact ⟨rfl, trivial⟩
    · exact ⟨rfl, fun _ _ => trivial⟩
  have hselects : StaysWith (filingDiscipline C) (· = ix) (fun selected => ∀ key r,
      selected = some (key, r) → (∃ v, True ∧ key = entryKey partition method url v) ∧
        some r = ix.entries.lookup key ∧ selects P r requestHeaders = true)
      (selectVariant P partition method url requestHeaders) :=
    staysWith_selects hlist fun v _ => staysWith_readEntry.mono fun found hfound r hr =>
      hr.symm.trans hfound
  refine hselects.mono fun selected hselected key r heq => ?_
  obtain ⟨⟨vkey, -, hkey⟩, hlookup, hmatches⟩ := hselected key r heq
  exact ⟨hlookup.symm, ⟨vkey, hkey⟩, hmatches⟩

/-! ### What an operation writes -/

/-- A `GET` and a `HEAD` of one URL are under different keys. -/
theorem entryKey_head_ne_get {vkey vkey' : String} :
    entryKey partition "HEAD" url vkey ≠ entryKey partition "GET" url vkey' := by
  intro h
  have hlist := congrArg String.toList h
  simp only [entryKey, variantKey, primaryKey, String.toList_append, List.append_assoc] at hlist
  have hrest := List.append_cancel_left hlist
  have hmethods := List.append_cancel_left hrest
  rw [show (toAsciiUppercase "HEAD").toList = ['H', 'E', 'A', 'D'] by decide,
    show (toAsciiUppercase "GET").toList = ['G', 'E', 'T'] by decide] at hmethods
  exact absurd (List.cons.inj hmethods).1 (by decide)

/-- A `HEAD` that is stored leaves alone the fields of the `GET` it is folded into. -/
def Storing.RefreshKeepsVary (P : Platform) (w : Storing) (ix : Index) : Prop :=
  eqIgnoreAsciiCase w.method "HEAD" = true → ∀ (key : String) (r : EntryRecord),
    r.Selected P ix w.partition "GET" (normalizeUrl P w.url) w.requestHeaders key →
      sameRepresentation P r.headers.toHeaderMap w.responseHeaders = true →
        r.FoldKeepsVary w.responseHeaders

/-- **What an operation keeps of every entry** while it is under way: that it is sound,
and that what the operation may fold into it leaves its fields alone. -/
def Storing.Kind (P : Platform) (w : Storing) (key : String) (r : EntryRecord) : Prop :=
  r.Sound ∧ (eqIgnoreAsciiCase w.method "HEAD" = true →
    (∃ vkey, key = entryKey w.partition "GET" (normalizeUrl P w.url) vkey) →
      selects P r w.requestHeaders = true →
        sameRepresentation P r.headers.toHeaderMap w.responseHeaders = true →
          r.FoldKeepsVary w.responseHeaders)

theorem stampless_sound : Stampless fun _ r => r.Sound := fun _ _ _ h => ⟨h.varies, h.named, h.endToEnd⟩

theorem Storing.stampless_kind : Stampless (w.Kind P) := fun k r now h =>
  ⟨stampless_sound k r now h.1, h.2⟩

theorem Storing.kind_record (hw : w.KeepsVary) {bodyLen : ℕ}
    (hstore : storability P w.method w.requestHeaders w.metadata bodyLen opts = .store)
    (receipt : WriteReceipt) (now : ℕ) :
    w.Kind P (w.record P receipt now).key (w.record P receipt now) := by
  refine ⟨w.sound_record hw hstore receipt now, fun hhead ⟨vkey, hkey⟩ => ?_⟩
  have hmethod : toAsciiUppercase w.method = "HEAD" :=
    (Text.eqIgnoreAsciiCase_iff.mp hhead).trans (by decide)
  have hrecord : (w.record P receipt now).key =
      entryKey w.partition "HEAD" (normalizeUrl P w.url) (w.vkey P) :=
    congrArg (entryKey w.partition · (normalizeUrl P w.url) (w.vkey P)) hmethod
  exact absurd (hrecord.symm.trans hkey) entryKey_head_ne_get

/-- **A `HEAD`** is folded into the `GET` that is there. -/
theorem stays_headFiled (hhead : eqIgnoreAsciiCase w.method "HEAD" = true) :
    Stays (filingDiscipline (w.Kind P)) (Index.Files (w.Kind P))
      (reconcileHead P w.partition (normalizeUrl P w.url) w.requestHeaders w.responseHeaders) := by
  intro ix hix
  refine obeys_run_bind.mpr ((staysWith_selectEntry ix rfl).mono fun r u hu => ?_)
  rcases r with e | selected
  · obtain ⟨rfl, -⟩ := hu
    exact hix
  · obtain ⟨rfl, hselected⟩ := hu
    rcases selected with _ | ⟨key, r⟩
    · exact hix
    · obtain ⟨hlookup, hvkey, hselects⟩ := hselected key r rfl
      obtain ⟨rfl, hlisted, hsound, hfold⟩ := hix key r hlookup
      change (reconcileWith P _ r w.responseHeaders).run.Obeys _ _ u
      simp only [reconcileWith]
      split
      · rename_i hsame
        have hkeeps := hfold hhead hvkey hselects hsame
        exact obeys_transact Storing.stampless_kind hix
          ⟨⟨hsound.fold hkeeps, fun _ _ _ _ => hkeeps⟩, hlisted⟩
      · have hremove : Stays (filingDiscipline (w.Kind P)) (Index.Files (w.Kind P))
            (ask (.removeEntry r.key)) :=
          staysPlain_files Storing.stampless_kind ⟨trivial, fun _ => trivial⟩
        exact (hremove.bind fun _ => (staysPlain_files Storing.stampless_kind
          (asks_plain dry_deleteOrphans)).bind fun _ => stays_pure) u hix

/-- **A confirmation** is folded into the entry that is there. -/
theorem obeys_confirmedFiled {freshHeaders : HeaderMap} {requestTime responseTime : ℕ}
    (hix : ix.Files fun _ r => r.Sound)
    (hfold : ∀ r, ix.entries.lookup key = some r → r.FoldKeepsVary freshHeaders) :
    (recordNotModified P key freshHeaders requestTime responseTime).run.Obeys
      (filingDiscipline fun _ r => r.Sound) (fun _ ix => ix.Files fun _ r => r.Sound) ix := by
  refine obeys_run_bind.mpr ((staysWith_readEntry ix rfl).mono fun r u hu => ?_)
  rcases r with e | found
  · obtain ⟨rfl, -⟩ := hu
    exact hix
  · obtain ⟨rfl, hfound⟩ := hu
    rcases found with _ | old
    · exact hix
    · obtain ⟨rfl, hlisted, hsound⟩ := hix key old hfound.symm
      have hput := obeys_transact (a := .refreshEntry (old.confirmed freshHeaders requestTime
        responseTime)) stampless_sound hix
        ⟨⟨(hsound.fold (hfold old hfound.symm)).varies, hsound.named,
          getAll_connection_forStorage⟩, hlisted⟩
      refine obeys_run_bind.mpr (hput.mono fun r u hu => ?_)
      rcases r with e | _
      · exact hu
      · exact StaysDry.confirmed (StaysPlain.dry (staysPlain_files stampless_sound)) u hu

theorem Storing.kind_partialRecord (hw : w.KeepsVary) {bodyLen : ℕ}
    (hstore : storability P w.method w.requestHeaders w.metadata bodyLen opts = .store)
    (hget : eqIgnoreAsciiCase w.method "GET" = true) (existing : Option EntryRecord)
    (completeLen : Option ℕ) (segments : List Segment) (now : ℕ) (body : StoredBody)
    (key : String) :
    w.Kind P key { w.partialRecord P existing completeLen segments now with body := body } := by
  refine ⟨w.sound_partialRecord hw hstore existing completeLen segments now body, fun hhead => ?_⟩
  have hsame := (Text.eqIgnoreAsciiCase_iff.mp hget).symm.trans (Text.eqIgnoreAsciiCase_iff.mp hhead)
  exact absurd hsame (by decide)

/-- **A store** files what it writes. -/
theorem stays_storeFiled {body : Bytes}
    (hw : storability P w.method w.requestHeaders w.metadata body.length opts = .store →
      w.KeepsVary) :
    Stays (filingDiscipline (w.Kind P)) (Index.Files (w.Kind P))
      (storeWithProvenance P opts w body) :=
  StaysPlain.store (K := fun _ => True) (staysPlain_files Storing.stampless_kind)
    (fun key => StaysWith.mono (Stays.with (staysPlain_files Storing.stampless_kind
      (x := ask (.getEntry key)) ⟨trivial, fun _ => trivial⟩)) fun _ _ _ _ => trivial)
    (fun hstore receipt now _ => stays_putFiled Storing.stampless_kind
      (Storing.kind_record (hw hstore) hstore receipt now))
    (fun _ hhead => stays_headFiled hhead)
    fun hstore _ hget _ _ _ _ hleaves => by
      obtain ⟨_, _, _, _, rfl⟩ := hleaves.fields
      exact stays_putFiled Storing.stampless_kind
        (Storing.kind_partialRecord (hw hstore) hstore hget _ _ _ _ _ _)

/-- **A store of a body that came in pieces** does too. -/
theorem stays_finishFiled {writer : BlobWriter}
    (hw : storability P w.method w.requestHeaders w.metadata writer.len opts = .store →
      w.KeepsVary) :
    Stays (filingDiscipline (w.Kind P)) (Index.Files (w.Kind P)) (finishStreamed P opts w writer) :=
  StaysPlain.finishStreamed (staysPlain_files Storing.stampless_kind)
    (fun hstore receipt now _ => stays_putFiled Storing.stampless_kind
      (Storing.kind_record (hw hstore) hstore receipt now))
    fun _ hhead => stays_headFiled hhead

end Walk

/-! ### Operations one at a time -/

variable (P : Platform) (opts : CacheOptions)

/-- **What an operation must keep of the fields that entries vary on**: what it stores
keeps its `Vary`, and what it folds in leaves an entry's fields alone. -/
def Op.KeepsVary (s : Store) : Op → Prop
  | .store w body =>
    storability P w.method w.requestHeaders w.metadata body.length opts = .store →
      w.KeepsVary ∧ w.RefreshKeepsVary P s.index
  | .finishStreamed w writer =>
    storability P w.method w.requestHeaders w.metadata writer.len opts = .store →
      w.KeepsVary ∧ w.RefreshKeepsVary P s.index
  | .recordNotModified key freshHeaders _ _ => ∀ r, s.index.entries.lookup key = some r →
    r.FoldKeepsVary freshHeaders
  | _ => True

/-- **One operation is begun**, such as the state allows, and goes on for so many of its
steps with nobody beside it. -/
def Turn (ok : Store → Op → Prop) (s s' : Store) : Prop :=
  ∃ op, ok s op ∧ (op.program P opts).Passes AloneStep s s'

/-- **The states that operations one at a time come by.** -/
abbrev OneAtATime (ok : Store → Op → Prop) : Store → Store → Prop :=
  Relation.ReflTransGen (Turn P opts ok)

variable {P opts} {s s' : Store} {op : Op}

theorem files_of_obeys {Q : Outcome → Index → Prop} (hC : Stampless C) (h : s.index.Files C)
    (hobeys : (op.program P opts).Obeys (filingDiscipline C) Q s.index)
    (hp : (op.program P opts).Passes AloneStep s s') : s'.index.Files C := by
  obtain ⟨ix, rfl, hix⟩ := hobeys.passes (I := fun s ix => s.index = ix ∧ ix.Files C)
    (fun a s t b s' => filed_step hC a s t b s') ⟨rfl, h⟩ hp
  exact hix

/-- A response that is stored, and what is kept of every entry meanwhile. -/
theorem Storing.files_kind {w : Storing} (h : s.index.Files fun _ r => r.Sound)
    (hrefresh : w.RefreshKeepsVary P s.index) : s.index.Files (w.Kind P) :=
  h.mono fun k r hr hsound => ⟨hsound, fun hhead hvkey hselects hsame =>
    hrefresh hhead k r ⟨hr, hvkey, hselects⟩ hsame⟩

/-- **One operation** leaves every entry filed and sound, wherever it comes by. -/
theorem sound_of_passes (h : s.index.Files fun _ r => r.Sound) (hop : op.KeepsVary P opts s)
    (hp : (op.program P opts).Passes AloneStep s s') : s'.index.Files fun _ r => r.Sound := by
  have hplain : StaysPlain (filingDiscipline fun _ r => r.Sound) (Index.Files fun _ r => r.Sound) :=
    staysPlain_files stampless_sound
  have hdry := StaysPlain.dry hplain
  have hstays : ∀ {α : Type} {x : CacheM α} {reply : α → Reply},
      op.run P opts = (do pure (reply (← x))) →
      Stays (filingDiscipline fun _ r => r.Sound) (Index.Files fun _ r => r.Sound) x →
      s'.index.Files fun _ r => r.Sound := fun hrun hx =>
    files_of_obeys stampless_sound h (by
      rw [Op.program, hrun]
      exact (hx.bind fun _ => stays_pure) s.index h) hp
  have hkept : ∀ {w : Storing}, s'.index.Files (w.Kind P) → s'.index.Files fun _ r => r.Sound :=
    fun hix => hix.mono fun _ _ _ hkind => hkind.1
  cases op with
  | store w body =>
    rcases hstore : storability P w.method w.requestHeaders w.metadata body.length opts with
      _ | reason
    · obtain ⟨hw, hrefresh⟩ := hop hstore
      exact hkept (files_of_obeys Storing.stampless_kind (w.files_kind h hrefresh)
        (((stays_storeFiled fun _ => hw).bind fun _ => stays_pure) _ (w.files_kind h hrefresh)) hp)
    · exact files_of_obeys stampless_sound h (hplain (x := (Op.store w body).run P opts)
        (Op.asks_plain_of_rejected ⟨rfl, rfl⟩ hstore) _ h) hp
  | finishStreamed w writer =>
    rcases hstore : storability P w.method w.requestHeaders w.metadata writer.len opts with
      _ | reason
    · obtain ⟨hw, hrefresh⟩ := hop hstore
      exact hkept (files_of_obeys Storing.stampless_kind (w.files_kind h hrefresh)
        (((stays_finishFiled fun _ => hw).bind fun _ => stays_pure) _ (w.files_kind h hrefresh)) hp)
    · exact files_of_obeys stampless_sound h (hplain (x := (Op.finishStreamed w writer).run P opts)
        (Op.asks_plain_of_rejected ⟨rfl, rfl⟩ hstore) _ h) hp
  | recordNotModified key freshHeaders requestTime responseTime =>
    refine files_of_obeys stampless_sound h (Q := fun _ ix => ix.Files fun _ r => r.Sound) ?_ hp
    refine obeys_run_bind.mpr ((obeys_confirmedFiled h hop).mono fun r u hu => ?_)
    rcases r with e | response
    · exact hu
    · exact hu
  | lookup partition method url requestHeaders => exact hstays rfl (hdry dry_lookup)
  | discardRepresentation key content => exact hstays rfl (hdry dry_discardRepresentation)
  | invalidate partition method url => exact hstays rfl (hdry dry_invalidateUrl)
  | purge partition method url => exact hstays rfl (hdry dry_purge)
  | enforceBudget => exact hstays rfl (hdry dry_enforceBudget)
  | collectGarbage => exact hstays rfl (hdry dry_collectGarbage)
  | clear => exact hstays rfl (hdry dry_clear)
  | grantPeerEligibility content declared =>
    exact hstays rfl (StaysDry.grantPeerEligibility hdry fun _ _ hix =>
      obeys_transact stampless_sound hix trivial)
  | bodyForPeer asked =>
    exact hstays rfl (StaysDry.bodyForPeer hdry fun _ _ hix =>
      obeys_transact stampless_sound hix trivial)
  | acceptPeerBody integrity body => exact hstays rfl (hdry dry_acceptPeerBody)

/-- The state an operation ends in, in weather that stays as it is. -/
def carried (P : Platform) (opts : CacheOptions) (w : Weather) (s : Store) (op : Op) :
    Option Store :=
  ((op.program P opts).exec (Store.perform w 0) s).map Prod.snd

theorem turn_of_carried {ok : Store → Op → Prop} {w : Weather} (hok : ok s op)
    (h : carried P opts w s op = some s') : Turn P opts ok s s' := by
  obtain ⟨⟨r, u⟩, hexec, rfl⟩ := Option.map_eq_some_iff.mp h
  exact ⟨op, hok, Prog.passes_of_exec (fun _ _ _ _ hperform => ⟨w, hperform⟩) hexec⟩

/-- **What is said of an entry's variant agrees** in every state that operations one at
a time come by, where each keeps what entries vary on. -/
theorem tuned_of_one_at_a_time (P : Platform) (opts : CacheOptions) (s : Store)
    (h : OneAtATime P opts (Op.KeepsVary P opts) .empty s) : s.index.Tuned := by
  have hfiles : s.index.Files fun _ r => r.Sound := by
    induction h with
    | refl => exact Index.files_empty
    | tail _ hturn ih =>
      obtain ⟨op, hop, hp⟩ := hturn
      exact sound_of_passes ih hop hp
  exact
    { varies := fun k r hr => (hfiles k r hr).2.2.varies
      named := fun k r hr => (hfiles k r hr).2.2.named
      keyed := fun k r hr => (hfiles k r hr).1.symm
      listed := fun k r hr => (hfiles k r hr).2.1 }

/-! ### A page and two confirmations -/

/-- A confirmation of the page, with these fields besides. -/
def pageConfirmed (fields : List (String × String)) : Op :=
  .recordNotModified (entryKey none "GET" "http://a.test/x" "")
    (toHeaderMap (("etag", "\"1\"") :: fields)) 20 20

/-- The page is stored, and then confirmed. -/
def pageCarried (fields : List (String × String)) : Option Store :=
  (carried .sample .default ⟨10, none⟩ .empty (.store pageStore [97])).bind fun s =>
    carried .sample .default ⟨20, none⟩ s (pageConfirmed fields)

theorem oneAtATime_page {fields : List (String × String)} {ok : Store → Op → Prop}
    (hstore : ok .empty (.store pageStore [97])) (hconfirm : ∀ s, ok s (pageConfirmed fields))
    (h : pageCarried fields = some s) : OneAtATime .sample .default ok .empty s := by
  obtain ⟨u, hu, hs⟩ := Option.bind_eq_some_iff.mp h
  exact (Relation.ReflTransGen.single (turn_of_carried hstore hu)).tail
    (turn_of_carried (hconfirm u) hs)

/-- A confirmation that says nothing of `Vary`. -/
theorem tuned_of_one_at_a_time_page : ∃ s,
    OneAtATime .sample .default (Op.KeepsVary .sample .default) .empty s ∧
      (rows s.index.entries).length = 1 ∧ s.index.Tuned := by
  have hrows : (pageCarried []).any fun s => (rows s.index.entries).length = 1 := by decide +kernel
  obtain ⟨s, hs, hlength⟩ := Option.any_eq_true _ _ |>.mp hrows
  have hrun : OneAtATime .sample .default (Op.KeepsVary .sample .default) .empty s :=
    oneAtATime_page (fun _ => ⟨Or.inl (by decide), fun hhead => absurd hhead (by decide)⟩)
      (fun _ _ _ hupdated => absurd hupdated (by decide)) hs
  exact ⟨s, hrun, of_decide_eq_true hlength, tuned_of_one_at_a_time _ _ _ hrun⟩

/-- **A confirmation that names a field to vary on** puts it into the headers alone. -/
theorem vary_confirmed_alone : ¬∀ (P : Platform) (opts : CacheOptions) (s : Store),
    OneAtATime P opts (fun _ _ => True) .empty s → s.index.Tuned := by
  intro h
  let key := entryKey none "GET" "http://a.test/x" ""
  let drifted : Store → Bool := fun s => (s.index.entries.lookup key).any fun r =>
    r.varyFields ≠ varyFields r.headers.toHeaderMap
  have hdrifted : (pageCarried [("vary", "accept-encoding")]).any drifted = true := by decide +kernel
  obtain ⟨s, hs, hdrifted⟩ := Option.any_eq_true _ _ |>.mp hdrifted
  obtain ⟨r, hr, hfields⟩ := Option.any_eq_true _ _ |>.mp hdrifted
  exact of_decide_eq_true hfields
    ((h .sample .default s (oneAtATime_page trivial (fun _ => trivial) hs)).varies key r hr)

end Syndeo
