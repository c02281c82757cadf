import Syndeo.Cache.Selection

/-!
# Which of several variants is selected

Where several stored variants match a request, the first one listed is taken, and
nothing in the list depends on what the responses say of their dates. The list is
that of the variants in the order in which they came: storing one again leaves it
where it is, and one that was dropped and is stored again comes last.

The order is told by the entries alone, whatever is listed: a run writes down, at
each of its steps, which entries are there that were not
(`Syndeo.arrivals`), and in every run of stores for one partition, method and URL
the entry that a request is given is, of those that match, the one that came first
(`Syndeo.first_arrived_selected`).
-/

namespace Syndeo

open Concurrent Tables
open Text (eqIgnoreAsciiCase toAsciiUppercase)
open Prog (Stays StaysWith stays_pure staysWith_pure exec_run_bind_ok)

/-! ### The order of arrival -/

/-- **The keys of the entries, in the order in which they came**: those that are gone
are taken off, and those that are new come last. -/
def arrivals (before after : Table String EntryRecord) (arrived : List String) : List String :=
  arrived.filter (fun k => (after.lookup k).isSome) ++
    after.keys.filter fun k => (before.lookup k).isNone

/-- What a run writes down at each of its steps. -/
def noteArrivals (_ : ℕ) {β : Type} (_ : CacheAct β) (s : Store) (_ : β) (s' : Store)
    (arrived : List String) : List String :=
  arrivals s.index.entries s'.index.entries arrived

/-- The operation stores a response for this partition, method and URL. -/
def Op.StoresFor (P : Platform) (partition : Option String) (method url : String) (op : Op) :
    Prop :=
  ∃ w bodyLen, op.Stores w bodyLen ∧ w.partition = partition ∧
    toAsciiUppercase w.method = toAsciiUppercase method ∧ normalizeUrl P w.url = normalizeUrl P url

/-- **All entries are variants of one URL, and it lists them as they came.** -/
structure Index.InOrder (pkey : String) (ix : Index) (arrived : List String) : Prop where
  entries : ∀ k r, ix.entries.lookup k = some r → r.key = k ∧ r.pkey = pkey
  listed : ((ix.variants.lookup pkey).getD []).map (variantKey pkey) = arrived
  others : ∀ q ≠ pkey, (ix.variants.lookup q).getD [] = []
  present : ∀ k, k ∈ arrived ↔ (ix.entries.lookup k).isSome = true
  nodup : arrived.Nodup

section InOrder

variable {pkey key : String} {ix ix' : Index} {arrived : List String} {r : EntryRecord}

theorem variantKey_inj {v v' : String} (h : variantKey pkey v = variantKey pkey v') : v = v' := by
  rw [variantKey, variantKey] at h
  exact String.append_right_inj _ |>.mp h

theorem EntryRecord.key_eq (h : r.pkey = pkey) : r.key = variantKey pkey r.varyKey := by
  rw [← h]
  rfl

namespace Index

theorem listed_shrunk {variants : Table String (List String)} {p q : String} {keys : List String} :
    ((if keys = [] then variants.erase p else variants.insert p keys).lookup q).getD [] =
      if q = p then keys else (variants.lookup q).getD [] := by
  rcases eq_or_ne q p with rfl | hne
  · rw [if_pos rfl]
    split
    · rename_i hnil
      rw [AList.lookup_erase, hnil]
      rfl
    · rw [AList.lookup_insert, Option.getD_some]
  · rw [if_neg hne]
    split
    · rw [AList.lookup_erase_ne hne]
    · rw [AList.lookup_insert_ne hne]

theorem inOrder_empty : Index.empty.InOrder pkey [] where
  entries k r h := absurd h (by simp [Index.empty])
  listed := by simp [Index.empty]
  others q _ := by simp [Index.empty]
  present k := by simp [Index.empty]
  nodup := List.nodup_nil

/-- **Where nothing comes**, the order is kept if the lists keep what is still there. -/
theorem InOrder.kept (h : ix.InOrder pkey arrived)
    (hentries : ∀ k r, ix'.entries.lookup k = some r → r.key = k ∧ r.pkey = pkey)
    (hshrunk : ∀ k, (ix'.entries.lookup k).isSome = true → (ix.entries.lookup k).isSome = true)
    (hlisted : ∀ q, (ix'.variants.lookup q).getD [] = ((ix.variants.lookup q).getD []).filter
      fun v => (ix'.entries.lookup (variantKey q v)).isSome) :
    ix'.InOrder pkey (arrivals ix.entries ix'.entries arrived) := by
  have hnew : ix'.entries.keys.filter (fun k => (ix.entries.lookup k).isNone) = [] := by
    refine List.filter_eq_nil_iff.mpr fun k hk hnone => ?_
    have hsome := hshrunk k (AList.lookup_isSome.mpr (AList.mem_keys.mpr hk))
    rw [Option.isNone_iff_eq_none.mp hnone] at hsome
    exact nomatch hsome
  rw [arrivals, hnew, List.append_nil]
  refine ⟨hentries, ?_, fun q hq => ?_, fun k => ?_, h.nodup.filter _⟩
  · rw [hlisted, ← h.listed, List.filter_map]
    rfl
  · rw [hlisted, h.others q hq, List.filter_nil]
  · rw [List.mem_filter, h.present]
    exact and_iff_right_of_imp (hshrunk k)

/-- Where the same entries are there and the lists are as they were. -/
theorem InOrder.same (h : ix.InOrder pkey arrived)
    (hentries : ∀ k r, ix'.entries.lookup k = some r → r.key = k ∧ r.pkey = pkey)
    (hsame : ∀ k, (ix'.entries.lookup k).isSome = (ix.entries.lookup k).isSome)
    (hvariants : ix'.variants = ix.variants) :
    ix'.InOrder pkey (arrivals ix.entries ix'.entries arrived) := by
  refine h.kept hentries (fun k hk => (hsame k).symm.trans hk) fun q => ?_
  rw [hvariants, List.filter_eq_self.mpr]
  intro v hv
  rcases eq_or_ne q pkey with rfl | hne
  · rw [hsame, ← h.present, ← h.listed]
    exact List.mem_map_of_mem hv
  · rw [h.others q hne] at hv
    exact nomatch hv

/-- One that was not there comes last. -/
theorem InOrder.arrivals_insert (h : ix.InOrder pkey arrived)
    (habsent : ix.entries.lookup key = none) :
    arrivals ix.entries (ix.entries.insert key r) arrived = arrived ++ [key] := by
  have hout : key ∉ ix.entries.keys := AList.lookup_eq_none.mp habsent
  have hstay : arrived.filter (fun k => ((ix.entries.insert key r).lookup k).isSome) = arrived := by
    refine List.filter_eq_self.mpr fun k hk => ?_
    rcases eq_or_ne k key with rfl | hne
    · rw [AList.lookup_insert]
      rfl
    · rw [AList.lookup_insert_ne hne]
      exact (h.present k).mp hk
  have hold : ix.entries.keys.filter (fun k => (ix.entries.lookup k).isNone) = [] := by
    refine List.filter_eq_nil_iff.mpr fun k hk hnone => ?_
    exact AList.lookup_eq_none.mp (Option.isNone_iff_eq_none.mp hnone) hk
  rw [arrivals, hstay, AList.keys_insert, List.erase_of_not_mem hout, List.filter_cons_of_pos, hold]
  rw [habsent]
  rfl

/-- **An entry is written**: it comes last, or it was there. -/
theorem InOrder.put {newBlobs : List (ContentId × BlobRecord)} {orphaned : List ContentId}
    (h : ix.InOrder pkey arrived) (hr : r.pkey = pkey)
    (hput : ix.putEntry r newBlobs = .ok (orphaned, ix')) :
    ix'.InOrder pkey (arrivals ix.entries ix'.entries arrived) := by
  obtain ⟨blobs, -, rfl⟩ := putEntry_ok hput
  have hkey := EntryRecord.key_eq hr
  have hentries : ∀ k r', (ix.entries.insert r.key r).lookup k = some r' →
      r'.key = k ∧ r'.pkey = pkey := by
    intro k r' hlookup
    rcases eq_or_ne k r.key with rfl | hne
    · rw [AList.lookup_insert] at hlookup
      obtain rfl := Option.some.inj hlookup
      exact ⟨rfl, hr⟩
    · rw [AList.lookup_insert_ne hne] at hlookup
      exact h.entries k r' hlookup
  have hthere : r.varyKey ∈ (ix.variants.lookup r.pkey).getD [] ↔
      (ix.entries.lookup r.key).isSome = true := by
    rw [← h.present, ← h.listed, hkey, hr]
    exact (List.mem_map_of_injective fun _ _ => variantKey_inj).symm
  by_cases hmem : r.varyKey ∈ (ix.variants.lookup r.pkey).getD []
  · rw [if_pos hmem]
    refine h.same hentries (fun k => ?_) rfl
    rcases eq_or_ne k r.key with rfl | hne
    · rw [AList.lookup_insert, hthere.mp hmem]
      rfl
    · rw [AList.lookup_insert_ne hne]
  · rw [if_neg hmem]
    have habsent : ix.entries.lookup r.key = none := by
      rw [← Option.not_isSome_iff_eq_none]
      exact fun hsome => hmem (hthere.mpr hsome)
    simp only
    rw [h.arrivals_insert habsent]
    refine ⟨hentries, ?_, fun q hq => ?_, fun k => ?_, ?_⟩
    · rw [hr, AList.lookup_insert, Option.getD_some, List.map_append, h.listed, hkey]
      rfl
    · rw [hr, AList.lookup_insert_ne hq, h.others q hq]
    · rw [List.mem_append, List.mem_singleton, h.present]
      rcases eq_or_ne k r.key with rfl | hne
      · simp
      · simp [AList.lookup_insert_ne hne, hne]
    · rw [List.nodup_append]
      refine ⟨h.nodup, List.nodup_singleton _, fun k hk k' hk' heq => ?_⟩
      rw [heq, List.mem_singleton.mp hk', h.present, habsent] at hk
      exact nomatch hk

/-- What is listed is there. -/
theorem InOrder.isSome_of_listed (h : ix.InOrder pkey arrived) {v : String}
    (hv : v ∈ (ix.variants.lookup pkey).getD []) :
    (ix.entries.lookup (variantKey pkey v)).isSome = true := by
  rw [← h.present, ← h.listed]
  exact List.mem_map_of_mem hv

/-- Where entries only go, the order is kept if the list of the URL keeps what is still
there, and no other list comes about. -/
theorem InOrder.fewer (h : ix.InOrder pkey arrived)
    (hfewer : ∀ k r, ix'.entries.lookup k = some r → ix.entries.lookup k = some r)
    (hothers : ∀ q ≠ pkey, (ix'.variants.lookup q).getD [] = [])
    (hlisted : (ix'.variants.lookup pkey).getD [] = ((ix.variants.lookup pkey).getD []).filter
      fun v => (ix'.entries.lookup (variantKey pkey v)).isSome) :
    ix'.InOrder pkey (arrivals ix.entries ix'.entries arrived) := by
  refine h.kept (fun k r hr => h.entries k r (hfewer k r hr)) (fun k hk => ?_) fun q => ?_
  · obtain ⟨r, hr⟩ := Option.isSome_iff_exists.mp hk
    rw [hfewer k r hr]
    rfl
  · rcases eq_or_ne q pkey with rfl | hne
    · exact hlisted
    · rw [hothers q hne, h.others q hne, List.filter_nil]

/-- **An entry is taken out**, and off its list. -/
theorem InOrder.remove (h : ix.InOrder pkey arrived) :
    (ix.removeEntry key).2.InOrder pkey
      (arrivals ix.entries (ix.removeEntry key).2.entries arrived) := by
  rcases hfound : ix.entries.lookup key with _ | record
  · have hnone : ix.removeEntry key = ([], ix) := by rw [removeEntry, hfound]
    rw [hnone]
    exact h.same h.entries (fun _ => rfl) rfl
  · obtain ⟨hkey, rfl⟩ := h.entries key record hfound
    have hsame : record.key = variantKey record.pkey record.varyKey := rfl
    have hentries : (ix.removeEntry key).2.entries = ix.entries.erase key := by
      rw [removeEntry, hfound]
      rfl
    have hvariants : ∀ q, ((ix.removeEntry key).2.variants.lookup q).getD [] =
        if q = record.pkey then
          ((ix.variants.lookup record.pkey).getD []).filter (· ≠ record.varyKey)
        else (ix.variants.lookup q).getD [] := fun q => by
      rw [removeEntry, hfound]
      simp only [removeKey]
      exact listed_shrunk
    refine h.fewer (fun k r hr => lookup_of_removeEntry hr) (fun q hq => ?_) ?_
    · rw [hvariants, if_neg hq, h.others q hq]
    · rw [hvariants, if_pos rfl, hentries]
      refine List.filter_congr fun v hv => ?_
      rcases eq_or_ne v record.varyKey with rfl | hne
      · rw [← hsame, hkey, AList.lookup_erase]
        simp
      · have hother : variantKey record.pkey v ≠ key := fun heq =>
          hne (variantKey_inj (heq.trans (hkey.symm.trans hsame)))
        rw [AList.lookup_erase_ne hother, h.isSome_of_listed hv, decide_eq_true hne]

/-- Nothing is taken out but what is as expected. -/
theorem InOrder.dropIfUnchanged {expected : EntryRecord} {revoke : Bool}
    (h : ix.InOrder pkey arrived) : (ix.dropEntryIfUnchanged key expected revoke).2.InOrder pkey
      (arrivals ix.entries (ix.dropEntryIfUnchanged key expected revoke).2.entries arrived) := by
  rw [dropEntryIfUnchanged]
  split
  · have hremoved : (ix.removeEntry key).2.InOrder pkey
        (arrivals ix.entries (ix.removeEntry key).2.entries arrived) := h.remove
    simp only
    split
    · exact ⟨hremoved.entries, hremoved.listed, hremoved.others, hremoved.present, hremoved.nodup⟩
    · exact hremoved
  · exact h.same h.entries (fun _ => rfl) rfl

/-- **A URL is invalidated**: all of it goes, or none of it where it is another. -/
theorem InOrder.invalidate {partition : Option String} {method url : String}
    (h : ix.InOrder pkey arrived) : (ix.invalidate partition method url).2.InOrder pkey
      (arrivals ix.entries (ix.invalidate partition method url).2.entries arrived) := by
  have hvariants : (ix.invalidate partition method url).2.variants =
      ix.variants.erase (primaryKey partition method url) := by
    rw [Index.invalidate]
    simp only [variants_removeVariants]
  have hfewer : ∀ k r, (ix.invalidate partition method url).2.entries.lookup k = some r →
      ix.entries.lookup k = some r := fun k r hr => lookup_of_removeVariants hr
  rcases eq_or_ne (primaryKey partition method url) pkey with rfl | hne
  · refine h.fewer hfewer (fun q hq => ?_) ?_
    · rw [hvariants, AList.lookup_erase_ne hq, h.others q hq]
    · rw [hvariants, AList.lookup_erase, List.filter_eq_nil_iff.mpr]
      · rfl
      · intro v hv hsome
        have hgone : (ix.invalidate partition method url).2.entries.lookup
            (variantKey (primaryKey partition method url) v) = none := lookup_removeVariants hv
        rw [hgone] at hsome
        exact nomatch hsome
  · have hempty : ix.invalidate partition method url =
        ([], { ix with variants := ix.variants.erase (primaryKey partition method url) }) := by
      rw [Index.invalidate, h.others _ hne]
      rfl
    rw [hempty]
    refine h.fewer (fun k r hr => hr) (fun q hq => ?_) ?_
    · simp only
      rcases eq_or_ne q (primaryKey partition method url) with rfl | hother
      · rw [AList.lookup_erase]
        rfl
      · rw [AList.lookup_erase_ne hother, h.others q hq]
    · simp only
      rw [AList.lookup_erase_ne hne.symm, List.filter_eq_self.mpr fun v hv => h.isSome_of_listed hv]

theorem InOrder.clear (h : ix.InOrder pkey arrived) :
    ix.clear.2.InOrder pkey (arrivals ix.entries ix.clear.2.entries arrived) :=
  h.fewer (fun k r hr => absurd hr (by simp [Index.clear])) (fun q _ => by simp [Index.clear])
    (by simp [Index.clear])

/-- Stamping an entry leaves it where it is. -/
theorem isSome_recordAccess {stamped : Option String} {now : ℕ} {tally : List (String × ℕ)} :
    ((ix.recordAccess stamped now tally).entries.lookup key).isSome =
      (ix.entries.lookup key).isSome := by
  rcases stamped with _ | k
  · rfl
  · rcases hfound : ix.entries.lookup k with _ | old
    · simp only [recordAccess, hfound]
    · simp only [recordAccess, hfound]
      rcases eq_or_ne key k with rfl | hne
      · rw [AList.lookup_insert, hfound]
        rfl
      · rw [AList.lookup_insert_ne hne]

end Index

/-- **A transaction that writes only variants of the URL, and puts none back,** keeps the
order. -/
theorem IndexAct.run_inOrder {β : Type} {a : IndexAct β} {b : β} (h : ix.InOrder pkey arrived)
    (hwrites : ∀ r, a.Writes r → r.pkey = pkey) (hrefresh : ¬(CacheAct.index a).Refreshes)
    (hrun : a.run ix = .ok (b, ix')) :
    ix'.InOrder pkey (arrivals ix.entries ix'.entries arrived) := by
  by_cases htouches : a.TouchesEntries
  · cases a with
    | putEntry record newBlobs => exact h.put (hwrites record rfl) hrun
    | refreshEntry record => exact absurd trivial hrefresh
    | invalidate partition method url =>
      obtain rfl := (Prod.mk.inj (Except.ok.inj hrun)).2
      exact h.invalidate
    | removeEntry key =>
      obtain rfl := (Prod.mk.inj (Except.ok.inj hrun)).2
      exact h.remove
    | dropBrokenEntry key expected =>
      obtain rfl := (Prod.mk.inj (Except.ok.inj hrun)).2
      exact h.dropIfUnchanged
    | dropEntryHolding key expected =>
      obtain rfl := (Prod.mk.inj (Except.ok.inj hrun)).2
      exact h.dropIfUnchanged
    | recordAccess key now tally =>
      obtain rfl := (Prod.mk.inj (Except.ok.inj hrun)).2
      refine h.same (fun k r hr => ?_) (fun k => Index.isSome_recordAccess) rfl
      rcases IndexAct.lookup_of_run (a := .recordAccess key now tally) rfl hr with
        ⟨hwritten, -⟩ | hold | ⟨old, stamp, hold, rfl⟩
      · exact hwritten.elim
      · exact h.entries k r hold
      · exact h.entries k old hold
    | clear =>
      obtain rfl := (Prod.mk.inj (Except.ok.inj hrun)).2
      exact h.clear
    | _ => exact htouches.elim
  · have hentries := IndexAct.run_entries htouches hrun
    have hvariants : ix'.variants = ix.variants := by
      cases a with
      | forgetBlobIfUnreferenced id =>
        obtain rfl := (Prod.mk.inj (Except.ok.inj hrun)).2
        exact Index.variants_forget
      | grantEligibility id keys =>
        obtain rfl := (Prod.mk.inj (Except.ok.inj hrun)).2
        exact Index.variants_grant
      | putEntry record newBlobs => exact absurd trivial htouches
      | invalidate partition method url => exact absurd trivial htouches
      | removeEntry key => exact absurd trivial htouches
      | dropBrokenEntry key expected => exact absurd trivial htouches
      | dropEntryHolding key expected => exact absurd trivial htouches
      | clear => exact absurd trivial htouches
      | _ =>
        obtain rfl := (Prod.mk.inj (Except.ok.inj hrun)).2
        rfl
    exact h.same (fun k r hr => h.entries k r (hentries ▸ hr)) (fun k => by rw [hentries]) hvariants

end InOrder

/-! ### The discipline -/

/-- **The discipline of a store**: it writes variants of the URL, refreshes nothing, and is
shown an index that is in order. -/
def arrivalDiscipline (pkey : String) : Discipline CacheAct Unit where
  may := fun {_} _ a =>
    match a with
    | .index a => (∀ r, a.Writes r → r.pkey = pkey) ∧ ¬(CacheAct.index a).Refreshes
    | _ => True
  sees := fun {_} _ a =>
    match a with
    | .index a => fun r => ∀ b, r = .ok b → ∃ ix ix' arrived,
        ix.InOrder pkey arrived ∧ a.run ix = .ok (b, ix')
    | _ => fun _ => True
  next := fun {_} _ _ _ => ()
  born := fun {_} _ _ => ()

section Walk

variable {P : Platform} {opts : CacheOptions} {pkey key : String} {w : Storing}
  {record : EntryRecord} {partition : Option String} {method url : String}

theorem staysPlain_arrivals : StaysPlain (arrivalDiscipline pkey) (fun _ => True) :=
  StaysPlain.of_act fun a _ ha _ => by
    cases a with
    | index a =>
      refine ⟨⟨?_, ?_⟩, fun _ _ => trivial⟩
      · cases a <;> first | exact ha.elim | exact fun _ h => h.elim
      · cases a <;> first | exact ha.elim | exact id
    | _ => exact ⟨trivial, fun _ _ => trivial⟩

theorem stays_putArrival {newBlobs : List (ContentId × BlobRecord)} (hrecord : record.pkey = pkey) :
    Stays (arrivalDiscipline pkey) (fun _ => True) (ask (.putEntry record newBlobs)) :=
  fun _ _ => ⟨⟨fun _ h => by rw [h]; exact hrecord, id⟩, fun _ _ => trivial⟩

/-- What is read is a variant of the URL. -/
theorem staysWith_readArrival : StaysWith (arrivalDiscipline pkey) (fun _ => True)
    (fun found => ∀ r, found = some r → r.key = key ∧ r.pkey = pkey) (ask (.getEntry key)) := by
  refine fun _ _ => ⟨⟨fun _ h => h.elim, id⟩, fun r hr => ?_⟩
  rcases r with e | found
  · exact ⟨trivial, trivial⟩
  · obtain ⟨ix, ix', arrived, horder, hrun⟩ := hr found rfl
    refine ⟨trivial, fun record hrecord => ?_⟩
    obtain rfl : ix.entries.lookup key = found := (Prod.mk.inj (Except.ok.inj hrun)).1
    exact horder.entries key record hrecord

/-- A store writes variants of its URL. -/
theorem EntryRecord.StoredAs.pkey_eq {r : EntryRecord} (h : r.StoredAs P w) :
    r.pkey = primaryKey w.partition w.method (normalizeUrl P w.url) := by
  rw [EntryRecord.pkey, h.partition, h.method, h.url, primaryKey, primaryKey,
    Text.toAsciiUppercase_toAsciiUppercase]

/-- **A stored `HEAD` finds no `GET`** to be folded into. -/
theorem stays_headArrival (hhead : eqIgnoreAsciiCase w.method "HEAD" = true) :
    Stays (arrivalDiscipline (primaryKey w.partition w.method (normalizeUrl P w.url)))
      (fun _ => True) (reconcileHead P w.partition (normalizeUrl P w.url) w.requestHeaders
        w.responseHeaders) := by
  refine staysPlain_arrivals.dry.reconcileHead (G := fun _ _ => False) ?_ fun _ _ h => h.elim
  have hlist : StaysWith
      (arrivalDiscipline (primaryKey w.partition w.method (normalizeUrl P w.url))) (fun _ => True)
      (fun keys => ∀ v ∈ keys, True)
      (ask (.variantKeys w.partition "GET" (normalizeUrl P w.url))) := by
    refine fun _ _ => ⟨⟨fun _ h => h.elim, id⟩, fun r _ => ?_⟩
    rcases r with e | keys
    · exact ⟨trivial, trivial⟩
    · exact ⟨trivial, fun _ _ => trivial⟩
  have hselects : StaysWith
      (arrivalDiscipline (primaryKey w.partition w.method (normalizeUrl P w.url)))
      (fun _ => True) (fun selected => ∀ key r, selected = some (key, r) →
        (∃ v, True ∧ key = entryKey w.partition "GET" (normalizeUrl P w.url) v) ∧
          (r.key = key ∧ r.pkey = primaryKey w.partition w.method (normalizeUrl P w.url)) ∧
            selects P r w.requestHeaders = true)
      (selectVariant P w.partition "GET" (normalizeUrl P w.url) w.requestHeaders) :=
    staysWith_selects hlist fun v _ => staysWith_readArrival
  refine hselects.mono fun selected hselected key r heq => ?_
  obtain ⟨⟨v, -, rfl⟩, ⟨hkey, hpkey⟩, -⟩ := hselected key r heq
  have hsame : entryKey w.partition "HEAD" (normalizeUrl P w.url) r.varyKey =
      entryKey w.partition "GET" (normalizeUrl P w.url) v := by
    rw [← hkey, EntryRecord.key_eq hpkey, primaryKey, Text.eqIgnoreAsciiCase_iff.mp hhead]
    rfl
  exact entryKey_head_ne_get hsame

/-- **A store, or what writes no entry,** keeps to the discipline. -/
theorem stays_arrivals {op : Op} (hop : op.StoresFor P partition method url ∨
    (op.run P opts).run.Asks CacheAct.Plain) :
    Stays (arrivalDiscipline (primaryKey partition method (normalizeUrl P url))) (fun _ => True)
      (op.run P opts) := by
  rcases hop with ⟨w, bodyLen, hstores, hpartition, hmethod, hurl⟩ | hop
  · have hpkey : primaryKey w.partition w.method (normalizeUrl P w.url) =
        primaryKey partition method (normalizeUrl P url) := by
      rw [primaryKey, primaryKey, hpartition, hmethod, hurl]
    rw [← hpkey]
    have hwhole : ∀ n, storability P w.method w.requestHeaders w.metadata n opts = .store →
        ∀ receipt now newBlobs, Stays
          (arrivalDiscipline (primaryKey w.partition w.method (normalizeUrl P w.url)))
          (fun _ => True) (ask (.putEntry (w.record P receipt now) newBlobs)) :=
      fun n hstore receipt now _ => stays_putArrival (EntryRecord.StoredAs.pkey_eq
        ⟨isCacheableMethod_of_store hstore, rfl, rfl, rfl, rfl⟩)
    cases op with
    | store w' body =>
      obtain ⟨rfl, -⟩ := hstores
      refine Stays.bind (StaysPlain.store staysPlain_arrivals (K := fun _ => True)
        (fun _ => staysWith_readArrival.mono fun _ _ _ _ => trivial) (hwhole _)
        (fun _ => stays_headArrival) fun hstore _ hget _ record _ _ hleaves => ?_)
        fun _ => stays_pure
      obtain ⟨_, _, _, _, rfl⟩ := hleaves.fields
      exact stays_putArrival (EntryRecord.StoredAs.pkey_eq ⟨isCacheableMethod_of_store hstore, rfl,
        (Text.eqIgnoreAsciiCase_iff.mp hget).symm, rfl, rfl⟩)
    | finishStreamed w' writer =>
      obtain ⟨rfl, -⟩ := hstores
      exact Stays.bind (StaysPlain.finishStreamed staysPlain_arrivals (hwhole _)
        fun _ => stays_headArrival) fun _ => stays_pure
    | _ => exact hstores.elim
  · exact staysPlain_arrivals hop

end Walk

/-- **The discipline governs the runs.** -/
theorem governs_arrivals {pkey : String} : Governs (cacheRuns.recording fun i _ => noteArrivals i)
    (arrivalDiscipline pkey) (fun s _ => s.1.index.InOrder pkey s.2) (fun _ _ _ => True) where
  child := fun _ _ _ _ _ _ hchild => absurd hchild (by simp [System.recording, cacheSystem,
    System.ofPerform])
  step := by
    rintro i n β a ⟨s, arrived⟩ b ⟨s', arrived'⟩ t - horder hmay ⟨⟨w, -, hperform⟩, hnote⟩
    obtain rfl : arrived' = arrivals s.index.entries s'.index.entries arrived := hnote
    change Store.perform w i a s = some (b, s') at hperform
    change s.index.InOrder pkey arrived at horder
    have hsame : ∀ u : Store, u.index = s.index →
        u.index.InOrder pkey (arrivals s.index.entries u.index.entries arrived) := fun u hu => by
      rw [hu]
      exact horder.same horder.entries (fun _ => rfl) rfl
    cases a with
    | index a =>
      rcases Store.perform_index.mp hperform with ⟨m, -, rfl, rfl⟩ | ⟨-, r, ix, hrun, rfl, rfl⟩ |
        ⟨-, e, -, rfl, rfl⟩
      · exact ⟨fun b hb => (nomatch hb), hsame _ rfl⟩
      · refine ⟨fun b hb => ?_, IndexAct.run_inOrder horder hmay.1 hmay.2 hrun⟩
        rw [← Except.ok.inj hb]
        exact ⟨s.index, ix, arrived, horder, hrun⟩
      · exact ⟨fun b hb => (nomatch hb), hsame _ rfl⟩
    | file a =>
      rcases Store.perform_file.mp hperform with ⟨m, -, -, rfl⟩ | ⟨-, -, rfl⟩
      · exact ⟨trivial, hsame _ rfl⟩
      · exact ⟨trivial, hsame _ rfl⟩
    | gate a =>
      obtain ⟨gate, -, rfl⟩ := Store.perform_gate.mp hperform
      exact ⟨trivial, hsame _ rfl⟩
    | now =>
      obtain ⟨-, rfl⟩ := Store.perform_now.mp hperform
      exact ⟨trivial, hsame _ rfl⟩

/-! ### What is selected -/

/-- The first of the entries under these keys that the request selects. -/
def firstSelected (P : Platform) (ix : Index) (requestHeaders : HeaderMap) :
    List String → Option (String × EntryRecord)
  | [] => none
  | key :: rest =>
    match ix.entries.lookup key with
    | some record =>
      if selects P record requestHeaders then some (key, record)
      else firstSelected P ix requestHeaders rest
    | none => firstSelected P ix requestHeaders rest

/-- **It is the first to have come**: there, selected, and before every other that is
selected; or there is none. -/
def FirstOf (P : Platform) (ix : Index) (arrived : List String) (requestHeaders : HeaderMap) :
    Option (String × EntryRecord) → Prop
  | none => ∀ k ∈ arrived, ∀ r, ix.entries.lookup k = some r → selects P r requestHeaders = false
  | some (key, record) => key ∈ arrived ∧ ix.entries.lookup key = some record ∧
    selects P record requestHeaders = true ∧ ∀ k ∈ arrived, ∀ r, ix.entries.lookup k = some r →
      selects P r requestHeaders = true → arrived.idxOf key ≤ arrived.idxOf k

section Selected

variable {P : Platform} {ix : Index} {requestHeaders : HeaderMap} {now i : ℕ} {s : Store}
  {partition : Option String} {method url : String}

theorem firstOf_firstSelected (arrived : List String) :
    FirstOf P ix arrived requestHeaders (firstSelected P ix requestHeaders arrived) := by
  induction arrived with
  | nil => exact fun k hk => nomatch hk
  | cons key rest ih =>
    -- where the first is not selected, neither what is chosen nor what is selected is it
    have hlater : (∀ r, ix.entries.lookup key = some r → selects P r requestHeaders = false) →
        FirstOf P ix (key :: rest) requestHeaders (firstSelected P ix requestHeaders rest) := by
      intro hnot
      rcases hfirst : firstSelected P ix requestHeaders rest with _ | ⟨first, record⟩
      · rw [hfirst] at ih
        intro k hk
        rcases List.mem_cons.mp hk with rfl | hk
        · exact hnot
        · exact ih k hk
      · rw [hfirst] at ih
        obtain ⟨hmem, hlookup, hselects, hbefore⟩ := ih
        have hother : ∀ k r, ix.entries.lookup k = some r → selects P r requestHeaders = true →
            key ≠ k := by
          rintro k r hk hr rfl
          rw [hnot r hk] at hr
          exact nomatch hr
        refine ⟨List.mem_cons_of_mem _ hmem, hlookup, hselects, fun k hk r hr hrselects => ?_⟩
        have hin : k ∈ rest := (List.mem_cons.mp hk).resolve_left (hother k r hr hrselects).symm
        rw [List.idxOf_cons_ne _ (hother first record hlookup hselects),
          List.idxOf_cons_ne _ (hother k r hr hrselects)]
        exact Nat.succ_le_succ (hbefore k hin r hr hrselects)
    rw [firstSelected]
    rcases hlookup : ix.entries.lookup key with _ | record
    · exact hlater fun r hr => nomatch hlookup.symm.trans hr
    · simp only
      split
      · rename_i hselects
        refine ⟨List.mem_cons_self, hlookup, hselects, fun k _ _ _ _ => ?_⟩
        rw [List.idxOf_cons_self]
        exact Nat.zero_le _
      · rename_i hselects
        refine hlater fun r hr => ?_
        obtain rfl := Option.some.inj (hlookup.symm.trans hr)
        simpa using hselects

/-- **Selecting, with nobody else at work.** -/
theorem alone_selectAmong (candidates : List String) :
    alone now i (selectAmong P partition method url requestHeaders candidates) s =
      some (.ok (firstSelected P s.index requestHeaders
        (candidates.map (entryKey partition method url))), s) := by
  induction candidates with
  | nil => rfl
  | cons candidate rest ih =>
    have hread : alone now i (ask (.getEntry (entryKey partition method url candidate))) s =
        some (.ok (s.index.entries.lookup (entryKey partition method url candidate)), s) := rfl
    rw [alone, selectAmong, exec_run_bind_ok hread, List.map_cons, firstSelected]
    rcases s.index.entries.lookup (entryKey partition method url candidate) with _ | record
    · exact ih
    · simp only
      split
      · rfl
      · exact ih

theorem alone_selectVariant : alone now i (selectVariant P partition method url requestHeaders) s =
    some (.ok (firstSelected P s.index requestHeaders
      ((s.index.variantKeys partition method url).map (entryKey partition method url))), s) := by
  have hread : alone now i (ask (.variantKeys partition method url)) s =
      some (.ok (s.index.variantKeys partition method url), s) := rfl
  rw [alone, selectVariant, exec_run_bind_ok hread]
  exact alone_selectAmong _

end Selected

/-- **What came first is what a request is given**: in every run of stores for one partition,
method and URL, with whatever else drops entries going on, the run's order of arrival lists
each entry that is there once, and of those that the request matches the one that came
first is selected, whatever their dates are. -/
theorem first_arrived_selected (P : Platform) (opts : CacheOptions) (partition : Option String)
    (method url : String) (ops : List Op) (c : Config CacheAct (Store × List String) Outcome)
    (now i : ℕ) (requestHeaders : HeaderMap)
    (hops : ∀ op ∈ ops, op.StoresFor P partition method url ∨
      (op.run P opts).run.Asks CacheAct.Plain)
    (hrun : (cacheRuns.recording fun i _ => noteArrivals i).Runs
      ⟨(.empty, []), ops.map (Op.program P opts)⟩ c) :
    (∀ k, k ∈ c.shared.2 ↔ (c.shared.1.index.entries.lookup k).isSome = true) ∧
      c.shared.2.Nodup ∧ ∃ found,
        alone now i (selectVariant P partition method (normalizeUrl P url) requestHeaders)
            c.shared.1 = some (.ok found, c.shared.1) ∧
          FirstOf P c.shared.1.index c.shared.2 requestHeaders found := by
  have hkept : Kept (arrivalDiscipline (primaryKey partition method (normalizeUrl P url)))
      (fun s _ => s.1.index.InOrder (primaryKey partition method (normalizeUrl P url)) s.2)
      (fun _ _ _ => True) c := by
    refine Kept.runs governs_arrivals ⟨fun _ => (), Index.inOrder_empty, fun j p hj => ?_⟩ hrun
    rw [List.getElem?_map] at hj
    obtain ⟨op, hop, rfl⟩ := Option.map_eq_some_iff.mp hj
    exact (stays_arrivals (hops op (List.mem_of_getElem? hop)) () trivial).mono
      fun _ _ _ => trivial
  obtain ⟨-, horder, -⟩ := hkept
  have hlisted : (c.shared.1.index.variantKeys partition method (normalizeUrl P url)).map
      (entryKey partition method (normalizeUrl P url)) = c.shared.2 := horder.listed
  refine ⟨horder.present, horder.nodup, _, ?_, firstOf_firstSelected c.shared.2⟩
  rw [← hlisted]
  exact alone_selectVariant

/-! ### A page that comes twice -/

/-- The page, and later the page as it varies on `Accept`. -/
def pageTwice : List Op :=
  [.store pageStore [97],
    .store { pageAccepting ["a"] with requestTime := 20, responseTime := 20 } [97]]

/-- One store runs to its end, and then the other. -/
def twiceSchedule : List (Weather × ℕ) :=
  List.replicate 10 (⟨10, none⟩, 0) ++ List.replicate 10 (⟨20, none⟩, 1)

theorem pageTwice_storesFor :
    ∀ op ∈ pageTwice, op.StoresFor .sample none "GET" "http://a.test/x" := by
  intro op hop
  rcases List.mem_cons.mp hop with rfl | hop
  · exact ⟨_, _, ⟨rfl, rfl⟩, rfl, rfl, rfl⟩
  · obtain rfl := List.mem_singleton.mp hop
    exact ⟨_, _, ⟨rfl, rfl⟩, rfl, rfl, rfl⟩

theorem first_arrived_selected_page : ∃ (s : Store) (arrived : List String),
    arrived.length = 2 ∧ ∃ found,
      alone 20 1 (selectVariant .sample none "GET" (normalizeUrl .sample "http://a.test/x")
        (pageAccepting ["a"]).requestHeaders) s = some (.ok found, s) ∧
      FirstOf .sample s.index arrived (pageAccepting ["a"]).requestHeaders found := by
  let both : Config CacheAct (Store × List String) Outcome → Bool := fun c => c.shared.2.length = 2
  have hfollow : ((⟨(.empty, []), pageTwice.map (Op.program .sample .default)⟩ :
      Config CacheAct (Store × List String) Outcome).follow (noting noteArrivals Store.perform)
      (fun {_} _ => none) twiceSchedule).any both = true := by decide +kernel
  obtain ⟨c, hrun, hboth⟩ := exists_cacheRuns_noting noteArrivals hfollow
  obtain ⟨-, -, hfirst⟩ := first_arrived_selected .sample .default none "GET" "http://a.test/x"
    pageTwice c 20 1 (pageAccepting ["a"]).requestHeaders
    (fun op hop => Or.inl (pageTwice_storesFor op hop)) hrun
  exact ⟨c.shared.1, c.shared.2, of_decide_eq_true hboth, hfirst⟩

/-- When the response that the entry is made of says it was made, or else when it came. -/
def EntryRecord.dated (P : Platform) (r : EntryRecord) : ℕ :=
  (headerDate P r.headers.toHeaderMap header.date).getD r.responseTime

/-- The page that is selected for `Accept: a` is older than another that is too. -/
def olderSelected (ix : Index) : Bool :=
  match firstSelected .sample ix (pageAccepting ["a"]).requestHeaders
      ((ix.variantKeys none "GET" (normalizeUrl .sample "http://a.test/x")).map
        (entryKey none "GET" (normalizeUrl .sample "http://a.test/x"))) with
  | some (_, r) => (rows ix.entries).any fun row =>
    selects .sample row.2 (pageAccepting ["a"]).requestHeaders &&
      r.dated .sample < row.2.dated .sample
  | none => false

/-- **The earlier page is selected**, though the later one matches too. -/
theorem earlier_page_selected : ¬∀ (P : Platform) (opts : CacheOptions)
    (partition : Option String) (method url : String) (ops : List Op)
    (c : Config CacheAct Store Outcome) (now i : ℕ) (requestHeaders : HeaderMap),
    (∀ op ∈ ops, op.StoresFor P partition method url) →
    cacheRuns.Runs (running P opts .empty ops) c →
    ∀ key r, alone now i (selectVariant P partition method (normalizeUrl P url) requestHeaders)
        c.shared = some (.ok (some (key, r)), c.shared) →
      ∀ k r', c.shared.index.entries.lookup k = some r' → selects P r' requestHeaders = true →
        r'.dated P ≤ r.dated P := by
  intro h
  have hfollow : ((running .sample .default .empty pageTwice).follow Store.perform
      (fun {_} _ => none) twiceSchedule).any (fun c => olderSelected c.shared.index) = true := by
    decide +kernel
  obtain ⟨c, hrun, holder⟩ := exists_cacheRuns hfollow
  rw [olderSelected] at holder
  split at holder
  · rename_i key r hfirst
    obtain ⟨⟨k, r'⟩, hrow, hboth⟩ := List.any_eq_true.mp holder
    obtain ⟨hselects, hlater⟩ := Bool.and_eq_true_iff.mp hboth
    have hle := h .sample .default none "GET" "http://a.test/x" pageTwice c 20 1
      (pageAccepting ["a"]).requestHeaders pageTwice_storesFor hrun key r
      (by rw [alone_selectVariant, hfirst]) k r' (mem_rows_iff.mp hrow) hselects
    exact absurd (of_decide_eq_true hlater) (not_lt_of_ge hle)
  · exact nomatch holder

end Syndeo
