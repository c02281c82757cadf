import Syndeo.Cache.Boundary
import Syndeo.Cache.Variants
import Syndeo.Data.Separated

/-!
# Partitions

What one site loaded another must not be told of, so an entry belongs to the
partition it was stored under. The key says which: it is the partition, the
method, the URL and the variant, one after another with a separator between, and
an absent partition is spelt as the empty one. So keys tell partitions apart where
none is the empty name and none has the separator in it (`Syndeo.entryKey_inj`),
and that is what `Syndeo.Separable` says of a partition.

Two operations under way at once share the index, and a lookup comes by entries
that any of them wrote. What it may touch is told by the key
(`Syndeo.LookupScope`), what is there under a key by who wrote it
(`Syndeo.EntryRecord.StoredAs`), and where keys tell partitions apart a lookup
touches and returns only what was stored for it (`Syndeo.partitions_apart`).
-/

namespace Syndeo

open Concurrent Tables Separated
open Text (eqIgnoreAsciiCase toAsciiUppercase upperChar)
open Prog (Stays StaysWith stays_pure staysWith_pure staysWith_throw obeys_run_bind)

/-! ### Keys -/

/-- What stands between the parts of a key. -/
def keySeparator : Char := '\x01'

/-- **A partition that keys tell apart from all others**: it is not the empty name,
which an absent one is spelt as, and the separator is not in it. -/
def Separable (partition : Option String) : Prop :=
  partition ≠ some "" ∧ keySeparator ∉ (partition.getD "").toList

instance {partition : Option String} : Decidable (Separable partition) :=
  inferInstanceAs (Decidable (_ ∧ _))

section Keys

variable {p q : Option String} {m n u v vkey vkey' : String}

theorem Separable.inj (hp : Separable p) (hq : Separable q) (h : p.getD "" = q.getD "") : p = q := by
  rcases p with _ | p
  · rcases q with _ | q
    · rfl
    · exact absurd (congrArg some h.symm) hq.1
  · rcases q with _ | q
    · exact absurd (congrArg some h) hp.1
    · exact congrArg some h

theorem separator_not_mem_upper (hm : keySeparator ∉ m.toList) :
    keySeparator ∉ (toAsciiUppercase m).toList := by
  rw [toAsciiUppercase, String.toList_ofList]
  intro hmem
  obtain ⟨c, hc, hupper⟩ := List.mem_map.mp hmem
  rw [Text.upperChar_eq_iff (by decide)] at hupper
  exact hm (hupper ▸ hc)

theorem toList_primaryKey : (primaryKey p m u).toList =
    (p.getD "").toList ++ keySeparator :: ((toAsciiUppercase m).toList ++ keySeparator ::
      u.toList) := by
  have hsep : "\x01".toList = [keySeparator] := rfl
  simp [primaryKey, String.toList_append, hsep]

/-- **Primary keys are of one partition, one method and one URL.** -/
theorem primaryKey_inj (hp : Separable p) (hq : Separable q) (hm : keySeparator ∉ m.toList)
    (hn : keySeparator ∉ n.toList) (h : primaryKey p m u = primaryKey q n v) :
    p = q ∧ toAsciiUppercase m = toAsciiUppercase n ∧ u = v := by
  have hlist := congrArg String.toList h
  rw [toList_primaryKey, toList_primaryKey] at hlist
  obtain ⟨hpartition, hrest⟩ := append_cons_inj hp.2 hq.2 hlist
  obtain ⟨hmethod, hurl⟩ := append_cons_inj (separator_not_mem_upper hm)
    (separator_not_mem_upper hn) hrest
  exact ⟨hp.inj hq (String.toList_injective hpartition), String.toList_injective hmethod,
    String.toList_injective hurl⟩

/-- **And entry keys of one variant.** -/
theorem entryKey_inj (hp : Separable p) (hq : Separable q) (hm : keySeparator ∉ m.toList)
    (hn : keySeparator ∉ n.toList) (hvkey : keySeparator ∉ vkey.toList)
    (hvkey' : keySeparator ∉ vkey'.toList) (h : entryKey p m u vkey = entryKey q n v vkey') :
    p = q ∧ toAsciiUppercase m = toAsciiUppercase n ∧ u = v ∧ vkey = vkey' := by
  have hsep : "\x01".toList = [keySeparator] := rfl
  have hlist := congrArg String.toList h
  simp only [entryKey, variantKey, String.toList_append, hsep, List.append_assoc,
    List.singleton_append] at hlist
  obtain ⟨hpkey, hvary⟩ := append_cons_inj_last hvkey hvkey' hlist
  obtain ⟨hpartition, hmethod, hurl⟩ := primaryKey_inj hp hq hm hn (String.toList_injective hpkey)
  exact ⟨hpartition, hmethod, hurl, String.toList_injective hvary⟩

/-- The secondary key is a digest or nothing. -/
theorem separator_not_mem_varyKey (P : Platform) (fields : List String)
    (requestHeaders : HeaderMap) : keySeparator ∉ (varyKey P fields requestHeaders).toList := by
  rcases fields with _ | ⟨field, fields⟩
  · exact List.not_mem_nil
  · rw [varyKey, String.toList_ofList]
    · exact fun hmem => absurd (le_toNat_of_mem_hexDigits hmem) (by decide)
    · exact nofun

theorem separator_not_mem_method (hm : isCacheableMethod m = true) : keySeparator ∉ m.toList := by
  intro hmem
  have hupper : keySeparator ∈ (toAsciiUppercase m).toList := by
    rw [toAsciiUppercase, String.toList_ofList]
    exact List.mem_map.mpr ⟨keySeparator, hmem, by decide⟩
  rw [isCacheableMethod, List.contains_iff_mem] at hm
  rcases List.mem_cons.mp hm with hget | hhead
  · rw [hget] at hupper
    exact absurd hupper (by decide)
  · rw [List.mem_singleton.mp hhead] at hupper
    exact absurd hupper (by decide)

end Keys

/-! ### What a transaction reaches and writes -/

/-- The transaction has to do with the entry under this key. -/
def IndexAct.Reaches (ix : Index) : ∀ {β : Type}, IndexAct β → String → Prop
  | _, .getEntry k, key => key = k
  | _, .putEntry record _, key => key = record.key
  | _, .refreshEntry record, key => key = record.key
  | _, .removeEntry k, key => key = k
  | _, .dropBrokenEntry k _, key => key = k
  | _, .dropEntryHolding k _, key => key = k
  | _, .recordAccess k _ _, key => k = some key
  | _, .invalidate partition method url, key =>
    ∃ v ∈ ix.variantKeys partition method url, key = entryKey partition method url v
  | _, .allEntries, _ => True
  | _, .clear, _ => True
  | _, _, _ => False

/-- **The transaction touches an entry**: it reads, stamps, replaces or drops it. -/
def IndexAct.Touches (ix : Index) {β : Type} (a : IndexAct β) (r : EntryRecord) : Prop :=
  ∃ key, a.Reaches ix key ∧ ix.entries.lookup key = some r

/-- The transaction writes this entry. -/
def IndexAct.Writes : ∀ {β : Type}, IndexAct β → EntryRecord → Prop
  | _, .putEntry record _, r => r = record
  | _, .refreshEntry record, r => r = record
  | _, _, _ => False

section Transactions

variable {ix ix' : Index} {β : Type} {a : IndexAct β} {b : β}

/-- **What is in the index afterwards** was written, or was there before, or is what was
there with another stamp. -/
theorem IndexAct.lookup_of_run {k : String} {r : EntryRecord} (hrun : a.run ix = .ok (b, ix'))
    (h : ix'.entries.lookup k = some r) : a.Writes r ∧ r.key = k ∨
      ix.entries.lookup k = some r ∨
        ∃ old now, ix.entries.lookup k = some old ∧ r = Index.touched now old := by
  have hwritten : ∀ {record : EntryRecord}, ix'.entries = ix.entries.insert record.key record →
      r = record ∧ r.key = k ∨ ix.entries.lookup k = some r := by
    intro record hentries
    rw [hentries] at h
    rcases eq_or_ne k record.key with rfl | hne
    · rw [AList.lookup_insert] at h
      obtain rfl := Option.some.inj h
      exact Or.inl ⟨rfl, rfl⟩
    · rw [AList.lookup_insert_ne hne] at h
      exact Or.inr h
  by_cases htouches : a.TouchesEntries
  · cases a with
    | putEntry record newBlobs =>
      exact (hwritten (Index.putEntry_eq hrun).2).imp_right Or.inl
    | refreshEntry record =>
      obtain rfl := (Prod.mk.inj (Except.ok.inj hrun)).2
      exact (hwritten rfl).imp_right Or.inl
    | recordAccess key now tally =>
      obtain rfl := (Prod.mk.inj (Except.ok.inj hrun)).2
      refine Or.inr ?_
      rcases key with _ | key
      · exact Or.inl h
      · rcases hfound : ix.entries.lookup key with _ | old
        · simp only [Index.recordAccess, hfound] at h
          exact Or.inl h
        · simp only [Index.recordAccess, hfound] at h
          rcases eq_or_ne k key with rfl | hne
          · rw [AList.lookup_insert] at h
            exact Or.inr ⟨old, now, hfound, (Option.some.inj h).symm⟩
          · rw [AList.lookup_insert_ne hne] at h
            exact Or.inl h
    | invalidate partition method url =>
      exact Or.inr (Or.inl
        (IndexAct.lookup_of_takesOut (a := .invalidate partition method url) trivial hrun h))
    | removeEntry key =>
      exact Or.inr (Or.inl (IndexAct.lookup_of_takesOut (a := .removeEntry key) trivial hrun h))
    | dropBrokenEntry key expected =>
      exact Or.inr (Or.inl
        (IndexAct.lookup_of_takesOut (a := .dropBrokenEntry key expected) trivial hrun h))
    | dropEntryHolding key expected =>
      exact Or.inr (Or.inl
        (IndexAct.lookup_of_takesOut (a := .dropEntryHolding key expected) trivial hrun h))
    | clear => exact Or.inr (Or.inl (IndexAct.lookup_of_takesOut (a := .clear) trivial hrun h))
    | _ => exact htouches.elim
  · rw [IndexAct.run_entries htouches hrun] at h
    exact Or.inr (Or.inl h)

/-- **What a URL lists afterwards** is the variant of an entry that was written, or was
listed before. -/
theorem IndexAct.listed_of_run {pkey v : String} (hrun : a.run ix = .ok (b, ix'))
    (h : v ∈ (ix'.variants.lookup pkey).getD []) :
    (∃ r, a.Writes r ∧ v = r.varyKey) ∨ v ∈ (ix.variants.lookup pkey).getD [] := by
  have hremoved : ∀ {key : String},
      v ∈ ((ix.removeEntry key).2.variants.lookup pkey).getD [] →
        v ∈ (ix.variants.lookup pkey).getD [] := by
    intro key hmem
    rw [Index.removeEntry] at hmem
    split at hmem
    · exact hmem
    · exact (mem_listed_shrunk.mp hmem).1
  have hdropped : ∀ {key : String} {expected : EntryRecord} {revoke : Bool},
      v ∈ ((ix.dropEntryIfUnchanged key expected revoke).2.variants.lookup pkey).getD [] →
        v ∈ (ix.variants.lookup pkey).getD [] := by
    intro key expected revoke hmem
    rw [Index.dropEntryIfUnchanged] at hmem
    split at hmem
    · simp only at hmem
      split at hmem
      · exact hremoved hmem
      · exact hremoved hmem
    · exact hmem
  cases a with
  | putEntry record newBlobs =>
    obtain ⟨blobs, -, rfl⟩ := Index.putEntry_ok hrun
    rcases mem_listed_grown.mp h with hold | ⟨-, rfl⟩
    · exact Or.inr hold
    · exact Or.inl ⟨record, rfl, rfl⟩
  | invalidate partition method url =>
    obtain rfl := (Prod.mk.inj (Except.ok.inj hrun)).2
    have hkept := (mem_listed_erase.mp h).2
    rw [Index.variants_removeVariants] at hkept
    exact Or.inr hkept
  | removeEntry key =>
    obtain rfl := (Prod.mk.inj (Except.ok.inj hrun)).2
    exact Or.inr (hremoved h)
  | dropBrokenEntry key expected =>
    obtain rfl := (Prod.mk.inj (Except.ok.inj hrun)).2
    exact Or.inr (hdropped h)
  | dropEntryHolding key expected =>
    obtain rfl := (Prod.mk.inj (Except.ok.inj hrun)).2
    exact Or.inr (hdropped h)
  | clear =>
    obtain rfl := (Prod.mk.inj (Except.ok.inj hrun)).2
    exact absurd h (by simp)
  | forgetBlobIfUnreferenced id =>
    have hvariants : ix'.variants = ix.variants :=
      (congrArg Index.variants (Prod.mk.inj (Except.ok.inj hrun)).2).symm.trans Index.variants_forget
    exact Or.inr (hvariants ▸ h)
  | grantEligibility id keys =>
    have hvariants : ix'.variants = ix.variants :=
      (congrArg Index.variants (Prod.mk.inj (Except.ok.inj hrun)).2).symm.trans Index.variants_grant
    exact Or.inr (hvariants ▸ h)
  | _ =>
    obtain rfl := (Prod.mk.inj (Except.ok.inj hrun)).2
    exact Or.inr h

end Transactions

/-! ### The discipline -/

/-- **Every entry is under its own key** and of the kind `G`, and no variant that is
listed has the separator in it. -/
structure Index.Named (G : EntryRecord → Prop) (ix : Index) : Prop where
  entries : ∀ k r, ix.entries.lookup k = some r → r.key = k ∧ G r
  listed : ∀ pkey, ∀ v ∈ (ix.variants.lookup pkey).getD [], keySeparator ∉ v.toList

/-- What makes a kind of entries one that stays: the stamps are no part of it, and no
variant of it has the separator. -/
structure Enduring (G : EntryRecord → Prop) : Prop where
  touched : ∀ r now, G r → G (Index.touched now r)
  variant : ∀ r, G r → keySeparator ∉ r.varyKey.toList

variable {G : EntryRecord → Prop}

theorem Index.named_empty : Index.empty.Named G where
  entries k r h := absurd h (by simp [Index.empty])
  listed pkey v h := absurd h (by simp [Index.empty])

/-- **A transaction that writes entries of the kind keeps the index so.** -/
theorem IndexAct.run_named {ix ix' : Index} {β : Type} {a : IndexAct β} {b : β} (hG : Enduring G)
    (h : ix.Named G) (hwrites : ∀ r, a.Writes r → G r) (hrun : a.run ix = .ok (b, ix')) :
    ix'.Named G where
  entries k r hr := by
    rcases IndexAct.lookup_of_run hrun hr with ⟨hwritten, hkey⟩ | hold | ⟨old, now, hold, rfl⟩
    · exact ⟨hkey, hwrites r hwritten⟩
    · exact h.entries k r hold
    · exact ⟨(h.entries k old hold).1, hG.touched old now (h.entries k old hold).2⟩
  listed pkey v hv := by
    rcases IndexAct.listed_of_run hrun hv with ⟨r, hwritten, rfl⟩ | hold
    · exact hG.variant r (hwrites r hwritten)
    · exact h.listed pkey v hold

/-- **The discipline of a thread with a scope**: it writes entries of the kind, has to do
with no entry outside its scope, and is shown the index as it is. -/
def scopeDiscipline (G : EntryRecord → Prop) : Discipline CacheAct (String → Prop) where
  may := fun {_} scope a =>
    match a with
    | .index a => (∀ r, a.Writes r → G r) ∧ ∀ ix key, a.Reaches ix key → scope key
    | _ => True
  sees := fun {_} _ a =>
    match a with
    | .index a => fun r => ∀ b, r = .ok b → ∃ ix ix', ix.Named G ∧ a.run ix = .ok (b, ix')
    | _ => fun _ => True
  next := fun {_} scope _ _ => scope
  born := fun {_} scope _ => scope

section Walk

variable {P : Platform} {opts : CacheOptions} {T : (String → Prop) → Prop} {w : Storing}
  {partition : Option String} {method url key : String} {requestHeaders : HeaderMap}
  {record : EntryRecord} {scope : String → Prop} {β : Type}

/-- The scope of a thread does not change. -/
theorem stays_scoped {a : IndexAct β} (hwrites : ∀ r, a.Writes r → G r)
    (hreaches : ∀ ix key, a.Reaches ix key → scope key) :
    Stays (scopeDiscipline G) (· = scope) (ask a) := by
  rintro _ rfl
  exact ⟨⟨hwrites, hreaches⟩, fun _ _ => rfl⟩

/-- Where everything is in scope, a plain piece stays. -/
theorem staysPlain_scope : StaysPlain (scopeDiscipline G) (· = fun _ => True) :=
  StaysPlain.of_act fun a scope ha hscope => by
    subst hscope
    cases a with
    | index a =>
      refine ⟨⟨?_, fun _ _ _ => trivial⟩, fun _ _ => rfl⟩
      cases a <;> first | exact ha.elim | exact fun _ h => h.elim
    | _ => exact ⟨trivial, fun _ _ => rfl⟩

/-- A piece that has to do with one entry stays where that one is in scope. -/
theorem stays_within {α : Type} {x : CacheM α} (hx : x.run.Asks (CacheAct.Within key))
    (hkey : scope key) : Stays (scopeDiscipline G) (· = scope) x :=
  Prog.stays_of_asks hx fun a u ha hu => by
    subst hu
    refine ⟨?_, fun _ _ => rfl⟩
    cases a with
    | index a =>
      cases a with
      | recordAccess k now tally =>
        refine ⟨fun _ h => h.elim, fun _ key' hreach => ?_⟩
        rcases k with _ | k
        · exact nomatch hreach
        · obtain rfl := Option.some.inj hreach
          obtain rfl : k = key := ha
          exact hkey
      | dropBrokenEntry k expected =>
        refine ⟨fun _ h => h.elim, fun _ key' hreach => ?_⟩
        obtain rfl : key' = k := hreach
        obtain rfl : key' = key := ha
        exact hkey
      | bump name n => exact ⟨fun _ h => h.elim, fun _ _ h => h.elim⟩
      | forgetBlobIfUnreferenced id => exact ⟨fun _ h => h.elim, fun _ _ h => h.elim⟩
      | _ => exact ha.elim
    | _ => trivial

/-- An entry that is read is under its key, and of the kind. -/
theorem staysWith_scopedEntry (hkey : scope key) :
    StaysWith (scopeDiscipline G) (· = scope)
      (fun found => ∀ r, found = some r → r.key = key ∧ G r) (ask (.getEntry key)) := by
  rintro _ rfl
  refine ⟨⟨fun _ h => h.elim, fun _ key' hreach => ?_⟩, fun r hr => ?_⟩
  · obtain rfl : key' = key := hreach
    exact hkey
  · rcases r with e | found
    · exact ⟨rfl, trivial⟩
    · obtain ⟨ix, ix', hnamed, hrun⟩ := hr found rfl
      refine ⟨rfl, fun record hrecord => ?_⟩
      obtain rfl : ix.entries.lookup key = found := (Prod.mk.inj (Except.ok.inj hrun)).1
      exact hnamed.entries key record hrecord

/-- **The entry a request selects** is of the kind, under a key of its URL. -/
theorem staysWith_scopedVariant
    (hscope : ∀ v, keySeparator ∉ v.toList → scope (entryKey partition method url v)) :
    StaysWith (scopeDiscipline G) (· = scope) (fun selected => ∀ key r, selected = some (key, r) →
        scope key ∧ r.key = key ∧ G r) (selectVariant P partition method url requestHeaders) := by
  have hlist : StaysWith (scopeDiscipline G) (· = scope)
      (fun keys => ∀ v ∈ keys, keySeparator ∉ v.toList)
      (ask (.variantKeys partition method url)) := by
    rintro _ rfl
    refine ⟨⟨fun _ h => h.elim, fun _ _ h => h.elim⟩, fun r hr => ?_⟩
    rcases r with e | keys
    · exact ⟨rfl, trivial⟩
    · obtain ⟨ix, ix', hnamed, hrun⟩ := hr keys rfl
      obtain rfl := (Prod.mk.inj (Except.ok.inj hrun)).1
      exact ⟨rfl, hnamed.listed _⟩
  have hselects : StaysWith (scopeDiscipline G) (· = scope) (fun selected => ∀ key r,
      selected = some (key, r) →
        (∃ v, keySeparator ∉ v.toList ∧ key = entryKey partition method url v) ∧
          (r.key = key ∧ G r) ∧ selects P r requestHeaders = true)
      (selectVariant P partition method url requestHeaders) :=
    staysWith_selects hlist fun v hv => staysWith_scopedEntry (hscope v hv)
  refine hselects.mono fun selected hselected key r heq => ?_
  obtain ⟨⟨v, hv, rfl⟩, hr, -⟩ := hselected key r heq
  exact ⟨hscope v hv, hr⟩

/-! ### What operations write -/

/-- **The entry was stored by this store**: it says so of its partition, its method, its
URL and its variant. -/
structure EntryRecord.StoredAs (P : Platform) (w : Storing) (r : EntryRecord) : Prop where
  cacheable : isCacheableMethod w.method = true
  partition : r.partition = w.partition
  method : r.method = toAsciiUppercase w.method
  url : r.url = normalizeUrl P w.url
  varyKey : r.varyKey = w.vkey P

/-- One of these operations stored the entry. -/
def EntryRecord.StoredBy (P : Platform) (ops : List Op) (r : EntryRecord) : Prop :=
  ∃ op ∈ ops, ∃ w bodyLen, op.Stores w bodyLen ∧ r.StoredAs P w

theorem isCacheableMethod_of_store {bodyLen : ℕ}
    (hstore : storability P w.method w.requestHeaders w.metadata bodyLen opts = .store) :
    isCacheableMethod w.method = true := by
  by_contra hnot
  obtain ⟨reason, hreject⟩ := storability_reject_iff.mpr
    (Or.inr (Or.inl (Bool.eq_false_iff.mpr hnot)) : w.ReadsNoStore ∨ w.OtherwiseDeclined P opts bodyLen)
  exact nomatch hstore.symm.trans hreject

theorem stays_putStored {newBlobs : List (ContentId × BlobRecord)} (hrecord : G record) :
    Stays (scopeDiscipline G) (· = fun _ => True) (ask (.putEntry record newBlobs)) :=
  stays_scoped (fun _ h => by rw [h]; exact hrecord) fun _ _ _ => trivial

theorem stays_refreshStored (hrecord : G record) :
    Stays (scopeDiscipline G) (· = fun _ => True) (ask (.refreshEntry record)) :=
  stays_scoped (fun _ h => by rw [h]; exact hrecord) fun _ _ _ => trivial

/-- The operation folds fresh fields into an entry that is there: it confirms the entry, or
stores the answer to a `HEAD`. -/
def Op.Folds : Op → Prop
  | .recordNotModified _ _ _ _ => True
  | .store w _ => eqIgnoreAsciiCase w.method "HEAD" = true
  | .finishStreamed w _ => eqIgnoreAsciiCase w.method "HEAD" = true
  | _ => False

/-- **A kind that holds what these operations write**: what one of them stores, whole or
as ranges, and what one of them folds into an entry of the kind. -/
structure Written (P : Platform) (opts : CacheOptions) (ops : List Op) (G : EntryRecord → Prop) :
    Prop extends Enduring G where
  whole : ∀ op ∈ ops, ∀ w bodyLen, op.Stores w bodyLen →
    storability P w.method w.requestHeaders w.metadata bodyLen opts = .store →
      ∀ receipt now, G (w.record P receipt now)
  range : ∀ op ∈ ops, ∀ w bodyLen, op.Stores w bodyLen →
    storability P w.method w.requestHeaders w.metadata bodyLen opts = .store →
      w.status = 206 → eqIgnoreAsciiCase w.method "GET" = true → ∀ existing record,
        (∀ r, existing = some r → G r) → w.Leaves P existing record → G record
  folded : ∀ op ∈ ops, op.Folds → ∀ r headers requestTime responseTime, G r → G { r with
    headers := headers, requestTime := requestTime, responseTime := responseTime }

/-- **An operation** writes entries of the kind. -/
theorem stays_written {ops : List Op} {op : Op} (hG : Written P opts ops G) (hop : op ∈ ops) :
    Stays (scopeDiscipline G) (· = fun _ => True) (op.run P opts) := by
  have hplain : StaysPlain (scopeDiscipline G) (· = fun _ => True) := staysPlain_scope
  have hdry := StaysPlain.dry hplain
  have hreturn : ∀ {α : Type} {x : CacheM α} {reply : α → Reply},
      Stays (scopeDiscipline G) (· = fun _ => True) x →
      Stays (scopeDiscipline G) (· = fun _ => True)
        (do pure (reply (← x))) := fun hx => hx.bind fun _ => stays_pure
  have hhead : op.Folds → ∀ w : Storing, Stays (scopeDiscipline G) (· = fun _ => True)
      (reconcileHead P w.partition (normalizeUrl P w.url) w.requestHeaders w.responseHeaders) :=
    fun hfolds w => StaysDry.reconcileHead hdry (staysWith_scopedVariant fun _ _ => trivial)
      fun _ r hr => stays_refreshStored
        (hG.folded op hop hfolds r _ r.requestTime r.responseTime hr.2.2)
  cases op with
  | lookup partition method url h => exact hreturn (hdry dry_lookup)
  | store w body =>
    exact hreturn (StaysPlain.store hplain
      (fun _ => (staysWith_scopedEntry trivial).mono fun _ hfound r hr => (hfound r hr).2)
      (fun hstore receipt now _ => stays_putStored (hG.whole _ hop w _ ⟨rfl, rfl⟩ hstore receipt now))
      (fun _ hmethod => hhead hmethod w) fun hstore hstatus hget existing record _ hK hleaves =>
        stays_putStored
          (hG.range _ hop w _ ⟨rfl, rfl⟩ hstore hstatus hget existing record hK hleaves))
  | finishStreamed w writer =>
    exact hreturn (StaysPlain.finishStreamed hplain
      (fun hstore receipt now _ => stays_putStored (hG.whole _ hop w _ ⟨rfl, rfl⟩ hstore receipt now))
      fun _ hmethod => hhead hmethod w)
  | recordNotModified key freshHeaders requestTime responseTime =>
    refine hreturn ((staysWith_scopedEntry trivial).then fun found hfound => ?_)
    rcases found with _ | old
    · exact stays_pure
    · exact Stays.bind (stays_refreshStored
      (hG.folded _ hop trivial old _ _ _ (hfound old rfl).2)) fun _ =>
        StaysDry.confirmed hdry
  | discardRepresentation key content => exact hreturn (hdry dry_discardRepresentation)
  | invalidate partition method url => exact hreturn (hdry dry_invalidateUrl)
  | purge partition method url => exact hreturn (hdry dry_purge)
  | enforceBudget => exact hreturn (hdry dry_enforceBudget)
  | collectGarbage => exact hreturn (hdry dry_collectGarbage)
  | clear => exact hreturn (hdry dry_clear)
  | grantPeerEligibility content declared =>
    exact hreturn (StaysDry.grantPeerEligibility hdry fun _ =>
      stays_scoped (fun _ h => h.elim) fun _ _ _ => trivial)
  | bodyForPeer asked =>
    exact hreturn (StaysDry.bodyForPeer hdry fun _ =>
      stays_scoped (fun _ h => h.elim) fun _ _ _ => trivial)
  | acceptPeerBody integrity body => exact hreturn (hdry dry_acceptPeerBody)

/-- What was stored by one of the operations is such a kind. -/
theorem written_storedBy {ops : List Op} : Written P opts ops (EntryRecord.StoredBy P ops) where
  touched := fun _ _ ⟨op, hop, w, n, hstores, h⟩ =>
    ⟨op, hop, w, n, hstores, h.cacheable, h.partition, h.method, h.url, h.varyKey⟩
  variant := fun r ⟨_, _, w, _, _, h⟩ => by
    rw [h.varyKey]
    exact separator_not_mem_varyKey P _ _
  whole := fun op hop w bodyLen hstores hstore _ _ =>
    ⟨op, hop, w, bodyLen, hstores, isCacheableMethod_of_store hstore, rfl, rfl, rfl, rfl⟩
  range := fun op hop w bodyLen hstores hstore _ hget _ _ _ hleaves => by
    obtain ⟨_, _, _, _, rfl⟩ := hleaves.fields
    exact ⟨op, hop, w, bodyLen, hstores, isCacheableMethod_of_store hstore, rfl,
      (Text.eqIgnoreAsciiCase_iff.mp hget).symm, rfl, rfl⟩
  folded := fun _ _ _ _ _ _ _ ⟨op, hop, w, n, hstores, h⟩ =>
    ⟨op, hop, w, n, hstores, h.cacheable, h.partition, h.method, h.url, h.varyKey⟩

/-! ### What a lookup returns -/

/-- **The response is this entry, read back.** -/
structure StoredResponse.MadeOf (response : StoredResponse) (r : EntryRecord) : Prop where
  key : response.key = r.key
  content : response.content = r.contentId
  headers : response.metadata.headers = stripNeverStored r.headers.toHeaderMap

/-- Every response that a lookup came to is made of an entry of the kind, in scope. -/
def Lookup.Scoped (G : EntryRecord → Prop) (scope : String → Prop) (L : Lookup) : Prop :=
  ∀ response ∈ (Reply.lookup L).responses, ∃ r, scope r.key ∧ G r ∧ response.MadeOf r

section Lookup

variable {age : ℕ} {want : Want}

/-- **What is read back** is the entry. -/
theorem staysWith_madeOf (hkey : scope record.key) :
    StaysWith (scopeDiscipline G) (· = scope) (fun response => response.MadeOf record)
      (materialize P record.key record record.metadata age want) := by
  have hread : ∀ {first stop : ℕ},
      Stays (scopeDiscipline G) (· = scope) (readSpan P record first stop) :=
    stays_within (files_readSpan.mono fun _ => CacheAct.OnFiles.within) hkey
  obtain ⟨range, omitBody⟩ := want
  cases omitBody with
  | true => exact staysWith_pure ⟨rfl, rfl, rfl⟩
  | false =>
    rcases range with _ | resolved
    · exact hread.with.bind fun _ _ => staysWith_pure ⟨rfl, rfl, rfl⟩
    · exact hread.with.bind fun _ _ => staysWith_pure ⟨rfl, rfl, rfl⟩

end Lookup

/-- **What a lookup may touch**: entries of its partition and its URL, stored for its
method, or for `GET` where it is a `HEAD`. -/
def LookupScope (P : Platform) (partition : Option String) (method url key : String) : Prop :=
  isCacheableMethod method = true ∧
    ∃ m, (m = method ∨ m = "GET" ∧ eqIgnoreAsciiCase method "HEAD" = true) ∧
      ∃ v : String, keySeparator ∉ v.toList ∧ key = entryKey partition m (normalizeUrl P url) v

/-- **A lookup keeps to its scope**, and what it returns is made of what is there. -/
theorem staysWith_scopedLookup :
    StaysWith (scopeDiscipline G) (· = LookupScope P partition method url)
      (Lookup.Scoped G (LookupScope P partition method url))
      (lookup P opts partition method url requestHeaders) := by
  refine staysWith_lookup_of (fun _ => stays_scoped (fun _ h => h.elim) fun _ _ hreach => nomatch hreach)
    (fun key r hr _ _ hx => stays_within hx hr.1) (fun hmethod m hm =>
      staysWith_scopedVariant fun v hv => ⟨hmethod, m, hm, v, hv, rfl⟩) fun key r age want hr _ => ?_
  obtain ⟨hkey, rfl, hrecord⟩ := hr
  exact (staysWith_madeOf hkey).mono fun _ hmade => ⟨r, hkey, hrecord, hmade⟩

end Walk

/-! ### Every run -/

variable (P : Platform) (opts : CacheOptions) (ops : List Op)

/-- **The entry was stored for such a request**: by one of the operations, under this
partition, this URL, and this method, or `GET` where this is `HEAD`. -/
def EntryRecord.StoredUnder (partition : Option String) (method url : String) (r : EntryRecord) :
    Prop :=
  ∃ op ∈ ops, ∃ w bodyLen, op.Stores w bodyLen ∧ r.StoredAs P w ∧ w.partition = partition ∧
    (toAsciiUppercase w.method = toAsciiUppercase method ∨
      toAsciiUppercase method = "HEAD" ∧ toAsciiUppercase w.method = "GET") ∧
    normalizeUrl P w.url = normalizeUrl P url

/-- **Lookups are kept apart**: in every run, whatever entry a lookup is about to touch was
stored for such a request as it answers, and whatever response it returned is made of
one that was. -/
def LookupsApart : Prop :=
  ∀ c, cacheRuns.Runs (running P opts .empty ops) c →
    ∀ (i : ℕ) (partition : Option String) (method url : String) (h : HeaderMap),
      ops[i]? = some (.lookup partition method url h) →
      (∀ {β : Type} (a : IndexAct β) (k : Except CacheError β → Prog CacheAct Outcome),
        c.pool[i]? = some (.act (.index a) k) →
          ∀ r, a.Touches c.shared.index r → r.StoredUnder P ops partition method url) ∧
      ∀ L, c.result i = some (.ok (.lookup L)) → ∀ response ∈ (Reply.lookup L).responses,
        ∃ r : EntryRecord, r.StoredUnder P ops partition method url ∧ response.MadeOf r

/-- **Keys are kept apart**: those of separable partitions and of methods that are cached
are of one partition, one method up to case, one URL and one variant. -/
def KeysApart : Prop :=
  ∀ (p q : Option String) (m n u v : String), Separable p → Separable q →
    isCacheableMethod m = true → isCacheableMethod n = true →
      (primaryKey p m u = primaryKey q n v →
        p = q ∧ toAsciiUppercase m = toAsciiUppercase n ∧ u = v) ∧
      ∀ (fields fields' : List String) (h h' : HeaderMap),
        entryKey p m u (varyKey P fields h) = entryKey q n v (varyKey P fields' h') →
          p = q ∧ toAsciiUppercase m = toAsciiUppercase n ∧ u = v ∧
            varyKey P fields h = varyKey P fields' h'

/-- The partition that an operation looks in or stores under. -/
def Op.SeparablePartition : Op → Prop
  | .lookup partition _ _ _ => Separable partition
  | .store w _ => Separable w.partition
  | .finishStreamed w _ => Separable w.partition
  | _ => True

/-- What a thread may touch: a lookup what it looks for, and the others anything. -/
def scopeOf (i : ℕ) : String → Prop :=
  match ops[i]? with
  | some (.lookup partition method url _) => LookupScope P partition method url
  | _ => fun _ => True

/-- What a thread that has returned gives: a lookup, what is made of entries of the kind. -/
def Given (G : EntryRecord → Prop) (i : ℕ) (r : Outcome) (scope : String → Prop) : Prop :=
  ∀ partition method url h, ops[i]? = some (.lookup partition method url h) →
    ∀ L, r = .ok (.lookup L) → Lookup.Scoped G scope L

variable {P opts ops}

theorem scopeOf_lookup {i : ℕ} {partition : Option String} {method url : String} {h : HeaderMap}
    (hi : ops[i]? = some (.lookup partition method url h)) :
    scopeOf P ops i = LookupScope P partition method url := by
  rw [scopeOf, hi]

/-- **The discipline governs the runs.** -/
theorem governs_named (hG : Enduring G) (scopes : ℕ → String → Prop)
    {R : ℕ → Outcome → (String → Prop) → Prop} : Governs cacheRuns (scopeDiscipline G)
    (fun s t => s.index.Named G ∧ ∀ i, t i = scopes i) R where
  child := fun _ _ _ _ _ _ hchild => absurd hchild (by simp [cacheSystem, System.ofPerform])
  step := by
    rintro i n β a s b s' t - ⟨hnamed, hscope⟩ hmay ⟨w, -, hperform⟩
    have hnext : ∀ u : Store, u.index.Named G → u.index.Named G ∧ ∀ j,
        (scopeDiscipline G).advance false t i n a b j = scopes j := by
      refine fun u hu => ⟨hu, fun j => ?_⟩
      rw [Discipline.advance_false]
      exact (congrFun (Function.update_eq_self i t) j).trans (hscope j)
    cases a with
    | index a =>
      rcases Store.perform_index.mp hperform with ⟨m, -, rfl, rfl⟩ | ⟨-, r, ix, hrun, rfl, rfl⟩ |
        ⟨-, e, -, rfl, rfl⟩
      · exact ⟨fun b hb => (nomatch hb), hnext _ hnamed⟩
      · refine ⟨fun b hb => ?_, hnext _ (a.run_named hG hnamed hmay.1 hrun)⟩
        rw [← Except.ok.inj hb]
        exact ⟨s.index, ix, hnamed, hrun⟩
      · exact ⟨fun b hb => (nomatch hb), hnext _ hnamed⟩
    | file a =>
      rcases Store.perform_file.mp hperform with ⟨m, -, -, rfl⟩ | ⟨-, -, rfl⟩
      · exact ⟨trivial, hnext _ hnamed⟩
      · exact ⟨trivial, hnext _ hnamed⟩
    | gate a =>
      obtain ⟨gate, -, rfl⟩ := Store.perform_gate.mp hperform
      exact ⟨trivial, hnext _ hnamed⟩
    | now =>
      obtain ⟨-, rfl⟩ := Store.perform_now.mp hperform
      exact ⟨trivial, hnext _ hnamed⟩

/-- **Every operation keeps to its scope.** -/
theorem obeys_scope (hG : Written P opts ops G) {i : ℕ} {op : Op} (hi : ops[i]? = some op) :
    (op.program P opts).Obeys (scopeDiscipline G) (Given ops G i) (scopeOf P ops i) := by
  by_cases hlookup : ∃ partition method url h, op = .lookup partition method url h
  · obtain ⟨partition, method, url, h, rfl⟩ := hlookup
    rw [scopeOf_lookup hi]
    have hreturn : StaysWith (scopeDiscipline G) (· = LookupScope P partition method url)
        (Lookup.Scoped G (LookupScope P partition method url))
        (lookup P opts partition method url h) := staysWith_scopedLookup
    refine obeys_run_bind.mpr ((hreturn _ rfl).mono fun r u hu => ?_)
    rcases r with e | L
    · exact fun _ _ _ _ _ _ heq => nomatch heq
    · obtain ⟨rfl, hscoped⟩ := hu
      rintro _ _ _ _ - L' heq
      obtain rfl : L = L' := Reply.lookup.inj (Except.ok.inj heq)
      exact hscoped
  · have hscope : scopeOf P ops i = fun _ => True := by
      rw [scopeOf, hi]
      cases op with
      | lookup partition method url h => exact absurd ⟨partition, method, url, h, rfl⟩ hlookup
      | _ => rfl
    have hstays : Stays (scopeDiscipline G) (· = fun _ => True) (op.run P opts) :=
      stays_written hG (List.mem_of_getElem? hi)
    refine (hstays _ hscope).mono fun r u _ partition method url h hop => ?_
    obtain rfl := Option.some.inj (hi.symm.trans hop)
    exact absurd ⟨partition, method, url, h, rfl⟩ hlookup

/-- **Wherever a run comes by**, the entries are of the kind, and lookups keep to their
scopes and give what is made of entries of the kind. -/
theorem kept_scopes (hG : Written P opts ops G) {c : Config CacheAct Store Outcome}
    (hrun : cacheRuns.Runs (running P opts .empty ops) c) : Kept (scopeDiscipline G)
      (fun s t => s.index.Named G ∧ ∀ i, t i = scopeOf P ops i) (Given ops G) c := by
  refine Kept.runs (governs_named hG.toEnduring _)
    ⟨scopeOf P ops, ⟨Index.named_empty, fun _ => rfl⟩, fun j p hj => ?_⟩ hrun
  change (ops.map (Op.program P opts))[j]? = some p at hj
  rw [List.getElem?_map] at hj
  obtain ⟨op, hop, rfl⟩ := Option.map_eq_some_iff.mp hj
  exact obeys_scope hG hop

/-- **Every entry is of the kind that the operations write**, wherever a run comes by. -/
theorem named_of_runs (hG : Written P opts ops G) {c : Config CacheAct Store Outcome}
    (hrun : cacheRuns.Runs (running P opts .empty ops) c) : c.shared.index.Named G := by
  obtain ⟨t, ⟨hnamed, -⟩, -⟩ := kept_scopes hG hrun
  exact hnamed

/-- **What is in a lookup's scope was stored for it**, where keys tell partitions apart. -/
theorem storedUnder_of_scope {partition : Option String} {method url : String} {r : EntryRecord}
    (hops : ∀ op ∈ ops, op.SeparablePartition) (hpartition : Separable partition)
    (hscope : LookupScope P partition method url r.key) (hr : r.StoredBy P ops) :
    r.StoredUnder P ops partition method url := by
  obtain ⟨hmethod, m, hm, v, hv, hkey⟩ := hscope
  obtain ⟨op, hop, w, bodyLen, hstores, hstored⟩ := hr
  have hw : Separable w.partition := by
    have hseparable := hops op hop
    cases op with
    | store w' body =>
      obtain ⟨rfl, -⟩ := hstores
      exact hseparable
    | finishStreamed w' writer =>
      obtain ⟨rfl, -⟩ := hstores
      exact hseparable
    | _ => exact hstores.elim
  have hmcache : keySeparator ∉ m.toList := by
    rcases hm with rfl | ⟨rfl, -⟩
    · exact separator_not_mem_method hmethod
    · decide
  have hkeys : entryKey w.partition (toAsciiUppercase w.method) (normalizeUrl P w.url)
      (w.vkey P) = entryKey partition m (normalizeUrl P url) v := by
    rw [← hkey, EntryRecord.key, hstored.partition, hstored.method, hstored.url, hstored.varyKey]
  obtain ⟨hsame, hupper, hurl, -⟩ := entryKey_inj hw hpartition
    (separator_not_mem_upper (separator_not_mem_method hstored.cacheable)) hmcache
    (separator_not_mem_varyKey P _ _) hv hkeys
  rw [Text.toAsciiUppercase_toAsciiUppercase] at hupper
  refine ⟨op, hop, w, bodyLen, hstores, hstored, hsame, ?_, hurl⟩
  rcases hm with rfl | ⟨rfl, hhead⟩
  · exact Or.inl hupper
  · refine Or.inr ⟨(Text.eqIgnoreAsciiCase_iff.mp hhead).trans (by decide), ?_⟩
    exact hupper.trans (by decide)

/-- **Partitions are apart**: keys are, and in every run of operations whose partitions
are separable so are lookups. -/
theorem partitions_apart (P : Platform) (opts : CacheOptions) (ops : List Op) :
    KeysApart P ∧ ((∀ op ∈ ops, op.SeparablePartition) → LookupsApart P opts ops) := by
  refine ⟨fun p q m n u v hp hq hm hn => ?_, fun hops c hrun i partition method url h hi => ?_⟩
  · have hm := separator_not_mem_method hm
    have hn := separator_not_mem_method hn
    exact ⟨primaryKey_inj hp hq hm hn, fun _ _ _ _ => entryKey_inj hp hq hm hn
      (separator_not_mem_varyKey P _ _) (separator_not_mem_varyKey P _ _)⟩
  · have hpartition : Separable partition := hops _ (List.mem_of_getElem? hi)
    obtain ⟨t, ⟨hnamed, ht⟩, hobeys⟩ := kept_scopes written_storedBy hrun
    have hscope := (ht i).trans (scopeOf_lookup hi)
    refine ⟨fun a k hact r htouches => ?_, fun L hresult response hmem => ?_⟩
    · obtain ⟨key, hreaches, hlookup⟩ := htouches
      obtain ⟨⟨-, hmay⟩, -⟩ := hobeys i _ hact
      have hkey := hmay c.shared.index key hreaches
      rw [hscope] at hkey
      obtain ⟨rfl, hr⟩ := hnamed.entries key r hlookup
      exact storedUnder_of_scope hops hpartition hkey hr
    · obtain ⟨r, hkey, hr, hmade⟩ := hobeys i _ (Config.result_eq_some.mp hresult) partition method
        url h hi L rfl response hmem
      rw [hscope] at hkey
      exact ⟨r, storedUnder_of_scope hops hpartition hkey hr, hmade⟩

/-! ### A page that two sites load -/

/-- The page, stored under this partition, and then looked up under that one. -/
def siteOps (stored looked : Option String) : List Op :=
  [.store { pageStore with partition := stored } [97], .lookup looked "GET" "http://a.test/x" ∅]

/-- The store runs to its end, and then the lookup. -/
def siteSchedule : List (Weather × ℕ) :=
  (List.replicate 10 0 ++ List.replicate 5 1).map fun i => (⟨10, none⟩, i)

/-- What the second operation has come to is a fresh response. -/
def foundFresh (c : Config CacheAct Store Outcome) : Bool :=
  match c.result 1 with
  | some (.ok (.lookup (.fresh _))) => true
  | _ => false

theorem exists_fresh {c : Config CacheAct Store Outcome} (h : foundFresh c = true) :
    ∃ response, c.result 1 = some (.ok (.lookup (.fresh response))) := by
  rw [foundFresh] at h
  split at h
  · exact ⟨_, ‹_›⟩
  · exact absurd h (by simp)

theorem partitions_apart_site :
    (∃ c, cacheRuns.Runs (running .sample .default .empty
      (siteOps (some "http://b.test") (some "http://b.test"))) c ∧ foundFresh c = true) ∧
      LookupsApart .sample .default (siteOps (some "http://b.test") (some "http://b.test")) := by
  have hfollow : ((running .sample .default .empty
      (siteOps (some "http://b.test") (some "http://b.test"))).follow Store.perform
      (fun {_} _ => none) siteSchedule).any foundFresh = true := by decide +kernel
  refine ⟨exists_cacheRuns hfollow, (partitions_apart _ _ _).2 ?_⟩
  have hseparable : Separable (some "http://b.test") := by decide +kernel
  intro op hop
  rcases List.mem_cons.mp hop with rfl | hop
  · exact hseparable
  · rw [List.mem_singleton.mp hop]
    exact hseparable

/-- **A partition of no name is the one of no partition**: what was stored without one is
served to it. -/
theorem empty_name_is_unpartitioned : ¬∀ (P : Platform) (opts : CacheOptions) (ops : List Op),
    LookupsApart P opts ops := by
  intro h
  have hfollow : ((running .sample .default .empty (siteOps none (some ""))).follow Store.perform
      (fun {_} _ => none) siteSchedule).any foundFresh = true := by decide +kernel
  obtain ⟨c, hrun, hfresh⟩ := exists_cacheRuns hfollow
  obtain ⟨response, hresult⟩ := exists_fresh hfresh
  obtain ⟨r, ⟨op, hop, w, bodyLen, hstores, -, hpartition, -⟩, -⟩ :=
    (h .sample .default _ c hrun 1 (some "") "GET" "http://a.test/x" ∅ rfl).2 _ hresult response
      (List.mem_singleton_self _)
  rcases List.mem_cons.mp hop with rfl | hop
  · obtain ⟨rfl, -⟩ := hstores
    exact nomatch hpartition
  · obtain rfl := List.mem_singleton.mp hop
    exact hstores.elim

end Syndeo
