import Syndeo.Cache.Reading

/-!
# A body that cannot be read back

What a lookup that serves an entry comes to when the file of one of its blobs is not
what it was. If the lookup reads the file and the body is lost, the entry goes and the
request is a miss (`Syndeo.corruption_missed_iff`). A file that does not decompress is
not taken for a lost body (`Syndeo.CacheError.isLostBody`): the lookup fails, and
leaves everything as it is for the next one to fail in the same way
(`Syndeo.undecodable_fails`). What is served in any other case is what was served
before.
-/

namespace Syndeo

open Concurrent Tables
open Text (eqIgnoreAsciiCase)
open Prog (Yields exec_run_bind_ok exec_run_bind_error)

variable {P : Platform} {now i : ℕ} {s : Store}

/-! ### An entry whose body is lost -/

/-- An entry that is as it was is dropped. -/
theorem Index.exists_dropEntryIfUnchanged {ix : Index} {key : String} {record : EntryRecord}
    {revoke : Bool} (hentry : ix.entries.lookup key = some record) :
    ∃ orphaned ix', ix.dropEntryIfUnchanged key record revoke = (some orphaned, ix') ∧
      ix'.entries.lookup key = none := by
  rw [dropEntryIfUnchanged, if_pos hentry]
  refine ⟨_, _, rfl, ?_⟩
  split
  · exact Index.lookup_removeEntry
  · exact Index.lookup_removeEntry

/-- **The entry goes, and the request is a miss.** -/
theorem yields_discardBroken {ok : ∀ {β : Type}, CacheAct β → Store → Prop} {key : String}
    {record : EntryRecord} {tally : List (String × ℕ)} (hfree : s.gate = .free)
    (hentry : s.index.entries.lookup key = some record) :
    Yields (aloneDiscipline i ok) (discardBroken key record tally) s fun r u =>
      (∃ reason, r = .miss reason) ∧ u.index.entries.lookup key = none := by
  obtain ⟨orphaned, ix, hdropped, hgone⟩ : ∃ orphaned ix,
      s.index.dropEntryIfUnchanged key record true = (some orphaned, ix) ∧
        ix.entries.lookup key = none := Index.exists_dropEntryIfUnchanged hentry
  have hrun : (IndexAct.dropBrokenEntry key record).run s.index = .ok (some orphaned, ix) := by
    rw [IndexAct.run, hdropped]
  have hdrop : Yields (aloneDiscipline i ok) (dropBroken key record) s fun _ u =>
      u.index.entries.lookup key = none := by
    refine Prog.Yields.bind (yields_ask hrun) fun _ u hu => ?_
    obtain ⟨-, rfl, rfl⟩ := hu
    refine Prog.Yields.bind yields_bump fun _ v hv => ?_
    refine Prog.Yields.bind (yields_deleteOrphans (hv.gate.trans hfree)) fun _ t ht => ?_
    rw [ht]
    change (v.sweep orphaned).index.entries.lookup key = none
    rw [Store.entries_sweep, hv.entries]
    exact hgone
  refine hdrop.bind fun _ u hu => ?_
  refine Prog.Yields.bind (yields_ask rfl) fun _ v hv => ?_
  obtain ⟨-, -, rfl⟩ := hv
  exact ⟨⟨_, rfl⟩, hu⟩

/-! ### A file that is replaced -/

/-- The store, with this in the file of a blob, or without the file. -/
def Store.damaged (s : Store) (id : ContentId) (file : Option Bytes) : Store where
  index := s.index
  files := match file with
    | none => s.files.erase id
    | some raw => s.files.insert id raw
  gate := s.gate

theorem Store.lookup_damaged {id : ContentId} {file : Option Bytes} :
    (s.damaged id file).files.lookup id = file := by
  cases file with
  | none => exact AList.lookup_erase _ _
  | some raw => exact AList.lookup_insert _

theorem Store.lookup_damaged_of_ne {id c : ContentId} {file : Option Bytes} (hne : c ≠ id) :
    (s.damaged id file).files.lookup c = s.files.lookup c := by
  cases file with
  | none => exact AList.lookup_erase_ne hne
  | some raw => exact AList.lookup_insert_ne hne

/-- Where nothing is lost, each blob comes back. -/
theorem exists_readBack_of_kept {files : Table ContentId Bytes} {ids : List ContentId}
    {id : ContentId} (h : firstLost P files ids = none) (hid : id ∈ ids) :
    ∃ bytes, readBack P id (files.lookup id) = .ok bytes := by
  induction ids with
  | nil => exact absurd hid List.not_mem_nil
  | cons c rest ih =>
    rw [firstLost] at h
    rcases hback : readBack P c (files.lookup c) with e | bytes
    · rw [hback] at h
      cases h
    · rw [hback] at h
      rcases List.mem_cons.mp hid with rfl | hid
      · exact ⟨bytes, hback⟩
      · exact ih h hid

/-- **What is lost then**: the one blob whose file was replaced, if it is read and does
not come back. -/
theorem firstLost_damaged (id : ContentId) (file : Option Bytes) {ids : List ContentId}
    (h : firstLost P s.files ids = none) :
    (∃ e, id ∈ ids ∧ readBack P id file = .error e ∧
      firstLost P (s.damaged id file).files ids = some (id, e)) ∨
    ((∀ e, id ∈ ids → readBack P id file ≠ .error e) ∧
      firstLost P (s.damaged id file).files ids = none) := by
  induction ids with
  | nil => exact Or.inr ⟨fun _ hid => absurd hid List.not_mem_nil, rfl⟩
  | cons c rest ih =>
    rw [firstLost] at h
    rcases hback : readBack P c (s.files.lookup c) with e | bytes
    · rw [hback] at h
      cases h
    · rw [hback] at h
      rw [firstLost]
      rcases eq_or_ne c id with rfl | hne
      · rw [Store.lookup_damaged]
        rcases hfile : readBack P c file with e | bytes'
        · exact Or.inl ⟨e, List.mem_cons_self, rfl, rfl⟩
        · refine Or.inr ⟨fun e _ => by simp, ?_⟩
          rcases ih h with ⟨e, -, he, -⟩ | ⟨-, hnone⟩
          · cases hfile.symm.trans he
          · exact hnone
      · rw [Store.lookup_damaged_of_ne hne, hback]
        rcases ih h with ⟨e, hid, he, hlost⟩ | ⟨hall, hnone⟩
        · exact Or.inl ⟨e, List.mem_cons_of_mem _ hid, he, hlost⟩
        · exact Or.inr ⟨fun e hid => hall e ((List.mem_cons.mp hid).resolve_left hne.symm), hnone⟩

/-- **The lookup is a miss, and the entry is gone.** -/
def Dropped (key : String) (r : Option (Except CacheError Lookup × Store)) : Prop :=
  ∃ reason u, r = some (.ok (.miss reason), u) ∧ u.index.entries.lookup key = none

/-- **Two bodies of one address**: the one that was in the file, and the one that is in
it now. -/
def Collides (P : Platform) (s : Store) (id : ContentId) (file : Option Bytes) : Prop :=
  ∃ bytes bytes', readBack P id (s.files.lookup id) = .ok bytes ∧ readBack P id file = .ok bytes' ∧
    bytes ≠ bytes'

/-- **What becomes of a lookup that gave a response**, once a file is replaced, where these
are the blobs it reads. -/
inductive Fate (P : Platform) (s : Store) (id : ContentId) (file : Option Bytes)
    (ids : List ContentId) (response : StoredResponse) :
    Option (Except CacheError Lookup × Store) → Prop
  | dropped {r : Option (Except CacheError Lookup × Store)} (hid : id ∈ ids)
      (hlost : LostFile P id file) (h : Dropped response.key r) : Fate P s id file ids response r
  /-- What is in the file does not decompress. -/
  | failed {e : CacheError} (hid : id ∈ ids) (hback : readBack P id file = .error e)
      (hlost : e.isLostBody = false) :
      Fate P s id file ids response (some (.error e, s.damaged id file))
  | served {L : Lookup} {u : Store} {response' : StoredResponse}
      (hread : id ∈ ids → ∃ bytes, readBack P id file = .ok bytes)
      (hL : L.response = some response') (hsame : response' = response ∨ Collides P s id file) :
      Fate P s id file ids response (some (.ok L, u))

theorem Fate.dropped_iff {id : ContentId} {file : Option Bytes} {ids : List ContentId}
    {response : StoredResponse} {r : Option (Except CacheError Lookup × Store)}
    (h : Fate P s id file ids response r) :
    Dropped response.key r ↔ id ∈ ids ∧ LostFile P id file := by
  cases h with
  | dropped hid hlost h => exact iff_of_true h ⟨hid, hlost⟩
  | failed hid hback hlost =>
    refine iff_of_false (fun ⟨_, _, h, _⟩ => nomatch h) fun ⟨_, hfile⟩ => ?_
    obtain ⟨e', hback', hlost'⟩ := lostFile_iff.mp hfile
    rw [Except.error.inj (hback.symm.trans hback'), hlost'] at hlost
    exact nomatch hlost
  | served hread hL hsame =>
    refine iff_of_false ?_ fun ⟨hid, hfile⟩ => ?_
    · rintro ⟨reason, u, ⟨⟩, -⟩
      exact nomatch hL
    · obtain ⟨bytes, hbytes⟩ := hread hid
      obtain ⟨e, hback, -⟩ := lostFile_iff.mp hfile
      exact nomatch hbytes.symm.trans hback

/-- **A file that does not decompress fails the lookup**, and nothing is changed: the next
one comes to the same. -/
theorem Fate.of_undecodable {id : ContentId} {raw : Bytes} {ids : List ContentId}
    {response : StoredResponse} {r : Option (Except CacheError Lookup × Store)} {e : CacheError}
    (h : Fate P s id (some raw) ids response r) (hid : id ∈ ids)
    (hraw : decodeFile P raw = .error e) : r = some (.error e, s.damaged id (some raw)) := by
  have hback : readBack P id (some raw) = .error e := by rw [readBack, hraw]
  cases h with
  | dropped _ hlost _ =>
    obtain ⟨e', hback', hbody⟩ := lostFile_iff.mp hlost
    rw [Except.error.inj (hback'.symm.trans hback), decodeFile_eq_error hraw] at hbody
    cases hbody
  | failed _ hback' _ => rw [Except.error.inj (hback'.symm.trans hback)]
  | served hread _ _ =>
    obtain ⟨bytes, hbytes⟩ := hread hid
    cases hbytes.symm.trans hback

/-- **What the blobs hold then** is what they held, unless two bodies share an address. -/
theorem heldIn_damaged {id : ContentId} {file : Option Bytes} {ids : List ContentId}
    (hkept : firstLost P s.files ids = none)
    (hread : id ∈ ids → ∃ bytes, readBack P id file = .ok bytes) :
    (∀ c ∈ ids, heldIn P (s.damaged id file).files c = heldIn P s.files c) ∨
      Collides P s id file := by
  by_cases hid : id ∈ ids
  · obtain ⟨bytes', hbytes'⟩ := hread hid
    obtain ⟨bytes, hbytes⟩ : ∃ bytes, readBack P id (s.files.lookup id) = .ok bytes :=
      exists_readBack_of_kept hkept hid
    by_cases hsame : bytes = bytes'
    · refine Or.inl fun c _ => ?_
      rcases eq_or_ne c id with rfl | hne
      · rw [heldIn, heldIn, Store.lookup_damaged, hbytes, hbytes', hsame]
      · rw [heldIn, heldIn, Store.lookup_damaged_of_ne hne]
    · exact Or.inr ⟨bytes, bytes', hbytes, hbytes', hsame⟩
  · refine Or.inl fun c hc => ?_
    have hne : c ≠ id := fun h => hid (h ▸ hc)
    rw [heldIn, heldIn, Store.lookup_damaged_of_ne hne]

section Damaged

variable {key : String} {record : EntryRecord} {metadata : StoredMeta} {age : ℕ} {want : Want}
  {tally : List (String × ℕ)} {serve : StoredResponse → CacheM Lookup} {L : Lookup}
  {response : StoredResponse} {s' : Store} {id : ContentId} {file : Option Bytes}

theorem alone_attempt {α : Type} {x : CacheM α} {r : Except CacheError α} {t u : Store}
    (h : alone now i x t = some (r, u)) : alone now i (attempt x) t = some (.ok r, u) := by
  rw [alone, attempt, ExceptT.run_lift, map_eq_pure_bind, Prog.exec_bind]
  rw [alone] at h
  rw [h]
  rfl

theorem materializeOr_ok {t u : Store}
    (h : alone now i (materialize P key record metadata age want) t = some (.ok response, u)) :
    alone now i (materializeOr P key record metadata age want tally serve) t =
      alone now i (serve response) u :=
  exec_run_bind_ok (alone_attempt h)

theorem materializeOr_error {t u : Store} {e : CacheError}
    (h : alone now i (materialize P key record metadata age want) t = some (.error e, u)) :
    alone now i (materializeOr P key record metadata age want tally serve) t =
      if e.isLostBody = true then alone now i (discardBroken key record tally) u
      else some (.error e, u) := by
  refine (exec_run_bind_ok (alone_attempt h)).trans ?_
  simp only
  split
  · rfl
  · rfl

/-- A body that is lost has the entry dropped. -/
theorem dropped_discardBroken (now i : ℕ) (tally : List (String × ℕ)) {t : Store} (hfree : t.gate = .free)
    (hentry : t.index.entries.lookup key = some record) :
    Dropped key (alone now i (discardBroken key record tally) t) := by
  obtain ⟨L, u, hL, ⟨reason, rfl⟩, hgone⟩ : ∃ L u,
      alone now i (discardBroken key record tally) t = some (.ok L, u) ∧
        (∃ reason, L = .miss reason) ∧ u.index.entries.lookup key = none :=
    exists_alone_of_yields (yields_discardBroken hfree hentry)
  exact ⟨reason, u, hL, hgone⟩

/-- **An entry that was served, with one of its files replaced.** -/
theorem materializeOr_damaged (hfree : s.gate = .free)
    (hentry : s.index.entries.lookup key = some record)
    (hserve : ∀ response u, ∃ L u', alone now i (serve response) u = some (.ok L, u') ∧
      L.response = some response)
    (hserves : alone now i (materializeOr P key record metadata age want tally serve) s =
      some (.ok L, s')) (hresponse : L.response = some response) :
    response.key = key ∧ Fate P s id file (want.spans record) response
      (alone now i (materializeOr P key record metadata age want tally serve)
        (s.damaged id file)) := by
  obtain ⟨make, hkey, hmake⟩ := exists_alone_materialize P key record metadata age want now i
  -- it was served, so it was read
  have hnot : ∀ {e u}, u.gate = .free → u.index.entries.lookup key = some record →
      alone now i (materialize P key record metadata age want) s ≠ some (.error e, u) := by
    intro e u hufree huentry h
    rw [materializeOr_error h] at hserves
    split at hserves
    · obtain ⟨reason, v, hmiss, -⟩ := dropped_discardBroken now i tally hufree huentry
      obtain ⟨⟨⟩, -⟩ := Prod.mk.inj (Option.some.inj (hserves.symm.trans hmiss))
      exact nomatch hresponse
    · exact nomatch hserves
  obtain ⟨hkept, hreaches, hread⟩ : firstLost P s.files (want.spans record) = none ∧
      want.reaches record ∧ alone now i (materialize P key record metadata age want) s =
        some (.ok (make (want.read record (heldIn P s.files))), s) := by
    rcases hmake s with ⟨id', e, -, hread⟩ | ⟨hnone, ⟨-, e, hread⟩ | h⟩
    · exact absurd hread (hnot (Store.gate_afterRead.trans hfree) (by simpa using hentry))
    · exact absurd hread (hnot hfree hentry)
    · exact ⟨hnone, h⟩
  obtain rfl : response = make (want.read record (heldIn P s.files)) := by
    obtain ⟨L', u', hL', hresponse'⟩ := hserve (make (want.read record (heldIn P s.files))) s
    rw [materializeOr_ok hread, hL'] at hserves
    obtain ⟨⟨⟩, -⟩ := Prod.mk.inj (Option.some.inj hserves)
    exact Option.some.inj (hresponse.symm.trans hresponse')
  refine ⟨hkey _, ?_⟩
  rcases firstLost_damaged id file hkept with ⟨e, hid, hback, hlost⟩ | ⟨hall, hlost⟩
  · rcases hmake (s.damaged id file) with ⟨id', e', hlost', hread'⟩ | ⟨hnone, -⟩
    · obtain ⟨rfl, rfl⟩ := Prod.mk.inj (Option.some.inj (hlost'.symm.trans hlost))
      rw [materializeOr_error hread']
      split
      · rename_i he
        refine .dropped hid (lostFile_iff.mpr ⟨e', hback, he⟩) ?_
        rw [hkey]
        refine dropped_discardBroken now i tally (Store.gate_afterRead.trans hfree) ?_
        rw [Store.index_afterRead]
        exact hentry
      · rename_i he
        -- only a file that does not hash to its address is removed
        have hstays : (s.damaged id' file).afterRead id' e' = s.damaged id' file := by
          cases e' with
          | integrity _ _ => exact absurd rfl he
          | _ => rfl
        rw [hstays]
        exact .failed hid hback (by simpa using he)
    · exact nomatch hnone.symm.trans hlost
  · have hback : id ∈ want.spans record → ∃ bytes, readBack P id file = .ok bytes := by
      intro hid
      rcases hfile : readBack P id file with e | bytes
      · exact absurd hfile (hall e hid)
      · exact ⟨bytes, rfl⟩
    rcases hmake (s.damaged id file) with ⟨id', e', hlost', -⟩ | ⟨-, ⟨hshort, -⟩ | ⟨-, hread'⟩⟩
    · exact nomatch hlost.symm.trans hlost'
    · exact absurd hreaches hshort
    · obtain ⟨L', u', hL', hresponse'⟩ := hserve
        (make (want.read record (heldIn P (s.damaged id file).files))) (s.damaged id file)
      rw [materializeOr_ok hread', hL']
      refine .served hback hresponse' ((heldIn_damaged hkept hback).imp_left fun hsame => ?_)
      rw [Want.read_congr hsame]

end Damaged

/-! ### A lookup -/

section Lookups

variable {opts : CacheOptions} {requestHeaders : HeaderMap} {partition : Option String}
  {method url key : String} {record : EntryRecord} {tally : List (String × ℕ)} {L : Lookup}
  {response : StoredResponse} {s' : Store} {id : ContentId} {file : Option Bytes}

/-- What is selected does not depend on the files, and is an entry. -/
theorem exists_selectVariant (P : Platform) (now i : ℕ) (s : Store) (partition : Option String)
    (method url : String) (requestHeaders : HeaderMap) :
    ∃ found : Option (String × EntryRecord),
      (∀ t : Store, t.index = s.index →
        alone now i (selectVariant P partition method url requestHeaders) t = some (.ok found, t)) ∧
      ∀ key record, found = some (key, record) → s.index.entries.lookup key = some record := by
  obtain ⟨r, hr⟩ : ∃ r, ∀ t : Store, t.index = s.index →
      alone now i (selectVariant P partition method url requestHeaders) t = some (r, t) :=
    exists_alone_of_reads asks_selectVariant
  obtain ⟨found, u, hfound, -, hentry⟩ : ∃ found u,
      alone now i (selectVariant P partition method url requestHeaders) s = some (.ok found, u) ∧
        u = s ∧ ∀ key record, found = some (key, record) →
          s.index.entries.lookup key = some record := exists_alone_of_yields yields_selectVariant
  obtain ⟨rfl, -⟩ := Prod.mk.inj (Option.some.inj ((hr s rfl).symm.trans hfound))
  exact ⟨found, hr, hentry⟩

/-- Serving a response writes the counters, and no more. -/
theorem exists_alone_served {access : Option String} {used : ℕ} {counts : List (String × ℕ)}
    {u : Store} (hL : L.response = some response) : ∃ L' u',
      alone now i (do ask (.recordAccess access used counts); pure L) u = some (.ok L', u') ∧
        L'.response = some response := ⟨L, _, rfl, hL⟩

/-- A miss gives no response. -/
theorem not_served_missed {reason : String} {t u : Store} (hL : L.response = some response) :
    alone now i (missed tally reason) t ≠ some (.ok L, u) := by
  intro h
  have hmissed : alone now i (missed tally reason) t = some (.ok (.miss reason), _) := rfl
  obtain ⟨⟨⟩, -⟩ := Prod.mk.inj (Option.some.inj (hmissed.symm.trans h))
  exact nomatch hL

/-- **The same, of a lookup that has selected its entry.** -/
theorem lookupEntry_damaged (id : ContentId) (file : Option Bytes) (hfree : s.gate = .free)
    (hentry : s.index.entries.lookup key = some record)
    (hserves : alone now i (lookupEntry P opts requestHeaders (eqIgnoreAsciiCase method "HEAD") key
      record tally) s = some (.ok L, s')) (hresponse : L.response = some response) :
    response.key = key ∧ Fate P s id file (bodiesRead P method requestHeaders record) response
      (alone now i (lookupEntry P opts requestHeaders (eqIgnoreAsciiCase method "HEAD") key record
        tally) (s.damaged id file)) := by
  -- the rest of the lookup, once it is known what is wanted
  have hgo : ∀ want : Want, alone now i (lookupEntry.go P opts requestHeaders key record tally
      record.metadata now want) s = some (.ok L, s') → response.key = key ∧
      Fate P s id file (want.spans record) response (alone now i
        (lookupEntry.go P opts requestHeaders key record tally record.metadata now want)
        (s.damaged id file)) := by
    intro want h
    rw [lookupEntry.go] at h ⊢
    split at h
    · exact materializeOr_damaged hfree hentry (fun r u => exists_alone_served rfl) h hresponse
    · exact materializeOr_damaged hfree hentry (fun r u => exists_alone_served rfl) h hresponse
    · split at h
      · exact absurd h (not_served_missed hresponse)
      · rename_i hvalidator
        split at h
        · exact absurd h (not_served_missed hresponse)
        · rename_i hcomplete
          rw [if_neg hvalidator, if_neg hcomplete]
          exact materializeOr_damaged hfree hentry (fun r u => exists_alone_served rfl) h hresponse
    · exact absurd h (not_served_missed hresponse)
  have hclock : ∀ t : Store, alone now i clock t = some (.ok now, t) := fun t => rfl
  rw [alone, lookupEntry, exec_run_bind_ok (hclock s)] at hserves
  rw [alone, lookupEntry, exec_run_bind_ok (hclock _), bodiesRead]
  rcases hwanted : wantedBytes P requestHeaders record record.metadata with _ | resolved | reason
  · simp only [hwanted] at hserves ⊢
    exact hgo _ hserves
  · simp only [hwanted] at hserves ⊢
    exact hgo _ hserves
  · simp only [hwanted] at hserves
    exact absurd hserves (not_served_missed hresponse)

/-- **The same, of what was selected.** -/
theorem selected_damaged (id : ContentId) (file : Option Bytes) (hfree : s.gate = .free)
    (hresponse : L.response = some response)
    (hrecord : s.index.entries.lookup response.key = some record)
    (selected : Option (String × EntryRecord)) :
    (∀ key r, selected = some (key, r) → s.index.entries.lookup key = some r) →
    alone now i (match selected with
      | none => missed tally "no stored variant"
      | some (key, r) => lookupEntry P opts requestHeaders (eqIgnoreAsciiCase method "HEAD") key r
          tally) s = some (.ok L, s') →
    Fate P s id file (bodiesRead P method requestHeaders record) response
      (alone now i (match selected with
        | none => missed tally "no stored variant"
        | some (key, r) => lookupEntry P opts requestHeaders (eqIgnoreAsciiCase method "HEAD") key r
            tally) (s.damaged id file)) := by
  intro hentry hserves
  rcases selected with _ | ⟨key, r⟩
  · exact absurd hserves (not_served_missed hresponse)
  · obtain ⟨rfl, hfate⟩ := lookupEntry_damaged id file hfree (hentry _ _ rfl) hserves hresponse
    obtain rfl := Option.some.inj ((hentry _ _ rfl).symm.trans hrecord)
    exact hfate

/-- **The same, of a lookup.** -/
theorem lookup_damaged (id : ContentId) (file : Option Bytes) (hfree : s.gate = .free)
    (hserves : alone now i (lookup P opts partition method url requestHeaders) s = some (.ok L, s'))
    (hresponse : L.response = some response)
    (hrecord : s.index.entries.lookup response.key = some record) :
    Fate P s id file (bodiesRead P method requestHeaders record) response
      (alone now i (lookup P opts partition method url requestHeaders) (s.damaged id file)) := by
  rw [lookup] at hserves ⊢
  simp only at hserves ⊢
  split at hserves
  · exact absurd hserves (not_served_missed hresponse)
  · rename_i hcacheable
    rw [if_neg hcacheable]
    obtain ⟨own, hown, hownEntry⟩ :=
      exists_selectVariant P now i s partition method (normalizeUrl P url) requestHeaders
    rw [alone, exec_run_bind_ok (hown s rfl)] at hserves
    rw [alone, exec_run_bind_ok (hown (s.damaged id file) rfl)]
    -- a `HEAD` that has no variant of its own has the stored `GET`'s
    by_cases hhead : (own.isNone && eqIgnoreAsciiCase method "HEAD") = true
    · obtain ⟨selected, hselected, hentry⟩ :=
        exists_selectVariant P now i s partition "GET" (normalizeUrl P url) requestHeaders
      rw [if_pos hhead, exec_run_bind_ok (hselected s rfl)] at hserves
      rw [if_pos hhead, exec_run_bind_ok (hselected (s.damaged id file) rfl)]
      exact selected_damaged id file hfree hresponse hrecord selected hentry hserves
    · rw [if_neg hhead] at hserves ⊢
      exact selected_damaged id file hfree hresponse hrecord own hownEntry hserves

end Lookups

/-- **A lookup that gave a response is a miss, and its entry goes, exactly when the file that
was replaced is read and has lost its body.** What it serves otherwise is what it served, unless
the file holds another body of the same address. -/
theorem corruption_missed_iff (P : Platform) (opts : CacheOptions) (partition : Option String)
    (method url : String) (requestHeaders : HeaderMap) (now i : ℕ) (s s' : Store) (L : Lookup)
    (response : StoredResponse) (record : EntryRecord) (id : ContentId) (file : Option Bytes)
    (hfree : s.gate = .free)
    (hserves : alone now i (lookup P opts partition method url requestHeaders) s = some (.ok L, s'))
    (hresponse : L.response = some response)
    (hrecord : s.index.entries.lookup response.key = some record) :
    (Dropped response.key (alone now i (lookup P opts partition method url requestHeaders)
        (s.damaged id file)) ↔
      id ∈ bodiesRead P method requestHeaders record ∧ LostFile P id file) ∧
    ∀ L' u response', alone now i (lookup P opts partition method url requestHeaders)
        (s.damaged id file) = some (.ok L', u) → L'.response = some response' →
      response' = response ∨ Collides P s id file := by
  have hfate := lookup_damaged id file hfree hserves hresponse hrecord
  refine ⟨hfate.dropped_iff, fun L' u response' hL' hresponse' => ?_⟩
  rw [hL'] at hfate
  cases hfate with
  | dropped _ _ h =>
    obtain ⟨reason, v, ⟨⟩, -⟩ := h
    exact nomatch hresponse'
  | served _ hL hsame => rwa [Option.some.inj (hresponse'.symm.trans hL)]

/-! ### A page whose file is replaced -/

/-- What a compressed frame begins with. -/
def zstdMagic : Bytes := [0x28, 0xb5, 0x2f, 0xfd]

/-- The platform of the examples, where only frames decompress. -/
def Platform.framed : Platform where
  __ := Platform.sample
  zstdEncode bytes := zstdMagic ++ bytes
  zstdDecode frame := if frame.take 4 = zstdMagic then some (frame.drop 4) else none

/-- The address of the page's body. -/
def pageContent : ContentId := Platform.sampleBlake3 [97]

/-- A lookup of the page. -/
def pageLookup : CacheM Lookup :=
  lookup Platform.framed .default none "GET" "http://a.test/x" ∅

/-- The page is stored, and looked up. -/
theorem exists_pageLookup : ∃ s s' L response record, s.gate = .free ∧
    alone 10 0 pageLookup s = some (.ok L, s') ∧ L.response = some response ∧
    s.index.entries.lookup response.key = some record ∧
    pageContent ∈ bodiesRead Platform.framed "GET" ∅ record := by
  let good : Store → Except CacheError Lookup → Bool := fun s r =>
    s.gate = .free && match r with
      | .ok L => L.response.any fun response =>
        (s.index.entries.lookup response.key).any fun record =>
          pageContent ∈ bodiesRead Platform.framed "GET" ∅ record
      | .error _ => false
  have hexec : ((alone 10 0 (store Platform.framed .default pageStore [97]) .empty).bind fun r =>
      (alone 10 0 pageLookup r.2).map fun q => (r.2, q)).any (fun x => good x.1 x.2.1) = true := by
    decide +kernel
  obtain ⟨⟨s, r, s'⟩, hrun, hgood⟩ := (Option.any_eq_true _ _).mp hexec
  obtain ⟨⟨r₀, s₀⟩, -, hmap⟩ := Option.bind_eq_some_iff.mp hrun
  obtain ⟨q, hq, ⟨⟩⟩ := Option.map_eq_some_iff.mp hmap
  obtain ⟨hfree, hgood⟩ := Bool.and_eq_true_iff.mp hgood
  rcases r with e | L
  · exact nomatch hgood
  · obtain ⟨response, hresponse, hany⟩ := (Option.any_eq_true _ _).mp hgood
    obtain ⟨record, hrecord, hid⟩ := (Option.any_eq_true _ _).mp hany
    exact ⟨s₀, s', L, response, record, of_decide_eq_true hfree, hq, hresponse, hrecord,
      of_decide_eq_true hid⟩

/-- **A file that does not decompress**: it is marked as compressed, and what follows is no
frame. Every lookup of the page then fails, and the entry stays. -/
theorem undecodable_fails : ∃ s s' L response record, s.gate = .free ∧
    alone 10 0 pageLookup s = some (.ok L, s') ∧ L.response = some response ∧
    s.index.entries.lookup response.key = some record ∧
    pageContent ∈ bodiesRead Platform.framed "GET" ∅ record ∧
    alone 10 0 pageLookup (s.damaged pageContent (some [1, 97])) =
      some (.error (.io "zstd"), s.damaged pageContent (some [1, 97])) ∧
    ¬Dropped response.key (alone 10 0 pageLookup (s.damaged pageContent (some [1, 97]))) := by
  obtain ⟨s, s', L, response, record, hfree, hserves, hresponse, hrecord, hid⟩ := exists_pageLookup
  have hfails := (lookup_damaged pageContent (some [1, 97]) hfree hserves hresponse
    hrecord).of_undecodable hid (e := .io "zstd") (by decide)
  refine ⟨s, s', L, response, record, hfree, hserves, hresponse, hrecord, hid, hfails, ?_⟩
  rintro ⟨reason, u, h, -⟩
  exact nomatch hfails.symm.trans h

/-- **A file that is gone**: the page is a miss, and its entry goes. -/
theorem corruption_missed_gone : ∃ s s' L response record, s.gate = .free ∧
    alone 10 0 pageLookup s = some (.ok L, s') ∧ L.response = some response ∧
    s.index.entries.lookup response.key = some record ∧
    Dropped response.key (alone 10 0 pageLookup (s.damaged pageContent none)) := by
  obtain ⟨s, s', L, response, record, hfree, hserves, hresponse, hrecord, hid⟩ := exists_pageLookup
  exact ⟨s, s', L, response, record, hfree, hserves, hresponse, hrecord,
    (corruption_missed_iff _ _ _ _ _ _ _ _ s s' L response record pageContent none hfree hserves
      hresponse hrecord).1.mpr ⟨hid, .gone⟩⟩

end Syndeo
