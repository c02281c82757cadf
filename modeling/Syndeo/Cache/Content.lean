import Syndeo.Cache.Records
import Syndeo.Cache.Walk

/-!
# What gets into the index

Two things in an index are somebody's word: the headers an entry carries, and the
hashes a peer may name a blob by. What a component promises of either is a
property of every row, and it holds of every row when it holds of each row that
is written; so the only steps that matter are the three that write one.

`Syndeo.Index.Holds` is the promise: of the headers under each key, of each hash
beside each address. It says in addition what keeps the peers' rows in step with
the blobs, that a row is of a blob that has a record. `Syndeo.contentDiscipline`
is what a thread owes it, and lets a thread read back what others put there
knowing that they owed it too; that is what a confirmation needs, which writes
headers it found. `Syndeo.Op.Puts` is what an operation is asked for, and
`Syndeo.Hand.obeys_content` that it then keeps to the discipline.

A run has a log, of who wrote which entry and who looked at which row of the
peers, in which index. A promise may speak of the log that the run ends with: a
thread that owes something for what it writes owes it only if the log says that
it did write (`Syndeo.kept_watched`).
-/

namespace Syndeo

open Concurrent Tables
open Text (eqIgnoreAsciiCase toAsciiUppercase)
open Prog (Ends Stays StaysWith stays_of_asks stays_pure stays_throw stays_return staysWith_pure
  staysWith_throw staysWith_return obeys_run_bind)

/-! ### The promise -/

variable (E : String → StoredHeaders → Prop) (K : ContentId → Bytes → Prop)

/-- **Every row is as promised**, and the peers' rows are of blobs that have a
record. -/
structure Index.Holds (ix : Index) : Prop where
  keyed : ∀ k r, ix.entries.lookup k = some r → r.key = k
  entries : ∀ k r, ix.entries.lookup k = some r → E k r.headers
  recorded : ∀ c keys, ix.peerEligible.lookup c = some keys → ix.Recorded c
  peers : ∀ c keys, ix.peerEligible.lookup c = some keys → ∀ k ∈ keys, K c k

/-- What a transaction writes is as promised. -/
def IndexAct.Puts : ∀ {β : Type}, IndexAct β → Prop
  | _, .putEntry record _ => E record.key record.headers
  | _, .refreshEntry record => E record.key record.headers
  | _, .grantEligibility c keys => ∀ k ∈ keys, K c k
  | _, _ => True

namespace Index

variable {E K} {ix ix' : Index} {key : String} {record : EntryRecord} {c : ContentId}

theorem holds_empty : Index.empty.Holds E K where
  keyed k r h := absurd h (by simp [Index.empty])
  entries k r h := absurd h (by simp [Index.empty])
  recorded c keys h := absurd h (by simp [Index.empty])
  peers c keys h := absurd h (by simp [Index.empty])

/-- Rows that were there before, and records that stay. -/
theorem Holds.of_rows (h : ix.Holds E K)
    (hentries : ∀ k r, ix'.entries.lookup k = some r → ix.entries.lookup k = some r)
    (hpeers : ∀ c keys, ix'.peerEligible.lookup c = some keys →
      ix.peerEligible.lookup c = some keys)
    (hrecorded : ∀ c keys, ix'.peerEligible.lookup c = some keys → ix.Recorded c →
      ix'.Recorded c) : ix'.Holds E K where
  keyed k r hr := h.keyed k r (hentries k r hr)
  entries k r hr := h.entries k r (hentries k r hr)
  recorded c keys hc := hrecorded c keys hc (h.recorded c keys (hpeers c keys hc))
  peers c keys hc := h.peers c keys (hpeers c keys hc)

/-- An entry is written. -/
theorem Holds.insert (h : ix.Holds E K) (hrecord : E record.key record.headers)
    (hentries : ix'.entries = ix.entries.insert record.key record)
    (hpeers : ix'.peerEligible = ix.peerEligible)
    (hrecorded : ∀ c, ix.Recorded c → ix'.Recorded c) : ix'.Holds E K where
  keyed k r hr := by
    rw [hentries] at hr
    rcases eq_or_ne k record.key with rfl | hne
    · rw [AList.lookup_insert] at hr
      rw [← Option.some.inj hr]
    · rw [AList.lookup_insert_ne hne] at hr
      exact h.keyed k r hr
  entries k r hr := by
    rw [hentries] at hr
    rcases eq_or_ne k record.key with rfl | hne
    · rw [AList.lookup_insert] at hr
      rwa [← Option.some.inj hr]
    · rw [AList.lookup_insert_ne hne] at hr
      exact h.entries k r hr
  recorded c keys hc := hrecorded c (h.recorded c keys (by rwa [hpeers] at hc))
  peers c keys hc := h.peers c keys (by rwa [hpeers] at hc)

theorem lookup_of_foldl_erase {cs : List ContentId} {peers : Table ContentId (List Bytes)}
    {keys : List Bytes} (h : (cs.foldl (fun t c => t.erase c) peers).lookup c = some keys) :
    peers.lookup c = some keys := by
  induction cs generalizing peers with
  | nil => exact h
  | cons d cs ih =>
    have herase := ih h
    rcases eq_or_ne c d with rfl | hne
    · rw [AList.lookup_erase] at herase
      exact absurd herase (by simp)
    · rwa [AList.lookup_erase_ne hne] at herase

theorem peerEligible_putEntry {newBlobs : List (ContentId × BlobRecord)}
    {orphaned : List ContentId} (hput : ix.putEntry record newBlobs = .ok (orphaned, ix')) :
    ix'.peerEligible = ix.peerEligible := by
  obtain ⟨blobs, -, rfl⟩ := putEntry_ok hput
  rfl

theorem peerEligible_removeEntry :
    (ix.removeEntry key).2.peerEligible = ix.peerEligible := by
  rw [removeEntry]
  split <;> rfl

theorem peerEligible_removeVariants {pkey : String} {keys : List String} :
    (removeVariants pkey keys ix).2.peerEligible = ix.peerEligible := by
  induction keys generalizing ix with
  | nil => rfl
  | cons k keys ih => exact ih

theorem lookup_peers_of_drop {expected : EntryRecord} {revoke : Bool} {keys : List Bytes}
    (h : (ix.dropEntryIfUnchanged key expected revoke).2.peerEligible.lookup c = some keys) :
    ix.peerEligible.lookup c = some keys := by
  rw [dropEntryIfUnchanged] at h
  split at h
  · simp only at h
    split at h
    · have hpeers : (ix.removeEntry key).2.peerEligible = ix.peerEligible :=
        peerEligible_removeEntry
      rw [← hpeers]
      exact lookup_of_foldl_erase h
    · rwa [peerEligible_removeEntry] at h
  · exact h

/-- A blob that is forgotten takes its row with it. -/
theorem Holds.forget (h : ix.Holds E K) : (ix.forgetBlobIfUnreferenced c).2.Holds E K := by
  have hpeers : ∀ d keys, (ix.forgetBlobIfUnreferenced c).2.peerEligible.lookup d = some keys →
      ix.peerEligible.lookup d = some keys ∧
        (d = c → (ix.forgetBlobIfUnreferenced c).2 = ix) := by
    intro d keys hd
    have herased : ∀ {t : Table ContentId (List Bytes)}, (t.erase c).lookup d = some keys →
        d ≠ c ∧ t.lookup d = some keys := by
      intro t ht
      rcases eq_or_ne d c with rfl | hne
      · rw [AList.lookup_erase] at ht
        exact absurd ht (by simp)
      · rw [AList.lookup_erase_ne hne] at ht
        exact ⟨hne, ht⟩
    rw [forgetBlobIfUnreferenced] at hd ⊢
    split at hd
    · split at hd
      · obtain ⟨hne, hd⟩ := herased hd
        exact ⟨hd, fun heq => absurd heq hne⟩
      · refine ⟨hd, fun _ => ?_⟩
        rw [if_neg (by assumption)]
    · obtain ⟨hne, hd⟩ := herased hd
      exact ⟨hd, fun heq => absurd heq hne⟩
  refine h.of_rows (fun k r hr => ?_) (fun d keys hd => (hpeers d keys hd).1)
    fun d keys hd hrecorded => ?_
  · rwa [entries_forget] at hr
  · rcases eq_or_ne d c with rfl | hne
    · rwa [(hpeers d keys hd).2 rfl]
    · exact recorded_forget_of_ne hne hrecorded

/-- A grant is of a blob that has a record, and adds what it was given. -/
theorem Holds.grant {verified : List Bytes} (h : ix.Holds E K) (hverified : ∀ k ∈ verified, K c k) :
    (ix.grantEligibility c verified).2.Holds E K := by
  unfold grantEligibility
  split
  · exact h
  · rename_i hcounted
    have hsome : ix.Recorded c := by
      rw [Recorded]
      rcases hb : ix.blobs.lookup c with _ | b
      · exact absurd (by rw [hb]; rfl) hcounted
      · rfl
    simp only
    split
    · exact h
    · refine ⟨h.keyed, h.entries, fun d keys hd => ?_, fun d keys hd => ?_⟩
      · rcases eq_or_ne d c with rfl | hne
        · exact hsome
        · rw [AList.lookup_insert_ne hne] at hd
          exact h.recorded d keys hd
      · rcases eq_or_ne d c with rfl | hne
        · rw [AList.lookup_insert] at hd
          obtain rfl := Option.some.inj hd
          intro k hk
          rw [(List.perm_insertionSort _ _).mem_iff, List.mem_append] at hk
          rcases hk with hk | hk
          · rcases hrow : ix.peerEligible.lookup d with _ | old
            · rw [hrow] at hk
              exact absurd hk List.not_mem_nil
            · rw [hrow] at hk
              exact h.peers d old hrow k hk
          · rw [mem_dedupAdjacent, (List.perm_insertionSort _ _).mem_iff] at hk
            exact hverified k (List.mem_of_mem_filter hk)
        · rw [AList.lookup_insert_ne hne] at hd
          exact h.peers d keys hd

/-- What a row holds, read as a list. -/
theorem Holds.eligible (h : ix.Holds E K) : ∀ k ∈ ix.eligibleHashes c, K c k := by
  intro k hk
  rw [eligibleHashes] at hk
  rcases hrow : ix.peerEligible.lookup c with _ | keys
  · rw [hrow] at hk
    exact absurd hk List.not_mem_nil
  · rw [hrow] at hk
    exact h.peers c keys hrow k hk

end Index

variable {E K}

/-- **A transaction that writes what was promised keeps the promise.** -/
theorem IndexAct.run_holds {ix ix' : Index} {β : Type} {a : IndexAct β} {b : β}
    (h : ix.Holds E K) (hputs : a.Puts E K) (hrun : a.run ix = .ok (b, ix')) : ix'.Holds E K := by
  cases a with
  | putEntry record newBlobs =>
    obtain ⟨htake, hentries⟩ := Index.putEntry_eq hrun
    refine h.insert hputs hentries ?_ fun c hc => ?_
    · exact Index.peerEligible_putEntry hrun
    · rw [Index.Recorded, Index.isSome_lookup_takeAll htake, Index.isSome_lookup_releaseAll]
      exact Or.inl hc
  | refreshEntry record =>
    obtain rfl := (Prod.mk.inj (Except.ok.inj hrun)).2
    exact h.insert hputs rfl rfl fun _ hc => hc
  | grantEligibility c keys =>
    obtain rfl := (Prod.mk.inj (Except.ok.inj hrun)).2
    exact h.grant hputs
  | forgetBlobIfUnreferenced c =>
    obtain rfl := (Prod.mk.inj (Except.ok.inj hrun)).2
    exact h.forget
  | recordAccess key now tally =>
    obtain rfl := (Prod.mk.inj (Except.ok.inj hrun)).2
    have htouched : ∀ k r, (ix.recordAccess key now tally).entries.lookup k = some r →
        ∃ old, ix.entries.lookup k = some old ∧ r.key = old.key ∧ r.headers = old.headers := by
      intro k r hr
      rcases key with _ | key
      · exact ⟨r, hr, rfl, rfl⟩
      · rcases hfound : ix.entries.lookup key with _ | old
        · simp only [Index.recordAccess, hfound] at hr
          exact ⟨r, hr, rfl, rfl⟩
        · simp only [Index.recordAccess, hfound] at hr
          rcases eq_or_ne k key with rfl | hne
          · rw [AList.lookup_insert] at hr
            obtain rfl := Option.some.inj hr
            exact ⟨old, hfound, rfl, rfl⟩
          · rw [AList.lookup_insert_ne hne] at hr
            exact ⟨r, hr, rfl, rfl⟩
    refine ⟨fun k r hr => ?_, fun k r hr => ?_, h.recorded, h.peers⟩
    · obtain ⟨old, hold, hkey, -⟩ := htouched k r hr
      exact hkey.trans (h.keyed k old hold)
    · obtain ⟨old, hold, -, hheaders⟩ := htouched k r hr
      rw [hheaders]
      exact h.entries k old hold
  | invalidate partition method url =>
    obtain rfl := (Prod.mk.inj (Except.ok.inj hrun)).2
    refine h.of_rows (fun k r hr => Index.lookup_of_removeVariants hr) (fun c keys hc => ?_)
      fun c keys _ hc => Index.recorded_invalidate.mpr hc
    exact (congrArg (AList.lookup c) Index.peerEligible_removeVariants).symm.trans hc
  | removeEntry key =>
    obtain rfl := (Prod.mk.inj (Except.ok.inj hrun)).2
    refine h.of_rows (fun k r hr => Index.lookup_of_removeEntry hr) (fun c keys hc => ?_)
      fun c keys _ hc => Index.recorded_removeEntry.mpr hc
    exact (congrArg (AList.lookup c) Index.peerEligible_removeEntry).symm.trans hc
  | dropBrokenEntry key expected =>
    obtain rfl := (Prod.mk.inj (Except.ok.inj hrun)).2
    exact h.of_rows (fun k r hr => Index.lookup_of_dropEntryIfUnchanged hr)
      (fun c keys hc => Index.lookup_peers_of_drop hc)
      fun c keys _ hc => Index.recorded_dropEntryIfUnchanged.mpr hc
  | dropEntryHolding key expected =>
    obtain rfl := (Prod.mk.inj (Except.ok.inj hrun)).2
    exact h.of_rows (fun k r hr => Index.lookup_of_dropEntryIfUnchanged hr)
      (fun c keys hc => Index.lookup_peers_of_drop hc)
      fun c keys _ hc => Index.recorded_dropEntryIfUnchanged.mpr hc
  | clear =>
    obtain rfl := (Prod.mk.inj (Except.ok.inj hrun)).2
    exact ⟨fun k r hr => absurd hr (by simp), fun k r hr => absurd hr (by simp),
      fun c keys hc => absurd hc (by simp), fun c keys hc => absurd hc (by simp)⟩
  | getEntry _ | variantKeys _ _ _ | allEntries | getBlob _ | blobTotals | orphanedBlobs
  | eligibleHashes _ | indexSri _ | staleSri | dropSri _ | contentForSri _ | bump _ _ =>
    obtain rfl := (Prod.mk.inj (Except.ok.inj hrun)).2
    exact h.of_rows (fun _ _ hr => hr) (fun _ _ hc => hc) fun _ _ _ hc => hc

/-! ### What a thread owes -/

/-- **What a thread may put** under a key, and what it saw of the peers' rows. -/
structure Hand where
  puts : String → StoredHeaders → Prop
  looks : List (ContentId × List Bytes)

namespace Hand

variable (E : String → StoredHeaders → Prop) (K : ContentId → Bytes → Prop)

/-- It writes what it may. -/
def may (K : ContentId → Bytes → Prop) (t : Hand) : ∀ {β : Type}, CacheAct β → Prop
  | _, .index a => a.Puts t.puts K
  | _, _ => True

/-- An entry it reads is as promised. -/
def sees (E : String → StoredHeaders → Prop) : ∀ {β : Type}, CacheAct β → β → Prop
  | _, .index (.getEntry key) => fun r =>
    ∀ record, r = .ok (some record) → record.key = key ∧ E key record.headers
  | _, _ => fun _ => True

/-- It remembers the rows it looks at. -/
def next (t : Hand) : ∀ {β : Type}, CacheAct β → β → Hand
  | _, .index (.eligibleHashes c) => fun r =>
    match r with
    | .ok keys => ⟨t.puts, (c, keys) :: t.looks⟩
    | .error _ => t
  | _, _ => fun _ => t

theorem next_index_error {t : Hand} {β : Type} {a : IndexAct β} {e : CacheError} :
    t.next (.index a) (.error e) = t := by cases a <;> rfl

theorem sees_index_error {β : Type} {a : IndexAct β} {e : CacheError} :
    sees E (.index a) (.error e) := by
  cases a with
  | getEntry key => exact fun record h => absurd h (by simp)
  | _ => trivial

end Hand

/-- **The discipline of the promise.** -/
def contentDiscipline (E : String → StoredHeaders → Prop) (K : ContentId → Bytes → Prop) :
    Discipline CacheAct Hand where
  may := fun {_} t a => t.may K a
  sees := fun {_} _ a b => Hand.sees E a b
  next := fun {_} t a b => t.next a b
  born := fun {_} t _ => ⟨t.puts, []⟩

/-- What the log of a run tells: that a thread wrote the entry of a key, or looked at
the peers' row of an address, in this index. -/
inductive Event
  | wrote (thread : ℕ) (key : String)
  | looked (thread : ℕ) (content : ContentId) (index : Index)

/-- What there is to tell of a step that came to something. -/
def eventsOf (i : ℕ) : ∀ {β : Type}, CacheAct β → Store → β → List Event
  | _, .index (.putEntry record _) => fun _ r =>
    match r with
    | .ok _ => [.wrote i record.key]
    | .error _ => []
  | _, .index (.refreshEntry record) => fun _ r =>
    match r with
    | .ok _ => [.wrote i record.key]
    | .error _ => []
  | _, .index (.eligibleHashes c) => fun s r =>
    match r with
    | .ok _ => [.looked i c s.index]
    | .error _ => []
  | _, _ => fun _ _ => []

/-- **The runs of cache operations, with a log.** -/
abbrev loggedRuns : System CacheAct (Store × List Event) Outcome := cacheRuns.logging eventsOf

/-- **What is kept up**: the index is as promised, so was every index that was looked
at, and what a thread saw is in the log. -/
structure Watched (E : String → StoredHeaders → Prop) (K : ContentId → Bytes → Prop)
    (A : ℕ → String → StoredHeaders → Prop) (s : Store × List Event) (t : ℕ → Hand) : Prop where
  now : s.1.index.Holds E K
  past : ∀ i c ix, Event.looked i c ix ∈ s.2 → ix.Holds E K
  puts : ∀ i, (t i).puts = A i
  seen : ∀ i, ∀ look ∈ (t i).looks, ∃ ix, Event.looked i look.1 ix ∈ s.2 ∧
    ix.eligibleHashes look.1 = look.2

namespace Watched

variable {A : ℕ → String → StoredHeaders → Prop} {s : Store} {log : List Event} {t : ℕ → Hand}
  {i : ℕ}

/-- Nothing is looked at. -/
theorem same {u : Store} (h : Watched E K A (s, log) t) (hu : u.index.Holds E K) :
    Watched E K A (u, log ++ []) (Function.update t i (t i)) := by
  rw [Function.update_eq_self, List.append_nil]
  exact ⟨hu, h.past, h.puts, h.seen⟩

/-- An entry is written. -/
theorem write {u : Store} {key : String} (h : Watched E K A (s, log) t)
    (hu : u.index.Holds E K) :
    Watched E K A (u, log ++ [.wrote i key]) (Function.update t i (t i)) := by
  rw [Function.update_eq_self]
  refine ⟨hu, fun j c ix hmem => ?_, h.puts, fun j look hlook => ?_⟩
  · rcases List.mem_append.mp hmem with hold | hnew
    · exact h.past j c ix hold
    · exact absurd hnew (by simp)
  · obtain ⟨ix, hix, hkeys⟩ := h.seen j look hlook
    exact ⟨ix, List.mem_append_left _ hix, hkeys⟩

/-- A row is looked at. -/
theorem look {c : ContentId} (h : Watched E K A (s, log) t) :
    Watched E K A (s, log ++ [.looked i c s.index])
      (Function.update t i ⟨(t i).puts, (c, s.index.eligibleHashes c) :: (t i).looks⟩) := by
  refine ⟨h.now, fun j d ix hmem => ?_, fun j => ?_, fun j look hlook => ?_⟩
  · rcases List.mem_append.mp hmem with hold | hnew
    · exact h.past j d ix hold
    · obtain ⟨-, -, rfl⟩ := Event.looked.inj (List.mem_singleton.mp hnew)
      exact h.now
  · rcases eq_or_ne j i with rfl | hne
    · rw [Function.update_self]
      exact h.puts j
    · rw [Function.update_of_ne hne]
      exact h.puts j
  · have hold : look ∈ (t j).looks → ∃ ix, Event.looked j look.1 ix ∈
        log ++ [.looked i c s.index] ∧ ix.eligibleHashes look.1 = look.2 := by
      intro hmem
      obtain ⟨ix, hix, hkeys⟩ := h.seen j look hmem
      exact ⟨ix, List.mem_append_left _ hix, hkeys⟩
    rcases eq_or_ne j i with rfl | hne
    · rw [Function.update_self] at hlook
      rcases List.mem_cons.mp hlook with rfl | hmem
      · exact ⟨_, List.mem_append_right _ (List.mem_singleton_self _), rfl⟩
      · exact hold hmem
    · rw [Function.update_of_ne hne] at hlook
      exact hold hlook

/-- **A transaction** that the mover may make, and that the log may tell of. -/
theorem transact {W : Event → Prop} {β : Type} {a : IndexAct β} {r : β} {ix : Index}
    (hA : ∀ i key headers, W (.wrote i key) → A i key headers → E key headers)
    (h : Watched E K A (s, log) t) (hputs : a.Puts (t i).puts K)
    (hrun : a.run s.index = .ok (r, ix)) (hW : ∀ e ∈ eventsOf i (.index a) s (.ok r), W e) :
    Hand.sees E (.index a) (.ok r) ∧
      Watched E K A ({ s with index := ix }, log ++ eventsOf i (.index a) s (.ok r))
        (Function.update t i ((t i).next (.index a) (.ok r))) := by
  have hput : a.Puts E K := by
    rw [h.puts] at hputs
    cases a with
    | putEntry record newBlobs => exact hA i _ _ (hW _ (List.mem_singleton_self _)) hputs
    | refreshEntry record => exact hA i _ _ (hW _ (List.mem_singleton_self _)) hputs
    | grantEligibility c keys => exact hputs
    | _ => trivial
  have hix := IndexAct.run_holds h.now hput hrun
  cases a with
  | getEntry key =>
    obtain ⟨rfl, rfl⟩ := Prod.mk.inj (Except.ok.inj hrun)
    refine ⟨fun record hrecord => ?_, h.same hix⟩
    have hlookup : s.index.entries.lookup key = some record := Except.ok.inj hrecord
    exact ⟨h.now.keyed key record hlookup, h.now.entries key record hlookup⟩
  | putEntry record newBlobs => exact ⟨trivial, h.write hix⟩
  | refreshEntry record => exact ⟨trivial, h.write hix⟩
  | eligibleHashes c =>
    obtain ⟨rfl, rfl⟩ := Prod.mk.inj (Except.ok.inj hrun)
    exact ⟨trivial, h.look⟩
  | _ => exact ⟨trivial, h.same hix⟩

end Watched

/-- **The discipline governs the runs**, where what a thread may put, and what the log
tells that it wrote, is as promised. -/
theorem governs_watched {W : Event → Prop} {A : ℕ → String → StoredHeaders → Prop}
    {Q : ℕ → Outcome → Hand → Prop}
    (hA : ∀ i key headers, W (.wrote i key) → A i key headers → E key headers) :
    Governs (cacheRuns.loggingWithin eventsOf W) (contentDiscipline E K) (Watched E K A) Q where
  child := fun _ _ _ _ _ _ hchild => absurd hchild (by simp [System.loggingWithin, cacheSystem,
    System.ofPerform])
  step := by
    rintro i n β a ⟨s, log⟩ b ⟨s', log'⟩ t - h hmay ⟨⟨⟨w, -, hperform⟩, hlog⟩, hW⟩
    obtain rfl : log' = log ++ eventsOf i a s b := hlog
    have hchild : ((cacheRuns.loggingWithin eventsOf W).child a).isSome = false := rfl
    rw [hchild, Discipline.advance_false]
    change Store.perform w i a s = some (b, s') at hperform
    cases a with
    | index a =>
      have hkept : ∀ e, Watched E K A (s, log ++ eventsOf i (.index a) s (.error e))
          (Function.update t i ((contentDiscipline E K).next (t i) (.index a) (.error e))) := by
        intro e
        have hnone : eventsOf i (.index a) s (.error e) = [] := by cases a <;> rfl
        rw [hnone, show (contentDiscipline E K).next (t i) (.index a) (.error e) = t i from
          Hand.next_index_error]
        exact h.same h.now
      rcases Store.perform_index.mp hperform with ⟨m, -, rfl, rfl⟩ | ⟨-, r, ix, hrun, rfl, rfl⟩ |
        ⟨-, e, -, rfl, rfl⟩
      · exact ⟨Hand.sees_index_error E, hkept _⟩
      · exact h.transact hA hmay hrun hW
      · exact ⟨Hand.sees_index_error E, hkept _⟩
    | file a =>
      rcases Store.perform_file.mp hperform with ⟨m, -, -, rfl⟩ | ⟨-, -, rfl⟩
      · exact ⟨trivial, h.same h.now⟩
      · exact ⟨trivial, h.same h.now⟩
    | gate a =>
      obtain ⟨gate, -, rfl⟩ := Store.perform_gate.mp hperform
      exact ⟨trivial, h.same h.now⟩
    | now =>
      obtain ⟨-, rfl⟩ := Store.perform_now.mp hperform
      exact ⟨trivial, h.same h.now⟩

/-! ### What an operation is asked for -/

variable (P : Platform)

/-- What a store may put: the response's own headers, and those of the `GET` that a
`HEAD` refreshes. -/
structure Storing.Puts (E A : String → StoredHeaders → Prop) (w : Storing) : Prop where
  whole : A (entryKey w.partition (toAsciiUppercase w.method) (normalizeUrl P w.url) (w.vkey P))
    (.forStorage w.responseHeaders)
  head : ∀ vkey stored, E (entryKey w.partition "GET" (normalizeUrl P w.url) vkey) stored →
    A (entryKey w.partition "GET" (normalizeUrl P w.url) vkey)
      (.forStorage (apply304 stored.toHeaderMap w.responseHeaders))

/-- And what the store of a range may put: the headers of the representation it is part
of. -/
def Storing.PutsRange (A : String → StoredHeaders → Prop) (w : Storing) : Prop :=
  ∀ completeLen, A (entryKey w.partition "GET" (normalizeUrl P w.url) (w.vkey P))
    (.forStorage (representationHeaders w.responseHeaders completeLen))

/-- **What an operation is asked for**: that of the headers it finds it makes such as
it may put, and that it grants hashes as promised. -/
def Op.Puts (E A : String → StoredHeaders → Prop) (K : ContentId → Bytes → Prop) : Op → Prop
  | .store w _ => w.Puts P E A ∧ (w.status = 206 → w.PutsRange P A)
  | .finishStreamed w _ => w.Puts P E A
  | .recordNotModified key freshHeaders _ _ => ∀ stored, E key stored →
    A key (.forStorage (apply304 stored.toHeaderMap freshHeaders))
  | .grantPeerEligibility content declared => ∀ bytes, P.blake3 bytes = content →
    ∀ h ∈ declared.atStrongest, h.matches P bytes = true →
      K content (sriKey h.algorithm h.digest)
  | _ => True

/-- What a thread that answers a peer has seen: a row that is not empty, and that names
the hash it was asked for. -/
def PeerAsk.Shown (asked : PeerAsk) (bytes : Bytes) (content : ContentId) (keys : List Bytes) :
    Prop :=
  keys ≠ [] ∧ P.blake3 bytes = content ∧
    match asked with
    | .content id => id = content
    | .integrity h => sriKey h.algorithm h.digest ∈ keys ∧ P.digest h.algorithm bytes = h.digest

/-- **What an operation has seen when it returns**: nothing in particular, unless it
gives a peer some bytes. -/
def Op.Seen : Op → Outcome → Hand → Prop
  | .bodyForPeer asked, .ok (.body (some bytes)), t =>
    ∃ look ∈ t.looks, asked.Shown P bytes look.1 look.2
  | _, _, _ => True

namespace Hand

/-- The thread may put this. -/
def Holding (A : String → StoredHeaders → Prop) (t : Hand) : Prop := t.puts = A

section Walk

variable {P} {opts : CacheOptions} {T : Hand → Prop} {w : Storing} {α β : Type}
  {A : String → StoredHeaders → Prop}
  {partition : Option String} {method url key : String} {h : HeaderMap} {record : EntryRecord}

/-- **A piece that is plain** keeps to the discipline and sees nothing. -/
theorem stays_plain : StaysPlain (contentDiscipline E K) T :=
  StaysPlain.of_act fun a t ha ht => by
    cases a with
    | index a => cases a <;> first | exact ha.elim | exact ⟨trivial, fun _ _ => ht⟩
    | _ => exact ⟨trivial, fun _ _ => ht⟩

theorem stays_ask {a : IndexAct β} (ha : (CacheAct.index a).Plain) :
    Stays (contentDiscipline E K) T (ask a) := stays_plain ⟨ha, fun _ => trivial⟩

theorem stays_move {a : GateAct} : Stays (contentDiscipline E K) T (move a) :=
  stays_plain ⟨trivial, fun _ => trivial⟩

theorem stays_putEntry {newBlobs : List (ContentId × BlobRecord)}
    (hrecord : A record.key record.headers) :
    Stays (contentDiscipline E K) (Holding A) (ask (.putEntry record newBlobs)) :=
  fun _ ht => ⟨(congrFun₂ ht _ _).mpr hrecord, fun _ _ => ht⟩

theorem stays_refreshEntry (hrecord : A record.key record.headers) :
    Stays (contentDiscipline E K) (Holding A) (ask (.refreshEntry record)) :=
  fun _ ht => ⟨(congrFun₂ ht _ _).mpr hrecord, fun _ _ => ht⟩

/-- An entry that was read is as promised. -/
theorem staysWith_getEntry : StaysWith (contentDiscipline E K) T
    (fun found => ∀ record, found = some record → record.key = key ∧ E key record.headers)
    (ask (.getEntry key)) := by
  refine fun _ ht => ⟨trivial, fun r hr => ?_⟩
  rcases r with e | found
  · exact ⟨ht, trivial⟩
  · exact ⟨ht, fun record hrecord => hr record (congrArg Except.ok hrecord)⟩

theorem staysWith_holdingShared {G : α → Prop} {x : CacheM α}
    (hx : StaysWith (contentDiscipline E K) T G x) :
    StaysWith (contentDiscipline E K) T G (holdingShared x) :=
  stays_move.with.bind fun _ _ => hx.lift_run.bind fun _ hr =>
    stays_move.with.bind fun _ _ => staysWith_return hr

/-- The entry a request selects is as promised. -/
def Selected (E : String → StoredHeaders → Prop) (partition : Option String) (method url : String)
    (selected : Option (String × EntryRecord)) : Prop :=
  ∀ key record, selected = some (key, record) →
    record.key = key ∧ E key record.headers ∧ ∃ vkey, key = entryKey partition method url vkey

theorem staysWith_selectVariant :
    StaysWith (contentDiscipline E K) T (Selected E partition method url)
      (selectVariant P partition method url h) := by
  have hlist : StaysWith (contentDiscipline E K) T (fun keys => ∀ v ∈ keys, True)
      (ask (.variantKeys partition method url)) :=
    (Stays.with (stays_ask (a := .variantKeys partition method url) trivial)).mono
      fun _ _ _ _ => trivial
  have hselects : StaysWith (contentDiscipline E K) T (fun selected => ∀ key r,
      selected = some (key, r) → (∃ v, True ∧ key = entryKey partition method url v) ∧
        (r.key = key ∧ E key r.headers) ∧ selects P r h = true)
      (selectVariant P partition method url h) :=
    staysWith_selects hlist fun _ _ => staysWith_getEntry
  refine hselects.mono fun selected hselected key record heq => ?_
  obtain ⟨⟨vkey, -, hkey⟩, ⟨hrecord, hE⟩, -⟩ := hselected key record heq
  exact ⟨hrecord, hE, vkey, hkey⟩

/-- **A `HEAD`** writes the headers it folded into those it found. -/
theorem stays_reconcileHead {headHeaders : HeaderMap}
    (hhead : ∀ vkey stored, E (entryKey partition "GET" url vkey) stored →
      A (entryKey partition "GET" url vkey)
        (.forStorage (apply304 stored.toHeaderMap headHeaders))) :
    Stays (contentDiscipline E K) (Holding A) (reconcileHead P partition url h headHeaders) := by
  refine stays_plain.dry.reconcileHead staysWith_selectVariant fun key record hselected => ?_
  obtain ⟨hkey, hE, vkey, rfl⟩ := hselected
  refine stays_refreshEntry ?_
  change A record.key _
  rw [hkey]
  exact hhead vkey _ hE

/-- The entry of a whole body has the response's own headers. -/
theorem stays_putRecord (hw : w.Puts P E A) (receipt : WriteReceipt) (now : ℕ)
    (newBlobs : List (ContentId × BlobRecord)) :
    Stays (contentDiscipline E K) (Holding A)
      (ask (.putEntry (w.record P receipt now) newBlobs)) := stays_putEntry hw.whole

/-- **A store.** -/
theorem stays_store (hw : w.Puts P E A) (hrange : w.status = 206 → w.PutsRange P A) {body : Bytes} :
    Stays (contentDiscipline E K) (Holding A) (storeWithProvenance P opts w body) :=
  stays_plain.store (K := fun _ => True) (fun _ => staysWith_getEntry.mono fun _ _ _ _ => trivial)
    (fun _ => stays_putRecord hw) (fun _ _ => stays_reconcileHead hw.head)
    fun _ hstatus _ _ _ _ _ hleaves => by
      -- the entry of a range has the headers of its representation
      obtain ⟨_, _, _, _, rfl⟩ := hleaves.fields
      exact stays_putEntry (hrange hstatus _)

/-- **A store of a body that came in pieces.** -/
theorem stays_finishStreamed (hw : w.Puts P E A) {writer : BlobWriter} :
    Stays (contentDiscipline E K) (Holding A) (finishStreamed P opts w writer) :=
  stays_plain.finishStreamed (fun _ => stays_putRecord hw) fun _ _ => stays_reconcileHead hw.head

/-- **A confirmation** writes the headers it folded into those it found. -/
theorem stays_recordNotModified {freshHeaders : HeaderMap} {requestTime responseTime : ℕ}
    (hfold : ∀ stored, E key stored →
      A key (.forStorage (apply304 stored.toHeaderMap freshHeaders))) :
    Stays (contentDiscipline E K) (Holding A)
      (recordNotModified P key freshHeaders requestTime responseTime) := by
  refine staysWith_getEntry.then fun found hfound => ?_
  rcases found with _ | old
  · exact stays_pure
  · obtain ⟨hkey, hE⟩ := hfound old rfl
    refine Stays.bind (stays_refreshEntry ?_) fun _ => stays_plain.dry.confirmed
    change A old.key _
    rw [hkey]
    exact hfold _ hE

/-- A body that was read hashes to the address it was read by. -/
theorem staysWith_get {id : ContentId} :
    StaysWith (contentDiscipline E K) T (fun bytes => P.blake3 bytes = id) (get P id) := by
  refine StaysWith.bind (Stays.with (stays_plain ⟨trivial, fun _ => trivial⟩)) fun file _ => ?_
  rcases file with _ | raw
  · exact staysWith_throw
  · refine StaysWith.bind (Stays.with stays_return) fun decoded _ => ?_
    rcases decoded with _ | bytes
    · exact staysWith_throw
    · simp only
      split
      · exact staysWith_pure ‹_›
      · exact StaysWith.bind (Stays.with (Stays.lift_run (stays_plain ⟨trivial, fun _ => trivial⟩)))
          fun _ _ => staysWith_throw

/-- **A grant** is of hashes that match the blob's bytes. -/
theorem stays_grantPeerEligibility {content : ContentId} {declared : Integrity}
    (hgrant : ∀ bytes, P.blake3 bytes = content → ∀ h ∈ declared.atStrongest,
      h.matches P bytes = true → K content (sriKey h.algorithm h.digest)) :
    Stays (contentDiscipline E K) T (grantPeerEligibility P content declared) := by
  rw [grantPeerEligibility]
  split
  · exact stays_pure
  · refine (staysWith_holdingShared (Stays.with ?_)).stays
    refine staysWith_get.lift_run.then fun r hr => ?_
    rcases r with e | bytes
    · simp only
      split
      · exact stays_pure
      · exact stays_throw
    · refine Stays.bind (fun t ht => ⟨fun k hk => ?_, fun _ _ => ht⟩) fun _ => stays_pure
      obtain ⟨h, hmem, rfl⟩ := List.mem_map.mp hk
      rw [mem_dedupAdjacent, List.mem_filter] at hmem
      exact hgrant bytes (hr bytes rfl) h hmem.1 hmem.2

/-- **What a peer is given** has been looked for in a row. -/
theorem obeys_bodyNamed {content : ContentId} {named : Option Hash} {t : Hand} :
    (bodyNamed P content named).run.Obeys (contentDiscipline E K)
      (fun r u => ∀ bytes, r = .ok (some bytes) → P.blake3 bytes = content ∧
        ∃ keys, (content, keys) ∈ u.looks ∧ keys ≠ [] ∧ ∀ h, named = some h →
          sriKey h.algorithm h.digest ∈ keys ∧ P.digest h.algorithm bytes = h.digest) t := by
  have hnone : ∀ bytes, (.ok none : Except CacheError (Option Bytes)) ≠ .ok (some bytes) :=
    fun bytes h => absurd h (by simp)
  refine obeys_run_bind.mpr ⟨trivial, fun r _ => Prog.obeys_pure.mpr ?_⟩
  rcases r with e | keys
  · exact fun bytes h => absurd h (by simp)
  · rw [Prog.orElse_ok]
    change Prog.Obeys (contentDiscipline E K) _ (ExceptT.run (if _ then _ else _))
      (⟨t.puts, (content, keys) :: t.looks⟩ : Hand)
    split
    · exact fun bytes h => absurd h (hnone bytes)
    · rename_i hshown
      rw [Bool.or_eq_true, not_or, Bool.not_eq_true, List.isEmpty_eq_false_iff] at hshown
      obtain ⟨hne, hnamed⟩ := hshown
      have hget : StaysWith (contentDiscipline E K) (· = ⟨t.puts, (content, keys) :: t.looks⟩)
          (fun bytes => P.blake3 bytes = content) (get P content) := staysWith_get
      have hread := hget.lift_run _ rfl
      refine obeys_run_bind.mpr (hread.mono fun r u hu => ?_)
      rcases r with e | r
      · exact fun bytes h => absurd h (by simp)
      · obtain ⟨rfl, hbytes⟩ := hu
        rcases r with e | bytes
        · simp only [Prog.orElse]
          split
          · exact fun bytes h => absurd h (hnone bytes)
          · exact fun bytes h => absurd h (by simp)
        · simp only [Prog.orElse]
          split
          · rename_i hmatches
            rintro bytes' heq
            obtain rfl := Option.some.inj (Except.ok.inj heq)
            refine ⟨hbytes bytes rfl, keys, List.mem_cons_self, hne, ?_⟩
            rintro h rfl
            exact ⟨by simpa using hnamed, (Hash.matches_iff P).mp (by simpa using hmatches)⟩
          · exact fun bytes h => absurd h (hnone bytes)

theorem obeys_bodyForPeer {asked : PeerAsk} {t : Hand} :
    (bodyForPeer P asked).run.Obeys (contentDiscipline E K)
      (fun r u => ∀ bytes, r = .ok (some bytes) →
        ∃ look ∈ u.looks, asked.Shown P bytes look.1 look.2) t := by
  cases asked with
  | content id =>
    refine obeys_bodyNamed.mono fun r u hr bytes heq => ?_
    obtain ⟨hid, keys, hmem, hne, -⟩ := hr bytes heq
    exact ⟨_, hmem, hne, hid, rfl⟩
  | integrity h =>
    refine obeys_run_bind.mpr ⟨trivial, fun r _ => ?_⟩
    rcases r with e | found
    · exact fun bytes h => absurd h (by simp)
    · rcases found with _ | id
      · exact fun bytes h => absurd h (by simp)
      · refine obeys_bodyNamed.mono fun r u hr bytes heq => ?_
        obtain ⟨hid, keys, hmem, hne, hnamed⟩ := hr bytes heq
        exact ⟨_, hmem, hne, hid, hnamed h rfl⟩

/-- **Every operation keeps to the discipline**, where it is asked for what was
promised. -/
theorem obeys_content {op : Op} (hop : op.Puts P E A K) {t : Hand} (ht : t.puts = A) :
    (op.program P opts).Obeys (contentDiscipline E K) (op.Seen P) t := by
  have hstays : ∀ {α : Type} {x : CacheM α} {reply : α → Reply},
      Stays (contentDiscipline E K) (Holding A) x →
      (∀ r u, op.Seen P r u) →
      (do pure (reply (← x)) : CacheM Reply).run.Obeys (contentDiscipline E K) (op.Seen P)
        t := by
    intro α x reply hx hseen
    exact (hx.bind fun _ => stays_pure) t ht |>.mono fun r u _ => hseen r u
  cases op with
  | lookup partition method url requestHeaders =>
    exact hstays (stays_plain.dry dry_lookup) fun _ _ => trivial
  | store w body => exact hstays (stays_store hop.1 hop.2) fun _ _ => trivial
  | finishStreamed w writer => exact hstays (stays_finishStreamed hop) fun _ _ => trivial
  | recordNotModified key freshHeaders requestTime responseTime =>
    exact hstays (stays_recordNotModified hop) fun _ _ => trivial
  | discardRepresentation key content =>
    exact hstays (stays_plain.dry dry_discardRepresentation) fun _ _ => trivial
  | invalidate partition method url =>
    exact hstays (stays_plain.dry dry_invalidateUrl) fun _ _ => trivial
  | purge partition method url => exact hstays (stays_plain.dry dry_purge) fun _ _ => trivial
  | enforceBudget => exact hstays (stays_plain.dry dry_enforceBudget) fun _ _ => trivial
  | collectGarbage => exact hstays (stays_plain.dry dry_collectGarbage) fun _ _ => trivial
  | clear => exact hstays (stays_plain.dry dry_clear) fun _ _ => trivial
  | grantPeerEligibility content declared =>
    exact hstays (stays_grantPeerEligibility hop) fun _ _ => trivial
  | bodyForPeer asked =>
    refine obeys_run_bind.mpr (obeys_bodyForPeer.mono fun r u hr => ?_)
    rcases r with e | (_ | bytes)
    · trivial
    · trivial
    · exact hr bytes rfl
  | acceptPeerBody integrity body =>
    exact hstays (stays_plain.dry dry_acceptPeerBody) fun _ _ => trivial

end Walk

end Hand

/-! ### Every run -/

variable (opts : CacheOptions)

/-- The start of a run with a log. -/
def logged (ops : List Op) : Config CacheAct (Store × List Event) Outcome :=
  ⟨(.empty, []), ops.map (Op.program P opts)⟩

variable {P opts}

/-- **What was promised is so, in every run**, where every operation is asked for no
more, of what the run's log tells; and what a thread returned it had seen. -/
theorem kept_watched {ops : List Op} {A : ℕ → String → StoredHeaders → Prop}
    (hops : ∀ i (op : Op), ops[i]? = some op → op.Puts P E (A i) K)
    {c : Config CacheAct (Store × List Event) Outcome}
    (hA : ∀ i key headers, Event.wrote i key ∈ c.shared.2 → A i key headers → E key headers)
    (hrun : loggedRuns.Runs (logged P opts ops) c) :
    Kept (contentDiscipline E K) (Watched E K A)
      (fun i r t => ∀ op, ops[i]? = some op → op.Seen P r t) c := by
  refine Kept.runs (governs_watched hA) ⟨fun i => ⟨A i, []⟩, ?_, fun i p hi => ?_⟩ hrun.within_log
  · exact ⟨Index.holds_empty, fun i c ix hmem => absurd hmem List.not_mem_nil, fun i => rfl,
      fun i look hlook => absurd hlook List.not_mem_nil⟩
  · change (ops.map (Op.program P opts))[i]? = some p at hi
    rw [List.getElem?_map] at hi
    obtain ⟨op, hop, rfl⟩ := Option.map_eq_some_iff.mp hi
    refine (Hand.obeys_content (hops i op hop) rfl).mono fun r t hseen op' hop' => ?_
    obtain rfl := Option.some.inj (hop.symm.trans hop')
    exact hseen

end Syndeo
