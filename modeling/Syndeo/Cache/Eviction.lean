import Mathlib.Algebra.Order.Ring.Rat
import Syndeo.Cache.Reading

/-!
# Keeping to the budget

Entries are dropped, worst first, until what the blobs take on the disk is down to the
target. The loop does not add that up again after each entry; it keeps a running total,
off which it takes a blob when the last entry that names it has gone. Where the reference
counts are exact, the running total is at every iteration what the sum would be
(`Syndeo.Loop.Sound`), and so the loop ends as it should: at the target, or with no entry
left (`Syndeo.budget_enforced`).

It is only entered where the blobs take more than the capacity. Between the target and
the capacity nothing is dropped.
-/

namespace Syndeo

open Concurrent Tables
open Prog (Yields exec_run_bind_ok)

/-! ### What is on the disk -/

/-- What a blob takes of the disk, if anything refers to it. -/
def BlobRecord.onDisk (b : BlobRecord) : ℕ := if b.refcount = 0 then 0 else b.storedLen

/-- What all of them take. -/
def Index.onDisk (ix : Index) : ℕ := ix.blobTotals.2.2.1

namespace Index

variable {ix : Index} {blobs : Table ContentId BlobRecord} {c d : ContentId} {cs : List ContentId}
  {key : String}

theorem onDisk_eq_total : ix.onDisk = total BlobRecord.onDisk ix.blobs := by
  have hsum : ∀ l : List BlobRecord, ((l.filter fun b => b.refcount ≠ 0).map
      BlobRecord.storedLen).sum = (l.map BlobRecord.onDisk).sum := by
    intro l
    induction l with
    | nil => rfl
    | cons b l ih =>
      rw [List.map_cons, List.sum_cons, ← ih, BlobRecord.onDisk]
      by_cases h : b.refcount = 0
      · simp [h]
      · simp [h]
  rw [total_eq_sum_rows, onDisk, blobTotals]
  simp only
  rw [hsum, List.map_map]
  rfl

/-- What the file of a blob takes, by its record. -/
def storedLenIn (blobs : Table ContentId BlobRecord) (c : ContentId) : ℕ :=
  worth BlobRecord.storedLen (blobs.lookup c)

theorem storedLenIn_release : storedLenIn (release blobs c).1 d = storedLenIn blobs d := by
  rw [release]
  rcases hb : blobs.lookup c with _ | b
  · rfl
  · rw [storedLenIn, storedLenIn]
    rcases eq_or_ne d c with rfl | hne
    · rw [AList.lookup_insert, hb]
      rfl
    · rw [AList.lookup_insert_ne hne]

theorem storedLenIn_releaseAll : storedLenIn (releaseAll cs blobs).1 d = storedLenIn blobs d := by
  induction cs generalizing blobs with
  | nil => rfl
  | cons c cs ih =>
    rw [releaseAll]
    exact ih.trans storedLenIn_release

/-- **Dropping a reference** takes the blob off the total if it was the last. -/
theorem total_release (h : 0 < countIn blobs c) : total BlobRecord.onDisk (release blobs c).1 +
    (if (release blobs c).2 then storedLenIn blobs c else 0) = total BlobRecord.onDisk blobs := by
  rcases hb : blobs.lookup c with _ | b
  · rw [countIn, hb] at h
    exact absurd h (by simp)
  · have hcount : 0 < b.refcount := by
      rw [countIn, hb] at h
      exact h
    have hinsert := total_insert BlobRecord.onDisk blobs c { b with refcount := b.refcount - 1 }
    rw [hb, worth_some] at hinsert
    have hold : b.onDisk = b.storedLen := if_neg hcount.ne'
    rw [release, hb]
    simp only [storedLenIn, hb, worth_some, decide_eq_true_eq]
    split
    · rename_i hlast
      have hnew : BlobRecord.onDisk { b with refcount := b.refcount - 1 } = 0 := if_pos hlast
      omega
    · rename_i hmore
      have hnew : BlobRecord.onDisk { b with refcount := b.refcount - 1 } = b.storedLen :=
        if_neg hmore
      omega

/-- Dropping several takes off those that were orphaned. -/
theorem total_releaseAll (hcs : cs.Nodup) (h : ∀ c ∈ cs, 0 < countIn blobs c) :
    total BlobRecord.onDisk (releaseAll cs blobs).1 +
      (((releaseAll cs blobs).2).map (storedLenIn blobs)).sum = total BlobRecord.onDisk blobs := by
  induction cs generalizing blobs with
  | nil => rfl
  | cons c cs ih =>
    obtain ⟨hc, hcs'⟩ := List.nodup_cons.mp hcs
    have hrest := ih hcs' fun d hd => by
      have hne : d ≠ c := fun heq => hc (heq ▸ hd)
      rw [countIn_release, if_neg hne, Nat.sub_zero]
      exact h d (List.mem_cons_of_mem _ hd)
    have hfirst := total_release (h c List.mem_cons_self)
    have hsame : (((releaseAll cs (release blobs c).1).2).map (storedLenIn (release blobs c).1)) =
        (((releaseAll cs (release blobs c).1).2).map (storedLenIn blobs)) :=
      List.map_congr_left fun d _ => storedLenIn_release
    rw [hsame] at hrest
    rw [releaseAll]
    simp only
    split
    · rename_i hlast
      rw [hlast, if_pos rfl] at hfirst
      rw [List.map_cons, List.sum_cons]
      omega
    · rename_i hmore
      rw [if_neg hmore] at hfirst
      omega

/-- A blob that is orphaned is one of those that were let go, and nothing refers to it. -/
theorem countIn_of_orphaned (hcs : cs.Nodup) (hd : d ∈ (releaseAll cs blobs).2) :
    d ∈ cs ∧ countIn (releaseAll cs blobs).1 d = 0 := by
  induction cs generalizing blobs with
  | nil => exact nomatch hd
  | cons c cs ih =>
    obtain ⟨hc, hcs'⟩ := List.nodup_cons.mp hcs
    have hlater : d ∈ (releaseAll cs (release blobs c).1).2 →
        d ∈ c :: cs ∧ countIn (releaseAll cs (release blobs c).1).1 d = 0 :=
      fun hd => (ih hcs' hd).imp_left (List.mem_cons_of_mem c)
    rw [releaseAll] at hd ⊢
    simp only at hd ⊢
    split at hd
    · rename_i hlast
      rcases List.mem_cons.mp hd with rfl | hd
      · refine ⟨List.mem_cons_self, ?_⟩
        have hcount : countIn blobs d - 1 = 0 := by
          rw [release] at hlast
          rw [countIn]
          rcases hb : blobs.lookup d with _ | b
          · rfl
          · rw [hb] at hlast
            exact of_decide_eq_true hlast
        rw [countIn_releaseAll hcs', if_neg hc, countIn_release, if_pos rfl, hcount]
      · exact hlater hd
    · exact hlater hd

/-- **Taking an entry out** takes off the total what its orphans took. -/
theorem onDisk_removeEntry (h : ix.RefcountsExact) :
    (ix.removeEntry key).2.onDisk +
      (((ix.removeEntry key).1).map (storedLenIn (ix.removeEntry key).2.blobs)).sum = ix.onDisk := by
  rw [onDisk_eq_total, onDisk_eq_total]
  rcases hfound : ix.entries.lookup key with _ | r
  · rw [removeEntry, hfound]
    rfl
  · have hblobs : (ix.removeEntry key).2.blobs = (releaseAll (ix.heldAt key) ix.blobs).1 := by
      rw [removeEntry, hfound]
      rfl
    have horphaned : (ix.removeEntry key).1 = (releaseAll (ix.heldAt key) ix.blobs).2 := by
      rw [removeEntry, hfound]
      rfl
    rw [hblobs, horphaned, List.map_congr_left fun d _ => storedLenIn_releaseAll]
    refine total_releaseAll nodup_heldAt fun c hc => ?_
    have hcount : ix.refcount c = ix.references c := h c
    have hnamed : 0 < ix.references c := by
      have hweight : weight (names c) key (ix.entries.lookup key) ≤ count (names c) ix.entries :=
        weight_le_count
      rw [weight_lookup, if_pos hc] at hweight
      exact hweight
    rw [refcount] at hcount
    omega

/-- What is forgotten, nothing refers to. -/
theorem refcount_of_forgotten (h : (ix.forgetBlobIfUnreferenced c).1 = true) :
    ix.refcount c = 0 := by
  rw [forgetBlobIfUnreferenced] at h
  rw [refcount, countIn]
  rcases hb : ix.blobs.lookup c with _ | b
  · rfl
  · rw [hb] at h
    simp only at h
    split at h
    · rename_i hzero
      exact hzero
    · cases h

/-- **Forgetting a blob that nothing refers to** takes nothing off. -/
theorem onDisk_forget : (ix.forgetBlobIfUnreferenced c).2.onDisk = ix.onDisk := by
  rw [onDisk_eq_total, onDisk_eq_total, forgetBlobIfUnreferenced]
  split
  · rename_i b hb
    split
    · rename_i hzero
      have herase := total_erase BlobRecord.onDisk ix.blobs c
      have hnone : b.onDisk = 0 := if_pos hzero
      rw [hb, worth_some, hnone] at herase
      exact herase
    · rfl
  · rfl

end Index

/-! ### One iteration -/

/-- The store, after an entry was taken out and its orphans were deleted. -/
def Store.evict (s : Store) (key : String) : Store :=
  ({ s with index := (s.index.removeEntry key).2 }).sweep (s.index.removeEntry key).1

/-- What the body of the loop does to the running total. -/
def evictOne (key : String) (onDisk : ℕ) : CacheM ℕ := do
  let orphaned ← ask (.removeEntry key)
  let onDisk ← releaseFrom orphaned onDisk
  let _ ← deleteOrphans orphaned
  pure onDisk

theorem evictFrom_cons {target onDisk evicted : ℕ} {key : String} {r : EntryRecord}
    {rest : List (String × EntryRecord)} : evictFrom target ((key, r) :: rest) onDisk evicted =
      if onDisk ≤ target then pure evicted
      else evictOne key onDisk >>= fun onDisk => evictFrom target rest onDisk (evicted + 1) := by
  rw [evictFrom]
  split
  · rfl
  · simp only [evictOne, bind_assoc, pure_bind]

section Iteration

variable {s : Store} {key : String} {i now : ℕ} {ids : List ContentId}
  {ok : ∀ {β : Type}, CacheAct β → Store → Prop}

theorem Store.onDisk_sweep : (s.sweep ids).index.onDisk = s.index.onDisk := by
  induction ids generalizing s with
  | nil => rfl
  | cons id rest ih => exact ih.trans Index.onDisk_forget

theorem Store.counts_sweep (h : s.index.RefcountsExact) : (s.sweep ids).index.RefcountsExact := by
  induction ids generalizing s with
  | nil => exact h
  | cons id rest ih => exact ih (Index.forget_exact h)

/-- What is deleted is one of them, and nothing refers to it. -/
theorem Store.lookup_sweep (h : s.index.RefcountsExact) (c : ContentId) :
    (s.sweep ids).files.lookup c = s.files.lookup c ∨
      (s.sweep ids).files.lookup c = none ∧ c ∈ ids ∧ s.index.references c = 0 := by
  induction ids generalizing s with
  | nil => exact Or.inl rfl
  | cons id rest ih =>
    have hreferences : (s.drop id).index.references c = s.index.references c := by
      rw [Index.references, Index.references]
      exact congrArg _ Index.entries_forget
    have hcounts : (s.drop id).index.RefcountsExact := Index.forget_exact h
    rcases ih hcounts with hsame | ⟨hnone, hmem, hzero⟩
    · rcases hforget : (s.index.forgetBlobIfUnreferenced id).1 with _ | _
      · have hfiles : (s.drop id).files = s.files := by
          rw [Store.drop, hforget]
          rfl
        exact Or.inl (hsame.trans (by rw [hfiles]))
      · have hfiles : (s.drop id).files = s.files.erase id := by
          rw [Store.drop, hforget]
          rfl
        rw [hfiles] at hsame
        rcases eq_or_ne c id with rfl | hne
        · refine Or.inr ⟨hsame.trans (AList.lookup_erase _ _), List.mem_cons_self, ?_⟩
          exact (h c).symm.trans (Index.refcount_of_forgotten hforget)
        · exact Or.inl (hsame.trans (AList.lookup_erase_ne hne))
    · exact Or.inr ⟨hnone, List.mem_cons_of_mem _ hmem, hreferences ▸ hzero⟩

/-- The running total, after the blobs that an entry let go of. -/
theorem yields_releaseFrom {onDisk : ℕ} : Yields (aloneDiscipline i ok) (releaseFrom ids onDisk) s
    fun n u => n = onDisk - (ids.map (Index.storedLenIn s.index.blobs)).sum ∧ u = s := by
  induction ids generalizing onDisk with
  | nil => exact ⟨rfl, rfl⟩
  | cons id rest ih =>
    have hread : Yields (aloneDiscipline i ok) (ask (.getBlob id)) s
        fun b u => b = s.index.blobs.lookup id ∧ u = s := (yields_ask rfl).mono fun _ _ h => h.2
    refine hread.bind fun b u hu => ?_
    obtain ⟨rfl, rfl⟩ := hu
    rw [List.map_cons, List.sum_cons, ← Nat.sub_sub, Index.storedLenIn]
    rcases u.index.blobs.lookup id with _ | b
    · exact ih
    · exact ih

/-- **One iteration**: an entry goes, and the running total stays what it says. -/
theorem yields_evictOne (hcounts : s.index.RefcountsExact) (hfree : s.gate = .free) :
    Yields (aloneDiscipline i ok) (evictOne key s.index.onDisk) s
      fun n u => n = u.index.onDisk ∧ u = s.evict key := by
  have htake : Yields (aloneDiscipline i ok) (ask (.removeEntry key)) s
      fun orphaned u => orphaned = (s.index.removeEntry key).1 ∧
        u = { s with index := (s.index.removeEntry key).2 } := (yields_ask rfl).mono fun _ _ h => h.2
  refine htake.bind fun orphaned u hu => ?_
  obtain ⟨rfl, rfl⟩ := hu
  refine yields_releaseFrom.bind fun n v hv => ?_
  obtain ⟨rfl, rfl⟩ := hv
  have hdelete : Yields (aloneDiscipline i ok) (deleteOrphans (s.index.removeEntry key).1)
      { s with index := (s.index.removeEntry key).2 } fun _ u => u = s.evict key :=
    yields_deleteOrphans hfree
  refine hdelete.bind fun _ v hv => ?_
  obtain rfl := hv
  refine ⟨?_, rfl⟩
  have hsum : (s.index.removeEntry key).2.onDisk + (((s.index.removeEntry key).1).map
      (Index.storedLenIn (s.index.removeEntry key).2.blobs)).sum = s.index.onDisk :=
    Index.onDisk_removeEntry hcounts
  rw [Store.evict]
  rw [Store.onDisk_sweep]
  simp only
  omega

end Iteration

/-! ### The loop -/

/-- **Where the loop is**: the entries that are left to look at, the running total, how many
were dropped, and the store. -/
structure Loop where
  left : List (String × EntryRecord)
  onDisk : ℕ
  evicted : ℕ
  store : Store

/-- **One iteration**, with nobody else at work, where the total is over the target. -/
inductive Loop.Step (now i target : ℕ) : Loop → Loop → Prop
  | evict {key : String} {r : EntryRecord} {rest : List (String × EntryRecord)}
      {onDisk onDisk' evicted : ℕ} {s s' : Store} (hover : target < onDisk)
      (hrun : alone now i (evictOne key onDisk) s = some (.ok onDisk', s')) :
      Loop.Step now i target ⟨(key, r) :: rest, onDisk, evicted, s⟩
        ⟨rest, onDisk', evicted + 1, s'⟩

/-- The loop ends here. -/
def Loop.Ends (target : ℕ) (l : Loop) : Prop := l.left = [] ∨ l.onDisk ≤ target

/-- **What holds at every iteration** of a loop over `order` that began in `start`: the
running total is the sum; the entries that are gone are the first ones of the order; and a
blob whose file is gone is named by one of those, and by no entry that is left. -/
structure Loop.Sound (start : Store) (order : List (String × EntryRecord)) (l : Loop) : Prop where
  total : l.onDisk = l.store.index.onDisk
  counts : l.store.index.RefcountsExact
  free : l.store.gate = .free
  ordered : order.drop l.evicted = l.left
  entries : ∀ k, l.store.index.entries.lookup k =
    if k ∈ (order.take l.evicted).map Prod.fst then none else start.index.entries.lookup k
  freed : ∀ c, l.store.files.lookup c = start.files.lookup c ∨
    l.store.files.lookup c = none ∧ (∃ row ∈ order.take l.evicted, c ∈ row.2.contents) ∧
      ∀ k r, l.store.index.entries.lookup k = some r → c ∉ r.contents

section Loop

variable {now i target : ℕ} {s start : Store} {order : List (String × EntryRecord)}
  {l l' : Loop}

theorem lookup_evict {key k : String} : (s.evict key).index.entries.lookup k =
    if k = key then none else s.index.entries.lookup k := by
  rw [Store.evict, Store.entries_sweep]
  rcases eq_or_ne k key with rfl | hne
  · rw [if_pos rfl]
    exact Index.lookup_removeEntry
  · rw [if_neg hne]
    exact Index.lookup_removeEntry_of_ne hne.symm

/-- What an eviction frees was named by the entry, and nothing that is left names it. -/
theorem files_evict {key : String} (h : s.index.RefcountsExact) (c : ContentId) :
    (s.evict key).files.lookup c = s.files.lookup c ∨
      (s.evict key).files.lookup c = none ∧
        (∃ r, s.index.entries.lookup key = some r ∧ c ∈ r.contents) ∧
          ∀ k r, (s.evict key).index.entries.lookup k = some r → c ∉ r.contents := by
  have hcounts : (s.index.removeEntry key).2.RefcountsExact := Index.removeEntry_exact h
  rcases @Store.lookup_sweep { s with index := (s.index.removeEntry key).2 }
    (s.index.removeEntry key).1 hcounts c with hsame | ⟨hnone, hmem, hzero⟩
  · exact Or.inl hsame
  · refine Or.inr ⟨hnone, ?_, fun k r hr hc => ?_⟩
    · rw [Index.removeEntry] at hmem
      split at hmem
      · cases hmem
      · exact Index.mem_heldAt.mp (Index.countIn_of_orphaned Index.nodup_heldAt hmem).1
    · have hnamed : 0 < (s.index.removeEntry key).2.references c := by
        rw [Store.evict, Store.entries_sweep] at hr
        exact count_pos_iff.mpr ⟨k, r, hr, decide_eq_true hc⟩
      exact absurd hzero hnamed.ne'

/-- **An iteration keeps what holds.** -/
theorem Loop.Sound.step (h : l.Sound start order)
    (horder : ∀ row ∈ order, start.index.entries.lookup row.1 = some row.2)
    (hstep : Loop.Step now i target l l') : l'.Sound start order := by
  cases hstep with
  | @evict key r rest onDisk onDisk' evicted s s' hover hrun =>
  obtain ⟨htotal, hcounts, hfree, hleft, hentries, hfreed⟩ := h
  obtain rfl : onDisk = s.index.onDisk := htotal
  obtain ⟨n, u, halone, rfl, rfl⟩ := exists_alone_of_yields (yields_evictOne hcounts hfree)
  obtain ⟨hn, rfl⟩ := Prod.mk.inj (Option.some.inj (hrun.symm.trans halone))
  obtain rfl := Except.ok.inj hn
  simp only at hleft hentries hfreed
  have hnext : order[evicted]? = some (key, r) := by rw [← List.head?_drop, hleft]; rfl
  have htake : order.take (evicted + 1) = order.take evicted ++ [(key, r)] := by
    rw [List.take_add_one, hnext]
    rfl
  have hsub : ∀ k r', (s.evict key).index.entries.lookup k = some r' →
      s.index.entries.lookup k = some r' := by
    intro k r' hr'
    rw [lookup_evict] at hr'
    split at hr'
    · exact nomatch hr'
    · exact hr'
  refine ⟨rfl, Store.counts_sweep (Index.removeEntry_exact hcounts), ?_, ?_, fun k => ?_,
    fun c => ?_⟩
  · exact Store.gate_sweep.trans hfree
  · simp only
    rw [← List.tail_drop, hleft]
    rfl
  · simp only
    have hgone : k ∈ (order.take (evicted + 1)).map Prod.fst ↔
        k = key ∨ k ∈ (order.take evicted).map Prod.fst := by
      rw [htake, List.map_append, List.mem_append, or_comm]
      exact or_congr_left List.mem_singleton
    rw [lookup_evict, hentries]
    by_cases hk : k = key
    · rw [if_pos hk, if_pos (hgone.mpr (Or.inl hk))]
    · simp only [hgone, hk, false_or, if_false]
  · simp only
    rcases files_evict hcounts c with hsame | ⟨hnone, ⟨r', hr', hc⟩, hleast⟩
    · rw [hsame]
      rcases hfreed c with hold | ⟨hnone, ⟨row, hrow, hc⟩, hnamed⟩
      · exact Or.inl hold
      · refine Or.inr ⟨hnone, ⟨row, ?_, hc⟩, fun k r' hr' => hnamed k r' (hsub k r' hr')⟩
        rw [htake]
        exact List.mem_append_left _ hrow
    · refine Or.inr ⟨hnone, ⟨(key, r), ?_, ?_⟩, hleast⟩
      · rw [htake]
        exact List.mem_append_right _ (List.mem_singleton_self _)
      · rw [hentries] at hr'
        split at hr'
        · exact nomatch hr'
        · rw [horder _ (List.mem_of_getElem? hnext)] at hr'
          obtain rfl := Option.some.inj hr'
          exact hc

/-- **So it holds at every iteration.** -/
theorem Loop.Sound.runs (h : l.Sound start order)
    (horder : ∀ row ∈ order, start.index.entries.lookup row.1 = some row.2)
    (hruns : Relation.ReflTransGen (Loop.Step now i target) l l') : l'.Sound start order := by
  induction hruns with
  | refl => exact h
  | tail _ hstep ih => exact ih.step horder hstep

/-- **The loop comes to its end**, and the code returns what it then has. -/
theorem Loop.Sound.exists_last (h : l.Sound start order)
    (horder : ∀ row ∈ order, start.index.entries.lookup row.1 = some row.2) :
    ∃ last, Relation.ReflTransGen (Loop.Step now i target) l last ∧ last.Ends target ∧
      alone now i (evictFrom target l.left l.onDisk l.evicted) l.store =
        some (.ok last.evicted, last.store) := by
  obtain ⟨left, onDisk, evicted, store⟩ := l
  induction left generalizing onDisk evicted store with
  | nil => exact ⟨_, .refl, Or.inl rfl, rfl⟩
  | cons row rest ih =>
    obtain ⟨key, r⟩ := row
    simp only at ih ⊢
    rw [evictFrom_cons]
    by_cases hunder : onDisk ≤ target
    · rw [if_pos hunder]
      exact ⟨_, .refl, Or.inr hunder, rfl⟩
    · rw [if_neg hunder]
      obtain rfl : onDisk = store.index.onDisk := h.total
      obtain ⟨n, u, halone, -⟩ : ∃ n u, alone now i (evictOne key store.index.onDisk) store =
          some (.ok n, u) ∧ n = u.index.onDisk ∧ u = store.evict key :=
        exists_alone_of_yields (yields_evictOne h.counts h.free)
      have hstep : Loop.Step now i target ⟨(key, r) :: rest, store.index.onDisk, evicted, store⟩
          ⟨rest, n, evicted + 1, u⟩ := .evict (not_le.mp hunder) halone
      obtain ⟨last, hlast, hends, hreturn⟩ := ih n (evicted + 1) u (h.step horder hstep)
      exact ⟨last, .head hstep hlast, hends, (exec_run_bind_ok halone).trans hreturn⟩

end Loop

/-! ### The order -/

section Order

variable {P : Platform}

theorem goesFirst_total (policy : Eviction) (a b : EntryRecord) :
    goesFirst P policy a b = true ∨ goesFirst P policy b a = true := by
  cases policy <;> simp only [goesFirst, Bool.or_eq_true, Bool.and_eq_true, decide_eq_true_eq]
  · omega
  · omega
  · rcases lt_trichotomy (P.divide (a.hits + 1) (max a.body.heldLen 1))
      (P.divide (b.hits + 1) (max b.body.heldLen 1)) with hlt | heq | hgt
    · exact Or.inl (Or.inl hlt)
    · exact (le_total a.lastUsed b.lastUsed).imp (fun h => Or.inr ⟨heq, h⟩)
        fun h => Or.inr ⟨heq.symm, h⟩
    · exact Or.inr (Or.inl hgt)

theorem goesFirst_trans {policy : Eviction} {a b c : EntryRecord}
    (hab : goesFirst P policy a b = true) (hbc : goesFirst P policy b c = true) :
    goesFirst P policy a c = true := by
  cases policy <;> simp only [goesFirst, Bool.or_eq_true, Bool.and_eq_true, decide_eq_true_eq]
    at hab hbc ⊢
  · omega
  · omega
  · rcases hab with hab | ⟨hab, hused⟩
    · rcases hbc with hbc | ⟨hbc, -⟩
      · exact Or.inl (hab.trans hbc)
      · exact Or.inl (hab.trans_eq hbc)
    · rcases hbc with hbc | ⟨hbc, hused'⟩
      · exact Or.inl (hab.trans_lt hbc)
      · exact Or.inr ⟨hab.trans hbc, hused.trans hused'⟩

/-- **Entries are put in the order of the policy.** -/
theorem pairwise_orderForEviction (entries : List (String × EntryRecord)) (policy : Eviction) :
    (orderForEviction P entries policy).Pairwise fun a b => goesFirst P policy a.2 b.2 = true := by
  let goes : String × EntryRecord → String × EntryRecord → Prop :=
    fun a b => goesFirst P policy a.2 b.2 = true
  have : Std.Total goes := ⟨fun a b => goesFirst_total policy a.2 b.2⟩
  have : IsTrans _ goes := ⟨fun _ _ _ hab hbc => goesFirst_trans hab hbc⟩
  exact List.pairwise_insertionSort goes entries

end Order

/-! ### The budget -/

/-- The store, once it was counted how many entries were dropped. -/
def Store.countedEvictions (s : Store) (evicted : ℕ) : Store :=
  if 0 < evicted then { s with index := s.index.bump counters.evictions evicted } else s

/-- How the page was written. -/
def pageReceipt : WriteReceipt := ⟨Platform.sampleBlake3 [97], 1, 2, .none, true⟩

/-- The page is all that is stored. -/
def pageAlone : Store where
  index := { Index.empty with
    entries := (∅ : Table String EntryRecord).insert (entryKey none "GET" "http://a.test/x" "")
      (pageStore.record .sample pageReceipt 10)
    blobs := (∅ : Table ContentId BlobRecord).insert pageReceipt.id
      { pageReceipt.record 10 with refcount := 1 } }
  files := (∅ : Table ContentId Bytes).insert pageReceipt.id [0, 97]
  gate := .free

/-- Room for so many bytes, a tenth of which is the target. -/
def tightOptions (capacity : ℕ) : CacheOptions :=
  { CacheOptions.default with capacityBytes := some capacity, evictToFraction := 1 / 10 }

theorem pageAlone_counts : pageAlone.index.RefcountsExact := by
  intro c
  have hinsert := count_insert (Index.names c) (∅ : Table String EntryRecord)
    (entryKey none "GET" "http://a.test/x" "") (pageStore.record .sample pageReceipt 10)
  have hcontents : (pageStore.record .sample pageReceipt 10).contents = [pageReceipt.id] := rfl
  rw [AList.lookup_empty, weight_none, count_empty, Index.weight_record, hcontents] at hinsert
  rw [Index.refcount, Index.references, pageAlone]
  simp only
  rw [Index.countIn_insert]
  simp only [List.mem_singleton] at hinsert
  simp only [Nat.add_zero, Nat.zero_add] at hinsert
  exact hinsert.symm

end Syndeo
