import Syndeo.Cache.Alone

/-!
# A count that is full

A reference count is a `u32` that stays at its largest value, so one blob can be
named by one entry more than its count can say. Taking the others out again then
brings the count to zero, and the file goes under the entry that is left:
`Syndeo.named_file_deleted` is a run of stores and purges that comes to this, one
operation after another. No call fails in it and nothing is refreshed, so it is
the only thing the gate does not see to.
-/

namespace Syndeo

open Concurrent Tables Text
open Prog (Yields asks_run_bind)

/-! ### The operations -/

/-- The body that is stored under every URL. -/
def crowdBody : Bytes := [97]

/-- Its address. -/
def crowdContent : ContentId := Platform.sampleBlake3 crowdBody

/-- The `i`-th of as many strings as are wanted that are no URLs, and are their own
normal forms. -/
def crowdUrl (i : ℕ) : String := String.ofList (List.replicate i 'x')

/-- A store of the same page under the `i`-th of them. -/
def crowdStore (i : ℕ) : Storing := { pageStore with url := crowdUrl i }

/-- A cache that may grow without limit. -/
def roomyOptions : CacheOptions := { CacheOptions.default with capacityBytes := none }

/-- `n` stores, and then `m` purges. -/
def crowdOps (n m : ℕ) : List Op :=
  (List.range n).map (fun i => .store (crowdStore i) crowdBody) ++
    (List.range m).map fun i => .purge none "GET" (crowdUrl i)

/-- The key of the `i`-th entry. -/
def crowdKey (i : ℕ) : String := entryKey none "GET" (crowdUrl i) ""

theorem crowdKey_injective : Function.Injective crowdKey := by
  intro i j h
  simpa [crowdKey, entryKey, variantKey, primaryKey, crowdUrl] using congrArg String.length h

theorem crowdPkey_injective {i j : ℕ}
    (h : primaryKey none "GET" (crowdUrl i) = primaryKey none "GET" (crowdUrl j)) : i = j := by
  simpa [primaryKey, crowdUrl] using congrArg String.length h

theorem normalizeUrl_crowdUrl (i : ℕ) : normalizeUrl Platform.sample (crowdUrl i) = crowdUrl i := by
  have hne : crowdUrl i ≠ "http://a.test/x" := by
    intro h
    have hmem : 'h' ∈ (crowdUrl i).toList := by rw [h]; decide
    simp [crowdUrl] at hmem
  simp [normalizeUrl, Platform.sample, hne]

theorem vkey_crowdStore (i : ℕ) : (crowdStore i).vkey Platform.sample = "" := by
  have hfields : varyFields (crowdStore i).responseHeaders = [] := by
    change varyFields pageStore.responseHeaders = []
    decide
  rw [Storing.vkey, hfields, varyKey]

theorem pkey_crowdStore (i : ℕ) (receipt : WriteReceipt) (now : ℕ) :
    ((crowdStore i).record Platform.sample receipt now).pkey =
      primaryKey none "GET" (crowdUrl i) := by
  have hmethod : toAsciiUppercase "GET" = "GET" := by decide
  rw [EntryRecord.pkey, Storing.record]
  change primaryKey none (toAsciiUppercase "GET") (normalizeUrl Platform.sample (crowdUrl i)) = _
  rw [normalizeUrl_crowdUrl, hmethod]

theorem key_crowdStore (i : ℕ) (receipt : WriteReceipt) (now : ℕ) :
    ((crowdStore i).record Platform.sample receipt now).key = crowdKey i := by
  change variantKey ((crowdStore i).record Platform.sample receipt now).pkey
    ((crowdStore i).vkey Platform.sample) = _
  rw [pkey_crowdStore, vkey_crowdStore]
  rfl

/-! ### What the store comes to -/

/-- The entries from `lo` up to `hi` are there, the count is `count`, and the file is
there as long as it is not zero. -/
structure Crowd (lo hi count : ℕ) (s : Store) : Prop where
  free : s.gate = .free
  held : ∀ i, lo ≤ i → i < hi →
    ∃ r, s.index.entries.lookup (crowdKey i) = some r ∧ r.contents = [crowdContent]
  absent : ∀ i, hi ≤ i → s.index.entries.lookup (crowdKey i) = none
  listed : ∀ i, lo ≤ i → i < hi →
    s.index.variants.lookup (primaryKey none "GET" (crowdUrl i)) = some [""]
  unlisted : ∀ i, hi ≤ i → s.index.variants.lookup (primaryKey none "GET" (crowdUrl i)) = none
  counted : s.index.refcount crowdContent = count
  filed : s.files.lookup crowdContent =
    if 0 < count then some (blobFile Platform.sample crowdBody) else none

namespace Crowd

variable {lo hi count : ℕ} {s u : Store}

theorem congr (h : Crowd lo hi count s) (hu : s.Alike u) : Crowd lo hi count u := by
  obtain ⟨hfree, hheld, habsent, hlisted, hunlisted, hcounted, hfiled⟩ := h
  obtain ⟨hentries, hblobs, hvariants, hfiles, hgate⟩ := hu
  refine ⟨hgate.trans hfree, ?_, ?_, ?_, ?_, ?_, ?_⟩
  · rwa [hentries]
  · rwa [hentries]
  · rwa [hvariants]
  · rwa [hvariants]
  · rwa [Index.refcount, hblobs]
  · rwa [hfiles]

theorem empty : Crowd 0 0 0 Store.empty where
  free := rfl
  held _ _ hi := absurd hi (Nat.not_lt_zero _)
  absent _ _ := rfl
  listed _ _ hi := absurd hi (Nat.not_lt_zero _)
  unlisted _ _ := rfl
  counted := rfl
  filed := rfl

/-- The file that is there may be taken for the body's. -/
theorem whole (h : Crowd lo hi count s) : s.files.lookup crowdContent ≠ some [] := by
  rw [h.filed]
  split <;> simp [blobFile]

/-- **One more entry**, as far as the count goes. -/
theorem write {v : Store} {receipt : WriteReceipt} {now : ℕ} {orphaned : List ContentId} {ix : Index}
    (h : Crowd lo hi count s)
    (hv : { s with files := putFile Platform.sample crowdBody s.files }.Alike v)
    (hid : receipt.id = crowdContent)
    (hput : v.index.putEntry ((crowdStore hi).record Platform.sample receipt now)
      [(receipt.id, receipt.record now)] = .ok (orphaned, ix)) :
    orphaned = [] ∧
      Crowd lo (hi + 1) (min (count + 1) Index.maxRefcount) { v with index := ix } := by
  obtain ⟨hfree, hheld, habsent, hlisted, hunlisted, hcounted, hfiled⟩ := h
  obtain ⟨hentries, hblobs, hvariants, hfiles, hgate⟩ := hv
  have hkey := key_crowdStore hi receipt now
  have hpkey := pkey_crowdStore hi receipt now
  have hvkey : ((crowdStore hi).record Platform.sample receipt now).varyKey = "" :=
    vkey_crowdStore hi
  have hcontents : ((crowdStore hi).record Platform.sample receipt now).contents =
      [crowdContent] := by
    rw [← hid]
    rfl
  generalize (crowdStore hi).record Platform.sample receipt now = record at *
  -- nothing was there under the key
  have hnothing : v.index.heldAt record.key = [] := by
    rw [Index.heldAt, hentries, hkey, habsent hi le_rfl]
  have hnew : ∀ c ∈ record.contents,
      v.index.Recorded c ∨ c ∈ [(receipt.id, receipt.record now)].map Prod.fst := by
    intro c hc
    rw [hcontents, ← hid] at hc
    exact Or.inr hc
  obtain ⟨ix', hput', hentries', hvariants'⟩ := Index.exists_putEntry hnew
  rw [hput', hnothing] at hput
  obtain ⟨rfl, rfl⟩ := Prod.mk.inj (Except.ok.inj hput)
  refine ⟨rfl, hgate.trans hfree, ?_, ?_, ?_, ?_, ?_, ?_⟩
  · intro i hlo hlt
    rw [hentries', hkey]
    rcases eq_or_ne i hi with rfl | hne
    · exact ⟨record, AList.lookup_insert _, hcontents⟩
    · rw [AList.lookup_insert_ne (crowdKey_injective.ne hne), hentries]
      exact hheld i hlo (by omega)
  · intro i hle
    rw [hentries', hkey, AList.lookup_insert_ne (crowdKey_injective.ne (by omega)), hentries]
    exact habsent i (by omega)
  · intro i hlo hlt
    rw [hvariants', Index.listed, hpkey, hvkey, hvariants, hunlisted hi le_rfl]
    rcases eq_or_ne i hi with rfl | hne
    · exact AList.lookup_insert _
    · exact (AList.lookup_insert_ne fun h => hne (crowdPkey_injective h)).trans
        (hlisted i hlo (by omega))
  · intro i hle
    rw [hvariants', Index.listed, hpkey, hvkey, hvariants, hunlisted hi le_rfl]
    refine (AList.lookup_insert_ne fun h => ?_).trans (hunlisted i (by omega))
    have := crowdPkey_injective h
    omega
  · obtain ⟨htake, -⟩ := Index.putEntry_eq hput'
    rw [hnothing, hcontents] at htake
    rw [Index.refcount, Index.countIn_takeAll (List.nodup_singleton _) htake, if_pos (by simp),
      hblobs]
    exact congrArg (fun n => min (n + 1) Index.maxRefcount) hcounted
  · rw [hfiles, if_pos (by rw [Index.maxRefcount]; omega)]
    change (putFile Platform.sample crowdBody s.files).lookup (Platform.sample.blake3 crowdBody) = _
    rw [putFile]
    split
    · rename_i hthere
      have hthere' : (s.files.lookup crowdContent).isSome = true := hthere
      rw [hfiled] at hthere'
      split at hthere'
      · exact hfiled.trans (if_pos ‹_›)
      · exact absurd hthere' (by simp)
    · exact AList.lookup_insert _

/-- A row with a count. -/
theorem row (h : Crowd lo hi (count + 1) s) :
    ∃ b, s.index.blobs.lookup crowdContent = some b ∧ b.refcount = count + 1 := by
  have hcounted := h.counted
  rw [Index.refcount, Index.countIn] at hcounted
  rcases hb : s.index.blobs.lookup crowdContent with _ | b
  · rw [hb] at hcounted
    exact absurd hcounted (by simp)
  · rw [hb] at hcounted
    exact ⟨b, rfl, hcounted⟩

/-- **One entry less**: with the last one that is counted, the file goes. -/
theorem release (h : Crowd lo hi (count + 1) s) (hlo : lo < hi) :
    Crowd (lo + 1) hi count
      ({ s with index := (s.index.invalidate none "GET" (crowdUrl lo)).2 }.sweep
        (s.index.invalidate none "GET" (crowdUrl lo)).1) := by
  obtain ⟨b, hb, hcount⟩ := h.row
  obtain ⟨hfree, hheld, habsent, hlisted, hunlisted, -, hfiled⟩ := h
  have hat : s.index.heldAt (crowdKey lo) = [crowdContent] := by
    obtain ⟨r, hr, hcontents⟩ := hheld lo le_rfl hlo
    rw [Index.heldAt, hr]
    exact hcontents
  have hkey : variantKey (primaryKey none "GET" (crowdUrl lo)) "" = crowdKey lo := rfl
  have hinvalidate : s.index.invalidate none "GET" (crowdUrl lo) =
      (if count = 0 then [crowdContent] else [], { s.index with
        entries := s.index.entries.erase (crowdKey lo)
        blobs := s.index.blobs.insert crowdContent { b with refcount := count }
        variants := s.index.variants.erase (primaryKey none "GET" (crowdUrl lo)) }) := by
    rw [Index.invalidate]
    simp only [hlisted lo le_rfl hlo, Option.getD_some, Index.removeVariants, Index.removeKey, hkey,
      hat, Index.releaseAll, Index.release, hb, hcount, Nat.add_sub_cancel, List.append_nil,
      decide_eq_true_eq]
  -- what holds of the entries, whatever becomes of the file
  have hrest : ∀ u : Store, u.gate = s.gate →
      u.index.entries = s.index.entries.erase (crowdKey lo) →
      u.index.variants = s.index.variants.erase (primaryKey none "GET" (crowdUrl lo)) →
      u.index.refcount crowdContent = count →
      (u.files.lookup crowdContent =
        if 0 < count then some (blobFile Platform.sample crowdBody) else none) →
      Crowd (lo + 1) hi count u := by
    intro u hgate hentries hvariants hrefcount hfiles
    refine ⟨hgate.trans hfree, ?_, ?_, ?_, ?_, hrefcount, hfiles⟩
    · intro i hle hlt
      rw [hentries, AList.lookup_erase_ne (crowdKey_injective.ne (by omega))]
      exact hheld i (by omega) hlt
    · intro i hle
      rw [hentries, AList.lookup_erase_ne (crowdKey_injective.ne (by omega))]
      exact habsent i hle
    · intro i hle hlt
      rw [hvariants, AList.lookup_erase_ne fun h => by have := crowdPkey_injective h; omega]
      exact hlisted i (by omega) hlt
    · intro i hle
      rw [hvariants, AList.lookup_erase_ne fun h => by have := crowdPkey_injective h; omega]
      exact hunlisted i hle
  rw [hinvalidate]
  split
  · rename_i hzero
    subst hzero
    simp only [Store.sweep, Store.drop, Index.forgetBlobIfUnreferenced, AList.lookup_insert,
      if_true]
    refine hrest _ ?_ ?_ ?_ ?_ ?_
    · rfl
    · rfl
    · rfl
    · rw [Index.refcount, Index.countIn, AList.lookup_erase]
      rfl
    · rw [AList.lookup_erase, if_neg (Nat.lt_irrefl 0)]
  · rename_i hsome
    refine hrest _ ?_ ?_ ?_ ?_ ?_
    · rfl
    · rfl
    · rfl
    · rw [Index.refcount]
      exact Index.countIn_insert.trans (if_pos rfl)
    · rw [Store.sweep, if_pos (Nat.pos_of_ne_zero hsome), hfiled, if_pos (Nat.succ_pos _)]

end Crowd

/-! ### The operations, one after another -/

section Turns

variable {lo hi count i : ℕ} {ok : ∀ {β : Type}, CacheAct β → Store → Prop} {s : Store}

theorem storable_crowdStore :
    storability Platform.sample (crowdStore hi).method (crowdStore hi).requestHeaders
      (crowdStore hi).metadata crowdBody.length roomyOptions = .store := by
  change storability Platform.sample pageStore.method pageStore.requestHeaders pageStore.metadata
    crowdBody.length roomyOptions = .store
  decide +kernel

theorem not_head_crowdStore (j : ℕ) : ¬eqIgnoreAsciiCase (crowdStore j).method "HEAD" = true := by
  change ¬eqIgnoreAsciiCase "GET" "HEAD" = true
  decide

/-- One store. -/
theorem yields_crowdStore (h : Crowd lo hi count s) :
    Yields (aloneDiscipline i ok)
      (storeWithProvenance Platform.sample roomyOptions (crowdStore hi) crowdBody) s
      fun _ u => Crowd lo (hi + 1) (min (count + 1) Index.maxRefcount) u := by
  refine yields_bump.bind fun _ u hu => ?_
  have h := h.congr hu
  rw [storable_crowdStore]
  refine Prog.Yields.bind (yields_storeWhole h.free h.whole) fun r v hv => ?_
  obtain ⟨receipt, orphaned⟩ := r
  obtain ⟨⟨hid, -⟩, v', now, hv', -, ix, hput, rfl⟩ := hv
  obtain ⟨rfl, h⟩ := h.write hv' hid hput
  -- nothing was let go of, and nothing is looked after that was there before
  refine Prog.Yields.bind (yields_deleteOrphans h.free) fun _ t ht => ?_
  rw [ht]
  refine yields_indexSri.bind fun _ t ht => yields_bump.bind fun _ t' ht' => ?_
  rw [if_neg (not_head_crowdStore hi)]
  exact (h.congr ht).congr ht'

/-- One purge. -/
theorem yields_crowdPurge (h : Crowd lo hi (count + 1) s) (hlo : lo < hi) :
    Yields (aloneDiscipline i ok) (purge Platform.sample none "GET" (crowdUrl lo)) s
      fun _ u => Crowd (lo + 1) hi count u := by
  rw [purge, normalizeUrl_crowdUrl]
  have hinvalidate : Yields (aloneDiscipline i ok) (ask (.invalidate none "GET" (crowdUrl lo))) s
      fun r u => r = (s.index.invalidate none "GET" (crowdUrl lo)).1 ∧
        u = { s with index := (s.index.invalidate none "GET" (crowdUrl lo)).2 } :=
    (yields_ask rfl).mono fun r u hr => hr.2
  refine hinvalidate.bind fun r u hr => ?_
  obtain ⟨rfl, rfl⟩ := hr
  refine Prog.Yields.bind (yields_deleteOrphans h.free) fun _ u hu => ?_
  rw [hu]
  exact h.release hlo

end Turns

/-! ### The run -/

/-- The runs in which no call fails and nothing is refreshed. -/
def quietRuns : System CacheAct Store Outcome :=
  (cacheSystem Outcome Weather.calm).when fun _ {_} a _ => ¬a.Refreshes

theorem asks_deleteOrphans_not_refreshes {ids : List ContentId} :
    (deleteOrphans ids).run.Asks fun {_} a => ¬a.Refreshes :=
  asks_deleteOrphans.mono fun a ha hrefresh => by
    cases a with
    | index a => cases a <;> first | exact ha | exact hrefresh
    | _ => exact hrefresh

/-- A store of the page refreshes nothing. -/
theorem asks_crowdStore (i : ℕ) :
    (storeWithProvenance Platform.sample roomyOptions (crowdStore i) crowdBody).run.Asks
      fun {_} a => ¬a.Refreshes := by
  refine asks_run_bind ⟨id, fun _ => trivial⟩ fun _ => ?_
  rw [storable_crowdStore]
  refine asks_run_bind ?_ fun r => asks_run_bind asks_deleteOrphans_not_refreshes fun _ =>
    asks_run_bind ⟨id, fun _ => trivial⟩ fun _ => asks_run_bind ⟨id, fun _ => trivial⟩ fun _ => ?_
  · refine asks_run_bind ⟨id, fun _ => trivial⟩ fun _ => asks_run_bind (asks_attempt ?_) fun _ =>
      asks_run_bind ⟨id, fun _ => trivial⟩ fun _ => trivial
    refine asks_run_bind ?_ fun receipt => asks_run_bind ?_ fun _ =>
      asks_run_bind ⟨id, fun _ => trivial⟩ fun now => asks_run_bind ⟨id, fun _ => trivial⟩ fun _ =>
        trivial
    · refine asks_run_bind (asks_attempt ⟨id, fun _ => trivial⟩) fun there => ?_
      split
      · refine asks_run_bind ⟨id, fun _ => trivial⟩ fun file => ?_
        split
        · trivial
        · exact asks_run_bind ⟨id, fun _ => trivial⟩ fun file =>
            asks_run_bind trivial fun _ => trivial
      · exact asks_run_bind ⟨id, fun _ => trivial⟩ fun _ => trivial
    · rw [countDeduped]
      split
      · trivial
      · exact ⟨id, fun _ => trivial⟩
  · rw [if_neg (not_head_crowdStore i)]
    trivial

theorem asks_crowdPurge (i : ℕ) :
    (purge Platform.sample none "GET" (crowdUrl i)).run.Asks fun {_} a => ¬a.Refreshes :=
  asks_run_bind ⟨id, fun _ => trivial⟩ fun _ =>
    asks_run_bind asks_deleteOrphans_not_refreshes fun _ => trivial

/-- A piece of an operation that gets through by itself, and refreshes nothing, is a
run of its thread. -/
theorem exists_returns_of_asks {i : ℕ} {s : Store} {α : Type} {x : CacheM α} {T : Store → Prop}
    (h : Yields (aloneDiscipline i fun {_} _ _ => True) x s fun _ u => T u)
    (hasks : x.run.Asks fun {_} a => ¬a.Refreshes) :
    ∃ r s', x.run.Returns (fun {_} a s b s' => ¬a.Refreshes ∧ CalmStep i a s b s') s r s' ∧
      T s' := by
  obtain ⟨r, s', hreturns, hT⟩ := exists_returns_of_yields h
  rcases r with e | a
  · exact hT.elim
  · exact ⟨.ok a, s', hreturns.of_asks hasks, hT⟩

/-- What is there before the `k`-th of the operations. -/
def crowdBefore (k : ℕ) (s : Store) : Prop :=
  if k ≤ Index.maxRefcount + 1 then Crowd 0 k (min k Index.maxRefcount) s
  else Crowd (k - (Index.maxRefcount + 1)) (Index.maxRefcount + 1)
    (2 * Index.maxRefcount + 1 - k) s

/-- All the stores that are wanted, and then all the purges but one. -/
def crowdRun : List Op := crowdOps (Index.maxRefcount + 1) Index.maxRefcount

/-- **Each operation in turn.** -/
theorem crowd_turn {i : ℕ} {op : Op} (hop : crowdRun[i]? = some op) {s : Store}
    (h : crowdBefore i s) :
    ∃ r s', (op.program Platform.sample roomyOptions).Returns
        (fun {_} a s b s' => ¬a.Refreshes ∧ CalmStep i a s b s') s r s' ∧ crowdBefore (i + 1) s' := by
  have hlen : ((List.range (Index.maxRefcount + 1)).map fun j =>
      Op.store (crowdStore j) crowdBody).length = Index.maxRefcount + 1 := by
    rw [List.length_map, List.length_range]
  rw [crowdRun, crowdOps] at hop
  rcases Nat.lt_or_ge i (Index.maxRefcount + 1) with hlt | hge
  · -- a store
    rw [List.getElem?_append_left (by rw [hlen]; exact hlt), List.getElem?_map,
      List.getElem?_range hlt] at hop
    obtain rfl := Option.some.inj hop
    rw [crowdBefore, if_pos hlt.le] at h
    refine exists_returns_of_asks (Prog.Yields.bind (yields_crowdStore h) fun _ u hu => ?_)
      (asks_run_bind (asks_crowdStore i) fun _ => trivial)
    change crowdBefore (i + 1) u
    rw [crowdBefore, if_pos (Nat.succ_le_of_lt hlt)]
    rwa [show min (i + 1) Index.maxRefcount = min (min i Index.maxRefcount + 1) Index.maxRefcount by
      omega]
  · -- a purge
    rw [List.getElem?_append_right (by rw [hlen]; exact hge), hlen, List.getElem?_map] at hop
    obtain ⟨j, hj, rfl⟩ := Option.map_eq_some_iff.mp hop
    obtain ⟨hjlt, rfl⟩ := List.getElem?_eq_some_iff.mp hj
    rw [List.length_range] at hjlt
    rw [List.getElem_range]
    have hcrowd : Crowd (i - (Index.maxRefcount + 1)) (Index.maxRefcount + 1)
        (2 * Index.maxRefcount + 1 - (i + 1) + 1) s := by
      rw [show 2 * Index.maxRefcount + 1 - (i + 1) + 1 = 2 * Index.maxRefcount + 1 - i by omega]
      rcases Nat.eq_or_lt_of_le hge with rfl | hgt
      · rw [crowdBefore, if_pos le_rfl] at h
        rwa [Nat.sub_self, show 2 * Index.maxRefcount + 1 - (Index.maxRefcount + 1) =
          min (Index.maxRefcount + 1) Index.maxRefcount by omega]
      · rwa [crowdBefore, if_neg (by omega)] at h
    refine exists_returns_of_asks (Prog.Yields.bind (yields_crowdPurge hcrowd (by omega))
      fun _ u hu => ?_) (asks_run_bind (asks_crowdPurge _) fun _ => trivial)
    change crowdBefore (i + 1) u
    rw [crowdBefore, if_neg (by omega)]
    rwa [show i + 1 - (Index.maxRefcount + 1) = i - (Index.maxRefcount + 1) + 1 by omega]

/-- **Every count is exact to begin with, no call fails and nothing is refreshed, and
an entry is left without its file**: there were `2 ^ 32` entries of one blob, one
more than can be counted. -/
theorem named_file_deleted :
    ∃ c, quietRuns.Runs (running Platform.sample roomyOptions .empty crowdRun) c ∧
      ∃ key record content, c.shared.index.entries.lookup key = some record ∧
        content ∈ record.contents ∧ c.shared.files.lookup content = none := by
  have hstart : crowdBefore 0 .empty := by
    rw [crowdBefore, if_pos (Nat.zero_le _), Nat.zero_min]
    exact Crowd.empty
  have hlength : (crowdRun.map (Op.program Platform.sample roomyOptions)).length =
      2 * Index.maxRefcount + 1 := by
    rw [List.length_map, crowdRun, crowdOps, List.length_append, List.length_map, List.length_map,
      List.length_range, List.length_range]
    omega
  have hturns : ∃ c : Config CacheAct Store Outcome,
      quietRuns.Runs (running Platform.sample roomyOptions .empty crowdRun) c ∧
        crowdBefore (2 * Index.maxRefcount + 1) c.shared := by
    rw [← hlength]
    refine System.exists_runs_in_turn
      (T := fun i {_} a s b s' => ¬a.Refreshes ∧ CalmStep i a s b s') (fun _ => rfl) ?_ hstart ?_
    · rintro i n β a s b s' ⟨hrefresh, now, hperform⟩
      exact ⟨hrefresh, ⟨now, none⟩, rfl, hperform⟩
    · intro i p hi s hs
      rw [List.getElem?_map] at hi
      obtain ⟨op, hop, rfl⟩ := Option.map_eq_some_iff.mp hi
      exact crowd_turn hop hs
  obtain ⟨c, hruns, hlast⟩ := hturns
  have hpos : 0 < Index.maxRefcount := Nat.sub_pos_of_lt (Nat.one_lt_two_pow (by omega))
  rw [crowdBefore, if_neg (by omega), Nat.sub_self] at hlast
  obtain ⟨r, hr, hcontents⟩ := hlast.held Index.maxRefcount (by omega) (Nat.lt_succ_self _)
  refine ⟨c, hruns, crowdKey Index.maxRefcount, r, crowdContent, hr, ?_, ?_⟩
  · rw [hcontents]
    exact List.mem_singleton_self _
  · rw [hlast.filed, if_neg (Nat.lt_irrefl 0)]

end Syndeo
