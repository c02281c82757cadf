import Syndeo.Cache.Content
import Syndeo.Cache.Directives

/-!
# Responses that are not to be stored

A `no-store` that a request or a response lists, in a value with balanced quotes,
forbids to store the response. What `Syndeo.storability` goes by is what it reads,
so a response is turned away because of it when a value that is text has it, and
may be stored when it stands only beside a byte that is not text.

A store that is turned away writes no entry in any run
(`Syndeo.Op.not_wrote_of_rejected`), whatever other operations do meanwhile.
-/

namespace Syndeo

open Concurrent
open Text
open Prog (asks_run_bind)

/-! ### What forbids to store -/

/-- A `no-store` is listed, in a value with balanced quotes. -/
def HeaderMap.ListsNoStore (h : HeaderMap) : Prop :=
  ∃ v ∈ h.getAll header.cacheControl, Quoted.Balanced listMarks v.chars ∧
    ∃ item, Quoted.Item listMarks v.chars item ∧ IsWord item "no-store"

namespace Storing

variable (P : Platform) (opts : CacheOptions) (bodyLen : ℕ) (w : Storing)

/-- The request lists a `no-store`, or the response does and no `must-understand`. -/
def ForbidsStoring : Prop :=
  w.requestHeaders.ListsNoStore ∨ w.responseHeaders.ListsNoStore ∧
    ¬∃ item, w.responseHeaders.Lists item ∧ IsNamed item "must-understand"

/-- A `no-store` is read from the request, or from the response and not taken back by
a `must-understand` that is read as well. -/
def ReadsNoStore : Prop :=
  (∃ item, w.requestHeaders.Reads item ∧ IsNamed item "no-store") ∨
    (∃ item, w.responseHeaders.Reads item ∧ IsNamed item "no-store") ∧
      ¬((∃ item, w.responseHeaders.Reads item ∧ IsNamed item "must-understand") ∧
        isHeuristicallyCacheable w.status = true)

/-- There is another reason to turn the response away: its method, its size, what a
shared cache may not keep, a `Vary` that no request matches, a status that stands
for no representation, or that it could never be used. -/
def OtherwiseDeclined : Prop :=
  let cc := CacheControl.fromHeaders w.responseHeaders
  isCacheableMethod w.method = false ∨ opts.maxBodyBytes < bodyLen ∨
  (opts.shared && cc.isPrivate) = true ∨
  (opts.shared && w.requestHeaders.containsKey header.authorization &&
    !(cc.isPublic || cc.sMaxage.isSome || cc.mustRevalidate)) = true ∨
  (opts.shared && w.responseHeaders.containsKey header.setCookie && !cc.isPublic) = true ∨
  variesOnEverything (varyFields w.responseHeaders) = true ∨ w.status = 304 ∨
  (w.status = 206 ∧
    ((w.responseHeaders.getStr header.contentRange).bind parseContentRange).isNone = true) ∨
  (!isHeuristicallyCacheable w.status && (freshnessLifetime P w.metadata opts).2) = true ∨
  (freshnessLifetime P w.metadata opts).1 = 0 ∧
    (!w.responseHeaders.containsKey header.etag) = true ∧
    (!w.responseHeaders.containsKey header.lastModified) = true

end Storing

variable {P : Platform} {opts : CacheOptions} {bodyLen : ℕ} {w : Storing}

theorem readsNoStore_iff : ((CacheControl.fromHeaders w.requestHeaders).noStore ||
    ((CacheControl.fromHeaders w.responseHeaders).noStore &&
      !((CacheControl.fromHeaders w.responseHeaders).mustUnderstand &&
        isHeuristicallyCacheable w.status))) = true ↔ w.ReadsNoStore := by
  have hstore : (CacheControl.noStore, "no-store") ∈ CacheControl.flags := by
    simp [CacheControl.flags]
  have hunderstand : (CacheControl.mustUnderstand, "must-understand") ∈ CacheControl.flags := by
    simp [CacheControl.flags]
  have hrequest := CacheControl.flag_fromHeaders w.requestHeaders hstore
  have hresponse := CacheControl.flag_fromHeaders w.responseHeaders hstore
  have hmust := CacheControl.flag_fromHeaders w.responseHeaders hunderstand
  rw [Storing.ReadsNoStore, Bool.or_eq_true, Bool.and_eq_true, Bool.not_eq_true',
    ← Bool.not_eq_true, Bool.and_eq_true, hrequest, hresponse, hmust]
  simp

/-- One reason and the rest. -/
theorem reject_ite {c : Prop} [Decidable c] {reason : String} {rest : Storability} :
    (∃ r, (if c then .reject reason else rest) = Storability.reject r) ↔
      c ∨ ∃ r, rest = .reject r := by
  by_cases hc : c
  · rw [if_pos hc]
    exact iff_of_true ⟨reason, rfl⟩ (Or.inl hc)
  · rw [if_neg hc]
    exact (or_iff_right hc).symm

/-- **What is turned away.** -/
theorem storability_reject_iff :
    (∃ reason, storability P w.method w.requestHeaders w.metadata bodyLen opts = .reject reason) ↔
      w.ReadsNoStore ∨ w.OtherwiseDeclined P opts bodyLen := by
  have hstore : ¬∃ reason, Storability.store = .reject reason := fun ⟨_, h⟩ => nomatch h
  rw [← readsNoStore_iff, storability, Storing.OtherwiseDeclined]
  obtain ⟨lifetime, heuristic⟩ := freshnessLifetime P w.metadata opts
  simp only [reject_ite, hstore, or_false]
  rw [Bool.not_eq_true', Bool.or_eq_true]
  simp only [Storing.metadata]
  constructor
  · rintro (hmethod | hsize | hrequest | hresponse | hrest)
    · exact Or.inr (Or.inl hmethod)
    · exact Or.inr (Or.inr (Or.inl hsize))
    · exact Or.inl (Or.inl hrequest)
    · exact Or.inl (Or.inr hresponse)
    · exact Or.inr (Or.inr (Or.inr hrest))
  · rintro ((hrequest | hresponse) | hmethod | hsize | hrest)
    · exact Or.inr (Or.inr (Or.inl hrequest))
    · exact Or.inr (Or.inr (Or.inr (Or.inl hresponse)))
    · exact Or.inl hmethod
    · exact Or.inr (Or.inl hsize)
    · exact Or.inr (Or.inr (Or.inr (Or.inr hrest)))

/-! ### What is turned away is not written -/

/-- The operation stores this response, with a body of this length. -/
def Op.Stores (w : Storing) (bodyLen : ℕ) : Op → Prop
  | .store w' body => w' = w ∧ body.length = bodyLen
  | .finishStreamed w' writer => w' = w ∧ writer.len = bodyLen
  | _ => False

/-- **A response that is turned away** is given to no transaction that writes an
entry. -/
theorem Op.asks_plain_of_rejected {op : Op} {reason : String} (hop : op.Stores w bodyLen)
    (hreject : storability P w.method w.requestHeaders w.metadata bodyLen opts = .reject reason) :
    (op.program P opts).Asks CacheAct.Plain := by
  cases op with
  | store w' body =>
    obtain ⟨rfl, rfl⟩ := hop
    refine asks_run_bind (asks_run_bind ⟨trivial, fun _ => trivial⟩ fun _ => ?_) fun _ => trivial
    rw [hreject]
    exact asks_plain dry_rejected
  | finishStreamed w' writer =>
    obtain ⟨rfl, rfl⟩ := hop
    refine asks_run_bind (asks_run_bind ⟨trivial, fun _ => trivial⟩ fun _ => ?_) fun _ => trivial
    rw [hreject]
    exact asks_plain dry_rejected
  | _ => exact hop.elim

/-- A plain action has nothing to tell of an entry, and what an action tells is told
of its own thread. -/
theorem not_wrote_of_eventsOf {i j : ℕ} {key : String} {β : Type} {a : CacheAct β} {s : Store}
    {b : β} (h : j ≠ i ∨ a.Plain) : Event.wrote i key ∉ eventsOf j a s b := by
  intro hmem
  cases a with
  | index a =>
    cases a with
    | putEntry record newBlobs =>
      rcases b with e | b
      · exact List.not_mem_nil hmem
      · obtain ⟨rfl, -⟩ := Event.wrote.inj (List.mem_singleton.mp hmem)
        exact h.elim (fun hne => hne rfl) id
    | refreshEntry record =>
      rcases b with e | b
      · exact List.not_mem_nil hmem
      · obtain ⟨rfl, -⟩ := Event.wrote.inj (List.mem_singleton.mp hmem)
        exact h.elim (fun hne => hne rfl) id
    | eligibleHashes c =>
      rcases b with e | b
      · exact List.not_mem_nil hmem
      · exact absurd (List.mem_singleton.mp hmem) nofun
    | _ => exact List.not_mem_nil hmem
  | _ => exact List.not_mem_nil hmem

/-- **No entry is written** in any run by an operation that is given a response that is
turned away. -/
theorem Op.not_wrote_of_rejected {ops : List Op} {i : ℕ} {op : Op} {reason : String}
    (hi : ops[i]? = some op) (hop : op.Stores w bodyLen)
    (hreject : storability P w.method w.requestHeaders w.metadata bodyLen opts = .reject reason)
    {c : Config CacheAct (Store × List Event) Outcome}
    (hrun : loggedRuns.Runs (logged P opts ops) c) (key : String) :
    Event.wrote i key ∉ c.shared.2 := by
  obtain ⟨hlt, -⟩ := List.getElem?_eq_some_iff.mp hi
  have hquiet := hrun.not_mem_log (W := fun e => ∃ key, e = .wrote i key)
    (H := CacheAct.Plain) (i := i) (fun _ => rfl)
    (fun a s b ha e he ⟨key, heq⟩ => not_wrote_of_eventsOf (Or.inr ha) (heq ▸ he))
    (fun j hj _ a s b e he ⟨key, heq⟩ => not_wrote_of_eventsOf (Or.inl hj) (heq ▸ he))
    (fun e he => absurd he List.not_mem_nil) (fun p hp => ?_) (by simpa [logged] using hlt)
  · exact fun hmem => hquiet _ hmem ⟨key, rfl⟩
  · change (ops.map (Op.program P opts))[i]? = some p at hp
    rw [List.getElem?_map, hi] at hp
    rw [← Option.some.inj hp]
    exact Op.asks_plain_of_rejected hop hreject

/-- **A `no-store` that is listed**: the response is turned away, and no operation
writes an entry of it in any run, just when a `no-store` is read, or the response is
turned away for another reason. -/
theorem no_store_kept_iff (P : Platform) (opts : CacheOptions) (w : Storing) (bodyLen : ℕ) :
    (w.ForbidsStoring →
      (∃ reason,
        storability P w.method w.requestHeaders w.metadata bodyLen opts = .reject reason) ∧
      ∀ (ops : List Op) (i : ℕ) (op : Op) (c : Config CacheAct (Store × List Event) Outcome),
        ops[i]? = some op → op.Stores w bodyLen → loggedRuns.Runs (logged P opts ops) c →
          ∀ key, Event.wrote i key ∉ c.shared.2) ↔
      (w.ForbidsStoring → w.ReadsNoStore ∨ w.OtherwiseDeclined P opts bodyLen) := by
  refine imp_congr_right fun _ => ⟨fun h => storability_reject_iff.mp h.1, fun h => ?_⟩
  obtain ⟨reason, hreject⟩ := storability_reject_iff.mpr h
  exact ⟨⟨reason, hreject⟩, fun ops i op c hi hop hrun =>
    Op.not_wrote_of_rejected hi hop hreject hrun⟩

/-- A response whose `no-store` stands beside a byte that is not text. -/
def besideObsText : Storing where
  partition := none
  method := "GET"
  url := "http://a.test/x"
  requestHeaders := ∅
  status := 200
  responseHeaders := ⟨(header.cacheControl, ⟨(Text.utf8 "no-store, ") ++ [0xe9], by decide⟩) ::
    (toHeaderMap [("cache-control", "max-age=60")]).fields⟩
  requestTime := 0
  responseTime := 0
  provenance := .origin

theorem stored_beside_obs_text : ¬∀ (P : Platform) (opts : CacheOptions) (w : Storing)
    (bodyLen : ℕ), w.ForbidsStoring →
      (∃ reason,
        storability P w.method w.requestHeaders w.metadata bodyLen opts = .reject reason) ∧
      ∀ (ops : List Op) (i : ℕ) (op : Op) (c : Config CacheAct (Store × List Event) Outcome),
        ops[i]? = some op → op.Stores w bodyLen → loggedRuns.Runs (logged P opts ops) c →
          ∀ key, Event.wrote i key ∉ c.shared.2 := by
  intro h
  have hlists : besideObsText.responseHeaders.ListsNoStore :=
    ⟨besideObsText.responseHeaders.fields.head (by decide) |>.2, by decide,
      (by decide : Quoted.placeFrom _ _ _ = _),
      "no-store".toList, Quoted.mem_itemsFrom_iff.mp (by decide), [], "no-store".toList, [],
      by decide, by decide, by decide⟩
  have hnone : ∀ v ∈ besideObsText.responseHeaders.getAll header.cacheControl,
      ∀ item ∈ Quoted.itemsFrom listMarks .outside v.chars,
        directiveName (Text.trimChars item) ≠ "must-understand" := by decide +kernel
  obtain ⟨⟨reason, hreject⟩, -⟩ := h .sample .default besideObsText 0
    (Or.inr ⟨hlists, fun ⟨item, ⟨v, hv, hitem⟩, hname⟩ =>
      hnone v hv item (Quoted.mem_itemsFrom_iff.mpr hitem) hname⟩)
  have hstore : storability .sample "GET" ∅ besideObsText.metadata 0 .default = .store := by
    decide +kernel
  exact nomatch hstore.symm.trans hreject

end Syndeo
