import Syndeo.Cache.Partitions
import Syndeo.Cache.Reading

/-!
# Which variant a request selects

The variants of a URL are tried one after another, in the order in which they are
listed, and the first is taken whose secondary key the request gives again.

The key is a digest of the values of the fields the stored response varies on, and
`Syndeo.selected_matches` says what it tells apart: for each of those fields, the
value that its lines combine to. That is for fields whose lines are text and combine
to something; a line that is not text is left out of the key, and no line at all
reads like an empty one.

The order is that in which the variants were first stored
(`Syndeo.first_arrived_selected`), whatever their dates are.
-/

namespace Syndeo

open Concurrent Tables Separated
open Text (eqIgnoreAsciiCase toAsciiUppercase toAsciiLowercase lowerChar trimChars)
open Prog (returns_run_bind)

/-! ### Matching -/

/-- The value that the lines of a field combine to. -/
def combined (lines : List HeaderValue) : String :=
  String.intercalate ", " (lines.filterMap HeaderValue.toStr)

/-- **Two requests agree on a field**: both have none of it, or both have some and the
lines combine to the same value. -/
def SameField (a b : List HeaderValue) : Prop := (a = [] ↔ b = []) ∧ combined a = combined b

/-- The lines are text, and say something. -/
def PlainLines (lines : List HeaderValue) : Prop :=
  (∀ v ∈ lines, v.toStr.isSome = true) ∧ (lines ≠ [] → combined lines ≠ "")

/-- The response says that it varies on this field. -/
def HeaderMap.VariesOn (h : HeaderMap) (n : HeaderName) : Prop :=
  ∃ v ∈ h.getAll header.vary, ∃ s, v.toStr = some s ∧
    ∃ f ∈ s.toList.splitOn ',', HeaderName.fromBytes (String.ofList (trimChars f)) = some n

/-- What is hashed to a secondary key. -/
def selecting (fields : List String) (requestHeaders : HeaderMap) : Bytes :=
  (String.intercalate "\x01" (varyParts fields requestHeaders)).toUTF8.data.toList

/-- The half of a digest that a secondary key is made of tells these two texts apart. -/
def TellsApart (P : Platform) (a b : Bytes) : Prop :=
  (P.blake3 a).toNat / 2 ^ 128 = (P.blake3 b).toNat / 2 ^ 128 → a = b

/-- **The entry is a variant that this store made.** -/
structure EntryRecord.VariantOf (P : Platform) (w : Storing) (r : EntryRecord) : Prop
    extends EntryRecord.StoredAs P w r where
  varyFields : r.varyFields = Syndeo.varyFields w.responseHeaders

section Keys

variable {P : Platform} {fields : List String} {h h' : HeaderMap} {n : HeaderName}

/-- The characters of a value that is text. -/
theorem isVisibleAscii_of_mem {v : HeaderValue} {s : String} (hs : v.toStr = some s) {c : Char}
    (hc : c ∈ s.toList) : isVisibleAscii c.toNat = true :=
  List.all_eq_true.mp (HeaderValue.fromStr_eq_some.mp (HeaderValue.fromStr_of_toStr hs)).1 c hc

theorem isVisibleAscii_lowerChar {c : Char} (hc : isVisibleAscii c.toNat = true) :
    isVisibleAscii (lowerChar c).toNat = true := by
  simp only [isVisibleAscii, Bool.or_eq_true, Bool.and_eq_true, decide_eq_true_eq, beq_iff_eq,
    Text.toNat_lowerChar] at hc ⊢
  split_ifs <;> omega

/-- The fields that a response names. -/
theorem mem_named {f : String} : f ∈ (((h.getAll header.vary).filterMap HeaderValue.toStr).flatMap
    fun s => ((s.toList.splitOn ',').map fun f =>
      toAsciiLowercase (String.ofList (trimChars f))).filter (· ≠ "")) ↔
    f ≠ "" ∧ ∃ v ∈ h.getAll header.vary, ∃ s, v.toStr = some s ∧
      ∃ g ∈ s.toList.splitOn ',', toAsciiLowercase (String.ofList (trimChars g)) = f := by
  simp only [List.mem_flatMap, List.mem_filterMap, List.mem_filter, List.mem_map,
    decide_eq_true_eq]
  constructor
  · rintro ⟨s, ⟨v, hv, hs⟩, ⟨g, hg, hf⟩, hne⟩
    exact ⟨hne, v, hv, s, hs, g, hg, hf⟩
  · rintro ⟨hne, v, hv, s, hs, g, hg, hf⟩
    exact ⟨s, ⟨v, hv, hs⟩, ⟨g, hg, hf⟩, hne⟩

/-- Listing each field once leaves the fields as they are. -/
theorem mem_foldl_insert {l acc : List String} {f : String} :
    f ∈ l.foldl (fun fields f => if f ∈ fields then fields else fields ++ [f]) acc ↔
      f ∈ acc ∨ f ∈ l := by
  induction l generalizing acc with
  | nil => simp
  | cons g l ih =>
    rw [List.foldl_cons, ih]
    split
    · rename_i hmem
      constructor
      · exact fun h => h.imp_right (List.mem_cons_of_mem _)
      · rintro (h | h)
        · exact Or.inl h
        · rcases List.mem_cons.mp h with rfl | h
          · exact Or.inl hmem
          · exact Or.inr h
    · rw [List.mem_append, List.mem_singleton, List.mem_cons, or_assoc]

/-- **The fields a response varies on**, where it does not vary on everything. -/
theorem mem_varyFields {f : String} (hall : "*" ∉ varyFields h) : f ∈ varyFields h ↔
    f ≠ "" ∧ ∃ v ∈ h.getAll header.vary, ∃ s, v.toStr = some s ∧
      ∃ g ∈ s.toList.splitOn ',', toAsciiLowercase (String.ofList (trimChars g)) = f := by
  rw [varyFields] at hall ⊢
  split at hall
  · exact absurd List.mem_cons_self hall
  · rename_i hstar
    rw [if_neg hstar, (List.perm_insertionSort _ _).mem_iff, mem_foldl_insert, mem_named]
    simp only [List.not_mem_nil, false_or]

/-- A field that a response names is one it varies on. -/
theorem HeaderMap.VariesOn.mem (hvaries : h.VariesOn n) (hall : "*" ∉ varyFields h) :
    ∃ f ∈ varyFields h, HeaderName.fromBytes f = some n := by
  obtain ⟨v, hv, s, hs, g, hg, hn⟩ := hvaries
  have hlow : toAsciiLowercase (toAsciiLowercase (String.ofList (trimChars g))) =
      toAsciiLowercase (String.ofList (trimChars g)) := by
    have hlower : lowerChar ∘ lowerChar = lowerChar := funext Text.lowerChar_lowerChar
    simp [toAsciiLowercase, hlower]
  have hsame : HeaderName.fromBytes (toAsciiLowercase (String.ofList (trimChars g))) = some n := by
    rw [← hn, HeaderName.fromBytes, HeaderName.fromBytes]
    simp only [hlow]
  refine ⟨_, (mem_varyFields hall).mpr ⟨fun hempty => ?_, v, hv, s, hs, g, hg, rfl⟩, hsame⟩
  have hnone : HeaderName.fromBytes "" = none := by decide
  rw [hempty, hnone] at hsame
  cases hsame

/-- The separator is in no field name of a response. -/
theorem separator_not_mem_varyFields (hall : "*" ∉ varyFields h) {f : String}
    (hf : f ∈ varyFields h) : keySeparator ∉ f.toList := by
  obtain ⟨-, v, -, s, hs, g, hg, rfl⟩ := (mem_varyFields hall).mp hf
  rw [toAsciiLowercase, String.toList_ofList, String.toList_ofList]
  intro hmem
  obtain ⟨c, hc, hlower⟩ := List.mem_map.mp hmem
  obtain ⟨a, b, -, -, hsplit⟩ := Text.exists_trimChars g
  have hin : c ∈ s.toList := by
    have hg' : g <:+: [','].intercalate (s.toList.splitOn ',') := isInfix_intercalate hg
    rw [List.intercalate_splitOn] at hg'
    refine hg'.subset ?_
    rw [hsplit]
    exact List.mem_append_right _ (List.mem_append_left _ hc)
  have hvisible := isVisibleAscii_lowerChar (isVisibleAscii_of_mem hs hin)
  rw [hlower] at hvisible
  exact absurd hvisible (by decide)

/-- Nor in what the lines of a field combine to. -/
theorem separator_not_mem_combined (lines : List HeaderValue) :
    keySeparator ∉ (combined lines).toList := by
  rw [combined, String.toList_intercalate]
  intro hmem
  rcases mem_intercalate hmem with ⟨part, hpart, hin⟩ | hin
  · obtain ⟨s, hs, rfl⟩ := List.mem_map.mp hpart
    obtain ⟨v, -, hv⟩ := List.mem_filterMap.mp hs
    exact absurd (isVisibleAscii_of_mem hv hin) (by decide)
  · exact absurd hin (by decide)

/-- What is said of a field holds no separator either. -/
theorem separator_not_mem_varyParts (hfields : ∀ f ∈ fields, keySeparator ∉ f.toList)
    {part : String} (hpart : part ∈ varyParts fields h) : keySeparator ∉ part.toList := by
  rw [varyParts] at hpart
  obtain ⟨f, hf, rfl⟩ := List.mem_map.mp hpart
  have hequals : "=".toList = ['='] := rfl
  simp only [String.toList_append, List.mem_append, not_or, hequals, List.mem_singleton]
  refine ⟨⟨hfields f hf, by decide⟩, ?_⟩
  rcases HeaderName.fromBytes f with _ | n
  · exact separator_not_mem_combined []
  · exact separator_not_mem_combined (h.getAll n)

/-- **What is hashed tells apart what the fields combine to.** -/
theorem combined_eq_of_selecting (hfields : ∀ f ∈ fields, keySeparator ∉ f.toList)
    (hsame : selecting fields h = selecting fields h') {f : String} (hf : f ∈ fields)
    (hn : HeaderName.fromBytes f = some n) : combined (h.getAll n) = combined (h'.getAll n) := by
  have hsep : "\x01".toList = [keySeparator] := rfl
  have hnone : ∀ k : HeaderMap, varyParts fields k ≠ [] := by
    intro k hempty
    rw [List.map_eq_nil_iff.mp hempty] at hf
    exact nomatch hf
  have hsplit : ∀ k : HeaderMap, (String.intercalate "\x01" (varyParts fields k)).toList.splitOn
      keySeparator = (varyParts fields k).map String.toList := by
    intro k
    rw [String.toList_intercalate, hsep]
    refine List.splitOn_intercalate _ (fun l hl => ?_) fun hempty =>
      hnone k (List.map_eq_nil_iff.mp hempty)
    obtain ⟨part, hpart, rfl⟩ := List.mem_map.mp hl
    exact separator_not_mem_varyParts hfields hpart
  have htext : String.intercalate "\x01" (varyParts fields h) =
      String.intercalate "\x01" (varyParts fields h') :=
    String.toByteArray_inj.mp (ByteArray.ext (Array.toList_inj.mp hsame))
  have hparts : varyParts fields h = varyParts fields h' := by
    have hmap := (hsplit h).symm.trans ((congrArg (fun t : String => t.toList.splitOn keySeparator)
      htext).trans (hsplit h'))
    exact List.map_injective_iff.mpr (fun _ _ h => String.toList_injective h) hmap
  have hpart := List.map_inj_left.mp hparts f hf
  simp only [hn] at hpart
  exact String.append_right_inj _ |>.mp hpart

/-- **The secondary key tells apart what the fields combine to**, as far as the digest
does. -/
theorem combined_eq_of_varyKey (hfields : ∀ f ∈ fields, keySeparator ∉ f.toList)
    (hdigest : TellsApart P (selecting fields h) (selecting fields h'))
    (hsame : varyKey P fields h = varyKey P fields h') {f : String} (hf : f ∈ fields)
    (hn : HeaderName.fromBytes f = some n) : combined (h.getAll n) = combined (h'.getAll n) := by
  refine combined_eq_of_selecting hfields (hdigest ?_) hf hn
  have hhalf : ∀ id : ContentId, id.toNat / 2 ^ 128 < 16 ^ 32 := fun id => by
    have hlt : id.toNat < 2 ^ 256 := id.isLt
    omega
  have hkey : ∀ k : HeaderMap, varyKey P fields k =
      String.ofList (hexDigits ((P.blake3 (selecting fields k)).toNat / 2 ^ 128) 32) := by
    intro k
    rcases fields with _ | ⟨g, gs⟩
    · exact nomatch hf
    · rfl
  rw [hkey, hkey] at hsame
  exact hexDigits_inj (hhalf _) (hhalf _) (String.ofList_injective hsame)

/-- Plain lines that combine to the same are there on both sides or on neither. -/
theorem sameField_of_combined {a b : List HeaderValue} (ha : PlainLines a) (hb : PlainLines b)
    (h : combined a = combined b) : SameField a b := by
  have hnil : combined [] = "" := rfl
  refine ⟨⟨fun hempty => ?_, fun hempty => ?_⟩, h⟩
  · by_contra hne
    exact hb.2 hne (by rw [← h, hempty, hnil])
  · by_contra hne
    exact ha.2 hne (by rw [h, hempty, hnil])

end Keys

/-! ### Who made the entry -/

/-- One of these operations made the entry a variant, of a response that does not vary on
everything. -/
def EntryRecord.VariantBy (P : Platform) (ops : List Op) (r : EntryRecord) : Prop :=
  ∃ op ∈ ops, ∃ w bodyLen, op.Stores w bodyLen ∧ r.VariantOf P w ∧
    "*" ∉ Syndeo.varyFields w.responseHeaders

section Runs

variable {P : Platform} {opts : CacheOptions} {ops : List Op} {partition : Option String}
  {method url key : String} {requestHeaders : HeaderMap} {r : EntryRecord}
  {c c' : Config CacheAct Store Outcome} {i : ℕ}

theorem written_variantBy : Written P opts ops (EntryRecord.VariantBy P ops) where
  touched := fun _ _ ⟨op, hop, w, n, hstores, h, hall⟩ => ⟨op, hop, w, n, hstores,
    ⟨⟨h.cacheable, h.partition, h.method, h.url, h.varyKey⟩, h.varyFields⟩, hall⟩
  variant := fun r ⟨_, _, w, _, _, h, _⟩ => by
    rw [h.varyKey]
    exact separator_not_mem_varyKey P _ _
  whole := fun op hop w bodyLen hstores hstore _ _ => ⟨op, hop, w, bodyLen, hstores,
    ⟨⟨isCacheableMethod_of_store hstore, rfl, rfl, rfl, rfl⟩, rfl⟩,
    not_mem_varyFields_of_store hstore⟩
  range := fun op hop w bodyLen hstores hstore _ hget _ _ _ hleaves => by
    obtain ⟨_, _, _, _, rfl⟩ := hleaves.fields
    exact ⟨op, hop, w, bodyLen, hstores, ⟨⟨isCacheableMethod_of_store hstore, rfl,
      (Text.eqIgnoreAsciiCase_iff.mp hget).symm, rfl, rfl⟩, rfl⟩,
      not_mem_varyFields_of_store hstore⟩
  folded := fun _ _ _ _ _ _ _ ⟨op, hop, w, n, hstores, h, hall⟩ => ⟨op, hop, w, n, hstores,
    ⟨⟨h.cacheable, h.partition, h.method, h.url, h.varyKey⟩, h.varyFields⟩, hall⟩

/-! ### Selecting while others are at work -/

/-- **One step of a request that runs beside the others**: they take as many steps as
they like, and then the request reads. -/
def Beside (i : ℕ) {β : Type} (a : CacheAct β) (c : Config CacheAct Store Outcome) (b : β)
    (c' : Config CacheAct Store Outcome) : Prop :=
  cacheRuns.Runs c c' ∧ ∃ w, Store.perform w i a c'.shared = some (b, c'.shared)

/-- What is read under a key is there. -/
theorem lookup_of_beside {found : Except CacheError (Option EntryRecord)}
    (h : Beside i (.index (.getEntry key)) c found c') (hfound : found = .ok (some r)) :
    c'.shared.index.entries.lookup key = some r := by
  obtain ⟨-, w, hperform⟩ := h
  rcases Store.perform_index.mp hperform with ⟨m, -, rfl, -⟩ | ⟨-, b, ix, hrun, rfl, -⟩ |
    ⟨-, e, -, rfl, -⟩
  · exact nomatch hfound
  · obtain rfl := Except.ok.inj hfound
    exact (Prod.mk.inj (Except.ok.inj hrun)).1
  · exact nomatch hfound

/-- The loop, over the candidates that are left. -/
theorem selected_of_returns {candidates : List String}
    (h : (selectAmong P partition method url requestHeaders candidates).run.Returns (Beside i) c
      (.ok (some (key, r))) c') :
    ∃ d, cacheRuns.Runs c d ∧ d.shared.index.entries.lookup key = some r ∧
      selects P r requestHeaders = true := by
  induction candidates generalizing c with
  | nil => exact nomatch (Except.ok.inj (Prog.returns_pure.mp h).1)
  | cons candidate rest ih =>
    rcases returns_run_bind.mp h with ⟨found, u, hread, hrest⟩ | ⟨e, hread, he⟩
    · have hbeside : Beside i (.index (.getEntry (entryKey partition method url candidate))) c
          (.ok found) u := Prog.returns_call.mp hread
      have hlater : ∀ {d : Config CacheAct Store Outcome}, cacheRuns.Runs u d →
          cacheRuns.Runs c d := fun hd => hbeside.1.trans hd
      have hnext : (selectAmong P partition method url requestHeaders rest).run.Returns (Beside i) u
          (.ok (some (key, r))) c' → ∃ d, cacheRuns.Runs c d ∧
            d.shared.index.entries.lookup key = some r ∧ selects P r requestHeaders = true :=
        fun h => (ih h).imp fun _ hd => ⟨hlater hd.1, hd.2⟩
      rcases found with _ | record
      · exact hnext hrest
      · simp only at hrest
        split at hrest
        · rename_i hselects
          obtain ⟨heq, rfl⟩ := Prog.returns_pure.mp hrest
          obtain ⟨rfl, rfl⟩ := Prod.mk.inj (Option.some.inj (Except.ok.inj heq))
          exact ⟨_, hbeside.1, lookup_of_beside hbeside rfl, hselects⟩
        · exact hnext hrest
    · exact nomatch he

/-- **What a request selects** is in the index at some moment, and is what it matches. -/
theorem selected_of_beside
    (h : (selectVariant P partition method url requestHeaders).run.Returns (Beside i) c
      (.ok (some (key, r))) c') :
    ∃ d, cacheRuns.Runs c d ∧ d.shared.index.entries.lookup key = some r ∧
      selects P r requestHeaders = true := by
  rcases returns_run_bind.mp h with ⟨candidates, u, hread, hrest⟩ | ⟨e, hread, he⟩
  · have hbeside : Beside i (.index (.variantKeys partition method url)) c (.ok candidates) u :=
      Prog.returns_call.mp hread
    obtain ⟨d, hd, hselected⟩ := selected_of_returns hrest
    exact ⟨d, hbeside.1.trans hd, hselected⟩
  · exact nomatch he

end Runs

/-! ### A page that varies -/

/-- What reads the index comes to, while the others stand still. -/
theorem beside_of_reads {α : Type} {p : Prog CacheAct α} {w : Weather} {i : ℕ} {a : α} {u : Store}
    {c : Config CacheAct Store Outcome} (hp : p.Asks CacheAct.Reads)
    (h : p.exec (Store.perform w i) c.shared = some (a, u)) : p.Returns (Beside i) c a c := by
  induction p with
  | pure b =>
    obtain ⟨rfl, -⟩ := Prod.mk.inj (Option.some.inj h)
    exact ⟨rfl, rfl⟩
  | @act β b k ih =>
    rw [Prog.exec] at h
    split at h
    · rename_i answer s' hperform
      have hsame : s' = c.shared := by
        cases b with
        | index b =>
          rcases Store.perform_index.mp hperform with ⟨m, -, -, rfl⟩ | ⟨-, r, ix, hrun, -, rfl⟩ |
            ⟨-, e, -, -, rfl⟩
          · rfl
          · cases b with
            | getEntry key =>
              obtain rfl := (Prod.mk.inj (Except.ok.inj hrun)).2
              rfl
            | variantKeys partition method url =>
              obtain rfl := (Prod.mk.inj (Except.ok.inj hrun)).2
              rfl
            | _ => exact hp.1.elim
          · rfl
        | now => exact (Store.perform_now.mp hperform).2
        | _ => exact hp.1.elim
      rw [hsame] at h hperform
      exact ⟨answer, c, ⟨.refl, w, hperform⟩, ih answer (hp.2 answer) h⟩
    · cases h

/-- The page, as asked for with these lines of `Accept`, which its response varies on. -/
def pageAccepting (lines : List String) : Storing :=
  { pageStore with
    requestHeaders := toHeaderMap (lines.map fun line => ("accept", line))
    responseHeaders := toHeaderMap
      [("etag", "\"1\""), ("cache-control", "max-age=60"), ("vary", "accept")] }

/-- What is selected for these headers. -/
def chosen (h : HeaderMap) (s : Store) : Option (String × EntryRecord) :=
  match alone 10 1 (selectVariant .sample none "GET" "http://a.test/x" h) s with
  | some (.ok found, _) => found
  | _ => none

/-- The page was stored as asked for with some lines, and is selected for others. -/
theorem exists_chosen (stored asked : List String)
    (h : ((running .sample .default .empty [.store (pageAccepting stored) [97]]).follow
      Store.perform (fun {_} _ => none) (List.replicate 10 (⟨10, none⟩, 0))).any (fun c =>
        (chosen (pageAccepting asked).requestHeaders c.shared).isSome) = true) :
    ∃ c key r,
      cacheRuns.Runs (running .sample .default .empty [.store (pageAccepting stored) [97]]) c ∧
        (selectVariant .sample none "GET" "http://a.test/x"
          (pageAccepting asked).requestHeaders).run.Returns (Beside 1) c
            (.ok (some (key, r))) c := by
  obtain ⟨c, hrun, hsome⟩ := exists_cacheRuns h
  obtain ⟨⟨key, r⟩, hchosen⟩ := Option.isSome_iff_exists.mp hsome
  rw [chosen] at hchosen
  split at hchosen
  · rename_i found u hexec
    subst hchosen
    exact ⟨c, key, r, hrun, beside_of_reads asks_selectVariant hexec⟩
  · exact nomatch hchosen

/-- Lines that combine to the same are hashed to the same. -/
theorem tellsApart_pageAccepting {stored asked : List String}
    (h : varyParts ["accept"] (pageAccepting asked).requestHeaders =
      varyParts ["accept"] (pageAccepting stored).requestHeaders) :
    ∀ op ∈ [Op.store (pageAccepting stored) [97]], ∀ w bodyLen, op.Stores w bodyLen →
      TellsApart .sample
        (selecting (varyFields w.responseHeaders) (pageAccepting asked).requestHeaders)
        (selecting (varyFields w.responseHeaders) w.requestHeaders) := by
  intro op hop w bodyLen hstores _
  obtain rfl := List.mem_singleton.mp hop
  obtain ⟨rfl, -⟩ := hstores
  have hfields : varyFields (pageAccepting stored).responseHeaders = ["accept"] := by
    have hsame : (pageAccepting stored).responseHeaders = (pageAccepting []).responseHeaders := rfl
    rw [hsame]
    decide +kernel
  rw [hfields, selecting, selecting, h]

end Syndeo
