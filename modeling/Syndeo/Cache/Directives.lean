import Syndeo.Cache.Policy
import Syndeo.Data.Quoted

/-!
# The directives of a message

A `Cache-Control` value is a list of directives, with quoted strings in it, and a
message may have several such values. `Syndeo.HeaderMap.Lists` says what is listed
by the bytes alone; `Syndeo.HeaderMap.Reads` says the same of the values that are
text, which are the ones the source looks at. The two differ for a value with a
byte outside visible ASCII, and there only.

The record `Syndeo.CacheControl.fromHeaders` makes of the values is then read back
off the lists: a flag is set when a directive of its name is read
(`Syndeo.CacheControl.flag_fromHeaders`), and a field is named by `no-cache` when
some such directive has it in its argument
(`Syndeo.CacheControl.noCacheFields_fromHeaders`).
-/

namespace Syndeo

open Text

/-! ### What is listed -/

/-- The marks of a list with quoted strings. -/
def listMarks : Quoted.Marks Char := ⟨',', '"', '\\', by decide⟩

/-- The bytes of a value, each as a character. -/
def HeaderValue.chars (v : HeaderValue) : List Char := v.bytes.map fun b => Char.ofNat b.toNat

/-- Some `Cache-Control` value lists the item, outside quotes. -/
def HeaderMap.Lists (h : HeaderMap) (item : List Char) : Prop :=
  ∃ v ∈ h.getAll header.cacheControl, Quoted.Item listMarks v.chars item

/-- Some `Cache-Control` value that is text lists the item, outside quotes. -/
def HeaderMap.Reads (h : HeaderMap) (item : List Char) : Prop :=
  ∃ v ∈ h.getAll header.cacheControl, v.toStr.isSome = true ∧ Quoted.Item listMarks v.chars item

/-- The item is one word, in upper or lower case, with blanks around it. -/
def IsWord (item : List Char) (name : String) : Prop :=
  ∃ before token after : List Char, item = before ++ token ++ after ∧
    (∀ c ∈ before ++ after, c = ' ' ∨ c = '\t') ∧ toAsciiLowercase (String.ofList token) = name

/-- The name of a directive: what stands before its argument, if it has one. -/
def directiveName (directive : List Char) : String :=
  toAsciiLowercase (String.ofList (trimChars (match splitOnce '=' directive with
    | some (name, _) => name
    | none => directive)))

/-- The argument of a directive. -/
def directiveArg (directive : List Char) : Option (List Char) :=
  (splitOnce '=' directive).map fun nv => unquoted nv.2
where
  /-- Without its quotes. -/
  unquoted (value : List Char) : List Char := CacheControl.unquote (trimChars value)

/-- The item is a directive of this name. -/
def IsNamed (item : List Char) (name : String) : Prop := directiveName (trimChars item) = name

/-- The item is a `no-cache` that names fields. -/
def NamesFields (item : List Char) : Prop :=
  IsNamed item "no-cache" ∧ CacheControl.fieldList (directiveArg (trimChars item)) ≠ []

theorem HeaderValue.toList_of_toStr {v : HeaderValue} {s : String} (h : v.toStr = some s) :
    s.toList = v.chars := by
  rw [HeaderValue.toStr] at h
  split at h
  · rw [← Option.some.inj h, String.toList_ofList]
    rfl
  · exact absurd h (by simp)

theorem HeaderMap.Reads.lists {h : HeaderMap} {item : List Char} (hreads : h.Reads item) :
    h.Lists item := by
  obtain ⟨v, hv, -, hitem⟩ := hreads
  exact ⟨v, hv, hitem⟩

namespace CacheControl

/-! ### One value -/

/-- Where `split_directives` is in a quoted string. -/
def Splitting.At (st : Splitting) (p : Quoted.Place) : Prop :=
  (st.inQuotes = true ↔ p ≠ .outside) ∧ (st.escaped = true ↔ p = .escaped)

theorem Splitting.reverse_flush (st : Splitting) : st.flush.reverse = st.out.reverse ++
    [trimChars st.cur.reverse].filter (· ≠ []) := by
  rw [Splitting.flush]
  by_cases hnil : trimChars st.cur.reverse = []
  · simp [hnil]
  · simp [hnil]

theorem modifyHead_nil_append (l : List (List Char)) : l.modifyHead ([] ++ ·) = l := by
  cases l <;> rfl

/-- What it makes of the rest of a value. -/
theorem foldl_push {cs : List Char} {st : Splitting} {p : Quoted.Place} (hst : st.At p) :
    (cs.foldl Splitting.push st).flush.reverse = st.out.reverse ++
      ((((Quoted.itemsFrom listMarks p cs).modifyHead (st.cur.reverse ++ ·)).map trimChars).filter
        (· ≠ [])) := by
  induction cs generalizing st p with
  | nil =>
    rw [List.foldl_nil, Quoted.itemsFrom, List.modifyHead_cons, List.append_nil, Splitting.reverse_flush]
    rfl
  | cons c cs ih =>
    have hkeep : ∀ {st' : Splitting} {q : Quoted.Place}, st'.At q → st'.cur = c :: st.cur →
        st'.out = st.out → ¬(p = .outside ∧ c = listMarks.sep) → p.read listMarks c = q →
        (cs.foldl Splitting.push st').flush.reverse = st.out.reverse ++
          ((((Quoted.itemsFrom listMarks p (c :: cs)).modifyHead (st.cur.reverse ++ ·)).map
            trimChars).filter (· ≠ [])) := by
      intro st' q hst' hcur hout hsep hq
      rw [ih hst', hcur, hout, Quoted.itemsFrom, if_neg hsep, hq, List.modifyHead_modifyHead]
      congr 4
      funext item
      simp
    rw [List.foldl_cons]
    obtain ⟨hquotes, hescaped⟩ := hst
    rcases p with _ | _ | _
    · -- outside quotes
      have hin : st.inQuotes = false := by simpa using hquotes
      have hesc : st.escaped = false := by simpa using hescaped
      by_cases hquote : c = '"'
      · subst hquote
        refine hkeep (q := .inside) ?_ ?_ ?_ (by decide) (by decide) <;>
          simp [Splitting.push, Splitting.At, hin, hesc]
      · by_cases hcomma : c = ','
        · subst hcomma
          have hpush : st.push ',' = { st with out := st.flush, cur := [] } := by
            simp [Splitting.push, hin, hesc]
          rw [hpush, ih (p := .outside) ⟨by simp [hin], by simp [hesc]⟩, Quoted.itemsFrom,
            if_pos ⟨rfl, rfl⟩, Splitting.reverse_flush, List.reverse_nil, modifyHead_nil_append,
            List.modifyHead_cons, List.append_nil, List.map_cons, List.append_assoc,
            ← List.filter_append]
          rfl
        · refine hkeep (q := .outside) ?_ ?_ ?_ (fun h => hcomma h.2) (if_neg hquote) <;>
            simp [Splitting.push, Splitting.At, hin, hesc, hquote, hcomma]
    · -- inside quotes
      have hin : st.inQuotes = true := by simpa using hquotes
      have hesc : st.escaped = false := by simpa using hescaped
      by_cases hquote : c = '"'
      · subst hquote
        refine hkeep (q := .outside) ?_ ?_ ?_ (by decide) (by decide) <;>
          simp [Splitting.push, Splitting.At, hin, hesc]
      · by_cases hbackslash : c = '\\'
        · subst hbackslash
          refine hkeep (q := .escaped) ?_ ?_ ?_ (by decide) (by decide) <;>
            simp [Splitting.push, Splitting.At, hin, hesc]
        · refine hkeep (q := .inside) ?_ ?_ ?_ (by simp) ?_
          · simp [Splitting.push, Splitting.At, hin, hesc, hquote, hbackslash]
          · simp [Splitting.push, hin, hesc, hquote, hbackslash]
          · simp [Splitting.push, hin, hesc, hquote, hbackslash]
          · exact (if_neg hquote).trans (if_neg hbackslash)
    · -- after a backslash
      have hin : st.inQuotes = true := by simpa using hquotes
      have hesc : st.escaped = true := by simpa using hescaped
      refine hkeep (q := .inside) ?_ ?_ ?_ (by simp) rfl <;>
        simp [Splitting.push, Splitting.At, hin, hesc]

/-- **The directives of a value are its items**, trimmed, without the blank ones. -/
theorem mem_splitDirectives {value : String} {directive : List Char} :
    directive ∈ splitDirectives value ↔ directive ≠ [] ∧
      ∃ item, Quoted.Item listMarks value.toList item ∧ trimChars item = directive := by
  have hstart : Splitting.At ⟨[], [], false, false⟩ .outside := ⟨by simp, by simp⟩
  rw [splitDirectives, foldl_push hstart, List.reverse_nil, List.nil_append, List.reverse_nil,
    modifyHead_nil_append]
  simp only [List.mem_filter, List.mem_map, decide_eq_true_eq, ne_eq]
  simp only [Quoted.mem_itemsFrom_iff]
  exact ⟨fun h => ⟨h.2, h.1⟩, fun h => ⟨h.2, h.1⟩⟩

/-! ### One directive -/

/-- A flag of the record, and the directive that sets it. -/
def flags : List ((CacheControl → Bool) × String) :=
  [(noStore, "no-store"), (noCache, "no-cache"), (mustRevalidate, "must-revalidate"),
    (proxyRevalidate, "proxy-revalidate"), (mustUnderstand, "must-understand")]

variable {cc : CacheControl} {flag : (CacheControl → Bool) × String} {headers : HeaderMap}

/-- **A directive sets the flag of its name**, and leaves the others. -/
theorem flag_absorbDirective (hflag : flag ∈ flags) (directive : List Char) :
    flag.1 (absorbDirective cc directive) = true ↔
      flag.1 cc = true ∨ directiveName directive = flag.2 := by
  rw [absorbDirective, directiveName]
  rcases splitOnce '=' directive with _ | ⟨n, v⟩ <;>
    simp only [flags, List.mem_cons, List.not_mem_nil, or_false] at hflag <;>
    obtain rfl | rfl | rfl | rfl | rfl := hflag <;> dsimp only <;> split <;> simp_all

/-- A directive adds the fields it names to those of `no-cache`, if it is one. -/
theorem noCacheFields_absorbDirective (directive : List Char) :
    (absorbDirective cc directive).noCacheFields = cc.noCacheFields ++
      if directiveName directive = "no-cache" then fieldList (directiveArg directive) else [] := by
  rw [absorbDirective, directiveName, directiveArg]
  rcases splitOnce '=' directive with _ | ⟨n, v⟩ <;> dsimp only <;> split <;>
    simp_all [directiveArg.unquoted]

theorem flag_foldl (hflag : flag ∈ flags) (directives : List (List Char)) :
    flag.1 (directives.foldl absorbDirective cc) = true ↔
      flag.1 cc = true ∨ ∃ d ∈ directives, directiveName d = flag.2 := by
  induction directives generalizing cc with
  | nil => simp
  | cons d directives ih =>
    rw [List.foldl_cons, ih, flag_absorbDirective hflag, List.exists_mem_cons_iff, or_assoc]

theorem noCacheFields_foldl (directives : List (List Char)) :
    (directives.foldl absorbDirective cc).noCacheFields = [] ↔ cc.noCacheFields = [] ∧
      ∀ d ∈ directives, directiveName d = "no-cache" → fieldList (directiveArg d) = [] := by
  induction directives generalizing cc with
  | nil => simp
  | cons d directives ih =>
    rw [List.foldl_cons, ih, noCacheFields_absorbDirective, List.append_eq_nil_iff, and_assoc,
      List.forall_mem_cons]
    by_cases hname : directiveName d = "no-cache" <;> simp [hname]

/-! ### A message -/

/-- The directives that are read, from first to last. -/
def directivesRead (headers : HeaderMap) : List (List Char) :=
  ((headers.getAll header.cacheControl).filterMap HeaderValue.toStr).flatMap splitDirectives

theorem mem_directivesRead {directive : List Char} : directive ∈ directivesRead headers ↔
    directive ≠ [] ∧ ∃ item, headers.Reads item ∧ trimChars item = directive := by
  rw [directivesRead, List.mem_flatMap]
  constructor
  · rintro ⟨value, hvalue, hmem⟩
    obtain ⟨v, hv, hstr⟩ := List.mem_filterMap.mp hvalue
    obtain ⟨hne, item, hitem, htrim⟩ := mem_splitDirectives.mp hmem
    rw [HeaderValue.toList_of_toStr hstr] at hitem
    exact ⟨hne, item, ⟨v, hv, by rw [hstr]; rfl, hitem⟩, htrim⟩
  · rintro ⟨hne, item, ⟨v, hv, htext, hitem⟩, htrim⟩
    obtain ⟨value, hstr⟩ := Option.isSome_iff_exists.mp htext
    refine ⟨value, List.mem_filterMap.mpr ⟨v, hv, hstr⟩, mem_splitDirectives.mpr ⟨hne, item, ?_,
      htrim⟩⟩
    rwa [HeaderValue.toList_of_toStr hstr]

/-- The message asks for confirmation by its `Pragma`, which counts where no
`Cache-Control` value is text. -/
def AsksByPragma (headers : HeaderMap) : Prop :=
  (∀ v ∈ headers.getAll header.cacheControl, v.toStr = none) ∧
    ∃ v ∈ headers.getAll header.pragma, ∃ s, v.toStr = some s ∧ ∃ d ∈ s.toList.splitOn ',',
      eqIgnoreAsciiCase (String.ofList (trimChars d)) "no-cache" = true

theorem asksByPragma_iff : AsksByPragma headers ↔
    (headers.getAll header.cacheControl).filterMap HeaderValue.toStr = [] ∧
      ((headers.getAll header.pragma).filterMap HeaderValue.toStr).any (fun s =>
        (s.toList.splitOn ',').any fun d =>
          eqIgnoreAsciiCase (String.ofList (trimChars d)) "no-cache") = true := by
  rw [AsksByPragma, List.filterMap_eq_nil_iff, List.any_eq_true]
  refine and_congr_right fun _ => ⟨?_, ?_⟩
  · rintro ⟨v, hv, s, hs, hmem⟩
    exact ⟨s, List.mem_filterMap.mpr ⟨v, hv, hs⟩, List.any_eq_true.mpr hmem⟩
  · rintro ⟨s, hs, hmem⟩
    obtain ⟨v, hv, hstr⟩ := List.mem_filterMap.mp hs
    exact ⟨v, hv, s, hstr, List.any_eq_true.mp hmem⟩

/-- The record of a message that asks by its `Pragma`: it has no directives. -/
theorem fromHeaders_of_asksByPragma (h : AsksByPragma headers) :
    directivesRead headers = [] ∧ fromHeaders headers = { default with noCache := true } := by
  obtain ⟨hnone, hany⟩ := asksByPragma_iff.mp h
  refine ⟨by rw [directivesRead, hnone]; rfl, ?_⟩
  rw [fromHeaders]
  exact (if_pos ⟨hnone, hany⟩).trans (by rw [hnone]; rfl)

/-- The record of any other message: that of its directives. -/
theorem fromHeaders_of_not_asksByPragma (h : ¬AsksByPragma headers) :
    fromHeaders headers = (directivesRead headers).foldl absorbDirective default := by
  rw [fromHeaders, directivesRead, List.foldl_flatMap]
  exact if_neg (mt asksByPragma_iff.mpr h)

theorem exists_directivesRead {name : String} (hname : name ≠ "") :
    (∃ d ∈ directivesRead headers, directiveName d = name) ↔
      ∃ item, headers.Reads item ∧ IsNamed item name := by
  constructor
  · rintro ⟨d, hd, hdname⟩
    obtain ⟨-, item, hitem, rfl⟩ := mem_directivesRead.mp hd
    exact ⟨item, hitem, hdname⟩
  · rintro ⟨item, hitem, hdname⟩
    refine ⟨trimChars item, mem_directivesRead.mpr ⟨fun hnil => hname ?_, item, hitem, rfl⟩, hdname⟩
    rw [← hdname, hnil]
    rfl

/-- **A flag is set by a directive of its name that is read**, and `no-cache` also
by a `Pragma`. -/
theorem flag_fromHeaders (headers : HeaderMap) (hflag : flag ∈ flags) :
    flag.1 (fromHeaders headers) = true ↔
      (∃ item, headers.Reads item ∧ IsNamed item flag.2) ∨
        flag.2 = "no-cache" ∧ AsksByPragma headers := by
  have hname : flag.2 ≠ "" ∧ flag.1 default = false := by
    revert flag
    simp [flags, default]
  rw [← exists_directivesRead hname.1]
  by_cases hpragma : AsksByPragma headers
  · obtain ⟨hnil, hrecord⟩ := fromHeaders_of_asksByPragma hpragma
    rw [hnil, hrecord]
    have hset : flag.1 { default with noCache := true } = true ↔ flag.2 = "no-cache" := by
      revert flag
      simp [flags, default]
    simp [hset, hpragma]
  · rw [fromHeaders_of_not_asksByPragma hpragma, flag_foldl hflag, hname.2]
    simp [hpragma]

/-- **The fields of `no-cache`**: there are none when no such directive that is
read names any. -/
theorem noCacheFields_fromHeaders : (fromHeaders headers).noCacheFields = [] ↔
    ∀ item, headers.Reads item → ¬NamesFields item := by
  have hread : (∀ d ∈ directivesRead headers, directiveName d = "no-cache" →
      fieldList (directiveArg d) = []) ↔ ∀ item, headers.Reads item → ¬NamesFields item := by
    constructor
    · rintro h item hitem ⟨hname, hfields⟩
      refine hfields (h _ (mem_directivesRead.mpr ⟨fun hnil => ?_, item, hitem, rfl⟩) hname)
      rw [IsNamed, hnil] at hname
      exact absurd hname (by decide)
    · intro h d hd hname
      obtain ⟨-, item, hitem, rfl⟩ := mem_directivesRead.mp hd
      by_contra hfields
      exact h item hitem ⟨hname, hfields⟩
  rw [← hread]
  by_cases hpragma : AsksByPragma headers
  · obtain ⟨hnil, hrecord⟩ := fromHeaders_of_asksByPragma hpragma
    rw [hnil, hrecord]
    simp [default]
  · rw [fromHeaders_of_not_asksByPragma hpragma, noCacheFields_foldl]
    simp [default]

end CacheControl

end Syndeo
