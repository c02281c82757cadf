import Syndeo.Cache.Headers

/-!
# The `Via` field

Every proxy a request passes through adds itself to the request's `Via` field,
and a proxy that finds itself there has seen the request before. What this proxy
writes, `Syndeo.Proxy.appendOurVia`, and what it looks for,
`Syndeo.Proxy.viaNamesUs`, are two functions over the same bytes: the first puts
an entry behind whatever is there, and the second reads everything from the
front with a scanner for comments, `Syndeo.Proxy.Scanning`.

So the entry is found where the scanner is outside every comment when it gets
there. Inside one it reads nothing of it, and the field is then read as though
the entry had never been added (`Syndeo.Proxy.names_entries_append`). And a field
value that is not text is not read at all.
-/

namespace Syndeo.Proxy

open Syndeo.Text

/-! ### Reading -/

/-- `VIA_PSEUDONYM`. -/
def viaPseudonym : String := "syndeo"

/-- What `via_entries` carries from one character to the next: the finished
entries and the current one, both backwards, how many comments are open, and
whether a backslash quotes the character to come. -/
structure Scanning where
  entries : List (List Char)
  last : List Char
  depth : ℕ
  quoted : Bool
  deriving DecidableEq

/-- The beginning of a field. -/
def Scanning.start : Scanning := ⟨[], [], 0, false⟩

/-- One character of `via_entries`. -/
def Scanning.push (st : Scanning) (c : Char) : Scanning :=
  if st.quoted then { st with quoted := false }
  else if c = '(' then { st with depth := st.depth + 1 }
  else if c = ')' ∧ 0 < st.depth then { st with depth := st.depth - 1 }
  else if c = '\\' ∧ 0 < st.depth then { st with quoted := true }
  else if c = ',' ∧ st.depth = 0 then
    { st with entries := st.last.reverse :: st.entries, last := [] }
  else if st.depth = 0 then { st with last := c :: st.last }
  else st

/-- The scanner after a text. -/
def scan (field : List Char) : Scanning := field.foldl Scanning.push Scanning.start

/-- The entries it has found. -/
def Scanning.all (st : Scanning) : List (List Char) := (st.last.reverse :: st.entries).reverse

/-- `via_entries`. -/
def viaEntries (field : List Char) : List (List Char) := (scan field).all

/-- `str::split_whitespace`, on the characters. -/
def splitWhitespace (cs : List Char) : List (List Char) :=
  (cs.splitOnP isWhitespace).filter (· ≠ [])

/-- An entry whose received-by is our pseudonym. -/
def entryNamesUs (entry : List Char) : Bool :=
  match splitWhitespace entry with
  | _ :: receivedBy :: _ => eqIgnoreAsciiCase (String.ofList receivedBy) viaPseudonym
  | _ => false

/-- One field value of `via_names_us`. -/
def valueNamesUs (value : HeaderValue) : Bool :=
  match value.toStr with
  | some field => (viaEntries field.toList).any entryNamesUs
  | none => false

/-- `via_names_us`. -/
def viaNamesUs (headers : HeaderMap) : Bool := (headers.getAll header.via).any valueNamesUs

/-! ### Writing -/

/-- The bytes of a text in ASCII. -/
def ascii (s : String) : List UInt8 := s.toList.map fun c => UInt8.ofNat c.toNat

/-- One value of the chain `append_our_via` builds. -/
def chainPush (chain : List UInt8) (value : HeaderValue) : List UInt8 :=
  (if chain = [] then chain else chain ++ ascii ", ") ++ value.bytes

/-- What `append_our_via` sends as the field, given its values so far. -/
def ourVia (values : List HeaderValue) : List UInt8 :=
  let chain := values.foldl chainPush []
  (if chain = [] then chain else chain ++ ascii ", ") ++ ascii "1.1 " ++ ascii viaPseudonym

/-- `HeaderValue::from_bytes`. -/
def fromBytes (bytes : List UInt8) : Option HeaderValue :=
  if h : bytes.all isFieldByte = true then some ⟨bytes, h⟩ else none

/-- The entry by itself. -/
def ourEntry : HeaderValue := ⟨ascii "1.1 syndeo", by decide⟩

/-- `append_our_via`. -/
def appendOurVia (headers : HeaderMap) : HeaderMap :=
  headers.insert header.via ((fromBytes (ourVia (headers.getAll header.via))).getD ourEntry)

/-- `forwardable`: the fields that may be sent on to an origin. -/
def forwardable (incoming : HeaderMap) : HeaderMap :=
  ⟨incoming.fields.filter fun f =>
    !(f.1 = header.host || isHopByHop f.1.text (connectionTokens incoming))⟩

/-! ### Words -/

theorem splitWhitespace_cons {w : Char} (hw : isWhitespace w = true) (cs : List Char) :
    splitWhitespace (w :: cs) = splitWhitespace cs := by
  rw [splitWhitespace, List.splitOnP_cons_eq_if_modifyHead, if_pos hw]
  rfl

/-- A word, up to the next white space or the end. -/
theorem splitWhitespace_word {word gap : List Char} (hne : word ≠ [])
    (hword : ∀ c ∈ word, isWhitespace c = false) (hgap : ∀ c ∈ gap.head?, isWhitespace c = true) :
    splitWhitespace (word ++ gap) = word :: splitWhitespace gap := by
  rcases gap with _ | ⟨w, cs⟩
  · rw [List.append_nil, splitWhitespace, List.splitOnP_eq_singleton hword]
    simp [hne, splitWhitespace]
  · have hw := hgap w rfl
    rw [splitWhitespace_cons hw, splitWhitespace,
      List.splitOnP_append_cons_of_forall_mem hword w hw, List.filter_cons_of_pos (by simpa)]
    rfl

/-- **Our entry is found by itself**, with white space around it. -/
theorem entryNamesUs_ourEntry {lead gap : List Char} (hlead : ∀ c ∈ lead, isWhitespace c = true)
    (hgap : ∀ c ∈ gap, isWhitespace c = true) :
    entryNamesUs (lead ++ "1.1 syndeo".toList ++ gap) = true := by
  have hskip : ∀ cs, splitWhitespace (lead ++ cs) = splitWhitespace cs := by
    intro cs
    induction lead with
    | nil => rfl
    | cons w lead ih =>
      rw [List.cons_append, splitWhitespace_cons (hlead w List.mem_cons_self),
        ih fun c hc => hlead c (List.mem_cons_of_mem _ hc)]
  have hhead : ∀ c ∈ gap.head?, isWhitespace c = true := fun c hc =>
    hgap c (List.mem_of_mem_head? hc)
  have hwords : splitWhitespace (lead ++ "1.1 syndeo".toList ++ gap) =
      "1.1".toList :: "syndeo".toList :: splitWhitespace gap := by
    rw [List.append_assoc, hskip,
      show "1.1 syndeo".toList ++ gap = "1.1".toList ++ (' ' :: ("syndeo".toList ++ gap)) from rfl,
      splitWhitespace_word (by decide) (by decide) (by rintro _ ⟨⟩; rfl),
      splitWhitespace_cons (by decide),
      splitWhitespace_word (by decide) (by decide) hhead]
  rw [entryNamesUs, hwords]
  rfl

/-! ### The scanner -/

namespace Scanning

variable {st : Scanning} {c : Char} {cs : List Char}

/-- Nothing is quoted outside a comment. -/
def Sound (st : Scanning) : Prop := st.depth = 0 → st.quoted = false

theorem Sound.push (h : st.Sound) (c : Char) : (st.push c).Sound := by
  rw [Scanning.push]
  split_ifs with h₁ h₂ h₃ h₄ h₅ h₆
  · exact fun _ => rfl
  · exact fun hd => absurd hd (Nat.succ_ne_zero _)
  · exact fun _ => by simpa using h₁
  · exact fun hd => absurd hd (Nat.pos_iff_ne_zero.mp h₄.2)
  · exact fun _ => by simpa using h₁
  · exact fun _ => by simpa using h₁
  · exact h

theorem scan_append (a b : List Char) : scan (a ++ b) = b.foldl push (scan a) :=
  List.foldl_append

theorem sound_scan (field : List Char) : (scan field).Sound := by
  have hgeneral : ∀ (cs : List Char) (st : Scanning), st.Sound → (cs.foldl push st).Sound := by
    intro cs
    induction cs with
    | nil => exact fun st h => h
    | cons c cs ih => exact fun st h => ih _ (h.push c)
  exact hgeneral field start fun _ => rfl

/-- A finished entry stays. -/
theorem mem_entries_push {entry : List Char} (h : entry ∈ st.entries) (c : Char) :
    entry ∈ (st.push c).entries := by
  rw [push]
  split_ifs
  all_goals first | exact h | exact List.mem_cons_of_mem _ h

theorem mem_all_of_mem_entries {entry : List Char} (h : entry ∈ st.entries) :
    entry ∈ (cs.foldl push st).all := by
  induction cs generalizing st with
  | nil => exact List.mem_reverse.mpr (List.mem_cons_of_mem _ h)
  | cons c cs ih => exact ih (mem_entries_push h c)

/-- Outside a comment, what opens none and ends no entry is read. -/
theorem foldl_push_outside (cs : List Char) (st : Scanning) (hd : st.depth = 0) (hq : st.quoted = false)
    (hcs : ∀ c ∈ cs, c ≠ '(' ∧ c ≠ ',') :
    cs.foldl push st = { st with last := cs.reverse ++ st.last } := by
  induction cs generalizing st with
  | nil => rfl
  | cons c cs ih =>
    obtain ⟨hopen, hcomma⟩ := hcs c List.mem_cons_self
    have hpush : st.push c = { st with last := c :: st.last } := by
      simp [push, hd, hq, hopen, hcomma]
    have hrest := ih { st with last := c :: st.last } hd hq
      fun d hd' => hcs d (List.mem_cons_of_mem _ hd')
    rw [List.foldl_cons, hpush, hrest]
    simp

/-- Inside one, what neither opens nor closes one is not. -/
theorem foldl_push_inside (cs : List Char) (st : Scanning) (hd : 0 < st.depth) (hne : cs ≠ [])
    (hcs : ∀ c ∈ cs, c ≠ '(' ∧ c ≠ ')' ∧ c ≠ '\\') :
    cs.foldl push st = { st with quoted := false } := by
  have hone : ∀ c ∈ cs, ∀ t : Scanning, 0 < t.depth → t.push c = { t with quoted := false } := by
    intro c hc t ht
    obtain ⟨h₁, h₂, h₃⟩ := hcs c hc
    rcases hq : t.quoted with _ | _
    · have ht' : t.depth ≠ 0 := Nat.pos_iff_ne_zero.mp ht
      rw [push, if_neg (by simp [hq]), if_neg h₁, if_neg (by simp [h₂]), if_neg (by simp [h₃]),
        if_neg (by simp [ht']), if_neg ht', ← hq]
    · rw [push, if_pos hq]
  induction cs generalizing st with
  | nil => exact absurd rfl hne
  | cons c cs ih =>
    rw [List.foldl_cons, hone c List.mem_cons_self st hd]
    rcases cs with _ | ⟨d, cs⟩
    · rfl
    · rw [ih { st with quoted := false } hd (List.cons_ne_nil _ _)
        (fun e he => hcs e (List.mem_cons_of_mem _ he))
        fun e he => hone e (List.mem_cons_of_mem _ he)]

end Scanning

/-! ### Our entry behind a chain -/

/-- A field value with our entry at its end. -/
def withOurEntry (chain : List Char) : List Char :=
  (if chain = [] then chain else chain ++ ", ".toList) ++ "1.1 syndeo".toList

/-- **What may come behind**: nothing, or more entries, with spaces and tabs
before the comma. -/
def Follows (later : List Char) : Prop :=
  ∃ gap tail, later = gap ++ tail ∧ (∀ c ∈ gap, c = ' ' ∨ c = '\t') ∧
    (tail = [] ∨ ∃ more, tail = ',' :: more)

theorem Follows.head {c : Char} {later : List Char} (h : Follows (c :: later)) :
    c = ' ' ∨ c = '\t' ∨ c = ',' := by
  obtain ⟨_ | ⟨d, gap⟩, tail, heq, hgap, htail⟩ := h
  · rcases htail with rfl | ⟨more, rfl⟩
    · exact nomatch heq
    · exact Or.inr (Or.inr (List.cons.inj heq).1)
  · obtain ⟨rfl, -⟩ := List.cons.inj heq
    rcases hgap c List.mem_cons_self with h | h
    · exact Or.inl h
    · exact Or.inr (Or.inl h)

section Behind

variable {chain later : List Char}

theorem isWhitespace_of_gap {gap : List Char} (h : ∀ c ∈ gap, c = ' ' ∨ c = '\t') :
    ∀ c ∈ gap, isWhitespace c = true := by
  intro c hc
  rcases h c hc with rfl | rfl
  · decide
  · decide

theorem plain_ourEntry : ∀ c ∈ "1.1 syndeo".toList, c ≠ '(' ∧ c ≠ ',' := by decide

/-- Where the scanner is outside every comment, our entry is read. -/
theorem scan_withOurEntry (h : (scan chain).depth = 0) :
    ∃ lead, (∀ c ∈ lead, isWhitespace c = true) ∧ (scan (withOurEntry chain)).depth = 0 ∧
      (scan (withOurEntry chain)).quoted = false ∧
      (scan (withOurEntry chain)).last.reverse = lead ++ "1.1 syndeo".toList := by
  by_cases hchain : chain = []
  · subst hchain
    exact ⟨[], by decide, by decide, by decide, by decide⟩
  · have hq := Scanning.sound_scan chain h
    have hcomma : (scan chain).push ',' =
        { scan chain with entries := (scan chain).last.reverse :: (scan chain).entries, last := [] } := by
      simp [Scanning.push, h, hq]
    have hrest := Scanning.foldl_push_outside " 1.1 syndeo".toList { scan chain with
      entries := (scan chain).last.reverse :: (scan chain).entries, last := [] } h hq (by decide)
    have hscan : scan (withOurEntry chain) = { scan chain with
        entries := (scan chain).last.reverse :: (scan chain).entries
        last := " 1.1 syndeo".toList.reverse } := by
      rw [withOurEntry, if_neg hchain, List.append_assoc, Scanning.scan_append]
      exact (congrArg (fun st => " 1.1 syndeo".toList.foldl Scanning.push st) hcomma).trans hrest
    refine ⟨[' '], by decide, ?_, ?_, ?_⟩
    · rw [hscan]
      exact h
    · rw [hscan]
      exact hq
    · rw [hscan]
      exact List.reverse_reverse _

/-- So it is found, whatever follows. -/
theorem names_of_closed (h : (scan chain).depth = 0) (hlater : Follows later) :
    (viaEntries (withOurEntry chain ++ later)).any entryNamesUs = true := by
  obtain ⟨lead, hlead, hd, hq, hlast⟩ := scan_withOurEntry h
  obtain ⟨gap, tail, rfl, hgap, htail⟩ := hlater
  have hplain : ∀ c ∈ gap, c ≠ '(' ∧ c ≠ ',' := by
    intro c hc
    rcases hgap c hc with rfl | rfl
    · decide
    · decide
  have hscan : scan (withOurEntry chain ++ gap) = { scan (withOurEntry chain) with
      last := gap.reverse ++ (scan (withOurEntry chain)).last } := by
    rw [Scanning.scan_append]
    exact Scanning.foldl_push_outside gap _ hd hq hplain
  have hentry : (scan (withOurEntry chain ++ gap)).last.reverse =
      lead ++ "1.1 syndeo".toList ++ gap := by
    rw [hscan, List.reverse_append, List.reverse_reverse, hlast]
  refine List.any_eq_true.mpr ⟨_, ?_, entryNamesUs_ourEntry hlead (isWhitespace_of_gap hgap)⟩
  rw [← List.append_assoc, viaEntries, ← hentry]
  rcases htail with rfl | ⟨more, rfl⟩
  · rw [List.append_nil]
    exact List.mem_reverse.mpr List.mem_cons_self
  · -- the comma ends the entry, and it stays
    have hcomma : (scan (withOurEntry chain ++ gap)).push ',' =
        { scan (withOurEntry chain ++ gap) with
          entries := (scan (withOurEntry chain ++ gap)).last.reverse ::
            (scan (withOurEntry chain ++ gap)).entries
          last := [] } := by
      rw [hscan]
      simp [Scanning.push, hd, hq]
    rw [Scanning.scan_append, List.foldl_cons, hcomma]
    exact Scanning.mem_all_of_mem_entries List.mem_cons_self

/-- **Inside a comment it is not read**: the field has the entries it would have
had without it. -/
theorem viaEntries_of_open (h : 0 < (scan chain).depth) (hlater : Follows later) :
    viaEntries (withOurEntry chain ++ later) = viaEntries (chain ++ later) := by
  have hchain : chain ≠ [] := by
    rintro rfl
    exact absurd h (by decide)
  have hours : withOurEntry chain = chain ++ ", 1.1 syndeo".toList := by
    rw [withOurEntry, if_neg hchain, List.append_assoc]
    rfl
  rw [hours, List.append_assoc, viaEntries, viaEntries, Scanning.scan_append, Scanning.scan_append]
  rcases later with _ | ⟨c, later⟩
  · rw [List.append_nil, Scanning.foldl_push_inside ", 1.1 syndeo".toList _ h (by decide)
      (by decide)]
    rfl
  · -- our entry and the next character are skipped as the character is alone
    have hc : c ≠ '(' ∧ c ≠ ')' ∧ c ≠ '\\' := by
      rcases hlater.head with rfl | rfl | rfl
      all_goals decide
    have hall : ∀ d ∈ ", 1.1 syndeo".toList ++ [c], d ≠ '(' ∧ d ≠ ')' ∧ d ≠ '\\' := by
      intro d hd
      rcases List.mem_append.mp hd with hd | hd
      · exact (show ∀ d ∈ ", 1.1 syndeo".toList, d ≠ '(' ∧ d ≠ ')' ∧ d ≠ '\\' by decide) d hd
      · obtain rfl := List.mem_singleton.mp hd
        exact hc
    have hone := Scanning.foldl_push_inside [c] _ h (List.cons_ne_nil _ _)
      (by simpa using hc)
    have hmany := Scanning.foldl_push_inside _ _ h (by simp) hall
    rw [List.append_cons, List.foldl_append, List.foldl_cons]
    exact congrArg (fun st => (later.foldl Scanning.push st).all) (hmany.trans hone.symm)

/-- **When a field with our entry in it names us**: our entry stands outside every
comment, or something else in the field names us. -/
theorem names_withOurEntry (hlater : Follows later) :
    (viaEntries (withOurEntry chain ++ later)).any entryNamesUs = true ↔
      (scan chain).depth = 0 ∨ (viaEntries (chain ++ later)).any entryNamesUs = true := by
  rcases Nat.eq_zero_or_pos (scan chain).depth with h | h
  · exact ⟨fun _ => Or.inl h, fun _ => names_of_closed h hlater⟩
  · rw [viaEntries_of_open h hlater]
    exact ⟨Or.inr, fun hor => hor.resolve_left (Nat.pos_iff_ne_zero.mp h)⟩

end Behind

/-! ### As bytes -/

/-- The characters of a field value that is text. -/
def chars (bytes : List UInt8) : List Char := bytes.map fun b => Char.ofNat b.toNat

/-- Whether it is. -/
def isText (bytes : List UInt8) : Bool := bytes.all fun b => isVisibleAscii b.toNat

/-- **One field after the other**: the values in order, with a comma and a space
between them. An empty value in front leaves nothing. -/
def joined (values : List HeaderValue) : List UInt8 :=
  (ascii ", ").intercalate ((values.map HeaderValue.bytes).dropWhile (· = []))

section Bytes

variable {values : List HeaderValue} {v : HeaderValue}

@[simp] theorem chars_append (a b : List UInt8) : chars (a ++ b) = chars a ++ chars b :=
  List.map_append

@[simp] theorem isText_append (a b : List UInt8) : isText (a ++ b) = (isText a && isText b) :=
  List.all_append

theorem toStr_eq (v : HeaderValue) :
    v.toStr = if isText v.bytes = true then some (String.ofList (chars v.bytes)) else none := rfl

theorem valueNamesUs_iff : valueNamesUs v = true ↔
    isText v.bytes = true ∧ (viaEntries (chars v.bytes)).any entryNamesUs = true := by
  rw [valueNamesUs, toStr_eq]
  by_cases h : isText v.bytes = true
  · rw [if_pos h]
    simp only [String.toList_ofList]
    exact ⟨fun hn => ⟨h, hn⟩, fun hn => hn.2⟩
  · rw [if_neg h]
    exact ⟨fun hn => (nomatch hn), fun hn => absurd hn.1 h⟩

theorem intercalate_cons {α : Type} (sep x : List α) (xs : List (List α)) :
    sep.intercalate (x :: xs) = x ++ xs.flatMap fun y => sep ++ y := by
  induction xs generalizing x with
  | nil => simp
  | cons y xs ih =>
    rw [List.intercalate_cons_cons, ih, List.flatMap_cons]
    simp

theorem foldl_chainPush {chain : List UInt8} (h : chain ≠ []) (values : List HeaderValue) :
    values.foldl chainPush chain = chain ++ values.flatMap fun v => ascii ", " ++ v.bytes := by
  induction values generalizing chain with
  | nil => simp
  | cons v values ih =>
    have hpush : chainPush chain v = chain ++ (ascii ", " ++ v.bytes) := by
      rw [chainPush, if_neg h, List.append_assoc]
    rw [List.foldl_cons, hpush, ih (by simp [h]), List.flatMap_cons, List.append_assoc]

/-- The chain is the values, one after the other. -/
theorem chain_eq_joined (values : List HeaderValue) :
    values.foldl chainPush [] = joined values := by
  induction values with
  | nil => rfl
  | cons v values ih =>
    rw [List.foldl_cons, show chainPush [] v = v.bytes from rfl]
    by_cases hv : v.bytes = []
    · rw [hv, ih, joined, joined, List.map_cons, List.dropWhile_cons, if_pos (by simpa)]
    · rw [foldl_chainPush hv, joined, List.map_cons, List.dropWhile_cons, if_neg (by simpa),
        intercalate_cons, List.flatMap_map]

theorem ourVia_eq (values : List HeaderValue) :
    ourVia values = (if joined values = [] then [] else joined values ++ ascii ", ") ++
      ascii "1.1 syndeo" := by
  rw [ourVia, chain_eq_joined, List.append_assoc]
  congr 1
  split
  · assumption
  · rfl

theorem chars_ourVia (values : List HeaderValue) :
    chars (ourVia values) = withOurEntry (chars (joined values)) := by
  have hours : chars (ascii "1.1 syndeo") = "1.1 syndeo".toList := by decide
  have hcomma : chars (ascii ", ") = ", ".toList := by decide
  rw [ourVia_eq, withOurEntry, chars_append, hours]
  by_cases h : joined values = []
  · rw [if_pos h, if_pos (by rw [h]; rfl), h]
  · rw [if_neg h, if_neg (by simpa [chars] using h), ← hcomma, chars_append]

theorem isText_ourVia (values : List HeaderValue) (later : List UInt8) :
    isText (ourVia values ++ later) = true ↔ isText (joined values) = true ∧ isText later = true := by
  have hours : isText (ascii "1.1 syndeo") = true := by decide
  have hcomma : isText (ascii ", ") = true := by decide
  rw [ourVia_eq, isText_append, isText_append, hours, Bool.and_true, Bool.and_eq_true]
  by_cases h : joined values = []
  · rw [if_pos h, h]
  · rw [if_neg h, isText_append, hcomma, Bool.and_true]

/-- What is sent is a field value. -/
theorem ourVia_ok (values : List HeaderValue) : (ourVia values).all isFieldByte = true := by
  have hours : (ascii "1.1 syndeo").all isFieldByte = true := by decide
  have hcomma : (ascii ", ").all isFieldByte = true := by decide
  have hchain : ∀ (vs : List HeaderValue) (chain : List UInt8), chain.all isFieldByte = true →
      (vs.foldl chainPush chain).all isFieldByte = true := by
    intro vs
    induction vs with
    | nil => exact fun chain h => h
    | cons v vs ih =>
      refine fun chain h => ih _ ?_
      rw [chainPush]
      split
      · rw [List.all_append, h, v.ok]
        rfl
      · rw [List.all_append, List.all_append, h, hcomma, v.ok]
        rfl
  have hjoined := chain_eq_joined values ▸ hchain values [] rfl
  rw [ourVia_eq, List.all_append, hours, Bool.and_true]
  split
  · rfl
  · rw [List.all_append, hjoined, hcomma]
    rfl

/-- The field that is sent. -/
def sentVia (values : List HeaderValue) : HeaderValue := ⟨ourVia values, ourVia_ok values⟩

theorem getAll_appendOurVia (headers : HeaderMap) :
    (appendOurVia headers).getAll header.via = [sentVia (headers.getAll header.via)] := by
  rw [appendOurVia, HeaderMap.getAll_insert_self, fromBytes,
    dif_pos (ourVia_ok (headers.getAll header.via))]
  rfl

/-- **The scanner can get to our entry**: the earlier values are text, so is what
follows, and either every comment they open is closed or the field names us without
our entry. -/
def Readable (earlier : List HeaderValue) (later : List UInt8) : Prop :=
  isText (joined earlier) = true ∧ isText later = true ∧
    ((scan (chars (joined earlier))).depth = 0 ∨
      (viaEntries (chars (joined earlier ++ later))).any entryNamesUs = true)

/-- **When what was sent is found again.** -/
theorem valueNamesUs_behind {earlier : List HeaderValue} {later : List UInt8}
    (hlater : Follows (chars later)) (hv : v.bytes = ourVia earlier ++ later) :
    valueNamesUs v = true ↔ Readable earlier later := by
  rw [valueNamesUs_iff, hv, isText_ourVia, chars_append, chars_ourVia, names_withOurEntry hlater,
    Readable, chars_append, and_assoc]

end Bytes

/-! ### What is sent on -/

/-- The `Via` values that are sent on: all of them, unless the connection claims
the field for itself. -/
theorem getAll_forwardable (h : HeaderMap) :
    (forwardable h).getAll header.via =
      if (connectionTokens h).contains "via" then [] else h.getAll header.via := by
  have hkept := HeaderMap.getAll_filter (h := h) (n := header.via) fun n =>
    !(decide (n = header.host) || isHopByHop n.text (connectionTokens h))
  have hhop : isHopByHop header.via.text (connectionTokens h) =
      (connectionTokens h).contains "via" := by
    rw [isHopByHop, show toAsciiLowercase header.via.text = "via" by decide,
      show hopByHop.contains "via" = false by decide, Bool.false_or]
  rw [forwardable, hkept, hhop, show decide (header.via = header.host) = false by decide,
    Bool.false_or]
  cases (connectionTokens h).contains "via" with
  | true => rfl
  | false => rfl

end Syndeo.Proxy
