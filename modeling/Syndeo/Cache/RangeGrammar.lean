import Syndeo.Cache.Range
import Syndeo.Data.Separated
import Syndeo.Data.Wrap

/-!
# The grammar of ranges

What is read as a `Range` and as a `Content-Range`, told as grammars: a number is
digits that fit, a range is two numbers about a hyphen. The grammars of the RFC
leave white space around the elements of a list and nowhere else
(`Syndeo.IsRange`, `Syndeo.IsContentRange`).

The readers trim what they have split. So they also take white space about the
unit and about every number, and elements that are empty (`Syndeo.ReadAsRange`,
`Syndeo.ReadAsContentRange`), and `Syndeo.reads_ranges_iff` says that this is all
they take, as long as no number is written with a sign.
-/

namespace Syndeo

open Text
open Separated (isInfix_intercalate mem_intercalate intercalate_append)

/-! ### The grammars -/

/-- A number in decimal digits, that fits. -/
structure Numeral (cs : List Char) (n : ℕ) : Prop where
  ne : cs ≠ []
  digits : ∀ c ∈ cs, c.isDigit = true
  value : Nat.ofDigitChars 10 cs 0 = n
  fits : n < 2 ^ 64

/-- Some text, with a gap on either side. -/
def Spaced (gap S : List Char → Prop) (cs : List Char) : Prop :=
  ∃ a core b, gap a ∧ S core ∧ gap b ∧ cs = a ++ (core ++ b)

/-- No gap at all. -/
def NoGap (cs : List Char) : Prop := cs = []

/-- One range of a set, with such gaps about its numbers. -/
inductive RangeElement (gap : List Char → Prop) : List Char → RangeSpec → Prop
  | fromTo {a b : List Char} {first last : ℕ} (hfirst : Spaced gap (Numeral · first) a)
      (hlast : Spaced gap (Numeral · last) b) (hle : first ≤ last) :
      RangeElement gap (a ++ '-' :: b) (.fromTo first last)
  | from {a b : List Char} {first : ℕ} (hfirst : Spaced gap (Numeral · first) a) (hb : gap b) :
      RangeElement gap (a ++ '-' :: b) (.from first)
  | suffix {a b : List Char} {length : ℕ} (ha : gap a) (hlength : Spaced gap (Numeral · length) b)
      (hpos : 0 < length) : RangeElement gap (a ++ '-' :: b) (.suffix length)

/-- **A range set** of the RFC: white space about its elements, and nowhere else. -/
def IsRange (value : String) (specs : List RangeSpec) : Prop :=
  specs ≠ [] ∧ ∃ parts : List (List Char),
    List.Forall₂ (fun part spec => Spaced Blank (RangeElement NoGap · spec) part) parts specs ∧
      value.toList = "bytes=".toList ++ [','].intercalate parts

/-- **A content range** of the RFC. -/
def IsContentRange (value : String) (r : ContentRange) : Prop :=
  ∃ a b c : List Char, Numeral a r.first ∧ Numeral b r.last ∧ r.first ≤ r.last ∧
    (c = ['*'] ∧ r.completeLen = none ∨
      ∃ total, Numeral c total ∧ r.completeLen = some total ∧ r.last < total) ∧
      value.toList = "bytes ".toList ++ (a ++ '-' :: (b ++ '/' :: c))

/-- The ranges that some parts are; a part that is blank is none. -/
inductive RangeElements : List (List Char) → List RangeSpec → Prop
  | nil : RangeElements [] []
  | blank {part : List Char} {parts : List (List Char)} {specs : List RangeSpec} (hpart : Blank part)
      (h : RangeElements parts specs) : RangeElements (part :: parts) specs
  | cons {part : List Char} {parts : List (List Char)} {spec : RangeSpec} {specs : List RangeSpec}
      (hpart : RangeElement Blank part spec) (h : RangeElements parts specs) :
      RangeElements (part :: parts) (spec :: specs)

/-- What is read as a range set: white space about everything, and empty elements. -/
def ReadAsRange (value : String) (specs : List RangeSpec) : Prop :=
  specs ≠ [] ∧ ∃ (a b : List Char) (parts : List (List Char)), Blank a ∧ Blank b ∧
    RangeElements parts specs ∧
      value.toList = a ++ ("bytes".toList ++ (b ++ '=' :: [','].intercalate parts))

/-- What is read as a content range: white space about everything. -/
def ReadAsContentRange (value : String) (r : ContentRange) : Prop :=
  ∃ a x y c : List Char, Blank a ∧ Spaced Blank (Numeral · r.first) x ∧
    Spaced Blank (Numeral · r.last) y ∧ r.first ≤ r.last ∧
      (Spaced Blank (· = ['*']) c ∧ r.completeLen = none ∨
        ∃ total, Spaced Blank (Numeral · total) c ∧ r.completeLen = some total ∧ r.last < total) ∧
        value.toList = a ++ ("bytes".toList ++ (x ++ '-' :: (y ++ '/' :: c)))

/-- No number is written with a sign. -/
def Unsigned (cs : List Char) : Prop := ∀ d, d.isDigit = true → ¬['+', d] <:+: cs

/-! ### Numbers -/

section Numbers

variable {cs a b part : List Char} {n : ℕ} {spec : RangeSpec} {gap S : List Char → Prop}

theorem Unsigned.mono (h : Unsigned cs) (hsub : part <:+: cs) : Unsigned part :=
  fun d hd hin => h d hd (hin.trans hsub)

theorem Numeral.not_mem {c : Char} (h : Numeral cs n) (hc : c.isDigit = false) : c ∉ cs :=
  fun hmem => absurd (h.digits c hmem) (by simp [hc])

theorem Numeral.trimChars (h : Numeral cs n) : trimChars cs = cs :=
  trimChars_eq_self (fun c hc => isWhitespace_of_isDigit (h.digits c (List.mem_of_mem_head? hc)))
    fun c hc => isWhitespace_of_isDigit (h.digits c (List.mem_of_getLast? hc))

/-- **A number is what its grammar says**, where it has no sign. -/
theorem parseU64_eq_some_iff (hsign : Unsigned cs) : parseU64 cs = some n ↔ Numeral cs n := by
  constructor
  · intro h
    rcases cs with _ | ⟨c, cs⟩
    · exact nomatch h
    · by_cases hplus : c = '+'
      · subst hplus
        rw [parseU64_plus] at h
        split_ifs at h with hnil
        obtain ⟨hvalue, -⟩ := Option.filter_eq_some_iff.mp h
        rcases cs with _ | ⟨d, cs⟩
        · exact absurd rfl hnil
        · exact absurd (⟨[], cs, rfl⟩ : ['+', d] <:+: '+' :: d :: cs)
            (hsign d (isDigit_of_digitsValue hvalue d List.mem_cons_self))
      · rw [parseU64_cons hplus] at h
        obtain ⟨hvalue, hfits⟩ := Option.filter_eq_some_iff.mp h
        have hdigits := isDigit_of_digitsValue hvalue
        rw [digitsValue_eq hdigits] at hvalue
        exact ⟨List.cons_ne_nil _ _, hdigits, Option.some.inj hvalue, of_decide_eq_true hfits⟩
  · intro h
    have hfits : decide (n < u64Bound) = true := decide_eq_true h.fits
    rw [parseU64_of_digits h.ne h.digits, h.value, Option.filter_some, if_pos hfits]

theorem Spaced.mem {c : Char} (h : Spaced gap S cs) (hc : c ∈ cs) :
    (∃ l, gap l ∧ c ∈ l) ∨ ∃ l, S l ∧ c ∈ l := by
  obtain ⟨a, core, b, ha, hcore, hb, rfl⟩ := h
  rcases List.mem_append.mp hc with hc | hc
  · exact Or.inl ⟨a, ha, hc⟩
  · rcases List.mem_append.mp hc with hc | hc
    · exact Or.inr ⟨core, hcore, hc⟩
    · exact Or.inl ⟨b, hb, hc⟩

/-- White space about a text is part of its gaps. -/
theorem Spaced.append (h : Spaced Blank S cs) (ha : Blank a) (hb : Blank b) :
    Spaced Blank S (a ++ (cs ++ b)) := by
  obtain ⟨x, core, y, hx, hcore, hy, rfl⟩ := h
  exact ⟨a ++ x, core, y ++ b, ha.append hx, hcore, hy.append hb, by simp⟩

/-- **What is trimmed and then read**, where nothing read has white space at an end. -/
theorem spaced_iff_trimChars (hS : ∀ core, S core → trimChars core = core) :
    Spaced Blank S cs ↔ S (trimChars cs) := by
  constructor
  · rintro ⟨a, core, b, ha, hcore, hb, rfl⟩
    rw [trimChars_append ha hb, hS core hcore]
    exact hcore
  · intro h
    obtain ⟨a, b, ha, hb, hcs⟩ := exists_trimChars cs
    exact ⟨a, trimChars cs, b, ha, h, hb, hcs⟩

theorem trimChars_isInfix (cs : List Char) : trimChars cs <:+: cs := by
  obtain ⟨a, b, -, -, hcs⟩ := exists_trimChars cs
  exact ⟨a, b, by rw [List.append_assoc]; exact hcs.symm⟩

/-- **A number that is trimmed first.** -/
theorem parseU64_trimChars_iff (hsign : Unsigned cs) :
    parseU64 (trimChars cs) = some n ↔ Spaced Blank (Numeral · n) cs := by
  rw [parseU64_eq_some_iff (hsign.mono (trimChars_isInfix cs)),
    spaced_iff_trimChars fun _ h => h.trimChars]

theorem Spaced.not_blank (h : Spaced Blank (Numeral · n) cs) : ¬Blank cs := by
  rw [← trimChars_eq_nil_iff]
  exact ((spaced_iff_trimChars fun _ h => h.trimChars).mp h).ne

theorem Spaced.not_mem {c : Char} (h : Spaced Blank (Numeral · n) cs)
    (hspace : isWhitespace c = false) (hdigit : c.isDigit = false) : c ∉ cs := by
  intro hc
  rcases h.mem hc with ⟨l, hl, hmem⟩ | ⟨l, hl, hmem⟩
  · exact hl.not_mem hspace hmem
  · exact hl.not_mem hdigit hmem

end Numbers

/-! ### One element -/

section Elements

variable {part : List Char} {spec : RangeSpec}

/-- What an element does not hold. -/
theorem RangeElement.not_mem {c : Char} (h : RangeElement Blank part spec)
    (hspace : isWhitespace c = false) (hdigit : c.isDigit = false) (hne : c ≠ '-') : c ∉ part := by
  have hparts : ∀ {a b : List Char}, c ∉ a → c ∉ b → c ∉ a ++ '-' :: b := by
    intro a b ha hb hmem
    rcases List.mem_append.mp hmem with hmem | hmem
    · exact ha hmem
    · exact (List.mem_cons.mp hmem).elim hne hb
  cases h with
  | fromTo hfirst hlast _ => exact hparts (hfirst.not_mem hspace hdigit) (hlast.not_mem hspace hdigit)
  | «from» hfirst hb => exact hparts (hfirst.not_mem hspace hdigit) (hb.not_mem hspace)
  | suffix ha hlength _ => exact hparts (ha.not_mem hspace) (hlength.not_mem hspace hdigit)

theorem RangeElement.not_blank (h : RangeElement Blank part spec) : ¬Blank part := by
  intro hblank
  have hmem : '-' ∈ part := by
    cases h with
    | fromTo => exact List.mem_append_right _ List.mem_cons_self
    | «from» => exact List.mem_append_right _ List.mem_cons_self
    | suffix => exact List.mem_append_right _ List.mem_cons_self
  exact hblank.not_mem (by decide) hmem

/-- White space about an element is part of its gaps. -/
theorem RangeElement.append {a b : List Char} (h : RangeElement Blank part spec) (ha : Blank a)
    (hb : Blank b) : RangeElement Blank (a ++ (part ++ b)) spec := by
  have hshift : ∀ {x y : List Char}, a ++ (x ++ '-' :: y ++ b) = (a ++ x) ++ '-' :: (y ++ b) := by
    intro x y
    simp
  have hstart : ∀ {S : List Char → Prop} {x : List Char}, Spaced Blank S x →
      Spaced Blank S (a ++ x) := by
    intro S x hx
    simpa using hx.append ha blank_nil
  have hend : ∀ {S : List Char → Prop} {y : List Char}, Spaced Blank S y →
      Spaced Blank S (y ++ b) := by
    intro S y hy
    simpa using hy.append blank_nil hb
  cases h with
  | fromTo hfirst hlast hle =>
    rw [hshift]
    exact .fromTo (hstart hfirst) (hend hlast) hle
  | «from» hfirst hy =>
    rw [hshift]
    exact .from (hstart hfirst) (hy.append hb)
  | suffix hx hlength hpos =>
    rw [hshift]
    exact .suffix (ha.append hx) (hend hlength) hpos

/-- An element is read by its parts. -/
theorem parseSpec_of_splitOnce {a b : List Char} (h : splitOnce '-' part = some (a, b)) :
    parseSpec part = match trimChars a, trimChars b with
      | [], _ :: _ => (parseU64 (trimChars b)).bind fun length =>
        if length = 0 then none else some (.suffix length)
      | _ :: _, [] => (parseU64 (trimChars a)).map .from
      | _ :: _, _ :: _ => (parseU64 (trimChars a)).bind fun first =>
        (parseU64 (trimChars b)).bind fun last =>
          if last < first then none else some (.fromTo first last)
      | [], [] => none := by
  rw [parseSpec, h]
  rfl

/-- **An element is what its grammar says.** -/
theorem parseSpec_eq_some_iff (hsign : Unsigned part) :
    parseSpec part = some spec ↔ RangeElement Blank part spec := by
  rcases hsplit : splitOnce '-' part with _ | ⟨a, b⟩
  · have hnone : parseSpec part = none := by
      rw [parseSpec, hsplit]
      rfl
    rw [hnone]
    refine iff_of_false (by simp) fun h => ?_
    refine not_mem_of_splitOnce_eq_none hsplit ?_
    cases h with
    | fromTo => exact List.mem_append_right _ List.mem_cons_self
    | «from» => exact List.mem_append_right _ List.mem_cons_self
    | suffix => exact List.mem_append_right _ List.mem_cons_self
  · have hpart := eq_append_of_splitOnce hsplit
    have ha : Unsigned a := hsign.mono ⟨[], '-' :: b, by simp [hpart]⟩
    have hb : Unsigned b := hsign.mono ⟨a ++ ['-'], [], by simp [hpart]⟩
    -- the parts of an element are the parts about its first hyphen
    have hcut : RangeElement Blank part spec ↔
        (∃ first last, Spaced Blank (Numeral · first) a ∧ Spaced Blank (Numeral · last) b ∧
          first ≤ last ∧ spec = .fromTo first last) ∨
        (∃ first, Spaced Blank (Numeral · first) a ∧ Blank b ∧ spec = .from first) ∨
        ∃ length, Blank a ∧ Spaced Blank (Numeral · length) b ∧ 0 < length ∧
          spec = .suffix length := by
      have hsame : ∀ {x y : List Char}, '-' ∉ x → part = x ++ '-' :: y → x = a ∧ y = b := by
        intro x y hx heq
        have hxy := splitOnce_append hx y
        rw [← heq, hsplit] at hxy
        obtain ⟨rfl, rfl⟩ := Prod.mk.inj (Option.some.inj hxy)
        exact ⟨rfl, rfl⟩
      constructor
      · intro h
        generalize hgen : part = p at h
        cases h with
        | fromTo hfirst hlast hle =>
          obtain ⟨rfl, rfl⟩ := hsame (hfirst.not_mem (by decide) (by decide)) hgen
          exact Or.inl ⟨_, _, hfirst, hlast, hle, rfl⟩
        | «from» hfirst hy =>
          obtain ⟨rfl, rfl⟩ := hsame (hfirst.not_mem (by decide) (by decide)) hgen
          exact Or.inr (Or.inl ⟨_, hfirst, hy, rfl⟩)
        | suffix hx hlength hpos =>
          obtain ⟨rfl, rfl⟩ := hsame (hx.not_mem (by decide)) hgen
          exact Or.inr (Or.inr ⟨_, hx, hlength, hpos, rfl⟩)
      · rw [hpart]
        rintro (⟨_, _, hfirst, hlast, hle, rfl⟩ | ⟨_, hfirst, hy, rfl⟩ | ⟨_, hx, hlength, hpos, rfl⟩)
        · exact .fromTo hfirst hlast hle
        · exact .from hfirst hy
        · exact .suffix hx hlength hpos
    rw [parseSpec_of_splitOnce hsplit, hcut]
    have hblank : ∀ {l : List Char} {n : ℕ}, trimChars l = [] → ¬Spaced Blank (Numeral · n) l :=
      fun hnil h => h.not_blank (trimChars_eq_nil_iff.mp hnil)
    have hfull : ∀ {l : List Char} {c : Char} {cs : List Char}, trimChars l = c :: cs → ¬Blank l :=
      fun hcons h => List.cons_ne_nil _ _ (hcons.symm.trans (trimChars_eq_nil_iff.mpr h))
    rcases hta : trimChars a with _ | ⟨c, cs⟩
    · rcases htb : trimChars b with _ | ⟨d, ds⟩
      · refine iff_of_false (by simp) ?_
        rintro (⟨_, _, hfirst, -⟩ | ⟨_, hfirst, -⟩ | ⟨_, -, hlength, -⟩)
        · exact hblank hta hfirst
        · exact hblank hta hfirst
        · exact hblank htb hlength
      · dsimp only
        rw [← htb, Option.bind_eq_some_iff]
        constructor
        · rintro ⟨length, hlength, hspec⟩
          rw [parseU64_trimChars_iff hb] at hlength
          split_ifs at hspec with hzero
          exact Or.inr (Or.inr ⟨length, trimChars_eq_nil_iff.mp hta, hlength,
            Nat.pos_of_ne_zero hzero, (Option.some.inj hspec).symm⟩)
        · rintro (⟨_, _, hfirst, -⟩ | ⟨_, hfirst, -⟩ | ⟨length, -, hlength, hpos, rfl⟩)
          · exact absurd hfirst (hblank hta)
          · exact absurd hfirst (hblank hta)
          · exact ⟨length, (parseU64_trimChars_iff hb).mpr hlength, if_neg hpos.ne'⟩
    · rcases htb : trimChars b with _ | ⟨d, ds⟩
      · dsimp only
        rw [← hta, Option.map_eq_some_iff]
        constructor
        · rintro ⟨first, hfirst, rfl⟩
          exact Or.inr (Or.inl ⟨first, (parseU64_trimChars_iff ha).mp hfirst,
            trimChars_eq_nil_iff.mp htb, rfl⟩)
        · rintro (⟨_, _, -, hlast, -⟩ | ⟨first, hfirst, -, rfl⟩ | ⟨_, hx, -⟩)
          · exact absurd hlast (hblank htb)
          · exact ⟨first, (parseU64_trimChars_iff ha).mpr hfirst, rfl⟩
          · exact absurd hx (hfull hta)
      · dsimp only
        rw [← hta, ← htb, Option.bind_eq_some_iff]
        constructor
        · rintro ⟨first, hfirst, h⟩
          obtain ⟨last, hlast, hspec⟩ := Option.bind_eq_some_iff.mp h
          split_ifs at hspec with hlt
          exact Or.inl ⟨first, last, (parseU64_trimChars_iff ha).mp hfirst,
            (parseU64_trimChars_iff hb).mp hlast, not_lt.mp hlt, (Option.some.inj hspec).symm⟩
        · rintro (⟨first, last, hfirst, hlast, hle, rfl⟩ | ⟨_, -, hy, -⟩ | ⟨_, hx, -⟩)
          · refine ⟨first, (parseU64_trimChars_iff ha).mpr hfirst, ?_⟩
            rw [(parseU64_trimChars_iff hb).mpr hlast, Option.bind_some, if_neg (not_lt.mpr hle)]
          · exact absurd hy (hfull htb)
          · exact absurd hx (hfull hta)

/-- White space about an element is no matter. -/
theorem rangeElement_trimChars : RangeElement Blank (trimChars part) spec ↔
    RangeElement Blank part spec := by
  constructor
  · intro h
    obtain ⟨a, b, ha, hb, hpart⟩ := exists_trimChars part
    rw [hpart]
    exact h.append ha hb
  · intro h
    have hstart : ∀ {a : List Char} {n : ℕ}, Spaced Blank (Numeral · n) a →
        Spaced Blank (Numeral · n) (trimStartChars a) := by
      intro a n ha
      rw [spaced_iff_trimChars fun _ h => h.trimChars] at ha ⊢
      rwa [trimChars_trimStartChars]
    have hend : ∀ {b : List Char} {n : ℕ}, Spaced Blank (Numeral · n) b →
        Spaced Blank (Numeral · n) (trimEndChars b) := by
      intro b n hb
      rw [spaced_iff_trimChars fun _ h => h.trimChars] at hb ⊢
      rwa [trimChars_trimEndChars]
    cases h with
    | fromTo hfirst hlast hle =>
      rw [trimChars_append_cons (by decide)]
      exact .fromTo (hstart hfirst) (hend hlast) hle
    | «from» hfirst hb =>
      rw [trimChars_append_cons (by decide)]
      refine .from (hstart hfirst) ?_
      rw [← trimChars_eq_nil_iff, trimChars_trimEndChars, trimChars_eq_nil_iff]
      exact hb
    | suffix ha hlength hpos =>
      rw [trimChars_append_cons (by decide)]
      refine .suffix ?_ (hend hlength) hpos
      rw [← trimChars_eq_nil_iff, trimChars_trimStartChars, trimChars_eq_nil_iff]
      exact ha

end Elements

/-! ### A range set -/

section Sets

variable {parts : List (List Char)} {specs : List RangeSpec}

/-- What the elements that are not blank are read as. -/
theorem mapM_parseSpec_eq_some_iff (hsign : ∀ part ∈ parts, Unsigned part) :
    (((parts.map trimChars).filter (· ≠ [])).mapM parseSpec = some specs) ↔
      RangeElements parts specs := by
  induction parts generalizing specs with
  | nil =>
    constructor
    · intro h
      obtain rfl : [] = specs := Option.some.inj h
      exact .nil
    · intro h
      cases h
      rfl
  | cons part parts ih =>
    have hpart := hsign part List.mem_cons_self
    have hparts := fun specs => @ih specs fun p hp => hsign p (List.mem_cons_of_mem _ hp)
    rw [List.map_cons]
    by_cases hblank : Blank part
    · rw [List.filter_cons_of_neg (by simp [trimChars_blank hblank])]
      constructor
      · exact fun h => .blank hblank ((hparts _).mp h)
      · intro h
        cases h with
        | blank _ h => exact (hparts _).mpr h
        | cons hspec _ => exact absurd hblank hspec.not_blank
    · have hne : trimChars part ≠ [] := fun hnil => hblank (trimChars_eq_nil_iff.mp hnil)
      have hread : ∀ spec, parseSpec (trimChars part) = some spec ↔
          RangeElement Blank part spec := fun spec =>
        (parseSpec_eq_some_iff (hpart.mono (trimChars_isInfix part))).trans rangeElement_trimChars
      rw [List.filter_cons_of_pos (by simpa using hne), List.mapM_cons]
      simp only [Option.bind_eq_bind, Option.bind_eq_some_iff, Option.pure_def, Option.some.injEq]
      constructor
      · rintro ⟨spec, hspec, rest, hrest, rfl⟩
        exact .cons ((hread spec).mp hspec) ((hparts _).mp hrest)
      · intro h
        cases h with
        | blank h _ => exact absurd h hblank
        | cons hspec h => exact ⟨_, (hread _).mpr hspec, _, (hparts _).mpr h, rfl⟩

/-- No element holds a comma. -/
theorem RangeElements.not_mem (h : RangeElements parts specs) : ∀ part ∈ parts, ',' ∉ part := by
  induction h with
  | nil => exact fun _ hmem => nomatch hmem
  | blank hpart _ ih =>
    intro part hmem
    rcases List.mem_cons.mp hmem with rfl | hmem
    · exact hpart.not_mem (by decide)
    · exact ih part hmem
  | cons hpart _ ih =>
    intro part hmem
    rcases List.mem_cons.mp hmem with rfl | hmem
    · exact hpart.not_mem (by decide) (by decide) (by decide)
    · exact ih part hmem

theorem RangeElements.ne_nil (h : RangeElements parts specs) (hspecs : specs ≠ []) : parts ≠ [] := by
  rintro rfl
  cases h
  exact hspecs rfl

/-- **The elements of a text.** -/
theorem split_eq_some_iff {rest : List Char} (hsign : Unsigned rest) (hspecs : specs ≠ []) :
    ((((rest.splitOn ',').map trimChars).filter (· ≠ [])).mapM parseSpec = some specs) ↔
      ∃ parts, RangeElements parts specs ∧ rest = [','].intercalate parts := by
  have hrest : [','].intercalate (rest.splitOn ',') = rest := List.intercalate_splitOn ','
  have hparts : ∀ part ∈ rest.splitOn ',', Unsigned part := fun part hpart =>
    hsign.mono (hrest ▸ isInfix_intercalate hpart)
  rw [mapM_parseSpec_eq_some_iff hparts]
  constructor
  · exact fun h => ⟨_, h, hrest.symm⟩
  · rintro ⟨parts, h, rfl⟩
    rwa [List.splitOn_intercalate _ h.not_mem (h.ne_nil hspecs)]

/-- White space at the end of a list is part of its last element. -/
theorem map_trimChars_splitOn_append {rest b : List Char} (hb : Blank b) :
    ((rest ++ b).splitOn ',').map trimChars = (rest.splitOn ',').map trimChars := by
  have hne : rest.splitOn ',' ≠ [] := List.splitOn_ne_nil _ _
  obtain ⟨init, last, hsplit⟩ : ∃ init last, rest.splitOn ',' = init ++ [last] :=
    ⟨_, _, (List.dropLast_append_getLast hne).symm⟩
  have hrest : rest = [','].intercalate (init ++ [last]) := by
    rw [← hsplit]
    exact (List.intercalate_splitOn ',').symm
  have hmem : ∀ part ∈ init ++ [last], ',' ∉ part := by
    rw [← hsplit]
    exact Wrap.not_mem_of_mem_splitOn
  have hmem' : ∀ part ∈ init ++ [last ++ b], ',' ∉ part := by
    intro part hpart
    rcases List.mem_append.mp hpart with hpart | hpart
    · exact hmem part (List.mem_append_left _ hpart)
    · obtain rfl := List.mem_singleton.mp hpart
      intro hcomma
      rcases List.mem_append.mp hcomma with hcomma | hcomma
      · exact hmem last (List.mem_append_right _ (List.mem_singleton_self _)) hcomma
      · exact hb.not_mem (by decide) hcomma
  have htrim : trimChars (last ++ b) = trimChars last := trimChars_append blank_nil hb last
  rw [hsplit, hrest, ← intercalate_append, List.splitOn_intercalate _ hmem' (by simp),
    List.map_append, List.map_append, List.map_singleton, List.map_singleton, htrim]

end Sets

/-! ### The readers -/

section Readers

variable {value : String} {specs : List RangeSpec} {r : ContentRange}

/-- **A `Range` is what its grammar says.** -/
theorem parseRange_eq_some_iff (hsign : Unsigned value.toList) :
    parseRange value = some specs ↔ ReadAsRange value specs := by
  have hread : parseRange value = some specs ↔ specs ≠ [] ∧ ∃ rest rest',
      stripStart "bytes".toList (trimChars value.toList) = some rest ∧
        stripStart ['='] (trimStartChars rest) = some rest' ∧
          ((((rest'.splitOn ',').map trimChars).filter (· ≠ [])).mapM parseSpec = some specs) := by
    simp only [parseRange, Option.bind_eq_bind, Option.bind_eq_some_iff]
    constructor
    · rintro ⟨rest, hrest, rest', hrest', specs', hspecs, h⟩
      split_ifs at h with hnil
      obtain rfl := Option.some.inj h
      exact ⟨hnil, rest, rest', hrest, hrest', hspecs⟩
    · rintro ⟨hnil, rest, rest', hrest, hrest', hspecs⟩
      exact ⟨rest, hrest, rest', hrest', specs, hspecs, if_neg hnil⟩
  rw [hread, ReadAsRange]
  refine and_congr_right fun hspecs => ?_
  constructor
  · rintro ⟨rest, rest', hrest, hrest', helements⟩
    obtain ⟨x, y, hx, hy, hvalue⟩ := exists_trimChars value.toList
    obtain ⟨b, hb, hspace⟩ := exists_trimStartChars rest
    rw [eq_append_of_stripStart hrest'] at hspace
    have htext : value.toList = x ++ ("bytes".toList ++ (b ++ '=' :: (rest' ++ y))) := by
      rw [hvalue, eq_append_of_stripStart hrest, hspace]
      simp
    have hsigned : Unsigned (rest' ++ y) :=
      hsign.mono ⟨x ++ ("bytes".toList ++ (b ++ ['='])), [], by simp [htext]⟩
    rw [← map_trimChars_splitOn_append hy, split_eq_some_iff hsigned hspecs] at helements
    obtain ⟨parts, hparts, hlist⟩ := helements
    exact ⟨x, b, parts, hx, hb, hparts, by rw [htext, hlist]⟩
  · rintro ⟨a, b, parts, ha, hb, hparts, hvalue⟩
    obtain ⟨y, hy, hend⟩ := exists_trimEndChars ([','].intercalate parts)
    have htrim : trimChars value.toList =
        "bytes".toList ++ (b ++ '=' :: trimEndChars ([','].intercalate parts)) := by
      have hcut := trimChars_append_cons (c := '=') (by decide) (a ++ ("bytes".toList ++ b))
        ([','].intercalate parts)
      have hstart : trimStartChars (a ++ ("bytes".toList ++ b)) = "bytes".toList ++ b := by
        rw [trimStartChars_append ha]
        exact trimStartChars_cons (by decide) _
      rw [hstart] at hcut
      rw [hvalue]
      simpa using hcut
    have hspace : trimStartChars (b ++ '=' :: trimEndChars ([','].intercalate parts)) =
        '=' :: trimEndChars ([','].intercalate parts) := by
      rw [trimStartChars_append hb, trimStartChars_cons (by decide)]
    refine ⟨b ++ '=' :: trimEndChars ([','].intercalate parts),
      trimEndChars ([','].intercalate parts), ?_, ?_, ?_⟩
    · rw [htrim]
      exact stripStart_append _ _
    · rw [hspace]
      exact stripStart_append ['='] _
    · have hsigned : Unsigned ([','].intercalate parts) :=
        hsign.mono ⟨a ++ ("bytes".toList ++ (b ++ ['='])), [], by simp [hvalue]⟩
      rw [← map_trimChars_splitOn_append hy, ← hend, split_eq_some_iff hsigned hspecs]
      exact ⟨parts, hparts, rfl⟩

/-- How the complete length of a content range is read. -/
def readComplete (complete : List Char) (last : ℕ) : Option (Option ℕ) :=
  if trimChars complete = ['*'] then some none
  else (parseU64 (trimChars complete)).bind fun total => if total ≤ last then none else some total

theorem readComplete_eq_some_iff {complete : List Char} {last : ℕ} {completeLen : Option ℕ}
    (hsign : Unsigned complete) : readComplete complete last = some completeLen ↔
      Spaced Blank (· = ['*']) complete ∧ completeLen = none ∨
        ∃ total, Spaced Blank (Numeral · total) complete ∧ completeLen = some total ∧
          last < total := by
  have hstar : Spaced Blank (· = ['*']) complete ↔ trimChars complete = ['*'] :=
    spaced_iff_trimChars fun core hcore => by rw [hcore]; decide
  rw [readComplete, hstar]
  by_cases hany : trimChars complete = ['*']
  · rw [if_pos hany, Option.some.injEq]
    constructor
    · rintro rfl
      exact Or.inl ⟨hany, rfl⟩
    · rintro (⟨-, rfl⟩ | ⟨total, htotal, -⟩)
      · rfl
      · rw [← parseU64_trimChars_iff hsign, hany] at htotal
        exact nomatch htotal
  · rw [if_neg hany, Option.bind_eq_some_iff]
    constructor
    · rintro ⟨total, htotal, h⟩
      split_ifs at h with hle
      exact Or.inr ⟨total, (parseU64_trimChars_iff hsign).mp htotal, (Option.some.inj h).symm,
        not_le.mp hle⟩
    · rintro (⟨hstar, -⟩ | ⟨total, htotal, rfl, hlt⟩)
      · exact absurd hstar hany
      · exact ⟨total, (parseU64_trimChars_iff hsign).mpr htotal, if_neg (not_le.mpr hlt)⟩

/-- `parseContentRange`, one step after another. -/
theorem parseContentRange_eq (value : String) : parseContentRange value =
    (stripStart "bytes".toList (trimChars value.toList)).bind fun rest =>
      (splitOnce '/' (trimStartChars rest)).bind fun parts =>
        if trimChars parts.1 = ['*'] then none
        else (splitOnce '-' (trimChars parts.1)).bind fun ends =>
          (parseU64 (trimChars ends.1)).bind fun first =>
            (parseU64 (trimChars ends.2)).bind fun last =>
              if last < first then none
              else (readComplete parts.2 last).map fun completeLen => ⟨first, last, completeLen⟩ := by
  rw [parseContentRange]
  simp only [Option.bind_eq_bind, Option.bind_none]
  congr 1
  funext rest
  congr 1
  funext parts
  by_cases hstar : trimChars parts.1 = ['*']
  · rw [if_pos hstar, if_pos hstar]
  · rw [if_neg hstar, if_neg hstar]
    congr 1
    funext ends
    congr 1
    funext first
    congr 1
    funext last
    by_cases hlt : last < first
    · rw [if_pos hlt, if_pos hlt]
    · rw [if_neg hlt, if_neg hlt, readComplete]
      by_cases hany : trimChars parts.2 = ['*']
      · rw [if_pos hany, if_pos hany]
        rfl
      · rw [if_neg hany, if_neg hany]
        rcases parseU64 (trimChars parts.2) with _ | total
        · rfl
        · simp only [Option.map_some, Option.bind_some]
          split_ifs with hle
          · rfl
          · rfl

/-- **A `Content-Range` is what its grammar says.** -/
theorem parseContentRange_eq_some_iff (hsign : Unsigned value.toList) :
    parseContentRange value = some r ↔ ReadAsContentRange value r := by
  rw [parseContentRange_eq]
  constructor
  · intro h
    obtain ⟨rest, hrest, h⟩ := Option.bind_eq_some_iff.mp h
    obtain ⟨⟨range, complete⟩, hparts, h⟩ := Option.bind_eq_some_iff.mp h
    dsimp only at h
    by_cases hstar : trimChars range = ['*']
    · rw [if_pos hstar] at h
      exact nomatch h
    rw [if_neg hstar] at h
    obtain ⟨⟨x, y⟩, hends, h⟩ := Option.bind_eq_some_iff.mp h
    obtain ⟨first, hfirst, h⟩ := Option.bind_eq_some_iff.mp h
    obtain ⟨last, hlast, h⟩ := Option.bind_eq_some_iff.mp h
    split_ifs at h with hlt
    obtain ⟨completeLen, hcomplete, rfl⟩ := Option.map_eq_some_iff.mp h
    obtain ⟨p, q, hp, hq, hvalue⟩ := exists_trimChars value.toList
    obtain ⟨b, hb, hspace⟩ := exists_trimStartChars rest
    obtain ⟨s, t, hs, ht, hrange⟩ := exists_trimChars range
    rw [eq_append_of_splitOnce hparts] at hspace
    rw [eq_append_of_splitOnce hends] at hrange
    have htext : value.toList = p ++ ("bytes".toList ++
        ((b ++ (s ++ x)) ++ '-' :: ((y ++ t) ++ '/' :: (complete ++ q)))) := by
      rw [hvalue, eq_append_of_stripStart hrest, hspace, hrange]
      simp
    have hx : Unsigned x := hsign.mono ⟨p ++ ("bytes".toList ++ (b ++ s)),
      '-' :: ((y ++ t) ++ '/' :: (complete ++ q)), by simp [htext]⟩
    have hy : Unsigned y := hsign.mono ⟨p ++ ("bytes".toList ++ ((b ++ (s ++ x)) ++ ['-'])),
      t ++ '/' :: (complete ++ q), by simp [htext]⟩
    have hc : Unsigned complete := hsign.mono ⟨p ++ ("bytes".toList ++
      ((b ++ (s ++ x)) ++ '-' :: ((y ++ t) ++ ['/']))), q, by simp [htext]⟩
    have hstart : Spaced Blank (Numeral · first) (b ++ (s ++ x)) := by
      have happend := ((parseU64_trimChars_iff hx).mp hfirst).append (hb.append hs) blank_nil
      simpa using happend
    have hend : Spaced Blank (Numeral · last) (y ++ t) :=
      ((parseU64_trimChars_iff hy).mp hlast).append blank_nil ht
    refine ⟨p, _, _, complete ++ q, hp, hstart, hend, not_lt.mp hlt, ?_, htext⟩
    rcases (readComplete_eq_some_iff hc).mp hcomplete with ⟨hany, hnone⟩ | ⟨total, htotal, hsome, hlt⟩
    · exact Or.inl ⟨hany.append blank_nil hq, hnone⟩
    · exact Or.inr ⟨total, htotal.append blank_nil hq, hsome, hlt⟩
  · rintro ⟨a, x, y, c, ha, hx, hy, hle, hcomplete, hvalue⟩
    obtain ⟨q, hq, hend⟩ := exists_trimEndChars c
    have htrim : trimChars value.toList = "bytes".toList ++
        (x ++ '-' :: (y ++ '/' :: trimEndChars c)) := by
      have hcut := trimChars_append_cons (c := '/') (by decide)
        (a ++ ("bytes".toList ++ (x ++ '-' :: y))) c
      have hstart : trimStartChars (a ++ ("bytes".toList ++ (x ++ '-' :: y))) =
          "bytes".toList ++ (x ++ '-' :: y) := by
        rw [trimStartChars_append ha]
        exact trimStartChars_cons (by decide) _
      rw [hstart] at hcut
      rw [hvalue]
      simpa using hcut
    have hspace : trimStartChars (x ++ '-' :: (y ++ '/' :: trimEndChars c)) =
        (trimStartChars x ++ '-' :: y) ++ '/' :: trimEndChars c := by
      rw [trimStartChars_append_cons (by decide)]
      simp
    have hstartx : ∀ {c : Char}, isWhitespace c = false → c.isDigit = false →
        c ∉ trimStartChars x := by
      intro c hspace hdigit hmem
      refine hx.not_mem hspace hdigit ?_
      obtain ⟨s, -, hs⟩ := exists_trimStartChars x
      rw [hs]
      exact List.mem_append_right _ hmem
    have hslash : '/' ∉ trimStartChars x ++ '-' :: y := by
      intro hmem
      rcases List.mem_append.mp hmem with hmem | hmem
      · exact hstartx (by decide) (by decide) hmem
      · rcases List.mem_cons.mp hmem with hmem | hmem
        · exact absurd hmem (by decide)
        · exact hy.not_mem (by decide) (by decide) hmem
    have hrange : trimChars (trimStartChars x ++ '-' :: y) =
        trimStartChars (trimStartChars x) ++ '-' :: trimEndChars y :=
      trimChars_append_cons (by decide) _ _
    have hhyphen : '-' ∉ trimStartChars (trimStartChars x) := by
      intro hmem
      obtain ⟨s, -, hs⟩ := exists_trimStartChars (trimStartChars x)
      have hnot : '-' ∉ trimStartChars x := hstartx (by decide) (by decide)
      rw [hs] at hnot
      exact hnot (List.mem_append_right _ hmem)
    have hx' : Unsigned x := hsign.mono ⟨a ++ "bytes".toList, '-' :: (y ++ '/' :: c), by
      simp [hvalue]⟩
    have hy' : Unsigned y := hsign.mono ⟨a ++ ("bytes".toList ++ (x ++ ['-'])), '/' :: c, by
      simp [hvalue]⟩
    have hc' : Unsigned c := hsign.mono ⟨a ++ ("bytes".toList ++ (x ++ '-' :: (y ++ ['/']))), [], by
      simp [hvalue]⟩
    have hfirst := (parseU64_trimChars_iff hx').mpr hx
    have hlast := (parseU64_trimChars_iff hy').mpr hy
    have hnotany : trimStartChars (trimStartChars x) ++ '-' :: trimEndChars y ≠ ['*'] := by
      intro hany
      have hmem : '-' ∈ ['*'] := by
        rw [← hany]
        exact List.mem_append_right _ List.mem_cons_self
      exact absurd hmem (by decide)
    have hread : readComplete (trimEndChars c) r.last = some r.completeLen := by
      have hsame : readComplete (trimEndChars c) r.last = readComplete c r.last := by
        rw [readComplete, readComplete, trimChars_trimEndChars]
      rw [hsame]
      exact (readComplete_eq_some_iff hc').mpr hcomplete
    rw [htrim, stripStart_append, Option.bind_some, hspace, splitOnce_append hslash,
      Option.bind_some]
    dsimp only
    rw [hrange, if_neg hnotany, splitOnce_append hhyphen, Option.bind_some]
    dsimp only
    rw [trimChars_trimStartChars, trimChars_trimStartChars, trimChars_trimEndChars, hfirst, hlast,
      Option.bind_some, Option.bind_some, if_neg (not_lt.mpr hle), hread]
    rfl

/-! ### What the RFC allows is read -/

theorem unsigned_of_not_mem {cs : List Char} (h : '+' ∉ cs) : Unsigned cs :=
  fun _ _ hin => h (hin.subset List.mem_cons_self)

theorem Spaced.mono {gap gap' S : List Char → Prop} {cs : List Char} (h : Spaced gap S cs)
    (hgap : ∀ l, gap l → gap' l) : Spaced gap' S cs := by
  obtain ⟨a, core, b, ha, hcore, hb, rfl⟩ := h
  exact ⟨a, core, b, hgap a ha, hcore, hgap b hb, rfl⟩

theorem blank_of_noGap (l : List Char) (h : NoGap l) : Blank l := by
  rw [h]
  exact blank_nil

theorem RangeElement.blank {part : List Char} {spec : RangeSpec}
    (h : RangeElement NoGap part spec) : RangeElement Blank part spec := by
  cases h with
  | fromTo hfirst hlast hle =>
    exact .fromTo (hfirst.mono blank_of_noGap) (hlast.mono blank_of_noGap) hle
  | «from» hfirst hb => exact .from (hfirst.mono blank_of_noGap) (blank_of_noGap _ hb)
  | suffix ha hlength hpos =>
    exact .suffix (blank_of_noGap _ ha) (hlength.mono blank_of_noGap) hpos

/-- **A range set of the RFC is read.** -/
theorem IsRange.parse (h : IsRange value specs) : parseRange value = some specs := by
  obtain ⟨hspecs, parts, hparts, hvalue⟩ := h
  have helements : RangeElements parts specs := by
    clear hvalue hspecs
    induction hparts with
    | nil => exact .nil
    | cons hpart _ ih =>
      obtain ⟨a, core, b, ha, hcore, hb, rfl⟩ := hpart
      exact .cons (hcore.blank.append ha hb) ih
  have hlist : '+' ∉ [','].intercalate parts := by
    have hplus : ∀ part ∈ parts, '+' ∉ part := by
      clear hvalue hspecs hparts
      induction helements with
      | nil => exact fun _ hmem => nomatch hmem
      | blank hpart _ ih =>
        intro part hmem
        rcases List.mem_cons.mp hmem with rfl | hmem
        · exact hpart.not_mem (by decide)
        · exact ih part hmem
      | cons hpart _ ih =>
        intro part hmem
        rcases List.mem_cons.mp hmem with rfl | hmem
        · exact hpart.not_mem (by decide) (by decide) (by decide)
        · exact ih part hmem
    intro hmem
    obtain ⟨part, hpart, hplus'⟩ | hcomma := mem_intercalate hmem
    · exact hplus part hpart hplus'
    · exact absurd (List.mem_singleton.mp hcomma) (by decide)
  have hunit : '+' ∉ "bytes=".toList := by decide
  have hsign : Unsigned value.toList := by
    refine unsigned_of_not_mem fun hmem => ?_
    rw [hvalue] at hmem
    exact (List.mem_append.mp hmem).elim hunit hlist
  refine (parseRange_eq_some_iff hsign).mpr ⟨hspecs, [], [], parts, blank_nil, blank_nil,
    helements, ?_⟩
  rw [hvalue]
  exact congrArg (· ++ [','].intercalate parts)
    (by decide : "bytes=".toList = "bytes".toList ++ ['='])

/-- **A content range of the RFC is read.** -/
theorem IsContentRange.parse (h : IsContentRange value r) : parseContentRange value = some r := by
  obtain ⟨a, b, c, ha, hb, hle, hc, hvalue⟩ := h
  have hnumber : ∀ {cs : List Char} {n : ℕ}, Numeral cs n → Spaced Blank (Numeral · n) cs :=
    fun h => ⟨[], _, [], blank_nil, h, blank_nil, by simp⟩
  have hspace : Spaced Blank (Numeral · r.first) (' ' :: a) := by
    have hone : Blank [' '] := by
      intro c hc
      rw [List.mem_singleton.mp hc]
      decide
    simpa using (hnumber ha).append hone blank_nil
  have hplus : '+' ∉ a ++ '-' :: (b ++ '/' :: c) := by
    have hlast : '+' ∉ c := by
      rcases hc with ⟨rfl, -⟩ | ⟨total, htotal, -⟩
      · decide
      · exact htotal.not_mem (by decide)
    intro hmem
    rcases List.mem_append.mp hmem with hmem | hmem
    · exact ha.not_mem (by decide) hmem
    · rcases List.mem_cons.mp hmem with hmem | hmem
      · exact absurd hmem (by decide)
      · rcases List.mem_append.mp hmem with hmem | hmem
        · exact hb.not_mem (by decide) hmem
        · rcases List.mem_cons.mp hmem with hmem | hmem
          · exact absurd hmem (by decide)
          · exact hlast hmem
  have hunit : '+' ∉ "bytes ".toList := by decide
  have hsign : Unsigned value.toList := by
    refine unsigned_of_not_mem fun hmem => ?_
    rw [hvalue] at hmem
    exact (List.mem_append.mp hmem).elim hunit hplus
  refine (parseContentRange_eq_some_iff hsign).mpr ⟨[], ' ' :: a, b, c, blank_nil, hspace,
    hnumber hb, hle, ?_, ?_⟩
  · rcases hc with ⟨rfl, hnone⟩ | ⟨total, htotal, hsome, hlt⟩
    · exact Or.inl ⟨⟨[], ['*'], [], blank_nil, rfl, blank_nil, rfl⟩, hnone⟩
    · exact Or.inr ⟨total, hnumber htotal, hsome, hlt⟩
  · rw [hvalue]
    exact congrArg (· ++ (a ++ '-' :: (b ++ '/' :: c)))
      (by decide : "bytes ".toList = "bytes".toList ++ [' '])

end Readers

/-- **What is read as ranges.** Every range set and every content range of the RFC is,
with what it says; and where no number has a sign, what is read besides differs from
one by its white space and by elements that are empty. -/
theorem reads_ranges_iff (value : String) :
    (∀ specs, IsRange value specs → parseRange value = some specs) ∧
      (∀ r, IsContentRange value r → parseContentRange value = some r) ∧
        (Unsigned value.toList →
          (∀ specs, parseRange value = some specs ↔ ReadAsRange value specs) ∧
            ∀ r, parseContentRange value = some r ↔ ReadAsContentRange value r) :=
  ⟨fun _ h => h.parse, fun _ h => h.parse, fun hsign =>
    ⟨fun _ => parseRange_eq_some_iff hsign, fun _ => parseContentRange_eq_some_iff hsign⟩⟩

/-- **Two spaces are as good as one.** -/
theorem two_spaces_read : ¬∀ value : String,
    (∀ specs, parseRange value = some specs ↔ IsRange value specs) ∧
      ∀ r, parseContentRange value = some r ↔ IsContentRange value r := by
  intro h
  have hread : parseContentRange "bytes  0-9/10" = some ⟨0, 9, some 10⟩ := by decide
  obtain ⟨a, b, c, ha, -, -, -, hvalue⟩ := ((h "bytes  0-9/10").2 _).mp hread
  have htext : "bytes  0-9/10".toList = "bytes ".toList ++ " 0-9/10".toList := by decide
  rw [htext] at hvalue
  have hrest := List.append_cancel_left hvalue
  rcases a with _ | ⟨d, ds⟩
  · exact ha.ne rfl
  · have hd : ' ' = d := (List.cons.inj hrest).1
    exact absurd (ha.digits d List.mem_cons_self) (by rw [← hd]; decide)

end Syndeo
