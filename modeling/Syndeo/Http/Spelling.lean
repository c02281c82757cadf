import Syndeo.Http.Uri
import Syndeo.Data.Hex
import Syndeo.Data.Separated

/-!
# Addresses as the URL standard writes them

The standard has one spelling for all the ways to write the path, the query and
the user information of an address with a host: characters of certain sets are
written as escapes, a backslash separates segments as a slash does, and a segment
that says “here” or “one up” is taken out, also where its dots are escapes. This
file has the pieces, and what each leaves alone.

Writing a path its way gives a path that is written its way
(`Syndeo.Spelling.readPath_writePath`), and a path comes out as it went in exactly
where it has no backslash, no such segment and no such character
(`Syndeo.Spelling.writePath_readPath_iff`).
-/

namespace Syndeo.Spelling

open Text

/-! ### Escapes -/

/-- **The characters a part writes as escapes.** What escapes are made of is not
among them, nor is a dot. -/
structure EscapeSet where
  holds : Char → Bool
  kept : ∀ c : Char, c = '%' ∨ c = '.' ∨ c.isAlphanum = true → holds c = false

/-- An escape: a `%` and two digits for each byte of the character. -/
def escapeChar (c : Char) : List Char :=
  (String.utf8EncodeChar c).flatMap fun b => '%' :: (hexDigits b.toNat 2).map upperChar

namespace EscapeSet

variable {E : EscapeSet} {cs : List Char} {c : Char}

/-- Writing some text. -/
def escape (E : EscapeSet) (cs : List Char) : List Char :=
  cs.flatMap fun c => if E.holds c then escapeChar c else [c]

/-- A text the set has no part in. -/
def Keeps (E : EscapeSet) (cs : List Char) : Prop := ∀ c ∈ cs, E.holds c = false

instance : Decidable (E.Keeps cs) := inferInstanceAs (Decidable (∀ c ∈ cs, E.holds c = false))

theorem escape_cons : E.escape (c :: cs) =
    (if E.holds c then escapeChar c else [c]) ++ E.escape cs :=
  List.flatMap_cons

theorem isAlphanum_upper_hexDigit : ∀ n < 16, (upperChar (hexDigit n)).isAlphanum = true := by
  decide

/-- What an escape is made of. -/
theorem of_mem_escapeChar {d : Char} (h : d ∈ escapeChar c) : d = '%' ∨ d.isAlphanum = true := by
  obtain ⟨b, -, hd⟩ := List.mem_flatMap.mp h
  rw [hexDigits_two] at hd
  have hb := b.toNat_lt
  rcases List.mem_cons.mp hd with rfl | hd
  · exact Or.inl rfl
  · right
    simp only [List.map_cons, List.map_nil, List.mem_cons, List.not_mem_nil, or_false] at hd
    rcases hd with rfl | rfl
    · exact isAlphanum_upper_hexDigit _ (by omega)
    · exact isAlphanum_upper_hexDigit _ (by omega)

theorem of_mem_escape {d : Char} (h : d ∈ E.escape cs) :
    d ∈ cs ∧ E.holds d = false ∨ d = '%' ∨ d.isAlphanum = true := by
  obtain ⟨c, hc, hd⟩ := List.mem_flatMap.mp h
  split at hd
  · exact Or.inr (of_mem_escapeChar hd)
  · rename_i hkept
    obtain rfl := List.mem_singleton.mp hd
    exact Or.inl ⟨hc, by simpa using hkept⟩

/-- What is written holds no character of the set. -/
theorem keeps_escape (E : EscapeSet) (cs : List Char) : E.Keeps (E.escape cs) := by
  intro d hd
  rcases of_mem_escape hd with ⟨-, hd⟩ | hd | hd
  · exact hd
  · exact E.kept d (Or.inl hd)
  · exact E.kept d (Or.inr (Or.inr hd))

theorem Keeps.escape (h : E.Keeps cs) : E.escape cs = cs := by
  induction cs with
  | nil => rfl
  | cons c cs ih =>
    rw [escape_cons, h c List.mem_cons_self, ih fun d hd => h d (List.mem_cons_of_mem _ hd)]
    rfl

/-- **Only what holds no such character is left alone.** -/
theorem escape_eq_self_iff : E.escape cs = cs ↔ E.Keeps cs :=
  ⟨fun h => h ▸ E.keeps_escape cs, Keeps.escape⟩

theorem escape_escape (E : EscapeSet) (cs : List Char) : E.escape (E.escape cs) = E.escape cs :=
  (E.keeps_escape cs).escape

theorem escape_eq_nil_iff : E.escape cs = [] ↔ cs = [] := by
  constructor
  · intro h
    rcases cs with _ | ⟨c, cs⟩
    · rfl
    · rw [escape_cons] at h
      obtain ⟨hc, -⟩ := List.append_eq_nil_iff.mp h
      split at hc
      · obtain ⟨b, bs, hbs⟩ := List.exists_cons_of_ne_nil (String.utf8EncodeChar_ne_nil (c := c))
        rw [escapeChar, hbs] at hc
        exact nomatch hc
      · exact nomatch hc
  · rintro rfl
    rfl

end EscapeSet

/-! ### Segments -/

/-- Where a segment ends: a backslash is a slash. -/
def isSlash (c : Char) : Bool := c == '/' || c == '\\'

/-- A segment that says “here”. -/
def isSingleDot (segment : List Char) : Bool :=
  segment.map lowerChar = ['.'] || segment.map lowerChar = ['%', '2', 'e']

/-- A segment that says “one up”. -/
def isDoubleDot (segment : List Char) : Bool :=
  segment.map lowerChar = ['.', '.'] || segment.map lowerChar = ['.', '%', '2', 'e'] ||
    segment.map lowerChar = ['%', '2', 'e', '.'] ||
    segment.map lowerChar = ['%', '2', 'e', '%', '2', 'e']

/-- **A segment that is written as it is read.** -/
structure Plain (E : EscapeSet) (segment : List Char) : Prop where
  slash : ∀ c ∈ segment, isSlash c = false
  keeps : E.Keeps segment
  single : isSingleDot segment = false
  double : isDoubleDot segment = false

/-- One more segment, the last or not, behind those there are. -/
def addSegment (E : EscapeSet) (last : Bool) (out : List (List Char)) (segment : List Char) :
    List (List Char) :=
  if isDoubleDot segment then if last then out.dropLast ++ [[]] else out.dropLast
  else if isSingleDot segment then if last then out ++ [[]] else out
  else out ++ [E.escape segment]

/-- The segments, one after the other. -/
def addSegments (E : EscapeSet) : List (List Char) → List (List Char) → List (List Char)
  | out, [] => out
  | out, segment :: rest => addSegments E (addSegment E rest.isEmpty out segment) rest

/-- **A path, read**: nothing, or a slash and the segments. -/
def readPath (E : EscapeSet) (path : List Char) : List (List Char) :=
  addSegments E [] ((path.drop 1).splitOnP isSlash)

/-- And written. -/
def writePath (segments : List (List Char)) : List Char := segments.flatMap fun s => '/' :: s

section Path

variable {E : EscapeSet} {segment : List Char} {segments out : List (List Char)} {path : List Char}

/-- Of a segment that says where to go, each `%` is that of an escaped dot. -/
theorem eq_of_dots {a b : List Char} {x y : Char}
    (h : isSingleDot (a ++ '%' :: x :: y :: b) = true ∨ isDoubleDot (a ++ '%' :: x :: y :: b) = true) :
    lowerChar x = '2' ∧ lowerChar y = 'e' := by
  have hpercent : lowerChar '%' = '%' := by decide
  simp only [isSingleDot, isDoubleDot, Bool.or_eq_true, decide_eq_true_eq, List.map_append,
    List.map_cons, hpercent] at h
  generalize a.map lowerChar = a at h
  rcases a with _ | ⟨a₁, _ | ⟨a₂, _ | ⟨a₃, _ | ⟨a₄, a⟩⟩⟩⟩
  all_goals simp at h
  · tauto
  · tauto
  · tauto
  · -- none of them is this long
    have hlength := congrArg List.length h.2.2.2.2
    simp only [List.length_append, List.length_cons] at hlength
    exact absurd hlength (by simp; omega)

theorem hexDigit_two : ∀ n < 16, lowerChar (hexDigit n) = '2' → n = 2 := by decide

theorem hexDigit_fourteen : ∀ n < 16, lowerChar (hexDigit n) = 'e' → n = 14 := by decide

/-- **No escape makes such a segment**: a dot is never one. -/
theorem keeps_of_dots (h : isSingleDot (E.escape segment) = true ∨
    isDoubleDot (E.escape segment) = true) : E.Keeps segment := by
  intro c hc
  by_contra hholds
  obtain ⟨front, back, rfl⟩ := List.append_of_mem hc
  obtain ⟨b, bs, hbs⟩ := List.exists_cons_of_ne_nil (String.utf8EncodeChar_ne_nil (c := c))
  have hescape : E.escape (front ++ c :: back) = E.escape front ++ '%' ::
      upperChar (hexDigit (b.toNat / 16)) :: upperChar (hexDigit (b.toNat % 16)) ::
        (bs.flatMap (fun b => '%' :: (hexDigits b.toNat 2).map upperChar) ++ E.escape back) := by
    rw [EscapeSet.escape, List.flatMap_append, List.flatMap_cons, if_pos (by simpa using hholds),
      escapeChar, hbs, List.flatMap_cons, hexDigits_two]
    rfl
  have hlt := b.toNat_lt
  rw [hescape] at h
  obtain ⟨hhigh, hlow⟩ := eq_of_dots h
  rw [lowerChar_upperChar] at hhigh hlow
  have hhigh := hexDigit_two _ (by omega) hhigh
  have hlow := hexDigit_fourteen _ (by omega) hlow
  have hdot : c.toNat = b.toNat :=
    Utf8.toNat_of_mem_utf8EncodeChar (hbs ▸ List.mem_cons_self) (by omega)
  refine hholds (E.kept c (Or.inr (Or.inl ?_)))
  rw [← Char.toNat_inj, hdot]
  change b.toNat = 46
  omega

theorem isSlash_eq_false_of_isAlphanum {c : Char} (h : c = '%' ∨ c.isAlphanum = true) :
    isSlash c = false := by
  by_contra hslash
  rw [Bool.not_eq_false, isSlash, Bool.or_eq_true, beq_iff_eq, beq_iff_eq] at hslash
  rcases hslash with rfl | rfl
  · exact absurd h (by decide)
  · exact absurd h (by decide)

/-- What is written of a segment is plain, if it does not say where to go. -/
theorem plain_escape (hslash : ∀ c ∈ segment, isSlash c = false)
    (hsingle : isSingleDot segment = false) (hdouble : isDoubleDot segment = false) :
    Plain E (E.escape segment) := by
  have hdots : ¬(isSingleDot (E.escape segment) = true ∨ isDoubleDot (E.escape segment) = true) := by
    intro h
    rw [(keeps_of_dots h).escape, hsingle, hdouble] at h
    simp at h
  refine ⟨fun c hc => ?_, E.keeps_escape segment, ?_, ?_⟩
  · rcases EscapeSet.of_mem_escape hc with ⟨hc, -⟩ | hc
    · exact hslash c hc
    · exact isSlash_eq_false_of_isAlphanum hc
  · exact Bool.eq_false_iff.mpr fun h => hdots (Or.inl h)
  · exact Bool.eq_false_iff.mpr fun h => hdots (Or.inr h)

theorem plain_nil : Plain E [] where
  slash _ h := nomatch h
  keeps _ h := nomatch h
  single := by decide
  double := by decide

/-- One more segment keeps those there are plain, and the last leaves one. -/
theorem plain_addSegment (last : Bool) (hout : ∀ s ∈ out, Plain E s)
    (hslash : ∀ c ∈ segment, isSlash c = false) :
    (∀ s ∈ addSegment E last out segment, Plain E s) ∧
      (last = true → addSegment E last out segment ≠ []) := by
  have hnil : ∀ l : List (List Char), (∀ s ∈ l, Plain E s) → ∀ s ∈ l ++ [[]], Plain E s := by
    intro l hl s hs
    rcases List.mem_append.mp hs with hs | hs
    · exact hl s hs
    · exact List.mem_singleton.mp hs ▸ plain_nil
  have hdrop : ∀ s ∈ out.dropLast, Plain E s := fun s hs => hout s ((List.dropLast_sublist _).subset hs)
  rw [addSegment]
  split_ifs with hdouble hlast hsingle hlast
  · exact ⟨hnil _ hdrop, fun _ => by simp⟩
  · exact ⟨hdrop, fun h => absurd h hlast⟩
  · exact ⟨hnil _ hout, fun _ => by simp⟩
  · exact ⟨hout, fun h => absurd h hlast⟩
  · refine ⟨fun s hs => ?_, fun _ => by simp⟩
    rcases List.mem_append.mp hs with hs | hs
    · exact hout s hs
    · rw [List.mem_singleton.mp hs]
      exact plain_escape hslash (by simpa using hsingle) (by simpa using hdouble)

theorem plain_addSegments (hout : ∀ s ∈ out, Plain E s)
    (hslash : ∀ s ∈ segments, ∀ c ∈ s, isSlash c = false) :
    (∀ s ∈ addSegments E out segments, Plain E s) ∧
      (segments ≠ [] → addSegments E out segments ≠ []) := by
  induction segments generalizing out with
  | nil => exact ⟨hout, fun h => absurd rfl h⟩
  | cons segment rest ih =>
    have hfirst := hslash segment List.mem_cons_self
    have hrest : ∀ s ∈ rest, ∀ c ∈ s, isSlash c = false := fun s hs =>
      hslash s (List.mem_cons_of_mem _ hs)
    obtain ⟨hplain, hne⟩ := plain_addSegment rest.isEmpty hout hfirst
    refine ⟨(ih hplain hrest).1, fun _ => ?_⟩
    rcases rest with _ | ⟨next, rest⟩
    · exact hne rfl
    · exact (ih hplain hrest).2 (List.cons_ne_nil _ _)

/-- Plain segments are taken as they are. -/
theorem addSegments_of_plain (h : ∀ s ∈ segments, Plain E s) :
    addSegments E out segments = out ++ segments := by
  induction segments generalizing out with
  | nil => exact (List.append_nil out).symm
  | cons segment rest ih =>
    have hfirst := h segment List.mem_cons_self
    have hadd : addSegment E rest.isEmpty out segment = out ++ [segment] := by
      rw [addSegment, if_neg (by simp [hfirst.double]), if_neg (by simp [hfirst.single]),
        hfirst.keeps.escape]
    rw [addSegments, hadd, ih fun s hs => h s (List.mem_cons_of_mem _ hs), List.append_assoc]
    rfl

/-! ### Paths -/

/-- The segments of a path that is read are plain, and there is one. -/
theorem plain_readPath (E : EscapeSet) (path : List Char) :
    (∀ s ∈ readPath E path, Plain E s) ∧ readPath E path ≠ [] := by
  have hnone : ∀ s ∈ ([] : List (List Char)), Plain E s := fun _ h => nomatch h
  obtain ⟨hplain, hne⟩ := plain_addSegments hnone
    fun s hs c hc => (Separated.of_mem_splitOnP (path.drop 1) s hs c hc).1
  exact ⟨hplain, hne (List.splitOnP_ne_nil _ _)⟩

theorem splitOnP_writePath {first : List Char} {rest : List (List Char)}
    (hfirst : ∀ c ∈ first, isSlash c = false) (hrest : ∀ s ∈ rest, ∀ c ∈ s, isSlash c = false) :
    (first ++ writePath rest).splitOnP isSlash = first :: rest := by
  induction rest generalizing first with
  | nil => exact (List.append_nil first).symm ▸ List.splitOnP_eq_singleton hfirst
  | cons s rest ih =>
    have hwrite : writePath (s :: rest) = '/' :: (s ++ writePath rest) := List.flatMap_cons
    rw [hwrite, List.splitOnP_append_cons_of_forall_mem hfirst '/' (by decide),
      ih (hrest s List.mem_cons_self) fun t ht => hrest t (List.mem_cons_of_mem _ ht)]

/-- **Plain segments, read again.** -/
theorem readPath_writePath_of_plain (h : ∀ s ∈ segments, Plain E s) (hne : segments ≠ []) :
    readPath E (writePath segments) = segments := by
  obtain ⟨first, rest, rfl⟩ := List.exists_cons_of_ne_nil hne
  have hdrop : (writePath (first :: rest)).drop 1 = first ++ writePath rest := rfl
  rw [readPath, hdrop, splitOnP_writePath (h first List.mem_cons_self).slash
    fun s hs => (h s (List.mem_cons_of_mem _ hs)).slash, addSegments_of_plain h, List.nil_append]

/-- **A path that is read and written is written that way.** -/
theorem readPath_writePath (E : EscapeSet) (path : List Char) :
    readPath E (writePath (readPath E path)) = readPath E path :=
  readPath_writePath_of_plain (plain_readPath E path).1 (plain_readPath E path).2

/-- **What a path is written with only one way.** -/
structure PlainPath (E : EscapeSet) (path : List Char) : Prop where
  backslash : '\\' ∉ path
  segments : ∀ s ∈ (path.drop 1).splitOnP isSlash, Plain E s

theorem writePath_splitOnP {cs : List Char} (h : '\\' ∉ cs) :
    writePath (cs.splitOnP isSlash) = '/' :: cs := by
  induction cs with
  | nil => rfl
  | cons c cs ih =>
    have ih := ih fun hm => h (List.mem_cons_of_mem _ hm)
    rw [List.splitOnP_cons_eq_if_modifyHead]
    split
    · rename_i hc
      rw [isSlash, Bool.or_eq_true, beq_iff_eq, beq_iff_eq] at hc
      have hslash := hc.resolve_right fun he => h (he ▸ List.mem_cons_self)
      rw [hslash, ← ih]
      rfl
    · rcases hsplit : cs.splitOnP isSlash with _ | ⟨first, rest⟩
      · exact absurd hsplit (List.splitOnP_ne_nil _ _)
      · rw [hsplit] at ih
        rw [List.modifyHead_cons]
        have hrest : first ++ writePath rest = cs := (List.cons.inj ih).2
        exact congrArg (fun t => '/' :: c :: t) hrest

/-- What a path reads as on the line: an empty one is a slash. -/
def orSlash (path : List Char) : List Char := if path = [] then ['/'] else path

/-- **Exactly a path with only one spelling comes out as it went in.** -/
theorem writePath_readPath_iff (hpath : ∀ c ∈ path.head?, c = '/') :
    writePath (readPath E path) = orSlash path ↔ PlainPath E path := by
  rcases path with _ | ⟨c, path⟩
  · have hplain : PlainPath E [] := by
      refine ⟨List.not_mem_nil, fun s hs => ?_⟩
      rw [List.mem_singleton.mp hs]
      exact plain_nil
    exact iff_of_true rfl hplain
  · obtain rfl := hpath c rfl
    rw [orSlash, if_neg (List.cons_ne_nil _ _)]
    constructor
    · intro h
      obtain ⟨hplain, hne⟩ := plain_readPath E ('/' :: path)
      obtain ⟨first, rest, hsegments⟩ := List.exists_cons_of_ne_nil hne
      rw [hsegments] at h hplain
      refine ⟨fun hm => ?_, ?_⟩
      · rw [← h] at hm
        obtain ⟨s, hs, hm⟩ := List.mem_flatMap.mp hm
        rcases List.mem_cons.mp hm with hm | hm
        · exact absurd hm (by decide)
        · exact absurd ((hplain s hs).slash _ hm) (by decide)
      · rw [← h]
        change ∀ s ∈ (first ++ writePath rest).splitOnP isSlash, Plain E s
        rwa [splitOnP_writePath (hplain first List.mem_cons_self).slash
          fun s hs => (hplain s (List.mem_cons_of_mem _ hs)).slash]
    · rintro ⟨hbackslash, hsegments⟩
      rw [readPath, addSegments_of_plain hsegments]
      exact writePath_splitOnP fun hm => hbackslash (List.mem_cons_of_mem _ hm)

end Path

/-! ### User information -/

/-- A name and a password. -/
def readUser (E : EscapeSet) (user : List Char) : List Char × List Char :=
  match splitOnce ':' user with
  | some (name, password) => (E.escape name, E.escape password)
  | none => (E.escape user, [])

/-- What of them is written: neither an empty password, nor that there is none
of either. -/
def writeUser : List Char × List Char → Option (List Char)
  | (name, password) =>
    if name = [] ∧ password = [] then none
    else some (if password = [] then name else name ++ ':' :: password)

/-- User information with only one spelling. -/
def PlainUser (E : EscapeSet) (user : List Char) : Prop :=
  match splitOnce ':' user with
  | some (name, password) => E.Keeps name ∧ E.Keeps password ∧ password ≠ []
  | none => E.Keeps user ∧ user ≠ []

section User

variable {E : EscapeSet} {user : List Char}

theorem colon_not_mem_escape {cs : List Char} (h : ':' ∉ cs) : ':' ∉ E.escape cs := by
  intro hm
  rcases EscapeSet.of_mem_escape hm with ⟨hm, -⟩ | hm
  · exact h hm
  · exact absurd hm (by decide)

theorem colon_not_mem_readUser (E : EscapeSet) (user : List Char) :
    ':' ∉ (readUser E user).1 := by
  rw [readUser]
  split
  · rename_i name password hsplit
    exact colon_not_mem_escape (not_mem_of_splitOnce hsplit)
  · rename_i hsplit
    exact colon_not_mem_escape (not_mem_of_splitOnce_eq_none hsplit)

theorem keeps_readUser (E : EscapeSet) (user : List Char) :
    E.Keeps (readUser E user).1 ∧ E.Keeps (readUser E user).2 := by
  rw [readUser]
  split
  · exact ⟨E.keeps_escape _, E.keeps_escape _⟩
  · exact ⟨E.keeps_escape _, fun _ h => nomatch h⟩

/-- **What is written of a name and a password, read again.** -/
theorem readUser_writeUser {name password : List Char} (hname : E.Keeps name)
    (hpassword : E.Keeps password) (hcolon : ':' ∉ name) :
    readUser E ((writeUser (name, password)).getD []) = (name, password) := by
  rw [writeUser]
  split_ifs with hnone hempty
  · rw [hnone.1, hnone.2]
    rfl
  · rw [Option.getD_some, readUser, splitOnce_of_not_mem hcolon, hname.escape, hempty]
  · rw [Option.getD_some, readUser, splitOnce_append hcolon]
    exact congrArg₂ Prod.mk hname.escape hpassword.escape

/-- **Exactly user information with one spelling comes out as it went in.** -/
theorem writeUser_readUser_iff : writeUser (readUser E user) = some user ↔ PlainUser E user := by
  rw [readUser, PlainUser]
  rcases hsplit : splitOnce ':' user with _ | ⟨name, password⟩
  · have hiff : writeUser (E.escape user, []) = some user ↔ user ≠ [] ∧ E.escape user = user := by
      simp only [writeUser, and_true, EscapeSet.escape_eq_nil_iff, if_true]
      split_ifs with huser <;> simp [huser]
    rw [hiff, EscapeSet.escape_eq_self_iff, and_comm]
  · have huser := eq_append_of_splitOnce hsplit
    have hcolon := not_mem_of_splitOnce hsplit
    simp only [writeUser, EscapeSet.escape_eq_nil_iff]
    rw [← EscapeSet.escape_eq_self_iff, ← EscapeSet.escape_eq_self_iff]
    split_ifs with hnone hempty
    · exact iff_of_false nofun fun h => h.2.2 hnone.2
    · refine iff_of_false (fun h => ?_) fun h => h.2.2 hempty
      have hm : ':' ∈ E.escape name := by
        rw [Option.some.inj h, huser]
        exact List.mem_append_right _ List.mem_cons_self
      exact colon_not_mem_escape hcolon hm
    · constructor
      · intro h
        rw [Option.some.injEq, huser] at h
        obtain ⟨hname, hpassword⟩ := Separated.append_cons_inj (colon_not_mem_escape hcolon) hcolon h
        exact ⟨hname, hpassword, hempty⟩
      · rintro ⟨hname, hpassword, -⟩
        rw [hname, hpassword, huser]

end User

/-! ### The pieces of an address -/

/-- Where a host and its user information end. -/
def endsHost (c : Char) : Bool := isSlash c || c == '?'

/-- The host, up to a colon outside brackets, and what stands behind the colon. -/
def splitPort : Bool → List Char → List Char × Option (List Char)
  | _, [] => ([], none)
  | inside, c :: cs =>
    if c = ':' ∧ inside = false then ([], some cs)
    else
      let r := splitPort (if c = '[' then true else if c = ']' then false else inside) cs
      (c :: r.1, r.2)

/-- **The pieces**, as they are written. -/
structure Pieces where
  scheme : List Char
  user : Option (List Char)
  host : List Char
  port : Option (List Char)
  path : List Char
  query : Option (List Char)
  deriving DecidableEq

/-- The pieces of a scheme, an authority and what comes behind it. -/
def cut (scheme authority after : List Char) : Pieces :=
  let hostPort := splitPort false (((rsplitOnce '@' authority).map Prod.snd).getD authority)
  { scheme := scheme.map lowerChar
    user := (rsplitOnce '@' authority).map Prod.fst
    host := hostPort.1
    port := hostPort.2
    path := after.takeWhile fun c => c != '?'
    query := (splitOnce '?' after).map Prod.snd }

/-- The pieces of an address. A fragment is left out. -/
def pieces (text : List Char) : Option Pieces :=
  (splitOnceAt "://".toList text).map fun r =>
    let main := r.2.takeWhile fun c => c != '#'
    cut r.1 (main.takeWhile fun c => !endsHost c) (main.dropWhile fun c => !endsHost c)

namespace Pieces

/-- The user information, the host and the port. -/
def authority (p : Pieces) : List Char :=
  ((p.user.map (· ++ ['@'])).getD []) ++ (p.host ++ (p.port.map (':' :: ·)).getD [])

/-- What stands behind the scheme. -/
def rest (p : Pieces) : List Char :=
  p.authority ++ (p.path ++ (p.query.map ('?' :: ·)).getD [])

/-- The whole address. -/
def write (p : Pieces) : List Char := p.scheme ++ ("://".toList ++ p.rest)

end Pieces

/-- **A host that a host parser gives**, or that it takes. -/
structure HostShape (host : List Char) : Prop where
  isHost : Uri.IsHost host
  bracket : '[' ∈ host → host.head? = some '['
  backslash : '\\' ∉ host

/-- What holds of the pieces of any address. -/
structure Pieces.Cut (p : Pieces) : Prop where
  scheme : ':' ∉ p.scheme
  lower : p.scheme.map lowerChar = p.scheme
  user : ∀ u ∈ p.user, ∀ c ∈ u, endsHost c = false ∧ c ≠ '#'
  path : ∀ c ∈ p.path, c ≠ '?' ∧ c ≠ '#'
  begins : ∀ c ∈ p.path.head?, c = '/'
  query : ∀ q ∈ p.query, '#' ∉ q

/-- **Pieces that can be told apart again.** -/
structure Pieces.Apart (p : Pieces) : Prop extends p.Cut where
  host : HostShape p.host
  port : ∀ q ∈ p.port, ∀ c ∈ q, c.isDigit = true

section Apart

variable {p : Pieces} {host tail : List Char}

theorem splitPort_of_colon_not_mem {inside : Bool} (h : ':' ∉ host) :
    splitPort inside host = (host, none) := by
  induction host generalizing inside with
  | nil => rfl
  | cons c cs ih =>
    have hc : ¬(c = ':' ∧ inside = false) := fun he => h (he.1 ▸ List.mem_cons_self)
    rw [splitPort, if_neg hc, ih fun hm => h (List.mem_cons_of_mem _ hm)]

/-- Inside brackets a colon is part of the address. -/
theorem splitPort_inside (h : ']' ∉ host) :
    splitPort true (host ++ ']' :: tail) =
      (host ++ ']' :: (splitPort false tail).1, (splitPort false tail).2) := by
  induction host with
  | nil => rfl
  | cons c cs ih =>
    have hclose : c ≠ ']' := fun he => h (he ▸ List.mem_cons_self)
    have hinside : (if c = '[' then true else if c = ']' then false else true) = true := by
      rw [if_neg hclose, ite_self]
    rw [List.cons_append, splitPort, if_neg (by simp), hinside,
      ih fun hm => h (List.mem_cons_of_mem _ hm)]
    rfl

theorem splitPort_colon (hname : ':' ∉ host) (hopen : '[' ∉ host) :
    splitPort false (host ++ ':' :: tail) = (host, some tail) := by
  induction host with
  | nil => rfl
  | cons c cs ih =>
    have hcolon : ¬(c = ':' ∧ false = false) := fun he => hname (he.1 ▸ List.mem_cons_self)
    have hbracket : c ≠ '[' := fun he => hopen (he ▸ List.mem_cons_self)
    have houtside : (if c = '[' then true else if c = ']' then false else false) = false := by
      rw [if_neg hbracket, ite_self]
    rw [List.cons_append, splitPort, if_neg hcolon, houtside,
      ih (fun hm => hname (List.mem_cons_of_mem _ hm)) fun hm => hopen (List.mem_cons_of_mem _ hm)]

/-- **A host and a port, cut again.** -/
theorem splitPort_append (h : HostShape host) (port : Option (List Char)) :
    splitPort false (host ++ (port.map (':' :: ·)).getD []) = (host, port) := by
  have hbracket := h.bracket
  cases h.isHost with
  | @address inner hat hclose hends =>
    have hopen : ∀ tail : List Char, splitPort false ('[' :: inner ++ [']'] ++ tail) =
        ('[' :: inner ++ ']' :: (splitPort false tail).1, (splitPort false tail).2) := by
      intro tail
      rw [List.append_assoc, List.cons_append, splitPort, if_neg (by decide), if_pos rfl]
      rw [List.singleton_append, splitPort_inside hclose]
      rfl
    rw [hopen]
    rcases port with _ | port
    · rfl
    · rfl
  | name hat hcolon hopen hends =>
    rcases port with _ | port
    · rw [Option.map_none, Option.getD_none, List.append_nil, splitPort_of_colon_not_mem hcolon]
    · exact splitPort_colon hcolon fun hm => hopen (hbracket hm)

/-- Behind the user information there is no `@`. -/
theorem Pieces.Apart.at_not_mem (h : p.Apart) :
    '@' ∉ p.host ++ (p.port.map (':' :: ·)).getD [] := by
  intro hm
  rcases List.mem_append.mp hm with hm | hm
  · exact h.host.isHost.at_not_mem hm
  · rcases hport : p.port with _ | port
    · rw [hport] at hm
      exact nomatch hm
    · rw [hport] at hm
      rcases List.mem_cons.mp hm with hm | hm
      · exact absurd hm (by decide)
      · exact absurd (h.port port hport '@' hm) (by decide)

theorem Pieces.Apart.rsplitOnce_authority (h : p.Apart) : rsplitOnce '@' p.authority =
    p.user.map fun u => (u, p.host ++ (p.port.map (':' :: ·)).getD []) := by
  rw [Pieces.authority]
  rcases p.user with _ | u
  · exact rsplitOnce_of_not_mem h.at_not_mem
  · have happend : ((some u).map (· ++ ['@'])).getD [] ++ (p.host ++ (p.port.map (':' :: ·)).getD [])
        = u ++ '@' :: (p.host ++ (p.port.map (':' :: ·)).getD []) := by simp
    rw [happend, rsplitOnce_append h.at_not_mem]
    rfl

/-- Nothing of the authority ends it. -/
theorem Pieces.Apart.of_mem_authority (h : p.Apart) :
    ∀ c ∈ p.authority, endsHost c = false ∧ c ≠ '#' := by
  intro c hc
  rcases List.mem_append.mp hc with hc | hc
  · rcases huser : p.user with _ | u
    · rw [huser] at hc
      exact nomatch hc
    · rw [huser] at hc
      rcases List.mem_append.mp hc with hc | hc
      · exact h.user u huser c hc
      · rw [List.mem_singleton.mp hc]
        decide
  · rcases List.mem_append.mp hc with hc | hc
    · have hends := h.host.isHost.not_endsAuthority c hc
      have hbackslash : c ≠ '\\' := fun he => h.host.backslash (he ▸ hc)
      simp only [Uri.endsAuthority, Bool.or_eq_false_iff, beq_eq_false_iff_ne] at hends
      simp only [endsHost, isSlash, Bool.or_eq_false_iff, beq_eq_false_iff_ne]
      exact ⟨⟨⟨hends.1.1, hbackslash⟩, hends.1.2⟩, hends.2⟩
    · rcases hport : p.port with _ | port
      · rw [hport] at hc
        exact nomatch hc
      · rw [hport] at hc
        rcases List.mem_cons.mp hc with rfl | hc
        · decide
        · have hdigit := isDigit_iff.mp (h.port port hport c hc)
          have hne : ∀ d : Char, d.toNat < 48 ∨ 57 < d.toNat → c ≠ d := by
            rintro d hd rfl
            omega
          simp only [endsHost, isSlash, Bool.or_eq_false_iff, beq_eq_false_iff_ne]
          exact ⟨⟨⟨hne _ (by decide), hne _ (by decide)⟩, hne _ (by decide)⟩, hne _ (by decide)⟩

/-- Behind the authority comes what ends it. -/
theorem Pieces.Apart.head_after (h : p.Apart) :
    ∀ c ∈ (p.path ++ (p.query.map ('?' :: ·)).getD []).head?, endsHost c = true := by
  have hbegins := h.begins
  rcases hpath : p.path with _ | ⟨d, path⟩
  · rcases p.query with _ | query
    · exact fun _ hc => nomatch hc
    · intro c hc
      obtain rfl := Option.some.inj hc
      decide
  · intro c hc
    obtain rfl := Option.some.inj hc
    rw [hbegins d (by rw [hpath]; rfl)]
    decide

theorem Pieces.Apart.number_not_mem (h : p.Apart) : '#' ∉ p.rest := by
  intro hm
  rcases List.mem_append.mp hm with hm | hm
  · exact (h.of_mem_authority _ hm).2 rfl
  · rcases List.mem_append.mp hm with hm | hm
    · exact (h.path _ hm).2 rfl
    · rcases hquery : p.query with _ | query
      · rw [hquery] at hm
        exact nomatch hm
      · rw [hquery] at hm
        rcases List.mem_cons.mp hm with hm | hm
        · exact absurd hm (by decide)
        · exact h.query query hquery hm

theorem takeWhile_append_of_head (q : Char → Bool) (front back : List Char)
    (hfront : ∀ c ∈ front, q c = true) (hback : ∀ c ∈ back.head?, q c = false) :
    (front ++ back).takeWhile q = front ∧ (front ++ back).dropWhile q = back := by
  rw [List.takeWhile_append_of_pos hfront, List.dropWhile_append_of_pos hfront]
  rcases back with _ | ⟨c, back⟩
  · exact ⟨List.append_nil front, rfl⟩
  · have hc := hback c rfl
    rw [List.takeWhile_cons, List.dropWhile_cons, hc]
    exact ⟨List.append_nil front, rfl⟩

/-- **Pieces that are written are read again.** -/
theorem Pieces.Apart.pieces_write (h : p.Apart) : pieces p.write = some p := by
  have hsplit : splitOnceAt "://".toList p.write = some (p.scheme, p.rest) :=
    splitOnceAt_append h.scheme _
  have hmain : (p.rest.takeWhile fun c => c != '#') = p.rest := by
    rw [List.takeWhile_eq_self_iff]
    exact fun c hc => bne_iff_ne.mpr fun he => h.number_not_mem (he ▸ hc)
  obtain ⟨hauthority, hafter⟩ := takeWhile_append_of_head (fun c => !endsHost c)
    p.authority (p.path ++ (p.query.map ('?' :: ·)).getD [])
    (fun c hc => by rw [(h.of_mem_authority c hc).1]; rfl) fun c hc => by rw [h.head_after c hc]; rfl
  have hquery : ∀ c ∈ ((p.query.map ('?' :: ·)).getD []).head?, (c != '?') = false := by
    rcases p.query with _ | query
    · exact fun _ hc => nomatch hc
    · intro c hc
      obtain rfl := Option.some.inj hc
      decide
  obtain ⟨hpath, -⟩ := takeWhile_append_of_head (fun c => c != '?') p.path _
    (fun c hc => bne_iff_ne.mpr (h.path c hc).1) hquery
  have hback : (splitOnce '?' (p.path ++ (p.query.map ('?' :: ·)).getD [])).map Prod.snd =
      p.query := by
    have hnone : '?' ∉ p.path := fun hm => (h.path _ hm).1 rfl
    rcases p.query with _ | query
    · rw [Option.map_none, Option.getD_none, List.append_nil, splitOnce_of_not_mem hnone]
      rfl
    · exact congrArg (Option.map Prod.snd) (splitOnce_append hnone query)
  have hhost : ((rsplitOnce '@' p.authority).map Prod.snd).getD p.authority =
      p.host ++ (p.port.map (':' :: ·)).getD [] := by
    rw [h.rsplitOnce_authority, Pieces.authority]
    rcases p.user with _ | u
    · rfl
    · rfl
  have huser : (rsplitOnce '@' p.authority).map Prod.fst = p.user := by
    rw [h.rsplitOnce_authority, Option.map_map]
    exact Option.map_id'
  rw [pieces, hsplit, Option.map_some, hmain]
  simp only [cut, Pieces.rest, hauthority, hafter, hpath, hback, hhost, huser,
    splitPort_append h.host, h.lower]

end Apart

/-! ### The one spelling -/

/-- The ports that are not written. -/
def schemePort (scheme : List Char) : Option ℕ :=
  if scheme = "http".toList then some 80 else if scheme = "https".toList then some 443 else none

/-- A port, read: nothing where there is none or where it is that of the scheme, and
no address at all where it is no number of sixteen bits. -/
def readPort (scheme : List Char) : Option (List Char) → Option (Option ℕ)
  | none => some none
  | some port =>
    if port = [] then some none
    else ((digitsValue 0 port).filter (· < 2 ^ 16)).map fun n =>
      if schemePort scheme = some n then none else some n

/-- **The standard**, up to its tables: which characters each part writes as
escapes, and which host a host is. What a host parser gives is a host, in lower
case, and again the same. -/
structure Standard where
  user : EscapeSet
  path : EscapeSet
  query : EscapeSet
  host : List Char → Option (List Char)
  shape : ∀ h h', host h = some h' → HostShape h ∧ HostShape h'
  lower : ∀ h h', host h = some h' → h'.map lowerChar = h'
  again : ∀ h h', host h = some h' → host h' = some h'

/-- **What an address says**, to the standard. -/
structure Parts where
  scheme : List Char
  user : List Char × List Char
  host : List Char
  port : Option ℕ
  path : List (List Char)
  query : Option (List Char)
  deriving DecidableEq

/-- What the pieces of an address say, of `http` or `https`. -/
def Standard.read (S : Standard) (p : Pieces) : Option Parts :=
  if schemePort p.scheme = none then none
  else
    (S.host p.host).bind fun host =>
      (readPort p.scheme p.port).map fun port =>
        { scheme := p.scheme
          user := readUser S.user (p.user.getD [])
          host
          port
          path := readPath S.path p.path
          query := p.query.map S.query.escape }

/-- The pieces that are written of it. -/
def Parts.pieces (v : Parts) : Pieces where
  scheme := v.scheme
  user := writeUser v.user
  host := v.host
  port := v.port.map fun n => (toString n).toList
  path := writePath v.path
  query := v.query

/-- **What an origin sees of an address**: the letters of scheme and host in one
case, the port that is meant, and the rest as it is written. -/
structure Seen where
  scheme : List Char
  user : Option (List Char)
  host : List Char
  port : Option ℕ
  path : List Char
  query : Option (List Char)
  deriving DecidableEq

/-- What an origin sees of these pieces. -/
def Pieces.seen (p : Pieces) : Seen where
  scheme := p.scheme
  user := p.user
  host := p.host.map lowerChar
  port := (p.port.bind Uri.parseU16).or (schemePort p.scheme)
  path := orSlash p.path
  query := p.query

/-- **Pieces with only one spelling**, up to letters and port. -/
structure Standard.Plain (S : Standard) (p : Pieces) : Prop where
  user : ∀ u ∈ p.user, PlainUser S.user u
  host : S.host p.host = some (p.host.map lowerChar)
  path : PlainPath S.path p.path
  query : ∀ q ∈ p.query, S.query.Keeps q

section Read

variable {S : Standard} {p : Pieces} {v : Parts}

/-- A number of a port is read as it is written, and any is the port that is meant. -/
theorem readPort_spec {scheme : List Char} {port : Option (List Char)} {q : Option ℕ}
    (h : readPort scheme port = some q) :
    (∀ ds ∈ port, ∀ c ∈ ds, c.isDigit = true) ∧
      (port.bind Uri.parseU16).or (schemePort scheme) = q.or (schemePort scheme) ∧
        (∀ n ∈ q, n < 2 ^ 16 ∧ schemePort scheme ≠ some n) := by
  rcases port with _ | ds
  · obtain rfl := Option.some.inj h
    exact ⟨by simp, rfl, by simp⟩
  · rw [readPort] at h
    split_ifs at h with hnil
    · obtain rfl := Option.some.inj h
      obtain rfl := hnil
      refine ⟨fun ds hds => ?_, rfl, by simp⟩
      rw [← Option.some.inj hds]
      simp
    · obtain ⟨n, hn, rfl⟩ := Option.map_eq_some_iff.mp h
      obtain ⟨hvalue, hlt⟩ := Option.filter_eq_some_iff.mp hn
      have hdigits : ∀ (ds : List Char) (acc : ℕ), digitsValue acc ds = some n →
          ∀ c ∈ ds, c.isDigit = true := by
        intro ds
        induction ds with
        | nil => simp
        | cons d ds ih =>
          intro acc hacc c hc
          rw [digitsValue] at hacc
          obtain ⟨hd, hacc⟩ := Option.ite_none_right_eq_some.mp hacc
          rcases List.mem_cons.mp hc with rfl | hc
          · exact hd
          · exact ih _ hacc c hc
      have hread : Uri.parseU16 ds = some n := by
        rcases ds with _ | ⟨d, ds⟩
        · exact absurd rfl hnil
        · have hplus : d ≠ '+' := by
            rintro rfl
            exact absurd (hdigits _ 0 hvalue '+' List.mem_cons_self) (by decide)
          have hbound : decide (n < u64Bound) = true := by
            have hlt := of_decide_eq_true hlt
            rw [decide_eq_true_iff, u64Bound]
            omega
          rw [Uri.parseU16, parseU64_cons hplus, hvalue, Option.filter_some, if_pos hbound,
            Option.filter_some, if_pos hlt]
      refine ⟨fun ds' hds => Option.some.inj hds ▸ hdigits ds 0 hvalue, ?_, ?_⟩
      · rw [Option.bind_some, hread]
        split_ifs with hscheme
        · exact hscheme.symm
        · rfl
      · intro m hm
        split_ifs at hm with hscheme
        · cases hm
        · obtain rfl := Option.some.inj hm
          exact ⟨of_decide_eq_true hlt, hscheme⟩

theorem readPort_toString {scheme : List Char} {n : ℕ} (hn : n < 2 ^ 16)
    (hscheme : schemePort scheme ≠ some n) :
    readPort scheme (some (toString n).toList) = some (some n) := by
  obtain ⟨hne, hdigits⟩ := toList_toString_nat n
  have hvalue : digitsValue 0 (toString n).toList = some n := by
    rw [digitsValue_eq hdigits, Nat.toString_eq_ofList_toDigits, String.toList_ofList,
      Nat.ofDigitChars_ten_toDigits]
  rw [readPort, if_neg hne, hvalue, Option.filter_some, if_pos (by simpa using hn), Option.map_some,
    if_neg hscheme]

/-- What an address that is read says, piece by piece. -/
theorem Standard.read_eq_some_iff : S.read p = some v ↔
    schemePort p.scheme ≠ none ∧ S.host p.host = some v.host ∧
      readPort p.scheme p.port = some v.port ∧ v.scheme = p.scheme ∧
        v.user = readUser S.user (p.user.getD []) ∧ v.path = readPath S.path p.path ∧
          v.query = p.query.map S.query.escape := by
  rw [Standard.read]
  constructor
  · intro h
    obtain ⟨hscheme, h⟩ := Option.ite_none_left_eq_some.mp h
    obtain ⟨host, hhost, h⟩ := Option.bind_eq_some_iff.mp h
    obtain ⟨port, hport, rfl⟩ := Option.map_eq_some_iff.mp h
    exact ⟨hscheme, hhost, hport, rfl, rfl, rfl, rfl⟩
  · rintro ⟨hscheme, hhost, hport, h₁, h₂, h₃, h₄⟩
    rw [if_neg hscheme, hhost, Option.bind_some, hport, Option.map_some, ← h₁, ← h₂, ← h₃, ← h₄]

theorem Pieces.Cut.apart (hcut : p.Cut) (h : S.read p = some v) : p.Apart := by
  obtain ⟨-, hhost, hport, -⟩ := Standard.read_eq_some_iff.mp h
  exact { hcut with host := (S.shape _ _ hhost).1, port := (readPort_spec hport).1 }

theorem endsHost_of_isAlphanum {c : Char} (h : c = '%' ∨ c.isAlphanum = true) :
    endsHost c = false ∧ c ≠ '#' := by
  have hne : ∀ d : Char, d ≠ '%' → d.isAlphanum = false → c ≠ d := by
    rintro d hpercent hd rfl
    exact h.elim hpercent fun hc => absurd (hc.symm.trans hd) (by decide)
  rw [endsHost, isSlash_eq_false_of_isAlphanum h, Bool.false_or, beq_eq_false_iff_ne]
  exact ⟨hne '?' (by decide) (by decide), hne '#' (by decide) (by decide)⟩

/-- Escaping brings in nothing that ends a host. -/
theorem endsHost_of_mem_escape {E : EscapeSet} {cs : List Char}
    (h : ∀ c ∈ cs, endsHost c = false ∧ c ≠ '#') :
    ∀ c ∈ E.escape cs, endsHost c = false ∧ c ≠ '#' := by
  intro c hc
  rcases EscapeSet.of_mem_escape hc with ⟨hc, -⟩ | hc
  · exact h c hc
  · exact endsHost_of_isAlphanum hc

/-- A name and a password are of the text they are read from. -/
theorem endsHost_of_mem_readUser {E : EscapeSet} {user : List Char}
    (h : ∀ c ∈ user, endsHost c = false ∧ c ≠ '#') :
    ∀ u ∈ writeUser (readUser E user), ∀ c ∈ u, endsHost c = false ∧ c ≠ '#' := by
  have hparts : (∀ c ∈ (readUser E user).1, endsHost c = false ∧ c ≠ '#') ∧
      ∀ c ∈ (readUser E user).2, endsHost c = false ∧ c ≠ '#' := by
    rw [readUser]
    split
    · rename_i name password hsplit
      have huser := eq_append_of_splitOnce hsplit
      refine ⟨endsHost_of_mem_escape fun c hc => h c ?_, endsHost_of_mem_escape fun c hc => h c ?_⟩
      · rw [huser]
        exact List.mem_append_left _ hc
      · rw [huser]
        exact List.mem_append_right _ (List.mem_cons_of_mem _ hc)
    · exact ⟨endsHost_of_mem_escape h, fun _ hc => nomatch hc⟩
  intro u hu c hc
  rw [writeUser] at hu
  split_ifs at hu with hnone hempty
  · exact nomatch hu
  · obtain rfl := Option.some.inj hu
    exact hparts.1 c hc
  · obtain rfl := Option.some.inj hu
    rcases List.mem_append.mp hc with hc | hc
    · exact hparts.1 c hc
    · rcases List.mem_cons.mp hc with rfl | hc
      · decide
      · exact hparts.2 c hc

/-- The characters of a path that is written. -/
theorem of_mem_writePath_readPath {E : EscapeSet} {path : List Char} {d : Char}
    (hd : d ∉ path) (hslash : d ≠ '/') (hpercent : d ≠ '%') (halnum : d.isAlphanum = false) :
    d ∉ writePath (readPath E path) := by
  have hadd : ∀ (segments out : List (List Char)), (∀ s ∈ out, d ∉ s) → (∀ s ∈ segments, d ∉ s) →
      ∀ s ∈ addSegments E out segments, d ∉ s := by
    intro segments
    induction segments with
    | nil => exact fun out hout _ => hout
    | cons segment rest ih =>
      intro out hout hsegments
      refine ih _ (fun s hs => ?_) fun s hs => hsegments s (List.mem_cons_of_mem _ hs)
      have hdrop : ∀ s ∈ out.dropLast, d ∉ s := fun s hs =>
        hout s ((List.dropLast_sublist _).subset hs)
      have hlast : ∀ l : List (List Char), (∀ s ∈ l, d ∉ s) → ∀ t, d ∉ t → ∀ s ∈ l ++ [t], d ∉ s := by
        intro l hl t ht s hs
        rcases List.mem_append.mp hs with hs | hs
        · exact hl s hs
        · exact List.mem_singleton.mp hs ▸ ht
      have hescape : d ∉ E.escape segment := by
        intro hm
        rcases EscapeSet.of_mem_escape hm with ⟨hm, -⟩ | hm | hm
        · exact hsegments segment List.mem_cons_self hm
        · exact hpercent hm
        · exact absurd (hm.symm.trans halnum) (by decide)
      rw [addSegment] at hs
      split_ifs at hs
      · exact hlast _ hdrop [] List.not_mem_nil s hs
      · exact hdrop s hs
      · exact hlast _ hout [] List.not_mem_nil s hs
      · exact hout s hs
      · exact hlast _ hout _ hescape s hs
  intro hm
  obtain ⟨s, hs, hm⟩ := List.mem_flatMap.mp hm
  refine hadd _ [] nofun (fun t ht hd' => hd ?_) s hs
    ((List.mem_cons.mp hm).resolve_left hslash)
  exact List.mem_of_mem_drop (Separated.of_mem_splitOnP _ t ht d hd').2

/-- **What is written can be told apart again.** -/
theorem Standard.apart_pieces (hcut : p.Cut) (h : S.read p = some v) : v.pieces.Apart := by
  obtain ⟨hscheme, hhost, hport, hv, huser, hpath, hquery⟩ := Standard.read_eq_some_iff.mp h
  refine { scheme := ?_, lower := ?_, user := ?_, path := ?_, begins := ?_, query := ?_,
           host := (S.shape _ _ hhost).2, port := ?_ }
  · rw [Parts.pieces, hv]
    exact hcut.scheme
  · rw [Parts.pieces, hv]
    exact hcut.lower
  · rw [Parts.pieces, huser]
    refine endsHost_of_mem_readUser fun c hc => ?_
    rcases hwritten : p.user with _ | u
    · rw [hwritten] at hc
      exact nomatch hc
    · rw [hwritten] at hc
      exact hcut.user u hwritten c hc
  · rw [Parts.pieces, hpath]
    intro c hc
    constructor
    · rintro rfl
      exact of_mem_writePath_readPath (fun hm => (hcut.path _ hm).1 rfl) (by decide) (by decide)
        (by decide) hc
    · rintro rfl
      exact of_mem_writePath_readPath (fun hm => (hcut.path _ hm).2 rfl) (by decide) (by decide)
        (by decide) hc
  · rw [Parts.pieces, hpath]
    obtain ⟨first, rest, hsegments⟩ := List.exists_cons_of_ne_nil (plain_readPath S.path p.path).2
    rw [hsegments]
    exact fun c hc => (Option.some.inj hc).symm
  · rw [Parts.pieces, hquery]
    intro q hq hm
    obtain ⟨text, htext, rfl⟩ := Option.map_eq_some_iff.mp hq
    rcases EscapeSet.of_mem_escape hm with ⟨hm, -⟩ | hm
    · exact hcut.query text htext hm
    · exact absurd hm (by decide)
  · rintro q hq c hc
    obtain ⟨n, -, rfl⟩ := Option.map_eq_some_iff.mp hq
    exact (toList_toString_nat n).2 c hc

/-- **What is written says the same.** -/
theorem Standard.read_pieces (h : S.read p = some v) : S.read v.pieces = some v := by
  obtain ⟨hscheme, hhost, hport, hv, huser, hpath, hquery⟩ := Standard.read_eq_some_iff.mp h
  have hkeeps := keeps_readUser S.user (p.user.getD [])
  have hcolon := colon_not_mem_readUser S.user (p.user.getD [])
  refine Standard.read_eq_some_iff.mpr ⟨?_, S.again _ _ hhost, ?_, rfl, ?_, ?_, ?_⟩
  · rwa [Parts.pieces, hv]
  · obtain ⟨-, -, hnumber⟩ := readPort_spec hport
    rw [Parts.pieces, hv]
    rcases hwritten : v.port with _ | n
    · rfl
    · obtain ⟨hlt, hne⟩ := hnumber n hwritten
      exact readPort_toString hlt hne
  · rw [Parts.pieces, huser]
    exact (readUser_writeUser hkeeps.1 hkeeps.2 hcolon).symm
  · rw [Parts.pieces, hpath, readPath_writePath]
  · rw [Parts.pieces, hquery, Option.map_map]
    exact Option.map_congr fun q _ => (S.query.escape_escape q).symm

/-- **An origin sees no difference exactly where there is only one spelling.** -/
theorem Standard.seen_pieces_iff (hcut : p.Cut) (h : S.read p = some v) :
    v.pieces.seen = p.seen ↔ S.Plain p := by
  obtain ⟨hscheme, hhost, hport, hv, huser, hpath, hquery⟩ := Standard.read_eq_some_iff.mp h
  obtain ⟨-, hmeant, hnumber⟩ := readPort_spec hport
  have hport' : (v.pieces.port.bind Uri.parseU16).or (schemePort v.scheme) =
      (p.port.bind Uri.parseU16).or (schemePort p.scheme) := by
    rw [hmeant, hv, Parts.pieces]
    rcases hwritten : v.port with _ | n
    · rfl
    · rw [Option.map_some, Option.bind_some, Uri.parseU16_toString (hnumber n hwritten).1]
  have hslash : orSlash v.pieces.path = writePath (readPath S.path p.path) := by
    obtain ⟨first, rest, hsegments⟩ := List.exists_cons_of_ne_nil (plain_readPath S.path p.path).2
    rw [Parts.pieces, hpath, hsegments]
    exact if_neg (List.cons_ne_nil _ _)
  have hseen : v.pieces.seen = p.seen ↔ writeUser v.user = p.user ∧
      v.host.map lowerChar = p.host.map lowerChar ∧
        writePath (readPath S.path p.path) = orSlash p.path ∧ v.query = p.query := by
    rw [Pieces.seen, Pieces.seen, Seen.mk.injEq, hslash]
    exact ⟨fun ⟨_, h₁, h₂, _, h₃, h₄⟩ => ⟨h₁, h₂, h₃, h₄⟩,
      fun ⟨h₁, h₂, h₃, h₄⟩ => ⟨hv, h₁, h₂, hport', h₃, h₄⟩⟩
  have huser' : writeUser v.user = p.user ↔ ∀ u ∈ p.user, PlainUser S.user u := by
    rw [huser]
    rcases p.user with _ | u
    · exact iff_of_true rfl nofun
    · rw [Option.getD_some, writeUser_readUser_iff]
      exact ⟨fun h u hu => Option.some.inj hu ▸ h, fun h => h u rfl⟩
  have hhost' : v.host.map lowerChar = p.host.map lowerChar ↔
      S.host p.host = some (p.host.map lowerChar) := by
    rw [S.lower _ _ hhost, hhost, Option.some.injEq]
  have hquery' : v.query = p.query ↔ ∀ q ∈ p.query, S.query.Keeps q := by
    rw [hquery]
    rcases p.query with _ | q
    · exact iff_of_true rfl nofun
    · rw [Option.map_some, Option.some.injEq, EscapeSet.escape_eq_self_iff]
      exact ⟨fun h q hq => Option.some.inj hq ▸ h, fun h => h q rfl⟩
  rw [hseen, huser', hhost', writePath_readPath_iff hcut.begins, hquery']
  exact ⟨fun ⟨h₁, h₂, h₃, h₄⟩ => ⟨h₁, h₂, h₃, h₄⟩, fun ⟨h₁, h₂, h₃, h₄⟩ => ⟨h₁, h₂, h₃, h₄⟩⟩

end Read

end Syndeo.Spelling
