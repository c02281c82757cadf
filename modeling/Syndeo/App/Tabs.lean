import Mathlib.Data.List.ModifyLast
import Syndeo.App.Address

/-!
# The session kept from one launch to the next

The session holds the address and title of each open tab, window by window, and which
one of them was in front. Some of them cannot be opened again and are left out, which
changes the places of the others. The tab in front is found again by its **value**:
its new place is that of the first tab like it.

So the tabs that stay are always the ones that may, in order, and the tab in front
stays in front exactly if no tab before it is just like it
(`Syndeo.App.inPlace_kept_iff`). In the file the session is lines, and reading them
back is what writing them had left out
(`Syndeo.App.fromText_toText`).
-/

namespace Syndeo

open Text

namespace App

/-! ### What is kept -/

/-- `SavedTab`. -/
structure SavedTab where
  address : String
  title : String
  pinned : Bool
  deriving DecidableEq

/-- `SavedWindow`. -/
@[ext] structure SavedWindow where
  tabs : List SavedTab
  selected : ℕ
  deriving DecidableEq

/-- `Session`. -/
@[ext] structure Session where
  windows : List SavedWindow
  deriving DecidableEq

section

variable (parse : String → Option Url)

/-- `savable`. -/
def savable (address : String) : Bool :=
  -- the schemes are ASCII, so as many bytes of the address are as many characters
  let written := ["http://", "https://"].any fun scheme =>
    eqIgnoreAsciiCase (String.ofList (address.toList.take scheme.length)) scheme
  written && match interpret parse (fun _ => none) address with
    | .load url => url.scheme == "http" || url.scheme == "https"
    | _ => false

/-- The tab may be opened again. -/
def SavedTab.savable (tab : SavedTab) : Bool := App.savable parse tab.address

/-- Only the tabs that pass, with the one in front found again among them. -/
def SavedWindow.only (passes : SavedTab → Bool) (window : SavedWindow) : SavedWindow :=
  let selected := window.tabs[window.selected]?
  let tabs := window.tabs.filter passes
  { tabs, selected := (selected.bind fun tab => tabs.findIdx? (· == tab)).getD 0 }

/-- `Session::kept`. -/
def Session.kept (self : Session) : Session where
  windows := (self.windows.map (SavedWindow.only (SavedTab.savable parse))).filter fun window =>
    !window.tabs.isEmpty

/-- `Session::without_pinned`. -/
def Session.withoutPinned (self : Session) : Session :=
  Session.kept parse ⟨self.windows.map (SavedWindow.only fun tab => !tab.pinned)⟩

end

/-! ### The tab in front -/

/-- **In place**: exactly the tabs that pass, in order; and the tab that was in front, if
it is one of them, is in front at its own place. -/
def SavedWindow.InPlace (passes : SavedTab → Bool) (before after : SavedWindow) : Prop :=
  after.tabs = before.tabs.filter passes ∧
    ∀ tab, before.tabs[before.selected]? = some tab → passes tab = true →
      after.selected = ((before.tabs.take before.selected).filter passes).length

/-- In place, in each window that has a tab that passes. -/
def Session.InPlace (passes : SavedTab → Bool) (before after : Session) : Prop :=
  List.Forall₂ (SavedWindow.InPlace passes)
    (before.windows.filter fun window => window.tabs.any passes) after.windows

/-- No tab before the one in front is just like it, if that one passes. -/
def SavedWindow.Distinct (passes : SavedTab → Bool) (window : SavedWindow) : Prop :=
  ∀ tab, window.tabs[window.selected]? = some tab → passes tab = true →
    tab ∉ window.tabs.take window.selected

variable {passes others : SavedTab → Bool} {window : SavedWindow}

/-- Found by its value among those that pass, an element is at the place of the first
like it. -/
theorem findIdx?_filter {α : Type} [DecidableEq α] {p : α → Bool} {a : α} (hp : p a = true) :
    ∀ {l : List α} {i : ℕ}, l[i]? = some a →
      ∃ n, (l.filter p).findIdx? (· == a) = some n ∧ (l.filter p)[n]? = some a ∧
        (n = ((l.take i).filter p).length ↔ a ∉ l.take i)
  | [], i, h => by simp at h
  | b :: l, 0, h => by
    obtain rfl : b = a := by simpa using h
    exact ⟨0, by simp [hp, List.findIdx?_cons], by simp [hp], by simp⟩
  | b :: l, i + 1, h => by
    obtain ⟨n, hfind, hat, hiff⟩ := findIdx?_filter hp (by simpa using h : l[i]? = some a)
    rcases eq_or_ne b a with rfl | hb
    · exact ⟨0, by simp [hp, List.findIdx?_cons], by simp [hp], by simp [hp]⟩
    · rcases hpass : p b with _ | _
      · exact ⟨n, by simpa [hpass] using hfind, by simpa [hpass] using hat,
          by simpa [hpass, hb.symm] using hiff⟩
      · refine ⟨n + 1, ?_, ?_, ?_⟩
        · simp [hpass, List.findIdx?_cons, hb, hfind]
        · simpa [hpass] using hat
        · simpa [hpass, hb.symm] using hiff

theorem only_tabs : (window.only passes).tabs = window.tabs.filter passes := rfl

/-- Where the tab in front goes, if it passes. -/
theorem selected_only {tab : SavedTab} (htab : window.tabs[window.selected]? = some tab)
    (hpass : passes tab = true) :
    (window.only passes).tabs[(window.only passes).selected]? = some tab ∧
      ((window.only passes).selected = ((window.tabs.take window.selected).filter passes).length ↔
        tab ∉ window.tabs.take window.selected) := by
  obtain ⟨n, hfind, hat, hiff⟩ := findIdx?_filter hpass htab
  have hselected : (window.only passes).selected = n := by simp [SavedWindow.only, htab, hfind]
  rw [hselected]
  exact ⟨hat, hiff⟩

/-- **In place exactly if nothing before it is just like it.** -/
theorem inPlace_only_iff : window.InPlace passes (window.only passes) ↔ window.Distinct passes := by
  constructor
  · rintro ⟨-, h⟩ tab htab hpass
    exact (selected_only htab hpass).2.mp (h tab htab hpass)
  · intro h
    exact ⟨rfl, fun tab htab hpass => (selected_only htab hpass).2.mpr (h tab htab hpass)⟩

/-- Two filterings are one, where the tab in front passes the first. -/
theorem only_only {tab : SavedTab} (htab : window.tabs[window.selected]? = some tab)
    (hother : others tab = true) :
    (window.only others).only passes = window.only fun tab => passes tab && others tab := by
  refine SavedWindow.ext ?_ ?_
  · rw [only_tabs, only_tabs, only_tabs, List.filter_filter]
  · have hat := (selected_only htab hother).1
    simp only [SavedWindow.only, List.filter_filter] at hat ⊢
    rw [hat, htab]

/-- So two filterings leave the tab in front in place exactly if one does. -/
theorem inPlace_only_only_iff :
    window.InPlace (fun tab => passes tab && others tab) ((window.only others).only passes) ↔
      window.Distinct fun tab => passes tab && others tab := by
  by_cases hfront : ∃ tab, window.tabs[window.selected]? = some tab ∧ others tab = true
  · obtain ⟨tab, htab, hother⟩ := hfront
    rw [only_only htab hother]
    exact inPlace_only_iff
  · have hnot : ∀ tab, window.tabs[window.selected]? = some tab →
        ¬(passes tab && others tab) = true := by
      intro tab htab hpass
      exact hfront ⟨tab, htab, (Bool.and_eq_true_iff.mp hpass).2⟩
    constructor
    · intro _ tab htab hpass
      exact absurd hpass (hnot tab htab)
    · intro _
      refine ⟨?_, fun tab htab hpass => absurd hpass (hnot tab htab)⟩
      rw [only_tabs, only_tabs, List.filter_filter]

/-- Window by window, with those left out that have no tab that passes. -/
theorem inPlace_iff_of_forall {f : SavedWindow → SavedWindow}
    (htabs : ∀ window, (f window).tabs = window.tabs.filter passes)
    (h : ∀ window : SavedWindow, window.InPlace passes (f window) ↔ window.Distinct passes) (s : Session) :
    s.InPlace passes ⟨(s.windows.map f).filter fun window => !window.tabs.isEmpty⟩ ↔
      ∀ window ∈ s.windows, window.Distinct passes := by
  have hstays : ((fun window => !window.tabs.isEmpty) ∘ f) =
      fun window => window.tabs.any passes := by
    funext window
    rw [Function.comp_apply, htabs]
    exact Bool.eq_iff_iff.mpr (by simp)
  rw [Session.InPlace, List.filter_map, hstays, List.forall₂_map_right_iff, List.forall₂_same]
  constructor
  · intro hin window hmem tab htab hpass
    refine (h window).mp (hin window (List.mem_filter.mpr ⟨hmem, ?_⟩)) tab htab hpass
    exact List.any_eq_true.mpr ⟨tab, List.mem_of_getElem? htab, hpass⟩
  · intro hdistinct window hmem
    exact (h window).mpr (hdistinct window (List.mem_filter.mp hmem).1)

/-- **The tab in front stays in front** exactly if no tab before it is just like it, of a
session with what can be opened again, and of one without its pinned tabs as well. -/
theorem inPlace_kept_iff (parse : String → Option Url) (s : Session) :
    (s.InPlace (SavedTab.savable parse) (s.kept parse) ↔
        ∀ window ∈ s.windows, window.Distinct (SavedTab.savable parse)) ∧
      (s.InPlace (fun tab => tab.savable parse && !tab.pinned) (s.withoutPinned parse) ↔
        ∀ window ∈ s.windows, window.Distinct fun tab => tab.savable parse && !tab.pinned) := by
  constructor
  · exact inPlace_iff_of_forall (fun _ => rfl) (fun _ => inPlace_only_iff) s
  · rw [Session.withoutPinned, Session.kept, List.map_map]
    refine inPlace_iff_of_forall (fun window => ?_) (fun _ => inPlace_only_only_iff) s
    rw [only_tabs, only_tabs, List.filter_filter]

/-- Two tabs alike, of which the second was in front: the first is. -/
theorem not_inPlace_kept :
    ¬Session.InPlace (SavedTab.savable fun _ => some ⟨"https", some (.domain "a.example")⟩)
      ⟨[⟨[⟨"https://a.example/", "A", false⟩, ⟨"https://a.example/", "A", false⟩], 1⟩]⟩
      (Session.kept (fun _ => some ⟨"https", some (.domain "a.example")⟩)
        ⟨[⟨[⟨"https://a.example/", "A", false⟩, ⟨"https://a.example/", "A", false⟩], 1⟩]⟩) := by
  intro h
  have hdistinct := (inPlace_iff_of_forall (fun _ => rfl) (fun _ => inPlace_only_iff) _).mp h
    _ (List.mem_singleton.mpr rfl) ⟨"https://a.example/", "A", false⟩ rfl (by decide +kernel)
  exact hdistinct (by decide)

/-! ### The file -/

/-- `SESSION_HEADER`. -/
def sessionHeader : List Char := "syndeo-session 1".toList

/-- `SESSION_WINDOWS`. -/
def sessionWindows : ℕ := 50

/-- `SESSION_TABS`. -/
def sessionTabs : ℕ := 500

/-- One line's text, on the characters. -/
def oneLineChars (text : List Char) : List Char := text.map fun c => if isControl c then ' ' else c

/-- `one_line`. -/
def oneLine (text : String) : String := String.ofList (oneLineChars text.toList)

/-- The line of a tab. -/
def SavedTab.line (tab : SavedTab) : List Char :=
  "tab".toList ++ '\t' :: ((if tab.pinned then "pinned".toList else "-".toList) ++
    '\t' :: (oneLineChars tab.address.toList ++ '\t' :: oneLineChars tab.title.toList))

/-- The lines of a window. -/
def SavedWindow.lines (window : SavedWindow) : List (List Char) :=
  ("window".toList ++ '\t' :: (toString window.selected).toList) :: window.tabs.map SavedTab.line

/-- `Session::to_text`. -/
def Session.toText (self : Session) : String :=
  String.ofList (Separated.terminated '\n' (sessionHeader :: self.windows.flatMap SavedWindow.lines))

/-- A tab goes into the window, if there is room. -/
def SavedWindow.push (tab : SavedTab) (window : SavedWindow) : SavedWindow :=
  if window.tabs.length < sessionTabs then { window with tabs := window.tabs ++ [tab] } else window

/-- The loop of `from_text`: a window there is no room for ends it, and a line that is
not one `to_text` writes is passed over. -/
def parseLines (windows : List SavedWindow) : List (List Char) → List SavedWindow
  | [] => windows
  | line :: rest =>
    match line.splitOn '\t' with
    | [kind, selected] =>
      if kind = "window".toList then
        if windows.length = sessionWindows then windows
        else parseLines (windows ++ [⟨[], (parseU64 selected).getD 0⟩]) rest
      else parseLines windows rest
    | [kind, pin, address, title] =>
      if kind = "tab".toList ∧ (pin = "pinned".toList ∨ pin = "-".toList) then
        parseLines (windows.modifyLast (SavedWindow.push
          ⟨String.ofList address, String.ofList title, pin == "pinned".toList⟩)) rest
      else parseLines windows rest
    | _ => parseLines windows rest

/-- The tab in front is one of the window's. -/
def SavedWindow.inBounds (window : SavedWindow) : SavedWindow :=
  { window with selected := if window.tabs.length ≤ window.selected then 0 else window.selected }

/-- `Session::from_text`. -/
def Session.fromText (parse : String → Option Url) (text : String) : Session :=
  match Text.lines text.toList with
  | [] => ⟨[]⟩
  | header :: rest =>
    if header = sessionHeader then
      Session.kept parse ⟨(parseLines [] rest).map SavedWindow.inBounds⟩
    else ⟨[]⟩

/-- With the control characters of its title replaced by spaces. -/
def SavedTab.oneLined (tab : SavedTab) : SavedTab := { tab with title := oneLine tab.title }

/-- In every tab of it. -/
def SavedWindow.oneLined (window : SavedWindow) : SavedWindow :=
  { window with tabs := window.tabs.map SavedTab.oneLined }

/-- In every window of it. -/
def Session.oneLined (self : Session) : Session := ⟨self.windows.map SavedWindow.oneLined⟩

/-- It fits the file: no more windows and tabs than are read back, and no control
character in an address. -/
def Session.Fits (self : Session) : Prop :=
  self.windows.length ≤ sessionWindows ∧ ∀ window ∈ self.windows,
    window.tabs.length ≤ sessionTabs ∧
      ∀ tab ∈ window.tabs, ∀ c ∈ tab.address.toList, isControl c = false

variable {parse : String → Option Url}

/-! ### Reading back what was written -/

theorem not_mem_of_isControl {text : List Char} (h : ∀ c ∈ text, isControl c = false) {c : Char}
    (hc : isControl c = true) : c ∉ text := by
  intro hmem
  rw [h c hmem] at hc
  exact nomatch hc

theorem not_mem_oneLineChars {text : List Char} {c : Char} (hc : isControl c = true) :
    c ∉ oneLineChars text := by
  intro h
  obtain ⟨d, -, hd⟩ := List.mem_map.mp h
  split_ifs at hd with hcontrol
  · rw [← hd] at hc
    exact absurd hc (by decide)
  · exact hcontrol (hd ▸ hc)

theorem oneLineChars_eq_self {text : List Char} (h : ∀ c ∈ text, isControl c = false) :
    oneLineChars text = text := by
  rw [oneLineChars, List.map_congr_left fun c hc => if_neg (by rw [h c hc]; exact nofun)]
  exact List.map_id' text

/-- The fields of a tab's line. -/
theorem splitOn_line (tab : SavedTab) : tab.line.splitOn '\t' =
    ["tab".toList, if tab.pinned then "pinned".toList else "-".toList,
      oneLineChars tab.address.toList, oneLineChars tab.title.toList] := by
  have hpin : '\t' ∉ (if tab.pinned then "pinned".toList else "-".toList) := by
    split_ifs <;> decide
  rw [SavedTab.line, List.splitOn_append_cons_self_of_not_mem (by decide),
    List.splitOn_append_cons_self_of_not_mem hpin,
    List.splitOn_append_cons_self_of_not_mem (not_mem_oneLineChars (by decide)),
    List.splitOn_eq_singleton (not_mem_oneLineChars (by decide))]

/-- The tabs of a window are read one by one. -/
theorem parseLines_tabs {windows : List SavedWindow} {rest : List (List Char)} :
    ∀ {tabs : List SavedTab} {window : SavedWindow},
      window.tabs.length + tabs.length ≤ sessionTabs →
      (∀ tab ∈ tabs, ∀ c ∈ tab.address.toList, isControl c = false) →
      parseLines (windows ++ [window]) (tabs.map SavedTab.line ++ rest) =
        parseLines (windows ++ [{ window with tabs := window.tabs ++ tabs.map SavedTab.oneLined }])
          rest
  | [], window, _, _ => by simp
  | tab :: tabs, window, hroom, haddress => by
    have hread : (⟨String.ofList (oneLineChars tab.address.toList),
        String.ofList (oneLineChars tab.title.toList),
        (if tab.pinned then "pinned".toList else "-".toList) == "pinned".toList⟩ : SavedTab) =
          tab.oneLined := by
      rw [oneLineChars_eq_self (haddress tab List.mem_cons_self), String.ofList_toList]
      rcases tab with ⟨address, title, _ | _⟩ <;> rfl
    have hpush : window.push tab.oneLined = { window with tabs := window.tabs ++ [tab.oneLined] } :=
      if_pos (by simp only [List.length_cons] at hroom; omega)
    have hpin : (if tab.pinned then "pinned".toList else "-".toList) = "pinned".toList ∨
        (if tab.pinned then "pinned".toList else "-".toList) = "-".toList := by
      split_ifs
      · exact Or.inl rfl
      · exact Or.inr rfl
    rw [List.map_cons, List.cons_append, parseLines, splitOn_line]
    dsimp only
    rw [if_pos ⟨rfl, hpin⟩, hread, List.modifyLast_concat, hpush,
      parseLines_tabs (by simpa [Nat.add_assoc, Nat.add_comm 1] using hroom)
        fun t ht => haddress t (List.mem_cons_of_mem _ ht)]
    simp

/-- A window as it is read, before its place in front is looked at. -/
def SavedWindow.asRead (window : SavedWindow) : SavedWindow :=
  ⟨window.tabs.map SavedTab.oneLined, (parseU64 (toString window.selected).toList).getD 0⟩

/-- The windows are read one by one. -/
theorem parseLines_windows : ∀ {written read : List SavedWindow},
    read.length + written.length ≤ sessionWindows →
    (∀ window ∈ written, window.tabs.length ≤ sessionTabs ∧
      ∀ tab ∈ window.tabs, ∀ c ∈ tab.address.toList, isControl c = false) →
    parseLines read (written.flatMap SavedWindow.lines) = read ++ written.map SavedWindow.asRead
  | [], read, _, _ => by simp [parseLines]
  | window :: written, read, hroom, hfits => by
    obtain ⟨htabs, haddress⟩ := hfits window List.mem_cons_self
    have hsplit : ("window".toList ++ '\t' :: (toString window.selected).toList).splitOn '\t' =
        ["window".toList, (toString window.selected).toList] := by
      rw [List.splitOn_append_cons_self_of_not_mem (by decide), List.splitOn_eq_singleton]
      intro htab
      exact absurd ((toList_toString_nat _).2 _ htab) (by decide)
    have hplace : read.length ≠ sessionWindows := by
      simp only [List.length_cons] at hroom
      omega
    rw [List.flatMap_cons, SavedWindow.lines, List.cons_append, parseLines, hsplit]
    dsimp only
    rw [if_pos rfl, if_neg hplace, parseLines_tabs (by simpa using htabs) haddress,
      List.nil_append, parseLines_windows (by simpa [Nat.add_assoc, Nat.add_comm 1] using hroom)
        fun w hw => hfits w (List.mem_cons_of_mem _ hw), List.map_cons, List.append_assoc]
    rfl

/-- With the first of the tabs in front, the first of those that pass is. -/
theorem selected_only_zero (tabs : List SavedTab) :
    ((SavedWindow.mk tabs 0).only passes).selected = 0 := by
  rcases tabs with _ | ⟨tab, tabs⟩
  · rfl
  · rcases hpass : passes tab with _ | _
    · have hnone : (tabs.filter passes).findIdx? (· == tab) = none := by
        rw [List.findIdx?_eq_none_iff]
        intro other hother
        refine beq_eq_false_iff_ne.mpr fun heq => ?_
        rw [heq, List.mem_filter, hpass] at hother
        exact nomatch hother.2
      simp [SavedWindow.only, hpass, hnone]
    · simp [SavedWindow.only, hpass, List.findIdx?_cons]

/-- With none in front, the same. -/
theorem selected_only_of_le (h : window.tabs.length ≤ window.selected) :
    (window.only passes).selected = 0 := by
  simp [SavedWindow.only, List.getElem?_eq_none h]

/-- A place that is not one of the window's reads as the first. -/
theorem selected_inBounds_asRead (h : window.tabs.length ≤ window.selected) :
    window.asRead.inBounds.selected = 0 := by
  have hlen : window.asRead.tabs.length = window.tabs.length := List.length_map _
  have hselected : window.asRead.selected = 0 ∨ window.asRead.selected = window.selected := by
    rw [SavedWindow.asRead, parseU64_toString_eq, Option.filter_some]
    split_ifs
    · exact Or.inr rfl
    · exact Or.inl rfl
  rw [SavedWindow.inBounds]
  rcases hselected with hzero | hsame
  · dsimp only
    rw [hzero, ite_self]
  · exact if_pos (by rw [hsame, hlen]; exact h)

/-- A window as it is read keeps what the window keeps. -/
theorem only_inBounds_asRead (hroom : window.tabs.length ≤ sessionTabs) :
    window.asRead.inBounds.only passes = window.oneLined.only passes := by
  refine SavedWindow.ext rfl ?_
  rcases Nat.lt_or_ge window.selected window.tabs.length with h | h
  · -- the place is small, so it is read as it was written
    have hread : parseU64 (toString window.selected).toList = some window.selected :=
      parseU64_toString (lt_of_lt_of_le h (le_trans hroom (by decide)))
    have heq : window.asRead.inBounds = window.oneLined := by
      refine SavedWindow.ext rfl ?_
      rw [SavedWindow.inBounds, SavedWindow.asRead, hread]
      exact if_neg (by simpa using h)
    rw [heq]
  · have hlen : window.oneLined.tabs.length = window.tabs.length := List.length_map _
    have hfirst : window.asRead.inBounds = ⟨window.oneLined.tabs, 0⟩ :=
      SavedWindow.ext rfl (selected_inBounds_asRead h)
    have hkept : (window.oneLined.only passes).selected = 0 :=
      selected_only_of_le (by rw [hlen]; exact h)
    rw [hkept, hfirst]
    exact selected_only_zero _

/-- No line of the file has a control character but the tabs between its fields. -/
theorem eq_tab_of_mem_lines {line : List Char} (hline : line ∈ window.lines) {c : Char}
    (hc : c ∈ line) (hcontrol : isControl c = true) : c = '\t' := by
  rcases List.mem_cons.mp hline with rfl | hline
  · rcases List.mem_append.mp hc with hc | hc
    · exact absurd hc (not_mem_of_isControl (by decide) hcontrol)
    · rcases List.mem_cons.mp hc with rfl | hc
      · rfl
      · have hdigit := isDigit_iff.mp ((toList_toString_nat _).2 _ hc)
        simp only [isControl, Bool.or_eq_true, Bool.and_eq_true, decide_eq_true_eq] at hcontrol
        omega
  · obtain ⟨tab, -, rfl⟩ := List.mem_map.mp hline
    have hpin : ∀ c ∈ (if tab.pinned then "pinned".toList else "-".toList), isControl c = false := by
      split_ifs <;> decide
    simp only [SavedTab.line, List.mem_append, List.mem_cons] at hc
    rcases hc with hc | hc | hc | hc | hc | hc | hc
    · exact absurd hc (not_mem_of_isControl (by decide) hcontrol)
    · exact hc
    · exact absurd hc (not_mem_of_isControl hpin hcontrol)
    · exact hc
    · exact absurd hc (not_mem_oneLineChars hcontrol)
    · exact hc
    · exact absurd hc (not_mem_oneLineChars hcontrol)

/-- **What is read back**, of a session that fits, is what is kept of it, on one line. -/
theorem fromText_toText_of_fits {s : Session} (hfits : s.Fits) :
    Session.fromText parse s.toText = s.oneLined.kept parse := by
  have hbare : ∀ c, c ≠ '\t' → isControl c = true →
      ∀ line ∈ sessionHeader :: s.windows.flatMap SavedWindow.lines, c ∉ line := by
    intro c hc hcontrol line hline hmem
    rcases List.mem_cons.mp hline with rfl | hline
    · exact absurd hmem (not_mem_of_isControl (by decide) hcontrol)
    · obtain ⟨window, -, hline⟩ := List.mem_flatMap.mp hline
      exact hc (eq_tab_of_mem_lines hline hmem hcontrol)
  have hlines : Text.lines s.toText.toList =
      sessionHeader :: s.windows.flatMap SavedWindow.lines := by
    rw [Session.toText, String.toList_ofList]
    exact lines_terminated (hbare '\n' (by decide) (by decide)) (hbare '\r' (by decide) (by decide))
  rw [Session.fromText, hlines]
  dsimp only
  rw [if_pos rfl, parseLines_windows (by simpa using hfits.1) hfits.2, List.nil_append]
  refine Session.ext (congrArg (List.filter _) ?_)
  rw [Session.oneLined, List.map_map, List.map_map, List.map_map]
  exact List.map_congr_left fun window hwindow => only_inBounds_asRead (hfits.2 window hwindow).1

/-! ### Reading a damaged file -/

/-- What is read stays within the bounds. -/
def InRoom (windows : List SavedWindow) : Prop :=
  windows.length ≤ sessionWindows ∧ ∀ window ∈ windows, window.tabs.length ≤ sessionTabs

theorem length_push_le {tab : SavedTab} (h : window.tabs.length ≤ sessionTabs) :
    (window.push tab).tabs.length ≤ sessionTabs := by
  rw [SavedWindow.push]
  split_ifs with hroom
  · simpa using Nat.succ_le_of_lt hroom
  · exact h

theorem inRoom_modifyLast {windows : List SavedWindow} (h : InRoom windows) (tab : SavedTab) :
    InRoom (windows.modifyLast (SavedWindow.push tab)) := by
  rcases windows.eq_nil_or_concat with rfl | ⟨init, last, rfl⟩
  · exact h
  · rw [List.concat_eq_append, List.modifyLast_concat]
    rw [List.concat_eq_append] at h
    refine ⟨by simpa using h.1, fun window hwindow => ?_⟩
    rcases List.mem_append.mp hwindow with hinit | hlast
    · exact h.2 window (List.mem_append_left _ hinit)
    · obtain rfl := List.mem_singleton.mp hlast
      exact length_push_le (h.2 last (by simp))

/-- **Any lines** are read within the bounds. -/
theorem inRoom_parseLines : ∀ {lines : List (List Char)} {windows : List SavedWindow},
    InRoom windows → InRoom (parseLines windows lines)
  | [], _, h => h
  | line :: rest, windows, h => by
    rw [parseLines]
    split
    · split_ifs with hkind hfull
      · exact h
      · refine inRoom_parseLines ⟨?_, fun window hwindow => ?_⟩
        · have := h.1
          simp only [List.length_append, List.length_singleton]
          omega
        · rcases List.mem_append.mp hwindow with hold | hnew
          · exact h.2 window hold
          · obtain rfl := List.mem_singleton.mp hnew
            exact Nat.zero_le _
      · exact inRoom_parseLines h
    · split_ifs
      · exact inRoom_parseLines (inRoom_modifyLast h _)
      · exact inRoom_parseLines h
    · exact inRoom_parseLines h

/-- A window with a tab that stays has one of them in front. -/
theorem selected_only_lt (h : (window.only passes).tabs ≠ []) :
    (window.only passes).selected < (window.only passes).tabs.length := by
  have hpos : 0 < (window.only passes).tabs.length := List.length_pos_iff.mpr h
  rcases hfind : (window.tabs[window.selected]?.bind fun tab =>
      (window.tabs.filter passes).findIdx? (· == tab)) with _ | n
  · have hzero : (window.only passes).selected = 0 := by simp only [SavedWindow.only, hfind]; rfl
    rw [hzero]
    exact hpos
  · have hn : (window.only passes).selected = n := by simp only [SavedWindow.only, hfind]; rfl
    obtain ⟨tab, -, hidx⟩ := Option.bind_eq_some_iff.mp hfind
    rw [hn]
    exact (List.findIdx?_eq_some_iff_findIdx_eq.mp hidx).1

/-- A session that may be opened: each window has tabs, all of them may be opened, and one
of them is in front. -/
def Session.WellFormed (parse : String → Option Url) (self : Session) : Prop :=
  self.windows.length ≤ sessionWindows ∧ ∀ window ∈ self.windows,
    window.tabs ≠ [] ∧ (∀ tab ∈ window.tabs, savable parse tab.address = true) ∧
      window.tabs.length ≤ sessionTabs ∧ window.selected < window.tabs.length

theorem wellFormed_kept {windows : List SavedWindow} (h : InRoom windows) :
    (Session.kept parse ⟨windows⟩).WellFormed parse := by
  refine ⟨le_trans (List.length_filter_le _ _) (by simpa using h.1), fun window hwindow => ?_⟩
  obtain ⟨hmem, hempty⟩ := List.mem_filter.mp hwindow
  obtain ⟨read, hread, rfl⟩ := List.mem_map.mp hmem
  have hne : (read.only (SavedTab.savable parse)).tabs ≠ [] := by simpa using hempty
  refine ⟨hne, fun tab htab => (List.mem_filter.mp htab).2, ?_, selected_only_lt hne⟩
  exact le_trans (List.length_filter_le _ _) (h.2 read hread)

/-- **Whatever the file holds**, what is read of it may be opened. -/
theorem wellFormed_fromText (text : String) : (Session.fromText parse text).WellFormed parse := by
  have hnone : Session.WellFormed parse ⟨[]⟩ :=
    ⟨Nat.zero_le _, fun _ hwindow => absurd hwindow List.not_mem_nil⟩
  rw [Session.fromText]
  split
  · exact hnone
  · next header rest _ =>
    have hread : InRoom (parseLines [] rest) :=
      inRoom_parseLines ⟨Nat.zero_le _, fun _ hwindow => absurd hwindow List.not_mem_nil⟩
    split_ifs
    · refine wellFormed_kept ⟨?_, fun window hwindow => ?_⟩
      · rw [List.length_map]
        exact hread.1
      · obtain ⟨read, hmem, rfl⟩ := List.mem_map.mp hwindow
        exact hread.2 read hmem
    · exact hnone

/-- **A session survives its file**: one that fits is read back as what is kept of it, its
titles on one line; and any text at all is read as a session that may be opened. -/
theorem fromText_toText (parse : String → Option Url) :
    (∀ s : Session, s.Fits → Session.fromText parse s.toText = s.oneLined.kept parse) ∧
      ∀ text, (Session.fromText parse text).WellFormed parse :=
  ⟨fun _ => fromText_toText_of_fits, wellFormed_fromText⟩

/-- A session of one tab, whose title has a line break. -/
theorem fromText_toText_title :
    Session.fromText (fun _ => some ⟨"https", some (.domain "a.example")⟩)
        (Session.toText ⟨[⟨[⟨"https://a.example/", "A\nB", true⟩], 0⟩]⟩) =
      Session.kept (fun _ => some ⟨"https", some (.domain "a.example")⟩)
        ⟨[⟨[⟨"https://a.example/", "A B", true⟩], 0⟩]⟩ :=
  (fromText_toText _).1 _ ⟨by decide, fun _ hwindow => by
    obtain rfl := List.mem_singleton.mp hwindow
    exact ⟨by decide, by decide⟩⟩

end App

end Syndeo
