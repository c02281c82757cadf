import Syndeo.App.Reopen

/-!
# A tab that is opened again was the person's

What History opens again is a tab that the person closed in this process, each as often as it was
closed. What a launch opens, and what is opened of the last session later, is of the session that
the launch found, each tab once; and that is what was open when the application last quit, less
an agent's tabs. Clearing the browsing data forgets all of it
(`Syndeo.App.Reopen.reopened_of_runs`).

The histories are folded: what has been closed, reopened, restored and written since it was last
forgotten is a function of the log, and the state is compared with that.
-/

namespace Syndeo.App

namespace Reopen

open Text

/-! ### What the history says -/

/-- The tabs that the person closed, since the process began or forgot them. -/
def closedSince (log : List Entry) : List Snapshot :=
  log.foldl (fun tabs e =>
    match e with
    | .closed false snapshot => tabs ++ [snapshot]
    | .began | .forgot _ => []
    | _ => tabs) []

/-- Those that were opened again since. -/
def reopenedSince (log : List Entry) : List Snapshot :=
  log.foldl (fun tabs e =>
    match e with
    | .reopened snapshot => tabs ++ [snapshot]
    | .began | .forgot _ => []
    | _ => tabs) []

/-- The session that the launch found, unless it was forgotten. -/
def foundIn (log : List Entry) : Option Session :=
  log.foldl (fun found e =>
    match e with
    | .launched _ saved => some saved
    | .began | .forgot _ => none
    | _ => found) none

/-- The tabs of it that were opened. -/
def restoredSince (log : List Entry) : List SavedTab :=
  log.foldl (fun tabs e =>
    match e with
    | .restored tab => tabs ++ [tab]
    | .launched _ _ | .began | .forgot _ => []
    | _ => tabs) []

/-- Where the session file is from. -/
inductive Origin
  | nothing
  | quit (tabs : List (Bool × Snapshot))
  | altered

/-- Where it is from now. -/
def originIn (log : List Entry) : Origin :=
  log.foldl (fun origin e =>
    match e with
    | .quit tabs true => .quit tabs
    | .forgot true => .nothing
    | .altered => .altered
    | _ => origin) .nothing

/-- On one line. -/
def lined (tab : SavedTab) : SavedTab :=
  { tab with address := oneLine tab.address, title := oneLine tab.title }

/-- **A tab of the file** is one of the person's, from when the application quit; or somebody
else wrote it. -/
def Origin.Holds : Origin → SavedTab → Prop
  | .nothing, _ => False
  | .quit tabs, tab => ∃ snapshot, (false, snapshot) ∈ tabs ∧ tab = lined snapshot.saved
  | .altered, _ => True

/-- **What may happen after a history.** -/
def Right (parse : String → Option Url) (before : List Entry) : Entry → Prop
  | .launched _ saved => ∀ tab ∈ tabsIn saved,
      tab.savable parse = true ∧ (originIn before).Holds tab
  | .reopened snapshot => (reopenedSince before ++ [snapshot]).Subperm (closedSince before)
  | .restored tab => ∃ saved, foundIn before = some saved ∧
      (restoredSince before ++ [tab]).Subperm (tabsIn saved)
  | _ => True

/-- **What the state keeps** is what its history says, while these tabs of the session are still
to be opened. -/
structure Pending (L : Browser.Library) (tabs : List SavedTab) (s : State) : Prop where
  closed : (reopenedSince s.log ++ s.closed).Subperm (closedSince s.log)
  last : tabs ++ tabsIn s.lastSession = [] ∨ ∃ saved, foundIn s.log = some saved ∧
    (restoredSince s.log ++ (tabs ++ tabsIn s.lastSession)).Subperm (tabsIn saved)
  unlaunched : s.launched = false → s.lastSession = ⟨[]⟩
  file : ∀ text, s.file = some text → ∀ tab ∈ tabsIn (Session.fromText L.parse text),
    (originIn s.log).Holds tab
  right : Events.EachAfter (Right L.parse) s.log
  /-- No number is given twice. -/
  windows : s.windows.Nodup ∧ ∀ window ∈ s.windows, window < s.browser.next

/-- **What the state keeps**, between two events. -/
abbrev Sound (L : Browser.Library) (s : State) : Prop := Pending L [] s

/-! ### The file -/

section

variable {parse : String → Option Url}

theorem tabsIn_only (passes : SavedTab → Bool) (windows : List SavedWindow) :
    tabsIn ⟨windows.map (SavedWindow.only passes)⟩ = (tabsIn ⟨windows⟩).filter passes := by
  rw [tabsIn, tabsIn, List.filter_flatMap, List.flatMap_map]
  rfl

theorem tabsIn_kept (session : Session) :
    tabsIn (session.kept parse) = (tabsIn session).filter (SavedTab.savable parse) := by
  have hempty : ∀ windows : List SavedWindow,
      (windows.filter fun window => !window.tabs.isEmpty).flatMap SavedWindow.tabs =
        windows.flatMap SavedWindow.tabs := by
    intro windows
    induction windows with
    | nil => rfl
    | cons window windows ih =>
      rw [List.filter_cons, List.flatMap_cons]
      split_ifs with hne
      · rw [List.flatMap_cons, ih]
      · rw [ih, show window.tabs = [] by simpa using hne, List.nil_append]
  exact (hempty _).trans (tabsIn_only _ _)

theorem tabsIn_withoutPinned (session : Session) : tabsIn (session.withoutPinned parse) =
    ((tabsIn session).filter fun tab => !tab.pinned).filter (SavedTab.savable parse) := by
  rw [Session.withoutPinned, tabsIn_kept, tabsIn_only]

theorem mem_tabsIn_push {windows : List SavedWindow} {tab read : SavedTab}
    (h : tab ∈ tabsIn ⟨windows.modifyLast (SavedWindow.push read)⟩) :
    tab ∈ tabsIn ⟨windows⟩ ∨ tab = read := by
  rcases List.eq_nil_or_concat windows with rfl | ⟨windows, window, rfl⟩
  · exact Or.inl h
  · rw [List.concat_eq_append] at h ⊢
    rw [tabsIn, List.modifyLast_concat, List.flatMap_append, List.mem_append] at h
    rw [tabsIn, List.flatMap_append, List.mem_append]
    rcases h with h | h
    · exact Or.inl (Or.inl h)
    · rw [List.flatMap_singleton, SavedWindow.push] at h
      rw [List.flatMap_singleton]
      split_ifs at h
      · rcases List.mem_append.mp h with h | h
        · exact Or.inl (Or.inr h)
        · exact Or.inr (List.mem_singleton.mp h)
      · exact Or.inl (Or.inr h)

/-- A tab that is read from lines is in one of them. -/
theorem mem_parseLines {tab : SavedTab} : ∀ {lines : List (List Char)} {windows : List SavedWindow},
    tab ∈ tabsIn ⟨parseLines windows lines⟩ → tab ∈ tabsIn ⟨windows⟩ ∨
      ∃ line ∈ lines, ∃ kind pin address title, line.splitOn '\t' = [kind, pin, address, title] ∧
        tab = ⟨String.ofList address, String.ofList title, pin == "pinned".toList⟩
  | [], windows, h => Or.inl h
  | line :: rest, windows, h => by
    have hlater : ∀ windows', (tab ∈ tabsIn ⟨windows'⟩ → tab ∈ tabsIn ⟨windows⟩) →
        tab ∈ tabsIn ⟨parseLines windows' rest⟩ → tab ∈ tabsIn ⟨windows⟩ ∨
          ∃ l ∈ line :: rest, ∃ kind pin address title,
            l.splitOn '\t' = [kind, pin, address, title] ∧
            tab = ⟨String.ofList address, String.ofList title, pin == "pinned".toList⟩ := by
      intro windows' hback htab
      rcases mem_parseLines htab with hold | ⟨l, hl, hread⟩
      · exact Or.inl (hback hold)
      · exact Or.inr ⟨l, List.mem_cons_of_mem _ hl, hread⟩
    rw [parseLines.eq_def] at h
    dsimp only at h
    -- a window's line, a tab's, or one that says nothing
    split at h
    · split_ifs at h
      · exact Or.inl h
      · refine hlater _ (fun htab => ?_) h
        simpa [tabsIn] using htab
      · exact hlater _ id h
    · rename_i kind pin address title hsplit
      split_ifs at h
      · rcases mem_parseLines h with hold | ⟨l, hl, hread⟩
        · rcases mem_tabsIn_push hold with hold | hnew
          · exact Or.inl hold
          · exact Or.inr ⟨line, List.mem_cons_self, kind, pin, address, title, hsplit, hnew⟩
        · exact Or.inr ⟨l, List.mem_cons_of_mem _ hl, hread⟩
      · exact hlater _ id h
    · exact hlater _ id h

/-- The lines of the file are read apart again. -/
theorem lines_toText (session : Session) : Text.lines session.toText.toList =
    sessionHeader :: session.windows.flatMap SavedWindow.lines := by
  have hbare : ∀ c, c ≠ '\t' → isControl c = true →
      ∀ line ∈ sessionHeader :: session.windows.flatMap SavedWindow.lines, c ∉ line := by
    intro c hc hcontrol line hline hmem
    rcases List.mem_cons.mp hline with rfl | hline
    · exact absurd hmem (not_mem_of_isControl (by decide) hcontrol)
    · obtain ⟨window, -, hline⟩ := List.mem_flatMap.mp hline
      exact hc (eq_tab_of_mem_lines hline hmem hcontrol)
  rw [Session.toText, String.toList_ofList]
  exact lines_terminated (hbare '\n' (by decide) (by decide)) (hbare '\r' (by decide) (by decide))

/-- **What is read of a file is what was written there**, on one line; whether it fits or not. -/
theorem mem_fromText_toText {session : Session} {tab : SavedTab}
    (h : tab ∈ tabsIn (Session.fromText parse session.toText)) :
    ∃ written ∈ tabsIn session, tab = lined written := by
  rw [Session.fromText, lines_toText] at h
  dsimp only at h
  rw [if_pos rfl, tabsIn_kept] at h
  have hread : tab ∈ tabsIn ⟨parseLines [] (session.windows.flatMap SavedWindow.lines)⟩ := by
    have hmem := (List.mem_filter.mp h).1
    rwa [tabsIn, List.flatMap_map] at hmem
  rcases mem_parseLines hread with hnone | ⟨line, hline, kind, pin, address, title, hsplit, rfl⟩
  · exact absurd hnone List.not_mem_nil
  · obtain ⟨window, hwindow, hline⟩ := List.mem_flatMap.mp hline
    rcases List.mem_cons.mp hline with rfl | hline
    · have htwo : ("window".toList ++ '\t' :: (toString window.selected).toList).splitOn '\t' =
          ["window".toList, (toString window.selected).toList] := by
        rw [List.splitOn_append_cons_self_of_not_mem (by decide), List.splitOn_eq_singleton]
        intro htab
        exact absurd ((toList_toString_nat _).2 _ htab) (by decide)
      rw [htwo] at hsplit
      simp at hsplit
    · obtain ⟨written, hwritten, rfl⟩ := List.mem_map.mp hline
      refine ⟨written, List.mem_flatMap.mpr ⟨window, hwindow, hwritten⟩, ?_⟩
      rw [splitOn_line] at hsplit
      simp only [List.cons.injEq] at hsplit
      obtain ⟨-, rfl, rfl, rfl, -⟩ := hsplit
      rcases written with ⟨address, title, _ | _⟩
      · rfl
      · rfl

end

/-! ### One thing more -/

section

variable {log : List Entry} {e : Entry}

theorem closedSince_concat : closedSince (log ++ [e]) =
    match e with
    | .closed false snapshot => closedSince log ++ [snapshot]
    | .began | .forgot _ => []
    | _ => closedSince log := by
  rw [closedSince, List.foldl_append]
  rfl

theorem reopenedSince_concat : reopenedSince (log ++ [e]) =
    match e with
    | .reopened snapshot => reopenedSince log ++ [snapshot]
    | .began | .forgot _ => []
    | _ => reopenedSince log := by
  rw [reopenedSince, List.foldl_append]
  rfl

theorem foundIn_concat : foundIn (log ++ [e]) =
    match e with
    | .launched _ saved => some saved
    | .began | .forgot _ => none
    | _ => foundIn log := by
  rw [foundIn, List.foldl_append]
  rfl

theorem restoredSince_concat : restoredSince (log ++ [e]) =
    match e with
    | .restored tab => restoredSince log ++ [tab]
    | .launched _ _ | .began | .forgot _ => []
    | _ => restoredSince log := by
  rw [restoredSince, List.foldl_append]
  rfl

theorem originIn_concat : originIn (log ++ [e]) =
    match e with
    | .quit tabs true => .quit tabs
    | .forgot true => .nothing
    | .altered => .altered
    | _ => originIn log := by
  rw [originIn, List.foldl_append]
  rfl

end

/-! ### Windows -/

section

variable {L : Browser.Library} {b b' : Browser.State}

theorem next_foldl_newWindow (m : Browser.Met) (starts : List Browser.Start) (b : Browser.State) :
    b.next ≤ (starts.foldl (fun b start => b.newWindow L m start) b).next := by
  induction starts generalizing b with
  | nil => exact le_rfl
  | cons start starts ih => exact (Nat.le_succ _).trans (ih (b.newWindow L m start))

theorem next_tell_le {m : Browser.Met} {window : ℕ} {callback : Browser.Callback}
    (h : b.tell L m window callback = some b') : b.next ≤ b'.next := by
  obtain ⟨c, -, rfl⟩ := Option.map_eq_some_iff.mp h
  let t := Browser.Turn.callback L m ⟨b.app, window, c, b.log, []⟩ callback
  exact next_foldl_newWindow m t.opens (b.past t)

/-- Numbers are not given back. -/
theorem next_after_le {e : Browser.Met × Browser.Event} (h : b.after L e = some b') :
    b.next ≤ b'.next := by
  obtain ⟨m, e⟩ := e
  have hrefuse : ∀ address why, b.next ≤ (b.refuseAsked L m address why).next := by
    intro address why
    rw [Browser.State.refuseAsked]
    rcases htold : (b.newWindow L m .page).tell L m b.next (.refuse address why) with _ | told
    · exact Nat.le_succ _
    · exact (Nat.le_succ _).trans (next_tell_le htold)
  cases e with
  | opens start =>
    obtain rfl := Option.some.inj h
    exact Nat.le_succ _
  | asked address =>
    obtain rfl := Option.some.inj h
    rw [Browser.State.openAsked]
    split
    · split_ifs
      · exact Nat.le_succ _
      · exact hrefuse _ _
    · exact hrefuse _ _
  | told window callback => exact next_tell_le h

end

section

variable {L : Browser.Library} {met : ℕ → Browser.Met} {s s' : State} {tabs : List SavedTab}

/-- Only windows are changed. -/
theorem Pending.windowsOnly (h : Pending L tabs s) (hclosed : s'.closed = s.closed)
    (hlast : s'.lastSession = s.lastSession) (hlaunched : s'.launched = s.launched)
    (hfile : s'.file = s.file) (hlog : s'.log = s.log)
    (hwindows : s'.windows.Nodup ∧ ∀ window ∈ s'.windows, window < s'.browser.next) :
    Pending L tabs s' where
  closed := by rw [hclosed, hlog]; exact h.closed
  last := by rw [hlast, hlog]; exact h.last
  unlaunched := by rw [hlaunched, hlast]; exact h.unlaunched
  file := by rw [hfile, hlog]; exact h.file
  right := by rw [hlog]; exact h.right
  windows := hwindows

theorem Pending.newWindow (h : Pending L tabs s) (met : ℕ → Browser.Met)
    (start : Browser.Start) (pin : Bool) :
    Pending L tabs (s.newWindow L met start pin) := by
  refine h.windowsOnly rfl rfl rfl rfl rfl ⟨?_, ?_⟩
  · refine List.nodup_append.mpr ⟨h.windows.1, List.nodup_singleton _, ?_⟩
    rintro w hw _ hnew rfl
    exact absurd (h.windows.2 w hw) (by rw [List.mem_singleton.mp hnew]; exact Nat.lt_irrefl _)
  · intro w hw
    rcases List.mem_append.mp hw with hw | hw
    · exact Nat.lt_succ_of_lt (h.windows.2 w hw)
    · rw [List.mem_singleton.mp hw]
      exact Nat.lt_succ_self _

theorem mem_madeSince {b : Browser.State} {window : ℕ} (h : window ∈ s.madeSince b) :
    s.browser.next ≤ window ∧ window < b.next := by
  obtain ⟨k, hk, rfl⟩ := List.mem_map.mp h
  have hlt := List.mem_range.mp hk
  omega

theorem Pending.windowEvent {m : Browser.Met} {e : Browser.Event} (h : Pending L tabs s)
    (hs : s.windowEvent L m e = some s') : Pending L tabs s' := by
  obtain ⟨b, hb, rfl⟩ := Option.map_eq_some_iff.mp hs
  have hnext : s.browser.next ≤ b.next := next_after_le hb
  -- what is made now has a number that no window has had
  refine h.windowsOnly rfl rfl rfl rfl rfl ⟨?_, ?_⟩
  · refine List.nodup_append.mpr ⟨h.windows.1, ?_, ?_⟩
    · exact (List.nodup_range).map fun i j hij => Nat.add_left_cancel hij
    · rintro w hw _ hnew rfl
      exact absurd (h.windows.2 w hw) (Nat.not_lt.mpr (mem_madeSince hnew).1)
  · intro w hw
    rcases List.mem_append.mp hw with hw | hw
    · exact Nat.lt_of_lt_of_le (h.windows.2 w hw) hnext
    · exact (mem_madeSince hw).2

/-! ### Sessions -/

/-- One tab of the session is opened. -/
theorem Pending.restore {tab : SavedTab} (h : Pending L (tab :: tabs) s) :
    Pending L tabs (s.restore L met tab) := by
  have hnew := h.newWindow met (.later tab.address tab.title) tab.pinned
  obtain ⟨saved, hfound, hbudget⟩ := hnew.last.resolve_left (by simp)
  exact
    { closed := by
        rw [State.restore, State.note, closedSince_concat, reopenedSince_concat]
        exact hnew.closed
      last := by
        refine Or.inr ⟨saved, ?_, ?_⟩
        · rw [State.restore, State.note, foundIn_concat]
          exact hfound
        · rw [State.restore, State.note, restoredSince_concat]
          simpa using hbudget
      unlaunched := hnew.unlaunched
      file := by
        rw [State.restore, State.note, originIn_concat]
        exact hnew.file
      right := by
        refine Events.eachAfter_concat.mpr ⟨hnew.right, saved, hfound, ?_⟩
        refine List.Subperm.trans (List.Sublist.subperm ?_) hbudget
        rw [List.cons_append]
        exact (List.append_sublist_append_left _).mpr (by simp)
      windows := hnew.windows }

/-- **Tabs that may be opened** are opened, and others may be after them. -/
theorem Pending.openTabs {rest : List SavedTab} (h : Pending L (tabs ++ rest) s) :
    Pending L rest (s.openTabs L met tabs) := by
  induction tabs generalizing s with
  | nil => exact h
  | cons tab tabs ih => exact ih h.restore

theorem openTabs_keeps (met : ℕ → Browser.Met) (s : State) (tabs : List SavedTab) :
    (s.openTabs L met tabs).lastSession = s.lastSession ∧
      (s.openTabs L met tabs).launched = s.launched := by
  induction tabs generalizing s with
  | nil => exact ⟨rfl, rfl⟩
  | cons tab tabs ih => exact ih (s.restore L met tab)

/-- **What is read may be opened**, and is what the file's origin says. -/
theorem readSession_right (h : Sound L s) (readable : Bool) :
    ∀ tab ∈ tabsIn (s.readSession L readable),
      tab.savable L.parse = true ∧ (originIn s.log).Holds tab := by
  intro tab htab
  rw [State.readSession] at htab
  split at htab
  · rename_i text hfile
    split_ifs at htab
    · refine ⟨?_, h.file text hfile tab htab⟩
      obtain ⟨window, hwindow, hmem⟩ := List.mem_flatMap.mp htab
      exact ((wellFormed_fromText text).2 window hwindow).2.1 tab hmem
    · exact absurd htab List.not_mem_nil
  · exact absurd htab List.not_mem_nil

/-- The pinned tabs of a session, and the rest of it. -/
theorem pinned_withoutPinned_subperm (saved : Session) :
    (pinnedIn saved ++ tabsIn (if pinnedIn saved = [] then saved
      else saved.withoutPinned L.parse)).Subperm (tabsIn saved) := by
  split_ifs with hnone
  · rw [hnone]
    exact List.Subperm.refl _
  · rw [tabsIn_withoutPinned, pinnedIn]
    refine List.Subperm.trans (List.Sublist.subperm ?_) (List.filter_append_perm SavedTab.pinned
      (tabsIn saved)).subperm
    exact (List.append_sublist_append_left _).mpr List.filter_sublist

/-- A session is found. -/
theorem Pending.found (h : Sound L s) (hlaunched : s.launched = false) (ready readable : Bool) :
    Pending L (tabsIn (s.readSession L readable)) ({ s with
      browser := { s.browser with app := { s.browser.app with ready } }
      launched := true }.note (.launched ready (s.readSession L readable))) where
  closed := by
    rw [State.note, closedSince_concat, reopenedSince_concat]
    exact h.closed
  last := by
    refine Or.inr ⟨s.readSession L readable, ?_, ?_⟩
    · rw [State.note, foundIn_concat]
    · rw [State.note, restoredSince_concat, h.unlaunched hlaunched]
      simpa [tabsIn] using List.Subperm.refl _
  unlaunched := fun hfalse => by cases hfalse
  file := by
    rw [State.note, originIn_concat]
    exact h.file
  right := Events.eachAfter_concat.mpr ⟨h.right, readSession_right h readable⟩
  windows := h.windows

/-- Fewer tabs may be opened. -/
theorem Pending.subperm {rest : List SavedTab} (h : Pending L tabs s)
    (hsub : rest.Subperm tabs) : Pending L rest s :=
  { h with
    last := by
      rcases h.last with hnil | ⟨saved, hfound, hbudget⟩
      · obtain ⟨rfl, hlast⟩ := List.append_eq_nil_iff.mp hnil
        rw [hlast, List.subperm_nil.mp hsub]
        exact Or.inl rfl
      · refine Or.inr ⟨saved, hfound, List.Subperm.trans ?_ hbudget⟩
        exact (List.subperm_append_left _).mpr ((List.subperm_append_right _).mpr hsub) }

/-- What is not opened is kept for later. -/
theorem Pending.keep {rest : Session} (h : Pending L (tabsIn rest) s)
    (hlast : s.lastSession = ⟨[]⟩) (hlaunched : s.launched = true) :
    Sound L { s with lastSession := rest } :=
  { h with
    last := by
      have hbudget := h.last
      rw [hlast] at hbudget
      simpa [tabsIn] using hbudget
    unlaunched := fun hfalse => absurd (hlaunched.symm.trans hfalse) (by decide) }

/-- What was kept is taken to be opened. -/
theorem Pending.take (h : Sound L s) :
    Pending L (tabsIn s.lastSession) { s with lastSession := ⟨[]⟩ } :=
  { h with
    last := by simpa [tabsIn] using h.last
    unlaunched := fun _ => rfl }

theorem Pending.launch (h : Sound L s) (hlaunched : s.launched = false)
    (ready keepsWindows readable asked : Bool) :
    Sound L (s.launch L met ready keepsWindows readable asked) := by
  have hfound := Pending.found h hlaunched ready readable
  rw [State.launch]
  dsimp only
  generalize hs₁ : ({ s with
    browser := { s.browser with app := { s.browser.app with ready } }
    launched := true }.note (.launched ready (s.readSession L readable))) = s₁ at hfound ⊢
  have hlast : s₁.lastSession = ⟨[]⟩ := by
    rw [← hs₁]
    exact h.unlaunched hlaunched
  have hlate : s₁.launched = true := by
    rw [← hs₁]
    rfl
  generalize s.readSession L readable = saved at hfound ⊢
  obtain ⟨front, hdef, hpending, hkept, hon⟩ : ∃ front,
      (if (!asked) = true then s₁.newWindow L met .page false else s₁) = front ∧
        Pending L (tabsIn saved) front ∧ front.lastSession = ⟨[]⟩ ∧ front.launched = true := by
    refine ⟨_, rfl, ?_⟩
    split_ifs
    · exact ⟨hfound.newWindow met .page false, hlast, hlate⟩
    · exact ⟨hfound, hlast, hlate⟩
  have hsub := pinned_withoutPinned_subperm (L := L) saved
  rw [State.openFirstWindows, hdef]
  generalize (if pinnedIn saved = [] then saved else saved.withoutPinned L.parse) = rest at hsub ⊢
  dsimp only
  -- nothing, everything, or the pinned tabs, with the rest kept for later
  split_ifs with hready hkeeps
  · exact hpending.subperm List.nil_subperm
  · rw [← List.append_nil (tabsIn saved)] at hfound
    exact hfound.openTabs
  · have hkeeps := openTabs_keeps (L := L) met front (pinnedIn saved)
    exact ((hpending.subperm hsub).openTabs).keep (hkeeps.1.trans hkept) (hkeeps.2.trans hon)

/-! ### Closing, and opening again -/

theorem Pending.forget (h : Sound L s) (window : ℕ) (snapshot : Option Snapshot) :
    Sound L (s.forget window snapshot) := by
  have hwindows : (s.windows.filter (· ≠ window)).Nodup ∧
      ∀ w ∈ s.windows.filter (· ≠ window), w < s.browser.next :=
    ⟨h.windows.1.filter _, fun w hw => h.windows.2 w (List.mem_filter.mp hw).1⟩
  cases snapshot with
  | none => exact h.windowsOnly rfl rfl rfl rfl rfl hwindows
  | some snapshot =>
    rw [State.forget.eq_def]
    dsimp only
    refine
      { closed := ?_
        last := ?_
        unlaunched := h.unlaunched
        file := ?_
        right := Events.eachAfter_concat.mpr ⟨h.right, trivial⟩
        windows := hwindows }
    · rw [State.note, closedSince_concat, reopenedSince_concat]
      cases decide (window ∈ s.agents) with
      | true => exact h.closed
      | false =>
        dsimp only
        rw [if_neg Bool.false_ne_true, pushClosed]
        -- the oldest may fall off the end, and cannot be opened any more
        refine List.Subperm.trans (List.Sublist.subperm
          ((List.append_sublist_append_left _).mpr (List.take_sublist _ _))) ?_
        refine List.Subperm.trans List.perm_middle.subperm ?_
        refine List.Subperm.trans (List.perm_append_singleton _ _).symm.subperm ?_
        exact (List.subperm_append_right _).mpr h.closed
    · rw [State.note, foundIn_concat, restoredSince_concat]
      exact h.last
    · rw [State.note, originIn_concat]
      exact h.file

theorem Pending.close {window : ℕ} {page : Page} (h : Sound L s)
    (hs : s.close L met window page = some s') : Sound L s' := by
  obtain ⟨b, hb, rfl⟩ := Option.map_eq_some_iff.mp hs
  have hnext := next_tell_le hb
  have hclosed : Sound L { s with browser := b } := h.windowsOnly rfl rfl rfl rfl rfl
    ⟨h.windows.1, fun w hw => Nat.lt_of_lt_of_le (h.windows.2 w hw) hnext⟩
  exact hclosed.forget window _

theorem Pending.agentOpens {address : String} (h : Sound L s)
    (hs : s.agentOpens L met address = some s') : Sound L s' := by
  have hnew := h.newWindow met (.request address) false
  rw [State.agentOpens] at hs
  split_ifs at hs
  · obtain rfl := Option.some.inj hs
    exact hnew.windowsOnly rfl rfl rfl rfl rfl hnew.windows
  · exact hnew.close hs

/-- A tab is taken from those that were closed, and opened. -/
theorem Pending.reopen {snapshot : Snapshot} {closed : List Snapshot} (h : Sound L s)
    (hperm : (snapshot :: closed).Perm s.closed) :
    Sound L ({ s with closed }.reopen L met snapshot) := by
  have hbudget : (reopenedSince s.log ++ snapshot :: closed).Subperm (closedSince s.log) :=
    List.Subperm.trans ((List.perm_append_left_iff _).mpr hperm).subperm h.closed
  have htaken : Sound L { s with closed } :=
    { h with
      closed := List.Subperm.trans (List.Sublist.subperm
        ((List.append_sublist_append_left _).mpr (List.sublist_cons_self _ _))) hbudget }
  have hnew := htaken.newWindow met (.again snapshot.address snapshot.history)
    snapshot.pinned
  rw [State.reopen]
  refine
    { closed := ?_
      last := ?_
      unlaunched := hnew.unlaunched
      file := ?_
      right := Events.eachAfter_concat.mpr ⟨hnew.right, ?_⟩
      windows := hnew.windows }
  · rw [State.note, closedSince_concat, reopenedSince_concat]
    rw [List.append_assoc]
    exact hbudget
  · rw [State.note, foundIn_concat, restoredSince_concat]
    exact hnew.last
  · rw [State.note, originIn_concat]
    exact hnew.file
  · refine List.Subperm.trans (List.Sublist.subperm ?_) hbudget
    exact (List.append_sublist_append_left _).mpr (by simp)

end

/-! ### Quitting, and what is in the file then -/

section

variable {L : Browser.Library} {met : ℕ → Browser.Met} {s s' : State}

/-- A tab that shows nothing of its own is not kept. -/
theorem not_savable_noTab : noTab.savable L.parse = false := by
  have hwritten : (["http://", "https://"].any fun scheme =>
      eqIgnoreAsciiCase (String.ofList ("".toList.take scheme.length)) scheme) = false := by
    decide
  rw [SavedTab.savable, noTab, savable]
  dsimp only
  rw [hwritten, Bool.false_and]

/-- **A tab of the session** is open, and the person's. -/
theorem mem_session {pages : ℕ → Page} {groups : Groups} {tab : SavedTab}
    (h : tab ∈ tabsIn (s.session L pages groups)) :
    ∃ snapshot, (false, snapshot) ∈ s.openTabsNow L pages ∧ tab = snapshot.saved := by
  rw [State.session, tabsIn_kept] at h
  obtain ⟨hmem, hsavable⟩ := List.mem_filter.mp h
  obtain ⟨window, hwindow, htab⟩ := List.mem_flatMap.mp hmem
  obtain ⟨tabbed, -, hsaved⟩ := List.mem_filterMap.mp hwindow
  split_ifs at hsaved
  obtain rfl := Option.some.inj hsaved
  obtain ⟨number, hnumber, rfl⟩ := List.mem_map.mp htab
  have hpersons : number ∉ s.agents := by simpa using (List.mem_filter.mp hnumber).2
  rcases hsnapshot : s.snapshot L (pages number) number with _ | snapshot
  · rw [hsnapshot, Option.map_none, Option.getD_none, not_savable_noTab] at hsavable
    cases hsavable
  · refine ⟨snapshot, ?_, by rw [Option.map_some, Option.getD_some]⟩
    -- it is in a window that is open, for it would have no snapshot otherwise
    obtain ⟨c, hc, -⟩ := Option.bind_eq_some_iff.mp hsnapshot
    refine List.mem_filterMap.mpr ⟨(number, c), Tables.mem_rows_iff.mpr hc, ?_⟩
    rw [hsnapshot, decide_eq_false hpersons]
    rfl

theorem Pending.quit (h : Sound L s) (pages : ℕ → Page) (groups : Groups) (written : Bool) :
    Sound L (s.quit L pages groups written) := by
  rw [State.quit]
  split_ifs with hready
  · exact h.windowsOnly rfl rfl rfl rfl rfl h.windows
  · refine
      { closed := ?_
        last := ?_
        unlaunched := h.unlaunched
        file := ?_
        right := Events.eachAfter_concat.mpr ⟨h.right, trivial⟩
        windows := h.windows }
    · rw [State.note, closedSince_concat, reopenedSince_concat]
      exact h.closed
    · rw [State.note, foundIn_concat, restoredSince_concat]
      exact h.last
    · intro text htext tab htab
      have hwrote : s.writeSession (s.session L pages groups) written = some text := htext
      rw [State.note, originIn_concat]
      rw [State.writeSession] at hwrote
      cases written with
      | false => exact h.file text hwrote tab htab
      | true =>
        rw [if_neg (by decide)] at hwrote
        split_ifs at hwrote
        obtain rfl := Option.some.inj hwrote
        obtain ⟨kept, hkept, rfl⟩ := mem_fromText_toText htab
        obtain ⟨snapshot, hopen, rfl⟩ := mem_session hkept
        exact ⟨snapshot, hopen, rfl⟩

/-! ### Forgetting -/

theorem Pending.forgetTabs (h : Sound L s) (removed : Bool) :
    Sound L ({ s with
      closed := []
      lastSession := ⟨[]⟩
      file := if removed then none else s.file }.note (.forgot removed)) where
  closed := by
    rw [State.note, closedSince_concat, reopenedSince_concat]
    exact List.Subperm.refl _
  last := Or.inl rfl
  unlaunched := fun _ => rfl
  file := by
    intro text htext tab htab
    rw [State.note, originIn_concat]
    cases removed with
    | true => cases htext
    | false => exact h.file text htext tab htab
  right := Events.eachAfter_concat.mpr ⟨h.right, trivial⟩
  windows := h.windows

/-- A process has nothing from the one before it but the file. -/
theorem Pending.begin (h : Sound L s) : Sound L s.begin where
  closed := by
    rw [State.begin, closedSince_concat, reopenedSince_concat]
    exact List.Subperm.refl _
  last := Or.inl rfl
  unlaunched := fun _ => rfl
  file := by
    rw [State.begin, originIn_concat]
    exact h.file
  right := Events.eachAfter_concat.mpr ⟨h.right, trivial⟩
  windows := ⟨List.nodup_nil, fun w hw => absurd hw List.not_mem_nil⟩

theorem Pending.altered (h : Sound L s) (file : Option String) :
    Sound L ({ s with file }.note .altered) where
  closed := by
    rw [State.note, closedSince_concat, reopenedSince_concat]
    exact h.closed
  last := by
    rw [State.note, foundIn_concat, restoredSince_concat]
    exact h.last
  unlaunched := h.unlaunched
  file := by
    intro text htext tab htab
    rw [State.note, originIn_concat]
    exact trivial
  right := Events.eachAfter_concat.mpr ⟨h.right, trivial⟩
  windows := h.windows

/-! ### Every run -/

theorem sound_start : Sound L State.start where
  closed := List.Subperm.refl _
  last := Or.inl rfl
  unlaunched := fun _ => rfl
  file := fun text htext => by cases htext
  right := Events.eachAfter_nil
  windows := ⟨List.nodup_nil, fun w hw => absurd hw List.not_mem_nil⟩

theorem sound_step {e : (ℕ → Browser.Met) × Event} (h : Sound L s) (hstep : Step L s e s') :
    Sound L s' := by
  obtain ⟨met, e⟩ := e
  have hmay : s.mayHappen e = true := hstep.1
  have hafter : s.after L met e = some s' := hstep.2
  cases e with
  | began =>
    obtain rfl := Option.some.inj hafter
    exact h.begin
  | launched ready keepsWindows readable asked =>
    obtain rfl := Option.some.inj hafter
    have hlaunched : s.launched = false := by simpa [State.mayHappen] using hmay
    exact h.launch hlaunched ready keepsWindows readable asked
  | window e => exact h.windowEvent hafter
  | agentOpens address => exact h.agentOpens hafter
  | released windows =>
    obtain rfl := Option.some.inj hafter
    exact h.windowsOnly rfl rfl rfl rfl rfl h.windows
  | duplicate window page =>
    obtain ⟨snapshot, -, rfl⟩ := Option.map_eq_some_iff.mp hafter
    exact h.newWindow met _ _
  | togglePin window =>
    obtain rfl := Option.some.inj hafter
    exact h.windowsOnly rfl rfl rfl rfl rfl h.windows
  | closes window page => exact h.close hafter
  | reopenClosedTab =>
    rw [State.after] at hafter
    split at hafter
    · obtain rfl := Option.some.inj hafter
      exact h
    · rename_i snapshot closed hclosed
      obtain rfl := Option.some.inj hafter
      exact h.reopen (by rw [hclosed])
  | reopenRecent index =>
    rw [State.after] at hafter
    split at hafter
    · obtain rfl := Option.some.inj hafter
      exact h
    · rename_i snapshot hget
      obtain rfl := Option.some.inj hafter
      obtain ⟨hlt, rfl⟩ := List.getElem?_eq_some_iff.mp hget
      exact h.reopen (List.getElem_cons_eraseIdx_perm hlt)
  | reopenSession =>
    obtain rfl := Option.some.inj hafter
    have htaken := h.take
    rw [← List.append_nil (tabsIn s.lastSession)] at htaken
    exact htaken.openTabs
  | forgetTabs removed =>
    obtain rfl := Option.some.inj hafter
    exact h.forgetTabs removed
  | willTerminate pages groups written =>
    obtain rfl := Option.some.inj hafter
    exact h.quit pages groups written
  | altered file =>
    obtain rfl := Option.some.inj hafter
    exact h.altered file

/-- **What is opened again was the person's, and is opened once.** Whatever happens, in this
process and those before it: what History opens again are tabs that the person closed in this
process since it was last cleared, each no more often than it was closed. What a launch opens, and
what is opened of the last session later, is of the session that the launch found, each tab once.
Each tab of that session may be opened, and is one of the person's that were open at the last quit
that wrote the file, never an agent's, unless somebody else changed the file. -/
theorem reopened_of_runs {events : List ((ℕ → Browser.Met) × Event)}
    (h : Events.Runs (Step L) State.start events s) :
    Events.EachAfter (Right L.parse) s.log :=
  (h.invariant (I := Sound L) (fun _ _ _ hs hstep => sound_step hs hstep) sound_start).right

end

/-- One site, whose pages are addresses. -/
def sampleLibrary : Browser.Library where
  parse text := if text = "https://a.example/" then some ⟨"https", some (.domain "a.example")⟩
    else none
  hostStr _ := "a.example"
  nsUrl _ := true

def sampleMet : ℕ → Browser.Met := fun _ => ⟨none, fun _ => none, id, [], true, 26, true⟩

/-- Every tab is its window's only one, and in front. -/
def alone : Groups := ⟨fun window => [window], List.head?⟩

def samplePage : Page := ⟨"A", some "https://a.example/"⟩

/-- A page is open as the application quits; the next launch opens it again, and there it is closed
and reopened. -/
def twoLaunches : List ((ℕ → Browser.Met) × Event) :=
  [(sampleMet, .launched true false true true), (sampleMet, .window (.opens .page)),
    (sampleMet, .willTerminate (fun _ => samplePage) alone true), (sampleMet, .began),
    (sampleMet, .launched true true true true), (sampleMet, .closes 1 samplePage),
    (sampleMet, .reopenClosedTab)]

/-- It was restored, and reopened. -/
def openedAgain (s : State) : Bool :=
  decide (.restored ⟨"https://a.example/", "A", false⟩ ∈ s.log) &&
    decide (.reopened ⟨"https://a.example/", "A", false, false⟩ ∈ s.log)

theorem reopened_of_runs_twoLaunches : ∃ s,
    Events.Runs (Step sampleLibrary) State.start twoLaunches s ∧ openedAgain s = true ∧
      Events.EachAfter (Right sampleLibrary.parse) s.log := by
  obtain ⟨s, hruns, hopened⟩ : ∃ s,
      Events.Runs (Step sampleLibrary) State.start twoLaunches s ∧ openedAgain s = true :=
    Events.exists_runs_of_follow (by decide +kernel)
  exact ⟨s, hruns, hopened, reopened_of_runs hruns⟩

end Reopen

end Syndeo.App
