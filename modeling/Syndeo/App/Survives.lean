import Syndeo.App.Reopened

/-!
# What survives a quit

The application quits and is launched again. Where the session could be written and read, and its
tabs were not too many for the file, every tab of the person's that may be opened again is opened
by the launch or kept to be opened later: each of them once, no other, and with its title on one
line (`Syndeo.App.Reopen.survives_of_runs`). Each window's tabs are met at whichever of its tabs
was opened first; that none is met twice is `Classes.flatten_gather_perm`.
-/

namespace Syndeo.App

namespace Reopen

open Text

section

variable {L : Browser.Library} {s : State} {pages : ℕ → Page} {groups : Groups}

/-- What the session has of a window's tab. -/
def State.savedTab (L : Browser.Library) (s : State) (pages : ℕ → Page) (window : ℕ) : SavedTab :=
  ((s.snapshot L (pages window) window).map Snapshot.saved).getD noTab

/-- **The tabs to be kept**: of each of the person's windows, if it may be opened again. -/
def State.toKeep (L : Browser.Library) (s : State) (pages : ℕ → Page) : List SavedTab :=
  (((s.windows.filter (· ∉ s.agents)).filterMap fun window =>
    s.snapshot L (pages window) window).map Snapshot.saved).filter (SavedTab.savable L.parse)

/-! ### The session -/

/-- Its tabs are those of the windows that were met, less the agents'. -/
theorem tabsIn_session : tabsIn (s.session L pages groups) =
    (((Classes.gather groups.tabsOf [] s.windows).flatten.filter (· ∉ s.agents)).map
      (s.savedTab L pages)).filter (SavedTab.savable L.parse) := by
  rw [State.session, tabsIn_kept]
  refine congrArg (List.filter _) ?_
  generalize Classes.gather groups.tabsOf [] s.windows = classes
  induction classes with
  | nil => rfl
  | cons tabbed classes ih =>
    rw [List.flatten_cons, List.filter_append, List.map_append, ← ih]
    rw [List.filterMap_cons]
    split_ifs with hnone
    · rw [hnone]
      rfl
    · rfl

/-- A window that shows nothing of its own is not kept. -/
theorem filter_map_savedTab (windows : List ℕ) :
    (windows.map (s.savedTab L pages)).filter (SavedTab.savable L.parse) =
      ((windows.filterMap fun window => s.snapshot L (pages window) window).map
        Snapshot.saved).filter (SavedTab.savable L.parse) := by
  induction windows with
  | nil => rfl
  | cons window windows ih =>
    rw [List.map_cons, List.filterMap_cons, State.savedTab]
    rcases s.snapshot L (pages window) window with _ | snapshot
    · rw [Option.map_none, Option.getD_none, List.filter_cons_of_neg (by simp [not_savable_noTab])]
      exact ih
    · rw [Option.map_some, Option.getD_some]
      dsimp only
      rw [List.map_cons, List.filter_cons, List.filter_cons, ih]

/-- **The session has what is to be kept**, each tab once. -/
theorem tabsIn_session_perm (hgroups : Classes.Divides groups.tabsOf s.windows)
    (hnodup : s.windows.Nodup) : (tabsIn (s.session L pages groups)).Perm (s.toKeep L pages) := by
  rw [tabsIn_session, State.toKeep, ← filter_map_savedTab]
  exact (((Classes.flatten_gather_perm hgroups hnodup).filter _).map _).filter _

theorem tabsIn_oneLined (session : Session) :
    tabsIn session.oneLined = (tabsIn session).map SavedTab.oneLined := by
  rw [tabsIn, tabsIn, List.map_flatMap, Session.oneLined, List.flatMap_map]
  rfl

/-- **The file has the session's tabs**, on one line. -/
theorem tabsIn_read {t : State} (hfits : (s.session L pages groups).Fits)
    (hfile : t.file = s.writeSession (s.session L pages groups) true) :
    tabsIn (t.readSession L true) = (tabsIn (s.session L pages groups)).map SavedTab.oneLined := by
  rw [State.writeSession, if_neg (by decide)] at hfile
  split_ifs at hfile with hnone
  · rw [State.readSession, hfile, tabsIn, tabsIn, hnone]
    rfl
  · rw [State.readSession, hfile]
    dsimp only
    rw [if_pos rfl, fromText_toText_of_fits hfits, tabsIn_kept, tabsIn_oneLined]
    -- a title on one line changes nothing of the address
    refine List.filter_eq_self.mpr fun tab htab => ?_
    obtain ⟨kept, hkept, rfl⟩ := List.mem_map.mp htab
    rw [State.session, tabsIn_kept] at hkept
    exact (List.mem_filter.mp hkept).2

/-! ### The launch -/

theorem restoredSince_openTabs (met : ℕ → Browser.Met) (s : State) (tabs : List SavedTab) :
    restoredSince (s.openTabs L met tabs).log = restoredSince s.log ++ tabs := by
  induction tabs generalizing s with
  | nil => exact (List.append_nil _).symm
  | cons tab tabs ih =>
    have hone : restoredSince (s.restore L met tab).log = restoredSince s.log ++ [tab] := by
      rw [State.restore, State.note, restoredSince_concat]
      rfl
    rw [State.openTabs, List.foldl_cons, ← State.openTabs, ih, hone, List.append_assoc]
    rfl

/-- The pinned tabs, and what is kept for later, are the whole session. -/
theorem pinned_withoutPinned_perm {saved : Session}
    (hall : ∀ tab ∈ tabsIn saved, tab.savable L.parse = true) :
    (pinnedIn saved ++ tabsIn (if pinnedIn saved = [] then saved
      else saved.withoutPinned L.parse)).Perm (tabsIn saved) := by
  split_ifs with hnone
  · rw [hnone]
    exact List.Perm.refl _
  · rw [tabsIn_withoutPinned, List.filter_eq_self.mpr, pinnedIn]
    · exact List.filter_append_perm SavedTab.pinned (tabsIn saved)
    · exact fun tab htab => hall tab (List.mem_filter.mp htab).1

/-- **A launch that can browse** opens the session that it reads, or keeps it for later: all of
it, each tab once. -/
theorem restored_launch {met : ℕ → Browser.Met} (hlast : s.lastSession = ⟨[]⟩)
    (keepsWindows readable asked : Bool)
    (hall : ∀ tab ∈ tabsIn (s.readSession L readable), tab.savable L.parse = true) :
    let s' := s.launch L met true keepsWindows readable asked
    (restoredSince s'.log ++ tabsIn s'.lastSession).Perm (tabsIn (s.readSession L readable)) := by
  rw [State.launch]
  dsimp only
  generalize hs₁ : ({ s with
    browser := { s.browser with app := { s.browser.app with ready := true } }
    launched := true }.note (.launched true (s.readSession L readable))) = s₁
  have hnone : restoredSince s₁.log = [] := by
    rw [← hs₁, State.note, restoredSince_concat]
  have hlast₁ : s₁.lastSession = ⟨[]⟩ := by
    rw [← hs₁]
    exact hlast
  have hready : s₁.browser.app.ready = true := by
    rw [← hs₁]
    rfl
  generalize s.readSession L readable = saved at hall ⊢
  obtain ⟨front, hdef, hfront⟩ : ∃ front,
      (if (!asked) = true then s₁.newWindow L met .page false else s₁) = front ∧
        restoredSince front.log = [] := by
    refine ⟨_, rfl, ?_⟩
    split_ifs
    · exact hnone
    · exact hnone
  have hpinned := pinned_withoutPinned_perm hall
  rw [State.openFirstWindows, hdef]
  generalize (if pinnedIn saved = [] then saved else saved.withoutPinned L.parse) = rest
    at hpinned ⊢
  dsimp only
  rw [if_neg (by rw [hready]; decide)]
  split_ifs with hkeeps
  · rw [restoredSince_openTabs, hnone, (openTabs_keeps met s₁ (tabsIn saved)).1, hlast₁]
    exact List.Perm.of_eq (List.append_nil _)
  · rw [restoredSince_openTabs, hfront]
    exact hpinned

/-- **Nothing of the person's is lost by quitting.** Whatever happened before, if AppKit's groups
of tabs divide the open windows, the session fits its file, and the file is written and read, then
what the next launch opens and what it keeps for later are together the person's tabs that may be
opened again: each once, and its title on one line. -/
theorem survives_of_runs {events : List ((ℕ → Browser.Met) × Event)} {s s' : State}
    {m₁ m₂ m₃ : ℕ → Browser.Met} {keepsWindows asked : Bool}
    (h : Events.Runs (Step L) State.start events s) (hready : s.browser.app.ready = true)
    (hgroups : Classes.Divides groups.tabsOf s.windows) (hfits : (s.session L pages groups).Fits)
    (hagain : Events.Runs (Step L) s [(m₁, .willTerminate pages groups true), (m₂, .began),
      (m₃, .launched true keepsWindows true asked)] s') :
    (restoredSince s'.log ++ tabsIn s'.lastSession).Perm
      ((s.toKeep L pages).map SavedTab.oneLined) := by
  cases hagain with
  | cons hquit hagain =>
    cases hagain with
    | cons hbegan hagain =>
      cases hagain with
      | cons hlaunched hnil =>
        cases hnil
        have hsound : Sound L s :=
          h.invariant (fun _ _ _ hs hstep => sound_step hs hstep) sound_start
        have hquit' : s.after L m₁ (.willTerminate pages groups true) = some _ := hquit.2
        obtain rfl := Option.some.inj hquit'
        have hbegan' : (s.quit L pages groups true).after L m₂ .began = some _ := hbegan.2
        obtain rfl := Option.some.inj hbegan'
        have hlaunched' : (s.quit L pages groups true).begin.after L m₃
            (.launched true keepsWindows true asked) = some _ := hlaunched.2
        obtain rfl := Option.some.inj hlaunched'
        have hfile : (s.quit L pages groups true).begin.file =
            s.writeSession (s.session L pages groups) true := by
          rw [State.quit, if_neg (by rw [hready]; decide)]
          rfl
        -- what is read may be opened, as everything that is ever read
        have hall := readSession_right (hsound.quit pages groups true).begin true
        refine (restored_launch rfl keepsWindows true asked fun tab htab =>
          (hall tab htab).1).trans ?_
        rw [tabsIn_read hfits hfile]
        exact (tabsIn_session_perm hgroups hsound.windows.1).map _

end

/-- One window with a page is open. -/
def onePage : List ((ℕ → Browser.Met) × Event) :=
  [(sampleMet, .launched true false true true), (sampleMet, .window (.opens .page))]

/-- Its tab is to be kept. -/
def pageKept (s : State) : Bool :=
  let tab : SavedTab := ⟨"https://a.example/", "A", false⟩
  s.browser.app.ready && decide (s.windows = [1]) &&
    decide (s.session sampleLibrary (fun _ => samplePage) alone = ⟨[⟨[tab], 0⟩]⟩) &&
    decide (s.toKeep sampleLibrary (fun _ => samplePage) = [tab])

theorem survives_of_runs_onePage : ∃ s s', Events.Runs (Step sampleLibrary) State.start onePage s ∧
    pageKept s = true ∧
    Events.Runs (Step sampleLibrary) s
      [(sampleMet, .willTerminate (fun _ => samplePage) alone true), (sampleMet, .began),
        (sampleMet, .launched true true true true)] s' ∧
    (restoredSince s'.log ++ tabsIn s'.lastSession).Perm
      ((s.toKeep sampleLibrary fun _ => samplePage).map SavedTab.oneLined) := by
  obtain ⟨s, hruns, hkept⟩ : ∃ s,
      Events.Runs (Step sampleLibrary) State.start onePage s ∧ pageKept s = true :=
    Events.exists_runs_of_follow (by decide +kernel)
  have hfacts := hkept
  simp only [pageKept, Bool.and_eq_true, decide_eq_true_eq] at hfacts
  obtain ⟨⟨⟨hready, hwindows⟩, hsession⟩, -⟩ := hfacts
  have hgroups : Classes.Divides alone.tabsOf s.windows := by
    rw [hwindows]
    exact
      { self := fun a _ => List.mem_singleton_self a
        sub := fun a ha b hb => by rwa [List.mem_singleton.mp hb]
        same := fun a _ b hb => by rw [List.mem_singleton.mp hb]
        nodup := fun a _ => List.nodup_singleton a }
  have hplain : ("https://a.example/".toList.all fun c => !isControl c) = true := by
    decide +kernel
  have hfits : (s.session sampleLibrary (fun _ => samplePage) alone).Fits := by
    rw [hsession]
    refine ⟨by decide, fun window hwindow => ?_⟩
    obtain rfl := List.mem_singleton.mp hwindow
    refine ⟨by decide, fun tab htab c hc => ?_⟩
    obtain rfl := List.mem_singleton.mp htab
    simpa using List.all_eq_true.mp hplain c hc
  have hagain : Events.Runs (Step sampleLibrary) s
      [(sampleMet, .willTerminate (fun _ => samplePage) alone true), (sampleMet, .began),
        (sampleMet, .launched true true true true)] _ :=
    .cons ⟨rfl, rfl⟩ (.cons ⟨rfl, rfl⟩ (.cons ⟨rfl, rfl⟩ (.nil _)))
  exact ⟨s, _, hruns, hkept, hagain, survives_of_runs hruns hready hgroups hfits hagain⟩

end Reopen

end Syndeo.App
