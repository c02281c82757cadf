import Mathlib.Data.List.Perm.Subperm
import Syndeo.App.Browser
import Syndeo.App.Tabs
import Syndeo.Data.Classes

/-!
# What can be opened again

A tab that was closed can be opened again as long as the application runs, and what was open
when it quit can be opened at the next launch: from a file, and of that the pinned tabs or
everything at once, and the rest when the person asks. An agent's tabs are never among them, and
clearing the browsing data forgets them all.

The state is what one process keeps and the file that outlives it; a process may also end without
quitting. The windows themselves are those of `Syndeo.App.Browser`.
-/

namespace Syndeo.App

namespace Reopen

/-- `Snapshot`; `history` is that WebKit's record of the tab's history is in it. -/
structure Snapshot where
  address : String
  title : String
  pinned : Bool
  history : Bool
  deriving DecidableEq

/-- The tab of a session that a snapshot makes. -/
def Snapshot.saved (self : Snapshot) : SavedTab := ⟨self.address, self.title, self.pinned⟩

/-- What a web view says of its page. -/
structure Page where
  title : String
  url : Option String

/-- What happened. -/
inductive Entry
  /-- A process begins. -/
  | began
  /-- It can browse or cannot, and the session that it found. -/
  | launched (ready : Bool) (saved : Session)
  /-- A tab is closed, an agent's or the person's. -/
  | closed (agents : Bool) (snapshot : Snapshot)
  /-- A tab that was closed is opened again. -/
  | reopened (snapshot : Snapshot)
  /-- A tab of a session is opened. -/
  | restored (tab : SavedTab)
  /-- The application quits, with these tabs open, an agent's or the person's; whether the file
  says so now. -/
  | quit (tabs : List (Bool × Snapshot)) (written : Bool)
  /-- The browsing data is cleared; whether the file is gone. -/
  | forgot (removed : Bool)
  /-- Somebody else changes the file. -/
  | altered
  deriving DecidableEq

/-- `State`, as far as tabs are opened again, and the session file. -/
structure State where
  launched : Bool
  browser : Browser.State
  /-- The windows that are open, the oldest first. -/
  windows : List ℕ
  /-- Those that are an agent's tabs. -/
  agents : List ℕ
  pinned : List ℕ
  closed : List Snapshot
  lastSession : Session
  file : Option String
  log : List Entry

/-- What AppKit says of the windows' tabs. -/
structure Groups where
  /-- `tabs_of`. -/
  tabsOf : ℕ → List ℕ
  /-- The one in front, of the tabs of a window. -/
  front : List ℕ → Option ℕ

/-- What happens. -/
inductive Event
  | began
  /-- `did_finish_launching`: whether it can browse, whether macOS keeps windows, whether the file
  could be read, and whether addresses were asked for. -/
  | launched (ready keepsWindows readable asked : Bool)
  /-- Something happens in the windows; none is closed by it. -/
  | window (e : Browser.Event)
  | agentOpens (address : String)
  /-- An agent is stopped, and its tabs are the person's. -/
  | released (windows : List ℕ)
  | duplicate (window : ℕ) (page : Page)
  | togglePin (window : ℕ)
  | closes (window : ℕ) (page : Page)
  | reopenClosedTab
  | reopenRecent (index : ℕ)
  | reopenSession
  /-- Clear Browsing Data, and whether the file could be removed. -/
  | forgetTabs (removed : Bool)
  /-- `will_terminate`, and whether the file could be written, or removed. -/
  | willTerminate (pages : ℕ → Page) (groups : Groups) (written : Bool)
  | altered (file : Option String)

/-- What a session has of a tab that shows nothing of its own. -/
def noTab : SavedTab := ⟨"", "", false⟩

/-- `KEPT_CLOSED`. -/
def keptClosed : ℕ := 25

/-- `Closed::push`. -/
def pushClosed (closed : List Snapshot) (tab : Snapshot) : List Snapshot :=
  (tab :: closed).take keptClosed

/-- The tabs of a session, window by window. -/
def tabsIn (session : Session) : List SavedTab := session.windows.flatMap SavedWindow.tabs

/-- `Session::pinned`. -/
def pinnedIn (session : Session) : List SavedTab := (tabsIn session).filter SavedTab.pinned

namespace State

/-- The first process of all. -/
def start : State := ⟨false, .start false, [], [], [], [], ⟨[]⟩, none, []⟩

variable (L : Browser.Library) (met : ℕ → Browser.Met) (s : State)

def note (e : Entry) : State := { s with log := s.log ++ [e] }

/-- `BrowserController::snapshot`. -/
def snapshot (page : Page) (window : ℕ) : Option Snapshot :=
  (s.browser.windows.lookup window).bind fun c =>
    let pinned := decide (window ∈ s.pinned)
    if c.web = false then none
    else match c.later, c.failed, page.url.filter (savable L.parse) with
      | some (address, title), _, _ => some ⟨address, title, pinned, false⟩
      | none, some address, _ => some ⟨address, page.title, pinned, false⟩
      | none, none, some address => some ⟨address, page.title, pinned, true⟩
      | none, none, none => some ⟨"", "", pinned, false⟩

/-- `new_window`, and the tab is pinned. -/
def newWindow (start : Browser.Start) (pin : Bool) : State :=
  { s with
    browser := s.browser.newWindow L (met s.browser.next) start
    windows := s.windows ++ [s.browser.next]
    pinned := if pin then s.pinned ++ [s.browser.next] else s.pinned }

/-- A tab of a session, opened when it is first shown. -/
def restore (tab : SavedTab) : State :=
  (s.newWindow L met (.later tab.address tab.title) tab.pinned).note (.restored tab)

/-- `open_session`, of its tabs. -/
def openTabs (tabs : List SavedTab) : State := tabs.foldl (fun s tab => s.restore L met tab) s

/-- `read_session`. -/
def readSession (readable : Bool) : Session :=
  match s.file with
  | some text => if readable then Session.fromText L.parse text else ⟨[]⟩
  | none => ⟨[]⟩

/-- `open_first_windows`, of the session that was read. -/
def openFirstWindows (startPage keepsWindows : Bool) (saved : Session) : State :=
  let front := if startPage then s.newWindow L met .page false else s
  if s.browser.app.ready = false then front
  else if keepsWindows = true ∧ saved.windows ≠ [] then s.openTabs L met (tabsIn saved)
  else { front.openTabs L met (pinnedIn saved) with
    lastSession := if pinnedIn saved = [] then saved else saved.withoutPinned L.parse }

/-- The launch: what it decides is said first. -/
def launch (ready keepsWindows readable asked : Bool) : State :=
  let saved := s.readSession L readable
  let browser := { s.browser with app := { s.browser.app with ready } }
  let s := { s with browser, launched := true }.note (.launched ready saved)
  s.openFirstWindows L met (!asked) keepsWindows saved

/-- `forget`, of a window that closes. -/
def forget (window : ℕ) (snapshot : Option Snapshot) : State :=
  let agents := decide (window ∈ s.agents)
  let s := { s with
    agents := s.agents.filter (· ≠ window)
    windows := s.windows.filter (· ≠ window) }
  match snapshot with
  | none => s
  | some snapshot =>
    ({ s with closed := if agents then s.closed else pushClosed s.closed snapshot }).note
      (.closed agents snapshot)

/-- A window closes: what it was is taken before anything of it goes. -/
def close (window : ℕ) (page : Page) : Option State :=
  (s.browser.tell L (met window) window .close).map fun browser =>
    { s with browser }.forget window (s.snapshot L page window)

/-- `reopen`. -/
def reopen (snapshot : Snapshot) : State :=
  (s.newWindow L met (.again snapshot.address snapshot.history) snapshot.pinned).note
    (.reopened snapshot)

/-- The windows that have been made since. -/
def madeSince (browser : Browser.State) : List ℕ :=
  (List.range (browser.next - s.browser.next)).map (s.browser.next + ·)

/-- Whether the window has a web view. -/
def browses (browser : Browser.State) (window : ℕ) : Bool :=
  (browser.windows.lookup window).any Browser.Controller.web

/-- Something happens in the windows: a tab that a page of an agent's tab opens is the agent's. -/
def windowEvent (m : Browser.Met) (e : Browser.Event) : Option State :=
  (s.browser.after L (m, e)).map fun browser =>
    let made := s.madeSince browser
    let opener := match e with
      | .told window _ => decide (window ∈ s.agents)
      | _ => false
    { s with
      browser
      windows := s.windows ++ made
      agents := if opener then s.agents ++ made.filter (browses browser) else s.agents }

/-- An agent opens a tab; one that cannot browse is closed again. -/
def agentOpens (address : String) : Option State :=
  let window := s.browser.next
  let opened := s.newWindow L met (.request address) false
  if browses opened.browser window then some { opened with agents := opened.agents ++ [window] }
  else opened.close L met window ⟨"", none⟩

/-- One window of a session: its tabs but an agent's, and the one in front. -/
def savedWindow (pages : ℕ → Page) (groups : Groups) (tabbed : List ℕ) : SavedWindow :=
  let tabs := tabbed.filter (· ∉ s.agents)
  { tabs := tabs.map fun tab => ((s.snapshot L (pages tab) tab).map Snapshot.saved).getD noTab
    selected := tabs.zipIdx.foldl (fun selected tab =>
      if groups.front tabbed = some tab.1 then tab.2 else selected) 0 }

/-- `session`: every window's tabs, each tab group where one of its windows is first met. -/
def session (pages : ℕ → Page) (groups : Groups) : Session :=
  Session.kept L.parse ⟨(Classes.gather groups.tabsOf [] s.windows).filterMap fun tabbed =>
    if tabbed.filter (· ∉ s.agents) = [] then none else some (s.savedWindow L pages groups tabbed)⟩

/-- The tabs that hold something, each an agent's or the person's. -/
def openTabsNow (pages : ℕ → Page) : List (Bool × Snapshot) :=
  (Tables.rows s.browser.windows).filterMap fun row =>
    (s.snapshot L (pages row.1) row.1).map fun snapshot => (decide (row.1 ∈ s.agents), snapshot)

/-- `write_session`: the file, if it could be written, or removed where there is nothing to keep. -/
def writeSession (session : Session) (written : Bool) : Option String :=
  if written = false then s.file
  else if session.windows = [] then none else some session.toText

/-- `keep_session`, and what comes after it as the application quits: no agent has a tab any more,
and nothing browses. -/
def quit (pages : ℕ → Page) (groups : Groups) (written : Bool) : State :=
  if s.browser.app.ready = false then { s with agents := [] }
  else
    let browser := { s.browser with app := { s.browser.app with ready := false } }
    ({ s with
      browser
      agents := []
      file := s.writeSession (s.session L pages groups) written }).note
        (.quit (s.openTabsNow L pages) written)

/-- A new process: nothing is left but the file. -/
def begin : State := { start with file := s.file, log := s.log ++ [.began] }

/-- **One event.** -/
def after : Event → Option State
  | .began => some s.begin
  | .launched ready keepsWindows readable asked =>
    some (s.launch L met ready keepsWindows readable asked)
  | .window e => s.windowEvent L (met s.browser.next) e
  | .agentOpens address => s.agentOpens L met address
  | .released windows => some { s with agents := s.agents.filter (· ∉ windows) }
  | .duplicate window page =>
    (s.snapshot L page window).map fun snapshot =>
      s.newWindow L met (.again snapshot.address snapshot.history) false
  | .togglePin window => some { s with
      pinned := if window ∈ s.pinned then s.pinned.filter (· ≠ window) else s.pinned ++ [window] }
  | .closes window page => s.close L met window page
  | .reopenClosedTab =>
    match s.closed with
    | [] => some s
    | snapshot :: closed => some ({ s with closed }.reopen L met snapshot)
  | .reopenRecent index =>
    match s.closed[index]? with
    | none => some s
    | some snapshot =>
      some ({ s with closed := s.closed.eraseIdx index }.reopen L met snapshot)
  | .reopenSession =>
    some ({ s with lastSession := ⟨[]⟩ }.openTabs L met (tabsIn s.lastSession))
  | .forgetTabs removed =>
    some (({ s with
      closed := []
      lastSession := ⟨[]⟩
      file := if removed then none else s.file }).note (.forgot removed))
  | .willTerminate pages groups written => some (s.quit L pages groups written)
  | .altered file => some ({ s with file }.note .altered)

/-- The windows are told of a close by `closes`, an application is launched once, and only a
window that is open closes. -/
def mayHappen : Event → Bool
  | .window (.told window callback) =>
    decide (window ∈ s.windows) && match callback with | .close => false | _ => true
  | .launched .. => !s.launched
  | .closes window _ => decide (window ∈ s.windows)
  | .duplicate window _ => decide (window ∈ s.windows)
  | _ => true

end State

/-- One step. -/
abbrev Step (L : Browser.Library) : State → (ℕ → Browser.Met) × Event → State → Prop :=
  Events.stepOf (fun s e => s.mayHappen e.2 = true) fun s e => s.after L e.1 e.2

end Reopen

end Syndeo.App
