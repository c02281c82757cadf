import Syndeo.App.Direct
import Syndeo.Concurrent.Events
import Syndeo.Data.Table

/-!
# The windows of the browser

A window's controller hears from WebKit what its web view does, and from AppKit what the
person does in the window, in whatever order these happen. Each such call is a turn: it
reads what is outside (`Syndeo.App.Browser.Met`), and changes what the controller keeps
(`Syndeo.App.Browser.Controller`) and what the windows share
(`Syndeo.App.Application`). What it did that matters outside is noted in a log.

The web view itself is outside: its address at any time is anything, and so is the error
of a navigation that failed. Where the controls are drawn, and where a tab is placed, is
left to AppKit; what they show is in the state.
-/

namespace Syndeo.App

/-! ### Where a click opens -/

/-- `tabs::Opening`. -/
inductive Opening
  | here
  | tab (front : Bool)
  | window
  deriving DecidableEq

/-- `tabs::Click`. -/
structure Click where
  followed : Bool
  command : Bool
  shift : Bool
  option : Bool
  buttons : ℕ

/-- `opening`; the middle button is the third bit of the buttons. -/
def opening (click : Click) : Opening :=
  if click.followed = false then .here
  else if click.command && click.option then .window
  else if click.command || click.buttons.testBit 2 then .tab click.shift
  else .here

/-- `allowed_in_main_frame`. -/
def allowedInMainFrame (scheme : String) : Bool :=
  Text.toAsciiLowercase scheme ∈ ["http", "https", "about"]

namespace Browser

/-! ### What is outside -/

/-- What the `url` crate and macOS make of addresses. -/
structure Library where
  /-- `Url::parse`. -/
  parse : String → Option Url
  /-- `Url::host_str`, of the host that was parsed. -/
  hostStr : Host → String
  /-- Whether `NSURL::URLWithString` reads the address. -/
  nsUrl : String → Bool

/-- What a turn is met with. -/
structure Met where
  /-- The web view's address, and its scheme. -/
  url : Option (String × String)
  /-- The page of the search engine that is chosen. -/
  search : String → Option Url
  /-- The address, as text, that what was typed is read as. -/
  href : String → String
  /-- The hosts that the proxy has said were refused. -/
  said : List String
  /-- Whether macOS takes a new proxy configuration. -/
  excludes : Bool
  /-- Its major version. -/
  macos : ℕ
  /-- Whether a web view can be made, for a new window. -/
  made : Bool

/-- An error of a navigation (`NSError`). -/
structure NSError where
  domain : String
  code : ℤ
  /-- `NSErrorFailingURLStringKey`. -/
  failing : Option String
  localized : String

/-- What the pinner makes of a certificate (`pin::Judged`). -/
structure Judged where
  disposition : ℕ
  pinnedByMacos : Bool

/-- `USE_CREDENTIAL`. -/
def useCredential : ℕ := 0

/-- `INTERRUPTED`. -/
def interrupted : ℤ := 102

/-- `asked`: what another application asks to open, and why not. -/
def asked (parse : String → Option Url) (address : String) : Except String Url :=
  let text := Text.trim address
  let scheme := (explicitScheme text.toList).getD ""
  if scheme ≠ "http" ∧ scheme ≠ "https" then
    .error (if scheme = "" then text ++ " is not a web address Syndeo can open."
      else otherScheme scheme)
  else if hasZone text.toList then .error zoned
  else
    match (parse text).filter Url.namesHost with
    | some url => .ok url
    | none => .error (text ++ " is not a web address Syndeo can open.")

namespace Library

variable (L : Library)

/-- `host_in`. -/
def hostIn (address : String) : Option String :=
  ((((L.parse address).bind Url.host).map L.hostStr).filter (· ≠ "")).map Text.toAsciiLowercase

/-- `route_with`. -/
def routeWith (address : String) (direct : List String) : Option Route := do
  let route ← routeOf L.parse address
  let url ← L.parse address
  let host ← url.host
  return if sentDirect (L.hostStr host) direct then .direct else route

end Library

/-! ### The controller -/

/-- How a tab starts (`Start`). -/
inductive Start
  | page
  | request (address : String)
  /-- As a tab that was closed was, with WebKit's record of its history or without. -/
  | again (address : String) (history : Bool)
  | later (address title : String)

/-- What a window's controller keeps (`Ivars`), with the address field, the route that is shown
beside it and the icon of its tab. -/
structure Controller where
  /-- There is a web view. -/
  web : Bool
  /-- There are the window's controls. -/
  ui : Bool
  failed : Option String
  loading : Bool
  refused : Bool
  shown : String
  typing : Bool
  later : Option (String × String)
  iconMissed : Bool
  page : ℕ
  vouched : List String
  macosPinned : List String
  retried : Option String
  lookingAgain : Bool
  field : String
  route : Option Route
  icon : Option ℕ

/-- A controller of a new window, which browses or does not. -/
def Controller.new (browses : Bool) : Controller where
  web := browses
  ui := browses
  failed := none
  loading := false
  refused := false
  shown := ""
  typing := false
  later := none
  iconMissed := false
  page := 0
  vouched := []
  macosPinned := []
  retried := none
  lookingAgain := false
  field := ""
  route := none
  icon := none

/-- What happened in a window. -/
inductive Note
  /-- The pinner vouched for the host's certificate. -/
  | vouched (host : String)
  /-- macOS pins the host itself. -/
  | pinned (host : String)
  /-- The proxy has said that these were refused. -/
  | said (hosts : List String)
  | failed (domain : String) (code : ℤ) (address : String)
  /-- A navigation started, with this as the web view's address. -/
  | started (address : String)
  /-- A page of the web's is there, with these domains sent directly. -/
  | arrived (address : String) (direct : List String)
  /-- A page is there that is not the web's. -/
  | notWeb
  /-- A page of Syndeo's own is put in the web view: the start page, or why an address is not
  opened. -/
  | own (failure : Option (String × String))
  /-- The web view is told to load the address. -/
  | loads (address : String)
  /-- The web view is told to load its page from the origin. -/
  | reloads
  /-- A navigation is let through, or not. -/
  | decided (address : String) (allowed : Bool)
  /-- The hosts are sent directly from now on. -/
  | sent (hosts : List String)
  /-- The page is loaded again for that. -/
  | again (address : String)
  /-- The person typed in the address field. -/
  | typed (text : String)
  /-- The person left the address field, by Return or otherwise. -/
  | left (byReturn : Bool)
  /-- An address is gone to. -/
  | went (address : String)
  deriving DecidableEq

/-- **A turn of a window**: what it has of the state. -/
structure Turn where
  app : Application
  window : ℕ
  c : Controller
  log : List (ℕ × Note)
  /-- The tabs that are opened beside this one. -/
  opens : List Start

/-- `Put host last in list`: `remember`, with `VOUCHED` as the bound. -/
def remember (list : List String) (host : String) : List String :=
  let list := list.filter (· ≠ host) ++ [host]
  if 64 < list.length then list.tail else list

namespace Turn

variable (L : Library) (m : Met) (t : Turn)

def set (f : Controller → Controller) : Turn := { t with c := f t.c }

def note (n : Note) : Turn := { t with log := t.log ++ [(t.window, n)] }

section

variable {t} {f : Controller → Controller} {n : Note}

@[simp] theorem c_set : (t.set f).c = f t.c := rfl

@[simp] theorem app_set : (t.set f).app = t.app := rfl

@[simp] theorem window_set : (t.set f).window = t.window := rfl

@[simp] theorem log_set : (t.set f).log = t.log := rfl

@[simp] theorem c_note : (t.note n).c = t.c := rfl

@[simp] theorem app_note : (t.note n).app = t.app := rfl

@[simp] theorem window_note : (t.note n).window = t.window := rfl

@[simp] theorem log_note : (t.note n).log = t.log ++ [(t.window, n)] := rfl

end

/-- `page_address`. -/
def pageAddress : String := if t.c.web then (m.url.map Prod.fst).getD "" else ""

/-- The web view's address is one of the web. -/
def isWeb (scheme : String) : Bool := Text.toAsciiLowercase scheme ∈ ["http", "https"]

/-- `show_address`. -/
def showAddress : Turn :=
  if t.c.typing || !t.c.ui then t else t.set fun c => { c with field := c.shown }

/-- `set_shown`. -/
def setShown (text : String) : Turn := (t.set fun c => { c with shown := text }).showAddress

/-- `show_route`. -/
def showRoute (route : Option Route) : Turn :=
  if t.c.ui then (t.set fun c => { c with route := route }) else t

/-- `loadHTMLString`, of a page of Syndeo's own. -/
def loadOwn (failure : Option (String × String)) : Turn :=
  if t.c.web then t.note (.own failure) else t

/-- `load`. -/
def load (address : String) : Turn := if t.c.web then t.note (.loads address) else t

/-- `show_page`. -/
def showPage (address why : String) : Turn :=
  let failed := if address = "" then none else some address
  (((t.set fun c => { c with failed := failed }).loadOwn (some (address, why))).setShown
    address).showRoute none

/-- `show_start_page`. -/
def showStartPage : Turn :=
  let t := t.loadOwn none
  ((t.set fun c => { c with failed := none }).setShown "").showRoute none

/-- `go`. -/
def go (typed : String) : Turn :=
  let t := (t.set fun c => { c with typing := false }).note (.went typed)
  match interpret L.parse m.search typed with
  | .empty => t.showAddress
  | .refused why => t.showPage typed why
  | .load _ | .search _ =>
    let url := m.href typed
    let t := t.set fun c => { c with failed := none }
    if L.nsUrl url then (t.setShown url).load url
    else t.showPage typed "That address could not be read."

/-- `refresh_address`. -/
def refreshAddress : Turn :=
  match m.url with
  | none => t
  | some (text, scheme) =>
    if t.c.web = false then t
    else if isWeb scheme then
      let t := (t.set fun c => { c with failed := none }).note (.arrived text t.app.direct)
      (t.setShown text).showRoute (L.routeWith text t.app.direct)
    else (t.note .notWeb).showRoute none

/-- `load_again`. -/
def loadAgain (address : String) : Turn :=
  if L.nsUrl address then
    ((t.set fun c => { c with retried := some address }).note (.again address)).load address
  else t

/-- `send_direct` took effect: the page is loaded again for it. -/
def retry (app : Application) (hosts : List String) (address : String) : Turn :=
  ({ t with app := app }.note (.sent hosts)).loadAgain L address

/-- `send_refused_parts_direct`. -/
def sendRefusedPartsDirect (again : Bool) : Turn :=
  let address := t.pageAddress m
  if address = "" ∨ t.c.retried = some address then t
  else
    let t := { t with app := t.app.refused m.said }.note (.said m.said)
    let hosts := toSendDirect t.c.vouched t.app.heard t.c.macosPinned t.app.direct
    if hosts = [] then
      if again then t else t.set fun c => { c with lookingAgain := true }
    else
      match t.app.sendDirect hosts m.excludes with
      | (true, app) => t.retry L app hosts address
      | (false, _) => t

/-- What `retry_direct` does of a refusal: the page is loaded again, or says what macOS did. -/
def retryFor (refusal : Refusal) (host address : String) : Turn :=
  match t.app.sendDirect [host] m.excludes with
  | (true, app) => t.retry L app [host] address
  | (false, _) => t.showPage address (explain refusal host m.macos)

/-- `retry_direct`; nothing where it did not. -/
def retryDirect (error : NSError) : Option Turn :=
  let address := error.failing.getD ""
  (L.hostIn address).bind fun host =>
    match afterFailure (refusal error.domain error.code (host ∈ t.c.vouched)
      (host ∈ t.c.macosPinned)) (t.c.retried = some address) with
    | .asWebKitSays => none
    | .retryDirect refusal => some (t.retryFor L m refusal host address)

/-- `show_failure`. -/
def showFailure (error : NSError) : Turn :=
  let address := error.failing.getD ""
  let why := if hasZone address.toList then zoned
    else if error.domain = "WebKitErrorDomain" ∧ error.code = interrupted then
      "Syndeo opens web pages. It does not download files or open other kinds of address."
    else error.localized
  t.showPage address why

/-! ### WebKit -/

/-- `did_receive_challenge`. -/
def didReceiveChallenge (host : Option String) (judged : Judged) : Turn :=
  let host := host.map Text.toAsciiLowercase
  -- a host that goes around the proxy is macOS's to trust
  if host.any fun host => sentDirect host t.app.direct then t
  else
    let judged := if t.c.web then judged else ⟨2, false⟩
    match host with
    | none => t
    | some host =>
      if judged.disposition = useCredential then
        (t.set fun c => { c with vouched := remember c.vouched host }).note (.vouched host)
      else if judged.pinnedByMacos then
        (t.set fun c => { c with macosPinned := remember c.macosPinned host }).note
          (.pinned host)
      else t

/-- `open_beside`; nothing where the address is one that no window shows. -/
def openBeside (scheme target : String) : Option Turn :=
  if allowedInMainFrame scheme then some { t with opens := t.opens ++ [.request target] } else none

/-- `decide_policy`. -/
def decidePolicy (mainFrame : Bool) (scheme target : String) (click : Click) : Turn :=
  let zone := hasZone target.toList
  let beside := if opening click ≠ .here ∧ zone = false then t.openBeside scheme target else none
  match beside with
  | some t => (t.set fun c => { c with refused := mainFrame }).note (.decided target false)
  | none =>
    let allowed := (!mainFrame || allowedInMainFrame scheme) && !zone
    let refused := if !allowed && mainFrame then true else t.c.refused
    let t := (t.set fun c => { c with refused := refused }).note (.decided target allowed)
    if zone && mainFrame then t.showPage target zoned else t

/-- `did_start`. -/
def didStart : Turn :=
  let now := t.pageAddress m
  let retried := if t.c.retried = some now then t.c.retried else none
  (t.set fun c => { c with refused := false, retried := retried, loading := true }).note
    (.started now)

/-- `did_commit`. -/
def didCommit : Turn :=
  (t.set fun c => { c with page := c.page + 1, icon := none }).refreshAddress L m

/-- `did_finish`. -/
def didFinish : Turn :=
  ((t.set fun c => { c with loading := false }).refreshAddress L m).sendRefusedPartsDirect L m
    false

/-- `did_fail_provisional`. -/
def didFailProvisional (error : NSError) : Turn :=
  let t := (t.set fun c => { c with loading := false }).note
    (.failed error.domain error.code (error.failing.getD ""))
  -- WebKit reports a navigation that this window refused as a load it interrupted
  if error.code = interrupted ∧ t.c.refused = true then
    t.set fun c => { c with refused := false }
  else
    match t.retryDirect L m error with
    | some t => t
    | none => if error.code = cancelled then t else t.showFailure error

/-- What `find_icon` finds of the page it looked at. -/
def iconFound (page : ℕ) (icon : Option ℕ) : Turn :=
  if t.c.page = page then (t.set fun c => { c with iconMissed := icon.isNone, icon := icon })
  else t

/-! ### The person -/

/-- `window_did_become_key`. -/
def becomeKey : Turn :=
  match t.c.later with
  | some (address, _) => (t.set fun c => { c with later := none }).go L m address
  | none => t

/-- `control_text_did_change`. -/
def didChange (text : String) : Turn :=
  (t.set fun c => { c with typing := true, field := text }).note (.typed text)

/-- `control_text_did_end_editing`. -/
def didEndEditing (byReturn : Bool) : Turn :=
  let t := (t.set fun c => { c with typing := false }).note (.left byReturn)
  if byReturn then t else t.showAddress

/-- `reload`. -/
def reload : Turn :=
  match t.c.failed with
  | some address => t.go L m address
  | none => if t.c.web then t.note .reloads else t

/-- `stop`. -/
def stop : Turn := t.set fun c => { c with loading := false }

/-- `look_again_for_refused_parts`. -/
def lookAgain : Turn :=
  let t := t.set fun c => { c with lookingAgain := false }
  if t.c.loading then t else t.sendRefusedPartsDirect L m true

/-- `window_will_close`. -/
def willClose : Turn := t.set fun c => { c with web := false, icon := none }

/-- `restore`, or what `new_window` does otherwise with a window that browses. -/
def begin : Start → Turn
  | .page => t.showStartPage
  | .request address => t.load address
  | .again address history =>
    if address = "" then t.showStartPage
    else (if history then t else t.go L m address).setShown address
  | .later address title =>
    let t := t.setShown address
    t.set fun c => { c with later := some (address, title) }

end Turn

/-! ### The browser -/

/-- What a window is told. -/
inductive Callback
  | challenge (host : Option String) (judged : Judged)
  | policy (mainFrame : Bool) (scheme target : String) (click : Click)
  | newWindow (scheme target : String)
  | start
  | commit
  | finish
  | failProvisional (error : NSError)
  | fail
  | icon (page : ℕ) (icon : Option ℕ)
  | becomeKey
  | change (text : String)
  | endEditing (byReturn : Bool)
  | navigate
  | reload
  | reloadOrStop
  | stop
  | lookAgain
  | refuse (address why : String)
  | close

/-- What happens: a window is opened; another application asks for an address; or a window is told
something. -/
inductive Event
  | opens (start : Start)
  | asked (address : String)
  | told (window : ℕ) (callback : Callback)

/-- The application delegate's state: what the windows share, and the windows. -/
structure State where
  app : Application
  windows : Tables.Table ℕ Controller
  next : ℕ
  log : List (ℕ × Note)

namespace Turn

/-- What a window does. -/
def callback (L : Library) (m : Met) (t : Turn) : Callback → Turn
  | .challenge host judged => t.didReceiveChallenge host judged
  | .policy mainFrame scheme target click => t.decidePolicy mainFrame scheme target click
  | .newWindow scheme target => (t.openBeside scheme target).getD t
  | .start => t.didStart m
  | .commit => t.didCommit L m
  | .finish => t.didFinish L m
  | .failProvisional error => t.didFailProvisional L m error
  | .fail => t.stop
  | .icon page icon => t.iconFound page icon
  | .becomeKey => t.becomeKey L m
  | .change text => t.didChange text
  | .endEditing byReturn => t.didEndEditing byReturn
  | .navigate => t.go L m t.c.field
  | .reload => t.reload L m
  | .reloadOrStop => if t.c.loading then t.stop else t.reload L m
  | .stop => t.stop
  | .lookAgain => t.lookAgain L m
  | .refuse address why => t.showPage address why
  | .close => t.willClose

end Turn

namespace State

/-- Nothing is open. -/
def start (ready : Bool) : State := ⟨⟨ready, [], []⟩, ∅, 1, []⟩

variable (L : Library) (m : Met) (s : State)

/-- A turn is over. -/
def past (t : Turn) : State :=
  { s with app := t.app, windows := s.windows.insert t.window t.c, log := t.log }

/-- `new_window`, with the number of the window. -/
def newWindow (start : Start) : State :=
  let t : Turn := ⟨s.app, s.next, .new (s.app.ready && m.made), s.log, []⟩
  { s.past (if t.c.web then t.begin L m start else t) with next := s.next + 1 }

/-- A window takes its turn; the tabs that it opens beside itself are made. -/
def turn (window : ℕ) (c : Controller) (callback : Callback) : State :=
  let t : Turn := Turn.callback L m ⟨s.app, window, c, s.log, []⟩ callback
  t.opens.foldl (fun s start => s.newWindow L m start) (s.past t)

/-- A window is told something, if there is such a window. -/
def tell (window : ℕ) (callback : Callback) : Option State :=
  (s.windows.lookup window).map fun c => s.turn L m window c callback

/-- A new window that says why the address is not opened. -/
def refuseAsked (address why : String) : State :=
  let opened := s.newWindow L m .page
  (opened.tell L m s.next (.refuse address why)).getD opened

/-- `open_asked`. -/
def openAsked (address : String) : State :=
  match Browser.asked L.parse address with
  | .ok _ =>
    if L.nsUrl (m.href address) then s.newWindow L m (.request (m.href address))
    else s.refuseAsked L m address "That address could not be read."
  | .error why => s.refuseAsked L m address why

/-- **One event.** -/
def after (e : Met × Event) : Option State :=
  match e.2 with
  | .opens start => some (s.newWindow L e.1 start)
  | .asked address => some (s.openAsked L e.1 address)
  | .told window callback => s.tell L e.1 window callback

/-- There is an address field where something is typed. -/
def hasField : Event → Bool
  | .told window (.change _) => (s.windows.lookup window).any Controller.ui
  | _ => true

end State

/-- One step. -/
abbrev Step (L : Library) : State → Met × Event → State → Prop :=
  Events.stepOf (fun s e => s.hasField e.2 = true) fun s e => s.after L e

end Browser

end Syndeo.App
