import Syndeo.App.Address
import Syndeo.App.Agent
import Syndeo.Concurrent.Events
import Syndeo.Data.Table

/-!
# The agent control

Programs connect, say who they are, ask for what they would do, and do it, in tabs of their
own. Everything happens on the main thread, where each request is a job. A request for leave
joins a queue, and the person is asked one prompt at a time; while a prompt is showing, jobs
go on. The control is a state machine that takes jobs, takes the next of those who wait, and
takes the person's answers (`Syndeo.App.Control.after`).

Beside the control stands a record of what happened (`Syndeo.App.Note`), of which nothing is
looked at. What a page is, and which windows are still open, is the world's.
-/

namespace Syndeo.App

open Tables

/-! ### The world -/

/-- What is done in a page for an agent. -/
inductive Action
  | click (element : String)
  | type (element text : String) (submit : Bool)
  | scroll (element : Option String) (dx dy : ℤ)
  deriving DecidableEq

/-- A page in a tab: how its web view and its window say it is, and what Syndeo's operations
in it come to. `acts` is what an action throws, or else how far the page is scrolled after it. -/
structure Page where
  url : Option String
  title : Option String
  loading : Bool
  /-- `may_load_again`. -/
  settling : Bool
  canGoBack : Bool
  canGoForward : Bool
  acts : Action → Except Failure (ℤ × ℤ)
  read : ℕ → Except Failure Value
  snapshot : ℕ → Except Failure Value
  picture : Except Failure Value
  eval : String → Except Failure Value

/-- What the application gives this module, and what it was built with. -/
structure Hooks where
  /-- `Url::parse`. -/
  parse : String → Option Url
  /-- The address of the `NSURLRequest` for what was typed, if macOS reads it. -/
  nsUrl : String → Option String
  /-- `sent_direct`, of the hosts this session sends directly. -/
  sentDirect : Host → Bool
  /-- `CARGO_PKG_VERSION`. -/
  version : String

/-- What one step is met with: the time, the window that a new one is and whether it browses,
which windows are open, and the pages in them. -/
structure World where
  now : ℕ
  window : ℕ
  browses : Bool
  isOpen : ℕ → Bool
  page : ℕ → Page

/-! ### The control -/

/-- `AFTER_DENIAL`, in milliseconds. -/
def afterDenial : ℕ := 10 * 1000

/-- Where an answer goes: to the thread of a connection, with the request's id, on a channel of
the request's own. -/
structure Reply where
  conn : ℕ
  id : Value
  channel : ℕ

/-- `Conn`, without its stream. -/
structure Conn where
  agent : Proc
  allowed : Bool
  once : Scopes

/-- `Agent`. -/
structure Agent where
  name : String
  number : ℕ
  session : Scopes
  peer : Peer

/-- `Tab`, by its window, which has its controller and its view. -/
structure Tab where
  agent : Proc
  window : ℕ

/-- `Ask`. Of `asker` and `since` nothing looks: they are a record of the process it is of, and
of how much had happened when it was made. -/
structure Ask where
  conn : ℕ
  scopes : Scopes
  hello : Bool
  reply : Reply
  asker : Proc
  since : ℕ

/-- `Answer`. -/
inductive Answer
  | deny
  | once
  | session
  deriving DecidableEq

/-- What an ask that was allowed is told: what is granted, and until when. -/
abbrev Granted := Scopes × String

/-- **What happens.** -/
inductive Note
  /-- A connection of a process was announced. -/
  | connected (conn : ℕ) (key : Proc)
  /-- A request other than an ask was answered. -/
  | replied (reply : Reply) (result : Except Failure Value)
  /-- An ask was answered at once, for what is allowed already. -/
  | already (ask : Ask) (granted : Scopes)
  /-- The person was asked, about a process. -/
  | shown (ask : Ask) (key : Proc)
  /-- The person answered. -/
  | said (ask : Ask) (key : Proc) (answer : Answer)
  /-- An ask that waited was answered. -/
  | answered (ask : Ask) (result : Except Failure Granted)
  /-- A command was let through. -/
  | ran (conn : ℕ) (key : Proc) (command : Command)
  /-- What a process was allowed was taken back. -/
  | revoked (key : Proc)

/-- Where the main thread is: at no ask, at the next of those who wait, or in a prompt, for an
ask and the process it is of. -/
inductive Turn
  | idle
  | taking
  | showing (ask : Ask) (key : Proc)

/-- `Control`, and the record. -/
structure Control where
  /-- The server is there. -/
  serving : Bool
  conns : Table ℕ Conn
  agents : Table Proc Agent
  tabs : Table ℕ Tab
  nextTab : ℕ
  nextAgent : ℕ
  waiting : List Ask
  turn : Turn
  denied : Table Proc ℕ
  clock : ℕ
  log : List (ℕ × Note)

/-- `not_allowed`. -/
def notAllowed : Failure :=
  ⟨"not_approved", "say hello first, and wait for the person to allow it"⟩

/-- An address that a web page may have, as it is typed: `web_url`. -/
def webUrl (H : Hooks) (text : String) : Except Failure Url :=
  match interpret H.parse (fun _ => none) text with
  | .load url =>
    if url.scheme = "http" ∨ url.scheme = "https" then .ok url
    else .error ⟨"refused", "agents open http and https addresses, not " ++ url.scheme ++ ": ones"⟩
  | .refused why => .error ⟨"refused", why⟩
  | .empty => .error (.bad "url is empty")
  | .search _ => .error ⟨"refused", text ++ " is not a web address"⟩

/-- `web_request` and `request_url`: the address of the request. -/
def webRequest (H : Hooks) (text : String) : Except Failure String := do
  let _ ← webUrl H text
  match H.nsUrl text with
  | some url => .ok url
  | none => .error ⟨"refused", "that address could not be read"⟩

/-- `Route::label`. -/
def Route.label : Route → String
  | .syndeo => "Through Syndeo"
  | .direct => "Direct — not cached by Syndeo"
  | .localNetwork => "Local — not cached by Syndeo"

/-- `route_with`. -/
def routeWith (H : Hooks) (address : String) : Option Route := do
  let route ← routeOf H.parse address
  let url ← H.parse address
  let host ← url.host
  return if H.sentDirect host then .direct else route

/-- `route_of`, of a tab. -/
def Page.route (H : Hooks) (page : Page) : Value :=
  match page.url.bind (routeWith H) with
  | some route => .str route.label
  | none => .null

/-- `state`: how a tab is. -/
def Page.state (H : Hooks) (page : Page) (tab : ℕ) : Value :=
  .obj [("tab", .num tab), ("url", .str (page.url.getD "")), ("title", .str (page.title.getD "")),
    ("loading", .bool page.loading), ("settling", .bool page.settling), ("route", page.route H)]

namespace Control

/-- The application was set up, with agents on or off. -/
def start (serving : Bool) : Control :=
  ⟨serving, ∅, ∅, ∅, 1, 1, [], .idle, ∅, 0, []⟩

/-- One thing more has happened. -/
def note (n : Note) (c : Control) : Control := { c with log := c.log ++ [(c.clock, n)] }

/-- A request other than an ask is answered. -/
def reply (r : Reply) (result : Except Failure Value) (c : Control) : Control :=
  c.note (.replied r result)

/-- `granted`. -/
def granted (c : Control) (conn : Conn) : Scopes :=
  conn.once ∪ ((c.agents.lookup conn.agent).map Agent.session).getD ∅

/-! ### Connections -/

/-- `release_tabs`. -/
def releaseTabs (key : Proc) (c : Control) : Control :=
  { c with tabs := retain (fun _ tab => tab.agent ≠ key) c.tabs }

/-- `connected`. -/
def connected (conn : ℕ) (peer : Peer) (c : Control) : Control :=
  match peer.agent with
  | none => c
  | some key =>
    if !c.serving then c
    else
      let c := match c.agents.lookup key with
        | some agent => { c with agents := c.agents.insert key { agent with peer } }
        | none =>
          { c with
            agents := c.agents.insert key ⟨displayName "", c.nextAgent, ∅, peer⟩
            nextAgent := c.nextAgent + 1 }
      { c with conns := c.conns.insert conn ⟨key, false, ∅⟩ }.note (.connected conn key)

/-- Whether a process has a connection. -/
def isConnected (key : Proc) (c : Control) : Bool := (rows c.conns).any fun row => row.2.agent = key

/-- `forget_if_done`. -/
def forgetIfDone (key : Proc) (c : Control) : Control :=
  if c.isConnected key ∨ ∃ agent ∈ c.agents.lookup key, agent.session ≠ ∅ then c
  else { c.releaseTabs key with agents := c.agents.erase key }

/-- `closed`. -/
def closed (conn : ℕ) (c : Control) : Control :=
  match c.conns.lookup conn with
  | none => c
  | some gone => { c with conns := c.conns.erase conn }.forgetIfDone gone.agent

/-- `revoke`. -/
def revoke (key : Proc) (c : Control) : Control :=
  let c := { c with conns := retain (fun _ conn => conn.agent ≠ key) c.conns }.releaseTabs key
  { c with agents := c.agents.erase key }.note (.revoked key)

/-- `stop_agent`. -/
def stopAgent (number : ℕ) (c : Control) : Control :=
  match (rows c.agents).find? fun row => row.2.number = number with
  | some (key, _) => c.revoke key
  | none => c

/-- `stop_serving`. -/
def stopServing (c : Control) : Control :=
  let c := (c.agents.keys).foldl (fun c key => c.revoke key) { c with serving := false }
  { c with conns := ∅ }

/-! ### The person's leave -/

/-- `allowed`, for an ask that was answered in one of two ways. -/
def allow (ask : Ask) (c : Control) : Control :=
  match c.conns.lookup ask.conn with
  | some conn =>
    if ask.hello then { c with conns := c.conns.insert ask.conn { conn with allowed := true } } else c
  | none => c

/-- An ask waits, and the loop of `ask` begins if it is not going on. -/
def queue (a : Ask) (c : Control) : Control :=
  { c with
    waiting := c.waiting ++ [a]
    turn := match c.turn with
      | .idle => .taking
      | turn => turn }

theorem turn_queue (a : Ask) (c : Control) :
    c.turn = .idle ∧ (c.queue a).turn = .taking ∨
      c.turn ≠ .idle ∧ (c.queue a).turn = c.turn := by
  rw [queue]
  cases hturn : c.turn with
  | idle => exact .inl ⟨rfl, rfl⟩
  | taking => exact .inr ⟨by simp, rfl⟩
  | showing b key => exact .inr ⟨by simp, rfl⟩

/-- `ask`, up to its loop. -/
def ask (a : Ask) (c : Control) : Control :=
  match (c.conns.lookup a.conn).map c.granted with
  | some already =>
    if already.covers a.scopes then (c.allow a).note (.already a already) else c.queue a
  | none => c.queue a

/-- Whether the person refused the process a moment ago. -/
def recently (now : ℕ) (key : Proc) (c : Control) : Bool :=
  (c.denied.lookup key).any fun at_ => now - at_ < afterDenial

/-- The next of those who wait: `answer`, up to its prompt. -/
def take (c : Control) : Control :=
  match c.waiting with
  | [] => { c with turn := .idle }
  | a :: rest =>
    let c := { c with waiting := rest }
    match c.conns.lookup a.conn with
    | none => c.note (.answered a (.error ⟨"revoked", "this connection is gone"⟩))
    | some conn =>
      let key := conn.agent
      let already := c.granted conn
      if already.covers a.scopes then (c.allow a).note (.answered a (.ok (already, "already")))
      else if c.recently c.clock key then
        c.note (.answered a (.error ⟨"denied",
          "the person refused this agent moments ago; wait before asking again"⟩))
      else if (c.agents.lookup key).isNone then
        c.note (.answered a (.error ⟨"revoked", "this agent is no longer known"⟩))
      else { c with turn := .showing a key }.note (.shown a key)

/-- The person's answer: the rest of `answer`. -/
def answer (said : Answer) (c : Control) : Control :=
  match c.turn with
  | .showing a key =>
    let c := { c with turn := .taking }.note (.said a key said)
    match c.conns.lookup a.conn with
    | none => c.note (.answered a (.error ⟨"revoked", "this connection is gone"⟩))
    | some conn =>
      match said with
      | .deny =>
        { c with denied := c.denied.insert key c.clock }.note
          (.answered a (.error ⟨"denied", "the person did not allow it"⟩))
      | .once =>
        let conn := { conn with once := conn.once ∪ a.scopes }
        let c := { c with conns := c.conns.insert a.conn conn }
        (c.allow a).note (.answered a (.ok (c.granted conn, "connection")))
      | .session =>
        let c := match c.agents.lookup key with
          | some agent =>
            { c with agents := c.agents.insert key { agent with session := agent.session ∪ a.scopes } }
          | none => c
        (c.allow a).note (.answered a (.ok (c.granted conn, "session")))
  | _ => c

/-! ### Tabs -/

/-- `window_closed`. -/
def windowClosed (w : World) (window : ℕ) (c : Control) : Control :=
  { c with tabs := retain (fun _ tab => w.isOpen tab.window && tab.window ≠ window) c.tabs }

/-- `adopt`: the number is `nextTab`. -/
def adopt (key : Proc) (window : ℕ) (c : Control) : Control :=
  { c with tabs := c.tabs.insert c.nextTab ⟨key, window⟩, nextTab := c.nextTab + 1 }

/-- `opened_beside`. -/
def openedBeside (w : World) (parent window : ℕ) (c : Control) : Control :=
  match (rows c.tabs).find? fun row => w.isOpen row.2.window && row.2.window = parent with
  | none => c
  | some (_, tab) => if w.browses then c.adopt tab.agent window else c

/-- `tab`: an agent's tab, if it is still open and is the agent's. -/
def tab (w : World) (key : Proc) (id : ℕ) (c : Control) : Except Failure Tab :=
  match (c.tabs.lookup id).filter fun t => t.agent = key ∧ w.isOpen t.window with
  | some t => .ok t
  | none => .error ⟨"no_such_tab",
      "there is no tab " ++ toString id ++ " of yours; it may have been closed"⟩

/-- The page in an agent's tab. -/
def pageOf (w : World) (key : Proc) (id : ℕ) (c : Control) : Except Failure Page :=
  (c.tab w key id).map fun t => w.page t.window

/-! ### Requests -/

/-- `open`. -/
def openTab (H : Hooks) (w : World) (key : Proc) (url : String) (c : Control) :
    Except Failure Value × Control :=
  match webRequest H url with
  | .error failure => (.error failure, c)
  | .ok address =>
    if w.browses then
      (.ok (.obj [("tab", .num c.nextTab), ("url", .str address), ("from", .str "")]),
        c.adopt key w.window)
    else
      (.error ⟨"unavailable", "Syndeo can't open websites right now; its windows say why"⟩, c)

/-- `goto`. -/
def goto (H : Hooks) (w : World) (key : Proc) (tab : ℕ) (url : String) (c : Control) :
    Except Failure Value := do
  let address ← webRequest H url
  let page ← c.pageOf w key tab
  return .obj [("tab", .num tab), ("url", .str address), ("from", (page.state H tab).field "url")]

/-- `step`. -/
def step (H : Hooks) (w : World) (key : Proc) (tab : ℕ) (step : Step) (c : Control) :
    Except Failure Value := do
  let page ← c.pageOf w key tab
  let nowhere (which : String) : Failure :=
    ⟨"refused", "there is no page to go " ++ which ++ " to in tab " ++ toString tab⟩
  if step = .back ∧ !page.canGoBack then .error (nowhere "back")
  else if step = .forward ∧ !page.canGoForward then .error (nowhere "forward")
  else return page.state H tab

/-- What an action in a page is answered with. -/
def actionAnswer (tab : ℕ) (action : Action) (scrolled : ℤ × ℤ) : Value :=
  match action with
  | .click element => .obj [("clicked", .str element), ("tab", .num tab)]
  | .type element _ _ => .obj [("typed", .str element), ("tab", .num tab)]
  | .scroll _ _ _ => .obj [("x", .num scrolled.1), ("y", .num scrolled.2), ("tab", .num tab)]

/-- `in_world`, of an action. -/
def inWorld (w : World) (key : Proc) (tab : ℕ) (action : Action) (c : Control) :
    Except Failure Value := do
  let page ← c.pageOf w key tab
  return actionAnswer tab action (← page.acts action)

/-- `in_world`, of what reads the page. -/
def readWorld (H : Hooks) (w : World) (key : Proc) (tab : ℕ)
    (reads : Page → Except Failure Value) (c : Control) : Except Failure Value := do
  let page ← c.pageOf w key tab
  return ((← reads page).set "tab" (.num tab)).set "route" (page.route H)

/-- `command`. -/
def command (H : Hooks) (w : World) (key : Proc) (granted : Scopes) (cmd : Command)
    (c : Control) : Except Failure Value × Control :=
  match cmd with
  | .status =>
    (.ok (.obj [("version", .str H.version),
      ("agent", .str (((c.agents.lookup key).map Agent.name).getD "")),
      ("granted", .arr (granted.ids.map .str)),
      ("tabs", .arr (((rows c.tabs).filter fun row => row.2.agent = key).map
        Prod.fst |>.mergeSort.map fun id => .num id))]), c)
  | .tabs =>
    (.ok (.obj [("tabs", .arr (((rows c.tabs).filter fun row =>
        row.2.agent = key ∧ w.isOpen row.2.window).mergeSort (fun a b => a.1 ≤ b.1) |>.map
        fun row => (w.page row.2.window).state H row.1))]), c)
  | .open url _ _ => c.openTab H w key url
  | .goto tab url _ _ => (c.goto H w key tab url, c)
  | .history tab step _ _ => (c.step H w key tab step, c)
  | .select tab => ((c.pageOf w key tab).map fun page => page.state H tab, c)
  | .close tab =>
    ((c.tab w key tab).map fun _ => .obj [("tab", .num tab), ("closed", .bool true)], c)
  | .read tab maxChars => (c.readWorld H w key tab fun page => page.read maxChars, c)
  | .snapshot tab maxElements => (c.readWorld H w key tab fun page => page.snapshot maxElements, c)
  | .click tab element => (c.inWorld w key tab (.click element), c)
  | .type tab element text submit => (c.inWorld w key tab (.type element text submit), c)
  | .scroll tab element dx dy => (c.inWorld w key tab (.scroll element dx dy), c)
  | .screenshot tab =>
    ((c.pageOf w key tab).bind fun page => page.picture.map fun png => png.set "tab" (.num tab), c)
  | .eval tab script =>
    ((c.pageOf w key tab).bind fun page =>
      (page.eval script).map fun value => .obj [("tab", .num tab), ("value", value)], c)
  | .wait _ _ | .hello _ _ | .request _ | .bye => (.error (.bad "not here"), c)

/-- The refusal of a command that needs what was not allowed. -/
def notGranted (scope : Scope) : Failure :=
  ⟨"not_granted", scope.id ++ " was not allowed; ask for it with \x7b\"cmd\": \"request\", " ++
    "\"scope\": \"" ++ scope.id ++ "\"\x7d"⟩

/-- `request`. -/
def request (H : Hooks) (w : World) (r : Reply) (cmd : Command) (c : Control) : Control :=
  match c.conns.lookup r.conn with
  | none => c.reply r (.error ⟨"revoked",
      "this connection is no longer allowed; the person stopped it, or turned agents off"⟩)
  | some conn =>
    let asks (scopes : Scopes) (hello : Bool) : Ask :=
      ⟨r.conn, scopes, hello, r, conn.agent, c.log.length⟩
    match cmd with
    | .hello client scopes =>
      if conn.allowed then c.reply r (.error (.bad "hello was already said"))
      else
        let c := match c.agents.lookup conn.agent with
          | some agent =>
            { c with agents := c.agents.insert conn.agent { agent with name := displayName client } }
          | none => c
        c.ask (asks scopes true)
    | .request scope =>
      if !conn.allowed then c.reply r (.error notAllowed) else c.ask (asks {scope} false)
    | cmd =>
      if !conn.allowed then c.reply r (.error notAllowed)
      else
        match cmd.needs.filter (· ∉ c.granted conn) with
        | some scope => c.reply r (.error (notGranted scope))
        | none =>
          let (result, c) := (c.note (.ran r.conn conn.agent cmd)).command H w conn.agent
            (c.granted conn) cmd
          c.reply r result

/-- `probe`. -/
def probe (H : Hooks) (w : World) (conn tab : ℕ) (needs : Option Scope) (c : Control) :
    Except Failure Value :=
  match c.conns.lookup conn with
  | none => .error ⟨"revoked", "this connection is no longer allowed"⟩
  | some k =>
    if !k.allowed then .error notAllowed
    else
      match needs.filter (· ∉ c.granted k) with
      | some scope => .error ⟨"not_granted", scope.id ++ " was not allowed"⟩
      | none => (c.pageOf w k.agent tab).map fun page => page.state H tab

end Control

/-! ### Runs -/

/-- A job for the main thread, or what the person or the windows do. A probe changes nothing,
and what it gives is not recorded. -/
inductive Job
  | connected (conn : ℕ) (peer : Peer)
  | request (reply : Reply) (command : Command)
  | closed (conn : ℕ)
  | stopAgent (number : ℕ)
  | switch (on : Bool)
  | windowClosed (window : ℕ)
  | openedBeside (parent window : ℕ)

/-- A step of the main thread. -/
inductive Event
  | job (job : Job)
  | take
  | said (answer : Answer)

namespace Control

/-- What a job comes to. -/
def job (H : Hooks) (w : World) (c : Control) : Job → Control
  | .connected conn peer => c.connected conn peer
  | .request r cmd => c.request H w r cmd
  | .closed conn => c.closed conn
  | .stopAgent number => c.stopAgent number
  | .switch on => if on then { c with serving := true } else c.stopServing
  | .windowClosed window => c.windowClosed w window
  | .openedBeside parent window => c.openedBeside w parent window

/-- **One step of the control.** -/
def after (H : Hooks) (c : Control) (e : World × Event) : Control :=
  let c := { c with clock := e.1.now }
  match e.2 with
  | .job j => c.job H e.1 j
  | .take => c.take
  | .said said => c.answer said

/-- The connections that were announced. -/
def announced (c : Control) : List ℕ :=
  c.log.filterMap fun n => match n.2 with
    | .connected conn _ => some conn
    | _ => none

/-- **When a step may be taken**: the clock does not go back; a prompt is answered while it
shows, and between two prompts the loop alone goes on; and a connection is announced once. -/
def Ready (c : Control) (e : World × Event) : Prop :=
  c.clock ≤ e.1.now ∧
    match e.2 with
    | .job j => c.turn ≠ .taking ∧ ∀ conn peer, j = .connected conn peer → conn ∉ c.announced
    | .take => c.turn = .taking
    | .said _ => ∃ a key, c.turn = .showing a key

instance (t : Turn) : Decidable (t = .taking) :=
  match t with
  | .taking => .isTrue rfl
  | .idle => .isFalse nofun
  | .showing _ _ => .isFalse nofun

instance (t : Turn) : Decidable (∃ a key, t = .showing a key) :=
  match t with
  | .showing a key => .isTrue ⟨a, key, rfl⟩
  | .idle => .isFalse nofun
  | .taking => .isFalse nofun

instance (j : Job) (p : ℕ → Prop) [DecidablePred p] :
    Decidable (∀ conn peer, j = .connected conn peer → p conn) :=
  match j with
  | .connected conn _ =>
    decidable_of_iff (p conn) ⟨fun h _ _ heq => (Job.connected.inj heq).1 ▸ h, fun h => h _ _ rfl⟩
  | .request _ _ | .closed _ | .stopAgent _ | .switch _ | .windowClosed _ | .openedBeside _ _ =>
    .isTrue nofun

instance (c : Control) (e : World × Event) : Decidable (c.Ready e) :=
  match e with
  | (_, .job _) => inferInstanceAs (Decidable (_ ∧ _ ∧ _))
  | (_, .take) => inferInstanceAs (Decidable (_ ∧ _))
  | (_, .said _) => inferInstanceAs (Decidable (_ ∧ _))

/-- One step of the control, which may be taken. -/
abbrev Step (H : Hooks) : Control → World × Event → Control → Prop :=
  Events.stepOf Ready fun c e => some (c.after H e)

/-- **A run of the control.** -/
abbrev Runs (H : Hooks) : Control → List (World × Event) → Control → Prop := Events.Runs (Step H)

end Control

end Syndeo.App
