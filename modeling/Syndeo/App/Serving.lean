import Syndeo.App.Control

/-!
# The threads of the connections

Each connection is served on a thread of its own, which hands its requests to the main thread
and waits for the answer. A request that opens a page or goes to one is done when its page is:
the thread then looks at the tab again and again until the page is there, and what it saw last
is the answer. It looks twice, for a page that says it is there may be loaded once more.
-/

namespace Syndeo.App

/-! ### Waiting for a page -/

/-- `Arrival`: what a wait for a tab's page waits for. -/
inductive Arrival
  | now
  | «at» (target : String)
  | next
  deriving DecidableEq

/-- A wait that is going on: `settle`, between two looks. `again` is set where the page looked
like it was there, and is looked at once more. Times are in milliseconds. -/
structure Settle where
  id : Value
  tab : ℕ
  needs : Option Scope
  timeout : ℕ
  arrival : Arrival
  started : ℕ
  seen : Bool
  again : Bool

/-- `busy`. -/
def busy (state : Value) : Bool := (state.field "loading").isTrue || (state.field "settling").isTrue

/-- Whether what is waited for has come. -/
def Arrival.arrived (seen : Bool) (elapsed : ℕ) (state : Value) : Arrival → Bool
  | .now => true
  | .at target => seen || (state.field "url").asStr = some target
  | .next => seen || 1000 ≤ elapsed

namespace Settle

/-- Unless the time is over, it looks again. -/
def goOn (now : ℕ) (state : Value) (s : Settle) : Settle ⊕ Value :=
  if s.timeout ≤ now - s.started then
    .inr (answerOf s.id (.ok (state.set "loaded" (.bool false))))
  else .inl { s with again := false }

/-- One look: the wait goes on, or is answered. -/
def look (now : ℕ) (probed : Except Failure Value) (s : Settle) : Settle ⊕ Value :=
  match probed with
  | .error failure => .inr (answerOf s.id (.error failure))
  | .ok state =>
    if s.again then
      if busy state then { s with seen := true }.goOn now state
      else .inr (answerOf s.id (.ok (state.set "loaded" (.bool true))))
    else
      let seen := s.seen || busy state
      if !busy state && s.arrival.arrived seen (now - s.started) state then
        .inl { s with seen, again := true }
      else { s with seen }.goOn now state

end Settle

/-! ### Doing a request -/

/-- What `perform` makes of the main thread's answer. -/
def perform (now : ℕ) (id : Value) (cmd : Command) (result : Except Failure Value) :
    Settle ⊕ Value :=
  let answer := answerOf id result
  let done := answer.field "result"
  match cmd.waits, (done.field "tab").asNat with
  | some timeout, some tab =>
    if !(answer.field "ok").isTrue then .inr answer
    else
      let arrival := match (done.field "url").asStr, (done.field "from").asStr with
        | some target, some «from» => if target ≠ «from» then .at target else .next
        | _, _ => .next
      .inl ⟨id, tab, none, timeout, arrival, now, false, false⟩
  | _, _ => .inr answer

/-- A thread: with no request, waiting for the main thread on a channel, or for a page. -/
inductive Thread
  | idle
  | waiting (channel : ℕ) (id : Value) (command : Command)
  | settling (settle : Settle)

/-- The application: the control, the threads, how many channels there were, and the answers
that were written, each to its connection. -/
structure Served where
  control : Control
  threads : ℕ → Thread
  channels : ℕ
  written : List (ℕ × Value)

/-- What a thread does, or the main thread. -/
inductive Act
  /-- A step of the main thread that no request is. -/
  | main (e : Event)
  /-- A connection's next request. The main thread may be too late with its answer. -/
  | serve (conn : ℕ) (id : Value) (command : Command) (late : Bool)
  /-- The time to wait for the main thread is over. -/
  | giveUp (conn : ℕ)
  /-- A look at the page that is waited for. -/
  | look (conn : ℕ)

/-- What an ask that was allowed is answered. -/
def Granted.value (granted : Granted) : Value :=
  .obj [("granted", .arr (granted.1.ids.map .str)), ("until", .str granted.2)]

/-- The answer that something that happened is, and where it goes. -/
def Note.answer : Note → Option (Reply × Except Failure Value)
  | .replied r result => some (r, result)
  | .already a granted => some (a.reply, .ok (Granted.value (granted, "already")))
  | .answered a result => some (a.reply, result.map Granted.value)
  | _ => none

namespace Served

/-- The application was set up. -/
def start (serving : Bool) : Served := ⟨.start serving, fun _ => .idle, 0, []⟩

/-- A thread goes on waiting for a page, or writes its answer and is done. -/
def settle (conn : ℕ) (s : Served) : Settle ⊕ Value → Served
  | .inl settle => { s with threads := Function.update s.threads conn (.settling settle) }
  | .inr answer =>
    { s with
      threads := Function.update s.threads conn .idle
      written := s.written ++ [(conn, answer)] }

/-- An answer of the main thread arrives, if its channel is still waited on. -/
def arrive (now : ℕ) (r : Reply) (result : Except Failure Value) (s : Served) : Served :=
  match s.threads r.conn with
  | .waiting channel id cmd =>
    if channel = r.channel then s.settle r.conn (perform now id cmd result) else s
  | _ => s

/-- Something happened on the main thread. -/
def hear (now : ℕ) (s : Served) (n : ℕ × Note) : Served :=
  match n.2.answer with
  | some (r, result) => s.arrive now r result
  | none => s

/-- The main thread took a step: what happened is heard. -/
def step (H : Hooks) (w : World) (e : Event) (s : Served) : Served :=
  let control := s.control.after H (w, e)
  (control.log.drop s.control.log.length).foldl (hear w.now) { s with control }

/-- A thread waits no longer for the main thread. -/
def giveUp (conn : ℕ) (s : Served) : Served :=
  match s.threads conn with
  | .waiting _ id _ =>
    s.settle conn (.inr (answerOf id (.error ⟨"timeout", "Syndeo did not answer in time"⟩)))
  | _ => s

/-- **One step of the application.** -/
def after (H : Hooks) (w : World) (s : Served) : Act → Served
  | .main e => s.step H w e
  | .serve conn id (.wait tab timeout) _ =>
    s.settle conn (.inl ⟨id, tab, some .read, timeout, .now, w.now, false, false⟩)
  | .serve conn id .bye _ => s.settle conn (.inr (answerOf id (.ok (.obj []))))
  | .serve conn id cmd late =>
    let waits := { s with
      threads := Function.update s.threads conn (.waiting s.channels id cmd)
      channels := s.channels + 1 }
    let asked := Event.job (.request ⟨conn, id, s.channels⟩ cmd)
    if late then { waits with control := s.control.after H (w, asked) }.giveUp conn
    else waits.step H w asked
  | .giveUp conn => s.giveUp conn
  | .look conn =>
    match s.threads conn with
    | .settling settle =>
      s.settle conn (settle.look w.now (s.control.probe H w conn settle.tab settle.needs))
    | _ => s

/-- **The answers that a connection gets.** -/
def answersTo (conn : ℕ) (s : Served) : List (ℕ × Value) := s.written.filter fun a => a.1 = conn

end Served

end Syndeo.App
