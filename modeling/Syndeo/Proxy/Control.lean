import Syndeo.Concurrent.Events
import Syndeo.Data.Lines
import Syndeo.Http.Text

/-!
# Asking the proxy

The browser that started the proxy asks it for things down one pipe and hears the
answers on another, a line each. The questions have no numbers and the answers
say nothing of what they answer; besides the answers, the proxy says on its own
which hosts' browsers refused its certificate. What keeps the answers and the
questions together is the lock a question holds from before it is written until
it is answered or given up, and that nothing is asked after one was given up.

A `Syndeo.Proxy.Control` is everything the two processes share: the lock and who
waits for it, the bytes in either pipe, the thread that reads the proxy's lines
one byte at a time, the channel and the queue it puts them in, and how far the
proxy is with a command. `Syndeo.Proxy.Control.after` is what each event makes of
it, and the log says what happened.
-/

namespace Syndeo.Proxy

open Syndeo.Text

/-! ### What is said -/

/-- What a clear of the cache came to: how many entries there were, or a failure. -/
inductive Clear
  | ok (entries : UInt64)
  | failed
  deriving DecidableEq, Repr

/-- The proxy's `CLEARED`. -/
def clearedText : List Char := "SYNDEO-PROXY-CLEARED 1".toList

/-- `FAILED`, on both sides. -/
def failedText : List Char := "SYNDEO-PROXY-FAILED 1".toList

/-- `UNKNOWN`. -/
def unknownText : List Char := "SYNDEO-PROXY-UNKNOWN 1".toList

/-- `refusals::REFUSED`. -/
def refusedText : List Char := "SYNDEO-PROXY-REFUSED 1".toList

/-- The answer to `clear-cache`. -/
def answerText : Clear → List Char
  | .ok entries => clearedText ++ ' ' :: (toString entries.toNat).toList
  | .failed => failedText

/-- What `refusals::line` says, without the end of the line. -/
def refusedLine (host : List Char) : List Char := refusedText ++ ' ' :: host

/-- Why a question came to nothing. -/
inductive Trouble
  | stoppedAnswering
  | stopped
  | notAsked
  | timedOut
  | couldNotClear
  | notACount
  | notAnAnswer (answer : List Char)
  deriving DecidableEq, Repr

/-- `cleared`: how many entries the proxy said it cleared. -/
def cleared (answer : List Char) : Except Trouble ℕ :=
  match stripStart (clearedText ++ [' ']) answer with
  | some entries =>
    if entries ≠ [] ∧ ∀ c ∈ entries, c.isDigit = true then
      match parseU64 entries with
      | some n => .ok n
      | none => .error .notACount
    else if answer = failedText then .error .couldNotClear
    else .error (.notAnAnswer answer)
  | none =>
    if answer = failedText then .error .couldNotClear else .error (.notAnAnswer answer)

/-! ### The bounds -/

/-- `MAX_COMMAND`. -/
def maxCommand : ℕ := 64

/-- `MAX_ANSWER`. -/
def maxAnswer : ℕ := 288

/-- `REFUSED_KEPT`. -/
def refusedKept : ℕ := 256

/-- `CAPACITY`, of the hosts said in one run. -/
def refusalCapacity : ℕ := 4096

/-- The byte that ends a line. -/
def newline : UInt8 := 10

/-- `clear-cache`, as it is written. -/
def clearCommand : List UInt8 := utf8 "clear-cache"

/-- Whether a line is the command: the line and its end are no longer than
`MAX_COMMAND`, and it is `clear-cache`. -/
def isCommand (line : List UInt8) : Bool :=
  line.length + 1 ≤ maxCommand && line == clearCommand

/-- A name, and nothing that could break the line it goes in. -/
def isRefusedName (host : List Char) : Bool :=
  !host.isEmpty && host.length ≤ 253 &&
    host.all fun c => (c.isAlpha || c.isDigit) || c == '.' || c == '-'

/-- `push_back` on a queue that is bounded: the oldest goes first. -/
def keepRefused (refused : List (List Char)) (host : List Char) : List (List Char) :=
  (if refusedKept ≤ refused.length then refused.drop 1 else refused) ++ [host]

/-! ### The state -/

/-- Who holds the lock of the control: nobody, a question about to be written, or
one that waits for its answer. -/
inductive Holder
  | free
  | asking (id : ℕ)
  | awaiting (id : ℕ)
  deriving DecidableEq, Repr

/-- How far the proxy is: it reads commands, runs `clear`, has an answer to write,
or is gone. -/
inductive Server
  | listening
  | clearing
  | answering (answer : List Char)
  | gone
  deriving DecidableEq, Repr

/-- What happened. -/
inductive Entry
  | called (id : ℕ)
  | asked (id : ℕ)
  | began
  | ended (result : Clear)
  | returned (id : ℕ) (result : Except Trouble ℕ)
  | said (host : List Char)
  | heard (host : List Char)
  | took (hosts : List (List Char))

/-- The call of `id`. -/
def Entry.isCallOf (id : ℕ) : Entry → Bool
  | .called id' => id' == id
  | _ => false

structure Control where
  holder : Holder
  waiting : List ℕ
  stdinOpen : Bool
  outOfStep : Bool
  answers : List (List Char)
  refused : List (List Char)
  /-- The pipe to the proxy. -/
  commands : List UInt8
  /-- The pipe from it. -/
  output : List UInt8
  reader : Lines.Reader UInt8
  /-- The reading thread has not come to the end of the pipe. -/
  reading : Bool
  server : Server
  /-- `Refusals::said`. -/
  saidHosts : List (List Char)
  log : List Entry

namespace Control

/-- A proxy that has announced itself. -/
def start : Control where
  holder := .free
  waiting := []
  stdinOpen := true
  outOfStep := false
  answers := []
  refused := []
  commands := []
  output := []
  reader := .start
  reading := true
  server := .listening
  saidHosts := []
  log := []

/-- One thing more has happened. -/
def note (c : Control) (e : Entry) : Control := { c with log := c.log ++ [e] }

/-- The question returns, and lets go of the lock. -/
def finish (c : Control) (id : ℕ) (result : Except Trouble ℕ) : Control :=
  { c with holder := .free, log := c.log ++ [.returned id result] }

/-- `clear_cache` up to the write: with the lock, and nothing left of what was said
before. -/
def enter (c : Control) (id : ℕ) : Control :=
  let c := { c with waiting := c.waiting.erase id }
  if c.outOfStep then c.finish id (.error .stoppedAnswering)
  else
    let c := { c with answers := [] }
    if c.stdinOpen then { c with holder := .asking id } else c.finish id (.error .stopped)

/-- A line that was read whole: a refused host, or an answer. -/
def hear (c : Control) (line : List UInt8) : Control :=
  match Utf8.decode line with
  | none => c
  | some text =>
    match stripStart (refusedText ++ [' ']) text with
    | some host => { c with refused := keepRefused c.refused host, log := c.log ++ [.heard host] }
    | none => { c with answers := c.answers ++ [text] }

/-- One byte out of the pipe. -/
def readByte (c : Control) (b : UInt8) (rest : List UInt8) : Control :=
  let r := c.reader.read newline maxAnswer b
  let c := { c with output := rest, reader := r.1 }
  match r.2 with
  | some (some line) => c.hear line
  | _ => c

/-- A line on the proxy's output, in one write. -/
def write (c : Control) (text : List Char) : Control :=
  { c with output := c.output ++ (Utf8.encode text ++ [newline]) }

/-- The proxy has read a line: it clears, or answers that it knows nothing of it. -/
def command (c : Control) (line rest : List UInt8) : Control :=
  if isCommand line then
    { c with commands := rest, server := .clearing, log := c.log ++ [.began] }
  else { c with commands := rest, server := .answering unknownText }

/-- `Refusals::handshake_failed`, of a handshake that was refused: the host is said
the first time. -/
def handshakeFailed (c : Control) (host : List Char) : Control :=
  let host := host.map lowerChar
  if isRefusedName host ∧ c.saidHosts.length < refusalCapacity ∧ host ∉ c.saidHosts then
    { c.write (refusedLine host) with
      saidHosts := c.saidHosts ++ [host], log := c.log ++ [.said host] }
  else c

/-! ### What happens -/

/-- What can happen next. -/
inductive Event
  /-- `clear_cache` is called. -/
  | call (id : ℕ)
  /-- It gets the lock. -/
  | enter (id : ℕ)
  /-- Its question is written, or cannot be. -/
  | ask (written : Bool)
  /-- It has an answer. -/
  | answer
  /-- It has waited long enough. -/
  | timeOut
  /-- There will be no answer. -/
  | disconnect
  | close
  /-- `refused` is called. -/
  | takeRefused
  /-- The reading thread reads a byte. -/
  | read
  /-- It comes to the end. -/
  | readEnd
  /-- The proxy reads a line. -/
  | command
  /-- Its `clear` returns. -/
  | cleared (result : Clear)
  /-- It writes its answer. -/
  | reply
  /-- A handshake with a browser is refused. -/
  | refuse (host : List Char)
  /-- The proxy exits, or is killed, or cannot write. -/
  | exit
  deriving DecidableEq

/-- **What an event makes of the state**, where it can happen. -/
def after (c : Control) : Event → Option Control
  | .call id =>
    if c.log.all fun e => !e.isCallOf id then
      some { c with waiting := c.waiting ++ [id], log := c.log ++ [.called id] }
    else none
  | .enter id => if c.holder = .free ∧ id ∈ c.waiting then some (c.enter id) else none
  | .ask written =>
    match c.holder with
    | .asking id =>
      if written then
        some { c with
          commands := c.commands ++ (clearCommand ++ [newline])
          holder := .awaiting id
          log := c.log ++ [.asked id] }
      else some (c.finish id (.error .notAsked))
    | _ => none
  | .answer =>
    match c.holder, c.answers with
    | .awaiting id, a :: rest => some ({ c with answers := rest }.finish id (Proxy.cleared a))
    | _, _ => none
  | .timeOut =>
    match c.holder with
    | .awaiting id => some ({ c with outOfStep := true }.finish id (.error .timedOut))
    | _ => none
  | .disconnect =>
    match c.holder with
    | .awaiting id =>
      if c.answers = [] ∧ c.reading = false then some (c.finish id (.error .stopped)) else none
    | _ => none
  | .close => if c.holder = .free then some { c with stdinOpen := false } else none
  | .takeRefused => some { c with refused := [], log := c.log ++ [.took c.refused] }
  | .read =>
    match c.output with
    | b :: rest => if c.reading then some (c.readByte b rest) else none
    | [] => none
  | .readEnd =>
    if c.output = [] ∧ c.server = .gone then some { c with reading := false } else none
  | .command =>
    if c.server = .listening ∧ newline ∈ c.commands then
      some (c.command (c.commands.takeWhile (· ≠ newline))
        ((c.commands.dropWhile (· ≠ newline)).drop 1))
    else none
  | .cleared result =>
    if c.server = .clearing then
      some { c with server := .answering (answerText result), log := c.log ++ [.ended result] }
    else none
  | .reply =>
    match c.server with
    | .answering answer => some { c.write answer with server := .listening }
    | _ => none
  | .refuse host => if c.server = .gone then none else some (c.handshakeFailed host)
  | .exit => some { c with server := .gone }

/-- The runs. -/
def Step (c : Control) (e : Event) (c' : Control) : Prop := c.after e = some c'

end Control

end Syndeo.Proxy
