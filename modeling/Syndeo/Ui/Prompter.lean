import Syndeo.Concurrent.Events
import Syndeo.Shell.Handle

/-!
# Questions in a window

The shell that has a window asks the person through it: whoever has a question posts
it to a channel of a few places and waits, and the window takes one question at a
time out of the channel, draws its dialog, and sends what the person does there to
the one who asked. An asker that is not answered gives up, once it has waited for
`Syndeo.Ui.patience`.

Askers, the window and the person take their steps in any order, and time passes
between them (`Syndeo.Ui.Window.after`). Of each asker the state keeps, beside what
the program knows of it, two things that were: since when its dialog has been drawn,
and what the person did there.

An asker waits from when it has posted its question, and not from when the question
is drawn. So a question can be given up before anyone has seen it: behind another
one, or in a window that does not exist yet
(`Syndeo.Ui.passphrase_refused_unseen`). Where no wait runs out that began before
the question was drawn, and nobody posts into a full channel, every question is
answered by its own person (`Syndeo.Ui.answered_of_runs`).
-/

namespace Syndeo

namespace Ui

open Shell Events

/-- `PATIENCE`, in nanoseconds. -/
def patience : ℕ := 115 * 10 ^ 9

/-- The places of the channel to the window. -/
def asksCapacity : ℕ := 4

/-- `Ask`, but for where the answer goes, which is the channel of whoever asks. -/
inductive Ask (L : Libraries)
  | sign (request : SignatureRequest L)
  | confirm (title detail : String)
  | passphrase (label : String)

/-- What an asker is given. -/
inductive Given
  | decision (decision : Decision)
  | passphrase (typed : Option String)
  deriving DecidableEq

/-- How far a call of `ask_window` has come: it is in `send`, it has posted the
question, it waits since then, or it has returned. -/
inductive Stage
  | posting
  | posted
  | waiting (since : ℕ)
  | returned (given : Given) (time : ℕ)
  deriving DecidableEq

variable {L : Libraries}

/-- What silence is taken for. -/
def Ask.onSilence : Ask L → Given
  | .sign _ => .decision .no
  | .confirm _ _ => .decision .no
  | .passphrase _ => .passphrase none

/-- What the dialog of a question can send: the two buttons of one that is answered
by a decision, and the button and the field of one that is answered by a passphrase. -/
def Ask.offers : Ask L → Given → Bool
  | .sign _, .decision _ => true
  | .confirm _ _, .decision _ => true
  | .passphrase _, .passphrase _ => true
  | _, _ => false

/-- A call of `ask_window`: the question, how far it has come, and the one place of
the channel that the answer comes back through. What the person has done in its
dialog, and since when it was drawn, is kept beside it. -/
structure Asker (L : Libraries) where
  ask : Ask L
  stage : Stage
  slot : Option Given
  drawn : Option ℕ
  said : Option Given

/-- The call returns. -/
def Asker.give (a : Asker L) (given : Given) (time : ℕ) : Asker L :=
  { a with stage := .returned given time }

/-- What the shell with a window is at: `Session::start` before it has the status of
the keystore, the same while it unseals it, `main` with an error, the shell serving
before there is a window, the window drawing, the window after `on_exit`, and no
window any more. -/
inductive Phase
  | starting
  | unsealing
  | failed
  | serving
  | drawing
  | closing
  | gone
  deriving DecidableEq

/-- **The shell with a window**: the askers, the channel to the window, the dialog
that is drawn, and the flag that the window has gone. -/
structure Window (L : Libraries) where
  phase : Phase
  clock : ℕ
  askers : List (Asker L)
  asks : List ℕ
  modal : Option ℕ
  closed : Bool

/-- A step of an asker of its own: its question finds a place in the channel, it
begins to wait, and it returns with an answer, at the end of its patience, or because
nobody can answer it any more. -/
inductive Own
  | send
  | wait
  | receive
  | expire
  | disconnect

/-- What can happen: the keystore says how it is, and is unsealed or is not; the
window opens, or cannot; a question is asked; an asker takes a step; a frame is drawn;
the person does something in the dialog; the window exits, and is dropped; and time
passes. -/
inductive Event (L : Libraries)
  | status (initialized passphraseRequired : Bool)
  | unseal (ok : Bool)
  | opens (ok : Bool)
  | ask (ask : Ask L)
  | own (i : ℕ) (step : Own)
  | frame
  | click (given : Given)
  | exit
  | drop
  | tick (n : ℕ)

namespace Window

/-- Nobody has asked, and there is no window. -/
def start (clock : ℕ) : Window L := ⟨.starting, clock, [], [], none, false⟩

/-- The question is in the channel, or on the screen: it can be answered. -/
def Holds (s : Window L) (i : ℕ) : Prop := i ∈ s.asks ∨ s.modal = some i

instance (s : Window L) (i : ℕ) : Decidable (s.Holds i) := inferInstanceAs (Decidable (_ ∨ _))

/-- The window was closed. -/
def Gone (s : Window L) : Prop := s.phase = .closing ∨ s.phase = .gone

/-- How many are in `send`. -/
def posting (s : Window L) : ℕ := s.askers.countP fun a => a.stage = .posting

/-- `ask_window`, before it posts the question. -/
def askWindow (s : Window L) (ask : Ask L) : Window L :=
  { s with askers := s.askers ++
      [⟨ask, if s.closed then .returned ask.onSilence s.clock else .posting, none, none, none⟩] }

/-- `ask_window`, from there on: what a step makes of the asker and of the channel. -/
def step (s : Window L) (i : ℕ) (a : Asker L) : Own → Option (Asker L × List ℕ)
  | .send =>
    if a.stage = .posting then
      if s.phase = .gone then some (a.give a.ask.onSilence s.clock, s.asks)
      else if s.asks.length < asksCapacity then some ({ a with stage := .posted }, s.asks ++ [i])
      else none
    else none
  | .wait =>
    if a.stage = .posted then some ({ a with stage := .waiting s.clock }, s.asks) else none
  | .receive =>
    match a.stage, a.slot with
    | .waiting _, some given => some (a.give given s.clock, s.asks)
    | _, _ => none
  | .expire =>
    match a.stage, a.slot with
    | .waiting since, none =>
      if s.Holds i ∧ since + patience ≤ s.clock then
        some (a.give a.ask.onSilence s.clock, s.asks)
      else none
    | _, _ => none
  | .disconnect =>
    match a.stage, a.slot with
    | .waiting _, none =>
      if s.Holds i then none else some (a.give a.ask.onSilence s.clock, s.asks)
    | _, _ => none

/-- `App::drain`, of the questions: one at a time. -/
def drain (s : Window L) : Window L :=
  match s.modal, s.asks with
  | none, i :: rest =>
    { s with
      asks := rest
      modal := some i
      askers := s.askers.modify i fun a => { a with drawn := some s.clock } }
  | _, _ => s

/-- `App::modal`, where the person has decided: the dialog closes, and the answer is
sent, to nobody if the asker has given up. -/
def answer (s : Window L) (i : ℕ) (given : Given) : Window L :=
  { s with
    modal := none
    askers := s.askers.modify i fun a =>
      match a.stage with
      | .returned _ _ => { a with said := some given }
      | _ => { a with said := some given, slot := some given } }

/-- There is no window any more: what it held is dropped, and the end of the channel. -/
def dropped (s : Window L) : Window L := { s with phase := .gone, asks := [], modal := none }

/-- The calls that were made so far have returned, and none of them with a refusal. -/
def answered (s : Window L) : Bool :=
  s.askers.all fun a => match a.stage with
    | .returned given _ => given ≠ a.ask.onSilence
    | _ => false

/-- The calls that were made so far have returned. -/
def settled (s : Window L) : Bool :=
  s.askers.all fun a => match a.stage with
    | .returned _ _ => true
    | _ => false

/-- `unseal` of the window's `main`, up to where the passphrase is there. -/
def «unseal» (s : Window L) (initialized passphraseRequired : Bool) : Window L :=
  if !initialized then { s with phase := .failed }
  else if passphraseRequired then
    { s with phase := .unsealing }.askWindow (.passphrase "Keystore passphrase")
  else { s with phase := .unsealing }

/-- What comes of it. -/
def after (s : Window L) : Event L → Option (Window L)
  | .status initialized passphraseRequired =>
    if s.phase = .starting then some (s.unseal initialized passphraseRequired) else none
  | .unseal ok =>
    -- `main` waits for its own question, the only one there can be so far
    if s.phase = .unsealing ∧ s.settled then
      some { s with phase := if s.answered ∧ ok then .serving else .failed }
    else none
  | .opens ok =>
    if s.phase = .serving then
      some (if ok then { s with phase := .drawing } else s.dropped)
    else none
  | .ask ask =>
    if s.phase ∈ [.serving, .drawing, .closing, .gone] then some (s.askWindow ask) else none
  | .own i own => do
    let a ← s.askers[i]?
    let (a', asks) ← s.step i a own
    some { s with askers := s.askers.set i a', asks := asks }
  | .frame => if s.phase = .drawing then some s.drain else none
  | .click given => do
    let i ← s.modal
    let a ← s.askers[i]?
    if s.phase = .drawing ∧ a.ask.offers given then some (s.answer i given) else none
  | .exit => if s.phase = .drawing then some { s with phase := .closing, closed := true } else none
  | .drop => if s.phase = .closing then some s.dropped else none
  | .tick n => some { s with clock := s.clock + n }

/-- The wait of the asker began when its question had been drawn. -/
def drawnInTime (a : Asker L) : Bool :=
  match a.stage, a.drawn with
  | .waiting since, some time => time ≤ since
  | _, _ => false

/-- **In time**: nobody posts where the channel may be full, and no wait runs out that
began before the question was drawn. -/
def Timely (s : Window L) : Event L → Prop
  | .ask _ => s.closed = true ∨ s.phase = .gone ∨ s.asks.length + s.posting < asksCapacity
  | .own i .expire => (s.askers[i]?.all drawnInTime) = true
  | _ => True

/-- What happens. -/
abbrev Step : Window L → Event L → Window L → Prop := stepOf (fun _ _ => True) after

/-- What happens in time. -/
abbrev StepTimely : Window L → Event L → Window L → Prop := stepOf Timely after

end Window

end Ui

end Syndeo
