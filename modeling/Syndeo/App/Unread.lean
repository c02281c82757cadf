import Syndeo.App.Refusal
import Syndeo.App.Serving

/-!
# What a program learns of a page that it may not read

A scope is asked for what a command does, not for what its answer says. So a program that may
not read its pages still learns, from what it does to a tab, what a tab is told by: the address
and the title of its page, and whether it is loading. An answer to an action tells whether it
could be done, and how far the page is scrolled. Of the text, the list of links and fields, and
the picture of a page no answer tells anything
(`Syndeo.App.Served.answersTo_eq`): what an answer depends on is, for each command, what
`Syndeo.App.Command.Tells` says, and where that is nothing, any page at all gives the same
answer.
-/

namespace Syndeo.App

open Tables

/-! ### What an answer tells -/

/-- Two pages are the same to their tab: by address and title, and by whether they are loading. -/
structure Page.Outline (p q : Page) : Prop where
  url : p.url = q.url
  title : p.title = q.title
  loading : p.loading = q.loading
  settling : p.settling = q.settling

/-- The tab that a command is about. -/
def Command.tab : Command → Option ℕ
  | .read tab _ | .snapshot tab _ | .screenshot tab | .wait tab _ | .goto tab _ _ _
  | .history tab _ _ _ | .select tab | .close tab | .click tab _ | .type tab _ _ _
  | .scroll tab _ _ _ | .eval tab _ => some tab
  | _ => none

/-- **What the answer to a command tells of its tab's page**: pages that are the same in it are
answered the same. -/
def Command.Tells (cmd : Command) (p q : Page) : Prop :=
  match cmd with
  | .goto _ _ _ _ => p.url = q.url
  | .history _ step _ _ => p.Outline q ∧ (step = .back → p.canGoBack = q.canGoBack) ∧
      (step = .forward → p.canGoForward = q.canGoForward)
  | .select _ => p.Outline q
  | .click _ element => p.acts (.click element) = q.acts (.click element)
  | .type _ element text submit =>
    p.acts (.type element text submit) = q.acts (.type element text submit)
  | .scroll _ element dx dy => p.acts (.scroll element dx dy) = q.acts (.scroll element dx dy)
  | _ => True

theorem Page.Outline.state {p q : Page} (h : p.Outline q) (H : Hooks) (tab : ℕ) :
    p.state H tab = q.state H tab := by
  rw [Page.state, Page.state, Page.route, Page.route, h.url, h.title, h.loading, h.settling]

theorem Page.field_url_state (p : Page) (H : Hooks) (tab : ℕ) :
    (p.state H tab).field "url" = .str (p.url.getD "") := rfl

/-- Of a thing that happened, what is told to others does not matter. -/
def Note.Alike (conn : ℕ) (n n' : Note) : Prop :=
  n = n' ∨ ∃ r x x', r.conn ≠ conn ∧ n = .replied r x ∧ n' = .replied r x'

namespace Control

/-- **Two states of the control are the same to a connection**: but for what others were
told. -/
def Agree (conn : ℕ) (c c' : Control) : Prop :=
  ∃ log, c' = { c with log } ∧
    List.Forall₂ (fun n n' => n.1 = n'.1 ∧ Note.Alike conn n.2 n'.2) c.log log

variable {conn : ℕ} {c c' : Control} {H : Hooks} {w : World} {page : ℕ → Page}

theorem Agree.refl (conn : ℕ) (c : Control) : Agree conn c c :=
  ⟨c.log, rfl, List.forall₂_same.mpr fun _ _ => ⟨rfl, .inl rfl⟩⟩

theorem Agree.length (h : Agree conn c c') : c.log.length = c'.log.length := by
  obtain ⟨log, rfl, hlog⟩ := h
  exact hlog.length_eq

/-- What looks at nothing that happened, and records nothing. -/
theorem Agree.bare {f : Control → Control}
    (hf : ∀ c log, f { c with log } = { f c with log }) (h : Agree conn c c') :
    Agree conn (f c) (f c') := by
  obtain ⟨log, rfl, hlog⟩ := h
  refine ⟨log, hf c log, ?_⟩
  have hsame : f c = { f c with log := c.log } := hf c c.log
  rwa [congrArg Control.log hsame]

theorem Agree.note {n n' : Note} (h : Agree conn c c') (hn : Note.Alike conn n n') :
    Agree conn (c.note n) (c'.note n') := by
  obtain ⟨log, rfl, hlog⟩ := h
  exact ⟨log ++ [(c.clock, n')], rfl, List.rel_append hlog (.cons ⟨rfl, hn⟩ .nil)⟩

theorem Agree.note_same (h : Agree conn c c') (n : Note) : Agree conn (c.note n) (c'.note n) :=
  h.note (.inl rfl)

/-! ### What does not look at pages -/

theorem Agree.forgetIfDone (h : Agree conn c c') (key : Proc) :
    Agree conn (c.forgetIfDone key) (c'.forgetIfDone key) := by
  refine h.bare fun c log => ?_
  by_cases hkept : c.isConnected key ∨ ∃ agent ∈ c.agents.lookup key, agent.session ≠ ∅
  · have hc : c.forgetIfDone key = c := if_pos hkept
    have hlog : Control.forgetIfDone key { c with log } = { c with log } := if_pos hkept
    rw [hc, hlog]
  · have hc : c.forgetIfDone key = { c.releaseTabs key with agents := c.agents.erase key } :=
      if_neg hkept
    have hlog : Control.forgetIfDone key { c with log } =
        { c.releaseTabs key with agents := c.agents.erase key, log } := if_neg hkept
    rw [hc, hlog]

theorem Agree.closed (h : Agree conn c c') (id : ℕ) : Agree conn (c.closed id) (c'.closed id) := by
  obtain ⟨log, rfl, hlog⟩ := h
  simp only [Control.closed]
  split
  · exact ⟨log, rfl, hlog⟩
  · have herased : Agree conn { c with conns := c.conns.erase id }
        { c with conns := c.conns.erase id, log } := ⟨log, rfl, hlog⟩
    exact herased.forgetIfDone _

theorem Agree.allow (h : Agree conn c c') (a : Ask) : Agree conn (c.allow a) (c'.allow a) := by
  refine h.bare fun c log => ?_
  simp only [Control.allow]
  split
  · split_ifs <;> rfl
  · rfl

theorem Agree.revoke (h : Agree conn c c') (key : Proc) :
    Agree conn (c.revoke key) (c'.revoke key) := by
  obtain ⟨log, rfl, hlog⟩ := h
  exact ⟨log ++ [(c.clock, .revoked key)], rfl, List.rel_append hlog (.cons ⟨rfl, .inl rfl⟩ .nil)⟩

theorem Agree.stopAgent (h : Agree conn c c') (number : ℕ) :
    Agree conn (c.stopAgent number) (c'.stopAgent number) := by
  obtain ⟨log, rfl, hlog⟩ := h
  simp only [Control.stopAgent]
  split
  · exact Agree.revoke ⟨log, rfl, hlog⟩ _
  · exact ⟨log, rfl, hlog⟩

theorem Agree.stopServing (h : Agree conn c c') : Agree conn c.stopServing c'.stopServing := by
  have hfold : ∀ (keys : List Proc) (d d' : Control), Agree conn d d' →
      Agree conn (keys.foldl (fun d key => d.revoke key) d)
        (keys.foldl (fun d key => d.revoke key) d') := by
    intro keys
    induction keys with
    | nil => exact fun d d' hd => hd
    | cons key keys ih => exact fun d d' hd => ih _ _ (hd.revoke key)
  have hkeys : c'.agents.keys = c.agents.keys := by
    obtain ⟨log, rfl, -⟩ := h
    rfl
  rw [Control.stopServing, Control.stopServing, hkeys]
  have hserving := h.bare (f := fun c => { c with serving := false }) fun _ _ => rfl
  exact (hfold c.agents.keys _ _ hserving).bare (f := fun c => { c with conns := ∅ }) fun _ _ => rfl

theorem Agree.connected (h : Agree conn c c') (id : ℕ) (peer : Peer) :
    Agree conn (c.connected id peer) (c'.connected id peer) := by
  obtain ⟨log, rfl, hlog⟩ := h
  simp only [Control.connected]
  split
  · exact ⟨log, rfl, hlog⟩
  · rename_i key _
    split_ifs
    · exact ⟨log, rfl, hlog⟩
    · split
      · refine Agree.note_same ?_ _
        exact ⟨log, rfl, hlog⟩
      · refine Agree.note_same ?_ _
        exact ⟨log, rfl, hlog⟩

theorem Agree.openedBeside (h : Agree conn c c') (w : World) (parent window : ℕ) :
    Agree conn (c.openedBeside w parent window) (c'.openedBeside w parent window) := by
  refine h.bare fun c log => ?_
  simp only [Control.openedBeside]
  split
  · rfl
  · split_ifs <;> rfl

theorem Agree.ask (h : Agree conn c c') (a : Ask) : Agree conn (c.ask a) (c'.ask a) := by
  obtain ⟨log, rfl, hlog⟩ := h
  have hqueue : Agree conn (c.queue a) (Control.queue a { c with log }) := ⟨log, rfl, hlog⟩
  have hgranted : Control.granted { c with log } = c.granted := rfl
  simp only [Control.ask, hgranted]
  split
  · split_ifs
    · exact (Agree.allow ⟨log, rfl, hlog⟩ a).note_same _
    · exact hqueue
  · exact hqueue

theorem Agree.take (h : Agree conn c c') : Agree conn c.take c'.take := by
  obtain ⟨log, rfl, hlog⟩ := h
  simp only [Control.take]
  split
  · exact ⟨log, rfl, hlog⟩
  · rename_i a rest _
    have hrest : Agree conn { c with waiting := rest } { c with waiting := rest, log } :=
      ⟨log, rfl, hlog⟩
    have hgranted : ∀ k, Control.granted { c with waiting := rest, log } k =
        Control.granted { c with waiting := rest } k := fun _ => rfl
    have hrecently : ∀ key, Control.recently c.clock key { c with waiting := rest, log } =
        Control.recently c.clock key { c with waiting := rest } := fun _ => rfl
    split
    · exact hrest.note_same _
    · rename_i k _
      simp only [hgranted, hrecently]
      split_ifs
      · exact (hrest.allow a).note_same _
      · exact hrest.note_same _
      · exact hrest.note_same _
      · exact Agree.note_same (c := { c with waiting := rest, turn := .showing a k.agent })
          ⟨log, rfl, hlog⟩ _

theorem Agree.answer (h : Agree conn c c') (said : Answer) :
    Agree conn (c.answer said) (c'.answer said) := by
  obtain ⟨log, rfl, hlog⟩ := h
  simp only [Control.answer]
  split
  · rename_i a key _
    have hsaid : Agree conn ({ c with turn := .taking }.note (.said a key said))
        ({ c with turn := .taking, log }.note (.said a key said)) := by
      refine Agree.note_same ?_ _
      exact ⟨log, rfl, hlog⟩
    generalize { c with turn := .taking }.note (.said a key said) = d at hsaid ⊢
    generalize { c with turn := .taking, log }.note (.said a key said) = d' at hsaid ⊢
    obtain ⟨log, rfl, hlog⟩ := hsaid
    dsimp only
    split
    · refine Agree.note_same ?_ _
      exact ⟨log, rfl, hlog⟩
    · rename_i k _
      cases said with
      | deny =>
        refine Agree.note_same ?_ _
        exact ⟨log, rfl, hlog⟩
      | once =>
        refine (Agree.allow ?_ a).note_same _
        exact ⟨log, rfl, hlog⟩
      | session =>
        dsimp only
        split
        · refine (Agree.allow ?_ a).note_same _
          exact ⟨log, rfl, hlog⟩
        · refine (Agree.allow ?_ a).note_same _
          exact ⟨log, rfl, hlog⟩
  · exact ⟨log, rfl, hlog⟩

theorem Agree.windowClosed (h : Agree conn c c') (w : World) (window : ℕ) :
    Agree conn (c.windowClosed w window) (c'.windowClosed w window) := by
  obtain ⟨log, rfl, hlog⟩ := h
  exact ⟨log, rfl, hlog⟩

/-! ### What looks at pages -/

/-- **What a connection asks of a tab reaches a window's page**: the connection is allowed, also
what this needs, and the tab is its agent's. -/
def Reaches (w : World) (conn tab : ℕ) (needs : Option Scope) (window : ℕ) (c : Control) : Prop :=
  ∃ k ∈ c.conns.lookup conn, k.allowed = true ∧ (∀ scope ∈ needs, scope ∈ c.granted k) ∧
    ∃ t, c.tab w k.agent tab = .ok t ∧ t.window = window

theorem pageOf_bind_congr {β : Type} {f : Page → Except Failure β} {key : Proc} {tab : ℕ}
    (h : ∀ t, c.tab w key tab = .ok t → f (page t.window) = f (w.page t.window)) :
    (c.pageOf { w with page } key tab).bind f = (c.pageOf w key tab).bind f := by
  have htab : c.tab { w with page } key tab = c.tab w key tab := rfl
  rw [pageOf, pageOf, htab]
  cases ht : c.tab w key tab with
  | error failure => rfl
  | ok t => exact h t ht

theorem pageOf_map_congr {β : Type} {f : Page → β} {key : Proc} {tab : ℕ}
    (h : ∀ t, c.tab w key tab = .ok t → f (page t.window) = f (w.page t.window)) :
    (c.pageOf { w with page } key tab).map f = (c.pageOf w key tab).map f := by
  have htab : c.tab { w with page } key tab = c.tab w key tab := rfl
  rw [pageOf, pageOf, htab]
  cases ht : c.tab w key tab with
  | error failure => rfl
  | ok t => exact congrArg Except.ok (h t ht)

/-- **A command that needs not to read** does and answers the same with pages that are the same
in what its answer tells. -/
theorem command_congr {key : Proc} {granted : Scopes} {cmd : Command}
    (hread : cmd.needs ≠ some .read) (hscript : cmd.needs ≠ some .script)
    (htells : ∀ tab ∈ cmd.tab, ∀ t, c.tab w key tab = .ok t →
      cmd.Tells (w.page t.window) (page t.window)) :
    c.command H { w with page } key granted cmd = c.command H w key granted cmd := by
  have hacts : ∀ {action : Action} {tab : ℕ}, (∀ t, c.tab w key tab = .ok t →
      (w.page t.window).acts action = (page t.window).acts action) →
      c.inWorld { w with page } key tab action = c.inWorld w key tab action := by
    intro action tab h
    refine pageOf_bind_congr fun t ht => ?_
    rw [h t ht]
  cases cmd with
  | goto tab url waits timeout =>
    refine congrArg (·, c) ?_
    simp only [Control.goto]
    refine bind_congr fun address => pageOf_bind_congr fun t ht => ?_
    have hurl : (w.page t.window).url = (page t.window).url := htells tab rfl t ht
    rw [Page.field_url_state, Page.field_url_state, hurl]
  | history tab step waits timeout =>
    refine congrArg (·, c) (pageOf_bind_congr fun t ht => ?_)
    obtain ⟨houtline, hback, hforward⟩ := htells tab rfl t ht
    dsimp only
    rw [houtline.state]
    cases step with
    | back => simp [hback rfl]
    | forward => simp [hforward rfl]
    | _ => rfl
  | select tab =>
    refine congrArg (·, c) (pageOf_map_congr fun t ht => ?_)
    exact ((htells tab rfl t ht).state H tab).symm
  | click tab element => exact congrArg (·, c) (hacts (htells tab rfl))
  | type tab element text submit => exact congrArg (·, c) (hacts (htells tab rfl))
  | scroll tab element dx dy => exact congrArg (·, c) (hacts (htells tab rfl))
  | tabs | read | snapshot | screenshot | wait => exact absurd rfl hread
  | eval => exact absurd rfl hscript
  | _ => rfl

/-- What a command does to the control is the same with any pages. -/
theorem command_page (page : ℕ → Page) (key : Proc) (granted : Scopes) (cmd : Command) :
    (c.command H { w with page } key granted cmd).2 = (c.command H w key granted cmd).2 := by
  cases cmd <;> rfl

/-- A command looks at nothing that happened, and records nothing. -/
theorem command_log (key : Proc) (granted : Scopes) (cmd : Command) (log : List (ℕ × Note)) :
    Control.command H w key granted cmd { c with log } =
      ((c.command H w key granted cmd).1, { (c.command H w key granted cmd).2 with log }) := by
  cases cmd with
  | «open» url waits timeout =>
    simp only [Control.command, Control.openTab]
    split
    · rfl
    · split_ifs <;> rfl
  | _ => rfl

theorem Agree.reply (h : Agree conn c c') {r : Reply} {result result' : Except Failure Value}
    (hr : r.conn = conn → result = result') : Agree conn (c.reply r result) (c'.reply r result') := by
  by_cases hconn : r.conn = conn
  · rw [hr hconn]
    exact h.note_same _
  · exact h.note (.inr ⟨r, result, result', hconn, rfl, rfl⟩)

/-- A command that is let through. -/
theorem Agree.command {r : Reply} {key : Proc} {granted : Scopes} {cmd : Command}
    (h : Agree conn c c')
    (hr : r.conn = conn → c.command H { w with page } key granted cmd =
      c.command H w key granted cmd) :
    Agree conn ((c.command H w key granted cmd).2.reply r (c.command H w key granted cmd).1)
      ((c'.command H { w with page } key granted cmd).2.reply r
        (c'.command H { w with page } key granted cmd).1) := by
  obtain ⟨log, rfl, hlog⟩ := h
  have hkept : (c.command H w key granted cmd).2.log = c.log := by
    have hsame := command_log (H := H) (w := w) (c := c) key granted cmd c.log
    exact congrArg (fun d => d.2.log) hsame
  have hother : Control.command H { w with page } key granted cmd { c with log } =
      ((c.command H { w with page } key granted cmd).1,
        { (c.command H { w with page } key granted cmd).2 with log }) := command_log ..
  rw [hother]
  refine Agree.reply ?_ fun hconn => ?_
  · have hsame := command_page (c := c) (H := H) (w := w) page key granted cmd
    exact ⟨log, congrArg (fun d => { d with log }) hsame, by rwa [hkept]⟩
  · rw [hr hconn]

/-- A connection that was allowed neither to read pages nor to run scripts in them. -/
def Blind (conn : ℕ) (c : Control) : Prop :=
  ∀ k ∈ c.conns.lookup conn, .read ∉ c.granted k ∧ .script ∉ c.granted k

/-- A command of a connection that may not read, where it is let through. -/
theorem Blind.command {k : Conn} {cmd : Command} (h : c.Blind conn)
    (hconn : c.conns.lookup conn = some k) (hallowed : k.allowed = true)
    (hneeds : cmd.needs.filter (· ∉ c.granted k) = none)
    (htells : ∀ tab ∈ cmd.tab, ∀ window, c.Reaches w conn tab cmd.needs window →
      cmd.Tells (w.page window) (page window)) (n : Note) :
    (c.note n).command H { w with page } k.agent (c.granted k) cmd =
      (c.note n).command H w k.agent (c.granted k) cmd := by
  have hmay : ∀ scope ∈ cmd.needs, scope ∈ c.granted k := by
    simpa [Option.filter_eq_none_iff] using hneeds
  obtain ⟨hread, hscript⟩ := h k hconn
  refine command_congr (fun heq => hread (hmay _ heq)) (fun heq => hscript (hmay _ heq)) ?_
  intro tab htab t ht
  exact htells tab htab t.window ⟨k, hconn, hallowed, hmay, t, ht, rfl⟩

/-- **Any request** is the same with pages that are the same in what its answer tells, if it is
the connection's own, and with any pages if it is another's. -/
theorem Agree.request {r : Reply} {cmd : Command} (h : Agree conn c c')
    (hown : r.conn = conn → c.Blind conn ∧ ∀ tab ∈ cmd.tab, ∀ window,
      c.Reaches w conn tab cmd.needs window → cmd.Tells (w.page window) (page window)) :
    Agree conn (c.request H w r cmd) (c'.request H { w with page } r cmd) := by
  have hconns : c'.conns = c.conns := by
    obtain ⟨log, rfl, -⟩ := h
    rfl
  have hgranted : ∀ k, c'.granted k = c.granted k := by
    obtain ⟨log, rfl, -⟩ := h
    exact fun _ => rfl
  have hlength := h.length
  cases hconn : c.conns.lookup r.conn with
  | none =>
    simp only [Control.request, hconns, hconn]
    exact h.note_same _
  | some k =>
    cases cmd with
    | hello client scopes =>
      simp only [Control.request, hconns, hconn, ← hlength]
      split_ifs
      · exact h.note_same _
      · obtain ⟨log, rfl, hlog⟩ := h
        dsimp only
        split
        · refine Agree.ask ?_ _
          exact ⟨log, rfl, hlog⟩
        · refine Agree.ask ?_ _
          exact ⟨log, rfl, hlog⟩
    | request scope =>
      simp only [Control.request, hconns, hconn, ← hlength]
      split_ifs
      · exact h.note_same _
      · exact h.ask _
    | _ =>
      simp only [Control.request, hconns, hconn, hgranted]
      split_ifs with hallowed
      · exact h.note_same _
      · split
        · exact h.note_same _
        · rename_i hneeds
          refine Agree.command (h.note_same _) fun hr => ?_
          obtain ⟨hblind, htells⟩ := hown hr
          exact hblind.command (hr ▸ hconn) (by simpa using hallowed) hneeds htells _

theorem Agree.probe (h : Agree conn c c') (H : Hooks) (w : World) (id tab : ℕ)
    (needs : Option Scope) : c'.probe H w id tab needs = c.probe H w id tab needs := by
  obtain ⟨log, rfl, -⟩ := h
  rfl

/-- **A look at a tab** gives the same with pages that look the same. -/
theorem probe_congr {tab : ℕ} {needs : Option Scope}
    (h : ∀ window, c.Reaches w conn tab needs window →
      (w.page window).Outline (page window)) :
    c.probe H { w with page } conn tab needs = c.probe H w conn tab needs := by
  simp only [Control.probe]
  cases hconn : c.conns.lookup conn with
  | none => rfl
  | some k =>
    dsimp only
    split_ifs with hallowed
    · rfl
    · split
      · rfl
      · rename_i hneeds
        refine pageOf_map_congr fun t ht => ((h t.window ?_).state H tab).symm
        exact ⟨k, hconn, by simpa using hallowed,
          by simpa [Option.filter_eq_none_iff] using hneeds, t, ht, rfl⟩

/-- **Any step of the control.** -/
theorem Agree.after {e : Event} (h : Agree conn c c')
    (hown : ∀ r cmd, e = .job (.request r cmd) → r.conn = conn →
      c.Blind conn ∧ ∀ tab ∈ cmd.tab, ∀ window, c.Reaches w conn tab cmd.needs window →
        cmd.Tells (w.page window) (page window)) :
    Agree conn (c.after H (w, e)) (c'.after H ({ w with page }, e)) := by
  have htick : Agree conn { c with clock := w.now } { c' with clock := w.now } :=
    h.bare (f := fun c => { c with clock := w.now }) fun _ _ => rfl
  cases e with
  | take => exact htick.take
  | said said => exact htick.answer said
  | job j =>
    cases j with
    | connected id peer => exact htick.connected id peer
    | request r cmd => exact htick.request (hown r cmd rfl)
    | closed id => exact htick.closed id
    | stopAgent number => exact htick.stopAgent number
    | switch on =>
      cases on with
      | true => exact htick.bare (f := fun c => { c with serving := true }) fun _ _ => rfl
      | false => exact htick.stopServing
    | windowClosed window => exact htick.windowClosed w window
    | openedBeside parent window => exact htick.openedBeside w parent window

end Control

/-! ### The threads -/

namespace Served

variable {conn other : ℕ} {s s' t t' : Served} {H : Hooks} {w : World} {page : ℕ → Page}

/-- Nothing that a connection sees has changed. -/
structure Kept (conn : ℕ) (s t : Served) : Prop where
  control : t.control = s.control
  channels : t.channels = s.channels
  thread : t.threads conn = s.threads conn
  answers : t.answersTo conn = s.answersTo conn

theorem Kept.refl (conn : ℕ) (s : Served) : Kept conn s s := ⟨rfl, rfl, rfl, rfl⟩

theorem kept_settle (hother : other ≠ conn) (x : Settle ⊕ Value) :
    Kept conn s (s.settle other x) := by
  cases x with
  | inl settle => exact ⟨rfl, rfl, Function.update_of_ne hother.symm _ _, rfl⟩
  | inr answer =>
    refine ⟨rfl, rfl, Function.update_of_ne hother.symm _ _, ?_⟩
    simp [answersTo, Served.settle, hother]

theorem kept_giveUp (hother : other ≠ conn) : Kept conn s (s.giveUp other) := by
  rw [Served.giveUp]
  split
  · exact kept_settle hother _
  · exact .refl conn s

theorem kept_arrive {now : ℕ} {r : Reply} (hother : r.conn ≠ conn)
    (result : Except Failure Value) : Kept conn s (s.arrive now r result) := by
  rw [Served.arrive]
  split
  · split_ifs
    · exact kept_settle hother _
    · exact .refl conn s
  · exact .refl conn s

theorem kept_look (hother : other ≠ conn) : Kept conn s (s.after H w (.look other)) := by
  rw [Served.after]
  split
  · exact kept_settle hother _
  · exact .refl conn s

/-- **Two states of the application are the same to a connection.** -/
structure Sees (conn : ℕ) (s s' : Served) : Prop where
  control : s.control.Agree conn s'.control
  channels : s'.channels = s.channels
  thread : s'.threads conn = s.threads conn
  answers : s'.answersTo conn = s.answersTo conn

theorem Sees.refl (conn : ℕ) (s : Served) : Sees conn s s := ⟨.refl conn s.control, rfl, rfl, rfl⟩

theorem Sees.kept (h : Sees conn s s') (ht : Kept conn s t) (ht' : Kept conn s' t') :
    Sees conn t t' where
  control := by
    rw [ht.control, ht'.control]
    exact h.control
  channels := by rw [ht.channels, ht'.channels, h.channels]
  thread := by rw [ht.thread, ht'.thread, h.thread]
  answers := by rw [ht.answers, ht'.answers, h.answers]

/-- A thread goes on, or is done, in the same way. -/
theorem Sees.settle (h : Sees conn s s') (other : ℕ) (x : Settle ⊕ Value) :
    Sees conn (s.settle other x) (s'.settle other x) := by
  by_cases hother : other = conn
  · subst hother
    cases x with
    | inl settle => exact ⟨h.control, h.channels, by simp [Served.settle], h.answers⟩
    | inr answer =>
      refine ⟨h.control, h.channels, by simp [Served.settle], ?_⟩
      have hbefore : s'.written.filter (fun a => a.1 = other) =
          s.written.filter fun a => a.1 = other := h.answers
      simp [answersTo, Served.settle, hbefore]
  · exact h.kept (kept_settle hother x) (kept_settle hother x)

theorem Sees.giveUp (h : Sees conn s s') (other : ℕ) :
    Sees conn (s.giveUp other) (s'.giveUp other) := by
  by_cases hother : other = conn
  · subst hother
    rw [Served.giveUp, Served.giveUp, h.thread]
    split
    · exact h.settle _ _
    · exact h
  · exact h.kept (kept_giveUp hother) (kept_giveUp hother)

theorem Sees.arrive {now : ℕ} {r : Reply} {result : Except Failure Value} (h : Sees conn s s') :
    Sees conn (s.arrive now r result) (s'.arrive now r result) := by
  by_cases hother : r.conn = conn
  · subst hother
    rw [Served.arrive, Served.arrive, h.thread]
    split
    · split_ifs
      · exact h.settle _ _
      · exact h
    · exact h
  · exact h.kept (kept_arrive hother result) (kept_arrive hother result)

/-- Things that happened are heard. -/
theorem Sees.hear {now : ℕ} {n n' : ℕ × Note} (h : Sees conn s s')
    (hn : Note.Alike conn n.2 n'.2) : Sees conn (s.hear now n) (s'.hear now n') := by
  rw [Served.hear, Served.hear]
  rcases hn with heq | ⟨r, x, x', hother, heq, heq'⟩
  · rw [← heq]
    split
    · exact h.arrive
    · exact h
  · rw [heq, heq']
    exact h.kept (kept_arrive hother x) (kept_arrive hother x')

theorem Sees.hearAll {now : ℕ} {log log' : List (ℕ × Note)}
    (hlog : List.Forall₂ (fun n n' => n.1 = n'.1 ∧ Note.Alike conn n.2 n'.2) log log')
    (h : Sees conn s s') :
    Sees conn (log.foldl (Served.hear now) s) (log'.foldl (Served.hear now) s') := by
  induction hlog generalizing s s' with
  | nil => exact h
  | cons hn _ ih => exact ih (h.hear hn.2)

/-- A thread waits for the main thread. -/
theorem Sees.waits (h : Sees conn s s') (other : ℕ) (id : Value) (cmd : Command) :
    Sees conn
      { s with
        threads := Function.update s.threads other (.waiting s.channels id cmd)
        channels := s.channels + 1 }
      { s' with
        threads := Function.update s'.threads other (.waiting s'.channels id cmd)
        channels := s'.channels + 1 } := by
  refine ⟨h.control, congrArg (· + 1) h.channels, ?_, h.answers⟩
  by_cases hother : conn = other
  · subst hother
    simp [h.channels]
  · simp [Function.update_of_ne hother, h.thread]

/-- The main thread takes a step. -/
theorem Sees.step {e : Event} (h : Sees conn s s')
    (hown : ∀ r cmd, e = .job (.request r cmd) → r.conn = conn →
      s.control.Blind conn ∧ ∀ tab ∈ cmd.tab, ∀ window,
        s.control.Reaches w conn tab cmd.needs window → cmd.Tells (w.page window) (page window)) :
    Sees conn (s.step H w e) (s'.step H { w with page } e) := by
  have hafter := h.control.after (H := H) hown
  have hheard : List.Forall₂ (fun n n' => n.1 = n'.1 ∧ Note.Alike conn n.2 n'.2)
      ((s.control.after H (w, e)).log.drop s.control.log.length)
      ((s'.control.after H ({ w with page }, e)).log.drop s'.control.log.length) := by
    rw [← h.control.length]
    obtain ⟨log, heq, hlog⟩ := hafter
    rw [heq]
    exact List.forall₂_drop _ hlog
  exact Sees.hearAll hheard ⟨hafter, h.channels, h.thread, h.answers⟩

/-- A request is handed to the main thread. -/
theorem Sees.handed (h : Sees conn s s') (other : ℕ) (id : Value) (cmd : Command) (late : Bool)
    (hown : other = conn → s.control.Blind conn ∧ ∀ tab ∈ cmd.tab, ∀ window,
      s.control.Reaches w conn tab cmd.needs window →
        cmd.Tells (w.page window) (page window)) :
    let handed (w : World) (s : Served) : Served :=
      let waits := { s with
        threads := Function.update s.threads other (.waiting s.channels id cmd)
        channels := s.channels + 1 }
      let asked := Event.job (.request ⟨other, id, s.channels⟩ cmd)
      if late then { waits with control := s.control.after H (w, asked) }.giveUp other
      else waits.step H w asked
    Sees conn (handed w s) (handed { w with page } s') := by
  have hwaits := h.waits other id cmd
  have hasks : ∀ r asked, Event.job (.request ⟨other, id, s.channels⟩ cmd) =
      .job (.request r asked) → r.conn = conn →
      s.control.Blind conn ∧ ∀ tab ∈ asked.tab, ∀ window,
        s.control.Reaches w conn tab asked.needs window →
          asked.Tells (w.page window) (page window) := by
    intro r asked heq hr
    obtain ⟨rfl, rfl⟩ := Job.request.inj (Event.job.inj heq)
    exact hown hr
  dsimp only
  rw [h.channels] at hwaits ⊢
  cases late with
  | false => exact hwaits.step hasks
  | true =>
    have hafter := h.control.after (H := H) hasks
    rw [if_pos rfl, if_pos rfl]
    refine Sees.giveUp ?_ other
    exact ⟨hafter, hwaits.channels, hwaits.thread, hwaits.answers⟩

end Served

/-! ### Two runs -/

/-- A step of two runs, which are met with the same but for the pages. -/
structure Twin where
  world : World
  page : ℕ → Page
  act : Act

/-- What the second run is met with. -/
def Twin.other (e : Twin) : World := { e.world with page := e.page }

/-- A connection asks for something. -/
def Act.Asks (conn : ℕ) (cmd : Command) : Act → Prop
  | .main (.job (.request r asked)) => r.conn = conn ∧ asked = cmd
  | .serve id _ asked _ => id = conn ∧ asked = cmd
  | _ => False

namespace Served

variable {conn : ℕ} {s s' : Served} {H : Hooks}

/-- The application after some steps. -/
def run (H : Hooks) (s : Served) (events : List (World × Act)) : Served :=
  events.foldl (fun s e => s.after H e.1 e.2) s

/-- Something holds of each step and of the state it is taken in. -/
def Always (H : Hooks) (p : Twin → Served → Prop) : Served → List Twin → Prop
  | _, [] => True
  | s, e :: events => p e s ∧ Always H p (s.after H e.world e.act) events

/-- **A connection may not read, and two pages differ in nothing that it is told**: the pages
that a command of its own reaches are the same in what the answer tells, and those that it
waits for look the same. -/
structure Unread (conn : ℕ) (e : Twin) (s : Served) : Prop where
  blind : s.control.Blind conn
  asked : ∀ cmd, e.act.Asks conn cmd → ∀ tab ∈ cmd.tab, ∀ window,
    s.control.Reaches e.world conn tab cmd.needs window →
      cmd.Tells (e.world.page window) (e.page window)
  looked : e.act = .look conn → ∀ settle, s.threads conn = .settling settle → ∀ window,
    s.control.Reaches e.world conn settle.tab settle.needs window →
      (e.world.page window).Outline (e.page window)

/-- **One step.** -/
theorem Sees.after {e : Twin} (h : Sees conn s s') (hunread : s.Unread conn e) :
    Sees conn (s.after H e.world e.act) (s'.after H e.other e.act) := by
  obtain ⟨w, page, act⟩ := e
  cases act with
  | main e =>
    refine h.step ?_
    rintro r cmd rfl hr
    exact ⟨hunread.blind, hunread.asked cmd ⟨hr, rfl⟩⟩
  | giveUp id => exact h.giveUp id
  | look id =>
    by_cases hid : id = conn
    · subst hid
      simp only [Served.after, h.thread]
      split
      · rename_i settle hsettle
        have hprobe := Control.probe_congr (hunread.looked rfl settle hsettle) (H := H)
        have hlog := h.control.probe H { w with page } id settle.tab settle.needs
        simp only [Twin.other] at hprobe ⊢
        rw [hlog, hprobe]
        exact h.settle _ _
      · exact h
    · exact h.kept (kept_look hid) (kept_look hid)
  | serve id v cmd late =>
    cases cmd with
    | wait tab timeout =>
      exact h.settle id (.inl ⟨v, tab, some .read, timeout, .now, w.now, false, false⟩)
    | bye => exact h.settle id (.inr (answerOf v (.ok (.obj []))))
    | _ => exact h.handed id v _ late fun hid => ⟨hunread.blind, hunread.asked _ ⟨hid, rfl⟩⟩

/-- **Nothing of a page that a program may not read** is in its answers, but what they tell by
design. -/
theorem answersTo_eq {serving : Bool} {events : List Twin}
    (h : Always H (Unread conn) (start serving) events) :
    ((start serving).run H (events.map fun e => (e.other, e.act))).answersTo conn =
      ((start serving).run H (events.map fun e => (e.world, e.act))).answersTo conn := by
  have hrun : ∀ (events : List Twin) (s s' : Served), Sees conn s s' →
      Always H (Unread conn) s events →
      Sees conn (s.run H (events.map fun e => (e.world, e.act)))
        (s'.run H (events.map fun e => (e.other, e.act))) := by
    intro events
    induction events with
    | nil => exact fun s s' hsees _ => hsees
    | cons e events ih => exact fun s s' hsees hunread => ih _ _ (hsees.after hunread.1) hunread.2
  exact (hrun events _ _ (.refl conn _) h).answers

/-! ### A program that may navigate -/

instance (conn : ℕ) (c : Control) : Decidable (c.Blind conn) :=
  inferInstanceAs (Decidable (∀ k ∈ c.conns.lookup conn, _))

instance decidableAlways {p : Twin → Served → Prop} [∀ e s, Decidable (p e s)] :
    ∀ s events, Decidable (Always H p s events)
  | _, [] => .isTrue trivial
  | s, e :: events =>
    have : Decidable (Always H p (s.after H e.world e.act) events) := decidableAlways _ events
    inferInstanceAs (Decidable (_ ∧ _))

theorem Always.mono {p q : Twin → Served → Prop} {events : List Twin}
    (hpq : ∀ e ∈ events, ∀ s, p e s → q e s) (h : Always H p s events) : Always H q s events := by
  induction events generalizing s with
  | nil => trivial
  | cons e events ih =>
    exact ⟨hpq e (.head _) s h.1, ih (fun e he => hpq e (.tail _ he)) h.2⟩

/-- The addresses of two sites are known. -/
def siteHooks : Hooks :=
  ⟨fun s =>
      if s = "http://a.example/" then some ⟨"http", some (.domain "a.example")⟩
      else if s = "http://b.example/" then some ⟨"http", some (.domain "b.example")⟩
      else none,
    fun s => if s = "http://a.example/" ∨ s = "http://b.example/" then some s else none,
    fun _ => false, "0"⟩

/-- A page of the first site, with a text. -/
def sitePage (text : String) : Page :=
  { Control.blankPage with
    url := some "http://a.example/"
    title := some "A"
    read := fun _ => .ok (.obj [("text", .str text)]) }

/-- A step that is met with two pages. -/
def twin (page page' : Page) (now : ℕ) (act : Act) : Twin :=
  ⟨{ Control.worldAt now with page := fun _ => page }, fun _ => page', act⟩

/-- A program is allowed to navigate and opens a tab, and more happens. -/
def visit (page page' : Page) (more : List Twin) : List Twin :=
  [twin page page' 0 (.main (.job (.connected 1 Control.program))),
    twin page page' 0 (.serve 1 (.num 1) (.hello "A program" {.navigate}) false),
    twin page page' 0 (.main .take), twin page page' 1000 (.main (.said .once)),
    twin page page' 1000 (.main .take),
    twin page page' 2000 (.serve 1 (.num 2) (.open "http://a.example/" false 0) false)] ++ more

/-- It goes to the page, waits for it, and selects it; the text of the page is another one. -/
def hidden : List Twin :=
  let twin := twin (sitePage "One") (sitePage "Two")
  visit (sitePage "One") (sitePage "Two")
    [twin 3000 (.serve 1 (.num 3) (.goto 1 "http://a.example/" true 5000) false),
      twin 5000 (.look 1), twin 5200 (.look 1), twin 6000 (.serve 1 (.num 4) (.select 1) false)]

/-- What the answers of a connection say in a field. -/
def told (conn : ℕ) (field : String) (s : Served) : List (Option String) :=
  (s.answersTo conn).map fun a => ((a.2.field "result").field field).asStr

theorem answersTo_eq_hidden :
    told 1 "title" ((start true).run siteHooks (hidden.map fun e => (e.world, e.act))) =
      [none, none, some "A", some "A"] ∧
    ((start true).run siteHooks (hidden.map fun e => (e.other, e.act))).answersTo 1 =
      ((start true).run siteHooks (hidden.map fun e => (e.world, e.act))).answersTo 1 := by
  have hblind : Always siteHooks (fun _ s => s.control.Blind 1) (start true) hidden := by
    decide +kernel
  refine ⟨by decide +kernel, answersTo_eq (hblind.mono fun e he s hs => ?_)⟩
  obtain ⟨now, act, rfl⟩ : ∃ now act, e = twin (sitePage "One") (sitePage "Two") now act := by
    simp only [hidden, visit, List.cons_append, List.nil_append, List.mem_cons, List.not_mem_nil,
      or_false] at he
    rcases he with rfl | rfl | rfl | rfl | rfl | rfl | rfl | rfl | rfl | rfl <;> exact ⟨_, _, rfl⟩
  have houtline : (sitePage "One").Outline (sitePage "Two") := ⟨rfl, rfl, rfl, rfl⟩
  refine ⟨hs, fun cmd _ _ _ _ _ => ?_, fun _ _ _ _ _ => houtline⟩
  cases cmd with
  | history => exact ⟨houtline, fun _ => rfl, fun _ => rfl⟩
  | select => exact houtline
  | _ => first | exact rfl | exact trivial

/-- Answers to a connection that may not read are the same with pages that are related so. -/
def Independent (R : Page → Page → Prop) : Prop :=
  ∀ H conn serving events, Always H (fun e s => s.control.Blind conn ∧
      ∀ window, R (e.world.page window) (e.page window)) (start serving) events →
    ((start serving).run H (events.map fun e => (e.other, e.act))).answersTo conn =
      ((start serving).run H (events.map fun e => (e.world, e.act))).answersTo conn

/-- The program selects its tab, whose page is another one. -/
def selected (page' : Page) : List Twin :=
  visit (sitePage "One") page'
    [twin (sitePage "One") page' 6000 (.serve 1 (.num 3) (.select 1) false)]

theorem not_independent {R : Page → Page → Prop} (page' : Page) (field : String)
    (hR : R (sitePage "One") page')
    (hblind : Always siteHooks (fun _ s => s.control.Blind 1) (start true) (selected page'))
    (hne : told 1 field ((start true).run siteHooks
        ((selected page').map fun e => (e.other, e.act))) ≠
      told 1 field ((start true).run siteHooks
        ((selected page').map fun e => (e.world, e.act)))) : ¬Independent R := by
  intro h
  have hpages : Always siteHooks (fun e s => s.control.Blind 1 ∧
      ∀ window, R (e.world.page window) (e.page window)) (start true) (selected page') := by
    refine hblind.mono fun e he s hs => ⟨hs, fun window => ?_⟩
    simp only [selected, visit, List.cons_append, List.nil_append, List.mem_cons,
      List.not_mem_nil, or_false] at he
    rcases he with rfl | rfl | rfl | rfl | rfl | rfl | rfl <;> exact hR
  exact hne (congrArg (List.map fun a : ℕ × Value => ((a.2.field "result").field field).asStr)
    (h siteHooks 1 true (selected page') hpages))

/-- **Titles and addresses are told**: answers do depend on the title of a page alone, and on
its address alone, where that is not one that was asked for. -/
theorem not_answersTo_eq :
    ¬Independent (fun p q => q = { p with title := q.title }) ∧
      ¬Independent (fun p q => q = { p with url := q.url }) :=
  ⟨not_independent { sitePage "One" with title := some "B" } "title" rfl
      (by decide +kernel) (by decide +kernel),
    not_independent { sitePage "One" with url := some "http://b.example/" } "url" rfl
      (by decide +kernel) (by decide +kernel)⟩

end Served

end Syndeo.App
