import Syndeo.App.Refusal
import Syndeo.App.Requests

/-!
# Nothing is done that was not allowed

What a program does it does by commands, and each needs a scope or none. A command is let through
if its connection was allowed, and if the scope is granted: to the connection, or to the process
until Syndeo quits. What is kept up of all of this is what the person said: whoever is allowed
something, the person was asked about that process, said yes, and has not taken it back since
(`Syndeo.App.Licensed`). So it is with each command that is let through, in every run in which the
requests are read from lines (`Syndeo.App.Control.consented_of_runs`); and nobody is asked about
`script` but for `script` alone.
-/

namespace Syndeo.App

open Tables Events

/-- **The person allowed a scope**, of a connection of a process, and has not taken it back: they
were asked for it about the process, and said yes to it until Syndeo quits, or for the
connection. -/
def Licensed (log : List (ℕ × Note)) (key : Proc) (conn : ℕ) (scope : Scope) : Prop :=
  Since (fun n => ∃ a said, n.2 = .said a key said ∧ scope ∈ a.scopes ∧
    (said = .session ∨ said = .once ∧ a.conn = conn)) (fun n => n.2 = .revoked key) log

/-- `script` is asked for alone. -/
def Ask.Plain (a : Ask) : Prop := .script ∈ a.scopes → a.scopes = {.script}

/-- **What happens only if it was allowed**: a command is let through where something was allowed
of its connection, and the scope it needs; the person answers what they were asked; and they are
asked about `script` alone. -/
def Consented (before : List (ℕ × Note)) (n : ℕ × Note) : Prop :=
  match n.2 with
  | .ran conn key cmd =>
    (∃ scope, Licensed before key conn scope) ∧ ∀ scope ∈ cmd.needs, Licensed before key conn scope
  | .said a key _ => ∃ t, (t, .shown a key) ∈ before
  | .shown a _ => a.Plain
  | _ => True

/-- **The command is one that a line says.** -/
def Command.Readable (cmd : Command) : Prop := ∃ fields, Reading.command fields = .ok cmd

instance (cmd : Command) : Decidable cmd.Readable :=
  decidable_of_iff cmd.Sound Reading.command_ok_iff.1.symm

/-- Things that call for nothing, and take nothing back. -/
def Note.mere : Note → Bool
  | .ran _ _ _ | .said _ _ _ | .shown _ _ | .revoked _ => false
  | _ => true

theorem Licensed.concat {log : List (ℕ × Note)} {key : Proc} {conn : ℕ} {scope : Scope}
    {n : ℕ × Note} (h : Licensed log key conn scope) (hn : n.2 ≠ .revoked key) :
    Licensed (log ++ [n]) key conn scope := Since.concat h hn

namespace Control

variable {c : Control} {H : Hooks} {w : World}

/-- **What is allowed was allowed by the person.** -/
structure Honoured (c : Control) : Prop where
  log : EachAfter Consented c.log
  known : ∀ id conn, c.conns.lookup id = some conn → id ∈ c.announced
  once : ∀ id conn, c.conns.lookup id = some conn → ∀ scope ∈ conn.once,
    Licensed c.log conn.agent id scope
  allowed : ∀ id conn, c.conns.lookup id = some conn → conn.allowed = true →
    ∃ scope, Licensed c.log conn.agent id scope
  session : ∀ key, ∀ scope ∈ c.session key, ∀ conn, Licensed c.log key conn scope
  asks : ∀ a ∈ c.waiting, a.scopes ≠ ∅ ∧ a.Plain ∧ a.conn ∈ c.announced
  showing : ∀ a key, c.turn = .showing a key → a.scopes ≠ ∅ ∧ a.conn ∈ c.announced ∧
    (∃ t, (t, .shown a key) ∈ c.log) ∧ ∀ conn, c.conns.lookup a.conn = some conn → conn.agent = key

theorem honoured_start (serving : Bool) : (start serving).Honoured where
  log := eachAfter_nil
  known id conn h := absurd h (by simp [start])
  once id conn h := absurd h (by simp [start])
  allowed id conn h := absurd h (by simp [start])
  session key scope h := absurd h (by simp [start, Control.session])
  asks a h := absurd h (by simp [start])
  showing a key h := absurd h (by simp [start])

/-- **What is granted was allowed.** -/
theorem Honoured.granted (h : c.Honoured) {id : ℕ} {conn : Conn}
    (hconn : c.conns.lookup id = some conn) {scope : Scope} (hscope : scope ∈ c.granted conn) :
    Licensed c.log conn.agent id scope := by
  rcases Finset.mem_union.mp hscope with honce | hsession
  · exact h.once id conn hconn scope honce
  · exact h.session conn.agent scope hsession id

/-! ### What leaves it so -/

theorem Honoured.tick (h : c.Honoured) (now : ℕ) : Honoured { c with clock := now } :=
  ⟨h.log, h.known, h.once, h.allowed, h.session, h.asks, h.showing⟩

/-- Only tabs are touched. -/
theorem Honoured.tabs {tabs : Table ℕ Tab} {next : ℕ} (h : c.Honoured) :
    Honoured { c with tabs := tabs, nextTab := next } :=
  ⟨h.log, h.known, h.once, h.allowed, h.session, h.asks, h.showing⟩

/-- Processes are allowed no more than before. -/
theorem Honoured.agents {agents : Table Proc Agent} {next : ℕ} (h : c.Honoured)
    (hsession : ∀ key, { c with agents := agents }.session key ⊆ c.session key) :
    Honoured { c with agents := agents, nextAgent := next } :=
  ⟨h.log, h.known, h.once, h.allowed, fun key scope hscope => h.session key scope (hsession key hscope),
    h.asks, h.showing⟩

/-- Connections are allowed no more than before. -/
theorem Honoured.conns {conns : Table ℕ Conn} (h : c.Honoured)
    (hconns : ∀ id conn', conns.lookup id = some conn' → ∃ conn, c.conns.lookup id = some conn ∧
      conn.agent = conn'.agent ∧ conn'.once ⊆ conn.once ∧
      (conn'.allowed = true → conn.allowed = true)) : Honoured { c with conns := conns } := by
  refine ⟨h.log, fun id conn' h' => ?_, fun id conn' h' scope hscope => ?_, fun id conn' h' hallowed => ?_,
    h.session, h.asks, fun a key hturn => ?_⟩
  · obtain ⟨conn, hconn, -⟩ := hconns id conn' h'
    exact h.known id conn hconn
  · obtain ⟨conn, hconn, hagent, honce, -⟩ := hconns id conn' h'
    exact hagent ▸ h.once id conn hconn scope (honce hscope)
  · obtain ⟨conn, hconn, hagent, -, hmono⟩ := hconns id conn' h'
    exact hagent ▸ h.allowed id conn hconn (hmono hallowed)
  · obtain ⟨hne, hin, hshown, hagent⟩ := h.showing a key hturn
    refine ⟨hne, hin, hshown, fun conn' h' => ?_⟩
    obtain ⟨conn, hconn, heq, -⟩ := hconns _ conn' h'
    exact heq ▸ hagent conn hconn

/-- One thing more happens, that takes back nothing that is allowed. -/
theorem Honoured.note {n : Note} (h : c.Honoured) (hn : Consented c.log (c.clock, n))
    (hrevoked : ∀ key, n = .revoked key → c.session key = ∅ ∧
      ∀ id conn, c.conns.lookup id = some conn → conn.agent ≠ key) : (c.note n).Honoured := by
  have hin : ∀ {id}, id ∈ c.announced → id ∈ (c.note n).announced := announced_append rfl
  refine ⟨eachAfter_concat.mpr ⟨h.log, hn⟩, fun id conn hconn => hin (h.known id conn hconn),
    fun id conn hconn scope hscope => ?_, fun id conn hconn hallowed => ?_,
    fun key scope hscope conn => ?_, fun a ha => ?_, fun a key hturn => ?_⟩
  · exact (h.once id conn hconn scope hscope).concat fun heq => (hrevoked _ heq).2 id conn hconn rfl
  · obtain ⟨scope, hscope⟩ := h.allowed id conn hconn hallowed
    exact ⟨scope, hscope.concat fun heq => (hrevoked _ heq).2 id conn hconn rfl⟩
  · refine (h.session key scope hscope conn).concat fun heq => ?_
    rw [show (c.note n).session key = c.session key from rfl, (hrevoked key heq).1] at hscope
    exact absurd hscope (Finset.notMem_empty _)
  · obtain ⟨hne, hplain, hconn⟩ := h.asks a ha
    exact ⟨hne, hplain, hin hconn⟩
  · obtain ⟨hne, hconn, ⟨t, ht⟩, hagent⟩ := h.showing a key hturn
    exact ⟨hne, hin hconn, ⟨t, List.mem_append_left _ ht⟩, hagent⟩

/-- Something happens that calls for nothing. -/
theorem Honoured.note_mere {n : Note} (h : c.Honoured) (hn : n.mere = true) :
    (c.note n).Honoured := by
  refine h.note ?_ fun key heq => absurd hn (by simp [heq, Note.mere])
  cases n with
  | ran | said | shown => exact absurd hn (by simp [Note.mere])
  | _ => trivial

theorem Honoured.reply (r : Reply) (result : Except Failure Value) (h : c.Honoured) :
    (c.reply r result).Honoured := h.note_mere rfl

/-- Some of those who wait go on waiting, and no prompt shows. -/
theorem Honoured.rest {waiting : List Ask} {turn : Turn} (h : c.Honoured)
    (hw : ∀ a ∈ waiting, a ∈ c.waiting) (hturn : ∀ a key, turn ≠ .showing a key) :
    Honoured { c with waiting, turn } :=
  ⟨h.log, h.known, h.once, h.allowed, h.session, fun a ha => h.asks a (hw a ha),
    fun a key heq => absurd heq (hturn a key)⟩

/-! ### Jobs that ask nothing -/

/-- A connection is allowed, that something is allowed of. -/
theorem Honoured.allow {a : Ask} (h : c.Honoured)
    (hscope : ∀ conn, c.conns.lookup a.conn = some conn →
      ∃ scope, Licensed c.log conn.agent a.conn scope) : (c.allow a).Honoured := by
  rw [Control.allow]
  split
  · rename_i conn hconn
    split_ifs
    · -- the connection is as it was, but that it is allowed
      have hlookup : ∀ id conn', (c.conns.insert a.conn { conn with allowed := true }).lookup id =
          some conn' → ∃ conn, c.conns.lookup id = some conn ∧ conn.agent = conn'.agent ∧
            conn'.once = conn.once ∧ (id ≠ a.conn → conn' = conn) := by
        intro id conn' h'
        by_cases hid : id = a.conn
        · subst hid
          rw [AList.lookup_insert] at h'
          obtain rfl := Option.some.inj h'
          exact ⟨conn, hconn, rfl, rfl, fun hne => absurd rfl hne⟩
        · rw [AList.lookup_insert_ne hid] at h'
          exact ⟨conn', h', rfl, rfl, fun _ => rfl⟩
      refine ⟨h.log, fun id conn' h' => ?_, fun id conn' h' scope hmem => ?_,
        fun id conn' h' hallowed => ?_, h.session, h.asks, fun b key hturn => ?_⟩
      · obtain ⟨conn, hconn, -⟩ := hlookup id conn' h'
        exact h.known id conn hconn
      · obtain ⟨conn, hconn, hagent, honce, -⟩ := hlookup id conn' h'
        exact hagent ▸ h.once id conn hconn scope (honce ▸ hmem)
      · obtain ⟨conn, hconn, hagent, -, hsame⟩ := hlookup id conn' h'
        by_cases hid : id = a.conn
        · subst hid
          exact hagent ▸ hscope conn hconn
        · exact hagent ▸ h.allowed id conn hconn (hsame hid ▸ hallowed)
      · obtain ⟨hne, hin, hshown, hagent⟩ := h.showing b key hturn
        refine ⟨hne, hin, hshown, fun conn' h' => ?_⟩
        obtain ⟨conn, hconn, heq, -⟩ := hlookup _ conn' h'
        exact heq ▸ hagent conn hconn
    · exact h
  · exact h

theorem Honoured.releaseTabs (h : c.Honoured) (key : Proc) : (c.releaseTabs key).Honoured := h.tabs

/-- A process is forgotten, and what it was allowed. -/
theorem Honoured.erase (h : c.Honoured) (key : Proc) :
    Honoured { c with agents := c.agents.erase key } :=
  h.agents fun other => (wanes_erase key).session other

theorem Honoured.forgetIfDone (h : c.Honoured) (key : Proc) : (c.forgetIfDone key).Honoured := by
  rw [Control.forgetIfDone]
  split_ifs
  · exact h
  · exact (h.releaseTabs key).erase key

/-- Some of the connections go. -/
theorem Honoured.retain (h : c.Honoured) (p : ℕ → Conn → Bool) :
    Honoured { c with conns := Tables.retain p c.conns } := by
  refine h.conns fun id conn' h' => ?_
  rw [lookup_retain, Option.filter_eq_some_iff] at h'
  exact ⟨conn', h'.1, rfl, Finset.Subset.refl _, fun hallowed => hallowed⟩

theorem Honoured.closed (h : c.Honoured) (conn : ℕ) : (c.closed conn).Honoured := by
  rw [Control.closed]
  split
  · exact h
  · refine Honoured.forgetIfDone (h.conns fun id conn' h' => ?_) _
    by_cases hid : id = conn
    · subst hid
      rw [AList.lookup_erase] at h'
      exact absurd h' (by simp)
    · rw [AList.lookup_erase_ne hid] at h'
      exact ⟨conn', h', rfl, Finset.Subset.refl _, fun hallowed => hallowed⟩

/-- **What a process was allowed is taken back**: it has no connection then, and is allowed
nothing. -/
theorem Honoured.revoke (h : c.Honoured) (key : Proc) : (c.revoke key).Honoured := by
  refine Honoured.note (((h.retain _).releaseTabs key).erase key) trivial fun other heq => ?_
  obtain rfl := Note.revoked.inj heq
  refine ⟨by simp [Control.session, Control.releaseTabs], fun id conn hconn => ?_⟩
  have hconn' : (Tables.retain (fun _ conn => decide (conn.agent ≠ key)) c.conns).lookup id =
      some conn := hconn
  rw [lookup_retain, Option.filter_eq_some_iff] at hconn'
  simpa using hconn'.2

theorem Honoured.stopAgent (h : c.Honoured) (number : ℕ) : (c.stopAgent number).Honoured := by
  rw [Control.stopAgent]
  split
  · exact h.revoke _
  · exact h

theorem Honoured.serving (h : c.Honoured) (serving : Bool) : Honoured { c with serving } :=
  ⟨h.log, h.known, h.once, h.allowed, h.session, h.asks, h.showing⟩

theorem Honoured.stopServing (h : c.Honoured) : c.stopServing.Honoured := by
  have hrevoked : ∀ (keys : List Proc) (d : Control), d.Honoured →
      (keys.foldl (fun d key => d.revoke key) d).Honoured := by
    intro keys
    induction keys with
    | nil => exact fun d hd => hd
    | cons key keys ih => exact fun d hd => ih (d.revoke key) (hd.revoke key)
  refine (hrevoked c.agents.keys _ (h.serving false)).conns fun id conn' h' => ?_
  rw [AList.lookup_empty] at h'
  exact absurd h' (by simp)

/-- A process is announced, which is allowed what it was. -/
theorem Honoured.introduce (h : c.Honoured) (key : Proc) (agent : Agent) (next : ℕ)
    (hagent : agent.session = c.session key) :
    Honoured { c with agents := c.agents.insert key agent, nextAgent := next } :=
  h.agents fun other => (wanes_agents next hagent).session other

theorem Honoured.connected {conn : ℕ} (h : c.Honoured) (peer : Peer) (hnew : conn ∉ c.announced) :
    (c.connected conn peer).Honoured := by
  rw [Control.connected]
  split
  · exact h
  · rename_i key _
    split_ifs
    · exact h
    · have hadded : ∀ d : Control, d.Honoured → conn ∉ d.announced →
          ({ d with conns := d.conns.insert conn ⟨key, false, ∅⟩ }.note
            (.connected conn key)).Honoured := by
        intro d hd hdnew
        have hlookup : ∀ id conn', (d.conns.insert conn ⟨key, false, ∅⟩).lookup id = some conn' →
            id = conn ∧ conn' = ⟨key, false, ∅⟩ ∨ d.conns.lookup id = some conn' := by
          intro id conn' h'
          by_cases hid : id = conn
          · subst hid
            rw [AList.lookup_insert] at h'
            exact .inl ⟨rfl, (Option.some.inj h').symm⟩
          · rw [AList.lookup_insert_ne hid] at h'
            exact .inr h'
        have hin : ∀ {id}, id ∈ d.announced →
            id ∈ ({ d with conns := d.conns.insert conn ⟨key, false, ∅⟩ }.note
              (.connected conn key)).announced := announced_append rfl
        refine ⟨eachAfter_concat.mpr ⟨hd.log, trivial⟩, fun id conn' h' => ?_,
          fun id conn' h' scope hmem => ?_, fun id conn' h' hallowed => ?_,
          fun other scope hmem id => (hd.session other scope hmem id).concat (by simp),
          fun a ha => ?_, fun a other hturn => ?_⟩
        · rcases hlookup id conn' h' with ⟨rfl, -⟩ | h'
          · simp [announced, Control.note]
          · exact hin (hd.known id conn' h')
        · rcases hlookup id conn' h' with ⟨-, rfl⟩ | h'
          · exact absurd hmem (Finset.notMem_empty _)
          · exact (hd.once id conn' h' scope hmem).concat (by simp)
        · rcases hlookup id conn' h' with ⟨-, rfl⟩ | h'
          · exact absurd hallowed (by simp)
          · obtain ⟨scope, hscope⟩ := hd.allowed id conn' h' hallowed
            exact ⟨scope, hscope.concat (by simp)⟩
        · obtain ⟨hne, hplain, hconn⟩ := hd.asks a ha
          exact ⟨hne, hplain, hin hconn⟩
        · obtain ⟨hne, hconn, ⟨t, ht⟩, hagent⟩ := hd.showing a other hturn
          refine ⟨hne, hin hconn, ⟨t, List.mem_append_left _ ht⟩, fun conn' h' => ?_⟩
          -- an ask is of a connection that was announced before
          rcases hlookup _ conn' h' with ⟨hid, -⟩ | h'
          · exact absurd (hid ▸ hconn) hdnew
          · exact hagent conn' h'
      cases hagent : c.agents.lookup key with
      | some agent =>
        exact hadded _ (h.introduce key _ c.nextAgent (by simp [Control.session, hagent])) hnew
      | none => exact hadded _ (h.introduce key _ _ (by simp [Control.session, hagent])) hnew

theorem Honoured.adopt (h : c.Honoured) (key : Proc) (window : ℕ) : (c.adopt key window).Honoured :=
  h.tabs

theorem Honoured.openedBeside (h : c.Honoured) (w : World) (parent window : ℕ) :
    (c.openedBeside w parent window).Honoured := by
  rw [Control.openedBeside]
  split
  · exact h
  · split_ifs
    · exact h.adopt _ window
    · exact h

/-- A command touches tabs only. -/
theorem Honoured.command (h : c.Honoured) (H : Hooks) (w : World) (key : Proc) (granted : Scopes)
    (cmd : Command) : (c.command H w key granted cmd).2.Honoured := by
  cases cmd with
  | «open» url _ _ =>
    change (c.openTab H w key url).2.Honoured
    rw [openTab]
    split
    · exact h
    · split_ifs
      · exact h.adopt key w.window
      · exact h
  | _ => exact h

/-! ### Asks -/

/-- An ask that may be made: for something, for `script` alone, and of a connection. -/
def MayAsk (c : Control) (a : Ask) : Prop := a.scopes ≠ ∅ ∧ a.Plain ∧ a.conn ∈ c.announced

/-- What is asked for is allowed already. -/
theorem Honoured.allow_covered {a : Ask} (h : c.Honoured) (hne : a.scopes ≠ ∅)
    (hcovers : ∀ conn, c.conns.lookup a.conn = some conn →
      (c.granted conn).covers a.scopes = true) : (c.allow a).Honoured := by
  refine h.allow fun conn hconn => ?_
  obtain ⟨scope, hscope⟩ := Finset.nonempty_iff_ne_empty.mpr hne
  exact ⟨scope, h.granted hconn (Scopes.covers_iff.mp (hcovers conn hconn) hscope)⟩

theorem Honoured.queue {a : Ask} (h : c.Honoured) (ha : c.MayAsk a) : (c.queue a).Honoured := by
  refine ⟨h.log, h.known, h.once, h.allowed, h.session, fun b hb => ?_, fun b key hturn => ?_⟩
  · rcases List.mem_append.mp hb with hb | hb
    · exact h.asks b hb
    · exact List.mem_singleton.mp hb ▸ ha
  · refine h.showing b key ?_
    rcases turn_queue a c with ⟨-, htaking⟩ | ⟨-, hsame⟩
    · rw [htaking] at hturn
      cases hturn
    · exact hsame ▸ hturn

theorem Honoured.ask {a : Ask} (h : c.Honoured) (ha : c.MayAsk a) : (c.ask a).Honoured := by
  rw [Control.ask]
  cases hconn : c.conns.lookup a.conn with
  | none => exact h.queue ha
  | some conn =>
    simp only [Option.map_some]
    split_ifs with hcovers
    · refine Honoured.note_mere (h.allow_covered ha.1 fun conn' hconn' => ?_) rfl
      exact Option.some.inj (hconn.symm.trans hconn') ▸ hcovers
    · exact h.queue ha

/-- **A command is let through**, of a connection that is allowed and granted what it needs. -/
theorem Honoured.ran {id : ℕ} {conn : Conn} {cmd : Command} (h : c.Honoured)
    (hconn : c.conns.lookup id = some conn) (hallowed : conn.allowed = true)
    (hgranted : cmd.needs.filter (fun scope => decide (scope ∉ c.granted conn)) = none) :
    (c.note (.ran id conn.agent cmd)).Honoured := by
  have hran : Consented c.log (c.clock, .ran id conn.agent cmd) := by
    refine ⟨h.allowed id conn hconn hallowed, fun scope hscope => h.granted hconn ?_⟩
    by_contra hnot
    exact Option.eq_none_iff_forall_ne_some.mp hgranted scope
      (Option.filter_eq_some_iff.mpr ⟨hscope, by simpa using hnot⟩)
  exact h.note hran fun key heq => absurd heq (by simp)

/-- The connection is granted what it asked for. -/
theorem Honoured.grantOnce {id : ℕ} {conn : Conn} {scopes : Scopes} (h : c.Honoured)
    (hconn : c.conns.lookup id = some conn)
    (hscopes : ∀ scope ∈ scopes, Licensed c.log conn.agent id scope) :
    Honoured { c with conns := c.conns.insert id { conn with once := conn.once ∪ scopes } } := by
  have hlookup : ∀ id' conn', (c.conns.insert id { conn with once := conn.once ∪ scopes }).lookup
      id' = some conn' → id' = id ∧ conn' = { conn with once := conn.once ∪ scopes } ∨
        c.conns.lookup id' = some conn' := by
    intro id' conn' h'
    by_cases hid : id' = id
    · subst hid
      rw [AList.lookup_insert] at h'
      exact .inl ⟨rfl, (Option.some.inj h').symm⟩
    · rw [AList.lookup_insert_ne hid] at h'
      exact .inr h'
  refine ⟨h.log, fun id' conn' h' => ?_, fun id' conn' h' scope hmem => ?_,
    fun id' conn' h' hallowed => ?_, h.session, h.asks, fun b key hturn => ?_⟩
  · rcases hlookup id' conn' h' with ⟨rfl, -⟩ | h'
    · exact h.known _ conn hconn
    · exact h.known _ conn' h'
  · rcases hlookup id' conn' h' with ⟨rfl, rfl⟩ | h'
    · rcases Finset.mem_union.mp hmem with honce | hnew
      · exact h.once _ conn hconn scope honce
      · exact hscopes scope hnew
    · exact h.once _ conn' h' scope hmem
  · rcases hlookup id' conn' h' with ⟨rfl, rfl⟩ | h'
    · exact h.allowed _ conn hconn hallowed
    · exact h.allowed _ conn' h' hallowed
  · obtain ⟨hne, hin, hshown, hagent⟩ := h.showing b key hturn
    refine ⟨hne, hin, hshown, fun conn' h' => ?_⟩
    rcases hlookup _ conn' h' with ⟨rfl, rfl⟩ | h'
    · exact hagent conn hconn
    · exact hagent conn' h'

/-- The process is granted what it asked for. -/
theorem Honoured.grantSession {key : Proc} {agent : Agent} {scopes : Scopes} (h : c.Honoured)
    (hagent : c.agents.lookup key = some agent)
    (hscopes : ∀ scope ∈ scopes, ∀ conn, Licensed c.log key conn scope) :
    Honoured { c with
      agents := c.agents.insert key { agent with session := agent.session ∪ scopes } } := by
  refine ⟨h.log, h.known, h.once, h.allowed, fun other scope hmem conn => ?_, h.asks, h.showing⟩
  by_cases hother : other = key
  · subst hother
    have hmem' : scope ∈ agent.session ∪ scopes := by
      simpa [Control.session, AList.lookup_insert] using hmem
    rcases Finset.mem_union.mp hmem' with hold | hnew
    · exact h.session other scope (by simpa [Control.session, hagent] using hold) conn
    · exact hscopes scope hnew conn
  · refine h.session other scope ?_ conn
    simpa [Control.session, AList.lookup_insert_ne hother] using hmem

/-- **A request**, of a command that a line may say. -/
theorem Honoured.request {cmd : Command} (h : c.Honoured) (H : Hooks) (w : World) (r : Reply)
    (hcmd : cmd.Readable) : (c.request H w r cmd).Honoured := by
  have hsound : cmd.Sound := Reading.command_ok_iff.1.mp hcmd
  cases hconn : c.conns.lookup r.conn with
  | none =>
    simp only [Control.request, hconn]
    exact h.reply _ _
  | some conn =>
    have hin : r.conn ∈ c.announced := h.known _ conn hconn
    cases cmd with
    | hello client scopes =>
      obtain ⟨-, hne, hscript⟩ := hsound
      simp only [Control.request, hconn]
      split_ifs
      · exact h.reply _ _
      · split
        · rename_i agent hagent
          exact (h.introduce _ _ c.nextAgent (by simp [Control.session, hagent])).ask
            ⟨hne, fun hmem => absurd hmem hscript, hin⟩
        · exact h.ask ⟨hne, fun hmem => absurd hmem hscript, hin⟩
    | request scope =>
      simp only [Control.request, hconn]
      split_ifs
      · exact h.reply _ _
      · refine h.ask ⟨Finset.singleton_ne_empty _, fun hmem => ?_, hin⟩
        rw [Finset.mem_singleton.mp hmem]
    | _ =>
      simp only [Control.request, hconn]
      split_ifs with hallowed
      · exact h.reply _ _
      · split
        · exact h.reply _ _
        · rename_i hgranted
          exact ((h.ran hconn (by simpa using hallowed) hgranted).command H w _ _ _).reply _ _

/-- **Any job**, of which a request says a command. -/
theorem Honoured.job {j : Job} (h : c.Honoured) (H : Hooks) (w : World)
    (hnew : ∀ conn peer, j = .connected conn peer → conn ∉ c.announced)
    (hread : ∀ r cmd, j = .request r cmd → cmd.Readable) : (c.job H w j).Honoured := by
  cases j with
  | connected conn peer => exact h.connected peer (hnew conn peer rfl)
  | request r cmd => exact h.request H w r (hread r cmd rfl)
  | closed conn => exact h.closed conn
  | stopAgent number => exact h.stopAgent number
  | «switch» on =>
    rw [Control.job]
    split_ifs
    · exact h.serving true
    · exact h.stopServing
  | windowClosed window => exact h.tabs
  | openedBeside parent window => exact h.openedBeside w parent window

/-- **The next ask is taken.** -/
theorem Honoured.take (h : c.Honoured) (hturn : c.turn = .taking) : c.take.Honoured := by
  have htaking : ∀ a key, c.turn ≠ .showing a key := by simp [hturn]
  rw [Control.take]
  split
  · exact h.rest (fun a ha => ha) (by simp)
  · rename_i a rest hwaiting
    obtain ⟨hne, hplain, hin⟩ := h.asks a (hwaiting ▸ List.mem_cons_self)
    have hrest : Honoured { c with waiting := rest } :=
      h.rest (fun b hb => hwaiting ▸ List.mem_cons_of_mem a hb) htaking
    dsimp only
    split
    · exact hrest.note_mere rfl
    · rename_i conn hconn
      split_ifs with hcovers
      · refine Honoured.note_mere (hrest.allow_covered hne fun conn' hconn' => ?_) rfl
        exact Option.some.inj (hconn.symm.trans hconn') ▸ hcovers
      · exact hrest.note_mere rfl
      · exact hrest.note_mere rfl
      · -- the prompt shows for the process of the connection
        have hlater : (Control.note (.shown a conn.agent) { c with waiting := rest }).Honoured :=
          hrest.note hplain fun key heq => absurd heq (by simp)
        refine ⟨hlater.log, hlater.known, hlater.once, hlater.allowed, hlater.session, hlater.asks,
          fun b key heq => ?_⟩
        obtain ⟨rfl, rfl⟩ := Turn.showing.inj heq
        refine ⟨hne, announced_append rfl hin, ⟨c.clock, by simp [Control.note]⟩, fun conn' h' => ?_⟩
        exact congrArg Conn.agent (Option.some.inj (h'.symm.trans hconn))

/-- **The person answers.** -/
theorem Honoured.answer {a : Ask} {key : Proc} (h : c.Honoured) (hturn : c.turn = .showing a key)
    (said : Answer) : (c.answer said).Honoured := by
  obtain ⟨hne, hin, hshown, hagent⟩ := h.showing a key hturn
  obtain ⟨scope₀, hscope₀⟩ := Finset.nonempty_iff_ne_empty.mpr hne
  have hsaid : (Control.note (.said a key said) { c with turn := .taking }).Honoured :=
    (Honoured.rest h (fun b (hb : b ∈ c.waiting) => hb) (by simp)).note hshown
      fun key heq => absurd heq (by simp)
  simp only [Control.answer, hturn]
  split
  · exact hsaid.note_mere rfl
  · rename_i conn hconn
    have hkey : conn.agent = key := hagent conn hconn
    -- what was said yes to is allowed
    have hyes : ∀ scope ∈ a.scopes, said = .session ∨ said = .once →
        Licensed (Control.note (.said a key said) { c with turn := .taking }).log key a.conn scope :=
      fun scope hscope hyes => since_concat ⟨a, said, rfl, hscope, hyes.imp id fun h => ⟨h, rfl⟩⟩
    cases said with
    | deny =>
      refine Honoured.note_mere ?_ rfl
      exact ⟨hsaid.log, hsaid.known, hsaid.once, hsaid.allowed, hsaid.session, hsaid.asks,
        hsaid.showing⟩
    | once =>
      have hgranted := hsaid.grantOnce hconn fun scope hscope =>
        hkey ▸ hyes scope hscope (.inr rfl)
      refine (hgranted.allow fun conn' hconn' => ⟨scope₀, ?_⟩).note_mere rfl
      rw [AList.lookup_insert] at hconn'
      obtain rfl := Option.some.inj hconn'
      exact hkey ▸ hyes scope₀ hscope₀ (.inr rfl)
    | session =>
      have hany : ∀ scope ∈ a.scopes, ∀ id, Licensed
          (Control.note (.said a key .session) { c with turn := .taking }).log key id scope :=
        fun scope hscope id => since_concat ⟨a, .session, rfl, hscope, .inl rfl⟩
      have hallow : ∀ d : Control, d.Honoured → d.conns = c.conns →
          d.log = (Control.note (.said a key .session) { c with turn := .taking }).log →
          (d.allow a).Honoured := by
        intro d hd hconns hlog
        refine hd.allow fun conn' hconn' => ⟨scope₀, ?_⟩
        obtain rfl := Option.some.inj (hconn.symm.trans (hconns ▸ hconn'))
        exact hlog ▸ hkey ▸ hany scope₀ hscope₀ a.conn
      dsimp only
      split
      · rename_i agent hknown
        exact (hallow _ (hsaid.grantSession hknown hany) rfl rfl).note_mere rfl
      · exact (hallow _ hsaid rfl rfl).note_mere rfl

/-- **The requests are read**: whatever is asked is what some line says. -/
def Read (e : World × Event) : Prop :=
  match e.2 with
  | .job (.request _ cmd) => cmd.Readable
  | _ => True

instance : ∀ e : World × Event, Decidable (Read e)
  | (_, .job (.request _ cmd)) => inferInstanceAs (Decidable cmd.Readable)
  | (_, .job (.connected _ _)) | (_, .job (.closed _)) | (_, .job (.stopAgent _))
  | (_, .job (.switch _)) | (_, .job (.windowClosed _)) | (_, .job (.openedBeside _ _))
  | (_, .take) | (_, .said _) => .isTrue trivial

/-- One step, in which requests are read. -/
abbrev ReadStep (H : Hooks) : Control → World × Event → Control → Prop :=
  Events.stepOf (fun c e => c.Ready e ∧ Read e) fun c e => some (c.after H e)

/-- **One step.** -/
theorem Honoured.after {e : World × Event} (h : c.Honoured) (hready : c.Ready e) (hread : Read e) :
    (c.after H e).Honoured := by
  obtain ⟨w, e⟩ := e
  have htick := h.tick w.now
  cases e with
  | job j =>
    refine htick.job H w hready.2.2 ?_
    rintro r cmd rfl
    exact hread
  | take => exact htick.take hready.2
  | said said =>
    obtain ⟨a, key, hturn⟩ := hready.2
    exact htick.answer hturn said

/-- **Nothing is done that was not allowed**, in every run in which the requests are read. -/
theorem consented_of_runs {serving : Bool} {events : List (World × Event)}
    (h : Events.Runs (ReadStep H) (start serving) events c) : EachAfter Consented c.log :=
  (h.invariant (I := Honoured) (fun _ _ _ hinv ⟨⟨hready, hread⟩, heq⟩ =>
    Option.some.inj heq ▸ hinv.after hready hread) (honoured_start serving)).log

/-- The program says hello, and the person allows it while it is connected; it looks at its tabs;
and it is stopped. -/
def allowedOnce : List (World × Event) :=
  [(worldAt 0, .job (.connected 1 program)), (worldAt 0, hello 1), (worldAt 0, .take),
    (worldAt 2000, .said .once), (worldAt 2000, .take),
    (worldAt 3000, .job (.request ⟨1, .null, 2⟩ .tabs)), (worldAt 4000, .job (.stopAgent 1))]

/-- A command was let through, and then all was taken back. -/
def ranAndStopped (c : Control) : Bool :=
  match c.log.map Prod.snd with
  | [_, _, _, _, .ran 1 _ .tabs, _, .revoked _] => true
  | _ => false

theorem consented_of_runs_once : ∃ c, Events.Runs (ReadStep noHooks) (start true) allowedOnce c ∧
    c.ranAndStopped = true ∧ EachAfter Consented c.log := by
  obtain ⟨c, hruns, hran⟩ : ∃ c, Events.Runs (ReadStep noHooks) (start true) allowedOnce c ∧
      c.ranAndStopped = true := Events.exists_runs_of_follow (by decide +kernel)
  exact ⟨c, hruns, hran, consented_of_runs hruns⟩

end Control

end Syndeo.App
