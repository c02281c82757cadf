import Syndeo.App.Refusal

/-!
# A program's tabs are its own

A program works in tabs, which it names by number. A number is given once: a tab that is there has
always been of the process and the window it is of, and a number whose tab is gone names nothing
any more, whoever asks. And a tab is a process's because the process opened one: it had an `open`
let through, and what it was allowed has not been taken back since
(`Syndeo.App.Control.owned_of_runs`). So a process is in no page that a person, or another
process, opened.
-/

namespace Syndeo.App

open Tables Events

/-- **The process opened a tab**, and has not been stopped since. -/
def Opened (log : List (ℕ × Note)) (key : Proc) : Prop :=
  Since (fun n => ∃ conn url waits timeout, n.2 = .ran conn key (.open url waits timeout))
    (fun n => n.2 = .revoked key) log

/-- Nothing is taken back by it. -/
def Note.lasting : Note → Bool
  | .revoked _ => false
  | _ => true

theorem Opened.append {log more : List (ℕ × Note)} {key : Proc} (h : Opened log key)
    (hmore : ∀ n ∈ more, n.2 ≠ .revoked key) : Opened (log ++ more) key := by
  induction more using List.reverseRecOn with
  | nil => simpa using h
  | append_singleton more n ih =>
    rw [← List.append_assoc]
    exact Since.concat (ih fun n' hn' => hmore n' (List.mem_append_left _ hn'))
      (hmore n (List.mem_append_right _ List.mem_cons_self))

namespace Control

variable {c c' : Control} {H : Hooks} {w : World}

/-- **What holds of the tabs**: their numbers were given, and their processes opened tabs. -/
structure Owned (c : Control) : Prop where
  below : ∀ id tab, c.tabs.lookup id = some tab → id < c.nextTab
  opened : ∀ id tab, c.tabs.lookup id = some tab → Opened c.log tab.agent

/-- **No tab changes hands**: the numbers that were given name what they named, or nothing. -/
structure Passes (c c' : Control) : Prop where
  next : c.nextTab ≤ c'.nextTab
  hands : ∀ id tab, id < c.nextTab → c'.tabs.lookup id = some tab → c.tabs.lookup id = some tab
  owned : c.Owned → c'.Owned

theorem Passes.refl (c : Control) : Passes c c := ⟨le_rfl, fun _ _ _ h => h, id⟩

theorem Passes.trans {c₁ c₂ : Control} (h : Passes c c₁) (h' : Passes c₁ c₂) : Passes c c₂ where
  next := h.next.trans h'.next
  hands id tab hid htab := h.hands id tab hid (h'.hands id tab (hid.trans_le h.next) htab)
  owned hc := h'.owned (h.owned hc)

/-- Some of the tabs go, and nothing is taken back of the processes of the others. -/
theorem passes_of_subset (more : List (ℕ × Note)) (hnext : c'.nextTab = c.nextTab)
    (htabs : ∀ id tab, c'.tabs.lookup id = some tab →
      c.tabs.lookup id = some tab ∧ ∀ n ∈ more, n.2 ≠ .revoked tab.agent)
    (hlog : c'.log = c.log ++ more) : Passes c c' where
  next := hnext.ge
  hands id tab _ htab := (htabs id tab htab).1
  owned hc := ⟨fun id tab htab => hnext ▸ hc.below id tab (htabs id tab htab).1,
    fun id tab htab => hlog ▸ (hc.opened id tab (htabs id tab htab).1).append (htabs id tab htab).2⟩

/-- The tabs are left alone. -/
theorem passes_of_eq (hnext : c'.nextTab = c.nextTab) (htabs : c'.tabs = c.tabs)
    (hlog : c'.log = c.log) : Passes c c' :=
  passes_of_subset [] hnext (fun _ _ h => ⟨htabs ▸ h, by simp⟩) (by simp [hlog])

theorem passes_note {n : Note} (hn : n.lasting = true) : Passes c (c.note n) :=
  passes_of_subset [(c.clock, n)] rfl (fun _ _ h => ⟨h, by
    simp only [List.mem_singleton, forall_eq]
    rintro rfl
    exact absurd hn (by simp [Note.lasting])⟩) rfl

theorem passes_reply (r : Reply) (result : Except Failure Value) : Passes c (c.reply r result) :=
  passes_note rfl

theorem passes_retain (p : ℕ → Tab → Bool) : Passes c { c with tabs := retain p c.tabs } := by
  refine passes_of_subset [] rfl (fun id tab htab => ⟨?_, by simp⟩) (by simp)
  rw [lookup_retain, Option.filter_eq_some_iff] at htab
  exact htab.1

theorem passes_releaseTabs (key : Proc) : Passes c (c.releaseTabs key) := passes_retain _

/-- **A process that opened a tab is given another.** -/
theorem passes_adopt {key : Proc} (window : ℕ) (hopened : c.Owned → Opened c.log key) :
    Passes c (c.adopt key window) where
  next := Nat.le_succ _
  hands id tab hid htab := by
    rwa [show (c.adopt key window).tabs = c.tabs.insert c.nextTab ⟨key, window⟩ from rfl,
      AList.lookup_insert_ne hid.ne] at htab
  owned hc := by
    have hcases : ∀ id tab, (c.tabs.insert c.nextTab ⟨key, window⟩).lookup id = some tab →
        id = c.nextTab ∧ tab = ⟨key, window⟩ ∨ c.tabs.lookup id = some tab := by
      intro id tab htab
      by_cases hid : id = c.nextTab
      · subst hid
        rw [AList.lookup_insert] at htab
        exact .inl ⟨rfl, (Option.some.inj htab).symm⟩
      · rw [AList.lookup_insert_ne hid] at htab
        exact .inr htab
    refine ⟨fun id tab htab => ?_, fun id tab htab => ?_⟩
    · rcases hcases id tab htab with ⟨rfl, -⟩ | htab
      · exact Nat.lt_succ_self _
      · exact Nat.lt_succ_of_lt (hc.below id tab htab)
    · rcases hcases id tab htab with ⟨-, rfl⟩ | htab
      · exact hopened hc
      · exact hc.opened id tab htab

/-! ### Jobs -/

theorem passes_allow (a : Ask) : Passes c (c.allow a) := by
  rw [allow]
  split
  · split_ifs
    · exact passes_of_eq rfl rfl rfl
    · exact .refl c
  · exact .refl c

theorem passes_forgetIfDone (key : Proc) : Passes c (c.forgetIfDone key) := by
  rw [forgetIfDone]
  split_ifs
  · exact .refl c
  · exact (passes_releaseTabs key).trans (passes_of_eq rfl rfl rfl)

theorem passes_closed (conn : ℕ) : Passes c (c.closed conn) := by
  rw [closed]
  split
  · exact .refl c
  · have hgone : Passes c { c with conns := c.conns.erase conn } := passes_of_eq rfl rfl rfl
    exact hgone.trans (passes_forgetIfDone _)

/-- **A process that is stopped has no tab**, and none that it had is another's. -/
theorem passes_revoke (key : Proc) : Passes c (c.revoke key) := by
  refine passes_of_subset [(c.clock, .revoked key)] rfl (fun id tab htab => ?_) rfl
  have hkept : (retain (fun _ tab => decide (tab.agent ≠ key)) c.tabs).lookup id = some tab := htab
  rw [lookup_retain, Option.filter_eq_some_iff] at hkept
  refine ⟨hkept.1, ?_⟩
  simp only [List.mem_singleton, forall_eq]
  intro heq
  exact absurd (Note.revoked.inj heq).symm (by simpa using hkept.2)

theorem passes_stopAgent (number : ℕ) : Passes c (c.stopAgent number) := by
  rw [stopAgent]
  split
  · exact passes_revoke _
  · exact .refl c

theorem passes_stopServing : Passes c c.stopServing := by
  have hrevoked : ∀ (keys : List Proc) (d : Control), Passes c d →
      Passes c (keys.foldl (fun d key => d.revoke key) d) := by
    intro keys
    induction keys with
    | nil => exact fun d hd => hd
    | cons key keys ih => exact fun d hd => ih (d.revoke key) (hd.trans (passes_revoke key))
  have hstopped : Passes c { c with serving := false } := passes_of_eq rfl rfl rfl
  exact (hrevoked c.agents.keys _ hstopped).trans (passes_of_eq rfl rfl rfl)

theorem passes_connected (conn : ℕ) (peer : Peer) : Passes c (c.connected conn peer) := by
  rw [connected]
  split
  · exact .refl c
  · rename_i key _
    split_ifs
    · exact .refl c
    · have hadded : ∀ d, Passes c d → Passes c
          ({ d with conns := d.conns.insert conn ⟨key, false, ∅⟩ }.note (.connected conn key)) := by
        intro d hd
        have hinserted : Passes d { d with conns := d.conns.insert conn ⟨key, false, ∅⟩ } :=
          passes_of_eq rfl rfl rfl
        exact (hd.trans hinserted).trans (passes_note rfl)
      cases c.agents.lookup key with
      | some agent => exact hadded _ (passes_of_eq rfl rfl rfl)
      | none => exact hadded _ (passes_of_eq rfl rfl rfl)

/-- A window that a tab opened is of the tab's process. -/
theorem passes_openedBeside (w : World) (parent window : ℕ) :
    Passes c (c.openedBeside w parent window) := by
  rw [openedBeside]
  split
  · exact .refl c
  · rename_i id tab hfound
    split_ifs
    · refine passes_adopt window fun hc => hc.opened id tab ?_
      exact mem_rows_iff.mp (List.mem_of_find?_eq_some hfound)
    · exact .refl c

/-- A process that opened a tab opens another, or fails to. -/
theorem passes_openTab {key : Proc} (H : Hooks) (w : World) (url : String)
    (hopened : c.Owned → Opened c.log key) : Passes c (c.openTab H w key url).2 := by
  rw [openTab]
  split
  · exact .refl _
  · split_ifs
    · exact passes_adopt w.window hopened
    · exact .refl _

theorem command_open (H : Hooks) (w : World) (key : Proc) (granted : Scopes) (url : String)
    (waits : Bool) (timeout : ℕ) :
    c.command H w key granted (.open url waits timeout) = c.openTab H w key url := rfl

/-- **A command that is let through** opens a tab, or leaves the tabs as they are. -/
theorem passes_ran (H : Hooks) (w : World) (conn : ℕ) (key : Proc) (granted : Scopes)
    (cmd : Command) : Passes c ((c.note (.ran conn key cmd)).command H w key granted cmd).2 := by
  have hran : Passes c (c.note (.ran conn key cmd)) := passes_note rfl
  cases cmd with
  | «open» url waits timeout =>
    have hopened : Opened (c.note (.ran conn key (.open url waits timeout))).log key :=
      since_concat ⟨conn, url, waits, timeout, rfl⟩
    rw [command_open]
    exact hran.trans (passes_openTab H w url fun _ => hopened)
  | _ => exact hran

theorem passes_queue (a : Ask) : Passes c (c.queue a) := passes_of_eq rfl rfl rfl

theorem passes_ask (a : Ask) : Passes c (c.ask a) := by
  rw [ask]
  split
  · split_ifs
    · exact (passes_allow a).trans (passes_note rfl)
    · exact passes_queue a
  · exact passes_queue a

theorem passes_request (H : Hooks) (w : World) (r : Reply) (cmd : Command) :
    Passes c (c.request H w r cmd) := by
  cases hconn : c.conns.lookup r.conn with
  | none =>
    simp only [request, hconn]
    exact passes_reply _ _
  | some conn =>
    cases cmd with
    | hello client scopes =>
      simp only [request, hconn]
      split_ifs
      · exact passes_reply _ _
      · split
        · rename_i agent _
          have hnamed : Passes c { c with
              agents := c.agents.insert conn.agent { agent with name := displayName client } } :=
            passes_of_eq rfl rfl rfl
          exact hnamed.trans (passes_ask _)
        · exact passes_ask _
    | request scope =>
      simp only [request, hconn]
      split_ifs
      · exact passes_reply _ _
      · exact passes_ask _
    | _ =>
      simp only [request, hconn]
      split_ifs
      · exact passes_reply _ _
      · split
        · exact passes_reply _ _
        · exact (passes_ran H w _ _ _ _).trans (passes_reply _ _)

theorem passes_job (H : Hooks) (w : World) (j : Job) : Passes c (c.job H w j) := by
  cases j with
  | connected conn peer => exact passes_connected conn peer
  | request r cmd => exact passes_request H w r cmd
  | closed conn => exact passes_closed conn
  | stopAgent number => exact passes_stopAgent number
  | «switch» on =>
    rw [job]
    split_ifs
    · exact passes_of_eq rfl rfl rfl
    · exact passes_stopServing
  | windowClosed window => exact passes_retain _
  | openedBeside parent window => exact passes_openedBeside w parent window

/-! ### The loop of the asks -/

theorem passes_take : Passes c c.take := by
  rw [take]
  split
  · exact passes_of_eq rfl rfl rfl
  · rename_i a rest _
    have hrest : Passes c { c with waiting := rest } := passes_of_eq rfl rfl rfl
    dsimp only
    split
    · exact hrest.trans (passes_note rfl)
    · rename_i conn _
      split_ifs
      · exact (hrest.trans (passes_allow a)).trans (passes_note rfl)
      · exact hrest.trans (passes_note rfl)
      · exact hrest.trans (passes_note rfl)
      · have hshowing : Passes c { c with waiting := rest, turn := .showing a conn.agent } :=
          passes_of_eq rfl rfl rfl
        exact hshowing.trans (passes_note rfl)

theorem passes_answer (said : Answer) : Passes c (c.answer said) := by
  rw [answer]
  split
  · rename_i a key _
    have htaking : Passes c { c with turn := .taking } := passes_of_eq rfl rfl rfl
    have hsaid := htaking.trans (passes_note (n := .said a key said) rfl)
    have hnoted : ∀ (d : Control) (n : Note), Passes c d → n.lasting = true →
        Passes c (d.note n) := fun d n hd hn => hd.trans (passes_note hn)
    have hallowed : ∀ (d : Control) (n : Note), Passes c d → n.lasting = true →
        Passes c ((d.allow a).note n) := fun d n hd hn =>
      hnoted _ n (hd.trans (passes_allow a)) hn
    dsimp only
    split
    · exact hnoted _ _ hsaid rfl
    · cases said with
      | deny => exact hnoted _ _ (hsaid.trans (passes_of_eq rfl rfl rfl)) rfl
      | once => exact hallowed _ _ (hsaid.trans (passes_of_eq rfl rfl rfl)) rfl
      | session =>
        dsimp only
        split
        · exact hallowed _ _ (hsaid.trans (passes_of_eq rfl rfl rfl)) rfl
        · exact hallowed _ _ hsaid rfl
  · exact .refl c

/-- **One step.** -/
theorem passes_after (e : World × Event) : Passes c (c.after H e) := by
  obtain ⟨w, e⟩ := e
  have htick : Passes c { c with clock := w.now } := passes_of_eq rfl rfl rfl
  cases e with
  | job j => exact htick.trans (passes_job H w j)
  | take => exact htick.trans passes_take
  | said said => exact htick.trans (passes_answer said)

theorem passes_of_runs {events : List (World × Event)} (h : Runs H c events c') : Passes c c' := by
  induction h with
  | nil s => exact .refl s
  | cons hfirst _ ih =>
    obtain ⟨-, heq⟩ := hfirst
    obtain rfl := Option.some.inj heq
    exact (passes_after _).trans ih

/-- Every address is one of a web page. -/
def webHooks : Hooks :=
  ⟨fun _ => some ⟨"https", some (.domain "a.example")⟩, some, fun _ => false, "0"⟩

/-- The program is allowed to open tabs, once, and opens one. -/
def opening : List (World × Event) :=
  let asks : Event := .job (.request ⟨1, .null, 1⟩ (.hello "A program" {.navigate}))
  let opens : Event := .job (.request ⟨1, .null, 2⟩ (.open "https://a.example" false 0))
  [(worldAt 0, .job (.connected 1 program)), (worldAt 0, asks), (worldAt 0, .take),
    (worldAt 0, .said .once), (worldAt 0, .take), (worldAt 0, opens)]

end Control

end Syndeo.App
