import Syndeo.App.Control

/-!
# A refusal is left in peace

A process that the person refused is not asked about again for a while: the refusal is
recorded under the process, and looked up when an ask of it is next taken. It is recorded only
if the connection that asked is still there when the person answers. Where it is not, the
refusal is lost, and whatever the process asks next shows a prompt at once
(`Syndeo.App.Control.not_leftInPeace`); where it always is, no prompt for the process shows
until the time is over, and what it asks and is answered in that time is refused
(`Syndeo.App.Control.leftInPeace`).

Of most of what happens one thing need be said: it asks nobody, and what is granted does not
grow by it (`Syndeo.App.Control.Wanes`).
-/

namespace Syndeo.App

open Tables

/-- Nobody is asked by it, and no ask that waited is answered. -/
def Note.quiet : Note → Bool
  | .shown _ _ | .said _ _ _ | .answered _ _ => false
  | _ => true

namespace Control

/-- What is granted to a process until Syndeo quits. -/
def session (key : Proc) (c : Control) : Scopes := ((c.agents.lookup key).map Agent.session).getD ∅

/-- **Nobody is asked, and nothing is granted**: what is there of the connections and of what
they may do was there before, but for connections that are announced. -/
structure Wanes (c c' : Control) : Prop where
  clock : c'.clock = c.clock
  denied : c'.denied = c.denied
  turn : c'.turn = c.turn
  waiting : c'.waiting = c.waiting
  log : ∃ more, c'.log = c.log ++ more ∧ ∀ n ∈ more, n.1 = c.clock ∧ n.2.quiet = true
  session : ∀ key, c'.session key ⊆ c.session key
  conns : ∀ id conn', c'.conns.lookup id = some conn' →
    (∃ conn, c.conns.lookup id = some conn ∧ conn.agent = conn'.agent ∧ conn'.once ⊆ conn.once) ∨
      id ∉ c.announced ∧ id ∈ c'.announced

/-- The part of the state that grants are about is left alone. -/
theorem wanes_of_eq {c c' : Control} (hclock : c'.clock = c.clock) (hdenied : c'.denied = c.denied)
    (hturn : c'.turn = c.turn) (hwaiting : c'.waiting = c.waiting) (hlog : c'.log = c.log)
    (hsession : ∀ key, c'.session key ⊆ c.session key)
    (hconns : ∀ id conn', c'.conns.lookup id = some conn' →
      ∃ conn, c.conns.lookup id = some conn ∧ conn.agent = conn'.agent ∧ conn'.once ⊆ conn.once) :
    Wanes c c' :=
  ⟨hclock, hdenied, hturn, hwaiting, ⟨[], by simp [hlog], by simp⟩, hsession,
    fun id conn' h => .inl (hconns id conn' h)⟩

theorem Wanes.refl (c : Control) : Wanes c c :=
  wanes_of_eq rfl rfl rfl rfl rfl (fun _ => Finset.Subset.refl _)
    fun _ conn h => ⟨conn, h, rfl, Finset.Subset.refl _⟩

theorem announced_append {c c' : Control} {more : List (ℕ × Note)} (h : c'.log = c.log ++ more)
    {id : ℕ} (hid : id ∈ c.announced) : id ∈ c'.announced := by
  rw [announced, h, List.filterMap_append]
  exact List.mem_append_left _ hid

theorem Wanes.trans {c c₁ c₂ : Control} (h : Wanes c c₁) (h' : Wanes c₁ c₂) : Wanes c c₂ := by
  obtain ⟨more, hmore, hquiet⟩ := h.log
  obtain ⟨more', hmore', hquiet'⟩ := h'.log
  refine ⟨h'.clock.trans h.clock, h'.denied.trans h.denied, h'.turn.trans h.turn,
    h'.waiting.trans h.waiting, ⟨more ++ more', by rw [hmore', hmore, List.append_assoc], ?_⟩,
    fun key => (h'.session key).trans (h.session key), fun id conn₂ h₂ => ?_⟩
  · intro n hn
    rcases List.mem_append.mp hn with hn | hn
    · exact hquiet n hn
    · exact h.clock ▸ hquiet' n hn
  · rcases h'.conns id conn₂ h₂ with ⟨conn₁, h₁, hagent, honce⟩ | ⟨hnew, hin⟩
    · rcases h.conns id conn₁ h₁ with ⟨conn, hc, hagent', honce'⟩ | ⟨hnew, hin⟩
      · exact .inl ⟨conn, hc, hagent'.trans hagent, honce.trans honce'⟩
      · exact .inr ⟨hnew, announced_append hmore' hin⟩
    · exact .inr ⟨fun hid => hnew (announced_append hmore hid), hin⟩

variable {c c' : Control} {H : Hooks} {w : World}

theorem wanes_note {n : Note} (hn : n.quiet = true) : Wanes c (c.note n) :=
  ⟨rfl, rfl, rfl, rfl, ⟨[(c.clock, n)], rfl, by simpa using hn⟩, fun _ => Finset.Subset.refl _,
    fun _ conn h => .inl ⟨conn, h, rfl, Finset.Subset.refl _⟩⟩

theorem wanes_reply (r : Reply) (result : Except Failure Value) : Wanes c (c.reply r result) :=
  wanes_note rfl

/-- Only tabs are touched. -/
theorem wanes_tabs {tabs : Table ℕ Tab} {next : ℕ} :
    Wanes c { c with tabs := tabs, nextTab := next } :=
  wanes_of_eq rfl rfl rfl rfl rfl (fun _ => Finset.Subset.refl _)
    fun _ conn h => ⟨conn, h, rfl, Finset.Subset.refl _⟩

/-- A process is forgotten. -/
theorem wanes_erase (key : Proc) : Wanes c { c with agents := c.agents.erase key } := by
  refine wanes_of_eq rfl rfl rfl rfl rfl (fun other => ?_)
    fun _ conn h => ⟨conn, h, rfl, Finset.Subset.refl _⟩
  by_cases h : other = key
  · subst h
    simp [session]
  · simp [session, AList.lookup_erase_ne h]

/-- What is known of a process changes, but not what it is allowed. -/
theorem wanes_agents {key : Proc} {agent : Agent} (next : ℕ)
    (h : agent.session = c.session key) :
    Wanes c { c with agents := c.agents.insert key agent, nextAgent := next } := by
  refine wanes_of_eq rfl rfl rfl rfl rfl (fun other => ?_)
    fun _ conn h => ⟨conn, h, rfl, Finset.Subset.refl _⟩
  by_cases hother : other = key
  · subst hother
    simp only [session, AList.lookup_insert, Option.map_some, Option.getD_some]
    exact h ▸ Finset.Subset.refl _
  · simp [session, AList.lookup_insert_ne hother]

/-- Connections go, or stay. -/
theorem wanes_conns {conns : Table ℕ Conn}
    (h : ∀ id conn', conns.lookup id = some conn' →
      ∃ conn, c.conns.lookup id = some conn ∧ conn.agent = conn'.agent ∧ conn'.once ⊆ conn.once) :
    Wanes c { c with conns } :=
  wanes_of_eq rfl rfl rfl rfl rfl (fun _ => Finset.Subset.refl _) h

/-! ### Jobs that ask nothing -/

theorem wanes_allow (a : Ask) : Wanes c (c.allow a) := by
  rw [allow]
  split
  · rename_i conn hconn
    split_ifs
    · refine wanes_conns fun id conn' h => ?_
      by_cases hid : id = a.conn
      · subst hid
        rw [AList.lookup_insert] at h
        obtain rfl := Option.some.inj h
        exact ⟨conn, hconn, rfl, Finset.Subset.refl _⟩
      · rw [AList.lookup_insert_ne hid] at h
        exact ⟨conn', h, rfl, Finset.Subset.refl _⟩
    · exact .refl c
  · exact .refl c

theorem wanes_releaseTabs (key : Proc) : Wanes c (c.releaseTabs key) := wanes_tabs

theorem wanes_forgetIfDone (key : Proc) : Wanes c (c.forgetIfDone key) := by
  rw [forgetIfDone]
  split_ifs
  · exact .refl c
  · exact (wanes_releaseTabs key).trans (wanes_erase key)

theorem wanes_closed (conn : ℕ) : Wanes c (c.closed conn) := by
  rw [closed]
  split
  · exact .refl c
  · refine (wanes_conns fun id conn' h => ?_).trans (wanes_forgetIfDone _)
    by_cases hid : id = conn
    · subst hid
      rw [AList.lookup_erase] at h
      exact nomatch h
    · rw [AList.lookup_erase_ne hid] at h
      exact ⟨conn', h, rfl, Finset.Subset.refl _⟩

theorem wanes_retain (p : ℕ → Conn → Bool) : Wanes c { c with conns := retain p c.conns } := by
  refine wanes_conns fun id conn' h => ?_
  rw [lookup_retain, Option.filter_eq_some_iff] at h
  exact ⟨conn', h.1, rfl, Finset.Subset.refl _⟩

theorem wanes_revoke (key : Proc) : Wanes c (c.revoke key) :=
  (((wanes_retain _).trans (wanes_releaseTabs key)).trans (wanes_erase key)).trans (wanes_note rfl)

theorem wanes_stopAgent (number : ℕ) : Wanes c (c.stopAgent number) := by
  rw [stopAgent]
  split
  · exact wanes_revoke _
  · exact .refl c

theorem wanes_stopServing : Wanes c c.stopServing := by
  have hserving : Wanes c { c with serving := false } :=
    wanes_of_eq rfl rfl rfl rfl rfl (fun _ => Finset.Subset.refl _)
      fun _ conn h => ⟨conn, h, rfl, Finset.Subset.refl _⟩
  have hrevoked : ∀ (keys : List Proc) (d : Control), Wanes c d →
      Wanes c (keys.foldl (fun d key => d.revoke key) d) := by
    intro keys
    induction keys with
    | nil => exact fun d hd => hd
    | cons key keys ih => exact fun d hd => ih (d.revoke key) (hd.trans (wanes_revoke key))
  refine (hrevoked c.agents.keys _ hserving).trans (wanes_conns fun id conn' h => ?_)
  rw [AList.lookup_empty] at h
  exact nomatch h

theorem wanes_connected {conn : ℕ} (peer : Peer) (hnew : conn ∉ c.announced) :
    Wanes c (c.connected conn peer) := by
  rw [connected]
  split
  · exact .refl c
  · rename_i key _
    split_ifs
    · exact .refl c
    · -- what is known of the process, and then the connection
      have hagents : ∀ d, Wanes c d → conn ∉ d.announced →
          Wanes c ({ d with conns := d.conns.insert conn ⟨key, false, ∅⟩ }.note
            (.connected conn key)) := by
        intro d hd hdnew
        refine hd.trans ⟨rfl, rfl, rfl, rfl, ⟨[(d.clock, .connected conn key)], rfl, by simp [Note.quiet]⟩,
          fun _ => Finset.Subset.refl _, fun id conn' h => ?_⟩
        by_cases hid : id = conn
        · subst hid
          exact .inr ⟨hdnew, by simp [announced, note]⟩
        · rw [show AList.lookup id _ = d.conns.lookup id from AList.lookup_insert_ne hid] at h
          exact .inl ⟨conn', h, rfl, Finset.Subset.refl _⟩
      cases hagent : c.agents.lookup key with
      | some agent =>
        exact hagents _ (wanes_agents c.nextAgent (by simp [session, hagent])) hnew
      | none => exact hagents _ (wanes_agents _ (by simp [session, hagent])) hnew

theorem wanes_adopt (key : Proc) (window : ℕ) : Wanes c (c.adopt key window) := wanes_tabs

theorem wanes_openedBeside (w : World) (parent window : ℕ) :
    Wanes c (c.openedBeside w parent window) := by
  rw [openedBeside]
  split
  · exact .refl c
  · split_ifs
    · exact wanes_adopt _ window
    · exact .refl c

/-- **A command grants nothing.** -/
theorem wanes_command (H : Hooks) (w : World) (key : Proc) (granted : Scopes) (cmd : Command) :
    Wanes c (c.command H w key granted cmd).2 := by
  cases cmd with
  | «open» url _ _ =>
    change Wanes c (c.openTab H w key url).2
    rw [openTab]
    split
    · exact .refl c
    · split_ifs
      · exact wanes_adopt key w.window
      · exact .refl c
  | _ => exact .refl c

/-! ### Asks -/

/-- **An ask that joins the queue**: it is of the process that its connection is of, which is
not allowed all that it asks for. -/
structure Joins (c mid : Control) (a : Ask) : Prop where
  wanes : Wanes c mid
  since : a.since = c.log.length
  conn : ∃ conn, mid.conns.lookup a.conn = some conn ∧ conn.agent = a.asker ∧
    ¬a.scopes ⊆ mid.granted conn

/-- An ask is answered at once, or it waits. -/
theorem ask_cases {mid : Control} {a : Ask} {conn : Conn} (hmid : Wanes c mid)
    (hsince : a.since = c.log.length) (hconn : mid.conns.lookup a.conn = some conn)
    (hagent : conn.agent = a.asker) :
    Wanes c (mid.ask a) ∨ Joins c mid a ∧ mid.ask a = mid.queue a := by
  simp only [ask, hconn, Option.map_some]
  split_ifs with hcovers
  · exact .inl ((hmid.trans (wanes_allow a)).trans (wanes_note rfl))
  · refine .inr ⟨⟨hmid, hsince, conn, hconn, hagent, fun hsub => hcovers ?_⟩, rfl⟩
    exact Scopes.covers_iff.mpr hsub

/-- **A request** asks nobody, or is an ask that joins the queue. -/
theorem request_cases (H : Hooks) (w : World) (r : Reply) (cmd : Command) :
    Wanes c (c.request H w r cmd) ∨
      ∃ mid a, Joins c mid a ∧ c.request H w r cmd = mid.queue a := by
  have hask : ∀ {mid : Control} {a : Ask} {conn : Conn}, Wanes c mid → a.since = c.log.length →
      mid.conns.lookup a.conn = some conn → conn.agent = a.asker →
      Wanes c (mid.ask a) ∨ ∃ mid' a', Joins c mid' a' ∧ mid.ask a = mid'.queue a' := by
    intro mid a conn hmid hsince hconn hagent
    rcases ask_cases hmid hsince hconn hagent with h | ⟨hjoins, heq⟩
    · exact .inl h
    · exact .inr ⟨mid, a, hjoins, heq⟩
  cases hconn : c.conns.lookup r.conn with
  | none =>
    simp only [request, hconn]
    exact .inl (wanes_reply _ _)
  | some conn =>
    cases cmd with
    | hello client scopes =>
      simp only [request, hconn]
      split_ifs
      · exact .inl (wanes_reply _ _)
      · split
        · rename_i agent hagent
          exact hask (wanes_agents c.nextAgent (by simp [session, hagent])) rfl hconn rfl
        · exact hask (.refl c) rfl hconn rfl
    | request scope =>
      simp only [request, hconn]
      split_ifs
      · exact .inl (wanes_reply _ _)
      · exact hask (.refl c) rfl hconn rfl
    | _ =>
      simp only [request, hconn]
      split_ifs
      · exact .inl (wanes_reply _ _)
      · split
        · exact .inl (wanes_reply _ _)
        · exact .inl (((wanes_note rfl).trans (wanes_command H w _ _ _)).trans (wanes_reply _ _))

/-- **Any job** asks nobody, or is an ask that joins the queue. -/
theorem job_cases {j : Job} (H : Hooks) (w : World)
    (hnew : ∀ conn peer, j = .connected conn peer → conn ∉ c.announced) :
    Wanes c (c.job H w j) ∨ ∃ mid a, Joins c mid a ∧ c.job H w j = mid.queue a := by
  cases j with
  | connected conn peer => exact .inl (wanes_connected peer (hnew conn peer rfl))
  | request r cmd => exact request_cases H w r cmd
  | closed conn => exact .inl (wanes_closed conn)
  | stopAgent number => exact .inl (wanes_stopAgent number)
  | «switch» on =>
    refine .inl ?_
    rw [job]
    split_ifs
    · exact wanes_of_eq rfl rfl rfl rfl rfl (fun _ => Finset.Subset.refl _)
        fun _ conn h => ⟨conn, h, rfl, Finset.Subset.refl _⟩
    · exact wanes_stopServing
  | windowClosed window => exact .inl wanes_tabs
  | openedBeside parent window => exact .inl (wanes_openedBeside w parent window)

end Control

/-! ### Refusals -/

/-- Of the things that happened, one is that the person refused a process. -/
def RefusedAt (log : List (ℕ × Note)) (key : Proc) (i t : ℕ) : Prop :=
  ∃ a, log[i]? = some (t, .said a key .deny)

/-- **A refusal is left in peace**: in the time after it no prompt for the process shows, and
what the process asks after it, and is answered in that time, is refused. -/
def LeftInPeace (log : List (ℕ × Note)) : Prop :=
  ∀ key i t, RefusedAt log key i t → ∀ j t' n, i < j → log[j]? = some (t', n) →
    t' < t + afterDenial →
    (∀ a key', n = .shown a key' → key' ≠ key) ∧
      ∀ a r, n = .answered a r → a.asker = key → i < a.since → ∃ failure, r = .error failure

section Log

variable {log more : List (ℕ × Note)} {key : Proc} {i t now : ℕ} {n : Note}

theorem RefusedAt.lt (h : RefusedAt log key i t) : i < log.length := by
  obtain ⟨a, ha⟩ := h
  exact (List.getElem?_eq_some_iff.mp ha).1

theorem RefusedAt.append (h : RefusedAt log key i t) : RefusedAt (log ++ more) key i t := by
  obtain ⟨a, ha⟩ := h
  exact ⟨a, by rw [List.getElem?_append_left (RefusedAt.lt ⟨a, ha⟩), ha]⟩

/-- A refusal that is among what happened, and one thing more, was there before or is it. -/
theorem RefusedAt.of_concat (h : RefusedAt (log ++ [(now, n)]) key i t) :
    RefusedAt log key i t ∨ i = log.length ∧ t = now ∧ ∃ a, n = .said a key .deny := by
  obtain ⟨a, ha⟩ := h
  rcases Nat.lt_or_ge i log.length with hlt | hge
  · rw [List.getElem?_append_left hlt] at ha
    exact .inl ⟨a, ha⟩
  · rw [List.getElem?_append_right hge] at ha
    have hi : i = log.length := by
      have hlt := (List.getElem?_eq_some_iff.mp ha).1
      simp only [List.length_singleton] at hlt
      omega
    subst hi
    rw [Nat.sub_self, List.getElem?_cons_zero] at ha
    obtain ⟨rfl, rfl⟩ := Prod.mk.inj (Option.some.inj ha)
    exact .inr ⟨rfl, rfl, a, rfl⟩

theorem LeftInPeace.nil : LeftInPeace [] := fun _ _ _ h => absurd h.lt (Nat.not_lt_zero _)

/-- One thing more happens. -/
theorem LeftInPeace.concat (h : LeftInPeace log)
    (hshown : ∀ a key i t, n = .shown a key → RefusedAt log key i t → t + afterDenial ≤ now)
    (hanswered : ∀ a i t, (∃ r, n = .answered a (.ok r)) → RefusedAt log a.asker i t →
      i < a.since → t + afterDenial ≤ now) : LeftInPeace (log ++ [(now, n)]) := by
  intro key i t hrefused j t' m hij hm ht
  rcases Nat.lt_or_ge j log.length with hlt | hge
  · rw [List.getElem?_append_left hlt] at hm
    refine h key i t ?_ j t' m hij hm ht
    obtain ⟨a, ha⟩ := hrefused
    rw [List.getElem?_append_left (hij.trans hlt)] at ha
    exact ⟨a, ha⟩
  · rw [List.getElem?_append_right hge] at hm
    have hj : j = log.length := by
      have hlt := (List.getElem?_eq_some_iff.mp hm).1
      simp only [List.length_singleton] at hlt
      omega
    subst hj
    rw [Nat.sub_self, List.getElem?_cons_zero] at hm
    obtain ⟨rfl, rfl⟩ := Prod.mk.inj (Option.some.inj hm)
    rcases hrefused.of_concat with hrefused | ⟨rfl, -⟩
    · refine ⟨fun a key' hn => ?_, fun a r hn hasker hsince => ?_⟩
      · rintro rfl
        exact absurd (hshown a key' i t hn hrefused) (by omega)
      · subst hasker
        cases r with
        | error failure => exact ⟨failure, rfl⟩
        | ok r => exact absurd (hanswered a i t ⟨r, hn⟩ hrefused hsince) (by omega)
    · exact absurd hij (lt_irrefl _)

end Log

/-! ### What holds all the while -/

namespace Control

variable {c c' : Control} {H : Hooks}

/-- **What holds in every state.** -/
structure Inv (c : Control) : Prop where
  /-- A refusal is recorded, as of its time or later. -/
  recorded : ∀ key i t, RefusedAt c.log key i t →
    ∃ at_, c.denied.lookup key = some at_ ∧ t ≤ at_ ∧ at_ ≤ c.clock
  known : ∀ id conn, c.conns.lookup id = some conn → id ∈ c.announced
  /-- An ask that waits is of a connection of its process. -/
  asks : ∀ a ∈ c.waiting, a.conn ∈ c.announced ∧ a.since ≤ c.log.length ∧
    ∀ conn, c.conns.lookup a.conn = some conn → conn.agent = a.asker
  /-- The prompt that shows is for a process that was not refused lately. -/
  showing : ∀ a key, c.turn = .showing a key → a.asker = key ∧ a.conn ∈ c.announced ∧
    a.since ≤ c.log.length ∧ (∀ conn, c.conns.lookup a.conn = some conn → conn.agent = key) ∧
    ∀ i t, RefusedAt c.log key i t → t + afterDenial ≤ c.clock
  /-- An ask that came in the time after a refusal is not allowed in that time. -/
  apart : ∀ a ∈ c.waiting, ∀ i t, RefusedAt c.log a.asker i t → i < a.since →
    c.clock < t + afterDenial → ∀ conn, c.conns.lookup a.conn = some conn →
    ¬a.scopes ⊆ c.granted conn
  peace : LeftInPeace c.log

theorem inv_start (serving : Bool) : (start serving).Inv where
  recorded _ _ _ h := absurd h.lt (Nat.not_lt_zero _)
  known id conn h := by simp [start] at h
  asks a ha := absurd ha List.not_mem_nil
  showing a key h := nomatch h
  apart a ha := absurd ha List.not_mem_nil
  peace := .nil

/-- Time passes. -/
theorem Inv.tick {now : ℕ} (h : c.Inv) (hnow : c.clock ≤ now) : Inv { c with clock := now } where
  recorded key i t hr := by
    obtain ⟨at_, hat, hle, hclock⟩ := h.recorded key i t hr
    exact ⟨at_, hat, hle, hclock.trans hnow⟩
  known := h.known
  asks := h.asks
  showing a key hturn := by
    obtain ⟨hasker, hconn, hsince, hagent, hlate⟩ := h.showing a key hturn
    exact ⟨hasker, hconn, hsince, hagent, fun i t hr => (hlate i t hr).trans hnow⟩
  apart a ha i t hr hi ht := h.apart a ha i t hr hi (hnow.trans_lt ht)
  peace := h.peace

/-- More that is quiet happens. -/
theorem refusedAt_of_quiet {log more : List (ℕ × Note)} {key : Proc} {i t : ℕ}
    (hmore : ∀ n ∈ more, n.2.quiet = true) (h : RefusedAt (log ++ more) key i t) :
    RefusedAt log key i t := by
  induction more using List.reverseRecOn with
  | nil => rwa [List.append_nil] at h
  | append_singleton more n ih =>
    rw [← List.append_assoc] at h
    rcases h.of_concat with h | ⟨-, -, a, hn⟩
    · exact ih (fun n hn => hmore n (List.mem_append_left _ hn)) h
    · have hquiet := hmore n (by simp)
      rw [hn] at hquiet
      exact nomatch hquiet

theorem LeftInPeace.append_quiet {log more : List (ℕ × Note)} (h : LeftInPeace log)
    (hmore : ∀ n ∈ more, n.2.quiet = true) : LeftInPeace (log ++ more) := by
  induction more using List.reverseRecOn with
  | nil => rwa [List.append_nil]
  | append_singleton more n ih =>
    rw [← List.append_assoc]
    have hquiet := hmore n (by simp)
    refine (ih fun n hn => hmore n (List.mem_append_left _ hn)).concat ?_ ?_
    · rintro a key i t hn -
      rw [hn] at hquiet
      exact nomatch hquiet
    · rintro a i t ⟨r, hn⟩ -
      rw [hn] at hquiet
      exact nomatch hquiet

/-- **Where nothing is granted and nobody is asked, the invariant stays.** -/
theorem Inv.wanes (h : c.Inv) (hw : Wanes c c') : c'.Inv := by
  obtain ⟨more, hlog, hmore⟩ := hw.log
  have hquiet : ∀ n ∈ more, n.2.quiet = true := fun n hn => (hmore n hn).2
  have hrefused : ∀ {key i t}, RefusedAt c'.log key i t → RefusedAt c.log key i t := fun hr =>
    refusedAt_of_quiet hquiet (hlog ▸ hr)
  have hlength : c.log.length ≤ c'.log.length := by simp [hlog]
  -- of a connection that was announced before, nothing is new
  have hold : ∀ {id conn'}, id ∈ c.announced → c'.conns.lookup id = some conn' →
      ∃ conn, c.conns.lookup id = some conn ∧ conn.agent = conn'.agent ∧
        c'.granted conn' ⊆ c.granted conn := by
    intro id conn' hid h'
    rcases hw.conns id conn' h' with ⟨conn, hconn, hagent, honce⟩ | ⟨hnew, -⟩
    · refine ⟨conn, hconn, hagent, Finset.union_subset_union honce ?_⟩
      rw [hagent]
      exact hw.session conn'.agent
    · exact absurd hid hnew
  refine ⟨fun key i t hr => ?_, fun id conn' h' => ?_, fun a ha => ?_, fun a key hturn => ?_,
    fun a ha i t hr hi ht conn' h' => ?_, ?_⟩
  · rw [hw.denied, hw.clock]
    exact h.recorded key i t (hrefused hr)
  · rcases hw.conns id conn' h' with ⟨conn, hconn, -⟩ | ⟨-, hin⟩
    · exact announced_append hlog (h.known id conn hconn)
    · exact hin
  · rw [hw.waiting] at ha
    obtain ⟨hin, hsince, hagent⟩ := h.asks a ha
    refine ⟨announced_append hlog hin, hsince.trans hlength, fun conn' h' => ?_⟩
    obtain ⟨conn, hconn, heq, -⟩ := hold hin h'
    exact heq.symm.trans (hagent conn hconn)
  · rw [hw.turn] at hturn
    obtain ⟨hasker, hin, hsince, hagent, hlate⟩ := h.showing a key hturn
    refine ⟨hasker, announced_append hlog hin, hsince.trans hlength, fun conn' h' => ?_,
      fun i t hr => ?_⟩
    · obtain ⟨conn, hconn, heq, -⟩ := hold hin h'
      exact heq.symm.trans (hagent conn hconn)
    · rw [hw.clock]
      exact hlate i t (hrefused hr)
  · rw [hw.waiting] at ha
    rw [hw.clock] at ht
    obtain ⟨conn, hconn, -, hsub⟩ := hold (h.asks a ha).1 h'
    exact fun hall => h.apart a ha i t (hrefused hr) hi ht conn hconn (hall.trans hsub)
  · rw [hlog]
    exact LeftInPeace.append_quiet h.peace hquiet

/-- An ask joins the queue. -/
theorem Inv.queue {mid : Control} {a : Ask} (h : c.Inv) (hjoins : Joins c mid a) :
    (mid.queue a).Inv := by
  have hmid := h.wanes hjoins.wanes
  obtain ⟨conn, hconn, hagent, hcovers⟩ := hjoins.conn
  obtain ⟨more, hlog, -⟩ := hjoins.wanes.log
  have hsince : a.since ≤ mid.log.length := by simp [hjoins.since, hlog]
  refine ⟨hmid.recorded, hmid.known, fun b hb => ?_, fun b key hturn => ?_,
    fun b hb i t hr hi ht conn' h' => ?_, hmid.peace⟩
  · rcases List.mem_append.mp hb with hb | hb
    · exact hmid.asks b hb
    · obtain rfl := List.mem_singleton.mp hb
      refine ⟨hmid.known _ conn hconn, hsince, fun conn' h' => ?_⟩
      obtain rfl := Option.some.inj (hconn.symm.trans h')
      exact hagent
  · refine hmid.showing b key ?_
    simp only [Control.queue] at hturn
    cases hold : mid.turn with
    | idle => simp [hold] at hturn
    | taking => simp [hold] at hturn
    | showing b' key' => rwa [hold] at hturn
  · rcases List.mem_append.mp hb with hb | hb
    · exact hmid.apart b hb i t hr hi ht conn' h'
    · obtain rfl := List.mem_singleton.mp hb
      obtain rfl := Option.some.inj (hconn.symm.trans h')
      exact hcovers

/-- **A thing of the main thread's own happens**, which is no refusal. -/
theorem Inv.note {n : Note} (h : c.Inv) (hn : ∀ a key, n ≠ .said a key .deny)
    (hshown : ∀ a key i t, n = .shown a key → RefusedAt c.log key i t → t + afterDenial ≤ c.clock)
    (hanswered : ∀ a i t, (∃ r, n = .answered a (.ok r)) → RefusedAt c.log a.asker i t →
      i < a.since → t + afterDenial ≤ c.clock) : (c.note n).Inv := by
  have hrefused : ∀ {key i t}, RefusedAt (c.note n).log key i t → RefusedAt c.log key i t := by
    intro key i t hr
    rcases hr.of_concat with hr | ⟨-, -, a, heq⟩
    · exact hr
    · exact absurd heq (hn a key)
  have hlength : c.log.length ≤ (c.note n).log.length := by simp [Control.note]
  have hin : ∀ {id}, id ∈ c.announced → id ∈ (c.note n).announced := announced_append rfl
  refine ⟨fun key i t hr => h.recorded key i t (hrefused hr),
    fun id conn hconn => hin (h.known id conn hconn), fun a ha => ?_, fun a key hturn => ?_,
    fun a ha i t hr => h.apart a ha i t (hrefused hr), h.peace.concat hshown hanswered⟩
  · obtain ⟨hconn, hsince, hagent⟩ := h.asks a ha
    exact ⟨hin hconn, hsince.trans hlength, hagent⟩
  · obtain ⟨hasker, hconn, hsince, hagent, hlate⟩ := h.showing a key hturn
    exact ⟨hasker, hin hconn, hsince.trans hlength, hagent, fun i t hr => hlate i t (hrefused hr)⟩

/-- An ask is refused. -/
theorem Inv.note_error {a : Ask} {failure : Failure} (h : c.Inv) :
    (c.note (.answered a (.error failure))).Inv :=
  h.note (fun _ _ => nofun) (fun _ _ _ _ => nofun) fun _ _ _ ⟨_, heq⟩ => nomatch heq

/-- Some of those who wait go on waiting, and no prompt shows. -/
theorem Inv.rest {waiting : List Ask} {turn : Turn} (h : c.Inv) (hw : ∀ a ∈ waiting, a ∈ c.waiting)
    (hturn : ∀ a key, turn ≠ .showing a key) : Inv { c with waiting, turn } :=
  ⟨h.recorded, h.known, fun a ha => h.asks a (hw a ha), fun a key heq => absurd heq (hturn a key),
    fun a ha => h.apart a (hw a ha), h.peace⟩

/-- **The next ask is taken.** -/
theorem Inv.take (h : c.Inv) (hturn : c.turn = .taking) : c.take.Inv := by
  have htaking : ∀ a key, c.turn ≠ .showing a key := by simp [hturn]
  rw [Control.take]
  split
  · exact h.rest (fun a ha => ha) (fun _ _ => nofun)
  · rename_i a rest hwaiting
    have ha : a ∈ c.waiting := hwaiting ▸ List.mem_cons_self
    have hrest : Inv { c with waiting := rest } :=
      h.rest (fun b hb => hwaiting ▸ List.mem_cons_of_mem a hb) htaking
    obtain ⟨hin, hsince, hagent⟩ := h.asks a ha
    dsimp only
    split
    · exact hrest.note_error
    · rename_i conn hconn
      have hkey := hagent conn hconn
      split_ifs with hcovers hrecently hknown
      · refine (hrest.wanes (wanes_allow a)).note (fun _ _ => nofun) (fun _ _ _ _ => nofun) ?_
        -- what covers it now was not granted in the time after a refusal
        rintro b i t ⟨r, heq⟩ hr hi
        obtain ⟨rfl, -⟩ := Note.answered.inj heq
        obtain ⟨more, hlog, hmore⟩ := (wanes_allow (c := { c with waiting := rest }) a).log
        have hr' : RefusedAt c.log a.asker i t :=
          refusedAt_of_quiet (fun n hn => (hmore n hn).2) (hlog ▸ hr)
        rw [(wanes_allow (c := { c with waiting := rest }) a).clock]
        by_contra hlt
        exact h.apart a ha i t hr' hi (not_le.mp hlt) conn hconn (Scopes.covers_iff.mp hcovers)
      · exact hrest.note_error
      · exact hrest.note_error
      · -- a process that was refused lately would be refused
        have hlate : ∀ i t, RefusedAt c.log conn.agent i t → t + afterDenial ≤ c.clock := by
          intro i t hr
          obtain ⟨at_, hat, hle, hclock⟩ := h.recorded _ i t hr
          have hpassed : ¬c.clock - at_ < afterDenial := by
            simpa [recently, hat] using hrecently
          omega
        have hshow : Inv { c with waiting := rest, turn := .showing a conn.agent } := by
          refine ⟨h.recorded, h.known, hrest.asks, fun b key heq => ?_, hrest.apart, h.peace⟩
          obtain ⟨rfl, rfl⟩ := Turn.showing.inj heq
          exact ⟨hkey.symm, hin, hsince, fun conn' h' => (hagent conn' h').trans hkey.symm, hlate⟩
        refine hshow.note (fun _ _ => nofun) ?_ fun _ _ _ ⟨_, heq⟩ => nomatch heq
        rintro b key i t heq hr
        obtain ⟨rfl, rfl⟩ := Note.shown.inj heq
        exact hlate i t hr

/-- **A process is allowed more**, that was not refused lately. -/
theorem Inv.grant (key : Proc) {conns : Table ℕ Conn} {agents : Table Proc Agent} (h : c.Inv)
    (hturn : ∀ a key, c.turn ≠ .showing a key)
    (hlate : ∀ i t, RefusedAt c.log key i t → t + afterDenial ≤ c.clock)
    (hconns : ∀ id conn', conns.lookup id = some conn' →
      ∃ conn, c.conns.lookup id = some conn ∧ conn.agent = conn'.agent ∧
        (conn'.agent ≠ key → { c with conns, agents }.granted conn' ⊆ c.granted conn)) :
    Inv { c with conns, agents } := by
  refine ⟨h.recorded, fun id conn' h' => ?_, fun a ha => ?_, fun a key heq => absurd heq (hturn a key),
    fun a ha i t hr hi ht conn' h' => ?_, h.peace⟩
  · obtain ⟨conn, hconn, -⟩ := hconns id conn' h'
    exact h.known id conn hconn
  · obtain ⟨hin, hsince, hagent⟩ := h.asks a ha
    refine ⟨hin, hsince, fun conn' h' => ?_⟩
    obtain ⟨conn, hconn, heq, -⟩ := hconns _ conn' h'
    exact heq.symm.trans (hagent conn hconn)
  · obtain ⟨conn, hconn, heq, hsub⟩ := hconns _ conn' h'
    have hkey := (h.asks a ha).2.2 conn hconn
    by_cases hother : conn'.agent = key
    · -- the time after its refusals is over
      have hasker : a.asker = key := hkey.symm.trans (heq.trans hother)
      have hlate' := hlate i t (hasker ▸ hr)
      have hclock : c.clock < t + afterDenial := ht
      omega
    · exact fun hall => h.apart a ha i t hr hi ht conn hconn (hall.trans (hsub hother))

/-- **The person refuses a process, and it is heard.** -/
theorem Inv.deny {a : Ask} {key : Proc} (h : c.Inv) (hturn : ∀ a key, c.turn ≠ .showing a key) :
    Inv { c.note (.said a key .deny) with denied := c.denied.insert key c.clock } := by
  have hlength : (c.note (.said a key .deny)).log.length = c.log.length + 1 := by
    simp [Control.note]
  have hin : ∀ {id}, id ∈ c.announced → id ∈ (c.note (.said a key .deny)).announced :=
    announced_append rfl
  refine ⟨fun key' i t hr => ?_, fun id conn hconn => hin (h.known id conn hconn), fun b hb => ?_,
    fun b key' heq => absurd heq (hturn b key'), fun b hb i t hr hi => ?_, ?_⟩
  · change ∃ at_, (c.denied.insert key c.clock).lookup key' = some at_ ∧ t ≤ at_ ∧ at_ ≤ c.clock
    by_cases hkey : key' = key
    · subst hkey
      refine ⟨c.clock, AList.lookup_insert _, ?_, le_rfl⟩
      rcases hr.of_concat with hr | ⟨-, rfl, -⟩
      · obtain ⟨at_, -, hle, hclock⟩ := h.recorded _ i t hr
        exact hle.trans hclock
      · exact le_rfl
    · rw [AList.lookup_insert_ne hkey]
      rcases hr.of_concat with hr | ⟨-, -, b, heq⟩
      · exact h.recorded _ i t hr
      · obtain ⟨-, rfl, -⟩ := Note.said.inj heq
        exact absurd rfl hkey
  · obtain ⟨hconn, hsince, hagent⟩ := h.asks b hb
    exact ⟨hin hconn, hsince.trans (hlength ▸ Nat.le_succ _), hagent⟩
  · -- the asks that wait came before it
    rcases hr.of_concat with hr | ⟨rfl, -⟩
    · exact h.apart b hb i t hr hi
    · exact absurd hi (not_lt.mpr (h.asks b hb).2.1)
  · exact h.peace.concat (fun _ _ _ _ => nofun) fun _ _ _ ⟨_, heq⟩ => nomatch heq

/-- **The person answers**; a refusal finds the connection that asked. -/
theorem Inv.answer {a : Ask} {key : Proc} {said : Answer} (h : c.Inv)
    (hturn : c.turn = .showing a key) (hheard : said = .deny → a.conn ∈ c.conns) :
    (c.answer said).Inv := by
  obtain ⟨hasker, -, -, hagent, hlate⟩ := h.showing a key hturn
  have hquiet : Inv { c with turn := .taking } := h.rest (fun b hb => hb) (fun _ _ => nofun)
  have hsaid : said ≠ .deny → Inv ({ c with turn := .taking }.note (.said a key said)) := fun hne =>
    hquiet.note (fun _ _ heq => hne (Note.said.inj heq).2.2) (fun _ _ _ _ => nofun)
      fun _ _ _ ⟨_, heq⟩ => nomatch heq
  -- whatever happens next, what was refused of the process is long ago
  have hlate' : said ≠ .deny → ∀ i t,
      RefusedAt ({ c with turn := .taking }.note (.said a key said)).log key i t →
      t + afterDenial ≤ c.clock := by
    intro hne i t hr
    rcases hr.of_concat with hr | ⟨-, -, b, heq⟩
    · exact hlate i t hr
    · exact absurd (Note.said.inj heq).2.2 hne
  simp only [Control.answer, hturn]
  split
  · rename_i hnone
    have hne : said ≠ .deny := by
      rintro rfl
      obtain ⟨conn, hconn⟩ := Option.isSome_iff_exists.mp (AList.lookup_isSome.mpr (hheard rfl))
      exact absurd (hnone.symm.trans hconn) (by simp)
    exact (hsaid hne).note_error
  · rename_i conn hconn
    have hconn' : c.conns.lookup a.conn = some conn := hconn
    have hkey := hagent conn hconn'
    -- an ask that is allowed is one whose time has come
    have hallowed : ∀ {d : Control} {r : Granted}, said ≠ .deny → d.Inv →
        d.log = ({ c with turn := .taking }.note (.said a key said)).log → d.clock = c.clock →
        ((d.allow a).note (.answered a (.ok r))).Inv := by
      intro d r hne hd hlog hclock
      refine (hd.wanes (wanes_allow a)).note (fun _ _ => nofun) (fun _ _ _ _ => nofun) ?_
      rintro b i t ⟨r', heq⟩ hr -
      obtain ⟨rfl, -⟩ := Note.answered.inj heq
      obtain ⟨more, hmorelog, hmore⟩ := (wanes_allow (c := d) a).log
      rw [(wanes_allow (c := d) a).clock, hclock]
      have hr' : RefusedAt d.log a.asker i t :=
        refusedAt_of_quiet (fun n hn => (hmore n hn).2) (hmorelog ▸ hr)
      rw [hlog, hasker] at hr'
      exact hlate' hne i t hr'
    cases said with
    | deny => exact (hquiet.deny (fun _ _ => nofun)).note_error
    | once =>
      have hne : Answer.once ≠ .deny := by decide
      refine hallowed hne ((hsaid hne).grant key (fun _ _ => nofun) (hlate' hne) ?_) rfl rfl
      intro id conn' h'
      by_cases hid : id = a.conn
      · subst hid
        rw [AList.lookup_insert] at h'
        obtain rfl := Option.some.inj h'
        exact ⟨conn, hconn', rfl, fun hother => absurd hkey hother⟩
      · rw [AList.lookup_insert_ne hid] at h'
        exact ⟨conn', h', rfl, fun _ => Finset.Subset.refl _⟩
    | session =>
      have hne : Answer.session ≠ .deny := by decide
      dsimp only
      split
      · rename_i agent hknown
        refine hallowed hne ((hsaid hne).grant key (fun _ _ => nofun) (hlate' hne) ?_) rfl rfl
        intro id conn' h'
        refine ⟨conn', h', rfl, fun hother => ?_⟩
        rw [granted, granted, AList.lookup_insert_ne hother]
      · exact hallowed hne (hsaid hne) rfl rfl

/-- **A refusal is heard**: the connection that asked is there when the person refuses. -/
def Heard (c : Control) (e : World × Event) : Prop :=
  match e.2, c.turn with
  | .said .deny, .showing a _ => a.conn ∈ c.conns
  | _, _ => True

instance (c : Control) (e : World × Event) : Decidable (c.Heard e) := by
  unfold Heard
  split <;> infer_instance

/-- One step, in which a refusal is heard. -/
abbrev HeardStep (H : Hooks) : Control → World × Event → Control → Prop :=
  Events.stepOf (fun c e => c.Ready e ∧ c.Heard e) fun c e => some (c.after H e)

/-- **One step.** -/
theorem Inv.after {e : World × Event} (h : c.Inv) (hready : c.Ready e) (hheard : c.Heard e) :
    (c.after H e).Inv := by
  obtain ⟨w, e⟩ := e
  have htick := h.tick hready.1
  cases e with
  | job j =>
    rcases job_cases (c := { c with clock := w.now }) H w hready.2.2 with hw | ⟨mid, a, hjoins, heq⟩
    · exact htick.wanes hw
    · change (Control.job H w { c with clock := w.now } j).Inv
      rw [heq]
      exact htick.queue hjoins
  | take => exact htick.take hready.2
  | said said =>
    obtain ⟨a, key, hturn⟩ := hready.2
    exact htick.answer hturn fun hdeny => by simpa [Heard, hdeny, hturn] using hheard

/-- **A refusal is left in peace**, in every run in which each refusal is heard. -/
theorem leftInPeace {serving : Bool} {events : List (World × Event)}
    (h : Events.Runs (HeardStep H) (start serving) events c) : LeftInPeace c.log :=
  (h.invariant (I := Inv) (fun _ _ _ hinv ⟨⟨hready, hheard⟩, heq⟩ =>
    Option.some.inj heq ▸ hinv.after hready hheard) (inv_start serving)).peace

/-- Nothing is known of addresses. -/
def noHooks : Hooks := ⟨fun _ => none, fun _ => none, fun _ => false, "0"⟩

/-- A page that nothing is known of. -/
def blankPage : Page :=
  ⟨none, none, false, false, false, false, fun _ => .ok (0, 0), fun _ => .ok .null,
    fun _ => .ok .null, .ok .null, fun _ => .ok .null⟩

/-- What a step is met with at a time. -/
def worldAt (now : ℕ) : World := ⟨now, 1, true, fun _ => true, fun _ => blankPage⟩

/-- A program. -/
def program : Peer := ⟨[⟨7, "/usr/local/bin/program", 0, 0⟩], 0, "not signed"⟩

/-- It says hello on a connection. -/
def hello (conn : ℕ) : Event := .job (.request ⟨conn, .null, conn⟩ (.hello "A program" {.read}))

/-- The person refuses, and the program asks again. -/
def heard : List (World × Event) :=
  [(worldAt 0, .job (.connected 1 program)), (worldAt 0, hello 1), (worldAt 0, .take),
    (worldAt 2000, .said .deny), (worldAt 2000, .take), (worldAt 2001, hello 1), (worldAt 2001, .take)]

/-- The last ask was refused without a prompt. -/
def refusedAtOnce (c : Control) : Bool :=
  match c.log.getLast? with
  | some (_, .answered _ (.error failure)) => failure.code = "denied" && c.log.length = 5
  | _ => false

theorem leftInPeace_heard : ∃ c, Events.Runs (HeardStep noHooks) (start true) heard c ∧
    c.refusedAtOnce = true ∧ LeftInPeace c.log := by
  obtain ⟨c, hruns, hrefused⟩ : ∃ c, Events.Runs (HeardStep noHooks) (start true) heard c ∧
      c.refusedAtOnce = true := Events.exists_runs_of_follow (by decide +kernel)
  exact ⟨c, hruns, hrefused, leftInPeace hruns⟩

/-! ### A refusal that is not heard -/

/-- The program closes its connection while the prompt shows; the person refuses; and it
connects again, and asks. -/
def unheard : List (World × Event) :=
  [(worldAt 0, .job (.connected 1 program)), (worldAt 0, hello 1), (worldAt 0, .take),
    (worldAt 1000, .job (.closed 1)), (worldAt 2000, .said .deny), (worldAt 2000, .take),
    (worldAt 2001, .job (.connected 2 program)), (worldAt 2001, hello 2), (worldAt 2001, .take)]

/-- A prompt for a process shows so soon after the person refused it. -/
def askedAgain (i j : ℕ) (c : Control) : Bool :=
  match c.log[i]?, c.log[j]? with
  | some (t, .said _ key .deny), some (t', .shown _ key') => key' = key && t' < t + afterDenial
  | _, _ => false

theorem not_of_askedAgain {i j : ℕ} (hij : i < j) (h : c.askedAgain i j = true) :
    ¬LeftInPeace c.log := by
  intro hpeace
  simp only [askedAgain] at h
  split at h
  · rename_i t a key t' a' key' hi hj
    obtain ⟨hkey, ht⟩ : key' = key ∧ t' < t + afterDenial := by simpa using h
    exact (hpeace key i t ⟨a, hi⟩ j t' _ hij hj ht).1 a' key' rfl hkey
  · exact nomatch h

theorem not_leftInPeace : ¬∀ H serving events c, Runs H (start serving) events c →
    LeftInPeace c.log := by
  intro h
  obtain ⟨c, hruns, hasked⟩ : ∃ c, Runs noHooks (start true) unheard c ∧
      c.askedAgain 2 5 = true := Events.exists_runs_of_follow (by decide +kernel)
  exact not_of_askedAgain (by decide) hasked (h noHooks true unheard c hruns)

end Control

end Syndeo.App
