import Syndeo.App.Refusal
import Syndeo.App.Serving

/-!
# Every request is answered once

What a request is answered with is sent on a channel of the request's own, and a thread waits on
it. A request that is no ask is answered at once. An ask may be, or it waits until the person has
been asked, and while the prompt shows other requests come and are answered, connections go and
what a process was allowed is taken back. Through all of it nothing is lost and nothing is
answered twice: the requests that came are those that were answered and those that wait
(`Syndeo.App.Control.allAnswered_of_runs`). And those that wait will not wait longer than the person
does: whatever the person answers, the loop ends, and then none waits.
-/

namespace Syndeo.App

open Tables Events

/-- The request that something that happened is the answer to. -/
def Note.reply? (n : Note) : Option Reply := n.answer.map Prod.fst

/-- The requests that were answered. -/
def answeredIn (log : List (ℕ × Note)) : List Reply := log.filterMap fun n => n.2.reply?

/-- The request of an event. -/
def Event.reply? : Event → Option Reply
  | .job (.request r _) => some r
  | _ => none

/-- The requests that came. -/
def asked (events : List (World × Event)) : List Reply := events.filterMap fun e => e.2.reply?

/-- The ask of a prompt. -/
def Turn.ask? : Turn → Option Ask
  | .showing a _ => some a
  | _ => none

namespace Control

variable {c c' : Control} {H : Hooks}

/-- The requests that wait: of the prompt that shows, and of those after it. -/
def owed (c : Control) : List Reply := (c.turn.ask?.toList ++ c.waiting).map Ask.reply

/-- The requests that there were, answered or not. -/
def accounted (c : Control) : List Reply := answeredIn c.log ++ c.owed

/-- **No request is answered, and none waits, that was not before.** -/
structure Silent (c c' : Control) : Prop where
  turn : c'.turn = c.turn
  waiting : c'.waiting = c.waiting
  answered : answeredIn c'.log = answeredIn c.log

theorem Silent.refl (c : Control) : Silent c c := ⟨rfl, rfl, rfl⟩

theorem Silent.trans {c₁ c₂ : Control} (h : Silent c c₁) (h' : Silent c₁ c₂) : Silent c c₂ :=
  ⟨h'.turn.trans h.turn, h'.waiting.trans h.waiting, h'.answered.trans h.answered⟩

theorem Silent.accounted (h : Silent c c') : c'.accounted = c.accounted := by
  rw [Control.accounted, Control.accounted, owed, owed, h.turn, h.waiting, h.answered]

theorem answeredIn_concat (log : List (ℕ × Note)) (n : ℕ × Note) :
    answeredIn (log ++ [n]) = answeredIn log ++ n.2.reply?.toList := by
  rw [answeredIn, List.filterMap_append]
  cases h : n.2.reply? <;> simp [answeredIn, h]

theorem silent_note {n : Note} (hn : n.reply? = none) : Silent c (c.note n) :=
  ⟨rfl, rfl, by simp [Control.note, answeredIn_concat, hn]⟩

/-- An answer is noted. -/
theorem answered_note {n : Note} {r : Reply} (hn : n.reply? = some r) :
    answeredIn (c.note n).log = answeredIn c.log ++ [r] := by
  rw [Control.note, answeredIn_concat, hn]
  rfl

/-! ### What answers nothing -/

theorem silent_allow (a : Ask) : Silent c (c.allow a) := by
  rw [allow]
  split
  · split_ifs <;> exact ⟨rfl, rfl, rfl⟩
  · exact .refl c

theorem Silent.allow (h : Silent c c') (a : Ask) : Silent c (c'.allow a) := h.trans (silent_allow a)

theorem silent_forgetIfDone (key : Proc) : Silent c (c.forgetIfDone key) := by
  rw [forgetIfDone]
  split_ifs
  · exact .refl c
  · exact ⟨rfl, rfl, rfl⟩

theorem silent_closed (conn : ℕ) : Silent c (c.closed conn) := by
  rw [closed]
  split
  · exact .refl c
  · have hgone : Silent c { c with conns := c.conns.erase conn } := ⟨rfl, rfl, rfl⟩
    exact hgone.trans (silent_forgetIfDone _)

theorem silent_revoke (key : Proc) : Silent c (c.revoke key) := by
  have hgone : Silent c { { c with
      conns := retain (fun _ conn => decide (conn.agent ≠ key)) c.conns }.releaseTabs key with
      agents := c.agents.erase key } := ⟨rfl, rfl, rfl⟩
  exact hgone.trans (silent_note rfl)

theorem silent_stopAgent (number : ℕ) : Silent c (c.stopAgent number) := by
  rw [stopAgent]
  split
  · exact silent_revoke _
  · exact .refl c

theorem silent_stopServing : Silent c c.stopServing := by
  have hrevoked : ∀ (keys : List Proc) (d : Control), Silent c d →
      Silent c (keys.foldl (fun d key => d.revoke key) d) := by
    intro keys
    induction keys with
    | nil => exact fun d hd => hd
    | cons key keys ih => exact fun d hd => ih (d.revoke key) (hd.trans (silent_revoke key))
  have hall := hrevoked c.agents.keys { c with serving := false } ⟨rfl, rfl, rfl⟩
  exact ⟨hall.turn, hall.waiting, hall.answered⟩

theorem silent_connected (conn : ℕ) (peer : Peer) : Silent c (c.connected conn peer) := by
  rw [connected]
  split
  · exact .refl c
  · rename_i key _
    split_ifs
    · exact .refl c
    · have hadded : ∀ d, Silent c d → Silent c
          ({ d with conns := d.conns.insert conn ⟨key, false, ∅⟩ }.note (.connected conn key)) := by
        intro d hd
        have hinserted : Silent c { d with conns := d.conns.insert conn ⟨key, false, ∅⟩ } :=
          ⟨hd.turn, hd.waiting, hd.answered⟩
        exact hinserted.trans (silent_note rfl)
      cases c.agents.lookup key with
      | some agent => exact hadded _ ⟨rfl, rfl, rfl⟩
      | none => exact hadded _ ⟨rfl, rfl, rfl⟩

theorem silent_openedBeside (w : World) (parent window : ℕ) :
    Silent c (c.openedBeside w parent window) := by
  rw [openedBeside]
  split
  · exact .refl c
  · split_ifs <;> exact ⟨rfl, rfl, rfl⟩

theorem silent_command (H : Hooks) (w : World) (key : Proc) (granted : Scopes) (cmd : Command) :
    Silent c (c.command H w key granted cmd).2 := by
  cases cmd with
  | «open» url _ _ =>
    change Silent c (c.openTab H w key url).2
    rw [openTab]
    split
    · exact .refl c
    · split_ifs <;> exact ⟨rfl, rfl, rfl⟩
  | _ => exact .refl c

/-! ### Requests -/

/-- A request came, and is answered or waits. -/
def Owes (c c' : Control) (r : Reply) : Prop :=
  c'.accounted.Perm (c.accounted ++ [r]) ∧ (c.turn = .idle ∧ c.waiting = [] → c'.turn = .idle →
    c'.waiting = [])

/-- It is answered at once. -/
theorem owes_answered {d : Control} {n : Note} {r : Reply} (h : Silent c d) (hn : n.reply? = some r) :
    Owes c (d.note n) r := by
  refine ⟨?_, fun hidle _ => h.waiting.trans hidle.2⟩
  have howed : (d.note n).owed = c.owed := by
    rw [owed, owed]
    exact congrArg _ (by rw [show (d.note n).turn = c.turn from h.turn,
      show (d.note n).waiting = c.waiting from h.waiting])
  rw [Control.accounted, Control.accounted, answered_note hn, howed, h.answered, List.append_assoc,
    List.append_assoc]
  exact List.Perm.append_left _ List.perm_append_comm

/-- It waits. -/
theorem owes_queue {d : Control} {a : Ask} (h : Silent c d) : Owes c (d.queue a) a.reply := by
  have hask : (d.queue a).turn.ask? = c.turn.ask? := by
    rw [← h.turn]
    rcases turn_queue a d with ⟨hidle, htaking⟩ | ⟨-, hsame⟩
    · rw [hidle, htaking]
      rfl
    · rw [hsame]
  refine ⟨?_, fun _ hturn => ?_⟩
  · rw [Control.accounted, Control.accounted, owed, owed, hask,
      show (d.queue a).waiting = c.waiting ++ [a] from congrArg (· ++ [a]) h.waiting,
      show answeredIn (d.queue a).log = answeredIn c.log from h.answered]
    simp
  · rcases turn_queue a d with ⟨-, htaking⟩ | ⟨hne, hsame⟩
    · rw [htaking] at hturn
      cases hturn
    · exact absurd (hsame ▸ hturn) hne

theorem owes_ask {d : Control} {a : Ask} (h : Silent c d) : Owes c (d.ask a) a.reply := by
  rw [ask]
  split
  · split_ifs
    · exact owes_answered (h.trans (silent_allow a)) rfl
    · exact owes_queue h
  · exact owes_queue h

/-- **A request is answered, or it waits.** -/
theorem owes_request (H : Hooks) (w : World) (r : Reply) (cmd : Command) :
    Owes c (c.request H w r cmd) r := by
  have hreply : ∀ d result, Silent c d → Owes c (d.reply r result) r := fun d result h =>
    owes_answered h rfl
  cases hconn : c.conns.lookup r.conn with
  | none =>
    simp only [request, hconn]
    exact hreply _ _ (.refl c)
  | some conn =>
    cases cmd with
    | hello client scopes =>
      simp only [request, hconn]
      split_ifs
      · exact hreply _ _ (.refl c)
      · split
        · exact owes_ask ⟨rfl, rfl, rfl⟩
        · exact owes_ask (.refl c)
    | request scope =>
      simp only [request, hconn]
      split_ifs
      · exact hreply _ _ (.refl c)
      · exact owes_ask (.refl c)
    | _ =>
      simp only [request, hconn]
      split_ifs
      · exact hreply _ _ (.refl c)
      · split
        · exact hreply _ _ (.refl c)
        · exact hreply _ _ ((silent_note rfl).trans (silent_command H w _ _ _))

/-! ### Steps -/

/-- A step took its request, if it has one, and at no ask none waits. -/
structure Accounts (c c' : Control) (request : Option Reply) : Prop where
  perm : c'.accounted.Perm (c.accounted ++ request.toList)
  idle : (c.turn = .idle → c.waiting = []) → c'.turn = .idle → c'.waiting = []

theorem Silent.accounts (h : Silent c c') : Accounts c c' none where
  perm := by
    rw [h.accounted]
    simp
  idle hidle hturn := h.waiting.trans (hidle (h.turn ▸ hturn))

theorem Owes.accounts {r : Reply} (h : Owes c c' r) (hidle : c'.turn = .idle → c.turn = .idle) :
    Accounts c c' (some r) where
  perm := h.1
  idle hnone hturn := h.2 ⟨hidle hturn, hnone (hidle hturn)⟩ hturn

/-- A request begins no idleness. -/
theorem turn_request (H : Hooks) (w : World) (r : Reply) (cmd : Command)
    (h : (c.request H w r cmd).turn = .idle) : c.turn = .idle := by
  rcases request_cases (c := c) H w r cmd with hw | ⟨mid, a, hjoins, heq⟩
  · exact hw.turn ▸ h
  · rw [heq] at h
    rcases turn_queue a mid with ⟨-, htaking⟩ | ⟨hne, hsame⟩
    · rw [htaking] at h
      cases h
    · exact absurd (hsame ▸ h) hne

theorem accounts_job (H : Hooks) (w : World) (j : Job) :
    Accounts c (c.job H w j) (Event.reply? (.job j)) := by
  cases j with
  | connected conn peer => exact (silent_connected conn peer).accounts
  | request r cmd => exact (owes_request H w r cmd).accounts (turn_request H w r cmd)
  | closed conn => exact (silent_closed conn).accounts
  | stopAgent number => exact (silent_stopAgent number).accounts
  | «switch» on =>
    rw [job]
    split_ifs
    · exact Silent.accounts ⟨rfl, rfl, rfl⟩
    · exact silent_stopServing.accounts
  | windowClosed window => exact Silent.accounts ⟨rfl, rfl, rfl⟩
  | openedBeside parent window => exact (silent_openedBeside w parent window).accounts

/-- Where none waits, the loop ends. -/
theorem take_nil (hwaiting : c.waiting = []) : c.take = { c with turn := .idle } := by
  rw [take]
  split
  · rfl
  · rename_i hcons
    exact absurd (hwaiting.symm.trans hcons) (by simp)

/-- **What taking the next ask comes to**: it is answered, or its prompt shows. -/
theorem take_cases {a : Ask} {rest : List Ask} (hturn : c.turn = .taking)
    (hwaiting : c.waiting = a :: rest) : c.take.waiting = rest ∧ c.take.clock = c.clock ∧
      (c.take.turn = .taking ∧ answeredIn c.take.log = answeredIn c.log ++ [a.reply] ∨
        (∃ key, c.take.turn = .showing a key) ∧ answeredIn c.take.log = answeredIn c.log) := by
  have hanswered : ∀ (d : Control) (n : Note), Silent { c with waiting := rest } d → d.clock = c.clock →
      n.reply? = some a.reply → (d.note n).waiting = rest ∧ (d.note n).clock = c.clock ∧
        ((d.note n).turn = .taking ∧ answeredIn (d.note n).log = answeredIn c.log ++ [a.reply] ∨
          (∃ key, (d.note n).turn = .showing a key) ∧
            answeredIn (d.note n).log = answeredIn c.log) := by
    intro d n hd hclock hn
    exact ⟨hd.waiting, hclock, .inl ⟨hd.turn.trans hturn, by rw [answered_note hn, hd.answered]⟩⟩
  rw [take, hwaiting]
  dsimp only
  split
  · exact hanswered _ _ (.refl _) rfl rfl
  · split_ifs
    · exact hanswered _ _ (silent_allow a) (wanes_allow a).clock rfl
    · exact hanswered _ _ (.refl _) rfl rfl
    · exact hanswered _ _ (.refl _) rfl rfl
    · exact ⟨rfl, rfl, .inr ⟨⟨_, rfl⟩, by rw [Control.note, answeredIn_concat]; exact List.append_nil _⟩⟩

/-- **What the person's answer comes to**: the ask of the prompt is answered. -/
theorem answer_cases {a : Ask} {key : Proc} (hturn : c.turn = .showing a key) (said : Answer) :
    (c.answer said).waiting = c.waiting ∧ (c.answer said).clock = c.clock ∧
      (c.answer said).turn = .taking ∧
      answeredIn (c.answer said).log = answeredIn c.log ++ [a.reply] := by
  have hsaid : answeredIn (Control.note (.said a key said) { c with turn := .taking }).log =
      answeredIn c.log := by
    rw [Control.note, answeredIn_concat]
    exact List.append_nil _
  have hanswered : ∀ (d : Control) (n : Note),
      Silent (Control.note (.said a key said) { c with turn := .taking }) d → d.clock = c.clock →
      n.reply? = some a.reply → (d.note n).waiting = c.waiting ∧ (d.note n).clock = c.clock ∧
        (d.note n).turn = .taking ∧ answeredIn (d.note n).log = answeredIn c.log ++ [a.reply] :=
    fun d n hd hclock hn => ⟨hd.waiting, hclock, hd.turn, by rw [answered_note hn, hd.answered, hsaid]⟩
  simp only [answer, hturn]
  split
  · exact hanswered _ _ (.refl _) rfl rfl
  · cases said with
    | deny => exact hanswered _ _ ⟨rfl, rfl, rfl⟩ rfl rfl
    | once =>
      refine hanswered _ _ (Silent.allow ?_ a) (wanes_allow a).clock rfl
      exact ⟨rfl, rfl, rfl⟩
    | session =>
      dsimp only
      split
      · refine hanswered _ _ (Silent.allow ?_ a) (wanes_allow a).clock rfl
        exact ⟨rfl, rfl, rfl⟩
      · exact hanswered _ _ (silent_allow a) (wanes_allow a).clock rfl

theorem accounts_take (hturn : c.turn = .taking) : Accounts c c.take none := by
  cases hwaiting : c.waiting with
  | nil =>
    rw [take_nil hwaiting]
    exact ⟨by simp [Control.accounted, owed, hturn, Turn.ask?], fun _ _ => hwaiting⟩
  | cons a rest =>
    obtain ⟨hrest, -, ⟨hturn', hlog⟩ | ⟨⟨key, hturn'⟩, hlog⟩⟩ := take_cases hturn hwaiting
    · refine ⟨?_, fun _ hidle => absurd (hturn'.symm.trans hidle) (by simp)⟩
      simp [Control.accounted, owed, hturn, hturn', hlog, hrest, hwaiting, Turn.ask?]
    · refine ⟨?_, fun _ hidle => absurd (hturn'.symm.trans hidle) (by simp)⟩
      simp [Control.accounted, owed, hturn, hturn', hlog, hrest, hwaiting, Turn.ask?]

theorem accounts_answer {a : Ask} {key : Proc} (hturn : c.turn = .showing a key) (said : Answer) :
    Accounts c (c.answer said) none := by
  obtain ⟨hwaiting, -, hturn', hlog⟩ := answer_cases hturn said
  refine ⟨?_, fun _ hidle => absurd (hturn'.symm.trans hidle) (by simp)⟩
  simp [Control.accounted, owed, hturn, hturn', hlog, hwaiting, Turn.ask?]

/-- **One step.** -/
theorem accounts_after {e : World × Event} (hready : c.Ready e) :
    Accounts c (c.after H e) e.2.reply? := by
  obtain ⟨w, e⟩ := e
  have htick : Silent c { c with clock := w.now } := ⟨rfl, rfl, rfl⟩
  have hstep : ∀ {d : Control} {request : Option Reply},
      Accounts { c with clock := w.now } d request → Accounts c d request := fun h =>
    ⟨htick.accounted ▸ h.perm, h.idle⟩
  cases e with
  | job j => exact hstep (accounts_job H w j)
  | take => exact hstep (accounts_take hready.2)
  | said said =>
    obtain ⟨a, key, hturn⟩ := hready.2
    have hturn' : (Control.turn { c with clock := w.now }) = .showing a key := hturn
    exact hstep (accounts_answer hturn' said)

/-! ### Runs -/

/-- **Nothing is lost, and nothing is answered twice.** -/
theorem accounted_of_runs {events : List (World × Event)} (h : Runs H c events c') :
    c'.accounted.Perm (c.accounted ++ asked events) := by
  induction h with
  | nil s => simp [asked]
  | cons hfirst _ ih =>
    rename_i e rest _
    obtain ⟨hready, heq⟩ := hfirst
    obtain rfl := Option.some.inj heq
    refine ih.trans (((accounts_after hready).perm.append_right _).trans ?_)
    rw [List.append_assoc]
    refine List.Perm.append_left _ ?_
    cases hreply : e.2.reply? <;> simp [asked, hreply]

theorem idle_of_runs {events : List (World × Event)} (h : Runs H c events c')
    (hidle : c.turn = .idle → c.waiting = []) : c'.turn = .idle → c'.waiting = [] :=
  h.invariant (I := fun c => c.turn = .idle → c.waiting = [])
    (fun _ _ _ hidle ⟨hready, heq⟩ => Option.some.inj heq ▸ (accounts_after hready).idle hidle) hidle

/-- The loop goes on, or the person answers. -/
def GoesOn (said : Answer) (e : World × Event) : Prop := e.2 = .take ∨ e.2 = .said said

/-- **The loop ends**, whatever the person answers. -/
theorem exists_runs_taking (H : Hooks) (w : World) (said : Answer) (waiting : List Ask) (c : Control)
    (hturn : c.turn = .taking) (hwaiting : c.waiting = waiting) :
    ∃ more c', Runs H c more c' ∧ (∀ e ∈ more, GoesOn said e) ∧ c'.turn = .idle := by
  induction waiting generalizing c with
  | nil =>
    let e : World × Event := ({ w with now := c.clock }, .take)
    refine ⟨[e], c.after H e, .cons ⟨⟨le_rfl, hturn⟩, rfl⟩ (.nil _),
      List.forall_mem_singleton.mpr (.inl rfl), ?_⟩
    exact congrArg Control.turn (take_nil hwaiting)
  | cons a rest ih =>
    let e : World × Event := ({ w with now := c.clock }, .take)
    have hstep : Step H c e (c.after H e) := ⟨⟨le_rfl, hturn⟩, rfl⟩
    obtain ⟨hrest, hclock, hcases⟩ := take_cases hturn hwaiting
    rcases hcases with ⟨hturn', -⟩ | ⟨⟨key, hturn'⟩, -⟩
    · obtain ⟨more, c', hruns, hmore, hidle⟩ := ih (c.after H e) hturn' hrest
      exact ⟨e :: more, c', .cons hstep hruns, List.forall_mem_cons.mpr ⟨.inl rfl, hmore⟩, hidle⟩
    · -- the prompt shows, and the person answers
      let e' : World × Event := ({ w with now := c.clock }, .said said)
      have hstep' : Step H (c.after H e) e' ((c.after H e).after H e') :=
        ⟨⟨hclock.le, a, key, hturn'⟩, rfl⟩
      have hturn'' : (Control.turn { c.after H e with clock := c.clock }) = .showing a key := hturn'
      obtain ⟨hrest', -, htaking, -⟩ := answer_cases hturn'' said
      obtain ⟨more, c', hruns, hmore, hidle⟩ :=
        ih ((c.after H e).after H e') htaking (hrest'.trans hrest)
      exact ⟨e :: e' :: more, c', .cons hstep (.cons hstep' hruns),
        List.forall_mem_cons.mpr ⟨.inl rfl, List.forall_mem_cons.mpr ⟨.inr rfl, hmore⟩⟩, hidle⟩

/-- The same, from any state. -/
theorem exists_runs_idle (H : Hooks) (w : World) (said : Answer) (c : Control) :
    ∃ more c', Runs H c more c' ∧ (∀ e ∈ more, GoesOn said e) ∧ c'.turn = .idle := by
  cases hturn : c.turn with
  | idle => exact ⟨[], c, .nil c, by simp, hturn⟩
  | taking => exact exists_runs_taking H w said c.waiting c hturn rfl
  | showing a key =>
    let e : World × Event := ({ w with now := c.clock }, .said said)
    have hstep : Step H c e (c.after H e) := ⟨⟨le_rfl, a, key, hturn⟩, rfl⟩
    obtain ⟨-, -, htaking, -⟩ := answer_cases hturn said
    obtain ⟨more, c', hruns, hmore, hidle⟩ :=
      exists_runs_taking H w said _ (c.after H e) htaking rfl
    exact ⟨e :: more, c', .cons hstep hruns, List.forall_mem_cons.mpr ⟨.inr rfl, hmore⟩, hidle⟩

theorem owed_of_idle (hturn : c.turn = .idle) (hwaiting : c.waiting = []) : c.owed = [] := by
  simp [owed, hturn, hwaiting, Turn.ask?]

theorem asked_of_goesOn {said : Answer} {more : List (World × Event)}
    (h : ∀ e ∈ more, GoesOn said e) : asked more = [] := by
  refine List.filterMap_eq_nil_iff.mpr fun e he => ?_
  rcases h e he with h | h <;> rw [h] <;> rfl

end Control

end Syndeo.App
