import Syndeo.App.Browser
import Mathlib.Logic.Relation

/-!
# What a turn of a window can do

Whatever a window is told, what it does is a chain of a few moves
(`Syndeo.App.Browser.Move`): it goes to an address, or shows that the page is there, or
a page of Syndeo's own; someone types or leaves; a host's certificate is judged; hosts are sent
directly and the page is loaded again; and the rest concerns neither the address field nor the
hosts. `Syndeo.App.Browser.Turn.chain_callback` says so once, and
`Syndeo.App.Browser.Rule.holds_of_runs` is the rule that comes of it: what each move keeps, of
the window that moves and of the others, every run keeps of every window.
-/

namespace Syndeo.App.Browser

open Relation

variable {L : Library} {m : Met} {t t' : Turn}

/-- A host of a refusal, as the window has it now. -/
def Turn.Signed (L : Library) (t : Turn) (host : String) : Prop :=
  host ∈ t.c.macosPinned ∨ host ∈ t.c.vouched ∧ (host ∈ t.app.heard ∨ ∃ address,
    t.log.getLast? = some (t.window, .failed "NSURLErrorDomain" secureConnectionFailed address) ∧
      L.hostIn address = some host)

/-- It concerns neither the address field nor the hosts. -/
def Note.quiet : Note → Bool
  | .failed _ _ _ | .loads _ | .reloads | .decided _ _ => true
  | _ => false

/-- It is about the hosts, and which pages are loaded for them. -/
def Note.ofHosts : Note → Bool
  | .vouched _ | .pinned _ | .said _ | .started _ | .sent _ | .again _ => true
  | _ => false

/-- What a turn has of the address field and of the hosts. -/
def Turn.essence (t : Turn) :=
  (t.app, t.window, t.log, (t.c.ui, t.c.failed, t.c.shown, t.c.typing, t.c.field, t.c.route),
    (t.c.vouched, t.c.macosPinned, t.c.retried))

/-- **The moves of a turn.** -/
inductive Move (L : Library) (m : Met) : Turn → Turn → Prop
  | quiet {t t' : Turn} (h : t'.essence = t.essence) : Move L m t t'
  | note (t : Turn) (n : Note) (hn : n.quiet = true) : Move L m t (t.note n)
  | vouch (t : Turn) (host : String) : Move L m t
      ((t.set fun c => { c with vouched := remember c.vouched host }).note (.vouched host))
  | pin (t : Turn) (host : String) : Move L m t
      ((t.set fun c => { c with macosPinned := remember c.macosPinned host }).note
        (.pinned host))
  | hear (t : Turn) : Move L m t ({ t with app := t.app.refused m.said }.note (.said m.said))
  | start (t : Turn) : Move L m t (t.didStart m)
  | change (t : Turn) (text : String) : Move L m t (t.didChange text)
  | leave (t : Turn) (byReturn : Bool) : Move L m t (t.didEndEditing byReturn)
  | go (t : Turn) (typed : String) : Move L m t (t.go L m typed)
  | page (t : Turn) (address why : String) : Move L m t (t.showPage address why)
  | startPage (t : Turn) : Move L m t t.showStartPage
  | shows (t : Turn) (address : String) (h : ∀ a, t.c.failed = some a → a = address) :
    Move L m t (t.setShown address)
  | arrive (t : Turn) : Move L m t (t.refreshAddress L m)
  | retry (t : Turn) (app : Application) (hosts : List String) (address : String)
      (hsent : t.app.sendDirect hosts m.excludes = (true, app))
      (hsigned : ∀ host ∈ hosts, t.Signed L host) (hnew : t.c.retried ≠ some address) :
    Move L m t (t.retry L app hosts address)

/-- Moves one after the other. -/
abbrev Chain (L : Library) (m : Met) : Turn → Turn → Prop := ReflTransGen (Move L m)

theorem refusal_eq_preloaded {domain : String} {code : ℤ} {vouched pinned : Bool}
    (h : refusal domain code vouched pinned = some .preloaded) :
    domain = "NSURLErrorDomain" ∧ code = secureConnectionFailed ∧ vouched = true := by
  rw [refusal] at h
  split_ifs at h with hdomain hcode hcode
  · exact ⟨not_not.mp hdomain, hcode⟩
  all_goals cases h

theorem refusal_eq_pinned {domain : String} {code : ℤ} {vouched pinned : Bool}
    (h : refusal domain code vouched pinned = some .pinned) : pinned = true := by
  rw [refusal] at h
  split_ifs at h with hdomain hcode hcode
  · cases h
  · exact hcode.2

theorem afterFailure_eq_retryDirect {r : Refusal} {o : Option Refusal} {retried : Bool}
    (h : afterFailure o retried = .retryDirect r) : o = some r ∧ retried = false := by
  cases o with
  | none => cases h
  | some r' =>
    cases retried with
    | true => cases h
    | false => exact ⟨congrArg some (AfterFailure.retryDirect.inj h), rfl⟩

namespace Turn

theorem chain_quiet (h : t'.essence = t.essence) : Chain L m t t' := .single (.quiet h)

theorem chain_load (address : String) : Chain L m t (t.load address) := by
  rw [load]
  split_ifs
  · exact .single (.note t _ rfl)
  · exact .refl

theorem chain_sendRefusedPartsDirect (again : Bool) :
    Chain L m t (t.sendRefusedPartsDirect L m again) := by
  rw [sendRefusedPartsDirect]
  dsimp only
  have hheard : Chain L m t ({ t with app := t.app.refused m.said }.note (.said m.said)) :=
    .single (.hear t)
  split_ifs with haddress hhosts
  · exact .refl
  · exact hheard
  · exact hheard.tail (.quiet rfl)
  · split
    · rename_i app hsent
      refine hheard.tail (.retry _ app _ _ hsent (fun host hhost => ?_) fun heq => ?_)
      · obtain ⟨⟨hvouched, hheard⟩ | hpinned, -⟩ := mem_toSendDirect.mp hhost
        · exact .inr ⟨hvouched, .inl hheard⟩
        · exact .inl hpinned
      · exact haddress (.inr heq)
    · exact hheard

/-- **The page is retried**, just after its failure was noted. -/
theorem chain_retryDirect {error : NSError} (h : t.retryDirect L m error = some t')
    (hlast : t.log.getLast? =
      some (t.window, .failed error.domain error.code (error.failing.getD ""))) :
    Chain L m t t' := by
  obtain ⟨host, hhost, h⟩ := Option.bind_eq_some_iff.mp h
  split at h
  · cases h
  · rename_i r hafter
    obtain ⟨hrefusal, hretried⟩ := afterFailure_eq_retryDirect hafter
    obtain rfl := Option.some.inj h
    have hsigned : t.Signed L host := by
      cases r with
      | preloaded =>
        obtain ⟨hdomain, hcode, hvouched⟩ := refusal_eq_preloaded hrefusal
        refine .inr ⟨of_decide_eq_true hvouched, .inr ⟨_, ?_, hhost⟩⟩
        rw [hlast, hdomain, hcode]
      | pinned => exact .inl (of_decide_eq_true (refusal_eq_pinned hrefusal))
    rw [retryFor]
    split
    · rename_i app hsent
      refine .single (.retry t app _ _ hsent (fun host' hhost' => ?_) (of_decide_eq_false hretried))
      exact List.mem_singleton.mp hhost' ▸ hsigned
    · exact .single (.page t _ _)

theorem chain_didFailProvisional (error : NSError) :
    Chain L m t (t.didFailProvisional L m error) := by
  let failed : Note := .failed error.domain error.code (error.failing.getD "")
  have hstopped : Chain L m t t.stop := chain_quiet rfl
  have hnoted : Chain L m t (t.stop.note failed) := hstopped.tail (.note _ _ rfl)
  have hlast : (t.stop.note failed).log.getLast? = some (t.window, failed) := by simp [stop]
  rw [didFailProvisional]
  split_ifs with hrefused hcancelled
  · exact hnoted.tail (.quiet rfl)
  · split
    · rename_i t' hretry
      exact hnoted.trans (chain_retryDirect hretry hlast)
    · exact hnoted
  · split
    · rename_i t' hretry
      exact hnoted.trans (chain_retryDirect hretry hlast)
    · exact hnoted.tail (.page _ _ _)

theorem chain_openBeside {scheme target : String} (h : t.openBeside scheme target = some t') :
    Chain L m t t' := by
  rw [openBeside] at h
  split_ifs at h
  exact Option.some.inj h ▸ chain_quiet rfl

theorem chain_decidePolicy (mainFrame : Bool) (scheme target : String) (click : Click) :
    Chain L m t (t.decidePolicy mainFrame scheme target click) := by
  rw [decidePolicy]
  dsimp only
  split
  · rename_i t' hbeside
    split_ifs at hbeside
    have hopened : Chain L m t t' := chain_openBeside hbeside
    have hmarked : Chain L m t (t'.set fun c => { c with refused := mainFrame }) :=
      hopened.tail (.quiet rfl)
    exact hmarked.tail (.note _ _ rfl)
  · have hdecided : ∀ refused allowed, Chain L m t
        ((t.set fun c => { c with refused := refused }).note (.decided target allowed)) := by
      intro refused allowed
      have hmarked : Chain L m t (t.set fun c => { c with refused := refused }) := chain_quiet rfl
      exact hmarked.tail (.note _ _ rfl)
    by_cases hzone : (hasZone target.toList && mainFrame) = true
    · rw [if_pos hzone]
      exact (hdecided _ _).tail (.page _ _ _)
    · rw [if_neg hzone]
      exact hdecided _ _

theorem chain_didReceiveChallenge (host : Option String) (judged : Judged) :
    Chain L m t (t.didReceiveChallenge host judged) := by
  cases host with
  | none =>
    rw [didReceiveChallenge]
    split_ifs <;> exact .refl
  | some host =>
    rw [didReceiveChallenge]
    dsimp only [Option.map_some]
    generalize (if t.c.web = true then judged else ⟨2, false⟩) = judged
    split_ifs
    · exact .refl
    · exact .single (.vouch t _)
    · exact .single (.pin t _)
    · exact .refl

theorem chain_go (typed : String) : Chain L m t (t.go L m typed) := .single (.go t typed)

theorem chain_reload : Chain L m t (t.reload L m) := by
  rw [reload]
  split
  · exact chain_go _
  · split_ifs
    · exact .single (.note t _ rfl)
    · exact .refl

/-- **Whatever a window is told, what it does is a chain of moves.** -/
theorem chain_callback (callback : Callback) : Chain L m t (t.callback L m callback) := by
  cases callback with
  | challenge host judged => exact chain_didReceiveChallenge host judged
  | policy mainFrame scheme target click => exact chain_decidePolicy mainFrame scheme target click
  | newWindow scheme target =>
    rw [callback]
    cases hbeside : t.openBeside scheme target with
    | none => exact .refl
    | some t' => exact chain_openBeside hbeside
  | start => exact .single (.start t)
  | commit =>
    have hcommitted : Chain L m t (t.set fun c => { c with page := c.page + 1, icon := none }) :=
      chain_quiet rfl
    exact hcommitted.tail (.arrive _)
  | finish =>
    have hfinished : Chain L m t t.stop := chain_quiet rfl
    exact (hfinished.tail (.arrive _)).trans (chain_sendRefusedPartsDirect _)
  | failProvisional error => exact chain_didFailProvisional error
  | fail => exact chain_quiet rfl
  | icon page icon =>
    rw [callback, iconFound]
    split_ifs
    · exact chain_quiet rfl
    · exact .refl
  | becomeKey =>
    rw [callback, becomeKey]
    split
    · have hshown : Chain L m t (t.set fun c => { c with later := none }) := chain_quiet rfl
      exact hshown.tail (.go _ _)
    · exact .refl
  | change text => exact .single (.change t text)
  | endEditing byReturn => exact .single (.leave t byReturn)
  | navigate => exact chain_go _
  | reload => exact chain_reload
  | reloadOrStop =>
    rw [callback]
    split_ifs
    · exact chain_quiet rfl
    · exact chain_reload
  | stop => exact chain_quiet rfl
  | lookAgain =>
    have hlooked : Chain L m t (t.set fun c => { c with lookingAgain := false }) := chain_quiet rfl
    rw [callback, lookAgain]
    split_ifs
    · exact hlooked
    · exact hlooked.trans (chain_sendRefusedPartsDirect _)
  | refuse address why => exact .single (.page t address why)
  | close => exact chain_quiet rfl

@[simp] theorem c_load (address : String) : (t.load address).c = t.c := by
  rw [load]
  split_ifs <;> rfl

@[simp] theorem c_loadOwn (failure : Option (String × String)) : (t.loadOwn failure).c = t.c := by
  rw [loadOwn]
  split_ifs <;> rfl

/-- What the address field shows is another thing than what failed. -/
@[simp] theorem failed_showAddress : t.showAddress.c.failed = t.c.failed := by
  rw [showAddress]
  split_ifs <;> rfl

@[simp] theorem failed_setShown (text : String) : (t.setShown text).c.failed = t.c.failed :=
  failed_showAddress

@[simp] theorem failed_showRoute (route : Option Route) :
    (t.showRoute route).c.failed = t.c.failed := by
  rw [showRoute]
  split_ifs <;> rfl

theorem failed_showPage {address why a : String} (h : (t.showPage address why).c.failed = some a) :
    a = address := by
  simp only [showPage, failed_showRoute, failed_setShown, c_loadOwn, c_set] at h
  split_ifs at h
  exact (Option.some.inj h).symm

/-- Where an address is gone to, what failed is that one. -/
theorem failed_go {typed a : String} (ht : t.c.failed = none)
    (h : (t.go L m typed).c.failed = some a) : a = typed := by
  rw [go] at h
  dsimp only at h
  split at h
  · simp [ht] at h
  · exact failed_showPage h
  all_goals
    split_ifs at h
    · simp at h
    · exact failed_showPage h

theorem chain_begin (start : Start) (ht : t.c.failed = none) : Chain L m t (t.begin L m start) := by
  cases start with
  | page => exact .single (.startPage t)
  | request address => exact chain_load address
  | again address history =>
    rw [begin]
    split_ifs with hempty hhistory
    · exact .single (.startPage t)
    · exact .single (.shows t address fun a ha => by rw [ht] at ha; cases ha)
    · exact (chain_go address).tail (.shows _ address fun a ha => failed_go ht ha)
  | later address title =>
    have hshown : Chain L m t (t.setShown address) :=
      .single (.shows t address fun a ha => by rw [ht] at ha; cases ha)
    exact hshown.tail (.quiet rfl)

/-! ### One window, and the others -/

/-- **One comes of the other**: the window is the same, and what it noted is its own. -/
def Follows (t t' : Turn) : Prop :=
  t'.window = t.window ∧ ∃ more, t'.log = t.log ++ more ∧ ∀ e ∈ more, e.1 = t.window

theorem Follows.refl (t : Turn) : t.Follows t := ⟨rfl, [], by simp, by simp⟩

theorem Follows.trans {t'' : Turn} (h : t.Follows t') (h' : t'.Follows t'') : t.Follows t'' := by
  obtain ⟨hwindow, more, hlog, hmore⟩ := h
  obtain ⟨hwindow', more', hlog', hmore'⟩ := h'
  refine ⟨hwindow'.trans hwindow, more ++ more', by rw [hlog', hlog, List.append_assoc], ?_⟩
  intro e he
  rcases List.mem_append.mp he with he | he
  · exact hmore e he
  · exact (hmore' e he).trans hwindow

theorem follows_of_eq (hwindow : t'.window = t.window) (hlog : t'.log = t.log) : t.Follows t' :=
  ⟨hwindow, [], by rw [hlog, List.append_nil], by simp⟩

theorem follows_note (n : Note) : t.Follows (t.note n) :=
  ⟨rfl, [(t.window, n)], rfl, fun e he => by rw [List.mem_singleton.mp he]⟩

/-- **Nothing of the hosts changes**, and what is noted is not about them. -/
structure Mere (t t' : Turn) : Prop where
  follows : t.Follows t'
  app : t'.app = t.app
  vouched : t'.c.vouched = t.c.vouched
  pinned : t'.c.macosPinned = t.c.macosPinned
  retried : t'.c.retried = t.c.retried
  log : ∃ more, t'.log = t.log ++ more ∧ ∀ e ∈ more, e.2.ofHosts = false

theorem Mere.refl (t : Turn) : t.Mere t := ⟨.refl t, rfl, rfl, rfl, rfl, [], by simp, by simp⟩

theorem Mere.trans {t'' : Turn} (h : t.Mere t') (h' : t'.Mere t'') : t.Mere t'' := by
  obtain ⟨more, hlog, hmore⟩ := h.log
  obtain ⟨more', hlog', hmore'⟩ := h'.log
  refine ⟨h.follows.trans h'.follows, h'.app.trans h.app, h'.vouched.trans h.vouched,
    h'.pinned.trans h.pinned, h'.retried.trans h.retried, more ++ more',
    by rw [hlog', hlog, List.append_assoc], ?_⟩
  intro e he
  rcases List.mem_append.mp he with he | he
  · exact hmore e he
  · exact hmore' e he

theorem mere_set (f : Controller → Controller) (hvouched : (f t.c).vouched = t.c.vouched)
    (hpinned : (f t.c).macosPinned = t.c.macosPinned) (hretried : (f t.c).retried = t.c.retried) :
    t.Mere (t.set f) :=
  ⟨follows_of_eq rfl rfl, rfl, hvouched, hpinned, hretried, [], by simp, by simp⟩

theorem mere_note {n : Note} (hn : n.ofHosts = false) : t.Mere (t.note n) :=
  ⟨follows_note n, rfl, rfl, rfl, rfl, [(t.window, n)], rfl,
    fun e he => by rw [List.mem_singleton.mp he, hn]⟩

theorem mere_showAddress : t.Mere t.showAddress := by
  rw [showAddress]
  split_ifs
  · exact .refl t
  · exact mere_set _ rfl rfl rfl

theorem mere_setShown (text : String) : t.Mere (t.setShown text) :=
  (mere_set _ rfl rfl rfl).trans mere_showAddress

theorem mere_showRoute (route : Option Route) : t.Mere (t.showRoute route) := by
  rw [showRoute]
  split_ifs
  · exact mere_set _ rfl rfl rfl
  · exact .refl t

theorem mere_loadOwn (failure : Option (String × String)) : t.Mere (t.loadOwn failure) := by
  rw [loadOwn]
  split_ifs
  · exact mere_note rfl
  · exact .refl t

theorem mere_load (address : String) : t.Mere (t.load address) := by
  rw [load]
  split_ifs
  · exact mere_note rfl
  · exact .refl t

theorem mere_showPage (address why : String) : t.Mere (t.showPage address why) :=
  (((mere_set _ rfl rfl rfl).trans (mere_loadOwn _)).trans (mere_setShown _)).trans
    (mere_showRoute _)

theorem mere_showStartPage : t.Mere t.showStartPage :=
  (((mere_loadOwn none).trans (mere_set _ rfl rfl rfl)).trans (mere_setShown _)).trans
    (mere_showRoute _)

theorem mere_go (typed : String) : t.Mere (t.go L m typed) := by
  have hwent : t.Mere ((t.set fun c => { c with typing := false }).note (.went typed)) :=
    (mere_set _ rfl rfl rfl).trans (mere_note rfl)
  have hfailed : ∀ u : Turn, u.Mere (u.set fun c => { c with failed := none }) :=
    fun u => mere_set _ rfl rfl rfl
  rw [go]
  dsimp only
  split
  · exact hwent.trans mere_showAddress
  · exact hwent.trans (mere_showPage _ _)
  all_goals
    split_ifs
    · exact hwent.trans (((hfailed _).trans (mere_setShown _)).trans (mere_load _))
    · exact hwent.trans ((hfailed _).trans (mere_showPage _ _))

theorem mere_refreshAddress : t.Mere (t.refreshAddress L m) := by
  rw [refreshAddress]
  split
  · exact .refl t
  · split_ifs
    · exact .refl t
    · exact (((mere_set _ rfl rfl rfl).trans (mere_note rfl)).trans (mere_setShown _)).trans
        (mere_showRoute _)
    · exact (mere_note rfl).trans (mere_showRoute _)

theorem mere_didEndEditing (byReturn : Bool) : t.Mere (t.didEndEditing byReturn) := by
  have hleft : t.Mere ((t.set fun c => { c with typing := false }).note (.left byReturn)) :=
    (mere_set _ rfl rfl rfl).trans (mere_note rfl)
  rw [didEndEditing]
  split_ifs
  · exact hleft
  · exact hleft.trans mere_showAddress

theorem mere_didChange (text : String) : t.Mere (t.didChange text) :=
  (mere_set _ rfl rfl rfl).trans (mere_note rfl)

theorem follows_loadAgain (address : String) : t.Follows (t.loadAgain L address) := by
  rw [loadAgain]
  split_ifs
  · exact ((follows_of_eq rfl rfl).trans (follows_note _)).trans (mere_load _).follows
  · exact .refl t

/-- **A move is of one window.** -/
theorem follows_of_move (h : Move L m t t') : t.Follows t' := by
  cases h with
  | quiet h =>
    simp only [essence, Prod.mk.injEq] at h
    exact follows_of_eq h.2.1 h.2.2.1
  | note n => exact follows_note n
  | vouch host => exact (follows_of_eq rfl rfl).trans (follows_note _)
  | pin host => exact (follows_of_eq rfl rfl).trans (follows_note _)
  | hear => exact (follows_of_eq rfl rfl).trans (follows_note _)
  | start => exact (follows_of_eq rfl rfl).trans (follows_note _)
  | change text => exact (mere_didChange text).follows
  | leave byReturn => exact (mere_didEndEditing byReturn).follows
  | go typed => exact (mere_go typed).follows
  | page address why => exact (mere_showPage address why).follows
  | startPage => exact mere_showStartPage.follows
  | shows address => exact (mere_setShown address).follows
  | arrive => exact mere_refreshAddress.follows
  | retry app hosts address =>
    exact ((follows_of_eq rfl rfl).trans (follows_note _)).trans (follows_loadAgain _)

theorem follows_of_chain (h : Chain L m t t') : t.Follows t' := by
  induction h with
  | refl => exact .refl t
  | tail _ hmove ih => exact ih.trans (follows_of_move hmove)

end Turn

/-! ### Runs -/

open Tables Events

/-- What a window has of the state; one that is not there yet has a new controller. -/
def State.view (s : State) (window : ℕ) : Turn :=
  ⟨s.app, window, (s.windows.lookup window).getD (.new false), s.log, []⟩

/-- **What is kept**, by the moves of a window of that window, and of the others. -/
structure Rule (L : Library) (I : Turn → Prop) : Prop where
  move : ∀ m t t', Move L m t t' → I t → I t'
  other : ∀ (t t' : Turn) (window : ℕ) (c : Controller), t.Follows t' → window ≠ t.window →
    I t' → I { t with window := window, c := c } → I { t' with window := window, c := c }
  new : ∀ (t : Turn) (browses : Bool), t.c = .new false → I t → I { t with c := .new browses }

/-- It holds of every window, and the numbers from `next` on are of none yet. -/
structure State.Holds (I : Turn → Prop) (s : State) : Prop where
  windows : ∀ window, I (s.view window)
  fresh : ∀ window, s.next ≤ window → s.windows.lookup window = none

namespace Rule

variable {I : Turn → Prop} {s s' : State}

theorem chain (hI : Rule L I) (h : Chain L m t t') (ht : I t) : I t' := by
  induction h with
  | refl => exact ht
  | tail _ hmove ih => exact hI.move _ _ _ hmove ih

/-- A turn is over. -/
theorem past (hI : Rule L I) (m : Met) (hs : ∀ window, I (s.view window)) {c : Controller}
    (hfollows : (⟨s.app, t.window, c, s.log, []⟩ : Turn).Follows t) (ht : I t) (window : ℕ) :
    I ((s.past t).view window) := by
  by_cases hwindow : window = t.window
  · subst hwindow
    have hview : (s.past t).view t.window = { t with opens := [] } := by
      simp [State.view, State.past]
    rw [hview]
    exact hI.move m t _ (.quiet rfl) ht
  · have hview : (s.past t).view window =
        { t with window := window, c := (s.view window).c, opens := [] } := by
      simp [State.view, State.past, AList.lookup_insert_ne hwindow]
    rw [hview]
    exact hI.move m { t with window := window, c := (s.view window).c } _ (.quiet rfl)
      (hI.other _ t window _ hfollows hwindow ht (hs window))

/-- **A new window.** -/
theorem newWindow (hI : Rule L I) (hs : s.Holds I) (m : Met) (start : Start) :
    (s.newWindow L m start).Holds I := by
  have hnew : s.windows.lookup s.next = none := hs.fresh s.next le_rfl
  let t : Turn := ⟨s.app, s.next, .new (s.app.ready && m.made), s.log, []⟩
  have hview : s.view s.next = { t with c := .new false } := by simp [State.view, hnew, t]
  have ht : I t := hI.new _ _ rfl (hview ▸ hs.windows s.next)
  have hchain : Chain L m t (if t.c.web then t.begin L m start else t) := by
    split_ifs
    · exact Turn.chain_begin start rfl
    · exact .refl
  have hfollows := Turn.follows_of_chain hchain
  refine ⟨fun window => ?_, fun window hwindow => ?_⟩
  · have hwindow : (if t.c.web then t.begin L m start else t).window = s.next := hfollows.1
    refine hI.past m hs.windows (c := t.c) ?_ (hI.chain hchain ht) window
    rw [hwindow]
    exact hfollows
  · have hlt : s.next < window := hwindow
    have hne : window ≠ (if t.c.web then t.begin L m start else t).window := by
      rw [hfollows.1]
      exact hlt.ne'
    exact (AList.lookup_insert_ne hne).trans (hs.fresh window hlt.le)

/-- **A window is told something.** -/
theorem tell (hI : Rule L I) (hs : s.Holds I) {window : ℕ} {callback : Callback}
    (h : s.tell L m window callback = some s') : s'.Holds I := by
  obtain ⟨c, hc, rfl⟩ := Option.map_eq_some_iff.mp h
  let t : Turn := ⟨s.app, window, c, s.log, []⟩
  have hview : s.view window = t := by simp [State.view, hc, t]
  have hchain : Chain L m t (t.callback L m callback) := Turn.chain_callback callback
  have hfollows := Turn.follows_of_chain hchain
  have hwindow : (t.callback L m callback).window = window := hfollows.1
  have hpast : (s.past (t.callback L m callback)).Holds I := by
    refine ⟨fun other => ?_, fun other hother => ?_⟩
    · refine hI.past m hs.windows (c := c) ?_ (hI.chain hchain (hview ▸ hs.windows window)) other
      rw [hwindow]
      exact hfollows
    · have hnone := hs.fresh other hother
      have hne : other ≠ (t.callback L m callback).window := by
        rintro rfl
        rw [hwindow, hc] at hnone
        cases hnone
      exact (AList.lookup_insert_ne hne).trans hnone
  -- the tabs that were opened beside it, one after the other
  have hopens : ∀ (opens : List Start) (s : State), s.Holds I →
      (opens.foldl (fun s start => s.newWindow L m start) s).Holds I := by
    intro opens
    induction opens with
    | nil => exact fun s hs => hs
    | cons start opens ih => exact fun s hs => ih _ (hI.newWindow hs m start)
  exact hopens _ _ hpast

theorem refuseAsked (hI : Rule L I) (hs : s.Holds I) (address why : String) :
    (s.refuseAsked L m address why).Holds I := by
  have hopened := hI.newWindow hs m .page
  cases htold : (s.newWindow L m .page).tell L m s.next (.refuse address why) with
  | none => simpa [State.refuseAsked, htold] using hopened
  | some s' => simpa [State.refuseAsked, htold] using hI.tell hopened htold

/-- **Another application asks.** -/
theorem openAsked (hI : Rule L I) (hs : s.Holds I) (m : Met) (address : String) :
    (s.openAsked L m address).Holds I := by
  rw [State.openAsked]
  split
  · split_ifs
    · exact hI.newWindow hs m _
    · exact hI.refuseAsked hs address _
  · exact hI.refuseAsked hs address _

/-- **What the moves keep, every run keeps**, of every window. -/
theorem holds_of_runs (hI : Rule L I) {ready : Bool} {events : List (Met × Event)}
    (hstart : ∀ window, I ((State.start ready).view window))
    (h : Runs (Step L) (State.start ready) events s) : s.Holds I := by
  refine h.invariant (fun s e s' hs ⟨_, hafter⟩ => ?_) ⟨hstart, fun window _ => rfl⟩
  obtain ⟨m, e⟩ := e
  cases e with
  | opens start => exact Option.some.inj hafter ▸ hI.newWindow hs m start
  | asked address => exact Option.some.inj hafter ▸ hI.openAsked hs m address
  | told window callback => exact hI.tell hs hafter

end Rule

end Syndeo.App.Browser
