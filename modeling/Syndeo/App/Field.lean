import Syndeo.App.Moves

/-!
# What the address field says

The address field is the only thing that tells the person where a page is from, and the page
must not have a say in it but by being there. While the person types in it nothing but the
person changes it, and when nobody does it shows the address that is kept for it; the address
of a page that failed is kept while the failure is on screen, and no route is shown for it; and
a route is that of the page that is there (`Syndeo.App.Browser.field_of_runs`).
-/

namespace Syndeo.App.Browser

open Events

variable {L : Library} {m : Met} {t t' : Turn} {log : List (ℕ × Note)}

/-- It begins or ends what is typed. -/
def Note.ofTyping : Note → Bool
  | .typed _ | .left _ | .went _ => true
  | _ => false

/-- Another page is there, or will be. -/
def Note.ofPage : Note → Bool
  | .arrived _ _ | .notWeb | .own _ => true
  | _ => false

/-- **The person typed this**, and has typed nothing else since, nor left the field, nor gone to
an address. -/
def Typing (log : List (ℕ × Note)) (window : ℕ) (text : String) : Prop :=
  Since (fun e => e = (window, .typed text)) (fun e => e.1 = window ∧ e.2.ofTyping = true) log

/-- **The person pressed Return**, and what was typed has not been gone to yet. -/
def Returned (log : List (ℕ × Note)) (window : ℕ) : Prop :=
  Since (fun e => e = (window, .left true)) (fun e => ∃ address, e = (window, .went address)) log

/-- **The page is there**, with these domains sent directly when it came, and no other is. -/
def Reached (log : List (ℕ × Note)) (window : ℕ) (address : String) (direct : List String) : Prop :=
  Since (fun e => e = (window, .arrived address direct))
    (fun e => e.1 = window ∧ e.2.ofPage = true) log

/-- What holds of what a window keeps for its address field. -/
structure Keeps (L : Library) (t : Turn) : Prop where
  typed : ∀ text, Typing t.log t.window text → t.c.typing = true ∧ t.c.field = text
  failed : ∀ address, t.c.failed = some address → t.c.shown = address ∧ t.c.route = none
  route : ∀ route, t.c.route = some route → ∃ address direct,
    Reached t.log t.window address direct ∧ L.routeWith address direct = some route
  bare : t.c.ui = false → t.c.route = none

/-- **The invariant**: and what its address field shows is that, or what the person typed. -/
structure Field (L : Library) (t : Turn) : Prop extends Keeps L t where
  field : t.c.ui = true → t.c.typing = false → t.c.field = t.c.shown ∨ Returned t.log t.window

/-! ### What has nothing to do with it -/

theorem typing_append {window : ℕ} {more : List (ℕ × Note)} {text : String}
    (hmore : ∀ e ∈ more, e.1 = window → e.2.ofTyping = false) :
    Typing (log ++ more) window text ↔ Typing log window text := by
  refine since_append fun e he => ⟨?_, ?_⟩
  · rintro rfl
    cases hmore _ he rfl
  · rintro ⟨hwindow, htyping⟩
    rw [hmore e he hwindow] at htyping
    cases htyping

theorem returned_append {window : ℕ} {more : List (ℕ × Note)}
    (hmore : ∀ e ∈ more, e.1 = window → e.2.ofTyping = false) :
    Returned (log ++ more) window ↔ Returned log window := by
  refine since_append fun e he => ⟨?_, ?_⟩
  · rintro rfl
    cases hmore _ he rfl
  · rintro ⟨address, rfl⟩
    cases hmore _ he rfl

theorem reached_append {window : ℕ} {more : List (ℕ × Note)} {address : String}
    {direct : List String} (hmore : ∀ e ∈ more, e.1 = window → e.2.ofPage = false) :
    Reached (log ++ more) window address direct ↔ Reached log window address direct := by
  refine since_append fun e he => ⟨?_, ?_⟩
  · rintro rfl
    cases hmore _ he rfl
  · rintro ⟨hwindow, hpage⟩
    rw [hmore e he hwindow] at hpage
    cases hpage

namespace Keeps

/-- The field is left alone. -/
theorem mere (ht : Keeps L t) (hwindow : t'.window = t.window) {more : List (ℕ × Note)}
    (hlog : t'.log = t.log ++ more)
    (hmore : ∀ e ∈ more, e.2.ofTyping = false ∧ e.2.ofPage = false)
    (hc : (t'.c.ui, t'.c.failed, t'.c.shown, t'.c.typing, t'.c.field, t'.c.route) =
      (t.c.ui, t.c.failed, t.c.shown, t.c.typing, t.c.field, t.c.route)) : Keeps L t' := by
  simp only [Prod.mk.injEq] at hc
  obtain ⟨hui, hfailed, hshown, htyping, hfield, hroute⟩ := hc
  refine ⟨fun text htext => ?_, fun address haddress => ?_, fun route hr => ?_, fun hbare => ?_⟩
  · rw [hwindow, hlog, typing_append fun e he _ => (hmore e he).1] at htext
    rw [htyping, hfield]
    exact ht.typed text htext
  · rw [hshown, hroute]
    exact ht.failed address (hfailed ▸ haddress)
  · obtain ⟨address, direct, hreached, heq⟩ := ht.route route (hroute ▸ hr)
    refine ⟨address, direct, ?_, heq⟩
    rwa [hwindow, hlog, reached_append fun e he _ => (hmore e he).2]
  · exact hroute.trans (ht.bare (hui ▸ hbare))

end Keeps

/-- The field is left alone. -/
theorem Field.mere (ht : Field L t) (hwindow : t'.window = t.window) {more : List (ℕ × Note)}
    (hlog : t'.log = t.log ++ more)
    (hmore : ∀ e ∈ more, e.2.ofTyping = false ∧ e.2.ofPage = false)
    (hc : (t'.c.ui, t'.c.failed, t'.c.shown, t'.c.typing, t'.c.field, t'.c.route) =
      (t.c.ui, t.c.failed, t.c.shown, t.c.typing, t.c.field, t.c.route)) : Field L t' := by
  refine ⟨ht.toKeeps.mere hwindow hlog hmore hc, fun hui htyping => ?_⟩
  simp only [Prod.mk.injEq] at hc
  obtain ⟨hui', -, hshown, htyping', hfield, -⟩ := hc
  rw [hwindow, hlog, returned_append fun e he _ => (hmore e he).1, hfield, hshown]
  exact ht.field (hui' ▸ hui) (htyping' ▸ htyping)

theorem Field.load (ht : Field L t) (address : String) : Field L (t.load address) := by
  rw [Turn.load]
  split_ifs
  · exact ht.mere rfl rfl (fun e he => by rw [List.mem_singleton.mp he]; exact ⟨rfl, rfl⟩) rfl
  · exact ht

namespace Keeps

/-- **An address is shown**, unless someone is typing. -/
theorem shows (ht : Keeps L t) (hwindow : t'.window = t.window) (hui : t'.c.ui = t.c.ui)
    (htyping : t'.c.typing = t.c.typing)
    (hfield : t'.c.field = if t.c.typing || !t.c.ui then t.c.field else t'.c.shown)
    {more : List (ℕ × Note)} (hlog : t'.log = t.log ++ more)
    (hmore : ∀ e ∈ more, e.2.ofTyping = false)
    (hfailed : ∀ address, t'.c.failed = some address →
      t'.c.shown = address ∧ t'.c.route = none)
    (hroute : ∀ route, t'.c.route = some route → ∃ address direct,
      Reached t'.log t'.window address direct ∧ L.routeWith address direct = some route)
    (hbare : t'.c.ui = false → t'.c.route = none) : Field L t' := by
  refine ⟨⟨fun text htext => ?_, hfailed, hroute, hbare⟩, fun hui' htyping' => .inl ?_⟩
  · rw [hwindow, hlog, typing_append fun e he _ => hmore e he] at htext
    obtain ⟨htyped, heq⟩ := ht.typed text htext
    refine ⟨htyping.trans htyped, ?_⟩
    rw [hfield, htyped, Bool.true_or, if_pos rfl]
    exact heq
  · rw [hfield, ← htyping, htyping', ← hui, hui']
    rfl

end Keeps

namespace Turn

@[simp] theorem c_showAddress : t.showAddress.c =
    { t.c with field := if t.c.typing || !t.c.ui then t.c.field else t.c.shown } := by
  rw [showAddress]
  split_ifs with h <;> rfl

@[simp] theorem window_showAddress : t.showAddress.window = t.window := by
  rw [showAddress]
  split_ifs <;> rfl

@[simp] theorem log_showAddress : t.showAddress.log = t.log := by
  rw [showAddress]
  split_ifs <;> rfl

@[simp] theorem c_showRoute (route : Option Route) : (t.showRoute route).c =
    { t.c with route := if t.c.ui then route else t.c.route } := by
  rw [showRoute]
  split_ifs with h <;> rfl

@[simp] theorem window_showRoute (route : Option Route) :
    (t.showRoute route).window = t.window := by
  rw [showRoute]
  split_ifs <;> rfl

@[simp] theorem log_showRoute (route : Option Route) : (t.showRoute route).log = t.log := by
  rw [showRoute]
  split_ifs <;> rfl

@[simp] theorem window_loadOwn (failure : Option (String × String)) :
    (t.loadOwn failure).window = t.window := by
  rw [loadOwn]
  split_ifs <;> rfl

theorem log_loadOwn (failure : Option (String × String)) : ∃ more,
    (t.loadOwn failure).log = t.log ++ more ∧ ∀ e ∈ more, e.2.ofTyping = false := by
  rw [loadOwn]
  split_ifs
  · exact ⟨[(t.window, .own failure)], rfl, fun e he => by rw [List.mem_singleton.mp he]; rfl⟩
  · exact ⟨[], by simp, by simp⟩

end Turn

namespace Keeps

open Turn

theorem showPage (ht : Keeps L t) (address why : String) : Field L (t.showPage address why) := by
  obtain ⟨more, hlog, hmore⟩ := (t.set fun c =>
    { c with failed := if address = "" then none else some address }).log_loadOwn
      (some (address, why))
  have hroute : (t.showPage address why).c.route = none := by
    simp only [Turn.showPage, Turn.setShown, c_showRoute, c_showAddress, c_set, c_loadOwn]
    split_ifs with hui
    · rfl
    · exact ht.bare (Bool.not_eq_true _ ▸ hui)
  refine ht.shows ?_ ?_ ?_ ?_ ?_ hmore (fun failed hfailed => ⟨?_, hroute⟩)
    (fun route hr => ?_) (fun _ => hroute)
  · simp [Turn.showPage, Turn.setShown]
  · simp [Turn.showPage, Turn.setShown]
  · simp [Turn.showPage, Turn.setShown]
  · simp [Turn.showPage, Turn.setShown]
  · simpa [Turn.showPage, Turn.setShown] using hlog
  · rw [failed_showPage hfailed]
    simp [Turn.showPage, Turn.setShown]
  · rw [hroute] at hr
    cases hr

theorem showStartPage (ht : Keeps L t) : Field L t.showStartPage := by
  obtain ⟨more, hlog, hmore⟩ := t.log_loadOwn none
  have hroute : t.showStartPage.c.route = none := by
    simp only [Turn.showStartPage, Turn.setShown, c_showRoute, c_showAddress, c_set, c_loadOwn]
    split_ifs with hui
    · rfl
    · exact ht.bare (Bool.not_eq_true _ ▸ hui)
  refine ht.shows ?_ ?_ ?_ ?_ ?_ hmore (fun failed hfailed => ?_)
    (fun route hr => ?_) (fun _ => hroute)
  · simp [Turn.showStartPage, Turn.setShown]
  · simp [Turn.showStartPage, Turn.setShown]
  · simp [Turn.showStartPage, Turn.setShown]
  · simp [Turn.showStartPage, Turn.setShown]
  · simpa [Turn.showStartPage, Turn.setShown] using hlog
  · simp [Turn.showStartPage, Turn.setShown] at hfailed
  · rw [hroute] at hr
    cases hr

/-- An address is kept, where none failed but that one. -/
theorem setShown (ht : Keeps L t) {address : String}
    (h : ∀ a, t.c.failed = some a → a = address) : Field L (t.setShown address) := by
  have hquiet : ∀ e ∈ ([] : List (ℕ × Note)), e.2.ofTyping = false := by simp
  refine ht.shows ?_ ?_ ?_ ?_ ?_ hquiet (fun failed hfailed => ?_) (fun route hr => ?_)
    fun hbare => ?_
  · simp [Turn.setShown]
  · simp [Turn.setShown]
  · simp [Turn.setShown]
  · simp [Turn.setShown]
  · simp [Turn.setShown]
  · simp only [Turn.setShown, c_showAddress, c_set] at hfailed ⊢
    exact ⟨(h failed hfailed).symm, (ht.failed failed hfailed).2⟩
  · simp only [Turn.setShown, c_showAddress, c_set, window_showAddress, log_showAddress] at hr ⊢
    exact ht.route route hr
  · simp only [Turn.setShown, c_showAddress, c_set] at hbare ⊢
    exact ht.bare hbare

theorem showAddress (ht : Keeps L t) : Field L t.showAddress := by
  have hsame : t.setShown t.c.shown = t.showAddress := rfl
  rw [← hsame]
  exact ht.setShown fun a ha => (ht.failed a ha).1.symm

/-- What failed is forgotten. -/
theorem forget (ht : Keeps L t) : Keeps L (t.set fun c => { c with failed := none }) :=
  ⟨ht.typed, fun address haddress => by simp at haddress, ht.route, ht.bare⟩

/-- **A page is there.** -/
theorem arrive (ht : Keeps L t) (address : String) : Field L
    ((((t.set fun c => { c with failed := none }).note (.arrived address t.app.direct)).setShown
      address).showRoute (L.routeWith address t.app.direct)) := by
  have hquiet : ∀ e ∈ [(t.window, Note.arrived address t.app.direct)], e.2.ofTyping = false :=
    fun e he => by rw [List.mem_singleton.mp he]; rfl
  refine ht.shows ?_ ?_ ?_ ?_ ?_ hquiet (fun failed hfailed => ?_) (fun route hr => ?_)
    fun hbare => ?_
  · simp [Turn.setShown]
  · simp [Turn.setShown]
  · simp [Turn.setShown]
  · simp [Turn.setShown]
  · simp [Turn.setShown]
  · simp [Turn.setShown] at hfailed
  · simp only [Turn.setShown, c_showRoute, c_showAddress, c_set, c_note] at hr
    split_ifs at hr with hui
    · refine ⟨address, t.app.direct, ?_, hr⟩
      simp only [Turn.setShown, log_showRoute, log_showAddress, log_set, log_note, window_showRoute,
        window_showAddress, window_set, window_note]
      exact since_concat rfl
    · rw [ht.bare (Bool.not_eq_true _ ▸ hui)] at hr
      cases hr
  · simp only [Turn.setShown, c_showRoute, c_showAddress, c_set, c_note] at hbare ⊢
    rw [if_neg (by simp [hbare])]
    exact ht.bare hbare

/-- **An address is gone to**: what was typed is typed no more. -/
theorem went (ht : Keeps L t) (n : Note) (hn : n.ofTyping = true) (hpage : n.ofPage = false)
    (hnew : ∀ text, n ≠ .typed text) :
    Keeps L ((t.set fun c => { c with typing := false }).note n) := by
  refine ⟨fun text htext => ?_, ht.failed, fun route hr => ?_, ht.bare⟩
  · rcases since_concat_iff.mp htext with heq | ⟨-, hundone⟩
    · exact absurd (Prod.mk.inj heq).2 (hnew text)
    · exact absurd ⟨rfl, hn⟩ hundone
  · obtain ⟨address, direct, hreached, heq⟩ := ht.route route hr
    refine ⟨address, direct, (reached_append fun e he _ => ?_).mpr hreached, heq⟩
    rw [List.mem_singleton.mp he]
    exact hpage

theorem go (ht : Keeps L t) (typed : String) : Field L (t.go L m typed) := by
  have hwent := ht.went (.went typed) rfl rfl (by simp)
  rw [Turn.go]
  dsimp only
  split
  · exact hwent.showAddress
  · exact hwent.showPage _ _
  all_goals
    split_ifs
    · have hshown : Field L (Turn.setShown _ (m.href typed)) :=
        hwent.forget.setShown fun a ha => by simp at ha
      exact hshown.load _
    · exact hwent.forget.showPage _ _

end Keeps

namespace Field

open Turn

/-- A page is there that is not the web's, and has no route. -/
theorem notWeb (ht : Field L t) : Field L ((t.note .notWeb).showRoute none) := by
  have hroute : ((t.note .notWeb).showRoute none).c.route = none := by
    cases hui : t.c.ui with
    | true => simp [hui]
    | false => simp [hui, ht.bare hui]
  have hquiet : ∀ e ∈ [(t.window, Note.notWeb)], e.1 = t.window → e.2.ofTyping = false :=
    fun e he _ => by rw [List.mem_singleton.mp he]; rfl
  refine ⟨⟨fun text htext => ?_, fun address haddress => ⟨?_, hroute⟩, fun route hr => ?_,
    fun _ => hroute⟩, fun hui htyping => ?_⟩
  · simp only [log_showRoute, log_note, window_showRoute, window_note] at htext
    simp only [c_showRoute, c_note]
    exact ht.typed text ((typing_append hquiet).mp htext)
  · simp only [c_showRoute, c_note] at haddress ⊢
    exact (ht.failed address haddress).1
  · rw [hroute] at hr
    cases hr
  · simp only [c_showRoute, c_note, log_showRoute, log_note, window_showRoute, window_note]
      at hui htyping ⊢
    rw [returned_append hquiet]
    exact ht.field hui htyping

theorem refreshAddress (ht : Field L t) : Field L (t.refreshAddress L m) := by
  rw [Turn.refreshAddress]
  split
  · exact ht
  · rename_i text scheme hurl
    split_ifs
    · exact ht
    · exact ht.toKeeps.arrive text
    · exact ht.notWeb

theorem didEndEditing (ht : Field L t) (byReturn : Bool) : Field L (t.didEndEditing byReturn) := by
  have hleft := ht.toKeeps.went (.left byReturn) rfl rfl (by simp)
  rw [Turn.didEndEditing]
  split_ifs with hreturn
  · refine ⟨hleft, fun _ _ => .inr ?_⟩
    subst hreturn
    exact since_concat rfl
  · exact hleft.showAddress

theorem didChange (ht : Field L t) (text : String) : Field L (t.didChange text) := by
  refine ⟨⟨fun other hother => ?_, ht.failed, fun route hr => ?_, ht.bare⟩,
    fun _ htyping => absurd htyping (by simp [Turn.didChange])⟩
  · rcases since_concat_iff.mp hother with heq | ⟨-, hundone⟩
    · exact ⟨rfl, Note.typed.inj (Prod.mk.inj heq).2⟩
    · exact absurd ⟨rfl, rfl⟩ hundone
  · obtain ⟨address, direct, hreached, heq⟩ := ht.route route hr
    refine ⟨address, direct, (reached_append fun e he _ => ?_).mpr hreached, heq⟩
    rw [List.mem_singleton.mp he]
    rfl

/-- Hosts are sent directly, and the page is loaded again: the field is left alone. -/
theorem retry (ht : Field L t) (app : Application) (hosts : List String) (address : String) :
    Field L (t.retry L app hosts address) := by
  have hsent : Field L ({ t with app := app }.note (.sent hosts)) :=
    ht.mere rfl rfl (fun e he => by rw [List.mem_singleton.mp he]; exact ⟨rfl, rfl⟩) rfl
  rw [Turn.retry, loadAgain]
  split_ifs
  · refine Field.load ?_ address
    exact hsent.mere rfl rfl
      (fun e he => by rw [List.mem_singleton.mp he]; exact ⟨rfl, rfl⟩) rfl
  · exact hsent

/-- **One move.** -/
theorem move (ht : Field L t) (h : Move L m t t') : Field L t' := by
  have hone : ∀ (u : Turn) (n : Note), n.ofTyping = false → n.ofPage = false →
      u.window = t.window → u.log = t.log ++ [(t.window, n)] →
      (u.c.ui, u.c.failed, u.c.shown, u.c.typing, u.c.field, u.c.route) =
        (t.c.ui, t.c.failed, t.c.shown, t.c.typing, t.c.field, t.c.route) → Field L u :=
    fun u n htyping hpage hwindow hlog hc => ht.mere hwindow hlog
      (fun e he => by rw [List.mem_singleton.mp he]; exact ⟨htyping, hpage⟩) hc
  cases h with
  | quiet h =>
    simp only [essence, Prod.mk.injEq] at h
    obtain ⟨-, hwindow, hlog, ⟨hui, hfailed, hshown, htyping, hfield, hroute⟩, -⟩ := h
    have hsame : t'.log = t.log ++ [] := by rw [hlog, List.append_nil]
    exact ht.mere hwindow hsame (by simp)
      (by rw [hui, hfailed, hshown, htyping, hfield, hroute])
  | note n hn =>
    refine hone _ n ?_ ?_ rfl rfl rfl <;> cases n <;> first | rfl | cases hn
  | vouch host => exact hone _ _ rfl rfl rfl rfl rfl
  | pin host => exact hone _ _ rfl rfl rfl rfl rfl
  | hear => exact hone _ _ rfl rfl rfl rfl rfl
  | start => exact hone _ _ rfl rfl rfl rfl rfl
  | change text => exact ht.didChange text
  | leave byReturn => exact ht.didEndEditing byReturn
  | go typed => exact ht.toKeeps.go typed
  | page address why => exact ht.toKeeps.showPage address why
  | startPage => exact ht.toKeeps.showStartPage
  | shows address h => exact ht.toKeeps.setShown h
  | arrive => exact ht.refreshAddress
  | retry app hosts address => exact ht.retry app hosts address

theorem rule (L : Library) : Rule L (Field L) where
  move m t t' h ht := ht.move h
  other t t' window c hfollows hne _ hc := by
    obtain ⟨-, more, hlog, hmore⟩ := hfollows
    have hother : ∀ e ∈ more, e.1 ≠ window := fun e he => (hmore e he).trans_ne hne.symm
    refine ⟨⟨fun text htext => hc.typed text ?_, hc.failed, fun route hr => ?_, hc.bare⟩,
      fun hui htyping => ?_⟩
    · change Typing t'.log window text at htext
      rwa [hlog, typing_append fun e he heq => absurd heq (hother e he)] at htext
    · obtain ⟨address, direct, hreached, heq⟩ := hc.route route hr
      refine ⟨address, direct, ?_, heq⟩
      change Reached t'.log window address direct
      rwa [hlog, reached_append fun e he heq => absurd heq (hother e he)]
    · refine (hc.field hui htyping).imp_right fun hreturned => ?_
      change Returned t'.log window
      rwa [hlog, returned_append fun e he heq => absurd heq (hother e he)]
  new t browses hc ht := by
    refine ⟨⟨fun text htext => ?_, fun address h => absurd h (by simp [Controller.new]),
      fun route h => absurd h (by simp [Controller.new]), fun _ => rfl⟩, fun _ _ => .inl rfl⟩
    have hnot := (ht.typed text htext).1
    rw [hc] at hnot
    cases hnot

theorem start (ready : Bool) (window : ℕ) : Field L ((State.start ready).view window) := by
  refine ⟨⟨fun text htext => ?_,
    fun address h => absurd h (by simp [State.view, State.start, Controller.new]),
    fun route h => absurd h (by simp [State.view, State.start, Controller.new]), fun _ => rfl⟩,
    fun _ _ => .inl rfl⟩
  obtain ⟨before, e, rest, heq, -⟩ := htext
  exact absurd heq (by simp [State.view, State.start])

end Field

variable {s : State} {ready : Bool} {events : List (Met × Event)}

/-- The library of one site. -/
def siteLibrary : Library where
  parse text := if text = "https://example.com/" then some ⟨"https", some (.domain "example.com")⟩
    else none
  hostStr _ := "example.com"
  nsUrl _ := true

/-- A page of the site, at this address, or none of the web's. -/
def metWith (url : Option (String × String)) : Met where
  url := url
  search _ := none
  href text := text
  said := []
  excludes := true
  macos := 26
  made := true

/-- A page is opened; while it comes, the person types; and the page comes all the same. -/
def typedMeanwhile : List (Met × Event) :=
  let before := metWith none
  let there := metWith (some ("https://example.com/", "https"))
  [(before, .opens .page), (before, .told 1 (.change "https://example.com/")),
    (before, .told 1 (.endEditing true)), (before, .told 1 .navigate),
    (before, .told 1 (.change "oth")), (there, .told 1 .start), (there, .told 1 .commit),
    (there, .told 1 .finish)]

/-- What was typed is there yet, the page's address is kept, and its route shown. -/
def shownMeanwhile (s : State) : Bool :=
  (s.windows.lookup 1).any fun c => c.typing && c.field = "oth" &&
    c.shown = "https://example.com/" && c.route = some .syndeo

end Syndeo.App.Browser
