import Syndeo.App.Moves

/-!
# Nothing goes around the proxy without a sign

What is sent directly is not seen by the proxy, so a host must not be sent directly
because a page says so, or because its server fails. The windows send a host directly only
when macOS refused it through the proxy, and each window only what it has seen a sign of
itself: macOS pins the host, or the window had vouched for the certificate that the proxy
made for it and then either the proxy said that it was refused or the page failed just as
such a refusal does (`Syndeo.App.Browser.signed_of_runs`).

The page is then loaded again, by itself. That ends: the page that a window loaded again
is not loaded again for that until another one has started
(`Syndeo.App.Browser.reloadedOnce_of_runs`).
-/

namespace Syndeo.App.Browser

open Events

variable {L : Library} {m : Met} {t t' : Turn} {log : List (ℕ × Note)}

/-- **A sign that macOS refused the host**, in what happened so far. -/
def Sign (L : Library) (before : List (ℕ × Note)) (window : ℕ) (host : String) : Prop :=
  (window, .pinned host) ∈ before ∨ (window, .vouched host) ∈ before ∧
    ((∃ e ∈ before, ∃ hosts, e.2 = .said hosts ∧ host ∈ hosts) ∨ ∃ address,
      before.getLast? = some (window, .failed "NSURLErrorDomain" secureConnectionFailed address) ∧
        L.hostIn address = some host)

/-- Hosts are sent directly on a sign. -/
def OnSign (L : Library) (before : List (ℕ × Note)) (e : ℕ × Note) : Prop :=
  ∀ hosts, e.2 = .sent hosts → ∀ host ∈ hosts, Sign L before e.1 host

/-- **The window loaded the page again**, and no other has started since, or been loaded again. -/
def Again (log : List (ℕ × Note)) (window : ℕ) (address : String) : Prop :=
  Since (fun e => e = (window, .again address))
    (fun e => ∃ other, other ≠ address ∧
      (e = (window, .started other) ∨ e = (window, .again other))) log

/-- A page is loaded again just after hosts were sent directly, and once. -/
def Once (before : List (ℕ × Note)) (e : ℕ × Note) : Prop :=
  ∀ address, e.2 = .again address →
    (∃ hosts, before.getLast? = some (e.1, .sent hosts)) ∧ ¬Again before e.1 address

/-- **The invariant** of a window, with what the windows share. -/
structure Around (L : Library) (t : Turn) : Prop where
  vouched : ∀ host ∈ t.c.vouched, (t.window, .vouched host) ∈ t.log
  pinned : ∀ host ∈ t.c.macosPinned, (t.window, .pinned host) ∈ t.log
  heard : ∀ host ∈ t.app.heard, ∃ e ∈ t.log, ∃ hosts, e.2 = .said hosts ∧ host ∈ hosts
  direct : ∀ domain ∈ t.app.direct, ∃ window hosts, (window, .sent hosts) ∈ t.log ∧ domain ∈ hosts
  excluding : Application.Excluding t.app.direct
  sent : EachAfter (OnSign L) t.log
  again : EachAfter Once t.log
  retried : ∀ address, Again t.log t.window address → t.c.retried = some address

theorem mem_remember {list : List String} {host kept : String} (h : kept ∈ remember list host) :
    kept ∈ list ∨ kept = host := by
  rw [remember] at h
  have hmem : kept ∈ list.filter (· ≠ host) ++ [host] := by
    split_ifs at h
    · exact List.mem_of_mem_tail h
    · exact h
  rcases List.mem_append.mp hmem with hmem | hmem
  · exact .inl (List.mem_filter.mp hmem).1
  · exact .inr (List.mem_singleton.mp hmem)

/-- Nothing that a window notes of itself brings back a page of another. -/
theorem again_append_of_ne {window : ℕ} {more : List (ℕ × Note)} {address : String}
    (hmore : ∀ e ∈ more, e.1 ≠ window) :
    Again (log ++ more) window address ↔ Again log window address := by
  refine since_append fun e he => ⟨?_, ?_⟩
  · rintro rfl
    exact hmore _ he rfl
  · rintro ⟨other, -, rfl | rfl⟩
    · exact hmore _ he rfl
    · exact hmore _ he rfl

/-- Nor does what is not about the hosts. -/
theorem again_append_of_mere {window : ℕ} {more : List (ℕ × Note)} {address : String}
    (hmore : ∀ e ∈ more, e.2.ofHosts = false) :
    Again (log ++ more) window address ↔ Again log window address := by
  refine since_append fun e he => ⟨?_, ?_⟩
  · rintro rfl
    exact absurd (hmore _ he) (by simp [Note.ofHosts])
  · rintro ⟨other, -, rfl | rfl⟩
    · exact absurd (hmore _ he) (by simp [Note.ofHosts])
    · exact absurd (hmore _ he) (by simp [Note.ofHosts])

namespace Around

/-- What is not about the hosts keeps it. -/
theorem mere (ht : Around L t) (h : t.Mere t') : Around L t' := by
  obtain ⟨more, hlog, hmore⟩ := h.log
  have hmem : ∀ e ∈ t.log, e ∈ t'.log := fun e he => hlog ▸ List.mem_append_left _ he
  refine ⟨fun host hhost => ?_, fun host hhost => ?_, fun host hhost => ?_, fun d hd => ?_,
    h.app ▸ ht.excluding, ?_, ?_, fun address hagain => ?_⟩
  · rw [h.follows.1]
    exact hmem _ (ht.vouched host (h.vouched ▸ hhost))
  · rw [h.follows.1]
    exact hmem _ (ht.pinned host (h.pinned ▸ hhost))
  · obtain ⟨e, he, hsaid⟩ := ht.heard host (h.app ▸ hhost)
    exact ⟨e, hmem e he, hsaid⟩
  · obtain ⟨window, hosts, hsent, hmem'⟩ := ht.direct d (h.app ▸ hd)
    exact ⟨window, hosts, hmem _ hsent, hmem'⟩
  · refine hlog ▸ eachAfter_append ht.sent fun e he before hosts hnote => ?_
    have hmere := hmore e he
    rw [hnote] at hmere
    cases hmere
  · refine hlog ▸ eachAfter_append ht.again fun e he before address hnote => ?_
    have hmere := hmore e he
    rw [hnote] at hmere
    cases hmere
  · rw [h.follows.1, hlog, again_append_of_mere hmore] at hagain
    exact h.retried.trans (ht.retried address hagain)

/-- **One thing happens**, after which hosts are known that it is about. -/
theorem concat (ht : Around L t) {n : Note} (hwindow : t'.window = t.window)
    (hlog : t'.log = t.log ++ [(t.window, n)]) (hdirect : t'.app.direct = t.app.direct)
    (hsent : ∀ hosts, n ≠ .sent hosts) (hagain : ∀ address, n ≠ .again address)
    (hvouched : ∀ host ∈ t'.c.vouched, host ∈ t.c.vouched ∨ n = .vouched host)
    (hpinned : ∀ host ∈ t'.c.macosPinned, host ∈ t.c.macosPinned ∨ n = .pinned host)
    (hheard : ∀ host ∈ t'.app.heard, host ∈ t.app.heard ∨ ∃ hosts, n = .said hosts ∧ host ∈ hosts)
    (hretried : ∀ address, t.c.retried = some address →
      t'.c.retried = some address ∨ ∃ now, n = .started now ∧ now ≠ address) : Around L t' := by
  have hmem : ∀ e ∈ t.log, e ∈ t'.log := fun e he => hlog ▸ List.mem_append_left _ he
  have hlast : (t.window, n) ∈ t'.log := hlog ▸ List.mem_append_right _ List.mem_cons_self
  refine ⟨fun host hhost => ?_, fun host hhost => ?_, fun host hhost => ?_, fun d hd => ?_,
    hdirect ▸ ht.excluding, ?_, ?_, fun address haddress => ?_⟩
  · rw [hwindow]
    rcases hvouched host hhost with hhost | rfl
    · exact hmem _ (ht.vouched host hhost)
    · exact hlast
  · rw [hwindow]
    rcases hpinned host hhost with hhost | rfl
    · exact hmem _ (ht.pinned host hhost)
    · exact hlast
  · rcases hheard host hhost with hhost | ⟨hosts, rfl, hhost⟩
    · obtain ⟨e, he, hsaid⟩ := ht.heard host hhost
      exact ⟨e, hmem e he, hsaid⟩
    · exact ⟨_, hlast, hosts, rfl, hhost⟩
  · obtain ⟨window, hosts, hsent, hmem'⟩ := ht.direct d (hdirect ▸ hd)
    exact ⟨window, hosts, hmem _ hsent, hmem'⟩
  · exact hlog ▸ eachAfter_concat.mpr ⟨ht.sent, fun hosts hnote => absurd hnote (hsent hosts)⟩
  · exact hlog ▸ eachAfter_concat.mpr ⟨ht.again, fun address hnote => absurd hnote (hagain address)⟩
  · rw [hwindow, hlog, Again, since_concat_iff] at haddress
    rcases haddress with hnote | ⟨hbefore, hnot⟩
    · exact absurd (Prod.mk.inj hnote).2 (hagain address)
    · refine (hretried address (ht.retried address hbefore)).resolve_right ?_
      rintro ⟨now, rfl, hne⟩
      exact hnot ⟨now, hne, .inl rfl⟩

/-- What the window knows of a host is a sign. -/
theorem sign (ht : Around L t) {host : String} (h : t.Signed L host) :
    Sign L t.log t.window host := by
  rcases h with hpinned | ⟨hvouched, hheard | hfailed⟩
  · exact .inl (ht.pinned host hpinned)
  · exact .inr ⟨ht.vouched host hvouched, .inl (ht.heard host hheard)⟩
  · exact .inr ⟨ht.vouched host hvouched, .inr hfailed⟩

/-- **Hosts are sent directly.** -/
theorem send (ht : Around L t) {app : Application} {hosts : List String} {excludes : Bool}
    (hsent : t.app.sendDirect hosts excludes = (true, app))
    (hsigned : ∀ host ∈ hosts, t.Signed L host) :
    Around L ({ t with app := app }.note (.sent hosts)) := by
  obtain rfl : app = { t.app with direct := hosts.foldl Application.exclude t.app.direct } := by
    rcases t.app.sendDirect_cases hosts excludes with hcase | ⟨-, hcase⟩
    · rw [hcase] at hsent
      cases hsent
    · rw [hcase] at hsent
      exact (Prod.mk.inj hsent).2.symm
  refine ⟨fun host hhost => List.mem_append_left _ (ht.vouched host hhost),
    fun host hhost => List.mem_append_left _ (ht.pinned host hhost), fun host hhost => ?_,
    fun d hd => ?_, Application.excluding_foldl ht.excluding, ?_, ?_, fun address haddress => ?_⟩
  · obtain ⟨e, he, hsaid⟩ := ht.heard host hhost
    exact ⟨e, List.mem_append_left _ he, hsaid⟩
  · rcases Application.mem_foldl_exclude hd with hd | hd
    · obtain ⟨window, hosts, hsent, hmem⟩ := ht.direct d hd
      exact ⟨window, hosts, List.mem_append_left _ hsent, hmem⟩
    · exact ⟨t.window, hosts, List.mem_append_right _ List.mem_cons_self, hd⟩
  · refine eachAfter_concat.mpr ⟨ht.sent, fun hosts' hnote host hhost => ?_⟩
    obtain rfl := Note.sent.inj hnote
    exact ht.sign (hsigned host hhost)
  · exact eachAfter_concat.mpr ⟨ht.again, fun address hnote => by cases hnote⟩
  · rw [Again, Turn.log_note, since_concat_iff] at haddress
    rcases haddress with hnote | ⟨hbefore, -⟩
    · cases hnote
    · exact ht.retried address hbefore

/-- **The page is loaded again**, just after that. -/
theorem loadAgain (ht : Around L t) {address : String} (hne : t.c.retried ≠ some address)
    (hlast : ∃ hosts, t.log.getLast? = some (t.window, .sent hosts)) :
    Around L (t.loadAgain L address) := by
  rw [Turn.loadAgain]
  split_ifs
  · refine mere ?_ (Turn.mere_load address)
    have hnot : ¬Again t.log t.window address := fun hagain => hne (ht.retried address hagain)
    refine ⟨fun host hhost => List.mem_append_left _ (ht.vouched host hhost),
      fun host hhost => List.mem_append_left _ (ht.pinned host hhost), fun host hhost => ?_,
      fun d hd => ?_, ht.excluding, ?_, ?_, fun other hother => ?_⟩
    · obtain ⟨e, he, hsaid⟩ := ht.heard host hhost
      exact ⟨e, List.mem_append_left _ he, hsaid⟩
    · obtain ⟨window, hosts, hsent, hmem⟩ := ht.direct d hd
      exact ⟨window, hosts, List.mem_append_left _ hsent, hmem⟩
    · exact eachAfter_concat.mpr ⟨ht.sent, fun hosts hnote => by cases hnote⟩
    · refine eachAfter_concat.mpr ⟨ht.again, fun other hnote => ?_⟩
      obtain rfl := Note.again.inj hnote
      exact ⟨hlast, hnot⟩
    · rw [Again, Turn.log_note, since_concat_iff] at hother
      rcases hother with hnote | ⟨-, hundone⟩
      · exact congrArg some (Note.again.inj (Prod.mk.inj hnote).2)
      · by_contra hdiffer
        exact hundone ⟨address, fun heq => hdiffer (congrArg some heq), .inr rfl⟩
  · exact ht

/-- **One move.** -/
theorem move (ht : Around L t) (h : Move L m t t') : Around L t' := by
  cases h with
  | quiet h =>
    simp only [Turn.essence, Prod.mk.injEq] at h
    obtain ⟨happ, hwindow, hlog, -, hvouched, hpinned, hretried⟩ := h
    exact ht.mere ⟨Turn.follows_of_eq hwindow hlog, happ, hvouched, hpinned, hretried, [],
      by rw [hlog, List.append_nil], by simp⟩
  | note n hn => exact ht.mere (Turn.mere_note (by cases n <;> first | rfl | cases hn))
  | vouch host =>
    refine ht.concat (n := .vouched host) rfl rfl rfl (by simp) (by simp) (fun kept hkept => ?_)
      (fun kept hkept => .inl hkept) (fun kept hkept => .inl hkept) fun address h => .inl h
    exact (mem_remember hkept).imp_right fun heq => by rw [heq]
  | pin host =>
    refine ht.concat (n := .pinned host) rfl rfl rfl (by simp) (by simp)
      (fun kept hkept => .inl hkept) (fun kept hkept => ?_) (fun kept hkept => .inl hkept)
      fun address h => .inl h
    exact (mem_remember hkept).imp_right fun heq => by rw [heq]
  | hear =>
    refine ht.concat (n := .said m.said) rfl rfl rfl (by simp) (by simp)
      (fun kept hkept => .inl hkept) (fun kept hkept => .inl hkept) (fun kept hkept => ?_)
      fun address h => .inl h
    exact (Application.mem_foldl_hear hkept).imp_right fun hsaid => ⟨_, rfl, hsaid⟩
  | start =>
    refine ht.concat (n := .started (t.pageAddress m)) rfl rfl rfl (by simp) (by simp)
      (fun kept hkept => .inl hkept) (fun kept hkept => .inl hkept) (fun kept hkept => .inl hkept)
      fun address haddress => ?_
    by_cases hnow : t.pageAddress m = address
    · refine .inl ?_
      subst hnow
      exact (if_pos haddress).trans haddress
    · exact .inr ⟨_, rfl, hnow⟩
  | change text => exact ht.mere (Turn.mere_didChange text)
  | leave byReturn => exact ht.mere (Turn.mere_didEndEditing byReturn)
  | go typed => exact ht.mere (Turn.mere_go typed)
  | page address why => exact ht.mere (Turn.mere_showPage address why)
  | startPage => exact ht.mere Turn.mere_showStartPage
  | shows address => exact ht.mere (Turn.mere_setShown address)
  | arrive => exact ht.mere Turn.mere_refreshAddress
  | retry app hosts address hsent hsigned hnew =>
    exact (ht.send hsent hsigned).loadAgain hnew ⟨hosts, by simp⟩

/-- **What the moves of a window keep**, of it and of the others. -/
theorem rule (L : Library) : Rule L (Around L) where
  move m t t' h ht := ht.move h
  other t t' window c hfollows hne ht' hc := by
    obtain ⟨-, more, hlog, hmore⟩ := hfollows
    have hmem : ∀ e ∈ t.log, e ∈ t'.log := fun e he => hlog ▸ List.mem_append_left _ he
    refine ⟨fun host hhost => hmem _ (hc.vouched host hhost), fun host hhost =>
      hmem _ (hc.pinned host hhost), ht'.heard, ht'.direct, ht'.excluding, ht'.sent, ht'.again,
      fun address hagain => hc.retried address ?_⟩
    change Again t'.log window address at hagain
    rwa [hlog, again_append_of_ne fun e he => (hmore e he).trans_ne hne.symm] at hagain
  new t browses hc ht := by
    refine ⟨fun host hhost => absurd hhost List.not_mem_nil,
      fun host hhost => absurd hhost List.not_mem_nil, ht.heard, ht.direct, ht.excluding,
      ht.sent, ht.again, fun address hagain => ?_⟩
    have := ht.retried address hagain
    rw [hc] at this
    cases this

theorem start (ready : Bool) (window : ℕ) : Around L ((State.start ready).view window) := by
  have hnone : ∀ address, ¬Again [] window address := by
    rintro address ⟨before, e, rest, heq, -⟩
    simp at heq
  exact ⟨fun host hhost => absurd hhost List.not_mem_nil,
    fun host hhost => absurd hhost List.not_mem_nil,
    fun host hhost => absurd hhost List.not_mem_nil, fun d hd => absurd hd List.not_mem_nil,
    ⟨Nat.zero_le _, .nil⟩, eachAfter_nil, eachAfter_nil,
    fun address hagain => absurd hagain (hnone address)⟩

end Around

variable {s : State} {ready : Bool} {events : List (Met × Event)}

theorem around_of_runs (h : Runs (Step L) (State.start ready) events s) (window : ℕ) :
    Around L (s.view window) :=
  ((Around.rule L).holds_of_runs (Around.start ready) h).windows window

/-- **Nothing goes around the proxy without a sign**, whatever happens in however many windows:
hosts are sent directly only when a window has a sign of its own that macOS refused them; a host
that goes around the proxy is one of these, or under one; and they are few, and none twice. -/
theorem signed_of_runs (h : Runs (Step L) (State.start ready) events s) :
    EachAfter (OnSign L) s.log ∧
      (∀ host, sentDirect host s.app.direct = true → ∃ domain window hosts,
        covered host domain = true ∧ domain ∈ hosts ∧ (window, .sent hosts) ∈ s.log) ∧
      s.app.direct.length ≤ directKept ∧
      s.app.direct.Pairwise fun d d' => covered d' d = false := by
  have haround := around_of_runs h 0
  refine ⟨haround.sent, fun host hhost => ?_, haround.excluding⟩
  obtain ⟨domain, hdomain, hcovered⟩ := List.any_eq_true.mp hhost
  obtain ⟨window, hosts, hsent, hmem⟩ := haround.direct domain hdomain
  exact ⟨domain, window, hosts, hcovered, hmem, hsent⟩

/-- A parser that reads one address, and a macOS that reads every one. -/
def sampleLibrary : Library where
  parse text := if text = "https://github.com/" then some ⟨"https", some (.domain "github.com")⟩
    else none
  hostStr _ := "github.com"
  nsUrl _ := true

/-- The web view is at this page; macOS takes any configuration. -/
def metAt (address : String) : Met where
  url := some (address, "https")
  search _ := none
  href text := text
  said := []
  excludes := true
  macos := 15
  made := true

/-- The page is opened, and macOS fails its connection after the window vouched for it. -/
def refusedOnce : List (Met × Event) :=
  let met := metAt "https://github.com/"
  let error : NSError :=
    ⟨"NSURLErrorDomain", -1200, some "https://github.com/", "A secure connection failed."⟩
  [(met, .opens .page), (met, .told 1 (.change "https://github.com/")), (met, .told 1 .navigate),
    (met, .told 1 .start), (met, .told 1 (.challenge (some "github.com") ⟨0, false⟩)),
    (met, .told 1 (.failProvisional error)), (met, .told 1 .start),
    (met, .told 1 (.failProvisional error))]

/-- The host is sent directly, once, and then the failure is shown. -/
def sentOnce (s : State) : Bool :=
  s.app.direct = ["github.com"] &&
    (s.log.filter fun e => e.2 = .again "https://github.com/").length = 1 &&
    (s.log.getLast?.map Prod.snd =
      some (.own (some ("https://github.com/", "A secure connection failed."))))

theorem signed_of_runs_once : ∃ s, Runs (Step sampleLibrary) (State.start true) refusedOnce s ∧
    sentOnce s = true ∧ EachAfter (OnSign sampleLibrary) s.log := by
  obtain ⟨s, hruns, hsent⟩ : ∃ s, Runs (Step sampleLibrary) (State.start true) refusedOnce s ∧
      sentOnce s = true := exists_runs_of_follow (by decide +kernel)
  exact ⟨s, hruns, hsent, (signed_of_runs hruns).1⟩

/-- **A page is loaded again by itself once**: just after hosts were sent directly for it, and not
again until the window has started another page, or has loaded another one again. -/
theorem reloadedOnce_of_runs (h : Runs (Step L) (State.start ready) events s) :
    EachAfter Once s.log := (around_of_runs h 0).again

theorem reloadedOnce_of_runs_twice : ∃ s,
    Runs (Step sampleLibrary) (State.start true) refusedOnce s ∧
      sentOnce s = true ∧ EachAfter Once s.log := by
  obtain ⟨s, hruns, hsent⟩ : ∃ s, Runs (Step sampleLibrary) (State.start true) refusedOnce s ∧
      sentOnce s = true := exists_runs_of_follow (by decide +kernel)
  exact ⟨s, hruns, hsent, reloadedOnce_of_runs hruns⟩

end Syndeo.App.Browser
