import Mathlib.Data.List.Infix
import Syndeo.Concurrent.Events
import Syndeo.Http.Text
import Syndeo.Ipc.Frame

/-!
# What is loaded, and what is shown

The window asks a worker for pages, statistics and peers through one channel, and hears what came
of it through another; between them both go on as they please, and the person may ask for another
page before the last one has come. The worker asks the network process for one thing at a time.

Every page that is asked for is taken once and answered once, in the order in which they were
asked for, and what is shown is the page that was answered last
(`Syndeo.Ui.Browsing.browsed_of_runs`).
-/

namespace Syndeo

namespace Ui

namespace Browsing

open Text

/-- `Work`. -/
inductive Work
  | load (url : String)
  | stats
  | peers
  | quit
  deriving DecidableEq

/-- `Done`, over the statistics and the peers' report. -/
inductive Done (S V : Type)
  | loaded (url : String) (fetched : Fetched)
  | failed (url error : String)
  | stats (stats : S)
  | peers (value : V)
  | peersUnavailable (why : String)
  deriving DecidableEq

/-- What is not of this program: a document that is parsed, its title, and the site of a URL. -/
structure World (D : Type) where
  parse : Bytes → String → D
  title : D → Option String
  /-- `partition_for`. -/
  partitionFor : String → Option String

/-- `Page`. -/
structure Page (D : Type) where
  url : String
  status : ℕ
  source : String
  protocol : String
  elapsedMs : ℕ
  bytes : ℕ
  content : Option String
  document : D

variable {S V D : Type}

/-- `page_from`. -/
def pageFrom (W : World D) (url : String) (fetched : Fetched) : Page D where
  url := url
  status := fetched.status
  source := fetched.source
  protocol := fetched.protocol
  elapsedMs := fetched.elapsedMs
  bytes := fetched.body.length
  content := fetched.content
  document := W.parse fetched.body url

/-- `Page::title`. -/
def Page.title (W : World D) (page : Page D) : String := (W.title page.document).getD page.url

/-- What `load` asks of the network process. -/
def requestOf (W : World D) (url : String) : NetRequest :=
  .fetch "GET" url [("accept", "text/html,*/*")] [] none (W.partitionFor url)

/-- The worker: it waits for work, does some, or has returned. -/
inductive Worker
  | waiting
  | busy (job : Work)
  | gone

/-- What happened. -/
inductive Entry (S V : Type)
  /-- A page is asked for. -/
  | asked (url : String)
  /-- The worker takes it, and what it asks, if it reaches the network process. -/
  | took (url : String) (request : Option NetRequest)
  /-- The window hears what came of something. -/
  | heard (done : Done S V)

/-- `App`, with the two channels and the worker at their ends. -/
structure Window (S V D : Type) where
  address : String
  page : Option (Page D)
  loading : Bool
  error : Option String
  history : List String
  stats : Option S
  peers : Option V
  peersNote : Option String
  title : Option String
  work : List Work
  done : List (Done S V)
  worker : Worker
  /-- The window is dropped, and its ends of the channels. -/
  dropped : Bool
  log : List (Entry S V)

/-- What happens. -/
inductive Event (S V : Type)
  /-- The text of the address field is changed. -/
  | types (text : String)
  /-- Return in it. -/
  | enter
  | follow (url : String)
  | back
  | reload
  /-- A panel is shown, or asks again. -/
  | showCache
  | showPeers
  /-- One turn of `drain`'s loop. -/
  | hears
  | exits
  | drops
  /-- The worker takes what is next; whether it reaches the network process. -/
  | takes (reaches : Bool)
  /-- What came of it, whichever it was. -/
  | answers (loaded : Except String Fetched) (stats : Option S) (peers : Except String V)

namespace Window

variable (W : World D) (s : Window S V D)

/-- A page is asked for; nothing is said if the worker is gone, which then never takes it. -/
def ask (url : String) : Window S V D :=
  { s with work := s.work ++ [.load url], log := s.log ++ [.asked url] }

def send (job : Work) : Window S V D := { s with work := s.work ++ [job] }

/-- `App::new`. -/
def start (S V D : Type) (start : Option String) : Window S V D :=
  let s : Window S V D :=
    ⟨start.getD "", none, false, none, [], none, none, none, none, [], [], .waiting, false, []⟩
  (start.elim s s.ask).send .stats

/-- `App::load`. -/
def load (url : String) : Window S V D :=
  let trimmed := trim url
  if trimmed = "" then s
  else
    let url := if "://".toList <:+: trimmed.toList then trimmed else "https://" ++ trimmed
    { s with
      history := s.history ++ (s.page.map Page.url).toList
      address := url
      loading := true
      error := none }.ask url

/-- `App::back`. -/
def back : Window S V D :=
  match s.history.getLast? with
  | none => s
  | some previous =>
    { s with
      history := s.history.dropLast
      address := previous
      loading := true
      error := none }.ask previous

/-- What is heard is shown. -/
def hear (done : Done S V) : Window S V D :=
  match done with
  | .loaded url fetched =>
    let page := pageFrom W url fetched
    { s with
      loading := false
      error := none
      address := url
      title := some (page.title W)
      page := some page }.send .stats
  | .failed url error => { s with loading := false, error := some (url ++ ": " ++ error) }
  | .stats stats => { s with stats := some stats }
  | .peers value => { s with peers := some value, peersNote := none }
  | .peersUnavailable why => { s with peers := none, peersNote := some why }

/-- One turn of the loop in `App::drain`. -/
def hears : Option (Window S V D) :=
  match s.done with
  | [] => none
  | done :: rest =>
    let heard : Window S V D := { s with done := rest, log := s.log ++ [.heard done] }
    some (heard.hear W done)

/-- `serve`, as it takes what is next: it returns at a `Quit`, and once nobody can send any more. -/
def takes (reaches : Bool) : Option (Window S V D) :=
  match s.worker, s.work with
  | .waiting, .load url :: rest => some { s with
      work := rest
      worker := .busy (.load url)
      log := s.log ++ [.took url (if reaches then some (requestOf W url) else none)] }
  | .waiting, .quit :: rest => some { s with work := rest, worker := .gone }
  | .waiting, job :: rest => some { s with work := rest, worker := .busy job }
  | .waiting, [] => if s.dropped then some { s with worker := .gone } else none
  | _, _ => none

/-- The worker sends what came of it; where nobody is left to hear it, it returns. -/
def sends (done : Done S V) : Window S V D :=
  if s.dropped then { s with worker := .gone }
  else { s with done := s.done ++ [done], worker := .waiting }

/-- `serve`, as what it was doing is over. -/
def answers (loaded : Except String Fetched) (stats : Option S) (peers : Except String V) :
    Option (Window S V D) :=
  match s.worker with
  | .busy (.load url) => some (s.sends (match loaded with
      | .ok fetched => .loaded url fetched
      | .error error => .failed url error))
  | .busy .stats => some (match stats with
      | some stats => s.sends (.stats stats)
      | none => { s with worker := .waiting })
  | .busy .peers => some (s.sends (match peers with
      | .ok value => .peers value
      | .error why => .peersUnavailable why))
  | _ => none

/-- **One event.** -/
def after : Event S V → Option (Window S V D)
  | .types text => some { s with address := text }
  | .enter => some (s.load s.address)
  | .follow url => some (s.load url)
  | .back => some s.back
  | .reload => some ({ s with loading := true }.ask s.address)
  | .showCache => some (s.send .stats)
  | .showPeers => some (s.send .peers)
  | .hears => s.hears W
  | .exits => some (s.send .quit)
  | .drops => some { s with dropped := true }
  | .takes reaches => s.takes W reaches
  | .answers loaded stats peers => s.answers loaded stats peers

/-- Nothing happens in a window that was dropped. -/
def mayHappen : Event S V → Bool
  | .takes _ | .answers .. => true
  | _ => !s.dropped

end Window

/-- One step. -/
abbrev Step (W : World D) : Window S V D → Event S V → Window S V D → Prop :=
  Events.stepOf (fun s e => s.mayHappen e = true) fun s e => s.after W e

/-! ### What the history says -/

/-- The page that something is the answer for. -/
def Done.url? : Done S V → Option String
  | .loaded url _ | .failed url _ => some url
  | _ => none

/-- The pages that were asked for. -/
def askedIn (log : List (Entry S V)) : List String :=
  log.filterMap fun e =>
    match e with
    | .asked url => some url
    | _ => none

/-- Those that the worker took. -/
def takenIn (log : List (Entry S V)) : List String :=
  log.filterMap fun e =>
    match e with
    | .took url _ => some url
    | _ => none

/-- Those that were answered. -/
def answeredIn (log : List (Entry S V)) : List String :=
  log.filterMap fun e =>
    match e with
    | .heard done => done.url?
    | _ => none

/-- The pages that came. -/
def shownIn (W : World D) (log : List (Entry S V)) : List (Page D) :=
  log.filterMap fun e =>
    match e with
    | .heard (.loaded url fetched) => some (pageFrom W url fetched)
    | _ => none

/-- **What may happen after a history**: the next page that was asked for is taken, with its own
site's partition if at all; the next that was taken is answered. -/
def Right (W : World D) (before : List (Entry S V)) : Entry S V → Prop
  | .took url request => takenIn before ++ [url] <+: askedIn before ∧
      ∀ r, request = some r → r = requestOf W url
  | .heard done => ∀ url, done.url? = some url → answeredIn before ++ [url] <+: takenIn before
  | .asked _ => True

/-- The pages among what is to be done. -/
def loadsIn (work : List Work) : List String :=
  work.filterMap fun job =>
    match job with
    | .load url => some url
    | _ => none

/-- The page that the worker is at. -/
def Worker.load? : Worker → List String
  | .busy (.load url) => [url]
  | _ => []

/-- **What the state keeps.** -/
structure Sound (W : World D) (s : Window S V D) : Prop where
  taken : takenIn s.log ++ loadsIn s.work = askedIn s.log
  /-- Those that were taken are answered, or will be. -/
  answered : s.dropped = false →
    answeredIn s.log ++ s.done.filterMap Done.url? ++ s.worker.load? = takenIn s.log
  known : answeredIn s.log <+: takenIn s.log
  loading : s.loading = true → (answeredIn s.log).length < (askedIn s.log).length
  page : s.page = (shownIn W s.log).getLast?
  history : ∀ url ∈ s.history, ∃ page ∈ shownIn W s.log, page.url = url
  right : Events.EachAfter (Right W) s.log

/-! ### One thing more -/

section

variable {W : World D} {s s' : Window S V D} {log : List (Entry S V)}

theorem askedIn_concat {e : Entry S V} : askedIn (log ++ [e]) =
    match e with
    | .asked url => askedIn log ++ [url]
    | _ => askedIn log := by
  rw [askedIn, List.filterMap_append]
  cases e with
  | asked url => rfl
  | took url request => exact List.append_nil _
  | heard done => exact List.append_nil _

theorem takenIn_concat {e : Entry S V} : takenIn (log ++ [e]) =
    match e with
    | .took url _ => takenIn log ++ [url]
    | _ => takenIn log := by
  rw [takenIn, List.filterMap_append]
  cases e with
  | asked url => exact List.append_nil _
  | took url request => rfl
  | heard done => exact List.append_nil _

theorem answeredIn_concat {e : Entry S V} : answeredIn (log ++ [e]) =
    match e with
    | .heard done => answeredIn log ++ done.url?.toList
    | _ => answeredIn log := by
  rw [answeredIn, List.filterMap_append]
  cases e with
  | asked url => exact List.append_nil _
  | took url request => exact List.append_nil _
  | heard done => cases done <;> rfl

theorem shownIn_concat {e : Entry S V} : shownIn W (log ++ [e]) =
    match e with
    | .heard (.loaded url fetched) => shownIn W log ++ [pageFrom W url fetched]
    | _ => shownIn W log := by
  rw [shownIn, List.filterMap_append]
  cases e with
  | asked url => exact List.append_nil _
  | took url request => exact List.append_nil _
  | heard done =>
    cases done with
    | loaded url fetched => rfl
    | _ => exact List.append_nil _

theorem loadsIn_concat {work : List Work} {job : Work} : loadsIn (work ++ [job]) =
    match job with
    | .load url => loadsIn work ++ [url]
    | _ => loadsIn work := by
  rw [loadsIn, List.filterMap_append]
  cases job with
  | load url => rfl
  | _ => exact List.append_nil _

theorem mem_shownIn_concat {e : Entry S V} {page : Page D} (h : page ∈ shownIn W log) :
    page ∈ shownIn W (log ++ [e]) := by
  rw [shownIn, List.filterMap_append]
  exact List.mem_append_left _ h

/-- Nothing is answered that was not asked for. -/
theorem Sound.le (h : Sound W s) : (answeredIn s.log).length ≤ (askedIn s.log).length := by
  rw [← h.taken, List.length_append]
  exact h.known.length_le.trans (Nat.le_add_right _ _)

/-- What changes nothing of the channels and the history keeps it. -/
theorem Sound.mere (h : Sound W s) (hlog : s'.log = s.log)
    (hwork : loadsIn s'.work = loadsIn s.work) (hdone : s'.done = s.done)
    (hworker : s'.worker.load? = s.worker.load?) (hdropped : s'.dropped = false → s.dropped = false)
    (hloading : s'.loading = s.loading) (hpage : s'.page = s.page)
    (hhistory : s'.history = s.history) : Sound W s' where
  taken := by rw [hlog, hwork]; exact h.taken
  answered := by rw [hlog, hdone, hworker]; exact fun hd => h.answered (hdropped hd)
  known := by rw [hlog]; exact h.known
  loading := by rw [hlog, hloading]; exact h.loading
  page := by rw [hlog, hpage]; exact h.page
  history := by rw [hlog, hhistory]; exact h.history
  right := by rw [hlog]; exact h.right

theorem Sound.send (h : Sound W s) {job : Work} (hjob : ∀ url, job ≠ .load url) :
    Sound W (s.send job) := by
  refine h.mere rfl ?_ rfl rfl id rfl rfl rfl
  rw [Window.send, loadsIn_concat]
  cases job with
  | load url => exact absurd rfl (hjob url)
  | _ => rfl

/-- **A page is asked for**, and something of the window is changed with it. -/
theorem Sound.ask (h : Sound W s) (url : String) {address : String} {loading : Bool}
    {error : Option String} {history : List String}
    (hhistory : ∀ url ∈ history, ∃ page ∈ shownIn W s.log, page.url = url) :
    Sound W (Window.ask { s with address, error, history, loading } url) where
  taken := by
    rw [Window.ask, takenIn_concat, askedIn_concat, loadsIn_concat]
    dsimp only
    rw [← List.append_assoc, h.taken]
  answered := by
    rw [Window.ask, takenIn_concat, answeredIn_concat]
    exact h.answered
  known := by
    rw [Window.ask, takenIn_concat, answeredIn_concat]
    exact h.known
  loading := by
    intro _
    rw [Window.ask, answeredIn_concat, askedIn_concat]
    dsimp only
    rw [List.length_append]
    exact Nat.lt_succ_of_le h.le
  page := by
    rw [Window.ask, shownIn_concat]
    exact h.page
  history := by
    rw [Window.ask, shownIn_concat]
    exact hhistory
  right := Events.eachAfter_concat.mpr ⟨h.right, trivial⟩

theorem Sound.load (h : Sound W s) (url : String) : Sound W (s.load url) := by
  rw [Window.load]
  dsimp only
  split_ifs
  · exact h
  all_goals
    refine h.ask _ fun earlier hearlier => ?_
    rcases List.mem_append.mp hearlier with hearlier | hearlier
    · exact h.history earlier hearlier
    · -- the page that is shown goes into the history
      obtain ⟨page, hpage, rfl⟩ := Option.map_eq_some_iff.mp (Option.mem_toList.mp hearlier)
      rw [h.page] at hpage
      exact ⟨page, List.mem_of_getLast? hpage, rfl⟩

theorem Sound.back (h : Sound W s) : Sound W s.back := by
  rw [Window.back]
  split
  · exact h
  · exact h.ask _ fun earlier hearlier => h.history earlier (List.dropLast_subset _ hearlier)

/-! ### The window hears -/

/-- **The next answer is heard**, and the window shows it. -/
theorem Sound.hears (h : Sound W s) (hdropped : s.dropped = false) (hs : s.hears W = some s') :
    Sound W s' := by
  rw [Window.hears] at hs
  split at hs
  · cases hs
  · rename_i done rest hdone
    obtain rfl := Option.some.inj hs
    have hanswered := h.answered hdropped
    rw [hdone] at hanswered
    -- the answer is the next one that is due
    have hright : Right W s.log (.heard done) := by
      intro url hurl
      rw [List.filterMap_cons, hurl] at hanswered
      refine ⟨rest.filterMap Done.url? ++ s.worker.load?, ?_⟩
      rw [← hanswered]
      simp
    have hknown : answeredIn (s.log ++ [.heard done]) <+: takenIn (s.log ++ [.heard done]) := by
      rw [answeredIn_concat, takenIn_concat]
      dsimp only
      rcases hurl : done.url? with _ | url
      · rw [Option.toList_none, List.append_nil]
        exact h.known
      · exact hright url hurl
    have heach : Events.EachAfter (Right W) (s.log ++ [.heard done]) :=
      Events.eachAfter_concat.mpr ⟨h.right, hright⟩
    have hrest : answeredIn (s.log ++ [.heard done]) ++ rest.filterMap Done.url? ++
        s.worker.load? = takenIn (s.log ++ [.heard done]) := by
      rw [answeredIn_concat, takenIn_concat]
      dsimp only
      rw [← hanswered, List.filterMap_cons]
      rcases done.url? with _ | url
      · rw [Option.toList_none, List.append_nil]
      · simp
    have hbase : ∀ t : Window S V D, t.log = s.log ++ [.heard done] →
        loadsIn t.work = loadsIn s.work → t.done = rest → t.worker = s.worker →
        (t.loading = true → (answeredIn t.log).length < (askedIn t.log).length) →
        t.page = (shownIn W t.log).getLast? → t.history = s.history → Sound W t := by
      intro t hlog hwork hdone hworker hloading hpage hhistory
      exact
        { taken := by
            rw [hlog, hwork, takenIn_concat, askedIn_concat]
            exact h.taken
          answered := fun _ => by
            rw [hlog, hdone, hworker]
            exact hrest
          known := by
            rw [hlog]
            exact hknown
          loading := hloading
          page := hpage
          history := by
            rw [hhistory, hlog]
            intro url hurl
            obtain ⟨page, hmem, heq⟩ := h.history url hurl
            exact ⟨page, mem_shownIn_concat hmem, heq⟩
          right := by
            rw [hlog]
            exact heach }
    cases done with
    | loaded url fetched =>
      refine hbase _ rfl ?_ rfl rfl (fun hfalse => by cases hfalse) ?_ rfl
      · exact loadsIn_concat
      · show some (pageFrom W url fetched) = (shownIn W (s.log ++ [_])).getLast?
        rw [shownIn_concat]
        exact List.getLast?_concat.symm
    | failed url error =>
      refine hbase _ rfl rfl rfl rfl (fun hfalse => by cases hfalse) ?_ rfl
      show s.page = (shownIn W (s.log ++ [_])).getLast?
      rw [shownIn_concat]
      exact h.page
    | _ =>
      refine hbase _ rfl rfl rfl rfl (fun hloading => ?_) ?_ rfl
      · show (answeredIn (s.log ++ [_])).length < (askedIn (s.log ++ [_])).length
        rw [answeredIn_concat, askedIn_concat]
        simpa [Done.url?] using h.loading hloading
      · show s.page = (shownIn W (s.log ++ [_])).getLast?
        rw [shownIn_concat]
        exact h.page

/-! ### The worker -/

/-- **The next job is taken.** -/
theorem Sound.takes {reaches : Bool} (h : Sound W s) (hs : s.takes W reaches = some s') :
    Sound W s' := by
  rw [Window.takes.eq_def] at hs
  split at hs
  · rename_i url rest hworker hwork
    obtain rfl := Option.some.inj hs
    have htaken : takenIn s.log ++ url :: loadsIn rest = askedIn s.log := by
      rw [← h.taken, hwork]
      rfl
    exact
      { taken := by
          rw [takenIn_concat, askedIn_concat]
          dsimp only
          rw [List.append_assoc]
          exact htaken
        answered := by
          intro hdropped
          have hanswered := h.answered hdropped
          rw [hworker] at hanswered
          rw [answeredIn_concat, takenIn_concat]
          dsimp only
          rw [← hanswered]
          exact congrArg (· ++ [url]) (List.append_nil _).symm
        known := by
          rw [answeredIn_concat, takenIn_concat]
          exact h.known.trans (List.prefix_append _ _)
        loading := by
          rw [answeredIn_concat, askedIn_concat]
          exact h.loading
        page := by
          rw [shownIn_concat]
          exact h.page
        history := by
          rw [shownIn_concat]
          exact h.history
        right := by
          refine Events.eachAfter_concat.mpr ⟨h.right, ⟨loadsIn rest, ?_⟩, ?_⟩
          · rw [List.append_assoc]
            exact htaken
          · intro r hr
            split_ifs at hr
            exact (Option.some.inj hr).symm }
  · rename_i rest hworker hwork
    obtain rfl := Option.some.inj hs
    exact h.mere rfl (by rw [hwork]; rfl) rfl (by rw [hworker]; rfl) id rfl rfl rfl
  · rename_i job rest hnotLoad hnotQuit hworker hwork
    obtain rfl := Option.some.inj hs
    cases job with
    | load url => exact absurd rfl (hnotLoad url)
    | _ => exact h.mere rfl (by rw [hwork]; rfl) rfl (by rw [hworker]; rfl) id rfl rfl rfl
  · rename_i hworker hwork
    split_ifs at hs
    obtain rfl := Option.some.inj hs
    exact h.mere rfl rfl rfl (by rw [hworker]; rfl) id rfl rfl rfl
  · cases hs

/-- What came of it is sent, or nobody is left to hear it. -/
theorem Sound.sends (h : Sound W s) {done : Done S V} (hurl : done.url?.toList = s.worker.load?) :
    Sound W (s.sends done) := by
  rw [Window.sends]
  split_ifs with hdropped
  · exact { h with answered := fun hfalse => absurd (hdropped.symm.trans hfalse) (by decide) }
  · refine { h with answered := fun hfalse => ?_ }
    rw [← h.answered hfalse, ← hurl]
    cases done <;> simp [Done.url?, Worker.load?]

theorem Sound.answers {loaded : Except String Fetched} {stats : Option S} {peers : Except String V}
    (h : Sound W s) (hs : s.answers loaded stats peers = some s') : Sound W s' := by
  rw [Window.answers.eq_def] at hs
  split at hs
  · rename_i url hworker
    obtain rfl := Option.some.inj hs
    refine h.sends ?_
    rw [hworker]
    cases loaded <;> rfl
  · rename_i hworker
    obtain rfl := Option.some.inj hs
    cases stats with
    | some stats => exact h.sends (by rw [hworker]; rfl)
    | none => exact h.mere rfl rfl rfl (by rw [hworker]; rfl) id rfl rfl rfl
  · rename_i hworker
    obtain rfl := Option.some.inj hs
    refine h.sends ?_
    rw [hworker]
    cases peers <;> rfl
  · cases hs

/-! ### Every run -/

theorem sound_start (start : Option String) : Sound W (Window.start S V D start) := by
  cases start with
  | none =>
    exact
      { taken := rfl
        answered := fun _ => rfl
        known := List.prefix_refl _
        loading := fun hfalse => by cases hfalse
        page := rfl
        history := fun url hurl => absurd hurl List.not_mem_nil
        right := Events.eachAfter_nil }
  | some url =>
    exact
      { taken := rfl
        answered := fun _ => rfl
        known := List.prefix_refl _
        loading := fun hfalse => by cases hfalse
        page := rfl
        history := fun url hurl => absurd hurl List.not_mem_nil
        right := Events.eachAfter_concat.mpr ⟨Events.eachAfter_nil, trivial⟩ }

theorem sound_step {e : Event S V} (h : Sound W s) (hstep : Step W s e s') : Sound W s' := by
  have hmay : s.mayHappen e = true := hstep.1
  have hafter : s.after W e = some s' := hstep.2
  cases e with
  | types text =>
    obtain rfl := Option.some.inj hafter
    exact h.mere rfl rfl rfl rfl id rfl rfl rfl
  | enter =>
    obtain rfl := Option.some.inj hafter
    exact h.load _
  | follow url =>
    obtain rfl := Option.some.inj hafter
    exact h.load url
  | back =>
    obtain rfl := Option.some.inj hafter
    exact h.back
  | reload =>
    obtain rfl := Option.some.inj hafter
    exact h.ask _ h.history
  | showCache =>
    obtain rfl := Option.some.inj hafter
    exact h.send fun url hload => by cases hload
  | showPeers =>
    obtain rfl := Option.some.inj hafter
    exact h.send fun url hload => by cases hload
  | hears =>
    have hdropped : s.dropped = false := by simpa [Window.mayHappen] using hmay
    exact h.hears hdropped hafter
  | exits =>
    obtain rfl := Option.some.inj hafter
    exact h.send fun url hload => by cases hload
  | drops =>
    obtain rfl := Option.some.inj hafter
    exact h.mere rfl rfl rfl rfl (fun hfalse => by cases hfalse) rfl rfl rfl
  | takes reaches => exact h.takes hafter
  | answers loaded stats peers => exact h.answers hafter

/-- **Every page that is asked for is answered once, in order, and the last answer is shown.**
However the person's requests, the worker and the network take their turns: a page is taken, and
asked of the network process with its own site's partition, in the order in which pages were asked
for and each once; each is answered in that order and once; the page that is shown is the last
that came, and the pages to go back to are such as came. The window says that it is loading only
while an answer is due, and once nothing is on the way everything has been answered. -/
theorem browsed_of_runs {start : Option String} {events : List (Event S V)}
    (h : Events.Runs (Step W) (Window.start S V D start) events s) :
    Events.EachAfter (Right W) s.log ∧ s.page = (shownIn W s.log).getLast? ∧
      (∀ url ∈ s.history, ∃ page ∈ shownIn W s.log, page.url = url) ∧
      (s.loading = true → (answeredIn s.log).length < (askedIn s.log).length) ∧
      (s.dropped = false → s.work = [] → s.done = [] → s.worker.load? = [] →
        answeredIn s.log = askedIn s.log) := by
  have hsound : Sound W s :=
    h.invariant (fun _ _ _ hs hstep => sound_step hs hstep) (sound_start start)
  refine ⟨hsound.right, hsound.page, hsound.history, hsound.loading, ?_⟩
  intro hdropped hwork hdone hworker
  have hanswered := hsound.answered hdropped
  have htaken := hsound.taken
  rw [hdone, hworker] at hanswered
  rw [hwork] at htaken
  simpa [loadsIn, ← htaken] using hanswered

end

/-- A page is its number of bytes, and has no title. -/
def sampleWorld : World ℕ := ⟨fun bytes _ => bytes.length, fun _ => none, some⟩

def sampleFetched : Fetched := ⟨200, [], [60, 62], "network", "h2", 5, none⟩

/-- A second page is asked for before the first has come, and cannot be had. -/
def twoPages : List (Event Unit Unit) :=
  [.takes true, .types "a.example", .enter, .answers (.error "") (some ()) (.error ""),
    .follow "https://b.example/", .takes true, .answers (.ok sampleFetched) none (.error ""),
    .takes false, .hears, .hears, .answers (.error "no route") none (.error ""), .hears]

/-- The first page is shown, with what became of the second. -/
def firstShown (s : Window Unit Unit ℕ) : Bool :=
  decide (s.page.map Page.url = some "https://a.example") && !s.loading &&
    decide (s.error = some "https://b.example/: no route") && s.done.isEmpty

theorem browsed_of_runs_two : ∃ s,
    Events.Runs (Step sampleWorld) (Window.start Unit Unit ℕ none) twoPages s ∧
      firstShown s = true ∧ Events.EachAfter (Right sampleWorld) s.log := by
  obtain ⟨s, hruns, hshown⟩ : ∃ s,
      Events.Runs (Step sampleWorld) (Window.start Unit Unit ℕ none) twoPages s ∧
        firstShown s = true := Events.exists_runs_of_follow (by decide +kernel)
  exact ⟨s, hruns, hshown, (browsed_of_runs hruns).1⟩

end Browsing

end Ui

end Syndeo
