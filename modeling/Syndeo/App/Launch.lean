import Syndeo.App.Browser
import Syndeo.Proxy.Owned

/-!
# What a window may hold

The application decides once, as it is launched, whether it can browse: its proxy has to start,
a web view has to be routed through it, and the proxy's certificate authority has to be there
and to be pinned. Whatever fails, the application does not browse, and a proxy that had been
started by then is stopped. A window that is made after that is routed and pinned anew, and
where that fails it holds a view that says why and cannot reach the network.

So there is no web view but one that goes through the proxy of this launch with its credential,
and takes that proxy's authority and no other (`Syndeo.App.Launch.launched_of_runs`). Addresses
that other applications ask for before the launch wait for it, and none is lost.
-/

namespace Syndeo.App

namespace Launch

open Proxy

/-! ### The decisions -/

/-- `ProxyTarget`; the credential is the password that goes with `USER`. -/
structure ProxyTarget where
  host : String
  port : String
  credential : Option String
  deriving DecidableEq

/-- `Engine`: the pieces a window's content is made of. -/
structure Engine (Config Pinner WebView View Delegate : Type) where
  configure : ProxyTarget → Except String Config
  pinner : String → Except String Pinner
  webView : Config → WebView
  pin : WebView → Pinner → Option Delegate
  error : String → View

/-- `Browsing`. -/
structure Browsing (Pinner : Type) where
  target : ProxyTarget
  pinner : Pinner

/-- `Readiness`. -/
inductive Readiness (S Pinner : Type)
  | ready (proxy : S) (browsing : Browsing Pinner)
  | notReady (reason : String)

/-- `Content`. -/
inductive Content (WebView View Delegate : Type)
  | browser (view : WebView) (delegate : Delegate)
  | refused (view : View)
  deriving DecidableEq

/-- `cannot_browse`. -/
def cannotBrowse (reason : String) : String :=
  "Syndeo can't open websites right now.\n\n" ++ reason ++
    "\n\nQuit Syndeo and open it again. If this keeps happening, reinstall Syndeo."

section

variable {Config Pinner WebView View Delegate S : Type}

/-- `prepare`; and the proxies that are dropped, which stops them. -/
def prepare (engine : Engine Config Pinner WebView View Delegate)
    (start : Except String (S × ProxyTarget)) (authority : Except String String) :
    Readiness S Pinner × List S :=
  match start with
  | .error err => (.notReady ("Syndeo could not start its local proxy: " ++ err), [])
  | .ok (proxy, target) =>
    match engine.configure target with
    | .error err =>
      (.notReady ("Syndeo could not route its web views through its local proxy: " ++ err), [proxy])
    | .ok _ =>
      match authority with
      | .error err =>
        (.notReady ("Syndeo's certificate authority is missing or damaged: " ++ err), [proxy])
      | .ok pem =>
        match engine.pinner pem with
        | .error err =>
          (.notReady ("Syndeo could not pin its certificate authority: " ++ err), [proxy])
        | .ok pinner => (.ready proxy ⟨target, pinner⟩, [])

/-- `content`. -/
def content (engine : Engine Config Pinner WebView View Delegate)
    (browsing : Option (Browsing Pinner)) (reason : String) : Content WebView View Delegate :=
  match browsing with
  | none => .refused (engine.error (cannotBrowse reason))
  | some browsing =>
    match engine.configure browsing.target with
    | .error err => .refused (engine.error (cannotBrowse
        ("Syndeo could not route this window through its local proxy: " ++ err)))
    | .ok config =>
      match engine.pin (engine.webView config) browsing.pinner with
      | none => .refused (engine.error (cannotBrowse
          "Syndeo could not pin this window to its certificate authority."))
      | some delegate => .browser (engine.webView config) delegate

end

/-! ### The application -/

/-- What became of the launch: whether the proxy is found beside the application, and a token is
read for it; the child; the authority that is read; and how many windows the last session, or a
start page, calls for. -/
structure Launched where
  beside : Except String Unit
  token : Except String Bytes
  child : Child
  authority : Except String String
  first : ℕ

/-- What the application runs in. -/
structure World (Config Pinner WebView View Delegate : Type) where
  /-- The engine, as it is when it is asked for the `n`-th time. -/
  engine : ℕ → Engine Config Pinner WebView View Delegate
  /-- Whether a text is an IPv6 socket address. -/
  isV6 : List Char → Bool
  /-- What is said of a proxy that was not started. -/
  explain : NotStarted → String

/-- The target of the web views of a proxy that is owned. -/
def target (endpoint : SocketAddrV4) (token : Bytes) : ProxyTarget where
  host := String.ofList endpoint.ipText
  port := String.ofList endpoint.portText
  credential := some (ProxyCredential.password token)

/-- `start_proxy`, and where its web views are to send everything; nothing while it waits. -/
def startProxy (isV6 : List Char → Bool) (explain : NotStarted → String) (launch : Launched) :
    Option (Except String (SocketAddrV4 × ProxyTarget)) :=
  match launch.beside, launch.token with
  | .error err, _ => some (.error err)
  | .ok _, .error err => some (.error err)
  | .ok _, .ok token =>
    match startOwned isV6 10000 launch.child with
    | .waiting => none
    | .failed why _ => some (.error (explain why))
    | .owned endpoint => some (.ok (endpoint, target endpoint token))

/-- What happened. -/
inductive Entry
  /-- The launch started a proxy, and the engine it asked for had this number. -/
  | started (n : ℕ) (launch : Launched) (endpoint : SocketAddrV4)
  | stopped (endpoint : SocketAddrV4)
  | asked (address : String)
  /-- The window is made for an address that was asked for. -/
  | opened (address : String) (window : ℕ)

/-- `State`. -/
structure State (Pinner WebView View Delegate : Type) where
  launched : Bool
  proxy : Option SocketAddrV4
  browsing : Option (Browsing Pinner)
  notReady : String
  asked : List String
  /-- The windows, each with the number of the engine it was made by. -/
  windows : List (ℕ × Content WebView View Delegate)
  next : ℕ
  log : List Entry

/-- What happens. -/
inductive Event
  /-- `application:openURLs:`. -/
  | openUrls (addresses : List String)
  /-- `applicationDidFinishLaunching:`. -/
  | didFinishLaunching (launch : Launched)
  /-- A window or a tab is made, for whomever. -/
  | newWindow
  | closed (window : ℕ)
  /-- `applicationWillTerminate:`. -/
  | willTerminate

namespace State

variable {Config Pinner WebView View Delegate : Type}

/-- Nothing is decided yet. -/
def start : State Pinner WebView View Delegate := ⟨false, none, none, "", [], [], 0, []⟩

variable (W : World Config Pinner WebView View Delegate) (s : State Pinner WebView View Delegate)

/-- `new_window`. -/
def newWindow : State Pinner WebView View Delegate :=
  { s with
    windows := s.windows ++ [(s.next, content (W.engine s.next) s.browsing s.notReady)]
    next := s.next + 1 }

/-- `open_asked`. -/
def openAsked (address : String) : State Pinner WebView View Delegate :=
  let opened := s.newWindow W
  { opened with log := s.log ++ [.opened address s.next] }

/-- That a proxy is started. -/
def made (n : ℕ) (launch : Launched) : Except String (SocketAddrV4 × ProxyTarget) → List Entry
  | .ok (endpoint, _) => [.started n launch endpoint]
  | .error _ => []

/-- `AppDelegate::prepare`. -/
def prepare (launch : Launched) (start : Except String (SocketAddrV4 × ProxyTarget)) :
    State Pinner WebView View Delegate :=
  let prepared := Launch.prepare (W.engine s.next) start launch.authority
  let s := { s with
    next := s.next + 1
    log := s.log ++ made s.next launch start ++ prepared.2.map Entry.stopped }
  match prepared.1 with
  | .ready proxy browsing => { s with proxy := some proxy, browsing := some browsing }
  | .notReady reason => { s with notReady := reason }

/-- `did_finish_launching`, once the start of the proxy has come to something: the first windows,
and then those for what was asked. -/
def didFinishLaunching (launch : Launched)
    (start : Except String (SocketAddrV4 × ProxyTarget)) : State Pinner WebView View Delegate :=
  let s := s.prepare W launch start
  let asked := s.asked
  let s := { s with launched := true, asked := [] }
  let s := (List.range launch.first).foldl (fun s _ => s.newWindow W) s
  asked.foldl (fun s address => s.openAsked W address) s

/-- **One event.** While the proxy is being waited for nothing else happens. -/
def after : Event → Option (State Pinner WebView View Delegate)
  | .openUrls addresses =>
    let s := { s with log := s.log ++ addresses.map Entry.asked }
    if s.launched then some (addresses.foldl (fun s address => s.openAsked W address) s)
    else some { s with asked := s.asked ++ addresses }
  | .didFinishLaunching launch =>
    (startProxy W.isV6 W.explain launch).map fun start => s.didFinishLaunching W launch start
  | .newWindow => some (s.newWindow W)
  | .closed window => some { s with windows := s.windows.filter fun w => w.1 ≠ window }
  | .willTerminate => some { s with
      browsing := none
      proxy := none
      log := s.log ++ s.proxy.toList.map Entry.stopped }

/-- An application is launched once. -/
def mayHappen : Event → Bool
  | .didFinishLaunching _ => !s.launched
  | _ => true

end State

variable {Config Pinner WebView View Delegate : Type}

/-- One step. -/
abbrev Step (W : World Config Pinner WebView View Delegate) :
    State Pinner WebView View Delegate → Event → State Pinner WebView View Delegate → Prop :=
  Events.stepOf (fun s e => s.mayHappen e = true) fun s e => s.after W e

/-! ### What is said of it -/

/-- The addresses that were asked for. -/
def askedIn (log : List Entry) : List String :=
  log.filterMap fun e => match e with | .asked address => some address | _ => none

/-- Those that a window was made for. -/
def openedIn (log : List Entry) : List String :=
  log.filterMap fun e => match e with | .opened address _ => some address | _ => none

/-- The proxies that were started. -/
def startedIn (log : List Entry) : List SocketAddrV4 :=
  log.filterMap fun e => match e with | .started _ _ endpoint => some endpoint | _ => none

/-- And those that were stopped. -/
def stoppedIn (log : List Entry) : List SocketAddrV4 :=
  log.filterMap fun e => match e with | .stopped endpoint => some endpoint | _ => none

/-- **The launch found everything**: its proxy is owned and listens there, it was handed that
token, and that is made of the authority that was read. -/
structure Found (W : World Config Pinner WebView View Delegate) (log : List Entry)
    (endpoint : SocketAddrV4) (token : Bytes) (pinner : Pinner) : Prop where
  found : ∃ n launch pem, .started n launch endpoint ∈ log ∧
    startOwned W.isV6 10000 launch.child = .owned endpoint ∧ launch.token = .ok token ∧
    launch.authority = .ok pem ∧ (W.engine n).pinner pem = .ok pinner

/-- **What a window holds**: a web view that sends everything through the proxy of the launch,
with its credential, and takes its authority only; or a view that says why there is none. -/
inductive Holds (W : World Config Pinner WebView View Delegate) (log : List Entry) (n : ℕ) :
    Content WebView View Delegate → Prop
  | browser {endpoint : SocketAddrV4} {token : Bytes} {pinner : Pinner} {config : Config}
    {delegate : Delegate} (hfound : Found W log endpoint token pinner)
    (hconfig : (W.engine n).configure (target endpoint token) = .ok config)
    (hpin : (W.engine n).pin ((W.engine n).webView config) pinner = some delegate) :
    Holds W log n (.browser ((W.engine n).webView config) delegate)
  | refused (reason : String) : Holds W log n (.refused ((W.engine n).error (cannotBrowse reason)))

/-- **What holds along every run.** -/
structure Gated (W : World Config Pinner WebView View Delegate)
    (s : State Pinner WebView View Delegate) : Prop where
  windows : ∀ w ∈ s.windows, Holds W s.log w.1 w.2
  /-- There is browsing only with a proxy that runs. -/
  browsing : ∀ b, s.browsing = some b → ∃ endpoint token, s.proxy = some endpoint ∧
    Found W s.log endpoint token b.pinner ∧ b.target = target endpoint token
  /-- A proxy that was started was stopped, or is the one that is owned. -/
  proxies : startedIn s.log = stoppedIn s.log ++ s.proxy.toList
  /-- And there is one at most. -/
  once : (startedIn s.log).length ≤ if s.launched then 1 else 0

/-- **The addresses that were asked for** are opened in order, and the others wait for the
launch. -/
def State.Accounted (s : State Pinner WebView View Delegate) : Prop :=
  askedIn s.log = openedIn s.log ++ s.asked ∧ (s.launched = true → s.asked = [])

/-! ### Making windows -/

variable {W : World Config Pinner WebView View Delegate}
  {s s' s'' : State Pinner WebView View Delegate} {log log' : List Entry} {n : ℕ}

theorem askedIn_append : askedIn (log ++ log') = askedIn log ++ askedIn log' :=
  List.filterMap_append ..

theorem openedIn_append : openedIn (log ++ log') = openedIn log ++ openedIn log' :=
  List.filterMap_append ..

theorem startedIn_append : startedIn (log ++ log') = startedIn log ++ startedIn log' :=
  List.filterMap_append ..

theorem stoppedIn_append : stoppedIn (log ++ log') = stoppedIn log ++ stoppedIn log' :=
  List.filterMap_append ..

section

variable {endpoints : List SocketAddrV4} {addresses : List String} {launch : Launched}
  {start : Except String (SocketAddrV4 × ProxyTarget)}

theorem askedIn_stopped : askedIn (endpoints.map Entry.stopped) = [] := by
  simp [askedIn, List.filterMap_map]

theorem openedIn_stopped : openedIn (endpoints.map Entry.stopped) = [] := by
  simp [openedIn, List.filterMap_map]

theorem startedIn_stopped : startedIn (endpoints.map Entry.stopped) = [] := by
  simp [startedIn, List.filterMap_map]

theorem stoppedIn_stopped : stoppedIn (endpoints.map Entry.stopped) = endpoints := by
  simp [stoppedIn, List.filterMap_map]

theorem askedIn_asked : askedIn (addresses.map Entry.asked) = addresses := by
  simp [askedIn, List.filterMap_map]

theorem openedIn_asked : openedIn (addresses.map Entry.asked) = [] := by
  simp [openedIn, List.filterMap_map]

theorem startedIn_asked : startedIn (addresses.map Entry.asked) = [] := by
  simp [startedIn, List.filterMap_map]

theorem stoppedIn_asked : stoppedIn (addresses.map Entry.asked) = [] := by
  simp [stoppedIn, List.filterMap_map]

end

theorem Found.mono {endpoint : SocketAddrV4} {token : Bytes} {pinner : Pinner}
    (h : Found W log endpoint token pinner) (hlog : log ⊆ log') :
    Found W log' endpoint token pinner := by
  obtain ⟨k, launch, pem, hstarted, hrest⟩ := h.found
  exact ⟨k, launch, pem, hlog hstarted, hrest⟩

theorem Holds.mono {c : Content WebView View Delegate} (h : Holds W log n c) (hlog : log ⊆ log') :
    Holds W log' n c := by
  cases h with
  | browser hfound hconfig hpin => exact .browser (hfound.mono hlog) hconfig hpin
  | refused reason => exact .refused reason

/-- **A window is gated**, whenever it is made. -/
theorem holds_content {browsing : Option (Browsing Pinner)} {reason : String}
    (h : ∀ b, browsing = some b → ∃ endpoint token, Found W log endpoint token b.pinner ∧
      b.target = target endpoint token) : Holds W log n (content (W.engine n) browsing reason) := by
  cases browsing with
  | none => exact .refused _
  | some b =>
    obtain ⟨endpoint, token, hfound, htarget⟩ := h b rfl
    rw [content]
    split
    · exact .refused _
    · rename_i config hconfig
      rw [htarget] at hconfig
      split
      · exact .refused _
      · rename_i delegate hpin
        exact .browser hfound hconfig hpin

/-- **Only windows are made**, for these addresses among others. -/
structure Opens (W : World Config Pinner WebView View Delegate) (addresses : List String)
    (s s' : State Pinner WebView View Delegate) : Prop where
  launched : s'.launched = s.launched
  proxy : s'.proxy = s.proxy
  browsing : s'.browsing = s.browsing
  notReady : s'.notReady = s.notReady
  waiting : s'.asked = s.asked
  asked : askedIn s'.log = askedIn s.log
  opened : openedIn s'.log = openedIn s.log ++ addresses
  started : startedIn s'.log = startedIn s.log
  stopped : stoppedIn s'.log = stoppedIn s.log
  log : s.log ⊆ s'.log
  windows : ∀ w ∈ s'.windows, w ∈ s.windows ∨
    w.2 = content (W.engine w.1) s.browsing s.notReady

theorem Opens.refl (W : World Config Pinner WebView View Delegate)
    (s : State Pinner WebView View Delegate) : Opens W [] s s :=
  ⟨rfl, rfl, rfl, rfl, rfl, rfl, (List.append_nil _).symm, rfl, rfl, List.Subset.refl _,
    fun _ hw => Or.inl hw⟩

theorem Opens.trans {l l' : List String} (h : Opens W l s s') (h' : Opens W l' s' s'') :
    Opens W (l ++ l') s s'' where
  launched := h'.launched.trans h.launched
  proxy := h'.proxy.trans h.proxy
  browsing := h'.browsing.trans h.browsing
  notReady := h'.notReady.trans h.notReady
  waiting := h'.waiting.trans h.waiting
  asked := h'.asked.trans h.asked
  opened := by rw [h'.opened, h.opened, List.append_assoc]
  started := h'.started.trans h.started
  stopped := h'.stopped.trans h.stopped
  log := List.Subset.trans h.log h'.log
  windows := by
    intro w hw
    rcases h'.windows w hw with hw | hw
    · exact h.windows w hw
    · rw [h.browsing, h.notReady] at hw
      exact Or.inr hw

theorem opens_newWindow (s : State Pinner WebView View Delegate) : Opens W [] s (s.newWindow W) where
  launched := rfl
  proxy := rfl
  browsing := rfl
  notReady := rfl
  waiting := rfl
  asked := rfl
  opened := (List.append_nil _).symm
  started := rfl
  stopped := rfl
  log := List.Subset.refl _
  windows := by
    intro w hw
    rcases List.mem_append.mp hw with hw | hw
    · exact Or.inl hw
    · obtain rfl := List.mem_singleton.mp hw
      exact Or.inr rfl

theorem opens_openAsked (s : State Pinner WebView View Delegate) (address : String) :
    Opens W [address] s (s.openAsked W address) := by
  have h := opens_newWindow (W := W) s
  refine { h with
    asked := ?_, opened := ?_, started := ?_, stopped := ?_, log := List.subset_append_left _ _ }
  · exact askedIn_append.trans (List.append_nil _)
  · exact openedIn_append
  · exact startedIn_append.trans (List.append_nil _)
  · exact stoppedIn_append.trans (List.append_nil _)

theorem opens_foldl_newWindow {α : Type} (l : List α) (s : State Pinner WebView View Delegate) :
    Opens W [] s (l.foldl (fun s _ => s.newWindow W) s) := by
  induction l generalizing s with
  | nil => exact .refl W s
  | cons a l ih => exact (opens_newWindow s).trans (ih _)

theorem opens_foldl_openAsked (addresses : List String) (s : State Pinner WebView View Delegate) :
    Opens W addresses s (addresses.foldl (fun s address => s.openAsked W address) s) := by
  induction addresses generalizing s with
  | nil => exact .refl W s
  | cons address addresses ih => exact (opens_openAsked s address).trans (ih _)

theorem Gated.opens {addresses : List String} (h : Gated W s) (ho : Opens W addresses s s') :
    Gated W s' where
  windows := by
    intro w hw
    rcases ho.windows w hw with hw | hw
    · exact (h.windows w hw).mono ho.log
    · rw [hw]
      refine (holds_content fun b hb => ?_).mono ho.log
      obtain ⟨endpoint, token, -, hfound, htarget⟩ := h.browsing b hb
      exact ⟨endpoint, token, hfound, htarget⟩
  browsing := by
    intro b hb
    rw [ho.browsing] at hb
    obtain ⟨endpoint, token, hproxy, hfound, htarget⟩ := h.browsing b hb
    exact ⟨endpoint, token, ho.proxy.trans hproxy, hfound.mono ho.log, htarget⟩
  proxies := by rw [ho.started, ho.stopped, ho.proxy, h.proxies]
  once := by rw [ho.started, ho.launched]; exact h.once

/-! ### The launch -/

/-- **What `prepare` comes to.** -/
inductive PrepareSpec {S : Type} (engine : Engine Config Pinner WebView View Delegate)
    (start : Except String (S × ProxyTarget)) (authority : Except String String) :
    Readiness S Pinner × List S → Prop
  | notStarted (err reason : String) (hstart : start = .error err) :
    PrepareSpec engine start authority (.notReady reason, [])
  | failed (proxy : S) (target : ProxyTarget) (reason : String)
    (hstart : start = .ok (proxy, target)) :
    PrepareSpec engine start authority (.notReady reason, [proxy])
  | ready (proxy : S) (target : ProxyTarget) (pem : String) (pinner : Pinner)
    (hstart : start = .ok (proxy, target)) (hpem : authority = .ok pem)
    (hpinner : engine.pinner pem = .ok pinner) :
    PrepareSpec engine start authority (.ready proxy ⟨target, pinner⟩, [])

theorem prepareSpec {S : Type} (engine : Engine Config Pinner WebView View Delegate)
    (start : Except String (S × ProxyTarget)) (authority : Except String String) :
    PrepareSpec engine start authority (prepare engine start authority) := by
  rw [prepare.eq_def]
  split
  · exact .notStarted _ _ rfl
  · split
    · exact .failed _ _ _ rfl
    · split
      · exact .failed _ _ _ rfl
      · split
        · exact .failed _ _ _ rfl
        · rename_i hpinner
          exact .ready _ _ _ _ rfl rfl hpinner

/-- A proxy that is started is owned, and its target is where it listens. -/
theorem exists_token_of_startProxy {isV6 : List Char → Bool} {explain : NotStarted → String}
    {launch : Launched} {endpoint : SocketAddrV4} {t : ProxyTarget}
    (h : startProxy isV6 explain launch = some (.ok (endpoint, t))) :
    ∃ token, startOwned isV6 10000 launch.child = .owned endpoint ∧ launch.token = .ok token ∧
      t = target endpoint token := by
  rw [startProxy] at h
  split at h
  · cases h
  · cases h
  · rename_i token _ htoken
    split at h
    · cases h
    · cases h
    · rename_i owned howned
      obtain ⟨rfl, rfl⟩ := Prod.mk.inj (Except.ok.inj (Option.some.inj h))
      exact ⟨token, howned, htoken, rfl⟩

/-- **Before the launch** there is no proxy. -/
theorem Gated.nothing (h : Gated W s) (hlaunched : s.launched = false) :
    startedIn s.log = [] ∧ stoppedIn s.log = [] ∧ s.proxy = none ∧ s.browsing = none := by
  have honce := h.once
  rw [hlaunched, if_neg Bool.false_ne_true, Nat.le_zero, List.length_eq_zero_iff] at honce
  have hproxies := h.proxies
  rw [honce] at hproxies
  obtain ⟨hstopped, hproxy⟩ := List.append_eq_nil_iff.mp hproxies.symm
  have hnone : s.proxy = none := by
    cases hp : s.proxy with
    | none => rfl
    | some endpoint => rw [hp] at hproxy; cases hproxy
  refine ⟨honce, hstopped, hnone, ?_⟩
  cases hb : s.browsing with
  | none => rfl
  | some b =>
    obtain ⟨endpoint, token, hp, -⟩ := h.browsing b hb
    rw [hnone] at hp
    cases hp

theorem gated_prepare (h : Gated W s) (hlaunched : s.launched = false) {launch : Launched}
    {start : Except String (SocketAddrV4 × ProxyTarget)}
    (hstart : startProxy W.isV6 W.explain launch = some start) :
    Gated W { s.prepare W launch start with launched := true, asked := [] } := by
  obtain ⟨hstarted, hstopped, hproxy, hbrowsing⟩ := h.nothing hlaunched
  have hspec := prepareSpec (W.engine s.next) start launch.authority
  rw [State.prepare]
  generalize Launch.prepare (W.engine s.next) start launch.authority = out at hspec
  have hgrows : ∀ more more', s.log ⊆ s.log ++ more ++ more' := fun more more' e he =>
    List.mem_append_left _ (List.mem_append_left _ he)
  cases hspec with
  | notStarted err reason herr =>
    obtain rfl := herr
    have hlog : s.log ++ State.made s.next launch (.error err) ++ ([] : List SocketAddrV4).map
      Entry.stopped = s.log := by simp [State.made]
    rw [hlog]
    exact { h with
      browsing := fun b hb => absurd (hbrowsing.symm.trans hb) (by simp)
      once := by simp [hstarted] }
  | failed endpoint t reason hok =>
    obtain rfl := hok
    exact
      { windows := fun w hw => (h.windows w hw).mono (hgrows _ _)
        browsing := fun b hb => absurd (hbrowsing.symm.trans hb) (by simp)
        proxies := by
          rw [startedIn_append, startedIn_append, stoppedIn_append, stoppedIn_append, hstarted,
            hstopped, startedIn_stopped, stoppedIn_stopped, hproxy]
          rfl
        once := by
          rw [startedIn_append, startedIn_append, hstarted, startedIn_stopped]
          exact Nat.le_refl 1 }
  | ready endpoint t pem pinner hok hpem hpinner =>
    obtain rfl := hok
    obtain ⟨token, howned, htoken, rfl⟩ := exists_token_of_startProxy hstart
    refine
      { windows := fun w hw => (h.windows w hw).mono (hgrows _ _)
        browsing := ?_
        proxies := ?_
        once := ?_ }
    · intro b hb
      obtain rfl := Option.some.inj hb
      refine ⟨endpoint, token, rfl, ⟨s.next, launch, pem, ?_, howned, htoken, hpem, hpinner⟩, rfl⟩
      exact List.mem_append_left _ (List.mem_append_right _ (List.mem_singleton.mpr rfl))
    · rw [startedIn_append, startedIn_append, stoppedIn_append, stoppedIn_append, hstarted,
        hstopped]
      rfl
    · rw [startedIn_append, startedIn_append, hstarted]
      exact Nat.le_refl 1

/-! ### Runs -/

theorem prepare_asked {launch : Launched} {start : Except String (SocketAddrV4 × ProxyTarget)} :
    askedIn (s.prepare W launch start).log = askedIn s.log ∧
      openedIn (s.prepare W launch start).log = openedIn s.log ∧
      (s.prepare W launch start).asked = s.asked := by
  have hmade : askedIn (State.made s.next launch start) = [] ∧
      openedIn (State.made s.next launch start) = [] := by
    rcases start with err | ⟨endpoint, t⟩
    · exact ⟨rfl, rfl⟩
    · exact ⟨rfl, rfl⟩
  rw [State.prepare]
  generalize Launch.prepare (W.engine s.next) start launch.authority = out
  obtain ⟨readiness, dropped⟩ := out
  cases readiness <;>
    simp only [askedIn_append, openedIn_append, hmade, askedIn_stopped, openedIn_stopped,
      List.append_nil, and_self]

/-- **One event.** -/
theorem gated_step {e : Event} (h : Gated W s) (hstep : Step W s e s') : Gated W s' := by
  have hmay : s.mayHappen e = true := hstep.1
  have hafter : s.after W e = some s' := hstep.2
  cases e with
  | openUrls addresses =>
    have hasked : Gated W { s with log := s.log ++ addresses.map Entry.asked } :=
      { windows := fun w hw => (h.windows w hw).mono (List.subset_append_left _ _)
        browsing := by
          intro b hb
          obtain ⟨endpoint, token, hproxy, hfound, htarget⟩ := h.browsing b hb
          exact ⟨endpoint, token, hproxy, hfound.mono (List.subset_append_left _ _), htarget⟩
        proxies := by
          rw [startedIn_append, stoppedIn_append, startedIn_asked, stoppedIn_asked,
            List.append_nil, List.append_nil]
          exact h.proxies
        once := by
          rw [startedIn_append, startedIn_asked, List.append_nil]
          exact h.once }
    rw [State.after] at hafter
    split_ifs at hafter
    · obtain rfl := Option.some.inj hafter
      exact hasked.opens (opens_foldl_openAsked _ _)
    · obtain rfl := Option.some.inj hafter
      exact { hasked with }
  | didFinishLaunching launch =>
    obtain ⟨start, hstart, rfl⟩ := Option.map_eq_some_iff.mp hafter
    have hlaunched : s.launched = false := by simpa [State.mayHappen] using hmay
    have hlaunch := gated_prepare h hlaunched hstart
    exact (hlaunch.opens (opens_foldl_newWindow _ _)).opens (opens_foldl_openAsked _ _)
  | newWindow =>
    obtain rfl := Option.some.inj hafter
    exact h.opens (opens_newWindow s)
  | closed window =>
    obtain rfl := Option.some.inj hafter
    exact { h with windows := fun w hw => h.windows w (List.mem_filter.mp hw).1 }
  | willTerminate =>
    obtain rfl := Option.some.inj hafter
    exact
      { windows := fun w hw => (h.windows w hw).mono (List.subset_append_left _ _)
        browsing := fun b hb => by cases hb
        proxies := by
          rw [startedIn_append, stoppedIn_append, startedIn_stopped, stoppedIn_stopped, h.proxies,
            List.append_nil]
          exact (List.append_nil _).symm
        once := by
          rw [startedIn_append, startedIn_stopped, List.append_nil]
          exact h.once }

theorem accounted_step {e : Event} (h : s.Accounted) (hstep : Step W s e s') : s'.Accounted := by
  have hmay : s.mayHappen e = true := hstep.1
  have hafter : s.after W e = some s' := hstep.2
  obtain ⟨hasked, hwaiting⟩ := h
  cases e with
  | openUrls addresses =>
    rw [State.after] at hafter
    split_ifs at hafter with hlaunched
    · obtain rfl := Option.some.inj hafter
      have ho := opens_foldl_openAsked (W := W) addresses
        { s with log := s.log ++ addresses.map Entry.asked }
      rw [State.Accounted, ho.asked, ho.opened, ho.waiting, ho.launched]
      refine ⟨?_, hwaiting⟩
      dsimp only
      rw [askedIn_append, openedIn_append, askedIn_asked, openedIn_asked, hasked,
        hwaiting hlaunched, List.append_nil, List.append_nil]
    · obtain rfl := Option.some.inj hafter
      refine ⟨?_, fun h => absurd h hlaunched⟩
      rw [askedIn_append, openedIn_append, askedIn_asked, openedIn_asked, hasked, List.append_nil,
        List.append_assoc]
  | didFinishLaunching launch =>
    obtain ⟨start, hstart, rfl⟩ := Option.map_eq_some_iff.mp hafter
    obtain ⟨hprepared, hopened, hleft⟩ := @prepare_asked _ _ _ _ _ W s launch start
    have ho := (opens_foldl_newWindow (W := W) (List.range launch.first)
      { s.prepare W launch start with launched := true, asked := [] }).trans
      (opens_foldl_openAsked (s.prepare W launch start).asked _)
    rw [State.Accounted, State.didFinishLaunching, ho.asked, ho.opened, ho.waiting]
    refine ⟨?_, fun _ => rfl⟩
    dsimp only
    rw [hprepared, hopened, hleft, hasked, List.append_nil, List.nil_append]
  | newWindow =>
    obtain rfl := Option.some.inj hafter
    exact ⟨hasked, hwaiting⟩
  | closed window =>
    obtain rfl := Option.some.inj hafter
    exact ⟨hasked, hwaiting⟩
  | willTerminate =>
    obtain rfl := Option.some.inj hafter
    refine ⟨?_, hwaiting⟩
    rw [askedIn_append, openedIn_append, askedIn_stopped, openedIn_stopped, List.append_nil,
      List.append_nil]
    exact hasked

/-- **There is no web view but one that is routed and pinned.** However the launch goes and
whatever is opened, closed or asked for, each window holds a web view of the proxy that this
launch owns, with its credential and its authority, or a view that says why not. A proxy that was
started is stopped or owned, there is one at most, and what other applications ask for is opened
in order, and all of it once the application is launched. -/
theorem launched_of_runs {events : List Event}
    (h : Events.Runs (Step W) State.start events s) : Gated W s ∧ s.Accounted := by
  refine h.invariant (I := fun s => Gated W s ∧ s.Accounted) ?_ ⟨?_, rfl, fun _ => rfl⟩
  · rintro s e s' ⟨hgated, haccounted⟩ hstep
    exact ⟨gated_step hgated hstep, accounted_step haccounted hstep⟩
  · exact
      { windows := fun w hw => absurd hw List.not_mem_nil
        browsing := fun b hb => by cases hb
        proxies := rfl
        once := Nat.le_refl 0 }

/-- An engine that makes everything, and says of a web view where it sends. -/
def sampleWorld : World ProxyTarget String ProxyTarget String String where
  engine _ :=
    { configure := .ok
      pinner := .ok
      webView := id
      pin := fun _ pinner => some pinner
      error := id }
  isV6 _ := false
  explain _ := ""

def sampleLaunch : Launched := ⟨.ok (), .ok sampleToken, sampleChild, .ok "pem", 1⟩

/-- An address that comes before the launch, a window after it, and one after the end. -/
theorem launched_of_runs_four : ∃ s, Events.Runs (Step sampleWorld) State.start
    [.openUrls ["https://a.example/"], .didFinishLaunching sampleLaunch, .newWindow,
      .willTerminate, .newWindow] s ∧ s.windows.length = 4 ∧ Gated sampleWorld s ∧
      s.Accounted := by
  have howned : startOwned sampleWorld.isV6 10000 sampleChild = .owned sampleBound :=
    startOwned_owned_iff.mpr ⟨⟨rfl, rfl, rfl⟩, announces_iff.mpr ⟨rfl, by decide, by decide⟩,
      heardInTime_cons_iff.mpr ⟨rfl, Or.inr ⟨rfl, by decide,
        heardInTime_cons_iff.mpr ⟨rfl, Or.inl ⟨none, rfl⟩⟩⟩⟩⟩
  have hstart : startProxy sampleWorld.isV6 sampleWorld.explain sampleLaunch =
      some (.ok (sampleBound, target sampleBound sampleToken)) := by
    rw [startProxy, sampleLaunch]
    dsimp only
    rw [howned]
  let asked : State String ProxyTarget String String :=
    ⟨false, none, none, "", ["https://a.example/"], [], 0, [.asked "https://a.example/"]⟩
  let launched := asked.didFinishLaunching sampleWorld sampleLaunch
    (.ok (sampleBound, target sampleBound sampleToken))
  have hlaunch : asked.after sampleWorld (.didFinishLaunching sampleLaunch) = some launched :=
    congrArg (Option.map _) hstart
  have hruns : Events.Runs (Step sampleWorld) State.start
      [.openUrls ["https://a.example/"], .didFinishLaunching sampleLaunch, .newWindow,
        .willTerminate, .newWindow] _ :=
    .cons (show Step sampleWorld State.start _ asked from ⟨rfl, rfl⟩) (.cons ⟨rfl, hlaunch⟩
      (.cons ⟨rfl, rfl⟩ (.cons ⟨rfl, rfl⟩ (.cons ⟨rfl, rfl⟩ (.nil _)))))
  exact ⟨_, hruns, rfl, launched_of_runs hruns⟩

end Launch

end Syndeo.App
