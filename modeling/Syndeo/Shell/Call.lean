import Syndeo.Keystore.Enrolment
import Syndeo.Keystore.Service

/-!
# The shell's call to the keystore

`Shell::keystore_call`: a request that finds the keystore locked has the person
asked to unseal it, and is sent again, once. What it relies on is that being
refused as locked costs a request nothing.

It costs a signing request its confirmation. `sign_confirmed` verifies before it
looks for the master key, and to verify is to remember the nonce; so a refusal
as locked leaves the confirmer unchanged exactly where there is no such refusal,
and the request that is sent again is never signed
(`Syndeo.locked_refusal_spends`).
-/

namespace Syndeo

open Text Tables Concurrent Events

/-! ### The call -/

/-- One step of the shell: a request on a connection of its own, or a question to
the person. -/
inductive ShellAct : Type → Type
  | call (request : KeystoreRequest) : ShellAct (Except String KeystoreResponse)
  | readPassphrase (label : String) : ShellAct (Except String String)

/-- A piece of the shell that can fail, with a text. -/
abbrev ShellM := ExceptT String (Prog ShellAct)

namespace Shell

/-- `Shell::call_once`. -/
def callOnce (request : KeystoreRequest) : ShellM KeystoreResponse :=
  ExceptT.mk (Prog.call (.call request))

/-- `Prompter::read_passphrase`. -/
def readPassphrase (label : String) : ShellM String :=
  ExceptT.mk (Prog.call (.readPassphrase label))

/-- The passphrase, where one is required. -/
def askedPassphrase (required : Bool) : ShellM (Option String) :=
  if required then some <$> readPassphrase "The keystore locked itself. Passphrase: "
  else pure none

/-- `Shell::unseal_now`. -/
def unsealNow : ShellM Unit := do
  match ← callOnce .status with
  | .status s => do
    let passphrase ← askedPassphrase s.passphraseRequired
    match ← callOnce (.unseal passphrase) with
    | .ok => pure ()
    | .error e => throw e
    | _ => throw "unexpected reply from the keystore"
  | _ => throw "the keystore did not report a status"

/-- What `Shell::keystore_call` does once the keystore has said that it is locked. -/
def afterLocked (isInteractive : Bool) (request : KeystoreRequest) : ShellM KeystoreResponse :=
  if !isInteractive then
    pure (.error "the keystore is locked and this run has no one to ask for a passphrase")
  else do
    unsealNow
    match ← callOnce request with
    | .locked => pure (.error "the keystore locked again immediately after unsealing")
    | other => pure other

/-- `Shell::keystore_call`. -/
def keystoreCall (isInteractive : Bool) (request : KeystoreRequest) : ShellM KeystoreResponse := do
  match ← callOnce request with
  | .locked => afterLocked isInteractive request
  | other => pure other

/-! ### What it meets

The shell is not alone: before each request other calls can reach the keystore,
its own timer among them. The readings of the confirmer's clock do not decrease.
-/

/-- A keystore process, and the last reading of its confirmer's clock. -/
structure Reached where
  process : Process
  clock : ℕ

section

variable (P : Platform) (C : Crypto) (build : Build)

/-- Something happens to the process, and its clock does not run backwards. -/
def Passes (s : Reached) (h : Happening) (s' : Reached) : Prop :=
  s.process.Step P C build h s'.process ∧
    match h with
    | .call met _ => s.clock ≤ met.clock ∧ s'.clock = met.clock
    | .elsewhere _ _ => s'.clock = s.clock

/-- A request is answered, after whatever happens before it. -/
def Answers (s : Reached) (request : KeystoreRequest) (r : KeystoreResponse) (s' : Reached) : Prop :=
  ∃ l u met, Runs (Passes P C build) s l u ∧ u.clock ≤ met.clock ∧
    u.process.handle P C build met request = (r, s'.process) ∧ s'.clock = met.clock

/-- **One step of the shell.** The connection may fail, before or after the request
was handled. -/
def step : ∀ {β : Type}, ShellAct β → Reached → β → Reached → Prop
  | _, .call request, s, .ok r, s' => Answers P C build s request r s'
  | _, .call request, s, .error _, s' => s' = s ∨ ∃ r, Answers P C build s request r s'
  | _, .readPassphrase _, s, _, s' => s' = s

end

/-- A call that finds the keystore locked goes on as `afterLocked` does. -/
theorem returns_keystoreCall {P : Platform} {C : Crypto} {build : Build} {isInteractive : Bool}
    {request : KeystoreRequest} {s s' : Reached} {r : Except String KeystoreResponse} :
    (keystoreCall isInteractive request).run.Returns (step P C build) s r s' ↔
      (∃ u, Answers P C build s request .locked u ∧
        (afterLocked isInteractive request).run.Returns (step P C build) u r s') ∨
      (∃ answer, answer ≠ .locked ∧ Answers P C build s request answer s' ∧ r = .ok answer) ∨
      ∃ e, (s' = s ∨ ∃ answer, Answers P C build s request answer s') ∧ r = .error e := by
  rw [keystoreCall, Prog.returns_run_bind]
  constructor
  · rintro (⟨answer, u, hcall, hrest⟩ | ⟨e, hcall, rfl⟩)
    · have hcall : Answers P C build s request answer u := Prog.returns_call.mp hcall
      by_cases hlocked : answer = .locked
      · subst hlocked
        exact Or.inl ⟨u, hcall, hrest⟩
      · have hpure : (pure answer : ShellM KeystoreResponse).run.Returns (step P C build) u r s' := by
          cases answer with
          | locked => exact absurd rfl hlocked
          | _ => exact hrest
        obtain ⟨rfl, rfl⟩ := Prog.returns_pure.mp hpure
        exact Or.inr (Or.inl ⟨answer, hlocked, hcall, rfl⟩)
    · exact Or.inr (Or.inr ⟨e, Prog.returns_call.mp hcall, rfl⟩)
  · rintro (⟨u, hcall, hrest⟩ | ⟨answer, hlocked, hcall, rfl⟩ | ⟨e, hcall, rfl⟩)
    · exact Or.inl ⟨.locked, u, Prog.returns_call.mpr hcall, hrest⟩
    · refine Or.inl ⟨answer, s', Prog.returns_call.mpr hcall, ?_⟩
      cases answer with
      | locked => exact absurd rfl hlocked
      | _ => exact Prog.returns_pure.mpr ⟨rfl, rfl⟩
    · exact Or.inr ⟨e, Prog.returns_call.mpr hcall, rfl⟩

end Shell

/-! ### What a refusal spends -/

namespace Process

variable {P : Platform} {C : Crypto} {build : Build} {p : Process} {met : Met}
  {confirmation : Confirmation} {payload : Bytes}

/-- The confirmation verifies. -/
def Verifies (P : Platform) (C : Crypto) (p : Process) (met : Met) (confirmation : Confirmation)
    (payload : Bytes) : Prop :=
  (p.confirmer.verify P C.hmacSha256 confirmation payload met.clock).1 = .ok ()

/-- Whatever comes of it, the confirmer is the one that has verified. -/
theorem confirmer_signConfirmed :
    (p.operate P C build met (.signConfirmed confirmation payload)).2.confirmer =
      (p.confirmer.verify P C.hmacSha256 confirmation payload met.clock).2 := by
  rw [operate, Session.signConfirmed]
  rcases p.confirmer.verify P C.hmacSha256 confirmation payload met.clock with ⟨e | ⟨⟩, k⟩
  · rfl
  · rcases (p.keystore.session.lockIfExpired met.around).2.master with _ | master <;> rfl

/-- **Refused as locked**: the confirmation verified, and the session is not open. -/
theorem signConfirmed_locked_iff :
    (p.operate P C build met (.signConfirmed confirmation payload)).1 = .error .locked ↔
      p.Verifies P C met confirmation payload ∧ ¬p.keystore.session.Open met.around := by
  rw [operate, Session.signConfirmed, Verifies]
  by_cases hopen : p.keystore.session.Open met.around
  · rw [Session.lockIfExpired_of_open hopen]
    obtain ⟨master, hmaster⟩ := Option.isSome_iff_exists.mp hopen.1
    rcases p.confirmer.verify P C.hmacSha256 confirmation payload met.clock with ⟨e | ⟨⟩, k⟩
    · simp [Except.map]
    · simp [hmaster, Except.map, hopen]
  · rw [Session.master_lockIfExpired hopen]
    rcases p.confirmer.verify P C.hmacSha256 confirmation payload met.clock with ⟨e | ⟨⟩, k⟩
    · simp [Except.map]
    · simp [Except.map, hopen]

/-- What verifies is remembered afterwards, and was not before. -/
theorem consumed_of_verifies (h : p.Verifies P C met confirmation payload) :
    (p.confirmer.verify P C.hmacSha256 confirmation payload met.clock).2.consumed.lookup
        confirmation.nonce = some confirmation.expiresAt ∧
      p.confirmer.consumed.lookup confirmation.nonce ≠ some confirmation.expiresAt := by
  rw [Verifies, Confirmer.verify] at h
  rw [Confirmer.verify]
  rcases hcheck : p.confirmer.check P C.hmacSha256 confirmation payload met.clock with _ | e
  · rw [hcheck] at h
    obtain ⟨-, hvalid, -⟩ := Confirmer.check_eq_none_iff.mp hcheck
    rcases hconsume : p.confirmer.consume confirmation met.clock with ⟨e | ⟨⟩, k⟩
    · simp [hconsume] at h
    · obtain ⟨hfresh, rfl⟩ := Confirmer.consume_ok hconsume
      refine ⟨by simp, fun hold => ?_⟩
      rw [Confirmer.lookup_remembered.mpr ⟨hold, hvalid⟩] at hfresh
      exact absurd hfresh (by simp)
  · simp [hcheck] at h

/-- A confirmation that is remembered, or that has expired, does not verify. -/
theorem not_verifies
    (h : p.confirmer.consumed.lookup confirmation.nonce = some confirmation.expiresAt ∨
      confirmation.expiresAt < met.clock) :
    ¬p.Verifies P C met confirmation payload := by
  intro hverifies
  obtain hlookup | hexpired := h
  · exact (consumed_of_verifies hverifies).2 hlookup
  · rw [Verifies, Confirmer.verify] at hverifies
    rcases hcheck : p.confirmer.check P C.hmacSha256 confirmation payload met.clock with _ | e
    · obtain ⟨-, hvalid, -⟩ := Confirmer.check_eq_none_iff.mp hcheck
      omega
    · simp [hcheck] at hverifies

/-- Nothing is signed that does not verify. -/
theorem verifies_of_signed {s : Signed}
    (h : (p.operate P C build met (.signConfirmed confirmation payload)).1 = .ok (.signed s)) :
    p.Verifies P C met confirmation payload := by
  rw [operate, Session.signConfirmed] at h
  rw [Verifies]
  rcases hverify : p.confirmer.verify P C.hmacSha256 confirmation payload met.clock with ⟨e | ⟨⟩, k⟩
  · simp [hverify, Except.map] at h
  · rfl

/-- Only `sign_confirmed` uses the confirmer. -/
theorem confirmer_operate {op : Operation} (h : ∀ confirmation payload,
    op ≠ .signConfirmed confirmation payload) :
    (p.operate P C build met op).2.confirmer = p.confirmer := by
  cases op with
  | signConfirmed confirmation payload => exact absurd rfl (h confirmation payload)
  | _ => rfl

/-- **A nonce that is remembered stays remembered** until its confirmation expires. -/
theorem lookup_operate {op : Operation} {nonce : String} {expiresAt : ℕ}
    (h : p.confirmer.consumed.lookup nonce = some expiresAt) (hclock : met.clock ≤ expiresAt) :
    (p.operate P C build met op).2.confirmer.consumed.lookup nonce = some expiresAt := by
  by_cases hsign : ∃ confirmation payload, op = .signConfirmed confirmation payload
  · obtain ⟨confirmation, payload, rfl⟩ := hsign
    rw [confirmer_signConfirmed, Confirmer.verify]
    have hremembered : (p.confirmer.remembered met.clock).lookup nonce = some expiresAt :=
      Confirmer.lookup_remembered.mpr ⟨h, hclock⟩
    rcases p.confirmer.check P C.hmacSha256 confirmation payload met.clock with _ | e
    · rcases hconsume : p.confirmer.consume confirmation met.clock with ⟨e | ⟨⟩, k⟩
      · rw [Confirmer.consume_error hconsume]
        exact hremembered
      · obtain ⟨hfresh, rfl⟩ := Confirmer.consume_ok hconsume
        have hne : nonce ≠ confirmation.nonce := fun heq => by
          rw [heq, hfresh] at hremembered
          exact absurd hremembered (by simp)
        exact (AList.lookup_insert_ne hne).trans hremembered
    · exact h
  · rw [confirmer_operate fun confirmation payload heq => hsign ⟨confirmation, payload, heq⟩]
    exact h

theorem respond_snd (r : Except KeystoreError Answer × Process) : (respond P C r).2 = r.2 := by
  obtain ⟨e | answer, p⟩ := r
  · rfl
  · cases answer <;> rfl

/-- What a request leaves of the confirmer, an operation leaves, or none. -/
theorem confirmer_handle (P : Platform) (C : Crypto) (build : Build) (met : Met) (p : Process)
    (request : KeystoreRequest) :
    (p.handle P C build met request).2.confirmer = p.confirmer ∨
      ∃ op, (p.handle P C build met request).2.confirmer =
        (p.operate P C build met op).2.confirmer := by
  cases request with
  | signConfirmed confirmation payload =>
    exact Or.inr ⟨_, congrArg confirmer (respond_snd _)⟩
  | publicIdentity origin => exact Or.inr ⟨_, congrArg confirmer (respond_snd _)⟩
  | «unseal» passphrase => exact Or.inr ⟨_, congrArg confirmer (respond_snd _)⟩
  | lock => exact Or.inr ⟨_, congrArg confirmer (respond_snd _)⟩
  | enrol _ => exact Or.inl rfl
  | restore _ _ => exact Or.inl rfl
  | status =>
    rw [handle]
    rcases p.keystore.run build met.world (Keystore.status C build) with ⟨e | s, k⟩ <;>
      exact Or.inl rfl
  | sessionProtection =>
    rw [handle]
    rcases p.keystore.run build met.world (Keystore.status C build) with ⟨e | s, k⟩ <;>
      exact Or.inl rfl

theorem lookup_handle {request : KeystoreRequest} {nonce : String} {expiresAt : ℕ}
    (h : p.confirmer.consumed.lookup nonce = some expiresAt) (hclock : met.clock ≤ expiresAt) :
    (p.handle P C build met request).2.confirmer.consumed.lookup nonce = some expiresAt := by
  obtain hsame | ⟨op, hop⟩ := confirmer_handle P C build met p request
  · rw [hsame, h]
  · rw [hop, lookup_operate h hclock]

/-- A signature is the answer to a confirmation that verifies. -/
theorem verifies_of_signature {signature publicKey address : String}
    (h : (p.handle P C build met (.signConfirmed confirmation payload)).1 =
      .signature signature publicKey address) :
    p.Verifies P C met confirmation payload := by
  rw [handle] at h
  rcases hop : p.operate P C build met (.signConfirmed confirmation payload) with ⟨e | answer, k⟩
  · rw [hop, respond, refuse] at h
    split_ifs at h
  · cases answer with
    | signed s => exact verifies_of_signed (congrArg Prod.fst hop)
    | _ => simp [hop, respond] at h

/-- The answer that the keystore is locked is the error that it is. -/
theorem handle_signConfirmed_locked
    (h : (p.handle P C build met (.signConfirmed confirmation payload)).1 = .locked) :
    (p.operate P C build met (.signConfirmed confirmation payload)).1 = .error .locked := by
  rw [handle] at h
  rcases hop : p.operate P C build met (.signConfirmed confirmation payload) with ⟨e | answer, k⟩
  · by_cases he : e = .locked
    · rw [he]
    · simp [hop, respond, refuse, he] at h
  · cases answer <;> simp [hop, respond] at h

end Process

namespace Shell

variable {P : Platform} {C : Crypto} {build : Build} {confirmation : Confirmation} {payload : Bytes}
  {s s' u : Reached} {request : KeystoreRequest} {response : KeystoreResponse}

/-- The confirmation is spent: its nonce is remembered, or it has expired. -/
def Spent (confirmation : Confirmation) (s : Reached) : Prop :=
  s.process.confirmer.consumed.lookup confirmation.nonce = some confirmation.expiresAt ∨
    confirmation.expiresAt < s.clock

/-- A step of the process at a later reading leaves the confirmation spent, if it
forgets nothing that has not expired. -/
theorem Spent.later {clock : ℕ} {process : Process} (h : Spent confirmation s)
    (hclock : s.clock ≤ clock)
    (hkeeps : s.process.confirmer.consumed.lookup confirmation.nonce =
        some confirmation.expiresAt → clock ≤ confirmation.expiresAt →
      process.confirmer.consumed.lookup confirmation.nonce = some confirmation.expiresAt) :
    Spent confirmation ⟨process, clock⟩ := by
  obtain hlookup | hexpired := h
  · obtain hvalid | hexpired := le_or_gt clock confirmation.expiresAt
    · exact Or.inl (hkeeps hlookup hvalid)
    · exact Or.inr hexpired
  · exact Or.inr (Nat.lt_of_lt_of_le hexpired hclock)

theorem Spent.passes {h : Happening} (hs : Spent confirmation s) (hpass : Passes P C build s h s') :
    Spent confirmation s' := by
  obtain ⟨process, clock⟩ := s'
  obtain ⟨hstep, hclock⟩ := hpass
  obtain rfl : process = s.process.after P C build h := hstep
  cases h with
  | call met op =>
    obtain ⟨hle, rfl⟩ : s.clock ≤ met.clock ∧ clock = met.clock := hclock
    exact hs.later hle fun hlookup hvalid => Process.lookup_operate hlookup hvalid
  | elsewhere vault ring =>
    obtain rfl : clock = s.clock := hclock
    exact hs

theorem Spent.answers (hs : Spent confirmation s) (h : Answers P C build s request response s') :
    Spent confirmation s' := by
  obtain ⟨process, clock⟩ := s'
  obtain ⟨l, u, met, hruns, hle, hhandle, rfl⟩ := h
  have hu : Spent confirmation u :=
    hruns.invariant (fun _ _ _ hs hpass => hs.passes hpass) hs
  obtain rfl : (u.process.handle P C build met request).2 = process := congrArg Prod.snd hhandle
  exact hu.later hle fun hlookup hvalid => Process.lookup_handle hlookup hvalid

theorem Spent.step {β : Type} {a : ShellAct β} {b : β} (hs : Spent confirmation s)
    (h : step P C build a s b s') : Spent confirmation s' := by
  cases a with
  | call request =>
    rcases b with e | r
    · obtain rfl | ⟨r, h⟩ := h
      · exact hs
      · exact hs.answers h
    · exact hs.answers h
  | readPassphrase label =>
    obtain rfl : s' = s := h
    exact hs

/-- **A refusal as locked spends the confirmation.** -/
theorem spent_of_locked
    (h : Answers P C build s (.signConfirmed confirmation payload) .locked u) :
    Spent confirmation u := by
  obtain ⟨l, v, met, -, -, hhandle, -⟩ := h
  have hlocked := Process.handle_signConfirmed_locked (congrArg Prod.fst hhandle)
  obtain ⟨hverifies, -⟩ := Process.signConfirmed_locked_iff.mp hlocked
  left
  have hprocess : u.process =
      (v.process.operate P C build met (.signConfirmed confirmation payload)).2 :=
    (congrArg Prod.snd hhandle).symm.trans (Process.respond_snd _)
  rw [hprocess, Process.confirmer_signConfirmed]
  exact (Process.consumed_of_verifies hverifies).1

/-- What is spent is not signed. -/
theorem not_signature_of_spent (hs : Spent confirmation s) {signature publicKey address : String} :
    ¬Answers P C build s (.signConfirmed confirmation payload)
      (.signature signature publicKey address) s' := by
  rintro ⟨l, u, met, hruns, hle, hhandle, -⟩
  have hu : Spent confirmation u :=
    hruns.invariant (fun _ _ _ hs hpass => hs.passes hpass) hs
  refine Process.not_verifies ?_ (Process.verifies_of_signature (congrArg Prod.fst hhandle))
  exact hu.imp id fun hexpired => Nat.lt_of_lt_of_le hexpired hle

/-- A signature is no answer that the shell makes up: the request that is sent again
was given it. -/
theorem returns_afterLocked {isInteractive : Bool} {signature publicKey address : String}
    (h : (afterLocked isInteractive request).run.Returns (step P C build) s
      (.ok (.signature signature publicKey address)) s') :
    ∃ u, (unsealNow.run.Returns (step P C build) s (.ok ()) u) ∧
      Answers P C build u request (.signature signature publicKey address) s' := by
  cases isInteractive with
  | false => exact nomatch (Prog.returns_pure.mp h).1
  | true =>
    obtain ⟨⟨⟩, u, hunseal, hrest⟩ | ⟨e, -, he⟩ := Prog.returns_run_bind.mp h
    · obtain ⟨answer, v, hcall, hrest⟩ | ⟨e, -, he⟩ := Prog.returns_run_bind.mp hrest
      · refine ⟨u, hunseal, ?_⟩
        have hcall : Answers P C build u request answer v := Prog.returns_call.mp hcall
        cases answer with
        | signature _ _ _ =>
          obtain ⟨hsame, rfl⟩ := Prog.returns_pure.mp hrest
          rw [Except.ok.inj hsame]
          exact hcall
        | _ => exact nomatch (Prog.returns_pure.mp hrest).1
      · exact nomatch he
    · exact nomatch he

/-- What is refused as locked and sent again is not signed. -/
theorem not_returns_afterLocked {isInteractive : Bool} {signature publicKey address : String}
    (hlocked : Answers P C build s (.signConfirmed confirmation payload) .locked u) :
    ¬(afterLocked isInteractive (.signConfirmed confirmation payload)).run.Returns
      (step P C build) u (.ok (.signature signature publicKey address)) s' := fun hreturns => by
  obtain ⟨v, hunseal, hanswers⟩ := returns_afterLocked hreturns
  have hspent : Spent confirmation v :=
    hunseal.invariant (fun _ _ _ _ hs hstep => hs.step hstep) (spent_of_locked hlocked)
  exact not_signature_of_spent hspent hanswers

/-- **The second try never helps**: a signing request is signed where the first
answer to it is the signature. -/
theorem returns_signature_iff {isInteractive : Bool} {signature publicKey address : String} :
    (keystoreCall isInteractive (.signConfirmed confirmation payload)).run.Returns
        (step P C build) s (.ok (.signature signature publicKey address)) s' ↔
      Answers P C build s (.signConfirmed confirmation payload)
        (.signature signature publicKey address) s' := by
  rw [returns_keystoreCall]
  constructor
  · rintro (⟨u, hlocked, hrest⟩ | ⟨answer, -, hanswers, heq⟩ | ⟨e, -, he⟩)
    · exact absurd hrest (not_returns_afterLocked hlocked)
    · rw [Except.ok.inj heq]
      exact hanswers
    · exact nomatch he
  · exact fun hanswers => Or.inr (Or.inl ⟨_, by simp, hanswers, rfl⟩)

end Shell

/-- **A refusal as locked spends the confirmation.** The set of consumed nonces is
as it was where `sign_confirmed` says that the keystore is locked, exactly if it
does not say so: if the session is open, or the confirmation does not verify. And
a signing request that the shell sends again, after a first answer that the
keystore is locked and after the person has unsealed it, is never signed. -/
theorem locked_refusal_spends (P : Platform) (C : Crypto) (build : Build) :
    (∀ (p : Process) (met : Met) (confirmation : Confirmation) (payload : Bytes),
      ((p.operate P C build met (.signConfirmed confirmation payload)).1 = .error .locked →
        (p.operate P C build met (.signConfirmed confirmation payload)).2.confirmer.consumed =
          p.confirmer.consumed) ↔
      p.keystore.session.Open met.around ∨ ¬p.Verifies P C met confirmation payload) ∧
    ∀ (s u s' : Shell.Reached) (confirmation : Confirmation) (payload : Bytes)
      (isInteractive : Bool) (signature publicKey address : String),
      Shell.Answers P C build s (.signConfirmed confirmation payload) .locked u →
      ¬(Shell.afterLocked isInteractive (.signConfirmed confirmation payload)).run.Returns
        (Shell.step P C build) u (.ok (.signature signature publicKey address)) s' := by
  constructor
  · intro p met confirmation payload
    rw [Process.signConfirmed_locked_iff, Process.confirmer_signConfirmed]
    constructor
    · intro hunchanged
      by_contra hcases
      obtain ⟨hopen, hverifies⟩ := not_or.mp hcases
      have hverifies := not_not.mp hverifies
      obtain ⟨hafter, hbefore⟩ := Process.consumed_of_verifies hverifies
      rw [hunchanged ⟨hverifies, hopen⟩] at hafter
      exact hbefore hafter
    · rintro (hopen | hverifies) ⟨hverifies', hopen'⟩
      · exact absurd hopen hopen'
      · exact absurd hverifies' hverifies
  · exact fun s u s' confirmation payload isInteractive signature publicKey address =>
      Shell.not_returns_afterLocked

/-- The key in the keychain, the seed sealed under it, and nothing open. -/
def lockedProcess : Process := ⟨Keystore.sampleHome, sampleConfirmer⟩

/-- A quiet world, at a reading of the confirmer's clock. -/
def quietly (clock : ℕ) : Met where
  world := ⟨fun _ => ⟨⟨60, 60⟩, Crypto.counted, 1, none, none⟩⟩
  around := ⟨⟨60, 60⟩, none, ⟨60, 60⟩⟩
  clock := clock

theorem calm_quietly (clock : ℕ) : (quietly clock).world.Calm := fun _ h => h rfl

/-- The first confirmation passes the checks for as long as it is valid. -/
theorem check_firstConfirmation {k : Confirmer} {now : ℕ} (hsecret : k.secret = sampleConfirmer.secret)
    (hissued : 1000 ≤ now) (hvalid : now ≤ 1000 + confirmationTtl) :
    k.check .sample Crypto.sample.hmacSha256 firstConfirmation [97] now = none := by
  have hissue : firstConfirmation = k.issue .sample sampleHmac "https://a.test" .originLogin "b" [97]
      1000 (beBytes 16 1) := by
    simp only [firstConfirmation, Confirmer.issue, Confirmer.mac, hsecret]
  rw [hissue]
  exact Confirmer.check_issue (by decide) hissued hvalid

/-- The process once it has said that it is locked. -/
def refusedProcess : Process where
  keystore := Keystore.sampleHome
  confirmer := { sampleConfirmer with
    consumed := sampleConfirmer.consumed.insert firstConfirmation.nonce firstConfirmation.expiresAt }

/-- The process once the person has unsealed it. -/
def unsealedProcess : Process where
  keystore := Keystore.sampleHome.opened (quietly 1060).world
    (ExtendedKey.master Crypto.sample Crypto.sampleSeed)
  confirmer := refusedProcess.confirmer

/-- **A confirmation that was never used is refused as a replay**: the keystore says
that it is locked, the person unseals it a minute later, and the confirmation,
which is still valid, has been used. -/
theorem lockedProcess_spends :
    lockedProcess.operate .sample .sample .elsewhere (quietly 1000)
        (.signConfirmed firstConfirmation [97]) = (.error .locked, refusedProcess) ∧
      refusedProcess.confirmer.consumed ≠ lockedProcess.confirmer.consumed ∧
      refusedProcess.operate .sample .sample .elsewhere (quietly 1060) (.unseal (some "a")) =
        (.ok .unsealed, unsealedProcess) ∧
      unsealedProcess.keystore.session.Open (quietly 1060).around ∧
      (unsealedProcess.operate .sample .sample .elsewhere (quietly 1060)
        (.signConfirmed firstConfirmation [97])).1 = .error (.confirmation .replayed) := by
  have hempty : sampleConfirmer.remembered 1000 = ∅ := rfl
  have hverify : sampleConfirmer.verify .sample Crypto.sample.hmacSha256 firstConfirmation [97] 1000 =
      (.ok (), refusedProcess.confirmer) := by
    rw [Confirmer.verify, check_firstConfirmation rfl (by decide) (by decide)]
    simp only [Confirmer.consume, hempty, AList.lookup_empty]
    rfl
  have hreplayed : (refusedProcess.confirmer.verify .sample Crypto.sample.hmacSha256
      firstConfirmation [97] 1060).1 = .error .replayed := by
    have hsecret : refusedProcess.confirmer.secret = sampleConfirmer.secret := rfl
    have hlookup : (refusedProcess.confirmer.remembered 1060).lookup firstConfirmation.nonce =
        some firstConfirmation.expiresAt :=
      Confirmer.lookup_remembered.mpr ⟨AList.lookup_insert _, by decide⟩
    rw [Confirmer.verify, check_firstConfirmation hsecret (by decide) (by decide)]
    simp only [Confirmer.consume, hlookup, Option.isSome_some, if_true]
  refine ⟨?_, fun hsame => ?_, ?_, ?_, ?_⟩
  · rw [Process.operate, Session.signConfirmed]
    have hclock : (quietly 1000).clock = 1000 := rfl
    have hconfirmer : lockedProcess.confirmer = sampleConfirmer := rfl
    rw [hclock, hconfirmer, hverify]
    rfl
  · have hlookup : (refusedProcess.confirmer.consumed).lookup firstConfirmation.nonce =
        (∅ : Table String ℕ).lookup firstConfirmation.nonce := congrArg _ hsame
    rw [AList.lookup_empty] at hlookup
    cases (AList.lookup_insert sampleConfirmer.consumed).symm.trans hlookup
  · have hrun := Keystore.run_unseal_of_opens (calm_quietly 1060) Keystore.opens_sampleHome
    rw [Process.operate, refusedProcess, hrun]
    rfl
  · exact ⟨rfl, by decide⟩
  · have hconfirmer : unsealedProcess.confirmer = refusedProcess.confirmer := rfl
    have hclock : (quietly 1060).clock = 1060 := rfl
    rw [Process.operate, Session.signConfirmed, hconfirmer, hclock]
    rcases hcase : refusedProcess.confirmer.verify .sample Crypto.sample.hmacSha256
      firstConfirmation [97] 1060 with ⟨e | ⟨⟩, k⟩
    · rw [hcase] at hreplayed
      rw [Except.error.inj hreplayed]
      rfl
    · cases (congrArg Prod.fst hcase).symm.trans hreplayed

/-- What the locked process has refused is not signed when it is sent again. -/
theorem locked_refusal_spends_lockedProcess :
    ¬(Shell.afterLocked true (.signConfirmed firstConfirmation [97])).run.Returns
      (Shell.step .sample .sample .elsewhere) ⟨refusedProcess, 1000⟩
      (.ok (.signature "" "" "")) ⟨unsealedProcess, 1060⟩ := by
  refine (locked_refusal_spends .sample .sample .elsewhere).2 ⟨lockedProcess, 1000⟩
    ⟨refusedProcess, 1000⟩ _ firstConfirmation [97] true _ _ _
    ⟨[], ⟨lockedProcess, 1000⟩, quietly 1000, .nil _, le_rfl, ?_, rfl⟩
  rw [Process.handle, lockedProcess_spends.1]
  rfl

end Syndeo
