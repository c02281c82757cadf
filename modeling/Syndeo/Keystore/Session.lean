import Syndeo.Concurrent.Events
import Syndeo.Keystore.Operations

/-!
# Sessions of a keystore

A keystore process from any state on: its operations are called one after another,
each met with whatever the clocks, the screen, the disk and the credential store
have for it, and between two calls the files and the credential store may be
changed by someone else.

What is revealed – an identity, a signature – is revealed by an open session that
has not ended, and a session that was ended stays ended until a call opens one
(`Syndeo.session_safety`). The step lemmas are `Syndeo.Process.open_of_reveals`,
that nothing is revealed otherwise, and `Syndeo.Process.session_of_error`, that
an operation which fails leaves the session as it was.
-/

namespace Syndeo

open Concurrent Events

/-- A keystore process: the keystore, and the confirmer it verifies with. -/
structure Process where
  keystore : Keystore
  confirmer : Confirmer

/-- What one call is met with. -/
structure Met where
  world : World
  around : Surroundings
  /-- The confirmer's clock. -/
  clock : ℕ

/-- The operations of a keystore. -/
inductive Operation
  | initializeKeystore (passphrase : Option String)
  | restore (phrase : String) (passphrase : Option String)
  | «unseal» (passphrase : Option String)
  | lock
  | lockIfExpired
  | publicIdentity (origin : String)
  | signConfirmed (confirmation : Confirmation) (payload : Bytes)

/-- What an operation returns. -/
inductive Answer
  | enrolled (phrase : Option String) (address : Address)
  | unsealed
  | locked
  | expired (reason : Option Reason)
  | identity (publicKey : String) (address : Address)
  | signed (s : Signed)

namespace Answer

/-- A public key, an address or a signature was returned. -/
def Reveals : Except KeystoreError Answer → Prop
  | .ok (.identity _ _) => True
  | .ok (.signed _) => True
  | _ => False

/-- The seed was unsealed, or enrolled. -/
def Opens : Except KeystoreError Answer → Prop
  | .ok (.enrolled _ _) => True
  | .ok .unsealed => True
  | _ => False

end Answer

/-- What happens to a process: a call, or a change of what is outside of it. -/
inductive Happening
  | call (met : Met) (op : Operation)
  | elsewhere (vault : Vault) (ring : Ring)

namespace Process

section

variable (P : Platform) (C : Crypto) (build : Build)

/-- The process, with the keystore that a call left. -/
def leaving {α : Type} (p : Process) (answer : α → Answer)
    (r : Except KeystoreError α × Keystore) : Except KeystoreError Answer × Process :=
  (r.1.map answer, { p with keystore := r.2 })

/-- The process, with the session that a call left. -/
def withSession (p : Process) (session : Session) : Process :=
  { p with keystore := { p.keystore with session := session } }

/-- **One call.** -/
def operate (met : Met) (p : Process) : Operation → Except KeystoreError Answer × Process
  | .initializeKeystore passphrase =>
    p.leaving (fun r => .enrolled (some r.1) r.2)
      (p.keystore.run build met.world (Keystore.initializeKeystore P C build passphrase))
  | .restore phrase passphrase =>
    p.leaving (.enrolled none)
      (p.keystore.run build met.world (Keystore.restore P C build phrase passphrase))
  | .unseal passphrase =>
    p.leaving (fun _ => .unsealed)
      (p.keystore.run build met.world (Keystore.«unseal» C build passphrase))
  | .lock => (.ok .locked, p.withSession p.keystore.session.lock)
  | .lockIfExpired =>
    let r := p.keystore.session.lockIfExpired met.around
    (.ok (.expired r.1), p.withSession r.2)
  | .publicIdentity origin =>
    let r := p.keystore.session.publicIdentity P C met.around origin
    (r.1.map fun r => .identity r.1 r.2, p.withSession r.2)
  | .signConfirmed confirmation payload =>
    let r := p.keystore.session.signConfirmed P C met.around p.confirmer met.clock confirmation
      payload
    (r.1.map .signed, { p.withSession r.2.1 with confirmer := r.2.2 })

/-- What a happening leaves. -/
def after (p : Process) : Happening → Process
  | .call met op => (p.operate P C build met op).2
  | .elsewhere vault ring =>
    { p with keystore := { p.keystore with vault := vault, ring := ring } }

/-- The happenings of a process. -/
def Step (p : Process) (h : Happening) (p' : Process) : Prop := p' = p.after P C build h

/-- Those that open no session. -/
def StepUnopened (p : Process) (h : Happening) (p' : Process) : Prop :=
  p.Step P C build h p' ∧
    ∀ met op, h = .call met op → ¬Answer.Opens (p.operate P C build met op).1

/-- The call ends the session: it is `lock`, or it finds the session expired. -/
def Ends (p : Process) (met : Met) : Operation → Prop
  | .lock => True
  | .lockIfExpired | .publicIdentity _ | .signConfirmed _ _ =>
    (p.keystore.session.lockIfExpired met.around).1.isSome
  | _ => False

end

end Process

/-! ### Operations that fail -/

/-- Where it fails, what is in memory is as it was. -/
def KeepsOnError {ε α : Type} (build : Build) (world : World) (x : CustodyM ε α) : Prop :=
  ∀ (k : Keystore) (e : ε) (k' : Keystore), k.run build world x = (.error e, k') →
    k'.session = k.session

namespace KeepsOnError

variable {ε α β : Type} {P : Platform} {C : Crypto} {build : Build} {world : World}
  {x : CustodyM ε α} {f : α → CustodyM ε β}

theorem of_outwards (hx : Outwards x) : KeepsOnError build world x := fun k e k' h => by
  have hsession : (k.run build world x).2.session = k.session := hx.session_run
  rwa [h] at hsession

/-- What is outside comes first, and memory last. -/
theorem bind (hx : Outwards x) (hf : ∀ a, KeepsOnError build world (f a)) :
    KeepsOnError build world (x >>= f) := by
  intro k e k' h
  have hsession : (k.run build world x).2.session = k.session := hx.session_run
  rw [Keystore.run_bind] at h
  rcases hrun : k.run build world x with ⟨e' | a, u⟩
  · rw [hrun] at h hsession
    obtain ⟨-, rfl⟩ := Prod.mk.inj h
    exact hsession
  · rw [hrun] at h hsession
    exact (hf a u e k' h).trans hsession

/-- The assignment at the end of an operation does not fail. -/
theorem opening {master : ExtendedKey} {b : β} : KeepsOnError build world (do
    act (.setMaster master)
    act .touch
    pure b : CustodyM ε β) := fun _ e _ h =>
  nomatch (show (Except.ok b : Except ε β) = .error e from congrArg Prod.fst h)

theorem sealMnemonic {mnemonic : String} {passphrase : Option String} :
    KeepsOnError build world (Keystore.sealMnemonic P C build mnemonic passphrase) := by
  refine bind .sealSeed fun ⟨wrappingKey, sealed⟩ => ?_
  exact bind (.raising .store) fun _ => bind (.raising .writeSealed) fun _ => opening

theorem initializeKeystore {passphrase : Option String} :
    KeepsOnError build world (Keystore.initializeKeystore P C build passphrase) := by
  refine bind .checkCanInitialize fun _ => bind .requirePassphrase fun _ =>
    bind (.act trivial) fun entropy => bind .orRaise fun mnemonic => ?_
  intro k e k' h
  rw [Keystore.run_bind] at h
  rcases hrun : k.run build world (Keystore.sealMnemonic P C build mnemonic passphrase)
    with ⟨e' | a, u⟩
  · rw [hrun] at h
    obtain ⟨-, rfl⟩ := Prod.mk.inj h
    exact sealMnemonic k e' u hrun
  · simp [hrun] at h

theorem restore {phrase : String} {passphrase : Option String} :
    KeepsOnError build world (Keystore.restore P C build phrase passphrase) :=
  bind .requirePassphrase fun _ => bind .orRaise fun _ => sealMnemonic

theorem «unseal» {passphrase : Option String} :
    KeepsOnError build world (Keystore.«unseal» C build passphrase) := by
  have hrest : ∀ sealed : SealedSeed, KeepsOnError build world (do
      let wrappingKey ← raising KeystoreError.wrapping (OsKeyring.load build)
      let seed ← orRaise .seal (Syndeo.«unseal» C sealed wrappingKey passphrase)
      act (.setMaster (ExtendedKey.master C seed))
      act .touch) := fun sealed =>
    bind (.raising .load) fun _ => bind .orRaise fun _ => opening
  refine bind .loadSealed fun sealed => ?_
  split
  · exact bind .throw fun _ => hrest sealed
  · exact hrest sealed

end KeepsOnError

/-! ### What is revealed, and when -/

namespace Session

variable {P : Platform} {C : Crypto} {self : Session} {around : Surroundings}

theorem lockIfExpired_of_open (h : self.Open around) : self.lockIfExpired around = (none, self) := by
  obtain ⟨hmaster, hwatch⟩ := h
  rw [lockIfExpired, hwatch, if_neg fun hnone => ?_]
  rw [Option.isNone_iff_eq_none] at hnone
  simp [hnone] at hmaster

/-- A session that is not open, or has ended, is locked afterwards. -/
theorem master_lockIfExpired (h : ¬self.Open around) :
    (self.lockIfExpired around).2.master = none := by
  rw [lockIfExpired]
  split_ifs with hmaster
  · simpa using hmaster
  · split
    · rfl
    · rename_i hwatch
      exact absurd ⟨Option.isSome_iff_ne_none.mpr (by simpa using hmaster), hwatch⟩ h

theorem master_lockIfExpired_of_isSome (h : (self.lockIfExpired around).1.isSome) :
    (self.lockIfExpired around).2.master = none :=
  master_lockIfExpired fun hopen => by simp [lockIfExpired_of_open hopen] at h

/-- Once locked, a session is locked. -/
theorem master_lockIfExpired_of_none (h : self.master = none) :
    (self.lockIfExpired around).2.master = none := by simp [lockIfExpired, h]

theorem publicIdentity_of_locked {origin : String}
    (h : (self.lockIfExpired around).2.master = none) :
    self.publicIdentity P C around origin = (.error .locked, (self.lockIfExpired around).2) := by
  simp only [publicIdentity, h]

theorem open_of_publicIdentity {origin : String} {r : String × Address} {s : Session}
    (h : self.publicIdentity P C around origin = (.ok r, s)) : self.Open around := by
  by_contra hopen
  simp [publicIdentity_of_locked (master_lockIfExpired hopen)] at h

/-- **A signature is made by an open session that has not ended.** -/
theorem open_of_signConfirmed {confirmer : Confirmer} {clock : ℕ} {confirmation : Confirmation}
    {payload : Bytes} {r : Signed} {s : Session × Confirmer}
    (h : self.signConfirmed P C around confirmer clock confirmation payload = (.ok r, s)) :
    self.Open around := by
  by_contra hopen
  rw [signConfirmed, master_lockIfExpired hopen] at h
  split at h
  · simp at h
  · simp at h

/-- A call of `public_identity` leaves no master key where it found none. -/
theorem master_publicIdentity {origin : String} (h : (self.lockIfExpired around).2.master = none) :
    (self.publicIdentity P C around origin).2.master = none := by
  rw [publicIdentity_of_locked h, h]

theorem master_signConfirmed {confirmer : Confirmer} {clock : ℕ} {confirmation : Confirmation}
    {payload : Bytes} (h : (self.lockIfExpired around).2.master = none) :
    (self.signConfirmed P C around confirmer clock confirmation payload).2.1.master = none := by
  rw [signConfirmed, h]
  split
  · exact h
  · exact h

end Session

namespace Process

variable {P : Platform} {C : Crypto} {build : Build} {p p' : Process} {met : Met}
  {op : Operation} {h : Happening}

/-- An operation that works on what is outside reveals nothing. -/
theorem not_reveals_leaving {α : Type} {r : Except KeystoreError α × Keystore} {answer : α → Answer}
    (hanswer : ∀ a, ¬Answer.Reveals (.ok (answer a))) :
    ¬Answer.Reveals (p.leaving answer r).1 := by
  obtain ⟨e | a, k⟩ := r
  · exact id
  · exact hanswer a

/-- **What is revealed is revealed by an open session that has not ended.** -/
theorem open_of_reveals (hreveals : Answer.Reveals (p.operate P C build met op).1) :
    p.keystore.session.Open met.around := by
  cases op with
  | publicIdentity origin =>
    rcases hr : p.keystore.session.publicIdentity P C met.around origin with ⟨e | r, s⟩
    · simp [operate, hr, Except.map, Answer.Reveals] at hreveals
    · exact Session.open_of_publicIdentity hr
  | signConfirmed confirmation payload =>
    rcases hr : p.keystore.session.signConfirmed P C met.around p.confirmer met.clock confirmation
      payload with ⟨e | r, s⟩
    · simp [operate, hr, Except.map, Answer.Reveals] at hreveals
    · exact Session.open_of_signConfirmed hr
  | initializeKeystore passphrase => exact absurd hreveals (not_reveals_leaving (by exact fun _ => id))
  | restore phrase passphrase => exact absurd hreveals (not_reveals_leaving (by exact fun _ => id))
  | «unseal» passphrase => exact absurd hreveals (not_reveals_leaving (by exact fun _ => id))
  | lock => exact hreveals.elim
  | lockIfExpired => exact hreveals.elim

/-- A call that ends the session leaves no master key. -/
theorem master_of_ends (hends : p.Ends met op) :
    (p.operate P C build met op).2.keystore.session.master = none := by
  cases op with
  | lock => rfl
  | lockIfExpired => exact Session.master_lockIfExpired_of_isSome hends
  | publicIdentity origin =>
    exact Session.master_publicIdentity (Session.master_lockIfExpired_of_isSome hends)
  | signConfirmed confirmation payload =>
    exact Session.master_signConfirmed (Session.master_lockIfExpired_of_isSome hends)
  | initializeKeystore _ => exact hends.elim
  | restore _ _ => exact hends.elim
  | «unseal» _ => exact hends.elim

/-- An operation that fails leaves the session as it was. -/
theorem session_leaving {α : Type} {x : KeystoreM α} {answer : α → Answer}
    (hx : KeepsOnError build met.world x)
    (hopens : ∀ a, Answer.Opens (.ok (answer a)))
    (hfails : ¬Answer.Opens (p.leaving answer (p.keystore.run build met.world x)).1) :
    (p.leaving answer (p.keystore.run build met.world x)).2.keystore.session =
      p.keystore.session := by
  rcases hrun : p.keystore.run build met.world x with ⟨e | a, k⟩
  · exact hx _ e k hrun
  · rw [hrun] at hfails
    exact absurd (hopens a) hfails

/-- **A call that opens no session finds none open afterwards where none was.** -/
theorem master_operate (hnone : p.keystore.session.master = none)
    (hunopened : ¬Answer.Opens (p.operate P C build met op).1) :
    (p.operate P C build met op).2.keystore.session.master = none := by
  have hlocked : (p.keystore.session.lockIfExpired met.around).2.master = none :=
    Session.master_lockIfExpired_of_none hnone
  cases op with
  | lock => rfl
  | lockIfExpired => exact hlocked
  | publicIdentity origin => exact Session.master_publicIdentity hlocked
  | signConfirmed confirmation payload => exact Session.master_signConfirmed hlocked
  | initializeKeystore passphrase =>
    exact (congrArg Session.master
      (session_leaving .initializeKeystore (by exact fun _ => trivial) hunopened)).trans hnone
  | restore phrase passphrase =>
    exact (congrArg Session.master
      (session_leaving .restore (by exact fun _ => trivial) hunopened)).trans hnone
  | «unseal» passphrase =>
    exact (congrArg Session.master
      (session_leaving .unseal (by exact fun _ => trivial) hunopened)).trans hnone

theorem master_of_stepUnopened (hnone : p.keystore.session.master = none)
    (hstep : p.StepUnopened P C build h p') : p'.keystore.session.master = none := by
  obtain ⟨rfl, hunopened⟩ := hstep
  cases h with
  | call met op => exact master_operate hnone (hunopened met op rfl)
  | elsewhere vault ring => exact hnone

end Process

/-- **The safety of sessions.** In whatever state the calls and what happened
elsewhere have brought a keystore process, and whatever a call is met with: an
identity or a signature is returned only if the call finds the master key there
and the session not ended; and once a call has locked the keystore, or found the
session ended, none is returned until a call opens one. -/
theorem session_safety (P : Platform) (C : Crypto) (build : Build) (p : Process) :
    (∀ met op, Answer.Reveals (p.operate P C build met op).1 →
      p.keystore.session.Open met.around) ∧
    (∀ met op, p.Ends met op → ∀ l p',
      Runs (Process.StepUnopened P C build) (p.operate P C build met op).2 l p' →
      ∀ met' op', ¬Answer.Reveals (p'.operate P C build met' op').1) := by
  refine ⟨fun met op => Process.open_of_reveals, fun met op hends l p' hrun met' op' hreveals => ?_⟩
  have hnone : p'.keystore.session.master = none :=
    hrun.invariant (I := fun p => p.keystore.session.master = none)
      (fun _ _ _ => Process.master_of_stepUnopened) (Process.master_of_ends hends)
  have hopen := (Process.open_of_reveals hreveals).1
  simp [hnone] at hopen

/-- A process whose session is open, and has been for a minute. -/
def Process.sample : Process where
  keystore :=
    { vault := ⟨"/home/a/.syndeo/.keystore/seed.sealed", none, none⟩
      ring := ⟨none, none⟩
      session := ⟨some (ExtendedKey.master .sample Crypto.sampleSeed), ⟨some 300, ⟨0, 0⟩⟩⟩ }
  confirmer := sampleConfirmer

/-- A quiet minute later. -/
def Met.sample : Met where
  world := ⟨fun _ => ⟨⟨60, 60⟩, Crypto.counted, 1, none, none⟩⟩
  around := ⟨⟨60, 60⟩, none, ⟨60, 60⟩⟩
  clock := 1060

/-- An identity that is asked for is returned, and none is after `lock`. -/
theorem session_safety_sample :
    Process.sample.keystore.session.Open Met.sample.around ∧
    ¬Answer.Reveals (((Process.sample.operate .sample .sample .elsewhere .sample .lock).2).operate
      .sample .sample .elsewhere .sample (.publicIdentity "https://a.test")).1 :=
  ⟨(session_safety .sample .sample .elsewhere .sample).1 .sample
      (.publicIdentity "https://a.test") trivial,
    (session_safety .sample .sample .elsewhere .sample).2 .sample .lock trivial [] _ (.nil _)
      .sample (.publicIdentity "https://a.test")⟩

end Syndeo
