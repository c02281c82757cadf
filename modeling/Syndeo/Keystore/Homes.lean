import Mathlib.Logic.Equiv.List
import Syndeo.Concurrent.Pool
import Syndeo.Keystore.Enrolment

/-!
# Homes that share a credential store

The sealed seed is per home, but the wrapping key is under one name for all the
homes of a user. So setting up asks first whether there is a wrapping key, and
stores its own a few steps later; processes that do this side by side know nothing
of each other, and nothing holds the credential store in between.

Such processes are a pool of `Syndeo.Keystore.initializeKeystore`, each over its own
vault and all over one `Syndeo.Ring`. Where no step of a run takes away or replaces a
wrapping key that is there, every home that was set up can be unsealed
(`Syndeo.unseals_of_runs`). What carries the proof is what a process knows of
itself (`Syndeo.Progress`): which entry it has stored, and how far its file is.

Two processes that both ask before either stores are enough to lose a seed.
-/

namespace Syndeo

open Concurrent

/-! ### The pool -/

/-- What a home has to itself. -/
structure Home where
  vault : Vault
  session : Session
  deriving DecidableEq

/-- **The homes of one user**, and the credential store they share. -/
structure Homes where
  ring : Ring
  home : ℕ → Home

namespace Homes

/-- A home's keystore. -/
def keystore (self : Homes) (i : ℕ) : Keystore :=
  ⟨(self.home i).vault, self.ring, (self.home i).session⟩

/-- The homes, with one keystore as it now is. -/
def put (self : Homes) (i : ℕ) (k : Keystore) : Homes :=
  { ring := k.ring
    home := Function.update self.home i ⟨k.vault, k.session⟩ }

@[simp] theorem keystore_put_self {self : Homes} {i : ℕ} {k : Keystore} :
    (self.put i k).keystore i = k := by simp [put, keystore]

theorem home_put_of_ne {self : Homes} {i j : ℕ} {k : Keystore} (h : j ≠ i) :
    (self.put i k).home j = self.home j := Function.update_of_ne h _ _

/-- **One step** of the process that sets up a home. -/
def perform (build : ℕ → Build) (w : Moment) (i : ℕ) {β : Type} (a : CustodyAct β) (s : Homes) :
    Option (β × Homes) :=
  let r := (s.keystore i).perform (build i) w a
  some (r.1, s.put i r.2)

/-- Processes that set up homes, side by side. -/
abbrev enrolling (build : ℕ → Build) :
    System CustodyAct Homes (Except KeystoreError (String × Address)) :=
  System.ofPerform (perform build) (fun _ => True) fun _ => none

/-- **The processes**, one for each of the first `n` homes. -/
def processes (P : Platform) (C : Crypto) (build : ℕ → Build) (passphrase : ℕ → Option String)
    (n : ℕ) : List (Prog CustodyAct (Except KeystoreError (String × Address))) :=
  (List.range n).map fun i => (Keystore.initializeKeystore P C (build i) (passphrase i)).run

end Homes

/-- **The action takes away or replaces** a wrapping key that is there. What adds an
item to the enclave replaces none. -/
def CustodyAct.replaces (ring : Ring) : ∀ {β : Type}, CustodyAct β → Bool
  | _, .enclaveDelete => ring.enclave.isSome
  | _, .setPassword _ => ring.keychain.isSome
  | _, .deleteCredential => ring.keychain.isSome
  | _, _ => false

/-! ### What a process knows of itself -/

/-- How far a home's sealed seed is. -/
inductive Stage
  | unwritten
  | written (bytes : Bytes)
  | restricted (bytes : Bytes)
  | placed (bytes : Bytes)

namespace Stage

/-- What that says of the vault. -/
def Holds (vault : Vault) : Stage → Prop
  | .unwritten => True
  | .written bytes => ∃ mode, vault.staged = some ⟨.regular, true, mode, bytes⟩
  | .restricted bytes => vault.staged = some (.placed bytes)
  | .placed bytes => vault.file = some (.placed bytes)

/-- The stage after an action that was answered. -/
def next (self : Stage) : ∀ {β : Type}, CustodyAct β → β → Stage
  | _, .writeStaged bytes, .ok _ => .written bytes
  | _, .writeStaged _, .error _ => .unwritten
  | _, .restrictStaged, .ok _ =>
    match self with
    | .written bytes => .restricted bytes
    | other => other
  | _, .rename, .ok _ =>
    match self with
    | .restricted bytes => .placed bytes
    | _ => .unwritten
  | _, _, _ => self

end Stage

/-- **What a process knows**: the entries it has stored, and how far its file is. -/
structure Progress where
  enclave : Option Bytes
  keychain : Option String
  stage : Stage

namespace Progress

/-- Nothing yet. -/
def start : Progress := ⟨none, none, .unwritten⟩

/-- What is known once an action was answered. -/
def next (self : Progress) {β : Type} (a : CustodyAct β) (b : β) : Progress :=
  match β, a, b with
  | _, .enclaveAdd key, .ok _ => { self with enclave := some key }
  | _, .setPassword text, .ok _ => { self with keychain := some text }
  | _, a, b => { self with stage := self.stage.next a b }

/-- **What is known is so.** -/
structure Holds (t : Progress) (ring : Ring) (vault : Vault) : Prop where
  enclave : ∀ key ∈ t.enclave, ring.enclave = some key
  keychain : ∀ text ∈ t.keychain, ring.keychain = some text
  stage : t.stage.Holds vault

theorem holds_start {ring : Ring} {vault : Vault} : start.Holds ring vault :=
  ⟨fun _ h => absurd h (by simp [start]), fun _ h => absurd h (by simp [start]), trivial⟩

end Progress

namespace Progress

/-- Beside the entries, the stage is all there is. -/
theorem stage_next {t : Progress} {β : Type} {a : CustodyAct β} {b : β} :
    (t.next a b).stage = t.stage.next a b := by
  cases a with
  | enclaveAdd key => cases b <;> rfl
  | setPassword text => cases b <;> rfl
  | _ => rfl

end Progress

namespace Keystore

variable {build : Build} {w : Moment} {k : Keystore} {β : Type} {a : CustodyAct β}

theorem ring_onDisk {α : Type} {go : Except CustodyError α × Vault} :
    (k.onDisk w go).2.ring = k.ring := by
  rw [onDisk]
  split <;> rfl

theorem vault_onRing {α : Type} {go : Except WrappingError α × Ring} :
    (k.onRing w go).2.vault = k.vault := by
  rw [onRing]
  split <;> rfl

theorem ring_onRing {α : Type} {go : Except WrappingError α × Ring} :
    (k.onRing w go).2.ring = k.ring ∨ (k.onRing w go).2.ring = go.2 := by
  rcases hw : w.fault with _ | what
  · exact Or.inr (by rw [onRing_of_calm hw])
  · exact Or.inl (by rw [onRing, hw])

/-- **An entry stays** that no action replaces: the enclave's, -/
theorem enclave_perform (ha : a.replaces k.ring = false) {key : Bytes}
    (h : k.ring.enclave = some key) : (k.perform build w a).2.ring.enclave = some key := by
  have hring : ∀ {α : Type} {go : Except WrappingError α × Ring}, go.2.enclave = some key →
      (k.onRing w go).2.ring.enclave = some key := by
    intro α go hgo
    rcases ring_onRing (k := k) (w := w) with heq | heq
    · rwa [heq]
    · rwa [heq]
  cases a with
  | enclaveDelete => exact absurd ha (by simp [CustodyAct.replaces, h])
  | enclaveAdd key' =>
    refine hring ?_
    simp only [h, Option.isSome_some, if_true]
    split <;> exact h
  | setPassword _ | deleteCredential | enclaveExists | enclaveLoad | getPassword => exact hring h
  | writeStaged bytes =>
    rcases hfault : w.fault with _ | what
    · simpa [perform, hfault] using h
    · simpa [perform, hfault] using h
  | _ => first | exact h | exact (congrArg Ring.enclave ring_onDisk).trans h

/-- and the keychain's. -/
theorem keychain_perform (ha : a.replaces k.ring = false) {text : String}
    (h : k.ring.keychain = some text) : (k.perform build w a).2.ring.keychain = some text := by
  have hring : ∀ {α : Type} {go : Except WrappingError α × Ring}, go.2.keychain = some text →
      (k.onRing w go).2.ring.keychain = some text := by
    intro α go hgo
    rcases ring_onRing (k := k) (w := w) with heq | heq
    · rwa [heq]
    · rwa [heq]
  cases a with
  | setPassword text' => exact absurd ha (by simp [CustodyAct.replaces, h])
  | deleteCredential => exact absurd ha (by simp [CustodyAct.replaces, h])
  | enclaveAdd key' =>
    refine hring ?_
    dsimp only
    split_ifs <;> exact h
  | enclaveDelete =>
    refine hring ?_
    dsimp only
    split_ifs <;> exact h
  | enclaveExists | enclaveLoad | getPassword => exact hring h
  | writeStaged bytes =>
    rcases hfault : w.fault with _ | what
    · simpa [perform, hfault] using h
    · simpa [perform, hfault] using h
  | _ => first | exact h | exact (congrArg Ring.keychain ring_onDisk).trans h

variable (build w a) in
/-- **The file comes as far as is known of it.** -/
theorem stage_perform {stage : Stage} (h : stage.Holds k.vault) :
    (stage.next a (k.perform build w a).1).Holds (k.perform build w a).2.vault := by
  cases a with
  | writeStaged bytes =>
    rcases hfault : w.fault with _ | what
    · simp [perform, hfault, Stage.next, Stage.Holds]
    · simp [perform, hfault, Stage.next, Stage.Holds]
  | restrictStaged =>
    rcases hfault : w.fault with _ | what
    · rcases hstaged : k.vault.staged with _ | file
      · simpa [perform, onDisk, hfault, hstaged, Stage.next] using h
      · cases stage with
        | written bytes =>
          obtain ⟨mode, hmode⟩ := h
          obtain rfl := Option.some.inj (hstaged.symm.trans hmode)
          simp [perform, onDisk, hfault, hstaged, Stage.next, Stage.Holds, VaultFile.placed]
        | restricted bytes =>
          obtain rfl := Option.some.inj (hstaged.symm.trans h)
          simp [perform, onDisk, hfault, hstaged, Stage.next, Stage.Holds, VaultFile.placed]
        | unwritten => simp [perform, onDisk, hfault, hstaged, Stage.next, Stage.Holds]
        | placed bytes =>
          simpa [perform, onDisk, hfault, hstaged, Stage.next, Stage.Holds] using h
    · simpa [perform, onDisk, hfault, Stage.next] using h
  | rename =>
    rcases hfault : w.fault with _ | what
    · rcases hstaged : k.vault.staged with _ | file
      · simpa [perform, onDisk, hfault, hstaged, Stage.next] using h
      · cases stage with
        | restricted bytes =>
          obtain rfl := Option.some.inj (hstaged.symm.trans h)
          simp [perform, onDisk, hfault, hstaged, Stage.next, Stage.Holds]
        | _ => simp [perform, onDisk, hfault, hstaged, Stage.next, Stage.Holds]
    · simpa [perform, onDisk, hfault, Stage.next] using h
  | restrict =>
    rcases hfault : w.fault with _ | what
    · rcases hfile : k.vault.file with _ | file
      · simpa [perform, onDisk, hfault, hfile, Stage.next] using h
      · cases stage with
        | placed bytes =>
          obtain rfl := Option.some.inj (hfile.symm.trans h)
          simp [perform, onDisk, hfault, hfile, Stage.next, Stage.Holds, VaultFile.placed]
        | unwritten => trivial
        | written bytes | restricted bytes =>
          simpa [perform, onDisk, hfault, hfile, Stage.next, Stage.Holds] using h
    · simpa [perform, onDisk, hfault, Stage.next] using h
  | audit | read =>
    rcases hfault : w.fault with _ | what
    · simpa [perform, onDisk, hfault, Stage.next] using h
    · simpa [perform, onDisk, hfault, Stage.next] using h
  | enclaveExists | enclaveLoad | enclaveDelete | enclaveAdd _ | getPassword | setPassword _ |
      deleteCredential =>
    simpa [perform, Stage.next, vault_onRing] using h
  | _ => exact h

end Keystore

namespace Progress

variable {k : Keystore} {vault : Vault} {t : Progress} {β : Type}
  {a : CustodyAct β}

/-- What a process knows is so after a step of another, -/
theorem Holds.beside (build : Build) (w : Moment) (h : t.Holds k.ring vault)
    (ha : a.replaces k.ring = false) :
    t.Holds (k.perform build w a).2.ring vault :=
  ⟨fun key hkey => Keystore.enclave_perform ha (h.enclave key hkey),
    fun text htext => Keystore.keychain_perform ha (h.keychain text htext), h.stage⟩

/-- and after its own. -/
theorem Holds.own (build : Build) (w : Moment) (h : t.Holds k.ring k.vault)
    (ha : a.replaces k.ring = false) :
    (t.next a (k.perform build w a).1).Holds (k.perform build w a).2.ring
      (k.perform build w a).2.vault := by
  have hstage := Keystore.stage_perform build w a h.stage
  obtain ⟨henclave, hkeychain, -⟩ := h.beside build w ha
  cases a with
  | enclaveAdd key =>
    rcases hresult : k.perform build w (.enclaveAdd key) with ⟨e | ⟨⟩, k'⟩
    · rw [hresult] at henclave hkeychain hstage
      exact ⟨henclave, hkeychain, hstage⟩
    · obtain ⟨hgo, rfl⟩ := Keystore.onRing_ok hresult
      rw [hresult] at hkeychain hstage
      refine ⟨fun key' hkey' => ?_, hkeychain, hstage⟩
      obtain rfl : key = key' := Option.some.inj hkey'
      split_ifs at hgo ⊢
      rfl
  | setPassword text =>
    rcases hresult : k.perform build w (.setPassword text) with ⟨e | ⟨⟩, k'⟩
    · rw [hresult] at henclave hkeychain hstage
      exact ⟨henclave, hkeychain, hstage⟩
    · obtain ⟨-, rfl⟩ := Keystore.onRing_ok hresult
      rw [hresult] at henclave hstage
      exact ⟨henclave, fun _ htext => htext, hstage⟩
  | _ => exact ⟨henclave, hkeychain, hstage⟩

end Progress

/-! ### What setting up keeps to -/

/-- What is drawn is as long as it was asked to be. -/
def CustodyAct.Answers : ∀ {β : Type}, CustodyAct β → β → Prop
  | _, .random draw, bytes => bytes.length = draw.length
  | _, _, _ => True

/-- **A process keeps track of its progress.** -/
def progressing : Discipline CustodyAct Progress where
  may := fun {_} _ _ => True
  sees := fun {_} _ a b => a.Answers b
  next := fun {_} t a b => t.next a b
  born := fun {_} t _ => t

namespace Progress

variable {ε α β : Type} {t : Progress} {P : Platform} {C : Crypto} {build : Build}

/-- The progress, once the wrapping key is stored. -/
def storing (build : Build) (key : Bytes) (self : Progress) : Progress :=
  if build.presenceAvailable then { self with enclave := some key }
  else { self with keychain := some (hexEncode key) }

theorem leads_act {a : CustodyAct β} {u : Progress} (h : ∀ b, t.next a b = u) :
    Prog.Leads progressing (act a : CustodyM ε β) t fun b v => v = u ∧ a.Answers b :=
  ⟨trivial, fun b hb c hc => by
    obtain rfl : b = c := Except.ok.inj hc
    exact ⟨h b, hb⟩⟩

theorem leads_tryAct {a : CustodyAct (Except ε β)} {u : Progress} (h : ∀ b, t.next a (.ok b) = u) :
    Prog.Leads progressing (tryAct a) t fun _ v => v = u :=
  ⟨trivial, fun r _ c hc => by
    obtain rfl : r = .ok c := hc
    exact h c⟩

/-- What is tried, and may fail. -/
theorem leads_outcome_tryAct {a : CustodyAct (Except ε β)} {u : Progress}
    (h : ∀ b, t.next a b = u) :
    Prog.Leads progressing (outcome (tryAct a) : CustodyM ε (Except ε β)) t fun _ v => v = u :=
  ⟨trivial, fun r _ _ _ => h r⟩

theorem leads_raising {ε' : Type} {f : ε → ε'} {x : CustodyM ε α} {G : α → Progress → Prop}
    (h : Prog.Leads progressing x t G) : Prog.Leads progressing (raising f x) t G :=
  Prog.obeys_bind.mpr (Prog.Obeys.mono h fun r u hr a ha => by
    rcases r with e | b
    · exact nomatch ha
    · obtain rfl : b = a := Except.ok.inj ha
      exact hr b rfl)

/-- Storing the wrapping key. -/
theorem leads_store (key : Bytes) :
    Prog.Leads progressing (OsKeyring.store build key) t fun _ u => u = t.storing build key := by
  rw [OsKeyring.store, storing]
  split
  · refine Prog.Leads.bind (G := fun _ u => u = { t with enclave := some key }) ?_ fun _ u hu => ?_
    · refine (leads_outcome_tryAct (u := t) fun _ => rfl).bind fun _ u hu => ?_
      subst hu
      exact leads_tryAct fun _ => rfl
    · subst hu
      exact (leads_outcome_tryAct fun _ => rfl).bind fun _ u hu => Prog.leads_pure hu
  · exact leads_tryAct fun _ => rfl

/-- Writing the sealed seed. -/
theorem leads_writeSealed (bytes : Bytes) : Prog.Leads progressing (Vault.writeSealed bytes) t
    fun _ u => u = { t with stage := .placed bytes } := by
  have hrest : Prog.Leads progressing (do
      tryAct (.writeStaged bytes)
      tryAct .restrictStaged
      tryAct .rename
      tryAct .restrict) t fun _ u => u = { t with stage := .placed bytes } := by
    refine (leads_tryAct (u := { t with stage := .written bytes }) fun _ => rfl).bind
      fun _ u hu => ?_
    subst hu
    refine (leads_tryAct (u := { t with stage := .restricted bytes }) fun _ => rfl).bind
      fun _ u hu => ?_
    subst hu
    refine (leads_tryAct (u := { t with stage := .placed bytes }) fun _ => rfl).bind
      fun _ u hu => ?_
    subst hu
    exact leads_tryAct fun _ => rfl
  refine (leads_act (u := t) fun _ => rfl).bind fun there u hu => ?_
  obtain ⟨rfl, -⟩ := hu
  split
  · refine (leads_tryAct (u := u) fun _ => rfl).bind fun _ u hu => ?_
    subst hu
    exact hrest
  · exact hrest

/-- Asking whether it may go ahead. -/
theorem leads_checkCanInitialize :
    Prog.Leads progressing (Keystore.checkCanInitialize build) t fun _ u => u = t := by
  have hask : ∀ {β : Type} {a : CustodyAct (Except WrappingError β)}, (∀ b, t.next a b = t) →
      Prog.Stays progressing (· = t) (tryAct a) := fun h u hu =>
    ⟨trivial, fun b _ => by rw [hu]; exact h b⟩
  have hfallback : Prog.Stays progressing (· = t) OsKeyring.fallbackExists :=
    Prog.Stays.bind (hask fun _ => rfl) fun _ => Prog.stays_pure
  have hstays : Prog.Stays progressing (· = t) (OsKeyring.exists build) := by
    cases build with
    | elsewhere => exact hfallback
    | macos enrols =>
      refine Prog.Stays.bind (hask fun _ => rfl) fun found => ?_
      split
      · exact Prog.stays_pure
      · exact hfallback
  have hexists : Prog.Leads progressing (outcome (OsKeyring.exists build) : KeystoreM _) t
      fun _ u => u = t := by
    rw [Prog.Leads, outcome, ExceptT.run_lift, map_eq_pure_bind, Prog.obeys_bind]
    exact (hstays t rfl).mono fun _ _ hu _ _ => hu
  refine (leads_act (u := t) fun _ => rfl).bind fun there u hu => ?_
  obtain ⟨rfl, -⟩ := hu
  split
  · exact Prog.leads_throw
  · refine hexists.bind fun found u hu => ?_
    split
    · exact Prog.leads_pure hu
    · exact Prog.leads_throw
    · exact Prog.leads_throw

variable (P C build) in
/-- **What was set up**: the wrapping key is stored, and the sealed seed, which it
opens, is in its place. -/
def SetUp (passphrase : Option String) (phrase : String) (t : Progress) : Prop :=
  ∃ key sealed, key.length = 32 ∧
    t = { start.storing build key with stage := .placed (C.showSealed sealed) } ∧
    sealed.version = sealVersion ∧
    Syndeo.«unseal» C sealed key passphrase = .ok (C.mnemonicSeed phrase)

/-- Sealing. -/
theorem leads_sealSeed (hC : C.Lawful) (seed : Bytes) (passphrase : Option String) (hint : String) :
    Prog.Leads progressing (Keystore.sealSeed C seed passphrase hint) t fun r u =>
      u = t ∧ r.1.length = 32 ∧ r.2.version = sealVersion ∧
        Syndeo.«unseal» C r.2 r.1 passphrase = .ok seed := by
  refine (leads_act (u := t) fun _ => rfl).bind fun wrappingKey u hu => ?_
  obtain ⟨rfl, hkey⟩ := hu
  have hcost : Prog.Leads progressing (Keystore.sealingCost passphrase) u fun _ v => v = u := by
    rw [Keystore.sealingCost]
    split
    · exact (leads_act fun _ => rfl).mono fun _ _ h => h.1
    · exact Prog.leads_pure rfl
  refine hcost.bind fun kdf v hv => ?_
  subst hv
  refine (leads_act (u := v) fun _ => rfl).bind fun salt u hu => ?_
  obtain ⟨rfl, -⟩ := hu
  refine (leads_act (u := u) fun _ => rfl).bind fun innerNonce v hv => ?_
  obtain ⟨rfl, hinner⟩ := hv
  refine (leads_act (u := v) fun _ => rfl).bind fun outerNonce u hu => ?_
  obtain ⟨rfl, houter⟩ := hu
  refine Prog.Leads.bind (G := fun sealed v => v = u ∧ sealed.version = sealVersion ∧
    Syndeo.«unseal» C sealed wrappingKey passphrase = .ok seed) ?_ fun sealed v hv =>
      Prog.leads_pure ⟨hv.1, hkey, hv.2⟩
  refine Prog.leads_return fun sealed hsealed => ?_
  rcases hresult : «seal» C seed wrappingKey passphrase kdf hint salt innerNonce outerNonce
    with e | sealed'
  · simp [hresult, Except.mapError] at hsealed
  · obtain rfl : sealed' = sealed := by simpa [hresult, Except.mapError] using hsealed
    exact ⟨rfl, unseal_seal hC hinner houter hresult⟩

/-- **What a process keeps to**: where it returns no error, its home was set up. -/
theorem leads_initializeKeystore (hC : C.Lawful) (passphrase : Option String) :
    Prog.Leads progressing (Keystore.initializeKeystore P C build passphrase) start
      fun r u => SetUp C build passphrase r.1 u := by
  refine leads_checkCanInitialize.bind fun _ u hu => ?_
  subst hu
  refine Prog.Leads.bind (G := fun _ u => u = start) ?_ fun _ u hu => ?_
  · rw [Keystore.requirePassphrase]
    split
    · exact Prog.leads_throw
    · exact Prog.leads_pure rfl
  subst hu
  refine (leads_act (u := start) fun _ => rfl).bind fun entropy u hu => ?_
  obtain ⟨rfl, -⟩ := hu
  refine Prog.Leads.bind (G := fun _ u => u = start) (Prog.leads_return fun _ _ => rfl)
    fun mnemonic u hu => ?_
  subst hu
  refine Prog.Leads.bind (G := fun _ u => SetUp C build passphrase mnemonic u) ?_
    fun _ u hu => Prog.leads_pure hu
  refine (leads_sealSeed hC _ passphrase _).bind fun r u hu => ?_
  obtain ⟨rfl, hkey, hversion, hunseal⟩ := hu
  refine (leads_raising (leads_store r.1)).bind fun _ u hu => ?_
  subst hu
  refine (leads_raising (leads_writeSealed _)).bind fun _ u hu => ?_
  refine (leads_act (u := u) fun _ => rfl).bind fun _ v hv => ?_
  refine (leads_act (u := v) fun _ => rfl).bind fun _ v' hv' => ?_
  exact Prog.leads_pure ⟨r.1, r.2, hkey, hv'.1.trans (hv.1.trans hu), hversion, hunseal⟩

/-- What opens a sealed seed that is in its place. -/
theorem opens_of_placed (hC : C.Lawful) {k : Keystore} {sealed : SealedSeed}
    (hfile : k.vault.file = some (.placed (C.showSealed sealed)))
    (hversion : sealed.version = sealVersion) (passphrase : Option String) :
    k.opens C build passphrase = (k.ring.key build).bind fun key =>
      (Syndeo.«unseal» C sealed key passphrase).toOption := by
  have hread : SealedSeed.fromBytes C (C.showSealed sealed) = .ok sealed := by
    rw [SealedSeed.fromBytes, hC.reads]
    exact if_neg (not_not.mpr hversion)
  have hsealed : VaultFile.sealed C k.vault.path (.placed (C.showSealed sealed)) = some sealed := by
    rw [VaultFile.sealed, if_pos (VaultFile.audit_placed _ _)]
    exact congrArg Except.toOption hread
  rw [Keystore.opens, opensWith, hfile, Option.bind_some, hsealed, Option.bind_some]

/-- **What was set up can be unsealed**, where what is known of it is so. -/
theorem SetUp.opens (hC : C.Lawful) {passphrase : Option String} {phrase : String}
    (h : SetUp C build passphrase phrase t) {k : Keystore} (ht : t.Holds k.ring k.vault) :
    k.opens C build passphrase = some (C.mnemonicSeed phrase) := by
  obtain ⟨key, sealed, hlength, rfl, hversion, hunseal⟩ := h
  have hkey : k.ring.key build = some key := by
    rcases hbuild : build.presenceAvailable with _ | _
    · have htext := ht.keychain (hexEncode key) (by simp [storing, hbuild])
      simp [Ring.key, Ring.enclaveSeen, hbuild, htext, Keystore.readKey_hexEncode hlength,
        Except.toOption]
    · have hitem := ht.enclave key (by simp [storing, hbuild])
      simp [Ring.key, Ring.enclaveSeen, hbuild, hitem, hlength]
  rw [opens_of_placed hC ht.stage hversion, hkey, Option.bind_some, hunseal]
  rfl

end Progress

/-! ### Every run -/

namespace Homes

variable {P : Platform} {C : Crypto} {build : ℕ → Build} {passphrase : ℕ → Option String}

/-- What is drawn is as long as it should be. -/
theorem answers_perform {w : Moment} {k : Keystore} {b : Build} {β : Type} (a : CustodyAct β) :
    a.Answers (k.perform b w a).1 := by
  cases a with
  | random draw => simp [Keystore.perform, CustodyAct.Answers]
  | _ => trivial

/-- Every process keeps track of its progress, from the start on. -/
theorem obeys_processes (hC : C.Lawful) {n i : ℕ}
    {p : Prog CustodyAct (Except KeystoreError (String × Address))}
    (h : (processes P C build passphrase n)[i]? = some p) :
    p.Obeys progressing
      (fun r u => ∀ a, r = .ok a → Progress.SetUp C (build i) (passphrase i) a.1 u) .start := by
  rw [processes, List.getElem?_map] at h
  obtain ⟨j, hj, rfl⟩ := Option.map_eq_some_iff.mp h
  obtain ⟨hlt, hget⟩ := List.getElem?_eq_some_iff.mp hj
  obtain rfl : i = j := List.getElem_range hlt ▸ hget
  exact Progress.leads_initializeKeystore hC (passphrase i)

variable (build) in
/-- What is foreseen of a step that keeps an invariant. -/
theorem governs_of_step {S : System CustodyAct Homes (Except KeystoreError (String × Address))}
    (hchild : ∀ {β : Type} (a : CustodyAct β), S.child a = none)
    {I : Homes → (ℕ → Progress) → Prop}
    (Q : ℕ → Except KeystoreError (String × Address) → Progress → Prop)
    (hstep : ∀ i n {β : Type} (a : CustodyAct β) s b s' t, I s t → S.step i n a s b s' →
      (∃ w, perform build w i a s = some (b, s')) ∧
        I s' (Function.update t i ((t i).next a b))) : Governs S progressing I Q := by
  refine ⟨fun i n β a s b s' t _ hinv _ hs => ?_, fun _ _ a _ _ _ hsome => ?_⟩
  · obtain ⟨⟨w, hperform⟩, hinv'⟩ := hstep i n a s b s' t hinv hs
    obtain rfl := (Prod.mk.inj (Option.some.inj hperform)).1
    refine ⟨answers_perform a, ?_⟩
    rw [hchild, Option.isSome_none, Discipline.advance_false]
    exact hinv'
  · rw [hchild] at hsome
    exact nomatch hsome

/-! #### The sealed seeds -/

/-- What every process knows of its file is so. -/
def Filed (s : Homes) (t : ℕ → Progress) : Prop := ∀ i, (t i).stage.Holds (s.home i).vault

theorem Filed.step {s s' : Homes} {t : ℕ → Progress} {w : Moment} {i : ℕ} {β : Type}
    {a : CustodyAct β} {b : β} (h : s.Filed t) (hstep : perform build w i a s = some (b, s')) :
    s'.Filed (Function.update t i ((t i).next a b)) := by
  obtain ⟨rfl, rfl⟩ := Prod.mk.inj (Option.some.inj hstep)
  intro j
  rcases eq_or_ne j i with rfl | hne
  · rw [Function.update_self]
    have hown := Keystore.stage_perform (k := s.keystore j) (build j) w a (h j)
    rw [Progress.stage_next]
    simpa [put] using hown
  · rw [Function.update_of_ne hne, home_put_of_ne hne]
    exact h j

/-- **Whatever the interleaving**, a home whose `initialize` returned has a sealed seed
in its place that opens under a wrapping key that was drawn for it. -/
theorem placed_of_runs (hC : C.Lawful) {homes : Homes} {n i : ℕ}
    {c : Config CustodyAct Homes (Except KeystoreError (String × Address))}
    (hruns : (enrolling build).Runs ⟨homes, processes P C build passphrase n⟩ c)
    {phrase : String} {address : Address} (hi : c.result i = some (.ok (phrase, address))) :
    ∃ key sealed, (c.shared.home i).vault.file = some (.placed (C.showSealed sealed)) ∧
      sealed.version = sealVersion ∧
      Syndeo.«unseal» C sealed key (passphrase i) = .ok (C.mnemonicSeed phrase) := by
  have hgoverns : Governs (enrolling build) progressing Filed fun i r u => ∀ a, r = .ok a →
      Progress.SetUp C (build i) (passphrase i) a.1 u := by
    refine governs_of_step build (fun _ => rfl) _ fun i n β a s b s' t hfiled hs => ?_
    obtain ⟨w, -, hperform⟩ := hs
    exact ⟨⟨w, hperform⟩, hfiled.step hperform⟩
  obtain ⟨t, hfiled, hsetUp⟩ := (Kept.runs hgoverns ⟨fun _ => .start, fun _ => trivial,
    fun _ _ hp => obeys_processes hC hp⟩ hruns).returned (Config.result_eq_some.mp hi)
  obtain ⟨key, sealed, -, ht, hversion, hunseal⟩ := hsetUp _ rfl
  have hstage := hfiled i
  rw [ht] at hstage
  exact ⟨key, sealed, hstage, hversion, hunseal⟩

/-! #### The wrapping keys -/

/-- What every process knows of itself is so. -/
def Tracked (s : Homes) (t : ℕ → Progress) : Prop := ∀ i, (t i).Holds s.ring (s.home i).vault

/-- A step that replaces no wrapping key leaves it so. -/
theorem Tracked.step {s s' : Homes} {t : ℕ → Progress} {w : Moment} {i : ℕ} {β : Type}
    {a : CustodyAct β} {b : β} (h : s.Tracked t) (ha : a.replaces s.ring = false)
    (hstep : perform build w i a s = some (b, s')) :
    s'.Tracked (Function.update t i ((t i).next a b)) := by
  obtain ⟨rfl, rfl⟩ := Prod.mk.inj (Option.some.inj hstep)
  intro j
  rcases eq_or_ne j i with rfl | hne
  · rw [Function.update_self]
    have hown := Progress.Holds.own (k := s.keystore j) (build j) w (h j) ha
    simpa [put] using hown
  · rw [Function.update_of_ne hne, home_put_of_ne hne]
    exact (h j).beside (k := s.keystore i) (build i) w ha

end Homes

open Homes

/-- **Enrolments that replace no wrapping key do not orphan each other**: in every run of
any number of processes that set up homes over one credential store, in which no step
takes away or replaces a wrapping key that is there, each home whose `initialize`
returned can be unsealed with its passphrase, in every state from then on. -/
theorem unseals_of_runs (P : Platform) (C : Crypto) (hC : C.Lawful) (build : ℕ → Build)
    (passphrase : ℕ → Option String) (homes : Homes) (n : ℕ)
    {c : Config CustodyAct Homes (Except KeystoreError (String × Address))}
    (hruns : ((enrolling build).when fun _ {_} a s => a.replaces s.ring = false).Runs
      ⟨homes, processes P C build passphrase n⟩ c)
    {i : ℕ} {phrase : String} {address : Address}
    (hi : c.result i = some (.ok (phrase, address))) {world : World} (hworld : world.Calm) :
    ((c.shared.keystore i).run (build i) world
      (Keystore.«unseal» C (build i) (passphrase i))).1 = .ok () := by
  have hgoverns : Governs ((enrolling build).when fun _ {_} a s => a.replaces s.ring = false)
      progressing Tracked fun i r u => ∀ a, r = .ok a →
        Progress.SetUp C (build i) (passphrase i) a.1 u := by
    refine governs_of_step build (fun _ => rfl) _ fun i n β a s b s' t htracked hs => ?_
    obtain ⟨ha, w, -, hperform⟩ := hs
    exact ⟨⟨w, hperform⟩, htracked.step ha hperform⟩
  obtain ⟨t, htracked, hsetUp⟩ := (Kept.runs hgoverns ⟨fun _ => .start,
    fun _ => Progress.holds_start, fun _ _ hp => obeys_processes hC hp⟩ hruns).returned
      (Config.result_eq_some.mp hi)
  have hopens := (hsetUp _ rfl).opens hC (k := c.shared.keystore i) (htracked i)
  rw [Keystore.run_unseal_of_opens hworld hopens]

/-! ### Two processes at once

Two homes of one user on Linux, neither of which was set up. -/

namespace Crypto

/-- The recovery phrase of 32 bytes of zeros. -/
def firstPhrase : String :=
  "abandon abandon abandon abandon abandon abandon abandon abandon abandon abandon abandon " ++
    "abandon abandon abandon abandon abandon abandon abandon abandon abandon abandon abandon " ++
    "abandon art"

/-- The recovery phrase of 32 bytes of ones. -/
def secondPhrase : String :=
  "zoo zoo zoo zoo zoo zoo zoo zoo zoo zoo zoo zoo zoo zoo zoo zoo zoo zoo zoo zoo zoo zoo zoo vote"

/-- The seed of the first phrase. -/
def firstSeed : Bytes :=
  beBytes 32 0x408b285c123836004f4b8842c89324c1f01382450c0d439af345ba7fc49acf70 ++
    beBytes 32 0x5489c6fc77dbd4e3dc1dd8cc6bc9f043db8ada1e243c4a0eafb290d399480840

/-- The first seed under the key of the passphrase. -/
def firstInner : Bytes :=
  beBytes 32 0xf823e37b72988ec66fc0dc1c379d2651d8de4d5cd3895ce0fb2cf83864b277e7 ++
    beBytes 32 0x4974fdf072767a0db312d771e5b7ac027e65b7ca0be48d05928005950cd63019 ++
    beBytes 16 0xc4ccfb49d50db464affd437d67e3a336

/-- And under its wrapping key. -/
def firstOuter : Bytes :=
  beBytes 32 0x4dfb24f561da8c730afea773f3a3566fe4650fd156883713b4324d549f6741f8 ++
    beBytes 32 0xe66de46f7d65e6772d2f1775d016af4462dd11b7882b9dd5add1287dbba50908 ++
    beBytes 32 0x67056df0178296e26006ee74719d1c352d621647194721ecd257392090529123

/-- The keys along the path of the first identity, from the master key on. -/
def firstKeys : List Bytes :=
  [beBytes 32 0x675f1956184972dd0353022d431c6417e8acdce50204de234fd8df9323d152f6 ++
      beBytes 32 0x531d623d2e03cb2ff52b474821c278fb3acb6173cd6d831193a4ab27ab0a059c,
    beBytes 32 0x94f213ecf7010bc85c80f5b7fced42d1869f3d70c78657e5b55f5c453f32e680 ++
      beBytes 32 0xcc1458f9a54bcb96effc9cbedd73dfda6dba2bb0c2b65b9aa22128450ea82519,
    beBytes 32 0xb0475e2a5f6a4a1264b5c785206f5a2035db10c28880e1219cf6115250224fff ++
      beBytes 32 0x9f4ffcf5e934bc940484fe7802ed1aa9440f65d90f7641eba63e0a87747d43e8,
    beBytes 32 0xf9dcbfe4c0df0bbec8a703f650599695129e626185a1145b468526cc0834615d ++
      beBytes 32 0x50d9235d78b8c725689d77e43b5d08281ac62dfa42f5d3082a6b14c419a49a68]

/-- The seed of the second phrase. -/
def secondSeed : Bytes :=
  beBytes 32 0xe28a37058c7f5112ec9e16a3437cf363a2572d70b6ceb3b6965447623d620f14 ++
    beBytes 32 0xd06bb321a26b33ec15fcd84a3b5ddfd5520e230c924c87aaa0d559749e044fef

/-- The second seed under the key of the passphrase. -/
def secondInner : Bytes :=
  beBytes 32 0x2b4069e362a6cbd587cc8f1506aa4a00ee6595e6e524ab49d80b420472a604c8 ++
    beBytes 32 0x6c76cf054af33c17187e5a6030b7c293394cd4d834a3667c3f46f4546f0d6236 ++
    beBytes 16 0x1bf17dec2f721b3c3ef9db9b661f2808

/-- And under its wrapping key. -/
def secondOuter : Bytes :=
  beBytes 32 0x249d4040a354d7373d29d2c9df8c9a4240d126827ed4e0704de7df1cb8e2aaf6 ++
    beBytes 32 0x5bf744dd3c6fb786143cc7362c213066a66ea85a1edbbebef8bc2a55ba828456 ++
    beBytes 32 0xedf1b2b848a247b822ce329cfe5f38f1683be50616726d9aa1eea6c1e2986df8

/-- The keys along the path of the second identity, from the master key on. -/
def secondKeys : List Bytes :=
  [beBytes 32 0x3bb84ae96187e9eedc77b123c003367be03740096d5b33bd5a9e30d76a661757 ++
      beBytes 32 0x24d5db153e5efae69a6d7090f1eca632739797c3589fb2cc312c371386d20f48,
    beBytes 32 0xc398cfeae985be97f043ded29209cd4d839d38ba50fc9f34e66be98ef92a96e6 ++
      beBytes 32 0x781aa25cc837479ac48daa969fbe621df1bcd9913202d3f7e3339c3053bdd265,
    beBytes 32 0x2134b254cfbea29cc5013eca63273154e26b0746960c6302ff663a10c357d19b ++
      beBytes 32 0xdb37f1a27db023345bf3d46e353d009cc6e8d1414e8bed46c75c73d4759d9715,
    beBytes 32 0x7cc0a01f0cbf8791e1096abc15f69382b23b7613866dabde98e2d7cf0143836e ++
      beBytes 32 0x31e2af243a272e88d5bc4e74737575689aecda176e9310f56deacdaee47f3be7]

/-- The seed of a phrase. -/
def seedOf (phrase : String) : Bytes := if phrase = secondPhrase then secondSeed else firstSeed

theorem seedOf_firstPhrase : seedOf firstPhrase = firstSeed := by
  have hne : firstPhrase ≠ secondPhrase := by decide +kernel
  rw [seedOf, if_neg hne]

/-- What is encrypted: the key, the nonce, the plaintext, and what comes of it. -/
def encryptions : List (Bytes × Bytes × Bytes × Bytes) :=
  [(newDerived, (List.range 24).map counted, firstSeed, firstInner),
    ((List.range 32).map counted, (List.range 24).map counted, firstInner, firstOuter),
    (oldDerived, oldNonce, secondSeed, secondInner), (oldKey, oldNonce, secondInner, secondOuter)]

/-- The first sealed seed. -/
def firstSealed : SealedSeed where
  version := 1
  passphraseLayer := true
  kdf := sampleCost
  kdfSalt := hexEncode ((List.range 16).map counted)
  innerNonce := hexEncode ((List.range 24).map counted)
  outerNonce := hexEncode ((List.range 24).map counted)
  ciphertext := hexEncode firstOuter
  identityHint := "6d3w7V1x5bVHK7xf6s75JpHQWd9Ed6Xsg"

/-- A sealed seed as numbers, and back. -/
def toNumbers (s : SealedSeed) : ℕ × Bool × (ℕ × ℕ × ℕ) × List (List ℕ) :=
  (s.version, s.passphraseLayer, (s.kdf.mCost, s.kdf.tCost, s.kdf.pCost),
    [s.kdfSalt, s.innerNonce, s.outerNonce, s.ciphertext, s.identityHint].map fun text =>
      text.toList.map Char.toNat)

/-- What was written as numbers. -/
def ofNumbers (n : ℕ × Bool × (ℕ × ℕ × ℕ) × List (List ℕ)) : SealedSeed :=
  let text := fun i => String.ofList ((n.2.2.2.getD i []).map Char.ofNat)
  ⟨n.1, n.2.1, ⟨n.2.2.1.1, n.2.2.1.2.1, n.2.2.1.2.2⟩, text 0, text 1, text 2, text 3, text 4⟩

theorem ofNumbers_toNumbers (s : SealedSeed) : ofNumbers (toNumbers s) = s := by
  have htext : ∀ text : String, String.ofList ((text.toList.map Char.toNat).map Char.ofNat) = text :=
    fun text => by simp [Function.comp_def]
  rcases s with ⟨_, _, ⟨_, _, _⟩, _, _, _, _, _⟩
  simp only [toNumbers, ofNumbers, List.map_cons, List.map_nil, List.getD_cons_zero,
    List.getD_cons_succ, htext]

/-- The first sealed seed as `serde_json` lays it out; another in a way of its own. -/
def showFirst (s : SealedSeed) : Bytes :=
  if s = firstSealed then showSealedSeed s
  else 0 :: List.replicate (Encodable.encode (toNumbers s)) 0

/-- And back. -/
def readFirst (bytes : Bytes) : Except String SealedSeed :=
  if bytes = showSealedSeed firstSealed then .ok firstSealed
  else
    match Encodable.decode (bytes.length - 1) with
    | some n => .ok (ofNumbers n)
    | none => .error "expected value at line 1 column 1"

/-- The libraries, on what two processes that set up their homes call them with. -/
def enrolments : Crypto where
  hmacSha256 := sampleHmac
  hmacSha512 := fun key message =>
    if message = firstSeed then firstKeys.headD []
    else if message = secondSeed then secondKeys.headD []
    else
      match (firstKeys ++ secondKeys).findIdx? fun k => k.drop 32 == key with
      | some i => (firstKeys ++ secondKeys).getD (i + 1) []
      | none => []
  publicKey := fun key =>
    if key = (firstKeys.getLastD []).take 32 then
      beBytes 32 0x35a597be28cd361d3f33143093ca0f120276b75ea701c47e7c45a49a76b9fc5d
    else beBytes 32 0x460181f6f01199b4e33239e5b828382f7befd15e934e0c31eb67825ccbe66dfd
  sign := fun _ _ => []
  argon2id := fun _ _ salt => .ok (if salt = oldSalt then oldDerived else newDerived)
  encrypt := fun key nonce _ plaintext =>
    (encryptions.find? fun e => (e.1, e.2.1, e.2.2.1) = (key, nonce, plaintext)).map (·.2.2.2)
  decrypt := fun key nonce _ ciphertext =>
    (encryptions.find? fun e => (e.1, e.2.1, e.2.2.2) = (key, nonce, ciphertext)).map (·.2.2.1)
  base58 := fun bytes =>
    if bytes.drop 20 = beBytes 4 0xff878edb then "6d3w7V1x5bVHK7xf6s75JpHQWd9Ed6Xsg"
    else "5xSK78EuNpxAzoToRM41XUnX2Bg2f2EdD"
  mnemonicFromEntropy := fun entropy =>
    if entropy = List.replicate 32 0x00 then .ok firstPhrase
    else if entropy = List.replicate 32 0xff then .ok secondPhrase
    else .error "mnemonic has an invalid checksum"
  parseMnemonic := fun _ => .error "mnemonic has an invalid word count: 0"
  mnemonicSeed := seedOf
  showSealed := showFirst
  readSealed := readFirst
  hexError := fun _ => "Odd number of digits"

/-- What is written in a way of its own is no JSON object. -/
theorem showSealedSeed_ne (s : SealedSeed) (bytes : Bytes) : 0 :: bytes ≠ showSealedSeed s := by
  have hgeneral : ∀ x y z : String, x.toList.head? = some '\x7b' →
      0 :: bytes ≠ Text.utf8 (x ++ y ++ z) := by
    intro x y z hx h
    rw [Text.utf8, String.toList_append, String.toList_append] at h
    rcases hchars : x.toList with _ | ⟨c, chars⟩
    · rw [hchars] at hx
      exact nomatch hx
    · rw [hchars] at h hx
      obtain rfl : c = '\x7b' := Option.some.inj hx
      have hhead : (0 : UInt8) = 0x7b := Option.some.inj (congrArg List.head? h)
      exact absurd hhead (by decide)
  exact hgeneral _ _ _ (by decide)

theorem readFirst_showFirst (s : SealedSeed) : readFirst (showFirst s) = .ok s := by
  rw [showFirst, readFirst]
  by_cases hs : s = firstSealed
  · rw [if_pos hs, hs, if_pos rfl]
  · rw [if_neg hs, if_neg (showSealedSeed_ne _ _), List.length_cons, List.length_replicate,
      Nat.add_sub_cancel, Encodable.encodek]
    exact congrArg Except.ok (ofNumbers_toNumbers s)

/-- They are as they should be. -/
theorem lawful_enrolments : enrolments.Lawful := by
  constructor
  · intro key nonce aad plaintext ciphertext h
    obtain ⟨e, hfind, rfl⟩ := Option.map_eq_some_iff.mp h
    have hback : ∀ e ∈ encryptions, (encryptions.find? fun e' =>
        (e'.1, e'.2.1, e'.2.2.2) = (e.1, e.2.1, e.2.2.2)).map (·.2.2.1) = some e.2.2.1 := by
      decide +kernel
    obtain ⟨rfl, rfl, rfl⟩ : e.1 = key ∧ e.2.1 = nonce ∧ e.2.2.1 = plaintext := by
      simpa using List.find?_some hfind
    exact hback e (List.mem_of_find?_eq_some hfind)
  · exact readFirst_showFirst

end Crypto

/-- BLAKE3 of the public keys of the two identities, of their addresses, and of the
addresses' hashes. -/
def Platform.enrolments : Platform where
  __ := Platform.sample
  blake3 := fun bytes =>
    ((([(beBytes 32 0x35a597be28cd361d3f33143093ca0f120276b75ea701c47e7c45a49a76b9fc5d,
          0x464ba5287a09be6d729de7393daa0d4676152ccf69aab5f1a322f2439ef74e10),
        (beBytes 20 0x3daa0d4676152ccf69aab5f1a322f2439ef74e10,
          0xfcfc9ab8dbcdbf2829abc21b8a614d1d691badf0fe8712f571617ded0e943713),
        (beBytes 32 0xfcfc9ab8dbcdbf2829abc21b8a614d1d691badf0fe8712f571617ded0e943713,
          0xff878edb1f14a1761559ca89d676f6598fe9f0ef3de91f7c426790349edea3f1),
        (beBytes 32 0x460181f6f01199b4e33239e5b828382f7befd15e934e0c31eb67825ccbe66dfd,
          0xcd2afce5c2749a7072cf5f8f365c82b4670b39359ac85adbd4c48d3e257627e2),
        (beBytes 20 0x365c82b4670b39359ac85adbd4c48d3e257627e2,
          0x96c6b9bcd7ca0cb2bbf23a38535c5234570d9f527bc00f7346f2695e509648e8),
        (beBytes 32 0x96c6b9bcd7ca0cb2bbf23a38535c5234570d9f527bc00f7346f2695e509648e8,
          0xf9e1a8f0a68b21f939091618969eaea93330b0660734ba2f241d6146bc5eef3f)]
      : List (Bytes × ContentId)).lookup bytes).getD 0)

namespace Homes

/-- Two homes in which nothing was set up. -/
def unenrolled : Homes where
  ring := ⟨none, none⟩
  home := fun i =>
    { vault := ⟨if i = 0 then "/home/a/.syndeo/.keystore/seed.sealed"
        else "/home/a/work/.keystore/seed.sealed", none, none⟩
      session := ⟨none, ⟨some 300, ⟨0, 0⟩⟩⟩ }

/-- A moment at which nothing is amiss. -/
def quietMoment (random : ℕ → UInt8) : Moment := ⟨⟨0, 0⟩, random, 1, none, none⟩

/-- The first process from where it draws its entropy on. -/
def firstRest : List (Moment × ℕ) :=
  (quietMoment fun _ => 0, 0) :: List.replicate 13 (quietMoment Crypto.counted, 0)

/-- The second process from there until it has stored its wrapping key. -/
def secondRest : List (Moment × ℕ) :=
  (quietMoment fun _ => 0xff, 1) :: List.replicate 6 (quietMoment fun _ => 0x55, 1)

/-- A process that asks whether it may go ahead. -/
def asks (i : ℕ) : List (Moment × ℕ) := List.replicate 2 (quietMoment fun _ => 0, i)

/-- The processes, before either has done anything. -/
abbrev atStart (n : ℕ) : Config CustodyAct Homes (Except KeystoreError (String × Address)) :=
  ⟨unenrolled, processes .enrolments .enrolments (fun _ => .elsewhere) (fun _ => some "a") n⟩

/-- The process has set up its home, from the phrase. -/
def enrolled (i : ℕ) (phrase : String)
    (c : Config CustodyAct Homes (Except KeystoreError (String × Address))) : Bool :=
  match c.result i with
  | some (.ok r) => r.1 == phrase
  | _ => false

theorem result_of_enrolled {i : ℕ} {phrase : String}
    {c : Config CustodyAct Homes (Except KeystoreError (String × Address))}
    (h : enrolled i phrase c = true) : ∃ address, c.result i = some (.ok (phrase, address)) := by
  rw [enrolled] at h
  split at h
  · rename_i r hr
    obtain rfl : r.1 = phrase := by simpa using h
    exact ⟨r.2, hr⟩
  · exact absurd h (by simp)

/-- A world in which nothing is amiss. -/
def quietWorld : World := ⟨fun {_} _ => quietMoment fun _ => 0⟩

theorem calm_quietWorld : quietWorld.Calm := fun _ h => h rfl

/-- **The first sealed seed does not open** under the second process's wrapping key. -/
theorem unseal_firstSeed {sealed : SealedSeed} {key : Bytes}
    (h : Syndeo.«unseal» .enrolments sealed key (some "a") = .ok Crypto.firstSeed) :
    Syndeo.«unseal» .enrolments sealed Crypto.oldKey (some "a") = .error .«unseal» := by
  have hmem : ∀ {key nonce ciphertext plaintext : Bytes},
      Syndeo.decrypt .enrolments key nonce ciphertext = .ok plaintext →
        (key, nonce, plaintext, ciphertext) ∈ Crypto.encryptions := by
    intro key nonce ciphertext plaintext hdecrypt
    rcases hsome : Crypto.enrolments.decrypt key nonce sealAad ciphertext with _ | bytes
    · rw [Syndeo.decrypt, hsome] at hdecrypt
      cases hdecrypt
    · rw [Syndeo.decrypt, hsome] at hdecrypt
      obtain rfl : bytes = plaintext := Except.ok.inj hdecrypt
      obtain ⟨e, hfind, rfl⟩ := Option.map_eq_some_iff.mp hsome
      obtain ⟨rfl, rfl, rfl⟩ : e.1 = key ∧ e.2.1 = nonce ∧ e.2.2.2 = ciphertext := by
        simpa using List.find?_some hfind
      exact List.mem_of_find?_eq_some hfind
  obtain ⟨hlayer, outerNonce, ciphertext, inner, innerNonce, derived, hnonce, hcipher, houter,
    hinner⟩ := layers_of_unseal h
  have hfirst : ∀ e ∈ Crypto.encryptions,
      e.2.2.1 = Crypto.firstSeed → e.2.2.2 = Crypto.firstInner := by decide +kernel
  have hsecond : ∀ e ∈ Crypto.encryptions,
      e.2.2.1 = Crypto.firstInner → e.2.2.2 = Crypto.firstOuter := by decide +kernel
  have hkey : ∀ e ∈ Crypto.encryptions, e.2.2.2 = Crypto.firstOuter → e.1 ≠ Crypto.oldKey := by
    decide +kernel
  obtain rfl : inner = Crypto.firstInner := hfirst _ (hmem hinner) rfl
  obtain rfl : ciphertext = Crypto.firstOuter := hsecond _ (hmem houter) rfl
  refine unseal_of_decrypt_error hlayer hnonce hcipher ?_
  rcases hsome : Crypto.enrolments.decrypt Crypto.oldKey outerNonce sealAad Crypto.firstOuter
    with _ | plaintext
  · rw [Syndeo.decrypt, hsome]
    rfl
  · have hdecrypt : Syndeo.decrypt .enrolments Crypto.oldKey outerNonce Crypto.firstOuter =
        .ok plaintext := by
      rw [Syndeo.decrypt, hsome]
      rfl
    exact absurd rfl (hkey _ (hmem hdecrypt) rfl)

end Homes

/-- **A home that is set up by itself** replaces nothing. -/
theorem unseals_of_runs_alone : ∃ c : Config CustodyAct Homes
      (Except KeystoreError (String × Address)),
    ((enrolling fun _ => .elsewhere).when fun _ {_} a s => a.replaces s.ring = false).Runs
      (atStart 1) c ∧
    ((c.shared.keystore 0).run .elsewhere quietWorld
      (Keystore.«unseal» .enrolments .elsewhere (some "a"))).1 = .ok () := by
  have hfollow : ((atStart 1).follow (allowing (fun _ {_} a s => a.replaces s.ring = false)
      (perform fun _ => .elsewhere)) (fun _ => none) (asks 0 ++ firstRest)).any
        (enrolled 0 Crypto.firstPhrase) = true := by decide +kernel
  obtain ⟨c, hruns, hc⟩ : ∃ c, (System.ofPerform (allowing (fun _ {_} a s =>
      a.replaces s.ring = false) (perform fun _ => .elsewhere)) (fun _ => True)
        fun _ => none).Runs (atStart 1) c ∧ enrolled 0 Crypto.firstPhrase c = true :=
    Config.exists_runs_of_follow (fun _ _ => trivial) hfollow
  rw [System.ofPerform_allowing] at hruns
  obtain ⟨address, hi⟩ := result_of_enrolled hc
  exact ⟨c, hruns, unseals_of_runs .enrolments .enrolments Crypto.lawful_enrolments _ _ _ 1 hruns
    hi calm_quietWorld⟩

/-- **Two processes at once**: the second asks before the first has stored its wrapping
key, and replaces it once the first has returned. -/
theorem orphaned_by_enrolment : ¬∀ (P : Platform) (C : Crypto), C.Lawful →
    ∀ (build : ℕ → Build) (passphrase : ℕ → Option String) (homes : Homes) (n : ℕ)
      (c : Config CustodyAct Homes (Except KeystoreError (String × Address))),
      (enrolling build).Runs ⟨homes, processes P C build passphrase n⟩ c →
        ∀ i phrase address, c.result i = some (.ok (phrase, address)) →
          ∀ world : World, world.Calm → ((c.shared.keystore i).run (build i) world
            (Keystore.«unseal» C (build i) (passphrase i))).1 = .ok () := by
  intro h
  have hfollow : ((atStart 2).follow (perform fun _ => .elsewhere) (fun _ => none)
      (asks 1 ++ asks 0 ++ firstRest ++ secondRest)).any (fun c =>
        enrolled 0 Crypto.firstPhrase c &&
          c.shared.ring.keychain == some (hexEncode Crypto.oldKey)) = true := by decide +kernel
  obtain ⟨c, hruns, hc⟩ : ∃ c, (enrolling fun _ => .elsewhere).Runs (atStart 2) c ∧
      (enrolled 0 Crypto.firstPhrase c &&
        c.shared.ring.keychain == some (hexEncode Crypto.oldKey)) = true :=
    Config.exists_runs_of_follow (fun _ _ => trivial) hfollow
  rw [Bool.and_eq_true, beq_iff_eq] at hc
  obtain ⟨address, hi⟩ := result_of_enrolled hc.1
  have hunsealed := h .enrolments .enrolments Crypto.lawful_enrolments _ _ _ _ c hruns 0 _ _ hi
    quietWorld calm_quietWorld
  obtain ⟨key, sealed, hfile, hversion, hunseal⟩ := placed_of_runs Crypto.lawful_enrolments hruns hi
  have hseed : Crypto.enrolments.mnemonicSeed Crypto.firstPhrase = Crypto.firstSeed :=
    Crypto.seedOf_firstPhrase
  have hkey : (c.shared.keystore 0).ring.key .elsewhere = some Crypto.oldKey := by
    have htext : (c.shared.keystore 0).ring.keychain = some (hexEncode Crypto.oldKey) := hc.2
    simp [Ring.key, Ring.enclaveSeen, Build.presenceAvailable, htext,
      Keystore.readKey_hexEncode (show Crypto.oldKey.length = 32 from rfl), Except.toOption]
  have hclosed : (c.shared.keystore 0).opens .enrolments .elsewhere (some "a") = none := by
    rw [hseed] at hunseal
    rw [Progress.opens_of_placed Crypto.lawful_enrolments hfile hversion, hkey, Option.bind_some,
      unseal_firstSeed hunseal]
    rfl
  have hrun := @Keystore.run_unseal .enrolments .elsewhere quietWorld (c.shared.keystore 0)
    (some "a") calm_quietWorld
  rw [hclosed] at hrun
  obtain ⟨e, he⟩ := hrun
  rw [he] at hunsealed
  cases hunsealed

end Syndeo
