import Syndeo.Keystore.Session

/-!
# Enrolments that fail

An enrolment replaces two things that only work together: the wrapping key in the
credential store, and the sealed seed in the vault. It replaces the key first, and
has no way back. What could be unsealed before the call is
`Syndeo.Keystore.opens`, which is what `unseal` comes to when nothing fails
(`Syndeo.Keystore.run_unseal`).

Setting up where nothing is loses nothing, whatever fails. A restore that fails
loses what was there exactly when something was there, the key to it is replaced
or erased before the failure, and what is left does not happen to open alike
(`Syndeo.enrolment_survived_iff`).
-/

namespace Syndeo

open Text Concurrent

/-! ### What can be unsealed -/

/-- The wrapping key that `load` finds when nothing fails. -/
def Ring.key (ring : Ring) (build : Build) : Option Bytes :=
  match ring.enclaveSeen build with
  | some key => if key.length = 32 then some key else none
  | none => ring.keychain.bind fun text => (OsKeyring.readKey text).toOption

/-- The sealed seed that can be read from what is in the vault. -/
def VaultFile.sealed (C : Crypto) (path : String) (file : VaultFile) : Option SealedSeed :=
  if file.audit path = .ok () then (SealedSeed.fromBytes C file.bytes).toOption else none

/-- The seed that a file, a wrapping key and a passphrase give. -/
def opensWith (C : Crypto) (path : String) (file : Option VaultFile) (key : Option Bytes)
    (passphrase : Option String) : Option Bytes :=
  (file.bind (VaultFile.sealed C path)).bind fun sealed =>
    key.bind fun key => (Syndeo.«unseal» C sealed key passphrase).toOption

/-- The world lets the action fail. -/
def World.Fails (world : World) {β : Type} (a : CustodyAct β) : Prop :=
  (world.meets a).fault ≠ none

instance (world : World) {β : Type} (a : CustodyAct β) : Decidable (world.Fails a) :=
  inferInstanceAs (Decidable (_ ≠ _))

/-- The world in which nothing fails. -/
def World.Calm (world : World) : Prop := ∀ {β : Type} (a : CustodyAct β), ¬world.Fails a

namespace Keystore

variable {P : Platform} {C : Crypto} {build : Build} {world : World} {k k' : Keystore}
  {passphrase : Option String} {seed : Bytes}

variable (C build) in
/-- **What can be unsealed** with a passphrase: the seed. -/
def opens (k : Keystore) (passphrase : Option String) : Option Bytes :=
  opensWith C k.vault.path k.vault.file (k.ring.key build) passphrase

/-- The keystore, once a call has opened a session. -/
def opened (k : Keystore) (world : World) (master : ExtendedKey) : Keystore :=
  { k with
    session := ⟨some master, k.session.watch.touch (world.meets .touch).now⟩ }

theorem onDisk_of_calm {α : Type} {w : Moment} {go : Except CustodyError α × Vault}
    (hw : w.fault = none) : k.onDisk w go = (go.1, { k with vault := go.2 }) := by
  rw [onDisk, hw]

theorem onRing_of_calm {α : Type} {w : Moment} {go : Except WrappingError α × Ring}
    (hw : w.fault = none) : k.onRing w go = (go.1, { k with ring := go.2 }) := by
  rw [onRing, hw]

variable (build k) in
/-- `load` finds the key, when nothing fails, and changes nothing. -/
theorem run_load (hworld : world.Calm) : ∃ r,
    k.run build world (OsKeyring.load build) = (r, k) ∧ r.toOption = k.ring.key build := by
  have hcalm : ∀ {β : Type} (a : CustodyAct β), (world.meets a).fault = none := fun a =>
    not_not.mp (hworld a)
  have henrolled : k.run build world (OsKeyring.enrolledInEnclave build) =
      (.ok (k.ring.enclaveSeen build).isSome, k) := by
    cases build with
    | elsewhere => simp [OsKeyring.enrolledInEnclave, Ring.enclaveSeen, Build.presenceAvailable]
    | macos enrols =>
      simp only [OsKeyring.enrolledInEnclave, run_bind, run_outcome, run_tryAct, perform,
        onRing_of_calm (hcalm _), run_pure]
      cases (k.ring.enclaveSeen (.macos enrols)).isSome <;> rfl
  rw [OsKeyring.load, run_bind, henrolled]
  rcases hseen : k.ring.enclaveSeen build with _ | key
  · rcases htext : k.ring.keychain with _ | text
    · refine ⟨.error .missing, ?_, ?_⟩
      · simp [run_bind, perform, onRing_of_calm (hcalm _), htext]
      · simp [Ring.key, hseen, htext, Except.toOption]
    · refine ⟨OsKeyring.readKey text, ?_, ?_⟩
      · simp [run_bind, perform, onRing_of_calm (hcalm _), htext]
        rfl
      · simp [Ring.key, hseen, htext]
  · refine ⟨if key.length = 32 then .ok key else .error .malformed, ?_, ?_⟩
    · simp [perform, onRing_of_calm (hcalm _), hseen]
    · simp only [Ring.key, hseen]
      split <;> rfl

variable (C build k) in
/-- `load_sealed` finds what can be read, when nothing fails, and changes nothing. -/
theorem run_loadSealed (hworld : world.Calm) : ∃ r,
    k.run build world (loadSealed C .load) = (r, k) ∧
      r.toOption = k.vault.file.bind (VaultFile.sealed C k.vault.path) := by
  have hcalm : ∀ {β : Type} (a : CustodyAct β), (world.meets a).fault = none := fun a =>
    not_not.mp (hworld a)
  rcases hfile : k.vault.file with _ | file
  · refine ⟨.error .notInitialized, ?_, rfl⟩
    simp [loadSealed, run_bind, perform, hcalm, hfile, present]
  · by_cases haudit : file.audit k.vault.path = .ok ()
    · -- what passes the audit is a regular file, and is there
      have hpresent : present (some file) = true := by
        rcases hkind : file.kind with _ | resolves | _
        · simp [present, hkind]
        · simp [VaultFile.audit, hkind] at haudit
        · simp [VaultFile.audit, hkind] at haudit
      refine ⟨(SealedSeed.fromBytes C file.bytes).mapError .seal, ?_, ?_⟩
      · simp [loadSealed, Vault.readSealed, run_bind, perform, hcalm, hfile, hpresent,
          onDisk_of_calm (hcalm _), haudit, Except.mapError]
      · simp only [Option.bind_some, VaultFile.sealed, if_pos haudit]
        rcases SealedSeed.fromBytes C file.bytes with e | sealed <;> rfl
    · obtain ⟨e, he⟩ : ∃ e, file.audit k.vault.path = .error e := by
        rcases hresult : file.audit k.vault.path with e | ⟨⟩
        · exact ⟨e, rfl⟩
        · exact absurd hresult haudit
      by_cases hpresent : present (some file) = true
      · refine ⟨.error (.custody e), ?_, ?_⟩
        · simp [loadSealed, Vault.readSealed, run_bind, perform, hcalm, hfile, hpresent,
            onDisk_of_calm (hcalm _), he, Except.mapError]
        · simp [VaultFile.sealed, he, Except.toOption]
      · refine ⟨.error .notInitialized, ?_, ?_⟩
        · simp [loadSealed, run_bind, perform, hcalm, hfile, hpresent]
        · simp [VaultFile.sealed, he, Except.toOption]

/-- **What can be unsealed is what `unseal` unseals** when nothing fails. -/
theorem run_unseal (hworld : world.Calm) :
    match k.opens C build passphrase with
    | some seed => k.run build world (Keystore.«unseal» C build passphrase) =
        (.ok (), k.opened world (ExtendedKey.master C seed))
    | none => ∃ e, k.run build world (Keystore.«unseal» C build passphrase) = (.error e, k) := by
  have htoOption : ∀ {ε α : Type} (a : α), (Except.ok a : Except ε α).toOption = some a :=
    fun _ => rfl
  have htoOption' : ∀ {ε α : Type} (e : ε), (Except.error e : Except ε α).toOption = none :=
    fun _ => rfl
  obtain ⟨r, hrun, hsealed⟩ := run_loadSealed C build k hworld
  obtain ⟨r', hrun', hkey⟩ := run_load build k hworld
  rw [opens, opensWith, ← hsealed, ← hkey, Keystore.«unseal», run_bind, hrun]
  rcases r with e | sealed
  · exact ⟨e, rfl⟩
  · simp only [htoOption, Option.bind_some]
    by_cases hneeds : (sealed.passphraseLayer && passphrase.isNone) = true
    · have hunseal : ∀ key, (Syndeo.«unseal» C sealed key passphrase).toOption = none := fun key => by
        rw [Syndeo.«unseal», if_pos hneeds]
        rfl
      have hnone : (r'.toOption.bind fun key => (Syndeo.«unseal» C sealed key passphrase).toOption) =
          none := by
        rcases r' with e | key
        · rfl
        · exact hunseal key
      rw [hnone, if_pos hneeds]
      exact ⟨.passphraseRequired, rfl⟩
    · rw [if_neg hneeds]
      rcases r' with e | key
      · simp only [htoOption', Option.bind_none]
        exact ⟨.wrapping e, by simp [run_bind, hrun', Except.mapError]⟩
      · simp only [htoOption, Option.bind_some]
        rcases hresult : Syndeo.«unseal» C sealed key passphrase with e | seed
        · simp only [htoOption']
          exact ⟨.seal e, by simp [run_bind, hrun', Except.mapError, hresult]⟩
        · simp only [htoOption]
          simp [run_bind, hrun', Except.mapError, hresult]
          rfl

/-- What opens is unsealed. -/
theorem run_unseal_of_opens (hworld : world.Calm) (h : k.opens C build passphrase = some seed) :
    k.run build world (Keystore.«unseal» C build passphrase) =
      (.ok (), k.opened world (ExtendedKey.master C seed)) := by
  have hrun := @run_unseal C build world k passphrase hworld
  rwa [h] at hrun

end Keystore

/-! ### What an enrolment writes

Each piece is told by which of its actions the world lets fail. -/

namespace World

variable (world : World) (build : Build)

/-- What is drawn. -/
def drawn (draw : Draw) : Bytes := (List.range draw.length).map (world.meets (.random draw)).random

/-- What is sealed at. -/
def cost (passphrase : Option String) : KdfParams :=
  if passphrase.isSome then { KdfParams.default with tCost := (world.meets .calibrate).tCost }
  else .default

/-- The wrapping key that is there is taken away before the new one is stored. -/
def Erases : Prop := build.presenceAvailable = true ∧ ¬world.Fails .enclaveDelete

/-- The new wrapping key does not get into the credential store. -/
def StoreFails (ring : Ring) (key : Bytes) : Prop :=
  (build.presenceAvailable = true ∧
    (world.Fails (.enclaveAdd key) ∨ (world.Fails .enclaveDelete ∧ ring.enclave.isSome))) ∨
  (build.presenceAvailable = false ∧ world.Fails (.setPassword (hexEncode key)))

/-- The sealed seed that is there passes for one that may be replaced. -/
def Admits (vault : Vault) : Prop :=
  (¬world.Fails (.exists .write) ∧ Keystore.present vault.file = true) →
    ¬world.Fails .audit ∧ ∀ file ∈ vault.file, file.audit vault.path = .ok ()

/-- The new sealed seed gets into its place. -/
def Places (vault : Vault) (bytes : Bytes) : Prop :=
  world.Admits vault ∧ ¬world.Fails (.writeStaged bytes) ∧ ¬world.Fails .restrictStaged ∧
    ¬world.Fails .rename

instance : Decidable (world.Erases build) := inferInstanceAs (Decidable (_ ∧ _))

instance (ring : Ring) (key : Bytes) : Decidable (world.StoreFails build ring key) :=
  inferInstanceAs (Decidable (_ ∨ _))

instance (vault : Vault) : Decidable (world.Admits vault) := inferInstanceAs (Decidable (_ → _))

instance (vault : Vault) (bytes : Bytes) : Decidable (world.Places vault bytes) :=
  inferInstanceAs (Decidable (_ ∧ _))

end World

/-- The file of a sealed seed that was put in its place. -/
def VaultFile.placed (bytes : Bytes) : VaultFile := ⟨.regular, true, 0o600, bytes⟩

/-- It passes the audit. -/
theorem VaultFile.audit_placed (path : String) (bytes : Bytes) :
    (VaultFile.placed bytes).audit path = .ok () := by simp [audit, placed]

/-- The ring without the enclave's item. -/
def Ring.erased (ring : Ring) : Ring := { ring with enclave := none }

namespace Keystore

variable {P : Platform} {C : Crypto} {build : Build} {world : World} {k k' : Keystore}
  {passphrase : Option String} {seed key bytes : Bytes}

theorem length_drawn (world : World) (draw : Draw) : (world.drawn draw).length = draw.length := by
  simp [World.drawn]

/-- A wrapping key that was stored is the one that is found. -/
theorem readKey_hexEncode (hkey : key.length = 32) :
    OsKeyring.readKey (hexEncode key) = .ok key := by
  rw [OsKeyring.readKey, hexDecode_hexEncode]
  exact if_pos hkey

theorem onRing_of_fails {α : Type} {w : Moment} {go : Except WrappingError α × Ring}
    (hw : w.fault ≠ none) : ∃ e, k.onRing w go = (.error e, k) := by
  obtain ⟨what, hwhat⟩ := Option.ne_none_iff_exists'.mp hw
  exact ⟨.store what, by rw [onRing, hwhat]⟩

theorem onDisk_of_fails {α : Type} {w : Moment} {go : Except CustodyError α × Vault}
    (hw : w.fault ≠ none) : ∃ e, k.onDisk w go = (.error e, k) := by
  obtain ⟨what, hwhat⟩ := Option.ne_none_iff_exists'.mp hw
  exact ⟨.io what, by rw [onDisk, hwhat]⟩

variable (world k) in
/-- What the deletion that comes first leaves. -/
theorem run_enclaveDelete (hbuild : build.presenceAvailable = true) : ∃ r,
    k.run build world (tryAct .enclaveDelete) =
      (r, if world.Fails .enclaveDelete then k else { k with ring := k.ring.erased }) := by
  by_cases hdelete : world.Fails .enclaveDelete
  · obtain ⟨e, he⟩ : ∃ e, k.run build world (tryAct .enclaveDelete) = (.error e, k) :=
      onRing_of_fails hdelete
    exact ⟨.error e, by rw [if_pos hdelete, he]⟩
  · refine ⟨.ok (), ?_⟩
    rw [if_neg hdelete]
    simp [perform, onRing_of_calm (not_not.mp hdelete), hbuild, Ring.erased]

variable (world k key) in
/-- What is stored last, where the enclave can be enrolled in. -/
theorem run_enclaveAdd (hbuild : build.presenceAvailable = true) :
    if world.Fails (.enclaveAdd key) ∨ k.ring.enclave.isSome then
      ∃ e, k.run build world (tryAct (.enclaveAdd key)) = (.error e, k)
    else k.run build world (tryAct (.enclaveAdd key)) =
      (.ok (), { k with ring := { k.ring with enclave := some key } }) := by
  rw [run_tryAct, perform]
  by_cases hadd : world.Fails (.enclaveAdd key)
  · rw [if_pos (Or.inl hadd)]
    exact onRing_of_fails hadd
  · rw [onRing_of_calm (not_not.mp hadd)]
    by_cases hthere : k.ring.enclave.isSome
    · rw [if_pos (Or.inr hthere)]
      exact ⟨duplicateItem, by simp [hbuild, hthere]⟩
    · rw [if_neg (not_or.mpr ⟨hadd, hthere⟩)]
      simp [hbuild, hthere]

variable (build world k) in
/-- What the deletion that comes last leaves. -/
theorem run_deleteCredential : ∃ r ring, k.run build world (tryAct .deleteCredential) =
    (r, { k with ring := ring }) ∧ ring.enclave = k.ring.enclave := by
  by_cases hdelete : world.Fails .deleteCredential
  · obtain ⟨e, he⟩ : ∃ e, k.run build world (tryAct .deleteCredential) = (.error e, k) :=
      onRing_of_fails hdelete
    exact ⟨.error e, k.ring, he, rfl⟩
  · exact ⟨_, _, onRing_of_calm (not_not.mp hdelete), rfl⟩

variable (build world k) in
/-- **What storing the wrapping key comes to.** -/
theorem run_store (hkey : key.length = 32) : ∃ r ring,
    k.run build world (OsKeyring.store build key) = (r, { k with ring := ring }) ∧
      if world.StoreFails build k.ring key then
        (∃ e, r = .error e) ∧ ring = if world.Erases build then k.ring.erased else k.ring
      else r = .ok () ∧ ring.key build = some key := by
  by_cases hbuild : build.presenceAvailable = true
  · obtain ⟨r, hdelete⟩ := run_enclaveDelete world k hbuild
    have herases : world.Erases build ↔ ¬world.Fails .enclaveDelete := by simp [World.Erases, hbuild]
    have hadd := run_enclaveAdd world
      (if world.Fails .enclaveDelete then k else { k with ring := k.ring.erased }) key hbuild
    have hfails : world.StoreFails build k.ring key ↔ world.Fails (.enclaveAdd key) ∨
        (if world.Fails .enclaveDelete then k else { k with ring := k.ring.erased }
          : Keystore).ring.enclave.isSome := by
      by_cases hd : world.Fails .enclaveDelete <;> simp [World.StoreFails, hbuild, hd, Ring.erased]
    rw [OsKeyring.store, if_pos hbuild, OsKeyring.enclaveStore, run_bind, run_bind, run_outcome,
      hdelete]
    by_cases hstore : world.StoreFails build k.ring key
    · rw [if_pos (hfails.mp hstore)] at hadd
      obtain ⟨e, he⟩ := hadd
      simp only [he]
      by_cases hd : world.Fails .enclaveDelete
      · refine ⟨.error e, k.ring, by rw [if_pos hd], ?_⟩
        rw [if_pos hstore, if_neg (fun h => herases.mp h hd)]
        exact ⟨⟨e, rfl⟩, rfl⟩
      · refine ⟨.error e, k.ring.erased, by rw [if_neg hd], ?_⟩
        rw [if_pos hstore, if_pos (herases.mpr hd)]
        exact ⟨⟨e, rfl⟩, rfl⟩
    · rw [if_neg (fun h => hstore (hfails.mpr h))] at hadd
      simp only [hadd, if_neg hstore]
      -- whether the entry in the keychain goes or stays, the enclave is looked at first
      have hseen : ∀ ring : Ring, ring.enclave = some key → ring.key build = some key :=
        fun ring hring => by simp [Ring.key, Ring.enclaveSeen, hbuild, hring, hkey]
      have hcommon : ∀ k₁ : Keystore, k₁.ring.enclave = some key → ∃ r ring,
          k₁.run build world (do
            let _ ← outcome (ε := WrappingError) (tryAct .deleteCredential)
            pure () : CustodyM WrappingError Unit) = (r, { k₁ with ring := ring }) ∧ r = .ok () ∧
              ring.key build = some key := by
        intro k₁ hk₁
        obtain ⟨r', ring, hrun, hring⟩ := run_deleteCredential build world k₁
        refine ⟨.ok (), ring, ?_, rfl, hseen ring (hring.trans hk₁)⟩
        rw [run_bind, run_outcome, hrun]
        rfl
      by_cases hd : world.Fails .enclaveDelete
      · simp only [if_pos hd]
        exact hcommon _ rfl
      · simp only [if_neg hd]
        exact hcommon _ rfl
  · have hbuild : build.presenceAvailable = false := by simpa using hbuild
    have herases : ¬world.Erases build := by simp [World.Erases, hbuild]
    have hfails : world.StoreFails build k.ring key ↔
        world.Fails (.setPassword (hexEncode key)) := by simp [World.StoreFails, hbuild]
    rw [OsKeyring.store, if_neg (by simp [hbuild]), run_tryAct, perform]
    by_cases hset : world.Fails (.setPassword (hexEncode key))
    · obtain ⟨e, he⟩ : ∃ e, k.onRing (world.meets (.setPassword (hexEncode key)))
          ((.ok () : Except WrappingError Unit),
            { k.ring with keychain := some (hexEncode key) }) = (.error e, k) :=
        onRing_of_fails hset
      refine ⟨.error e, k.ring, he, ?_⟩
      rw [if_pos (hfails.mpr hset), if_neg herases]
      exact ⟨⟨e, rfl⟩, rfl⟩
    · refine ⟨.ok (), _, onRing_of_calm (not_not.mp hset), ?_⟩
      rw [if_neg (fun h => hset (hfails.mp h))]
      refine ⟨rfl, ?_⟩
      simp [Ring.key, Ring.enclaveSeen, hbuild, readKey_hexEncode hkey, Except.toOption]

/-- What writing comes to, once it is known that it may go ahead. -/
theorem run_putSealed (hadmits : world.Admits k.vault) : ∃ r file staged,
    k.run build world (do
      tryAct (.writeStaged bytes)
      tryAct .restrictStaged
      tryAct .rename
      tryAct .restrict) = (r, { k with vault := ⟨k.vault.path, file, staged⟩ }) ∧
      if world.Places k.vault bytes then file = some (.placed bytes)
      else (∃ e, r = .error e) ∧ file = k.vault.file := by
  rcases hwrite : (world.meets (.writeStaged bytes)).fault with _ | what
  · rcases hrestrict : (world.meets .restrictStaged).fault with _ | what
    · rcases hrename : (world.meets .rename).fault with _ | what
      · have hplaces : world.Places k.vault bytes :=
          ⟨hadmits, not_not.mpr hwrite, not_not.mpr hrestrict, not_not.mpr hrename⟩
        rcases hlast : (world.meets .restrict).fault with _ | what
        · refine ⟨.ok (), some (.placed bytes), none, ?_, by rw [if_pos hplaces]⟩
          simp [run_bind, perform, hwrite, onDisk, hrestrict, hrename, hlast, VaultFile.placed]
        · refine ⟨.error (.io what), some (.placed bytes), none, ?_, by rw [if_pos hplaces]⟩
          simp [run_bind, perform, hwrite, onDisk, hrestrict, hrename, hlast, VaultFile.placed]
      · refine ⟨.error (.io what), k.vault.file, some (.placed bytes), ?_, ?_⟩
        · simp [run_bind, perform, hwrite, onDisk, hrestrict, hrename, VaultFile.placed]
        · rw [if_neg fun h => h.2.2.2 (by simp [World.Fails, hrename])]
          exact ⟨⟨_, rfl⟩, rfl⟩
    · refine ⟨.error (.io what), k.vault.file, some ⟨.regular, true,
        (k.vault.staged.map VaultFile.mode).getD 0o644, bytes⟩, ?_, ?_⟩
      · simp [run_bind, perform, hwrite, onDisk, hrestrict]
      · rw [if_neg fun h => h.2.2.1 (by simp [World.Fails, hrestrict])]
        exact ⟨⟨_, rfl⟩, rfl⟩
  · refine ⟨.error (.io what), k.vault.file, (world.meets (.writeStaged bytes)).debris, ?_, ?_⟩
    · simp [run_bind, perform, hwrite]
    · rw [if_neg fun h => h.2.1 (by simp [World.Fails, hwrite])]
      exact ⟨⟨_, rfl⟩, rfl⟩

variable (build world k bytes) in
/-- **What writing the sealed seed comes to.** -/
theorem run_writeSealed : ∃ r file staged,
    k.run build world (Vault.writeSealed bytes) =
      (r, { k with vault := ⟨k.vault.path, file, staged⟩ }) ∧
      if world.Places k.vault bytes then file = some (.placed bytes)
      else (∃ e, r = .error e) ∧ file = k.vault.file := by
  have hexists : k.perform build (world.meets (.exists .write)) (.exists .write) =
      (decide (¬world.Fails (.exists .write) ∧ present k.vault.file = true), k) := by
    rcases hfault : (world.meets (.exists .write)).fault with _ | what <;>
      simp [perform, hfault, World.Fails]
  rw [Vault.writeSealed, run_bind, run_act, hexists]
  by_cases hthere : ¬world.Fails (.exists .write) ∧ present k.vault.file = true
  · rw [decide_eq_true hthere]
    simp only [if_true]
    rw [run_bind, run_tryAct]
    by_cases hadmits : world.Admits k.vault
    · obtain ⟨haudit, hfile⟩ := hadmits hthere
      rcases hat : k.vault.file with _ | file
      · simp [hat, present] at hthere
      · have hok : k.perform build (world.meets .audit) .audit = (.ok (), k) := by
          simp [perform, onDisk_of_calm (not_not.mp haudit), hat, hfile file hat]
        rw [hok, ← hat]
        exact run_putSealed hadmits
    · have hplaces : ¬world.Places k.vault bytes := fun h => hadmits h.1
      have herror : ∃ e, k.perform build (world.meets .audit) .audit = (.error e, k) := by
        by_cases haudit : world.Fails .audit
        · exact onDisk_of_fails haudit
        · rcases hat : k.vault.file with _ | file
          · simp [hat, present] at hthere
          · rcases hresult : file.audit k.vault.path with e | ⟨⟩
            · exact ⟨e, by simp [perform, onDisk_of_calm (not_not.mp haudit), hat, hresult]⟩
            · refine absurd (fun _ => ⟨haudit, fun f hf => ?_⟩) hadmits
              rw [hat] at hf
              obtain rfl := Option.mem_some_iff.mp hf
              exact hresult
      obtain ⟨e, he⟩ := herror
      refine ⟨.error e, k.vault.file, k.vault.staged, by rw [he], ?_⟩
      rw [if_neg hplaces]
      exact ⟨⟨e, rfl⟩, rfl⟩
  · rw [decide_eq_false hthere]
    exact run_putSealed fun h => absurd h hthere

/-! ### What is left of the two -/

section Left

variable (P : Platform) (C : Crypto) (build : Build) (world : World)

/-- The sealed seed that an enrolment of a recovery phrase would write. -/
def sealing (mnemonic : String) (passphrase : Option String) : Except SealError SealedSeed :=
  let seed := C.mnemonicSeed mnemonic
  let master := ExtendedKey.master C seed
  let identity := (master.derivePath C [44, sumCoinType, 0]).address P C
  «seal» C seed (world.drawn .wrappingKey) passphrase (world.cost passphrase)
    (identity.toBase58 P C) (world.drawn .salt) (world.drawn .innerNonce)
    (world.drawn .outerNonce)

/-- The wrapping key that can be found where the enrolment fails after that. -/
def keyLeft (k : Keystore) : Option Bytes :=
  if world.StoreFails build k.ring (world.drawn .wrappingKey) then
    if world.Erases build then k.ring.erased.key build else k.ring.key build
  else some (world.drawn .wrappingKey)

/-- And what is in the vault. -/
def fileLeft (k : Keystore) (sealed : SealedSeed) : Option VaultFile :=
  if ¬world.StoreFails build k.ring (world.drawn .wrappingKey) ∧
      world.Places k.vault (C.showSealed sealed) then some (.placed (C.showSealed sealed))
  else k.vault.file

/-- **What could be unsealed still can be**, and what is in memory is as it was. -/
def SurvivesAs (k k' : Keystore) : Prop :=
  (∀ passphrase seed, k.opens C build passphrase = some seed →
    k'.opens C build passphrase = some seed) ∧
  k'.session = k.session

end Left

theorem SurvivesAs.refl : k.SurvivesAs C build k := ⟨fun _ _ h => h, rfl⟩

theorem survivesAs_of_closed (h : ∀ passphrase, k.opens C build passphrase = none)
    (hsession : k'.session = k.session) : k.SurvivesAs C build k' :=
  ⟨fun passphrase seed hopens => by rw [h] at hopens; exact absurd hopens (by simp), hsession⟩

/-- The pieces drawn, and the seed sealed. -/
theorem run_sealSeed {hint : String} : k.run build world (sealSeed C seed passphrase hint) =
    (((«seal» C seed (world.drawn .wrappingKey) passphrase (world.cost passphrase) hint
      (world.drawn .salt) (world.drawn .innerNonce) (world.drawn .outerNonce)).mapError
        KeystoreError.seal).map fun sealed => (world.drawn .wrappingKey, sealed), k) := by
  have hdraw : ∀ draw, k.run build world (act (ε := KeystoreError) (.random draw)) =
      (.ok (world.drawn draw), k) := fun _ => rfl
  have hcost : k.run build world (sealingCost passphrase) = (.ok (world.cost passphrase), k) := by
    rcases passphrase with _ | passphrase
    · rfl
    · rfl
  rw [sealSeed]
  simp only [run_bind, hdraw, hcost, run_orRaise]
  rcases «seal» C seed (world.drawn .wrappingKey) passphrase (world.cost passphrase) hint
    (world.drawn .salt) (world.drawn .innerNonce) (world.drawn .outerNonce) with e | sealed
  · rfl
  · rfl

/-- **What sealing and writing come to**: it fails where the pieces do, and where it
fails, this is what is left. -/
theorem run_sealMnemonic (P : Platform) (C : Crypto) (build : Build) (world : World) (k : Keystore)
    (mnemonic : String) (passphrase : Option String) : ∃ r k',
    k.run build world (sealMnemonic P C build mnemonic passphrase) = (r, k') ∧
      match sealing P C world mnemonic passphrase with
      | .error _ => (∃ e, r = .error e) ∧ k' = k
      | .ok sealed =>
        ((world.StoreFails build k.ring (world.drawn .wrappingKey) ∨
          ¬world.Places k.vault (C.showSealed sealed)) → ∃ e, r = .error e) ∧
        ((∃ e, r = .error e) → k'.session = k.session ∧ k'.vault.path = k.vault.path ∧
          k'.ring.key build = keyLeft build world k ∧
          k'.vault.file = fileLeft C build world k sealed) := by
  have hfirst : k.run build world (sealSeed C (C.mnemonicSeed mnemonic) passphrase
      (Address.toBase58 P C (((ExtendedKey.master C (C.mnemonicSeed mnemonic)).derivePath C
        [44, sumCoinType, 0]).address P C))) =
      (((sealing P C world mnemonic passphrase).mapError KeystoreError.seal).map
        fun sealed => (world.drawn .wrappingKey, sealed), k) := run_sealSeed
  rw [sealMnemonic, run_bind, hfirst]
  rcases hs : sealing P C world mnemonic passphrase with e | sealed
  · exact ⟨_, k, rfl, ⟨.seal e, rfl⟩, rfl⟩
  · obtain ⟨r, ring, hstore, hring⟩ := run_store build world k (length_drawn world .wrappingKey)
    simp only [Except.mapError, Except.map]
    rw [run_bind, run_raising, hstore]
    by_cases hfails : world.StoreFails build k.ring (world.drawn .wrappingKey)
    · rw [if_pos hfails] at hring
      obtain ⟨⟨e, rfl⟩, rfl⟩ := hring
      refine ⟨_, _, rfl, fun _ => ⟨.wrapping e, rfl⟩, fun _ => ⟨rfl, rfl, ?_, ?_⟩⟩
      · rw [keyLeft, if_pos hfails]
        split <;> rfl
      · exact (if_neg fun h => h.1 hfails).symm
    · rw [if_neg hfails] at hring
      obtain ⟨rfl, hkey⟩ := hring
      obtain ⟨r', file, staged, hwrite, hfile⟩ := run_writeSealed build world
        { k with ring := ring } (C.showSealed sealed)
      simp only [Except.mapError]
      rw [run_bind, run_raising, hwrite]
      have hleft : file = fileLeft C build world k sealed := by
        rw [fileLeft]
        by_cases hplaces : world.Places k.vault (C.showSealed sealed)
        · rw [if_pos hplaces] at hfile
          rw [if_pos ⟨hfails, hplaces⟩]
          exact hfile
        · rw [if_neg hplaces] at hfile
          rw [if_neg fun h => hplaces h.2]
          exact hfile.2
      rcases r' with e | ⟨⟩
      · refine ⟨_, _, rfl, fun _ => ⟨.custody e, rfl⟩, fun _ => ⟨rfl, rfl, ?_, hleft⟩⟩
        rw [keyLeft, if_neg hfails]
        exact hkey
      · -- once both are written, nothing fails any more
        refine ⟨_, _, rfl, fun h => ?_, fun h => ?_⟩
        · obtain hstore' | hplaces := h
          · exact absurd hstore' hfails
          · rw [if_neg hplaces] at hfile
            obtain ⟨⟨e, he⟩, -⟩ := hfile
            exact nomatch he
        · obtain ⟨e, he⟩ := h
          exact nomatch he

/-! ### Setting up -/

/-- A call to the credential store that answers did not fail. -/
theorem onRing_ok {α : Type} {w : Moment} {go : Except WrappingError α × Ring} {a : α}
    (h : k.onRing w go = (.ok a, k')) : go.1 = .ok a ∧ k' = { k with ring := go.2 } := by
  rcases hw : w.fault with _ | what
  · rw [onRing_of_calm hw] at h
    exact ⟨(Prod.mk.inj h).1, (Prod.mk.inj h).2.symm⟩
  · simp [onRing, hw] at h

/-- The keychain is said to hold no entry only where it holds none. -/
theorem run_fallbackExists_false
    (h : k.run build world OsKeyring.fallbackExists = (.ok false, k')) :
    k.ring.keychain = none := by
  rw [OsKeyring.fallbackExists, run_bind, run_tryAct, perform] at h
  rcases hget : k.onRing (world.meets .getPassword) (.ok k.ring.keychain, k.ring) with ⟨e | a, u⟩
  · simp [hget] at h
  · obtain ⟨ha, -⟩ := onRing_ok hget
    obtain rfl := Except.ok.inj ha
    simpa [hget] using congrArg Prod.fst h

/-- **There is said to be no wrapping key only where none is found.** -/
theorem run_exists_false (h : k.run build world (OsKeyring.exists build) = (.ok false, k')) :
    k.ring.key build = none := by
  cases build with
  | elsewhere =>
    have hkeychain := run_fallbackExists_false h
    simp [Ring.key, Ring.enclaveSeen, Build.presenceAvailable, hkeychain]
  | macos enrols =>
    rw [OsKeyring.exists, run_bind, run_tryAct, perform] at h
    rcases hfound : k.onRing (world.meets .enclaveExists)
      (.ok (k.ring.enclaveSeen (.macos enrols)).isSome, k.ring) with ⟨e | found, u⟩
    · simp [hfound] at h
    · obtain ⟨hseen, rfl⟩ := onRing_ok hfound
      obtain rfl := Except.ok.inj hseen
      rw [hfound] at h
      rcases hitem : k.ring.enclaveSeen (.macos enrols) with _ | key
      · simp only [hitem, Option.isSome_none, Bool.false_eq_true, if_false] at h
        have hkeychain : k.ring.keychain = none := run_fallbackExists_false h
        simp [Ring.key, hitem, hkeychain]
      · simp [hitem] at h

/-- **Setting up goes ahead only where nothing could be unsealed.** -/
theorem opens_of_checkCanInitialize
    (h : k.run build world (checkCanInitialize build) = (.ok (), k')) (passphrase : Option String) :
    k.opens C build passphrase = none := by
  have hkey : k.ring.key build = none := by
    rw [checkCanInitialize, run_bind, run_act] at h
    rcases hthere : k.perform build (world.meets (.exists .enrol)) (.exists .enrol) with ⟨there, u⟩
    obtain rfl : k = u := congrArg Prod.snd hthere
    rw [hthere] at h
    cases there with
    | true => simp at h
    | false =>
      simp only [Bool.false_eq_true, if_false] at h
      rw [run_bind, run_outcome] at h
      rcases hexists : k.run build world (OsKeyring.exists build) with ⟨e | found, v⟩
      · simp [hexists] at h
      · cases found with
        | true => simp [hexists] at h
        | false => exact run_exists_false hexists
  simp [opens, opensWith, hkey]

variable (build world k) in
/-- Asking whether it may go ahead changes nothing. -/
theorem run_checkCanInitialize : (k.run build world (checkCanInitialize build)).2 = k := by
  have hring : ∀ {α : Type} (w : Moment) (r : Except WrappingError α),
      (k.onRing w (r, k.ring)).2 = k := fun w r => by
    rw [onRing]
    split <;> rfl
  have hfallback : (k.run build world OsKeyring.fallbackExists).2 = k := by
    rw [OsKeyring.fallbackExists, run_bind, run_tryAct, perform]
    rcases hget : k.onRing (world.meets .getPassword) (.ok k.ring.keychain, k.ring) with ⟨e | a, u⟩
    · exact (congrArg Prod.snd hget).symm.trans (hring _ _)
    · exact (congrArg Prod.snd hget).symm.trans (hring _ _)
  have hexists : (k.run build world (OsKeyring.exists build)).2 = k := by
    cases build with
    | elsewhere => exact hfallback
    | macos enrols =>
      rw [OsKeyring.exists, run_bind, run_tryAct, perform]
      rcases hfound : k.onRing (world.meets .enclaveExists)
        (.ok (k.ring.enclaveSeen (.macos enrols)).isSome, k.ring) with ⟨e | found, u⟩
      · exact (congrArg Prod.snd hfound).symm.trans (hring _ _)
      · obtain rfl : k = u := (hring _ _).symm.trans (congrArg Prod.snd hfound)
        cases found with
        | true => rfl
        | false => exact hfallback
  rw [checkCanInitialize, run_bind, run_act]
  rcases hthere : k.perform build (world.meets (.exists .enrol)) (.exists .enrol) with ⟨there, u⟩
  obtain rfl : k = u := congrArg Prod.snd hthere
  cases there with
  | true => rfl
  | false =>
    simp only [Bool.false_eq_true, if_false]
    rw [run_bind, run_outcome]
    rcases hrun : k.run build world (OsKeyring.exists build) with ⟨e | found, v⟩
    · rw [hrun] at hexists
      exact hexists
    · rw [hrun] at hexists
      cases found with
      | true => exact hexists
      | false => exact hexists

/-! ### The two enrolments -/

variable (P C build world) in
/-- The sealed seed that a restore would write. -/
def resealing (phrase : String) (passphrase : Option String) : Option SealedSeed :=
  if Syndeo.passphraseRequired build.presenceAvailable passphrase.isSome && passphrase.isNone then
    none
  else (C.parseMnemonic (trim phrase)).toOption.bind fun mnemonic =>
    (sealing P C world mnemonic passphrase).toOption

variable (P C build world) in
/-- **When a restore that fails does no harm**: there was nothing to lose; or it
does not come to storing the key, or storing the key fails before the one that is
there is taken away; or what is left opens alike. -/
def Spared (k : Keystore) (phrase : String) (passphrase : Option String) : Prop :=
  (∀ other, k.opens C build other = none) ∨
  resealing P C build world phrase passphrase = none ∨
  (world.StoreFails build k.ring (world.drawn .wrappingKey) ∧ ¬world.Erases build) ∨
  ∃ sealed ∈ resealing P C build world phrase passphrase, ∀ other seed,
    k.opens C build other = some seed →
      opensWith C k.vault.path (fileLeft C build world k sealed) (keyLeft build world k) other =
        some seed

end Keystore

open Keystore

namespace Keystore

/-- A world in which nothing is amiss but that the disk is full. -/
def fullDisk : World where
  meets := fun {_} a =>
    { now := ⟨0, 0⟩
      random := Crypto.counted
      tCost := 1
      fault := match a with
        | .writeStaged _ => some "No space left on device (os error 28)"
        | _ => none
      debris := none }

/-- A home whose seed is sealed under the key in the keychain, and locked. -/
def sampleHome : Keystore where
  vault := ⟨"/home/a/.syndeo/.keystore/seed.sealed",
    some (.placed (Crypto.showSealedSeed Crypto.oldSealed)), none⟩
  ring := ⟨none, some (hexEncode Crypto.oldKey)⟩
  session := ⟨none, ⟨some 300, ⟨0, 0⟩⟩⟩

theorem head_ne {xs ys : Bytes} (h : xs.head? ≠ ys.head?) : xs ≠ ys := fun heq =>
  h (congrArg List.head? heq)

/-- What `decrypt` gives, on the three keys there are. -/
theorem decrypt_sample : Syndeo.decrypt Crypto.sample Crypto.oldKey Crypto.oldNonce
      Crypto.oldOuter = .ok Crypto.oldInner ∧
    Syndeo.decrypt Crypto.sample Crypto.oldDerived Crypto.oldNonce Crypto.oldInner =
      .ok Crypto.sampleSeed ∧
    Syndeo.decrypt Crypto.sample (fullDisk.drawn .wrappingKey) Crypto.oldNonce Crypto.oldOuter =
      .error .«unseal» := by
  have hdecrypt : ∀ key nonce aad ciphertext, Crypto.sample.decrypt key nonce aad ciphertext =
      if key = Crypto.oldKey ∧ ciphertext = Crypto.oldOuter then some Crypto.oldInner
      else if key = Crypto.oldDerived ∧ ciphertext = Crypto.oldInner then some Crypto.sampleSeed
      else none := fun _ _ _ _ => rfl
  have hderived : Crypto.oldDerived ≠ Crypto.oldKey := head_ne (by decide)
  have hdrawn : fullDisk.drawn .wrappingKey ≠ Crypto.oldKey := head_ne (by decide)
  have hdrawn' : fullDisk.drawn .wrappingKey ≠ Crypto.oldDerived := head_ne (by decide)
  refine ⟨?_, ?_, ?_⟩
  · rw [Syndeo.decrypt, hdecrypt, if_pos ⟨rfl, rfl⟩]
    rfl
  · rw [Syndeo.decrypt, hdecrypt, if_neg fun h => hderived h.1, if_pos ⟨rfl, rfl⟩]
    rfl
  · rw [Syndeo.decrypt, hdecrypt, if_neg fun h => hdrawn h.1, if_neg fun h => hdrawn' h.1]
    rfl

/-- The texts of the old sealed seed, decoded. -/
theorem decode_oldSealed :
    decodeNonce Crypto.sample Crypto.oldSealed.outerNonce = .ok Crypto.oldNonce ∧
    decodeHex Crypto.sample Crypto.oldSealed.ciphertext = .ok Crypto.oldOuter ∧
    decodeHex Crypto.sample Crypto.oldSealed.kdfSalt = .ok Crypto.oldSalt ∧
    decodeNonce Crypto.sample Crypto.oldSealed.innerNonce = .ok Crypto.oldNonce := by
  have houter : Crypto.oldSealed.outerNonce = hexEncode Crypto.oldNonce := rfl
  have hcipher : Crypto.oldSealed.ciphertext = hexEncode Crypto.oldOuter := rfl
  have hsalt : Crypto.oldSealed.kdfSalt = hexEncode Crypto.oldSalt := rfl
  have hinner : Crypto.oldSealed.innerNonce = hexEncode Crypto.oldNonce := rfl
  have hlength : Crypto.oldNonce.length = 24 := List.length_replicate
  rw [houter, hcipher, hsalt, hinner]
  exact ⟨decodeNonce_hexEncode hlength, decodeHex_hexEncode _, decodeHex_hexEncode _,
    decodeNonce_hexEncode hlength⟩

/-- The old sealed seed opens under the old key and its passphrase. -/
theorem unseal_oldSealed :
    Syndeo.«unseal» Crypto.sample Crypto.oldSealed Crypto.oldKey (some "a") =
      .ok Crypto.sampleSeed := by
  have hderive : deriveKey Crypto.sample "a" Crypto.oldSalt Crypto.oldSealed.kdf =
      .ok Crypto.oldDerived := by
    have hargon : ∀ cost text salt, Crypto.sample.argon2id cost text salt =
        .ok (if salt = Crypto.oldSalt then Crypto.oldDerived else Crypto.newDerived) :=
      fun _ _ _ => rfl
    rw [deriveKey, hargon, if_pos rfl]
    rfl
  obtain ⟨houter, hcipher, hsalt, hinner⟩ := decode_oldSealed
  obtain ⟨hfirst, hsecond, -⟩ := decrypt_sample
  rw [unseal_of_layers rfl houter hcipher hfirst hsalt hinner hderive]
  exact hsecond

/-- And not under the key that is drawn. -/
theorem unseal_oldSealed_drawn :
    Syndeo.«unseal» Crypto.sample Crypto.oldSealed (fullDisk.drawn .wrappingKey) (some "a") =
      .error .«unseal» :=
  unseal_of_decrypt_error rfl decode_oldSealed.1 decode_oldSealed.2.1 decrypt_sample.2.2

/-- The old sealed seed is read from its file. -/
theorem fromBytes_oldSealed (bytes : Bytes) (h : bytes = Crypto.showSealedSeed Crypto.oldSealed) :
    SealedSeed.fromBytes Crypto.sample bytes = .ok Crypto.oldSealed := by
  have hread : Crypto.sample.readSealed bytes = .ok Crypto.oldSealed := by
    have hdef : Crypto.sample.readSealed bytes =
        if bytes = Crypto.showSealedSeed Crypto.oldSealed then .ok Crypto.oldSealed
        else .error "expected value at line 1 column 1" := rfl
    rw [hdef, if_pos h]
  have hversion : ¬Crypto.oldSealed.version ≠ sealVersion := fun h => h rfl
  rw [SealedSeed.fromBytes, hread]
  exact if_neg hversion

theorem opensWith_oldSealed (key : Bytes) : opensWith Crypto.sample sampleHome.vault.path
    sampleHome.vault.file (some key) (some "a") =
      (Syndeo.«unseal» Crypto.sample Crypto.oldSealed key (some "a")).toOption := by
  have hgeneral : ∀ path bytes, bytes = Crypto.showSealedSeed Crypto.oldSealed →
      opensWith Crypto.sample path (some (.placed bytes)) (some key) (some "a") =
        (Syndeo.«unseal» Crypto.sample Crypto.oldSealed key (some "a")).toOption := by
    intro path bytes hbytes
    have hsealed : VaultFile.sealed Crypto.sample path (.placed bytes) = some Crypto.oldSealed := by
      rw [VaultFile.sealed, if_pos (VaultFile.audit_placed path bytes)]
      exact congrArg Except.toOption (fromBytes_oldSealed bytes hbytes)
    rw [opensWith, Option.bind_some, hsealed, Option.bind_some, Option.bind_some]
  exact hgeneral _ _ rfl

theorem opens_sampleHome :
    sampleHome.opens Crypto.sample .elsewhere (some "a") = some Crypto.sampleSeed := by
  have hkey : sampleHome.ring.key .elsewhere = some Crypto.oldKey := by
    simp [sampleHome, Ring.key, Ring.enclaveSeen, Build.presenceAvailable,
      readKey_hexEncode (show Crypto.oldKey.length = 32 from rfl), Except.toOption]
  rw [opens, hkey, opensWith_oldSealed, unseal_oldSealed]
  rfl

/-- **A restore onto the full disk** fails, and the seed can no longer be unsealed. -/
theorem restore_fullDisk : ∃ e k',
    sampleHome.run .elsewhere fullDisk (restore .sampleIdentity .sample .elsewhere
      Crypto.samplePhrase (some "a")) = (.error e, k') ∧
    ¬sampleHome.SurvivesAs .sample .elsewhere k' := by
  obtain ⟨sealed, hsealing⟩ : ∃ sealed, sealing .sampleIdentity .sample fullDisk
      (trim Crypto.samplePhrase) (some "a") = .ok sealed := by
    obtain ⟨key, hkey⟩ : ∃ key, deriveKey Crypto.sample "a" (fullDisk.drawn .salt)
        (fullDisk.cost (some "a")) = .ok key := ⟨_, rfl⟩
    have hencrypt : ∀ key nonce plaintext, ∃ ciphertext,
        Syndeo.encrypt Crypto.sample key nonce plaintext = .ok ciphertext := fun _ _ _ => ⟨_, rfl⟩
    obtain ⟨inner, hinner⟩ := hencrypt key (fullDisk.drawn .innerNonce)
      (Crypto.sample.mnemonicSeed (trim Crypto.samplePhrase))
    obtain ⟨outer, houter⟩ := hencrypt (fullDisk.drawn .wrappingKey) (fullDisk.drawn .outerNonce)
      inner
    exact ⟨_, by simp only [sealing, «seal», hkey, hinner, houter, bind, Except.bind]; rfl⟩
  obtain ⟨r, k', hrun, hspec⟩ := run_sealMnemonic .sampleIdentity .sample .elsewhere fullDisk
    sampleHome (trim Crypto.samplePhrase) (some "a")
  rw [hsealing] at hspec
  obtain ⟨hfails, hleft⟩ := hspec
  have hstored : ¬fullDisk.StoreFails .elsewhere sampleHome.ring (fullDisk.drawn .wrappingKey) := by
    rintro (⟨hbuild, -⟩ | ⟨-, hset⟩)
    · cases hbuild
    · exact hset rfl
  have hplaces : ¬fullDisk.Places sampleHome.vault (Crypto.sample.showSealed sealed) :=
    fun h => h.2.1 (by simp [World.Fails, fullDisk])
  obtain ⟨e, rfl⟩ := hfails (Or.inr hplaces)
  obtain ⟨-, hpath, hkey, hfile⟩ := hleft ⟨e, rfl⟩
  refine ⟨e, k', ?_, fun hsurvives => ?_⟩
  · have hparse : Crypto.sample.parseMnemonic (trim Crypto.samplePhrase) =
        .ok (trim Crypto.samplePhrase) := by
      have hdef : ∀ phrase, Crypto.sample.parseMnemonic phrase =
          if phrase = trim Crypto.samplePhrase then .ok phrase
          else .error "mnemonic has an invalid word count: 0" := fun _ => rfl
      rw [hdef, if_pos rfl]
    rw [restore, requirePassphrase, if_neg (by decide), run_bind, run_pure]
    simp only
    rw [run_bind, run_orRaise, hparse]
    exact hrun
  · have hopens := hsurvives.1 (some "a") _ opens_sampleHome
    rw [opens, hpath, hkey, hfile, fileLeft, if_neg fun h => hplaces h.2, keyLeft, if_neg hstored,
      opensWith_oldSealed, unseal_oldSealed_drawn] at hopens
    simp [Except.toOption] at hopens

end Keystore

end Syndeo
