import Syndeo.Ipc.Confirm
import Syndeo.Keystore.Custody

/-!
# The keystore's operations

What `Keystore` does, in the order in which the source does it. Enrolment and
unsealing go through the vault and the credential store, and are programs of
`Syndeo.CustodyAct`; the rest works on what is in memory, and is a function of it
and of what is read around it (`Syndeo.Surroundings`).

A `Syndeo.World` says what each action of one call is met with. No action occurs
twice in a call, so it leaves each of them free to fail or not; a call is then
the function `Syndeo.Keystore.run`.
-/

namespace Syndeo

open Text Concurrent

/-- `KeystoreError`. -/
inductive KeystoreError
  | custody (e : CustodyError)
  | «seal» (e : SealError)
  | wrapping (e : WrappingError)
  | confirmation (e : ConfirmationError)
  | locked
  | alreadyInitialized
  | wrappingKeyExists
  | wrappingKeyUnknown (e : WrappingError)
  | notInitialized
  | passphraseRequired
  | mnemonic (what : String)
  deriving DecidableEq

/-- What a `KeystoreError` says. -/
def KeystoreError.message : KeystoreError → String
  | .custody e => "custody: " ++ e.message
  | .seal e => "seal: " ++ e.message
  | .wrapping e => "credential store: " ++ e.message
  | .confirmation e => "confirmation: " ++ e.message
  | .locked => "the keystore is locked"
  | .alreadyInitialized => "a keystore already exists here; restore or remove it first"
  | .wrappingKeyExists =>
    "a wrapping key for a Syndeo keystore already exists in the operating system's " ++
      "credential store, possibly enrolled by another --home or SYNDEO_HOME; nothing was " ++
      "changed. `syndeo-keystore restore` with a recovery phrase replaces it deliberately, " ++
      "and any keystore sealed under the old key can then be opened only from its own phrase"
  | .wrappingKeyUnknown e =>
    "could not tell whether a wrapping key for a Syndeo keystore already exists in the " ++
      "operating system's credential store (" ++ e.message ++ "); nothing was changed. " ++
      "`syndeo-keystore restore` with a recovery phrase replaces any key there deliberately"
  | .notInitialized => "no keystore has been set up"
  | .passphraseRequired =>
    "a passphrase is required on this platform because user presence is not enforced by " ++
      "the operating system"
  | .mnemonic what => "recovery phrase: " ++ what

/-! ### Enrolment and unsealing -/

section Programs

variable {ε ε' α : Type}

/-- `map_err`, of a piece of an operation. -/
def raising (f : ε → ε') (x : CustodyM ε α) : CustodyM ε' α :=
  ExceptT.mk (x.run >>= fun r => pure (r.mapError f))

/-- `map_err`, of a result. -/
def orRaise (f : ε → ε') (r : Except ε α) : CustodyM ε' α := ExceptT.mk (pure (r.mapError f))

end Programs

/-- A piece of an operation that fails with a `KeystoreError`. -/
abbrev KeystoreM := CustodyM KeystoreError

/-- `presence::policy`: whether a passphrase is required. -/
def passphraseRequired (platformPresence userSetAPassphrase : Bool) : Bool :=
  !platformPresence || userSetAPassphrase

/-- `Status`. -/
structure Status where
  initialized : Bool
  unsealed : Bool
  passphraseRequired : Bool
  presenceEnforced : Bool
  idleTimeoutSecs : Option ℕ
  idleForSecs : ℕ
  deriving DecidableEq

namespace Keystore

variable (P : Platform) (C : Crypto) (build : Build)

/-- `Keystore::check_can_initialize`. -/
def checkCanInitialize : KeystoreM Unit := do
  if ← act (.exists .enrol) then throw .alreadyInitialized
  match ← outcome (OsKeyring.exists build) with
  | .ok false => pure ()
  | .ok true => throw .wrappingKeyExists
  | .error e => throw (.wrappingKeyUnknown e)

/-- `Keystore::require_passphrase`. -/
def requirePassphrase (passphrase : Option String) : KeystoreM Unit :=
  if Syndeo.passphraseRequired build.presenceAvailable passphrase.isSome && passphrase.isNone then
    throw .passphraseRequired
  else pure ()

/-- The cost `seal_mnemonic` seals at. -/
def sealingCost (passphrase : Option String) : KeystoreM KdfParams :=
  if passphrase.isSome then act .calibrate else pure .default

/-- `seal_mnemonic`, as far as what it writes: the wrapping key and the sealed
seed. -/
def sealSeed (seed : Bytes) (passphrase : Option String) (identityHint : String) :
    KeystoreM (Bytes × SealedSeed) := do
  let wrappingKey ← act (.random .wrappingKey)
  let kdf ← sealingCost passphrase
  let salt ← act (.random .salt)
  let innerNonce ← act (.random .innerNonce)
  let outerNonce ← act (.random .outerNonce)
  let sealed ← orRaise .seal
    («seal» C seed wrappingKey passphrase kdf identityHint salt innerNonce outerNonce)
  pure (wrappingKey, sealed)

/-- `Keystore::seal_mnemonic`. -/
def sealMnemonic (mnemonic : String) (passphrase : Option String) : KeystoreM Address := do
  let seed := C.mnemonicSeed mnemonic
  let master := ExtendedKey.master C seed
  let identity := (master.derivePath C [44, sumCoinType, 0]).address P C
  let (wrappingKey, sealed) ← sealSeed C seed passphrase (identity.toBase58 P C)
  -- The wrapping key is stored first, as the source has it.
  raising .wrapping (OsKeyring.store build wrappingKey)
  raising .custody (Vault.writeSealed (C.showSealed sealed))
  act (.setMaster master)
  act .touch
  pure identity

/-- `Keystore::initialize`: the recovery phrase, and the address. -/
def initializeKeystore (passphrase : Option String) : KeystoreM (String × Address) := do
  checkCanInitialize build
  requirePassphrase build passphrase
  let entropy ← act (.random .entropy)
  let mnemonic ← orRaise .mnemonic (C.mnemonicFromEntropy entropy)
  let address ← sealMnemonic P C build mnemonic passphrase
  pure (mnemonic, address)

/-- `Keystore::restore`. -/
def restore (phrase : String) (passphrase : Option String) : KeystoreM Address := do
  requirePassphrase build passphrase
  let mnemonic ← orRaise .mnemonic (C.parseMnemonic (trim phrase))
  sealMnemonic P C build mnemonic passphrase

/-- `Keystore::load_sealed`. -/
def loadSealed (asking : Asking) : KeystoreM SealedSeed := do
  if !(← act (.exists asking)) then throw .notInitialized
  let bytes ← raising .custody Vault.readSealed
  orRaise .seal (SealedSeed.fromBytes C bytes)

/-- `Keystore::unseal`. -/
def «unseal» (passphrase : Option String) : KeystoreM Unit := do
  let sealed ← loadSealed C .load
  if sealed.passphraseLayer && passphrase.isNone then throw .passphraseRequired
  let wrappingKey ← raising .wrapping (OsKeyring.load build)
  let seed ← orRaise .seal (Syndeo.«unseal» C sealed wrappingKey passphrase)
  act (.setMaster (ExtendedKey.master C seed))
  act .touch

/-- `Keystore::status`. -/
def status : KeystoreM Status := do
  let sealed ← outcome (ε := KeystoreError) (loadSealed C .load)
  let userSetAPassphrase := match sealed with
    | .ok sealed => sealed.passphraseLayer
    | .error _ => false
  let initialized ← act (.exists .status)
  let presenceEnforced ←
    if initialized then raising .wrapping (OsKeyring.enrolledInEnclave build)
    else pure build.presenceAvailable
  let (session, now) ← act .look
  pure
    { initialized := initialized
      unsealed := session.master.isSome
      passphraseRequired := Syndeo.passphraseRequired presenceEnforced userSetAPassphrase
      presenceEnforced := presenceEnforced
      idleTimeoutSecs := session.watch.timeout
      idleForSecs := session.watch.idleFor now }

end Keystore

/-! ### What works on what is in memory -/

/-- What an operation reads around it: the clocks and the screen, when it asks
whether the session has ended, and the clocks when it has used the seed. -/
structure Surroundings where
  now : Reading
  screenIsLocked : Option Bool
  used : Reading
  deriving DecidableEq

/-- `Signed`. -/
structure Signed where
  signature : String
  publicKey : String
  address : Address
  purpose : SignaturePurpose
  deriving DecidableEq

namespace Session

/-- The session is open, and has not ended. -/
def Open (self : Session) (around : Surroundings) : Prop :=
  self.master.isSome ∧ self.watch.expired around.now around.screenIsLocked = none

instance (self : Session) (around : Surroundings) : Decidable (self.Open around) :=
  inferInstanceAs (Decidable (_ ∧ _))

/-- `Keystore::lock`. -/
def lock (self : Session) : Session := { self with master := none }

/-- `Keystore::lock_if_expired`. -/
def lockIfExpired (self : Session) (around : Surroundings) : Option Reason × Session :=
  if self.master.isNone then (none, self)
  else
    match self.watch.expired around.now around.screenIsLocked with
    | some reason => (some reason, self.lock)
    | none => (none, self)

variable (P : Platform) (C : Crypto)

/-- `Keystore::public_identity`. -/
def publicIdentity (self : Session) (around : Surroundings) (origin : String) :
    Except KeystoreError (String × Address) × Session :=
  let self := (self.lockIfExpired around).2
  match self.master with
  | none => (.error .locked, self)
  | some master =>
    let key := originKey P C master origin
    (.ok (hexEncode (key.publicKey C), key.address P C),
      { self with watch := self.watch.touch around.used })

/-- What the key of an origin signs. -/
def signed (master : ExtendedKey) (confirmation : Confirmation) (payload : Bytes) : Signed :=
  let key := originKey P C master confirmation.origin
  { signature := hexEncode (key.sign C payload)
    publicKey := hexEncode (key.publicKey C)
    address := key.address P C
    purpose := confirmation.purpose }

/-- `Keystore::sign_confirmed`, at a reading of the confirmer's clock. -/
def signConfirmed (self : Session) (around : Surroundings) (confirmer : Confirmer) (clock : ℕ)
    (confirmation : Confirmation) (payload : Bytes) :
    Except KeystoreError Signed × Session × Confirmer :=
  let self := (self.lockIfExpired around).2
  match confirmer.verify P C.hmacSha256 confirmation payload clock with
  | (.error e, confirmer) => (.error (.confirmation e), self, confirmer)
  | (.ok (), confirmer) =>
    match self.master with
    | none => (.error .locked, self, confirmer)
    | some master =>
      (.ok (signed P C master confirmation payload),
        { self with watch := self.watch.touch around.used }, confirmer)

end Session

/-! ### One call -/

/-- What each action of a call is met with. -/
structure World where
  /-- What an action is met with. -/
  meets : ∀ {β : Type}, CustodyAct β → Moment

/-- **A call**: the program runs through, and each action is met with what the
world has for it. -/
def Keystore.run {ε α : Type} (build : Build) (world : World) (x : CustodyM ε α) (k : Keystore) :
    Except ε α × Keystore :=
  x.run.eval (fun {_} a k => k.perform build (world.meets a) a) k

namespace Keystore

variable {ε ε' α β : Type} {build : Build} {world : World} {k : Keystore} {x : CustodyM ε α}
  {f : α → CustodyM ε β}

@[simp] theorem run_pure {a : α} :
    k.run build world (pure a : CustodyM ε α) = (.ok a, k) := rfl

@[simp] theorem run_throw {e : ε} :
    k.run build world (throw e : CustodyM ε α) = (.error e, k) := rfl

@[simp] theorem run_act {a : CustodyAct α} : k.run build world (act a : CustodyM ε α) =
    (.ok (k.perform build (world.meets a) a).1, (k.perform build (world.meets a) a).2) := rfl

@[simp] theorem run_tryAct {a : CustodyAct (Except ε α)} :
    k.run build world (tryAct a) = k.perform build (world.meets a) a := rfl

@[simp] theorem run_orRaise {g : ε → ε'} {r : Except ε α} :
    k.run build world (orRaise g r) = (r.mapError g, k) := rfl

@[simp] theorem run_raising {g : ε → ε'} : k.run build world (raising g x) =
    ((k.run build world x).1.mapError g, (k.run build world x).2) :=
  Prog.eval_bind

@[simp] theorem run_outcome : k.run build world (outcome x : CustodyM ε' (Except ε α)) =
    (.ok (k.run build world x).1, (k.run build world x).2) := by
  rw [run, outcome, ExceptT.run_lift, map_eq_pure_bind, Prog.eval_bind]
  rfl

/-- **Sequencing.** -/
theorem run_bind : k.run build world (x >>= f) =
    match k.run build world x with
    | (.ok a, k') => k'.run build world (f a)
    | (.error e, k') => (.error e, k') := by
  rw [run, Prog.eval_run_bind, run]
  rcases x.run.eval _ k with ⟨e | a, k'⟩
  · rfl
  · rfl

end Keystore

/-! ### What leaves the session alone -/

/-- The action does not touch what is in memory. -/
def CustodyAct.Outside : ∀ {β : Type}, CustodyAct β → Prop
  | _, .setMaster _ => False
  | _, .touch => False
  | _, _ => True

theorem Keystore.session_onDisk {α : Type} {w : Moment} {k : Keystore}
    {go : Except CustodyError α × Vault} : (k.onDisk w go).2.session = k.session := by
  rw [onDisk]
  split <;> rfl

theorem Keystore.session_onRing {α : Type} {w : Moment} {k : Keystore}
    {go : Except WrappingError α × Ring} : (k.onRing w go).2.session = k.session := by
  rw [onRing]
  split <;> rfl

theorem Keystore.session_perform {build : Build} {w : Moment} {k : Keystore} {β : Type}
    {a : CustodyAct β} (ha : a.Outside) : (k.perform build w a).2.session = k.session := by
  cases a with
  | setMaster _ => exact ha.elim
  | touch => exact ha.elim
  | writeStaged bytes =>
    rcases hfault : w.fault with _ | what
    · simp [perform, hfault]
    · simp [perform, hfault]
  | _ => first | rfl | exact session_onDisk | exact session_onRing

/-- The piece of an operation leaves alone what is in memory. -/
def Outwards {ε α : Type} (x : CustodyM ε α) : Prop := x.run.Asks fun {_} a => a.Outside

namespace Outwards

variable {ε ε' α β : Type} {x : CustodyM ε α} {f : α → CustodyM ε β}

theorem bind (hx : Outwards x) (hf : ∀ a, Outwards (f a)) : Outwards (x >>= f) :=
  Prog.asks_run_bind hx hf

theorem pure {a : α} : Outwards (Pure.pure a : CustodyM ε α) := trivial

theorem throw {e : ε} : Outwards (MonadExcept.throw e : CustodyM ε α) := trivial

theorem orRaise {g : ε → ε'} {r : Except ε α} : Outwards (Syndeo.orRaise g r) := trivial

theorem act {a : CustodyAct α} (ha : a.Outside) : Outwards (Syndeo.act a : CustodyM ε α) :=
  ⟨ha, fun _ => trivial⟩

theorem tryAct {a : CustodyAct (Except ε α)} (ha : a.Outside) : Outwards (Syndeo.tryAct a) :=
  ⟨ha, fun _ => trivial⟩

theorem raising {g : ε → ε'} (hx : Outwards x) : Outwards (Syndeo.raising g x) :=
  Prog.Asks.bind hx fun _ => trivial

theorem outcome (hx : Outwards x) : Outwards (Syndeo.outcome x : CustodyM ε' (Except ε α)) := by
  rw [Outwards, Syndeo.outcome, ExceptT.run_lift, map_eq_pure_bind]
  exact Prog.Asks.bind hx fun _ => trivial

/-- **What is in memory stays as it was.** -/
theorem session_run {build : Build} {world : World} {k : Keystore} (hx : Outwards x) :
    (k.run build world x).2.session = k.session :=
  Prog.Asks.eval (I := fun k' : Keystore => k'.session = k.session) hx
    (fun _ _ ha hs => (Keystore.session_perform ha).trans hs) rfl

variable {build : Build} {C : Crypto}

theorem enrolledInEnclave : Outwards (OsKeyring.enrolledInEnclave build) := by
  unfold OsKeyring.enrolledInEnclave
  cases build with
  | macos enrols => exact bind (outcome (tryAct trivial)) fun _ => pure
  | elsewhere => exact pure

theorem store {key : Bytes} : Outwards (OsKeyring.store build key) := by
  unfold OsKeyring.store
  split
  · refine bind (bind (outcome (tryAct trivial)) fun _ => tryAct trivial) fun _ => ?_
    exact bind (outcome (tryAct trivial)) fun _ => pure
  · exact tryAct trivial

theorem load : Outwards (OsKeyring.load build) := by
  refine bind enrolledInEnclave fun enrolled => ?_
  split
  · exact tryAct trivial
  · refine bind (tryAct trivial) fun text => ?_
    split
    · exact throw
    · exact trivial

theorem «exists» : Outwards (OsKeyring.exists build) := by
  have hfallback : Outwards OsKeyring.fallbackExists := bind (tryAct trivial) fun _ => pure
  unfold OsKeyring.exists
  cases build with
  | macos enrols =>
    refine bind (tryAct trivial) fun found => ?_
    split
    · exact pure
    · exact hfallback
  | elsewhere => exact hfallback

theorem writeSealed {bytes : Bytes} : Outwards (Vault.writeSealed bytes) := by
  have hrest : Outwards (do
      Syndeo.tryAct (.writeStaged bytes)
      Syndeo.tryAct .restrictStaged
      Syndeo.tryAct .rename
      Syndeo.tryAct .restrict) :=
    bind (tryAct trivial) fun _ => bind (tryAct trivial) fun _ =>
      bind (tryAct trivial) fun _ => tryAct trivial
  refine bind (act trivial) fun there => ?_
  split
  · exact bind (tryAct trivial) fun _ => hrest
  · exact hrest

theorem loadSealed {asking : Asking} : Outwards (Keystore.loadSealed C asking) := by
  have hrest : Outwards (do
      let bytes ← Syndeo.raising KeystoreError.custody Vault.readSealed
      Syndeo.orRaise .seal (SealedSeed.fromBytes C bytes)) :=
    bind (raising (bind (tryAct trivial) fun _ => tryAct trivial)) fun _ => orRaise
  refine bind (act trivial) fun there => ?_
  split
  · exact throw
  · exact hrest

theorem sealSeed {seed : Bytes} {passphrase : Option String} {hint : String} :
    Outwards (Keystore.sealSeed C seed passphrase hint) := by
  have hcost : Outwards (Keystore.sealingCost passphrase) := by
    unfold Keystore.sealingCost
    split
    · exact act trivial
    · exact pure
  exact bind (act trivial) fun _ => bind hcost fun _ => bind (act trivial) fun _ =>
    bind (act trivial) fun _ => bind (act trivial) fun _ => bind orRaise fun _ => pure

theorem checkCanInitialize : Outwards (Keystore.checkCanInitialize build) := by
  refine bind (act trivial) fun there => ?_
  split
  · exact throw
  · refine bind (outcome «exists») fun found => ?_
    split
    · exact pure
    · exact throw
    · exact throw

theorem requirePassphrase {passphrase : Option String} :
    Outwards (Keystore.requirePassphrase build passphrase) := by
  unfold Keystore.requirePassphrase
  split
  · exact throw
  · exact pure

end Outwards

/-! ### Libraries to compute with

The libraries, on what the concrete runs of this development hand to them: one
seed, sealed once under a key that was stored long ago and once under what a
counting generator draws. -/

namespace Crypto

/-- A recovery phrase. -/
def samplePhrase : String :=
  "abandon abandon abandon abandon abandon abandon abandon abandon abandon abandon abandon about"

/-- Its seed. -/
def sampleSeed : Bytes :=
  beBytes 32 0x5eb00bbddcf069084889a8ab9155568165f5c453ccb85e70811aaed6f6da5fc1 ++
    beBytes 32 0x9a5ac40b389cd370d086206dec8aa6c43daea6690f20ad3d8d48b2d2ce9e38e4

/-- What a generator gives that counts up from one. -/
def counted (i : ℕ) : UInt8 := UInt8.ofNat (i + 1)

/-- The wrapping key that was stored long ago. -/
def oldKey : Bytes := List.replicate 32 0x55

/-- The salt of its sealed seed. -/
def oldSalt : Bytes := List.replicate 16 0x55

/-- The nonces, which are no more random than the rest. -/
def oldNonce : Bytes := List.replicate 24 0x55

/-- What Argon2id makes of the passphrase "a" and that salt, at the cost below. -/
def oldDerived : Bytes :=
  beBytes 32 0x23def9868854009559f22692173dae12df024d917c1647779b2fb4b8de01b143

/-- The seed under that. -/
def oldInner : Bytes :=
  beBytes 32 0x977a555b3229f3cf23db311dd483efe229c77cc59f52468fcf45abb0b91e541d ++
    beBytes 32 0x2647b82fd004dc8bdd04a247e760bb8256ec51bda9cf4ceb12db1ff23f97153d ++
    beBytes 16 0x41000c0e45f45f625f96c47fcbd943c9

/-- And under the wrapping key. -/
def oldOuter : Bytes :=
  beBytes 32 0x98a77cf8f3dbef2d993e6cc10da53fa08773cfa104a20db65aa936a8735afa23 ++
    beBytes 32 0x11c633f7a698571ad1463f11fbf64977c9ce2d3f83b79429d521c1f3ea18f35d ++
    beBytes 32 0xb700c35a222403e643a12d78539953302f1e9f714f6554395284d294996b1736

/-- What Argon2id makes of the salt that is drawn. -/
def newDerived : Bytes :=
  beBytes 32 0x8aeb40210191181dad47071adb3cc9859c29e8105abe2ed78e94bfec8afb024e

/-- The seed under that. -/
def newInner : Bytes :=
  beBytes 32 0xe618c09abc50d1ce6802fcf56e5b54114d380b4a133c410a8973ec9156f2e756 ++
    beBytes 32 0x87a7ff073d317d9ebf892fd062f4fa859841cbbd20f86a36b07a27945b0000bd ++
    beBytes 16 0xc2b7745830566f7a8914b801181ba565

/-- And under the wrapping key that is drawn. -/
def newOuter : Bytes :=
  beBytes 32 0x53c00714af12d37b0d3c879aaa65242f718349c7963d2af9c66d59fdad27d149 ++
    beBytes 32 0x28bee6983222e1e421b4efd45755f9c384f96dc0a3377ae68f2b0a7cec7339ac ++
    beBytes 32 0x617ee2e1f2d94dfc46ef15080e651a66b616dd91f08f33e7501aa86ba5fa3393

/-- The cost of one iteration. -/
def sampleCost : KdfParams := { KdfParams.default with tCost := 1 }

/-- The sealed seed that is there. -/
def oldSealed : SealedSeed where
  version := 1
  passphraseLayer := true
  kdf := sampleCost
  kdfSalt := hexEncode oldSalt
  innerNonce := hexEncode oldNonce
  outerNonce := hexEncode oldNonce
  ciphertext := hexEncode oldOuter
  identityHint := "3KCkF5nxqwB2uU5wA9Hu5KWJMr63vvDiU"

/-- One line of a JSON object. -/
def jsonLine (indent name value : String) : String := indent ++ "\"" ++ name ++ "\": " ++ value

/-- A sealed seed, whose texts have nothing to escape, as `serde_json` lays it out. -/
def showSealedSeed (s : SealedSeed) : Bytes :=
  let text := fun value => "\"" ++ value ++ "\""
  utf8 ("\x7b\n" ++ ",\n".intercalate
    [jsonLine "  " "version" (toString s.version),
      jsonLine "  " "passphrase_layer" (toString s.passphraseLayer),
      jsonLine "  " "kdf" ("\x7b\n" ++ ",\n".intercalate
        [jsonLine "    " "m_cost" (toString s.kdf.mCost),
          jsonLine "    " "t_cost" (toString s.kdf.tCost),
          jsonLine "    " "p_cost" (toString s.kdf.pCost)] ++ "\n  \x7d"),
      jsonLine "  " "kdf_salt" (text s.kdfSalt), jsonLine "  " "inner_nonce" (text s.innerNonce),
      jsonLine "  " "outer_nonce" (text s.outerNonce),
      jsonLine "  " "ciphertext" (text s.ciphertext),
      jsonLine "  " "identity_hint" (text s.identityHint)] ++ "\n\x7d")

/-- The keys along the path of the identity, from the master key on. -/
def sampleKeys : List Bytes :=
  [beBytes 32 0x560f9f3c94558b6551928bb781cf6092c6b8800b4fc544af2c9444ed126d51aa ++
      beBytes 32 0xddfa71109701bbf7c126c8c7ab5880b0dec3d167a8fe6afa7a9597df0bbee72b,
    beBytes 32 0x707ac40870131063f58076f2f3f4e05c660c0e7e0de6f57ec6238a32b513a0c5 ++
      beBytes 32 0x439f20b80fa2c84f6e67454c5e24e823c38e45648e8f7f16a18bf804e1d951df,
    beBytes 32 0x59dcda441449237311a1e1b27190a760115a1dc95ba4d0d5f67cbfd293da2f38 ++
      beBytes 32 0x5aa24e69836cb84e131753268516136d1ce153fb5df1f79278ba0c8d6367438b,
    beBytes 32 0xee0d3f32b0e1c0ed19816ea892f4d3611573a38b75911068f4d222fe19566619 ++
      beBytes 32 0xacf7470984c9fb8a483108f712337fbd1476ff85eb8ec4fee2bcb90b7ff2fcbf]

/-- The libraries, on what they are called with in what follows. -/
def sample : Crypto where
  hmacSha256 := sampleHmac
  hmacSha512 := fun key _ =>
    match sampleKeys.findIdx? fun k => k.drop 32 == key with
    | some i => sampleKeys.getD (i + 1) []
    | none => sampleKeys.headD []
  publicKey := fun _ => beBytes 32 0xc822d4cc075dca2eb91839bae6449b12ea50863d7900c0f582e40afd8617a74a
  sign := fun _ _ => []
  argon2id := fun _ _ salt => .ok (if salt = oldSalt then oldDerived else newDerived)
  encrypt := fun key _ _ _ => some (if key = newDerived then newInner else newOuter)
  decrypt := fun key _ _ ciphertext =>
    if key = oldKey ∧ ciphertext = oldOuter then some oldInner
    else if key = oldDerived ∧ ciphertext = oldInner then some sampleSeed
    else none
  base58 := fun _ => "3KCkF5nxqwB2uU5wA9Hu5KWJMr63vvDiU"
  mnemonicFromEntropy := fun _ => .error "mnemonic has an invalid checksum"
  parseMnemonic := fun phrase =>
    if phrase = trim samplePhrase then .ok phrase else .error "mnemonic has an invalid word count: 0"
  mnemonicSeed := fun _ => sampleSeed
  showSealed := showSealedSeed
  readSealed := fun bytes =>
    if bytes = showSealedSeed oldSealed then .ok oldSealed
    else .error "expected value at line 1 column 1"
  hexError := fun _ => "Odd number of digits"

end Crypto

/-- BLAKE3 of the identity's public key, of its address, and of the address's hash. -/
def Platform.sampleIdentity : Platform where
  __ := Platform.sample
  blake3 := fun bytes =>
    if bytes.length = 20 then 0xd0ad213b2ba9b0106a8d89ebe5ce000e032983fd54159cde328b45a038e8702e
    else if bytes = Crypto.sample.publicKey [] then
      0x092c437246c6669abff7a8cd19618b2854b7e9f150ed4389d0b3851fc2665960
    else 0x9cc0e4ada6117226348d9e437f5d034cf2d834057027d664a03a27183cbc7675

end Syndeo
