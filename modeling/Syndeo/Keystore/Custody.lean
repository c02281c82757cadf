import Syndeo.Concurrent.Run
import Syndeo.Keystore.Seal

/-!
# Where a keystore keeps things

The sealed seed is a file in the home's vault; the wrapping key is in the
operating system's credential store, which on macOS has two places for it: the
*enclave*, where the system asks for the user, and the ordinary keychain. The
master key of an open session is in memory, beside the `Syndeo.Watch` that ends
one.

A `Syndeo.CustodyAct` is one step of a keystore operation: one call to the file
system, one call to the credential store, one drawing of random bytes, one
assignment. What it does is `Syndeo.Keystore.perform`, given what the world
contributes to it (`Syndeo.Moment`): the time, the random bytes, and whether it
fails. A write that fails can leave anything in the temporary file.
-/

namespace Syndeo

open Text Concurrent

/-! ### The idle watch -/

/-- `idle::Reading`: both clocks, in seconds. -/
structure Reading where
  monotonic : ℕ
  wall : ℕ
  deriving DecidableEq

/-- `idle::Reason`. -/
inductive Reason
  | idle
  | slept
  | screenLocked
  deriving DecidableEq

/-- `SLEEP_SLACK`. -/
def sleepSlack : ℕ := 30

/-- `idle::Watch`: the policy, in whole seconds, and the last time anything used
the seed. -/
structure Watch where
  timeout : Option ℕ
  last : Reading
  deriving DecidableEq

namespace Watch

/-- `Watch::expired`, at a reading of the clocks and with what the system says of
the screen. -/
def expired (self : Watch) (now : Reading) (screenIsLocked : Option Bool) : Option Reason :=
  let monotonicDelta := now.monotonic - self.last.monotonic
  let wallDelta := now.wall - self.last.wall
  if min (monotonicDelta + sleepSlack) (u64Bound - 1) < wallDelta then some .slept
  else if screenIsLocked = some true then some .screenLocked
  else
    match self.timeout with
    | some timeout => if timeout ≤ monotonicDelta then some .idle else none
    | none => none

/-- `Watch::touch`. -/
def touch (self : Watch) (now : Reading) : Watch := { self with last := now }

/-- `Watch::idle_for`. -/
def idleFor (self : Watch) (now : Reading) : ℕ := now.monotonic - self.last.monotonic

end Watch

/-! ### The vault and the credential store -/

/-- `CustodyError`. -/
inductive CustodyError
  | io (what : String)
  | symlink (path : String)
  | foreignOwner (path : String)
  | tooPermissive (path : String) (mode : ℕ)
  | notRegular (path : String)
  deriving DecidableEq

/-- What a `CustodyError` says. -/
def CustodyError.message : CustodyError → String
  | .io what => "io: " ++ what
  | .symlink path => path ++ " is a symlink; refusing to open it"
  | .foreignOwner path => path ++ " is not owned by this user"
  | .tooPermissive path mode =>
    path ++ " has mode " ++ String.ofList (Nat.toDigits 8 mode) ++
      "; it must be reachable only by its owner"
  | .notRegular path => path ++ " is not a regular file"

/-- `WrappingError`. -/
inductive WrappingError
  | store (what : String)
  | missing
  | malformed
  deriving DecidableEq

/-- What a `WrappingError` says. -/
def WrappingError.message : WrappingError → String
  | .store what => "credential store: " ++ what
  | .missing => "no wrapping key has been enrolled"
  | .malformed => "the stored wrapping key is malformed"

/-- What a path leads to. A link is followed by what asks whether there is
something there. -/
inductive FileKind
  | regular
  | link (resolves : Bool)
  | other
  deriving DecidableEq

/-- A file, as the vault looks at it. -/
structure VaultFile where
  kind : FileKind
  owned : Bool
  mode : ℕ
  bytes : Bytes
  deriving DecidableEq

/-- `audit`, of what is there. -/
def VaultFile.audit (path : String) (file : VaultFile) : Except CustodyError Unit :=
  match file.kind with
  | .link _ => .error (.symlink path)
  | .other => .error (.notRegular path)
  | .regular =>
    let mode := file.mode &&& 0o777
    if file.owned = false then .error (.foreignOwner path)
    else if mode &&& 0o077 ≠ 0 then .error (.tooPermissive path mode)
    else .ok ()

/-- `Vault`: the path of the sealed seed, what is there, and the temporary file. -/
structure Vault where
  path : String
  file : Option VaultFile
  staged : Option VaultFile
  deriving DecidableEq

/-- What the operating system keeps under the one name all keystores use. -/
structure Ring where
  enclave : Option Bytes
  keychain : Option String
  deriving DecidableEq

/-- What a keystore was built for: a Mac, and there perhaps with the entitlement
that lets it enrol in the enclave. -/
inductive Build
  | macos (enrols : Bool)
  | elsewhere
  deriving DecidableEq

/-- `presence::available`, which is `EnclaveItem::presence_can_be_enforced`. -/
def Build.presenceAvailable : Build → Bool
  | .macos enrols => enrols
  | .elsewhere => false

/-- The enclave's item as a build sees it. -/
def Ring.enclaveSeen (ring : Ring) (build : Build) : Option Bytes :=
  if build.presenceAvailable then ring.enclave else none

/-- What is in memory: the master key of an open session, and what ends one. -/
structure Session where
  master : Option ExtendedKey
  watch : Watch
  deriving DecidableEq

/-- `Keystore`, with what it keeps outside. -/
structure Keystore where
  vault : Vault
  ring : Ring
  session : Session
  deriving DecidableEq

/-! ### The actions -/

/-- What random bytes are drawn for. -/
inductive Draw
  | entropy
  | wrappingKey
  | salt
  | innerNonce
  | outerNonce
  deriving DecidableEq

/-- How many. -/
def Draw.length : Draw → ℕ
  | .entropy | .wrappingKey => 32
  | .salt => 16
  | .innerNonce | .outerNonce => 24

/-- Which piece of code asks whether there is a sealed seed. -/
inductive Asking
  | load
  | enrol
  | write
  | status
  deriving DecidableEq

/-- **One step of a keystore operation.** -/
inductive CustodyAct : Type → Type
  /-- `Path::exists`, of the sealed seed. -/
  | «exists» (asking : Asking) : CustodyAct Bool
  /-- `audit`, of the sealed seed. -/
  | audit : CustodyAct (Except CustodyError Unit)
  /-- `fs::read`, of the sealed seed. -/
  | read : CustodyAct (Except CustodyError Bytes)
  /-- `fs::write`, to the temporary file. -/
  | writeStaged (bytes : Bytes) : CustodyAct (Except CustodyError Unit)
  /-- `restrict`, of the temporary file. -/
  | restrictStaged : CustodyAct (Except CustodyError Unit)
  /-- `fs::rename`, of the temporary file. -/
  | rename : CustodyAct (Except CustodyError Unit)
  /-- `restrict`, of the sealed seed. -/
  | restrict : CustodyAct (Except CustodyError Unit)
  /-- `EnclaveItem::exists`. -/
  | enclaveExists : CustodyAct (Except WrappingError Bool)
  /-- `EnclaveItem::load`. -/
  | enclaveLoad : CustodyAct (Except WrappingError Bytes)
  /-- `EnclaveItem::delete`. -/
  | enclaveDelete : CustodyAct (Except WrappingError Unit)
  /-- `SecItemAdd`, of the enclave's item. -/
  | enclaveAdd (key : Bytes) : CustodyAct (Except WrappingError Unit)
  /-- `get_password`; nothing where there is no entry. On a Mac, the question
  whether there is one is put to the same keychain without asking for the text. -/
  | getPassword : CustodyAct (Except WrappingError (Option String))
  /-- `set_password`. -/
  | setPassword (text : String) : CustodyAct (Except WrappingError Unit)
  /-- `delete_credential`, and whether there was one. -/
  | deleteCredential : CustodyAct (Except WrappingError Bool)
  /-- `fill_bytes`. -/
  | random (draw : Draw) : CustodyAct Bytes
  /-- `KdfParams::calibrate`. -/
  | calibrate : CustodyAct KdfParams
  /-- The assignment to `master`. -/
  | setMaster (master : ExtendedKey) : CustodyAct Unit
  /-- `Watch::touch`. -/
  | touch : CustodyAct Unit
  /-- A look at what is in memory, and at the clocks. -/
  | look : CustodyAct (Session × Reading)

/-- What the world contributes to a step: the clocks, random bytes, the iteration
count this machine settles on, a failure, and what a failing write leaves behind. -/
structure Moment where
  now : Reading
  random : ℕ → UInt8
  tCost : ℕ
  fault : Option String
  debris : Option VaultFile

namespace Keystore

/-- A call to the file system: it fails, or does this. -/
def onDisk {α : Type} (w : Moment) (k : Keystore) (go : Except CustodyError α × Vault) :
    Except CustodyError α × Keystore :=
  match w.fault with
  | some what => (.error (.io what), k)
  | none => (go.1, { k with vault := go.2 })

/-- A call to the credential store: it fails, or does this. -/
def onRing {α : Type} (w : Moment) (k : Keystore) (go : Except WrappingError α × Ring) :
    Except WrappingError α × Keystore :=
  match w.fault with
  | some what => (.error (.store what), k)
  | none => (go.1, { k with ring := go.2 })

/-- What the call says where no file is there. -/
def noSuchFile : CustodyError := .io "No such file or directory (os error 2)"

/-- What `SecItemAdd` says where there is such an item. -/
def duplicateItem : WrappingError := .store "OSStatus -25299"

/-- What it says to a build that may not enrol. -/
def missingEntitlement : WrappingError :=
  .store ("OSStatus -34018 (missing entitlement: this binary has no keychain access group, " ++
    "so the data protection keychain is not available to it)")

/-- `Path::exists`, of what is there. -/
def present : Option VaultFile → Bool
  | none => false
  | some file => decide (file.kind ≠ .link false)

variable (build : Build)

/-- **What a step does.** -/
def perform (w : Moment) (k : Keystore) : ∀ {β : Type}, CustodyAct β → β × Keystore
  | _, .exists _ => (w.fault.isNone && present k.vault.file, k)
  | _, .audit => onDisk w k
    (match k.vault.file with
      | none => .error noSuchFile
      | some file => file.audit k.vault.path, k.vault)
  | _, .read => onDisk w k
    (match k.vault.file with
      | none => .error noSuchFile
      | some file => .ok file.bytes, k.vault)
  | _, .writeStaged bytes =>
    match w.fault with
    | some what => (.error (.io what), { k with vault := { k.vault with staged := w.debris } })
    | none =>
      let mode := (k.vault.staged.map VaultFile.mode).getD 0o644
      (.ok (), { k with vault := { k.vault with staged := some ⟨.regular, true, mode, bytes⟩ } })
  | _, .restrictStaged => onDisk w k
    (match k.vault.staged with
      | none => (.error noSuchFile, k.vault)
      | some file => (.ok (), { k.vault with staged := some { file with mode := 0o600 } }))
  | _, .rename => onDisk w k
    (match k.vault.staged with
      | none => (.error noSuchFile, k.vault)
      | some file => (.ok (), { k.vault with file := some file, staged := none }))
  | _, .restrict => onDisk w k
    (match k.vault.file with
      | none => (.error noSuchFile, k.vault)
      | some file => (.ok (), { k.vault with file := some { file with mode := 0o600 } }))
  | _, .enclaveExists => onRing w k (.ok (k.ring.enclaveSeen build).isSome, k.ring)
  | _, .enclaveLoad => onRing w k
    (match k.ring.enclaveSeen build with
      | none => .error .missing
      | some key => if key.length = 32 then .ok key else .error .malformed, k.ring)
  | _, .enclaveDelete => onRing w k
    (.ok (), if build.presenceAvailable then { k.ring with enclave := none } else k.ring)
  | _, .enclaveAdd key => onRing w k
    (if build.presenceAvailable = false then (.error missingEntitlement, k.ring)
      else if k.ring.enclave.isSome then (.error duplicateItem, k.ring)
      else (.ok (), { k.ring with enclave := some key }))
  | _, .getPassword => onRing w k (.ok k.ring.keychain, k.ring)
  | _, .setPassword text => onRing w k (.ok (), { k.ring with keychain := some text })
  | _, .deleteCredential =>
    onRing w k (.ok k.ring.keychain.isSome, { k.ring with keychain := none })
  | _, .random draw => ((List.range draw.length).map w.random, k)
  | _, .calibrate => ({ KdfParams.default with tCost := w.tCost }, k)
  | _, .setMaster master => ((), { k with session := { k.session with master := some master } })
  | _, .touch => ((), { k with session := { k.session with watch := k.session.watch.touch w.now } })
  | _, .look => ((k.session, w.now), k)

end Keystore

/-! ### The two stores -/

/-- A piece of a keystore operation that can fail with an `ε`. -/
abbrev CustodyM (ε : Type) := ExceptT ε (Prog CustodyAct)

/-- A step that does not fail. -/
def act {ε β : Type} (a : CustodyAct β) : CustodyM ε β := ExceptT.lift (Prog.call a)

/-- A step that can. -/
def tryAct {ε β : Type} (a : CustodyAct (Except ε β)) : CustodyM ε β := ExceptT.mk (Prog.call a)

/-- What a piece of an operation comes to, an error included. -/
def outcome {ε ε' β : Type} (x : CustodyM ε β) : CustodyM ε' (Except ε β) := ExceptT.lift x.run

namespace Vault

/-- `Vault::read_sealed`. -/
def readSealed : CustodyM CustodyError Bytes := do
  tryAct .audit
  tryAct .read

/-- `Vault::write_sealed`. -/
def writeSealed (bytes : Bytes) : CustodyM CustodyError Unit := do
  if ← act (.exists .write) then tryAct .audit
  tryAct (.writeStaged bytes)
  tryAct .restrictStaged
  tryAct .rename
  tryAct .restrict

end Vault

namespace OsKeyring

variable (build : Build)

/-- `EnclaveItem::store`. -/
def enclaveStore (key : Bytes) : CustodyM WrappingError Unit := do
  let _ ← outcome (ε := WrappingError) (tryAct .enclaveDelete)
  tryAct (.enclaveAdd key)

/-- `OsKeyring::enrolled_in_enclave`. -/
def enrolledInEnclave : CustodyM WrappingError Bool :=
  match build with
  | .macos _ => do
    let found ← outcome (ε := WrappingError) (tryAct .enclaveExists)
    pure (match found with
      | .ok true => true
      | _ => false)
  | .elsewhere => pure false

/-- `OsKeyring::fallback_exists`. -/
def fallbackExists : CustodyM WrappingError Bool := do
  let found ← tryAct .getPassword
  pure found.isSome

/-- `OsKeyring::store`. -/
def store (key : Bytes) : CustodyM WrappingError Unit := do
  if build.presenceAvailable then
    enclaveStore key
    let _ ← outcome (ε := WrappingError) (tryAct .deleteCredential)
  else tryAct (.setPassword (hexEncode key))

/-- The wrapping key that the text of an entry is. -/
def readKey (text : String) : Except WrappingError Bytes :=
  match hexDecode text with
  | none => .error .malformed
  | some bytes => if bytes.length = 32 then .ok bytes else .error .malformed

/-- `OsKeyring::load`. -/
def load : CustodyM WrappingError Bytes := do
  if ← enrolledInEnclave build then tryAct .enclaveLoad
  else
    match ← tryAct .getPassword with
    | none => throw .missing
    | some text => ExceptT.mk (pure (readKey text))

/-- `OsKeyring::erase`. -/
def erase : CustodyM WrappingError Unit := do
  match build with
  | .macos _ =>
    let _ ← outcome (ε := WrappingError) (tryAct .enclaveDelete)
  | .elsewhere => pure ()
  let _ ← tryAct .deleteCredential

/-- `OsKeyring::exists`. -/
def «exists» : CustodyM WrappingError Bool :=
  match build with
  | .macos _ => do
    if ← tryAct .enclaveExists then pure true else fallbackExists
  | .elsewhere => fallbackExists

end OsKeyring

end Syndeo
