import Syndeo.Keystore.Session

/-!
# The keystore's request loop

What crosses the socket between the shell and the keystore, and `handle`, which
answers a request. Enrolment is not offered there. Errors cross as text, but for
one: a locked keystore says so in a variant of its own, because the shell acts on
it.
-/

namespace Syndeo

/-- `KeystoreRequest`. -/
inductive KeystoreRequest
  | signConfirmed (confirmation : Confirmation) (payload : Bytes)
  | publicIdentity (origin : String)
  | status
  | enrol (passphrase : Option String)
  | restore (mnemonic : String) (passphrase : Option String)
  | «unseal» (passphrase : Option String)
  | lock
  | sessionProtection

/-- `ScreenLockReport`. -/
inductive ScreenLockReport
  | reported (locked : Bool)
  | notReported
  deriving DecidableEq

/-- `KeystoreResponse`. -/
inductive KeystoreResponse
  | signature (signature publicKey address : String)
  | identity (publicKey address : String)
  | status (s : Status)
  | locked
  | ok
  | error (message : String)
  | sessionProtection (initialized unsealed : Bool) (idleTimeoutSecs : Option ℕ)
      (sleepDetection : Bool) (screenLock : ScreenLockReport)
  deriving DecidableEq

/-- `refuse`. -/
def refuse (e : KeystoreError) : KeystoreResponse :=
  if e = .locked then .locked else .error e.message

/-- `refuse_enrolment`. -/
def refuseEnrolment (operation : String) : KeystoreResponse :=
  .error (operation ++ " is not available over the keystore socket; run `syndeo-keystore " ++
    operation ++ "` in a terminal")

namespace Process

variable (P : Platform) (C : Crypto) (build : Build)

/-- The answer to an operation that the socket offers. -/
def respond (r : Except KeystoreError Answer × Process) : KeystoreResponse × Process :=
  match r with
  | (.ok (.signed s), p) => (.signature s.signature s.publicKey (s.address.toBase58 P C), p)
  | (.ok (.identity publicKey address), p) => (.identity publicKey (address.toBase58 P C), p)
  | (.ok _, p) => (.ok, p)
  | (.error e, p) => (refuse e, p)

/-- `handle`. -/
def handle (met : Met) (p : Process) : KeystoreRequest → KeystoreResponse × Process
  | .signConfirmed confirmation payload =>
    respond P C (p.operate P C build met (.signConfirmed confirmation payload))
  | .publicIdentity origin => respond P C (p.operate P C build met (.publicIdentity origin))
  | .status =>
    match p.keystore.run build met.world (Keystore.status C build) with
    | (.ok s, k) => (.status s, { p with keystore := k })
    | (.error e, k) => (refuse e, { p with keystore := k })
  | .enrol _ => (refuseEnrolment "initialize", p)
  | .restore _ _ => (refuseEnrolment "restore", p)
  | .unseal passphrase => respond P C (p.operate P C build met (.unseal passphrase))
  | .lock => respond P C (p.operate P C build met .lock)
  | .sessionProtection =>
    match p.keystore.run build met.world (Keystore.status C build) with
    | (.ok s, k) =>
      (.sessionProtection s.initialized s.unsealed s.idleTimeoutSecs true
        (match met.around.screenIsLocked with
          | some locked => .reported locked
          | none => .notReported), { p with keystore := k })
    | (.error e, k) => (refuse e, { p with keystore := k })

end Process

end Syndeo
