import Syndeo.Concurrent.Pool

/-!
# The proxy's certificate authority on disk

The proxy vouches for every site it intercepts with one authority: a private
key, and a certificate that names that key's public half. The two are two files
of one directory. Neither can be used without the other, and no operation writes
both at once, so what a run of `CertificateAuthority::load_or_create` finds is
what earlier runs left, and earlier runs may have stopped anywhere.

Every file operation is one action of a program over `Syndeo.Proxy.FileAct`, and
any of them may fail. Writing a file is one action: `posture::write_new` puts
the whole file in place under its name, or nothing. Keys are made, certificates
signed and both read back by a library, of which `Syndeo.Proxy.Rcgen` keeps what
is asked of it.

What holds of the two files is `Syndeo.Proxy.Paired`: where both are there, the
certificate is for the key. A key put in place beside a certificate breaks it,
and so does a certificate put in place beside another run's key; the runs in
which neither happens are those whose steps are `Syndeo.Proxy.Undisputed`.
-/

namespace Syndeo.Proxy

open Concurrent

open Prog (call obeys_run_bind)

variable {Pem KeyPair PublicKey Params Der : Type}

/-- **The certificate library**: reading a key and a certificate from the text
of a file, writing a key out, and the public half a key and a certificate have. -/
structure Rcgen (Pem KeyPair PublicKey Params Der : Type) where
  /-- `KeyPair::from_pem`. -/
  keyFromPem : Pem → Except String KeyPair
  /-- `KeyPair::serialize_pem`. -/
  serializePem : KeyPair → Pem
  /-- The public half of a key. -/
  publicKey : KeyPair → PublicKey
  /-- The public key a certificate names. -/
  subjectKey : Pem → Option PublicKey
  /-- The identity `Issuer::from_ca_cert_pem` takes from a certificate. -/
  params : Pem → Except String Params
  /-- The first certificate of a document, as `rustls_pemfile::certs` finds it. -/
  firstCertificate : Pem → Except String (Option Der)
  /-- A key that was written out is read back. -/
  keyFromPem_serializePem : ∀ k, keyFromPem (serializePem k) = .ok k

/-- The two files. -/
inductive FileName
  | certificate
  | key
  deriving DecidableEq, Repr

/-- **The directory**: what each of the two files holds, if it is there. -/
structure Directory (Pem : Type) where
  certificate : Option Pem
  key : Option Pem
  deriving DecidableEq, Repr

namespace Directory

/-- What is under a name. -/
def file (d : Directory Pem) : FileName → Option Pem
  | .certificate => d.certificate
  | .key => d.key

/-- A file is put in place under its name. -/
def put (d : Directory Pem) (contents : Pem) : FileName → Directory Pem
  | .certificate => { d with certificate := some contents }
  | .key => { d with key := some contents }

end Directory

/-! ### The program -/

/-- What a run asks for: the operations of `posture`, and what the library makes
afresh each time. -/
inductive FileAct (Pem KeyPair : Type) : Type → Type
  | prepareDirectory : FileAct Pem KeyPair Unit
  | isPresent (name : FileName) : FileAct Pem KeyPair Bool
  | read (name : FileName) (tightenTo : Option ℕ) : FileAct Pem KeyPair Pem
  | writeNew (name : FileName) (contents : Pem) (mode : ℕ) : FileAct Pem KeyPair Unit
  | generateKey : FileAct Pem KeyPair KeyPair
  | selfSigned (key : KeyPair) : FileAct Pem KeyPair Pem

/-- Any of it may fail. -/
inductive Attempt (Pem KeyPair : Type) : Type → Type 1
  | of {γ : Type} (a : FileAct Pem KeyPair γ) : Attempt Pem KeyPair (Except String γ)

/-- A piece of a run. -/
abbrev Load (Pem KeyPair : Type) : Type → Type 1 := ExceptT String (Prog (Attempt Pem KeyPair))

/-- Ask for one operation. -/
def attempt {γ : Type} (a : FileAct Pem KeyPair γ) : Load Pem KeyPair γ := ExceptT.mk (call (.of a))

/-- A result with a context for its error. -/
def orContext {γ : Type} (context : String) (r : Except String γ) : Load Pem KeyPair γ :=
  ExceptT.mk (.pure (r.mapError fun e => context ++ ": " ++ e))

/-- The signing identity: the stored certificate's, with the key. -/
structure Issuer (Params KeyPair : Type) where
  params : Params
  key : KeyPair

structure CertificateAuthority (Pem KeyPair Params Der : Type) where
  issuer : Issuer Params KeyPair
  issuerDer : Der
  caPem : Pem

section Program

variable (L : Rcgen Pem KeyPair PublicKey Params Der)

def generate : Load Pem KeyPair (Pem × Pem) := do
  let keyPair ← attempt .generateKey
  let cert ← attempt (.selfSigned keyPair)
  pure (cert, L.serializePem keyPair)

def certificateFor (keyPem : Pem) : Load Pem KeyPair Pem := do
  let keyPair ← orContext "reading the authority key" (L.keyFromPem keyPem)
  attempt (.selfSigned keyPair)

/-- A new key and a certificate for it, the key written first. -/
def generateInto : Load Pem KeyPair (Pem × Pem) := do
  let (certPem, keyPem) ← generate L
  attempt (.writeNew .key keyPem 0o600)
  attempt (.writeNew .certificate certPem 0o644)
  pure (certPem, keyPem)

/-- What is found in the directory, or put there. -/
def storedOrNew : Load Pem KeyPair (Pem × Pem) := do
  let cert ← attempt (.isPresent .certificate)
  let key ← attempt (.isPresent .key)
  match cert, key with
  | true, true => do
    let caPem ← attempt (.read .certificate none)
    let keyPem ← attempt (.read .key (some 0o600))
    pure (caPem, keyPem)
  | false, true => do
    let keyPem ← attempt (.read .key (some 0o600))
    let certPem ← certificateFor L keyPem
    attempt (.writeNew .certificate certPem 0o644)
    pure (certPem, keyPem)
  | true, false => generateInto L
  | false, false => generateInto L

/-- `Issuer::from_ca_cert_pem` and what is kept beside it. -/
def authorityOf (caPem keyPem : Pem) :
    Load Pem KeyPair (CertificateAuthority Pem KeyPair Params Der) := do
  let issuerKey ← orContext "reading the authority key" (L.keyFromPem keyPem)
  let params ← orContext "reading the authority certificate" (L.params caPem)
  match ← orContext "parsing the authority certificate" (L.firstCertificate caPem) with
  | some issuerDer => pure ⟨⟨params, issuerKey⟩, issuerDer, caPem⟩
  | none => throw "the authority file contains no certificate"

/-- `CertificateAuthority::load_or_create`. -/
def loadOrCreate : Load Pem KeyPair (CertificateAuthority Pem KeyPair Params Der) := do
  attempt .prepareDirectory
  let (caPem, keyPem) ← storedOrNew L
  authorityOf L caPem keyPem

end Program

/-! ### What the operations do -/

/-- How an operation turns out: as it should, with something new made by the
library, or with an error. -/
inductive Turn (Pem KeyPair : Type)
  | goes
  | makes (key : KeyPair)
  | signs (cert : Pem)
  | fails (error : String)

section Perform

variable (L : Rcgen Pem KeyPair PublicKey Params Der) [DecidableEq PublicKey]

/-- An operation that does not fail. A file that is not there cannot be read, and
a certificate is signed for the key it is asked for. -/
def FileAct.perform (turn : Turn Pem KeyPair) {γ : Type} (a : FileAct Pem KeyPair γ)
    (d : Directory Pem) : Option (γ × Directory Pem) :=
  match a, turn with
  | .prepareDirectory, .goes => some ((), d)
  | .isPresent name, .goes => some ((d.file name).isSome, d)
  | .read name _, .goes => (d.file name).map fun contents => (contents, d)
  | .writeNew name contents _, .goes => some ((), d.put contents name)
  | .generateKey, .makes key => some (key, d)
  | .selfSigned key, .signs cert =>
    if L.subjectKey cert = some (L.publicKey key) then some (cert, d) else none
  | _, _ => none

/-- One that does has changed nothing. -/
def perform (turn : Turn Pem KeyPair) (_ : ℕ) {β : Type} (a : Attempt Pem KeyPair β)
    (d : Directory Pem) : Option (β × Directory Pem) :=
  match a, turn with
  | .of _, .fails error => some (.error error, d)
  | .of a, turn => (a.perform L turn d).map fun r => (.ok r.1, r.2)

/-- **The runs on one directory**, side by side. -/
abbrev authorityRuns : System (Attempt Pem KeyPair) (Directory Pem)
    (Except String (CertificateAuthority Pem KeyPair Params Der)) :=
  System.ofPerform (perform L) (fun _ => True) fun _ => none

end Perform

/-- `n` runs at their start. -/
def starting (L : Rcgen Pem KeyPair PublicKey Params Der) (d : Directory Pem) (n : ℕ) :
    Config (Attempt Pem KeyPair) (Directory Pem)
      (Except String (CertificateAuthority Pem KeyPair Params Der)) :=
  ⟨d, List.replicate n (loadOrCreate L).run⟩

/-! ### One pair -/

variable (L : Rcgen Pem KeyPair PublicKey Params Der)

/-- The certificate is for the stored key. -/
def Matches (cert key : Pem) : Prop :=
  ∃ keyPair, L.keyFromPem key = .ok keyPair ∧ L.subjectKey cert = some (L.publicKey keyPair)

instance [DecidableEq PublicKey] (cert key : Pem) : Decidable (Matches L cert key) :=
  match h : L.keyFromPem key with
  | .ok keyPair => decidable_of_iff (L.subjectKey cert = some (L.publicKey keyPair))
      ⟨fun hs => ⟨keyPair, h, hs⟩, fun ⟨_, hk, hs⟩ => by
        obtain rfl := Except.ok.inj (h.symm.trans hk)
        exact hs⟩
  | .error _ => isFalse fun ⟨_, hk, _⟩ => nomatch h.symm.trans hk

/-- **One pair**: where both files are there, they belong together. -/
def Paired (d : Directory Pem) : Prop :=
  ∀ cert key, d.certificate = some cert → d.key = some key → Matches L cert key

/-- **A write nobody disputes**: when a key is put in place there is no
certificate, and when a certificate is put in place the key there is the one it
was signed for. -/
def UndisputedWrite (d : Directory Pem) (contents : Pem) : FileName → Prop
  | .certificate => ∀ key, d.key = some key → Matches L contents key
  | .key => d.certificate = none

instance [DecidableEq PublicKey] (d : Directory Pem) (contents : Pem) :
    (name : FileName) → Decidable (UndisputedWrite L d contents name)
  | .certificate =>
    match h : d.key with
    | some key => decidable_of_iff (Matches L contents key)
        ⟨fun hm _ hk => Option.some.inj (h.symm.trans hk) ▸ hm, fun hm => hm key h⟩
    | none => isTrue fun _ hk => nomatch h.symm.trans hk
  | .key => decidable_of_iff (d.certificate.isNone) Option.isNone_iff_eq_none

/-- A step that is no other write. -/
def Undisputed {β : Type} (a : Attempt Pem KeyPair β) (d : Directory Pem) : Prop :=
  match a with
  | .of (.writeNew name contents _) => UndisputedWrite L d contents name
  | _ => True

instance [DecidableEq PublicKey] {β : Type} (a : Attempt Pem KeyPair β) (d : Directory Pem) :
    Decidable (Undisputed L a d) :=
  match a with
  | .of (.writeNew name contents _) =>
    inferInstanceAs (Decidable (UndisputedWrite L d contents name))
  | .of .prepareDirectory => isTrue trivial
  | .of (.isPresent _) => isTrue trivial
  | .of (.read _ _) => isTrue trivial
  | .of .generateKey => isTrue trivial
  | .of (.selfSigned _) => isTrue trivial

/-- What a run knows is the certificate it has read from the directory, if it has
read one: the key it reads next is that one's. -/
def loading : Discipline (Attempt Pem KeyPair) (Option Pem) where
  may := fun {_} _ _ => True
  sees := fun {_} t a b =>
    match a, b with
    | .of (.selfSigned keyPair), .ok cert => L.subjectKey cert = some (L.publicKey keyPair)
    | .of (.read .key _), .ok key => ∀ cert, t = some cert → Matches L cert key
    | _, _ => True
  next := fun {_} t a b =>
    match a, b with
    | .of (.read .certificate _), .ok cert => some cert
    | _, _ => t
  born := fun {_} t _ => t

/-- The authority signs with the key its certificate names. -/
def Signs (a : CertificateAuthority Pem KeyPair Params Der) : Prop :=
  L.subjectKey a.caPem = some (L.publicKey a.issuer.key)

variable {L}

/-! ### What a run does, by itself -/

section Obeys

variable {γ : Type} {Q : Except String γ → Option Pem → Prop} {t : Option Pem}

theorem obeys_attempt {a : FileAct Pem KeyPair γ} :
    (attempt a).run.Obeys (loading L) Q t ↔
      ∀ b, (loading L).sees t (.of a) b → Q b ((loading L).next t (.of a) b) :=
  iff_of_eq (true_and _)

/-- Whatever it returns is one of `G`, or it fails. -/
def Giving (G : γ → Prop) (r : Except String γ) (_ : Option Pem) : Prop :=
  ∀ g, r = .ok g → G g

theorem giving_ok {G : γ → Prop} {g : γ} (h : G g) : Giving G (.ok g) t := by
  rintro _ ⟨⟩
  exact h

end Obeys

section Pieces

variable {γ δ : Type} {G : γ → Prop} {t : Option Pem}

/-- An operation whose result is looked at, with the rest of the run behind it. -/
theorem giving_attempt {a : FileAct Pem KeyPair δ} {f : δ → Load Pem KeyPair γ}
    (h : ∀ b, (loading L).sees t (.of a) (.ok b) →
      (f b).run.Obeys (loading L) (Giving G) ((loading L).next t (.of a) (.ok b))) :
    (attempt a >>= f).run.Obeys (loading L) (Giving G) t := by
  refine obeys_run_bind.mpr (obeys_attempt.mpr fun r hr => ?_)
  rcases r with e | b
  · exact fun _ h => nomatch h
  · exact h b hr

theorem giving_orContext {context : String} {r : Except String δ} {f : δ → Load Pem KeyPair γ}
    (h : ∀ b, r = .ok b → (f b).run.Obeys (loading L) (Giving G) t) :
    (orContext context r >>= f).run.Obeys (loading L) (Giving G) t := by
  rcases r with e | b
  · exact fun _ h => nomatch h
  · exact h b rfl

end Pieces

/-- A certificate that was signed for a key is the certificate of the key's text. -/
theorem matches_serializePem {cert : Pem} {keyPair : KeyPair}
    (h : L.subjectKey cert = some (L.publicKey keyPair)) :
    Matches L cert (L.serializePem keyPair) :=
  ⟨keyPair, L.keyFromPem_serializePem keyPair, h⟩

theorem generateInto_obeys {t : Option Pem} :
    (generateInto L).run.Obeys (loading L) (Giving fun r => Matches L r.1 r.2) t := by
  rw [generateInto, generate]
  simp only [bind_assoc, pure_bind]
  refine giving_attempt fun keyPair _ => giving_attempt fun cert hcert => ?_
  refine giving_attempt fun _ _ => giving_attempt fun _ _ => ?_
  exact giving_ok (matches_serializePem hcert)

/-- **What is found or put in the directory belongs together.** -/
theorem storedOrNew_obeys :
    (storedOrNew L).run.Obeys (loading L) (Giving fun r => Matches L r.1 r.2) none := by
  rw [storedOrNew]
  refine giving_attempt fun cert _ => giving_attempt fun key _ => ?_
  rcases cert with _ | _
  · rcases key with _ | _
    · exact generateInto_obeys
    · -- the certificate is signed for the key that was read
      refine giving_attempt fun keyPem _ => ?_
      rw [certificateFor, bind_assoc]
      refine giving_orContext fun keyPair hkey => giving_attempt fun cert hcert => ?_
      refine giving_attempt fun _ _ => ?_
      exact giving_ok ⟨keyPair, hkey, hcert⟩
  · rcases key with _ | _
    · exact generateInto_obeys
    · -- the key is read after its certificate
      refine giving_attempt fun caPem _ => giving_attempt fun keyPem hkey => ?_
      exact giving_ok (hkey caPem rfl)

theorem authorityOf_obeys {caPem keyPem : Pem} {t : Option Pem} (h : Matches L caPem keyPem) :
    (authorityOf L caPem keyPem).run.Obeys (loading L) (Giving (Signs L)) t := by
  obtain ⟨keyPair, hkey, hsubject⟩ := h
  rw [authorityOf]
  refine giving_orContext fun issuerKey hissuer => ?_
  obtain rfl : keyPair = issuerKey := Except.ok.inj (hkey.symm.trans hissuer)
  refine giving_orContext fun params _ => giving_orContext fun der _ => ?_
  rcases der with _ | issuerDer
  · exact fun _ h => nomatch h
  · exact giving_ok hsubject

/-- **Every run keeps to it**: what it returns signs with the key its certificate
names, as long as the key read is the read certificate's. -/
theorem loadOrCreate_obeys :
    (loadOrCreate L).run.Obeys (loading L) (Giving (Signs L)) none := by
  rw [loadOrCreate]
  refine giving_attempt fun _ _ => ?_
  refine obeys_run_bind.mpr (storedOrNew_obeys.mono fun r t hr => ?_)
  rcases r with e | ⟨caPem, keyPem⟩
  · exact fun _ h => nomatch h
  · exact authorityOf_obeys (hr _ rfl)

/-! ### Side by side -/

/-- **What is kept**: the files are one pair, and the key is that of every
certificate a run has read. -/
def Kept (L : Rcgen Pem KeyPair PublicKey Params Der) (d : Directory Pem) (t : ℕ → Option Pem) :
    Prop :=
  Paired L d ∧ ∀ i cert, t i = some cert →
    d.certificate.isSome ∧ ∀ key, d.key = some key → Matches L cert key

/-- Where a run has read nothing new. -/
theorem Kept.quiet {d : Directory Pem} {t : ℕ → Option Pem} (h : Kept L d t) (i : ℕ) :
    Kept L d (Function.update t i (t i)) := by
  rwa [Function.update_eq_self]

/-- A run that reads the certificate knows it is the key's. -/
theorem Kept.read {d : Directory Pem} {t : ℕ → Option Pem} (h : Kept L d t) (i : ℕ) {cert : Pem}
    (hcert : d.certificate = some cert) : Kept L d (Function.update t i (some cert)) := by
  refine ⟨h.1, fun j cert' hj => ?_⟩
  rcases eq_or_ne j i with rfl | hne
  · rw [Function.update_self, Option.some.injEq] at hj
    obtain rfl := hj
    exact ⟨by rw [hcert]; rfl, fun key hkey => h.1 cert key hcert hkey⟩
  · rw [Function.update_of_ne hne] at hj
    exact h.2 j cert' hj

/-- **A write nobody disputes keeps the pair**, and what the other runs know. -/
theorem Kept.put {d : Directory Pem} {t : ℕ → Option Pem} (h : Kept L d t) {name : FileName}
    {contents : Pem} (hok : UndisputedWrite L d contents name) :
    Kept L (d.put contents name) t := by
  rcases name with _ | _
  · -- a certificate for the key that is there
    refine ⟨fun cert key hcert hkey => ?_, fun j cert hj => ⟨rfl, (h.2 j cert hj).2⟩⟩
    obtain rfl : contents = cert := Option.some.inj hcert
    exact hok key hkey
  · -- a key, and no certificate
    have hnone : d.certificate = none := hok
    refine ⟨fun cert key hcert _ => ?_, fun j cert hj => ?_⟩
    · exact nomatch hnone.symm.trans hcert
    · have hsome := (h.2 j cert hj).1
      rw [hnone] at hsome
      exact nomatch hsome

/-- An operation that fails tells the run nothing. -/
theorem loading_error {γ : Type} {u : Option Pem} {a : FileAct Pem KeyPair γ} {e : String} :
    (loading L).sees u (.of a) (.error e) ∧ (loading L).next u (.of a) (.error e) = u := by
  cases a with
  | read name tightenTo => cases name <;> exact ⟨trivial, rfl⟩
  | _ => exact ⟨trivial, rfl⟩

section Governs

variable [DecidableEq PublicKey] {d d' : Directory Pem} {t : ℕ → Option Pem} {i : ℕ} {γ : Type}

/-- An operation that goes through does what the run was told, and keeps the
pair. -/
theorem Kept.perform (h : Kept L d t) {turn : Turn Pem KeyPair} {a : FileAct Pem KeyPair γ} {b : γ}
    (hok : Undisputed L (.of a) d) (hp : a.perform L turn d = some (b, d')) :
    (loading L).sees (t i) (.of a) (.ok b) ∧
      Kept L d' (Function.update t i ((loading L).next (t i) (.of a) (.ok b))) := by
  cases a with
  | prepareDirectory =>
    cases turn with
    | goes =>
      obtain ⟨-, rfl⟩ := Prod.mk.inj (Option.some.inj hp)
      exact ⟨trivial, h.quiet i⟩
    | _ => exact nomatch hp
  | isPresent name =>
    cases turn with
    | goes =>
      obtain ⟨-, rfl⟩ := Prod.mk.inj (Option.some.inj hp)
      exact ⟨trivial, h.quiet i⟩
    | _ => exact nomatch hp
  | read name tightenTo =>
    cases turn with
    | goes =>
      obtain ⟨contents, hfile, heq⟩ := Option.map_eq_some_iff.mp hp
      obtain ⟨rfl, rfl⟩ := Prod.mk.inj heq
      rcases name with _ | _
      · exact ⟨trivial, h.read i hfile⟩
      · exact ⟨fun cert hcert => (h.2 i cert hcert).2 contents hfile, h.quiet i⟩
    | _ => exact nomatch hp
  | writeNew name contents mode =>
    cases turn with
    | goes =>
      obtain ⟨-, rfl⟩ := Prod.mk.inj (Option.some.inj hp)
      exact ⟨trivial, (h.put hok).quiet i⟩
    | _ => exact nomatch hp
  | generateKey =>
    cases turn with
    | makes key =>
      obtain ⟨-, rfl⟩ := Prod.mk.inj (Option.some.inj hp)
      exact ⟨trivial, h.quiet i⟩
    | _ => exact nomatch hp
  | selfSigned key =>
    cases turn with
    | signs cert =>
      obtain ⟨hcert, heq⟩ := Option.ite_none_right_eq_some.mp hp
      obtain ⟨rfl, rfl⟩ := Prod.mk.inj (Option.some.inj heq)
      exact ⟨hcert, h.quiet i⟩
    | _ => exact nomatch hp

/-- An attempt fails and changes nothing, or goes through. -/
theorem perform_of {turn : Turn Pem KeyPair} {a : FileAct Pem KeyPair γ} {b : Except String γ}
    (h : perform L turn i (.of a) d = some (b, d')) :
    (∃ e, b = .error e ∧ d' = d) ∨ ∃ g, b = .ok g ∧ a.perform L turn d = some (g, d') := by
  cases turn with
  | fails error =>
    obtain ⟨rfl, rfl⟩ := Prod.mk.inj (Option.some.inj h)
    exact Or.inl ⟨error, rfl, rfl⟩
  | _ =>
    obtain ⟨⟨g, u⟩, hp, heq⟩ := Option.map_eq_some_iff.mp h
    obtain ⟨rfl, rfl⟩ := Prod.mk.inj heq
    exact Or.inr ⟨g, rfl, hp⟩

/-- The runs in which nobody disputes a write. -/
abbrev undisputedRuns (L : Rcgen Pem KeyPair PublicKey Params Der) :
    System (Attempt Pem KeyPair) (Directory Pem)
      (Except String (CertificateAuthority Pem KeyPair Params Der)) :=
  (authorityRuns L).when fun _ {_} a d => Undisputed L a d

/-- **The runs whose writes nobody disputes keep the pair.** -/
theorem governs : Governs (undisputedRuns L) (loading L) (Kept L) fun _ => Giving (Signs L) where
  step := by
    intro i n β a d b d' t _ hinv _ hstep
    obtain ⟨hok, turn, -, hp⟩ := hstep
    rw [show ((undisputedRuns L).child a).isSome = false from rfl, Discipline.advance_false]
    obtain ⟨a⟩ := a
    rcases perform_of hp with ⟨e, rfl, rfl⟩ | ⟨g, rfl, hg⟩
    · obtain ⟨hsees, hnext⟩ := loading_error (L := L) (u := t i) (a := a) (e := e)
      rw [hnext]
      exact ⟨hsees, hinv.quiet i⟩
    · exact hinv.perform hok hg
  child := fun _ _ _ _ _ _ h => nomatch h

/-- What such an operation leaves: the directory as it was, or with one write. -/
theorem directory_of_perform {turn : Turn Pem KeyPair} {a : FileAct Pem KeyPair γ} {g : γ}
    (hok : Undisputed L (.of a) d) (h : a.perform L turn d = some (g, d')) :
    d' = d ∨ ∃ name contents, UndisputedWrite L d contents name ∧ d' = d.put contents name := by
  cases a with
  | writeNew name contents mode =>
    cases turn with
    | goes => exact Or.inr ⟨name, contents, hok, (Prod.mk.inj (Option.some.inj h)).2.symm⟩
    | _ => exact nomatch h
  | read name tightenTo =>
    cases turn with
    | goes =>
      obtain ⟨_, -, heq⟩ := Option.map_eq_some_iff.mp h
      exact Or.inl (Prod.mk.inj heq).2.symm
    | _ => exact nomatch h
  | selfSigned key =>
    cases turn with
    | signs cert =>
      obtain ⟨-, heq⟩ := Option.ite_none_right_eq_some.mp h
      exact Or.inl (Prod.mk.inj (Option.some.inj heq)).2.symm
    | _ => exact nomatch h
  | generateKey =>
    cases turn with
    | makes key => exact Or.inl (Prod.mk.inj (Option.some.inj h)).2.symm
    | _ => exact nomatch h
  | _ =>
    cases turn with
    | goes => exact Or.inl (Prod.mk.inj (Option.some.inj h)).2.symm
    | _ => exact nomatch h

/-- **Where both files are there, the key stays**: a write nobody disputes then
only ever puts another certificate in place. -/
theorem key_of_step {key : Pem} {n : ℕ} {β : Type} {a : Attempt Pem KeyPair β} {b : β}
    (hd : d.certificate.isSome ∧ d.key = some key) (h : (undisputedRuns L).step i n a d b d') :
    d'.certificate.isSome ∧ d'.key = some key := by
  obtain ⟨hok, turn, -, hp⟩ := h
  obtain ⟨a⟩ := a
  rcases perform_of hp with ⟨e, rfl, rfl⟩ | ⟨g, rfl, hg⟩
  · exact hd
  · rcases directory_of_perform hok hg with rfl | ⟨name | name, contents, hwrite, rfl⟩
    · exact hd
    · exact ⟨rfl, hd.2⟩
    · have hnone : d.certificate = none := hwrite
      rw [hnone] at hd
      exact nomatch hd.1

end Governs

section Computed

variable [DecidableEq PublicKey] {L : Rcgen Pem KeyPair PublicKey Params Der}
  {c : Config (Attempt Pem KeyPair) (Directory Pem)
    (Except String (CertificateAuthority Pem KeyPair Params Der))}
  {p : Config (Attempt Pem KeyPair) (Directory Pem)
    (Except String (CertificateAuthority Pem KeyPair Params Der)) → Bool}

/-- A schedule the runs can follow. -/
theorem exists_authorityRuns (rest : List (Turn Pem KeyPair × ℕ))
    (h : (c.follow (perform L) (fun {_} _ => none) rest).any p = true) :
    ∃ c', (authorityRuns L).Runs c c' ∧ p c' = true :=
  Config.exists_runs_of_follow (fun _ _ => trivial) h

/-- One in which nobody disputes a write. -/
theorem exists_undisputedRuns (rest : List (Turn Pem KeyPair × ℕ))
    (h : (c.follow (allowing (fun _ {_} a d => Undisputed L a d) (perform L))
      (fun {_} _ => none) rest).any p = true) :
    ∃ c', (undisputedRuns L).Runs c c' ∧ p c' = true := by
  rw [undisputedRuns, authorityRuns, ← System.ofPerform_allowing]
  exact Config.exists_runs_of_follow (fun _ _ => trivial) h

end Computed

/-! ### Where a write is disputed -/

/-- The text of a file, by what is in it. -/
inductive Text
  | key (n : ℕ)
  | certificate (n : ℕ)
  deriving DecidableEq, Repr

/-- A library whose keys are numbers. -/
def numbered : Rcgen Text ℕ ℕ ℕ ℕ where
  keyFromPem
    | .key n => .ok n
    | .certificate _ => .error "no private key found"
  serializePem := .key
  publicKey := fun n => n
  subjectKey
    | .key _ => none
    | .certificate n => some n
  params
    | .key _ => .error "no certificate found"
    | .certificate n => .ok n
  firstCertificate
    | .key _ => .ok none
    | .certificate n => .ok (some n)
  keyFromPem_serializePem := fun _ => rfl

/-- What a run that has returned has, of the two. -/
def returned (c : Config (Attempt Text ℕ) (Directory Text)
    (Except String (CertificateAuthority Text ℕ ℕ ℕ))) (i : ℕ) : Option (Text × ℕ) :=
  match c.result i with
  | some (.ok a) => some (a.caPem, a.issuer.key)
  | _ => none

/-- A run up to where it has looked for the two files. -/
def looks (i : ℕ) : List (Turn Text ℕ × ℕ) := [(.goes, i), (.goes, i), (.goes, i)]

/-- A run that makes the key `n`, and puts it in place. -/
def putsKey (i n : ℕ) : List (Turn Text ℕ × ℕ) :=
  [(.makes n, i), (.signs (.certificate n), i), (.goes, i)]

theorem not_paired_of_eq {m n : ℕ} {d : Directory Text} (hne : m ≠ n)
    (h : d = ⟨some (.certificate m), some (.key n)⟩) : ¬Paired numbered d := by
  intro hp
  obtain ⟨_, ⟨⟩, hsubject⟩ := hp (.certificate m) (.key n) (by rw [h]) (by rw [h])
  exact hne (Option.some.inj hsubject)

end Syndeo.Proxy
