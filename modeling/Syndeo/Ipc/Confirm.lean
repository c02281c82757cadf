import Syndeo.Cache.Vary
import Syndeo.Data.Separated
import Syndeo.Data.Table

/-!
# Signing confirmations

What a person's yes becomes: a `Syndeo.Confirmation` of one payload, minted by
the shell and verified by the keystore, which share a secret. The MAC covers the
fields as text, each ended by a separator, and a verifier remembers the nonces it
has accepted until they expire.

`Syndeo.Confirmer.verify` is in two parts because the source's is. What comes
before the lock (`check`) looks at nothing shared but the clock, and the reading
it takes is the one that is used after the lock has been waited for
(`consume`). Between the two parts other calls can run.
-/

namespace Syndeo

open Text Tables

/-- `SignaturePurpose`. -/
inductive SignaturePurpose
  | originLogin
  | chainTransaction
  | attestation
  deriving DecidableEq

/-- `SignaturePurpose::as_str`. -/
def SignaturePurpose.asStr : SignaturePurpose → String
  | .originLogin => "origin login"
  | .chainTransaction => "chain transaction"
  | .attestation => "attestation"

theorem SignaturePurpose.asStr_inj {p q : SignaturePurpose} (h : p.asStr = q.asStr) : p = q := by
  revert h
  cases p <;> cases q <;> decide

/-- `CONFIRMATION_TTL`, in seconds. -/
def confirmationTtl : ℕ := 120

/-- `MAX_OUTSTANDING`. -/
def maxOutstanding : ℕ := 65536

/-- `ConfirmationError`. -/
inductive ConfirmationError
  | badMac
  | expired
  | notYetValid
  | replayed
  | payloadMismatch
  | tooManyOutstanding
  deriving DecidableEq

/-- What a `ConfirmationError` says. -/
def ConfirmationError.message : ConfirmationError → String
  | .badMac => "the confirmation signature does not verify"
  | .expired => "the confirmation expired"
  | .notYetValid => "the confirmation was issued in the future"
  | .replayed => "this confirmation has already been used"
  | .payloadMismatch => "the payload does not match the one the user was shown"
  | .tooManyOutstanding => "too many confirmations are outstanding; try again shortly"

/-- `Confirmation`: a human's answer to one specific question. -/
structure Confirmation where
  origin : String
  purpose : SignaturePurpose
  payloadHash : String
  descriptionHash : String
  nonce : String
  issuedAt : ℕ
  expiresAt : ℕ
  mac : String
  deriving DecidableEq

/-- What ends each part of a signing input: U+001F. -/
def separator : UInt8 := 0x1f

namespace Confirmation

/-- The texts the MAC covers, in order. -/
def parts (c : Confirmation) : List String :=
  ["syndeo-confirmation-v1", c.origin, c.purpose.asStr, c.payloadHash, c.descriptionHash, c.nonce,
    toString c.issuedAt, toString c.expiresAt]

theorem length_parts (c : Confirmation) : c.parts.length = 8 := rfl

/-- `Confirmation::signing_input`. -/
def signingInput (c : Confirmation) : Bytes :=
  Separated.terminated separator (c.parts.map utf8)

/-- The string fields the MAC covers hold no separator. -/
def Plain (c : Confirmation) : Prop :=
  ∀ text ∈ [c.origin, c.payloadHash, c.descriptionHash, c.nonce], '\x1f' ∉ text.toList

/-- A confirmation before it has its MAC. -/
def unsigned (c : Confirmation) : Confirmation := { c with mac := "" }

theorem signingInput_unsigned (c : Confirmation) : c.unsigned.signingInput = c.signingInput := rfl

theorem Plain.unsigned {c : Confirmation} (h : c.Plain) : c.unsigned.Plain := h

/-- The two say the same, whatever their MACs. -/
def SaysAs (c d : Confirmation) : Prop := c.unsigned = d.unsigned

instance (c d : Confirmation) : Decidable (c.SaysAs d) := inferInstanceAs (Decidable (_ = _))

end Confirmation

/-- `Confirmer`: the shared secret, and the nonces that were used, each with when
it expires. -/
structure Confirmer where
  secret : Bytes
  consumed : Table String ℕ
  capacity : ℕ

/-- `Confirmer::new`. -/
def Confirmer.new (secret : Bytes) : Confirmer := ⟨secret, ∅, maxOutstanding⟩

variable (P : Platform) (hmacSha256 : Bytes → Bytes → Bytes)

namespace Confirmer

/-- `Confirmer::mac`. -/
def mac (self : Confirmer) (input : Bytes) : Bytes := hmacSha256 self.secret input

/-- `Confirmer::issue`, at a reading of the clock and with a nonce. -/
def issue (self : Confirmer) (origin : String) (purpose : SignaturePurpose) (description : String)
    (payload : Bytes) (now : ℕ) (nonce : Bytes) : Confirmation :=
  let confirmation : Confirmation :=
    { origin := origin
      purpose := purpose
      payloadHash := (P.blake3 payload).toHex
      descriptionHash := (P.blake3 (utf8 description)).toHex
      nonce := hexEncode nonce
      issuedAt := now
      expiresAt := wrap (now + confirmationTtl)
      mac := "" }
  { confirmation with mac := hexEncode (self.mac hmacSha256 confirmation.signingInput) }

/-- The MAC a confirmation presents is the one of what it says. -/
def Authentic (self : Confirmer) (c : Confirmation) : Prop :=
  (hexDecode c.mac).getD [] = self.mac hmacSha256 c.signingInput

instance (self : Confirmer) (c : Confirmation) : Decidable (self.Authentic hmacSha256 c) :=
  inferInstanceAs (Decidable (_ = _))

/-- `Confirmer::verify`, up to the lock: what is wrong with the confirmation at
this reading of the clock, if anything is. -/
def check (self : Confirmer) (c : Confirmation) (payload : Bytes) (now : ℕ) :
    Option ConfirmationError :=
  if ¬self.Authentic hmacSha256 c then some .badMac
  else if c.expiresAt < now then some .expired
  else if wrap (now + 5) < c.issuedAt then some .notYetValid
  else if (P.blake3 payload).toHex ≠ c.payloadHash then some .payloadMismatch
  else none

/-- What is remembered of the used nonces at a reading of the clock. -/
def remembered (self : Confirmer) (now : ℕ) : Table String ℕ :=
  retain (fun _ expiresAt => decide (now ≤ expiresAt)) self.consumed

/-- `Confirmer::verify`, under the lock. -/
def consume (self : Confirmer) (c : Confirmation) (now : ℕ) :
    Except ConfirmationError Unit × Confirmer :=
  let consumed := self.remembered now
  if (consumed.lookup c.nonce).isSome then
    (.error .replayed, { self with consumed := consumed })
  else if self.capacity ≤ consumed.entries.length then
    (.error .tooManyOutstanding, { self with consumed := consumed })
  else (.ok (), { self with consumed := consumed.insert c.nonce c.expiresAt })

/-- `Confirmer::verify`, uninterrupted. -/
def verify (self : Confirmer) (c : Confirmation) (payload : Bytes) (now : ℕ) :
    Except ConfirmationError Unit × Confirmer :=
  match self.check P hmacSha256 c payload now with
  | some e => (.error e, self)
  | none => self.consume c now

end Confirmer

/-! ### What the MAC covers -/

namespace Confirmation

variable {c d : Confirmation}

theorem separator_notMem_utf8 {text : String} (h : '\x1f' ∉ text.toList) :
    separator ∉ utf8 text := fun hmem => by
  obtain ⟨ch, hch, hnat⟩ := Utf8.exists_mem_of_mem_encode hmem (by decide)
  obtain rfl : ch = '\x1f' := Char.toNat_inj.mp hnat
  exact h hch

theorem separator_notMem_toString (n : ℕ) : separator ∉ utf8 (toString n) := by
  refine separator_notMem_utf8 fun h => ?_
  rw [Nat.toString_eq_ofList_toDigits, String.toList_ofList] at h
  exact absurd (Nat.isDigit_of_mem_toDigits (by decide) (by decide) h) (by decide)

theorem Plain.separator_notMem (h : c.Plain) : ∀ p ∈ c.parts.map utf8, separator ∉ p := by
  rintro p hp
  obtain ⟨text, htext, rfl⟩ := List.mem_map.mp hp
  simp only [parts, List.mem_cons, List.not_mem_nil, or_false] at htext
  rcases htext with rfl | rfl | rfl | rfl | rfl | rfl | rfl | rfl
  · exact separator_notMem_utf8 (by decide)
  · exact separator_notMem_utf8 (h _ (by simp))
  · cases c.purpose <;> exact separator_notMem_utf8 (by decide)
  · exact separator_notMem_utf8 (h _ (by simp))
  · exact separator_notMem_utf8 (h _ (by simp))
  · exact separator_notMem_utf8 (h _ (by simp))
  · exact separator_notMem_toString _
  · exact separator_notMem_toString _

theorem saysAs_of_parts (h : c.parts = d.parts) : c.SaysAs d := by
  simp only [parts, List.cons.injEq, and_true, true_and] at h
  obtain ⟨horigin, hpurpose, hpayload, hdescription, hnonce, hissued, hexpires⟩ := h
  simp only [SaysAs, unsigned, Confirmation.mk.injEq, and_true]
  exact ⟨horigin, SignaturePurpose.asStr_inj hpurpose, hpayload, hdescription, hnonce,
    toString_nat_inj hissued, toString_nat_inj hexpires⟩

/-- **Where one side holds no separator, the signing input determines it all.**
There are as many parts on both sides, so the other side holds none either. -/
theorem saysAs_of_signingInput (hd : d.Plain) (h : c.signingInput = d.signingInput) :
    c.SaysAs d := by
  have hlength : (d.parts.map utf8).length = (c.parts.map utf8).length := by
    rw [List.length_map, List.length_map, length_parts, length_parts]
  have hparts : d.parts.map utf8 = c.parts.map utf8 :=
    Separated.terminated_inj_of_length hd.separator_notMem hlength h.symm
  exact saysAs_of_parts (List.map_injective_iff.mpr (fun _ _ => utf8_inj) hparts.symm)

/-- What says the same has the same fields. -/
theorem SaysAs.fields (h : c.SaysAs d) : c.origin = d.origin ∧ c.purpose = d.purpose ∧
    c.payloadHash = d.payloadHash ∧ c.descriptionHash = d.descriptionHash ∧ c.nonce = d.nonce ∧
      c.issuedAt = d.issuedAt ∧ c.expiresAt = d.expiresAt := by
  simpa only [SaysAs, unsigned, Confirmation.mk.injEq, and_true] using h

theorem SaysAs.nonce (h : c.SaysAs d) : c.nonce = d.nonce := h.fields.2.2.2.2.1

theorem SaysAs.payloadHash (h : c.SaysAs d) : c.payloadHash = d.payloadHash := h.fields.2.2.1

theorem SaysAs.expiresAt (h : c.SaysAs d) : c.expiresAt = d.expiresAt := h.fields.2.2.2.2.2.2

end Confirmation

/-! ### What a verification does -/

namespace Confirmer

variable {P hmacSha256} {self : Confirmer} {c : Confirmation} {payload : Bytes} {now : ℕ}

/-- A confirmation that passes the checks. -/
theorem check_eq_none_iff : self.check P hmacSha256 c payload now = none ↔
    self.Authentic hmacSha256 c ∧ now ≤ c.expiresAt ∧ c.issuedAt ≤ wrap (now + 5) ∧
      (P.blake3 payload).toHex = c.payloadHash := by
  simp only [check, ite_eq_iff, reduceCtorEq, and_false, false_or, and_true, not_not, not_lt,
    ne_eq]

/-- A confirmation that is accepted: its nonce was not remembered, and is now. -/
theorem consume_ok {k : Confirmer} (h : self.consume c now = (.ok (), k)) :
    (self.remembered now).lookup c.nonce = none ∧
      k = { self with consumed := (self.remembered now).insert c.nonce c.expiresAt } := by
  rw [consume] at h
  split_ifs at h with h₁ h₂
  · simp at h
  · simp at h
  · obtain ⟨-, rfl⟩ := Prod.mk.inj h
    exact ⟨by simpa using h₁, rfl⟩

/-- One that is refused: what has expired is forgotten, and nothing else changes. -/
theorem consume_error {k : Confirmer} {e : ConfirmationError}
    (h : self.consume c now = (.error e, k)) :
    k = { self with consumed := self.remembered now } := by
  rw [consume] at h
  split_ifs at h with h₁ h₂
  · exact (Prod.mk.inj h).2.symm
  · exact (Prod.mk.inj h).2.symm
  · simp at h

theorem issue_mac {origin description : String} {purpose : SignaturePurpose} {nonce : Bytes} :
    (self.issue P hmacSha256 origin purpose description payload now nonce).mac =
      hexEncode (self.mac hmacSha256
        (self.issue P hmacSha256 origin purpose description payload now nonce).signingInput) := rfl

/-- What was issued is authentic. -/
theorem authentic_issue {origin description : String} {purpose : SignaturePurpose} {nonce : Bytes} :
    self.Authentic hmacSha256
      (self.issue P hmacSha256 origin purpose description payload now nonce) := by
  rw [Authentic, issue_mac, hexDecode_hexEncode]
  rfl

/-- **What was issued passes the checks**, over its payload, until it expires. -/
theorem check_issue {origin description : String} {purpose : SignaturePurpose} {nonce : Bytes}
    {later : ℕ} (hbound : now + confirmationTtl + 5 < u64Bound) (hlater : now ≤ later)
    (hexpires : later ≤ now + confirmationTtl) :
    self.check P hmacSha256 (self.issue P hmacSha256 origin purpose description payload now nonce)
      payload later = none := by
  refine check_eq_none_iff.mpr ⟨authentic_issue, ?_, ?_, rfl⟩
  · change later ≤ wrap (now + confirmationTtl)
    rwa [wrap_of_lt (by omega)]
  · change now ≤ wrap (later + 5)
    rw [wrap_of_lt (by omega)]
    omega

/-- Forgetting changes nothing of what will be remembered later. -/
theorem remembered_remembered {later : ℕ} (h : now ≤ later) :
    { self with consumed := self.remembered now }.remembered later = self.remembered later := by
  have hlater : ∀ (_ : String) (expiresAt : ℕ), decide (later ≤ expiresAt) = true →
      decide (now ≤ expiresAt) = true := fun _ expiresAt hle =>
    decide_eq_true (h.trans (of_decide_eq_true hle))
  exact retain_retain hlater

theorem lookup_remembered {nonce : String} {expiresAt : ℕ} :
    (self.remembered now).lookup nonce = some expiresAt ↔
      self.consumed.lookup nonce = some expiresAt ∧ now ≤ expiresAt := by
  rw [remembered, lookup_retain, Option.filter_eq_some_iff, decide_eq_true_eq]

end Confirmer

/-! ### A secret to compute with -/

/-- HMAC-SHA256 under the key of 32 zeros, of the signing inputs of the two
confirmations below, which the last digit of the expiry tells apart. -/
def sampleHmac (_ input : Bytes) : Bytes :=
  if input.getD 222 0 = 0x30 then
    beBytes 32 0x91c5e026e481f6b41f6bb94d5bb1c994e8cffa04390a8d080ffb738e3993c73e
  else beBytes 32 0x5117d869f8be1d8bc8177c83f2c0f2d8daae1face1f046960d67133ec6eec99e

/-- A confirmer of the shared secret of 32 zeros. -/
def sampleConfirmer : Confirmer := Confirmer.new (List.replicate 32 0)

/-- The first thing that is confirmed. -/
def firstConfirmation : Confirmation :=
  sampleConfirmer.issue Platform.sample sampleHmac "https://a.test" .originLogin "b" [97] 1000
    (beBytes 16 1)

end Syndeo
