import Syndeo.Cache.Sri

/-!
# What one peer can ask another

A body, named by a hash. Whether bytes answer a request is decided by hashing
them, and by nothing that a peer says (`Syndeo.BlobRequest.isSatisfiedBy_iff`).
-/

namespace Syndeo

/-- `MAX_BODY`. -/
def maxBody : ℕ := 32 * 1024 * 1024

/-- `BlobRequest`. -/
inductive BlobRequest
  | content (id : ContentId)
  | integrity (algorithm : UInt8) (digest : Bytes)
  deriving DecidableEq

/-- `BlobResponse`. -/
inductive BlobResponse
  | «have» (body : Bytes)
  | missing
  | throttled
  deriving DecidableEq

/-- `algorithm_tag`. -/
def algorithmTag : Algorithm → UInt8
  | .sha256 => 1
  | .sha384 => 2
  | .sha512 => 3

/-- `algorithm_from_tag`. -/
def algorithmFromTag (tag : UInt8) : Option Algorithm :=
  if tag = 1 then some .sha256
  else if tag = 2 then some .sha384
  else if tag = 3 then some .sha512
  else none

theorem algorithmFromTag_algorithmTag (algorithm : Algorithm) :
    algorithmFromTag (algorithmTag algorithm) = some algorithm := by
  cases algorithm <;> rfl

/-- `record_key`. -/
def recordKey : BlobRequest → Bytes
  | .content id => 0 :: beBytes 32 id.toNat
  | .integrity algorithm digest => algorithm :: digest

namespace BlobRequest

/-- `constant_time_eq`, which leaves the lengths to its caller. -/
def constantTimeEq (a b : Bytes) : Bool :=
  (a.zip b).foldl (fun diff xy => diff ||| (xy.1 ^^^ xy.2)) 0 == 0

variable (P : Platform)

/-- `BlobRequest::is_satisfied_by`. -/
def isSatisfiedBy (self : BlobRequest) (body : Bytes) : Bool :=
  match self with
  | .content expected => P.blake3 body == expected
  | .integrity algorithm digest =>
    match algorithmFromTag algorithm with
    | none => false
    | some algorithm =>
      (P.digest algorithm body).length == digest.length &&
        constantTimeEq (P.digest algorithm body) digest

/-- The bytes hash to what the request names. -/
def Names (self : BlobRequest) (body : Bytes) : Prop :=
  match self with
  | .content expected => P.blake3 body = expected
  | .integrity tag digest => ∃ algorithm, algorithmFromTag tag = some algorithm ∧
      P.digest algorithm body = digest

end BlobRequest

/-- **Bytes answer a request when they hash to what it names.** -/
theorem BlobRequest.isSatisfiedBy_iff {P : Platform} {self : BlobRequest} {body : Bytes} :
    self.isSatisfiedBy P body = true ↔ self.Names P body := by
  cases self with
  | content expected => exact beq_iff_eq
  | integrity tag digest =>
    rw [isSatisfiedBy, Names]
    rcases algorithmFromTag tag with _ | algorithm
    · simp
    · -- with the lengths, it is the comparison that the cache makes
      have hcompare : (P.digest algorithm body).length == digest.length &&
          constantTimeEq (P.digest algorithm body) digest ↔ P.digest algorithm body = digest :=
        Syndeo.constantTimeEq_iff
      simpa using hcompare

end Syndeo
