import Syndeo.Platform

/-!
# Subresource integrity

What a page says the bytes of a resource must hash to. Of the declared hashes
only those at the strongest algorithm decide, and any one of them is enough:
`Syndeo.Integrity.Satisfied` says so in its own terms, and `verify` decides it.
-/

namespace Syndeo

namespace Algorithm

/-- The place of an algorithm in the order of strength. -/
def strength : Algorithm → ℕ
  | sha256 => 0
  | sha384 => 1
  | sha512 => 2

/-- `Algorithm::name`. -/
def name : Algorithm → String
  | sha256 => "sha256"
  | sha384 => "sha384"
  | sha512 => "sha512"

/-- `Ord::max`. -/
def stronger (a b : Algorithm) : Algorithm := if a.strength ≤ b.strength then b else a

theorem strength_injective : Function.Injective strength := by
  intro a b h
  cases a <;> cases b <;> first | rfl | exact absurd h (by decide)

theorem strength_stronger (a b : Algorithm) :
    (a.stronger b).strength = max a.strength b.strength := by
  cases a <;> cases b <;> rfl

end Algorithm

/-- `sri::Hash`: one `alg-digest` token. -/
structure Hash where
  algorithm : Algorithm
  digest : Bytes
  deriving DecidableEq

/-- `sri::Integrity`: the declared hashes, in the order of the declaration. -/
structure Integrity where
  hashes : List Hash
  deriving DecidableEq

variable (P : Platform)

/-- `Hash::to_token`. -/
def Hash.toToken (h : Hash) : String := h.algorithm.name ++ "-" ++ P.base64 h.digest

/-- `Hash::compute`. -/
def Hash.compute (algorithm : Algorithm) (bytes : Bytes) : Hash :=
  ⟨algorithm, P.digest algorithm bytes⟩

/-- `constant_time_eq`: the exclusive or of the bytes, accumulated. -/
def constantTimeEq (a b : Bytes) : Bool :=
  a.length == b.length && (a.zip b).foldl (fun diff xy => diff ||| (xy.1 ^^^ xy.2)) 0 == 0

/-- `Hash::matches`. -/
def Hash.matches (h : Hash) (bytes : Bytes) : Bool :=
  constantTimeEq (P.digest h.algorithm bytes) h.digest

namespace Integrity

/-- `Integrity::is_empty`. -/
def isEmpty (i : Integrity) : Bool := i.hashes.isEmpty

/-- `Integrity::strongest`: the strongest algorithm named. -/
def strongest (i : Integrity) : Option Algorithm :=
  match i.hashes.map Hash.algorithm with
  | [] => none
  | a :: as => some (as.foldl Algorithm.stronger a)

/-- The declared hashes at the strongest level. -/
def atStrongest (i : Integrity) : List Hash :=
  i.hashes.filter fun h => i.strongest = some h.algorithm

/-- `Integrity::strongest_hash`: the hash to ask a peer for. -/
def strongestHash (i : Integrity) : Option Hash := i.atStrongest.head?

/-- `Integrity::verify`. -/
def verify (i : Integrity) (bytes : Bytes) : Bool :=
  match i.strongest with
  | none => true
  | some _ => i.atStrongest.any fun h => h.matches P bytes

/-- The text of a failed `Integrity::check`: what was expected, and what the bytes
hash to. -/
def mismatch (i : Integrity) (bytes : Bytes) : String × String :=
  let strongest := i.strongest.getD .sha256
  (String.intercalate " " ((i.hashes.filter fun h => h.algorithm = strongest).map (Hash.toToken P)),
    (Hash.compute P strongest bytes).toToken P)

/-! ### What a declaration asks for -/

/-- **The bytes satisfy the declaration**: some declared hash of an algorithm than
which none stronger is declared is the digest of the bytes. -/
def Satisfied (i : Integrity) (bytes : Bytes) : Prop :=
  ∃ h ∈ i.hashes, (∀ h' ∈ i.hashes, h'.algorithm.strength ≤ h.algorithm.strength) ∧
    P.digest h.algorithm bytes = h.digest

end Integrity

/-! ### The source's checks decide it -/

private theorem foldl_xor_eq_zero : ∀ (l : List (UInt8 × UInt8)) (d : UInt8),
    l.foldl (fun diff xy => diff ||| (xy.1 ^^^ xy.2)) d = 0 ↔ d = 0 ∧ ∀ xy ∈ l, xy.1 = xy.2
  | [], d => by simp
  | xy :: l, d => by
    rw [List.foldl_cons, foldl_xor_eq_zero l, UInt8.or_eq_zero_iff, UInt8.xor_eq_zero_iff]
    simp only [List.mem_cons, forall_eq_or_imp, and_assoc]

/-- The comparison in constant time is equality. -/
theorem constantTimeEq_iff {a b : Bytes} : constantTimeEq a b = true ↔ a = b := by
  rw [constantTimeEq, Bool.and_eq_true, beq_iff_eq, beq_iff_eq, foldl_xor_eq_zero]
  constructor
  · rintro ⟨hlen, -, h⟩
    refine List.ext_getElem hlen fun n h1 h2 => ?_
    have hmem : (a[n], b[n]) ∈ a.zip b :=
      List.mem_iff_getElem.mpr ⟨n, by rw [List.length_zip]; omega, List.getElem_zip⟩
    exact h _ hmem
  · rintro rfl
    refine ⟨rfl, rfl, fun xy hxy => ?_⟩
    obtain ⟨n, hn, rfl⟩ := List.mem_iff_getElem.mp hxy
    simp [List.getElem_zip]

theorem Hash.matches_iff {h : Hash} {bytes : Bytes} :
    h.matches P bytes = true ↔ P.digest h.algorithm bytes = h.digest := constantTimeEq_iff

namespace Integrity

private theorem strength_foldl (as : List Algorithm) (a : Algorithm) :
    a.strength ≤ (as.foldl Algorithm.stronger a).strength ∧
      (∀ b ∈ as, b.strength ≤ (as.foldl Algorithm.stronger a).strength) ∧
      as.foldl Algorithm.stronger a ∈ a :: as := by
  induction as generalizing a with
  | nil => simp
  | cons b as ih =>
    obtain ⟨h1, h2, h3⟩ := ih (a.stronger b)
    rw [Algorithm.strength_stronger] at h1
    refine ⟨by rw [List.foldl_cons]; omega, ?_, ?_⟩
    · rintro c hc
      rw [List.foldl_cons]
      rcases List.mem_cons.mp hc with rfl | hc
      · omega
      · exact h2 c hc
    · rw [List.foldl_cons]
      rcases List.mem_cons.mp h3 with h | h
      · rw [h, Algorithm.stronger]
        split <;> simp
      · exact List.mem_cons_of_mem _ (List.mem_cons_of_mem _ h)

/-- The strongest algorithm is the one of a declared hash that no declared hash
exceeds. -/
theorem strongest_eq_some_iff {i : Integrity} {a : Algorithm} :
    i.strongest = some a ↔
      (∃ h ∈ i.hashes, h.algorithm = a) ∧ ∀ h ∈ i.hashes, h.algorithm.strength ≤ a.strength := by
  rw [strongest]
  rcases hs : i.hashes with _ | ⟨h0, hs'⟩
  · simp
  · obtain ⟨h1, h2, h3⟩ := strength_foldl (hs'.map Hash.algorithm) h0.algorithm
    simp only [List.map_cons, Option.some.injEq]
    constructor
    · rintro rfl
      refine ⟨?_, ?_⟩
      · rw [← List.map_cons (f := Hash.algorithm), List.mem_map] at h3
        exact h3
      · rintro h hh
        rcases List.mem_cons.mp hh with rfl | hh
        · exact h1
        · exact h2 _ (List.mem_map_of_mem hh)
    · rintro ⟨⟨h, hh, rfl⟩, hmax⟩
      refine Algorithm.strength_injective (le_antisymm ?_ ?_)
      · rw [← List.map_cons (f := Hash.algorithm), List.mem_map] at h3
        obtain ⟨g, hg, hg'⟩ := h3
        rw [← hg']
        exact hmax g hg
      · rcases List.mem_cons.mp hh with rfl | hh
        · exact h1
        · exact h2 _ (List.mem_map_of_mem hh)

/-- **`verify` decides the declaration**, when there is one. -/
theorem verify_iff {i : Integrity} (hne : i.isEmpty = false) (bytes : Bytes) :
    i.verify P bytes = true ↔ i.Satisfied P bytes := by
  obtain ⟨a, ha⟩ : ∃ a, i.strongest = some a := by
    rw [strongest]
    rcases hs : i.hashes with _ | ⟨h, hs'⟩
    · simp [isEmpty, hs] at hne
    · exact ⟨_, rfl⟩
  have hmax := (strongest_eq_some_iff.mp ha).2
  rw [verify, ha]
  simp only [List.any_eq_true, atStrongest, List.mem_filter, ha, decide_eq_true_eq,
    Option.some.injEq, Hash.matches_iff]
  constructor
  · rintro ⟨h, ⟨hmem, rfl⟩, hd⟩
    exact ⟨h, hmem, hmax, hd⟩
  · rintro ⟨h, hmem, hle, hd⟩
    refine ⟨h, ⟨hmem, Algorithm.strength_injective (le_antisymm ?_ (hmax h hmem))⟩, hd⟩
    obtain ⟨g, hg, rfl⟩ := (strongest_eq_some_iff.mp ha).1
    exact hle g hg

end Integrity

end Syndeo
