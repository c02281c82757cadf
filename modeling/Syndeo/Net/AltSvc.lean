import Mathlib.Data.List.DropRight
import Syndeo.Cache.Headers
import Syndeo.Data.Table

/-!
# HTTP/3 where an origin has said so

A request goes over QUIC where an earlier answer has advertised it,
`Syndeo.AltSvc.observe`, and an attempt that fails is meant to keep the next ones
from being made, `Syndeo.AltSvc.failed`, for as long as
`Syndeo.AltSvc.failureCooldown`. Both write the one row there is for an origin,
and each replaces what the other wrote.

The request whose attempt failed goes on over TCP, and what the origin advertises
there is read as before. So the row of the failure is as short-lived as the answer
is quick: exactly an advertisement since the failure, with nothing said after it,
lets the next request try again (`Syndeo.AltSvc.cooldown_kept_iff`).

Instants and durations are in nanoseconds.
-/

namespace Syndeo

namespace AltSvc

open Text

/-! ### What an answer advertises -/

/-- `Duration::from_secs`. -/
def fromSecs (secs : ℕ) : ℕ := secs * 10 ^ 9

/-- `DEFAULT_ALT_SVC_LIFETIME`. -/
def defaultLifetime : ℕ := fromSecs (24 * 60 * 60)

/-- `MAX_ALT_SVC_LIFETIME`. -/
def maxLifetime : ℕ := fromSecs (30 * 24 * 60 * 60)

/-- `FAILURE_COOLDOWN`. -/
def failureCooldown : ℕ := fromSecs (10 * 60)

/-- `trim_matches('"')`. -/
def trimQuotes (cs : List Char) : List Char := (cs.dropWhile (· = '"')).rdropWhile (· = '"')

/-- One parameter of an alternative. -/
def parameter (lifetime : ℕ) (p : List Char) : ℕ :=
  match splitOnce '=' (trimChars p) with
  | some (name, seconds) =>
    if trimChars name = "ma".toList then
      match parseU64 (trimQuotes (trimChars seconds)) with
      | some secs => min (fromSecs secs) maxLifetime
      | none => lifetime
    else lifetime
  | none => lifetime

/-- One alternative: its lifetime, if it is `h3`. -/
def h3Lifetime (alternative : List Char) : Option ℕ :=
  match alternative.splitOn ';' with
  | [] => none
  | endpoint :: parts =>
    match splitOnce '=' (trimChars endpoint) with
    | some (protocol, _) =>
      if trimChars protocol = "h3".toList then some (parts.foldl parameter defaultLifetime) else none
    | none => none

/-- `parse_h3_advertisement`. -/
def parseH3Advertisement (value : String) : Option ℕ :=
  (value.toList.splitOn ',').findSome? h3Lifetime

/-! ### What is known -/

/-- `Advertisement`. -/
inductive Advertisement
  | available («until» : ℕ)
  | failed («until» : ℕ)
  deriving DecidableEq, Repr

/-- `AltSvc::known`. -/
abbrev Known := Tables.Table String Advertisement

section

-- the last instant there is, which is the platform's
variable (limit : ℕ)

/-- `Instant::checked_add`. -/
def checkedAdd (now duration : ℕ) : Option ℕ :=
  if now + duration ≤ limit then some (now + duration) else none

/-- What the fields of an answer do to a row: nothing, take it away, or write it. -/
inductive Word
  | nothing
  | clear
  | advertises («until» : ℕ)
  deriving DecidableEq, Repr

/-- The word of an answer that came at this instant. -/
def wordOf (headers : HeaderMap) (now : ℕ) : Word :=
  match headers.getStr header.altSvc with
  | none => .nothing
  | some value =>
    if eqIgnoreAsciiCase (trim value) "clear" then .clear
    else
      match (parseH3Advertisement value).bind (checkedAdd limit now) with
      | none => .nothing
      | some «until» => .advertises «until»

/-- `AltSvc::observe`. -/
def observe (known : Known) (authority : String) (headers : HeaderMap) (now : ℕ) : Known :=
  match wordOf limit headers now with
  | .nothing => known
  | .clear => known.erase authority
  | .advertises «until» => known.insert authority (.available «until»)

/-- `AltSvc::should_try`. -/
def shouldTry (known : Known) (authority : String) (now : ℕ) : Bool × Known :=
  match known.lookup authority with
  | some (.available «until») =>
    if now < «until» then (true, known) else (false, known.erase authority)
  | some (.failed «until») =>
    if now < «until» then (false, known) else (false, known.erase authority)
  | none => (false, known)

/-- `AltSvc::failed`. -/
def failed (known : Known) (authority : String) (now : ℕ) : Known :=
  known.insert authority (.failed ((checkedAdd limit now failureCooldown).getD now))

/-! ### Calls -/

/-- A call, and when it is made. -/
inductive Call
  | observe (authority : String) (headers : HeaderMap) (now : ℕ)
  | shouldTry (authority : String) (now : ℕ)
  | failed (authority : String) (now : ℕ)

namespace Call

def now : Call → ℕ
  | observe _ _ now => now
  | shouldTry _ now => now
  | failed _ now => now

/-- What a call leaves behind. -/
def after (known : Known) : Call → Known
  | observe authority headers now => AltSvc.observe limit known authority headers now
  | shouldTry authority now => (AltSvc.shouldTry known authority now).2
  | failed authority now => AltSvc.failed limit known authority now

/-- A call that writes an origin's row, or takes it away. -/
def Settles (a : String) : Call → Prop
  | observe authority headers now => authority = a ∧ wordOf limit headers now ≠ .nothing
  | shouldTry _ _ => False
  | failed authority _ => authority = a

/-- A call after which the origin's advertisement is good at this instant. -/
def Renews (a : String) (s : ℕ) : Call → Prop
  | observe authority headers now =>
    authority = a ∧ ∃ «until», wordOf limit headers now = .advertises «until» ∧ s < «until»
  | shouldTry _ _ => False
  | failed _ _ => False

end Call

/-- What is known after some calls. -/
def run (known : Known) (calls : List Call) : Known := calls.foldl (Call.after limit) known

/-- **The origin has advertised since**, for long enough, and nothing was said of it
afterwards. -/
def Readvertised (a : String) (s : ℕ) (calls : List Call) : Prop :=
  ∃ earlier c later, calls = earlier ++ c :: later ∧ c.Renews limit a s ∧
    ∀ d ∈ later, ¬d.Settles limit a

/-- **A failure is remembered**: until its cooldown is over, nothing is tried. -/
def KeepsCooldown (known : Known) (calls : List Call) : Prop :=
  ∀ before a t between s after,
    calls = before ++ .failed a t :: (between ++ .shouldTry a s :: after) →
      s < t + failureCooldown →
        (shouldTry (run limit known (before ++ .failed a t :: between)) a s).1 = false

end

/-! ### What a call does to a row -/

section Rows

variable {limit : ℕ} {known : Known} {a : String} {s : ℕ} {c : Call} {calls : List Call}

/-- An advertisement that is good at this instant. -/
def Good (a : String) (s : ℕ) (known : Known) : Prop :=
  ∃ «until», known.lookup a = some (.available «until») ∧ s < «until»

theorem shouldTry_iff : (shouldTry known a s).1 = true ↔ Good a s known := by
  rw [shouldTry, Good]
  split
  · rename_i «until» hrow
    rw [hrow]
    split
    · exact iff_of_true rfl ⟨_, rfl, ‹_›⟩
    · rename_i hlate
      refine iff_of_false Bool.false_ne_true ?_
      rintro ⟨_, ⟨⟩, hgood⟩
      exact hlate hgood
  · rename_i «until» hrow
    rw [hrow]
    split
    · exact iff_of_false Bool.false_ne_true fun ⟨_, h, _⟩ => nomatch h
    · exact iff_of_false Bool.false_ne_true fun ⟨_, h, _⟩ => nomatch h
  · rename_i hrow
    rw [hrow]
    exact iff_of_false Bool.false_ne_true fun ⟨_, h, _⟩ => nomatch h

/-- What is asked takes away only what is good no longer. -/
theorem good_shouldTry {b : String} {now : ℕ} (hnow : now ≤ s) :
    Good a s (shouldTry known b now).2 ↔ Good a s known := by
  have herase : ∀ «until» : ℕ, ∀ v, known.lookup b = some v →
      (v = .available «until» ∨ v = .failed «until») → ¬now < «until» →
        (Good a s (known.erase b) ↔ Good a s known) := by
    intro «until» v hrow hv hlate
    by_cases hab : a = b
    · subst hab
      rw [Good, Good, AList.lookup_erase, hrow]
      refine iff_of_false (fun ⟨_, h, _⟩ => nomatch h) ?_
      rintro ⟨_, h, hgood⟩
      obtain rfl := Option.some.inj h
      rcases hv with hv | hv
      · obtain rfl := Advertisement.available.inj hv
        omega
      · exact nomatch hv
    · rw [Good, Good, AList.lookup_erase_ne hab]
  rw [shouldTry]
  split
  · rename_i «until» hrow
    split
    · rfl
    · exact herase «until» _ hrow (Or.inl rfl) ‹_›
  · rename_i «until» hrow
    split
    · rfl
    · exact herase «until» _ hrow (Or.inr rfl) ‹_›
  · rfl

/-- **One call**: an advertisement is good if the call renews it, or if it was and the
call says nothing of the origin. -/
theorem good_after (hnow : c.now ≤ s) : Good a s (c.after limit known) ↔
    c.Renews limit a s ∨ Good a s known ∧ ¬c.Settles limit a := by
  cases c with
  | observe authority headers now =>
    rw [Call.after, observe, Call.Renews, Call.Settles]
    split
    · rename_i hword
      simp [hword]
    · rename_i hword
      by_cases ha : authority = a
      · subst ha
        simp [hword, Good, AList.lookup_erase]
      · simp [hword, Good, AList.lookup_erase_ne (Ne.symm ha), ha]
    · rename_i «until» hword
      by_cases ha : authority = a
      · subst ha
        simp [hword, Good, AList.lookup_insert]
      · simp [hword, Good, AList.lookup_insert_ne (Ne.symm ha), ha]
  | shouldTry authority now =>
    have hwhen : now ≤ s := hnow
    rw [Call.after, good_shouldTry hwhen]
    simp [Call.Renews, Call.Settles]
  | failed authority now =>
    rw [Call.after, failed, Call.Renews, Call.Settles]
    by_cases ha : authority = a
    · subst ha
      simp [Good, AList.lookup_insert]
    · simp [Good, AList.lookup_insert_ne (Ne.symm ha), ha]

theorem readvertised_concat : Readvertised limit a s (calls ++ [c]) ↔
    c.Renews limit a s ∨ Readvertised limit a s calls ∧ ¬c.Settles limit a := by
  constructor
  · rintro ⟨earlier, d, later, heq, hrenews, hlater⟩
    rcases List.eq_nil_or_concat' later with rfl | ⟨later, e, rfl⟩
    · obtain ⟨-, hlast⟩ := List.append_inj' heq rfl
      obtain rfl := (List.cons.inj hlast).1
      exact Or.inl hrenews
    · have hsplit : calls ++ [c] = (earlier ++ d :: later) ++ [e] := by
        rw [heq]
        simp
      obtain ⟨rfl, hlast⟩ := List.append_inj' hsplit rfl
      obtain rfl := (List.cons.inj hlast).1
      exact Or.inr ⟨⟨earlier, d, later, rfl, hrenews,
        fun f hf => hlater f (List.mem_append_left _ hf)⟩,
        hlater c (List.mem_append_right _ (List.mem_singleton_self c))⟩
  · rintro (hrenews | ⟨⟨earlier, d, later, rfl, hrenews, hlater⟩, hquiet⟩)
    · exact ⟨calls, c, [], rfl, hrenews, fun _ h => nomatch h⟩
    · refine ⟨earlier, d, later ++ [c], by simp, hrenews, ?_⟩
      intro e he
      rcases List.mem_append.mp he with he | he
      · exact hlater e he
      · obtain rfl := List.mem_singleton.mp he
        exact hquiet

/-- **Many calls**, from where no advertisement is good. -/
theorem good_run (hbad : ¬Good a s known) (hnow : ∀ c ∈ calls, c.now ≤ s) :
    Good a s (run limit known calls) ↔ Readvertised limit a s calls := by
  induction calls using List.reverseRecOn with
  | nil => exact iff_of_false hbad fun ⟨earlier, c, later, h, _⟩ => by simp at h
  | append_singleton calls c ih =>
    rw [run, List.foldl_append, List.foldl_cons, List.foldl_nil,
      good_after (hnow c (List.mem_append_right _ (List.mem_singleton_self c))),
      readvertised_concat]
    exact or_congr_right (and_congr_left' (ih fun d hd => hnow d (List.mem_append_left _ hd)))

/-- After a failure none is. -/
theorem not_good_failed {t : ℕ} : ¬Good a s (failed limit known a t) := by
  rintro ⟨«until», hrow, -⟩
  rw [failed, AList.lookup_insert] at hrow
  exact nomatch hrow

end Rows

/-! ### The cooldown -/

/-- **When a failure is remembered**: where nothing that was said since advertises the
origin again. -/
theorem cooldown_kept_iff (limit : ℕ) (known : Known) (calls : List Call)
    (hclock : calls.Pairwise fun c d => c.now ≤ d.now) :
    KeepsCooldown limit known calls ↔ ∀ before a t between s after,
      calls = before ++ .failed a t :: (between ++ .shouldTry a s :: after) →
        s < t + failureCooldown → ¬Readvertised limit a s between := by
  have hasked : ∀ before a t between s after,
      calls = before ++ .failed a t :: (between ++ .shouldTry a s :: after) →
        ((shouldTry (run limit known (before ++ .failed a t :: between)) a s).1 = false ↔
          ¬Readvertised limit a s between) := by
    rintro before a t between s after rfl
    have hbetween : ∀ c ∈ between, c.now ≤ s := by
      intro c hc
      have htail := (List.pairwise_append.mp hclock).2.1
      exact (List.pairwise_append.mp (List.pairwise_cons.mp htail).2).2.2 c hc _ List.mem_cons_self
    have hrun : run limit known (before ++ .failed a t :: between) =
        run limit (failed limit (run limit known before) a t) between := by
      rw [run, List.foldl_append]
      rfl
    rw [hrun, ← Bool.not_eq_true, shouldTry_iff, good_run not_good_failed hbetween]
  constructor
  · intro h before a t between s after heq hs
    exact (hasked before a t between s after heq).mp (h before a t between s after heq hs)
  · intro h before a t between s after heq hs
    exact (hasked before a t between s after heq).mpr (h before a t between s after heq hs)

/-- An answer that advertises HTTP/3 for a day. -/
def sampleAnswer : HeaderMap := toHeaderMap [("alt-svc", "h3=\":443\"; ma=86400")]

/-- Two requests: the first finds nothing and learns, the second tries, fails and goes
on over TCP. Then a third asks. -/
def sampleCalls (second : HeaderMap) : List Call :=
  [.shouldTry "a.test" 0, .observe "a.test" sampleAnswer 1, .shouldTry "a.test" 2,
    .failed "a.test" 3, .observe "a.test" second 4, .shouldTry "a.test" 5]

theorem cooldown_kept_iff_sample : KeepsCooldown (10 ^ 20) ∅ (sampleCalls ∅) ↔
    ∀ before a t between s after,
      sampleCalls ∅ = before ++ .failed a t :: (between ++ .shouldTry a s :: after) →
        s < t + failureCooldown → ¬Readvertised (10 ^ 20) a s between :=
  cooldown_kept_iff (10 ^ 20) ∅ (sampleCalls ∅) (by decide)

/-- **The answer that replaces the attempt brings it back.** -/
theorem cooldown_forgotten : ¬∀ (limit : ℕ) (known : Known) (calls : List Call),
    (calls.Pairwise fun c d => c.now ≤ d.now) → KeepsCooldown limit known calls := by
  intro hall
  have hkept := hall (10 ^ 20) ∅ (sampleCalls sampleAnswer) (by decide)
    [.shouldTry "a.test" 0, .observe "a.test" sampleAnswer 1, .shouldTry "a.test" 2] "a.test" 3
    [.observe "a.test" sampleAnswer 4] 5 [] rfl (by decide)
  exact absurd hkept (by decide +kernel)

end AltSvc

end Syndeo
