import Mathlib.Data.Set.Function
import Syndeo.Concurrent.Events
import Syndeo.Ipc.Confirm

/-!
# Confirmations over a session

One `Syndeo.Confirmer` from its start on: confirmations are issued, and calls of
`verify` come from any number of tasks at once. A call is two steps, because the
clock is read before the lock is waited for; in between, any other call can take
its reading, or the lock.

What the session is over is `Syndeo.Confirming.Allowed`: the clock does not run
backwards, nonces are not drawn twice, and a MAC that verifies was made by the
confirmer. The origins confirmations are issued for hold no control character,
which is what the shell checks of an origin before it has one.

If the calls take the lock in the order in which they read the clock, a
confirmation is accepted once, and for what it was issued for
(`Syndeo.confirmed_once_of_runs`). The order is needed: a call that overtakes
another one can make the confirmer forget a nonce which the other, with its
earlier reading, still takes for valid (`Syndeo.confirmed_twice`).
-/

namespace Syndeo

open Text Tables Events

/-- What a confirmation was issued over, and when. -/
structure Issued where
  origin : String
  purpose : SignaturePurpose
  payload : Bytes
  now : ℕ
  confirmation : Confirmation

/-- The confirmation says what it was issued over. -/
structure Issued.Faithful (P : Platform) (i : Issued) : Prop where
  plain : i.confirmation.Plain
  origin : i.confirmation.origin = i.origin
  purpose : i.confirmation.purpose = i.purpose
  payloadHash : i.confirmation.payloadHash = (P.blake3 i.payload).toHex
  expiresAt : i.confirmation.expiresAt ≤ i.now + confirmationTtl

/-- One call of `verify`, with the reading of the clock it took. -/
structure Call where
  confirmation : Confirmation
  payload : Bytes
  now : ℕ

/-- The state of a session: the confirmer, the last reading of the clock, what
was issued, the calls that wait for the lock, the calls that returned `Ok`, and
the latest reading with which the lock was held. -/
structure Confirming where
  confirmer : Confirmer
  clock : ℕ
  issued : List Issued
  underway : List Call
  accepted : List Call
  turn : ℕ

namespace Confirming

/-- A session that begins. -/
def start (confirmer : Confirmer) (clock : ℕ) : Confirming :=
  ⟨{ confirmer with consumed := ∅ }, clock, [], [], [], 0⟩

/-- What can happen: `issue` is called; `verify` is called, and gets as far as
the lock; a call that waits for the lock takes it and returns. -/
inductive Event
  | issue (origin : String) (purpose : SignaturePurpose) (description : String) (payload : Bytes)
      (now : ℕ) (nonce : Bytes)
  | verify (call : Call)
  | lock (i : ℕ)

section

variable (P : Platform) (hmacSha256 : Bytes → Bytes → Bytes)

/-- What comes of it. -/
def after (s : Confirming) : Event → Option Confirming
  | .issue origin purpose description payload now nonce =>
    some { s with
      clock := now
      issued := ⟨origin, purpose, payload, now,
        s.confirmer.issue P hmacSha256 origin purpose description payload now nonce⟩ :: s.issued }
  | .verify call =>
    match s.confirmer.check P hmacSha256 call.confirmation call.payload call.now with
    | some _ => some { s with clock := call.now }
    | none => some { s with clock := call.now, underway := s.underway ++ [call] }
  | .lock i =>
    match s.underway[i]? with
    | none => none
    | some call =>
      let result := s.confirmer.consume call.confirmation call.now
      some { s with
        confirmer := result.2
        underway := s.underway.eraseIdx i
        accepted := if result.1.isOk then call :: s.accepted else s.accepted
        turn := max s.turn call.now }

/-- **What a session is over**, of payloads in `B`. -/
def Allowed (B : Set Bytes) (s : Confirming) : Event → Prop
  | .issue origin _ _ payload now nonce =>
    s.clock ≤ now ∧ (∀ i ∈ s.issued, i.confirmation.nonce ≠ hexEncode nonce) ∧
      '\x1f' ∉ origin.toList ∧ payload ∈ B
  | .verify call =>
    s.clock ≤ call.now ∧ call.payload ∈ B ∧
      (s.confirmer.Authentic hmacSha256 call.confirmation →
        ∃ i ∈ s.issued, i.confirmation.signingInput = call.confirmation.signingInput)
  | .lock _ => True

/-- A call takes the lock after those that read the clock before it. -/
def InTurn (s : Confirming) : Event → Prop
  | .lock i => ∀ call ∈ s.underway[i]?, s.turn ≤ call.now
  | _ => True

/-- The events of a session. -/
abbrev Step (B : Set Bytes) : Confirming → Event → Confirming → Prop :=
  stepOf (Allowed hmacSha256 B) (after P hmacSha256)

/-- The events of a session in which the lock is taken in order. -/
abbrev StepInTurn (B : Set Bytes) : Confirming → Event → Confirming → Prop :=
  stepOf (fun s e => s.Allowed hmacSha256 B e ∧ s.InTurn e) (after P hmacSha256)

end

/-! ### What is kept up -/

variable {P : Platform} {hmacSha256 : Bytes → Bytes → Bytes} {B : Set Bytes}
  {s s' : Confirming} {e : Event}

/-- A call that rests on something that was issued. -/
def Grounded (s : Confirming) (call : Call) : Prop :=
  ∃ i ∈ s.issued, call.confirmation.SaysAs i.confirmation ∧ call.payload = i.payload ∧
    i.now ≤ call.now ∧ call.now ≤ call.confirmation.expiresAt

/-- **The invariant**: nonces name what was issued, calls that are past the
checks rest on something issued, and an accepted nonce is remembered for as long
as a call that is yet to take the lock could present it. -/
structure Sound (P : Platform) (B : Set Bytes) (s : Confirming) : Prop where
  issued : ∀ i ∈ s.issued, i.Faithful P ∧ i.now ≤ s.clock ∧ i.payload ∈ B
  nonces : s.issued.Pairwise fun i j => i.confirmation.nonce ≠ j.confirmation.nonce
  underway : ∀ call ∈ s.underway, s.Grounded call
  accepted : ∀ call ∈ s.accepted, s.Grounded call
  remembered : ∀ call ∈ s.accepted, s.turn ≤ call.confirmation.expiresAt →
    s.confirmer.consumed.lookup call.confirmation.nonce = some call.confirmation.expiresAt
  once : s.accepted.Pairwise fun a b => a.confirmation.nonce ≠ b.confirmation.nonce

/-- What is issued says what it was issued over. -/
theorem issue_faithful {k : Confirmer} {origin : String} {purpose : SignaturePurpose}
    {description : String} {payload : Bytes} {now : ℕ} {nonce : Bytes}
    (horigin : '\x1f' ∉ origin.toList) :
    Issued.Faithful P ⟨origin, purpose, payload, now,
      k.issue P hmacSha256 origin purpose description payload now nonce⟩ where
  plain := by
    have hcontrol : ∀ {text : String}, (∀ c ∈ text.toList, 48 ≤ c.toNat) → '\x1f' ∉ text.toList :=
      fun h hmem => absurd (h _ hmem) (by decide)
    simp only [Confirmation.Plain, Confirmer.issue, List.mem_cons, List.not_mem_nil, or_false]
    rintro text (rfl | rfl | rfl | rfl)
    · exact horigin
    · exact hcontrol fun c hc => ContentId.le_toNat_of_mem_toHex hc
    · exact hcontrol fun c hc => ContentId.le_toNat_of_mem_toHex hc
    · exact hcontrol fun c hc => le_toNat_of_mem_hexEncode hc
  origin := rfl
  purpose := rfl
  payloadHash := rfl
  expiresAt := wrap_le _

theorem Grounded.mono {t : Confirming} {call : Call} (h : s.Grounded call)
    (ht : ∀ i ∈ s.issued, i ∈ t.issued) : t.Grounded call := by
  obtain ⟨i, hi, h⟩ := h
  exact ⟨i, ht i hi, h⟩

theorem sound_start (k : Confirmer) (clock : ℕ) : Sound P B (start k clock) where
  issued := by simp [start]
  nonces := List.Pairwise.nil
  underway := by simp [start]
  accepted := by simp [start]
  remembered := by simp [start]
  once := List.Pairwise.nil

/-- A nonce names one thing that was issued. -/
theorem Sound.issued_eq (h : Sound P B s) {i j : Issued} (hi : i ∈ s.issued) (hj : j ∈ s.issued)
    (hnonce : i.confirmation.nonce = j.confirmation.nonce) : i = j := by
  by_contra hne
  have hsymm : Std.Symm fun i j : Issued => i.confirmation.nonce ≠ j.confirmation.nonce :=
    ⟨fun _ _ => Ne.symm⟩
  exact h.nonces.forall hi hj hne hnonce

/-- Calls with one nonce say the same. -/
theorem Sound.saysAs (h : Sound P B s) {a b : Call} (ha : s.Grounded a) (hb : s.Grounded b)
    (hnonce : a.confirmation.nonce = b.confirmation.nonce) :
    a.confirmation.SaysAs b.confirmation := by
  obtain ⟨i, hi, hai, -⟩ := ha
  obtain ⟨j, hj, hbj, -⟩ := hb
  have hij : i = j := h.issued_eq hi hj (by rw [← hai.nonce, ← hbj.nonce, hnonce])
  rw [Confirmation.SaysAs, hai, hij, ← hbj]

theorem Sound.issue {k : Confirmer} {origin : String} {purpose : SignaturePurpose}
    {description : String} {payload : Bytes} {now : ℕ} {nonce : Bytes} (h : Sound P B s)
    (hok : s.Allowed hmacSha256 B (.issue origin purpose description payload now nonce)) :
    Sound P B { s with
      clock := now
      issued := ⟨origin, purpose, payload, now,
        k.issue P hmacSha256 origin purpose description payload now nonce⟩ :: s.issued } := by
  obtain ⟨hclock, hnonce, horigin, hpayload⟩ := hok
  refine ⟨fun i hi => ?_, ?_, fun call hcall => ?_, fun call hcall => ?_, h.remembered, h.once⟩
  · rcases List.mem_cons.mp hi with rfl | hi
    · exact ⟨issue_faithful horigin, le_refl _, hpayload⟩
    · obtain ⟨hfaithful, hnow, hmem⟩ := h.issued i hi
      exact ⟨hfaithful, hnow.trans hclock, hmem⟩
  · exact List.pairwise_cons.mpr ⟨fun i hi => (hnonce i hi).symm, h.nonces⟩
  · exact (h.underway call hcall).mono fun i hi => List.mem_cons_of_mem _ hi
  · exact (h.accepted call hcall).mono fun i hi => List.mem_cons_of_mem _ hi

/-- A call that passes the checks rests on something issued. -/
theorem Sound.grounded (hB : Set.InjOn P.blake3 B) {call : Call} (h : Sound P B s)
    (hok : s.Allowed hmacSha256 B (.verify call))
    (hcheck : s.confirmer.check P hmacSha256 call.confirmation call.payload call.now = none) :
    s.Grounded call := by
  obtain ⟨hclock, hpayload, hforged⟩ := hok
  obtain ⟨hauthentic, hexpires, -, hhash⟩ := Confirmer.check_eq_none_iff.mp hcheck
  obtain ⟨i, hi, hinput⟩ := hforged hauthentic
  obtain ⟨hfaithful, hnow, hmem⟩ := h.issued i hi
  have hsame := Confirmation.saysAs_of_signingInput hfaithful.plain hinput.symm
  refine ⟨i, hi, hsame, ?_, hnow.trans hclock, hexpires⟩
  refine hB hpayload hmem (ContentId.toHex_inj ?_)
  rw [hhash, hsame.payloadHash, hfaithful.payloadHash]

theorem Sound.verify (hB : Set.InjOn P.blake3 B) {call : Call} (h : Sound P B s)
    (hok : s.Allowed hmacSha256 B (.verify call)) (hafter : s.after P hmacSha256 (.verify call) = some s') :
    Sound P B s' := by
  have hissued : ∀ i ∈ s.issued, i.Faithful P ∧ i.now ≤ call.now ∧ i.payload ∈ B := fun i hi =>
    ⟨(h.issued i hi).1, (h.issued i hi).2.1.trans hok.1, (h.issued i hi).2.2⟩
  rw [after] at hafter
  split at hafter
  · obtain rfl := Option.some.inj hafter
    exact ⟨hissued, h.nonces, h.underway, h.accepted, h.remembered, h.once⟩
  · rename_i hcheck
    obtain rfl := Option.some.inj hafter
    refine ⟨hissued, h.nonces, fun u hu => ?_, h.accepted, h.remembered, h.once⟩
    rcases List.mem_append.mp hu with hu | hu
    · exact h.underway u hu
    · obtain rfl := List.mem_singleton.mp hu
      exact h.grounded hB hok hcheck

/-- **The lock, taken in turn.** A nonce that was accepted is still remembered, if
the confirmation it belongs to is still valid. -/
theorem Sound.lock {i : ℕ} (h : Sound P B s) (hturn : s.InTurn (.lock i))
    (hafter : s.after P hmacSha256 (.lock i) = some s') : Sound P B s' := by
  rw [after] at hafter
  split at hafter
  · exact absurd hafter (by simp)
  · rename_i call hi
    have hle : s.turn ≤ call.now := hturn call hi
    have hcall : s.Grounded call := h.underway call (List.mem_of_getElem? hi)
    have hvalid : call.now ≤ call.confirmation.expiresAt := by
      obtain ⟨-, -, -, -, -, hvalid⟩ := hcall
      exact hvalid
    have hunderway : ∀ u ∈ s.underway.eraseIdx i, s.Grounded u := fun u hu =>
      h.underway u (List.mem_of_mem_eraseIdx hu)
    have hmax : max s.turn call.now = call.now := max_eq_right hle
    -- what was accepted is remembered from the new reading on
    have hkept : ∀ a ∈ s.accepted, call.now ≤ a.confirmation.expiresAt →
        (s.confirmer.remembered call.now).lookup a.confirmation.nonce =
          some a.confirmation.expiresAt := fun a ha hnow =>
      Confirmer.lookup_remembered.mpr ⟨h.remembered a ha (hle.trans hnow), hnow⟩
    rcases hresult : s.confirmer.consume call.confirmation call.now with ⟨r, k⟩
    rw [hresult, hmax] at hafter
    obtain rfl := Option.some.inj hafter
    rcases r with err | accepted
    · obtain rfl := Confirmer.consume_error hresult
      exact ⟨h.issued, h.nonces, hunderway, h.accepted, hkept, h.once⟩
    · obtain ⟨hnone, rfl⟩ := Confirmer.consume_ok hresult
      -- so no call with this nonce was accepted before
      have hnew : ∀ a ∈ s.accepted, call.confirmation.nonce ≠ a.confirmation.nonce := by
        intro a ha hnonce
        have hsame := h.saysAs hcall (h.accepted a ha) hnonce
        have := hkept a ha (hsame.expiresAt ▸ hvalid)
        rw [← hnonce, hnone] at this
        exact absurd this (by simp)
      refine ⟨h.issued, h.nonces, hunderway, fun a ha => ?_, fun a ha hnow => ?_,
        List.pairwise_cons.mpr ⟨hnew, h.once⟩⟩
      · rcases List.mem_cons.mp ha with rfl | ha
        · exact hcall
        · exact h.accepted a ha
      · rcases List.mem_cons.mp ha with rfl | ha
        · exact AList.lookup_insert _
        · exact (AList.lookup_insert_ne (hnew a ha).symm).trans (hkept a ha hnow)

/-- **Every event in turn keeps the invariant.** -/
theorem Sound.step (hB : Set.InjOn P.blake3 B) (h : Sound P B s)
    (hstep : StepInTurn P hmacSha256 B s e s') : Sound P B s' := by
  obtain ⟨⟨hok, hturn⟩, hafter⟩ := hstep
  cases e with
  | issue origin purpose description payload now nonce =>
    obtain rfl := Option.some.inj hafter
    exact h.issue hok
  | verify call => exact h.verify hB hok hafter
  | lock i => exact h.lock hturn hafter

theorem Sound.runs (hB : Set.InjOn P.blake3 B) {k : Confirmer} {clock : ℕ} {events : List Event}
    (h : Runs (StepInTurn P hmacSha256 B) (start k clock) events s) : Sound P B s :=
  h.invariant (fun _ _ _ hs hstep => hs.step hB hstep) (sound_start k clock)

end Confirming

/-! ### What a refused call leaves -/

/-- What calls of `verify` return, one after another. -/
def Confirmer.answers (P : Platform) (hmacSha256 : Bytes → Bytes → Bytes) :
    Confirmer → List Call → List (Except ConfirmationError Unit)
  | _, [] => []
  | self, call :: rest =>
    let result := self.verify P hmacSha256 call.confirmation call.payload call.now
    result.1 :: answers P hmacSha256 result.2 rest

/-- **Confirmers that remember alike from a reading on answer alike.** -/
theorem Confirmer.answers_congr {P : Platform} {hmacSha256 : Bytes → Bytes → Bytes}
    {k k' : Confirmer} {now : ℕ} {calls : List Call} (hcalls : ∀ call ∈ calls, now ≤ call.now)
    (hsecret : k'.secret = k.secret) (hcapacity : k'.capacity = k.capacity)
    (hremembered : ∀ later, now ≤ later → k'.remembered later = k.remembered later) :
    k'.answers P hmacSha256 calls = k.answers P hmacSha256 calls := by
  induction calls with
  | nil => rfl
  | cons call rest ih =>
    have hrest := ih fun c hc => hcalls c (List.mem_cons_of_mem _ hc)
    have hcheck : k'.check P hmacSha256 call.confirmation call.payload call.now =
        k.check P hmacSha256 call.confirmation call.payload call.now := by
      simp only [check, Authentic, mac, hsecret]
      rfl
    have hconsume : k'.consume call.confirmation call.now =
        k.consume call.confirmation call.now := by
      simp only [consume, hremembered _ (hcalls call List.mem_cons_self), hsecret, hcapacity]
    simp only [answers, verify, hcheck, hconsume]
    cases k.check P hmacSha256 call.confirmation call.payload call.now with
    | none => rfl
    | some err => exact congrArg _ hrest

namespace Confirming

variable {P : Platform} {hmacSha256 : Bytes → Bytes → Bytes} {B : Set Bytes}
  {s s' : Confirming} {e : Event}

/-- A call that is not accepted changes nothing but what is forgotten. -/
theorem answers_of_refused (hafter : s.after P hmacSha256 e = some s')
    (hrefused : s'.accepted = s.accepted) {calls : List Call}
    (hcalls : ∀ call ∈ calls, s'.turn ≤ call.now) :
    s'.confirmer.answers P hmacSha256 calls = s.confirmer.answers P hmacSha256 calls := by
  cases e with
  | issue origin purpose description payload now nonce =>
    obtain rfl := Option.some.inj hafter
    rfl
  | verify call =>
    rw [after] at hafter
    split at hafter <;> obtain rfl := Option.some.inj hafter <;> rfl
  | lock i =>
    rw [after] at hafter
    split at hafter
    · exact absurd hafter (by simp)
    · rename_i call hi
      rcases hresult : s.confirmer.consume call.confirmation call.now with ⟨r, k⟩
      rw [hresult] at hafter
      obtain rfl := Option.some.inj hafter
      rcases r with err | accepted
      · obtain rfl := Confirmer.consume_error hresult
        exact Confirmer.answers_congr hcalls rfl rfl fun later hlater =>
          Confirmer.remembered_remembered ((le_max_right _ _).trans hlater)
      · exact absurd (congrArg List.length hrefused) (by simp [Except.isOk, Except.toBool])

end Confirming

open Confirming Confirmation

variable {P : Platform} {hmacSha256 : Bytes → Bytes → Bytes}

/-- Of elements no two of which can be of a kind, at most one is. -/
theorem countP_le_one {α : Type} {R : α → α → Prop} {p : α → Bool} {l : List α}
    (hl : l.Pairwise R) (h : ∀ a b, p a = true → p b = true → ¬R a b) : l.countP p ≤ 1 := by
  induction l with
  | nil => exact Nat.zero_le 1
  | cons a l ih =>
    obtain ⟨ha, hl⟩ := List.pairwise_cons.mp hl
    by_cases hp : p a = true
    · have hnone : l.countP p = 0 := List.countP_eq_zero.mpr fun b hb hpb => h a b hp hpb (ha b hb)
      rw [List.countP_cons_of_pos hp, hnone]
    · rw [List.countP_cons_of_neg hp]
      exact ih hl

/-- **A confirmation is accepted once, and for what it was issued for.** In every
session in which the calls take the lock in the order of their readings of the
clock: what was issued makes `verify` return `Ok` at most once; only over its own
origin, purpose and payload, and between its issue and its expiry; a call that
returns an error changes no answer that is still to be given; and a signing
input without the separator in its strings determines everything but the MAC. -/
theorem confirmed_once_of_runs {B : Set Bytes} (hB : Set.InjOn P.blake3 B) {k : Confirmer}
    {clock : ℕ} {events : List Confirming.Event} {s : Confirming}
    (h : Runs (StepInTurn P hmacSha256 B) (start k clock) events s) :
    (∀ i ∈ s.issued, s.accepted.countP (fun a => a.confirmation.SaysAs i.confirmation) ≤ 1) ∧
    (∀ a ∈ s.accepted, ∃ i ∈ s.issued, a.confirmation.SaysAs i.confirmation ∧
      a.confirmation.origin = i.origin ∧ a.confirmation.purpose = i.purpose ∧
      a.payload = i.payload ∧ i.now ≤ a.now ∧ a.now ≤ a.confirmation.expiresAt ∧
      a.confirmation.expiresAt ≤ i.now + confirmationTtl) ∧
    (∀ e s', StepInTurn P hmacSha256 B s e s' → s'.accepted = s.accepted →
      ∀ calls : List Call, (∀ call ∈ calls, s'.turn ≤ call.now) →
        s'.confirmer.answers P hmacSha256 calls = s.confirmer.answers P hmacSha256 calls) ∧
    ∀ c d : Confirmation, c.Plain → d.Plain → c.signingInput = d.signingInput → c.SaysAs d := by
  have hsound := Sound.runs hB h
  refine ⟨fun i hi => ?_, fun a ha => ?_, fun e s' hstep hrefused calls hcalls =>
    answers_of_refused hstep.2 hrefused hcalls, fun c d _ hd => Confirmation.saysAs_of_signingInput hd⟩
  · -- two that say the same would share a nonce
    refine countP_le_one hsound.once fun a b ha hb hne => hne ?_
    rw [(of_decide_eq_true ha).nonce, (of_decide_eq_true hb).nonce]
  · obtain ⟨i, hi, hsame, hpayload, hissued, hexpires⟩ := hsound.accepted a ha
    obtain ⟨hfaithful, -, -⟩ := hsound.issued i hi
    exact ⟨i, hi, hsame, hsame.fields.1.trans hfaithful.origin,
      hsame.fields.2.1.trans hfaithful.purpose, hpayload, hissued, hexpires,
      (le_of_eq hsame.expiresAt).trans hfaithful.expiresAt⟩

/-! ### Two sessions -/

instance (B : Set Bytes) [DecidablePred (· ∈ B)] (s : Confirming) (e : Confirming.Event) :
    Decidable (s.Allowed hmacSha256 B e) := by
  cases e <;> simp only [Allowed] <;> infer_instance

instance (s : Confirming) (e : Confirming.Event) : Decidable (s.InTurn e) := by
  cases e <;> simp only [Confirming.InTurn] <;> infer_instance

/-- The second thing that is confirmed. -/
def secondConfirmation : Confirmation :=
  sampleConfirmer.issue Platform.sample sampleHmac "https://a.test" .originLogin "a" [98] 1001
    (beBytes 16 2)

/-- Both are issued, and the first is presented twice at once, in its last second. -/
def confirmedEvents : List Confirming.Event :=
  [.issue "https://a.test" .originLogin "b" [97] 1000 (beBytes 16 1),
    .issue "https://a.test" .originLogin "a" [98] 1001 (beBytes 16 2),
    .verify ⟨firstConfirmation, [97], 1120⟩, .verify ⟨firstConfirmation, [97], 1120⟩]

/-- The payloads that are signed. -/
def confirmedPayloads : Set Bytes := {b | b ∈ [[97], [98]]}

instance : DecidablePred (· ∈ confirmedPayloads) := fun b =>
  inferInstanceAs (Decidable (b ∈ [[97], [98]]))

theorem injOn_confirmedPayloads : Set.InjOn Platform.sample.blake3 confirmedPayloads := by
  rintro a ha b hb
  have hpair : ∀ a ∈ [[97], [98]], ∀ b ∈ [[97], [98]],
      Platform.sample.blake3 a = Platform.sample.blake3 b → a = b := by decide
  exact hpair a ha b hb

/-- The session once both are issued, with the calls that wait for the lock. -/
def confirmedSession (clock : ℕ) (underway : List Call) : Confirming :=
  { start sampleConfirmer clock with
    issued := [⟨"https://a.test", .originLogin, [98], 1001, secondConfirmation⟩,
      ⟨"https://a.test", .originLogin, [97], 1000, firstConfirmation⟩]
    underway := underway }

/-- A call over what was issued gets as far as the lock. -/
theorem step_confirmedSession {clock now : ℕ} {underway : List Call} {call : Call}
    (hclock : clock ≤ now) (hpayload : call.payload ∈ confirmedPayloads) (hnow : call.now = now)
    (hissued : ∃ i ∈ (confirmedSession clock underway).issued,
      i.confirmation = call.confirmation)
    (hcheck : sampleConfirmer.check Platform.sample sampleHmac call.confirmation call.payload
      call.now = none) :
    StepInTurn Platform.sample sampleHmac confirmedPayloads (confirmedSession clock underway)
      (.verify call) (confirmedSession now (underway ++ [call])) := by
  subst hnow
  obtain ⟨i, hi, hsame⟩ := hissued
  refine ⟨⟨⟨hclock, hpayload, fun _ => ⟨i, hi, by rw [hsame]⟩⟩, trivial⟩, ?_⟩
  have hcheck' : (confirmedSession clock underway).confirmer.check Platform.sample sampleHmac
      call.confirmation call.payload call.now = none := hcheck
  rw [after, hcheck']
  rfl

/-- A MAC is not the empty text. -/
theorem hexEncode_sampleHmac_ne {secret input : Bytes} :
    hexEncode (sampleHmac secret input) ≠ "" := by
  rw [sampleHmac]
  split
  · decide +kernel
  · decide +kernel

/-- The first call passes the checks up to its last second. -/
theorem check_first_until_expiry : sampleConfirmer.check Platform.sample sampleHmac
    firstConfirmation [97] 1120 = none :=
  Confirmer.check_issue (by decide) (by decide) (by decide)

theorem runs_confirmedEvents :
    Runs (StepInTurn Platform.sample sampleHmac confirmedPayloads) (start sampleConfirmer 1000)
      confirmedEvents (confirmedSession 1120 [⟨firstConfirmation, [97], 1120⟩,
        ⟨firstConfirmation, [97], 1120⟩]) := by
  have hnonces : hexEncode (beBytes 16 1) ≠ hexEncode (beBytes 16 2) := by decide +kernel
  have horigin : '\x1f' ∉ "https://a.test".toList := by decide
  have hcall : ∃ i ∈ (confirmedSession 1001 []).issued, i.confirmation = firstConfirmation :=
    ⟨_, List.mem_cons_of_mem _ List.mem_cons_self, rfl⟩
  refine .cons ⟨⟨⟨by decide, by simp [start], horigin, by decide⟩, trivial⟩, rfl⟩ ?_
  refine .cons (u := confirmedSession 1001 [])
    ⟨⟨⟨by decide, ?_, horigin, by decide⟩, trivial⟩, rfl⟩ ?_
  · rintro i hi
    obtain rfl := List.mem_singleton.mp hi
    exact hnonces
  · exact .cons (step_confirmedSession (by decide) (by decide) rfl hcall check_first_until_expiry)
      (.cons (step_confirmedSession (by decide) (by decide) rfl hcall check_first_until_expiry)
        (.nil _))

/-- Taking the lock one after the other, the first call is answered `Ok`, and the
second is not. -/
theorem confirmed_once_of_runs_first : ∃ s,
    Runs (StepInTurn Platform.sample sampleHmac confirmedPayloads) (start sampleConfirmer 1000)
      (confirmedEvents ++ [.lock 0, .lock 0]) s ∧
    s.accepted.length = 1 ∧ s.issued.length = 2 ∧
    ∀ i ∈ s.issued, s.accepted.countP (fun a => a.confirmation.SaysAs i.confirmation) ≤ 1 := by
  -- no MAC is looked at under the lock
  obtain ⟨s, hlocks, hends⟩ : ∃ s,
      Runs (StepInTurn Platform.sample sampleHmac confirmedPayloads) (confirmedSession 1120
        [⟨firstConfirmation, [97], 1120⟩, ⟨firstConfirmation, [97], 1120⟩]) [.lock 0, .lock 0] s ∧
      (s.accepted.length == 1 && s.issued.length == 2) = true :=
    exists_runs_of_follow (by decide +kernel)
  have hruns := runs_confirmedEvents.append hlocks
  obtain ⟨haccepted, hissued⟩ := Bool.and_eq_true_iff.mp hends
  exact ⟨s, hruns, of_decide_eq_true haccepted, of_decide_eq_true hissued,
    (confirmed_once_of_runs injOn_confirmedPayloads hruns).1⟩

/-- **Accepted twice**: between the two calls, the second confirmation's call
takes its reading a second later, and the lock before them both is done. What is
more, the MAC is no part of what it covers. -/
theorem confirmed_twice :
    (∃ events s, Runs (Step Platform.sample sampleHmac confirmedPayloads)
      (start sampleConfirmer 1000) events s ∧
      ∃ i ∈ s.issued, s.accepted.countP (fun a => a.confirmation.SaysAs i.confirmation) = 2) ∧
    ∃ c d : Confirmation, c.Plain ∧ d.Plain ∧ c.signingInput = d.signingInput ∧ c ≠ d := by
  constructor
  · have hcheck : sampleConfirmer.check Platform.sample sampleHmac secondConfirmation [98] 1121 =
        none := Confirmer.check_issue (by decide) (by decide) (by decide)
    have hovertakes : StepInTurn Platform.sample sampleHmac confirmedPayloads
        (confirmedSession 1120
          [⟨firstConfirmation, [97], 1120⟩, ⟨firstConfirmation, [97], 1120⟩])
        (.verify ⟨secondConfirmation, [98], 1121⟩)
        (confirmedSession 1121 [⟨firstConfirmation, [97], 1120⟩, ⟨firstConfirmation, [97], 1120⟩,
          ⟨secondConfirmation, [98], 1121⟩]) :=
      step_confirmedSession (by decide) (by decide) rfl ⟨_, List.mem_cons_self, rfl⟩ hcheck
    have hinTurn := (runs_confirmedEvents.append (.cons hovertakes (.nil _))).mono
      fun _ _ _ h => (⟨h.1.1, h.2⟩ : Step Platform.sample sampleHmac confirmedPayloads _ _ _)
    obtain ⟨s, hlocks, hends⟩ : ∃ s, Runs (Step Platform.sample sampleHmac confirmedPayloads)
        (confirmedSession 1121 [⟨firstConfirmation, [97], 1120⟩, ⟨firstConfirmation, [97], 1120⟩,
          ⟨secondConfirmation, [98], 1121⟩]) [.lock 0, .lock 1, .lock 0] s ∧
        (s.issued.any fun i =>
          s.accepted.countP (fun a => a.confirmation.SaysAs i.confirmation) == 2) = true :=
      exists_runs_of_follow (by decide +kernel)
    obtain ⟨i, hi, hcount⟩ := List.any_eq_true.mp hends
    exact ⟨_, s, hinTurn.append hlocks, i, hi, of_decide_eq_true hcount⟩
  · have hfaithful : Issued.Faithful Platform.sample
        ⟨"https://a.test", .originLogin, [97], 1000, firstConfirmation⟩ :=
      issue_faithful (by decide)
    have hplain : firstConfirmation.Plain := hfaithful.plain
    refine ⟨firstConfirmation, firstConfirmation.unsigned, hplain, hplain.unsigned,
      (signingInput_unsigned _).symm, fun heq => ?_⟩
    have hmac : firstConfirmation.mac = "" := congrArg Confirmation.mac heq
    rw [firstConfirmation, Confirmer.issue_mac, Confirmer.mac] at hmac
    exact hexEncode_sampleHmac_ne hmac

end Syndeo
