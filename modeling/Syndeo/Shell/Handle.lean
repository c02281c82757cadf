import Syndeo.Shell.Call
import Syndeo.Shell.Prompt

/-!
# What the agent can have shown

`Shell::handle` answers the agent, and the strings of three of its requests reach
the person: those of a signing request and of a request for an identity by way of
the checks of the prompt, those of a plain question directly.

A request is a program over the shell's own steps, so that what it can have shown
is read off its tree, whatever the person and the keystore answer. The checks are
enough where they are made (`Syndeo.Shell.asks_shown_sign`,
`Syndeo.Shell.asks_shown_identityFor`); `Syndeo.Shell.handle_shows_iff` is that a
plain question is where they are not.
-/

namespace Syndeo

open Text Concurrent
open Prog (asks_run_bind)

/-- `ShellRequest`. -/
inductive ShellRequest
  | requestSignature (origin : String) (purpose : SignaturePurpose) (description : String)
      (payload : Bytes)
  | identityFor (origin : String)
  | confirm (title detail : String)
  | ping

/-- `ShellResponse`. -/
inductive ShellResponse
  | signed (signature publicKey address : String)
  | identity (publicKey address : String)
  | confirmed (yes : Bool)
  | declined (reason : String)
  | pong
  | error (message : String)
  deriving DecidableEq

/-- `Decision`. -/
inductive Decision
  | yes
  | no
  deriving DecidableEq

namespace Shell

/-- One step of the shell while it answers the agent: of a call to the keystore, of the
prompter, or the minting of a confirmation. -/
inductive HandleAct (L : Libraries) : Type → Type
  | call (request : KeystoreRequest) : HandleAct L (Except String KeystoreResponse)
  | readPassphrase (label : String) : HandleAct L (Except String String)
  | isInteractive : HandleAct L Bool
  | ask (title detail : String) : HandleAct L Decision
  | askToSign (request : SignatureRequest L) : HandleAct L Decision
  | issue (origin : String) (purpose : SignaturePurpose) (description : String) (payload : Bytes) :
    HandleAct L Confirmation

/-- A step of a call to the keystore. -/
def HandleAct.ofShell {L : Libraries} : ∀ {β : Type}, ShellAct β → HandleAct L β
  | _, .call request => .call request
  | _, .readPassphrase label => .readPassphrase label

/-- An answer to the agent, on its way. -/
abbrev HandleM (L : Libraries) := Prog (HandleAct L)

variable (L : Libraries)

/-- `Prompter::is_interactive`. -/
def isInteractive : HandleM L Bool := .call .isInteractive

/-- `Prompter::ask`. -/
def ask (title detail : String) : HandleM L Decision := .call (.ask title detail)

/-- A call to the keystore, made while there is someone to ask or not. -/
def callKeystore (request : KeystoreRequest) : HandleM L (Except String KeystoreResponse) := do
  let interactive ← isInteractive L
  (keystoreCall interactive request).run.lift HandleAct.ofShell

/-- `ValidatedOrigin::parse`. -/
def ValidatedOrigin.parse (raw : String) : Except Refusal (ValidatedOrigin L) :=
  match h : canonicalOrigin L raw with
  | .ok origin => .ok ⟨origin, canonical_of_eq h⟩
  | .error refusal => .error refusal

/-- What `sign_confirmed` makes of the keystore's answer. -/
def signResponse : Except String KeystoreResponse → ShellResponse
  | .ok (.signature signature publicKey address) => .signed signature publicKey address
  | .ok (.error e) => .error e
  | .ok _ => .error "unexpected keystore reply"
  | .error e => .error e

/-- What `identity_for` makes of it. -/
def identityResponse : Except String KeystoreResponse → ShellResponse
  | .ok (.identity publicKey address) => .identity publicKey address
  | .ok (.error e) => .error e
  | .ok _ => .error "unexpected keystore reply"
  | .error e => .error e

/-- `Shell::sign_confirmed`. -/
def signConfirmed (request : SignatureRequest L) : HandleM L ShellResponse := do
  let confirmation ← Prog.call (HandleAct.issue request.origin.text request.purpose
    request.description request.payload)
  let answer ← callKeystore L (.signConfirmed confirmation request.payload)
  pure (signResponse answer)

/-- `Shell::sign_request`. -/
def signRequest (request : SignatureRequest L) : HandleM L ShellResponse := do
  if ← isInteractive L then
    match ← Prog.call (HandleAct.askToSign request) with
    | .no => pure (.declined "the user declined")
    | .yes => signConfirmed L request
  else pure (.declined "a signature needs a human, and this run is not interactive")

/-- `Shell::sign`. -/
def sign (origin : String) (purpose : SignaturePurpose) (description : String) (payload : Bytes) :
    HandleM L ShellResponse :=
  match SignatureRequest.new L origin purpose description payload with
  | .ok request => signRequest L request
  | .error refusal => pure (.declined refusal.message)

/-- What the person is asked about an identity. -/
def identityTitle : String := "Reveal your identity for this site to the agent?"

/-- What they are told of it. -/
def identityDetail (origin : String) : String :=
  "The agent is asking for your public key and address at " ++ origin ++ ". Anything it is given " ++
    "can be matched against what it collects for other sites."

/-- `Shell::identity_for`. -/
def identityFor (origin : String) : HandleM L ShellResponse :=
  match ValidatedOrigin.parse L origin with
  | .error refusal => pure (.error ("refused: " ++ refusal.message))
  | .ok origin => do
    if ← isInteractive L then
      match ← ask L identityTitle (identityDetail origin.text) with
      | .yes => do
        let answer ← callKeystore L (.publicIdentity origin.text)
        pure (identityResponse answer)
      | .no => pure (.declined "the user declined")
    else pure (.declined "this run is not interactive")

/-- **`Shell::handle`.** -/
def handle : ShellRequest → HandleM L ShellResponse
  | .requestSignature origin purpose description payload => sign L origin purpose description payload
  | .identityFor origin => identityFor L origin
  | .confirm title detail => do
    if ← isInteractive L then
      match ← ask L title detail with
      | .yes => pure (.confirmed true)
      | .no => pure (.confirmed false)
    else pure (.declined "this run is not interactive")
  | .ping => pure .pong

/-! ### What is shown -/

/-- No character is one that the prompt's rule refuses. -/
def Shown (cs : List Char) : Prop := ∀ c ∈ cs, isUnshowable L c = false

/-- **What is documented of the Unicode tables**: the characters of ASCII that print are
neither controls nor format characters. -/
def AsciiShown : Prop :=
  ∀ c : Char, 32 ≤ c.toNat → c.toNat < 127 → L.generalCategory c = .other

variable {L}

/-- **What a step puts before the person** has no such character, save for the tabs of a
payload that is shown as text. -/
def HandleAct.Shows (P : Platform) : ∀ {β : Type}, HandleAct L β → Prop
  | _, .ask title detail => Shown L title.toList ∧ Shown L detail.toList
  | _, .readPassphrase label => Shown L label.toList
  | _, .askToSign request => ∀ line ∈ request.promptLines P, ∀ c ∈ line.toList,
    isUnshowable L c = true → c = '\t' ∧ line ∈ request.renderedPayload
  | _, _ => True

/-- A string of the request that is shown as it stands has such a character. -/
def Unshowable (L : Libraries) : ShellRequest → Prop
  | .requestSignature origin _ description _ =>
    ¬Shown L origin.toList ∨ ¬Shown L description.toList
  | .identityFor origin => ¬Shown L origin.toList
  | .confirm title detail => ¬Shown L title.toList ∨ ¬Shown L detail.toList
  | .ping => False

/-- The request is refused, and nobody is asked about it. -/
def Refused (answer : HandleM L ShellResponse) : Prop :=
  ∃ reason, answer = .pure (.declined reason) ∨ answer = .pure (.error reason)

variable {P : Platform} {raw origin : String} {cs ds : List Char}

theorem Shown.append (hcs : Shown L cs) (hds : Shown L ds) : Shown L (cs ++ ds) := fun c hc =>
  (List.mem_append.mp hc).elim (hcs c) (hds c)

theorem shown_append {s t : String} (hs : Shown L s.toList) (ht : Shown L t.toList) :
    Shown L (s ++ t).toList := by
  rw [String.toList_append]
  exact hs.append ht

theorem isUnshowable_of_ascii (hL : AsciiShown L) {c : Char} (hlow : 32 ≤ c.toNat)
    (hhigh : c.toNat < 127) : isUnshowable L c = false := by
  have hseparators : (c.toNat == 0x2028) = false ∧ (c.toNat == 0x2029) = false := by
    simp only [beq_eq_false_iff_ne]
    omega
  rw [isUnshowable, hL c hlow hhigh, hseparators.1, hseparators.2]
  rfl

theorem shown_of_ascii (hL : AsciiShown L)
    (h : cs.all (fun c => 32 ≤ c.toNat && c.toNat < 127) = true) : Shown L cs := by
  intro c hc
  have hc := List.all_eq_true.mp h c hc
  rw [Bool.and_eq_true, decide_eq_true_eq, decide_eq_true_eq] at hc
  exact isUnshowable_of_ascii hL hc.1 hc.2

/-- A text that is written out in ASCII. -/
theorem shown_ofList (hL : AsciiShown L)
    (h : cs.all (fun c => 32 ≤ c.toNat && c.toNat < 127) = true) :
    Shown L (String.ofList cs).toList := by
  rw [String.toList_ofList]
  exact shown_of_ascii hL h

/-- A letter is as showable in the other case. -/
theorem Shown.map_lowerChar (hL : AsciiShown L) (h : Shown L cs) : Shown L (cs.map lowerChar) := by
  intro c hc
  obtain ⟨d, hd, rfl⟩ := List.mem_map.mp hc
  by_cases hupper : 65 ≤ d.toNat ∧ d.toNat ≤ 90
  · have hlower := toNat_lowerChar d
    rw [if_pos hupper] at hlower
    exact isUnshowable_of_ascii hL (by omega) (by omega)
  · have hsame : lowerChar d = d := by
      rw [← Char.toNat_inj, toNat_lowerChar, if_neg hupper]
    rw [hsame]
    exact h d hd

theorem shown_toString_nat (hL : AsciiShown L) (n : ℕ) : Shown L (toString n).toList := by
  intro c hc
  have hdigit := isDigit_iff.mp ((toList_toString_nat n).2 c hc)
  exact isUnshowable_of_ascii hL (by omega) (by omega)

theorem shown_hexDigits (hL : AsciiShown L) (n k : ℕ) : Shown L (hexDigits n k) := fun _ hc =>
  isUnshowable_of_ascii hL (le_trans (by decide) (le_toNat_of_mem_hexDigits hc))
    (toNat_lt_of_mem_hexDigits hc)

/-! ### What the checks let through -/

theorem shown_of_find?_eq_none (h : cs.find? (isUnshowable L) = none) : Shown L cs := fun c hc =>
  Bool.eq_false_iff.mpr (List.find?_eq_none.mp h c hc)

theorem find?_of_not_shown (h : ¬Shown L cs) : ∃ c, cs.find? (isUnshowable L) = some c := by
  by_contra hnone
  refine h (shown_of_find?_eq_none (Option.eq_none_iff_forall_ne_some.mpr fun c hc => ?_))
  exact hnone ⟨c, hc⟩

theorem canonicalOrigin_of_not_shown (h : ¬Shown L raw.toList) :
    ∃ c, canonicalOrigin L raw = .error (.originCharacter c) := by
  obtain ⟨c, hc⟩ := find?_of_not_shown h
  exact ⟨c, by rw [canonicalOrigin, hc]⟩

theorem mem_of_mem_splitPort {authority : List Char} {c : Char} (h : c ∈ (splitPort authority).1) :
    c ∈ authority := by
  rw [splitPort] at h
  rcases hsplit : rsplitOnce ':' authority with _ | ⟨host, port⟩
  · rwa [hsplit] at h
  · rw [hsplit] at h
    dsimp only at h
    split_ifs at h
    · rw [eq_append_of_rsplitOnce hsplit]
      exact List.mem_append_left _ h
    · exact h

/-- **An origin that is accepted** is shown in characters it was written in. -/
theorem shown_canonicalOrigin (hdoc : Documented L) (hL : AsciiShown L)
    (h : canonicalOrigin L raw = .ok origin) : Shown L origin.toList := by
  have hraw : Shown L raw.toList := by
    by_contra hnot
    obtain ⟨c, hc⟩ := canonicalOrigin_of_not_shown hnot
    exact nomatch hc.symm.trans h
  obtain ⟨scheme, rest, default, url, host, port, hsplit, hdefault, hparse, hhost, -, -,
    htyped, -, horigin⟩ := canonicalOrigin_ok h
  obtain ⟨-, halpha, -⟩ := scheme_of_defaultPort hdefault
  have hparts := eq_append_of_splitOnceAt hsplit
  have hscheme : Shown L scheme := fun c hc => hraw c (by rw [hparts]; simp [hc])
  have hauthority : Shown L (splitPort (rest.takeWhile fun c => !endsAuthority c)).1 :=
    fun c hc => hraw c (by
      rw [hparts]
      exact List.mem_append_right _ ((List.takeWhile_sublist _).mem (mem_of_mem_splitPort hc)))
  have hshownHost : Shown L host.toList := by
    rw [← htyped]
    exact hauthority.map_lowerChar hL
  have hport : Shown L (((port.map fun p => (toString p).toList)).elim [] fun p => ':' :: p) := by
    rcases port with _ | p
    · simp [Shown]
    · have hcolon : Shown L [':'] := shown_of_ascii hL (by decide)
      exact hcolon.append (shown_toString_nat hL p)
  rw [horigin, hdoc.scheme hparse hsplit halpha]
  exact (((hscheme.map_lowerChar hL).append (shown_ofList hL (by decide +kernel))).append
    hshownHost).append hport

theorem mem_or_of_mem_intercalate {sep : List Char} {ls : List (List Char)} {c : Char}
    (h : c ∈ sep.intercalate ls) : c ∈ sep ∨ ∃ l ∈ ls, c ∈ l := by
  induction ls with
  | nil => exact absurd h List.not_mem_nil
  | cons l ls ih =>
    rcases ls with _ | ⟨m, ls⟩
    · rw [List.intercalate_singleton] at h
      exact Or.inr ⟨l, List.mem_cons_self, h⟩
    · rw [List.intercalate_cons_cons, List.append_assoc] at h
      rcases List.mem_append.mp h with hl | h
      · exact Or.inr ⟨l, List.mem_cons_self, hl⟩
      · rcases List.mem_append.mp h with hsep | h
        · exact Or.inl hsep
        · exact (ih h).imp id fun ⟨l, hl, hc⟩ => ⟨l, List.mem_cons_of_mem _ hl, hc⟩

/-- **A payload** is shown in showable characters, and tabs where it is text. -/
theorem shown_renderedPayload (hL : AsciiShown L) (r : SignatureRequest L) {line : String}
    (hline : line ∈ r.renderedPayload) :
    ∀ c ∈ line.toList, isUnshowable L c = true → c = '\t' := by
  intro c hc hunshowable
  rw [SignatureRequest.renderedPayload] at hline
  rcases htext : payloadText L r.payload with _ | text
  · rw [htext] at hline
    obtain ⟨chunk, -, rfl⟩ := List.mem_map.mp hline
    rw [hexLine, String.toList_ofList] at hc
    have hshown : isUnshowable L c = false := by
      rcases mem_or_of_mem_intercalate hc with hblank | ⟨digits, hdigits, hmem⟩
      · exact shown_of_ascii hL (by decide) c hblank
      · obtain ⟨b, -, rfl⟩ := List.mem_map.mp hdigits
        exact shown_hexDigits hL _ _ c hmem
    rw [hshown] at hunshowable
    cases hunshowable
  · rw [htext] at hline
    obtain ⟨l, hl, rfl⟩ := List.mem_map.mp hline
    rw [String.toList_ofList] at hc
    have hlayout := (payloadText_eq_some_iff.mp htext).2 c
      (Wrap.mem_of_mem_wrap (by decide) hl hc)
    have hnewline : c ≠ '\n' := fun heq => Wrap.not_mem_of_mem_wrap hl (heq ▸ hc)
    simpa [isLayout, hunshowable, hnewline] using hlayout

/-- **The lines of a signing request.** -/
theorem shows_askToSign (hdoc : Documented L) (hL : AsciiShown L) (r : SignatureRequest L) :
    (HandleAct.askToSign r).Shows P := by
  have horigin : Shown L r.origin.text.toList := by
    obtain ⟨raw, hraw⟩ := r.origin.isCanonical
    exact shown_canonicalOrigin hdoc hL hraw
  have hdescription : Shown L r.description.toList := by
    have hshown := r.descriptionShown
    rw [checkDescription] at hshown
    rcases hfind : r.description.toList.find? (isUnshowable L) with _ | c
    · exact shown_of_find?_eq_none hfind
    · rw [hfind] at hshown
      cases hshown
  have hpurpose : Shown L r.purpose.asStr.toList := by
    cases r.purpose <;> exact shown_ofList hL (by decide +kernel)
  have hform : Shown L r.form.toList := by
    rw [SignatureRequest.form]
    split_ifs <;> exact shown_ofList hL (by decide +kernel)
  have hdigest : Shown L (r.digest P).toList := by
    rw [SignatureRequest.digest, ContentId.toHex, String.toList_ofList]
    exact shown_hexDigits hL _ _
  have hheading : ∀ line ∈ r.heading ++ ["", "digest   " ++ r.digest P], Shown L line.toList := by
    simp only [SignatureRequest.heading, List.cons_append, List.nil_append, List.mem_cons,
      List.not_mem_nil, or_false]
    rintro line (rfl | rfl | rfl | rfl | rfl | rfl | rfl)
    · exact shown_append (shown_ofList hL (by decide +kernel)) horigin
    · exact shown_append (shown_ofList hL (by decide +kernel)) hpurpose
    · exact shown_append (shown_ofList hL (by decide +kernel)) hdescription
    · simp [Shown]
    · refine shown_append (shown_append (shown_append ?_ (shown_toString_nat hL _)) ?_) hform
      · exact shown_ofList hL (by decide +kernel)
      · exact shown_ofList hL (by decide +kernel)
    · simp [Shown]
    · exact shown_append (shown_ofList hL (by decide +kernel)) hdigest
  intro line hline c hc hunshowable
  rw [SignatureRequest.promptLines] at hline
  by_cases hpayload : line ∈ r.renderedPayload
  · exact ⟨shown_renderedPayload hL r hpayload c hc hunshowable, hpayload⟩
  · have hline : line ∈ r.heading ++ ["", "digest   " ++ r.digest P] := by
      simp only [List.mem_append] at hline ⊢
      exact hline.imp (fun h => h.resolve_right hpayload) id
    exact absurd (hheading line hline c hc) (by rw [hunshowable]; exact Bool.noConfusion)

/-! ### What each request has shown -/

theorem shown_identityTitle (hL : AsciiShown L) : Shown L identityTitle.toList :=
  shown_ofList hL (by decide +kernel)

theorem shown_identityDetail (hL : AsciiShown L) (h : Shown L origin.toList) :
    Shown L (identityDetail origin).toList := by
  refine shown_append (shown_append (shown_append ?_ h) ?_) ?_
  · exact shown_ofList hL (by decide +kernel)
  · exact shown_ofList hL (by decide +kernel)
  · exact shown_ofList hL (by decide +kernel)

theorem shown_passphraseLabel (hL : AsciiShown L) :
    Shown L "The keystore locked itself. Passphrase: ".toList := shown_ofList hL (by decide +kernel)

/-- A call to the keystore asks for a passphrase, in the shell's own words. -/
theorem asks_shows_callKeystore (hL : AsciiShown L) (request : KeystoreRequest) :
    (callKeystore L request).Asks (HandleAct.Shows P) := by
  refine ⟨trivial, fun interactive => Prog.asks_lift ?_⟩
  have hcall : ∀ request, (callOnce request).run.Asks fun {_} a =>
      (HandleAct.ofShell a : HandleAct L _).Shows P := fun _ => ⟨trivial, fun _ => trivial⟩
  have hunseal : unsealNow.run.Asks fun {_} a => (HandleAct.ofShell a : HandleAct L _).Shows P := by
    refine asks_run_bind (hcall _) fun answer => ?_
    cases answer with
    | status s =>
      refine asks_run_bind ?_ fun passphrase => asks_run_bind (hcall _) fun answer => ?_
      · rw [askedPassphrase]
        split_ifs
        · exact ⟨shown_passphraseLabel hL, fun r => by cases r <;> trivial⟩
        · trivial
      · cases answer <;> trivial
    | _ => trivial
  refine asks_run_bind (hcall _) fun answer => ?_
  cases answer with
  | locked =>
    change (afterLocked interactive request).run.Asks _
    rw [afterLocked]
    split_ifs
    · trivial
    · refine asks_run_bind hunseal fun _ => asks_run_bind (hcall _) fun answer => ?_
      cases answer <;> trivial
  | _ => trivial

theorem asks_shows_signRequest (hdoc : Documented L) (hL : AsciiShown L) (r : SignatureRequest L) :
    (signRequest L r).Asks (HandleAct.Shows P) := by
  refine ⟨trivial, fun interactive => ?_⟩
  cases interactive with
  | false => trivial
  | true =>
    refine ⟨shows_askToSign hdoc hL r, fun decision => ?_⟩
    cases decision with
    | no => trivial
    | yes => exact ⟨trivial, fun confirmation => (asks_shows_callKeystore hL _).bind fun _ => trivial⟩

/-- **A request for an identity** shows the canonical form of an origin that was checked. -/
theorem asks_shows_identityFor (hdoc : Documented L) (hL : AsciiShown L) (raw : String) :
    (identityFor L raw).Asks (HandleAct.Shows P) := by
  rw [identityFor]
  rcases ValidatedOrigin.parse L raw with refusal | origin
  · trivial
  · refine ⟨trivial, fun interactive => ?_⟩
    cases interactive with
    | false => trivial
    | true =>
      have horigin : Shown L origin.text.toList := by
        obtain ⟨raw, hraw⟩ := origin.isCanonical
        exact shown_canonicalOrigin hdoc hL hraw
      refine ⟨⟨shown_identityTitle hL, shown_identityDetail hL horigin⟩, fun decision => ?_⟩
      cases decision with
      | no => trivial
      | yes => exact (asks_shows_callKeystore hL _).bind fun _ => trivial

/-- **A signing request** shows the lines of what was checked. -/
theorem asks_shows_sign (hdoc : Documented L) (hL : AsciiShown L) (raw description : String)
    (purpose : SignaturePurpose) (payload : Bytes) :
    (sign L raw purpose description payload).Asks (HandleAct.Shows P) := by
  rw [sign]
  rcases SignatureRequest.new L raw purpose description payload with refusal | request
  · trivial
  · exact asks_shows_signRequest hdoc hL request

/-- A question shows what it was given, where there is someone to ask. -/
theorem asks_shows_confirm_iff {title detail : String} :
    (handle L (.confirm title detail)).Asks (HandleAct.Shows P) ↔
      Shown L title.toList ∧ Shown L detail.toList := by
  constructor
  · exact fun h => (h.2 true).1
  · refine fun h => ⟨trivial, fun interactive => ?_⟩
    cases interactive with
    | false => trivial
    | true => exact ⟨h, fun decision => by cases decision <;> trivial⟩

/-! ### What each request is refused for -/

theorem refused_identityFor (h : ¬Shown L raw.toList) : Refused (identityFor L raw) := by
  obtain ⟨c, hc⟩ := canonicalOrigin_of_not_shown h
  have hparse : ValidatedOrigin.parse L raw = .error (.originCharacter c) := by
    rw [ValidatedOrigin.parse]
    split
    · rename_i horigin
      exact nomatch hc.symm.trans horigin
    · rename_i refusal horigin
      rw [Except.error.inj (hc.symm.trans horigin)]
  exact ⟨_, Or.inr (by rw [identityFor, hparse]; rfl)⟩

theorem refused_sign {description : String} {purpose : SignaturePurpose} {payload : Bytes}
    (h : ¬Shown L raw.toList ∨ ¬Shown L description.toList) :
    Refused (sign L raw purpose description payload) := by
  have hnew : ∃ refusal, SignatureRequest.new L raw purpose description payload =
      .error refusal := by
    rcases hrequest : SignatureRequest.new L raw purpose description payload with refusal | request
    · exact ⟨refusal, rfl⟩
    · exfalso
      rw [SignatureRequest.new] at hrequest
      split at hrequest
      · cases hrequest
      · rename_i origin horigin
        split at hrequest
        · cases hrequest
        · rename_i hdescription
          rcases h with hraw | hnot
          · obtain ⟨c, hc⟩ := canonicalOrigin_of_not_shown hraw
            cases hc.symm.trans horigin
          · obtain ⟨c, hc⟩ := find?_of_not_shown hnot
            rw [checkDescription, hc] at hdescription
            cases hdescription
  obtain ⟨refusal, hrefusal⟩ := hnew
  exact ⟨_, Or.inl (by rw [sign, hrefusal]; rfl)⟩

/-- **Where nothing reaches the person unchecked**: whatever a request puts before them
is showable, and a request that is not is refused, exactly if the request is no
question in such characters. -/
theorem handle_shows_iff (P : Platform) (L : Libraries) (hdoc : Documented L)
    (hL : AsciiShown L) (request : ShellRequest) :
    ((handle L request).Asks (HandleAct.Shows P) ∧
        (Unshowable L request → Refused (handle L request))) ↔
      ∀ title detail, request = .confirm title detail →
        Shown L title.toList ∧ Shown L detail.toList := by
  cases request with
  | requestSignature raw purpose description payload =>
    exact iff_of_true ⟨asks_shows_sign hdoc hL raw description purpose payload, refused_sign⟩
      fun title detail h => nomatch h
  | identityFor raw =>
    exact iff_of_true ⟨asks_shows_identityFor hdoc hL raw, refused_identityFor⟩
      fun title detail h => nomatch h
  | confirm title detail =>
    rw [asks_shows_confirm_iff]
    constructor
    · rintro ⟨h, -⟩ title' detail' heq
      obtain ⟨rfl, rfl⟩ := ShellRequest.confirm.inj heq
      exact h
    · intro h
      have hshown := h title detail rfl
      exact ⟨hshown, fun hnot => (hnot.elim (· hshown.1) (· hshown.2)).elim⟩
  | ping => exact iff_of_true ⟨trivial, fun h => h.elim⟩ fun title detail h => nomatch h

theorem asciiShown_sampleLibraries : AsciiShown sampleLibraries := by
  intro c hlow hhigh
  exact if_neg (by omega)

/-- A request for an identity, with libraries that are as documented. -/
theorem handle_shows_identity :
    (handle sampleLibraries (.identityFor "HTTPS://A.test:443/")).Asks
      (HandleAct.Shows Platform.sample) :=
  ((handle_shows_iff .sample sampleLibraries documented_sampleLibraries asciiShown_sampleLibraries
    (.identityFor "HTTPS://A.test:443/")).mpr fun _ _ h => nomatch h).1

/-- **A question that clears the screen** is asked as it came. -/
theorem handle_shows_escape : ¬∀ (P : Platform) (L : Libraries), Documented L → AsciiShown L →
    ∀ request, (handle L request).Asks (HandleAct.Shows P) ∧
      (Unshowable L request → Refused (handle L request)) := by
  intro h
  have hasks := (h .sample sampleLibraries documented_sampleLibraries asciiShown_sampleLibraries
    (.confirm "\x1b[2JOverwrite?" "")).1
  have hshown := (asks_shows_confirm_iff.mp hasks).1 '\x1b' (by decide)
  exact absurd hshown (by decide)

end Shell

end Syndeo
