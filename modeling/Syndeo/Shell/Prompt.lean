import Syndeo.Data.Hex
import Syndeo.Data.Wrap
import Syndeo.Ipc.Confirm
import Syndeo.Shell.Origin

/-!
# What the person is shown

A signing request becomes the lines of a prompt, which are all that the person
approves it by. The digest aside, the lines are a function of the request that is
meant to lose nothing: a payload is shown as text, wrapped, or else as hex, and in
full.

Hex loses nothing. Text loses whether a full line that is followed by another was
wrapped or ended there, up to the number of bytes, which is shown; so a request is
the only one of its lines exactly if its text does not both wrap a line and end
one that is full (`Syndeo.Shell.approved_is_signed_iff`).
-/

namespace Syndeo

open Text

namespace Shell

/-- `WRAP_WIDTH`. -/
def wrapWidth : ℕ := 100

/-- `HEX_BYTES_PER_LINE`. -/
def hexBytesPerLine : ℕ := 24

/-- `wrap_text`. -/
def wrapText (text : List Char) : List String := (Wrap.wrap '\n' wrapWidth text).map String.ofList

/-- One line of a hex dump. -/
def hexLine (chunk : Bytes) : String :=
  String.ofList ([' '].intercalate (chunk.map fun b => hexDigits b.toNat 2))

/-- `hex_lines`. -/
def hexLines (payload : Bytes) : List String :=
  (Wrap.chunks hexBytesPerLine payload).map hexLine

section

variable (L : Libraries)

/-- `check_description`. -/
def checkDescription (description : String) : Option Refusal :=
  match description.toList.find? (isUnshowable L) with
  | some c => some (.descriptionCharacter c)
  | none =>
    if maxDescriptionChars < description.toList.length then some .descriptionTooLong else none

/-- The character may stand in a payload that is shown as text. -/
def isLayout (c : Char) : Bool := c == '\n' || c == '\t' || !isUnshowable L c

/-- `payload_text`. -/
def payloadText (payload : Bytes) : Option (List Char) :=
  (Utf8.decode payload).filter fun text => text.all (isLayout L)

/-- `check_payload`. -/
def checkPayload (payload : Bytes) : Option Refusal :=
  match payloadText L payload with
  | some text =>
    if maxTextPayloadBytes < payload.length then some .textPayloadTooLarge
    else if maxTextPayloadLines < (wrapText text).length then some .textPayloadTooManyLines
    else none
  | none => if maxHexPayloadBytes < payload.length then some .hexPayloadTooLarge else none

/-- **`SignatureRequest`**: what can be shown in full. -/
@[ext] structure SignatureRequest where
  origin : ValidatedOrigin L
  purpose : SignaturePurpose
  description : String
  payload : Bytes
  descriptionShown : checkDescription L description = none
  payloadShown : checkPayload L payload = none

/-- `SignatureRequest::new`. -/
def SignatureRequest.new (raw : String) (purpose : SignaturePurpose) (description : String)
    (payload : Bytes) : Except Refusal (SignatureRequest L) :=
  match horigin : canonicalOrigin L raw with
  | .error e => .error e
  | .ok origin =>
    match hdescription : checkDescription L description with
    | some e => .error e
    | none =>
      match hpayload : checkPayload L payload with
      | some e => .error e
      | none => .ok ⟨⟨origin, canonical_of_eq horigin⟩, purpose, description, payload, hdescription, hpayload⟩

end

variable {L : Libraries}

namespace SignatureRequest

/-- `SignatureRequest::digest`. -/
def digest (P : Platform) (self : SignatureRequest L) : String := (P.blake3 self.payload).toHex

/-- `SignatureRequest::rendered_payload`. -/
def renderedPayload (self : SignatureRequest L) : List String :=
  match payloadText L self.payload with
  | some text => wrapText text
  | none => hexLines self.payload

/-- How the payload is shown. -/
def form (self : SignatureRequest L) : String :=
  if (payloadText L self.payload).isSome then "text" else "hex"

/-- The lines before the payload. -/
def heading (self : SignatureRequest L) : List String :=
  ["origin   " ++ self.origin.text, "purpose  " ++ self.purpose.asStr,
    "says     " ++ self.description, "",
    "payload  " ++ toString self.payload.length ++ " bytes, shown as " ++ self.form]

/-- `prompt_lines`. -/
def promptLines (P : Platform) (self : SignatureRequest L) : List String :=
  self.heading ++ self.renderedPayload ++ ["", "digest   " ++ self.digest P]

/-- What passes the checks is accepted. -/
theorem new_eq_ok {raw origin description : String} {purpose : SignaturePurpose} {payload : Bytes}
    (horigin : canonicalOrigin L raw = .ok origin)
    (hdescription : checkDescription L description = none)
    (hpayload : checkPayload L payload = none) :
    new L raw purpose description payload =
      .ok ⟨⟨origin, raw, horigin⟩, purpose, description, payload, hdescription, hpayload⟩ := by
  rw [new]
  split
  · rename_i h
    exact nomatch h.symm.trans horigin
  · rename_i h
    obtain rfl := Except.ok.inj (h.symm.trans horigin)
    split
    · rename_i h
      exact nomatch h.symm.trans hdescription
    · split
      · rename_i h
        exact nomatch h.symm.trans hpayload
      · rfl

/-- **Every request there is was accepted.** -/
theorem exists_new (r : SignatureRequest L) :
    ∃ raw, new L raw r.purpose r.description r.payload = .ok r := by
  obtain ⟨⟨origin, raw, horigin⟩, purpose, description, payload, hdescription, hpayload⟩ := r
  exact ⟨raw, new_eq_ok horigin hdescription hpayload⟩

end SignatureRequest

/-! ### What the lines tell -/

/-- The weight of a character is its bytes. -/
theorem length_encode (text : List Char) :
    (Utf8.encode text).length = Wrap.total (fun c => (String.utf8EncodeChar c).length) text := by
  rw [Utf8.encode, List.length_flatMap, Wrap.total]

theorem payloadText_eq_some_iff {payload : Bytes} {text : List Char} :
    payloadText L payload = some text ↔
      payload = Utf8.encode text ∧ ∀ c ∈ text, isLayout L c = true := by
  rw [payloadText, Option.filter_eq_some_iff, Utf8.decode_eq_some_iff, List.all_eq_true]

/-- **A hex dump loses nothing.** -/
theorem hexLines_injective : Function.Injective hexLines := by
  have hdigits : ∀ b : UInt8, ' ' ∉ hexDigits b.toNat 2 := fun b hm =>
    absurd (le_toNat_of_mem_hexDigits hm) (by decide)
  have hbyte : Function.Injective fun b : UInt8 => hexDigits b.toNat 2 := fun b c h =>
    UInt8.toNat_inj.mp (hexDigits_inj b.toNat_lt c.toNat_lt h)
  -- the digits of a line that is not empty are what stands between its blanks
  have hsplit : ∀ chunk : Bytes, chunk ≠ [] →
      ([' '].intercalate (chunk.map fun b => hexDigits b.toNat 2)).splitOn ' ' =
        chunk.map fun b => hexDigits b.toNat 2 := by
    intro chunk hne
    refine List.splitOn_intercalate _ (fun l hl => ?_) (by simpa using hne)
    obtain ⟨b, -, rfl⟩ := List.mem_map.mp hl
    exact hdigits b
  have hempty : ∀ chunk : Bytes, hexLine [] = hexLine chunk → chunk = [] := by
    intro chunk h
    by_contra hne
    have hsplits := hsplit chunk hne
    rw [← String.ofList_injective h] at hsplits
    rcases chunk with _ | ⟨b, chunk⟩
    · exact hne rfl
    · have hlength := congrArg List.length (List.cons.inj hsplits).1
      rw [length_hexDigits] at hlength
      exact absurd hlength (by decide)
  have hline : Function.Injective hexLine := by
    intro c d h
    by_cases hc : c = []
    · subst hc
      exact (hempty d h).symm
    · by_cases hd : d = []
      · subst hd
        exact hempty c h.symm
      · have hsplits := hsplit c hc
        rw [String.ofList_injective h, hsplit d hd] at hsplits
        exact (List.map_injective_iff.mpr hbyte hsplits).symm
  exact fun p q h => Wrap.chunks_injective (List.map_injective_iff.mpr hline h)

namespace SignatureRequest

variable {P : Platform} {r r' : SignatureRequest L}

theorem dropLast_promptLines :
    (r.promptLines P).dropLast = r.heading ++ r.renderedPayload ++ [""] := by
  rw [promptLines, List.dropLast_append_of_ne_nil (by simp)]
  rfl

/-- The lines but the last, taken apart. -/
theorem dropLast_promptLines_inj
    (h : (r.promptLines P).dropLast = (r'.promptLines P).dropLast) :
    r.origin = r'.origin ∧ r.purpose = r'.purpose ∧ r.description = r'.description ∧
      r.payload.length = r'.payload.length ∧ r.form = r'.form ∧
      r.renderedPayload = r'.renderedPayload := by
  rw [dropLast_promptLines, dropLast_promptLines] at h
  obtain ⟨hheading, hpayload⟩ := List.append_inj (List.append_cancel_right h) rfl
  simp only [heading, List.cons.injEq, and_true, true_and] at hheading
  obtain ⟨horigin, hpurpose, hdescription, hsize⟩ := hheading
  have hsize := congrArg String.toList hsize
  simp only [String.toList_append, List.append_assoc] at hsize
  have hblank : ∀ n : ℕ, ' ' ∉ (toString n).toList := fun n hm =>
    absurd ((toList_toString_nat n).2 _ hm) (by decide)
  have hbytes : " bytes, shown as ".toList = ' ' :: "bytes, shown as ".toList := rfl
  rw [hbytes] at hsize
  obtain ⟨hlength, hform⟩ :=
    Separated.append_cons_inj (hblank _) (hblank _) (List.append_cancel_left hsize)
  refine ⟨?_, SignaturePurpose.asStr_inj ((String.append_right_inj _).mp hpurpose),
    (String.append_right_inj _).mp hdescription,
    toString_nat_inj (String.toList_injective hlength), ?_, hpayload⟩
  · obtain ⟨⟨o, ho⟩, _⟩ := r
    obtain ⟨⟨o', ho'⟩, _⟩ := r'
    obtain rfl : o = o' := (String.append_right_inj _).mp horigin
    rfl
  · exact String.toList_injective (List.append_cancel_left hform)

/-- The text of the payload wraps a line, and ends one that is full before another. -/
def Mixed (r : SignatureRequest L) : Prop :=
  ∃ text, payloadText L r.payload = some text ∧
    (∃ line ∈ text.splitOn '\n', wrapWidth < line.length) ∧
    Wrap.FullBreak wrapWidth (text.splitOn '\n')

/-- Two requests of the same lines are shown in the same form. -/
theorem payloadText_isSome (h : r.form = r'.form) :
    (payloadText L r.payload).isSome = (payloadText L r'.payload).isSome := by
  rw [form, form] at h
  cases hr : (payloadText L r.payload).isSome <;> cases hr' : (payloadText L r'.payload).isSome
  · rfl
  · rw [hr, hr'] at h
    exact absurd h (by decide)
  · rw [hr, hr'] at h
    exact absurd h (by decide)
  · rfl

/-- The texts of the same lines and the same number of bytes. -/
theorem unique_text_iff (text : List Char) :
    (∀ u, wrapText u = wrapText text → (Utf8.encode u).length = (Utf8.encode text).length →
      u = text) ↔
      ¬((∃ line ∈ text.splitOn '\n', wrapWidth < line.length) ∧
        Wrap.FullBreak wrapWidth (text.splitOn '\n')) := by
  have hlines : ∀ t u : List Char, wrapText t = wrapText u ↔
      Wrap.wrap '\n' wrapWidth t = Wrap.wrap '\n' wrapWidth u := fun t u =>
    ⟨fun h => List.map_injective_iff.mpr (fun _ _ => String.ofList_injective) h,
      fun h => congrArg (List.map String.ofList) h⟩
  have hunique : (∀ u, Wrap.wrap '\n' wrapWidth u = Wrap.wrap '\n' wrapWidth text →
      Wrap.total (fun c => (String.utf8EncodeChar c).length) u =
        Wrap.total (fun c => (String.utf8EncodeChar c).length) text → u = text) ↔ _ :=
    Wrap.unique_iff (by decide) (by decide) text
  simp only [hlines, length_encode, hunique]
  rw [not_and_or, not_exists]
  simp only [not_and, not_lt]

/-- What has the same lines can be shown where the other can. -/
theorem payloadText_encode {text u : List Char} (htext : ∀ c ∈ text, isLayout L c = true)
    (hlines : wrapText u = wrapText text) : payloadText L (Utf8.encode u) = some u := by
  have hlines : Wrap.wrap '\n' wrapWidth u = Wrap.wrap '\n' wrapWidth text :=
    List.map_injective_iff.mpr (fun _ _ => String.ofList_injective) hlines
  refine payloadText_eq_some_iff.mpr ⟨rfl, fun c hc => ?_⟩
  obtain hnewline | ⟨l, hl, hcl⟩ : c = '\n' ∨ ∃ l ∈ Wrap.wrap '\n' wrapWidth u, c ∈ l :=
    Wrap.mem_or_eq_of_wrap (by decide) hc
  · rw [hnewline]
    rfl
  · rw [hlines] at hl
    exact htext c (Wrap.mem_of_mem_wrap (by decide) hl hcl)

/-- **A request whose text is mixed is not the only one of its lines.** -/
theorem exists_ne_of_mixed (h : r.Mixed) :
    ∃ r' : SignatureRequest L, (r'.promptLines P).dropLast = (r.promptLines P).dropLast ∧
      r' ≠ r := by
  obtain ⟨text, htext, hmixed⟩ := h
  obtain ⟨hpayload, hlayout⟩ := payloadText_eq_some_iff.mp htext
  obtain ⟨u, hlines, hlength, hne⟩ : ∃ u, wrapText u = wrapText text ∧
      (Utf8.encode u).length = (Utf8.encode text).length ∧ u ≠ text := by
    by_contra hnone
    push Not at hnone
    exact (unique_text_iff text).mp hnone hmixed
  have hu : payloadText L (Utf8.encode u) = some u := payloadText_encode hlayout hlines
  rw [← hpayload] at hlength
  have hshown : checkPayload L (Utf8.encode u) = none := by
    have hcheck := r.payloadShown
    rw [checkPayload, htext] at hcheck
    rw [checkPayload, hu]
    dsimp only at hcheck ⊢
    rwa [hlength, hlines]
  refine ⟨{ r with payload := Utf8.encode u, payloadShown := hshown }, ?_, fun hsame => hne ?_⟩
  · rw [dropLast_promptLines, dropLast_promptLines]
    simp only [heading, renderedPayload, form, hu, htext, hlength, hlines, Option.isSome_some]
  · have hpayload' : Utf8.encode u = r.payload := congrArg payload hsame
    exact Utf8.encode_injective (hpayload'.trans hpayload)

/-- **A request whose text is not mixed is.** -/
theorem eq_of_not_mixed (h : ¬r.Mixed)
    (hlines : (r'.promptLines P).dropLast = (r.promptLines P).dropLast) : r' = r := by
  obtain ⟨horigin, hpurpose, hdescription, hlength, hform, hpayload⟩ :=
    dropLast_promptLines_inj hlines
  have hsome := payloadText_isSome hform
  refine SignatureRequest.ext horigin hpurpose hdescription ?_
  rw [renderedPayload, renderedPayload] at hpayload
  rcases htext : payloadText L r.payload with _ | text
  · rw [htext] at hpayload hsome
    rw [Option.isSome_none, Option.isSome_eq_false_iff, Option.isNone_iff_eq_none] at hsome
    rw [hsome] at hpayload
    exact hexLines_injective hpayload
  · rw [htext] at hpayload hsome
    obtain ⟨u, hu⟩ := Option.isSome_iff_exists.mp hsome
    rw [hu] at hpayload
    have hbytes := (payloadText_eq_some_iff.mp htext).1
    have hbytes' := (payloadText_eq_some_iff.mp hu).1
    rw [hbytes, hbytes'] at hlength ⊢
    rw [(unique_text_iff text).mpr (fun hmixed => h ⟨text, htext, hmixed⟩) u hpayload hlength]

end SignatureRequest

/-- **What is approved is what is signed**, of a request whose text does not both wrap a
line and end a full one: such a request, and no other, is the only one that is
accepted and shown in its lines. -/
theorem approved_is_signed_iff (P : Platform) (L : Libraries) (r : SignatureRequest L) :
    (∀ r' : SignatureRequest L, (r'.promptLines P).dropLast = (r.promptLines P).dropLast →
      r' = r) ↔ ¬r.Mixed := by
  constructor
  · intro hunique hmixed
    obtain ⟨r', hlines, hne⟩ := SignatureRequest.exists_ne_of_mixed hmixed
    exact hne (hunique r' hlines)
  · exact fun h r' => SignatureRequest.eq_of_not_mixed h

/-- Three lines, the first two of them full: `a`s, `b`s and a `c`. -/
def threeLines (first second : Bool) : List (Wrap.Piece Char) :=
  [⟨List.replicate 100 'a', first⟩, ⟨List.replicate 100 'b', second⟩, ⟨['c'], false⟩]

theorem laid_threeLines (first second : Bool) :
    Wrap.Laid '\n' wrapWidth (threeLines first second) := by
  have hlast : Wrap.Laid '\n' wrapWidth [⟨['c'], false⟩] := .last (by decide) (by decide)
  have ha : '\n' ∉ List.replicate 100 'a' := fun hm => absurd (List.eq_of_mem_replicate hm) (by decide)
  have hb : '\n' ∉ List.replicate 100 'b' := fun hm => absurd (List.eq_of_mem_replicate hm) (by decide)
  have hlength : ∀ c : Char, (List.replicate 100 c).length = wrapWidth := fun c =>
    List.length_replicate
  have hsecond : Wrap.Laid '\n' wrapWidth
      [⟨List.replicate 100 'b', second⟩, ⟨['c'], false⟩] := by
    cases second with
    | false => exact .broken hb (hlength 'b').le hlast
    | true => exact .goesOn hb (hlength 'b') (by simp) hlast
  cases first with
  | false => exact .broken ha (hlength 'a').le hsecond
  | true => exact .goesOn ha (hlength 'a') (by simp) hsecond

/-- The text of the three lines. -/
def threeLinesText (first second : Bool) : List Char := Wrap.unwrap '\n' (threeLines first second)

theorem wrap_threeLinesText (first second : Bool) :
    Wrap.wrap '\n' wrapWidth (threeLinesText first second) =
      [List.replicate 100 'a', List.replicate 100 'b', ['c']] :=
  (laid_threeLines first second).wrap_unwrap (by decide)

theorem payloadText_threeLines (first second : Bool) :
    payloadText sampleLibraries (Utf8.encode (threeLinesText first second)) =
      some (threeLinesText first second) := by
  refine payloadText_eq_some_iff.mpr ⟨rfl, fun c hc => ?_⟩
  have hlayout : ∀ d ∈ ['\n', 'a', 'b', 'c'], isLayout sampleLibraries d = true := by decide
  obtain rfl | ⟨l, hl, hcl⟩ : c = '\n' ∨ ∃ l ∈ Wrap.wrap '\n' wrapWidth
      (threeLinesText first second), c ∈ l := Wrap.mem_or_eq_of_wrap (by decide) hc
  · exact hlayout _ (by decide)
  · rw [wrap_threeLinesText] at hl
    simp only [List.mem_cons, List.not_mem_nil, or_false] at hl
    rcases hl with rfl | rfl | rfl
    · rw [List.eq_of_mem_replicate hcl]
      exact hlayout _ (by decide)
    · rw [List.eq_of_mem_replicate hcl]
      exact hlayout _ (by decide)
    · rw [List.mem_singleton.mp hcl]
      exact hlayout _ (by decide)

/-- The bytes of the text: those of the lines, and of the newlines there are. -/
theorem length_encode_threeLines (first second : Bool) :
    (Utf8.encode (threeLinesText first second)).length + (first.toNat + second.toNat) = 203 := by
  have htotal := Wrap.total_unwrap (fun c => (String.utf8EncodeChar c).length)
    (laid_threeLines first second)
  have hfull : ∀ c : Char, (String.utf8EncodeChar c).length = 1 →
      Wrap.total (fun c => (String.utf8EncodeChar c).length) (List.replicate 100 c) = 100 := by
    intro c hc
    rw [Wrap.total, List.map_replicate, List.sum_replicate_nat, hc]
  have hlines : (((threeLines first second).map Wrap.Piece.line).map
      (Wrap.total fun c => (String.utf8EncodeChar c).length)).sum = 201 := by
    simp only [threeLines, List.map_cons, List.map_nil, List.sum_cons, List.sum_nil]
    rw [hfull 'a' rfl, hfull 'b' rfl]
    rfl
  have hgoings : Wrap.goings (threeLines first second) = first.toNat + second.toNat := by
    cases first <;> cases second <;> rfl
  have hnewline : (String.utf8EncodeChar '\n').length = 1 := rfl
  rw [hlines, hgoings, hnewline] at htotal
  rw [length_encode, threeLinesText]
  have hlength : (threeLines first second).length = 3 := rfl
  omega

theorem checkPayload_threeLines (first second : Bool) :
    checkPayload sampleLibraries (Utf8.encode (threeLinesText first second)) = none := by
  have hlength := length_encode_threeLines first second
  have hlines : (wrapText (threeLinesText first second)).length = 3 := by
    rw [wrapText, wrap_threeLinesText]
    rfl
  rw [checkPayload, payloadText_threeLines]
  dsimp only
  rw [if_neg (by rw [maxTextPayloadBytes]; omega), hlines, if_neg (by decide)]

/-- The request to sign the text. -/
def threeLinesRequest (first second : Bool) : SignatureRequest sampleLibraries where
  origin := ⟨"https://a.test", "HTTPS://A.test:443/", by decide⟩
  purpose := .attestation
  description := "b"
  payload := Utf8.encode (threeLinesText first second)
  descriptionShown := by decide
  payloadShown := checkPayload_threeLines first second

theorem payload_threeLines (first second : Bool) :
    (threeLinesRequest first second).payload = Utf8.encode (threeLinesText first second) := rfl

theorem form_threeLines (first second : Bool) : (threeLinesRequest first second).form = "text" := by
  rw [SignatureRequest.form, payload_threeLines, payloadText_threeLines]
  rfl

theorem renderedPayload_threeLines (first second : Bool) :
    (threeLinesRequest first second).renderedPayload =
      [List.replicate 100 'a', List.replicate 100 'b', ['c']].map String.ofList := by
  rw [SignatureRequest.renderedPayload, payload_threeLines, payloadText_threeLines]
  exact congrArg _ (wrap_threeLinesText first second)

/-- **One prompt, two payloads.** The first line is wrapped and the second one ends, or
the other way round: both requests are accepted, and are shown in the same lines. -/
theorem approved_twice :
    SignatureRequest.new sampleLibraries "HTTPS://A.test:443/" .attestation "b"
        (Utf8.encode (threeLinesText true false)) = .ok (threeLinesRequest true false) ∧
      SignatureRequest.new sampleLibraries "HTTPS://A.test:443/" .attestation "b"
        (Utf8.encode (threeLinesText false true)) = .ok (threeLinesRequest false true) ∧
      ((threeLinesRequest true false).promptLines .sample).dropLast =
        ((threeLinesRequest false true).promptLines .sample).dropLast ∧
      (threeLinesRequest true false).payload ≠ (threeLinesRequest false true).payload := by
  have horigin : canonicalOrigin sampleLibraries "HTTPS://A.test:443/" = .ok "https://a.test" := by
    decide
  have hdescription : checkDescription sampleLibraries "b" = none := by decide
  refine ⟨SignatureRequest.new_eq_ok horigin hdescription (checkPayload_threeLines true false),
    SignatureRequest.new_eq_ok horigin hdescription (checkPayload_threeLines false true), ?_, ?_⟩
  · have hlength : (threeLinesRequest true false).payload.length =
        (threeLinesRequest false true).payload.length := by
      have htrue := length_encode_threeLines true false
      have hfalse := length_encode_threeLines false true
      rw [Bool.toNat_true, Bool.toNat_false] at htrue hfalse
      rw [payload_threeLines, payload_threeLines]
      omega
    rw [SignatureRequest.dropLast_promptLines, SignatureRequest.dropLast_promptLines,
      SignatureRequest.heading, SignatureRequest.heading, hlength, form_threeLines,
      form_threeLines, renderedPayload_threeLines, renderedPayload_threeLines]
    rfl
  · intro hsame
    have hsame : Utf8.encode (threeLinesText true false) =
        Utf8.encode (threeLinesText false true) := hsame
    have htext : Wrap.unwrap '\n' (threeLines true false) = Wrap.unwrap '\n' (threeLines false true) :=
      Utf8.encode_injective hsame
    have hlines : (threeLines true false).map Wrap.Piece.line =
        (threeLines false true).map Wrap.Piece.line := rfl
    have hpieces := (laid_threeLines true false).unwrap_inj (laid_threeLines false true) hlines htext
    rw [threeLines, threeLines] at hpieces
    exact nomatch congrArg Wrap.Piece.goesOn (List.cons.inj hpieces).1

end Shell

end Syndeo
