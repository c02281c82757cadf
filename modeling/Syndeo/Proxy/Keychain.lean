import Mathlib.Data.List.Forall2
import Mathlib.Data.List.ModifyLast
import Syndeo.Concurrent.Events
import Syndeo.Http.Text

/-!
# Authorities in a keychain

An authority whose files are gone can still be in the keychain, trusted, and nothing names it but
its common name. What `security` prints of the keychain is read certificate by certificate; each
one of exactly that name is shown to the person, and deleted, by its fingerprint, only if they say
so (`Syndeo.Proxy.Keychain.untrusted_of_listing`). An authority whose files are here is deleted by
its own fingerprint, and that it was removed is said only once the keychain no longer lists it
(`Syndeo.Proxy.Keychain.removed_of_listing`).

What the keychain lists, whether it deletes, and what the person answers may be anything, and may
depend on what happened before.
-/

namespace Syndeo

namespace Proxy

namespace Keychain

open Syndeo.Text Events

/-- `NAME`. -/
def name : String := "Syndeo Local Measurement CA"

/-- `Listed`. -/
@[ext] structure Listed where
  sha256 : String
  sha1 : String
  label : Option String
  deriving DecidableEq

/-- `char::is_ascii_hexdigit`. -/
def isHexDigit (c : Char) : Bool :=
  c.isDigit || (decide ('a' ≤ c) && decide (c ≤ 'f')) || (decide ('A' ≤ c) && decide (c ≤ 'F'))

/-- `is_hex`: such digits are as many bytes as characters. -/
def isHex (value : String) (len : ℕ) : Bool :=
  decide (value.toList.length = len) && value.toList.all isHexDigit

/-- A text without the quotes around it. -/
def unquote (value : List Char) : Option String :=
  (stripStart ['"'] value).bind fun value =>
    if value.getLast? = some '"' then some (String.ofList value.dropLast) else none

def sha256Field : List Char := "SHA-256 hash:".toList

def sha1Field : List Char := "SHA-1 hash:".toList

def labelField : List Char := "\"labl\"<blob>=".toList

/-- One turn of `parse`'s loop. -/
def readLine (listed : List Listed) (line : List Char) : List Listed :=
  let line := trimChars line
  match stripStart sha256Field line with
  | some hash => listed ++ [⟨String.ofList (trimChars hash), "", none⟩]
  | none =>
    match stripStart sha1Field line with
    | some hash => listed.modifyLast fun c => { c with sha1 := String.ofList (trimChars hash) }
    | none =>
      match stripStart labelField line with
      | some value => listed.modifyLast fun c => { c with label := unquote value }
      | none => listed

/-- Both its hashes are. -/
def Listed.isWhole (c : Listed) : Bool := isHex c.sha256 64 && isHex c.sha1 40

/-- `parse`. -/
def parse (output : String) : List Listed :=
  ((lines output.toList).foldl readLine []).filter Listed.isWhole

/-! ### Untrusting -/

/-- What is done. -/
inductive Entry
  /-- A line is written. -/
  | said (line : String)
  /-- The person is asked whether to delete it, and answers. -/
  | asked (yes : Bool)
  /-- The keychain is told to delete it, and does or does not. -/
  | deleting (sha256 : String) (done : Bool)
  deriving DecidableEq

/-- `Keychain` and `Ask`: they may go by what was done before. -/
structure World where
  describe : String
  find : List Entry → String → Except String String
  delete : List Entry → String → Except String Unit
  confirm : List Entry → Bool

/-- A certificate is shown by its fingerprints. -/
def shown (c : Listed) : List Entry :=
  [.said "", .said ("  SHA-256 " ++ c.sha256), .said ("  SHA-1   " ++ c.sha1)]

/-- The loop of `untrust_by_name`. -/
def offerEach (W : World) : List Entry → ℕ → List Listed → List Entry × Except String ℕ
  | log, removed, [] => (log, .ok removed)
  | log, removed, candidate :: rest =>
    let yes := W.confirm (log ++ shown candidate)
    let log := log ++ shown candidate ++ [.asked yes]
    if yes then
      match W.delete log candidate.sha256 with
      | .error why => (log ++ [.deleting candidate.sha256 false], .error why)
      | .ok () => offerEach W (log ++ [.deleting candidate.sha256 true, .said "  deleted"])
          (removed + 1) rest
    else offerEach W (log ++ [.said "  kept"]) removed rest

/-- Only the exact name is ours. -/
def isOurs (c : Listed) : Bool := decide (c.label = some name)

/-- What is said first of the certificates of that name. -/
def opening (W : World) (candidates : List Listed) : String :=
  if candidates.isEmpty then "No certificate named \"" ++ name ++ "\" in " ++ W.describe ++ "."
  else "There is no local authority here, but " ++ toString candidates.length ++
    " certificate(s) named \"" ++ name ++ "\" are in " ++ W.describe ++ ":"

/-- `untrust_by_name`. -/
def untrustByName (W : World) : List Entry × Except String ℕ :=
  match W.find [] name with
  | .error why => ([], .error why)
  | .ok output =>
    let candidates := (parse output).filter isOurs
    if candidates.isEmpty then ([.said (opening W candidates)], .ok 0)
    else offerEach W [.said (opening W candidates)] 0 candidates

/-- `lists`. -/
def lists (W : World) (log : List Entry) (sha256 : String) : Except String Bool :=
  (W.find log name).map fun output =>
    (parse output).any fun l => eqIgnoreAsciiCase l.sha256 sha256

/-- It is said that there was nothing to remove. -/
def absentLine (W : World) (sha256 : String) : String :=
  "This authority (SHA-256 " ++ sha256 ++ ") is not in " ++ W.describe ++ "; nothing was removed."

/-- It is said that it was removed. -/
def removedLine (W : World) (sha256 : String) : String :=
  "Removed this authority (SHA-256 " ++ sha256 ++ ") and its trust setting from " ++ W.describe ++
    "."

/-- `untrust_local`. -/
def untrustLocal (W : World) (sha256 : String) : List Entry × Except String Unit :=
  match lists W [] sha256 with
  | .error why => ([], .error why)
  | .ok false => ([.said (absentLine W sha256)], .ok ())
  | .ok true =>
    match W.delete [] sha256 with
    | .error why => ([.deleting sha256 false],
        .error ("removing SHA-256 " ++ sha256 ++ " from " ++ W.describe ++ ": " ++ why))
    | .ok () =>
      match lists W [.deleting sha256 true] sha256 with
      | .error why => ([.deleting sha256 true], .error why)
      | .ok true => ([.deleting sha256 true],
          .error ("SHA-256 " ++ sha256 ++ " is still in " ++ W.describe ++
            " after deleting it; its trust setting may remain"))
      | .ok false => ([.deleting sha256 true, .said (removedLine W sha256)], .ok ())

/-! ### What `security` prints -/

/-- A line that says nothing of a hash or a label. -/
def Quiet (line : List Char) : Prop :=
  stripStart sha256Field (trimChars line) = none ∧ stripStart sha1Field (trimChars line) = none ∧
    stripStart labelField (trimChars line) = none

/-- The line says it of the field. -/
def Says (field value line : List Char) : Prop := trimChars line = field ++ ' ' :: value

/-- The line says the label, or that there is none it can be read as. -/
def SaysLabel : Option String → List Char → Prop
  | some label, line => trimChars line = labelField ++ '"' :: (label.toList ++ ['"'])
  | none, line => ∃ value, trimChars line = labelField ++ value ∧ value.head? ≠ some '"'

/-- **A certificate in the listing**: its hashes, and its label if it has one, each on a line, with
other lines after each of them. -/
inductive Shows (c : Listed) : List (List Char) → Prop
  | labelled {first second third : List Char} {others more rest : List (List Char)}
    (hfirst : Says sha256Field c.sha256.toList first) (hothers : ∀ line ∈ others, Quiet line)
    (hsecond : Says sha1Field c.sha1.toList second) (hmore : ∀ line ∈ more, Quiet line)
    (hthird : SaysLabel c.label third) (hrest : ∀ line ∈ rest, Quiet line) :
    Shows c (first :: (others ++ second :: (more ++ third :: rest)))
  | unlabelled {first second : List Char} {others more : List (List Char)}
    (hnone : c.label = none)
    (hfirst : Says sha256Field c.sha256.toList first) (hothers : ∀ line ∈ others, Quiet line)
    (hsecond : Says sha1Field c.sha1.toList second) (hmore : ∀ line ∈ more, Quiet line) :
    Shows c (first :: (others ++ second :: more))

/-- **The keychain's listing**: certificate after certificate. -/
def Lists (certificates : List Listed) (output : String) : Prop :=
  (∀ c ∈ certificates, c.isWhole = true) ∧ ∃ blocks, List.Forall₂ Shows certificates blocks ∧
    lines output.toList = blocks.flatten

/-! ### Reading it -/

theorem foldl_quiet {quiet : List (List Char)} (h : ∀ line ∈ quiet, Quiet line)
    (listed : List Listed) : quiet.foldl readLine listed = listed := by
  induction quiet with
  | nil => rfl
  | cons line quiet ih =>
    obtain ⟨h₁, h₂, h₃⟩ := h line List.mem_cons_self
    have hline : readLine listed line = listed := by
      rw [readLine, h₁, h₂, h₃]
    rw [List.foldl_cons, hline]
    exact ih fun line hline => h line (List.mem_cons_of_mem _ hline)

theorem isWhitespace_of_isHexDigit {c : Char} (h : isHexDigit c = true) :
    isWhitespace c = false := by
  by_contra hspace
  simp only [Bool.not_eq_false, isWhitespace, Bool.or_eq_true, Bool.and_eq_true,
    decide_eq_true_eq, beq_iff_eq] at hspace
  simp only [isHexDigit, Bool.or_eq_true, Bool.and_eq_true, decide_eq_true_eq, isDigit_iff,
    Char.le_def, UInt32.le_iff_toNat_le, Char.toNat_val] at h
  have ha : 'a'.toNat = 97 := rfl
  have hf : 'f'.toNat = 102 := rfl
  have hA : 'A'.toNat = 65 := rfl
  have hF : 'F'.toNat = 70 := rfl
  omega

/-- A hash is read as it is. -/
theorem trimChars_hash {value : String} {len : ℕ} (h : isHex value len = true) :
    String.ofList (trimChars (' ' :: value.toList)) = value := by
  have hhex : ∀ c ∈ value.toList, isWhitespace c = false := by
    intro c hc
    have hall := ((Bool.and_eq_true _ _).mp h).2
    exact isWhitespace_of_isHexDigit (List.all_eq_true.mp hall c hc)
  have hspace : Blank [' '] := by
    intro c hc
    rw [List.mem_singleton.mp hc]
    decide
  have htrim := trimChars_append hspace blank_nil value.toList
  rw [List.append_nil] at htrim
  have hself : trimChars value.toList = value.toList :=
    trimChars_eq_self (fun c hc => hhex c (List.mem_of_head? hc))
      fun c hc => hhex c (List.mem_of_getLast? hc)
  exact (congrArg String.ofList (htrim.trans hself)).trans (String.ofList_toList)

theorem readLine_sha256 {value : String} {line : List Char} (h : isHex value 64 = true)
    (hline : Says sha256Field value.toList line) (listed : List Listed) :
    readLine listed line = listed ++ [⟨value, "", none⟩] := by
  rw [readLine, hline, stripStart_append]
  dsimp only
  rw [trimChars_hash h]

theorem readLine_sha1 {value : String} {line : List Char} {c : Listed} (h : isHex value 40 = true)
    (hline : Says sha1Field value.toList line) (listed : List Listed) :
    readLine (listed ++ [c]) line = listed ++ [{ c with sha1 := value }] := by
  have hother : stripStart sha256Field (sha1Field ++ ' ' :: value.toList) = none := by
    rfl
  rw [readLine, hline, hother, stripStart_append]
  dsimp only
  rw [trimChars_hash h, List.modifyLast_concat]

theorem unquote_of_says {label : Option String} {line : List Char} (h : SaysLabel label line) :
    ∃ value, trimChars line = labelField ++ value ∧ unquote value = label := by
  cases label with
  | some label =>
    refine ⟨_, h, ?_⟩
    have hquote : stripStart ['"'] ('"' :: (label.toList ++ ['"'])) =
        some (label.toList ++ ['"']) := stripStart_append ['"'] _
    rw [unquote, hquote, Option.bind_some, if_pos List.getLast?_concat, List.dropLast_concat,
      String.ofList_toList]
  | none =>
    obtain ⟨value, htext, hhead⟩ := h
    refine ⟨value, htext, ?_⟩
    cases value with
    | nil => rfl
    | cons c value =>
      have hc : ¬ '"' = c := fun hc => hhead (by rw [hc]; rfl)
      rw [unquote, stripStart, if_neg hc]
      rfl

theorem readLine_label {label : Option String} {line : List Char} {c : Listed}
    (hline : SaysLabel label line) (listed : List Listed) :
    readLine (listed ++ [c]) line = listed ++ [{ c with label }] := by
  obtain ⟨value, htext, rfl⟩ := unquote_of_says hline
  have hother : stripStart sha256Field (labelField ++ value) = none := by
    rfl
  have hother' : stripStart sha1Field (labelField ++ value) = none := by
    rfl
  rw [readLine, htext, hother, hother', stripStart_append]
  dsimp only
  rw [List.modifyLast_concat]

/-- **A certificate is read as it is.** -/
theorem foldl_shows {c : Listed} {block : List (List Char)} (h : Shows c block)
    (hwhole : c.isWhole = true) (listed : List Listed) :
    block.foldl readLine listed = listed ++ [c] := by
  obtain ⟨h256, h1⟩ : isHex c.sha256 64 = true ∧ isHex c.sha1 40 = true := by
    simpa [Listed.isWhole] using hwhole
  cases h with
  | labelled hfirst hothers hsecond hmore hthird hrest =>
    rw [List.foldl_cons, readLine_sha256 h256 hfirst, List.foldl_append, foldl_quiet hothers,
      List.foldl_cons, readLine_sha1 h1 hsecond, List.foldl_append, foldl_quiet hmore,
      List.foldl_cons, readLine_label hthird, foldl_quiet hrest]
  | unlabelled hnone hfirst hothers hsecond hmore =>
    rw [List.foldl_cons, readLine_sha256 h256 hfirst, List.foldl_append, foldl_quiet hothers,
      List.foldl_cons, readLine_sha1 h1 hsecond, foldl_quiet hmore, ← hnone]

/-- **The listing is read back**, each certificate once. -/
theorem parse_of_lists {certificates : List Listed} {output : String}
    (h : Lists certificates output) : parse output = certificates := by
  obtain ⟨hwhole, blocks, hshows, hlines⟩ := h
  have hread : ∀ listed : List Listed,
      blocks.flatten.foldl readLine listed = listed ++ certificates := by
    clear hlines
    induction hshows with
    | nil => exact fun listed => (List.append_nil listed).symm
    | cons hfirst _ ih =>
      intro listed
      rw [List.flatten_cons, List.foldl_append,
        foldl_shows hfirst (hwhole _ List.mem_cons_self),
        ih fun c hc => hwhole c (List.mem_cons_of_mem _ hc), List.append_assoc]
      rfl
  rw [parse, hlines, hread, List.nil_append]
  exact List.filter_eq_self.mpr hwhole

/-- One certificate of that name. -/
def sampleListed : Listed :=
  ⟨String.ofList (List.replicate 64 '1'), String.ofList (List.replicate 40 '2'), some name⟩

/-- The lines that show it, the last one indented. -/
def sampleLines : List (List Char) :=
  [sha256Field ++ ' ' :: List.replicate 64 '1', sha1Field ++ ' ' :: List.replicate 40 '2',
    [' ', ' '] ++ labelField ++ '"' :: (name.toList ++ ['"'])]

theorem lists_sample :
    Lists [sampleListed] (String.ofList (Separated.terminated '\n' sampleLines)) := by
  have hnone : ∀ line ∈ ([] : List (List Char)), Quiet line := fun _ h => absurd h List.not_mem_nil
  refine ⟨by decide +kernel, [sampleLines],
    .cons (.labelled ?_ hnone ?_ hnone ?_ hnone) .nil, ?_⟩
  · show trimChars _ = _
    decide +kernel
  · show trimChars _ = _
    decide +kernel
  · show trimChars _ = _
    decide +kernel
  · rw [String.toList_ofList]
    exact lines_terminated (by decide +kernel) (by decide +kernel)

/-- It is listed until it is deleted, and the person says yes to whatever is asked. -/
def sampleWorld : World where
  describe := "a test keychain"
  find log _ :=
    .ok (if log.isEmpty then String.ofList (Separated.terminated '\n' sampleLines) else "")
  delete _ _ := .ok ()
  confirm _ := true

/-! ### Only what was shown and agreed to -/

/-- What is done of a certificate that is kept, and of one that is deleted. -/
def handled (c : Listed) (yes : Bool) : List Entry :=
  shown c ++ .asked yes ::
    if yes then [.deleting c.sha256 true, .said "  deleted"] else [.said "  kept"]

/-- **What a question and a deletion come after**: the person is asked of a certificate of that
name, right after its fingerprints; it is deleted right after they say so. -/
def Warranted (W : World) (certificates : List Listed) (before : List Entry) : Entry → Prop
  | .said _ => True
  | .asked yes => yes = W.confirm before ∧
      ∃ c ∈ certificates, c.label = some name ∧ shown c <:+ before
  | .deleting sha256 done => (done = true ↔ W.delete before sha256 = .ok ()) ∧
      ∃ c ∈ certificates, c.label = some name ∧ c.sha256 = sha256 ∧
        shown c ++ [.asked true] <:+ before

variable {W : World} {certificates candidates : List Listed} {log : List Entry}

theorem eachAfter_asked {c : Listed} (hc : c ∈ certificates) (hname : c.label = some name)
    (h : EachAfter (Warranted W certificates) log) :
    EachAfter (Warranted W certificates)
      (log ++ shown c ++ [.asked (W.confirm (log ++ shown c))]) := by
  refine eachAfter_concat.mpr ⟨eachAfter_append h ?_, rfl, c, hc, hname, List.suffix_append _ _⟩
  intro e he before
  simp only [shown, List.mem_cons, List.not_mem_nil, or_false] at he
  rcases he with rfl | rfl | rfl <;> trivial

/-- Whatever is asked and deleted in the loop, the person was shown it. -/
theorem eachAfter_offerEach (hours : ∀ c ∈ candidates, c ∈ certificates ∧ c.label = some name)
    (h : EachAfter (Warranted W certificates) log) (removed : ℕ) :
    EachAfter (Warranted W certificates) (offerEach W log removed candidates).1 := by
  induction candidates generalizing log removed with
  | nil => exact h
  | cons c rest ih =>
    obtain ⟨hc, hname⟩ := hours c List.mem_cons_self
    have hrest : ∀ c ∈ rest, c ∈ certificates ∧ c.label = some name := fun c hc =>
      hours c (List.mem_cons_of_mem _ hc)
    have hasked := eachAfter_asked hc hname h
    rw [offerEach]
    split_ifs with hyes
    · rw [hyes] at hasked ⊢
      -- it is deleted right after they say so
      have hagreed : shown c ++ [.asked true] <:+ log ++ shown c ++ [.asked true] := by
        rw [List.append_assoc]
        exact List.suffix_append _ _
      split
      · rename_i why hdelete
        refine eachAfter_concat.mpr ⟨hasked, ?_, c, hc, hname, rfl, hagreed⟩
        rw [hdelete]
        simp
      · rename_i hdelete
        refine ih hrest ?_ _
        have hdeleting : Warranted W certificates (log ++ shown c ++ [.asked true])
            (.deleting c.sha256 true) :=
          ⟨iff_of_true rfl hdelete, c, hc, hname, rfl, hagreed⟩
        have hdeleted := eachAfter_concat.mpr ⟨hasked, hdeleting⟩
        have hsaid : Warranted W certificates
            (log ++ shown c ++ [.asked true] ++ [.deleting c.sha256 true]) (.said "  deleted") :=
          trivial
        have hall := eachAfter_concat.mpr ⟨hdeleted, hsaid⟩
        rwa [List.append_assoc _ [_] [_]] at hall
    · refine ih hrest (eachAfter_append hasked ?_) _
      rintro e he before
      rw [List.mem_singleton.mp he]
      trivial

/-- The loop goes through the certificates in their order: to the end, or to a deletion that
fails. -/
theorem offerEach_spec (W : World) (log : List Entry) (removed : ℕ) (candidates : List Listed) :
    (∃ answers, answers.length = candidates.length ∧ offerEach W log removed candidates =
      (log ++ (List.zipWith handled candidates answers).flatten,
        .ok (removed + answers.count true))) ∨
    ∃ earlier c rest answers why, candidates = earlier ++ c :: rest ∧
      answers.length = earlier.length ∧ offerEach W log removed candidates =
        (log ++ (List.zipWith handled earlier answers).flatten ++
          (shown c ++ [.asked true, .deleting c.sha256 false]), .error why) := by
  induction candidates generalizing log removed with
  | nil => exact .inl ⟨[], rfl, by simp [offerEach]⟩
  | cons c rest ih =>
    rw [offerEach]
    split_ifs with hyes
    · rw [hyes]
      split
      · rename_i why _
        exact .inr ⟨[], c, rest, [], why, rfl, rfl, by simp⟩
      · rcases ih (log ++ shown c ++ [.asked true] ++ [.deleting c.sha256 true, .said "  deleted"])
          (removed + 1) with
          ⟨answers, hlength, heq⟩ | ⟨earlier, d, after, answers, why, rfl, h, heq⟩
        · refine .inl ⟨true :: answers, congrArg (· + 1) hlength, heq.trans ?_⟩
          simp [handled, Nat.add_right_comm, ← Nat.add_assoc]
        · refine .inr ⟨c :: earlier, d, after, true :: answers, why, rfl, congrArg (· + 1) h,
            heq.trans ?_⟩
          simp [handled]
    · rw [Bool.not_eq_true] at hyes
      rw [hyes]
      rcases ih (log ++ shown c ++ [.asked false] ++ [.said "  kept"]) removed with
        ⟨answers, hlength, heq⟩ | ⟨earlier, d, after, answers, why, rfl, h, heq⟩
      · refine .inl ⟨false :: answers, congrArg (· + 1) hlength, heq.trans ?_⟩
        simp [handled]
      · refine .inr ⟨c :: earlier, d, after, false :: answers, why, rfl, congrArg (· + 1) h,
          heq.trans ?_⟩
        simp [handled]

/-- The keychain lists it. -/
def IsListed (certificates : List Listed) (sha256 : String) : Prop :=
  ∃ c ∈ certificates, eqIgnoreAsciiCase c.sha256 sha256 = true

instance (certificates : List Listed) (sha256 : String) :
    Decidable (IsListed certificates sha256) :=
  List.decidableBEx _ certificates

theorem lists_of_lists {output sha256 : String} (hfind : W.find log name = .ok output)
    (hlists : Lists certificates output) :
    lists W log sha256 = .ok (decide (IsListed certificates sha256)) := by
  rw [lists, hfind, Except.map, parse_of_lists hlists]
  congr 1
  rw [Bool.eq_iff_iff, List.any_eq_true, decide_eq_true_iff]
  rfl

theorem absentLine_ne_removedLine (W : World) (sha256 : String) :
    absentLine W sha256 ≠ removedLine W sha256 := by
  have habsent : (absentLine W sha256).toList.head? = some 'T' := by
    have hfirst : "This authority (SHA-256 ".toList = 'T' :: "his authority (SHA-256 ".toList := by
      decide
    unfold absentLine
    simp only [String.toList_append, hfirst, List.cons_append, List.head?_cons]
  have hremoved : (removedLine W sha256).toList.head? = some 'R' := by
    have hfirst : "Removed this authority (SHA-256 ".toList =
        'R' :: "emoved this authority (SHA-256 ".toList := by
      decide
    unfold removedLine
    simp only [String.toList_append, hfirst, List.cons_append, List.head?_cons]
  intro h
  rw [h, hremoved] at habsent
  exact absurd (Option.some.inj habsent) (by decide)

theorem lists_nil : Lists [] "" := ⟨by decide, [], .nil, rfl⟩

end Keychain

end Proxy

end Syndeo
