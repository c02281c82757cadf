import Mathlib.Data.List.TakeWhile
import Mathlib.Tactic.Common

/-!
# Reading from a buffer up to a separator

What is read comes through a buffer. A call that fills it may be interrupted, or fail,
or give some of the bytes that are left, at least one as long as there are any; and at
most so many bytes may be let through. How the bytes were cut is the reader's business:
`BufRead.Fill` says of each call what it does, and nothing else is known of it.

`BufRead.scan` works one buffer after another into what is kept, up to a separator or
the end. Where what is kept is a function of the bytes that came (`hafter`), the cuts do
not show: `BufRead.scanSpec` says what the loop comes to from the bytes alone. Nor do they
where so many bytes are read, and no others: `BufRead.exactSpec`.
-/

namespace BufRead

/-- What a call that fills the buffer does: `bytes more` gives one byte and `more` others,
or as many as there are. -/
inductive Fill
  | interrupted
  | failed
  | bytes (more : ℕ)
  deriving DecidableEq

/-- What is left to read, what the next calls do (when there is no more to say, all that is
left is in the buffer), and how many bytes are let through, if that is limited. -/
structure Reader (β : Type) where
  rest : List β
  fills : List Fill
  limit : Option ℕ

/-- What came of filling the buffer. -/
inductive Filled (β : Type)
  | interrupted
  | failed
  | bytes (buffer : List β)

namespace Reader

variable {β : Type} (r : Reader β)

/-- What is let through. -/
def visible : List β :=
  match r.limit with
  | none => r.rest
  | some n => r.rest.take n

/-- The buffer, filled if it was not. -/
def fill : Filled β × Reader β :=
  if r.limit = some 0 then (.bytes [], r)
  else
    match r.fills with
    | [] => (.bytes r.visible, r)
    | .interrupted :: fills => (.interrupted, { r with fills })
    | .failed :: fills => (.failed, { r with fills })
    | .bytes more :: fills => (.bytes (r.visible.take (more + 1)), { r with fills })

/-- So much of the buffer was used. -/
def consume (n : ℕ) : Reader β := { r with rest := r.rest.drop n, limit := r.limit.map (· - n) }

/-- So many bytes may be let through from here. -/
def setLimit (n : ℕ) : Reader β := { r with limit := some n }

/-- No call fails. -/
def Sound : Prop := .failed ∉ r.fills

/-- What there is to come, which bounds the calls. -/
def size : ℕ := r.rest.length + r.fills.length

@[simp] theorem rest_consume (n : ℕ) : (r.consume n).rest = r.rest.drop n := rfl

@[simp] theorem fills_consume (n : ℕ) : (r.consume n).fills = r.fills := rfl

@[simp] theorem limit_consume (n : ℕ) : (r.consume n).limit = r.limit.map (· - n) := rfl

@[simp] theorem rest_setLimit (n : ℕ) : (r.setLimit n).rest = r.rest := rfl

@[simp] theorem fills_setLimit (n : ℕ) : (r.setLimit n).fills = r.fills := rfl

@[simp] theorem visible_setLimit (n : ℕ) : (r.setLimit n).visible = r.rest.take n := rfl

theorem visible_consume (n : ℕ) : (r.consume n).visible = r.visible.drop n := by
  rcases hlimit : r.limit with _ | m <;> simp [visible, hlimit, List.drop_take]

/-- **So many bytes were used**, and nothing else: neither skipped nor read twice. -/
structure Uses (used : List β) (r r' : Reader β) : Prop where
  rest : r.rest = used ++ r'.rest
  visible : r.visible = used ++ r'.visible
  limit : r'.limit = r.limit.map (· - used.length)
  fills : r'.fills <:+ r.fills

variable {r} {r' r'' : Reader β} {used more : List β}

/-- What is let through is the beginning of what is left. -/
theorem visible_isPrefix : r.visible <+: r.rest := by
  rw [visible]
  split
  · exact List.prefix_rfl
  · exact List.take_prefix _ _

theorem Uses.refl (r : Reader β) : Uses [] r r :=
  ⟨rfl, rfl, Option.map_id'.symm ▸ rfl, List.suffix_rfl⟩

theorem Uses.trans (h : Uses used r r') (h' : Uses more r' r'') : Uses (used ++ more) r r'' where
  rest := by rw [h.rest, h'.rest, List.append_assoc]
  visible := by rw [h.visible, h'.visible, List.append_assoc]
  limit := by
    rw [h'.limit, h.limit, Option.map_map, List.length_append]
    exact congrArg (Option.map · r.limit) (funext fun n => Nat.sub_sub _ _ _)
  fills := h'.fills.trans h.fills

/-- The bytes of a buffer are used. -/
theorem uses_consume (h : used <+: r.visible) : Uses used r (r.consume used.length) where
  rest := by
    obtain ⟨rest, hrest⟩ := h.trans visible_isPrefix
    rw [rest_consume, ← hrest, List.drop_left]
  visible := by
    obtain ⟨rest, hrest⟩ := h
    rw [visible_consume, ← hrest, List.drop_left]
  limit := rfl
  fills := List.suffix_rfl

/-- Using something leaves less to come. -/
theorem Uses.size_lt (h : Uses used r r') (hne : used ≠ []) : r'.size < r.size := by
  have hpos : 0 < used.length := List.length_pos_iff.mpr hne
  have hlen : r.rest.length = used.length + r'.rest.length := by rw [h.rest, List.length_append]
  have hfills := h.fills.length_le
  rw [size, size]
  omega

theorem Uses.sound (h : Uses used r r') (hsound : r.Sound) : r'.Sound :=
  fun hmem => hsound (h.fills.mem hmem)

/-- What filling the buffer comes to: nothing is used by it. -/
inductive FillSpec (r : Reader β) : Filled β × Reader β → Prop
  | interrupted {r' : Reader β} (huses : Uses [] r r') (hsize : r'.size < r.size) :
    FillSpec r (.interrupted, r')
  | failed {r' : Reader β} (huses : Uses [] r r') (hfailed : .failed ∈ r.fills) : FillSpec r (.failed, r')
  | bytes {buffer : List β} {r' : Reader β} (huses : Uses [] r r') (hfront : buffer <+: r'.visible)
    (hnil : buffer = [] → r'.visible = []) : FillSpec r (.bytes buffer, r')

theorem fillSpec : FillSpec r r.fill := by
  have huses : ∀ fills, fills <:+ r.fills → Uses [] r { r with fills } := fun fills hfills =>
    ⟨rfl, rfl, by simp, hfills⟩
  rw [fill]
  split_ifs with hlimit
  · refine .bytes (huses _ List.suffix_rfl) List.nil_prefix fun _ => ?_
    rw [visible, hlimit]
    exact List.take_zero
  · split
    · exact .bytes (huses _ List.suffix_rfl) List.prefix_rfl id
    · next fills hfills =>
      exact .interrupted (huses fills (hfills ▸ List.suffix_cons _ _)) (by simp [size, hfills])
    · next fills hfills =>
      exact .failed (huses fills (hfills ▸ List.suffix_cons _ _)) (hfills ▸ List.mem_cons_self)
    · next more fills hfills =>
      refine .bytes (huses fills (hfills ▸ List.suffix_cons _ _)) (List.take_prefix _ _) fun hnil => ?_
      rcases List.take_eq_nil_iff.mp hnil with hzero | hvisible
      · exact absurd hzero (Nat.succ_ne_zero _)
      · exact hvisible

end Reader

open Reader

/-! ### So many bytes -/

section Exactly

variable {β : Type}

/-- **`read_exact`**: so many bytes, one buffer after another, behind those there are. It
gives none where the input ends before, or a call fails; an interrupted one is made again. -/
def readExact (n : ℕ) (got : List β) (r : Reader β) : Option (List β) × Reader β :=
  if n = 0 then (some got, r)
  else
    match _h : r.fill with
    | (.interrupted, r) => readExact n got r
    | (.failed, r) => (none, r)
    | (.bytes buffer, r) =>
      let part := buffer.take n
      if _hnil : part = [] then (none, r)
      else readExact (n - part.length) (got ++ part) (r.consume part.length)
termination_by r.size
decreasing_by
  · have hspec : FillSpec _ (.interrupted, r) := _h ▸ fillSpec
    cases hspec with
    | interrupted huses hsize => exact hsize
  · have hspec : FillSpec _ (.bytes buffer, r) := _h ▸ fillSpec
    cases hspec with
    | bytes huses hfront _ =>
      have hpart : part <+: r.visible := (List.take_prefix n buffer).trans hfront
      exact (huses.trans (uses_consume hpart)).size_lt (by simpa using _hnil)

/-- **What it comes to**: the bytes, and no more is used; or fewer are used than were asked
for, as there are no more or a call failed. -/
inductive ExactSpec (n : ℕ) (got : List β) (r : Reader β) : Option (List β) × Reader β → Prop
  | full {bytes : List β} {r' : Reader β} (huses : Uses bytes r r') (hlen : bytes.length = n) :
    ExactSpec n got r (some (got ++ bytes), r')
  | short {part : List β} {r' : Reader β} (huses : Uses part r r') (hlen : part.length < n)
    (hend : r'.visible = [] ∨ .failed ∈ r.fills) : ExactSpec n got r (none, r')

/-- Some of them came first. -/
theorem ExactSpec.cons {n : ℕ} {got part : List β} {r r' : Reader β}
    {out : Option (List β) × Reader β} (huses : Uses part r r') (hlen : part.length ≤ n)
    (h : ExactSpec (n - part.length) (got ++ part) r' out) : ExactSpec n got r out := by
  cases h with
  | full hmore hn =>
    rw [List.append_assoc]
    exact .full (huses.trans hmore) (by rw [List.length_append]; omega)
  | short hmore hn hend =>
    refine .short (huses.trans hmore) (by rw [List.length_append]; omega) ?_
    exact hend.imp_right fun hfailed => huses.fills.mem hfailed

/-- **The cuts do not show** here either. -/
theorem exactSpec (n : ℕ) (got : List β) (r : Reader β) :
    ExactSpec n got r (readExact n got r) := by
  induction hsize : r.size using Nat.strong_induction_on generalizing n got r with
  | _ size ih =>
    rw [readExact]
    split_ifs with hzero
    · have hfull : ExactSpec n got r (some (got ++ []), r) := .full (.refl r) hzero.symm
      rwa [List.append_nil] at hfull
    · split
      · next r' hfill =>
        have hspec : FillSpec r (.interrupted, r') := hfill ▸ fillSpec
        cases hspec with
        | interrupted huses hless =>
          refine .cons huses (Nat.zero_le n) ?_
          rw [List.append_nil]
          exact ih _ (hsize ▸ hless) n got r' rfl
      · next r' hfill =>
        have hspec : FillSpec r (.failed, r') := hfill ▸ fillSpec
        cases hspec with
        | failed huses hfailed =>
          exact .short huses (Nat.pos_of_ne_zero hzero) (.inr hfailed)
      · next buffer r' hfill =>
        have hspec : FillSpec r (.bytes buffer, r') := hfill ▸ fillSpec
        cases hspec with
        | bytes huses hfront hend =>
          dsimp only
          split_ifs with hnil
          · refine .short huses (Nat.pos_of_ne_zero hzero) (.inl (hend ?_))
            exact (List.take_eq_nil_iff.mp hnil).resolve_left hzero
          · have hpart : buffer.take n <+: r'.visible := (List.take_prefix n buffer).trans hfront
            have hused := huses.trans (uses_consume hpart)
            refine .cons hused (List.length_take_le n buffer) ?_
            exact ih _ (hsize ▸ hused.size_lt hnil) _ _ _ rfl

/-- Where no call fails, so many bytes are read as soon as there are so many. -/
theorem readExact_of_sound {n : ℕ} {r : Reader β} (hsound : r.Sound)
    (hlen : n ≤ r.visible.length) : ∃ r', readExact n [] r = (some (r.visible.take n), r') ∧
      Uses (r.visible.take n) r r' := by
  have hspec := exactSpec n [] r
  generalize readExact n [] r = out at hspec
  cases hspec with
  | @full bytes r' huses hn =>
    have htake : r.visible.take n = bytes := by rw [huses.visible, List.take_left' hn]
    rw [htake]
    exact ⟨r', rfl, huses⟩
  | short huses hn hend =>
    rcases hend with hend | hfailed
    · rw [huses.visible, hend, List.append_nil] at hlen
      exact absurd hlen (Nat.not_le_of_lt hn)
    · exact absurd hfailed hsound

end Exactly

/-! ### The loop -/

/-- What ended the loop. -/
inductive Ended
  | separator
  | input
  | failed
  deriving DecidableEq

/-- What one pass of it comes to. -/
inductive Pass (σ β : Type)
  | again (s : σ) (r : Reader β)
  | ended (how : Ended) (s : σ) (r : Reader β)

variable {σ β : Type} [DecidableEq β]

section

variable (sep : β) (work : σ → List β → σ)

/-- **One pass**: a buffer is worked in up to a separator, which is used up as well. An
interrupted call is made again. -/
def pass (s : σ) (r : Reader β) : Pass σ β :=
  match r.fill with
  | (.interrupted, r) => .again s r
  | (.failed, r) => .ended .failed s r
  | (.bytes buffer, r) =>
    let part := buffer.takeWhile (· != sep)
    if buffer = [] then .ended .input s r
    else if sep ∈ buffer then .ended .separator (work s part) (r.consume (part.length + 1))
    else .again (work s part) (r.consume part.length)

/-- **What a pass can do**: go on, with more of the bytes or with none; find the separator,
come to the end, or fail. -/
inductive PassSpec (s : σ) (r : Reader β) : Pass σ β → Prop
  | interrupted {r' : Reader β} (huses : Uses [] r r') (hsize : r'.size < r.size) : PassSpec s r (.again s r')
  | part {part : List β} {r' : Reader β} (huses : Uses part r r') (hne : part ≠ []) (hsep : sep ∉ part) :
    PassSpec s r (.again (work s part) r')
  | separator {part : List β} {r' : Reader β} (huses : Uses (part ++ [sep]) r r') (hsep : sep ∉ part) :
    PassSpec s r (.ended .separator (work s part) r')
  | input {r' : Reader β} (huses : Uses [] r r') (hnil : r'.visible = []) : PassSpec s r (.ended .input s r')
  | failed {r' : Reader β} (huses : Uses [] r r') (hfailed : .failed ∈ r.fills) :
    PassSpec s r (.ended .failed s r')

variable {sep work}

/-- A list is what is before the separator and, if it has one, the rest from there. -/
theorem eq_takeWhile_append {l : List β} (h : sep ∈ l) :
    ∃ rest, l = l.takeWhile (· != sep) ++ sep :: rest := by
  induction l with
  | nil => exact absurd h List.not_mem_nil
  | cons b l ih =>
    rcases eq_or_ne b sep with rfl | hb
    · exact ⟨l, by simp⟩
    · obtain ⟨rest, hrest⟩ := ih (List.mem_of_ne_of_mem hb.symm h)
      exact ⟨rest, by simp [hb, ← hrest]⟩

theorem not_mem_takeWhile {l : List β} : sep ∉ l.takeWhile (· != sep) := fun h => by
  simpa using List.mem_takeWhile_imp h

theorem passSpec (s : σ) (r : Reader β) : PassSpec sep work s r (pass sep work s r) := by
  rw [pass]
  rcases hfill : r.fill with ⟨filled, r'⟩
  have hspec : FillSpec r (filled, r') := hfill ▸ fillSpec
  cases hspec with
  | interrupted huses hsize => exact .interrupted huses hsize
  | failed huses hfailed => exact .failed huses hfailed
  | @bytes buffer _ huses hfront hnil =>
    dsimp only
    split_ifs with hempty hsep
    · exact .input huses (hnil hempty)
    · obtain ⟨rest, hrest⟩ := eq_takeWhile_append hsep
      have hpart : buffer.takeWhile (· != sep) ++ [sep] <+: r'.visible :=
        List.IsPrefix.trans ⟨rest, by rw [List.append_assoc]; exact hrest.symm⟩ hfront
      have := huses.trans (uses_consume hpart)
      rw [List.length_append] at this
      exact .separator this not_mem_takeWhile
    · have hall : buffer.takeWhile (· != sep) = buffer :=
        List.takeWhile_eq_self_iff.mpr fun b hb => by
        rw [bne_iff_ne]
        rintro rfl
        exact hsep hb
      rw [hall]
      exact .part (huses.trans (uses_consume hfront)) hempty hsep

/-- What is gone on with is less. -/
theorem size_lt_of_pass {s s' : σ} {r r' : Reader β} (h : pass sep work s r = .again s' r') :
    r'.size < r.size := by
  have hspec : PassSpec sep work s r (pass sep work s r) := passSpec s r
  rw [h] at hspec
  cases hspec with
  | interrupted huses hsize => exact hsize
  | part huses hne hsep => exact huses.size_lt hne

variable (sep work)

/-- **The loop**, up to a separator or the end. -/
def scan (s : σ) (r : Reader β) : Ended × σ × Reader β :=
  match _h : pass sep work s r with
  | .again s r => scan s r
  | .ended how s r => (how, s, r)
termination_by r.size
decreasing_by exact size_lt_of_pass (by assumption)

/-- All that is kept, at every moment of it. -/
def kept (s : σ) (r : Reader β) : List σ :=
  s :: match _h : pass sep work s r with
    | .again s r => kept s r
    | .ended _ s _ => [s]
termination_by r.size
decreasing_by exact size_lt_of_pass (by assumption)

end

section After

variable {sep : β} {work : σ → List β → σ} {g : List β → σ}

/-- **What the loop comes to**, where what is kept is `g` of the bytes that came. -/
inductive ScanSpec (sep : β) (g : List β → σ) (seen : List β) (r : Reader β) :
    Ended × σ × Reader β → Prop
  | separator {part : List β} {r' : Reader β} (huses : Uses (part ++ [sep]) r r')
    (hsep : sep ∉ part) : ScanSpec sep g seen r (.separator, g (seen ++ part), r')
  | input {part : List β} {r' : Reader β} (huses : Uses part r r') (hnil : r'.visible = [])
    (hsep : sep ∉ part) : ScanSpec sep g seen r (.input, g (seen ++ part), r')
  | failed {part : List β} {r' : Reader β} (huses : Uses part r r') (hfailed : .failed ∈ r.fills) :
    ScanSpec sep g seen r (.failed, g (seen ++ part), r')

omit [DecidableEq β] in
/-- More came first. -/
theorem ScanSpec.cons {seen part : List β} {r r' : Reader β} {out : Ended × σ × Reader β}
    (huses : Uses part r r') (hsep : sep ∉ part) (h : ScanSpec sep g (seen ++ part) r' out) :
    ScanSpec sep g seen r out := by
  have hnot : ∀ {more : List β}, sep ∉ more → sep ∉ part ++ more := fun hmore hmem =>
    (List.mem_append.mp hmem).elim hsep hmore
  cases h with
  | separator hmore hnone =>
    rw [List.append_assoc]
    exact .separator (by rw [List.append_assoc]; exact huses.trans hmore) (hnot hnone)
  | input hmore hnil hnone =>
    rw [List.append_assoc]
    exact .input (huses.trans hmore) hnil (hnot hnone)
  | failed hmore hfailed =>
    rw [List.append_assoc]
    exact .failed (huses.trans hmore) (huses.fills.mem hfailed)

omit [DecidableEq β] in
theorem ScanSpec.exists_kept {seen : List β} {r : Reader β} {out : Ended × σ × Reader β}
    (h : ScanSpec sep g seen r out) : ∃ part, part <+: r.visible ∧ out.2.1 = g (seen ++ part) := by
  cases h with
  | @separator part r' huses _ =>
    exact ⟨part, ⟨[sep] ++ r'.visible, by rw [huses.visible, List.append_assoc]⟩, rfl⟩
  | @input part r' huses _ _ => exact ⟨part, ⟨r'.visible, huses.visible.symm⟩, rfl⟩
  | @failed part r' huses _ => exact ⟨part, ⟨r'.visible, huses.visible.symm⟩, rfl⟩

variable (hafter : ∀ seen part, work (g seen) part = g (seen ++ part)) {seen : List β}
  {r r' : Reader β} {s : σ}
include hafter

/-- Gone on with, more of the bytes have come. -/
theorem again_of_pass (h : pass sep work (g seen) r = .again s r') :
    ∃ part, s = g (seen ++ part) ∧ Uses part r r' ∧ sep ∉ part := by
  have hspec : PassSpec sep work (g seen) r (pass sep work (g seen) r) := passSpec (g seen) r
  rw [h] at hspec
  generalize hs : g seen = s₀ at hspec
  cases hspec with
  | interrupted huses _ => exact ⟨[], by rw [List.append_nil, hs], huses, List.not_mem_nil⟩
  | @part part _ huses _ hsep => exact ⟨part, by rw [← hs, hafter], huses, hsep⟩

/-- Ended, the loop has come to what it comes to. -/
theorem ended_of_pass {how : Ended} (h : pass sep work (g seen) r = .ended how s r') :
    ScanSpec sep g seen r (how, s, r') := by
  have hspec : PassSpec sep work (g seen) r (pass sep work (g seen) r) := passSpec (g seen) r
  rw [h] at hspec
  have hnone : g (seen ++ []) = g seen := by rw [List.append_nil]
  generalize hs : g seen = s₀ at hspec hnone
  cases hspec with
  | separator huses hsep =>
    rw [← hs, hafter]
    exact .separator huses hsep
  | input huses hnil =>
    rw [← hnone]
    exact .input huses hnil List.not_mem_nil
  | failed huses hfailed =>
    rw [← hnone]
    exact .failed huses hfailed

/-- **The cuts do not show.** -/
theorem scanSpec (seen : List β) (r : Reader β) :
    ScanSpec sep g seen r (scan sep work (g seen) r) := by
  induction hn : r.size using Nat.strong_induction_on generalizing seen r with
  | _ n ih =>
    rw [scan]
    split
    · next s r' hpass =>
      obtain ⟨part, rfl, huses, hsep⟩ := again_of_pass hafter hpass
      exact .cons huses hsep (ih _ (hn ▸ size_lt_of_pass hpass) _ _ rfl)
    · next how s r' hpass => exact ended_of_pass hafter hpass

/-- All that is kept at some moment is what is kept of some of the bytes. -/
theorem eq_of_mem_kept (seen : List β) (r : Reader β) (hs : s ∈ kept sep work (g seen) r) :
    ∃ part, part <+: r.visible ∧ s = g (seen ++ part) := by
  induction hn : r.size using Nat.strong_induction_on generalizing seen r with
  | _ n ih =>
    rw [kept] at hs
    rcases List.mem_cons.mp hs with rfl | hs
    · exact ⟨[], List.nil_prefix, by rw [List.append_nil]⟩
    · split at hs
      · next s' r' hpass =>
        obtain ⟨part, rfl, huses, hsep⟩ := again_of_pass hafter hpass
        obtain ⟨more, hmore, rfl⟩ := ih _ (hn ▸ size_lt_of_pass hpass) _ _ hs rfl
        refine ⟨part ++ more, ?_, by rw [List.append_assoc]⟩
        rw [huses.visible]
        exact (List.prefix_append_right_inj part).mpr hmore
      · next how s' r' hpass =>
        obtain rfl := List.mem_singleton.mp hs
        exact (ended_of_pass hafter hpass).exists_kept

end After

end BufRead
