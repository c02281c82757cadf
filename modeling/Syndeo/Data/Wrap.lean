import Mathlib.Algebra.BigOperators.Group.List.Basic
import Mathlib.Algebra.Order.Ring.Nat
import Mathlib.Data.List.Basic
import Mathlib.Tactic.Common

/-!
# Wrapping a text to lines

A text is split at a separator, and what is longer than the width is cut into
pieces of the width. The lines that come out do not tell where one was cut from
the next and where a separator stood: where a line is full and the one after it
is not empty, it could be either.

`Wrap.Piece` keeps what the lines forget. The pieces of a text
(`Wrap.pieces`) are its lines, each with whether it goes on in the next one, and
a text is determined by them (`Wrap.unwrap`). Among the texts of the same lines
and the same weight – the same number of separators, that is – a text is the only
one exactly if all the joints that could be either are of one kind
(`Wrap.unique_iff`).
-/

namespace Wrap

variable {α : Type} {w : ℕ}

/-! ### Lines -/

/-- Pieces of `w` elements, the last of which may be shorter: `slice::chunks`. -/
def chunks (w : ℕ) : List α → List (List α)
  | [] => []
  | a :: l => (a :: l.take (w - 1)) :: chunks w (l.drop (w - 1))
termination_by l => l.length
decreasing_by simp only [List.length_drop, List.length_cons]; omega

theorem chunks_of_length_le {l : List α} (hl : l ≠ []) (h : l.length ≤ w) : chunks w l = [l] := by
  rcases l with _ | ⟨a, l⟩
  · exact absurd rfl hl
  · rw [List.length_cons] at h
    rw [chunks, List.take_of_length_le (by omega), List.drop_of_length_le (by omega), chunks]

theorem chunks_of_lt {l : List α} (hw : 0 < w) (h : w < l.length) :
    chunks w l = l.take w :: chunks w (l.drop w) := by
  obtain ⟨w, rfl⟩ : ∃ v, w = v + 1 := ⟨w - 1, by omega⟩
  rcases l with _ | ⟨a, l⟩
  · simp at h
  · rw [chunks, Nat.add_sub_cancel, List.take_succ_cons, List.drop_succ_cons]

/-- **Cutting loses nothing.** -/
@[simp] theorem flatten_chunks (l : List α) : (chunks w l).flatten = l := by
  fun_induction chunks w l with
  | case1 => rfl
  | case2 a l ih =>
    rw [List.flatten_cons, ih, List.cons_append, List.take_append_drop]

theorem chunks_injective : Function.Injective (chunks w : List α → List (List α)) := fun l m h => by
  rw [← flatten_chunks (w := w) l, h, flatten_chunks]

theorem length_le_of_mem_chunks {l : List α} (hw : 0 < w) : ∀ c ∈ chunks w l, c.length ≤ w := by
  fun_induction chunks w l with
  | case1 => simp
  | case2 a l ih =>
    rintro c (_ | ⟨_, hc⟩)
    · rw [List.length_cons, List.length_take]
      omega
    · exact ih c hc

/-- The lines of what is between two separators. -/
def wrapLine (w : ℕ) : List α → List (List α)
  | [] => [[]]
  | s => chunks w s

theorem wrapLine_of_length_le {s : List α} (h : s.length ≤ w) : wrapLine w s = [s] := by
  rcases s with _ | ⟨a, s⟩
  · rfl
  · exact chunks_of_length_le (by simp) h

theorem wrapLine_of_lt {s : List α} (hw : 0 < w) (h : w < s.length) :
    wrapLine w s = s.take w :: wrapLine w (s.drop w) := by
  have hrest : wrapLine w (s.drop w) = chunks w (s.drop w) := by
    rcases hdrop : s.drop w with _ | ⟨a, l⟩
    · rw [List.drop_eq_nil_iff] at hdrop
      omega
    · rfl
  rw [hrest, ← chunks_of_lt hw h]
  rcases s with _ | ⟨a, s⟩
  · simp at h
  · rfl

/-- **The lines of a text.** -/
def wrap [DecidableEq α] (sep : α) (w : ℕ) (t : List α) : List (List α) :=
  (t.splitOn sep).flatMap (wrapLine w)

/-! ### Pieces -/

/-- A line, and whether it goes on in the next one. -/
structure Piece (α : Type) where
  line : List α
  goesOn : Bool

/-- The pieces of what is between two separators. -/
def linePieces (w : ℕ) (s : List α) : List (Piece α) :=
  if _h : 0 < w ∧ w < s.length then ⟨s.take w, true⟩ :: linePieces w (s.drop w) else [⟨s, false⟩]
termination_by s.length
decreasing_by rw [List.length_drop]; omega

theorem linePieces_of_length_le {s : List α} (h : s.length ≤ w) :
    linePieces w s = [⟨s, false⟩] := by
  rw [linePieces, dif_neg (by omega)]

theorem linePieces_of_lt {s : List α} (hw : 0 < w) (h : w < s.length) :
    linePieces w s = ⟨s.take w, true⟩ :: linePieces w (s.drop w) := by
  rw [linePieces, dif_pos ⟨hw, h⟩]

theorem map_line_linePieces (hw : 0 < w) (s : List α) :
    (linePieces w s).map Piece.line = wrapLine w s := by
  fun_induction linePieces w s with
  | case1 s h ih => rw [List.map_cons, ih, wrapLine_of_lt hw h.2]
  | case2 s h =>
    rw [wrapLine_of_length_le (by omega)]
    rfl

/-- There is a first piece, which begins as the line does. -/
theorem linePieces_eq_cons (hw : 0 < w) (s : List α) :
    ∃ p rest, linePieces w s = p :: rest ∧ (p.line = [] ↔ s = []) := by
  obtain h | h := le_or_gt s.length w
  · exact ⟨_, [], linePieces_of_length_le h, Iff.rfl⟩
  · refine ⟨_, _, linePieces_of_lt hw h, ?_⟩
    rw [List.take_eq_nil_iff]
    constructor
    · rintro (rfl | hs)
      · omega
      · exact hs
    · exact Or.inr

/-- **The pieces of a text.** -/
def pieces [DecidableEq α] (sep : α) (w : ℕ) (t : List α) : List (Piece α) :=
  (t.splitOn sep).flatMap (linePieces w)

/-- The text that pieces come from. -/
def unwrap (sep : α) : List (Piece α) → List α
  | [] => []
  | [p] => p.line
  | p :: q :: rest => p.line ++ ((if p.goesOn then [] else [sep]) ++ unwrap sep (q :: rest))

/-- Pieces as they come out: what goes on is full, and what it goes on with is not
empty; the last one does not go on. -/
inductive Laid (sep : α) (w : ℕ) : List (Piece α) → Prop
  | last {l : List α} (hsep : sep ∉ l) (hl : l.length ≤ w) : Laid sep w [⟨l, false⟩]
  | broken {l : List α} {q : Piece α} {rest : List (Piece α)} (hsep : sep ∉ l) (hl : l.length ≤ w)
    (hrest : Laid sep w (q :: rest)) : Laid sep w (⟨l, false⟩ :: q :: rest)
  | goesOn {l : List α} {q : Piece α} {rest : List (Piece α)} (hsep : sep ∉ l) (hl : l.length = w)
    (hq : q.line ≠ []) (hrest : Laid sep w (q :: rest)) : Laid sep w (⟨l, true⟩ :: q :: rest)

variable {sep : α} {s t : List α} {p q : Piece α} {ps qs : List (Piece α)}

/-- The pieces of a last line. -/
theorem laid_linePieces (hw : 0 < w) (hs : sep ∉ s) : Laid sep w (linePieces w s) ∧
    unwrap sep (linePieces w s) = s := by
  fun_induction linePieces w s with
  | case1 s h ih =>
    obtain ⟨hlaid, htext⟩ := ih fun hm => hs (List.mem_of_mem_drop hm)
    obtain ⟨q, rest, hpieces, hq⟩ := linePieces_eq_cons hw (s.drop w)
    rw [hpieces] at hlaid htext ⊢
    have hdrop : s.drop w ≠ [] := by
      rw [ne_eq, List.drop_eq_nil_iff]
      omega
    refine ⟨.goesOn (fun hm => hs (List.mem_of_mem_take hm)) ?_ (mt hq.mp hdrop) hlaid, ?_⟩
    · rw [List.length_take]
      omega
    · rw [unwrap, htext]
      exact List.take_append_drop w s
  | case2 s h => exact ⟨.last hs (by omega), rfl⟩

/-- The pieces of a line, and those of what comes after it. -/
theorem laid_linePieces_append (hw : 0 < w) (hs : sep ∉ s) (hrest : Laid sep w (q :: qs)) :
    Laid sep w (linePieces w s ++ q :: qs) ∧
      unwrap sep (linePieces w s ++ q :: qs) = s ++ sep :: unwrap sep (q :: qs) := by
  fun_induction linePieces w s with
  | case1 s h ih =>
    obtain ⟨hlaid, htext⟩ := ih fun hm => hs (List.mem_of_mem_drop hm)
    obtain ⟨p, rest, hpieces, hp⟩ := linePieces_eq_cons hw (s.drop w)
    rw [hpieces] at hlaid htext ⊢
    have hdrop : s.drop w ≠ [] := by
      rw [ne_eq, List.drop_eq_nil_iff]
      omega
    refine ⟨.goesOn (fun hm => hs (List.mem_of_mem_take hm)) ?_ (mt hp.mp hdrop) hlaid, ?_⟩
    · rw [List.length_take]
      omega
    · rw [List.cons_append, List.cons_append, unwrap, ← List.cons_append, htext]
      change s.take w ++ (s.drop w ++ _) = _
      rw [← List.append_assoc, List.take_append_drop]
  | case2 s h => exact ⟨.broken hs (by omega) hrest, rfl⟩

/-! ### Joints

Where a full line is followed by one that is not empty, the first may go on in the
second, or end there.
-/

/-- The joints of some lines that could be either. -/
def joints (w : ℕ) : List (List α) → ℕ
  | l :: m :: rest => (if l.length = w ∧ m ≠ [] then 1 else 0) + joints w (m :: rest)
  | _ => 0

/-- The joints where a line goes on. -/
def goings (ps : List (Piece α)) : ℕ := ps.countP Piece.goesOn

/-- The joints where a line could go on, and ends. -/
def breaks (w : ℕ) : List (Piece α) → ℕ
  | p :: q :: rest =>
    (if p.goesOn = false ∧ p.line.length = w ∧ q.line ≠ [] then 1 else 0) + breaks w (q :: rest)
  | _ => 0

theorem breaks_false {l : List α} : breaks w (⟨l, false⟩ :: q :: ps) =
    (if l.length = w ∧ q.line ≠ [] then 1 else 0) + breaks w (q :: ps) := by
  simp [breaks]

theorem breaks_true {l : List α} : breaks w (⟨l, true⟩ :: q :: ps) = breaks w (q :: ps) := by
  simp [breaks]

@[simp] theorem goings_false {l : List α} : goings (⟨l, false⟩ :: ps) = goings ps := by
  simp [goings]

@[simp] theorem goings_true {l : List α} : goings (⟨l, true⟩ :: ps) = goings ps + 1 := by
  simp [goings]

/-- The joints that could be either are those of one kind and those of the other. -/
theorem goings_add_breaks (h : Laid sep w ps) :
    goings ps + breaks w ps = joints w (ps.map Piece.line) := by
  induction h with
  | last hsep hl => rfl
  | broken hsep hl hrest ih =>
    rw [List.map_cons] at ih
    rw [goings_false, breaks_false, List.map_cons, List.map_cons, joints, ← ih]
    dsimp only
    omega
  | goesOn hsep hl hq hrest ih =>
    rw [List.map_cons] at ih
    rw [goings_true, breaks_true, List.map_cons, List.map_cons, joints, ← ih]
    dsimp only
    rw [if_pos ⟨hl, hq⟩]
    omega

theorem ext_of_goings (hlines : ps.map Piece.line = qs.map Piece.line) (hps : goings ps = 0)
    (hqs : goings qs = 0) : ps = qs := by
  induction ps generalizing qs with
  | nil => exact (List.map_eq_nil_iff.mp hlines.symm).symm
  | cons p ps ih =>
    rcases qs with _ | ⟨q, qs⟩
    · exact absurd hlines (by simp)
    · obtain ⟨hline, hrest⟩ := List.cons.inj hlines
      obtain ⟨l, _ | _⟩ := p
      · obtain ⟨m, _ | _⟩ := q
        · rw [goings_false] at hps hqs
          obtain rfl : l = m := hline
          rw [ih hrest hps hqs]
        · simp at hqs
      · simp at hps

theorem ext_of_breaks (hps : Laid sep w ps) (hqs : Laid sep w qs)
    (hlines : ps.map Piece.line = qs.map Piece.line) (hbreaks : breaks w ps = 0)
    (hbreaks' : breaks w qs = 0) : ps = qs := by
  induction hps generalizing qs with
  | @last l hsep hl =>
    rcases hqs with @⟨m, hsep', hl'⟩ | _ | _
    · obtain rfl : l = m := (List.cons.inj hlines).1
      rfl
    · simp at hlines
    · simp at hlines
  | @broken l q rest hsep hl hrest ih =>
    rcases hqs with _ | @⟨m, q', rest', hsep', hl', hrest'⟩ | @⟨m, q', rest', hsep', hl', hq', hrest'⟩
    · simp at hlines
    · obtain ⟨hline, hlater⟩ := List.cons.inj hlines
      obtain rfl : l = m := hline
      rw [breaks_false] at hbreaks hbreaks'
      rw [ih hrest' hlater (by omega) (by omega)]
    · obtain ⟨hline, hlater⟩ := List.cons.inj hlines
      obtain rfl : l = m := hline
      rw [← (List.cons.inj hlater).1] at hq'
      rw [breaks_false, if_pos ⟨hl', hq'⟩] at hbreaks
      omega
  | @goesOn l q rest hsep hl hq hrest ih =>
    rcases hqs with _ | @⟨m, q', rest', hsep', hl', hrest'⟩ | @⟨m, q', rest', hsep', hl', hq', hrest'⟩
    · simp at hlines
    · obtain ⟨hline, hlater⟩ := List.cons.inj hlines
      obtain rfl : l = m := hline
      rw [(List.cons.inj hlater).1] at hq
      rw [breaks_false, if_pos ⟨hl, hq⟩] at hbreaks'
      omega
    · obtain ⟨hline, hlater⟩ := List.cons.inj hlines
      obtain rfl : l = m := hline
      rw [breaks_true] at hbreaks hbreaks'
      rw [ih hrest' hlater hbreaks hbreaks']

/-- **The lines, and how many of them go on**, determine the pieces where none goes
on, or none that could ends. -/
theorem Laid.ext (hps : Laid sep w ps) (hqs : Laid sep w qs)
    (hlines : ps.map Piece.line = qs.map Piece.line) (hgoings : goings ps = goings qs)
    (hkind : goings ps = 0 ∨ breaks w ps = 0) : ps = qs := by
  have hjoints : goings ps + breaks w ps = goings qs + breaks w qs := by
    rw [goings_add_breaks hps, goings_add_breaks hqs, hlines]
  obtain hgoings' | hbreaks := hkind
  · exact ext_of_goings hlines hgoings' (by omega)
  · exact ext_of_breaks hps hqs hlines hbreaks (by omega)

/-- One line more goes on. -/
theorem Laid.exists_raised (h : Laid sep w ps) (hbreaks : 0 < breaks w ps) :
    ∃ qs, Laid sep w qs ∧ qs.map Piece.line = ps.map Piece.line ∧ goings qs = goings ps + 1 := by
  induction h with
  | last hsep hl => simp [breaks] at hbreaks
  | @broken l q rest hsep hl hrest ih =>
    by_cases hjoint : l.length = w ∧ q.line ≠ []
    · exact ⟨⟨l, true⟩ :: q :: rest, .goesOn hsep hjoint.1 hjoint.2 hrest, rfl, by simp⟩
    · rw [breaks_false, if_neg hjoint, Nat.zero_add] at hbreaks
      obtain ⟨qs, hqs, hlines, hgoings⟩ := ih hbreaks
      rcases qs with _ | ⟨p, qs⟩
      · simp at hlines
      · refine ⟨⟨l, false⟩ :: p :: qs, .broken hsep hl hqs, congrArg (l :: ·) hlines, ?_⟩
        rw [goings_false, goings_false, hgoings]
  | @goesOn l q rest hsep hl hq hrest ih =>
    rw [breaks_true] at hbreaks
    obtain ⟨qs, hqs, hlines, hgoings⟩ := ih hbreaks
    rcases qs with _ | ⟨p, qs⟩
    · simp at hlines
    · rw [← (List.cons.inj hlines).1] at hq
      refine ⟨⟨l, true⟩ :: p :: qs, .goesOn hsep hl hq hqs, congrArg (l :: ·) hlines, ?_⟩
      rw [goings_true, goings_true, hgoings]

/-- One line fewer goes on. -/
theorem Laid.exists_lowered (h : Laid sep w ps) (hgoings : 0 < goings ps) :
    ∃ qs, Laid sep w qs ∧ qs.map Piece.line = ps.map Piece.line ∧ goings qs + 1 = goings ps := by
  induction h with
  | last hsep hl => simp [goings] at hgoings
  | @broken l q rest hsep hl hrest ih =>
    rw [goings_false] at hgoings
    obtain ⟨qs, hqs, hlines, hfewer⟩ := ih hgoings
    rcases qs with _ | ⟨p, qs⟩
    · simp at hlines
    · refine ⟨⟨l, false⟩ :: p :: qs, .broken hsep hl hqs, congrArg (l :: ·) hlines, ?_⟩
      rw [goings_false, goings_false, hfewer]
  | @goesOn l q rest hsep hl hq hrest ih =>
    exact ⟨⟨l, false⟩ :: q :: rest, .broken hsep hl.le hrest, rfl, by simp⟩

/-- **Joints of both kinds can be exchanged.** -/
theorem Laid.exists_ne (h : Laid sep w ps) (hgoings : 0 < goings ps) (hbreaks : 0 < breaks w ps) :
    ∃ qs, Laid sep w qs ∧ qs.map Piece.line = ps.map Piece.line ∧ goings qs = goings ps ∧
      qs ≠ ps := by
  induction h with
  | last hsep hl => simp [breaks] at hbreaks
  | @broken l q rest hsep hl hrest ih =>
    rw [goings_false] at hgoings
    by_cases hrestBreaks : 0 < breaks w (q :: rest)
    · obtain ⟨qs, hqs, hlines, hsame, hne⟩ := ih hgoings hrestBreaks
      rcases qs with _ | ⟨p, qs⟩
      · simp at hlines
      · refine ⟨⟨l, false⟩ :: p :: qs, .broken hsep hl hqs, congrArg (l :: ·) hlines, ?_, ?_⟩
        · rw [goings_false, goings_false, hsame]
        · exact fun heq => hne (List.cons.inj heq).2
    · -- the break is here: the line goes on instead of a later one
      have hjoint : l.length = w ∧ q.line ≠ [] := by
        by_contra hnone
        rw [breaks_false, if_neg hnone] at hbreaks
        omega
      obtain ⟨qs, hqs, hlines, hfewer⟩ := hrest.exists_lowered hgoings
      rcases qs with _ | ⟨p, qs⟩
      · simp at hlines
      · have hp : p.line ≠ [] := by
          rw [(List.cons.inj hlines).1]
          exact hjoint.2
        refine ⟨⟨l, true⟩ :: p :: qs, .goesOn hsep hjoint.1 hp hqs, congrArg (l :: ·) hlines, ?_, ?_⟩
        · rw [goings_true, goings_false, hfewer]
        · exact fun heq => nomatch congrArg Piece.goesOn (List.cons.inj heq).1
  | @goesOn l q rest hsep hl hq hrest ih =>
    rw [breaks_true] at hbreaks
    -- the line ends here, and a later one goes on
    obtain ⟨qs, hqs, hlines, hmore⟩ := hrest.exists_raised hbreaks
    rcases qs with _ | ⟨p, qs⟩
    · simp at hlines
    · refine ⟨⟨l, false⟩ :: p :: qs, .broken hsep hl.le hqs, congrArg (l :: ·) hlines, ?_, ?_⟩
      · rw [goings_false, goings_true, hmore]
      · exact fun heq => nomatch congrArg Piece.goesOn (List.cons.inj heq).1

/-- What begins with a line that is not empty does not begin with a separator. -/
theorem Laid.head?_unwrap (h : Laid sep w (q :: qs)) (hq : q.line ≠ []) :
    (unwrap sep (q :: qs)).head? ≠ some sep := by
  have hmem : ∀ {l m : List α}, l ≠ [] → sep ∉ l → (l ++ m).head? ≠ some sep := by
    intro l m hl hsep
    rcases l with _ | ⟨a, l⟩
    · exact absurd rfl hl
    · exact fun ha => hsep (Option.some.inj ha ▸ List.mem_cons_self)
  cases h with
  | last hsep hl =>
    have hhead := hmem (m := []) hq hsep
    rwa [List.append_nil] at hhead
  | broken hsep hl hrest => exact hmem hq hsep
  | goesOn hsep hl hq' hrest => exact hmem hq hsep

/-- **The lines and the text determine the pieces.** -/
theorem Laid.unwrap_inj (hps : Laid sep w ps) (hqs : Laid sep w qs)
    (hlines : ps.map Piece.line = qs.map Piece.line) (htext : unwrap sep ps = unwrap sep qs) :
    ps = qs := by
  induction hps generalizing qs with
  | @last l hsep hl =>
    rcases hqs with @⟨m, hsep', hl'⟩ | _ | _
    · obtain rfl : l = m := (List.cons.inj hlines).1
      rfl
    · simp at hlines
    · simp at hlines
  | @broken l q rest hsep hl hrest ih =>
    rcases hqs with _ | @⟨m, q', rest', hsep', hl', hrest'⟩ | @⟨m, q', rest', hsep', hl', hq', hrest'⟩
    · simp at hlines
    · obtain ⟨hline, hlater⟩ := List.cons.inj hlines
      obtain rfl : l = m := hline
      rw [ih hrest' hlater (List.cons.inj (List.append_cancel_left htext)).2]
    · obtain ⟨hline, hlater⟩ := List.cons.inj hlines
      obtain rfl : l = m := hline
      have hhead := congrArg List.head? (List.append_cancel_left htext)
      exact absurd hhead.symm (hrest'.head?_unwrap hq')
  | @goesOn l q rest hsep hl hq hrest ih =>
    rcases hqs with _ | @⟨m, q', rest', hsep', hl', hrest'⟩ | @⟨m, q', rest', hsep', hl', hq', hrest'⟩
    · simp at hlines
    · obtain ⟨hline, hlater⟩ := List.cons.inj hlines
      obtain rfl : l = m := hline
      have hhead := congrArg List.head? (List.append_cancel_left htext)
      exact absurd hhead (hrest.head?_unwrap hq)
    · obtain ⟨hline, hlater⟩ := List.cons.inj hlines
      obtain rfl : l = m := hline
      rw [ih hrest' hlater (List.append_cancel_left htext)]

/-! ### Texts and their pieces -/

section

variable [DecidableEq α]

/-- What comes before the first separator becomes part of the first part. -/
theorem splitOn_append {l : List α} (hsep : sep ∉ l) :
    (l ++ t).splitOn sep = (t.splitOn sep).modifyHead (l ++ ·) := by
  induction l with
  | nil =>
    rw [List.nil_append]
    exact (congrFun List.modifyHead_id _).symm
  | cons a l ih =>
    have ha : a ≠ sep := fun heq => hsep (heq ▸ List.mem_cons_self)
    rw [List.cons_append, List.splitOn_cons_eq_if_modifyHead, if_neg (by simpa using ha),
      ih fun hm => hsep (List.mem_cons_of_mem _ hm), List.modifyHead_modifyHead]
    rfl

theorem not_mem_of_mem_splitOn : ∀ s ∈ t.splitOn sep, sep ∉ s := by
  induction t with
  | nil => simp
  | cons a t ih =>
    intro s hs
    rw [List.splitOn_cons_eq_if_modifyHead] at hs
    split_ifs at hs with ha
    · rcases hs with _ | ⟨_, hs⟩
      · exact List.not_mem_nil
      · exact ih s hs
    · rcases hsplit : t.splitOn sep with _ | ⟨s', rest⟩
      · exact absurd hsplit (List.splitOn_ne_nil _ _)
      · rw [hsplit] at hs ih
        rcases hs with _ | ⟨_, hs⟩
        · have ha : sep ≠ a := fun heq => ha (by simp [heq])
          exact List.not_mem_cons_of_ne_of_not_mem ha (ih s' List.mem_cons_self)
        · exact ih s (List.mem_cons_of_mem _ hs)

/-- **The lines of the pieces are those of their text.** -/
theorem Laid.wrap_unwrap (hw : 0 < w) (h : Laid sep w ps) :
    wrap sep w (unwrap sep ps) = ps.map Piece.line := by
  induction h with
  | @last l hsep hl =>
    rw [unwrap, wrap, List.splitOn_eq_singleton hsep, List.flatMap_singleton,
      wrapLine_of_length_le hl]
    rfl
  | @broken l q rest hsep hl hrest ih =>
    have htext : unwrap sep (⟨l, false⟩ :: q :: rest) = l ++ sep :: unwrap sep (q :: rest) := rfl
    rw [htext, wrap, List.splitOn_append_cons_self_of_not_mem hsep, List.flatMap_cons,
      wrapLine_of_length_le hl, ← wrap, ih]
    rfl
  | @goesOn l q rest hsep hl hq hrest ih =>
    have htext : unwrap sep (⟨l, true⟩ :: q :: rest) = l ++ unwrap sep (q :: rest) := rfl
    rw [wrap] at ih
    rw [htext, wrap, splitOn_append hsep]
    rcases hsplit : (unwrap sep (q :: rest)).splitOn sep with _ | ⟨s, segments⟩
    · exact absurd hsplit (List.splitOn_ne_nil _ _)
    · rw [hsplit, List.flatMap_cons] at ih
      -- the line that is gone on with is not empty, so that the first part is not
      have hs : 0 < s.length := by
        rcases s with _ | ⟨a, s⟩
        · exact absurd (List.cons.inj ih).1.symm hq
        · simp
      have hlong : w < (l ++ s).length := by
        rw [List.length_append]
        omega
      rw [List.modifyHead_cons, List.flatMap_cons, wrapLine_of_lt hw hlong, ← hl,
        List.take_left, List.drop_left, hl, List.cons_append, ih]
      rfl

/-- **The pieces of a text are laid, and give the text back.** -/
theorem laid_pieces (hw : 0 < w) (t : List α) :
    Laid sep w (pieces sep w t) ∧ unwrap sep (pieces sep w t) = t := by
  have hgeneral : ∀ segments : List (List α), segments ≠ [] → (∀ s ∈ segments, sep ∉ s) →
      Laid sep w (segments.flatMap (linePieces w)) ∧
        unwrap sep (segments.flatMap (linePieces w)) = [sep].intercalate segments := by
    intro segments hne hsep
    induction segments with
    | nil => exact absurd rfl hne
    | cons s segments ih =>
      have hs : sep ∉ s := hsep s List.mem_cons_self
      rcases segments with _ | ⟨s', segments⟩
      · rw [List.flatMap_singleton, List.intercalate_singleton]
        exact laid_linePieces hw hs
      · obtain ⟨hlaid, htext⟩ := ih (by simp) fun s hs => hsep s (List.mem_cons_of_mem _ hs)
        obtain ⟨q, qs, hpieces, -⟩ := linePieces_eq_cons hw s'
        rw [List.flatMap_cons, hpieces, List.cons_append] at hlaid htext
        rw [List.flatMap_cons, List.flatMap_cons, hpieces, List.cons_append]
        obtain ⟨hlaid', htext'⟩ := laid_linePieces_append hw hs hlaid
        refine ⟨hlaid', ?_⟩
        rw [htext', htext]
        rfl
  have h := hgeneral (t.splitOn sep) (List.splitOn_ne_nil _ _) not_mem_of_mem_splitOn
  rwa [List.intercalate_splitOn] at h

theorem map_line_pieces (hw : 0 < w) (t : List α) :
    (pieces sep w t).map Piece.line = wrap sep w t := by
  rw [pieces, wrap, List.map_flatMap]
  exact congrArg (fun f => List.flatMap f _) (funext (map_line_linePieces hw))

/-! ### The two kinds of joints, told from the parts -/

/-- Some part fills its last line, and is followed by one that is not empty. -/
def FullBreak (w : ℕ) : List (List α) → Prop
  | s :: s' :: rest => (s ≠ [] ∧ w ∣ s.length ∧ s' ≠ []) ∨ FullBreak w (s' :: rest)
  | _ => False

omit [DecidableEq α] in
theorem goings_append : goings (ps ++ qs) = goings ps + goings qs := List.countP_append

omit [DecidableEq α] in
theorem goings_linePieces (hw : 0 < w) (s : List α) :
    goings (linePieces w s) = 0 ↔ s.length ≤ w := by
  obtain h | h := le_or_gt s.length w
  · rw [linePieces_of_length_le h, goings_false]
    exact iff_of_true rfl h
  · rw [linePieces_of_lt hw h, goings_true]
    omega

/-- **No line goes on** exactly if no part is longer than the width. -/
theorem goings_pieces (hw : 0 < w) (t : List α) :
    goings (pieces sep w t) = 0 ↔ ∀ s ∈ t.splitOn sep, s.length ≤ w := by
  rw [pieces]
  induction t.splitOn sep with
  | nil => simp [goings]
  | cons s segments ih =>
    rw [List.flatMap_cons, goings_append, Nat.add_eq_zero_iff, goings_linePieces hw, ih,
      List.forall_mem_cons]

omit [DecidableEq α] in
theorem breaks_linePieces (hw : 0 < w) (s : List α) : breaks w (linePieces w s) = 0 := by
  fun_induction linePieces w s with
  | case1 s h ih =>
    obtain ⟨q, rest, hpieces, -⟩ := linePieces_eq_cons hw (s.drop w)
    rw [hpieces] at ih ⊢
    rw [breaks_true, ih]
  | case2 s h => rfl

omit [DecidableEq α] in
theorem breaks_linePieces_append (hw : 0 < w) (s : List α) :
    breaks w (linePieces w s ++ q :: qs) = 0 ↔
      ¬(s ≠ [] ∧ w ∣ s.length ∧ q.line ≠ []) ∧ breaks w (q :: qs) = 0 := by
  fun_induction linePieces w s with
  | case1 s h ih =>
    obtain ⟨p, rest, hpieces, -⟩ := linePieces_eq_cons hw (s.drop w)
    rw [hpieces] at ih ⊢
    rw [List.cons_append, List.cons_append, breaks_true, ← List.cons_append, ih, List.length_drop,
      Nat.dvd_sub_self_right]
    have hs : s ≠ [] := fun hnil => by simp [hnil] at h
    have hdrop : s.drop w ≠ [] := by
      rw [ne_eq, List.drop_eq_nil_iff]
      omega
    simp only [hs, hdrop, ne_eq, not_false_eq_true, true_and, h.2.not_ge, or_false]
  | case2 s h =>
    have hle : s.length ≤ w := by omega
    have hfull : s.length = w ↔ s ≠ [] ∧ w ∣ s.length := by
      constructor
      · exact fun heq => ⟨fun hnil => by simp [hnil] at heq; omega, by rw [heq]⟩
      · rintro ⟨hne, hdvd⟩
        exact le_antisymm hle (Nat.le_of_dvd (List.length_pos_iff.mpr hne) hdvd)
    rw [List.singleton_append, breaks_false, Nat.add_eq_zero_iff, ite_eq_right_iff, hfull]
    simp

/-- **No line that could go on ends** exactly if there is no full break. -/
theorem breaks_pieces (hw : 0 < w) (t : List α) :
    breaks w (pieces sep w t) = 0 ↔ ¬FullBreak w (t.splitOn sep) := by
  rw [pieces]
  induction t.splitOn sep with
  | nil => simp [breaks, FullBreak]
  | cons s segments ih =>
    rcases segments with _ | ⟨s', segments⟩
    · rw [List.flatMap_singleton, FullBreak]
      exact iff_of_true (breaks_linePieces hw s) not_false
      exact fun _ _ _ h => nomatch h
    · obtain ⟨q, qs, hpieces, hq⟩ := linePieces_eq_cons hw s'
      rw [List.flatMap_cons, hpieces, List.cons_append] at ih
      rw [List.flatMap_cons, List.flatMap_cons, hpieces, List.cons_append,
        breaks_linePieces_append hw, ih, FullBreak, not_or, ne_eq, ne_eq, ne_eq, hq]

/-! ### The weight of a text -/

section

variable (weight : α → ℕ)

/-- The weight of a list. -/
def total (l : List α) : ℕ := (l.map weight).sum

omit [DecidableEq α] in
/-- **What goes on saves a separator.** -/
theorem total_unwrap (h : Laid sep w ps) :
    total weight (unwrap sep ps) + (goings ps + 1) * weight sep =
      ((ps.map Piece.line).map (total weight)).sum + ps.length * weight sep := by
  have happend : ∀ l m : List α, total weight (l ++ m) = total weight l + total weight m :=
    fun l m => by rw [total, List.map_append, List.sum_append, total, total]
  have hcons : ∀ (a : α) (l : List α), total weight (a :: l) = weight a + total weight l :=
    fun a l => by rw [total, List.map_cons, List.sum_cons, total]
  induction h with
  | last hsep hl => simp [unwrap, goings]
  | broken hsep hl hrest ih =>
    rw [goings_false, unwrap, happend, happend, if_neg (by simp), List.map_cons, List.map_cons,
      List.sum_cons, List.length_cons, hcons]
    simp only [total, List.map_nil, List.sum_nil, Nat.add_mul, Nat.one_mul] at ih ⊢
    omega
  | goesOn hsep hl hq hrest ih =>
    rw [goings_true, unwrap, happend, happend, if_pos rfl, List.map_cons, List.map_cons,
      List.sum_cons, List.length_cons]
    simp only [total, List.map_nil, List.sum_nil, Nat.add_mul, Nat.one_mul] at ih ⊢
    omega

end

/-- **When the lines tell the text.** Among the texts of the same lines and the same
weight a text is the only one, exactly if no line of it goes on, or none that could
ends. -/
theorem unique_iff {weight : α → ℕ} (hw : 0 < w) (hsep : 0 < weight sep) (t : List α) :
    (∀ u, wrap sep w u = wrap sep w t → total weight u = total weight t → u = t) ↔
      (∀ s ∈ t.splitOn sep, s.length ≤ w) ∨ ¬FullBreak w (t.splitOn sep) := by
  obtain ⟨hlaid, htext⟩ : Laid sep w (pieces sep w t) ∧ unwrap sep (pieces sep w t) = t :=
    laid_pieces hw t
  have hlines : (pieces sep w t).map Piece.line = wrap sep w t := map_line_pieces hw t
  have htotal := total_unwrap weight hlaid
  rw [← goings_pieces hw, ← breaks_pieces hw]
  constructor
  · intro hunique
    by_contra hkind
    obtain ⟨hgoings, hbreaks⟩ := not_or.mp hkind
    obtain ⟨qs, hqs, hlines', hgoings', hne⟩ :=
      hlaid.exists_ne (Nat.pos_of_ne_zero hgoings) (Nat.pos_of_ne_zero hbreaks)
    have hlength : qs.length = (pieces sep w t).length := by
      rw [← List.length_map Piece.line, hlines', List.length_map]
    have htotal' := total_unwrap weight hqs
    rw [hlines', hgoings', hlength, ← htotal] at htotal'
    have hsame : unwrap sep qs = t := by
      refine hunique _ (by rw [hqs.wrap_unwrap hw, hlines', hlines]) ?_
      rw [Nat.add_right_cancel htotal', htext]
    exact hne (hqs.unwrap_inj hlaid hlines' (hsame.trans htext.symm))
  · intro hkind u hwrap hweight
    obtain ⟨hlaid', htext'⟩ : Laid sep w (pieces sep w u) ∧ unwrap sep (pieces sep w u) = u :=
      laid_pieces hw u
    have hlines' : (pieces sep w t).map Piece.line = (pieces sep w u).map Piece.line := by
      rw [hlines, map_line_pieces hw, hwrap]
    have hlength : (pieces sep w u).length = (pieces sep w t).length := by
      rw [← List.length_map Piece.line, ← hlines', List.length_map]
    have htotal' := total_unwrap weight hlaid'
    rw [htext', hweight, ← hlines', hlength] at htotal'
    rw [htext, ← htotal'] at htotal
    have hgoings := Nat.eq_of_mul_eq_mul_right hsep (Nat.add_left_cancel htotal)
    have hsame := hlaid.ext hlaid' hlines' (Nat.succ.inj hgoings) hkind
    rw [← htext', ← hsame, htext]

/-- The elements of a text are those of its lines, and separators. -/
theorem mem_or_eq_of_wrap (hw : 0 < w) {a : α} (h : a ∈ t) :
    a = sep ∨ ∃ l ∈ wrap sep w t, a ∈ l := by
  have hgeneral : ∀ ps : List (Piece α), a ∈ unwrap sep ps →
      a = sep ∨ ∃ l ∈ ps.map Piece.line, a ∈ l := by
    intro ps hps
    fun_induction unwrap sep ps with
    | case1 => exact absurd hps List.not_mem_nil
    | case2 p => exact Or.inr ⟨_, List.mem_cons_self, hps⟩
    | case3 p q rest ih =>
      rcases List.mem_append.mp hps with hp | hps
      · exact Or.inr ⟨_, List.mem_cons_self, hp⟩
      · rcases List.mem_append.mp hps with hsep | hps
        · split_ifs at hsep
          · exact absurd hsep List.not_mem_nil
          · exact Or.inl (List.mem_singleton.mp hsep)
        · exact (ih hps).imp id fun ⟨l, hl, ha⟩ => ⟨l, List.mem_cons_of_mem _ hl, ha⟩
  rw [← (laid_pieces (w := w) hw t).2] at h
  rw [← map_line_pieces hw]
  exact hgeneral _ h

theorem mem_of_mem_wrap (hw : 0 < w) {a : α} {l : List α} (hl : l ∈ wrap sep w t) (ha : a ∈ l) :
    a ∈ t := by
  have hgeneral : ∀ ps : List (Piece α), l ∈ ps.map Piece.line → a ∈ unwrap sep ps := by
    intro ps hps
    fun_induction unwrap sep ps with
    | case1 => exact absurd hps List.not_mem_nil
    | case2 p =>
      obtain rfl : l = p.line := by simpa using hps
      exact ha
    | case3 p q rest ih =>
      rcases List.mem_cons.mp hps with rfl | hps
      · exact List.mem_append_left _ ha
      · exact List.mem_append_right _ (List.mem_append_right _ (ih hps))
  rw [← map_line_pieces hw] at hl
  have htext := hgeneral _ hl
  rwa [(laid_pieces hw t).2] at htext

/-- No line has a separator. -/
theorem not_mem_of_mem_wrap {l : List α} (hl : l ∈ wrap sep w t) : sep ∉ l := by
  obtain ⟨s, hs, hline⟩ := List.mem_flatMap.mp hl
  intro hsep
  refine not_mem_of_mem_splitOn s hs ?_
  rcases s with _ | ⟨a, s⟩
  · obtain rfl := List.mem_singleton.mp hline
    exact hsep
  · rw [← flatten_chunks (w := w) (a :: s)]
    exact List.mem_flatten.mpr ⟨l, hline, hsep⟩

end

end Wrap
