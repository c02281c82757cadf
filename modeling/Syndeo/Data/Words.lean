import Mathlib.Data.List.Basic
import Mathlib.Tactic.Common

/-!
# The words of a list

The words of a list are the longest runs without a separator. A separator cuts the
words of what is before it from those of what is after it (`Words.words_append_cons`),
so that a text joined by separators has the words of its parts.

A text may also come in parts that meet at a **seam**: a list of things and seams, which
either stand for a separator or for nothing at all. Then two words may become one, and
they do exactly where a seam is between two things that belong to words
(`Words.Glued`): the text without its seams has the same words where there is no such
place (`Words.words_sewn`), and fewer where there is one (`Words.length_words_sewn`).
-/

namespace Words

variable {α : Type} {p : α → Bool} {x sep : α} {l a b : List α}

/-- The longest runs without a separator. -/
def words (p : α → Bool) (l : List α) : List (List α) := (l.splitOnP p).filter fun w => !w.isEmpty

@[simp] theorem words_nil : words p ([] : List α) = [] := rfl

theorem words_cons_of_sep (h : p x = true) (l : List α) : words p (x :: l) = words p l := by
  rw [words, List.splitOnP_cons_eq_if_modifyHead, if_pos h, words]
  rfl

/-- **A separator keeps what is about it apart.** -/
theorem words_append_cons (h : p x = true) (a b : List α) :
    words p (a ++ x :: b) = words p a ++ words p b := by
  rw [words, List.splitOnP_append_cons a b h, List.filter_append]
  rfl

theorem words_of_sep (h : ∀ x ∈ l, p x = true) : words p l = [] := by
  induction l with
  | nil => rfl
  | cons x l ih =>
    rw [words_cons_of_sep (h x List.mem_cons_self)]
    exact ih fun y hy => h y (List.mem_cons_of_mem _ hy)

/-- Where the next thing is no part of a word, a word ends. -/
theorem words_cons_of_end (h : p x = false) (hl : ∀ y ∈ l.head?, p y = true) :
    words p (x :: l) = [x] :: words p l := by
  rw [words, List.splitOnP_cons_eq_if_modifyHead, h, words]
  rcases l with _ | ⟨y, l⟩
  · rfl
  · rw [List.splitOnP_cons_eq_if_modifyHead, if_pos (hl y rfl)]
    rfl

/-- Where it is, the word goes on. -/
theorem words_cons_cons (h : p x = false) {y : α} (hy : p y = false) (l : List α) :
    ∃ w ws, words p (y :: l) = w :: ws ∧ words p (x :: y :: l) = (x :: w) :: ws := by
  have hcons : ∀ (z : α) (l : List α), p z = false →
      (z :: l).splitOnP p = (l.splitOnP p).modifyHead (z :: ·) := by
    intro z l hz
    rw [List.splitOnP_cons_eq_if_modifyHead, hz]
    rfl
  rcases hsplit : l.splitOnP p with _ | ⟨w, ws⟩
  · exact absurd hsplit (List.splitOnP_ne_nil _ _)
  · refine ⟨y :: w, ws.filter fun w => !w.isEmpty, ?_, ?_⟩
    · rw [words, hcons y l hy, hsplit]
      rfl
    · rw [words, hcons x _ h, hcons y l hy, hsplit]
      rfl

theorem words_of_word (hne : l ≠ []) (h : ∀ x ∈ l, p x = false) : words p l = [l] := by
  rw [words, List.splitOnP_eq_singleton h]
  rcases l with _ | ⟨x, l⟩
  · exact absurd rfl hne
  · rfl

theorem mem_words {w : List α} (h : w ∈ words p l) : w ≠ [] ∧ ∀ x ∈ w, p x = false := by
  induction l generalizing w with
  | nil => exact absurd h List.not_mem_nil
  | cons x l ih =>
    rcases hx : p x with _ | _
    · rcases l with _ | ⟨y, l⟩
      · rw [words_cons_of_end hx (by simp)] at h
        obtain rfl := List.mem_singleton.mp h
        simpa using hx
      · rcases hy : p y with _ | _
        · obtain ⟨v, vs, hv, hxv⟩ := words_cons_cons hx hy l
          rw [hxv] at h
          rw [hv] at ih
          rcases List.mem_cons.mp h with rfl | h
          · refine ⟨List.cons_ne_nil _ _, fun z hz => ?_⟩
            rcases List.mem_cons.mp hz with rfl | hz
            · exact hx
            · exact (ih List.mem_cons_self).2 z hz
          · exact ih (List.mem_cons_of_mem _ h)
        · rw [words_cons_of_end hx (by simpa using hy)] at h
          rcases List.mem_cons.mp h with rfl | h
          · simpa using hx
          · exact ih h
    · rw [words_cons_of_sep hx] at h
      exact ih h

/-- The words, one after another, are the text without its separators. -/
theorem flatten_words (p : α → Bool) (l : List α) :
    (words p l).flatten = l.filter fun x => !p x := by
  induction l with
  | nil => rfl
  | cons x l ih =>
    rcases hx : p x with _ | _
    · rw [List.filter_cons_of_pos (by rw [hx]; rfl), ← ih]
      rcases l with _ | ⟨y, l⟩
      · rw [words_cons_of_end hx (by simp)]
        rfl
      · rcases hy : p y with _ | _
        · obtain ⟨w, ws, hw, hxw⟩ := words_cons_cons hx hy l
          rw [hxw, hw]
          rfl
        · rw [words_cons_of_end hx (by simpa using hy)]
          rfl
    · rw [words_cons_of_sep hx, List.filter_cons_of_neg (by simp [hx]), ih]

/-- **Parts that are joined by a separator** have the words of the parts. -/
theorem words_intercalate (h : p sep = true) (parts : List (List α)) :
    words p ([sep].intercalate parts) = parts.flatMap (words p) := by
  induction parts with
  | nil => rfl
  | cons part parts ih =>
    rcases parts with _ | ⟨next, parts⟩
    · simp [List.intercalate]
    · rw [List.intercalate_cons_cons, List.append_assoc, List.singleton_append,
        words_append_cons h, ih]
      rfl

theorem words_intercalate_words (h : p sep = true) (l : List α) :
    words p ([sep].intercalate (words p l)) = words p l := by
  rw [words_intercalate h]
  have hone : ∀ ws : List (List α), (∀ w ∈ ws, w ∈ words p l) → ws.flatMap (words p) = ws := by
    intro ws hws
    induction ws with
    | nil => rfl
    | cons w ws ih =>
      obtain ⟨hne, hw⟩ := mem_words (hws w List.mem_cons_self)
      rw [List.flatMap_cons, words_of_word hne hw, ih fun v hv => hws v (List.mem_cons_of_mem _ hv)]
      rfl
  exact hone _ fun _ hw => hw

/-! ### Seams -/

variable {m : List (Option α)}

/-- The text with a separator for each seam. -/
def spaced (sep : α) (m : List (Option α)) : List α := m.map fun x => x.getD sep

/-- The text with nothing for the seams. -/
def sewn (m : List (Option α)) : List α := m.filterMap id

/-- **Two words are glued** if nothing but seams is between a part of one and a part of the
other. -/
def Glued (p : α → Bool) (m : List (Option α)) : Prop :=
  ∃ before x n y after, m = before ++ some x :: (List.replicate (n + 1) none ++ some y :: after) ∧
    p x = false ∧ p y = false

@[simp] theorem spaced_append (m n : List (Option α)) :
    spaced sep (m ++ n) = spaced sep m ++ spaced sep n := List.map_append

@[simp] theorem sewn_append (m n : List (Option α)) : sewn (m ++ n) = sewn m ++ sewn n :=
  List.filterMap_append

theorem glued_none : Glued p (none :: m) ↔ Glued p m := by
  constructor
  · rintro ⟨before, x, n, y, after, heq, hx, hy⟩
    rcases before with _ | ⟨z, before⟩
    · exact absurd (List.cons.inj heq).1 (by simp)
    · exact ⟨before, x, n, y, after, (List.cons.inj heq).2, hx, hy⟩
  · rintro ⟨before, x, n, y, after, rfl, hx, hy⟩
    exact ⟨none :: before, x, n, y, after, rfl, hx, hy⟩

/-- What begins with seams, and then a part of a word. -/
def Resumes (p : α → Bool) (m : List (Option α)) : Prop :=
  ∃ n y after, m = List.replicate (n + 1) none ++ some y :: after ∧ p y = false

theorem glued_some : Glued p (some x :: m) ↔ (p x = false ∧ Resumes p m) ∨ Glued p m := by
  constructor
  · rintro ⟨before, z, n, y, after, heq, hz, hy⟩
    rcases before with _ | ⟨w, before⟩
    · obtain ⟨hxz, hm⟩ := List.cons.inj heq
      obtain rfl := Option.some.inj hxz
      exact Or.inl ⟨hz, n, y, after, hm, hy⟩
    · exact Or.inr ⟨before, z, n, y, after, (List.cons.inj heq).2, hz, hy⟩
  · rintro (⟨hx, n, y, after, rfl, hy⟩ | ⟨before, z, n, y, after, rfl, hz, hy⟩)
    · exact ⟨[], x, n, y, after, rfl, hx, hy⟩
    · exact ⟨some x :: before, z, n, y, after, rfl, hz, hy⟩

/-- The text resumes exactly if a part of a word is first once the seams are gone. -/
theorem resumes_iff : Resumes p (none :: m) ↔ ∃ y ∈ (sewn m).head?, p y = false := by
  induction m with
  | nil =>
    constructor
    · rintro ⟨n, y, after, heq, -⟩
      have hlength := congrArg List.length heq
      simp only [List.length_append, List.length_replicate, List.length_cons] at hlength
      simp at hlength
      omega
    · simp [sewn]
  | cons x m ih =>
    rcases x with _ | x
    · rw [show sewn (none :: m) = sewn m from rfl, ← ih]
      constructor
      · rintro ⟨n, y, after, heq, hy⟩
        rcases n with _ | n
        · exact absurd (List.cons.inj (List.cons.inj heq).2).1 (by simp)
        · exact ⟨n, y, after, (List.cons.inj heq).2, hy⟩
      · rintro ⟨n, y, after, heq, hy⟩
        exact ⟨n + 1, y, after, by rw [heq]; rfl, hy⟩
    · constructor
      · rintro ⟨n, y, after, heq, hy⟩
        rcases n with _ | n
        · obtain rfl := Option.some.inj (List.cons.inj (List.cons.inj heq).2).1
          exact ⟨x, rfl, hy⟩
        · exact absurd (List.cons.inj (List.cons.inj heq).2).1 (by simp)
      · rintro ⟨y, hy, hp⟩
        obtain rfl := Option.some.inj hy
        exact ⟨0, x, m, rfl, hp⟩

/-- What a part of a word adds in front: a word of its own, or to the first. -/
theorem words_cons_congr (hx : p x = false) (hhead : a.head? = b.head?)
    (h : words p a = words p b) : words p (x :: a) = words p (x :: b) := by
  rcases a with _ | ⟨y, a⟩
  · rcases b with _ | ⟨z, b⟩
    · rfl
    · cases hhead
  · rcases b with _ | ⟨z, b⟩
    · cases hhead
    · obtain rfl := Option.some.inj hhead
      rcases hy : p y with _ | _
      · obtain ⟨w, ws, hw, hxw⟩ := words_cons_cons hx hy a
        obtain ⟨v, vs, hv, hxv⟩ := words_cons_cons hx hy b
        obtain ⟨rfl, rfl⟩ := List.cons.inj (hw.symm.trans (h.trans hv))
        rw [hxw, hxv]
      · rw [words_cons_of_end hx (by simpa using hy), words_cons_of_end hx (by simpa using hy), h]

theorem length_words_cons (hx : p x = false) (l : List α) : (words p (x :: l)).length =
    (words p l).length + if ∃ y ∈ l.head?, p y = false then 0 else 1 := by
  rcases l with _ | ⟨y, l⟩
  · rw [words_cons_of_end hx (by simp)]
    simp
  · rcases hy : p y with _ | _
    · obtain ⟨w, ws, hw, hxw⟩ := words_cons_cons hx hy l
      rw [hxw, hw, if_pos ⟨y, rfl, hy⟩]
      rfl
    · rw [words_cons_of_end hx (by simpa using hy), if_neg (by simp [hy])]
      rfl

/-- **What the seams do to the words.** -/
theorem words_seams (hsep : p sep = true) (m : List (Option α)) :
    (Glued p m → (words p (sewn m)).length < (words p (spaced sep m)).length) ∧
      (¬Glued p m → words p (sewn m) = words p (spaced sep m)) := by
  induction m with
  | nil =>
    refine ⟨?_, fun _ => rfl⟩
    rintro ⟨before, x, n, y, after, heq, -⟩
    exact absurd heq (by simp)
  | cons x m ih =>
    rcases x with _ | x
    · have hspaced : words p (spaced sep (none :: m)) = words p (spaced sep m) :=
        words_cons_of_sep hsep _
      rw [glued_none, hspaced]
      exact ih
    · have hsewn : sewn (some x :: m) = x :: sewn m := rfl
      have hspaced : spaced sep (some x :: m) = x :: spaced sep m := rfl
      rw [glued_some, hsewn, hspaced]
      rcases hx : p x with _ | _
      · rw [length_words_cons hx, length_words_cons hx]
        have hle : (words p (sewn m)).length ≤ (words p (spaced sep m)).length := by
          by_cases hglued : Glued p m
          · exact Nat.le_of_lt (ih.1 hglued)
          · exact Nat.le_of_eq (congrArg List.length (ih.2 hglued))
        rcases m with _ | ⟨y, m⟩
        · refine ⟨fun h => ?_, fun _ => rfl⟩
          rcases h with ⟨-, n, y, after, heq, -⟩ | ⟨before, y, n, z, after, heq, -⟩
          · exact absurd heq (by simp)
          · exact absurd heq (by simp)
        · rcases y with _ | y
          · -- a seam follows: what matters is what is first after it
            have hstop : ¬∃ y ∈ (spaced sep (none :: m)).head?, p y = false := by
              simp [spaced, hsep]
            have hfirst : Resumes p (none :: m) ↔ ∃ y ∈ (sewn (none :: m)).head?, p y = false :=
              resumes_iff
            rw [if_neg hstop]
            by_cases hresumes : Resumes p (none :: m)
            · rw [if_pos (hfirst.mp hresumes)]
              exact ⟨fun _ => by omega, fun h => absurd (Or.inl ⟨rfl, hresumes⟩) h⟩
            · have hend := fun h => hresumes (hfirst.mpr h)
              rw [if_neg hend]
              refine ⟨fun h => ?_, fun h => ?_⟩
              · have hlt := ih.1 (h.resolve_left fun h => hresumes h.2)
                omega
              · have heq := ih.2 fun hglued => h (Or.inr hglued)
                rw [words_cons_of_end hx fun y hy => ?_, words_cons_of_end hx fun y hy => ?_, heq]
                · exact eq_true_of_ne_false fun hy' => hstop ⟨y, hy, hy'⟩
                · exact eq_true_of_ne_false fun hy' => hend ⟨y, hy, hy'⟩
          · have hnot : ¬Resumes p (some y :: m) := by
              rintro ⟨n, z, after, heq, -⟩
              exact absurd (List.cons.inj heq).1 (by simp)
            have hhead : (sewn (some y :: m)).head? = (spaced sep (some y :: m)).head? := rfl
            rw [hhead]
            refine ⟨fun h => ?_, fun h => ?_⟩
            · have hlt := ih.1 (h.resolve_left fun h => hnot h.2)
              omega
            · exact words_cons_congr hx hhead (ih.2 fun hglued => h (Or.inr hglued))
      · rw [words_cons_of_sep hx, words_cons_of_sep hx]
        simpa using ih

theorem words_sewn (hsep : p sep = true) (h : ¬Glued p m) :
    words p (sewn m) = words p (spaced sep m) := (words_seams hsep m).2 h

theorem length_words_sewn_lt (hsep : p sep = true) (h : Glued p m) :
    (words p (sewn m)).length < (words p (spaced sep m)).length := (words_seams hsep m).1 h

theorem length_words_sewn_le (hsep : p sep = true) (m : List (Option α)) :
    (words p (sewn m)).length ≤ (words p (spaced sep m)).length := by
  by_cases h : Glued p m
  · exact Nat.le_of_lt (length_words_sewn_lt hsep h)
  · exact Nat.le_of_eq (congrArg List.length (words_sewn hsep h))

end Words
