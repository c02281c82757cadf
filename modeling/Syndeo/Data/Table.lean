import Mathlib.Algebra.Order.Ring.Nat
import Mathlib.Data.List.AList
import Mathlib.Tactic.Common

/-!
# Tables, and counting their rows

A key-value table is Mathlib's `AList` at a constant family. What is added here
is the arithmetic of *counting the rows of a kind* as rows are written and
removed: a write adds the new row and takes the old one away, a removal takes
the old one away. Both are stated as equations without subtraction
(`Tables.count_insert`, `Tables.count_erase`), the row that goes being weighed
by `Tables.weight` of what the key held before. The same is said of what the rows
are worth together (`Tables.total_insert`, `Tables.total_erase`).
-/

namespace Tables

variable {K V : Type}

/-- A table from keys to rows, with at most one row for a key. -/
abbrev Table (K V : Type) := AList fun _ : K => V

/-- The rows of a table, in some order. -/
def rows (t : Table K V) : List (K × V) := t.entries.map fun e => (e.1, e.2)

/-- How many rows are of the kind `p`. -/
def count (p : K → V → Bool) (t : Table K V) : ℕ := t.entries.countP fun e => p e.1 e.2

/-- What a key's row contributes to the count: nothing when there is none. -/
def weight (p : K → V → Bool) (k : K) : Option V → ℕ
  | some v => if p k v then 1 else 0
  | none => 0

variable {p : K → V → Bool} {t : Table K V} {k : K} {v : V}

@[simp] theorem weight_none : weight p k none = 0 := rfl

@[simp] theorem weight_some : weight p k (some v) = if p k v then 1 else 0 := rfl

theorem weight_le_one {o : Option V} : weight p k o ≤ 1 := by
  rcases o with _ | v
  · exact Nat.zero_le _
  · rw [weight_some]
    split <;> omega

@[simp] theorem count_empty : count p (∅ : Table K V) = 0 := rfl

variable [DecidableEq K]

theorem mem_rows_iff : (k, v) ∈ rows t ↔ t.lookup k = some v := by
  rw [rows, List.mem_map]
  constructor
  · rintro ⟨e, he, heq⟩
    obtain ⟨rfl, rfl⟩ := Prod.mk.inj heq
    exact AList.mem_lookup_iff.mpr he
  · exact fun h => ⟨⟨k, v⟩, AList.mem_lookup_iff.mp h, rfl⟩

omit [DecidableEq K] in
theorem nodup_keys_rows : ((rows t).map Prod.fst).Nodup := by
  rw [rows, List.map_map]
  exact t.nodupKeys

private theorem countP_kerase (l : List (Σ _ : K, V)) :
    (List.kerase k l).countP (fun e => p e.1 e.2) + weight p k (List.dlookup k l) =
      l.countP fun e => p e.1 e.2 := by
  induction l with
  | nil => rfl
  | cons e l ih =>
    obtain ⟨k', v'⟩ := e
    by_cases h : k = k'
    · subst h
      have hk : List.kerase k (⟨k, v'⟩ :: l : List (Σ _ : K, V)) = l := List.kerase_cons_eq rfl
      rw [hk, List.dlookup_cons_eq, List.countP_cons, weight_some]
    · rw [List.kerase_cons_ne h, List.dlookup_cons_ne _ _ h, List.countP_cons, List.countP_cons,
        ← ih]
      omega

/-- **Removing a row** takes what it counted for out of the count. -/
theorem count_erase (p : K → V → Bool) (t : Table K V) (k : K) :
    count p (t.erase k) + weight p k (t.lookup k) = count p t :=
  countP_kerase t.entries

/-- **Writing a row** adds it to the count, and takes the one it replaces out. -/
theorem count_insert (p : K → V → Bool) (t : Table K V) (k : K) (v : V) :
    count p (t.insert k v) + weight p k (t.lookup k) = count p t + weight p k (some v) := by
  have h := countP_kerase (p := p) (k := k) t.entries
  have hins : count p (t.insert k v) =
      (List.kerase k t.entries).countP (fun e => p e.1 e.2) + weight p k (some v) := by
    rw [count, AList.entries_insert, List.countP_cons, weight_some]
  rw [hins, count, ← h, AList.lookup]
  omega

/-- Writing a row that counts for as much as the one it replaces. -/
theorem count_insert_of_weight_eq (h : weight p k (t.lookup k) = weight p k (some v)) :
    count p (t.insert k v) = count p t := by
  have := count_insert p t k v
  omega

/-- **A kind is present exactly when it is counted.** -/
theorem count_pos_iff : 0 < count p t ↔ ∃ k v, t.lookup k = some v ∧ p k v = true := by
  rw [count, List.countP_pos_iff]
  constructor
  · rintro ⟨⟨k, v⟩, he, hp⟩
    exact ⟨k, v, AList.mem_lookup_iff.mpr he, hp⟩
  · rintro ⟨k, v, hk, hp⟩
    exact ⟨⟨k, v⟩, AList.mem_lookup_iff.mp hk, hp⟩

theorem weight_le_count : weight p k (t.lookup k) ≤ count p t := by
  have := count_erase p t k
  omega

/-! ### Adding up what the rows are worth -/

/-- What all the rows are worth together. -/
def total (w : V → ℕ) (t : Table K V) : ℕ := (t.entries.map fun e => w e.2).sum

/-- What a key's row is worth: nothing when there is none. -/
def worth (w : V → ℕ) : Option V → ℕ
  | some v => w v
  | none => 0

@[simp] theorem worth_none {w : V → ℕ} : worth w none = 0 := rfl

@[simp] theorem worth_some {w : V → ℕ} : worth w (some v) = w v := rfl

omit [DecidableEq K] in
theorem total_eq_sum_rows (w : V → ℕ) : total w t = ((rows t).map fun row => w row.2).sum := by
  rw [total, rows, List.map_map]
  rfl

private theorem sum_kerase (w : V → ℕ) (l : List (Σ _ : K, V)) :
    ((List.kerase k l).map fun e => w e.2).sum + worth w (List.dlookup k l) =
      (l.map fun e => w e.2).sum := by
  induction l with
  | nil => rfl
  | cons e l ih =>
    obtain ⟨k', v'⟩ := e
    by_cases h : k = k'
    · subst h
      have hk : List.kerase k (⟨k, v'⟩ :: l : List (Σ _ : K, V)) = l := List.kerase_cons_eq rfl
      rw [hk, List.dlookup_cons_eq, List.map_cons, List.sum_cons, worth_some]
      exact Nat.add_comm _ _
    · rw [List.kerase_cons_ne h, List.dlookup_cons_ne _ _ h, List.map_cons, List.map_cons,
        List.sum_cons, List.sum_cons, ← ih]
      exact Nat.add_assoc _ _ _

/-- **Removing a row** takes what it is worth off the total. -/
theorem total_erase (w : V → ℕ) (t : Table K V) (k : K) :
    total w (t.erase k) + worth w (t.lookup k) = total w t :=
  sum_kerase w t.entries

/-- **Writing a row** adds what it is worth, and takes off what the one it replaces was. -/
theorem total_insert (w : V → ℕ) (t : Table K V) (k : K) (v : V) :
    total w (t.insert k v) + worth w (t.lookup k) = total w t + w v := by
  have h := sum_kerase (k := k) w t.entries
  have hinsert : total w (t.insert k v) =
      w v + ((List.kerase k t.entries).map fun e => w e.2).sum := by
    rw [total, AList.entries_insert, List.map_cons, List.sum_cons]
  rw [hinsert, total, ← h, AList.lookup]
  omega

/-! ### Keeping some of the rows -/

/-- The rows of the kind `p`, and no others. -/
def retain (p : K → V → Bool) (t : Table K V) : Table K V where
  entries := t.entries.filter fun e => p e.1 e.2
  nodupKeys := t.nodupKeys.sublist (List.filter_sublist)

omit [DecidableEq K] in
theorem retain_retain {q : K → V → Bool} (h : ∀ k v, q k v = true → p k v = true) :
    retain q (retain p t) = retain q t := by
  refine AList.ext (List.filter_filter.trans (List.filter_congr fun e _ => ?_))
  by_cases hq : q e.1 e.2 = true
  · rw [hq, h _ _ hq, Bool.and_self]
  · rw [Bool.not_eq_true] at hq
    rw [hq, Bool.false_and]

theorem lookup_retain : (retain p t).lookup k = (t.lookup k).filter (p k) := by
  refine Option.ext fun v => ?_
  rw [Option.filter_eq_some_iff, ← mem_rows_iff, ← mem_rows_iff]
  simp only [rows, retain, List.mem_map, List.mem_filter]
  constructor
  · rintro ⟨e, ⟨he, hp⟩, heq⟩
    obtain ⟨rfl, rfl⟩ := Prod.mk.inj heq
    exact ⟨⟨e, he, rfl⟩, hp⟩
  · rintro ⟨⟨e, he, heq⟩, hp⟩
    obtain ⟨rfl, rfl⟩ := Prod.mk.inj heq
    exact ⟨e, ⟨he, hp⟩, rfl⟩

end Tables
