import Mathlib.Algebra.Order.Ring.Int
import Mathlib.Data.List.Basic
import Mathlib.Tactic.Common

/-!
# JSON values

A value as a reader of JSON gives it. A number is whole, and then 64 bits hold it, signed or
not, or it is some other number, of which only its text is known. An object is the list of its
fields, in the reader's order, in which no key is looked for twice.
-/

namespace Json

/-- A whole number that 64 bits hold, signed or not. -/
abbrev Whole := {n : ℤ // -2 ^ 63 ≤ n ∧ n < 2 ^ 64}

/-- A number. -/
inductive Number
  | whole (n : Whole)
  | other (text : String)

/-- The number, if 64 bits hold it without a sign. -/
def Number.asU64 : Number → Option ℕ
  | .whole n => if 0 ≤ n.val then some n.val.toNat else none
  | .other _ => none

/-- The number, if 64 bits hold it with a sign. -/
def Number.asI64 : Number → Option ℤ
  | .whole n => if n.val < 2 ^ 63 then some n.val else none
  | .other _ => none

/-- A value. -/
inductive Value
  | null
  | bool (b : Bool)
  | num (n : Number)
  | str (s : String)
  | arr (items : List Value)
  | obj (fields : List (String × Value))

/-- The fields of an object. -/
abbrev Fields := List (String × Value)

/-- A field is written: where it was, or else after the others. -/
def Fields.insert (key : String) (value : Value) (fields : Fields) : Fields :=
  if key ∈ fields.map Prod.fst then
    fields.map fun f => if f.1 = key then (key, value) else f
  else fields ++ [(key, value)]

/-- A field is taken out. -/
def Fields.remove (key : String) (fields : Fields) : Fields := fields.filter fun f => f.1 ≠ key

variable {fields : Fields} {key key' : String} {value : Value}

@[simp] theorem Number.asU64_whole (n : Whole) :
    (Number.whole n).asU64 = if 0 ≤ n.val then some n.val.toNat else none := rfl

@[simp] theorem Number.asI64_whole (n : Whole) :
    (Number.whole n).asI64 = if n.val < 2 ^ 63 then some n.val else none := rfl

/-- A whole number, if 64 bits hold it. -/
def whole (n : ℤ) : Value := if h : -2 ^ 63 ≤ n ∧ n < 2 ^ 64 then .num (.whole ⟨n, h⟩) else .null

theorem whole_eq_num {n : ℤ} (h : -2 ^ 63 ≤ n ∧ n < 2 ^ 64) : whole n = .num (.whole ⟨n, h⟩) :=
  dif_pos h

/-- **A number that was read is the number.** -/
theorem num_eq_of_asU64 {n : Number} {m : ℕ} (h : n.asU64 = some m) :
    Value.num n = whole m ∧ m < 2 ^ 64 := by
  cases n with
  | other text => simp [Number.asU64] at h
  | whole n =>
    obtain ⟨n, hle, hlt⟩ := n
    rw [Number.asU64_whole] at h
    split_ifs at h with hn
    obtain rfl := Option.some.inj h
    change (0 : ℤ) ≤ n at hn
    have hval : ((n.toNat : ℕ) : ℤ) = n := Int.toNat_of_nonneg hn
    change Value.num (.whole ⟨n, hle, hlt⟩) = whole (n.toNat : ℕ) ∧ n.toNat < 2 ^ 64
    rw [hval, whole_eq_num ⟨hle, hlt⟩]
    exact ⟨rfl, by omega⟩

theorem num_eq_of_asI64 {n : Number} {m : ℤ} (h : n.asI64 = some m) : Value.num n = whole m := by
  cases n with
  | other text => simp [Number.asI64] at h
  | whole n =>
    rw [Number.asI64_whole] at h
    split_ifs at h
    obtain rfl := Option.some.inj h
    rw [whole_eq_num n.property]

theorem exists_num_of_lt {m : ℕ} (h : m < 2 ^ 64) :
    ∃ n, whole m = .num n ∧ n.asU64 = some m := by
  refine ⟨_, whole_eq_num (by omega), ?_⟩
  simp

theorem exists_num_of_natAbs {m : ℤ} (h : m.natAbs < 2 ^ 63) :
    ∃ n, whole m = .num n ∧ n.asI64 = some m := by
  refine ⟨_, whole_eq_num (by omega), ?_⟩
  rw [Number.asI64_whole, if_pos]
  change m < 2 ^ 63
  omega

/-! ### Readings that may fail -/

/-- **Both readings were done.** -/
theorem bind_eq_ok {ε α β : Type} {x : Except ε α} {f : α → Except ε β} {b : β} :
    x >>= f = .ok b ↔ ∃ a, x = .ok a ∧ f a = .ok b := by
  cases x with
  | error e => exact ⟨by rintro ⟨⟩, by rintro ⟨a, ⟨⟩, -⟩⟩
  | ok a => exact ⟨fun h => ⟨a, rfl, h⟩, by rintro ⟨a', ⟨⟩, h⟩; exact h⟩

/-- One reading is done, and then the others. -/
theorem bind_of_eq_ok {ε α β : Type} {x : Except ε α} {f : α → Except ε β} {a : α}
    {r : Except ε β} (h : x = .ok a) (h' : f a = r) : x >>= f = r := by
  subst h
  exact h'

theorem pure_eq_ok {ε α : Type} {a b : α} : (pure a : Except ε α) = .ok b ↔ a = b :=
  Except.ok.injEq a b ▸ Iff.rfl

theorem map_eq_ok {ε α β : Type} {f : α → β} {x : Except ε α} {b : β} :
    f <$> x = .ok b ↔ ∃ a, x = .ok a ∧ f a = b := by
  cases x with
  | error e => exact ⟨by rintro ⟨⟩, by rintro ⟨a, ⟨⟩, -⟩⟩
  | ok a => exact ⟨fun h => ⟨a, rfl, Except.ok.inj h⟩, by rintro ⟨a', ⟨⟩, rfl⟩; rfl⟩

/-! ### Looking up what was written -/

theorem lookup_insert_self : (fields.insert key value).lookup key = some value := by
  rw [Fields.insert]
  split_ifs with h
  · induction fields with
    | nil => exact absurd h (by simp)
    | cons f fields ih =>
      by_cases hf : f.1 = key
      · simp [hf]
      · rw [List.map_cons, if_neg hf, List.lookup_cons, beq_false_of_ne (Ne.symm hf)]
        refine ih ?_
        rw [List.map_cons, List.mem_cons] at h
        exact h.resolve_left (Ne.symm hf)
  · induction fields with
    | nil => simp
    | cons f fields ih =>
      rw [List.map_cons, List.mem_cons, not_or] at h
      rw [List.cons_append, List.lookup_cons, beq_false_of_ne h.1]
      exact ih h.2

theorem lookup_insert_ne (hkey : key' ≠ key) :
    (fields.insert key value).lookup key' = fields.lookup key' := by
  rw [Fields.insert]
  split_ifs with h
  · clear h
    induction fields with
    | nil => rfl
    | cons f fields ih =>
      rw [List.map_cons, List.lookup_cons, List.lookup_cons, ih]
      by_cases hf : f.1 = key
      · rw [if_pos hf, hf, beq_false_of_ne hkey]
      · rw [if_neg hf]
  · clear h
    induction fields with
    | nil => rw [List.nil_append, List.lookup_cons, beq_false_of_ne hkey]
    | cons f fields ih => rw [List.cons_append, List.lookup_cons, List.lookup_cons, ih]

theorem lookup_remove_self : (fields.remove key).lookup key = none := by
  rw [List.lookup_eq_none_iff]
  intro f hf
  exact bne_iff_ne.mpr (Ne.symm (by simpa using (List.mem_filter.mp hf).2))

theorem lookup_remove_ne (hkey : key' ≠ key) :
    (fields.remove key).lookup key' = fields.lookup key' := by
  rw [Fields.remove]
  induction fields with
  | nil => rfl
  | cons f fields ih =>
    by_cases hf : f.1 = key
    · rw [List.filter_cons_of_neg (by simp [hf]), ih, List.lookup_cons,
        beq_false_of_ne (hf ▸ hkey)]
    · rw [List.filter_cons_of_pos (by simp [hf]), List.lookup_cons, List.lookup_cons, ih]

end Json
