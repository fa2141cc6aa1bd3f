import Mathlib

/-!
# Decimal digits

Numbers as the digits they are written in, most significant first, and what is left of a number when
its last digits are dropped.

* `value` — the number that some digits write
* `value_bounds` — a number lies between its leading digits and the next number with as many
* `toDigits_value` — digits that do not start with zero are those that `Nat.toDigits` writes
-/

namespace Infra.Decimal

/-- The number that the digits `ds` write behind those of `n`. -/
def value (n : Nat) (ds : List Nat) : Nat := ds.foldl (fun n d => n * 10 + d) n

@[simp] theorem value_nil (n : Nat) : value n [] = n := rfl

@[simp] theorem value_cons (n d : Nat) (ds : List Nat) :
    value n (d :: ds) = value (n * 10 + d) ds := rfl

/-- Digits are read from the left. -/
theorem value_append (n : Nat) (ds es : List Nat) : value n (ds ++ es) = value (value n ds) es :=
  List.foldl_append ..

/-- What was read before is moved by as many places as there are digits. -/
theorem value_eq (n : Nat) (ds : List Nat) : value n ds = n * 10 ^ ds.length + value 0 ds := by
  induction ds generalizing n with
  | nil => simp
  | cons d ds ih =>
    rw [value_cons, value_cons, ih, ih (0 * 10 + d), List.length_cons, pow_succ]
    ring

variable {ds : List Nat}

/-- A number has no more places than digits. -/
theorem value_lt (h : ∀ d ∈ ds, d < 10) : value 0 ds < 10 ^ ds.length := by
  induction ds with
  | nil => simp
  | cons d ds ih =>
    have hd := h d List.mem_cons_self
    have ih' := ih fun e he => h e (List.mem_cons_of_mem _ he)
    rw [value_cons, value_eq, List.length_cons, pow_succ]
    calc (0 * 10 + d) * 10 ^ ds.length + value 0 ds
        < d * 10 ^ ds.length + 10 ^ ds.length := by rw [Nat.zero_mul, Nat.zero_add]; omega
      _ = (d + 1) * 10 ^ ds.length := by ring
      _ ≤ 10 * 10 ^ ds.length := Nat.mul_le_mul_right _ (by omega)
      _ = 10 ^ ds.length * 10 := Nat.mul_comm _ _

/-- Digits write zero if all of them are. -/
theorem value_eq_zero : value 0 ds = 0 ↔ ∀ d ∈ ds, d = 0 := by
  induction ds with
  | nil => simp
  | cons d ds ih =>
    rw [value_cons, value_eq, Nat.add_eq_zero_iff, ih, List.forall_mem_cons]
    simp

/-- **A number lies between its leading digits and the next number with as many**. -/
theorem value_bounds (n : Nat) (h : ∀ d ∈ ds, d < 10) :
    n * 10 ^ ds.length ≤ value n ds ∧ value n ds < (n + 1) * 10 ^ ds.length := by
  have := value_lt h
  rw [value_eq, Nat.add_mul, Nat.one_mul]
  omega

/-- It is its leading digits with zeros behind them if the others are zeros. -/
theorem value_eq_iff (n : Nat) : value n ds = n * 10 ^ ds.length ↔ ∀ d ∈ ds, d = 0 := by
  rw [value_eq, ← value_eq_zero]
  omega

/-- **Digits that do not start with zero are those that `Nat.toDigits` writes.** -/
theorem toDigits_value {n : Nat} (hn : 0 < n) (h : ∀ d ∈ ds, d < 10) :
    Nat.toDigits 10 (value n ds) = Nat.toDigits 10 n ++ ds.map Nat.digitChar := by
  induction ds generalizing n with
  | nil => simp
  | cons d ds ih =>
    have hd := h d List.mem_cons_self
    rw [value_cons, ih (by omega) fun e he => h e (List.mem_cons_of_mem _ he), Nat.mul_comm,
      ← Nat.toDigits_append_toDigits (by decide) hn hd, Nat.toDigits_of_lt_base hd]
    simp

end Infra.Decimal
