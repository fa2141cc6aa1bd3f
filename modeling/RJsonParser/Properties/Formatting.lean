import RJsonParser.Writer
import RJsonParser.Infra.Decimal

/-!
# Integers as text

`write_i64` fills an array of twenty bytes from its end, two digits at a time. What is in it at any
point are the last digits of the number, and what is left of the number are the digits before them.

* `DigitArray.Has` — what the filled part of the array is
* `pairLoop_spec` — the loop moves digits from the number to the array
* `integers_canonical` — the bytes are the canonical decimal form
-/

namespace RJsonParser

open Infra Infra.Utf8

/-- The byte of a decimal digit. -/
def digitByte (d : Nat) : UInt8 := UInt8.ofNat (0x30 + d)

/-- The array is of twenty bytes, `bytes` fill it from `pos` on. -/
structure DigitArray.Has (a : DigitArray) (bytes : List UInt8) : Prop where
  length : a.digits.length = 20
  pos : a.pos ≤ 20
  drop : a.digits.drop a.pos = bytes

namespace DigitArray

variable {a : DigitArray} {bytes : List UInt8}

theorem new_has : new.Has [] := ⟨rfl, Nat.le_refl _, rfl⟩

/-- There is room for what is put before the rest. -/
theorem Has.push (h : a.Has bytes) (more : List UInt8) (hroom : more.length ≤ a.pos) :
    ∃ a', a.push more = .ok a' ∧ a'.Has (more ++ bytes) ∧ a'.pos + more.length = a.pos := by
  have hlen := h.length
  have hpos := h.pos
  refine ⟨_, by rw [DigitArray.push, if_pos hroom]; exact if_pos (by omega), ⟨?_, ?_, ?_⟩, ?_⟩
  · simp only [List.length_append, List.length_take, List.length_drop]
    omega
  · show a.pos - more.length ≤ 20
    omega
  · have hsub : a.pos - more.length + more.length = a.pos := by omega
    have htake : (a.digits.take (a.pos - more.length)).length = a.pos - more.length := by
      rw [List.length_take]; omega
    show List.drop (a.pos - more.length) (_ ++ more ++ _) = more ++ bytes
    rw [List.append_assoc, List.drop_append_of_le_length (by omega), hsub, h.drop,
      List.drop_of_length_le (by omega), List.nil_append]
  · show a.pos - more.length + more.length = a.pos
    omega

theorem Has.slice (h : a.Has bytes) : slice a.digits a.pos a.digits.length = .ok bytes := by
  have hpos : a.pos ≤ a.digits.length := by have := h.length; have := h.pos; omega
  rw [RJsonParser.slice, if_pos ⟨hpos, Nat.le_refl _⟩, ← List.length_drop, List.take_length, h.drop]

end DigitArray

/-- The table holds the two digits of every number below a hundred. -/
theorem pairOf_eq {n : Nat} (h : n < 100) :
    pairOf n = .ok [digitByte (n / 10), digitByte (n % 10)] := by
  have hall : ∀ n < 100, pairOf n = .ok [digitByte (n / 10), digitByte (n % 10)] := by
    decide +kernel
  exact hall n h

/-- The loop takes pairs of digits off the end of the number as long as it has more than two. What
is left fits in front of them, with a place for a sign. -/
theorem pairLoop_spec : ∀ (fuel rest : Nat) (a : DigitArray) (bytes : List UInt8), a.Has bytes →
    rest < 10 ^ (a.pos - 1) → rest < 100 ^ fuel → 1 < a.pos → 0 < fuel →
    ∃ rest' a' ds, pairLoop fuel rest a = .ok (rest', a') ∧
      a'.Has (ds.map digitByte ++ bytes) ∧ rest' < 100 ∧ rest' < 10 ^ (a'.pos - 1) ∧
      1 < a'.pos ∧ Decimal.value rest' ds = rest ∧ (∀ d ∈ ds, d < 10) ∧
      (rest' = 0 → ds = [])
  | fuel + 1, rest, a, bytes, h, hfit, hfuel, hpos, _ => by
    rw [pairLoop]
    by_cases hge : 100 ≤ rest
    · have hmod : rest % 100 < 100 := Nat.mod_lt _ (by decide)
      rw [if_pos hge, pairOf_eq hmod, except_ok_bind]
      -- a number of three digits or more leaves room for three bytes and a sign
      have hroom : 3 < a.pos := by
        by_contra hlt
        have : 10 ^ (a.pos - 1) ≤ 10 ^ 2 := Nat.pow_le_pow_right (by decide) (by omega)
        omega
      obtain ⟨a₁, h₁, hh₁, hp₁⟩ := h.push [_, _] (show 2 ≤ a.pos by omega)
      simp only [List.length_cons, List.length_nil] at hp₁
      rw [h₁, except_ok_bind]
      have hfit₁ : rest / 100 < 10 ^ (a₁.pos - 1) := by
        rw [Nat.div_lt_iff_lt_mul (by decide), show (100 : Nat) = 10 ^ 2 from rfl, ← pow_add,
          show a₁.pos - 1 + 2 = a.pos - 1 by omega]
        exact hfit
      have hfuel₁ : rest / 100 < 100 ^ fuel := by
        rw [Nat.div_lt_iff_lt_mul (by decide), ← pow_succ]
        exact hfuel
      have hpos₁ : 0 < fuel := by
        by_contra hz
        rw [show fuel = 0 by omega] at hfuel₁
        omega
      obtain ⟨rest', a', ds, hrun, hhas, hlt, hfit', hpos', hvalue, hds, hzero⟩ :=
        pairLoop_spec fuel (rest / 100) a₁ _ hh₁ hfit₁ hfuel₁ (by omega) hpos₁
      refine ⟨rest', a', ds ++ [rest % 100 / 10, rest % 100 % 10], hrun, ?_, hlt, hfit', hpos',
        ?_, ?_, ?_⟩
      · simpa using hhas
      · rw [Decimal.value_append, hvalue, Decimal.value_cons, Decimal.value_cons, Decimal.value_nil]
        omega
      · intro d hd
        rcases List.mem_append.mp hd with hd | hd
        · exact hds d hd
        · simp only [List.mem_cons, List.not_mem_nil, or_false] at hd
          omega
      · intro hz
        rw [hz, hzero hz, Decimal.value_nil] at hvalue
        omega
    · rw [if_neg hge]
      exact ⟨rest, a, [], rfl, h, by omega, hfit, hpos, rfl, by simp, fun _ => rfl⟩

/-- The last one or two digits leave a place for a sign. -/
theorem lastDigits_spec {rest : Nat} {a : DigitArray} {bytes : List UInt8} (h : a.Has bytes)
    (hlt : rest < 100) (hfit : rest < 10 ^ (a.pos - 1)) (hpos : 1 < a.pos) :
    ∃ a' es, lastDigits rest a = .ok a' ∧ a'.Has (es.map digitByte ++ bytes) ∧ 0 < a'.pos ∧
      Decimal.value 0 es = rest ∧ (∀ d ∈ es, d < 10) ∧ es ≠ [] ∧
      (es.head? = some 0 → es = [0]) := by
  unfold lastDigits
  by_cases hge : 10 ≤ rest
  · have hroom : 2 < a.pos := by
      by_contra hn
      rw [show a.pos - 1 = 1 by omega] at hfit
      omega
    obtain ⟨a₁, h₁, hh₁, hp₁⟩ :=
      h.push [digitByte (rest / 10), digitByte (rest % 10)] (show 2 ≤ a.pos by omega)
    simp only [List.length_cons, List.length_nil] at hp₁
    rw [if_pos hge, pairOf_eq hlt, except_ok_bind]
    refine ⟨a₁, [rest / 10, rest % 10], h₁, hh₁, by omega, ?_, ?_, by simp, ?_⟩
    · rw [Decimal.value_cons, Decimal.value_cons, Decimal.value_nil]
      omega
    · intro d hd
      simp only [List.mem_cons, List.not_mem_nil, or_false] at hd
      omega
    · intro hz
      rw [List.head?_cons, Option.some.injEq] at hz
      omega
  · obtain ⟨a₁, h₁, hh₁, hp₁⟩ := h.push [0x30 + UInt8.ofNat rest] (show 1 ≤ a.pos by omega)
    simp only [List.length_cons, List.length_nil] at hp₁
    rw [if_neg hge]
    refine ⟨a₁, [rest], h₁, ?_, by omega, by simp, ?_, by simp, ?_⟩
    · rw [List.map_cons, List.map_nil, digitByte, UInt8.ofNat_add]
      exact hh₁
    · intro d hd
      rw [List.mem_singleton.mp hd]
      omega
    · intro hz
      rw [List.head?_cons, Option.some.injEq] at hz
      rw [hz]

/-- `bytes` are the canonical decimal form of `v`: a minus sign only if it is negative, then its
digits, of which the first is zero only if it is the only one. -/
def IsDecimalOf (v : Int) (bytes : List UInt8) : Prop :=
  ∃ ds : List Nat, bytes = (if v < 0 then [0x2D] else []) ++ ds.map digitByte ∧
    (∀ d ∈ ds, d < 10) ∧ Decimal.value 0 ds = v.natAbs ∧ ds ≠ [] ∧
    (ds.head? = some 0 → ds = [0])

/-- A sign goes in front of the digits of a negative number. -/
theorem signDigit_spec {a : DigitArray} {bytes : List UInt8} (h : a.Has bytes) (hpos : 0 < a.pos)
    (v : Int) : ∃ a', signDigit v a = .ok a' ∧
      a'.Has ((if v < 0 then [0x2D] else []) ++ bytes) := by
  unfold signDigit
  by_cases hneg : v < 0
  · obtain ⟨a₁, h₁, hh₁, _⟩ := h.push [0x2D] (show 1 ≤ a.pos from hpos)
    exact ⟨a₁, by rw [if_pos hneg, h₁], by rw [if_pos hneg]; exact hh₁⟩
  · exact ⟨a, by rw [if_neg hneg], by rw [if_neg hneg]; exact h⟩

/-- The digits of an `i64` come out of the array. -/
theorem i64Digits_spec {value : Int} (hmin : -2 ^ 63 ≤ value) (hmax : value < 2 ^ 63) :
    ∃ bytes, i64Digits value = .ok bytes ∧ IsDecimalOf value bytes := by
  have hbound : value.natAbs ≤ 2 ^ 63 := by omega
  -- nineteen digits and a sign fill the array
  have hfit : value.natAbs < 10 ^ (DigitArray.new.pos - 1) :=
    Nat.lt_of_le_of_lt hbound (by decide)
  have hfuel : value.natAbs < 100 ^ 20 := Nat.lt_of_le_of_lt hbound (by decide)
  obtain ⟨rest, a₁, ds, hloop, hhas₁, hlt, hfit₁, hpos₁, hvalue, hds, hzero⟩ :=
    pairLoop_spec 20 value.natAbs .new [] DigitArray.new_has hfit hfuel (by decide) (by decide)
  obtain ⟨a₂, es, hlast, hhas₂, hpos₂, hvalue₂, hes, hne, hhead⟩ :=
    lastDigits_spec hhas₁ hlt hfit₁ hpos₁
  obtain ⟨a₃, hsign, hhas₃⟩ := signDigit_spec hhas₂ hpos₂ value
  have hdigits : i64Digits value =
      .ok ((if value < 0 then [0x2D] else []) ++ (es ++ ds).map digitByte) := by
    rw [i64Digits, hloop, except_ok_bind, hlast, except_ok_bind, hsign, except_ok_bind,
      hhas₃.slice, List.append_nil, List.map_append]
  refine ⟨_, hdigits, es ++ ds, rfl, ?_, ?_, ?_, ?_⟩
  · intro d hd
    rcases List.mem_append.mp hd with hd | hd
    · exact hes d hd
    · exact hds d hd
  · rw [Decimal.value_append, hvalue₂, hvalue]
  · simp [hne]
  · -- a zero in front is all that is left of the number, so nothing was taken off it
    intro hz
    rw [List.head?_append_of_ne_nil _ hne] at hz
    have hes₀ := hhead hz
    have hrest : rest = 0 := by rw [← hvalue₂, hes₀]; rfl
    rw [hes₀, hzero hrest, List.append_nil]

/-- An integer is written by its digits. -/
theorem writeI64_of_digits {value : Int} {bytes : List UInt8} (h : i64Digits value = .ok bytes) :
    writeI64 value = writeNumberBytes bytes := by
  unfold writeI64
  rw [h]
  rfl

/-- **`write_i64` is the canonical decimal formatter**: for every `i64` its loop stays inside the
array and the table, and the bytes it hands on are the decimal form of the value. -/
theorem integers_canonical (value : Int) (hmin : -2 ^ 63 ≤ value) (hmax : value < 2 ^ 63) :
    ∃ bytes, i64Digits value = .ok bytes ∧ IsDecimalOf value bytes ∧
      writeI64 value = writeNumberBytes bytes := by
  obtain ⟨bytes, hdigits, hdecimal⟩ := i64Digits_spec hmin hmax
  exact ⟨bytes, hdigits, hdecimal, writeI64_of_digits hdigits⟩

/-- The least `i64` fills the array. -/
theorem integers_canonical_least :
    -2 ^ 63 ≤ (-9223372036854775808 : Int) ∧ (-9223372036854775808 : Int) < 2 ^ 63 ∧
    ∃ bytes, i64Digits (-9223372036854775808) = .ok bytes ∧
      IsDecimalOf (-9223372036854775808) bytes ∧
      writeI64 (-9223372036854775808) = writeNumberBytes bytes :=
  ⟨by decide, by decide, integers_canonical (-9223372036854775808) (by decide) (by decide)⟩

/-! ## The decimal form is one -/

/-- The canonical decimal form of an integer. -/
def decimalBytes (v : Int) : List UInt8 :=
  (if v < 0 then [0x2D] else []) ++
    (Nat.toDigits 10 v.natAbs).map fun c => UInt8.ofNat c.toNat

theorem digitByte_eq {d : Nat} (h : d < 10) :
    UInt8.ofNat (Nat.digitChar d).toNat = digitByte d := by
  have hall : ∀ d < 10, UInt8.ofNat (Nat.digitChar d).toNat = digitByte d := by decide
  exact hall d h

/-- Digits that start with zero only if they are one are those of their value. -/
theorem toDigits_of_canonical {ds : List Nat} (hds : ∀ d ∈ ds, d < 10) (hne : ds ≠ [])
    (hhead : ds.head? = some 0 → ds = [0]) :
    Nat.toDigits 10 (Decimal.value 0 ds) = ds.map Nat.digitChar := by
  cases ds with
  | nil => exact absurd rfl hne
  | cons d ds =>
    have hd := hds d List.mem_cons_self
    by_cases hz : d = 0
    · cases hz
      rw [hhead rfl]
      rfl
    · rw [Decimal.value_cons, Nat.zero_mul, Nat.zero_add,
        Decimal.toDigits_value (Nat.pos_of_ne_zero hz) fun e he =>
          hds e (List.mem_cons_of_mem _ he),
        Nat.toDigits_of_lt_base hd]
      rfl

/-- A number has one canonical form. -/
theorem IsDecimalOf.eq {v : Int} {bytes : List UInt8} (h : IsDecimalOf v bytes) :
    bytes = decimalBytes v := by
  obtain ⟨ds, rfl, hds, hvalue, hne, hhead⟩ := h
  rw [decimalBytes, ← hvalue, toDigits_of_canonical hds hne hhead, List.map_map]
  congr 1
  apply List.map_congr_left
  intro d hd
  exact (digitByte_eq (hds d hd)).symm

/-- **`write_i64`** writes it, for every number of 64 bits. -/
theorem writeI64_eq {value : Int} (hmin : -2 ^ 63 ≤ value) (hmax : value < 2 ^ 63) :
    writeI64 value = writeNumberBytes (decimalBytes value) := by
  obtain ⟨bytes, hdigits, hdecimal⟩ := i64Digits_spec hmin hmax
  rw [writeI64_of_digits hdigits, hdecimal.eq]

end RJsonParser
