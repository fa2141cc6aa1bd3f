import RJsonParser.Properties.Bounds
import RJsonParser.Properties.NumberValues

/-!
# The power of ten of a number

What `decimal_shift` and `exponent` come to over the text of a number, however far it was read. A
digit that no longer fits the mantissa moves the point to the right where it is in the integer part,
and a digit that fits it moves the point to the left where it is in the fraction.

* `digitsHeld` — how many digits an `i64` holds
* `powerOf`, `exponentKept` — the two accumulators, in terms of the text
* `NumberState.Tells` — a number that was read as far as its parts tell
* `PowerFits`, `ScaleFits` — the texts for which an `i32` holds them, and their sum
-/

namespace RJsonParser

open Infra

/-! ## Digits that fit -/

/-- How many of the digits `ds`, read behind `m`, an `i64` holds. -/
def digitsHeld : Nat → List Nat → Nat
  | _, [] => 0
  | m, d :: ds => if m * 10 + d ≤ i64Max then digitsHeld (m * 10 + d) ds + 1 else 0

theorem digitsHeld_le : ∀ (m : Nat) (ds : List Nat), digitsHeld m ds ≤ ds.length
  | _, [] => le_rfl
  | m, d :: ds => by
    unfold digitsHeld
    split_ifs
    · exact Nat.succ_le_succ (digitsHeld_le _ ds)
    · exact Nat.zero_le _

/-- One more digit fits if all before it do and the value is not too large. -/
theorem digitsHeld_snoc (d : Nat) : ∀ (m : Nat) (ds : List Nat),
    digitsHeld m (ds ++ [d]) =
      if digitsHeld m ds = ds.length ∧ Decimal.value m ds * 10 + d ≤ i64Max then ds.length + 1
      else digitsHeld m ds
  | m, [] => by
    show digitsHeld m [d] =
      if digitsHeld m [] = 0 ∧ m * 10 + d ≤ i64Max then 1 else digitsHeld m []
    simp [digitsHeld]
  | m, e :: ds => by
    have hvalue : Decimal.value m (e :: ds) = Decimal.value (m * 10 + e) ds := rfl
    rw [List.cons_append, digitsHeld, digitsHeld, digitsHeld_snoc d (m * 10 + e) ds, hvalue,
      List.length_cons]
    by_cases he : m * 10 + e ≤ i64Max
    · simp only [he, if_true, Nat.add_right_cancel_iff]
      split_ifs <;> rfl
    · simp [he]

/-- The first six digits of an exponent that are not leading zeros. -/
def leadingExponent (ds : List Nat) : Nat := Decimal.value 0 ((ds.dropWhile (· = 0)).take 6)

/-- Where the first digit is not zero, the value has as many places as there are digits. -/
theorem pow_le_value {d : Nat} (hd : 0 < d) (ds : List Nat) :
    10 ^ ds.length ≤ Decimal.value 0 (d :: ds) := by
  rw [show Decimal.value 0 (d :: ds) = Decimal.value (0 * 10 + d) ds from rfl, Decimal.value_eq]
  calc 10 ^ ds.length = 1 * 10 ^ ds.length := (Nat.one_mul _).symm
    _ ≤ (0 * 10 + d) * 10 ^ ds.length := Nat.mul_le_mul_right _ (by omega)
    _ ≤ _ := Nat.le_add_right _ _

/-- An exponent that has six digits takes no more. -/
theorem leadingExponent_snoc {ds : List Nat} (hds : ∀ e ∈ ds, e < 10) (d : Nat) :
    leadingExponent (ds ++ [d]) =
      if leadingExponent ds < 100000 then leadingExponent ds * 10 + d else leadingExponent ds := by
  unfold leadingExponent
  rw [List.dropWhile_append]
  have hlt := fun e he => hds e ((List.dropWhile_suffix (fun e => decide (e = 0))).subset he)
  have hhead := List.head?_dropWhile_not (fun e => decide (e = 0)) ds
  generalize ds.dropWhile (fun e => decide (e = 0)) = q at hlt hhead ⊢
  cases q with
  | nil => by_cases hd : d = 0 <;> simp [hd, Decimal.value]
  | cons e l =>
    have he : 0 < e := by simpa [Nat.pos_iff_ne_zero] using hhead
    simp only [List.isEmpty_cons, Bool.false_eq_true, if_false]
    by_cases hlen : (e :: l).length ≤ 5
    · have hsmall : Decimal.value 0 (e :: l) < 100000 :=
        (Decimal.value_lt hlt).trans_le (Nat.pow_le_pow_right (by decide) hlen)
      rw [List.take_of_length_le (by simp at hlen ⊢; omega),
        List.take_of_length_le (hlen.trans (by decide)), if_pos hsmall, Decimal.value_append]
      rfl
    · have hlarge : ¬ Decimal.value 0 ((e :: l).take 6) < 100000 := by
        have := pow_le_value he (l.take 5)
        rw [List.length_take, Nat.min_eq_left (by simp at hlen; omega)] at this
        rw [List.take_succ_cons]
        omega
      rw [List.take_append_of_le_length (by simp at hlen ⊢; omega), if_neg hlarge]

/-! ## The mantissa and its power of ten -/

namespace NumberState

section Digit

variable {s n : NumberState} {ds : List Nat} {f d : Nat}

/-- **Where the point is** after the significant digits `ds`, of which `f` are behind it. -/
structure Scaled (s : NumberState) (ds : List Nat) (f : Nat) : Prop where
  mantissa : s.mantissaFull = false → s.mantissa = Decimal.value 0 ds
  full : s.mantissaFull = true ↔ digitsHeld 0 ds < ds.length
  shift : s.decimalShift = ds.length - digitsHeld 0 ds - (f : Int)

theorem Scaled.congr (h : s.Scaled ds f) (hm : n.mantissa = s.mantissa)
    (hf : n.mantissaFull = s.mantissaFull) (hs : n.decimalShift = s.decimalShift) :
    n.Scaled ds f :=
  ⟨by rw [hm, hf]; exact h.mantissa, by rw [hf]; exact h.full, by rw [hs]; exact h.shift⟩

/-- A digit that fits goes into the mantissa, behind the point or before it. A digit that does not
is dropped, as are all after it. -/
theorem Scaled.takeDigit (h : s.Scaled ds f) (hd : d < 10) (fraction : Bool) :
    (s.takeDigit d fraction).Scaled (ds ++ [d]) (if fraction then f + 1 else f) := by
  have hle := digitsHeld_le 0 ds
  have hfit := digitsHeld_snoc d 0 ds
  have hshift := h.shift
  unfold NumberState.takeDigit
  by_cases hfull : s.mantissaFull = true
  · have hlt := h.full.mp hfull
    rw [if_neg (by omega)] at hfit
    rw [if_neg (by simp [hfull])]
    cases fraction <;> simp only [hfull, if_true, if_false, Bool.false_eq_true]
    all_goals
      refine ⟨fun hc => by simp at hc, ?_, ?_⟩
      · rw [hfit, List.length_append]
        exact ⟨fun _ => by omega, fun _ => by simp⟩
      · dsimp only
        rw [hfit, hshift, List.length_append]
        simp only [List.length_singleton]
        omega
  · have hfull' : s.mantissaFull = false := by simpa using hfull
    have hall : digitsHeld 0 ds = ds.length := hle.antisymm (by have := h.full; simp_all)
    have hm := h.mantissa hfull'
    rw [hall] at hfit hshift
    have hmax : i64Max = 9223372036854775807 := rfl
    by_cases hfits : s.mantissa ≤ (i64Max - d) / 10
    · rw [if_pos ⟨rfl, by rw [← hm]; omega⟩] at hfit
      rw [if_pos (by simp [hfull', hfits])]
      refine ⟨fun _ => ?_, ?_, ?_⟩
      · rw [value_snoc, ← hm]
      · rw [hfit, List.length_append]
        simp [hfull']
      · dsimp only
        rw [hfit, List.length_append]
        simp only [List.length_singleton]
        cases fraction <;> simp only [if_true, if_false, Bool.false_eq_true] <;> omega
    · rw [if_neg (by rw [← hm]; omega)] at hfit
      rw [if_neg (by simp [hfits])]
      cases fraction <;> simp only [hfull', if_true, if_false, Bool.false_eq_true]
      all_goals
        refine ⟨fun hc => by simp at hc, ?_, ?_⟩
        · rw [hfit, List.length_append]
          exact ⟨fun _ => by simp, fun _ => rfl⟩
        · dsimp only
          rw [hfit, hshift, List.length_append]
          simp only [List.length_singleton]
          omega

end Digit

end NumberState

/-! ## The parts of a number -/

section Parts

variable {minus int frac exp : List UInt8} {b : UInt8}

/-- The parts of a number, the last of which may not be all there. -/
structure PartsSoFar (minus int frac exp : List UInt8) : Prop where
  minus : minus = [] ∨ minus = [0x2D]
  int : ∀ b ∈ int, isDigit b = true
  frac : frac = [] ∨ ∃ ds, frac = 0x2E :: ds ∧ ∀ b ∈ ds, isDigit b = true
  exp : exp = [] ∨ ∃ mark sign ds, exp = mark :: (sign ++ ds) ∧ (mark = 0x65 ∨ mark = 0x45) ∧
    (sign = [] ∨ sign = [0x2B] ∨ sign = [0x2D]) ∧ ∀ b ∈ ds, isDigit b = true

/-- The parts that there are in a stage. -/
def NumStage.Reaches (stage : NumStage) (int frac exp : List UInt8) : Prop :=
  match stage with
  | .none => False
  | .afterMinus => int = [] ∧ frac = [] ∧ exp = []
  | .zero | .integer => frac = [] ∧ exp = []
  | .fractionDot => frac = [0x2E] ∧ exp = []
  | .fraction => frac.tail ≠ [] ∧ exp = []
  | .exponentMark => exp.length = 1
  | .exponentSign | .exponent => exp ≠ []

/-- **What the accumulators tell of the parts.** -/
structure NumberState.Tells (n : NumberState) (minus int frac exp : List UInt8) : Prop where
  parts : PartsSoFar minus int frac exp
  reaches : n.stage.Reaches int frac exp
  scaled : n.Scaled (digitsOf (int ++ frac.tail)) frac.tail.length
  exponentNegative : n.exponentNegative = decide (exp.tail.head? = some 0x2D)
  exponent : n.exponent = leadingExponent (digitsOf (NumberState.exponentDigits exp))

namespace NumberState

/-- The digits of an exponent are those behind its sign. -/
theorem exponentDigits_eq (mark : UInt8) {sign ds : List UInt8}
    (hsign : sign = [] ∨ sign = [0x2B] ∨ sign = [0x2D]) (hds : ∀ b ∈ ds, isDigit b = true) :
    exponentDigits (mark :: (sign ++ ds)) = ds ∧
      ((sign ++ ds).head? = some 0x2D ↔ sign = [0x2D]) := by
  rcases hsign with rfl | rfl | rfl
  · cases ds with
    | nil => exact ⟨rfl, by simp⟩
    | cons d ds =>
      have hd := hds d List.mem_cons_self
      have hplus : d ≠ 0x2B := by rintro rfl; exact absurd hd (by decide)
      have hminus : d ≠ 0x2D := by rintro rfl; exact absurd hd (by decide)
      exact ⟨by simp [exponentDigits, hplus, hminus], by simp [hminus]⟩
  · exact ⟨by simp [exponentDigits], by simp⟩
  · exact ⟨by simp [exponentDigits], by simp⟩

variable {s n : NumberState}

/-- The first byte of a number. -/
theorem start_tells (hb : startsNumber b = true) :
    ∃ minus int, [b] = minus ++ int ∧ (start b).Tells minus int [] [] := by
  by_cases hminus : b = 0x2D
  · subst hminus
    refine ⟨[0x2D], [], rfl, ⟨.inr rfl, by simp, .inl rfl, .inl rfl⟩, ⟨rfl, rfl, rfl⟩, ?_, rfl, rfl⟩
    exact ⟨fun _ => rfl, by simp [start, new, digitsHeld, digitsOf], rfl⟩
  · have hd : isDigit b = true := by simpa [startsNumber, hminus] using hb
    have hmantissa : (start b).mantissa = (digitOf b).toNat ∧ (start b).mantissaFull = false ∧
        (start b).decimalShift = 0 ∧ (start b).exponentNegative = false ∧
        (start b).exponent = 0 := by
      by_cases hzero : b = 0x30
      · subst hzero
        exact ⟨rfl, rfl, rfl, rfl, rfl⟩
      · simp [start, new, hminus, hzero]
    obtain ⟨hm, hfull, hshift, hneg, hexp⟩ := hmantissa
    have hfits : digitsHeld 0 (digitsOf [b]) = 1 := by
      have := digit_lt hd
      have hmax : i64Max = 9223372036854775807 := rfl
      simp only [digitsOf, List.map_cons, List.map_nil, digitsHeld]
      rw [if_pos (by omega)]
    refine ⟨[], [b], rfl, ⟨.inl rfl, by simpa using hd, .inl rfl, .inl rfl⟩, ?_, ?_, hneg, hexp⟩
    · rw [start_stage, if_neg hminus]
      split_ifs <;> exact ⟨rfl, rfl⟩
    · refine ⟨fun _ => ?_, ?_, ?_⟩
      · rw [hm]
        simp [Decimal.value, digitsOf]
      · rw [hfull, List.tail_nil, List.append_nil, hfits]
        simp [digitsOf]
      · rw [hshift, List.tail_nil, List.append_nil, hfits]
        simp [digitsOf]

/-- A digit of the integer part. -/
theorem Tells.intDigit (h : s.Tells minus int [] []) (hb : isDigit b = true) {stage : NumStage}
    (hstage : stage = .integer) :
    (({ s with stage := stage }.takeDigit (digitOf b).toNat false).addLength 1).Tells minus
      (int ++ [b]) [] [] := by
  obtain ⟨h1, h2, h3, h4⟩ := takeDigit_keeps { s with stage := stage } (digitOf b).toNat false
  have hscaled : Scaled { s with stage := stage } (digitsOf (int ++ [])) 0 :=
    h.scaled.congr rfl rfl rfl
  refine ⟨⟨h.parts.minus, ?_, .inl rfl, .inl rfl⟩, ?_, ?_, h3.trans h.exponentNegative,
    h4.trans h.exponent⟩
  · intro d hd
    rcases List.mem_append.mp hd with hd | hd
    · exact h.parts.int d hd
    · rwa [List.mem_singleton.mp hd]
  · show (takeDigit _ _ false).stage.Reaches _ _ _
    rw [takeDigit_stage, hstage]
    exact ⟨rfl, rfl⟩
  · have hnext := (hscaled.takeDigit (digit_lt hb) false).congr (n :=
      ({ s with stage := stage }.takeDigit (digitOf b).toNat false).addLength 1) rfl rfl rfl
    simpa [digitsOf] using hnext

/-- A digit of the fraction. -/
theorem Tells.fracDigit (h : s.Tells minus int frac []) (hfrac : frac ≠ []) (hb : isDigit b = true)
    {stage : NumStage} (hstage : stage = .fraction) :
    (({ s with stage := stage }.takeDigit (digitOf b).toNat true).addLength 1).Tells minus
      int (frac ++ [b]) [] := by
  obtain ⟨h1, h2, h3, h4⟩ := takeDigit_keeps { s with stage := stage } (digitOf b).toNat true
  obtain ⟨ds, rfl, hds⟩ := h.parts.frac.resolve_left hfrac
  have hscaled : Scaled { s with stage := stage } (digitsOf (int ++ ds)) ds.length :=
    h.scaled.congr rfl rfl rfl
  refine ⟨⟨h.parts.minus, h.parts.int, .inr ⟨ds ++ [b], rfl, ?_⟩, .inl rfl⟩, ?_, ?_,
    h3.trans h.exponentNegative, h4.trans h.exponent⟩
  · intro d hd
    rcases List.mem_append.mp hd with hd | hd
    · exact hds d hd
    · rwa [List.mem_singleton.mp hd]
  · show (takeDigit _ _ true).stage.Reaches _ _ _
    rw [takeDigit_stage, hstage]
    exact ⟨by simp, rfl⟩
  · have hnext := (hscaled.takeDigit (digit_lt hb) true).congr (n :=
      ({ s with stage := stage }.takeDigit (digitOf b).toNat true).addLength 1) rfl rfl rfl
    simpa [digitsOf] using hnext

/-- A digit of the exponent. -/
theorem Tells.expDigit (h : s.Tells minus int frac exp) (hexp : exp ≠ []) (hb : isDigit b = true)
    {stage : NumStage} (hstage : stage = .exponent) :
    (({ s with stage := stage }.takeExponentDigit (digitOf b).toNat).addLength 1).Tells minus
      int frac (exp ++ [b]) := by
  obtain ⟨mark, sign, ds, rfl, hmark, hsign, hds⟩ := h.parts.exp.resolve_left hexp
  have hds' : ∀ d ∈ ds ++ [b], isDigit d = true := by
    intro d hd
    rcases List.mem_append.mp hd with hd | hd
    · exact hds d hd
    · rwa [List.mem_singleton.mp hd]
  obtain ⟨hdigits, hneg⟩ := exponentDigits_eq mark hsign hds
  obtain ⟨hdigits', hneg'⟩ := exponentDigits_eq mark hsign hds'
  have hassoc : mark :: (sign ++ ds) ++ [b] = mark :: (sign ++ (ds ++ [b])) := by simp
  rw [hassoc]
  obtain ⟨e, he⟩ : ∃ e, { s with stage := stage }.takeExponentDigit (digitOf b).toNat =
      { s with stage := stage, exponent := e } ∧
      e = if s.exponent < 100000 then s.exponent * 10 + (digitOf b).toNat else s.exponent := by
    unfold takeExponentDigit
    dsimp only
    split
    · exact ⟨_, rfl, rfl⟩
    · exact ⟨_, rfl, rfl⟩
  rw [he.1]
  refine ⟨⟨h.parts.minus, h.parts.int, h.parts.frac, .inr ⟨mark, sign, ds ++ [b], rfl, hmark,
    hsign, hds'⟩⟩, ?_, h.scaled.congr rfl rfl rfl, ?_, ?_⟩
  · show stage.Reaches _ _ _
    rw [hstage]
    exact List.cons_ne_nil _ _
  · refine h.exponentNegative.trans ?_
    simp only [List.tail_cons, hneg, hneg']
  · show e = _
    have hexponent := h.exponent
    rw [hdigits] at hexponent
    rw [hdigits', he.2, hexponent, show digitsOf (ds ++ [b]) = digitsOf ds ++ [(digitOf b).toNat] by
      simp [digitsOf], leadingExponent_snoc (digitsOf_lt hds)]

/-- A mark behind the integer part. -/
theorem Tells.takeMark (h : s.Tells minus int [] []) (hs : s.takeMark b = .next n) :
    ∃ frac exp, frac ++ exp = [b] ∧ (n.addLength 1).Tells minus int frac exp := by
  unfold NumberState.takeMark at hs
  split_ifs at hs with hdot hmark
  · cases hs
    subst hdot
    exact ⟨[0x2E], [], rfl, ⟨h.parts.minus, h.parts.int, .inr ⟨[], rfl, by simp⟩, .inl rfl⟩,
      ⟨rfl, rfl⟩, h.scaled.congr rfl rfl rfl, h.exponentNegative, h.exponent⟩
  · cases hs
    exact ⟨[], [b], rfl, ⟨h.parts.minus, h.parts.int, .inl rfl,
      .inr ⟨b, [], [], rfl, hmark, .inl rfl, by simp⟩⟩, rfl, h.scaled.congr rfl rfl rfl,
      h.exponentNegative, h.exponent⟩

/-- **One byte** goes to the part that is not complete, or begins the next. -/
theorem Tells.takeByte (h : s.Tells minus int frac exp) (hs : s.takeByte b = .next n) :
    ∃ int' frac' exp', int' ++ frac' ++ exp' = int ++ frac ++ exp ++ [b] ∧
      (n.addLength 1).Tells minus int' frac' exp' := by
  have hreaches := h.reaches
  unfold NumberState.takeByte at hs
  dsimp only at hs
  -- by the stage, which says the part that the byte goes to
  cases hstage : s.stage <;> rw [hstage] at hs hreaches <;> dsimp only at hs
  case none => cases hs
  case afterMinus =>
    obtain ⟨rfl, rfl, rfl⟩ := hreaches
    split_ifs at hs with hzero hd
    · cases hs
      subst hzero
      refine ⟨[0x30], [], [], rfl, ⟨h.parts.minus, by simp; decide, .inl rfl, .inl rfl⟩,
        ⟨rfl, rfl⟩, ?_, h.exponentNegative, h.exponent⟩
      obtain ⟨hm, hfull, hshift⟩ := h.scaled
      exact ⟨hm, hfull.trans (by decide), hshift⟩
    · cases hs
      exact ⟨[b], [], [], rfl, h.intDigit hd rfl⟩
  case zero =>
    obtain ⟨rfl, rfl⟩ := hreaches
    split_ifs at hs
    obtain ⟨frac, exp, heq, htells⟩ := h.takeMark hs
    exact ⟨int, frac, exp, by simp [heq], htells⟩
  case integer =>
    obtain ⟨rfl, rfl⟩ := hreaches
    split_ifs at hs with hd
    · cases hs
      exact ⟨int ++ [b], [], [], by simp, h.intDigit hd hstage⟩
    · obtain ⟨frac, exp, heq, htells⟩ := h.takeMark hs
      exact ⟨int, frac, exp, by simp [heq], htells⟩
  case fractionDot =>
    obtain ⟨rfl, rfl⟩ := hreaches
    split_ifs at hs with hd
    cases hs
    exact ⟨int, [0x2E, b], [], by simp, h.fracDigit (by simp) (by simpa using hd) rfl⟩
  case fraction =>
    obtain ⟨hfrac, rfl⟩ := hreaches
    have hfrac' : frac ≠ [] := by
      rintro rfl
      exact hfrac rfl
    split_ifs at hs with hd hmark
    · cases hs
      exact ⟨int, frac ++ [b], [], by simp, h.fracDigit hfrac' hd hstage⟩
    · cases hs
      exact ⟨int, frac, [b], by simp, ⟨h.parts.minus, h.parts.int, h.parts.frac,
        .inr ⟨b, [], [], rfl, hmark, .inl rfl, by simp⟩⟩, rfl, h.scaled.congr rfl rfl rfl,
        h.exponentNegative, h.exponent⟩
  case exponentMark =>
    split_ifs at hs with hsign hd
    · cases hs
      obtain ⟨mark, rfl⟩ := List.length_eq_one_iff.mp hreaches
      obtain ⟨mark', sign, ds, heq, hmark, -⟩ := h.parts.exp.resolve_left (List.cons_ne_nil _ _)
      rw [← (List.cons.inj heq).1] at hmark
      have hsign' : [b] = [] ∨ [b] = [0x2B] ∨ [b] = [0x2D] := .inr (by simpa using hsign)
      obtain ⟨hdigits, hneg⟩ := exponentDigits_eq mark hsign'
        (List.forall_mem_nil (isDigit · = true))
      refine ⟨int, frac, [mark, b], by simp, ⟨h.parts.minus, h.parts.int, h.parts.frac,
        .inr ⟨mark, [b], [], rfl, hmark, hsign', by simp⟩⟩, List.cons_ne_nil _ _,
        h.scaled.congr rfl rfl rfl, ?_, ?_⟩
      · show decide (b = 0x2D) = decide ([b].head? = some 0x2D)
        simp
      · show s.exponent = leadingExponent (digitsOf (exponentDigits (mark :: ([b] ++ []))))
        rw [hdigits]
        exact h.exponent
    · cases hs
      refine ⟨int, frac, exp ++ [b], by simp, h.expDigit ?_ hd rfl⟩
      rintro rfl
      cases hreaches
  case exponentSign =>
    split_ifs at hs with hd
    cases hs
    exact ⟨int, frac, exp ++ [b], by simp, h.expDigit hreaches (by simpa using hd) rfl⟩
  case exponent =>
    split_ifs at hs with hd
    cases hs
    exact ⟨int, frac, exp ++ [b], by simp, h.expDigit hreaches hd hstage⟩

/-- **A number tells of its parts**, as far as it was read. -/
theorem Tells.takeBytes (h : s.Tells minus int frac exp) {l : List UInt8}
    (hs : s.takeBytes l = some n) : ∃ int' frac' exp',
      int' ++ frac' ++ exp' = int ++ frac ++ exp ++ l ∧ n.Tells minus int' frac' exp' := by
  induction l generalizing s int frac exp with
  | nil =>
    cases hs
    exact ⟨int, frac, exp, (List.append_nil _).symm, h⟩
  | cons b l ih =>
    unfold NumberState.takeBytes at hs
    cases hb : s.takeByte b with
    | next s' =>
      rw [hb] at hs
      obtain ⟨int₁, frac₁, exp₁, heq₁, h₁⟩ := h.takeByte hb
      obtain ⟨int₂, frac₂, exp₂, heq₂, h₂⟩ := ih h₁ hs
      exact ⟨int₂, frac₂, exp₂, by rw [heq₂, heq₁]; simp, h₂⟩
    | ended | error message | unreachable =>
      rw [hb] at hs
      cases hs

end NumberState

end Parts

/-! ## Texts that do not overflow -/

/-- The power of ten that the digits of a number which an `i64` holds are scaled by. -/
def powerOf (int frac : List UInt8) : Int :=
  int.length - digitsHeld 0 (digitsOf (int ++ frac.tail))

/-- The exponent of a number, as far as it is kept. -/
def exponentKept (exp : List UInt8) : Int :=
  let e := leadingExponent (digitsOf (NumberState.exponentDigits exp))
  if exp.tail.head? = some 0x2D then -(e : Int) else e

/-- An `i32` holds the power of ten of a number, as far as its text goes. -/
def PowerFits (text : List UInt8) : Prop := ∀ minus int frac exp,
  text = minus ++ int ++ frac ++ exp → PartsSoFar minus int frac exp →
    FitsSigned 32 (powerOf int frac)

/-- An `i32` holds the sum of the exponent of a number and its power of ten. -/
def ScaleFits (text : List UInt8) : Prop := ∀ minus int frac exp,
  text = minus ++ int ++ frac ++ exp → PartsSoFar minus int frac exp →
    FitsSigned 32 (exponentKept exp + powerOf int frac)

/-- No power of ten is larger than the text. -/
theorem natAbs_powerOf_le (int frac : List UInt8) :
    (powerOf int frac).natAbs ≤ int.length + frac.length := by
  have hle := digitsHeld_le 0 (digitsOf (int ++ frac.tail))
  rw [digitsOf, List.length_map, List.length_append, List.length_tail] at hle
  unfold powerOf digitsOf
  omega

/-- What is kept of an exponent has six digits. -/
theorem natAbs_exponentKept_lt {minus int frac exp : List UInt8}
    (h : PartsSoFar minus int frac exp) : (exponentKept exp).natAbs < 1000000 := by
  have hdigits : ∀ b ∈ NumberState.exponentDigits exp, isDigit b = true := by
    rcases h.exp with rfl | ⟨mark, sign, ds, rfl, -, hsign, hds⟩
    · exact fun b hb => by cases hb
    · rwa [(NumberState.exponentDigits_eq mark hsign hds).1]
  have hlt : leadingExponent (digitsOf (NumberState.exponentDigits exp)) < 1000000 := by
    have hsix := List.length_take_le 6
      ((digitsOf (NumberState.exponentDigits exp)).dropWhile (· = 0))
    have hmem : ∀ e ∈ ((digitsOf (NumberState.exponentDigits exp)).dropWhile (· = 0)).take 6,
        e < 10 := fun e he =>
      digitsOf_lt hdigits e ((List.dropWhile_suffix _).subset (List.mem_of_mem_take he))
    exact (Decimal.value_lt hmem).trans_le (Nat.pow_le_pow_right (by decide) hsix)
  unfold exponentKept
  dsimp only
  split_ifs <;> omega

/-- **A short text does not overflow.** -/
theorem PowerFits.of_length {text : List UInt8} (h : text.length < 2 ^ 31) : PowerFits text := by
  rintro minus int frac exp rfl -
  have hle := natAbs_powerOf_le int frac
  simp only [List.length_append] at h
  unfold FitsSigned
  omega

theorem ScaleFits.of_length {text : List UInt8} (h : text.length + 1000000 < 2 ^ 31) :
    ScaleFits text := by
  rintro minus int frac exp rfl hparts
  have hle := natAbs_powerOf_le int frac
  have hlt := natAbs_exponentKept_lt hparts
  simp only [List.length_append] at h
  unfold FitsSigned
  omega

namespace NumberState

variable {n : NumberState} {text : List UInt8}

/-- The number was read from `text`. -/
def ReadFrom (n : NumberState) (text : List UInt8) : Prop :=
  ∃ b l, text = b :: l ∧ startsNumber b = true ∧ (start b).takeBytes l = some n

/-- The parts that a number was read from. -/
theorem ReadFrom.tells (h : n.ReadFrom text) : ∃ minus int frac exp,
    text = minus ++ int ++ frac ++ exp ∧ n.Tells minus int frac exp := by
  obtain ⟨b, l, rfl, hb, hn⟩ := h
  obtain ⟨minus, int, heq, hstart⟩ := start_tells hb
  obtain ⟨int', frac', exp', heq', htells⟩ := hstart.takeBytes hn
  refine ⟨minus, int', frac', exp', ?_, htells⟩
  calc b :: l = [b] ++ l := rfl
    _ = minus ++ (int ++ [] ++ [] ++ l) := by rw [heq]; simp
    _ = minus ++ int' ++ frac' ++ exp' := by rw [← heq']; simp

/-- More of the number is read. -/
theorem ReadFrom.takeBytes {n' : NumberState} {l : List UInt8} (h : n.ReadFrom text)
    (hl : n.takeBytes l = some n') : n'.ReadFrom (text ++ l) := by
  obtain ⟨b, t, rfl, hb, hn⟩ := h
  exact ⟨b, t ++ l, rfl, hb, by rw [takeBytes_append hn, hl]⟩

/-- The text is as long as the number. -/
theorem ReadFrom.length (h : n.ReadFrom text) : n.length = text.length := by
  obtain ⟨b, l, rfl, -, hn⟩ := h
  rw [takeBytes_length hn, start_length, List.length_cons, Nat.add_comm]

/-- `decimal_shift` is the power of ten of the text. -/
theorem Tells.shift {minus int frac exp : List UInt8} (h : n.Tells minus int frac exp) :
    n.decimalShift = powerOf int frac := by
  have hshift := h.scaled.shift
  rw [hshift, powerOf, digitsOf, List.length_map, List.length_append]
  omega

/-- What `real_value` adds up. -/
theorem Tells.scale {minus int frac exp : List UInt8} (h : n.Tells minus int frac exp) :
    n.scale = exponentKept exp + powerOf int frac := by
  unfold NumberState.scale exponentKept
  rw [h.shift, h.exponentNegative, h.exponent]
  simp only [decide_eq_true_eq]

/-- **`decimal_shift` stays in its type** where the text does not overflow it. -/
theorem ReadFrom.shift_fits (h : n.ReadFrom text) (ht : PowerFits text) :
    FitsSigned 32 n.decimalShift := by
  obtain ⟨minus, int, frac, exp, heq, htells⟩ := h.tells
  rw [htells.shift]
  exact ht minus int frac exp heq htells.parts

/-- So does the sum with the exponent. -/
theorem ReadFrom.scale_fits (h : n.ReadFrom text) (ht : ScaleFits text) :
    FitsSigned 32 n.scale := by
  obtain ⟨minus, int, frac, exp, heq, htells⟩ := h.tells
  rw [htells.scale]
  exact ht minus int frac exp heq htells.parts

/-- In a fraction whose digits all fit the point was moved. -/
theorem ReadFrom.shift_neg (h : n.ReadFrom text) (hstage : n.stage = .fraction)
    (hfull : n.mantissaFull = false) : n.decimalShift < 0 := by
  obtain ⟨minus, int, frac, exp, -, htells⟩ := h.tells
  have hreaches := htells.reaches
  rw [hstage] at hreaches
  have hpos := List.length_pos_iff.mpr hreaches.1
  have hle := digitsHeld_le 0 (digitsOf (int ++ frac.tail))
  have hall : ¬ digitsHeld 0 (digitsOf (int ++ frac.tail)) <
      (digitsOf (int ++ frac.tail)).length := by
    rw [← htells.scaled.full, hfull]
    simp
  have hlen : (digitsOf (int ++ frac.tail)).length = int.length + frac.tail.length := by
    simp [digitsOf]
  rw [htells.shift, powerOf]
  omega

end NumberState

end RJsonParser
