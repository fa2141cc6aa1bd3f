import RJsonParser.Infra.Decimal
import RJsonParser.Properties.NumberTokens

/-!
# The values of numbers

What `NumberState` makes of a number, against the number that its text writes.

* `NumberState.Holds` — what the accumulators hold after some significant digits
* `NumberState.Read` — what they hold after a number
* `integers_exact` — integers are exact, in the narrowest variant
* `reals_bracketed` — the mantissa brackets the exact value of any other number
-/

namespace RJsonParser

open Infra

variable {F : Type}

/-! ## Digits -/

/-- The digits that some bytes are. -/
def digitsOf (l : List UInt8) : List Nat := l.map fun b => (digitOf b).toNat

/-- A digit is less than ten. -/
theorem digit_lt {b : UInt8} (h : isDigit b = true) : (digitOf b).toNat < 10 := by
  have : (digitOf b).toNat ≤ 9 := by simpa [isDigit, UInt8.le_iff_toNat_le] using h
  omega

theorem toNat_digit {b : UInt8} (h : isDigit b = true) : b.toNat = 48 + (digitOf b).toNat := by
  have hb : b = digitOf b + 0x30 := by simp [digitOf]
  have := digit_lt h
  have hnat := congrArg UInt8.toNat hb
  rw [UInt8.toNat_add, show (0x30 : UInt8).toNat = 48 from rfl] at hnat
  omega

theorem digitsOf_lt {l : List UInt8} (h : ∀ b ∈ l, isDigit b = true) :
    ∀ d ∈ digitsOf l, d < 10 := by
  intro d hd
  obtain ⟨b, hb, rfl⟩ := List.mem_map.mp hd
  exact digit_lt (h b hb)

theorem digitChar_eq {d : Nat} (h : d < 10) : NumberState.digitChar d = Nat.digitChar d := by
  revert d
  decide

namespace NumberState

/-- **What the accumulators hold after the significant digits `ds`**, of which `f` are behind the
point: all of them, or those before the first that does not fit. -/
structure Holds (s : NumberState) (ds : List Nat) (f : Nat) : Prop where
  bounded : s.mantissa ≤ i64Max
  exact : s.mantissaFull = false → s.mantissa = Decimal.value 0 ds ∧ s.decimalShift = -(f : Int) ∧
    s.bigDigits = [] ∧ s.droppedNonZero = false
  full : s.mantissaFull = true → ∃ kept dropped, ds = kept ++ dropped ∧
    s.mantissa = Decimal.value 0 kept ∧ s.decimalShift = dropped.length - (f : Int) ∧
    digitAlwaysFitsBelow < s.mantissa ∧ i64Max < Decimal.value 0 ds ∧
    (s.droppedNonZero = true ↔ ∃ d ∈ dropped, d ≠ 0) ∧
    (f = 0 → s.bigDigits = Nat.toDigits 10 s.mantissa ++ dropped.map Nat.digitChar)

section Digit

variable {s : NumberState} {ds : List Nat} {f d : Nat}

/-- The digits read so far and one more. -/
theorem value_snoc (ds : List Nat) (d : Nat) :
    Decimal.value 0 (ds ++ [d]) = Decimal.value 0 ds * 10 + d := by
  rw [Decimal.value_append]
  rfl

/-- The accumulators after one more digit, behind the point or before it. -/
theorem Holds.takeDigit (h : s.Holds ds f) (hd : d < 10) (fraction : Bool)
    (hf : fraction = false → f = 0) :
    (s.takeDigit d fraction).Holds (ds ++ [d]) (if fraction then f + 1 else f) := by
  unfold NumberState.takeDigit
  by_cases hfull : s.mantissaFull = true
  · -- one more digit is dropped
    obtain ⟨kept, dropped, rfl, hm, hshift, hlow, hbig, hzero, hdigits⟩ := h.full hfull
    have hbig' : i64Max < Decimal.value 0 (kept ++ dropped ++ [d]) := by rw [value_snoc]; omega
    have hdrop : (s.droppedNonZero || d != 0) = true ↔ ∃ e ∈ dropped ++ [d], e ≠ 0 := by
      simp [hzero, or_and_right, exists_or]
    rw [if_neg (by simp [hfull])]
    simp only [hfull, if_true]
    cases fraction with
    | false =>
      obtain rfl := hf rfl
      refine ⟨h.bounded, fun hc => by simp at hc, fun _ => ?_⟩
      refine ⟨kept, dropped ++ [d], List.append_assoc .., hm, ?_, hlow, hbig', hdrop, fun _ => ?_⟩
      · show s.decimalShift + 1 = _
        rw [hshift]
        simp
      · show s.bigDigits ++ [digitChar d] = _
        rw [hdigits rfl, digitChar_eq hd]
        simp
    | true =>
      refine ⟨h.bounded, fun hc => by simp [hfull] at hc, fun _ => ?_⟩
      refine ⟨kept, dropped ++ [d], List.append_assoc .., hm, ?_, hlow, hbig', hdrop, by simp⟩
      show s.decimalShift = _
      rw [hshift]
      simp
  · have hfull' : s.mantissaFull = false := by simpa using hfull
    obtain ⟨hm, hshift, hnone, hdropped⟩ := h.exact hfull'
    by_cases hfits : s.mantissa ≤ (i64Max - d) / 10
    · rw [if_pos (by simp [hfull', hfits])]
      refine ⟨?_, fun _ => ⟨?_, ?_, hnone, hdropped⟩, fun hc => absurd hc hfull⟩
      · show s.mantissa * 10 + d ≤ i64Max
        unfold i64Max at *
        omega
      · rw [value_snoc, ← hm]
      · cases fraction <;> simp [hshift]
        omega
    · -- this digit is the first that does not fit
      have hlow : digitAlwaysFitsBelow < s.mantissa := by
        unfold i64Max digitAlwaysFitsBelow at *
        omega
      have hbig : i64Max < Decimal.value 0 (ds ++ [d]) := by
        rw [value_snoc, ← hm]
        unfold i64Max at *
        omega
      rw [if_neg (by simp [hfits])]
      simp only [hfull', Bool.false_eq_true, if_false]
      cases fraction with
      | false =>
        obtain rfl := hf rfl
        refine ⟨h.bounded, fun hc => by simp at hc, fun _ => ?_⟩
        refine ⟨ds, [d], rfl, hm, ?_, hlow, hbig, by simp, fun _ => ?_⟩
        · show s.decimalShift + 1 = _
          rw [hshift]
          simp
        · show Nat.toDigits 10 s.mantissa ++ [digitChar d] = _
          rw [digitChar_eq hd]
          rfl
      | true =>
        refine ⟨h.bounded, fun hc => by simp at hc, fun _ => ?_⟩
        refine ⟨ds, [d], rfl, hm, ?_, hlow, hbig, by simp, by simp⟩
        show s.decimalShift = _
        rw [hshift]
        simp

end Digit

section Parts

variable {s n : NumberState} {ds : List Nat} {f : Nat} {l : List UInt8}

/-- The sign, the kind and the exponent are the same. -/
structure Keeps (s n : NumberState) : Prop where
  negative : n.negative = s.negative
  isReal : n.isReal = s.isReal
  exponentNegative : n.exponentNegative = s.exponentNegative
  exponent : n.exponent = s.exponent

theorem Keeps.trans {m : NumberState} (h : s.Keeps n) (h' : n.Keeps m) : s.Keeps m :=
  ⟨h'.negative.trans h.negative, h'.isReal.trans h.isReal,
    h'.exponentNegative.trans h.exponentNegative, h'.exponent.trans h.exponent⟩

/-- A digit changes nothing of sign, kind and exponent. -/
theorem takeDigit_keeps (s : NumberState) (d : Nat) (fraction : Bool) :
    s.Keeps (s.takeDigit d fraction) := by
  unfold takeDigit
  split
  · exact ⟨rfl, rfl, rfl, rfl⟩
  · split <;> split <;> exact ⟨rfl, rfl, rfl, rfl⟩

/-- The stage and the length are none of the accumulators. -/
theorem Holds.congr (h : s.Holds ds f) (hm : n.mantissa = s.mantissa)
    (hf : n.mantissaFull = s.mantissaFull) (hs : n.decimalShift = s.decimalShift)
    (hb : n.bigDigits = s.bigDigits) (hd : n.droppedNonZero = s.droppedNonZero) : n.Holds ds f := by
  obtain ⟨h1, h2, h3⟩ := h
  rw [← hm] at h1 h2 h3
  rw [← hf] at h2 h3
  rw [← hs] at h2 h3
  rw [← hb] at h2 h3
  rw [← hd] at h2 h3
  exact ⟨h1, h2, h3⟩

/-- A run of digits, of the integer part or behind the point. -/
theorem Holds.takeBytes (fraction : Bool)
    (hstage : s.stage = if fraction then .fraction else .integer) (h : s.Holds ds f)
    (hf : fraction = false → f = 0) (hl : ∀ b ∈ l, isDigit b = true) :
    ∃ n, s.takeBytes l = some n ∧ n.stage = s.stage ∧ s.Keeps n ∧
      n.Holds (ds ++ digitsOf l) (if fraction then f + l.length else f) := by
  induction l generalizing s ds f with
  | nil =>
    refine ⟨s, rfl, rfl, ⟨rfl, rfl, rfl, rfl⟩, ?_⟩
    cases fraction <;> simpa [digitsOf] using h
  | cons b l ih =>
    have hb := hl b List.mem_cons_self
    have hstep : s.takeByte b = .next (s.takeDigit (digitOf b).toNat fraction) := by
      cases fraction <;> simp [takeByte, hstage, hb]
    have hnext := (h.takeDigit (digit_lt hb) fraction hf).congr
      (n := (s.takeDigit (digitOf b).toNat fraction).addLength 1) rfl rfl rfl rfl rfl
    obtain ⟨n, hn, hst, hkeeps, hholds⟩ := ih
      (by show (s.takeDigit _ fraction).stage = _; rw [takeDigit_stage, hstage]) hnext
      (fun hfr => by rw [hfr]; exact hf hfr) (fun b hb => hl b (List.mem_cons_of_mem _ hb))
    refine ⟨n, ?_, hst.trans (takeDigit_stage s _ _), ?_, ?_⟩
    · simp only [NumberState.takeBytes, hstep]
      exact hn
    · obtain ⟨h1, h2, h3, h4⟩ := takeDigit_keeps s (digitOf b).toNat fraction
      exact Keeps.trans (n := (s.takeDigit _ fraction).addLength 1) ⟨h1, h2, h3, h4⟩ hkeeps
    · rw [show ds ++ digitsOf (b :: l) = ds ++ [(digitOf b).toNat] ++ digitsOf l by
        simp [digitsOf]]
      cases fraction with
      | false => simpa using hholds
      | true =>
        rw [List.length_cons, Nat.add_comm l.length, ← Nat.add_assoc]
        simpa using hholds

/-- What the exponent holds after the digits `ds`. -/
structure HoldsExponent (s : NumberState) (ds : List Nat) : Prop where
  le : s.exponent ≤ Decimal.value 0 ds
  exact : s.exponent < 100000 → s.exponent = Decimal.value 0 ds
  bounded : s.exponent < 1000000

theorem HoldsExponent.congr (h : s.HoldsExponent ds) (he : n.exponent = s.exponent) :
    n.HoldsExponent ds := by
  obtain ⟨h1, h2, h3⟩ := h
  rw [← he] at h1 h2 h3
  exact ⟨h1, h2, h3⟩

/-- One more digit of the exponent, which stops at a million. -/
theorem HoldsExponent.takeExponentDigit {d : Nat} (h : s.HoldsExponent ds) (hd : d < 10) :
    (s.takeExponentDigit d).HoldsExponent (ds ++ [d]) := by
  obtain ⟨hle, hexact, hbounded⟩ := h
  unfold NumberState.takeExponentDigit
  by_cases hlt : s.exponent < 100000
  · rw [if_pos hlt]
    have heq := hexact hlt
    refine ⟨?_, fun _ => ?_, ?_⟩
    · rw [value_snoc, ← heq]
    · rw [value_snoc, ← heq]
    · show s.exponent * 10 + d < 1000000
      omega
  · rw [if_neg hlt]
    refine ⟨?_, fun h => absurd h hlt, hbounded⟩
    rw [value_snoc]
    omega

/-- A run of digits of the exponent. -/
theorem HoldsExponent.takeBytes (hstage : s.stage = .exponent) (h : s.HoldsExponent ds)
    (hl : ∀ b ∈ l, isDigit b = true) : ∃ n, s.takeBytes l = some n ∧ n.stage = .exponent ∧
      n.HoldsExponent (ds ++ digitsOf l) ∧ n.negative = s.negative ∧ n.isReal = s.isReal ∧
      n.exponentNegative = s.exponentNegative ∧
      ∀ ds' f, s.Holds ds' f → n.Holds ds' f := by
  induction l generalizing s ds with
  | nil => exact ⟨s, rfl, hstage, by simpa [digitsOf] using h, rfl, rfl, rfl, fun _ _ h => h⟩
  | cons b l ih =>
    have hb := hl b List.mem_cons_self
    have hstep : s.takeByte b = .next (s.takeExponentDigit (digitOf b).toNat) := by
      simp [takeByte, hstage, hb]
    set s' := s.takeExponentDigit (digitOf b).toNat with hs'
    obtain ⟨e, he⟩ : ∃ e, s' = { s with exponent := e } := by
      rw [hs', NumberState.takeExponentDigit]
      split
      · exact ⟨_, rfl⟩
      · exact ⟨s.exponent, rfl⟩
    have hnext := h.takeExponentDigit (digit_lt hb)
    obtain ⟨n, hn, hst, hexp, hneg, hreal, hexpneg, hholds⟩ := ih (s := s'.addLength 1)
      (by rw [he]; exact hstage) (hnext.congr rfl)
      fun b hb => hl b (List.mem_cons_of_mem _ hb)
    refine ⟨n, ?_, hst, ?_, ?_, ?_, ?_, ?_⟩
    · simp only [NumberState.takeBytes, hstep]
      exact hn
    · simpa [digitsOf] using hexp
    · rw [hneg, he]; rfl
    · rw [hreal, he]; rfl
    · rw [hexpneg, he]; rfl
    · exact fun ds' f h => hholds ds' f (by rw [he]; exact h.congr rfl rfl rfl rfl rfl)

end Parts

/-! ## The parts of a number -/

section Read

variable {s : NumberState} {ds : List Nat} {minus int frac exp : List UInt8}

/-- The digits of an exponent. -/
def exponentDigits (exp : List UInt8) : List UInt8 :=
  if exp.tail.head? = some 0x2B ∨ exp.tail.head? = some 0x2D then exp.tail.tail else exp.tail

/-- The exponent that `exp` writes. -/
def exponentOf (exp : List UInt8) : Int :=
  if exp.tail.head? = some 0x2D then -(Decimal.value 0 (digitsOf (exponentDigits exp)) : Int)
  else Decimal.value 0 (digitsOf (exponentDigits exp))

/-- **What the accumulators hold after a number** with these parts. -/
structure Read (s : NumberState) (minus int frac exp : List UInt8) : Prop where
  holds : s.Holds (digitsOf (int ++ frac.tail)) frac.tail.length
  negative : s.negative = decide (minus ≠ [])
  isReal : s.isReal = decide (frac ≠ [] ∨ exp ≠ [])
  exponentNegative : s.exponentNegative = decide (exp.tail.head? = some 0x2D)
  exponent : s.HoldsExponent (digitsOf (exponentDigits exp))

/-- The integer digits of a number are read into its state. -/
theorem read_int (hm : minus = [] ∨ minus = [0x2D]) (hi : IsInt int) :
    ∃ b l n, minus ++ int = b :: l ∧ (start b).takeBytes l = some n ∧
      (n.stage = .zero ∨ n.stage = .integer) ∧ n.Read minus int [] [] := by
  have none (s : NumberState) (h : s.exponent = 0) : s.HoldsExponent [] := by
    refine ⟨?_, fun _ => h, ?_⟩ <;> rw [h] <;> decide
  rcases hi with rfl | ⟨b, l, rfl, hb, hne, hl⟩
  · rcases hm with rfl | rfl
    · exact ⟨0x30, [], _, rfl, rfl, .inl rfl, ⟨by decide, fun _ => ⟨rfl, rfl, rfl, rfl⟩,
        fun h => by cases h⟩, rfl, rfl, rfl, none _ rfl⟩
    · exact ⟨0x2D, [0x30], _, rfl, rfl, .inl rfl, ⟨by decide, fun _ => ⟨rfl, rfl, rfl, rfl⟩,
        fun h => by cases h⟩, rfl, rfl, rfl, none _ rfl⟩
  · -- the first digit is taken by `start`, or behind the minus sign
    have after {s : NumberState} (hst : s.stage = .integer)
        (hs : s.Holds [(digitOf b).toNat] 0) (hneg : s.negative = decide (minus ≠ []))
        (hreal : s.isReal = false) (hexpneg : s.exponentNegative = false) (hexp : s.exponent = 0) :
        ∃ n, s.takeBytes l = some n ∧ n.stage = .integer ∧ n.Read minus (b :: l) [] [] := by
      obtain ⟨n, hn, hst', ⟨h1, h2, h3, h4⟩, hholds⟩ := hs.takeBytes false hst (fun _ => rfl) hl
      refine ⟨n, hn, hst'.trans hst, ?_, h1.trans hneg, by rw [h2, hreal]; rfl,
        by rw [h3, hexpneg]; rfl, none n (h4.trans hexp)⟩
      simpa [digitsOf] using hholds
    rcases hm with rfl | rfl
    · have hb' : b ≠ 0x2D := by rintro rfl; exact absurd hb (by decide)
      have hstart :
          start b = { new with mantissa := (digitOf b).toNat, stage := .integer, length := 1 } := by
        simp [start, hb', hne, new]
      obtain ⟨n, hn, hst, hread⟩ := after (s := start b) (by rw [hstart]) (by
        rw [hstart]
        refine ⟨?_, fun _ => ⟨?_, rfl, rfl, rfl⟩, fun h => by cases h⟩
        · have := digit_lt hb
          show (digitOf b).toNat ≤ i64Max
          unfold i64Max
          omega
        · exact (Nat.zero_add _).symm) (by rw [hstart]; rfl) (by rw [hstart]; rfl)
        (by rw [hstart]; rfl) (by rw [hstart]; rfl)
      exact ⟨b, l, n, rfl, hn, .inr hst, hread⟩
    · set s₀ : NumberState := { start 0x2D with stage := .integer } with hs₀
      have hstep : (start 0x2D).takeByte b = .next (s₀.takeDigit (digitOf b).toNat false) := by
        simp [takeByte, start, hne, hb, hs₀, new]
      have hholds₀ : s₀.Holds [] 0 :=
        ⟨by decide, fun _ => ⟨rfl, rfl, rfl, rfl⟩, fun h => by cases h⟩
      have hholds := hholds₀.takeDigit (digit_lt hb) false fun _ => rfl
      obtain ⟨h1, h2, h3, h4⟩ := takeDigit_keeps s₀ (digitOf b).toNat false
      obtain ⟨n, hn, hst, hread⟩ := after (s := (s₀.takeDigit (digitOf b).toNat false).addLength 1)
        (takeDigit_stage s₀ (digitOf b).toNat false) (hholds.congr rfl rfl rfl rfl rfl) h1 h2 h3 h4
      refine ⟨0x2D, b :: l, n, rfl, ?_, .inr hst, hread⟩
      simp only [NumberState.takeBytes, hstep]
      exact hn

/-- Then the fraction, if there is one. -/
theorem Read.readFrac (h : s.Read minus int [] []) (hst : s.stage = .zero ∨ s.stage = .integer)
    (hf : IsFrac frac) : ∃ n, s.takeBytes frac = some n ∧
      (n.stage = .zero ∨ n.stage = .integer ∨ n.stage = .fraction) ∧ n.Read minus int frac [] := by
  rcases hf with rfl | ⟨l, rfl, hne, hl⟩
  · exact ⟨s, rfl, by tauto, h⟩
  obtain ⟨b, l, rfl⟩ := List.exists_cons_of_ne_nil hne
  have hb := hl b List.mem_cons_self
  set s₁ : NumberState :=
    { s with isReal := true, stage := .fractionDot, length := s.length + 1 } with hs₁
  have hdot : s.takeByte 0x2E = .next { s with isReal := true, stage := .fractionDot } := by
    rcases hst with hst | hst <;> simp [takeByte, takeMark, hst, isDigit, digitOf]
  set s₂ : NumberState := { s₁ with stage := .fraction } with hs₂
  have hstep : s₁.takeByte b = .next (s₂.takeDigit (digitOf b).toNat true) := by
    simp [takeByte, hs₁, hs₂, hb]
  have hholds : s.Holds (digitsOf int) 0 := by simpa using h.holds
  have hholds₂ :=
    (hholds.congr (n := s₂) rfl rfl rfl rfl rfl).takeDigit (digit_lt hb) true (by simp)
  obtain ⟨h1, h2, h3, h4⟩ := takeDigit_keeps s₂ (digitOf b).toNat true
  obtain ⟨n, hn, hst', ⟨h1', h2', h3', h4'⟩, hholds'⟩ := Holds.takeBytes
    (s := (s₂.takeDigit (digitOf b).toNat true).addLength 1) true
      (takeDigit_stage s₂ (digitOf b).toNat true)
    (hholds₂.congr rfl rfl rfl rfl rfl) (by simp) fun b hb => hl b (List.mem_cons_of_mem _ hb)
  refine ⟨n, ?_, .inr (.inr (hst'.trans (takeDigit_stage s₂ _ _))), ?_, ?_, ?_, ?_, ?_⟩
  · simp only [NumberState.takeBytes, hdot]
    rw [show ({ s with isReal := true, stage := .fractionDot } : NumberState).addLength 1 =
      s₁ from rfl]
    simp only [hstep]
    exact hn
  · have : digitsOf (int ++ (b :: l)) = digitsOf int ++ [(digitOf b).toNat] ++ digitsOf l := by
      simp [digitsOf]
    rw [List.tail_cons, this, List.length_cons, Nat.add_comm l.length]
    simpa using hholds'
  · exact h1'.trans (h1.trans h.negative)
  · exact h2'.trans (h2.trans (by simp [hs₂, hs₁]))
  · exact h3'.trans (h3.trans h.exponentNegative)
  · exact h.exponent.congr (h4'.trans h4)

/-- Then the exponent, if there is one. -/
theorem Read.readExp (h : s.Read minus int frac [])
    (hst : s.stage = .zero ∨ s.stage = .integer ∨ s.stage = .fraction) (he : IsExp exp) :
    ∃ n, s.takeBytes exp = some n ∧ n.Read minus int frac exp := by
  rcases he with rfl | ⟨e, sign, l, rfl, hmark, hsign, hne, hl⟩
  · exact ⟨s, rfl, h⟩
  obtain ⟨b, l, rfl⟩ := List.exists_cons_of_ne_nil hne
  have hb := hl b List.mem_cons_self
  have hl' : ∀ b ∈ l, isDigit b = true := fun b hb => hl b (List.mem_cons_of_mem _ hb)
  have hdigit : isDigit e = false := by rcases hmark with rfl | rfl <;> decide
  have hdot : e ≠ 0x2E := by rcases hmark with rfl | rfl <;> decide
  have hmark' : s.takeByte e = .next { s with isReal := true, stage := .exponentMark } := by
    rcases hst with hst | hst | hst <;> simp [takeByte, takeMark, hst, hdigit, hdot, hmark]
  have hb' : b ≠ 0x2B ∧ b ≠ 0x2D := by
    constructor <;> (rintro rfl; exact absurd hb (by decide))
  -- the digits, behind the mark or a sign
  have digits (s₁ : NumberState) (hst₁ : s₁.stage = .exponentMark ∨ s₁.stage = .exponentSign)
      (hexp : s₁.exponent = 0) : ∃ n, s₁.takeBytes (b :: l) = some n ∧
        n.HoldsExponent (digitsOf (b :: l)) ∧ n.negative = s₁.negative ∧ n.isReal = s₁.isReal ∧
        n.exponentNegative = s₁.exponentNegative ∧ ∀ ds f, s₁.Holds ds f → n.Holds ds f := by
    set s₂ : NumberState := { s₁ with stage := .exponent, exponent := (digitOf b).toNat } with hs₂
    have hstep : s₁.takeByte b = .next s₂ := by
      rcases hst₁ with hst₁ | hst₁ <;>
        simp [takeByte, hst₁, hb', hb, NumberState.takeExponentDigit, hexp, hs₂]
    have hexp₂ : (s₂.addLength 1).HoldsExponent [(digitOf b).toNat] := by
      have := digit_lt hb
      have hvalue : Decimal.value 0 [(digitOf b).toNat] = (digitOf b).toNat := Nat.zero_add _
      refine ⟨?_, fun _ => ?_, ?_⟩
      · rw [hvalue]; exact le_rfl
      · rw [hvalue]; rfl
      · show (digitOf b).toNat < _
        omega
    obtain ⟨n, hn, -, hexp', hneg, hreal, hexpneg, hholds⟩ := hexp₂.takeBytes rfl hl'
    refine ⟨n, ?_, by simpa [digitsOf] using hexp', hneg, hreal, hexpneg, fun ds f h => ?_⟩
    · simp only [NumberState.takeBytes, hstep]
      exact hn
    · exact hholds ds f (h.congr rfl rfl rfl rfl rfl)
  have hzero : s.exponent = 0 := Nat.le_zero.mp h.exponent.le
  have hnot : s.exponentNegative = false := h.exponentNegative
  set s₁ : NumberState :=
    { s with isReal := true, stage := .exponentMark, length := s.length + 1 } with hs₁
  have hholds₁ : s₁.Holds (digitsOf (int ++ frac.tail)) frac.tail.length :=
    h.holds.congr rfl rfl rfl rfl rfl
  have hfirst (r : List UInt8) : s.takeBytes (e :: r) = s₁.takeBytes r := by
    simp only [NumberState.takeBytes, hmark']
    rfl
  -- without a sign, or behind one
  have done (s₂ : NumberState) {n : NumberState} (hneg₂ : s₂.negative = s.negative)
    (hreal₂ : s₂.isReal = true)
      (hexpneg₂ : s₂.exponentNegative = decide ((sign ++ b :: l).head? = some 0x2D))
      (hholds₂ : s₂.Holds (digitsOf (int ++ frac.tail)) frac.tail.length)
      (hexp : n.HoldsExponent (digitsOf (b :: l))) (hneg : n.negative = s₂.negative)
      (hreal : n.isReal = s₂.isReal) (hexpneg : n.exponentNegative = s₂.exponentNegative)
      (hholds : ∀ ds f, s₂.Holds ds f → n.Holds ds f) :
      n.Read minus int frac (e :: sign ++ b :: l) := by
    refine ⟨hholds _ _ hholds₂, by rw [hneg, hneg₂, h.negative], by rw [hreal, hreal₂]; simp,
      by rw [hexpneg, hexpneg₂]; rfl, ?_⟩
    have hdigits : exponentDigits (e :: sign ++ b :: l) = b :: l := by
      rcases hsign with rfl | rfl | rfl <;> simp [exponentDigits, hb']
    rwa [hdigits]
  rcases hsign with rfl | hsign
  · obtain ⟨n, hn, hexp, hneg, hreal, hexpneg, hholds⟩ := digits s₁ (.inl rfl) hzero
    exact ⟨n, (hfirst _).trans hn, done s₁ rfl rfl (by simp [hs₁, hnot, hb'.2]) hholds₁ hexp
      hneg hreal hexpneg hholds⟩
  · obtain ⟨c, rfl, hc⟩ : ∃ c, sign = [c] ∧ (c = 0x2B ∨ c = 0x2D) := by
      rcases hsign with rfl | rfl <;> exact ⟨_, rfl, by decide⟩
    set s₂ : NumberState :=
      { s₁ with
        exponentNegative := c = 0x2D, stage := .exponentSign, length := s₁.length + 1 } with hs₂
    have hstep (r : List UInt8) : s₁.takeBytes (c :: r) = s₂.takeBytes r := by
      simp only [NumberState.takeBytes]
      simp only [takeByte, hs₁, if_pos hc]
      rfl
    obtain ⟨n, hn, hexp, hneg, hreal, hexpneg, hholds⟩ := digits s₂ (.inr rfl) hzero
    exact ⟨n, (hfirst _).trans ((hstep _).trans hn), done s₂ rfl rfl (by simp [hs₂])
      (hholds₁.congr rfl rfl rfl rfl rfl) hexp hneg hreal hexpneg hholds⟩

/-- **What the accumulators hold after a number.** -/
theorem exists_read (hm : minus = [] ∨ minus = [0x2D]) (hi : IsInt int) (hf : IsFrac frac)
    (he : IsExp exp) : ∃ b l n, minus ++ int ++ frac ++ exp = b :: l ∧
      (start b).takeBytes l = some n ∧ n.Read minus int frac exp := by
  obtain ⟨b, l, n₁, heq, h₁, hst₁, hread₁⟩ := read_int hm hi
  obtain ⟨n₂, h₂, hst₂, hread₂⟩ := hread₁.readFrac hst₁ hf
  obtain ⟨n, h₃, hread⟩ := hread₂.readExp hst₂ he
  refine ⟨b, l ++ frac ++ exp, n, by rw [heq]; simp, ?_, hread⟩
  rw [List.append_assoc, takeBytes_append h₁, takeBytes_append h₂, h₃]

end Read

end NumberState

/-! ## Integers -/

section Integers

variable {minus int : List UInt8}

/-- The integer that a sign and some digits write. -/
def integerOf (minus int : List UInt8) : Int :=
  if minus = [] then Decimal.value 0 (digitsOf int) else -(Decimal.value 0 (digitsOf int) : Int)

/-- An integer in the narrowest variant, `text` being what it is written as. -/
def narrowest (v : Int) (text : Text) : Number F :=
  if -2 ^ 31 ≤ v ∧ v < 2 ^ 31 then .i32 v
  else if -2 ^ 63 ≤ v ∧ v < 2 ^ 63 then .i64 v
  else .bigInt text

/-- The digits as characters. -/
theorem map_digitChar {l : List UInt8} (h : ∀ b ∈ l, isDigit b = true) :
    (digitsOf l).map Nat.digitChar = l.map byteChar := by
  rw [digitsOf, List.map_map]
  refine List.map_congr_left fun b hb => ?_
  rw [Function.comp, ← digitChar_eq (digit_lt (h b hb)), byteChar, toNat_digit (h b hb)]
  rfl

/-- The integer part is digits. -/
theorem isDigit_of_isInt (h : IsInt int) : ∀ b ∈ int, isDigit b = true := by
  rcases h with rfl | ⟨b, l, rfl, hb, -, hl⟩
  · intro b hb
    rw [List.mem_singleton.mp hb]
    rfl
  · exact List.forall_mem_cons.mpr ⟨hb, hl⟩

/-- The digits of an integer that does not fit the mantissa are kept. -/
theorem NumberState.Holds.digits {s : NumberState} (h : s.Holds (digitsOf int) 0) (hi : IsInt int)
    (hfull : s.mantissaFull = true) :
    s.bigDigits = int.map byteChar ∧ i64Max < Decimal.value 0 (digitsOf int) := by
  obtain ⟨kept, dropped, heq, hm, -, hlow, hbig, -, hdigits⟩ := h.full hfull
  refine ⟨?_, hbig⟩
  rcases hi with rfl | ⟨b, l, rfl, hb, hne, hl⟩
  · exact absurd hbig (by simp [digitsOf, digitOf, i64Max])
  have hpos : 0 < (digitOf b).toNat := by
    by_contra hzero
    have hb' := toNat_digit hb
    exact hne (UInt8.toNat_inj.mp (by rw [hb']; simp; omega))
  cases kept with
  | nil =>
    rw [hm] at hlow
    exact absurd hlow (by decide)
  | cons d kept =>
    obtain ⟨rfl, htail⟩ := List.cons_eq_cons.mp
      (show (digitOf b).toNat :: digitsOf l = d :: (kept ++ dropped) from heq)
    have hlt : ∀ e ∈ kept, e < 10 := fun e he =>
      digitsOf_lt hl e (htail ▸ List.mem_append_left _ he)
    have hvalue : s.mantissa = Decimal.value (digitOf b).toNat kept := by
      rw [hm, Decimal.value_cons, Nat.zero_mul, Nat.zero_add]
    rw [hdigits rfl, hvalue, Decimal.toDigits_value hpos hlt, Nat.toDigits_of_lt_base (digit_lt hb),
      List.append_assoc, ← List.map_append, ← htail]
    exact map_digitChar (List.forall_mem_cons.mpr ⟨hb, hl⟩)

variable [Double F]

/-- An integer whose magnitude does not fit the mantissa keeps its digits. -/
theorem numberOf_integer_eq (hm : minus = [] ∨ minus = [0x2D]) (hi : IsInt int) :
    numberOf (F := F) (minus ++ int) =
      if i64Max < Decimal.value 0 (digitsOf int) then .bigInt ((minus ++ int).map byteChar)
      else narrowest (integerOf minus int) ((minus ++ int).map byteChar) := by
  obtain ⟨b, l, n, heq, ht, hread⟩ := NumberState.exists_read hm hi (.inl rfl) (.inl rfl)
  simp only [List.append_nil] at heq
  have hholds : n.Holds (digitsOf int) 0 := by simpa using hread.holds
  have hvalue : numberOf (F := F) (minus ++ int) = n.integerValue := by
    rw [heq]
    simp only [numberOf, ht, NumberState.value, hread.isReal]
    rfl
  have hneg : n.negative = true ↔ minus ≠ [] := by simp [hread.negative]
  rw [hvalue, NumberState.integerValue]
  by_cases hfull : n.mantissaFull = true
  · obtain ⟨hdigits, hbig⟩ := hholds.digits hi hfull
    have hne : n.bigDigits ≠ [] := by
      rw [hdigits]
      rcases hi with rfl | ⟨_, _, rfl, _⟩ <;> simp
    have htext : (if n.negative then '-' :: n.bigDigits else n.bigDigits) =
        (minus ++ int).map byteChar := by
      rw [hdigits]
      rcases hm with rfl | rfl
      · rw [if_neg (by simp [hneg])]
        rfl
      · rw [if_pos (by simp [hneg])]
        rfl
    rw [if_pos hne, htext, if_pos hbig]
  · obtain ⟨hmant, -, hnone, -⟩ := hholds.exact (by simpa using hfull)
    have hbounded := hholds.bounded
    have hv : (if n.negative then -(n.mantissa : Int) else n.mantissa) = integerOf minus int := by
      rw [hmant, integerOf]
      rcases hm with rfl | rfl
      · rw [if_neg (by simp [hneg]), if_pos rfl]
      · rw [if_pos (by simp [hneg]), if_neg (by simp)]
    have hrange : -2 ^ 63 < integerOf minus int ∧ integerOf minus int < 2 ^ 63 := by
      rw [← hv]
      unfold i64Max at hbounded
      split <;> omega
    rw [if_neg (show ¬ i64Max < Decimal.value 0 (digitsOf int) by omega), if_neg (by simp [hnone])]
    simp only [hv]
    rw [narrowest]
    by_cases hin : -2147483648 ≤ integerOf minus int ∧ integerOf minus int ≤ 2147483647
    · rw [if_pos hin, if_pos ⟨by omega, by omega⟩]
    · rw [if_neg hin, if_neg fun hin' => hin ⟨by omega, by omega⟩, if_pos ⟨by omega, by omega⟩]

/-- **An integer has its exact value in the narrowest variant**, but for the least `i64`. -/
theorem numberOf_integer (hm : minus = [] ∨ minus = [0x2D]) (hi : IsInt int) :
    numberOf (F := F) (minus ++ int) = narrowest (integerOf minus int)
      ((minus ++ int).map byteChar) ↔ integerOf minus int ≠ -2 ^ 63 := by
  rw [numberOf_integer_eq hm hi]
  have hv : integerOf minus int = Decimal.value 0 (digitsOf int) ∨
      integerOf minus int = -(Decimal.value 0 (digitsOf int) : Int) := by
    unfold integerOf
    split <;> simp
  unfold i64Max
  split
  · next hbig =>
    -- the magnitude is 2 ^ 63 at least
    have hout : ¬ (-2 ^ 31 ≤ integerOf minus int ∧ integerOf minus int < 2 ^ 31) := by
      rcases hv with hv | hv <;> omega
    rw [narrowest, if_neg hout]
    split
    · next hin =>
      refine iff_of_false (by simp) (not_not.mpr ?_)
      rcases hv with hv | hv <;> omega
    · next hin =>
      refine iff_of_true rfl fun hmin => hin ?_
      rw [hmin]
      decide
  · next hsmall => exact iff_of_true rfl (by rcases hv with hv | hv <;> omega)

variable {h : Handler F} {s : Session F} {ops : List Op}

/-- **Integers are exact**, in the narrowest variant, wherever they stand in a stream and however it
arrives, but for the least `i64`. -/
theorem integers_exact (hs : s.AtStart h) (hops : ∀ op ∈ ops, op.Feeds) :
    (∃ xs, s.ReportsNumbers h ops xs) ∧ ∀ minus int, minus = [] ∨ minus = [0x2D] → IsInt int →
      (numberOf (F := F) (minus ++ int) =
          narrowest (integerOf minus int) ((minus ++ int).map byteChar) ↔
        integerOf minus int ≠ -2 ^ 63) :=
  ⟨hs.numbers_called hops, fun _ _ hm hi => numberOf_integer hm hi⟩

/-- `-9223372036854775808`, which fits an `i64`. -/
def leastBytes : List UInt8 :=
  [0x2D, 0x39, 0x32, 0x32, 0x33, 0x33, 0x37, 0x32, 0x30, 0x33, 0x36, 0x38, 0x35, 0x34, 0x37, 0x37,
    0x35, 0x38, 0x30, 0x38]

theorem integers_exact_least :
    let ops : List Op := [.write leastBytes (.split 7), .receive, .close]
    let r := outcome (F := Rat) .accepting ops (Session.new 64 (.split 0))
    r.1 = .ok () ∧
      numberValues (r.2.parser.calls.map Call.event) = [.bigInt (leastBytes.map byteChar)] ∧
      integerOf [0x2D] leastBytes.tail = -2 ^ 63 ∧
      narrowest (F := Rat) (integerOf [0x2D] leastBytes.tail) (leastBytes.map byteChar) =
        .i64 (-2 ^ 63) := by
  refine ⟨by decide +kernel, by decide +kernel, by decide +kernel, by decide +kernel⟩

theorem integers_exact_array :
    let ops : List Op :=
      [.write [0x5B, 0x2D, 0x31] (.split 2), .receive, .write [0x32, 0x5D] (.split 1),
      .receive, .close]
    (∃ xs, (Session.new 64 (.split 0)).ReportsNumbers (F := Rat) .accepting ops xs) ∧
      (numberOf (F := Rat) [0x2D, 0x31, 0x32] =
          narrowest (integerOf [0x2D] [0x31, 0x32]) ([0x2D, 0x31, 0x32].map byteChar) ↔
        integerOf [0x2D] [0x31, 0x32] ≠ -2 ^ 63) := by
  intro ops
  have hops : ∀ op ∈ ops, op.Feeds := by
    intro op hop
    simp only [ops, List.mem_cons, List.not_mem_nil, or_false] at hop
    rcases hop with rfl | rfl | rfl | rfl | rfl <;> trivial
  have hexact := integers_exact (Session.new_atStart (F := Rat) .accepting 64 (.split 0)) hops
  refine ⟨hexact.1, hexact.2 [0x2D] [0x31, 0x32] (.inr rfl)
    (.inr ⟨0x31, [0x32], rfl, rfl, by decide, ?_⟩)⟩
  intro d hd
  rw [List.mem_singleton.mp hd]
  rfl

end Integers

/-! ## Other numbers -/

section Reals

variable {minus int frac exp : List UInt8} {s : NumberState} {ds : List Nat} {f : Nat}

/-- The exact magnitude that the parts of a number write. -/
def magnitude (int frac exp : List UInt8) : ℚ :=
  Decimal.value 0 (digitsOf (int ++ frac.tail)) *
    10 ^ (NumberState.exponentOf exp - frac.tail.length)

/-- The power of ten that scales the mantissa. -/
def NumberState.scale (s : NumberState) : Int :=
  (if s.exponentNegative then -(s.exponent : Int) else s.exponent) + s.decimalShift

/-- **The mantissa brackets `v`**, unless the exponent is too large to be kept. -/
structure NumberState.Brackets (s : NumberState) (v : ℚ) : Prop where
  exact : s.exponent < 100000 → s.droppedNonZero = false → v = s.mantissa * 10 ^ s.scale
  between : s.exponent < 100000 → s.droppedNonZero = true → 922337203685477580 ≤ s.mantissa ∧
    s.mantissa * 10 ^ s.scale < v ∧ v < (s.mantissa + 1) * 10 ^ s.scale
  beyond : 100000 ≤ s.exponent → (s.mantissa = 0 ∧ v = 0) ∨
    (10 ^ 400 ≤ v ∧ 10 ^ 400 ≤ (s.mantissa * 10 ^ s.scale : ℚ)) ∨
    ((0 < v ∧ v ≤ 10 ^ (-400 : Int)) ∧
      0 < (s.mantissa * 10 ^ s.scale : ℚ) ∧ (s.mantissa * 10 ^ s.scale : ℚ) ≤ 10 ^ (-400 : Int))

/-- The mantissa and the digits that were dropped behind it. -/
theorem NumberState.Holds.split (h : s.Holds ds f) (hds : ∀ d ∈ ds, d < 10) : ∃ k ≤ ds.length,
    s.decimalShift = k - (f : Int) ∧ s.mantissa * 10 ^ k ≤ Decimal.value 0 ds ∧
    Decimal.value 0 ds < (s.mantissa + 1) * 10 ^ k ∧
    (0 < Decimal.value 0 ds → 0 < s.mantissa) ∧
    (s.droppedNonZero = false → Decimal.value 0 ds = s.mantissa * 10 ^ k) ∧
    (s.droppedNonZero = true →
      922337203685477580 ≤ s.mantissa ∧ s.mantissa * 10 ^ k < Decimal.value 0 ds) := by
  by_cases hfull : s.mantissaFull = true
  · obtain ⟨kept, dropped, rfl, hm, hshift, hlow, -, hzero, -⟩ := h.full hfull
    have hdropped : ∀ d ∈ dropped, d < 10 := fun d hd => hds d (List.mem_append_right _ hd)
    have hbounds := Decimal.value_bounds s.mantissa hdropped
    have hiff : Decimal.value s.mantissa dropped = s.mantissa * 10 ^ dropped.length ↔
        ∀ d ∈ dropped, d = 0 := Decimal.value_eq_iff s.mantissa
    have hvalue : Decimal.value 0 (kept ++ dropped) = Decimal.value s.mantissa dropped := by
      rw [Decimal.value_append, hm]
    unfold digitAlwaysFitsBelow at hlow
    refine ⟨dropped.length, by simp, hshift, ?_, ?_, fun _ => by omega, fun hd => ?_, fun hd => ?_⟩
    · rw [hvalue]; exact hbounds.1
    · rw [hvalue]; exact hbounds.2
    · rw [hvalue, hiff]
      intro d hd'
      by_contra hne
      rw [hzero.mpr ⟨d, hd', hne⟩] at hd
      cases hd
    · obtain ⟨d, hd', hne⟩ := hzero.mp hd
      refine ⟨hlow, ?_⟩
      rw [hvalue]
      exact lt_of_le_of_ne hbounds.1 fun heq => hne (hiff.mp heq.symm d hd')
  · obtain ⟨hm, hshift, -, hdropped⟩ := h.exact (by simpa using hfull)
    refine ⟨0, by simp, by rw [hshift]; simp, by rw [hm]; simp, by rw [hm]; simp,
      fun hpos => by rwa [hm], fun _ => by rw [hm]; simp, fun hd => ?_⟩
    rw [hdropped] at hd
    cases hd

/-- A number that is at least one is out of range where its exponent is large. -/
theorem scaled_large {x : ℚ} (hx : 1 ≤ x) {z : Int} (hz : 400 ≤ z) : 10 ^ 400 ≤ x * 10 ^ z := by
  calc (10 : ℚ) ^ 400 = 1 * 10 ^ (400 : Int) := by rw [one_mul, zpow_ofNat]
    _ ≤ 1 * 10 ^ z := by gcongr; norm_num
    _ ≤ x * 10 ^ z := by gcongr

/-- And too small for a double where it is small. -/
theorem scaled_small {x : ℚ} (hx : x ≤ 10 ^ (1000 : Int)) {z : Int} (hz : z ≤ -1400) :
    x * 10 ^ z ≤ 10 ^ (-400 : Int) := by
  calc x * 10 ^ z ≤ 10 ^ (1000 : Int) * 10 ^ z := by gcongr
    _ = 10 ^ (1000 + z) := (zpow_add₀ (by norm_num) _ _).symm
    _ ≤ 10 ^ (-400 : Int) := zpow_le_zpow_right₀ (by norm_num) (by omega)

/-- The digits before and after the point. -/
theorem digits_of_parts (hi : IsInt int) (hf : IsFrac frac) :
    ∀ d ∈ digitsOf (int ++ frac.tail), d < 10 := by
  refine digitsOf_lt (List.forall_mem_append.mpr ⟨isDigit_of_isInt hi, ?_⟩)
  rcases hf with rfl | ⟨l, rfl, -, hl⟩
  · simp
  · exact hl

/-- **The mantissa brackets the magnitude of a number.** -/
theorem NumberState.Read.brackets (h : s.Read minus int frac exp) (hi : IsInt int)
    (hf : IsFrac frac) (hlen : (minus ++ int ++ frac ++ exp).length ≤ 1000) :
    s.Brackets (magnitude int frac exp) := by
  obtain ⟨k, hk, hshift, hle, hlt, hpos, hexact, hdropped⟩ :=
    h.holds.split (digits_of_parts hi hf)
  have hN := Decimal.value_lt (digits_of_parts hi hf)
  unfold magnitude
  set N := Decimal.value 0 (digitsOf (int ++ frac.tail)) with hNdef
  set f := frac.tail.length with hfdef
  have hten : (10 : ℚ) ≠ 0 := by norm_num
  have hdigits : (digitsOf (int ++ frac.tail)).length ≤ 1000 ∧ f ≤ 1000 := by
    have : frac.tail.length ≤ frac.length := by simp
    simp only [digitsOf, List.length_map, List.length_append] at hlen ⊢
    omega
  -- the mantissa scaled is the mantissa with as many digits as were dropped, behind the same point
  have hscale (e : Int) (he : s.scale = e + s.decimalShift) (m : ℚ) :
      m * 10 ^ s.scale = m * 10 ^ k * 10 ^ (e - f) := by
    rw [he, hshift, show e + ((k : Int) - f) = k + (e - f) by ring, zpow_add₀ hten, zpow_natCast,
      mul_assoc]
  have hleQ : (s.mantissa : ℚ) * 10 ^ k ≤ N := by exact_mod_cast hle
  have hltQ : (N : ℚ) < (s.mantissa + 1) * 10 ^ k := by exact_mod_cast hlt
  have hexponent (hsmall : s.exponent < 100000) :
      s.scale = exponentOf exp + s.decimalShift := by
    unfold scale exponentOf
    rw [h.exponentNegative, h.exponent.exact hsmall]
    by_cases hneg : exp.tail.head? = some 0x2D <;> simp [hneg]
  constructor
  · intro hsmall hno
    rw [hscale _ (hexponent hsmall), hexact hno]
    push_cast
    rfl
  · intro hsmall hyes
    obtain ⟨hlow, hless⟩ := hdropped hyes
    have hlessQ : (s.mantissa : ℚ) * 10 ^ k < N := by exact_mod_cast hless
    have hpow : (0 : ℚ) < 10 ^ (exponentOf exp - f) := by positivity
    refine ⟨hlow, ?_, ?_⟩
    · rw [hscale _ (hexponent hsmall)]
      exact mul_lt_mul_of_pos_right hlessQ hpow
    · rw [hscale _ (hexponent hsmall)]
      exact mul_lt_mul_of_pos_right hltQ hpow
  · intro hbig
    have hvalue := hbig.trans h.exponent.le
    rcases Nat.eq_zero_or_pos N with hzero | hN0
    · refine .inl ⟨?_, by rw [hzero]; simp⟩
      rw [hzero] at hle
      rcases Nat.mul_eq_zero.mp (Nat.le_zero.mp hle) with hm | hm
      · exact hm
      · exact absurd hm (by positivity)
    · have hm0 := hpos hN0
      have hNQ : (1 : ℚ) ≤ N := by exact_mod_cast hN0
      have hmQ : (1 : ℚ) ≤ s.mantissa * 10 ^ k := by
        exact_mod_cast Nat.one_le_iff_ne_zero.mpr (by positivity)
      have hNpow : (N : ℚ) ≤ 10 ^ (1000 : Int) := by
        refine (show (N : ℚ) ≤ 10 ^ _ from by exact_mod_cast hN.le).trans ?_
        rw [← zpow_natCast]
        exact zpow_le_zpow_right₀ (by norm_num) (by omega)
      rw [hscale _ rfl]
      unfold exponentOf
      rw [h.exponentNegative]
      by_cases hneg : exp.tail.head? = some 0x2D
      · simp only [hneg, if_true, decide_true]
        exact .inr (.inr ⟨⟨by positivity, scaled_small hNpow (by omega)⟩, by positivity,
          scaled_small (hleQ.trans hNpow) (by omega)⟩)
      · simp only [hneg, if_false, decide_false, Bool.false_eq_true]
        exact .inr (.inl ⟨scaled_large hNQ (by omega), scaled_large hmQ (by omega)⟩)

variable [Double F]

/-- `R` is what `decimal_to_f64` makes of a magnitude: it is monotone, and constant where the
magnitude is beyond the range of an `f64`. -/
structure Rounds [PartialOrder F] (R : ℚ → F) : Prop where
  eq : ∀ (m : Nat) (e : Int), decimalToF64 (F := F) false m e = R (m * 10 ^ e)
  mono : ∀ a b, 0 ≤ a → a ≤ b → R a ≤ R b
  top : ∀ a b, 10 ^ 400 ≤ a → 10 ^ 400 ≤ b → R a = R b
  bottom : ∀ a b, 0 < a ∧ a ≤ 10 ^ (-400 : Int) → 0 < b ∧ b ≤ 10 ^ (-400 : Int) → R a = R b

/-- The sign is put on at the end. -/
theorem decimalToF64_sign (negative : Bool) (m : Nat) (e : Int) :
    decimalToF64 (F := F) negative m e =
      if negative then Double.neg (decimalToF64 false m e) else decimalToF64 false m e := by
  cases negative <;> rfl

/-- What is delivered for a number whose mantissa brackets `v`. -/
theorem NumberState.Brackets.delivered {v : ℚ} (h : s.Brackets v)
    (hfull : s.droppedNonZero = true → s.mantissaFull = true) [PartialOrder F] {R : ℚ → F}
    (hR : Rounds R) : ∃ x : F,
      s.realValue = .f64 (if s.negative then Double.neg x else x) ∧
      (s.droppedNonZero = false → x = R (s.mantissa * 10 ^ s.scale) ∧ x = R v) ∧
      (s.droppedNonZero = true →
        (x = R (s.mantissa * 10 ^ s.scale) ∨ x = R ((s.mantissa + 1) * 10 ^ s.scale)) ∧
        (R (s.mantissa * 10 ^ s.scale) = R ((s.mantissa + 1) * 10 ^ s.scale) → x = R v)) := by
  have hpow : (0 : ℚ) < 10 ^ s.scale := by positivity
  -- the value itself rounds as the mantissa does, if its end points agree
  have hv (hends : s.droppedNonZero = true →
      R (s.mantissa * 10 ^ s.scale) = R ((s.mantissa + 1) * 10 ^ s.scale)) :
      R (s.mantissa * 10 ^ s.scale) = R v := by
    by_cases hsmall : s.exponent < 100000
    · cases hd : s.droppedNonZero with
      | false => rw [h.exact hsmall hd]
      | true =>
        obtain ⟨-, hlow, hhigh⟩ := h.between hsmall hd
        have hle := hR.mono _ _ (by positivity) hlow.le
        refine le_antisymm hle ?_
        rw [hends hd]
        exact hR.mono _ _ ((by positivity : (0 : ℚ) ≤ s.mantissa * 10 ^ s.scale).trans hlow.le)
          hhigh.le
    · rcases h.beyond (by omega) with ⟨hm, rfl⟩ | ⟨h1, h2⟩ | ⟨h1, h2⟩
      · rw [hm]
        simp
      · exact hR.top _ _ h2 h1
      · exact hR.bottom _ _ h2 h1
  have heq (m : Nat) : decimalToF64 (F := F) false m s.scale = R (m * 10 ^ s.scale) :=
    hR.eq m s.scale
  unfold realValue
  simp only
  rw [show (if s.exponentNegative = true then -(s.exponent : Int) else s.exponent) +
    s.decimalShift = s.scale from rfl]
  cases hd : s.droppedNonZero with
  | false =>
    refine ⟨R (s.mantissa * 10 ^ s.scale), ?_, fun _ => ⟨rfl, hv (by simp [hd])⟩, by simp⟩
    rw [if_pos (by simp), decimalToF64_sign, heq]
  | true =>
    rw [if_neg (by simp [hfull hd]), heq]
    set low := R (s.mantissa * 10 ^ s.scale) with hlow
    set high : F := if s.mantissa = i64Max then low else decimalToF64 false (s.mantissa + 1) s.scale
      with hhigh
    refine ⟨_, rfl, by simp, fun _ => ?_⟩
    have hchoice : (if Double.eq low high || decide (s.firstDropped < 5) then low else high) = low ∨
        (if Double.eq low high || decide (s.firstDropped < 5) then low else high) =
          R ((s.mantissa + 1) * 10 ^ s.scale) := by
      split
      · exact .inl rfl
      · rw [hhigh]
        split
        · exact .inl rfl
        · refine .inr ?_
          rw [heq]
          push_cast
          rfl
    refine ⟨hchoice, fun hends => ?_⟩
    rw [← hv fun _ => hends]
    rcases hchoice with hx | hx
    · exact hx
    · exact hx.trans hends.symm

variable {h : Handler F} {s : Session F} {ops : List Op}

/-- **Other numbers bracket their exact value**, wherever they stand in a stream and however it
arrives. What is delivered is what the mantissa rounds to, with the sign of the number. -/
theorem reals_bracketed (hs : s.AtStart h) (hops : ∀ op ∈ ops, op.Feeds) :
    (∃ xs, s.ReportsNumbers h ops xs) ∧ ∀ minus int frac exp, minus = [] ∨ minus = [0x2D] →
      IsInt int → IsFrac frac → IsExp exp → frac ≠ [] ∨ exp ≠ [] →
      (minus ++ int ++ frac ++ exp).length ≤ 1000 → ∃ n : NumberState,
        (∃ b l, minus ++ int ++ frac ++ exp = b :: l ∧
          (NumberState.start b).takeBytes l = some n) ∧
        n.Brackets (magnitude int frac exp) ∧
        ∀ (_ : PartialOrder F) (R : ℚ → F), Rounds R → ∃ x : F,
          numberOf (minus ++ int ++ frac ++ exp) = .f64 (if minus ≠ [] then Double.neg x else x) ∧
          (n.droppedNonZero = false →
            x = R (n.mantissa * 10 ^ n.scale) ∧ x = R (magnitude int frac exp)) ∧
          (n.droppedNonZero = true →
            (x = R (n.mantissa * 10 ^ n.scale) ∨ x = R ((n.mantissa + 1) * 10 ^ n.scale)) ∧
            (R (n.mantissa * 10 ^ n.scale) = R ((n.mantissa + 1) * 10 ^ n.scale) →
              x = R (magnitude int frac exp))) := by
  refine ⟨hs.numbers_called hops, fun minus int frac exp hm hi hf he hreal hlen => ?_⟩
  obtain ⟨b, l, n, heq, ht, hread⟩ := NumberState.exists_read hm hi hf he
  have hbrackets := hread.brackets hi hf hlen
  refine ⟨n, ⟨b, l, heq, ht⟩, hbrackets, fun _ R hR => ?_⟩
  have hfull : n.droppedNonZero = true → n.mantissaFull = true := by
    intro hd
    by_contra hfull
    rw [(hread.holds.exact (by simpa using hfull)).2.2.2] at hd
    cases hd
  obtain ⟨x, hx, hexact, hdropped⟩ := hbrackets.delivered hfull hR
  refine ⟨x, ?_, hexact, hdropped⟩
  have hvalue : numberOf (F := F) (minus ++ int ++ frac ++ exp) = n.realValue := by
    rw [heq]
    simp only [numberOf, ht, NumberState.value, hread.isReal, decide_eq_true hreal, if_true]
  rw [hvalue, hx, hread.negative]
  simp

end Reals

/-! ### Saturating arithmetic -/

/-- Exact arithmetic that overflows at `10 ^ 400` and underflows at `10 ^ -400`. -/
structure Saturating where
  val : ℚ

/-- What is left of a magnitude. -/
def clamp (x : ℚ) : ℚ :=
  if 10 ^ 400 ≤ x then 10 ^ 400 else if x ≤ 10 ^ (-400 : Int) then 0 else x

instance : Double Saturating where
  zero := ⟨0⟩
  ofNat m := ⟨m⟩
  parse m e := ⟨clamp (m * 10 ^ e)⟩
  mul a b := ⟨a.val * b.val⟩
  div a b := ⟨a.val / b.val⟩
  neg a := ⟨-a.val⟩
  eq a b := a.val = b.val

instance : PartialOrder Saturating := .lift Saturating.val fun a b h => by
  cases a
  cases b
  exact congrArg _ h

theorem clamp_eq {x : ℚ} (h : 10 ^ (-400 : Int) < x) (h' : x < 10 ^ 400) : clamp x = x := by
  rw [clamp, if_neg (not_le.mpr h'), if_neg (not_le.mpr h)]

/-- Clamping keeps the order. -/
theorem clamp_mono {a b : ℚ} (h : a ≤ b) : clamp a ≤ clamp b := by
  have hpos : (0 : ℚ) < 10 ^ (-400 : Int) := by positivity
  unfold clamp
  by_cases ha : 10 ^ 400 ≤ a
  · rw [if_pos ha, if_pos (ha.trans h)]
  rw [if_neg ha]
  by_cases hb : 10 ^ 400 ≤ b
  · rw [if_pos hb]
    split
    · positivity
    · exact (not_le.mp ha).le
  rw [if_neg hb]
  by_cases hb' : b ≤ 10 ^ (-400 : Int)
  · rw [if_pos hb', if_pos (h.trans hb')]
  rw [if_neg hb']
  split
  · exact (hpos.trans (not_le.mp hb')).le
  · exact h

/-- Where `decimal_to_f64` multiplies or divides nothing is lost. -/
theorem clamp_scaled {m : Nat} (hm : m ≠ 0) (hm' : m < 2 ^ 53) {e : Int} (he : -22 ≤ e ∧ e ≤ 22) :
    clamp (m * 10 ^ e) = m * 10 ^ e := by
  have hone : (1 : ℚ) ≤ m := by exact_mod_cast Nat.one_le_iff_ne_zero.mpr hm
  have hmQ : (m : ℚ) ≤ 10 ^ (16 : Int) := by
    have : (m : ℚ) < 2 ^ 53 := by exact_mod_cast hm'
    refine this.le.trans ?_
    norm_num
  refine clamp_eq ?_ ?_
  · calc (10 : ℚ) ^ (-400 : Int) < 1 * 10 ^ (-22 : Int) := by
          rw [one_mul]
          exact zpow_lt_zpow_right₀ (by norm_num) (by norm_num)
      _ ≤ 1 * 10 ^ e := by gcongr; norm_num; exact he.1
      _ ≤ m * 10 ^ e := by gcongr
  · calc (m : ℚ) * 10 ^ e ≤ 10 ^ (16 : Int) * 10 ^ (22 : Int) := by gcongr; norm_num; exact he.2
      _ = 10 ^ (38 : Int) := (zpow_add₀ (by norm_num) _ _).symm
      _ < 10 ^ 400 := by
        rw [← zpow_ofNat]
        exact zpow_lt_zpow_right₀ (by norm_num) (by norm_num)

/-- Clamping is a rounding, so that there is one. -/
theorem rounds_saturating : Rounds fun x => Saturating.mk (clamp x) where
  eq m e := by
    have hzero : clamp 0 = 0 := by
      rw [clamp, if_neg (by norm_num), if_pos (by positivity)]
    unfold decimalToF64
    simp only [Bool.false_eq_true, if_false]
    by_cases hm : m = 0
    · rw [if_pos hm, hm, Nat.cast_zero, zero_mul, hzero]
      rfl
    rw [if_neg hm]
    by_cases hin : m < 2 ^ 53 ∧ -22 ≤ e ∧ e ≤ 22
    · rw [if_pos hin, clamp_scaled hm hin.1 hin.2]
      have hpower (z : Int) (hz : -22 ≤ z ∧ z ≤ 22) : clamp ((1 : Nat) * 10 ^ z) = 10 ^ z := by
        rw [clamp_scaled (by decide) (by decide) hz, Nat.cast_one, one_mul]
      split
      · show Saturating.mk (m / clamp _) = _
        rw [hpower _ (by omega), zpow_neg, div_inv_eq_mul]
      · show Saturating.mk (m * clamp _) = _
        rw [hpower _ hin.2]
    · rw [if_neg hin]
      rfl
  mono a b _ h := clamp_mono h
  top a b ha hb := by rw [clamp, clamp, if_pos ha, if_pos hb]
  bottom a b ha hb := by
    have hsmall {x : ℚ} (h : x ≤ 10 ^ (-400 : Int)) : clamp x = 0 := by
      rw [clamp, if_neg, if_pos h]
      rw [not_le]
      refine h.trans_lt ?_
      rw [← zpow_ofNat]
      exact zpow_lt_zpow_right₀ (by norm_num) (by norm_num)
    rw [hsmall ha.2, hsmall hb.2]

/-- The number `1.5`, which is cut in two, and `10000000000000000000.5`, of which the last two
digits do not fit the mantissa. -/
theorem reals_bracketed_half :
    let ops : List Op :=
      [.write [0x31, 0x2E] (.split 1), .receive, .write [0x35] (.split 0), .receive,
      .close]
    let long : List UInt8 := 0x31 :: List.replicate 19 0x30
    (∃ xs, (Session.new 64 (.split 0)).ReportsNumbers (F := Saturating) .accepting ops xs) ∧
      (∃ n : NumberState,
        (∃ b l, [0x31, 0x2E, 0x35] = b :: l ∧ (NumberState.start b).takeBytes l = some n) ∧
        n.Brackets (magnitude [0x31] [0x2E, 0x35] []) ∧ ∃ x : Saturating,
          numberOf [0x31, 0x2E, 0x35] = .f64 x ∧
          (n.droppedNonZero = false → x = ⟨clamp (n.mantissa * 10 ^ n.scale)⟩ ∧
            x = ⟨clamp (magnitude [0x31] [0x2E, 0x35] [])⟩)) ∧
      ∃ n : NumberState,
        (∃ b l, long ++ [0x2E, 0x35] = b :: l ∧ (NumberState.start b).takeBytes l = some n) ∧
        n.Brackets (magnitude long [0x2E, 0x35] []) ∧ n.droppedNonZero = true ∧ ∃ x : Saturating,
          numberOf (long ++ [0x2E, 0x35]) = .f64 x ∧
          (x = ⟨clamp (n.mantissa * 10 ^ n.scale)⟩ ∨
            x = ⟨clamp ((n.mantissa + 1) * 10 ^ n.scale)⟩) := by
  intro ops long
  have hops : ∀ op ∈ ops, op.Feeds := by
    intro op hop
    simp only [ops, List.mem_cons, List.not_mem_nil, or_false] at hop
    rcases hop with rfl | rfl | rfl | rfl | rfl <;> trivial
  have hfrac : IsFrac [0x2E, 0x35] :=
    .inr ⟨[0x35], rfl, by simp, fun d hd => by rw [List.mem_singleton.mp hd]; rfl⟩
  have hzeros : ∀ b ∈ List.replicate 19 0x30, isDigit b = true := fun b hb => by
    rw [List.eq_of_mem_replicate hb]
    rfl
  have hreals :=
    reals_bracketed (Session.new_atStart (F := Saturating) .accepting 64 (.split 0)) hops
  refine ⟨hreals.1, ?_, ?_⟩
  · obtain ⟨n, hn, hbrackets, hrounds⟩ := hreals.2 [] [0x31] [0x2E, 0x35] [] (.inl rfl)
      (.inr ⟨0x31, [], rfl, rfl, by decide, by simp⟩) hfrac (.inl rfl) (by simp) (by simp)
    obtain ⟨x, hx, hexact, -⟩ := hrounds _ _ rounds_saturating
    exact ⟨n, hn, hbrackets, x, hx, hexact⟩
  · obtain ⟨n, hn, hbrackets, hrounds⟩ := hreals.2 [] long [0x2E, 0x35] [] (.inl rfl)
      (.inr ⟨0x31, List.replicate 19 0x30, rfl, rfl, by decide, hzeros⟩) hfrac (.inl rfl)
      (by simp) (by simp [long])
    rw [List.nil_append, List.append_nil] at hn hrounds
    obtain ⟨x, hx, -, hdropped⟩ := hrounds _ _ rounds_saturating
    have hfull : n.droppedNonZero = true := by
      obtain ⟨b, l, heq, ht⟩ := hn
      have heq : 0x31 :: (List.replicate 19 0x30 ++ [0x2E, 0x35]) = b :: l := heq
      obtain ⟨rfl, rfl⟩ := List.cons.inj heq
      have hrun : ((NumberState.start 0x31).takeBytes
          (List.replicate 19 0x30 ++ [0x2E, 0x35])).map NumberState.droppedNonZero = some true := by
        decide +kernel
      rw [ht] at hrun
      exact Option.some.inj hrun
    exact ⟨n, hn, hbrackets, hfull, x, hx, (hdropped hfull).1⟩

end RJsonParser
