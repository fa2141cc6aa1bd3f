import RJsonParser.Spec.Grammar

/-!
# Numbers and their grammar

* `NumStage.next` — the stages of a number as an automaton
* `NumTail` — what the grammar has after the bytes that lead to a stage
* `takeBytes_iff` — `NumberState` goes through exactly the numbers of the grammar
-/

namespace RJsonParser

/-! ## The stages -/

/-- The stage after a byte, if the number goes on. -/
def NumStage.next (stage : NumStage) (b : UInt8) : Option NumStage :=
  let mark : Option NumStage :=
    if b = 0x2E then some .fractionDot
    else if b = 0x65 ∨ b = 0x45 then some .exponentMark
    else Option.none
  match stage with
  | .afterMinus => if b = 0x30 then some .zero else if isDigit b then some .integer else Option.none
  | .zero => if isDigit b then Option.none else mark
  | .integer => if isDigit b then some .integer else mark
  | .fractionDot => if isDigit b then some .fraction else Option.none
  | .fraction =>
    if isDigit b then some .fraction
    else if b = 0x65 ∨ b = 0x45 then some .exponentMark
    else Option.none
  | .exponentMark =>
    if b = 0x2B ∨ b = 0x2D then some .exponentSign
    else if isDigit b then some .exponent
    else Option.none
  | .exponentSign | .exponent => if isDigit b then some .exponent else Option.none
  | .none => Option.none

/-- The stage of the number, if it goes on. -/
def NumStep.stage? : NumStep → Option NumStage
  | .next s => some s.stage
  | _ => none

/-- A number may end here. -/
def NumStage.isFinal : NumStage → Bool
  | .zero | .integer | .fraction | .exponent => true
  | .none | .afterMinus | .fractionDot | .exponentMark | .exponentSign => false

namespace NumberState

/-- `takeByte` moves from stage to stage as the automaton does. -/
theorem takeByte_next (s : NumberState) (b : UInt8) :
    (s.takeByte b).stage? = s.stage.next b := by
  have mark : (s.takeMark b).stage? = if b = 0x2E then some .fractionDot
      else if b = 0x65 ∨ b = 0x45 then some .exponentMark else none := by
    unfold takeMark
    split_ifs <;> rfl
  cases hs : s.stage <;> simp only [takeByte, hs, NumStage.next]
  case none => rfl
  case afterMinus =>
    by_cases h0 : b = 0x30
    · simp [h0, NumStep.stage?]
    · by_cases hd : isDigit b = true <;> simp [h0, hd, NumStep.stage?]
  case zero =>
    by_cases hd : isDigit b = true
    · simp [hd, NumStep.stage?]
    · simpa [hd] using mark
  case integer =>
    by_cases hd : isDigit b = true
    · simp [hd, hs, NumStep.stage?]
    · simpa [hd] using mark
  case fraction =>
    by_cases hd : isDigit b = true
    · simp [hd, hs, NumStep.stage?]
    · by_cases he : b = 0x65 ∨ b = 0x45 <;> simp [hd, he, NumStep.stage?]
  case exponentMark =>
    by_cases hm : b = 0x2B ∨ b = 0x2D
    · simp [hm, NumStep.stage?]
    · by_cases hd : isDigit b = true <;> simp [hm, hd, NumStep.stage?]
  all_goals by_cases hd : isDigit b = true <;> simp [hd, hs, NumStep.stage?]

end NumberState

/-! ## The grammar from a stage on -/

/-- `exp` without its mark. -/
def ExpTail (l : List UInt8) : Prop :=
  ∃ sign ds, l = sign ++ ds ∧ (sign = [] ∨ sign = [0x2B] ∨ sign = [0x2D]) ∧ IsDigits ds

/-- `frac` without its point, then `exp`. -/
def DotTail (l : List UInt8) : Prop := ∃ ds exp, l = ds ++ exp ∧ IsDigits ds ∧ IsExp exp

/-- `frac` and `exp`. -/
def FracExp (l : List UInt8) : Prop := ∃ frac exp, l = frac ++ exp ∧ IsFrac frac ∧ IsExp exp

/-- More digits, then what `P` says. -/
def DigitsThen (P : List UInt8 → Prop) (l : List UInt8) : Prop :=
  ∃ ds r, l = ds ++ r ∧ (∀ d ∈ ds, isDigit d = true) ∧ P r

/-- What the grammar has after the bytes that lead to a stage. -/
def NumTail : NumStage → List UInt8 → Prop
  | .none, _ => False
  | .afterMinus, l => ∃ int r, l = int ++ r ∧ IsInt int ∧ FracExp r
  | .zero, l => FracExp l
  | .integer, l => DigitsThen FracExp l
  | .fractionDot, l => DotTail l
  | .fraction, l => DigitsThen IsExp l
  | .exponentMark, l => ExpTail l
  | .exponentSign, l => IsDigits l
  | .exponent, l => ∀ d ∈ l, isDigit d = true

theorem isDigits_cons {b : UInt8} {l : List UInt8} :
    IsDigits (b :: l) ↔ isDigit b = true ∧ ∀ d ∈ l, isDigit d = true := by
  simp [IsDigits]

theorem digitsThen_nil {P : List UInt8 → Prop} : DigitsThen P [] ↔ P [] := by
  constructor
  · rintro ⟨ds, r, h, -, hr⟩
    obtain ⟨-, rfl⟩ := List.append_eq_nil_iff.mp h.symm
    exact hr
  · exact fun h => ⟨[], [], rfl, by simp, h⟩

/-- The digits go on, or `P` says what comes. -/
theorem digitsThen_cons {P : List UInt8 → Prop} {b : UInt8} {l : List UInt8} :
    DigitsThen P (b :: l) ↔ (isDigit b = true ∧ DigitsThen P l) ∨ P (b :: l) := by
  constructor
  · rintro ⟨ds, r, h, hds, hr⟩
    cases ds with
    | nil => exact .inr (h ▸ hr)
    | cons d ds =>
      obtain ⟨rfl, rfl⟩ := List.cons_eq_cons.mp h
      exact .inl ⟨hds b (by simp), ds, r, rfl, fun x hx => hds x (by simp [hx]), hr⟩
  · rintro (⟨hb, ds, r, rfl, hds, hr⟩ | h)
    · exact ⟨b :: ds, r, rfl, by simpa [hb] using hds, hr⟩
    · exact ⟨[], b :: l, rfl, by simp, h⟩

/-- An exponent starts with one of two letters. -/
theorem isExp_cons {b : UInt8} {l : List UInt8} :
    IsExp (b :: l) ↔ (b = 0x65 ∨ b = 0x45) ∧ ExpTail l := by
  constructor
  · rintro (h | ⟨e, sign, ds, h, he, hs, hd⟩)
    · cases h
    · obtain ⟨rfl, rfl⟩ := List.cons_eq_cons.mp h
      exact ⟨he, sign, ds, rfl, hs, hd⟩
  · rintro ⟨he, sign, ds, rfl, hs, hd⟩
    exact .inr ⟨b, sign, ds, rfl, he, hs, hd⟩

theorem fracExp_nil : FracExp [] := ⟨[], [], rfl, .inl rfl, .inl rfl⟩

/-- After the integer part comes a fraction or an exponent, or nothing. -/
theorem fracExp_cons {b : UInt8} {l : List UInt8} :
    FracExp (b :: l) ↔ (b = 0x2E ∧ DotTail l) ∨ IsExp (b :: l) := by
  constructor
  · rintro ⟨frac, exp, h, rfl | ⟨ds, rfl, hds⟩, he⟩
    · exact .inr (h ▸ he)
    · obtain ⟨rfl, rfl⟩ := List.cons_eq_cons.mp h
      exact .inl ⟨rfl, ds, exp, rfl, hds, he⟩
  · rintro (⟨rfl, ds, exp, rfl, hds, he⟩ | he)
    · exact ⟨0x2E :: ds, exp, rfl, .inr ⟨ds, rfl, hds⟩, he⟩
    · exact ⟨[], _, rfl, .inl rfl, he⟩

theorem dotTail_cons {b : UInt8} {l : List UInt8} :
    DotTail (b :: l) ↔ isDigit b = true ∧ DigitsThen IsExp l := by
  constructor
  · rintro ⟨ds, exp, h, ⟨hne, hds⟩, he⟩
    obtain ⟨d, ds, rfl⟩ := List.exists_cons_of_ne_nil hne
    obtain ⟨rfl, rfl⟩ := List.cons_eq_cons.mp h
    exact ⟨hds b (by simp), ds, exp, rfl, fun x hx => hds x (by simp [hx]), he⟩
  · rintro ⟨hb, ds, exp, rfl, hds, he⟩
    exact ⟨b :: ds, exp, rfl, ⟨by simp, by simpa [hb] using hds⟩, he⟩

theorem expTail_cons {b : UInt8} {l : List UInt8} :
    ExpTail (b :: l) ↔ ((b = 0x2B ∨ b = 0x2D) ∧ IsDigits l) ∨
      (isDigit b = true ∧ ∀ d ∈ l, isDigit d = true) := by
  constructor
  · rintro ⟨sign, ds, h, rfl | rfl | rfl, hds⟩
    · rw [List.nil_append] at h
      subst h
      exact .inr (isDigits_cons.mp hds)
    · obtain ⟨rfl, rfl⟩ := List.cons_eq_cons.mp h
      exact .inl ⟨.inl rfl, hds⟩
    · obtain ⟨rfl, rfl⟩ := List.cons_eq_cons.mp h
      exact .inl ⟨.inr rfl, hds⟩
  · rintro (⟨rfl | rfl, hds⟩ | hds)
    · exact ⟨[0x2B], l, rfl, .inr (.inl rfl), hds⟩
    · exact ⟨[0x2D], l, rfl, .inr (.inr rfl), hds⟩
    · exact ⟨[], b :: l, rfl, .inl rfl, isDigits_cons.mpr hds⟩

/-- After the sign comes a zero alone, or digits. -/
theorem intTail_cons {b : UInt8} {l : List UInt8} :
    NumTail .afterMinus (b :: l) ↔
      (b = 0x30 ∧ FracExp l) ∨ (b ≠ 0x30 ∧ isDigit b = true ∧ DigitsThen FracExp l) := by
  constructor
  · rintro ⟨int, r, h, rfl | ⟨d, ds, rfl, hd, hne, hds⟩, hr⟩
    · obtain ⟨rfl, rfl⟩ := List.cons_eq_cons.mp h
      exact .inl ⟨rfl, hr⟩
    · obtain ⟨rfl, rfl⟩ := List.cons_eq_cons.mp h
      exact .inr ⟨hne, hd, ds, r, rfl, hds, hr⟩
  · rintro (⟨rfl, hr⟩ | ⟨hne, hd, ds, r, rfl, hds, hr⟩)
    · exact ⟨[0x30], l, rfl, .inl rfl, hr⟩
    · exact ⟨b :: ds, r, rfl, .inr ⟨b, ds, rfl, hd, hne, hds⟩, hr⟩

/-- A mark is no digit. -/
theorem not_isDigit_mark : isDigit 0x2E = false ∧ isDigit 0x65 = false ∧ isDigit 0x45 = false ∧
    isDigit 0x2B = false ∧ isDigit 0x2D = false := by decide

/-- **The automaton goes through the grammar.** -/
theorem numTail_cons {stage : NumStage} {b : UInt8} {l : List UInt8} :
    NumTail stage (b :: l) ↔ ∃ stage', stage.next b = some stage' ∧ NumTail stage' l := by
  obtain ⟨hdot, he, hE, hplus, hminus⟩ := not_isDigit_mark
  cases stage
  case none => simp [NumTail, NumStage.next]
  case afterMinus =>
    rw [intTail_cons]
    simp only [NumStage.next]
    by_cases h0 : b = 0x30
    · simp [h0, NumTail]
    · by_cases hd : isDigit b = true <;> simp [h0, hd, NumTail]
  case zero =>
    simp only [NumTail, fracExp_cons, isExp_cons, NumStage.next]
    by_cases hd : isDigit b = true
    · have h1 : b ≠ 0x2E := by rintro rfl; rw [hdot] at hd; cases hd
      have h2 : b ≠ 0x65 := by rintro rfl; rw [he] at hd; cases hd
      have h3 : b ≠ 0x45 := by rintro rfl; rw [hE] at hd; cases hd
      simp [hd, h1, h2, h3]
    · by_cases h1 : b = 0x2E
      · subst h1; simp [hd]
      · by_cases h2 : b = 0x65 ∨ b = 0x45 <;> simp [hd, h1, h2]
  case integer =>
    simp only [NumTail, digitsThen_cons, fracExp_cons, isExp_cons, NumStage.next]
    by_cases hd : isDigit b = true
    · have h1 : b ≠ 0x2E := by rintro rfl; rw [hdot] at hd; cases hd
      have h2 : b ≠ 0x65 := by rintro rfl; rw [he] at hd; cases hd
      have h3 : b ≠ 0x45 := by rintro rfl; rw [hE] at hd; cases hd
      simp [hd, h1, h2, h3]
    · by_cases h1 : b = 0x2E
      · subst h1; simp [hd]
      · by_cases h2 : b = 0x65 ∨ b = 0x45 <;> simp [hd, h1, h2]
  case fractionDot =>
    simp only [NumTail, dotTail_cons, NumStage.next]
    by_cases hd : isDigit b = true <;> simp [hd]
  case fraction =>
    simp only [NumTail, digitsThen_cons, isExp_cons, NumStage.next]
    by_cases hd : isDigit b = true
    · have h2 : b ≠ 0x65 := by rintro rfl; rw [he] at hd; cases hd
      have h3 : b ≠ 0x45 := by rintro rfl; rw [hE] at hd; cases hd
      simp [hd, h2, h3]
    · by_cases h2 : b = 0x65 ∨ b = 0x45 <;> simp [hd, h2]
  case exponentMark =>
    simp only [NumTail, expTail_cons, NumStage.next]
    by_cases hs : b = 0x2B ∨ b = 0x2D
    · have hd : isDigit b = false := by rcases hs with rfl | rfl <;> assumption
      simp [hs, hd]
    · by_cases hd : isDigit b = true <;> simp [hs, hd]
  case exponentSign =>
    simp only [NumTail, isDigits_cons, NumStage.next]
    by_cases hd : isDigit b = true <;> simp [hd]
  case exponent =>
    simp only [NumTail, NumStage.next, List.forall_mem_cons]
    by_cases hd : isDigit b = true <;> simp [hd]

/-- A number may end in four of its stages. -/
theorem numTail_nil (stage : NumStage) : NumTail stage [] ↔ stage.isFinal = true := by
  cases stage
  case none => simp [NumTail, NumStage.isFinal]
  case zero => simpa [NumTail, NumStage.isFinal] using fracExp_nil
  case integer => simpa [NumTail, NumStage.isFinal, digitsThen_nil] using fracExp_nil
  case fraction => simp [NumTail, NumStage.isFinal, digitsThen_nil, IsExp]
  case afterMinus => simp [NumTail, NumStage.isFinal, IsInt]
  case fractionDot => simp [NumTail, NumStage.isFinal, DotTail, IsDigits]
  case exponentMark => simp [NumTail, NumStage.isFinal, ExpTail, IsDigits]
  case exponentSign => simp [NumTail, NumStage.isFinal, IsDigits]
  case exponent => simp [NumTail, NumStage.isFinal]

/-! ## `NumberState` -/

/-- **`NumberState` goes through exactly what the grammar has** from its stage on. -/
theorem takeBytes_iff {l : List UInt8} {s : NumberState} :
    (∃ n, s.takeBytes l = some n ∧ n.stage.isFinal = true) ↔ NumTail s.stage l := by
  induction l generalizing s with
  | nil => simp [NumberState.takeBytes, numTail_nil]
  | cons b l ih =>
    rw [numTail_cons, ← s.takeByte_next b, NumberState.takeBytes]
    cases s.takeByte b with
    | next s' => simpa [NumStep.stage?, NumberState.addLength] using ih (s := s'.addLength 1)
    | _ => simp [NumStep.stage?]

/-- A byte that may start a number. -/
def startsNumber (b : UInt8) : Bool := b = 0x2D || isDigit b

/-- The stage after the first byte. -/
theorem start_stage (b : UInt8) : (NumberState.start b).stage =
    if b = 0x2D then .afterMinus else if b = 0x30 then .zero else .integer := by
  unfold NumberState.start
  by_cases h : b = 0x2D
  · simp [h]
  · by_cases h0 : b = 0x30 <;> simp [h, h0]

/-- **A number of the grammar**, from its first byte on. -/
theorem isNumber_cons {b : UInt8} {l : List UInt8} :
    IsNumber (b :: l) ↔ startsNumber b = true ∧
      ∃ n, (NumberState.start b).takeBytes l = some n ∧ n.stage.isFinal = true := by
  rw [takeBytes_iff, start_stage]
  have split : IsNumber (b :: l) ↔
      (b = 0x2D ∧ NumTail .afterMinus l) ∨ NumTail .afterMinus (b :: l) := by
    constructor
    · rintro ⟨minus, int, frac, exp, h, rfl | rfl, hi, hf, he⟩
      · exact .inr ⟨int, frac ++ exp, by simpa using h, hi, frac, exp, rfl, hf, he⟩
      · obtain ⟨rfl, rfl⟩ := List.cons_eq_cons.mp h
        exact .inl ⟨rfl, int, frac ++ exp, by simp, hi, frac, exp, rfl, hf, he⟩
    · rintro (⟨rfl, int, r, rfl, hi, frac, exp, rfl, hf, he⟩ |
        ⟨int, r, h, hi, frac, exp, rfl, hf, he⟩)
      · exact ⟨[0x2D], int, frac, exp, by simp, .inr rfl, hi, hf, he⟩
      · exact ⟨[], int, frac, exp, by simpa using h, .inl rfl, hi, hf, he⟩
  rw [split, intTail_cons]
  by_cases hm : b = 0x2D
  · subst hm
    simp [startsNumber, not_isDigit_mark]
  · by_cases h0 : b = 0x30
    · subst h0
      simp [startsNumber, NumTail, show isDigit 0x30 = true by decide]
    · simp [hm, h0, startsNumber, NumTail]

theorem not_isNumber_nil : ¬ IsNumber [] := by
  rintro ⟨minus, int, frac, exp, h, -, hi, -⟩
  have : int = [] := by simp_all
  rcases hi with h' | ⟨b, ds, h', -⟩ <;> simp_all

end RJsonParser
