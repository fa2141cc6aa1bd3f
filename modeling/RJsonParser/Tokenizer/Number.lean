import RJsonParser.Handler

/-!
# A number in progress

`NumberState` of `src/tokenizer.rs`: a number read in one forward pass, with only its value so far
kept between calls.

The accumulators are integers here. `mantissa` (`i64`) and `exponent` (`i32`) are held inside their
types by the thresholds in the code; `decimal_shift` (`i32`) is only counted up and down.
-/

namespace RJsonParser

/-- `NumStage`. -/
inductive NumStage where
  | none
  | afterMinus
  | zero
  | integer
  | fractionDot
  | fraction
  | exponentMark
  | exponentSign
  | exponent
deriving DecidableEq, Repr

/-- `DIGIT_ALWAYS_FITS_BELOW`: while the mantissa is at most this, any next digit fits an `i64`. -/
def digitAlwaysFitsBelow : Nat := 922337203685477579

/-- `i64::MAX`. -/
def i64Max : Nat := 9223372036854775807

/-- `NumberState`. -/
structure NumberState where
  stage : NumStage
  negative : Bool
  isReal : Bool
  length : Nat
  mantissa : Nat
  mantissaFull : Bool
  decimalShift : Int
  droppedNonZero : Bool
  firstDropped : Int
  exponentNegative : Bool
  exponent : Nat
  bigDigits : Text
deriving DecidableEq, Repr

/-- `decimal_to_f64`: `mantissa * 10^e10`, by one multiplication or division where both factors
are exact, by `str::parse` elsewhere. -/
def decimalToF64 {F : Type} [Double F] (negative : Bool) (mantissa : Nat) (e10 : Int) : F :=
  let value : F :=
    if mantissa = 0 then Double.zero
    else if mantissa < 2 ^ 53 ∧ -22 ≤ e10 ∧ e10 ≤ 22 then
      if e10 < 0 then Double.div (Double.ofNat mantissa) (Double.parse 1 (-e10))
      else Double.mul (Double.ofNat mantissa) (Double.parse 1 e10)
    else Double.parse mantissa e10
  if negative then Double.neg value else value

/-- The value of an ASCII digit, as `b.wrapping_sub(b'0')`; above 9 for any other byte. -/
def digitOf (b : UInt8) : UInt8 := b - 0x30

def isDigit (b : UInt8) : Bool := digitOf b ≤ 9

namespace NumberState

/-- `NumberState::new`. -/
def new : NumberState where
  stage := .none
  negative := false
  isReal := false
  length := 0
  mantissa := 0
  mantissaFull := false
  decimalShift := 0
  droppedNonZero := false
  firstDropped := -1
  exponentNegative := false
  exponent := 0
  bigDigits := []

/-- `start`. -/
def start (first : UInt8) : NumberState :=
  let n := { new with negative := first = 0x2D, length := 1 }
  if n.negative then { n with stage := .afterMinus }
  else if first = 0x30 then { n with stage := .zero }
  else { n with mantissa := (digitOf first).toNat, stage := .integer }

/-- The loop of `take_digit_run`: the mantissa and the number of digits taken. -/
def digitRun : List UInt8 → Nat → Nat × Nat
  | [], m => (m, 0)
  | b :: span, m =>
    if m ≤ digitAlwaysFitsBelow ∧ isDigit b then
      let r := digitRun span (m * 10 + (digitOf b).toNat)
      (r.1, r.2 + 1)
    else (m, 0)

/-- `take_digit_run`: the state, and the number of digits taken. -/
def takeDigitRun (s : NumberState) (span : List UInt8) : NumberState × Nat :=
  let (m, n) := digitRun span s.mantissa
  if 0 < n then
    ({ s with
        mantissa := m
        decimalShift := if s.stage = .fraction then s.decimalShift - n else s.decimalShift
        length := s.length + n }, n)
  else (s, n)

/-- `char::from(b'0' + digit)`. -/
def digitChar (digit : Nat) : Char := Char.ofNat (0x30 + digit)

/-- `take_digit`. -/
def takeDigit (s : NumberState) (digit : Nat) (fraction : Bool) : NumberState :=
  if !s.mantissaFull && s.mantissa ≤ (i64Max - digit) / 10 then
    { s with
      mantissa := s.mantissa * 10 + digit
      decimalShift := if fraction then s.decimalShift - 1 else s.decimalShift }
  else
    let s :=
      if s.mantissaFull then s
      else
        { s with
          mantissaFull := true
          droppedNonZero := false
          firstDropped := -1
          bigDigits := if fraction then s.bigDigits else Nat.toDigits 10 s.mantissa }
    let s :=
      if fraction then s
      else
        { s with
          decimalShift := s.decimalShift + 1
          bigDigits := s.bigDigits ++ [digitChar digit] }
    { s with
      droppedNonZero := s.droppedNonZero || digit != 0
      firstDropped := if s.firstDropped < 0 then digit else s.firstDropped }

/-- `take_exponent_digit`. -/
def takeExponentDigit (s : NumberState) (digit : Nat) : NumberState :=
  if s.exponent < 100000 then { s with exponent := s.exponent * 10 + digit } else s

@[simp] theorem takeDigit_stage (s : NumberState) (digit : Nat) (fraction : Bool) :
    (s.takeDigit digit fraction).stage = s.stage := by
  unfold takeDigit
  split_ifs <;> rfl

@[simp] theorem takeExponentDigit_stage (s : NumberState) (digit : Nat) :
    (s.takeExponentDigit digit).stage = s.stage := by
  unfold takeExponentDigit
  split_ifs <;> rfl

/-- `integer_value`. -/
def integerValue {F : Type} (s : NumberState) : Number F :=
  if s.bigDigits ≠ [] then .bigInt (if s.negative then '-' :: s.bigDigits else s.bigDigits)
  else
    let value : Int := if s.negative then -(s.mantissa : Int) else s.mantissa
    if -2147483648 ≤ value ∧ value ≤ 2147483647 then .i32 value else .i64 value

/-- `real_value`. -/
def realValue {F : Type} [Double F] (s : NumberState) : Number F :=
  let exponent : Int := if s.exponentNegative then -(s.exponent : Int) else s.exponent
  let e10 := exponent + s.decimalShift
  if !(s.mantissaFull && s.droppedNonZero) then .f64 (decimalToF64 s.negative s.mantissa e10)
  else
    let low : F := decimalToF64 false s.mantissa e10
    let high : F :=
      if s.mantissa = i64Max then low else decimalToF64 false (s.mantissa + 1) e10
    let value := if Double.eq low high || s.firstDropped < 5 then low else high
    .f64 (if s.negative then Double.neg value else value)

/-- What `emit_number` reports. -/
def value {F : Type} [Double F] (s : NumberState) : Number F :=
  if s.isReal then s.realValue else s.integerValue

end NumberState

/-- What one byte does to a number. -/
inductive NumStep where
  | next (s : NumberState)
  /-- The number ended before this byte. -/
  | ended
  | error (message : String)
  /-- `unreachable!`: there is no number. -/
  | unreachable

namespace NumberState

/-- A point or an exponent mark after the integer part. -/
def takeMark (s : NumberState) (b : UInt8) : NumStep :=
  if b = 0x2E then .next { s with isReal := true, stage := .fractionDot }
  else if b = 0x65 ∨ b = 0x45 then .next { s with isReal := true, stage := .exponentMark }
  else .ended

/-- The match of `continue_number` on the stage, for the byte `b`. -/
def takeByte (s : NumberState) (b : UInt8) : NumStep :=
  let digit := (digitOf b).toNat
  match s.stage with
  | .afterMinus =>
    if b = 0x30 then .next { s with stage := .zero }
    else if isDigit b then .next ({ s with stage := .integer }.takeDigit digit false)
    else .error "Invalid number format"
  | .zero => if isDigit b then .error "Numbers cannot have leading zeros" else s.takeMark b
  | .integer => if isDigit b then .next (s.takeDigit digit false) else s.takeMark b
  | .fractionDot =>
    if !isDigit b then .error "Decimal point must be followed by digit"
    else .next ({ s with stage := .fraction }.takeDigit digit true)
  | .fraction =>
    if isDigit b then .next (s.takeDigit digit true)
    else if b = 0x65 ∨ b = 0x45 then .next { s with isReal := true, stage := .exponentMark }
    else .ended
  | .exponentMark =>
    if b = 0x2B ∨ b = 0x2D then
      .next { s with exponentNegative := b = 0x2D, stage := .exponentSign }
    else if isDigit b then .next ({ s with stage := .exponent }.takeExponentDigit digit)
    else .error "Exponent must have digit"
  | .exponentSign =>
    if !isDigit b then .error "Exponent must have digit"
    else .next ({ s with stage := .exponent }.takeExponentDigit digit)
  | .exponent => if isDigit b then .next (s.takeExponentDigit digit) else .ended
  | .none => .unreachable

/-- One byte of a number, counted. -/
def addLength (s : NumberState) (n : Nat) : NumberState := { s with length := s.length + n }

/-- A number over some bytes at once: `takeByte` on each. -/
def takeBytes : NumberState → List UInt8 → Option NumberState
  | s, [] => some s
  | s, b :: l =>
    match s.takeByte b with
    | .next s' => (s'.addLength 1).takeBytes l
    | _ => none

end NumberState

end RJsonParser
