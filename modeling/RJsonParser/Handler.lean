import Mathlib

/-!
# Values and callbacks

`src/error.rs`, `src/number.rs`, `src/limits.rs`, `src/locator.rs` and the callbacks of
`src/handler.rs`.

A text (`&str`, `String`) is a list of characters. A handler is what it answers to the callbacks
made so far, the last of them being the one it answers to: a Rust handler has any state and may
read the locator it was given, so its answer may depend on all of them and on where the locator
stood at each.

`f64` is a parameter: the tokenizer computes with it in `decimal_to_f64` and nowhere looks into
it.
-/

namespace RJsonParser

/-- `&str` and `String`. -/
abbrev Text := List Char

instance : LawfulBEq Text := inferInstance

/-- `ParseError`. -/
structure ParseError where
  message : String
deriving DecidableEq, Repr

/-- How a call ends that does not return a value: the `Err` it returns, a panic (an index out of
bounds, a failed `expect`, an `unreachable!`, a subtraction below zero), or, in the model only, a
loop that used up the iterations it was given. -/
inductive Stop where
  | error (e : ParseError)
  | panic
  | outOfFuel
deriving DecidableEq, Repr

/-- `Err(ParseError::new(message))`. -/
def Stop.err (message : String) : Stop := .error ⟨message⟩

/-! ## Numbers -/

/-- What `decimal_to_f64` uses of `f64`. `ofNat m` is `m as f64`, `parse m e` is the double that
`str::parse` reads from `<m>e<e>`, and `eq` is `==`. -/
class Double (F : Type) where
  zero : F
  ofNat : Nat → F
  parse : Nat → Int → F
  mul : F → F → F
  div : F → F → F
  neg : F → F
  eq : F → F → Bool

/-- Exact arithmetic, which `f64` agrees with where no rounding takes place. -/
instance : Double Rat where
  zero := 0
  ofNat m := m
  parse m e := m * 10 ^ e
  mul := (· * ·)
  div := (· / ·)
  neg := (- ·)
  eq a b := a = b

/-- `Number`. -/
inductive Number (F : Type) where
  | i32 (v : Int)
  | i64 (v : Int)
  | f64 (v : F)
  | bigInt (digits : Text)
deriving DecidableEq, Repr

/-! ## Limits -/

/-- `ParserLimits`. -/
structure ParserLimits where
  maxNestingDepth : Option Nat
  maxNumberLength : Option Nat
  maxStringLength : Option Nat
  maxNameLength : Option Nat
  maxDocumentLength : Option Nat
  maxTokenCount : Option Nat
deriving DecidableEq, Repr

/-- `ParserLimits::default`. -/
def ParserLimits.default : ParserLimits where
  maxNestingDepth := some 1000
  maxNumberLength := some 1000
  maxStringLength := none
  maxNameLength := some 4096
  maxDocumentLength := none
  maxTokenCount := none

/-- `ParserLimits::unlimited`. -/
def ParserLimits.unlimited : ParserLimits where
  maxNestingDepth := none
  maxNumberLength := none
  maxStringLength := none
  maxNameLength := none
  maxDocumentLength := none
  maxTokenCount := none

/-- The limit is there and `n` is above it. -/
def exceeds (limit : Option Nat) (n : Nat) : Bool :=
  match limit with
  | none => false
  | some max => max < n

@[simp] theorem exceeds_none (n : Nat) : exceeds none n = false := rfl

@[simp] theorem exceeds_some (max n : Nat) : exceeds (some max) n = decide (max < n) := rfl

/-- A limit that is exceeded stays exceeded by more. -/
theorem exceeds_mono {limit : Option Nat} {m n : Nat} (h : exceeds limit m = true) (hmn : m ≤ n) :
    exceeds limit n = true := by
  cases limit with
  | none => simp at h
  | some max => simp at h ⊢; omega

/-! ## Locator -/

/-- `SharedLocator`. -/
structure SharedLocator where
  line : Nat
  column : Nat
deriving DecidableEq, Repr

/-- `SharedLocator::new`. -/
def SharedLocator.new : SharedLocator := ⟨1, 1⟩

/-- `SharedLocator::add_column`. -/
def SharedLocator.addColumn (l : SharedLocator) (delta : Nat) : SharedLocator :=
  { l with column := l.column + delta }

/-! ## Callbacks -/

/-- A callback of `ContentHandler` with its arguments. -/
inductive Event (F : Type) where
  | startObject
  | endObject
  | startArray
  | endArray
  | key (key : Text)
  | startStringValue
  | stringValueContent (chunk : Text)
  | endStringValue
  | numberValue (value : Number F)
  | booleanValue (value : Bool)
  | nullValue
  | whitespace (whitespace : Text)
deriving DecidableEq, Repr

/-- A callback that was made, and what the locator read inside it. -/
structure Call (F : Type) where
  event : Event F
  locator : SharedLocator
deriving DecidableEq, Repr

/-- A `ContentHandler`: what it returns from the last of the callbacks made so far (`none` is
`Ok(())`), and what `needs_whitespace` returns after them. -/
structure Handler (F : Type) where
  reply : List (Call F) → Option ParseError
  needsWhitespace : List (Call F) → Bool

/-- A handler that takes everything, whitespace too. -/
def Handler.accepting {F : Type} : Handler F := ⟨fun _ => none, fun _ => true⟩

/-- A handler none of whose callbacks returns an error. -/
def Handler.NeverErrs {F : Type} (h : Handler F) : Prop := ∀ calls, h.reply calls = none

end RJsonParser
