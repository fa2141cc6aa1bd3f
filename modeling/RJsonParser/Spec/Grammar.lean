import RJsonParser.Spec.Events
import RJsonParser.Spec.Text

/-!
# The grammar

The JSON texts of RFC 8259 as concrete syntax trees, with the bytes that a tree is written in and
the value that it denotes.

* `Tree` — a tree, whose leaves carry what makes them well formed
* `Tree.bytes`, `Tree.denote`, `Tree.keys`
* `Tree.measure` — what the limits are about; `Tree.distinct` — no object has a key twice
* `Document` — an optional byte order mark, whitespace, a value, whitespace
-/

namespace RJsonParser

open Infra Infra.Utf8

/-! ## Leaves -/

/-- `ws` of the grammar, one byte of it. -/
def isWs (b : UInt8) : Bool := b = 0x20 || b = 0x09 || b = 0x0A || b = 0x0D

/-- A run of whitespace. -/
abbrev Ws := { l : List UInt8 // ∀ b ∈ l, isWs b = true }

/-- One digit or more. -/
def IsDigits (l : List UInt8) : Prop := l ≠ [] ∧ ∀ b ∈ l, isDigit b = true

/-- `int` of the grammar. -/
def IsInt (l : List UInt8) : Prop :=
  l = [0x30] ∨ ∃ b ds, l = b :: ds ∧ isDigit b = true ∧ b ≠ 0x30 ∧ ∀ d ∈ ds, isDigit d = true

/-- `frac` of the grammar, or nothing. -/
def IsFrac (l : List UInt8) : Prop := l = [] ∨ ∃ ds, l = 0x2E :: ds ∧ IsDigits ds

/-- `exp` of the grammar, or nothing. -/
def IsExp (l : List UInt8) : Prop :=
  l = [] ∨ ∃ e sign ds, l = e :: sign ++ ds ∧ (e = 0x65 ∨ e = 0x45) ∧
    (sign = [] ∨ sign = [0x2B] ∨ sign = [0x2D]) ∧ IsDigits ds

/-- `number` of the grammar. -/
def IsNumber (l : List UInt8) : Prop :=
  ∃ minus int frac exp, l = minus ++ int ++ frac ++ exp ∧ (minus = [] ∨ minus = [0x2D]) ∧
    IsInt int ∧ IsFrac frac ∧ IsExp exp

/-- A number. -/
abbrev NumberText := { l : List UInt8 // IsNumber l }

/-- What `NumberState` makes of a number. -/
def numberOf {F : Type} [Double F] (l : List UInt8) : Number F :=
  match l with
  | [] => .i32 0
  | b :: l =>
    match (NumberState.start b).takeBytes l with
    | some n => n.value
    | none => .i32 0

/-- What stands between the quotes of a string, with the text it denotes. -/
structure RawString where
  raw : List UInt8
  text : Text
  denotes : decodeString raw = some text

/-- In its quotes. -/
def RawString.bytes (s : RawString) : List UInt8 := quote :: s.raw ++ [quote]

/-! ## Trees -/

/-- A concrete syntax tree. The items of a container have the whitespace around them; an item of an
object is a key, a colon and a value. -/
inductive Tree where
  | null
  | boolean (value : Bool)
  | number (n : NumberText)
  | string (s : RawString)
  | emptyArray (pad : Ws)
  | array (first : Ws × Tree × Ws) (rest : List (Ws × Tree × Ws))
  | emptyObject (pad : Ws)
  | object (first : (Ws × RawString × Ws) × Ws × Tree × Ws)
      (rest : List ((Ws × RawString × Ws) × Ws × Tree × Ws))

/-- A key up to its colon. -/
def labelBytes (label : Ws × RawString × Ws) : List UInt8 :=
  label.1.1 ++ label.2.1.bytes ++ label.2.2.1 ++ [0x3A]

mutual

/-- The bytes of a tree. -/
def Tree.bytes : Tree → List UInt8
  | .null => [0x6E, 0x75, 0x6C, 0x6C]
  | .boolean true => [0x74, 0x72, 0x75, 0x65]
  | .boolean false => [0x66, 0x61, 0x6C, 0x73, 0x65]
  | .number n => n.1
  | .string s => s.bytes
  | .emptyArray pad => 0x5B :: pad.1 ++ [0x5D]
  | .array first rest => 0x5B :: itemBytes first ++ restBytes rest ++ [0x5D]
  | .emptyObject pad => 0x7B :: pad.1 ++ [0x7D]
  | .object first rest => 0x7B :: memberBytes first ++ membersBytes rest ++ [0x7D]

def Tree.itemBytes : Ws × Tree × Ws → List UInt8
  | (before, t, after) => before.1 ++ t.bytes ++ after.1

/-- Further elements, each behind a comma. -/
def Tree.restBytes : List (Ws × Tree × Ws) → List UInt8
  | [] => []
  | item :: rest => 0x2C :: itemBytes item ++ restBytes rest

def Tree.memberBytes : (Ws × RawString × Ws) × Ws × Tree × Ws → List UInt8
  | (label, before, t, after) => labelBytes label ++ before.1 ++ t.bytes ++ after.1

/-- Further members, each behind a comma. -/
def Tree.membersBytes : List ((Ws × RawString × Ws) × Ws × Tree × Ws) → List UInt8
  | [] => []
  | member :: rest => 0x2C :: memberBytes member ++ membersBytes rest

end

/-- The pieces of a string value that comes in one. -/
def piecesOf (s : Text) : List Text := if s = [] then [] else [s]

mutual

/-- The value that a tree denotes. -/
def Tree.denote {F : Type} [Double F] : Tree → Json F
  | .null => .null
  | .boolean b => .boolean b
  | .number n => .number (numberOf n.1)
  | .string s => .string (piecesOf s.text)
  | .emptyArray _ => .array []
  | .array (_, t, _) rest => .array (t.denote :: denoteRest rest)
  | .emptyObject _ => .object []
  | .object ((_, k, _), _, t, _) rest => .object ((k.text, t.denote) :: denoteMembers rest)

def Tree.denoteRest {F : Type} [Double F] : List (Ws × Tree × Ws) → List (Json F)
  | [] => []
  | (_, t, _) :: rest => t.denote :: denoteRest rest

def Tree.denoteMembers {F : Type} [Double F] :
    List ((Ws × RawString × Ws) × Ws × Tree × Ws) → List (Text × Json F)
  | [] => []
  | ((_, k, _), _, t, _) :: rest => (k.text, t.denote) :: denoteMembers rest

end

mutual

/-- The keys of a tree, as they are written. -/
def Tree.keys : Tree → List RawString
  | .null | .boolean _ | .number _ | .string _ | .emptyArray _ | .emptyObject _ => []
  | .array (_, t, _) rest => t.keys ++ keysRest rest
  | .object ((_, k, _), _, t, _) rest => k :: t.keys ++ keysMembers rest

def Tree.keysRest : List (Ws × Tree × Ws) → List RawString
  | [] => []
  | (_, t, _) :: rest => t.keys ++ keysRest rest

def Tree.keysMembers : List ((Ws × RawString × Ws) × Ws × Tree × Ws) → List RawString
  | [] => []
  | ((_, k, _), _, t, _) :: rest => k :: t.keys ++ keysMembers rest

end

/-! ## What the settings are about -/

/-- The sizes that the limits bound. -/
structure Measure where
  /-- How many structural characters, keys, strings, numbers and literals there are. -/
  tokens : Nat
  /-- How deep containers are nested. -/
  depth : Nat
  /-- The raw lengths of the string values. -/
  strings : List Nat
  /-- The raw lengths of the keys. -/
  names : List Nat
  /-- The lengths of the numbers. -/
  numbers : List Nat
deriving DecidableEq, Repr

namespace Measure

/-- Some tokens that have no other size. -/
def ofTokens (n : Nat) : Measure := ⟨n, 0, [], [], []⟩

/-- One part and another behind it. -/
def append (m m' : Measure) : Measure where
  tokens := m.tokens + m'.tokens
  depth := max m.depth m'.depth
  strings := m.strings ++ m'.strings
  names := m.names ++ m'.names
  numbers := m.numbers ++ m'.numbers

/-- In a container. -/
def nested (m : Measure) : Measure := { m with tokens := m.tokens + 2, depth := m.depth + 1 }

end Measure

/-- The sizes of a key and its colon. -/
def labelMeasure (label : Ws × RawString × Ws) : Measure :=
  { Measure.ofTokens 2 with names := [label.2.1.raw.length] }

mutual

/-- The sizes of a tree. -/
def Tree.measure : Tree → Measure
  | .null | .boolean _ => .ofTokens 1
  | .number n => { Measure.ofTokens 1 with numbers := [n.1.length] }
  | .string s => { Measure.ofTokens 1 with strings := [s.raw.length] }
  | .emptyArray _ | .emptyObject _ => (Measure.ofTokens 0).nested
  | .array (_, t, _) rest => (t.measure.append (measureRest rest)).nested
  | .object (label, _, t, _) rest =>
    ((labelMeasure label).append (t.measure.append (measureMembers rest))).nested

def Tree.measureRest : List (Ws × Tree × Ws) → Measure
  | [] => .ofTokens 0
  | (_, t, _) :: rest => (Measure.ofTokens 1).append (t.measure.append (measureRest rest))

def Tree.measureMembers : List ((Ws × RawString × Ws) × Ws × Tree × Ws) → Measure
  | [] => .ofTokens 0
  | (label, _, t, _) :: rest =>
    (Measure.ofTokens 1).append
      ((labelMeasure label).append (t.measure.append (measureMembers rest)))

end

/-- The texts of the keys of further members. -/
def memberKeys (rest : List ((Ws × RawString × Ws) × Ws × Tree × Ws)) : List Text :=
  rest.map fun member => member.1.2.1.text

mutual

/-- No object has a key twice. -/
def Tree.distinct : Tree → Bool
  | .null | .boolean _ | .number _ | .string _ | .emptyArray _ | .emptyObject _ => true
  | .array (_, t, _) rest => t.distinct && distinctRest rest
  | .object ((_, k, _), _, t, _) rest =>
    decide (k.text :: memberKeys rest).Nodup && (t.distinct && distinctMembers rest)

def Tree.distinctRest : List (Ws × Tree × Ws) → Bool
  | [] => true
  | (_, t, _) :: rest => t.distinct && distinctRest rest

def Tree.distinctMembers : List ((Ws × RawString × Ws) × Ws × Tree × Ws) → Bool
  | [] => true
  | (_, _, t, _) :: rest => t.distinct && distinctMembers rest

end

/-- **A JSON text**: an optional byte order mark, whitespace, a value and whitespace. -/
def Document (l : List UInt8) (t : Tree) : Prop :=
  ∃ bom, ∃ before after : Ws, (bom = [] ∨ bom = [0xEF, 0xBB, 0xBF]) ∧
    l = bom ++ before.1 ++ t.bytes ++ after.1

end RJsonParser
