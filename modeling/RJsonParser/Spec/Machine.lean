import RJsonParser.Infra.Incremental
import RJsonParser.Spec.Text
import RJsonParser.Tokenizer.Receive

/-!
# The reference machine

JSON read one item at a time from the front of a byte list: a byte of whitespace, a structural
character, a literal, a key, a quote, a character of a string, a byte of a number. Nothing is
buffered and there are no spans, so the machine says what the tokenizer does apart from how its
input arrives.

* `Core.next` — the decision in one state
* `Core.next_bound`, `Core.next_append` — an item is there when it is taken, and a decision stands
  when more input arrives
* `machine` — the machine for given limits

What the tokenizer puts out in pieces the machine puts out character by character; a `Mark` has the
position of the locator only where the pieces do not matter.
-/

namespace RJsonParser

open Infra Infra.Utf8

variable {F : Type}

/-! ## Tokens -/

/-- The tokens, by their first byte. -/
inductive TokenKind where
  | quote
  | comma
  | colon
  | opening (context : Context)
  | closing (context : Context)
  | literal (rest : List UInt8) (value : Option Bool)
  | number
  | other
deriving DecidableEq, Repr

/-- The token that starts with `b`. -/
def tokenKind (b : UInt8) : TokenKind :=
  if b = quote then .quote
  else if b = 0x2C then .comma
  else if b = 0x3A then .colon
  else if b = 0x7B then .opening .object
  else if b = 0x7D then .closing .object
  else if b = 0x5B then .opening .array
  else if b = 0x5D then .closing .array
  else if b = 0x74 then .literal [0x72, 0x75, 0x65] (some true)
  else if b = 0x66 then .literal [0x61, 0x6C, 0x73, 0x65] (some false)
  else if b = 0x6E then .literal [0x75, 0x6C, 0x6C] none
  else if b = 0x2D ∨ isDigit b then .number
  else .other

def Context.openByte : Context → UInt8
  | .array => 0x5B
  | .object => 0x7B

def Context.closeByte : Context → UInt8
  | .array => 0x5D
  | .object => 0x7D

/-- The bytes of a literal. -/
def literalBytes : Option Bool → List UInt8
  | some true => [0x74, 0x72, 0x75, 0x65]
  | some false => [0x66, 0x61, 0x6C, 0x73, 0x65]
  | none => [0x6E, 0x75, 0x6C, 0x6C]

/-- What the first byte `b` says of its token. -/
def startsToken (b : UInt8) : TokenKind → Bool
  | .quote => b = quote
  | .comma => b = 0x2C
  | .colon => b = 0x3A
  | .opening context => b = context.openByte
  | .closing context => b = context.closeByte
  | .literal rest value => b :: rest = literalBytes value
  | .number => b = 0x2D || isDigit b
  | .other => true

theorem tokenKind_starts : ∀ b : UInt8, startsToken b (tokenKind b) = true :=
  forall_byte (by decide +kernel)

/-- A literal is told by its first byte. -/
theorem tokenKind_literal {b : UInt8} {rest : List UInt8} {value : Option Bool}
    (h : tokenKind b = .literal rest value) : b :: rest = literalBytes value := by
  have := tokenKind_starts b
  rw [h] at this
  simpa [startsToken] using this

theorem tokenKind_quote {b : UInt8} (h : tokenKind b = .quote) : b = quote := by
  have := tokenKind_starts b
  rw [h] at this
  simpa [startsToken] using this

/-- Where the first item of a container is expected. -/
def Context.first : Context → State
  | .array => .expectValue
  | .object => .expectKey

def Context.openEvent : Context → Event F
  | .array => .startArray
  | .object => .startObject

def Context.closeEvent : Context → Event F
  | .array => .endArray
  | .object => .endObject

/-! ## State -/

/-- The state of the machine. -/
structure Core where
  bomChecked : Bool
  context : List Context
  state : State
  afterComma : Bool
  seenAny : Bool
  tokenCount : Nat
  rejectDuplicateKeys : Bool
  needsWhitespace : Bool
  /-- The keys of each open object, the innermost in front. -/
  seen : List (List Text)
  inString : Bool
  stringBytes : Nat
  number : NumberState
  pos : Pos
deriving DecidableEq, Repr

/-- An event, and where the locator stands at it if it is no piece of something longer. -/
abbrev Mark (F : Type) := Event F × Option SharedLocator

namespace Core

/-- At the start of a document. -/
def start (rejectDuplicateKeys needsWhitespace : Bool) : Core where
  bomChecked := false
  context := []
  state := .expectValue
  afterComma := false
  seenAny := false
  tokenCount := 0
  rejectDuplicateKeys := rejectDuplicateKeys
  needsWhitespace := needsWhitespace
  seen := []
  inString := false
  stringBytes := 0
  number := .new
  pos := ⟨1, 1, false⟩

def locator (c : Core) : SharedLocator := ⟨c.pos.line, c.pos.column⟩

/-- `n` columns further. -/
def move (c : Core) (n : Nat) : Core := { c with pos := { c.pos with column := c.pos.column + n } }

/-- `e`, reported here. -/
def mark (c : Core) (e : Event F) : Mark F := (e, some c.locator)

/-- One more token, counted if there is a limit. -/
def count (limits : ParserLimits) (c : Core) : Core :=
  { c with
    seenAny := true
    tokenCount := if limits.maxTokenCount.isSome then c.tokenCount + 1 else c.tokenCount }

/-- A token of `n` bytes that leads to `c`, unless there are too many. `early` is put out before
they are counted, `late` after. -/
def finish (limits : ParserLimits) (n : Nat) (c : Core) (early late : List (Mark F)) :
    Verdict Core (Mark F) :=
  if exceeds limits.maxTokenCount (c.tokenCount + 1) then .fail early
  else .step n (c.count limits) (early ++ late)

/-- After a token that is no comma. -/
def goto (c : Core) (state : State) : Core := { c with afterComma := false, state := state }

/-- After a comma. -/
def comma (c : Core) : Core :=
  { c.move 1 with
    afterComma := true
    state := if c.context.head? = some .object then .expectKey else .expectValue }

/-- In a container that opens. -/
def enter (c : Core) (context : Context) : Core :=
  { (c.move 1).goto context.first with
    context := context :: c.context
    seen := if context = .object ∧ c.rejectDuplicateKeys then [] :: c.seen else c.seen }

/-- After a container that closes. -/
def leave (c : Core) (context : Context) : Core :=
  { (c.move 1).goto .afterValue with
    context := c.context.tail
    seen := if context = .object ∧ c.rejectDuplicateKeys then c.seen.tail else c.seen }

/-- In a string value that starts. -/
def beginString (c : Core) : Core :=
  { c.move 1 with inString := true, stringBytes := 0, afterComma := false }

/-- In a string value, with `n` more bytes and `columns` more columns of it read. -/
def inContent (c : Core) (n columns : Nat) : Core :=
  { c.move columns with stringBytes := c.stringBytes + n }

/-- After a string value. -/
def endString (c : Core) : Core := { c.move 1 with inString := false, state := .afterValue }

/-- In a number that starts with `b`. -/
def beginNumber (c : Core) (b : UInt8) : Core := { c with number := .start b, afterComma := false }

/-- After a number. -/
def endNumber (c : Core) : Core :=
  { c.move c.number.length with
    number := { c.number with stage := .none }
    state := .afterValue }

end Core

/-! ## Looking at the front -/

/-- What is found at the front. -/
inductive Scan where
  | need
  | bad
  | found (n : Nat)
deriving DecidableEq, Repr

/-- `EF` is there. -/
def bomUtf8 : List UInt8 → Scan
  | [] => .need
  | b2 :: l =>
    if b2 = 0xBB then
      match l with
      | [] => .need
      | b3 :: _ => if b3 = 0xBF then .found 3 else .found 0
    else .found 0

/-- `FE` is there. -/
def bomUtf16Be : List UInt8 → Scan
  | [] => .need
  | b2 :: _ => if b2 = 0xFF then .bad else .found 0

/-- `FF` is there. -/
def bomLe : List UInt8 → Scan
  | [] => .need
  | b2 :: l => if b2 = 0xFE then if l.length < 2 then .need else .bad else .found 0

/-- `00` is there. -/
def bomUtf32Be : List UInt8 → Scan
  | [] => .need
  | b2 :: l =>
    if b2 = 0x00 then
      match l with
      | b3 :: b4 :: _ => if b3 = 0xFE ∧ b4 = 0xFF then .bad else .found 0
      | _ => .need
    else .found 0

/-- The byte order mark at the front: `found 3`, or `found 0` if there is none. -/
def bomFront : List UInt8 → Scan
  | [] => .need
  | b1 :: l =>
    if b1 = 0xEF then bomUtf8 l
    else if b1 = 0xFE then bomUtf16Be l
    else if b1 = 0xFF then bomLe l
    else if b1 = 0x00 then bomUtf32Be l
    else .found 0

/-- The quote that ends a key, `i` bytes of the key being passed: `found` its length. -/
def keyFront (limit : Option Nat) : Nat → List UInt8 → Scan
  | _, [] => .need
  | i, [b] =>
    if exceeds limit i then .bad
    else if b = quote then .found i
    else if b = backslash then .need
    else if b < 0x20 then .bad
    else .need
  | i, b :: b' :: l =>
    if exceeds limit i then .bad
    else if b = quote then .found i
    else if b = backslash then keyFront limit (i + 2) l
    else if b < 0x20 then .bad
    else keyFront limit (i + 1) (b' :: l)

/-- The rest of a literal. -/
def literalFront : List UInt8 → List UInt8 → Scan
  | [], _ => .found 0
  | _ :: _, [] => .need
  | expected :: rest, b :: l => if b ≠ expected then .bad else literalFront rest l

/-! ## Steps -/

namespace Core

instance (key : Text) (keys : List Text) : Decidable (key ∈ keys) :=
  List.instDecidableMemOfLawfulBEq key keys

/-- The key is among those of its object. -/
def isDuplicate (c : Core) (key : Text) : Bool :=
  c.rejectDuplicateKeys && match c.seen with | [] => false | s :: _ => decide (key ∈ s)

/-- The key is noted, if they are. -/
def note (c : Core) (key : Text) : Core :=
  { c with
    seen := if c.rejectDuplicateKeys then
      match c.seen with | [] => [] | s :: rest => (key :: s) :: rest
      else c.seen }

/-- A key, `l` being behind its opening quote. -/
def keyStep (limits : ParserLimits) (c : Core) (l : List UInt8) : Verdict Core (Mark F) :=
  match keyFront limits.maxNameLength 0 l with
  | .need => .need
  | .bad => .fail []
  | .found n =>
    match decodeString (l.take n) with
    | none => .fail []
    | some key =>
      if c.isDuplicate key then .fail []
      else
        let c' := ((c.note key).move (2 + units (l.take n))).goto .expectColon
        finish limits (n + 2) c' [c'.mark (.key key)] []

/-- The rest `rest` of the literal for `value`, `l` being behind its first byte. -/
def literalStep (limits : ParserLimits) (c : Core) (rest l : List UInt8) (value : Option Bool) :
    Verdict Core (Mark F) :=
  match literalFront rest l with
  | .need => .need
  | .bad => .fail []
  | .found _ =>
    let c' := (c.move (1 + rest.length)).goto .afterValue
    finish limits (1 + rest.length) c' [] [c'.mark (literalEvent value)]

/-- A character of a string value. -/
def charStep (limits : ParserLimits) (c : Core) (ch : Char) (n columns : Nat) :
    Verdict Core (Mark F) :=
  if exceeds limits.maxStringLength (c.stringBytes + n) then .fail []
  else .step n (c.inContent n columns) [(.stringValueContent [ch], none)]

/-- In a string value, at the byte `b` with `l` behind it. -/
def stringStep (limits : ParserLimits) (c : Core) (b : UInt8) (l : List UInt8) :
    Verdict Core (Mark F) :=
  if b = quote then
    .step 1 c.endString [c.endString.mark .endStringValue]
  else if b = backslash then
    match resolve (b :: l) with
    | .error _ => .fail []
    | .ok none => .need
    | .ok (some (ch, n)) => c.charStep limits ch n n
  else if b < 0x20 then .fail []
  else
    match front (b :: l) with
    | .bad => .fail []
    | .char ch n => c.charStep limits ch n (utf16Size ch)
    | .need =>
      -- the bytes that are there are too many already
      if exceeds limits.maxStringLength (c.stringBytes + (b :: l).length) then .fail [] else .need

variable [Double F]

/-- In a number, at the byte `b`. -/
def numberStep (limits : ParserLimits) (c : Core) (b : UInt8) : Verdict Core (Mark F) :=
  match c.number.takeByte b with
  | .next n =>
    if exceeds limits.maxNumberLength (n.length + 1) then .fail []
    else .step 1 { c with number := n.addLength 1 } []
  | .ended => .step 0 c.endNumber [c.endNumber.mark (.numberValue c.number.value)]
  | .error _ => .fail []
  | .unreachable => .fail []

/-- The key or string value that starts here, `l` being behind its quote. -/
def quoteStep (limits : ParserLimits) (c : Core) (l : List UInt8) : Verdict Core (Mark F) :=
  match c.state with
  | .expectColon | .afterValue => .fail []
  | .expectKey => c.keyStep limits l
  | .expectValue => finish limits 1 c.beginString [c.beginString.mark .startStringValue] []

/-- A container opens. -/
def openStep (limits : ParserLimits) (c : Core) (context : Context) : Verdict Core (Mark F) :=
  if c.state ≠ .expectValue then .fail []
  else if exceeds limits.maxNestingDepth (c.context.length + 1) then .fail []
  else finish limits 1 (c.enter context) [(c.enter context).mark context.openEvent] []

/-- A container closes, where its first item might come or after one. -/
def closeStep (limits : ParserLimits) (c : Core) (context : Context) : Verdict Core (Mark F) :=
  if c.context.head? ≠ some context then .fail []
  else if c.state ≠ context.first ∧ c.state ≠ .afterValue then .fail []
  else if c.afterComma then .fail []
  else finish limits 1 (c.leave context) [(c.leave context).mark context.closeEvent] []

/-- The token that starts with the byte `b`, `l` being behind it. -/
def tokenStep (limits : ParserLimits) (c : Core) (b : UInt8) (l : List UInt8) :
    Verdict Core (Mark F) :=
  match tokenKind b with
  | .quote => c.quoteStep limits l
  | .comma =>
    if c.state ≠ .afterValue ∨ c.context = [] then .fail [] else finish limits 1 c.comma [] []
  | .colon =>
    if c.state ≠ .expectColon then .fail []
    else finish limits 1 ((c.move 1).goto .expectValue) [] []
  | .opening context => c.openStep limits context
  | .closing context => c.closeStep limits context
  | .literal rest value =>
    if c.state ≠ .expectValue then .fail [] else c.literalStep limits rest l value
  | .number =>
    if c.state ≠ .expectValue then .fail [] else finish limits 1 (c.beginNumber b) [] []
  | .other => .fail []

/-- A byte of whitespace, or a token. -/
def outerStep (limits : ParserLimits) (c : Core) (b : UInt8) (l : List UInt8) :
    Verdict Core (Mark F) :=
  match wsByte c.pos b with
  | some p =>
    .step 1 { c with pos := p }
      (if c.needsWhitespace then [(.whitespace [byteChar b], none)] else [])
  | none =>
    -- the line break before a token is over when its first byte is there
    if c.pos.afterCr then .step 0 { c with pos := { c.pos with afterCr := false } } []
    else c.tokenStep limits b l

/-- What is decided in the state `c` with `l` left. -/
def next (limits : ParserLimits) (c : Core) (l : List UInt8) : Verdict Core (Mark F) :=
  if !c.bomChecked then
    match bomFront l with
    | .need => .need
    | .bad => .fail []
    | .found n => .step n { c with bomChecked := true } []
  else
    match l with
    | [] => .need
    | b :: l =>
      if c.inString then c.stringStep limits b l
      else if c.number.stage ≠ .none then c.numberStep limits b
      else c.outerStep limits b l

/-- The end of the input in the state `c`: a number ends there if it may. `none` if the input may
not end. -/
def endInput (c : Core) : Option (Core × List (Mark F)) :=
  if c.inString then none
  else
    match c.number.stage with
    | .none => some (c, [])
    | .zero | .integer | .fraction | .exponent =>
      some (c.endNumber, [c.endNumber.mark (.numberValue c.number.value)])
    | .afterMinus | .fractionDot | .exponentMark | .exponentSign => none

/-- There was a value, and it is complete. -/
def complete (c : Core) : Bool := c.seenAny && c.context.isEmpty

/-- The end of the document with `l` left: whether it is complete, and what is put out. -/
def ending (c : Core) (l : List UInt8) : Bool × List (Mark F) :=
  if l ≠ [] then (false, [])
  else
    match c.endInput (F := F) with
    | none => (false, [])
    | some (c', out) => (c'.complete, out)

/-- The end of the input outside strings: a number that may end ends there. -/
theorem endInput_outside {c : Core} (h : c.inString = false) :
    c.endInput (F := F) = match c.number.stage with
      | .none => some (c, [])
      | .zero | .integer | .fraction | .exponent =>
        some (c.endNumber, [c.endNumber.mark (.numberValue c.number.value)])
      | .afterMinus | .fractionDot | .exponentMark | .exponentSign => none :=
  if_neg (by simp [h])

/-- At the end of a document that is read whole it is complete or not. -/
theorem ending_nil (c : Core) : c.ending (F := F) [] =
    match c.endInput (F := F) with
    | none => (false, [])
    | some (c', out) => (c'.complete, out) :=
  if_neg (by simp)

end Core

/-! ## Decisions stand -/

/-- A byte order mark is decided once and for all. -/
theorem bomFront_append {l : List UInt8} (m : List UInt8) (h : bomFront l ≠ .need) :
    bomFront (l ++ m) = bomFront l := by
  cases l with
  | nil => exact absurd rfl h
  | cons b1 l =>
    simp only [bomFront, List.cons_append] at h ⊢
    split_ifs at h ⊢ with h1 h2 h3 h4
    · match l, h with
      | [b2], h => simp only [bomUtf8, List.cons_append] at h ⊢; split_ifs at h ⊢ <;> simp_all
      | b2 :: b3 :: l, _ => rfl
    · match l, h with
      | b2 :: l, _ => rfl
    · match l, h with
      | b2 :: l, h =>
        simp only [bomLe, List.cons_append, List.length_append] at h ⊢
        split_ifs at h ⊢ <;> first | rfl | omega | simp at h
    · match l, h with
      | [b2], h =>
        simp only [bomUtf32Be, List.cons_append] at h ⊢; split_ifs at h ⊢ <;> simp_all
      | [b2, b3], h =>
        simp only [bomUtf32Be, List.cons_append] at h ⊢; split_ifs at h ⊢ <;> simp_all
      | b2 :: b3 :: b4 :: l, _ => rfl
    · rfl

/-- Only the mark of UTF-8 is skipped, and it has three bytes. -/
theorem bomFront_bound {l : List UInt8} {n : Nat} (h : bomFront l = .found n) :
    (n = 0 ∨ n = 3 ∧ [0xEF, 0xBB, 0xBF] <+: l) ∧ n ≤ l.length := by
  cases l with
  | nil => cases h
  | cons b1 l =>
    simp only [bomFront] at h
    split_ifs at h with h1 h2 h3 h4
    · match l, h with
      | [b2], h => simp only [bomUtf8] at h; split_ifs at h; cases h; simp
      | b2 :: b3 :: l, h =>
        simp only [bomUtf8] at h
        split_ifs at h with h2 h3
        · cases h; simp [h1, h2, h3]
        · cases h; simp
        · cases h; simp
    · match l, h with
      | b2 :: l, h => simp only [bomUtf16Be] at h; split_ifs at h; cases h; simp
    · match l, h with
      | b2 :: l, h => simp only [bomLe] at h; split_ifs at h; cases h; simp
    · match l, h with
      | [b2], h => simp only [bomUtf32Be] at h; split_ifs at h; cases h; simp
      | [b2, b3], h => simp only [bomUtf32Be] at h; split_ifs at h; cases h; simp
      | b2 :: b3 :: b4 :: l, h =>
        simp only [bomUtf32Be] at h; split_ifs at h <;> (cases h; simp)
    · cases h; simp

/-- Where a key ends is decided once and for all. -/
theorem keyFront_append (limit : Option Nat) : ∀ {i : Nat} {l : List UInt8} (m : List UInt8),
    keyFront limit i l ≠ .need → keyFront limit i (l ++ m) = keyFront limit i l
  | _, [], _, h => absurd rfl h
  | i, [b], m, h => by
    cases m with
    | nil => rfl
    | cons b' m =>
      simp only [keyFront, List.cons_append, List.nil_append] at h ⊢
      split_ifs at h ⊢ <;> first | rfl | exact absurd rfl h
  | i, b :: b' :: l, m, h => by
    simp only [keyFront, List.cons_append] at h ⊢
    split_ifs at h ⊢
    · rfl
    · rfl
    · exact keyFront_append limit m h
    · rfl
    · exact keyFront_append limit m h

/-- A key ends at its first unescaped quote, and is not too long. -/
theorem keyFront_found (limit : Option Nat) : ∀ {i n : Nat} {l : List UInt8},
    keyFront limit i l = .found n →
      ∃ k, n = i + k ∧ rawLength l = some k ∧ exceeds limit n = false
  | i, n, [b], h => by
    simp only [keyFront] at h
    split_ifs at h with h1 h2
    cases h
    exact ⟨0, rfl, by simp [rawLength, h2], by simpa using h1⟩
  | i, n, b :: b' :: l, h => by
    simp only [keyFront] at h
    split_ifs at h with h1 h2 h3 h4
    · cases h
      exact ⟨0, rfl, by simp [rawLength, h2], by simpa using h1⟩
    · obtain ⟨k, rfl, hk, he⟩ := keyFront_found limit h
      refine ⟨k + 2, by omega, ?_, he⟩
      rw [h3, rawLength_backslash, hk]
      rfl
    · obtain ⟨k, rfl, hk, he⟩ := keyFront_found limit h
      refine ⟨k + 1, by omega, ?_, he⟩
      rw [rawLength_cons_plain h2 h3, hk]
      rfl

/-- A key that is found is scanned to its end. -/
theorem keyFront_scanned (limit : Option Nat) : ∀ {i k : Nat} {l : List UInt8},
    keyFront limit i l = .found (i + k) → Scanned (l.take k)
  | i, k, [b], h => by
    simp only [keyFront] at h
    split_ifs at h
    have : k = 0 := by injection h; omega
    subst this
    trivial
  | i, k, b :: b' :: l, h => by
    simp only [keyFront] at h
    split_ifs at h with h1 h2 h3 h4
    · have : k = 0 := by injection h; omega
      subst this
      trivial
    · obtain ⟨j, hj, -, -⟩ := keyFront_found limit h
      obtain rfl : k = j + 2 := by omega
      have := keyFront_scanned limit (k := j) (by rw [h, hj])
      simp only [List.take_succ_cons, Scanned, h3, if_true]
      exact this
    · obtain ⟨j, hj, -, -⟩ := keyFront_found limit h
      obtain rfl : k = j + 1 := by omega
      have := keyFront_scanned limit (k := j) (by rw [h, hj])
      rw [List.take_succ_cons, scanned_cons (not_isDelimiter.mpr ⟨h2, h3, h4⟩)]
      exact this

/-- So is a literal, at the first byte that is wrong. -/
theorem literalFront_append : ∀ {rest l : List UInt8} (m : List UInt8),
    literalFront rest l ≠ .need → literalFront rest (l ++ m) = literalFront rest l
  | [], _, _, _ => by simp [literalFront]
  | _ :: _, [], _, h => absurd rfl h
  | e :: rest, b :: l, m, h => by
    simp only [literalFront, List.cons_append] at h ⊢
    split_ifs at h ⊢
    · rfl
    · exact literalFront_append m h

/-- A literal that is found is there. -/
theorem literalFront_found : ∀ {rest l : List UInt8} {n : Nat},
    literalFront rest l = .found n → rest <+: l
  | [], _, _, _ => List.nil_prefix
  | e :: rest, b :: l, n, h => by
    simp only [literalFront] at h
    split_ifs at h with hb
    rw [not_not] at hb
    rw [hb, List.prefix_cons_inj]
    exact literalFront_found h

namespace Core

variable {limits : ParserLimits} {c c' : Core} {b : UInt8} {l : List UInt8} {n : Nat}
  {out early late : List (Mark F)}

/-- The end of a token is a step where the number of tokens is within its limit. -/
theorem finish_eq_step (h : finish limits n c early late = .step k c' out) :
    k = n ∧ c' = c.count limits ∧ out = early ++ late ∧
      exceeds limits.maxTokenCount (c.tokenCount + 1) = false := by
  unfold finish at h
  split at h
  · cases h
  · next hc => cases h; exact ⟨rfl, rfl, rfl, by simpa using hc⟩

/-- And the other way round. -/
theorem finish_of_not_exceeds (h : exceeds limits.maxTokenCount (c.tokenCount + 1) = false) :
    finish limits n c early late = .step n (c.count limits) (early ++ late) := by
  simp [finish, h]

/-- A key is not read differently for what comes after it. -/
theorem keyStep_append (m : List UInt8) (h : c.keyStep (F := F) limits l ≠ .need) :
    c.keyStep (F := F) limits (l ++ m) = c.keyStep limits l := by
  unfold keyStep at h ⊢
  by_cases hk : keyFront limits.maxNameLength 0 l = .need
  · rw [hk] at h; exact absurd rfl h
  · rw [keyFront_append _ m hk]
    cases hf : keyFront limits.maxNameLength 0 l with
    | need => exact absurd hf hk
    | bad => rfl
    | found k =>
      obtain ⟨_, rfl, hr, _⟩ := keyFront_found _ hf
      obtain ⟨_, _, hlt⟩ := rawLength_spec hr
      simp only
      rw [List.take_append_of_le_length (by omega)]

/-- A step takes no more than there is. -/
theorem keyStep_bound (h : c.keyStep limits l = .step n c' out) : n ≤ l.length + 1 := by
  unfold keyStep at h
  split at h
  · cases h
  · cases h
  · next k hf =>
    obtain ⟨_, rfl, hr, _⟩ := keyFront_found _ hf
    obtain ⟨_, _, hlt⟩ := rawLength_spec hr
    split at h
    · cases h
    · split at h
      · cases h
      · have := (finish_eq_step h).1
        omega

theorem literalStep_append (m : List UInt8) {rest : List UInt8} {value : Option Bool}
    (h : c.literalStep (F := F) limits rest l value ≠ .need) :
    c.literalStep (F := F) limits rest (l ++ m) value = c.literalStep limits rest l value := by
  unfold literalStep at h ⊢
  by_cases hk : literalFront rest l = .need
  · rw [hk] at h; exact absurd rfl h
  · rw [literalFront_append m hk]

theorem literalStep_bound {rest : List UInt8} {value : Option Bool}
    (h : c.literalStep limits rest l value = .step n c' out) : n ≤ l.length + 1 := by
  unfold literalStep at h
  split at h
  · cases h
  · cases h
  · next hf =>
    have := (literalFront_found hf).length_le
    have := (finish_eq_step h).1
    omega

/-- Nor is what a string value goes on with. -/
theorem stringStep_append (m : List UInt8) (h : c.stringStep (F := F) limits b l ≠ .need) :
    c.stringStep (F := F) limits b (l ++ m) = c.stringStep limits b l := by
  unfold stringStep at h ⊢
  split
  · rfl
  · next hq =>
    rw [if_neg hq] at h
    split
    · next hs =>
      rw [if_pos hs] at h
      by_cases hr : resolve (b :: l) = .ok none
      · rw [hr] at h; exact absurd rfl h
      · rw [← List.cons_append, resolve_append m hr]
    · next hs =>
      rw [if_neg hs] at h
      split
      · rfl
      · next hc =>
        rw [if_neg hc] at h
        rw [← List.cons_append]
        by_cases hf : front (b :: l) = .need
        · -- too long already, and so is the whole character
          rw [hf] at h
          simp only at h
          by_cases he : exceeds limits.maxStringLength (c.stringBytes + (b :: l).length) = true
          · rw [hf]
            simp only [he, if_true]
            cases hf' : front (b :: l ++ m) with
            | bad => rfl
            | need =>
              simp only
              rw [if_pos (exceeds_mono he (by simp))]
            | char ch k =>
              obtain hnil | hcut := front_eq_need hf
              · cases hnil
              · have hlt : (b :: l).length ≤ k := by
                  obtain ⟨_, _, heq, _, hlt, _⟩ := hcut
                  cases heq
                  rw [List.cons_append] at hf'
                  rw [front_char_width hf']
                  omega
                simp only [charStep]
                rw [if_pos (exceeds_mono he (by omega))]
          · rw [if_neg he] at h; exact absurd rfl h
        · rw [front_append m hf]
          cases hf' : front (b :: l) with
          | need => exact absurd hf' hf
          | _ => rfl

theorem stringStep_bound (h : c.stringStep limits b l = .step n c' out) : n ≤ l.length + 1 := by
  unfold stringStep at h
  split at h
  · cases h; omega
  · split at h
    · split at h
      · cases h
      · cases h
      · next hr =>
        unfold charStep at h
        split at h
        · cases h
        · cases h
          exact (resolve_length hr).2.2
    · split at h
      · cases h
      · split at h
        · cases h
        · next hf =>
          unfold charStep at h
          split at h
          · cases h
          · cases h
            exact (front_char_le hf).2.2
        · split at h <;> cases h

theorem quoteStep_append (m : List UInt8) (h : c.quoteStep (F := F) limits l ≠ .need) :
    c.quoteStep (F := F) limits (l ++ m) = c.quoteStep limits l := by
  unfold quoteStep at h ⊢
  cases hs : c.state with
  | expectKey => rw [hs] at h; exact keyStep_append m h
  | _ => rfl

theorem quoteStep_bound (h : c.quoteStep limits l = .step n c' out) : n ≤ l.length + 1 := by
  unfold quoteStep at h
  split at h
  · cases h
  · cases h
  · exact keyStep_bound h
  · have := (finish_eq_step h).1
    omega

theorem openStep_bound {context : Context}
    (h : c.openStep limits context = .step n c' out) : n = 1 := by
  unfold openStep at h
  split_ifs at h
  exact (finish_eq_step h).1

theorem closeStep_bound {context : Context}
    (h : c.closeStep limits context = .step n c' out) : n = 1 := by
  unfold closeStep at h
  split_ifs at h
  exact (finish_eq_step h).1

/-- Nor is a token. -/
theorem tokenStep_append (m : List UInt8) (h : c.tokenStep (F := F) limits b l ≠ .need) :
    c.tokenStep (F := F) limits b (l ++ m) = c.tokenStep limits b l := by
  unfold tokenStep at h ⊢
  cases hk : tokenKind b with
  | quote => rw [hk] at h; exact quoteStep_append m h
  | literal rest value =>
    rw [hk] at h
    simp only at h ⊢
    split
    · rfl
    · next hs => rw [if_neg hs] at h; exact literalStep_append m h
  | _ => rfl

theorem tokenStep_bound (h : c.tokenStep limits b l = .step n c' out) : n ≤ l.length + 1 := by
  unfold tokenStep at h
  cases hk : tokenKind b with
  | quote => rw [hk] at h; exact quoteStep_bound h
  | opening context => rw [hk] at h; have := openStep_bound h; omega
  | closing context => rw [hk] at h; have := closeStep_bound h; omega
  | literal rest value =>
    rw [hk] at h
    simp only at h
    split at h
    · cases h
    · exact literalStep_bound h
  | other => rw [hk] at h; cases h
  | _ =>
    rw [hk] at h
    simp only at h
    split at h
    · cases h
    · have := (finish_eq_step h).1; omega

/-- Nor is anything outside strings and numbers. -/
theorem outerStep_append (m : List UInt8) (h : c.outerStep (F := F) limits b l ≠ .need) :
    c.outerStep (F := F) limits b (l ++ m) = c.outerStep limits b l := by
  unfold outerStep at h ⊢
  split
  · rfl
  · next hw =>
    rw [hw] at h
    simp only at h
    split
    · rfl
    · next hcr => rw [if_neg hcr] at h; exact tokenStep_append m h

theorem outerStep_bound (h : c.outerStep limits b l = .step n c' out) : n ≤ l.length + 1 := by
  unfold outerStep at h
  split at h
  · cases h; omega
  · split at h
    · cases h; omega
    · exact tokenStep_bound h

variable [Double F]

theorem numberStep_bound (h : c.numberStep limits b = .step n c' out) : n ≤ 1 := by
  unfold numberStep at h
  split at h
  · split at h
    · cases h
    · cases h; omega
  · cases h; omega
  · cases h
  · cases h

/-- **The machine is incremental**: what it does next does not depend on what comes later, once it
does anything. -/
theorem next_append (m : List UInt8) (h : c.next (F := F) limits l ≠ .need) :
    c.next (F := F) limits (l ++ m) = c.next limits l := by
  unfold next at h ⊢
  split
  · next hb =>
    rw [if_pos hb] at h
    by_cases hf : bomFront l = .need
    · rw [hf] at h; exact absurd rfl h
    · rw [bomFront_append m hf]
  · next hb =>
    rw [if_neg hb] at h
    cases l with
    | nil => exact absurd rfl h
    | cons b l =>
      simp only [List.cons_append] at h ⊢
      split
      · next hs => rw [if_pos hs] at h; exact stringStep_append m h
      · next hs =>
        rw [if_neg hs] at h
        split
        · rfl
        · next hn => rw [if_neg hn] at h; exact outerStep_append m h

/-- **A step takes no more than there is.** -/
theorem next_bound (h : c.next limits l = .step n c' out) : n ≤ l.length := by
  unfold next at h
  split at h
  · split at h
    · cases h
    · cases h
    · next hf => cases h; exact (bomFront_bound hf).2
  · cases l with
    | nil => cases h
    | cons b l =>
      simp only at h
      rw [List.length_cons]
      split at h
      · exact stringStep_bound h
      · split at h
        · have := numberStep_bound h; omega
        · exact outerStep_bound h

end Core

/-- **The reference machine.** -/
def machine (F : Type) [Double F] (limits : ParserLimits) :
    Infra.Machine UInt8 Core (Mark F) where
  next := Core.next limits
  bound := Core.next_bound
  next_append := Core.next_append

section

variable [Double F] {limits : ParserLimits} {c c' : Core} {l : List UInt8} {n : Nat}
  {out : List (Mark F)}

/-- One step is a run. -/
theorem steps_of_next (h : c.next limits l = .step n c' out) :
    (machine F limits).Steps c l out c' (l.drop n) := .one h

theorem fails_of_next (h : c.next limits l = .fail out) : (machine F limits).Fails c l out :=
  .of_next h

end

end RJsonParser
