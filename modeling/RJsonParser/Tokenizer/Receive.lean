import RJsonParser.Tokenizer.Key

/-!
# Tokens

The rest of `src/tokenizer.rs`: whitespace, numbers and literals, `process_token` with one
definition for each arm of its match, `receive` and `end_of_input`.
-/

namespace RJsonParser

open Infra

variable {F : Type}

/-! ## Whitespace -/

/-- The `line`, `column` and `after_cr` of `process_whitespace`. -/
structure Pos where
  line : Nat
  column : Nat
  afterCr : Bool
deriving DecidableEq, Repr

/-- The match of `process_whitespace`, `none` where it breaks. -/
def wsByte (l : Pos) (b : UInt8) : Option Pos :=
  if b = 0x0A then some ⟨if l.afterCr then l.line else l.line + 1, 1, false⟩
  else if b = 0x0D then some ⟨l.line + 1, 1, true⟩
  else if b = 0x20 ∨ b = 0x09 then some ⟨l.line, l.column + 1, false⟩
  else none

/-- The first loop of `process_whitespace`: where the run ends. -/
def wsLoop (input : Spans) : Nat → Nat → Pos → Except Stop (Nat × Pos)
  | 0, _, _ => .error .outOfFuel
  | fuel + 1, p, l =>
    if p < input.len then do
      let b ← input.get p
      match wsByte l b with
      | some l' => wsLoop input fuel (p + 1) l'
      | none => .ok (p, l)
    else .ok (p, l)

/-- The second loop of `process_whitespace`: one call for each span of the run. -/
def wsCalls (h : Handler F) (input : Spans) (stop : Nat) : Nat → Nat → TokM F Unit
  | 0, _ => throw .outOfFuel
  | fuel + 1, q =>
    if q < stop then do
      let span := input.spanFrom q
      let n := min span.length (stop - q)
      match fromUtf8 (span.take n) with
      | .ok ws => do
        callback h (.whitespace ws)
        wsCalls h input stop fuel (q + n)
      | .error _ => throw .panic
    else pure ()

/-- Reports the run from `start` to `stop` if the handler wants whitespace. -/
def reportWhitespace (env : Env F) (start stop : Nat) : TokM F Unit := do
  let w ← get
  if w.tok.needsWhitespace then wsCalls env.handler env.input stop (stop - start + 1) start
  else pure ()

/-- `process_whitespace`. -/
def processWhitespace (env : Env F) : TokM F Unit := do
  let w ← get
  let start := w.consumed
  let (p, l) ← ofExcept (wsLoop env.input (env.input.len - start + 1) start
    ⟨w.locator.line, w.locator.column, w.tok.afterCr⟩)
  modify fun w =>
    { w with
      locator := ⟨l.line, l.column⟩
      tok := { w.tok with afterCr := l.afterCr }
      consumed := p }
  reportWhitespace env start p

/-! ## Numbers -/

variable [Double F]

/-- `emit_number`. -/
def emitNumber (h : Handler F) : TokM F Unit := do
  let w ← get
  let number := w.tok.number.value
  modifyTok fun t =>
    { t with number := { t.number with stage := .none }, state := .afterValue }
  addColumn w.tok.number.length
  callback h (.numberValue number)

/-- `too_long` of `continue_number`. -/
def numberTooLong (limit : Nat) : String := s!"Maximum number length exceeded: {limit}"

/-- The state `n` of the number after the bytes up to `p`. -/
def setNumber (env : Env F) (n : NumberState) (p : Nat) : TokM F Unit := do
  modifyTok fun t => { t with number := n }
  setConsumed p
  checkLimit env.limits.maxNumberLength n.length numberTooLong

/-- The digits that `continue_number` takes at once, if any: whether there is input after them. -/
def takeDigits (env : Env F) : TokM F Bool := do
  let w ← get
  let n := w.tok.number
  if !n.mantissaFull && (n.stage == .integer || n.stage == .fraction) then
    let (n', taken) := n.takeDigitRun (env.input.spanFrom w.consumed)
    if 0 < taken then do
      setNumber env n' (w.consumed + taken)
      pure (decide (w.consumed + taken < env.input.len))
    else pure true
  else pure true

/-- The loop of `continue_number`. -/
def continueNumberLoop (env : Env F) : Nat → TokM F Bool
  | 0 => throw .outOfFuel
  | fuel + 1 => do
    let w ← get
    if w.consumed < env.input.len then do
      if ← takeDigits env then do
        let w ← get
        let b ← ofExcept (env.input.get w.consumed)
        match w.tok.number.takeByte b with
        | .next n => do
          setNumber env (n.addLength 1) (w.consumed + 1)
          continueNumberLoop env fuel
        | .ended => do
          emitNumber env.handler
          pure true
        | .error message => throw (.err message)
        | .unreachable => throw .panic
      else pure false
    else pure false

/-- `continue_number`: whether the number ended. -/
def continueNumber (env : Env F) : TokM F Bool := do
  let w ← get
  continueNumberLoop env (env.input.len - w.consumed + 1)

/-! ## Literals -/

/-- The loop of `process_literal`: the bytes that are there are the expected ones. -/
def checkLiteral (input : Spans) : Nat → List UInt8 → Except Stop Unit
  | _, [] => .ok ()
  | i, expected :: rest =>
    if i < input.len then do
      let b ← input.get i
      if b ≠ expected then .error (.err "Invalid literal") else checkLiteral input (i + 1) rest
    else .ok ()

/-- What `token_done` is followed by for every token that sets the state. -/
def tokenTo (limits : ParserLimits) (state : State) : TokM F Unit := do
  tokenDone limits
  modifyTok fun t => { t with afterComma := false, state := state }

/-- The callback of a literal. -/
def literalEvent : Option Bool → Event F
  | some v => .booleanValue v
  | none => .nullValue

/-- `process_literal`. -/
def processLiteral (env : Env F) (rest : List UInt8) (value : Option Bool) : TokM F Bool := do
  let w ← get
  let first := w.consumed + 1
  if env.input.len < first then throw .panic
  else do
    ofExcept (checkLiteral env.input first rest)
    if env.input.len - first < rest.length then pure false
    else do
      setConsumed (first + rest.length)
      addColumn (1 + rest.length)
      tokenTo env.limits .afterValue
      callback env.handler (literalEvent value)
      pure true

/-! ## `process_token` -/

/-- Consumes the one byte of a token. -/
def takeOne : TokM F Unit := do
  let w ← get
  setConsumed (w.consumed + 1)
  addColumn 1

/-- The start of a string value. -/
def startString (env : Env F) : TokM F Unit := do
  takeOne
  ensureChars
  clearChars
  callback env.handler .startStringValue
  modifyTok fun t => { t with inString := true, stringBytes := 0 }
  tokenDone env.limits
  modifyTok fun t => { t with afterComma := false }

/-- The arm of `"`. -/
def processQuote (env : Env F) : KeyM F Bool := do
  let s ← get
  if s.1.tok.state = .expectColon ∨ s.1.tok.state = .afterValue then
    throw (.err "Unexpected string")
  else if s.1.tok.state = .expectKey then do
    if ← processKey env then do
      zoom (tokenTo env.limits .expectColon)
      pure true
    else pure false
  else do
    zoom (startString env)
    pure true

/-- The arm of `,`. -/
def processComma (env : Env F) : TokM F Unit := do
  let w ← get
  if w.tok.state ≠ .afterValue then throw (.err "Unexpected ','")
  else if w.tok.contextStack = [] then throw (.err "Unexpected comma at root level")
  else do
    takeOne
    tokenDone env.limits
    modifyTok fun t =>
      { t with
        afterComma := true
        state := if t.contextStack.head? = some .object then .expectKey else .expectValue }

/-- The arm of `:`. -/
def processColon (env : Env F) : TokM F Unit := do
  let w ← get
  if w.tok.state ≠ .expectColon then throw (.err "Unexpected ':'")
  else do
    takeOne
    tokenTo env.limits .expectValue

/-- The arm of `{`. -/
def processOpenObject (env : Env F) : TokM F Unit := do
  let w ← get
  if w.tok.state ≠ .expectValue then throw (.err "Unexpected '\x7b'")
  else do
    checkDepth env.limits
    takeOne
    callback env.handler .startObject
    modifyTok fun t =>
      { t with
        contextStack := .object :: t.contextStack
        depthStack := .startObject :: t.depthStack
        duplicateKeyStack :=
          if t.rejectDuplicateKeys then [] :: t.duplicateKeyStack else t.duplicateKeyStack }
    tokenTo env.limits .expectKey

/-- The arm of `}`. -/
def processCloseObject (env : Env F) : TokM F Unit := do
  let w ← get
  if w.tok.contextStack.head? ≠ some .object then throw (.err "Unexpected '\x7d'")
  else if w.tok.state ≠ .expectKey ∧ w.tok.state ≠ .afterValue then
    throw (.err "Unexpected '\x7d'")
  else if w.tok.afterComma then throw (.err "Trailing comma before '\x7d'")
  else do
    takeOne
    callback env.handler .endObject
    modifyTok fun t =>
      { t with
        contextStack := t.contextStack.tail
        depthStack := t.depthStack.tail
        duplicateKeyStack :=
          if t.rejectDuplicateKeys then t.duplicateKeyStack.tail else t.duplicateKeyStack }
    tokenTo env.limits .afterValue

/-- The arm of `[`. -/
def processOpenArray (env : Env F) : TokM F Unit := do
  let w ← get
  if w.tok.state ≠ .expectValue then throw (.err "Unexpected '['")
  else do
    checkDepth env.limits
    takeOne
    callback env.handler .startArray
    modifyTok fun t =>
      { t with
        contextStack := .array :: t.contextStack
        depthStack := .startArray :: t.depthStack }
    tokenTo env.limits .expectValue

/-- The arm of `]`. -/
def processCloseArray (env : Env F) : TokM F Unit := do
  let w ← get
  if w.tok.contextStack.head? ≠ some .array then throw (.err "Unexpected ']'")
  else if w.tok.state ≠ .expectValue ∧ w.tok.state ≠ .afterValue then
    throw (.err "Unexpected ']'")
  else if w.tok.afterComma then throw (.err "Trailing comma before ']'")
  else do
    takeOne
    callback env.handler .endArray
    modifyTok fun t =>
      { t with contextStack := t.contextStack.tail, depthStack := t.depthStack.tail }
    tokenTo env.limits .afterValue

/-- The arms of `t`, `f` and `n`, which differ in the literal they name. -/
def processLiteralArm (env : Env F) (name : String) (rest : List UInt8) (value : Option Bool) :
    TokM F Bool := do
  let w ← get
  if w.tok.state ≠ .expectValue then throw (.err s!"Unexpected '{name}'")
  else processLiteral env rest value

/-- The arm of `-` and the digits. -/
def processNumber (env : Env F) (b : UInt8) : TokM F Unit := do
  let w ← get
  if w.tok.state ≠ .expectValue then throw (.err "Unexpected number")
  else do
    modifyTok fun t => { t with number := .start b }
    setConsumed (w.consumed + 1)
    tokenDone env.limits
    modifyTok fun t => { t with afterComma := false }

/-- An arm that consumes its token whole. -/
def always (m : TokM F Unit) : KeyM F Bool := do
  zoom m
  pure true

/-- `process_token`: whether the token was complete. -/
def processToken (env : Env F) (b : UInt8) : KeyM F Bool :=
  if b = quote then processQuote env
  else if b = 0x2C then always (processComma env)
  else if b = 0x3A then always (processColon env)
  else if b = 0x7B then always (processOpenObject env)
  else if b = 0x7D then always (processCloseObject env)
  else if b = 0x5B then always (processOpenArray env)
  else if b = 0x5D then always (processCloseArray env)
  else if b = 0x74 then zoom (processLiteralArm env "true" [0x72, 0x75, 0x65] (some true))
  else if b = 0x66 then zoom (processLiteralArm env "false" [0x61, 0x6C, 0x73, 0x65] (some false))
  else if b = 0x6E then zoom (processLiteralArm env "null" [0x75, 0x6C, 0x6C] none)
  else if b = 0x2D ∨ isDigit b then always (processNumber env b)
  else throw (.err s!"Unexpected character: {byteChar b}")

/-! ## `receive` -/

/-- One iteration of the loop of `receive` where there is input: whether the loop goes on. -/
def receiveStep (env : Env F) : KeyM F Bool := do
  let s ← get
  if s.1.tok.inString then zoom (continueString env)
  else if s.1.tok.number.stage ≠ .none then zoom (continueNumber env)
  else do
    let b ← ofExcept (env.input.get s.1.consumed)
    if b = 0x20 ∨ b = 0x0A ∨ b = 0x09 ∨ b = 0x0D then do
      zoom (processWhitespace env)
      pure true
    else do
      zoom (modifyTok fun t => { t with afterCr := false })
      processToken env b

/-- The loop of `receive`. -/
def receiveLoop (env : Env F) : Nat → KeyM F Unit
  | 0 => throw .outOfFuel
  | fuel + 1 => do
    let s ← get
    if s.1.consumed < env.input.len then do
      if ← receiveStep env then receiveLoop env fuel else pure ()
    else pure ()

/-- `receive`. Of two iterations that go on, one at least consumes a byte: only the end of a
number consumes none, and there is no number after it. -/
def receive (env : Env F) : KeyM F Unit := do
  let s ← get
  receiveLoop env (2 * (env.input.len - s.1.consumed) + 2)

/-- `end_of_input`. -/
def endOfInput (h : Handler F) : TokM F Unit := do
  let w ← get
  if w.tok.inString then throw (.err "Unclosed string")
  else
    match w.tok.number.stage with
    | .none => pure ()
    | .afterMinus => throw (.err "Invalid number: just '-'")
    | .fractionDot => throw (.err "Decimal point must be followed by digit")
    | .exponentMark => throw (.err "Incomplete exponent")
    | .exponentSign => throw (.err "Exponent must have digit")
    | .zero | .integer | .fraction | .exponent => emitNumber h

end RJsonParser
