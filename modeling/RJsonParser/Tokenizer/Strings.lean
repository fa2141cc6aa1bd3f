import RJsonParser.Tokenizer.Scan

/-!
# String values

`decode_run` and `continue_string`: the content of a string value goes through the character
buffer to the handler as it arrives.

A loop of the source is given a number of iterations here. It never needs more: that a loop does
not end with `Stop.outOfFuel` is part of its specification.
-/

namespace RJsonParser

open Infra Infra.Utf8

variable {F : Type}

/-- A limit on a length, `message` telling the limit that is exceeded. -/
def checkLimit (limit : Option Nat) (n : Nat) (message : Nat → String) : TokM F Unit :=
  match limit with
  | none => pure ()
  | some max => if max < n then throw (.err (message max)) else pure ()

/-- `string_too_long`. -/
def stringTooLong (limit : Nat) : String := s!"Maximum string length exceeded: {limit}"

/-- Makes room if fewer than `n` bytes are free in the character buffer. -/
def ensureFree (h : Option (Handler F)) (n : Nat) : TokM F Unit := do
  let room ← free
  if room < n then makeRoom h else pure ()

/-- `low_water` of `decode_run`: a content call of a few bytes is not worth making. -/
def lowWater (h : Option (Handler F)) : Nat := if h.isSome then minDecodeRoom else 1

/-- Pushes the valid prefix of a slice that is not valid as a whole, and returns its units. -/
def pushValid (slice : List UInt8) (e : Utf8Error) : TokM F Nat :=
  if 0 < e.validUpTo then
    match fromUtf8 (slice.take e.validUpTo) with
    | .ok s => do
      pushStr s
      pure (utf16Len s)
    | .error _ => throw .panic
  else pure 0

/-- An iteration of the loop of `decode_run`, at `p` with `units` written: whether the loop goes on,
its position and its units. -/
def decodeRunStep (h : Option (Handler F)) (input : Spans) (stop p units : Nat) :
    TokM F (Bool × Nat × Nat) := do
  ensureFree h (lowWater h)
  let room ← free
  let span := input.spanFrom p
  let take := min (min span.length (stop - p)) room
  let slice := span.take take
  match fromUtf8 slice with
  | .ok s => do
    pushStr s
    pure (true, p + take, units + utf16Len s)
  | .error e => do
    let valid ← pushValid slice e
    if e.invalid then throw malformedUtf8
    else do
      match ← ofExcept (decodeCharAt input (p + e.validUpTo)) with
      | some (ch, n) => do
        ensureFree h ch.utf8Size
        pushStr [ch]
        pure (true, p + e.validUpTo + n, units + valid + utf16Size ch)
      | none => pure (false, p + e.validUpTo, units + valid)

/-- The loop of `decode_run`. -/
def decodeRunLoop (h : Option (Handler F)) (input : Spans) (stop : Nat) :
    Nat → Nat → Nat → TokM F (Nat × Nat)
  | 0, _, _ => throw .outOfFuel
  | fuel + 1, p, units =>
    if p < stop then do
      let (more, p, units) ← decodeRunStep h input stop p units
      if more then decodeRunLoop h input stop fuel p units else pure (p, units)
    else pure (p, units)

/-- `decode_run`: the position reached and the UTF-16 units written. -/
def decodeRun (h : Option (Handler F)) (input : Spans) (start stop : Nat) : TokM F (Nat × Nat) :=
  decodeRunLoop h input stop (stop - start + 1) start 0

/-- Decodes and delivers the plain run from `runStart` to `runEnd`. Returns whether its last
character is cut off by the end of the input. -/
def deliverRun (env : Env F) (runStart runEnd : Nat) : TokM F Bool :=
  if runStart < runEnd then do
    let w ← get
    checkLimit env.limits.maxStringLength (w.tok.stringBytes + (runEnd - runStart)) stringTooLong
    let (next, units) ← decodeRun (some env.handler) env.input runStart runEnd
    modifyTok fun t => { t with stringBytes := t.stringBytes + (next - runStart) }
    addColumn units
    setConsumed next
    if next < runEnd then do
      flushChars env.handler
      pure true
    else pure false
  else pure false

/-- The closing quote, at `runEnd`. -/
def endString (env : Env F) (runEnd : Nat) : TokM F Unit := do
  flushChars env.handler
  setConsumed (runEnd + 1)
  addColumn 1
  modifyTok fun t => { t with inString := false, state := .afterValue }
  callback env.handler .endStringValue

/-- The character `ch` of an escape sequence of `n` bytes, at `runEnd`. -/
def pushEscape (env : Env F) (runEnd : Nat) (ch : Char) (n : Nat) : TokM F Unit := do
  ensureFree (some env.handler) ch.utf8Size
  pushStr [ch]
  setConsumed (runEnd + n)
  modifyTok fun t => { t with stringBytes := t.stringBytes + n }
  addColumn n
  let w ← get
  checkLimit env.limits.maxStringLength w.tok.stringBytes stringTooLong

/-- The loop of `continue_string`. -/
def continueStringLoop (env : Env F) : Nat → TokM F Bool
  | 0 => throw .outOfFuel
  | fuel + 1 => do
    let w ← get
    let total := env.input.len
    let runEnd ← ofExcept (scanPlain env.input w.consumed total)
    let cut ← deliverRun env w.consumed runEnd
    if cut then pure false
    else if runEnd = total then do
      flushChars env.handler
      pure false
    else do
      let b ← ofExcept (env.input.get runEnd)
      if b = quote then do
        endString env runEnd
        pure true
      else if b ≠ backslash then throw (.err "Unescaped control character in string")
      else
        match ← ofExcept (resolveEscape env.input runEnd) with
        | none => do
          flushChars env.handler
          pure false
        | some (ch, n) => do
          pushEscape env runEnd ch n
          continueStringLoop env fuel

/-- `continue_string`: whether the closing quote was consumed. -/
def continueString (env : Env F) : TokM F Bool := do
  ensureChars
  let w ← get
  continueStringLoop env (env.input.len - w.consumed + 1)

end RJsonParser
