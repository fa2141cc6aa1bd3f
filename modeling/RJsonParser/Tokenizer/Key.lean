import RJsonParser.Keys
import RJsonParser.Tokenizer.Strings

/-!
# Object keys

`process_key` and what it calls. A key must be complete in the input; short keys without escapes
are interned.
-/

namespace RJsonParser

open Infra Infra.Utf8

variable {F : Type}

/-- `KEY_INTERN_DISABLE_THRESHOLD`. -/
def keyInternDisableThreshold : Nat := 64

/-- The key symbol table with the tokenizer's `key_intern_*` fields. -/
structure Interner where
  table : KeySymbolTable
  attempts : Nat
  hits : Nat
  disabled : Bool
deriving DecidableEq, Repr

/-- The fields of a new tokenizer over a table that may have entries. -/
def Interner.start (table : KeySymbolTable) : Interner := ⟨table, 0, 0, false⟩

/-- A method of `Tokenizer` that is passed the key symbol table. -/
abbrev KeyM (F : Type) := EStateM Stop (World F × Interner)

def modifyInterner (f : Interner → Interner) : KeyM F Unit := modify fun s => (s.1, f s.2)

/-! ## Finding the end of a key -/

/-- The scan loop of `process_key`: the index of the closing quote and whether there is an escape
sequence before it, or `none` if more data is needed. -/
def scanKeyLoop (input : Spans) (limit : Option Nat) (start : Nat) :
    Nat → Nat → Bool → Except Stop (Option (Nat × Bool))
  | 0, _, _ => .error .outOfFuel
  | fuel + 1, i, hasEscape =>
    if input.len ≤ i then .ok none
    else if exceeds limit (i - start) then
      .error (.err s!"Maximum key length exceeded: {limit.getD 0}")
    else do
      let b ← input.get i
      if b = quote then .ok (some (i, hasEscape))
      else if b = backslash then scanKeyLoop input limit start fuel (i + 2) true
      else if b < 0x20 then .error (.err "Unescaped control character in string")
      else scanKeyLoop input limit start fuel (i + 1) hasEscape

def scanKey (input : Spans) (limit : Option Nat) (start : Nat) :
    Except Stop (Option (Nat × Bool)) :=
  scanKeyLoop input limit start (input.len - start + 1) start false

/-! ## Decoding a key -/

/-- The plain bytes of a key from `p` to `runEnd`: the position after them and their units. -/
def decodeKeyRun (input : Spans) (p runEnd : Nat) : TokM F (Nat × Nat) :=
  if p < runEnd then do
    let (next, units) ← decodeRun none input p runEnd
    if next < runEnd then throw malformedUtf8 else pure (next, units)
  else pure (p, 0)

/-- The loop of `decode_key`. -/
def decodeKeyLoop (input : Spans) (stop : Nat) : Nat → Nat → Nat → TokM F Nat
  | 0, _, _ => throw .outOfFuel
  | fuel + 1, p, srcUnits =>
    if p < stop then do
      let runEnd ← ofExcept (scanPlain input p stop)
      let (next, units) ← decodeKeyRun input p runEnd
      if stop ≤ next then pure (srcUnits + units)
      else
        match ← ofExcept (resolveEscape input next) with
        | none => throw (.err "Incomplete escape sequence in key")
        | some (ch, n) => do
          -- with no handler to flush to, no room is the error that the key is too long
          ensureFree none ch.utf8Size
          pushStr [ch]
          decodeKeyLoop input stop fuel (next + n) (srcUnits + units + n)
    else pure srcUnits

/-- `decode_key`: the length of the key in the source in UTF-16 units. -/
def decodeKey (input : Spans) (start stop : Nat) : TokM F Nat :=
  decodeKeyLoop input stop (stop - start + 1) start 0

/-! ## Reporting a key -/

/-- The duplicate check of `report_key`, against the set that `duplicate_set` finds. -/
def checkDuplicate (key : Text) : TokM F Unit := do
  let w ← get
  if w.tok.rejectDuplicateKeys then
    match w.tok.duplicateKeyStack with
    | [] => pure ()
    | seen :: rest =>
      if key ∈ seen then throw (.err s!"Duplicate key: {String.ofList key}")
      else modifyTok fun t => { t with duplicateKeyStack := (key :: seen) :: rest }
  else pure ()

/-- `report_key`. -/
def reportKey (h : Handler F) (key : Text) (srcUnits : Nat) : TokM F Unit := do
  checkDuplicate key
  addColumn (2 + srcUnits)
  callback h (.key key)

/-- The end of `process_key`: reports the key in the character buffer. -/
def reportChars (env : Env F) (stop srcUnits : Nat) : TokM F Unit := do
  setConsumed (stop + 1)
  let w ← get
  reportKey env.handler w.tok.chars srcUnits

/-- `process_key` for a key that is interned under `bytes`. -/
def processInterned (env : Env F) (start stop : Nat) (bytes : List UInt8) : KeyM F Unit := do
  let hash := KeySymbolTable.hash bytes
  modifyInterner fun k => { k with attempts := k.attempts + 1 }
  let s ← get
  match ← ofExcept (s.2.table.lookup bytes hash) with
  | some found => do
    modifyInterner fun k => { k with hits := k.hits + 1 }
    zoom (setConsumed (stop + 1))
    zoom (reportKey env.handler found (utf16Len found))
  | none => do
    let srcUnits ← zoom (decodeKey env.input start stop)
    let s ← get
    let table ← ofExcept (s.2.table.put bytes hash s.1.tok.chars)
    modifyInterner fun k =>
      { k with
        table := table
        disabled := k.disabled || (k.hits == 0 && keyInternDisableThreshold ≤ k.attempts) }
    zoom (reportChars env stop srcUnits)

/-- `process_key`: whether the key was complete. -/
def processKey (env : Env F) : KeyM F Bool := do
  let s ← get
  let start := s.1.consumed + 1
  match ← ofExcept (scanKey env.input env.limits.maxNameLength start) with
  | none => pure false
  | some (stop, hasEscape) => do
    zoom ensureChars
    zoom clearChars
    let interned :=
      if !hasEscape && !s.2.disabled && stop - start ≤ maxKeyBytes then
        env.input.contiguous start stop
      else none
    match interned with
    | some bytes => do
      processInterned env start stop bytes
      pure true
    | none => do
      let srcUnits ← zoom (decodeKey env.input start stop)
      zoom (reportChars env stop srcUnits)
      pure true

end RJsonParser
