import RJsonParser.LoopBuf
import RJsonParser.Tokenizer.Number
import RJsonParser.Infra.Exec
import RJsonParser.Infra.Utf8

/-!
# The tokenizer's state

The fields of `Tokenizer`, and the small operations on them that the rest is written in.

A method of `Tokenizer` is a program over a `World`: the tokenizer, the locator it moves, the
callbacks it has made and the `consumed` count it advances. It ends with a value or with a `Stop`,
and the world is there in both cases, as it is after a Rust call that returns `Err`.

The three `key_intern_*` counters are not here but with the table they govern (`Interner` in
`RJsonParser/Tokenizer/Key.lean`): of all methods only `process_key` reads or writes them.
-/

namespace RJsonParser

open Infra

/-! ## Bytes -/

def quote : UInt8 := 0x22

def backslash : UInt8 := 0x5C

/-- `b as char`. -/
def byteChar (b : UInt8) : Char := Char.ofNat b.toNat

/-! ## State -/

/-- `MIN_DECODE_ROOM`. -/
def minDecodeRoom : Nat := 16

/-- A string chunk size: `set_string_chunk_size` panics below `MIN_DECODE_ROOM`. -/
abbrev ChunkSize := { n : Nat // minDecodeRoom ≤ n }

/-- `NestToken`. -/
inductive NestToken where
  | startObject
  | startArray
deriving DecidableEq, Repr

/-- `Context`. -/
inductive Context where
  | array
  | object
deriving DecidableEq, Repr

/-- `State`. -/
inductive State where
  | expectValue
  | expectKey
  | expectColon
  | afterValue
deriving DecidableEq, Repr

/-- `Tokenizer`. The stacks have their top in front; a set of seen keys is the list of them. -/
structure Tokenizer where
  rejectDuplicateKeys : Bool
  needsWhitespace : Bool
  contextStack : List Context
  state : State
  seenAnyToken : Bool
  depthStack : List NestToken
  afterComma : Bool
  afterCr : Bool
  duplicateKeyStack : List (List Text)
  tokenCount : Nat
  inString : Bool
  stringBytes : Nat
  chars : Text
  charsCap : Nat
  chunkSize : ChunkSize
  number : NumberState
deriving DecidableEq, Repr

/-- `Tokenizer::new`. -/
def Tokenizer.new (rejectDuplicateKeys needsWhitespace : Bool) (chunkSize : ChunkSize) :
    Tokenizer where
  rejectDuplicateKeys := rejectDuplicateKeys
  needsWhitespace := needsWhitespace
  contextStack := []
  state := .expectValue
  seenAnyToken := false
  depthStack := []
  afterComma := false
  afterCr := false
  duplicateKeyStack := []
  tokenCount := 0
  inString := false
  stringBytes := 0
  chars := []
  charsCap := 0
  chunkSize := chunkSize
  number := .new

/-- What a method of `Tokenizer` can change. -/
structure World (F : Type) where
  tok : Tokenizer
  locator : SharedLocator
  calls : List (Call F)
  consumed : Nat
deriving DecidableEq, Repr

/-- A method of `Tokenizer`. -/
abbrev TokM (F : Type) := EStateM Stop (World F)

/-- The arguments of a method that it does not change. -/
structure Env (F : Type) where
  handler : Handler F
  limits : ParserLimits
  input : Spans

variable {F : Type}

def modifyTok (f : Tokenizer → Tokenizer) : TokM F Unit :=
  modify fun w => { w with tok := f w.tok }

/-- `locator.add_column(delta)`. -/
def addColumn (delta : Nat) : TokM F Unit :=
  modify fun w => { w with locator := w.locator.addColumn delta }

/-- `*consumed = p`. -/
def setConsumed (p : Nat) : TokM F Unit :=
  modify fun w => { w with consumed := p }

/-- Calls a method of the handler, which may return an error. -/
def callback (h : Handler F) (e : Event F) : TokM F Unit := do
  modify fun w => { w with calls := w.calls ++ [⟨e, w.locator⟩] }
  let w ← get
  match h.reply w.calls with
  | none => pure ()
  | some err => throw (.error err)

/-! ## The character buffer -/

/-- `ensure_chars`. -/
def ensureChars : TokM F Unit :=
  modifyTok fun t =>
    if t.charsCap ≠ t.chunkSize then { t with chars := [], charsCap := t.chunkSize } else t

/-- `self.chars.clear()`. -/
def clearChars : TokM F Unit := modifyTok fun t => { t with chars := [] }

/-- `self.chars.push_str(s)`. -/
def pushStr (s : Text) : TokM F Unit := modifyTok fun t => { t with chars := t.chars ++ s }

/-- `free`: a subtraction that panics below zero. -/
def free : TokM F Nat := do
  let w ← get
  if Utf8.byteLen w.tok.chars ≤ w.tok.chunkSize then
    pure (w.tok.chunkSize - Utf8.byteLen w.tok.chars)
  else throw .panic

/-- `flush_chars`. -/
def flushChars (h : Handler F) : TokM F Unit := do
  let w ← get
  if w.tok.chars ≠ [] then
    callback h (.stringValueContent w.tok.chars)
    clearChars
  else pure ()

/-- `make_room`. -/
def makeRoom (h : Option (Handler F)) : TokM F Unit :=
  match h with
  | some h => flushChars h
  | none => throw (.err "Object key is longer than the string chunk size")

/-! ## Tokens -/

/-- `check_token_limit`. -/
def checkTokenLimit (limits : ParserLimits) : TokM F Unit :=
  match limits.maxTokenCount with
  | none => pure ()
  | some max => do
    modifyTok fun t => { t with tokenCount := t.tokenCount + 1 }
    let w ← get
    if max < w.tok.tokenCount then
      throw (.err s!"Maximum token count exceeded: {max}")
    else pure ()

/-- `token_done`. -/
def tokenDone (limits : ParserLimits) : TokM F Unit := do
  modifyTok fun t => { t with seenAnyToken := true }
  checkTokenLimit limits

/-- `check_depth`. -/
def checkDepth (limits : ParserLimits) : TokM F Unit :=
  match limits.maxNestingDepth with
  | none => pure ()
  | some maxDepth => do
    let w ← get
    if maxDepth ≤ w.tok.depthStack.length then
      throw (.err s!"Maximum nesting depth exceeded: {maxDepth}")
    else pure ()

end RJsonParser
