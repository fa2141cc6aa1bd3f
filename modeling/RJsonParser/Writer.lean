import RJsonParser.LoopBuf
import RJsonParser.Infra.Exec
import RJsonParser.Infra.Utf8

/-!
# The writer

`src/writer.rs`: a writer that encodes straight into the caller's ring. A `write_*` method runs on
the ring and the writer; what it changes of them is there after an error too.

Sizes are natural numbers here, so the indentation arithmetic does not overflow.
-/

namespace RJsonParser

open Infra Infra.Utf8

/-- The two kinds of `io::Error` that the writer makes. -/
inductive ErrorKind where
  | wouldBlock
  | invalidInput
deriving DecidableEq, Repr

/-- `WriteError`. -/
structure WriteError where
  kind : ErrorKind
  message : String
deriving DecidableEq, Repr

/-- How a write ends that does not return a value. -/
inductive WriteStop where
  | error (e : WriteError)
  | panic
  | outOfFuel
deriving DecidableEq, Repr

/-! ## Configuration and state -/

/-- `IndentConfig`. `IndentConfig::new` asserts the two fields. -/
structure IndentConfig where
  indentChar : UInt8
  indentCount : Nat
  char_ok : indentChar = 0x20 ∨ indentChar = 0x09
  count_pos : 0 < indentCount
deriving DecidableEq

/-- `State`. -/
inductive WriterState where
  | init0
  | init
  | afterKey
  | afterValue
deriving DecidableEq, Repr

/-- `Prefix`: what goes before a value or key. -/
structure Prefix where
  comma : Bool
  space : Bool
  newlineDepth : Option Nat
deriving DecidableEq, Repr

/-- `Writer`. -/
structure Writer where
  indent : Option IndentConfig
  state : WriterState
  depth : Nat
deriving DecidableEq

/-- `Writer::new`. -/
def Writer.new : Writer := ⟨none, .init0, 0⟩

/-- `Writer::with_indent`. -/
def Writer.withIndent (indent : IndentConfig) : Writer := { Writer.new with indent := some indent }

/-- `Writer::reset`. -/
def Writer.reset (w : Writer) : Writer := { w with state := .init0, depth := 0 }

/-! ## Where bytes are put -/

/-- `Out`: somewhere encoded bytes can be put. -/
class Out (O : Type) where
  put : List UInt8 → EStateM WriteStop O Unit

export Out (put)

instance : Out LoopBuf where
  put bytes := modify fun buf => buf.extendFromSlice bytes

/-- `SCRATCH`: the largest token assembled on the stack. -/
def scratchSize : Nat := 64

/-- `Scratch`: the bytes up to `len`. -/
structure Scratch where
  bytes : List UInt8
  fits : bytes.length ≤ scratchSize

/-- `Scratch::new`. -/
def Scratch.new : Scratch := ⟨[], Nat.zero_le _⟩

instance : Out Scratch where
  put bytes := do
    let s ← get
    -- the slice `self.bytes[self.len..self.len + bytes.len()]` has to be there
    if h : (s.bytes ++ bytes).length ≤ scratchSize then set (⟨s.bytes ++ bytes, h⟩ : Scratch)
    else throw .panic

/-- `emit!`: `body` puts a token of `need` bytes, into the scratch if it is small and else straight
into the ring. -/
def emit (need : Nat) (body : {O : Type} → [Out O] → EStateM WriteStop O Unit) :
    EStateM WriteStop LoopBuf Unit := fun buf =>
  if need ≤ scratchSize then
    match (body (O := Scratch)) Scratch.new with
    | .ok _ scratch => .ok () (buf.extendFromSlice scratch.bytes)
    | .error e _ => .error e buf
  else body buf

/-- The message of `would_block`. -/
def wouldBlock : WriteStop :=
  .error ⟨.wouldBlock, "LoopBuf has no room for the whole write: drain it and repeat the call"⟩

/-- The error of `ensure_room`. -/
def noRoom (need : Nat) (what : String) (buf : LoopBuf) : WriteStop :=
  if buf.capacity < need then
    let hint := if what = "string" ∨ what = "string content" then
      "; write it in pieces with write_start_string" else ""
    .error ⟨.invalidInput,
      s!"{what} needs {need} bytes but the LoopBuf's whole capacity is {buf.capacity}{hint}"⟩
  else wouldBlock

/-- `ensure_room`. -/
def ensureRoom (need : Nat) (what : String) : EStateM WriteStop LoopBuf Unit := do
  let buf ← get
  if need ≤ buf.spareLen then pure () else throw (noRoom need what buf)

/-- The loop of `put_repeated`: `byte` as often as `left` says, at most 64 at a time. -/
def putRepeatedLoop {O : Type} [Out O] (byte : UInt8) : Nat → Nat → EStateM WriteStop O Unit
  | _, 0 => pure ()
  | 0, _ + 1 => throw .outOfFuel
  | fuel + 1, left + 1 => do
    let n := min (left + 1) 64
    put (List.replicate n byte)
    putRepeatedLoop byte fuel (left + 1 - n)

/-- `put_repeated`. -/
def putRepeated {O : Type} [Out O] (byte : UInt8) (count : Nat) : EStateM WriteStop O Unit :=
  putRepeatedLoop byte count count

/-! ## Escaping -/

/-- The size of a byte once escaped, as `escaped_len` counts it. -/
def escapedByteLen (b : UInt8) : Nat :=
  if b = 0x22 ∨ b = 0x5C ∨ b = 0x08 ∨ b = 0x0C ∨ b = 0x0A ∨ b = 0x0D ∨ b = 0x09 then 2
  else if b ≤ 0x1F then 6
  else 1

/-- `escaped_len`. -/
def escapedLen (s : Text) : Nat := ((encode s).map escapedByteLen).sum

/-- `escaped_char_len`. -/
def escapedCharLen (ch : Char) : Nat :=
  if ch = '"' ∨ ch = '\\' ∨ ch = '\x08' ∨ ch = '\x0c' ∨ ch = '\n' ∨ ch = '\r' ∨ ch = '\t' then 2
  else if ch.toNat < 0x20 then 6
  else ch.utf8Size

/-- `hex_char`. -/
def hexChar (n : UInt8) : UInt8 := if n < 10 then 0x30 + n else 0x61 + (n - 10)

/-- The escape that `put_escaped` puts for a byte that does not stand for itself. -/
def escapeOf (b : UInt8) : List UInt8 :=
  if b = 0x22 then [0x5C, 0x22]
  else if b = 0x5C then [0x5C, 0x5C]
  else if b = 0x08 then [0x5C, 0x62]
  else if b = 0x0C then [0x5C, 0x66]
  else if b = 0x0A then [0x5C, 0x6E]
  else if b = 0x0D then [0x5C, 0x72]
  else if b = 0x09 then [0x5C, 0x74]
  else [0x5C, 0x75, 0x30, 0x30, hexChar (b >>> 4), hexChar (b &&& 0xF)]

/-- The byte stands for itself in a string. -/
def isPlainOut (b : UInt8) : Bool := 0x20 ≤ b && b != 0x22 && b != 0x5C

/-- Puts a run of plain bytes, if there are any. -/
def putRun {O : Type} [Out O] (run : List UInt8) : EStateM WriteStop O Unit :=
  if run = [] then pure () else put run

/-- The loop of `put_escaped`. `run` is `bytes[start..i]`, plain bytes not put yet. -/
def putEscapedLoop {O : Type} [Out O] (run : List UInt8) : List UInt8 → EStateM WriteStop O Unit
  | [] => putRun run
  | b :: rest =>
    if isPlainOut b then putEscapedLoop (run ++ [b]) rest
    else do
      putRun run
      put (escapeOf b)
      putEscapedLoop [] rest

/-- `put_escaped`. -/
def putEscaped {O : Type} [Out O] (s : Text) : EStateM WriteStop O Unit :=
  putEscapedLoop [] (encode s)

/-- `put_quoted`. -/
def putQuoted {O : Type} [Out O] (s : Text) : EStateM WriteStop O Unit := do
  put [0x22]
  putEscaped s
  put [0x22]

/-! ## What goes before a token -/

namespace Writer

/-- `prefix`. -/
def valuePrefix (w : Writer) : Prefix :=
  let none : Prefix := ⟨false, false, .none⟩
  match w.indent, w.state with
  | .none, .afterValue => { none with comma := true }
  | .none, _ => none
  | some _, .afterKey => { none with space := true }
  | some _, .afterValue => { none with comma := true, newlineDepth := some w.depth }
  | some _, .init => { none with newlineDepth := some w.depth }
  | some _, .init0 => none

/-- `prefix_len`. -/
def prefixLen (w : Writer) (p : Prefix) : Nat :=
  let indent := (w.indent.map IndentConfig.indentCount).getD 0
  p.comma.toNat + p.space.toNat + (p.newlineDepth.map fun depth => 1 + indent * depth).getD 0

/-- Puts bytes where they are asked for. -/
def putIf {O : Type} [Out O] (c : Bool) (bytes : List UInt8) : EStateM WriteStop O Unit :=
  if c then put bytes else pure ()

/-- Puts a newline and `depth` levels of indentation. -/
def putNewline {O : Type} [Out O] (indent : IndentConfig) (depth : Nat) :
    EStateM WriteStop O Unit := do
  put [0x0A]
  putRepeated indent.indentChar (indent.indentCount * depth)

/-- Puts a newline and indentation if there is a depth and a configuration for it. -/
def putIndent {O : Type} [Out O] : Option Nat → Option IndentConfig → EStateM WriteStop O Unit
  | some depth, some indent => putNewline indent depth
  | _, _ => pure ()

/-- `put_prefix`. -/
def putPrefix (w : Writer) {O : Type} [Out O] (p : Prefix) : EStateM WriteStop O Unit := do
  putIf p.comma [0x2C]
  putIf p.space [0x20]
  putIndent p.newlineDepth w.indent

end Writer

/-! ## The methods -/

/-- A `write_*` method: on the ring and the writer. -/
abbrev WriteM := EStateM WriteStop (LoopBuf × Writer)

/-- `self`. -/
def getWriter : WriteM Writer := do
  let p ← get
  pure p.2

/-- `self.state = state`. -/
def setState (state : WriterState) : WriteM Unit :=
  modify fun p => (p.1, { p.2 with state := state })

/-- `self.depth = depth`. -/
def setDepth (depth : Nat) : WriteM Unit :=
  modify fun p => (p.1, { p.2 with depth := depth })

/-- `write_open`. -/
def writeOpen (bracket : UInt8) : WriteM Unit := do
  let self ← getWriter
  let p := self.valuePrefix
  let need := self.prefixLen p + 1
  zoom (ensureRoom need "value")
  zoom (emit need do
    self.putPrefix p
    put [bracket])
  setState .init
  setDepth (self.depth + 1)

/-- `write_close`. -/
def writeClose (bracket : UInt8) : WriteM Unit := do
  let self ← getWriter
  let depth := self.depth - 1
  let indent := self.indent.map fun i => 1 + i.indentCount * depth
  let need := indent.getD 0 + 1
  zoom (ensureRoom need "value")
  zoom (emit need do
    Writer.putIndent (some depth) self.indent
    put [bracket])
  setState .afterValue
  setDepth depth

/-- `write_start_object`. -/
def writeStartObject : WriteM Unit := writeOpen 0x7B

/-- `write_start_array`. -/
def writeStartArray : WriteM Unit := writeOpen 0x5B

/-- `write_end_object`. -/
def writeEndObject : WriteM Unit := writeClose 0x7D

/-- `write_end_array`. -/
def writeEndArray : WriteM Unit := writeClose 0x5D

/-- `write_key`. -/
def writeKey (key : Text) : WriteM Unit := do
  let self ← getWriter
  let p := self.valuePrefix
  let need := self.prefixLen p + 2 + escapedLen key + 1
  zoom (ensureRoom need "key")
  zoom (emit need do
    self.putPrefix p
    putQuoted key
    put [0x3A])
  setState .afterKey

/-- `write_string`. -/
def writeString (value : Text) : WriteM Unit := do
  let self ← getWriter
  let p := self.valuePrefix
  let need := self.prefixLen p + 2 + escapedLen value
  zoom (ensureRoom need "string")
  zoom (emit need do
    self.putPrefix p
    putQuoted value)
  setState .afterValue

/-- `write_start_string`. -/
def writeStartString : WriteM Unit := do
  let self ← getWriter
  let p := self.valuePrefix
  let need := self.prefixLen p + 1
  zoom (ensureRoom need "string")
  zoom (emit need do
    self.putPrefix p
    put [0x22])

/-- `is_char_boundary`. -/
def isCharBoundary : Text → Nat → Bool
  | _, 0 => true
  | [], _ + 1 => false
  | c :: s, n + 1 => c.utf8Size ≤ n + 1 && isCharBoundary s (n + 1 - c.utf8Size)

/-- The loop that backs `limit` up to a character boundary. -/
def backUp (content : Text) : Nat → Nat
  | 0 => 0
  | limit + 1 => if isCharBoundary content (limit + 1) then limit + 1 else backUp content limit

/-- `&content[..n]`, which panics off a character boundary. -/
def sliceTo : Text → Nat → Except WriteStop Text
  | _, 0 => .ok []
  | [], _ + 1 => .error .panic
  | c :: s, n + 1 =>
    if c.utf8Size ≤ n + 1 then do
      let rest ← sliceTo s (n + 1 - c.utf8Size)
      .ok (c :: rest)
    else .error .panic

/-- The loop over the characters that fit. `taken` is where the last of them ended. -/
def takenLoop (spare : Nat) (used taken : Nat) : Text → Nat
  | [] => taken
  | ch :: rest =>
    let size := escapedCharLen ch
    if spare < used + size then taken
    else takenLoop spare (used + size) (taken + ch.utf8Size) rest

/-- `write_string_content`, on the ring: it neither reads nor changes the writer. -/
def stringContent (content : Text) : EStateM WriteStop LoopBuf Nat := do
  if content = [] then pure 0
  else
    let buf ← get
    let spare := buf.spareLen
    let limit := backUp content (min (byteLen content) spare)
    let candidate ← ofExcept (sliceTo content limit)
    let taken := if escapedLen candidate ≤ spare then limit else takenLoop spare 0 0 candidate
    if taken = 0 then do
      -- the longest single character is 6 bytes escaped
      ensureRoom 6 "string content"
      throw wouldBlock
    else
      let text ← ofExcept (sliceTo content taken)
      putEscaped text
      pure taken

/-- `write_string_content`. -/
def writeStringContent (content : Text) : WriteM Nat := zoom (stringContent content)

/-- `write_end_string`. -/
def writeEndString : WriteM Unit := do
  zoom (ensureRoom 1 "string")
  zoom (put [0x22])
  setState .afterValue

/-- `write_literal`. -/
def writeLiteral (text : List UInt8) : WriteM Unit := do
  let self ← getWriter
  let p := self.valuePrefix
  let need := self.prefixLen p + text.length
  zoom (ensureRoom need "value")
  zoom (emit need do
    self.putPrefix p
    put text)
  setState .afterValue

/-- `write_boolean`. -/
def writeBoolean (value : Bool) : WriteM Unit :=
  writeLiteral (if value then [0x74, 0x72, 0x75, 0x65] else [0x66, 0x61, 0x6C, 0x73, 0x65])

/-- `write_null`. -/
def writeNull : WriteM Unit := writeLiteral [0x6E, 0x75, 0x6C, 0x6C]

/-! ## Numbers -/

/-- `write_number_bytes`. -/
def writeNumberBytes (value : List UInt8) : WriteM Unit := do
  let self ← getWriter
  let p := self.valuePrefix
  let need := self.prefixLen p + value.length
  zoom (ensureRoom need "number")
  zoom (emit need do
    self.putPrefix p
    put value)
  setState .afterValue

/-- `write_number_str`. -/
def writeNumberStr (value : Text) : WriteM Unit := writeNumberBytes (encode value)

/-- `PAIRS`: "00" to "99". -/
def pairs : List UInt8 :=
  ("0001020304050607080910111213141516171819" ++ "2021222324252627282930313233343536373839" ++
    "4041424344454647484950515253545556575859" ++ "6061626364656667686970717273747576777879" ++
    "8081828384858687888990919293949596979899").toList.map fun c => UInt8.ofNat c.toNat

/-- `&bytes[start..stop]`. -/
def slice (bytes : List UInt8) (start stop : Nat) : Except WriteStop (List UInt8) :=
  if start ≤ stop ∧ stop ≤ bytes.length then .ok ((bytes.drop start).take (stop - start))
  else .error .panic

/-- The array of `write_i64`, filled from its end down to `pos` (the source's `at`). -/
structure DigitArray where
  digits : List UInt8
  pos : Nat
deriving DecidableEq, Repr

/-- `[0u8; 20]`, with nothing in it. -/
def DigitArray.new : DigitArray := ⟨List.replicate 20 0, 20⟩

/-- `at -= n` and a copy of the `n` bytes to `digits[at..at + n]`. -/
def DigitArray.push (a : DigitArray) (bytes : List UInt8) : Except WriteStop DigitArray :=
  if bytes.length ≤ a.pos then
    let pos := a.pos - bytes.length
    if pos + bytes.length ≤ a.digits.length then
      .ok ⟨a.digits.take pos ++ bytes ++ a.digits.drop (pos + bytes.length), pos⟩
    else .error .panic
  else .error .panic

/-- The two digits of `n`, from the table. -/
def pairOf (n : Nat) : Except WriteStop (List UInt8) := slice pairs (n * 2) (n * 2 + 2)

/-- The loop of `write_i64`, with what is left of the number. -/
def pairLoop : Nat → Nat → DigitArray → Except WriteStop (Nat × DigitArray)
  | 0, _, _ => .error .outOfFuel
  | fuel + 1, rest, a =>
    if 100 ≤ rest then do
      let two ← pairOf (rest % 100)
      let a ← a.push two
      pairLoop fuel (rest / 100) a
    else .ok (rest, a)

/-- The last one or two digits of `write_i64`. -/
def lastDigits (rest : Nat) (a : DigitArray) : Except WriteStop DigitArray :=
  if 10 ≤ rest then do
    let two ← pairOf rest
    a.push two
  else a.push [0x30 + UInt8.ofNat rest]

/-- The sign of `write_i64`. -/
def signDigit (value : Int) (a : DigitArray) : Except WriteStop DigitArray :=
  if value < 0 then a.push [0x2D] else .ok a

/-- What `write_i64` does before it hands `&digits[at..]` on. -/
def i64Digits (value : Int) : Except WriteStop (List UInt8) := do
  let p ← pairLoop 20 value.natAbs .new
  let a ← lastDigits p.1 p.2
  let a ← signDigit value a
  slice a.digits a.pos a.digits.length

/-- `write_i64`. -/
def writeI64 (value : Int) : WriteM Unit := do
  let digits ← ofExcept (i64Digits value)
  writeNumberBytes digits

/-- `write_i32`. -/
def writeI32 (value : Int) : WriteM Unit := writeI64 value

/-- What `write_f64` uses of `f64`: `is_finite` and `Display`. -/
class DoubleText (F : Type) where
  isFinite : F → Bool
  display : F → Text

/-- `write_f64`. -/
def writeF64 {F : Type} [DoubleText F] (value : F) : WriteM Unit :=
  let text := DoubleText.display value
  if DoubleText.isFinite value then
    -- the text goes through a stack buffer if it fits one
    if byteLen text ≤ 64 then writeNumberBytes (encode text) else writeNumberStr text
  else throw (.error ⟨.invalidInput, s!"JSON cannot represent {String.ofList text}"⟩)

/-- `write_number`. -/
def writeNumber {F : Type} [DoubleText F] : Number F → WriteM Unit
  | .i32 v => writeI64 v
  | .i64 v => writeI64 v
  | .f64 v => writeF64 v
  | .bigInt digits => writeNumberStr digits

/-! ## What a caller does -/

/-- A call of a `write_*` method. -/
inductive WriteCall (F : Type) where
  | startObject
  | endObject
  | startArray
  | endArray
  | key (key : Text)
  | string (value : Text)
  | startString
  | stringContent (content : Text)
  | endString
  | number (value : Number F)
  | numberStr (value : Text)
  | i32 (value : Int)
  | i64 (value : Int)
  | f64 (value : F)
  | boolean (value : Bool)
  | null
deriving DecidableEq, Repr

/-- What a method returns that returns `()`. -/
def unitCall (m : WriteM Unit) : WriteM Nat := do
  m
  pure 0

/-- A call. It returns how many bytes of string content were taken, `0` where it is no such call. -/
def WriteCall.exec {F : Type} [DoubleText F] : WriteCall F → WriteM Nat
  | .startObject => unitCall writeStartObject
  | .endObject => unitCall writeEndObject
  | .startArray => unitCall writeStartArray
  | .endArray => unitCall writeEndArray
  | .key name => unitCall (writeKey name)
  | .string value => unitCall (writeString value)
  | .startString => unitCall writeStartString
  | .stringContent content => writeStringContent content
  | .endString => unitCall writeEndString
  | .number value => unitCall (writeNumber value)
  | .numberStr value => unitCall (writeNumberStr value)
  | .i32 value => unitCall (writeI32 value)
  | .i64 value => unitCall (writeI64 value)
  | .f64 value => unitCall (writeF64 value)
  | .boolean value => unitCall (writeBoolean value)
  | .null => unitCall writeNull

/-- `is_would_block`. -/
def WriteStop.isWouldBlock : WriteStop → Bool
  | .error e => e.kind = .wouldBlock
  | _ => false

/-- `&content[n..]`, which panics off a character boundary. -/
def sliceFrom : Text → Nat → Except WriteStop Text
  | s, 0 => .ok s
  | [], _ + 1 => .error .panic
  | c :: s, n + 1 =>
    if c.utf8Size ≤ n + 1 then sliceFrom s (n + 1 - c.utf8Size) else .error .panic

/-- What is left to do of a call that took `n` bytes: string content is offered again from there. -/
def WriteCall.rest {F : Type} : WriteCall F → Nat → Except WriteStop (List (WriteCall F))
  | .stringContent content, n => do
    let rest ← sliceFrom content n
    pure (if rest = [] then [] else [.stringContent rest])
  | _, _ => pure []

/-- A caller: the calls it has yet to make, the ring, the writer, and what it took from the ring. -/
structure WriterSession (F : Type) where
  calls : List (WriteCall F)
  ring : LoopBuf
  writer : Writer
  out : List UInt8

namespace WriterSession

variable {F : Type}

/-- Takes the first `n` bytes from the ring. -/
def drain (s : WriterSession F) (n : Nat) : WriterSession F :=
  { s with ring := s.ring.advance n, out := s.out ++ s.ring.bytes.take n }

/-- Makes the next call. A call that would block is left to be repeated; the result says whether it
did not. -/
def call [DoubleText F] (s : WriterSession F) : Except WriteStop (Bool × WriterSession F) :=
  match s.calls with
  | [] => .ok (true, s)
  | c :: cs =>
    match c.exec (s.ring, s.writer) with
    | .ok n p => do
      let rest ← c.rest n
      .ok (true, ⟨rest ++ cs, p.1, p.2, s.out⟩)
    | .error e p => if e.isWouldBlock then .ok (false, ⟨s.calls, p.1, p.2, s.out⟩) else .error e

/-- What a caller may do next. -/
inductive Move where
  | drain (n : Nat)
  | call
deriving DecidableEq, Repr

/-- A step of a caller. -/
def step [DoubleText F] (s : WriterSession F) : Move → Except WriteStop (WriterSession F)
  | .drain n => .ok (s.drain n)
  | .call => do
    let r ← s.call
    .ok r.2

/-- A schedule of draining and calling. -/
def run [DoubleText F] (s : WriterSession F) (moves : List Move) :
    Except WriteStop (WriterSession F) :=
  moves.foldlM step s

/-- The caller that drains the whole ring when a call would block. -/
def retry [DoubleText F] : Nat → WriterSession F → Except WriteStop (WriterSession F)
  | 0, s => if s.calls.isEmpty then .ok s else .error .outOfFuel
  | fuel + 1, s =>
    if s.calls.isEmpty then .ok s
    else do
      let r ← s.call
      retry fuel (if r.1 then r.2 else r.2.drain r.2.ring.len)

end WriterSession

end RJsonParser
