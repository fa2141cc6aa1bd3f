import RJsonParser.Tokenizer.Receive

/-!
# The parser

`src/parser.rs`. The handler that a `Parser` owns is known by the calls made to it, `calls`. The
ring is the caller's: the methods that are passed it are programs over a `Session`, a parser with
its ring.

The `key_intern_*` counters of the tokenizer lie with the table in `interner`; a new tokenizer sets
them to zero.
-/

namespace RJsonParser

open Infra

/-- `DEFAULT_BUFFER_SIZE`. -/
def defaultBufferSize : Nat := 8192

/-- `DEFAULT_STRING_CHUNK_SIZE`. -/
def defaultStringChunkSize : ChunkSize := ⟨32768, by decide⟩

/-- `Parser`. -/
structure Parser (F : Type) where
  calls : List (Call F)
  interner : Interner
  limits : ParserLimits
  locator : SharedLocator
  rejectDuplicateKeys : Bool
  checkedBom : Bool
  closed : Bool
  documentLength : Nat
  unconsumed : Nat
  bufferSize : Nat
  stringChunkSize : ChunkSize
  underflow : Bool
  tokenizer : Option Tokenizer
deriving DecidableEq, Repr

/-- A parser and the ring that is passed to it. -/
structure Session (F : Type) where
  parser : Parser F
  buf : LoopBuf

/-- A method of `Parser` that is passed the ring. -/
abbrev SessionM (F : Type) := EStateM Stop (Session F)

variable {F : Type}

namespace Parser

/-- `with_buffer_size`, for a handler to which `calls` were made before. -/
def withBufferSize (calls : List (Call F)) (bufferSize : Nat) : Parser F where
  calls := calls
  interner := .start .new
  limits := .default
  locator := .new
  rejectDuplicateKeys := false
  checkedBom := false
  closed := false
  documentLength := 0
  unconsumed := 0
  bufferSize := bufferSize
  stringChunkSize := defaultStringChunkSize
  underflow := false
  tokenizer := none

/-- `new`. -/
def new : Parser F := withBufferSize [] defaultBufferSize

/-- `set_reject_duplicate_keys`. -/
def setRejectDuplicateKeys (p : Parser F) (rejectDuplicateKeys : Bool) : Parser F :=
  { p with rejectDuplicateKeys := rejectDuplicateKeys }

/-- `set_limits`. -/
def setLimits (p : Parser F) (limits : ParserLimits) : Parser F := { p with limits := limits }

/-- `set_string_chunk_size`. -/
def setStringChunkSize (p : Parser F) (n : ChunkSize) : Parser F :=
  { p with stringChunkSize := n, tokenizer := p.tokenizer.map fun t => { t with chunkSize := n } }

/-- `reset`. -/
def reset (p : Parser F) : Parser F :=
  { p with
    tokenizer := none
    locator := .new
    checkedBom := false
    closed := false
    documentLength := 0
    unconsumed := 0
    underflow := false }

end Parser

/-! ## The byte order mark -/

/-- `Bom`. -/
inductive Bom where
  | needMore
  | skip (n : Nat)
deriving DecidableEq, Repr

/-- `check_bom` after a byte `EF`. -/
def checkBomUtf8 (input : Spans) : Except Stop Bom :=
  if 3 ≤ input.len then do
    let b2 ← input.get 1
    let b3 ← input.get 2
    if b2 = 0xBB ∧ b3 = 0xBF then .ok (.skip 3) else .ok (.skip 0)
  else if input.len = 1 then .ok .needMore
  else do
    let b2 ← input.get 1
    if b2 = 0xBB then .ok .needMore else .ok (.skip 0)

/-- `check_bom` after a byte `FE`. -/
def checkBomUtf16Be (input : Spans) : Except Stop Bom :=
  if input.len < 2 then .ok .needMore
  else do
    let b2 ← input.get 1
    if b2 = 0xFF then .error (.err "UTF-16 BE encoding not supported") else .ok (.skip 0)

/-- `check_bom` after a byte `FF`. -/
def checkBomLe (input : Spans) : Except Stop Bom :=
  if input.len < 2 then .ok .needMore
  else do
    let b2 ← input.get 1
    if b2 = 0xFE then
      if input.len < 4 then .ok .needMore
      else do
        let b3 ← input.get 2
        let b4 ← input.get 3
        if b3 = 0x00 ∧ b4 = 0x00 then .error (.err "UTF-32 LE encoding not supported")
        else .error (.err "UTF-16 LE encoding not supported")
    else .ok (.skip 0)

/-- `check_bom` after a byte `00`. -/
def checkBomUtf32Be (input : Spans) : Except Stop Bom :=
  if input.len < 2 then .ok .needMore
  else do
    let b2 ← input.get 1
    if b2 = 0x00 then
      if input.len < 4 then .ok .needMore
      else do
        let b3 ← input.get 2
        let b4 ← input.get 3
        if b3 = 0xFE ∧ b4 = 0xFF then .error (.err "UTF-32 BE encoding not supported")
        else .ok (.skip 0)
    else .ok (.skip 0)

/-- `check_bom`. -/
def checkBom (input : Spans) : Except Stop Bom :=
  if input.len = 0 then .ok .needMore
  else do
    let b1 ← input.get 0
    if b1 = 0xEF then checkBomUtf8 input
    else if b1 = 0xFE then checkBomUtf16Be input
    else if b1 = 0xFF then checkBomLe input
    else if b1 = 0x00 then checkBomUtf32Be input
    else .ok (.skip 0)

/-! ## `process` -/

/-- A method of `Parser` that advances a `consumed` count. -/
abbrev ProcessM (F : Type) := EStateM Stop (Parser F × Nat)

/-- The first part of `process`: what is to be parsed of `input`, or `none` if more is needed to
tell. -/
def skipBom (input : Spans) : ProcessM F (Option Spans) := do
  let s ← get
  if s.1.checkedBom then pure (some input)
  else
    match ← ofExcept (checkBom input) with
    | .needMore => pure none
    | .skip n => do
      set (({ s.1 with checkedBom := true }, s.2 + n) : Parser F × Nat)
      pure (some (input.skip n))

/-- Creates the tokenizer if there is none. -/
def Parser.startTokenizer (h : Handler F) (p : Parser F) : Parser F :=
  match p.tokenizer with
  | some _ => p
  | none =>
    { p with
      interner := .start p.interner.table
      tokenizer :=
        some (.new p.rejectDuplicateKeys (h.needsWhitespace p.calls) p.stringChunkSize) }

/-- Runs a method of the tokenizer, which starts with nothing consumed. -/
def withTokenizer {α : Type} (m : KeyM F α) : ProcessM F α := fun (p, consumed) =>
  match p.tokenizer with
  | none => .error .panic (p, consumed)
  | some t =>
    let after (s : World F × Interner) : Parser F × Nat :=
      ({ p with
          tokenizer := some s.1.tok
          locator := s.1.locator
          calls := s.1.calls
          interner := s.2 }, consumed + s.1.consumed)
    match m (⟨t, p.locator, p.calls, 0⟩, p.interner) with
    | .ok a s => .ok a (after s)
    | .error e s => .error e (after s)

variable [Double F]

/-- `process`. -/
def process (h : Handler F) (input : Spans) : ProcessM F Unit := do
  match ← skipBom input with
  | none => pure ()
  | some input => do
    modify fun s => (s.1.startTokenizer h, s.2)
    let s ← get
    withTokenizer (receive ⟨h, s.1.limits, input⟩)

/-! ## `receive` and `close` -/

def modifyParser (f : Parser F → Parser F) : SessionM F Unit :=
  modify fun s => { s with parser := f s.parser }

/-- The check of `feed` on the length of the document. -/
def countDocument (available : Nat) : SessionM F Unit := do
  let s ← get
  match s.parser.limits.maxDocumentLength with
  | none => pure ()
  | some max => do
    let n := s.parser.documentLength + (available - s.parser.unconsumed)
    modifyParser fun p => { p with documentLength := n }
    if max < n then throw (.err s!"Maximum document length exceeded: {max}") else pure ()

/-- `process` on the bytes in the ring, which are released as far as they were consumed, also when
it returns an error. -/
def processRing (h : Handler F) : SessionM F Nat := fun s =>
  match process h s.buf.spans (s.parser, 0) with
  | .ok () (p, consumed) => .ok consumed ⟨p, s.buf.advance consumed⟩
  | .error e (p, consumed) => .error e ⟨p, s.buf.advance consumed⟩

/-- The error of `feed` for a ring that is full of one token. -/
def bufferTooSmall (n : Nat) : String :=
  s!"Receive buffer too small: the next token needs more than the {n} bytes it holds. " ++
    "A key must fit the buffer (see ParserLimits::max_name_length)."

/-- `feed`. -/
def feed (h : Handler F) (checkRoom : Bool) : SessionM F Unit := do
  let s ← get
  let available := s.buf.len
  if available = 0 then pure ()
  else do
    countDocument available
    let consumed ← processRing h
    let s ← get
    modifyParser fun p => { p with unconsumed := s.buf.len, underflow := decide (0 < s.buf.len) }
    if checkRoom && consumed == 0 && s.buf.isFull then throw (.err (bufferTooSmall s.buf.len))
    else pure ()

/-- `receive`. -/
def Parser.receive (h : Handler F) : SessionM F Unit := do
  let s ← get
  if s.parser.closed then throw (.err "Cannot receive data after close()")
  else feed h true

/-- The part of `close` that processes what is still in the ring. -/
def closeFeed (h : Handler F) : SessionM F Unit := do
  let s ← get
  match s.parser.tokenizer with
  | none => do
    feed h false
    let s ← get
    if s.parser.tokenizer = none then throw (.err "No data") else pure ()
  | some _ => if s.buf.bytes ≠ [] then feed h false else pure ()

/-- The tokenizer's `end_of_input`. -/
def closeTokenizer (h : Handler F) : SessionM F Unit := fun s =>
  match withTokenizer (zoom (endOfInput h)) (s.parser, 0) with
  | .ok () (p, _) => .ok () { s with parser := p }
  | .error e (p, _) => .error e { s with parser := p }

/-- The checks of `close` on a document that has ended. -/
def checkComplete : SessionM F Unit := do
  let s ← get
  match s.parser.tokenizer with
  | none => throw .panic
  | some t =>
    if !t.seenAnyToken then throw (.err "No data")
    else
      match t.depthStack with
      | [] => pure ()
      | .startObject :: _ => throw (.err "Unclosed object")
      | .startArray :: _ => throw (.err "Unclosed array")

/-- `close`. -/
def Parser.close (h : Handler F) : SessionM F Unit := do
  let s ← get
  if s.parser.closed then pure ()
  else do
    modifyParser fun p => { p with closed := true }
    closeFeed h
    let s ← get
    if s.buf.bytes ≠ [] then throw (.err "Unclosed string or incomplete token at end of input")
    else do
      closeTokenizer h
      checkComplete

/-! ## What a caller does -/

/-- How the contents of a ring lie. -/
abbrev Layout := { f : List UInt8 → Spans // ∀ l, (f l).bytes = l }

/-- A step of a caller: what it does to its ring, or a call of a method. -/
inductive Op where
  /-- Appends as many of the bytes as fit to the ring, whose contents may then lie anyhow. -/
  | write (bytes : List UInt8) (layout : Layout)
  /-- Takes another ring. -/
  | ring (capacity : Nat) (layout : Layout)
  | receive
  | close
  | reset
  | setLimits (limits : ParserLimits)
  | setRejectDuplicateKeys (rejectDuplicateKeys : Bool)
  | setStringChunkSize (n : ChunkSize)

/-- The ring after the caller wrote to it. -/
def LoopBuf.write (b : LoopBuf) (bytes : List UInt8) (layout : Layout) : LoopBuf :=
  { b.extendFromSlice bytes with layout := layout.1, layout_bytes := layout.2 }

/-- One step. -/
def Op.exec (h : Handler F) : Op → SessionM F Unit
  | .write bytes layout => modify fun s => { s with buf := s.buf.write bytes layout }
  | .ring capacity layout =>
    modify fun s => { s with buf := .empty capacity layout.1 layout.2 }
  | .receive => Parser.receive h
  | .close => Parser.close h
  | .reset => modifyParser .reset
  | .setLimits limits => modifyParser (·.setLimits limits)
  | .setRejectDuplicateKeys b => modifyParser (·.setRejectDuplicateKeys b)
  | .setStringChunkSize n => modifyParser (·.setStringChunkSize n)

/-- The steps in order, up to the first that returns an error. -/
def run (h : Handler F) : List Op → SessionM F Unit
  | [] => pure ()
  | op :: ops => do
    op.exec h
    run h ops

/-- Whether the steps in order return no error, and the session after them or after the first that
does. -/
def outcome (h : Handler F) (ops : List Op) (s : Session F) : Except Stop Unit × Session F :=
  match run h ops s with
  | .ok () s' => (.ok (), s')
  | .error e s' => (.error e, s')

/-- The steps that present one document. -/
def Op.Feeds : Op → Prop
  | .write _ _ | .receive | .close | .setStringChunkSize _ => True
  | .ring _ _ | .reset | .setLimits _ | .setRejectDuplicateKeys _ => False

/-- The bytes that come into the ring before the parser is closed or a step returns an error. -/
def stored (h : Handler F) : List Op → Session F → List UInt8
  | [], _ => []
  | .close :: _, _ => []
  | .write bytes layout :: ops, s =>
    bytes.take s.buf.spareLen ++ stored h ops { s with buf := s.buf.write bytes layout }
  | op :: ops, s =>
    match op.exec h s with
    | .ok () s' => stored h ops s'
    | .error _ _ => []

/-- A document in chunks: each is written and received, and at the end the parser is closed. -/
def presentation (chunks : List (List UInt8 × Layout)) : List Op :=
  chunks.flatMap (fun c => [.write c.1 c.2, .receive]) ++ [.close]

/-- What a step returns, and the session after it. -/
def Op.result (h : Handler F) (op : Op) (s : Session F) : Except Stop Unit × Session F :=
  match op.exec h s with
  | .ok () s' => (.ok (), s')
  | .error e s' => (.error e, s')

/-- The steps in order, whatever they return: their results, and the session after them. -/
def runAll (h : Handler F) : List Op → Session F → List (Except Stop Unit) × Session F
  | [], s => ([], s)
  | op :: ops, s =>
    let r := op.result h s
    let rs := runAll h ops r.2
    (r.1 :: rs.1, rs.2)

/-- The sessions that a caller can come to, whatever the calls return. -/
inductive Reachable (h : Handler F) : Session F → Prop where
  | new (calls : List (Call F)) (bufferSize capacity : Nat) (layout : Layout) :
      Reachable h ⟨.withBufferSize calls bufferSize, .empty capacity layout.1 layout.2⟩
  | step {s : Session F} (hs : Reachable h s) (op : Op) : Reachable h (op.result h s).2

/-- A session at the start of a document: the parser is new or was reset, and its ring is empty. -/
structure Session.AtStart (h : Handler F) (s : Session F) : Prop where
  reachable : Reachable h s
  fresh : s.parser.reset = s.parser
  empty : s.buf.bytes = []

/-- The contents of a ring in two spans, the second starting at `wrap`. -/
def Layout.split (wrap : Nat) : Layout := ⟨Spans.split wrap, fun _ => rfl⟩

/-- A new parser with an empty ring. -/
def Session.new (capacity : Nat) (layout : Layout) : Session F :=
  ⟨.new, .empty capacity layout.1 layout.2⟩

/-- The settings of a parser. -/
def Parser.configure (p : Parser F) (limits : ParserLimits) (rejectDuplicateKeys : Bool)
    (n : ChunkSize) : Parser F :=
  ((p.setLimits limits).setRejectDuplicateKeys rejectDuplicateKeys).setStringChunkSize n

def Session.configure (s : Session F) (limits : ParserLimits) (rejectDuplicateKeys : Bool)
    (n : ChunkSize) : Session F :=
  { s with parser := s.parser.configure limits rejectDuplicateKeys n }

/-- A new session is at the start of a document. -/
theorem Session.new_atStart (h : Handler F) (capacity : Nat) (layout : Layout) :
    (Session.new capacity layout).AtStart h :=
  ⟨.new [] defaultBufferSize capacity layout, rfl, rfl⟩

/-- It is still so after its settings are changed. -/
theorem Session.AtStart.configure {h : Handler F} {s : Session F} (hs : s.AtStart h)
    (limits : ParserLimits) (rejectDuplicateKeys : Bool) (n : ChunkSize) :
    (s.configure limits rejectDuplicateKeys n).AtStart h where
  reachable := ((hs.reachable.step (.setLimits limits)).step
    (.setRejectDuplicateKeys rejectDuplicateKeys)).step (.setStringChunkSize n)
  fresh := by
    show s.parser.reset.configure limits rejectDuplicateKeys n = _
    rw [hs.fresh]
    rfl
  empty := hs.empty

/-! ## `parse` -/

/-- `std::io::Read` of a type `σ`: what `read` returns for a buffer of some length. -/
structure Reader (σ : Type) where
  read : σ → Nat → Except String (List UInt8) × σ
  length_le : ∀ s n l, (read s n).1 = .ok l → l.length ≤ n

/-- How long the part of the spare room is that `spare_capacity_mut` returns first, and how the
contents of the ring lie. -/
structure Room where
  spare : LoopBuf → Nat
  spare_le : ∀ b, spare b ≤ b.spareLen
  spare_pos : ∀ b, 0 < b.spareLen → 0 < spare b
  layout : Layout

/-- The loop of `parse` from its `n`th read, which a reader that never ends does not leave. The
head of the ring moves, so how its room lies is chosen for each read. -/
def parseLoop {σ : Type} (h : Handler F) (reader : Reader σ) (rooms : Nat → Room) :
    Nat → Nat → σ → SessionM F Unit
  | 0, _, _ => throw .outOfFuel
  | fuel + 1, n, source => do
    let s ← get
    let spare := (rooms n).spare s.buf
    if spare = 0 then throw (.err "Receive buffer too small")
    else
      match reader.read source spare with
      | (.error e, _) => throw (.err s!"I/O error reading stream: {e}")
      | (.ok bytes, source) =>
        if bytes = [] then pure ()
        else do
          modify fun s => { s with buf := s.buf.write bytes (rooms n).layout }
          Parser.receive h
          parseLoop h reader rooms fuel (n + 1) source

/-- The sessions at the head of the loop of `parse`, each before its `n`th read. -/
inductive ParseHead {σ : Type} (h : Handler F) (reader : Reader σ) (rooms : Nat → Room)
    (source₀ : σ) (s₀ : Session F) : Nat → σ → Session F → Prop where
  | start : ParseHead h reader rooms source₀ s₀ 0 source₀ s₀
  | next {n : Nat} {source source' : σ} {s s' : Session F} {bytes : List UInt8}
      (head : ParseHead h reader rooms source₀ s₀ n source s) (spare : (rooms n).spare s.buf ≠ 0)
      (read : reader.read source ((rooms n).spare s.buf) = (.ok bytes, source')) (ne : bytes ≠ [])
      (received :
        Parser.receive h { s with buf := s.buf.write bytes (rooms n).layout } = .ok () s') :
      ParseHead h reader rooms source₀ s₀ (n + 1) source' s'

/-- `parse`. The ring that the caller passes to other methods is not touched; here the one of
`parse` stands in its place. -/
def parse {σ : Type} (h : Handler F) (reader : Reader σ) (rooms : Nat → Room) (fuel : Nat)
    (source : σ) : SessionM F Unit := do
  modify fun s =>
    ⟨s.parser.reset, .empty s.parser.bufferSize (rooms 0).layout.1 (rooms 0).layout.2⟩
  parseLoop h reader rooms fuel 0 source
  Parser.close h

end RJsonParser
