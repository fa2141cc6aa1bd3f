import RJsonParser.Properties.Formatting
import RJsonParser.Properties.WriterOutput

/-!
# The calls of a writer

Every call but two writes one token, whole or not at all: what the token is does not depend on the
ring. The two are string content, which is written as far as it fits, and a number that JSON cannot
represent, which never is.

* `WriteCall.token` — the token of a call
* `exec_token`, `exec_unwritable` — what a call of one token does
-/

namespace RJsonParser

open Infra Infra.Utf8 Writer

/-! ## Tokens of calls -/

namespace Writer

/-- The bytes before a value or key. -/
def lead (w : Writer) : List UInt8 := w.prefixBytes w.valuePrefix

/-- A value of the given bytes. -/
def value (w : Writer) (bytes : List UInt8) (what : String) : Token :=
  ⟨w.lead ++ bytes, what, { w with state := .afterValue }⟩

/-- A bracket that opens. -/
def opening (w : Writer) (bracket : UInt8) : Token :=
  ⟨w.lead ++ [bracket], "value", { w with state := .init, depth := w.depth + 1 }⟩

/-- A bracket that closes. -/
def closing (w : Writer) (bracket : UInt8) : Token :=
  ⟨indentBytes (some (w.depth - 1)) w.indent ++ [bracket], "value",
    { w with state := .afterValue, depth := w.depth - 1 }⟩

end Writer

variable {F : Type}

/-- The integers of an argument are of its type. -/
def Number.Ranged : Number F → Prop
  | .i32 v => -2 ^ 31 ≤ v ∧ v < 2 ^ 31
  | .i64 v => -2 ^ 63 ≤ v ∧ v < 2 ^ 63
  | .f64 _ | .bigInt _ => True

/-- The integers of the arguments are of their types. -/
def WriteCall.Ranged : WriteCall F → Prop
  | .number v => v.Ranged
  | .i32 v => -2 ^ 31 ≤ v ∧ v < 2 ^ 31
  | .i64 v => -2 ^ 63 ≤ v ∧ v < 2 ^ 63
  | _ => True

variable [DoubleText F]

/-- The text of a double, unless it is NaN or infinite. -/
def doubleBytes (v : F) : Option (List UInt8) :=
  if DoubleText.isFinite v then some (encode (DoubleText.display v)) else none

/-- The text of a number. -/
def Number.bytes : Number F → Option (List UInt8)
  | .i32 v => some (decimalBytes v)
  | .i64 v => some (decimalBytes v)
  | .f64 v => doubleBytes v
  | .bigInt digits => some (encode digits)

/-- The token of a call, `none` for string content and for a number JSON cannot represent. -/
def WriteCall.token (w : Writer) : WriteCall F → Option Token
  | .startObject => some (w.opening 0x7B)
  | .endObject => some (w.closing 0x7D)
  | .startArray => some (w.opening 0x5B)
  | .endArray => some (w.closing 0x5D)
  | .key k => some ⟨w.lead ++ (quoted k ++ [0x3A]), "key", { w with state := .afterKey }⟩
  | .string v => some (w.value (quoted v) "string")
  | .startString => some ⟨w.lead ++ [0x22], "string", w⟩
  | .stringContent _ => none
  | .endString => some ⟨[0x22], "string", { w with state := .afterValue }⟩
  | .number v => v.bytes.map (w.value · "number")
  | .numberStr v => some (w.value (encode v) "number")
  | .i32 v => some (w.value (decimalBytes v) "number")
  | .i64 v => some (w.value (decimalBytes v) "number")
  | .f64 v => (doubleBytes v).map (w.value · "number")
  | .boolean v =>
    some (w.value (if v then [0x74, 0x72, 0x75, 0x65] else [0x66, 0x61, 0x6C, 0x73, 0x65]) "value")
  | .null => some (w.value [0x6E, 0x75, 0x6C, 0x6C] "value")

section Methods

variable {buf : LoopBuf} {w : Writer}

omit [DoubleText F] in
theorem length_lead (w : Writer) : w.lead.length = w.prefixLen w.valuePrefix :=
  w.length_prefixBytes

theorem puts_lead {O : Type} [Out O] [LawfulOut O] (w : Writer) (bytes : List UInt8) :
    Puts (O := O) (do w.putPrefix w.valuePrefix; put bytes) (w.lead ++ bytes) :=
  (w.puts_prefix _).bind (puts_put _)

theorem writeOpen_eq (bracket : UInt8) :
    writeOpen bracket (buf, w) = (w.opening bracket).write buf w :=
  write_eq (puts_lead w [bracket]) (puts_lead w [bracket])
    (by rw [List.length_append, length_lead]; rfl) fun _ => rfl

theorem length_indentBytes (depth : Nat) (indent : Option IndentConfig) :
    (indentBytes (some depth) indent).length =
      (indent.map fun i => 1 + i.indentCount * depth).getD 0 := by
  cases indent with
  | none => rfl
  | some indent =>
    simp [indentBytes, newlineBytes]
    omega

theorem writeClose_eq (bracket : UInt8) :
    writeClose bracket (buf, w) = (w.closing bracket).write buf w :=
  write_eq ((puts_indent _ _).bind (puts_put _)) ((puts_indent _ _).bind (puts_put _))
    (by rw [List.length_append, length_indentBytes]; rfl) fun _ => rfl

theorem length_quoted (s : Text) : (quoted s).length = 2 + escapedLen s := by
  rw [quoted, List.length_append, List.length_append, length_escaped]
  simp only [List.length_singleton]
  omega

theorem writeKey_eq (k : Text) : writeKey k (buf, w) =
    Token.write ⟨w.lead ++ (quoted k ++ [0x3A]), "key", { w with state := .afterKey }⟩ buf w :=
  write_eq ((w.puts_prefix _).bind ((puts_quoted k).bind (puts_put _)))
    ((w.puts_prefix _).bind ((puts_quoted k).bind (puts_put _)))
    (by simp only [List.length_append, length_lead, length_quoted, List.length_singleton]; omega)
    fun _ => rfl

theorem writeString_eq (v : Text) :
    writeString v (buf, w) = (w.value (quoted v) "string").write buf w :=
  write_eq ((w.puts_prefix _).bind (puts_quoted v)) ((w.puts_prefix _).bind (puts_quoted v))
    (by rw [List.length_append, length_lead, length_quoted, ← Nat.add_assoc]) fun _ => rfl

theorem writeLiteral_eq (text : List UInt8) :
    writeLiteral text (buf, w) = (w.value text "value").write buf w :=
  write_eq (puts_lead w text) (puts_lead w text) (by rw [List.length_append, length_lead])
    fun _ => rfl

theorem writeNumberBytes_eq (text : List UInt8) :
    writeNumberBytes text (buf, w) = (w.value text "number").write buf w :=
  write_eq (puts_lead w text) (puts_lead w text) (by rw [List.length_append, length_lead])
    fun _ => rfl

/-- The start of a string leaves the writer as it is. -/
theorem writeStartString_eq :
    writeStartString (buf, w) = Token.write ⟨w.lead ++ [0x22], "string", w⟩ buf w :=
  roomEmit_eq (puts_lead w [0x22]) (puts_lead w [0x22])
    (by rw [List.length_append, length_lead]; rfl)

/-- The end of a string goes into the ring without the scratch. -/
theorem writeEndString_eq : writeEndString (buf, w) =
    Token.write ⟨[0x22], "string", { w with state := .afterValue }⟩ buf w := by
  have hroom := ensureRoom_eq 1 "string" buf
  unfold Token.write
  show EStateM.bind (zoom (ensureRoom 1 "string"))
    (fun _ => EStateM.bind (zoom (put [0x22])) fun _ => setState .afterValue) (buf, w) = _
  simp only [List.length_singleton]
  by_cases h : 1 ≤ buf.spareLen
  · rw [if_pos h] at hroom ⊢
    simp only [EStateM.bind, zoom, hroom]
    rfl
  · rw [if_neg h] at hroom ⊢
    simp only [EStateM.bind, zoom, hroom]

end Methods

/-! ## What a call does -/

/-- What a call returns that wrote a token or did not. -/
def Token.call (t : Token) (buf : LoopBuf) (w : Writer) :
    EStateM.Result WriteStop (LoopBuf × Writer) Nat :=
  if t.bytes.length ≤ buf.spareLen then .ok 0 (buf.extendFromSlice t.bytes, t.next)
  else .error (noRoom t.bytes.length t.what buf) (buf, w)

section Exec

variable {buf : LoopBuf} {w : Writer} {t : Token} {c : WriteCall F}

omit [DoubleText F] in
theorem unitCall_eq {m : WriteM Unit} (h : m (buf, w) = t.write buf w) :
    unitCall m (buf, w) = t.call buf w := by
  show EStateM.bind m (fun _ => pure 0) (buf, w) = _
  unfold EStateM.bind Token.call
  rw [h, Token.write]
  by_cases hle : t.bytes.length ≤ buf.spareLen
  · rw [if_pos hle, if_pos hle]
    rfl
  · rw [if_neg hle, if_neg hle]

theorem writeF64_eq {v : F} {bytes : List UInt8} (h : doubleBytes v = some bytes) :
    writeF64 v (buf, w) = (w.value bytes "number").write buf w := by
  unfold doubleBytes at h
  unfold writeF64
  split at h
  · next hfinite =>
    cases h
    rw [if_pos hfinite]
    split <;> exact writeNumberBytes_eq _
  · cases h

omit [DoubleText F] in
theorem writeI64_token {v : Int} (h : -2 ^ 63 ≤ v ∧ v < 2 ^ 63) :
    writeI64 v (buf, w) = (w.value (decimalBytes v) "number").write buf w := by
  rw [writeI64_eq h.1 h.2]
  exact writeNumberBytes_eq _

theorem writeNumber_eq {v : Number F} (hr : v.Ranged) {bytes : List UInt8}
    (h : v.bytes = some bytes) :
    writeNumber v (buf, w) = (w.value bytes "number").write buf w := by
  cases v with
  | i32 v =>
    cases h
    exact writeI64_token ⟨by have := hr.1; omega, by have := hr.2; omega⟩
  | i64 v =>
    cases h
    exact writeI64_token hr
  | f64 v => exact writeF64_eq h
  | bigInt digits =>
    cases h
    exact writeNumberBytes_eq _

/-- **A call that writes a token** writes it whole, or nothing changes. -/
theorem exec_token (hr : c.Ranged) (h : c.token w = some t) : c.exec (buf, w) = t.call buf w := by
  cases c with
  | startObject => cases h; exact unitCall_eq (writeOpen_eq _)
  | endObject => cases h; exact unitCall_eq (writeClose_eq _)
  | startArray => cases h; exact unitCall_eq (writeOpen_eq _)
  | endArray => cases h; exact unitCall_eq (writeClose_eq _)
  | key k => cases h; exact unitCall_eq (writeKey_eq k)
  | string v => cases h; exact unitCall_eq (writeString_eq v)
  | startString => cases h; exact unitCall_eq writeStartString_eq
  | stringContent _ => cases h
  | endString => cases h; exact unitCall_eq writeEndString_eq
  | number v =>
    obtain ⟨bytes, hbytes, rfl⟩ := Option.map_eq_some_iff.mp h
    exact unitCall_eq (writeNumber_eq hr hbytes)
  | numberStr v => cases h; exact unitCall_eq (writeNumberBytes_eq _)
  | i32 v =>
    cases h
    exact unitCall_eq (writeI64_token ⟨by have := hr.1; omega, by have := hr.2; omega⟩)
  | i64 v => cases h; exact unitCall_eq (writeI64_token hr)
  | f64 v =>
    obtain ⟨bytes, hbytes, rfl⟩ := Option.map_eq_some_iff.mp h
    exact unitCall_eq (writeF64_eq hbytes)
  | boolean v => cases h; exact unitCall_eq (writeLiteral_eq _)
  | null => cases h; exact unitCall_eq (writeLiteral_eq _)

theorem writeF64_unwritable (buf : LoopBuf) (w : Writer) {v : F} (h : doubleBytes v = none) :
    ∃ m, writeF64 v (buf, w) = .error (.error ⟨.invalidInput, m⟩) (buf, w) := by
  unfold doubleBytes at h
  unfold writeF64
  split at h
  · cases h
  · next hfinite =>
    rw [if_neg hfinite]
    exact ⟨_, rfl⟩

/-- A number that JSON cannot represent is never written. -/
theorem exec_unwritable (h : c.token w = none) (hc : ∀ s, c ≠ .stringContent s) :
    ∃ m, c.exec (buf, w) = .error (.error ⟨.invalidInput, m⟩) (buf, w) := by
  have hunit : ∀ {m : WriteM Unit} {e : WriteStop}, m (buf, w) = .error e (buf, w) →
      unitCall m (buf, w) = .error e (buf, w) := by
    intro m e hm
    show EStateM.bind m (fun _ => pure 0) (buf, w) = _
    unfold EStateM.bind
    rw [hm]
  cases c with
  | stringContent s => exact absurd rfl (hc s)
  | number v =>
    have hv := Option.map_eq_none_iff.mp h
    cases v with
    | f64 v =>
      obtain ⟨m, hm⟩ := writeF64_unwritable buf w hv
      exact ⟨m, hunit hm⟩
    | i32 v => cases hv
    | i64 v => cases hv
    | bigInt digits => cases hv
  | f64 v =>
    obtain ⟨m, hm⟩ := writeF64_unwritable buf w (Option.map_eq_none_iff.mp h)
    exact ⟨m, hunit hm⟩
  | _ => cases h

end Exec

end RJsonParser
