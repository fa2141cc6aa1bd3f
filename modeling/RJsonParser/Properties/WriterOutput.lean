import RJsonParser.Writer

/-!
# What the writer puts

A token is put byte by byte and in runs, through a scratch or straight into the ring. Neither shows:
what a program puts that has the room is what one `put` of all of it would.

* `LawfulOut` — what the ring and the scratch have in common
* `Puts` — a program puts some bytes
* `escaped` — a text as it stands in a string
* `emit_eq` — a token goes into the ring whole
-/

namespace RJsonParser

open Infra Infra.Utf8

/-- Bytes that there is room for are put one behind the other. -/
class LawfulOut (O : Type) [Out O] where
  room : O → Nat
  put_nil : ∀ o : O, put [] o = .ok () o
  put_room : ∀ (a : List UInt8) (o : O), a.length ≤ room o →
    ∃ o' : O, put a o = .ok () o' ∧ room o' = room o - a.length
  put_append : ∀ (a b : List UInt8) (o o' : O), a.length + b.length ≤ room o →
    put a o = .ok () o' → put b o' = put (a ++ b) o

export LawfulOut (room)

theorem LoopBuf.extendFromSlice_append (buf : LoopBuf) {a b : List UInt8}
    (h : a.length + b.length ≤ buf.spareLen) :
    (buf.extendFromSlice a).extendFromSlice b = buf.extendFromSlice (a ++ b) := by
  unfold LoopBuf.spareLen at h
  have ha : a.take (buf.capacity - buf.bytes.length) = a := List.take_of_length_le (by omega)
  have hab : (a ++ b).take (buf.capacity - buf.bytes.length) = a ++ b :=
    List.take_of_length_le (by rw [List.length_append]; omega)
  have hb : b.take (buf.capacity - (buf.bytes ++ a).length) = b :=
    List.take_of_length_le (by rw [List.length_append]; omega)
  simp only [LoopBuf.extendFromSlice, LoopBuf.spareLen, ha, hb, hab, List.append_assoc]

theorem LoopBuf.spareLen_extendFromSlice (buf : LoopBuf) {a : List UInt8}
    (h : a.length ≤ buf.spareLen) :
    (buf.extendFromSlice a).spareLen = buf.spareLen - a.length := by
  unfold LoopBuf.spareLen at *
  simp only [LoopBuf.extendFromSlice, LoopBuf.spareLen, List.length_append, List.length_take]
  omega

instance : LawfulOut LoopBuf where
  room := LoopBuf.spareLen
  put_nil buf := by
    show EStateM.Result.ok () (buf.extendFromSlice []) = _
    simp [LoopBuf.extendFromSlice]
  put_room a buf h := ⟨_, rfl, buf.spareLen_extendFromSlice h⟩
  put_append a b buf buf' h := by
    rintro ⟨⟩
    exact congrArg (EStateM.Result.ok ()) (buf.extendFromSlice_append h)

theorem Scratch.put_eq (s : Scratch) (bytes : List UInt8) :
    put bytes s = if h : (s.bytes ++ bytes).length ≤ scratchSize
      then .ok () (⟨s.bytes ++ bytes, h⟩ : Scratch) else .error .panic s := by
  show (if h : (s.bytes ++ bytes).length ≤ scratchSize then
    (set (⟨s.bytes ++ bytes, h⟩ : Scratch) : EStateM WriteStop Scratch Unit)
      else throw .panic) s = _
  split <;> rfl

instance : LawfulOut Scratch where
  room s := scratchSize - s.bytes.length
  put_nil s := by
    rw [Scratch.put_eq, dif_pos (by rw [List.append_nil]; exact s.fits)]
    simp
  put_room a s h := by
    have hfits := s.fits
    have hlen : (s.bytes ++ a).length ≤ scratchSize := by rw [List.length_append]; omega
    refine ⟨⟨s.bytes ++ a, hlen⟩, by rw [Scratch.put_eq, dif_pos hlen], ?_⟩
    simp only [List.length_append]
    omega
  put_append a b s s' h := by
    intro hput
    have hfits := s.fits
    have ha : (s.bytes ++ a).length ≤ scratchSize := by rw [List.length_append]; omega
    have hab : (s.bytes ++ (a ++ b)).length ≤ scratchSize := by
      simp only [List.length_append]; omega
    rw [Scratch.put_eq, dif_pos ha] at hput
    cases hput
    rw [Scratch.put_eq, Scratch.put_eq, dif_pos hab,
      dif_pos (by rw [List.append_assoc]; exact hab)]
    simp only [List.append_assoc]

/-! ## Programs that put bytes -/

variable {O : Type} [Out O] [LawfulOut O]

/-- With room for `bytes`, the program does what one `put` of them does. -/
def Puts (m : EStateM WriteStop O Unit) (bytes : List UInt8) : Prop :=
  ∀ o, bytes.length ≤ room o → m o = put bytes o

theorem puts_put (bytes : List UInt8) : Puts (O := O) (put bytes) bytes := fun _ _ => rfl

theorem puts_pure : Puts (O := O) (pure ()) [] := fun o _ => (LawfulOut.put_nil o).symm

/-- **One behind the other.** -/
theorem Puts.bind {m n : EStateM WriteStop O Unit} {a b : List UInt8} (hm : Puts m a)
    (hn : Puts n b) : Puts (do m; n) (a ++ b) := by
  intro o h
  rw [List.length_append] at h
  obtain ⟨o', ho', hroom⟩ := LawfulOut.put_room a o (by omega)
  show EStateM.bind m (fun _ => n) o = _
  unfold EStateM.bind
  rw [hm o (by omega), ho']
  exact (hn o' (by omega)).trans (LawfulOut.put_append a b o o' h ho')

/-- A run of bytes that may be empty. -/
theorem puts_run (run : List UInt8) : Puts (O := O) (putRun run) run := by
  unfold putRun
  by_cases h : run = []
  · rw [if_pos h, h]
    exact puts_pure
  · rw [if_neg h]
    exact puts_put run

theorem puts_repeatedLoop (byte : UInt8) : ∀ (fuel left : Nat), left ≤ fuel →
    Puts (O := O) (putRepeatedLoop byte fuel left) (List.replicate left byte)
  | _, 0, _ => by
    rw [putRepeatedLoop]
    exact puts_pure
  | 0, _ + 1, h => by omega
  | fuel + 1, left + 1, h => by
    rw [putRepeatedLoop]
    have hsplit : List.replicate (left + 1) byte =
        List.replicate (min (left + 1) 64) byte ++
          List.replicate (left + 1 - min (left + 1) 64) byte := by
      rw [List.replicate_append_replicate]
      congr 1
      omega
    rw [hsplit]
    exact (puts_put _).bind (puts_repeatedLoop byte fuel _ (by omega))

theorem puts_repeated (byte : UInt8) (count : Nat) :
    Puts (O := O) (putRepeated byte count) (List.replicate count byte) :=
  puts_repeatedLoop byte count count (Nat.le_refl _)

/-! ## Escaping -/

/-- A byte as it stands in a string. -/
def escapedByte (b : UInt8) : List UInt8 := if isPlainOut b then [b] else escapeOf b

/-- A text as it stands in a string. -/
def escaped (s : Text) : List UInt8 := (encode s).flatMap escapedByte

theorem puts_escapedLoop : ∀ (bytes run : List UInt8),
    Puts (O := O) (putEscapedLoop run bytes) (run ++ bytes.flatMap escapedByte)
  | [], run => by
    rw [putEscapedLoop, List.flatMap_nil, List.append_nil]
    exact puts_run run
  | b :: rest, run => by
    rw [putEscapedLoop, List.flatMap_cons]
    by_cases h : isPlainOut b = true
    · rw [if_pos h, escapedByte, if_pos h, ← List.append_assoc]
      exact puts_escapedLoop rest (run ++ [b])
    · rw [if_neg h, escapedByte, if_neg h]
      exact (puts_run run).bind ((puts_put _).bind (puts_escapedLoop rest []))

theorem puts_escaped (s : Text) : Puts (O := O) (putEscaped s) (escaped s) :=
  puts_escapedLoop (encode s) []

/-- A text in quotes. -/
def quoted (s : Text) : List UInt8 := [0x22] ++ (escaped s ++ [0x22])

theorem puts_quoted (s : Text) : Puts (O := O) (putQuoted s) (quoted s) :=
  (puts_put _).bind ((puts_escaped s).bind (puts_put _))

/-- The size of a byte once escaped is the one that `escaped_len` counts. -/
theorem length_escapedByte : ∀ b : UInt8, (escapedByte b).length = escapedByteLen b :=
  forall_byte (by decide +kernel)

theorem length_escaped (s : Text) : (escaped s).length = escapedLen s := by
  unfold escaped escapedLen
  rw [List.length_flatMap]
  simp only [length_escapedByte]

/-! ## What goes before a token -/

namespace Writer

/-- A newline and `depth` levels of indentation. -/
def newlineBytes (indent : IndentConfig) (depth : Nat) : List UInt8 :=
  [0x0A] ++ List.replicate (indent.indentCount * depth) indent.indentChar

/-- The newline and indentation that there is a depth and a configuration for. -/
def indentBytes : Option Nat → Option IndentConfig → List UInt8
  | some depth, some indent => newlineBytes indent depth
  | _, _ => []

/-- The bytes of a prefix. -/
def prefixBytes (w : Writer) (p : Prefix) : List UInt8 :=
  (if p.comma then [0x2C] else []) ++
    ((if p.space then [0x20] else []) ++ indentBytes p.newlineDepth w.indent)

theorem puts_if (c : Bool) (bytes : List UInt8) :
    Puts (O := O) (putIf c bytes) (if c then bytes else []) := by
  cases c
  · exact puts_pure
  · exact puts_put bytes

theorem puts_indent (depth : Option Nat) (indent : Option IndentConfig) :
    Puts (O := O) (putIndent depth indent) (indentBytes depth indent) := by
  cases depth with
  | none => exact puts_pure
  | some depth =>
    cases indent with
    | none => exact puts_pure
    | some indent => exact (puts_put _).bind (puts_repeated _ _)

theorem puts_prefix (w : Writer) (p : Prefix) :
    Puts (O := O) (w.putPrefix p) (w.prefixBytes p) :=
  (puts_if _ _).bind ((puts_if _ _).bind (puts_indent _ _))

omit [Out O] [LawfulOut O] in
/-- The prefix of a writer is as long as `prefix_len` says. It asks for indentation only where there
is a configuration for it. -/
theorem length_prefixBytes (w : Writer) :
    (w.prefixBytes w.valuePrefix).length = w.prefixLen w.valuePrefix := by
  obtain ⟨indent, state, depth⟩ := w
  cases indent with
  | none => cases state <;> rfl
  | some indent =>
    cases state <;> simp [prefixBytes, prefixLen, valuePrefix, indentBytes, newlineBytes] <;> omega

end Writer

/-! ## Tokens -/

theorem ensureRoom_eq (need : Nat) (what : String) (buf : LoopBuf) :
    ensureRoom need what buf =
      if need ≤ buf.spareLen then .ok () buf else .error (noRoom need what buf) buf := by
  show (if need ≤ buf.spareLen then
    (pure () : EStateM WriteStop LoopBuf Unit) else throw (noRoom need what buf)) buf = _
  split <;> rfl

/-- **A token that there is room for goes into the ring whole**, through the scratch or not. -/
theorem emit_eq {need : Nat} {body : {O : Type} → [Out O] → EStateM WriteStop O Unit}
    {bytes : List UInt8} {buf : LoopBuf} (hs : Puts (O := Scratch) body bytes)
    (hb : Puts (O := LoopBuf) body bytes) (hneed : need = bytes.length)
    (hroom : bytes.length ≤ buf.spareLen) :
    emit need body buf = .ok () (buf.extendFromSlice bytes) := by
  unfold emit
  by_cases hsmall : need ≤ scratchSize
  · have hfits : (Scratch.new.bytes ++ bytes).length ≤ scratchSize := by
      rw [Scratch.new, List.nil_append]; omega
    have hrun : body Scratch.new = .ok () ⟨_, hfits⟩ := by
      rw [hs Scratch.new (by show bytes.length ≤ scratchSize - 0; omega), Scratch.put_eq,
        dif_pos hfits]
    simp only [if_pos hsmall, hrun]
    rfl
  · rw [if_neg hsmall]
    exact hb buf hroom

/-- A token: its bytes, what it is in the error that there is no room for it, and the writer after
it. -/
structure Token where
  bytes : List UInt8
  what : String
  next : Writer

/-- A token is written whole, or it is not and nothing changes. -/
def Token.write (t : Token) (buf : LoopBuf) (w : Writer) :
    EStateM.Result WriteStop (LoopBuf × Writer) Unit :=
  if t.bytes.length ≤ buf.spareLen then .ok () (buf.extendFromSlice t.bytes, t.next)
  else .error (noRoom t.bytes.length t.what buf) (buf, w)

/-- What a method does that looks for room and emits a token. -/
theorem roomEmit_eq {need : Nat} {what : String}
    {body : {O : Type} → [Out O] → EStateM WriteStop O Unit} {bytes : List UInt8}
    {buf : LoopBuf} {w : Writer} (hs : Puts (O := Scratch) body bytes)
    (hb : Puts (O := LoopBuf) body bytes) (hneed : need = bytes.length) :
    (do
      zoom (ensureRoom need what)
      zoom (emit need body) : WriteM Unit) (buf, w) = Token.write ⟨bytes, what, w⟩ buf w := by
  have hroom := ensureRoom_eq need what buf
  unfold Token.write
  show EStateM.bind (zoom (ensureRoom need what)) (fun _ => zoom (emit need body)) (buf, w) = _
  by_cases hle : need ≤ buf.spareLen
  · rw [if_pos hle] at hroom
    have hemit : emit need body buf = .ok () (buf.extendFromSlice bytes) :=
      emit_eq hs hb hneed (by omega)
    rw [if_pos (by show bytes.length ≤ _; omega)]
    simp only [EStateM.bind, zoom, hroom, hemit]
  · rw [if_neg hle] at hroom
    rw [if_neg (by show ¬ bytes.length ≤ _; omega), ← hneed]
    simp only [EStateM.bind, zoom, hroom]

/-- **What a method does that goes on to another state behind its token.** -/
theorem write_eq {need : Nat} {what : String}
    {body : {O : Type} → [Out O] → EStateM WriteStop O Unit} {bytes : List UInt8}
    {update : WriteM Unit} {buf : LoopBuf} {w w' : Writer}
    (hs : Puts (O := Scratch) body bytes) (hb : Puts (O := LoopBuf) body bytes)
    (hneed : need = bytes.length) (hupdate : ∀ buf, update (buf, w) = .ok () (buf, w')) :
    (do
      zoom (ensureRoom need what)
      zoom (emit need body)
      update : WriteM Unit) (buf, w) = Token.write ⟨bytes, what, w'⟩ buf w := by
  have hemit : (do
      zoom (ensureRoom need what)
      zoom (emit need body) : WriteM Unit) (buf, w) = Token.write ⟨bytes, what, w⟩ buf w :=
    roomEmit_eq hs hb hneed
  rw [← bind_assoc]
  show EStateM.bind _ (fun _ => update) (buf, w) = _
  unfold EStateM.bind
  rw [hemit, Token.write, Token.write]
  by_cases hle : bytes.length ≤ buf.spareLen
  · rw [if_pos hle, if_pos hle]
    exact hupdate _
  · rw [if_neg hle, if_neg hle]

end RJsonParser
