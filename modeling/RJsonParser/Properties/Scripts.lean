import RJsonParser.Properties.NumberValues
import RJsonParser.Properties.WriterSessions

/-!
# Scripts

What a caller writes of one value, and that it is the text of that value.

* `Script` — a value, and whether each of its strings is written whole or in pieces
* `Script.written` — the bytes that are produced are those of a tree that denotes the value
-/

namespace RJsonParser

open Infra Infra.Utf8 Writer

variable {F : Type}

/-! ## Strings -/

/-- The two hex digits of a byte below a hundred. -/
theorem codeUnit_hexChar (b : UInt8) (l : List UInt8) :
    codeUnit (0x30 :: 0x30 :: hexChar (b >>> 4) :: hexChar (b &&& 0xF) :: l) = some b.toNat := by
  have key : ∀ b : UInt8, codeUnit [0x30, 0x30, hexChar (b >>> 4), hexChar (b &&& 0xF)] =
      some b.toNat := forall_byte (by decide +kernel)
  exact key b

theorem rawChar_short {x : UInt8} {c : Char} (hx : x ≠ 0x75) (h : shortEscape x = some c)
    (l : List UInt8) : rawChar (0x5C :: x :: l) = some (c, 2) := by
  show escapedChar (x :: l) = _
  rw [escapedChar, if_neg hx, h]
  rfl

/-- An escape stands for the byte it was made of. -/
theorem rawChar_escapeOf {b : UInt8} (h : isPlainOut b = false) (l : List UInt8) :
    rawChar (escapeOf b ++ l) = some (Char.ofNat b.toNat, (escapeOf b).length) := by
  unfold escapeOf
  split_ifs with h1 h2 h3 h4 h5 h6 h7
  case neg =>
    have hlt : b.toNat < 0x20 := by
      have key : ∀ b, isPlainOut b = false → b ≠ 0x22 → b ≠ 0x5C → b.toNat < 0x20 :=
        forall_byte (by decide +kernel)
      exact key b h h1 h2
    show (codeUnit (0x30 :: 0x30 :: hexChar (b >>> 4) :: hexChar (b &&& 0xF) :: l)).map
      (fun unit => unicodeChar unit l) = _
    have hnot : ¬ IsHighSurrogate b.toNat ∧ ¬ IsLowSurrogate b.toNat := by
      unfold IsHighSurrogate IsLowSurrogate
      omega
    rw [codeUnit_hexChar, Option.map_some, unicodeChar, if_neg hnot.1, if_neg hnot.2]
    rfl
  all_goals
    subst b
    exact rawChar_short (by decide) rfl l

/-- The bytes that are escaped are those that cannot stand in a string. -/
theorem isPlainOut_eq : ∀ b : UInt8, isPlainOut b = !isDelimiter b :=
  forall_byte (by decide +kernel)

/-- Plain bytes stand for themselves. -/
theorem escapedBytes_plain {l : List UInt8} (h : ∀ b ∈ l, isDelimiter b = false) :
    l.flatMap escapedByte = l := by
  induction l with
  | nil => rfl
  | cons b l ih =>
    have hb : isPlainOut b = true := by rw [isPlainOut_eq, h b List.mem_cons_self]; rfl
    rw [List.flatMap_cons, escapedByte, if_pos hb, ih fun x hx => h x (List.mem_cons_of_mem _ hx)]
    rfl

/-- A character that is escaped is one byte. -/
theorem encodeChar_escaped {c : Char} (h : ¬ ∀ b ∈ String.utf8EncodeChar c, isDelimiter b = false) :
    ∃ b, String.utf8EncodeChar c = [b] ∧ isPlainOut b = false ∧ Char.ofNat b.toNat = c := by
  have hlow : c.toNat ≤ 0x7F := by
    by_contra hhigh
    refine h fun b hb => not_isDelimiter.mpr ?_
    have := encodeChar_high (c := c) (by omega) b hb
    refine ⟨?_, ?_, ?_⟩
    · rintro rfl
      exact absurd this (by decide)
    · rintro rfl
      exact absurd this (by decide)
    · rw [UInt8.lt_iff_toNat_lt]
      exact Nat.not_lt.mpr (Nat.le_trans (by decide) this)
  rw [encodeChar_one hlow] at h ⊢
  have hb : (UInt8.ofNat c.toNat).toNat = c.toNat := toNat_byte (by omega)
  refine ⟨_, rfl, ?_, by rw [hb, Char.ofNat_toNat]⟩
  by_contra hp
  refine h fun b hmem => ?_
  obtain rfl := List.mem_singleton.mp hmem
  simpa [isPlainOut_eq] using hp

/-- **What is put for a text denotes it.** -/
theorem decodeString_escaped : ∀ s : Text, decodeString (escaped s) = some s
  | [] => rfl
  | c :: s => by
    have hcons : escaped (c :: s) = (String.utf8EncodeChar c).flatMap escapedByte ++ escaped s := by
      rw [escaped, encode_cons, List.flatMap_append]
      rfl
    rw [hcons]
    by_cases hp : ∀ b ∈ String.utf8EncodeChar c, isDelimiter b = false
    · have hc : encode [c] = String.utf8EncodeChar c := by simp [encode]
      rw [escapedBytes_plain hp, ← hc, decodeString_encode_append (by rw [hc]; exact hp),
        decodeString_escaped s]
      rfl
    · obtain ⟨b, hb, hplain, hof⟩ := encodeChar_escaped hp
      have hesc : [b].flatMap escapedByte = escapeOf b := by
        rw [List.flatMap_singleton, escapedByte, if_neg (by simp [hplain])]
      have hraw := rawChar_escapeOf hplain (escaped s)
      rw [hb, hesc, decodeString_of_rawChar hraw, List.drop_left, decodeString_escaped s, hof]
      rfl

/-- A text as it stands between quotes. -/
def rawOf (s : Text) : RawString := ⟨escaped s, s, decodeString_escaped s⟩

/-! ## Values and their calls -/

/-- A value as a caller writes it. A string is written whole or in pieces. -/
inductive Script (F : Type) where
  | null
  | boolean (value : Bool)
  | number (value : Number F)
  | string (value : Text)
  | pieces (contents : List Text)
  | array (items : List (Script F))
  | object (members : List (Text × Script F))

mutual

/-- The calls that write a value. -/
def Script.calls : Script F → List (WriteCall F)
  | .null => [.null]
  | .boolean value => [.boolean value]
  | .number value => [.number value]
  | .string value => [.string value]
  | .pieces contents => .startString :: contents.map .stringContent ++ [.endString]
  | .array items => .startArray :: callsAll items ++ [.endArray]
  | .object members => .startObject :: callsMembers members ++ [.endObject]

def Script.callsAll : List (Script F) → List (WriteCall F)
  | [] => []
  | x :: xs => x.calls ++ callsAll xs

def Script.callsMembers : List (Text × Script F) → List (WriteCall F)
  | [] => []
  | (k, x) :: ms => .key k :: x.calls ++ callsMembers ms

end

/-- The events that a call stands for. -/
def WriteCall.events : WriteCall F → List (Event F)
  | .startObject => [.startObject]
  | .endObject => [.endObject]
  | .startArray => [.startArray]
  | .endArray => [.endArray]
  | .key k => [.key k]
  | .string s => [.startStringValue, .stringValueContent s, .endStringValue]
  | .startString => [.startStringValue]
  | .stringContent s => [.stringValueContent s]
  | .endString => [.endStringValue]
  | .number v => [.numberValue v]
  | .numberStr s => [.numberValue (.bigInt s)]
  | .i32 v => [.numberValue (.i32 v)]
  | .i64 v => [.numberValue (.i64 v)]
  | .f64 v => [.numberValue (.f64 v)]
  | .boolean v => [.booleanValue v]
  | .null => [.nullValue]

/-- The events that some calls stand for. -/
def reported (calls : List (WriteCall F)) : List (Event F) := calls.flatMap WriteCall.events

theorem reported_cons (c : WriteCall F) (cs : List (WriteCall F)) :
    reported (c :: cs) = c.events ++ reported cs := rfl

theorem reported_append (cs ds : List (WriteCall F)) :
    reported (cs ++ ds) = reported cs ++ reported ds := List.flatMap_append

theorem reported_contents (contents : List Text) :
    reported (contents.map (WriteCall.stringContent (F := F))) =
      contents.map .stringValueContent := by
  induction contents with
  | nil => rfl
  | cons s contents ih =>
    rw [List.map_cons, reported_cons, ih]
    rfl

/-! ## The text of a value -/

section Written

variable [DoubleText F]

/-- The number has a text, which is a number of the grammar. -/
def Number.Readable (v : Number F) : Prop := ∃ l, v.bytes = some l ∧ IsNumber l

/-- The number that the text of a number denotes. -/
def Number.reread [Double F] (v : Number F) : Number F := numberOf (v.bytes.getD [])

/-- The same event with the number that is read back. -/
def Event.reread [Double F] : Event F → Event F
  | .numberValue v => .numberValue v.reread
  | e => e

/-- A writer behind a value. -/
def Writer.behind (w : Writer) : Writer := { w with state := .afterValue }

/-- The calls put `bytes` and leave the writer as `w'`. -/
def Writes (calls : List (WriteCall F)) (w : Writer) (bytes : List UInt8) (w' : Writer) : Prop :=
  produced calls w = some (bytes, w')

section Rules

variable {cs ds : List (WriteCall F)} {w w₁ w' : Writer} {a b : List UInt8}

theorem Writes.nil (w : Writer) : Writes ([] : List (WriteCall F)) w [] w := rfl

theorem Writes.append (h : Writes cs w a w₁) (h' : Writes ds w₁ b w') :
    Writes (cs ++ ds) w (a ++ b) w' := by
  induction cs generalizing w a with
  | nil =>
    obtain ⟨rfl, rfl⟩ := Prod.mk.inj (Option.some.inj h)
    exact h'
  | cons c cs ih =>
    obtain ⟨⟨x, w₂⟩, hc, hq⟩ := Option.bind_eq_some_iff.mp (show (c.whole w).bind _ = _ from h)
    obtain ⟨⟨y, w₃⟩, hy, heq⟩ := Option.map_eq_some_iff.mp hq
    obtain ⟨rfl, rfl⟩ := Prod.mk.inj heq
    have hrest : produced (cs ++ ds) w₂ = some (y ++ b, w') := ih hy
    rw [Writes, List.cons_append, produced, hc, Option.bind_some, hrest, List.append_assoc]
    rfl

/-- One call. -/
theorem Writes.one {c : WriteCall F} (h : c.whole w = some (a, w')) : Writes [c] w a w' := by
  rw [Writes, produced, h]
  simp [produced]

/-- Pieces of content. -/
theorem Writes.contents (contents : List Text) (w : Writer) :
    Writes (F := F) (contents.map .stringContent) w (escaped contents.flatten) w := by
  induction contents with
  | nil => rfl
  | cons s contents ih =>
    have hone : Writes [(.stringContent s : WriteCall F)] w (escaped s) w := Writes.one rfl
    rw [List.flatten_cons, escaped_append]
    exact hone.append ih

end Rules

namespace Writer

theorem indentBytes_ws (depth : Option Nat) (indent : Option IndentConfig) :
    ∃ pad : Ws, indentBytes depth indent = pad.1 := by
  cases depth with
  | none => exact ⟨⟨[], by simp⟩, rfl⟩
  | some depth =>
    cases indent with
    | none => exact ⟨⟨[], by simp⟩, rfl⟩
    | some indent =>
      refine ⟨⟨newlineBytes indent depth, fun b hb => ?_⟩, rfl⟩
      rcases List.mem_cons.mp hb with rfl | hb
      · rfl
      · rw [List.eq_of_mem_replicate hb]
        rcases indent.char_ok with h | h <;> rw [h] <;> rfl

/-- Behind a value comes a comma first. -/
theorem lead_behind (w : Writer) : ∃ pad : Ws, w.behind.lead = 0x2C :: pad.1 := by
  obtain ⟨indent, state, depth⟩ := w
  cases indent with
  | none => exact ⟨⟨[], by simp⟩, rfl⟩
  | some indent =>
    obtain ⟨pad, h⟩ := indentBytes_ws (some depth) (some indent)
    exact ⟨pad, by rw [← h]; rfl⟩

/-- Elsewhere there is only whitespace in front of a value. -/
theorem lead_ws {w : Writer} (h : w.state ≠ .afterValue) : ∃ pad : Ws, w.lead = pad.1 := by
  obtain ⟨indent, state, depth⟩ := w
  cases indent with
  | none =>
    refine ⟨⟨[], by simp⟩, ?_⟩
    cases state <;> first | rfl | exact absurd rfl h
  | some indent =>
    cases state with
    | init0 => exact ⟨⟨[], by simp⟩, rfl⟩
    | init =>
      obtain ⟨pad, hpad⟩ := indentBytes_ws (some depth) (some indent)
      exact ⟨pad, by rw [← hpad]; rfl⟩
    | afterKey => exact ⟨⟨[0x20], by simp [isWs]⟩, rfl⟩
    | afterValue => exact absurd rfl h

/-- A bracket that closes has whitespace in front of it. -/
theorem closing_ws (w : Writer) (bracket : UInt8) :
    ∃ pad : Ws, (w.closing bracket).bytes = pad.1 ++ [bracket] := by
  obtain ⟨pad, h⟩ := indentBytes_ws (some (w.depth - 1)) w.indent
  exact ⟨pad, by rw [← h]; rfl⟩

/-- A writer behind the bracket that opens a container. -/
def inside (w : Writer) : Writer := { w with state := .init, depth := w.depth + 1 }

/-- A writer behind a key. -/
def behindKey (w : Writer) : Writer := { w with state := .afterKey }

end Writer

section Rules

variable {cs : List (WriteCall F)} {w : Writer} {b : List UInt8}

/-- The call that opens a container. -/
def openCall : Context → WriteCall F
  | .array => .startArray
  | .object => .startObject

/-- The call that closes it. -/
def closeCall : Context → WriteCall F
  | .array => .endArray
  | .object => .endObject

/-- A container, whose items leave the writer behind a value or where they started. -/
theorem Writes.container (kind : Context) {w' : Writer} (h : Writes cs w.inside b w')
    (hw' : w' = w.inside ∨ w' = w.inside.behind) :
    ∃ pad : Ws, Writes (openCall kind :: cs ++ [closeCall kind]) w
      (w.lead ++ kind.openByte :: (b ++ pad.1 ++ [kind.closeByte])) w.behind := by
  obtain ⟨pad, hpad⟩ := w'.closing_ws kind.closeByte
  have hopen : Writes [(openCall kind : WriteCall F)] w (w.lead ++ [kind.openByte]) w.inside := by
    cases kind <;> exact Writes.one rfl
  have hclose :
      Writes [(closeCall kind : WriteCall F)] w' (pad.1 ++ [kind.closeByte]) w.behind := by
    have hnext : (w'.closing kind.closeByte).next = w.behind := by
      rcases hw' with rfl | rfl <;> rfl
    rw [← hpad, ← hnext]
    cases kind <;> exact Writes.one rfl
  refine ⟨pad, ?_⟩
  have hall := hopen.append (h.append hclose)
  simpa using hall

/-- A key and a value behind it. -/
theorem Writes.member (k : Text) {w' : Writer}
    (h : Writes cs w.behindKey (w.behindKey.lead ++ b) w') :
    ∃ pad : Ws, Writes (.key k :: cs) w (w.lead ++ (rawOf k).bytes ++ [0x3A] ++ pad.1 ++ b) w' := by
  obtain ⟨pad, hpad⟩ := Writer.lead_ws (w := w.behindKey) (by simp [Writer.behindKey])
  have hkey :
      Writes [(.key k : WriteCall F)] w (w.lead ++ ((rawOf k).bytes ++ [0x3A])) w.behindKey :=
    Writes.one rfl
  refine ⟨pad, ?_⟩
  have hall := hkey.append h
  rw [hpad] at hall
  simpa using hall

end Rules

omit [DoubleText F] in
/-- Pieces of content spelled out by characters. -/
theorem explode_contents (contents : List Text) :
    explode (contents.map (Event.stringValueContent (F := F))) = contentOf contents.flatten := by
  induction contents with
  | nil => rfl
  | cons s contents ih =>
    rw [List.map_cons, explode_cons, ih, List.flatten_cons, contentOf, contentOf, List.map_append]
    rfl

variable [Double F]

/-- What is read back of what some calls write, content spelled out by characters. -/
def readBack (calls : List (WriteCall F)) : List (Event F) :=
  explode ((reported calls).map Event.reread)

theorem readBack_append (cs ds : List (WriteCall F)) :
    readBack (cs ++ ds) = readBack cs ++ readBack ds := by
  rw [readBack, reported_append, List.map_append, explode_append]
  rfl

theorem readBack_cons (c : WriteCall F) (cs : List (WriteCall F)) :
    readBack (c :: cs) = readBack [c] ++ readBack cs := readBack_append [c] cs

theorem readBack_contents (contents : List Text) :
    readBack (contents.map (WriteCall.stringContent (F := F))) = contentOf contents.flatten := by
  rw [readBack, reported_contents, List.map_map, ← explode_contents]
  rfl

mutual

/-- **What the calls of a value put** is the text of a tree. The tree has their events, with the
numbers as they are read back, and their keys. -/
theorem Script.written : ∀ (x : Script F), (∀ v, .number v ∈ x.calls → v.Readable) →
    ∀ w : Writer, ∃ t : Tree, Writes x.calls w (w.lead ++ t.bytes) w.behind ∧
      explode t.denote.traverse = readBack x.calls ∧
      ∀ k ∈ t.keys, .key k.text ∈ x.calls
  | .null, _, w => ⟨.null, Writes.one rfl, rfl, by simp [Tree.keys]⟩
  | .boolean value, _, w => by
    refine ⟨.boolean value, ?_, rfl, by simp [Tree.keys]⟩
    cases value <;> exact Writes.one rfl
  | .number v, hx, w => by
    obtain ⟨l, hl, hn⟩ := hx v (by simp [Script.calls])
    refine ⟨.number ⟨l, hn⟩, Writes.one ?_, ?_, by simp [Tree.keys]⟩
    · show ((v.bytes.map (w.value · "number")).map fun t => (t.bytes, t.next)) = _
      rw [hl]
      rfl
    · simp [Tree.denote, Json.traverse, Script.calls, readBack, reported, WriteCall.events,
        Event.reread, Number.reread, hl]
  | .string s, _, w => by
    refine ⟨.string (rawOf s), Writes.one rfl, ?_, by simp [Tree.keys]⟩
    simp [Tree.denote, Json.traverse, Script.calls, readBack, reported, WriteCall.events,
      Event.reread, explode_append, explode_pieces, rawOf, contentOf, Event.explode]
  | .pieces contents, _, w => by
    have hopen : Writes [(.startString : WriteCall F)] w (w.lead ++ [0x22]) w := Writes.one rfl
    have hclose : Writes [(.endString : WriteCall F)] w [0x22] w.behind := Writes.one rfl
    have hall := hopen.append ((Writes.contents contents w).append hclose)
    refine ⟨.string (rawOf contents.flatten), ?_, ?_, by simp [Tree.keys]⟩
    · simpa [Script.calls, Tree.bytes, RawString.bytes, rawOf, quote] using hall
    · show explode (Event.startStringValue ::
        (piecesOf contents.flatten).map Event.stringValueContent ++ [Event.endStringValue]) =
          readBack (.startString :: contents.map .stringContent ++ [.endString])
      rw [readBack_append, readBack_cons, readBack_contents, explode_append, explode_cons,
        explode_pieces]
      rfl
  | .array [], _, w => by
    obtain ⟨pad, h⟩ := Writes.container (F := F) .array (Writes.nil w.inside) (.inl rfl)
    exact ⟨.emptyArray pad, h, rfl, by simp [Tree.keys]⟩
  -- each later item ends the whitespace of the one before it, and `pad` that of the last
  | .array (x :: xs), hx, w => by
    have hx' : ∀ v, .number v ∈ x.calls ++ Script.callsAll xs → v.Readable := fun v hv =>
      hx v (List.mem_cons_of_mem _ (List.mem_append_left _ hv))
    obtain ⟨t, ht, hev, hk⟩ := x.written (fun v hv => hx' v (by simp [hv])) w.inside
    obtain ⟨bytes, hbytes, hrest⟩ :=
      Script.written_all xs (fun v hv => hx' v (by simp [hv])) w.inside
    obtain ⟨before, hbefore⟩ := Writer.lead_ws (w := w.inside) (by simp [Writer.inside])
    obtain ⟨pad, h⟩ := Writes.container .array (ht.append hbytes) (.inr rfl)
    obtain ⟨after, rest, heq, hevs, hks⟩ := hrest pad
    refine ⟨.array (before, t, after) rest, ?_, ?_, ?_⟩
    · have hb : w.inside.lead ++ t.bytes ++ bytes ++ pad.1 =
          Tree.itemBytes (before, t, after) ++ Tree.restBytes rest := by
        rw [hbefore, List.append_assoc, heq]
        simp [Tree.itemBytes]
      rw [hb] at h
      exact h
    · show explode (Event.startArray ::
        (t.denote.traverse ++ Json.traverseAll (Tree.denoteRest rest)) ++ [Event.endArray]) =
          readBack (.startArray :: (x.calls ++ Script.callsAll xs) ++ [.endArray])
      rw [readBack_append, readBack_cons, readBack_append, ← hev, ← hevs, explode_append,
        explode_cons, explode_append]
      rfl
    · intro k hk'
      rcases List.mem_append.mp hk' with hk' | hk'
      · have := hk k hk'
        simp [Script.calls, Script.callsAll, this]
      · have := hks k hk'
        simp [Script.calls, Script.callsAll, this]
  | .object [], _, w => by
    obtain ⟨pad, h⟩ := Writes.container (F := F) .object (Writes.nil w.inside) (.inl rfl)
    exact ⟨.emptyObject pad, h, rfl, by simp [Tree.keys]⟩
  | .object ((name, x) :: ms), hx, w => by
    have hx' : ∀ v, .number v ∈ x.calls ++ Script.callsMembers ms → v.Readable := fun v hv =>
      hx v (List.mem_cons_of_mem _ (List.mem_append_left _ (List.mem_cons_of_mem _ hv)))
    obtain ⟨t, ht, hev, hk⟩ := x.written (fun v hv => hx' v (by simp [hv])) w.inside.behindKey
    obtain ⟨bytes, hbytes, hrest⟩ :=
      Script.written_members ms (fun v hv => hx' v (by simp [hv])) w.inside
    obtain ⟨before, hbefore⟩ := Writer.lead_ws (w := w.inside) (by simp [Writer.inside])
    -- the writer puts its space behind the colon, so it is whitespace before the value
    obtain ⟨pad', hm⟩ := ht.member name
    obtain ⟨pad, h⟩ := Writes.container .object (hm.append hbytes) (.inr rfl)
    obtain ⟨after, rest, heq, hevs, hks⟩ := hrest pad
    refine ⟨.object ((before, rawOf name, ⟨[], by simp⟩), pad', t, after) rest, ?_, ?_, ?_⟩
    · have hb : w.inside.lead ++ (rawOf name).bytes ++ [0x3A] ++ pad'.1 ++ t.bytes ++
          bytes ++ pad.1 = Tree.memberBytes ((before, rawOf name, ⟨[], by simp⟩), pad', t, after) ++
            Tree.membersBytes rest := by
        rw [hbefore, List.append_assoc, heq]
        simp [Tree.memberBytes, labelBytes]
      rw [hb] at h
      exact h
    · show explode (Event.startObject :: (Event.key name :: t.denote.traverse ++
        Json.traverseMembers (Tree.denoteMembers rest)) ++ [Event.endObject]) =
          readBack (.startObject :: (.key name :: x.calls ++ Script.callsMembers ms) ++
            [.endObject])
      rw [readBack_append, readBack_cons, readBack_append, readBack_cons (.key name), ← hev, ← hevs,
        explode_append, explode_cons, explode_append, explode_cons]
      rfl
    · intro k hk'
      rcases List.mem_cons.mp hk' with rfl | hk'
      · simp [Script.calls, Script.callsMembers, rawOf]
      · rcases List.mem_append.mp hk' with hk' | hk'
        · have := hk k hk'
          simp [Script.calls, Script.callsMembers, this]
        · have := hks k hk'
          simp [Script.calls, Script.callsMembers, this]

/-- Further elements, and the whitespace that follows them. -/
theorem Script.written_all : ∀ (xs : List (Script F)),
    (∀ v, .number v ∈ Script.callsAll xs → v.Readable) → ∀ w : Writer, ∃ bytes,
      Writes (Script.callsAll xs) w.behind bytes w.behind ∧ ∀ pad : Ws, ∃ after : Ws, ∃ rest,
        bytes ++ pad.1 = after.1 ++ Tree.restBytes rest ∧
        explode (Json.traverseAll (Tree.denoteRest rest)) =
          readBack (Script.callsAll xs) ∧
        ∀ k ∈ Tree.keysRest rest, .key k.text ∈ Script.callsAll xs
  | [], _, w => ⟨[], Writes.nil _, fun pad => ⟨pad, [], by simp [Tree.restBytes], rfl, by
      simp [Tree.keysRest]⟩⟩
  | x :: xs, hx, w => by
    obtain ⟨t, ht, hev, hk⟩ := x.written (fun v hv => hx v (List.mem_append_left _ hv)) w.behind
    obtain ⟨bytes, hbytes, hrest⟩ :=
      Script.written_all xs (fun v hv => hx v (List.mem_append_right _ hv)) w
    obtain ⟨before, hbefore⟩ := w.lead_behind
    refine ⟨_, ht.append hbytes, fun pad => ?_⟩
    obtain ⟨after, rest, heq, hevs, hks⟩ := hrest pad
    refine ⟨⟨[], by simp⟩, (before, t, after) :: rest, ?_, ?_, ?_⟩
    · rw [hbefore, List.append_assoc, heq]
      simp [Tree.restBytes, Tree.itemBytes]
    · show explode (t.denote.traverse ++ Json.traverseAll (Tree.denoteRest rest)) =
        readBack (x.calls ++ Script.callsAll xs)
      rw [readBack_append, explode_append, hev, hevs]
    · intro k hk'
      rcases List.mem_append.mp hk' with hk' | hk'
      · exact List.mem_append_left _ (hk k hk')
      · exact List.mem_append_right _ (hks k hk')

/-- Further members, likewise. -/
theorem Script.written_members : ∀ (ms : List (Text × Script F)),
    (∀ v, .number v ∈ Script.callsMembers ms → v.Readable) → ∀ w : Writer, ∃ bytes,
      Writes (Script.callsMembers ms) w.behind bytes w.behind ∧ ∀ pad : Ws, ∃ after : Ws, ∃ rest,
        bytes ++ pad.1 = after.1 ++ Tree.membersBytes rest ∧
        explode (Json.traverseMembers (Tree.denoteMembers rest)) =
          readBack (Script.callsMembers ms) ∧
        ∀ k ∈ Tree.keysMembers rest, .key k.text ∈ Script.callsMembers ms
  | [], _, w => ⟨[], Writes.nil _, fun pad => ⟨pad, [], by simp [Tree.membersBytes], rfl, by
      simp [Tree.keysMembers]⟩⟩
  | (name, x) :: ms, hx, w => by
    have hx' : ∀ v, .number v ∈ x.calls ++ Script.callsMembers ms → v.Readable := fun v hv =>
      hx v (List.mem_cons_of_mem _ hv)
    obtain ⟨t, ht, hev, hk⟩ := x.written (fun v hv => hx' v (by simp [hv])) w.behind.behindKey
    obtain ⟨bytes, hbytes, hrest⟩ :=
      Script.written_members ms (fun v hv => hx' v (by simp [hv])) w
    obtain ⟨before, hbefore⟩ := w.lead_behind
    obtain ⟨pad', hm⟩ := ht.member name
    refine ⟨_, hm.append hbytes, fun pad => ?_⟩
    obtain ⟨after, rest, heq, hevs, hks⟩ := hrest pad
    refine ⟨⟨[], by simp⟩, ((before, rawOf name, ⟨[], by simp⟩), pad', t, after) :: rest,
      ?_, ?_, ?_⟩
    · rw [hbefore, List.append_assoc, heq]
      simp [Tree.membersBytes, Tree.memberBytes, labelBytes]
    · show explode (Event.key name :: t.denote.traverse ++
        Json.traverseMembers (Tree.denoteMembers rest)) =
          readBack (.key name :: x.calls ++ Script.callsMembers ms)
      rw [readBack_append, readBack_cons, ← hev, ← hevs, explode_append, explode_cons]
      rfl
    · intro k hk'
      rcases List.mem_cons.mp hk' with rfl | hk'
      · exact List.mem_cons_self
      · refine List.mem_cons_of_mem _ ?_
        rcases List.mem_append.mp hk' with hk' | hk'
        · exact List.mem_append_left _ (hk k hk')
        · exact List.mem_append_right _ (hks k hk')

end

end Written

/-! ## Integers -/

theorem digitByte_spec {d : Nat} (h : d < 10) :
    isDigit (digitByte d) = true ∧ (digitOf (digitByte d)).toNat = d ∧
      (digitByte d = 0x30 ↔ d = 0) := by
  have key : ∀ d < 10, isDigit (digitByte d) = true ∧ (digitOf (digitByte d)).toNat = d ∧
      (digitByte d = 0x30 ↔ d = 0) := by decide
  exact key d h

theorem digitsOf_digitByte {ds : List Nat} (h : ∀ d ∈ ds, d < 10) :
    digitsOf (ds.map digitByte) = ds := by
  rw [digitsOf, List.map_map]
  refine (List.map_congr_left fun d hd => ?_).trans (List.map_id ds)
  exact (digitByte_spec (h d hd)).2.1

/-- The decimal form of an integer is an integer of the grammar. -/
theorem IsDecimalOf.parts {v : Int} {bytes : List UInt8} (h : IsDecimalOf v bytes) :
    ∃ minus int, (minus = [] ∨ minus = [0x2D]) ∧ IsInt int ∧ bytes = minus ++ int ∧
      integerOf minus int = v := by
  obtain ⟨ds, rfl, hds, hvalue, hne, hhead⟩ := h
  refine ⟨if v < 0 then [0x2D] else [], ds.map digitByte, ?_, ?_, rfl, ?_⟩
  · split
    · exact .inr rfl
    · exact .inl rfl
  · cases ds with
    | nil => exact absurd rfl hne
    | cons d ds =>
      obtain ⟨hd, -, hz⟩ := digitByte_spec (hds d List.mem_cons_self)
      by_cases h0 : d = 0
      · subst h0
        obtain rfl := (List.cons.inj (hhead rfl)).2
        exact .inl rfl
      · refine .inr ⟨digitByte d, ds.map digitByte, rfl, hd, mt hz.mp h0, fun b hb => ?_⟩
        obtain ⟨e, he, rfl⟩ := List.mem_map.mp hb
        exact (digitByte_spec (hds e (List.mem_cons_of_mem _ he))).1
  · rw [integerOf, digitsOf_digitByte hds, hvalue]
    by_cases hv : v < 0
    · rw [if_pos hv, if_neg (by simp)]
      omega
    · rw [if_neg hv, if_pos rfl]
      omega

section Integers

variable {minus int : List UInt8}

theorem isNumber_integer (hm : minus = [] ∨ minus = [0x2D]) (hi : IsInt int) :
    IsNumber (minus ++ int) := ⟨minus, int, [], [], by simp, hm, hi, .inl rfl, .inl rfl⟩

theorem encode_integer (hm : minus = [] ∨ minus = [0x2D]) (hi : IsInt int) :
    encode ((minus ++ int).map byteChar) = minus ++ int := by
  refine encode_ascii fun b hb => ?_
  rcases List.mem_append.mp hb with hb | hb
  · rcases hm with rfl | rfl
    · cases hb
    · rw [List.mem_singleton.mp hb]
      decide
  · have hd := isDigit_of_isInt hi b hb
    have := digit_lt hd
    rw [toNat_digit hd]
    omega

theorem natAbs_integerOf (minus int : List UInt8) :
    (integerOf minus int).natAbs = Decimal.value 0 (digitsOf int) := by
  unfold integerOf
  split <;> simp

/-- The number is the integer `v`, of its type or written as an integer of the grammar. -/
def Number.IsInteger (v : Int) : Number F → Prop
  | .i32 w => w = v ∧ -2 ^ 31 ≤ v ∧ v < 2 ^ 31
  | .i64 w => w = v ∧ -2 ^ 63 ≤ v ∧ v < 2 ^ 63
  | .f64 _ => False
  | .bigInt digits => ∃ minus int, (minus = [] ∨ minus = [0x2D]) ∧ IsInt int ∧
      encode digits = minus ++ int ∧ integerOf minus int = v

theorem Number.IsInteger.ranged {n : Number F} {v : Int} (h : n.IsInteger v) : n.Ranged := by
  cases n with
  | i32 w => exact h.1 ▸ h.2
  | i64 w => exact h.1 ▸ h.2
  | f64 x => trivial
  | bigInt digits => trivial

/-- The text of an integer. -/
theorem Number.IsInteger.text [DoubleText F] {n : Number F} {v : Int} (h : n.IsInteger v) :
    ∃ minus int, (minus = [] ∨ minus = [0x2D]) ∧ IsInt int ∧ n.bytes = some (minus ++ int) ∧
      integerOf minus int = v := by
  have decimal (w : Int) (hmin : -2 ^ 63 ≤ w) (hmax : w < 2 ^ 63) : ∃ minus int,
      (minus = [] ∨ minus = [0x2D]) ∧ IsInt int ∧ decimalBytes w = minus ++ int ∧
        integerOf minus int = w := by
    obtain ⟨bytes, -, hd⟩ := i64Digits_spec hmin hmax
    obtain ⟨minus, int, hm, hi, heq, hv⟩ := hd.parts
    exact ⟨minus, int, hm, hi, hd.eq ▸ heq, hv⟩
  cases n with
  | i32 w =>
    obtain ⟨rfl, hmin, hmax⟩ := h
    obtain ⟨minus, int, hm, hi, heq, hv⟩ := decimal w (by omega) (by omega)
    exact ⟨minus, int, hm, hi, congrArg some heq, hv⟩
  | i64 w =>
    obtain ⟨rfl, hmin, hmax⟩ := h
    obtain ⟨minus, int, hm, hi, heq, hv⟩ := decimal w hmin hmax
    exact ⟨minus, int, hm, hi, congrArg some heq, hv⟩
  | f64 x => exact h.elim
  | bigInt digits =>
    obtain ⟨minus, int, hm, hi, heq, hv⟩ := h
    exact ⟨minus, int, hm, hi, congrArg some heq, hv⟩

variable [Double F]

/-- **An integer is read with its value.** -/
theorem numberOf_isInteger (hm : minus = [] ∨ minus = [0x2D]) (hi : IsInt int) :
    (numberOf (F := F) (minus ++ int)).IsInteger (integerOf minus int) := by
  have text : (Number.bigInt ((minus ++ int).map byteChar) : Number F).IsInteger
      (integerOf minus int) := ⟨minus, int, hm, hi, encode_integer hm hi, rfl⟩
  rw [numberOf_integer_eq hm hi]
  split
  · exact text
  · unfold narrowest
    split
    · next h => exact ⟨rfl, h⟩
    · split
      · next h => exact ⟨rfl, h⟩
      · exact text

variable [DoubleText F]

omit [Double F] in
theorem Number.IsInteger.readable {n : Number F} {v : Int} (h : n.IsInteger v) : n.Readable := by
  obtain ⟨minus, int, hm, hi, heq, -⟩ := h.text
  exact ⟨_, heq, isNumber_integer hm hi⟩

/-- **An integer that is written is read back as the same integer.** -/
theorem Number.IsInteger.reread {n : Number F} {v : Int} (h : n.IsInteger v) :
    n.reread.IsInteger v := by
  obtain ⟨minus, int, hm, hi, heq, rfl⟩ := h.text
  rw [Number.reread, heq]
  exact numberOf_isInteger hm hi

/-- An integer that was read is written and read back as the same number. -/
theorem reread_numberOf (hm : minus = [] ∨ minus = [0x2D]) (hi : IsInt int) :
    (numberOf (F := F) (minus ++ int)).reread = numberOf (minus ++ int) := by
  by_cases hbig : i64Max < Decimal.value 0 (digitsOf int)
  · have heq := numberOf_integer_eq (F := F) hm hi
    rw [if_pos hbig] at heq
    rw [heq]
    show numberOf (encode _) = _
    rw [encode_integer hm hi, heq]
  · obtain ⟨minus', int', hm', hi', htext, hv⟩ := (numberOf_isInteger (F := F) hm hi).text
    have habs := natAbs_integerOf minus int
    have habs' := natAbs_integerOf minus' int'
    rw [hv, habs] at habs'
    rw [Number.reread, htext, Option.getD_some, numberOf_integer_eq hm' hi', ← habs', if_neg hbig,
      numberOf_integer_eq hm hi, if_neg hbig, hv]
    unfold i64Max at hbig
    have hin : -2 ^ 63 ≤ integerOf minus int ∧ integerOf minus int < 2 ^ 63 := by omega
    rw [narrowest, narrowest, if_pos hin, if_pos hin]

end Integers

/-! ## The calls of a value -/

mutual

/-- The integers among the arguments of the calls are of their types if those of the numbers are. -/
theorem Script.ranged : ∀ (x : Script F), (∀ v, .number v ∈ x.calls → v.Ranged) →
    ∀ c ∈ x.calls, c.Ranged
  | .null, _, c, hc => by
    rw [List.mem_singleton.mp hc]
    trivial
  | .boolean _, _, c, hc => by
    rw [List.mem_singleton.mp hc]
    trivial
  | .number v, hx, c, hc => by
    rw [List.mem_singleton.mp hc]
    exact hx v List.mem_cons_self
  | .string _, _, c, hc => by
    rw [List.mem_singleton.mp hc]
    trivial
  | .pieces contents, _, c, hc => by
    simp only [Script.calls, List.cons_append, List.mem_cons, List.mem_append, List.mem_map,
      List.not_mem_nil, or_false] at hc
    obtain rfl | ⟨s, -, rfl⟩ | rfl := hc <;> trivial
  | .array xs, hx, c, hc => by
    simp only [Script.calls, List.cons_append, List.mem_cons, List.mem_append,
      List.not_mem_nil, or_false] at hc hx
    obtain rfl | hc | rfl := hc
    · trivial
    · exact Script.ranged_all xs (fun v hv => hx v (.inr (.inl hv))) c hc
    · trivial
  | .object ms, hx, c, hc => by
    simp only [Script.calls, List.cons_append, List.mem_cons, List.mem_append,
      List.not_mem_nil, or_false] at hc hx
    obtain rfl | hc | rfl := hc
    · trivial
    · exact Script.ranged_members ms (fun v hv => hx v (.inr (.inl hv))) c hc
    · trivial

theorem Script.ranged_all : ∀ (xs : List (Script F)),
    (∀ v, .number v ∈ Script.callsAll xs → v.Ranged) → ∀ c ∈ Script.callsAll xs, c.Ranged
  | [], _, _, hc => by cases hc
  | x :: xs, hx, c, hc => by
    rcases List.mem_append.mp hc with hc | hc
    · exact x.ranged (fun v hv => hx v (List.mem_append_left _ hv)) c hc
    · exact Script.ranged_all xs (fun v hv => hx v (List.mem_append_right _ hv)) c hc

theorem Script.ranged_members : ∀ (ms : List (Text × Script F)),
    (∀ v, .number v ∈ Script.callsMembers ms → v.Ranged) → ∀ c ∈ Script.callsMembers ms, c.Ranged
  | [], _, _, hc => by cases hc
  | (k, x) :: ms, hx, c, hc => by
    simp only [Script.callsMembers, List.cons_append, List.mem_cons, List.mem_append] at hc hx
    obtain rfl | hc | hc := hc
    · trivial
    · exact x.ranged (fun v hv => hx v (.inr (.inl hv))) c hc
    · exact Script.ranged_members ms (fun v hv => hx v (.inr (.inr hv))) c hc

end

end RJsonParser
