import RJsonParser.Properties.Echo

/-!
# Indentation

What a writer that indents puts besides what one puts that does not.

* `JsonToken` — what a text of JSON is made of
* `Spaced` — the text of some tokens with indentation between them
* `Script.indents` — a value is the same tokens with indentation and without
* `indentation_only` — that is all that indentation does
* `round_trip_indented` — what is written is read back with any indentation or none
-/

namespace RJsonParser

open Infra Infra.Utf8 Writer

variable {F : Type}

/-! ## Tokens -/

/-- What a text of JSON is made of. -/
inductive JsonToken where
  | comma
  | colon
  | opening (context : Context)
  | closing (context : Context)
  | literal (value : Option Bool)
  | number (n : NumberText)
  | string (s : RawString)

namespace JsonToken

/-- The bytes of a token. -/
def bytes : JsonToken → List UInt8
  | comma => [0x2C]
  | colon => [0x3A]
  | opening context => [context.openByte]
  | closing context => [context.closeByte]
  | literal value => literalBytes value
  | number n => n.1
  | string s => s.bytes

/-- A literal or a number: only what stands next to it tells where it ends. -/
def isWord : JsonToken → Bool
  | literal _ | number _ => true
  | comma | colon | opening _ | closing _ | string _ => false

/-- Neighbours that need nothing between them. -/
def Apart (x y : JsonToken) : Prop := x.isWord = false ∨ y.isWord = false

end JsonToken

/-- The bytes of some tokens with nothing between them. -/
def textOf (ts : List JsonToken) : List UInt8 := ts.flatMap JsonToken.bytes

theorem textOf_append (ts us : List JsonToken) : textOf (ts ++ us) = textOf ts ++ textOf us :=
  List.flatMap_append

/-- A byte that indentation is made of. -/
def isIndent (b : UInt8) : Bool := b = 0x20 || b = 0x09 || b = 0x0A

/-- The bytes of some tokens with indentation before, between and behind them, and never in one. -/
inductive Spaced : List UInt8 → List JsonToken → Prop where
  | nil : Spaced [] []
  | indent {b : UInt8} {l : List UInt8} {ts : List JsonToken} (space : isIndent b = true)
      (rest : Spaced l ts) : Spaced (b :: l) ts
  | token {l : List UInt8} {ts : List JsonToken} (t : JsonToken) (rest : Spaced l ts) :
      Spaced (t.bytes ++ l) (t :: ts)

theorem Spaced.append {a b : List UInt8} {ts us : List JsonToken} (h : Spaced a ts)
    (h' : Spaced b us) : Spaced (a ++ b) (ts ++ us) := by
  induction h with
  | nil => exact h'
  | indent space _ ih => exact .indent space ih
  | token t _ ih =>
    rw [List.append_assoc]
    exact .token t ih

/-- Nothing but indentation. -/
theorem Spaced.of_indent {l : List UInt8} (h : ∀ b ∈ l, isIndent b = true) : Spaced l [] := by
  induction l with
  | nil => exact .nil
  | cons b l ih =>
    exact .indent (h b List.mem_cons_self) (ih fun x hx => h x (List.mem_cons_of_mem _ hx))

/-- No indentation. -/
theorem Spaced.of_tokens (ts : List JsonToken) : Spaced (textOf ts) ts := by
  induction ts with
  | nil => exact .nil
  | cons t ts ih => exact .token t ih

/-! ## What is written with indentation and without -/

/-- The writer without its indentation. -/
def Writer.unindented (w : Writer) : Writer := { w with indent := none }

/-- Indentation is spaces, tabs and newlines. -/
theorem isIndent_indentBytes (depth : Option Nat) (indent : Option IndentConfig) :
    ∀ b ∈ indentBytes depth indent, isIndent b = true := by
  intro b hb
  cases depth with
  | none => cases hb
  | some depth =>
    cases indent with
    | none => cases hb
    | some indent =>
      rcases List.mem_cons.mp hb with rfl | hb
      · rfl
      · rw [List.eq_of_mem_replicate hb]
        rcases indent.char_ok with h | h <;> rw [h] <;> rfl

/-- The tokens that go before a value. -/
def Writer.leadTokens (w : Writer) : List JsonToken :=
  match w.state with
  | .afterValue => [.comma]
  | .init0 | .init | .afterKey => []

/-- What comes before a value is its comma, but for the indentation. -/
theorem textOf_leadTokens (w : Writer) : textOf w.leadTokens = w.unindented.lead := by
  obtain ⟨indent, state, depth⟩ := w
  cases state <;> rfl

/-- What goes before a value. -/
theorem spaced_lead (w : Writer) : Spaced w.lead w.leadTokens := by
  obtain ⟨indent, state, depth⟩ := w
  cases indent with
  | none =>
    show Spaced (Writer.unindented ⟨none, state, depth⟩).lead _
    rw [← textOf_leadTokens]
    exact Spaced.of_tokens _
  | some indent =>
    have hpad := Spaced.of_indent (isIndent_indentBytes (some depth) (some indent))
    cases state with
    | init0 => exact .nil
    | init => exact hpad
    | afterKey => exact .indent rfl .nil
    | afterValue => exact (Spaced.of_tokens [.comma]).append hpad

/-- What may follow where the writer is `w`: tokens that are apart, and behind a value no word. -/
structure Follows (w : Writer) (ts : List JsonToken) : Prop where
  apart : ts.IsChain JsonToken.Apart
  first : w.state = .afterValue → ∀ t ∈ ts.head?, t.isWord = false

section Indents

variable [DoubleText F] {cs ds : List (WriteCall F)} {w w₁ w' : Writer} {ts : List JsonToken}

/-- A token in front of what may follow it. -/
theorem Follows.cons {t : JsonToken} (h : Follows w' ts)
    (hword : t.isWord = false ∨ w'.state = .afterValue) : (t :: ts).IsChain JsonToken.Apart := by
  refine List.isChain_cons.mpr ⟨fun u hu => ?_, h.apart⟩
  rcases hword with ht | hs
  · exact .inl ht
  · exact .inr (h.first hs u hu)

/-- The comma keeps words apart. -/
theorem Follows.lead (h : ts.IsChain JsonToken.Apart) : Follows w (w.leadTokens ++ ts) := by
  cases hs : w.state with
  | afterValue =>
    rw [Writer.leadTokens, hs]
    refine ⟨List.isChain_cons.mpr ⟨fun _ _ => .inl rfl, h⟩, fun _ t ht => ?_⟩
    cases ht
    rfl
  | init0 | init | afterKey =>
    rw [Writer.leadTokens, hs]
    exact ⟨h, fun h => by rw [hs] at h; cases h⟩

/-- The calls lead from `w` to `w'` with indentation and without. They put the same tokens, and
whatever may follow these keeps apart from them. -/
def Indents (cs : List (WriteCall F)) (w w' : Writer) : Prop :=
  ∃ bytes ts, Writes cs w bytes w' ∧ Writes cs w.unindented (textOf ts) w'.unindented ∧
    Spaced bytes ts ∧ ∀ us, Follows w' us → Follows w (ts ++ us)

theorem Indents.nil (w : Writer) : Indents ([] : List (WriteCall F)) w w :=
  ⟨[], [], Writes.nil w, Writes.nil _, .nil, fun _ h => h⟩

/-- Calls one after the other. -/
theorem Indents.append (h : Indents cs w w₁) (h' : Indents ds w₁ w') :
    Indents (cs ++ ds) w w' := by
  obtain ⟨a, ts, ha, hts, hs, hf⟩ := h
  obtain ⟨b, us, hb, hus, hs', hf'⟩ := h'
  refine ⟨a ++ b, ts ++ us, ha.append hb, ?_, hs.append hs', fun vs hvs => ?_⟩
  · rw [textOf_append]
    exact hts.append hus
  · rw [List.append_assoc]
    exact hf _ (hf' vs hvs)

/-- Calls that put some tokens behind what goes before a value. -/
theorem Indents.tokens (us : List JsonToken) (h : Writes cs w (w.lead ++ textOf us) w')
    (h' : Writes cs w.unindented (w.unindented.lead ++ textOf us) w'.unindented)
    (hapart : ∀ vs, Follows w' vs → (us ++ vs).IsChain JsonToken.Apart) : Indents cs w w' := by
  refine ⟨_, w.leadTokens ++ us, h, ?_, (spaced_lead w).append (.of_tokens _), ?_⟩
  · rwa [textOf_append, textOf_leadTokens]
  · intro vs hvs
    rw [List.append_assoc]
    exact Follows.lead (hapart vs hvs)

/-- A call that puts one token. -/
theorem Indents.token {c : WriteCall F} (t : JsonToken)
    (h : c.whole w = some (w.lead ++ t.bytes, w'))
    (h' : c.whole w.unindented = some (w.unindented.lead ++ t.bytes, w'.unindented))
    (hword : t.isWord = false ∨ w'.state = .afterValue) : Indents [c] w w' := by
  have htext : textOf [t] = t.bytes := List.append_nil _
  refine Indents.tokens [t] ?_ ?_ fun vs hvs => hvs.cons hword
  · rw [htext]
    exact Writes.one h
  · rw [htext]
    exact Writes.one h'

/-- A container. -/
theorem Indents.container (kind : Context) (h : Indents cs w.inside w')
    (hw' : w' = w.inside ∨ w' = w.inside.behind) :
    Indents (openCall kind :: cs ++ [closeCall kind]) w w.behind := by
  have hopen : Indents [(openCall kind : WriteCall F)] w w.inside := by
    cases kind
    · exact Indents.token (.opening .array) rfl rfl (.inl rfl)
    · exact Indents.token (.opening .object) rfl rfl (.inl rfl)
  have hclose : Indents [(closeCall kind : WriteCall F)] w' w.behind := by
    refine ⟨_, [.closing kind], Writes.one ?_, Writes.one ?_,
      (Spaced.of_indent (isIndent_indentBytes (some (w'.depth - 1)) w'.indent)).append
        (.of_tokens _), ?_⟩
    · cases kind <;> rcases hw' with rfl | rfl <;> rfl
    · cases kind <;> rcases hw' with rfl | rfl <;> rfl
    · intro us hus
      refine ⟨hus.cons (.inl rfl), fun _ t ht => ?_⟩
      cases ht
      rfl
  exact hopen.append (h.append hclose)

/-- A string in pieces. -/
theorem Indents.pieces (contents : List Text) (w : Writer) :
    Indents (F := F) (.startString :: contents.map .stringContent ++ [.endString]) w w.behind := by
  have pieces (w : Writer) : Writes (F := F)
      (.startString :: contents.map .stringContent ++ [.endString]) w
      (w.lead ++ textOf [.string (rawOf contents.flatten)]) w.behind := by
    have hopen : Writes [(.startString : WriteCall F)] w (w.lead ++ [0x22]) w := Writes.one rfl
    have hclose : Writes [(.endString : WriteCall F)] w [0x22] w.behind := Writes.one rfl
    have hall := hopen.append ((Writes.contents contents w).append hclose)
    simpa [textOf, JsonToken.bytes, RawString.bytes, rawOf, quote] using hall
  exact Indents.tokens [_] (pieces w) (pieces w.unindented) fun vs hvs => hvs.cons (.inl rfl)

mutual

/-- **A value is the same tokens with indentation and without.** -/
theorem Script.indents : ∀ (x : Script F), (∀ v, .number v ∈ x.calls → v.Readable) →
    ∀ w : Writer, Indents x.calls w w.behind
  | .null, _, w => Indents.token (.literal none) rfl rfl (.inr rfl)
  | .boolean value, _, w => by
    cases value
    · exact Indents.token (.literal (some false)) rfl rfl (.inr rfl)
    · exact Indents.token (.literal (some true)) rfl rfl (.inr rfl)
  | .number v, hx, w => by
    obtain ⟨l, hl, hn⟩ := hx v List.mem_cons_self
    have whole (w : Writer) : (WriteCall.number v).whole w = some (w.lead ++ l, w.behind) := by
      show ((v.bytes.map (w.value · "number")).map fun t => (t.bytes, t.next)) = _
      rw [hl]
      rfl
    exact Indents.token (.number ⟨l, hn⟩) (whole w) (whole w.unindented) (.inr rfl)
  | .string s, _, w => Indents.token (.string (rawOf s)) rfl rfl (.inr rfl)
  | .pieces contents, _, w => Indents.pieces contents w
  | .array xs, hx, w => by
    obtain ⟨w', hw', h⟩ := Script.indents_all xs
      (fun v hv => hx v (List.mem_cons_of_mem _ (List.mem_append_left _ hv))) w.inside
    exact h.container .array hw'
  | .object ms, hx, w => by
    obtain ⟨w', hw', h⟩ := Script.indents_members ms
      (fun v hv => hx v (List.mem_cons_of_mem _ (List.mem_append_left _ hv))) w.inside
    exact h.container .object hw'

/-- The items of an array. -/
theorem Script.indents_all : ∀ (xs : List (Script F)),
    (∀ v, .number v ∈ Script.callsAll xs → v.Readable) → ∀ w : Writer,
      ∃ w', (w' = w ∨ w' = w.behind) ∧ Indents (Script.callsAll xs) w w'
  | [], _, w => ⟨w, .inl rfl, Indents.nil w⟩
  | x :: xs, hx, w => by
    have h := x.indents (fun v hv => hx v (List.mem_append_left _ hv)) w
    obtain ⟨w', hw', h'⟩ :=
      Script.indents_all xs (fun v hv => hx v (List.mem_append_right _ hv)) w.behind
    exact ⟨w', .inr (hw'.elim id id), h.append h'⟩

/-- The members of an object. -/
theorem Script.indents_members : ∀ (ms : List (Text × Script F)),
    (∀ v, .number v ∈ Script.callsMembers ms → v.Readable) → ∀ w : Writer,
      ∃ w', (w' = w ∨ w' = w.behind) ∧ Indents (Script.callsMembers ms) w w'
  | [], _, w => ⟨w, .inl rfl, Indents.nil w⟩
  | (k, x) :: ms, hx, w => by
    have hx' : ∀ v, .number v ∈ x.calls ++ Script.callsMembers ms → v.Readable := fun v hv =>
      hx v (List.mem_cons_of_mem _ hv)
    have hkey : Indents [(.key k : WriteCall F)] w w.behindKey := by
      refine Indents.tokens [.string (rawOf k), .colon] (Writes.one rfl) (Writes.one rfl)
        fun vs hvs => ?_
      exact List.isChain_cons.mpr ⟨fun _ _ => .inl rfl, hvs.cons (.inl rfl)⟩
    have h := x.indents (fun v hv => hx' v (List.mem_append_left _ hv)) w.behindKey
    obtain ⟨w', hw', h'⟩ :=
      Script.indents_members ms (fun v hv => hx' v (List.mem_append_right _ hv)) w.behind
    exact ⟨w', .inr (hw'.elim id id), hkey.append (h.append h')⟩

end

/-- Tokens that keep apart from whatever may follow them keep apart. -/
theorem chain_of_follows (h : ∀ us, Follows w' us → Follows w (ts ++ us)) :
    ts.IsChain JsonToken.Apart := by
  have hend := (h [] ⟨List.isChain_nil, fun _ t ht => by cases ht⟩).apart
  rwa [List.append_nil] at hend

/-- **Indentation is only whitespace between tokens.** What the calls of a value put into a ring
with indentation and without is the same tokens, with nothing between them the one time and only
spaces, tabs and newlines the other. Words are kept apart, so the tokens can be told from their
text. -/
theorem indentation_only (x : Script F)
    (hx : ∀ v, .number v ∈ x.calls → v.Ranged ∧ v.Readable) (w : Writer) :
    ∃ bytes ts, PutsAll w x.calls bytes ∧ PutsAll w.unindented x.calls (textOf ts) ∧
      Spaced bytes ts ∧ ts.IsChain JsonToken.Apart := by
  obtain ⟨bytes, ts, h, h', hs, hf⟩ := x.indents (fun v hv => (hx v hv).2) w
  have hr := x.ranged fun v hv => (hx v hv).1
  exact ⟨bytes, ts, h.putsAll hr, h'.putsAll hr, hs, chain_of_follows hf⟩

/-- `{"a b":[-7,0.5]}`, indented by a tab. -/
theorem indentation_only_object :
    let x : Script Half :=
      .object [(['a', ' ', 'b'], .array [.number (.i64 (-7)), .number (.f64 .half)])]
    let w := Writer.withIndent ⟨0x09, 1, .inr rfl, by decide⟩
    ∃ bytes ts, PutsAll w x.calls bytes ∧ PutsAll w.unindented x.calls (textOf ts) ∧
      Spaced bytes ts ∧ ts.IsChain JsonToken.Apart := by
  intro x w
  refine indentation_only x (fun v hv => ?_) w
  obtain rfl | rfl : v = .i64 (-7) ∨ v = .f64 .half := by
    simpa [x, Script.calls, Script.callsMembers, Script.callsAll] using hv
  · have hv : (Number.i64 (-7) : Number Half).IsInteger (-7) := ⟨rfl, by decide, by decide⟩
    exact ⟨hv.ranged, hv.readable⟩
  · exact ⟨trivial, stable_half.1⟩

variable [Double F]

/-- **Writer, then parser, is the identity on events, whatever the indentation.** For each value
whose numbers are integers, however its strings are split, the calls of a new writer succeed, a
parser that is presented with the bytes in any chunks accepts them and calls back the events that
were written, and but for spaces, tabs and newlines between the tokens the bytes are those without
indentation. -/
theorem round_trip_indented (x : Script F)
    (hx : ∀ v, .number v ∈ x.calls → ∃ z, v.IsInteger z) (indent : Option IndentConfig) :
    (∃ bytes ts, PutsAll (indent.elim .new .withIndent) x.calls bytes ∧ ReadsBack bytes x.calls ∧
        PutsAll .new x.calls (textOf ts) ∧ Spaced bytes ts ∧ ts.IsChain JsonToken.Apart) ∧
      ∀ (v : Number F) z, v.IsInteger z → v.reread.IsInteger z := by
  refine ⟨?_, fun v z hv => hv.reread⟩
  have hreadable : ∀ v, .number v ∈ x.calls → v.Readable := fun v hv =>
    (hx v hv).choose_spec.readable
  have hr := x.ranged fun v hv => (hx v hv).choose_spec.ranged
  have hfirst : (indent.elim Writer.new Writer.withIndent).state = .init0 := by
    cases indent <;> rfl
  have hplain : (indent.elim Writer.new Writer.withIndent).unindented = .new := by
    cases indent <;> rfl
  generalize indent.elim Writer.new Writer.withIndent = w at hfirst hplain ⊢
  obtain ⟨bytes, hwrites, hreads⟩ := x.writes_readsBack hreadable hfirst
  obtain ⟨bytes', ts, h, h', hs, hf⟩ := x.indents hreadable w
  obtain rfl : bytes = bytes' := by
    have hsame : some (bytes, w.behind) = some (bytes', w.behind) := hwrites.symm.trans h
    exact (Prod.mk.inj (Option.some.inj hsame)).1
  exact ⟨bytes, ts, hwrites.putsAll hr, hreads, hplain ▸ h'.putsAll hr, hs, chain_of_follows hf⟩

/-- `{"a":[-7,"é\""]}`, indented by two spaces, the string in three pieces. -/
theorem round_trip_indented_object :
    let x : Script Half :=
      .object [(['a'], .array [.number (.i64 (-7)), .pieces [['é'], [], ['"']]])]
    let indent : Option IndentConfig := some ⟨0x20, 2, .inl rfl, by decide⟩
    (∃ bytes ts, PutsAll (indent.elim .new .withIndent) x.calls bytes ∧ ReadsBack bytes x.calls ∧
        PutsAll .new x.calls (textOf ts) ∧ Spaced bytes ts ∧ ts.IsChain JsonToken.Apart) ∧
      ∀ (v : Number Half) z, v.IsInteger z → v.reread.IsInteger z := by
  intro x indent
  refine round_trip_indented x (fun v hv => ⟨-7, ?_⟩) indent
  obtain rfl : v = .i64 (-7) := by
    simpa [x, Script.calls, Script.callsMembers, Script.callsAll] using hv
  exact ⟨rfl, by decide, by decide⟩

end Indents

end RJsonParser
