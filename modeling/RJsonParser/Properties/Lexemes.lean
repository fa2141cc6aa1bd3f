import RJsonParser.Properties.EventStream
import RJsonParser.Properties.NumberText
import RJsonParser.Properties.RawText

/-!
# Lexemes

The machine reads a document as lexemes: which one is next is a matter of the bytes and the state
alone, and the limits only tell whether it is allowed. So a document that is read under two settings
has the same lexemes as far as it is read.

* `Core.lex` — the lexeme at the front
* `Core.allows`, `Core.after`, `Core.puts` — whether it is allowed, what state it leads to and what
  it puts out
* `Core.next_takes`, `Core.next_takesNone` — the machine takes the lexeme that is there
* `Core.Lexes`, `Core.AllowsAll` — some lexemes one after the other, all of them allowed
* `lexes_of_steps`, `Ends.lexes` — a run of the machine is one over lexemes
-/

namespace RJsonParser

open Infra Infra.Utf8

variable {F : Type}

/-- What the machine takes at a time. -/
inductive Lexeme where
  /-- The byte order mark, if there is one. -/
  | mark (raw : List UInt8)
  /-- A line break is over. -/
  | settle
  | space (b : UInt8)
  | comma
  | colon
  | opening (context : Context)
  | closing (context : Context)
  | literal (value : Option Bool)
  | startNumber (b : UInt8)
  /-- A further byte of a number. -/
  | digit (b : UInt8)
  | endNumber
  | key (raw : List UInt8) (text : Text)
  | startString
  | char (raw : List UInt8) (ch : Char)
  | endString
deriving DecidableEq, Repr

namespace Lexeme

/-- The bytes of a lexeme. -/
def bytes : Lexeme → List UInt8
  | mark raw | char raw _ => raw
  | settle | endNumber => []
  | space b | startNumber b | digit b => [b]
  | comma => [0x2C]
  | colon => [0x3A]
  | opening context => [context.openByte]
  | closing context => [context.closeByte]
  | literal value => literalBytes value
  | key raw _ => quote :: raw ++ [quote]
  | startString | endString => [quote]

/-- It starts a token. -/
def isToken : Lexeme → Bool
  | comma | colon | opening _ | closing _ => true
  | literal _ | startNumber _ | key _ _ | startString => true
  | mark _ | settle | space _ | digit _ | endNumber | char _ _ | endString => false

end Lexeme

/-- The bytes of some lexemes. -/
def bytesOf (xs : List Lexeme) : List UInt8 := xs.flatMap Lexeme.bytes

@[simp] theorem bytesOf_nil : bytesOf [] = [] := rfl

@[simp] theorem bytesOf_cons (x : Lexeme) (xs : List Lexeme) :
    bytesOf (x :: xs) = x.bytes ++ bytesOf xs := rfl

@[simp] theorem bytesOf_append (xs ys : List Lexeme) :
    bytesOf (xs ++ ys) = bytesOf xs ++ bytesOf ys := List.flatMap_append

/-! ## The lexeme at the front -/

/-- In a string value. -/
def lexString : List UInt8 → Option Lexeme
  | [] => none
  | b :: l =>
    if b = quote then some .endString
    else if b = backslash then
      match resolve (b :: l) with
      | .ok (some (ch, n)) => some (.char ((b :: l).take n) ch)
      | _ => none
    else if b < 0x20 then none
    else
      match front (b :: l) with
      | .char ch n => some (.char ((b :: l).take n) ch)
      | _ => none

/-- In a number. The end of the input ends it too. -/
def lexNumber (number : NumberState) : List UInt8 → Option Lexeme
  | [] => if number.stage.isFinal then some .endNumber else none
  | b :: _ =>
    match number.takeByte b with
    | .next _ => some (.digit b)
    | .ended => some .endNumber
    | _ => none

/-- A key, `l` being behind its opening quote. -/
def lexKey (l : List UInt8) : Option Lexeme :=
  match keyFront none 0 l with
  | .found n => (decodeString (l.take n)).map (.key (l.take n))
  | _ => none

namespace Core

/-- A token that starts with `b`, `l` being behind it. -/
def lexToken (c : Core) (b : UInt8) (l : List UInt8) : Option Lexeme :=
  match tokenKind b with
  | .quote =>
    match c.state with
    | .expectColon | .afterValue => none
    | .expectKey => lexKey l
    | .expectValue => some .startString
  | .comma => if c.state = .afterValue ∧ c.context ≠ [] then some .comma else none
  | .colon => if c.state = .expectColon then some .colon else none
  | .opening context => if c.state = .expectValue then some (.opening context) else none
  | .closing context =>
    if c.context.head? = some context ∧ (c.state = context.first ∨ c.state = .afterValue) ∧
      c.afterComma = false then some (.closing context) else none
  | .literal rest value =>
    if c.state = .expectValue ∧ rest.isPrefixOf l then some (.literal value) else none
  | .number => if c.state = .expectValue then some (.startNumber b) else none
  | .other => none

/-- Outside a string value and a number. -/
def lexOuter (c : Core) : List UInt8 → Option Lexeme
  | [] => none
  | b :: l =>
    if isWs b then some (.space b)
    else if c.pos.afterCr then some .settle
    else c.lexToken b l

/-- **The lexeme at the front of `l`** in the state `c`. -/
def lex (c : Core) (l : List UInt8) : Option Lexeme :=
  if !c.bomChecked then
    match bomFront l with
    | .found n => some (.mark (l.take n))
    | _ => none
  else if c.inString then lexString l
  else if c.number.stage ≠ .none then lexNumber c.number l
  else c.lexOuter l

/-! ## What a lexeme does -/

/-- The state in which a token is decided on: a line break before it is over. -/
def settled (c : Core) : Core := { c with pos := { c.pos with afterCr := false } }

/-- The columns of a character of a string value. -/
def columns (raw : List UInt8) (ch : Char) : Nat :=
  if raw.head? = some backslash then raw.length else utf16Size ch

/-- The state after a lexeme. -/
def after (limits : ParserLimits) (c : Core) : Lexeme → Core
  | .mark _ => { c with bomChecked := true }
  | .settle => c.settled
  | .space b => match wsByte c.pos b with | some p => { c with pos := p } | none => c
  | .comma => c.comma.count limits
  | .colon => ((c.move 1).goto .expectValue).count limits
  | .opening context => (c.enter context).count limits
  | .closing context => (c.leave context).count limits
  | .literal value => ((c.move (literalBytes value).length).goto .afterValue).count limits
  | .startNumber b => (c.beginNumber b).count limits
  | .digit b =>
    match c.number.takeByte b with
    | .next n => { c with number := n.addLength 1 }
    | _ => c
  | .endNumber => c.endNumber
  | .key raw text => (((c.note text).move (2 + units raw)).goto .expectColon).count limits
  | .startString => c.beginString.count limits
  | .char raw ch => c.inContent raw.length (columns raw ch)
  | .endString => c.endString

theorem after_space (limits : ParserLimits) (c : Core) (b : UInt8) :
    c.after limits (.space b) = { c with pos := (wsByte c.pos b).getD c.pos } := by
  simp only [after]
  split <;> (next h => rw [h]; rfl)

/-- A number with one more byte. -/
def further (number : NumberState) (b : UInt8) : NumberState :=
  match number.takeByte b with
  | .next n => n.addLength 1
  | _ => number

theorem after_digit (limits : ParserLimits) (c : Core) (b : UInt8) :
    c.after limits (.digit b) = { c with number := further c.number b } := by
  simp only [after, further]
  cases c.number.takeByte b <;> rfl

/-- The token that a lexeme puts out. -/
def event [Double F] (c : Core) : Lexeme → Option (Event F)
  | .opening context => some context.openEvent
  | .closing context => some context.closeEvent
  | .literal value => some (literalEvent value)
  | .endNumber => some (.numberValue c.number.value)
  | .key _ text => some (.key text)
  | .startString => some .startStringValue
  | .endString => some .endStringValue
  | .mark _ | .settle | .space _ | .comma | .colon | .startNumber _ | .digit _ | .char _ _ => none

/-- What a lexeme puts out. -/
def puts [Double F] (limits : ParserLimits) (c : Core) (x : Lexeme) : List (Mark F) :=
  match x with
  | .space b => if c.needsWhitespace then [(.whitespace [byteChar b], none)] else []
  | .char _ ch => [(.stringValueContent [ch], none)]
  | x =>
    match c.event x with
    | some e => [(c.after limits x).mark e]
    | none => []

/-- There are not too many tokens with this one. -/
def counted (limits : ParserLimits) (c : Core) (x : Lexeme) : Bool :=
  !x.isToken || !exceeds limits.maxTokenCount (c.tokenCount + 1)

/-- A lexeme is within the other limits. -/
def within (limits : ParserLimits) (c : Core) : Lexeme → Bool
  | .opening _ => !exceeds limits.maxNestingDepth (c.context.length + 1)
  | .digit _ => !exceeds limits.maxNumberLength (c.number.length + 1)
  | .key raw _ => !exceeds limits.maxNameLength raw.length
  | .char raw _ => !exceeds limits.maxStringLength (c.stringBytes + raw.length)
  | _ => true

/-- It is no key that its object has. -/
def novel (c : Core) : Lexeme → Bool
  | .key _ text => !c.isDuplicate text
  | _ => true

/-- A lexeme is allowed. -/
def allows (limits : ParserLimits) (c : Core) (x : Lexeme) : Bool :=
  c.counted limits x && (c.within limits x && c.novel x)

end Core

/-! ## The machine takes the lexeme that is there -/

/-- The four bytes of whitespace are those that `process_whitespace` goes past. -/
theorem wsByte_isWs {p : Pos} {b : UInt8} : wsByte p b = none ↔ isWs b = false := by
  unfold wsByte isWs
  by_cases h1 : b = 0x0A
  · simp [h1]
  by_cases h2 : b = 0x0D
  · simp [h2]
  by_cases h3 : b = 0x20 ∨ b = 0x09
  · rw [if_neg h1, if_neg h2, if_pos h3]
    rcases h3 with h3 | h3 <;> simp [h3]
  · rw [if_neg h1, if_neg h2, if_neg h3]
    rw [not_or] at h3
    simp [h1, h2, h3]

/-- A literal that is there is found. -/
theorem literalFront_self (rest l : List UInt8) : literalFront rest (rest ++ l) = .found 0 := by
  induction rest with
  | nil => simp [literalFront]
  | cons b rest ih => simpa [literalFront] using ih

/-- A literal is told by its first byte. -/
theorem literalBytes_kind (value : Option Bool) : ∃ b rest, literalBytes value = b :: rest ∧
    tokenKind b = .literal rest value := by
  rcases value with - | - | -
  · exact ⟨_, _, rfl, rfl⟩
  · exact ⟨_, _, rfl, rfl⟩
  · exact ⟨_, _, rfl, rfl⟩

/-- A key that is found is found where it is not too long. -/
theorem keyFront_limit (limit : Option Nat) : ∀ {i n : Nat} {l : List UInt8},
    keyFront none i l = .found n →
      keyFront limit i l = if exceeds limit n then .bad else .found n
  | _, _, [], h => by cases h
  | i, n, [b], h => by
    simp only [keyFront, exceeds_none, Bool.false_eq_true, if_false] at h ⊢
    split_ifs at h with h1
    cases h
    simp [h1]
  | i, n, b :: b' :: l, h => by
    simp only [keyFront, exceeds_none, Bool.false_eq_true, if_false] at h ⊢
    split_ifs at h with h1 h2 h3
    · cases h
      simp [h1]
    · obtain ⟨k, rfl, -, -⟩ := keyFront_found _ h
      rw [if_neg h1, if_pos h2, keyFront_limit limit h]
      split_ifs with h4 h5 h5
      · rfl
      · exact absurd (exceeds_mono h4 (by omega)) h5
      · rfl
      · rfl
    · obtain ⟨k, rfl, -, -⟩ := keyFront_found _ h
      rw [if_neg h1, if_neg h2, if_neg h3, keyFront_limit limit h]
      split_ifs with h4 h5 h5
      · rfl
      · exact absurd (exceeds_mono h4 (by omega)) h5
      · rfl
      · rfl

/-- A key that is found is there whatever its length may be. -/
theorem keyFront_none {limit : Option Nat} : ∀ {i n : Nat} {l : List UInt8},
    keyFront limit i l = .found n → keyFront none i l = .found n
  | i, n, [b], h => by
    simp only [keyFront, exceeds_none, Bool.false_eq_true, if_false] at h ⊢
    split_ifs at h ⊢
    exact h
  | i, n, b :: b' :: l, h => by
    simp only [keyFront, exceeds_none, Bool.false_eq_true, if_false] at h ⊢
    split_ifs at h ⊢
    · exact h
    · exact keyFront_none h
    · exact keyFront_none h

namespace NumberState

/-- Digits are counted where they are taken from the ring, not here. -/
theorem takeDigit_length (s : NumberState) (d : Nat) (f : Bool) :
    (s.takeDigit d f).length = s.length := by
  unfold takeDigit
  split
  · rfl
  · split <;> split <;> rfl

theorem takeExponentDigit_length (s : NumberState) (d : Nat) :
    (s.takeExponentDigit d).length = s.length := by
  unfold takeExponentDigit
  split <;> rfl

/-- The length is counted by the caller of `takeByte`. -/
theorem takeByte_length {s s' : NumberState} {b : UInt8} (h : s.takeByte b = .next s') :
    s'.length = s.length := by
  unfold takeByte takeMark at h
  cases hs : s.stage <;> simp only [hs] at h
  case none => cases h
  all_goals
    split_ifs at h <;> cases h <;> simp [takeDigit_length, takeExponentDigit_length]

end NumberState

namespace Core

variable {limits : ParserLimits} {c : Core} {x : Lexeme} {b : UInt8} {l : List UInt8}

variable [Double F]

/-- What the decision is where the lexeme `x` is at the front. -/
def Takes (limits : ParserLimits) (c : Core) (x : Lexeme) (v : Verdict Core (Mark F)) : Prop :=
  if c.allows limits x = true then
    v = .step x.bytes.length (c.after limits x) (c.puts limits x)
  else ∃ out, v = .fail out ∧ out <+: c.puts limits x ∧
    ((c.within limits x && c.novel x) = false → out = [])

/-- What the decision is where there is no lexeme. -/
def TakesNone (v : Verdict Core (Mark F)) : Prop := v = .need ∨ v = .fail []

/-- A lexeme that is taken. -/
theorem takes_step {n : Nat} {c' : Core} {out : List (Mark F)} (hx : x.isToken = false)
    (hw : (c.within limits x && c.novel x) = true) (hn : n = x.bytes.length)
    (hafter : c.after limits x = c') (hputs : c.puts limits x = out) :
    c.Takes limits x (.step n c' out) := by
  subst hn hafter hputs
  unfold Takes allows counted
  rw [hx, hw]
  simp

/-- A token that is allowed but for the number of tokens. -/
theorem takes_finish {c' : Core} {early late : List (Mark F)} {n : Nat} (ht : x.isToken = true)
    (hw : (c.within limits x && c.novel x) = true) (hn : n = x.bytes.length)
    (hafter : c.after limits x = c'.count limits) (hputs : c.puts limits x = early ++ late)
    (hcount : c'.tokenCount = c.tokenCount) :
    c.Takes limits x (finish limits n c' early late) := by
  unfold Takes finish allows counted
  rw [hw, ht, hafter, hputs, hcount, hn]
  cases exceeds limits.maxTokenCount (c.tokenCount + 1)
  · exact rfl
  · exact ⟨early, rfl, List.prefix_append _ _, fun h => by cases h⟩

/-- A lexeme that is not allowed. -/
theorem takes_fail (h : (c.within limits x && c.novel x) = false) :
    c.Takes (F := F) limits x (.fail []) := by
  unfold Takes allows
  rw [h, Bool.and_false]
  exact ⟨[], rfl, List.nil_prefix, fun _ => rfl⟩

/-- Where a lexeme that is no token is not allowed nothing is put out. -/
theorem Takes.fails {v : Verdict Core (Mark F)} (h : c.Takes limits x v)
    (ha : c.allows limits x = false) (hx : x.isToken = false) : v = .fail [] := by
  rw [Takes, ha] at h
  obtain ⟨out, rfl, -, hout⟩ := h
  rw [hout (by simpa [allows, counted, hx] using ha)]

/-- A key is taken where it is there. -/
theorem keyStep_takes (h : lexKey l = some x) : c.Takes (F := F) limits x (c.keyStep limits l) := by
  unfold lexKey at h
  split at h
  · next n hf =>
    obtain ⟨text, hd, rfl⟩ := Option.map_eq_some_iff.mp h
    obtain ⟨k, hk, hr, -⟩ := keyFront_found _ hf
    obtain rfl : n = k := by omega
    obtain ⟨-, -, hlt⟩ := rawLength_spec hr
    have hlen : (l.take n).length = n := by rw [List.length_take]; omega
    unfold keyStep
    rw [keyFront_limit limits.maxNameLength hf]
    by_cases hn : exceeds limits.maxNameLength n = true
    · rw [if_pos hn]
      exact takes_fail (by simp [within, hlen, hn])
    rw [if_neg hn]
    simp only [hd]
    by_cases hdup : c.isDuplicate text = true
    · rw [if_pos hdup]
      exact takes_fail (by simp [novel, hdup])
    rw [if_neg hdup]
    refine takes_finish rfl ?_ ?_ rfl rfl rfl
    · simp [within, novel, hlen, hn, hdup]
    · simp only [Lexeme.bytes, List.length_append, List.length_cons, List.length_nil, hlen]
  · cases h

omit [Double F] in
/-- No key is taken where there is none. -/
theorem keyStep_takesNone (h : lexKey l = none) : TakesNone (c.keyStep (F := F) limits l) := by
  unfold lexKey at h
  unfold keyStep
  cases hf : keyFront limits.maxNameLength 0 l with
  | need => exact .inl rfl
  | bad => exact .inr rfl
  | found n =>
    rw [keyFront_none hf] at h
    simp only [Option.map_eq_none_iff] at h
    simp only [h]
    exact .inr rfl

omit [Double F] in
/-- No literal is taken where it is wrong or not all there. -/
theorem literalStep_takesNone {rest : List UInt8} {value : Option Bool}
    (h : rest.isPrefixOf l = false) : TakesNone (c.literalStep (F := F) limits rest l value) := by
  unfold literalStep
  cases hf : literalFront rest l with
  | need => exact .inl rfl
  | bad => exact .inr rfl
  | found n =>
    rw [List.isPrefixOf_iff_prefix.mpr (literalFront_found hf)] at h
    cases h

/-- A literal is taken where it is there. -/
theorem literalStep_takes {rest : List UInt8} {value : Option Bool}
    (hk : tokenKind b = .literal rest value) (h : rest.isPrefixOf l = true) :
    c.Takes (F := F) limits (.literal value) (c.literalStep limits rest l value) := by
  obtain ⟨r, rfl⟩ := List.isPrefixOf_iff_prefix.mp h
  have hlen : (literalBytes value).length = 1 + rest.length := by
    rw [← tokenKind_literal hk, List.length_cons, Nat.add_comm]
  unfold literalStep
  rw [literalFront_self]
  refine takes_finish rfl rfl hlen.symm ?_ ?_ rfl
  · rw [after, hlen]
  · simp only [puts, event, after, hlen]
    rfl

/-- A container is opened where a value is due. -/
theorem openStep_takes {context : Context} (h : c.state = .expectValue) :
    c.Takes (F := F) limits (.opening context) (c.openStep limits context) := by
  unfold openStep
  rw [if_neg (not_not.mpr h)]
  by_cases hd : exceeds limits.maxNestingDepth (c.context.length + 1) = true
  · rw [if_pos hd]
    exact takes_fail (by simp [within, hd])
  · rw [if_neg hd]
    exact takes_finish rfl (by simp [within, novel, hd]) rfl rfl rfl rfl

/-- A container is closed where it may end. -/
theorem closeStep_takes {context : Context} (h : c.context.head? = some context)
    (hs : c.state = context.first ∨ c.state = .afterValue) (hc : c.afterComma = false) :
    c.Takes (F := F) limits (.closing context) (c.closeStep limits context) := by
  unfold closeStep
  rw [if_neg (not_not.mpr h), if_neg (by rintro ⟨h1, h2⟩; exact hs.elim h1 h2),
    if_neg (by simp [hc])]
  exact takes_finish rfl rfl rfl rfl rfl rfl

/-- **A token** is taken where it is the lexeme at the front. -/
theorem tokenStep_takes (h : c.lexToken b l = some x) :
    c.Takes (F := F) limits x (c.tokenStep limits b l) := by
  unfold lexToken at h
  unfold tokenStep
  -- by the kind of token that the byte starts, as the step of the machine does
  cases hk : tokenKind b with
  | quote =>
    simp only [hk] at h
    unfold quoteStep
    cases hs : c.state with
    | expectColon => rw [hs] at h; cases h
    | afterValue => rw [hs] at h; cases h
    | expectKey => rw [hs] at h; exact keyStep_takes h
    | expectValue =>
      rw [hs] at h
      cases h
      exact takes_finish rfl rfl rfl rfl rfl rfl
  | comma =>
    simp only [hk] at h
    split at h
    · next hc =>
      cases h
      simp only
      rw [if_neg (by rw [not_or, not_not]; exact hc)]
      exact takes_finish rfl rfl rfl rfl rfl rfl
    · cases h
  | colon =>
    simp only [hk] at h
    split at h
    · next hc =>
      cases h
      simp only
      rw [if_neg (not_not.mpr hc)]
      exact takes_finish rfl rfl rfl rfl rfl rfl
    · cases h
  | opening context =>
    simp only [hk] at h
    split at h
    · next hc => cases h; exact openStep_takes hc
    · cases h
  | closing context =>
    simp only [hk] at h
    split at h
    · next hc => cases h; exact closeStep_takes hc.1 hc.2.1 hc.2.2
    · cases h
  | literal rest value =>
    simp only [hk] at h
    split at h
    · next hc =>
      cases h
      simp only
      rw [if_neg (not_not.mpr hc.1)]
      exact literalStep_takes hk hc.2
    · cases h
  | number =>
    simp only [hk] at h
    split at h
    · next hc =>
      cases h
      simp only
      rw [if_neg (not_not.mpr hc)]
      exact takes_finish rfl rfl rfl rfl rfl rfl
    · cases h
  | other => simp only [hk] at h; cases h

omit [Double F] in
/-- **Nothing is taken where no token is in front.** -/
theorem tokenStep_takesNone (h : c.lexToken b l = none) :
    TakesNone (c.tokenStep (F := F) limits b l) := by
  unfold lexToken at h
  unfold tokenStep
  cases hk : tokenKind b with
  | quote =>
    simp only [hk] at h
    unfold quoteStep
    cases hs : c.state with
    | expectColon => exact .inr rfl
    | afterValue => exact .inr rfl
    | expectKey => rw [hs] at h; exact keyStep_takesNone h
    | expectValue => rw [hs] at h; cases h
  | comma =>
    simp only [hk] at h
    split at h
    · cases h
    · next hc => exact .inr (if_pos (by by_contra hn; rw [not_or, not_not] at hn; exact hc hn))
  | colon =>
    simp only [hk] at h
    split at h
    · cases h
    · next hc => exact .inr (if_pos hc)
  | opening context =>
    simp only [hk] at h
    split at h
    · cases h
    · next hc => exact .inr (if_pos hc)
  | closing context =>
    simp only [hk] at h
    split at h
    · cases h
    · next hc =>
      refine .inr ?_
      unfold closeStep
      by_cases h1 : c.context.head? = some context
      swap
      · exact if_pos h1
      refine (if_neg (not_not.mpr h1)).trans ?_
      by_cases h2 : c.state = context.first ∨ c.state = .afterValue
      swap
      · exact if_pos (by rwa [← not_or])
      refine (if_neg (by rwa [← not_or, not_not])).trans ?_
      exact if_pos (by by_contra h3; exact hc ⟨h1, h2, by simpa using h3⟩)
  | literal rest value =>
    simp only [hk] at h
    split at h
    · cases h
    · next hc =>
      by_cases hs : c.state = .expectValue
      swap
      · exact .inr (if_pos hs)
      · simp only
        rw [if_neg (not_not.mpr hs)]
        exact literalStep_takesNone (by by_contra hp; exact hc ⟨hs, by simpa using hp⟩)
  | number =>
    simp only [hk] at h
    split at h
    · cases h
    · next hc => exact .inr (if_pos hc)
  | other => exact .inr rfl

/-- A character of a string value is taken with its source text. -/
theorem charStep_takes {ch : Char} {n k : Nat} {raw : List UInt8} (hn : raw.length = n)
    (hk : columns raw ch = k) :
    c.Takes (F := F) limits (.char raw ch) (c.charStep limits ch n k) := by
  subst hn hk
  unfold charStep
  by_cases he : exceeds limits.maxStringLength (c.stringBytes + raw.length) = true
  · rw [if_pos he]
    exact takes_fail (by simp [within, he])
  · rw [if_neg he]
    exact takes_step rfl (by simp [within, novel, he]) rfl rfl rfl

theorem head?_take_cons {n : Nat} (h : 0 < n) : ((b :: l).take n).head? = some b := by
  obtain ⟨k, rfl⟩ := Nat.exists_eq_succ_of_ne_zero h.ne'
  rfl

/-- **A character of a string value**, or its end. -/
theorem stringStep_takes (h : lexString (b :: l) = some x) :
    c.Takes (F := F) limits x (c.stringStep limits b l) := by
  rw [lexString] at h
  unfold stringStep
  by_cases hq : b = quote
  · rw [if_pos hq] at h ⊢
    cases h
    exact takes_step rfl rfl rfl rfl rfl
  rw [if_neg hq] at h ⊢
  by_cases hs : b = backslash
  · rw [if_pos hs] at h ⊢
    split at h
    · next ch n hr =>
      cases h
      obtain ⟨hpos, -, hle⟩ := resolve_length hr
      rw [hr]
      have hlen : ((b :: l).take n).length = n := by rw [List.length_take]; omega
      refine charStep_takes hlen ?_
      rw [columns, head?_take_cons hpos, hs, if_pos rfl]
      rw [hs] at hlen
      exact hlen
    · cases h
  rw [if_neg hs] at h ⊢
  by_cases hlt : b < 0x20
  · rw [if_pos hlt] at h
    cases h
  rw [if_neg hlt] at h ⊢
  split at h
  · next ch n hf =>
    cases h
    obtain ⟨hpos, -, hle⟩ := front_char_le hf
    rw [hf]
    have hlen : ((b :: l).take n).length = n := by rw [List.length_take]; omega
    refine charStep_takes hlen ?_
    rw [columns, head?_take_cons hpos, if_neg (by simpa using hs)]
  · cases h

omit [Double F] in
/-- Nothing is taken of a string value where no character and no quote is in front. -/
theorem stringStep_takesNone (h : lexString (b :: l) = none) :
    TakesNone (c.stringStep (F := F) limits b l) := by
  rw [lexString] at h
  unfold stringStep
  by_cases hq : b = quote
  · rw [if_pos hq] at h
    cases h
  rw [if_neg hq] at h ⊢
  by_cases hs : b = backslash
  · rw [if_pos hs] at h ⊢
    split at h
    · cases h
    · next hr =>
      cases hres : resolve (b :: l) with
      | error e => exact .inr rfl
      | ok r =>
        cases r with
        | none => exact .inl rfl
        | some p => exact absurd hres (hr p.1 p.2)
  rw [if_neg hs] at h ⊢
  by_cases hlt : b < 0x20
  · exact .inr (if_pos hlt)
  rw [if_neg hlt] at h ⊢
  split at h
  · cases h
  · next hf =>
    cases hfr : front (b :: l) with
    | bad => exact .inr rfl
    | char ch n => exact absurd hfr (hf ch n)
    | need =>
      simp only
      split
      · exact .inr rfl
      · exact .inl rfl

/-- A byte of a number, or its end. -/
theorem numberStep_takes (h : lexNumber c.number (b :: l) = some x) :
    c.Takes (F := F) limits x (c.numberStep limits b) := by
  rw [lexNumber] at h
  unfold numberStep
  cases ht : c.number.takeByte b with
  | next n =>
    rw [ht] at h
    cases h
    have hlen : n.length = c.number.length := NumberState.takeByte_length ht
    simp only
    rw [hlen]
    by_cases he : exceeds limits.maxNumberLength (c.number.length + 1) = true
    · rw [if_pos he]
      exact takes_fail (by simp [within, he])
    · rw [if_neg he]
      refine takes_step rfl (by simp [within, novel, he]) rfl ?_ rfl
      simp only [after, ht]
  | ended =>
    rw [ht] at h
    cases h
    exact takes_step rfl rfl rfl rfl rfl
  | error m => rw [ht] at h; cases h
  | unreachable => rw [ht] at h; cases h

/-- Nothing is taken of a number where it cannot go on. -/
theorem numberStep_takesNone (h : lexNumber c.number (b :: l) = none) :
    TakesNone (c.numberStep (F := F) limits b) := by
  rw [lexNumber] at h
  unfold numberStep
  cases ht : c.number.takeByte b with
  | next n => rw [ht] at h; cases h
  | ended => rw [ht] at h; cases h
  | error m => exact .inr rfl
  | unreachable => exact .inr rfl

variable (limits) in
/-- **The machine takes the lexeme at the front**, if it is allowed. -/
theorem next_takes (hl : l ≠ []) (h : c.lex l = some x) :
    c.Takes (F := F) limits x (c.next limits l) := by
  unfold lex at h
  by_cases hb : c.bomChecked = true
  swap
  · have hb' : c.bomChecked = false := by simpa using hb
    rw [if_pos (by simp [hb'])] at h
    unfold next
    rw [if_pos (by simp [hb'])]
    split at h
    · next n hf =>
      cases h
      rw [hf]
      have := (bomFront_bound hf).2
      exact takes_step rfl rfl (List.length_take_of_le this).symm rfl rfl
    · cases h
  rw [if_neg (by simp [hb])] at h
  unfold next
  rw [if_neg (by simp [hb])]
  obtain ⟨b, l, rfl⟩ := List.exists_cons_of_ne_nil hl
  by_cases hs : c.inString = true
  · rw [if_pos hs] at h
    simp only [hs, if_true]
    exact stringStep_takes h
  rw [if_neg hs] at h
  simp only [hs]
  rw [if_neg (by simp)]
  by_cases hn : c.number.stage = .none
  swap
  · rw [if_pos hn] at h ⊢
    exact numberStep_takes h
  rw [if_neg (not_not.mpr hn)] at h ⊢
  rw [lexOuter] at h
  unfold outerStep
  by_cases hw : isWs b = true
  · rw [if_pos hw] at h
    cases h
    obtain ⟨p, hp⟩ : ∃ p, wsByte c.pos b = some p := by
      refine Option.ne_none_iff_exists'.mp fun hn => ?_
      rw [wsByte_isWs, hw] at hn
      cases hn
    rw [hp]
    exact takes_step rfl rfl rfl (by simp only [after, hp]) rfl
  rw [if_neg hw] at h
  rw [wsByte_isWs.mpr (by simpa using hw)]
  simp only
  by_cases hcr : c.pos.afterCr = true
  · rw [if_pos hcr] at h ⊢
    cases h
    exact takes_step rfl rfl rfl rfl rfl
  · rw [if_neg hcr] at h ⊢
    exact tokenStep_takes h

variable (limits) in
/-- **Where there is no lexeme** the machine takes nothing. -/
theorem next_takesNone (h : c.lex l = none) : TakesNone (c.next (F := F) limits l) := by
  unfold lex at h
  by_cases hb : c.bomChecked = true
  swap
  · have hb' : c.bomChecked = false := by simpa using hb
    rw [if_pos (by simp [hb'])] at h
    unfold next
    rw [if_pos (by simp [hb'])]
    cases hf : bomFront l with
    | need => exact .inl rfl
    | bad => exact .inr rfl
    | found n => rw [hf] at h; cases h
  rw [if_neg (by simp [hb])] at h
  unfold next
  rw [if_neg (by simp [hb])]
  cases l with
  | nil => exact .inl rfl
  | cons b l =>
    by_cases hs : c.inString = true
    · rw [if_pos hs] at h
      simp only [hs, if_true]
      exact stringStep_takesNone h
    rw [if_neg hs] at h
    simp only [hs]
    rw [if_neg (by simp)]
    by_cases hn : c.number.stage = .none
    swap
    · rw [if_pos hn] at h ⊢
      exact numberStep_takesNone h
    rw [if_neg (not_not.mpr hn)] at h ⊢
    rw [lexOuter] at h
    unfold outerStep
    by_cases hw : isWs b = true
    · rw [if_pos hw] at h
      cases h
    rw [if_neg hw] at h
    rw [wsByte_isWs.mpr (by simpa using hw)]
    simp only
    by_cases hcr : c.pos.afterCr = true
    · rw [if_pos hcr] at h
      cases h
    · rw [if_neg hcr] at h ⊢
      exact tokenStep_takesNone h

end Core

/-! ## Some lexemes -/

namespace Core

/-- A lexeme is what is at the front. -/
theorem lex_prefix {c : Core} {x : Lexeme} {l : List UInt8} (h : c.lex l = some x) :
    x.bytes <+: l := by
  unfold lex at h
  -- in the order in which `lex` asks: the mark, inside a string, inside a number, outside
  split at h
  · split at h
    · cases h; exact List.take_prefix _ _
    · cases h
  split at h
  · cases l with
    | nil => cases h
    | cons b l =>
      rw [lexString] at h
      split at h
      · next hq => cases h; rw [hq]; exact ⟨l, rfl⟩
      split at h
      · split at h
        · cases h; exact List.take_prefix _ _
        · cases h
      split at h
      · cases h
      · split at h
        · cases h; exact List.take_prefix _ _
        · cases h
  split at h
  · cases l with
    | nil =>
      rw [lexNumber] at h
      split at h <;> cases h
      exact List.nil_prefix
    | cons b l =>
      rw [lexNumber] at h
      split at h
      · cases h; exact ⟨l, rfl⟩
      · cases h; exact List.nil_prefix
      · cases h
  cases l with
  | nil => cases h
  | cons b l =>
    rw [lexOuter] at h
    split at h
    · cases h; exact ⟨l, rfl⟩
    split at h
    · cases h; exact List.nil_prefix
    have hstart := tokenKind_starts b
    unfold lexToken at h
    cases hk : tokenKind b with
    | quote =>
      simp only [hk] at h
      obtain rfl := tokenKind_quote hk
      split at h
      · cases h
      · cases h
      · unfold lexKey at h
        split at h
        · next n hf =>
          obtain ⟨text, -, rfl⟩ := Option.map_eq_some_iff.mp h
          obtain ⟨k, hk, hr, -⟩ := keyFront_found _ hf
          obtain rfl : n = k := by omega
          obtain ⟨-, r, hl⟩ := closed_take hr
          refine ⟨r, ?_⟩
          conv_rhs => rw [hl]
          simp [Lexeme.bytes]
        · cases h
      · cases h; exact ⟨l, rfl⟩
    | comma | colon | opening | closing =>
      simp only [hk] at h
      rw [hk] at hstart
      split at h
      · cases h
        simp only [startsToken, decide_eq_true_eq] at hstart
        exact ⟨l, by rw [hstart]; rfl⟩
      · cases h
    | literal rest value =>
      simp only [hk] at h
      split at h
      · next hc =>
        cases h
        obtain ⟨r, rfl⟩ := List.isPrefixOf_iff_prefix.mp hc.2
        exact ⟨r, by rw [Lexeme.bytes, ← tokenKind_literal hk]; rfl⟩
      · cases h
    | number =>
      simp only [hk] at h
      split at h
      · cases h; exact ⟨l, rfl⟩
      · cases h
    | other => simp only [hk] at h; cases h

/-- The state after some lexemes. -/
def run (limits : ParserLimits) (c : Core) (xs : List Lexeme) : Core := xs.foldl (after limits) c

@[simp] theorem run_nil (limits : ParserLimits) (c : Core) : c.run limits [] = c := rfl

@[simp] theorem run_cons (limits : ParserLimits) (c : Core) (x : Lexeme) (xs : List Lexeme) :
    c.run limits (x :: xs) = (c.after limits x).run limits xs := rfl

@[simp] theorem run_append (limits : ParserLimits) (c : Core) (xs ys : List Lexeme) :
    c.run limits (xs ++ ys) = (c.run limits xs).run limits ys := List.foldl_append ..

/-- What some lexemes put out. -/
def putsAll [Double F] (limits : ParserLimits) : Core → List Lexeme → List (Mark F)
  | _, [] => []
  | c, x :: xs => c.puts limits x ++ (c.after limits x).putsAll limits xs

/-- What lexemes put out is put out one part after the other. -/
theorem putsAll_append [Double F] (limits : ParserLimits) (c : Core) (xs ys : List Lexeme) :
    c.putsAll (F := F) limits (xs ++ ys) = c.putsAll limits xs ++
      (c.run limits xs).putsAll limits ys := by
  induction xs generalizing c with
  | nil => rfl
  | cons x xs ih => simp only [List.cons_append, putsAll, ih, run_cons, List.append_assoc]

/-- From `c` on the lexemes are `xs`, with `rest` behind them. -/
def Lexes (limits : ParserLimits) : Core → List Lexeme → List UInt8 → Prop
  | _, [], _ => True
  | c, x :: xs, rest =>
    c.lex (bytesOf (x :: xs) ++ rest) = some x ∧ (c.after limits x).Lexes limits xs rest

/-- All of some lexemes are allowed. -/
def AllowsAll (limits : ParserLimits) : Core → List Lexeme → Prop
  | _, [] => True
  | c, x :: xs => c.allows limits x = true ∧ (c.after limits x).AllowsAll limits xs

/-- Lexemes are read one part after the other. -/
theorem lexes_append {limits : ParserLimits} {c : Core} {xs ys : List Lexeme}
    {rest : List UInt8} : c.Lexes limits (xs ++ ys) rest ↔
      c.Lexes limits xs (bytesOf ys ++ rest) ∧ (c.run limits xs).Lexes limits ys rest := by
  induction xs generalizing c with
  | nil => simp [Lexes]
  | cons x xs ih =>
    simp only [List.cons_append, Lexes, ih, run_cons, bytesOf_cons, bytesOf_append,
      List.append_assoc, and_assoc]

/-- They are allowed one part after the other. -/
theorem allowsAll_append {limits : ParserLimits} {c : Core} {xs ys : List Lexeme} :
    c.AllowsAll limits (xs ++ ys) ↔
      c.AllowsAll limits xs ∧ (c.run limits xs).AllowsAll limits ys := by
  induction xs generalizing c with
  | nil => simp [AllowsAll]
  | cons x xs ih => simp only [List.cons_append, AllowsAll, ih, run_cons, and_assoc]

end Core

namespace Core

variable {limits : ParserLimits} {c : Core} {x : Lexeme} {xs ys : List Lexeme}
  {l rest rest' : List UInt8}

/-- Before the byte order mark was looked for there is no string value and no number. -/
def Begun (c : Core) : Prop := c.bomChecked = false → c.inString = false ∧ c.number.stage = .none

/-- Outside a string value and a number, the byte order mark being looked for. -/
structure Between (c : Core) : Prop where
  bom : c.bomChecked = true
  outside : c.inString = false
  noNumber : c.number.stage = .none

/-- The byte order mark is looked for once. -/
theorem after_bomChecked (h : c.bomChecked = true) : (c.after limits x).bomChecked = true := by
  cases x with
  | space b => simp only [after]; split <;> exact h
  | digit b => simp only [after]; split <;> exact h
  | mark => rfl
  | _ => exact h

/-- After a lexeme the document has begun. -/
theorem after_begun (h : c.lex l = some x) : (c.after limits x).Begun := by
  intro hb
  by_cases hc : c.bomChecked = true
  · rw [after_bomChecked hc] at hb
    cases hb
  · unfold lex at h
    rw [if_pos (by simpa using hc)] at h
    split at h <;> cases h
    cases hb

/-- So it has after all of them. -/
theorem Lexes.begun (h : c.Lexes limits xs rest) (hc : c.Begun) : (c.run limits xs).Begun := by
  induction xs generalizing c with
  | nil => exact hc
  | cons x xs ih => exact ih h.2 (after_begun h.1)

theorem Between.lex (h : c.Between) (l : List UInt8) : c.lex l = c.lexOuter l := by
  rw [Core.lex, if_neg (by simp [h.bom]), if_neg (by simp [h.outside]),
    if_neg (by simp [h.noNumber])]

theorem Between.lex_nil (h : c.Between) : c.lex [] = none := h.lex []

/-- At the end of the input only a number can end. -/
theorem lex_nil (h : c.lex [] = some x) : x = .endNumber ∧ c.bomChecked = true ∧
    c.inString = false ∧ c.number.stage.isFinal = true := by
  unfold Core.lex at h
  by_cases hb : c.bomChecked = true
  swap
  · rw [if_pos (by simpa using hb)] at h
    cases h
  rw [if_neg (by simp [hb])] at h
  by_cases hs : c.inString = true
  · rw [if_pos hs] at h
    cases h
  rw [if_neg hs] at h
  split at h
  · rw [lexNumber] at h
    split at h
    · next hf => cases h; exact ⟨rfl, hb, by simpa using hs, hf⟩
    · cases h
  · cases h

/-- The lexemes are determined, as far as they go. -/
theorem lexes_linear (h : c.Lexes limits xs rest) (h' : c.Lexes limits ys rest')
    (heq : bytesOf xs ++ rest = bytesOf ys ++ rest') :
    (∃ zs, ys = xs ++ zs) ∨ ∃ zs, xs = ys ++ zs := by
  induction xs generalizing c ys with
  | nil => exact .inl ⟨ys, rfl⟩
  | cons x xs ih =>
    cases ys with
    | nil => exact .inr ⟨x :: xs, rfl⟩
    | cons y ys =>
      obtain ⟨hx, h⟩ := h
      obtain ⟨hy, h'⟩ := h'
      rw [← heq, hx] at hy
      cases hy
      simp only [bytesOf_cons, List.append_assoc, List.append_cancel_left_eq] at heq
      rcases ih h h' heq with ⟨zs, rfl⟩ | ⟨zs, rfl⟩
      · exact .inl ⟨zs, rfl⟩
      · exact .inr ⟨zs, rfl⟩

variable [Double F]

/-- A number that may end is ended by the end of the input. -/
theorem endInput_final (hs : c.inString = false) (hf : c.number.stage.isFinal = true) :
    c.endInput (F := F) =
      some (c.endNumber, [c.endNumber.mark (.numberValue c.number.value)]) := by
  rw [endInput_outside hs]
  cases hn : c.number.stage <;> rw [hn] at hf <;> first | rfl | cases hf

variable (limits) in
/-- The end of the input puts out what the lexemes there put out. -/
theorem endInput_lexes {c' : Core} {out : List (Mark F)} (hc : c.Begun)
    (h : c.endInput = some (c', out)) : c'.inString = false ∧ c'.number.stage = .none ∧
      ∃ xs, bytesOf xs = [] ∧ c.Lexes limits xs [] ∧ c.AllowsAll limits xs ∧ c' = c.run limits xs ∧
        out = c.putsAll limits xs := by
  unfold endInput at h
  by_cases hs : c.inString = true
  · rw [if_pos hs] at h
    cases h
  rw [if_neg hs] at h
  have hs' : c.inString = false := by simpa using hs
  have number (hf : c.number.stage.isFinal = true) (hn : c.number.stage ≠ .none)
      (h : some (c.endNumber, [c.endNumber.mark (.numberValue c.number.value)]) = some (c', out)) :
      c'.inString = false ∧ c'.number.stage = .none ∧
      ∃ xs, bytesOf xs = [] ∧ c.Lexes limits xs [] ∧ c.AllowsAll limits xs ∧ c' = c.run limits xs ∧
        out = c.putsAll limits xs := by
    cases h
    have hb : c.bomChecked = true := by
      by_contra hb
      exact hn (hc (by simpa using hb)).2
    refine ⟨hs', rfl, [.endNumber], rfl, ⟨?_, trivial⟩, ⟨rfl, trivial⟩, rfl, rfl⟩
    show c.lex [] = some .endNumber
    rw [Core.lex, if_neg (by simp [hb]), if_neg hs, if_pos hn, lexNumber, if_pos hf]
  split at h
  · next hn =>
    cases h
    exact ⟨hs', hn, [], rfl, trivial, trivial, rfl, rfl⟩
  case h_6 | h_7 | h_8 | h_9 => cases h
  all_goals
    next hn => exact number (by rw [hn]; rfl) (by rw [hn]; simp) h

end Core

section Runs

variable [Double F] {limits : ParserLimits} {c c' : Core} {l l' rest : List UInt8}
  {os : List (Mark F)} {xs : List Lexeme} {x : Lexeme} {a : Bool}

/-- **Steps of the machine are lexemes that are allowed.** -/
theorem lexes_of_steps (h : (machine F limits).Steps c l os c' l') :
    ∃ xs, l = bytesOf xs ++ l' ∧ c' = c.run limits xs ∧ os = c.putsAll limits xs ∧
      c.Lexes limits xs l' ∧ c.AllowsAll limits xs := by
  induction h with
  | refl => exact ⟨[], rfl, rfl, rfl, trivial, trivial⟩
  | @head c l n c₁ out os c' l' hn _ ih =>
    replace hn : c.next limits l = .step n c₁ out := hn
    have hl : l ≠ [] := by
      rintro rfl
      rw [next_nil] at hn
      cases hn
    obtain ⟨xs, hdrop, rfl, rfl, hlex, hall⟩ := ih
    cases hx : c.lex l with
    | none =>
      rcases (Core.next_takesNone limits hx : Core.TakesNone (F := F) _) with h | h <;>
        (rw [hn] at h; cases h)
    | some x =>
      have htakes := Core.next_takes (F := F) limits hl hx
      rw [Core.Takes] at htakes
      split at htakes
      · next ha =>
        rw [hn] at htakes
        cases htakes
        obtain ⟨r, rfl⟩ := Core.lex_prefix hx
        rw [List.drop_left] at hdrop
        subst hdrop
        exact ⟨x :: xs, by simp, rfl, rfl, ⟨by simpa using hx, hlex⟩, ha, hall⟩
      · obtain ⟨out', h, -⟩ := htakes
        rw [hn] at h
        cases h

/-- **What is put out is put out by lexemes**, all allowed but for the last, which may be one token
too many. -/
theorem Produces.lexes (h : Produces limits c l os) (hc : c.Begun) : ∃ xs last rest,
    l = bytesOf (xs ++ last) ++ rest ∧ c.Lexes limits (xs ++ last) rest ∧ c.AllowsAll limits xs ∧
      os <+: c.putsAll limits (xs ++ last) ∧
      (last = [] ∨ ∃ x, last = [x] ∧ x.isToken = true ∧
        ((c.run limits xs).within limits x && (c.run limits xs).novel x) = true) := by
  rcases h with ⟨mid, c', l', hs, hp⟩ | ⟨mid, c', c'', fin, hs, he, hp⟩
  · obtain ⟨xs, rfl, rfl, rfl, hlex, hall⟩ := lexes_of_steps hs
    have none (hp : os <+: c.putsAll limits xs) : ∃ ys last rest,
        bytesOf xs ++ l' = bytesOf (ys ++ last) ++ rest ∧ c.Lexes limits (ys ++ last) rest ∧
          c.AllowsAll limits ys ∧ os <+: c.putsAll limits (ys ++ last) ∧
          (last = [] ∨ ∃ x, last = [x] ∧ x.isToken = true ∧
            ((c.run limits ys).within limits x && (c.run limits ys).novel x) = true) :=
      ⟨xs, [], l', by simp, by simpa using hlex, hall, by simpa using hp, .inl rfl⟩
    replace hp : os <+: c.putsAll limits xs ++ ((c.run limits xs).next limits l').out := hp
    cases hx : (c.run limits xs).lex l' with
    | none =>
      refine none ?_
      rcases (Core.next_takesNone limits hx : Core.TakesNone (F := F) _) with h | h <;>
        (rw [h] at hp; simpa [Verdict.out] using hp)
    | some x =>
      by_cases hl : l' = []
      · subst hl
        rw [next_nil] at hp
        exact none (by simpa [Verdict.out] using hp)
      have htakes := Core.next_takes (F := F) limits hl hx
      obtain ⟨r, rfl⟩ := Core.lex_prefix hx
      have hlex' : c.Lexes limits (xs ++ [x]) r :=
        Core.lexes_append.mpr ⟨by simpa using hlex, by simpa [Core.Lexes] using hx⟩
      rw [Core.Takes] at htakes
      split at htakes
      · next ha =>
        rw [htakes] at hp
        refine ⟨xs ++ [x], [], r, by simp, by simpa using hlex',
          Core.allowsAll_append.mpr ⟨hall, ha, trivial⟩, ?_, .inl rfl⟩
        simpa [Core.putsAll_append, Core.putsAll, Verdict.out] using hp
      · next ha =>
        obtain ⟨out, hv, hout, hquiet⟩ := htakes
        rw [hv] at hp
        cases hw : (c.run limits xs).within limits x && (c.run limits xs).novel x with
        | true =>
          -- there are too many tokens, which is seen after a container or a key was put out
          have ht : x.isToken = true := by
            by_contra ht
            exact ha (by simp [Core.allows, Core.counted, ht, hw])
          refine ⟨xs, [x], r, by simp, hlex', hall, hp.trans ?_, .inr ⟨x, rfl, ht, hw⟩⟩
          rw [Core.putsAll_append]
          refine (List.prefix_append_right_inj _).mpr ?_
          rw [Core.putsAll, Core.putsAll, List.append_nil]
          exact hout
        | false =>
          refine none ?_
          rw [hquiet hw] at hp
          simpa [Verdict.out] using hp
  · obtain ⟨xs, rfl, rfl, rfl, hlex, hall⟩ := lexes_of_steps hs
    obtain ⟨-, -, ys, hbytes, hlex', hall', rfl, rfl⟩ :=
      Core.endInput_lexes limits (hlex.begun hc) he
    refine ⟨xs ++ ys, [], [], by simp [hbytes], ?_, Core.allowsAll_append.mpr ⟨hall, hall'⟩, ?_,
      .inl rfl⟩
    · rw [List.append_nil, Core.lexes_append]
      exact ⟨by simpa [hbytes] using hlex, hlex'⟩
    · rwa [List.append_nil, Core.putsAll_append]

/-- A verdict on what is behind some lexemes. -/
theorem Ends.of_lexes (h : c.Lexes limits xs rest) (ha : c.AllowsAll limits xs)
    (he : Ends limits (c.run limits xs) rest a os) :
    Ends limits c (bytesOf xs ++ rest) a (c.putsAll limits xs ++ os) := by
  induction xs generalizing c with
  | nil => exact he
  | cons x xs ih =>
    obtain ⟨hx, h⟩ := h
    obtain ⟨hax, ha⟩ := ha
    have he' := ih h ha he
    by_cases hnil : bytesOf (x :: xs) ++ rest = []
    · -- the input has ended, and so does a number
      rw [hnil] at hx ⊢
      obtain ⟨rfl, hb, hs, hf⟩ := Core.lex_nil hx
      rw [bytesOf_cons, List.append_assoc, List.append_eq_nil_iff] at hnil
      rw [hnil.2, ends_nil] at he'
      have hafter : Core.ending (F := F) (c.after limits .endNumber) [] =
          (c.endNumber.complete, []) := by
        rw [Core.after, Core.ending_nil,
          Core.endInput_outside (show c.endNumber.inString = false from hs)]
        rfl
      rw [hafter] at he'
      rw [ends_nil, Core.ending_nil, Core.endInput_final hs hf]
      refine ⟨he'.1, ?_⟩
      rw [Core.putsAll, List.append_assoc, he'.2]
      rfl
    · have hnext := Core.next_takes (F := F) limits hnil hx
      rw [Core.Takes, if_pos hax] at hnext
      have hsteps := steps_of_next hnext
      rw [bytesOf_cons, List.append_assoc, List.drop_left] at hsteps
      have := he'.of_steps hsteps
      rwa [← List.append_assoc, ← List.append_assoc] at this

/-- A verdict where a lexeme is not allowed. -/
theorem Ends.of_refused (h : c.Lexes limits xs (x.bytes ++ rest)) (ha : c.AllowsAll limits xs)
    (hne : x.bytes ++ rest ≠ []) (hx : (c.run limits xs).lex (x.bytes ++ rest) = some x)
    (hax : (c.run limits xs).allows limits x = false) :
    ∃ out : List (Mark F), out <+: (c.run limits xs).puts limits x ∧
      (((c.run limits xs).within limits x && (c.run limits xs).novel x) = false → out = []) ∧
      Ends limits c (bytesOf xs ++ (x.bytes ++ rest)) false (c.putsAll limits xs ++ out) := by
  have hnext := Core.next_takes (F := F) limits hne hx
  rw [Core.Takes, hax] at hnext
  obtain ⟨out, hv, hout, hquiet⟩ := hnext
  exact ⟨out, hout, hquiet, .of_lexes h ha (.of_fails (fails_of_next hv))⟩

/-- **A document that is accepted is a list of lexemes** that are allowed. -/
theorem Ends.lexes (h : Ends limits c l true os) (hc : c.Begun) : ∃ xs, l = bytesOf xs ∧
    c.Lexes limits xs [] ∧ c.AllowsAll limits xs ∧ os = c.putsAll limits xs ∧
      (c.run limits xs).inString = false ∧ (c.run limits xs).number.stage = .none ∧
      (c.run limits xs).complete = true := by
  obtain ⟨mid, c', l', last, hs, hl, rfl⟩ := h
  obtain ⟨rfl, hcomplete⟩ := hl.accepted rfl
  obtain ⟨xs, rfl, rfl, rfl, hlex, hall⟩ := lexes_of_steps hs
  have hlast := hl.unique (.need (next_nil limits _))
  rw [Core.ending_nil] at hcomplete hlast
  cases he : (c.run limits xs).endInput (F := F) with
  | none => rw [he] at hcomplete; cases hcomplete
  | some r =>
    obtain ⟨c', out⟩ := r
    rw [he] at hcomplete hlast
    obtain ⟨hs', hn', ys, hbytes, hlex', hall', rfl, rfl⟩ :=
      Core.endInput_lexes limits (hlex.begun hc) he
    refine ⟨xs ++ ys, by simp [hbytes], ?_, Core.allowsAll_append.mpr ⟨hall, hall'⟩, ?_, ?_⟩
    · rw [Core.lexes_append]
      exact ⟨by simpa [hbytes] using hlex, hlex'⟩
    · rw [Core.putsAll_append, hlast.2]
    · rw [Core.run_append]
      exact ⟨hs', hn', hcomplete⟩

end Runs

end RJsonParser
