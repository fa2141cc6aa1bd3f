import RJsonParser.Properties.NumberTokens

/-!
# Positions

Where the locator stands at a token: behind its last character, in lines and columns of the text
that was read, however it arrived.

* `positionOf` — the position behind a text
* `Core.Located` — the locator of the machine stands behind the text read so far, but for a number
  that has not ended
* `positions_exact` — the position at each callback that is no piece of content or whitespace
-/

namespace RJsonParser

open Infra Infra.Utf8

variable {F : Type}

/-! ## Positions in a text -/

/-- A character that ends a line. -/
def isBreak (c : Char) : Bool := c = '\n' || c = '\r'

/-- The line breaks of a text behind the character `prev`. A line feed behind a carriage return is
none of its own. -/
def breaksAfter (prev : Char) : Text → Nat
  | [] => 0
  | c :: cs => (if c = '\r' ∨ c = '\n' ∧ prev ≠ '\r' then 1 else 0) + breaksAfter c cs

/-- The line breaks of a text. -/
def lineBreaks (cs : Text) : Nat := breaksAfter ' ' cs

/-- The text behind the last line break. -/
def lastLine (cs : Text) : Text := (cs.reverse.takeWhile fun c => !isBreak c).reverse

/-- The length of a text in UTF-16 units. -/
def utf16Length (cs : Text) : Nat := (cs.map utf16Size).sum

/-- **The position behind a text.** -/
def positionOf (cs : Text) : SharedLocator := ⟨1 + lineBreaks cs, 1 + utf16Length (lastLine cs)⟩

/-- A text ends in a carriage return. -/
def EndsCr (cs : Text) : Prop := cs.getLast? = some '\r'

instance (cs : Text) : Decidable (EndsCr cs) := inferInstanceAs (Decidable (_ = _))

/-- A text without line breaks. -/
def Unbroken (t : Text) : Prop := ∀ c ∈ t, isBreak c = false

theorem endsCr_cons_cons (c d : Char) (cs : Text) : EndsCr (c :: d :: cs) ↔ EndsCr (d :: cs) := by
  unfold EndsCr
  rw [List.getLast?_cons_cons]

theorem endsCr_concat (c : Char) (cs : Text) : EndsCr (cs ++ [c]) ↔ c = '\r' := by
  simp [EndsCr]

/-- Line breaks are counted from left to right, CR and LF together once. -/
theorem breaksAfter_concat (prev c : Char) (cs : Text) : breaksAfter prev (cs ++ [c]) =
    breaksAfter prev cs + (if c = '\r' ∨ c = '\n' ∧ ¬ EndsCr (prev :: cs) then 1 else 0) := by
  induction cs generalizing prev with
  | nil => simp [breaksAfter, EndsCr]
  | cons d cs ih =>
    rw [List.cons_append, breaksAfter, ih d, breaksAfter, ← Nat.add_assoc]
    simp only [endsCr_cons_cons]

/-- So they are from the start. -/
theorem lineBreaks_concat (c : Char) (cs : Text) : lineBreaks (cs ++ [c]) =
    lineBreaks cs + (if c = '\r' ∨ c = '\n' ∧ ¬ EndsCr cs then 1 else 0) := by
  have hlast : EndsCr (' ' :: cs) ↔ EndsCr cs := by
    cases cs with
    | nil => simp [EndsCr]
    | cons d cs => exact endsCr_cons_cons _ _ _
  unfold lineBreaks
  rw [breaksAfter_concat]
  simp only [hlast]

/-- A line break starts a new line. -/
theorem lastLine_concat (c : Char) (cs : Text) :
    lastLine (cs ++ [c]) = if isBreak c then [] else lastLine cs ++ [c] := by
  unfold lastLine
  rw [List.reverse_append, List.reverse_singleton, List.singleton_append, List.takeWhile_cons]
  cases isBreak c <;> simp

/-- Nothing is in a line that has just been started. -/
theorem EndsCr.lastLine {cs : Text} (h : EndsCr cs) : lastLine cs = [] := by
  obtain ⟨ds, rfl⟩ := List.getLast?_eq_some_iff.mp h
  rw [lastLine_concat]
  rfl

theorem utf16Length_append (cs ds : Text) :
    utf16Length (cs ++ ds) = utf16Length cs + utf16Length ds := by
  simp [utf16Length]

/-- A text without line breaks is more of the last line. -/
theorem Unbroken.append {t : Text} (h : Unbroken t) (cs : Text) :
    lineBreaks (cs ++ t) = lineBreaks cs ∧ lastLine (cs ++ t) = lastLine cs ++ t := by
  induction t using List.reverseRecOn with
  | nil => simp
  | append_singleton t c ih =>
    obtain ⟨hl, hc⟩ := ih fun d hd => h d (List.mem_append_left _ hd)
    have hb : isBreak c = false := h c (by simp)
    have hne : ¬ (c = '\r' ∨ c = '\n' ∧ ¬ EndsCr (cs ++ t)) := by
      simp only [isBreak, Bool.or_eq_false_iff, decide_eq_false_iff_not] at hb
      rintro (rfl | ⟨rfl, -⟩)
      · exact hb.2 rfl
      · exact hb.1 rfl
    rw [← List.append_assoc, lineBreaks_concat, lastLine_concat, hl, hc, hb, if_neg hne]
    simp

/-- What ends in a text without line breaks ends in no carriage return. -/
theorem Unbroken.not_endsCr {t : Text} (h : Unbroken t) (hne : t ≠ []) (cs : Text) :
    ¬ EndsCr (cs ++ t) := by
  intro hcr
  rw [EndsCr, List.getLast?_append_of_ne_nil _ hne, List.getLast?_eq_some_getLast hne] at hcr
  have := h _ (List.getLast_mem hne)
  rw [Option.some.inj hcr] at this
  cases this

/-! ## Bytes of a text -/

/-- The bytes of a text without line breaks. -/
def Written (l : List UInt8) : Prop := ∃ t, l = encode t ∧ Unbroken t

/-- Texts that are written are so together. -/
theorem written_append {l m : List UInt8} (hl : Written l) (hm : Written m) : Written (l ++ m) := by
  obtain ⟨s, rfl, hs⟩ := hl
  obtain ⟨t, rfl, ht⟩ := hm
  refine ⟨s ++ t, (encode_append s t).symm, fun c hc => ?_⟩
  rcases List.mem_append.mp hc with hc | hc
  · exact hs c hc
  · exact ht c hc

/-- Printable bytes. -/
theorem written_printable {l : List UInt8} (h : ∀ b ∈ l, IsPrintable b) : Written l := by
  refine ⟨l.map byteChar, (encode_ascii fun b hb => (h b hb).2).symm, fun c hc => ?_⟩
  obtain ⟨b, hb, rfl⟩ := List.mem_map.mp hc
  have key : ∀ b, IsPrintable b → isBreak (byteChar b) = false := forall_byte (by decide +kernel)
  exact key b (h b hb)

/-- A character that is no control character. -/
theorem written_front {b : UInt8} {l : List UInt8} {c : Char} {n : Nat} (hb : ¬ b < 0x20)
    (h : front (b :: l) = .char c n) : Written ((b :: l).take n) := by
  obtain ⟨rfl, r, hl⟩ := front_eq_char h
  have htake : (b :: l).take c.utf8Size = encode [c] := by
    rw [hl]
    simp [encode, String.length_utf8EncodeChar]
  refine ⟨[c], htake, fun d hd => ?_⟩
  obtain rfl := List.mem_singleton.mp hd
  by_contra hbr
  have hbr' : d = '\n' ∨ d = '\r' := by
    simpa [isBreak, or_iff_not_imp_left] using hbr
  rcases hbr' with rfl | rfl
  all_goals
    cases hl
    exact hb (by decide)

/-- A character of raw content. -/
theorem written_rawChar {l : List UInt8} {c : Char} {n : Nat} (h : rawChar l = some (c, n)) :
    Written (l.take n) := by
  cases l with
  | nil => cases h
  | cons b l =>
    by_cases hb : b = backslash
    · subst hb
      exact written_printable (escape_printable h)
    · rw [rawChar, if_neg hb] at h
      split at h
      · cases h
      · next hd =>
        split at h
        · next hf => cases h; exact written_front (fun hlt => hd (.inr hlt)) hf
        · cases h

/-- Content that denotes a text. -/
theorem written_decoded {raw : List UInt8} {s : Text} (h : decodeString raw = some s) :
    Written raw :=
  decodeString_induct (P := fun raw _ => Written raw) ⟨[], rfl, by simp [Unbroken]⟩
    (fun {raw _ n _} hc _ ih => by
      rw [← List.take_append_drop n raw]
      exact written_append (written_rawChar hc) ih) h

/-! ## Lexemes -/

namespace Core

variable {limits : ParserLimits} {c c' : Core} {x : Lexeme} {b : UInt8} {l : List UInt8}

/-- The columns of a number that has not ended. -/
def pending (c : Core) : Nat := if c.number.stage = .none then 0 else c.number.length

/-- The column behind all that was read. -/
def reach (c : Core) : Nat := c.pos.column + c.pending

/-- From `c` to `c'` the bytes `l` were read on the same line. -/
structure Advances (c c' : Core) (l : List UInt8) : Prop where
  written : Written l
  line : c'.pos.line = c.pos.line
  column : c'.reach = c.reach + units l
  noCr : c'.pos.afterCr = false
  inside : l = [] → c.number.stage ≠ .none
  quiet : c'.inString = true → c'.number.stage = .none

/-- Outside numbers the locator is where the machine is. -/
theorem pending_none (h : c.number.stage = .none) : c.pending = 0 := if_pos h

/-- In a number it is where the number began. -/
theorem pending_some (h : c.number.stage ≠ .none) : c.pending = c.number.length := if_neg h

/-- Printable ASCII has one unit a byte. -/
theorem units_printable {l : List UInt8} (h : ∀ b ∈ l, IsPrintable b) : units l = l.length :=
  units_ascii fun b hb => (h b hb).2

/-- Printable bytes, each a column. -/
theorem advances_printable (hp : ∀ b ∈ l, IsPrintable b) (hne : l ≠ [])
    (hpos : c'.pos = { c.pos with column := c.pos.column + l.length }) (hn : c'.number = c.number)
    (hcr : c.pos.afterCr = false) (hq : c.number.stage = .none) : c.Advances c' l where
  written := written_printable hp
  line := by rw [hpos]
  column := by
    unfold reach pending
    rw [units_printable hp, hpos, hn]
    exact Nat.add_right_comm _ _ _
  noCr := by rw [hpos]; exact hcr
  inside h := absurd h hne
  quiet _ := by rw [hn]; exact hq

theorem quote_printable : IsPrintable quote := by decide

theorem openByte_printable (context : Context) : IsPrintable context.openByte := by
  cases context <;> decide

theorem closeByte_printable (context : Context) : IsPrintable context.closeByte := by
  cases context <;> decide

theorem literalBytes_printable (value : Option Bool) : ∀ b ∈ literalBytes value, IsPrintable b := by
  rcases value with - | - | - <;> decide +kernel

theorem startsNumber_printable (h : startsNumber b = true) : IsPrintable b := by
  have key : ∀ b, startsNumber b = true → IsPrintable b := forall_byte (by decide +kernel)
  exact key b h

/-- A byte that goes on with a number. -/
theorem takeByte_printable {s s' : NumberState} (h : s.takeByte b = .next s') : IsPrintable b := by
  have hstage : s.stage.next b = some s'.stage := by
    rw [← s.takeByte_next b, h]
    rfl
  have key (stage : NumStage) : ∀ b, (stage.next b).isSome = true → IsPrintable b :=
    forall_byte (by cases stage <;> decide +kernel)
  exact key s.stage b (by rw [hstage]; rfl)

/-- A string with its quotes. -/
theorem written_quoted {raw : List UInt8} (h : Written raw) :
    Written (quote :: raw ++ [quote]) := by
  have hq : Written [quote] := written_printable (by simpa using quote_printable)
  exact written_append (written_append hq h) hq

theorem start_number_stage (b : UInt8) : (NumberState.start b).stage ≠ .none := by
  rw [start_stage]
  split_ifs <;> simp

/-- **A token** is read on one line. -/
theorem advances_token (h : c.lexToken b l = some x) (hs : c.inString = false)
    (hn : c.number.stage = .none) (hcr : c.pos.afterCr = false) :
    c.Advances (c.after limits x) x.bytes := by
  unfold lexToken at h
  split at h
  case h_1 hk =>
    split at h
    · cases h
    · cases h
    · unfold lexKey at h
      split at h
      · next n hf =>
        obtain ⟨text, hd, rfl⟩ := Option.map_eq_some_iff.mp h
        refine ⟨written_quoted (written_decoded hd), rfl, ?_, hcr, (fun h => by cases h),
          fun _ => hn⟩
        show c.pos.column + (2 + units (l.take n)) + c.pending = _
        have hq : unitsOf quote = 1 := rfl
        simp only [Lexeme.bytes, List.cons_append, units_cons, units_append, units_nil, hq, reach]
        omega
      · cases h
    · cases h
      exact advances_printable (by simpa [Lexeme.bytes] using quote_printable)
        (by simp [Lexeme.bytes]) rfl rfl hcr hn
  case h_2 hk =>
    split at h <;> cases h
    exact advances_printable (by decide +kernel) (by simp [Lexeme.bytes]) rfl rfl hcr hn
  case h_3 hk =>
    split at h <;> cases h
    exact advances_printable (by decide +kernel) (by simp [Lexeme.bytes]) rfl rfl hcr hn
  case h_4 context hk =>
    split at h <;> cases h
    exact advances_printable (by simpa [Lexeme.bytes] using openByte_printable context)
      (by simp [Lexeme.bytes]) rfl rfl hcr hn
  case h_5 context hk =>
    split at h <;> cases h
    exact advances_printable (by simpa [Lexeme.bytes] using closeByte_printable context)
      (by simp [Lexeme.bytes]) rfl rfl hcr hn
  case h_6 rest value hk =>
    split at h <;> cases h
    exact advances_printable (literalBytes_printable value)
      (by rw [Lexeme.bytes, ← tokenKind_literal hk]; simp) rfl rfl hcr hn
  case h_7 hk =>
    split at h <;> cases h
    have hb := tokenKind_starts b
    rw [hk] at hb
    have hp : ∀ a ∈ [b], IsPrintable a := by
      simpa using startsNumber_printable (by simpa [startsToken, startsNumber] using hb)
    refine ⟨written_printable hp, rfl, ?_, hcr, (fun h => by cases h), fun h => ?_⟩
    swap
    · have h : c.inString = true := h
      rw [hs] at h
      cases h
    show c.pos.column + ((c.beginNumber b).count limits).pending = c.reach + units [b]
    rw [pending_some (start_number_stage b), units_printable hp, reach, pending_none hn]
    show c.pos.column + (NumberState.start b).length = c.pos.column + 0 + 1
    rw [NumberState.start_length]
  case h_8 => cases h

/-- A character of a string value, or its end. -/
theorem advances_string (h : lexString l = some x) (hn : c.number.stage = .none)
    (hcr : c.pos.afterCr = false) : c.Advances (c.after limits x) x.bytes := by
  cases l with
  | nil => cases h
  | cons b l =>
    rw [lexString] at h
    split at h
    · cases h
      exact advances_printable (by simpa [Lexeme.bytes] using quote_printable)
        (by simp [Lexeme.bytes]) rfl rfl hcr hn
    -- a character is as many columns as its raw bytes have UTF-16 units
    have char (ch : Char) (n : Nat) (hr : rawChar (b :: l) = some (ch, n))
        (hu : columns ((b :: l).take n) ch = units ((b :: l).take n)) :
        c.Advances (c.after limits (.char ((b :: l).take n) ch)) ((b :: l).take n) := by
      refine ⟨written_rawChar hr, rfl, ?_, hcr, fun hnil => ?_, fun _ => hn⟩
      · show c.pos.column + columns ((b :: l).take n) ch + c.pending = _
        rw [hu, reach, Nat.add_right_comm]
      · have := rawChar_length hr
        rw [List.take_eq_nil_iff] at hnil
        rcases hnil with rfl | hnil
        · omega
        · cases hnil
    split at h
    · next hb =>
      subst hb
      split at h
      · next ch n hr =>
        cases h
        have hraw := resolve_rawChar hr
        have hpos := (rawChar_length hraw).1
        refine char ch n hraw ?_
        rw [columns, if_pos (head?_take_cons hpos), units_escape hraw, List.length_take,
          Nat.min_eq_left (rawChar_length hraw).2.2]
      · cases h
    · next hq hb =>
      split at h
      · cases h
      · next hlt =>
        split at h
        · next ch n hf =>
          cases h
          have hraw : rawChar (b :: l) = some (ch, n) := by
            rw [rawChar, if_neg hb, if_neg (by simp [hq, hlt]), hf]
          refine char ch n hraw ?_
          obtain ⟨rfl, r, hl⟩ := front_eq_char hf
          rw [columns, if_neg, hl]
          · rw [← String.length_utf8EncodeChar, List.take_left, units_encodeChar]
          · rw [head?_take_cons (rawChar_length hraw).1]
            simpa using hb
        · cases h

/-- A byte of a number, or its end. -/
theorem advances_number (h : lexNumber c.number l = some x) (hs : c.inString = false)
    (hn : c.number.stage ≠ .none) (hcr : c.pos.afterCr = false) :
    c.Advances (c.after limits x) x.bytes := by
  have ended : c.Advances (c.after limits .endNumber) [] := by
    refine ⟨⟨[], rfl, by simp [Unbroken]⟩, rfl, ?_, hcr, fun _ => hn, fun _ => rfl⟩
    rw [units_nil, Nat.add_zero, reach, reach, pending_some hn]
    rfl
  cases l with
  | nil =>
    rw [lexNumber] at h
    split at h <;> cases h
    exact ended
  | cons b l =>
    rw [lexNumber] at h
    split at h
    · next n ht =>
      cases h
      have hp : ∀ a ∈ [b], IsPrintable a := by simpa using takeByte_printable ht
      refine ⟨written_printable hp, by rw [after_digit], ?_, by rw [after_digit]; exact hcr,
        (fun h => by cases h), fun h => ?_⟩
      swap
      · rw [after_digit] at h
        exact absurd h (by simp [hs])
      have hst : n.stage ≠ .none := NumberState.takeByte_stage ht
      have hlen : (n.addLength 1).length = c.number.length + 1 := by
        rw [← NumberState.takeByte_length ht]
        rfl
      rw [Lexeme.bytes, units_printable hp, reach, reach, after_digit, further, ht]
      simp only
      rw [pending_some (show (n.addLength 1).stage ≠ .none from hst), pending_some hn, hlen]
      rfl
    · cases h
      exact ended
    · cases h

/-- The text `cs` was read, and `rest` comes next. -/
structure Located (c : Core) (cs : Text) (rest : List UInt8) : Prop where
  bom : c.bomChecked = true
  line : c.pos.line = 1 + lineBreaks cs
  column : c.reach = 1 + utf16Length (lastLine cs)
  cr : c.pos.afterCr = true → EndsCr cs ∧ c.inString = false ∧ c.number.stage = .none
  /-- A line feed behind a carriage return is seen as such. -/
  fed : EndsCr cs → c.pos.afterCr = true ∨ rest.head? ≠ some 0x0A
  number : c.number.stage ≠ .none → ¬ EndsCr cs
  quiet : c.inString = true → c.number.stage = .none

variable {cs : Text} {rest : List UInt8} {xs : List Lexeme}

/-- **A step that takes text** moves the locator over it. -/
theorem Located.advance (h : c.Located cs (l ++ rest)) (ha : c.Advances c' l)
    (hb : c'.bomChecked = true) : ∃ t, l = encode t ∧ c'.Located (cs ++ t) rest := by
  obtain ⟨t, rfl, ht⟩ := ha.written
  obtain ⟨hl, hc⟩ := ht.append cs
  have hcr : ¬ EndsCr (cs ++ t) := by
    by_cases hne : t = []
    · subst hne
      rw [List.append_nil]
      exact h.number (ha.inside rfl)
    · exact ht.not_endsCr hne cs
  refine ⟨t, rfl, hb, by rw [ha.line, h.line, hl], ?_, fun h => ?_, fun h => absurd h hcr,
    fun _ => hcr, ha.quiet⟩
  · rw [ha.column, h.column, hc, units_encode, utf16Length_append, Nat.add_assoc]
    rfl
  · rw [ha.noCr] at h
    cases h

theorem isWs_ascii (h : isWs b = true) : b.toNat < 0x80 := by
  have key : ∀ b, isWs b = true → b.toNat < 0x80 := forall_byte (by decide +kernel)
  exact key b h

/-- A byte of whitespace. -/
theorem Located.space (h : c.Located cs (b :: rest)) (hc : c.Between) (hw : isWs b = true) :
    (c.after limits (.space b)).Located (cs ++ [byteChar b]) rest := by
  have hreach : c.pos.column = 1 + utf16Length (lastLine cs) := by
    rw [← h.column, reach, pending_none hc.noNumber, Nat.add_zero]
  obtain ⟨p, hp⟩ : ∃ p, wsByte c.pos b = some p := by
    refine Option.ne_none_iff_exists'.mp fun hn => ?_
    rw [wsByte_isWs, hw] at hn
    cases hn
  have hafter : c.after limits (.space b) = { c with pos := p } := by
    rw [after_space, hp]
    rfl
  rw [hafter]
  have hcol : reach { c with pos := p } = p.column := by
    show p.column + c.pending = _
    rw [pending_none hc.noNumber, Nat.add_zero]
  have noNumber : ({ c with pos := p } : Core).number.stage ≠ .none →
      ¬ EndsCr (cs ++ [byteChar b]) :=
    fun hne => absurd hc.noNumber hne
  rw [wsByte] at hp
  by_cases hlf : b = 0x0A
  · rw [if_pos hlf] at hp
    subst hlf
    cases hp
    -- it ends a line unless the carriage return before it did
    have hbr : c.pos.afterCr = true ↔ EndsCr cs :=
      ⟨fun ha => (h.cr ha).1, fun he => (h.fed he).resolve_right (by simp)⟩
    have hne : ¬ EndsCr (cs ++ [byteChar 0x0A]) := by
      rw [endsCr_concat]
      decide
    refine ⟨hc.bom, ?_, ?_, (fun h => by cases h), fun h => absurd h hne, noNumber,
      fun _ => hc.noNumber⟩
    · show (if c.pos.afterCr = true then c.pos.line else c.pos.line + 1) = _
      rw [lineBreaks_concat, h.line]
      by_cases ha : c.pos.afterCr = true
      · rw [if_pos ha, if_neg (by simp [hbr.mp ha, byteChar]), Nat.add_zero]
      · rw [if_neg ha, if_pos (.inr ⟨rfl, mt hbr.mpr ha⟩), Nat.add_assoc]
    · rw [hcol, lastLine_concat]
      rfl
  rw [if_neg hlf] at hp
  by_cases hcr : b = 0x0D
  · rw [if_pos hcr] at hp
    subst hcr
    cases hp
    have he : EndsCr (cs ++ [byteChar 0x0D]) := (endsCr_concat _ _).mpr rfl
    refine ⟨hc.bom, ?_, ?_, fun _ => ⟨he, hc.outside, hc.noNumber⟩, fun _ => .inl rfl, noNumber,
      fun _ => hc.noNumber⟩
    · show c.pos.line + 1 = _
      rw [lineBreaks_concat, h.line, if_pos (.inl rfl), Nat.add_assoc]
    · rw [hcol, lastLine_concat]
      rfl
  rw [if_neg hcr] at hp
  split at hp
  · next hsp =>
    cases hp
    have hun : Unbroken [byteChar b] := by
      intro d hd
      obtain rfl := List.mem_singleton.mp hd
      rcases hsp with rfl | rfl <;> rfl
    have hlen : utf16Length [byteChar b] = 1 := by
      rcases hsp with rfl | rfl <;> rfl
    obtain ⟨hl, hla⟩ := hun.append cs
    have hne := hun.not_endsCr (by simp) cs
    refine ⟨hc.bom, ?_, ?_, (fun h => by cases h), fun h => absurd h hne, noNumber,
      fun _ => hc.noNumber⟩
    · show c.pos.line = _
      rw [hl, h.line]
    · rw [hcol, hla, utf16Length_append, hlen, ← Nat.add_assoc, ← hreach]
  · cases hp

/-- **Each lexeme moves the locator behind its text.** -/
theorem Located.lex (h : c.Located cs (x.bytes ++ rest)) (hx : c.lex (x.bytes ++ rest) = some x) :
    ∃ t, x.bytes = encode t ∧ (c.after limits x).Located (cs ++ t) rest := by
  have hb : (c.after limits x).bomChecked = true := after_bomChecked h.bom
  rw [Core.lex, if_neg (by simp [h.bom])] at hx
  by_cases hs : c.inString = true
  · rw [if_pos hs] at hx
    refine h.advance (advances_string hx (h.quiet hs) ?_) hb
    by_contra hcr
    have := (h.cr (by simpa using hcr)).2.1
    rw [hs] at this
    cases this
  rw [if_neg hs] at hx
  by_cases hn : c.number.stage = .none
  swap
  · rw [if_pos hn] at hx
    refine h.advance (advances_number hx (by simpa using hs) hn ?_) hb
    by_contra hcr
    exact hn (h.cr (by simpa using hcr)).2.2
  rw [if_neg (not_not.mpr hn)] at hx
  have hc : c.Between := ⟨h.bom, by simpa using hs, hn⟩
  generalize hl : x.bytes ++ rest = l at hx h
  cases l with
  | nil => cases hx
  | cons b l =>
    rw [lexOuter] at hx
    split at hx
    · next hw =>
      cases hx
      cases hl
      have hb : ∀ a ∈ [b], a.toNat < 0x80 := by simpa using isWs_ascii hw
      exact ⟨[byteChar b], (encode_ascii hb).symm, h.space hc hw⟩
    · next hw =>
      split at hx
      · -- the line break is over, since no line feed follows it
        cases hx
        cases hl
        rw [← List.append_nil cs] at h
        refine ⟨[], rfl, h.bom, h.line, h.column, (fun h => by cases h), fun _ => .inr ?_,
          fun hne => absurd hn hne, fun _ => hn⟩
        intro hhead
        cases hhead
        exact hw rfl
      · next hcr =>
        rw [← hl] at h
        exact h.advance (advances_token hx hc.outside hn (by simpa using hcr)) hb

/-- **Lexemes move the locator behind their text.** -/
theorem Located.lexes (h : c.Located cs (bytesOf xs ++ rest)) (hx : c.Lexes limits xs rest) :
    ∃ t, bytesOf xs = encode t ∧ (c.run limits xs).Located (cs ++ t) rest := by
  induction xs generalizing c cs with
  | nil => exact ⟨[], rfl, by simpa [bytesOf] using h⟩
  | cons x xs ih =>
    obtain ⟨hx, hxs⟩ := hx
    rw [bytesOf_cons, List.append_assoc] at h hx
    obtain ⟨t, ht, hloc⟩ := h.lex hx
    obtain ⟨t', ht', hloc'⟩ := ih hloc hxs
    exact ⟨t ++ t', by rw [bytesOf_cons, ht, ht', encode_append], by
      rw [← List.append_assoc]; exact hloc'⟩

end Core

/-! ## Callbacks -/

/-- The byte order mark of UTF-8. -/
def utf8Mark : List UInt8 := [0xEF, 0xBB, 0xBF]

/-- `cs` is the text of the bytes `read`, but for a byte order mark. -/
def TextOf (read : List UInt8) (cs : Text) : Prop :=
  (read = encode cs ∧ ¬ utf8Mark <+: read) ∨ read = utf8Mark ++ encode cs

theorem bomFront_mark (l : List UInt8) : bomFront (utf8Mark ++ l) = .found 3 := rfl

section Calls

variable [Double F] {limits : ParserLimits} {c : Core} {xs : List Lexeme} {rest : List UInt8}

/-- At the start of a document. -/
structure Core.AtStart (c : Core) : Prop where
  bom : c.bomChecked = false
  noNumber : c.number.stage = .none
  pos : c.pos = ⟨1, 1, false⟩

omit [Double F] in
/-- **From the start of a document lexemes move the locator behind their text.** -/
theorem lexes_located (hc : c.AtStart) (h : c.Lexes limits xs rest) (hne : xs ≠ []) :
    ∃ cs, TextOf (bytesOf xs) cs ∧ (c.run limits xs).Located cs rest := by
  obtain ⟨x, xs, rfl⟩ := List.exists_cons_of_ne_nil hne
  obtain ⟨hx, hxs⟩ := h
  rw [Core.lex, if_pos (by simp [hc.bom])] at hx
  split at hx
  · next n hf =>
    obtain ⟨raw, rfl⟩ : ∃ raw, x = .mark raw := ⟨_, (Option.some.inj hx).symm⟩
    have hraw := Lexeme.mark.inj (Option.some.inj hx)
    rw [bytesOf_cons, Lexeme.bytes] at hf hraw
    have hstart : ({ c with bomChecked := true } : Core).Located [] (bytesOf xs ++ rest) := by
      refine ⟨rfl, ?_, ?_, fun h => ?_, (fun h => by cases h), fun h => absurd hc.noNumber h,
        fun _ => hc.noNumber⟩
      · rw [hc.pos]
        rfl
      · show c.pos.column + c.pending = _
        rw [hc.pos, Core.pending_none hc.noNumber]
        rfl
      · rw [hc.pos] at h
        cases h
    obtain ⟨cs, hcs, hloc⟩ := hstart.lexes hxs
    refine ⟨cs, ?_, hloc⟩
    rw [bytesOf_cons, hcs, Lexeme.bytes]
    rcases (bomFront_bound hf).1 with rfl | ⟨rfl, hmark⟩
    · -- no byte order mark is there
      obtain rfl : raw = [] := hraw.symm.trans List.take_zero
      refine .inl ⟨rfl, ?_⟩
      rintro ⟨r, hr⟩
      rw [hcs, ← hr, List.append_assoc, bomFront_mark] at hf
      cases hf
    · obtain ⟨r, hr⟩ := hmark
      refine .inr ?_
      rw [← hraw, ← hr]
      rfl
  · cases hx

/-- A lexeme puts out no more than one mark. -/
theorem puts_length (limits : ParserLimits) (c : Core) (x : Lexeme) :
    (c.puts (F := F) limits x).length ≤ 1 := by
  cases x with
  | space b =>
    rw [Core.puts]
    split <;> simp
  | _ => simp [Core.puts, Core.event]

/-- A token that is put out is put out where the locator stands after it. -/
theorem puts_token {x : Lexeme} {e : Event F} {p : SharedLocator}
    (h : c.puts limits x = [(e, some p)]) :
    c.event x = some e ∧ p = (c.after limits x).locator := by
  cases x with
  | space b =>
    rw [Core.puts] at h
    split at h <;> cases h
  | opening | closing | literal | endNumber | key | startString | endString =>
    cases h
    exact ⟨rfl, rfl⟩
  | _ => cases h

/-- After a token no number is pending. -/
theorem Core.Located.event_quiet {x : Lexeme} {cs : Text} {l : List UInt8} {e : Event F}
    (hloc : c.Located cs l) (hx : c.lex l = some x) (he : c.event x = some e) :
    (c.after limits x).number.stage = .none := by
  by_cases hn : c.number.stage = .none
  · cases x with
    | startNumber b => cases he
    | digit b => cases he
    | endNumber => rfl
    | space b => cases he
    | _ => exact hn
  · rw [Core.lex, if_neg (by simp [hloc.bom]), if_neg fun hs => hn (hloc.quiet hs), if_pos hn] at hx
    have number : x = .endNumber ∨ ∃ b, x = .digit b := by
      unfold lexNumber at hx
      split at hx
      · split at hx <;> cases hx
        exact .inl rfl
      · split at hx <;> cases hx
        · exact .inr ⟨_, rfl⟩
        · exact .inl rfl
    rcases number with rfl | ⟨b, rfl⟩
    · rfl
    · cases he

/-- A token that is put out is put out by a lexeme. -/
theorem putsAll_split {os : List (Mark F)} {m : Mark F} (h : os ++ [m] <+: c.putsAll limits xs) :
    ∃ us x vs, xs = us ++ x :: vs ∧ (c.run limits us).puts limits x = [m] ∧
      c.putsAll limits us = os := by
  induction xs generalizing c os with
  | nil => simp [Core.putsAll] at h
  | cons y xs ih =>
    rw [Core.putsAll] at h
    have hlen := puts_length (F := F) limits c y
    rcases hy : c.puts (F := F) limits y with - | ⟨m', - | ⟨m'', ms⟩⟩
    · rw [hy, List.nil_append] at h
      obtain ⟨us, x, vs, rfl, hx, hos⟩ := ih h
      exact ⟨y :: us, x, vs, rfl, hx, by rw [Core.putsAll, hy, hos]; rfl⟩
    · rw [hy, List.singleton_append] at h
      cases os with
      | nil =>
        obtain ⟨rfl, -⟩ := List.cons_prefix_cons.mp h
        exact ⟨[], y, xs, rfl, hy, rfl⟩
      | cons o os =>
        rw [List.cons_append] at h
        obtain ⟨rfl, h'⟩ := List.cons_prefix_cons.mp h
        obtain ⟨us, x, vs, rfl, hx, hos⟩ := ih h'
        exact ⟨y :: us, x, vs, rfl, hx, by rw [Core.putsAll, hy, hos]; rfl⟩
    · simp [hy] at hlen

variable {h : Handler F} {s : Session F}

/-- **The locator stands behind a token.** At each callback that is no piece of content or
whitespace, however the document arrives and whatever it is, the locator reads the position behind
the text up to the last byte of the token. -/
theorem positions_exact (hs : s.AtStart h) {ops : List Op} (hops : ∀ op ∈ ops, op.Feeds) :
    ∃ new, (outcome h ops s).2.parser.calls = s.parser.calls ++ new ∧
      ∀ before call after, new = before ++ call :: after → call.event.isPiece = false →
        ∃ xs x rest cs, stored h ops s = bytesOf (xs ++ [x]) ++ rest ∧
          (s.parser.core h).Lexes s.parser.limits (xs ++ [x]) rest ∧
          ((s.parser.core h).run s.parser.limits xs).event x = some call.event ∧
          eventsOf ((s.parser.core h).putsAll s.parser.limits xs) =
            explode (before.map Call.event) ∧
          TextOf (bytesOf (xs ++ [x])) cs ∧ call.locator = positionOf cs := by
  obtain ⟨km, new, hcalls, -, hprod⟩ := hs.said hops
  have hcore : (s.parser.core h).AtStart := by
    rw [hs.core]
    exact ⟨rfl, rfl, rfl⟩
  refine ⟨new, hcalls, ?_⟩
  rintro before call after rfl hcall
  obtain ⟨ys, last, rest, hl, hlex, -, hpre, -⟩ := hprod.lexes
    (fun _ => ⟨by rw [hs.core]; rfl, hcore.noNumber⟩)
  have hm : marks (before ++ call :: after) =
      marks before ++ [(call.event, some call.locator)] ++ marks after := by
    rw [marks_append, marks_cons, List.append_assoc, ← marks_token hcall, marks_cons, marks_nil,
      List.append_nil]
  rw [hm] at hpre
  obtain ⟨xs, x, vs, hsplit, hx, hbefore⟩ := putsAll_split ((List.prefix_append ..).trans hpre)
  obtain ⟨hevent, hp⟩ := puts_token hx
  have hzs : xs ++ x :: vs = (xs ++ [x]) ++ vs := by simp
  rw [hsplit, hzs] at hl hlex
  rw [bytesOf_append, List.append_assoc] at hl
  obtain ⟨hlex, -⟩ := Core.lexes_append.mp hlex
  obtain ⟨cs, htext, hloc⟩ := lexes_located hcore hlex (by simp)
  refine ⟨xs, x, bytesOf vs ++ rest, cs, hl, hlex, hevent, ?_, htext, ?_⟩
  · rw [hbefore, eventsOf_marks]
  obtain ⟨hxs, hlexx, -⟩ := Core.lexes_append.mp hlex
  rw [Core.run_append, Core.run_cons, Core.run_nil] at hloc
  have hquiet : (((s.parser.core h).run s.parser.limits xs).after s.parser.limits x).number.stage =
      .none := by
    by_cases hne : xs = []
    · -- the first lexeme is no token
      subst hne
      have hlexx : (s.parser.core h).lex (bytesOf [x] ++ (bytesOf vs ++ rest)) = some x := hlexx
      rw [Core.lex, if_pos (by simp [hcore.bom])] at hlexx
      split at hlexx
      · rw [← Option.some.inj hlexx] at hevent
        cases hevent
      · cases hlexx
    · obtain ⟨_, -, hfront⟩ := lexes_located hcore hxs hne
      exact hfront.event_quiet hlexx hevent
  have hcol := hloc.column
  rw [Core.reach, Core.pending_none hquiet, Nat.add_zero] at hcol
  rw [hp, Core.locator, positionOf, hloc.line, hcol]

/-- The callbacks for `[\r\n"\u00e9"]`, a line break and the escape sequence cut, and where they
stand. -/
theorem positions_exact_array :
    let s : Session Rat := .new 64 (.split 0)
    let ops : List Op := [.write [0x5B, 0x0D] (.split 1), .receive,
      .write [0x0A, 0x22, 0x5C, 0x75, 0x30] (.split 2), .receive,
      .write [0x30, 0x65, 0x39, 0x22, 0x5D] (.split 3), .receive, .close]
    ∃ new, (outcome .accepting ops s).2.parser.calls = s.parser.calls ++ new ∧
      (new.filter fun call => !call.event.isPiece).map Call.locator =
        [⟨1, 2⟩, ⟨2, 2⟩, ⟨2, 9⟩, ⟨2, 10⟩] ∧
      ∀ before call after, new = before ++ call :: after → call.event.isPiece = false →
        ∃ xs cs rest, [0x5B, 0x0D, 0x0A, 0x22, 0x5C, 0x75, 0x30, 0x30, 0x65, 0x39, 0x22, 0x5D] =
            bytesOf xs ++ rest ∧ TextOf (bytesOf xs) cs ∧ call.locator = positionOf cs := by
  intro s ops
  have hs : s.AtStart .accepting := Session.new_atStart ..
  have hops : ∀ op ∈ ops, op.Feeds := by simp [ops, Op.Feeds]
  obtain ⟨new, hcalls, hpos⟩ := positions_exact hs hops
  refine ⟨new, hcalls, ?_, ?_⟩
  · rw [show new = (outcome .accepting ops s).2.parser.calls from hcalls.symm]
    decide +kernel
  · intro before call after hnew hcall
    obtain ⟨xs, x, rest, cs, hl, -, -, -, htext, hcs⟩ := hpos before call after hnew hcall
    exact ⟨xs ++ [x], cs, rest, hl ▸ (by decide +kernel), htext, hcs⟩

end Calls

end RJsonParser
