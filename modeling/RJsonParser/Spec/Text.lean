import RJsonParser.Tokenizer.Scan

/-!
# The text of a string

What the raw bytes between two quotes denote: strict UTF-8 for plain bytes, the escape sequences,
and what becomes of an escape of a surrogate.

* `decodeString` — the text, or `none` where the bytes denote none
* `rawLength` — where raw content ends: at its first unescaped quote
* `resolve_spec` — `resolve_escape` finds the first character of raw content that is followed by its
  quote, or the content denotes nothing
-/

namespace RJsonParser

open Infra Infra.Utf8

/-! ## Definition -/

/-- The value of a hex digit. -/
def hexValue (b : UInt8) : Option Nat :=
  if 0x30 ≤ b.toNat ∧ b.toNat ≤ 0x39 then some (b.toNat - 0x30)
  else if 0x41 ≤ b.toNat ∧ b.toNat ≤ 0x46 then some (b.toNat - 0x41 + 10)
  else if 0x61 ≤ b.toNat ∧ b.toNat ≤ 0x66 then some (b.toNat - 0x61 + 10)
  else none

/-- The code unit of the four hex digits at the front. -/
def codeUnit : List UInt8 → Option Nat
  | a :: b :: c :: d :: _ => do
    let a ← hexValue a
    let b ← hexValue b
    let c ← hexValue c
    let d ← hexValue d
    some (a * 4096 + b * 256 + c * 16 + d)
  | _ => none

/-- The code unit of the `\u` escape at the front. -/
def escapedUnit : List UInt8 → Option Nat
  | a :: b :: l => if a = backslash ∧ b = 0x75 then codeUnit l else none
  | _ => none

def IsHighSurrogate (n : Nat) : Prop := 0xD800 ≤ n ∧ n ≤ 0xDBFF

def IsLowSurrogate (n : Nat) : Prop := 0xDC00 ≤ n ∧ n ≤ 0xDFFF

instance : DecidablePred IsHighSurrogate := fun _ => instDecidableAnd

instance : DecidablePred IsLowSurrogate := fun _ => instDecidableAnd

/-- The character of the code unit `unit`, escaped in 6 bytes, with `l` behind it: a high surrogate
and the low one behind it are one character, any other surrogate is U+FFFD. -/
def unicodeChar (unit : Nat) (l : List UInt8) : Char × Nat :=
  if IsHighSurrogate unit then
    match escapedUnit l with
    | some low =>
      if IsLowSurrogate low then
        (Char.ofNat (0x10000 + (unit - 0xD800) * 0x400 + (low - 0xDC00)), 12)
      else (Char.ofNat 0xFFFD, 6)
    | none => (Char.ofNat 0xFFFD, 6)
  else if IsLowSurrogate unit then (Char.ofNat 0xFFFD, 6)
  else (Char.ofNat unit, 6)

/-- The short escapes, by the byte behind the backslash. -/
def shortEscape (b : UInt8) : Option Char :=
  if b = 0x22 then some '"'
  else if b = 0x5C then some '\\'
  else if b = 0x2F then some '/'
  else if b = 0x62 then some (Char.ofNat 0x08)
  else if b = 0x66 then some (Char.ofNat 0x0C)
  else if b = 0x6E then some '\n'
  else if b = 0x72 then some '\r'
  else if b = 0x74 then some '\t'
  else none

/-- The character of an escape sequence, with the bytes behind the backslash. -/
def escapedChar : List UInt8 → Option (Char × Nat)
  | [] => none
  | b :: l =>
    if b = 0x75 then (codeUnit l).map fun unit => unicodeChar unit (l.drop 4)
    else (shortEscape b).map fun c => (c, 2)

/-- The first character of raw content, and how many bytes it takes. -/
def rawChar : List UInt8 → Option (Char × Nat)
  | [] => none
  | b :: l =>
    if b = backslash then escapedChar l
    else if b = quote ∨ b < 0x20 then none
    else
      match front (b :: l) with
      | .char c n => some (c, n)
      | _ => none

def decodeStringAux : Nat → List UInt8 → Option Text
  | _, [] => some []
  | 0, _ => none
  | fuel + 1, l => do
    let (c, n) ← rawChar l
    let cs ← decodeStringAux fuel (l.drop n)
    some (c :: cs)

/-- **The text that raw content denotes**, if any. -/
def decodeString (raw : List UInt8) : Option Text := decodeStringAux raw.length raw

/-- The length of raw content that starts at the front: up to the first unescaped quote. -/
def rawLength : List UInt8 → Option Nat
  | [] => none
  | [b] => if b = quote then some 0 else none
  | b :: b' :: l =>
    if b = quote then some 0
    else if b = backslash then (rawLength l).map (· + 2)
    else (rawLength (b' :: l)).map (· + 1)

/-! ## One character at a time -/

/-- A code unit has four hex digits. -/
theorem codeUnit_length {l : List UInt8} {n : Nat} (h : codeUnit l = some n) : 4 ≤ l.length := by
  match l, h with
  | _ :: _ :: _ :: _ :: _, _ => simp

/-- With the backslash and the `u` it has six bytes. -/
theorem escapedUnit_length {l : List UInt8} {n : Nat} (h : escapedUnit l = some n) :
    6 ≤ l.length := by
  match l, h with
  | _ :: _ :: l, h =>
    simp only [escapedUnit] at h
    split at h
    · have := codeUnit_length h; simp; omega
    · cases h

/-- A character that is escaped takes one code unit, or two that are both there. -/
theorem unicodeChar_length {unit : Nat} {l : List UInt8} :
    (unicodeChar unit l).2 = 6 ∨ (unicodeChar unit l).2 = 12 ∧ 6 ≤ l.length := by
  unfold unicodeChar
  split
  · split
    · next h =>
      split
      · exact .inr ⟨rfl, escapedUnit_length h⟩
      · exact .inl rfl
    · exact .inl rfl
  · split <;> exact .inl rfl

/-- A character takes 1 to 12 bytes of those that are there. -/
theorem rawChar_length {l : List UInt8} {c : Char} {n : Nat} (h : rawChar l = some (c, n)) :
    0 < n ∧ n ≤ 12 ∧ n ≤ l.length := by
  match l, h with
  | b :: l, h =>
    simp only [rawChar] at h
    split at h
    · match l, h with
      | b' :: l, h =>
        simp only [escapedChar] at h
        split at h
        · obtain ⟨unit, hu, heq⟩ := Option.map_eq_some_iff.mp h
          have h4 := codeUnit_length hu
          have hl := @unicodeChar_length unit (l.drop 4)
          rw [heq, List.length_drop] at hl
          simp only [List.length_cons]
          rcases hl with rfl | ⟨rfl, h6⟩ <;> omega
        · obtain ⟨_, _, heq⟩ := Option.map_eq_some_iff.mp h
          cases heq
          simp
    · split at h
      · cases h
      · split at h
        · next hf => cases h; have := front_char_le hf; omega
        · cases h

/-- The number of steps does not matter, if there are enough. -/
theorem decodeStringAux_congr {l : List UInt8} {fuel fuel' : Nat} (h : l.length ≤ fuel)
    (h' : l.length ≤ fuel') : decodeStringAux fuel l = decodeStringAux fuel' l := by
  induction fuel generalizing fuel' l with
  | zero =>
    obtain rfl := List.length_eq_zero_iff.mp (Nat.le_zero.mp h)
    cases fuel' <;> rfl
  | succ fuel ih =>
    cases l with
    | nil => cases fuel' <;> rfl
    | cons b l =>
      rw [List.length_cons] at h h'
      obtain ⟨k, rfl⟩ : ∃ k, fuel' = k + 1 := ⟨fuel' - 1, by omega⟩
      simp only [decodeStringAux]
      cases hc : rawChar (b :: l) with
      | none => rfl
      | some p =>
        obtain ⟨c, n⟩ := p
        have hn := (rawChar_length hc).1
        have hlen : ((b :: l).drop n).length ≤ l.length := by
          rw [List.length_drop, List.length_cons]
          omega
        simp only [Option.bind_eq_bind, Option.bind_some]
        rw [ih (hlen.trans (by omega)) (hlen.trans (by omega : l.length ≤ k))]

/-- The fuel makes no difference, where there is enough of it. -/
theorem decodeStringAux_eq (fuel : Nat) (l : List UInt8) (h : l.length ≤ fuel) :
    decodeStringAux fuel l = decodeString l :=
  decodeStringAux_congr h le_rfl

@[simp] theorem decodeString_nil : decodeString [] = some [] := rfl

/-- A string is decoded from its first character on. -/
theorem decodeString_of_rawChar {l : List UInt8} {c : Char} {n : Nat}
    (h : rawChar l = some (c, n)) :
    decodeString l = (decodeString (l.drop n)).map (c :: ·) := by
  match l, h with
  | b :: l, h =>
    have hn := (rawChar_length h).1
    rw [decodeString, List.length_cons, decodeStringAux, h]
    · simp only [Option.bind_eq_bind, Option.bind_some]
      rw [decodeStringAux_eq]
      · cases decodeString ((b :: l).drop n) <;> rfl
      · simp only [List.length_drop, List.length_cons]; omega
    · simp

/-- Where there is no character in front, there is no string. -/
theorem decodeString_of_rawChar_none {l : List UInt8} (hl : l ≠ []) (h : rawChar l = none) :
    decodeString l = none := by
  match l, hl with
  | b :: l, _ =>
    rw [decodeString, List.length_cons, decodeStringAux, h]
    · rfl
    · simp

/-! ## Plain text -/

theorem quote_lt : quote.toNat < 0x80 := by decide

theorem backslash_lt : backslash.toNat < 0x80 := by decide

/-- A plain byte is no quote, no backslash and no control character. -/
theorem not_isDelimiter {b : UInt8} :
    isDelimiter b = false ↔ b ≠ quote ∧ b ≠ backslash ∧ ¬ b < 0x20 := by
  simp [isDelimiter, and_assoc]

/-- A plain byte starts a character that stands for itself. -/
theorem rawChar_plain {b : UInt8} {l : List UInt8} (hb : isDelimiter b = false) :
    rawChar (b :: l) = match front (b :: l) with | .char c n => some (c, n) | _ => none := by
  obtain ⟨hq, hs, hc⟩ := not_isDelimiter.mp hb
  simp [rawChar, hq, hs, hc]

theorem exists_encodeChar (c : Char) : ∃ b l, String.utf8EncodeChar c = b :: l := by
  have := String.length_utf8EncodeChar c
  have hpos := c.utf8Size_pos
  exact List.exists_cons_of_ne_nil (by rintro h; rw [h] at this; simp at this; omega)

/-- A character whose bytes are plain stands for itself. -/
theorem rawChar_encodeChar {c : Char} {l : List UInt8}
    (h : ∀ b ∈ String.utf8EncodeChar c, isDelimiter b = false) :
    rawChar (String.utf8EncodeChar c ++ l) = some (c, c.utf8Size) := by
  obtain ⟨b, r, hbr⟩ := exists_encodeChar c
  have hb := h b (by simp [hbr])
  have hf := front_encode c l
  rw [hbr, List.cons_append] at hf ⊢
  rw [rawChar_plain hb, hf]

/-- Plain text in front of raw content is its own text. -/
theorem decodeString_encode_append {cs : Text} (h : ∀ b ∈ encode cs, isDelimiter b = false)
    (l : List UInt8) : decodeString (encode cs ++ l) = (decodeString l).map (cs ++ ·) := by
  induction cs with
  | nil => simp
  | cons c cs ih =>
    simp only [encode_cons, List.mem_append] at h
    rw [encode_cons, List.append_assoc,
      decodeString_of_rawChar (rawChar_encodeChar fun b hb => h b (.inl hb)),
      ← String.length_utf8EncodeChar, List.drop_left, ih fun b hb => h b (.inr hb),
      Option.map_map]
    rfl

/-- So does a text. -/
theorem decodeString_encode {cs : Text} (h : ∀ b ∈ encode cs, isDelimiter b = false) :
    decodeString (encode cs) = some cs := by
  have := decodeString_encode_append h []
  simpa using this

/-- Plain bytes that denote a text are its encoding. -/
theorem encode_of_decodeString {raw : List UInt8} {s : Text}
    (hp : ∀ b ∈ raw, isDelimiter b = false) (h : decodeString raw = some s) : raw = encode s := by
  induction hn : raw.length using Nat.strongRecOn generalizing raw s with
  | ind n ih =>
    cases raw with
    | nil => cases h; rfl
    | cons b l =>
      cases hc : rawChar (b :: l) with
      | none => rw [decodeString_of_rawChar_none (by simp) hc] at h; cases h
      | some res =>
        obtain ⟨c, k⟩ := res
        rw [decodeString_of_rawChar hc] at h
        obtain ⟨s', hs', rfl⟩ := Option.map_eq_some_iff.mp h
        have hk := rawChar_length hc
        rw [rawChar_plain (hp b List.mem_cons_self)] at hc
        split at hc
        · next hf =>
          cases hc
          have := ih ((b :: l).drop k).length (by rw [List.length_drop]; omega)
            (fun x hx => hp x (List.mem_of_mem_drop hx)) hs' rfl
          rw [encode_cons, ← this]
          exact front_drop hf
        · cases hc

/-! ## The end of raw content -/

theorem rawLength_cons_plain {b : UInt8} {l : List UInt8} (h : b ≠ quote) (h' : b ≠ backslash) :
    rawLength (b :: l) = (rawLength l).map (· + 1) := by
  cases l with
  | nil => simp [rawLength, h]
  | cons b' l => simp [rawLength, h, h']

@[simp] theorem rawLength_quote (l : List UInt8) : rawLength (quote :: l) = some 0 := by
  cases l <;> simp [rawLength]

theorem rawLength_backslash (b : UInt8) (l : List UInt8) :
    rawLength (backslash :: b :: l) = (rawLength l).map (· + 2) := by
  simp [rawLength, show backslash ≠ quote by decide]

/-- Raw content ends at a quote. -/
theorem rawLength_spec : ∀ {l : List UInt8} {n : Nat}, rawLength l = some n →
    ∃ r, l = l.take n ++ quote :: r ∧ n < l.length
  | [b], n, h => by
    simp only [rawLength] at h
    split at h
    · next hb => cases h; exact ⟨[], by simp [hb]⟩
    · cases h
  | b :: b' :: l, n, h => by
    simp only [rawLength] at h
    split at h
    · next hb => cases h; exact ⟨b' :: l, by simp [hb]⟩
    · split at h
      · obtain ⟨k, hk, rfl⟩ := Option.map_eq_some_iff.mp h
        obtain ⟨r, hr, hlt⟩ := rawLength_spec hk
        exact ⟨r, by simpa using hr, by simpa using hlt⟩
      · obtain ⟨k, hk, rfl⟩ := Option.map_eq_some_iff.mp h
        obtain ⟨r, hr, hlt⟩ := rawLength_spec hk
        exact ⟨r, by simpa using hr, by simpa using hlt⟩

/-- What follows the quote does not matter. -/
theorem rawLength_append : ∀ {l : List UInt8} {n : Nat} (m : List UInt8), rawLength l = some n →
    rawLength (l ++ m) = some n
  | [b], n, m, h => by
    simp only [rawLength] at h
    split at h
    · next hb => cases h; simp [hb]
    · cases h
  | b :: b' :: l, n, m, h => by
    simp only [rawLength, List.cons_append] at h ⊢
    split at h
    · next hb => cases h; simp [hb]
    · next hq =>
      split at h
      · next hs =>
        obtain ⟨k, hk, rfl⟩ := Option.map_eq_some_iff.mp h
        simp [hs, rawLength_append m hk, show backslash ≠ quote by decide]
      · next hs =>
        obtain ⟨k, hk, rfl⟩ := Option.map_eq_some_iff.mp h
        have := rawLength_append m hk
        rw [List.cons_append] at this
        simp [hq, hs, this]

/-- No string ends in plain bytes. -/
theorem rawLength_append_plain {x : List UInt8} (h : ∀ b ∈ x, b ≠ quote ∧ b ≠ backslash)
    (l : List UInt8) : rawLength (x ++ l) = (rawLength l).map (· + x.length) := by
  induction x with
  | nil => simp
  | cons b x ih =>
    obtain ⟨hq, hs⟩ := h b List.mem_cons_self
    rw [List.cons_append, rawLength_cons_plain hq hs,
      ih fun b hb => h b (List.mem_cons_of_mem _ hb), Option.map_map, List.length_cons]
    congr 1

/-- Raw content that ends where it should: the quote behind it is its first unescaped one. -/
def Closed (raw : List UInt8) : Prop := rawLength (raw ++ [quote]) = some raw.length

/-- Closed content ends at the next quote. -/
theorem Closed.append {raw : List UInt8} (h : Closed raw) (r : List UInt8) :
    rawLength (raw ++ quote :: r) = some raw.length := by
  simpa using rawLength_append r h

/-- Without the plain bytes in front, the content is still closed. -/
theorem Closed.of_append {x raw : List UInt8} (h : ∀ b ∈ x, b ≠ quote ∧ b ≠ backslash)
    (hc : Closed (x ++ raw)) : Closed raw := by
  unfold Closed at *
  rw [List.append_assoc, rawLength_append_plain h, Option.map_eq_some_iff] at hc
  obtain ⟨n, hn, heq⟩ := hc
  rw [hn]
  simp at heq ⊢
  omega

/-- There is something behind a backslash. -/
theorem Closed.of_backslash {l : List UInt8} (h : Closed (backslash :: l)) :
    ∃ b raw, l = b :: raw ∧ Closed raw := by
  unfold Closed at *
  cases l with
  | nil => exact absurd h (by decide)
  | cons b raw =>
    rw [List.cons_append, List.cons_append, rawLength_backslash, Option.map_eq_some_iff] at h
    obtain ⟨n, hn, heq⟩ := h
    refine ⟨b, raw, rfl, ?_⟩
    rw [hn]
    simp at heq ⊢
    omega

/-- Hex digits are plain bytes. -/
theorem hexValue_plain {b : UInt8} {n : Nat} (h : hexValue b = some n) :
    isDelimiter b = false := by
  have key : ∀ b, (hexValue b).isSome = true → isDelimiter b = false :=
    forall_byte (by decide +kernel)
  exact key b (by rw [h]; rfl)

/-- So are those of a code unit. -/
theorem codeUnit_mem {l : List UInt8} {n : Nat} (h : codeUnit l = some n) :
    ∀ b ∈ l.take 4, isDelimiter b = false := by
  match l, h with
  | a :: b :: c :: d :: _, h =>
    simp only [codeUnit, Option.bind_eq_bind, Option.bind_eq_some_iff] at h
    obtain ⟨_, ha, _, hb, _, hc, _, hd, _⟩ := h
    intro x hx
    simp only [List.take_succ_cons, List.take_zero, List.mem_cons, List.not_mem_nil,
      or_false] at hx
    rcases hx with rfl | rfl | rfl | rfl
    · exact hexValue_plain ha
    · exact hexValue_plain hb
    · exact hexValue_plain hc
    · exact hexValue_plain hd

/-- The bytes of a character are plain if the first is. -/
theorem encodeChar_plain {b : UInt8} {c : Char} {l : List UInt8}
    (hb : isDelimiter b = false) (h : String.utf8EncodeChar c = b :: l) :
    ∀ x ∈ String.utf8EncodeChar c, isDelimiter x = false := by
  have hf := front_encode c []
  rw [List.append_nil, h] at hf
  have hcont := front_char_cont hf
  have hlen : l.length = c.utf8Size - 1 := by
    have := String.length_utf8EncodeChar c
    rw [h, List.length_cons] at this
    omega
  rw [← hlen, List.take_length] at hcont
  rw [h]
  intro x hx
  rcases List.mem_cons.mp hx with rfl | hx
  · exact hb
  · have hx := isCont_iff.mp (hcont x hx)
    refine not_isDelimiter.mpr ⟨?_, ?_, ?_⟩
    · rintro rfl; have := quote_lt; omega
    · rintro rfl; have := backslash_lt; omega
    · rw [UInt8.lt_iff_toNat_lt]; simp; omega

/-- A property of raw content that survives plain bytes and pairs with a backslash at its front. -/
structure FrontRule (P : List UInt8 → Prop) : Prop where
  plain : ∀ {x raw}, (∀ b ∈ x, isDelimiter b = false) → P (x ++ raw) → P raw
  backslash : ∀ {l}, P (backslash :: l) → ∃ b raw, l = b :: raw ∧ P raw

/-- Past the digits of a code unit. -/
theorem FrontRule.codeUnit {P : List UInt8 → Prop} (hP : FrontRule P) {l : List UInt8} {n : Nat}
    (h : P l) (hu : codeUnit l = some n) : P (l.drop 4) := by
  rw [← List.take_append_drop 4 l] at h
  exact hP.plain (codeUnit_mem hu) h

/-- It survives the first character. -/
theorem FrontRule.drop {P : List UInt8 → Prop} (hP : FrontRule P) {l : List UInt8} {c : Char}
    {n : Nat} (h : P l) (hc : rawChar l = some (c, n)) : P (l.drop n) := by
  match l, h, hc with
  | b :: l, h, hc =>
    by_cases hs : b = RJsonParser.backslash
    · subst hs
      obtain ⟨b, raw, rfl, hraw⟩ := hP.backslash h
      simp only [rawChar, if_true, escapedChar] at hc
      split at hc
      · obtain ⟨unit, hu, heq⟩ := Option.map_eq_some_iff.mp hc
        have h4 := hP.codeUnit hraw hu
        have h6 : (RJsonParser.backslash :: b :: raw).drop 6 = raw.drop 4 := rfl
        unfold unicodeChar at heq
        split at heq
        · split at heq
          · next low hl =>
            split at heq
            · obtain ⟨-, rfl⟩ := Prod.mk.inj heq
              have h12 : (RJsonParser.backslash :: b :: raw).drop 12 = (raw.drop 4).drop 6 := by
                rw [← h6, List.drop_drop]
              rw [h12]
              match raw.drop 4, h4, hl with
              | x :: y :: z, h4, hl =>
                simp only [escapedUnit] at hl
                split at hl
                · next hxy =>
                  rw [hxy.1] at h4
                  obtain ⟨_, _, heq, hz⟩ := hP.backslash h4
                  cases heq
                  exact hP.codeUnit hz hl
                · cases hl
            · cases heq; exact h4
          · cases heq; exact h4
        · split at heq <;> (cases heq; exact h4)
      · obtain ⟨_, _, heq⟩ := Option.map_eq_some_iff.mp hc
        cases heq
        exact hraw
    · simp only [rawChar, hs, if_false] at hc
      split at hc
      · cases hc
      · next hq =>
        split at hc
        · next c' n' hf =>
          cases hc
          have hb : isDelimiter b = false := not_isDelimiter.mpr
            ⟨fun h => hq (.inl h), hs, fun h => hq (.inr h)⟩
          have hd := front_drop hf
          obtain ⟨b', r, hbr⟩ := exists_encodeChar c
          rw [hbr, List.cons_append, List.cons.injEq] at hd
          rw [front_drop hf] at h
          exact hP.plain (encodeChar_plain (hd.1 ▸ hb) hbr) h
        · cases hc

/-- Content that is closed is closed past its first character. -/
theorem closed_front : FrontRule Closed where
  plain h hc := hc.of_append fun b hb =>
    have := not_isDelimiter.mp (h b hb)
    ⟨this.1, this.2.1⟩
  backslash h := h.of_backslash

/-- The first character of closed content leaves closed content. -/
theorem Closed.drop {l : List UInt8} {c : Char} {n : Nat} (h : Closed l)
    (hc : rawChar l = some (c, n)) : Closed (l.drop n) := closed_front.drop h hc

/-! ## Columns -/

/-- A character of ASCII that is no control character. -/
def IsPrintable (b : UInt8) : Prop := 0x20 ≤ b.toNat ∧ b.toNat < 0x80

instance : DecidablePred IsPrintable := fun _ => instDecidableAnd

theorem shortEscape_printable {b : UInt8} {c : Char} (h : shortEscape b = some c) :
    IsPrintable b := by
  have key : ∀ b, (shortEscape b).isSome = true → IsPrintable b := forall_byte (by decide +kernel)
  exact key b (by rw [h]; rfl)

theorem hexValue_printable {b : UInt8} {n : Nat} (h : hexValue b = some n) : IsPrintable b := by
  unfold hexValue at h
  unfold IsPrintable
  split_ifs at h <;> omega

theorem codeUnit_printable {l : List UInt8} {n : Nat} (h : codeUnit l = some n) :
    ∀ b ∈ l.take 4, IsPrintable b := by
  match l, h with
  | a :: b :: c :: d :: _, h =>
    simp only [codeUnit, Option.bind_eq_bind, Option.bind_eq_some_iff] at h
    obtain ⟨_, ha, _, hb, _, hc, _, hd, _⟩ := h
    simp [hexValue_printable ha, hexValue_printable hb, hexValue_printable hc,
      hexValue_printable hd]

theorem backslash_printable : IsPrintable backslash := by decide

/-- An escape sequence is printable ASCII. -/
theorem escape_printable {l : List UInt8} {c : Char} {n : Nat}
    (h : rawChar (backslash :: l) = some (c, n)) :
    ∀ b ∈ (backslash :: l).take n, IsPrintable b := by
  simp only [rawChar, if_true] at h
  match l, h with
  | b :: l, h =>
    simp only [escapedChar] at h
    split at h
    · next hb =>
      subst hb
      obtain ⟨unit, hu, heq⟩ := Option.map_eq_some_iff.mp h
      have h4 := codeUnit_printable hu
      have h6 : ∀ x ∈ (backslash :: 0x75 :: l).take 6, IsPrintable x := by
        intro x hx
        simp only [List.take_succ_cons, List.mem_cons] at hx
        rcases hx with rfl | rfl | hx
        · exact backslash_printable
        · decide
        · exact h4 x hx
      unfold unicodeChar at heq
      split at heq
      · split at heq
        · next low hl =>
          split at heq
          · obtain ⟨-, rfl⟩ := Prod.mk.inj heq
            intro x hx
            rw [show (12 : Nat) = 6 + 6 from rfl, List.take_add, List.mem_append] at hx
            rcases hx with hx | hx
            · exact h6 x hx
            · have hd : (backslash :: 0x75 :: l).drop 6 = l.drop 4 := rfl
              rw [hd] at hx
              match l.drop 4, hl, hx with
              | y :: z :: m, hl, hx =>
                simp only [escapedUnit] at hl
                split at hl
                · next hyz =>
                  simp only [List.take_succ_cons, List.mem_cons] at hx
                  rcases hx with rfl | rfl | hx
                  · rw [hyz.1]; exact backslash_printable
                  · rw [hyz.2]; decide
                  · exact codeUnit_printable hl x hx
                · cases hl
          · cases heq; exact h6
        · cases heq; exact h6
      · split at heq <;> (cases heq; exact h6)
    · obtain ⟨c', hs, heq⟩ := Option.map_eq_some_iff.mp h
      cases heq
      simp [shortEscape_printable hs, backslash_printable]

/-- An escape sequence is as many columns as bytes. -/
theorem units_escape {l : List UInt8} {c : Char} {n : Nat}
    (h : rawChar (backslash :: l) = some (c, n)) : units ((backslash :: l).take n) = n := by
  rw [units_ascii fun b hb => (escape_printable h b hb).2, List.length_take,
    Nat.min_eq_left (rawChar_length h).2.2]

/-! ## Content as a key is scanned -/

/-- Nothing but backslashes, each with a byte behind it, and plain bytes. -/
def Scanned : List UInt8 → Prop
  | [] => True
  | [b] => isDelimiter b = false
  | b :: b' :: l => if b = backslash then Scanned l else isDelimiter b = false ∧ Scanned (b' :: l)

theorem scanned_cons {b : UInt8} {l : List UInt8} (hb : isDelimiter b = false) :
    Scanned (b :: l) ↔ Scanned l := by
  cases l with
  | nil => simp [Scanned, hb]
  | cons b' l => simp [Scanned, hb, (not_isDelimiter.mp hb).2.1]

/-- Plain bytes in front make no difference to whether the rest was scanned. -/
theorem scanned_append {x l : List UInt8} (hx : ∀ b ∈ x, isDelimiter b = false) :
    Scanned (x ++ l) ↔ Scanned l := by
  induction x with
  | nil => rfl
  | cons b x ih =>
    rw [List.cons_append, scanned_cons (hx b List.mem_cons_self),
      ih fun b hb => hx b (List.mem_cons_of_mem _ hb)]

/-- A delimiter at the front of a scanned key is a backslash. -/
theorem Scanned.eq_backslash {b : UInt8} {l : List UInt8} (h : Scanned (b :: l))
    (hb : isDelimiter b = true) : b = backslash := by
  cases l with
  | nil => rw [show isDelimiter b = false from h] at hb; cases hb
  | cons b' l =>
    unfold Scanned at h
    split at h
    · assumption
    · rw [h.1] at hb; cases hb

/-- Content that was scanned was scanned past its first character. -/
theorem scanned_front : FrontRule Scanned where
  plain hx h := (scanned_append hx).mp h
  backslash {l} h := by
    cases l with
    | nil => cases (show isDelimiter backslash = false from h)
    | cons b raw => exact ⟨b, raw, rfl, by simpa [Scanned] using h⟩

theorem Scanned.drop {l : List UInt8} {c : Char} {n : Nat} (h : Scanned l)
    (hc : rawChar l = some (c, n)) : Scanned (l.drop n) := scanned_front.drop h hc

/-- Content that was scanned is closed. -/
theorem Scanned.closed : ∀ {l : List UInt8}, Scanned l → Closed l
  | [], _ => by simp [Closed]
  | [b], h => by
    obtain ⟨hq, hs, -⟩ := not_isDelimiter.mp (show isDelimiter b = false from h)
    simp [Closed, rawLength, hq, hs]
  | b :: b' :: l, h => by
    unfold Scanned at h
    unfold Closed
    split at h
    · next hb =>
      have := Scanned.closed h
      unfold Closed at this
      rw [hb, List.cons_append, List.cons_append, rawLength_backslash, this]
      rfl
    · obtain ⟨hq, hs, -⟩ := not_isDelimiter.mp h.1
      have := Scanned.closed h.2
      unfold Closed at this
      rw [List.cons_append, rawLength_cons_plain hq hs, this]
      rfl

/-! ## `resolve_escape` -/

/-- `unhex` gives the value of a digit, or an error that shows the byte. -/
theorem unhex_eq (b : UInt8) :
    unhex b = match hexValue b with
      | some v => .ok v
      | none => .error (.err s!"Invalid hex digit: {byteChar b}") := by
  have key : ∀ b, (match unhex b with | .ok v => some v | .error _ => none) = hexValue b :=
    forall_byte (by decide +kernel)
  have hb := key b
  unfold unhex at hb ⊢
  split_ifs at hb ⊢ <;> rw [← hb]

/-- A byte that is no hex digit is an error. -/
theorem hexDigits_bad : ∀ {n : Nat} {ds : List UInt8} {v : Nat},
    (∃ b ∈ ds.take n, hexValue b = none) → ∃ m, hexDigits n ds v = .error (.err m)
  | 0, _, _, ⟨b, hb, _⟩ => by simp at hb
  | _ + 1, [], _, ⟨b, hb, _⟩ => by simp at hb
  | n + 1, d :: ds, v, ⟨b, hb, hn⟩ => by
    rw [hexDigits, unhex_eq]
    cases hd : hexValue d with
    | none => exact ⟨_, rfl⟩
    | some w =>
      simp only [except_ok_bind]
      rw [List.take_succ_cons, List.mem_cons] at hb
      rcases hb with rfl | hb
      · rw [hn] at hd; cases hd
      · exact hexDigits_bad ⟨b, hb, hn⟩

/-- Four digits give the code unit. -/
theorem hexDigits_codeUnit {ds : List UInt8} {n : Nat} (h : codeUnit ds = some n) :
    hexDigits 4 ds 0 = .ok (some n) := by
  match ds, h with
  | a :: b :: c :: d :: _, h =>
    simp only [codeUnit, Option.bind_eq_bind, Option.bind_eq_some_iff] at h
    obtain ⟨_, ha, _, hb, _, hc, _, hd, ⟨⟩⟩ := h
    simp only [hexDigits, unhex_eq, ha, hb, hc, hd, except_ok_bind]
    congr 2
    omega

/-- Four bytes that are no code unit have one that is no digit. -/
theorem codeUnit_eq_none {ds : List UInt8} (h : codeUnit ds = none) (hl : 4 ≤ ds.length) :
    ∃ b ∈ ds.take 4, hexValue b = none := by
  match ds, hl with
  | a :: b :: c :: d :: _, _ =>
    simp only [List.take_succ_cons, List.take_zero, List.mem_cons, List.not_mem_nil, or_false,
      exists_eq_or_imp, exists_eq_left]
    simp only [codeUnit, Option.bind_eq_bind] at h
    by_contra hne
    simp only [not_or, Option.ne_none_iff_exists'] at hne
    obtain ⟨⟨_, ha⟩, ⟨_, hb⟩, ⟨_, hc⟩, ⟨_, hd⟩⟩ := hne
    simp [ha, hb, hc, hd] at h

/-- A code unit is the same in the six bytes that are peeked at. -/
theorem codeUnit_take (l m : List UInt8) (k : Nat) (hk : 4 ≤ k) (hl : 4 ≤ l.length) :
    codeUnit ((l ++ m).take k) = codeUnit l := by
  match l, hl, k, hk with
  | a :: b :: c :: d :: _, _, _ + 4, _ => simp [codeUnit]

/-- The digits of an escape in content that is followed by its quote. -/
theorem hexDigits_spec (raw r : List UInt8) (k : Nat) (hk : 4 ≤ k) :
    (∃ n, codeUnit raw = some n ∧ hexDigits 4 ((raw ++ quote :: r).take k) 0 = .ok (some n)) ∨
      codeUnit raw = none ∧ ∃ m, hexDigits 4 ((raw ++ quote :: r).take k) 0 = .error (.err m) := by
  by_cases hl : 4 ≤ raw.length
  · rw [← codeUnit_take raw (quote :: r) k hk hl]
    cases hu : codeUnit ((raw ++ quote :: r).take k) with
    | some n => exact .inl ⟨n, rfl, hexDigits_codeUnit hu⟩
    | none =>
      exact .inr ⟨rfl, hexDigits_bad (codeUnit_eq_none hu (by simp; omega))⟩
  · refine .inr ⟨?_, hexDigits_bad ⟨quote, ?_, by decide⟩⟩
    · by_contra hne
      obtain ⟨n, hn⟩ := Option.ne_none_iff_exists'.mp hne
      exact hl (codeUnit_length hn)
    · rw [List.take_take, Nat.min_eq_left hk, List.take_append, List.mem_append]
      exact .inr (by
        obtain ⟨j, hj⟩ : ∃ j, 4 - raw.length = j + 1 := ⟨3 - raw.length, by omega⟩
        simp [hj])

theorem simpleEscape_eq : ∀ c : UInt8,
    (simpleEscape c).map (fun v =>
      ((charFromU32 v).getD replacementCharacter, decide (0xD800 ≤ v ∧ v ≤ 0xDBFF))) =
      (shortEscape c).map (·, false) := forall_byte (by decide +kernel)

/-- A code unit that is no surrogate, or a low one. -/
theorem charFromU32_unit {unit : Nat} (hu : unit < 0x10000) (hh : ¬ IsHighSurrogate unit) :
    (charFromU32 unit).getD replacementCharacter =
      if IsLowSurrogate unit then Char.ofNat 0xFFFD else Char.ofNat unit := by
  unfold IsHighSurrogate at hh
  unfold charFromU32
  by_cases hl : IsLowSurrogate unit
  · rw [if_pos hl, if_neg (by unfold IsLowSurrogate at hl; rintro (_ | _) <;> omega)]
    rfl
  · rw [if_neg hl, if_pos (show _ ∨ _ by unfold IsLowSurrogate at hl; omega)]
    rfl

/-- A surrogate pair is a character. -/
theorem charFromU32_pair {high low : Nat} (hh : IsHighSurrogate high) (hl : IsLowSurrogate low) :
    charFromU32 (0x10000 + (high - 0xD800) * 1024 + (low - 0xDC00)) =
      some (Char.ofNat (0x10000 + (high - 0xD800) * 1024 + (low - 0xDC00))) := by
  unfold IsHighSurrogate at hh
  unfold IsLowSurrogate at hl
  have hlt : (high - 0xD800) * 1024 + (low - 0xDC00) < 0x100000 := by omega
  rw [Nat.add_assoc]
  generalize (high - 0xD800) * 1024 + (low - 0xDC00) = n at hlt
  exact if_pos (.inr ⟨by omega, by omega⟩)

/-- Two surrogates, and the character that they stand for. -/
theorem unicodeChar_pair {high low : Nat} {l : List UInt8} (hh : IsHighSurrogate high)
    (hu : escapedUnit l = some low) (hl : IsLowSurrogate low) :
    unicodeChar high l = (Char.ofNat (0x10000 + (high - 0xD800) * 1024 + (low - 0xDC00)),
      6 + 6) := by
  simp only [unicodeChar, hh, hu, hl, if_true]

theorem hexValue_lt {b : UInt8} {n : Nat} (h : hexValue b = some n) : n < 16 := by
  unfold hexValue at h
  split_ifs at h <;> (cases h; omega)

/-- A code unit has 16 bits. -/
theorem codeUnit_lt {l : List UInt8} {n : Nat} (h : codeUnit l = some n) : n < 0x10000 := by
  match l, h with
  | a :: b :: c :: d :: _, h =>
    simp only [codeUnit, Option.bind_eq_bind, Option.bind_eq_some_iff] at h
    obtain ⟨_, ha, _, hb, _, hc, _, hd, ⟨⟩⟩ := h
    have := hexValue_lt ha
    have := hexValue_lt hb
    have := hexValue_lt hc
    have := hexValue_lt hd
    omega

/-- What `low_surrogate_follows` finds in content that is followed by its quote. It may only wait
where the content denotes nothing. -/
theorem lowSurrogateFollows_spec {raw : List UInt8} (hc : Closed raw) (r : List UInt8) :
    match lowSurrogateFollows ((raw ++ quote :: r).take 6) with
    | .low low => escapedUnit raw = some low ∧ IsLowSurrogate low
    | .not => ∀ low, escapedUnit raw = some low → ¬ IsLowSurrogate low
    | .needMore => escapedUnit raw = none ∧ decodeString raw = none := by
  cases raw with
  | nil => simp [lowSurrogateFollows, show quote ≠ backslash by decide, escapedUnit]
  | cons x raw =>
    by_cases hx : x = backslash
    · subst hx
      obtain ⟨y, raw, rfl, hraw⟩ := hc.of_backslash
      simp only [List.cons_append, List.take_succ_cons, lowSurrogateFollows, ne_eq,
        not_true_eq_false, if_false]
      by_cases hy : y = 0x75
      · subst hy
        simp only [not_true_eq_false, if_false]
        have hu : escapedUnit (backslash :: 0x75 :: raw) = codeUnit raw := by simp [escapedUnit]
        by_cases hlen : ((raw ++ quote :: r).take 4).length < 4
        · -- the digits of the content end before the fourth
          rw [if_pos hlen]
          have hnone : codeUnit raw = none := by
            by_contra hne
            obtain ⟨n, hn⟩ := Option.ne_none_iff_exists'.mp hne
            have := codeUnit_length hn
            simp at hlen
            omega
          refine ⟨hu.trans hnone, decodeString_of_rawChar_none (by simp) ?_⟩
          simp [rawChar, escapedChar, hnone]
        · rw [if_neg hlen]
          rcases hexDigits_spec raw r 4 le_rfl with ⟨n, hn, hd⟩ | ⟨hn, m, hd⟩
          · simp only [hd]
            split
            · next low hl =>
              split at hl
              · next hlow => cases hl; exact ⟨hu.trans hn, hlow⟩
              · cases hl
            · next hl =>
              split at hl
              · cases hl
              · next hlow =>
                intro low hl'
                rw [hu, hn] at hl'
                cases hl'
                exact hlow
            · next hl => split at hl <;> cases hl
          · simp only [hd]
            intro low hl
            rw [hu, hn] at hl
            cases hl
      · simp only [hy, not_false_eq_true, if_true]
        intro low hl
        simp [escapedUnit, hy] at hl
    · simp only [List.cons_append, List.take_succ_cons, lowSurrogateFollows, ne_eq, hx,
        not_false_eq_true, if_true]
      intro low hl
      cases raw with
      | nil => cases hl
      | cons => simp [escapedUnit, hx] at hl

/-- **`resolve_escape` finds the first character** of content that is followed by its quote, or the
content denotes nothing. -/
theorem resolve_spec {raw : List UInt8} (hc : Closed (backslash :: raw)) (r : List UInt8) :
    (∃ c n, resolve (backslash :: raw ++ quote :: r) = .ok (some (c, n)) ∧
        rawChar (backslash :: raw) = some (c, n)) ∨
      decodeString (backslash :: raw) = none ∧
        (resolve (backslash :: raw ++ quote :: r) = .ok none ∨
          ∃ m, resolve (backslash :: raw ++ quote :: r) = .error (.err m)) := by
  obtain ⟨x, raw, rfl, hraw⟩ := hc.of_backslash
  have hchar : rawChar (backslash :: x :: raw) = escapedChar (x :: raw) := by simp [rawChar]
  have hnone : escapedChar (x :: raw) = none → decodeString (backslash :: x :: raw) = none :=
    fun h => decodeString_of_rawChar_none (by simp) (hchar.trans h)
  have hsimple := simpleEscape_eq x
  unfold resolve resolveWith
  simp only [List.drop_zero, List.cons_append, List.take_succ_cons, except_ok_bind, parseEscape]
  -- `\u` may come with a second escape, the others stand for themselves
  by_cases hx : x = 0x75
  · subst hx
    rw [show simpleEscape 0x75 = none by decide]
    simp only [if_true]
    rcases hexDigits_spec raw r 4 le_rfl with ⟨unit, hu, hd⟩ | ⟨hu, m, hd⟩
    · simp only [hd, except_ok_bind]
      have hesc : escapedChar (0x75 :: raw) = some (unicodeChar unit (raw.drop 4)) := by
        simp [escapedChar, hu]
      have h4 := codeUnit_length hu
      have hdrop : (backslash :: 0x75 :: (raw ++ quote :: r)).drop 6 =
          raw.drop 4 ++ quote :: r := by
        rw [← List.drop_append_of_le_length h4]; rfl
      by_cases hh : 0xD800 ≤ unit ∧ unit ≤ 0xDBFF
      · have hhigh : IsHighSurrogate unit := hh
        rw [if_pos hh, hdrop]
        have hlow := lowSurrogateFollows_spec (closed_front.codeUnit hraw hu) r
        cases hf : lowSurrogateFollows ((raw.drop 4 ++ quote :: r).take 6) with
        -- the string ends before the other half can
        | needMore =>
          rw [hf] at hlow
          refine .inr ⟨?_, .inl rfl⟩
          have huni : unicodeChar unit (raw.drop 4) = (Char.ofNat 0xFFFD, 6) := by
            simp [unicodeChar, hhigh, hlow.1]
          rw [decodeString_of_rawChar (hchar.trans (hesc.trans (congrArg some huni)))]
          rw [show (backslash :: 0x75 :: raw).drop 6 = raw.drop 4 from rfl, hlow.2]
          rfl
        -- a half without the other is replaced
        | not =>
          rw [hf] at hlow
          refine .inl ⟨replacementCharacter, 6, rfl, ?_⟩
          rw [hchar, hesc]
          congr 1
          unfold unicodeChar
          rw [if_pos hhigh]
          split
          · next low hl => rw [if_neg (hlow low hl)]; rfl
          · rfl
        | low low =>
          rw [hf] at hlow
          have hcp := charFromU32_pair hhigh hlow.2
          have huni := unicodeChar_pair hhigh hlow.1 hlow.2
          simp only []
          generalize 0x10000 + (unit - 0xD800) * 1024 + (low - 0xDC00) = cp at hcp huni ⊢
          refine .inl ⟨Char.ofNat cp, 6 + 6, ?_, by rw [hchar, hesc, huni]⟩
          rw [hcp, Option.getD_some]
      · have hhigh : ¬ IsHighSurrogate unit := hh
        rw [if_neg hh]
        refine .inl ⟨_, 6, rfl, ?_⟩
        rw [hchar, hesc, charFromU32_unit (codeUnit_lt hu) hhigh]
        unfold unicodeChar
        rw [if_neg hhigh]
        split <;> rfl
    · simp only [hd, except_error_bind]
      exact .inr ⟨hnone (by simp [escapedChar, hu]), .inr ⟨m, rfl⟩⟩
  · have hesc : escapedChar (x :: raw) = (shortEscape x).map fun c => (c, 2) := by
      simp [escapedChar, hx]
    cases hs : simpleEscape x with
    | some v =>
      rw [hs] at hsimple
      obtain ⟨c, hc', heq⟩ := Option.map_eq_some_iff.mp hsimple.symm
      have hnh : ¬ (0xD800 ≤ v ∧ v ≤ 0xDBFF) := by
        have := (Prod.mk.inj heq).2
        simpa using this.symm
      simp only [except_ok_bind, if_neg hnh]
      refine .inl ⟨_, 2, rfl, ?_⟩
      rw [hchar, hesc, hc', ← (Prod.mk.inj heq).1]
      rfl
    | none =>
      rw [hs] at hsimple
      have : shortEscape x = none := by
        cases h : shortEscape x with
        | none => rfl
        | some c => rw [h] at hsimple; cases hsimple
      simp only [hx, if_false, except_error_bind]
      exact .inr ⟨hnone (by rw [hesc, this]; rfl), .inr ⟨_, rfl⟩⟩

/-! ## `resolve_escape` on a stream -/

/-- Digits are decided once and for all. -/
theorem hexDigits_append : ∀ {n : Nat} {ds : List UInt8} {v : Nat} (m : List UInt8),
    hexDigits n ds v ≠ .ok none → hexDigits n (ds ++ m) v = hexDigits n ds v
  | 0, _, _, _, _ => by simp [hexDigits]
  | _ + 1, [], _, _, h => absurd rfl h
  | n + 1, d :: ds, v, m, h => by
    rw [hexDigits] at h
    rw [List.cons_append, hexDigits, hexDigits]
    cases hd : unhex d with
    | error e => rfl
    | ok w => rw [hd] at h; exact hexDigits_append m h

theorem hexDigits_take : ∀ {n : Nat} {ds : List UInt8} {v : Nat},
    hexDigits n (ds.take n) v = hexDigits n ds v
  | 0, _, _ => by simp [hexDigits]
  | _ + 1, [], _ => rfl
  | n + 1, d :: ds, v => by
    rw [List.take_succ_cons, hexDigits, hexDigits]
    congr 1
    funext w
    exact hexDigits_take

/-- All of them have to be there. -/
theorem hexDigits_length : ∀ {n : Nat} {ds : List UInt8} {v w : Nat},
    hexDigits n ds v = .ok (some w) → n ≤ ds.length
  | 0, _, _, _, _ => Nat.zero_le _
  | n + 1, d :: ds, v, w, h => by
    rw [hexDigits] at h
    cases hd : unhex d with
    | error e => rw [hd] at h; cases h
    | ok x => rw [hd] at h; simpa using hexDigits_length h

/-- `parse_escape` sees enough in 6 bytes. -/
theorem parseEscape_take (l : List UInt8) : parseEscape (l.take 6) = parseEscape l := by
  match l with
  | [] | [_] => rfl
  | b :: c :: l =>
    simp only [List.take_succ_cons, parseEscape]
    rw [hexDigits_take]

/-- An escape sequence is decided once and for all. -/
theorem parseEscape_append {l : List UInt8} (m : List UInt8)
    (h : parseEscape l ≠ .ok .needMore) : parseEscape (l ++ m) = parseEscape l := by
  match l, h with
  | [], h => exact absurd rfl h
  | [_], h => exact absurd rfl h
  | b :: c :: l, h =>
    simp only [List.cons_append, parseEscape] at h ⊢
    split
    · rfl
    · next hs =>
      rw [hs] at h
      split
      · next hc =>
        rw [if_pos hc] at h
        by_cases hd : hexDigits 4 l 0 = .ok none
        · rw [hd] at h; exact absurd rfl h
        · rw [hexDigits_append m hd]
      · rfl

/-- It has two bytes, or six, and they are there. -/
theorem parseEscape_length {l : List UInt8} {v n : Nat} (h : parseEscape l = .ok (.unit v n)) :
    (n = 2 ∨ n = 6) ∧ n ≤ l.length := by
  match l, h with
  | b :: c :: l, h =>
    simp only [parseEscape] at h
    split at h
    · cases h; simp
    · split at h
      · cases hd : hexDigits 4 l 0 with
        | error e => rw [hd] at h; cases h
        | ok r =>
          cases r with
          | none => rw [hd] at h; cases h
          | some w =>
            rw [hd] at h
            cases h
            have := hexDigits_length hd
            exact ⟨.inr rfl, by simp only [List.length_cons]; omega⟩
      · cases h

/-- Whether a low surrogate follows is decided once and for all. -/
theorem lowSurrogateFollows_append {l : List UInt8} (m : List UInt8)
    (h : lowSurrogateFollows (l.take 6) ≠ .needMore) :
    lowSurrogateFollows ((l ++ m).take 6) = lowSurrogateFollows (l.take 6) := by
  match l, h with
  | [], h => exact absurd rfl h
  | b :: l, h =>
    simp only [List.cons_append, List.take_succ_cons, lowSurrogateFollows] at h ⊢
    split
    · rfl
    · next hb =>
      rw [if_neg hb] at h
      match l, h with
      | [], h => exact absurd rfl h
      | c :: l, h =>
        simp only [List.cons_append, List.take_succ_cons] at h ⊢
        split
        · rfl
        · next hc =>
          rw [if_neg hc] at h
          by_cases hlen : (l.take 4).length < 4
          · rw [if_pos hlen] at h; exact absurd rfl h
          · rw [List.length_take] at hlen
            rw [List.take_append_of_le_length (by omega)]

theorem lowSurrogateFollows_length {l : List UInt8} {low : Nat}
    (h : lowSurrogateFollows (l.take 6) = .low low) : 6 ≤ l.length := by
  match l, h with
  | [_], h =>
    simp only [List.take_succ_cons, List.take_nil, lowSurrogateFollows] at h; split at h <;> cases h
  | b :: c :: l, h =>
    simp only [List.take_succ_cons, lowSurrogateFollows] at h
    split at h
    · cases h
    · split at h
      · cases h
      · split at h
        · cases h
        · next hlen =>
          rw [List.length_take] at hlen
          simp only [List.length_cons]
          omega

/-- `resolve_escape` on the bytes from the escape on, with `parse_escape` made out. -/
theorem resolve_eq (l : List UInt8) : resolve l =
    match parseEscape l with
    | .error e => .error e
    | .ok .needMore => .ok none
    | .ok (.unit value len) =>
      if 0xD800 ≤ value ∧ value ≤ 0xDBFF then
        match lowSurrogateFollows ((l.drop len).take 6) with
        | .needMore => .ok none
        | .not => .ok (some (replacementCharacter, len))
        | .low low =>
          .ok (some ((charFromU32 (0x10000 + (value - 0xD800) * 1024 + (low - 0xDC00))).getD
            replacementCharacter, len + 6))
      else .ok (some ((charFromU32 value).getD replacementCharacter, len)) := by
  unfold resolve resolveWith
  simp only [List.drop_zero, except_ok_bind, parseEscape_take]
  cases parseEscape l with
  | error e => rfl
  | ok e => cases e <;> rfl

/-- **A character that is resolved stays so**, and an error does. -/
theorem resolve_append {l : List UInt8} (m : List UInt8) (h : resolve l ≠ .ok none) :
    resolve (l ++ m) = resolve l := by
  rw [resolve_eq] at h ⊢
  rw [resolve_eq]
  by_cases hp : parseEscape l = .ok .needMore
  · rw [hp] at h; exact absurd rfl h
  · rw [parseEscape_append m hp]
    cases he : parseEscape l with
    | error e => rfl
    | ok e =>
      cases e with
      | needMore => exact absurd he hp
      | unit value len =>
        rw [he] at h
        simp only at h ⊢
        split
        · next hv =>
          rw [if_pos hv] at h
          rw [List.drop_append_of_le_length (parseEscape_length he).2]
          by_cases hl : lowSurrogateFollows ((l.drop len).take 6) = .needMore
          · rw [hl] at h; exact absurd rfl h
          · rw [lowSurrogateFollows_append m hl]
        · rfl

/-- A character that is resolved is there, and takes a short escape, one `\u` escape or two. -/
theorem resolve_length {l : List UInt8} {c : Char} {n : Nat} (h : resolve l = .ok (some (c, n))) :
    0 < n ∧ n ≤ 12 ∧ n ≤ l.length := by
  rw [resolve_eq] at h
  cases he : parseEscape l with
  | error e => rw [he] at h; cases h
  | ok e =>
    rw [he] at h
    cases e with
    | needMore => cases h
    | unit value len =>
      obtain ⟨hn, hl⟩ := parseEscape_length he
      simp only at h
      split at h
      · split at h
        · cases h
        · cases h; omega
        · next low hlow =>
          have h6 := lowSurrogateFollows_length hlow
          rw [List.length_drop] at h6
          have hn' : len + 6 = n := by
            injection h with h; injection h with h; exact (Prod.mk.inj h).2
          omega
      · cases h; omega

/-- An error in digits has a message. -/
theorem hexDigits_error : ∀ {n : Nat} {ds : List UInt8} {v : Nat} {e : Stop},
    hexDigits n ds v = .error e → ∃ m, e = .err m
  | n + 1, d :: ds, v, e, h => by
    rw [hexDigits, unhex_eq] at h
    cases hd : hexValue d with
    | none => rw [hd] at h; cases h; exact ⟨_, rfl⟩
    | some w => rw [hd] at h; exact hexDigits_error h

/-- `resolve_escape` does not panic. -/
theorem resolve_error {l : List UInt8} {e : Stop} (h : resolve l = .error e) :
    ∃ m, e = .err m := by
  rw [resolve_eq] at h
  cases he : parseEscape l with
  | error e' =>
    rw [he] at h
    cases h
    match l, he with
    | b :: c :: l, he =>
      simp only [parseEscape] at he
      split at he
      · cases he
      · split at he
        · cases hd : hexDigits 4 l 0 with
          | error e' => rw [hd] at he; cases he; exact hexDigits_error hd
          | ok r => rw [hd] at he; cases r <;> cases he
        · cases he; exact ⟨_, rfl⟩
  | ok e' =>
    rw [he] at h
    cases e' with
    | needMore => cases h
    | unit value len =>
      simp only at h
      split at h
      · split at h <;> cases h
      · cases h

end RJsonParser
