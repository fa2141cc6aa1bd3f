import RJsonParser.Properties.Scripts

/-!
# The text that a writer puts

Whatever is called in whatever order, what comes out is UTF-8: a character that has begun to come
out is in the ring to its end.

* `IsText` — some bytes are the encoding of a text
* `output_isText` — what has come out and what is in the ring is text, at every point of a session
-/

namespace RJsonParser

open Infra Infra.Utf8 Writer

variable {F : Type}

/-- The bytes are the encoding of a text. -/
def IsText (l : List UInt8) : Prop := ∃ s : Text, encode s = l

section IsText

variable {a b l : List UInt8}

theorem isText_encode (s : Text) : IsText (encode s) := ⟨s, rfl⟩

theorem isText_nil : IsText [] := ⟨[], rfl⟩

theorem IsText.append (h : IsText a) (h' : IsText b) : IsText (a ++ b) := by
  obtain ⟨s, rfl⟩ := h
  obtain ⟨t, rfl⟩ := h'
  exact ⟨s ++ t, encode_append s t⟩

theorem isText_ascii (h : ∀ x ∈ l, x.toNat < 0x80) : IsText l := ⟨l.map byteChar, encode_ascii h⟩

/-- A text of ASCII. -/
theorem isText_all (h : (l.all fun x => decide (x.toNat < 0x80)) = true) : IsText l :=
  isText_ascii fun x hx => by simpa using List.all_eq_true.mp h x hx

/-- An escape is ASCII. -/
theorem escapeOf_ascii (b : UInt8) : ∀ x ∈ escapeOf b, x.toNat < 0x80 := by
  have key : ∀ b, ((escapeOf b).all fun x => decide (x.toNat < 0x80)) = true :=
    forall_byte (by decide +kernel)
  exact fun x hx => by simpa using List.all_eq_true.mp (key b) x hx

/-- What is put for a text is text. -/
theorem isText_escaped (s : Text) : IsText (escaped s) := by
  induction s with
  | nil => exact isText_nil
  | cons c s ih =>
    have hone : escaped [c] = (String.utf8EncodeChar c).flatMap escapedByte := by
      simp [escaped, encode]
    rw [← List.singleton_append, escaped_append, hone]
    refine IsText.append ?_ ih
    by_cases hp : ∀ b ∈ String.utf8EncodeChar c, isDelimiter b = false
    · rw [escapedBytes_plain hp]
      exact ⟨[c], by simp [encode]⟩
    · obtain ⟨b, hb, hplain, -⟩ := encodeChar_escaped hp
      rw [hb, List.flatMap_singleton, escapedByte, if_neg (by simp [hplain])]
      exact isText_ascii (escapeOf_ascii b)

theorem isText_quoted (s : Text) : IsText (quoted s) :=
  (isText_all rfl).append ((isText_escaped s).append (isText_all rfl))

theorem isText_indentBytes (depth : Option Nat) (indent : Option IndentConfig) :
    IsText (indentBytes depth indent) := by
  cases depth with
  | none => exact isText_nil
  | some depth =>
    cases indent with
    | none => exact isText_nil
    | some indent =>
      refine isText_ascii fun x hx => ?_
      rcases List.mem_cons.mp hx with rfl | hx
      · decide
      · rw [List.eq_of_mem_replicate hx]
        rcases indent.char_ok with h | h <;> rw [h] <;> decide

theorem isText_lead (w : Writer) : IsText w.lead := by
  refine IsText.append ?_ (IsText.append ?_ (isText_indentBytes _ _))
  · split
    · exact isText_all rfl
    · exact isText_nil
  · split
    · exact isText_all rfl
    · exact isText_nil

end IsText

/-- The decimal form of an integer, as `Display` shows it. -/
def decimalText (v : Int) : Text :=
  (if v < 0 then ['-'] else []) ++ Nat.toDigits 10 v.natAbs

theorem encode_of_ascii {s : Text} (h : ∀ c ∈ s, c.toNat ≤ 0x7F) :
    encode s = s.map fun c => UInt8.ofNat c.toNat := by
  induction s with
  | nil => rfl
  | cons c s ih =>
    rw [encode_cons, encodeChar_one (h c List.mem_cons_self),
      ih fun d hd => h d (List.mem_cons_of_mem _ hd)]
    rfl

/-- What is put for an integer is its decimal form. -/
theorem decimalBytes_eq (v : Int) : decimalBytes v = encode (decimalText v) := by
  have hdigits : ∀ c ∈ Nat.toDigits 10 v.natAbs, c.toNat ≤ 0x7F := by
    intro c hc
    have hd := Nat.isDigit_of_mem_toDigits (by decide) (by decide) hc
    simp only [Char.isDigit, Bool.and_eq_true, decide_eq_true_eq, ge_iff_le,
      UInt32.le_iff_toNat_le] at hd
    exact Nat.le_trans hd.2 (by decide)
  rw [decimalText, encode_append, encode_of_ascii hdigits, decimalBytes]
  split <;> rfl

/-! ## Sessions -/

section Sessions

variable [DoubleText F]

theorem isText_number {v : Number F} {bytes : List UInt8} (h : v.bytes = some bytes) :
    IsText bytes := by
  cases v with
  | i32 w => exact (Option.some.inj h) ▸ ⟨_, (decimalBytes_eq w).symm⟩
  | i64 w => exact (Option.some.inj h) ▸ ⟨_, (decimalBytes_eq w).symm⟩
  | f64 x =>
    simp only [Number.bytes, doubleBytes] at h
    split at h
    · exact ⟨_, Option.some.inj h⟩
    · cases h
  | bigInt digits => exact ⟨digits, Option.some.inj h⟩

/-- What a call but `write_string_content` puts at once is text. -/
theorem WriteCall.isText_token {c : WriteCall F} {w : Writer} {t : Token} (h : c.token w = some t) :
    IsText t.bytes := by
  have lead {l : List UInt8} (hl : IsText l) : IsText (w.lead ++ l) := (isText_lead w).append hl
  have value {o : Option (List UInt8)} {what : String} (ho : ∀ l, o = some l → IsText l)
      (h : o.map (w.value · what) = some t) : IsText t.bytes := by
    obtain ⟨l, hl, rfl⟩ := Option.map_eq_some_iff.mp h
    exact lead (ho l hl)
  cases c with
  | stringContent s => cases h
  | number v => exact value (fun _ => isText_number) h
  | f64 x => exact value (fun _ hl => isText_number (v := .f64 x) hl) h
  | startObject | startArray =>
    obtain rfl := Option.some.inj h
    exact lead (isText_all rfl)
  | endObject | endArray =>
    obtain rfl := Option.some.inj h
    exact (isText_indentBytes _ _).append (isText_all rfl)
  | key k =>
    obtain rfl := Option.some.inj h
    exact lead ((isText_quoted k).append (isText_all rfl))
  | string s =>
    obtain rfl := Option.some.inj h
    exact lead (isText_quoted s)
  | startString | null =>
    obtain rfl := Option.some.inj h
    exact lead (isText_all rfl)
  | endString =>
    obtain rfl := Option.some.inj h
    exact isText_all rfl
  | numberStr s =>
    obtain rfl := Option.some.inj h
    exact lead (isText_encode s)
  | i32 v | i64 v =>
    obtain rfl := Option.some.inj h
    exact lead ⟨_, (decimalBytes_eq v).symm⟩
  | boolean v =>
    obtain rfl := Option.some.inj h
    cases v <;> exact lead (isText_all rfl)

/-- What a call writes is text. -/
theorem WriteCall.isText {c : WriteCall F} {w w' : Writer} {bytes : List UInt8}
    (h : c.whole w = some (bytes, w')) : IsText bytes := by
  by_cases hc : ∃ s, c = .stringContent s
  · obtain ⟨s, rfl⟩ := hc
    exact (Prod.mk.inj (Option.some.inj h)).1 ▸ isText_escaped s
  · rw [whole_of_token w (by simpa using hc)] at h
    obtain ⟨t, ht, heq⟩ := Option.map_eq_some_iff.mp h
    exact (Prod.mk.inj heq).1 ▸ isText_token ht

namespace WriterSession

/-- What has come out and what is in the ring. -/
def output (s : WriterSession F) : List UInt8 := s.out ++ s.ring.bytes

/-- A step of a session puts some text behind what was there. -/
theorem step_output {s s' : WriterSession F} {move : Move} (hr : s.Ranged)
    (h : s.step move = .ok s') : s'.Ranged ∧ ∃ l, IsText l ∧ s'.output = s.output ++ l := by
  refine ⟨(total_step hr h).1, ?_⟩
  cases move with
  | drain n =>
    cases h
    refine ⟨[], isText_nil, ?_⟩
    show s.out ++ s.ring.bytes.take n ++ s.ring.bytes.drop n = _
    rw [List.append_assoc, List.take_append_drop, List.append_nil]
    rfl
  | call =>
    obtain ⟨calls, ring, w, out⟩ := s
    cases calls with
    | nil =>
      cases h
      exact ⟨[], isText_nil, (List.append_nil _).symm⟩
    | cons c cs =>
      rcases exec_spec (hr c List.mem_cons_self) ring w with ⟨n, bytes, rest, w', hw⟩ | ⟨e, he⟩
      · obtain ⟨d, -, hd⟩ := hw.upTo
        simp only [step, call_wrote hw.exec hw.rest_eq] at h
        cases h
        refine ⟨bytes, d.isText hd, ?_⟩
        show out ++ (ring.extendFromSlice bytes).bytes = out ++ ring.bytes ++ bytes
        rw [LoopBuf.bytes_extendFromSlice ring hw.fits, List.append_assoc]
      · simp only [step, call_stopped he] at h
        split at h
        · cases h
          exact ⟨[], isText_nil, (List.append_nil _).symm⟩
        · cases h

/-- **The output is text at every point.** Whatever is called in whatever order, whenever the ring
is drained and by how much: what has come out and what is in the ring is the encoding of a text. -/
theorem output_isText {moves : List Move} {s s' : WriterSession F} (hr : s.Ranged)
    (hs : IsText s.output) (h : s.run moves = .ok s') : IsText s'.output := by
  induction moves generalizing s with
  | nil =>
    cases h
    exact hs
  | cons move moves ih =>
    rw [run, List.foldlM_cons] at h
    cases hstep : s.step move with
    | error e =>
      rw [hstep] at h
      cases h
    | ok s₁ =>
      rw [hstep] at h
      obtain ⟨hr₁, l, hl, heq⟩ := step_output hr hstep
      exact ih hr₁ (heq ▸ hs.append hl) h

/-- `é"` through a ring of six bytes that is drained of one byte in the middle of the character. -/
theorem output_isText_half : IsText
    (⟨[], smallRing [0xA9, 0x5C, 0x22] (by decide), .new, [0xC3]⟩ : WriterSession Half).output := by
  have hrun : run (⟨[.stringContent ['é', '"']], smallRing [] (by decide), .new, []⟩ :
      WriterSession Half) [.call, .drain 1] =
      .ok ⟨[], smallRing [0xA9, 0x5C, 0x22] (by decide), .new, [0xC3]⟩ := by
    rfl
  have hranged : (⟨[.stringContent ['é', '"']], smallRing [] (by decide), .new, []⟩ :
      WriterSession Half).Ranged := fun c hc => by
    rw [List.mem_singleton.mp hc]
    trivial
  exact output_isText hranged isText_nil hrun

end WriterSession

end Sessions

end RJsonParser
