import RJsonParser.Tokenizer.State

/-!
# Scanning bytes

The free functions of `src/tokenizer.rs` that look at the input and change nothing: UTF-8 content
runs, single characters and escape sequences.

Each reads through `Spans`, so its code distinguishes what lies in one span from what does not. The
lemma beside it says that the answer depends on the bytes alone (`scanPlain_eq`,
`decodeCharAt_spec`, `resolveEscape_eq`).
-/

namespace RJsonParser

open Infra Infra.Utf8

/-! ## `std::str::from_utf8` -/

/-- `Utf8Error`: `valid_up_to()`, and whether `error_len()` is `Some`. -/
structure Utf8Error where
  validUpTo : Nat
  invalid : Bool

/-- `std::str::from_utf8`. -/
def fromUtf8 (bytes : List UInt8) : Except Utf8Error Text :=
  match decode bytes with
  | (cs, .done) => .ok cs
  | (cs, .cut) => .error ⟨byteLen cs, false⟩
  | (cs, .bad) => .error ⟨byteLen cs, true⟩

theorem fromUtf8_encode (cs : Text) : fromUtf8 (encode cs) = .ok cs := by
  rw [fromUtf8, decode_encode]

/-- What is valid is the encoding of a text. -/
theorem fromUtf8_ok {bytes : List UInt8} {cs : Text} (h : fromUtf8 bytes = .ok cs) :
    bytes = encode cs := by
  unfold fromUtf8 at h
  split at h
  · next hd => cases h; exact decode_eq_done hd
  · cases h
  · cases h

/-- Where `from_utf8` fails there are characters, and then a character that is cut off or no
character at all. -/
theorem fromUtf8_error {bytes : List UInt8} {e : Utf8Error} (h : fromUtf8 bytes = .error e) :
    ∃ cs r, bytes = encode cs ++ r ∧ e.validUpTo = byteLen cs ∧
      if e.invalid then front r = .bad else r ≠ [] ∧ front r = .need := by
  obtain ⟨r, hr, he⟩ := decode_spec bytes
  unfold fromUtf8 at h
  split at h
  · cases h
  · next cs hd => cases h; rw [hd] at hr he; exact ⟨cs, r, hr, rfl, he⟩
  · next cs hd => cases h; rw [hd] at hr he; exact ⟨cs, r, hr, rfl, he⟩

/-- `malformed_utf8`. -/
def malformedUtf8 : Stop := .err "Malformed UTF-8"

/-! ## `utf16_len` -/

/-- `utf16_len`. -/
def utf16Len (s : Text) : Nat :=
  let bytes := encode s
  if bytes.all fun b => b < 0x80 then bytes.length
  else (bytes.map fun b =>
    (if b &&& 0xC0 ≠ 0x80 then 1 else 0) + (if 0xF0 ≤ b then 1 else 0)).sum

/-- The mask test for a continuation byte. -/
theorem mask_iff_isCont : ∀ b : UInt8, b &&& 0xC0 = 0x80 ↔ isCont b = true :=
  forall_byte (by decide +kernel)

/-- **`utf16_len`** counts the UTF-16 units of a text by its bytes, with a short cut for ASCII. -/
theorem utf16Len_eq (s : Text) : utf16Len s = units (encode s) := by
  unfold utf16Len
  simp only []
  split
  · next h =>
    rw [units_ascii]
    intro b hb
    have := List.all_eq_true.mp h b hb
    simpa [UInt8.lt_iff_toNat_lt] using this
  · unfold units
    congr 1
    refine List.map_congr_left fun b _ => ?_
    unfold unitsOf
    by_cases hc : isCont b = true <;>
      simp [mask_iff_isCont, hc, UInt8.le_iff_toNat_le]

/-! ## `scan_plain` -/

/-- A byte that ends a run of plain string content. -/
def isDelimiter (b : UInt8) : Bool := b = quote || b = backslash || b < 0x20

/-- The plain bytes at the front of `l`. -/
def plainRun (l : List UInt8) : List UInt8 := l.takeWhile fun b => !isDelimiter b

/-- The loop of `scan_plain`. -/
def scanPlainLoop (input : Spans) (stop : Nat) : Nat → Nat → Except Stop Nat
  | 0, _ => .error .outOfFuel
  | fuel + 1, i =>
    if i < stop then
      let span := input.spanFrom i
      let n := min span.length (stop - i)
      match (span.take n).findIdx? isDelimiter with
      | some k => .ok (i + k)
      | none => scanPlainLoop input stop fuel (i + n)
    else .ok stop

/-- `scan_plain`. -/
def scanPlain (input : Spans) (start stop : Nat) : Except Stop Nat :=
  scanPlainLoop input stop (stop - start + 1) start

/-- A run goes on over plain bytes. -/
theorem plainRun_append {l m : List UInt8} (h : ∀ b ∈ l, isDelimiter b = false) :
    plainRun (l ++ m) = l ++ plainRun m :=
  List.takeWhile_append_of_pos fun b hb => by simp [h b hb]

theorem plainRun_plain {l : List UInt8} : ∀ b ∈ plainRun l, isDelimiter b = false := by
  intro b hb
  simpa using List.all_eq_true.mp List.all_takeWhile b hb

theorem plainRun_prefix (l : List UInt8) : plainRun l <+: l := List.takeWhile_prefix _

/-- A delimiter ends the run, whatever comes after it. -/
theorem plainRun_append_of_findIdx? {l : List UInt8} {k : Nat}
    (h : l.findIdx? isDelimiter = some k) (m : List UInt8) :
    (plainRun (l ++ m)).length = k ∧ k < l.length := by
  induction l generalizing k with
  | nil => cases h
  | cons b l ih =>
    rw [List.findIdx?_cons] at h
    cases hb : isDelimiter b with
    | true => simp [hb] at h; subst h; simp [plainRun, hb]
    | false =>
      simp only [hb, Bool.false_eq_true, if_false, Option.map_eq_some_iff] at h
      obtain ⟨k', hk', rfl⟩ := h
      have := ih hk'
      simp only [plainRun, List.cons_append, List.takeWhile_cons, hb, Bool.not_false, if_true,
        List.length_cons] at this ⊢
      omega

/-- The loop of `scan_plain` finds the end of the run span by span. -/
theorem scanPlainLoop_eq (input : Spans) {stop : Nat} (hstop : stop ≤ input.len) :
    ∀ (fuel i : Nat), stop - i < fuel → i ≤ stop →
      scanPlainLoop input stop fuel i =
        .ok (i + (plainRun ((input.bytes.drop i).take (stop - i))).length)
  | fuel + 1, i, hf, hi => by
    rw [scanPlainLoop]
    by_cases hlt : i < stop
    · rw [if_pos hlt]
      simp only []
      have hpos := input.length_spanFrom_pos (i := i) (by omega)
      have hn : min (input.spanFrom i).length (stop - i) ≤ (input.spanFrom i).length :=
        Nat.min_le_left _ _
      have hn' : min (input.spanFrom i).length (stop - i) ≤ stop - i := Nat.min_le_right _ _
      have hn0 : 0 < min (input.spanFrom i).length (stop - i) := by omega
      generalize min (input.spanFrom i).length (stop - i) = n at hn hn' hn0
      have hsplit : (input.bytes.drop i).take (stop - i) =
          (input.spanFrom i).take n ++ (input.bytes.drop (i + n)).take (stop - (i + n)) := by
        rw [input.take_spanFrom hn, ← List.drop_drop, ← List.take_add]
        congr 1; omega
      rw [hsplit]
      split
      · next k hk => rw [(plainRun_append_of_findIdx? hk _).1]
      · next hnone =>
        rw [List.findIdx?_eq_none_iff] at hnone
        rw [scanPlainLoop_eq input hstop fuel (i + n) (by omega) (by omega),
          plainRun_append fun b hb => by simpa using hnone b hb, List.length_append,
          List.length_take, Nat.min_eq_left hn, Nat.add_assoc]
    · have : i = stop := by omega
      simp [this, plainRun]

/-- **`scan_plain`** finds the end of the run, wherever the spans are cut. -/
theorem scanPlain_eq (input : Spans) {start stop : Nat} (hs : start ≤ stop)
    (hstop : stop ≤ input.len) : scanPlain input start stop =
      .ok (start + (plainRun ((input.bytes.drop start).take (stop - start))).length) :=
  scanPlainLoop_eq input hstop _ _ (by omega) hs

/-! ## `decode_char_at` -/

/-- The loop of `decode_char_at`: the bytes `k`, `k + 1`, ... of the character at `p`, `n` of
them, or `none` if the input ends first. -/
def contBytes (input : Spans) (p : Nat) : Nat → Nat → Except Stop (Option (List UInt8))
  | 0, _ => .ok (some [])
  | n + 1, k =>
    if input.len ≤ p + k then .ok none
    else do
      let b ← input.get (p + k)
      if b &&& 0xC0 ≠ 0x80 then .error malformedUtf8
      else do
        let rest ← contBytes input p n (k + 1)
        .ok (rest.map (b :: ·))

/-- The bytes that the character led by `b` needs. -/
def needOf (b : UInt8) : Except Stop Nat :=
  if 0xC2 ≤ b ∧ b ≤ 0xDF then .ok 2
  else if 0xE0 ≤ b ∧ b ≤ 0xEF then .ok 3
  else if 0xF0 ≤ b ∧ b ≤ 0xF4 then .ok 4
  else .error malformedUtf8

/-- `decode_char_at`. -/
def decodeCharAt (input : Spans) (p : Nat) : Except Stop (Option (Char × Nat)) := do
  let b ← input.get p
  let need ← needOf b
  match ← contBytes input p (need - 1) 1 with
  | none => .ok none
  | some rest =>
    match fromUtf8 (b :: rest) with
    | .ok (c :: _) => .ok (some (c, need))
    | .ok [] => .error .panic
    | .error _ => .error malformedUtf8

/-- `contBytes` on what is left of the input. -/
def contList : Nat → List UInt8 → Except Stop (Option (List UInt8))
  | 0, _ => .ok (some [])
  | _ + 1, [] => .ok none
  | n + 1, b :: l =>
    if isCont b = false then .error malformedUtf8
    else do
      let rest ← contList n l
      .ok (rest.map (b :: ·))

/-- The bytes that it reads are those after the first. -/
theorem contBytes_eq (input : Spans) (p : Nat) : ∀ (n k : Nat),
    contBytes input p n k = contList n (input.bytes.drop (p + k))
  | 0, k => by rw [contBytes, contList]
  | n + 1, k => by
    rw [contBytes]
    by_cases hle : input.len ≤ p + k
    · rw [if_pos hle, List.drop_eq_nil_of_le hle, contList]
    · have hlt : p + k < input.bytes.length := Nat.lt_of_not_le hle
      have hd := List.drop_eq_getElem_cons hlt
      rw [if_neg hle, hd, contList, input.get_eq hd, except_ok_bind, contBytes_eq input p n (k + 1)]
      by_cases hc : isCont input.bytes[p + k] = true
      · rw [if_neg (by simp [mask_iff_isCont, hc]), if_neg (by simp [hc])]; rfl
      · rw [if_pos (by simpa [mask_iff_isCont] using hc), if_pos (by simpa using hc)]

/-- All of them are there. -/
theorem contList_eq_some : ∀ {n : Nat} {l rest : List UInt8}, contList n l = .ok (some rest) →
    rest = l.take n ∧ rest.length = n
  | 0, l, rest, h => by cases h; simp
  | n + 1, b :: l, rest, h => by
    rw [contList] at h
    split at h
    · cases h
    · cases hc : contList n l with
      | error e => rw [hc] at h; cases h
      | ok r =>
        rw [hc] at h
        cases r with
        | none => cases h
        | some r =>
          cases h
          obtain ⟨rfl, hl⟩ := contList_eq_some hc
          exact ⟨by simp, by simpa using hl⟩

/-- One is missing, and those that are there are right so far. -/
theorem contList_eq_none : ∀ {n : Nat} {l : List UInt8}, contList n l = .ok none →
    l.length < n ∧ ∀ b ∈ l, isCont b = true
  | _ + 1, [], _ => by simp
  | n + 1, b :: l, h => by
    rw [contList] at h
    split at h
    · cases h
    · next hb =>
      cases hc : contList n l with
      | error e => rw [hc] at h; cases h
      | ok r =>
        rw [hc] at h
        cases r with
        | some r => cases h
        | none =>
          obtain ⟨hl, hall⟩ := contList_eq_none hc
          refine ⟨by simpa using hl, ?_⟩
          intro x hx
          rcases List.mem_cons.mp hx with rfl | hx
          · simpa using hb
          · exact hall x hx

/-- One is wrong. -/
theorem contList_eq_error : ∀ {n : Nat} {l : List UInt8} {e : Stop}, contList n l = .error e →
    e = malformedUtf8 ∧ ∃ b ∈ l.take n, isCont b = false
  | n + 1, b :: l, e, h => by
    rw [contList] at h
    split at h
    · next hb => cases h; exact ⟨rfl, b, by simp, hb⟩
    · cases hc : contList n l with
      | error e' =>
        rw [hc] at h
        cases h
        obtain ⟨rfl, x, hx, hxb⟩ := contList_eq_error hc
        exact ⟨rfl, x, by simp [hx], hxb⟩
      | ok r => rw [hc] at h; cases h

/-- What `decode_char_at` makes of the bytes `l` from its position on. -/
inductive CharAt (l : List UInt8) : Except Stop (Option (Char × Nat)) → Prop where
  | char {c n} (h : front l = .char c n) : CharAt l (.ok (some (c, n)))
  | cutOff (h : CutOff l) : CharAt l (.ok none)
  | malformed (h : front l = .bad) : CharAt l (.error malformedUtf8)

/-- The first byte tells how many there are. -/
theorem needOf_eq {b : UInt8} (hb : 2 ≤ width b) : needOf b = .ok (width b) := by
  unfold needOf
  simp only [UInt8.le_iff_toNat_le]
  unfold width at hb ⊢
  split_ifs at hb ⊢ <;> first | rfl | (exfalso; simp at *; done) | (exfalso; simp at *; omega)

/-- **`decode_char_at`** reads a character across spans: it is there, it is cut off, or it is
none. -/
theorem decodeCharAt_spec {input : Spans} {p : Nat} {b : UInt8} {l : List UInt8}
    (h : input.bytes.drop p = b :: l) (hb : 2 ≤ width b) :
    CharAt (b :: l) (decodeCharAt input p) := by
  have hneed := needOf_eq hb
  have hdrop : input.bytes.drop (p + 1) = l := by rw [← List.drop_drop, h]; rfl
  rw [decodeCharAt, input.get_eq h]
  simp only [except_ok_bind, hneed, contBytes_eq, hdrop]
  cases hc : contList (width b - 1) l with
  | error e =>
    obtain ⟨rfl, x, hx, hxb⟩ := contList_eq_error hc
    exact .malformed (front_eq_bad_of_not_cont hx hxb)
  | ok r =>
    cases r with
    | none =>
      obtain ⟨hlt, hall⟩ := contList_eq_none hc
      exact .cutOff ⟨b, l, rfl, hb, by simp; omega, hall⟩
    | some rest =>
      obtain ⟨rfl, hlen⟩ := contList_eq_some hc
      have hl : b :: l = (b :: l.take (width b - 1)) ++ l.drop (width b - 1) := by simp
      have hnot : front (b :: l.take (width b - 1)) ≠ .need := by
        intro hn
        rcases front_eq_need hn with h' | ⟨_, _, heq, _, hlt, _⟩
        · cases h'
        · cases heq; simp only [List.length_cons] at hlt; omega
      have happ := front_append (l.drop (width b - 1)) hnot
      rw [← hl] at happ
      simp only [except_ok_bind]
      cases hf : front (b :: l.take (width b - 1)) with
      | need => exact absurd hf hnot
      | bad =>
        have hd := @decode_encode_append [] _ .bad hf
        rw [encode_nil, List.nil_append] at hd
        rw [fromUtf8, hd]
        exact .malformed (happ.trans hf)
      | char c n =>
        have hn := front_char_width hf
        have henc := front_drop hf
        rw [List.drop_eq_nil_of_le (by simp only [List.length_cons]; omega),
          List.append_nil] at henc
        have hu := fromUtf8_encode [c]
        rw [encode_cons, encode_nil, List.append_nil, ← henc] at hu
        rw [hu, ← hn]
        exact .char (happ.trans hf)

/-! ## Escape sequences -/

/-- `unhex`. -/
def unhex (b : UInt8) : Except Stop Nat :=
  if 0x30 ≤ b ∧ b ≤ 0x39 then .ok (b - 0x30).toNat
  else if 0x41 ≤ b ∧ b ≤ 0x46 then .ok (b - 0x41 + 10).toNat
  else if 0x61 ≤ b ∧ b ≤ 0x66 then .ok (b - 0x61 + 10).toNat
  else .error (.err s!"Invalid hex digit: {byteChar b}")

/-- The value of `n` hex digits at the front of the bytes, after the digits of `value`. `none` if
the bytes end first. -/
def hexDigits : Nat → List UInt8 → Nat → Except Stop (Option Nat)
  | 0, _, value => .ok (some value)
  | _ + 1, [], _ => .ok none
  | n + 1, h :: rest, value => do
    let d ← unhex h
    hexDigits n rest (value * 16 + d)

/-- The loop of `peek_escape`, byte by byte. -/
def peekRest (input : Spans) (i : Nat) : Nat → List UInt8 → Except Stop (List UInt8)
  | 0, _ => .error .outOfFuel
  | fuel + 1, bytes =>
    if bytes.length < 6 ∧ i + bytes.length < input.len then do
      let b ← input.get (i + bytes.length)
      peekRest input i fuel (bytes ++ [b])
    else .ok bytes

/-- `peek_escape`. -/
def peekEscape (input : Spans) (i : Nat) : Except Stop (List UInt8) :=
  let span := input.spanFrom i
  if 6 ≤ span.length then .ok (span.take 6) else peekRest input i 7 span

/-- `Escape`. -/
inductive Escape where
  | needMore
  | unit (value len : Nat)
deriving DecidableEq, Repr

/-- The escapes of one byte. -/
def simpleEscape (c : UInt8) : Option Nat :=
  if c = quote then some 0x22
  else if c = backslash then some 0x5C
  else if c = 0x2F then some 0x2F
  else if c = 0x62 then some 0x08
  else if c = 0x66 then some 0x0C
  else if c = 0x6E then some 0x0A
  else if c = 0x72 then some 0x0D
  else if c = 0x74 then some 0x09
  else none

/-- `parse_escape`. -/
def parseEscape : List UInt8 → Except Stop Escape
  | _ :: c :: rest =>
    match simpleEscape c with
    | some value => .ok (.unit value 2)
    | none =>
      if c = 0x75 then do
        match ← hexDigits 4 rest 0 with
        | some value => .ok (.unit value 6)
        | none => .ok .needMore
      else .error (.err s!"Invalid escape sequence: \\{byteChar c}")
  | _ => .ok .needMore

/-- `Follow`. -/
inductive Follow where
  | needMore
  | not
  | low (value : Nat)
deriving DecidableEq, Repr

/-- `low_surrogate_follows`. -/
def lowSurrogateFollows : List UInt8 → Follow
  | [] => .needMore
  | first :: rest =>
    if first ≠ backslash then .not
    else
      match rest with
      | [] => .needMore
      | second :: digits =>
        if second ≠ 0x75 then .not
        else if digits.length < 4 then .needMore
        else
          match hexDigits 4 digits 0 with
          | .ok (some value) => if 0xDC00 ≤ value ∧ value ≤ 0xDFFF then .low value else .not
          | _ => .not

/-- `char::from_u32`. -/
def charFromU32 (n : Nat) : Option Char := if n.isValidChar then some (Char.ofNat n) else none

/-- `char::REPLACEMENT_CHARACTER`. -/
def replacementCharacter : Char := Char.ofNat 0xFFFD

/-- `resolve_escape`, on what `peek_escape` shows at an offset from the escape. -/
def resolveWith (peek : Nat → Except Stop (List UInt8)) : Except Stop (Option (Char × Nat)) := do
  let bytes ← peek 0
  match ← parseEscape bytes with
  | .needMore => .ok none
  | .unit value len =>
    if 0xD800 ≤ value ∧ value ≤ 0xDBFF then do
      let next ← peek len
      match lowSurrogateFollows next with
      | .needMore => .ok none
      | .not => .ok (some (replacementCharacter, len))
      | .low low =>
        let cp := 0x10000 + (value - 0xD800) * 1024 + (low - 0xDC00)
        .ok (some ((charFromU32 cp).getD replacementCharacter, len + 6))
    else .ok (some ((charFromU32 value).getD replacementCharacter, len))

/-- `resolve_escape`. -/
def resolveEscape (input : Spans) (i : Nat) : Except Stop (Option (Char × Nat)) :=
  resolveWith fun k => peekEscape input (i + k)

/-- Up to six bytes are copied, span by span. -/
theorem peekRest_eq (input : Spans) (i : Nat) : ∀ (fuel : Nat) (bytes : List UInt8),
    6 - bytes.length < fuel → bytes <+: input.bytes.drop i → bytes.length ≤ 6 →
      peekRest input i fuel bytes = .ok ((input.bytes.drop i).take 6)
  | fuel + 1, bytes, hf, hp, hle => by
    obtain ⟨rest, hrest⟩ := hp
    rw [peekRest]
    split
    · next hlt =>
      have hne : rest ≠ [] := by
        rintro rfl
        have := congrArg List.length hrest
        simp at this
        have := hlt.2
        unfold Spans.len at this
        omega
      obtain ⟨b, rest, rfl⟩ := List.exists_cons_of_ne_nil hne
      have hd : input.bytes.drop (i + bytes.length) = b :: rest := by
        rw [← List.drop_drop, ← hrest, List.drop_left]
      rw [input.get_eq hd, except_ok_bind]
      exact peekRest_eq input i fuel _ (by simp; omega) ⟨rest, by simp [hrest]⟩ (by simp; omega)
    · next hge =>
      congr 1
      rw [← hrest]
      by_cases h6 : bytes.length = 6
      · rw [← h6, List.take_left]
      · have hlen := congrArg List.length hrest
        simp only [List.length_append, List.length_drop] at hlen
        unfold Spans.len at hge
        have : rest = [] := by
          rw [← List.length_eq_zero_iff]; omega
        rw [this, List.append_nil, List.take_of_length_le hle]

/-- **`peek_escape`** copies the six bytes that are there, or fewer at the end. -/
theorem peekEscape_eq (input : Spans) (i : Nat) :
    peekEscape input i = .ok ((input.bytes.drop i).take 6) := by
  unfold peekEscape
  simp only []
  split
  · next h => rw [input.take_spanFrom h]
  · next h => exact peekRest_eq input i 7 _ (by omega) (input.spanFrom_prefix i) (by omega)

/-- `resolve_escape` on the bytes from the escape on. -/
def resolve (l : List UInt8) : Except Stop (Option (Char × Nat)) :=
  resolveWith fun k => .ok ((l.drop k).take 6)

/-- **`resolve_escape`** reads what is there and nothing else of the spans. -/
theorem resolveEscape_eq (input : Spans) (i : Nat) :
    resolveEscape input i = resolve (input.bytes.drop i) := by
  unfold resolveEscape resolve
  congr 1
  funext k
  rw [peekEscape_eq, List.drop_drop]

end RJsonParser
