import Mathlib

/-!
# Strict UTF-8

Decoding byte lists that may be cut off at the end. The reference is Lean's own encoder
`String.utf8EncodeChar`: a byte list is well formed when it is `encode` of some characters.

* `front` — the character at the front of a list, or that it is malformed, or that more bytes
  are needed to tell
* `front_encode` / `front_eq_char` — `front` inverts the encoder
* `front_append` — what `front` decides stands when more bytes follow
* `decode` — the characters of a list as far as they go, and why they end
* `units` — the length in UTF-16 units, counted on bytes
-/

namespace Infra.Utf8

/-- What stands at the front of a byte list. -/
inductive Front where
  /-- Nothing, or the start of a character that is cut off. -/
  | need
  /-- Bytes that no character starts with. -/
  | bad
  /-- A character and the number of its bytes. -/
  | char (c : Char) (n : Nat)
deriving DecidableEq

/-- A continuation byte. -/
def isCont (b : UInt8) : Bool := 0x80 ≤ b.toNat && b.toNat < 0xC0

/-- The number of bytes of the character that `b` leads, `0` if it leads none. -/
def width (b : UInt8) : Nat :=
  if b.toNat < 0x80 then 1
  else if b.toNat < 0xC2 then 0
  else if b.toNat < 0xE0 then 2
  else if b.toNat < 0xF0 then 3
  else if b.toNat < 0xF5 then 4
  else 0

/-- Whether `b1` may follow the lead byte `b0`: a continuation byte that gives neither an
overlong form, a surrogate nor a value above `10FFFF`. -/
def isSecond (b0 b1 : UInt8) : Bool :=
  isCont b1 &&
    !(b0.toNat == 0xE0 && b1.toNat < 0xA0) && !(b0.toNat == 0xED && 0xA0 ≤ b1.toNat) &&
    !(b0.toNat == 0xF0 && b1.toNat < 0x90) && !(b0.toNat == 0xF4 && 0x90 ≤ b1.toNat)

def front : List UInt8 → Front
  | [] => .need
  | b0 :: rest =>
    if width b0 = 1 then .char (Char.ofNat b0.toNat) 1
    else if width b0 = 2 then
      match rest with
      | [] => .need
      | b1 :: _ =>
        if isSecond b0 b1 then .char (Char.ofNat (b0.toNat % 32 * 64 + b1.toNat % 64)) 2
        else .bad
    else if width b0 = 3 then
      match rest with
      | [] => .need
      | [b1] => if isSecond b0 b1 then .need else .bad
      | b1 :: b2 :: _ =>
        if isSecond b0 b1 && isCont b2 then
          .char (Char.ofNat (b0.toNat % 16 * 4096 + b1.toNat % 64 * 64 + b2.toNat % 64)) 3
        else .bad
    else if width b0 = 4 then
      match rest with
      | [] => .need
      | [b1] => if isSecond b0 b1 then .need else .bad
      | [b1, b2] => if isSecond b0 b1 && isCont b2 then .need else .bad
      | b1 :: b2 :: b3 :: _ =>
        if isSecond b0 b1 && isCont b2 && isCont b3 then
          .char (Char.ofNat (b0.toNat % 8 * 262144 + b1.toNat % 64 * 4096 + b2.toNat % 64 * 64
            + b3.toNat % 64)) 4
        else .bad
    else .bad

/-- The bytes of a text. -/
def encode (cs : List Char) : List UInt8 := cs.flatMap String.utf8EncodeChar

/-- The length of a text in bytes. -/
def byteLen (cs : List Char) : Nat := (cs.map Char.utf8Size).sum

@[simp] theorem encode_nil : encode [] = [] := rfl

@[simp] theorem encode_cons (c : Char) (cs : List Char) :
    encode (c :: cs) = String.utf8EncodeChar c ++ encode cs := rfl

@[simp] theorem encode_append (cs ds : List Char) : encode (cs ++ ds) = encode cs ++ encode ds :=
  List.flatMap_append

@[simp] theorem byteLen_nil : byteLen [] = 0 := rfl

@[simp] theorem byteLen_cons (c : Char) (cs : List Char) :
    byteLen (c :: cs) = c.utf8Size + byteLen cs := rfl

@[simp] theorem byteLen_append (cs ds : List Char) :
    byteLen (cs ++ ds) = byteLen cs + byteLen ds := by simp [byteLen]

@[simp] theorem length_encode (cs : List Char) : (encode cs).length = byteLen cs := by
  induction cs with
  | nil => rfl
  | cons c cs ih => simp [ih]

theorem byteLen_pos {cs : List Char} (h : cs ≠ []) : 0 < byteLen cs := by
  cases cs with
  | nil => exact absurd rfl h
  | cons c cs => have := c.utf8Size_pos; simp; omega

theorem byteLen_eq_zero {cs : List Char} : byteLen cs = 0 ↔ cs = [] := by
  constructor
  · intro h
    by_contra hne
    have := byteLen_pos hne
    omega
  · rintro rfl; rfl

/-! ## `front` inverts the encoder -/

/-- A character is no surrogate and at most `0x10FFFF`. -/
theorem toNat_valid (c : Char) : c.toNat < 0xD800 ∨ (0xDFFF < c.toNat ∧ c.toNat < 0x110000) :=
  c.valid

/-- Any other code point is that of a character. -/
theorem toNat_ofNat_of_valid {n : Nat} (h : n < 0xD800 ∨ (0xDFFF < n ∧ n < 0x110000)) :
    (Char.ofNat n).toNat = n := by
  unfold Char.ofNat
  rw [dif_pos (show n.isValidChar from h)]
  rfl

theorem toNat_byte {n : Nat} (h : n < 256) : (UInt8.ofNat n).toNat = n := by
  simp [Nat.mod_eq_of_lt h]

/-- What holds of all 256 bytes holds of every byte. Where it can be decided of each, the kernel
goes through them. -/
theorem forall_byte {p : UInt8 → Prop} (h : ∀ n, n < 256 → p (UInt8.ofNat n)) (b : UInt8) :
    p b := by
  have hb := h b.toNat b.toNat_lt
  rwa [UInt8.ofNat_toNat] at hb

/-- How many bytes a character has, by its code point. -/
theorem utf8Size_eq (c : Char) : c.utf8Size =
    if c.toNat ≤ 0x7F then 1 else if c.toNat ≤ 0x7FF then 2 else if c.toNat ≤ 0xFFFF then 3
    else 4 := rfl

section Encode

variable {c : Char}

/-- The bytes of a character, by its size. -/
theorem encodeChar_one (h : c.toNat ≤ 0x7F) :
    String.utf8EncodeChar c = [UInt8.ofNat c.toNat] := by
  unfold String.utf8EncodeChar
  exact if_pos h

theorem encodeChar_two (h : 0x7F < c.toNat) (h' : c.toNat ≤ 0x7FF) :
    String.utf8EncodeChar c =
      [UInt8.ofNat (c.toNat / 64 % 0x20 + 0xC0), UInt8.ofNat (c.toNat % 0x40 + 0x80)] := by
  unfold String.utf8EncodeChar
  exact (if_neg (Nat.not_le.mpr h)).trans (if_pos h')

theorem encodeChar_three (h : 0x7FF < c.toNat) (h' : c.toNat ≤ 0xFFFF) :
    String.utf8EncodeChar c =
      [UInt8.ofNat (c.toNat / 4096 % 0x10 + 0xE0), UInt8.ofNat (c.toNat / 64 % 0x40 + 0x80),
        UInt8.ofNat (c.toNat % 0x40 + 0x80)] := by
  unfold String.utf8EncodeChar
  exact (if_neg (show ¬ c.toNat ≤ 0x7F by omega)).trans
    ((if_neg (Nat.not_le.mpr h)).trans (if_pos h'))

theorem encodeChar_four (h : 0xFFFF < c.toNat) :
    String.utf8EncodeChar c =
      [UInt8.ofNat (c.toNat / 262144 % 0x08 + 0xF0), UInt8.ofNat (c.toNat / 4096 % 0x40 + 0x80),
        UInt8.ofNat (c.toNat / 64 % 0x40 + 0x80), UInt8.ofNat (c.toNat % 0x40 + 0x80)] := by
  unfold String.utf8EncodeChar
  exact (if_neg (show ¬ c.toNat ≤ 0x7F by omega)).trans
    ((if_neg (show ¬ c.toNat ≤ 0x7FF by omega)).trans (if_neg (Nat.not_le.mpr h)))

end Encode

theorem isCont_iff {b : UInt8} : isCont b = true ↔ 0x80 ≤ b.toNat ∧ b.toNat < 0xC0 := by
  simp [isCont]

/-- The second byte of a character, by the first: no longer form than needed, no surrogate, and
nothing above `0x10FFFF`. -/
theorem isSecond_iff {b0 b1 : UInt8} : isSecond b0 b1 = true ↔
    (0x80 ≤ b1.toNat ∧ b1.toNat < 0xC0) ∧ (b0.toNat = 0xE0 → 0xA0 ≤ b1.toNat) ∧
      (b0.toNat = 0xED → b1.toNat < 0xA0) ∧ (b0.toNat = 0xF0 → 0x90 ≤ b1.toNat) ∧
      (b0.toNat = 0xF4 → b1.toNat < 0x90) := by
  simp only [isSecond, isCont, Bool.and_eq_true, Bool.not_eq_true', Bool.and_eq_false_iff,
    decide_eq_true_eq, decide_eq_false_iff_not, beq_eq_false_iff_ne]
  omega

section Width

variable {b : UInt8}

/-- The size of a character, by its first byte. -/
theorem width_eq_one : width b = 1 ↔ b.toNat < 0x80 := by
  unfold width; split_ifs <;> simp <;> omega

theorem width_eq_two : width b = 2 ↔ 0xC2 ≤ b.toNat ∧ b.toNat < 0xE0 := by
  unfold width; split_ifs <;> simp <;> omega

theorem width_eq_three : width b = 3 ↔ 0xE0 ≤ b.toNat ∧ b.toNat < 0xF0 := by
  unfold width; split_ifs <;> simp <;> omega

theorem width_eq_four : width b = 4 ↔ 0xF0 ≤ b.toNat ∧ b.toNat < 0xF5 := by
  unfold width; split_ifs <;> simp <;> omega

end Width

section Front

variable {b0 b1 b2 b3 : UInt8} {r : List UInt8}

/-- The character in front, by its size. -/
theorem front_one (h : width b0 = 1) : front (b0 :: r) = .char (Char.ofNat b0.toNat) 1 := by
  simp [front, h]

theorem front_two (h : width b0 = 2) (h1 : isSecond b0 b1 = true) :
    front (b0 :: b1 :: r) = .char (Char.ofNat (b0.toNat % 32 * 64 + b1.toNat % 64)) 2 := by
  simp [front, h, h1]

theorem front_three (h : width b0 = 3) (h1 : isSecond b0 b1 = true) (h2 : isCont b2 = true) :
    front (b0 :: b1 :: b2 :: r) =
      .char (Char.ofNat (b0.toNat % 16 * 4096 + b1.toNat % 64 * 64 + b2.toNat % 64)) 3 := by
  simp [front, h, h1, h2]

theorem front_four (h : width b0 = 4) (h1 : isSecond b0 b1 = true) (h2 : isCont b2 = true)
    (h3 : isCont b3 = true) :
    front (b0 :: b1 :: b2 :: b3 :: r) = .char (Char.ofNat (b0.toNat % 8 * 262144
      + b1.toNat % 64 * 4096 + b2.toNat % 64 * 64 + b3.toNat % 64)) 4 := by
  simp [front, h, h1, h2, h3]

end Front

/-- The bytes of a character are read as that character, whatever comes after them. -/
theorem front_encode (c : Char) (r : List UInt8) :
    front (String.utf8EncodeChar c ++ r) = .char c c.utf8Size := by
  have hv := toNat_valid c
  have hc : Char.ofNat c.toNat = c := Char.ofNat_toNat c
  rw [utf8Size_eq]
  by_cases h1 : c.toNat ≤ 0x7F
  · have b0 := toNat_byte (n := c.toNat) (by omega)
    rw [encodeChar_one h1, if_pos h1, List.cons_append, front_one (width_eq_one.mpr (by omega)),
      b0, hc]
  rw [if_neg h1]
  by_cases h2 : c.toNat ≤ 0x7FF
  · have b0 := toNat_byte (n := c.toNat / 64 % 0x20 + 0xC0) (by omega)
    have b1 := toNat_byte (n := c.toNat % 0x40 + 0x80) (by omega)
    rw [encodeChar_two (by omega) h2, if_pos h2, List.cons_append, List.cons_append,
      front_two (width_eq_two.mpr (by omega)) (isSecond_iff.mpr (by omega)), b0, b1,
      show (c.toNat / 64 % 32 + 192) % 32 * 64 + (c.toNat % 64 + 128) % 64 = c.toNat by omega, hc]
  rw [if_neg h2]
  by_cases h3 : c.toNat ≤ 0xFFFF
  · have b0 := toNat_byte (n := c.toNat / 4096 % 0x10 + 0xE0) (by omega)
    have b1 := toNat_byte (n := c.toNat / 64 % 0x40 + 0x80) (by omega)
    have b2 := toNat_byte (n := c.toNat % 0x40 + 0x80) (by omega)
    rw [encodeChar_three (by omega) h3, if_pos h3, List.cons_append, List.cons_append,
      List.cons_append, front_three (width_eq_three.mpr (by omega)) (isSecond_iff.mpr (by omega))
        (isCont_iff.mpr (by omega)), b0, b1, b2,
      show (c.toNat / 4096 % 16 + 224) % 16 * 4096 + (c.toNat / 64 % 64 + 128) % 64 * 64
        + (c.toNat % 64 + 128) % 64 = c.toNat by omega, hc]
  · have b0 := toNat_byte (n := c.toNat / 262144 % 0x08 + 0xF0) (by omega)
    have b1 := toNat_byte (n := c.toNat / 4096 % 0x40 + 0x80) (by omega)
    have b2 := toNat_byte (n := c.toNat / 64 % 0x40 + 0x80) (by omega)
    have b3 := toNat_byte (n := c.toNat % 0x40 + 0x80) (by omega)
    rw [encodeChar_four (by omega), if_neg h3, List.cons_append, List.cons_append,
      List.cons_append, List.cons_append, front_four (width_eq_four.mpr (by omega))
        (isSecond_iff.mpr (by omega)) (isCont_iff.mpr (by omega)) (isCont_iff.mpr (by omega)),
      b0, b1, b2, b3,
      show (c.toNat / 262144 % 8 + 240) % 8 * 262144 + (c.toNat / 4096 % 64 + 128) % 64 * 4096
        + (c.toNat / 64 % 64 + 128) % 64 * 64 + (c.toNat % 64 + 128) % 64 = c.toNat by omega, hc]

/-- **A character that `front` finds is encoded there.** -/
theorem front_eq_char {l : List UInt8} {c : Char} {n : Nat} (h : front l = .char c n) :
    n = c.utf8Size ∧ ∃ r, l = String.utf8EncodeChar c ++ r := by
  have key : ∀ c' n', front l = .char c' n' → (∃ r, l = String.utf8EncodeChar c' ++ r) →
      n = c.utf8Size ∧ ∃ r, l = String.utf8EncodeChar c ++ r := by
    rintro c' n' hc' ⟨r, hr⟩
    have he := front_encode c' r
    rw [← hr, h] at he
    cases he
    exact ⟨rfl, r, hr⟩
  -- by the width that the first byte announces, where the code point gives the bytes back
  match l, h with
  | b0 :: rest, h =>
    have hb0 : b0.toNat < 256 := b0.toNat_lt
    by_cases w1 : width b0 = 1
    · have hw := width_eq_one.mp w1
      have hn := toNat_ofNat_of_valid (n := b0.toNat) (by omega)
      refine key _ _ (front_one w1) ⟨rest, ?_⟩
      rw [encodeChar_one (by omega), hn, UInt8.ofNat_toNat]; rfl
    by_cases w2 : width b0 = 2
    · match rest, h with
      | [], h => simp [front, w2] at h
      | b1 :: r, h =>
        have hb1 : b1.toNat < 256 := b1.toNat_lt
        have hs : isSecond b0 b1 = true := by
          by_contra hs; simp [front, w2, hs] at h
        have hw := width_eq_two.mp w2
        have hs' := isSecond_iff.mp hs
        have hn := toNat_ofNat_of_valid (n := b0.toNat % 32 * 64 + b1.toNat % 64) (by omega)
        refine key _ _ (front_two w2 hs) ⟨r, ?_⟩
        rw [encodeChar_two (by omega) (by omega), hn]
        rw [show (b0.toNat % 32 * 64 + b1.toNat % 64) / 64 % 32 + 192 = b0.toNat by omega,
          show (b0.toNat % 32 * 64 + b1.toNat % 64) % 64 + 128 = b1.toNat by omega]
        simp
    by_cases w3 : width b0 = 3
    · match rest, h with
      | [], h => simp [front, w3] at h
      | [b1], h => simp only [front, w3] at h; revert h; simp; split <;> simp
      | b1 :: b2 :: r, h =>
        have hb1 : b1.toNat < 256 := b1.toNat_lt
        have hb2 : b2.toNat < 256 := b2.toNat_lt
        have hs : isSecond b0 b1 = true ∧ isCont b2 = true := by
          by_contra hs; simp [front, w3, hs] at h
        have hw := width_eq_three.mp w3
        have hs' := isSecond_iff.mp hs.1
        have hc' := isCont_iff.mp hs.2
        have hn := toNat_ofNat_of_valid
          (n := b0.toNat % 16 * 4096 + b1.toNat % 64 * 64 + b2.toNat % 64) (by omega)
        refine key _ _ (front_three w3 hs.1 hs.2) ⟨r, ?_⟩
        rw [encodeChar_three (by omega) (by omega), hn]
        rw [show (b0.toNat % 16 * 4096 + b1.toNat % 64 * 64 + b2.toNat % 64) / 4096 % 16 + 224
            = b0.toNat by omega,
          show (b0.toNat % 16 * 4096 + b1.toNat % 64 * 64 + b2.toNat % 64) / 64 % 64 + 128
            = b1.toNat by omega,
          show (b0.toNat % 16 * 4096 + b1.toNat % 64 * 64 + b2.toNat % 64) % 64 + 128
            = b2.toNat by omega]
        simp
    by_cases w4 : width b0 = 4
    · match rest, h with
      | [], h => simp [front, w4] at h
      | [b1], h => simp only [front, w4] at h; revert h; simp; split <;> simp
      | [b1, b2], h => simp only [front, w4] at h; revert h; simp; split <;> simp
      | b1 :: b2 :: b3 :: r, h =>
        have hb1 : b1.toNat < 256 := b1.toNat_lt
        have hb2 : b2.toNat < 256 := b2.toNat_lt
        have hb3 : b3.toNat < 256 := b3.toNat_lt
        have hs : (isSecond b0 b1 = true ∧ isCont b2 = true) ∧ isCont b3 = true := by
          by_contra hs; simp [front, w4, hs] at h
        have hw := width_eq_four.mp w4
        have hs' := isSecond_iff.mp hs.1.1
        have hc2 := isCont_iff.mp hs.1.2
        have hc3 := isCont_iff.mp hs.2
        have hn := toNat_ofNat_of_valid (n := b0.toNat % 8 * 262144 + b1.toNat % 64 * 4096
          + b2.toNat % 64 * 64 + b3.toNat % 64) (by omega)
        refine key _ _ (front_four w4 hs.1.1 hs.1.2 hs.2) ⟨r, ?_⟩
        rw [encodeChar_four (by omega), hn]
        rw [show (b0.toNat % 8 * 262144 + b1.toNat % 64 * 4096 + b2.toNat % 64 * 64
              + b3.toNat % 64) / 262144 % 8 + 240 = b0.toNat by omega,
          show (b0.toNat % 8 * 262144 + b1.toNat % 64 * 4096 + b2.toNat % 64 * 64
              + b3.toNat % 64) / 4096 % 64 + 128 = b1.toNat by omega,
          show (b0.toNat % 8 * 262144 + b1.toNat % 64 * 4096 + b2.toNat % 64 * 64
              + b3.toNat % 64) / 64 % 64 + 128 = b2.toNat by omega,
          show (b0.toNat % 8 * 262144 + b1.toNat % 64 * 4096 + b2.toNat % 64 * 64
              + b3.toNat % 64) % 64 + 128 = b3.toNat by omega]
        simp
    simp [front, w1, w2, w3, w4] at h

/-- The character that is read is there, and the rest is after it. -/
theorem front_drop {l : List UInt8} {c : Char} {n : Nat} (h : front l = .char c n) :
    l = String.utf8EncodeChar c ++ l.drop n := by
  obtain ⟨rfl, r, rfl⟩ := front_eq_char h
  rw [← String.length_utf8EncodeChar, List.drop_left]

/-- A character has one to four bytes, all of them there. -/
theorem front_char_le {l : List UInt8} {c : Char} {n : Nat} (h : front l = .char c n) :
    0 < n ∧ n ≤ 4 ∧ n ≤ l.length := by
  obtain ⟨rfl, r, rfl⟩ := front_eq_char h
  refine ⟨c.utf8Size_pos, c.utf8Size_le_four, ?_⟩
  simp

/-- Its size is told by the first byte. -/
theorem front_char_width {b0 : UInt8} {rest : List UInt8} {c : Char} {n : Nat}
    (h : front (b0 :: rest) = .char c n) : n = width b0 := by
  simp only [front] at h
  split_ifs at h with w1 w2 w3 w4
  · cases h; exact w1.symm
  all_goals
    revert h
    split <;> (try split_ifs) <;> simp
  all_goals omega

/-! ## Input that is cut off -/

/-- **What `front` decides stands when more bytes follow.** -/
theorem front_append {l : List UInt8} (m : List UInt8) (h : front l ≠ .need) :
    front (l ++ m) = front l := by
  match l, h with
  | b0 :: rest, h =>
    by_cases w1 : width b0 = 1
    · simp [front, w1]
    by_cases w2 : width b0 = 2
    · match rest, h with
      | [], h => exact absurd (by simp [front, w2]) h
      | b1 :: r, _ => simp [front, w2]
    by_cases w3 : width b0 = 3
    · match rest, h with
      | [], h => exact absurd (by simp [front, w3]) h
      | [b1], h =>
        have hs : isSecond b0 b1 = false := by
          by_contra hs; exact h (by simp [front, w3, hs])
        cases m <;> simp [front, w3, hs]
      | b1 :: b2 :: r, _ => simp [front, w3]
    by_cases w4 : width b0 = 4
    · match rest, h with
      | [], h => exact absurd (by simp [front, w4]) h
      | [b1], h =>
        have hs : isSecond b0 b1 = false := by
          by_contra hs; exact h (by simp [front, w4, hs])
        match m with
        | [] => simp
        | [_] => simp [front, w4, hs]
        | _ :: _ :: _ => simp [front, w4, hs]
      | [b1, b2], h =>
        have hs : (isSecond b0 b1 && isCont b2) = false := by
          by_contra hs
          rw [Bool.not_eq_false] at hs
          exact h (by simp only [front, w4, hs]; simp)
        match m with
        | [] => simp
        | _ :: _ => simp only [List.cons_append, List.nil_append, front, w4, hs]; simp
      | b1 :: b2 :: b3 :: r, _ => simp [front, w4]
    simp [front, w1, w2, w3, w4]

/-- What begins a character is not taken for bytes that none begins with. -/
theorem front_ne_bad_of_prefix {l : List UInt8} {c : Char} (h : l <+: String.utf8EncodeChar c) :
    front l ≠ .bad := by
  intro hbad
  obtain ⟨r, hr⟩ := h
  have hchar := front_encode c []
  rw [List.append_nil, ← hr, front_append r (by rw [hbad]; simp), hbad] at hchar
  cases hchar

/-- The bytes of `l` as far as they are there are a lead byte with fewer continuation bytes than
it asks for. They need not start a character: `E0 80` is cut off in this sense. -/
def CutOff (l : List UInt8) : Prop :=
  ∃ b0 rest, l = b0 :: rest ∧ 2 ≤ width b0 ∧ l.length < width b0 ∧ ∀ b ∈ rest, isCont b = true

/-- At most three bytes of a character are left where the last is missing. -/
theorem CutOff.length_le {l : List UInt8} (h : CutOff l) : l.length ≤ 3 := by
  obtain ⟨b0, rest, rfl, _, h, _⟩ := h
  have : width b0 ≤ 4 := by unfold width; split_ifs <;> omega
  omega

theorem isCont_of_isSecond {b0 b1 : UInt8} (h : isSecond b0 b1 = true) : isCont b1 = true :=
  isCont_iff.mpr (isSecond_iff.mp h).1

/-- More is needed only where nothing is there, or a character is cut off. -/
theorem front_eq_need {l : List UInt8} (h : front l = .need) : l = [] ∨ CutOff l := by
  match l, h with
  | [], _ => exact .inl rfl
  | b0 :: rest, h =>
    refine .inr ⟨b0, rest, rfl, ?_⟩
    by_cases w1 : width b0 = 1
    · simp [front, w1] at h
    by_cases w2 : width b0 = 2
    · match rest, h with
      | [], _ => simp [w2]
      | b1 :: r, h => simp only [front, w2] at h; revert h; simp; split <;> simp
    by_cases w3 : width b0 = 3
    · match rest, h with
      | [], _ => simp [w3]
      | [b1], h =>
        have hs : isSecond b0 b1 = true := by
          by_contra hs; simp [front, w3, hs] at h
        simp [w3, isCont_of_isSecond hs]
      | b1 :: b2 :: r, h => simp only [front, w3] at h; revert h; simp; split <;> simp
    by_cases w4 : width b0 = 4
    · match rest, h with
      | [], _ => simp [w4]
      | [b1], h =>
        have hs : isSecond b0 b1 = true := by
          by_contra hs; simp [front, w4, hs] at h
        simp [w4, isCont_of_isSecond hs]
      | [b1, b2], h =>
        have hs : isSecond b0 b1 = true ∧ isCont b2 = true := by
          by_contra hs; simp [front, w4, hs] at h
        simp [w4, isCont_of_isSecond hs.1, hs.2]
      | b1 :: b2 :: b3 :: r, h => simp only [front, w4] at h; revert h; simp; split <;> simp
    simp [front, w1, w2, w3, w4] at h

/-- A cut-off character is no character yet. -/
theorem CutOff.front_ne_char {l : List UInt8} (h : CutOff l) (c : Char) (n : Nat) :
    front l ≠ .char c n := by
  obtain ⟨b0, rest, rfl, h2, hlt, _⟩ := h
  intro hc
  have hw := front_char_width hc
  have hn := (front_char_le hc).2.2
  omega

/-- The bytes of a character after its first are continuation bytes. -/
theorem front_char_cont {b0 : UInt8} {rest : List UInt8} {c : Char} {n : Nat}
    (h : front (b0 :: rest) = .char c n) : ∀ b ∈ rest.take (n - 1), isCont b = true := by
  have hn := front_char_width h
  have hlen := (front_char_le h).2.2
  by_cases w1 : width b0 = 1
  · simp [hn, w1]
  by_cases w2 : width b0 = 2
  · match rest, h with
    | b1 :: r, h =>
      have hs : isSecond b0 b1 = true := by
        by_contra hs; simp [front, w2, hs] at h
      simp [hn, w2, isCont_of_isSecond hs]
    | [], h => simp [front, w2] at h
  by_cases w3 : width b0 = 3
  · match rest, h with
    | b1 :: b2 :: r, h =>
      have hs : isSecond b0 b1 = true ∧ isCont b2 = true := by
        by_contra hs; simp [front, w3, hs] at h
      simp [hn, w3, isCont_of_isSecond hs.1, hs.2]
    | [_], _ | [], _ => simp [hn, w3] at hlen
  by_cases w4 : width b0 = 4
  · match rest, h with
    | b1 :: b2 :: b3 :: r, h =>
      have hs : (isSecond b0 b1 = true ∧ isCont b2 = true) ∧ isCont b3 = true := by
        by_contra hs; simp [front, w4, hs] at h
      simp [hn, w4, isCont_of_isSecond hs.1.1, hs.1.2, hs.2]
    | [_, _], _ | [_], _ | [], _ => simp [hn, w4] at hlen
  simp [front, w1, w2, w3, w4] at h

/-- All bytes of a character above ASCII are above ASCII. -/
theorem encodeChar_high {c : Char} (h : 0x80 ≤ c.toNat) :
    ∀ b ∈ String.utf8EncodeChar c, 0x80 ≤ b.toNat := by
  have hlen := String.length_utf8EncodeChar c
  have hsize := utf8Size_eq c
  have hfront := front_encode c []
  rw [List.append_nil] at hfront
  cases hbytes : String.utf8EncodeChar c with
  | nil =>
    rw [hbytes, List.length_nil] at hlen
    split_ifs at hsize <;> omega
  | cons b0 rest =>
    rw [hbytes] at hfront hlen
    have hwidth := front_char_width hfront
    have hcont := front_char_cont hfront
    rw [List.length_cons] at hlen
    intro b hb
    rcases List.mem_cons.mp hb with rfl | hb
    · by_contra hlt
      rw [width_eq_one.mpr (by omega)] at hwidth
      split_ifs at hsize <;> omega
    · have hb' := isCont_iff.mp (hcont b (by rw [List.take_of_length_le (by omega)]; exact hb))
      exact hb'.1

/-- A lead byte whose continuation bytes end too early leads no character. -/
theorem front_eq_bad_of_not_cont {b0 b : UInt8} {rest : List UInt8}
    (h : b ∈ rest.take (width b0 - 1)) (hb : isCont b = false) : front (b0 :: rest) = .bad := by
  cases hf : front (b0 :: rest) with
  | bad => rfl
  | need =>
    rcases front_eq_need hf with h' | ⟨_, _, heq, _, _, hall⟩
    · cases h'
    · cases heq
      rw [hall b (List.mem_of_mem_take h)] at hb; cases hb
  | char c n =>
    rw [← front_char_width hf] at h
    rw [front_char_cont hf b h] at hb; cases hb

/-! ## Decoding a whole list -/

/-- Why decoding ends: at the end of the list, in a character cut off by it, or at bytes no
character starts with. -/
inductive Ending where
  | done
  | cut
  | bad
deriving DecidableEq

def decodeAux : Nat → List UInt8 → List Char × Ending
  | 0, _ => ([], .done)
  | fuel + 1, l =>
    match front l with
    | .need => ([], if l = [] then .done else .cut)
    | .bad => ([], .bad)
    | .char c n =>
      let r := decodeAux fuel (l.drop n)
      (c :: r.1, r.2)

/-- The characters of `l` as far as they go, and why they end. -/
def decode (l : List UInt8) : List Char × Ending := decodeAux l.length l

/-- What is left after the characters that `decode` finds. -/
def Ends (r : List UInt8) : Ending → Prop
  | .done => r = []
  | .cut => r ≠ [] ∧ front r = .need
  | .bad => front r = .bad

/-- What is decoded is in front, and what is left ends as reported. -/
theorem decodeAux_spec : ∀ (fuel : Nat) (l : List UInt8), l.length ≤ fuel →
    ∃ r, l = encode (decodeAux fuel l).1 ++ r ∧ Ends r (decodeAux fuel l).2
  | 0, l, h => ⟨[], by simpa [decodeAux] using h, rfl⟩
  | fuel + 1, l, h => by
    unfold decodeAux
    cases hf : front l with
    | need =>
      refine ⟨l, rfl, ?_⟩
      by_cases hl : l = []
      · simp [hl, Ends]
      · simp [hl, Ends, hf]
    | bad => exact ⟨l, rfl, hf⟩
    | char c n =>
      have hle := front_char_le hf
      obtain ⟨r, hr, he⟩ := decodeAux_spec fuel (l.drop n) (by simp; omega)
      refine ⟨r, ?_, he⟩
      rw [encode_cons, List.append_assoc, ← hr]
      exact front_drop hf

/-- What is decoded is in front, and what is left ends as reported. -/
theorem decode_spec (l : List UInt8) :
    ∃ r, l = encode (decode l).1 ++ r ∧ Ends r (decode l).2 :=
  decodeAux_spec l.length l le_rfl

/-- **Where characters end is determined.** -/
theorem encode_append_inj : ∀ {cs ds : List Char} {r r' : List UInt8},
    encode cs ++ r = encode ds ++ r' → (∀ c n, front r ≠ .char c n) →
    (∀ c n, front r' ≠ .char c n) → cs = ds ∧ r = r'
  | [], [], _, _, h, _, _ => ⟨rfl, h⟩
  | [], d :: ds, r, r', h, hr, _ => by
    rw [encode_nil, List.nil_append, encode_cons, List.append_assoc] at h
    exact absurd (h ▸ front_encode d _) (hr _ _)
  | c :: cs, [], r, r', h, _, hr' => by
    rw [encode_nil, List.nil_append, encode_cons, List.append_assoc] at h
    exact absurd (h ▸ front_encode c _) (hr' _ _)
  | c :: cs, d :: ds, r, r', h, hr, hr' => by
    rw [encode_cons, encode_cons, List.append_assoc, List.append_assoc] at h
    have hcd : Front.char c c.utf8Size = Front.char d d.utf8Size := by
      rw [← front_encode c (encode cs ++ r), h, front_encode]
    cases hcd
    obtain ⟨rfl, rfl⟩ := encode_append_inj (List.append_cancel_left h) hr hr'
    exact ⟨rfl, rfl⟩

/-- There is no character in front of what is left. -/
theorem Ends.front_ne_char {r : List UInt8} {e : Ending} (h : Ends r e) (c : Char) (n : Nat) :
    front r ≠ .char c n := by
  cases e with
  | done => rw [show r = [] from h]; simp [front]
  | cut => rw [h.2]; simp
  | bad => rw [show front r = .bad from h]; simp

/-- Bytes end in one way only. -/
theorem Ends.unique {r : List UInt8} {e e' : Ending} (h : Ends r e) (h' : Ends r e') : e = e' := by
  cases e <;> cases e' <;> simp only [Ends] at h h' <;> first | rfl | simp_all [front]

/-- `decode` finds exactly the characters in front of something that is none. -/
theorem decode_encode_append {cs : List Char} {r : List UInt8} {e : Ending} (h : Ends r e) :
    decode (encode cs ++ r) = (cs, e) := by
  obtain ⟨r', hr, he⟩ := decode_spec (encode cs ++ r)
  obtain ⟨hcs, rfl⟩ := encode_append_inj hr h.front_ne_char he.front_ne_char
  refine Prod.ext hcs.symm ?_
  generalize (decode (encode cs ++ r)).2 = e' at he
  exact Ends.unique he h

/-- A text comes out of its own encoding. -/
theorem decode_encode (cs : List Char) : decode (encode cs) = (cs, .done) := by
  simpa using decode_encode_append (r := []) (e := .done) rfl

/-- What is decoded to the end is the encoding of a text. -/
theorem decode_eq_done {l : List UInt8} {cs : List Char} (h : decode l = (cs, .done)) :
    l = encode cs := by
  obtain ⟨r, hr, he⟩ := decode_spec l
  rw [h] at hr he
  rw [hr, show r = [] from he, List.append_nil]

/-! ## UTF-16 units -/

/-- The number of UTF-16 units of a character. -/
def utf16Size (c : Char) : Nat := if c.toNat < 0x10000 then 1 else 2

/-- One unit for every byte that is not a continuation byte, and one more for the lead of a
4-byte character. -/
def unitsOf (b : UInt8) : Nat := (if isCont b then 0 else 1) + (if 0xF0 ≤ b.toNat then 1 else 0)

/-- The length of a byte list in UTF-16 units. -/
def units (l : List UInt8) : Nat := (l.map unitsOf).sum

@[simp] theorem units_nil : units [] = 0 := rfl

@[simp] theorem units_cons (b : UInt8) (l : List UInt8) :
    units (b :: l) = unitsOf b + units l := rfl

@[simp] theorem units_append (l m : List UInt8) : units (l ++ m) = units l + units m := by
  simp [units]

/-- UTF-16 units are counted byte by byte: a byte of ASCII is one. -/
theorem unitsOf_ascii {b : UInt8} (h : b.toNat < 0x80) : unitsOf b = 1 := by
  rw [unitsOf, if_neg (by simp [isCont]; omega), if_neg (by omega)]

/-- Every later byte of a character is none. -/
theorem unitsOf_cont {b : UInt8} (h : 0x80 ≤ b.toNat) (h' : b.toNat < 0xC0) : unitsOf b = 0 := by
  rw [unitsOf, if_pos (isCont_iff.mpr ⟨h, h'⟩), if_neg (by omega)]

/-- The first byte of a longer character is one, or two outside the BMP. -/
theorem unitsOf_lead {b : UInt8} (h : 0xC0 ≤ b.toNat) :
    unitsOf b = if 0xF0 ≤ b.toNat then 2 else 1 := by
  rw [unitsOf, if_neg (by simp [isCont]; omega)]
  split <;> rfl

/-- Together they come to the units of the character. -/
theorem units_encodeChar (c : Char) : units (String.utf8EncodeChar c) = utf16Size c := by
  have hv := toNat_valid c
  unfold utf16Size
  by_cases h1 : c.toNat ≤ 0x7F
  · rw [encodeChar_one h1, units_cons, unitsOf_ascii (by rw [toNat_byte (by omega)]; omega),
      if_pos (by omega)]
    rfl
  by_cases h2 : c.toNat ≤ 0x7FF
  · have b0 := toNat_byte (n := c.toNat / 64 % 0x20 + 0xC0) (by omega)
    have b1 := toNat_byte (n := c.toNat % 0x40 + 0x80) (by omega)
    rw [encodeChar_two (by omega) h2, units_cons, units_cons, unitsOf_lead (by omega),
      unitsOf_cont (by omega) (by omega), if_neg (by omega), if_pos (by omega)]
    rfl
  by_cases h3 : c.toNat ≤ 0xFFFF
  · have b0 := toNat_byte (n := c.toNat / 4096 % 0x10 + 0xE0) (by omega)
    have b1 := toNat_byte (n := c.toNat / 64 % 0x40 + 0x80) (by omega)
    have b2 := toNat_byte (n := c.toNat % 0x40 + 0x80) (by omega)
    rw [encodeChar_three (by omega) h3, units_cons, units_cons, units_cons,
      unitsOf_lead (by omega), unitsOf_cont (by omega) (by omega),
      unitsOf_cont (by omega) (by omega), if_neg (by omega), if_pos (by omega)]
    rfl
  · have b0 := toNat_byte (n := c.toNat / 262144 % 0x08 + 0xF0) (by omega)
    have b1 := toNat_byte (n := c.toNat / 4096 % 0x40 + 0x80) (by omega)
    have b2 := toNat_byte (n := c.toNat / 64 % 0x40 + 0x80) (by omega)
    have b3 := toNat_byte (n := c.toNat % 0x40 + 0x80) (by omega)
    rw [encodeChar_four (by omega), units_cons, units_cons, units_cons, units_cons,
      unitsOf_lead (by omega), unitsOf_cont (by omega) (by omega),
      unitsOf_cont (by omega) (by omega), unitsOf_cont (by omega) (by omega), if_pos (by omega),
      if_neg (by omega)]
    rfl

/-- So they do for a text. -/
theorem units_encode (cs : List Char) : units (encode cs) = (cs.map utf16Size).sum := by
  induction cs with
  | nil => rfl
  | cons c cs ih => simp [units_encodeChar, ih]

theorem units_ascii {l : List UInt8} (h : ∀ b ∈ l, b.toNat < 0x80) : units l = l.length := by
  induction l with
  | nil => rfl
  | cons b l ih =>
    rw [units_cons, unitsOf_ascii (h b List.mem_cons_self),
      ih (fun x hx => h x (List.mem_cons_of_mem _ hx)), List.length_cons, Nat.add_comm]

end Infra.Utf8
