import RJsonParser.Properties.WriterCalls

/-!
# String content

`write_string_content` first cuts its argument to the spare room in bytes, then takes what of it
fits once escaped. What it takes is the longest start of the text whose escaped form fits.

* `fitting` — that start, character by character
* `stringContent_eq` — what a call does
-/

namespace RJsonParser

open Infra Infra.Utf8

/-! ## Sizes -/

theorem escapedByteLen_high {b : UInt8} (h : 0x80 ≤ b.toNat) : escapedByteLen b = 1 := by
  have key : ∀ b : UInt8, 0x80 ≤ b.toNat → escapedByteLen b = 1 := forall_byte (by decide +kernel)
  exact key b h

theorem sum_map_one {l : List UInt8} (h : ∀ b ∈ l, escapedByteLen b = 1) :
    (l.map escapedByteLen).sum = l.length := by
  induction l with
  | nil => rfl
  | cons b l ih =>
    rw [List.map_cons, List.sum_cons, h b List.mem_cons_self, List.length_cons,
      ih fun x hx => h x (List.mem_cons_of_mem _ hx), Nat.add_comm]

theorem escapedCharLen_high {c : Char} (h : 0x80 ≤ c.toNat) : escapedCharLen c = c.utf8Size := by
  have hne : ∀ d : Char, d.toNat < 0x80 → c ≠ d := by
    rintro d hd rfl
    omega
  unfold escapedCharLen
  rw [if_neg, if_neg (by omega)]
  simp only [not_or]
  exact ⟨hne _ (by decide), hne _ (by decide), hne _ (by decide), hne _ (by decide),
    hne _ (by decide), hne _ (by decide), hne _ (by decide)⟩

/-- The two measures of the escaped size agree on a character. -/
theorem escapedLen_singleton (c : Char) : escapedLen [c] = escapedCharLen c := by
  unfold escapedLen
  rw [encode_cons, encode_nil, List.append_nil]
  by_cases hascii : c.toNat < 0x80
  · have hall : ∀ n < 0x80, ((String.utf8EncodeChar (Char.ofNat n)).map escapedByteLen).sum =
        escapedCharLen (Char.ofNat n) := by decide +kernel
    simpa using hall c.toNat hascii
  · have hhigh := encodeChar_high (Nat.le_of_not_lt hascii)
    rw [sum_map_one fun b hb => escapedByteLen_high (hhigh b hb), String.length_utf8EncodeChar,
      escapedCharLen_high (Nat.le_of_not_lt hascii)]

theorem escapedLen_append (s t : Text) : escapedLen (s ++ t) = escapedLen s + escapedLen t := by
  simp [escapedLen]

theorem escapedLen_cons (c : Char) (s : Text) :
    escapedLen (c :: s) = escapedCharLen c + escapedLen s := by
  rw [← escapedLen_singleton, ← escapedLen_append]
  rfl

@[simp] theorem escapedLen_nil : escapedLen [] = 0 := rfl

theorem utf8Size_le_escapedCharLen (c : Char) : c.utf8Size ≤ escapedCharLen c := by
  by_cases hascii : c.toNat < 0x80
  · have hall : ∀ n < 0x80, (Char.ofNat n).utf8Size ≤ escapedCharLen (Char.ofNat n) := by
      decide +kernel
    simpa using hall c.toNat hascii
  · rw [escapedCharLen_high (Nat.le_of_not_lt hascii)]

/-- The longest single character is 6 bytes escaped. -/
theorem escapedCharLen_le (c : Char) : escapedCharLen c ≤ 6 := by
  have := c.utf8Size_le_four
  unfold escapedCharLen
  split_ifs <;> omega

/-- Escaping never makes a text shorter. -/
theorem byteLen_le_escapedLen (s : Text) : byteLen s ≤ escapedLen s := by
  induction s with
  | nil => exact Nat.le_refl 0
  | cons c s ih =>
    have := utf8Size_le_escapedCharLen c
    rw [byteLen_cons, escapedLen_cons]
    omega

/-! ## Starts of a text -/

theorem byteLen_le_of_prefix {p s : Text} (h : p <+: s) : byteLen p ≤ byteLen s := by
  obtain ⟨t, rfl⟩ := h
  rw [byteLen_append]
  omega

/-- Of two starts of a text the one with fewer bytes is a start of the other. -/
theorem prefix_of_byteLen_le {p q s : Text} (hp : p <+: s) (hq : q <+: s)
    (h : byteLen p ≤ byteLen q) : p <+: q := by
  rcases List.prefix_or_prefix_of_prefix hp hq with hpq | ⟨t, rfl⟩
  · exact hpq
  · have ht : t = [] := byteLen_eq_zero.mp (by rw [byteLen_append] at h; omega)
    rw [ht, List.append_nil]

theorem isCharBoundary_iff : ∀ {s : Text} {n : Nat},
    isCharBoundary s n = true ↔ ∃ p, p <+: s ∧ byteLen p = n
  | s, 0 => by
    rw [show isCharBoundary s 0 = true by cases s <;> rfl]
    simp only [true_iff]
    exact ⟨[], List.nil_prefix, rfl⟩
  | [], n + 1 => by
    simp only [isCharBoundary, Bool.false_eq_true, false_iff, not_exists, not_and]
    intro p hp
    rw [List.prefix_nil.mp hp]
    simp
  | c :: s, n + 1 => by
    simp only [isCharBoundary, Bool.and_eq_true, decide_eq_true_eq]
    rw [isCharBoundary_iff]
    constructor
    · rintro ⟨hle, p, hp, hlen⟩
      exact ⟨c :: p, List.cons_prefix_cons.mpr ⟨rfl, hp⟩, by rw [byteLen_cons]; omega⟩
    · rintro ⟨p, hp, hlen⟩
      cases p with
      | nil => simp at hlen
      | cons d p =>
        obtain ⟨rfl, hp'⟩ := List.cons_prefix_cons.mp hp
        rw [byteLen_cons] at hlen
        exact ⟨by omega, p, hp', by omega⟩

theorem sliceTo_byteLen : ∀ {s p : Text}, p <+: s → sliceTo s (byteLen p) = .ok p
  | s, [], _ => by cases s <;> rfl
  | [], c :: p, h => by simp at h
  | d :: s, c :: p, h => by
    obtain ⟨rfl, hp⟩ := List.cons_prefix_cons.mp h
    have hpos := c.utf8Size_pos
    rw [byteLen_cons, show c.utf8Size + byteLen p = c.utf8Size + byteLen p - 1 + 1 by omega,
      sliceTo, if_pos (by omega),
      show c.utf8Size + byteLen p - 1 + 1 - c.utf8Size = byteLen p by omega, sliceTo_byteLen hp]
    rfl

/-- `limit` is backed up to the longest start of the text that has no more bytes. -/
theorem backUp_spec (s : Text) : ∀ n, ∃ p, p <+: s ∧ backUp s n = byteLen p ∧ byteLen p ≤ n ∧
    ∀ q, q <+: s → byteLen q ≤ n → byteLen q ≤ byteLen p
  | 0 => ⟨[], List.nil_prefix, rfl, Nat.le_refl 0, fun q _ h => h⟩
  | n + 1 => by
    rw [backUp]
    by_cases hb : isCharBoundary s (n + 1) = true
    · obtain ⟨p, hp, hlen⟩ := isCharBoundary_iff.mp hb
      rw [if_pos hb]
      exact ⟨p, hp, hlen.symm, by omega, fun q _ h => by omega⟩
    · obtain ⟨p, hp, heq, hle, hmax⟩ := backUp_spec s n
      rw [if_neg hb]
      refine ⟨p, hp, heq, by omega, ?_⟩
      intro q hq hqle
      have hne : byteLen q ≠ n + 1 := fun h => hb (isCharBoundary_iff.mpr ⟨q, hq, h⟩)
      exact hmax q hq (by omega)

/-! ## What fits -/

/-- The longest start of a text whose escaped form is at most `spare` bytes. -/
def fitting : Nat → Text → Text
  | _, [] => []
  | spare, c :: s =>
    if escapedCharLen c ≤ spare then c :: fitting (spare - escapedCharLen c) s else []

theorem fitting_start : ∀ (spare : Nat) (s : Text), fitting spare s <+: s
  | _, [] => List.nil_prefix
  | spare, c :: s => by
    rw [fitting]
    split
    · exact List.cons_prefix_cons.mpr ⟨rfl, fitting_start _ s⟩
    · exact List.nil_prefix

theorem escapedLen_fitting : ∀ (spare : Nat) (s : Text), escapedLen (fitting spare s) ≤ spare
  | _, [] => Nat.zero_le _
  | spare, c :: s => by
    rw [fitting]
    split
    · have := escapedLen_fitting (spare - escapedCharLen c) s
      rw [escapedLen_cons]
      omega
    · exact Nat.zero_le _

theorem prefix_fitting : ∀ {spare : Nat} {s p : Text}, p <+: s → escapedLen p ≤ spare →
    p <+: fitting spare s
  | _, _, [], _, _ => List.nil_prefix
  | _, [], c :: p, h, _ => by simp at h
  | spare, d :: s, c :: p, h, hle => by
    obtain ⟨rfl, hp⟩ := List.cons_prefix_cons.mp h
    rw [escapedLen_cons] at hle
    rw [fitting, if_pos (by omega)]
    exact List.cons_prefix_cons.mpr ⟨rfl, prefix_fitting hp (by omega)⟩

theorem takenLoop_eq : ∀ (spare used taken : Nat) (s : Text), used ≤ spare →
    takenLoop spare used taken s = taken + byteLen (fitting (spare - used) s)
  | _, _, _, [], _ => rfl
  | spare, used, taken, c :: s, hle => by
    rw [takenLoop, fitting]
    by_cases hfit : escapedCharLen c ≤ spare - used
    · rw [if_neg (by omega), if_pos hfit, takenLoop_eq spare _ _ s (by omega), byteLen_cons,
        show spare - (used + escapedCharLen c) = spare - used - escapedCharLen c by omega]
      omega
    · rw [if_pos (by omega), if_neg hfit]
      rfl

/-- What is taken is what fits, whichever way it is measured. -/
theorem taken_eq {content candidate : Text} {spare : Nat} (hc : candidate <+: content)
    (hmax : ∀ q, q <+: content → byteLen q ≤ min (byteLen content) spare →
      byteLen q ≤ byteLen candidate) :
    (if escapedLen candidate ≤ spare then byteLen candidate
      else takenLoop spare 0 0 candidate) = byteLen (fitting spare content) := by
  -- what fits is short enough to be in the part that is looked at
  have hfit := fitting_start spare content
  have hlen := escapedLen_fitting spare content
  have hin : fitting spare content <+: candidate := by
    refine prefix_of_byteLen_le hfit hc (hmax _ hfit ?_)
    have := byteLen_le_escapedLen (fitting spare content)
    have := byteLen_le_of_prefix hfit
    omega
  by_cases hall : escapedLen candidate ≤ spare
  · rw [if_pos hall]
    have hge := byteLen_le_of_prefix (prefix_fitting hc hall)
    have hle := byteLen_le_of_prefix hin
    omega
  · rw [if_neg hall, takenLoop_eq _ _ _ _ (Nat.zero_le _), Nat.sub_zero, Nat.zero_add]
    have hsub := prefix_fitting ((fitting_start spare candidate).trans hc)
      (escapedLen_fitting spare candidate)
    have hge := byteLen_le_of_prefix hsub
    have hle := byteLen_le_of_prefix (prefix_fitting hin hlen)
    omega

/-! ## A call -/

/-- What a call of `write_string_content` does. -/
def contentResult (content : Text) (buf : LoopBuf) : EStateM.Result WriteStop LoopBuf Nat :=
  let taken := fitting buf.spareLen content
  if taken = [] ∧ content ≠ [] then .error (noRoom 6 "string content" buf) buf
  else .ok (byteLen taken) (buf.extendFromSlice (escaped taken))

theorem fitting_eq_nil {spare : Nat} {c : Char} {s : Text} :
    fitting spare (c :: s) = [] ↔ spare < escapedCharLen c := by
  rw [fitting]
  split
  · next h => simp; omega
  · next h => simp; omega

/-- **`write_string_content`** takes what fits of its argument. -/
theorem stringContent_eq (content : Text) (buf : LoopBuf) :
    stringContent content buf = contentResult content buf := by
  unfold stringContent contentResult
  by_cases hnil : content = []
  · subst hnil
    rw [if_pos rfl]
    simp only [fitting, escaped, encode_nil, List.flatMap_nil, ne_eq, not_true_eq_false, and_false,
      if_false]
    have hsame : buf.extendFromSlice [] = buf := by simp [LoopBuf.extendFromSlice]
    rw [hsame]
    rfl
  · obtain ⟨candidate, hc, hlimit, -, hmax⟩ :=
      backUp_spec content (min (byteLen content) buf.spareLen)
    have htaken := taken_eq hc hmax
    rw [if_neg hnil]
    simp only [bind, EStateM.bind, get, getThe, MonadStateOf.get, EStateM.get, hlimit,
      sliceTo_byteLen hc, ofExcept, pure, EStateM.pure, htaken]
    have hfits := escapedLen_fitting buf.spareLen content
    by_cases hempty : fitting buf.spareLen content = []
    · rw [hempty, byteLen_nil, if_pos rfl, if_pos ⟨rfl, hnil⟩]
      -- where nothing fits there is less room than the longest character takes
      have hroom : ¬ 6 ≤ buf.spareLen := by
        cases content with
        | nil => exact absurd rfl hnil
        | cons c s =>
          have := fitting_eq_nil.mp hempty
          have := escapedCharLen_le c
          omega
      simp only [EStateM.bind, ensureRoom_eq, if_neg hroom]
    · have hpos := byteLen_pos hempty
      rw [if_neg (by omega), if_neg (fun h => hempty h.1),
        sliceTo_byteLen (fitting_start _ _)]
      have hput : putEscaped (fitting buf.spareLen content) buf =
          .ok () (buf.extendFromSlice (escaped (fitting buf.spareLen content))) :=
        puts_escaped _ buf (by rw [length_escaped]; exact hfits)
      simp only [EStateM.bind, EStateM.pure, hput]

end RJsonParser
