import RJsonParser.Spec.Machine
import RJsonParser.Spec.Grammar

/-!
# Raw content

* `BackRule` — what holds of raw content holds with one more character in front
* `scanned_of_decodeString` — content that denotes a text is scanned to its end
* `resolve_rawChar` — a character that is resolved on a stream is the first of its content
* `front_closed` — and so is a plain one
* `keyFront_closed` — a key is found at its first unescaped quote, or denotes nothing
-/

namespace RJsonParser

open Infra Infra.Utf8

/-! ## One more character -/

/-- Induction over the characters of content that denotes a text. -/
theorem decodeString_induct {P : List UInt8 → Text → Prop} (nil : P [] [])
    (char : ∀ {raw ch n s}, rawChar raw = some (ch, n) → decodeString (raw.drop n) = some s →
      P (raw.drop n) s → P raw (ch :: s)) {raw : List UInt8} {s : Text}
    (h : decodeString raw = some s) : P raw s := by
  induction hn : raw.length using Nat.strongRecOn generalizing raw s with
  | ind n ih =>
    by_cases hraw : raw = []
    · subst hraw
      cases h
      exact nil
    cases hc : rawChar raw with
    | none => rw [decodeString_of_rawChar_none hraw hc] at h; cases h
    | some p =>
      obtain ⟨ch, k⟩ := p
      rw [decodeString_of_rawChar hc] at h
      obtain ⟨t, ht, rfl⟩ := Option.map_eq_some_iff.mp h
      have hlen := rawChar_length hc
      exact char hc ht (ih _ (by rw [List.length_drop]; omega) ht rfl)

/-- A property of raw content that holds with plain bytes or a pair with a backslash in front. -/
structure BackRule (P : List UInt8 → Prop) : Prop where
  plain : ∀ {x raw}, (∀ b ∈ x, isDelimiter b = false) → P raw → P (x ++ raw)
  backslash : ∀ {b raw}, P raw → P (backslash :: b :: raw)

namespace BackRule

variable {P : List UInt8 → Prop}

/-- An escaped code unit in front. -/
theorem codeUnit (hP : BackRule P) {b : UInt8} {l : List UInt8} {n : Nat}
    (hu : codeUnit l = some n) (h : P (l.drop 4)) :
    P (RJsonParser.backslash :: b :: l) := by
  refine hP.backslash ?_
  rw [← List.take_append_drop 4 l]
  exact hP.plain (codeUnit_mem hu) h

/-- It holds with one more character in front. -/
theorem rawChar (hP : BackRule P) {l : List UInt8} {c : Char} {n : Nat}
    (hc : rawChar l = some (c, n)) (h : P (l.drop n)) : P l := by
  cases l with
  | nil => cases hc
  | cons b l =>
    by_cases hs : b = RJsonParser.backslash
    · subst hs
      obtain ⟨x, raw, rfl⟩ : ∃ x raw, l = x :: raw := by
        cases l with
        | nil => simp [RJsonParser.rawChar, escapedChar] at hc
        | cons x raw => exact ⟨x, raw, rfl⟩
      simp only [RJsonParser.rawChar, if_true, escapedChar] at hc
      split at hc
      · obtain ⟨unit, hu, heq⟩ := Option.map_eq_some_iff.mp hc
        refine hP.codeUnit hu ?_
        have h6 : (RJsonParser.backslash :: x :: raw).drop 6 = raw.drop 4 := rfl
        unfold unicodeChar at heq
        split at heq
        · split at heq
          · next low hl =>
            split at heq
            · obtain ⟨-, rfl⟩ := Prod.mk.inj heq
              have h12 : (RJsonParser.backslash :: x :: raw).drop 12 = (raw.drop 4).drop 6 := by
                rw [← h6, List.drop_drop]
              rw [h12] at h
              generalize raw.drop 4 = rest at h hl ⊢
              rcases rest with - | ⟨y, - | ⟨z, r⟩⟩
              · cases hl
              · cases hl
              · simp only [escapedUnit] at hl
                split at hl
                · next hxy =>
                  rw [hxy.1]
                  exact hP.codeUnit hl h
                · cases hl
            · cases heq; exact h
          · cases heq; exact h
        · split at heq <;> (cases heq; exact h)
      · obtain ⟨_, _, heq⟩ := Option.map_eq_some_iff.mp hc
        cases heq
        exact hP.backslash h
    · simp only [RJsonParser.rawChar, hs, if_false] at hc
      split at hc
      · cases hc
      · next hq =>
        split at hc
        · next c' n' hf =>
          cases hc
          have hb : isDelimiter b = false := not_isDelimiter.mpr
            ⟨fun h => hq (.inl h), hs, fun h => hq (.inr h)⟩
          have hd := front_drop hf
          obtain ⟨b', r, hbr⟩ := exists_encodeChar c
          rw [hbr, List.cons_append, List.cons.injEq] at hd
          rw [front_drop hf]
          exact hP.plain (encodeChar_plain (hd.1 ▸ hb) hbr) h
        · cases hc

/-- What holds of nothing holds of all content that denotes a text. -/
theorem of_decodeString (hP : BackRule P) (hnil : P []) {raw : List UInt8} {s : Text}
    (h : decodeString raw = some s) : P raw :=
  decodeString_induct (P := fun raw _ => P raw) hnil (fun hc _ ih => hP.rawChar hc ih) h

end BackRule

/-- Content was scanned if what comes after its first character was. -/
theorem scanned_back : BackRule Scanned where
  plain hx h := (scanned_append hx).mpr h
  backslash h := by simpa [Scanned] using h

/-- There is an unescaped quote. -/
theorem rawLength_back : BackRule fun l => ∃ k, rawLength l = some k where
  plain hx := by
    rintro ⟨k, hk⟩
    refine ⟨_, by
      rw [rawLength_append_plain fun b hb => ?_, hk]
      · rfl
      · have := not_isDelimiter.mp (hx b hb)
        exact ⟨this.1, this.2.1⟩⟩
  backslash := by
    rintro b raw ⟨k, hk⟩
    exact ⟨_, by rw [rawLength_backslash, hk]; rfl⟩

/-- A character takes at least as many bytes as its UTF-8 form. -/
theorem utf8Size_le_of_rawChar {l : List UInt8} {c : Char} {n : Nat}
    (h : rawChar l = some (c, n)) : c.utf8Size ≤ n := by
  have hc := c.utf8Size_le_four
  cases l with
  | nil => cases h
  | cons b l =>
    simp only [rawChar] at h
    split at h
    · cases l with
      | nil => cases h
      | cons b' l =>
        simp only [escapedChar] at h
        split at h
        · obtain ⟨unit, -, heq⟩ := Option.map_eq_some_iff.mp h
          have hl := @unicodeChar_length unit (l.drop 4)
          rw [heq] at hl
          omega
        · obtain ⟨d, hd, heq⟩ := Option.map_eq_some_iff.mp h
          cases heq
          unfold shortEscape at hd
          split_ifs at hd <;> (cases hd; decide)
    · split at h
      · cases h
      · split at h
        · next hf =>
          cases h
          exact (front_eq_char hf).1.ge
        · cases h

/-- A text is at most as long as the content that denotes it. -/
theorem byteLen_le_of_decodeString {raw : List UInt8} {s : Text}
    (h : decodeString raw = some s) : byteLen s ≤ raw.length := by
  refine decodeString_induct (P := fun raw s => byteLen s ≤ raw.length) le_rfl ?_ h
  intro raw ch n s hc _ ih
  have hlen := rawChar_length hc
  have hsize := utf8Size_le_of_rawChar hc
  rw [List.length_drop] at ih
  rw [byteLen_cons]
  omega

/-- **Content that denotes a text** has nothing but plain bytes and escaped ones. -/
theorem scanned_of_decodeString {raw : List UInt8} {s : Text} (h : decodeString raw = some s) :
    Scanned raw := scanned_back.of_decodeString trivial h

theorem closed_of_decodeString {raw : List UInt8} {s : Text} (h : decodeString raw = some s) :
    Closed raw := (scanned_of_decodeString h).closed

/-- Where a string ends does not depend on what comes after it. -/
theorem rawLength_take : ∀ {l : List UInt8} {k : Nat}, rawLength l = some k →
    rawLength (l.take k ++ [quote]) = some k
  | [b], k, h => by
    simp only [rawLength] at h
    split at h
    · cases h; rfl
    · cases h
  | b :: b' :: l, k, h => by
    by_cases hq : b = quote
    · simp only [rawLength, hq, if_true] at h
      cases h
      rfl
    by_cases hs : b = backslash
    · rw [hs, rawLength_backslash] at h
      obtain ⟨j, hj, rfl⟩ := Option.map_eq_some_iff.mp h
      rw [List.take_succ_cons, List.take_succ_cons, hs, List.cons_append, List.cons_append,
        rawLength_backslash, rawLength_take hj]
      rfl
    · rw [rawLength_cons_plain hq hs] at h
      obtain ⟨j, hj, rfl⟩ := Option.map_eq_some_iff.mp h
      rw [List.take_succ_cons, List.cons_append, rawLength_cons_plain hq hs, rawLength_take hj]
      rfl

/-- The content up to the first unescaped quote. -/
theorem closed_take {l : List UInt8} {k : Nat} (h : rawLength l = some k) :
    Closed (l.take k) ∧ ∃ r, l = l.take k ++ quote :: r := by
  obtain ⟨r, hr, hlt⟩ := rawLength_spec h
  refine ⟨?_, r, hr⟩
  unfold Closed
  rw [rawLength_take h, List.length_take, Nat.min_eq_left (by omega)]

/-! ## `resolve_escape` on a stream -/

/-- Four digits that are read are a code unit. -/
theorem codeUnit_of_hexDigits {ds : List UInt8} {v : Nat} (h : hexDigits 4 ds 0 = .ok (some v)) :
    codeUnit ds = some v := by
  cases hu : codeUnit ds with
  | none =>
    obtain ⟨m, hm⟩ := hexDigits_bad (codeUnit_eq_none hu (hexDigits_length h)) (v := 0)
    rw [hm] at h
    cases h
  | some n => rw [hexDigits_codeUnit hu] at h; cases h; rfl

/-- What `low_surrogate_follows` finds on a stream. -/
theorem lowSurrogateFollows_stream (l : List UInt8) :
    match lowSurrogateFollows (l.take 6) with
    | .low low => escapedUnit l = some low ∧ IsLowSurrogate low
    | .not => ∀ low, escapedUnit l = some low → ¬ IsLowSurrogate low
    | .needMore => True := by
  match l with
  | [] => simp [lowSurrogateFollows]
  | [x] =>
    by_cases hx : x = backslash <;> simp [lowSurrogateFollows, hx, escapedUnit]
  | x :: y :: l =>
    simp only [List.take_succ_cons, lowSurrogateFollows, escapedUnit]
    by_cases hx : x = backslash
    swap
    · simp [hx]
    by_cases hy : y = 0x75
    swap
    · simp [hx, hy]
    simp only [hx, hy, ne_eq, not_true_eq_false, if_false, and_self, if_true]
    by_cases hlen : (l.take 4).length < 4
    · rw [if_pos hlen]
      trivial
    rw [if_neg hlen, hexDigits_take]
    cases hd : hexDigits 4 l 0 with
    | error e =>
      simp only
      intro low hl
      rw [hexDigits_codeUnit hl] at hd
      cases hd
    | ok r =>
      cases r with
      | none =>
        simp only
        intro low hl
        rw [hexDigits_codeUnit hl] at hd
        cases hd
      | some v =>
        have hv := codeUnit_of_hexDigits hd
        by_cases hlow : 0xDC00 ≤ v ∧ v ≤ 0xDFFF
        · simp only [hlow, and_self, if_true]
          exact ⟨hv, hlow⟩
        · simp only [hlow, if_false]
          intro low hl
          rw [hv] at hl
          cases hl
          exact hlow

/-- **A character that is resolved on a stream** is the first of the content there. -/
theorem resolve_rawChar {l : List UInt8} {c : Char} {n : Nat}
    (h : resolve (backslash :: l) = .ok (some (c, n))) :
      rawChar (backslash :: l) = some (c, n) := by
  have hchar : rawChar (backslash :: l) = escapedChar l := by simp [rawChar]
  rw [hchar]
  rw [resolve_eq] at h
  cases l with
  | nil => simp [parseEscape] at h
  | cons x raw =>
    have hsimple := simpleEscape_eq x
    simp only [parseEscape] at h
    -- a short escape, or `\u` with four digits and perhaps a second half behind them
    cases hs : simpleEscape x with
    | some v =>
      rw [hs] at h hsimple
      obtain ⟨c', hc', heq⟩ := Option.map_eq_some_iff.mp hsimple.symm
      have hnh : ¬ (0xD800 ≤ v ∧ v ≤ 0xDBFF) := by
        have := (Prod.mk.inj heq).2
        simpa using this.symm
      simp only [if_neg hnh] at h
      cases h
      have hx : x ≠ 0x75 := by
        rintro rfl
        rw [show simpleEscape 0x75 = none by decide] at hs
        cases hs
      simp only [escapedChar, hx, if_false, hc', Option.map_some]
      rw [(Prod.mk.inj heq).1]
    | none =>
      rw [hs] at h
      by_cases hx : x = 0x75
      swap
      · simp only [hx, if_false] at h
        cases h
      simp only [hx, if_true] at h ⊢
      cases hd : hexDigits 4 raw 0 with
      | error e => rw [hd] at h; cases h
      | ok r =>
        cases r with
        | none => rw [hd] at h; cases h
        | some unit =>
          rw [hd] at h
          simp only [except_ok_bind] at h
          have hu := codeUnit_of_hexDigits hd
          have hdrop : (backslash :: x :: raw).drop 6 = raw.drop 4 := rfl
          simp only [escapedChar, if_true, hu, Option.map_some]
          by_cases hh : 0xD800 ≤ unit ∧ unit ≤ 0xDBFF
          · have hhigh : IsHighSurrogate unit := hh
            have hlow := lowSurrogateFollows_stream (raw.drop 4)
            rw [if_pos hh] at h
            rw [show (backslash :: 0x75 :: raw).drop 6 = raw.drop 4 from rfl] at h
            cases hf : lowSurrogateFollows ((raw.drop 4).take 6) with
            | needMore => rw [hf] at h; cases h
            | not =>
              rw [hf] at h hlow
              cases h
              congr 1
              unfold unicodeChar
              rw [if_pos hhigh]
              split
              · next low hl => rw [if_neg (hlow low hl)]; rfl
              · rfl
            | low low =>
              rw [hf] at h hlow
              have hcp := charFromU32_pair hhigh hlow.2
              have huni := unicodeChar_pair hhigh hlow.1 hlow.2
              simp only [] at h
              generalize 0x10000 + (unit - 0xD800) * 1024 + (low - 0xDC00) = cp at hcp huni h
              rw [hcp, Option.getD_some] at h
              rw [huni]
              cases h
              rfl
          · have hhigh : ¬ IsHighSurrogate unit := hh
            rw [if_neg hh, charFromU32_unit (codeUnit_lt hu) hhigh] at h
            cases h
            congr 1
            unfold unicodeChar
            rw [if_neg hhigh]
            split <;> rfl

/-! ## Characters -/

/-- No character goes over the quote behind raw content. -/
theorem front_closed (b : UInt8) (raw r : List UInt8) :
    (∃ c n, front (b :: raw ++ quote :: r) = .char c n ∧ front (b :: raw) = .char c n) ∨
      (∀ c n, front (b :: raw ++ quote :: r) ≠ .char c n) ∧
        ∀ c n, front (b :: raw) ≠ .char c n := by
  by_cases hn : front (b :: raw) = .need
  · refine .inr ⟨fun c n hc => ?_, by simp [hn]⟩
    rcases front_eq_need hn with h | ⟨_, _, heq, hw, hlt, -⟩
    · cases h
    cases heq
    rw [List.length_cons] at hlt
    have hbad : front (b :: (raw ++ quote :: r)) = .bad := by
      refine front_eq_bad_of_not_cont (b := quote) ?_ (by decide)
      rw [List.take_append, List.mem_append]
      refine .inr ?_
      obtain ⟨k, hk⟩ : ∃ k, width b - 1 - raw.length = k + 1 :=
        ⟨width b - 1 - raw.length - 1, by omega⟩
      simp [hk]
    rw [List.cons_append, hbad] at hc
    cases hc
  · rw [front_append _ hn]
    cases hf : front (b :: raw) with
    | need => exact absurd hf hn
    | bad => simp
    | char c n => exact .inl ⟨c, n, rfl, rfl⟩

/-! ## Keys -/

/-- **The end of a key that is closed** is found, unless the key denotes nothing. -/
theorem keyFront_closed : ∀ {raw : List UInt8} (_ : Closed raw) (i : Nat) (r : List UInt8),
    keyFront none i (raw ++ quote :: r) = .found (i + raw.length) ∨
      keyFront none i (raw ++ quote :: r) = .bad ∧ ¬ Scanned raw
  | [], _, i, [] => .inl (by simp [keyFront])
  | [], _, i, b :: r => .inl (by simp [keyFront])
  | [b], h, i, r => by
    have hb : b ≠ quote ∧ b ≠ backslash := by
      constructor
      · rintro rfl; simp [Closed] at h
      · rintro rfl; simp [Closed, rawLength, show backslash ≠ quote by decide] at h
    by_cases hc : b < 0x20
    · exact .inr ⟨by simp [keyFront, hb, hc], fun hs => by
        have := not_isDelimiter.mp (show isDelimiter b = false from hs)
        exact this.2.2 hc⟩
    · refine .inl ?_
      cases r <;> simp [keyFront, hb, hc]
  | b :: b' :: raw, h, i, r => by
    by_cases hs : b = backslash
    · subst hs
      obtain ⟨_, _, heq, hraw⟩ := h.of_backslash
      cases heq
      rcases keyFront_closed hraw (i + 2) r with hf | ⟨hf, hn⟩
      · refine .inl ?_
        simp only [List.cons_append, keyFront, exceeds_none, Bool.false_eq_true, if_false, if_true,
          show backslash ≠ quote by decide, hf, List.length_cons]
        congr 1
        omega
      · refine .inr ⟨?_, by simpa [Scanned] using hn⟩
        simp only [List.cons_append, keyFront, exceeds_none, Bool.false_eq_true, if_false, if_true,
          show backslash ≠ quote by decide, hf]
    · have hq : b ≠ quote := by
        rintro rfl
        simp [Closed] at h
      have hraw : Closed (b' :: raw) := Closed.of_append (x := [b]) (by simp [hq, hs]) h
      by_cases hc : b < 0x20
      · refine .inr ⟨by simp [keyFront, hq, hs, hc], fun hsc => ?_⟩
        have := hsc.eq_backslash (by simp [isDelimiter, hc])
        exact hs this
      rcases keyFront_closed hraw (i + 1) r with hf | ⟨hf, hn⟩
      · refine .inl ?_
        rw [List.cons_append] at hf
        simp only [List.cons_append, keyFront, exceeds_none, Bool.false_eq_true, if_false, hq, hs,
          hc, hf, List.length_cons]
        congr 1
        omega
      · refine .inr ⟨?_, ?_⟩
        · rw [List.cons_append] at hf
          simp only [List.cons_append, keyFront, exceeds_none, Bool.false_eq_true, if_false, hq, hs,
            hc, hf]
        · rwa [scanned_cons (not_isDelimiter.mpr ⟨hq, hs, hc⟩)]

end RJsonParser
