import RJsonParser.Properties.Strings

/-!
# `process_key` refines the machine

* `scanKey_spec` — the scan finds the key that the machine finds
* `decodeKey_spec` — a scanned key is decoded to its text, or fails because it has none or is longer
  than the character buffer
* `Interner.Inv` — what is interned is its own text, so that a hit gives the text that decoding
  would
* `processKey_spec` — a key that is complete is reported by its text, whichever way it came
-/

namespace RJsonParser

open Infra Infra.Utf8

variable {F : Type} {km : Nat}

/-! ## The scan -/

/-- The loop of the scan stops where the key does for the machine. -/
theorem scanKeyLoop_spec (input : Spans) (limit : Option Nat) (start : Nat) :
    ∀ (fuel i : Nat) (hasEscape : Bool), start ≤ i → input.len - i < fuel →
      match keyFront limit (i - start) (input.bytes.drop i) with
      | .need => scanKeyLoop input limit start fuel i hasEscape = .ok none
      | .bad => ∃ m, scanKeyLoop input limit start fuel i hasEscape = .error (.err m)
      | .found n => ∃ esc, scanKeyLoop input limit start fuel i hasEscape =
          .ok (some (start + n, esc)) ∧ (esc = false → hasEscape = false ∧
            ∀ b ∈ (input.bytes.drop i).take (start + n - i), isDelimiter b = false) := by
  intro fuel
  induction fuel with
  | zero => intro i _ _ hf; omega
  | succ fuel ih =>
    intro i hasEscape hi hf
    rw [scanKeyLoop]
    by_cases hlen : input.len ≤ i
    · rw [if_pos hlen, List.drop_eq_nil_of_le hlen]
      rfl
    · rw [if_neg hlen]
      have hlt : i < input.bytes.length := Nat.lt_of_not_le hlen
      obtain ⟨b, l, hd⟩ : ∃ b l, input.bytes.drop i = b :: l :=
        ⟨_, _, List.drop_eq_getElem_cons hlt⟩
      have hd1 : input.bytes.drop (i + 1) = l := by rw [← List.drop_drop, hd]; rfl
      have hd2 : input.bytes.drop (i + 2) = l.drop 1 := by
        rw [← hd1, List.drop_drop]
      -- `keyFront` counts from the start of the key, the loop from that of the input
      have hkey : keyFront limit (i - start) (b :: l) =
          if exceeds limit (i - start) then .bad
          else if b = quote then .found (i - start)
          else if b = backslash then keyFront limit (i + 2 - start) (l.drop 1)
          else if b < 0x20 then .bad
          else keyFront limit (i + 1 - start) l := by
        have e1 : i - start + 1 = i + 1 - start := by omega
        have e2 : i - start + 2 = i + 2 - start := by omega
        cases l with
        | nil =>
          simp only [keyFront, List.drop_nil]
        | cons b' l => simp only [keyFront, List.drop_one, List.tail_cons, e1, e2]
      rw [hd, hkey]
      by_cases hex : exceeds limit (i - start) = true
      · rw [if_pos hex, if_pos hex]
        exact ⟨_, rfl⟩
      · rw [if_neg hex, if_neg hex]
        simp only [input.get_eq hd, except_ok_bind]
        by_cases hq : b = quote
        · rw [if_pos hq, if_pos hq]
          refine ⟨hasEscape, by rw [Nat.add_sub_of_le hi], ?_⟩
          rintro rfl
          refine ⟨rfl, ?_⟩
          rw [Nat.add_sub_of_le hi, Nat.sub_self, List.take_zero]
          simp
        · rw [if_neg hq, if_neg hq]
          by_cases hs : b = backslash
          · rw [if_pos hs, if_pos hs]
            -- the byte behind a backslash is skipped unseen
            have := ih (i + 2) true (by omega) (by omega)
            rw [hd2] at this
            revert this
            cases keyFront limit (i + 2 - start) (l.drop 1) with
            | need => exact id
            | bad => exact id
            | found n =>
              rintro ⟨esc, he, hp⟩
              exact ⟨esc, he, fun h => absurd (hp h).1 (by simp)⟩
          · rw [if_neg hs, if_neg hs]
            by_cases hc : b < 0x20
            · rw [if_pos hc, if_pos hc]
              exact ⟨_, rfl⟩
            · rw [if_neg hc, if_neg hc]
              have := ih (i + 1) hasEscape (by omega) (by omega)
              rw [hd1] at this
              revert this
              cases hk : keyFront limit (i + 1 - start) l with
              | need => exact id
              | bad => exact id
              | found n =>
                rintro ⟨esc, he, hp⟩
                refine ⟨esc, he, fun h => ⟨(hp h).1, ?_⟩⟩
                obtain ⟨k, hn, -, -⟩ := keyFront_found limit hk
                obtain ⟨j, hj⟩ : ∃ j, start + n - i = j + 1 := ⟨start + n - (i + 1), by omega⟩
                rw [hj, List.take_succ_cons]
                intro x hx
                rcases List.mem_cons.mp hx with rfl | hx
                · exact not_isDelimiter.mpr ⟨hq, hs, hc⟩
                · exact (hp h).2 x (by
                    rw [show start + n - (i + 1) = j by omega]; exact hx)

/-- The scan from `start` on. -/
theorem scanKey_spec (input : Spans) (limit : Option Nat) (start : Nat) :
    match keyFront limit 0 (input.bytes.drop start) with
    | .need => scanKey input limit start = .ok none
    | .bad => ∃ m, scanKey input limit start = .error (.err m)
    | .found n => ∃ esc, scanKey input limit start = .ok (some (start + n, esc)) ∧
        (esc = false → ∀ b ∈ (input.bytes.drop start).take n, isDelimiter b = false) := by
  have := scanKeyLoop_spec input limit start (input.len - start + 1) start false le_rfl
    (Nat.lt_succ_self _)
  rw [Nat.sub_self] at this
  revert this
  unfold scanKey
  cases keyFront limit 0 (input.bytes.drop start) with
  | need => exact id
  | bad => exact id
  | found n =>
    rintro ⟨esc, he, hp⟩
    refine ⟨esc, he, fun h => ?_⟩
    have := (hp h).2
    rwa [Nat.add_sub_cancel_left] at this

/-! ## Decoding -/

/-- The bytes from `p` to `stop`. -/
def Spans.slice (input : Spans) (p stop : Nat) : List UInt8 := (input.bytes.drop p).take (stop - p)

/-- A stretch of the input in two parts. -/
theorem Spans.slice_split (input : Spans) {p q stop : Nat} (hp : p ≤ q) (hq : q ≤ stop) :
    input.slice p stop = input.slice p q ++ input.slice q stop := by
  unfold Spans.slice
  have : stop - p = (q - p) + (stop - q) := by omega
  rw [this, List.take_add, List.drop_drop, Nat.add_sub_of_le hp]

theorem Spans.length_slice (input : Spans) {p stop : Nat} (h : stop ≤ input.len) :
    (input.slice p stop).length = stop - p := by
  unfold Spans.slice
  unfold Spans.len at h
  rw [List.length_take, List.length_drop]
  omega

/-- The input from `p` on, with the quote at `stop`. -/
theorem Spans.drop_eq_slice (input : Spans) {p stop : Nat} {r : List UInt8} (hp : p ≤ stop)
    (hq : input.bytes.drop stop = quote :: r) :
    input.bytes.drop p = input.slice p stop ++ quote :: r := by
  rw [← hq]
  unfold Spans.slice
  have : input.bytes.drop stop = (input.bytes.drop p).drop (stop - p) := by
    rw [List.drop_drop, Nat.add_sub_of_le hp]
  rw [this, List.take_append_drop]

theorem Spans.stop_lt (input : Spans) {stop : Nat} {r : List UInt8}
    (hq : input.bytes.drop stop = quote :: r) : stop < input.len := by
  by_contra hlt
  rw [List.drop_eq_nil_of_le (by unfold Spans.len at hlt; omega)] at hq
  cases hq

/-- Where text lies before `stop`, it is the start of the slice. -/
theorem TextAt.slice {input : Spans} {p stop : Nat} {cs : Text} (h : TextAt input p cs)
    (hle : p + byteLen cs ≤ stop) :
    input.slice p stop = encode cs ++ input.slice (p + byteLen cs) stop := by
  rw [input.slice_split (Nat.le_add_right p _) hle]
  congr 1
  unfold Spans.slice
  rw [h, Nat.add_sub_cancel_left, ← length_encode, List.take_left]

/-- Bytes that start no character denote nothing. -/
theorem rawChar_none_of_bad {b : UInt8} {l m : List UInt8} (hb : isDelimiter b = false)
    (h : ∀ c n, front (b :: l ++ m) ≠ .char c n) : rawChar (b :: l) = none := by
  rw [rawChar_plain hb]
  cases hf : front (b :: l) with
  | need => rfl
  | bad => rfl
  | char c n =>
    rw [← front_append m (by rw [hf]; simp)] at hf
    exact absurd hf (h c n)

/-- What decoding a key comes to: its text, or an error where it has none that fits. -/
def KeyDecoded (w : World F) (raw : List UInt8) (srcUnits : Nat) (m : TokM F Nat) : Prop :=
  Ensures m w
    (fun total w' => ∃ s, decodeString raw = some s ∧ total = srcUnits + units raw ∧
      w' = { w with tok := { w.tok with chars := w.tok.chars ++ s } } ∧
      byteLen (w.tok.chars ++ s) ≤ w.tok.chunkSize)
    (fun e w' => ∃ message chars, e = .err message ∧
      w' = { w with tok := { w.tok with chars := chars } } ∧
      byteLen chars ≤ w.tok.chunkSize ∧
      ∀ s, decodeString raw = some s → w.tok.chunkSize < byteLen (w.tok.chars ++ s))

/-- A key whose first part is decoded. -/
theorem KeyDecoded.prepend {w w₁ : World F} {raw raw₁ : List UInt8} {s : Text} {k k₁ : Nat}
    {m : TokM F Nat} (hw₁ : w₁ = { w with tok := { w.tok with chars := w.tok.chars ++ s } })
    (hraw : decodeString raw = (decodeString raw₁).map (s ++ ·))
    (hk : k₁ + units raw₁ = k + units raw) (h : KeyDecoded w₁ raw₁ k₁ m) :
    Ensures m w₁
      (fun total w' => ∃ s, decodeString raw = some s ∧ total = k + units raw ∧
        w' = { w with tok := { w.tok with chars := w.tok.chars ++ s } } ∧
        byteLen (w.tok.chars ++ s) ≤ w.tok.chunkSize)
      (fun e w' => ∃ message chars, e = .err message ∧
        w' = { w with tok := { w.tok with chars := chars } } ∧
        byteLen chars ≤ w.tok.chunkSize ∧
        ∀ s, decodeString raw = some s → w.tok.chunkSize < byteLen (w.tok.chars ++ s)) := by
  subst hw₁
  refine Ensures.mono h ?_ ?_
  · rintro total w' ⟨t, ht, htot, rfl, hfit⟩
    refine ⟨s ++ t, by rw [hraw, ht]; rfl, by rw [htot, hk], ?_, ?_⟩
    · simp [List.append_assoc]
    · rw [← List.append_assoc]; exact hfit
  · rintro e w' ⟨message, chars, he, rfl, hfit, hlong⟩
    refine ⟨message, chars, he, rfl, hfit, ?_⟩
    intro t ht
    rw [hraw] at ht
    obtain ⟨t', ht', rfl⟩ := Option.map_eq_some_iff.mp ht
    rw [← List.append_assoc]
    exact hlong t' ht'

/-- Before the end of a plain run there is a plain byte. -/
theorem slice_cons {input : Spans} {p q runEnd stop : Nat} (hp : p ≤ q) (hq : q < runEnd)
    (hr : runEnd ≤ stop) (hs : stop ≤ input.len)
    (hplain : ∀ b ∈ input.slice p runEnd, isDelimiter b = false) :
    ∃ b t, input.slice q stop = b :: t ∧ isDelimiter b = false := by
  obtain ⟨b, t, hbt⟩ : ∃ b t, input.slice q stop = b :: t := by
    refine List.exists_cons_of_ne_nil (List.length_pos_iff.mp ?_)
    rw [input.length_slice hs]
    omega
  refine ⟨b, t, hbt, hplain b ?_⟩
  rw [input.slice_split hp hq.le, List.mem_append]
  right
  have h := input.slice_split hq.le hr
  obtain ⟨x, u, hxu⟩ : ∃ x u, input.slice q runEnd = x :: u := by
    refine List.exists_cons_of_ne_nil (List.length_pos_iff.mp ?_)
    rw [input.length_slice (by omega)]
    omega
  rw [hbt, hxu, List.cons_append, List.cons.injEq] at h
  rw [hxu, h.1]
  exact List.mem_cons_self

/-- The plain bytes at the front of a key. -/
theorem decodeKeyRun_spec {input : Spans} {p runEnd stop : Nat} {r : List UInt8} {w : World F}
    (hq : input.bytes.drop stop = quote :: r) (hp : p ≤ runEnd) (hr : runEnd ≤ stop)
    (hrun : RunEnd input runEnd) (hplain : ∀ b ∈ input.slice p runEnd, isDelimiter b = false)
    (hw : byteLen w.tok.chars ≤ w.tok.chunkSize) :
    Ensures (decodeKeyRun input p runEnd) w
      (fun res w' => res.1 = runEnd ∧ res.2 = units (input.slice p runEnd) ∧
        ∃ cs, input.slice p runEnd = encode cs ∧
          w' = { w with tok := { w.tok with chars := w.tok.chars ++ cs } } ∧
          byteLen (w.tok.chars ++ cs) ≤ w.tok.chunkSize)
      (fun e w' => ∃ message chars, e = .err message ∧
        w' = { w with tok := { w.tok with chars := chars } } ∧
        byteLen chars ≤ w.tok.chunkSize ∧
        ∀ s, decodeString (input.slice p stop) = some s →
          w.tok.chunkSize < byteLen (w.tok.chars ++ s)) := by
  have hkept : ∀ {cs : Text} {ps : List Text} {chars : Text} {w' : World F},
      Pushed none w w' cs ps chars → chars = w.tok.chars ++ cs ∧
        w' = { w with tok := { w.tok with chars := w.tok.chars ++ cs } } := by
    intro cs ps chars w' h
    have h1 := h.text
    rw [h.kept rfl, List.flatten_nil, List.nil_append] at h1
    refine ⟨h1, ?_⟩
    rw [h.eq, h.kept rfl, h1]
    simp [World.buffered, contentCalls]
  have hstop := input.stop_lt hq
  unfold decodeKeyRun
  by_cases hlt : p < runEnd
  · rw [if_pos hlt]
    simp only [ensures_bind]
    refine (decodeRun_spec none input hrun hp w hw).mono ?_ ?_
    · rintro ⟨next, k⟩ w' ⟨cs, ps, chars, hd⟩
      replace hd : RunDone none input p runEnd w w' next k cs ps chars := hd
      obtain ⟨hc, hw'⟩ := hkept hd.pushed
      have hnext : next = runEnd := by
        rcases hd.rest with h | ⟨b, rest, heq, -, -, hall⟩
        · exact h
        · -- a character that the end of the input cuts off would have the quote in it
          by_contra hne
          have hle := hd.next_le
          rw [input.drop_eq_slice (by omega) hq] at heq
          obtain ⟨x, t, hxt⟩ : ∃ x t, input.slice next stop = x :: t := by
            refine List.exists_cons_of_ne_nil (List.length_pos_iff.mp ?_)
            rw [input.length_slice (by omega)]
            omega
          rw [hxt, List.cons_append, List.cons.injEq] at heq
          have := hall quote (by rw [← heq.2]; simp)
          revert this
          decide
      have hslice : input.slice p runEnd = encode cs := by
        have h := hd.text.slice (by rw [← hd.next_eq, hnext])
        rw [← hd.next_eq, hnext] at h
        rw [h]
        simp [Spans.slice]
      rw [if_neg (by omega)]
      simp only [ensures_pure]
      refine ⟨hnext, by rw [hd.units_eq, hslice], cs, hslice, hw', ?_⟩
      rw [← hc]
      exact hd.pushed.fits
    · rintro e w' ⟨cs, hs⟩
      cases hs with
      | refused _ _ h => obtain ⟨_, _, _, _, h, _⟩ := h; cases h
      | malformed ht hl hpush he hbad =>
        obtain ⟨hc, hw'⟩ := hkept hpush
        refine ⟨_, _, he, hw', by rw [← hc]; exact hpush.fits, ?_⟩
        intro s hs
        have hpre := ht.slice (show p + byteLen cs ≤ stop by omega)
        obtain ⟨b, t, hbt, hb⟩ := slice_cons (p := p) (q := p + byteLen cs)
          (by omega) hl hr (by omega) hplain
        have hplaincs : ∀ b ∈ encode cs, isDelimiter b = false := by
          intro x hx
          refine hplain x ?_
          rw [ht.slice (by omega)]
          exact List.mem_append_left _ hx
        rw [hpre, decodeString_encode_append hplaincs, hbt] at hs
        have hfull : input.bytes.drop (p + byteLen cs) = b :: t ++ quote :: r := by
          rw [input.drop_eq_slice (by omega) hq, hbt]
        rw [decodeString_of_rawChar_none (by simp) (rawChar_none_of_bad (m := quote :: r) hb
          (by rw [← hfull, hbad]; simp))] at hs
        cases hs
      | tooLong ht hl _ hpush he hlong =>
        obtain ⟨hc, hw'⟩ := hkept hpush
        refine ⟨_, _, he, hw', by rw [← hc]; exact hpush.fits, ?_⟩
        intro s hs
        have hpre := ht.slice (show p + byteLen cs ≤ stop by omega)
        obtain ⟨b, t, hbt, hb⟩ := slice_cons (p := p) (q := p + byteLen cs)
          (by omega) hl hr (by omega) hplain
        have hplaincs : ∀ b ∈ encode cs, isDelimiter b = false := by
          intro x hx
          refine hplain x ?_
          rw [ht.slice (by omega)]
          exact List.mem_append_left _ hx
        rw [hpre, decodeString_encode_append hplaincs, hbt] at hs
        have hfull : input.bytes.drop (p + byteLen cs) = b :: t ++ quote :: r := by
          rw [input.drop_eq_slice (by omega) hq, hbt]
        rw [hfull] at hlong
        obtain ⟨s', hs', rfl⟩ := Option.map_eq_some_iff.mp hs
        cases hchar : rawChar (b :: t) with
        | none =>
          rw [decodeString_of_rawChar_none (by simp) hchar] at hs'
          cases hs'
        | some res =>
          obtain ⟨c, n⟩ := res
          rw [decodeString_of_rawChar hchar] at hs'
          obtain ⟨s'', -, rfl⟩ := Option.map_eq_some_iff.mp hs'
          rw [rawChar_plain hb] at hchar
          split at hchar
          · next hf =>
            cases hchar
            have := hlong c n (by rw [front_append _ (by rw [hf]; simp), hf])
            have hn := (front_eq_char hf).1
            simp only [byteLen_append, byteLen_cons] at this ⊢
            omega
          · cases hchar
  · rw [if_neg hlt]
    have : p = runEnd := by omega
    subst this
    have hnil : input.slice p p = [] := by simp [Spans.slice]
    rw [ensures_pure, hnil]
    exact ⟨rfl, rfl, [], rfl, by simp, by simpa using hw⟩

/-- `scan_plain` finds the first byte that is not plain, or the end of the key. -/
theorem scanPlain_slice {input : Spans} {p stop : Nat} (hp : p ≤ stop) (hs : stop ≤ input.len) :
    ∃ runEnd, scanPlain input p stop = .ok runEnd ∧ p ≤ runEnd ∧ runEnd ≤ stop ∧
      (∀ b ∈ input.slice p runEnd, isDelimiter b = false) ∧
      ∀ b l, input.slice runEnd stop = b :: l → isDelimiter b = true := by
  refine ⟨_, scanPlain_eq input hp hs, by omega, ?_⟩
  have hpre := plainRun_prefix (input.slice p stop)
  have hlen := hpre.length_le
  rw [input.length_slice hs] at hlen
  have hrun : input.slice p (p + (plainRun (input.slice p stop)).length) =
      plainRun (input.slice p stop) := by
    have h : plainRun (input.slice p stop) =
        ((input.bytes.drop p).take (stop - p)).take (plainRun (input.slice p stop)).length :=
      List.prefix_iff_eq_take.mp hpre
    rw [List.take_take, Nat.min_eq_left hlen] at h
    rw [Spans.slice, Nat.add_sub_cancel_left]
    exact h.symm
  have hle : p + (plainRun (input.slice p stop)).length ≤ stop := by omega
  refine ⟨hle, ?_, ?_⟩
  · intro b hb
    exact plainRun_plain b (hrun ▸ hb)
  · intro b l hbl
    change input.slice (p + (plainRun (input.slice p stop)).length) stop = b :: l at hbl
    have hsplit := input.slice_split (Nat.le_add_right p _) hle
    rw [hrun] at hsplit
    have htake := List.takeWhile_append_dropWhile (p := fun b => !isDelimiter b)
      (l := input.slice p stop)
    have hdrop : (input.slice p stop).dropWhile (fun b => !isDelimiter b) = b :: l := by
      refine (List.append_cancel_left_eq (plainRun (input.slice p stop)) _ _).mp ?_
      rw [← hbl, ← hsplit]
      exact htake
    have := List.head_dropWhile_not (p := fun b => !isDelimiter b) (l := input.slice p stop)
      (by rw [hdrop]; simp)
    simpa [hdrop] using this

/-- The loop of `decode_key` decodes the rest of a key. -/
theorem decodeKeyLoop_spec {input : Spans} {stop : Nat} {r : List UInt8}
    (hq : input.bytes.drop stop = quote :: r) : ∀ (fuel p srcUnits : Nat) (w : World F),
      stop - p < fuel → p ≤ stop → Scanned (input.slice p stop) →
      byteLen w.tok.chars ≤ w.tok.chunkSize →
      KeyDecoded w (input.slice p stop) srcUnits (decodeKeyLoop input stop fuel p srcUnits) := by
  have hstop := input.stop_lt hq
  intro fuel
  induction fuel with
  | zero => intro p _ _ hf; omega
  | succ fuel ih =>
    intro p srcUnits w hf hp hsc hw
    rw [decodeKeyLoop]
    by_cases hlt : p < stop
    swap
    · rw [if_neg hlt]
      obtain rfl : p = stop := by omega
      have hnil : input.slice p p = [] := by simp [Spans.slice]
      unfold KeyDecoded
      rw [hnil, ensures_pure]
      exact ⟨[], rfl, by simp, by simp, by simpa using hw⟩
    rw [if_pos hlt]
    obtain ⟨runEnd, hscan, hle, hre, hplain, hdel⟩ := scanPlain_slice hp hstop.le
    have hsplit := input.slice_split hle hre
    have hrun : RunEnd input runEnd := by
      refine ⟨by omega, ?_⟩
      intro b l hd
      rcases hre.eq_or_lt with rfl | hlt'
      · rw [hq] at hd
        cases hd
        decide
      · obtain ⟨x, t, hxt⟩ : ∃ x t, input.slice runEnd stop = x :: t := by
          refine List.exists_cons_of_ne_nil (List.length_pos_iff.mp ?_)
          rw [input.length_slice hstop.le]
          omega
        have h := input.drop_eq_slice hre hq
        rw [hd, hxt, List.cons_append, List.cons.injEq] at h
        rw [h.1]
        exact hdel x t hxt
    unfold KeyDecoded
    simp only [ensures_bind, hscan, ensures_ofExcept_ok]
    refine (decodeKeyRun_spec hq hle hre hrun hplain hw).mono ?_ fun _ _ h => h
    rintro ⟨next, k⟩ w₁ ⟨hnext, hk, cs, hcs, rfl, hfit⟩
    simp only at hnext hk
    subst hnext hk
    have hplaincs : ∀ b ∈ encode cs, isDelimiter b = false := by rw [← hcs]; exact hplain
    by_cases hend : stop ≤ next
    · rw [if_pos hend]
      obtain rfl : next = stop := by omega
      rw [ensures_pure, hcs]
      exact ⟨cs, decodeString_encode hplaincs, rfl, rfl, hfit⟩
    rw [if_neg hend]
    -- what is there is a backslash, since the scan came past it
    obtain ⟨b, raw, hbraw⟩ : ∃ b raw, input.slice next stop = b :: raw := by
      refine List.exists_cons_of_ne_nil (List.length_pos_iff.mp ?_)
      rw [input.length_slice hstop.le]
      omega
    have hsc₁ : Scanned (input.slice next stop) := by
      rw [hsplit, scanned_append hplain] at hsc
      exact hsc
    obtain rfl : b = backslash := by
      rw [hbraw] at hsc₁
      exact hsc₁.eq_backslash (hdel b raw hbraw)
    have hraw : decodeString (input.slice p stop) =
        (decodeString (backslash :: raw)).map (cs ++ ·) := by
      rw [hsplit, hcs, hbraw, decodeString_encode_append hplaincs]
    have hres : resolveEscape input next = resolve (backslash :: raw ++ quote :: r) := by
      rw [resolveEscape_eq, input.drop_eq_slice hre hq, hbraw]
    have hclosed : Closed (backslash :: raw) := by rw [← hbraw]; exact hsc₁.closed
    have hnone : decodeString (backslash :: raw) = none → ∀ s,
        decodeString (input.slice p stop) = some s →
          w.tok.chunkSize < byteLen (w.tok.chars ++ s) := by
      intro h s hs
      rw [hraw, h] at hs
      cases hs
    simp only [ensures_bind, hres]
    rcases resolve_spec hclosed r with ⟨c, n, hfound, hchar⟩ | ⟨hbad, hnext | ⟨m, herr⟩⟩
    · rw [hfound]
      simp only [ensures_ofExcept_ok, ensures_bind]
      have h4 : c.utf8Size ≤ minDecodeRoom := le_trans c.utf8Size_le_four (by decide)
      refine (ensureFree_spec none c.utf8Size h4 _ hfit).mono ?_ ?_
      · rintro - w₂ ⟨ps, chars, hpush, hroom⟩
        have htext := hpush.text
        rw [hpush.kept rfl, List.flatten_nil, List.nil_append, List.append_nil] at htext
        have hw₂ := hpush.eq
        rw [hpush.kept rfl, htext] at hw₂
        simp only [pushStr, modifyTok, ensures_modify]
        have hn := rawChar_length hchar
        have hlen := input.length_slice (p := next) hstop.le
        rw [hbraw] at hlen
        have hdropn : (input.slice next stop).drop n = input.slice (next + n) stop := by
          rw [Spans.slice, Spans.slice, List.drop_take, List.drop_drop, Nat.sub_sub]
        have hsplit' : decodeString (input.slice p stop) =
            (decodeString (input.slice (next + n) stop)).map (cs ++ [c] ++ ·) := by
          rw [hraw, decodeString_of_rawChar hchar, ← hbraw, hdropn, Option.map_map]
          congr 1
          funext t
          simp
        have hunits : srcUnits + units (input.slice p next) + n +
            units (input.slice (next + n) stop) = srcUnits + units (input.slice p stop) := by
          have h := units_escape hchar
          rw [hsplit, units_append, ← hdropn, hbraw]
          have h' := congrArg units (List.take_append_drop n (backslash :: raw))
          rw [units_append] at h'
          omega
        have hlen' : byteLen (w.tok.chars ++ (cs ++ [c])) ≤ w.tok.chunkSize := by
          rw [htext] at hroom
          simp only [byteLen_append, byteLen_cons, byteLen_nil] at hroom ⊢
          omega
        have hw' : ({ w₂ with tok := { w₂.tok with chars := w₂.tok.chars ++ [c] } } : World F) =
            { w with tok := { w.tok with chars := w.tok.chars ++ (cs ++ [c]) } } := by
          rw [hw₂]
          simp [World.buffered, contentCalls]
        rw [hw']
        refine KeyDecoded.prepend (w := w) (s := cs ++ [c]) rfl hsplit' hunits ?_
        refine ih (next + n) _ _ (by omega) (by omega) ?_ hlen'
        rw [← hdropn, hbraw]
        rw [hbraw] at hsc₁
        exact hsc₁.drop hchar
      · rintro e w' (⟨handler, _, _, _, h, _⟩ | ⟨-, rfl, rfl, hlong⟩)
        · cases h
        · refine ⟨_, _, rfl, rfl, hfit, ?_⟩
          intro s hs
          rw [hraw, decodeString_of_rawChar hchar] at hs
          obtain ⟨s', hs', rfl⟩ := Option.map_eq_some_iff.mp hs
          obtain ⟨s'', -, rfl⟩ := Option.map_eq_some_iff.mp hs'
          simp only [byteLen_append, byteLen_cons] at hlong ⊢
          omega
    · rw [hnext]
      exact ⟨_, _, rfl, rfl, hfit, hnone hbad⟩
    · rw [herr]
      exact ⟨_, _, rfl, rfl, hfit, hnone hbad⟩

/-- **`decode_key`** on an empty buffer: the text of the key, or an error if it has none or is
longer than the buffer. -/
theorem decodeKey_spec {input : Spans} {start stop : Nat} {r : List UInt8} {w : World F}
    (hq : input.bytes.drop stop = quote :: r) (hle : start ≤ stop)
    (hsc : Scanned (input.slice start stop)) (hw : w.tok.chars = []) :
    Ensures (decodeKey input start stop) w
      (fun total w' => ∃ s, decodeString (input.slice start stop) = some s ∧
        total = units (input.slice start stop) ∧
        w' = { w with tok := { w.tok with chars := s } } ∧ byteLen s ≤ w.tok.chunkSize)
      (fun e w' => ∃ message chars, e = .err message ∧
        w' = { w with tok := { w.tok with chars := chars } } ∧
        byteLen chars ≤ w.tok.chunkSize ∧
        ∀ s, decodeString (input.slice start stop) = some s → w.tok.chunkSize < byteLen s) := by
  have h := decodeKeyLoop_spec hq (stop - start + 1) start 0 w (Nat.lt_succ_self _) hle hsc
    (by rw [hw]; exact Nat.zero_le _)
  unfold KeyDecoded at h
  unfold decodeKey
  rw [hw] at h
  simpa only [Nat.zero_add, List.nil_append] using h

/-! ## The symbol table -/

/-- What is interned is its own text, of at most `km` bytes. -/
structure Interner.Inv (km : Nat) (k : Interner) : Prop where
  wf : k.table.Wf
  own : ∀ s ∈ k.table.entries, s.key = encode s.value
  fits : ∀ s ∈ k.table.entries, byteLen s.value ≤ km

theorem Interner.new_inv (km : Nat) : (Interner.start .new).Inv km :=
  ⟨KeySymbolTable.new_wf, by simp [Interner.start], by simp [Interner.start]⟩

/-- The counters do not matter. -/
theorem Interner.Inv.of_table {km : Nat} {k k' : Interner} (h : k.Inv km)
    (ht : k'.table = k.table) : k'.Inv km :=
  ⟨ht ▸ h.wf, ht ▸ h.own, ht ▸ h.fits⟩

theorem Interner.Inv.mono {km km' : Nat} {k : Interner} (h : k.Inv km) (hle : km ≤ km') :
    k.Inv km' :=
  ⟨h.wf, h.own, fun s hs => (h.fits s hs).trans hle⟩

/-- A key that is put into the table under its own bytes. -/
theorem Interner.Inv.put {km : Nat} {k : Interner} (h : k.Inv km) {key : Text}
    (hk : byteLen key ≤ km) (hash : UInt32) :
    ∃ table, k.table.put (encode key) hash key = .ok table ∧
      ∀ k' : Interner, k'.table = table → k'.Inv km := by
  obtain ⟨table, hput, hwf, _, hadd⟩ := KeySymbolTable.put_spec h.wf (encode key) hash key
  have hent := KeySymbolTable.mem_of_put hadd
  refine ⟨table, hput, ?_⟩
  rintro k' rfl
  refine ⟨hwf, ?_, ?_⟩
  · intro s hs
    rcases hent s hs with rfl | hs
    · rfl
    · exact h.own s hs
  · intro s hs
    rcases hent s hs with rfl | hs
    · exact hk
    · exact h.fits s hs

/-! ## Reporting -/

/-- The world after a key is reported. -/
def World.reported (w : World F) (key : Text) (srcUnits : Nat) : World F :=
  { w with
    tok := { w.tok with duplicateKeyStack := (w.core.note key).seen }
    locator := w.locator.addColumn (2 + srcUnits)
    calls := w.calls ++ [⟨.key key, w.locator.addColumn (2 + srcUnits)⟩] }

/-- **A key that comes twice** is an error where that is asked for, and is noted otherwise. -/
theorem checkDuplicate_spec (key : Text) (w : World F) :
    Ensures (checkDuplicate key) w
      (fun _ w' => w.core.isDuplicate key = false ∧
        w' = { w with tok := { w.tok with duplicateKeyStack := (w.core.note key).seen } })
      (fun e w' => w.core.isDuplicate key = true ∧ w' = w ∧ ∃ m, e = .err m) := by
  unfold checkDuplicate
  simp only [ensures_bind, ensures_get]
  by_cases hr : w.tok.rejectDuplicateKeys = true
  · rw [if_pos hr]
    cases hd : w.tok.duplicateKeyStack with
    | nil =>
      have hseen : (w.core.note key).seen = w.tok.duplicateKeyStack := by
        simp [Core.note, World.core, hd]
      exact ⟨by simp [Core.isDuplicate, World.core, hd], by rw [hseen]⟩
    | cons seen rest =>
      have hdup : w.core.isDuplicate key = decide (key ∈ seen) := by
        simp [Core.isDuplicate, World.core, hd, hr]
      rw [hdup]
      by_cases hm : key ∈ seen
      · simp only [hm, if_true]
        exact ⟨decide_true .., rfl, _, rfl⟩
      · have hseen : (w.core.note key).seen = (key :: seen) :: rest := by
          simp [Core.note, World.core, hd, hr]
        simp only [hm, if_false]
        exact ⟨decide_false .., by rw [hseen]⟩
  · have hseen : (w.core.note key).seen = w.tok.duplicateKeyStack := by
      simp [Core.note, World.core, hr]
    rw [if_neg hr]
    exact ⟨by simp [Core.isDuplicate, World.core, hr], by rw [hseen]⟩

/-- **`report_key`** notes the key, moves the locator over it and its quotes, and calls it back. -/
theorem reportKey_spec (h : Handler F) (key : Text) (srcUnits : Nat) (w : World F) :
    Ensures (reportKey h key srcUnits) w
      (fun _ w' => w.core.isDuplicate key = false ∧ w' = w.reported key srcUnits)
      (fun e w' => w.core.isDuplicate key = true ∧ w' = w ∧ (∃ m, e = .err m) ∨
        w.core.isDuplicate key = false ∧ w' = w.reported key srcUnits ∧
          ∃ err, e = .error err ∧ h.reply w'.calls = some err) := by
  unfold reportKey
  simp only [ensures_bind]
  refine (checkDuplicate_spec key w).mono ?_ fun e w' h => .inl h
  rintro - w' ⟨hd, rfl⟩
  simp only [addColumn, ensures_modify]
  refine (callback_spec h _ _).mono ?_ ?_
  · rintro - w' ⟨rfl, -⟩
    exact ⟨hd, rfl⟩
  · rintro e w' ⟨rfl, err, he, hr⟩
    exact .inr ⟨hd, rfl, err, he, hr⟩

/-! ## A key that is next -/

/-- A key of `n` bytes is next, and `key` is its text. -/
structure KeyFound (env : Env F) (w : World F) (t : List UInt8) (n : Nat) (key : Text) : Prop where
  token : AtToken env w quote t
  state : w.tok.state = .expectKey
  found : keyFront env.limits.maxNameLength 0 t = .found n
  text : decodeString (t.take n) = some key

/-- The world behind a key that was read through the buffer. -/
def World.keyRead (w : World F) (n : Nat) (chars : Text) : World F :=
  { w with
    tok := { w.tok with chars := chars, charsCap := w.tok.chunkSize }
    consumed := w.consumed + 1 + n + 1 }

/-- The key that is next was reported, and has at most `km` bytes. -/
def KeyDone (km : Nat) (env : Env F) (w w' : World F) : Prop :=
  ∃ t n key, KeyFound env w t n key ∧ w.core.isDuplicate key = false ∧
    w'.core = (w.core.note key).move (2 + units (t.take n)) ∧
    w'.calls = w.calls ++ [⟨.key key, w'.locator⟩] ∧ w'.consumed = w.consumed + (n + 2) ∧
    w'.tok.chunkSize = w.tok.chunkSize ∧ byteLen key ≤ km

section Found

variable [Double F] {env : Env F} {w : World F} {t : List UInt8} {n : Nat} {key : Text}

/-- The machine reads a key where one is due. -/
theorem next_key (h : AtToken env w quote t) (hs : w.tok.state = .expectKey) :
    w.core.next (F := F) env.limits (env.rest w) = w.core.keyStep env.limits t := by
  have hs' : w.core.state = .expectKey := hs
  rw [h.next]
  simp only [Core.tokenStep, show tokenKind quote = .quote by decide, Core.quoteStep, hs']

/-- A key that is there is taken unless it comes twice. -/
theorem KeyFound.next (h : KeyFound env w t n key) :
    w.core.next (F := F) env.limits (env.rest w) =
      if w.core.isDuplicate key then .fail []
      else
        let c' := ((w.core.note key).move (2 + units (t.take n))).goto .expectColon
        Core.finish env.limits (n + 2) c' [c'.mark (.key key)] [] := by
  rw [next_key h.token h.state, Core.keyStep, h.found]
  simp only [h.text]

/-- It is too long for a buffer that is smaller. -/
theorem KeyFound.longKey (h : KeyFound env w t n key) {m : Nat} (hm : m < byteLen key) :
    LongKey (F := F) env.limits m w.core (env.rest w) [] :=
  ⟨_, _, key, .refl, ⟨⟨rfl, h.token.outside, h.token.noNumber⟩, h.state,
    ⟨t, n, h.token.rest, h.found, h.text⟩⟩, hm⟩

omit [Double F] in
/-- The quote that ends the key is in the input. -/
theorem AtToken.closing (h : AtToken env w quote t)
    (hf : keyFront env.limits.maxNameLength 0 t = .found n) :
    ∃ r, env.input.bytes.drop (w.consumed + 1 + n) = quote :: r ∧
      env.input.slice (w.consumed + 1) (w.consumed + 1 + n) = t.take n ∧
      Scanned (t.take n) ∧ w.consumed + 1 + n + 1 ≤ env.input.len := by
  have hdrop : env.input.bytes.drop (w.consumed + 1) = t := by
    rw [← List.drop_drop]
    exact congrArg (List.drop 1) h.rest
  obtain ⟨_, rfl, hr, -⟩ := keyFront_found _ hf
  obtain ⟨r, hr, hlt⟩ := rawLength_spec hr
  have hlen := h.length
  simp only [Nat.zero_add] at hr hlt hf ⊢
  refine ⟨r, ?_, ?_, ?_, by omega⟩
  · rw [← List.drop_drop, hdrop]
    conv_lhs => rw [hr]
    rw [List.drop_left' (by rw [List.length_take]; omega)]
  · rw [Spans.slice, Nat.add_sub_cancel_left, hdrop]
  · exact keyFront_scanned env.limits.maxNameLength (i := 0) (by rw [Nat.zero_add]; exact hf)

/-- The key is reported. -/
theorem reportKey_done (h : KeyFound env w t n key) (hi : w.Inv env.input) {chars : Text}
    (hfit : byteLen chars ≤ w.tok.chunkSize) (hk : byteLen key ≤ km) :
    Ensures (reportKey env.handler key (units (t.take n))) (w.keyRead n chars)
      (fun _ w' => w'.Inv env.input ∧ KeyDone km env w w')
      (fun e w' => w'.Inv env.input ∧ Broke km env w e w') := by
  obtain ⟨_, -, -, -, hlen⟩ := h.token.closing h.found
  have hinv : (w.keyRead n chars).Inv env.input := ⟨hlen, hfit, hi.depth_eq, hi.no_number⟩
  have hinv' : ((w.keyRead n chars).reported key (units (t.take n))).Inv env.input :=
    ⟨hlen, hfit, hi.depth_eq, hi.no_number⟩
  refine (reportKey_spec env.handler key _ _).mono ?_ ?_
  · rintro - w' ⟨hd, rfl⟩
    refine ⟨hinv', t, n, key, h, hd, rfl, rfl, ?_, rfl, hk⟩
    show w.consumed + 1 + n + 1 = w.consumed + (n + 2)
    omega
  · rintro e w' (⟨hd, rfl, m, rfl⟩ | ⟨hd, rfl, err, rfl, hr⟩)
    · exact ⟨hinv, .of_fail rfl rfl (by rw [h.next]; exact if_pos hd)⟩
    · refine ⟨hinv', .of_refused (e := .key key) rfl hk h.token.pending ?_ rfl rfl hr⟩
      rw [h.next, if_neg (by rw [Bool.not_eq_true]; exact hd)]
      exact Core.finish_out

omit [Double F] in
/-- The bytes of a key without escapes are those of its text. -/
theorem KeyFound.encode_eq (h : KeyFound env w t n key)
    (hp : ∀ b ∈ t.take n, isDelimiter b = false) : t.take n = encode key :=
  encode_of_decodeString hp h.text

/-- The buffer is made ready for a key. -/
def World.cleared (w : World F) : World F :=
  { w with tok := { w.tok with chars := [], charsCap := w.tok.chunkSize } }

omit [Double F] in
/-- The buffer is made ready and emptied. -/
theorem clear_spec (w : World F) {Q : Unit → World F → Prop} {E : Stop → World F → Prop}
    (h : Q () w.cleared) :
    Ensures (do ensureChars; clearChars) w Q E := by
  simp only [ensureChars, clearChars, modifyTok, ensures_bind, ensures_modify]
  by_cases hc : w.tok.charsCap = w.tok.chunkSize
  · rw [if_neg (by simpa using hc)]
    rwa [World.cleared, ← hc] at h
  · rwa [if_pos hc]

/-- The key that is next is decoded, unless it has no text or is too long. -/
theorem decodeKey_found (h : AtToken env w quote t) (hs : w.tok.state = .expectKey)
    (hf : keyFront env.limits.maxNameLength 0 t = .found n) (hi : w.Inv env.input)
    (hkm : w.tok.chunkSize ≤ km) :
    Ensures (decodeKey env.input (w.consumed + 1) (w.consumed + 1 + n)) w.cleared
      (fun total w' => ∃ key, KeyFound env w t n key ∧ total = units (t.take n) ∧
        w' = { w.cleared with tok := { w.cleared.tok with chars := key } } ∧
        byteLen key ≤ w.tok.chunkSize ∧ byteLen key ≤ km)
      (fun e w' => w'.Inv env.input ∧ Broke km env w e w') := by
  obtain ⟨r, hq, hslice, hsc, hlen⟩ := h.closing hf
  refine (decodeKey_spec (w := w.cleared) hq (Nat.le_add_right _ _) (by rw [hslice]; exact hsc)
    rfl).mono ?_ ?_
  · rintro total w' ⟨key, htext, rfl, rfl, hfit⟩
    rw [hslice] at htext ⊢
    exact ⟨key, ⟨h, hs, hf, htext⟩, rfl, rfl, hfit, hfit.trans hkm⟩
  · rintro e w' ⟨m, chars, rfl, rfl, hfit, hlong⟩
    rw [hslice] at hlong
    refine ⟨⟨hi.consumed_le, hfit, hi.depth_eq, hi.no_number⟩, ?_⟩
    cases htext : decodeString (t.take n) with
    | none =>
      refine .of_fail rfl rfl ?_
      rw [next_key h hs, Core.keyStep, hf]
      simp only [htext]
    | some key =>
      have hkey : KeyFound env w t n key := ⟨h, hs, hf, htext⟩
      exact ⟨rfl, _, [], [], rfl, by simp [World.cleared], by simp, .nil, List.nil_prefix,
        .longKey (hkey.longKey (hlong key htext)) rfl⟩

/-- The key that was decoded into the buffer is reported. -/
theorem reportChars_done (h : KeyFound env w t n key) (hi : w.Inv env.input)
    (hfit : byteLen key ≤ w.tok.chunkSize) (hk : byteLen key ≤ km) :
    Ensures (reportChars env (w.consumed + 1 + n) (units (t.take n)))
      { w.cleared with tok := { w.cleared.tok with chars := key } }
      (fun _ w' => w'.Inv env.input ∧ KeyDone km env w w')
      (fun e w' => w'.Inv env.input ∧ Broke km env w e w') := by
  unfold reportChars
  simp only [setConsumed, ensures_bind, ensures_modify, ensures_get]
  exact reportKey_done h hi hfit hk

/-! ## Interned keys -/

/-- The end of the part that is passed the symbol table. -/
theorem zoom_reported {k : Interner} {m : TokM F Unit} {w₁ : World F} (hk : k.Inv km)
    (h : Ensures m w₁ (fun _ w' => w'.Inv env.input ∧ KeyDone km env w w')
      (fun e w' => w'.Inv env.input ∧ Broke km env w e w')) :
    Ensures (zoom m : KeyM F Unit) (w₁, k)
      (fun _ s => s.1.Inv env.input ∧ s.2.Inv km ∧ KeyDone km env w s.1)
      (fun e s => s.1.Inv env.input ∧ s.2.Inv km ∧ Broke km env w e s.1) := by
  rw [ensures_zoom]
  exact h.mono (fun _ _ ⟨hi, hd⟩ => ⟨hi, hk, hd⟩) fun _ _ ⟨hi, hb⟩ => ⟨hi, hk, hb⟩

/-- An interned key is its text, and a key that is not is decoded and then interned. -/
theorem processInterned_spec {k : Interner} (h : AtToken env w quote t)
    (hs : w.tok.state = .expectKey)
    (hf : keyFront env.limits.maxNameLength 0 t = .found n) (hi : w.Inv env.input)
    (hk : k.Inv km) (hkm : w.tok.chunkSize ≤ km) (hp : ∀ b ∈ t.take n, isDelimiter b = false) :
    Ensures (processInterned env (w.consumed + 1) (w.consumed + 1 + n) (t.take n))
      (w.cleared, k)
      (fun _ s => s.1.Inv env.input ∧ s.2.Inv km ∧ KeyDone km env w s.1)
      (fun e s => s.1.Inv env.input ∧ s.2.Inv km ∧ Broke km env w e s.1) := by
  unfold processInterned
  simp only [modifyInterner, ensures_bind, ensures_modify, ensures_get]
  obtain ⟨r, hlookup, hmem⟩ := KeySymbolTable.lookup_spec hk.wf.toSized (t.take n)
    (KeySymbolTable.hash (t.take n))
  rw [hlookup]
  simp only [ensures_ofExcept_ok]
  cases r with
  | some found =>
    have hentry := hmem found rfl
    have hown : t.take n = encode found := hk.own _ hentry
    have hkey : KeyFound env w t n found := by
      refine ⟨h, hs, hf, ?_⟩
      rw [hown] at hp ⊢
      exact decodeString_encode hp
    have hunits : utf16Len found = units (t.take n) := by rw [utf16Len_eq, hown]
    simp only [ensures_bind, ensures_modify]
    rw [ensures_zoom, hunits]
    simp only [setConsumed, ensures_modify]
    refine zoom_reported (hk.of_table rfl) ?_
    exact reportKey_done hkey hi (Nat.zero_le _) (hk.fits _ hentry)
  | none =>
    simp only [ensures_bind, ensures_zoom]
    refine (decodeKey_found h hs hf hi hkm).mono ?_ ?_
    · rintro total w₁ ⟨key, hkey, rfl, rfl, hfit, hle⟩
      obtain ⟨table, hput, hinv⟩ := Interner.Inv.put
        (k := { k with attempts := k.attempts + 1 }) (hk.of_table rfl) hle
        (KeySymbolTable.hash (t.take n))
      rw [← hkey.encode_eq hp] at hput
      simp only [ensures_get, hput, ensures_ofExcept_ok, ensures_modify]
      have := zoom_reported (hinv { k with
          attempts := k.attempts + 1
          table := table
          disabled := k.disabled ||
            (k.hits == 0 && keyInternDisableThreshold ≤ k.attempts + 1) } rfl)
        (reportChars_done hkey hi hfit hle)
      rw [ensures_zoom] at this
      exact this
    · rintro e w' ⟨hi', hb⟩
      exact ⟨hi', hk.of_table rfl, hb⟩

/-- **`process_key`** reports the key that is next, whichever way it came by its text. -/
theorem processKey_spec {k : Interner} (h : AtToken env w quote t)
    (hs : w.tok.state = .expectKey) (hi : w.Inv env.input) (hk : k.Inv km)
    (hkm : w.tok.chunkSize ≤ km) :
    Ensures (processKey env) (w, k)
      (fun complete s => s.1.Inv env.input ∧ s.2.Inv km ∧
        if complete then KeyDone km env w s.1
        else s.1 = w ∧ w.core.next (F := F) env.limits (env.rest w) = .need)
      (fun e s => s.1.Inv env.input ∧ s.2.Inv km ∧ Broke km env w e s.1) := by
  have hdrop : env.input.bytes.drop (w.consumed + 1) = t := by
    rw [← List.drop_drop]
    exact congrArg (List.drop 1) h.rest
  have hscan := scanKey_spec env.input env.limits.maxNameLength (w.consumed + 1)
  rw [hdrop] at hscan
  have hnext := next_key h hs
  unfold processKey
  simp only [ensures_bind, ensures_get]
  -- the closing quote is not there, there is none within the limit, or it is `n` bytes on
  cases hf : keyFront env.limits.maxNameLength 0 t with
  | need =>
    rw [hf] at hscan
    rw [Core.keyStep, hf] at hnext
    rw [hscan]
    simp only [ensures_ofExcept_ok, ensures_pure, Bool.false_eq_true, if_false]
    exact ⟨hi, hk, trivial, hnext⟩
  | bad =>
    rw [hf] at hscan
    rw [Core.keyStep, hf] at hnext
    obtain ⟨m, hm⟩ := hscan
    rw [hm]
    exact ⟨hi, hk, .of_fail rfl rfl hnext⟩
  | found n =>
    rw [hf] at hscan
    obtain ⟨esc, hscan, hplain⟩ := hscan
    obtain ⟨r, hq, hslice, hsc, hlen⟩ := h.closing hf
    rw [hscan]
    simp only [ensures_ofExcept_ok, ensures_bind]
    rw [ensures_zoom]
    have hclear : ∀ {Q : Unit → World F → Prop} {E : Stop → World F → Prop}, Q () w.cleared →
        Ensures ensureChars w (fun _ w₁ => Ensures clearChars w₁ Q E) E := by
      intro Q E hQ
      have := clear_spec w hQ (E := E)
      rwa [ensures_bind] at this
    simp only [ensures_zoom]
    refine hclear ?_
    cases hint : (if (!esc && !k.disabled && decide (w.consumed + 1 + n - (w.consumed + 1) ≤
        maxKeyBytes)) = true then env.input.contiguous (w.consumed + 1) (w.consumed + 1 + n)
        else none) with
    | some bytes =>
      have hesc : esc = false := by
        cases esc with
        | false => rfl
        | true => simp at hint
      have hbytes : bytes = t.take n := by
        split at hint
        · rw [env.input.contiguous_eq _ _ _ hint, hdrop, Nat.add_sub_cancel_left]
        · cases hint
      subst hbytes
      simp only [ensures_bind, ensures_pure, if_true]
      exact processInterned_spec h hs hf hi hk hkm (hplain hesc)
    | none =>
      simp only [ensures_bind, ensures_pure, if_true]
      rw [ensures_zoom]
      refine (decodeKey_found h hs hf hi hkm).mono ?_ ?_
      · rintro total w₁ ⟨key, hkey, rfl, rfl, hfit, hle⟩
        exact zoom_reported hk (reportChars_done hkey hi hfit hle)
      · rintro e w' ⟨hi', hb⟩
        exact ⟨hi', hk, hb⟩

end Found

end RJsonParser
