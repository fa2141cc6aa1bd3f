import RJsonParser.Properties.Refine

/-!
# `continue_string` refines the machine

* `steps_content` / `fails_of_long` / `fails_of_bad` — what the machine does with a plain run
* `deliverRun_refines`, `endString_refines`, `pushEscape_refines` — the parts of the loop
* `continueString_refines` — a string value goes on to its closing quote, or to where the input
  ends, or ends in a character or an escape sequence that is cut off
-/

namespace RJsonParser

open Infra Infra.Utf8

variable {F : Type} [Double F] {km : Nat}

/-! ## The machine on a plain run -/

section Machine

variable {limits : ParserLimits} {c : Core}

theorem next_string (hb : c.bomChecked = true) (hs : c.inString = true) (b : UInt8)
    (l : List UInt8) : c.next (F := F) limits (b :: l) = c.stringStep limits b l := by
  simp [Core.next, hb, hs]

omit [Double F] in
theorem stringStep_plain {b : UInt8} {l : List UInt8} (h : isDelimiter b = false) :
    c.stringStep (F := F) limits b l =
      match front (b :: l) with
      | .bad => .fail []
      | .char ch n => c.charStep limits ch n (utf16Size ch)
      | .need =>
        if exceeds limits.maxStringLength (c.stringBytes + (b :: l).length) then .fail []
        else .need := by
  obtain ⟨hq, hs, hc⟩ := not_isDelimiter.mp h
  refine (if_neg hq).trans ((if_neg hs).trans ((if_neg hc).trans ?_))
  cases front (b :: l) <;> rfl

theorem exceeds_false_mono {limit : Option Nat} {m n : Nat} (h : exceeds limit n = false)
    (hmn : m ≤ n) : exceeds limit m = false := by
  by_contra hm
  rw [exceeds_mono (by simpa using hm) hmn] at h
  cases h

/-- The machine takes plain text character by character. -/
theorem steps_content (hb : c.bomChecked = true) (hs : c.inString = true) {cs : Text}
    {r : List UInt8} (hp : ∀ b ∈ encode cs, isDelimiter b = false)
    (hl : exceeds limits.maxStringLength (c.stringBytes + byteLen cs) = false) :
    (machine F limits).Steps c (encode cs ++ r) (contentMarks cs)
      (c.inContent (byteLen cs) (units (encode cs))) r := by
  induction cs generalizing c with
  | nil => exact .refl
  | cons ch cs ih =>
    rw [byteLen_cons] at hl
    simp only [encode_cons, List.mem_append] at hp
    obtain ⟨b, l, hbl⟩ := exists_encodeChar ch
    have hf : front (b :: (l ++ (encode cs ++ r))) = .char ch ch.utf8Size := by
      rw [← List.cons_append, ← hbl]; exact front_encode ch _
    have hstep : c.next (F := F) limits (encode (ch :: cs) ++ r) =
        .step ch.utf8Size (c.inContent ch.utf8Size (utf16Size ch)) (contentMarks [ch]) := by
      rw [encode_cons, List.append_assoc, hbl, List.cons_append, next_string hb hs,
        stringStep_plain (hp b (.inl (by simp [hbl]))), hf]
      simp only [Core.charStep]
      rw [if_neg (by simpa using exceeds_false_mono hl (by omega))]
      rfl
    have htail := ih (c := c.inContent ch.utf8Size (utf16Size ch)) hb hs
      (fun b hb => hp b (.inr hb)) (by
        show exceeds limits.maxStringLength (c.stringBytes + ch.utf8Size + byteLen cs) = false
        rwa [Nat.add_assoc])
    have hdrop : (encode (ch :: cs) ++ r).drop ch.utf8Size = encode cs ++ r := by
      rw [encode_cons, List.append_assoc, ← String.length_utf8EncodeChar, List.drop_left]
    have := Machine.Steps.head (M := machine F limits) hstep (by rw [hdrop]; exact htail)
    have hcore : (c.inContent ch.utf8Size (utf16Size ch)).inContent (byteLen cs)
        (units (encode cs)) = c.inContent (byteLen (ch :: cs)) (units (encode (ch :: cs))) := by
      simp [Core.inContent, Core.move, units_encodeChar, Nat.add_assoc]
    rw [hcore] at this
    exact this

/-- A plain run that is too long is not taken to its end. -/
theorem fails_of_long (hb : c.bomChecked = true) (hs : c.inString = true) (x y : List UInt8)
    (hx : x ≠ []) (hp : ∀ b ∈ x, isDelimiter b = false)
    (hy : ∀ b l, y = b :: l → isDelimiter b = true)
    (hl : exceeds limits.maxStringLength (c.stringBytes + x.length) = true) :
    ∃ cs, (machine F limits).Fails c (x ++ y) (contentMarks cs) := by
  induction hn : x.length using Nat.strongRecOn generalizing c x with
  | ind n ih =>
    obtain ⟨b, x, rfl⟩ := List.exists_cons_of_ne_nil hx
    have hnext : c.next (F := F) limits (b :: x ++ y) = _ :=
      (next_string hb hs b (x ++ y)).trans (stringStep_plain (hp b List.mem_cons_self))
    have hcont : ∀ b' ∈ y, ∀ l, y = b' :: l → isCont b' = false := by
      intro b' _ l h
      have hd := hy b' l h
      by_contra hc
      have := isCont_iff.mp (by simpa using hc)
      unfold isDelimiter at hd
      simp only [Bool.or_eq_true, decide_eq_true_eq] at hd
      rcases hd with (h | h) | h
      · rw [h] at this; have := quote_lt; omega
      · rw [h] at this; have := backslash_lt; omega
      · rw [UInt8.lt_iff_toNat_lt] at h; simp at h; omega
    cases hf : front (b :: (x ++ y)) with
    | bad =>
      rw [hf] at hnext
      exact ⟨[], fails_of_next hnext⟩
    | need =>
      rw [hf] at hnext
      -- all that is there belongs to the run
      have hynil : y = [] := by
        obtain hnil | ⟨b', rest, heq, -, -, hall⟩ := front_eq_need hf
        · cases hnil
        · cases heq
          cases y with
          | nil => rfl
          | cons b' l =>
            have h1 := hall b' (by simp)
            rw [hcont b' List.mem_cons_self l rfl] at h1
            cases h1
      subst hynil
      simp only [List.append_nil] at hnext
      rw [if_pos hl] at hnext
      exact ⟨[], by rw [List.append_nil]; exact fails_of_next hnext⟩
    | char ch k =>
      rw [hf] at hnext
      simp only [Core.charStep] at hnext
      split at hnext
      · exact ⟨[], fails_of_next hnext⟩
      · next hlong =>
        obtain ⟨hk0, -, -⟩ := front_char_le hf
        have hkx : k ≤ (b :: x).length := by
          by_contra hlt
          have hmem := front_char_cont hf
          have hyne : y ≠ [] := by
            rintro rfl
            have := (front_char_le hf).2.2
            simp at this hlt
            omega
          obtain ⟨b', l, rfl⟩ := List.exists_cons_of_ne_nil hyne
          have := hmem b' (by
            rw [List.take_append, List.mem_append]
            right
            obtain ⟨j, hj⟩ : ∃ j, k - 1 - x.length = j + 1 :=
              ⟨k - 2 - x.length, by simp at hlt; omega⟩
            simp [hj])
          rw [hcont b' List.mem_cons_self l rfl] at this
          cases this
        have hlen : ((b :: x).drop k).length = (b :: x).length - k := List.length_drop
        by_cases hnil : (b :: x).drop k = []
        · rw [hnil] at hlen
          have : k = (b :: x).length := by simp at hlen hkx ⊢; omega
          rw [this] at hlong
          exact absurd hl hlong
        · obtain ⟨cs, hfail⟩ := ih (n - k) (by omega) (c := c.inContent k (utf16Size ch)) hb hs
            ((b :: x).drop k) hnil (fun b hb => hp b (List.mem_of_mem_drop hb))
            (by
              show exceeds _ (c.stringBytes + k + _) = true
              rw [hlen]
              refine exceeds_mono hl ?_
              omega)
            (by rw [hlen, hn])
          refine ⟨ch :: cs, ?_⟩
          have h1 := steps_of_next hnext
          rw [List.drop_append_of_le_length hkx] at h1
          exact h1.trans_fails hfail

/-- The machine fails where plain text is followed by bytes that are no character. -/
theorem fails_of_bad (hb : c.bomChecked = true) (hs : c.inString = true) {cs : Text}
    {b : UInt8} {r : List UInt8} (hp : ∀ x ∈ encode cs ++ [b], isDelimiter x = false)
    (hbad : front (b :: r) = .bad)
    (hl : exceeds limits.maxStringLength (c.stringBytes + byteLen cs) = false) :
    (machine F limits).Fails c (encode cs ++ b :: r) (contentMarks cs) := by
  have h := steps_content (F := F) hb hs (r := b :: r) (fun x hx => hp x (by simp [hx])) hl
  have hf : (machine F limits).Fails (c.inContent (byteLen cs) (units (encode cs))) (b :: r)
      [] := by
    refine fails_of_next ?_
    refine (next_string (F := F) (c := c.inContent _ _) hb hs b r).trans ?_
    rw [stringStep_plain (hp b (by simp)), hbad]
  simpa using h.trans_fails hf

end Machine

/-! ## A plain run -/

/-- In a string value, with the buffer that is used for it. -/
structure InString (w : World F) : Prop where
  inString : w.tok.inString = true
  cap : w.tok.charsCap = w.tok.chunkSize

omit [Double F] in
theorem InString.pending {w : World F} (h : InString w) : w.pending = w.tok.chars := by
  simp [World.pending, h.inString, h.cap]

/-- The run of plain bytes at the front. -/
structure PlainRun (env : Env F) (w : World F) (runEnd : Nat) : Prop where
  le : w.consumed ≤ runEnd
  stop : RunEnd env.input runEnd
  plain : ∀ b ∈ (env.rest w).take (runEnd - w.consumed), isDelimiter b = false

omit [Double F] in
theorem PlainRun.split {env : Env F} {w : World F} {runEnd : Nat} (h : PlainRun env w runEnd) :
    env.rest w = (env.rest w).take (runEnd - w.consumed) ++ env.input.bytes.drop runEnd := by
  have hd : (env.rest w).drop (runEnd - w.consumed) = env.input.bytes.drop runEnd := by
    rw [Env.rest, List.drop_drop, Nat.add_sub_of_le h.le]
  rw [← hd, List.take_append_drop]

omit [Double F] in
theorem PlainRun.length {env : Env F} {w : World F} {runEnd : Nat} (h : PlainRun env w runEnd) :
    ((env.rest w).take (runEnd - w.consumed)).length = runEnd - w.consumed := by
  have := h.stop.le
  unfold Spans.len at this
  rw [List.length_take, Env.rest, List.length_drop]
  omega

omit [Double F] in
/-- Text at the start of the run is plain. -/
theorem PlainRun.plain_text {env : Env F} {w : World F} {runEnd : Nat} {cs : Text}
    (h : PlainRun env w runEnd) (ht : TextAt env.input w.consumed cs)
    (hle : w.consumed + byteLen cs ≤ runEnd) : ∀ b ∈ encode cs, isDelimiter b = false := by
  intro b hb
  refine h.plain b ?_
  rw [Env.rest, ht, List.take_append, List.take_of_length_le (by rw [length_encode]; omega)]
  exact List.mem_append_left _ hb

omit [Double F] in
/-- A byte in the run is plain. -/
theorem PlainRun.plain_at {env : Env F} {w : World F} {runEnd p : Nat} {b : UInt8}
    {l : List UInt8} (h : PlainRun env w runEnd) (hp : w.consumed ≤ p) (hlt : p < runEnd)
    (hd : env.input.bytes.drop p = b :: l) : isDelimiter b = false := by
  refine h.plain b ?_
  have hsplit : env.rest w = (env.rest w).take (p - w.consumed) ++ b :: l := by
    have : (env.rest w).drop (p - w.consumed) = b :: l := by
      rw [Env.rest, List.drop_drop, Nat.add_sub_of_le hp, hd]
    rw [← this, List.take_append_drop]
  rw [hsplit, List.take_append, List.mem_append]
  right
  have hle : ((env.rest w).take (p - w.consumed)).length ≤ p - w.consumed :=
    List.length_take_le _ _
  obtain ⟨j, hj⟩ : ∃ j, runEnd - w.consumed - ((env.rest w).take (p - w.consumed)).length = j + 1 :=
    ⟨runEnd - w.consumed - ((env.rest w).take (p - w.consumed)).length - 1, by omega⟩
  rw [hj]
  simp

omit [Double F] in
theorem contentCalls_piece {w : World F} {ps : List Text}
    (h : ∀ s ∈ ps, s ≠ [] ∧ byteLen s ≤ w.tok.chunkSize) :
    ∀ call ∈ contentCalls (F := F) w.locator ps, call.Piece w.tok.chunkSize km := by
  intro call hc
  obtain ⟨s, hs, rfl⟩ := List.mem_map.mp hc
  exact h s hs

/-- The run is over the limit, so it is not looked at. -/
theorem broke_of_long {env : Env F} {w : World F} {runEnd limit : Nat} (hs : InString w)
    (hp : PlainRun env w runEnd) (hlt : w.consumed < runEnd)
    (hlim : env.limits.maxStringLength = some limit)
    (hlong : limit < w.tok.stringBytes + (runEnd - w.consumed)) :
    Broke km env w (.err (stringTooLong limit)) w := by
  have hne : (env.rest w).take (runEnd - w.consumed) ≠ [] := by
    rw [← List.length_pos_iff, hp.length]; omega
  obtain ⟨cs, hf⟩ := fails_of_long (F := F) (c := w.core) rfl hs.inString
    _ (env.input.bytes.drop runEnd) hne hp.plain hp.stop.delimiter
    (by rw [hlim, hp.length, exceeds_some]; exact decide_eq_true hlong)
  rw [← hp.split] at hf
  refine ⟨rfl, _, [], contentMarks cs, rfl, by simp, by simp, hf.emits, List.nil_prefix, ?_⟩
  exact .failed hf (by simp)

/-- The content of a run, taken by the machine. -/
theorem steps_run {env : Env F} {w : World F} {runEnd : Nat} {cs : Text} (hs : InString w)
    (hp : PlainRun env w runEnd) (ht : TextAt env.input w.consumed cs)
    (hle : w.consumed + byteLen cs ≤ runEnd)
    (hlim : exceeds env.limits.maxStringLength
      (w.tok.stringBytes + (runEnd - w.consumed)) = false) :
    env.reference.Steps w.core (env.rest w) (contentMarks cs)
      (w.core.inContent (byteLen cs) (units (encode cs)))
      (env.input.bytes.drop (w.consumed + byteLen cs)) := by
  have h := steps_content (F := F) (c := w.core) rfl hs.inString
    (r := env.input.bytes.drop (w.consumed + byteLen cs)) (hp.plain_text ht hle)
    (exceeds_false_mono hlim (by show _ + _ ≤ _; show w.tok.stringBytes + _ ≤ _; omega))
  rwa [← ht] at h

/-- What a run that stopped comes to. -/
theorem broke_of_runStop {env : Env F} {w w' : World F} {runEnd : Nat} {e : Stop} {cs : Text}
    (hs : InString w) (hp : PlainRun env w runEnd)
    (hlim : exceeds env.limits.maxStringLength
      (w.tok.stringBytes + (runEnd - w.consumed)) = false)
    (h : RunStop (some env.handler) env.input w.consumed runEnd w w' e cs) :
    Broke km env w e w' := by
  cases h with
  | refused ht hle href =>
    obtain ⟨handler, ps, chars, err, heq, he, hr, hne, rfl, hpiece, htext⟩ := href
    cases heq
    refine ⟨rfl, err, contentCalls w.locator (ps ++ [chars]), contentMarks cs, he, rfl,
      contentCalls_piece hpiece, (steps_run hs hp ht hle hlim).emits, ?_, ?_⟩
    · rw [marks_contentCalls, htext, hs.pending, contentMarks_append]
    · exact .refused (by simp [contentCalls]) hr
  | @malformed ps chars ht hlt hpush he hbad =>
    obtain ⟨b, l, hd⟩ : ∃ b l, env.input.bytes.drop (w.consumed + byteLen cs) = b :: l := by
      refine List.exists_cons_of_ne_nil fun hnil => ?_
      rw [hnil] at hbad
      cases hbad
    have hplain := hp.plain_at (by omega) hlt hd
    rw [hd] at hbad
    have hf : env.reference.Fails w.core (env.rest w) (contentMarks cs) := by
      rw [Env.rest, ht, hd]
      refine fails_of_bad (F := F) rfl hs.inString ?_ hbad
        (exceeds_false_mono hlim (by show w.tok.stringBytes + _ ≤ _; omega))
      intro x hx
      rcases List.mem_append.mp hx with hx | hx
      · exact hp.plain_text ht (by omega) x hx
      · rw [List.mem_singleton.mp hx]; exact hplain
    refine ⟨by rw [hpush.eq]; rfl, _, contentCalls w.locator ps, contentMarks cs, he, ?_, ?_,
      hf.emits, ?_, ?_⟩
    · rw [hpush.eq]; rfl
    · exact contentCalls_piece hpush.piece
    · rw [marks_contentCalls, hs.pending, ← contentMarks_append, ← hpush.text,
        contentMarks_append]
      exact List.prefix_append _ _
    · exact .failed hf (by rw [marks_contentCalls]; simp)
  | tooLong ht hlt hnone => cases hnone

/-- After a run of which `cs` was delivered or is in the buffer. -/
theorem ran_of_runDone {env : Env F} {w w₁ w' : World F} {runEnd next k : Nat} {cs : Text}
    {ps : List Text} {chars : Text} (hs : InString w) (hp : PlainRun env w runEnd)
    (hlim : exceeds env.limits.maxStringLength
      (w.tok.stringBytes + (runEnd - w.consumed)) = false)
    (h : RunDone (some env.handler) env.input w.consumed runEnd w w₁ next k cs ps chars)
    (hchunk : w'.tok.chunkSize = w.tok.chunkSize) (hcalls : w'.calls = w₁.calls)
    (hpend : w'.pending = chars) (hcons : w'.consumed = next)
    (hcore : w'.core = w.core.inContent (next - w.consumed) k) :
    Ran km env w w' (contentCalls w.locator ps) (contentMarks cs) where
  chunkSize := hchunk
  calls := by rw [hcalls, h.pushed.eq]; rfl
  piece := contentCalls_piece h.pushed.piece
  marks_eq := by
    rw [marks_contentCalls, hs.pending, hpend, ← contentMarks_append, ← contentMarks_append,
      h.pushed.text]
  steps := by
    have hst := steps_run hs hp h.text (by rw [← h.next_eq]; exact h.next_le) hlim
    rwa [hcore, Env.rest, Env.rest, hcons, h.next_eq, h.units_eq, Nat.add_sub_cancel_left]

omit [Double F] in
theorem checkLimit_spec (limit : Option Nat) (n : Nat) (message : Nat → String) (w : World F) :
    Ensures (checkLimit limit n message) w (fun _ w' => w' = w ∧ exceeds limit n = false)
      (fun e w' => w' = w ∧ ∃ max, limit = some max ∧ max < n ∧ e = .err (message max)) := by
  unfold checkLimit
  cases limit with
  | none => exact ⟨rfl, rfl⟩
  | some max =>
    by_cases h : max < n
    · simp only [h, if_true]; exact ⟨rfl, max, rfl, h, rfl⟩
    · simp only [h, if_false]; exact ⟨rfl, by simpa using h⟩

/-- Delivering what is in the buffer does not move the machine. -/
theorem flushChars_refines {env : Env F} {w : World F} (hi : w.Inv env.input) (hs : InString w) :
    Refines km env w (flushChars env.handler) fun _ w' =>
      w'.tok.chars = [] ∧ InString w' ∧ w'.consumed = w.consumed ∧ w'.core = w.core := by
  have hfit : byteLen w.tok.chars ≤ w.tok.chunkSize := by rw [← hs.cap]; exact hi.chars_le
  refine (flushChars_spec env.handler w hfit).mono ?_ ?_
  · rintro - w' ⟨ps, hpush⟩
    have heq := hpush.eq
    subst heq
    refine ⟨⟨hi.consumed_le, Nat.zero_le _, hi.depth_eq, hi.no_number⟩,
      ⟨contentCalls w.locator ps, [], rfl, rfl, contentCalls_piece hpush.piece, ?_, .refl⟩,
      rfl, ⟨hs.inString, hs.cap⟩, rfl, rfl⟩
    have ht := hpush.text
    rw [List.append_nil, List.append_nil] at ht
    have hpend : (w.buffered ps []).pending = [] := by unfold World.pending; split <;> rfl
    rw [marks_contentCalls, hs.pending, ht, hpend]
    simp
  · rintro e w' ⟨handler, ps, chars, err, heq, he, hr, hne, rfl, hpiece, htext⟩
    cases heq
    have hchars : byteLen chars ≤ w.tok.charsCap := by
      rw [hs.cap]; exact (hpiece chars (by simp)).2
    refine ⟨⟨hi.consumed_le, hchars, hi.depth_eq, hi.no_number⟩,
      rfl, err, contentCalls w.locator (ps ++ [chars]), [], he, rfl,
        contentCalls_piece hpiece, .nil,
      ?_, .refused (by simp [contentCalls]) hr⟩
    rw [marks_contentCalls, htext, hs.pending, List.append_nil, List.append_nil]

theorem deliverRun_refines {env : Env F} {w : World F} {runEnd : Nat} (hi : w.Inv env.input)
    (hs : InString w) (hp : PlainRun env w runEnd) :
    Refines km env w (deliverRun env w.consumed runEnd) fun cut w' =>
      InString w' ∧ w.consumed ≤ w'.consumed ∧
        if cut then w'.tok.chars = [] ∧ CutOff (env.rest w') else w'.consumed = runEnd := by
  have hfit : byteLen w.tok.chars ≤ w.tok.chunkSize := by rw [← hs.cap]; exact hi.chars_le
  unfold deliverRun
  by_cases hlt : w.consumed < runEnd
  · rw [if_pos hlt]
    unfold Refines
    simp only [ensures_bind, ensures_get]
    refine (checkLimit_spec _ _ _ w).mono ?_ ?_
    · rintro - w' ⟨heq, hlim⟩
      subst heq
      refine (decodeRun_spec (some env.handler) env.input hp.stop hp.le w' hfit).mono ?_ ?_
      · rintro ⟨next, k⟩ w₁ ⟨cs, ps, chars, hd⟩
        replace hd : RunDone (some env.handler) env.input w'.consumed runEnd w' w₁ next k cs ps
          chars := hd
        simp only [modifyTok, addColumn, setConsumed, ensures_modify]
        have heq := hd.pushed.eq
        have hnext := hd.next_le
        have hge : w'.consumed ≤ next := by rw [hd.next_eq]; omega
        subst heq
        -- `w₂` is where the run is left
        generalize hw₂ : ({ w'.buffered ps chars with
            tok := { (w'.buffered ps chars).tok with
              stringBytes := (w'.buffered ps chars).tok.stringBytes + (next - w'.consumed) }
            locator := (w'.buffered ps chars).locator.addColumn k
            consumed := next } : World F) = w₂
        have hs' : InString w₂ := by rw [← hw₂]; exact ⟨hs.inString, hs.cap⟩
        have hran : Ran km env w' w₂ (contentCalls w'.locator ps) (contentMarks cs) := by
          refine ran_of_runDone hs hp hlim hd ?_ ?_ ?_ ?_ ?_
          · rw [← hw₂]; rfl
          · rw [← hw₂]
          · rw [hs'.pending, ← hw₂]; rfl
          · rw [← hw₂]
          · rw [← hw₂]; rfl
        have hinv : w₂.Inv env.input := by
          rw [← hw₂]
          refine ⟨le_trans hnext hp.stop.le, ?_, hi.depth_eq, hi.no_number⟩
          show byteLen chars ≤ w'.tok.charsCap
          rw [hs.cap]
          exact hd.pushed.fits
        have hcons : w₂.consumed = next := by rw [← hw₂]
        by_cases hcut : next < runEnd
        · simp only [hcut, if_true, ensures_bind]
          have hflush : Refines km env w₂ (flushChars env.handler) _ := flushChars_refines hinv hs'
          refine Ensures.mono hflush ?_ ?_
          · rintro - w₃ ⟨hi₃, ⟨n₃, os₃, hr₃⟩, hc₃, hs₃, hcons₃, -⟩
            rw [hcons] at hcons₃
            simp only [ensures_pure, if_true]
            refine ⟨hi₃, ⟨_, _, hran.trans hr₃⟩, hs₃, by rw [hcons₃]; exact hge, hc₃, ?_⟩
            rw [Env.rest, hcons₃]
            exact hd.rest.resolve_left (by show next ≠ runEnd; omega)
          · rintro e w₃ ⟨hi₃, hb⟩
            exact ⟨hi₃, hb.prepend hran⟩
        · simp only [hcut, if_false, ensures_pure]
          refine ⟨hinv, ⟨_, _, hran⟩, hs', by rw [hcons]; exact hge, ?_⟩
          simp only [Bool.false_eq_true, if_false, hcons]
          omega
      · rintro e w₁ ⟨cs, hstop⟩
        refine ⟨?_, broke_of_runStop hs hp hlim hstop⟩
        cases hstop with
        | refused ht hle href =>
          obtain ⟨handler, ps, chars, err, heq, -, -, -, rfl, hpiece, -⟩ := href
          exact ⟨hi.consumed_le, by
            show byteLen chars ≤ w'.tok.charsCap
            rw [hs.cap]; exact (hpiece chars (by simp)).2, hi.depth_eq, hi.no_number⟩
        | malformed ht hlt hpush he hbad =>
          rw [hpush.eq]
          exact ⟨hi.consumed_le, by
            have := hpush.fits; rw [← hs.cap] at this; exact this, hi.depth_eq, hi.no_number⟩
        | tooLong ht hlt hnone => cases hnone
    · rintro e w' ⟨heq, max, hlim, hlong, rfl⟩
      subst heq
      exact ⟨hi, broke_of_long hs hp hlt hlim hlong⟩
  · rw [if_neg hlt]
    refine .pure hi ⟨hs, le_rfl, ?_⟩
    have := hp.le
    simp only [Bool.false_eq_true, if_false]
    omega

/-! ## The end of a string -/

theorem next_quote {limits : ParserLimits} {c : Core} (hb : c.bomChecked = true)
    (hs : c.inString = true) (l : List UInt8) :
    c.next (F := F) limits (quote :: l) = .step 1 c.endString
      [c.endString.mark .endStringValue] := by
  rw [next_string hb hs]
  simp [Core.stringStep]

theorem endString_refines {env : Env F} {w : World F} {l : List UInt8} (hi : w.Inv env.input)
    (hs : InString w) (hl : env.rest w = quote :: l) :
    Refines km env w (endString env w.consumed) fun _ w' =>
      w'.tok.inString = false ∧ w'.tok.number.stage = .none ∧ w'.consumed = w.consumed + 1 := by
  unfold endString
  refine (flushChars_refines hi hs).bind ?_
  rintro - w₁ hi₁ ⟨hchars, hs₁, hcons, hcore⟩
  have hrest : env.rest w₁ = quote :: l := by rw [← hl, Env.rest, Env.rest, hcons]
  have hlt : w₁.consumed + 1 ≤ env.input.len := by
    have := congrArg List.length hrest
    rw [Env.rest, List.length_drop, List.length_cons] at this
    unfold Spans.len
    omega
  unfold Refines
  simp only [setConsumed, addColumn, modifyTok, ensures_bind, ensures_modify]
  rw [hcons] at hlt
  refine callback_refines (w := w₁) (e := .endStringValue) (n := 1) rfl trivial ?_ ?_ ?_ ?_
    ?_ ?_ ?_ ?_
  · exact ⟨hlt, hi₁.chars_le, hi₁.depth_eq, by rintro ⟨⟩⟩
  · rw [hs₁.pending, hchars]
  · rw [hrest, next_quote (F := F) (c := w₁.core) rfl hs₁.inString]
    rfl
  · rw [hcons]
  · rfl
  · rfl
  · rfl
  · intro w' ht hc
    rw [ht, hc]
    exact ⟨rfl, hi₁.no_number hs₁.inString, rfl⟩

/-! ## Escape sequences -/

theorem next_backslash (limits : ParserLimits) {c : Core} (hb : c.bomChecked = true)
    (hs : c.inString = true) (l : List UInt8) :
    c.next (F := F) limits (backslash :: l) =
      match resolve (backslash :: l) with
      | .error _ => .fail []
      | .ok none => .need
      | .ok (some (ch, n)) => c.charStep limits ch n n := by
  refine (next_string hb hs _ _).trans ((if_neg (by decide)).trans ((if_pos rfl).trans ?_))
  cases resolve (backslash :: l) with
  | error e => rfl
  | ok r => cases r <;> rfl

theorem pushEscape_refines {env : Env F} {w : World F} {l : List UInt8} {ch : Char} {n : Nat}
    (hi : w.Inv env.input) (hs : InString w) (hl : env.rest w = backslash :: l)
    (hr : resolve (backslash :: l) = .ok (some (ch, n))) :
    Refines km env w (pushEscape env w.consumed ch n) fun _ w' =>
      InString w' ∧ w'.consumed = w.consumed + n := by
  have hfit : byteLen w.tok.chars ≤ w.tok.chunkSize := by rw [← hs.cap]; exact hi.chars_le
  have hnext : w.core.next (F := F) env.limits (env.rest w) =
      w.core.charStep env.limits ch n n := by
    rw [hl, next_backslash (F := F) _ (c := w.core) rfl hs.inString, hr]
  have hn : w.consumed + n ≤ env.input.len := by
    have h1 := (resolve_length hr).2.2
    rw [← hl, Env.rest, List.length_drop] at h1
    have := (resolve_length hr).1
    unfold Spans.len
    omega
  have h4 : ch.utf8Size ≤ minDecodeRoom := le_trans ch.utf8Size_le_four (by decide)
  unfold pushEscape Refines
  simp only [ensures_bind]
  -- the character goes into the buffer, which is delivered first if it has no room
  refine (ensureFree_spec (some env.handler) _ h4 w hfit).mono ?_ ?_
  · rintro - w₁ ⟨ps, chars, hpush, hroom⟩
    have heq := hpush.eq
    subst heq
    have htext := hpush.text
    rw [List.append_nil] at htext
    simp only [pushStr, setConsumed, addColumn, modifyTok, ensures_modify, ensures_get]
    refine (checkLimit_spec _ _ _ _).mono ?_ ?_
    · rintro - w' ⟨rfl, hlim⟩
      have hchars : byteLen (chars ++ [ch]) ≤ w.tok.charsCap := by
        rw [hs.cap]; simpa using hroom
      refine ⟨⟨hn, hchars, hi.depth_eq, hi.no_number⟩,
        ⟨contentCalls w.locator ps, contentMarks [ch], ?_⟩, ⟨hs.inString, hs.cap⟩, rfl⟩
      refine .of_step (n := n) ?_ rfl rfl rfl (contentCalls_piece hpush.piece) ?_
      · rw [hnext, Core.charStep, if_neg (by rw [Bool.not_eq_true]; exact hlim)]
        rfl
      · have hpend : World.pending { w.buffered ps chars with
            tok := { (w.buffered ps chars).tok with
              chars := (w.buffered ps chars).tok.chars ++ [ch]
              stringBytes := (w.buffered ps chars).tok.stringBytes + n }
            consumed := w.consumed + n
            locator := (w.buffered ps chars).locator.addColumn n } = chars ++ [ch] :=
          InString.pending ⟨hs.inString, hs.cap⟩
        rw [hpend, marks_contentCalls, hs.pending, ← htext]
        simp
    -- the limit is checked when the character is in the buffer, and the machine fails there too
    · rintro e w' ⟨rfl, max, hmax, hlong, rfl⟩
      have hchars : byteLen (chars ++ [ch]) ≤ w.tok.charsCap := by
        rw [hs.cap]; simpa using hroom
      have hfail : w.core.next (F := F) env.limits (env.rest w) = .fail [] := by
        rw [hnext, Core.charStep, if_pos]
        rw [hmax, exceeds_some]
        exact decide_eq_true hlong
      refine ⟨⟨hn, hchars, hi.depth_eq, hi.no_number⟩, rfl, _, contentCalls w.locator ps,
        [], rfl, rfl, contentCalls_piece hpush.piece, .nil, ?_, .failed (fails_of_next hfail) ?_⟩
      · rw [marks_contentCalls, hs.pending, ← htext, contentMarks_append, List.append_nil]
        exact List.prefix_append _ _
      · rw [marks_contentCalls]; simp
  · rintro e w' (⟨handler, ps, chars, err, heq, he, hr, hne, rfl, hpiece, htext⟩ | ⟨hnone, -⟩)
    · cases heq
      have hchars : byteLen chars ≤ w.tok.charsCap := by
        rw [hs.cap]; exact (hpiece chars (by simp)).2
      refine ⟨⟨hi.consumed_le, hchars, hi.depth_eq, hi.no_number⟩, rfl, err,
        contentCalls w.locator (ps ++ [chars]), [], he, rfl, contentCalls_piece hpiece, .nil, ?_,
        .refused (by simp [contentCalls]) hr⟩
      rw [marks_contentCalls, htext, hs.pending, List.append_nil, List.append_nil]
    · cases hnone

/-! ## The loop -/

omit [Double F] in
/-- `scan_plain` finds the run of plain bytes at the front. -/
theorem scanPlain_plainRun {env : Env F} {w : World F} (hi : w.Inv env.input) :
    ∃ runEnd, scanPlain env.input w.consumed env.input.len = .ok runEnd ∧
      PlainRun env w runEnd := by
  have htake : (env.input.bytes.drop w.consumed).take (env.input.len - w.consumed) =
      env.rest w :=
    List.take_of_length_le (by rw [List.length_drop]; exact le_rfl)
  refine ⟨_, scanPlain_eq env.input hi.consumed_le le_rfl, ?_⟩
  rw [htake]
  have hpre := plainRun_prefix (env.rest w)
  have hlen := hpre.length_le
  have hi' := hi.consumed_le
  have hlen' : (env.rest w).length = env.input.len - w.consumed := List.length_drop
  refine ⟨by omega, ⟨by omega, ?_⟩, ?_⟩
  · intro b l hd
    rw [← List.drop_drop] at hd
    have hsplit := List.takeWhile_append_dropWhile (p := fun b => !isDelimiter b) (l := env.rest w)
    have hdrop : (env.rest w).drop (plainRun (env.rest w)).length =
        (env.rest w).dropWhile fun b => !isDelimiter b := by
      have h := congrArg (List.drop (plainRun (env.rest w)).length) hsplit
      rw [← h]
      exact List.drop_left
    have hd' : (env.rest w).dropWhile (fun b => !isDelimiter b) = b :: l := by
      rw [← hdrop]; exact hd
    have := List.head_dropWhile_not (p := fun b => !isDelimiter b) (l := env.rest w)
      (by rw [hd']; simp)
    simpa [hd'] using this
  · rw [Nat.add_sub_cancel_left, ← List.prefix_iff_eq_take.mp hpre]
    exact plainRun_plain

/-- What `continue_string` leaves behind. -/
def StringLeft (env : Env F) (w : World F) (closed : Bool) (w' : World F) : Prop :=
  if closed then
    w'.tok.inString = false ∧ w'.tok.number.stage = .none ∧ w.consumed < w'.consumed
  else w'.Flushed ∧ Leftover F env.limits w'.core (env.rest w')

theorem continueStringLoop_refines {env : Env F} (fuel : Nat) : ∀ {w : World F},
    env.input.len - w.consumed < fuel → w.Inv env.input → InString w →
      Refines km env w (continueStringLoop env fuel) (StringLeft env w) := by
  induction fuel with
  | zero => intro w hf; omega
  | succ fuel ih =>
    intro w hf hi hs
    obtain ⟨runEnd, hscan, hp⟩ := scanPlain_plainRun hi
    rw [continueStringLoop]
    unfold Refines
    simp only [ensures_bind, ensures_get, hscan, ensures_ofExcept_ok]
    rw [← ensures_bind]
    -- first the run of plain bytes, which may end in a character that is cut off
    refine (deliverRun_refines hi hs hp).bind ?_
    rintro cut w₁ hi₁ ⟨hs₁, hle, hcut⟩
    cases cut with
    | true =>
      simp only [if_true] at hcut ⊢
      refine .pure hi₁ ?_
      exact ⟨fun _ => hcut.1, .cutOff hs₁.inString hcut.2⟩
    | false =>
      simp only [Bool.false_eq_true, if_false] at hcut ⊢
      subst hcut
      -- then what stands behind the run: nothing, a quote, an escape or a control character
      by_cases hend : w₁.consumed = env.input.len
      · rw [if_pos hend]
        refine (flushChars_refines hi₁ hs₁).bind ?_
        rintro - w₂ hi₂ ⟨hchars, hs₂, hcons, -⟩
        refine .pure hi₂ ⟨fun _ => hchars, .nothing ?_⟩
        rw [Env.rest, hcons, hend]
        exact List.drop_length
      · rw [if_neg hend]
        have hlt : w₁.consumed < env.input.len := by
          have := hi₁.consumed_le
          omega
        obtain ⟨b, l, hd⟩ : ∃ b l, env.input.bytes.drop w₁.consumed = b :: l :=
          ⟨_, _, List.drop_eq_getElem_cons hlt⟩
        have hdel := hp.stop.delimiter b l hd
        have hrest : env.rest w₁ = b :: l := hd
        unfold Refines
        simp only [ensures_bind, env.input.get_eq hd, ensures_ofExcept_ok]
        by_cases hq : b = quote
        · subst hq
          rw [if_pos rfl]
          refine (endString_refines hi₁ hs₁ hrest).bind ?_
          rintro - w₂ hi₂ ⟨h1, h2, h3⟩
          exact .pure hi₂ ⟨h1, h2, by omega⟩
        · rw [if_neg hq]
          by_cases hb : b = backslash
          · subst hb
            rw [if_neg (by simp)]
            have hres : resolveEscape env.input w₁.consumed = resolve (backslash :: l) := by
              rw [resolveEscape_eq, hd]
            rw [hres]
            have hnext := next_backslash (F := F) env.limits (c := w₁.core) rfl
              hs₁.inString l
            simp only [ensures_bind]
            cases hr : resolve (backslash :: l) with
            | error e =>
              obtain ⟨m, rfl⟩ := resolve_error hr
              rw [hr] at hnext
              exact ⟨hi₁, .of_fail rfl rfl (by rw [hrest]; exact hnext)⟩
            | ok r =>
              simp only [ensures_ofExcept_ok]
              cases r with
              | none =>
                rw [hr] at hnext
                refine (flushChars_refines hi₁ hs₁).bind ?_
                rintro - w₂ hi₂ ⟨hchars, hs₂, hcons, hcore⟩
                refine .pure hi₂ ⟨fun _ => hchars, .need ?_⟩
                rw [hcore, Env.rest, hcons, hd]
                exact hnext
              | some r =>
                obtain ⟨ch, n⟩ := r
                refine (pushEscape_refines hi₁ hs₁ hrest hr).bind ?_
                rintro - w₂ hi₂ ⟨hs₂, hcons⟩
                have hn := (resolve_length hr).1
                -- the escape took some bytes, so there is fuel for the rest
                refine (ih (by omega) hi₂ hs₂).mono ?_
                rintro closed w₃ h
                unfold StringLeft at h ⊢
                cases closed with
                | true => exact ⟨h.1, h.2.1, by have := h.2.2; omega⟩
                | false => exact h
          · rw [if_pos hb]
            refine ⟨hi₁, .of_fail rfl rfl ?_⟩
            have hc : b < 0x20 := by
              simpa [isDelimiter, hq, hb] using hdel
            rw [hrest, next_string (F := F) (c := w₁.core) rfl hs₁.inString, Core.stringStep,
              if_neg hq, if_neg hb, if_pos hc]

/-- The content that a buffer of another size holds is gone. -/
theorem ensureChars_refines {env : Env F} {w : World F} (hi : w.Inv env.input)
    (hs : w.tok.inString = true) :
    Refines km env w ensureChars fun _ w' => InString w' ∧ w'.consumed = w.consumed := by
  unfold ensureChars modifyTok Refines
  simp only [ensures_modify]
  by_cases hc : w.tok.charsCap = w.tok.chunkSize
  · simp only [ne_eq, hc, not_true_eq_false, if_false]
    exact ⟨hi, ⟨_, _, .refl km env w⟩, ⟨hs, hc⟩, trivial⟩
  · simp only [ne_eq, hc, not_false_eq_true, if_true]
    refine ⟨⟨hi.consumed_le, Nat.zero_le _, hi.depth_eq, hi.no_number⟩,
      ⟨[], [], rfl, by simp, by simp, ?_, .refl⟩, ⟨hs, rfl⟩, trivial⟩
    simp [World.pending, hc]

/-- **`continue_string`** takes the machine on in the string value. -/
theorem continueString_refines {env : Env F} {w : World F} (hi : w.Inv env.input)
    (hs : w.tok.inString = true) :
    Refines km env w (continueString env) (StringLeft env w) := by
  unfold continueString
  refine (ensureChars_refines hi hs).bind ?_
  rintro - w₁ hi₁ ⟨hs₁, hcons⟩
  unfold Refines
  simp only [ensures_bind, ensures_get]
  refine (continueStringLoop_refines _ (Nat.lt_succ_self _) hi₁ hs₁).mono ?_
  intro closed w' h
  unfold StringLeft at h ⊢
  rwa [hcons] at h

end RJsonParser
