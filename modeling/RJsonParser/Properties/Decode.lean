import RJsonParser.Spec.Text
import RJsonParser.Tokenizer.Key

/-!
# `decode_run`

What `decode_run` does to the character buffer, in both its modes.

* `Pushed` — some characters went through the buffer: pieces of it to the handler, the rest is in it
* `decodeRunStep_spec` — an iteration decodes some characters and goes on behind them, or stops
* `decodeRun_spec` — a run is decoded up to its end, or up to a character that the end of the input
  cuts off; or it fails for one of three reasons (`RunStop`)

The cuts between spans and the room in the buffer decide where the pieces end and nothing else.
-/

namespace RJsonParser

open Infra Infra.Utf8

variable {F : Type}

/-! ## The operations on the buffer -/

/-- Content calls made where the locator stands. -/
def contentCalls (l : SharedLocator) (pieces : List Text) : List (Call F) :=
  pieces.map fun s => ⟨.stringValueContent s, l⟩

theorem contentCalls_append (l : SharedLocator) (ps qs : List Text) :
    contentCalls (F := F) l (ps ++ qs) = contentCalls l ps ++ contentCalls l qs :=
  List.map_append

/-- What became of the buffer: `pieces` were delivered and `chars` is in it. -/
def World.buffered (w : World F) (pieces : List Text) (chars : Text) : World F :=
  { w with
    tok := { w.tok with chars := chars }
    calls := w.calls ++ contentCalls w.locator pieces }

/-- `cs` went through the buffer. Without a handler it is all still there. -/
structure Pushed (h : Option (Handler F)) (w w' : World F) (cs : Text) (pieces : List Text)
    (chars : Text) : Prop where
  eq : w' = w.buffered pieces chars
  kept : h = none → pieces = []
  piece : ∀ s ∈ pieces, s ≠ [] ∧ byteLen s ≤ w.tok.chunkSize
  text : pieces.flatten ++ chars = w.tok.chars ++ cs
  fits : byteLen chars ≤ w.tok.chunkSize

theorem Pushed.refl {h : Option (Handler F)} {w : World F}
    (hw : byteLen w.tok.chars ≤ w.tok.chunkSize) : Pushed h w w [] [] w.tok.chars where
  eq := by simp [World.buffered, contentCalls]
  kept := fun _ => rfl
  piece := by simp
  text := by simp
  fits := hw

theorem Pushed.trans {h : Option (Handler F)} {w w₁ w₂ : World F} {cs ds : Text}
    {ps qs : List Text} {chars₁ chars₂ : Text} (h₁ : Pushed h w w₁ cs ps chars₁)
    (h₂ : Pushed h w₁ w₂ ds qs chars₂) : Pushed h w w₂ (cs ++ ds) (ps ++ qs) chars₂ where
  eq := by
    rw [h₂.eq, h₁.eq]
    simp [World.buffered, contentCalls_append, List.append_assoc]
  kept := fun hn => by rw [h₁.kept hn, h₂.kept hn]; rfl
  piece := by
    have h2 := h₂.piece
    rw [h₁.eq] at h2
    intro s hs
    rcases List.mem_append.mp hs with hs | hs
    · exact h₁.piece s hs
    · exact h2 s hs
  text := by
    have ht := h₂.text
    rw [h₁.eq] at ht
    rw [List.flatten_append, List.append_assoc, ht]
    simp only [World.buffered]
    rw [← List.append_assoc, h₁.text, List.append_assoc]
  fits := by have := h₂.fits; rwa [h₁.eq] at this

/-- A piece that the handler refused: it was called and the buffer still has the piece. -/
structure Refused (h : Option (Handler F)) (w w' : World F) (cs : Text) (e : Stop) : Prop where
  refused : ∃ handler pieces chars err, h = some handler ∧ e = .error err ∧
    handler.reply w'.calls = some err ∧ chars ≠ [] ∧
    w' = w.buffered (pieces ++ [chars]) chars ∧
    (∀ s ∈ pieces ++ [chars], s ≠ [] ∧ byteLen s ≤ w.tok.chunkSize) ∧
    (pieces ++ [chars]).flatten = w.tok.chars ++ cs

/-- The buffer has no room for a key. -/
def keyTooLong : Stop := .err "Object key is longer than the string chunk size"

/-- A callback is recorded with the position of the locator, and may be refused. -/
theorem callback_spec (h : Handler F) (e : Event F) (w : World F) :
    Ensures (callback h e) w
      (fun _ w' => w' = { w with calls := w.calls ++ [⟨e, w.locator⟩] } ∧ h.reply w'.calls = none)
      (fun s w' => w' = { w with calls := w.calls ++ [⟨e, w.locator⟩] } ∧
        ∃ err, s = .error err ∧ h.reply w'.calls = some err) := by
  unfold callback
  simp only [ensures_bind, ensures_modify, ensures_get]
  cases hr : h.reply (w.calls ++ [⟨e, w.locator⟩]) with
  | none => exact ⟨rfl, hr⟩
  | some err => exact ⟨rfl, err, rfl, hr⟩

/-- **`flush_chars`** calls back what is in the buffer, if anything is. -/
theorem flushChars_spec (h : Handler F) (w : World F)
    (hw : byteLen w.tok.chars ≤ w.tok.chunkSize) :
    Ensures (flushChars h) w
      (fun _ w' => ∃ ps, Pushed (some h) w w' [] ps [])
      (fun e w' => Refused (some h) w w' [] e) := by
  unfold flushChars
  simp only [ensures_bind, ensures_get]
  by_cases hc : w.tok.chars = []
  · simp only [hc, ne_eq, not_true_eq_false, if_false, ensures_pure]
    exact ⟨[], by have := Pushed.refl (h := some h) hw; rwa [hc] at this⟩
  · simp only [ne_eq, hc, not_false_eq_true, if_true, ensures_bind]
    refine (callback_spec h _ w).mono ?_ ?_
    · rintro - w' ⟨rfl, -⟩
      simp only [clearChars, modifyTok, ensures_modify]
      refine ⟨[w.tok.chars], rfl, by simp, ?_, by simp, by simp⟩
      intro s hs
      rw [List.mem_singleton.mp hs]
      exact ⟨hc, hw⟩
    · rintro e w' ⟨rfl, err, rfl, hr⟩
      refine ⟨h, [], w.tok.chars, err, rfl, rfl, hr, hc, rfl, ?_, by simp⟩
      intro s hs
      rw [List.mem_singleton.mp hs]
      exact ⟨hc, hw⟩

/-- **`make_room`** flushes the buffer for a string value, and fails for a key. -/
theorem makeRoom_spec (h : Option (Handler F)) (w : World F)
    (hw : byteLen w.tok.chars ≤ w.tok.chunkSize) :
    Ensures (makeRoom h) w
      (fun _ w' => h.isSome ∧ ∃ ps, Pushed h w w' [] ps [])
      (fun e w' => Refused h w w' [] e ∨ h = none ∧ e = keyTooLong ∧ w' = w) := by
  cases h with
  | none => exact .inr ⟨rfl, rfl, rfl⟩
  | some h =>
    refine (flushChars_spec h w hw).mono ?_ ?_
    · rintro - w' hp; exact ⟨rfl, hp⟩
    · rintro e w' hr; exact .inl hr

/-- `free()` never goes below zero. -/
theorem free_spec (w : World F) (hw : byteLen w.tok.chars ≤ w.tok.chunkSize)
    {Q : Nat → World F → Prop} {E : Stop → World F → Prop}
    (h : Q (w.tok.chunkSize - byteLen w.tok.chars) w) : Ensures free w Q E := by
  unfold free
  simp only [ensures_bind, ensures_get, hw, if_true, ensures_pure]
  exact h

/-- After `ensureFree`, `n` bytes are free. -/
theorem ensureFree_spec (h : Option (Handler F)) (n : Nat) (hn : n ≤ minDecodeRoom) (w : World F)
    (hw : byteLen w.tok.chars ≤ w.tok.chunkSize) :
    Ensures (ensureFree h n) w
      (fun _ w' => ∃ ps chars, Pushed h w w' [] ps chars ∧ byteLen chars + n ≤ w.tok.chunkSize)
      (fun e w' => Refused h w w' [] e ∨
        h = none ∧ e = keyTooLong ∧ w' = w ∧ w.tok.chunkSize < byteLen w.tok.chars + n) := by
  unfold ensureFree
  simp only [ensures_bind]
  refine free_spec w hw ?_
  split
  · next hlt =>
    refine (makeRoom_spec h w hw).mono ?_ ?_
    · rintro - w' ⟨-, ps, hp⟩
      refine ⟨ps, [], hp, ?_⟩
      have : minDecodeRoom ≤ w.tok.chunkSize := w.tok.chunkSize.2
      simp only [byteLen_nil]
      omega
    · rintro e w' (hr | ⟨hnone, he, rfl⟩)
      · exact .inl hr
      · exact .inr ⟨hnone, he, rfl, by omega⟩
  · next hge =>
    simp only [ensures_pure]
    exact ⟨[], w.tok.chars, .refl hw, by omega⟩

/-- Characters that fit are pushed. -/
theorem pushed_pushStr {h : Option (Handler F)} {w : World F} {s : Text}
    (hs : byteLen (w.tok.chars ++ s) ≤ w.tok.chunkSize) :
    Pushed h w { w with tok := { w.tok with chars := w.tok.chars ++ s } } s []
      (w.tok.chars ++ s) where
  eq := by simp [World.buffered, contentCalls]
  kept := fun _ => rfl
  piece := by simp
  text := by simp
  fits := hs

/-! ## What comes of a run -/

/-- The text `cs` lies at `p`. -/
def TextAt (input : Spans) (p : Nat) (cs : Text) : Prop :=
  input.bytes.drop p = encode cs ++ input.bytes.drop (p + byteLen cs)

theorem TextAt.nil (input : Spans) (p : Nat) : TextAt input p [] := by simp [TextAt]

theorem TextAt.append {input : Spans} {p : Nat} {cs ds : Text} (h : TextAt input p cs)
    (h' : TextAt input (p + byteLen cs) ds) : TextAt input p (cs ++ ds) := by
  unfold TextAt at *
  rw [h, h', encode_append, byteLen_append, List.append_assoc, Nat.add_assoc]

/-- Where a run ends: at the end of the input, or at a byte that no character has in it. -/
structure RunEnd (input : Spans) (stop : Nat) : Prop where
  le : stop ≤ input.len
  delimiter : ∀ b l, input.bytes.drop stop = b :: l → isDelimiter b = true

/-- What a run came to: `cs` went through the buffer, and what is left is nothing or the start of a
character that the input ends in. -/
structure RunDone (h : Option (Handler F)) (input : Spans) (p stop : Nat) (w w' : World F)
    (next units : Nat) (cs : Text) (pieces : List Text) (chars : Text) : Prop where
  pushed : Pushed h w w' cs pieces chars
  text : TextAt input p cs
  next_eq : next = p + byteLen cs
  units_eq : units = Utf8.units (encode cs)
  next_le : next ≤ stop
  rest : next = stop ∨ CutOff (input.bytes.drop next)

/-- Why a run stopped, with `cs` decoded before. -/
inductive RunStop (h : Option (Handler F)) (input : Spans) (p stop : Nat) (w w' : World F)
    (e : Stop) (cs : Text) : Prop where
  | refused (text : TextAt input p cs) (le : p + byteLen cs ≤ stop) (h : Refused h w w' cs e)
  | malformed {pieces chars} (text : TextAt input p cs) (lt : p + byteLen cs < stop)
      (pushed : Pushed h w w' cs pieces chars) (eq : e = malformedUtf8)
      (bad : front (input.bytes.drop (p + byteLen cs)) = .bad)
  | tooLong {pieces chars} (text : TextAt input p cs) (lt : p + byteLen cs < stop)
      (none : h = none) (pushed : Pushed h w w' cs pieces chars) (eq : e = keyTooLong)
      (long : ∀ c n, front (input.bytes.drop (p + byteLen cs)) = .char c n →
        w.tok.chunkSize < byteLen (w.tok.chars ++ cs) + n)

/-- A handler that refuses later on. -/
theorem Refused.prepend {h : Option (Handler F)} {w w₁ w' : World F} {cs ds : Text} {e : Stop}
    {ps : List Text} {chars : Text} (h₁ : Pushed h w w₁ cs ps chars) (h₂ : Refused h w₁ w' ds e) :
    Refused h w w' (cs ++ ds) e := by
  obtain ⟨handler, qs, chars', err, hh, he, hr, hne, rfl, hp, ht⟩ := h₂
  have heq := h₁.eq
  subst heq
  refine ⟨handler, ps ++ qs, chars', err, hh, he, hr, hne, ?_, ?_, ?_⟩
  · simp [World.buffered, contentCalls_append, List.append_assoc]
  · intro s hs
    rw [List.append_assoc] at hs
    rcases List.mem_append.mp hs with hs | hs
    · exact h₁.piece s hs
    · exact hp s hs
  · rw [List.append_assoc, List.flatten_append, ht]
    simp only [World.buffered]
    rw [← List.append_assoc, h₁.text, List.append_assoc]

section Prepend

variable {h : Option (Handler F)} {input : Spans} {p stop : Nat} {w w₁ w' : World F}
  {cs ds : Text} {ps qs : List Text} {chars chars₁ : Text}

/-- A run whose first characters are done. -/
theorem RunDone.prepend {next units : Nat} (h₁ : Pushed h w w₁ cs ps chars₁)
    (ht : TextAt input p cs)
    (h₂ : RunDone h input (p + byteLen cs) stop w₁ w' next units ds qs chars) :
    RunDone h input p stop w w' next (Utf8.units (encode cs) + units) (cs ++ ds) (ps ++ qs)
      chars where
  pushed := h₁.trans h₂.pushed
  text := ht.append h₂.text
  next_eq := by rw [h₂.next_eq, byteLen_append]; omega
  units_eq := by rw [h₂.units_eq, encode_append, units_append]
  next_le := h₂.next_le
  rest := h₂.rest

/-- A run that stops later on. -/
theorem RunStop.prepend {e : Stop} (h₁ : Pushed h w w₁ cs ps chars₁) (ht : TextAt input p cs)
    (h₂ : RunStop h input (p + byteLen cs) stop w₁ w' e ds) :
    RunStop h input p stop w w' e (cs ++ ds) := by
  have hlen : p + byteLen (cs ++ ds) = p + byteLen cs + byteLen ds := by
    rw [byteLen_append]; omega
  cases h₂ with
  | refused text le hr => exact .refused (ht.append text) (by omega) (hr.prepend h₁)
  | malformed text lt pushed eq bad =>
    exact .malformed (ht.append text) (by omega) (h₁.trans pushed) eq (by rw [hlen]; exact bad)
  | tooLong text lt none pushed eq long =>
    refine .tooLong (ht.append text) (by omega) none (h₁.trans pushed) eq ?_
    intro c n hf
    rw [hlen] at hf
    have := long c n hf
    have hk := h₁.kept none
    have htext := h₁.text
    rw [hk, List.flatten_nil, List.nil_append] at htext
    rw [h₁.eq] at this
    simp only [World.buffered] at this
    rwa [htext, List.append_assoc] at this

end Prepend

/-- `pushValid` pushes the characters in front of what is not one. -/
theorem pushValid_spec {h : Option (Handler F)} {w : World F} {slice r : List UInt8} {cs : Text}
    {e : Utf8Error} (hs : slice = encode cs ++ r) (he : e.validUpTo = byteLen cs)
    (hfit : byteLen (w.tok.chars ++ cs) ≤ w.tok.chunkSize) :
    Ensures (pushValid slice e) w
      (fun n w' => n = Utf8.units (encode cs) ∧ Pushed h w w' cs [] (w.tok.chars ++ cs))
      (fun _ _ => False) := by
  unfold pushValid
  split
  · have htake : slice.take e.validUpTo = encode cs := by
      rw [he, hs, ← length_encode, List.take_left]
    rw [htake, fromUtf8_encode]
    simp only [ensures_bind, pushStr, modifyTok, ensures_modify, ensures_pure]
    exact ⟨utf16Len_eq cs, pushed_pushStr hfit⟩
  · have hnil : cs = [] := byteLen_eq_zero.mp (by omega)
    subst hnil
    simp only [ensures_pure]
    exact ⟨by simp, by simpa using Pushed.refl (by simpa using hfit)⟩

/-- No character has a delimiter in it but as its only byte. -/
theorem isDelimiter_lt {b : UInt8} (h : isDelimiter b = true) : b.toNat < 0x80 := by
  unfold isDelimiter at h
  simp only [Bool.or_eq_true, decide_eq_true_eq] at h
  rcases h with (h | h) | h
  · rw [h]; exact quote_lt
  · rw [h]; exact backslash_lt
  · rw [UInt8.lt_iff_toNat_lt] at h
    simp at h
    omega

/-- A character that starts before the end of a run ends before it. -/
theorem RunEnd.char_le {input : Spans} {p stop n : Nat} {c : Char} (hs : RunEnd input stop)
    (hp : p < stop) (hf : front (input.bytes.drop p) = .char c n) : p + n ≤ stop := by
  by_contra hlt
  obtain ⟨hn, -, hlen⟩ := front_char_le hf
  rw [List.length_drop] at hlen
  have hstop : stop < input.bytes.length := by omega
  have hd := List.drop_eq_getElem_cons hstop
  have hdel := hs.delimiter _ _ hd
  -- the byte at `stop` would be a continuation byte
  have hcons : input.bytes.drop p = input.bytes[p] :: input.bytes.drop (p + 1) :=
    List.drop_eq_getElem_cons (by omega)
  rw [hcons] at hf
  have hcont := front_char_cont hf input.bytes[stop] (by
    rw [List.mem_take_iff_getElem]
    refine ⟨stop - (p + 1), ?_, ?_⟩
    · rw [List.length_drop]; omega
    · rw [List.getElem_drop]; congr 1; omega)
  have hcont := isCont_iff.mp hcont
  have hdel' := isDelimiter_lt hdel
  omega

/-! ## An iteration -/

/-- What an iteration from `p` with `units` written came to: `cs` went through the buffer, and the
loop goes on behind it or stops at the start of a character that the input ends in. -/
structure StepDone (h : Option (Handler F)) (input : Spans) (p stop units : Nat) (w w' : World F)
    (r : Bool × Nat × Nat) (cs : Text) (pieces : List Text) (chars : Text) : Prop where
  pushed : Pushed h w w' cs pieces chars
  text : TextAt input p cs
  next_eq : r.2.1 = p + byteLen cs
  units_eq : r.2.2 = units + Utf8.units (encode cs)
  le : r.2.1 ≤ stop
  more : if r.1 then cs ≠ [] else CutOff (input.bytes.drop r.2.1)

/-- What an iteration does. -/
def StepSpec (h : Option (Handler F)) (input : Spans) (stop p units : Nat) (w : World F)
    (m : TokM F (Bool × Nat × Nat)) : Prop :=
  Ensures m w
    (fun r w' => ∃ cs ps chars, StepDone h input p stop units w w' r cs ps chars)
    (fun e w' => ∃ cs, RunStop h input p stop w w' e cs)

/-- The rest of an iteration, when its first characters are done. -/
theorem StepSpec.prepend {h : Option (Handler F)} {input : Spans} {stop p units : Nat}
    {w w₁ : World F} {m : TokM F (Bool × Nat × Nat)} {cs : Text} {ps : List Text} {chars₁ : Text}
    (h₁ : Pushed h w w₁ cs ps chars₁) (ht : TextAt input p cs)
    (h₂ : StepSpec h input stop (p + byteLen cs) (units + Utf8.units (encode cs)) w₁ m) :
    Ensures m w₁
      (fun r w' => ∃ cs ps chars, StepDone h input p stop units w w' r cs ps chars)
      (fun e w' => ∃ cs, RunStop h input p stop w w' e cs) := by
  refine h₂.mono ?_ ?_
  · rintro r w' ⟨ds, qs, chars, hd⟩
    refine ⟨cs ++ ds, ps ++ qs, chars, h₁.trans hd.pushed, ht.append hd.text, ?_, ?_, hd.le, ?_⟩
    · rw [hd.next_eq, byteLen_append, Nat.add_assoc]
    · rw [hd.units_eq, encode_append, units_append, Nat.add_assoc]
    · have hmore := hd.more
      split at hmore
      · next hr => rw [if_pos hr]; simp [hmore]
      · next hr => rw [if_neg hr]; exact hmore
  · rintro e w' ⟨ds, hs⟩
    exact ⟨_, hs.prepend h₁ ht⟩

/-- Characters that fit are pushed, and the loop goes on behind them. -/
theorem StepSpec.push {h : Option (Handler F)} {input : Spans} {stop p units n k : Nat}
    {w : World F} {s : Text} (hs : s ≠ []) (ht : TextAt input p s)
    (hfit : byteLen (w.tok.chars ++ s) ≤ w.tok.chunkSize) (hn : n = p + byteLen s)
    (hk : k = units + Utf8.units (encode s)) (hle : n ≤ stop) :
    StepSpec h input stop p units w (do
      pushStr s
      pure (true, n, k)) := by
  unfold StepSpec
  simp only [ensures_bind, pushStr, modifyTok, ensures_modify, ensures_pure]
  exact ⟨s, [], _, pushed_pushStr hfit, ht, hn, hk, hle, by rw [if_pos rfl]; exact hs⟩

/-- A character that a slice cuts off, decoded from the input. -/
theorem decodeCut_spec {h : Option (Handler F)} {input : Spans} {stop p units : Nat}
    {w : World F} (hs : RunEnd input stop) (hp : p < stop)
    (hw : byteLen w.tok.chars ≤ w.tok.chunkSize) {r m : List UInt8} (hr : r ≠ [])
    (hf : front r = .need) (hd : input.bytes.drop p = r ++ m) :
    StepSpec h input stop p units w (do
      match ← ofExcept (decodeCharAt input p) with
      | some (ch, n) => do
        ensureFree h ch.utf8Size
        pushStr [ch]
        pure (true, p + n, units + utf16Size ch)
      | none => pure (false, p, units)) := by
  obtain hnil | ⟨b, rest, heq, hb, hlt, hcont⟩ := front_eq_need hf
  · exact absurd hnil hr
  subst heq
  have hspec := decodeCharAt_spec (p := p) (b := b) (l := rest ++ m)
    (by rw [hd]; rfl) hb
  unfold StepSpec
  generalize decodeCharAt input p = result at hspec
  cases hspec with
  | cutOff hcut =>
    simp only [ensures_bind, ensures_ofExcept_ok, ensures_pure]
    refine ⟨[], [], w.tok.chars, .refl hw, .nil _ _, rfl, rfl, Nat.le_of_lt hp, ?_⟩
    rw [if_neg (by simp), hd]
    exact hcut
  | malformed hbad =>
    simp only [ensures_bind, ensures_ofExcept_error]
    exact ⟨[], .malformed (.nil _ _) (by simpa using hp) (.refl hw) rfl
      (by rw [byteLen_nil, Nat.add_zero, hd]; exact hbad)⟩
  | @char ch n hch =>
    simp only [ensures_bind, ensures_ofExcept_ok]
    have hfull : front (input.bytes.drop p) = .char ch n := by rw [hd]; exact hch
    obtain ⟨hn, -⟩ := front_eq_char hfull
    have hle := hs.char_le hp hfull
    have htext : TextAt input p [ch] := by
      unfold TextAt
      have := front_drop hfull
      rw [List.drop_drop] at this
      simpa [hn] using this
    subst hn
    have h4 : ch.utf8Size ≤ minDecodeRoom := le_trans ch.utf8Size_le_four (by decide)
    refine (ensureFree_spec h ch.utf8Size h4 w hw).mono ?_ ?_
    · rintro - w₁ ⟨ps, chars, hpush, hfit⟩
      have hchars : w₁.tok.chars = chars ∧ w₁.tok.chunkSize = w.tok.chunkSize := by
        rw [hpush.eq]; exact ⟨rfl, rfl⟩
      rw [← ensures_bind]
      refine StepSpec.prepend hpush (.nil input p) ?_
      exact .push (by simp) htext (by rw [hchars.1, hchars.2]; simpa using hfit) (by simp)
        (by simp [units_encodeChar]) hle
    · rintro e w' (href | ⟨hnone, rfl, rfl, hlong⟩)
      · exact ⟨[], .refused (.nil _ _) (by simp; omega) href⟩
      · refine ⟨[], .tooLong (.nil _ _) (by simpa using hp) hnone (.refl hw) rfl ?_⟩
        intro c n hc
        rw [byteLen_nil, Nat.add_zero, hfull] at hc
        cases hc
        simpa using hlong

/-- The buffer has room for at least that much. -/
theorem lowWater_le (h : Option (Handler F)) : lowWater h ≤ minDecodeRoom := by
  unfold lowWater
  split
  · exact le_rfl
  · decide

theorem lowWater_pos (h : Option (Handler F)) : 0 < lowWater h := by
  unfold lowWater
  split <;> decide

/-- The slice of an iteration: in one span, before the end of the run, no longer than `room`. -/
theorem slice_spec {input : Spans} {p stop : Nat} (room : Nat) (hp : p < stop)
    (hs : stop ≤ input.len) (hroom : 0 < room) :
    ∃ take, min (min (input.spanFrom p).length (stop - p)) room = take ∧ 0 < take ∧
      take ≤ stop - p ∧ take ≤ room ∧ (input.spanFrom p).take take =
        (input.bytes.drop p).take take ∧
      ((input.bytes.drop p).take take).length = take := by
  have hpos := input.length_spanFrom_pos (i := p) (by omega)
  refine ⟨_, rfl, by omega, by omega, by omega, input.take_spanFrom (by omega), ?_⟩
  rw [List.length_take, List.length_drop]
  unfold Spans.len at hs
  omega

/-- The characters at the front of the bytes at `p`, and what is behind them. -/
theorem textAt_of_take {input : Spans} {p take : Nat} {cs : Text} {r : List UInt8}
    (h : (input.bytes.drop p).take take = encode cs ++ r) :
    TextAt input p cs ∧
      input.bytes.drop (p + byteLen cs) = r ++ input.bytes.drop (p + take) := by
  have hsplit : input.bytes.drop p = encode cs ++ (r ++ input.bytes.drop (p + take)) := by
    rw [← List.append_assoc, ← h, ← List.drop_drop, List.take_append_drop]
  have hrest : input.bytes.drop (p + byteLen cs) = r ++ input.bytes.drop (p + take) := by
    rw [← List.drop_drop, hsplit, ← length_encode, List.drop_left]
  exact ⟨by rw [TextAt, hrest]; exact hsplit, hrest⟩

/-- **An iteration of `decode_run`** decodes some characters and goes on behind them, or stops. -/
theorem decodeRunStep_spec (h : Option (Handler F)) {input : Spans} {stop p : Nat} (units : Nat)
    (hs : RunEnd input stop) (hlt : p < stop) {w : World F}
    (hw : byteLen w.tok.chars ≤ w.tok.chunkSize) :
    StepSpec h input stop p units w (decodeRunStep h input stop p units) := by
  unfold StepSpec decodeRunStep
  simp only [ensures_bind]
  refine (ensureFree_spec h _ (lowWater_le h) w hw).mono ?_ ?_
  · rintro - w₁ ⟨ps, chars, hpush, hfit⟩
    have hchars : w₁.tok.chars = chars ∧ w₁.tok.chunkSize = w.tok.chunkSize := by
      rw [hpush.eq]; exact ⟨rfl, rfl⟩
    have hw₁ : byteLen w₁.tok.chars ≤ w₁.tok.chunkSize := by
      rw [hchars.1, hchars.2]; exact hpush.fits
    refine free_spec w₁ hw₁ ?_
    rw [hchars.1, hchars.2]
    obtain ⟨take, htake, h0, h2, h3, hslice, hlen⟩ := slice_spec
      (w.tok.chunkSize - byteLen chars) hlt hs.le (by have := lowWater_pos h; omega)
    rw [htake, hslice]
    refine StepSpec.prepend hpush (.nil input p) ?_
    rw [byteLen_nil, encode_nil, units_nil, Nat.add_zero, Nat.add_zero]
    -- the slice is text, or ends in bytes that are not: malformed, or a character that is cut short
    cases hu : fromUtf8 ((input.bytes.drop p).take take) with
    | ok s =>
      have hbytes := fromUtf8_ok hu
      have hsize : byteLen s = take := by rw [← length_encode, ← hbytes, hlen]
      have hne : s ≠ [] := by
        rintro rfl
        rw [byteLen_nil] at hsize
        omega
      refine .push hne (textAt_of_take (r := []) (by rw [hbytes, List.append_nil])).1 ?_ ?_ ?_ ?_
      · rw [byteLen_append, hchars.1, hchars.2, hsize]; omega
      · rw [hsize]
      · rw [utf16Len_eq]
      · omega
    | error e =>
      obtain ⟨cs, r, hbytes, he, hend⟩ := fromUtf8_error hu
      obtain ⟨htext, hrest⟩ := textAt_of_take hbytes
      have hsize : byteLen cs + r.length = take := by
        rw [← length_encode, ← List.length_append, ← hbytes, hlen]
      have hr : r ≠ [] := by
        rintro rfl
        split at hend
        · cases hend
        · exact hend.1 rfl
      have hrpos := List.length_pos_iff.mpr hr
      unfold StepSpec
      simp only [ensures_bind]
      refine (pushValid_spec (h := h) (w := w₁) hbytes he ?_).mono ?_ ?_
      · rw [byteLen_append, hchars.1, hchars.2]; omega
      · rintro n w₂ ⟨rfl, hpush₂⟩
        have hw₂ : byteLen w₂.tok.chars ≤ w₂.tok.chunkSize := by
          have := hpush₂.fits
          rw [hpush₂.eq]
          exact this
        split
        · next hinv =>
          rw [if_pos hinv] at hend
          refine ⟨cs, .malformed htext (by omega) hpush₂ rfl ?_⟩
          rw [hrest, front_append _ (by rw [hend]; simp), hend]
        · next hinv =>
          rw [if_neg hinv] at hend
          rw [he]
          exact StepSpec.prepend hpush₂ htext
            (decodeCut_spec hs (by omega) hw₂ hr hend.2 hrest)
      · rintro _ _ ⟨⟩
  · rintro e w' (href | ⟨hnone, rfl, rfl, hlong⟩)
    · exact ⟨[], .refused (.nil _ _) (by simp; omega) href⟩
    · refine ⟨[], .tooLong (.nil _ _) (by simpa using hlt) hnone (.refl hw) rfl ?_⟩
      intro c n hc
      have := (front_char_le hc).1
      have : lowWater h = 1 := by rw [hnone]; rfl
      simp only [List.append_nil]
      omega

/-! ## The loop -/

/-- What the loop comes to, from `p` with `units` written. -/
def LoopSpec (h : Option (Handler F)) (input : Spans) (stop p units : Nat) (w : World F)
    (m : TokM F (Nat × Nat)) : Prop :=
  Ensures m w
    (fun r w' => ∃ k cs ps chars, r.2 = units + k ∧
      RunDone h input p stop w w' r.1 k cs ps chars)
    (fun e w' => ∃ cs, RunStop h input p stop w w' e cs)

/-- The rest of the loop, when its first characters are done. -/
theorem LoopSpec.prepend {h : Option (Handler F)} {input : Spans} {stop p units : Nat}
    {w w₁ : World F} {m : TokM F (Nat × Nat)} {cs : Text} {ps : List Text} {chars₁ : Text}
    (h₁ : Pushed h w w₁ cs ps chars₁) (ht : TextAt input p cs)
    (h₂ : LoopSpec h input stop (p + byteLen cs) (units + Utf8.units (encode cs)) w₁ m) :
    Ensures m w₁
      (fun r w' => ∃ k cs ps chars, r.2 = units + k ∧
        RunDone h input p stop w w' r.1 k cs ps chars)
      (fun e w' => ∃ cs, RunStop h input p stop w w' e cs) := by
  refine h₂.mono ?_ ?_
  · rintro r w' ⟨k, ds, qs, chars, hr, hd⟩
    exact ⟨_, _, _, _, by rw [hr, Nat.add_assoc], hd.prepend h₁ ht⟩
  · rintro e w' ⟨ds, hs⟩
    exact ⟨_, hs.prepend h₁ ht⟩

/-- **The loop of `decode_run`** decodes a run up to its end, to a character that the input cuts
off, or to an error. -/
theorem decodeRunLoop_spec (h : Option (Handler F)) (input : Spans) {stop : Nat}
    (hs : RunEnd input stop) : ∀ (fuel p units : Nat) (w : World F), stop - p < fuel → p ≤ stop →
      byteLen w.tok.chars ≤ w.tok.chunkSize →
      LoopSpec h input stop p units w (decodeRunLoop h input stop fuel p units) := by
  intro fuel
  induction fuel with
  | zero => intro p units w hf; omega
  | succ fuel ih =>
    intro p units w hf hp hw
    rw [decodeRunLoop]
    by_cases hlt : p < stop
    · rw [if_pos hlt]
      unfold LoopSpec
      simp only [ensures_bind]
      refine (decodeRunStep_spec h units hs hlt hw).mono ?_ fun _ _ h => h
      rintro ⟨more, next, units'⟩ w₁ ⟨cs, ps, chars, hd⟩
      have hnext : next = p + byteLen cs := hd.next_eq
      have hunits : units' = units + Utf8.units (encode cs) := hd.units_eq
      have hmore := hd.more
      cases more with
      | true =>
        rw [if_pos rfl] at hmore ⊢
        have hpos := byteLen_pos hmore
        have hle : next ≤ stop := hd.le
        have hw₁ : byteLen w₁.tok.chars ≤ w₁.tok.chunkSize := by
          have := hd.pushed.fits
          rw [hd.pushed.eq]
          exact this
        refine LoopSpec.prepend hd.pushed hd.text ?_
        rw [← hnext, ← hunits]
        exact ih next units' w₁ (by omega) hle hw₁
      | false =>
        rw [if_neg (by simp)] at hmore ⊢
        rw [ensures_pure]
        exact ⟨_, cs, ps, chars, hunits, hd.pushed, hd.text, hnext, rfl, hd.le, .inr hmore⟩
    · rw [if_neg hlt]
      exact ⟨0, [], [], w.tok.chars, rfl, .refl hw, .nil _ _, rfl, rfl, hp, .inl (by simp; omega)⟩

/-- **`decode_run`**: a run is decoded up to its end, or up to a character that the end of the input
cuts off, and its UTF-16 units are counted; or there is a reason not to. -/
theorem decodeRun_spec (h : Option (Handler F)) (input : Spans) {start stop : Nat}
    (hs : RunEnd input stop) (hle : start ≤ stop) (w : World F)
    (hw : byteLen w.tok.chars ≤ w.tok.chunkSize) :
    Ensures (decodeRun h input start stop) w
      (fun r w' => ∃ cs ps chars, RunDone h input start stop w w' r.1 r.2 cs ps chars)
      (fun e w' => ∃ cs, RunStop h input start stop w w' e cs) := by
  refine (decodeRunLoop_spec h input hs _ start 0 w (by omega) hle hw).mono ?_ ?_
  · rintro r w' ⟨k, cs, ps, chars, hr, hd⟩
    rw [Nat.zero_add] at hr
    exact ⟨cs, ps, chars, hr ▸ hd⟩
  · exact fun _ _ h => h

end RJsonParser
