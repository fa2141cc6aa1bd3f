import RJsonParser.Properties.Decode

/-!
# `decode_run` is strict UTF-8 decoding

The slices of `decode_run` are cut where a span ends, where the buffer is full and where the input
ends. None of it shows in what is decoded: the bytes of a run alone decide, but for the start of a
character at the end of the input, which is left there until more arrives.

* `CutShort` — the start of a character
* `DecodesTo` — what a run comes to that is decoded up to some position
* `decode_run_strict` — the three ways a run can go
-/

namespace Infra.Utf8

/-- Some but not all bytes of a character. -/
def CutShort (r : List UInt8) : Prop :=
  ∃ c : Char, r <+: String.utf8EncodeChar c ∧ r ≠ [] ∧ r ≠ String.utf8EncodeChar c

/-- What is cut short needs more. -/
theorem CutShort.front_eq_need {r : List UInt8} (h : CutShort r) : front r = .need := by
  obtain ⟨c, ⟨m, hm⟩, _, hne⟩ := h
  by_contra hneed
  have hfront := front_append m hneed
  have hchar : front (r ++ m) = .char c c.utf8Size := by
    rw [hm]
    simpa using front_encode c []
  -- all the bytes of the character would be there
  rw [hchar] at hfront
  have hle := (front_char_le hfront.symm).2.2
  have hlen : (r ++ m).length = c.utf8Size := by rw [hm, String.length_utf8EncodeChar]
  rw [List.length_append] at hlen
  have hnil : m = [] := List.length_eq_zero_iff.mp (by omega)
  rw [hnil, List.append_nil] at hm
  exact hne hm

/-- What is in front of a delimiter or of the end is determined by the bytes before it. -/
theorem front_take_ne_char {l : List UInt8} (n : Nat) (h : ∀ c k, front l ≠ .char c k) (c : Char)
    (k : Nat) : front (l.take n) ≠ .char c k := by
  intro hc
  refine h c k ?_
  have hfront := front_append (l.drop n) (show front (l.take n) ≠ .need by rw [hc]; simp)
  rw [List.take_append_drop, hc] at hfront
  exact hfront

end Infra.Utf8

namespace RJsonParser

open Infra Infra.Utf8

variable {F : Type} {h : Handler F} {input : Spans} {start stop : Nat} {w : World F}

/-- The bytes from `start` to `stop`. -/
def Spans.between (input : Spans) (start stop : Nat) : List UInt8 :=
  (input.bytes.drop start).take (stop - start)

/-- The bytes of a run, of which the first characters are decoded. -/
theorem TextAt.between {cs : Text} {next : Nat} (ht : TextAt input start cs)
    (hn : next = start + byteLen cs) (hle : next ≤ stop) :
    input.between start stop = encode cs ++ (input.bytes.drop next).take (stop - next) := by
  unfold Spans.between
  rw [ht, ← hn, List.take_append, length_encode]
  congr 1
  · exact List.take_of_length_le (by rw [length_encode]; omega)
  · congr 1
    omega

/-- A character that the input cuts off has no delimiter behind it. -/
theorem RunEnd.eq_len {next : Nat} (hs : RunEnd input stop) (hlt : next < stop)
    (hcut : CutOff (input.bytes.drop next)) : stop = input.len := by
  by_contra hne
  have hstop : stop < input.bytes.length := by have := hs.le; unfold Spans.len at *; omega
  obtain ⟨b, rest, hd, -, -, hcont⟩ := hcut
  have hmem : input.bytes[stop] ∈ rest := by
    have hsucc : input.bytes.drop (next + 1) = rest := by rw [← List.drop_drop, hd]; rfl
    rw [← hsucc, List.mem_iff_getElem]
    refine ⟨stop - (next + 1), by rw [List.length_drop]; omega, ?_⟩
    rw [List.getElem_drop]
    congr 1
    omega
  have hdel := hs.delimiter _ _ (List.drop_eq_getElem_cons hstop)
  have hlt' := isDelimiter_lt hdel
  have hcont' := isCont_iff.mp (hcont _ hmem)
  omega

/-- `decode_run` returned `next` and `units` with `cs` decoded: it went through the buffer in pieces
that fit it, and is delivered but for what the buffer holds. -/
def DecodesTo (h : Handler F) (input : Spans) (start stop : Nat) (w : World F) (cs : Text) : Prop :=
  ∃ w' pieces chars,
    decodeRun (some h) input start stop w =
      .ok (start + byteLen cs, (cs.map utf16Size).sum) w' ∧
    Pushed (some h) w w' cs pieces chars

/-- What is decoded of a run is a start of its bytes: all of them, or what is in front of a
character that the end of the input cuts off. -/
theorem RunDone.between {w' : World F} {next units : Nat} {cs : Text} {pieces : List Text}
    {chars : Text} (hs : RunEnd input stop)
    (hd : RunDone (some h) input start stop w w' next units cs pieces chars) :
    ∃ r, input.between start stop = encode cs ++ r ∧ (∀ c k, front r ≠ .char c k) ∧
      (r = [] ∨ stop = input.len ∧ r.length ≤ 3) := by
  refine ⟨_, hd.text.between hd.next_eq hd.next_le, ?_⟩
  rcases Nat.lt_or_eq_of_le hd.next_le with hlt | heq
  · have hcut := hd.rest.resolve_left (Nat.ne_of_lt hlt)
    have hlen := hcut.length_le
    exact ⟨front_take_ne_char _ hcut.front_ne_char,
      .inr ⟨hs.eq_len hlt hcut, by rw [List.length_take]; omega⟩⟩
  · rw [heq, Nat.sub_self, List.take_zero]
    exact ⟨by simp [front], .inl rfl⟩

/-- What the run of a handler that takes everything comes to. -/
theorem decodeRun_cases (hh : h.NeverErrs) (hs : RunEnd input stop) (hle : start ≤ stop)
    (hw : byteLen w.tok.chars ≤ w.tok.chunkSize) :
    (∃ cs r, DecodesTo h input start stop w cs ∧ input.between start stop = encode cs ++ r ∧
      (∀ c k, front r ≠ .char c k) ∧ (r = [] ∨ stop = input.len ∧ r.length ≤ 3)) ∨
    ∃ cs r w' pieces chars, decodeRun (some h) input start stop w = .error malformedUtf8 w' ∧
      Pushed (some h) w w' cs pieces chars ∧ input.between start stop = encode cs ++ r ∧
      r ≠ [] ∧ (∀ c k, front r ≠ .char c k) ∧ (stop = input.len → front r = .bad) := by
  have hspec := (decodeRun_spec (some h) input hs hle w hw).and_result
  unfold Ensures at hspec
  cases hrun : decodeRun (some h) input start stop w with
  | ok p w' =>
    rw [hrun] at hspec
    obtain ⟨-, cs, pieces, chars, hd⟩ := hspec
    obtain ⟨r, hr, hfront, hshort⟩ := hd.between hs
    refine .inl ⟨cs, r, ⟨w', pieces, chars, ?_, hd.pushed⟩, hr, hfront, hshort⟩
    rw [hrun, ← units_encode, ← hd.units_eq, ← hd.next_eq]
  | error e w' =>
    rw [hrun] at hspec
    obtain ⟨-, cs, hstop⟩ := hspec
    cases hstop with
    | refused text le hr =>
      obtain ⟨handler, _, _, err, hsome, _, hreply, _⟩ := hr
      cases hsome
      rw [hh] at hreply
      cases hreply
    | tooLong text lt none => cases none
    | @malformed pieces chars text lt pushed eq bad =>
      refine .inr ⟨cs, _, w', pieces, chars, by rw [eq], pushed,
        text.between rfl (Nat.le_of_lt lt), ?_, ?_, ?_⟩
      · rw [Ne, List.take_eq_nil_iff, List.drop_eq_nil_iff, not_or]
        have := hs.le
        unfold Spans.len at this
        omega
      · exact front_take_ne_char _ (by rw [bad]; simp)
      · rintro rfl
        rw [List.take_of_length_le (by rw [List.length_drop]; exact Nat.le_refl _)]
        exact bad

/-- **`decode_run` is strict UTF-8 decoding whatever the slicing.** A run that is well formed is
decoded whole; one that is so but for the start of a character that the input ends in is decoded up
to there; and any other is an error, unless what is wrong with it is in the last three bytes of the
input, which are then left as if cut off. What the buffer holds and each piece fit the chunk
size. -/
theorem decode_run_strict (h : Handler F) (hh : h.NeverErrs) (input : Spans) (start stop : Nat)
    (hle : start ≤ stop) (hstop : RunEnd input stop) (w : World F)
    (hw : byteLen w.tok.chars ≤ w.tok.chunkSize) :
    (∀ cs, input.between start stop = encode cs → DecodesTo h input start stop w cs) ∧
    (∀ cs r, input.between start stop = encode cs ++ r → stop = input.len → CutShort r →
      DecodesTo h input start stop w cs) ∧
    ((∀ cs r, input.between start stop = encode cs ++ r → r ≠ [] ∧
      ¬ (stop = input.len ∧ CutShort r)) →
      (∃ cs w' pieces chars, decodeRun (some h) input start stop w = .error malformedUtf8 w' ∧
        Pushed (some h) w w' cs pieces chars) ∨
      ∃ cs r, input.between start stop = encode cs ++ r ∧ stop = input.len ∧ r.length ≤ 3 ∧
        DecodesTo h input start stop w cs) := by
  have hcases := decodeRun_cases hh hstop hle hw
  -- what is in front of no character is decoded
  have hdetermined : ∀ cs r, input.between start stop = encode cs ++ r → front r = .need →
      (r ≠ [] → stop = input.len) → DecodesTo h input start stop w cs := by
    intro cs r hr hneed hend
    have hr_ne : ∀ c k, front r ≠ .char c k := by
      intro c k hc
      rw [hneed] at hc
      cases hc
    rcases hcases with ⟨cs', r', hd, hr', hfront, -⟩ | ⟨cs', r', w', _, _, -, -, hr', hne,
      hfront, hbad⟩
    · obtain ⟨rfl, -⟩ := encode_append_inj (hr.symm.trans hr') hr_ne hfront
      exact hd
    · obtain ⟨-, rfl⟩ := encode_append_inj (hr.symm.trans hr') hr_ne hfront
      rw [hbad (hend hne)] at hneed
      cases hneed
  refine ⟨?_, ?_, ?_⟩
  · intro cs hcs
    exact hdetermined cs [] (by rw [hcs, List.append_nil]) rfl (fun hne => absurd rfl hne)
  · intro cs r hr hlen hcut
    exact hdetermined cs r hr hcut.front_eq_need fun _ => hlen
  · intro hill
    rcases hcases with ⟨cs, r, hd, hr, -, hshort⟩ | ⟨cs, _, w', pieces, chars, hrun, hpush, -⟩
    · have hshort' := hshort.resolve_left (hill cs r hr).1
      exact .inr ⟨cs, r, hr, hshort'.1, hshort'.2, hd⟩
    · exact .inl ⟨cs, w', pieces, chars, hrun, hpush⟩

/-- A character that the wrap of the ring cuts in two is decoded whole. -/
theorem decode_run_strict_wrap :
    DecodesTo (F := Rat) .accepting (.split 2 [0x61, 0xC3, 0xA9]) 0 3
      ⟨.new false false ⟨16, by decide⟩, .new, [], 0⟩ ['a', 'é'] := by
  have hstop : RunEnd (.split 2 [0x61, 0xC3, 0xA9]) 3 := by
    refine ⟨by decide, ?_⟩
    intro b l hd
    cases hd
  exact (decode_run_strict .accepting (fun _ => rfl) _ 0 3 (by decide) hstop _ (by decide)).1
    ['a', 'é'] (by decide)

end RJsonParser
