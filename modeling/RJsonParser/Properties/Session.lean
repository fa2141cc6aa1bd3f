import RJsonParser.Parser
import RJsonParser.Properties.Receive

/-!
# The parser refines the machine

* `checkBom_spec` — the byte order mark
* `Parser.core`, `Parser.Inv` — the state of the machine between two calls, and what holds in every
  state
* `feed_spec` — a call of `receive` takes the machine on over the bytes in the ring
* `close_spec` — `close` does so too, and asks whether the machine may end here
-/

namespace RJsonParser

open Infra Infra.Utf8

variable {F : Type}

/-! ## The byte order mark -/

/-- What `check_bom` returns where the machine finds `s`. -/
def BomIs : Scan → Except Stop Bom → Prop
  | .need, r => r = .ok .needMore
  | .bad, r => ∃ m, r = .error (.err m)
  | .found n, r => r = .ok (.skip n)

section Bom

variable {input : Spans} {b1 : UInt8} {l : List UInt8}

theorem Spans.get_of_getElem? {input : Spans} {i : Nat} {b : UInt8} (h : input.bytes[i]? = some b) :
    input.get i = .ok b := by
  rw [Spans.get, h]

theorem checkBomUtf8_spec (hl : input.bytes = b1 :: l) :
    BomIs (bomUtf8 l) (checkBomUtf8 input) := by
  unfold checkBomUtf8 Spans.len
  rw [hl]
  match l, hl with
  | [], hl => rfl
  | [b2], hl =>
    rw [if_neg (by simp), if_neg (by simp), Spans.get_of_getElem? (b := b2) (by rw [hl]; rfl)]
    by_cases h2 : b2 = 0xBB
    · simp only [bomUtf8, h2, if_true, except_ok_bind]; rfl
    · simp only [bomUtf8, h2, if_false, except_ok_bind]; rfl
  | b2 :: b3 :: l, hl =>
    rw [if_pos (by simp), Spans.get_of_getElem? (b := b2) (by rw [hl]; rfl), 
      Spans.get_of_getElem? (b := b3) (by rw [hl]; rfl)]
    by_cases h2 : b2 = 0xBB
    · by_cases h3 : b3 = 0xBF
      · simp only [bomUtf8, h2, h3, if_true, and_self, except_ok_bind]; rfl
      · simp only [bomUtf8, h2, h3, if_true, if_false, and_false, except_ok_bind]; rfl
    · simp only [bomUtf8, h2, if_false, false_and, except_ok_bind]; rfl

theorem checkBomUtf16Be_spec (hl : input.bytes = b1 :: l) :
    BomIs (bomUtf16Be l) (checkBomUtf16Be input) := by
  unfold checkBomUtf16Be Spans.len
  rw [hl]
  match l, hl with
  | [], hl => rfl
  | b2 :: l, hl =>
    rw [if_neg (by simp), Spans.get_of_getElem? (b := b2) (by rw [hl]; rfl)]
    by_cases h2 : b2 = 0xFF
    · simp only [bomUtf16Be, h2, if_true, except_ok_bind]; exact ⟨_, rfl⟩
    · simp only [bomUtf16Be, h2, if_false, except_ok_bind]; rfl

theorem checkBomLe_spec (hl : input.bytes = b1 :: l) : BomIs (bomLe l) (checkBomLe input) := by
  unfold checkBomLe Spans.len
  rw [hl]
  cases l with
  | nil => rfl
  | cons b2 l =>
    rw [if_neg (by simp), Spans.get_of_getElem? (b := b2) (by rw [hl]; rfl)]
    by_cases h2 : b2 = 0xFE
    swap
    · simp only [bomLe, h2, if_false, except_ok_bind]; rfl
    simp only [bomLe, h2, if_true, except_ok_bind]
    rcases l with - | ⟨b3, - | ⟨b4, l⟩⟩
    · rfl
    · rfl
    rw [if_neg (by simp), if_neg (by simp), Spans.get_of_getElem? (b := b3) (by rw [hl]; rfl),
      Spans.get_of_getElem? (b := b4) (by rw [hl]; rfl)]
    simp only [except_ok_bind]
    split <;> exact ⟨_, rfl⟩

theorem checkBomUtf32Be_spec (hl : input.bytes = b1 :: l) :
    BomIs (bomUtf32Be l) (checkBomUtf32Be input) := by
  unfold checkBomUtf32Be Spans.len
  rw [hl]
  cases l with
  | nil => rfl
  | cons b2 l =>
    rw [if_neg (by simp), Spans.get_of_getElem? (b := b2) (by rw [hl]; rfl)]
    by_cases h2 : b2 = 0x00
    swap
    · simp only [bomUtf32Be, h2, if_false, except_ok_bind]; rfl
    simp only [bomUtf32Be, h2, if_true, except_ok_bind]
    rcases l with - | ⟨b3, - | ⟨b4, l⟩⟩
    · rfl
    · rfl
    rw [if_neg (by simp), Spans.get_of_getElem? (b := b3) (by rw [hl]; rfl),
      Spans.get_of_getElem? (b := b4) (by rw [hl]; rfl)]
    simp only [except_ok_bind]
    by_cases h3 : b3 = 0xFE ∧ b4 = 0xFF
    · rw [if_pos h3, if_pos h3]; exact ⟨_, rfl⟩
    · rw [if_neg h3, if_neg h3]; rfl

end Bom

/-- **`check_bom`** finds what the machine finds. -/
theorem checkBom_spec (input : Spans) : BomIs (bomFront input.bytes) (checkBom input) := by
  unfold checkBom
  cases hl : input.bytes with
  | nil => rw [if_pos (by simp [Spans.len, hl])]; rfl
  | cons b1 l =>
    rw [if_neg (by simp [Spans.len, hl]), Spans.get_of_getElem? (b := b1) (by rw [hl]; rfl)]
    simp only [bomFront, except_ok_bind]
    split
    · exact checkBomUtf8_spec hl
    split
    · exact checkBomUtf16Be_spec hl
    split
    · exact checkBomLe_spec hl
    split
    · exact checkBomUtf32Be_spec hl
    · rfl
/-! ## States -/

/-- What holds of a tokenizer in every state. -/
structure Tokenizer.Inv (t : Tokenizer) : Prop where
  chars_le : byteLen t.chars ≤ t.charsCap
  depth_eq : t.depthStack = t.contextStack.map Context.nest
  no_number : t.inString = true → t.number.stage = .none

theorem Tokenizer.new_inv (rejectDuplicateKeys needsWhitespace : Bool) (n : ChunkSize) :
    (Tokenizer.new rejectDuplicateKeys needsWhitespace n).Inv :=
  ⟨le_rfl, rfl, by rintro ⟨⟩⟩

theorem Tokenizer.Inv.world {t : Tokenizer} (h : t.Inv) (l : SharedLocator) (calls : List (Call F))
    (input : Spans) : World.Inv input ⟨t, l, calls, 0⟩ :=
  ⟨Nat.zero_le _, h.chars_le, h.depth_eq, h.no_number⟩

theorem World.Inv.tok {input : Spans} {w : World F} (h : w.Inv input) : w.tok.Inv :=
  ⟨h.chars_le, h.depth_eq, h.no_number⟩

namespace Parser

/-- The world in which a method of the tokenizer `t` starts. -/
def world (p : Parser F) (t : Tokenizer) : World F := ⟨t, p.locator, p.calls, 0⟩

/-- The state of the machine. -/
def core (h : Handler F) (p : Parser F) : Core :=
  match p.tokenizer with
  | some t => (p.world t).core
  | none =>
    { Core.start p.rejectDuplicateKeys (h.needsWhitespace p.calls) with
      pos := ⟨p.locator.line, p.locator.column, false⟩ }

theorem core_some {h : Handler F} {p : Parser F} {t : Tokenizer} (ht : p.tokenizer = some t) :
    p.core h = (p.world t).core := by
  unfold core
  rw [ht]

theorem core_none {h : Handler F} {p : Parser F} (ht : p.tokenizer = none) :
    p.core h = { Core.start p.rejectDuplicateKeys (h.needsWhitespace p.calls) with
      pos := ⟨p.locator.line, p.locator.column, false⟩ } := by
  unfold core
  rw [ht]

/-- What holds in every state, also after a call that returned an error. -/
structure Inv (km : Nat) (p : Parser F) : Prop where
  tokenizer : ∀ t, p.tokenizer = some t → t.Inv ∧ t.chunkSize = p.stringChunkSize
  bom : p.checkedBom = p.tokenizer.isSome
  interner : p.interner.Inv km
  chunk : p.stringChunkSize ≤ km

/-- The content that was decoded was delivered. -/
def Flushed (p : Parser F) : Prop :=
  ∀ t, p.tokenizer = some t → t.inString = true → t.chars = []

theorem Inv.setStringChunkSize {km : Nat} {p : Parser F} (hi : p.Inv km) (n : ChunkSize)
    (hn : n ≤ km) : (p.setStringChunkSize n).Inv km := by
  refine ⟨?_, ?_, hi.interner, hn⟩
  · intro t ht
    obtain ⟨t', ht', rfl⟩ := Option.map_eq_some_iff.mp ht
    obtain ⟨hti, -⟩ := hi.tokenizer t' ht'
    exact ⟨⟨hti.chars_le, hti.depth_eq, hti.no_number⟩, rfl⟩
  · show p.checkedBom = (Option.map _ p.tokenizer).isSome
    rw [Option.isSome_map, hi.bom]

/-- What no call that is passed bytes changes. -/
structure Same (p p' : Parser F) : Prop where
  limits : p'.limits = p.limits
  rejectDuplicateKeys : p'.rejectDuplicateKeys = p.rejectDuplicateKeys
  stringChunkSize : p'.stringChunkSize = p.stringChunkSize
  bufferSize : p'.bufferSize = p.bufferSize
  closed : p'.closed = p.closed
  started : p.tokenizer.isSome = true → p'.tokenizer.isSome = true

theorem Same.refl (p : Parser F) : p.Same p := ⟨rfl, rfl, rfl, rfl, rfl, id⟩

theorem Same.trans {p p₁ p₂ : Parser F} (h : p.Same p₁) (h' : p₁.Same p₂) : p.Same p₂ :=
  ⟨h'.limits.trans h.limits, h'.rejectDuplicateKeys.trans h.rejectDuplicateKeys,
    h'.stringChunkSize.trans h.stringChunkSize, h'.bufferSize.trans h.bufferSize,
    h'.closed.trans h.closed, h'.started ∘ h.started⟩

/-- After a method of the tokenizer. -/
def resumed (p : Parser F) (s : World F × Interner) : Parser F :=
  { p with
    tokenizer := some s.1.tok
    locator := s.1.locator
    calls := s.1.calls
    interner := s.2 }

end Parser

theorem withTokenizer_eq {α : Type} {m : KeyM F α} {p : Parser F} {t : Tokenizer} {c : Nat}
    (ht : p.tokenizer = some t) : withTokenizer m (p, c) =
      match m (p.world t, p.interner) with
      | .ok a s => .ok a (p.resumed s, c + s.1.consumed)
      | .error e s => .error e (p.resumed s, c + s.1.consumed) := by
  unfold withTokenizer
  simp only [ht]
  rfl

theorem ensures_withTokenizer {α : Type} {m : KeyM F α} {p : Parser F} {t : Tokenizer} {c : Nat}
    {Q : α → Parser F × Nat → Prop} {E : Stop → Parser F × Nat → Prop}
    (ht : p.tokenizer = some t) :
    Ensures (withTokenizer m) (p, c) Q E ↔
      Ensures m (p.world t, p.interner) (fun a s => Q a (p.resumed s, c + s.1.consumed))
        (fun e s => E e (p.resumed s, c + s.1.consumed)) := by
  unfold Ensures
  rw [withTokenizer_eq ht]
  cases m (p.world t, p.interner) <;> exact Iff.rfl

/-! ## `process` -/

variable [Double F] {km : Nat}

/-- From `p` with the bytes `l` to `p'` with `l'` left the machine took steps, and what it put out
was called back. -/
structure Parser.Moves (km : Nat) (h : Handler F) (p p' : Parser F) (l l' : List UInt8)
    (new : List (Call F)) : Prop where
  calls : p'.calls = p.calls ++ new
  piece : ∀ call ∈ new, call.Piece p.stringChunkSize km
  steps : (machine F p.limits).Steps (p.core h) l (marks new) (p'.core h) l'

/-- A call stopped with an error, and the machine has a reason for it. -/
structure Parser.Breaks (km : Nat) (h : Handler F) (p p' : Parser F) (l : List UInt8) (e : Stop) :
    Prop where
  broke : ∃ err new os, e = .error err ∧ p'.calls = p.calls ++ new ∧
    (∀ call ∈ new, call.Piece p.stringChunkSize km) ∧
    (machine F p.limits).Emits (p.core h) l os ∧ marks new <+: os ∧
    Reason h p.limits p.stringChunkSize (p.core h) l p'.calls err new os

/-- Where a call left off. -/
structure Parser.Stands (km : Nat) (h : Handler F) (p p' : Parser F) (l : List UInt8) : Prop where
  inv : p'.Inv km
  same : p.Same p'
  flushed : p'.Flushed
  leftover : Leftover F p.limits (p'.core h) l

section Process

variable {h : Handler F} {p : Parser F} {input : Spans}

/-- The tokenizer's `receive`. -/
theorem withTokenizer_receive_spec (input : Spans) {t : Tokenizer} (hi : p.Inv km)
    (ht : p.tokenizer = some t) (hf : input.len = 0 → p.Flushed) (c : Nat) :
    Ensures (withTokenizer (receive ⟨h, p.limits, input⟩)) (p, c)
      (fun _ s => ∃ n, n ≤ input.len ∧ s.2 = c + n ∧
        p.Stands km h s.1 (input.bytes.drop n) ∧
        (p.Flushed → ∃ new, p.Moves km h s.1 input.bytes (input.bytes.drop n) new))
      (fun e s => ∃ n, n ≤ input.len ∧ s.2 = c + n ∧ s.1.Inv km ∧ p.Same s.1 ∧
        (p.Flushed → p.Breaks km h s.1 input.bytes e)) := by
  obtain ⟨hti, hchunk⟩ := hi.tokenizer t ht
  have hw : (p.world t).Inv input := hti.world ..
  have hpend : p.Flushed → (p.world t).pending = [] := fun h =>
    World.Flushed.pending fun hs => h t ht hs
  rw [ensures_withTokenizer ht]
  refine Ensures.mono (receive_refines hw hi.interner
    (by show (t.chunkSize : Nat) ≤ km; rw [hchunk]; exact hi.chunk)
    (fun h0 => fun hs => hf h0.symm t ht hs)) ?_ ?_
  · rintro - ⟨w, k⟩ ⟨hwi, hk, ⟨new, os, hr⟩, hstop⟩
    have hk' : w.tok.chunkSize = t.chunkSize := hr.chunkSize
    refine ⟨w.consumed, hwi.consumed_le, rfl,
      ⟨⟨?_, ?_, hk, hi.chunk⟩, ⟨rfl, rfl, rfl, rfl, rfl, fun _ => rfl⟩, ?_, ?_⟩, ?_⟩
    · rintro t' ⟨⟩
      exact ⟨hwi.tok, hk'.trans hchunk⟩
    · show p.checkedBom = true
      rw [hi.bom, ht]
      rfl
    · rintro t' ⟨⟩
      exact hstop.flushed
    · exact hstop.leftover
    · intro hfl
      -- nothing was pending and nothing is, so the marks are those of the callbacks
      have hm := hr.marks_eq
      rw [hpend hfl, hstop.flushed.pending, contentMarks_nil, List.append_nil,
        List.nil_append] at hm
      refine ⟨new, hr.calls, ?_, ?_⟩
      · intro call hc
        rw [← hchunk]
        exact hr.piece call hc
      · rw [hm, Parser.core_some ht]
        exact hr.steps
  · rintro e ⟨w, k⟩ ⟨hwi, hk, hb⟩
    obtain ⟨hk', err, new, os, he, hc, hp, hem, hm, hr⟩ := hb
    refine ⟨w.consumed, hwi.consumed_le, rfl, ⟨?_, ?_, hk, hi.chunk⟩,
      ⟨rfl, rfl, rfl, rfl, rfl, fun _ => rfl⟩, ?_⟩
    · rintro t' ⟨⟩
      exact ⟨hwi.tok, hk'.trans hchunk⟩
    · show p.checkedBom = true
      rw [hi.bom, ht]
      rfl
    · intro hfl
      rw [hpend hfl, contentMarks_nil, List.nil_append] at hm
      refine ⟨err, new, os, he, hc, ?_, ?_, hm, ?_⟩
      · intro call hc
        rw [← hchunk]
        exact hp call hc
      · rw [Parser.core_some ht]
        exact hem
      · rw [Parser.core_some ht, ← hchunk]
        exact hr

/-- The parser behind the byte order mark, or where there is none. -/
def Parser.begun (h : Handler F) (p : Parser F) : Parser F :=
  { p with checkedBom := true }.startTokenizer h

omit [Double F] in
theorem Parser.begun_eq (ht : p.tokenizer = none) : p.begun h = { p with
    checkedBom := true
    interner := .start p.interner.table
    tokenizer := some (.new p.rejectDuplicateKeys (h.needsWhitespace p.calls)
      p.stringChunkSize) } := by
  unfold begun startTokenizer
  simp only [ht]

omit [Double F] in
theorem Parser.Inv.begun (hi : p.Inv km) (ht : p.tokenizer = none) :
    (p.begun h).Inv km ∧ p.Same (p.begun h) ∧ (p.begun h).Flushed ∧ (p.begun h).calls = p.calls ∧
      (p.begun h).core h = { p.core h with bomChecked := true } := by
  rw [Parser.begun_eq ht, Parser.core_none ht]
  refine ⟨⟨?_, rfl, hi.interner.of_table rfl, hi.chunk⟩, ⟨rfl, rfl, rfl, rfl, rfl, fun _ => rfl⟩,
    ?_, rfl, rfl⟩
  · rintro t ⟨⟩
    exact ⟨Tokenizer.new_inv .., rfl⟩
  · rintro t ⟨⟩ ⟨⟩

omit [Double F] in
theorem Parser.core_bomChecked (ht : p.tokenizer = none) : (p.core h).bomChecked = false := by
  rw [Parser.core_none ht]
  rfl

/-- The machine looks for the byte order mark. -/
theorem Parser.next_begin (ht : p.tokenizer = none) (l : List UInt8) :
    (p.core h).next (F := F) p.limits l =
      match bomFront l with
      | .need => .need
      | .bad => .fail []
      | .found n => .step n { p.core h with bomChecked := true } [] := by
  refine (if_pos (by rw [Parser.core_bomChecked ht]; rfl)).trans ?_
  cases bomFront l <;> rfl

/-- **`process`** takes the machine on over the bytes of `input`, as far as it says. -/
theorem process_spec (hi : p.Inv km) (hl : input.bytes ≠ []) :
    Ensures (process h input) (p, 0)
      (fun _ s => s.2 ≤ input.len ∧ p.Stands km h s.1 (input.bytes.drop s.2) ∧
        (p.Flushed → ∃ new, p.Moves km h s.1 input.bytes (input.bytes.drop s.2) new))
      (fun e s => s.2 ≤ input.len ∧ s.1.Inv km ∧ p.Same s.1 ∧
        (p.Flushed → p.Breaks km h s.1 input.bytes e)) := by
  have hpos : input.len ≠ 0 := by rw [Spans.len, Ne, List.length_eq_zero_iff]; exact hl
  unfold process skipBom
  simp only [ensures_bind, ensures_get]
  obtain ⟨t, ht⟩ | ht : (∃ t, p.tokenizer = some t) ∨ p.tokenizer = none := by
    cases p.tokenizer <;> simp
  -- the mark was looked for: all of the input goes to the tokenizer
  · have hb : p.checkedBom = true := by rw [hi.bom, ht]; rfl
    have hstart : p.startTokenizer h = p := by simp [Parser.startTokenizer, ht]
    rw [if_pos hb]
    simp only [ensures_bind, ensures_pure, ensures_modify, ensures_get, hstart]
    refine (withTokenizer_receive_spec input hi ht (fun h0 => absurd h0 hpos) 0).mono ?_ ?_
    · rintro - ⟨p', c⟩ ⟨n, hn, hc, hst, hm⟩
      obtain rfl : c = n := hc.trans (Nat.zero_add n)
      exact ⟨hn, hst, hm⟩
    · rintro e ⟨p', c⟩ ⟨n, hn, hc, hi', hs, hb⟩
      obtain rfl : c = n := hc.trans (Nat.zero_add n)
      exact ⟨hn, hi', hs, hb⟩
  -- the first call: what the input starts with is the first step of the machine
  · have hb : p.checkedBom = false := by rw [hi.bom, ht]; rfl
    have hbom := checkBom_spec input
    have hnext := Parser.next_begin (h := h) ht input.bytes
    have hfl : p.Flushed := by
      intro t h
      rw [ht] at h
      cases h
    rw [if_neg (by rw [hb]; simp)]
    simp only [ensures_bind]
    cases hf : bomFront input.bytes with
    | need =>
      rw [hf] at hbom hnext
      rw [show checkBom input = .ok .needMore from hbom]
      simp only [ensures_ofExcept_ok, ensures_pure]
      refine ⟨Nat.zero_le _, ⟨hi, .refl p, hfl, .need hnext⟩, fun _ => ⟨[], ?_⟩⟩
      exact ⟨by simp, by simp, .refl⟩
    | bad =>
      rw [hf] at hbom hnext
      obtain ⟨m, hm⟩ := hbom
      rw [hm]
      simp only [ensures_ofExcept_error]
      exact ⟨Nat.zero_le _, hi, .refl p, fun _ => ⟨_, [], [], rfl, by simp, by simp, .nil,
        List.nil_prefix, .failed (fails_of_next hnext) rfl⟩⟩
    | found n =>
      rw [hf] at hbom hnext
      rw [show checkBom input = .ok (.skip n) from hbom]
      simp only [ensures_ofExcept_ok, ensures_set, ensures_bind, ensures_pure, ensures_modify,
        ensures_get]
      obtain ⟨hi₁, hsame, hfl₁, hcalls, hcore⟩ := hi.begun (h := h) ht
      have hlim : (p.begun h).limits = p.limits := hsame.limits
      have hchunk : (p.begun h).stringChunkSize = p.stringChunkSize := hsame.stringChunkSize
      have hn : n ≤ input.len := (bomFront_bound hf).2
      have hstep : (machine F p.limits).Steps (p.core h) input.bytes [] ((p.begun h).core h)
          (input.bytes.drop n) := by
        rw [hcore]
        exact steps_of_next hnext
      have hlen : (input.skip n).len = input.len - n := List.length_drop
      have hspec := withTokenizer_receive_spec (h := h) (input.skip n) hi₁
        (by rw [Parser.begun_eq ht]) (fun _ => hfl₁) n
      rw [hlim] at hspec
      rw [Nat.zero_add, show Parser.startTokenizer h { p with checkedBom := true } = p.begun h
        from rfl, hlim]
      refine hspec.mono ?_ ?_
      · rintro - ⟨p', c⟩ ⟨k, hk, hc, hst, hm⟩
        obtain rfl : c = n + k := hc
        have hdrop : (input.skip n).bytes.drop k = input.bytes.drop (n + k) := List.drop_drop
        rw [hdrop] at hst hm
        refine ⟨by show n + k ≤ _; omega, ⟨hst.inv, hsame.trans hst.same, hst.flushed, ?_⟩,
          fun _ => ?_⟩
        · rw [← hlim]
          exact hst.leftover
        · obtain ⟨new, hnew, hpiece, hsteps⟩ := hm hfl₁
          rw [hchunk] at hpiece
          rw [hlim] at hsteps
          exact ⟨new, by rw [hnew, hcalls], hpiece, hstep.trans hsteps⟩
      · rintro e ⟨p', c⟩ ⟨k, hk, hc, hi', hs, hbr⟩
        obtain rfl : c = n + k := hc
        refine ⟨by show n + k ≤ _; omega, hi', hsame.trans hs, fun _ => ?_⟩
        obtain ⟨err, new, os, he, hnew, hpiece, hem, hpre, hr⟩ := hbr hfl₁
        rw [hchunk] at hpiece hr
        rw [hlim] at hem hr
        refine ⟨err, new, os, he, by rw [hnew, hcalls], hpiece, hstep.trans_emits hem, hpre, ?_⟩
        exact hr.prepend hstep

end Process

/-! ## `feed` -/

section Feed

variable {h : Handler F} {s : Session F}

/-- The rest of a ring of which some bytes were released. -/
def LoopBuf.Released (b b' : LoopBuf) : Prop := ∃ n, n ≤ b.len ∧ b' = b.advance n

theorem LoopBuf.Released.refl (b : LoopBuf) : b.Released b := ⟨0, Nat.zero_le _, rfl⟩

/-- There are more bytes in the document than there may be, `available` of them in the ring. -/
def Parser.TooLong (p : Parser F) (available : Nat) : Prop :=
  exceeds p.limits.maxDocumentLength (p.documentLength + (available - p.unconsumed)) = true

/-- How `feed` stops with an error. -/
inductive FeedError (km : Nat) (h : Handler F) (checkRoom : Bool) (s s' : Session F) (e : Stop) :
    Prop where
  | tooLong (limit : s.parser.TooLong s.buf.len)
      (calls : s'.parser.calls = s.parser.calls) (eq : ∃ m, e = .err m)
  | broke (breaks : s.parser.Flushed → s.parser.Breaks km h s'.parser s.buf.bytes e)
  | noRoom (check : checkRoom = true) (ne : s.buf.bytes ≠ []) (full : s.buf.isFull = true)
      (kept : s'.buf = s.buf)
      (stands : s.parser.Stands km h s'.parser s'.buf.bytes)
      (moves : s.parser.Flushed →
        ∃ new, s.parser.Moves km h s'.parser s.buf.bytes s'.buf.bytes new)
      (eq : e = .err (bufferTooSmall s.buf.len))

omit [Double F] in
theorem countDocument_spec (n : Nat) (s : Session F) :
    Ensures (countDocument n) s
      (fun _ s' => ∃ k, s' = { s with parser := { s.parser with documentLength := k } })
      (fun e s' => s.parser.TooLong n ∧ (∃ m, e = .err m) ∧
        ∃ k, s' = { s with parser := { s.parser with documentLength := k } }) := by
  unfold countDocument
  simp only [ensures_bind, ensures_get]
  cases hm : s.parser.limits.maxDocumentLength with
  | none => exact ⟨s.parser.documentLength, rfl⟩
  | some max =>
    simp only [modifyParser, ensures_bind, ensures_modify]
    split
    · next hlt => exact ⟨by simpa [Parser.TooLong, hm] using hlt, ⟨_, rfl⟩, _, rfl⟩
    · exact ⟨_, rfl⟩

/-- Counters that the machine does not see. -/
def Parser.counted (p : Parser F) (documentLength unconsumed : Nat) (underflow : Bool) : Parser F :=
  { p with documentLength := documentLength, unconsumed := unconsumed, underflow := underflow }

omit [Double F] in
theorem Parser.Inv.counted {p : Parser F} (hi : p.Inv km) (m n : Nat) (u : Bool) :
    (p.counted m n u).Inv km := ⟨hi.tokenizer, hi.bom, hi.interner, hi.chunk⟩

theorem processRing_spec {Q : Parser F × Nat → Prop} {E : Stop → Parser F × Nat → Prop}
    (hp : Ensures (process h s.buf.spans) (s.parser, 0) (fun _ => Q) E) :
    Ensures (processRing h) s
      (fun n s' => ∃ p', s' = ⟨p', s.buf.advance n⟩ ∧ Q (p', n))
      (fun e s' => ∃ p' n, s' = ⟨p', s.buf.advance n⟩ ∧ E e (p', n)) := by
  unfold Ensures processRing at *
  cases hr : process h s.buf.spans (s.parser, 0) with
  | ok a r => rw [hr] at hp; exact ⟨r.1, rfl, hp⟩
  | error e r => rw [hr] at hp; exact ⟨r.1, r.2, rfl, hp⟩

theorem feed_spec (checkRoom : Bool) (hi : s.parser.Inv km) :
    Ensures (feed h checkRoom) s
      (fun _ s' => s'.parser.Inv km ∧ s.parser.Same s'.parser ∧
        s.buf.Released s'.buf ∧
        (s.buf.bytes = [] → s' = s) ∧
        (s.buf.bytes ≠ [] → s.parser.Stands km h s'.parser s'.buf.bytes) ∧
        (checkRoom = true → s.buf.bytes ≠ [] → s'.buf.isFull = false) ∧
        (s.parser.Flushed → ∃ new, s.parser.Moves km h s'.parser s.buf.bytes s'.buf.bytes new))
      (fun e s' => s'.parser.Inv km ∧ s.parser.Same s'.parser ∧
        s.buf.Released s'.buf ∧
        FeedError km h checkRoom s s' e) := by
  unfold feed
  simp only [ensures_bind, ensures_get]
  by_cases hb : s.buf.len = 0
  · have hnil : s.buf.bytes = [] := List.length_eq_zero_iff.mp hb
    rw [if_pos hb, ensures_pure]
    exact ⟨hi, .refl _, .refl _, fun _ => rfl, fun h => absurd hnil h, fun _ h => absurd hnil h,
      fun _ => ⟨[], by simp, by simp, .refl⟩⟩
  have hne : s.buf.bytes ≠ [] := fun h => hb (by rw [LoopBuf.len, h]; rfl)
  rw [if_neg hb, ensures_bind]
  refine (countDocument_spec s.buf.len s).mono ?_ ?_
  · rintro - s₁ ⟨k, rfl⟩
    rw [ensures_bind]
    have hi₁ : Parser.Inv km { s.parser with documentLength := k } :=
      hi.counted k s.parser.unconsumed s.parser.underflow
    have hspec := process_spec (h := h) (p := { s.parser with documentLength := k })
      hi₁ (by rw [LoopBuf.spans_bytes]; exact hne)
    rw [LoopBuf.spans_bytes, show s.buf.spans.len = s.buf.len from
      congrArg List.length s.buf.spans_bytes] at hspec
    refine (processRing_spec hspec).mono ?_ ?_
    · rintro n s₂ ⟨p', rfl, hn, hst, hm⟩
      simp only [ensures_bind, ensures_get, modifyParser, ensures_modify]
      have hst' : s.parser.Stands km h (p'.counted p'.documentLength (s.buf.advance n).len
          (decide (0 < (s.buf.advance n).len))) (s.buf.bytes.drop n) :=
        ⟨hst.inv.counted .., ⟨hst.same.limits, hst.same.rejectDuplicateKeys,
          hst.same.stringChunkSize, hst.same.bufferSize, hst.same.closed, hst.same.started⟩,
            hst.flushed,
          hst.leftover⟩
      have hm' : s.parser.Flushed → ∃ new, s.parser.Moves km h (p'.counted p'.documentLength
          (s.buf.advance n).len (decide (0 < (s.buf.advance n).len))) s.buf.bytes
          (s.buf.bytes.drop n) new := by
        intro hfl
        obtain ⟨new, h1, h2, h3⟩ := hm hfl
        exact ⟨new, h1, h2, h3⟩
      by_cases hfull : (checkRoom && n == 0 && (s.buf.advance n).isFull) = true
      · rw [if_pos hfull]
        simp only [Bool.and_eq_true, beq_iff_eq] at hfull
        obtain ⟨⟨hcheck, rfl⟩, hfull⟩ := hfull
        exact ⟨hst'.inv, hst'.same, ⟨0, hn, rfl⟩, .noRoom hcheck hne hfull rfl hst' hm' rfl⟩
      · rw [if_neg hfull]
        refine ⟨hst'.inv, hst'.same, ⟨n, hn, rfl⟩, fun h => absurd h hne, fun _ => hst', ?_, hm'⟩
        rintro rfl -
        by_contra hf
        refine hfull ?_
        rw [Bool.not_eq_false] at hf
        have hlen : (s.buf.advance n).bytes.length = s.buf.capacity := by
          simpa [LoopBuf.isFull, LoopBuf.advance] using hf
        have hfits := s.buf.fits
        have h0 : n = 0 := by
          rw [LoopBuf.advance, List.length_drop] at hlen
          unfold LoopBuf.len at hb
          omega
        subst h0
        rw [hf]
        rfl
    · rintro e s₂ ⟨p', n, rfl, hn, hi', hs, hbr⟩
      refine ⟨hi', ⟨hs.limits, hs.rejectDuplicateKeys, hs.stringChunkSize, hs.bufferSize,
        hs.closed, hs.started⟩, ⟨n, hn, rfl⟩, .broke fun hfl => ?_⟩
      obtain ⟨err, new, os, h1, h2, h3, h4, h5, h6⟩ := hbr hfl
      exact ⟨err, new, os, h1, h2, h3, h4, h5, h6⟩
  · rintro e s₁ ⟨hlim, hm, k, rfl⟩
    exact ⟨hi.counted k s.parser.unconsumed s.parser.underflow, ⟨rfl, rfl, rfl, rfl, rfl, id⟩,
      .refl _, .tooLong hlim rfl hm⟩

/-- The bytes in the ring `buf` are counted, and are not too many. -/
structure Parser.Counts (p p' : Parser F) (buf buf' : LoopBuf) : Prop where
  unconsumed : p'.unconsumed = buf'.len
  length : p.limits.maxDocumentLength ≠ none →
    p'.documentLength = p.documentLength + (buf.len - p.unconsumed)
  fits : exceeds p.limits.maxDocumentLength (p.documentLength + (buf.len - p.unconsumed)) = false

omit [Double F] in
theorem withTokenizer_counters {α : Type} (m : KeyM F α) (p : Parser F) (c : Nat) :
    Ensures (withTokenizer m) (p, c) (fun _ r => r.1.documentLength = p.documentLength)
      (fun _ _ => True) := by
  cases ht : p.tokenizer with
  | none =>
    have : withTokenizer m (p, c) = .error .panic (p, c) := by
      unfold withTokenizer
      simp only [ht]
    rw [ensures_error this]
    trivial
  | some t =>
    rw [ensures_withTokenizer ht]
    unfold Ensures
    cases m (p.world t, p.interner)
    · exact rfl
    · exact trivial

/-- `process` counts nothing. -/
theorem process_counters (input : Spans) (p : Parser F) :
    Ensures (process h input) (p, 0) (fun _ r => r.1.documentLength = p.documentLength)
      (fun _ _ => True) := by
  have hbom : Ensures (skipBom input) (p, 0)
      (fun _ r => r.1.documentLength = p.documentLength) (fun _ _ => True) := by
    unfold skipBom
    simp only [ensures_bind, ensures_get]
    split
    · rfl
    · cases checkBom input with
      | error e => trivial
      | ok b => cases b <;> rfl
  unfold process
  rw [ensures_bind]
  refine hbom.mono ?_ fun _ _ _ => trivial
  rintro (_ | input) ⟨p₁, c₁⟩ h₁
  · exact h₁
  · simp only [ensures_bind, ensures_modify, ensures_get]
    refine (withTokenizer_counters _ (p₁.startTokenizer h) c₁).mono ?_ fun _ _ _ => trivial
    rintro - r hr
    rw [hr, ← h₁]
    unfold Parser.startTokenizer
    cases p₁.tokenizer <;> rfl

omit [Double F] in
theorem countDocument_counts (n : Nat) (s : Session F) :
    Ensures (countDocument n) s
      (fun _ s' => s'.buf = s.buf ∧ (s.parser.limits.maxDocumentLength ≠ none →
          s'.parser.documentLength = s.parser.documentLength + (n - s.parser.unconsumed)) ∧
        ¬ s.parser.TooLong n) (fun _ _ => True) := by
  unfold countDocument Parser.TooLong
  simp only [ensures_bind, ensures_get]
  cases hm : s.parser.limits.maxDocumentLength with
  | none => exact ⟨rfl, fun h => absurd rfl h, by simp⟩
  | some max =>
    simp only [modifyParser, ensures_bind, ensures_modify]
    split
    · trivial
    · next hlt => exact ⟨rfl, fun _ => rfl, by simpa using hlt⟩

/-- **What `feed` counts.** -/
theorem feed_counts (checkRoom : Bool) (s : Session F) (hb : s.buf.bytes ≠ []) :
    Ensures (feed h checkRoom) s (fun _ s' => s.parser.Counts s'.parser s.buf s'.buf)
      (fun _ _ => True) := by
  unfold feed
  simp only [ensures_bind, ensures_get]
  rw [if_neg fun h0 : s.buf.len = 0 => hb (List.length_eq_zero_iff.mp h0), ensures_bind]
  refine (countDocument_counts s.buf.len s).mono ?_ fun _ _ _ => trivial
  rintro - s₁ ⟨hbuf, hlen, hfits⟩
  rw [ensures_bind]
  refine (processRing_spec (process_counters s₁.buf.spans s₁.parser)).mono ?_ fun _ _ _ => trivial
  rintro n s₂ ⟨p', rfl, hp'⟩
  simp only [ensures_bind, ensures_get, modifyParser, ensures_modify]
  split
  · trivial
  · exact ⟨rfl, fun h => hp'.trans (hlen h), by simpa [Parser.TooLong] using hfits⟩

end Feed

/-! ## `close` -/

section Close

variable {h : Handler F}

omit [Double F] in
/-- What a number ends with is no piece. -/
theorem piece_number {v : Number F} {l : SharedLocator} (n km : Nat) :
    ∀ call ∈ ([⟨.numberValue v, l⟩] : List (Call F)), call.Piece n km := by
  intro call hc
  rw [List.mem_singleton.mp hc]
  trivial

/-- How `end_of_input` stops with an error: the input may not end here, or the handler refused the
number it ends with. -/
def EndError (h : Handler F) (w : World F) (e : Stop) (w' : World F) : Prop :=
  ∃ err new, e = .error err ∧ w'.calls = w.calls ++ new ∧
    (∀ n km, ∀ call ∈ new, call.Piece n km) ∧
    ((w.core.endInput (F := F) = none ∧ new = []) ∨
      (∃ c', w.core.endInput = some (c', marks new)) ∧ new ≠ [] ∧ h.reply w'.calls = some err)

/-- `emit_number` at the end of the input. -/
theorem emitNumber_spec {w : World F} (hi : w.tok.Inv) (hs : w.tok.inString = false)
    (hend : w.core.endInput (F := F) =
      some (w.core.endNumber, [w.core.endNumber.mark (.numberValue w.core.number.value)])) :
    Ensures (emitNumber h) w
      (fun _ w' => w'.tok.Inv ∧ w'.tok.chunkSize = w.tok.chunkSize ∧ w'.tok.inString = false ∧
        ∃ new, w'.calls = w.calls ++ new ∧ (∀ n km, ∀ call ∈ new, call.Piece n km) ∧
          w.core.endInput = some (w'.core, marks new))
      (fun e w' => w'.tok.Inv ∧ w'.tok.chunkSize = w.tok.chunkSize ∧ EndError h w e w') := by
  unfold emitNumber
  simp only [addColumn, modifyTok, ensures_bind, ensures_get, ensures_modify]
  have hinv : Tokenizer.Inv
      { w.tok with number := { w.tok.number with stage := .none }, state := .afterValue } :=
    ⟨hi.chars_le, hi.depth_eq, fun _ => rfl⟩
  refine (callback_spec h _ _).mono ?_ ?_
  · rintro - w' ⟨rfl, -⟩
    exact ⟨hinv, rfl, hs, _, rfl, piece_number, hend⟩
  · rintro e w' ⟨rfl, err, rfl, hr⟩
    exact ⟨hinv, rfl, err, _, rfl, rfl, piece_number, .inr ⟨⟨_, hend⟩, by simp, hr⟩⟩

/-- `end_of_input` does what the machine does where the input ends. -/
theorem endOfInput_spec {w : World F} (hi : w.tok.Inv) :
    Ensures (endOfInput h) w
      (fun _ w' => w'.tok.Inv ∧ w'.tok.chunkSize = w.tok.chunkSize ∧ w'.tok.inString = false ∧
        ∃ new, w'.calls = w.calls ++ new ∧ (∀ n km, ∀ call ∈ new, call.Piece n km) ∧
          w.core.endInput = some (w'.core, marks new))
      (fun e w' => w'.tok.Inv ∧ w'.tok.chunkSize = w.tok.chunkSize ∧ EndError h w e w') := by
  have stop (m : String) (hn : w.core.endInput (F := F) = none) :
      w.tok.Inv ∧ w.tok.chunkSize = w.tok.chunkSize ∧ EndError h w (.err m) w :=
    ⟨hi, rfl, _, [], rfl, by simp, by simp, .inl ⟨hn, rfl⟩⟩
  unfold endOfInput
  simp only [ensures_bind, ensures_get]
  by_cases hs : w.tok.inString = true
  · rw [if_pos hs]
    exact stop _ (if_pos hs)
  have hs' : w.tok.inString = false := by simpa using hs
  have hend := Core.endInput_outside (F := F) (c := w.core) hs'
  rw [show w.core.number = w.tok.number from rfl] at hend
  rw [if_neg hs]
  cases hn : w.tok.number.stage <;> rw [hn] at hend
  case none => exact ⟨hi, rfl, hs', [], by simp, by simp, hend⟩
  case afterMinus | fractionDot | exponentMark | exponentSign => exact stop _ hend
  case zero | integer | fraction | exponent => exact emitNumber_spec hi hs' hend

/-- `receive` is `feed`, unless the parser is closed. -/
theorem receive_spec {s : Session F} (hi : s.parser.Inv km) :
    Ensures (Parser.receive h) s
      (fun _ s' => s.parser.closed = false ∧ s'.parser.Inv km ∧ s.parser.Same s'.parser ∧
        s.buf.Released s'.buf ∧ (s.buf.bytes = [] → s' = s) ∧
        (s.buf.bytes ≠ [] → s.parser.Stands km h s'.parser s'.buf.bytes) ∧
        (s.buf.bytes ≠ [] → s'.buf.isFull = false) ∧
        (s.parser.Flushed → ∃ new, s.parser.Moves km h s'.parser s.buf.bytes s'.buf.bytes new))
      (fun e s' => (s.parser.closed = true ∧ s' = s ∧ ∃ m, e = .err m) ∨
        s.parser.closed = false ∧ s'.parser.Inv km ∧ s.parser.Same s'.parser ∧
          s.buf.Released s'.buf ∧ FeedError km h true s s' e) := by
  unfold Parser.receive
  simp only [ensures_bind, ensures_get]
  by_cases hc : s.parser.closed = true
  · rw [if_pos hc]
    exact .inl ⟨hc, rfl, _, rfl⟩
  have hc' : s.parser.closed = false := by simpa using hc
  rw [if_neg hc]
  refine (feed_spec true hi).mono ?_ ?_
  · rintro - s' ⟨h1, h2, h3, h4, h5, h6, h7⟩
    exact ⟨hc', h1, h2, h3, h4, h5, h6 rfl, h7⟩
  · rintro e s' ⟨h1, h2, h3, h4⟩
    exact .inr ⟨hc', h1, h2, h3, h4⟩

/-- What `receive` counts. -/
theorem receive_counts (s : Session F) :
    Ensures (Parser.receive h) s
      (fun _ s' => s.buf.bytes ≠ [] → s.parser.Counts s'.parser s.buf s'.buf)
        (fun _ _ => True) := by
  unfold Parser.receive
  simp only [ensures_bind, ensures_get]
  split
  · trivial
  by_cases hb : s.buf.bytes = []
  · exact (Ensures.trivial _ _).mono (fun _ _ _ hne => absurd hb hne) fun _ _ _ => trivial
  · exact (feed_counts true s hb).mono (fun _ _ hc _ => hc) fun _ _ _ => trivial

/-- The state of the machine before the first token is not complete. -/
theorem Parser.ending_none {p : Parser F} (ht : p.tokenizer = none) (l : List UInt8) :
    (p.core h).ending (F := F) l = (false, []) := by
  unfold Core.ending
  split
  · rfl
  · rw [Parser.core_none ht]
    rfl

omit [Double F] in
theorem Parser.core_bom {p : Parser F} (hs : (p.core h).inString = true) :
    (p.core h).bomChecked = true := by
  unfold Parser.core at hs ⊢
  cases ht : p.tokenizer with
  | none => rw [ht] at hs; cases hs
  | some t => rfl

/-- How `close` stops with an error. -/
inductive CloseError (km : Nat) (h : Handler F) (p p' : Parser F) (l : List UInt8) (e : Stop) :
    Prop where
  | tooLong (limit : p.TooLong l.length) (calls : p'.calls = p.calls)
  | broke (breaks : p.Breaks km h p' l e)
  | unended (mid last : List (Call F)) (c : Core) (l' : List UInt8)
      (calls : p'.calls = p.calls ++ mid ++ last)
      (piece : ∀ call ∈ mid ++ last, call.Piece p.stringChunkSize km)
      (steps : (machine F p.limits).Steps (p.core h) l (marks mid) c l')
      (leftover : Leftover F p.limits c l') (bom : c.inString = true → c.bomChecked = true)
      (ending : c.ending l' = (false, marks last))
  | refused (mid last : List (Call F)) (c c' : Core) (err : ParseError) (eq : e = .error err)
      (calls : p'.calls = p.calls ++ mid ++ last)
      (piece : ∀ call ∈ mid ++ last, call.Piece p.stringChunkSize km)
      (steps : (machine F p.limits).Steps (p.core h) l (marks mid) c [])
      (ending : c.endInput = some (c', marks last)) (ne : last ≠ [])
      (reply : h.reply p'.calls = some err)

/-- `close` asks the tokenizer to end. -/
theorem closeTokenizer_spec {s : Session F} {t : Tokenizer} (hi : s.parser.Inv km)
    (ht : s.parser.tokenizer = some t) :
    Ensures (closeTokenizer h) s
      (fun _ s' => s'.parser.Inv km ∧ s.parser.Same s'.parser ∧ s'.buf = s.buf ∧
        (∃ t', s'.parser.tokenizer = some t') ∧ ∃ last, s'.parser.calls = s.parser.calls ++ last ∧
          (∀ n km, ∀ call ∈ last, call.Piece n km) ∧
          (s.parser.core h).endInput = some (s'.parser.core h, marks last))
      (fun e s' => s'.parser.Inv km ∧ s.parser.Same s'.parser ∧ s'.buf = s.buf ∧
        EndError h (s.parser.world t) e ⟨t, s'.parser.locator, s'.parser.calls, 0⟩) := by
  obtain ⟨hti, hchunk⟩ := hi.tokenizer t ht
  have hp : Ensures (withTokenizer (zoom (endOfInput h))) (s.parser, 0)
      (fun _ r => r.1.Inv km ∧ s.parser.Same r.1 ∧ (∃ t', r.1.tokenizer = some t') ∧
        ∃ last, r.1.calls = s.parser.calls ++ last ∧ (∀ n km, ∀ call ∈ last, call.Piece n km) ∧
          (s.parser.core h).endInput = some (r.1.core h, marks last))
      (fun e r => r.1.Inv km ∧ s.parser.Same r.1 ∧
        EndError h (s.parser.world t) e ⟨t, r.1.locator, r.1.calls, 0⟩) := by
    have inv (w : World F) (hw : w.tok.Inv) (hk : w.tok.chunkSize = t.chunkSize) :
        (s.parser.resumed (w, s.parser.interner)).Inv km := by
      refine ⟨?_, ?_, hi.interner, hi.chunk⟩
      · rintro t' ⟨⟩
        exact ⟨hw, hk.trans hchunk⟩
      · show s.parser.checkedBom = true
        rw [hi.bom, ht]
        rfl
    rw [ensures_withTokenizer ht, ensures_zoom]
    refine (endOfInput_spec (w := s.parser.world t) hti).mono ?_ ?_
    · rintro - w ⟨hw, hk, -, last, hc, hpiece, hend⟩
      refine ⟨inv w hw hk, ⟨rfl, rfl, rfl, rfl, rfl, fun _ => rfl⟩, ⟨_, rfl⟩, last, hc, hpiece, ?_⟩
      rw [Parser.core_some ht]
      exact hend
    · rintro e w ⟨hw, hk, he⟩
      exact ⟨inv w hw hk, ⟨rfl, rfl, rfl, rfl, rfl, fun _ => rfl⟩, he⟩
  unfold Ensures closeTokenizer at *
  cases hr : withTokenizer (zoom (endOfInput h)) (s.parser, 0) with
  | ok a r =>
    rw [hr] at hp
    obtain ⟨h1, h2, h3, h4⟩ := hp
    exact ⟨h1, h2, rfl, h3, h4⟩
  | error e r =>
    rw [hr] at hp
    obtain ⟨h1, h2, h3⟩ := hp
    exact ⟨h1, h2, rfl, h3⟩

omit [Double F] in
/-- The checks at the end are the machine's. -/
theorem checkComplete_spec {s : Session F} {t : Tokenizer} (hi : s.parser.Inv km)
    (ht : s.parser.tokenizer = some t) :
    Ensures checkComplete s
      (fun _ s' => s' = s ∧ (s.parser.core h).complete = true)
      (fun _ s' => s' = s ∧ (s.parser.core h).complete = false) := by
  have hdepth := (hi.tokenizer t ht).1.depth_eq
  have hcomplete : (s.parser.core h).complete = (t.seenAnyToken && t.contextStack.isEmpty) := by
    rw [Parser.core_some ht]
    rfl
  unfold checkComplete
  simp only [ensures_bind, ensures_get, ht]
  by_cases hs : t.seenAnyToken = true
  swap
  · have hs' : t.seenAnyToken = false := by simpa using hs
    rw [if_pos (by simp [hs'])]
    exact ⟨rfl, by rw [hcomplete, hs']; rfl⟩
  rw [if_neg (by simp [hs])]
  cases hc : t.contextStack with
  | nil =>
    rw [show t.depthStack = [] by rw [hdepth, hc]; rfl]
    exact ⟨rfl, by rw [hcomplete, hs, hc]; rfl⟩
  | cons c cs =>
    have hf : (s.parser.core h).complete = false := by rw [hcomplete, hc]; simp
    rw [show t.depthStack = c.nest :: cs.map Context.nest by rw [hdepth, hc]; rfl]
    cases c <;> exact ⟨rfl, hf⟩

/-- The last part of `close`, where nothing is left in the ring. -/
theorem closeEnd_spec {s : Session F} {t : Tokenizer} (hi : s.parser.Inv km)
    (ht : s.parser.tokenizer = some t) :
    Ensures (do closeTokenizer h; checkComplete) s
      (fun _ s' => s'.parser.Inv km ∧ s.parser.Same s'.parser ∧ s'.buf = s.buf ∧
        ∃ last, s'.parser.calls = s.parser.calls ++ last ∧
          (∀ n km, ∀ call ∈ last, call.Piece n km) ∧
          (s.parser.core h).ending [] = (true, marks last))
      (fun e s' => s'.parser.Inv km ∧ s.parser.Same s'.parser ∧ s'.buf = s.buf ∧
        ∃ last, s'.parser.calls = s.parser.calls ++ last ∧
          (∀ n km, ∀ call ∈ last, call.Piece n km) ∧
          ((s.parser.core h).ending [] = (false, marks last) ∨
            ∃ c' err, (s.parser.core h).endInput = some (c', marks last) ∧ last ≠ [] ∧
              e = .error err ∧ h.reply s'.parser.calls = some err)) := by
  have hending := (s.parser.core h).ending_nil (F := F)
  rw [ensures_bind]
  refine (closeTokenizer_spec hi ht).mono ?_ ?_
  · rintro - s₁ ⟨hi₁, hsame, hbuf, ⟨t', ht'⟩, last, hc, hpiece, hend⟩
    simp only [hend] at hending
    refine (checkComplete_spec (h := h) hi₁ ht').mono ?_ ?_
    · rintro - s' ⟨rfl, hcomplete⟩
      rw [hcomplete] at hending
      exact ⟨hi₁, hsame, hbuf, last, hc, hpiece, hending⟩
    · rintro e s' ⟨rfl, hcomplete⟩
      rw [hcomplete] at hending
      exact ⟨hi₁, hsame, hbuf, last, hc, hpiece, .inl hending⟩
  · rintro e s' ⟨hi', hsame, hbuf, err, last, he, hc, hpiece, ⟨hnone, rfl⟩ | ⟨⟨c', hend⟩, hne, hr⟩⟩
    · rw [Parser.core_some ht] at hending ⊢
      rw [show (s.parser.world t).core.endInput (F := F) = none from hnone] at hending
      exact ⟨hi', hsame, hbuf, [], hc, hpiece, .inl hending⟩
    · refine ⟨hi', hsame, hbuf, last, hc, hpiece, .inr ⟨c', err, ?_, hne, he, hr⟩⟩
      rw [Parser.core_some ht]
      exact hend

/-- The part of `close` that processes what is still in the ring. -/
theorem closeFeed_spec {s : Session F} (hi : s.parser.Inv km) (hf : s.parser.Flushed) :
    Ensures (closeFeed h) s
      (fun _ s' => s'.parser.Inv km ∧ s.parser.Same s'.parser ∧
        (∃ t, s'.parser.tokenizer = some t) ∧
        s'.parser.Flushed ∧ Leftover F s.parser.limits (s'.parser.core h) s'.buf.bytes ∧
        ∃ new, s.parser.Moves km h s'.parser s.buf.bytes s'.buf.bytes new)
      (fun e s' => s'.parser.Inv km ∧ s.parser.Same s'.parser ∧
        CloseError km h s.parser s'.parser s.buf.bytes e) := by
  have fed := feed_spec (h := h) (s := s) false hi
  have feedError (e : Stop) (s' : Session F) (he : FeedError km h false s s' e) :
      CloseError km h s.parser s'.parser s.buf.bytes e := by
    cases he with
    | tooLong limit calls eq => exact .tooLong limit calls
    | broke breaks => exact .broke (breaks hf)
    | noRoom check => cases check
  -- what `feed` did, whether there was anything in the ring or not
  have left (s' : Session F) (hnil : s.buf.bytes = [] → s' = s)
      (hst : s.buf.bytes ≠ [] → s.parser.Stands km h s'.parser s'.buf.bytes) :
      s'.parser.Flushed ∧ Leftover F s.parser.limits (s'.parser.core h) s'.buf.bytes := by
    by_cases hb : s.buf.bytes = []
    · rw [hnil hb]
      exact ⟨hf, .nothing hb⟩
    · exact ⟨(hst hb).flushed, (hst hb).leftover⟩
  unfold closeFeed
  simp only [ensures_bind, ensures_get]
  obtain ⟨t, ht⟩ | ht : (∃ t, s.parser.tokenizer = some t) ∨ s.parser.tokenizer = none := by
    cases s.parser.tokenizer <;> simp
  · simp only [ht]
    by_cases hb : s.buf.bytes = []
    · rw [if_neg (by simp [hb]), ensures_pure]
      exact ⟨hi, .refl _, ⟨t, ht⟩, hf, .nothing hb, [], by simp, by simp, .refl⟩
    · rw [if_pos hb]
      refine fed.mono ?_ ?_
      · rintro - s' ⟨hi', hsame, -, hnil, hst, -, hm⟩
        exact ⟨hi', hsame, Option.isSome_iff_exists.mp (hsame.started (by rw [ht]; rfl)),
          (left s' hnil hst).1, (left s' hnil hst).2, hm hf⟩
      · rintro e s' ⟨hi', hsame, -, he⟩
        exact ⟨hi', hsame, feedError e s' he⟩
  · simp only [ht, ensures_bind]
    refine fed.mono ?_ ?_
    · rintro - s' ⟨hi', hsame, -, hnil, hst, -, hm⟩
      obtain ⟨hfl, hleft⟩ := left s' hnil hst
      obtain ⟨new, hcalls, hpiece, hsteps⟩ := hm hf
      simp only [ensures_get]
      split
      · next hnone =>
        refine ⟨hi', hsame, .unended new [] _ _ (by rw [List.append_nil]; exact hcalls)
          (by rw [List.append_nil]; exact hpiece) hsteps hleft Parser.core_bom
          (Parser.ending_none hnone _)⟩
      · next hsome =>
        exact ⟨hi', hsame, Option.ne_none_iff_exists'.mp hsome, hfl, hleft, new, hcalls,
          hpiece, hsteps⟩
    · rintro e s' ⟨hi', hsame, -, he⟩
      exact ⟨hi', hsame, feedError e s' he⟩

/-- The parser while it closes. -/
def Parser.closing (p : Parser F) : Parser F := { p with closed := true }

/-- **`close`** succeeds where the machine comes to the end of the input and may end there. -/
theorem close_spec {s : Session F} (hi : s.parser.Inv km) (hf : s.parser.Flushed)
    (hopen : s.parser.closed = false) :
    Ensures (Parser.close h) s
      (fun _ s' => s'.parser.Inv km ∧ s.parser.closing.Same s'.parser ∧
        ∃ mid last c, s'.parser.calls = s.parser.calls ++ mid ++ last ∧
          (∀ call ∈ mid ++ last, call.Piece s.parser.stringChunkSize km) ∧
          (machine F s.parser.limits).Steps (s.parser.core h) s.buf.bytes (marks mid) c [] ∧
          c.ending [] = (true, marks last))
      (fun e s' => s'.parser.Inv km ∧ s.parser.closing.Same s'.parser ∧
        CloseError km h s.parser s'.parser s.buf.bytes e) := by
  unfold Parser.close
  simp only [ensures_bind, ensures_get]
  rw [if_neg (by simp [hopen])]
  simp only [modifyParser, ensures_bind, ensures_modify]
  have hi₁ : s.parser.closing.Inv km := ⟨hi.tokenizer, hi.bom, hi.interner, hi.chunk⟩
  refine (closeFeed_spec (h := h) (s := ⟨s.parser.closing, s.buf⟩) hi₁ hf).mono ?_ ?_
  · rintro - s₁ ⟨hi', hsame, ⟨t, ht⟩, hfl, hleft, mid, hcalls, hpiece, hsteps⟩
    simp only [ensures_get]
    by_cases hb : s₁.buf.bytes = []
    · rw [if_neg (by simp [hb])]
      rw [hb] at hsteps hleft
      refine (closeEnd_spec (h := h) hi' ht).mono ?_ ?_
      · rintro - s' ⟨hi'', hsame', -, last, hc, hp, hend⟩
        refine ⟨hi'', hsame.trans hsame', mid, last, _, ?_, ?_, hsteps, hend⟩
        · rw [hc, hcalls]
          rfl
        · exact List.forall_mem_append.mpr ⟨hpiece, hp _ _⟩
      · rintro e s' ⟨hi'', hsame', -, last, hc, hp, hend⟩
        have hcalls' : s'.parser.calls = s.parser.calls ++ mid ++ last := by
          rw [hc, hcalls]
          rfl
        have hpiece' := List.forall_mem_append.mpr ⟨hpiece, hp s.parser.stringChunkSize km⟩
        refine ⟨hi'', hsame.trans hsame', ?_⟩
        rcases hend with hend | ⟨c', err, hend, hne, he, hr⟩
        · exact .unended mid last _ [] hcalls' hpiece' hsteps (.nothing rfl) Parser.core_bom hend
        · exact .refused mid last _ c' err he hcalls' hpiece' hsteps hend hne hr
    · rw [if_pos hb, ensures_throw]
      refine ⟨hi', hsame, .unended mid [] _ _ (by rw [List.append_nil]; exact hcalls)
        (by rw [List.append_nil]; exact hpiece) hsteps hleft Parser.core_bom ?_⟩
      rw [Core.ending, if_pos hb]
      rfl
  · rintro e s' ⟨hi', hsame, he⟩
    refine ⟨hi', hsame, ?_⟩
    cases he with
    | tooLong limit calls => exact .tooLong limit calls
    | broke breaks =>
      obtain ⟨err, new, os, h1, h2, h3, h4, h5, h6⟩ := breaks
      exact .broke ⟨err, new, os, h1, h2, h3, h4, h5, h6⟩
    | unended mid last c l' h1 h2 h3 h4 h5 h6 => exact .unended mid last c l' h1 h2 h3 h4 h5 h6
    | refused mid last c c' err h1 h2 h3 h4 h5 h6 h7 =>
      exact .refused mid last c c' err h1 h2 h3 h4 h5 h6 h7

/-- What `close` counts. -/
theorem close_counts (s : Session F) (hopen : s.parser.closed = false) :
    Ensures (Parser.close h) s (fun _ _ => s.buf.bytes ≠ [] → ¬ s.parser.TooLong s.buf.len)
      (fun _ _ => True) := by
  have fed (hb : s.buf.bytes ≠ []) : Ensures (feed h false) ⟨s.parser.closing, s.buf⟩
      (fun _ _ => ¬ s.parser.TooLong s.buf.len) (fun _ _ => True) :=
    (feed_counts (h := h) false ⟨s.parser.closing, s.buf⟩ hb).mono
      (fun _ _ hc => by rw [Parser.TooLong, Bool.not_eq_true]; exact hc.fits) fun _ _ h => h
  by_cases hb : s.buf.bytes = []
  · exact (Ensures.trivial _ _).mono (fun _ _ _ hne => absurd hb hne) fun _ _ h => h
  refine Ensures.mono (Q := fun _ _ => ¬ s.parser.TooLong s.buf.len) (E := fun _ _ => True) ?_
    (fun _ _ hc _ => hc) fun _ _ h => h
  have after {α : Type} (x : SessionM F α) (s' : Session F)
      (hc : ¬ s.parser.TooLong s.buf.len) :
      Ensures x s' (fun _ _ => ¬ s.parser.TooLong s.buf.len) (fun _ _ => True) :=
    (Ensures.trivial x s').mono (fun _ _ _ => hc) fun _ _ h => h
  unfold Parser.close
  simp only [ensures_bind, ensures_get]
  rw [if_neg (by simp [hopen])]
  simp only [modifyParser, ensures_bind, ensures_modify]
  suffices hfeed : Ensures (closeFeed h) ⟨s.parser.closing, s.buf⟩
      (fun _ _ => ¬ s.parser.TooLong s.buf.len) (fun _ _ => True) from
    hfeed.mono (fun _ s' hc => after _ s' hc) fun _ _ h => h
  unfold closeFeed
  simp only [ensures_bind, ensures_get]
  cases s.parser.closing.tokenizer with
  | none =>
    simp only [ensures_bind]
    exact (fed hb).mono (fun _ s' hc => after _ s' hc) fun _ _ h => h
  | some t =>
    simp only
    rw [if_pos hb]
    exact fed hb

/-- `close` on a parser that is closed. -/
theorem close_closed {s : Session F} (hc : s.parser.closed = true) :
    Ensures (Parser.close h) s (fun _ s' => s' = s) (fun _ _ => False) := by
  unfold Parser.close
  simp only [ensures_bind, ensures_get]
  rw [if_pos hc]
  rfl

/-- `close` keeps the invariant, whatever is pending. -/
theorem close_inv {s : Session F} (hi : s.parser.Inv km) :
    Ensures (Parser.close h) s (fun _ s' => s'.parser.Inv km) (fun _ s' => s'.parser.Inv km) := by
  have fed (s : Session F) (hi : s.parser.Inv km) : Ensures (feed h false) s
      (fun _ s' => s'.parser.Inv km ∧ s.parser.Same s'.parser) (fun _ s' => s'.parser.Inv km) :=
    (feed_spec (h := h) false hi).mono (fun _ _ h => ⟨h.1, h.2.1⟩) fun _ _ h => h.1
  unfold Parser.close
  simp only [ensures_bind, ensures_get]
  by_cases hc : s.parser.closed = true
  · rw [if_pos hc]
    exact hi
  rw [if_neg hc]
  simp only [modifyParser, ensures_bind, ensures_modify]
  have hi₁ : s.parser.closing.Inv km := ⟨hi.tokenizer, hi.bom, hi.interner, hi.chunk⟩
  have hfeed : Ensures (closeFeed h) ⟨s.parser.closing, s.buf⟩
      (fun _ s' => s'.parser.Inv km ∧ ∃ t, s'.parser.tokenizer = some t)
      (fun _ s' => s'.parser.Inv km) := by
    unfold closeFeed
    simp only [ensures_bind, ensures_get]
    obtain ⟨t, ht⟩ | ht : (∃ t, s.parser.closing.tokenizer = some t) ∨
        s.parser.closing.tokenizer = none := by
      cases s.parser.closing.tokenizer <;> simp
    · simp only [ht]
      split
      · refine (fed _ hi₁).mono ?_ fun _ _ h => h
        rintro - s' ⟨hi', hsame⟩
        exact ⟨hi', Option.isSome_iff_exists.mp (hsame.started (by rw [ht]; rfl))⟩
      · exact ⟨hi₁, t, ht⟩
    · simp only [ht, ensures_bind]
      refine (fed _ hi₁).mono ?_ fun _ _ h => h
      rintro - s' ⟨hi', -⟩
      simp only [ensures_get]
      split
      · exact hi'
      · next hsome => exact ⟨hi', Option.ne_none_iff_exists'.mp hsome⟩
  refine hfeed.mono ?_ fun _ _ h => h
  rintro - s₁ ⟨hi', t, ht⟩
  simp only [ensures_get]
  split
  · exact hi'
  · exact (closeEnd_spec (h := h) hi' ht).mono (fun _ _ h => h.1) fun _ _ h => h.1

end Close

/-! ## Every session -/

omit [Double F] in
theorem Parser.Inv.mono {p : Parser F} {km' : Nat} (hi : p.Inv km) (h : km ≤ km') : p.Inv km' :=
  ⟨hi.tokenizer, hi.bom, hi.interner.mono h, hi.chunk.trans h⟩

/-- A step keeps the invariant, whatever it returns, if `km` bounds the string chunk size that it
sets. -/
theorem Op.result_inv_le {h : Handler F} {s : Session F} (hi : s.parser.Inv km) (op : Op)
    (hop : ∀ n, op = .setStringChunkSize n → n ≤ km) : (op.result h s).2.parser.Inv km := by
  have of_ensures (hop : Ensures (op.exec h) s (fun _ s' => s'.parser.Inv km)
      (fun _ s' => s'.parser.Inv km)) : (op.result h s).2.parser.Inv km := by
    unfold Ensures at hop
    unfold Op.result
    cases hr : op.exec h s <;> (rw [hr] at hop; exact hop)
  cases op with
  | write bytes layout => exact of_ensures hi
  | ring capacity layout => exact of_ensures hi
  | receive =>
    refine of_ensures ((receive_spec (h := h) hi).mono (fun _ _ h => h.2.1) ?_)
    rintro e s' (⟨-, rfl, -⟩ | ⟨-, hi', -⟩)
    · exact hi
    · exact hi'
  | close => exact of_ensures (close_inv hi)
  | reset =>
    have hi' : s.parser.reset.Inv km := ⟨by rintro t ⟨⟩, rfl, hi.interner, hi.chunk⟩
    exact of_ensures hi'
  | setLimits limits =>
    have hi' : (s.parser.setLimits limits).Inv km :=
      ⟨hi.tokenizer, hi.bom, hi.interner, hi.chunk⟩
    exact of_ensures hi'
  | setRejectDuplicateKeys b =>
    have hi' : (s.parser.setRejectDuplicateKeys b).Inv km :=
      ⟨hi.tokenizer, hi.bom, hi.interner, hi.chunk⟩
    exact of_ensures hi'
  | setStringChunkSize n => exact hi.setStringChunkSize n (hop n rfl)

/-- A step keeps the invariant, whatever it returns. -/
theorem Op.result_inv {h : Handler F} {s : Session F} (hi : s.parser.Inv km) (op : Op) :
    ∃ km', km ≤ km' ∧ (op.result h s).2.parser.Inv km' := by
  cases op with
  | setStringChunkSize n =>
    refine ⟨max km n, le_max_left _ _, Op.result_inv_le (hi.mono (le_max_left _ _)) _ ?_⟩
    rintro m ⟨⟩
    exact le_max_right _ _
  | _ => exact ⟨km, le_rfl, Op.result_inv_le hi _ (by simp)⟩

/-- **The invariant holds in every session that a caller can come to.** -/
theorem Reachable.inv {h : Handler F} {s : Session F} (hr : Reachable h s) :
    ∃ km, s.parser.Inv km := by
  induction hr with
  | new calls bufferSize capacity layout =>
    exact ⟨defaultStringChunkSize, by rintro t ⟨⟩, rfl, Interner.new_inv _, le_rfl⟩
  | step _ op ih =>
    obtain ⟨km, hi⟩ := ih
    obtain ⟨km', -, hi'⟩ := Op.result_inv hi op
    exact ⟨km', hi'⟩

end RJsonParser
