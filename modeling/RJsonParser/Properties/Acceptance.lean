import RJsonParser.Properties.Lexemes

/-!
# Acceptance

The machine without limits against the grammar, one lemma for each kind of leaf.

* `Accepts` — the machine takes the input to its end and may end there
* `Goes` — the machine goes over some bytes and puts out some events
* `Accepts.string_value`, `Accepts.key`, `Accepts.number_value` — what it does over each leaf
-/

namespace RJsonParser

open Infra Infra.Utf8

variable {F : Type} [Double F]

/-! ## Accepting and going -/

/-- The machine accepts the rest of a document, putting out the events `es` besides whitespace. -/
def Yields (c : Core) (l : List UInt8) (es : List (Event F)) : Prop :=
  ∃ os, Ends .unlimited c l true os ∧ dropWhitespace (eventsOf os) = es

/-- The machine accepts the rest of a document. -/
def Accepts (F : Type) [Double F] (c : Core) (l : List UInt8) : Prop :=
  ∃ es : List (Event F), Yields c l es

/-- The machine comes from `c` to `c'` over the bytes between `l` and `l'`, and puts out the events
`es` there besides whitespace. -/
def Goes (c : Core) (l : List UInt8) (es : List (Event F)) (c' : Core) (l' : List UInt8) : Prop :=
  ∀ all, Yields c l all ↔ ∃ es', all = es ++ es' ∧ Yields c' l' es'

section Basic

variable {c c' c₁ : Core} {l l' l₁ : List UInt8} {es es' : List (Event F)} {out : List (Mark F)}
  {n : Nat}

/-- There is one list of events. -/
theorem Yields.unique (h : Yields c l es) (h' : Yields c l es') : es = es' := by
  obtain ⟨os, ho, rfl⟩ := h
  obtain ⟨os', ho', rfl⟩ := h'
  rw [(ho.unique ho').2]

theorem Goes.refl (c : Core) (l : List UInt8) : Goes (F := F) c l [] c l := fun all => by simp

/-- Further and further. -/
theorem Goes.trans (h : Goes c l es c₁ l₁) (h' : Goes c₁ l₁ es' c' l') :
    Goes c l (es ++ es') c' l' := by
  intro all
  rw [h all]
  constructor
  · rintro ⟨more, rfl, hy⟩
    obtain ⟨rest, rfl, hy'⟩ := (h' more).mp hy
    exact ⟨rest, (List.append_assoc ..).symm, hy'⟩
  · rintro ⟨rest, rfl, hy⟩
    exact ⟨es' ++ rest, List.append_assoc .., (h' _).mpr ⟨rest, rfl, hy⟩⟩

/-- The machine goes so over its steps. -/
theorem Goes.of_steps {os : List (Mark F)} (hs : (machine F .unlimited).Steps c l os c' l') :
    Goes c l (dropWhitespace (eventsOf os)) c' l' := by
  intro all
  constructor
  · rintro ⟨os', he, rfl⟩
    obtain ⟨more, rfl, he'⟩ := he.of_steps_iff hs
    exact ⟨_, by rw [eventsOf_append, dropWhitespace_append], more, he', rfl⟩
  · rintro ⟨es', rfl, os', he, rfl⟩
    exact ⟨os ++ os', he.of_steps hs, by rw [eventsOf_append, dropWhitespace_append]⟩

theorem Goes.of_next (h : c.next .unlimited l = .step n c' out) :
    Goes c l (dropWhitespace (eventsOf out)) c' (l.drop n) := .of_steps (steps_of_next h)

/-- What is accepted is decided further on. -/
theorem Goes.accepts_iff (h : Goes c l es c' l') : Accepts F c l ↔ Accepts F c' l' := by
  constructor
  · rintro ⟨all, hy⟩
    obtain ⟨es', -, hy⟩ := (h all).mp hy
    exact ⟨es', hy⟩
  · rintro ⟨es', hy⟩
    exact ⟨es ++ es', (h _).mpr ⟨es', rfl, hy⟩⟩

/-- Where the machine accepts, it takes a step or has come to the end. -/
theorem Accepts.cases (h : Accepts F c l) :
    (∃ n c' out, c.next (F := F) .unlimited l = .step n c' out) ∨
      (l = [] ∧ (c.ending (F := F) []).1 = true) := by
  obtain ⟨_, os, ⟨mid, c₁, l₁, last, hs, hl, rfl⟩, -⟩ := h
  cases hs with
  | head hn _ => exact .inl ⟨_, _, _, hn⟩
  | refl => exact .inr (hl.accepted rfl)

/-- Nothing is accepted after a failure. -/
theorem not_accepts_of_fail (h : c.next (F := F) .unlimited l = .fail out) : ¬ Accepts F c l := by
  intro ha
  rcases ha.cases with ⟨n, c', out', hn⟩ | ⟨rfl, -⟩
  · rw [h] at hn; cases hn
  · rw [next_nil] at h; cases h

/-- Nor where more is needed. -/
theorem not_accepts_of_need (h : c.next (F := F) .unlimited l = .need) (hl : l ≠ []) :
    ¬ Accepts F c l := by
  intro ha
  rcases ha.cases with ⟨n, c', out', hn⟩ | ⟨rfl, -⟩
  · rw [h] at hn; cases hn
  · exact hl rfl

end Basic

/-! ## Where the machine stands -/

/-- Outside a string value and a number, in the state `state` and the containers `context`, with
`comma` if the last token was one and `seen` if there was a token. -/
structure Core.At (c : Core) (state : State) (context : List Context) (comma seen : Bool) :
    Prop where
  bom : c.bomChecked = true
  outside : c.inString = false
  noNumber : c.number.stage = .none
  state : c.state = state
  context : c.context = context
  comma : c.afterComma = comma
  seen : c.seenAny = seen
  keepsNone : c.rejectDuplicateKeys = false

section Tokens

variable {c c' : Core} {b : UInt8} {l : List UInt8} {state : State} {context : List Context}
  {comma seen : Bool}

theorem isWs_of_tokenKind (h : tokenKind b ≠ .other) : isWs b = false := by
  have key : ∀ b, tokenKind b ≠ .other → isWs b = false := forall_byte (by decide +kernel)
  exact key b h

/-- The machine goes over whitespace. -/
theorem goes_ws (h : c.At state context comma seen) (w : List UInt8) (hw : ∀ b ∈ w, isWs b = true)
    (l : List UInt8) : ∃ c', Goes (F := F) c (w ++ l) [] c' l ∧ c'.At state context comma seen := by
  induction w generalizing c with
  | nil => exact ⟨c, .refl c l, h⟩
  | cons b w ih =>
    obtain ⟨p, hp⟩ : ∃ p, wsByte c.pos b = some p := by
      refine Option.ne_none_iff_exists'.mp fun hn => ?_
      rw [wsByte_isWs, hw b (by simp)] at hn
      cases hn
    have hnext : c.next (F := F) .unlimited (b :: (w ++ l)) = .step 1 { c with pos := p }
        (if c.needsWhitespace then [(.whitespace [byteChar b], none)] else []) := by
      rw [next_outside h.bom h.outside h.noNumber, Core.outerStep, hp]
    obtain ⟨c', hg, hat⟩ := ih (c := { c with pos := p })
      ⟨h.bom, h.outside, h.noNumber, h.state, h.context, h.comma, h.seen, h.keepsNone⟩
      fun b hb => hw b (by simp [hb])
    refine ⟨c', ?_, hat⟩
    have := (Goes.of_next hnext).trans hg
    have hdrop : dropWhitespace (eventsOf (if c.needsWhitespace then
        [((.whitespace [byteChar b], none) : Mark F)] else [])) = [] := by
      split <;> rfl
    rw [hdrop] at this
    exact this

theorem Core.At.settled (h : c.At state context comma seen) :
    c.settled.At state context comma seen :=
  ⟨h.bom, h.outside, h.noNumber, h.state, h.context, h.comma, h.seen, h.keepsNone⟩

/-- The machine comes to decide on the token. -/
theorem goes_settled (h : c.At state context comma seen) (hb : isWs b = false) :
    Goes (F := F) c (b :: l) [] c.settled (b :: l) ∧
      c.settled.next (F := F) .unlimited (b :: l) = c.settled.tokenStep .unlimited b l := by
  have hws (p : Pos) : wsByte p b = none := wsByte_isWs.mpr hb
  constructor
  · by_cases hcr : c.pos.afterCr = true
    · have hnext : c.next (F := F) .unlimited (b :: l) = .step 0 c.settled [] := by
        rw [next_outside h.bom h.outside h.noNumber, Core.outerStep, hws]
        exact if_pos hcr
      exact Goes.of_next hnext
    · have : c.settled = c := by
        have hcr' : c.pos.afterCr = false := by simpa using hcr
        unfold Core.settled
        rw [← hcr']
      rw [this]
      exact .refl c _
  · rw [next_outside h.settled.bom h.settled.outside h.settled.noNumber, Core.outerStep, hws]
    exact if_neg (by simp [Core.settled])

/-- A token that is taken. -/
theorem goes_token (h : c.At state context comma seen) (hb : isWs b = false) {n : Nat}
    {out : List (Mark F)} (ht : c.settled.tokenStep .unlimited b l = .step n c' out) :
    Goes c (b :: l) (dropWhitespace (eventsOf out)) c' ((b :: l).drop n) := by
  obtain ⟨hg, hn⟩ := goes_settled (F := F) (l := l) h hb
  rw [ht] at hn
  have := hg.trans (Goes.of_next hn)
  simpa using this

/-- A token that is not taken is not accepted. -/
theorem not_accepts_token (h : c.At state context comma seen) (hb : isWs b = false)
    (ht : (∃ out, c.settled.tokenStep (F := F) .unlimited b l = .fail out) ∨
      c.settled.tokenStep (F := F) .unlimited b l = .need) : ¬ Accepts F c (b :: l) := by
  obtain ⟨hg, hn⟩ := goes_settled (F := F) (l := l) h hb
  rw [hg.accepts_iff]
  rcases ht with ⟨out, ht⟩ | ht
  · exact not_accepts_of_fail (hn.trans ht)
  · exact not_accepts_of_need (hn.trans ht) (by simp)

omit [Double F] in
/-- Without limits every token ends in a step. -/
theorem finish_unlimited {n : Nat} {early late : List (Mark F)} :
    Core.finish .unlimited n c early late = .step n (c.count .unlimited) (early ++ late) :=
  Core.finish_of_not_exceeds rfl

end Tokens

/-! ## Strings -/

/-- Inside a string value in the containers `context`. -/
structure Core.Within (c : Core) (context : List Context) : Prop where
  bom : c.bomChecked = true
  inside : c.inString = true
  noNumber : c.number.stage = .none
  context : c.context = context
  comma : c.afterComma = false
  seen : c.seenAny = true
  keepsNone : c.rejectDuplicateKeys = false

/-- The content of a string value, character by character. -/
def contentOf (s : Text) : List (Event F) := s.map fun ch => .stringValueContent [ch]

section Strings

variable {c c' : Core} {context : List Context}

theorem next_inside (hb : c.bomChecked = true) (hi : c.inString = true) (b : UInt8)
    (l : List UInt8) : c.next (F := F) .unlimited (b :: l) = c.stringStep .unlimited b l := by
  rw [Core.next, if_neg (by simp [hb])]
  exact if_pos hi

theorem next_within (h : c.Within context) (b : UInt8) (l : List UInt8) :
    c.next (F := F) .unlimited (b :: l) = c.stringStep .unlimited b l :=
  next_inside h.bom h.inside b l

omit [Double F] in
theorem Core.Within.inContent (h : c.Within context) (n k : Nat) :
    (c.inContent n k).Within context :=
  ⟨h.bom, h.inside, h.noNumber, h.context, h.comma, h.seen, h.keepsNone⟩

omit [Double F] in
theorem charStep_unlimited (ch : Char) (n k : Nat) :
    c.charStep (F := F) .unlimited ch n k =
      .step n (c.inContent n k) [(.stringValueContent [ch], none)] := rfl

/-- **What the machine does in closed content**: it puts out a character that is there, or does not
take it. -/
theorem next_closed (hb : c.bomChecked = true) (hi : c.inString = true) {raw : List UInt8}
    (hc : Closed raw) (hne : raw ≠ []) (r : List UInt8) :
    (∃ ch n k, rawChar raw = some (ch, n) ∧
        c.next (F := F) .unlimited (raw ++ quote :: r) =
          .step n (c.inContent n k) [(.stringValueContent [ch], none)]) ∨
      decodeString raw = none ∧
        (c.next (F := F) .unlimited (raw ++ quote :: r) = .fail [] ∨
          c.next (F := F) .unlimited (raw ++ quote :: r) = .need) := by
  obtain ⟨b, raw, rfl⟩ := List.exists_cons_of_ne_nil hne
  rw [List.cons_append, next_inside hb hi, Core.stringStep]
  have hq : b ≠ quote := by
    rintro rfl
    simp [Closed] at hc
  rw [if_neg hq]
  by_cases hs : b = backslash
  · subst hs
    rw [if_pos rfl]
    rcases resolve_spec hc r with ⟨ch, n, hr, hch⟩ | ⟨hd, hr | ⟨m, hr⟩⟩ <;>
      rw [List.cons_append] at hr <;> rw [hr]
    · exact .inl ⟨ch, n, n, hch, charStep_unlimited ..⟩
    · exact .inr ⟨hd, .inr rfl⟩
    · exact .inr ⟨hd, .inl rfl⟩
  rw [if_neg hs]
  by_cases hlt : b < 0x20
  · rw [if_pos hlt]
    refine .inr ⟨decodeString_of_rawChar_none (by simp) ?_, .inl rfl⟩
    simp [rawChar, hs, hlt]
  rw [if_neg hlt]
  have hchar := rawChar_plain (l := raw) (not_isDelimiter.mpr ⟨hq, hs, hlt⟩)
  rcases front_closed b raw r with ⟨ch, n, hf, hf'⟩ | ⟨hf, hf'⟩
  · rw [List.cons_append] at hf
    rw [hf]
    refine .inl ⟨ch, n, _, ?_, charStep_unlimited ..⟩
    rw [hchar, hf']
  · refine .inr ⟨decodeString_of_rawChar_none (by simp) ?_, ?_⟩
    · rw [hchar]
      cases hfr : front (b :: raw) with
      | char ch n => exact absurd hfr (hf' ch n)
      | _ => rfl
    · rw [List.cons_append] at hf
      cases hfr : front (b :: (raw ++ quote :: r)) with
      | char ch n => exact absurd hfr (hf ch n)
      | bad => exact .inl rfl
      | need => exact .inr rfl

/-- **The content of a string value** is put out as the text it denotes, and content that denotes
nothing is not accepted. -/
theorem string_run (h : c.Within context) {raw : List UInt8} (hc : Closed raw) (r : List UInt8) :
    (∃ s c', decodeString raw = some s ∧ c'.Within context ∧
        Goes (F := F) c (raw ++ quote :: r) (contentOf s) c' (quote :: r)) ∨
      decodeString raw = none ∧ ¬ Accepts F c (raw ++ quote :: r) := by
  induction hn : raw.length using Nat.strongRecOn generalizing raw c with
  | ind n ih =>
    by_cases hne : raw = []
    · subst hne
      exact .inl ⟨[], c, rfl, h, .refl c _⟩
    rcases next_closed (F := F) h.bom h.inside hc hne r with ⟨ch, k, j, hch, hnext⟩ | ⟨hd, hstop⟩
    · obtain ⟨hpos, -, hle⟩ := rawChar_length hch
      have hgo := Goes.of_next hnext
      rw [List.drop_append_of_le_length hle] at hgo
      have hdec := decodeString_of_rawChar hch
      rcases ih (raw.drop k).length (by rw [List.length_drop]; omega) (h.inContent k j)
          (hc.drop hch) rfl with ⟨s, c', hs, hw, hg⟩ | ⟨hd, hna⟩
      · exact .inl ⟨ch :: s, c', by rw [hdec, hs]; rfl, hw, hgo.trans hg⟩
      · refine .inr ⟨by rw [hdec, hd]; rfl, ?_⟩
        rwa [hgo.accepts_iff]
    · refine .inr ⟨hd, ?_⟩
      rcases hstop with hf | hf
      · exact not_accepts_of_fail hf
      · exact not_accepts_of_need hf (by simp)

/-- What is accepted inside a string value has an end of the string. -/
theorem Accepts.closing {l : List UInt8} (h : c.Within context) (ha : Accepts F c l) :
    ∃ raw r, Closed raw ∧ l = raw ++ quote :: r := by
  suffices hk : ∃ k, rawLength l = some k by
    obtain ⟨k, hk⟩ := hk
    obtain ⟨hcl, r, hr⟩ := closed_take hk
    exact ⟨l.take k, r, hcl, hr⟩
  induction hn : l.length using Nat.strongRecOn generalizing l c with
  | ind n ih =>
    rcases ha.cases with ⟨k, c', out, hnext⟩ | ⟨rfl, hend⟩
    · cases l with
      | nil => rw [next_nil] at hnext; cases hnext
      | cons b l =>
        have ha' := (Goes.of_next hnext).accepts_iff.mp ha
        rw [next_within h, Core.stringStep] at hnext
        split at hnext
        · next hq => exact ⟨0, by rw [hq, rawLength_quote]⟩
        split at hnext
        · next hq hs =>
          subst hs
          split at hnext
          · cases hnext
          · cases hnext
          · next ch m hr =>
            have hch := resolve_rawChar hr
            obtain ⟨hpos, -, hle⟩ := rawChar_length hch
            cases hnext
            exact rawLength_back.rawChar hch (ih _ (by rw [List.length_drop]; omega)
              (h.inContent k k) ha' rfl)
        split at hnext
        · cases hnext
        next hq hs hlt =>
        split at hnext
        · cases hnext
        · next ch m hf =>
          obtain ⟨hpos, -, hle⟩ := front_char_le hf
          cases hnext
          refine rawLength_back.rawChar (c := ch) (n := k) ?_ (ih _ (by
            rw [List.length_drop]; omega) (h.inContent _ _) ha' rfl)
          rw [rawChar_plain (not_isDelimiter.mpr ⟨hq, hs, hlt⟩), hf]
        · split at hnext <;> cases hnext
    · have : (c.ending (F := F) []).1 = false := by
        rw [Core.ending, if_neg (by simp), Core.endInput, if_pos h.inside]
      rw [this] at hend
      cases hend

/-- The end of a string value. -/
theorem goes_quote (h : c.Within context) (r : List UInt8) :
    Goes (F := F) c (quote :: r) [.endStringValue] c.endString r ∧
      c.endString.At .afterValue context false true := by
  have hnext : c.next (F := F) .unlimited (quote :: r) =
      .step 1 c.endString [c.endString.mark .endStringValue] := by
    rw [next_within h]
    exact if_pos rfl
  exact ⟨Goes.of_next hnext, h.bom, rfl, h.noNumber, rfl, h.context, h.comma, h.seen, h.keepsNone⟩

end Strings

/-! ## Structural characters and literals -/

section Structure

variable {c c' : Core} {b : UInt8} {l : List UInt8} {state : State} {context : List Context}
  {comma seen : Bool} {kind : Context}

omit [Double F] in
theorem tokenKind_openByte (kind : Context) : tokenKind kind.openByte = .opening kind := by
  cases kind <;> rfl

omit [Double F] in
theorem tokenKind_closeByte (kind : Context) : tokenKind kind.closeByte = .closing kind := by
  cases kind <;> rfl

/-- A container opens. -/
theorem goes_open (h : c.At .expectValue context comma seen) (kind : Context) (l : List UInt8) :
    ∃ c', Goes (F := F) c (kind.openByte :: l) [kind.openEvent] c' l ∧
      c'.At kind.first (kind :: context) false true := by
  refine ⟨(c.settled.enter kind).count .unlimited, ?_, ?_⟩
  · have hstep : c.settled.tokenStep (F := F) .unlimited kind.openByte l =
        .step 1 ((c.settled.enter kind).count .unlimited)
          [(c.settled.enter kind).mark kind.openEvent] := by
      rw [Core.tokenStep, tokenKind_openByte]
      simp only [Core.openStep, h.settled.state, ne_eq, not_true_eq_false, if_false, exceeds,
        ParserLimits.unlimited, Bool.false_eq_true]
      exact finish_unlimited
    have := goes_token h (by cases kind <;> rfl) hstep
    cases kind <;> exact this
  · exact ⟨h.bom, h.outside, h.noNumber, rfl, by simp [Core.enter, Core.count, h.settled.context],
      rfl, rfl, h.keepsNone⟩

/-- A container closes. -/
theorem goes_close (h : c.At state (kind :: context) false seen)
    (hs : state = kind.first ∨ state = .afterValue) (l : List UInt8) :
    ∃ c', Goes (F := F) c (kind.closeByte :: l) [kind.closeEvent] c' l ∧
      c'.At .afterValue context false true := by
  refine ⟨(c.settled.leave kind).count .unlimited, ?_, ?_⟩
  · have hstep : c.settled.tokenStep (F := F) .unlimited kind.closeByte l =
        .step 1 ((c.settled.leave kind).count .unlimited)
          [(c.settled.leave kind).mark kind.closeEvent] := by
      rw [Core.tokenStep, tokenKind_closeByte]
      simp only [Core.closeStep, h.settled.state, h.settled.context, h.settled.comma]
      rw [if_neg (by simp), if_neg (by rintro ⟨h1, h2⟩; exact hs.elim h1 h2), if_neg (by simp),
        finish_unlimited]
      rfl
    have := goes_token h (by cases kind <;> rfl) hstep
    cases kind <;> exact this
  · exact ⟨h.bom, h.outside, h.noNumber, rfl, by simp [Core.leave, Core.count, h.settled.context],
      rfl, rfl, h.keepsNone⟩

/-- A comma. -/
theorem goes_comma (h : c.At .afterValue (kind :: context) false seen) (l : List UInt8) :
    ∃ c', Goes (F := F) c (0x2C :: l) [] c' l ∧ c'.At kind.first (kind :: context) true true := by
  refine ⟨c.settled.comma.count .unlimited, ?_, ?_⟩
  · have hstep : c.settled.tokenStep (F := F) .unlimited 0x2C l =
        .step 1 (c.settled.comma.count .unlimited) [] := by
      rw [Core.tokenStep, show tokenKind 0x2C = .comma from rfl]
      simp only [h.settled.state, h.settled.context]
      rw [if_neg (by simp), finish_unlimited]
      rfl
    exact goes_token h rfl hstep
  · refine ⟨h.bom, h.outside, h.noNumber, ?_, h.settled.context, rfl, rfl, h.keepsNone⟩
    simp only [Core.comma, Core.count, h.settled.context, List.head?_cons]
    cases kind <;> rfl

/-- A colon. -/
theorem goes_colon (h : c.At .expectColon context comma seen) (l : List UInt8) :
    ∃ c', Goes (F := F) c (0x3A :: l) [] c' l ∧ c'.At .expectValue context false true := by
  refine ⟨((c.settled.move 1).goto .expectValue).count .unlimited, ?_, ?_⟩
  · have hstep : c.settled.tokenStep (F := F) .unlimited 0x3A l =
        .step 1 (((c.settled.move 1).goto .expectValue).count .unlimited) [] := by
      rw [Core.tokenStep, show tokenKind 0x3A = .colon from rfl]
      simp only [h.settled.state]
      rw [if_neg (by simp), finish_unlimited]
      rfl
    exact goes_token h rfl hstep
  · exact ⟨h.bom, h.outside, h.noNumber, rfl, h.settled.context, rfl, rfl, h.keepsNone⟩

/-- A literal. -/
theorem goes_literal (h : c.At .expectValue context comma seen) (value : Option Bool)
    (l : List UInt8) :
    ∃ c', Goes (F := F) c (literalBytes value ++ l) [literalEvent value] c' l ∧
      c'.At .afterValue context false true := by
  obtain ⟨b, rest, hb, hk⟩ := literalBytes_kind value
  refine ⟨((c.settled.move (1 + rest.length)).goto .afterValue).count .unlimited, ?_, ?_⟩
  · have hstep : c.settled.tokenStep (F := F) .unlimited b (rest ++ l) =
        .step (1 + rest.length) (((c.settled.move (1 + rest.length)).goto .afterValue).count
          .unlimited) [((c.settled.move (1 + rest.length)).goto .afterValue).mark
            (literalEvent value)] := by
      rw [Core.tokenStep, hk]
      simp only [h.settled.state, ne_eq, not_true_eq_false, if_false, Core.literalStep,
        literalFront_self, finish_unlimited]
      rfl
    have hws : isWs b = false := isWs_of_tokenKind (by simp [hk])
    have hdrop : (b :: (rest ++ l)).drop (1 + rest.length) = l := by
      rw [Nat.add_comm, List.drop_succ_cons, List.drop_left]
    have := goes_token h hws hstep
    rw [hdrop] at this
    rw [hb]
    cases value <;> exact this
  · exact ⟨h.bom, h.outside, h.noNumber, rfl, h.settled.context, rfl, rfl, h.keepsNone⟩

end Structure

/-! ## String values and keys -/

section Quotes

variable {c c' : Core} {l : List UInt8} {context : List Context} {comma seen : Bool}

/-- A string value starts. -/
theorem goes_startString (h : c.At .expectValue context comma seen) (l : List UInt8) :
    ∃ c', Goes (F := F) c (quote :: l) [.startStringValue] c' l ∧ c'.Within context := by
  refine ⟨c.settled.beginString.count .unlimited, ?_, ?_⟩
  · have hstep : c.settled.tokenStep (F := F) .unlimited quote l =
        .step 1 (c.settled.beginString.count .unlimited)
          [c.settled.beginString.mark .startStringValue] := by
      rw [Core.tokenStep, show tokenKind quote = .quote from rfl]
      simp only [Core.quoteStep, h.settled.state]
      exact finish_unlimited
    exact goes_token h (by decide) hstep
  · exact ⟨h.bom, rfl, h.noNumber, h.context, rfl, rfl, h.keepsNone⟩

/-- **A string value** is put out as the text it denotes, or it is not accepted. -/
theorem string_value (h : c.At .expectValue context comma seen) {raw : List UInt8}
    (hc : Closed raw) (r : List UInt8) :
    (∃ s c', decodeString raw = some s ∧ c'.At .afterValue context false true ∧
        Goes (F := F) c (quote :: (raw ++ quote :: r))
          (.startStringValue :: contentOf s ++ [.endStringValue]) c' r) ∨
      decodeString raw = none ∧ ¬ Accepts F c (quote :: (raw ++ quote :: r)) := by
  obtain ⟨c₁, hg, hw⟩ := goes_startString (F := F) h (raw ++ quote :: r)
  rcases string_run (F := F) hw hc r with ⟨s, c₂, hs, hw₂, hg₂⟩ | ⟨hd, hna⟩
  · obtain ⟨hg₃, hat⟩ := goes_quote (F := F) hw₂ r
    exact .inl ⟨s, _, hs, hat, hg.trans (hg₂.trans hg₃)⟩
  · exact .inr ⟨hd, by rwa [hg.accepts_iff]⟩

/-- What is accepted from a quote on is a string value first. -/
theorem Accepts.string_value (h : c.At .expectValue context comma seen)
    (ha : Accepts F c (quote :: l)) :
    ∃ s : RawString, ∃ r c' es, l = s.raw ++ quote :: r ∧ c'.At .afterValue context false true ∧
      Goes (F := F) c (quote :: l) es c' r := by
  obtain ⟨c₁, hg, hw⟩ := goes_startString (F := F) h l
  obtain ⟨raw, r, hc, rfl⟩ := (hg.accepts_iff.mp ha).closing hw
  rcases RJsonParser.string_value (F := F) h hc r with ⟨s, c', hs, hat, hg'⟩ | ⟨-, hna⟩
  · exact ⟨⟨raw, s, hs⟩, r, c', _, rfl, hat, hg'⟩
  · exact absurd ha hna

omit [Double F] in
theorem quoteStep_key (h : c.At .expectKey context comma seen) (l : List UInt8) :
    c.settled.tokenStep (F := F) .unlimited quote l = c.settled.keyStep .unlimited l := by
  rw [Core.tokenStep, show tokenKind quote = .quote from rfl]
  simp only [Core.quoteStep, h.settled.state]

/-- **A key** is put out as the text it denotes, or it is not accepted. -/
theorem key_run (h : c.At .expectKey context comma seen) {raw : List UInt8} (hc : Closed raw)
    (r : List UInt8) :
    (∃ s c', decodeString raw = some s ∧ c'.At .expectColon context false true ∧
        Goes (F := F) c (quote :: (raw ++ quote :: r)) [.key s] c' r) ∨
      decodeString raw = none ∧ ¬ Accepts F c (quote :: (raw ++ quote :: r)) := by
  have hstep := quoteStep_key (F := F) h (raw ++ quote :: r)
  rcases keyFront_closed hc 0 r with hf | ⟨hf, hn⟩
  · rw [Nat.zero_add] at hf
    rw [Core.keyStep, show ParserLimits.unlimited.maxNameLength = none from rfl, hf] at hstep
    simp only [List.take_left] at hstep
    cases hd : decodeString raw with
    | none =>
      rw [hd] at hstep
      exact .inr ⟨rfl, not_accepts_token h (by decide) (.inl ⟨_, hstep⟩)⟩
    | some s =>
      rw [hd] at hstep
      simp only [Core.isDuplicate, h.settled.keepsNone, Bool.false_and, Bool.false_eq_true,
        if_false, finish_unlimited] at hstep
      have hgo := goes_token h (by decide) hstep
      have hdrop : (quote :: (raw ++ quote :: r)).drop (raw.length + 2) = r := by
        rw [List.drop_succ_cons, ← List.drop_drop, List.drop_left]
        rfl
      rw [hdrop] at hgo
      refine .inl ⟨s, (((c.settled.note s).move (2 + units raw)).goto .expectColon).count
        .unlimited, rfl, ?_, hgo⟩
      exact ⟨h.bom, h.outside, h.noNumber, rfl, h.context, rfl, rfl, h.keepsNone⟩
  · rw [Core.keyStep, show ParserLimits.unlimited.maxNameLength = none from rfl, hf] at hstep
    refine .inr ⟨?_, not_accepts_token h (by decide) (.inl ⟨_, hstep⟩)⟩
    cases hd : decodeString raw with
    | none => rfl
    | some s => exact absurd (scanned_of_decodeString hd) hn

/-- What is accepted from a quote on, where a key is expected, is a key first. -/
theorem Accepts.key (h : c.At .expectKey context comma seen) (ha : Accepts F c (quote :: l)) :
    ∃ s : RawString, ∃ r c' es, l = s.raw ++ quote :: r ∧ c'.At .expectColon context false true ∧
      Goes (F := F) c (quote :: l) es c' r := by
  suffices hk : ∃ k, rawLength l = some k by
    obtain ⟨k, hk⟩ := hk
    obtain ⟨hc, r, hr⟩ := closed_take hk
    rcases key_run (F := F) h hc r with ⟨s, c', hs, hat, hg⟩ | ⟨-, hna⟩
    · rw [← hr] at hg
      exact ⟨⟨_, s, hs⟩, r, c', _, hr, hat, hg⟩
    · rw [← hr] at hna
      exact absurd ha hna
  have hstep := quoteStep_key (F := F) h l
  rw [Core.keyStep, show ParserLimits.unlimited.maxNameLength = none from rfl] at hstep
  cases hf : keyFront none 0 l with
  | need =>
    rw [hf] at hstep
    exact absurd ha (not_accepts_token h (by decide) (.inr hstep))
  | bad =>
    rw [hf] at hstep
    exact absurd ha (not_accepts_token h (by decide) (.inl ⟨_, hstep⟩))
  | found n =>
    obtain ⟨k, -, hk, -⟩ := keyFront_found _ hf
    exact ⟨k, hk⟩

end Quotes

/-! ## Numbers -/

/-- No number goes on with this byte. -/
def stopsNumber (b : UInt8) : Bool :=
  !isDigit b && decide (b ≠ 0x2E ∧ b ≠ 0x65 ∧ b ≠ 0x45)

/-- No number goes on into `l`. -/
def StopsNumber (l : List UInt8) : Prop := ∀ b r, l = b :: r → stopsNumber b = true

namespace NumberState

variable {s s' : NumberState} {b : UInt8}

/-- A number ends where it may. -/
theorem isFinal_of_ended (h : s.takeByte b = .ended) : s.stage.isFinal = true := by
  unfold takeByte at h
  cases hs : s.stage with
  | zero | integer | fraction | exponent => rfl
  | none => simp [hs] at h
  | afterMinus | fractionDot | exponentMark | exponentSign =>
    simp only [hs] at h
    split_ifs at h

/-- And it does so at any byte that cannot go on with it. -/
theorem ended_of_isFinal (h : s.stage.isFinal = true) (hb : stopsNumber b = true) :
    s.takeByte b = .ended := by
  have hb' : isDigit b = false ∧ b ≠ 0x2E ∧ b ≠ 0x65 ∧ b ≠ 0x45 := by
    simpa [stopsNumber] using hb
  obtain ⟨hd, h1, h2, h3⟩ := hb'
  cases hs : s.stage <;> rw [hs] at h <;> simp only [NumStage.isFinal, Bool.false_eq_true] at h <;>
    simp [takeByte, takeMark, hs, hd, h1, h2, h3]

end NumberState

/-- Inside a number in the containers `context`. -/
structure Core.InNumber (c : Core) (context : List Context) : Prop where
  bom : c.bomChecked = true
  outside : c.inString = false
  inside : c.number.stage ≠ .none
  context : c.context = context
  comma : c.afterComma = false
  seen : c.seenAny = true
  keepsNone : c.rejectDuplicateKeys = false

section Numbers

variable {c c' : Core} {b : UInt8} {l : List UInt8} {context : List Context} {comma seen : Bool}

theorem next_inNumber (h : c.InNumber context) (b : UInt8) (l : List UInt8) :
    c.next (F := F) .unlimited (b :: l) = c.numberStep .unlimited b := by
  rw [Core.next, if_neg (by simp [h.bom])]
  exact (if_neg (by simp [h.outside])).trans (if_pos h.inside)

/-- A byte of a number. -/
theorem InNumber.goes_byte (h : c.InNumber context) {n : NumberState}
    (ht : c.number.takeByte b = .next n) (l : List UInt8) :
    Goes (F := F) c (b :: l) [] { c with number := n.addLength 1 } l ∧
      Core.InNumber { c with number := n.addLength 1 } context := by
  have hnext : c.next (F := F) .unlimited (b :: l) =
      .step 1 { c with number := n.addLength 1 } [] := by
    rw [next_inNumber h, Core.numberStep, ht]
    rfl
  exact ⟨Goes.of_next hnext, h.bom, h.outside,
    fun hs => NumberState.takeByte_stage ht hs, h.context, h.comma, h.seen, h.keepsNone⟩

/-- The end of a number. -/
theorem InNumber.goes_end (h : c.InNumber context) (hf : c.number.stage.isFinal = true)
    (hl : StopsNumber l) :
    Goes (F := F) c l [.numberValue c.number.value] c.endNumber l ∧
      c.endNumber.At .afterValue context false true := by
  refine ⟨?_, h.bom, h.outside, rfl, rfl, h.context, h.comma, h.seen, h.keepsNone⟩
  cases l with
  | cons b l =>
    have hnext : c.next (F := F) .unlimited (b :: l) =
        .step 0 c.endNumber [c.endNumber.mark (.numberValue c.number.value)] := by
      rw [next_inNumber h, Core.numberStep, NumberState.ended_of_isFinal hf (hl b l rfl)]
    exact Goes.of_next hnext
  | nil =>
    -- the end of the input ends the number
    have hending : c.ending (F := F) [] =
        (c.endNumber.complete, [c.endNumber.mark (.numberValue c.number.value)]) := by
      rw [Core.ending, if_neg (by simp), Core.endInput, if_neg (by simp [h.outside])]
      cases hs : c.number.stage <;> rw [hs] at hf <;> first | rfl | cases hf
    have hafter : c.endNumber.ending (F := F) [] = (c.endNumber.complete, []) := by
      rw [Core.ending, if_neg (by simp), Core.endInput, if_neg (by simp [Core.endNumber, Core.move,
        h.outside])]
      rfl
    intro all
    simp only [Yields, ends_nil, hending, hafter]
    constructor
    · rintro ⟨os, ⟨hc, rfl⟩, rfl⟩
      exact ⟨[], rfl, [], ⟨hc, rfl⟩, rfl⟩
    · rintro ⟨es', rfl, os, ⟨hc, rfl⟩, rfl⟩
      exact ⟨_, ⟨hc, rfl⟩, rfl⟩

/-- **A number** is put out when it ends. -/
theorem InNumber.number_run (h : c.InNumber context) {bs : List UInt8} {n : NumberState}
    (ht : c.number.takeBytes bs = some n) (hf : n.stage.isFinal = true) {r : List UInt8}
    (hr : StopsNumber r) :
    ∃ c', Goes (F := F) c (bs ++ r) [.numberValue n.value] c' r ∧
      c'.At .afterValue context false true := by
  induction bs generalizing c with
  | nil =>
    cases ht
    exact ⟨_, InNumber.goes_end h hf hr⟩
  | cons b bs ih =>
    rw [NumberState.takeBytes] at ht
    split at ht
    · next n' hn =>
      obtain ⟨hg, hin⟩ := InNumber.goes_byte (F := F) h hn (bs ++ r)
      obtain ⟨c', hg', hat⟩ := ih hin ht
      exact ⟨c', hg.trans hg', hat⟩
    · cases ht

/-- What is accepted inside a number has an end of the number. -/
theorem Accepts.inNumber (h : c.InNumber context) (ha : Accepts F c l) :
    ∃ bs r n c' es, l = bs ++ r ∧ c.number.takeBytes bs = some n ∧ n.stage.isFinal = true ∧
      Goes (F := F) c l es c' r ∧ c'.At .afterValue context false true := by
  induction l generalizing c with
  | nil =>
    have hf : c.number.stage.isFinal = true := by
      rcases ha.cases with ⟨n, c', out, hn⟩ | ⟨-, hend⟩
      · rw [next_nil] at hn
        cases hn
      · rw [Core.ending, if_neg (by simp), Core.endInput, if_neg (by simp [h.outside])] at hend
        cases hs : c.number.stage with
        | zero | integer | fraction | exponent => rfl
        | none => exact absurd hs h.inside
        | afterMinus | fractionDot | exponentMark | exponentSign => rw [hs] at hend; cases hend
    obtain ⟨hg, hat⟩ := InNumber.goes_end (F := F) h hf (l := []) (by rintro b r ⟨⟩)
    exact ⟨[], [], _, _, _, rfl, rfl, hf, hg, hat⟩
  | cons b l ih =>
    have hnext := next_inNumber (F := F) h b l
    rw [Core.numberStep] at hnext
    cases ht : c.number.takeByte b with
    | next n =>
      obtain ⟨hg, hin⟩ := InNumber.goes_byte (F := F) h ht l
      obtain ⟨bs, r, n', c', es, rfl, htb, hf, hg', hat⟩ := ih hin (hg.accepts_iff.mp ha)
      exact ⟨b :: bs, r, n', c', _, rfl, by rw [NumberState.takeBytes, ht]; exact htb, hf,
        hg.trans hg', hat⟩
    | ended =>
      rw [ht] at hnext
      refine ⟨[], b :: l, c.number, c.endNumber, _, rfl, rfl, NumberState.isFinal_of_ended ht,
        Goes.of_next hnext, ?_⟩
      exact ⟨h.bom, h.outside, rfl, rfl, h.context, h.comma, h.seen, h.keepsNone⟩
    | error m => rw [ht] at hnext; exact absurd ha (not_accepts_of_fail hnext)
    | unreachable => rw [ht] at hnext; exact absurd ha (not_accepts_of_fail hnext)

omit [Double F] in
theorem tokenKind_number (hb : startsNumber b = true) : tokenKind b = .number := by
  have key : ∀ b, startsNumber b = true → tokenKind b = .number := forall_byte (by decide +kernel)
  exact key b hb

/-- A number starts. -/
theorem goes_startNumber (h : c.At .expectValue context comma seen) (hk : tokenKind b = .number)
    (l : List UInt8) :
    ∃ c', Goes (F := F) c (b :: l) [] c' l ∧ c'.InNumber context ∧ c'.number = .start b := by
  refine ⟨(c.settled.beginNumber b).count .unlimited, ?_, ?_, rfl⟩
  · have hstep : c.settled.tokenStep (F := F) .unlimited b l =
        .step 1 ((c.settled.beginNumber b).count .unlimited) [] := by
      rw [Core.tokenStep, hk]
      simp only [h.settled.state]
      rw [if_neg (by simp), finish_unlimited]
      rfl
    exact goes_token h (isWs_of_tokenKind (by simp [hk])) hstep
  · refine ⟨h.bom, h.outside, ?_, h.context, rfl, rfl, h.keepsNone⟩
    show (NumberState.start b).stage ≠ .none
    rw [start_stage]
    split_ifs <;> simp

/-- **A number** of the grammar. -/
theorem number_value (h : c.At .expectValue context comma seen) {bs : List UInt8}
    (hn : IsNumber bs) {r : List UInt8} (hr : StopsNumber r) :
    ∃ c', Goes (F := F) c (bs ++ r) [.numberValue (numberOf bs)] c' r ∧
      c'.At .afterValue context false true := by
  obtain ⟨b, bs, rfl⟩ := List.exists_cons_of_ne_nil fun hnil : bs = [] =>
    not_isNumber_nil (hnil ▸ hn)
  obtain ⟨hb, n, ht, hf⟩ := isNumber_cons.mp hn
  obtain ⟨c₁, hg, hin, hnum⟩ := goes_startNumber (F := F) h (tokenKind_number hb) (bs ++ r)
  obtain ⟨c', hg', hat⟩ := InNumber.number_run (F := F) hin (by rw [hnum]; exact ht) hf hr
  refine ⟨c', ?_, hat⟩
  have hval : numberOf (F := F) (b :: bs) = n.value := by simp only [numberOf, ht]
  rw [hval]
  exact hg.trans hg'

/-- What is accepted from the first byte of a number on is a number first. -/
theorem Accepts.number_value (h : c.At .expectValue context comma seen)
    (hk : tokenKind b = .number) (ha : Accepts F c (b :: l)) :
    ∃ n : NumberText, ∃ r c' es, b :: l = n.1 ++ r ∧ c'.At .afterValue context false true ∧
      Goes (F := F) c (b :: l) es c' r := by
  obtain ⟨c₁, hg, hin, hnum⟩ := goes_startNumber (F := F) h hk l
  obtain ⟨bs, r, n, c', es, rfl, ht, hf, hg', hat⟩ := (hg.accepts_iff.mp ha).inNumber hin
  have hb : startsNumber b = true := by
    have := tokenKind_starts b
    rw [hk] at this
    exact this
  exact ⟨⟨b :: bs, isNumber_cons.mpr ⟨hb, n, by rw [← hnum]; exact ht, hf⟩⟩, r, c', _, rfl, hat,
    hg.trans hg'⟩

end Numbers

end RJsonParser
