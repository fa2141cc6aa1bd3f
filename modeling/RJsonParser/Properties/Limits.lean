import RJsonParser.Properties.Outcome
import RJsonParser.Properties.TreeLexemes

/-!
# Limits

What the limits and the check for duplicate keys allow of the lexemes of a document, in terms of its
tree.

* `Core.Always` — a check holds at each of some lexemes
* `Measure.Fits` — sizes are within the limits; `Tree.meets` — those of a tree, by recursion
* `document_bounded` — the lexemes of a document are within the limits where its sizes are
* `document_novel` — no key is refused where no object has one twice
-/

namespace RJsonParser

open Infra Infra.Utf8

/-! ## Checks along some lexemes -/

/-- The number of tokens and the sizes allow a lexeme. -/
def Core.bounded (limits : ParserLimits) (c : Core) (x : Lexeme) : Bool :=
  c.counted limits x && c.within limits x

/-- A check holds at each of some lexemes. -/
def Core.Always (limits : ParserLimits) (check : Core → Lexeme → Bool) : Core → List Lexeme → Prop
  | _, [] => True
  | c, x :: xs => check c x = true ∧ (c.after limits x).Always limits check xs

section Always

variable {limits : ParserLimits} {check : Core → Lexeme → Bool} {c : Core} {xs ys : List Lexeme}

/-- A check holds of both parts, the second where the first leads. -/
theorem always_append : c.Always limits check (xs ++ ys) ↔
    c.Always limits check xs ∧ (c.run limits xs).Always limits check ys := by
  induction xs generalizing c with
  | nil => simp [Core.Always]
  | cons x xs ih => simp only [List.cons_append, Core.Always, ih, Core.run_cons, and_assoc]

theorem always_one {x : Lexeme} : c.Always limits check [x] ↔ check c x = true :=
  and_iff_left trivial

/-- What is allowed is within the limits and repeats no key. -/
theorem allowsAll_iff : c.AllowsAll limits xs ↔
    c.Always limits (Core.bounded limits) xs ∧ c.Always limits Core.novel xs := by
  induction xs generalizing c with
  | nil => simp [Core.AllowsAll, Core.Always]
  | cons x xs ih =>
    simp only [Core.AllowsAll, Core.Always, ih, Core.allows, Core.bounded, Bool.and_eq_true]
    tauto

end Always

/-- Without limits everything is within them. -/
theorem unlimited_bounded (c : Core) (xs : List Lexeme) :
    c.Always .unlimited (Core.bounded .unlimited) xs := by
  induction xs generalizing c with
  | nil => trivial
  | cons x xs ih =>
    refine ⟨?_, ih _⟩
    cases x <;> rfl

/-! ## States that differ where no check looks -/

/-- Without the position. -/
def Core.unplaced (c : Core) : Core := { c with pos := ⟨1, 1, false⟩ }

/-- Without what the settings are about. -/
def Core.unset (c : Core) : Core :=
  { c with tokenCount := 0, seen := [], rejectDuplicateKeys := false }

section Erased

variable {limits limits' : ParserLimits} {c c' : Core} {xs : List Lexeme} {rest : List UInt8}

/-- Positions make no difference to what comes next. -/
theorem after_unplaced (limits : ParserLimits) (c : Core) (x : Lexeme) :
    (c.after limits x).unplaced = (c.unplaced.after limits x).unplaced := by
  cases x with
  | space b => simp only [Core.after_space]; rfl
  | digit b => simp only [Core.after_digit]; rfl
  | _ => rfl

/-- The ends of line breaks make no difference to a check that does not look at the position. -/
theorem always_visible {check : Core → Lexeme → Bool}
    (hp : ∀ c x, check c x = check c.unplaced x) (hs : ∀ c, check c .settle = true)
    (h : c.unplaced = c'.unplaced) :
    c.Always limits check xs ↔ c'.Always limits check (visible xs) := by
  induction xs generalizing c c' with
  | nil => exact Iff.rfl
  | cons x xs ih =>
    by_cases hx : x = .settle
    · subst hx
      have hafter : (c.after limits .settle).unplaced = c'.unplaced := h
      rw [visible_settle, Core.Always, hs, ih hafter]
      exact and_iff_right rfl
    · have hafter : (c.after limits x).unplaced = (c'.after limits x).unplaced := by
        rw [after_unplaced, h, ← after_unplaced]
      rw [visible_cons hx, Core.Always, Core.Always, hp c x, h, ← hp c' x, ih hafter]

/-- Nor do they to what is within the limits. -/
theorem bounded_unplaced (limits : ParserLimits) (c : Core) (x : Lexeme) :
    c.bounded limits x = c.unplaced.bounded limits x := by cases x <;> rfl

/-- Nor to whether a key is new. -/
theorem novel_unplaced (c : Core) (x : Lexeme) : c.novel x = c.unplaced.novel x := by
  cases x <;> rfl

/-- Limits make no difference to what comes next, but for what they count. -/
theorem after_unset (limits limits' : ParserLimits) (c : Core) (x : Lexeme) :
    (c.after limits x).unset = (c.unset.after limits' x).unset := by
  cases x with
  | space b => simp only [Core.after_space]; rfl
  | digit b => simp only [Core.after_digit]; rfl
  | _ => rfl

/-- The settings make no difference to the lexemes. -/
theorem lexes_unset (h : c.unset = c'.unset) :
    c.Lexes limits xs rest ↔ c'.Lexes limits' xs rest := by
  induction xs generalizing c c' with
  | nil => exact Iff.rfl
  | cons x xs ih =>
    have hafter : (c.after limits x).unset = (c'.after limits' x).unset := by
      rw [after_unset limits limits, h, ← after_unset limits' limits]
    have hlex (l : List UInt8) : c.lex l = c'.lex l := by
      show c.unset.lex l = c'.unset.lex l
      rw [h]
    rw [Core.Lexes, Core.Lexes, hlex, ih hafter]

/-- Nor do they over many lexemes. -/
theorem run_unset (h : c.unset = c'.unset) (xs : List Lexeme) :
    (c.run limits xs).unset = (c'.run limits' xs).unset := by
  induction xs generalizing c c' with
  | nil => exact h
  | cons x xs ih =>
    rw [Core.run_cons, Core.run_cons]
    refine ih ?_
    rw [after_unset limits limits, h, ← after_unset limits' limits]

end Erased

/-! ## Sizes -/

/-- Sizes are within the limits, where there were `n` tokens before and `d` containers are open. A
number of one byte is always within them. -/
structure Measure.Fits (limits : ParserLimits) (n d : Nat) (m : Measure) : Prop where
  tokens : exceeds limits.maxTokenCount (n + m.tokens) = false
  depth : exceeds limits.maxNestingDepth (d + m.depth) = false
  strings : ∀ k ∈ m.strings, exceeds limits.maxStringLength k = false
  names : ∀ k ∈ m.names, exceeds limits.maxNameLength k = false
  numbers : ∀ k ∈ m.numbers, k = 1 ∨ exceeds limits.maxNumberLength k = false

section Fits

variable {limits : ParserLimits} {m m' : Measure} {n n' d : Nat}

/-- What is within a limit is so of less. -/
theorem not_exceeds_mono {limit : Option Nat} {a b : Nat} (h : exceeds limit b = false)
    (hab : a ≤ b) : exceeds limit a = false := by
  by_contra ha
  rw [exceeds_mono (by simpa using ha) hab] at h
  cases h

theorem not_exceeds_zero (limit : Option Nat) : exceeds limit 0 = false := by cases limit <;> simp

/-- Where the tokens are not counted their number makes no difference. -/
theorem Measure.Fits.congr (hn : limits.maxTokenCount ≠ none → n = n') :
    m.Fits limits n d ↔ m.Fits limits n' d := by
  have hiff (k : Nat) : exceeds limits.maxTokenCount (n + k) = false ↔
      exceeds limits.maxTokenCount (n' + k) = false := by
    by_cases h : limits.maxTokenCount = none
    · simp [h]
    · rw [hn h]
  constructor
  · exact fun h => ⟨(hiff _).mp h.tokens, h.depth, h.strings, h.names, h.numbers⟩
  · exact fun h => ⟨(hiff _).mpr h.tokens, h.depth, h.strings, h.names, h.numbers⟩

/-- Two parts fit if the second does after the first. -/
theorem fits_append : (m.append m').Fits limits n d ↔
    m.Fits limits n d ∧ m'.Fits limits (n + m.tokens) d := by
  constructor
  · rintro ⟨ht, hd, hs, hk, hn⟩
    simp only [Measure.append, List.forall_mem_append] at ht hd hs hk hn
    rw [← Nat.add_assoc] at ht
    exact ⟨⟨not_exceeds_mono ht (by omega), not_exceeds_mono hd (by omega), hs.1, hk.1, hn.1⟩,
      ht, not_exceeds_mono hd (by omega), hs.2, hk.2, hn.2⟩
  · rintro ⟨⟨-, hd, hs, hk, hn⟩, ht', hd', hs', hk', hn'⟩
    refine ⟨?_, ?_, List.forall_mem_append.mpr ⟨hs, hs'⟩, List.forall_mem_append.mpr ⟨hk, hk'⟩,
      List.forall_mem_append.mpr ⟨hn, hn'⟩⟩
    · rw [Measure.append, ← Nat.add_assoc]
      exact ht'
    · rcases le_total m.depth m'.depth with h | h
      · rw [Measure.append, max_eq_right h]
        exact hd'
      · rw [Measure.append, max_eq_left h]
        exact hd

/-- A container fits if its brackets do and its content does, one level deeper. -/
theorem fits_nested : m.nested.Fits limits n d ↔ exceeds limits.maxTokenCount (n + 1) = false ∧
    exceeds limits.maxNestingDepth (d + 1) = false ∧ m.Fits limits (n + 1) (d + 1) ∧
      exceeds limits.maxTokenCount (n + 1 + m.tokens + 1) = false := by
  have htokens : n + m.nested.tokens = n + 1 + m.tokens + 1 := by
    simp only [Measure.nested]
    omega
  have hdepth : d + m.nested.depth = d + 1 + m.depth := by
    simp only [Measure.nested]
    omega
  constructor
  · rintro ⟨ht, hd, hs, hk, hn⟩
    rw [htokens] at ht
    rw [hdepth] at hd
    exact ⟨not_exceeds_mono ht (by omega), not_exceeds_mono hd (by omega),
      ⟨not_exceeds_mono ht (by omega), hd, hs, hk, hn⟩, ht⟩
  · rintro ⟨-, -, ⟨-, hd, hs, hk, hn⟩, ht⟩
    exact ⟨by rwa [htokens], by rwa [hdepth], hs, hk, hn⟩

end Fits

/-- **The sizes of some lexemes are `m`**: they are checked where those sizes fit. -/
structure Core.Meets (limits : ParserLimits) (c : Core) (ys : List Lexeme) (m : Measure) :
    Prop where
  iff : exceeds limits.maxTokenCount c.tokenCount = false →
    exceeds limits.maxNestingDepth c.context.length = false →
      (c.Always limits (Core.bounded limits) ys ↔ m.Fits limits c.tokenCount c.context.length)
  context : (c.run limits ys).context = c.context
  count : limits.maxTokenCount ≠ none → (c.run limits ys).tokenCount = c.tokenCount + m.tokens

section Meets

variable {limits : ParserLimits} {c : Core} {ys zs : List Lexeme} {m m' : Measure} {x : Lexeme}

/-- Two parts meet their measures together. -/
theorem Core.Meets.append (h : c.Meets limits ys m) (h' : (c.run limits ys).Meets limits zs m') :
    c.Meets limits (ys ++ zs) (m.append m') where
  iff ht hd := by
    have hcount : m'.Fits limits (c.run limits ys).tokenCount c.context.length ↔
        m'.Fits limits (c.tokenCount + m.tokens) c.context.length := Measure.Fits.congr h.count
    rw [always_append, fits_append, h.iff ht hd, ← hcount]
    refine and_congr_right fun hfits => ?_
    rw [h'.iff ?_ (by rwa [h.context]), h.context]
    by_cases hnone : limits.maxTokenCount = none
    · simp [hnone]
    · rw [h.count hnone]
      exact hfits.tokens
  context := by rw [Core.run_append, h'.context, h.context]
  count hnone := by
    rw [Core.run_append, h'.count hnone, h.count hnone, Nat.add_assoc]
    rfl

/-- A lexeme that is no token and has no size. -/
theorem meets_plain (hx : x.isToken = false) (hw : ∀ c : Core, c.within limits x = true)
    (hc : (c.after limits x).context = c.context)
    (hn : (c.after limits x).tokenCount = c.tokenCount) : c.Meets limits [x] (.ofTokens 0) where
  iff ht hd := by
    rw [always_one, Core.bounded, Core.counted, hx, hw]
    exact iff_of_true rfl ⟨ht, hd, by simp [Measure.ofTokens], by simp [Measure.ofTokens],
      by simp [Measure.ofTokens]⟩
  context := hc
  count _ := hn

/-- Tokens are counted where they are limited. -/
theorem count_tokens (c : Core) (h : limits.maxTokenCount ≠ none) :
    (c.count limits).tokenCount = c.tokenCount + 1 :=
  if_pos (Option.isSome_iff_ne_none.mpr h)

/-- A token, with the sizes that are its own. -/
theorem meets_token {names : List Nat} (hx : x.isToken = true)
    (hw : c.within limits x = true ↔ ∀ k ∈ names, exceeds limits.maxNameLength k = false)
    (hc : (c.after limits x).context = c.context)
    (hn : limits.maxTokenCount ≠ none → (c.after limits x).tokenCount = c.tokenCount + 1) :
    c.Meets limits [x] { Measure.ofTokens 1 with names := names } where
  iff ht hd := by
    rw [always_one, Core.bounded, Core.counted, hx, Bool.and_eq_true, hw]
    constructor
    · rintro ⟨h1, h2⟩
      exact ⟨by simpa [Measure.ofTokens] using h1, hd, by simp [Measure.ofTokens], h2,
        by simp [Measure.ofTokens]⟩
    · rintro ⟨h1, -, -, h2, -⟩
      exact ⟨by simpa [Measure.ofTokens] using h1, h2⟩
  context := hc
  count := hn

theorem meets_structure (hx : x.isToken = true) (hw : c.within limits x = true)
    (hc : (c.after limits x).context = c.context)
    (hn : limits.maxTokenCount ≠ none → (c.after limits x).tokenCount = c.tokenCount + 1) :
    c.Meets limits [x] (.ofTokens 1) :=
  meets_token hx (iff_of_true hw (by simp)) hc hn

/-- A container around what is in it. -/
theorem meets_nested {kind : Context} (h : (c.after limits (.opening kind)).Meets limits ys m) :
    c.Meets limits (.opening kind :: ys ++ [.closing kind]) m.nested where
  iff ht hd := by
    have hopen : (c.after limits (.opening kind)).context.length = c.context.length + 1 := rfl
    have hcount : m.Fits limits (c.after limits (.opening kind)).tokenCount (c.context.length + 1) ↔
        m.Fits limits (c.tokenCount + 1) (c.context.length + 1) :=
      Measure.Fits.congr fun hn => count_tokens (c.enter kind) hn
    rw [List.cons_append, Core.Always, always_append, always_one, fits_nested, ← hcount]
    have hfirst : c.bounded limits (.opening kind) = true ↔
        exceeds limits.maxTokenCount (c.tokenCount + 1) = false ∧
          exceeds limits.maxNestingDepth (c.context.length + 1) = false := by
      simp [Core.bounded, Core.counted, Core.within, Lexeme.isToken]
    rw [hfirst, and_assoc]
    refine and_congr_right fun h1 => and_congr_right fun h2 => ?_
    have ht' : exceeds limits.maxTokenCount (c.after limits (.opening kind)).tokenCount =
      false := by
      by_cases hnone : limits.maxTokenCount = none
      · simp [hnone]
      · rwa [show (c.after limits (.opening kind)).tokenCount = c.tokenCount + 1 from
          count_tokens (c.enter kind) hnone]
    rw [h.iff ht' (by rwa [hopen]), hopen]
    refine and_congr_right fun _ => ?_
    have hlast : ((c.after limits (.opening kind)).run limits ys).bounded limits (.closing kind) =
        !exceeds limits.maxTokenCount
          (((c.after limits (.opening kind)).run limits ys).tokenCount + 1) := by
      simp [Core.bounded, Core.counted, Core.within, Lexeme.isToken]
    rw [hlast, Bool.not_eq_true']
    by_cases hnone : limits.maxTokenCount = none
    · simp [hnone]
    · rw [h.count hnone, show (c.after limits (.opening kind)).tokenCount = c.tokenCount + 1 from
        count_tokens (c.enter kind) hnone]
  context := by
    rw [List.cons_append, Core.run_cons, Core.run_append]
    show ((c.after limits (.opening kind)).run limits ys).context.tail = c.context
    rw [h.context]
    rfl
  count hnone := by
    rw [List.cons_append, Core.run_cons, Core.run_append]
    refine (count_tokens
      (((c.after limits (.opening kind)).run limits ys).leave kind) hnone).trans ?_
    show ((c.after limits (.opening kind)).run limits ys).tokenCount + 1 = _
    rw [h.count hnone, show (c.after limits (.opening kind)).tokenCount = c.tokenCount + 1 from
      count_tokens (c.enter kind) hnone]
    simp only [Measure.nested]
    omega

end Meets

/-! ## The sizes of a tree -/

section Trees

variable {limits : ParserLimits} {c : Core}

theorem fits_nothing {n d : Nat} : (Measure.ofTokens 0).Fits limits n d ↔
    exceeds limits.maxTokenCount n = false ∧ exceeds limits.maxNestingDepth d = false := by
  constructor
  · exact fun h => ⟨h.tokens, h.depth⟩
  · rintro ⟨h1, h2⟩
    exact ⟨h1, h2, by simp [Measure.ofTokens], by simp [Measure.ofTokens], by simp
      [Measure.ofTokens]⟩

theorem meets_nil : c.Meets limits [] (.ofTokens 0) :=
  ⟨fun ht hd => iff_of_true trivial (fits_nothing.mpr ⟨ht, hd⟩), rfl, fun _ => rfl⟩

theorem append_nothing (m : Measure) : (Measure.ofTokens 0).append m = m := by
  simp [Measure.append, Measure.ofTokens]

theorem nothing_append (m : Measure) : m.append (.ofTokens 0) = m := by
  simp [Measure.append, Measure.ofTokens]

/-- Whitespace has no size. -/
theorem meets_ws (c : Core) (w : Ws) : c.Meets limits (wsLexemes w) (.ofTokens 0) := by
  obtain ⟨w, hw⟩ := w
  unfold wsLexemes
  induction w generalizing c with
  | nil => exact meets_nil
  | cons b w ih =>
    have hspace : c.Meets limits [.space b] (.ofTokens 0) :=
      meets_plain rfl (fun _ => rfl) (by rw [Core.after_space]) (by rw [Core.after_space])
    exact hspace.append (ih _ fun b hb => hw b (List.mem_cons_of_mem _ hb))

/-- A lexeme that is no token opens and counts nothing. -/
theorem after_quiet (limits : ParserLimits) (c : Core) {x : Lexeme} (hx : x.isToken = false) :
    (c.after limits x).context = c.context ∧ (c.after limits x).tokenCount = c.tokenCount := by
  cases x with
  | space b => rw [Core.after_space]; exact ⟨rfl, rfl⟩
  | digit b => rw [Core.after_digit]; exact ⟨rfl, rfl⟩
  | mark | settle | endNumber | char | endString => exact ⟨rfl, rfl⟩
  | _ => cases hx

/-- What is no token opens nothing and is not counted. -/
theorem run_quiet {xs : List Lexeme} (h : ∀ x ∈ xs, x.isToken = false) :
    (c.run limits xs).context = c.context ∧ (c.run limits xs).tokenCount = c.tokenCount := by
  induction xs generalizing c with
  | nil => exact ⟨rfl, rfl⟩
  | cons x xs ih =>
    obtain ⟨h1, h2⟩ := after_quiet limits c (h x List.mem_cons_self)
    obtain ⟨h3, h4⟩ := ih (c := c.after limits x) fun y hy => h y (List.mem_cons_of_mem _ hy)
    exact ⟨h3.trans h1, h4.trans h2⟩

theorem mem_contentLexemesAux {x : Lexeme} : ∀ {fuel : Nat} {l : List UInt8},
    x ∈ contentLexemesAux fuel l → ∃ raw ch, x = .char raw ch
  | 0, _, h => by cases h
  | fuel + 1, l, h => by
    rw [contentLexemesAux] at h
    split at h
    · rcases List.mem_cons.mp h with rfl | h
      · exact ⟨_, _, rfl⟩
      · exact mem_contentLexemesAux h
    · cases h

/-- The content of a string is characters only. -/
theorem mem_contentLexemes {x : Lexeme} {raw : List UInt8} (h : x ∈ contentLexemes raw) :
    ∃ raw ch, x = .char raw ch := mem_contentLexemesAux h

/-- The characters of a string value are bounded by its raw length. -/
theorem content_bounded {raw : List UInt8} {s : Text} (hd : decodeString raw = some s) (c : Core)
    (hc : exceeds limits.maxStringLength c.stringBytes = false) :
    c.Always limits (Core.bounded limits) (contentLexemes raw) ↔
      exceeds limits.maxStringLength (c.stringBytes + raw.length) = false := by
  suffices hP : ∀ c : Core, exceeds limits.maxStringLength c.stringBytes = false →
      (c.Always limits (Core.bounded limits) (contentLexemes raw) ↔
        exceeds limits.maxStringLength (c.stringBytes + raw.length) = false) from hP c hc
  refine decodeString_induct (P := fun raw _ => ∀ c : Core,
    exceeds limits.maxStringLength c.stringBytes = false →
      (c.Always limits (Core.bounded limits) (contentLexemes raw) ↔
        exceeds limits.maxStringLength (c.stringBytes + raw.length) = false)) ?_ ?_ hd
  · exact fun c hc => iff_of_true trivial hc
  · intro raw ch n s hch _ ih c hc
    have hle := (rawChar_length hch).2.2
    have htake : (raw.take n).length = n := List.length_take_of_le hle
    have hsum : c.stringBytes + n + (raw.drop n).length = c.stringBytes + raw.length := by
      rw [List.length_drop]
      omega
    have hbytes : (c.after limits (.char (raw.take n) ch)).stringBytes = c.stringBytes + n :=
      congrArg (c.stringBytes + ·) htake
    have hfirst : c.bounded limits (.char (raw.take n) ch) = true ↔
        exceeds limits.maxStringLength (c.stringBytes + n) = false := by
      simp [Core.bounded, Core.counted, Core.within, Lexeme.isToken, htake]
    have ih' := ih (c.after limits (.char (raw.take n) ch))
    rw [hbytes, hsum] at ih'
    rw [contentLexemes_of_rawChar hch, Core.Always, hfirst]
    constructor
    · rintro ⟨h1, h2⟩
      exact (ih' h1).mp h2
    · intro h
      have h1 : exceeds limits.maxStringLength (c.stringBytes + n) = false :=
        not_exceeds_mono h (by omega)
      exact ⟨h1, (ih' h1).mpr h⟩

/-- A token is within the limits if its number is and it is itself. -/
theorem counted_first {x : Lexeme} (hx : x.isToken = true) (hw : c.within limits x = true) :
    c.bounded limits x = true ↔ exceeds limits.maxTokenCount (c.tokenCount + 1) = false := by
  simp [Core.bounded, Core.counted, hx, hw]

/-- A token that goes on as lexemes that are none. -/
theorem meets_long {x : Lexeme} {ys : List Lexeme} {strings numbers : List Nat}
    (hx : x.isToken = true) (hw : c.within limits x = true)
    (hc : (c.after limits x).context = c.context)
    (hn : limits.maxTokenCount ≠ none → (c.after limits x).tokenCount = c.tokenCount + 1)
    (hys : ∀ y ∈ ys, y.isToken = false)
    (hb : (c.after limits x).Always limits (Core.bounded limits) ys ↔
      (∀ k ∈ strings, exceeds limits.maxStringLength k = false) ∧
        ∀ k ∈ numbers, k = 1 ∨ exceeds limits.maxNumberLength k = false) :
    c.Meets limits (x :: ys)
      { Measure.ofTokens 1 with strings := strings, numbers := numbers } where
  iff ht hd := by
    rw [Core.Always, counted_first hx hw, hb]
    constructor
    · rintro ⟨h1, h2, h3⟩
      exact ⟨by simpa [Measure.ofTokens] using h1, hd, h2, by simp [Measure.ofTokens], h3⟩
    · rintro ⟨h1, -, h2, -, h3⟩
      exact ⟨by simpa [Measure.ofTokens] using h1, h2, h3⟩
  context := (run_quiet hys).1.trans hc
  count hnone := (run_quiet hys).2.trans (hn hnone)

/-- A string value. -/
theorem meets_string (c : Core) (s : RawString) :
    c.Meets limits (.startString :: contentLexemes s.raw ++ [.endString])
      { Measure.ofTokens 1 with strings := [s.raw.length] } := by
  rw [List.cons_append]
  refine meets_long rfl rfl rfl (fun hn => count_tokens c.beginString hn) ?_ ?_
  · intro y hy
    rcases List.mem_append.mp hy with hy | hy
    · obtain ⟨raw, ch, rfl⟩ := mem_contentLexemes hy
      rfl
    · rw [List.mem_singleton.mp hy]
      rfl
  · have hzero : (c.after limits .startString).stringBytes = 0 := rfl
    rw [always_append, content_bounded s.denotes _ (by rw [hzero]; exact not_exceeds_zero _), hzero,
      Nat.zero_add, always_one]
    simp [Core.bounded, Core.counted, Core.within, Lexeme.isToken, Measure.ofTokens]

/-- Further bytes of a number, of which there are `k` so far. -/
theorem digits_bounded : ∀ {bs : List UInt8} {n : NumberState} (c : Core),
    c.number.takeBytes bs = some n →
      (c.Always limits (Core.bounded limits) (bs.map .digit ++ [.endNumber]) ↔
        bs = [] ∨ exceeds limits.maxNumberLength (c.number.length + bs.length) = false)
  | [], _, c, _ => iff_of_true (always_one.mpr rfl) (.inl rfl)
  | b :: bs, n, c, h => by
    rw [NumberState.takeBytes] at h
    split at h
    · next n' hn =>
      have hlen : (n'.addLength 1).length = c.number.length + 1 :=
        congrArg (· + 1) (NumberState.takeByte_length hn)
      have hafter : (c.after limits (.digit b)).number = n'.addLength 1 := by
        simp only [Core.after, hn]
      have ih := digits_bounded (n := n) (c.after limits (.digit b)) (by rwa [hafter])
      rw [hafter, hlen] at ih
      have hfirst : c.bounded limits (.digit b) = true ↔
          exceeds limits.maxNumberLength (c.number.length + 1) = false := by
        simp [Core.bounded, Core.counted, Core.within, Lexeme.isToken]
      have hsum : c.number.length + (b :: bs).length = c.number.length + 1 + bs.length := by
        rw [List.length_cons]
        omega
      rw [List.map_cons, List.cons_append, Core.Always, hfirst, ih, hsum]
      constructor
      · rintro ⟨h1, rfl | h2⟩
        · exact .inr h1
        · exact .inr h2
      · rintro (h2 | h2)
        · cases h2
        · exact ⟨not_exceeds_mono h2 (by omega), .inr h2⟩
    · cases h

/-- A number. -/
theorem meets_number (c : Core) (n : NumberText) :
    c.Meets limits (numberLexemes n.1) { Measure.ofTokens 1 with numbers := [n.1.length] } := by
  obtain ⟨bs, hn⟩ := n
  obtain ⟨b, bs, rfl⟩ := List.exists_cons_of_ne_nil fun hnil : bs = [] =>
    not_isNumber_nil (hnil ▸ hn)
  obtain ⟨-, n, ht, -⟩ := isNumber_cons.mp hn
  rw [numberLexemes, List.cons_append]
  refine meets_long rfl rfl rfl (fun hn => count_tokens (c.beginNumber b) hn) ?_ ?_
  · intro y hy
    rcases List.mem_append.mp hy with hy | hy
    · obtain ⟨d, -, rfl⟩ := List.mem_map.mp hy
      rfl
    · rw [List.mem_singleton.mp hy]
      rfl
  · have hstart : (c.after limits (.startNumber b)).number = .start b := rfl
    rw [digits_bounded (c.after limits (.startNumber b)) ht, hstart, NumberState.start_length]
    cases bs with
    | nil => simp [Measure.ofTokens]
    | cons d ds => simp [Nat.add_comm, Measure.ofTokens]

/-- A key and its colon. -/
theorem meets_label (c : Core) (label : Ws × RawString × Ws) :
    c.Meets limits (labelLexemes label) (labelMeasure label) := by
  obtain ⟨before, k, after⟩ := label
  have hkey (c : Core) : c.Meets limits [.key k.raw k.text]
      { Measure.ofTokens 1 with names := [k.raw.length] } :=
    meets_token rfl (by simp [Core.within]) rfl fun hn => count_tokens _ hn
  have hcolon (c : Core) : c.Meets limits [.colon] (.ofTokens 1) :=
    meets_structure rfl rfl rfl fun hn => count_tokens _ hn
  have := (meets_ws c before).append ((hkey _).append ((meets_ws _ after).append (hcolon _)))
  rw [append_nothing, append_nothing] at this
  have hm : labelMeasure (before, k, after) = Measure.append
    { Measure.ofTokens 1 with names := [k.raw.length] } (.ofTokens 1) := rfl
  rw [hm]
  simpa [labelLexemes] using this

/-- Whitespace around a value. -/
theorem meets_padded {t : Tree} (c : Core) (before after : Ws)
    (ht : ∀ c : Core, c.Meets limits t.lexemes t.measure) :
    c.Meets limits (wsLexemes before ++ t.lexemes ++ wsLexemes after) t.measure := by
  have := ((meets_ws c before).append (ht _)).append (meets_ws _ after)
  rwa [append_nothing, nothing_append] at this

mutual

/-- **The sizes of the lexemes of a tree** are those of the tree. -/
theorem Tree.meets : ∀ (t : Tree) (c : Core), c.Meets limits t.lexemes t.measure
  | .null, c => meets_structure rfl rfl rfl fun hn => count_tokens _ hn
  | .boolean _, c => meets_structure rfl rfl rfl fun hn => count_tokens _ hn
  | .number n, c => meets_number c n
  | .string s, c => meets_string c s
  | .emptyArray pad, c => meets_nested (meets_ws _ pad)
  | .emptyObject pad, c => meets_nested (meets_ws _ pad)
  | .array (before, t, after) rest, c => by
    have := (meets_padded (c.after limits (.opening .array)) before after (Tree.meets t)).append
      (Tree.meets_rest rest _)
    simpa [Tree.lexemes, Tree.itemLexemes, Tree.measure] using meets_nested this
  | .object (label, before, t, after) rest, c => by
    have := (meets_label (c.after limits (.opening .object)) label).append
      ((meets_padded _ before after (Tree.meets t)).append (Tree.meets_members rest _))
    simpa [Tree.lexemes, Tree.memberLexemes, Tree.measure] using meets_nested this

/-- The further items of an array. -/
theorem Tree.meets_rest : ∀ (rest : List (Ws × Tree × Ws)) (c : Core),
    c.Meets limits (restLexemes rest) (measureRest rest)
  | [], c => meets_nil
  | (before, t, after) :: rest, c => by
    have hcomma : c.Meets limits [.comma] (.ofTokens 1) :=
      meets_structure rfl rfl rfl fun hn => count_tokens _ hn
    have := hcomma.append ((meets_padded _ before after (Tree.meets t)).append
      (Tree.meets_rest rest _))
    simpa [restLexemes, itemLexemes, measureRest] using this

/-- The further members of an object. -/
theorem Tree.meets_members : ∀ (rest : List ((Ws × RawString × Ws) × Ws × Tree × Ws)) (c : Core),
    c.Meets limits (membersLexemes rest) (measureMembers rest)
  | [], c => meets_nil
  | (label, before, t, after) :: rest, c => by
    have hcomma : c.Meets limits [.comma] (.ofTokens 1) :=
      meets_structure rfl rfl rfl fun hn => count_tokens _ hn
    have := hcomma.append ((meets_label _ label).append
      ((meets_padded _ before after (Tree.meets t)).append (Tree.meets_members rest _)))
    simpa [membersLexemes, memberLexemes, measureMembers] using this

end

/-- **The limits allow the lexemes of a document** where its sizes are within them. -/
theorem document_bounded (bom : List UInt8) (before : Ws) (t : Tree) (after : Ws)
    (ht : c.tokenCount = 0) (hc : c.context = []) :
    c.Always limits (Core.bounded limits) (documentLexemes bom before t after) ↔
      t.measure.Fits limits 0 0 := by
  have hmark : c.Meets limits [.mark bom] (.ofTokens 0) := meets_plain rfl (fun _ => rfl) rfl rfl
  have := (hmark.append (meets_padded _ before after (Tree.meets t))).iff
    (by rw [ht]; exact not_exceeds_zero _) (by rw [hc]; exact not_exceeds_zero _)
  rwa [append_nothing, ht, hc] at this

end Trees

/-! ## Keys that an object has already -/

section Novel

variable {limits : ParserLimits} {c : Core} {ys zs : List Lexeme} {keys keys' : List Text}
  {p p' : Prop} {x : Lexeme}

/-- The setting does not change over a document. -/
theorem run_rejects (limits : ParserLimits) (c : Core) (xs : List Lexeme) :
    (c.run limits xs).rejectDuplicateKeys = c.rejectDuplicateKeys := by
  induction xs generalizing c with
  | nil => rfl
  | cons x xs ih =>
    rw [Core.run_cons, ih]
    cases x with
    | space b => rw [Core.after_space]
    | digit b => rw [Core.after_digit]
    | _ => rfl

/-- Where duplicate keys are not rejected every key is taken. -/
theorem novel_off (h : c.rejectDuplicateKeys = false) (xs : List Lexeme) :
    c.Always limits Core.novel xs := by
  induction xs generalizing c with
  | nil => trivial
  | cons x xs ih =>
    refine ⟨?_, ih ((run_rejects limits c [x]).trans h)⟩
    cases x with
    | key raw text => simp [Core.novel, Core.isDuplicate, h]
    | _ => rfl

/-- The keys of each open object after some more of the innermost. -/
def noteAll (keys : List Text) : List (List Text) → List (List Text)
  | [] => []
  | s :: rest => (keys.reverse ++ s) :: rest

/-- Some more keys of the innermost object are new to it. -/
def AllNew (keys : List Text) : List (List Text) → Prop
  | [] => True
  | s :: _ => keys.Nodup ∧ ∀ k ∈ keys, k ∉ s

/-- Keys are noted in order. -/
theorem noteAll_append (seen : List (List Text)) :
    noteAll keys' (noteAll keys seen) = noteAll (keys ++ keys') seen := by
  cases seen with
  | nil => rfl
  | cons s rest => simp [noteAll]

/-- Keys are new if the first are, and the others are after them. -/
theorem allNew_append {seen : List (List Text)} :
    AllNew (keys ++ keys') seen ↔ AllNew keys seen ∧ AllNew keys' (noteAll keys seen) := by
  cases seen with
  | nil => exact (iff_of_true trivial ⟨trivial, trivial⟩)
  | cons s rest =>
    rw [AllNew, List.nodup_append, List.forall_mem_append]
    simp only [AllNew, noteAll, List.mem_append, List.mem_reverse]
    constructor
    · rintro ⟨⟨h1, h2, h3⟩, h4, h5⟩
      exact ⟨⟨h1, h4⟩, h2, fun k hk => not_or.mpr ⟨fun hk' => h3 k hk' k hk rfl, h5 k hk⟩⟩
    · rintro ⟨⟨h1, h4⟩, h2, h5⟩
      refine ⟨⟨h1, h2, ?_⟩, h4, fun k hk => (not_or.mp (h5 k hk)).2⟩
      rintro a ha b hb rfl
      exact (not_or.mp (h5 a hb)).1 ha

/-- **Some lexemes have `keys` of the innermost object**, and `p` says that the objects in them have
no key twice. -/
structure Core.Notes (limits : ParserLimits) (c : Core) (ys : List Lexeme) (keys : List Text)
    (p : Prop) : Prop where
  iff : c.rejectDuplicateKeys = true →
    (c.Always limits Core.novel ys ↔ AllNew keys c.seen ∧ p)
  seen : c.rejectDuplicateKeys = true → (c.run limits ys).seen = noteAll keys c.seen

/-- Two parts note their keys together. -/
theorem Core.Notes.append (h : c.Notes limits ys keys p)
    (h' : (c.run limits ys).Notes limits zs keys' p') :
    c.Notes limits (ys ++ zs) (keys ++ keys') (p ∧ p') where
  iff hr := by
    have hr' := (run_rejects limits c ys).trans hr
    rw [always_append, h.iff hr, h'.iff hr', h.seen hr, allNew_append]
    tauto
  seen hr := by
    rw [Core.run_append, h'.seen ((run_rejects limits c ys).trans hr), h.seen hr, noteAll_append]

theorem noteAll_nil (seen : List (List Text)) : noteAll [] seen = seen := by
  cases seen <;> rfl

theorem allNew_nil (seen : List (List Text)) : AllNew [] seen := by
  cases seen with
  | nil => trivial
  | cons s rest => exact ⟨List.nodup_nil, by simp⟩

/-- Lexemes that have no keys and open no object. -/
theorem notes_quiet (h : ∀ x ∈ ys, ∀ c : Core, c.novel x = true ∧ (c.after limits x).seen = c.seen)
    (c : Core) : c.Notes limits ys [] True := by
  have hquiet : ∀ c : Core, c.Always limits Core.novel ys ∧ (c.run limits ys).seen = c.seen := by
    induction ys with
    | nil => exact fun _ => ⟨trivial, rfl⟩
    | cons x ys ih =>
      intro c
      obtain ⟨h1, h2⟩ := h x List.mem_cons_self c
      obtain ⟨h3, h4⟩ := ih (fun y hy => h y (List.mem_cons_of_mem _ hy)) (c.after limits x)
      exact ⟨⟨h1, h3⟩, h4.trans h2⟩
  refine ⟨fun _ => iff_of_true (hquiet c).1 ⟨allNew_nil _, trivial⟩, fun _ => ?_⟩
  rw [noteAll_nil]
  exact (hquiet c).2

/-- A lexeme that has no key and opens no object. -/
def Lexeme.isQuiet : Lexeme → Bool
  | .key _ _ | .opening _ | .closing _ => false
  | _ => true

/-- What opens nothing and is no key notes nothing. -/
theorem notes_of_quiet (h : ∀ x ∈ ys, x.isQuiet = true) (c : Core) :
    c.Notes limits ys [] True := by
  refine notes_quiet (fun x hx c => ?_) c
  have hq := h x hx
  cases x with
  | key | opening | closing => cases hq
  | space b => rw [Core.after_space]; exact ⟨rfl, rfl⟩
  | digit b => rw [Core.after_digit]; exact ⟨rfl, rfl⟩
  | _ => exact ⟨rfl, rfl⟩

theorem quiet_ws {w : Ws} (h : x ∈ wsLexemes w) : x.isQuiet = true := by
  obtain ⟨b, -, rfl⟩ := List.mem_map.mp h
  rfl

theorem notes_ws (c : Core) (w : Ws) : c.Notes limits (wsLexemes w) [] True :=
  notes_of_quiet (fun _ hx => quiet_ws hx) c

theorem notes_nil (c : Core) : c.Notes limits [] [] True :=
  notes_of_quiet (fun _ hx => by cases hx) c

theorem notes_one (hx : x.isQuiet = true) (c : Core) : c.Notes limits [x] [] True := by
  refine notes_of_quiet (fun y hy => ?_) c
  rwa [List.mem_singleton.mp hy]

/-- A number notes nothing. -/
theorem quiet_number {l : List UInt8} (h : x ∈ numberLexemes l) : x.isQuiet = true := by
  cases l with
  | nil => cases h
  | cons b l =>
    rcases List.mem_cons.mp h with rfl | h
    · rfl
    rcases List.mem_append.mp h with h | h
    · obtain ⟨d, -, rfl⟩ := List.mem_map.mp h
      rfl
    · rw [List.mem_singleton.mp h]
      rfl

/-- A string value notes nothing. -/
theorem quiet_string {raw : List UInt8}
    (h : x ∈ .startString :: contentLexemes raw ++ [.endString]) : x.isQuiet = true := by
  rcases List.mem_cons.mp h with rfl | h
  · rfl
  rcases List.mem_append.mp h with h | h
  · obtain ⟨r, ch, rfl⟩ := mem_contentLexemes h
    rfl
  · rw [List.mem_singleton.mp h]
    rfl

/-- A key. -/
theorem notes_key (c : Core) (raw : List UInt8) (text : Text) :
    c.Notes limits [.key raw text] [text] True where
  iff hr := by
    rw [always_one, Core.novel, Core.isDuplicate, hr]
    cases hs : c.seen with
    | nil => simp [AllNew]
    | cons s rest => simp [AllNew]
  seen hr := by
    show (c.note text).seen = _
    rw [Core.note, hr]
    cases c.seen <;> rfl

/-- An object around its members. -/
theorem notes_object (h : (c.after limits (.opening .object)).Notes limits ys keys p) :
    c.Notes limits (.opening .object :: ys ++ [.closing .object]) [] (keys.Nodup ∧ p) where
  iff hr := by
    have hseen : (c.after limits (.opening .object)).seen = [] :: c.seen := by
      show (if _ then _ else _) = _
      exact if_pos ⟨rfl, hr⟩
    rw [List.cons_append, Core.Always, always_append, always_one, h.iff hr, hseen]
    simp only [Core.novel, AllNew, true_and, and_true]
    exact ⟨fun h => ⟨allNew_nil _, h.1.1, h.2⟩, fun h => ⟨⟨h.2.1, by simp⟩, h.2.2⟩⟩
  seen hr := by
    have hseen : (c.after limits (.opening .object)).seen = [] :: c.seen := by
      show (if _ then _ else _) = _
      exact if_pos ⟨rfl, hr⟩
    rw [List.cons_append, Core.run_cons, Core.run_append, noteAll_nil]
    have hrun := h.seen hr
    rw [hseen] at hrun
    have hr' := (run_rejects limits (c.after limits (.opening .object)) ys).trans hr
    show (if _ then _ else _) = _
    rw [if_pos ⟨rfl, hr'⟩, hrun]
    rfl

/-- An array around its elements. -/
theorem notes_array (h : (c.after limits (.opening .array)).Notes limits ys [] p) :
    c.Notes limits (.opening .array :: ys ++ [.closing .array]) [] p where
  iff hr := by
    rw [List.cons_append, Core.Always, always_append, always_one, h.iff hr]
    simp only [Core.novel, true_and, and_true]
    exact ⟨fun h => ⟨allNew_nil _, h.2⟩, fun h => ⟨allNew_nil _, h.2⟩⟩
  seen hr := by
    rw [List.cons_append, Core.run_cons, Core.run_append, noteAll_nil]
    have hrun := h.seen hr
    rw [noteAll_nil] at hrun
    exact hrun

end Novel

/-! ## Trees whose objects have no key twice -/

section Distinct

variable {limits : ParserLimits}

/-- A key and its colon. -/
theorem notes_label (c : Core) (label : Ws × RawString × Ws) :
    c.Notes limits (labelLexemes label) [label.2.1.text] True := by
  obtain ⟨before, k, after⟩ := label
  have hcolon (c : Core) : c.Notes limits (wsLexemes after ++ [.colon]) [] True := by
    simpa using (notes_ws c after).append (notes_one (x := .colon) rfl _)
  have := (notes_ws c before).append ((notes_key _ k.raw k.text).append (hcolon _))
  simpa [labelLexemes] using this

/-- Whitespace around a value. -/
theorem notes_padded {t : Tree} {p : Prop} (c : Core) (before after : Ws)
    (ht : ∀ c : Core, c.Notes limits t.lexemes [] p) :
    c.Notes limits (wsLexemes before ++ t.lexemes ++ wsLexemes after) [] p := by
  have := ((notes_ws c before).append (ht _)).append (notes_ws _ after)
  simpa using this

mutual

/-- **No key of a tree is refused** where none of its objects has one twice. -/
theorem Tree.notes : ∀ (t : Tree) (c : Core), c.Notes limits t.lexemes [] (t.distinct = true)
  | .null, c => by
    simpa [Tree.lexemes, Tree.distinct] using notes_one (x := .literal none) rfl c
  | .boolean v, c => by
    simpa [Tree.lexemes, Tree.distinct] using notes_one (x := .literal (some v)) rfl c
  | .number n, c => by
    simpa [Tree.lexemes, Tree.distinct] using notes_of_quiet (fun x hx => quiet_number hx) c
  | .string s, c => by
    simpa [Tree.lexemes, Tree.distinct] using notes_of_quiet (fun x hx => quiet_string hx) c
  | .emptyArray pad, c => by
    simpa [Tree.distinct, Tree.lexemes] using
      notes_array (notes_ws (c.after limits (.opening .array)) pad)
  | .emptyObject pad, c => by
    simpa [Tree.distinct, Tree.lexemes] using
      notes_object (notes_ws (c.after limits (.opening .object)) pad)
  | .array (before, t, after) rest, c => by
    have := (notes_padded (c.after limits (.opening .array)) before after (Tree.notes t)).append
      (Tree.notes_rest rest _)
    simpa [Tree.lexemes, Tree.itemLexemes, Tree.distinct] using notes_array this
  | .object (label, before, t, after) rest, c => by
    have := (notes_label (c.after limits (.opening .object)) label).append
      ((notes_padded _ before after (Tree.notes t)).append (Tree.notes_members rest _))
    simpa [Tree.lexemes, Tree.memberLexemes, Tree.distinct] using notes_object this

/-- The further items of an array note nothing of their own. -/
theorem Tree.notes_rest : ∀ (rest : List (Ws × Tree × Ws)) (c : Core),
    c.Notes limits (restLexemes rest) [] (distinctRest rest = true)
  | [], c => by simpa [restLexemes, distinctRest] using notes_nil c
  | (before, t, after) :: rest, c => by
    have hcomma : c.Notes limits [.comma] [] True :=
      notes_one rfl c
    have := hcomma.append ((notes_padded _ before after (Tree.notes t)).append
      (Tree.notes_rest rest _))
    simpa [restLexemes, itemLexemes, distinctRest] using this

/-- The further members of an object note their keys. -/
theorem Tree.notes_members : ∀ (rest : List ((Ws × RawString × Ws) × Ws × Tree × Ws)) (c : Core),
    c.Notes limits (membersLexemes rest) (memberKeys rest) (distinctMembers rest = true)
  | [], c => by
    simpa [membersLexemes, distinctMembers, memberKeys] using notes_nil c
  | (label, before, t, after) :: rest, c => by
    have hcomma : c.Notes limits [.comma] [] True :=
      notes_one rfl c
    have := hcomma.append ((notes_label _ label).append
      ((notes_padded _ before after (Tree.notes t)).append (Tree.notes_members rest _)))
    simpa [membersLexemes, memberLexemes, distinctMembers, memberKeys] using this

end

/-- **No key of a document is refused** where none of its objects has one twice. -/
theorem document_novel {c : Core} (bom : List UInt8) (before : Ws) (t : Tree) (after : Ws)
    (hr : c.rejectDuplicateKeys = true) :
    c.Always limits Core.novel (documentLexemes bom before t after) ↔ t.distinct = true := by
  have hmark : c.Notes limits [.mark bom] [] True :=
    notes_one rfl c
  have := (hmark.append (notes_padded _ before after (Tree.notes t))).iff hr
  rw [List.append_nil] at this
  rw [documentLexemes, ← List.singleton_append, this]
  simp [allNew_nil]

end Distinct

end RJsonParser
