import RJsonParser.Properties.Documents

/-!
# The lexemes of a tree

The machine, with any limits, finds the lexemes of a tree over its bytes. Where a line break is over
depends on what is behind it, so the lexemes that end one are left out.

* `Tree.lexemes`, `Document.lexemes` — the lexemes of a tree and of a document
* `Core.Over` — the machine finds some lexemes
* `Tree.over` — it finds those of a tree, by recursion on the tree
-/

namespace RJsonParser

open Infra Infra.Utf8

/-! ## What the lexemes are -/

/-- The lexemes but for the ends of line breaks. -/
def visible (xs : List Lexeme) : List Lexeme := xs.filter fun x => decide (x ≠ .settle)

@[simp] theorem visible_nil : visible [] = [] := rfl

@[simp] theorem visible_append (xs ys : List Lexeme) :
    visible (xs ++ ys) = visible xs ++ visible ys := List.filter_append ..

theorem visible_cons {x : Lexeme} (h : x ≠ .settle) (xs : List Lexeme) :
    visible (x :: xs) = x :: visible xs := List.filter_cons_of_pos (by simpa using h)

theorem visible_settle (xs : List Lexeme) : visible (.settle :: xs) = visible xs := rfl

@[simp] theorem bytesOf_visible (xs : List Lexeme) : bytesOf (visible xs) = bytesOf xs := by
  induction xs with
  | nil => rfl
  | cons x xs ih =>
    by_cases hx : x = .settle
    · subst hx
      rw [visible_settle, ih]
      rfl
    · rw [visible_cons hx, bytesOf_cons, bytesOf_cons, ih]

/-- The lexemes of whitespace. -/
def wsLexemes (w : Ws) : List Lexeme := w.1.map .space

/-- The lexemes of a number. -/
def numberLexemes : List UInt8 → List Lexeme
  | [] => []
  | b :: l => .startNumber b :: l.map .digit ++ [.endNumber]

/-- The characters of the content of a string. -/
def contentLexemesAux : Nat → List UInt8 → List Lexeme
  | 0, _ => []
  | fuel + 1, l =>
    match rawChar l with
    | some (ch, n) => .char (l.take n) ch :: contentLexemesAux fuel (l.drop n)
    | none => []

def contentLexemes (raw : List UInt8) : List Lexeme := contentLexemesAux raw.length raw

/-- The lexemes of a key up to its colon. -/
def labelLexemes (label : Ws × RawString × Ws) : List Lexeme :=
  wsLexemes label.1 ++ .key label.2.1.raw label.2.1.text :: wsLexemes label.2.2 ++ [.colon]

mutual

/-- The lexemes of a tree. -/
def Tree.lexemes : Tree → List Lexeme
  | .null => [.literal none]
  | .boolean value => [.literal (some value)]
  | .number n => numberLexemes n.1
  | .string s => .startString :: contentLexemes s.raw ++ [.endString]
  | .emptyArray pad => .opening .array :: wsLexemes pad ++ [.closing .array]
  | .array first rest =>
    .opening .array :: itemLexemes first ++ restLexemes rest ++ [.closing .array]
  | .emptyObject pad => .opening .object :: wsLexemes pad ++ [.closing .object]
  | .object first rest =>
    .opening .object :: memberLexemes first ++ membersLexemes rest ++ [.closing .object]

def Tree.itemLexemes : Ws × Tree × Ws → List Lexeme
  | (before, t, after) => wsLexemes before ++ t.lexemes ++ wsLexemes after

/-- Further elements, each behind a comma. -/
def Tree.restLexemes : List (Ws × Tree × Ws) → List Lexeme
  | [] => []
  | item :: rest => .comma :: itemLexemes item ++ restLexemes rest

def Tree.memberLexemes : (Ws × RawString × Ws) × Ws × Tree × Ws → List Lexeme
  | (label, before, t, after) =>
    labelLexemes label ++ wsLexemes before ++ t.lexemes ++ wsLexemes after

/-- Further members, each behind a comma. -/
def Tree.membersLexemes : List ((Ws × RawString × Ws) × Ws × Tree × Ws) → List Lexeme
  | [] => []
  | member :: rest => .comma :: memberLexemes member ++ membersLexemes rest

end

/-! ## The bytes of the lexemes -/

@[simp] theorem bytesOf_ws (w : Ws) : bytesOf (wsLexemes w) = w.1 := by
  obtain ⟨w, hw⟩ := w
  induction w with
  | nil => rfl
  | cons b w ih => exact congrArg (b :: ·) (ih fun b hb => hw b (List.mem_cons_of_mem _ hb))

theorem bytesOf_number (l : List UInt8) : bytesOf (numberLexemes l) = l := by
  have digits (l : List UInt8) : bytesOf (l.map .digit) = l := by
    induction l with
    | nil => rfl
    | cons b l ih => exact congrArg (b :: ·) ih
  cases l with
  | nil => rfl
  | cons b l =>
    show b :: bytesOf (l.map .digit ++ [.endNumber]) = _
    rw [bytesOf_append, digits]
    exact congrArg (b :: ·) (List.append_nil l)

theorem contentLexemesAux_congr : ∀ {m n : Nat} {l : List UInt8}, l.length ≤ m → l.length ≤ n →
    contentLexemesAux m l = contentLexemesAux n l
  | 0, 0, _, _, _ => rfl
  | 0, n + 1, l, hm, _ => by
    obtain rfl := List.length_eq_zero_iff.mp (Nat.le_zero.mp hm)
    rfl
  | m + 1, 0, l, _, hn => by
    obtain rfl := List.length_eq_zero_iff.mp (Nat.le_zero.mp hn)
    rfl
  | m + 1, n + 1, l, hm, hn => by
    unfold contentLexemesAux
    cases hc : rawChar l with
    | none => rfl
    | some p =>
      obtain ⟨hpos, -, hle⟩ := rawChar_length hc
      simp only
      rw [contentLexemesAux_congr (m := m) (n := n) (by rw [List.length_drop]; omega)
        (by rw [List.length_drop]; omega)]

theorem contentLexemes_of_rawChar {l : List UInt8} {ch : Char} {n : Nat}
    (h : rawChar l = some (ch, n)) :
    contentLexemes l = .char (l.take n) ch :: contentLexemes (l.drop n) := by
  obtain ⟨hpos, -, hle⟩ := rawChar_length h
  obtain ⟨k, hk⟩ : ∃ k, l.length = k + 1 := ⟨l.length - 1, by omega⟩
  unfold contentLexemes
  rw [hk, contentLexemesAux]
  simp only [h]
  rw [contentLexemesAux_congr (n := (l.drop n).length) (by rw [List.length_drop]; omega) le_rfl]

theorem bytesOf_content {raw : List UInt8} {s : Text} (h : decodeString raw = some s) :
    bytesOf (contentLexemes raw) = raw := by
  refine decodeString_induct (P := fun raw _ => bytesOf (contentLexemes raw) = raw) rfl ?_ h
  intro raw ch n s hc _ ih
  rw [contentLexemes_of_rawChar hc, bytesOf_cons, ih]
  exact List.take_append_drop n raw

theorem bytesOf_label (label : Ws × RawString × Ws) :
    bytesOf (labelLexemes label) = labelBytes label := by
  simp [labelLexemes, labelBytes, Lexeme.bytes, RawString.bytes]

mutual

/-- **The lexemes of a tree** are written in its bytes. -/
theorem Tree.bytesOf_lexemes : ∀ t : Tree, bytesOf t.lexemes = t.bytes
  | .null => rfl
  | .boolean true => rfl
  | .boolean false => rfl
  | .number n => bytesOf_number n.1
  | .string s => by
    simp [Tree.lexemes, Tree.bytes, RawString.bytes, Lexeme.bytes, bytesOf_content s.denotes]
  | .emptyArray pad => by
    simp [Tree.lexemes, Tree.bytes, Lexeme.bytes, Context.openByte, Context.closeByte]
  | .array (before, t, after) rest => by
    simp [Tree.lexemes, Tree.bytes, Tree.itemLexemes, Tree.itemBytes, Lexeme.bytes,
      Context.openByte, Context.closeByte, Tree.bytesOf_lexemes t, Tree.bytesOf_rest rest]
  | .emptyObject pad => by
    simp [Tree.lexemes, Tree.bytes, Lexeme.bytes, Context.openByte, Context.closeByte]
  | .object (label, before, t, after) rest => by
    simp [Tree.lexemes, Tree.bytes, Tree.memberLexemes, Tree.memberBytes, Lexeme.bytes,
      Context.openByte, Context.closeByte, bytesOf_label, Tree.bytesOf_lexemes t,
      Tree.bytesOf_members rest]

theorem Tree.bytesOf_rest : ∀ rest : List (Ws × Tree × Ws),
    bytesOf (restLexemes rest) = restBytes rest
  | [] => rfl
  | (before, t, after) :: rest => by
    simp [restLexemes, restBytes, itemLexemes, itemBytes, Lexeme.bytes, Tree.bytesOf_lexemes t,
      Tree.bytesOf_rest rest]

theorem Tree.bytesOf_members : ∀ rest : List ((Ws × RawString × Ws) × Ws × Tree × Ws),
    bytesOf (membersLexemes rest) = membersBytes rest
  | [] => rfl
  | (label, before, t, after) :: rest => by
    simp [membersLexemes, membersBytes, memberLexemes, memberBytes, Lexeme.bytes, bytesOf_label,
      Tree.bytesOf_lexemes t, Tree.bytesOf_members rest]

end

/-! ## The machine finds them -/

/-- Between tokens, in the state `state` and the containers `context`, with `comma` if the last
token was one. -/
structure Core.Stands (c : Core) (state : State) (context : List Context) (comma : Bool) : Prop
    extends c.Between where
  state : c.state = state
  context : c.context = context
  comma : c.afterComma = comma

/-- **The machine finds the lexemes `ys`** in front of `rest`, and comes to `c'`. -/
def Core.Over (limits : ParserLimits) (c : Core) (ys : List Lexeme) (c' : Core)
    (rest : List UInt8) : Prop :=
  ∃ xs, visible xs = ys ∧ c.Lexes limits xs rest ∧ c.run limits xs = c'

section Over

variable {limits : ParserLimits} {c c₁ c' : Core} {ys zs : List Lexeme} {rest l : List UInt8}
  {state : State} {context : List Context} {comma : Bool} {x : Lexeme} {b : UInt8}

theorem Core.Over.refl (c : Core) (rest : List UInt8) : c.Over limits [] c rest :=
  ⟨[], rfl, trivial, rfl⟩

theorem Core.Over.trans (h : c.Over limits ys c₁ (bytesOf zs ++ rest))
    (h' : c₁.Over limits zs c' rest) : c.Over limits (ys ++ zs) c' rest := by
  obtain ⟨xs, rfl, hl, rfl⟩ := h
  obtain ⟨xs', rfl, hl', rfl⟩ := h'
  rw [bytesOf_visible] at hl
  exact ⟨xs ++ xs', visible_append _ _, Core.lexes_append.mpr ⟨hl, hl'⟩, Core.run_append ..⟩

/-- One lexeme. -/
theorem Core.Over.one (h : c.lex (x.bytes ++ rest) = some x) (hx : x ≠ .settle) :
    c.Over limits [x] (c.after limits x) rest :=
  ⟨[x], visible_cons hx [], ⟨by simpa using h, trivial⟩, rfl⟩

/-- The end of a line break is no token. -/
theorem Core.lexToken_ne_settle (h : c.lexToken b l = some x) : x ≠ .settle := by
  rintro rfl
  unfold Core.lexToken lexKey at h
  split at h
  · split at h
    · cases h
    · cases h
    · split at h
      · obtain ⟨_, -, h⟩ := Option.map_eq_some_iff.mp h
        cases h
      · cases h
    · cases h
  all_goals first | (split at h <;> cases h) | cases h

/-- A token, the line break before it being over or not. -/
theorem Core.Over.token (h : c.Between) (hb : isWs b = false)
    (hx : c.settled.lexToken b l = some x) (hl : b :: l = x.bytes ++ rest) :
    c.Over limits [x] (c.settled.after limits x) rest := by
  have hne := Core.lexToken_ne_settle hx
  have hlex (c : Core) (h : c.Between) (hcr : c.pos.afterCr = false)
      (hx : c.lexToken b l = some x) : c.lex (x.bytes ++ rest) = some x := by
    rw [h.lex, ← hl, Core.lexOuter, hb, hcr]
    exact hx
  have hset : c.settled.Between := ⟨h.bom, h.outside, h.noNumber⟩
  by_cases hcr : c.pos.afterCr = true
  · refine ⟨[.settle, x], by rw [visible_settle, visible_cons hne]; rfl, ⟨?_, ?_, trivial⟩, rfl⟩
    · show c.lex (bytesOf [x] ++ rest) = some .settle
      rw [bytesOf_cons, bytesOf_nil, List.append_nil, h.lex, ← hl, Core.lexOuter, hb, hcr]
      rfl
    · show c.settled.lex (bytesOf [x] ++ rest) = some x
      rw [bytesOf_cons, bytesOf_nil, List.append_nil]
      exact hlex _ hset rfl hx
  · have hcr' : c.pos.afterCr = false := by simpa using hcr
    have hc : c.settled = c := by
      unfold Core.settled
      rw [← hcr']
    rw [hc] at hx ⊢
    exact .one (hlex c h hcr' hx) hne

end Over

/-! ## Over each leaf -/

section Leaves

variable (limits : ParserLimits) {c : Core} {rest l : List UInt8} {state : State}
  {context : List Context} {comma : Bool} {kind : Context} {b : UInt8}

/-- Whitespace. -/
theorem over_ws (h : c.Stands state context comma) (w : Ws) (rest : List UInt8) :
    ∃ c', c.Over limits (wsLexemes w) c' rest ∧ c'.Stands state context comma := by
  obtain ⟨w, hw⟩ := w
  unfold wsLexemes
  induction w generalizing c with
  | nil => exact ⟨c, .refl c rest, h⟩
  | cons b w ih =>
    have hspace :
        c.Over limits [.space b] (c.after limits (.space b)) (bytesOf (w.map .space) ++ rest) := by
      refine .one ?_ (by simp)
      rw [h.lex]
      exact if_pos (hw b List.mem_cons_self)
    have hafter : (c.after limits (.space b)).Stands state context comma := by
      simp only [Core.after]
      split <;> exact ⟨⟨h.bom, h.outside, h.noNumber⟩, h.state, h.context, h.comma⟩
    obtain ⟨c', hover, hst⟩ := ih hafter fun b hb => hw b (List.mem_cons_of_mem _ hb)
    exact ⟨c', hspace.trans hover, hst⟩

theorem Core.Stands.settled (h : c.Stands state context comma) :
    c.settled.Stands state context comma :=
  ⟨⟨h.bom, h.outside, h.noNumber⟩, h.state, h.context, h.comma⟩

/-- A container opens. -/
theorem over_open (h : c.Stands .expectValue context comma) (kind : Context) (rest : List UInt8) :
    ∃ c', c.Over limits [.opening kind] c' rest ∧ c'.Stands kind.first (kind :: context) false := by
  refine ⟨_, .token (b := kind.openByte) h.toBetween (by cases kind <;> rfl) ?_ rfl, ?_⟩
  · unfold Core.lexToken
    rw [tokenKind_openByte]
    exact if_pos h.state
  · exact ⟨⟨h.bom, h.outside, h.noNumber⟩, rfl, congrArg (kind :: ·) h.context, rfl⟩

/-- A container closes. -/
theorem over_close (h : c.Stands state (kind :: context) false)
    (hs : state = kind.first ∨ state = .afterValue) (rest : List UInt8) :
    ∃ c', c.Over limits [.closing kind] c' rest ∧ c'.Stands .afterValue context false := by
  have hset := h.settled
  refine ⟨_, .token (b := kind.closeByte) h.toBetween (by cases kind <;> rfl) ?_ rfl, ?_⟩
  · unfold Core.lexToken
    rw [tokenKind_closeByte]
    exact if_pos ⟨by rw [hset.context]; rfl, by rwa [hset.state], hset.comma⟩
  · exact ⟨⟨h.bom, h.outside, h.noNumber⟩, rfl, congrArg List.tail hset.context, rfl⟩

/-- A comma. -/
theorem over_comma (h : c.Stands .afterValue (kind :: context) false) (rest : List UInt8) :
    ∃ c', c.Over limits [.comma] c' rest ∧ c'.Stands kind.first (kind :: context) true := by
  have hset := h.settled
  refine ⟨_, .token (b := 0x2C) h.toBetween rfl ?_ rfl, ?_⟩
  · unfold Core.lexToken
    exact if_pos ⟨hset.state, by rw [hset.context]; simp⟩
  · refine ⟨⟨h.bom, h.outside, h.noNumber⟩, ?_, hset.context, rfl⟩
    simp only [Core.after, Core.comma, Core.count, hset.context, List.head?_cons]
    cases kind <;> rfl

/-- A colon. -/
theorem over_colon (h : c.Stands .expectColon context comma) (rest : List UInt8) :
    ∃ c', c.Over limits [.colon] c' rest ∧ c'.Stands .expectValue context false := by
  refine ⟨_, .token (b := 0x3A) h.toBetween rfl ?_ rfl, ?_⟩
  · unfold Core.lexToken
    exact if_pos h.state
  · exact ⟨⟨h.bom, h.outside, h.noNumber⟩, rfl, h.settled.context, rfl⟩

/-- A literal. -/
theorem over_literal (h : c.Stands .expectValue context comma) (value : Option Bool)
    (rest : List UInt8) :
    ∃ c', c.Over limits [.literal value] c' rest ∧ c'.Stands .afterValue context false := by
  obtain ⟨b, bs, hb, hk⟩ := literalBytes_kind value
  have hws : isWs b = false := isWs_of_tokenKind (by simp [hk])
  have hbytes : b :: (bs ++ rest) = (Lexeme.literal value).bytes ++ rest := by
    rw [Lexeme.bytes, hb, List.cons_append]
  refine ⟨_, .token h.toBetween hws ?_ hbytes, ?_⟩
  · unfold Core.lexToken
    rw [hk]
    exact if_pos ⟨h.settled.state, List.isPrefixOf_iff_prefix.mpr (List.prefix_append _ _)⟩
  · exact ⟨⟨h.bom, h.outside, h.noNumber⟩, rfl, h.settled.context, rfl⟩

/-- A key. -/
theorem over_key (h : c.Stands .expectKey context comma) (k : RawString) (rest : List UInt8) :
    ∃ c', c.Over limits [.key k.raw k.text] c' rest ∧ c'.Stands .expectColon context false := by
  refine ⟨_, .token (b := quote) (l := k.raw ++ quote :: rest) h.toBetween rfl ?_ ?_, ?_⟩
  · unfold Core.lexToken
    simp only [show tokenKind quote = .quote from rfl, h.settled.state]
    have hscan := scanned_of_decodeString k.denotes
    rcases keyFront_closed (closed_of_decodeString k.denotes) 0 rest with hf | ⟨-, hn⟩
    · rw [Nat.zero_add] at hf
      rw [lexKey, hf]
      simp only [List.take_left, k.denotes]
      rfl
    · exact absurd hscan hn
  · simp [Lexeme.bytes]
  · exact ⟨⟨h.bom, h.outside, h.noNumber⟩, rfl, h.settled.context, rfl⟩

/-- A key and its colon. -/
theorem over_label (h : c.Stands .expectKey context comma) (label : Ws × RawString × Ws)
    (rest : List UInt8) :
    ∃ c', c.Over limits (labelLexemes label) c' rest ∧ c'.Stands .expectValue context false := by
  obtain ⟨before, k, after⟩ := label
  obtain ⟨c₁, hov₁, h₁⟩ := over_ws limits h before
    (bytesOf ([.key k.raw k.text] ++ (wsLexemes after ++ [.colon])) ++ rest)
  obtain ⟨c₂, hov₂, h₂⟩ := over_key limits h₁ k _
  obtain ⟨c₃, hov₃, h₃⟩ := over_ws limits h₂ after _
  obtain ⟨c₄, hov₄, h₄⟩ := over_colon limits h₃ rest
  refine ⟨c₄, ?_, h₄⟩
  have := hov₁.trans (hov₂.trans (hov₃.trans hov₄))
  simpa [labelLexemes] using this

end Leaves

/-! ## Over strings and numbers -/

section Strings

variable (limits : ParserLimits) {c : Core} {raw rest : List UInt8} {context : List Context}
  {comma : Bool}

/-- Inside a string value in the containers `context`. -/
structure Core.Inside (c : Core) (context : List Context) : Prop where
  bom : c.bomChecked = true
  inside : c.inString = true
  noNumber : c.number.stage = .none
  context : c.context = context
  comma : c.afterComma = false

theorem Core.Inside.lex (h : c.Inside context) (l : List UInt8) : c.lex l = lexString l := by
  unfold Core.lex
  rw [if_neg (by simp [h.bom]), if_pos h.inside]

/-- The first character of content that denotes a text. -/
theorem lexString_char {s : Text} {ch : Char} {n : Nat} (hd : decodeString raw = some s)
    (hc : rawChar raw = some (ch, n)) (r : List UInt8) :
    lexString (raw ++ quote :: r) = some (.char (raw.take n) ch) := by
  have hcl := closed_of_decodeString hd
  cases raw with
  | nil => cases hc
  | cons b raw =>
    have hle := (rawChar_length hc).2.2
    have htake : (b :: (raw ++ quote :: r)).take n = (b :: raw).take n :=
      List.take_append_of_le_length hle
    have hq : b ≠ quote := by
      rintro rfl
      simp [Closed] at hcl
    rw [List.cons_append, lexString, if_neg hq]
    by_cases hs : b = backslash
    · subst hs
      rw [if_pos rfl]
      rcases resolve_spec hcl r with ⟨ch', n', hr, hch⟩ | ⟨hn, -⟩
      · rw [hch] at hc
        cases hc
        rw [List.cons_append] at hr
        simp only [hr, htake]
      · rw [hn] at hd
        cases hd
    rw [if_neg hs]
    by_cases hlt : b < 0x20
    · simp [rawChar, hs, hlt] at hc
    rw [if_neg hlt]
    rw [rawChar_plain (l := raw) (not_isDelimiter.mpr ⟨hq, hs, hlt⟩)] at hc
    rcases front_closed b raw r with ⟨ch', n', hf, hf'⟩ | ⟨-, hf⟩
    · rw [hf'] at hc
      cases hc
      rw [List.cons_append] at hf
      simp only [hf, htake]
    · split at hc
      · next hch => exact absurd hch (hf _ _)
      · cases hc

/-- The content of a string value. -/
theorem over_content (h : c.Inside context) {s : Text} (hd : decodeString raw = some s)
    (r : List UInt8) :
    ∃ c', c.Over limits (contentLexemes raw) c' (quote :: r) ∧ c'.Inside context := by
  suffices hP : ∀ c : Core, c.Inside context →
      ∃ c', c.Over limits (contentLexemes raw) c' (quote :: r) ∧ c'.Inside context from hP c h
  refine decodeString_induct (P := fun raw _ => ∀ c : Core, c.Inside context → ∃ c',
    c.Over limits (contentLexemes raw) c' (quote :: r) ∧ c'.Inside context) ?_ ?_ hd
  · intro c h
    exact ⟨c, .refl c _, h⟩
  · intro raw ch n s hc hd ih c h
    have hdec : decodeString raw = some (ch :: s) := by
      rw [decodeString_of_rawChar hc, hd]
      rfl
    have hbytes := bytesOf_content hd
    obtain ⟨c', hover, hin⟩ := ih (c.after limits (.char (raw.take n) ch))
      ⟨h.bom, h.inside, h.noNumber, h.context, h.comma⟩
    refine ⟨c', ?_, hin⟩
    rw [contentLexemes_of_rawChar hc]
    have hfront : c.Over limits [.char (raw.take n) ch] (c.after limits (.char (raw.take n) ch))
        (bytesOf (contentLexemes (raw.drop n)) ++ quote :: r) := by
      refine .one ?_ (by simp)
      rw [hbytes, ← List.append_assoc]
      show c.lex (raw.take n ++ raw.drop n ++ quote :: r) = _
      rw [List.take_append_drop, h.lex]
      exact lexString_char hdec hc r
    exact hfront.trans hover

/-- A string value. -/
theorem over_string (h : c.Stands .expectValue context comma) (s : RawString) (rest : List UInt8) :
    ∃ c', c.Over limits (.startString :: contentLexemes s.raw ++ [.endString]) c' rest ∧
      c'.Stands .afterValue context false := by
  have hstart : c.Over limits [.startString] (c.settled.after limits .startString)
      (bytesOf (contentLexemes s.raw ++ [.endString]) ++ rest) := by
    refine .token (b := quote) h.toBetween rfl ?_ rfl
    unfold Core.lexToken
    simp only [show tokenKind quote = .quote from rfl, h.settled.state]
  have hin : (c.settled.after limits .startString).Inside context :=
    ⟨h.bom, rfl, h.noNumber, h.context, rfl⟩
  obtain ⟨c₂, hov₂, h₂⟩ := over_content limits hin s.denotes rest
  have hend : c₂.Over limits [.endString] (c₂.after limits .endString) rest := by
    refine .one ?_ (by simp)
    rw [h₂.lex]
    rfl
  refine ⟨_, hstart.trans (hov₂.trans hend), ?_⟩
  exact ⟨⟨h₂.bom, rfl, h₂.noNumber⟩, rfl, h₂.context, h₂.comma⟩

/-- Inside a number in the containers `context`. -/
structure Core.Counting (c : Core) (context : List Context) : Prop where
  bom : c.bomChecked = true
  outside : c.inString = false
  inside : c.number.stage ≠ .none
  context : c.context = context
  comma : c.afterComma = false

theorem Core.Counting.lex (h : c.Counting context) (l : List UInt8) :
    c.lex l = lexNumber c.number l := by
  unfold Core.lex
  rw [if_neg (by simp [h.bom]), if_neg (by simp [h.outside]), if_pos h.inside]

/-- Further bytes of a number, and its end. -/
theorem over_digits (h : c.Counting context) {bs : List UInt8} {n : NumberState}
    (ht : c.number.takeBytes bs = some n) (hf : n.stage.isFinal = true) (hr : StopsNumber rest) :
    ∃ c', c.Over limits (bs.map .digit ++ [.endNumber]) c' rest ∧
      c'.Stands .afterValue context false := by
  induction bs generalizing c with
  | nil =>
    cases ht
    refine ⟨_, .one ?_ (by simp), ⟨⟨h.bom, h.outside, rfl⟩, rfl, h.context, h.comma⟩⟩
    rw [h.lex]
    show lexNumber c.number rest = some .endNumber
    cases rest with
    | nil => exact if_pos hf
    | cons b r =>
      rw [lexNumber, NumberState.ended_of_isFinal hf (hr b r rfl)]
  | cons b bs ih =>
    rw [NumberState.takeBytes] at ht
    split at ht
    · next n' hn =>
      have hafter : c.after limits (.digit b) = { c with number := n'.addLength 1 } := by
        simp only [Core.after, hn]
      obtain ⟨c', hover, hst⟩ := ih (c := { c with number := n'.addLength 1 })
        ⟨h.bom, h.outside, fun hs => NumberState.takeByte_stage hn hs, h.context, h.comma⟩ ht
      have hone : c.Over limits [.digit b] { c with number := n'.addLength 1 }
          (bytesOf (bs.map .digit ++ [.endNumber]) ++ rest) := by
        rw [← hafter]
        refine .one ?_ (by simp)
        rw [h.lex]
        show lexNumber c.number (b :: _) = some (.digit b)
        rw [lexNumber, hn]
      exact ⟨c', hone.trans hover, hst⟩
    · cases ht

/-- A number. -/
theorem over_number (h : c.Stands .expectValue context comma) (n : NumberText)
    (hr : StopsNumber rest) :
    ∃ c', c.Over limits (numberLexemes n.1) c' rest ∧ c'.Stands .afterValue context false := by
  obtain ⟨bs, hn⟩ := n
  obtain ⟨b, bs, rfl⟩ := List.exists_cons_of_ne_nil fun hnil : bs = [] =>
    not_isNumber_nil (hnil ▸ hn)
  obtain ⟨hb, n, ht, hf⟩ := isNumber_cons.mp hn
  have hkind := tokenKind_number hb
  have hstart : c.Over limits [.startNumber b] (c.settled.after limits (.startNumber b))
      (bytesOf (bs.map .digit ++ [.endNumber]) ++ rest) := by
    refine .token (b := b) h.toBetween (isWs_of_tokenKind (by simp [hkind])) ?_ rfl
    unfold Core.lexToken
    simp only [hkind, h.settled.state]
    rfl
  have hin : (c.settled.after limits (.startNumber b)).Counting context := by
    refine ⟨h.bom, h.outside, ?_, h.context, rfl⟩
    show (NumberState.start b).stage ≠ .none
    rw [start_stage]
    split_ifs <;> simp
  obtain ⟨c', hov, hst⟩ := over_digits limits hin (n := n) ht hf hr
  exact ⟨c', hstart.trans hov, hst⟩

end Strings

/-! ## Over a tree -/

section Trees

variable {limits : ParserLimits}

/-- Whitespace around a value. -/
theorem over_padded {t : Tree} {c : Core} {context : List Context} {comma : Bool}
    (before after : Ws) (rest : List UInt8)
    (ht : ∀ {c : Core} {comma : Bool} {rest : List UInt8},
      c.Stands .expectValue context comma → StopsNumber rest →
        ∃ c', c.Over limits t.lexemes c' rest ∧ c'.Stands .afterValue context false)
    (h : c.Stands .expectValue context comma) (hr : StopsNumber rest) :
    ∃ c', c.Over limits (wsLexemes before ++ t.lexemes ++ wsLexemes after) c' rest ∧
      c'.Stands .afterValue context false := by
  obtain ⟨c₁, hov₁, h₁⟩ := over_ws limits h before
    (bytesOf (t.lexemes ++ wsLexemes after) ++ rest)
  have hr' : StopsNumber (bytesOf (wsLexemes after) ++ rest) := by
    rw [bytesOf_ws]
    exact hr.ws after
  obtain ⟨c₂, hov₂, h₂⟩ := ht h₁ hr'
  obtain ⟨c₃, hov₃, h₃⟩ := over_ws limits h₂ after rest
  refine ⟨c₃, ?_, h₃⟩
  rw [List.append_assoc]
  exact hov₁.trans (hov₂.trans hov₃)

mutual

/-- **The machine finds the lexemes of a tree** over its bytes. -/
theorem Tree.over : ∀ (t : Tree) {c : Core} {context : List Context} {comma : Bool}
    {rest : List UInt8}, c.Stands .expectValue context comma → StopsNumber rest →
      ∃ c', c.Over limits t.lexemes c' rest ∧ c'.Stands .afterValue context false
  | .null, _, _, _, rest, h, _ => over_literal limits h none rest
  | .boolean value, _, _, _, rest, h, _ => over_literal limits h (some value) rest
  | .number n, _, _, _, _, h, hr => over_number limits h n hr
  | .string s, _, _, _, rest, h, _ => over_string limits h s rest
  | .emptyArray pad, _, _, _, rest, h, _ => by
    obtain ⟨c₁, hov₁, h₁⟩ := over_open limits h .array _
    obtain ⟨c₂, hov₂, h₂⟩ := over_ws limits h₁ pad _
    obtain ⟨c₃, hov₃, h₃⟩ := over_close limits h₂ (.inl rfl) rest
    exact ⟨c₃, hov₁.trans (hov₂.trans hov₃), h₃⟩
  | .emptyObject pad, _, _, _, rest, h, _ => by
    obtain ⟨c₁, hov₁, h₁⟩ := over_open limits h .object _
    obtain ⟨c₂, hov₂, h₂⟩ := over_ws limits h₁ pad _
    obtain ⟨c₃, hov₃, h₃⟩ := over_close limits h₂ (.inl rfl) rest
    exact ⟨c₃, hov₁.trans (hov₂.trans hov₃), h₃⟩
  | .array (before, t, after) items, _, _, _, rest, h, _ => by
    obtain ⟨c₁, hov₁, h₁⟩ := over_open limits h .array _
    obtain ⟨c₂, hov₂, h₂⟩ := over_padded before after
      (bytesOf (restLexemes items ++ [.closing .array]) ++ rest) (Tree.over t) h₁
      (by simpa [bytesOf_rest, Lexeme.bytes, Context.closeByte] using stops_rest items rest)
    obtain ⟨c₃, hov₃, h₃⟩ := Tree.over_rest items rest h₂
    refine ⟨c₃, ?_, h₃⟩
    have := hov₁.trans (hov₂.trans hov₃)
    simpa [Tree.lexemes, Tree.itemLexemes] using this
  | .object (label, before, t, after) members, _, _, _, rest, h, _ => by
    obtain ⟨c₁, hov₁, h₁⟩ := over_open limits h .object _
    obtain ⟨c₂, hov₂, h₂⟩ := over_label limits h₁ label _
    obtain ⟨c₃, hov₃, h₃⟩ := over_padded before after
      (bytesOf (membersLexemes members ++ [.closing .object]) ++ rest) (Tree.over t) h₂
      (by simpa [bytesOf_members, Lexeme.bytes, Context.closeByte] using stops_members members rest)
    obtain ⟨c₄, hov₄, h₄⟩ := Tree.over_members members rest h₃
    refine ⟨c₄, ?_, h₄⟩
    have := hov₁.trans (hov₂.trans (hov₃.trans hov₄))
    simpa [Tree.lexemes, Tree.memberLexemes] using this

/-- Over the further elements of an array and its end. -/
theorem Tree.over_rest : ∀ (items : List (Ws × Tree × Ws)) (rest : List UInt8) {c : Core}
    {context : List Context}, c.Stands .afterValue (.array :: context) false →
      ∃ c', c.Over limits (restLexemes items ++ [.closing .array]) c' rest ∧
        c'.Stands .afterValue context false
  | [], rest, _, _, h => over_close limits h (.inr rfl) rest
  | (before, t, after) :: items, rest, _, _, h => by
    obtain ⟨c₁, hov₁, h₁⟩ := over_comma limits h _
    obtain ⟨c₂, hov₂, h₂⟩ := over_padded before after
      (bytesOf (restLexemes items ++ [.closing .array]) ++ rest) (Tree.over t) h₁
      (by simpa [bytesOf_rest, Lexeme.bytes, Context.closeByte] using stops_rest items rest)
    obtain ⟨c₃, hov₃, h₃⟩ := Tree.over_rest items rest h₂
    refine ⟨c₃, ?_, h₃⟩
    have := hov₁.trans (hov₂.trans hov₃)
    simpa [restLexemes, itemLexemes] using this

/-- Over the further members of an object and its end. -/
theorem Tree.over_members : ∀ (members : List ((Ws × RawString × Ws) × Ws × Tree × Ws))
    (rest : List UInt8) {c : Core} {context : List Context},
    c.Stands .afterValue (.object :: context) false →
      ∃ c', c.Over limits (membersLexemes members ++ [.closing .object]) c' rest ∧
        c'.Stands .afterValue context false
  | [], rest, _, _, h => over_close limits h (.inr rfl) rest
  | (label, before, t, after) :: members, rest, _, _, h => by
    obtain ⟨c₁, hov₁, h₁⟩ := over_comma limits h _
    obtain ⟨c₂, hov₂, h₂⟩ := over_label limits h₁ label _
    obtain ⟨c₃, hov₃, h₃⟩ := over_padded before after
      (bytesOf (membersLexemes members ++ [.closing .object]) ++ rest) (Tree.over t) h₂
      (by simpa [bytesOf_members, Lexeme.bytes, Context.closeByte] using stops_members members rest)
    obtain ⟨c₄, hov₄, h₄⟩ := Tree.over_members members rest h₃
    refine ⟨c₄, ?_, h₄⟩
    have := hov₁.trans (hov₂.trans (hov₃.trans hov₄))
    simpa [membersLexemes, memberLexemes] using this

end

end Trees

/-! ## Over a document -/

section Documents

variable (limits : ParserLimits) {c : Core} {l : List UInt8} {t : Tree}

/-- At the start of a document, whatever the settings. -/
structure Core.Starts (c : Core) : Prop where
  bom : c.bomChecked = false
  outside : c.inString = false
  noNumber : c.number.stage = .none
  state : c.state = .expectValue
  context : c.context = []
  comma : c.afterComma = false

theorem Core.start_starts (rejectDuplicateKeys needsWhitespace : Bool) :
    (Core.start rejectDuplicateKeys needsWhitespace).Starts :=
  ⟨rfl, rfl, rfl, rfl, rfl, rfl⟩

theorem Core.Starts.begun (h : c.Starts) : c.Begun := fun _ => ⟨h.outside, h.noNumber⟩

/-- The lexemes of a document whose byte order mark is `bom`. -/
def documentLexemes (bom : List UInt8) (before : Ws) (t : Tree) (after : Ws) : List Lexeme :=
  .mark bom :: (wsLexemes before ++ t.lexemes ++ wsLexemes after)

/-- **The machine finds the lexemes of a document.** -/
theorem Document.over (h : Document l t) (hc : c.Starts) : ∃ bom, ∃ before after : Ws,
    l = bytesOf (documentLexemes bom before t after) ∧ ∃ c',
      c.Over limits (documentLexemes bom before t after) c' [] ∧
        c'.Stands .afterValue [] false := by
  obtain ⟨bom, before, after, hbom, rfl⟩ := h
  have hbytes : bytesOf (documentLexemes bom before t after) =
      bom ++ (before.1 ++ t.bytes ++ after.1) := by
    simp [documentLexemes, Lexeme.bytes, Tree.bytesOf_lexemes]
  refine ⟨bom, before, after, by rw [hbytes]; simp, ?_⟩
  have hmark : c.lex (bom ++ (before.1 ++ t.bytes ++ after.1)) = some (.mark bom) := by
    unfold Core.lex
    rw [if_pos (by rw [hc.bom]; rfl)]
    rcases hbom with rfl | rfl
    · rw [List.nil_append, bomFront_document]
      rfl
    · rfl
  have hst : (c.after limits (.mark bom)).Stands .expectValue [] false :=
    ⟨⟨rfl, hc.outside, hc.noNumber⟩, hc.state, hc.context, hc.comma⟩
  obtain ⟨c', hover, hst'⟩ := over_padded before after [] (Tree.over t) hst StopsNumber.nil
  have hfirst : c.Over limits [.mark bom] (c.after limits (.mark bom))
      (bytesOf (wsLexemes before ++ t.lexemes ++ wsLexemes after) ++ []) := by
    refine .one ?_ (by simp)
    simpa [Lexeme.bytes, Tree.bytesOf_lexemes] using hmark
  exact ⟨c', hfirst.trans hover, hst'⟩

end Documents

end RJsonParser
