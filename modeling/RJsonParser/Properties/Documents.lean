import RJsonParser.Properties.Acceptance

/-!
# Documents

The machine without limits accepts the documents of the grammar, and puts out the traversal of what
they denote.

* `Tree.goes` — the machine over a tree, by recursion on the tree
* `Sound` — what is accepted is a tree, by induction on the length
* `accepts_iff_document`, `Document.yields`
-/

namespace RJsonParser

open Infra Infra.Utf8

variable {F : Type} [Double F] {c : Core} {l rest : List UInt8} {context : List Context}
  {comma seen : Bool}

/-! ## Over a tree -/

theorem stopsNumber_of_isWs {b : UInt8} (h : isWs b = true) : stopsNumber b = true := by
  have key : ∀ b, isWs b = true → stopsNumber b = true := forall_byte (by decide +kernel)
  exact key b h

theorem StopsNumber.cons {b : UInt8} (h : stopsNumber b = true) (l : List UInt8) :
    StopsNumber (b :: l) := by
  rintro _ _ ⟨⟩
  exact h

theorem StopsNumber.nil : StopsNumber [] := by rintro b r ⟨⟩

theorem StopsNumber.ws (w : Ws) (h : StopsNumber l) : StopsNumber (w.1 ++ l) := by
  obtain ⟨w, hw⟩ := w
  cases w with
  | nil => exact h
  | cons b w => exact .cons (stopsNumber_of_isWs (hw b (by simp))) _

omit [Double F] in
theorem explode_pieces (s : Text) :
    explode ((piecesOf s).map (Event.stringValueContent (F := F))) = contentOf s := by
  unfold piecesOf
  split
  · next h => subst h; rfl
  · simp [explode, Event.explode, contentOf]

/-- A number stops at what comes after it in an array. -/
theorem stops_rest (items : List (Ws × Tree × Ws)) (rest : List UInt8) :
    StopsNumber (Tree.restBytes items ++ 0x5D :: rest) := by
  cases items with
  | nil => exact .cons (by decide) _
  | cons => exact .cons (by decide) _

/-- And in an object. -/
theorem stops_members (members : List ((Ws × RawString × Ws) × Ws × Tree × Ws))
    (rest : List UInt8) : StopsNumber (Tree.membersBytes members ++ 0x7D :: rest) := by
  cases members with
  | nil => exact .cons (by decide) _
  | cons => exact .cons (by decide) _

/-- Whitespace around a value. -/
theorem goes_padded {t : Tree} {es : List (Event F)} (before after : Ws)
    (ht : ∀ {c : Core} {comma seen : Bool} {rest : List UInt8},
      c.At .expectValue context comma seen → StopsNumber rest →
        ∃ c', Goes c (t.bytes ++ rest) es c' rest ∧ c'.At .afterValue context false true)
    (h : c.At .expectValue context comma seen) (hr : StopsNumber rest) :
    ∃ c', Goes c (before.1 ++ t.bytes ++ after.1 ++ rest) es c' rest ∧
      c'.At .afterValue context false true := by
  obtain ⟨c₁, hg₁, hat₁⟩ :=
    goes_ws (F := F) h before.1 before.2 (t.bytes ++ (after.1 ++ rest))
  obtain ⟨c₂, hg₂, hat₂⟩ := ht hat₁ (hr.ws after)
  obtain ⟨c₃, hg₃, hat₃⟩ := goes_ws (F := F) hat₂ after.1 after.2 rest
  refine ⟨c₃, ?_, hat₃⟩
  simpa using hg₁.trans (hg₂.trans hg₃)

/-- A key and its colon. -/
theorem goes_label (label : Ws × RawString × Ws) (h : c.At .expectKey context comma seen)
    (rest : List UInt8) :
    ∃ c', Goes (F := F) c (labelBytes label ++ rest) [.key label.2.1.text] c' rest ∧
      c'.At .expectValue context false true := by
  obtain ⟨before, k, after⟩ := label
  obtain ⟨c₁, hg₁, hat₁⟩ :=
    goes_ws (F := F) h before.1 before.2 (k.bytes ++ (after.1 ++ 0x3A :: rest))
  rcases key_run (F := F) hat₁ (closed_of_decodeString k.denotes) (after.1 ++ 0x3A :: rest) with
    ⟨s, c₂, hs, hat₂, hg₂⟩ | ⟨hd, -⟩
  swap
  · rw [k.denotes] at hd
    cases hd
  obtain rfl : k.text = s := by
    rw [k.denotes] at hs
    exact Option.some.inj hs
  obtain ⟨c₃, hg₃, hat₃⟩ := goes_ws (F := F) hat₂ after.1 after.2 (0x3A :: rest)
  obtain ⟨c₄, hg₄, hat₄⟩ := goes_colon (F := F) hat₃ rest
  have hk : k.bytes ++ (after.1 ++ 0x3A :: rest) =
      quote :: (k.raw ++ quote :: (after.1 ++ 0x3A :: rest)) := by
    simp [RawString.bytes]
  rw [hk] at hg₁
  refine ⟨c₄, ?_, hat₄⟩
  have := hg₁.trans (hg₂.trans (hg₃.trans hg₄))
  simpa [labelBytes, RawString.bytes] using this

mutual

/-- **The machine goes over a tree** and puts out the traversal of what it denotes. -/
theorem Tree.goes : ∀ (t : Tree) {c : Core} {context : List Context} {comma seen : Bool}
    {rest : List UInt8}, c.At .expectValue context comma seen → StopsNumber rest →
      ∃ c', Goes (F := F) c (t.bytes ++ rest) (explode t.denote.traverse) c' rest ∧
        c'.At .afterValue context false true
  | .null, _, _, _, _, rest, h, _ => goes_literal h none rest
  | .boolean true, _, _, _, _, rest, h, _ => goes_literal h (some true) rest
  | .boolean false, _, _, _, _, rest, h, _ => goes_literal h (some false) rest
  | .number n, _, _, _, _, _, h, hr => number_value h n.2 hr
  -- containers by recursion, with what stands between the values in lemmas of their own
  | .string s, c, context, comma, seen, rest, h, _ => by
    rcases string_value (F := F) h (closed_of_decodeString s.denotes) rest with
      ⟨t, c', ht, hat, hg⟩ | ⟨hd, -⟩
    · obtain rfl : s.text = t := by
        rw [s.denotes] at ht
        exact Option.some.inj ht
      refine ⟨c', ?_, hat⟩
      have hes : explode (Tree.string s).denote.traverse =
          (Event.startStringValue (F := F)) :: contentOf s.text ++ [.endStringValue] := by
        simp only [Tree.denote, Json.traverse, List.cons_append, explode_cons, explode_append,
          explode_pieces]
        rfl
      rw [hes]
      simpa [Tree.bytes, RawString.bytes] using hg
    · rw [s.denotes] at hd
      cases hd
  | .emptyArray pad, _, _, _, _, rest, h, _ => by
    obtain ⟨c₁, hg₁, hat₁⟩ := goes_open (F := F) h .array (pad.1 ++ 0x5D :: rest)
    obtain ⟨c₂, hg₂, hat₂⟩ := goes_ws (F := F) hat₁ pad.1 pad.2 (0x5D :: rest)
    obtain ⟨c₃, hg₃, hat₃⟩ := goes_close (F := F) hat₂ (.inl rfl) rest
    refine ⟨c₃, ?_, hat₃⟩
    have := hg₁.trans (hg₂.trans hg₃)
    simpa [Tree.bytes, Tree.denote, Json.traverse, Json.traverseAll, Event.explode,
      Context.openByte, Context.openEvent, Context.closeEvent] using this
  | .emptyObject pad, _, _, _, _, rest, h, _ => by
    obtain ⟨c₁, hg₁, hat₁⟩ := goes_open (F := F) h .object (pad.1 ++ 0x7D :: rest)
    obtain ⟨c₂, hg₂, hat₂⟩ := goes_ws (F := F) hat₁ pad.1 pad.2 (0x7D :: rest)
    obtain ⟨c₃, hg₃, hat₃⟩ := goes_close (F := F) hat₂ (.inl rfl) rest
    refine ⟨c₃, ?_, hat₃⟩
    have := hg₁.trans (hg₂.trans hg₃)
    simpa [Tree.bytes, Tree.denote, Json.traverse, Json.traverseMembers, Event.explode,
      Context.openByte, Context.openEvent, Context.closeEvent] using this
  | .array (before, t, after) items, _, context, _, _, rest, h, _ => by
    obtain ⟨c₁, hg₁, hat₁⟩ := goes_open (F := F) h .array
      (before.1 ++ t.bytes ++ after.1 ++ (Tree.restBytes items ++ 0x5D :: rest))
    obtain ⟨c₂, hg₂, hat₂⟩ := goes_padded before after (Tree.goes t) hat₁
      (stops_rest items rest)
    obtain ⟨c₃, hg₃, hat₃⟩ := Tree.goes_rest items rest hat₂
    refine ⟨c₃, ?_, hat₃⟩
    have := hg₁.trans (hg₂.trans hg₃)
    simpa [Tree.bytes, Tree.itemBytes, Tree.denote, Json.traverse, Json.traverseAll,
      explode_append, Event.explode, Context.openByte, Context.openEvent] using this
  | .object (label, before, t, after) members, _, context, _, _, rest, h, _ => by
    obtain ⟨c₁, hg₁, hat₁⟩ := goes_open (F := F) h .object
      (labelBytes label ++ (before.1 ++ t.bytes ++ after.1 ++
        (Tree.membersBytes members ++ 0x7D :: rest)))
    obtain ⟨c₂, hg₂, hat₂⟩ := goes_label (F := F) label hat₁ _
    obtain ⟨c₃, hg₃, hat₃⟩ := goes_padded before after (Tree.goes t) hat₂
      (stops_members members rest)
    obtain ⟨c₄, hg₄, hat₄⟩ := Tree.goes_members members rest hat₃
    refine ⟨c₄, ?_, hat₄⟩
    have := hg₁.trans (hg₂.trans (hg₃.trans hg₄))
    simpa [Tree.bytes, Tree.memberBytes, Tree.denote, Json.traverse, Json.traverseMembers,
      explode_append, Event.explode, Context.openByte, Context.openEvent] using this

/-- Over the further elements of an array and its end. -/
theorem Tree.goes_rest : ∀ (items : List (Ws × Tree × Ws)) (rest : List UInt8) {c : Core}
    {context : List Context}, c.At .afterValue (.array :: context) false true →
      ∃ c', Goes (F := F) c (restBytes items ++ 0x5D :: rest)
          (explode (Json.traverseAll (denoteRest items)) ++ [.endArray]) c' rest ∧
        c'.At .afterValue context false true
  | [], rest, _, _, h => by
    simpa [restBytes, denoteRest, Json.traverseAll, Context.closeEvent, Context.closeByte]
      using goes_close (F := F) h (.inr rfl) rest
  | (before, t, after) :: items, rest, _, context, h => by
    obtain ⟨c₁, hg₁, hat₁⟩ := goes_comma (F := F) h
      (before.1 ++ t.bytes ++ after.1 ++ (restBytes items ++ 0x5D :: rest))
    obtain ⟨c₂, hg₂, hat₂⟩ := goes_padded before after (Tree.goes t) hat₁ (stops_rest items rest)
    obtain ⟨c₃, hg₃, hat₃⟩ := Tree.goes_rest items rest hat₂
    refine ⟨c₃, ?_, hat₃⟩
    have := hg₁.trans (hg₂.trans hg₃)
    simpa [restBytes, itemBytes, denoteRest, Json.traverseAll, explode_append] using this

/-- Over the further members of an object and its end. -/
theorem Tree.goes_members : ∀ (members : List ((Ws × RawString × Ws) × Ws × Tree × Ws))
    (rest : List UInt8) {c : Core} {context : List Context},
    c.At .afterValue (.object :: context) false true →
      ∃ c', Goes (F := F) c (membersBytes members ++ 0x7D :: rest)
          (explode (Json.traverseMembers (denoteMembers members)) ++ [.endObject]) c' rest ∧
        c'.At .afterValue context false true
  | [], rest, _, _, h => by
    simpa [membersBytes, denoteMembers, Json.traverseMembers, Context.closeEvent, Context.closeByte]
      using goes_close (F := F) h (.inr rfl) rest
  | (label, before, t, after) :: members, rest, _, context, h => by
    obtain ⟨c₁, hg₁, hat₁⟩ := goes_comma (F := F) h
      (labelBytes label ++ (before.1 ++ t.bytes ++ after.1 ++
        (membersBytes members ++ 0x7D :: rest)))
    obtain ⟨c₂, hg₂, hat₂⟩ := goes_label (F := F) label hat₁ _
    obtain ⟨c₃, hg₃, hat₃⟩ := goes_padded before after (Tree.goes t) hat₂
      (stops_members members rest)
    obtain ⟨c₄, hg₄, hat₄⟩ := Tree.goes_members members rest hat₃
    refine ⟨c₄, ?_, hat₄⟩
    have := hg₁.trans (hg₂.trans (hg₃.trans hg₄))
    simpa [membersBytes, memberBytes, denoteMembers, Json.traverseMembers, explode_append,
      Event.explode] using this

end

/-! ## What is accepted -/

theorem ending_outside (hs : c.inString = false) (hn : c.number.stage = .none) :
    c.ending (F := F) [] = (c.complete, []) := by
  rw [Core.ending_nil, Core.endInput_outside hs, hn]

/-- The machine accepts nothing at the end of the input where a container is open or nothing has
come. -/
theorem not_accepts_nil {state : State} (h : c.At state context comma seen)
    (hc : seen = false ∨ context ≠ []) : ¬ Accepts F c [] := by
  intro ha
  rcases ha.cases with ⟨n, c', out, hn⟩ | ⟨-, hend⟩
  · rw [next_nil] at hn
    cases hn
  · rw [ending_outside h.outside h.noNumber] at hend
    rw [Core.complete, h.seen, h.context] at hend
    rcases hc with rfl | hc
    · cases hend
    · cases context <;> simp_all

/-- The whitespace in front of what is accepted. -/
theorem Accepts.skip {state : State} (h : c.At state context comma seen) (ha : Accepts F c l) :
    ∃ w : Ws, ∃ l' c', l = w.1 ++ l' ∧ Goes (F := F) c l [] c' l' ∧
      c'.At state context comma seen ∧ Accepts F c' l' ∧
      (l' = [] ∨ ∃ b r, l' = b :: r ∧ isWs b = false) := by
  have hw : ∀ b ∈ l.takeWhile isWs, isWs b = true := fun b hb => List.mem_takeWhile_imp hb
  obtain ⟨c', hg, hat⟩ := goes_ws (F := F) h _ hw (l.dropWhile isWs)
  rw [List.takeWhile_append_dropWhile] at hg
  refine ⟨⟨_, hw⟩, l.dropWhile isWs, c', List.takeWhile_append_dropWhile.symm, hg, hat,
    hg.accepts_iff.mp ha, ?_⟩
  cases hd : l.dropWhile isWs with
  | nil => exact .inl rfl
  | cons b r =>
    refine .inr ⟨b, r, rfl, ?_⟩
    have := List.head?_dropWhile_not isWs l
    rw [hd] at this
    simpa using this

/-- Where a token may come that is followed by `l`. -/
def TokenKind.Fits (state : State) (context : List Context) (comma : Bool) (l : List UInt8) :
    TokenKind → Prop
  | .quote => state = .expectValue ∨ state = .expectKey
  | .comma => state = .afterValue ∧ context ≠ []
  | .colon => state = .expectColon
  | .opening _ => state = .expectValue
  | .closing kind =>
    context.head? = some kind ∧ (state = kind.first ∨ state = .afterValue) ∧ comma = false
  | .literal rest _ => state = .expectValue ∧ rest <+: l
  | .number => state = .expectValue
  | .other => False

/-- A token that is accepted may come where it is. -/
theorem Accepts.fits {state : State} {b : UInt8} (h : c.At state context comma seen)
    (hb : isWs b = false) (ha : Accepts F c (b :: l)) :
    (tokenKind b).Fits state context comma l := by
  by_contra hn
  refine not_accepts_token (l := l) h hb ?_ ha
  rw [Core.tokenStep]
  cases hk : tokenKind b with
  | quote =>
    rw [hk] at hn
    simp only [Core.quoteStep, h.settled.state]
    cases state <;> simp_all [TokenKind.Fits]
  | comma =>
    rw [hk] at hn
    simp only [h.settled.state, h.settled.context]
    rw [if_pos (by by_contra hc; rw [not_or, not_not] at hc; exact hn hc)]
    exact .inl ⟨_, rfl⟩
  | colon =>
    rw [hk] at hn
    simp only [h.settled.state]
    exact .inl ⟨_, if_pos (show state ≠ .expectColon from hn)⟩
  | opening kind =>
    rw [hk] at hn
    simp only [Core.openStep, h.settled.state]
    exact .inl ⟨_, if_pos (show state ≠ .expectValue from hn)⟩
  | closing kind =>
    rw [hk] at hn
    simp only [Core.closeStep, h.settled.state, h.settled.context, h.settled.comma]
    by_cases hhead : context.head? = some kind
    swap
    · exact .inl ⟨_, if_pos hhead⟩
    rw [if_neg (not_not.mpr hhead)]
    by_cases hst : state = kind.first ∨ state = .afterValue
    swap
    · exact .inl ⟨_, if_pos (by rwa [← not_or])⟩
    rw [if_neg (by rwa [← not_or, not_not])]
    cases comma
    · exact absurd ⟨hhead, hst, rfl⟩ hn
    · exact .inl ⟨_, rfl⟩
  | literal rest value =>
    rw [hk] at hn
    simp only [h.settled.state]
    by_cases hst : state = .expectValue
    swap
    · exact .inl ⟨_, if_pos hst⟩
    rw [if_neg (not_not.mpr hst), Core.literalStep]
    cases hf : literalFront rest l with
    | need => exact .inr rfl
    | bad => exact .inl ⟨_, rfl⟩
    | found n => exact absurd ⟨hst, literalFront_found hf⟩ hn
  | number =>
    rw [hk] at hn
    simp only [h.settled.state]
    exact .inl ⟨_, if_pos (show state ≠ .expectValue from hn)⟩
  | other => exact .inl ⟨_, rfl⟩

/-- At the front of `l` is something that `P` says of, and after it a value is complete. -/
def Front (F : Type) [Double F] (c : Core) (l : List UInt8) (P : List UInt8 → Prop)
    (context : List Context) : Prop :=
  ∃ part l' c' es, P part ∧ l = part ++ l' ∧ Goes (F := F) c l es c' l' ∧
    c'.At .afterValue context false true

theorem Front.of_goes {P Q : List UInt8 → Prop} {c₁ : Core} {a l₁ : List UInt8}
    {es : List (Event F)} (hg : Goes c l es c₁ l₁) (hl : l = a ++ l₁)
    (h : Front F c₁ l₁ P context) (hp : ∀ part, P part → Q (a ++ part)) :
    Front F c l Q context := by
  obtain ⟨part, l', c', es', hpart, rfl, hg', hat⟩ := h
  exact ⟨a ++ part, l', c', _, hp part hpart, by rw [hl, List.append_assoc], hg.trans hg', hat⟩

/-- A value with whitespace in front. -/
def IsValue (part : List UInt8) : Prop := ∃ w : Ws, ∃ t : Tree, part = w.1 ++ t.bytes

/-- The end of a container with whitespace in front. -/
def IsClose (kind : Context) (part : List UInt8) : Prop :=
  ∃ w : Ws, part = w.1 ++ [kind.closeByte]

/-- A member with whitespace in front. -/
def IsMember (part : List UInt8) : Prop :=
  ∃ label, ∃ w : Ws, ∃ t : Tree, part = labelBytes label ++ w.1 ++ t.bytes

/-- The rest of an array after an element. -/
def IsRest (part : List UInt8) : Prop :=
  ∃ w : Ws, ∃ items, part = w.1 ++ Tree.restBytes items ++ [0x5D]

/-- The rest of an object after a member. -/
def IsMembers (part : List UInt8) : Prop :=
  ∃ w : Ws, ∃ members, part = w.1 ++ Tree.membersBytes members ++ [0x7D]

/-- What is accepted is what the grammar has there. -/
structure Sound (F : Type) [Double F] (l : List UInt8) : Prop where
  value : ∀ {c : Core} {context : List Context} {comma seen : Bool},
    c.At .expectValue context comma seen → seen = false ∨ context ≠ [] → Accepts F c l →
      Front F c l IsValue context ∨ comma = false ∧ ∃ outer, context = .array :: outer ∧
        Front F c l (IsClose .array) outer
  member : ∀ {c : Core} {context : List Context} {comma : Bool},
    c.At .expectKey (.object :: context) comma true → Accepts F c l →
      Front F c l IsMember (.object :: context) ∨
        comma = false ∧ Front F c l (IsClose .object) context
  rest : ∀ {c : Core} {context : List Context}, c.At .afterValue (.array :: context) false true →
    Accepts F c l → Front F c l IsRest context
  members : ∀ {c : Core} {context : List Context},
    c.At .afterValue (.object :: context) false true → Accepts F c l → Front F c l IsMembers context

/-- The end of the innermost container. -/
theorem close_front {kind : Context} {state : State} (w : Ws) {r : List UInt8} {c₁ : Core}
    (hg : Goes (F := F) c (w.1 ++ kind.closeByte :: r) [] c₁ (kind.closeByte :: r))
    (h : c₁.At state (kind :: context) false seen)
    (hs : state = kind.first ∨ state = .afterValue) :
    Front F c (w.1 ++ kind.closeByte :: r) (IsClose kind) context := by
  obtain ⟨c₂, hg₂, hat₂⟩ := goes_close (F := F) h hs r
  exact ⟨w.1 ++ [kind.closeByte], r, c₂, _, ⟨w, rfl⟩, by simp, hg.trans hg₂, hat₂⟩

/-- A tree is at the front of `l`, and after it a value is complete. -/
def TreeFront (F : Type) [Double F] (c : Core) (l : List UInt8) (context : List Context) : Prop :=
  Front F c l (fun part => ∃ t : Tree, part = t.bytes) context

/-- An array from behind its bracket. -/
theorem array_front (ih : ∀ m : List UInt8, m.length ≤ l.length → Sound F m)
    (h : c.At .expectValue (.array :: context) false true) (ha : Accepts F c l) :
    Front F c l (fun part => ∃ t : Tree, 0x5B :: part = t.bytes) context := by
  rcases (ih l le_rfl).value h (.inr (by simp)) ha with
    ⟨_, l₁, c₁, es₁, ⟨w, t, rfl⟩, rfl, hg₁, hat₁⟩ | ⟨-, outer, hout, hclose⟩
  · have hlen := (List.suffix_append (w.1 ++ t.bytes) l₁).length_le
    refine Front.of_goes hg₁ rfl ((ih l₁ hlen).rest hat₁ (hg₁.accepts_iff.mp ha)) ?_
    rintro _ ⟨w', items, rfl⟩
    exact ⟨.array (w, t, w') items, by simp [Tree.bytes, Tree.itemBytes]⟩
  · obtain ⟨-, rfl⟩ := List.cons_eq_cons.mp hout
    refine Front.of_goes (.refl c l) (List.nil_append l).symm hclose ?_
    rintro _ ⟨w, rfl⟩
    exact ⟨.emptyArray w, by simp [Tree.bytes, Context.closeByte]⟩

/-- An object from behind its brace. -/
theorem object_front (ih : ∀ m : List UInt8, m.length ≤ l.length → Sound F m)
    (h : c.At .expectKey (.object :: context) false true) (ha : Accepts F c l) :
    Front F c l (fun part => ∃ t : Tree, 0x7B :: part = t.bytes) context := by
  rcases (ih l le_rfl).member h ha with
    ⟨_, l₁, c₁, es₁, ⟨label, w, t, rfl⟩, rfl, hg₁, hat₁⟩ | ⟨-, hclose⟩
  · have hlen := (List.suffix_append (labelBytes label ++ w.1 ++ t.bytes) l₁).length_le
    refine Front.of_goes hg₁ rfl ((ih l₁ hlen).members hat₁ (hg₁.accepts_iff.mp ha)) ?_
    rintro _ ⟨w', members, rfl⟩
    exact ⟨.object (label, w, t, w') members, by simp [Tree.bytes, Tree.memberBytes]⟩
  · refine Front.of_goes (.refl c l) (List.nil_append l).symm hclose ?_
    rintro _ ⟨w, rfl⟩
    exact ⟨.emptyObject w, by simp [Tree.bytes, Context.closeByte]⟩

/-- A value from its first byte on, or the end of an array. -/
theorem token_front {b : UInt8} (ih : ∀ m : List UInt8, m.length ≤ l.length → Sound F m)
    (h : c.At .expectValue context comma seen) (hb : isWs b = false)
    (ha : Accepts F c (b :: l)) :
    TreeFront F c (b :: l) context ∨
      comma = false ∧ b = Context.array.closeByte ∧ ∃ outer, context = .array :: outer := by
  have hstart := tokenKind_starts b
  have hfits := ha.fits h hb
  -- the first byte tells the value, and where the source is accepted the rest of it is there
  cases hk : tokenKind b with
  | quote =>
    obtain rfl : b = quote := tokenKind_quote hk
    obtain ⟨s, r, c', es, rfl, hat, hg⟩ := ha.string_value h
    exact .inl ⟨_, r, c', es, ⟨.string s, rfl⟩, by simp [Tree.bytes, RawString.bytes], hg, hat⟩
  | comma =>
    rw [hk] at hfits
    exact absurd hfits.1 (by simp)
  | colon =>
    rw [hk] at hfits
    cases hfits
  | opening kind =>
    rw [hk] at hstart
    obtain rfl : b = kind.openByte := by simpa [startsToken] using hstart
    obtain ⟨c₁, hg, hat⟩ := goes_open (F := F) h kind l
    have ha₁ := hg.accepts_iff.mp ha
    refine .inl ?_
    cases kind with
    | array =>
      refine Front.of_goes hg (List.singleton_append (x := Context.array.openByte)).symm
        (array_front ih hat ha₁) ?_
      rintro part ⟨t, ht⟩
      exact ⟨t, ht⟩
    | object =>
      refine Front.of_goes hg (List.singleton_append (x := Context.object.openByte)).symm
        (object_front ih hat ha₁) ?_
      rintro part ⟨t, ht⟩
      exact ⟨t, ht⟩
  | closing kind =>
    rw [hk] at hfits hstart
    obtain ⟨hhead, hst, rfl⟩ := hfits
    obtain rfl : b = kind.closeByte := by simpa [startsToken] using hstart
    cases kind with
    | object => rcases hst with hst | hst <;> cases hst
    | array =>
      refine .inr ⟨rfl, rfl, context.tail, ?_⟩
      cases context with
      | nil => cases hhead
      | cons => cases hhead; rfl
  | literal rest value =>
    rw [hk] at hfits
    obtain ⟨-, r, rfl⟩ := hfits
    obtain ⟨c₁, hg, hat⟩ := goes_literal (F := F) h value r
    rw [← tokenKind_literal hk] at hg
    refine .inl ⟨b :: rest, r, c₁, _, ?_, rfl, hg, hat⟩
    rw [tokenKind_literal hk]
    rcases value with - | - | -
    · exact ⟨.null, rfl⟩
    · exact ⟨.boolean false, rfl⟩
    · exact ⟨.boolean true, rfl⟩
  | number =>
    obtain ⟨n, r, c', es, hn, hat, hg⟩ := ha.number_value h hk
    exact .inl ⟨n.1, r, c', es, ⟨.number n, rfl⟩, hn, hg, hat⟩
  | other =>
    rw [hk] at hfits
    exact hfits.elim

section Cases

variable {w : Ws} {b : UInt8} {c₁ : Core}

/-- A value behind whitespace. -/
theorem value_front (ih : ∀ m : List UInt8, m.length ≤ l.length → Sound F m)
    (hg : Goes (F := F) c (w.1 ++ b :: l) [] c₁ (b :: l))
    (h : c₁.At .expectValue context comma seen) (hb : isWs b = false)
    (ha : Accepts F c₁ (b :: l)) :
    Front F c (w.1 ++ b :: l) IsValue context ∨ comma = false ∧ ∃ outer,
      context = .array :: outer ∧ Front F c (w.1 ++ b :: l) (IsClose .array) outer := by
  rcases token_front ih h hb ha with hfront | ⟨rfl, rfl, outer, rfl⟩
  · refine .inl (Front.of_goes hg rfl hfront ?_)
    rintro _ ⟨t, rfl⟩
    exact ⟨w, t, rfl⟩
  · exact .inr ⟨rfl, outer, rfl, close_front w hg h (.inl rfl)⟩

/-- After a key comes a colon. -/
theorem Accepts.colon (h : c.At .expectColon context comma seen) (hb : isWs b = false)
    (ha : Accepts F c (b :: l)) : b = 0x3A := by
  have hstart := tokenKind_starts b
  have hfits := ha.fits h hb
  cases hk : tokenKind b <;> rw [hk] at hfits hstart
  case colon => simpa [startsToken] using hstart
  case closing kind =>
    obtain ⟨-, hst, -⟩ := hfits
    cases kind <;> rcases hst with hst | hst <;> cases hst
  all_goals simp [TokenKind.Fits] at hfits

/-- After an item comes another, or the end of its container. -/
theorem Accepts.comma_or_close {kind : Context}
    (h : c.At .afterValue (kind :: context) comma seen) (hb : isWs b = false)
    (ha : Accepts F c (b :: l)) : b = 0x2C ∨ b = kind.closeByte ∧ comma = false := by
  have hstart := tokenKind_starts b
  have hfits := ha.fits h hb
  cases hk : tokenKind b <;> rw [hk] at hfits hstart
  case comma => exact .inl (by simpa [startsToken] using hstart)
  case closing kind' =>
    obtain ⟨hhead, -, hcomma⟩ := hfits
    cases hhead
    exact .inr ⟨by simpa [startsToken] using hstart, hcomma⟩
  all_goals simp [TokenKind.Fits] at hfits

/-- Where a key is expected comes one, or the end of its object. -/
theorem Accepts.key_or_close (h : c.At .expectKey context comma seen) (hb : isWs b = false)
    (ha : Accepts F c (b :: l)) : b = quote ∨ b = Context.object.closeByte ∧ comma = false := by
  have hstart := tokenKind_starts b
  have hfits := ha.fits h hb
  cases hk : tokenKind b <;> rw [hk] at hfits hstart
  case quote => exact .inl (by simpa [startsToken] using hstart)
  case closing kind =>
    obtain ⟨-, hst, hcomma⟩ := hfits
    cases kind with
    | array => rcases hst with hst | hst <;> cases hst
    | object => exact .inr ⟨by simpa [startsToken] using hstart, hcomma⟩
  all_goals simp [TokenKind.Fits] at hfits

/-- What follows a key. -/
theorem label_front {s : RawString} (w : Ws) {es : List (Event F)}
    (ih : ∀ m : List UInt8, m.length ≤ l.length → Sound F m)
    (hg : Goes c (w.1 ++ s.bytes ++ l) es c₁ l)
    (h : c₁.At .expectColon (.object :: context) false true) (ha : Accepts F c₁ l) :
    Front F c (w.1 ++ s.bytes ++ l) IsMember (.object :: context) := by
  obtain ⟨w₁, l₁, c₂, rfl, hg₂, hat₂, ha₂, rfl | ⟨b, r, rfl, hb⟩⟩ := ha.skip h
  · exact absurd ha₂ (not_accepts_nil hat₂ (.inr (by simp)))
  obtain rfl := ha₂.colon hat₂ hb
  obtain ⟨c₃, hg₃, hat₃⟩ := goes_colon (F := F) hat₂ r
  have hlen : r.length ≤ (w₁.1 ++ 0x3A :: r).length :=
    (List.suffix_append_of_suffix (List.suffix_cons _ r)).length_le
  have hvalue := (ih r hlen).value hat₃ (.inr (by simp))
    ((hg₂.trans hg₃).accepts_iff.mp ha)
  rcases hvalue with hfront | ⟨-, outer, hout, -⟩
  · refine Front.of_goes (hg.trans (hg₂.trans hg₃))
      (a := w.1 ++ s.bytes ++ w₁.1 ++ [0x3A]) (by simp) hfront ?_
    rintro _ ⟨w₂, t, rfl⟩
    exact ⟨(w, s, w₁), w₂, t, by simp [labelBytes]⟩
  · cases hout

/-- A key behind whitespace, or the end of an object. -/
theorem member_front (ih : ∀ m : List UInt8, m.length ≤ l.length → Sound F m)
    (hg : Goes (F := F) c (w.1 ++ b :: l) [] c₁ (b :: l))
    (h : c₁.At .expectKey (.object :: context) comma true) (hb : isWs b = false)
    (ha : Accepts F c₁ (b :: l)) :
    Front F c (w.1 ++ b :: l) IsMember (.object :: context) ∨
      comma = false ∧ Front F c (w.1 ++ b :: l) (IsClose .object) context := by
  rcases ha.key_or_close h hb with rfl | ⟨rfl, rfl⟩
  · obtain ⟨s, r, c₂, es, rfl, hat, hg₂⟩ := ha.key h
    have hlen : r.length ≤ (s.raw ++ quote :: r).length :=
      (List.suffix_append_of_suffix (List.suffix_cons _ r)).length_le
    have hl : w.1 ++ quote :: (s.raw ++ quote :: r) = w.1 ++ s.bytes ++ r := by
      simp [RawString.bytes]
    rw [hl] at hg ⊢
    exact .inl (label_front w (fun m hm => ih m (hm.trans hlen)) (hg.trans hg₂) hat
      (hg₂.accepts_iff.mp ha))
  · exact .inr ⟨rfl, close_front w hg h (.inl rfl)⟩

/-- The rest of an array behind whitespace. -/
theorem rest_front (ih : ∀ m : List UInt8, m.length ≤ l.length → Sound F m)
    (hg : Goes (F := F) c (w.1 ++ b :: l) [] c₁ (b :: l))
    (h : c₁.At .afterValue (.array :: context) false true) (hb : isWs b = false)
    (ha : Accepts F c₁ (b :: l)) : Front F c (w.1 ++ b :: l) IsRest context := by
  rcases ha.comma_or_close h hb with rfl | ⟨rfl, -⟩
  · obtain ⟨c₂, hg₂, hat₂⟩ := goes_comma (F := F) h l
    rcases (ih l le_rfl).value hat₂ (.inr (by simp)) (hg₂.accepts_iff.mp ha) with
      ⟨_, l₁, c₃, es, ⟨w₁, t, rfl⟩, rfl, hg₃, hat₃⟩ | ⟨hcomma, -⟩
    · have hlen := (List.suffix_append (w₁.1 ++ t.bytes) l₁).length_le
      have hg' := hg.trans (hg₂.trans hg₃)
      refine Front.of_goes hg' (a := w.1 ++ 0x2C :: (w₁.1 ++ t.bytes)) (by simp)
        ((ih l₁ hlen).rest hat₃ ((hg₂.trans hg₃).accepts_iff.mp ha)) ?_
      rintro _ ⟨w₂, items, rfl⟩
      exact ⟨w, (w₁, t, w₂) :: items, by simp [Tree.restBytes, Tree.itemBytes]⟩
    · cases hcomma
  · refine Front.of_goes (.refl c _) (List.nil_append _).symm
      (close_front w hg h (.inr rfl)) ?_
    rintro _ ⟨w₁, rfl⟩
    exact ⟨w₁, [], by simp [Tree.restBytes, Context.closeByte]⟩

/-- The rest of an object behind whitespace. -/
theorem members_front (ih : ∀ m : List UInt8, m.length ≤ l.length → Sound F m)
    (hg : Goes (F := F) c (w.1 ++ b :: l) [] c₁ (b :: l))
    (h : c₁.At .afterValue (.object :: context) false true) (hb : isWs b = false)
    (ha : Accepts F c₁ (b :: l)) : Front F c (w.1 ++ b :: l) IsMembers context := by
  rcases ha.comma_or_close h hb with rfl | ⟨rfl, -⟩
  · obtain ⟨c₂, hg₂, hat₂⟩ := goes_comma (F := F) h l
    rcases (ih l le_rfl).member hat₂ (hg₂.accepts_iff.mp ha) with
      ⟨_, l₁, c₃, es, ⟨label, w₁, t, rfl⟩, rfl, hg₃, hat₃⟩ | ⟨hcomma, -⟩
    · have hlen := (List.suffix_append (labelBytes label ++ w₁.1 ++ t.bytes) l₁).length_le
      have hg' := hg.trans (hg₂.trans hg₃)
      refine Front.of_goes hg' (a := w.1 ++ 0x2C :: (labelBytes label ++ w₁.1 ++ t.bytes))
        (by simp) ((ih l₁ hlen).members hat₃ ((hg₂.trans hg₃).accepts_iff.mp ha)) ?_
      rintro _ ⟨w₂, members, rfl⟩
      exact ⟨w, (label, w₁, t, w₂) :: members, by simp [Tree.membersBytes, Tree.memberBytes]⟩
    · cases hcomma
  · refine Front.of_goes (.refl c _) (List.nil_append _).symm
      (close_front w hg h (.inr rfl)) ?_
    rintro _ ⟨w₁, rfl⟩
    exact ⟨w₁, [], by simp [Tree.membersBytes, Context.closeByte]⟩

end Cases

/-- **What is accepted is what the grammar has there.** -/
theorem sound (l : List UInt8) : Sound F l := by
  induction hn : l.length using Nat.strongRecOn generalizing l with
  | ind n ih =>
    subst hn
    -- behind a byte of `l` everything is shorter
    have behind {w r : List UInt8} {b : UInt8} (hl : l = w ++ b :: r) (m : List UInt8)
        (hm : m.length ≤ r.length) : Sound F m := by
      refine ih m.length ?_ m rfl
      rw [hl, List.length_append, List.length_cons]
      omega
    constructor
    · intro c context comma seen h hc ha
      obtain ⟨w, l₁, c₁, hl, hg, hat, ha₁, rfl | ⟨b, r, rfl, hb⟩⟩ := ha.skip h
      · exact absurd ha₁ (not_accepts_nil hat hc)
      · have hs := behind hl
        rw [hl] at hg ⊢
        exact value_front hs hg hat hb ha₁
    · intro c context comma h ha
      obtain ⟨w, l₁, c₁, hl, hg, hat, ha₁, rfl | ⟨b, r, rfl, hb⟩⟩ := ha.skip h
      · exact absurd ha₁ (not_accepts_nil hat (.inr (by simp)))
      · have hs := behind hl
        rw [hl] at hg ⊢
        exact member_front hs hg hat hb ha₁
    · intro c context h ha
      obtain ⟨w, l₁, c₁, hl, hg, hat, ha₁, rfl | ⟨b, r, rfl, hb⟩⟩ := ha.skip h
      · exact absurd ha₁ (not_accepts_nil hat (.inr (by simp)))
      · have hs := behind hl
        rw [hl] at hg ⊢
        exact rest_front hs hg hat hb ha₁
    · intro c context h ha
      obtain ⟨w, l₁, c₁, hl, hg, hat, ha₁, rfl | ⟨b, r, rfl, hb⟩⟩ := ha.skip h
      · exact absurd ha₁ (not_accepts_nil hat (.inr (by simp)))
      · have hs := behind hl
        rw [hl] at hg ⊢
        exact members_front hs hg hat hb ha₁

/-! ## Documents -/

/-- After the root value. -/
theorem yields_end (h : c.At .afterValue [] comma true) : Yields (F := F) c [] [] := by
  refine ⟨[], ends_nil.mpr ?_, rfl⟩
  rw [ending_outside h.outside h.noNumber, Core.complete, h.seen, h.context]
  exact ⟨rfl, rfl⟩

/-- After the root value comes only whitespace. -/
theorem Accepts.end (h : c.At .afterValue [] comma true) (ha : Accepts F c l) :
    ∃ w : Ws, l = w.1 := by
  obtain ⟨w, l₁, c₁, rfl, hg, hat, ha₁, rfl | ⟨b, r, rfl, hb⟩⟩ := ha.skip h
  · exact ⟨w, by simp⟩
  · have hfits := ha₁.fits hat hb
    cases hk : tokenKind b <;> rw [hk] at hfits <;> simp [TokenKind.Fits] at hfits

/-- **From the start of a document behind the byte order mark.** -/
theorem accepts_iff (h : c.At .expectValue [] false false) :
    Accepts F c l ↔ ∃ before after : Ws, ∃ t : Tree, l = before.1 ++ t.bytes ++ after.1 := by
  constructor
  · intro ha
    rcases (sound l).value h (.inl rfl) ha with
      ⟨_, l₁, c₁, es, ⟨w, t, rfl⟩, rfl, hg, hat⟩ | ⟨-, outer, hout, -⟩
    · obtain ⟨w₁, rfl⟩ := (hg.accepts_iff.mp ha).end hat
      exact ⟨w, w₁, t, rfl⟩
    · cases hout
  · rintro ⟨before, after, t, rfl⟩
    obtain ⟨c₁, hg, hat⟩ := goes_padded (F := F) before after (Tree.goes t) h StopsNumber.nil
    rw [List.append_nil] at hg
    exact hg.accepts_iff.mpr ⟨[], yields_end hat⟩

/-- A document without a mark yields the traversal of its value. -/
theorem yields_tree (h : c.At .expectValue [] false false) (before after : Ws) (t : Tree) :
    Yields (F := F) c (before.1 ++ t.bytes ++ after.1) (explode t.denote.traverse) := by
  obtain ⟨c₁, hg, hat⟩ := goes_padded (F := F) before after (Tree.goes t) h StopsNumber.nil
  rw [List.append_nil] at hg
  exact (hg _).mpr ⟨[], (List.append_nil _).symm, yields_end hat⟩

/-- A byte that no byte order mark starts with. -/
def startsNoMark (b : UInt8) : Bool := b != 0xEF && b != 0xFE && b != 0xFF && b != 0x00

theorem bomFront_noMark {b : UInt8} (h : startsNoMark b = true) (l : List UInt8) :
    bomFront (b :: l) = .found 0 := by
  have h' : ((b ≠ 0xEF ∧ b ≠ 0xFE) ∧ b ≠ 0xFF) ∧ b ≠ 0x00 := by simpa [startsNoMark] using h
  obtain ⟨⟨⟨h1, h2⟩, h3⟩, h4⟩ := h'
  rw [bomFront, if_neg h1, if_neg h2, if_neg h3, if_neg h4]

theorem startsNoMark_of_token {b : UInt8} (h : isWs b = true ∨ tokenKind b ≠ .other) :
    startsNoMark b = true := by
  have key : ∀ b, (isWs b = true ∨ tokenKind b ≠ .other) → startsNoMark b = true :=
    forall_byte (by decide +kernel)
  exact key b h

/-- The first byte of a tree. -/
theorem Tree.exists_head (t : Tree) : ∃ b r, t.bytes = b :: r ∧ tokenKind b ≠ .other := by
  cases t with
  | null => exact ⟨_, _, rfl, by decide⟩
  | boolean v => cases v <;> exact ⟨_, _, rfl, by decide⟩
  | string s => exact ⟨quote, s.raw ++ [quote], by simp [Tree.bytes, RawString.bytes], by decide⟩
  | emptyArray pad => exact ⟨_, _, rfl, by decide⟩
  | array first rest =>
    exact ⟨0x5B, itemBytes first ++ restBytes rest ++ [0x5D], by simp [Tree.bytes], by decide⟩
  | emptyObject pad => exact ⟨_, _, rfl, by decide⟩
  | object first rest =>
    exact ⟨0x7B, memberBytes first ++ membersBytes rest ++ [0x7D], by simp [Tree.bytes], by decide⟩
  | number n =>
    obtain ⟨b, r, hbr⟩ := List.exists_cons_of_ne_nil fun hnil : n.1 = [] =>
      not_isNumber_nil (hnil ▸ n.2)
    have hn := n.2
    rw [hbr] at hn
    refine ⟨b, r, hbr, ?_⟩
    rw [tokenKind_number (isNumber_cons.mp hn).1]
    simp

/-- No document looks like a byte order mark. -/
theorem bomFront_document (before after : Ws) (t : Tree) :
    bomFront (before.1 ++ t.bytes ++ after.1) = .found 0 := by
  obtain ⟨before, hbefore⟩ := before
  cases before with
  | cons b w => exact bomFront_noMark (startsNoMark_of_token (.inl (hbefore b (by simp)))) _
  | nil =>
    obtain ⟨b, r, hbr, hk⟩ := t.exists_head
    rw [List.nil_append, hbr]
    exact bomFront_noMark (startsNoMark_of_token (.inr hk)) _

/-- At the start of a document, nothing looked at. -/
structure Core.Fresh (c : Core) : Prop where
  bom : c.bomChecked = false
  outside : c.inString = false
  noNumber : c.number.stage = .none
  state : c.state = .expectValue
  context : c.context = []
  comma : c.afterComma = false
  seen : c.seenAny = false
  keepsNone : c.rejectDuplicateKeys = false

/-- A machine that is new looks for the mark first. -/
theorem next_fresh (h : c.Fresh) (l : List UInt8) : c.next (F := F) .unlimited l =
    match bomFront l with
    | .need => .need
    | .bad => .fail []
    | .found n => .step n { c with bomChecked := true } [] := by
  refine (if_pos (by rw [h.bom]; rfl)).trans ?_
  cases bomFront l <;> rfl

/-- The byte order mark, if there is one. -/
theorem goes_bom (h : c.Fresh) {n : Nat} (hl : bomFront l = .found n) :
    ∃ c', Goes (F := F) c l [] c' (l.drop n) ∧ c'.At .expectValue [] false false := by
  have hnext := next_fresh (F := F) h l
  rw [hl] at hnext
  exact ⟨_, Goes.of_next hnext, rfl, h.outside, h.noNumber, h.state, h.context, h.comma, h.seen,
    h.keepsNone⟩

/-- A document is what comes after its mark. -/
theorem Document.bomFront {t : Tree} (h : Document l t) : ∃ n, bomFront l = .found n ∧
    ∃ before after : Ws, l.drop n = before.1 ++ t.bytes ++ after.1 := by
  obtain ⟨bom, before, after, rfl | rfl, rfl⟩ := h
  · exact ⟨0, by rw [List.nil_append]; exact bomFront_document before after t, before, after, rfl⟩
  · exact ⟨3, rfl, before, after, rfl⟩

/-- **The machine puts out the traversal** of what a document denotes. -/
theorem Document.yields {t : Tree} (h : Document l t) (hc : c.Fresh) :
    Yields (F := F) c l (explode t.denote.traverse) := by
  obtain ⟨n, hn, before, after, hl⟩ := h.bomFront
  obtain ⟨c₁, hg, hat⟩ := goes_bom (F := F) hc hn
  rw [hl] at hg
  exact (hg _).mpr ⟨_, rfl, yields_tree hat before after t⟩

/-- **The machine accepts the documents of the grammar.** -/
theorem accepts_iff_document (hc : c.Fresh) : Accepts F c l ↔ ∃ t, Document l t := by
  constructor
  · intro ha
    have hnext := next_fresh (F := F) hc l
    cases hb : RJsonParser.bomFront l with
    | need =>
      rw [hb] at hnext
      by_cases hl : l = []
      · subst hl
        rcases ha.cases with ⟨n, c', out, hn⟩ | ⟨-, hend⟩
        · rw [next_nil] at hn; cases hn
        · rw [ending_outside hc.outside hc.noNumber] at hend
          rw [Core.complete, hc.seen] at hend
          cases hend
      · exact absurd ha (not_accepts_of_need hnext hl)
    | bad =>
      rw [hb] at hnext
      exact absurd ha (not_accepts_of_fail hnext)
    | found n =>
      obtain ⟨c₁, hg, hat⟩ := goes_bom (F := F) hc hb
      obtain ⟨before, after, t, ht⟩ := (accepts_iff hat).mp (hg.accepts_iff.mp ha)
      refine ⟨t, l.take n, before, after, ?_, ?_⟩
      · rcases (bomFront_bound hb).1 with rfl | ⟨rfl, hp⟩
        · exact .inl rfl
        · obtain ⟨r, rfl⟩ := hp
          exact .inr rfl
      · rw [List.append_assoc, List.append_assoc, ← List.append_assoc before.1, ← ht,
          List.take_append_drop]
  · rintro ⟨t, ht⟩
    exact ⟨_, ht.yields hc⟩

end RJsonParser
