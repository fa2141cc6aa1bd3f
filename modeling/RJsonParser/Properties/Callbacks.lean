import RJsonParser.Properties.Fragments
import RJsonParser.Properties.NumberTokens

/-!
# All that is called back

The callbacks of a document with its whitespace in place, under any limits and settings.

* `called` — what some lexemes call back, told from the lexemes alone
* `Tree.callbacks` — what a tree calls back, by recursion
* `callbacks_exact` — when a document is accepted, and what is called back
* `settings_loosened` — what is accepted is accepted with looser settings, with the same callbacks
-/

namespace RJsonParser

open Infra Infra.Utf8

variable {F : Type} [Double F]

/-! ## The callbacks of lexemes -/

/-- The callbacks of whitespace, byte by byte, if it is wanted. -/
def spaces (wanted : Bool) (l : List UInt8) : List (Event F) :=
  if wanted then l.map fun b => .whitespace [byteChar b] else []

/-- What a lexeme calls back, `acc` being the number that it may end. -/
def Lexeme.called (wanted : Bool) (acc : List UInt8) : Lexeme → List (Event F)
  | .space b => spaces wanted [b]
  | .opening context => [context.openEvent]
  | .closing context => [context.closeEvent]
  | .literal value => [literalEvent value]
  | .endNumber => [.numberValue (numberOf acc)]
  | .key _ text => [.key text]
  | .startString => [.startStringValue]
  | .char _ ch => [.stringValueContent [ch]]
  | .endString => [.endStringValue]
  | .mark _ | .settle | .comma | .colon | .startNumber _ | .digit _ => []

/-- What some lexemes call back. -/
def called (wanted : Bool) : List UInt8 → List Lexeme → List (Event F)
  | _, [] => []
  | acc, x :: xs => x.called wanted acc ++ called wanted (pending acc x) xs

section Called

variable {limits : ParserLimits} {c : Core} {xs ys : List Lexeme} {rest acc : List UInt8}
  {wanted : Bool}

omit [Double F] in
theorem after_needsWhitespace (c : Core) (x : Lexeme) :
    (c.after limits x).needsWhitespace = c.needsWhitespace := by
  cases x with
  | space b => rw [Core.after_space]
  | digit b => rw [Core.after_digit]
  | _ => rfl

/-- **What lexemes put out is told from the lexemes.** -/
theorem called_putsAll (hl : c.Lexes limits xs rest) (hs : c.Spells acc) :
    eventsOf (c.putsAll (F := F) limits xs) = called c.needsWhitespace acc xs := by
  induction xs generalizing c acc with
  | nil => rfl
  | cons x xs ih =>
    obtain ⟨hx, hl⟩ := hl
    have ih' := ih hl (hs.after hx)
    rw [after_needsWhitespace] at ih'
    rw [Core.putsAll, eventsOf_append, ih', called]
    cases x with
    | endNumber =>
      obtain ⟨⟨-, -, hn⟩, -⟩ := lex_inner hx rfl
      obtain ⟨b, l, rfl, ht⟩ := hs hn
      have hvalue : c.number.value (F := F) = numberOf (b :: l) := by simp only [numberOf, ht]
      show Event.numberValue c.number.value :: _ = .numberValue (numberOf (b :: l)) :: _
      rw [hvalue]
      rfl
    | space b =>
      show eventsOf (if c.needsWhitespace = true then _ else []) ++ _ =
        (if c.needsWhitespace = true then _ else []) ++ _
      split <;> rfl
    | _ => rfl

/-- Lexemes are called back in order, a number where it ends. -/
theorem called_append (acc : List UInt8) (xs ys : List Lexeme) :
    called (F := F) wanted acc (xs ++ ys) =
      called wanted acc xs ++ called wanted (xs.foldl pending acc) ys := by
  induction xs generalizing acc with
  | nil => rfl
  | cons x xs ih => rw [List.cons_append, called, called, ih, List.append_assoc, List.foldl_cons]

/-- Steps that take nothing call nothing back. -/
theorem called_visible (acc : List UInt8) (xs : List Lexeme) :
    called (F := F) wanted acc (visible xs) = called wanted acc xs := by
  induction xs generalizing acc with
  | nil => rfl
  | cons x xs ih =>
    by_cases hx : x = .settle
    · subst hx
      exact ih acc
    · rw [visible_cons hx, called, called, ih]

end Called

/-! ## The callbacks of trees -/

mutual

/-- What a tree calls back, content and whitespace character by character. -/
def Tree.callbacks (wanted : Bool) : Tree → List (Event F)
  | .null => [.nullValue]
  | .boolean v => [.booleanValue v]
  | .number n => [.numberValue (numberOf n.1)]
  | .string s => .startStringValue :: contentOf s.text ++ [.endStringValue]
  | .emptyArray pad => .startArray :: spaces wanted pad.1 ++ [.endArray]
  | .array first rest =>
    .startArray :: itemCallbacks wanted first ++ restCallbacks wanted rest ++ [.endArray]
  | .emptyObject pad => .startObject :: spaces wanted pad.1 ++ [.endObject]
  | .object first rest =>
    .startObject :: memberCallbacks wanted first ++ membersCallbacks wanted rest ++ [.endObject]

def Tree.itemCallbacks (wanted : Bool) : Ws × Tree × Ws → List (Event F)
  | (before, t, after) => spaces wanted before.1 ++ t.callbacks wanted ++ spaces wanted after.1

/-- What further elements call back. -/
def Tree.restCallbacks (wanted : Bool) : List (Ws × Tree × Ws) → List (Event F)
  | [] => []
  | item :: rest => itemCallbacks wanted item ++ restCallbacks wanted rest

def Tree.memberCallbacks (wanted : Bool) :
    (Ws × RawString × Ws) × Ws × Tree × Ws → List (Event F)
  | ((before, key, after), first, t, last) =>
    spaces wanted before.1 ++ .key key.text :: spaces wanted after.1 ++ spaces wanted first.1 ++
      t.callbacks wanted ++ spaces wanted last.1

/-- What further members call back. -/
def Tree.membersCallbacks (wanted : Bool) :
    List ((Ws × RawString × Ws) × Ws × Tree × Ws) → List (Event F)
  | [] => []
  | member :: rest => memberCallbacks wanted member ++ membersCallbacks wanted rest

end

section Trees

variable {wanted : Bool}

/-- Whitespace is called back if it is wanted. -/
theorem called_ws (acc : List UInt8) (w : Ws) :
    called (F := F) wanted acc (wsLexemes w) = spaces wanted w.1 := by
  obtain ⟨l, hl⟩ := w
  show called wanted acc (l.map .space) = spaces wanted l
  clear hl
  induction l with
  | nil => cases wanted <;> rfl
  | cons b l ih =>
    rw [List.map_cons, called]
    show spaces wanted [b] ++ called wanted acc (l.map .space) = _
    rw [ih]
    cases wanted <;> rfl

/-- A number is called back where it ends. -/
theorem called_number (acc : List UInt8) {l : List UInt8} (hl : IsNumber l) :
    called (F := F) wanted acc (numberLexemes l) = [.numberValue (numberOf l)] := by
  have digits (l : List UInt8) : ∀ acc, called (F := F) wanted acc (l.map .digit ++ [.endNumber]) =
      [.numberValue (numberOf (acc ++ l))] := by
    induction l with
    | nil => exact fun acc => by simp [called, Lexeme.called]
    | cons d l ih =>
      intro acc
      refine (ih (acc ++ [d])).trans ?_
      rw [List.append_assoc]
      rfl
  cases l with
  | nil => exact absurd hl not_isNumber_nil
  | cons b l => exact digits l [b]

/-- The content of a string is called back. -/
theorem called_content {raw : List UInt8} {s : Text} (h : decodeString raw = some s)
    (acc : List UInt8) : called (F := F) wanted acc (contentLexemes raw) = contentOf s := by
  refine decodeString_induct (P := fun raw s => ∀ acc,
    called (F := F) wanted acc (contentLexemes raw) = contentOf s) (fun _ => rfl) ?_ h acc
  intro raw ch n s hc _ ih acc
  rw [contentLexemes_of_rawChar hc, called, ih]
  rfl

mutual

/-- **The lexemes of a tree call back what the tree does.** -/
theorem Tree.called_lexemes (acc : List UInt8) :
    ∀ t : Tree, called (F := F) wanted acc t.lexemes = t.callbacks wanted
  | .null | .boolean _ => rfl
  | .number n => called_number acc n.2
  | .string s => by
    rw [Tree.lexemes, List.cons_append, called, called_append, called_content s.denotes]
    rfl
  | .emptyArray pad => by
    rw [Tree.lexemes, List.cons_append, called, called_append, called_ws]
    rfl
  | .emptyObject pad => by
    rw [Tree.lexemes, List.cons_append, called, called_append, called_ws]
    rfl
  | .array (before, t, after) rest => by
    simp only [Tree.lexemes, Tree.itemLexemes, List.cons_append, called, called_append, called_ws,
      Tree.called_lexemes _ t, Tree.called_rest _ rest]
    rfl
  | .object ((before, key, after), first, t, last) rest => by
    simp only [Tree.lexemes, Tree.memberLexemes, labelLexemes, List.cons_append, List.append_assoc,
      called, called_append, called_ws, Tree.called_lexemes _ t, Tree.called_members _ rest]
    simp [Tree.callbacks, Tree.memberCallbacks, Lexeme.called, Context.openEvent,
      Context.closeEvent]

/-- The further items of an array. -/
theorem Tree.called_rest (acc : List UInt8) : ∀ rest : List (Ws × Tree × Ws),
    called (F := F) wanted acc (restLexemes rest) = restCallbacks wanted rest
  | [] => rfl
  | (before, t, after) :: rest => by
    simp only [Tree.restLexemes, Tree.itemLexemes, List.cons_append, called, called_append,
      called_ws, Tree.called_lexemes _ t, Tree.called_rest _ rest]
    rfl

/-- The further members of an object. -/
theorem Tree.called_members (acc : List UInt8) :
    ∀ rest : List ((Ws × RawString × Ws) × Ws × Tree × Ws),
      called (F := F) wanted acc (membersLexemes rest) = membersCallbacks wanted rest
  | [] => rfl
  | ((before, key, after), first, t, last) :: rest => by
    simp only [Tree.membersLexemes, Tree.memberLexemes, labelLexemes, List.cons_append,
      List.append_assoc, called, called_append, called_ws, Tree.called_lexemes _ t,
      Tree.called_members _ rest]
    simp [Tree.membersCallbacks, Tree.memberCallbacks, Lexeme.called]

end

omit [Double F] in
/-- Nothing else is dropped with the whitespace. -/
theorem dropWhitespace_spaces (l : List UInt8) :
    dropWhitespace (spaces (F := F) wanted l) = [] := by
  unfold spaces
  split
  · simp [dropWhitespace, Event.isWhitespace]
  · rfl

omit [Double F] in
theorem dropWhitespace_token {e : Event F} (he : e.isWhitespace = false) (es : List (Event F)) :
    dropWhitespace (e :: es) = e :: dropWhitespace es := List.filter_cons_of_pos (by simp [he])

omit [Double F] in
theorem dropWhitespace_content (s : Text) :
    dropWhitespace (contentOf (F := F) s) = contentOf s := by
  simp [dropWhitespace, contentOf, Event.isWhitespace]

mutual

/-- **Whitespace apart, a tree calls back the traversal** of the value that it denotes. -/
theorem Tree.dropWhitespace_callbacks : ∀ t : Tree,
    dropWhitespace (t.callbacks (F := F) wanted) = explode t.denote.traverse
  | .null | .boolean _ | .number _ => rfl
  | .string s => by
    simp only [Tree.callbacks, Tree.denote, Json.traverse, List.cons_append, explode_cons,
      explode_append, explode_pieces, dropWhitespace_append, dropWhitespace_content,
      dropWhitespace_token (e := .startStringValue) rfl]
    rfl
  | .emptyArray pad | .emptyObject pad => by
    simp only [Tree.callbacks, List.cons_append, dropWhitespace_append, dropWhitespace_spaces,
      dropWhitespace_token (e := .startArray) rfl, dropWhitespace_token (e := .startObject) rfl]
    rfl
  | .array (before, t, after) rest => by
    simp only [Tree.callbacks, Tree.itemCallbacks, List.cons_append, dropWhitespace_append,
      dropWhitespace_spaces, dropWhitespace_token (e := .startArray) rfl,
      Tree.dropWhitespace_callbacks t, Tree.dropWhitespace_rest rest, Tree.denote, Json.traverse,
      Json.traverseAll, explode_cons, explode_append, List.append_nil, List.nil_append]
    rfl
  | .object ((before, key, after), first, t, last) rest => by
    simp only [Tree.callbacks, Tree.memberCallbacks, List.cons_append, List.append_assoc,
      dropWhitespace_append, dropWhitespace_spaces, dropWhitespace_token (e := .startObject) rfl,
      dropWhitespace_token (e := .key key.text) rfl, Tree.dropWhitespace_callbacks t,
      Tree.dropWhitespace_members rest, Tree.denote, Json.traverse, Json.traverseMembers,
      explode_cons, explode_append, List.nil_append]
    rfl

theorem Tree.dropWhitespace_rest : ∀ rest : List (Ws × Tree × Ws),
    dropWhitespace (restCallbacks (F := F) wanted rest) =
      explode (Json.traverseAll (denoteRest rest))
  | [] => rfl
  | (before, t, after) :: rest => by
    simp only [Tree.restCallbacks, Tree.itemCallbacks, dropWhitespace_append, dropWhitespace_spaces,
      Tree.dropWhitespace_callbacks t, Tree.dropWhitespace_rest rest, Tree.denoteRest,
      Json.traverseAll, explode_append, List.append_nil, List.nil_append]

theorem Tree.dropWhitespace_members : ∀ rest : List ((Ws × RawString × Ws) × Ws × Tree × Ws),
    dropWhitespace (membersCallbacks (F := F) wanted rest) =
      explode (Json.traverseMembers (denoteMembers rest))
  | [] => rfl
  | ((before, key, after), first, t, last) :: rest => by
    simp only [Tree.membersCallbacks, Tree.memberCallbacks, List.cons_append, List.append_assoc,
      dropWhitespace_append, dropWhitespace_spaces, dropWhitespace_token (e := .key key.text) rfl,
      Tree.dropWhitespace_callbacks t, Tree.dropWhitespace_members rest, Tree.denoteMembers,
      Json.traverseMembers, explode_cons, explode_append, List.nil_append]
    rfl

end

end Trees

/-! ## Documents -/

/-- **A JSON text in its parts**: an optional byte order mark, whitespace, a value, whitespace. -/
def Parts (l : List UInt8) (before : Ws) (t : Tree) (after : Ws) : Prop :=
  ∃ bom, (bom = [] ∨ bom = [0xEF, 0xBB, 0xBF]) ∧ l = bom ++ before.1 ++ t.bytes ++ after.1

theorem document_iff_parts {l : List UInt8} {t : Tree} :
    Document l t ↔ ∃ before after, Parts l before t after := by
  constructor
  · rintro ⟨bom, before, after, h⟩
    exact ⟨before, after, bom, h⟩
  · rintro ⟨before, after, bom, h⟩
    exact ⟨bom, before, after, h⟩

/-- What a document calls back, content and whitespace character by character. -/
def documentCallbacks (wanted : Bool) (before : Ws) (t : Tree) (after : Ws) : List (Event F) :=
  spaces wanted before.1 ++ t.callbacks wanted ++ spaces wanted after.1

section Documents

variable {c : Core} {l : List UInt8} {before after : Ws} {t : Tree} {limits : ParserLimits}

/-- The machine finds the lexemes of a document in its parts. -/
theorem Parts.found (limits : ParserLimits) (h : Parts l before t after) (hc : c.Starts) :
    ∃ bom xs, l = bytesOf xs ∧ c.Lexes limits xs [] ∧ (c.run limits xs).Between ∧
      visible xs = documentLexemes bom before t after := by
  obtain ⟨bom, hbom, rfl⟩ := h
  rw [List.append_assoc bom, List.append_assoc bom]
  have hmark : c.lex (bom ++ (before.1 ++ t.bytes ++ after.1)) = some (.mark bom) := by
    unfold Core.lex
    rw [if_pos (by rw [hc.bom]; rfl)]
    rcases hbom with rfl | rfl
    · rw [List.nil_append, bomFront_document]
      rfl
    · rfl
  have hst : (c.after limits (.mark bom)).Stands .expectValue [] false :=
    ⟨⟨rfl, hc.outside, hc.noNumber⟩, hc.state, hc.context, hc.comma⟩
  obtain ⟨c', ⟨xs, hvis, hlex, hrun⟩, hst'⟩ :=
    over_padded before after [] (Tree.over t) hst StopsNumber.nil
  have hbytes : bytesOf xs = before.1 ++ t.bytes ++ after.1 := by
    rw [← bytesOf_visible, hvis]
    simp [Tree.bytesOf_lexemes]
  refine ⟨bom, .mark bom :: xs, ?_, ⟨?_, hlex⟩, ?_, ?_⟩
  · rw [bytesOf_cons, hbytes]
    rfl
  · rw [bytesOf_cons, hbytes, List.append_nil]
    exact hmark
  · show ((c.after limits (.mark bom)).run limits xs).Between
    rw [hrun]
    exact hst'.toBetween
  · rw [visible_cons (by simp), hvis, documentLexemes]

/-- What the lexemes of a document put out. -/
theorem Parts.putsAll (limits : ParserLimits) (h : Parts l before t after) (hc : c.Starts) :
    ∃ xs, l = bytesOf xs ∧ c.Lexes limits xs [] ∧ (c.run limits xs).Between ∧
      eventsOf (c.putsAll (F := F) limits xs) =
        documentCallbacks c.needsWhitespace before t after := by
  obtain ⟨bom, xs, hl, hlex, hb, hvis⟩ := h.found limits hc
  refine ⟨xs, hl, hlex, hb, ?_⟩
  have hs : c.Spells [] := fun hn => absurd hc.noNumber hn
  rw [called_putsAll hlex hs, ← called_visible, hvis, documentLexemes, called, called_append,
    called_append, called_ws, called_ws, Tree.called_lexemes]
  rfl

/-- **The verdict on a document** puts out the front of what it calls back, and all of it if it is
accepted. -/
theorem Parts.ends (h : Parts l before t after) (hc : c.Starts) {a : Bool} {os : List (Mark F)}
    (he : Ends limits c l a os) :
    eventsOf os <+: documentCallbacks c.needsWhitespace before t after ∧
      (a = true → eventsOf os = documentCallbacks c.needsWhitespace before t after) := by
  obtain ⟨xs, rfl, hlex, hb, hputs⟩ := h.putsAll (F := F) limits hc
  by_cases ha : c.AllowsAll limits xs
  · obtain ⟨rfl, rfl⟩ := he.unique (ends_of_allowed hlex ha hb)
    rw [hputs]
    exact ⟨List.prefix_rfl, fun _ => rfl⟩
  · obtain ⟨pre, x, post, out, rfl, -, -, hout, -, hends⟩ := ends_of_refused (F := F) hlex ha
    obtain ⟨rfl, rfl⟩ := he.unique hends
    refine ⟨?_, fun hfalse => by cases hfalse⟩
    obtain ⟨more, hmore⟩ := hout
    rw [← hputs, Core.putsAll_append, Core.putsAll, ← hmore, List.append_assoc out,
      ← List.append_assoc, eventsOf_append (_ ++ out)]
    exact List.prefix_append ..

end Documents

section Sessions

variable {h : Handler F} {s : Session F} {l : List UInt8} {before after : Ws} {t : Tree}
  {ops ops' : List Op}

/-- **What becomes of a document under any settings.** It is accepted if its sizes are within the
limits and no object has a key twice, where that is looked for. Then all of it is called back, the
whitespace in its place; where it is rejected for another reason than its length, the front. -/
theorem callbacks_exact (hs : s.AtStart h) (hh : h.NeverErrs) (limits : ParserLimits)
    (reject : Bool)
    (n : ChunkSize) (hp : Parts l before t after) (hkeys : ∀ k ∈ t.keys, byteLen k.text ≤ n)
    (hops : ∀ op ∈ ops, op.Presents) (hl : offered ops = l)
    (hfits : Fits h ops (s.configure limits reject n)) (hring : RingHolds s.buf.capacity l t) :
    let r := outcome h (ops ++ [.close]) (s.configure limits reject n)
    let all := documentCallbacks (F := F) (h.needsWhitespace s.parser.calls) before t after
    dropWhitespace all = explode t.denote.traverse ∧
    ∃ new, r.2.parser.calls = s.parser.calls ++ new ∧
      (r.1 = .ok () ↔ t.measure.Fits limits 0 0 ∧ (reject = true → t.distinct = true) ∧
        exceeds limits.maxDocumentLength l.length = false) ∧
      (r.1 = .ok () → explode (new.map Call.event) = all) ∧
      (exceeds limits.maxDocumentLength l.length = false →
        explode (new.map Call.event) <+: all) := by
  intro r all
  refine ⟨?_, ?_⟩
  · simp only [all, documentCallbacks, dropWhitespace_append, dropWhitespace_spaces,
      Tree.dropWhitespace_callbacks, List.nil_append, List.append_nil]
  have hs' := hs.configure limits reject n
  have hcore : ((s.configure limits reject n).parser.core h).Starts := by
    rw [hs'.core]
    exact Core.start_starts _ _
  have hwanted : ((s.configure limits reject n).parser.core h).needsWhitespace =
      h.needsWhitespace s.parser.calls := by
    rw [hs'.core]
    rfl
  obtain ⟨km, hi⟩ := hs'.reachable.inv
  have ht : Document l t := document_iff_parts.mpr ⟨before, after, hp⟩
  obtain ⟨new, hcalled, hcomes, hiff⟩ := hs'.document hi hh ht hops hl hfits hring hkeys
  have hkeys' : (s.configure limits reject n).KeysFit h l n := ht.keysFit hcore hkeys
  refine ⟨new, hcalled.calls, hiff, fun hok => ?_, fun hlen => ?_⟩
  · rw [show r.1 = _ from rfl] at hok
    rw [hok] at hcomes
    cases hcomes with
    | accepted ends fits =>
      rw [← eventsOf_marks, (hp.ends hcore ends).2 rfl, hwanted]
  · obtain ⟨a, os, hends⟩ := hcomes.ends hlen hkeys'
    obtain ⟨-, htold, -⟩ := hcomes.of_ends hends hlen hkeys'
    obtain ⟨more, hmore⟩ := htold.marks_prefix
    have hpre := (hp.ends hcore hends).1
    rw [hwanted, ← hmore, eventsOf_append, eventsOf_marks] at hpre
    exact (List.prefix_append ..).trans hpre

theorem isWs_of_mem_nil : ∀ b ∈ ([] : List UInt8), isWs b = true := by simp

theorem isWs_of_mem_space : ∀ b ∈ ([0x20] : List UInt8), isWs b = true := by simp [isWs]

/-- The array `[null ]`. -/
def spacedTree : Tree := .array (⟨[], isWs_of_mem_nil⟩, .null, ⟨[0x20], isWs_of_mem_space⟩) []

/-- ` [null ]` in two chunks, with a limit of one container. -/
theorem callbacks_exact_spaced :
    let s : Session Rat := .new 64 (.split 0)
    let limits : ParserLimits := { ParserLimits.unlimited with maxNestingDepth := some 1 }
    let ops : List Op := [.write [0x20, 0x5B, 0x6E, 0x75] (.split 1), .receive,
      .write [0x6C, 0x6C, 0x20, 0x5D] (.split 2), .receive]
    ∃ new, (outcome .accepting (ops ++ [.close])
          (s.configure limits false ⟨16, by decide⟩)).2.parser.calls = s.parser.calls ++ new ∧
      explode (new.map Call.event) =
        [.whitespace [' '], .startArray, .nullValue, .whitespace [' '], .endArray] := by
  intro s limits ops
  have hs : s.AtStart .accepting := Session.new_atStart ..
  have hp : Parts (offered ops) ⟨[0x20], isWs_of_mem_space⟩ spacedTree ⟨[], isWs_of_mem_nil⟩ :=
    ⟨[], .inl rfl, rfl⟩
  have hops : ∀ op ∈ ops, op.Presents := by simp [ops, Op.Presents]
  have hfits : Fits .accepting ops (s.configure limits false ⟨16, by decide⟩) :=
    fits_of_length _ hops (Session.new_inv 64 (.split 0) limits false ⟨16, by decide⟩) (by decide)
  obtain ⟨-, new, hcalls, hiff, hall, -⟩ := callbacks_exact hs (fun _ => rfl) limits false
    ⟨16, by decide⟩ hp (by simp [spacedTree, Tree.keys, Tree.keysRest]) hops rfl hfits
    (.inl (by decide))
  exact ⟨new, hcalls, hall (hiff.mpr ⟨⟨rfl, rfl, by decide, by decide, by decide⟩, by simp, rfl⟩)⟩

/-- What is within the limits is within looser ones. -/
structure Looser (limits limits' : ParserLimits) : Prop where
  nestingDepth : ∀ k, exceeds limits.maxNestingDepth k = false →
    exceeds limits'.maxNestingDepth k = false
  stringLength : ∀ k, exceeds limits.maxStringLength k = false →
    exceeds limits'.maxStringLength k = false
  nameLength : ∀ k, exceeds limits.maxNameLength k = false → exceeds limits'.maxNameLength k = false
  numberLength : ∀ k, exceeds limits.maxNumberLength k = false →
    exceeds limits'.maxNumberLength k = false
  tokenCount : ∀ k, exceeds limits.maxTokenCount k = false → exceeds limits'.maxTokenCount k = false
  documentLength : ∀ k, exceeds limits.maxDocumentLength k = false →
    exceeds limits'.maxDocumentLength k = false

omit [Double F] in
/-- What fits the limits fits looser ones. -/
theorem Measure.Fits.loosened {limits limits' : ParserLimits} {n d : Nat} {m : Measure}
    (h : m.Fits limits n d) (hl : Looser limits limits') : m.Fits limits' n d where
  tokens := hl.tokenCount _ h.tokens
  depth := hl.nestingDepth _ h.depth
  strings k hk := hl.stringLength k (h.strings k hk)
  names k hk := hl.nameLength k (h.names k hk)
  numbers k hk := (h.numbers k hk).imp_right (hl.numberLength k)

/-- Where all steps succeed the machine accepts what was offered. -/
theorem reads_ends_of_ok {km : Nat} {s₀ s' : Session F} {stream : List UInt8}
    {new : List (Call F)} (hr : s₀.Reads km h s stream new) (hops : ∀ op ∈ ops, op.Presents)
    (hfits : Fits h ops s) (hok : run h (ops ++ [.close]) s = .ok () s') :
    ∃ os : List (Mark F),
      Ends s₀.parser.limits (s₀.parser.core h) (stream ++ offered ops) true os := by
  induction ops generalizing s stream new with
  | nil =>
    have hclose := hr.close
    rw [List.nil_append, run_close] at hok
    rw [ensures_ok hok] at hclose
    obtain ⟨-, -, more, -, -, -, hends⟩ := hclose
    exact ⟨_, by rwa [offered, List.append_nil]⟩
  | cons op ops ih =>
    have ih' {s : Session F} {stream : List UInt8} {new : List (Call F)}
        (hr : s₀.Reads km h s stream new) :=
      ih hr fun op hop => hops op (List.mem_cons_of_mem _ hop)
    rw [List.cons_append, run_cons] at hok
    cases op with
    | write bytes layout =>
      obtain ⟨hlen, hfits⟩ := hfits
      have hw := hr.write bytes layout
      rw [List.take_of_length_le hlen] at hw
      rw [offered, ← List.append_assoc]
      exact ih' hw hfits hok
    | receive =>
      have hreceive := hr.receive
      cases hx : Parser.receive h s with
      | ok a s₁ =>
        rw [show (Op.receive).exec h s = .ok a s₁ from hx] at hok
        rw [ensures_ok hx] at hreceive
        obtain ⟨-, -, -, more, hr₁, -⟩ := hreceive
        exact ih' hr₁ (hfits s₁ hx) hok
      | error e s₁ =>
        rw [show (Op.receive).exec h s = .error e s₁ from hx] at hok
        cases hok
    | close | ring | reset | setLimits | setRejectDuplicateKeys | setStringChunkSize =>
      exact False.elim (hops _ List.mem_cons_self)

/-- What is accepted, however it arrives, is a document of the grammar. -/
theorem Session.AtStart.document_of_ok (hs : s.AtStart h) (hops : ∀ op ∈ ops, op.Presents)
    (hfits : Fits h ops s) (hok : (outcome h (ops ++ [.close]) s).1 = .ok ()) :
    ∃ t, Document (offered ops) t := by
  obtain ⟨km, hi⟩ := hs.reachable.inv
  unfold outcome at hok
  cases hx : RJsonParser.run h (ops ++ [.close]) s with
  | error e s' =>
    rw [hx] at hok
    cases hok
  | ok a s' =>
    obtain ⟨os, hends⟩ := reads_ends_of_ok (hs.reads hi) hops hfits hx
    rw [hs.core, List.nil_append] at hends
    exact hends.document (Core.start_starts _ _) rfl

/-- **Looser settings reject no more.** What is accepted under some limits is accepted under looser
ones, with duplicate keys allowed or not looked for, with other chunk sizes that hold the keys and
in whatever other chunks, and what is called back is the same but for the pieces it comes in. -/
theorem settings_loosened (hs : s.AtStart h) (hh : h.NeverErrs) {limits limits' : ParserLimits}
    (hlimits : Looser limits limits') {reject reject' : Bool} (hreject : reject' = true →
      reject = true)
    (n n' : ChunkSize) (hkeys : ∀ t, Document l t → ∀ k ∈ t.keys, byteLen k.text ≤ n)
    (hkeys' : ∀ t, Document l t → ∀ k ∈ t.keys, byteLen k.text ≤ n')
    (hring : ∀ t, Document l t → RingHolds s.buf.capacity l t)
    (hops : ∀ op ∈ ops, op.Presents) (hl : offered ops = l)
    (hfits : Fits h ops (s.configure limits reject n)) (hops' : ∀ op ∈ ops', op.Presents)
    (hl' : offered ops' = l) (hfits' : Fits h ops' (s.configure limits' reject' n')) :
    let r := outcome h (ops ++ [.close]) (s.configure limits reject n)
    let r' := outcome h (ops' ++ [.close]) (s.configure limits' reject' n')
    r.1 = .ok () → r'.1 = .ok () ∧ ∃ new new', r.2.parser.calls = s.parser.calls ++ new ∧
      r'.2.parser.calls = s.parser.calls ++ new' ∧
      explode (new'.map Call.event) = explode (new.map Call.event) := by
  intro r r' hok
  obtain ⟨t, ht⟩ : ∃ t, Document l t := by
    rw [← hl]
    exact (hs.configure limits reject n).document_of_ok hops hfits hok
  obtain ⟨before, after, hp⟩ := document_iff_parts.mp ht
  obtain ⟨-, new, hcalls, hiff, hall, -⟩ :=
    callbacks_exact hs hh limits reject n hp (hkeys t ht) hops hl hfits (hring t ht)
  obtain ⟨-, new', hcalls', hiff', hall', -⟩ :=
    callbacks_exact hs hh limits' reject' n' hp (hkeys' t ht) hops' hl' hfits' (hring t ht)
  obtain ⟨hsizes, hdistinct, hlength⟩ := hiff.mp hok
  have hok' : r'.1 = .ok () := hiff'.mpr ⟨hsizes.loosened hlimits,
    fun hr => hdistinct (hreject hr), hlimits.documentLength _ hlength⟩
  exact ⟨hok', new, new', hcalls, hcalls', (hall' hok').trans (hall hok).symm⟩

/-- ` [null ]` with a limit of one container, and in one chunk where nothing is limited. -/
theorem settings_loosened_spaced :
    let s : Session Rat := .new 64 (.split 0)
    let limits : ParserLimits := { ParserLimits.unlimited with maxNestingDepth := some 1 }
    let l : List UInt8 := [0x20, 0x5B, 0x6E, 0x75, 0x6C, 0x6C, 0x20, 0x5D]
    let n : ChunkSize := ⟨16, by decide⟩
    (outcome .accepting ([.write [] (.split 5), .write l (.split 2), .receive] ++ [.close])
        (s.configure limits true n)).1 = .ok () ∧
      (outcome .accepting ([.write l (.split 0), .receive] ++ [.close])
        (s.configure .unlimited false n)).1 = .ok () := by
  intro s limits l n
  have hs : s.AtStart .accepting := Session.new_atStart ..
  have hkeys : ∀ t, Document l t → ∀ k ∈ t.keys, byteLen k.text ≤ 16 := fun t ht k hk =>
    (ht.byteLen_key hk).trans (by decide)
  have hops : ∀ op ∈ ([.write l (.split 0), .receive] : List Op), op.Presents := by
    simp [Op.Presents]
  have hops' : ∀ op ∈ ([.write [] (.split 5), .write l (.split 2), .receive] : List Op),
      op.Presents := by simp [Op.Presents]
  have hloose : Looser limits .unlimited :=
    ⟨fun _ _ => rfl, fun _ h => h, fun _ h => h, fun _ h => h, fun _ h => h, fun _ h => h⟩
  have hok : (outcome .accepting ([.write [] (.split 5), .write l (.split 2), .receive] ++ [.close])
      (s.configure limits true n)).1 = .ok () := by decide +kernel
  have hfits : Fits .accepting _ (s.configure limits true n) :=
    fits_of_length _ hops' (Session.new_inv 64 (.split 0) limits true n) (by decide)
  have hfits' : Fits .accepting _ (s.configure .unlimited false n) :=
    fits_of_length _ hops (Session.new_inv 64 (.split 0) .unlimited false n) (by decide)
  exact ⟨hok, (settings_loosened hs (fun _ => rfl) hloose (fun h => by cases h) n n hkeys hkeys
    (fun _ _ => .inl (by decide)) hops' (by simp [offered]) hfits hops rfl hfits' hok).1⟩

end Sessions

end RJsonParser
