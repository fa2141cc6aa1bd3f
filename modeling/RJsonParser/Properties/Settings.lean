import RJsonParser.Properties.Limits

/-!
# Documents under limits

What becomes of a document of the grammar when there are limits, or duplicate keys are rejected.

* `ends_of_lexes` — a list of lexemes is accepted if all are allowed
* `Document.verdict` — a document is accepted if its sizes are within the limits and no object has a
  key twice
* `Session.AtStart.document` — so it is in a session, on a ring that holds its keys
-/

namespace RJsonParser

open Infra Infra.Utf8

variable {F : Type} [Double F]

/-! ## The verdict on some lexemes -/

section Verdicts

variable {limits limits' : ParserLimits} {c c' : Core} {xs : List Lexeme} {l rest : List UInt8}
  {os : List (Mark F)}

/-- Where not all lexemes are allowed there is a first that is not. -/
theorem exists_refused (h : ¬ c.AllowsAll limits xs) : ∃ pre x post, xs = pre ++ x :: post ∧
    c.AllowsAll limits pre ∧ (c.run limits pre).allows limits x = false := by
  induction xs generalizing c with
  | nil => exact absurd trivial h
  | cons x xs ih =>
    by_cases hx : c.allows limits x = true
    · obtain ⟨pre, y, post, rfl, hpre, hy⟩ := ih fun ha => h ⟨hx, ha⟩
      exact ⟨x :: pre, y, post, rfl, ⟨hx, hpre⟩, hy⟩
    · exact ⟨[], x, xs, rfl, trivial, by simpa using hx⟩

/-- Some lexemes that are all allowed. -/
theorem ends_of_allowed (h : c.Lexes limits xs []) (ha : c.AllowsAll limits xs)
    (hb : (c.run limits xs).Between) : Ends (F := F) limits c (bytesOf xs)
      (c.run limits xs).complete (c.putsAll limits xs) := by
  have := Ends.of_lexes (F := F) h ha (ends_nil.mpr ⟨rfl, rfl⟩)
  rwa [ending_outside hb.outside hb.noNumber, List.append_nil, List.append_nil] at this

/-- Some lexemes of which one is not allowed. -/
theorem ends_of_refused (h : c.Lexes limits xs []) (ha : ¬ c.AllowsAll limits xs) :
    ∃ pre x post out, xs = pre ++ x :: post ∧ c.AllowsAll limits pre ∧
      (c.run limits pre).allows limits x = false ∧
      out <+: (c.run limits pre).puts (F := F) limits x ∧
      (((c.run limits pre).within limits x && (c.run limits pre).novel x) = false → out = []) ∧
      Ends limits c (bytesOf xs) false (c.putsAll limits pre ++ out) := by
  obtain ⟨pre, x, post, rfl, hpre, hx⟩ := exists_refused ha
  obtain ⟨hl, hlx, -⟩ := Core.lexes_append.mp h
  rw [List.append_nil] at hl hlx
  rw [bytesOf_cons] at hl hlx
  have hne : x.bytes ++ bytesOf post ≠ [] := by
    intro hnil
    rw [hnil] at hlx
    obtain ⟨rfl, -⟩ := Core.lex_nil hlx
    cases hx
  obtain ⟨out, hout, hquiet, he⟩ := Ends.of_refused (F := F) hl hpre hne hlx hx
  refine ⟨pre, x, post, out, rfl, hpre, hx, hout, hquiet, ?_⟩
  rwa [bytesOf_append, bytesOf_cons]

/-- **Some lexemes are accepted** if all are allowed. -/
theorem ends_of_lexes (h : c.Lexes limits xs []) (hb : (c.run limits xs).Between)
    (hc : (c.run limits xs).complete = true) :
    (∃ os : List (Mark F), Ends limits c (bytesOf xs) true os) ↔ c.AllowsAll limits xs := by
  constructor
  · rintro ⟨os, he⟩
    by_contra ha
    obtain ⟨_, _, _, _, _, _, _, _, _, he'⟩ := ends_of_refused (F := F) h ha
    exact absurd (he.unique he').1 (by simp)
  · intro ha
    have := ends_of_allowed (F := F) h ha hb
    rw [hc] at this
    exact ⟨_, this⟩

theorem run_seenAny (xs : List Lexeme) : (c.run limits xs).seenAny =
    (c.seenAny || xs.any Lexeme.isToken) := by
  induction xs generalizing c with
  | nil => simp
  | cons x xs ih =>
    have hx : (c.after limits x).seenAny = (c.seenAny || x.isToken) := by
      cases x with
      | space b => rw [Core.after_space]; simp [Lexeme.isToken]
      | digit b => rw [Core.after_digit]; simp [Lexeme.isToken]
      | _ => simp [Core.after, Core.count, Lexeme.isToken, Core.settled, Core.endNumber,
          Core.inContent, Core.move, Core.endString]
    rw [Core.run_cons, ih, hx, List.any_cons, Bool.or_assoc]

/-- A tree starts with a token. -/
theorem Tree.any_isToken (t : Tree) : t.lexemes.any Lexeme.isToken = true := by
  cases t with
  | number n =>
    obtain ⟨n, hn⟩ := n
    cases n with
    | nil => exact absurd hn not_isNumber_nil
    | cons b l => rfl
  | _ => rfl

theorem any_visible (xs : List Lexeme) :
    (visible xs).any Lexeme.isToken = xs.any Lexeme.isToken := by
  induction xs with
  | nil => rfl
  | cons x xs ih =>
    by_cases hx : x = .settle
    · subst hx
      rw [visible_settle, ih]
      rfl
    · rw [visible_cons hx, List.any_cons, List.any_cons, ih]

/-- **The machine finds the lexemes `xs` of the document `l`**, whose tree is `t`. -/
structure Core.Finds (limits : ParserLimits) (c : Core) (l : List UInt8) (t : Tree)
    (xs : List Lexeme) : Prop where
  bytes : l = bytesOf xs
  lexes : c.Lexes limits xs []
  between : (c.run limits xs).Between
  complete : (c.run limits xs).complete = true
  visible_eq : ∃ bom before after, visible xs = documentLexemes bom before t after

/-- **A document of the grammar** is found with any limits. -/
theorem Document.finds {t : Tree} (limits : ParserLimits) (h : Document l t) (hc : c.Starts) :
    ∃ xs, c.Finds limits l t xs := by
  obtain ⟨bom, before, after, rfl, c', ⟨xs, hvis, hlex, rfl⟩, hst⟩ := h.over limits hc
  refine ⟨xs, by rw [← hvis, bytesOf_visible], hlex, hst.toBetween, ?_, bom, before, after, hvis⟩
  have hany : xs.any Lexeme.isToken = true := by
    rw [← any_visible, hvis, documentLexemes, List.any_cons, List.any_append, List.any_append,
      t.any_isToken]
    simp
  rw [Core.complete, run_seenAny, hany, hst.context]
  simp

theorem Core.Finds.allowsAll {t : Tree} (h : c.Finds limits l t xs) (hc : c.Starts)
    (hn : c.tokenCount = 0) : c.AllowsAll limits xs ↔
      t.measure.Fits limits 0 0 ∧ (c.rejectDuplicateKeys = true → t.distinct = true) := by
  obtain ⟨bom, before, after, hvis⟩ := h.visible_eq
  rw [allowsAll_iff, always_visible (bounded_unplaced limits) (fun _ => rfl) rfl, hvis,
    document_bounded bom before t after hn hc.context]
  refine and_congr_right fun _ => ?_
  rw [always_visible novel_unplaced (fun _ => rfl) (show c.unplaced = c.unplaced from rfl), hvis]
  cases hr : c.rejectDuplicateKeys with
  | false => exact iff_of_true (novel_off hr _) (by simp)
  | true => rw [document_novel bom before t after hr]; simp

/-- **A document of the grammar is accepted** if its sizes are within the limits and no object has a
key twice, where that is looked for. -/
theorem Document.verdict {t : Tree} (h : Document l t) (hc : c.Starts) (hn : c.tokenCount = 0) :
    (∃ os : List (Mark F), Ends limits c l true os) ↔
      t.measure.Fits limits 0 0 ∧ (c.rejectDuplicateKeys = true → t.distinct = true) := by
  obtain ⟨xs, hf⟩ := h.finds limits hc
  rw [← hf.allowsAll hc hn, hf.bytes]
  exact ends_of_lexes hf.lexes hf.between hf.complete

/-- The byte order mark is looked for first. -/
theorem run_bomChecked (h : c.Lexes limits xs rest) (hx : xs ≠ []) :
    (c.run limits xs).bomChecked = true := by
  have keep (xs : List Lexeme) : ∀ {c : Core}, c.bomChecked = true →
      (c.run limits xs).bomChecked = true := by
    induction xs with
    | nil => exact fun h => h
    | cons x xs ih => exact fun h => ih (Core.after_bomChecked h)
  cases xs with
  | nil => exact absurd rfl hx
  | cons x xs =>
    refine keep xs ?_
    by_cases hb : c.bomChecked = true
    · exact Core.after_bomChecked hb
    · have hlex := h.1
      generalize bytesOf (x :: xs) ++ rest = l at hlex
      unfold Core.lex at hlex
      rw [if_pos (by simpa using hb)] at hlex
      split at hlex
      · cases hlex
        rfl
      · cases hlex

/-- What is accepted under some settings is a document of the grammar. -/
theorem Ends.document {os : List (Mark F)} (h : Ends limits c l true os) (hc : c.Starts)
    (hseen : c.seenAny = false) : ∃ t, Document l t := by
  obtain ⟨xs, rfl, hlex, -, -, hstring, hnumber, hcomplete⟩ := h.lexes hc.begun
  set c₀ : Core := { c with rejectDuplicateKeys := false } with hc₀
  have hunset : c.unset = c₀.unset := rfl
  have hfresh : c₀.Fresh :=
    ⟨hc.bom, hc.outside, hc.noNumber, hc.state, hc.context, hc.comma, hseen, rfl⟩
  have hrun : (c.run limits xs).unset = (c₀.run .unlimited xs).unset := run_unset hunset xs
  have hne : xs ≠ [] := by
    rintro rfl
    rw [Core.run_nil, Core.complete, hseen] at hcomplete
    cases hcomplete
  have hbetween : (c₀.run .unlimited xs).Between := by
    have hbom := run_bomChecked hlex hne
    exact ⟨(congrArg Core.bomChecked hrun).symm.trans hbom,
      (congrArg Core.inString hrun).symm.trans hstring,
      (congrArg (fun c => c.number.stage) hrun).symm.trans hnumber⟩
  have hcomplete' : (c₀.run .unlimited xs).complete = true :=
    (congrArg Core.complete hrun).symm.trans hcomplete
  have hall : c₀.AllowsAll .unlimited xs :=
    allowsAll_iff.mpr ⟨unlimited_bounded c₀ xs, novel_off rfl xs⟩
  obtain ⟨os', he⟩ := (ends_of_lexes (F := F) ((lexes_unset hunset).mp hlex) hbetween
    hcomplete').mpr hall
  exact (accepts_iff_document hfresh).mp ⟨_, os', he, rfl⟩

end Verdicts

/-! ## The keys of a document -/

section Keys

variable {limits : ParserLimits} {c c' : Core} {l l' : List UInt8} {t : Tree} {xs : List Lexeme}
  {os : List (Mark F)} {raw : List UInt8} {text : Text}

/-- The key that a lexeme is. -/
def Lexeme.key? : Lexeme → Option (List UInt8 × Text)
  | .key raw text => some (raw, text)
  | _ => none

omit [Double F] in
theorem keys_of_quiet {ys : List Lexeme} (h : ∀ x ∈ ys, x.isQuiet = true) :
    ys.filterMap Lexeme.key? = [] := by
  refine List.filterMap_eq_nil_iff.mpr fun x hx => ?_
  have hq := h x hx
  cases x <;> first | rfl | cases hq

omit [Double F] in
@[simp] theorem keys_ws (w : Ws) : (wsLexemes w).filterMap Lexeme.key? = [] :=
  keys_of_quiet fun _ hx => quiet_ws hx

omit [Double F] in
@[simp] theorem keys_label (label : Ws × RawString × Ws) :
    (labelLexemes label).filterMap Lexeme.key? = [(label.2.1.raw, label.2.1.text)] := by
  simp [labelLexemes, List.filterMap_cons, Lexeme.key?]

mutual

/-- The keys among the lexemes of a tree are the keys of the tree. -/
theorem Tree.keys_lexemes : ∀ t : Tree,
    t.lexemes.filterMap Lexeme.key? = t.keys.map fun k => (k.raw, k.text)
  | .null => rfl
  | .boolean _ => rfl
  | .number _ => keys_of_quiet fun _ hx => quiet_number hx
  | .string _ => keys_of_quiet fun _ hx => quiet_string hx
  | .emptyArray _ => by simp [Tree.lexemes, Tree.keys, List.filterMap_cons, Lexeme.key?]
  | .emptyObject _ => by simp [Tree.lexemes, Tree.keys, List.filterMap_cons, Lexeme.key?]
  | .array (_, t, _) rest => by
    simp [Tree.lexemes, Tree.itemLexemes, Tree.keys, List.filterMap_cons, Lexeme.key?,
      Tree.keys_lexemes t, Tree.keys_rest rest]
  | .object (label, _, t, _) rest => by
    simp [Tree.lexemes, Tree.memberLexemes, Tree.keys, List.filterMap_cons, Lexeme.key?,
      Tree.keys_lexemes t, Tree.keys_members rest]

theorem Tree.keys_rest : ∀ rest : List (Ws × Tree × Ws),
    (restLexemes rest).filterMap Lexeme.key? = (keysRest rest).map fun k => (k.raw, k.text)
  | [] => rfl
  | (_, t, _) :: rest => by
    simp [restLexemes, itemLexemes, keysRest, List.filterMap_cons, Lexeme.key?,
      Tree.keys_lexemes t, Tree.keys_rest rest]

theorem Tree.keys_members : ∀ rest : List ((Ws × RawString × Ws) × Ws × Tree × Ws),
    (membersLexemes rest).filterMap Lexeme.key? = (keysMembers rest).map fun k => (k.raw, k.text)
  | [] => rfl
  | (label, _, t, _) :: rest => by
    simp [membersLexemes, memberLexemes, keysMembers, List.filterMap_cons, Lexeme.key?,
      Tree.keys_lexemes t, Tree.keys_members rest]

end

/-- The keys among the lexemes of a document are those of its tree. -/
theorem Core.Finds.mem_keys (h : c.Finds limits l t xs) :
    .key raw text ∈ xs ↔ ∃ k ∈ t.keys, k.raw = raw ∧ k.text = text := by
  obtain ⟨bom, before, after, hvis⟩ := h.visible_eq
  have hkeys : (visible xs).filterMap Lexeme.key? = t.keys.map fun k => (k.raw, k.text) := by
    rw [hvis]
    simp [documentLexemes, List.filterMap_cons, Lexeme.key?, t.keys_lexemes]
  have hmem : .key raw text ∈ xs ↔ (raw, text) ∈ (visible xs).filterMap Lexeme.key? := by
    rw [List.mem_filterMap]
    constructor
    · intro hx
      exact ⟨.key raw text, List.mem_filter.mpr ⟨hx, by simp⟩, rfl⟩
    · rintro ⟨x, hx, hk⟩
      cases x <;> cases hk
      exact (List.mem_filter.mp hx).1
  rw [hmem, hkeys, List.mem_map]
  simp

/-- **Where the machine comes to a key** in a document there is one of its keys. -/
theorem Core.Finds.key (h : c.Finds limits l t xs)
    (hs : (machine F limits).Steps c l os c' l') (hb : c'.Between) (hst : c'.state = .expectKey)
    {r : List UInt8} (hl : l' = quote :: r) :
    ∃ k ∈ t.keys, ∃ r', r = k.raw ++ quote :: r' := by
  obtain ⟨ys, heq, rfl, -, hlex, -⟩ := lexes_of_steps hs
  have hbytes : bytesOf ys ++ l' = bytesOf xs ++ [] := by rw [← heq, h.bytes, List.append_nil]
  obtain ⟨zs, rfl⟩ : ∃ zs, xs = ys ++ zs := by
    rcases Core.lexes_linear hlex h.lexes hbytes with hz | ⟨zs, rfl⟩
    · exact hz
    · rw [bytesOf_append, List.append_nil, List.append_assoc, List.append_right_eq_self,
        List.append_eq_nil_iff, hl] at hbytes
      cases hbytes.2
  rw [bytesOf_append, List.append_nil, List.append_cancel_left_eq] at hbytes
  have hzs := (Core.lexes_append.mp h.lexes).2
  -- the lexeme there is the key, or the end of a line break before it
  have key {c : Core} (hb : c.Between) (hst : c.state = .expectKey) (hcr : c.pos.afterCr = false)
      {zs : List Lexeme} (hzs : c.Lexes limits zs []) (hbytes : l' = bytesOf zs) :
      ∃ raw text, .key raw text ∈ zs ∧ ∃ r', r = raw ++ quote :: r' := by
    cases zs with
    | nil => rw [hl] at hbytes; cases hbytes
    | cons z zs =>
      have hz := hzs.1
      rw [List.append_nil, ← hbytes, hl, hb.lex, Core.lexOuter] at hz
      rw [show isWs quote = false from rfl, hcr, Core.lexToken] at hz
      simp only [show tokenKind quote = .quote from rfl, hst, Bool.false_eq_true, if_false] at hz
      unfold lexKey at hz
      split at hz
      · obtain ⟨text, -, rfl⟩ := Option.map_eq_some_iff.mp hz
        refine ⟨_, text, List.mem_cons_self, bytesOf zs, ?_⟩
        rw [hl] at hbytes
        simpa [Lexeme.bytes] using hbytes
      · cases hz
  obtain ⟨raw, text, hmem, r', hr⟩ : ∃ raw text, .key raw text ∈ zs ∧
    ∃ r', r = raw ++ quote :: r' := by
    by_cases hcr : (c.run limits ys).pos.afterCr = true
    · cases zs with
      | nil => rw [hl] at hbytes; cases hbytes
      | cons z zs =>
        have hz := hzs.1
        rw [List.append_nil, ← hbytes, hl, hb.lex, Core.lexOuter] at hz
        rw [show isWs quote = false from rfl, hcr] at hz
        simp only [Bool.false_eq_true, if_false, if_true, Option.some.injEq] at hz
        subst hz
        obtain ⟨raw, text, hmem, hr⟩ := key (c := (c.run limits ys).settled)
          ⟨hb.bom, hb.outside, hb.noNumber⟩ hst rfl hzs.2 hbytes
        exact ⟨raw, text, List.mem_cons_of_mem _ hmem, hr⟩
    · exact key hb hst (by simpa using hcr) hzs hbytes
  obtain ⟨k, hk, rfl, -⟩ := h.mem_keys.mp (List.mem_append_right _ hmem)
  exact ⟨k, hk, r', hr⟩

end Keys

/-! ## Sessions -/

section Sessions

variable {h : Handler F} {s : Session F} {l : List UInt8} {t : Tree} {km : Nat}

/-- A ring of `capacity` bytes holds the document `l`, or 12 bytes and each of its keys in
quotes. -/
def RingHolds (capacity : Nat) (l : List UInt8) (t : Tree) : Prop :=
  l.length ≤ capacity ∨ 12 ≤ capacity ∧ ∀ k ∈ t.keys, k.raw.length + 2 ≤ capacity

/-- The front of a key that has a closing quote. -/
theorem keyFront_raw (k : RawString) (limit : Option Nat) (r : List UInt8) :
    keyFront limit 0 (k.raw ++ quote :: r) =
      if exceeds limit k.raw.length then .bad else .found k.raw.length := by
  refine keyFront_limit limit ?_
  rcases keyFront_closed (closed_of_decodeString k.denotes) 0 r with hf | ⟨-, hn⟩
  · rwa [Nat.zero_add] at hf
  · exact absurd (scanned_of_decodeString k.denotes) hn

/-- The keys of a document are those that a session comes to. -/
theorem Document.keysFit (ht : Document l t) (hc : (s.parser.core h).Starts) {n : Nat}
    (hn : ∀ k ∈ t.keys, byteLen k.text ≤ n) : s.KeysFit h l n := by
  obtain ⟨xs, hf⟩ := ht.finds s.parser.limits hc
  rintro os ⟨c', l', key, hs, ⟨⟨hb, ho, hnum⟩, hst, r, m, hl, hfront, hd⟩, hlt⟩
  obtain ⟨k, hk, r', rfl⟩ := hf.key hs ⟨hb, ho, hnum⟩ hst hl
  rw [keyFront_raw] at hfront
  split at hfront <;> cases hfront
  rw [List.take_left, k.denotes] at hd
  cases hd
  have := hn k hk
  omega

/-- **A ring that holds the keys of a document has room.** -/
theorem Document.roomy (ht : Document l t) (hc : (s.parser.core h).Starts) {capacity : Nat}
    (hring : RingHolds capacity l t) : s.Roomy h l capacity := by
  rcases hring with hlen | ⟨h12, hkeys⟩
  · exact Session.roomy_of_length hlen
  obtain ⟨xs, hf⟩ := ht.finds s.parser.limits hc
  rintro stream rest os c left rfl hs hbom hleft hne hfull
  refine absurd hfull (Nat.ne_of_lt ?_)
  cases hleft with
  | nothing hl => exact absurd hl hne
  | cutOff hin hcut => exact lt_of_le_of_lt hcut.length_le (by omega)
  | need hneed =>
    rcases Core.next_need hneed with hl | ⟨-, hb⟩ | ⟨-, -, hcut | ⟨-, hlen⟩⟩ | ⟨hb, ho, hnum, hun⟩
    · exact absurd hl hne
    · exact lt_of_le_of_lt (bomFront_need hb).length_le (by omega)
    · exact lt_of_le_of_lt hcut.length_le (by omega)
    · omega
    · cases hun with
      | literal word mem front lt =>
        have : word.length ≤ 5 := by
          simp only [literals, List.mem_cons, List.not_mem_nil, or_false] at mem
          rcases mem with rfl | rfl | rfl <;> simp
        omega
      | key r hl hst hscan =>
        -- the key has its closing quote in the document, which is not in the ring
        subst hl
        obtain ⟨k, hk, r', hr⟩ := hf.key (hs.append rest) ⟨hb, ho, hnum⟩ hst (List.cons_append ..)
        have hcap := hkeys k hk
        by_contra hlong
        rw [List.length_cons] at hlong
        have hpre : k.raw ++ [quote] <+: r := by
          have hpre : k.raw ++ [quote] <+: r ++ rest := ⟨r', by rw [hr]; simp⟩
          refine List.prefix_of_prefix_length_le hpre (List.prefix_append ..) ?_
          rw [List.length_append, List.length_singleton]
          omega
        obtain ⟨r'', rfl⟩ := hpre
        rw [List.append_assoc, List.singleton_append, keyFront_raw] at hscan
        split at hscan <;> cases hscan

/-- **What becomes of a document of the grammar**, on a ring that holds its keys. -/
theorem Session.AtStart.document (hs : s.AtStart h) (hi : s.parser.Inv km) (hh : h.NeverErrs)
    (ht : Document l t) {ops : List Op} (hops : ∀ op ∈ ops, op.Presents) (hl : offered ops = l)
    (hfits : Fits h ops s) (hring : RingHolds s.buf.capacity l t)
    (hkeys : ∀ k ∈ t.keys, byteLen k.text ≤ s.parser.stringChunkSize) :
    ∃ new, s.Called km (outcome h (ops ++ [.close]) s).2 new ∧
      Comes h s l new (outcome h (ops ++ [.close]) s).1 ∧
      ((outcome h (ops ++ [.close]) s).1 = .ok () ↔
        t.measure.Fits s.parser.limits 0 0 ∧
          (s.parser.rejectDuplicateKeys = true → t.distinct = true) ∧
          exceeds s.parser.limits.maxDocumentLength l.length = false) := by
  have hcore : (s.parser.core h).Starts := by
    rw [hs.core]
    exact Core.start_starts _ _
  have hn : (s.parser.core h).tokenCount = 0 := by rw [hs.core]; rfl
  have hr : (s.parser.core h).rejectDuplicateKeys = s.parser.rejectDuplicateKeys := by
    rw [hs.core]
    rfl
  have hroom : s.Roomy h (offered ops) s.buf.capacity := hl ▸ ht.roomy hcore hring
  obtain ⟨new, hcalled, hcomes⟩ := hs.comes hi hh hops hfits hroom
  rw [hl] at hcomes
  refine ⟨new, hcalled, hcomes, ?_⟩
  have hverdict : (∃ os : List (Mark F), Ends s.parser.limits (s.parser.core h) l true os) ↔ _ :=
    ht.verdict hcore hn
  rw [hr] at hverdict
  generalize (outcome h (ops ++ [.close]) s).1 = result at hcomes ⊢
  cases hcomes with
  | accepted ends fits =>
    obtain ⟨h1, h2⟩ := hverdict.mp ⟨_, ends⟩
    exact iff_of_true rfl ⟨h1, h2, fits⟩
  | rejected os ends told =>
    refine iff_of_false (by simp) fun hall => ?_
    obtain ⟨os', ends'⟩ := hverdict.mpr ⟨hall.1, hall.2.1⟩
    cases (ends.unique ends').1
  | tooLong long => exact iff_of_false (by simp) fun hall => by rw [hall.2.2] at long; cases long
  | longKey os long told => exact absurd long (ht.keysFit hcore hkeys os)

end Sessions

/-! ## What is called back -/

section Called

variable {limits : ParserLimits} {c : Core} {xs ys : List Lexeme} {os : List (Mark F)}

/-- The keys of a lexeme are new to their objects, and no others are. -/
theorem keysApart_puts (hr : c.rejectDuplicateKeys = true) {x : Lexeme} (hn : c.novel x = true)
    (es : List (Event F)) :
    keysApart c.seen (eventsOf (c.puts limits x) ++ es) = keysApart (c.after limits x).seen es := by
  cases x with
  | space b =>
    rw [Core.after_space]
    show keysApart c.seen (eventsOf (if c.needsWhitespace = true then _ else []) ++ es) = _
    split
    · cases hs : c.seen <;> rfl
    · rfl
  | digit b =>
    rw [Core.after_digit]
    rfl
  | opening context =>
    have hseen : (c.after limits (.opening context)).seen =
        if context = .object ∧ c.rejectDuplicateKeys then [] :: c.seen else c.seen := rfl
    rw [hseen, hr]
    cases context <;> cases hs : c.seen <;> rfl
  | closing context =>
    have hseen : (c.after limits (.closing context)).seen =
        if context = .object ∧ c.rejectDuplicateKeys then c.seen.tail else c.seen := rfl
    rw [hseen, hr]
    cases context <;> cases hs : c.seen <;> rfl
  | key raw text =>
    have hseen : (c.after limits (.key raw text)).seen = noteAll [text] c.seen := by
      show (c.note text).seen = _
      rw [Core.note, hr]
      cases c.seen <;> rfl
    rw [hseen]
    simp only [Core.novel, Core.isDuplicate, hr, Bool.true_and] at hn
    cases hs : c.seen with
    | nil => rfl
    | cons s rest =>
      rw [hs] at hn
      show (decide (text ∉ s) && keysApart _ es) = _
      have hout : text ∉ s := by simpa using hn
      rw [decide_eq_true hout, Bool.true_and]
      rfl
  | mark | settle | comma | colon | startNumber => rfl
  | literal value =>
    show keysApart c.seen _ = keysApart c.seen es
    rcases value with - | - | - <;> cases c.seen <;> rfl
  | endNumber | startString | char | endString =>
    show keysApart c.seen _ = keysApart c.seen es
    cases c.seen <;> rfl

/-- Where no key is refused no object has one twice in what is put out. -/
theorem keysApart_putsAll (hr : c.rejectDuplicateKeys = true)
    (ha : c.Always limits Core.novel xs) :
    keysApart c.seen (eventsOf (c.putsAll (F := F) limits xs)) = true := by
  induction xs generalizing c with
  | nil => cases c.seen <;> rfl
  | cons x xs ih =>
    rw [Core.putsAll, eventsOf_append, keysApart_puts hr ha.1]
    exact ih ((run_rejects limits c [x]).trans hr) ha.2

end Called

end RJsonParser
