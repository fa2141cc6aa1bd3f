import RJsonParser.Properties.Exact

/-!
# Number tokens

The numbers of a stream as they stand there, and the numbers that are called back.

* `numbers` — the texts of the numbers that end among some lexemes
* `numbers_puts` — each is put out with the value that `NumberState` makes of it
* `number_limit_exact` — how exact the limit on the length of numbers is
-/

namespace RJsonParser

open Infra Infra.Utf8

variable {F : Type}

/-! ## The numbers among some lexemes -/

/-- The text of the number that a lexeme leaves in progress, `acc` being there before it. -/
def pending (acc : List UInt8) : Lexeme → List UInt8
  | .startNumber b => [b]
  | .digit b => acc ++ [b]
  | _ => acc

/-- The texts of the numbers that end among some lexemes, `acc` being in progress before them. -/
def numbers : List UInt8 → List Lexeme → List (List UInt8)
  | _, [] => []
  | acc, .endNumber :: xs => acc :: numbers acc xs
  | acc, x :: xs => numbers (pending acc x) xs

/-- The number that an event reports. -/
def Event.number? : Event F → Option (Number F)
  | .numberValue n => some n
  | _ => none

/-- The numbers that some events report. -/
def numberValues (es : List (Event F)) : List (Number F) := es.filterMap Event.number?

@[simp] theorem numberValues_append (es fs : List (Event F)) :
    numberValues (es ++ fs) = numberValues es ++ numberValues fs := List.filterMap_append

/-- Numbers are spelled in order, one of which may be cut in two. -/
theorem numbers_append (xs ys : List Lexeme) : ∀ acc : List UInt8,
    numbers acc (xs ++ ys) = numbers acc xs ++ numbers (xs.foldl pending acc) ys := by
  induction xs with
  | nil => exact fun _ => rfl
  | cons x xs ih =>
    intro acc
    cases x with
    | endNumber => exact congrArg (acc :: ·) (ih acc)
    | _ => exact ih _

/-- Steps that take nothing spell nothing. -/
theorem numbers_visible (xs : List Lexeme) : ∀ acc : List UInt8,
    numbers acc (visible xs) = numbers acc xs := by
  induction xs with
  | nil => exact fun _ => rfl
  | cons x xs ih =>
    intro acc
    by_cases hx : x = .settle
    · subst hx
      exact ih acc
    · rw [visible_cons hx]
      cases x with
      | endNumber => exact congrArg (acc :: ·) (ih acc)
      | _ => exact ih _

/-- A lexeme that is of no number. -/
def Lexeme.isOther : Lexeme → Bool
  | .startNumber _ | .digit _ | .endNumber => false
  | _ => true

/-- What is no part of a number spells none. -/
theorem numbers_other {xs : List Lexeme} (h : ∀ x ∈ xs, x.isOther = true) (acc : List UInt8) :
    numbers acc xs = [] := by
  induction xs generalizing acc with
  | nil => rfl
  | cons x xs ih =>
    have hx := h x List.mem_cons_self
    have ih' := ih (fun y hy => h y (List.mem_cons_of_mem _ hy))
    cases x <;> first | exact ih' _ | cases hx

/-- Some lexemes have the numbers `ns`, whatever is in progress before them. -/
def Spell (xs : List Lexeme) (ns : List (List UInt8)) : Prop := ∀ acc, numbers acc xs = ns

namespace Spell

variable {xs ys : List Lexeme} {ns ms : List (List UInt8)}

/-- Two parts spell the numbers of both. -/
theorem append (h : Spell xs ns) (h' : Spell ys ms) : Spell (xs ++ ys) (ns ++ ms) := fun acc => by
  rw [numbers_append, h, h']

theorem other (h : ∀ x ∈ xs, x.isOther = true) : Spell xs [] := numbers_other h

theorem one {x : Lexeme} (hx : x.isOther = true) : Spell [x] [] :=
  other fun y hy => by rwa [List.mem_singleton.mp hy]

theorem cons_other {x : Lexeme} (hx : x.isOther = true) (h : Spell xs ns) : Spell (x :: xs) ns :=
  (one hx).append h

theorem ws (w : Ws) : Spell (wsLexemes w) [] := by
  refine other fun x hx => ?_
  obtain ⟨b, -, rfl⟩ := List.mem_map.mp hx
  rfl

theorem label (label : Ws × RawString × Ws) : Spell (labelLexemes label) [] :=
  ((ws _).append (cons_other (x := .key _ _) rfl (ws _))).append (one rfl)

/-- A number spells itself. -/
theorem number {b : UInt8} (l : List UInt8) : Spell (numberLexemes (b :: l)) [b :: l] := by
  have digits (l : List UInt8) : ∀ acc, numbers acc (l.map .digit ++ [.endNumber]) =
    [acc ++ l] := by
    induction l with
    | nil => exact fun acc => by simp [numbers]
    | cons d l ih =>
      intro acc
      refine (ih (acc ++ [d])).trans ?_
      rw [List.append_assoc]
      rfl
  exact fun _ => digits l [b]

/-- A string spells none. -/
theorem string (raw : List UInt8) : Spell (.startString :: contentLexemes raw ++ [.endString])
    [] := by
  refine other fun x hx => ?_
  rcases List.mem_cons.mp hx with rfl | hx
  · rfl
  rcases List.mem_append.mp hx with hx | hx
  · obtain ⟨r, ch, rfl⟩ := mem_contentLexemes hx
    rfl
  · rw [List.mem_singleton.mp hx]
    rfl

end Spell

mutual

/-- The texts of the numbers of a tree. -/
def Tree.numbers : Tree → List (List UInt8)
  | .null | .boolean _ | .string _ | .emptyArray _ | .emptyObject _ => []
  | .number n => [n.1]
  | .array (_, t, _) rest => t.numbers ++ numbersRest rest
  | .object (_, _, t, _) rest => t.numbers ++ numbersMembers rest

def Tree.numbersRest : List (Ws × Tree × Ws) → List (List UInt8)
  | [] => []
  | (_, t, _) :: rest => t.numbers ++ numbersRest rest

def Tree.numbersMembers : List ((Ws × RawString × Ws) × Ws × Tree × Ws) → List (List UInt8)
  | [] => []
  | (_, _, t, _) :: rest => t.numbers ++ numbersMembers rest

end

mutual

/-- The numbers among the lexemes of a tree are the numbers of the tree. -/
theorem Tree.spell : ∀ t : Tree, Spell t.lexemes t.numbers
  | .null => .one rfl
  | .boolean _ => .one rfl
  | .number ⟨[], hn⟩ => absurd hn not_isNumber_nil
  | .number ⟨b :: l, _⟩ => .number l
  | .string s => .string s.raw
  | .emptyArray pad => .cons_other rfl ((Spell.ws pad).append (.one rfl))
  | .emptyObject pad => .cons_other rfl ((Spell.ws pad).append (.one rfl))
  | .array (before, t, after) rest => by
    have h := ((((Spell.ws before).append (Tree.spell t)).append (.ws after)).append
      (Tree.spell_rest rest)).append (.one (x := .closing .array) rfl)
    simp only [List.nil_append, List.append_nil] at h
    exact .cons_other rfl h
  | .object (label, before, t, after) rest => by
    have h := (((((Spell.label label).append (.ws before)).append (Tree.spell t)).append
      (.ws after)).append (Tree.spell_members rest)).append
        (.one (x := .closing .object) rfl)
    simp only [List.nil_append, List.append_nil] at h
    exact .cons_other rfl h

/-- The further items of an array. -/
theorem Tree.spell_rest : ∀ rest : List (Ws × Tree × Ws), Spell (restLexemes rest)
    (numbersRest rest)
  | [] => fun _ => rfl
  | (before, t, after) :: rest => by
    have h := (((Spell.ws before).append (Tree.spell t)).append (.ws after)).append
      (Tree.spell_rest rest)
    simp only [List.nil_append, List.append_nil] at h
    exact .cons_other rfl h

/-- The further members of an object. -/
theorem Tree.spell_members : ∀ rest : List ((Ws × RawString × Ws) × Ws × Tree × Ws),
    Spell (membersLexemes rest) (numbersMembers rest)
  | [] => fun _ => rfl
  | (label, before, t, after) :: rest => by
    have h := ((((Spell.label label).append (.ws before)).append (Tree.spell t)).append
      (.ws after)).append (Tree.spell_members rest)
    simp only [List.nil_append, List.append_nil] at h
    exact .cons_other rfl h

end

mutual

/-- The lengths of the numbers of a tree. -/
theorem Tree.length_numbers : ∀ t : Tree, t.measure.numbers = t.numbers.map List.length
  | .null | .boolean _ | .string _ | .emptyArray _ | .emptyObject _ | .number _ => rfl
  | .array (_, t, _) rest => by
    simp [Tree.measure, Measure.nested, Measure.append, Tree.numbers, Tree.length_numbers t,
      Tree.length_numbersRest rest]
  | .object (_, _, t, _) rest => by
    simp [Tree.measure, Measure.nested, Measure.append, labelMeasure, Measure.ofTokens,
      Tree.numbers, Tree.length_numbers t, Tree.length_numbersMembers rest]

/-- The lengths of the numbers in further items. -/
theorem Tree.length_numbersRest : ∀ rest : List (Ws × Tree × Ws),
    (measureRest rest).numbers = (numbersRest rest).map List.length
  | [] => rfl
  | (_, t, _) :: rest => by
    simp [Tree.measureRest, Measure.append, Measure.ofTokens, Tree.numbersRest,
      Tree.length_numbers t, Tree.length_numbersRest rest]

/-- Those in further members. -/
theorem Tree.length_numbersMembers : ∀ rest : List ((Ws × RawString × Ws) × Ws × Tree × Ws),
    (measureMembers rest).numbers = (numbersMembers rest).map List.length
  | [] => rfl
  | (_, _, t, _) :: rest => by
    simp [Tree.measureMembers, Measure.append, labelMeasure, Measure.ofTokens, Tree.numbersMembers,
      Tree.length_numbers t, Tree.length_numbersMembers rest]

end

/-! ## What is put out for them -/

section Puts

variable {limits : ParserLimits} {c : Core} {xs : List Lexeme} {rest acc : List UInt8}

/-- A number is taken in parts. -/
theorem takeBytes_append {s s' : NumberState} {l : List UInt8} (h : s.takeBytes l = some s')
    (m : List UInt8) : s.takeBytes (l ++ m) = s'.takeBytes m := by
  induction l generalizing s with
  | nil => cases h; rfl
  | cons b l ih =>
    rw [NumberState.takeBytes] at h
    rw [List.cons_append, NumberState.takeBytes]
    cases hb : s.takeByte b <;> rw [hb] at h <;> first | exact ih h | cases h

/-- Its bytes are counted. -/
theorem takeBytes_length {s s' : NumberState} {l : List UInt8} (h : s.takeBytes l = some s') :
    s'.length = s.length + l.length := by
  induction l generalizing s with
  | nil => cases h; rfl
  | cons b l ih =>
    rw [NumberState.takeBytes] at h
    cases hb : s.takeByte b with
    | next n =>
      rw [hb] at h
      rw [ih h, List.length_cons]
      have := NumberState.takeByte_length hb
      show n.length + 1 + l.length = _
      omega
    | _ => rw [hb] at h; cases h

/-- The number in progress in the state `c` has the text `acc`. -/
def Core.Spells (c : Core) (acc : List UInt8) : Prop :=
  c.number.stage ≠ .none → ∃ b l, acc = b :: l ∧ (NumberState.start b).takeBytes l = some c.number

/-- What is counted is what was spelled. -/
theorem Core.Spells.length (h : c.Spells acc) (hn : c.number.stage ≠ .none) :
    c.number.length = acc.length := by
  obtain ⟨b, l, rfl, ht⟩ := h hn
  rw [takeBytes_length ht, List.length_cons]
  have := NumberState.start_length b
  omega

/-- A lexeme inside a number, or its end. -/
def Lexeme.isInner : Lexeme → Bool
  | .digit _ | .endNumber => true
  | _ => false

theorem lexString_inner {x : Lexeme} : ∀ {l : List UInt8}, lexString l = some x → x.isInner = false
  | [], h => by cases h
  | b :: l, h => by
    rw [lexString] at h
    split at h
    · cases h; rfl
    split at h
    · split at h <;> cases h
      rfl
    split at h
    · cases h
    split at h <;> cases h
    rfl

/-- A token is no part of a number or a string. -/
theorem lexToken_inner {x : Lexeme} {b : UInt8} {l : List UInt8} (h : c.lexToken b l = some x) :
    x.isInner = false := by
  unfold Core.lexToken at h
  split at h
  · split at h
    · cases h
    · cases h
    · unfold lexKey at h
      split at h
      · obtain ⟨_, -, rfl⟩ := Option.map_eq_some_iff.mp h
        rfl
      · cases h
    · cases h; rfl
  all_goals first
    | cases h
    | (split at h <;> cases h
       rfl)

theorem lexOuter_inner {x : Lexeme} : ∀ {l : List UInt8}, c.lexOuter l = some x → x.isInner = false
  | [], h => by cases h
  | b :: l, h => by
    rw [Core.lexOuter] at h
    split at h
    · cases h; rfl
    split at h
    · cases h; rfl
    · exact lexToken_inner h

/-- Where a number goes on or ends there is one. -/
theorem lex_inner {x : Lexeme} {l : List UInt8} (h : c.lex l = some x) (hx : x.isInner = true) :
    (c.bomChecked = true ∧ c.inString = false ∧ c.number.stage ≠ .none) ∧
      lexNumber c.number l = some x := by
  unfold Core.lex at h
  split at h
  · split at h <;> cases h
    cases hx
  next hb =>
  split at h
  · rw [lexString_inner h] at hx
    cases hx
  next hs =>
  split at h
  · next hn => exact ⟨⟨by simpa using hb, by simpa using hs, hn⟩, h⟩
  · rw [lexOuter_inner h] at hx
    cases hx

/-- A byte that goes on with a number is taken by it. -/
theorem lexNumber_digit {s : NumberState} {b : UInt8} {l : List UInt8}
    (h : lexNumber s l = some (.digit b)) : ∃ n, s.takeByte b = .next n := by
  cases l with
  | nil =>
    rw [lexNumber] at h
    split at h <;> cases h
  | cons d l =>
    simp only [lexNumber] at h
    cases hd : s.takeByte d with
    | next n => rw [hd] at h; cases h; exact ⟨n, hd⟩
    | _ => rw [hd] at h; cases h

/-- A lexeme keeps to the text of the number in progress. -/
theorem Core.Spells.after {x : Lexeme} {l : List UInt8} (h : c.Spells acc) (hx : c.lex l = some x) :
    (c.after limits x).Spells (pending acc x) := by
  cases x with
  | space b =>
    rw [Core.after_space]
    exact h
  | startNumber b => exact fun _ => ⟨b, [], rfl, rfl⟩
  | digit b =>
    obtain ⟨⟨-, -, hn⟩, hlex⟩ := lex_inner hx rfl
    obtain ⟨n, hb⟩ := lexNumber_digit hlex
    obtain ⟨d, l, rfl, ht⟩ := h hn
    refine fun _ => ⟨d, l ++ [b], rfl, ?_⟩
    rw [takeBytes_append ht, Core.after_digit, further, hb]
    simp [NumberState.takeBytes, hb]
  | endNumber => exact fun hn => absurd rfl hn
  | _ => exact h

/-- **Over a run** the number in progress is what was spelled last. -/
theorem Core.Spells.run (h : c.Spells acc) (hl : c.Lexes limits xs rest) :
    (c.run limits xs).Spells (xs.foldl pending acc) := by
  induction xs generalizing c acc with
  | nil => exact h
  | cons x xs ih => exact ih (h.after hl.1) hl.2

/-- A number has a byte. -/
theorem ne_nil_of_mem_numbers (hl : c.Lexes limits xs rest) (hs : c.Spells acc) :
    ∀ n ∈ numbers acc xs, n ≠ [] := by
  induction xs generalizing c acc with
  | nil => simp [numbers]
  | cons x xs ih =>
    obtain ⟨hx, hl⟩ := hl
    have ih' := ih hl (hs.after hx)
    cases x with
    | endNumber =>
      obtain ⟨⟨-, -, hn⟩, -⟩ := lex_inner hx rfl
      obtain ⟨b, l, rfl, -⟩ := hs hn
      exact List.forall_mem_cons.mpr ⟨by simp, ih'⟩
    | _ => exact ih'

variable [Double F]

/-- **Each number is put out with the value that `NumberState` makes of it.** -/
theorem numbers_puts (hl : c.Lexes limits xs rest) (hs : c.Spells acc) :
    numberValues (eventsOf (c.putsAll (F := F) limits xs)) = (numbers acc xs).map numberOf := by
  induction xs generalizing c acc with
  | nil => rfl
  | cons x xs ih =>
    obtain ⟨hx, hl⟩ := hl
    have ih' := ih hl (hs.after hx)
    rw [Core.putsAll, eventsOf_append, numberValues_append, ih']
    cases x with
    | endNumber =>
      obtain ⟨⟨-, -, hn⟩, -⟩ := lex_inner hx rfl
      obtain ⟨b, l, rfl, ht⟩ := hs hn
      have hvalue : c.number.value (F := F) = numberOf (b :: l) := by simp only [numberOf, ht]
      show c.number.value :: _ = numberOf (b :: l) :: _
      rw [hvalue]
      rfl
    | space b =>
      show numberValues (eventsOf (if c.needsWhitespace = true then _ else [])) ++ _ = _
      split <;> rfl
    | opening context => cases context <;> rfl
    | closing context => cases context <;> rfl
    | literal value => rcases value with - | - | - <;> rfl
    | _ => rfl

omit [Double F] in
/-- The numbers among lexemes that are allowed keep to the limit, but for those of one byte. -/
theorem numbers_within (hl : c.Lexes limits xs rest) (ha : c.AllowsAll limits xs)
    (hs : c.Spells acc)
    (hacc : acc.length ≤ 1 ∨ exceeds limits.maxNumberLength acc.length = false) :
    ∀ n ∈ numbers acc xs, n.length ≤ 1 ∨ exceeds limits.maxNumberLength n.length = false := by
  induction xs generalizing c acc with
  | nil => simp [numbers]
  | cons x xs ih =>
    obtain ⟨hx, hl⟩ := hl
    have ih' := ih hl ha.2 (hs.after hx)
    cases x with
    | endNumber => exact List.forall_mem_cons.mpr ⟨hacc, ih' hacc⟩
    | startNumber b => exact ih' (.inl le_rfl)
    | digit b =>
      obtain ⟨⟨-, -, hn⟩, -⟩ := lex_inner hx rfl
      have hallows := ha.1
      simp only [Core.allows, Core.counted, Core.within, Core.novel, Lexeme.isToken, hs.length hn,
        Bool.not_false, Bool.true_or, Bool.true_and, Bool.and_true] at hallows
      refine ih' (.inr ?_)
      rw [pending, List.length_append, List.length_singleton]
      simpa using hallows
    | _ => exact ih' hacc

omit [Double F] in
/-- The number in progress is the start of the next one that ends. -/
theorem length_le_of_head {n : List UInt8} (hl : c.Lexes limits xs rest)
    (hc : c.bomChecked = true ∧ c.inString = false ∧ c.number.stage ≠ .none)
    (hn : (numbers acc xs).head? = some n) : acc.length ≤ n.length := by
  induction xs generalizing c acc with
  | nil => cases hn
  | cons x xs ih =>
    obtain ⟨hx, hl⟩ := hl
    obtain ⟨hb, ho, hstage⟩ := hc
    have hlex : lexNumber c.number (bytesOf (x :: xs) ++ rest) = some x := by
      unfold Core.lex at hx
      rwa [if_neg (by simp [hb]), if_neg (by simp [ho]), if_pos hstage] at hx
    generalize bytesOf (x :: xs) ++ rest = l at hx hlex
    cases l with
    | nil =>
      rw [lexNumber] at hlex
      split at hlex <;> cases hlex
      cases hn
      exact le_rfl
    | cons b l =>
      simp only [lexNumber] at hlex
      cases hnext : c.number.takeByte b with
      | next m =>
        rw [hnext] at hlex
        cases hlex
        have hle := ih hl ⟨Core.after_bomChecked hb, by rw [Core.after_digit]; exact ho, by
          rw [Core.after_digit]
          have hfurther : Core.further c.number b = m.addLength 1 := by
            simp only [Core.further, hnext]
          show (Core.further c.number b).stage ≠ .none
          rw [hfurther]
          exact show m.stage ≠ .none from NumberState.takeByte_stage hnext⟩ hn
        rw [pending, List.length_append] at hle
        omega
      | ended =>
        rw [hnext] at hlex
        cases hlex
        cases hn
        exact le_rfl
      | _ => rw [hnext] at hlex; cases hlex

/-- The numbers of a document. -/
theorem Core.Finds.numbers {l : List UInt8} {t : Tree} (h : c.Finds limits l t xs) :
    RJsonParser.numbers [] xs = t.numbers := by
  obtain ⟨bom, before, after, hvis⟩ := h.visible_eq
  have hspell := ((Spell.one (x := .mark bom) rfl).append (.ws before)).append
    (t.spell.append (.ws after))
  rw [← numbers_visible, hvis, documentLexemes]
  simpa using hspell []

omit [Double F] in
/-- Content makes no difference to the numbers that are called back. -/
theorem numberValues_marks {calls : List (Call F)} {os : List (Mark F)}
    (h : tokens (marks calls) = tokens os) :
    numberValues (calls.map Call.event) = numberValues (eventsOf os) := by
  have skip (os : List (Mark F)) :
    numberValues (eventsOf (tokens os)) = numberValues (eventsOf os) := by
    induction os with
    | nil => rfl
    | cons o os ih =>
      obtain ⟨e, p⟩ := o
      cases e with
      | numberValue n => exact congrArg (n :: ·) ih
      | _ => exact ih
  rw [← skip os, ← h, skip, eventsOf_marks]
  generalize calls.map Call.event = es
  induction es with
  | nil => rfl
  | cons e es ih =>
    have hpiece (f : Char → Event F) (hf : ∀ ch, (f ch).number? = none) (s : Text) :
        numberValues (s.map f) = [] := by
      rw [numberValues, List.filterMap_eq_nil_iff]
      rintro _ he
      obtain ⟨ch, -, rfl⟩ := List.mem_map.mp he
      exact hf ch
    rw [explode_cons, numberValues_append, ← ih]
    cases e with
    | stringValueContent s => rw [Event.explode, hpiece _ fun _ => rfl]; rfl
    | whitespace s => rw [Event.explode, hpiece _ fun _ => rfl]; rfl
    | _ => rfl

end Puts

/-! ## Streams -/

section Streams

variable [Double F] {h : Handler F} {s : Session F} {ops : List Op} {xs : List Lexeme}

/-- **What some steps report of the numbers of their stream**, whose lexemes are `xs`: the value of
each in order, up to the first error, or all that end in the bytes that were read. -/
structure Session.ReportsNumbers (h : Handler F) (s : Session F) (ops : List Op)
    (xs : List Lexeme) : Prop where
  stream : ∃ rest, stored h ops s = bytesOf xs ++ rest ∧
    (s.parser.core h).Lexes s.parser.limits xs rest ∧ ((outcome h ops s).1 = .ok () →
      rest = if (outcome h ops s).2.parser.closed then [] else (outcome h ops s).2.buf.bytes)
  calls : ∃ new, (outcome h ops s).2.parser.calls = s.parser.calls ++ new ∧
    numberValues (new.map Call.event) <+: (numbers [] xs).map numberOf ∧
    ((outcome h ops s).1 = .ok () →
      numberValues (new.map Call.event) = (numbers [] xs).map numberOf)

/-- Each number of a stream is reported with the value that `NumberState` makes of it. -/
theorem Session.AtStart.numbers_called (hs : s.AtStart h) (hops : ∀ op ∈ ops, op.Feeds) :
    ∃ xs, s.ReportsNumbers h ops xs := by
  have hcore : (s.parser.core h).Starts := by
    rw [hs.core]
    exact Core.start_starts _ _
  have hspells : (s.parser.core h).Spells [] := fun hn => absurd hcore.noNumber hn
  have hmarks (new : List (Call F)) : numberValues (new.map Call.event) =
      numberValues (eventsOf (marks new)) := numberValues_marks rfl
  obtain ⟨km, -, -, hrun⟩ := hs.run hops
  unfold Ensures at hrun
  cases hr : RJsonParser.run h ops s with
  | error e s' =>
    have hout : outcome h ops s = (.error e, s') := by unfold outcome; rw [hr]
    rw [hr] at hrun
    obtain ⟨new, hcalls, -, hproduces⟩ := hrun
    obtain ⟨xs, last, rest, hstored, hlex, -, hputs, -⟩ := hproduces.lexes hcore.begun
    refine ⟨xs ++ last, ⟨rest, hstored, hlex, by rw [hout]; simp⟩, new, by rw [hout]; exact hcalls,
      ?_, by rw [hout]; simp⟩
    rw [hmarks, ← numbers_puts hlex hspells]
    exact (hputs.map Prod.fst).filterMap _
  | ok a s' =>
    have hout : outcome h ops s = (.ok (), s') := by unfold outcome; rw [hr]
    rw [hr] at hrun
    obtain ⟨new, hsaid, hreads, hends⟩ := hrun
    obtain ⟨xs, rest, hstored, hlex, hputs, hrest⟩ :
      ∃ xs rest, stored h ops s = bytesOf xs ++ rest ∧
        (s.parser.core h).Lexes s.parser.limits xs rest ∧
        marks new = (s.parser.core h).putsAll s.parser.limits xs ∧
        rest = if s'.parser.closed then [] else s'.buf.bytes := by
      by_cases hc : s'.parser.closed = true
      · obtain ⟨xs, hstored, hlex, -, hputs, -⟩ := (hends hc).1.lexes hcore.begun
        exact ⟨xs, [], by rw [hstored, List.append_nil], hlex, hputs, by rw [if_pos hc]⟩
      · obtain ⟨xs, hstored, -, hputs, hlex, -⟩ := lexes_of_steps (hreads (by simpa using hc)).steps
        exact ⟨xs, s'.buf.bytes, hstored, hlex, hputs, by rw [if_neg hc]⟩
    have hvalues : numberValues (new.map Call.event) = (numbers [] xs).map numberOf := by
      rw [hmarks, hputs, numbers_puts hlex hspells]
    refine ⟨xs, ⟨rest, hstored, hlex, by rw [hout]; exact fun _ => hrest⟩, new,
      by rw [hout]; exact hsaid.calls, ?_, fun _ => hvalues⟩
    rw [hvalues]

end Streams

/-! ## The limit on numbers -/

section Limit

variable [Double F] {h : Handler F} {s : Session F} {l : List UInt8} {t : Tree} {km : Nat}

/-- No limits but one on numbers. -/
def ParserLimits.onNumbers (max : Nat) : ParserLimits :=
  { ParserLimits.unlimited with maxNumberLength := some max }

omit [Double F] in
/-- Where only numbers are limited a lexeme that is too long is a byte of one. -/
theorem onNumbers_refuses {max : Nat} {c : Core} {x : Lexeme} (hn : c.novel x = true)
    (h : c.allows (.onNumbers max) x = false) : ∃ b, x = .digit b := by
  cases x with
  | digit b => exact ⟨b, rfl⟩
  | _ =>
    simp [Core.allows, Core.counted, Core.within, ParserLimits.onNumbers,
      ParserLimits.unlimited, hn, Lexeme.isToken] at h

/-- What a document comes to where only numbers are limited: it is read as far as a number that is
too long. -/
theorem Session.AtStart.numbers (hs : s.AtStart h) (hi : s.parser.Inv km) (hh : h.NeverErrs)
    (ht : Document l t) {ops : List Op} (hops : ∀ op ∈ ops, op.Presents) (hl : offered ops = l)
    (hfits : Fits h ops s) (hring : RingHolds s.buf.capacity l t)
    (hkeys : ∀ k ∈ t.keys, byteLen k.text ≤ s.parser.stringChunkSize)
    (hdistinct : s.parser.rejectDuplicateKeys = true → t.distinct = true) {max : Nat}
    (hlimits : s.parser.limits = .onNumbers max) :
    ∃ new xs ys, (outcome h (ops ++ [.close]) s).2.parser.calls = s.parser.calls ++ new ∧
      t.numbers = RJsonParser.numbers [] (xs ++ ys) ∧
      (s.parser.core h).Lexes s.parser.limits (xs ++ ys) [] ∧
      (s.parser.core h).AllowsAll s.parser.limits xs ∧
      numberValues (new.map Call.event) = (RJsonParser.numbers [] xs).map numberOf ∧
      ((outcome h (ops ++ [.close]) s).1 = .ok () ↔ ys = []) ∧
      (ys = [] ∨ ∃ b post, ys = .digit b :: post) := by
  have hcore : (s.parser.core h).Starts := by
    rw [hs.core]
    exact Core.start_starts _ _
  have hspells : (s.parser.core h).Spells [] := fun hn => absurd hcore.noNumber hn
  have hreject : (s.parser.core h).rejectDuplicateKeys = s.parser.rejectDuplicateKeys := by
    rw [hs.core]
    rfl
  obtain ⟨zs, hf⟩ := ht.finds s.parser.limits hcore
  have hnovel : (s.parser.core h).Always s.parser.limits Core.novel zs := by
    obtain ⟨bom, before, after, hvis⟩ := hf.visible_eq
    rw [always_visible novel_unplaced (fun _ => rfl)
      (show (s.parser.core h).unplaced = _ from rfl), hvis]
    cases hr : s.parser.rejectDuplicateKeys with
    | false => exact novel_off (hreject.trans hr) _
    | true =>
      rw [document_novel bom before t after (hreject.trans hr)]
      exact hdistinct hr
  obtain ⟨new, hcalled, hcomes⟩ := hs.comes hi hh hops hfits
    (hl ▸ ht.roomy hcore hring)
  rw [hl] at hcomes
  have hlength : exceeds s.parser.limits.maxDocumentLength l.length = false := by
    rw [hlimits]
    rfl
  have told {a : Bool} {os : List (Mark F)}
      (he : Ends s.parser.limits (s.parser.core h) l a os) := hcomes.of_ends he hlength
    (ht.keysFit hcore hkeys)
  -- all lexemes are within the limits, or there is a first that is not
  by_cases hall : (s.parser.core h).AllowsAll s.parser.limits zs
  · have hends := ends_of_allowed (F := F) hf.lexes hall hf.between
    rw [← hf.bytes, hf.complete] at hends
    obtain ⟨hok, htold, -⟩ := told hends
    refine ⟨new, zs, [], hcalled.calls, by rw [List.append_nil, hf.numbers],
      by rw [List.append_nil]; exact hf.lexes, hall, ?_, iff_of_true (hok.mpr rfl) rfl, .inl rfl⟩
    rw [numberValues_marks htold.tokens_eq, numbers_puts hf.lexes hspells]
  · obtain ⟨pre, x, post, out, rfl, hpre, hx, hout, -, hends⟩ :=
      ends_of_refused (F := F) hf.lexes hall
    rw [← hf.bytes] at hends
    obtain ⟨hok, htold, -⟩ := told hends
    have hxnovel := (always_append.mp hnovel).2.1
    rw [hlimits] at hx
    obtain ⟨b, rfl⟩ := onNumbers_refuses (hlimits ▸ hxnovel) hx
    obtain rfl : out = [] := List.prefix_nil.mp hout
    refine ⟨new, pre, .digit b :: post, hcalled.calls, hf.numbers.symm, hf.lexes, hpre, ?_,
      iff_of_false (by simp [hok]) (by simp), .inr ⟨b, post, rfl⟩⟩
    rw [numberValues_marks htold.tokens_eq, List.append_nil,
      numbers_puts (Core.lexes_append.mp hf.lexes).1 hspells]

/-- **The verdict where only numbers are limited**: those of one byte are not looked at. -/
theorem Session.AtStart.numbers_verdict (hs : s.AtStart h) (hi : s.parser.Inv km)
    (hh : h.NeverErrs) (ht : Document l t) {ops : List Op} (hops : ∀ op ∈ ops, op.Presents)
    (hl : offered ops = l) (hfits : Fits h ops s) (hring : RingHolds s.buf.capacity l t)
    (hkeys : ∀ k ∈ t.keys, byteLen k.text ≤ s.parser.stringChunkSize)
    (hdistinct : s.parser.rejectDuplicateKeys = true → t.distinct = true) {max : Nat}
    (hlimits : s.parser.limits = .onNumbers max) :
    (outcome h (ops ++ [.close]) s).1 = .ok () ↔
      ∀ text ∈ t.numbers, text.length = 1 ∨ text.length ≤ max := by
  obtain ⟨-, -, -, hiff⟩ := hs.document hi hh ht hops hl hfits hring hkeys
  have hlimit (k : Nat) : exceeds s.parser.limits.maxNumberLength k = false ↔ k ≤ max := by
    rw [hlimits]
    show exceeds (some max) k = false ↔ _
    simp
  rw [hiff]
  constructor
  · rintro ⟨hfit, -, -⟩ text htext
    rw [← hlimit]
    exact hfit.numbers _ (by rw [t.length_numbers]; exact List.mem_map_of_mem htext)
  · intro htexts
    refine ⟨⟨by rw [hlimits]; rfl, by rw [hlimits]; rfl, fun _ _ => by rw [hlimits]; rfl,
      fun _ _ => by rw [hlimits]; rfl, fun k hk => ?_⟩, hdistinct, by rw [hlimits]; rfl⟩
    rw [t.length_numbers] at hk
    obtain ⟨text, htext, rfl⟩ := List.mem_map.mp hk
    rw [hlimit]
    exact htexts text htext

omit [Double F] in
/-- A number that goes on with a digit has two bytes. -/
theorem two_le_of_digit {limits : ParserLimits} {c : Core} {xs post : List Lexeme} {b : UInt8}
    (hspells : c.Spells []) (h : c.Lexes limits (xs ++ .digit b :: post) []) {text : List UInt8}
    (hhead : (RJsonParser.numbers (xs.foldl pending []) (.digit b :: post)).head? = some text) :
    2 ≤ text.length := by
  obtain ⟨hlexs, hdigit, hpost⟩ := Core.lexes_append.mp h
  obtain ⟨⟨hbom, hout, hstage⟩, hnum⟩ := lex_inner hdigit rfl
  obtain ⟨m, hm⟩ := lexNumber_digit hnum
  obtain ⟨d, r, hacc, -⟩ := (hspells.run hlexs) hstage
  have hle : (pending (xs.foldl pending []) (.digit b)).length ≤ text.length := by
    refine length_le_of_head hpost ⟨Core.after_bomChecked hbom, ?_, ?_⟩ hhead
    · rw [Core.after_digit]
      exact hout
    · rw [Core.after_digit]
      have hfurther : Core.further (c.run limits xs).number b = m.addLength 1 := by
        simp only [Core.further, hm]
      show (Core.further _ b).stage ≠ .none
      rw [hfurther]
      exact show m.stage ≠ .none from NumberState.takeByte_stage hm
  rw [hacc] at hle
  simp only [pending, List.length_append, List.length_cons, List.length_nil] at hle
  omega

/-- What is called back of the numbers `ns` of a document: those in front of the first that is found
too long. It is found so at its second byte or later. -/
structure Delivered (max : Nat) (ns front : List (List UInt8)) : Prop where
  isPrefix : front <+: ns
  within : ∀ text ∈ front, text.length ≤ 1 ∨ text.length ≤ max
  cut : front = [] → ∀ text, ns.head? = some text → 2 ≤ text.length
  pos : ∀ text ∈ ns, 0 < text.length

/-- **The numbers that are called back where only numbers are limited.** -/
theorem Session.AtStart.numbers_delivered (hs : s.AtStart h) (hi : s.parser.Inv km)
    (hh : h.NeverErrs) (ht : Document l t) {ops : List Op} (hops : ∀ op ∈ ops, op.Presents)
    (hl : offered ops = l) (hfits : Fits h ops s) (hring : RingHolds s.buf.capacity l t)
    (hkeys : ∀ k ∈ t.keys, byteLen k.text ≤ s.parser.stringChunkSize)
    (hdistinct : s.parser.rejectDuplicateKeys = true → t.distinct = true) {max : Nat}
    (hlimits : s.parser.limits = .onNumbers max) :
    ∃ new front, (outcome h (ops ++ [.close]) s).2.parser.calls = s.parser.calls ++ new ∧
      numberValues (new.map Call.event) = front.map numberOf ∧ Delivered max t.numbers front := by
  have hcore : (s.parser.core h).Starts := by
    rw [hs.core]
    exact Core.start_starts _ _
  have hspells : (s.parser.core h).Spells [] := fun hn => absurd hcore.noNumber hn
  obtain ⟨new, xs, ys, hcalls, hnumbers, hlex, hallowed, hvalues, -, hys⟩ :=
    hs.numbers hi hh ht hops hl hfits hring hkeys hdistinct hlimits
  have hlexs := (Core.lexes_append.mp hlex).1
  refine ⟨new, RJsonParser.numbers [] xs, hcalls, hvalues, ⟨?_, fun text htext => ?_, ?_, ?_⟩⟩
  · rw [hnumbers, numbers_append]
    exact List.prefix_append ..
  · have := numbers_within hlexs hallowed hspells (.inl (by simp)) text htext
    rw [hlimits] at this
    simpa [ParserLimits.onNumbers] using this
  · intro hnil text hhead
    rw [hnumbers, numbers_append, hnil, List.nil_append] at hhead
    rcases hys with rfl | ⟨b, post, rfl⟩
    · cases hhead
    · exact two_le_of_digit hspells hlex hhead
  · rw [hnumbers]
    exact fun text htext => List.length_pos_iff.mpr (ne_nil_of_mem_numbers hlex hspells text htext)

section Delivered

variable {max : Nat} {ns front : List (List UInt8)}

/-- Where no number is called back that is too long the limit is not zero, or the first number has
two bytes. -/
theorem Delivered.first (hd : Delivered max ns front) (hfront : ∀ text ∈ front, text.length ≤ max) :
    0 < max ∨ ∀ text, ns.head? = some text → 2 ≤ text.length := by
  rcases Nat.eq_zero_or_pos max with rfl | hmax
  swap
  · exact .inl hmax
  refine .inr ?_
  cases front with
  | nil => exact hd.cut rfl
  | cons text' more =>
    have hmem := hd.isPrefix.subset List.mem_cons_self
    have := hfront text' List.mem_cons_self
    have := hd.pos text' hmem
    omega

/-- Where the limit is zero and the first number has two bytes, none is called back. -/
theorem Delivered.none_of_zero (hd : Delivered 0 ns front)
    (hfirst : ∀ text, ns.head? = some text → 2 ≤ text.length) : front = [] := by
  cases front with
  | nil => rfl
  | cons text more =>
    obtain ⟨rest, rfl⟩ := hd.isPrefix
    have := hfirst text rfl
    rcases hd.within text List.mem_cons_self with h1 | h1 <;> omega

/-- The verdict is that of the limit, and no number is called back that is too long, where the limit
is not zero or the first number has two bytes. -/
theorem Delivered.exact {ok : Prop} (hd : Delivered max ns front)
    (hok : ok ↔ ∀ text ∈ ns, text.length = 1 ∨ text.length ≤ max)
    (hcond : 0 < max ∨ ∀ text, ns.head? = some text → 2 ≤ text.length) :
    (ok ↔ ∀ text ∈ ns, text.length ≤ max) ∧ ∀ text ∈ front, text.length ≤ max := by
  rw [hok]
  rcases Nat.eq_zero_or_pos max with rfl | hmax
  · have hfirst := hcond.resolve_left (lt_irrefl 0)
    rw [hd.none_of_zero hfirst]
    refine ⟨?_, by simp⟩
    cases ns with
    | nil => simp
    | cons text more =>
      have := hfirst text rfl
      refine iff_of_false (fun hall => ?_) fun hall => ?_
      · rcases hall text List.mem_cons_self with h1 | h1 <;> omega
      · have := hall text List.mem_cons_self
        omega
  · refine ⟨⟨fun hall text htext => ?_, fun hall text htext => .inr (hall text htext)⟩, ?_⟩
    · rcases hall text htext with h1 | h1 <;> omega
    · intro text htext
      rcases hd.within text htext with h1 | h1 <;> omega

end Delivered

/-- **The limit on numbers is exact** but for numbers of one byte, which are never checked. So it is
exact if it is at least one, or the first number of the document is longer. -/
theorem number_limit_exact (hs : s.AtStart h) (hh : h.NeverErrs) (reject : Bool) (n : ChunkSize)
    (ha : Accepted h .unlimited reject n l) (max : Nat) :
    (∃ t, Document l t) ∧ ∀ t, Document l t → ∀ ops : List Op, (∀ op ∈ ops, op.Presents) →
      offered ops = l → Fits h ops (s.configure (.onNumbers max) reject n) →
      RingHolds s.buf.capacity l t →
      let r := outcome h (ops ++ [.close]) (s.configure (.onNumbers max) reject n)
      ∃ new, r.2.parser.calls = s.parser.calls ++ new ∧
        let delivered := t.numbers.take (numberValues (new.map Call.event)).length
        numberValues (new.map Call.event) = delivered.map numberOf ∧
        (((r.1 = .ok () ↔ ∀ text ∈ t.numbers, text.length ≤ max) ∧
            ∀ text ∈ delivered, text.length ≤ max) ↔
          0 < max ∨ ∀ text, t.numbers.head? = some text → 2 ≤ text.length) := by
  have hstart := hs.configure (.onNumbers max) reject n
  obtain ⟨hex, hall⟩ := ha.document hh
  refine ⟨hex, fun t ht ops hops hl hfits hring => ?_⟩
  obtain ⟨-, hdistinct, -, hkeys⟩ := hall t ht
  obtain ⟨km, hi⟩ := hstart.reachable.inv
  have hok := hstart.numbers_verdict hi hh ht hops hl hfits hring hkeys hdistinct rfl
  obtain ⟨new, front, hcalls, hvalues, hd⟩ :=
    hstart.numbers_delivered hi hh ht hops hl hfits hring hkeys hdistinct rfl
  have htake : t.numbers.take (numberValues (new.map Call.event)).length = front := by
    obtain ⟨rest, hrest⟩ := hd.isPrefix
    rw [hvalues, List.length_map, ← hrest, List.take_left]
  refine ⟨new, hcalls, ?_⟩
  simp only [htake]
  exact ⟨hvalues, fun hx => hd.first hx.2, hd.exact hok⟩

/-- The number `1`. -/
def oneTree : Tree := .number ⟨[0x31], [], [0x31], [], [], rfl, .inl rfl,
  .inr ⟨0x31, [], rfl, rfl, by decide, by simp⟩, .inl rfl, .inl rfl⟩

/-- The limit zero is no limit for the number `1`. -/
theorem number_limit_zero : Accepted (F := Rat) .accepting .unlimited false defaultStringChunkSize
      [0x31] ∧ Document [0x31] oneTree ∧
    (outcome (F := Rat) .accepting [.write [0x31] (.split 0), .receive, .close]
      ((Session.new 64 (.split 0)).configure (.onNumbers 0) false defaultStringChunkSize)).1 =
        .ok () ∧ ¬ ∀ text ∈ oneTree.numbers, text.length ≤ 0 := by
  refine ⟨⟨64, .split 0, .split 0, by decide, by decide +kernel⟩, ?_, by decide +kernel, by decide⟩
  exact ⟨[], ⟨[], by simp⟩, ⟨[], by simp⟩, .inl rfl, rfl⟩

/-- The number `12`. -/
def twelveTree : Tree := .number ⟨[0x31, 0x32], [], [0x31, 0x32], [], [], rfl, .inl rfl,
  .inr ⟨0x31, [0x32], rfl, rfl, by decide, by simp; decide⟩, .inl rfl, .inl rfl⟩

/-- The limit zero with the number `1`, of which it is not exact, and with the number `12`, of which
it is. -/
theorem number_limit_exact_one :
    let s : Session Rat := .new 64 (.split 0)
    (let ops : List Op := [.write [0x31] (.split 0), .receive]
      let r := outcome .accepting (ops ++ [.close])
        (s.configure (.onNumbers 0) false defaultStringChunkSize)
      ∃ new, r.2.parser.calls = s.parser.calls ++ new ∧
        let delivered := oneTree.numbers.take (numberValues (new.map Call.event)).length
        numberValues (new.map Call.event) = delivered.map numberOf ∧
          ¬ ((r.1 = .ok () ↔ ∀ text ∈ oneTree.numbers, text.length ≤ 0) ∧
            ∀ text ∈ delivered, text.length ≤ 0)) ∧
    (let ops : List Op := [.write [0x31, 0x32] (.split 0), .receive]
      let r := outcome .accepting (ops ++ [.close])
        (s.configure (.onNumbers 0) false defaultStringChunkSize)
      ∃ new, r.2.parser.calls = s.parser.calls ++ new ∧
        let delivered := twelveTree.numbers.take (numberValues (new.map Call.event)).length
        numberValues (new.map Call.event) = delivered.map numberOf ∧
          ((r.1 = .ok () ↔ ∀ text ∈ twelveTree.numbers, text.length ≤ 0) ∧
            ∀ text ∈ delivered, text.length ≤ 0)) := by
  intro s
  have hs : s.AtStart .accepting := Session.new_atStart (F := Rat) .accepting 64 (.split 0)
  have hfits (l : List UInt8) (hl : l.length ≤ 64) :
      Fits .accepting [.write l (.split 0), .receive]
        (s.configure (.onNumbers 0) false defaultStringChunkSize) :=
    fits_of_length _ (presents_chunkOps [(l, .split 0)]) (Session.new_inv ..) (by
      show 0 + (l ++ []).length ≤ 64
      simpa using hl)
  constructor
  · obtain ⟨new, hcalls, hvalues, hiff⟩ := (number_limit_exact hs (fun _ => rfl) false
      defaultStringChunkSize (l := [0x31])
      ⟨64, .split 0, .split 0, by decide, by decide +kernel⟩ 0).2 oneTree
        ⟨[], ⟨[], by simp⟩, ⟨[], by simp⟩, .inl rfl, rfl⟩ _
        (presents_chunkOps [([0x31], .split 0)]) rfl (hfits _ (by decide)) (.inl (by decide))
    exact ⟨new, hcalls, hvalues, fun h => absurd (hiff.mp h) (by decide)⟩
  · obtain ⟨new, hcalls, hvalues, hiff⟩ := (number_limit_exact hs (fun _ => rfl) false
      defaultStringChunkSize (l := [0x31, 0x32])
      ⟨64, .split 0, .split 0, by decide, by decide +kernel⟩ 0).2 twelveTree
        ⟨[], ⟨[], by simp⟩, ⟨[], by simp⟩, .inl rfl, rfl⟩ _
        (presents_chunkOps [([0x31, 0x32], .split 0)]) rfl (hfits _ (by decide)) (.inl (by decide))
    exact ⟨new, hcalls, hvalues, hiff.mpr (.inr (by decide))⟩

end Limit

end RJsonParser
