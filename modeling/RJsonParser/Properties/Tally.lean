import RJsonParser.Properties.Buffering
import RJsonParser.Properties.Interning
import RJsonParser.Properties.Positions

/-!
# What is counted

None of the counters of the tokenizer runs ahead of the bytes: tokens, levels, string bytes, the
length of a number, the line and the column are each at most the number of bytes consumed (a line
and a column start at one). What a number is collected in stays in range by itself, as the digits
that are dropped are counted too.

* `NumberState.Within` — a number of at most so many bytes
* `NumberBound` — what is known of a number, which may be more than that
* `Tally` — the counters after so many bytes, of which some are not counted yet
* `KeyTally` — those of the symbol table too, where a call that fails looks a key up once more
* `receiveStep_tally` — an iteration of the main loop keeps the tally, whatever is known of a number
* `receive_tally` — `receive` keeps the tally, whatever the input and whether it returns an error
-/

namespace RJsonParser

open Infra Infra.Utf8

variable {F : Type}

/-! ## Numbers -/

/-- What a number of at most `n` bytes is collected in. -/
structure NumberState.Within (n : Nat) (s : NumberState) : Prop where
  length : s.length ≤ n
  mantissa : s.mantissa ≤ i64Max
  shift : s.decimalShift.natAbs ≤ s.length
  exponent : s.exponent < 1000000
  dropped : -1 ≤ s.firstDropped ∧ s.firstDropped ≤ 9

namespace NumberState

variable {n : Nat} {s s' : NumberState}

theorem Within.mono {m : Nat} (h : s.Within n) (hm : n ≤ m) : s.Within m :=
  ⟨h.length.trans hm, h.mantissa, h.shift, h.exponent, h.dropped⟩

theorem new_within : new.Within 0 := ⟨le_rfl, by decide, le_rfl, by decide, by decide⟩

theorem start_within (b : UInt8) : (start b).Within 1 ∧ (start b).length = 1 := by
  have hb : (digitOf b).toNat ≤ i64Max := (digitOf b).toNat_lt.le.trans (by decide)
  unfold start
  dsimp only
  split_ifs
  · exact ⟨⟨le_rfl, new_within.mantissa, Nat.zero_le 1,
      new_within.exponent, new_within.dropped⟩, rfl⟩
  · exact ⟨⟨le_rfl, new_within.mantissa, Nat.zero_le 1,
      new_within.exponent, new_within.dropped⟩, rfl⟩
  · exact ⟨⟨le_rfl, hb, Nat.zero_le 1, new_within.exponent, new_within.dropped⟩, rfl⟩

theorem Within.stage (h : s.Within n) (stage : NumStage) : ({ s with stage := stage }).Within n :=
  ⟨h.length, h.mantissa, h.shift, h.exponent, h.dropped⟩

/-- A digit moves the decimal point by one at most. -/
theorem takeDigit_within (h : s.Within n) {digit : Nat} (hd : digit ≤ 9) (fraction : Bool) :
    ((s.takeDigit digit fraction).addLength 1).Within (n + 1) := by
  have hshift := h.shift
  have hlen := h.length
  have hmax : i64Max = 9223372036854775807 := rfl
  have hmantissa := h.mantissa
  obtain ⟨hlow, hhigh⟩ := h.dropped
  unfold takeDigit addLength
  dsimp only
  by_cases hc : (!s.mantissaFull && s.mantissa ≤ (i64Max - digit) / 10) = true
  · -- the digit fits the mantissa
    rw [if_pos hc]
    simp only [Bool.and_eq_true, decide_eq_true_eq] at hc
    refine ⟨by dsimp only; omega, by dsimp only; omega, ?_, h.exponent, ⟨hlow, hhigh⟩⟩
    dsimp only
    split_ifs <;> omega
  · -- the digit is dropped
    rw [if_neg hc]
    have hdrop {x : Int} (hx : x = s.firstDropped ∨ x = -1) :
        -1 ≤ (if x < 0 then (digit : Int) else x) ∧ (if x < 0 then (digit : Int) else x) ≤ 9 := by
      rcases hx with rfl | rfl <;> split_ifs <;> omega
    by_cases hfull : s.mantissaFull = true <;> cases fraction <;>
      simp only [hfull, if_true, if_false, Bool.false_eq_true]
    · exact ⟨by dsimp only; omega, hmantissa, by dsimp only; omega, h.exponent, hdrop (.inl rfl)⟩
    · exact ⟨by dsimp only; omega, hmantissa, by dsimp only; omega, h.exponent, hdrop (.inl rfl)⟩
    · exact ⟨by dsimp only; omega, hmantissa, by dsimp only; omega, h.exponent, hdrop (.inr rfl)⟩
    · exact ⟨by dsimp only; omega, hmantissa, by dsimp only; omega, h.exponent, hdrop (.inr rfl)⟩

theorem takeExponentDigit_within (h : s.Within n) {digit : Nat} (hd : digit ≤ 9) :
    ((s.takeExponentDigit digit).addLength 1).Within (n + 1) := by
  have hshift := h.shift
  have hlen := h.length
  have hexp := h.exponent
  unfold takeExponentDigit addLength
  split_ifs with he
  · refine ⟨by dsimp only; omega, h.mantissa, by dsimp only; omega, by dsimp only; omega, h.dropped⟩
  · refine ⟨by dsimp only; omega, h.mantissa, by dsimp only; omega, hexp, h.dropped⟩

theorem isDigit_le {b : UInt8} (h : isDigit b = true) : (digitOf b).toNat ≤ 9 := by
  unfold isDigit at h
  exact UInt8.le_iff_toNat_le.mp (of_decide_eq_true h)

theorem Within.addLength (h : s.Within n) : (s.addLength 1).Within (n + 1) := by
  have hshift := h.shift
  refine ⟨Nat.succ_le_succ h.length, h.mantissa, ?_, h.exponent, h.dropped⟩
  show s.decimalShift.natAbs ≤ s.length + 1
  omega

theorem takeMark_within (h : s.Within n) {b : UInt8} (hs : s.takeMark b = .next s') :
    (s'.addLength 1).Within (n + 1) := by
  unfold takeMark at hs
  split_ifs at hs <;> cases hs
  all_goals exact Within.addLength ⟨h.length, h.mantissa, h.shift, h.exponent, h.dropped⟩

/-- **One byte** of a number. -/
theorem takeByte_within (h : s.Within n) {b : UInt8} (hs : s.takeByte b = .next s') :
    (s'.addLength 1).Within (n + 1) := by
  unfold takeByte at hs
  dsimp only at hs
  cases hstage : s.stage <;> rw [hstage] at hs <;> dsimp only at hs
  case afterMinus =>
    split_ifs at hs with h0 hd <;> cases hs
    · exact (h.stage _).addLength
    · exact takeDigit_within (h.stage _) (isDigit_le hd) false
  case zero =>
    split_ifs at hs
    exact takeMark_within h hs
  case integer =>
    split_ifs at hs with hd
    · cases hs
      exact takeDigit_within h (isDigit_le hd) false
    · exact takeMark_within h hs
  case fractionDot =>
    split_ifs at hs with hd
    cases hs
    exact takeDigit_within (h.stage _) (isDigit_le (by simpa using hd)) true
  case fraction =>
    split_ifs at hs with hd he <;> cases hs
    · exact takeDigit_within h (isDigit_le hd) true
    · exact Within.addLength ⟨h.length, h.mantissa, h.shift, h.exponent, h.dropped⟩
  case exponentMark =>
    split_ifs at hs with he hd <;> cases hs
    · exact Within.addLength ⟨h.length, h.mantissa, h.shift, h.exponent, h.dropped⟩
    · exact takeExponentDigit_within (h.stage _) (isDigit_le hd)
  case exponentSign =>
    split_ifs at hs with hd
    cases hs
    exact takeExponentDigit_within (h.stage _) (isDigit_le (by simpa using hd))
  case exponent =>
    split_ifs at hs with hd
    cases hs
    exact takeExponentDigit_within h (isDigit_le hd)
  case none => cases hs

/-- The digits that are taken at once. -/
theorem digitRun_le : ∀ (span : List UInt8) {m : Nat}, m ≤ i64Max →
    (digitRun span m).1 ≤ i64Max ∧ (digitRun span m).2 ≤ span.length
  | [], m, hm => ⟨hm, le_rfl⟩
  | b :: span, m, hm => by
    unfold digitRun
    split
    · next hc =>
      have hd := isDigit_le hc.2
      have hlow : digitAlwaysFitsBelow = 922337203685477579 := rfl
      have hmax : i64Max = 9223372036854775807 := rfl
      obtain ⟨h1, h2⟩ := digitRun_le span (m := m * 10 + (digitOf b).toNat) (by omega)
      exact ⟨h1, Nat.succ_le_succ h2⟩
    · exact ⟨hm, Nat.zero_le _⟩

theorem takeDigitRun_within (h : s.Within n) (span : List UInt8) :
    (s.takeDigitRun span).1.Within (n + (s.takeDigitRun span).2) ∧
      (s.takeDigitRun span).2 ≤ span.length ∧
      (s.takeDigitRun span).1.length = s.length + (s.takeDigitRun span).2 := by
  obtain ⟨hm, hn⟩ := digitRun_le span h.mantissa
  have hlen := h.length
  have hshift := h.shift
  unfold takeDigitRun
  dsimp only
  split
  · refine ⟨⟨by dsimp only; omega, hm, ?_, h.exponent, h.dropped⟩, hn, rfl⟩
    dsimp only
    split_ifs <;> omega
  · next hc =>
    have hzero : (digitRun span s.mantissa).2 = 0 := by omega
    exact ⟨h.mono (Nat.le_add_right _ _), hn, by rw [hzero]; rfl⟩

end NumberState

/-! ## The tally -/

/-- The length of a number that the column does not show yet. -/
def NumberState.unreported (s : NumberState) : Nat := if s.stage = .none then 0 else s.length

/-- What is known of a number of at most so many bytes: it holds of one that begins. -/
structure NumberBound where
  holds : Nat → NumberState → Prop
  mono {n m : Nat} {s : NumberState} (hm : n ≤ m) (h : holds n s) : holds m s
  start {b : UInt8} (hb : startsNumber b = true) : holds 1 (.start b)

/-- A number takes no more than its bytes. -/
def NumberBound.within : NumberBound where
  holds n s := s.Within n
  mono hm h := h.mono hm
  start _ := (NumberState.start_within _).1

/-- After `b` bytes and those consumed in this call, `k` of which are not counted yet, and with `a`
keys looked up: no counter is ahead of the bytes, and `P` is known of the number. -/
structure Tally (P : NumberBound) (a b k : Nat) (w : World F) : Prop where
  tokens : w.tok.tokenCount + k ≤ b + w.consumed
  nesting : w.tok.depthStack.length + k ≤ b + w.consumed
  string : w.tok.stringBytes ≤ b + w.consumed
  number : P.holds (b + w.consumed) w.tok.number
  line : w.locator.line ≤ b + w.consumed + 1
  column : w.locator.column + w.tok.number.unreported ≤ b + w.consumed + 1
  keys : a ≤ b + w.consumed

/-- A program that leaves `j` bytes uncounted where `k` were. -/
def Counts {α : Type} (P : NumberBound) (a b k j : Nat) (x : TokM F α) : Prop :=
  Leads (Tally P a b k) (Tally P a b j) (Tally P a b 0) x

section Programs

variable {α : Type} {P : NumberBound} {a b k j lost : Nat} {w : World F}

theorem Tally.mono (h : Tally P a b k w) (hj : j ≤ k) : Tally P a b j w :=
  ⟨by have := h.tokens; omega, by have := h.nesting; omega, h.string, h.number, h.line,
    h.column, h.keys⟩

theorem Counts.pure (x : α) (hj : j ≤ k) : Counts P a b k j (pure x : TokM F α) :=
  Leads.pure fun _ h => h.mono hj

theorem Counts.throw (e : Stop) : Counts P a b k j (throw e : TokM F α) :=
  Leads.throw fun _ h => h.mono (Nat.zero_le k)

theorem Counts.ofExcept (r : Except Stop α) : Counts P a b k k (ofExcept r : TokM F α) :=
  Leads.ofExcept (fun _ h => h) fun _ h => h.mono (Nat.zero_le k)

theorem Counts.get_bind {f : World F → TokM F α} (h : ∀ w, Counts P a b k j (f w)) :
    Counts P a b k j (get >>= f) :=
  Leads.get_bind fun w hw => h w w hw

theorem Counts.bind {β : Type} {i : Nat} {x : TokM F β} {f : β → TokM F α} (h : Counts P a b k j x)
    (hf : ∀ y, Counts P a b j i (f y)) : Counts P a b k i (x >>= f) := Leads.bind h hf

theorem Counts.ite {c : Prop} [Decidable c] {x y : TokM F α} (h : Counts P a b k j x)
    (h' : Counts P a b k j y) : Counts P a b k j (if c then x else y) := Leads.ite h h'

theorem Counts.weaken {x : TokM F α} (h : Counts P a b k j x) {i : Nat} (hi : i ≤ j) :
    Counts P a b k i x :=
  Leads.mono h (fun _ h => h) fun _ h => h.mono hi

/-- A change that no counter sees. -/
theorem Counts.modifyTok {f : Tokenizer → Tokenizer}
    (hf : ∀ t, (f t).tokenCount = t.tokenCount ∧ (f t).depthStack.length = t.depthStack.length ∧
      (f t).stringBytes = t.stringBytes ∧ (f t).number = t.number) :
    Counts (F := F) P a b k k (modifyTok f) := by
  refine .modify fun w h => ?_
  obtain ⟨h1, h2, h3, h4⟩ := hf w.tok
  exact ⟨by rw [h1]; exact h.tokens, by rw [h2]; exact h.nesting, by rw [h3]; exact h.string,
    by rw [h4]; exact h.number, h.line, by rw [h4]; exact h.column, h.keys⟩

theorem Counts.callback (h : Handler F) (e : Event F) : Counts P a b k k (callback h e) := by
  unfold RJsonParser.callback
  refine .bind (j := k) (Leads.modify fun w h => ?_) fun _ => .get_bind fun w => ?_
  · exact ⟨h.tokens, h.nesting, h.string, h.number, h.line, h.column, h.keys⟩
  · cases h.reply w.calls with
    | none => exact .pure _ le_rfl
    | some err => exact .throw _

/-- A token is not counted yet. -/
structure Due (P : NumberBound) (a b : Nat) (w : World F) : Prop extends Tally P a b 0 w where
  token : w.tok.tokenCount + 1 ≤ b + w.consumed

theorem Tally.due (h : Tally P a b 1 w) : Due P a b w := ⟨h.mono (Nat.zero_le 1), h.tokens⟩

/-- **A token is counted.** -/
theorem Due.tokenDone (limits : ParserLimits) :
    Leads (Due P a b) (Tally P a b 0) (Tally (F := F) P a b 0) (tokenDone limits) := by
  unfold RJsonParser.tokenDone checkTokenLimit
  refine Leads.bind (J := Due P a b) (Leads.modify fun w h => ?_) fun _ => ?_
  · exact ⟨⟨h.tokens, h.nesting, h.string, h.number, h.line, h.column, h.keys⟩, h.token⟩
  cases limits.maxTokenCount with
  | none => exact .pure fun w h => h.toTally
  | some max =>
    refine .bind (Leads.modify fun w h => ?_) fun _ =>
      Counts.get_bind fun w => .ite (.throw _) (.pure _ le_rfl)
    exact ⟨h.token, h.nesting, h.string, h.number, h.line, h.column, h.keys⟩

theorem Due.tokenTo (limits : ParserLimits) (state : State) :
    Leads (Due P a b) (Tally P a b 0) (Tally (F := F) P a b 0) (tokenTo limits state) := by
  unfold RJsonParser.tokenTo
  exact .bind (Due.tokenDone limits) fun _ => Counts.modifyTok fun _ => ⟨rfl, rfl, rfl, rfl⟩

theorem Counts.tokenDone (limits : ParserLimits) : Counts (F := F) P a b 1 0 (tokenDone limits) :=
  fun _ h => Due.tokenDone limits _ h.due

theorem Counts.tokenTo (limits : ParserLimits) (state : State) :
    Counts (F := F) P a b 1 0 (tokenTo limits state) :=
  fun _ h => Due.tokenTo limits state _ h.due

theorem Counts.checkDepth (limits : ParserLimits) :
    Counts (F := F) P a b k k (checkDepth limits) := by
  unfold RJsonParser.checkDepth
  cases limits.maxNestingDepth with
  | none => exact .pure _ le_rfl
  | some max => exact .get_bind fun w => .ite (.throw _) (.pure _ le_rfl)

/-- Bytes are consumed, as many columns at most, and are not counted yet. -/
theorem Tally.consume (h : Tally P a b 0 w) {n c : Nat} (hc : c ≤ n) :
    Tally P a b n { w with consumed := w.consumed + n, locator := w.locator.addColumn c } := by
  obtain ⟨h1, h2, h3, h4, h5, h6, h7⟩ := h
  refine ⟨?_, ?_, ?_, P.mono ?_ h4, ?_, ?_, ?_⟩
  all_goals dsimp only [SharedLocator.addColumn]
  all_goals omega

theorem Counts.takeOne : Counts (F := F) P a b 0 1 takeOne :=
  fun _ h => h.consume le_rfl

/-! ### Whitespace -/

theorem Counts.wsCalls (h : Handler F) (input : Spans) (stop : Nat) : ∀ (fuel q : Nat),
    Counts P a b k k (wsCalls h input stop fuel q)
  | 0, _ => .throw _
  | fuel + 1, q => by
    unfold RJsonParser.wsCalls
    refine .ite ?_ (.pure _ le_rfl)
    dsimp only
    cases fromUtf8 ((input.spanFrom q).take (min (input.spanFrom q).length (stop - q))) with
    | ok ws => exact .bind (.callback h _) fun _ => .wsCalls h input stop fuel _
    | error e => exact .throw _

/-- A line or a column for each byte at most. -/
theorem wsByte_le {p p' : Pos} {c : UInt8} (h : wsByte p c = some p') :
    p'.line ≤ p.line + 1 ∧ p'.column ≤ p.column + 1 := by
  unfold wsByte at h
  split_ifs at h <;> cases h <;> dsimp only <;> omega

theorem wsLoop_le (input : Spans) : ∀ (fuel q : Nat) (p : Pos) {q' : Nat} {p' : Pos},
    wsLoop input fuel q p = .ok (q', p') → q ≤ q' ∧ p'.line + q ≤ p.line + q' ∧
      p'.column + q ≤ p.column + q'
  | 0, _, _, _, _, h => by cases h
  | fuel + 1, q, p, q', p', h => by
    unfold wsLoop at h
    split_ifs at h
    · cases hb : input.get q with
      | error e =>
        rw [hb] at h
        cases h
      | ok c =>
        rw [hb] at h
        cases hw : wsByte p c with
        | none =>
          simp only [except_ok_bind, hw] at h
          cases h
          exact ⟨le_rfl, le_rfl, le_rfl⟩
        | some p₁ =>
          simp only [except_ok_bind, hw] at h
          obtain ⟨h1, h2, h3⟩ := wsLoop_le input fuel (q + 1) p₁ h
          obtain ⟨h4, h5⟩ := wsByte_le hw
          omega
    · cases h
      exact ⟨le_rfl, le_rfl, le_rfl⟩

theorem Counts.processWhitespace (env : Env F) : Counts P a b 0 0 (processWhitespace env) := by
  unfold RJsonParser.processWhitespace
  refine Leads.get_bind fun w h => ?_
  rw [ensures_bind]
  cases hloop : wsLoop env.input (env.input.len - w.consumed + 1) w.consumed
      ⟨w.locator.line, w.locator.column, w.tok.afterCr⟩ with
  | error e => exact h
  | ok r =>
    obtain ⟨q, p⟩ := r
    obtain ⟨hq, hline, hcolumn⟩ := wsLoop_le _ _ _ _ hloop
    dsimp only at hline hcolumn
    rw [ensures_ofExcept_ok, ensures_bind, ensures_modify]
    have hreport : Counts P a b 0 0 (reportWhitespace env w.consumed q) := by
      unfold reportWhitespace
      exact .get_bind fun w => .ite (.wsCalls _ _ _ _ _) (.pure _ le_rfl)
    refine hreport _ ?_
    obtain ⟨h1, h2, h3, h4, h5, h6, h7⟩ := h
    refine ⟨?_, ?_, ?_, P.mono ?_ h4, ?_, ?_, ?_⟩
    all_goals dsimp only
    all_goals omega

/-! ### Numbers -/

theorem NumberState.Within.tight {n : Nat} {s : NumberState} (h : s.Within n) :
    s.Within s.length :=
  ⟨le_rfl, h.mantissa, h.shift, h.exponent, h.dropped⟩

theorem NumberState.unreported_le (s : NumberState) : s.unreported ≤ s.length := by
  unfold unreported
  split_ifs <;> omega

theorem Tally.column_length (h : Tally P a b k w) (hs : w.tok.number.stage ≠ .none) :
    w.locator.column + w.tok.number.length ≤ b + w.consumed + 1 := by
  have := h.column
  rwa [NumberState.unreported, if_neg hs] at this

theorem Counts.checkLimit (limit : Option Nat) (n : Nat) (message : Nat → String) :
    Counts (F := F) P a b k k (checkLimit limit n message) := by
  unfold RJsonParser.checkLimit
  cases limit with
  | none => exact .pure _ le_rfl
  | some max => exact .ite (.throw _) (.pure _ le_rfl)

/-- A number that took `m` more bytes. -/
theorem setNumber_tally {env : Env F} {n : NumberState} {m : Nat} (h : Tally .within a b 0 w)
    (hs : w.tok.number.stage ≠ .none) (hn : n.Within (w.tok.number.length + m)) :
    Ensures (setNumber env n (w.consumed + m)) w (fun _ => Tally .within a b 0)
      (fun _ => Tally .within a b 0) := by
  have hcolumn := h.column_length hs
  have hlen := h.number.length
  have hnlen := hn.length
  have hunreported := n.unreported_le
  unfold setNumber
  simp only [RJsonParser.modifyTok, setConsumed, ensures_bind, ensures_modify]
  refine Counts.checkLimit _ _ _ _ ?_
  obtain ⟨h1, h2, h3, -, h5, -, h7⟩ := h
  refine ⟨?_, ?_, ?_, hn.mono ?_, ?_, ?_, ?_⟩
  all_goals dsimp only
  all_goals omega

theorem Counts.takeDigits (env : Env F) : Counts .within a b 0 0 (takeDigits env) := by
  unfold RJsonParser.takeDigits
  refine Leads.get_bind fun w h => ?_
  dsimp only
  split_ifs with hc
  · have hs : w.tok.number.stage ≠ .none := by
      rintro hs
      simp [hs] at hc
    obtain ⟨hn, -, -⟩ := NumberState.takeDigitRun_within h.number.tight
      (env.input.spanFrom w.consumed)
    rw [ensures_bind]
    exact (setNumber_tally h hs hn).mono (fun _ _ h => h) fun _ _ h => h
  · exact h
  · exact h

section Double

variable [Double F]

theorem emitNumber_tally {h : Handler F} (ht : Tally .within a b 0 w)
    (hs : w.tok.number.stage ≠ .none) :
    Ensures (emitNumber h) w (fun _ => Tally .within a b 0) (fun _ => Tally .within a b 0) := by
  have hcolumn := ht.column_length hs
  unfold emitNumber
  simp only [RJsonParser.modifyTok, addColumn, ensures_bind, ensures_get, ensures_modify]
  refine Counts.callback _ _ _ ?_
  obtain ⟨h1, h2, h3, h4, h5, -, h7⟩ := ht
  exact ⟨h1, h2, h3, h4.stage .none, h5, hcolumn, h7⟩

theorem Counts.continueNumberLoop (env : Env F) : ∀ fuel : Nat,
    Counts .within a b 0 0 (continueNumberLoop env fuel)
  | 0 => .throw _
  | fuel + 1 => by
    unfold RJsonParser.continueNumberLoop
    refine .get_bind fun w => .ite ?_ (.pure _ le_rfl)
    refine .bind (.takeDigits env) fun more => .ite ?_ (.pure _ le_rfl)
    refine Leads.get_bind fun w h => ?_
    rw [ensures_bind]
    cases env.input.get w.consumed with
    | error e => exact h
    | ok c =>
      rw [ensures_ofExcept_ok]
      have hs : w.tok.number.takeByte c ≠ .unreachable → w.tok.number.stage ≠ .none := by
        intro hne hs
        simp [NumberState.takeByte, hs] at hne
      cases hb : w.tok.number.takeByte c with
      | next n =>
        have hn := NumberState.takeByte_within h.number.tight hb
        simp only [ensures_bind]
        refine (setNumber_tally h (hs (by rw [hb]; simp)) hn).mono ?_ fun _ _ h => h
        exact fun _ w' h' => Counts.continueNumberLoop env fuel w' h'
      | ended =>
        simp only [ensures_bind]
        exact (emitNumber_tally h (hs (by rw [hb]; simp))).mono (fun _ _ h => h) fun _ _ h => h
      | error message => exact h
      | unreachable => exact h

theorem Counts.continueNumber (env : Env F) : Counts .within a b 0 0 (continueNumber env) := by
  unfold RJsonParser.continueNumber
  exact .get_bind fun w => .continueNumberLoop env _

theorem Counts.endOfInput (h : Handler F) : Counts .within a b 0 0 (endOfInput h) := by
  unfold RJsonParser.endOfInput
  refine Leads.get_bind fun w ht => ?_
  rw [ensures_ite]
  split_ifs
  · exact ht
  · cases hs : w.tok.number.stage with
    | none | afterMinus | fractionDot | exponentMark | exponentSign => exact ht
    | zero | integer | fraction | exponent => exact emitNumber_tally ht (by rw [hs]; simp)

end Double

/-! ### String values -/

theorem Tally.buffered {w' : World F} (h : Tally P a b k w) (hw : Buffered w w') :
    Tally P a b k w' := by
  obtain ⟨chars, cap, calls, rfl⟩ := hw
  exact ⟨h.tokens, h.nesting, h.string, h.number, h.line, h.column, h.keys⟩

theorem Buffers.counts {x : TokM F α} (hx : Buffers x) : Counts P a b k k x := by
  intro w h
  refine (hx w w (.refl w)).mono (fun _ w' hw => h.buffered hw) fun _ w' hw => ?_
  exact (h.buffered hw).mono (Nat.zero_le k)

theorem checkLimit_tally {limit : Option Nat} {n : Nat} {message : Nat → String}
    (h : Tally P a b 0 w) :
    Ensures (checkLimit limit n message) w (fun _ w' => w' = w) (fun _ => Tally P a b 0) :=
  (checkLimit_spec limit n message w).mono (fun _ _ h => h.1) fun _ _ h' => by rwa [h'.1]

theorem deliverRun_tally (env : Env F) (runEnd : Nat) (h : Tally P a b 0 w) :
    Ensures (deliverRun env w.consumed runEnd) w (fun _ => Tally P a b 0)
      (fun _ => Tally P a b 0) := by
  unfold deliverRun
  rw [ensures_ite]
  split_ifs with hlt
  swap
  · exact h
  simp only [ensures_bind, ensures_get]
  refine (checkLimit_tally h).mono ?_ fun _ _ h => h
  rintro - w' rfl
  refine (decodeRunLoop_units _ env.input runEnd w' _ _ 0 w' (.refl w')).mono ?_ ?_
  swap
  · exact fun _ _ hw => h.buffered hw
  rintro ⟨next, units⟩ w₁ ⟨hw, hle, hunits⟩
  obtain ⟨chars, cap, calls, rfl⟩ := hw
  dsimp only at hle hunits
  simp only [RJsonParser.modifyTok, addColumn, setConsumed, ensures_modify]
  -- what was passed is counted: its bytes as such, its units in the column
  have hafter : Tally P a b 0 ({
      tok := { w'.tok with
        chars := chars
        charsCap := cap
        stringBytes := w'.tok.stringBytes + (next - w'.consumed) }
      locator := w'.locator.addColumn units
      calls := calls
      consumed := next } : World F) := by
    obtain ⟨h1, h2, h3, h4, h5, h6, h7⟩ := h
    refine ⟨?_, ?_, ?_, P.mono ?_ h4, ?_, ?_, ?_⟩
    all_goals dsimp only [SharedLocator.addColumn]
    all_goals omega
  rw [ensures_ite]
  split_ifs
  · rw [ensures_bind]
    exact ((Buffers.flushChars env.handler).counts _ hafter).mono (fun _ _ h => h) fun _ _ h => h
  · exact hafter

theorem endString_tally (env : Env F) (h : Tally P a b 0 w) :
    Ensures (endString env w.consumed) w (fun _ => Tally P a b 0) (fun _ => Tally P a b 0) := by
  unfold endString
  rw [ensures_bind]
  refine (Buffers.flushChars env.handler w w (.refl w)).mono ?_ fun _ _ hw => h.buffered hw
  rintro - w' ⟨chars, cap, calls, rfl⟩
  simp only [setConsumed, addColumn, RJsonParser.modifyTok, ensures_bind, ensures_modify]
  have hconsume := (h.consume (le_refl 1)).mono (Nat.zero_le 1)
  exact Counts.callback _ _ _ ⟨hconsume.tokens, hconsume.nesting, hconsume.string, hconsume.number,
    hconsume.line, hconsume.column, hconsume.keys⟩

theorem pushEscape_tally (env : Env F) (ch : Char) (n : Nat) (h : Tally P a b 0 w) :
    Ensures (pushEscape env w.consumed ch n) w (fun _ => Tally P a b 0)
      (fun _ => Tally P a b 0) := by
  unfold pushEscape
  rw [ensures_bind]
  refine (Buffers.ensureFree (some env.handler) _ w w (.refl w)).mono ?_ fun _ _ hw => h.buffered hw
  rintro - w₁ hw₁
  rw [ensures_bind]
  refine (Buffers.pushStr [ch] w w₁ hw₁).mono ?_ fun _ _ hw => h.buffered hw
  rintro - w₂ ⟨chars, cap, calls, rfl⟩
  simp only [setConsumed, addColumn, RJsonParser.modifyTok, ensures_bind, ensures_modify,
    ensures_get]
  refine Counts.checkLimit _ _ _ _ ?_
  have hconsume := (h.consume (le_refl n)).mono (Nat.zero_le n)
  have hstring := h.string
  refine ⟨hconsume.tokens, hconsume.nesting, ?_, hconsume.number,
    hconsume.line, hconsume.column, hconsume.keys⟩
  show w.tok.stringBytes + n ≤ b + (w.consumed + n)
  omega

/-- What a string value takes away is where the machine says it is: behind the last character, at
the closing quote or at an escape sequence. -/
theorem continueStringLoop_tally [Double F] (env : Env F) (fuel : Nat) : ∀ {w : World F},
    w.Inv env.input → InString w → Tally P a b 0 w →
      Ensures (continueStringLoop env fuel) w (fun _ => Tally P a b 0)
        (fun _ => Tally P a b 0) := by
  induction fuel with
  | zero => exact fun _ _ h => h
  | succ fuel ih =>
    intro w hi hs h
    obtain ⟨runEnd, hscan, hp⟩ := scanPlain_plainRun hi
    rw [continueStringLoop]
    simp only [ensures_bind, ensures_get, hscan, ensures_ofExcept_ok]
    have hrun : Refines 0 env w (deliverRun env w.consumed runEnd) _ := deliverRun_refines hi hs hp
    refine (Ensures.and hrun (deliverRun_tally env runEnd h)).mono ?_ fun _ _ h => h.2
    rintro cut w₁ ⟨⟨hi₁, -, hs₁, -, hcut⟩, h₁⟩
    cases cut with
    | true => exact h₁
    | false =>
      simp only [Bool.false_eq_true, if_false] at hcut ⊢
      subst hcut
      by_cases hend : w₁.consumed = env.input.len
      · rw [if_pos hend, ensures_bind]
        exact ((Buffers.flushChars env.handler).counts _ h₁).mono (fun _ _ h => h) fun _ _ h => h
      have hlt : w₁.consumed < env.input.len := by
        have := hi₁.consumed_le
        omega
      obtain ⟨c, l, hd⟩ : ∃ c l, env.input.bytes.drop w₁.consumed = c :: l :=
        ⟨_, _, List.drop_eq_getElem_cons hlt⟩
      rw [if_neg hend, env.input.get_eq hd, ensures_bind, ensures_ofExcept_ok]
      by_cases hq : c = quote
      · rw [if_pos hq, ensures_bind]
        exact (endString_tally env h₁).mono (fun _ _ h => h) fun _ _ h => h
      rw [if_neg hq]
      by_cases hb : c = backslash
      swap
      · rw [if_pos hb]
        exact h₁
      subst hb
      rw [if_neg (by simp), resolveEscape_eq, hd, ensures_bind]
      cases hr : resolve (backslash :: l) with
      | error e => exact h₁
      | ok r =>
        rw [ensures_ofExcept_ok]
        cases r with
        | none =>
          dsimp only
          rw [ensures_bind]
          exact ((Buffers.flushChars env.handler).counts _ h₁).mono (fun _ _ h => h) fun _ _ h => h
        | some r =>
          obtain ⟨ch, n⟩ := r
          dsimp only
          rw [ensures_bind]
          have hpush : Refines 0 env w₁ (pushEscape env w₁.consumed ch n) _ :=
            pushEscape_refines hi₁ hs₁ hd hr
          refine (Ensures.and hpush (pushEscape_tally env ch n h₁)).mono ?_ fun _ _ h => h.2
          rintro - w₂ ⟨⟨hi₂, -, hs₂, -⟩, h₂⟩
          exact ih hi₂ hs₂ h₂

theorem continueString_tally [Double F] (env : Env F) (hi : w.Inv env.input)
    (hs : w.tok.inString = true) (h : Tally P a b 0 w) :
    Ensures (continueString env) w (fun _ => Tally P a b 0) (fun _ => Tally P a b 0) := by
  unfold continueString
  rw [ensures_bind]
  have hchars : Refines 0 env w ensureChars _ := ensureChars_refines hi hs
  refine (Ensures.and hchars (Buffers.ensureChars.counts w h)).mono ?_ fun _ _ h => h.2
  rintro - w₁ ⟨⟨hi₁, -, hs₁, -⟩, h₁⟩
  exact continueStringLoop_tally env _ hi₁ hs₁ h₁

/-! ### Tokens -/

theorem Counts.startString (env : Env F) : Counts P a b 0 0 (startString env) := by
  unfold RJsonParser.startString
  refine .bind .takeOne fun _ => .bind Buffers.ensureChars.counts fun _ => ?_
  refine .bind Buffers.clearChars.counts fun _ => .bind (.callback _ _) fun _ => ?_
  refine .bind (j := 1) (Leads.modify fun w h => ?_) fun _ => ?_
  · exact ⟨h.tokens, h.nesting, Nat.zero_le _, h.number, h.line, h.column, h.keys⟩
  · exact .bind (.tokenDone _) fun _ => .modifyTok fun _ => ⟨rfl, rfl, rfl, rfl⟩

theorem Counts.processComma (env : Env F) : Counts P a b 0 0 (processComma env) := by
  unfold RJsonParser.processComma
  refine .get_bind fun w => .ite (.throw _) (.ite (.throw _) ?_)
  refine .bind .takeOne fun _ => .bind (.tokenDone _) fun _ => ?_
  exact .modifyTok fun _ => ⟨rfl, rfl, rfl, rfl⟩

theorem Counts.processColon (env : Env F) : Counts P a b 0 0 (processColon env) := by
  unfold RJsonParser.processColon
  refine .get_bind fun w => .ite (.throw _) ?_
  exact .bind .takeOne fun _ => .tokenTo _ _

/-- A container is opened or closed: one level more at most, for the byte that was taken. -/
theorem Counts.bracket (env : Env F) (e : Event F) {f : Tokenizer → Tokenizer} (state : State)
    (hf : ∀ t, (f t).tokenCount = t.tokenCount ∧ (f t).depthStack.length ≤ t.depthStack.length + 1 ∧
      (f t).stringBytes = t.stringBytes ∧ (f t).number = t.number) :
    Counts P a b 0 0
      (do RJsonParser.takeOne; RJsonParser.callback env.handler e; RJsonParser.modifyTok f
          RJsonParser.tokenTo env.limits state) := by
  refine .bind .takeOne fun _ => .bind (.callback _ e) fun _ => ?_
  refine Leads.bind (J := Due P a b) (Leads.modify fun w h => ?_) fun _ => Due.tokenTo _ state
  obtain ⟨h1, h2, h3, h4⟩ := hf w.tok
  have hnesting := h.nesting
  refine ⟨⟨?_, ?_, ?_, ?_, h.line, ?_, h.keys⟩, ?_⟩
  · rw [h1]
    exact (h.mono (Nat.zero_le 1)).tokens
  · show (f w.tok).depthStack.length ≤ b + w.consumed
    omega
  · rw [h3]
    exact h.string
  · rw [h4]
    exact h.number
  · rw [h4]
    exact h.column
  · rw [h1]
    exact h.tokens

theorem Counts.processOpenObject (env : Env F) : Counts P a b 0 0 (processOpenObject env) := by
  unfold RJsonParser.processOpenObject
  refine .get_bind fun w => .ite (.throw _) (.bind (.checkDepth _) fun _ => ?_)
  exact .bracket env _ _ fun _ => ⟨rfl, le_rfl, rfl, rfl⟩

theorem Counts.processCloseObject (env : Env F) : Counts P a b 0 0 (processCloseObject env) := by
  unfold RJsonParser.processCloseObject
  refine .get_bind fun w => .ite (.throw _) (.ite (.throw _) (.ite (.throw _) ?_))
  refine .bracket env _ _ fun t => ⟨rfl, ?_, rfl, rfl⟩
  exact (List.length_tail.trans_le (Nat.sub_le _ _)).trans (Nat.le_succ _)

theorem Counts.processOpenArray (env : Env F) : Counts P a b 0 0 (processOpenArray env) := by
  unfold RJsonParser.processOpenArray
  refine .get_bind fun w => .ite (.throw _) (.bind (.checkDepth _) fun _ => ?_)
  exact .bracket env _ _ fun _ => ⟨rfl, le_rfl, rfl, rfl⟩

theorem Counts.processCloseArray (env : Env F) : Counts P a b 0 0 (processCloseArray env) := by
  unfold RJsonParser.processCloseArray
  refine .get_bind fun w => .ite (.throw _) (.ite (.throw _) (.ite (.throw _) ?_))
  refine .bracket env _ _ fun t => ⟨rfl, ?_, rfl, rfl⟩
  exact (List.length_tail.trans_le (Nat.sub_le _ _)).trans (Nat.le_succ _)

theorem Counts.processLiteralArm (env : Env F) (name : String) (rest : List UInt8)
    (value : Option Bool) : Counts P a b 0 0 (processLiteralArm env name rest value) := by
  unfold RJsonParser.processLiteralArm
  refine .get_bind fun w => .ite (.throw _) ?_
  unfold processLiteral
  refine Leads.get_bind fun w h => ?_
  dsimp only
  by_cases hfirst : env.input.len < w.consumed + 1
  · rw [if_pos hfirst]
    exact h
  rw [if_neg hfirst, ensures_bind]
  cases checkLiteral env.input (w.consumed + 1) rest with
  | error e => exact h
  | ok _ =>
    rw [ensures_ofExcept_ok, ensures_ite]
    split_ifs
    · exact h
    simp only [setConsumed, addColumn, ensures_bind, ensures_modify]
    have hconsume := h.consume (le_refl (1 + rest.length))
    rw [← Nat.add_assoc] at hconsume
    have hdone : Counts P a b 1 0 (do
        RJsonParser.tokenTo env.limits .afterValue
        RJsonParser.callback env.handler (literalEvent value)
        return true) :=
      .bind (.tokenTo env.limits .afterValue) fun _ => .bind (.callback _ _) fun _ =>
        .pure true le_rfl
    simpa only [ensures_bind] using hdone _ (hconsume.mono (Nat.le_add_right 1 _))

/-- A number begins with a byte that the column does not show yet. -/
theorem Counts.processNumber (env : Env F) {c : UInt8} (hc : startsNumber c = true) :
    Counts P a b 0 0 (processNumber env c) := by
  have hlen := (NumberState.start_within c).2
  have hun := (NumberState.start c).unreported_le
  unfold RJsonParser.processNumber
  refine Leads.get_bind fun w h => ?_
  rw [ensures_ite]
  split_ifs
  · exact h
  simp only [RJsonParser.modifyTok, setConsumed, ensures_bind, ensures_modify]
  refine (Counts.tokenDone env.limits _ ?_).mono ?_ fun _ _ h => h
  swap
  · exact fun _ _ h => ⟨h.tokens, h.nesting, h.string, h.number, h.line, h.column, h.keys⟩
  obtain ⟨h1, h2, h3, h4, h5, h6, h7⟩ := h
  refine ⟨?_, ?_, ?_, P.mono ?_ (P.start hc), ?_, ?_, ?_⟩
  all_goals dsimp only
  all_goals omega

/-! ### Keys -/

theorem Tally.weaken (h : Tally P a b k w) {a' b' : Nat} (ha : a' ≤ a) (hb : b ≤ b') :
    Tally P a' b' k w := by
  obtain ⟨h1, h2, h3, h4, h5, h6, h7⟩ := h
  exact ⟨by omega, by omega, by omega, P.mono (by omega) h4, by omega, by omega, by omega⟩

/-- What the tokenizer and the symbol table count, where `k` of the bytes consumed are not yet
counted. A key is looked up again if a call fails at it, which happened `lost` times. -/
structure KeyTally (P : NumberBound) (lost b k : Nat) (s : World F × Interner) : Prop where
  world : Tally P (s.2.attempts - lost) b k s.1
  hits : s.2.hits ≤ s.2.attempts

theorem units_le_of_decodeString {raw : List UInt8} {s : Text} (h : decodeString raw = some s) :
    units raw ≤ raw.length := by
  obtain ⟨cs, rfl, -⟩ := written_decoded h
  rw [← utf16Len_eq, length_encode]
  exact utf16Len_le cs

/-- A key that takes `m` bytes between its quotes is reported. -/
theorem reportKey_tally (hd : Handler F) (key : Text) {u m : Nat} (hu : u ≤ m)
    (h : Tally P a b 0 w) :
    Ensures (reportKey hd key u) { w with consumed := w.consumed + 1 + m + 1 }
      (fun _ => Tally P (a + 1) b 1) (fun _ => Tally P (a + 1) b 0) := by
  obtain ⟨h1, h2, h3, h4, h5, h6, h7⟩ := h
  unfold reportKey
  rw [ensures_bind]
  refine (checkDuplicate_spec key _).mono ?_ ?_
  · rintro - w' ⟨-, rfl⟩
    simp only [addColumn, ensures_bind, ensures_modify]
    have hcall : Counts P (a + 1) b 1 1 (callback hd (.key key)) := .callback hd _
    refine (hcall _ ?_).mono (fun _ _ h => h) fun _ _ h => h
    refine ⟨?_, ?_, ?_, P.mono ?_ h4, ?_, ?_, ?_⟩
    all_goals dsimp only [SharedLocator.addColumn]
    all_goals omega
  · rintro e w' ⟨-, rfl, -⟩
    refine ⟨?_, ?_, ?_, P.mono ?_ h4, ?_, ?_, ?_⟩
    all_goals dsimp only
    all_goals omega

theorem Tally.cleared (h : Tally P a b k w) : Tally P a b k w.cleared :=
  ⟨h.tokens, h.nesting, h.string, h.number, h.line, h.column, h.keys⟩

theorem reportChars_tally (env : Env F) {u m : Nat} (hu : u ≤ m) (h : Tally P a b 0 w) :
    Ensures (reportChars env (w.consumed + 1 + m) u) w (fun _ => Tally P (a + 1) b 1)
      (fun _ => Tally P (a + 1) b 0) := by
  unfold reportChars
  simp only [setConsumed, ensures_bind, ensures_modify, ensures_get]
  exact reportKey_tally env.handler _ hu h

section Key

variable {env : Env F} {t : List UInt8} {n km : Nat} {κ : Interner}

/-- A key is decoded into the buffer, and has no more units than bytes. -/
theorem decodeKey_tally (h : AtToken env w quote t)
    (hf : keyFront env.limits.maxNameLength 0 t = .found n) (ht : Tally P a b k w) :
    Ensures (decodeKey env.input (w.consumed + 1) (w.consumed + 1 + n)) w.cleared
      (fun u w' => u ≤ n ∧ Tally P a b k w' ∧ w'.consumed = w.consumed)
      (fun _ => Tally P a b k) := by
  obtain ⟨r, hq, hslice, hsc, hlen⟩ := h.closing hf
  have hdecode := decodeKey_spec (w := w.cleared) hq (Nat.le_add_right _ _)
    (by rw [hslice]; exact hsc) rfl
  refine hdecode.mono ?_ ?_
  · rintro u w' ⟨s, hs, rfl, rfl, -⟩
    have hunits := units_le_of_decodeString hs
    rw [hslice] at hunits ⊢
    refine ⟨hunits.trans (List.length_take_le _ _), ?_, rfl⟩
    exact ht.buffered ⟨s, w.tok.chunkSize, w.calls, rfl⟩
  · rintro e w' ⟨m, chars, -, rfl, -⟩
    exact ht.buffered ⟨chars, w.tok.chunkSize, w.calls, rfl⟩

theorem processInterned_tally (h : AtToken env w quote t)
    (hf : keyFront env.limits.maxNameLength 0 t = .found n) (hk : κ.Inv km)
    (ht : KeyTally P lost b 0 (w, κ)) :
    Ensures (processInterned env (w.consumed + 1) (w.consumed + 1 + n) (t.take n)) (w.cleared, κ)
      (fun _ => KeyTally P lost b 1) (fun _ => KeyTally P (lost + 1) b 0) := by
  have hhits : κ.hits ≤ κ.attempts := ht.hits
  have hworld : Tally P (κ.attempts - lost) b 0 w := ht.world
  have hdone {w' : World F} (h' : Tally P (κ.attempts - lost + 1) b 1 w') :
      Tally P (κ.attempts + 1 - lost) b 1 w' := h'.weaken (by omega) le_rfl
  have hfail {w' : World F} (h' : Tally P (κ.attempts - lost) b 0 w') :
      Tally P (κ.attempts + 1 - (lost + 1)) b 0 w' := h'.weaken (by omega) le_rfl
  have hfail' {w' : World F} (h' : Tally P (κ.attempts - lost + 1) b 0 w') :
      Tally P (κ.attempts + 1 - (lost + 1)) b 0 w' := h'.weaken (by omega) le_rfl
  obtain ⟨r, hlookup, hmem⟩ := KeySymbolTable.lookup_spec hk.wf.toSized (t.take n)
    (KeySymbolTable.hash (t.take n))
  unfold processInterned
  simp only [modifyInterner, ensures_bind, ensures_modify, ensures_get]
  rw [hlookup, ensures_ofExcept_ok]
  cases r with
  | some found =>
    have hown : t.take n = encode found := hk.own _ (hmem found rfl)
    have hunits : utf16Len found ≤ n := by
      refine (utf16Len_le found).trans ?_
      rw [← length_encode, ← hown]
      exact List.length_take_le _ _
    simp only [ensures_bind, ensures_modify]
    rw [ensures_zoom]
    simp only [setConsumed, ensures_modify]
    rw [ensures_zoom]
    refine (reportKey_tally env.handler found hunits hworld.cleared).mono ?_ ?_
    · exact fun _ w' h' => ⟨hdone h', Nat.succ_le_succ hhits⟩
    · exact fun _ w' h' => ⟨hfail' h', Nat.succ_le_succ hhits⟩
  | none =>
    simp only [ensures_bind, ensures_zoom]
    refine (decodeKey_tally h hf hworld).mono ?_ ?_
    · rintro u w₁ ⟨hu, h₁, hcons⟩
      simp only [ensures_get]
      cases κ.table.put (t.take n) (KeySymbolTable.hash (t.take n)) w₁.tok.chars with
      | error e => exact ⟨hfail h₁, hhits.trans (Nat.le_succ _)⟩
      | ok table =>
        rw [ensures_ofExcept_ok, ensures_modify, ← hcons]
        refine (reportChars_tally env hu h₁).mono ?_ ?_
        · exact fun _ w' h' => ⟨hdone h', hhits.trans (Nat.le_succ _)⟩
        · exact fun _ w' h' => ⟨hfail' h', hhits.trans (Nat.le_succ _)⟩
    · exact fun e w' h' => ⟨hfail h', hhits.trans (Nat.le_succ _)⟩

theorem KeyTally.fail {s : World F × Interner} (h : KeyTally P lost b k s) :
    KeyTally P (lost + 1) b 0 s :=
  ⟨(h.world.mono (Nat.zero_le k)).weaken (Nat.sub_le_sub_left (Nat.le_succ lost) _) le_rfl, h.hits⟩

/-- A program that does not use the symbol table. -/
theorem zoom_tally {x : TokM F α} {Q : α → Nat} {s : World F × Interner} (h : KeyTally P lost b k s)
    (hx : Ensures x s.1 (fun y => Tally P (s.2.attempts - lost) b (Q y))
      (fun _ => Tally P (s.2.attempts - lost) b 0)) :
    Ensures (zoom x : KeyM F α) s (fun y => KeyTally P lost b (Q y))
      (fun _ => KeyTally P (lost + 1) b 0) := by
  rw [ensures_zoom]
  refine hx.mono ?_ ?_
  · exact fun _ _ h' => ⟨h', h.hits⟩
  · exact fun _ _ h' => KeyTally.fail ⟨h', h.hits⟩

/-- **`process_key`**: what it consumed is not counted yet, if the key was complete. -/
theorem processKey_tally (h : AtToken env w quote t) (hk : κ.Inv km)
    (ht : KeyTally P lost b 0 (w, κ)) :
    Ensures (processKey env) (w, κ) (fun complete => KeyTally P lost b (if complete then 1 else 0))
      (fun _ => KeyTally P (lost + 1) b 0) := by
  have hdrop : env.input.bytes.drop (w.consumed + 1) = t := by
    rw [← List.drop_drop]
    exact congrArg (List.drop 1) h.rest
  have hscan := scanKey_spec env.input env.limits.maxNameLength (w.consumed + 1)
  rw [hdrop] at hscan
  unfold processKey
  rw [ensures_bind, ensures_get, ensures_bind]
  cases hf : keyFront env.limits.maxNameLength 0 t with
  | need =>
    rw [hf] at hscan
    rw [hscan]
    exact ht
  | bad =>
    rw [hf] at hscan
    obtain ⟨m, hm⟩ := hscan
    rw [hm]
    exact ht.fail
  | found n =>
    rw [hf] at hscan
    obtain ⟨esc, hscan, hplain⟩ := hscan
    rw [hscan, ensures_ofExcept_ok]
    dsimp only
    unfold Ensures
    rw [zoom_clear_bind]
    cases hint : (if (!esc && !κ.disabled && decide (w.consumed + 1 + n - (w.consumed + 1) ≤
        maxKeyBytes)) = true then env.input.contiguous (w.consumed + 1) (w.consumed + 1 + n)
        else none) with
    | some bytes =>
      have hbytes : bytes = t.take n := by
        split at hint
        · rw [env.input.contiguous_eq _ _ _ hint, hdrop, Nat.add_sub_cancel_left]
        · cases hint
      subst hbytes
      show Ensures (do
        processInterned env (w.consumed + 1) (w.consumed + 1 + n) (t.take n)
        return true) (w.cleared, κ) _ _
      rw [ensures_bind]
      exact (processInterned_tally h hf hk ht).mono (fun _ _ h => h) fun _ _ h => h
    | none =>
      show Ensures (do
        let u ← zoom (decodeKey env.input (w.consumed + 1) (w.consumed + 1 + n))
        zoom (reportChars env (w.consumed + 1 + n) u)
        return true) (w.cleared, κ) _ _
      simp only [ensures_bind, ensures_zoom]
      refine (decodeKey_tally h hf ht.world).mono ?_ fun e w' h' => KeyTally.fail ⟨h', ht.hits⟩
      rintro u w₁ ⟨hu, h₁, hcons⟩
      rw [← hcons]
      refine (reportChars_tally env hu h₁).mono ?_ ?_
      · exact fun _ w' h' => ⟨h'.weaken (Nat.le_succ _) le_rfl, ht.hits⟩
      · exact fun _ w' h' => KeyTally.fail ⟨h'.weaken (Nat.le_succ _) le_rfl, ht.hits⟩

theorem always_tally {m : TokM F Unit} (hm : Counts P (κ.attempts - lost) b 0 0 m)
    (ht : KeyTally P lost b 0 (w, κ)) :
    Ensures (always m) (w, κ) (fun _ => KeyTally P lost b 0)
      (fun _ => KeyTally P (lost + 1) b 0) := by
  unfold always
  rw [ensures_bind]
  exact zoom_tally (Q := fun _ => 0) ht (hm w ht.world)

theorem processQuote_tally (h : AtToken env w quote t) (hk : κ.Inv km)
    (ht : KeyTally P lost b 0 (w, κ)) :
    Ensures (processQuote env) (w, κ) (fun _ => KeyTally P lost b 0)
      (fun _ => KeyTally P (lost + 1) b 0) := by
  unfold processQuote
  rw [ensures_bind, ensures_get, ensures_ite]
  split_ifs
  · exact ht.fail
  · rw [ensures_bind]
    refine (processKey_tally h hk ht).mono ?_ fun _ _ h => h
    rintro complete s hs
    cases complete with
    | true =>
      simp only [if_true, ensures_bind]
      exact zoom_tally (Q := fun _ => 0) hs (Counts.tokenTo env.limits .expectColon s.1 hs.world)
    | false => exact hs
  · rw [ensures_bind]
    exact zoom_tally (Q := fun _ => 0) ht (Counts.startString env w ht.world)

theorem processToken_tally {c : UInt8} (h : AtToken env w c t) (hk : κ.Inv km)
    (ht : KeyTally P lost b 0 (w, κ)) :
    Ensures (processToken env c) (w, κ) (fun _ => KeyTally P lost b 0)
      (fun _ => KeyTally P (lost + 1) b 0) := by
  have hzoom {m : TokM F Bool} (hm : Counts P (κ.attempts - lost) b 0 0 m) :
      Ensures (zoom m : KeyM F Bool) (w, κ) (fun _ => KeyTally P lost b 0)
        (fun _ => KeyTally P (lost + 1) b 0) :=
    zoom_tally (Q := fun _ => 0) ht (hm w ht.world)
  unfold processToken
  by_cases hq : c = quote
  · subst hq
    rw [if_pos rfl]
    exact processQuote_tally h hk ht
  rw [if_neg hq]
  split_ifs with _ _ _ _ _ _ _ _ _ hnumber
  · exact always_tally (.processComma env) ht
  · exact always_tally (.processColon env) ht
  · exact always_tally (.processOpenObject env) ht
  · exact always_tally (.processCloseObject env) ht
  · exact always_tally (.processOpenArray env) ht
  · exact always_tally (.processCloseArray env) ht
  · exact hzoom (.processLiteralArm env _ _ _)
  · exact hzoom (.processLiteralArm env _ _ _)
  · exact hzoom (.processLiteralArm env _ _ _)
  · exact always_tally (.processNumber env (by simpa [startsNumber] using hnumber)) ht
  · exact ht.fail

end Key

section Receive

variable [Double F] {env : Env F} {km : Nat} {s : World F × Interner}

/-- **One iteration** of the loop of `receive`, where it goes on with a number as `P` says. -/
theorem receiveStep_tally (hi : s.1.Inv env.input) (hk : s.2.Inv km)
    (hlt : s.1.consumed < env.input.len) (ht : KeyTally P lost b 0 s)
    (hnumber : s.1.tok.number.stage ≠ .none → Ensures (continueNumber env) s.1
      (fun _ => Tally P (s.2.attempts - lost) b 0) (fun _ => Tally P (s.2.attempts - lost) b 0)) :
    Ensures (receiveStep env) s (fun _ => KeyTally P lost b 0)
      (fun _ => KeyTally P (lost + 1) b 0) := by
  obtain ⟨w, κ⟩ := s
  unfold receiveStep
  rw [ensures_bind, ensures_get]
  by_cases hs : w.tok.inString = true
  · rw [if_pos hs]
    exact zoom_tally (Q := fun _ => 0) ht (continueString_tally env hi hs ht.world)
  rw [if_neg hs]
  by_cases hn : w.tok.number.stage = .none
  swap
  · rw [if_pos hn]
    exact zoom_tally (Q := fun _ => 0) ht (hnumber hn)
  rw [if_neg (by simpa using hn)]
  obtain ⟨c, l, hd⟩ : ∃ c l, env.input.bytes.drop w.consumed = c :: l :=
    ⟨_, _, List.drop_eq_getElem_cons hlt⟩
  rw [ensures_bind, env.input.get_eq hd, ensures_ofExcept_ok]
  by_cases hb : c = 0x20 ∨ c = 0x0A ∨ c = 0x09 ∨ c = 0x0D
  · rw [if_pos hb, ensures_bind]
    exact zoom_tally (Q := fun _ => 0) ht (Counts.processWhitespace env w ht.world)
  · rw [if_neg hb]
    unfold Ensures
    rw [zoom_modifyTok_bind]
    have htoken : AtToken env { w with tok := { w.tok with afterCr := false } } c l :=
      ⟨hd, by simpa using hs, hn, rfl, wsByte_eq_none.mpr hb⟩
    have h := ht.world
    exact processToken_tally htoken hk
      ⟨⟨h.tokens, h.nesting, h.string, h.number, h.line, h.column, h.keys⟩, ht.hits⟩

theorem receiveLoop_tally (fuel : Nat) : ∀ {s : World F × Interner}, s.1.Inv env.input →
    s.2.Inv km → s.1.tok.chunkSize ≤ km → KeyTally .within lost b 0 s →
      Ensures (receiveLoop env fuel) s (fun _ => KeyTally .within lost b 0)
        (fun _ => KeyTally .within (lost + 1) b 0) := by
  induction fuel with
  | zero => exact fun _ _ _ ht => ht.fail
  | succ fuel ih =>
    intro s hi hk hkm ht
    rw [receiveLoop, ensures_bind, ensures_get, ensures_ite]
    split_ifs with hlt
    swap
    · exact ht
    rw [ensures_bind]
    have hstep := receiveStep_refines hi hk hkm hlt
    have htally := receiveStep_tally hi hk hlt ht fun _ => Counts.continueNumber env s.1 ht.world
    refine (Ensures.and hstep htally).mono ?_ fun _ _ h => h.2
    rintro more s' ⟨⟨hi', hk', ⟨new, os, hran⟩, -⟩, ht'⟩
    cases more with
    | true => exact ih hi' hk' (by rw [hran.chunkSize]; exact hkm) ht'
    | false => exact ht'

/-- **`receive`** keeps the tally. -/
theorem receive_tally (hi : s.1.Inv env.input) (hk : s.2.Inv km) (hkm : s.1.tok.chunkSize ≤ km)
    (ht : KeyTally .within lost b 0 s) :
    Ensures (receive env) s (fun _ => KeyTally .within lost b 0)
      (fun _ => KeyTally .within (lost + 1) b 0) := by
  unfold receive
  rw [ensures_bind, ensures_get]
  exact receiveLoop_tally _ hi hk hkm ht

end Receive

end Programs

end RJsonParser
