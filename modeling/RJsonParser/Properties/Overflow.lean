import RJsonParser.Properties.Outcome
import RJsonParser.Properties.Powers
import RJsonParser.Properties.Progress

/-!
# What can overflow

The accumulators of the tokenizer have fixed widths. Most of them stay in their types on any stream:
the mantissa and the exponent of a number are guarded, tokens are no more than the bytes, and every
subtraction is of something smaller. Two are not guarded: where the point of a number is, which
moves with each digit, and how many keys were looked up.

* `Typed` — the accumulators are in their types
* `IterationSpare` — the two that are not guarded have room for what the next iteration of the main
  loop does, as the input says
* `LoopHead.counted` — then they are in their types in every state of the loop
* `accumulators_typed` — so they are in every state of a run whose iterations all have room
* `SpareAll.of_short` — runs on less than about 2^31 bytes do
* `accumulators_overflow` — a run on more need not
-/

namespace RJsonParser

open Infra Infra.Utf8

variable {F : Type}

/-! ## What is in its type -/

/-- The accumulators of a number are in their types. The sum that `real_value` makes is there where
the number has ended. -/
structure NumberState.Typed (s : NumberState) : Prop where
  mantissa : FitsSigned 64 s.mantissa
  decimalShift : FitsSigned 32 s.decimalShift
  firstDropped : FitsSigned 32 s.firstDropped
  exponent : FitsSigned 32 s.exponent
  scale : s.stage = .none → FitsSigned 32 s.scale

/-- The accumulators of a tokenizer are in their types. -/
structure Typed (s : World F × Interner) : Prop where
  number : s.1.tok.number.Typed
  tokenCount : FitsSigned 64 s.1.tok.tokenCount
  attempts : FitsSigned 32 s.2.attempts
  hits : FitsSigned 32 s.2.hits

theorem NumberState.Within.typed {n : Nat} {s : NumberState} (h : s.Within n)
    (hshift : FitsSigned 32 s.decimalShift) (hscale : s.stage = .none → FitsSigned 32 s.scale) :
    s.Typed := by
  obtain ⟨-, hmantissa, -, hexponent, hlow, hhigh⟩ := h
  have hmax : i64Max = 9223372036854775807 := rfl
  refine ⟨?_, hshift, ?_, ?_, hscale⟩
  all_goals
    unfold FitsSigned
    omega

theorem NumberState.start_typed (b : UInt8) : (NumberState.start b).Typed := by
  have hshift : (NumberState.start b).decimalShift = 0 := by
    unfold start
    dsimp only
    split_ifs <;> rfl
  refine (start_within b).1.typed ?_ fun hstage => ?_
  · rw [hshift, FitsSigned]
    decide
  · rw [start_stage] at hstage
    split_ifs at hstage

/-- What is known of a number: its accumulators are in their types, and while it is in progress it
was read from something. -/
structure NumberState.Known (s : NumberState) : Prop where
  typed : s.Typed
  text : s.stage ≠ .none → ∃ text, s.ReadFrom text

theorem NumberState.start_known {b : UInt8} (hb : startsNumber b = true) :
    (NumberState.start b).Known :=
  ⟨start_typed b, fun _ => ⟨[b], b, [], rfl, hb, rfl⟩⟩

/-- A number is bounded and known. -/
def NumberBound.known : NumberBound where
  holds n s := s.Within n ∧ s.Known
  mono hm h := ⟨h.1.mono hm, h.2⟩
  start hb := ⟨(NumberState.start_within _).1, NumberState.start_known hb⟩

theorem Tally.within {a b k : Nat} {w : World F} (h : Tally .known a b k w) :
    Tally .within a b k w :=
  ⟨h.tokens, h.nesting, h.string, h.number.1, h.line, h.column, h.keys⟩

theorem Tally.known {a b k : Nat} {w : World F} (h : Tally .within a b k w)
    (hn : w.tok.number.Known) : Tally .known a b k w :=
  ⟨h.tokens, h.nesting, h.string, ⟨h.number, hn⟩, h.line, h.column, h.keys⟩

/-! ## The loops -/

/-- The states of a loop between its iterations. -/
def Iterates {σ α : Type} (loop : Nat → EStateM Stop σ α) (s s' : σ) : Prop :=
  ∃ k, loop k s = .error .outOfFuel s'

/-- The digits that `continue_number` takes at once. -/
def digitsAtOnce (env : Env F) (w : World F) : List UInt8 :=
  let n := w.tok.number
  let span := env.input.spanFrom w.consumed
  if !n.mantissaFull && (n.stage == .integer || n.stage == .fraction) then
    span.take (NumberState.digitRun span n.mantissa).2
  else []

/-- **An iteration of the loop of `continue_number` can overflow nothing**: what was read of the
number goes on with digits, and with a byte if the digits are not too many. -/
def NumberSpare (env : Env F) (w : World F) : Prop :=
  w.consumed < env.input.len → ∀ text, w.tok.number.ReadFrom text →
    PowerFits (text ++ digitsAtOnce env w) ∧
    ∀ b l, env.rest w = digitsAtOnce env w ++ b :: l →
      digitsAtOnce env w = [] ∨
        exceeds env.limits.maxNumberLength (w.tok.number.length + (digitsAtOnce env w).length) =
          false →
      PowerFits (text ++ digitsAtOnce env w ++ [b]) ∧
        ∀ n, w.tok.number.takeBytes (digitsAtOnce env w) = some n → n.takeByte b = .ended →
          ScaleFits (text ++ digitsAtOnce env w)

section Numbers

variable {env : Env F} {w : World F} {a b : Nat}

/-- A number with `k` more bytes. -/
def World.withNumber (w : World F) (n : NumberState) (k : Nat) : World F :=
  { w with tok := { w.tok with number := n }, consumed := w.consumed + k }

theorem digitsAtOnce_start (env : Env F) (w : World F) : digitsAtOnce env w <+: env.rest w := by
  unfold digitsAtOnce
  dsimp only
  split_ifs
  · exact (List.take_prefix _ _).trans (env.input.spanFrom_prefix w.consumed)
  · exact List.nil_prefix

/-- The digits that are taken at once are taken one by one. -/
theorem NumberState.Running.takeBytes (span : List UInt8) : ∀ {s : NumberState}, s.Running →
    s.takeBytes (span.take (digitRun span s.mantissa).2) =
      some (s.ran (digitRun span s.mantissa).1 (digitRun span s.mantissa).2) := by
  induction span with
  | nil => exact fun _ => by simp [digitRun, NumberState.takeBytes]
  | cons b span ih =>
    intro s hs
    unfold digitRun
    split
    · next hc =>
      obtain ⟨n, hn, hran⟩ := hs.takeByte hc.2 hc.1
      have hnext := ih (hs.ran (s.mantissa * 10 + (digitOf b).toNat) 1)
      rw [ran_ran, Nat.add_comm 1] at hnext
      dsimp only
      rw [List.take_succ_cons, NumberState.takeBytes, hn]
      dsimp only
      rw [hran]
      exact hnext
    · simp [NumberState.takeBytes]

theorem setNumber_withNumber (env : Env F) {w : World F} (n : NumberState) (k : Nat) :
    Ensures (setNumber env n (w.consumed + k)) w
      (fun _ w' => w' = w.withNumber n k ∧ exceeds env.limits.maxNumberLength n.length = false)
      (fun _ w' => w' = w.withNumber n k) := by
  unfold setNumber
  simp only [modifyTok, setConsumed, ensures_bind, ensures_modify]
  refine (checkLimit_spec _ _ _ _).mono (fun _ w' h => ?_) fun _ w' h => ?_
  · obtain ⟨rfl, hlimit⟩ := h
    exact ⟨rfl, hlimit⟩
  · exact h.1

/-- **`take_digit_run`**, as far as there is input: the state after the digits, also where they are
too many. -/
theorem takeDigits_spec (env : Env F) {w : World F} (hm : w.tok.number.mantissa ≤ i64Max) :
    Ensures (takeDigits env) w
      (fun more w' => ∃ n, w.tok.number.takeBytes (digitsAtOnce env w) = some n ∧
        w' = w.withNumber n (digitsAtOnce env w).length ∧
        (digitsAtOnce env w = [] ∨ exceeds env.limits.maxNumberLength n.length = false) ∧
        (w.consumed < env.input.len → more = decide (w'.consumed < env.input.len)))
      (fun _ w' => ∃ n, w.tok.number.takeBytes (digitsAtOnce env w) = some n ∧
        w' = w.withNumber n (digitsAtOnce env w).length) := by
  have hnone (hw : digitsAtOnce env w = []) : ∃ n,
      w.tok.number.takeBytes (digitsAtOnce env w) = some n ∧
        w = w.withNumber n (digitsAtOnce env w).length ∧
        (digitsAtOnce env w = [] ∨ exceeds env.limits.maxNumberLength n.length = false) ∧
        (w.consumed < env.input.len → true = decide (w.consumed < env.input.len)) := by
    rw [hw]
    exact ⟨w.tok.number, rfl, rfl, .inl rfl, fun h => (decide_eq_true h).symm⟩
  unfold takeDigits
  rw [ensures_bind, ensures_get]
  dsimp only
  by_cases hc : (!w.tok.number.mantissaFull &&
      (w.tok.number.stage == .integer || w.tok.number.stage == .fraction)) = true
  swap
  · rw [if_neg hc]
    exact hnone (by rw [digitsAtOnce, if_neg hc])
  have hrun : w.tok.number.Running := by
    simp only [Bool.and_eq_true, Bool.not_eq_true', Bool.or_eq_true, beq_iff_eq] at hc
    exact ⟨hc.2, hc.1⟩
  have htake := hrun.takeBytes (env.input.spanFrom w.consumed)
  have hcount := (NumberState.digitRun_le (env.input.spanFrom w.consumed) hm).2
  have hdigits : digitsAtOnce env w = (env.input.spanFrom w.consumed).take
      (NumberState.digitRun (env.input.spanFrom w.consumed) w.tok.number.mantissa).2 := by
    rw [digitsAtOnce, if_pos hc]
  rw [if_pos hc, NumberState.takeDigitRun_eq]
  rw [← hdigits] at htake
  generalize NumberState.digitRun (env.input.spanFrom w.consumed) w.tok.number.mantissa = r at *
  obtain ⟨m, n⟩ := r
  dsimp only at htake hcount hdigits ⊢
  have hlen : (digitsAtOnce env w).length = n := by
    rw [hdigits, List.length_take, Nat.min_eq_left hcount]
  by_cases hn : 0 < n
  swap
  · rw [if_neg hn]
    exact hnone (List.length_eq_zero_iff.mp (by omega))
  rw [if_pos hn, ensures_bind]
  refine (setNumber_withNumber env (w := w) (w.tok.number.ran m n) n).mono ?_ ?_
  · rintro - w' ⟨rfl, hlimit⟩
    exact ⟨_, htake, by rw [hlen], .inr hlimit, fun _ => rfl⟩
  · rintro - w' rfl
    exact ⟨_, htake, by rw [hlen]⟩

theorem NumberState.takeBytes_stage {l : List UInt8} : ∀ {s n : NumberState}, s.stage ≠ .none →
    s.takeBytes l = some n → n.stage ≠ .none := by
  induction l with
  | nil => exact fun hs hn => by cases hn; exact hs
  | cons b l ih =>
    intro s n hs hn
    unfold NumberState.takeBytes at hn
    cases hb : s.takeByte b with
    | next s' =>
      rw [hb] at hn
      have hs' : s'.stage ≠ .none := NumberState.takeByte_stage hb
      exact ih (s := s'.addLength 1) hs' hn
    | ended | error message | unreachable =>
      rw [hb] at hn
      cases hn

/-- A number in progress whose text does not overflow. -/
theorem NumberState.ReadFrom.known {n : NumberState} {text : List UInt8} {k : Nat}
    (h : n.ReadFrom text) (hk : n.Within k) (hs : n.stage ≠ .none) (ht : PowerFits text) :
    n.Known :=
  ⟨hk.typed (h.shift_fits ht) fun hnone => absurd hnone hs, fun _ => ⟨text, h⟩⟩

/-- A number that has ended. -/
theorem NumberState.ReadFrom.ended {n : NumberState} {text : List UInt8} {k : Nat}
    (h : n.ReadFrom text) (hk : n.Within k) (hn : n.Typed) (ht : ScaleFits text) :
    ({ n with stage := .none } : NumberState).Known :=
  ⟨(hk.stage .none).typed hn.decimalShift fun _ => h.scale_fits ht, fun hs => absurd rfl hs⟩

variable [Double F]

theorem emitNumber_number (h : Handler F) (w : World F) :
    Ensures (emitNumber h) w
      (fun _ w' => w'.tok.number = { w.tok.number with stage := .none })
      (fun _ w' => w'.tok.number = { w.tok.number with stage := .none }) := by
  unfold emitNumber
  simp only [modifyTok, addColumn, ensures_bind, ensures_get, ensures_modify]
  refine (Buffers.callback h _ _ _ (.refl _)).mono ?_ ?_
  · rintro - w' ⟨chars, cap, calls, rfl⟩
    rfl
  · rintro - w' ⟨chars, cap, calls, rfl⟩
    rfl

/-- After an iteration of the loop of `continue_number` it goes on. -/
theorem continueNumberLoop_succ {w₁ w₂ : World F} {c : UInt8} {n : NumberState}
    (hlt : w.consumed < env.input.len) (hdigits : takeDigits env w = .ok true w₁)
    (hget : env.input.get w₁.consumed = .ok c) (hbyte : w₁.tok.number.takeByte c = .next n)
    (hset : setNumber env (n.addLength 1) (w₁.consumed + 1) w₁ = .ok () w₂) (fuel : Nat) :
    continueNumberLoop env (fuel + 1) w = continueNumberLoop env fuel w₂ := by
  rw [continueNumberLoop, get_bind_apply, if_pos hlt, bind_of_ok hdigits, if_pos rfl,
    get_bind_apply, hget, ofExcept_ok_bind, hbyte]
  exact bind_of_ok hset _

/-- **The loop of `continue_number`** overflows nothing if no iteration of it does. -/
theorem continueNumberLoop_known (fuel : Nat) : ∀ {w : World F}, Tally .known a b 0 w →
    w.tok.number.stage ≠ .none →
    (∀ w', Iterates (continueNumberLoop env) w w' → NumberSpare env w') →
      Ensures (continueNumberLoop env fuel) w (fun _ w' => w'.tok.number.Known)
        (fun _ w' => w'.tok.number.Known) := by
  induction fuel with
  | zero => exact fun ht _ _ => ht.number.2
  | succ fuel ih =>
    intro w ht hs hspare
    rw [continueNumberLoop, ensures_bind, ensures_get, ensures_ite]
    split_ifs with hlt
    swap
    · exact ht.number.2
    -- what the iteration takes does not overflow
    obtain ⟨text, htext⟩ := ht.number.2.text hs
    obtain ⟨hpower, hnext⟩ := hspare w ⟨0, rfl⟩ hlt text htext
    have hdigits := ((takeDigits_spec env ht.number.1.mantissa).and
      (Counts.takeDigits env w ht.within)).and_result
    rw [ensures_bind]
    refine hdigits.mono ?_ ?_
    swap
    · rintro e w₁ ⟨-, ⟨n, hn, rfl⟩, htally⟩
      exact (htext.takeBytes hn).known htally.number (NumberState.takeBytes_stage hs hn) hpower
    rintro more w₁ ⟨heq, ⟨n, hn, rfl, hlimit, hmore⟩, htally⟩
    have hread := htext.takeBytes hn
    have hstage := NumberState.takeBytes_stage hs hn
    have hknown := hread.known htally.number hstage hpower
    cases more with
    | false => exact hknown
    | true =>
      obtain ⟨r, hr⟩ := digitsAtOnce_start env w
      have hlt₁ : w.consumed + (digitsAtOnce env w).length < env.input.len :=
        of_decide_eq_true (hmore hlt).symm
      have hdrop : env.input.bytes.drop (w.consumed + (digitsAtOnce env w).length) = r := by
        rw [← List.drop_drop]
        exact (congrArg (List.drop _) hr.symm).trans List.drop_left
      obtain ⟨c, l, rfl⟩ : ∃ c l, r = c :: l := by
        rw [← hdrop]
        exact ⟨_, _, List.drop_eq_getElem_cons hlt₁⟩
      have hget := env.input.get_eq hdrop
      rw [if_pos rfl, ensures_bind, ensures_get, ensures_bind]
      show Ensures (ofExcept (env.input.get (w.consumed + (digitsAtOnce env w).length))) _ _ _
      rw [hget, ensures_ofExcept_ok]
      have hlength : n.length = w.tok.number.length + (digitsAtOnce env w).length :=
        takeBytes_length hn
      obtain ⟨hpower', hscale⟩ := hnext c l hr.symm (by rwa [← hlength])
      cases hbyte : (w.withNumber n (digitsAtOnce env w).length).tok.number.takeByte c with
      | error message => exact hknown
      | unreachable => exact hknown
      | ended =>
        have hended := hread.ended htally.number hknown.typed (hscale n hn hbyte)
        dsimp only
        rw [ensures_bind]
        refine (emitNumber_number env.handler _).mono ?_ ?_
        · intro _ w₂ hw₂
          rw [ensures_pure, hw₂]
          exact hended
        · intro _ w₂ hw₂
          rw [hw₂]
          exact hended
      | next n' =>
        have htake : n.takeByte c = .next n' := hbyte
        have hbytes : n.takeBytes [c] = some (n'.addLength 1) := by
          simp [NumberState.takeBytes, htake]
        have hread' := hread.takeBytes hbytes
        have hstage' : n'.stage ≠ .none := NumberState.takeByte_stage hbyte
        have hwithin := NumberState.takeByte_within htally.number.tight hbyte
        have hknown' := hread'.known hwithin hstage' hpower'
        have hset := ((setNumber_withNumber env
          (w := w.withNumber n (digitsAtOnce env w).length) (n'.addLength 1) 1).and
          (setNumber_tally htally hstage hwithin)).and_result
        dsimp only
        rw [ensures_bind]
        refine hset.mono ?_ ?_
        · rintro ⟨⟩ w₂ ⟨heq₂, ⟨rfl, -⟩, htally₂⟩
          refine ih (htally₂.known hknown') hstage' fun v hv => hspare v ?_
          obtain ⟨k, hk⟩ := hv
          exact ⟨k + 1, (continueNumberLoop_succ hlt heq hget hbyte heq₂ k).trans hk⟩
        · rintro e w₂ ⟨-, rfl, -⟩
          exact hknown'

end Numbers

/-! ## Keys that are looked up -/

/-- `process_key` comes to look a key up in the symbol table. -/
structure LooksUp (env : Env F) (s : World F × Interner) : Prop where
  outside : s.1.tok.inString = false ∧ s.1.tok.number.stage = .none
  atKey : s.1.tok.state = .expectKey ∧ env.input.get s.1.consumed = .ok quote
  enabled : s.2.disabled = false
  key : ∃ stop, scanKey env.input env.limits.maxNameLength (s.1.consumed + 1) =
      .ok (some (stop, false)) ∧ stop - (s.1.consumed + 1) ≤ maxKeyBytes ∧
    env.input.contiguous (s.1.consumed + 1) stop ≠ none

/-- What an iteration of the loop of `receive` does to the count of the keys that are looked up. -/
def Looked (env : Env F) (s s' : World F × Interner) : Prop :=
  s'.2.attempts = s.2.attempts ∨ LooksUp env s ∧ s'.2.attempts = s.2.attempts + 1

section Keys

variable {env : Env F} {s : World F × Interner}

/-- A program that does not use the symbol table looks nothing up. -/
theorem zoom_looked {α : Type} (x : TokM F α) {s' : World F × Interner}
    (hs : s'.2.attempts = s.2.attempts) :
    Ensures (zoom x) s' (fun _ => Looked env s) (fun _ => Looked env s) := by
  rw [ensures_zoom]
  exact (Ensures.trivial x s'.1).mono (fun _ _ _ => .inl hs) fun _ _ _ => .inl hs

/-- A key that is interned is looked up once. -/
theorem processInterned_attempts (env : Env F) (start stop : Nat) (bytes : List UInt8)
    (s : World F × Interner) :
    Ensures (processInterned env start stop bytes) s
      (fun _ s' => s'.2.attempts = s.2.attempts + 1)
      (fun _ s' => s'.2.attempts = s.2.attempts + 1) := by
  have hzoom {α : Type} (x : TokM F α) :
      Keeps (fun p : World F × Interner => p.2.attempts = s.2.attempts + 1) (zoom x) :=
    .zoom (J := fun k : Interner => k.attempts = s.2.attempts + 1)
  unfold processInterned
  dsimp only
  rw [ensures_bind]
  unfold modifyInterner
  rw [ensures_modify]
  refine (?_ : Keeps (fun p : World F × Interner => p.2.attempts = s.2.attempts + 1) _) _ rfl
  refine .get_bind fun q _ => .bind (.ofExcept _) fun r => ?_
  cases r with
  | some found =>
    exact .bind (.modify fun _ h => h) fun _ => .bind (hzoom _) fun _ => hzoom _
  | none =>
    refine .bind (hzoom _) fun _ => .get_bind fun q _ => .bind (.ofExcept _) fun table => ?_
    exact .bind (.modify fun _ h => h) fun _ => hzoom _

theorem processKey_looked (hs : s.1.tok.inString = false ∧ s.1.tok.number.stage = .none)
    (hkey : s.1.tok.state = .expectKey ∧ env.input.get s.1.consumed = .ok quote) :
    Ensures (processKey env) s (fun _ => Looked env s) (fun _ => Looked env s) := by
  have hzoom {α : Type} (x : TokM F α) :
      Keeps (fun p : World F × Interner => p.2 = s.2) (zoom x) :=
    .zoom (J := fun k : Interner => k = s.2)
  have hlooked {s' : World F × Interner} (h : s'.2 = s.2) : Looked env s s' := .inl (by rw [h])
  unfold processKey
  rw [ensures_bind, ensures_get, ensures_bind]
  cases hscan : scanKey env.input env.limits.maxNameLength (s.1.consumed + 1) with
  | error e => exact hlooked rfl
  | ok r =>
    rw [ensures_ofExcept_ok]
    cases r with
    | none => exact hlooked rfl
    | some r =>
      obtain ⟨stop, hasEscape⟩ := r
      dsimp only
      rw [ensures_bind]
      refine (hzoom ensureChars s rfl).mono (fun _ s₁ h₁ => ?_) fun _ _ h => hlooked h
      rw [ensures_bind]
      refine (hzoom clearChars s₁ h₁).mono (fun _ s₂ h₂ => ?_) fun _ _ h => hlooked h
      split
      · next bytes hint =>
        split at hint
        · next hcond =>
          simp only [Bool.and_eq_true, Bool.not_eq_true', decide_eq_true_eq] at hcond
          obtain ⟨⟨rfl, hdisabled⟩, hshort⟩ := hcond
          have hup : LooksUp env s :=
            ⟨hs, hkey, hdisabled, stop, hscan, hshort, by rw [hint]; exact Option.some_ne_none _⟩
          rw [ensures_bind]
          refine (processInterned_attempts env _ stop bytes s₂).mono ?_ ?_
          · exact fun _ _ h => .inr ⟨hup, by rw [h, h₂]⟩
          · exact fun _ _ h => .inr ⟨hup, by rw [h, h₂]⟩
        · cases hint
      · rw [ensures_bind]
        refine (hzoom _ s₂ h₂).mono (fun _ s₃ h₃ => ?_) fun _ _ h => hlooked h
        rw [ensures_bind]
        exact (hzoom _ s₃ h₃).mono (fun _ _ h => hlooked h) fun _ _ h => hlooked h

theorem always_looked (x : TokM F Unit) (s : World F × Interner) :
    Ensures (always x) s (fun _ => Looked env s) (fun _ => Looked env s) := by
  unfold always
  rw [ensures_bind]
  exact zoom_looked x rfl

theorem processQuote_looked (hs : s.1.tok.inString = false ∧ s.1.tok.number.stage = .none)
    (hquote : env.input.get s.1.consumed = .ok quote) :
    Ensures (processQuote env) s (fun _ => Looked env s) (fun _ => Looked env s) := by
  unfold processQuote
  rw [ensures_bind, ensures_get, ensures_ite]
  split_ifs with h hkey
  · exact .inl rfl
  · rw [ensures_bind]
    refine (processKey_looked hs ⟨hkey, hquote⟩).mono (fun complete s' h' => ?_) fun _ _ h => h
    cases complete with
    | false => exact h'
    | true =>
      rw [if_pos rfl, ensures_bind, ensures_zoom]
      exact (Ensures.trivial _ s'.1).mono (fun _ _ _ => h') fun _ _ _ => h'
  · rw [ensures_bind]
    exact zoom_looked _ rfl

theorem processToken_looked (hs : s.1.tok.inString = false ∧ s.1.tok.number.stage = .none)
    {c : UInt8} (hc : env.input.get s.1.consumed = .ok c) :
    Ensures (processToken env c) s (fun _ => Looked env s) (fun _ => Looked env s) := by
  unfold processToken
  by_cases hq : c = quote
  · subst hq
    rw [if_pos rfl]
    exact processQuote_looked hs hc
  rw [if_neg hq]
  split_ifs
  · exact always_looked _ s
  · exact always_looked _ s
  · exact always_looked _ s
  · exact always_looked _ s
  · exact always_looked _ s
  · exact always_looked _ s
  · exact zoom_looked _ rfl
  · exact zoom_looked _ rfl
  · exact zoom_looked _ rfl
  · exact always_looked _ s
  · exact .inl rfl

/-- **An iteration of the loop of `receive`** looks up one key at most. -/
theorem receiveStep_looked [Double F] (env : Env F) (s : World F × Interner) :
    Ensures (receiveStep env) s (fun _ => Looked env s) (fun _ => Looked env s) := by
  unfold receiveStep
  rw [ensures_bind, ensures_get, ensures_ite]
  split_ifs with hs hn
  · exact zoom_looked _ rfl
  · exact zoom_looked _ rfl
  · rw [ensures_bind]
    cases hget : env.input.get s.1.consumed with
    | error e => exact .inl rfl
    | ok c =>
      rw [ensures_ofExcept_ok, ensures_ite]
      split_ifs
      · rw [ensures_bind]
        exact zoom_looked _ rfl
      · unfold Ensures
        rw [zoom_modifyTok_bind]
        -- the flag that is cleared makes no difference
        have hlooked {s₁ : World F × Interner} (h : Looked env
            ({ s.1 with tok := { s.1.tok with afterCr := false } }, s.2) s₁) : Looked env s s₁ :=
          h.imp id fun h => ⟨⟨h.1.outside, h.1.atKey, h.1.enabled, h.1.key⟩, h.2⟩
        have htoken := processToken_looked
          (s := ({ s.1 with tok := { s.1.tok with afterCr := false } }, s.2))
          ⟨by simpa using hs, by simpa using hn⟩ hget
        exact htoken.mono (fun _ _ h => hlooked h) fun _ _ h => hlooked h

end Keys

/-! ## A call of the tokenizer -/

section Receive

variable [Double F] {env : Env F} {b km lost : Nat} {start s : World F × Interner}

/-- **An iteration of the loop of `receive` can overflow nothing**: it looks no key up when as many
were as an `i32` counts, and takes no number too far. -/
structure IterationSpare (env : Env F) (s : World F × Interner) : Prop where
  key : LooksUp env s → s.2.attempts < 2 ^ 31 - 1
  number : s.1.tok.number.stage ≠ .none →
    ∀ w, Iterates (continueNumberLoop env) s.1 w → NumberSpare env w

/-- **In a call nothing can overflow.** -/
def Spare (env : Env F) (start : World F × Interner) : Prop :=
  ∀ s, LoopHead env start s → IterationSpare env s

/-- **In a call nothing overflows**, in no state of its loops. The digits of a fraction that are
taken at once are counted in an `i32` as well. -/
structure StaysTyped (env : Env F) (start : World F × Interner) : Prop where
  loop : ∀ s, LoopHead env start s → Typed s
  number : ∀ s w, LoopHead env start s → s.1.tok.number.stage ≠ .none →
    Iterates (continueNumberLoop env) s.1 w → w.tok.number.Typed ∧
      (w.tok.number.stage = .fraction → FitsSigned 32 (digitsAtOnce env w).length)

/-- What is known between the iterations. -/
structure Counted (km : Nat) (env : Env F) (lost b : Nat) (s : World F × Interner) : Prop extends
    LoopInv km env s where
  tally : KeyTally .known lost b 0 s
  attempts : s.2.attempts < 2 ^ 31

/-- **One iteration.** -/
theorem receiveStep_counted (hs : Counted km env lost b s) (hlt : s.1.consumed < env.input.len)
    (hspare : IterationSpare env s) :
    Ensures (receiveStep env) s (fun _ => Counted km env lost b)
      (fun _ s' => s'.1.consumed ≤ env.input.len ∧ KeyTally .known (lost + 1) b 0 s' ∧
        s'.2.attempts < 2 ^ 31) := by
  have hnumber (hn : s.1.tok.number.stage ≠ .none) : Ensures (continueNumber env) s.1
      (fun _ => Tally .known (s.2.attempts - lost) b 0)
      (fun _ => Tally .known (s.2.attempts - lost) b 0) := by
    have hworld := hs.tally.world
    unfold continueNumber
    rw [ensures_bind, ensures_get]
    refine ((Counts.continueNumberLoop env _ s.1 hworld.within).and
      (continueNumberLoop_known _ hworld hn (hspare.number hn))).mono ?_ ?_
    · exact fun _ _ h => h.1.known h.2
    · exact fun _ _ h => h.1.known h.2
  have hattempts {s' : World F × Interner} (h : Looked env s s') : s'.2.attempts < 2 ^ 31 := by
    rcases h with h | ⟨hup, h⟩
    · rw [h]
      exact hs.attempts
    · have := hspare.key hup
      omega
  refine (((receiveStep_moves hs.toLoopInv hlt).and
    (receiveStep_tally hs.world hs.interner hlt hs.tally hnumber)).and
      (receiveStep_looked env s)).mono ?_ ?_
  · rintro more s' ⟨⟨⟨hinv, -⟩, htally⟩, hlooked⟩
    exact ⟨hinv, htally, hattempts hlooked⟩
  · rintro e s' ⟨⟨⟨hle, -⟩, htally⟩, hlooked⟩
    exact ⟨hle, htally, hattempts hlooked⟩

/-- So it is at the head of the loop. -/
theorem LoopHead.counted (hs : LoopHead env start s) (hspare : Spare env start)
    (hstart : Counted km env lost b start) : Counted km env lost b s := by
  induction hs with
  | start => exact hstart
  | next head lt step ih =>
    have hstep := receiveStep_counted ih lt (hspare _ head)
    rwa [ensures_ok step] at hstep

/-- **The loop of `receive`.** -/
theorem receiveLoop_counted (hspare : Spare env start) (fuel : Nat) : ∀ {s : World F × Interner},
    LoopHead env start s → Counted km env lost b s →
      Ensures (receiveLoop env fuel) s (fun _ => Counted km env lost b)
        (fun _ s' => s'.1.consumed ≤ env.input.len ∧ KeyTally .known (lost + 1) b 0 s' ∧
          s'.2.attempts < 2 ^ 31) := by
  induction fuel with
  | zero => exact fun _ hs => ⟨hs.world.consumed_le, hs.tally.fail, hs.attempts⟩
  | succ fuel ih =>
    intro s head hs
    rw [receiveLoop, ensures_bind, ensures_get, ensures_ite]
    split_ifs with hlt
    swap
    · exact hs
    rw [ensures_bind]
    refine (receiveStep_counted hs hlt (hspare s head)).and_result.mono ?_ fun _ _ h => h.2
    rintro more s₁ ⟨heq, hs₁⟩
    cases more with
    | false => exact hs₁
    | true => exact ih (head.next hlt heq) hs₁

omit [Double F] in
/-- The digits of a fraction that are taken at once are as many as the point moves by. -/
theorem digitsAtOnce_fits {w : World F} (hm : w.tok.number.mantissa ≤ i64Max)
    (hknown : w.tok.number.Known) (hspare : NumberSpare env w)
    (hstage : w.tok.number.stage = .fraction) : FitsSigned 32 (digitsAtOnce env w).length := by
  by_cases hnil : digitsAtOnce env w = []
  · rw [hnil, FitsSigned]
    decide
  have hlt : w.consumed < env.input.len := by
    by_contra hend
    refine hnil (List.prefix_nil.mp ((digitsAtOnce_start env w).trans ?_))
    rw [Env.rest, List.drop_eq_nil_of_le (not_lt.mp hend)]
  obtain ⟨text, htext⟩ := hknown.text (by rw [hstage]; decide)
  have hpower := (hspare hlt text htext).1
  have hrun : w.tok.number.Running := by
    refine ⟨.inr hstage, ?_⟩
    by_contra hfull
    exact hnil (by simp [digitsAtOnce, hfull])
  have hdigits : digitsAtOnce env w = (env.input.spanFrom w.consumed).take
      (NumberState.digitRun (env.input.spanFrom w.consumed) w.tok.number.mantissa).2 := by
    simp [digitsAtOnce, hrun.room, hstage]
  have hlen : (digitsAtOnce env w).length =
      (NumberState.digitRun (env.input.spanFrom w.consumed) w.tok.number.mantissa).2 := by
    rw [hdigits, List.length_take,
      Nat.min_eq_left (NumberState.digitRun_le (env.input.spanFrom w.consumed) hm).2]
  have htake := hrun.takeBytes (env.input.spanFrom w.consumed)
  rw [← hdigits, ← hlen] at htake
  have hshift := (htext.takeBytes htake).shift_fits hpower
  have hneg := htext.shift_neg hstage hrun.room
  simp only [NumberState.ran, hstage, if_true] at hshift
  unfold FitsSigned at hshift ⊢
  omega

omit [Double F] in
theorem Counted.typed (hs : Counted km env lost b s) (hb : b + env.input.len < 2 ^ 63) :
    Typed s := by
  have htokens : s.1.tok.tokenCount + 0 ≤ b + s.1.consumed := hs.tally.world.tokens
  have hconsumed := hs.world.consumed_le
  have hattempts := hs.attempts
  have hhits : s.2.hits ≤ s.2.attempts := hs.tally.hits
  refine ⟨hs.tally.world.number.2.typed, ?_, ?_, ?_⟩
  all_goals
    unfold FitsSigned
    omega

/-- **A call in which nothing can overflow.** -/
theorem Spare.staysTyped (hspare : Spare env start) (hs : Counted km env lost b start)
    (hb : b + env.input.len < 2 ^ 63) : StaysTyped env start := by
  refine ⟨fun s head => (head.counted hspare hs).typed hb, fun s w head hn hw => ?_⟩
  have htally : Tally .known (s.2.attempts - lost) b 0 s.1 := (head.counted hspare hs).tally.world
  have hspare' := (hspare s head).number hn
  obtain ⟨k, hloop⟩ := hw
  have hrun := (Counts.continueNumberLoop env k s.1 htally.within).and
    (continueNumberLoop_known k htally hn hspare')
  unfold Ensures at hrun
  rw [hloop] at hrun
  exact ⟨hrun.2.typed, digitsAtOnce_fits hrun.1.number.mantissa hrun.2 (hspare' w ⟨k, hloop⟩)⟩

end Receive

/-! ## A call of the parser -/

section Process

variable [Double F] {h : Handler F} {p : Parser F} {input : Spans} {b km lost : Nat}

/-- The accumulators of a parser are in their types. -/
def Parser.Typed (p : Parser F) : Prop :=
  ∀ t, p.tokenizer = some t → RJsonParser.Typed (p.world t, p.interner)

/-- What is known of a parser besides its tally. -/
def Parser.Ranged (p : Parser F) : Prop :=
  ∀ t, p.tokenizer = some t → t.number.Known ∧ p.interner.attempts < 2 ^ 31

/-- The call returns an error, and does not panic. -/
def Stop.IsError (e : Stop) : Prop := ∃ err, e = .error err

/-- `process` comes to call `receive` of the tokenizer. -/
inductive Parser.Starts (h : Handler F) (p : Parser F) (input : Spans) :
    Env F → World F × Interner → Prop where
  | resumed {t : Tokenizer} (ht : p.tokenizer = some t) :
      p.Starts h input ⟨h, p.limits, input⟩ (p.world t, p.interner)
  | begun {n : Nat} {t : Tokenizer} (ht : p.tokenizer = none) (bom : checkBom input = .ok (.skip n))
      (begun : (p.begun h).tokenizer = some t) :
      p.Starts h input ⟨h, p.limits, input.skip n⟩ ((p.begun h).world t, (p.begun h).interner)

omit [Double F] in
/-- What the tokenizer is not told of makes no difference. -/
theorem Parser.Starts.unmark {env : Env F} {x : World F × Interner} (n : Nat) (closed : Bool)
    (hs : Parser.Starts h { p with documentLength := n, closed := closed } input env x) :
    p.Starts h input env x := by
  cases hs with
  | resumed ht => exact .resumed (p := p) ht
  | @begun k t ht bom hbegun =>
    have ht' : p.tokenizer = none := ht
    have hstart := Parser.Starts.begun (h := h) (t := t) ht' bom
      (by rw [Parser.begun_eq ht] at hbegun; rw [Parser.begun_eq ht']; exact hbegun)
    rw [Parser.begun_eq ht'] at hstart
    rw [Parser.begun_eq ht]
    exact hstart

omit [Double F] in
theorem Parser.Ranged.begun (ht : p.tokenizer = none) : (p.begun h).Ranged := by
  rw [Parser.begun_eq ht]
  rintro t ⟨⟩
  refine ⟨⟨NumberState.new_within.typed ?_ fun _ => ?_, fun hs => absurd rfl hs⟩,
    Nat.two_pow_pos 31⟩
  · unfold FitsSigned
    decide
  · unfold FitsSigned
    decide

omit [Double F] in
/-- The invariant of the loop holds where the tokenizer has its input. -/
theorem Parser.Inv.atLoop {t : Tokenizer} (hi : p.Inv km) (ht : p.tokenizer = some t)
    (env : Env F) : LoopInv km env (p.world t, p.interner) := by
  obtain ⟨htok, hchunk⟩ := hi.tokenizer t ht
  refine ⟨htok.world _ _ _, hi.interner, ?_⟩
  show (t.chunkSize : Nat) ≤ km
  rw [hchunk]
  exact hi.chunk

omit [Double F] in
/-- The tokenizer is counted there. -/
theorem Parser.Tallied.counted {t : Tokenizer} (hp : p.Tallied lost b) (hr : p.Ranged)
    (hi : p.Inv km) (ht : p.tokenizer = some t) (env : Env F) :
    Counted km env lost b (p.world t, p.interner) := by
  obtain ⟨hnumber, hattempts⟩ := hr t ht
  have htally := hp.tokenizer t ht
  exact ⟨hi.atLoop ht env, ⟨htally.world.known hnumber, htally.hits⟩, hattempts⟩

/-- A call of `receive` of the tokenizer that can overflow nothing. -/
theorem withTokenizer_receive_ranged {t : Tokenizer} (hi : p.Inv km) (hp : p.Tallied lost b)
    (hr : p.Ranged) (ht : p.tokenizer = some t) {env : Env F}
    (hspare : Spare env (p.world t, p.interner)) (c : Nat) :
    Ensures (withTokenizer (receive env)) (p, c) (fun _ q => q.1.Ranged)
      (fun e q => q.1.Ranged ∧ e.IsError) := by
  have hs : Counted km env lost b (p.world t, p.interner) :=
    hp.counted hr hi ht env
  have hranged {s : World F × Interner} (hn : s.1.tok.number.Known) (ha : s.2.attempts < 2 ^ 31) :
      (p.resumed s).Ranged := by
    rintro t ⟨⟩
    exact ⟨hn, ha⟩
  have hcounted : Ensures (receive env) (p.world t, p.interner) (fun _ => Counted km env lost b)
      (fun _ s' => s'.1.consumed ≤ env.input.len ∧ KeyTally .known (lost + 1) b 0 s' ∧
        s'.2.attempts < 2 ^ 31) := by
    unfold receive
    rw [ensures_bind, ensures_get]
    exact receiveLoop_counted hspare _ .start hs
  rw [ensures_withTokenizer ht]
  refine (hcounted.and (receive_returns hs.toLoopInv rfl)).mono ?_ ?_
  · exact fun _ s hs => hranged hs.1.tally.world.number.2 hs.1.attempts
  · exact fun _ s hs => ⟨hranged hs.1.2.1.world.number.2 hs.1.2.2, hs.2.2⟩

/-- **`process`** overflows nothing where it can overflow nothing. -/
theorem process_ranged (hi : p.Inv km) (hp : p.Tallied lost b) (hr : p.Ranged)
    (hspare : ∀ env x, p.Starts h input env x → Spare env x) :
    Ensures (process h input) (p, 0) (fun _ q => q.1.Ranged)
      (fun e q => q.1.Ranged ∧ e.IsError) := by
  cases ht : p.tokenizer with
  | some t =>
    unfold Ensures
    rw [process_started (by rw [hi.bom, ht]; rfl) ht]
    exact withTokenizer_receive_ranged hi hp hr ht (hspare _ _ (.resumed ht)) 0
  | none =>
    have hbom := checkBom_spec input
    unfold Ensures
    rw [process_fresh (by rw [hi.bom, ht]; rfl)]
    cases hf : bomFront input.bytes with
    | need =>
      rw [hf] at hbom
      rw [show checkBom input = .ok .needMore from hbom]
      exact hr
    | bad =>
      rw [hf] at hbom
      obtain ⟨m, hm⟩ := hbom
      rw [hm]
      exact ⟨hr, _, rfl⟩
    | found k =>
      rw [hf] at hbom
      have hskip : checkBom input = .ok (.skip k) := hbom
      rw [hskip]
      obtain ⟨hi', -, -⟩ := hi.begun (h := h) ht
      obtain ⟨t, ht'⟩ : ∃ t, (p.begun h).tokenizer = some t := by
        rw [Parser.begun_eq ht]
        exact ⟨_, rfl⟩
      refine withTokenizer_receive_ranged hi' (hp.begun ht) (.begun ht) ht' ?_ _
      have hlimits : (p.begun h).limits = p.limits := by rw [Parser.begun_eq ht]
      rw [hlimits]
      exact hspare _ _ (.begun ht hskip ht')

/-- Where `process` starts the tokenizer, nothing overflows if nothing can. -/
theorem Parser.Starts.staysTyped {env : Env F} {x : World F × Interner}
    (hs : p.Starts h input env x) (hspare : Spare env x) (hi : p.Inv km) (hp : p.Tallied lost b)
    (hr : p.Ranged) (hb : b + input.len < 2 ^ 63) : StaysTyped env x := by
  cases hs with
  | resumed ht => exact hspare.staysTyped (hp.counted hr hi ht _) hb
  | @begun n t ht bom ht' =>
    refine hspare.staysTyped ((hp.begun ht).counted (.begun ht) (hi.begun ht).1 ht' _) ?_
    have hlen : (input.skip n).len ≤ input.len := by
      show (input.bytes.drop n).length ≤ input.bytes.length
      rw [List.length_drop]
      exact Nat.sub_le _ _
    exact (Nat.add_le_add_left hlen b).trans_lt hb

end Process

/-! ## The steps of a caller -/

section Session

variable [Double F] {h : Handler F} {s : Session F} {d km lost n : Nat}

/-- `feed` comes to call `receive` of the tokenizer. -/
def Session.Starts (h : Handler F) (s : Session F) (env : Env F) (x : World F × Interner) : Prop :=
  s.buf.bytes ≠ [] ∧ ¬ s.parser.TooLong s.buf.len ∧ s.parser.Starts h s.buf.spans env x

theorem feed_ranged (checkRoom : Bool) (hi : s.parser.Inv km) (hs : s.Tallied lost n d)
    (hr : s.parser.Ranged) (hspare : ∀ env x, s.Starts h env x → Spare env x) :
    Ensures (feed h checkRoom) s (fun _ s' => s'.parser.Ranged)
      (fun e s' => s'.parser.Ranged ∧ e.IsError) := by
  obtain ⟨b, hb, hp⟩ := hs.parser
  unfold feed
  rw [ensures_bind, ensures_get]
  by_cases hzero : s.buf.len = 0
  · rw [if_pos hzero]
    exact hr
  have hne : s.buf.bytes ≠ [] := fun h => hzero (by rw [LoopBuf.len, h]; rfl)
  rw [if_neg hzero, ensures_bind]
  refine ((countDocument_spec s.buf.len s).and (countDocument_counts s.buf.len s)).mono ?_ ?_
  swap
  · rintro e s₁ ⟨⟨-, ⟨m, rfl⟩, k, rfl⟩, -⟩
    exact ⟨hr, _, rfl⟩
  rintro - s₁ ⟨⟨k, rfl⟩, -, -, hlong⟩
  have hi₁ : Parser.Inv km { s.parser with documentLength := k } :=
    hi.counted k s.parser.unconsumed s.parser.underflow
  have hp₁ : Parser.Tallied lost b { s.parser with documentLength := k } :=
    hp.of_eq rfl rfl rfl rfl
  have hprocess : Ensures (process h s.buf.spans) ({ s.parser with documentLength := k }, 0)
      (fun _ q => q.1.Ranged) (fun e q => q.1.Ranged ∧ e.IsError) :=
    process_ranged hi₁ hp₁ hr fun env x hx => hspare env x
      ⟨hne, hlong, Parser.Starts.unmark k s.parser.closed hx⟩
  rw [ensures_bind]
  refine (processRing_spec (s := { s with parser := { s.parser with documentLength := k } })
    hprocess).mono ?_ ?_
  · rintro consumed s₂ ⟨p', rfl, hr'⟩
    simp only [modifyParser, ensures_bind, ensures_get, ensures_modify]
    rw [ensures_ite]
    split_ifs
    · exact ⟨hr', _, rfl⟩
    · exact hr'
  · rintro e s₂ ⟨p', m, rfl, hr'⟩
    exact hr'

theorem closeFeed_ranged (hi : s.parser.Inv km) (hs : s.Tallied lost n d) (hr : s.parser.Ranged)
    (hspare : ∀ env x, s.Starts h env x → Spare env x) :
    Ensures (closeFeed h) s
      (fun _ s' => s'.parser.Inv km ∧ s'.parser.Ranged ∧ s'.parser.tokenizer ≠ none)
      (fun e s' => s'.parser.Ranged ∧ e.IsError) := by
  have hfeed := (feed_spec (h := h) false hi).and (feed_ranged (h := h) false hi hs hr hspare)
  unfold closeFeed
  rw [ensures_bind, ensures_get]
  cases ht : s.parser.tokenizer with
  | none =>
    dsimp only
    rw [ensures_bind]
    refine hfeed.mono (fun _ s₁ h₁ => ?_) fun _ _ h => h.2
    rw [ensures_bind, ensures_get, ensures_ite]
    split_ifs with hnone
    · exact ⟨h₁.2, _, rfl⟩
    · exact ⟨h₁.1.1, h₁.2, hnone⟩
  | some t =>
    dsimp only
    rw [ensures_ite]
    split_ifs
    · refine hfeed.mono (fun _ s₁ h₁ => ⟨h₁.1.1, h₁.2, ?_⟩) fun _ _ h => h.2
      exact Option.isSome_iff_ne_none.mp (h₁.1.2.1.started (by rw [ht]; rfl))
    · exact ⟨hi, hr, by rw [ht]; exact Option.some_ne_none t⟩

/-- A number that ends with the input. -/
theorem endOfInput_known {w : World F} {k : Nat} (hw : w.tok.number.Within k)
    (hn : w.tok.number.Known) (hend : w.tok.number.stage.isFinal = true →
      ∀ text, w.tok.number.ReadFrom text → ScaleFits text) :
    Ensures (endOfInput h) w (fun _ w' => w'.tok.number.Known)
      (fun _ w' => w'.tok.number.Known) := by
  unfold endOfInput
  rw [ensures_bind, ensures_get, ensures_ite]
  split_ifs
  · exact hn
  have hemit (hfinal : w.tok.number.stage.isFinal = true) :
      Ensures (emitNumber h) w (fun _ w' => w'.tok.number.Known)
        (fun _ w' => w'.tok.number.Known) := by
    obtain ⟨text, htext⟩ := hn.text fun hnone => by rw [hnone] at hfinal; cases hfinal
    have hended := htext.ended hw hn.typed (hend hfinal text htext)
    refine (emitNumber_number h w).mono ?_ ?_
    · exact fun _ w' hw' => by rw [hw']; exact hended
    · exact fun _ w' hw' => by rw [hw']; exact hended
  cases hs : w.tok.number.stage with
  | none | afterMinus | fractionDot | exponentMark | exponentSign => exact hn
  | zero | integer | fraction | exponent => exact hemit (by rw [hs]; rfl)

/-- The last part of `close`. -/
theorem closeEnd_ranged (hi : s.parser.Inv km) (hs : s.Tallied lost n d) (hr : s.parser.Ranged)
    (hstarted : s.parser.tokenizer ≠ none)
    (hend : ∀ t, s.parser.tokenizer = some t → t.number.stage.isFinal = true →
      ∀ text, t.number.ReadFrom text → ScaleFits text) :
    Ensures (do closeTokenizer h; checkComplete) s (fun _ s' => s'.parser.Ranged)
      (fun e s' => s'.parser.Ranged ∧ e.IsError) := by
  obtain ⟨b, -, hp⟩ := hs.parser
  obtain ⟨t, ht⟩ := Option.ne_none_iff_exists'.mp hstarted
  obtain ⟨hn, hattempts⟩ := hr t ht
  have hrun : Ensures (withTokenizer (zoom (endOfInput h))) (s.parser, 0)
      (fun _ q => q.1.Ranged) (fun e q => q.1.Ranged ∧ e.IsError) := by
    have hafter {w : World F} (hw : w.tok.number.Known) :
        (s.parser.resumed (w, s.parser.interner)).Ranged := by
      rintro t ⟨⟩
      exact ⟨hw, hattempts⟩
    rw [ensures_withTokenizer ht, ensures_zoom]
    refine ((endOfInput_known (hp.tokenizer t ht).world.number hn (hend t ht)).and
      (endOfInput_spec (w := s.parser.world t) (hi.tokenizer t ht).1)).mono ?_ ?_
    · exact fun _ _ hw => hafter hw.1
    · rintro e w ⟨hw, -, -, err, -, he, -⟩
      exact ⟨hafter hw, err, he⟩
  rw [ensures_bind]
  have hclose : Ensures (closeTokenizer h) s (fun _ s' => s'.parser.Ranged)
      (fun e s' => s'.parser.Ranged ∧ e.IsError) := by
    unfold Ensures at hrun ⊢
    unfold closeTokenizer
    cases hres : withTokenizer (zoom (endOfInput h)) (s.parser, 0) with
    | ok a q =>
      rw [hres] at hrun
      exact hrun
    | error e q =>
      rw [hres] at hrun
      exact hrun
  refine (hclose.and (closeTokenizer_spec hi ht)).mono ?_ fun _ _ h => h.1
  rintro - s₁ ⟨hr₁, -, -, -, ⟨t₁, ht₁⟩, -⟩
  unfold checkComplete
  rw [ensures_bind, ensures_get, ht₁]
  dsimp only
  rw [ensures_ite]
  split_ifs
  · exact ⟨hr₁, _, rfl⟩
  · cases t₁.depthStack with
    | nil => exact hr₁
    | cons token rest => cases token <;> exact ⟨hr₁, _, rfl⟩

omit [Double F] in
/-- A session in which the tokenizer is started again where the parser is marked as closing. -/
theorem Session.Starts.of_closing {env : Env F} {x : World F × Interner}
    (hx : Session.Starts h ⟨s.parser.closing, s.buf⟩ env x) : s.Starts h env x :=
  ⟨hx.1, hx.2.1, Parser.Starts.unmark s.parser.documentLength true hx.2.2⟩

/-- A step comes to call `receive` of the tokenizer. -/
def Op.Starts (h : Handler F) (op : Op) (s : Session F) (env : Env F) (x : World F × Interner) :
    Prop :=
  (op = .receive ∨ op = .close) ∧ s.parser.closed = false ∧ s.Starts h env x

/-- A step comes to end a number, as the parser is closed. -/
def Op.Ends (h : Handler F) (op : Op) (s : Session F) (n : NumberState) : Prop :=
  op = .close ∧ s.parser.closed = false ∧
    ∃ s', closeFeed h ⟨s.parser.closing, s.buf⟩ = .ok () s' ∧ s'.buf.bytes = [] ∧
      ∃ t, s'.parser.tokenizer = some t ∧ t.number = n ∧ n.stage.isFinal = true

/-- **In a step nothing can overflow.** -/
structure Op.Spare (h : Handler F) (op : Op) (s : Session F) : Prop where
  calls : ∀ env x, op.Starts h s env x → RJsonParser.Spare env x
  ending : ∀ n, op.Ends h s n → ∀ text, n.ReadFrom text → ScaleFits text

theorem close_ranged (hi : s.parser.Inv km) (hs : s.Tallied lost n d) (hr : s.parser.Ranged)
    (hspare : Op.Spare h .close s) :
    Ensures (Parser.close h) s (fun _ s' => s'.parser.Ranged)
      (fun e s' => s'.parser.Ranged ∧ e.IsError) := by
  unfold Parser.close
  rw [ensures_bind, ensures_get, ensures_ite]
  split_ifs with hclosed
  · exact hr
  have hopen : s.parser.closed = false := by simpa using hclosed
  simp only [modifyParser, ensures_bind, ensures_modify]
  have hi₁ : s.parser.closing.Inv km := ⟨hi.tokenizer, hi.bom, hi.interner, hi.chunk⟩
  have hs₁ : Session.Tallied lost n d ⟨s.parser.closing, s.buf⟩ :=
    hs.modifyParser (f := Parser.closing) rfl rfl rfl rfl rfl
  have hfeed := (closeFeed_ranged (h := h) hi₁ hs₁ hr fun env x hx =>
    hspare.calls env x ⟨.inr rfl, hopen, hx.of_closing⟩).and (closeFeed_tallied hs₁ hi₁)
  refine hfeed.and_result.mono ?_ fun _ _ h => h.2.1
  rintro ⟨⟩ s₁ ⟨heq, ⟨hi₂, hr₂, hstarted⟩, hs₂⟩
  rw [ensures_get, ensures_ite]
  split_ifs with hleft
  · exact ⟨hr₂, _, rfl⟩
  · refine closeEnd_ranged hi₂ hs₂ hr₂ hstarted fun t ht hfinal => ?_
    exact hspare.ending t.number
      ⟨rfl, hopen, s₁, heq, by simpa using hleft, t, ht, rfl, hfinal⟩

/-- **A step in which nothing can overflow.** -/
theorem Op.exec_ranged {op : Op} (hi : s.parser.Inv km) (hs : s.Tallied lost n d)
    (hr : s.parser.Ranged) (hspare : op.Spare h s) :
    Ensures (op.exec h) s (fun _ s' => s'.parser.Ranged)
      (fun e s' => s'.parser.Ranged ∧ e.IsError) := by
  cases op with
  | write _ _ | ring _ _ | setLimits _ | setRejectDuplicateKeys _ => exact hr
  | reset =>
    rintro t ⟨⟩
  | setStringChunkSize n =>
    rintro t ht
    obtain ⟨t', ht', rfl⟩ := Option.map_eq_some_iff.mp ht
    exact hr t' ht'
  | receive =>
    show Ensures (Parser.receive h) s _ _
    unfold Parser.receive
    rw [ensures_bind, ensures_get, ensures_ite]
    split_ifs with hclosed
    · exact ⟨hr, _, rfl⟩
    · exact feed_ranged true hi hs hr fun env x hx =>
        hspare.calls env x ⟨.inl rfl, by simpa using hclosed, hx⟩
  | close => exact close_ranged hi hs hr hspare

/-- **In a step nothing overflows**, nor is anything subtracted that is too large: such a
subtraction panics. -/
structure Op.StaysTyped (h : Handler F) (op : Op) (s : Session F) : Prop where
  before : s.parser.Typed
  calls : ∀ env x, op.Starts h s env x → RJsonParser.StaysTyped env x
  returns : ∀ e, (op.result h s).1 = .error e → e.IsError

omit [Double F] in
theorem Session.Tallied.typed (hs : s.Tallied lost n d) (hr : s.parser.Ranged) (hn : n < 2 ^ 63) :
    s.parser.Typed := by
  obtain ⟨b, hb, hp⟩ := hs.parser
  intro t ht
  have htally := hp.tokenizer t ht
  obtain ⟨hknown, hattempts⟩ := hr t ht
  have htokens : t.tokenCount ≤ b := htally.world.tokens
  have hhits : s.parser.interner.hits ≤ s.parser.interner.attempts := htally.hits
  refine ⟨hknown.typed, ?_, ?_, ?_⟩
  · show FitsSigned 64 t.tokenCount
    unfold FitsSigned
    omega
  · show FitsSigned 32 s.parser.interner.attempts
    unfold FitsSigned
    omega
  · show FitsSigned 32 s.parser.interner.hits
    unfold FitsSigned
    omega

theorem Op.Spare.staysTyped {op : Op} (hspare : op.Spare h s) (hi : s.parser.Inv km)
    (hs : s.Tallied lost n d) (hr : s.parser.Ranged) (hn : n < 2 ^ 63) : op.StaysTyped h s := by
  refine ⟨hs.typed hr hn, fun env x hx => ?_, fun e he => ?_⟩
  · obtain ⟨b, hb, hp⟩ := hs.parser
    refine hx.2.2.2.2.staysTyped (hspare.calls env x hx) hi hp hr ?_
    rw [show s.buf.spans.len = s.buf.len from congrArg List.length s.buf.spans_bytes]
    exact hb.trans_lt hn
  · have hexec := op.exec_ranged hi hs hr hspare
    unfold Op.result at he
    unfold Ensures at hexec
    cases hres : op.exec h s with
    | ok a s' =>
      rw [hres] at he
      cases he
    | error e' s' =>
      rw [hres] at he hexec
      cases he
      exact hexec.2

/-- **In a run nothing can overflow.** -/
def SpareAll (h : Handler F) : List Op → Session F → Prop
  | [], _ => True
  | op :: ops, s => op.Spare h s ∧ SpareAll h ops (op.result h s).2

/-- **In a run nothing overflows**, in no state that is reached. -/
def TypedAll (h : Handler F) : List Op → Session F → Prop
  | [], s => s.parser.Typed
  | op :: ops, s => op.StaysTyped h s ∧ TypedAll h ops (op.result h s).2

omit [Double F] in
theorem length_offered (op : Op) (ops : List Op) :
    (offered (op :: ops)).length = op.size + (offered ops).length := by
  cases op with
  | write bytes layout => exact List.length_append
  | ring _ _ | receive | close | reset | setLimits _ | setRejectDuplicateKeys _
  | setStringChunkSize _ => exact (Nat.zero_add _).symm

theorem runAll_typed (ops : List Op) : ∀ {lost n d : Nat} {s : Session F}, Reachable h s →
    s.Tallied lost n d → s.parser.Ranged → n + (offered ops).length < 2 ^ 63 →
      SpareAll h ops s → TypedAll h ops s := by
  induction ops with
  | nil => exact fun _ hs hr hn _ => hs.typed hr ((Nat.le_add_right _ _).trans_lt hn)
  | cons op ops ih =>
    intro lost n d s hreach hs hr hn hspare
    obtain ⟨hop, hops⟩ := hspare
    obtain ⟨km, hi⟩ := hreach.inv
    refine ⟨hop.staysTyped hi hs hr ((Nat.le_add_right _ _).trans_lt hn), ?_⟩
    have hstep : (op.result h s).2.Tallied (lost + 1) (n + op.size) (d + n) :=
      Op.result_of_ensures (op.exec_tallied hi hs)
    have hranged : (op.result h s).2.parser.Ranged :=
      Op.result_of_ensures ((op.exec_ranged hi hs hr hop).mono (fun _ _ h => h) fun _ _ h => h.1)
    rw [length_offered, ← Nat.add_assoc] at hn
    exact ih (hreach.step op) hstep hranged hn hops

end Session

/-! ## Runs that are short -/

section Short

variable [Double F] {h : Handler F} {env : Env F} {start s : World F × Interner}
  {b d km lost n : Nat}

omit [Double F] in
/-- The text of a number that is within so many bytes. -/
theorem NumberSpare.of_within {w : World F} (hw : w.tok.number.Within (b + w.consumed))
    (hb : b + env.input.len + 1000000 < 2 ^ 31) : NumberSpare env w := by
  intro hlt text htext
  have hlen : text.length ≤ b + w.consumed := htext.length ▸ hw.length
  have hrest : (env.rest w).length = env.input.len - w.consumed := List.length_drop
  have hdigits := (digitsAtOnce_start env w).length_le
  rw [hrest] at hdigits
  refine ⟨.of_length ?_, fun c l hl _ => ⟨.of_length ?_, fun _ _ _ => .of_length ?_⟩⟩
  · rw [List.length_append]
    omega
  · rw [hl, List.length_append, List.length_cons] at hrest
    rw [List.length_append, List.length_append, List.length_singleton]
    omega
  · rw [List.length_append]
    omega

theorem LoopHead.tallied (hs : LoopHead env start s) (hi : LoopInv km env start)
    (ht : KeyTally .within lost b 0 start) : KeyTally .within lost b 0 s := by
  induction hs with
  | start => exact ht
  | next head lt step ih =>
    have hinv := head.inv hi
    have hstep := receiveStep_tally hinv.world hinv.interner lt ih fun _ =>
      Counts.continueNumber env _ ih.world
    rwa [ensures_ok step] at hstep

/-- **In a call on little input nothing can overflow.** -/
theorem Spare.of_short (hi : LoopInv km env start) (ht : KeyTally .within lost b 0 start)
    (hb : lost + b + env.input.len + 1000000 < 2 ^ 31) : Spare env start := by
  intro s head
  have hconsumed := (head.inv hi).world.consumed_le
  obtain ⟨htally, -⟩ := head.tallied hi ht
  refine ⟨fun _ => ?_, fun _ w hw => ?_⟩
  · have hkeys : s.2.attempts - lost ≤ b + s.1.consumed := htally.keys
    omega
  · obtain ⟨k, hloop⟩ := hw
    have hrun := Counts.continueNumberLoop env k s.1 htally
    unfold Ensures at hrun
    rw [hloop] at hrun
    exact NumberSpare.of_within hrun.number (by omega)

theorem Parser.Starts.spare {p : Parser F} {input : Spans} (hs : p.Starts h input env start)
    (hi : p.Inv km) (hp : p.Tallied lost b) (hb : lost + b + input.len + 1000000 < 2 ^ 31) :
    Spare env start := by
  cases hs with
  | resumed ht => exact Spare.of_short (hi.atLoop ht _) (hp.tokenizer _ ht) hb
  | @begun n t ht bom ht' =>
    have hlen : (input.skip n).len ≤ input.len := by
      show (input.bytes.drop n).length ≤ input.bytes.length
      rw [List.length_drop]
      exact Nat.sub_le _ _
    have hshort : lost + b + (input.skip n).len + 1000000 < 2 ^ 31 := by omega
    exact Spare.of_short ((hi.begun ht).1.atLoop ht' _) ((hp.begun ht).tokenizer _ ht') hshort

theorem Op.Spare.of_short {s : Session F} (op : Op) (hi : s.parser.Inv km)
    (hs : s.Tallied lost n d) (hn : lost + n + 1000000 < 2 ^ 31) : op.Spare h s := by
  refine ⟨fun env x hx => ?_, ?_⟩
  · obtain ⟨b, hb, hp⟩ := hs.parser
    refine hx.2.2.2.2.spare hi hp ?_
    rw [show s.buf.spans.len = s.buf.len from congrArg List.length s.buf.spans_bytes]
    omega
  · rintro m ⟨-, -, s', heq, -, t, ht, rfl, -⟩ text htext
    have hs₁ : Session.Tallied lost n d ⟨s.parser.closing, s.buf⟩ :=
      hs.modifyParser (f := Parser.closing) rfl rfl rfl rfl rfl
    have hfeed := closeFeed_tallied (h := h) hs₁ ⟨hi.tokenizer, hi.bom, hi.interner, hi.chunk⟩
    rw [ensures_ok heq] at hfeed
    obtain ⟨b, hb, hp⟩ := hfeed.parser
    have hlen : t.number.length ≤ b := (hp.tokenizer t ht).world.number.length
    rw [htext.length] at hlen
    exact .of_length (by omega)

/-- **In a short run nothing can overflow.** -/
theorem SpareAll.of_short (ops : List Op) : ∀ {lost n d : Nat} {s : Session F}, Reachable h s →
    s.Tallied lost n d → lost + n + cost ops + 1000000 < 2 ^ 31 → SpareAll h ops s := by
  induction ops with
  | nil => exact fun _ _ _ => trivial
  | cons op ops ih =>
    intro lost n d s hreach hs hn
    obtain ⟨km, hi⟩ := hreach.inv
    have hcost : cost (op :: ops) = op.cost + cost ops := rfl
    have hsize := op.cost_eq
    refine ⟨Op.Spare.of_short op hi hs (by omega), ?_⟩
    exact ih (hreach.step op) (Op.result_of_ensures (op.exec_tallied hi hs)) (by omega)

end Short

/-! ## Runs -/

section Runs

variable [Double F] {h : Handler F} {s : Session F} {ops : List Op}

/-- Nothing was counted at the start of a document. -/
theorem Session.AtStart.tallied (hs : s.AtStart h) :
    s.Tallied 0 0 0 ∧ s.parser.Ranged := by
  have ht : s.parser.tokenizer = none := by
    rw [← hs.fresh]
    rfl
  have hlocator : s.parser.locator = s.parser.reset.locator := by rw [hs.fresh]
  have hdoc : s.parser.documentLength = s.parser.reset.documentLength := by rw [hs.fresh]
  refine ⟨⟨⟨0, ?_, ?_, ?_, ?_⟩, ?_⟩, ?_⟩
  · rw [LoopBuf.len, hs.empty]
    exact le_rfl
  · rw [hlocator]
    exact le_rfl
  · rw [hlocator]
    exact le_rfl
  · intro t ht'
    rw [ht] at ht'
    cases ht'
  · rw [hdoc]
    exact le_rfl
  · intro t ht'
    rw [ht] at ht'
    cases ht'

/-- **The accumulators stay in their types** in every run in which nothing can overflow, whatever
is written, in whatever chunks, and whatever the handler and the calls return. -/
theorem accumulators_typed (hs : s.AtStart h) (hlen : (offered ops).length < 2 ^ 63)
    (hspare : SpareAll h ops s) : TypedAll h ops s :=
  runAll_typed ops hs.reachable hs.tallied.1 hs.tallied.2 (by omega) hspare

/-- Numbers with a fraction and an exponent, in two chunks. -/
theorem accumulators_typed_numbers :
    TypedAll (F := Rat) .accepting
      (presentation
        [([0x5B, 0x30, 0x2E, 0x35], .split 2), ([0x2C, 0x31, 0x65, 0x32, 0x5D], .split 3)])
      (Session.new 64 (.split 0)) := by
  have hs := Session.new_atStart (F := Rat) .accepting 64 (.split 0)
  exact accumulators_typed hs (by decide) (.of_short _ hs.reachable hs.tallied.1 (by decide))

end Runs

/-! ## A number that overflows -/

section Zeros

variable [Double F]

/-- A number with `k` zeros behind the point. -/
def zeros (k : Nat) : List UInt8 := 0x30 :: 0x2E :: List.replicate k 0x30

theorem digitRun_zeros : ∀ k : Nat, NumberState.digitRun (List.replicate k 0x30) 0 = (0, k)
  | 0 => rfl
  | k + 1 => by
    rw [List.replicate_succ, NumberState.digitRun, if_pos (by decide)]
    exact congrArg (fun p => (p.1, p.2 + 1)) (digitRun_zeros k)

/-- The zeros behind the first of a fraction are taken at once, if they lie in one span. -/
theorem zeros_typed {env : Env F} {k : Nat} (hlimits : env.limits = .unlimited)
    (hbytes : env.input.bytes = zeros (k + 1))
    (hspan : env.input.spanFrom 3 = List.replicate k 0x30) {x : World F × Interner}
    {reject whitespace : Bool} {n : ChunkSize} (htok : x.1.tok = .new reject whitespace n)
    (hstart : x.1.consumed = 0) (hx : StaysTyped env x) : k < 2 ^ 31 := by
  obtain ⟨⟨tok, locator, calls, consumed⟩, interner⟩ := x
  obtain ⟨handler, limits, ⟨bytes, spanFrom, contiguous, h1, h2, h3⟩⟩ := env
  dsimp only at hlimits hbytes hspan htok hstart
  subst hlimits hbytes htok hstart
  set env : Env F := ⟨handler, .unlimited, ⟨zeros (k + 1), spanFrom, contiguous, h1, h2, h3⟩⟩
  -- a zero, a point, and the first zero behind it
  obtain ⟨x₁, w, hx₁, hstage, hw, hnumber, hconsumed⟩ :
    ∃ (x₁ : World F × Interner) (w : World F),
      receiveStep env (⟨.new reject whitespace n, locator, calls, 0⟩, interner) = .ok true x₁ ∧
        x₁.1.tok.number.stage = .zero ∧
        continueNumberLoop env 2 x₁.1 = .error .outOfFuel w ∧
        w.tok.number = { NumberState.start 0x30 with
          stage := .fraction, isReal := true, decimalShift := -1, length := 3 } ∧
        w.consumed = 3 :=
    ⟨_, _, rfl, rfl, rfl, rfl, rfl⟩
  have hhead := LoopHead.start.next (show 0 < env.input.len from Nat.succ_pos _) hx₁
  obtain ⟨-, hfits⟩ := hx.number x₁ w hhead (by rw [hstage]; decide) ⟨2, hw⟩
  have hdigits : digitsAtOnce env w = List.replicate k 0x30 := by
    unfold digitsAtOnce
    rw [hnumber, hconsumed, show env.input.spanFrom 3 = _ from hspan]
    show (List.replicate k 0x30).take (NumberState.digitRun (List.replicate k 0x30) 0).2 = _
    rw [digitRun_zeros]
    simp
  have hlt := (hfits (by rw [hnumber])).2
  rw [hdigits, List.length_replicate] at hlt
  exact_mod_cast hlt

/-- A new session without limits. -/
def Session.unlimited (capacity : Nat) : Session F :=
  (Session.new capacity (.split 0)).configure .unlimited false defaultStringChunkSize

/-- A number with `k` zeros behind the point is written and received at once. -/
def receiveZeros (k : Nat) : List Op := [.write (zeros k) (.split 0), .receive]

theorem length_zeros (k : Nat) : (zeros k).length = k + 2 := by
  simp [zeros]

theorem receiveZeros_typed {k : Nat}
    (h : TypedAll (F := F) .accepting (receiveZeros (k + 1)) (.unlimited (k + 3))) :
    k < 2 ^ 31 := by
  obtain ⟨-, hreceive, -⟩ := h
  generalize hs : (Op.result (F := F) .accepting (.write (zeros (k + 1)) (.split 0))
    (.unlimited (k + 3))).2 = s at hreceive
  have hbuf : s.buf = (Session.unlimited (F := F) (k + 3)).buf.write (zeros (k + 1)) (.split 0) :=
    hs ▸ rfl
  have hbytes : s.buf.bytes = zeros (k + 1) := by
    rw [hbuf]
    show [] ++ (zeros (k + 1)).take (k + 3) = _
    rw [List.take_of_length_le (length_zeros _).le, List.nil_append]
  have hparser : s.parser = (Session.unlimited (F := F) (k + 3)).parser := hs ▸ rfl
  have hspans : s.buf.spans = Spans.split 0 (zeros (k + 1)) := by
    rw [← hbytes, hbuf]
    rfl
  have ht : s.parser.tokenizer = none := by
    rw [hparser]
    rfl
  have hbom : checkBom s.buf.spans = .ok (.skip 0) := by
    rw [hspans]
    rfl
  have hbegun := Parser.begun_eq (h := .accepting) ht
  have hstarts : Op.Starts .accepting .receive s _ _ := ⟨.inl rfl, by rw [hparser]; rfl,
    by rw [hbytes]; exact List.cons_ne_nil _ _, by rw [hparser]; exact Bool.false_ne_true,
    .begun ht hbom (by rw [hbegun])⟩
  refine zeros_typed ?_ ?_ ?_ rfl rfl (hreceive.calls _ _ hstarts)
  · show s.parser.limits = _
    rw [hparser]
    rfl
  · show s.buf.spans.bytes.drop 0 = _
    rw [hspans]
    rfl
  · show s.buf.spans.spanFrom (0 + 3) = _
    rw [hspans]
    rfl

/-- **An accumulator leaves its type**: 2^31 zeros behind the first of a fraction are taken at once,
and their count is no `i32`. -/
theorem accumulators_overflow :
    (Session.unlimited (F := Rat) (2 ^ 31 + 3)).AtStart .accepting ∧
      (offered (receiveZeros (2 ^ 31 + 1))).length < 2 ^ 63 ∧
      ¬ TypedAll (F := Rat) .accepting (receiveZeros (2 ^ 31 + 1)) (.unlimited (2 ^ 31 + 3)) := by
  refine ⟨(Session.new_atStart ..).configure .., ?_, fun h => ?_⟩
  · show (zeros (2 ^ 31 + 1) ++ []).length < _
    rw [List.append_nil, length_zeros]
    decide
  · exact Nat.lt_irrefl _ (receiveZeros_typed h)

end Zeros

end RJsonParser
