import RJsonParser.Properties.Strings

/-!
# `continue_number` refines the machine

* `steps_digits` — what the machine does with the digits that are taken at once
* `emitNumber_refines` — the end of a number
* `continueNumber_refines` — a number goes on to the byte behind it, or to where the input ends
-/

namespace RJsonParser

open Infra

variable {F : Type} [Double F] {km : Nat}

/-! ## Digits -/

/-- A state in which digits may be taken at once. -/
structure NumberState.Running (s : NumberState) : Prop where
  stage : s.stage = .integer ∨ s.stage = .fraction
  room : s.mantissaFull = false

/-- The state after `n` digits that went into the mantissa `m`. -/
def NumberState.ran (s : NumberState) (m n : Nat) : NumberState :=
  { s with
    mantissa := m
    decimalShift := if s.stage = .fraction then s.decimalShift - n else s.decimalShift
    length := s.length + n }

@[simp] theorem NumberState.ran_zero (s : NumberState) : s.ran s.mantissa 0 = s := by
  simp [NumberState.ran]

/-- **`take_digit_run`** takes the digits of a span as long as there is room in the mantissa. -/
theorem NumberState.takeDigitRun_eq (s : NumberState) (span : List UInt8) :
    s.takeDigitRun span = (s.ran (digitRun span s.mantissa).1 (digitRun span s.mantissa).2,
      (digitRun span s.mantissa).2) := by
  unfold takeDigitRun
  cases hd : digitRun span s.mantissa with
  | mk m n =>
    by_cases hn : 0 < n
    · simp [hn, NumberState.ran]
    · obtain rfl : n = 0 := by omega
      have hm : m = s.mantissa := by
        cases span with
        | nil => simp only [digitRun, Prod.mk.injEq] at hd; exact hd.1.symm
        | cons b span =>
          rw [digitRun] at hd
          split at hd
          · simp at hd
          · simp only [Prod.mk.injEq] at hd; exact hd.1.symm
      subst hm
      simp

theorem digit_le {b : UInt8} (h : isDigit b = true) : (digitOf b).toNat ≤ 9 := by
  unfold isDigit at h
  rw [decide_eq_true_eq, UInt8.le_iff_toNat_le] at h
  exact h

/-- A digit that surely fits goes into the mantissa. -/
theorem NumberState.Running.takeByte {s : NumberState} (h : s.Running) {b : UInt8}
    (hb : isDigit b = true) (hm : s.mantissa ≤ digitAlwaysFitsBelow) :
    ∃ s', s.takeByte b = .next s' ∧
      s'.addLength 1 = s.ran (s.mantissa * 10 + (digitOf b).toNat) 1 := by
  have hd := digit_le hb
  have hfit : s.mantissa ≤ (i64Max - (digitOf b).toNat) / 10 := by
    unfold digitAlwaysFitsBelow at hm
    unfold i64Max
    omega
  rcases h.stage with hs | hs
  · refine ⟨_, by rw [NumberState.takeByte, hs]; exact if_pos hb, ?_⟩
    simp [NumberState.takeDigit, NumberState.addLength, NumberState.ran, h.room, hfit, hs]
  · refine ⟨_, by rw [NumberState.takeByte, hs]; exact if_pos hb, ?_⟩
    simp [NumberState.takeDigit, NumberState.addLength, NumberState.ran, h.room, hfit, hs]

theorem NumberState.Running.ran {s : NumberState} (h : s.Running) (m n : Nat) :
    (s.ran m n).Running := ⟨h.stage, h.room⟩

theorem NumberState.ran_ran (s : NumberState) (m m' n n' : Nat) :
    (s.ran m n).ran m' n' = s.ran m' (n + n') := by
  simp only [NumberState.ran, NumberState.mk.injEq, true_and, and_true]
  refine ⟨Nat.add_assoc .., ?_⟩
  split <;> simp [Int.sub_sub]

/-! ## The machine in a number -/

section Machine

variable {limits : ParserLimits} {c : Core}

/-- In a number the machine reads its next byte. -/
theorem next_number (hb : c.bomChecked = true) (hs : c.inString = false)
    (hn : c.number.stage ≠ .none) (b : UInt8) (l : List UInt8) :
    c.next (F := F) limits (b :: l) = c.numberStep limits b := by
  simp [Core.next, hb, hs, hn]

theorem NumberState.Running.ne_none {s : NumberState} (h : s.Running) : s.stage ≠ .none := by
  rcases h.stage with h | h <;> simp [h]

/-- The machine takes one digit. -/
theorem next_digit (hb : c.bomChecked = true) (hs : c.inString = false) (hr : c.number.Running)
    {b : UInt8} (hd : isDigit b = true) (hm : c.number.mantissa ≤ digitAlwaysFitsBelow)
    (l : List UInt8) :
    c.next (F := F) limits (b :: l) =
      if exceeds limits.maxNumberLength (c.number.length + 1) then .fail []
      else .step 1
        { c with number := c.number.ran (c.number.mantissa * 10 + (digitOf b).toNat) 1 } [] := by
  obtain ⟨s', hs', heq⟩ := hr.takeByte hd hm
  have hlen : s'.length + 1 = c.number.length + 1 := congrArg NumberState.length heq
  rw [next_number hb hs hr.ne_none, Core.numberStep, hs']
  simp only [heq, hlen]

/-- **The machine takes the digits one by one**, or fails if there are too many. -/
theorem steps_digits (hb : c.bomChecked = true) (hs : c.inString = false)
    (hr : c.number.Running) (span r : List UInt8) {m n : Nat}
    (hd : NumberState.digitRun span c.number.mantissa = (m, n)) :
    n ≤ span.length ∧
      if n ≠ 0 ∧ exceeds limits.maxNumberLength (c.number.length + n) = true then
        (machine F limits).Fails c (span ++ r) []
      else (machine F limits).Steps c (span ++ r) [] { c with number := c.number.ran m n }
        ((span ++ r).drop n) := by
  induction span generalizing c m n with
  | nil =>
    cases hd
    simp only [List.length_nil, le_refl, ne_eq, not_true_eq_false, false_and, if_false, true_and,
      NumberState.ran_zero]
    exact .refl
  | cons b span ih =>
    rw [NumberState.digitRun] at hd
    split at hd
    · next hc =>
      obtain ⟨hm, hdig⟩ := hc
      simp only [Prod.mk.injEq] at hd
      obtain ⟨rfl, rfl⟩ := hd
      have hnext : c.next (F := F) limits (b :: (span ++ r)) = _ :=
        next_digit hb hs hr hdig hm (span ++ r)
      generalize hc' : ({ c with
          number := c.number.ran (c.number.mantissa * 10 + (digitOf b).toNat) 1 } : Core) = c'
        at hnext
      have hnum : c'.number = c.number.ran (c.number.mantissa * 10 + (digitOf b).toNat) 1 := by
        rw [← hc']
      have hrun : NumberState.digitRun span c'.number.mantissa = NumberState.digitRun span
          (c.number.mantissa * 10 + (digitOf b).toNat) := by rw [hnum]; rfl
      obtain ⟨hlen, hrest⟩ := ih (c := c') (by rw [← hc']; exact hb) (by rw [← hc']; exact hs)
        (by rw [hnum]; exact hr.ran _ _) (hrun.trans rfl)
      have hl1 : c'.number.length = c.number.length + 1 := by rw [hnum]; rfl
      generalize hm' : (NumberState.digitRun span (c.number.mantissa * 10 + (digitOf b).toNat)).1
        = m at *
      generalize hn' : (NumberState.digitRun span (c.number.mantissa * 10 + (digitOf b).toNat)).2
        = n at *
      refine ⟨by simpa using hlen, ?_⟩
      by_cases h1 : exceeds limits.maxNumberLength (c.number.length + 1) = true
      · -- the first digit is one too many
        rw [if_pos h1] at hnext
        rw [if_pos ⟨by omega, exceeds_mono h1 (by omega)⟩]
        exact fails_of_next hnext
      · rw [if_neg h1] at hnext
        have hstep := steps_of_next hnext
        have hsum : c'.number.length + n = c.number.length + (n + 1) := by omega
        rw [hsum] at hrest
        split at hrest
        · next hex =>
          rw [if_pos ⟨by omega, hex.2⟩]
          exact hstep.trans_fails hrest
        · next hex =>
          rw [if_neg]
          · have hran : c'.number.ran m n = c.number.ran m (n + 1) := by
              rw [hnum, NumberState.ran_ran, Nat.add_comm]
            rw [hran, ← hc'] at hrest
            have := hstep.trans (by rw [← hc']; exact hrest)
            simpa using this
          · rintro ⟨-, hex'⟩
            by_cases hn0 : n = 0
            · subst hn0
              exact h1 hex'
            · exact hex ⟨hn0, hex'⟩
    · cases hd
      simp only [List.length_cons, Nat.zero_le, ne_eq, not_true_eq_false, false_and, if_false,
        true_and, NumberState.ran_zero, List.drop_zero]
      exact .refl

end Machine

/-! ## The end of a number -/

/-- In a number. -/
structure InNumber (w : World F) : Prop where
  outside : w.tok.inString = false
  stage : w.tok.number.stage ≠ .none

omit [Double F] in
theorem InNumber.pending {w : World F} (h : InNumber w) : w.pending = [] := by
  simp [World.pending, h.outside]

omit [Double F] in
theorem World.Inv.inNumber {input : Spans} {w : World F} (hi : w.Inv input)
    (h : w.tok.number.stage ≠ .none) : InNumber w :=
  ⟨by by_contra hs; exact h (hi.no_number (by simpa using hs)), h⟩

/-- `emit_number` where the number ends before the byte that is next. -/
theorem emitNumber_refines {env : Env F} {w : World F} {b : UInt8} {l : List UInt8}
    (hi : w.Inv env.input) (hn : InNumber w) (hl : env.rest w = b :: l)
    (hb : w.tok.number.takeByte b = .ended) :
    Refines km env w (emitNumber env.handler) fun _ w' =>
      w'.tok.inString = false ∧ w'.tok.number.stage = .none ∧ w'.consumed = w.consumed := by
  unfold emitNumber Refines
  simp only [addColumn, modifyTok, ensures_bind, ensures_get, ensures_modify]
  refine callback_refines (w := w) (e := .numberValue _) (n := 0) rfl trivial ?_ hn.pending ?_ ?_
    ?_ ?_ ?_ ?_
  · exact ⟨hi.consumed_le, hi.chars_le, hi.depth_eq, fun _ => rfl⟩
  · rw [hl, next_number (F := F) (c := w.core) rfl hn.outside hn.stage, Core.numberStep,
      show w.core.number.takeByte b = .ended from hb]
    rfl
  · rfl
  · rfl
  · rfl
  · exact hn.outside
  · intro w' ht hc
    rw [ht, hc]
    exact ⟨hn.outside, rfl, rfl⟩

/-! ## The loop -/

/-- The number after some bytes of it, if it is not too long. -/
theorem setNumber_refines {env : Env F} {w : World F} {n : NumberState} {k : Nat}
    (hi : w.Inv env.input) (hw : InNumber w) (hstage : n.stage ≠ .none)
    (hk : w.consumed + k ≤ env.input.len)
    (hlong : exceeds env.limits.maxNumberLength n.length = true →
      env.reference.Fails w.core (env.rest w) [])
    (hsteps : exceeds env.limits.maxNumberLength n.length = false →
      env.reference.Steps w.core (env.rest w) [] { w.core with number := n }
        ((env.rest w).drop k)) :
    Refines km env w (setNumber env n (w.consumed + k)) fun _ w' =>
      InNumber w' ∧ w'.consumed = w.consumed + k := by
  unfold setNumber Refines
  simp only [modifyTok, setConsumed, ensures_bind, ensures_modify]
  have hout : ¬ w.tok.inString = true := by rw [hw.outside]; simp
  have hinv : World.Inv env.input
      { w with tok := { w.tok with number := n }, consumed := w.consumed + k } :=
    ⟨hk, hi.chars_le, hi.depth_eq, fun h => absurd h hout⟩
  refine (checkLimit_spec _ _ _ _).mono ?_ ?_
  · rintro - w' ⟨rfl, hlim⟩
    refine ⟨hinv, ⟨[], [], rfl, by simp, by simp, ?_, ?_⟩, ⟨hw.outside, hstage⟩, rfl⟩
    · have hpend :
        World.pending { w with tok := { w.tok with number := n }, consumed := w.consumed + k }
          = [] := InNumber.pending ⟨hw.outside, hstage⟩
      rw [hw.pending, hpend]
      rfl
    · have h := hsteps hlim
      rw [Env.rest, List.drop_drop] at h
      exact h
  · rintro e w' ⟨rfl, max, hmax, hlt, rfl⟩
    have hf := hlong (by rw [hmax, exceeds_some]; exact decide_eq_true hlt)
    exact ⟨hinv, rfl, _, [], [], rfl, by simp, by simp, .nil, List.nil_prefix, .failed hf rfl⟩

/-- The digits that are taken at once. -/
theorem takeDigits_refines {env : Env F} {w : World F} (hi : w.Inv env.input) (hw : InNumber w)
    (hlt : w.consumed < env.input.len) :
    Refines km env w (takeDigits env) fun more w' => InNumber w' ∧ w.consumed ≤ w'.consumed ∧
      if more then w'.consumed < env.input.len else w'.consumed = env.input.len := by
  unfold takeDigits Refines
  simp only [ensures_bind, ensures_get]
  by_cases hc : (!w.tok.number.mantissaFull &&
      (w.tok.number.stage == .integer || w.tok.number.stage == .fraction)) = true
  swap
  · rw [if_neg hc]
    exact Refines.pure hi ⟨hw, le_rfl, by simpa using hlt⟩
  have hrun : w.tok.number.Running := by
    simp only [Bool.and_eq_true, Bool.not_eq_true', Bool.or_eq_true, beq_iff_eq] at hc
    exact ⟨hc.2, hc.1⟩
  rw [if_pos hc, NumberState.takeDigitRun_eq]
  simp only
  generalize hd : NumberState.digitRun (env.input.spanFrom w.consumed) w.tok.number.mantissa = res
  obtain ⟨m, n⟩ := res
  obtain ⟨r, hr⟩ := env.input.spanFrom_prefix w.consumed
  have hr' : env.input.spanFrom w.consumed ++ r = env.rest w := hr
  obtain ⟨hlen, hmachine⟩ := steps_digits (F := F) (c := w.core) rfl
    hw.outside hrun (env.input.spanFrom w.consumed) r hd
  rw [hr'] at hmachine
  simp only
  by_cases hn : 0 < n
  swap
  · rw [if_neg hn]
    exact Refines.pure hi ⟨hw, le_rfl, by simpa using hlt⟩
  have hle : w.consumed + n ≤ env.input.len := by
    have := env.input.length_spanFrom_le w.consumed
    omega
  rw [if_pos hn]
  refine Refines.bind (setNumber_refines (w := w) hi hw hrun.ne_none hle ?_ ?_) ?_
  · intro h
    rwa [if_pos ⟨by omega, h⟩] at hmachine
  · intro h
    rwa [if_neg (by rintro ⟨-, h'⟩; exact absurd (h.symm.trans h') (by simp))] at hmachine
  · rintro - w' hi' ⟨hw', hcons⟩
    refine .pure hi' ⟨hw', by omega, ?_⟩
    by_cases hend : w.consumed + n < env.input.len
    · simp only [hend, decide_true, if_true]
      omega
    · simp only [hend, decide_false, Bool.false_eq_true, if_false]
      omega

theorem NumberState.start_length (b : UInt8) : (NumberState.start b).length = 1 := by
  unfold NumberState.start
  simp only [apply_ite NumberState.length, ite_self]

/-- A byte of a number is no end of it. -/
theorem NumberState.takeByte_stage {s n : NumberState} {b : UInt8} (h : s.takeByte b = .next n) :
    n.stage ≠ .none := by
  unfold takeByte takeMark at h
  cases hs : s.stage
  case none => simp only [hs] at h; cases h
  all_goals
    simp only [hs] at h
    split_ifs at h <;> cases h <;> simp [hs]

/-- The `unreachable!` of `continue_number` is not reached. -/
theorem NumberState.takeByte_ne_unreachable {s : NumberState} (h : s.stage ≠ .none) {b : UInt8} :
    s.takeByte b ≠ .unreachable := by
  unfold takeByte takeMark
  cases hs : s.stage
  case none => exact absurd hs h
  all_goals
    simp only
    split_ifs <;> simp

/-- What `continue_number` leaves behind. -/
def NumberLeft (env : Env F) (w : World F) (ended : Bool) (w' : World F) : Prop :=
  w'.tok.inString = false ∧ w.consumed ≤ w'.consumed ∧
    if ended then w'.tok.number.stage = .none else env.rest w' = []

/-- **The loop of `continue_number`**, by runs of digits and single bytes, goes on as the machine
does byte by byte. -/
theorem continueNumberLoop_refines {env : Env F} (fuel : Nat) : ∀ {w : World F},
    env.input.len - w.consumed < fuel → w.Inv env.input → InNumber w →
      Refines km env w (continueNumberLoop env fuel) (NumberLeft env w) := by
  induction fuel with
  | zero => intro w hf; omega
  | succ fuel ih =>
    intro w hf hi hw
    rw [continueNumberLoop]
    unfold Refines
    simp only [ensures_bind, ensures_get]
    by_cases hlt : w.consumed < env.input.len
    swap
    · rw [if_neg hlt]
      exact Refines.pure hi ⟨hw.outside, le_rfl, List.drop_eq_nil_of_le (Nat.le_of_not_lt hlt)⟩
    rw [if_pos hlt]
    -- first the digits that are taken at once, then one byte
    refine (takeDigits_refines hi hw hlt).bind ?_
    rintro more w₁ hi₁ ⟨hw₁, hle, hmore⟩
    cases more with
    | false =>
      simp only [Bool.false_eq_true, if_false] at hmore ⊢
      refine .pure hi₁ ⟨hw₁.outside, hle, ?_⟩
      rw [Env.rest, hmore]
      exact List.drop_length
    | true =>
      simp only [if_true] at hmore ⊢
      obtain ⟨b, l, hd⟩ : ∃ b l, env.input.bytes.drop w₁.consumed = b :: l :=
        ⟨_, _, List.drop_eq_getElem_cons hmore⟩
      have hrest : env.rest w₁ = b :: l := hd
      have hnext : w₁.core.next (F := F) env.limits (b :: l) = _ := next_number rfl hw₁.outside
        hw₁.stage b l
      unfold Refines
      simp only [ensures_bind, ensures_get, env.input.get_eq hd, ensures_ofExcept_ok]
      rw [Core.numberStep] at hnext
      cases hb : w₁.tok.number.takeByte b with
      | next n =>
        rw [show w₁.core.number.takeByte b = .next n from hb] at hnext
        refine (setNumber_refines (w := w₁) (n := n.addLength 1) hi₁ hw₁
          (show n.stage ≠ .none from NumberState.takeByte_stage hb) (by omega) ?_ ?_).bind ?_
        · intro h
          rw [hrest]
          exact fails_of_next (hnext.trans (if_pos h))
        · intro h
          rw [hrest]
          exact steps_of_next (hnext.trans (if_neg (by rw [Bool.not_eq_true]; exact h)))
        · rintro - w₂ hi₂ ⟨hw₂, hcons⟩
          refine (ih (by omega) hi₂ hw₂).mono ?_
          rintro ended w₃ ⟨h1, h2, h3⟩
          exact ⟨h1, by omega, h3⟩
      | ended =>
        refine (emitNumber_refines hi₁ hw₁ hrest hb).bind ?_
        rintro - w₂ hi₂ ⟨h1, h2, h3⟩
        exact .pure hi₂ ⟨h1, by omega, h2⟩
      | error m =>
        rw [show w₁.core.number.takeByte b = .error m from hb] at hnext
        exact ⟨hi₁, .of_fail rfl rfl (by rw [hrest]; exact hnext)⟩
      | unreachable =>
        exact absurd hb (NumberState.takeByte_ne_unreachable hw₁.stage)

/-- **`continue_number`** takes the machine on in the number. -/
theorem continueNumber_refines {env : Env F} {w : World F} (hi : w.Inv env.input)
    (hw : InNumber w) : Refines km env w (continueNumber env) (NumberLeft env w) := by
  unfold continueNumber Refines
  simp only [ensures_bind, ensures_get]
  exact continueNumberLoop_refines _ (Nat.lt_succ_self _) hi hw

end RJsonParser
