import RJsonParser.Properties.Buffering
import RJsonParser.Properties.Runs

/-!
# Where the tokenizer stops with an error

An error leaves the tokenizer where the machine is bound to fail, whatever arrives later: what was
consumed is in order, and the bytes that are not are still to come. This is not so of the errors
that may be returned after bytes were consumed, which are late.

* `Late` — those errors
* `Dooms` — the machine is bound to fail
* `Intact`, `KeyIntact` — programs that have not moved the machine where they stop with an error
* `receive_sticks` — `receive` goes on with the machine, or stops where it is bound to fail
-/

namespace RJsonParser

open Infra Infra.Utf8

variable {F : Type}

/-! ## Where the machine is bound to fail -/

/-- An error that may be returned after bytes were consumed: the handler's, a limit on the tokens,
on a number or on a string value, or a key that comes twice. -/
inductive Late (h : Handler F) : Stop → Prop where
  | refused {calls : List (Call F)} {err : ParseError} (reply : h.reply calls = some err) :
      Late h (.error err)
  | tokens (max : Nat) : Late h (.err s!"Maximum token count exceeded: {max}")
  | number (max : Nat) : Late h (.err (numberTooLong max))
  | string (max : Nat) : Late h (.err (stringTooLong max))
  | duplicate (key : Text) : Late h (.err s!"Duplicate key: {String.ofList key}")

section Doom

variable [Double F]

/-- From `c` with `l` left the machine is bound to fail, or comes to a key longer than `n`. -/
def Dooms (F : Type) [Double F] (limits : ParserLimits) (n : Nat) (c : Core)
    (l : List UInt8) : Prop :=
  ∃ os : List (Mark F), (machine F limits).Fails c l os ∨ LongKey limits n c l os

section Dooms

variable {limits : ParserLimits} {n : Nat} {c c' : Core} {l l' : List UInt8} {os : List (Mark F)}
  {key : Text}

/-- Whatever arrives later. -/
theorem Dooms.append (h : Dooms F limits n c l) (m : List UInt8) : Dooms F limits n c (l ++ m) := by
  obtain ⟨os, h | h⟩ := h
  · exact ⟨os, .inl (h.append m)⟩
  · exact ⟨os, .inr (LongKey.append h m)⟩

/-- A step from a key puts the key out, but for the step that a line break is over in. -/
theorem AtKey.next (h : AtKey limits c l key) {k : Nat}
    (hs : c.next (F := F) limits l = .step k c' os) :
    AtKey limits c' (l.drop k) key ∨ ∃ p, (.key key, p) ∈ os := by
  obtain ⟨⟨hb, hi, hn⟩, hstate, t, m, rfl, hf, hd⟩ := h
  rw [next_outside hb hi hn, Core.outerStep, wsByte_eq_none.mpr (by decide)] at hs
  dsimp only at hs
  by_cases hc : c.pos.afterCr = true
  · rw [if_pos hc] at hs
    cases hs
    exact .inl ⟨⟨hb, hi, hn⟩, hstate, t, m, rfl, hf, hd⟩
  rw [if_neg hc, Core.tokenStep, show tokenKind quote = .quote from rfl] at hs
  simp only [Core.quoteStep, hstate, Core.keyStep, hf, hd] at hs
  split at hs
  · cases hs
  · obtain ⟨-, -, rfl, -⟩ := Core.finish_eq_step hs
    exact .inr ⟨_, List.mem_append_left _ (List.mem_singleton_self _)⟩

theorem AtKey.steps (hs : (machine F limits).Steps c l os c' l') :
    AtKey limits c l key → AtKey limits c' l' key ∨ ∃ p, (.key key, p) ∈ os := by
  induction hs with
  | refl => exact .inl
  | head hn _ ih =>
    intro h
    rcases h.next hn with h | ⟨p, hp⟩
    · exact (ih h).imp id fun ⟨p, hp⟩ => ⟨p, List.mem_append_right _ hp⟩
    · exact .inr ⟨p, List.mem_append_left _ hp⟩

/-- The machine does not come past where it fails, nor past a key that is too long. -/
theorem Dooms.steps (h : Dooms F limits n c l) (hs : (machine F limits).Steps c l os c' l')
    (hkeys : ∀ key p, (.key key, p) ∈ os → byteLen key ≤ n) : Dooms F limits n c' l' := by
  obtain ⟨os₁, ⟨mid, c₁, l₁, out, hs₁, hfail, -⟩ | ⟨c₁, l₁, key, hs₁, hat, hlong⟩⟩ := h
  · rcases hs.linear hs₁ with ⟨os₂, -, hs₂⟩ | ⟨os₂, -, hs₂⟩
    · exact ⟨_, .inl (hs₂.trans_fails (fails_of_next hfail))⟩
    · obtain ⟨-, rfl, rfl⟩ := hs₂.eq_of_halted (Machine.halted_of_fail hfail)
      exact ⟨out, .inl (fails_of_next hfail)⟩
  · rcases hs.linear hs₁ with ⟨os₂, -, hs₂⟩ | ⟨os₂, rfl, hs₂⟩
    · exact ⟨os₂, .inr ⟨c₁, l₁, key, hs₂, hat, hlong⟩⟩
    · rcases AtKey.steps hs₂ hat with hat | ⟨p, hp⟩
      · exact ⟨[], .inr ⟨c', l', key, .refl, hat, hlong⟩⟩
      · have := hkeys key p (List.mem_append_right _ hp)
        omega

end Dooms

/-- The tokenizer stands where the machine is bound to fail. -/
def Doomed (env : Env F) (w : World F) : Prop :=
  Dooms F env.limits w.tok.chunkSize w.core (env.rest w)

variable {env : Env F} {w w' : World F} {km : Nat}

/-- An error is late, or it leaves the tokenizer where the machine is bound to fail. -/
def Sticks (env : Env F) (e : Stop) (w : World F) : Prop := Late env.handler e ∨ Doomed env w

theorem Doomed.of_fail (h : w.core.next (F := F) env.limits (env.rest w) = .fail []) :
    Doomed env w := ⟨[], .inl (fails_of_next h)⟩

/-- The machine stands where it stood. -/
def Unmoved (w w' : World F) : Prop := w'.core = w.core ∧ w'.consumed = w.consumed

/-- An error where the machine has not moved. -/
theorem Broke.sticks {e : Stop} (h : Broke km env w e w') (hw : Late env.handler e ∨ Unmoved w w') :
    Sticks env e w' := by
  obtain ⟨hchunk, err, new, os, rfl, -, -, -, -, hreason⟩ := h
  rcases hw with hlate | ⟨hcore, hcons⟩
  · exact .inl hlate
  unfold Sticks Doomed Env.rest
  rw [hcore, hcons, hchunk]
  cases hreason with
  | refused _ reply => exact .inl (.refused reply)
  | failed fails _ => exact .inr ⟨os, .inl fails⟩
  | longKey long _ => exact .inr ⟨os, .inr long⟩

/-- What was called back is short, and so is every key that the machine put out. -/
theorem Ran.keys {new : List (Call F)} {os : List (Mark F)} (h : Ran km env w w' new os)
    (key : Text) (p : Option SharedLocator) (hp : (.key key, p) ∈ os) : byteLen key ≤ km := by
  have hmem : (.key key, p) ∈ marks new ++ contentMarks w'.pending := by
    rw [h.marks_eq]
    exact List.mem_append_right _ hp
  rcases List.mem_append.mp hmem with hmem | hmem
  · obtain ⟨call, hcall, hmark⟩ := List.mem_flatMap.mp hmem
    have hpiece := h.piece call hcall
    obtain ⟨e, l⟩ := call
    cases e <;> simp_all [Call.marks, Call.Piece, Event.Short]
  · obtain ⟨ch, -, hch⟩ := List.mem_map.mp hmem
    cases hch

end Doom

/-! ## Programs that stop before they move -/

/-- A program whose errors are late. -/
def Sure {α : Type} (h : Handler F) (x : TokM F α) : Prop :=
  ∀ w, Ensures x w (fun _ _ => True) (fun e _ => Late h e)

/-- A program that has not moved the machine where it stops with an error that is not late. -/
def Intact {α : Type} (h : Handler F) (x : TokM F α) : Prop :=
  ∀ w, Ensures x w (fun _ _ => True) (fun e w' => Late h e ∨ Unmoved w w')

section Programs

variable {α β : Type} {h : Handler F} {x : TokM F β} {f : β → TokM F α} {limits : ParserLimits}

theorem Sure.pure (a : α) : Sure h (pure a : TokM F α) := fun _ => trivial

theorem Sure.bind (hx : Sure h x) (hf : ∀ b, Sure h (f b)) : Sure h (x >>= f) := by
  intro w
  rw [ensures_bind]
  exact (hx w).mono (fun b w' _ => hf b w') fun _ _ h => h

theorem Sure.get_bind {f : World F → TokM F α} (hf : ∀ w, Sure h (f w)) : Sure h (get >>= f) :=
  fun w => hf w w

theorem Sure.modify (f : World F → World F) : Sure h (modify f : TokM F PUnit) := fun _ => trivial

theorem Sure.ite {c : Prop} [Decidable c] {x y : TokM F α} (hx : Sure h x) (hy : Sure h y) :
    Sure h (if c then x else y) := by
  split_ifs
  · exact hx
  · exact hy

theorem Sure.callback (h : Handler F) (e : Event F) : Sure h (callback h e) := by
  unfold RJsonParser.callback
  refine .bind (.modify _) fun _ => .get_bind fun w => ?_
  cases hr : h.reply w.calls with
  | none => exact .pure _
  | some err => exact fun _ => .refused hr

theorem Sure.flushChars (h : Handler F) : Sure h (flushChars h) := by
  unfold RJsonParser.flushChars
  exact .get_bind fun w => .ite (.bind (.callback h _) fun _ => .modify _) (.pure _)

theorem Sure.tokenDone (limits : ParserLimits) : Sure h (tokenDone limits) := by
  unfold RJsonParser.tokenDone checkTokenLimit
  refine .bind (.modify _) fun _ => ?_
  cases limits.maxTokenCount with
  | none => exact .pure _
  | some max =>
    refine .bind (.modify _) fun _ => .get_bind fun w => .ite (fun _ => ?_) (.pure _)
    exact .tokens max

theorem Sure.tokenTo (limits : ParserLimits) (state : State) : Sure h (tokenTo limits state) := by
  unfold RJsonParser.tokenTo
  exact .bind (.tokenDone limits) fun _ => .modify _

theorem Sure.takeOne : Sure h takeOne := by
  unfold RJsonParser.takeOne
  exact .get_bind fun w => .bind (.modify _) fun _ => .modify _

/-- A limit with a message of its own. -/
theorem Sure.checkLimit {message : Nat → String} (hm : ∀ max, Late h (.err (message max)))
    (limit : Option Nat) (n : Nat) : Sure h (checkLimit limit n message) := by
  unfold RJsonParser.checkLimit
  cases limit with
  | none => exact .pure _
  | some max => exact .ite (fun _ => hm max) (.pure _)

theorem Sure.intact {x : TokM F α} (hx : Sure h x) : Intact h x :=
  fun w => (hx w).mono (fun _ _ h => h) fun _ _ => .inl

theorem Intact.throw (e : Stop) : Intact h (throw e : TokM F α) := fun _ => .inr ⟨rfl, rfl⟩

theorem Intact.get_bind {f : World F → TokM F α} (hf : ∀ w, Intact h (f w)) :
    Intact h (get >>= f) :=
  fun w => hf w w

theorem Intact.ofExcept_bind {r : Except Stop β} (hf : ∀ b, Intact h (f b)) :
    Intact h (ofExcept r >>= f) := by
  cases r with
  | ok b => exact hf b
  | error e => exact .throw e

theorem Intact.ite {c : Prop} [Decidable c] {x y : TokM F α} (hx : Intact h x) (hy : Intact h y) :
    Intact h (if c then x else y) := by
  split_ifs
  · exact hx
  · exact hy

/-- What touches the buffer only is followed by a program of the kind. -/
theorem Intact.buffers_bind (hx : Buffers x) (hf : ∀ b, Intact h (f b)) : Intact h (x >>= f) := by
  intro w
  rw [ensures_bind]
  refine (hx w w (.refl w)).mono ?_ ?_
  · rintro b w₁ ⟨chars, cap, calls, rfl⟩
    exact hf b _
  · rintro e w₁ ⟨chars, cap, calls, rfl⟩
    exact .inr ⟨rfl, rfl⟩

theorem Intact.checkLimit_bind {message : Nat → String} (hm : ∀ max, Late h (.err (message max)))
    (limit : Option Nat) (n : Nat) {f : Unit → TokM F α} (hf : Intact h (f ())) :
    Intact h (checkLimit limit n message >>= f) := by
  unfold checkLimit
  cases limit with
  | none => exact hf
  | some max =>
    dsimp only
    by_cases hlt : max < n
    · rw [if_pos hlt]
      exact fun _ => .inl (hm max)
    · rw [if_neg hlt]
      exact hf

theorem Intact.checkDepth_bind {f : Unit → TokM F α} (hf : Intact h (f ())) :
    Intact h (checkDepth limits >>= f) := by
  unfold checkDepth
  cases limits.maxNestingDepth with
  | none => exact hf
  | some max =>
    dsimp only
    rw [bind_assoc]
    refine .get_bind fun w => ?_
    split_ifs
    · exact .throw _
    · exact hf

/-! ### Tokens -/

theorem Intact.processComma (env : Env F) : Intact h (processComma env) := by
  unfold RJsonParser.processComma
  refine .get_bind fun w => .ite (.throw _) (.ite (.throw _) (Sure.intact ?_))
  exact .bind .takeOne fun _ => .bind (.tokenDone _) fun _ => .modify _

theorem Intact.processColon (env : Env F) : Intact h (processColon env) := by
  unfold RJsonParser.processColon
  refine .get_bind fun w => .ite (.throw _) (Sure.intact ?_)
  exact .bind .takeOne fun _ => .tokenTo _ _

theorem Sure.bracket (h : Handler F) (limits : ParserLimits) (e : Event F)
    (f : Tokenizer → Tokenizer) (state : State) :
    Sure h (do
      RJsonParser.takeOne
      RJsonParser.callback h e
      modifyTok f
      RJsonParser.tokenTo limits state) :=
  .bind .takeOne fun _ => .bind (.callback h e) fun _ => .bind (.modify _) fun _ => .tokenTo _ state

theorem Intact.processOpenObject (env : Env F) : Intact env.handler (processOpenObject env) := by
  unfold RJsonParser.processOpenObject
  exact .get_bind fun w => .ite (.throw _) (.checkDepth_bind (Sure.intact (.bracket _ _ _ _ _)))

theorem Intact.processCloseObject (env : Env F) : Intact env.handler (processCloseObject env) := by
  unfold RJsonParser.processCloseObject
  refine .get_bind fun w => .ite (.throw _) (.ite (.throw _) (.ite (.throw _) (Sure.intact ?_)))
  exact .bracket _ _ _ _ _

theorem Intact.processOpenArray (env : Env F) : Intact env.handler (processOpenArray env) := by
  unfold RJsonParser.processOpenArray
  exact .get_bind fun w => .ite (.throw _) (.checkDepth_bind (Sure.intact (.bracket _ _ _ _ _)))

theorem Intact.processCloseArray (env : Env F) : Intact env.handler (processCloseArray env) := by
  unfold RJsonParser.processCloseArray
  refine .get_bind fun w => .ite (.throw _) (.ite (.throw _) (.ite (.throw _) (Sure.intact ?_)))
  exact .bracket _ _ _ _ _

theorem Intact.processLiteralArm (env : Env F) (name : String) (rest : List UInt8)
    (value : Option Bool) : Intact env.handler (processLiteralArm env name rest value) := by
  unfold RJsonParser.processLiteralArm processLiteral
  refine .get_bind fun w => .ite (.throw _) (.get_bind fun w => .ite (.throw _) ?_)
  refine .ofExcept_bind fun _ => Sure.intact (.ite (.pure _) ?_)
  refine .bind (.modify _) fun _ => .bind (.modify _) fun _ => ?_
  exact .bind (.tokenTo _ _) fun _ => .bind (.callback _ _) fun _ => .pure _

theorem Intact.processNumber (env : Env F) (b : UInt8) : Intact h (processNumber env b) := by
  unfold RJsonParser.processNumber
  refine .get_bind fun w => .ite (.throw _) (Sure.intact ?_)
  exact .bind (.modify _) fun _ => .bind (.modify _) fun _ =>
    .bind (.tokenDone _) fun _ => .modify _

theorem Sure.startString (env : Env F) : Sure env.handler (startString env) := by
  unfold RJsonParser.startString
  refine .bind .takeOne fun _ => .bind (.modify _) fun _ => .bind (.modify _) fun _ => ?_
  refine .bind (.callback _ _) fun _ => .bind (.modify _) fun _ => ?_
  exact .bind (.tokenDone _) fun _ => .modify _

end Programs

/-! ## String values and numbers -/

section Loops

variable {env : Env F} {w : World F}

theorem deliverRun_intact (runStart runEnd : Nat) :
    Intact env.handler (deliverRun env runStart runEnd) := by
  unfold deliverRun
  refine .ite (.get_bind fun w => .checkLimit_bind .string _ _ ?_) (Sure.intact (.pure _))
  refine .buffers_bind (.decodeRun _ _ _ _) fun run => Sure.intact (.bind (.modify _) fun _ => ?_)
  refine .bind (.modify _) fun _ => .bind (.modify _) fun _ => .ite ?_ (.pure _)
  exact .bind (.flushChars _) fun _ => .pure _

theorem endString_sure (runEnd : Nat) : Sure env.handler (endString env runEnd) := by
  unfold endString
  refine .bind (.flushChars _) fun _ => .bind (.modify _) fun _ => .bind (.modify _) fun _ => ?_
  exact .bind (.modify _) fun _ => .callback _ _

theorem pushEscape_intact (runEnd : Nat) (ch : Char) (n : Nat) :
    Intact env.handler (pushEscape env runEnd ch n) := by
  unfold pushEscape
  refine .buffers_bind (.ensureFree _ _) fun _ => Sure.intact (.bind (.modify _) fun _ => ?_)
  refine .bind (.modify _) fun _ => .bind (.modify _) fun _ => .bind (.modify _) fun _ => ?_
  exact .get_bind fun w => .checkLimit .string _ _

theorem setNumber_spec (s : NumberState) (p : Nat) :
    Ensures (setNumber env s p) w
      (fun _ w' => w' = { w with tok := { w.tok with number := s }, consumed := p })
      (fun e _ => Late env.handler e) := by
  unfold setNumber checkLimit
  simp only [modifyTok, setConsumed, ensures_bind, ensures_modify]
  cases env.limits.maxNumberLength with
  | none => exact rfl
  | some max =>
    rw [ensures_ite]
    split_ifs
    · exact .number max
    · exact rfl

theorem takeDigits_sure : Sure env.handler (takeDigits env) := by
  unfold takeDigits
  refine .get_bind fun w => .ite (.ite (.bind (fun w => ?_) fun _ => .pure _) (.pure _)) (.pure _)
  exact (setNumber_spec _ _).mono (fun _ _ _ => trivial) fun _ _ h => h

variable [Double F]

theorem emitNumber_sure (h : Handler F) : Sure h (emitNumber h) := by
  unfold emitNumber
  exact .get_bind fun w => .bind (.modify _) fun _ => .bind (.modify _) fun _ => .callback h _

/-- An error in a string value comes where the machine stands at the run or the escape sequence. -/
theorem continueStringLoop_sticks (fuel : Nat) :
    ∀ {w : World F}, env.input.len - w.consumed < fuel → w.Inv env.input → InString w →
      Ensures (continueStringLoop env fuel) w (fun _ _ => True) (Sticks env) := by
  induction fuel with
  | zero =>
    intro w hf
    omega
  | succ fuel ih =>
    intro w hf hi hs
    obtain ⟨runEnd, hscan, hp⟩ := scanPlain_plainRun hi
    rw [continueStringLoop]
    simp only [ensures_bind, ensures_get, hscan, ensures_ofExcept_ok]
    have hrun : Refines 0 env w (deliverRun env w.consumed runEnd) _ := deliverRun_refines hi hs hp
    -- where the run fails, the machine either fails as well or the handler refused
    refine (Ensures.and hrun (deliverRun_intact _ runEnd w)).mono ?_ fun e w' h => h.1.2.sticks h.2
    rintro cut w₁ ⟨⟨hi₁, -, hs₁, hle, hcut⟩, -⟩
    cases cut with
    | true => exact trivial
    | false =>
      simp only [Bool.false_eq_true, if_false] at hcut ⊢
      subst hcut
      have hflush : Ensures (do flushChars env.handler; return false) w₁ (fun _ _ => True)
          (Sticks env) := by
        rw [ensures_bind]
        exact (Sure.flushChars env.handler w₁).mono (fun _ _ h => h) fun _ _ => .inl
      by_cases hend : w₁.consumed = env.input.len
      · rw [if_pos hend]
        exact hflush
      have hlt : w₁.consumed < env.input.len := by
        have := hi₁.consumed_le
        omega
      obtain ⟨b, l, hd⟩ : ∃ b l, env.input.bytes.drop w₁.consumed = b :: l :=
        ⟨_, _, List.drop_eq_getElem_cons hlt⟩
      have hrest : env.rest w₁ = b :: l := hd
      have hdel := hp.stop.delimiter b l hd
      rw [if_neg hend, env.input.get_eq hd, ensures_bind, ensures_ofExcept_ok]
      by_cases hq : b = quote
      · rw [if_pos hq, ensures_bind]
        exact (endString_sure _ w₁).mono (fun _ _ h => h) fun _ _ => .inl
      rw [if_neg hq]
      by_cases hb : b = backslash
      swap
      · rw [if_pos hb]
        have hc : b < 0x20 := by simpa [isDelimiter, hq, hb] using hdel
        refine .inr (Doomed.of_fail ?_)
        rw [hrest, next_string (F := F) (c := w₁.core) rfl hs₁.inString, Core.stringStep,
          if_neg hq, if_neg hb, if_pos hc]
      subst hb
      have hnext := next_backslash (F := F) env.limits (c := w₁.core) rfl hs₁.inString l
      rw [if_neg (by simp), resolveEscape_eq, hd, ensures_bind]
      cases hr : resolve (backslash :: l) with
      | error e =>
        rw [hr] at hnext
        refine .inr (Doomed.of_fail ?_)
        rw [hrest]
        exact hnext
      | ok r =>
        rw [ensures_ofExcept_ok]
        cases r with
        | none => exact hflush
        | some r =>
          obtain ⟨ch, n⟩ := r
          dsimp only
          rw [ensures_bind]
          have hpush : Refines 0 env w₁ (pushEscape env w₁.consumed ch n) _ :=
            pushEscape_refines hi₁ hs₁ hd hr
          refine (Ensures.and hpush (pushEscape_intact _ ch n w₁)).mono ?_
            fun e w' h => h.1.2.sticks h.2
          rintro - w₂ ⟨⟨hi₂, -, hs₂, hcons⟩, -⟩
          have hn := (resolve_length hr).1
          exact ih (by omega) hi₂ hs₂

theorem continueString_sticks (hi : w.Inv env.input) (hs : w.tok.inString = true) :
    Ensures (continueString env) w (fun _ _ => True) (Sticks env) := by
  have hchars : Refines 0 env w ensureChars _ := ensureChars_refines hi hs
  unfold continueString
  rw [ensures_bind]
  have hsure : Ensures (ensureChars (F := F)) w (fun _ _ => True) (fun _ _ => False) := trivial
  refine (Ensures.and hchars hsure).mono ?_ fun _ _ h => h.2.elim
  rintro - w₁ ⟨⟨hi₁, -, hs₁, -⟩, -⟩
  exact continueStringLoop_sticks _ (Nat.lt_succ_self _) hi₁ hs₁

/-- An error in a number comes at the byte that cannot go on with it. -/
theorem continueNumberLoop_sticks (fuel : Nat) :
    ∀ {w : World F}, env.input.len - w.consumed < fuel → w.Inv env.input → InNumber w →
      Ensures (continueNumberLoop env fuel) w (fun _ _ => True) (Sticks env) := by
  induction fuel with
  | zero =>
    intro w hf
    omega
  | succ fuel ih =>
    intro w hf hi hw
    rw [continueNumberLoop, ensures_bind, ensures_get]
    by_cases hlt : w.consumed < env.input.len
    swap
    · rw [if_neg hlt]
      exact trivial
    rw [if_pos hlt, ensures_bind]
    have htake : Refines 0 env w (takeDigits env) _ := takeDigits_refines hi hw hlt
    refine (Ensures.and htake (takeDigits_sure w)).mono ?_ fun _ _ h => .inl h.2
    rintro more w₁ ⟨⟨hi₁, -, hw₁, hle, hmore⟩, -⟩
    cases more with
    | false => exact trivial
    | true =>
      simp only [if_true] at hmore ⊢
      obtain ⟨b, l, hd⟩ : ∃ b l, env.input.bytes.drop w₁.consumed = b :: l :=
        ⟨_, _, List.drop_eq_getElem_cons hmore⟩
      have hrest : env.rest w₁ = b :: l := hd
      have hnext : w₁.core.next (F := F) env.limits (b :: l) = _ :=
        next_number rfl hw₁.outside hw₁.stage b l
      rw [Core.numberStep] at hnext
      simp only [ensures_bind, ensures_get, env.input.get_eq hd, ensures_ofExcept_ok]
      cases hb : w₁.tok.number.takeByte b with
      | next s =>
        simp only [ensures_bind]
        refine (setNumber_spec _ _).mono ?_ fun _ _ => .inl
        rintro - w₂ rfl
        refine ih (by show _ - (w₁.consumed + 1) < fuel; omega) ?_ ?_
        · refine ⟨hmore, hi₁.chars_le, hi₁.depth_eq, fun hs => ?_⟩
          exact absurd (hw₁.outside.symm.trans hs) (by decide)
        · exact ⟨hw₁.outside, (show s.stage ≠ .none from NumberState.takeByte_stage hb)⟩
      | ended =>
        simp only [ensures_bind]
        exact (emitNumber_sure env.handler w₁).mono (fun _ _ h => h) fun _ _ => .inl
      | error m =>
        rw [show w₁.core.number.takeByte b = .error m from hb] at hnext
        refine .inr (Doomed.of_fail ?_)
        rw [hrest]
        exact hnext
      | unreachable => exact absurd hb (NumberState.takeByte_ne_unreachable hw₁.stage)

theorem continueNumber_sticks (hi : w.Inv env.input) (hw : InNumber w) :
    Ensures (continueNumber env) w (fun _ _ => True) (Sticks env) := by
  unfold continueNumber
  rw [ensures_bind, ensures_get]
  exact continueNumberLoop_sticks _ (Nat.lt_succ_self _) hi hw

/-! ## Whitespace -/

omit [Double F] in
theorem processWhitespace_late (hi : w.Inv env.input) :
    Ensures (processWhitespace env) w (fun _ _ => True) (fun e _ => Late env.handler e) := by
  obtain ⟨p, q, hloop, hle, hlen, hfold, -⟩ := wsLoop_spec env.input
    (env.input.len - w.consumed + 1) w.consumed w.core.pos (Nat.lt_succ_self _) hi.consumed_le
  unfold processWhitespace reportWhitespace
  simp only [ensures_bind, ensures_get]
  rw [show wsLoop env.input (env.input.len - w.consumed + 1) w.consumed
    ⟨w.locator.line, w.locator.column, w.tok.afterCr⟩ = .ok (p, q) from hloop]
  simp only [ensures_ofExcept_ok, ensures_modify]
  rw [ensures_ite]
  split_ifs
  · refine (wsCalls_spec env.handler env.input hlen _ w.consumed _ (Nat.lt_succ_self _) hle
      (mem_of_foldlM_wsByte hfold)).mono (fun _ _ _ => trivial) ?_
    rintro e w' ⟨err, new, rfl, -, -, hreply, -⟩
    exact .refused hreply
  · exact trivial

end Loops

/-! ## Keys -/

/-- As `Sure`. -/
def KeySure {α : Type} (h : Handler F) (x : KeyM F α) : Prop :=
  ∀ s, Ensures x s (fun _ _ => True) (fun e _ => Late h e)

/-- As `Intact`. -/
def KeyIntact {α : Type} (h : Handler F) (x : KeyM F α) : Prop :=
  ∀ s, Ensures x s (fun _ _ => True) (fun e s' => Late h e ∨ Unmoved s.1 s'.1)

section Keys

variable {α β : Type} {h : Handler F} {x : KeyM F β} {f : β → KeyM F α}

theorem KeySure.intact {x : KeyM F α} (hx : KeySure h x) : KeyIntact h x :=
  fun s => (hx s).mono (fun _ _ h => h) fun _ _ => .inl

theorem KeySure.zoom {x : TokM F α} (hx : Sure h x) : KeySure h (zoom x) := by
  intro s
  rw [ensures_zoom]
  exact hx s.1

theorem KeySure.pure (a : α) : KeySure h (pure a : KeyM F α) := fun _ => trivial

theorem KeySure.bind (hx : KeySure h x) (hf : ∀ b, KeySure h (f b)) : KeySure h (x >>= f) := by
  intro s
  rw [ensures_bind]
  exact (hx s).mono (fun b s' _ => hf b s') fun _ _ h => h

theorem KeyIntact.pure (a : α) : KeyIntact h (pure a : KeyM F α) := fun _ => trivial

theorem KeyIntact.throw (e : Stop) : KeyIntact h (throw e : KeyM F α) := fun _ => .inr ⟨rfl, rfl⟩

theorem KeyIntact.get_bind {f : World F × Interner → KeyM F α} (hf : ∀ s, KeyIntact h (f s)) :
    KeyIntact h (get >>= f) :=
  fun s => hf s s

theorem KeyIntact.ofExcept_bind {r : Except Stop β} (hf : ∀ b, KeyIntact h (f b)) :
    KeyIntact h (ofExcept r >>= f) := by
  cases r with
  | ok b => exact hf b
  | error e => exact .throw e

theorem KeyIntact.ite {c : Prop} [Decidable c] {x y : KeyM F α} (hx : KeyIntact h x)
    (hy : KeyIntact h y) : KeyIntact h (if c then x else y) := by
  split_ifs
  · exact hx
  · exact hy

theorem KeyIntact.modifyInterner_bind (g : Interner → Interner) {f : Unit → KeyM F α}
    (hf : KeyIntact h (f ())) : KeyIntact h (modifyInterner g >>= f) :=
  fun s => hf (s.1, g s.2)

theorem KeyIntact.zoom {x : TokM F α} (hx : Intact h x) : KeyIntact h (zoom x) := by
  intro s
  rw [ensures_zoom]
  exact hx s.1

/-- What touches the buffer only is followed by a program of the kind. -/
theorem KeyIntact.buffers_bind {x : TokM F β} (hx : Buffers x) (hf : ∀ b, KeyIntact h (f b)) :
    KeyIntact h (Infra.zoom x >>= f) := by
  rintro ⟨w, k⟩
  rw [ensures_bind, ensures_zoom]
  refine (hx w w (.refl w)).mono ?_ ?_
  · rintro b w₁ ⟨chars, cap, calls, rfl⟩
    exact hf b (_, k)
  · rintro e w₁ ⟨chars, cap, calls, rfl⟩
    exact .inr ⟨rfl, rfl⟩

/-- What is left to do has late errors only. -/
theorem KeyIntact.sure_bind (hx : KeyIntact h x) (hf : ∀ b, KeySure h (f b)) :
    KeyIntact h (x >>= f) := by
  intro s
  rw [ensures_bind]
  refine (hx s).mono (fun b s' _ => ?_) fun _ _ h => h
  exact (hf b s').mono (fun _ _ h => h) fun _ _ => .inl

theorem Sure.checkDuplicate (key : Text) : Sure h (checkDuplicate key) := by
  unfold RJsonParser.checkDuplicate
  refine .get_bind fun w => .ite ?_ (.pure _)
  cases w.tok.duplicateKeyStack with
  | nil => exact .pure _
  | cons seen rest => exact .ite (fun _ => .duplicate key) (.modify _)

theorem Sure.reportKey (h : Handler F) (key : Text) (units : Nat) :
    Sure h (reportKey h key units) := by
  unfold RJsonParser.reportKey
  exact .bind (.checkDuplicate key) fun _ => .bind (.modify _) fun _ => .callback h _

variable {env : Env F}

theorem Sure.reportChars (stop units : Nat) : Sure env.handler (reportChars env stop units) := by
  unfold RJsonParser.reportChars
  exact .bind (.modify _) fun _ => .get_bind fun w => .reportKey _ _ _

theorem processInterned_intact (start stop : Nat) (bytes : List UInt8) :
    KeyIntact env.handler (processInterned env start stop bytes) := by
  unfold processInterned
  refine .modifyInterner_bind _ (.get_bind fun s => .ofExcept_bind ?_)
  rintro (_ | found)
  · refine .buffers_bind (.decodeKey _ _ _) fun units => .get_bind fun s =>
      .ofExcept_bind fun table => ?_
    exact .modifyInterner_bind _ (.zoom (Sure.intact (.reportChars stop units)))
  · refine .modifyInterner_bind _ (KeySure.intact ?_)
    exact .bind (.zoom (.modify _)) fun _ => .zoom (.reportKey _ _ _)

/-- An error in a key comes before the key is consumed. -/
theorem processKey_intact : KeyIntact env.handler (processKey env) := by
  unfold processKey
  refine .get_bind fun s => .ofExcept_bind ?_
  rintro (_ | ⟨stop, hasEscape⟩)
  · exact .pure _
  refine .buffers_bind .ensureChars fun _ => .buffers_bind .clearChars fun _ => ?_
  dsimp only
  split
  · exact .sure_bind (processInterned_intact _ _ _) fun _ => .pure _
  · refine .buffers_bind (.decodeKey _ _ _) fun units => KeySure.intact ?_
    exact .bind (.zoom (.reportChars stop units)) fun _ => .pure _

theorem processQuote_intact : KeyIntact env.handler (processQuote env) := by
  unfold processQuote
  refine .get_bind fun s => .ite (.throw _) (.ite ?_ ?_)
  · refine .sure_bind processKey_intact fun complete => ?_
    cases complete with
    | false => exact .pure _
    | true => exact .bind (.zoom (.tokenTo _ _)) fun _ => .pure _
  · exact .sure_bind (.zoom (Sure.intact (.startString env))) fun _ => .pure _

/-- An error in a token comes before the token is consumed. -/
theorem processToken_intact (b : UInt8) : KeyIntact env.handler (processToken env b) := by
  have halways {m : TokM F Unit} (hm : Intact env.handler m) : KeyIntact env.handler (always m) :=
    .sure_bind (.zoom hm) fun _ => .pure _
  unfold processToken
  exact .ite processQuote_intact <| .ite (halways (.processComma env)) <|
    .ite (halways (.processColon env)) <| .ite (halways (.processOpenObject env)) <|
    .ite (halways (.processCloseObject env)) <| .ite (halways (.processOpenArray env)) <|
    .ite (halways (.processCloseArray env)) <| .ite (.zoom (.processLiteralArm env _ _ _)) <|
    .ite (.zoom (.processLiteralArm env _ _ _)) <| .ite (.zoom (.processLiteralArm env _ _ _)) <|
    .ite (halways (.processNumber env b)) (.throw _)

end Keys

/-! ## All of the input -/

section Receive

variable [Double F] {env : Env F} {w : World F} {k : Interner} {km : Nat}

/-- **An error in one iteration** of the loop of `receive`. -/
theorem receiveStep_sticks (hi : w.Inv env.input) (hk : k.Inv km) (hkm : w.tok.chunkSize ≤ km)
    (hlt : w.consumed < env.input.len) :
    Ensures (receiveStep env) (w, k) (fun _ _ => True) (fun e s' => Sticks env e s'.1) := by
  have hzoom {α : Type} {x : TokM F α} (hx : Ensures x w (fun _ _ => True) (Sticks env)) :
      Ensures (zoom x) (w, k) (fun _ _ => True) (fun e s' => Sticks env e s'.1) := by
    rw [ensures_zoom]
    exact hx
  unfold receiveStep
  simp only [ensures_bind, ensures_get]
  by_cases hs : w.tok.inString = true
  · rw [if_pos hs]
    exact hzoom (continueString_sticks hi hs)
  rw [if_neg hs]
  have hs' : w.tok.inString = false := by simpa using hs
  by_cases hn : w.tok.number.stage = .none
  swap
  · rw [if_pos hn]
    exact hzoom (continueNumber_sticks hi ⟨hs', hn⟩)
  rw [if_neg (by simpa using hn)]
  obtain ⟨b, l, hd⟩ : ∃ b l, env.input.bytes.drop w.consumed = b :: l :=
    ⟨_, _, List.drop_eq_getElem_cons hlt⟩
  simp only [ensures_bind, env.input.get_eq hd, ensures_ofExcept_ok]
  by_cases hb : b = 0x20 ∨ b = 0x0A ∨ b = 0x09 ∨ b = 0x0D
  · rw [if_pos hb, ensures_bind]
    have hspace := hzoom ((processWhitespace_late hi).mono (fun _ _ h => h) fun _ _ => .inl)
    exact hspace.mono (fun _ _ _ => trivial) fun _ _ h => h
  · rw [if_neg hb, ensures_bind, ensures_zoom]
    have htoken : AtToken env { w with tok := { w.tok with afterCr := false } } b l :=
      ⟨hd, hs', hn, rfl, wsByte_eq_none.mpr hb⟩
    have hi' : World.Inv env.input { w with tok := { w.tok with afterCr := false } } :=
      ⟨hi.consumed_le, hi.chars_le, hi.depth_eq, hi.no_number⟩
    exact (Ensures.and (processToken_refines htoken hi' hk hkm) (processToken_intact b (_, k))).mono
      (fun _ _ _ => trivial) fun _ _ h => h.1.2.2.sticks h.2

/-- An iteration that goes on has less to do. -/
theorem StepLeft.todo_lt {w' : World F} (h : StepLeft env w true w')
    (hle : w'.consumed ≤ env.input.len) : env.input.todo w' < env.input.todo w := by
  unfold Spans.todo
  rcases h.2 with h | ⟨h, h1, h2⟩
  · split_ifs <;> omega
  · rw [if_pos h2, if_neg h1]
    omega

theorem receiveLoop_sticks (fuel : Nat) : ∀ {w : World F} {k : Interner},
    env.input.todo w < fuel → w.Inv env.input → k.Inv km → w.tok.chunkSize ≤ km →
      Ensures (receiveLoop env fuel) (w, k) (fun _ _ => True) (fun e s' => Sticks env e s'.1) := by
  induction fuel with
  | zero =>
    intro w k hf
    omega
  | succ fuel ih =>
    intro w k hf hi hk hkm
    rw [receiveLoop]
    simp only [ensures_bind, ensures_get]
    by_cases hlt : w.consumed < env.input.len
    swap
    · rw [if_neg hlt]
      exact trivial
    rw [if_pos hlt, ensures_bind]
    refine (Ensures.and (receiveStep_refines hi hk hkm hlt) (receiveStep_sticks hi hk hkm hlt)).mono
      ?_ fun _ _ h => h.2
    rintro more ⟨w', k'⟩ ⟨⟨hi', hk', ⟨_, _, hran⟩, h⟩, -⟩
    cases more with
    | false => exact trivial
    | true =>
      have hchunk : w'.tok.chunkSize = w.tok.chunkSize := hran.chunkSize
      refine ih ?_ hi' hk' (by rw [hchunk]; exact hkm)
      exact Nat.lt_of_lt_of_le (h.todo_lt hi'.consumed_le) (Nat.le_of_lt_succ hf)

/-- **`receive`** goes on with the machine, or stops with an error where it is bound to fail. -/
theorem receive_sticks (hi : w.Inv env.input) (hk : k.Inv km) (hkm : w.tok.chunkSize ≤ km) :
    Ensures (receive env) (w, k) (fun _ _ => True) (fun e s' => Sticks env e s'.1) := by
  unfold receive
  simp only [ensures_bind, ensures_get]
  refine receiveLoop_sticks _ ?_ hi hk hkm
  unfold Spans.todo
  split_ifs <;> omega

end Receive

end RJsonParser
