import RJsonParser.Infra.Lockstep
import RJsonParser.Properties.Session

/-!
# Interned keys

Where a key is in the symbol table, `process_key` does not decode it, and the character buffer stays
empty. Nothing else tells: outside of string values no one looks at the buffer, and what is in the
table is what decoding the key would give.

* `processKey_plain` — a key comes to what it comes to without a table
* `receiveStep_alike`, `receive_twins` — so does all of the input, with any two tables
* `receive_short` — only short keys are interned
-/

namespace RJsonParser

open Infra Infra.Utf8

variable {F : Type}

/-! ## Outside of string values -/

/-- Other contents of the character buffer. -/
def World.withChars (w : World F) (chars : Text) : World F :=
  { w with tok := { w.tok with chars := chars } }

/-- In no string value, and the same but for the character buffer. -/
def Idle (w w' : World F) : Prop := w.tok.inString = false ∧ ∃ chars, w' = w.withChars chars

theorem Idle.refl {w : World F} (h : w.tok.inString = false) : Idle w w := ⟨h, w.tok.chars, rfl⟩

theorem Idle.symm {w w' : World F} (h : Idle w w') : Idle w' w := by
  obtain ⟨hs, chars, rfl⟩ := h
  exact ⟨hs, w.tok.chars, rfl⟩

theorem Idle.trans {w w₁ w' : World F} (h : Idle w w₁) (h' : Idle w₁ w') : Idle w w' := by
  obtain ⟨hs, chars, rfl⟩ := h
  obtain ⟨-, chars', rfl⟩ := h'
  exact ⟨hs, chars', rfl⟩

/-- A program that does not look at the buffer where it looks at the state. -/
theorem Idle.get_bind {α : Type} {f : World F → TokM F α}
    (hf : ∀ w chars, f (w.withChars chars) = f w)
    (h : ∀ w, Lockstep Idle (f w) (f w)) : Lockstep Idle (get >>= f) (get >>= f) := by
  refine .get_bind ?_
  rintro w w' hi
  have hw := h w w w' hi
  obtain ⟨-, chars, rfl⟩ := hi
  rwa [hf]

theorem Idle.modifyTok {f : Tokenizer → Tokenizer}
    (hf : ∀ t chars, f { t with chars := chars } = { f t with chars := chars })
    (hs : ∀ t, (f t).inString = t.inString) :
    Lockstep Idle (modifyTok (F := F) f) (modifyTok f) := by
  refine .modify ?_
  rintro w w' ⟨hw, chars, rfl⟩
  refine ⟨(hs w.tok).trans hw, chars, ?_⟩
  show ({ w with tok := f { w.tok with chars := chars } } : World F) = _
  rw [hf]
  rfl

theorem Idle.addColumn (n : Nat) : Lockstep Idle (addColumn (F := F) n) (addColumn n) := by
  refine .modify ?_
  rintro w w' ⟨hw, chars, rfl⟩
  exact ⟨hw, chars, rfl⟩

theorem Idle.setConsumed (n : Nat) : Lockstep Idle (setConsumed (F := F) n) (setConsumed n) := by
  refine .modify ?_
  rintro w w' ⟨hw, chars, rfl⟩
  exact ⟨hw, chars, rfl⟩

theorem Idle.callback (h : Handler F) (e : Event F) :
    Lockstep Idle (callback h e) (callback h e) := by
  unfold RJsonParser.callback
  refine .bind (.modify ?_) fun _ => Idle.get_bind (fun _ _ => rfl) fun w => ?_
  · rintro w w' ⟨hw, chars, rfl⟩
    exact ⟨hw, chars, rfl⟩
  · cases h.reply w.calls with
    | none => exact .pure _
    | some err => exact .throw _

theorem Idle.tokenDone (limits : ParserLimits) :
    Lockstep Idle (tokenDone (F := F) limits) (tokenDone limits) := by
  unfold RJsonParser.tokenDone checkTokenLimit
  refine .bind (Idle.modifyTok (fun _ _ => rfl) fun _ => rfl) fun _ => ?_
  cases limits.maxTokenCount with
  | none => exact .pure _
  | some max =>
    refine .bind (Idle.modifyTok (fun _ _ => rfl) fun _ => rfl) fun _ => ?_
    exact Idle.get_bind (fun _ _ => rfl) fun w => .ite (.throw _) (.pure _)

theorem Idle.tokenTo (limits : ParserLimits) (state : State) :
    Lockstep Idle (tokenTo (F := F) limits state) (tokenTo limits state) := by
  unfold RJsonParser.tokenTo
  exact .bind (Idle.tokenDone limits) fun _ => Idle.modifyTok (fun _ _ => rfl) fun _ => rfl

theorem Idle.checkDepth (limits : ParserLimits) :
    Lockstep Idle (checkDepth (F := F) limits) (checkDepth limits) := by
  unfold RJsonParser.checkDepth
  cases limits.maxNestingDepth with
  | none => exact .pure _
  | some max => exact Idle.get_bind (fun _ _ => rfl) fun w => .ite (.throw _) (.pure _)

theorem Idle.takeOne : Lockstep Idle (takeOne (F := F)) takeOne := by
  unfold RJsonParser.takeOne
  exact Idle.get_bind (fun _ _ => rfl) fun w => .bind (Idle.setConsumed _) fun _ => Idle.addColumn 1

/-! ### Whitespace and numbers -/

theorem Idle.wsCalls (h : Handler F) (input : Spans) (stop : Nat) : ∀ (fuel q : Nat),
    Lockstep Idle (wsCalls h input stop fuel q) (wsCalls h input stop fuel q)
  | 0, _ => .throw _
  | fuel + 1, q => by
    unfold RJsonParser.wsCalls
    refine .ite ?_ (.pure _)
    dsimp only
    cases fromUtf8 ((input.spanFrom q).take (min (input.spanFrom q).length (stop - q))) with
    | ok ws => exact .bind (Idle.callback h _) fun _ => Idle.wsCalls h input stop fuel _
    | error e => exact .throw _

theorem Idle.processWhitespace (env : Env F) :
    Lockstep Idle (processWhitespace env) (processWhitespace env) := by
  unfold RJsonParser.processWhitespace
  refine Idle.get_bind (fun _ _ => rfl) fun w => .bind (.ofExcept _) fun pl => ?_
  refine .bind (.modify ?_) fun _ => ?_
  · rintro w w' ⟨hw, chars, rfl⟩
    exact ⟨hw, chars, rfl⟩
  · unfold reportWhitespace
    exact Idle.get_bind (fun _ _ => rfl) fun w => .ite (Idle.wsCalls _ _ _ _ _) (.pure _)

theorem Idle.checkLimit (limit : Option Nat) (n : Nat) (message : Nat → String) :
    Lockstep Idle (checkLimit (F := F) limit n message) (checkLimit limit n message) := by
  unfold RJsonParser.checkLimit
  cases limit with
  | none => exact .pure _
  | some max => exact .ite (.throw _) (.pure _)

theorem Idle.setNumber (env : Env F) (n : NumberState) (p : Nat) :
    Lockstep Idle (setNumber env n p) (setNumber env n p) := by
  unfold RJsonParser.setNumber
  refine .bind (Idle.modifyTok (fun _ _ => rfl) fun _ => rfl) fun _ => ?_
  exact .bind (Idle.setConsumed p) fun _ => Idle.checkLimit _ _ _

theorem Idle.takeDigits (env : Env F) : Lockstep Idle (takeDigits env) (takeDigits env) := by
  unfold RJsonParser.takeDigits
  refine Idle.get_bind (fun _ _ => rfl) fun w => .ite ?_ (.pure _)
  exact .ite (.bind (Idle.setNumber env _ _) fun _ => .pure _) (.pure _)

section Double

variable [Double F]

theorem Idle.emitNumber (h : Handler F) : Lockstep Idle (emitNumber h) (emitNumber h) := by
  unfold RJsonParser.emitNumber
  refine Idle.get_bind (fun _ _ => rfl) fun w => ?_
  refine .bind (Idle.modifyTok (fun _ _ => rfl) fun _ => rfl) fun _ => ?_
  exact .bind (Idle.addColumn _) fun _ => Idle.callback h _

theorem Idle.continueNumberLoop (env : Env F) : ∀ fuel : Nat,
    Lockstep Idle (continueNumberLoop env fuel) (continueNumberLoop env fuel)
  | 0 => .throw _
  | fuel + 1 => by
    unfold RJsonParser.continueNumberLoop
    refine Idle.get_bind (fun _ _ => rfl) fun w => .ite ?_ (.pure _)
    refine .bind (Idle.takeDigits env) fun more => .ite ?_ (.pure _)
    refine Idle.get_bind (fun _ _ => rfl) fun w => .bind (.ofExcept _) fun b => ?_
    cases w.tok.number.takeByte b with
    | next n => exact .bind (Idle.setNumber env _ _) fun _ => Idle.continueNumberLoop env fuel
    | ended => exact .bind (Idle.emitNumber env.handler) fun _ => .pure _
    | error message => exact .throw _
    | unreachable => exact .throw _

theorem Idle.continueNumber (env : Env F) :
    Lockstep Idle (continueNumber env) (continueNumber env) := by
  unfold RJsonParser.continueNumber
  exact Idle.get_bind (fun _ _ => rfl) fun w => Idle.continueNumberLoop env _

theorem Idle.endOfInput (h : Handler F) : Lockstep Idle (endOfInput h) (endOfInput h) := by
  unfold RJsonParser.endOfInput
  refine Idle.get_bind (fun _ _ => rfl) fun w => .ite (.throw _) ?_
  cases w.tok.number.stage with
  | none => exact .pure _
  | afterMinus | fractionDot | exponentMark | exponentSign => exact .throw _
  | zero | integer | fraction | exponent => exact Idle.emitNumber h

end Double

/-! ### Tokens -/

theorem Idle.processComma (env : Env F) : Lockstep Idle (processComma env) (processComma env) := by
  unfold RJsonParser.processComma
  refine Idle.get_bind (fun _ _ => rfl) fun w => .ite (.throw _) (.ite (.throw _) ?_)
  refine .bind Idle.takeOne fun _ => .bind (Idle.tokenDone _) fun _ => ?_
  exact Idle.modifyTok (fun _ _ => rfl) fun _ => rfl

theorem Idle.processColon (env : Env F) : Lockstep Idle (processColon env) (processColon env) := by
  unfold RJsonParser.processColon
  refine Idle.get_bind (fun _ _ => rfl) fun w => .ite (.throw _) ?_
  exact .bind Idle.takeOne fun _ => Idle.tokenTo _ _

/-- What opening and closing a container have in common: a callback, then the stacks. -/
theorem Idle.bracket (env : Env F) (e : Event F) {f : Tokenizer → Tokenizer} (state : State)
    (hf : ∀ t chars, f { t with chars := chars } = { f t with chars := chars })
    (hs : ∀ t, (f t).inString = t.inString) :
    Lockstep Idle
      (do RJsonParser.takeOne; RJsonParser.callback env.handler e; RJsonParser.modifyTok f
          RJsonParser.tokenTo env.limits state)
      (do RJsonParser.takeOne; RJsonParser.callback env.handler e; RJsonParser.modifyTok f
          RJsonParser.tokenTo env.limits state) :=
  .bind Idle.takeOne fun _ => .bind (Idle.callback _ e) fun _ =>
    .bind (Idle.modifyTok hf hs) fun _ => Idle.tokenTo _ state

theorem Idle.processOpenObject (env : Env F) :
    Lockstep Idle (processOpenObject env) (processOpenObject env) := by
  unfold RJsonParser.processOpenObject
  refine Idle.get_bind (fun _ _ => rfl) fun w => .ite (.throw _) ?_
  exact .bind (Idle.checkDepth _) fun _ => Idle.bracket env _ _ (fun _ _ => rfl) fun _ => rfl

theorem Idle.processCloseObject (env : Env F) :
    Lockstep Idle (processCloseObject env) (processCloseObject env) := by
  unfold RJsonParser.processCloseObject
  refine Idle.get_bind (fun _ _ => rfl) fun w => ?_
  refine .ite (.throw _) (.ite (.throw _) (.ite (.throw _) ?_))
  exact Idle.bracket env _ _ (fun _ _ => rfl) fun _ => rfl

theorem Idle.processOpenArray (env : Env F) :
    Lockstep Idle (processOpenArray env) (processOpenArray env) := by
  unfold RJsonParser.processOpenArray
  refine Idle.get_bind (fun _ _ => rfl) fun w => .ite (.throw _) ?_
  exact .bind (Idle.checkDepth _) fun _ => Idle.bracket env _ _ (fun _ _ => rfl) fun _ => rfl

theorem Idle.processCloseArray (env : Env F) :
    Lockstep Idle (processCloseArray env) (processCloseArray env) := by
  unfold RJsonParser.processCloseArray
  refine Idle.get_bind (fun _ _ => rfl) fun w => ?_
  refine .ite (.throw _) (.ite (.throw _) (.ite (.throw _) ?_))
  exact Idle.bracket env _ _ (fun _ _ => rfl) fun _ => rfl

theorem Idle.processLiteralArm (env : Env F) (name : String) (rest : List UInt8)
    (value : Option Bool) : Lockstep Idle (processLiteralArm env name rest value)
      (processLiteralArm env name rest value) := by
  unfold RJsonParser.processLiteralArm processLiteral
  refine Idle.get_bind (fun _ _ => rfl) fun w => .ite (.throw _) ?_
  refine Idle.get_bind (fun _ _ => rfl) fun w => .ite (.throw _) ?_
  refine .bind (.ofExcept _) fun _ => .ite (.pure _) ?_
  refine .bind (Idle.setConsumed _) fun _ => .bind (Idle.addColumn _) fun _ => ?_
  exact .bind (Idle.tokenTo _ _) fun _ => .bind (Idle.callback _ _) fun _ => .pure _

theorem Idle.processNumber (env : Env F) (b : UInt8) :
    Lockstep Idle (processNumber env b) (processNumber env b) := by
  unfold RJsonParser.processNumber
  refine Idle.get_bind (fun _ _ => rfl) fun w => .ite (.throw _) ?_
  refine .bind (Idle.modifyTok (fun _ _ => rfl) fun _ => rfl) fun _ => ?_
  refine .bind (Idle.setConsumed _) fun _ => .bind (Idle.tokenDone _) fun _ => ?_
  exact Idle.modifyTok (fun _ _ => rfl) fun _ => rfl

theorem Idle.reportKey (h : Handler F) (key : Text) (srcUnits : Nat) :
    Lockstep Idle (reportKey h key srcUnits) (reportKey h key srcUnits) := by
  unfold RJsonParser.reportKey checkDuplicate
  refine .bind (Idle.get_bind (fun _ _ => rfl) fun w => .ite ?_ (.pure _)) fun _ => ?_
  · cases w.tok.duplicateKeyStack with
    | nil => exact .pure _
    | cons seen rest =>
      exact .ite (.throw _) (Idle.modifyTok (fun _ _ => rfl) fun _ => rfl)
  · exact .bind (Idle.addColumn _) fun _ => Idle.callback h _

/-! ## The start of a string value -/

/-- The same world, or in no string value and the same but for the character buffer. -/
def Alike (w w' : World F) : Prop := w = w' ∨ Idle w w'

theorem Alike.refl (w : World F) : Alike w w := .inl rfl

/-- Making the buffer ready forgets what was in it. -/
theorem Idle.cleared_eq {w w' : World F} (h : Idle w w') : w'.cleared = w.cleared := by
  obtain ⟨-, chars, rfl⟩ := h
  rfl

theorem cleared_eq_clear (w : World F) :
    ({ w with tok := { (if w.tok.charsCap ≠ w.tok.chunkSize then
      { w.tok with chars := [], charsCap := w.tok.chunkSize } else w.tok) with chars := [] } } :
        World F) = w.cleared := by
  by_cases hc : w.tok.charsCap = w.tok.chunkSize
  · rw [if_neg (by simpa using hc), World.cleared, ← hc]
  · rw [if_pos hc]
    rfl

theorem clear_bind {α : Type} (f : TokM F α) (w : World F) :
    (do ensureChars; clearChars; f) w = f w.cleared :=
  congrArg f (cleared_eq_clear w)

theorem zoom_clear_bind {α : Type} (f : KeyM F α) (w : World F) (k : Interner) :
    (do zoom ensureChars; zoom clearChars; f) (w, k) = f (w.cleared, k) :=
  congrArg (fun w => f (w, k)) (cleared_eq_clear w)

theorem startString_alike (env : Env F) {w w' : World F} (h : Idle w w') :
    Agree Alike (startString env w) (startString env w') := by
  unfold startString
  refine (Idle.takeOne _ _ h).bind ?_ fun _ _ => .inr
  rintro - w w' h
  rw [clear_bind, clear_bind, h.cleared_eq]
  exact .refl Alike.refl _

/-! ## Keys -/

theorem Alike.symm {w w' : World F} (h : Alike w w') : Alike w' w := by
  rcases h with rfl | h
  · exact .refl w
  · exact .inr h.symm

theorem Alike.trans {w w₁ w' : World F} (h : Alike w w₁) (h' : Alike w₁ w') : Alike w w' := by
  rcases h with rfl | h
  · exact h'
  · rcases h' with rfl | h'
    · exact .inr h
    · exact .inr (h.trans h')

/-- The part of `process_key` after the scan, as it is without a symbol table. -/
def plainKey (env : Env F) (start stop : Nat) : TokM F Unit := do
  let srcUnits ← decodeKey env.input start stop
  reportChars env stop srcUnits

/-- `process_key` without a symbol table. -/
def processKeyPlain (env : Env F) : TokM F Bool := do
  let w ← get
  let start := w.consumed + 1
  match ← ofExcept (scanKey env.input env.limits.maxNameLength start) with
  | none => pure false
  | some (stop, _) => do
    ensureChars
    clearChars
    plainKey env start stop
    pure true

/-! ## What a table has -/

/-- The key is in the table. -/
def Interner.Has (k : Interner) (key : Text) : Prop := ∃ s ∈ k.table.entries, s.value = key

/-- What `k'` has that `k` has not fits `n` bytes. -/
def Interner.Gains (n : Nat) (k k' : Interner) : Prop :=
  ∀ key, k'.Has key → k.Has key ∨ byteLen key ≤ n

/-- Of the keys that the machine comes to from `c` with `l` left, those in the table fit `n`
bytes. -/
def Interner.Suits (F : Type) [Double F] (limits : ParserLimits) (n : Nat) (c : Core)
    (l : List UInt8) (k : Interner) : Prop :=
  ∀ os c' l' key, (machine F limits).Steps c l os c' l' → AtKey limits c' l' key → k.Has key →
    byteLen key ≤ n

section Table

variable {k k' k₁ : Interner} {n km : Nat}

theorem Interner.Gains.refl (n : Nat) (k : Interner) : k.Gains n k := fun _ => .inl

/-- The counters do not matter. -/
theorem Interner.Gains.of_table (ht : k'.table = k.table) : k.Gains n k' := by
  rintro key ⟨s, hs, rfl⟩
  exact .inl ⟨s, ht ▸ hs, rfl⟩

theorem Interner.Gains.trans (h : k.Gains n k₁) (h' : k₁.Gains n k') : k.Gains n k' :=
  fun key hkey => (h' key hkey).elim (h key) .inr

theorem Interner.Gains.put {bytes : List UInt8} {hash : UInt32} {key : Text}
    {table : KeySymbolTable} (hk : k.table.Wf) (hput : k.table.put bytes hash key = .ok table)
    (hkey : byteLen key ≤ n) (ht : k'.table = table) : k.Gains n k' := by
  obtain ⟨table', hput', -, -, hadd⟩ := KeySymbolTable.put_spec hk bytes hash key
  obtain rfl : table' = table := Except.ok.inj (hput'.symm.trans hput)
  rintro _ ⟨s, hs, rfl⟩
  rcases KeySymbolTable.mem_of_put hadd s (ht ▸ hs) with rfl | hs
  · exact .inr hkey
  · exact .inl ⟨s, hs, rfl⟩

variable [Double F] {limits : ParserLimits} {c c' : Core} {l l' : List UInt8} {os : List (Mark F)}

/-- Where all that is in the table fits. -/
theorem Interner.Inv.suits (hk : k.Inv n) : k.Suits F limits n c l := by
  rintro - - - key - - ⟨s, hs, rfl⟩
  exact hk.fits s hs

/-- The machine comes to no other keys when it has gone on. -/
theorem Interner.Suits.steps (h : k.Suits F limits n c l)
    (hs : (machine F limits).Steps c l os c' l') : k.Suits F limits n c' l' :=
  fun _ _ _ key hs' => h _ _ _ key (hs.trans hs')

theorem Interner.Suits.gains (h : k.Suits F limits n c l) (hg : k.Gains n k') :
    k'.Suits F limits n c l :=
  fun os c' l' key hs hat hkey => (hg key hkey).elim (h os c' l' key hs hat) id

end Table

section Key

variable {env : Env F} {w : World F} {k : Interner} {t : List UInt8} {n km : Nat}

theorem modifyInterner_bind {α : Type} (f : Interner → Interner) (g : KeyM F α) (w : World F)
    (k : Interner) : (do modifyInterner f; g) (w, k) = g (w, f k) := rfl

/-- The table does not see the world, and the world does not see the table. -/
theorem agree_zoom {α : Type} (x : TokM F α) (w : World F) (k : Interner) :
    Agree (fun (s : World F × Interner) w' => s.1 = w' ∧ s.2 = k) (zoom x (w, k)) (x w) :=
  Agree.zoom_left k (.refl (R := fun w w' => w = w') (fun _ => rfl) _)

/-- **An interned key comes to what it comes to without the table**, if it fits the buffer. -/
theorem processInterned_plain (h : AtToken env w quote t)
    (hf : keyFront env.limits.maxNameLength 0 t = .found n) (hs : w.tok.inString = false)
    (hk : k.Inv km) (hfits : ∀ key, decodeString (t.take n) = some key → k.Has key →
      byteLen key ≤ w.tok.chunkSize) (hp : ∀ b ∈ t.take n, isDelimiter b = false) :
    Agree (fun s w' => Alike s.1 w' ∧ k.Gains w.tok.chunkSize s.2)
      (processInterned env (w.consumed + 1) (w.consumed + 1 + n) (t.take n) (w.cleared, k))
      (plainKey env (w.consumed + 1) (w.consumed + 1 + n) w.cleared) := by
  obtain ⟨r, hq, hslice, hsc, hlen⟩ := h.closing hf
  have hdecode := decodeKey_spec (w := w.cleared) hq (Nat.le_add_right _ _)
    (by rw [hslice]; exact hsc) rfl
  rw [hslice] at hdecode
  obtain ⟨r, hlookup, hmem⟩ := KeySymbolTable.lookup_spec hk.wf.toSized (t.take n)
    (KeySymbolTable.hash (t.take n))
  unfold processInterned
  rw [modifyInterner_bind, get_bind_apply, hlookup, ofExcept_ok_bind]
  cases r with
  | some found =>
    have hentry := hmem found rfl
    have hown : t.take n = encode found := hk.own _ hentry
    have htext : decodeString (t.take n) = some found := by
      rw [hown] at hp ⊢
      exact decodeString_encode hp
    have hfit : byteLen found ≤ w.tok.chunkSize := hfits found htext ⟨_, hentry, rfl⟩
    have hunits : utf16Len found = units (t.take n) := by rw [utf16Len_eq, hown]
    -- decoding would have found it too
    have hrun : decodeKey env.input (w.consumed + 1) (w.consumed + 1 + n) w.cleared =
        .ok (units (t.take n)) (w.cleared.withChars found) := by
      unfold Ensures at hdecode
      cases hx : decodeKey env.input (w.consumed + 1) (w.consumed + 1 + n) w.cleared with
      | ok total w' =>
        rw [hx] at hdecode
        obtain ⟨s, hs', rfl, rfl, -⟩ := hdecode
        rw [htext] at hs'
        cases hs'
        rfl
      | error e w' =>
        rw [hx] at hdecode
        obtain ⟨m, chars, -, -, -, hlong⟩ := hdecode
        exact absurd hfit (Nat.not_le.mpr (hlong found htext))
    unfold plainKey reportChars
    rw [bind_of_ok hrun, ← hunits]
    have hidle : Idle { w.cleared with consumed := w.consumed + 1 + n + 1 }
        { w.cleared.withChars found with consumed := w.consumed + 1 + n + 1 } :=
      ⟨hs, found, rfl⟩
    have hreport := Idle.reportKey env.handler found (utf16Len found) _ _ hidle
    refine (hreport.zoom_left { k with attempts := k.attempts + 1, hits := k.hits + 1 }).mono ?_
    rintro ⟨w₁, k₁⟩ w' ⟨hidle, rfl⟩
    exact ⟨.inr hidle, .of_table rfl⟩
  | none =>
    unfold plainKey
    unfold Ensures at hdecode
    cases hx : decodeKey env.input (w.consumed + 1) (w.consumed + 1 + n) w.cleared with
    | ok total w' =>
      rw [hx] at hdecode
      obtain ⟨key, htext, rfl, rfl, hfit⟩ := hdecode
      have hown : t.take n = encode key := encode_of_decodeString hp htext
      obtain ⟨table, hput, -⟩ := KeySymbolTable.put_spec hk.wf (t.take n)
        (KeySymbolTable.hash (t.take n)) key
      simp only
      rw [bind_of_ok hx, bind_of_ok (zoom_of_ok hx _), get_bind_apply, hput, ofExcept_ok_bind,
        modifyInterner_bind]
      refine (agree_zoom _ _ _).mono ?_
      rintro ⟨w₁, k₁⟩ - ⟨rfl, rfl⟩
      exact ⟨.refl _, .put hk.wf hput hfit rfl⟩
    | error e w' =>
      simp only
      rw [bind_of_error hx, bind_of_error (zoom_of_error hx _)]
      exact .error e ⟨.refl _, .of_table rfl⟩

variable [Double F]

/-- **`process_key` comes to what it comes to without the table**, if the key fits the buffer where
it is in the table. -/
theorem processKey_plain (h : AtToken env w quote t) (hstate : w.tok.state = .expectKey)
    (hk : k.Inv km) (hsuits : k.Suits F env.limits w.tok.chunkSize w.core (env.rest w)) :
    Agree (fun s w' => Alike s.1 w' ∧ k.Gains w.tok.chunkSize s.2) (processKey env (w, k))
      (processKeyPlain env w) := by
  have hdrop : env.input.bytes.drop (w.consumed + 1) = t := by
    rw [← List.drop_drop]
    exact congrArg (List.drop 1) h.rest
  have hscan := scanKey_spec env.input env.limits.maxNameLength (w.consumed + 1)
  rw [hdrop] at hscan
  unfold processKey processKeyPlain
  rw [get_bind_apply, get_bind_apply]
  cases hf : keyFront env.limits.maxNameLength 0 t with
  | need =>
    rw [hf] at hscan
    rw [hscan]
    exact .ok false ⟨.refl w, .refl _ k⟩
  | bad =>
    rw [hf] at hscan
    obtain ⟨m, hm⟩ := hscan
    rw [hm]
    exact .error _ ⟨.refl w, .refl _ k⟩
  | found n =>
    rw [hf] at hscan
    obtain ⟨esc, hscan, hplain⟩ := hscan
    rw [hscan, ofExcept_ok_bind, ofExcept_ok_bind]
    simp only
    rw [zoom_clear_bind, clear_bind]
    cases hint : (if (!esc && !k.disabled && decide (w.consumed + 1 + n - (w.consumed + 1) ≤
        maxKeyBytes)) = true then env.input.contiguous (w.consumed + 1) (w.consumed + 1 + n)
        else none) with
    | some bytes =>
      have hesc : esc = false := by
        cases esc with
        | false => rfl
        | true => simp at hint
      have hbytes : bytes = t.take n := by
        split at hint
        · rw [env.input.contiguous_eq _ _ _ hint, hdrop, Nat.add_sub_cancel_left]
        · cases hint
      subst hbytes
      have hfits (key : Text) (hkey : decodeString (t.take n) = some key) (hhas : k.Has key) :
          byteLen key ≤ w.tok.chunkSize :=
        hsuits _ _ _ key .refl ⟨⟨rfl, h.outside, h.noNumber⟩, hstate, t, n, h.rest, hf, hkey⟩ hhas
      refine (processInterned_plain h hf h.outside hk hfits (hplain hesc)).bind ?_ fun _ _ h => h
      exact fun _ _ _ h => .ok true h
    | none =>
      -- the key is not looked up
      have hsame (s : World F × Interner) (w' : World F) (hs : s.1 = w' ∧ s.2 = k) :
          Alike s.1 w' ∧ k.Gains w.tok.chunkSize s.2 :=
        ⟨.inl hs.1, .of_table (congrArg Interner.table hs.2)⟩
      unfold plainKey
      simp only [bind_assoc]
      refine (agree_zoom _ _ _).bind ?_ hsame
      rintro total ⟨w₁, k₁⟩ - ⟨rfl, rfl⟩
      refine (agree_zoom _ _ _).bind ?_ hsame
      rintro - ⟨w₂, k₂⟩ - ⟨rfl, rfl⟩
      exact .ok true ⟨.refl w₂, .refl _ _⟩

omit [Double F] in
/-- Without a table the buffer is cleared before it is used. -/
theorem processKeyPlain_alike {w' : World F} (h : Idle w w') :
    Agree Alike (processKeyPlain env w) (processKeyPlain env w') := by
  obtain ⟨hs, chars, rfl⟩ := h
  have hidle : Alike w (w.withChars chars) := .inr ⟨hs, chars, rfl⟩
  unfold processKeyPlain
  rw [get_bind_apply, get_bind_apply, show (w.withChars chars).consumed = w.consumed from rfl]
  cases scanKey env.input env.limits.maxNameLength (w.consumed + 1) with
  | error e => exact .error e hidle
  | ok found =>
    rw [ofExcept_ok_bind]
    cases found with
    | none => exact .ok false hidle
    | some found =>
      simp only
      rw [clear_bind, clear_bind]
      exact .refl Alike.refl _

/-- The worlds are alike. What the tables have gained fits `n` bytes. -/
structure Paired (n : Nat) (k k' : Interner) (s s' : World F × Interner) : Prop where
  alike : Alike s.1 s'.1
  left : k.Gains n s.2
  right : k'.Gains n s'.2

/-- A table that a run may meet from here on. -/
structure Interner.Meets (env : Env F) (w : World F) (k : Interner) : Prop where
  inv : ∃ km, (w.tok.chunkSize : Nat) ≤ km ∧ k.Inv km
  suits : k.Suits F env.limits w.tok.chunkSize w.core (env.rest w)

/-- What stands in the character buffer is no matter for it. -/
theorem Interner.Meets.idle {w' : World F} (h : k.Meets env w) (hw : Idle w w') :
    k.Meets env w' := by
  obtain ⟨-, chars, rfl⟩ := hw
  exact ⟨h.inv, h.suits⟩

/-- The machine has gone on. -/
theorem Interner.Meets.steps {w' : World F} {os : List (Mark F)} (h : k.Meets env w)
    (hchunk : w'.tok.chunkSize = w.tok.chunkSize)
    (hs : env.reference.Steps w.core (env.rest w) os w'.core (env.rest w')) : k.Meets env w' := by
  refine ⟨hchunk ▸ h.inv, ?_⟩
  rw [hchunk]
  exact h.suits.steps hs

/-- **The two tables do not matter.** -/
theorem processKey_alike {w' : World F} {k' : Interner} (h : AtToken env w quote t)
    (hstate : w.tok.state = .expectKey) (hw : Idle w w') (hk : k.Meets env w)
    (hk' : k'.Meets env w') :
    Agree (Paired w.tok.chunkSize k k') (processKey env (w, k)) (processKey env (w', k')) := by
  obtain ⟨⟨km, -, hinv⟩, hsuits⟩ := hk
  obtain ⟨⟨km', -, hinv'⟩, hsuits'⟩ := hk'
  have hplain : Agree Alike (processKeyPlain env w) (processKeyPlain env w') :=
    processKeyPlain_alike hw
  obtain ⟨-, chars, rfl⟩ := hw
  have h' : AtToken env (w.withChars chars) quote t :=
    ⟨h.rest, h.outside, h.noNumber, h.afterCr, h.noSpace⟩
  have hleft := (processKey_plain h hstate hinv hsuits).trans hplain
    (T := fun s w' => Alike s.1 w' ∧ k.Gains w.tok.chunkSize s.2)
    fun _ _ _ hs hw => ⟨hs.1.trans hw, hs.2⟩
  refine hleft.trans (processKey_plain h' hstate hinv' hsuits').symm fun s w₁ s' hs hs' => ?_
  exact ⟨hs.1.trans hs'.1.symm, hs.2, hs'.2⟩

end Key

/-! ## All of the input -/

theorem Alike.lockstep {α : Type} {x : TokM F α} (h : Lockstep Idle x x) : Lockstep Alike x x := by
  rintro w w' (rfl | hw)
  · exact .refl Alike.refl _
  · exact (h w w' hw).mono fun _ _ => .inr

theorem Paired.zoom {α : Type} {x : TokM F α} {w w' : World F} (h : Agree Alike (x w) (x w'))
    (n : Nat) (k k' : Interner) :
    Agree (Paired n k k') (Infra.zoom x (w, k)) (Infra.zoom x (w', k')) :=
  (h.zoom k k').mono fun _ _ h =>
    ⟨h.1, .of_table (congrArg Interner.table h.2.1), .of_table (congrArg Interner.table h.2.2)⟩

theorem Paired.always {m : TokM F Unit} {w w' : World F} (h : Agree Alike (m w) (m w'))
    (n : Nat) (k k' : Interner) :
    Agree (Paired n k k') (always m (w, k)) (always m (w', k')) := by
  unfold RJsonParser.always
  exact (Paired.zoom h n k k').bind (fun _ _ _ h => .ok true h) fun _ _ h => h

section Receive

variable [Double F] {env : Env F} {w w' : World F} {k k' : Interner} {b : UInt8} {t : List UInt8}

theorem processQuote_alike (h : AtToken env w quote t) (hw : Idle w w') (hk : k.Meets env w)
    (hk' : k'.Meets env w') :
    Agree (Paired w.tok.chunkSize k k') (processQuote env (w, k)) (processQuote env (w', k')) := by
  have hkey (hstate : w.tok.state = .expectKey) :=
    processKey_alike h hstate hw hk hk'
  have hstart := startString_alike env hw
  obtain ⟨hs, chars, rfl⟩ := hw
  have hidle : Idle w (w.withChars chars) := ⟨hs, chars, rfl⟩
  unfold processQuote
  rw [get_bind_apply, get_bind_apply]
  refine .ite (fun _ => .error _ ⟨.inr hidle, .refl _ k, .refl _ k'⟩) fun _ =>
    .ite (fun hstate => ?_) fun _ => ?_
  · refine (hkey hstate).bind ?_ fun _ _ h => h
    rintro complete s s' hs
    cases complete with
    | false => exact .ok false hs
    | true =>
      have hto := Alike.lockstep (Idle.tokenTo env.limits .expectColon) _ _ hs.alike
      refine (Paired.zoom hto w.tok.chunkSize s.2 s'.2).bind ?_ fun _ _ h =>
        ⟨h.alike, hs.left.trans h.left, hs.right.trans h.right⟩
      exact fun _ _ _ h => .ok true ⟨h.alike, hs.left.trans h.left, hs.right.trans h.right⟩
  · exact (Paired.zoom hstart _ k k').bind (fun _ _ _ h => .ok true h) fun _ _ h => h

theorem processToken_alike (h : AtToken env w b t) (hw : Idle w w') (hk : k.Meets env w)
    (hk' : k'.Meets env w') :
    Agree (Paired w.tok.chunkSize k k') (processToken env b (w, k))
      (processToken env b (w', k')) := by
  have hsilent {m : TokM F Unit} (hm : Lockstep Idle m m) :
      Agree (Paired w.tok.chunkSize k k') (always m (w, k)) (always m (w', k')) :=
    Paired.always (Alike.lockstep hm w w' (.inr hw)) _ k k'
  have hzoom {m : TokM F Bool} (hm : Lockstep Idle m m) :
      Agree (Paired w.tok.chunkSize k k') (zoom m (w, k)) (zoom m (w', k')) :=
    Paired.zoom (Alike.lockstep hm w w' (.inr hw)) _ k k'
  unfold processToken
  refine .ite (fun hb => ?_) fun _ => .ite (fun _ => hsilent (Idle.processComma env)) fun _ =>
    .ite (fun _ => hsilent (Idle.processColon env)) fun _ =>
    .ite (fun _ => hsilent (Idle.processOpenObject env)) fun _ =>
    .ite (fun _ => hsilent (Idle.processCloseObject env)) fun _ =>
    .ite (fun _ => hsilent (Idle.processOpenArray env)) fun _ =>
    .ite (fun _ => hsilent (Idle.processCloseArray env)) fun _ =>
    .ite (fun _ => hzoom (Idle.processLiteralArm env _ _ _)) fun _ =>
    .ite (fun _ => hzoom (Idle.processLiteralArm env _ _ _)) fun _ =>
    .ite (fun _ => hzoom (Idle.processLiteralArm env _ _ _)) fun _ =>
    .ite (fun _ => hsilent (Idle.processNumber env b)) fun _ =>
      .error _ ⟨.inr hw, .refl _ k, .refl _ k'⟩
  subst hb
  exact processQuote_alike h hw hk hk'

omit [Double F] in
theorem zoom_modifyTok_bind {α : Type} (f : Tokenizer → Tokenizer) (g : KeyM F α) (w : World F)
    (k : Interner) :
    (do zoom (modifyTok f); g) (w, k) = g ({ w with tok := f w.tok }, k) := rfl

/-- **One iteration** of the loop of `receive`. -/
theorem receiveStep_alike (hi : w.Inv env.input) (hw : Alike w w') (hk : k.Meets env w)
    (hk' : k'.Meets env w') (hlt : w.consumed < env.input.len) :
    Agree (Paired w.tok.chunkSize k k') (receiveStep env (w, k)) (receiveStep env (w', k')) := by
  unfold receiveStep
  rw [get_bind_apply, get_bind_apply]
  by_cases hs : w.tok.inString = true
  · -- in a string value the buffers are the same too
    obtain rfl : w = w' := hw.resolve_right fun h => by
      rw [h.1] at hs
      cases hs
    exact .ite (fun _ => Paired.zoom (.refl Alike.refl _) _ k k') fun h => absurd hs h
  have hidle : Idle w w' := by
    rcases hw with rfl | h
    · exact .refl (by simpa using hs)
    · exact h
  have hzoom {m : TokM F Bool} (hm : Lockstep Idle m m) :
      Agree (Paired w.tok.chunkSize k k') (zoom m (w, k)) (zoom m (w', k')) :=
    Paired.zoom (Alike.lockstep hm w w' hw) _ k k'
  obtain ⟨hs, chars, rfl⟩ := hidle
  refine .ite (fun h => absurd h (by rw [hs]; exact Bool.false_ne_true)) fun _ =>
    .ite (fun _ => hzoom (Idle.continueNumber env)) fun hn => ?_
  obtain ⟨b, l, hd⟩ : ∃ b l, env.input.bytes.drop w.consumed = b :: l :=
    ⟨_, _, List.drop_eq_getElem_cons hlt⟩
  rw [show (w.withChars chars, k').1.consumed = (w, k).1.consumed from rfl,
    show (w, k).1.consumed = w.consumed from rfl, env.input.get_eq hd, ofExcept_ok_bind]
  refine .ite (fun _ => ?_) fun hb => ?_
  · have hspace := Alike.lockstep (Idle.processWhitespace env) w _ hw
    exact (Paired.zoom hspace _ k k').bind (fun _ _ _ h => .ok true h) fun _ _ h => h
  · rw [zoom_modifyTok_bind, zoom_modifyTok_bind]
    have hclear : Refines 0 env w (modifyTok fun t => { t with afterCr := false }) _ :=
      clearCr_refines hi hs (by simpa using hn) hd (wsByte_eq_none.mpr hb)
    obtain ⟨-, ⟨new, os, hran⟩, htoken, -, -⟩ := hclear
    have hk₁ := (hk'.idle (Idle.symm ⟨hs, chars, rfl⟩)).steps hran.chunkSize hran.steps
    exact processToken_alike htoken ⟨hs, chars, rfl⟩ (hk.steps hran.chunkSize hran.steps)
      (hk₁.idle ⟨hs, chars, rfl⟩)

omit [Double F] in
theorem Alike.consumed (h : Alike w w') : w'.consumed = w.consumed := by
  rcases h with rfl | ⟨-, chars, rfl⟩ <;> rfl

omit [Double F] in
theorem Alike.chunkSize (h : Alike w w') : w'.tok.chunkSize = w.tok.chunkSize := by
  rcases h with rfl | ⟨-, chars, rfl⟩ <;> rfl

/-- A run of `receive` that may meet the table. -/
structure Running (env : Env F) (s : World F × Interner) : Prop where
  inv : s.1.Inv env.input
  meets : s.2.Meets env s.1

/-- An iteration goes on with the machine, in the state that it leaves. -/
theorem receiveStep_running {s : World F × Interner} (h : Running env s)
    (hlt : s.1.consumed < env.input.len) :
    Ensures (receiveStep env) s (fun _ s' => s.2.Gains s.1.tok.chunkSize s'.2 → Running env s')
      fun _ _ => True := by
  obtain ⟨w, k⟩ := s
  obtain ⟨km, hkm, hk⟩ := h.meets.inv
  refine Ensures.mono (receiveStep_refines h.inv hk hkm hlt) ?_ fun _ _ _ => trivial
  rintro more ⟨w₁, k₁⟩ ⟨hi, hk₁, ⟨new, os, hran⟩, -⟩ hgains
  refine ⟨hi, Interner.Meets.steps ⟨⟨km, hkm, hk₁⟩, ?_⟩ hran.chunkSize hran.steps⟩
  exact h.meets.suits.gains hgains

/-- Two runs that differ in their tables. -/
structure Twins (env : Env F) (s s' : World F × Interner) : Prop where
  alike : Alike s.1 s'.1
  left : Running env s
  right : Running env s'

theorem receiveLoop_twins : ∀ (fuel : Nat) {s s' : World F × Interner}, Twins env s s' →
    Agree (fun s s' => Alike s.1 s'.1) (receiveLoop env fuel s) (receiveLoop env fuel s')
  | 0, _, _, h => .error _ h.alike
  | fuel + 1, ⟨w, k⟩, ⟨w', k'⟩, h => by
    have hcons : w'.consumed = w.consumed := h.alike.consumed
    unfold receiveLoop
    rw [get_bind_apply, get_bind_apply]
    simp only [hcons]
    refine .ite (fun hlt => ?_) fun _ => .ok _ h.alike
    have hstep : Agree (Paired w.tok.chunkSize k k') (receiveStep env (w, k))
        (receiveStep env (w', k')) :=
      receiveStep_alike h.left.inv h.alike h.left.meets h.right.meets hlt
    refine hstep.bind_spec (receiveStep_running h.left hlt)
      (receiveStep_running h.right (by rw [hcons]; exact hlt)) ?_ fun _ _ h => h.alike
    rintro more s s' hs hleft hright
    have hright' := hright (by rw [h.alike.chunkSize]; exact hs.right)
    cases more with
    | false => exact .ok _ hs.alike
    | true => exact receiveLoop_twins fuel ⟨hs.alike, hleft hs.left, hright'⟩

/-- **`receive`** comes to the same with any two tables. -/
theorem receive_twins {s s' : World F × Interner} (h : Twins env s s') :
    Agree (fun s s' => Alike s.1 s'.1) (receive env s) (receive env s') := by
  obtain ⟨w, k⟩ := s
  obtain ⟨w', k'⟩ := s'
  have hcons : w'.consumed = w.consumed := h.alike.consumed
  unfold receive
  rw [get_bind_apply, get_bind_apply]
  simp only [hcons]
  exact receiveLoop_twins _ h

end Receive

/-! ## What is interned -/

/-- Only short keys are interned. -/
structure Interner.Short (k : Interner) : Prop where
  wf : k.table.Wf
  length_le : ∀ s ∈ k.table.entries, s.key.length ≤ maxKeyBytes

theorem Interner.start_short : (Interner.start .new).Short :=
  ⟨KeySymbolTable.new_wf, by decide⟩

/-- The counters do not matter. -/
theorem Interner.Short.of_table {k k' : Interner} (h : k.Short) (ht : k'.table = k.table) :
    k'.Short :=
  ⟨ht ▸ h.wf, ht ▸ h.length_le⟩

/-- A short key is put into the table. -/
theorem Interner.Short.put {k : Interner} (h : k.Short) {bytes : List UInt8}
    (hb : bytes.length ≤ maxKeyBytes) {hash : UInt32} {key : Text} {table : KeySymbolTable}
    (hput : k.table.put bytes hash key = .ok table) {k' : Interner} (hk : k'.table = table) :
    k'.Short := by
  obtain ⟨table', hput', hwf, -, hadd⟩ := KeySymbolTable.put_spec h.wf bytes hash key
  obtain rfl : table' = table := Except.ok.inj (hput'.symm.trans hput)
  subst hk
  refine ⟨hwf, fun s hs => ?_⟩
  rcases KeySymbolTable.mem_of_put hadd s hs with rfl | hs
  · exact hb
  · exact h.length_le s hs

/-- What is short is its own text, so its text is short. -/
theorem Interner.Short.inv {k : Interner} {km n : Nat} (h : k.Short) (hk : k.Inv km)
    (hn : min km maxKeyBytes ≤ n) : k.Inv n where
  wf := hk.wf
  own := hk.own
  fits s hs := by
    have hlen := h.length_le s hs
    rw [hk.own s hs, length_encode] at hlen
    have := hk.fits s hs
    omega

section Short

variable {env : Env F}

/-- What a program that is passed the table keeps of it. -/
def KeepsShort {α : Type} (m : KeyM F α) : Prop := Keeps (fun s => s.2.Short) m

theorem KeepsShort.zoom {α : Type} (x : TokM F α) : KeepsShort (zoom x) := Keeps.zoom

theorem KeepsShort.count {f : Interner → Interner} (hf : ∀ k, (f k).table = k.table) :
    KeepsShort (modifyInterner (F := F) f) := .modify fun _ hs => hs.of_table (hf _)

theorem processInterned_short (start stop : Nat) {bytes : List UInt8}
    (hb : bytes.length ≤ maxKeyBytes) : KeepsShort (processInterned env start stop bytes) := by
  unfold processInterned
  refine .bind (KeepsShort.count fun _ => rfl) fun _ => .get_bind fun s _ => .bind (.ofExcept _) ?_
  rintro (_ | found)
  · refine .bind (KeepsShort.zoom _) fun units => ?_
    rintro ⟨w, k⟩ hk
    rw [ensures_bind, ensures_get, ensures_bind]
    cases hput : k.table.put bytes (KeySymbolTable.hash bytes) w.tok.chars with
    | error e => exact hk
    | ok table => exact KeepsShort.zoom (reportChars env stop units) (w, _) (hk.put hb hput rfl)
  · refine .bind (KeepsShort.count fun _ => rfl) fun _ => ?_
    exact .bind (KeepsShort.zoom _) fun _ => KeepsShort.zoom _

theorem processKey_short : KeepsShort (processKey env) := by
  unfold processKey
  refine .get_bind fun s _ => .bind (.ofExcept _) ?_
  rintro (_ | ⟨stop, hasEscape⟩)
  · exact .pure _
  refine .bind (KeepsShort.zoom _) fun _ => .bind (KeepsShort.zoom _) fun _ => ?_
  dsimp only
  split
  · next bytes hint =>
    have hb : bytes.length ≤ maxKeyBytes := by
      split at hint
      · next hc =>
        simp only [Bool.and_eq_true, decide_eq_true_eq] at hc
        rw [env.input.contiguous_eq _ _ _ hint, List.length_take]
        omega
      · cases hint
    exact .bind (processInterned_short _ _ hb) fun _ => .pure _
  · exact .bind (KeepsShort.zoom _) fun _ => .bind (KeepsShort.zoom _) fun _ => .pure _

theorem processToken_short (b : UInt8) : KeepsShort (processToken env b) := by
  have halways (m : TokM F Unit) : KeepsShort (always m) :=
    .bind (KeepsShort.zoom m) fun _ => .pure _
  have hquote : KeepsShort (processQuote env) := by
    unfold processQuote
    refine .get_bind fun s _ => .ite (.throw _) (.ite ?_ ?_)
    · refine .bind processKey_short fun complete => .ite ?_ (.pure _)
      exact .bind (KeepsShort.zoom _) fun _ => .pure _
    · exact .bind (KeepsShort.zoom _) fun _ => .pure _
  unfold processToken
  exact .ite hquote <| .ite (halways _) <| .ite (halways _) <| .ite (halways _) <|
    .ite (halways _) <| .ite (halways _) <| .ite (halways _) <| .ite (KeepsShort.zoom _) <|
    .ite (KeepsShort.zoom _) <| .ite (KeepsShort.zoom _) <| .ite (halways _) (.throw _)

variable [Double F]

theorem receiveStep_short : KeepsShort (receiveStep env) := by
  unfold receiveStep
  refine .get_bind fun s _ => .ite (KeepsShort.zoom _) (.ite (KeepsShort.zoom _) ?_)
  refine .bind (.ofExcept _) fun b => .ite ?_ ?_
  · exact .bind (KeepsShort.zoom _) fun _ => .pure _
  · exact .bind (KeepsShort.zoom _) fun _ => processToken_short b

theorem receiveLoop_short : ∀ fuel : Nat, KeepsShort (receiveLoop env fuel)
  | 0 => .throw _
  | fuel + 1 => by
    unfold receiveLoop
    refine .get_bind fun s _ => .ite ?_ (.pure _)
    exact .bind receiveStep_short fun more => .ite (receiveLoop_short fuel) (.pure _)

/-- **Only short keys are interned.** -/
theorem receive_short : KeepsShort (receive env) := by
  unfold receive
  exact .get_bind fun s _ => receiveLoop_short _

end Short

end RJsonParser
