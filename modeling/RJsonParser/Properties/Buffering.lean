import RJsonParser.Infra.Lockstep
import RJsonParser.Properties.Strings

/-!
# What decoding touches

Decoding writes to the character buffer and calls back where it is full, and changes nothing else:
not what was consumed, and no counter. It comes to no more UTF-16 units than it passes bytes.

* `Buffered w w'` — the same but for the character buffer and what was called back
* `Buffers x` — a program that changes no more than that, whether it returns or not
* `decodeRunStep_units`, `decodeRunLoop_units` — the loop of `decode_run`
* `Buffers.decodeKey` — `decode_key`
-/

namespace RJsonParser

open Infra Infra.Utf8

variable {F : Type} {α : Type}

/-! ## UTF-16 units -/

/-- A character has no more UTF-16 units than bytes. -/
theorem utf16Size_le (c : Char) : utf16Size c ≤ c.utf8Size := by
  unfold utf16Size
  split_ifs with hc
  · exact c.utf8Size_pos
  · have hval : ¬ c.val.toNat < 0x10000 := hc
    unfold Char.utf8Size
    simp only [UInt32.le_iff_toNat_le]
    rw [if_neg (by simp; omega), if_neg (by simp; omega), if_neg (by simp; omega)]
    omega

/-- A text has no more UTF-16 units than bytes. -/
theorem utf16Len_le (s : Text) : utf16Len s ≤ byteLen s := by
  rw [utf16Len_eq, units_encode]
  induction s with
  | nil => exact le_rfl
  | cons c s ih =>
    have := utf16Size_le c
    simp only [List.map_cons, List.sum_cons, byteLen_cons]
    omega

theorem utf16Len_le_of_fromUtf8 {l : List UInt8} {s : Text} (h : fromUtf8 l = .ok s) :
    utf16Len s ≤ l.length := by
  rw [fromUtf8_ok h, length_encode]
  exact utf16Len_le s

/-- A character that is put together from several bytes has no more units than these. -/
theorem decodeCharAt_units {input : Spans} {p : Nat} {ch : Char} {n : Nat}
    (h : decodeCharAt input p = .ok (some (ch, n))) : utf16Size ch ≤ n := by
  have hsize : utf16Size ch ≤ 2 := by
    unfold utf16Size
    split_ifs <;> omega
  have hneed {c : UInt8} {need : Nat} (hn : needOf c = .ok need) : 2 ≤ need := by
    unfold needOf at hn
    split_ifs at hn <;> cases hn <;> omega
  unfold decodeCharAt at h
  cases hget : input.get p with
  | error e =>
    rw [hget] at h
    cases h
  | ok c =>
    rw [hget, except_ok_bind] at h
    cases hn : needOf c with
    | error e =>
      rw [hn] at h
      cases h
    | ok need =>
      rw [hn, except_ok_bind] at h
      cases hrest : contBytes input p (need - 1) 1 with
      | error e =>
        rw [hrest] at h
        cases h
      | ok rest =>
        rw [hrest, except_ok_bind] at h
        split at h
        · cases h
        · split at h
          · cases h
            exact hsize.trans (hneed hn)
          · cases h
          · cases h

/-! ## The character buffer -/

/-- The same but for the character buffer and what was called back. -/
def Buffered (w w' : World F) : Prop :=
  ∃ chars cap calls,
    w' = { w with tok := { w.tok with chars := chars, charsCap := cap }, calls := calls }

theorem Buffered.refl (w : World F) : Buffered w w := ⟨_, _, _, rfl⟩

/-- A program that uses the buffer only. -/
def Buffers {α : Type} (x : TokM F α) : Prop := ∀ w, Keeps (Buffered w) x

theorem Buffers.callback (h : Handler F) (e : Event F) : Buffers (callback h e) := by
  intro w
  unfold RJsonParser.callback
  refine .bind (.modify ?_) fun _ => .get_bind fun w _ => ?_
  · rintro w' ⟨chars, cap, calls, rfl⟩
    exact ⟨_, _, _, rfl⟩
  · cases h.reply w.calls with
    | none => exact .pure _
    | some err => exact .throw _

theorem Buffers.modifyTok {f : Tokenizer → Tokenizer}
    (hf : ∀ t, ∃ chars cap, f t = { t with chars := chars, charsCap := cap }) :
    Buffers (F := F) (modifyTok f) := by
  intro w
  refine .modify ?_
  rintro w' ⟨chars, cap, calls, rfl⟩
  obtain ⟨chars', cap', h⟩ := hf { w.tok with chars := chars, charsCap := cap }
  exact ⟨chars', cap', calls, by rw [h]⟩

theorem Buffers.pushStr (s : Text) : Buffers (F := F) (pushStr s) :=
  .modifyTok fun t => ⟨t.chars ++ s, t.charsCap, rfl⟩

theorem Buffers.clearChars : Buffers (F := F) clearChars :=
  .modifyTok fun t => ⟨[], t.charsCap, rfl⟩

theorem Buffers.ensureChars : Buffers (F := F) ensureChars := by
  refine .modifyTok fun t => ?_
  split_ifs
  · exact ⟨[], t.chunkSize, rfl⟩
  · exact ⟨t.chars, t.charsCap, rfl⟩

theorem Buffers.flushChars (h : Handler F) : Buffers (flushChars h) := by
  intro w
  unfold RJsonParser.flushChars
  refine .get_bind fun w' _ => .ite ?_ (.pure _)
  exact .bind (Buffers.callback h _ w) fun _ => Buffers.clearChars w

theorem Buffers.free : Buffers (F := F) free := by
  intro w
  unfold RJsonParser.free
  exact .get_bind fun w' _ => .ite (.pure _) (.throw _)

theorem Buffers.ensureFree (h : Option (Handler F)) (n : Nat) : Buffers (ensureFree h n) := by
  intro w
  unfold RJsonParser.ensureFree makeRoom
  refine .bind (Buffers.free w) fun room => .ite ?_ (.pure _)
  cases h with
  | none => exact .throw _
  | some h => exact Buffers.flushChars h w

/-- The valid front of a slice is pushed, and its units are counted. -/
theorem pushValid_units (slice : List UInt8) (e : Utf8Error) (w w' : World F) (hw : Buffered w w') :
    Ensures (pushValid slice e) w' (fun n w' => Buffered w w' ∧ n ≤ e.validUpTo)
      (fun _ w' => Buffered w w') := by
  unfold pushValid
  rw [ensures_ite]
  split_ifs
  · cases hs : fromUtf8 (slice.take e.validUpTo) with
    | error e => exact hw
    | ok s =>
      have hunits := (utf16Len_le_of_fromUtf8 hs).trans (List.length_take_le _ _)
      dsimp only
      rw [ensures_bind]
      refine (Buffers.pushStr s w w' hw).mono ?_ fun _ _ hw => hw
      exact fun _ w₁ hw₁ => ⟨hw₁, hunits⟩
  · exact ⟨hw, Nat.zero_le _⟩

/-! ## Decoding -/

/-- An iteration of `decode_run` comes to no more units than it passes bytes. -/
theorem decodeRunStep_units (h : Option (Handler F)) (input : Spans) (stop p units : Nat)
    (w w' : World F) (hw : Buffered w w') :
    Ensures (decodeRunStep h input stop p units) w'
      (fun r w' => Buffered w w' ∧ p ≤ r.2.1 ∧ r.2.2 + p ≤ units + r.2.1)
      (fun _ w' => Buffered w w') := by
  unfold decodeRunStep
  rw [ensures_bind]
  refine (Buffers.ensureFree h _ w w' hw).mono ?_ fun _ _ hw => hw
  intro _ w₁ hw₁
  rw [ensures_bind]
  refine (Buffers.free w w₁ hw₁).mono ?_ fun _ _ hw => hw
  intro room w₂ hw₂
  dsimp only
  have htake :
      ((input.spanFrom p).take (min (min (input.spanFrom p).length (stop - p)) room)).length
        ≤ min (min (input.spanFrom p).length (stop - p)) room := List.length_take_le _ _
  generalize min (min (input.spanFrom p).length (stop - p)) room = take at htake
  cases hs : fromUtf8 ((input.spanFrom p).take take) with
  | ok s =>
    have hunits := utf16Len_le_of_fromUtf8 hs
    dsimp only
    rw [ensures_bind]
    refine (Buffers.pushStr s w w₂ hw₂).mono ?_ fun _ _ hw => hw
    exact fun _ w₃ hw₃ => ⟨hw₃, Nat.le_add_right _ _, by dsimp only; omega⟩
  | error e =>
    dsimp only
    rw [ensures_bind]
    refine (pushValid_units _ e w w₂ hw₂).mono ?_ fun _ _ hw => hw
    rintro valid w₃ ⟨hw₃, hvalid⟩
    rw [ensures_ite]
    split_ifs
    · exact hw₃
    rw [ensures_bind]
    cases hch : decodeCharAt input (p + e.validUpTo) with
    | error e => exact hw₃
    | ok o =>
      rw [ensures_ofExcept_ok]
      cases o with
      | none => exact ⟨hw₃, Nat.le_add_right _ _, by dsimp only; omega⟩
      | some r =>
        obtain ⟨ch, n⟩ := r
        have hunits := decodeCharAt_units hch
        dsimp only
        rw [ensures_bind]
        refine (Buffers.ensureFree h _ w w₃ hw₃).mono ?_ fun _ _ hw => hw
        intro _ w₄ hw₄
        rw [ensures_bind]
        refine (Buffers.pushStr [ch] w w₄ hw₄).mono ?_ fun _ _ hw => hw
        exact fun _ w₅ hw₅ => ⟨hw₅, by dsimp only; omega, by dsimp only; omega⟩

/-- So does the loop of `decode_run`. -/
theorem decodeRunLoop_units (h : Option (Handler F)) (input : Spans) (stop : Nat) (w : World F) :
    ∀ (fuel p units : Nat) (w' : World F), Buffered w w' →
      Ensures (decodeRunLoop h input stop fuel p units) w'
        (fun r w' => Buffered w w' ∧ p ≤ r.1 ∧ r.2 + p ≤ units + r.1) (fun _ w' => Buffered w w')
  | 0, _, _, _, hw => hw
  | fuel + 1, p, units, w', hw => by
    rw [decodeRunLoop, ensures_ite]
    split_ifs
    swap
    · exact ⟨hw, le_rfl, le_rfl⟩
    rw [ensures_bind]
    refine (decodeRunStep_units h input stop p units w w' hw).mono ?_ fun _ _ hw => hw
    rintro ⟨more, next, units'⟩ w₁ ⟨hw₁, h1, h2⟩
    cases more with
    | false => exact ⟨hw₁, h1, h2⟩
    | true =>
      refine (decodeRunLoop_units h input stop w fuel next units' w₁ hw₁).mono ?_ fun _ _ hw => hw
      rintro r w₂ ⟨hw₂, h3, h4⟩
      dsimp only at h1 h2
      exact ⟨hw₂, by omega, by omega⟩

theorem Buffers.decodeRun (h : Option (Handler F)) (input : Spans) (start stop : Nat) :
    Buffers (decodeRun h input start stop) := by
  intro w w' hw
  exact (decodeRunLoop_units h input stop w _ _ 0 w' hw).mono (fun _ _ hw => hw.1) fun _ _ hw => hw

theorem Buffers.decodeKeyLoop (input : Spans) (stop : Nat) : ∀ (fuel p units : Nat),
    Buffers (F := F) (decodeKeyLoop input stop fuel p units)
  | 0, _, _ => fun _ => .throw _
  | fuel + 1, p, units => by
    intro w
    unfold RJsonParser.decodeKeyLoop decodeKeyRun
    refine .ite
      (.bind (.ofExcept _) fun runEnd => .bind (.ite ?_ (.pure _)) fun run => ?_) (.pure _)
    · exact .bind (Buffers.decodeRun none input p runEnd w) fun run => .ite (.throw _) (.pure _)
    · refine .ite (.pure _) (.bind (.ofExcept _) fun escape => ?_)
      cases escape with
      | none => exact .throw _
      | some r =>
        refine .bind (Buffers.ensureFree none _ w) fun _ => .bind (Buffers.pushStr _ w) fun _ => ?_
        exact Buffers.decodeKeyLoop input stop fuel _ _ w

theorem Buffers.decodeKey (input : Spans) (start stop : Nat) :
    Buffers (F := F) (decodeKey input start stop) := Buffers.decodeKeyLoop input stop _ _ _

end RJsonParser
