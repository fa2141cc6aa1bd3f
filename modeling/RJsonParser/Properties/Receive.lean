import RJsonParser.Properties.Tokens

/-!
# `receive` refines the machine

* `receiveStep_refines` — one iteration: a piece of a string value or of a number, whitespace, or a
  token
* `receive_refines` — all of them: `receive` takes the machine on until nothing is left, or the
  machine needs more too, or a string value ends in the start of a character
-/

namespace RJsonParser

open Infra Infra.Utf8

variable {F : Type} [Double F] {km : Nat}

/-- The loop of `receive` goes on with less to do, or it stops for a reason. -/
def StepLeft (env : Env F) (w : World F) (more : Bool) (w' : World F) : Prop :=
  if more then
    w'.Flushed ∧ (w.consumed < w'.consumed ∨
      w.consumed = w'.consumed ∧ w.tok.number.stage ≠ .none ∧ w'.tok.number.stage = .none)
  else w'.Flushed ∧ Leftover F env.limits w'.core (env.rest w')

omit [Double F] in
theorem wsByte_eq_none {p : Pos} {b : UInt8} :
    wsByte p b = none ↔ ¬ (b = 0x20 ∨ b = 0x0A ∨ b = 0x09 ∨ b = 0x0D) := by
  unfold wsByte
  by_cases h1 : b = 0x0A
  · simp [h1]
  by_cases h2 : b = 0x0D
  · simp [h2]
  by_cases h3 : b = 0x20 ∨ b = 0x09
  · rw [if_neg h1, if_neg h2, if_pos h3]
    rcases h3 with h3 | h3 <;> simp [h3]
  · rw [if_neg h1, if_neg h2, if_neg h3]
    rw [not_or] at h3
    simp [h1, h2, h3.1, h3.2]

/-- The line break before a token is over, which the machine notes in a step of its own. -/
theorem clearCr_refines {env : Env F} {w : World F} {b : UInt8} {l : List UInt8}
    (hi : w.Inv env.input) (hs : w.tok.inString = false) (hn : w.tok.number.stage = .none)
    (hl : env.rest w = b :: l) (hb : wsByte w.core.pos b = none) :
    Refines km env w (modifyTok fun t => { t with afterCr := false }) fun _ w' =>
      AtToken env w' b l ∧ w'.consumed = w.consumed ∧ w'.tok.number = w.tok.number := by
  have hpend : ∀ w' : World F, w'.tok.inString = w.tok.inString → w'.pending = [] := by
    intro w' h
    simp [World.pending, h, hs]
  have htoken : AtToken env { w with tok := { w.tok with afterCr := false } } b l :=
    ⟨hl, hs, hn, rfl, wsByte_eq_none.mpr (wsByte_eq_none.mp hb)⟩
  refine ⟨⟨hi.consumed_le, hi.chars_le, hi.depth_eq, hi.no_number⟩, ⟨[], [], ?_⟩, htoken, rfl, rfl⟩
  show Ran km env w { w with tok := { w.tok with afterCr := false } } [] []
  by_cases hc : w.core.pos.afterCr = true
  · refine .of_step (n := 0) ?_ rfl rfl (by simp) (by simp) ?_
    · rw [hl, next_outside (F := F) (c := w.core) rfl hs hn, Core.outerStep, hb]
      exact if_pos hc
    · rw [hpend w rfl]
      exact congrArg contentMarks (hpend _ (by rfl))
  · have hsame : ({ w with tok := { w.tok with afterCr := false } } : World F) = w := by
      have : w.tok.afterCr = false := by simpa [World.core] using hc
      rw [← this]
    rw [hsame]
    exact .refl km env w

/-- **One iteration** of the loop of `receive`. -/
theorem receiveStep_refines {env : Env F} {w : World F} {k : Interner} (hi : w.Inv env.input)
    (hk : k.Inv km) (hkm : w.tok.chunkSize ≤ km) (hlt : w.consumed < env.input.len) :
    KeyRefines km env (w, k) (receiveStep env) (StepLeft env w) := by
  unfold receiveStep KeyRefines
  simp only [ensures_bind, ensures_get]
  by_cases hs : w.tok.inString = true
  · rw [if_pos hs]
    refine KeyRefines.mono (Refines.zoom hk (continueString_refines hi hs)) ?_
    rintro more w' h
    cases more with
    | true =>
      obtain ⟨h1, -, h3⟩ := h
      exact ⟨.of_outside h1, .inl h3⟩
    | false => exact h
  rw [if_neg hs]
  have hs' : w.tok.inString = false := by simpa using hs
  by_cases hn : w.tok.number.stage = .none
  swap
  · rw [if_pos hn]
    refine KeyRefines.mono (Refines.zoom hk (continueNumber_refines hi ⟨hs', hn⟩)) ?_
    rintro more w' ⟨h1, h2, h3⟩
    cases more with
    | true =>
      refine ⟨.of_outside h1, ?_⟩
      rcases h2.lt_or_eq with h | h
      · exact .inl h
      · exact .inr ⟨h, hn, h3⟩
    | false => exact ⟨.of_outside h1, .nothing h3⟩
  rw [if_neg (by simpa using hn)]
  obtain ⟨b, l, hd⟩ : ∃ b l, env.input.bytes.drop w.consumed = b :: l :=
    ⟨_, _, List.drop_eq_getElem_cons hlt⟩
  simp only [ensures_bind, env.input.get_eq hd, ensures_ofExcept_ok]
  by_cases hb : b = 0x20 ∨ b = 0x0A ∨ b = 0x09 ∨ b = 0x0D
  · rw [if_pos hb]
    have hws : wsByte w.core.pos b ≠ none := fun h => wsByte_eq_none.mp h hb
    refine KeyRefines.bind (Refines.zoom hk (processWhitespace_refines hi hs' hn hd hws)) ?_
    rintro - w' k' hi' hk' - ⟨hc, hp⟩
    exact .pure hi' hk' ⟨hp, .inl hc⟩
  · rw [if_neg hb]
    refine KeyRefines.bind (Refines.zoom hk
      (clearCr_refines hi hs' hn hd (wsByte_eq_none.mpr hb))) ?_
    rintro - w' k' hi' hk' hchunk ⟨htoken, hcons, -⟩
    refine (processToken_refines htoken hi' hk' (by rw [hchunk]; exact hkm)).mono ?_
    rintro more w'' h
    cases more with
    | true => exact ⟨h.flushed, .inl (by have := h.consumed; omega)⟩
    | false => exact ⟨h.1, .need h.2⟩

/-- What the loop of `receive` has left to do. -/
def Spans.todo (input : Spans) (w : World F) : Nat :=
  2 * (input.len - w.consumed) + if w.tok.number.stage = .none then 0 else 1

/-- Where `receive` stops. -/
structure Stopped (env : Env F) (w : World F) : Prop where
  flushed : w.Flushed
  leftover : Leftover F env.limits w.core (env.rest w)

/-- **The loop of `receive`** goes on as the machine does, as far as there is something to go on
with. -/
theorem receiveLoop_refines {env : Env F} (fuel : Nat) : ∀ {w : World F} {k : Interner},
    env.input.todo w < fuel → w.Inv env.input → k.Inv km → w.tok.chunkSize ≤ km →
      (w.consumed = env.input.len → w.Flushed) → KeyRefines km env (w, k) (receiveLoop env fuel)
        fun _ w' =>
        Stopped env w' := by
  induction fuel with
  | zero => intro w k hf; omega
  | succ fuel ih =>
    intro w k hf hi hk hkm hp
    rw [receiveLoop]
    unfold KeyRefines
    simp only [ensures_bind, ensures_get]
    by_cases hlt : w.consumed < env.input.len
    swap
    · rw [if_neg hlt]
      exact KeyRefines.pure hi hk
        ⟨hp (by have := hi.consumed_le; omega),
          .nothing (List.drop_eq_nil_of_le (Nat.le_of_not_lt hlt))⟩
    rw [if_pos hlt]
    refine KeyRefines.bind (receiveStep_refines hi hk hkm hlt) ?_
    rintro more w' k' hi' hk' hchunk h
    cases more with
    | true =>
      refine ih ?_ hi' hk' (by rw [hchunk]; exact hkm) fun _ => h.1
      have hle := hi'.consumed_le
      have hlt' : env.input.todo w' < env.input.todo w := by
        unfold Spans.todo
        rcases h.2 with h | ⟨h, h1, h2⟩
        · split_ifs <;> omega
        · rw [if_pos h2, if_neg h1]
          omega
      omega
    | false => exact .pure hi' hk' ⟨h.1, h.2⟩

/-- **`receive`** takes the machine on until it stops. -/
theorem receive_refines {env : Env F} {w : World F} {k : Interner} (hi : w.Inv env.input)
    (hk : k.Inv km) (hkm : w.tok.chunkSize ≤ km) (hp : w.consumed = env.input.len → w.Flushed) :
    KeyRefines km env (w, k) (receive env) fun _ w' => Stopped env w' := by
  unfold receive KeyRefines
  simp only [ensures_bind, ensures_get]
  refine receiveLoop_refines _ ?_ hi hk hkm hp
  unfold Spans.todo
  split_ifs <;> omega

end RJsonParser
