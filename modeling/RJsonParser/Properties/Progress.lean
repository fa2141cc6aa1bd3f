import RJsonParser.Properties.Session

/-!
# The tokenizer always ends

That no loop of the model runs out of iterations is part of the specifications. What each iteration
of the main loop and of `decode_run` does towards that is said here.

* `LoopHead` — the states at the head of the loop of `receive`
* `MovedOn`, `receiveStep_moves` — an iteration of it consumes a byte, ends a number or returns
* `tokenizer_terminates` — all of it, from every state a caller can come to
-/

namespace RJsonParser

open Infra Infra.Utf8

variable {F : Type}

/-! ## The main loop -/

/-- The states at the head of the loop of `receive`. -/
inductive LoopHead [Double F] (env : Env F) (start : World F × Interner) :
    World F × Interner → Prop where
  | start : LoopHead env start start
  | next {s s'} (head : LoopHead env start s) (lt : s.1.consumed < env.input.len)
      (step : receiveStep env s = .ok true s') : LoopHead env start s'

/-- An iteration that goes on consumed a byte, or it consumed none and ended a number. -/
def MovedOn (w w' : World F) : Prop :=
  w.consumed < w'.consumed ∨
    w.consumed = w'.consumed ∧ w.tok.number.stage ≠ .none ∧ w'.tok.number.stage = .none

variable [Double F] {km : Nat} {env : Env F} {start s s' : World F × Interner}

/-- What the loop keeps. -/
structure LoopInv (km : Nat) (env : Env F) (s : World F × Interner) : Prop where
  world : s.1.Inv env.input
  interner : s.2.Inv km
  chunk : s.1.tok.chunkSize ≤ km

/-- **An iteration moves on**, if another is to follow. -/
theorem receiveStep_moves (h : LoopInv km env s) (hlt : s.1.consumed < env.input.len) :
    Ensures (receiveStep env) s
      (fun more s' => LoopInv km env s' ∧ (more = true → MovedOn s.1 s'.1))
      (fun e s' => s'.1.consumed ≤ env.input.len ∧ ∃ err, e = .error err) := by
  refine Ensures.mono (receiveStep_refines h.world h.interner h.chunk hlt) ?_ ?_
  · rintro more s' ⟨hi, hk, ⟨new, os, hr⟩, hleft⟩
    refine ⟨⟨hi, hk, by rw [hr.chunkSize]; exact h.chunk⟩, ?_⟩
    rintro rfl
    exact hleft.2
  · rintro e s' ⟨hi, -, -, err, -, -, he, -⟩
    exact ⟨hi.consumed_le, err, he⟩

theorem LoopHead.inv (hs : LoopHead env start s) (h : LoopInv km env start) :
    LoopInv km env s := by
  induction hs with
  | start => exact h
  | next head lt step ih =>
    have hmoves := receiveStep_moves ih lt
    rw [ensures_ok step] at hmoves
    exact hmoves.1

/-- `receive` returns. -/
theorem receive_returns (h : LoopInv km env start) (h0 : start.1.consumed = 0) :
    Ensures (receive env) start (fun _ s' => s'.1.consumed ≤ env.input.len)
      (fun e s' => s'.1.consumed ≤ env.input.len ∧ ∃ err, e = .error err) := by
  by_cases hlen : env.input.len = 0
  · -- without input there is no iteration
    unfold receive
    simp only [ensures_bind, ensures_get, h0, hlen]
    rw [receiveLoop]
    simp only [ensures_bind, ensures_get, h0, hlen, Nat.lt_irrefl, if_false, ensures_pure]
    exact Nat.le_refl 0
  · refine Ensures.mono (receive_refines h.world h.interner h.chunk fun hc => by omega) ?_ ?_
    · rintro - s' ⟨hi, -⟩
      exact hi.consumed_le
    · rintro e s' ⟨hi, -, -, err, -, -, he, -⟩
      exact ⟨hi.consumed_le, err, he⟩

omit [Double F] in
/-- A run that stops has an error, and no panic. -/
theorem RunStop.error {h : Option (Handler F)} {input : Spans} {p stop : Nat} {w w' : World F}
    {e : Stop} {cs : Text} (hs : RunStop h input p stop w w' e cs) : ∃ err, e = .error err := by
  cases hs with
  | refused _ _ hr =>
    obtain ⟨_, _, _, err, _, he, _⟩ := hr
    exact ⟨err, he⟩
  | malformed _ _ _ eq => exact ⟨_, eq⟩
  | tooLong _ _ _ _ eq => exact ⟨_, eq⟩

omit [Double F] in
/-- The invariant of a parser that has its tokenizer. -/
theorem Parser.Inv.started {p : Parser F} (hi : p.Inv km) (h : Handler F) :
    ({ p.startTokenizer h with checkedBom := true }).Inv km := by
  cases ht : p.tokenizer with
  | none =>
    have hb := (hi.begun (h := h) ht).1
    rw [Parser.begun_eq ht] at hb
    unfold Parser.startTokenizer
    simp only [ht]
    exact hb
  | some t =>
    unfold Parser.startTokenizer
    simp only [ht]
    exact ⟨fun t' ht' => hi.tokenizer t' (ht.trans ht'), rfl, hi.interner, hi.chunk⟩

/-- **The tokenizer always ends.** From every state that a caller can come to, whatever is presented
in whatever spans, under any limits and for any handler: `receive` returns or returns an error, and
does not panic; each iteration of its loop consumes a byte, ends a number or returns, and of two in
a row one at least consumes; and each iteration of `decode_run`, with a handler or for a key,
decodes something or is the last. -/
theorem tokenizer_terminates {h₀ : Handler F} {s : Session F} (hr : Reachable h₀ s) {t : Tokenizer}
    (ht : (s.parser.startTokenizer h₀).tokenizer = some t) (env : Env F) :
    let start := ((s.parser.startTokenizer h₀).world t, (s.parser.startTokenizer h₀).interner)
    Ensures (receive env) start (fun _ s' => s'.1.consumed ≤ env.input.len)
      (fun e s' => s'.1.consumed ≤ env.input.len ∧ ∃ err, e = .error err) ∧
    (∀ s, LoopHead env start s → s.1.consumed < env.input.len →
      Ensures (receiveStep env) s
        (fun more s' => s'.1.consumed ≤ env.input.len ∧ (more = true → MovedOn s.1 s'.1))
        (fun e s' => s'.1.consumed ≤ env.input.len ∧ ∃ err, e = .error err)) ∧
    (∀ s s' s'', LoopHead env start s → s.1.consumed < env.input.len →
      receiveStep env s = .ok true s' → s'.1.consumed < env.input.len →
      receiveStep env s' = .ok true s'' → s.1.consumed < s''.1.consumed) ∧
    ∀ (handler : Option (Handler F)) (w : World F) (stop p units : Nat),
      byteLen w.tok.chars ≤ w.tok.chunkSize → RunEnd env.input stop → p < stop →
      Ensures (decodeRunStep handler env.input stop p units) w
        (fun r w' => byteLen w'.tok.chars ≤ w'.tok.chunkSize ∧ r.2.1 ≤ stop ∧
          (r.1 = true → p < r.2.1))
        (fun e _ => ∃ err, e = .error err) := by
  intro start
  obtain ⟨km, hi⟩ := hr.inv
  have hi' := hi.started h₀
  obtain ⟨hti, hchunk⟩ := hi'.tokenizer t ht
  have hinv : LoopInv km env start :=
    ⟨hti.world .., hi'.interner, by show (t.chunkSize : Nat) ≤ km; rw [hchunk]; exact hi'.chunk⟩
  refine ⟨receive_returns hinv rfl, ?_, ?_, ?_⟩
  · intro s hs hlt
    refine (receiveStep_moves (hs.inv hinv) hlt).mono ?_ fun _ _ h => h
    rintro more s' ⟨hi, hmoved⟩
    exact ⟨hi.world.consumed_le, hmoved⟩
  · intro s s' s'' hs hlt hstep hlt' hstep'
    have hmoves := receiveStep_moves (hs.inv hinv) hlt
    have hmoves' := receiveStep_moves ((hs.next hlt hstep).inv hinv) hlt'
    rw [ensures_ok hstep] at hmoves
    rw [ensures_ok hstep'] at hmoves'
    -- where the first only ended a number, there is none for the second to end
    rcases hmoves.2 rfl with h | ⟨h, -, hended⟩
    · rcases hmoves'.2 rfl with h' | ⟨h', -⟩ <;> omega
    · rcases hmoves'.2 rfl with h' | ⟨-, hpending, -⟩
      · omega
      · exact absurd hended hpending
  · intro handler w stop p units hw hstop hlt
    refine Ensures.mono (decodeRunStep_spec handler units hstop hlt hw) ?_ ?_
    · rintro r w' ⟨cs, ps, chars, hd⟩
      refine ⟨?_, hd.le, ?_⟩
      · have := hd.pushed.fits
        rw [hd.pushed.eq]
        exact this
      · intro hmore
        have hne := hd.more
        rw [if_pos hmore] at hne
        have := byteLen_pos hne
        have := hd.next_eq
        omega
    · rintro e w' ⟨cs, hrun⟩
      exact hrun.error

/-- A new tokenizer, and `"é" `, which the wrap of the ring cuts in the character: all of it, its
first two iterations, and the one of `decode_run`. -/
theorem tokenizer_terminates_wrap :
    let env : Env Rat := ⟨.accepting, .default, .split 2 [0x22, 0xC3, 0xA9, 0x22, 0x20]⟩
    let start : World Rat × Interner :=
      (Parser.world .new (.new false true defaultStringChunkSize), .start .new)
    Ensures (receive env) start (fun _ s' => s'.1.consumed ≤ 5)
      (fun e s' => s'.1.consumed ≤ 5 ∧ ∃ err, e = .error err) ∧
    Ensures (receiveStep env) start
      (fun more s' => s'.1.consumed ≤ 5 ∧ (more = true → MovedOn start.1 s'.1))
      (fun e s' => s'.1.consumed ≤ 5 ∧ ∃ err, e = .error err) ∧
    (∃ s' s'', receiveStep env start = .ok true s' ∧ receiveStep env s' = .ok true s'' ∧
      start.1.consumed < s''.1.consumed) ∧
    Ensures (decodeRunStep (some .accepting) env.input 3 1 0) start.1
      (fun r w' => byteLen w'.tok.chars ≤ w'.tok.chunkSize ∧ r.2.1 ≤ 3 ∧ (r.1 = true → 1 < r.2.1))
      (fun e _ => ∃ err, e = .error err) := by
  intro env start
  obtain ⟨hall, hstep, htwo, hdecode⟩ := tokenizer_terminates (s := .new 64 (.split 0))
    (Session.new_atStart .accepting 64 (.split 0)).reachable rfl env
  refine ⟨hall, hstep _ .start (by decide), ⟨_, _, rfl, rfl, ?_⟩,
    hdecode _ _ 3 1 0 (by decide) ?_ (by decide)⟩
  · exact htwo _ _ _ .start (by decide) rfl (by decide) rfl
  · exact ⟨by decide, fun b l h => by cases h; decide⟩

end RJsonParser
