import RJsonParser.Properties.Keys
import RJsonParser.Properties.Numbers

/-!
# `process_token` and `process_whitespace` refine the machine

* `processWhitespace_refines` — a run of whitespace
* `early_refines`, `silent_refines` — the tokens whose callback is made before they are counted, and
  those that have none
* `processToken_refines` — a token is complete, or the machine needs more of it too
-/

namespace RJsonParser

open Infra Infra.Utf8

variable {F : Type} {km : Nat}

/-! ## Whitespace -/

/-- The marks of a run of whitespace. -/
def spaceMarks (l : List UInt8) : List (Mark F) := l.map fun b => (.whitespace [byteChar b], none)

/-- Whitespace is ASCII. -/
theorem wsByte_lt {p p' : Pos} {b : UInt8} (h : wsByte p b = some p') : b.toNat < 0x80 := by
  unfold wsByte at h
  by_cases h1 : b = 0x0A
  · rw [h1]; decide
  by_cases h2 : b = 0x0D
  · rw [h2]; decide
  by_cases h3 : b = 0x20 ∨ b = 0x09
  · rcases h3 with h3 | h3 <;> (rw [h3]; decide)
  · rw [if_neg h1, if_neg h2, if_neg h3] at h
    cases h

/-- ASCII is its own encoding. -/
theorem encode_ascii {l : List UInt8} (h : ∀ b ∈ l, b.toNat < 0x80) :
    encode (l.map byteChar) = l := by
  induction l with
  | nil => rfl
  | cons b l ih =>
    have hb := h b List.mem_cons_self
    have hn : (byteChar b).toNat = b.toNat := toNat_ofNat_of_valid (by omega)
    rw [List.map_cons, encode_cons, ih fun x hx => h x (List.mem_cons_of_mem _ hx),
      encodeChar_one (by omega), hn, UInt8.ofNat_toNat]
    rfl

/-- Where a run of whitespace leads. -/
theorem mem_of_foldlM_wsByte {l : List UInt8} {p p' : Pos} (h : l.foldlM wsByte p = some p') :
    ∀ b ∈ l, b.toNat < 0x80 := by
  induction l generalizing p with
  | nil => simp
  | cons b l ih =>
    rw [List.foldlM_cons] at h
    obtain ⟨q, hq, h⟩ := Option.bind_eq_some_iff.mp h
    intro x hx
    rcases List.mem_cons.mp hx with rfl | hx
    · exact wsByte_lt hq
    · exact ih h x hx

/-- The first loop finds the run. -/
theorem wsLoop_spec (input : Spans) : ∀ (fuel p : Nat) (l : Pos), input.len - p < fuel →
    p ≤ input.len → ∃ p' l', wsLoop input fuel p l = .ok (p', l') ∧ p ≤ p' ∧ p' ≤ input.len ∧
      (input.slice p p').foldlM wsByte l = some l' ∧
      (p' = p → ∀ b r, input.bytes.drop p = b :: r → wsByte l b = none) := by
  intro fuel
  induction fuel with
  | zero => intro p l hf; omega
  | succ fuel ih =>
    intro p l hf hp
    have hnil : (input.slice p p).foldlM wsByte l = some l := by simp [Spans.slice]
    rw [wsLoop]
    by_cases hlt : p < input.len
    swap
    · rw [if_neg hlt]
      refine ⟨p, l, rfl, le_rfl, hp, hnil, fun _ b r hd => ?_⟩
      rw [List.drop_eq_nil_of_le (Nat.le_of_not_lt hlt)] at hd
      cases hd
    obtain ⟨b, r, hd⟩ : ∃ b r, input.bytes.drop p = b :: r :=
      ⟨_, _, List.drop_eq_getElem_cons hlt⟩
    rw [if_pos hlt, input.get_eq hd, except_ok_bind]
    cases hw : wsByte l b with
    | none =>
      refine ⟨p, l, rfl, le_rfl, hp, hnil, fun _ b' r' hd' => ?_⟩
      rw [hd] at hd'
      cases hd'
      exact hw
    | some l₁ =>
      obtain ⟨p', l', hloop, hle, hle', hfold, -⟩ := ih (p + 1) l₁ (by omega) (by omega)
      refine ⟨p', l', hloop, by omega, hle', ?_, fun h => by omega⟩
      have hone : input.slice p (p + 1) = [b] := by
        rw [Spans.slice, hd, Nat.add_sub_cancel_left]
        rfl
      rw [input.slice_split (Nat.le_add_right p 1) hle, hone, List.singleton_append,
        List.foldlM_cons, hw]
      exact hfold

/-- Whitespace is marked byte by byte, however it is split. -/
theorem marks_spaces (bytes : List UInt8) (l : SharedLocator) :
    marks ([⟨.whitespace (bytes.map byteChar), l⟩] : List (Call F)) = spaceMarks bytes := by
  simp [marks, Call.marks, spaceMarks]

/-- The second loop reports it in pieces. -/
theorem wsCalls_spec (h : Handler F) (input : Spans) {stop : Nat} (hs : stop ≤ input.len) :
    ∀ (fuel q : Nat) (w : World F), stop - q < fuel → q ≤ stop →
      (∀ b ∈ input.slice q stop, b.toNat < 0x80) →
      Ensures (wsCalls h input stop fuel q) w
        (fun _ w' => ∃ new, w' = { w with calls := w.calls ++ new } ∧
          (∀ n km, ∀ call ∈ new, call.Piece n km) ∧ marks new = spaceMarks (input.slice q stop))
        (fun e w' => ∃ err new, e = .error err ∧ w' = { w with calls := w.calls ++ new } ∧
          new ≠ [] ∧ h.reply w'.calls = some err ∧ (∀ n km, ∀ call ∈ new, call.Piece n km) ∧
          marks new <+: spaceMarks (input.slice q stop)) := by
  intro fuel
  induction fuel with
  | zero => intro q w hf; omega
  | succ fuel ih =>
    intro q w hf hq hascii
    rw [wsCalls]
    by_cases hlt : q < stop
    swap
    · rw [if_neg hlt]
      obtain rfl : q = stop := by omega
      exact ⟨[], by simp, by simp, by simp [Spans.slice, spaceMarks]⟩
    rw [if_pos hlt]
    simp only
    -- the part of the run that lies in one span
    generalize hn : min (input.spanFrom q).length (stop - q) = n
    have hpos := input.length_spanFrom_pos (i := q) (by omega)
    have hspan : (input.spanFrom q).take n = input.slice q (q + n) := by
      rw [input.take_spanFrom (by omega), Spans.slice, Nat.add_sub_cancel_left]
    have hsplit := input.slice_split (Nat.le_add_right q n) (by omega : q + n ≤ stop)
    have hpart : ∀ b ∈ input.slice q (q + n), b.toNat < 0x80 := by
      intro b hb
      exact hascii b (by rw [hsplit]; exact List.mem_append_left _ hb)
    have htext : fromUtf8 ((input.spanFrom q).take n) =
        .ok ((input.slice q (q + n)).map byteChar) := by
      rw [hspan]
      conv_lhs => rw [← encode_ascii hpart]
      exact fromUtf8_encode _
    rw [htext]
    simp only [ensures_bind]
    have hne : (input.slice q (q + n)).map byteChar ≠ [] := by
      rw [Ne, List.map_eq_nil_iff, ← List.length_eq_zero_iff, input.length_slice (by omega)]
      omega
    have hmarks : ∀ l, marks ([⟨.whitespace ((input.slice q (q + n)).map byteChar), l⟩] :
        List (Call F)) = spaceMarks (input.slice q (q + n)) := marks_spaces _
    have hpiece : ∀ l m km, ∀ call ∈ ([⟨.whitespace ((input.slice q (q + n)).map byteChar), l⟩] :
        List (Call F)), call.Piece m km := by
      intro l m km call hc
      rw [List.mem_singleton.mp hc]
      exact hne
    have hall : spaceMarks (F := F) (input.slice q stop) =
        spaceMarks (input.slice q (q + n)) ++ spaceMarks (input.slice (q + n) stop) := by
      rw [hsplit]
      exact List.map_append
    refine (callback_spec h _ w).mono ?_ ?_
    · rintro - w₁ ⟨rfl, -⟩
      refine (ih (q + n) _ (by omega) (by omega) ?_).mono ?_ ?_
      · intro b hb
        exact hascii b (by rw [hsplit]; exact List.mem_append_right _ hb)
      · rintro - w₂ ⟨new, rfl, hp, hm⟩
        refine ⟨⟨.whitespace ((input.slice q (q + n)).map byteChar), w.locator⟩ :: new,
          by simp, ?_, ?_⟩
        · intro m km call hc
          rcases List.mem_cons.mp hc with rfl | hc
          · exact hpiece w.locator m km _ List.mem_cons_self
          · exact hp m km call hc
        · rw [← List.singleton_append, marks_append, hmarks, hm, hall]
      · rintro e w₂ ⟨err, new, he, rfl, hnew, hr, hp, hm⟩
        refine ⟨err, ⟨.whitespace ((input.slice q (q + n)).map byteChar), w.locator⟩ :: new, he,
          by simp, by simp, hr, ?_, ?_⟩
        · intro m km call hc
          rcases List.mem_cons.mp hc with rfl | hc
          · exact hpiece w.locator m km _ List.mem_cons_self
          · exact hp m km call hc
        · rw [← List.singleton_append, marks_append, hmarks, hall]
          exact (List.prefix_append_right_inj _).mpr hm
    · rintro e w₁ ⟨rfl, err, he, hr⟩
      refine ⟨err, _, he, rfl, by simp, hr, hpiece _, ?_⟩
      rw [hmarks, hall]
      exact List.prefix_append _ _

variable [Double F]

/-- The machine takes whitespace byte by byte. -/
theorem steps_spaces (limits : ParserLimits) {c : Core} (hb : c.bomChecked = true)
    (hs : c.inString = false) (hn : c.number.stage = .none) {l : List UInt8} {p : Pos}
    (h : l.foldlM wsByte c.pos = some p) (r : List UInt8) :
    (machine F limits).Steps c (l ++ r) (if c.needsWhitespace then spaceMarks l else [])
      { c with pos := p } r := by
  induction l generalizing c with
  | nil =>
    cases h
    have : (if c.needsWhitespace then spaceMarks ([] : List UInt8) else []) =
        ([] : List (Mark F)) := by split <;> rfl
    rw [this]
    exact .refl
  | cons b l ih =>
    rw [List.foldlM_cons] at h
    obtain ⟨q, hq, h⟩ := Option.bind_eq_some_iff.mp h
    have hnext : c.next (F := F) limits (b :: (l ++ r)) = .step 1 { c with pos := q }
        (if c.needsWhitespace then [(.whitespace [byteChar b], none)] else []) := by
      rw [next_outside hb hs hn, Core.outerStep, hq]
    have htail := ih (c := { c with pos := q }) hb hs hn h
    have := (steps_of_next hnext).trans htail
    have hmarks : (if c.needsWhitespace then spaceMarks (F := F) (b :: l) else []) =
        (if c.needsWhitespace then [(.whitespace [byteChar b], none)] else []) ++
          (if c.needsWhitespace then spaceMarks l else []) := by split <;> rfl
    rw [hmarks]
    exact this

/-- **`process_whitespace`** takes the run of whitespace that is next. -/
theorem processWhitespace_refines {env : Env F} {w : World F} {b : UInt8} {l : List UInt8}
    (hi : w.Inv env.input) (hs : w.tok.inString = false) (hn : w.tok.number.stage = .none)
    (hl : env.rest w = b :: l) (hb : wsByte w.core.pos b ≠ none) :
    Refines km env w (processWhitespace env) fun _ w' => Moved w w' := by
  unfold processWhitespace Refines
  simp only [ensures_bind, ensures_get]
  obtain ⟨p, q, hloop, hle, hlen, hfold, hfirst⟩ := wsLoop_spec env.input
    (env.input.len - w.consumed + 1) w.consumed w.core.pos (Nat.lt_succ_self _) hi.consumed_le
  have hlt : w.consumed < p := by
    rcases hle.eq_or_lt with h | h
    · exact absurd (hfirst h.symm b l hl) hb
    · exact h
  -- the machine takes the whitespace byte by byte, the code all of it before it calls back
  have hrest : env.rest w = env.input.slice w.consumed p ++ env.input.bytes.drop p := by
    have : env.input.bytes.drop p = (env.rest w).drop (p - w.consumed) := by
      rw [Env.rest, List.drop_drop, Nat.add_sub_of_le hle]
    rw [this, Spans.slice]
    exact (List.take_append_drop _ _).symm
  have hsteps := steps_spaces (F := F) env.limits (c := w.core) rfl hs hn hfold
    (env.input.bytes.drop p)
  rw [← hrest] at hsteps
  rw [show wsLoop env.input (env.input.len - w.consumed + 1) w.consumed
    ⟨w.locator.line, w.locator.column, w.tok.afterCr⟩ = .ok (p, q) from hloop]
  simp only [ensures_ofExcept_ok, ensures_modify]
  generalize hw₁ : ({ w with
    locator := ⟨q.line, q.column⟩
    tok := { w.tok with afterCr := q.afterCr }
    consumed := p } : World F) = w₁
  have hcore : w₁.core = { w.core with pos := q } := by rw [← hw₁]; rfl
  have hcons : w₁.consumed = p := by rw [← hw₁]
  have hinv : ∀ calls : List (Call F), World.Inv env.input { w₁ with calls := calls } := by
    intro calls
    rw [← hw₁]
    exact ⟨hlen, hi.chars_le, hi.depth_eq, hi.no_number⟩
  have hpend : w.pending = [] := by simp [World.pending, hs]
  have hpend₁ : ∀ calls : List (Call F), World.pending { w₁ with calls := calls } = [] := by
    intro calls
    rw [← hw₁]
    simp [World.pending, hs]
  have hflush : ∀ calls : List (Call F), World.Flushed { w₁ with calls := calls } := by
    intro calls
    rw [← hw₁]
    exact .of_outside hs
  have hcalls : w₁.calls = w.calls := by rw [← hw₁]
  have hchunk : w₁.tok.chunkSize = w.tok.chunkSize := by rw [← hw₁]
  unfold reportWhitespace
  simp only [ensures_bind, ensures_get]
  by_cases hneeds : w.core.needsWhitespace = true
  · rw [if_pos (by rw [← hw₁]; exact hneeds)]
    rw [if_pos hneeds] at hsteps
    refine (wsCalls_spec env.handler env.input hlen _ w.consumed w₁ (Nat.lt_succ_self _) hle
      (mem_of_foldlM_wsByte hfold)).mono ?_ ?_
    · rintro - w' ⟨new, rfl, hp, hm⟩
      refine ⟨hinv _, ⟨new, spaceMarks (env.input.slice w.consumed p), hchunk, ?_, hp _ _, ?_, ?_⟩,
        ⟨by show w.consumed < w₁.consumed; omega, hflush _⟩⟩
      · show w₁.calls ++ new = _
        rw [hcalls]
      · rw [hpend₁, hpend, hm]
        simp
      · show env.reference.Steps _ _ _ w₁.core (env.input.bytes.drop w₁.consumed)
        rw [hcore, hcons]
        exact hsteps
    · rintro e w' ⟨err, new, rfl, rfl, hnew, hr, hp, hm⟩
      refine ⟨hinv _, hchunk, err, new, _, rfl, ?_, hp _ _, hsteps.emits, ?_, .refused hnew hr⟩
      · show w₁.calls ++ new = _
        rw [hcalls]
      · rw [hpend]
        exact hm
  · rw [if_neg (by rw [← hw₁]; exact hneeds)]
    rw [if_neg hneeds] at hsteps
    refine ⟨hinv w₁.calls, ⟨[], [], hchunk, by simp [hcalls], by simp, ?_, ?_⟩, by omega,
      hflush w₁.calls⟩
    · rw [hpend₁ w₁.calls, hpend]
      rfl
    · show env.reference.Steps _ _ _ w₁.core (env.input.bytes.drop w₁.consumed)
      rw [hcore, hcons]
      exact hsteps

/-! ## Tokens that are counted after their callback -/

section Token

variable {env : Env F} {w : World F} {b : UInt8} {l : List UInt8}

/-- A token that is wrong where it stands. -/
theorem AtToken.throw {m : String} {α : Type} {Q : α → World F → Prop} (h : AtToken env w b l)
    (hi : w.Inv env.input) (hf : w.core.tokenStep (F := F) env.limits b l = .fail []) :
    Refines km env w (throw (.err m)) Q :=
  .throw_of_fail hi (h.next.trans hf)

/-- **A token of `n` bytes whose callback comes before it is counted.** -/
theorem early_refines (w₁ : World F) {e : Event F} {n : Nat} {c : Core}
    {f g : Tokenizer → Tokenizer} (h : AtToken env w b l)
    (he : e.isPiece = false) (hshort : e.Short km)
    (hstep : w.core.tokenStep env.limits b l =
      Core.finish env.limits n c [(e, some w₁.locator)] [])
    (hi₁ : w₁.Inv env.input) (hi₂ : World.Inv env.input { w₁ with tok := g w₁.tok })
    (hi₃ : World.Inv env.input { w₁ with tok := f ((g w₁.tok).counted env.limits) })
    (hcount : c.tokenCount = (g w₁.tok).tokenCount)
    (hcore : World.core { w₁ with tok := f ((g w₁.tok).counted env.limits) } =
      c.count env.limits)
    (hp : World.Flushed { w₁ with tok := f ((g w₁.tok).counted env.limits) })
    (hn : w₁.consumed = w.consumed + n) (hpos : 0 < n)
    (hk : (f ((g w₁.tok).counted env.limits)).chunkSize = w.tok.chunkSize)
    (hk₁ : w₁.tok.chunkSize = w.tok.chunkSize) (hkg : (g w₁.tok).chunkSize = w₁.tok.chunkSize)
    (hc : w₁.calls = w.calls) :
    Ensures (do callback env.handler e; modifyTok g; tokenDone env.limits; modifyTok f) w₁
      (fun _ w' => w'.Inv env.input ∧ (∃ new os, Ran km env w w' new os) ∧ Moved w w')
      (fun e w' => w'.Inv env.input ∧ Broke km env w e w') := by
  have hnext := h.next.trans hstep
  rw [ensures_bind]
  refine (callback_spec env.handler e w₁).mono ?_ ?_
  · rintro - w₂ ⟨rfl, -⟩
    rw [ensures_bind]
    simp only [modifyTok, ensures_modify]
    have hmarks := marks_token he w₁.locator
    refine tokenDone_refines (n := n) (c := c) [⟨e, w₁.locator⟩] ?_ hcount hcore
      h.pending hp.pending ⟨hi₂.consumed_le, hi₂.chars_le, hi₂.depth_eq, hi₂.no_number⟩
      ⟨hi₃.consumed_le, hi₃.chars_le, hi₃.depth_eq, hi₃.no_number⟩ hn hk (hkg.trans hk₁) ?_
      (piece_token he hshort _ _) ⟨?_, hp⟩
    · rw [hnext, hmarks]
    · show w₁.calls ++ _ = _
      rw [hc]
    · show w.consumed < w₁.consumed
      omega
  · rintro s w₂ ⟨rfl, err, rfl, hr⟩
    refine ⟨⟨hi₁.consumed_le, hi₁.chars_le, hi₁.depth_eq, hi₁.no_number⟩,
      .of_refused (l := w₁.locator) he hshort h.pending ?_ hk₁ (by rw [hc]) hr⟩
    rw [hnext]
    exact Core.finish_out

/-- The start of a string value. -/
theorem startString_refines (h : AtToken env w b l) (hb : tokenKind b = .quote)
    (hs : w.tok.state = .expectValue) (hi : w.Inv env.input) :
    Refines km env w (startString env) fun _ w' => Moved w w' := by
  have hs' : w.core.state = .expectValue := hs
  have hlen := h.length
  have hstep : w.core.tokenStep (F := F) env.limits b l = Core.finish env.limits 1
      w.core.beginString [w.core.beginString.mark .startStringValue] [] := by
    simp only [Core.tokenStep, hb, Core.quoteStep, hs']
  have hlt : w.consumed + 1 ≤ env.input.len := by omega
  have h1 := early_refines
    { w.cleared with consumed := w.consumed + 1, locator := w.locator.addColumn 1 }
    (g := fun t => { t with inString := true, stringBytes := 0 })
    (f := fun t => { t with afterComma := false }) h rfl (show (Event.startStringValue : Event
      F).Short km from trivial) hstep ⟨hlt, Nat.zero_le _, hi.depth_eq, hi.no_number⟩
    ⟨hlt, Nat.zero_le _, hi.depth_eq, fun _ => h.noNumber⟩
    ⟨hlt, Nat.zero_le _, hi.depth_eq, fun _ => h.noNumber⟩ rfl rfl ?_ rfl Nat.one_pos rfl
      rfl rfl rfl
  · unfold startString Refines takeOne
    simp only [ensures_bind, ensures_get, setConsumed, addColumn, ensures_modify]
    simp only [ensures_bind] at h1
    rw [← ensures_bind]
    exact clear_spec _ h1
  · exact fun _ => rfl

/-! ## Containers -/

omit [Double F] in
/-- **`check_depth`** changes nothing, and stops where the containers are too deep. -/
theorem checkDepth_spec (limits : ParserLimits) (w : World F) :
    Ensures (checkDepth limits) w
      (fun _ w' => w' = w ∧
        exceeds limits.maxNestingDepth (w.tok.depthStack.length + 1) = false)
      (fun e w' => w' = w ∧ (∃ m, e = .err m) ∧
        exceeds limits.maxNestingDepth (w.tok.depthStack.length + 1) = true) := by
  unfold checkDepth
  cases hm : limits.maxNestingDepth with
  | none => exact ⟨rfl, rfl⟩
  | some max =>
    simp only [ensures_bind, ensures_get]
    by_cases hlt : max ≤ w.tok.depthStack.length
    · rw [if_pos hlt]
      exact ⟨rfl, ⟨_, rfl⟩, decide_eq_true (by omega)⟩
    · rw [if_neg hlt]
      exact ⟨rfl, decide_eq_false (by omega)⟩

omit [Double F] in
theorem World.Inv.length_depth {input : Spans} (hi : w.Inv input) :
    w.tok.depthStack.length = w.core.context.length := by
  rw [hi.depth_eq, List.length_map]
  rfl

omit [Double F] in
/-- A container does not open where no value is due. -/
theorem openStep_wrong {limits : ParserLimits} {context : Context}
    (hb : tokenKind b = .opening context) (hs : w.tok.state ≠ .expectValue) :
    w.core.tokenStep (F := F) limits b l = .fail [] := by
  have hs' : w.core.state ≠ .expectValue := hs
  simp only [Core.tokenStep, hb, Core.openStep]
  exact if_pos hs'

omit [Double F] in
/-- Nor does it close where it is not open, or where it may not end. -/
theorem closeStep_wrong {limits : ParserLimits} {context : Context}
    (hb : tokenKind b = .closing context)
    (hw : w.tok.contextStack.head? ≠ some context ∨
      (w.tok.state ≠ context.first ∧ w.tok.state ≠ .afterValue) ∨ w.tok.afterComma = true) :
    w.core.tokenStep (F := F) limits b l = .fail [] := by
  simp only [Core.tokenStep, hb, Core.closeStep]
  rcases hw with h | h | h
  · exact if_pos h
  · split
    · rfl
    · exact if_pos h
  · split
    · rfl
    · split
      · rfl
      · exact if_pos h

/-- A container opens. -/
theorem open_refines {context : Context} {g : Tokenizer → Tokenizer} (h : AtToken env w b l)
    (hb : tokenKind b = .opening context) (hs : w.tok.state = .expectValue) (hi : w.Inv env.input)
    (hg : ∀ t : Tokenizer, g t = { t with
      contextStack := context :: t.contextStack
      depthStack := context.nest :: t.depthStack
      duplicateKeyStack := if context = .object ∧ t.rejectDuplicateKeys then
        [] :: t.duplicateKeyStack else t.duplicateKeyStack }) :
    Refines km env w (do
      checkDepth env.limits
      takeOne
      callback env.handler context.openEvent
      modifyTok g
      tokenTo env.limits context.first) fun _ w' => Moved w w' := by
  have hs' : w.core.state = .expectValue := hs
  have hlen := h.length
  have hpiece : (context.openEvent : Event F).isPiece = false := by cases context <;> rfl
  have hshort : (context.openEvent : Event F).Short km := by cases context <;> trivial
  unfold Refines
  rw [ensures_bind]
  refine (checkDepth_spec env.limits w).mono ?_ ?_
  · rintro - w' ⟨rfl, hdepth⟩
    rw [hi.length_depth] at hdepth
    have hstep : w'.core.tokenStep (F := F) env.limits b l = Core.finish env.limits 1
        (w'.core.enter context) [(w'.core.enter context).mark context.openEvent] [] := by
      simp only [Core.tokenStep, hb, Core.openStep, hs', ne_eq, not_true_eq_false, if_false, hdepth,
        Bool.false_eq_true]
    have hlt : w'.consumed + 1 ≤ env.input.len := by omega
    have hgt := hg w'.tok
    have hnest : context.nest :: w'.tok.depthStack =
        (context :: w'.tok.contextStack).map Context.nest := by rw [hi.depth_eq]; rfl
    have h1 := early_refines
      { w' with consumed := w'.consumed + 1, locator := w'.locator.addColumn 1 }
      (f := fun t => { t with afterComma := false, state := context.first }) (g := g)
      h hpiece hshort hstep
      ⟨hlt, hi.chars_le, hi.depth_eq, hi.no_number⟩
      (by rw [hgt]; exact ⟨hlt, hi.chars_le, hnest, hi.no_number⟩)
      (by rw [hgt]; exact ⟨hlt, hi.chars_le, hnest, hi.no_number⟩)
      (by rw [hgt]; rfl) (by rw [hgt]; rfl)
      (by rw [hgt]; exact .of_outside h.outside)
      rfl Nat.one_pos (by rw [hgt]; rfl) rfl (by rw [hgt]) rfl
    simp only [takeOne, tokenTo, ensures_bind, ensures_get, setConsumed, addColumn,
      ensures_modify] at h1 ⊢
    exact h1
  · rintro e w' ⟨rfl, ⟨m, rfl⟩, hdepth⟩
    rw [hi.length_depth] at hdepth
    refine ⟨hi, .of_fail rfl rfl (h.next.trans ?_)⟩
    simp only [Core.tokenStep, hb, Core.openStep, hs', ne_eq, not_true_eq_false, if_false, hdepth,
      if_true]

/-- A container closes. -/
theorem close_refines {context : Context} {g : Tokenizer → Tokenizer} (h : AtToken env w b l)
    (hb : tokenKind b = .closing context) (hc : w.tok.contextStack.head? = some context)
    (hs : w.tok.state = context.first ∨ w.tok.state = .afterValue)
    (ha : w.tok.afterComma = false) (hi : w.Inv env.input)
    (hg : ∀ t : Tokenizer, g t = { t with
      contextStack := t.contextStack.tail
      depthStack := t.depthStack.tail
      duplicateKeyStack := if context = .object ∧ t.rejectDuplicateKeys then
        t.duplicateKeyStack.tail else t.duplicateKeyStack }) :
    Refines km env w (do
      takeOne
      callback env.handler context.closeEvent
      modifyTok g
      tokenTo env.limits .afterValue) fun _ w' => Moved w w' := by
  have hc' : w.core.context.head? = some context := hc
  have hs' : ¬ (w.core.state ≠ context.first ∧ w.core.state ≠ .afterValue) := by
    rw [not_and_or, not_not, not_not]
    exact hs
  have ha' : w.core.afterComma = false := ha
  have hlen := h.length
  have hpiece : (context.closeEvent : Event F).isPiece = false := by cases context <;> rfl
  have hshort : (context.closeEvent : Event F).Short km := by cases context <;> trivial
  have hstep : w.core.tokenStep (F := F) env.limits b l = Core.finish env.limits 1
      (w.core.leave context) [(w.core.leave context).mark context.closeEvent] [] := by
    simp only [Core.tokenStep, hb, Core.closeStep, hc', ne_eq, not_true_eq_false, if_false, ha',
      Bool.false_eq_true]
    rw [if_neg hs']
  have hlt : w.consumed + 1 ≤ env.input.len := by omega
  have hdepth : w.tok.depthStack.tail = w.tok.contextStack.tail.map Context.nest := by
    rw [hi.depth_eq, List.map_tail]
  have hgt := hg w.tok
  have h1 := early_refines
    { w with consumed := w.consumed + 1, locator := w.locator.addColumn 1 }
    (f := fun t => { t with afterComma := false, state := .afterValue }) (g := g)
    h hpiece hshort hstep
    ⟨hlt, hi.chars_le, hi.depth_eq, hi.no_number⟩
    (by rw [hgt]; exact ⟨hlt, hi.chars_le, hdepth, hi.no_number⟩)
    (by rw [hgt]; exact ⟨hlt, hi.chars_le, hdepth, hi.no_number⟩)
    (by rw [hgt]; rfl) (by rw [hgt]; rfl)
    (by rw [hgt]; exact .of_outside h.outside)
    rfl Nat.one_pos (by rw [hgt]; rfl) rfl (by rw [hgt]) rfl
  unfold Refines
  simp only [takeOne, tokenTo, ensures_bind, ensures_get, setConsumed, addColumn,
    ensures_modify] at h1 ⊢
  exact h1

/-- **`{`**. -/
theorem processOpenObject_refines (h : AtToken env w b l) (hb : tokenKind b = .opening .object)
    (hi : w.Inv env.input) :
    Refines km env w (processOpenObject env) fun _ w' => Moved w w' := by
  unfold processOpenObject Refines
  simp only [ensures_bind, ensures_get]
  by_cases hs : w.tok.state = .expectValue
  · rw [if_neg (by simpa using hs)]
    exact open_refines h hb hs hi fun t => by simp [Context.nest]
  · rw [if_pos hs]
    exact h.throw hi (openStep_wrong hb hs)

/-- **`[`**. -/
theorem processOpenArray_refines (h : AtToken env w b l) (hb : tokenKind b = .opening .array)
    (hi : w.Inv env.input) :
    Refines km env w (processOpenArray env) fun _ w' => Moved w w' := by
  unfold processOpenArray Refines
  simp only [ensures_bind, ensures_get]
  by_cases hs : w.tok.state = .expectValue
  · rw [if_neg (by simpa using hs)]
    exact open_refines h hb hs hi fun t => by simp [Context.nest]
  · rw [if_pos hs]
    exact h.throw hi (openStep_wrong hb hs)

/-- **`}`**, which may come first or after a value, and not after a comma. -/
theorem processCloseObject_refines (h : AtToken env w b l) (hb : tokenKind b = .closing .object)
    (hi : w.Inv env.input) :
    Refines km env w (processCloseObject env) fun _ w' => Moved w w' := by
  unfold processCloseObject Refines
  simp only [ensures_bind, ensures_get]
  by_cases hc : w.tok.contextStack.head? = some .object
  swap
  · rw [if_pos hc]
    exact h.throw hi (closeStep_wrong hb (.inl hc))
  rw [if_neg (by simpa using hc)]
  by_cases hs : w.tok.state ≠ .expectKey ∧ w.tok.state ≠ .afterValue
  · rw [if_pos hs]
    exact h.throw hi (closeStep_wrong hb (.inr (.inl hs)))
  rw [if_neg hs]
  by_cases ha : w.tok.afterComma = true
  · rw [if_pos ha]
    exact h.throw hi (closeStep_wrong hb (.inr (.inr ha)))
  rw [if_neg ha]
  refine close_refines h hb hc ?_ (by simpa using ha) hi fun t => by simp
  rw [not_and_or, not_not, not_not] at hs
  exact hs

/-- **`]`**, likewise. -/
theorem processCloseArray_refines (h : AtToken env w b l) (hb : tokenKind b = .closing .array)
    (hi : w.Inv env.input) :
    Refines km env w (processCloseArray env) fun _ w' => Moved w w' := by
  unfold processCloseArray Refines
  simp only [ensures_bind, ensures_get]
  by_cases hc : w.tok.contextStack.head? = some .array
  swap
  · rw [if_pos hc]
    exact h.throw hi (closeStep_wrong hb (.inl hc))
  rw [if_neg (by simpa using hc)]
  by_cases hs : w.tok.state ≠ .expectValue ∧ w.tok.state ≠ .afterValue
  · rw [if_pos hs]
    exact h.throw hi (closeStep_wrong hb (.inr (.inl hs)))
  rw [if_neg hs]
  by_cases ha : w.tok.afterComma = true
  · rw [if_pos ha]
    exact h.throw hi (closeStep_wrong hb (.inr (.inr ha)))
  rw [if_neg ha]
  refine close_refines h hb hc ?_ (by simpa using ha) hi fun t => by simp
  rw [not_and_or, not_not, not_not] at hs
  exact hs

/-! ## Tokens without a callback -/

/-- A token of one byte that is only counted. -/
theorem silent_refines (km : Nat) {c : Core} (w₁ : World F) {f : Tokenizer → Tokenizer}
    (h : AtToken env w b l)
    (hstep : w.core.tokenStep (F := F) env.limits b l = Core.finish env.limits 1 c [] [])
    (hi : World.Inv env.input { w₁ with tok := w₁.tok.counted env.limits })
    (hi' : World.Inv env.input { w₁ with tok := f (w₁.tok.counted env.limits) })
    (hcount : c.tokenCount = w₁.tok.tokenCount)
    (hcore : World.core { w₁ with tok := f (w₁.tok.counted env.limits) } = c.count env.limits)
    (hout : (f (w₁.tok.counted env.limits)).inString = false)
    (hn : w₁.consumed = w.consumed + 1)
    (hk : (f (w₁.tok.counted env.limits)).chunkSize = w.tok.chunkSize)
    (hk₁ : w₁.tok.chunkSize = w.tok.chunkSize)
    (hc : w₁.calls = w.calls) :
    Ensures (do tokenDone env.limits; modifyTok f) w₁
      (fun _ w' => w'.Inv env.input ∧ (∃ new os, Ran km env w w' new os) ∧ Moved w w')
      (fun e w' => w'.Inv env.input ∧ Broke km env w e w') := by
  have hp : World.Flushed { w₁ with tok := f (w₁.tok.counted env.limits) } := .of_outside hout
  refine tokenDone_refines [] (h.next.trans hstep) hcount hcore h.pending hp.pending hi
    hi' hn hk hk₁ (by rw [hc, List.append_nil]) (by simp) ⟨?_, hp⟩
  show w.consumed < w₁.consumed
  omega

/-- **`,`** comes after a value, and a key or a value after it. -/
theorem processComma_refines (h : AtToken env w b l) (hb : tokenKind b = .comma)
    (hi : w.Inv env.input) :
    Refines km env w (processComma env) fun _ w' => Moved w w' := by
  have hlen := h.length
  have hlt : w.consumed + 1 ≤ env.input.len := by omega
  unfold processComma Refines
  simp only [ensures_bind, ensures_get]
  by_cases hs : w.tok.state = .afterValue
  swap
  · have hs' : w.core.state ≠ .afterValue := hs
    rw [if_pos hs]
    exact h.throw hi (by simp only [Core.tokenStep, hb, hs', ne_eq, not_false_eq_true, true_or,
      if_true])
  have hs' : w.core.state = .afterValue := hs
  rw [if_neg (by simpa using hs)]
  by_cases hc : w.tok.contextStack = []
  · have hc' : w.core.context = [] := hc
    rw [if_pos hc]
    exact h.throw hi (by simp only [Core.tokenStep, hb, hc', or_true, if_true])
  have hc' : ¬ w.core.context = [] := hc
  rw [if_neg hc]
  have hstep : w.core.tokenStep (F := F) env.limits b l =
      Core.finish env.limits 1 w.core.comma [] [] := by
    simp only [Core.tokenStep, hb, hs', hc', ne_eq, not_true_eq_false, or_self, if_false]
  have h1 := silent_refines km
    { w with consumed := w.consumed + 1, locator := w.locator.addColumn 1 }
    (f := fun t => { t with
      afterComma := true
      state := if t.contextStack.head? = some .object then .expectKey else .expectValue })
    h hstep ⟨hlt, hi.chars_le, hi.depth_eq, hi.no_number⟩
    ⟨hlt, hi.chars_le, hi.depth_eq, hi.no_number⟩ rfl rfl h.outside rfl rfl rfl rfl
  simp only [takeOne, ensures_bind, ensures_get, setConsumed, addColumn, ensures_modify] at h1 ⊢
  exact h1

/-- **`:`** comes after a key. -/
theorem processColon_refines (h : AtToken env w b l) (hb : tokenKind b = .colon)
    (hi : w.Inv env.input) :
    Refines km env w (processColon env) fun _ w' => Moved w w' := by
  have hlen := h.length
  have hlt : w.consumed + 1 ≤ env.input.len := by omega
  unfold processColon Refines
  simp only [ensures_bind, ensures_get]
  by_cases hs : w.tok.state = .expectColon
  swap
  · have hs' : w.core.state ≠ .expectColon := hs
    rw [if_pos hs]
    exact h.throw hi (by simp only [Core.tokenStep, hb, hs', ne_eq, not_false_eq_true, if_true])
  have hs' : w.core.state = .expectColon := hs
  rw [if_neg (by simpa using hs)]
  have hstep : w.core.tokenStep (F := F) env.limits b l =
      Core.finish env.limits 1 ((w.core.move 1).goto .expectValue) [] [] := by
    simp only [Core.tokenStep, hb, hs', ne_eq, not_true_eq_false, if_false]
  have h1 := silent_refines km
    { w with consumed := w.consumed + 1, locator := w.locator.addColumn 1 }
    (f := fun t => { t with afterComma := false, state := .expectValue })
    h hstep ⟨hlt, hi.chars_le, hi.depth_eq, hi.no_number⟩
    ⟨hlt, hi.chars_le, hi.depth_eq, hi.no_number⟩ rfl rfl h.outside rfl rfl rfl rfl
  simp only [takeOne, tokenTo, ensures_bind, ensures_get, setConsumed, addColumn,
    ensures_modify] at h1 ⊢
  exact h1

/-- The first byte of a number. -/
theorem processNumber_refines (h : AtToken env w b l) (hb : tokenKind b = .number)
    (hi : w.Inv env.input) :
    Refines km env w (processNumber env b) fun _ w' => Moved w w' := by
  have hlen := h.length
  have hlt : w.consumed + 1 ≤ env.input.len := by omega
  unfold processNumber Refines
  simp only [ensures_bind, ensures_get]
  by_cases hs : w.tok.state = .expectValue
  swap
  · have hs' : w.core.state ≠ .expectValue := hs
    rw [if_pos hs]
    exact h.throw hi (by simp only [Core.tokenStep, hb, hs', ne_eq, not_false_eq_true, if_true])
  have hs' : w.core.state = .expectValue := hs
  rw [if_neg (by simpa using hs)]
  have hstep : w.core.tokenStep (F := F) env.limits b l =
      Core.finish env.limits 1 (w.core.beginNumber b) [] [] := by
    simp only [Core.tokenStep, hb, hs', ne_eq, not_true_eq_false, if_false]
  have hno : w.tok.inString = true → (NumberState.start b).stage = .none := by
    rw [h.outside]
    rintro ⟨⟩
  have h1 := silent_refines km
    { w with tok := { w.tok with number := .start b }, consumed := w.consumed + 1 }
    (f := fun t => { t with afterComma := false }) h hstep ⟨hlt, hi.chars_le, hi.depth_eq, hno⟩
    ⟨hlt, hi.chars_le, hi.depth_eq, hno⟩ rfl rfl h.outside rfl rfl rfl rfl
  simp only [ensures_bind, modifyTok, setConsumed, ensures_modify] at h1 ⊢
  exact h1

/-! ## Literals -/

omit [Double F] in
/-- The loop of `process_literal` agrees with the machine on the bytes that are there. -/
theorem checkLiteral_spec (input : Spans) : ∀ (rest : List UInt8) (i : Nat), i ≤ input.len →
    match literalFront rest (input.bytes.drop i) with
    | .bad => ∃ m, checkLiteral input i rest = .error (.err m)
    | .need => checkLiteral input i rest = .ok () ∧ input.len - i < rest.length
    | .found _ => checkLiteral input i rest = .ok () ∧ rest.length ≤ input.len - i
  | [], i, _ => ⟨rfl, Nat.zero_le _⟩
  | e :: rest, i, hi => by
    rw [checkLiteral]
    by_cases hlt : i < input.len
    swap
    · rw [if_neg hlt, List.drop_eq_nil_of_le (Nat.le_of_not_lt hlt)]
      exact ⟨rfl, by rw [List.length_cons]; omega⟩
    obtain ⟨b, l, hd⟩ : ∃ b l, input.bytes.drop i = b :: l :=
      ⟨_, _, List.drop_eq_getElem_cons hlt⟩
    have hd1 : input.bytes.drop (i + 1) = l := by rw [← List.drop_drop, hd]; rfl
    rw [if_pos hlt, input.get_eq hd, except_ok_bind, hd, literalFront]
    by_cases hb : b ≠ e
    · rw [if_pos hb, if_pos hb]
      exact ⟨_, rfl⟩
    rw [if_neg hb, if_neg hb, ← hd1]
    have := checkLiteral_spec input rest (i + 1) hlt
    revert this
    cases literalFront rest (input.bytes.drop (i + 1)) with
    | bad => exact id
    | need => exact fun h => ⟨h.1, by rw [List.length_cons]; omega⟩
    | found _ => exact fun h => ⟨h.1, by rw [List.length_cons]; omega⟩

/-- A token is complete, or the machine needs more of it. -/
def TokenLeft (env : Env F) (w : World F) (complete : Bool) (w' : World F) : Prop :=
  if complete then Moved w w'
  else w'.Flushed ∧ w'.core.next (F := F) env.limits (env.rest w') = .need

theorem TokenLeft.refl (h : AtToken env w b l)
    (hf : w.core.tokenStep (F := F) env.limits b l = .need) : TokenLeft env w false w :=
  ⟨.of_outside h.outside, h.next.trans hf⟩

/-- **`process_literal`** takes a literal that is there, leaves one that is not all there, and fails
at the first wrong byte. -/
theorem processLiteral_refines {rest : List UInt8} {value : Option Bool} (h : AtToken env w b l)
    (hb : tokenKind b = .literal rest value) (hs : w.tok.state = .expectValue)
    (hi : w.Inv env.input) :
    Refines km env w (processLiteral env rest value) (TokenLeft env w) := by
  have hs' : w.core.state = .expectValue := hs
  have hlen := h.length
  have hdrop : env.input.bytes.drop (w.consumed + 1) = l := by
    rw [← List.drop_drop]
    exact congrArg (List.drop 1) h.rest
  have hcheck := checkLiteral_spec env.input rest (w.consumed + 1) (by omega)
  rw [hdrop] at hcheck
  have hstep : w.core.tokenStep (F := F) env.limits b l =
      w.core.literalStep env.limits rest l value := by
    simp only [Core.tokenStep, hb, hs', ne_eq, not_true_eq_false, if_false]
  unfold processLiteral Refines
  simp only [ensures_bind, ensures_get]
  rw [if_neg (by omega)]
  simp only [ensures_bind]
  unfold Core.literalStep at hstep
  -- the bytes behind the first differ, are not all there, or are the rest of the literal
  cases hf : literalFront rest l with
  | bad =>
    rw [hf] at hcheck hstep
    obtain ⟨m, hm⟩ := hcheck
    rw [hm]
    exact ⟨hi, .of_fail rfl rfl (h.next.trans hstep)⟩
  | need =>
    rw [hf] at hcheck hstep
    rw [hcheck.1, ensures_ofExcept_ok, if_pos hcheck.2]
    exact Refines.pure hi (.refl h hstep)
  | found k =>
    rw [hf] at hcheck hstep
    obtain ⟨hcheck, hle⟩ := hcheck
    have hlt : w.consumed + 1 + rest.length ≤ env.input.len := by omega
    rw [hcheck, ensures_ofExcept_ok, if_neg (by omega)]
    simp only [setConsumed, addColumn, tokenTo, modifyTok, ensures_bind, ensures_modify]
    have hinv : ∀ (t : Tokenizer) (p : SharedLocator), t.inString = w.tok.inString →
        t.chars = w.tok.chars → t.charsCap = w.tok.charsCap → t.number = w.tok.number →
        t.depthStack = w.tok.depthStack → t.contextStack = w.tok.contextStack →
        World.Inv env.input ⟨t, p, w.calls, w.consumed + 1 + rest.length⟩ := by
      intro t p h1 h2 h3 h4 h5 h6
      exact ⟨hlt, by rw [h2, h3]; exact hi.chars_le, by rw [h5, h6]; exact hi.depth_eq,
        by rw [h1, h4]; exact hi.no_number⟩
    refine (tokenDone_spec env.limits _).mono ?_ ?_
    · rintro - w₁ ⟨rfl, hlim⟩
      have hfin := h.next.trans hstep
      rw [Core.finish_of_not_exceeds hlim] at hfin
      simp only [ensures_pure]
      refine callback_refines (n := 1 + rest.length) ?_ ?_ ?_ ?_ ?_ ?_ ?_ ?_ ?_ ?_
      · cases value <;> rfl
      · cases value <;> trivial
      · exact hinv _ _ rfl rfl rfl rfl rfl rfl
      · exact h.pending
      · exact hfin
      · exact Nat.add_assoc ..
      · rfl
      · rfl
      · exact h.outside
      · rintro w' ht hc
        refine ⟨?_, .of_outside (by rw [ht]; exact h.outside)⟩
        rw [hc]
        show w.consumed < w.consumed + 1 + rest.length
        omega
    · rintro e w₁ ⟨rfl, ⟨m, rfl⟩, hlim⟩
      refine ⟨hinv _ _ rfl rfl rfl rfl rfl rfl, .of_fail rfl rfl ?_⟩
      exact (h.next.trans hstep).trans (if_pos hlim)

theorem processLiteralArm_refines {rest : List UInt8} {value : Option Bool} {name : String}
    (h : AtToken env w b l) (hb : tokenKind b = .literal rest value) (hi : w.Inv env.input) :
    Refines km env w (processLiteralArm env name rest value) (TokenLeft env w) := by
  unfold processLiteralArm Refines
  simp only [ensures_bind, ensures_get]
  by_cases hs : w.tok.state = .expectValue
  · rw [if_neg (by simpa using hs)]
    exact processLiteral_refines h hb hs hi
  · have hs' : w.core.state ≠ .expectValue := hs
    rw [if_pos hs]
    exact h.throw hi (by simp only [Core.tokenStep, hb, hs', ne_eq, not_false_eq_true, if_true])

end Token

/-! ## Programs that are passed the symbol table -/

/-- A program that is passed the symbol table keeps its invariant too. -/
def KeyRefines {α : Type} (km : Nat) (env : Env F) (s : World F × Interner) (m : KeyM F α)
    (Q : α → World F → Prop) : Prop :=
  Ensures m s
    (fun a s' => s'.1.Inv env.input ∧ s'.2.Inv km ∧ (∃ new os, Ran km env s.1 s'.1 new os) ∧
      Q a s'.1)
    (fun e s' => s'.1.Inv env.input ∧ s'.2.Inv km ∧ Broke km env s.1 e s'.1)

section KeyRefines

variable {α β : Type} {env : Env F} {w : World F} {k : Interner}

/-- What a program comes to may be weakened. -/
theorem KeyRefines.mono {s : World F × Interner} {m : KeyM F α} {Q Q' : α → World F → Prop}
    (h : KeyRefines km env s m Q) (hQ : ∀ a w', Q a w' → Q' a w') : KeyRefines km env s m Q' :=
  Ensures.mono h (fun _ _ ⟨hi, hk, hr, hq⟩ => ⟨hi, hk, hr, hQ _ _ hq⟩) fun _ _ h => h

/-- A program without the table. -/
theorem Refines.zoom {m : TokM F α} {Q : α → World F → Prop} (hk : k.Inv km)
    (h : Refines km env w m Q) : KeyRefines km env (w, k) (zoom m) Q := by
  unfold KeyRefines
  rw [ensures_zoom]
  exact Ensures.mono h (fun _ _ ⟨hi, hr, hq⟩ => ⟨hi, hk, hr, hq⟩) fun _ _ ⟨hi, hb⟩ => ⟨hi, hk, hb⟩

/-- Programs one after the other. -/
theorem KeyRefines.bind {m : KeyM F α} {f : α → KeyM F β} {Q : α → World F → Prop}
    {R : β → World F → Prop} (h : KeyRefines km env (w, k) m Q)
    (hf : ∀ a w' k', w'.Inv env.input → k'.Inv km → w'.tok.chunkSize = w.tok.chunkSize →
      Q a w' → KeyRefines km env (w', k') (f a) R) :
    KeyRefines km env (w, k) (m >>= f) R := by
  unfold KeyRefines
  rw [ensures_bind]
  refine Ensures.mono h ?_ fun _ _ h => h
  rintro a ⟨w₁, k₁⟩ ⟨hi, hk, ⟨n₁, os₁, hr₁⟩, hq⟩
  refine Ensures.mono (hf a w₁ k₁ hi hk hr₁.chunkSize hq) ?_ ?_
  · rintro b ⟨w₂, k₂⟩ ⟨hi₂, hk₂, ⟨n₂, os₂, hr₂⟩, hq₂⟩
    exact ⟨hi₂, hk₂, ⟨_, _, hr₁.trans hr₂⟩, hq₂⟩
  · rintro e ⟨w₂, k₂⟩ ⟨hi₂, hk₂, hb⟩
    exact ⟨hi₂, hk₂, hb.prepend hr₁⟩

theorem KeyRefines.pure {a : α} {Q : α → World F → Prop} (hi : w.Inv env.input) (hk : k.Inv km)
    (hq : Q a w) : KeyRefines km env (w, k) (pure a) Q :=
  ⟨hi, hk, ⟨[], [], .refl km env w⟩, hq⟩

theorem KeyRefines.always {m : TokM F Unit} (hk : k.Inv km)
    (h : Refines km env w m fun _ w' => Moved w w') :
    KeyRefines km env (w, k) (always m) (TokenLeft env w) := by
  unfold RJsonParser.always
  exact (h.zoom hk).bind fun _ w' k' hi hk _ hlt => .pure hi hk hlt

end KeyRefines

/-! ## `process_token` -/

section Token

variable {env : Env F} {w : World F} {b : UInt8} {l : List UInt8} {k : Interner}

/-- The key that was reported is counted. -/
theorem keyDone_refines {w₁ : World F} (hd : KeyDone km env w w₁) (hi : w₁.Inv env.input) :
    Ensures (tokenTo env.limits .expectColon) w₁
      (fun _ w' => w'.Inv env.input ∧ (∃ new os, Ran km env w w' new os) ∧ Moved w w')
      (fun e w' => w'.Inv env.input ∧ Broke km env w e w') := by
  obtain ⟨t, n, key, hkey, hdup, hcore, hc, hcons, hchunk, hshort⟩ := hd
  have hnext := hkey.next
  rw [if_neg (by rw [hdup]; simp)] at hnext
  have hout : w₁.tok.inString = false := by
    have := congrArg Core.inString hcore
    exact this.trans hkey.token.outside
  have hloc : w₁.locator =
      (((w.core.note key).move (2 + units (t.take n))).goto .expectColon).locator := by
    rw [show (((w.core.note key).move (2 + units (t.take n))).goto .expectColon).locator =
      ((w.core.note key).move (2 + units (t.take n))).locator from rfl, ← hcore]
    rfl
  unfold tokenTo
  refine tokenDone_refines (n := n + 2)
    (c := ((w.core.note key).move (2 + units (t.take n))).goto .expectColon)
    [⟨.key key, w₁.locator⟩] ?_ ?_ ?_ hkey.token.pending ?_ ?_ ?_ hcons hchunk hchunk hc
    (piece_token (e := .key key) rfl hshort _ _) ?_
  · rw [hnext, hloc]
    rfl
  · have := congrArg Core.tokenCount hcore
    exact this.symm
  · rw [← hcore]
    rfl
  · simp [World.pending, Tokenizer.counted, hout]
  · exact ⟨hi.consumed_le, hi.chars_le, hi.depth_eq, hi.no_number⟩
  · exact ⟨hi.consumed_le, hi.chars_le, hi.depth_eq, hi.no_number⟩
  · refine ⟨?_, .of_outside hout⟩
    show w.consumed < w₁.consumed
    omega

/-- **A quote** starts a key, or a string value, as the state says. -/
theorem processQuote_refines (h : AtToken env w quote l) (hi : w.Inv env.input) (hk : k.Inv km)
    (hkm : w.tok.chunkSize ≤ km) :
    KeyRefines km env (w, k) (processQuote env) (TokenLeft env w) := by
  have hb : tokenKind quote = .quote := by decide
  unfold processQuote KeyRefines
  simp only [ensures_bind, ensures_get]
  by_cases hs : w.tok.state = .expectColon ∨ w.tok.state = .afterValue
  · rw [if_pos hs]
    refine ⟨hi, hk, .of_fail rfl rfl (h.next.trans ?_)⟩
    rcases hs with hs | hs
    · have hs' : w.core.state = .expectColon := hs
      simp only [Core.tokenStep, hb, Core.quoteStep, hs']
    · have hs' : w.core.state = .afterValue := hs
      simp only [Core.tokenStep, hb, Core.quoteStep, hs']
  rw [if_neg hs]
  by_cases hkey : w.tok.state = .expectKey
  · rw [if_pos hkey, ensures_bind]
    refine (processKey_spec h hkey hi hk hkm).mono ?_ fun _ _ h => h
    rintro complete ⟨w₁, k₁⟩ ⟨hi₁, hk₁, hdone⟩
    cases complete with
    | false =>
      simp only [Bool.false_eq_true, if_false] at hdone ⊢
      obtain ⟨rfl, hneed⟩ := hdone
      exact KeyRefines.pure hi hk₁ ⟨.of_outside h.outside, hneed⟩
    | true =>
      simp only [if_true] at hdone ⊢
      rw [ensures_bind, ensures_zoom]
      refine (keyDone_refines hdone hi₁).mono ?_ fun _ _ ⟨hi₂, hb⟩ => ⟨hi₂, hk₁, hb⟩
      rintro - w₂ ⟨hi₂, hr, hlt⟩
      exact ⟨hi₂, hk₁, hr, hlt⟩
  · rw [if_neg hkey]
    have hvalue : w.tok.state = .expectValue := by
      cases hstate : w.tok.state <;> simp_all
    exact KeyRefines.always hk (startString_refines h hb hvalue hi)

/-- **`process_token`**: the token that is next is complete, or the machine needs more of it. -/
theorem processToken_refines (h : AtToken env w b l) (hi : w.Inv env.input) (hk : k.Inv km)
    (hkm : w.tok.chunkSize ≤ km) :
    KeyRefines km env (w, k) (processToken env b) (TokenLeft env w) := by
  unfold processToken
  by_cases hq : b = quote
  · subst hq
    rw [if_pos rfl]
    exact processQuote_refines h hi hk hkm
  rw [if_neg hq]
  -- the arms in the order of the source; the first byte gives the kind of the token
  by_cases h1 : b = 0x2C
  · subst h1
    rw [if_pos rfl]
    exact .always hk (processComma_refines h (by decide) hi)
  rw [if_neg h1]
  by_cases h2 : b = 0x3A
  · subst h2
    rw [if_pos rfl]
    exact .always hk (processColon_refines h (by decide) hi)
  rw [if_neg h2]
  by_cases h3 : b = 0x7B
  · subst h3
    rw [if_pos rfl]
    exact .always hk (processOpenObject_refines h (by decide) hi)
  rw [if_neg h3]
  by_cases h4 : b = 0x7D
  · subst h4
    rw [if_pos rfl]
    exact .always hk (processCloseObject_refines h (by decide) hi)
  rw [if_neg h4]
  by_cases h5 : b = 0x5B
  · subst h5
    rw [if_pos rfl]
    exact .always hk (processOpenArray_refines h (by decide) hi)
  rw [if_neg h5]
  by_cases h6 : b = 0x5D
  · subst h6
    rw [if_pos rfl]
    exact .always hk (processCloseArray_refines h (by decide) hi)
  rw [if_neg h6]
  by_cases h7 : b = 0x74
  · subst h7
    rw [if_pos rfl]
    exact Refines.zoom hk (processLiteralArm_refines h (by decide) hi)
  rw [if_neg h7]
  by_cases h8 : b = 0x66
  · subst h8
    rw [if_pos rfl]
    exact Refines.zoom hk (processLiteralArm_refines h (by decide) hi)
  rw [if_neg h8]
  by_cases h9 : b = 0x6E
  · subst h9
    rw [if_pos rfl]
    exact Refines.zoom hk (processLiteralArm_refines h (by decide) hi)
  rw [if_neg h9]
  have hkind : tokenKind b = if b = 0x2D ∨ isDigit b then .number else .other := by
    simp [tokenKind, hq, h1, h2, h3, h4, h5, h6, h7, h8, h9]
  by_cases h10 : b = 0x2D ∨ isDigit b = true
  · rw [if_pos h10] at hkind ⊢
    exact .always hk (processNumber_refines h hkind hi)
  · rw [if_neg h10] at hkind ⊢
    refine ⟨hi, hk, .of_fail rfl rfl (h.next.trans ?_)⟩
    simp only [Core.tokenStep, hkind]

end Token

end RJsonParser
