import RJsonParser.Properties.Reset
import RJsonParser.Properties.Tally

/-!
# Counters in range

The counters of the model have no bounds, those of the source are of the types `i32`, `i64`, `u64`
and `usize`. Whatever a caller does with fewer than about 2^31 bytes in fewer than as many calls, no
counter leaves the range of its type, so the two count the same.

* `Parser.Tallied` — the counters of a parser after so many bytes and failed calls
* `Session.Tallied` — those of a session, with so many bytes in the document
* `runAll_tallied` — what any calls come to
* `no_overflow` — all of them in range
-/

namespace RJsonParser

open Infra Infra.Utf8

variable {F : Type} {b k km lost n : Nat}

/-! ## A parser -/

/-- What a parser counts, after `b` bytes were consumed and `lost` calls failed. -/
structure Parser.Tallied (lost b : Nat) (p : Parser F) : Prop where
  line : p.locator.line ≤ b + 1
  column : p.locator.column ≤ b + 1
  tokenizer : ∀ t, p.tokenizer = some t → KeyTally .within lost b 0 (p.world t, p.interner)

theorem KeyTally.weaken {s : World F × Interner} (h : KeyTally .within lost b k s) {lost' b' : Nat}
    (hlost : lost ≤ lost') (hb : b ≤ b') : KeyTally .within lost' b' k s :=
  ⟨h.world.weaken (Nat.sub_le_sub_left hlost _) hb, h.hits⟩

theorem Parser.Tallied.weaken {p : Parser F} (h : p.Tallied lost b) {lost' b' : Nat}
    (hlost : lost ≤ lost') (hb : b ≤ b') : p.Tallied lost' b' :=
  ⟨h.line.trans (by omega), h.column.trans (by omega),
    fun t ht => (h.tokenizer t ht).weaken hlost hb⟩

/-- What was consumed in a call was consumed before the next. -/
theorem Parser.Tallied.resumed {p : Parser F} {s : World F × Interner}
    (h : KeyTally .within lost b 0 s) :
    (p.resumed s).Tallied lost (b + s.1.consumed) := by
  obtain ⟨⟨h1, h2, h3, h4, h5, h6, h7⟩, hhits⟩ := h
  refine ⟨h5, (Nat.le_add_right _ _).trans h6, ?_⟩
  rintro t ht
  cases ht
  exact ⟨⟨h1, h2, h3, h4, h5, h6, h7⟩, hhits⟩

/-- A new tokenizer has counted nothing. -/
theorem Parser.Tallied.begun {h : Handler F} {p : Parser F} (ht : p.tokenizer = none)
    (hp : p.Tallied lost b) : (p.begun h).Tallied lost b := by
  rw [Parser.begun_eq ht]
  refine ⟨hp.line, hp.column, ?_⟩
  rintro t ht
  cases ht
  refine ⟨⟨?_, ?_, ?_, NumberState.new_within.mono ?_, hp.line, hp.column, ?_⟩, le_rfl⟩
  · exact Nat.zero_le _
  · exact Nat.zero_le _
  · exact Nat.zero_le _
  · exact Nat.zero_le _
  · exact (Nat.zero_sub lost).trans_le (Nat.zero_le _)

/-- What is changed is neither the locator nor the tokenizer. -/
theorem Parser.Tallied.of_eq {p p' : Parser F} (hp : p.Tallied lost b)
    (hl : p'.locator = p.locator) (hc : p'.calls = p.calls) (hk : p'.interner = p.interner)
    (ht : p'.tokenizer = p.tokenizer) : p'.Tallied lost b := by
  refine ⟨by rw [hl]; exact hp.line, by rw [hl]; exact hp.column, fun t h => ?_⟩
  rw [ht] at h
  have := hp.tokenizer t h
  unfold Parser.world at this ⊢
  rwa [hl, hc, hk]

section Calls

variable [Double F] {h : Handler F} {p : Parser F} {input : Spans}

/-- The tokenizer's `receive`. -/
theorem withTokenizer_receive_tallied {t : Tokenizer} (hi : p.Inv km) (ht : p.tokenizer = some t)
    (hp : p.Tallied lost b) (env : Env F) (c : Nat) :
    Ensures (withTokenizer (receive env)) (p, c)
      (fun _ s => ∃ m, s.2 = c + m ∧ s.1.Tallied lost (b + m))
      (fun _ s => ∃ m, s.2 = c + m ∧ s.1.Tallied (lost + 1) (b + m)) := by
  obtain ⟨htok, hchunk⟩ := hi.tokenizer t ht
  rw [ensures_withTokenizer ht]
  have hkm : (p.world t).tok.chunkSize ≤ km := by
    show (t.chunkSize : Nat) ≤ km
    rw [hchunk]
    exact hi.chunk
  have hrun : Ensures (receive env) (p.world t, p.interner) (fun _ => KeyTally .within lost b 0)
      (fun _ => KeyTally .within (lost + 1) b 0) :=
    receive_tally (htok.world _ _ _) hi.interner hkm (hp.tokenizer t ht)
  refine hrun.mono ?_ ?_
  · exact fun _ s hs => ⟨_, rfl, Parser.Tallied.resumed hs⟩
  · exact fun _ s hs => ⟨_, rfl, Parser.Tallied.resumed hs⟩

/-- **`process`** counts no more than it consumes, and one key more where it fails. -/
theorem process_tallied (hi : p.Inv km) (hp : p.Tallied lost b) :
    Ensures (process h input) (p, 0) (fun _ s => s.1.Tallied lost (b + s.2))
      (fun _ s => s.1.Tallied (lost + 1) (b + s.2)) := by
  cases ht : p.tokenizer with
  | some t =>
    unfold Ensures
    rw [process_started (by rw [hi.bom, ht]; rfl) ht]
    refine (withTokenizer_receive_tallied hi ht hp _ 0).mono ?_ ?_
    · rintro - s ⟨m, hm, hs⟩
      rwa [hm, Nat.zero_add]
    · rintro e s ⟨m, hm, hs⟩
      rwa [hm, Nat.zero_add]
  | none =>
    unfold Ensures
    rw [process_fresh (by rw [hi.bom, ht]; rfl)]
    rcases checkBom input with e | (_ | k)
    · exact hp.weaken (Nat.le_succ lost) le_rfl
    · exact hp
    · obtain ⟨hi', -, -⟩ := hi.begun (h := h) ht
      have htok : ∃ t, (p.begun h).tokenizer = some t := by
        rw [Parser.begun_eq ht]
        exact ⟨_, rfl⟩
      obtain ⟨t, ht'⟩ := htok
      refine (withTokenizer_receive_tallied hi' ht' (hp.begun ht) _ (0 + k)).mono ?_ ?_
      · rintro - s ⟨m, hm, hs⟩
        exact hs.weaken le_rfl (by omega)
      · rintro e s ⟨m, hm, hs⟩
        exact hs.weaken le_rfl (by omega)

end Calls

/-! ## A session -/

/-- What a session counts, after `n` bytes were written and `lost` calls failed. The length of the
document is apart: where a call fails, the bytes it leaves are counted again. -/
structure Session.Tallied (lost n d : Nat) (s : Session F) : Prop where
  parser : ∃ b, b + s.buf.len ≤ n ∧ s.parser.Tallied lost b
  document : s.parser.documentLength ≤ d

theorem Session.Tallied.weaken {s : Session F} {lost' n' d d' : Nat} (hs : s.Tallied lost n d)
    (hlost : lost ≤ lost') (hn : n ≤ n') (hd : d ≤ d') : s.Tallied lost' n' d' := by
  obtain ⟨⟨b, hb, hp⟩, hdoc⟩ := hs
  exact ⟨⟨b, hb.trans hn, hp.weaken hlost le_rfl⟩, hdoc.trans hd⟩

/-- A method that leaves the counters of the tokenizer alone. -/
theorem Session.Tallied.modifyParser {s : Session F} {d : Nat} (hs : s.Tallied lost n d)
    {f : Parser F → Parser F} (hl : (f s.parser).locator = s.parser.locator)
    (hc : (f s.parser).calls = s.parser.calls) (hk : (f s.parser).interner = s.parser.interner)
    (ht : (f s.parser).tokenizer = s.parser.tokenizer)
    (hd : (f s.parser).documentLength = s.parser.documentLength) :
    Session.Tallied lost n d { s with parser := f s.parser } := by
  obtain ⟨⟨b, hb, hp⟩, hdoc⟩ := hs
  exact ⟨⟨b, hb, hp.of_eq hl hc hk ht⟩, hd.trans_le hdoc⟩

section Session

variable {h : Handler F} {s : Session F} {d : Nat}

theorem countDocument_tallied (hs : s.Tallied lost n d) (m : Nat) :
    Ensures (countDocument m) s (fun _ s' => s'.Tallied lost n (d + m) ∧ s'.buf = s.buf)
      (fun _ s' => s'.Tallied lost n (d + m)) := by
  have hdoc := hs.document
  obtain ⟨b, hb, hp⟩ := hs.parser
  have hcount {k : Nat} (hk : k ≤ d + m) :
      Session.Tallied lost n (d + m) { s with parser := { s.parser with documentLength := k } } :=
    ⟨⟨b, hb, hp.of_eq rfl rfl rfl rfl⟩, hk⟩
  unfold countDocument
  rw [ensures_bind, ensures_get]
  cases s.parser.limits.maxDocumentLength with
  | none => exact ⟨hs.weaken le_rfl le_rfl (Nat.le_add_right d m), rfl⟩
  | some max =>
    simp only [RJsonParser.modifyParser, ensures_bind, ensures_modify]
    have hle : s.parser.documentLength + (m - s.parser.unconsumed) ≤ d + m := by omega
    rw [ensures_ite]
    split_ifs
    · exact hcount hle
    · exact ⟨hcount hle, rfl⟩

theorem withTokenizer_document {α : Type} (m : KeyM F α) :
    Keeps (fun q : Parser F × Nat => q.1.documentLength ≤ d) (withTokenizer m) := by
  rintro ⟨p, c⟩ hp
  cases ht : p.tokenizer with
  | none =>
    unfold Ensures
    rw [withTokenizer_none ht]
    exact hp
  | some t =>
    rw [ensures_withTokenizer ht]
    exact (Ensures.trivial m _).mono (fun _ _ _ => hp) fun _ _ _ => hp

variable [Double F]

theorem process_document (input : Spans) :
    Keeps (fun q : Parser F × Nat => q.1.documentLength ≤ d) (process h input) := by
  unfold process skipBom
  refine .bind
    (.get_bind fun q hq => .ite (.pure _) (.bind (.ofExcept _) fun bom => ?_)) fun o => ?_
  · cases bom with
    | needMore => exact .pure _
    | skip n => exact .bind (fun _ _ => hq) fun _ => .pure _
  · cases o with
    | none => exact .pure _
    | some input =>
      refine .bind (.modify fun q hq => ?_) fun _ => .get_bind fun q _ => withTokenizer_document _
      show (q.1.startTokenizer h).documentLength ≤ d
      unfold Parser.startTokenizer
      split <;> exact hq

/-- What is released of the ring was counted. -/
theorem processRing_tallied (hs : s.Tallied lost n d) (hi : s.parser.Inv km)
    (hne : s.buf.bytes ≠ []) :
    Ensures (processRing h) s (fun _ s' => s'.Tallied (lost + 1) n d)
      (fun _ s' => s'.Tallied (lost + 1) n d) := by
  obtain ⟨b, hb, hp⟩ := hs.parser
  have hspec := process_spec (h := h) hi (by rw [LoopBuf.spans_bytes]; exact hne)
  rw [show s.buf.spans.len = s.buf.len from congrArg List.length s.buf.spans_bytes] at hspec
  have hrun :=
    (hspec.and (process_tallied hi hp)).and (process_document _ (s.parser, 0) hs.document)
  have hleft {k : Nat} (hk : k ≤ s.buf.len) : b + k + (s.buf.advance k).len ≤ n := by
    show b + k + (s.buf.bytes.drop k).length ≤ n
    have hlen : s.buf.bytes.length = s.buf.len := rfl
    rw [List.length_drop]
    omega
  refine (processRing_spec hrun).mono ?_ ?_
  · rintro k s' ⟨p', rfl, ⟨⟨hk, -⟩, htally⟩, hdoc⟩
    exact ⟨⟨b + k, hleft hk, htally.weaken (Nat.le_succ lost) le_rfl⟩, hdoc⟩
  · rintro e s' ⟨p', k, rfl, ⟨⟨hk, -⟩, htally⟩, hdoc⟩
    exact ⟨⟨b + k, hleft hk, htally⟩, hdoc⟩

/-- **`feed`** counts what is in the ring. -/
theorem feed_tallied (checkRoom : Bool) (hi : s.parser.Inv km) (hs : s.Tallied lost n d) :
    Ensures (feed h checkRoom) s (fun _ s' => s'.Tallied (lost + 1) n (d + n))
      (fun _ s' => s'.Tallied (lost + 1) n (d + n)) := by
  obtain ⟨b, hb, -⟩ := hs.parser
  have hlen : s.buf.len ≤ n := (Nat.le_add_left _ _).trans hb
  unfold feed
  rw [ensures_bind, ensures_get]
  by_cases hzero : s.buf.len = 0
  · rw [if_pos hzero]
    exact hs.weaken (Nat.le_succ lost) le_rfl (Nat.le_add_right d n)
  have hne : s.buf.bytes ≠ [] := fun h => hzero (by rw [LoopBuf.len, h]; rfl)
  rw [if_neg hzero, ensures_bind]
  refine ((countDocument_spec s.buf.len s).and (countDocument_tallied hs s.buf.len)).mono ?_ ?_
  swap
  · exact fun _ _ h => h.2.weaken (Nat.le_succ lost) le_rfl (Nat.add_le_add_left hlen d)
  rintro - s₁ ⟨⟨k, rfl⟩, hs₁, -⟩
  have hi₁ : Parser.Inv km { s.parser with documentLength := k } :=
    hi.counted k s.parser.unconsumed s.parser.underflow
  rw [ensures_bind]
  have hs₁' := hs₁.weaken (le_refl lost) (le_refl n) (Nat.add_le_add_left hlen d)
  refine (processRing_tallied hs₁' hi₁ hne).mono ?_ fun _ _ h => h
  intro consumed s₂ hs₂
  simp only [RJsonParser.modifyParser, ensures_bind, ensures_get, ensures_modify]
  have hs₃ := hs₂.modifyParser (f := fun p =>
    { p with unconsumed := s₂.buf.len, underflow := decide (0 < s₂.buf.len) }) rfl rfl rfl rfl rfl
  rw [ensures_ite]
  split_ifs
  · exact hs₃
  · exact hs₃

theorem endOfInput_consumed (c : Nat) : Keeps (fun w : World F => w.consumed = c)
    (endOfInput h) := by
  unfold endOfInput
  refine .get_bind fun w hw => .ite (.throw _) ?_
  cases w.tok.number.stage with
  | none => exact .pure _
  | afterMinus | fractionDot | exponentMark | exponentSign => exact .throw _
  | zero | integer | fraction | exponent =>
    unfold emitNumber callback
    refine .get_bind fun w _ => .bind (.modify fun _ h => h) fun _ =>
      .bind (.modify fun _ h => h) fun _ => ?_
    refine .bind (.modify fun _ h => h) fun _ => .get_bind fun w _ => ?_
    cases h.reply w.calls with
    | none => exact .pure _
    | some err => exact .throw _

theorem closeTokenizer_tallied : Keeps (Session.Tallied lost n d) (closeTokenizer h) := by
  intro s hs
  obtain ⟨b, hb, hp⟩ := hs.parser
  have hend : Ensures (withTokenizer (zoom (endOfInput h))) (s.parser, 0)
      (fun _ q => q.1.Tallied lost b ∧ q.1.documentLength ≤ d)
      (fun _ q => q.1.Tallied lost b ∧ q.1.documentLength ≤ d) := by
    cases ht : s.parser.tokenizer with
    | none =>
      unfold Ensures
      rw [withTokenizer_none ht]
      exact ⟨hp, hs.document⟩
    | some t =>
      rw [ensures_withTokenizer ht, ensures_zoom]
      have htally := hp.tokenizer t ht
      have hafter {w : World F} (hw : Tally .within (s.parser.interner.attempts - lost) b 0 w)
          (hc : w.consumed = 0) : (s.parser.resumed (w, s.parser.interner)).Tallied lost b := by
        have := Parser.Tallied.resumed (p := s.parser) (s := (w, s.parser.interner))
          ⟨hw, htally.hits⟩
        rwa [hc] at this
      refine ((Counts.endOfInput h _ htally.world).and
        (endOfInput_consumed 0 (s.parser.world t) rfl)).mono ?_ ?_
      · exact fun _ w hw => ⟨hafter hw.1 hw.2, hs.document⟩
      · exact fun _ w hw => ⟨hafter hw.1 hw.2, hs.document⟩
  unfold Ensures at hend ⊢
  unfold closeTokenizer
  cases hr : withTokenizer (zoom (endOfInput h)) (s.parser, 0) with
  | ok a q =>
    rw [hr] at hend
    exact ⟨⟨b, hb, hend.1⟩, hend.2⟩
  | error e q =>
    rw [hr] at hend
    exact ⟨⟨b, hb, hend.1⟩, hend.2⟩

omit [Double F] in
theorem checkComplete_tallied : Keeps (Session.Tallied (F := F) lost n d) checkComplete := by
  unfold checkComplete
  refine .get_bind fun s _ => ?_
  cases s.parser.tokenizer with
  | none => exact .throw _
  | some t =>
    refine .ite (.throw _) ?_
    cases t.depthStack with
    | nil => exact .pure _
    | cons token rest => cases token <;> exact .throw _

theorem closeFeed_tallied (hs : s.Tallied lost n d) (hi : s.parser.Inv km) :
    Ensures (closeFeed h) s (fun _ s' => s'.Tallied (lost + 1) n (d + n))
      (fun _ s' => s'.Tallied (lost + 1) n (d + n)) := by
  unfold closeFeed
  rw [ensures_bind, ensures_get]
  cases s.parser.tokenizer with
  | none =>
    dsimp only
    rw [ensures_bind]
    refine (feed_tallied false hi hs).mono (fun _ s₁ hs₁ => ?_) fun _ _ h => h
    rw [ensures_bind, ensures_get, ensures_ite]
    split_ifs
    · exact hs₁
    · exact hs₁
  | some t =>
    dsimp only
    rw [ensures_ite]
    split_ifs
    · exact feed_tallied false hi hs
    · exact hs.weaken (Nat.le_succ lost) le_rfl (Nat.le_add_right d n)

theorem close_tallied (hi : s.parser.Inv km) (hs : s.Tallied lost n d) :
    Ensures (Parser.close h) s (fun _ s' => s'.Tallied (lost + 1) n (d + n))
      (fun _ s' => s'.Tallied (lost + 1) n (d + n)) := by
  unfold Parser.close
  rw [ensures_bind, ensures_get, ensures_ite]
  split_ifs
  · exact hs.weaken (Nat.le_succ lost) le_rfl (Nat.le_add_right d n)
  simp only [RJsonParser.modifyParser, ensures_bind, ensures_modify]
  have hclosing := hs.modifyParser (f := fun p => { p with closed := true }) rfl rfl rfl rfl rfl
  refine (closeFeed_tallied hclosing ⟨hi.tokenizer, hi.bom, hi.interner, hi.chunk⟩).mono ?_
    fun _ _ h => h
  intro _ s₁ hs₁
  rw [ensures_get, ensures_ite]
  split_ifs
  · exact hs₁
  · rw [ensures_bind]
    exact (closeTokenizer_tallied s₁ hs₁).mono (fun _ s₂ hs₂ => checkComplete_tallied s₂ hs₂)
      fun _ _ h => h

/-! ## The steps of a caller -/

/-- What a step can add to a counter: the bytes that it writes, and one for the call. -/
def Op.cost : Op → Nat
  | .write bytes _ => bytes.length + 1
  | .ring .. | .receive | .close | .reset | .setLimits _ | .setRejectDuplicateKeys _
  | .setStringChunkSize _ => 1

/-- The bytes that a step writes. -/
def Op.size : Op → Nat
  | .write bytes _ => bytes.length
  | .ring .. | .receive | .close | .reset | .setLimits _ | .setRejectDuplicateKeys _
  | .setStringChunkSize _ => 0

theorem Op.cost_eq (op : Op) : op.cost = op.size + 1 := by
  cases op <;> rfl

/-- **One step**, whatever it returns. -/
theorem Op.exec_tallied (op : Op) (hi : s.parser.Inv km) (hs : s.Tallied lost n d) :
    Ensures (op.exec h) s (fun _ s' => s'.Tallied (lost + 1) (n + op.size) (d + n))
      (fun _ s' => s'.Tallied (lost + 1) (n + op.size) (d + n)) := by
  obtain ⟨b, hb, hp⟩ := hs.parser
  have hdoc : s.parser.documentLength ≤ d + n := hs.document.trans (Nat.le_add_right d n)
  have hp' := hp.weaken (Nat.le_succ lost) le_rfl
  cases op with
  | write bytes layout =>
    refine ⟨⟨b, ?_, hp'⟩, hdoc⟩
    show b + (s.buf.bytes ++ bytes.take s.buf.spareLen).length ≤ n + bytes.length
    have hlen : s.buf.bytes.length = s.buf.len := rfl
    rw [List.length_append, List.length_take]
    omega
  | ring capacity layout => exact ⟨⟨b, (Nat.le_add_right _ _).trans hb, hp'⟩, hdoc⟩
  | receive =>
    show Ensures (Parser.receive h) s _ _
    unfold Parser.receive
    rw [ensures_bind, ensures_get, ensures_ite]
    split_ifs
    · exact hs.weaken (Nat.le_succ lost) le_rfl (Nat.le_add_right d n)
    · exact feed_tallied true hi hs
  | close => exact close_tallied hi hs
  | reset =>
    refine ⟨⟨b, hb, Nat.le_add_left 1 b, Nat.le_add_left 1 b, ?_⟩, Nat.zero_le _⟩
    intro t ht
    cases ht
  | setLimits limits => exact ⟨⟨b, hb, hp'.of_eq rfl rfl rfl rfl⟩, hdoc⟩
  | setRejectDuplicateKeys r => exact ⟨⟨b, hb, hp'.of_eq rfl rfl rfl rfl⟩, hdoc⟩
  | setStringChunkSize m =>
    refine ⟨⟨b, hb, hp.line, hp.column, ?_⟩, hdoc⟩
    intro t ht
    obtain ⟨t', ht', rfl⟩ := Option.map_eq_some_iff.mp ht
    obtain ⟨⟨h1, h2, h3, h4, h5, h6, h7⟩, hhits⟩ := hp'.tokenizer t' ht'
    exact ⟨⟨h1, h2, h3, h4, h5, h6, h7⟩, hhits⟩

/-- What some steps can add to a counter. -/
def cost (ops : List Op) : Nat := (ops.map Op.cost).sum

/-- **No counter runs ahead** of the bytes written and the calls made, whatever the calls return. -/
theorem runAll_tallied (ops : List Op) : ∀ {lost n d m : Nat} {s : Session F}, Reachable h s →
    s.Tallied lost n d → lost + n ≤ m → d ≤ m * m →
      ∃ lost' n', lost' + n' ≤ m + cost ops ∧
        (runAll h ops s).2.Tallied lost' n' ((m + cost ops) * (m + cost ops)) := by
  induction ops with
  | nil => exact fun _ hs hm hd => ⟨_, _, hm, hs.weaken le_rfl le_rfl hd⟩
  | cons op ops ih =>
    intro lost n d m s hr hs hm hd
    obtain ⟨km, hi⟩ := hr.inv
    have hstep : (op.result h s).2.Tallied (lost + 1) (n + op.size) (d + n) :=
      Op.result_of_ensures (op.exec_tallied hi hs)
    have hcost := op.cost_eq
    have hsquare : d + n ≤ (m + op.cost) * (m + op.cost) :=
      calc d + n ≤ m * m + m := by omega
        _ = m * (m + 1) := (Nat.mul_succ m m).symm
        _ ≤ (m + op.cost) * (m + op.cost) := Nat.mul_le_mul (by omega) (by omega)
    have hrun := ih (hr.step op) hstep (m := m + op.cost) (by omega) hsquare
    rwa [Nat.add_assoc] at hrun

end Session

/-! ## The types of the source -/

/-- In the range of a signed type of so many bits. -/
def FitsSigned (bits : Nat) (v : Int) : Prop := -2 ^ (bits - 1) ≤ v ∧ v < 2 ^ (bits - 1)

/-- In the range of an unsigned type of so many bits. -/
def FitsUnsigned (bits n : Nat) : Prop := n < 2 ^ bits

/-- The accumulators of a number, and the power of ten that `real_value` computes of them. -/
structure NumberState.InRange (s : NumberState) : Prop where
  length : FitsUnsigned 32 s.length
  mantissa : FitsSigned 64 s.mantissa
  decimalShift : FitsSigned 32 s.decimalShift
  firstDropped : FitsSigned 32 s.firstDropped
  exponent : FitsSigned 32 s.exponent
  scale : ∀ e : Int, e.natAbs = s.exponent → FitsSigned 32 (e + s.decimalShift)

/-- All that a parser and its tokenizer count, a `usize` having 32 bits at least. -/
structure Parser.InRange (p : Parser F) : Prop where
  line : FitsUnsigned 32 p.locator.line
  column : FitsUnsigned 32 p.locator.column
  documentLength : FitsUnsigned 64 p.documentLength
  tokenCount : ∀ t, p.tokenizer = some t → FitsSigned 64 t.tokenCount
  depth : ∀ t, p.tokenizer = some t → FitsUnsigned 32 t.depthStack.length
  stringBytes : ∀ t, p.tokenizer = some t → FitsUnsigned 64 t.stringBytes
  number : ∀ t, p.tokenizer = some t → t.number.InRange
  attempts : p.tokenizer ≠ none → FitsSigned 32 p.interner.attempts
  hits : p.tokenizer ≠ none → FitsSigned 32 p.interner.hits

theorem NumberState.Within.inRange {s : NumberState} (hs : s.Within n) (hn : n + 1000000 < 2 ^ 31) :
    s.InRange := by
  obtain ⟨hlength, hmantissa, hshift, hexponent, hlow, hhigh⟩ := hs
  have hmax : i64Max = 9223372036854775807 := rfl
  refine ⟨?_, ?_, ?_, ?_, ?_, fun e he => ?_⟩
  · show s.length < 2 ^ 32
    omega
  all_goals
    unfold FitsSigned
    omega

theorem Session.Tallied.inRange {s : Session F} {d : Nat} (hs : s.Tallied lost n d)
    (hn : lost + n + 1000000 < 2 ^ 31) (hd : d < 2 ^ 64) : s.parser.InRange := by
  obtain ⟨⟨b, hb, hline, hcolumn, htok⟩, hdoc⟩ := hs
  have hbn : b ≤ n := (Nat.le_add_right _ _).trans hb
  refine ⟨?_, ?_, hdoc.trans_lt hd, fun t ht => ?_, fun t ht => ?_, fun t ht => ?_, fun t ht => ?_,
    fun ht => ?_, fun ht => ?_⟩
  · show s.parser.locator.line < 2 ^ 32
    omega
  · show s.parser.locator.column < 2 ^ 32
    omega
  · have htokens : t.tokenCount ≤ b := (htok t ht).world.tokens
    unfold FitsSigned
    omega
  · have hnesting : t.depthStack.length ≤ b := (htok t ht).world.nesting
    show t.depthStack.length < 2 ^ 32
    omega
  · have hstring : t.stringBytes ≤ b := (htok t ht).world.string
    show t.stringBytes < 2 ^ 64
    omega
  · exact ((htok t ht).world.number.mono hbn).inRange (by omega)
  all_goals
    obtain ⟨t, ht⟩ := Option.ne_none_iff_exists'.mp ht
    have hkeys : s.parser.interner.attempts - lost ≤ b := (htok t ht).world.keys
    have hhits : s.parser.interner.hits ≤ s.parser.interner.attempts := (htok t ht).hits
    unfold FitsSigned
    omega

section Overflow

variable [Double F] {h : Handler F}

/-- **Nothing overflows**: where a caller writes less than about 2^31 bytes in as many calls,
whatever they return, everything that the parser counts stays in the range of the type that the
source counts it in. -/
theorem no_overflow (calls : List (Call F)) (bufferSize capacity : Nat) (layout : Layout)
    {ops : List Op} (hops : cost ops + 1000000 < 2 ^ 31) :
    (runAll h ops ⟨.withBufferSize calls bufferSize,
      .empty capacity layout.1 layout.2⟩).2.parser.InRange := by
  have hnew : Session.Tallied 0 0 0 (⟨.withBufferSize calls bufferSize,
      .empty capacity layout.1 layout.2⟩ : Session F) :=
    ⟨⟨0, le_rfl, le_rfl, le_rfl, by rintro t ⟨⟩⟩, le_rfl⟩
  obtain ⟨lost, n, hle, hrun⟩ := runAll_tallied ops
    (.new (h := h) calls bufferSize capacity layout) hnew (le_refl 0) (le_refl 0)
  rw [Nat.zero_add] at hle hrun
  refine hrun.inRange (by omega) ?_
  calc cost ops * cost ops ≤ 2 ^ 31 * 2 ^ 31 := Nat.mul_le_mul (by omega) (by omega)
    _ < 2 ^ 64 := by decide

/-- A document with a number in it, and one that is rejected. -/
def numberThenRejected : List Op :=
  [.write [0x5B, 0x2D, 0x32, 0x2E, 0x35, 0x65, 0x33, 0x5D] (.split 3), .receive, .close, .reset,
    .write [0x7B, 0x7B] (.split 0), .receive, .receive]

theorem no_overflow_documents :
    cost numberThenRejected = 17 ∧
      (runAll (F := Rat) .accepting numberThenRejected
        ⟨.withBufferSize [] 64, .empty 64 (Layout.split 0).1
          (Layout.split 0).2⟩).2.parser.InRange :=
  ⟨by decide, no_overflow [] 64 64 (.split 0) (by decide)⟩

end Overflow

end RJsonParser
