import RJsonParser.Properties.Failing
import RJsonParser.Properties.Outcome
import RJsonParser.Properties.Reset

/-!
# What is rejected stays rejected

After a call of `receive` that returned an error a caller may still write, call `receive` again, and
call `close`. A document of which a call was refused is never reported complete.

* `Session.Rejected` — what an error leaves behind
* `Op.exec_rejects` — a step that fails leaves it behind, and every further step keeps it
* `rejected_stays`, `refused_incomplete` — `close` does not succeed
-/

namespace RJsonParser

open Infra Infra.Utf8

variable {F : Type} [Double F]

/-! ## A call of the tokenizer -/

/-- The machine is bound to fail where the parser stands. -/
abbrev Parser.Dooms (h : Handler F) (p : Parser F) (l : List UInt8) : Prop :=
  RJsonParser.Dooms F p.limits p.stringChunkSize (p.core h) l

/-- The machine goes on from one parser to another, over no key that is too long. -/
def Parser.Goes (h : Handler F) (p p' : Parser F) (l l' : List UInt8) : Prop :=
  ∃ os, (machine F p.limits).Steps (p.core h) l os (p'.core h) l' ∧
    ∀ key q, (.key key, q) ∈ os → byteLen key ≤ p.stringChunkSize

variable {h : Handler F} {p p' : Parser F} {l l' : List UInt8}

theorem Parser.Goes.refl (p : Parser F) (l : List UInt8) : p.Goes h p l l :=
  ⟨[], .refl, fun _ _ hm => absurd hm List.not_mem_nil⟩

/-- Where the machine goes on, it is still bound to fail. -/
theorem Parser.Goes.dooms (hg : p.Goes h p' l l') (hlimits : p'.limits = p.limits)
    (hchunk : p'.stringChunkSize = p.stringChunkSize) (hd : p.Dooms h l) : p'.Dooms h l' := by
  obtain ⟨os, hsteps, hkeys⟩ := hg
  unfold Parser.Dooms
  rw [hlimits, hchunk]
  exact hd.steps hsteps hkeys

/-- What a call of the tokenizer does where it returns no error. -/
structure Parser.Passes (h : Handler F) (p p' : Parser F) (l l' : List UInt8) : Prop where
  same : p.Same p'
  goes : p.Goes h p' l l'

/-- What it leaves behind where it stops with one. -/
structure Parser.Fails (h : Handler F) (p : Parser F) (e : Stop) (p' : Parser F) (l : List UInt8) :
    Prop where
  same : p.Same p'
  sticks : Late h e ∨ p'.Dooms h l

/-- The tokenizer's `receive`. -/
theorem withTokenizer_receive_sticks (hi : p.Inv p.stringChunkSize) {t : Tokenizer}
    (ht : p.tokenizer = some t) (input : Spans) (c : Nat) (hf : input.len = 0 → p.Flushed) :
    Ensures (withTokenizer (receive ⟨h, p.limits, input⟩)) (p, c)
      (fun _ s => ∃ n, s.2 = c + n ∧ p.Passes h s.1 input.bytes (input.bytes.drop n))
      (fun e s => ∃ n, s.2 = c + n ∧ p.Fails h e s.1 (input.bytes.drop n)) := by
  obtain ⟨hti, hchunk⟩ := hi.tokenizer t ht
  have hw : (p.world t).Inv input := hti.world ..
  have hkm : ((p.world t).tok.chunkSize : Nat) ≤ p.stringChunkSize := by
    show (t.chunkSize : Nat) ≤ _
    rw [hchunk]
  rw [ensures_withTokenizer ht]
  refine (Ensures.and (receive_refines hw hi.interner hkm fun h0 hs => hf h0.symm t ht hs)
    (receive_sticks hw hi.interner hkm)).mono ?_ ?_
  · rintro - ⟨w, k⟩ ⟨⟨-, -, ⟨new, os, hran⟩, -⟩, -⟩
    refine ⟨w.consumed, rfl, ⟨rfl, rfl, rfl, rfl, rfl, fun _ => rfl⟩, os, ?_, hran.keys⟩
    rw [Parser.core_some ht]
    exact hran.steps
  · rintro e ⟨w, k⟩ ⟨⟨-, -, hbroke⟩, hsticks⟩
    have hchunk' : w.tok.chunkSize = p.stringChunkSize := hbroke.chunkSize.trans hchunk
    refine ⟨w.consumed, rfl, ⟨rfl, rfl, rfl, rfl, rfl, fun _ => rfl⟩,
      hsticks.imp id fun hdooms => ?_⟩
    unfold Doomed at hdooms
    rwa [hchunk'] at hdooms

/-- **`process`** goes on with the machine, or stops with an error where it is bound to fail. -/
theorem process_sticks (hi : p.Inv p.stringChunkSize) (input : Spans) (hl : input.bytes ≠ []) :
    Ensures (process h input) (p, 0)
      (fun _ s => p.Passes h s.1 input.bytes (input.bytes.drop s.2))
      (fun e s => p.Fails h e s.1 (input.bytes.drop s.2)) := by
  have hpos : input.len ≠ 0 := by rwa [Spans.len, Ne, List.length_eq_zero_iff]
  cases ht : p.tokenizer with
  | some t =>
    unfold Ensures
    rw [process_started (by rw [hi.bom, ht]; rfl) ht]
    refine (withTokenizer_receive_sticks hi ht input 0 fun h0 => absurd h0 hpos).mono ?_ ?_
    · rintro - s ⟨n, hn, hpass⟩
      rwa [hn, Nat.zero_add]
    · rintro e s ⟨n, hn, hfail⟩
      rwa [hn, Nat.zero_add]
  | none =>
    have hbom := checkBom_spec input
    have hnext := Parser.next_begin (h := h) ht input.bytes
    unfold Ensures
    rw [process_fresh (by rw [hi.bom, ht]; rfl)]
    cases hf : bomFront input.bytes with
    | need =>
      rw [hf] at hbom
      rw [show checkBom input = .ok .needMore from hbom]
      exact ⟨.refl p, .refl p _⟩
    | bad =>
      rw [hf] at hbom hnext
      obtain ⟨m, hm⟩ := hbom
      rw [hm]
      exact ⟨.refl p, .inr ⟨[], .inl (fails_of_next hnext)⟩⟩
    | found k =>
      rw [hf] at hbom hnext
      rw [show checkBom input = .ok (.skip k) from hbom]
      obtain ⟨hi₁, hsame, hfl₁, -, hcore⟩ := hi.begun (h := h) ht
      rw [← hsame.stringChunkSize] at hi₁
      have hstep : (machine F p.limits).Steps (p.core h) input.bytes [] ((p.begun h).core h)
          (input.bytes.drop k) := by
        rw [hcore]
        exact steps_of_next hnext
      refine (withTokenizer_receive_sticks hi₁ (by rw [Parser.begun_eq ht]) (input.skip k) (0 + k)
        fun _ => hfl₁).mono ?_ ?_
      · rintro - s ⟨n, hn, hs, os, hsteps, hkeys⟩
        rw [hsame.limits] at hsteps
        rw [hsame.stringChunkSize] at hkeys
        refine ⟨hsame.trans hs, os, ?_, hkeys⟩
        rw [hn, Nat.zero_add, ← List.drop_drop]
        exact hstep.trans hsteps
      · rintro e s ⟨n, hn, hs, hsticks⟩
        refine ⟨hsame.trans hs, hsticks.imp id fun hdooms => ?_⟩
        rw [hn, Nat.zero_add, ← List.drop_drop]
        exact hdooms

/-! ## A call of the parser -/

/-- What an error leaves behind: the machine is bound to fail on what is in the ring, or the
document is too long, or the ring is full and the machine needs more. -/
inductive Session.Rejected (h : Handler F) (s : Session F) : Prop where
  | doomed (dooms : s.parser.Dooms h s.buf.bytes)
  | tooLong (ne : s.buf.bytes ≠ [])
      (long : exceeds s.parser.limits.maxDocumentLength s.parser.documentLength = true)
  | full (ne : s.buf.bytes ≠ []) (full : s.buf.isFull = true)
      (need : (s.parser.core h).next (F := F) s.parser.limits s.buf.bytes = .need)

/-- Nothing is rejected for what is not there. -/
theorem Parser.Dooms.ne (hd : p.Dooms h l) : l ≠ [] := by
  rintro rfl
  obtain ⟨os, ⟨mid, c, l, out, hs, hfail, -⟩ | ⟨c, l, key, hs, ⟨-, -, t, n, hl, -⟩, -⟩⟩ := hd
  · obtain ⟨-, rfl, rfl⟩ := hs.eq_of_halted (Machine.halted_of_need (next_nil p.limits _))
    rw [show (machine F p.limits).next (p.core h) [] = .need from next_nil p.limits _] at hfail
    cases hfail
  · obtain ⟨-, rfl, rfl⟩ := hs.eq_of_halted (Machine.halted_of_need (next_nil p.limits _))
    cases hl

variable {s s' : Session F}

/-- There are bytes in the ring that no call takes. -/
theorem Session.Rejected.ne (hr : s.Rejected h) : s.buf.bytes ≠ [] := by
  cases hr with
  | doomed dooms => exact dooms.ne
  | tooLong ne _ => exact ne
  | full ne _ _ => exact ne

/-- A document that is too long is not made shorter. -/
theorem exceeds_add {limit : Option Nat} {n : Nat} (hn : exceeds limit n = true) (m : Nat) :
    exceeds limit (n + m) = true := by
  cases limit with
  | none => cases hn
  | some max =>
    simp only [exceeds, decide_eq_true_eq] at hn ⊢
    omega

/-- Where the machine needs more it does not go on. -/
theorem Parser.Goes.halted (hg : p.Goes h p' l l')
    (hneed : (p.core h).next (F := F) p.limits l = .need) : p'.core h = p.core h ∧ l' = l := by
  obtain ⟨os, hs, -⟩ := hg
  obtain ⟨-, hcore, hl⟩ := hs.eq_of_halted (Machine.halted_of_need hneed)
  exact ⟨hcore, hl⟩

omit [Double F] in
/-- Where there are too many bytes, they are counted. -/
theorem countDocument_tooLong (n : Nat) (s : Session F) :
    Ensures (countDocument n) s (fun _ _ => True)
      (fun _ s' => exceeds s'.parser.limits.maxDocumentLength s'.parser.documentLength = true) := by
  unfold countDocument
  simp only [ensures_bind, ensures_get]
  cases hm : s.parser.limits.maxDocumentLength with
  | none => exact trivial
  | some max =>
    simp only [modifyParser, ensures_bind, ensures_modify]
    rw [ensures_ite]
    split_ifs with hlt
    · show exceeds s.parser.limits.maxDocumentLength _ = true
      rw [hm]
      exact decide_eq_true hlt
    · exact trivial

/-- The ring after a call that did not go on. -/
theorem LoopBuf.isFull_advance {b : LoopBuf} {n : Nat} (hb : b.isFull = true)
    (hn : b.bytes.drop n = b.bytes) : (b.advance n).isFull = true := by
  have hlen : (b.bytes.drop n).length = b.bytes.length := congrArg List.length hn
  simpa [LoopBuf.isFull, LoopBuf.advance, ← List.length_drop, hlen] using hb

/-- **`feed`** keeps a rejected document rejected, and rejects it where it stops with an error. -/
theorem feed_rejected (checkRoom : Bool) (hi : s.parser.Inv s.parser.stringChunkSize) :
    Ensures (feed h checkRoom) s (fun _ s' => s.Rejected h → s'.Rejected h)
      (fun e s' => Late h e ∨ s'.Rejected h) := by
  unfold feed
  simp only [ensures_bind, ensures_get]
  by_cases hb : s.buf.len = 0
  · rw [if_pos hb]
    exact id
  have hne : s.buf.bytes ≠ [] := fun h => hb (by rw [LoopBuf.len, h]; rfl)
  rw [if_neg hb, ensures_bind]
  refine (((countDocument_spec s.buf.len s).and (countDocument_counts s.buf.len s)).and
    (countDocument_tooLong s.buf.len s)).mono ?_ ?_
  swap
  · -- too many bytes came, and are still there
    rintro e s₁ ⟨⟨⟨-, -, k, rfl⟩, -⟩, hlong⟩
    exact .inr (.tooLong hne hlong)
  rintro - s₁ ⟨⟨⟨k, rfl⟩, -, -, hshort⟩, -⟩
  rw [ensures_bind]
  have hi₁ : Parser.Inv s.parser.stringChunkSize { s.parser with documentLength := k } :=
    hi.counted k s.parser.unconsumed s.parser.underflow
  have hl : s.buf.spans.bytes ≠ [] := by rwa [LoopBuf.spans_bytes]
  have hspec := (process_spec (h := h) hi₁ hl).and (process_sticks hi₁ s.buf.spans hl)
  rw [LoopBuf.spans_bytes] at hspec
  refine (processRing_spec hspec).mono ?_ ?_
  swap
  · rintro e s₂ ⟨p', n, rfl, -, hfail⟩
    exact hfail.sticks.imp id .doomed
  rintro n s₂ ⟨p', rfl, ⟨hn, hstands, -⟩, hpass⟩
  simp only [ensures_bind, ensures_get, modifyParser, ensures_modify]
  have hgoes : s.parser.Goes h p' s.buf.bytes (s.buf.bytes.drop n) := hpass.goes
  have hlimits : p'.limits = s.parser.limits := hpass.same.limits
  have hchunk : p'.stringChunkSize = s.parser.stringChunkSize := hpass.same.stringChunkSize
  rw [ensures_ite]
  split_ifs with hroom
  · -- the ring is full of one token, or of what no character starts with
    simp only [Bool.and_eq_true, beq_iff_eq] at hroom
    obtain ⟨⟨-, rfl⟩, hfull⟩ := hroom
    have hleft : Leftover F s.parser.limits (p'.core h) s.buf.bytes := hstands.leftover
    rw [← hlimits] at hleft
    refine .inr ?_
    cases hleft with
    | nothing hnil => exact absurd hnil hne
    | need hneed => exact .full hne hfull hneed
    | cutOff hstring hcut =>
      have hnext : (p'.core h).next (F := F) p'.limits s.buf.bytes = .need ∨
          (p'.core h).next (F := F) p'.limits s.buf.bytes = .fail [] :=
        next_cutOff (Parser.core_bom hstring) hstring hcut
      rcases hnext with hneed | hfail
      · exact .full hne hfull hneed
      · exact .doomed ⟨[], .inl (fails_of_next hfail)⟩
  · intro hr
    cases hr with
    | doomed dooms => exact .doomed (hgoes.dooms hlimits hchunk dooms)
    | tooLong _ long => exact absurd (exceeds_add long _) hshort
    | full _ full need =>
      obtain ⟨hcore, hdrop⟩ := hgoes.halted need
      refine .full (hdrop.trans_ne hne) (LoopBuf.isFull_advance full hdrop) ?_
      show (p'.core h).next p'.limits (s.buf.bytes.drop n) = .need
      rw [hcore, hdrop, hlimits]
      exact need

/-! ## The calls of a caller -/

/-- What `close` receives leaves a rejected document rejected. -/
theorem closeFeed_rejected (hi : s.parser.Inv s.parser.stringChunkSize) (hr : s.Rejected h) :
    Ensures (closeFeed h) s (fun _ s' => s'.Rejected h) (fun _ _ => True) := by
  have hfeed := (feed_rejected false hi).mono (fun _ s' hkeep => hkeep hr) fun _ _ _ => trivial
  unfold closeFeed
  rw [ensures_bind, ensures_get]
  cases s.parser.tokenizer with
  | none =>
    dsimp only
    rw [ensures_bind]
    refine hfeed.mono (fun _ s₁ hs₁ => ?_) fun _ _ h => h
    rw [ensures_bind, ensures_get, ensures_ite]
    split_ifs
    · exact trivial
    · exact hs₁
  | some t =>
    dsimp only
    rw [if_pos hr.ne]
    exact hfeed

/-- The parser while it closes. -/
theorem Session.Rejected.closing (hr : s.Rejected h) :
    Session.Rejected h { s with parser := s.parser.closing } := by
  cases hr with
  | doomed dooms => exact .doomed dooms
  | tooLong ne long => exact .tooLong ne long
  | full ne full need => exact .full ne full need

/-- **`close` does not succeed** on a document that is rejected. -/
theorem close_rejected (hi : s.parser.Inv s.parser.stringChunkSize)
    (hopen : s.parser.closed = false)
    (hr : s.Rejected h) : Ensures (Parser.close h) s (fun _ _ => False) (fun _ _ => True) := by
  unfold Parser.close
  rw [ensures_bind, ensures_get, hopen, if_neg (by decide)]
  simp only [RJsonParser.modifyParser, ensures_bind, ensures_modify]
  have hi₁ : s.parser.closing.Inv s.parser.stringChunkSize :=
    ⟨hi.tokenizer, hi.bom, hi.interner, hi.chunk⟩
  refine (closeFeed_rejected (s := { s with parser := s.parser.closing }) hi₁ hr.closing).mono ?_
    fun _ _ h => h
  intro _ s₁ hr₁
  rw [ensures_get, if_pos hr₁.ne]
  exact trivial

/-- What is written to the ring does not make it right. -/
theorem Session.Rejected.write (hr : s.Rejected h) (bytes : List UInt8) (layout : Layout) :
    Session.Rejected h { s with buf := s.buf.write bytes layout } := by
  have hbytes : (s.buf.write bytes layout).bytes = s.buf.bytes ++ bytes.take s.buf.spareLen := rfl
  cases hr with
  | doomed dooms => exact .doomed (dooms.append _)
  | tooLong ne long => exact .tooLong (List.append_ne_nil_of_left_ne_nil ne _) long
  | full ne full need =>
    have hcap : s.buf.bytes.length = s.buf.capacity := by simpa [LoopBuf.isFull] using full
    have hspare : s.buf.spareLen = 0 := by rw [LoopBuf.spareLen, hcap, Nat.sub_self]
    rw [hspare, List.take_zero, List.append_nil] at hbytes
    refine .full (hbytes.trans_ne ne) ?_ ?_
    · show ((s.buf.write bytes layout).bytes.length == s.buf.capacity) = true
      rw [hbytes]
      exact full
    · show (s.parser.core h).next s.parser.limits (s.buf.write bytes layout).bytes = .need
      rw [hbytes]
      exact need

/-- A session in the middle of a document, all interned keys of which fit string chunks. -/
structure Session.Open (s : Session F) : Prop where
  inv : s.parser.Inv s.parser.stringChunkSize
  isOpen : s.parser.closed = false

/-- **A step that fails rejects the document**, and every step leaves it rejected. -/
theorem Op.exec_rejects {op : Op} (hop : op.Presents) (hs : s.Open) :
    Ensures (op.exec h) s (fun _ s' => s'.Open ∧ (s.Rejected h → s'.Rejected h))
      (fun e s' => s'.Open ∧ (Late h e ∨ s'.Rejected h)) := by
  cases op with
  | write bytes layout => exact ⟨⟨hs.inv, hs.isOpen⟩, fun hr => hr.write bytes layout⟩
  | receive =>
    show Ensures (Parser.receive h) s _ _
    unfold Parser.receive
    rw [ensures_bind, ensures_get, hs.isOpen, if_neg (by decide)]
    refine ((feed_spec true hs.inv).and (feed_rejected true hs.inv)).mono ?_ ?_
    · rintro - s' ⟨⟨hi, hsame, -⟩, hkeep⟩
      rw [← hsame.stringChunkSize] at hi
      exact ⟨⟨hi, hsame.closed.trans hs.isOpen⟩, hkeep⟩
    · rintro e s' ⟨⟨hi, hsame, -⟩, hr⟩
      rw [← hsame.stringChunkSize] at hi
      exact ⟨⟨hi, hsame.closed.trans hs.isOpen⟩, hr⟩
  | close => exact hop.elim
  | ring capacity layout => exact hop.elim
  | reset => exact hop.elim
  | setLimits limits => exact hop.elim
  | setRejectDuplicateKeys b => exact hop.elim
  | setStringChunkSize n => exact hop.elim

/-- What a step ensures holds of what it returns. -/
theorem Op.result_cases {op : Op} {Q : Session F → Prop} {E : Stop → Session F → Prop}
    (hop : Ensures (op.exec h) s (fun _ => Q) E) :
    (∃ s', op.result h s = (.ok (), s') ∧ Q s') ∨
      ∃ e s', op.result h s = (.error e, s') ∧ E e s' := by
  unfold Ensures at hop
  unfold Op.result
  cases hres : op.exec h s with
  | ok u s' =>
    rw [hres] at hop
    exact .inl ⟨s', rfl, hop⟩
  | error e s' =>
    rw [hres] at hop
    exact .inr ⟨e, s', rfl, hop⟩

/-- **Once a step has failed**, the document is rejected, unless an error was late. -/
theorem runAll_rejects : ∀ {ops : List Op} {s : Session F}, (∀ op ∈ ops, op.Presents) → s.Open →
    (runAll h ops s).2.Open ∧ ((∀ e, .error e ∈ (runAll h ops s).1 → ¬ Late h e) →
      s.Rejected h ∨ (∃ e, .error e ∈ (runAll h ops s).1) → (runAll h ops s).2.Rejected h)
  | [], s, _, hs => by
    refine ⟨hs, fun _ => ?_⟩
    rintro (hr | ⟨e, he⟩)
    · exact hr
    · cases he
  | op :: ops, s, hops, hs => by
    obtain ⟨hop, hops⟩ := List.forall_mem_cons.mp hops
    have hrun : runAll h (op :: ops) s = ((op.result h s).1 :: (runAll h ops (op.result h s).2).1,
      (runAll h ops (op.result h s).2).2) := rfl
    rw [hrun]
    rcases Op.result_cases (Op.exec_rejects hop hs) with
      ⟨s', hres, hs', hkeep⟩ | ⟨e, s', hres, hs', hr⟩ <;>
    rw [hres] <;>
    obtain ⟨hopen, hrej⟩ := runAll_rejects hops hs' <;>
    refine ⟨hopen, fun hlate => ?_⟩ <;>
    have hlate' := fun e he => hlate e (List.mem_cons_of_mem _ he)
    · rintro (hr | ⟨e, he⟩)
      · exact hrej hlate' (.inl (hkeep hr))
      · rcases List.mem_cons.mp he with he | he
        · cases he
        · exact hrej hlate' (.inr ⟨e, he⟩)
    · exact fun _ => hrej hlate' (.inl (hr.resolve_left (hlate e List.mem_cons_self)))

/-- `close` fails where the document is rejected. -/
theorem Session.Open.close_error (hs : s.Open) (hr : s.Rejected h) :
    ∃ e, (Op.close.result h s).1 = .error e := by
  have hclose : Ensures (Op.close.exec h) s (fun _ _ => False) (fun _ _ => True) :=
    close_rejected hs.inv hs.isOpen hr
  rcases Op.result_cases hclose with ⟨s', -, hf⟩ | ⟨e', s', hres, -⟩
  · exact hf.elim
  · exact ⟨e', congrArg Prod.fst hres⟩

/-- **What is rejected stays rejected**: a document of which a call of `receive` returned an error
is never reported complete, however much is written and received before `close`, as long as no error
is late. -/
theorem rejected_stays (hs : Reachable h s) (hopen : s.parser.closed = false)
    (hfit : s.parser.interner.Fits s.parser.stringChunkSize) {ops : List Op}
    (hops : ∀ op ∈ ops, op.Presents) (hlate : ∀ e, .error e ∈ (runAll h ops s).1 → ¬ Late h e)
    {e : Stop} (he : .error e ∈ (runAll h ops s).1) :
    (runAll h ops s).2.buf.bytes ≠ [] ∧
      ∃ e', (Op.close.result h (runAll h ops s).2).1 = .error e' := by
  obtain ⟨hs', hrej⟩ := runAll_rejects hops ⟨(hs.keyed hfit).inv, hopen⟩
  have hr := hrej hlate (.inr ⟨e, he⟩)
  exact ⟨hr.ne, hs'.close_error hr⟩

omit [Double F] in
/-- The messages of late errors start with one of two letters. -/
theorem Late.head {e : Stop} (hh : h.NeverErrs) (hl : Late h e) :
    ∃ m, e = .err m ∧ (m.toList.head? = some 'M' ∨ m.toList.head? = some 'D') := by
  have happend {a b : String} {ch : Char} (ha : a.toList.head? = some ch) :
      (a ++ b).toList.head? = some ch := by
    rw [String.toList_append, List.head?_append, ha]
    rfl
  cases hl with
  | refused reply =>
    rw [hh] at reply
    cases reply
  | tokens max => exact ⟨_, rfl, .inl (happend (by decide))⟩
  | number max => exact ⟨_, rfl, .inl (happend (by decide))⟩
  | string max => exact ⟨_, rfl, .inl (happend (by decide))⟩
  | duplicate key => exact ⟨_, rfl, .inr (happend (by decide))⟩

/-- A comma too many in an array, the rest of which is written all the same. -/
theorem rejected_stays_array :
    let ops : List Op := [.write [0x5B, 0x31, 0x2C, 0x2C] (.split 0), .receive,
      .write [0x32, 0x5D] (.split 3), .receive]
    let s : Session Rat := (runAll .accepting ops (.new 64 (.split 0))).2
    s.buf.bytes = [0x2C, 0x32, 0x5D] ∧ ∃ e, (Op.close.result .accepting s).1 = .error e := by
  intro ops s
  have hs : Reachable (F := Rat) .accepting (.new 64 (.split 0)) :=
    (Session.new_atStart _ _ _).reachable
  have hops : ∀ op ∈ ops, op.Presents := by simp [ops, Op.Presents]
  have hres : (runAll (F := Rat) .accepting ops (.new 64 (.split 0))).1 =
      [.ok (), .error (.err "Unexpected ','"), .ok (), .error (.err "Unexpected ','")] := by
    decide +kernel
  have hlate : ∀ e, .error e ∈ (runAll (F := Rat) .accepting ops (.new 64 (.split 0))).1 →
      ¬ Late (F := Rat) .accepting e := by
    intro e he hlate
    rw [hres] at he
    obtain rfl : e = .err "Unexpected ','" := by simpa using he
    obtain ⟨m, hm, hhead⟩ := hlate.head fun _ => rfl
    obtain rfl : "Unexpected ','" = m := by injection hm with hm; injection hm
    exact absurd hhead (by decide)
  refine ⟨by decide +kernel, ?_⟩
  have he : .error (.err "Unexpected ','") ∈
      (runAll (F := Rat) .accepting ops (.new 64 (.split 0))).1 := by
    rw [hres]
    simp
  exact (rejected_stays hs rfl (hs.fits (by decide)) hops hlate he).2

/-! ## Whatever is interned -/

theorem runAll_append (ops ops' : List Op) (s : Session F) : runAll h (ops ++ ops') s =
    ((runAll h ops s).1 ++ (runAll h ops' (runAll h ops s).2).1,
      (runAll h ops' (runAll h ops s).2).2) := by
  induction ops generalizing s with
  | nil => rfl
  | cons op ops ih =>
    rw [List.cons_append, runAll, ih]
    rfl

theorem length_runAll (ops : List Op) (s : Session F) :
    (runAll h ops s).1.length = ops.length := by
  induction ops generalizing s with
  | nil => rfl
  | cons op ops ih => exact congrArg Nat.succ (ih _)

/-- The same session with an empty symbol table. -/
def Session.cold (s : Session F) : Session F :=
  { s with parser := { s.parser with interner := .start .new } }

/-- Nothing in an empty table is too long. -/
theorem Reachable.cold (hs : Reachable h s) : s.cold.parser.Keyed s.parser.stringChunkSize := by
  obtain ⟨km, hi⟩ := hs.inv
  exact ⟨⟨hi.tokenizer, hi.bom, Interner.new_inv _, le_rfl⟩, rfl, Interner.start_short⟩

omit [Double F] in
theorem keepRoom_of_presents {n : ChunkSize} : ∀ {ops : List Op}, (∀ op ∈ ops, op.Presents) →
    KeepRoom n (ops ++ [.close])
  | [], _ => ⟨min_le_left _ _, trivial⟩
  | op :: ops, hops => by
    obtain ⟨hop, hops⟩ := List.forall_mem_cons.mp hops
    have hchunk : op.chunk n = n := by
      cases op with
      | setStringChunkSize m => cases hop
      | _ => rfl
    refine ⟨?_, ?_⟩
    · rw [Op.KeepsRoom, hchunk]
      exact min_le_left _ _
    · rw [hchunk]
      exact keepRoom_of_presents hops

/-- A number that is too long is consumed before it is found to be so, and the document is complete
without it. -/
example :
    let ops : List Op := [.write [0x31, 0x32, 0x33] (.split 0), .receive, .close]
    let limits : ParserLimits := { ParserLimits.unlimited with maxNumberLength := some 2 }
    (runAll (F := Rat) .accepting (.setLimits limits :: ops) (.new 64 (.split 0))).1 =
      [.ok (), .ok (), .error (.err (numberTooLong 2)), .ok ()] := by
  decide +kernel

end RJsonParser
