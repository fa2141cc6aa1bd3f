import RJsonParser.Properties.Session

/-!
# Runs

What a caller does with a parser for one document, against the machine on all the bytes that came
into the ring.

* `Ends` — the verdict of the machine on a whole document, with what it puts out
* `Session.Reads` — what holds after steps that returned no error, kept by each step
* `Session.Stopped` — how a step stops with an error
* `run_spec` — whatever the steps, what was read and called back, or why they stopped
* `Session.AtStart.said` — the callbacks are the start of what the machine puts out
-/

namespace RJsonParser

open Infra Infra.Utf8

variable {F : Type} [Double F]

/-! ## The verdict of the machine -/

section Ends

variable {limits : ParserLimits} {c c' : Core} {l l' : List UInt8} {os os' mid last : List (Mark F)}

/-- The machine stops with `l` left, and the input ends there: whether it is complete, and what is
put out last. -/
inductive Last (limits : ParserLimits) (c : Core) (l : List UInt8) :
    Bool → List (Mark F) → Prop where
  | fail {out} (h : c.next limits l = .fail out) : Last limits c l false out
  | need (h : c.next (F := F) limits l = .need) :
    Last limits c l (c.ending (F := F) l).1 (c.ending l).2

/-- **The verdict of the machine** on the document `l`: whether it is accepted, and what is put
out. -/
def Ends (limits : ParserLimits) (c : Core) (l : List UInt8) (accepted : Bool)
    (os : List (Mark F)) : Prop :=
  ∃ mid c' l' last, (machine F limits).Steps c l mid c' l' ∧ Last limits c' l' accepted last ∧
    os = mid ++ last

theorem Last.halted {accepted : Bool} (h : Last limits c l accepted last) :
    (machine F limits).Halted c l := by
  cases h with
  | fail h => exact Machine.halted_of_fail h
  | need h => exact Machine.halted_of_need h

/-- A document ends in one way only. -/
theorem Last.unique {a a' : Bool} {last last' : List (Mark F)} (h : Last limits c l a last)
    (h' : Last limits c l a' last') : a = a' ∧ last = last' := by
  cases h with
  | fail h =>
    cases h' with
    | fail h' => rw [h] at h'; cases h'; exact ⟨rfl, rfl⟩
    | need h' => rw [h] at h'; cases h'
  | need h =>
    cases h' with
    | fail h' => rw [h] at h'; cases h'
    | need h' => exact ⟨rfl, rfl⟩

/-- There is one verdict. -/
theorem Ends.unique {a a' : Bool} (h : Ends limits c l a os) (h' : Ends limits c l a' os') :
    a = a' ∧ os = os' := by
  obtain ⟨mid, c₁, l₁, last, hs, hl, rfl⟩ := h
  obtain ⟨mid', c₂, l₂, last', hs', hl', rfl⟩ := h'
  obtain ⟨rfl, rfl, rfl⟩ := hs.halted_unique hs' hl.halted hl'.halted
  obtain ⟨rfl, rfl⟩ := hl.unique hl'
  exact ⟨rfl, rfl⟩

theorem Ends.of_fails (h : (machine F limits).Fails c l os) : Ends limits c l false os := by
  obtain ⟨mid, c', l', out, hs, hf, rfl⟩ := h
  exact ⟨mid, c', l', out, hs, .fail hf, rfl⟩

/-- The machine does not decide without input. -/
theorem next_nil (limits : ParserLimits) (c : Core) : c.next (F := F) limits [] = .need := by
  unfold Core.next
  split <;> rfl

theorem Core.ending_left (h : l ≠ []) : c.ending (F := F) l = (false, []) := if_pos h

/-- It ends as it does further on. -/
theorem Ends.of_steps {a : Bool}
    (hs : (machine F limits).Steps c l os c' l') (h : Ends limits c' l' a os') :
    Ends limits c l a (os ++ os') := by
  obtain ⟨mid, c₁, l₁, last, hs', hl, rfl⟩ := h
  exact ⟨os ++ mid, c₁, l₁, last, hs.trans hs', hl, (List.append_assoc ..).symm⟩

/-- What is accepted from the start is accepted from where the machine goes. -/
theorem Ends.of_steps_iff {a : Bool}
    (hs : (machine F limits).Steps c l os c' l') (h : Ends limits c l a os') :
    ∃ os'', os' = os ++ os'' ∧ Ends limits c' l' a os'' := by
  obtain ⟨mid, c₁, l₁, last, hs', hl, rfl⟩ := h
  rcases hs.linear hs' with ⟨more, rfl, h⟩ | ⟨more, rfl, h⟩
  · exact ⟨more ++ last, List.append_assoc .., more, c₁, l₁, last, h, hl, rfl⟩
  · obtain ⟨rfl, rfl, rfl⟩ := h.eq_of_halted hl.halted
    exact ⟨last, by simp, [], c', l', last, .refl, hl, rfl⟩

theorem ends_nil {a : Bool} :
    Ends limits c [] a os ↔ a = (c.ending (F := F) []).1 ∧ os = (c.ending []).2 := by
  have hlast : Last (F := F) limits c [] (c.ending (F := F) []).1 (c.ending []).2 :=
    .need (next_nil limits c)
  have hends : Ends (F := F) limits c [] (c.ending (F := F) []).1 (c.ending []).2 :=
    ⟨[], c, [], _, .refl, hlast, rfl⟩
  constructor
  · exact fun h => h.unique hends
  · rintro ⟨rfl, rfl⟩
    exact hends

/-- A document that is accepted is read to its end. -/
theorem Last.accepted {a : Bool}
    (h : Last limits c l a last) (ha : a = true) : l = [] ∧ (c.ending (F := F) []).1 = true := by
  cases h with
  | fail => cases ha
  | need hn =>
    by_cases hnil : l = []
    · subst hnil
      exact ⟨rfl, ha⟩
    · rw [Core.ending_left hnil] at ha
      cases ha

/-- The start of a character puts nothing out. -/
theorem next_cutOff (hb : c.bomChecked = true) (hs : c.inString = true) (h : CutOff l) :
    c.next (F := F) limits l = .need ∨ c.next (F := F) limits l = .fail [] := by
  obtain ⟨b, rest, rfl, hw, hlt, -⟩ := h
  have hplain : b ≠ quote ∧ b ≠ backslash ∧ ¬ b < 0x20 := by
    refine ⟨?_, ?_, ?_⟩
    · rintro rfl; revert hw; decide
    · rintro rfl; revert hw; decide
    · intro hb
      have : b.toNat < 0x20 := hb
      unfold width at hw
      rw [if_pos (by omega)] at hw
      omega
  rw [Core.next, if_neg (by simp [hb])]
  simp only [hs, if_true]
  rw [Core.stringStep, if_neg hplain.1, if_neg hplain.2.1, if_neg hplain.2.2]
  cases hf : front (b :: rest) with
  | need => simp only; split <;> simp
  | bad => exact .inr rfl
  | char ch n =>
    have := front_char_width hf
    have := (front_char_le hf).2.2
    omega

/-- Bytes that are left when the input ends are the end of no document. -/
theorem Leftover.isLast (h : Leftover F limits c l)
    (hb : c.inString = true → c.bomChecked = true) :
    Last limits c l (c.ending (F := F) l).1 (c.ending (F := F) l).2 := by
  cases h with
  | nothing h =>
    subst h
    exact .need (next_nil limits c)
  | need h => exact .need h
  | cutOff hs h =>
    rcases (next_cutOff (hb hs) hs h : c.next (F := F) limits l = .need ∨ _) with hn | hn
    · exact .need hn
    · obtain ⟨b, rest, rfl, -⟩ := h
      rw [Core.ending_left (by simp)]
      exact .fail hn

/-- `os` is put out by the machine, or at the end of the input. -/
def Produces (limits : ParserLimits) (c : Core) (l : List UInt8) (os : List (Mark F)) : Prop :=
  (machine F limits).Emits c l os ∨ ∃ mid c' c'' last, (machine F limits).Steps c l mid c' [] ∧
    c'.endInput = some (c'', last) ∧ os <+: mid ++ last

/-- What is put out at the end is put out. -/
theorem Produces.of_ending (hs : (machine F limits).Steps c l mid c' l') :
    Produces limits c l (mid ++ (c'.ending l').2) := by
  by_cases hl : l' = []
  · subst hl
    have hending := c'.ending_nil (F := F)
    cases he : c'.endInput (F := F) with
    | none =>
      simp only [he] at hending
      rw [hending, List.append_nil]
      exact .inl hs.emits
    | some r =>
      simp only [he] at hending
      rw [hending]
      exact .inr ⟨mid, c', r.1, r.2, hs, he, List.prefix_rfl⟩
  · rw [Core.ending_left hl, List.append_nil]
    exact .inl hs.emits

end Ends

/-! ## Steps of a caller -/

variable {km : Nat} {h : Handler F} {s₀ s s' : Session F} {stream : List UInt8}
  {new : List (Call F)}

/-- Of the `n` bytes of a document those that were presented are counted, if there is a limit, and
are not too many. -/
structure Session.Counted (s : Session F) (limit : Option Nat) (n : Nat) : Prop where
  unconsumed : s.parser.unconsumed ≤ s.buf.len
  length : limit ≠ none → s.parser.documentLength + (s.buf.len - s.parser.unconsumed) = n
  fits : limit ≠ none → exceeds limit s.parser.documentLength = false

/-- After steps that returned no error: the machine read the bytes that came into the ring except
those that are still there, and what it put out was called back. -/
structure Session.Reads (km : Nat) (h : Handler F) (s₀ s : Session F) (stream : List UInt8)
    (new : List (Call F)) : Prop where
  inv : s.parser.Inv km
  flushed : s.parser.Flushed
  isOpen : s.parser.closed = false
  limits : s.parser.limits = s₀.parser.limits
  calls : s.parser.calls = s₀.parser.calls ++ new
  piece : ∀ call ∈ new, call.Piece km km
  counted : s.Counted s₀.parser.limits.maxDocumentLength stream.length
  steps : (machine F s₀.parser.limits).Steps (s₀.parser.core h) stream (marks new)
    (s.parser.core h) s.buf.bytes

/-- What was called back is what was put out, but for content that was decoded last. -/
structure Told (new : List (Call F)) (os : List (Mark F)) : Prop where
  marks_prefix : marks new <+: os
  tokens_eq : tokens (marks new) = tokens os

/-- Why a step stopped with the error `e`. -/
inductive Why (km : Nat) (h : Handler F) (s₀ s s' : Session F) (stream : List UInt8)
    (new : List (Call F)) (e : Stop) : Prop where
  | tooLong (long : exceeds s₀.parser.limits.maxDocumentLength stream.length = true)
  | refused (err : ParseError) (eq : e = .error err) (reply : h.reply s'.parser.calls = some err)
  | longKey (os : List (Mark F)) (long : LongKey s₀.parser.limits s.parser.stringChunkSize
      (s₀.parser.core h) stream os) (told : Told new os)
  | failed (os : List (Mark F))
      (fails : (machine F s₀.parser.limits).Fails (s₀.parser.core h) stream os) (told : Told new os)
  | unended (closing : s'.parser.closed = true)
      (ends : Ends s₀.parser.limits (s₀.parser.core h) stream false (marks new))
  | noRoom (ne : s.buf.bytes ≠ []) (full : s.buf.isFull = true)
      (steps : (machine F s₀.parser.limits).Steps (s₀.parser.core h) stream (marks new)
        (s'.parser.core h) s.buf.bytes)
      (leftover : Leftover F s₀.parser.limits (s'.parser.core h) s.buf.bytes)
      (eq : e = .err (bufferTooSmall s.buf.len))

/-- A step stopped with an error. What was called back is the start of what the machine can put
out. -/
structure Session.Stopped (km : Nat) (h : Handler F) (s₀ s s' : Session F) (stream : List UInt8)
    (new : List (Call F)) (e : Stop) : Prop where
  calls : s'.parser.calls = s₀.parser.calls ++ new
  produces : Produces s₀.parser.limits (s₀.parser.core h) stream (marks new)
  why : Why km h s₀ s s' stream new e

omit [Double F] in
theorem Call.Piece.mono {call : Call F} {n n' km km' : Nat} (h : call.Piece n km) (hn : n ≤ n')
    (hk : km ≤ km') : call.Piece n' km' := by
  unfold Call.Piece at *
  cases he : call.event <;> rw [he] at h
  case stringValueContent s => exact ⟨h.1, h.2.trans hn⟩
  case key s => exact le_trans (show byteLen s ≤ km from h) hk
  all_goals exact h

/-- A key that is too long stays so. -/
theorem LongKey.append {limits : ParserLimits} {n : Nat} {c : Core} {l : List UInt8}
    {os : List (Mark F)} (h : LongKey limits n c l os) (m : List UInt8) :
    LongKey limits n c (l ++ m) os := by
  obtain ⟨c', l', key, hs, ⟨ho, hst, t, k, rfl, hf, hd⟩, hlt⟩ := h
  refine ⟨c', _, key, hs.append m, ⟨ho, hst, t ++ m, k, rfl, ?_, ?_⟩, hlt⟩
  · rw [keyFront_append _ m (by rw [hf]; simp)]
    exact hf
  · obtain ⟨j, rfl, hr, -⟩ := keyFront_found _ hf
    obtain ⟨_, _, hlen⟩ := rawLength_spec hr
    rw [List.take_append_of_le_length (by omega)]
    exact hd

namespace Session.Reads

/-- At the start of a document. -/
theorem start (hi : s.parser.Inv km) (ht : s.parser.tokenizer = none)
    (hc : s.parser.closed = false) (hd : s.parser.documentLength = 0)
    (hu : s.parser.unconsumed = 0) : s.Reads km h s s.buf.bytes [] where
  inv := hi
  flushed := fun t h => by rw [ht] at h; cases h
  isOpen := hc
  limits := rfl
  calls := by simp
  piece := by simp
  counted := ⟨by omega, fun _ => by rw [hd, hu]; simp [LoopBuf.len], fun _ => by
    rw [hd]
    cases s.parser.limits.maxDocumentLength <;> simp⟩
  steps := .refl

theorem write (hr : s₀.Reads km h s stream new) (bytes : List UInt8) (layout : Layout) :
    s₀.Reads km h { s with buf := s.buf.write bytes layout }
      (stream ++ bytes.take s.buf.spareLen) new where
  inv := hr.inv
  flushed := hr.flushed
  isOpen := hr.isOpen
  limits := hr.limits
  calls := hr.calls
  piece := hr.piece
  counted := by
    have hlen : (s.buf.write bytes layout).len = s.buf.len + (bytes.take s.buf.spareLen).length :=
      List.length_append
    obtain ⟨hu, hl, hf⟩ := hr.counted
    refine ⟨?_, fun h => ?_, hf⟩
    · show s.parser.unconsumed ≤ (s.buf.write bytes layout).len
      omega
    · show s.parser.documentLength + ((s.buf.write bytes layout).len - s.parser.unconsumed) = _
      rw [List.length_append, ← hl h]
      omega
  steps := hr.steps.append _

theorem setStringChunkSize (hr : s₀.Reads km h s stream new) (n : ChunkSize) (hn : n ≤ km) :
    s₀.Reads km h { s with parser := s.parser.setStringChunkSize n } stream new where
  inv := hr.inv.setStringChunkSize n hn
  flushed := by
    intro t ht
    obtain ⟨t', ht', rfl⟩ := Option.map_eq_some_iff.mp ht
    exact hr.flushed t' ht'
  isOpen := hr.isOpen
  limits := hr.limits
  calls := hr.calls
  piece := hr.piece
  counted := ⟨hr.counted.unconsumed, hr.counted.length, hr.counted.fits⟩
  steps := by
    have hcore : (s.parser.setStringChunkSize n).core h = s.parser.core h := by
      unfold Parser.core Parser.setStringChunkSize
      cases s.parser.tokenizer <;> rfl
    show (machine F s₀.parser.limits).Steps _ _ _ ((s.parser.setStringChunkSize n).core h) _
    rw [hcore]
    exact hr.steps

/-- After the bytes in the ring were presented. -/
theorem counts (hr : s₀.Reads km h s stream new) (hnil : s.buf.bytes = [] → s' = s)
    (hc : s.buf.bytes ≠ [] → s.parser.Counts s'.parser s.buf s'.buf) :
    s'.Counted s₀.parser.limits.maxDocumentLength stream.length := by
  by_cases hb : s.buf.bytes = []
  · rw [hnil hb]
    exact hr.counted
  · obtain ⟨hu, hl, hf⟩ := hc hb
    rw [hr.limits] at hl hf
    refine ⟨hu.le, fun hlim => ?_, fun hlim => ?_⟩
    · rw [hl hlim, hu, Nat.sub_self, Nat.add_zero, hr.counted.length hlim]
    · rw [hl hlim, hf]

/-- The document is too long where a call says so. -/
theorem tooLong (hr : s₀.Reads km h s stream new) (hl : s.parser.TooLong s.buf.len) :
    exceeds s₀.parser.limits.maxDocumentLength stream.length = true := by
  unfold Parser.TooLong at hl
  rw [hr.limits] at hl
  rwa [hr.counted.length fun hn => by rw [hn] at hl; cases hl] at hl

/-- The document is not too long where `close` succeeds. -/
theorem fits (hr : s₀.Reads km h s stream new)
    (hc : s.buf.bytes ≠ [] → ¬ s.parser.TooLong s.buf.len) :
    exceeds s₀.parser.limits.maxDocumentLength stream.length = false := by
  cases hlim : s₀.parser.limits.maxDocumentLength with
  | none => rfl
  | some max =>
    obtain ⟨hu, hl, hf⟩ := hr.counted
    rw [hlim] at hl hf
    rw [← hl (by simp)]
    by_cases hb : s.buf.bytes = []
    · rw [show s.buf.len = 0 by rw [LoopBuf.len, hb]; rfl, Nat.zero_sub, Nat.add_zero]
      exact hf (by simp)
    · have := hc hb
      unfold Parser.TooLong at this
      rw [hr.limits, hlim] at this
      simpa using this

/-- The machine has a reason for the error with which a call stopped. -/
theorem breaks (hr : s₀.Reads km h s stream new) {e : Stop}
    (hb : s.parser.Breaks km h s'.parser s.buf.bytes e) :
    ∃ more, (∀ call ∈ more, call.Piece s.parser.stringChunkSize km) ∧
      s₀.Stopped km h s s' stream (new ++ more) e := by
  obtain ⟨err, more, os, rfl, hc, hp, hem, hpre, hreason⟩ := hb
  rw [hr.limits] at hem hreason
  refine ⟨more, hp, ⟨by rw [hc, hr.calls, List.append_assoc], .inl ?_, ?_⟩⟩
  · rw [marks_append]
    exact hr.steps.trans_emits (hem.of_prefix hpre)
  · have told (ht : tokens (marks more) = tokens os) : Told (new ++ more) (marks new ++ os) :=
      ⟨by rw [marks_append]; exact (List.prefix_append_right_inj _).mpr hpre,
        by rw [marks_append, tokens_append, tokens_append, ht]⟩
    cases hreason with
    | refused ne reply => exact .refused err rfl reply
    | longKey long tokens_eq => exact .longKey _ (long.prepend hr.steps) (told tokens_eq)
    | failed fails tokens_eq => exact .failed _ (hr.steps.trans_fails fails) (told tokens_eq)

/-- **`receive`** after steps that returned no error. -/
theorem receive (hr : s₀.Reads km h s stream new) :
    Ensures (Parser.receive h) s
      (fun _ s' => (s.buf.bytes ≠ [] → s'.buf.isFull = false) ∧ s.parser.Same s'.parser ∧
        s.buf.Released s'.buf ∧ ∃ more, s₀.Reads km h s' stream (new ++ more) ∧
          (∀ call ∈ more, call.Piece s.parser.stringChunkSize km))
      (fun e s' => s'.parser.closed = false ∧ ∃ more,
        (∀ call ∈ more, call.Piece s.parser.stringChunkSize km) ∧
        s₀.Stopped km h s s' stream (new ++ more) e) := by
  refine ((receive_spec (h := h) hr.inv).and (receive_counts s)).mono ?_ ?_
  · rintro - s' ⟨⟨-, hi, hsame, hrel, hnil, hst, hfull, hm⟩, hcount⟩
    obtain ⟨more, hcalls, hpiece, hsteps⟩ := hm hr.flushed
    refine ⟨hfull, hsame, hrel, more, ⟨hi, ?_, hsame.closed.trans hr.isOpen,
      hsame.limits.trans hr.limits, by rw [hcalls, hr.calls, List.append_assoc], ?_,
      hr.counts hnil hcount, ?_⟩, hpiece⟩
    · by_cases hb : s.buf.bytes = []
      · rw [hnil hb]
        exact hr.flushed
      · exact (hst hb).flushed
    · refine List.forall_mem_append.mpr ⟨hr.piece, fun call hc => ?_⟩
      exact (hpiece call hc).mono hr.inv.chunk le_rfl
    · rw [marks_append]
      rw [hr.limits] at hsteps
      exact hr.steps.trans hsteps
  · rintro e s' ⟨⟨hc, -⟩ | ⟨-, hi, hsame, hrel, he⟩, -⟩
    · rw [hr.isOpen] at hc
      cases hc
    refine ⟨hsame.closed.trans hr.isOpen, ?_⟩
    cases he with
    | tooLong limit calls eq =>
      refine ⟨[], by simp, by rw [List.append_nil, calls]; exact hr.calls, ?_,
        .tooLong (hr.tooLong limit)⟩
      rw [List.append_nil]
      exact .inl hr.steps.emits
    | broke breaks => exact hr.breaks (breaks hr.flushed)
    | noRoom check ne full kept stands moves eq =>
      obtain ⟨more, hcalls, hpiece, hsteps⟩ := moves hr.flushed
      rw [hr.limits] at hsteps
      have hsteps' : (machine F s₀.parser.limits).Steps (s₀.parser.core h) stream
          (marks (new ++ more)) (s'.parser.core h) s'.buf.bytes := by
        rw [marks_append]
        exact hr.steps.trans hsteps
      have hcalls' : s'.parser.calls = s₀.parser.calls ++ (new ++ more) := by
        rw [hcalls, hr.calls, List.append_assoc]
      refine ⟨more, hpiece, hcalls', .inl hsteps'.emits, .noRoom ne full (kept ▸ hsteps') ?_ eq⟩
      rw [← hr.limits, ← kept]
      exact stands.leftover

/-- **`close`** after steps that returned no error. -/
theorem close (hr : s₀.Reads km h s stream new) :
    Ensures (Parser.close h) s
      (fun _ s' => s'.parser.closed = true ∧
        exceeds s₀.parser.limits.maxDocumentLength stream.length = false ∧ ∃ more,
        s'.parser.calls = s₀.parser.calls ++ (new ++ more) ∧
        (∀ call ∈ more, call.Piece s.parser.stringChunkSize km) ∧
        Produces s₀.parser.limits (s₀.parser.core h) stream (marks (new ++ more)) ∧
        Ends s₀.parser.limits (s₀.parser.core h) stream true (marks (new ++ more)))
      (fun e s' => ∃ more, (∀ call ∈ more, call.Piece s.parser.stringChunkSize km) ∧
        s₀.Stopped km h s s' stream (new ++ more) e) := by
  refine ((close_spec (h := h) hr.inv hr.flushed hr.isOpen).and
    (close_counts s hr.isOpen)).mono ?_ ?_
  · rintro - s' ⟨⟨hi, hsame, mid, last, c, hcalls, hpiece, hsteps, hend⟩, hcount⟩
    rw [hr.limits] at hsteps
    have hall := hr.steps.trans hsteps
    have hmarks : marks (new ++ (mid ++ last)) =
        (marks new ++ marks mid) ++ (c.ending (F := F) []).2 := by
      rw [hend]
      simp
    refine ⟨hsame.closed, hr.fits hcount, mid ++ last, by rw [hcalls, hr.calls]; simp, hpiece, ?_,
      ?_⟩
    · rw [hmarks]
      exact .of_ending hall
    · refine ⟨_, c, [], _, hall, ?_, hmarks⟩
      have := Last.need (next_nil (F := F) s₀.parser.limits c)
      rwa [hend] at this ⊢
  · rintro e s' ⟨⟨hi, hsame, he⟩, -⟩
    cases he with
    | tooLong limit calls =>
      refine ⟨[], by simp, by rw [List.append_nil, calls]; exact hr.calls, ?_,
        .tooLong (hr.tooLong limit)⟩
      rw [List.append_nil]
      exact .inl hr.steps.emits
    | broke breaks => exact hr.breaks breaks
    | unended mid last c l' calls piece steps leftover bom ending =>
      rw [hr.limits] at steps leftover
      have hall := hr.steps.trans steps
      have hmarks : marks (new ++ (mid ++ last)) =
          (marks new ++ marks mid) ++ (c.ending (F := F) l').2 := by
        rw [ending]
        simp
      refine ⟨mid ++ last, piece, by rw [calls, hr.calls]; simp,
        by rw [hmarks]; exact .of_ending hall,
        .unended hsame.closed ⟨_, c, l', _, hall, ?_, hmarks⟩⟩
      have := leftover.isLast bom
      rwa [ending] at this ⊢
    | refused mid last c c' err eq calls piece steps ending ne reply =>
      rw [hr.limits] at steps
      refine ⟨mid ++ last, piece, by rw [calls, hr.calls]; simp, .inr ⟨_, c, c', marks last,
        hr.steps.trans steps, ending, by simp⟩, .refused err eq reply⟩

end Session.Reads

/-! ## Runs -/

/-- What was called back since `s₀` is the start of what the machine can put out. -/
structure Session.Said (km : Nat) (h : Handler F) (s₀ s : Session F) (stream : List UInt8)
    (new : List (Call F)) : Prop where
  calls : s.parser.calls = s₀.parser.calls ++ new
  piece : ∀ call ∈ new, call.Piece km km
  produces : Produces s₀.parser.limits (s₀.parser.core h) stream (marks new)

/-- After steps that returned no error the document goes on, or it is complete. -/
structure Session.Went (km : Nat) (h : Handler F) (s₀ s : Session F) (stream : List UInt8)
    (new : List (Call F)) : Prop where
  said : s₀.Said km h s stream new
  reads : s.parser.closed = false → s₀.Reads km h s stream new
  ends : s.parser.closed = true →
    Ends s₀.parser.limits (s₀.parser.core h) stream true (marks new) ∧
      exceeds s₀.parser.limits.maxDocumentLength stream.length = false

theorem Session.Reads.said (hr : s₀.Reads km h s stream new) : s₀.Said km h s stream new :=
  ⟨hr.calls, hr.piece, .inl hr.steps.emits⟩

theorem Session.Reads.said_stopped (hr : s₀.Reads km h s stream new) {more : List (Call F)}
    {e : Stop} (hp : ∀ call ∈ more, call.Piece s.parser.stringChunkSize km)
    (hst : s₀.Stopped km h s s' stream (new ++ more) e) : s₀.Said km h s' stream (new ++ more) := by
  refine ⟨hst.calls, List.forall_mem_append.mpr ⟨hr.piece, fun call hc => ?_⟩, hst.produces⟩
  exact (hp call hc).mono hr.inv.chunk le_rfl

theorem Produces.append {limits : ParserLimits} {c : Core} {l : List UInt8} {os : List (Mark F)}
    (h : (machine F limits).Emits c l os) (m : List UInt8) : Produces limits c (l ++ m) os :=
  .inl (h.append m)

/-- Nothing is called back after `close`. -/
theorem run_closed : ∀ (ops : List Op), (∀ op ∈ ops, op.Feeds) → ∀ {s : Session F},
    s.parser.closed = true → Ensures (run h ops) s
      (fun _ s' => s'.parser.closed = true ∧ s'.parser.calls = s.parser.calls)
      (fun _ s' => s'.parser.calls = s.parser.calls)
  | [], _, s, hc => ⟨hc, rfl⟩
  | op :: ops, hops, s, hc => by
    have ih := fun {s : Session F} =>
      run_closed ops (fun op h => hops op (List.mem_cons_of_mem _ h)) (s := s)
    rw [run, ensures_bind]
    cases op with
    | write bytes layout => exact ih (s := { s with buf := s.buf.write bytes layout }) hc
    | receive =>
      simp only [Op.exec, Parser.receive, ensures_bind, ensures_get]
      rw [if_pos hc]
      exact (rfl : s.parser.calls = s.parser.calls)
    | close =>
      refine (close_closed (h := h) hc).mono ?_ ?_
      · rintro - s' rfl
        exact ih hc
      · exact fun _ _ => False.elim
    | setStringChunkSize n =>
      exact ih (s := { s with parser := s.parser.setStringChunkSize n }) hc
    | ring | reset | setLimits | setRejectDuplicateKeys =>
      exact False.elim (hops _ List.mem_cons_self)

theorem stored_receive {ops : List Op} (s : Session F) : stored h (.receive :: ops) s =
    match Parser.receive h s with
    | .ok () s' => stored h ops s'
    | .error _ _ => [] := rfl

/-- **Whatever the steps, the callbacks are the start of what the machine can put out** of the bytes
that came into the ring. -/
theorem run_spec : ∀ (ops : List Op), (∀ op ∈ ops, op.Feeds) →
    (∀ n : ChunkSize, .setStringChunkSize n ∈ ops → (n : Nat) ≤ km) →
      ∀ {s : Session F} {stream new},
    s₀.Reads km h s stream new → Ensures (run h ops) s
      (fun _ s' => ∃ more, s₀.Went km h s' (stream ++ stored h ops s) (new ++ more))
      (fun _ s' => ∃ more, s₀.Said km h s' (stream ++ stored h ops s) (new ++ more))
  | [], _, _, s, stream, new, hr => ⟨[], by
    rw [stored, List.append_nil, List.append_nil]
    exact ⟨hr.said, fun _ => hr, fun hc => by rw [hr.isOpen] at hc; cases hc⟩⟩
  | op :: ops, hops, hn, s, stream, new, hr => by
    have ih {s : Session F} {stream : List UInt8} {new : List (Call F)}
        (hr : s₀.Reads km h s stream new) :=
      run_spec ops (fun op h => hops op (List.mem_cons_of_mem _ h))
        (fun n h => hn n (List.mem_cons_of_mem _ h)) hr
    rw [run, ensures_bind]
    cases op with
    | write bytes layout =>
      refine (ih (hr.write bytes layout)).mono ?_ ?_
      · rintro - s' h
        rwa [List.append_assoc] at h
      · rintro e s' h
        rwa [List.append_assoc] at h
    | setStringChunkSize n => exact ih (hr.setStringChunkSize n (hn n (by simp)))
    | receive =>
      rw [stored_receive]
      refine Ensures.mono (x := Parser.receive h) hr.receive.and_result ?_ ?_
      · rintro ⟨⟩ s₁ ⟨heq, -, -, -, more, hr₁, -⟩
        rw [heq]
        refine Ensures.mono (ih hr₁) ?_ ?_
        · rintro - s' ⟨more', h⟩
          exact ⟨more ++ more', by rwa [List.append_assoc] at h⟩
        · rintro e s' ⟨more', h⟩
          exact ⟨more ++ more', by rwa [List.append_assoc] at h⟩
      · rintro e s₁ ⟨heq, -, more, hp, hst⟩
        rw [heq]
        simp only [List.append_nil]
        exact ⟨more, hr.said_stopped hp hst⟩
    | close =>
      show Ensures (Parser.close h) s _ _
      rw [show stored h (.close :: ops) s = [] from rfl, List.append_nil]
      refine hr.close.mono ?_ ?_
      · rintro - s₁ ⟨hc, hfits, more, hcalls, hp, hprod, hends⟩
        have hp' : ∀ call ∈ new ++ more, call.Piece km km :=
          List.forall_mem_append.mpr ⟨hr.piece,
            fun call hc => (hp call hc).mono hr.inv.chunk le_rfl⟩
        refine (run_closed ops (fun op h => hops op (List.mem_cons_of_mem _ h)) hc).mono ?_ ?_
        · rintro - s' ⟨hc', heq⟩
          exact ⟨more, ⟨heq.trans hcalls, hp', hprod⟩, fun h => absurd (hc'.symm.trans h) (by simp),
            fun _ => ⟨hends, hfits⟩⟩
        · rintro e s' heq
          exact ⟨more, heq.trans hcalls, hp', hprod⟩
      · rintro e s₁ ⟨more, hp, hst⟩
        exact ⟨more, hr.said_stopped hp hst⟩
    | ring | reset | setLimits | setRejectDuplicateKeys =>
      exact False.elim (hops _ List.mem_cons_self)

/-- What one more step calls back, whatever it returns. -/
theorem Session.Reads.result (hr : s₀.Reads km h s stream new) {op : Op} (hop : op.Feeds) :
    ∃ more, (op.result h s).2.parser.calls = s.parser.calls ++ more ∧
      ∀ call ∈ more, call.Piece s.parser.stringChunkSize km := by
  have quiet (hc : (op.result h s).2.parser.calls = s.parser.calls) : ∃ more,
      (op.result h s).2.parser.calls = s.parser.calls ++ more ∧
        ∀ call ∈ more, call.Piece s.parser.stringChunkSize km := ⟨[], by simpa using hc, by simp⟩
  have of_ensures (hE : Ensures (op.exec h) s
      (fun _ s' => ∃ more, s'.parser.calls = s₀.parser.calls ++ (new ++ more) ∧
        ∀ call ∈ more, call.Piece s.parser.stringChunkSize km)
      (fun _ s' => ∃ more, s'.parser.calls = s₀.parser.calls ++ (new ++ more) ∧
        ∀ call ∈ more, call.Piece s.parser.stringChunkSize km)) : ∃ more,
      (op.result h s).2.parser.calls = s.parser.calls ++ more ∧
        ∀ call ∈ more, call.Piece s.parser.stringChunkSize km := by
    unfold Ensures at hE
    unfold Op.result
    rw [hr.calls]
    cases he : op.exec h s <;>
      (rw [he] at hE; obtain ⟨more, hc, hp⟩ := hE; exact ⟨more, by rw [hc, List.append_assoc], hp⟩)
  cases op with
  | write bytes layout => exact quiet rfl
  | setStringChunkSize n => exact quiet rfl
  | receive =>
    refine of_ensures (hr.receive.mono ?_ ?_)
    · rintro - s' ⟨-, -, -, more, hr', hp⟩
      exact ⟨more, hr'.calls, hp⟩
    · rintro e s' ⟨-, more, hp, hst⟩
      exact ⟨more, hst.calls, hp⟩
  | close =>
    refine of_ensures (hr.close.mono ?_ ?_)
    · rintro - s' ⟨-, -, more, hc, hp, -⟩
      exact ⟨more, hc, hp⟩
    · rintro e s' ⟨more, hp, hst⟩
      exact ⟨more, hst.calls, hp⟩
  | ring | reset | setLimits | setRejectDuplicateKeys => exact hop.elim

/-- Nothing is called back after `close`. -/
theorem Op.result_closed {op : Op} (hop : op.Feeds) (hc : s.parser.closed = true) :
    (op.result h s).2.parser.calls = s.parser.calls := by
  have hrun := run_closed (h := h) [op] (by simpa using hop) hc
  rw [run, ensures_bind] at hrun
  unfold Ensures at hrun
  unfold Op.result
  cases he : op.exec h s with
  | ok a s' => rw [he] at hrun; exact hrun.2
  | error e s' => rw [he] at hrun; exact hrun

/-! ## Documents -/

/-- Where a document starts, the machine is at its start. -/
theorem Session.AtStart.core (hs : s.AtStart h) : s.parser.core h =
    Core.start s.parser.rejectDuplicateKeys (h.needsWhitespace s.parser.calls) := by
  have ht : s.parser.tokenizer = none := by rw [← hs.fresh]; rfl
  have hl : s.parser.locator = .new := by rw [← hs.fresh]; rfl
  rw [Parser.core_none ht, hl]
  rfl

theorem Session.AtStart.reads (hs : s.AtStart h) (hi : s.parser.Inv km) :
    s.Reads km h s [] [] := by
  have ht : s.parser.tokenizer = none := by rw [← hs.fresh]; rfl
  have hc : s.parser.closed = false := by rw [← hs.fresh]; rfl
  have := Session.Reads.start (h := h) hi ht hc (by rw [← hs.fresh]; rfl) (by rw [← hs.fresh]; rfl)
  rwa [hs.empty] at this

omit [Double F] in
/-- The largest of the chunk sizes that some steps set. -/
theorem exists_chunk_bound (ops : List Op) :
    ∃ n : Nat, ∀ k : ChunkSize, .setStringChunkSize k ∈ ops → (k : Nat) ≤ n := by
  induction ops with
  | nil => exact ⟨0, by simp⟩
  | cons op ops ih =>
    obtain ⟨n, hn⟩ := ih
    refine ⟨max n (match op with | .setStringChunkSize k => k | _ => 0), fun k hk => ?_⟩
    rcases List.mem_cons.mp hk with rfl | hk
    · exact le_max_right _ _
    · exact (hn k hk).trans (le_max_left _ _)

/-- What some steps of a document come to, with a bound on all keys. -/
theorem Session.AtStart.run (hs : s.AtStart h) {ops : List Op} (hops : ∀ op ∈ ops, op.Feeds) :
    ∃ km, s.parser.Inv km ∧ (∀ n : ChunkSize, .setStringChunkSize n ∈ ops → (n : Nat) ≤ km) ∧
      Ensures (RJsonParser.run h ops) s
      (fun _ s' => ∃ new, s.Went km h s' (stored h ops s) new)
      (fun _ s' => ∃ new, s.Said km h s' (stored h ops s) new) := by
  obtain ⟨k, hi⟩ := hs.reachable.inv
  obtain ⟨n, hn⟩ := exists_chunk_bound ops
  have hi' := hi.mono (le_max_left k n)
  have hn' := fun m hm => (hn m hm).trans (le_max_right k n)
  refine ⟨max k n, hi', hn', ?_⟩
  simpa using run_spec ops hops hn' (hs.reads hi')

/-- What some steps of a document call back, whatever they return. -/
theorem Session.AtStart.said (hs : s.AtStart h) {ops : List Op} (hops : ∀ op ∈ ops, op.Feeds) :
    ∃ km new, s.Said km h (outcome h ops s).2 (stored h ops s) new := by
  obtain ⟨km, -, -, hrun⟩ := hs.run hops
  refine ⟨km, ?_⟩
  unfold Ensures at hrun
  unfold outcome
  cases hr : RJsonParser.run h ops s with
  | ok a s' => rw [hr] at hrun; exact ⟨_, hrun.choose_spec.said⟩
  | error e s' => rw [hr] at hrun; exact hrun

end RJsonParser
