import RJsonParser.Properties.Interning

/-!
# Interning and `reset`

Two parsers that differ in their symbol tables do the same: every call returns the same and calls
back the same, whatever was interned and whether interning is on. So a parser that was reset, whose
table is kept, is as good as a new one.

An interned key that is read has to fit the string chunk size, since a key that is too long for it
is an error where it is decoded and none where it is found. Only keys of up to `MAX_KEY_BYTES` are
interned, so a chunk size from there on is always enough.

* `Reachable.short` — what is interned is short
* `Session.Suits` — no interned key in the ring is too long
* `process_alike`, `feed_alike`, `close_alike` — the calls
* `runAll_alike` — all calls
* `interning_transparent` — where all that is interned fits
* `reset_as_new`, `reset_fresh` — a parser that was reset
-/

namespace RJsonParser

open Infra Infra.Utf8

variable {F : Type}

/-! ## What is interned is short -/

/-- String chunks have `n` bytes, and only short keys are interned. -/
structure Parser.Short (n : ChunkSize) (p : Parser F) : Prop where
  chunk : p.stringChunkSize = n
  keys : p.interner.Short

section Short

variable [Double F] {h : Handler F} {n : ChunkSize}

omit [Double F] in
theorem withTokenizer_short {α : Type} {m : KeyM F α} (hm : KeepsShort m) :
    Keeps (fun q : Parser F × Nat => q.1.Short n) (withTokenizer m) := by
  rintro ⟨p, c⟩ hp
  cases ht : p.tokenizer with
  | none =>
    unfold Ensures withTokenizer
    simp only [ht]
    exact hp
  | some t =>
    rw [ensures_withTokenizer ht]
    exact (hm (p.world t, p.interner) hp.keys).mono (fun _ _ hs => ⟨hp.chunk, hs⟩)
      fun _ _ hs => ⟨hp.chunk, hs⟩

theorem process_short (input : Spans) :
    Keeps (fun q : Parser F × Nat => q.1.Short n) (process h input) := by
  unfold process skipBom
  refine .bind
    (.get_bind fun q hq => .ite (.pure _) (.bind (.ofExcept _) fun bom => ?_)) fun o => ?_
  · cases bom with
    | needMore => exact .pure _
    | skip k => exact .bind (fun _ _ => ⟨hq.chunk, hq.keys⟩) fun _ => .pure _
  · cases o with
    | none => exact .pure _
    | some input =>
      refine .bind (.modify fun q hq => ?_) fun _ => ?_
      · show (q.1.startTokenizer h).Short n
        unfold Parser.startTokenizer
        split
        · exact hq
        · exact ⟨hq.chunk, hq.keys.of_table rfl⟩
      · exact .get_bind fun q _ => withTokenizer_short receive_short

/-- What a method that is passed the ring keeps. -/
def SessionShort {α : Type} (n : ChunkSize) (m : SessionM F α) : Prop :=
  Keeps (fun s : Session F => s.parser.Short n) m

theorem feed_short (checkRoom : Bool) : SessionShort n (feed h checkRoom) := by
  have hmodify {f : Parser F → Parser F} (hf : ∀ p, p.Short n → (f p).Short n) :
      SessionShort n (modifyParser f) := .modify fun s hs => hf s.parser hs
  have hcount (k : Nat) : SessionShort (F := F) n (countDocument k) := by
    unfold countDocument
    refine .get_bind fun s _ => ?_
    cases s.parser.limits.maxDocumentLength with
    | none => exact .pure _
    | some max =>
      exact .bind (hmodify fun _ hp => ⟨hp.chunk, hp.keys⟩) fun _ => .ite (.throw _) (.pure _)
  have hring : SessionShort n (processRing h) := by
    intro s hs
    refine (processRing_spec (process_short s.buf.spans (s.parser, 0) hs)).mono ?_ ?_
    · rintro k s' ⟨p', rfl, hp⟩
      exact hp
    · rintro e s' ⟨p', k, rfl, hp⟩
      exact hp
  unfold feed
  refine .get_bind fun s _ => .ite (.pure _) (.bind (hcount _) fun _ => .bind hring fun _ => ?_)
  refine .get_bind fun s _ => .bind (hmodify fun _ hp => ⟨hp.chunk, hp.keys⟩) fun _ => ?_
  exact .ite (.throw _) (.pure _)

theorem closeTokenizer_short : SessionShort n (closeTokenizer h) := by
  intro s hs
  have hend := withTokenizer_short (KeepsShort.zoom (endOfInput h)) (s.parser, 0) hs
  unfold Ensures at hend ⊢
  unfold closeTokenizer
  cases hr : withTokenizer (zoom (endOfInput h)) (s.parser, 0) with
  | ok a q =>
    rw [hr] at hend
    exact hend
  | error e q =>
    rw [hr] at hend
    exact hend

theorem close_short : SessionShort n (Parser.close h) := by
  have hfeed : SessionShort n (closeFeed h) := by
    unfold closeFeed
    refine .get_bind fun s _ => ?_
    cases s.parser.tokenizer with
    | none =>
      exact .bind (feed_short false) fun _ => .get_bind fun s _ => .ite (.throw _) (.pure _)
    | some t => exact .ite (feed_short false) (.pure _)
  have hcomplete : SessionShort (F := F) n checkComplete := by
    unfold checkComplete
    refine .get_bind fun s _ => ?_
    cases s.parser.tokenizer with
    | none => exact .throw _
    | some t =>
      refine .ite (.throw _) ?_
      cases t.depthStack with
      | nil => exact .pure _
      | cons token rest => cases token <;> exact .throw _
  unfold Parser.close
  refine .get_bind fun s _ => .ite (.pure _) (.bind ?_ fun _ => ?_)
  · exact .modify fun s hs => ⟨hs.chunk, hs.keys⟩
  refine .bind hfeed fun _ => .get_bind fun s _ => .ite (.throw _) ?_
  exact .bind closeTokenizer_short fun _ => hcomplete

/-- The string chunk size after a step. -/
def Op.chunk (n : ChunkSize) : Op → ChunkSize
  | .setStringChunkSize m => m
  | .write .. | .ring .. | .receive | .close | .reset => n
  | .setLimits _ | .setRejectDuplicateKeys _ => n

theorem Op.exec_short (op : Op) : Leads (fun s : Session F => s.parser.Short n)
    (fun s => s.parser.Short (op.chunk n)) (fun s => s.parser.Short (op.chunk n)) (op.exec h) := by
  have hmodify {f : Parser F → Parser F} (hf : ∀ p, p.Short n → (f p).Short n) :
      SessionShort n (modifyParser f) := .modify fun s hs => hf s.parser hs
  cases op with
  | write bytes layout => exact Keeps.modify fun s hs => hs
  | ring capacity layout => exact Keeps.modify fun s hs => hs
  | receive =>
    show SessionShort n (Parser.receive h)
    exact .get_bind fun s _ => .ite (.throw _) (feed_short true)
  | close => exact close_short
  | reset => exact hmodify fun _ hp => ⟨hp.chunk, hp.keys⟩
  | setLimits limits =>
    exact hmodify (f := (·.setLimits limits)) fun _ hp => ⟨hp.chunk, hp.keys⟩
  | setRejectDuplicateKeys b =>
    exact hmodify (f := (·.setRejectDuplicateKeys b)) fun _ hp => ⟨hp.chunk, hp.keys⟩
  | setStringChunkSize m => exact fun s hs => ⟨rfl, hs.keys⟩

/-- What a step ensures holds of the session after it, whatever it returns. -/
theorem Op.result_of_ensures {I : Session F → Prop} {op : Op} {s : Session F}
    (hop : Ensures (op.exec h) s (fun _ => I) (fun _ => I)) : I (op.result h s).2 := by
  unfold Ensures at hop
  unfold Op.result
  cases hr : op.exec h s <;> (rw [hr] at hop; exact hop)

/-- **What is interned is short**, whatever a caller did. -/
theorem Reachable.short {s : Session F} (hs : Reachable h s) :
    s.parser.Short s.parser.stringChunkSize := by
  induction hs with
  | new calls bufferSize capacity layout => exact ⟨rfl, Interner.start_short⟩
  | step _ op ih => exact ⟨rfl, (Op.result_of_ensures (Op.exec_short op _ ih)).keys⟩

end Short

/-! ## Parsers that differ in their tables -/

/-- The same tokenizer, but for the character buffer where it is in no string value. -/
inductive Tokenizer.Alike : Option Tokenizer → Option Tokenizer → Prop where
  | same (o : Option Tokenizer) : Alike o o
  | idle (t : Tokenizer) (chars : Text) (hs : t.inString = false) :
      Alike (some t) (some { t with chars := chars })

/-- The same parser, but for the symbol table and a character buffer that is not in use. -/
def Parser.Alike (p p' : Parser F) : Prop :=
  ∃ k o, p' = { p with interner := k, tokenizer := o } ∧ Tokenizer.Alike p.tokenizer o

section Calls

variable {p p' : Parser F}

theorem Parser.Alike.world (h : p.Alike p') {t t' : Tokenizer} (ht : p.tokenizer = some t)
    (ht' : p'.tokenizer = some t') : RJsonParser.Alike (p.world t) (p'.world t') := by
  obtain ⟨k, o, rfl, ho⟩ := h
  obtain rfl : o = some t' := ht'
  rw [ht] at ho
  cases ho with
  | same => exact .refl _
  | idle _ chars hs => exact .inr ⟨hs, chars, rfl⟩

theorem Parser.Alike.resumed (h : p.Alike p') {s s' : World F × Interner}
    (hw : RJsonParser.Alike s.1 s'.1) :
    (p.resumed s).Alike (p'.resumed s') := by
  obtain ⟨k, o, rfl, -⟩ := h
  obtain ⟨w, k₁⟩ := s
  obtain ⟨w', k₂⟩ := s'
  replace hw : RJsonParser.Alike w w' := hw
  rcases hw with rfl | ⟨hw, chars, rfl⟩
  · exact ⟨k₂, some w.tok, rfl, .same _⟩
  · exact ⟨k₂, some _, rfl, .idle w.tok chars hw⟩

/-- The parsers of two results and what was consumed. -/
structure Resumed (q q' : Parser F × Nat) : Prop where
  parser : q.1.Alike q'.1
  consumed : q'.2 = q.2

theorem withTokenizer_none {α : Type} {m : KeyM F α} {c : Nat} (ht : p.tokenizer = none) :
    withTokenizer m (p, c) = .error .panic (p, c) := by
  simp only [withTokenizer, ht]

theorem withTokenizer_alike {α : Type} {m : KeyM F α} (h : p.Alike p') (c : Nat)
    (hm : ∀ t t', p.tokenizer = some t → p'.tokenizer = some t' →
      Agree (fun s s' => RJsonParser.Alike s.1 s'.1) (m (p.world t, p.interner))
        (m (p'.world t', p'.interner))) :
    Agree Resumed (withTokenizer m (p, c)) (withTokenizer m (p', c)) := by
  obtain ⟨k, o, rfl, ho⟩ := id h
  cases ht : p.tokenizer with
  | none =>
    rw [ht] at ho
    cases ho
    rw [withTokenizer_none ht, withTokenizer_none rfl]
    exact Agree.error _ (Resumed.mk h rfl)
  | some t =>
    rw [ht] at ho
    obtain ⟨t', rfl⟩ : ∃ t', o = some t' := by cases ho <;> exact ⟨_, rfl⟩
    have hrun := hm t t' ht rfl
    rw [withTokenizer_eq ht,
      withTokenizer_eq (p := { p with interner := k, tokenizer := some t' }) rfl]
    generalize m (p.world t, p.interner) = r at hrun
    generalize m _ = r' at hrun
    cases hrun with
    | ok a hs => exact .ok a ⟨h.resumed hs, by rw [hs.consumed]⟩
    | error e hs => exact .error e ⟨h.resumed hs, by rw [hs.consumed]⟩

theorem Parser.Alike.isSome (h : p.Alike p') : p'.tokenizer.isSome = p.tokenizer.isSome := by
  obtain ⟨k, o, rfl, ho⟩ := h
  show o.isSome = p.tokenizer.isSome
  generalize p.tokenizer = o' at ho
  cases ho <;> rfl

variable [Double F] {h : Handler F} {input : Spans} {l : List UInt8}

/-- The parser has the bytes `l` left, and of the keys that it comes to in them those that are
interned fit the string chunk size. -/
structure Parser.Meets (h : Handler F) (p : Parser F) (l : List UInt8) : Prop where
  inv : ∃ km, p.Inv km
  suits : p.interner.Suits F p.limits p.stringChunkSize (p.core h) l

theorem Parser.Meets.running (hp : p.Meets h input.bytes) {t : Tokenizer}
    (ht : p.tokenizer = some t) : Running ⟨h, p.limits, input⟩ (p.world t, p.interner) := by
  obtain ⟨⟨km, hi⟩, hsuits⟩ := hp
  obtain ⟨hti, hchunk⟩ := hi.tokenizer t ht
  rw [Parser.core_some ht, ← hchunk] at hsuits
  exact ⟨hti.world .., ⟨km, hchunk ▸ hi.chunk, hi.interner⟩, hsuits⟩

/-- The tokenizer's `receive`. -/
theorem withTokenizer_receive_alike (ha : p.Alike p') (hp : p.Meets h input.bytes)
    (hp' : p'.Meets h input.bytes) (c : Nat) :
    Agree Resumed (withTokenizer (receive ⟨h, p.limits, input⟩) (p, c))
      (withTokenizer (receive ⟨h, p.limits, input⟩) (p', c)) := by
  refine withTokenizer_alike ha c fun t t' ht ht' =>
    receive_twins ⟨ha.world ht ht', hp.running ht, ?_⟩
  have hlimits : p'.limits = p.limits := by
    obtain ⟨k, o, rfl, -⟩ := ha
    rfl
  exact hlimits ▸ hp'.running ht'

/-- The byte order mark is passed. -/
theorem Parser.Meets.begun (hp : p.Meets h l) (ht : p.tokenizer = none) {n : Nat}
    (hf : bomFront l = .found n) : (p.begun h).Meets h (l.drop n) := by
  obtain ⟨⟨km, hi⟩, hsuits⟩ := hp
  obtain ⟨hi₁, hsame, -, -, hcore⟩ := hi.begun (h := h) ht
  have hnext := Parser.next_begin (h := h) ht l
  rw [hf] at hnext
  have htable : (p.begun h).interner.table = p.interner.table := by
    rw [Parser.begun_eq ht]
    rfl
  refine ⟨⟨km, hi₁⟩, ?_⟩
  rw [hsame.limits, hsame.stringChunkSize, hcore]
  exact (hsuits.steps (steps_of_next hnext)).gains (.of_table htable)

section Process

/-- `process` once the byte order mark was looked for. -/
theorem process_started {t : Tokenizer} (hb : p.checkedBom = true) (ht : p.tokenizer = some t) :
    process h input (p, 0) = withTokenizer (receive ⟨h, p.limits, input⟩) (p, 0) := by
  have hskip : skipBom input (p, 0) = .ok (some input) (p, 0) := by
    unfold skipBom
    rw [get_bind_apply]
    simp only [hb, if_true]
    rfl
  have hstart : p.startTokenizer h = p := by simp [Parser.startTokenizer, ht]
  unfold process
  rw [bind_of_ok hskip]
  show withTokenizer (receive ⟨h, (p.startTokenizer h).limits, input⟩) (p.startTokenizer h, 0) = _
  rw [hstart]

/-- `process` before that. -/
theorem process_fresh (hb : p.checkedBom = false) :
    process h input (p, 0) =
      match checkBom input with
      | .error e => .error e (p, 0)
      | .ok .needMore => .ok () (p, 0)
      | .ok (.skip k) =>
        withTokenizer (receive ⟨h, (p.begun h).limits, input.skip k⟩) (p.begun h, 0 + k) := by
  have hskip : skipBom input (p, 0) =
      match checkBom input with
      | .error e => .error e (p, 0)
      | .ok .needMore => .ok none (p, 0)
      | .ok (.skip k) => .ok (some (input.skip k)) ({ p with checkedBom := true }, 0 + k) := by
    unfold skipBom
    rw [get_bind_apply]
    simp only [hb, Bool.false_eq_true, if_false]
    rcases checkBom input with e | (_ | k) <;> rfl
  rcases hc : checkBom input with e | (_ | k) <;> rw [hc] at hskip
  · exact bind_of_error hskip _
  · exact bind_of_ok hskip _
  · exact bind_of_ok hskip _

/-- **`process`** comes to the same with any two tables. -/
theorem process_alike (ha : p.Alike p') (hp : p.Meets h input.bytes)
    (hp' : p'.Meets h input.bytes) :
    Agree Resumed (process h input (p, 0)) (process h input (p', 0)) := by
  have hrefl : Resumed ((p, 0) : Parser F × Nat) (p', 0) := ⟨ha, rfl⟩
  have hsome := ha.isSome
  obtain ⟨km, hi⟩ := hp.inv
  obtain ⟨km', hi'⟩ := hp'.inv
  cases ht : p.tokenizer with
  | some t =>
    rw [ht] at hsome
    obtain ⟨t', ht'⟩ := Option.isSome_iff_exists.mp hsome
    rw [process_started (by rw [hi.bom, ht]; rfl) ht,
      process_started (by rw [hi'.bom, ht']; rfl) ht']
    have hlimits : p'.limits = p.limits := by
      obtain ⟨k, o, rfl, -⟩ := ha
      rfl
    rw [hlimits]
    exact withTokenizer_receive_alike ha hp hp' 0
  | none =>
    rw [ht] at hsome
    have ht' : p'.tokenizer = none := by simpa using hsome
    have hbom := checkBom_spec input
    rw [process_fresh (by rw [hi.bom, ht]; rfl), process_fresh (by rw [hi'.bom, ht']; rfl)]
    cases hf : bomFront input.bytes with
    | need =>
      rw [hf] at hbom
      rw [show checkBom input = .ok .needMore from hbom]
      exact .ok () hrefl
    | bad =>
      rw [hf] at hbom
      obtain ⟨m, hm⟩ := hbom
      rw [hm]
      exact .error _ hrefl
    | found n =>
      rw [hf] at hbom
      rw [show checkBom input = .ok (.skip n) from hbom]
      have hbegun : (p.begun h).Alike (p'.begun h) := by
        obtain ⟨k, o, rfl, -⟩ := ha
        obtain rfl : o = none := ht'
        rw [Parser.begun_eq ht, Parser.begun_eq rfl]
        exact ⟨_, _, rfl, .same _⟩
      have hlimits : (p'.begun h).limits = (p.begun h).limits := by
        obtain ⟨k, o, ho, -⟩ := hbegun
        rw [ho]
      simp only
      rw [hlimits]
      exact withTokenizer_receive_alike hbegun (hp.begun ht hf) (hp'.begun ht' hf) _

end Process

end Calls

/-! ## The calls of a session -/

/-- The same ring, and the same parser but for the symbol table. -/
structure Session.Alike (s s' : Session F) : Prop where
  parser : s.parser.Alike s'.parser
  buf : s'.buf = s.buf

/-- The session stands as `Parser.Meets` says of what is in the ring. -/
def Session.Meets [Double F] (h : Handler F) (s : Session F) : Prop :=
  s.parser.Meets h s.buf.bytes

/-- What is changed is neither the tokenizer nor the table. -/
theorem Parser.Alike.map {p p' : Parser F} (h : p.Alike p') {f : Parser F → Parser F}
    (hf : ∀ p k o, f { p with interner := k, tokenizer := o } =
      { f p with interner := k, tokenizer := o }) (ht : ∀ p, (f p).tokenizer = p.tokenizer) :
    (f p).Alike (f p') := by
  obtain ⟨k, o, rfl, ho⟩ := h
  exact ⟨k, o, hf p k o, by rwa [ht]⟩

theorem Session.Alike.modifyParser {f : Parser F → Parser F}
    (hf : ∀ p k o, f { p with interner := k, tokenizer := o } =
      { f p with interner := k, tokenizer := o }) (ht : ∀ p, (f p).tokenizer = p.tokenizer) :
    Lockstep Session.Alike (modifyParser f) (modifyParser f) :=
  .modify fun _ _ h => ⟨h.parser.map hf ht, h.buf⟩

/-- A program that does not look at the table, nor at the character buffer. -/
theorem Session.Alike.get_bind {α : Type} {f : Session F → SessionM F α}
    (hf : ∀ s s', Session.Alike s s' → f s' = f s)
    (h : ∀ s, Lockstep Session.Alike (f s) (f s)) :
    Lockstep Session.Alike (get >>= f) (get >>= f) := by
  refine .get_bind fun s s' hs => ?_
  rw [hf s s' hs]
  exact h s s s' hs

section Session

variable [Double F] {h : Handler F} {s s' : Session F}

omit [Double F] in
theorem countDocument_alike (available : Nat) :
    Lockstep Session.Alike (countDocument (F := F) available) (countDocument available) := by
  unfold countDocument
  refine Session.Alike.get_bind ?_ fun s => ?_
  · rintro s s' ⟨⟨k, o, hp, -⟩, -⟩
    rw [hp]
  · cases s.parser.limits.maxDocumentLength with
    | none => exact .pure _
    | some max =>
      refine .bind (Session.Alike.modifyParser (fun _ _ _ => rfl) fun _ => rfl) fun _ => ?_
      exact .ite (.throw _) (.pure _)

theorem processRing_alike (ha : s.Alike s') (hs : s.Meets h) (hs' : s'.Meets h) :
    Agree Session.Alike (processRing h s) (processRing h s') := by
  have hleft : s.parser.Meets h s.buf.spans.bytes := by
    rw [LoopBuf.spans_bytes]
    exact hs
  have hright : s'.parser.Meets h s.buf.spans.bytes := by
    rw [LoopBuf.spans_bytes, ← ha.buf]
    exact hs'
  have hrun : Agree Resumed (process h s.buf.spans (s.parser, 0))
      (process h s.buf.spans (s'.parser, 0)) := process_alike ha.parser hleft hright
  unfold processRing
  rw [ha.buf]
  generalize process h s.buf.spans (s.parser, 0) = r at hrun
  generalize process h s.buf.spans (s'.parser, 0) = r' at hrun
  cases hrun with
  | ok a hs =>
    simp only [hs.consumed]
    exact .ok _ ⟨hs.parser, rfl⟩
  | error e hs =>
    simp only [hs.consumed]
    exact .error e ⟨hs.parser, rfl⟩

/-- The length of the document is no matter. -/
theorem countDocument_meets (available : Nat) (hs : s.Meets h) :
    Ensures (countDocument available) s (fun _ s' => s'.Meets h) fun _ _ => True := by
  refine (countDocument_spec available s).mono ?_ fun _ _ _ => trivial
  rintro - s' ⟨k, rfl⟩
  obtain ⟨⟨km, hi⟩, hsuits⟩ := hs
  exact ⟨⟨km, hi.tokenizer, hi.bom, hi.interner, hi.chunk⟩, hsuits⟩

/-- **`feed`** comes to the same with any two tables. -/
theorem feed_alike (checkRoom : Bool) (ha : s.Alike s') (hs : s.Meets h) (hs' : s'.Meets h) :
    Agree Session.Alike (feed h checkRoom s) (feed h checkRoom s') := by
  unfold feed
  rw [get_bind_apply, get_bind_apply]
  simp only [ha.buf]
  refine .ite (fun _ => .ok _ ha) fun _ => ?_
  -- the length is counted, and the ring is processed with the tables as they were
  refine (countDocument_alike s.buf.len s s' ha).bind_spec (countDocument_meets s.buf.len hs)
    (countDocument_meets s.buf.len hs') (fun _ s₁ s₁' h₁ hs₁ hs₁' => ?_) fun _ _ h => h
  refine (processRing_alike h₁ hs₁ hs₁').bind ?_ fun _ _ h => h
  intro consumed s₂ s₂' h₂
  refine Session.Alike.get_bind ?_ (fun s => ?_) s₂ s₂' h₂
  · rintro s s' ⟨-, hbuf⟩
    rw [hbuf]
  · refine .bind (Session.Alike.modifyParser (fun _ _ _ => rfl) fun _ => rfl) fun _ => ?_
    exact .ite (.throw _) (.pure _)

theorem receive_session_alike (ha : s.Alike s') (hs : s.Meets h) (hs' : s'.Meets h) :
    Agree Session.Alike (Parser.receive h s) (Parser.receive h s') := by
  have hclosed : s'.parser.closed = s.parser.closed := by
    obtain ⟨⟨k, o, hp, -⟩, -⟩ := ha
    rw [hp]
  unfold Parser.receive
  rw [get_bind_apply, get_bind_apply, hclosed]
  exact .ite (fun _ => .error _ ha) fun _ => feed_alike true ha hs hs'

theorem closeFeed_alike (ha : s.Alike s') (hs : s.Meets h) (hs' : s'.Meets h) :
    Agree Session.Alike (closeFeed h s) (closeFeed h s') := by
  have hsome := ha.parser.isSome
  unfold closeFeed
  rw [get_bind_apply, get_bind_apply]
  cases ht : s.parser.tokenizer with
  | none =>
    rw [ht] at hsome
    have ht' : s'.parser.tokenizer = none := by simpa using hsome
    simp only [ht']
    refine (feed_alike false ha hs hs').bind (fun _ s₁ s₁' h₁ => ?_) fun _ _ h => h
    rw [get_bind_apply, get_bind_apply]
    have hsome := h₁.parser.isSome
    cases hs₁ : s₁.parser.tokenizer with
    | none =>
      rw [hs₁] at hsome
      have hs₁' : s₁'.parser.tokenizer = none := by simpa using hsome
      rw [if_pos rfl, if_pos hs₁']
      exact .error _ h₁
    | some t =>
      rw [hs₁] at hsome
      rw [if_neg (by simp), if_neg (by rintro hn; rw [hn] at hsome; cases hsome)]
      exact .ok _ h₁
  | some t =>
    rw [ht] at hsome
    obtain ⟨t', ht'⟩ := Option.isSome_iff_exists.mp hsome
    simp only [ht', ha.buf]
    exact .ite (fun _ => feed_alike false ha hs hs') fun _ => .ok _ ha

theorem closeTokenizer_alike :
    Lockstep Session.Alike (closeTokenizer h) (closeTokenizer h) := by
  intro s s' ha
  have hend : Agree Resumed (withTokenizer (zoom (endOfInput h)) (s.parser, 0))
      (withTokenizer (zoom (endOfInput h)) (s'.parser, 0)) := by
    refine withTokenizer_alike ha.parser 0 fun t t' hp hp' => ?_
    have hworld := Alike.lockstep (Idle.endOfInput h) _ _ (ha.parser.world hp hp')
    exact (hworld.zoom s.parser.interner s'.parser.interner).mono fun _ _ h => h.1
  unfold closeTokenizer
  generalize withTokenizer (zoom (endOfInput h)) (s.parser, 0) = r at hend
  generalize withTokenizer (zoom (endOfInput h)) (s'.parser, 0) = r' at hend
  cases hend with
  | ok a hs => exact .ok _ ⟨hs.parser, ha.buf⟩
  | error e hs => exact .error e ⟨hs.parser, ha.buf⟩

omit [Double F] in
theorem checkComplete_alike : Lockstep Session.Alike (checkComplete (F := F)) checkComplete := by
  refine Session.Alike.get_bind ?_ fun s => ?_
  · rintro s s' ⟨⟨k, o, hp, ho⟩, -⟩
    rw [hp]
    simp only
    generalize s.parser.tokenizer = o' at ho
    cases ho <;> rfl
  · cases s.parser.tokenizer with
    | none => exact .throw _
    | some t =>
      refine .ite (.throw _) ?_
      cases t.depthStack with
      | nil => exact .pure _
      | cons token rest => cases token <;> exact .throw _

/-- **`close`** comes to the same with any two tables. -/
theorem close_alike (ha : s.Alike s') (hs : s.Meets h) (hs' : s'.Meets h) :
    Agree Session.Alike (Parser.close h s) (Parser.close h s') := by
  have hclosing {s : Session F} (hs : s.Meets h) :
      Session.Meets h { s with parser := s.parser.closing } := by
    obtain ⟨⟨km, hi⟩, hsuits⟩ := hs
    exact ⟨⟨km, hi.tokenizer, hi.bom, hi.interner, hi.chunk⟩, hsuits⟩
  have hclosed : s'.parser.closed = s.parser.closed := by
    obtain ⟨⟨k, o, hp, -⟩, -⟩ := ha
    rw [hp]
  have ha₁ : Session.Alike { s with parser := s.parser.closing }
      { s' with parser := s'.parser.closing } :=
    ⟨ha.parser.map (f := Parser.closing) (fun _ _ _ => rfl) fun _ => rfl, ha.buf⟩
  unfold Parser.close
  rw [get_bind_apply, get_bind_apply, hclosed]
  refine .ite (fun _ => .ok _ ha) fun _ => ?_
  refine (closeFeed_alike ha₁ (hclosing hs) (hclosing hs')).bind ?_ fun _ _ h => h
  rintro - s₁ s₁' h₁
  refine Session.Alike.get_bind ?_ (fun s => .ite (.throw _) ?_) s₁ s₁' h₁
  · rintro s s' ⟨-, hbuf⟩
    rw [hbuf]
  · exact .bind closeTokenizer_alike fun _ => checkComplete_alike

omit [Double F] in
theorem Tokenizer.Alike.map {o o' : Option Tokenizer} (h : Tokenizer.Alike o o')
    {f : Tokenizer → Tokenizer} (hf : ∀ t chars, f { t with chars := chars } =
      { f t with chars := chars })
    (hs : ∀ t, (f t).inString = t.inString) : Tokenizer.Alike (o.map f) (o'.map f) := by
  cases h with
  | same => exact .same _
  | idle t chars ht =>
    show Tokenizer.Alike (some (f t)) (some (f { t with chars := chars }))
    rw [hf t chars]
    exact .idle _ chars ((hs t).trans ht)

/-- The steps that read what is in the ring. -/
def Op.Reads : Op → Prop
  | .receive | .close => True
  | _ => False

/-- **One step** of a caller comes to the same with any two tables. -/
theorem exec_alike {op : Op} (ha : s.Alike s') (hs : op.Reads → s.Meets h)
    (hs' : op.Reads → s'.Meets h) : Agree Session.Alike (op.exec h s) (op.exec h s') := by
  cases op with
  | write bytes layout =>
    refine .ok _ ⟨ha.parser, ?_⟩
    show s'.buf.write bytes layout = s.buf.write bytes layout
    rw [ha.buf]
  | ring capacity layout => exact .ok _ ⟨ha.parser, rfl⟩
  | receive => exact receive_session_alike ha (hs trivial) (hs' trivial)
  | close => exact close_alike ha (hs trivial) (hs' trivial)
  | reset =>
    refine .ok _ ⟨?_, ha.buf⟩
    show s.parser.reset.Alike s'.parser.reset
    obtain ⟨k, o, hp, -⟩ := ha.parser
    rw [hp]
    exact ⟨k, none, rfl, .same none⟩
  | setLimits limits =>
    exact .ok _ ⟨ha.parser.map (f := (·.setLimits limits)) (fun _ _ _ => rfl) fun _ => rfl, ha.buf⟩
  | setRejectDuplicateKeys b =>
    exact .ok _ ⟨ha.parser.map (f := (·.setRejectDuplicateKeys b)) (fun _ _ _ => rfl) fun _ => rfl,
      ha.buf⟩
  | setStringChunkSize m =>
    refine .ok _ ⟨?_, ha.buf⟩
    show (s.parser.setStringChunkSize m).Alike (s'.parser.setStringChunkSize m)
    obtain ⟨k, o, hp, ho⟩ := ha.parser
    rw [hp]
    exact ⟨k, _, rfl, ho.map (fun _ _ => rfl) fun _ => rfl⟩

end Session

/-! ## All calls -/

/-- Of the keys in the ring that the parser comes to, those that are interned fit the string chunk
size. -/
def Session.Suits [Double F] (h : Handler F) (s : Session F) : Prop :=
  s.parser.interner.Suits F s.parser.limits s.parser.stringChunkSize (s.parser.core h) s.buf.bytes

/-- This is so at every step that reads the ring. -/
def SuitsAll [Double F] (h : Handler F) : List Op → Session F → Prop
  | [], _ => True
  | op :: ops, s => (op.Reads → s.Suits h) ∧ SuitsAll h ops (op.result h s).2

/-- What a caller sees of a session: the calls of the handler with the positions in them, the
position and the ring. -/
structure Session.Looks (s s' : Session F) : Prop where
  calls : s'.parser.calls = s.parser.calls
  locator : s'.parser.locator = s.parser.locator
  buf : s'.buf = s.buf

section Runs

variable [Double F] {h : Handler F} {n : ChunkSize} {s s' : Session F}

omit [Double F] in
theorem Session.Alike.looks (ha : s.Alike s') : s.Looks s' := by
  obtain ⟨k, o, hp, -⟩ := ha.parser
  exact ⟨by rw [hp], by rw [hp], ha.buf⟩

/-- **All steps** come to the same with any two tables. -/
theorem runAll_alike : ∀ {ops : List Op} {s s' : Session F}, (∃ km, s.parser.Inv km) →
    (∃ km, s'.parser.Inv km) → SuitsAll h ops s → SuitsAll h ops s' → s.Alike s' →
    (runAll h ops s').1 = (runAll h ops s).1 ∧ (runAll h ops s).2.Looks (runAll h ops s').2
  | [], _, _, _, _, _, _, ha => ⟨rfl, ha.looks⟩
  | op :: ops, s, s', hi, hi', hs, hs', ha => by
    obtain ⟨hop, hops⟩ := hs
    obtain ⟨hop', hops'⟩ := hs'
    have hexec := exec_alike (h := h) ha (fun hr => ⟨hi, hop hr⟩) fun hr => ⟨hi', hop' hr⟩
    have hresult : (op.result h s').1 = (op.result h s).1 ∧
        (op.result h s).2.Alike (op.result h s').2 := by
      unfold Op.result
      generalize op.exec h s = r at hexec
      generalize op.exec h s' = r' at hexec
      cases hexec with
      | ok a ha => exact ⟨rfl, ha⟩
      | error e ha => exact ⟨rfl, ha⟩
    obtain ⟨hfirst, ha'⟩ := hresult
    have hinv {s : Session F} (hi : ∃ km, s.parser.Inv km) :
        ∃ km, (op.result h s).2.parser.Inv km := by
      obtain ⟨km, hi⟩ := hi
      obtain ⟨km', -, hi'⟩ := Op.result_inv (h := h) hi op
      exact ⟨km', hi'⟩
    obtain ⟨hrest, hlooks⟩ := runAll_alike (hinv hi) (hinv hi') hops hops' ha'
    refine ⟨?_, hlooks⟩
    show (op.result h s').1 :: (runAll h ops (op.result h s').2).1 = _
    rw [hfirst, hrest]
    rfl

/-! ## Where all that is interned fits -/

/-- String chunks have `n` bytes, and every interned key fits. -/
structure Parser.Keyed (n : ChunkSize) (p : Parser F) : Prop where
  inv : p.Inv n
  short : p.Short n

theorem Parser.Keyed.suits (hs : s.parser.Keyed n) : s.Suits h := by
  unfold Session.Suits
  rw [hs.short.chunk]
  exact hs.inv.interner.suits

/-- Whatever was interned fits the string chunk size that is set. -/
def Op.KeepsRoom (n : ChunkSize) (op : Op) : Prop := min n.1 maxKeyBytes ≤ op.chunk n

/-- Whatever was interned fits the string chunk sizes that are set, the first of them `n`. -/
def KeepRoom : ChunkSize → List Op → Prop
  | _, [] => True
  | n, op :: ops => op.KeepsRoom n ∧ KeepRoom (op.chunk n) ops

theorem Op.result_keyed {op : Op} (hop : op.KeepsRoom n) (hs : s.parser.Keyed n) :
    (op.result h s).2.parser.Keyed (op.chunk n) := by
  have hshort := Op.result_of_ensures (Op.exec_short (h := h) op s hs.short)
  refine ⟨?_, hshort⟩
  cases op with
  | setStringChunkSize m =>
    have hi := (hs.inv.mono (le_max_left n.1 m.1)).setStringChunkSize m (le_max_right _ _)
    exact ⟨hi.tokenizer, hi.bom, hs.short.keys.inv hs.inv.interner hop, le_rfl⟩
  | _ => exact Op.result_inv_le hs.inv _ (by simp)

/-- All that is interned fits all along. -/
theorem Parser.Keyed.suitsAll : ∀ {ops : List Op} {n : ChunkSize} {s : Session F},
    s.parser.Keyed n → KeepRoom n ops → SuitsAll h ops s
  | [], _, _, _, _ => trivial
  | _ :: _, _, _, hs, hops => ⟨fun _ => hs.suits, (Op.result_keyed hops.1 hs).suitsAll hops.2⟩

/-- Every interned key has at most `n` bytes. -/
def Interner.Fits (k : Interner) (n : Nat) : Prop := ∀ s ∈ k.table.entries, byteLen s.value ≤ n

/-- String chunks of `MAX_KEY_BYTES` bytes always have room. -/
theorem Reachable.fits (hs : Reachable h s) (hn : maxKeyBytes ≤ s.parser.stringChunkSize.1) :
    s.parser.interner.Fits s.parser.stringChunkSize := by
  obtain ⟨km, hi⟩ := hs.inv
  exact (hs.short.keys.inv hi.interner ((min_le_right _ _).trans hn)).fits

theorem Reachable.runAll (hs : Reachable h s) (ops : List Op) : Reachable h (runAll h ops s).2 := by
  induction ops generalizing s with
  | nil => exact hs
  | cons op ops ih => exact ih (hs.step op)

theorem Reachable.keyed (hs : Reachable h s)
    (hfit : s.parser.interner.Fits s.parser.stringChunkSize) :
    s.parser.Keyed s.parser.stringChunkSize := by
  obtain ⟨km, hi⟩ := hs.inv
  have hk : s.parser.interner.Inv s.parser.stringChunkSize :=
    ⟨hi.interner.wf, hi.interner.own, hfit⟩
  exact ⟨⟨hi.tokenizer, hi.bom, hk, le_rfl⟩, hs.short⟩

/-- **Interning cannot be observed.** Of two sessions that differ in their symbol tables, whatever
was interned and whether interning was given up, all further calls return the same, and they make
the same callbacks at the same positions. -/
theorem interning_transparent {s s' : Session F} (hs : Reachable h s) (hs' : Reachable h s')
    (hsame : s' = { s with parser := { s.parser with interner := s'.parser.interner } })
    (hfit : s.parser.interner.Fits s.parser.stringChunkSize)
    (hfit' : s'.parser.interner.Fits s.parser.stringChunkSize) {ops : List Op}
    (hops : KeepRoom s.parser.stringChunkSize ops) :
    (runAll h ops s').1 = (runAll h ops s).1 ∧
      (runAll h ops s).2.Looks (runAll h ops s').2 := by
  have hchunk : s'.parser.stringChunkSize = s.parser.stringChunkSize := by rw [hsame]
  have hright : s'.parser.Keyed s.parser.stringChunkSize := by
    rw [← hchunk] at hfit' ⊢
    exact hs'.keyed hfit'
  refine runAll_alike hs.inv hs'.inv ((hs.keyed hfit).suitsAll hops) (hright.suitsAll hops) ⟨?_, ?_⟩
  · exact ⟨s'.parser.interner, s.parser.tokenizer, by rw [hsame], .same _⟩
  · rw [hsame]

/-- A parser with one key in its table and one with none. -/
theorem interning_transparent_object :
    let doc : List Op :=
      [.write [0x7B, 0x22, 0x61, 0x22, 0x3A, 0x31, 0x7D] (.split 2), .receive, .close]
    let used : Session Rat := (runAll .accepting doc (.new 64 (.split 0))).2
    let buf : LoopBuf := .empty 64 (Layout.split 0).1 (Layout.split 0).2
    let s : Session Rat := ⟨used.parser.reset, buf⟩
    let s' : Session Rat := ⟨.withBufferSize used.parser.calls used.parser.bufferSize, buf⟩
    s.parser.interner ≠ s'.parser.interner ∧
      (runAll .accepting doc s').1 = (runAll .accepting doc s).1 := by
  intro doc used buf s s'
  have hused : Reachable .accepting used :=
    (Session.new_atStart .accepting _ _).reachable.runAll doc
  have hparser : s'.parser = { s.parser with interner := s'.parser.interner } := by decide +kernel
  have hne : s.parser.interner ≠ s'.parser.interner := by decide +kernel
  have hchunk : maxKeyBytes ≤ s.parser.stringChunkSize.1 := by decide +kernel
  have hops : KeepRoom s.parser.stringChunkSize doc := by
    simp [doc, KeepRoom, Op.KeepsRoom, Op.chunk]
  -- from here on it does not matter what it was used for
  clear_value used
  have hs : Reachable .accepting s := (hused.step (.ring 64 (.split 0))).step .reset
  have hs' : Reachable .accepting s' :=
    .new used.parser.calls used.parser.bufferSize 64 (.split 0)
  exact ⟨hne, (interning_transparent hs hs' (congrArg (Session.mk · buf) hparser)
    (hs.fits hchunk) (Interner.new_inv _).fits hops).1⟩

/-- **A parser that was reset is as good as a new one**, whatever it was used for: with the same
limits and settings, all further calls return the same, and they make the same callbacks at the same
positions. -/
theorem reset_fresh {s : Session F} (hs : Reachable h s)
    (hfit : s.parser.interner.Fits s.parser.stringChunkSize) {ops : List Op}
    (hops : KeepRoom s.parser.stringChunkSize ops) :
    let new : Session F := ⟨(Parser.withBufferSize s.parser.calls s.parser.bufferSize).configure
      s.parser.limits s.parser.rejectDuplicateKeys s.parser.stringChunkSize, s.buf⟩
    (runAll h (.reset :: ops) s).1 = .ok () :: (runAll h ops new).1 ∧
      (runAll h ops new).2.Looks (runAll h (.reset :: ops) s).2 := by
  intro new
  have hnew : new.parser.Keyed s.parser.stringChunkSize :=
    ⟨⟨by rintro t ⟨⟩, rfl, Interner.new_inv _, le_rfl⟩, rfl, Interner.start_short⟩
  have halike : Session.Alike new ⟨s.parser.reset, s.buf⟩ :=
    ⟨⟨s.parser.interner, none, rfl, .same none⟩, rfl⟩
  have hreset : SuitsAll h (.reset :: ops) s := (hs.keyed hfit).suitsAll
    ⟨min_le_left _ _, hops⟩
  obtain ⟨hresults, hlooks⟩ :=
    runAll_alike ⟨_, hnew.inv⟩ (hs.step .reset).inv (hnew.suitsAll hops) hreset.2 halike
  exact ⟨congrArg _ hresults, hlooks⟩

/-- A second document with the key of the first. -/
theorem reset_fresh_object :
    let doc : List Op :=
      [.write [0x7B, 0x22, 0x61, 0x22, 0x3A, 0x31, 0x7D] (.split 2), .receive, .close]
    let s : Session Rat := (runAll .accepting doc (.new 64 (.split 0))).2
    let new : Session Rat := ⟨(Parser.withBufferSize s.parser.calls s.parser.bufferSize).configure
      s.parser.limits s.parser.rejectDuplicateKeys s.parser.stringChunkSize, s.buf⟩
    s.parser.interner.table.size = 1 ∧
      (runAll .accepting (.reset :: doc) s).1 = .ok () :: (runAll .accepting doc new).1 := by
  intro doc s new
  have hs : Reachable .accepting s := (Session.new_atStart .accepting _ _).reachable.runAll doc
  have hops : KeepRoom s.parser.stringChunkSize doc := by
    simp [doc, KeepRoom, Op.KeepsRoom, Op.chunk]
  exact ⟨by decide +kernel, (reset_fresh hs (hs.fits (by decide +kernel)) hops).1⟩

/-- Where there is no quote there is no key. -/
theorem Interner.Suits.of_not_mem {k : Interner} {limits : ParserLimits} {n : Nat} {c : Core}
    {l : List UInt8} (hl : quote ∉ l) : k.Suits F limits n c l := by
  rintro os c' l' key hs ⟨-, -, t, m, rfl, -⟩ -
  exact absurd (hs.suffix.subset List.mem_cons_self) hl

end Runs

end RJsonParser
