import RJsonParser.Properties.Documents
import RJsonParser.Properties.Leftover

/-!
# What a document comes to

A document that is written to the ring in some chunks, each of them received, and then closed,
against the verdict of the machine on all of its bytes.

* `Comes` — what the presentation of a document comes to
* `Session.Reads.run_close` — whatever the chunks, the verdict is the machine's
* `accepts_iff_json` — a document presented whole is accepted if it is a JSON text, and the
  callbacks are the traversal of what it denotes
-/

namespace RJsonParser

open Infra Infra.Utf8

variable {F : Type}

/-! ## Presenting a document -/

/-- Steps that write to the ring and have it read. -/
def Op.Presents : Op → Prop
  | .write _ _ | .receive => True
  | _ => False

/-- The bytes that some steps write. -/
def offered : List Op → List UInt8
  | [] => []
  | .write bytes _ :: ops => bytes ++ offered ops
  | _ :: ops => offered ops

/-- What was called back since `s₀`, with a bound on the pieces and keys. -/
structure Session.Called (km : Nat) (s₀ s : Session F) (new : List (Call F)) : Prop where
  calls : s.parser.calls = s₀.parser.calls ++ new
  piece : ∀ call ∈ new, call.Piece km km

variable [Double F]

/-- Each write finds room in the ring, up to the first step that returns an error. -/
def Fits (h : Handler F) : List Op → Session F → Prop
  | [], _ => True
  | .write bytes layout :: ops, s =>
    bytes.length ≤ s.buf.spareLen ∧ Fits h ops { s with buf := s.buf.write bytes layout }
  | op :: ops, s => ∀ s', op.exec h s = .ok () s' → Fits h ops s'

section Comes

variable {h : Handler F} {s₀ s s' : Session F} {l stream : List UInt8} {new : List (Call F)}
  {km : Nat}

/-- Every key that is read of the document `l` is a text of at most `n` bytes. -/
def Session.KeysFit (h : Handler F) (s₀ : Session F) (l : List UInt8) (n : Nat) : Prop :=
  ∀ os : List (Mark F), ¬ LongKey s₀.parser.limits n (s₀.parser.core h) l os

/-- What the presentation of the document `l` comes to when `new` was called back. -/
inductive Comes (h : Handler F) (s₀ : Session F) (l : List UInt8) (new : List (Call F)) :
    Except Stop Unit → Prop where
  | accepted (ends : Ends s₀.parser.limits (s₀.parser.core h) l true (marks new))
      (fits : exceeds s₀.parser.limits.maxDocumentLength l.length = false) :
      Comes h s₀ l new (.ok ())
  | rejected {e : Stop} (os : List (Mark F))
      (ends : Ends s₀.parser.limits (s₀.parser.core h) l false os) (told : Told new os) :
      Comes h s₀ l new (.error e)
  | tooLong {e : Stop} (long : exceeds s₀.parser.limits.maxDocumentLength l.length = true) :
      Comes h s₀ l new (.error e)
  | longKey {e : Stop} (os : List (Mark F))
      (long : LongKey s₀.parser.limits s₀.parser.stringChunkSize (s₀.parser.core h) l os)
      (told : Told new os) : Comes h s₀ l new (.error e)

/-- Where a ring of `capacity` bytes is full of what the machine leaves of `l`, the machine takes no
more of it. -/
def Session.Roomy (h : Handler F) (s₀ : Session F) (l : List UInt8) (capacity : Nat) : Prop :=
  ∀ stream rest os c left, l = stream ++ rest →
    (machine F s₀.parser.limits).Steps (s₀.parser.core h) stream os c left →
    (c.inString = true → c.bomChecked = true) → Leftover F s₀.parser.limits c left → left ≠ [] →
    left.length = capacity →
    ∃ os', Ends s₀.parser.limits (s₀.parser.core h) l false os' ∧ os <+: os' ∧
      tokens os = tokens os'

/-- Where the verdict is known and nothing is too long. -/
theorem Comes.of_ends {result : Except Stop Unit} {a : Bool} {os : List (Mark F)}
    (hc : Comes h s₀ l new result) (he : Ends s₀.parser.limits (s₀.parser.core h) l a os)
    (hl : exceeds s₀.parser.limits.maxDocumentLength l.length = false)
    (hk : s₀.KeysFit h l s₀.parser.stringChunkSize) :
    (result = .ok () ↔ a = true) ∧ Told new os ∧ (a = true → marks new = os) := by
  cases hc with
  | accepted ends fits =>
    obtain ⟨rfl, rfl⟩ := ends.unique he
    exact ⟨iff_of_true rfl rfl, ⟨List.prefix_rfl, rfl⟩, fun _ => rfl⟩
  | rejected os' ends told =>
    obtain ⟨rfl, rfl⟩ := ends.unique he
    exact ⟨iff_of_false (by simp) (by simp), told, fun h => by cases h⟩
  | tooLong long => rw [hl] at long; cases long
  | longKey os' long told => exact absurd long (hk os')

/-- A ring that holds the document has room. -/
theorem Session.roomy_of_length {capacity : Nat} (hl : l.length ≤ capacity) :
    s₀.Roomy h l capacity := by
  intro stream rest os c left heq hs hb hleft hne hfull
  have hsuffix := hs.suffix
  have hlen := congrArg List.length heq
  have hle := hsuffix.length_le
  rw [List.length_append] at hlen
  obtain rfl : rest = [] := List.length_eq_zero_iff.mp (by omega)
  obtain rfl : left = stream := hsuffix.eq_of_length (by omega)
  rw [List.append_nil] at heq
  subst heq
  have hlast := hleft.isLast hb
  rw [Core.ending_left hne] at hlast
  exact ⟨os, ⟨os, c, _, [], hs, hlast, by simp⟩, List.prefix_rfl, rfl⟩

/-- The end of the document. -/
theorem Session.Reads.close_comes (hr : s₀.Reads km h s l new) (hh : h.NeverErrs)
    (hn : s.parser.stringChunkSize = s₀.parser.stringChunkSize)
    (hroom : s₀.Roomy h l s.buf.capacity) :
    Ensures (Parser.close h) s
      (fun _ s' => ∃ more, s₀.Called km s' (new ++ more) ∧ Comes h s₀ l (new ++ more) (.ok ()))
      (fun e s' => ∃ more, s₀.Called km s' (new ++ more) ∧
        Comes h s₀ l (new ++ more) (.error e)) := by
  have piece {more : List (Call F)}
      (hp : ∀ call ∈ more, call.Piece s.parser.stringChunkSize km) :
      ∀ call ∈ new ++ more, call.Piece km km :=
    List.forall_mem_append.mpr ⟨hr.piece, fun c hc => (hp c hc).mono hr.inv.chunk le_rfl⟩
  refine hr.close.mono ?_ ?_
  · rintro - s' ⟨-, hfits, more, hcalls, hp, -, hends⟩
    exact ⟨more, ⟨hcalls, piece hp⟩, .accepted hends hfits⟩
  · rintro e s' ⟨more, hp, hst⟩
    refine ⟨more, ⟨hst.calls, piece hp⟩, ?_⟩
    cases hst.why with
    | tooLong long => exact .tooLong long
    | refused err eq reply => rw [hh] at reply; cases reply
    | longKey os long told => exact .longKey os (hn ▸ long) told
    | failed os fails told => exact .rejected os (.of_fails fails) told
    | unended closing ends => exact .rejected _ ends ⟨List.prefix_rfl, rfl⟩
    | noRoom ne full steps leftover eq =>
      obtain ⟨os, hends, hpre, htokens⟩ := hroom l [] _ _ _ (List.append_nil l).symm steps
        Parser.core_bom leftover ne (by simpa [LoopBuf.isFull] using full)
      exact .rejected os hends ⟨hpre, htokens⟩

/-- A call of `receive`, some of the document `l` being there. -/
theorem Session.Reads.receive_comes (hr : s₀.Reads km h s stream new) (hh : h.NeverErrs)
    {rest : List UInt8} (hl : l = stream ++ rest)
    (hn : s.parser.stringChunkSize = s₀.parser.stringChunkSize)
    (hroom : s₀.Roomy h l s.buf.capacity) :
    Ensures (Parser.receive h) s
      (fun _ s' => s.parser.Same s'.parser ∧ s.buf.Released s'.buf ∧
        ∃ more, s₀.Reads km h s' stream (new ++ more))
      (fun e s' => ∃ more, s₀.Called km s' (new ++ more) ∧
        Comes h s₀ l (new ++ more) (.error e)) := by
  subst hl
  refine hr.receive.mono ?_ ?_
  · rintro - s' ⟨-, hsame, hrel, more, hr', -⟩
    exact ⟨hsame, hrel, more, hr'⟩
  · rintro e s' ⟨hopen, more, hp, hst⟩
    refine ⟨more, ⟨hst.calls, List.forall_mem_append.mpr
      ⟨hr.piece, fun c hc => (hp c hc).mono hr.inv.chunk le_rfl⟩⟩, ?_⟩
    cases hst.why with
    | tooLong long => exact .tooLong (exceeds_mono long (by simp))
    | refused err eq reply => rw [hh] at reply; cases reply
    | longKey os long told => exact .longKey os (hn ▸ long.append rest) told
    | failed os fails told => exact .rejected os (.of_fails (fails.append rest)) told
    | unended closing ends => rw [hopen] at closing; cases closing
    | noRoom ne full steps leftover eq =>
      obtain ⟨os, hends, hpre, htokens⟩ :=
        hroom stream rest _ _ _ rfl steps Parser.core_bom leftover ne
        (by simpa [LoopBuf.isFull] using full)
      exact .rejected os hends ⟨hpre, htokens⟩

/-- **However the document arrives, what it comes to is the verdict of the machine.** -/
theorem Session.Reads.run_close (hh : h.NeverErrs) {capacity : Nat}
    (hroom : s₀.Roomy h l capacity) : ∀ {ops : List Op},
      (∀ op ∈ ops, op.Presents) → ∀ {s : Session F} {stream : List UInt8} {new : List (Call F)},
      s₀.Reads km h s stream new → s.parser.stringChunkSize = s₀.parser.stringChunkSize →
      s.buf.capacity = capacity →
      Fits h ops s → l = stream ++ offered ops →
      Ensures (run h (ops ++ [.close])) s
        (fun _ s' => ∃ more, s₀.Called km s' (new ++ more) ∧ Comes h s₀ l (new ++ more) (.ok ()))
        (fun e s' => ∃ more, s₀.Called km s' (new ++ more) ∧
          Comes h s₀ l (new ++ more) (.error e))
  | [], _, s, stream, new, hr, hn, hcap, _, hl => by
    rw [offered, List.append_nil] at hl
    subst hl hcap
    rw [List.nil_append, run, ensures_bind]
    refine (hr.close_comes hh hn hroom).mono ?_ fun _ _ h => h
    rintro ⟨⟩ s' h'
    exact h'
  | op :: ops, hops, s, stream, new, hr, hn, hcap, hfits, hl => by
    have ih {s : Session F} {stream : List UInt8} {new : List (Call F)}
        (hr : s₀.Reads km h s stream new) :=
      Session.Reads.run_close hh hroom (fun op h => hops op (List.mem_cons_of_mem _ h)) hr
    rw [List.cons_append, run, ensures_bind]
    cases op with
    | write bytes layout =>
      obtain ⟨hlen, hfits⟩ := hfits
      have hw := hr.write bytes layout
      rw [List.take_of_length_le hlen] at hw
      exact ih hw hn hcap hfits (by rw [hl, offered, List.append_assoc])
    | receive =>
      subst hcap
      refine Ensures.mono (x := Parser.receive h)
        (hr.receive_comes hh hl hn hroom).and_result ?_ ?_
      · rintro ⟨⟩ s₁ ⟨heq, hsame, ⟨k, -, hbuf⟩, more, hr₁⟩
        refine (ih hr₁ (hsame.stringChunkSize.trans hn) (by rw [hbuf]; rfl) (hfits s₁ heq) hl)
          |>.mono ?_ ?_
        · rintro - s' ⟨more', h'⟩
          exact ⟨more ++ more', by rwa [List.append_assoc] at h'⟩
        · rintro e s' ⟨more', h'⟩
          exact ⟨more ++ more', by rwa [List.append_assoc] at h'⟩
      · rintro e s₁ ⟨-, h'⟩
        exact h'
    | close | ring | reset | setLimits | setRejectDuplicateKeys | setStringChunkSize =>
      exact False.elim (hops _ List.mem_cons_self)

/-- **However a document arrives**, what it comes to is the verdict of the machine. -/
theorem Session.AtStart.comes (hs : s.AtStart h) (hi : s.parser.Inv km) (hh : h.NeverErrs)
    {ops : List Op} (hops : ∀ op ∈ ops, op.Presents) (hfits : Fits h ops s)
    (hroom : s.Roomy h (offered ops) s.buf.capacity) :
    ∃ new, s.Called km (outcome h (ops ++ [.close]) s).2 new ∧
      Comes h s (offered ops) new (outcome h (ops ++ [.close]) s).1 := by
  have hrun := Session.Reads.run_close hh hroom hops (hs.reads hi) rfl rfl hfits rfl
  simp only [List.nil_append] at hrun
  unfold Ensures at hrun
  unfold outcome
  cases hr : RJsonParser.run h (ops ++ [.close]) s with
  | ok a s' => rw [hr] at hrun; exact hrun
  | error e s' => rw [hr] at hrun; exact hrun

end Comes

/-! ## Chunks -/

section Chunks

variable {h : Handler F} {s : Session F} {km : Nat}

/-- A ring that holds the document has room for all its chunks. -/
theorem fits_of_length : ∀ (ops : List Op), (∀ op ∈ ops, op.Presents) → ∀ {s : Session F},
    s.parser.Inv km → s.buf.len + (offered ops).length ≤ s.buf.capacity → Fits h ops s
  | [], _, _, _, _ => trivial
  | op :: ops, hops, s, hi, hlen => by
    have ih {s : Session F} := fits_of_length ops
      (fun op h => hops op (List.mem_cons_of_mem _ h)) (s := s)
    cases op with
    | write bytes layout =>
      rw [offered, List.length_append] at hlen
      have hspare : bytes.length ≤ s.buf.spareLen := by
        unfold LoopBuf.spareLen LoopBuf.len at *
        omega
      refine ⟨hspare, ih hi ?_⟩
      have : (s.buf.write bytes layout).len = s.buf.len + (bytes.take s.buf.spareLen).length :=
        List.length_append
      rw [List.take_of_length_le hspare] at this
      show (s.buf.write bytes layout).len + _ ≤ s.buf.capacity
      omega
    | receive =>
      intro s' hs'
      have hspec := receive_spec (h := h) hi
      rw [ensures_ok (show Parser.receive h s = .ok () s' from hs')] at hspec
      obtain ⟨-, hi', -, ⟨k, -, hbuf⟩, -⟩ := hspec
      refine ih hi' ?_
      have hlen : s.buf.len + (offered ops).length ≤ s.buf.capacity := hlen
      have : (s.buf.advance k).len = s.buf.len - k := List.length_drop
      rw [hbuf]
      show (s.buf.advance k).len + _ ≤ s.buf.capacity
      omega
    | close | ring | reset | setLimits | setRejectDuplicateKeys | setStringChunkSize =>
      exact False.elim (hops _ List.mem_cons_self)

/-- The steps of a presentation before the end. -/
def chunkOps (chunks : List (List UInt8 × Layout)) : List Op :=
  chunks.flatMap fun c => [.write c.1 c.2, .receive]

omit [Double F] in
theorem presents_chunkOps (chunks : List (List UInt8 × Layout)) :
    ∀ op ∈ chunkOps chunks, op.Presents := by
  intro op hop
  obtain ⟨c, -, hc⟩ := List.mem_flatMap.mp hop
  rcases List.mem_cons.mp hc with rfl | hc
  · trivial
  · rw [List.mem_singleton.mp hc]
    trivial

omit [Double F] in
theorem offered_chunkOps (chunks : List (List UInt8 × Layout)) :
    offered (chunkOps chunks) = (chunks.map Prod.fst).flatten := by
  induction chunks with
  | nil => rfl
  | cons c chunks ih =>
    show c.1 ++ offered (chunkOps chunks) = _
    rw [ih]
    rfl

/-- **A document in chunks**, in a ring that holds it. -/
theorem Session.AtStart.presentation_comes (hs : s.AtStart h) (hi : s.parser.Inv km)
    (hh : h.NeverErrs)
    (chunks : List (List UInt8 × Layout)) (l : List UInt8) (hl : (chunks.map Prod.fst).flatten = l)
    (hcap : l.length ≤ s.buf.capacity) :
    ∃ new, s.Called km (outcome h (presentation chunks) s).2 new ∧
      Comes h s l new (outcome h (presentation chunks) s).1 := by
  have hl' := offered_chunkOps chunks
  rw [hl] at hl'
  have hlen : s.buf.len = 0 := by rw [LoopBuf.len, hs.empty]; rfl
  have hfits : Fits h (chunkOps chunks) s :=
    fits_of_length _ (presents_chunkOps chunks) hi (by rw [hl', hlen]; omega)
  have := hs.comes hi hh (presents_chunkOps chunks) hfits
    (by rw [hl']; exact roomy_of_length hcap)
  rwa [hl'] at this

end Chunks

/-! ## Keys -/

section Keys

variable {limits : ParserLimits} {c : Core} {l : List UInt8} {text : Text} {os : List (Mark F)}

/-- A line break before a token is over when the token starts. -/
theorem steps_settled {b : UInt8} (hb : c.bomChecked = true) (hs : c.inString = false)
    (hn : c.number.stage = .none) (hw : isWs b = false) :
    (machine F limits).Steps c (b :: l) [] c.settled (b :: l) := by
  by_cases hcr : c.pos.afterCr = true
  · have hnext : c.next (F := F) limits (b :: l) = .step 0 c.settled [] := by
      rw [next_outside hb hs hn, Core.outerStep, wsByte_isWs.mpr hw]
      exact if_pos hcr
    exact steps_of_next hnext
  · rw [show c.settled = c by
      have hcr' : c.pos.afterCr = false := by simpa using hcr
      unfold Core.settled
      rw [← hcr']]
    exact .refl

/-- It makes no difference to the token. -/
theorem Ends.settled {b : UInt8} {a : Bool} (hb : c.bomChecked = true) (hs : c.inString = false)
    (hn : c.number.stage = .none) (hw : isWs b = false) (h : Ends limits c (b :: l) a os) :
    Ends limits c.settled (b :: l) a os := by
  obtain ⟨os', rfl, h'⟩ := h.of_steps_iff (steps_settled hb hs hn hw)
  exact h'

theorem next_settled (limits : ParserLimits) (l : List UInt8) {b : UInt8}
    (hb : c.bomChecked = true) (hs : c.inString = false)
    (hn : c.number.stage = .none) (hw : isWs b = false) :
    c.settled.next (F := F) limits (b :: l) = c.settled.tokenStep limits b l := by
  rw [next_outside (c := c.settled) hb hs hn, Core.outerStep, wsByte_isWs.mpr hw]
  exact if_neg (by simp [Core.settled])

/-- A key that is come to in a document that is accepted is put out. -/
theorem Ends.key (h : Ends limits c l true os) (hk : AtKey limits c l text) :
    .key text ∈ eventsOf os := by
  obtain ⟨⟨hb, hs, hn⟩, hst, t, n, rfl, hf, hd⟩ := hk
  have h' := h.settled hb hs hn (by decide)
  have hnext := next_settled (F := F) limits t hb hs hn
    (show isWs quote = false by decide)
  rw [Core.tokenStep, show tokenKind quote = .quote from rfl] at hnext
  simp only [Core.quoteStep] at hnext
  rw [show c.settled.state = .expectKey from hst] at hnext
  simp only [Core.keyStep, hf, hd] at hnext
  cases hv : c.settled.next (F := F) limits (quote :: t) with
  | need =>
    rw [hv] at hnext
    split at hnext
    · cases hnext
    · exact absurd hnext.symm Core.finish_ne_need
  | fail out =>
    have := (h'.unique (.of_fails (fails_of_next hv))).1
    cases this
  | step k c' out =>
    rw [hv] at hnext
    obtain ⟨os', rfl, -⟩ := h'.of_steps_iff (steps_of_next hv)
    split at hnext
    · cases hnext
    · obtain ⟨-, -, rfl, -⟩ := Core.finish_eq_step hnext.symm
      simp [eventsOf, Core.mark]

/-- The keys of a document that is accepted are put out. -/
theorem keysFit_of_ends {h : Handler F} {s : Session F} {n : Nat}
    (he : Ends s.parser.limits (s.parser.core h) l true os)
    (hk : ∀ key, .key key ∈ eventsOf os → byteLen key ≤ n) : s.KeysFit h l n := by
  rintro mid ⟨c', l', key, hs, hat, hlt⟩
  obtain ⟨os', rfl, he'⟩ := he.of_steps_iff hs
  have := hk key (by rw [eventsOf_append]; exact List.mem_append_right _ (he'.key hat))
  omega

end Keys

/-! ## JSON texts -/

mutual

/-- The keys of what a tree denotes are the keys of the tree. -/
theorem Tree.mem_keys {key : Text} : ∀ t : Tree, Event.key (F := F) key ∈ t.denote.traverse →
    ∃ k ∈ t.keys, k.text = key
  | .null, h => by simp [Tree.denote, Json.traverse] at h
  | .boolean _, h => by simp [Tree.denote, Json.traverse] at h
  | .number _, h => by simp [Tree.denote, Json.traverse] at h
  | .string _, h => by simp [Tree.denote, Json.traverse] at h
  | .emptyArray _, h => by simp [Tree.denote, Json.traverse, Json.traverseAll] at h
  | .emptyObject _, h => by simp [Tree.denote, Json.traverse, Json.traverseMembers] at h
  | .array (_, t, _) items, h => by
    simp only [Tree.denote, Json.traverse, Json.traverseAll, List.mem_append, List.mem_cons,
      reduceCtorEq, false_or, List.not_mem_nil, or_false] at h
    simp only [Tree.keys, List.mem_append]
    rcases h with h | h
    · obtain ⟨k, hk, rfl⟩ := Tree.mem_keys t h
      exact ⟨k, .inl hk, rfl⟩
    · obtain ⟨k, hk, rfl⟩ := Tree.mem_keysRest items h
      exact ⟨k, .inr hk, rfl⟩
  | .object ((_, k, _), _, t, _) members, h => by
    simp only [Tree.denote, Json.traverse, Json.traverseMembers, List.mem_append, List.mem_cons,
      reduceCtorEq, false_or, List.not_mem_nil, or_false, Event.key.injEq] at h
    simp only [Tree.keys, List.mem_append, List.mem_cons]
    rcases h with (rfl | h) | h
    · exact ⟨k, .inl (.inl rfl), rfl⟩
    · obtain ⟨k', hk, rfl⟩ := Tree.mem_keys t h
      exact ⟨k', .inl (.inr hk), rfl⟩
    · obtain ⟨k', hk, rfl⟩ := Tree.mem_keysMembers members h
      exact ⟨k', .inr hk, rfl⟩

/-- Those in further items. -/
theorem Tree.mem_keysRest {key : Text} : ∀ items : List (Ws × Tree × Ws),
    Event.key (F := F) key ∈ Json.traverseAll (denoteRest items) → ∃ k ∈ keysRest items,
      k.text = key
  | [], h => by simp [denoteRest, Json.traverseAll] at h
  | (_, t, _) :: items, h => by
    simp only [denoteRest, Json.traverseAll, List.mem_append] at h
    simp only [keysRest, List.mem_append]
    rcases h with h | h
    · obtain ⟨k, hk, rfl⟩ := Tree.mem_keys t h
      exact ⟨k, .inl hk, rfl⟩
    · obtain ⟨k, hk, rfl⟩ := Tree.mem_keysRest items h
      exact ⟨k, .inr hk, rfl⟩

/-- Those in further members. -/
theorem Tree.mem_keysMembers {key : Text} :
    ∀ members : List ((Ws × RawString × Ws) × Ws × Tree × Ws),
      Event.key (F := F) key ∈ Json.traverseMembers (denoteMembers members) →
        ∃ k ∈ keysMembers members, k.text = key
  | [], h => by simp [denoteMembers, Json.traverseMembers] at h
  | ((_, k, _), _, t, _) :: members, h => by
    simp only [denoteMembers, Json.traverseMembers, List.mem_append, List.mem_cons,
      Event.key.injEq] at h
    simp only [keysMembers, List.mem_append, List.mem_cons]
    rcases h with (rfl | h) | h
    · exact ⟨k, .inl (.inl rfl), rfl⟩
    · obtain ⟨k', hk, rfl⟩ := Tree.mem_keys t h
      exact ⟨k', .inl (.inr hk), rfl⟩
    · obtain ⟨k', hk, rfl⟩ := Tree.mem_keysMembers members h
      exact ⟨k', .inr hk, rfl⟩

end

mutual

/-- A key is shorter than the tree it is in. -/
theorem Tree.length_key {k : RawString} : ∀ t : Tree, k ∈ t.keys → k.raw.length + 2 ≤ t.bytes.length
  | .null, h => by simp [Tree.keys] at h
  | .boolean _, h => by simp [Tree.keys] at h
  | .number _, h => by simp [Tree.keys] at h
  | .string _, h => by simp [Tree.keys] at h
  | .emptyArray _, h => by simp [Tree.keys] at h
  | .emptyObject _, h => by simp [Tree.keys] at h
  | .array (_, t, _) items, h => by
    simp only [Tree.keys, List.mem_append] at h
    simp only [Tree.bytes, Tree.itemBytes, List.length_append, List.length_cons]
    rcases h with h | h
    · have := Tree.length_key t h
      omega
    · have := Tree.length_keyRest items h
      omega
  | .object ((_, k', _), _, t, _) members, h => by
    simp only [Tree.keys, List.mem_append, List.mem_cons] at h
    simp only [Tree.bytes, Tree.memberBytes, labelBytes, RawString.bytes, List.length_append,
      List.length_cons]
    rcases h with (rfl | h) | h
    · omega
    · have := Tree.length_key t h
      omega
    · have := Tree.length_keyMembers members h
      omega

/-- Those in further items. -/
theorem Tree.length_keyRest {k : RawString} : ∀ items : List (Ws × Tree × Ws),
    k ∈ keysRest items → k.raw.length + 2 ≤ (restBytes items).length
  | [], h => by simp [keysRest] at h
  | (_, t, _) :: items, h => by
    simp only [keysRest, List.mem_append] at h
    simp only [restBytes, itemBytes, List.length_append, List.length_cons]
    rcases h with h | h
    · have := Tree.length_key t h
      omega
    · have := Tree.length_keyRest items h
      omega

/-- Those in further members. -/
theorem Tree.length_keyMembers {k : RawString} :
    ∀ members : List ((Ws × RawString × Ws) × Ws × Tree × Ws),
      k ∈ keysMembers members → k.raw.length + 2 ≤ (membersBytes members).length
  | [], h => by simp [keysMembers] at h
  | ((_, k', _), _, t, _) :: members, h => by
    simp only [keysMembers, List.mem_append, List.mem_cons] at h
    simp only [membersBytes, memberBytes, labelBytes, RawString.bytes, List.length_append,
      List.length_cons]
    rcases h with (rfl | h) | h
    · omega
    · have := Tree.length_key t h
      omega
    · have := Tree.length_keyMembers members h
      omega

end

/-- A key of a document is a shorter text than the document. -/
theorem Document.byteLen_key {l : List UInt8} {t : Tree} (ht : Document l t) {k : RawString}
    (hk : k ∈ t.keys) : byteLen k.text ≤ l.length := by
  obtain ⟨bom, before, after, -, rfl⟩ := ht
  have := t.length_key hk
  have := byteLen_le_of_decodeString k.denotes
  simp only [List.length_append]
  omega

omit [Double F] in
theorem join_cons_token {e : Event F} (he : e.isPiece = false) (es : List (Event F)) :
    join (e :: es) = e :: join es := by
  cases e <;> first | rfl | cases he

omit [Double F] in
/-- The characters of a string are joined to one piece. -/
theorem join_string (s : Text) (es : List (Event F)) :
    join (contentOf s ++ .endStringValue :: es) =
      (piecesOf s).map .stringValueContent ++ .endStringValue :: join es := by
  unfold piecesOf
  split
  · next h =>
    subst h
    rfl
  · next h =>
    unfold join
    rw [List.foldr_append, contentOf, joinCons_content s h]
    rfl

mutual

/-- The traversal of what a tree denotes is joined. -/
theorem Tree.join_traverse : ∀ (t : Tree) (es : List (Event F)),
    join (explode t.denote.traverse ++ es) = t.denote.traverse ++ join es
  | .null, _ => rfl
  | .boolean _, _ => rfl
  | .number _, _ => rfl
  | .string s, es => by
    simp only [Tree.denote, Json.traverse, List.cons_append, List.append_assoc, List.nil_append,
      explode_cons, explode_append, explode_pieces, Event.explode, explode_nil]
    rw [join_cons_token rfl, join_string]
  | .emptyArray _, _ => rfl
  | .emptyObject _, _ => rfl
  | .array (_, t, _) items, es => by
    simp only [Tree.denote, Json.traverse, Json.traverseAll, List.cons_append, List.append_assoc,
      List.nil_append, explode_cons, explode_append, Event.explode, explode_nil]
    rw [join_cons_token rfl, Tree.join_traverse t,
      Tree.join_traverseRest items, join_cons_token rfl]
  | .object ((_, k, _), _, t, _) members, es => by
    simp only [Tree.denote, Json.traverse, Json.traverseMembers, List.cons_append,
      List.append_assoc, List.nil_append, explode_cons, explode_append, Event.explode, explode_nil]
    rw [join_cons_token rfl, join_cons_token rfl, Tree.join_traverse t,
      Tree.join_traverseMembers members, join_cons_token rfl]

/-- The further items of an array. -/
theorem Tree.join_traverseRest : ∀ (items : List (Ws × Tree × Ws)) (es : List (Event F)),
    join (explode (Json.traverseAll (denoteRest items)) ++ es) =
      Json.traverseAll (denoteRest items) ++ join es
  | [], _ => rfl
  | (_, t, _) :: items, es => by
    simp only [denoteRest, Json.traverseAll, explode_append, List.append_assoc]
    rw [Tree.join_traverse t, Tree.join_traverseRest items]

/-- The further members of an object. -/
theorem Tree.join_traverseMembers :
    ∀ (members : List ((Ws × RawString × Ws) × Ws × Tree × Ws)) (es : List (Event F)),
      join (explode (Json.traverseMembers (denoteMembers members)) ++ es) =
        Json.traverseMembers (denoteMembers members) ++ join es
  | [], _ => rfl
  | ((_, k, _), _, t, _) :: members, es => by
    simp only [denoteMembers, Json.traverseMembers, explode_append, explode_cons, Event.explode,
      List.cons_append, List.append_assoc, List.nil_append]
    rw [join_cons_token rfl, Tree.join_traverse t, Tree.join_traverseMembers members]

end

omit [Double F] in
/-- Whitespace is dropped before or after spelling out. -/
theorem dropWhitespace_explode (es : List (Event F)) :
    dropWhitespace (explode es) = explode (dropWhitespace es) := by
  induction es with
  | nil => rfl
  | cons e es ih =>
    rw [explode_cons, dropWhitespace_append, ih]
    cases e with
    | whitespace s => simp [Event.explode, dropWhitespace, Event.isWhitespace]
    | stringValueContent s => simp [Event.explode, dropWhitespace, Event.isWhitespace]
    | _ => rfl

section Json

variable {h : Handler F} {s : Session F} {l : List UInt8} {t : Tree} {new : List (Call F)}

/-- The start of a document, where duplicate keys are allowed. -/
theorem Core.start_fresh (w : Bool) : (Core.start false w).Fresh :=
  ⟨rfl, rfl, rfl, rfl, rfl, rfl, rfl, rfl⟩

/-- What was called back for a document whose machine put out the traversal of a tree. -/
theorem Session.Called.joined {s' : Session F} {km : Nat} (hc : s.Called km s' new) (t : Tree)
    (he : dropWhitespace (eventsOf (marks new)) = explode t.denote.traverse) :
    join (dropWhitespace (new.map Call.event)) = t.denote.traverse := by
  have hne : ∀ e ∈ dropWhitespace (new.map Call.event), e.NonEmpty := by
    intro e hm
    obtain ⟨call, hcall, rfl⟩ := List.mem_map.mp (List.mem_of_mem_filter hm)
    exact (hc.piece call hcall).nonEmpty
  have htree := Tree.join_traverse (F := F) t []
  rw [List.append_nil, show join ([] : List (Event F)) = [] from rfl, List.append_nil] at htree
  rw [eventsOf_marks, dropWhitespace_explode] at he
  rw [← join_explode _ hne, he, htree]

/-- **Grammar and denotation.** A document that is presented whole is accepted if it is a JSON text,
and what is called back besides whitespace is the traversal of the value that it denotes. -/
theorem accepts_iff_json (hs : s.AtStart h) (hh : h.NeverErrs) (l : List UInt8) (layout : Layout)
    (n : ChunkSize) (hcap : l.length ≤ s.buf.capacity)
    (hkeys : ∀ t, Document l t → ∀ k ∈ t.keys, byteLen k.text ≤ n) :
    ((outcome h [.write l layout, .receive, .close] (s.configure .unlimited false n)).1 = .ok () ↔
      ∃ t, Document l t) ∧
    ∀ t, Document l t → ∃ new,
      (outcome h [.write l layout, .receive, .close]
        (s.configure .unlimited false n)).2.parser.calls = s.parser.calls ++ new ∧
      join (dropWhitespace (new.map Call.event)) = t.denote.traverse := by
  have hs' := hs.configure .unlimited false n
  set s' := s.configure .unlimited false n
  have hcore : (s'.parser.core h).Fresh := by
    rw [hs'.core]
    exact Core.start_fresh _
  have verdict (t : Tree) (ht : Document l t) : ∃ os : List (Mark F),
      Ends .unlimited (s'.parser.core h) l true os ∧
        dropWhitespace (eventsOf os) = explode t.denote.traverse := ht.yields hcore
  have keys (t : Tree) (ht : Document l t) : s'.KeysFit h l n := by
    obtain ⟨os, hends, hev⟩ := verdict t ht
    refine keysFit_of_ends hends fun key hkey => ?_
    have hmem : .key key ∈ dropWhitespace (eventsOf os) := List.mem_filter.mpr ⟨hkey, rfl⟩
    rw [hev] at hmem
    obtain ⟨e, he, hme⟩ := List.mem_flatMap.mp hmem
    obtain rfl : e = .key key := by cases e <;> simp_all [Event.explode]
    obtain ⟨k, hk, rfl⟩ := t.mem_keys he
    exact hkeys t ht k hk
  obtain ⟨km, hi⟩ := hs'.reachable.inv
  obtain ⟨new, hcalled, hcomes⟩ := hs'.presentation_comes hi hh [(l, layout)] l
    (by simp) hcap
  rw [show presentation [(l, layout)] = [.write l layout, .receive, .close] from rfl]
    at hcalled hcomes
  generalize outcome h [.write l layout, .receive, .close] s' = r at hcalled hcomes ⊢
  obtain ⟨result, s''⟩ := r
  constructor
  · constructor
    · rintro rfl
      cases hcomes with
      | accepted ends fits => exact (accepts_iff_document hcore).mp ⟨_, _, ends, rfl⟩
    · rintro ⟨t, ht⟩
      obtain ⟨os, hends, -⟩ := verdict t ht
      cases hcomes with
      | accepted ends fits => rfl
      | rejected os' ends told => cases (hends.unique ends).1
      | tooLong long => cases long
      | longKey os long told => exact absurd long (keys t ht os)
  · intro t ht
    obtain ⟨os, hends, hev⟩ := verdict t ht
    refine ⟨new, hcalled.calls, ?_⟩
    cases hcomes with
    | accepted ends fits =>
      rw [(hends.unique ends).2] at hev
      exact hcalled.joined t hev
    | rejected os' ends told => cases (hends.unique ends).1
    | tooLong long => cases long
    | longKey os long told => exact absurd long (keys t ht os)

/-- An object, `{"a":[1,"\u00e9"]}`. -/
def objectBytes : List UInt8 :=
  [0x7B, 0x22, 0x61, 0x22, 0x3A, 0x5B, 0x31, 0x2C, 0x22, 0x5C, 0x75, 0x30, 0x30, 0x65, 0x39, 0x22,
    0x5D, 0x7D]

theorem accepts_iff_json_object :
    let s : Session Rat := .new 64 (.split 0)
    let ops : List Op := [.write objectBytes (.split 5), .receive, .close]
    let s' := s.configure .unlimited false defaultStringChunkSize
    ((outcome .accepting ops s').1 = .ok () ↔ ∃ t, Document objectBytes t) ∧
    ∀ t, Document objectBytes t → ∃ new,
      (outcome .accepting ops s').2.parser.calls = s.parser.calls ++ new ∧
      join (dropWhitespace (new.map Call.event)) = t.denote.traverse :=
  accepts_iff_json (Session.new_atStart _ _ _) (fun _ => rfl) objectBytes (.split 5)
    defaultStringChunkSize (by decide) fun _ ht _ hk => (ht.byteLen_key hk).trans (by decide)

end Json

end RJsonParser
