import RJsonParser.Properties.Limits

/-!
# What a string denotes

Raw bytes between two quotes come out as the text that they denote, as a value and as a key,
wherever they stand in a document and however it arrives; or they are rejected.

* `string_steps`, `key_steps` — the machine over a string value and over a key
* `Session.Expects` — what may come behind a part of a document
* `strings_denote` — what is called back
-/

namespace RJsonParser

open Infra Infra.Utf8

variable {F : Type} [Double F]

/-! ## The machine -/

/-- Outside a string value and a number, where `state` says what may come. -/
structure Core.Awaits (c : Core) (state : State) : Prop where
  bom : c.bomChecked = true
  outside : c.inString = false
  noNumber : c.number.stage = .none
  state : c.state = state

section Machine

variable {c : Core} {l raw : List UInt8}

/-- The token that starts with a quote. -/
theorem steps_quote {state : State} (h : c.Awaits state) (l : List UInt8) {n : Nat} {c' : Core}
    {out : List (Mark F)} (hq : c.settled.quoteStep .unlimited l = .step n c' out) :
    (machine F .unlimited).Steps c (quote :: l) out c' ((quote :: l).drop n) := by
  have hnext := next_settled (F := F) .unlimited l h.bom h.outside h.noNumber
    (show isWs quote = false by decide)
  rw [Core.tokenStep, show tokenKind quote = .quote from rfl] at hnext
  exact (steps_settled h.bom h.outside h.noNumber (by decide)).trans
    (steps_of_next (hnext.trans hq))

/-- In content that ends: the text it denotes is put out, or the input is not accepted. -/
theorem content_steps (hb : c.bomChecked = true) (hi : c.inString = true) (hc : Closed raw)
    (r : List UInt8) :
    (∃ s c', decodeString raw = some s ∧ c'.bomChecked = true ∧ c'.inString = true ∧
        (machine F .unlimited).Steps c (raw ++ quote :: r) (contentMarks s) c' (quote :: r)) ∨
      decodeString raw = none ∧
        ∃ s, Ends (F := F) .unlimited c (raw ++ quote :: r) false (contentMarks s) := by
  induction hn : raw.length using Nat.strongRecOn generalizing raw c with
  | ind n ih =>
    by_cases hne : raw = []
    · subst hne
      exact .inl ⟨[], c, rfl, hb, hi, .refl⟩
    rcases next_closed (F := F) hb hi hc hne r with ⟨ch, k, j, hch, hnext⟩ | ⟨hd, hstop⟩
    · obtain ⟨hpos, -, hle⟩ := rawChar_length hch
      have hstep := steps_of_next hnext
      rw [List.drop_append_of_le_length hle] at hstep
      have hdec := decodeString_of_rawChar hch
      rcases ih (raw.drop k).length (by rw [List.length_drop]; omega) (c := c.inContent k j) hb hi
          (hc.drop hch) rfl with ⟨s, c', hs, hb', hi', hrest⟩ | ⟨hd, s, hends⟩
      · exact .inl ⟨ch :: s, c', by rw [hdec, hs]; rfl, hb', hi', hstep.trans hrest⟩
      · exact .inr ⟨by rw [hdec, hd]; rfl, ch :: s, hends.of_steps hstep⟩
    · refine .inr ⟨hd, [], ?_⟩
      rcases hstop with hf | hf
      · exact .of_fails (fails_of_next hf)
      · have hlast := Last.need hf
        rw [Core.ending_left (by simp)] at hlast
        exact ⟨[], c, _, [], .refl, hlast, rfl⟩

/-- **A string value** is put out as the text it denotes, or it is not accepted. -/
theorem string_steps (h : c.Awaits .expectValue) (hc : Closed raw) (r : List UInt8) :
    ∃ p : Option SharedLocator,
      (∃ s c' p', decodeString raw = some s ∧
        (machine F .unlimited).Steps c (quote :: (raw ++ quote :: r))
          ((.startStringValue, p) :: contentMarks s ++ [(.endStringValue, p')]) c' r) ∨
      decodeString raw = none ∧ ∃ s, Ends (F := F) .unlimited c (quote :: (raw ++ quote :: r))
        false ((.startStringValue, p) :: contentMarks s) := by
  have hq : c.settled.quoteStep (F := F) .unlimited (raw ++ quote :: r) =
      .step 1 (c.settled.beginString.count .unlimited)
        [c.settled.beginString.mark .startStringValue] := by
    rw [Core.quoteStep, show c.settled.state = .expectValue from h.state]
    exact finish_unlimited
  have hstart := steps_quote h _ hq
  refine ⟨some c.settled.beginString.locator, ?_⟩
  rcases content_steps (F := F) (c := c.settled.beginString.count .unlimited) h.bom rfl hc r with
    ⟨s, c', hs, hb', hi', hcontent⟩ | ⟨hd, s, hends⟩
  · have hend : c'.next (F := F) .unlimited (quote :: r) =
        .step 1 c'.endString [c'.endString.mark .endStringValue] := by
      rw [next_inside hb' hi', Core.stringStep, if_pos rfl]
    exact .inl ⟨s, c'.endString, some c'.endString.locator, hs,
      hstart.trans (hcontent.trans (steps_of_next hend))⟩
  · exact .inr ⟨hd, s, hends.of_steps hstart⟩

/-- **A key** is put out as the text it denotes, or it is not accepted. -/
theorem key_steps (h : c.Awaits .expectKey) (hr : c.rejectDuplicateKeys = false)
    (hc : Closed raw) (r : List UInt8) :
    (∃ s c' p, decodeString raw = some s ∧
        (machine F .unlimited).Steps c (quote :: (raw ++ quote :: r)) [(.key s, p)] c' r) ∨
      decodeString raw = none ∧
        Ends (F := F) .unlimited c (quote :: (raw ++ quote :: r)) false [] := by
  have hq : c.settled.quoteStep (F := F) .unlimited (raw ++ quote :: r) =
      c.settled.keyStep .unlimited (raw ++ quote :: r) := by
    rw [Core.quoteStep, show c.settled.state = .expectKey from h.state]
  rw [Core.keyStep, show ParserLimits.unlimited.maxNameLength = none from rfl] at hq
  have fails (hf : c.settled.quoteStep (F := F) .unlimited (raw ++ quote :: r) = .fail []) :
      Ends (F := F) .unlimited c (quote :: (raw ++ quote :: r)) false [] := by
    have hnext := next_settled (F := F) .unlimited (raw ++ quote :: r) h.bom h.outside h.noNumber
      (show isWs quote = false by decide)
    rw [Core.tokenStep, show tokenKind quote = .quote from rfl] at hnext
    exact .of_fails ((steps_settled h.bom h.outside h.noNumber (by decide)).trans_fails
      (fails_of_next (hnext.trans hf)))
  rcases keyFront_closed hc 0 r with hf | ⟨hf, hn⟩
  · rw [Nat.zero_add] at hf
    rw [hf] at hq
    simp only [List.take_left] at hq
    cases hd : decodeString raw with
    | none =>
      rw [hd] at hq
      exact .inr ⟨rfl, fails hq⟩
    | some s =>
      rw [hd] at hq
      simp only [Core.isDuplicate, show c.settled.rejectDuplicateKeys = false from hr,
        Bool.false_and, Bool.false_eq_true, if_false, finish_unlimited] at hq
      have hsteps := steps_quote h _ hq
      have hdrop : (quote :: (raw ++ quote :: r)).drop (raw.length + 2) = r := by
        rw [List.drop_succ_cons, ← List.drop_drop, List.drop_left]
        rfl
      rw [hdrop] at hsteps
      exact .inl ⟨s, _, _, rfl, hsteps⟩
  · rw [hf] at hq
    refine .inr ⟨?_, fails hq⟩
    cases hd : decodeString raw with
    | none => rfl
    | some s => exact absurd (scanned_of_decodeString hd) hn

/-- The machine that goes on from a key puts it out. -/
theorem key_of_steps {limits : ParserLimits} {c c' : Core} {l l' : List UInt8} {key : Text}
    {os : List (Mark F)} (hk : AtKey limits c l key)
    (hs : (machine F limits).Steps c l os c' l') : os = [] ∨ .key key ∈ eventsOf os := by
  induction hs with
  | refl => exact .inl rfl
  | @head c l n c₁ out os c₂ l₂ hnext hrest ih =>
    obtain ⟨⟨hb, hs, hn⟩, hst, t, m, rfl, hf, hd⟩ := hk
    have hnext : c.next limits (quote :: t) = .step n c₁ out := hnext
    rw [next_outside hb hs hn, Core.outerStep, wsByte_isWs.mpr (show isWs quote = false by decide)]
      at hnext
    simp only at hnext
    split at hnext
    · -- first the line break before the key is over
      cases hnext
      exact ih ⟨⟨hb, hs, hn⟩, hst, t, m, rfl, hf, hd⟩
    · rw [Core.tokenStep, show tokenKind quote = .quote from rfl] at hnext
      simp only [Core.quoteStep, hst, Core.keyStep, hf, hd] at hnext
      split at hnext
      · cases hnext
      · obtain ⟨-, -, rfl, -⟩ := Core.finish_eq_step hnext
        exact .inr (by simp [eventsOf, Core.mark])

end Machine

/-! ## What was told -/

section Told

variable {h : Handler F} {s₀ : Session F} {l rest : List UInt8} {new : List (Call F)}
  {os : List (Mark F)} {m : Mark F} {c' : Core} {result : Except Stop Unit}

omit [Double F] in
/-- What is put out up to a token was called back, if all tokens were. -/
theorem Told.token {all : List (Mark F)} (ht : Told new all) (hm : m.1.isPiece = false)
    (hp : os ++ [m] <+: all) : os ++ [m] <+: marks new := by
  rcases List.prefix_or_prefix_of_prefix hp ht.marks_prefix with h | h
  · exact h
  rcases List.prefix_concat_iff.mp h with heq | hpre
  · rw [heq]
  · -- else the token would be missing
    exfalso
    obtain ⟨more, rfl⟩ := hp
    obtain ⟨gap, rfl⟩ := hpre
    have hlen := congrArg List.length ht.tokens_eq
    simp only [tokens_append, List.length_append] at hlen
    have hone : (tokens [m]).length = 1 := by simp [tokens, hm]
    omega

/-- **What the machine puts out up to a token is called back**, if the keys in it are not too
long. -/
theorem Comes.told (hc : Comes h s₀ l new result) (hl : s₀.parser.limits = .unlimited)
    (hs : (machine F .unlimited).Steps (s₀.parser.core h) l (os ++ [m]) c' rest)
    (hm : m.1.isPiece = false)
    (hk : ∀ key, .key key ∈ eventsOf (os ++ [m]) → byteLen key ≤ s₀.parser.stringChunkSize) :
    os ++ [m] <+: marks new := by
  cases hc with
  | accepted ends fits =>
    rw [hl] at ends
    obtain ⟨os', hos', -⟩ := ends.of_steps_iff hs
    exact ⟨os', hos'.symm⟩
  | rejected all ends told =>
    rw [hl] at ends
    obtain ⟨os', rfl, -⟩ := ends.of_steps_iff hs
    exact told.token hm (List.prefix_append _ _)
  | tooLong long =>
    rw [hl] at long
    cases long
  | longKey all long told =>
    rw [hl] at long
    obtain ⟨c₁, l₁, key, hs₁, hat, hlong⟩ := long
    rcases hs.linear hs₁ with ⟨os', rfl, -⟩ | ⟨os', heq, hs'⟩
    · exact told.token hm (List.prefix_append _ _)
    · rcases key_of_steps hat hs' with rfl | hmem
      · rw [List.append_nil] at heq
        exact told.token hm (by rw [heq])
      · have := hk key (by rw [heq, eventsOf_append]; exact List.mem_append_right _ hmem)
        omega

/-- **Where the machine does not accept** an error is returned, and no more is called back than it
puts out. -/
theorem Comes.refused (hc : Comes h s₀ l new result) (hl : s₀.parser.limits = .unlimited)
    (he : Ends .unlimited (s₀.parser.core h) l false os) :
    result ≠ .ok () ∧ marks new <+: os := by
  cases hc with
  | accepted ends fits =>
    rw [hl] at ends
    cases (ends.unique he).1
  | rejected all ends told =>
    rw [hl] at ends
    obtain ⟨-, rfl⟩ := ends.unique he
    exact ⟨by simp, told.marks_prefix⟩
  | tooLong long =>
    rw [hl] at long
    cases long
  | longKey all long told =>
    rw [hl] at long
    obtain ⟨c₁, l₁, key, hs₁, -⟩ := long
    obtain ⟨os', rfl, -⟩ := he.of_steps_iff hs₁
    exact ⟨by simp, told.marks_prefix.trans (List.prefix_append _ _)⟩

/-- **Where the machine puts out a key** that was not called back an error is returned, and no more
was called back than what was put out before it. -/
theorem Comes.missing (hc : Comes h s₀ l new result) (hl : s₀.parser.limits = .unlimited)
    (hs : (machine F .unlimited).Steps (s₀.parser.core h) l (os ++ [m]) c' rest)
    (hm : m.1.isPiece = false) (hno : ¬ os ++ [m] <+: marks new) :
    result ≠ .ok () ∧ marks new <+: os := by
  cases hc with
  | accepted ends fits =>
    rw [hl] at ends
    obtain ⟨os', hos', -⟩ := ends.of_steps_iff hs
    exact absurd ⟨os', hos'.symm⟩ hno
  | rejected all ends told =>
    rw [hl] at ends
    obtain ⟨os', rfl, -⟩ := ends.of_steps_iff hs
    exact absurd (told.token hm (List.prefix_append _ _)) hno
  | tooLong long =>
    rw [hl] at long
    cases long
  | longKey all long told =>
    rw [hl] at long
    obtain ⟨c₁, l₁, key, hs₁, -⟩ := long
    rcases hs.linear hs₁ with ⟨os', rfl, -⟩ | ⟨os', heq, -⟩
    · exact absurd (told.token hm (List.prefix_append _ _)) hno
    · refine ⟨by simp, ?_⟩
      rcases List.prefix_concat_iff.mp (show all <+: os ++ [m] from ⟨os', heq.symm⟩) with h | h
      · exact absurd (told.token hm (by rw [h])) hno
      · exact told.marks_prefix.trans h

end Told

/-! ## Pieces -/

section Pieces

omit [Double F] in
theorem Event.explode_token {e : Event F} (he : e.isPiece = false) : e.explode = [e] := by
  cases e with
  | stringValueContent | whitespace => cases he
  | _ => rfl

omit [Double F] in
theorem Event.isPiece_of_mem_explode {e f : Event F} (he : e.isPiece = true)
    (hf : f ∈ e.explode) : f.isPiece = true := by
  cases e with
  | stringValueContent | whitespace =>
    obtain ⟨c, -, rfl⟩ := List.mem_map.mp hf
    rfl
  | _ => cases he

omit [Double F] in
/-- A token among the events spelled out is one of the events. -/
theorem explode_split {es before after : List (Event F)} {t : Event F} (ht : t.isPiece = false)
    (h : explode es = before ++ t :: after) :
    ∃ es₁ es₂, es = es₁ ++ t :: es₂ ∧ explode es₁ = before ∧ explode es₂ = after := by
  induction es generalizing before with
  | nil => simp at h
  | cons e es ih =>
    rw [explode_cons] at h
    by_cases he : e.isPiece = true
    · -- the pieces of `e` come before the token
      obtain ⟨more, rfl⟩ : e.explode <+: before := by
        have hcase := List.append_eq_append_iff.mp h
        rcases hcase with ⟨more, rfl, -⟩ | ⟨more, heq, hrest⟩
        · exact List.prefix_append _ _
        · cases more with
          | nil => exact ⟨[], by simpa using heq⟩
          | cons f more =>
            obtain ⟨rfl, -⟩ := List.cons_eq_cons.mp hrest
            have := Event.isPiece_of_mem_explode he (show t ∈ e.explode by rw [heq]; simp)
            rw [ht] at this
            cases this
      rw [List.append_assoc] at h
      obtain ⟨es₁, es₂, rfl, h₁, h₂⟩ := ih (List.append_cancel_left h)
      exact ⟨e :: es₁, es₂, rfl, by rw [explode_cons, h₁], h₂⟩
    · rw [Event.explode_token (by simpa using he), List.singleton_append] at h
      cases before with
      | nil =>
        obtain ⟨rfl, rfl⟩ := List.cons_eq_cons.mp h
        exact ⟨[], es, rfl, rfl, rfl⟩
      | cons f before =>
        obtain ⟨rfl, hrest⟩ := List.cons_eq_cons.mp h
        obtain ⟨es₁, es₂, rfl, rfl, h₂⟩ := ih hrest
        exact ⟨e :: es₁, es₂, rfl, by
          rw [explode_cons, Event.explode_token (by simpa using he), List.singleton_append], h₂⟩

omit [Double F] in
/-- What is spelled out as content is content in pieces. -/
theorem pieces_of_explode {es : List (Event F)} {s : Text} (h : explode es = contentOf s)
    (hne : ∀ e ∈ es, e.NonEmpty) :
    ∃ pieces : List Text, es = pieces.map .stringValueContent ∧ pieces.flatten = s := by
  induction es generalizing s with
  | nil =>
    refine ⟨[], rfl, ?_⟩
    cases s with
    | nil => rfl
    | cons c s => cases h
  | cons e es ih =>
    rw [explode_cons] at h
    have hhead : ∀ f ∈ e.explode, ∃ c, f = .stringValueContent [c] := by
      intro f hf
      have hmem : f ∈ contentOf (F := F) s := by rw [← h]; exact List.mem_append_left _ hf
      obtain ⟨c, -, rfl⟩ := List.mem_map.mp hmem
      exact ⟨c, rfl⟩
    cases e with
    | stringValueContent u =>
      have hlen : (Event.stringValueContent (F := F) u).explode = contentOf u := rfl
      obtain ⟨v, rfl⟩ : ∃ v, s = u ++ v := by
        have hsplit := congrArg (List.take u.length) h
        rw [hlen, List.take_left' (by simp [contentOf]), contentOf, contentOf, ← List.map_take]
          at hsplit
        have hinj := List.map_injective_iff.mpr
          (show Function.Injective (fun c : Char => Event.stringValueContent (F := F) [c]) by
            intro a b hab; simpa using hab) hsplit
        have hcut := List.take_append_drop u.length s
        rw [← hinj] at hcut
        exact ⟨_, hcut.symm⟩
      rw [hlen] at h
      have hrest : explode es = contentOf v := by
        simp only [contentOf, List.map_append] at h
        exact List.append_cancel_left h
      obtain ⟨pieces, rfl, rfl⟩ := ih hrest fun f hf => hne f (List.mem_cons_of_mem _ hf)
      exact ⟨u :: pieces, rfl, rfl⟩
    | whitespace u =>
      have hu : u ≠ [] := hne _ List.mem_cons_self
      obtain ⟨c, u, rfl⟩ := List.exists_cons_of_ne_nil hu
      obtain ⟨d, hd⟩ := hhead (.whitespace [c]) (by simp [Event.explode])
      cases hd
    | _ =>
      obtain ⟨d, hd⟩ := hhead _ List.mem_cons_self
      cases hd

end Pieces

/-! ## Where a string stands -/

section Place

variable {h : Handler F} {s : Session F} {km : Nat}

/-- The parser is outside a string value and a number, where `state` says what may come. -/
def Parser.Awaits (p : Parser F) (state : State) : Prop :=
  match p.tokenizer with
  | none => state = .expectValue
  | some t => t.inString = false ∧ t.number.stage = .none ∧ t.state = state

/-- A parser that has read `before`, and called back `new`, goes on with what `state` says. -/
def Session.Expects (h : Handler F) (s : Session F) (before : List UInt8) (state : State)
    (new : List (Call F)) : Prop :=
  ∃ (layout : Layout) (s₁ : Session F), outcome h [.write before layout, .receive] s =
    (.ok (), s₁) ∧
    s₁.buf.bytes = [] ∧ s₁.parser.calls = s.parser.calls ++ new ∧ s₁.parser.Awaits state

/-- There the machine has read `before` and put out what was called back. -/
theorem Session.Expects.steps (hs : s.AtStart h) (hi : s.parser.Inv km)
    (hl : s.parser.limits = .unlimited) {before : List UInt8}
    (hcap : before.length ≤ s.buf.capacity) {state : State} {new : List (Call F)}
    (he : s.Expects h before state new) : ∃ c : Core, c.Awaits state ∧
      c.rejectDuplicateKeys = s.parser.rejectDuplicateKeys ∧ (∀ call ∈ new, call.Piece km km) ∧
      ∀ rest, (machine F .unlimited).Steps (s.parser.core h) (before ++ quote :: rest) (marks new) c
        (quote :: rest) := by
  obtain ⟨layout, s₁, hout, hempty, hcalls, hawaits⟩ := he
  have hwrite := (hs.reads hi).write before layout
  have hspare : s.buf.spareLen = s.buf.capacity := by simp [LoopBuf.spareLen, hs.empty]
  rw [hspare, List.take_of_length_le hcap, List.nil_append] at hwrite
  have hrun : Ensures (run h [.write before layout, .receive]) s
      (fun _ s' => ∃ more, s.Reads km h s' before more) (fun _ _ => True) := by
    rw [run, ensures_bind]
    show Ensures (run h [.receive]) { s with buf := s.buf.write before layout } _ _
    rw [run, ensures_bind]
    refine Ensures.mono (x := Parser.receive h) hwrite.receive ?_ (fun _ _ _ => trivial)
    rintro - s' ⟨-, -, -, more, hr, -⟩
    exact ⟨_, hr⟩
  have hok : run h [.write before layout, .receive] s = .ok () s₁ := by
    unfold outcome at hout
    cases hr : run h [.write before layout, .receive] s with
    | ok a s' =>
      rw [hr] at hout
      cases hout
      rfl
    | error e s' =>
      rw [hr] at hout
      cases hout
  rw [ensures_ok hok] at hrun
  obtain ⟨more, hreads⟩ := hrun
  obtain rfl : new = more := List.append_cancel_left (hcalls.symm.trans hreads.calls)
  have hsteps := hreads.steps
  rw [hempty, hl] at hsteps
  have hrejects : (s₁.parser.core h).rejectDuplicateKeys = s.parser.rejectDuplicateKeys := by
    obtain ⟨xs, -, hcore, -⟩ := lexes_of_steps hsteps
    rw [hcore, run_rejects, hs.core]
    rfl
  unfold Parser.Awaits at hawaits
  cases ht : s₁.parser.tokenizer with
  | some t =>
    rw [ht] at hawaits
    obtain ⟨hi₁, hn₁, hst⟩ := hawaits
    refine ⟨s₁.parser.core h, ?_, hrejects, hreads.piece, fun rest => hsteps.append _⟩
    rw [Parser.core_some ht]
    exact ⟨rfl, hi₁, hn₁, hst⟩
  | none =>
    -- nothing was read yet, and a quote is no byte order mark
    rw [ht] at hawaits
    have hawaits : state = .expectValue := hawaits
    subst hawaits
    have hcore := Parser.core_none (h := h) ht
    refine ⟨{ s₁.parser.core h with bomChecked := true }, ?_, hrejects, hreads.piece, ?_⟩
    · rw [hcore]
      exact ⟨rfl, rfl, rfl, rfl⟩
    · intro rest
      have hnext : (s₁.parser.core h).next (F := F) .unlimited (quote :: rest) =
          .step 0 { s₁.parser.core h with bomChecked := true } [] := by
        rw [hcore]
        rfl
      have := (hsteps.append (quote :: rest)).trans (steps_of_next hnext)
      simpa using this

omit [Double F] in
theorem eventsOf_contentMarks (s : Text) : eventsOf (contentMarks (F := F) s) = contentOf s := by
  simp [eventsOf, contentMarks, contentOf]

omit [Double F] in
theorem key_mem_of_explode {es : List (Event F)} {k : Text} (h : .key k ∈ explode es) :
    .key k ∈ es := by
  obtain ⟨e, he, hk⟩ := List.mem_flatMap.mp h
  cases e with
  | stringValueContent | whitespace =>
    obtain ⟨c, -, hc⟩ := List.mem_map.mp hk
    cases hc
  | key => rwa [List.mem_singleton.mp hk]
  | _ => cases List.mem_singleton.mp hk

omit [Double F] in
/-- The marks of some callbacks that start with those of others, a token and more. -/
theorem events_of_marks {new new₀ : List (Call F)} {os : List (Mark F)}
    (h : marks new₀ ++ os <+: marks new) :
    ∃ more, explode (new.map Call.event) = explode (new₀.map Call.event) ++ eventsOf os ++
      more := by
  obtain ⟨more, heq⟩ := h
  refine ⟨eventsOf more, ?_⟩
  rw [← eventsOf_marks, ← eventsOf_marks, ← heq, eventsOf_append, eventsOf_append]

omit [Double F] in
theorem events_prefix {new : List (Call F)} {os : List (Mark F)} (h : marks new <+: os) :
    explode (new.map Call.event) <+: eventsOf os := by
  rw [← eventsOf_marks]
  exact h.map _

omit [Double F] in
/-- A table with nothing in it. -/
theorem Parser.Inv.of_empty_table {p : Parser F} (hi : p.Inv km) (ht : p.tokenizer = none)
    (htable : p.interner.table = .new) : p.Inv p.stringChunkSize where
  tokenizer := by
    intro t h
    rw [ht] at h
    cases h
  bom := hi.bom
  interner := (Interner.new_inv _).of_table htable
  chunk := le_rfl

omit [Double F] in
theorem keys_of_pieces {new : List (Call F)} (hp : ∀ call ∈ new, call.Piece km km) {k : Text}
    (hk : .key k ∈ new.map Call.event) : byteLen k ≤ km := by
  obtain ⟨call, hcall, heq⟩ := List.mem_map.mp hk
  have := hp call hcall
  unfold Call.Piece at this
  rw [heq] at this
  exact this

omit [Double F] in
/-- The callbacks of a string value of which all was called back. -/
theorem string_called {new new₀ : List (Call F)} {text : Text} {p p' : Option SharedLocator}
    (hp : ∀ call ∈ new, call.Piece km km)
    (h : marks new₀ ++ ((.startStringValue, p) :: contentMarks text ++ [(.endStringValue, p')]) <+:
      marks new) :
    ∃ (es : List (Event F)) (pieces : List Text) (es' : List (Event F)),
      new.map Call.event = es ++ .startStringValue ::
        (pieces.map .stringValueContent ++ .endStringValue :: es') ∧
      explode es = explode (new₀.map Call.event) ∧ pieces.flatten = text := by
  obtain ⟨more, hmore⟩ := events_of_marks h
  have hshape : explode (new.map Call.event) = explode (new₀.map Call.event) ++
      .startStringValue :: (contentOf text ++ .endStringValue :: more) := by
    rw [hmore, eventsOf_append, ← eventsOf_contentMarks]
    simp [eventsOf]
  obtain ⟨es, es₂, hes, hbefore, hbehind⟩ := explode_split rfl hshape
  obtain ⟨es₃, es', rfl, hcontent, -⟩ := explode_split rfl hbehind
  obtain ⟨pieces, rfl, hflat⟩ := pieces_of_explode hcontent (by
    intro e he
    have hmem : e ∈ new.map Call.event := by rw [hes]; simp [he]
    obtain ⟨call, hcall, rfl⟩ := List.mem_map.mp hmem
    exact (hp call hcall).nonEmpty)
  exact ⟨es, pieces, es', hes, hbefore, hflat⟩

/-- **A string denotes one text**, where it is a value and where it is a key. It is called back if
there is one, for a key in one call; else the document is rejected there. A key is also rejected if
its text is longer than the chunk size, as long as no longer one was kept from another document. -/
theorem strings_denote (hs : s.AtStart h) (hh : h.NeverErrs) (hl : s.parser.limits = .unlimited)
    {before raw after : List UInt8} (hraw : Closed raw) {new₀ : List (Call F)} {state : State}
    (hplace : s.Expects h before state new₀) (chunks : List (List UInt8 × Layout))
    (hchunks : (chunks.map Prod.fst).flatten = before ++ quote :: (raw ++ quote :: after))
    (hcap : (before ++ quote :: (raw ++ quote :: after)).length ≤ s.buf.capacity) :
    ∃ new, (outcome h (presentation chunks) s).2.parser.calls = s.parser.calls ++ new ∧
      (state = .expectValue →
        (s.parser.interner.table = .new ∨ ∀ k, .key k ∈ new₀.map Call.event →
          byteLen k ≤ s.parser.stringChunkSize) →
        (∀ text, decodeString raw = some text →
          ∃ (es : List (Event F)) (pieces : List Text) (es' : List (Event F)),
          new.map Call.event = es ++ .startStringValue ::
              (pieces.map .stringValueContent ++ .endStringValue :: es') ∧
            explode es = explode (new₀.map Call.event) ∧ pieces.flatten = text) ∧
        (decodeString raw = none → (outcome h (presentation chunks) s).1 ≠ .ok () ∧
          ∃ text, explode (new.map Call.event) <+:
            explode (new₀.map Call.event) ++ .startStringValue :: contentOf text)) ∧
      (state = .expectKey → s.parser.rejectDuplicateKeys = false →
        s.parser.interner.table = .new →
        (∀ text, decodeString raw = some text → byteLen text ≤ s.parser.stringChunkSize →
          ∃ es es', new.map Call.event = es ++ .key text :: es' ∧
            explode es = explode (new₀.map Call.event)) ∧
        ((∀ text, decodeString raw = some text → s.parser.stringChunkSize < byteLen text) →
          (outcome h (presentation chunks) s).1 ≠ .ok () ∧
          explode (new.map Call.event) <+: explode (new₀.map Call.event))) := by
  have ht : s.parser.tokenizer = none := by rw [← hs.fresh]; rfl
  have hbefore : before.length ≤ s.buf.capacity := by
    rw [List.length_append] at hcap
    omega
  obtain ⟨km, hi⟩ := hs.reachable.inv
  obtain ⟨new, hcalled, hcomes⟩ := hs.presentation_comes hi hh chunks _ hchunks hcap
  obtain ⟨c, hawaits, hrejects, -, hsteps⟩ := hplace.steps hs hi hl hbefore
  have hplaced := hsteps (raw ++ quote :: after)
  -- with an empty table the chunk size bounds all keys
  have short (htable : s.parser.interner.table = .new) :
      (∀ k, .key k ∈ new.map Call.event → byteLen k ≤ s.parser.stringChunkSize) ∧
        ∀ k, .key k ∈ new₀.map Call.event → byteLen k ≤ s.parser.stringChunkSize := by
    have hi' := hi.of_empty_table ht htable
    obtain ⟨new', hcalled', -⟩ := hs.presentation_comes hi' hh chunks _ hchunks hcap
    obtain rfl : new = new' := List.append_cancel_left (hcalled.calls.symm.trans hcalled'.calls)
    obtain ⟨-, -, -, hpiece, -⟩ := hplace.steps hs hi' hl hbefore
    exact ⟨fun k => keys_of_pieces hcalled'.piece, fun k => keys_of_pieces hpiece⟩
  refine ⟨new, hcalled.calls, ?_, ?_⟩
  · rintro rfl hfit
    have hkeys : ∀ k, .key k ∈ new₀.map Call.event → byteLen k ≤ s.parser.stringChunkSize := by
      rcases hfit with htable | hfit
      · exact (short htable).2
      · exact hfit
    obtain ⟨p, ⟨text, c', p', hd, hrun⟩ | ⟨hd, text, hends⟩⟩ :=
      string_steps (F := F) hawaits hraw after
    · refine ⟨?_, fun hnone => absurd (hd.symm.trans hnone) (by simp)⟩
      intro text' hd'
      obtain rfl : text = text' := Option.some.inj (hd.symm.trans hd')
      have hall := hplaced.trans hrun
      rw [← List.append_assoc] at hall
      have htold := hcomes.told hl hall rfl (by
        intro key hkey
        refine hkeys key (key_mem_of_explode ?_)
        rw [← eventsOf_marks]
        simpa [eventsOf, contentMarks] using hkey)
      rw [List.append_assoc] at htold
      exact string_called hcalled.piece htold
    · refine ⟨fun text' hd' => absurd (hd.symm.trans hd') (by simp), fun _ => ?_⟩
      obtain ⟨hrefused, hprefix⟩ := hcomes.refused hl (hends.of_steps hplaced)
      refine ⟨hrefused, text, ?_⟩
      have := events_prefix hprefix
      rw [eventsOf_append, eventsOf_marks] at this
      rwa [← eventsOf_contentMarks]
  · rintro rfl hoff htable
    obtain ⟨hnew, hnew₀⟩ := short htable
    rcases key_steps (F := F) hawaits (hrejects.trans hoff) hraw after with
      ⟨text, c', p, hd, hrun⟩ | ⟨hd, hends⟩
    · have hall := hplaced.trans hrun
      refine ⟨?_, ?_⟩
      · intro text' hd' hle
        obtain rfl : text = text' := Option.some.inj (hd.symm.trans hd')
        have htold := hcomes.told hl hall rfl (by
          intro key hkey
          simp only [eventsOf_append, List.mem_append] at hkey
          rcases hkey with hkey | hkey
          · rw [eventsOf_marks] at hkey
            exact hnew₀ key (key_mem_of_explode hkey)
          · cases List.mem_singleton.mp hkey
            exact hle)
        obtain ⟨more, hmore⟩ := events_of_marks htold
        rw [List.append_assoc] at hmore
        obtain ⟨es, es', hes, hbehind, -⟩ := explode_split rfl hmore
        exact ⟨es, es', hes, hbehind⟩
      · intro hlong
        obtain ⟨hrefused, hprefix⟩ := hcomes.missing hl hall rfl (by
          intro htold
          obtain ⟨more, hmore⟩ := events_of_marks htold
          have := hnew text (key_mem_of_explode (by rw [hmore]; simp [eventsOf]))
          have := hlong text hd
          omega)
        have := events_prefix hprefix
        rw [eventsOf_marks] at this
        exact ⟨hrefused, this⟩
    · refine ⟨fun text' hd' => absurd (hd.symm.trans hd') (by simp), fun _ => ?_⟩
      obtain ⟨hrefused, hprefix⟩ := hcomes.refused hl (hends.of_steps hplaced)
      rw [List.append_nil] at hprefix
      have := events_prefix hprefix
      rw [eventsOf_marks] at this
      exact ⟨hrefused, this⟩

/-- The key of `{"\u00e9":1}`, cut in its escape sequence. -/
theorem strings_denote_key :
    let s : Session Rat := (Session.new 64 (.split 0)).configure .unlimited false ⟨16, by decide⟩
    let chunks : List (List UInt8 × Layout) := [([0x7B, 0x22, 0x5C, 0x75], .split 2),
      ([0x30, 0x30, 0x65, 0x39, 0x22, 0x3A, 0x31, 0x7D], .split 3)]
    ∃ new, (outcome .accepting (presentation chunks) s).2.parser.calls = s.parser.calls ++ new ∧
      ∃ es es', new.map Call.event = es ++ .key ['é'] :: es' ∧ explode es = [.startObject] := by
  intro s chunks
  have hstart : s.AtStart .accepting := (Session.new_atStart .accepting 64 (.split 0)).configure ..
  have hplace : s.Expects .accepting [0x7B] .expectKey [⟨.startObject, ⟨1, 2⟩⟩] :=
    ⟨.split 0, (outcome .accepting [.write [0x7B] (.split 0), .receive] s).2, rfl, rfl, rfl,
      rfl, rfl, rfl⟩
  have hraw : Closed [0x5C, 0x75, 0x30, 0x30, 0x65, 0x39] := by unfold Closed; decide
  have hchunks : (chunks.map Prod.fst).flatten =
      [0x7B] ++ quote :: ([0x5C, 0x75, 0x30, 0x30, 0x65, 0x39] ++
        quote :: [0x3A, 0x31, 0x7D]) := rfl
  obtain ⟨new, hcalls, -, hkey⟩ :=
    strings_denote hstart (fun _ => rfl) rfl hraw hplace chunks hchunks (by decide)
  exact ⟨new, hcalls, (hkey rfl rfl rfl).1 ['é'] (by decide) (by decide)⟩

end Place

end RJsonParser
