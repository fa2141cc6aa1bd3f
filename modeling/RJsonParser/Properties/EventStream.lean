import RJsonParser.Properties.Runs

/-!
# What a handler sees

* `Core.place` — where the event stream stands when the machine is in some state
* `Core.next_keeps`, `steps_keep` — each step of the machine keeps to the protocol, and so do all
* `handler_sees_prefix` — whatever the bytes, the limits and the handler, the callbacks are the
  start of the traversal of some value, and the pieces of content are as they should be
-/

namespace RJsonParser

open Infra Infra.Utf8

variable {F : Type}

/-! ## Where the event stream stands -/

/-- The events that are put out. -/
def eventsOf (ms : List (Mark F)) : List (Event F) := ms.map Prod.fst

@[simp] theorem eventsOf_nil : eventsOf ([] : List (Mark F)) = [] := rfl

@[simp] theorem eventsOf_append (ms ns : List (Mark F)) :
    eventsOf (ms ++ ns) = eventsOf ms ++ eventsOf ns := List.map_append

/-- A container opens where a value is due. -/
theorem Protocol.step_open {q : Protocol} (h : q.WantsValue) (context : Context) :
    q.step (F := F) context.openEvent = some ⟨context :: q.stack, .between⟩ := by
  cases context <;> exact if_pos h

namespace Core

/-- Where the event stream stands in the state `c`. -/
def place (c : Core) : Protocol where
  stack := c.context
  spot :=
    if c.inString then .string
    else
      match c.state with
      | .expectColon => .value
      | .expectValue => if c.context.head? = some .array then .between else .value
      | .expectKey | .afterValue => .between

/-- A key or a colon is expected in an object only, and a string or number only in place of a
value. -/
structure Wf (c : Core) : Prop where
  key : c.state = .expectKey ∨ c.state = .expectColon → c.context.head? = some .object
  string : c.inString = true → c.state = .expectValue ∧ c.number.stage = .none
  number : c.number.stage ≠ .none → c.state = .expectValue

/-- What is put out may come where the event stream stands, and leads to where it stands then. -/
def Keeps (c : Core) : Verdict Core (Mark F) → Prop
  | .need => True
  | .fail out => ∃ q, c.place.run (eventsOf out) = some q
  | .step _ c' out => c'.Wf ∧ c.place.run (eventsOf out) = some c'.place

variable {limits : ParserLimits} {c c' : Core} {b : UInt8} {l : List UInt8}

@[simp] theorem keeps_need : c.Keeps (.need : Verdict Core (Mark F)) := trivial

@[simp] theorem keeps_fail : c.Keeps (.fail [] : Verdict Core (Mark F)) := ⟨_, rfl⟩

/-- The end of a token: it is enough that all it puts out may come. -/
theorem keeps_finish {n : Nat} {early late : List (Mark F)} (hw : c'.Wf)
    (h : c.place.run (eventsOf (early ++ late)) = some c'.place) :
    c.Keeps (finish limits n c' early late) := by
  unfold finish
  split
  · rw [eventsOf_append, Protocol.run_append] at h
    obtain ⟨q, hq, -⟩ := Option.bind_eq_some_iff.mp h
    exact ⟨q, hq⟩
  · exact ⟨⟨hw.key, hw.string, hw.number⟩, h⟩

theorem run_one (q : Protocol) (m : Mark F) : q.run (eventsOf [m]) = q.step m.1 := by
  simp [eventsOf, Protocol.run]

/-- Between the values of a container. -/
theorem place_between (hs : c.inString = false) (h : c.state = .afterValue ∨ c.state = .expectKey) :
    c.place = ⟨c.context, .between⟩ := by
  rcases h with h | h <;> simp [place, hs, h]

/-- Where a value is due. -/
theorem place_value (hs : c.inString = false) (h : c.state = .expectValue) :
    c.place.WantsValue := by
  unfold Protocol.WantsValue place
  simp only [hs, h]
  by_cases hc : c.context.head? = some .array <;> simp [hc]

/-- After a value. -/
theorem step_scalar {e : Event F} (hs : c.inString = false) (h : c.state = .expectValue)
    (he : ∀ q : Protocol, q.step e = if q.WantsValue then some ⟨q.stack, .between⟩ else none)
    (hs' : c'.inString = false) (h' : c'.state = .afterValue) (hc : c'.context = c.context) :
    c.place.step e = some c'.place := by
  rw [he, if_pos (place_value hs h), place_between hs' (.inl h'), hc]
  rfl

/-- Outside strings and numbers a state is well formed if keys are those of objects. -/
theorem wf_of_key (hs : c.inString = false) (hn : c.number.stage = .none)
    (h : c.state = .expectKey ∨ c.state = .expectColon → c.context.head? = some .object) :
      c.Wf where
  key := h
  string h := by rw [hs] at h; cases h
  number h := absurd hn h

/-- A state outside a string value and a number, with nothing expected but a value or what is behind
one. -/
theorem wf_of_outside (hs : c.inString = false) (hn : c.number.stage = .none)
    (h : c.state = .expectValue ∨ c.state = .afterValue) : c.Wf :=
  wf_of_key hs hn fun hk => by rcases h with h | h <;> (rw [h] at hk; simp at hk)

/-- In a state outside a string value and a number. -/
structure Outside (c : Core) : Prop where
  wf : c.Wf
  inString : c.inString = false
  number : c.number.stage = .none

/-! ## Steps -/

/-- A key keeps to the protocol. -/
theorem keyStep_keeps (ho : c.Outside) (h : c.state = .expectKey) :
    c.Keeps (c.keyStep (F := F) limits l) := by
  have hobj := ho.wf.key (.inl h)
  unfold keyStep
  cases keyFront limits.maxNameLength 0 l with
  | need => trivial
  | bad => exact keeps_fail
  | found n =>
    simp only
    cases decodeString (l.take n) with
    | none => exact keeps_fail
    | some key =>
      simp only
      split
      · exact keeps_fail
      · refine keeps_finish (wf_of_key ho.inString ho.number fun _ => hobj) ?_
        rw [List.append_nil, run_one, place_between ho.inString (.inr h)]
        simp [mark, Protocol.step, hobj, place, goto, move, note, ho.inString]

/-- So does a literal. -/
theorem literalStep_keeps (ho : c.Outside) (h : c.state = .expectValue) {rest : List UInt8}
    {value : Option Bool} : c.Keeps (c.literalStep (F := F) limits rest l value) := by
  unfold literalStep
  cases literalFront rest l with
  | need => trivial
  | bad => exact keeps_fail
  | found n =>
    refine keeps_finish (wf_of_outside ho.inString ho.number (.inr rfl)) ?_
    rw [List.nil_append, run_one]
    refine step_scalar ho.inString h (fun q => ?_) ho.inString rfl rfl
    cases value <;> rfl

/-- A character of a string value. -/
theorem charStep_keeps (hw : c.Wf) (hs : c.inString = true) {ch : Char} {n columns : Nat} :
    c.Keeps (c.charStep (F := F) limits ch n columns) := by
  unfold charStep
  split
  · exact keeps_fail
  · refine ⟨⟨hw.key, hw.string, hw.number⟩, ?_⟩
    rw [run_one]
    simp [Protocol.step, place, inContent, move, hs]

/-- A string value goes on, or ends. -/
theorem stringStep_keeps (hw : c.Wf) (hs : c.inString = true) :
    c.Keeps (c.stringStep (F := F) limits b l) := by
  unfold stringStep
  split
  · refine ⟨wf_of_outside rfl (hw.string hs).2 (.inr rfl), ?_⟩
    rw [run_one]
    simp [mark, Protocol.step, place, endString, move, hs]
  split
  · split
    · exact keeps_fail
    · trivial
    · exact charStep_keeps hw hs
  split
  · exact keeps_fail
  · split
    · exact keeps_fail
    · exact charStep_keeps hw hs
    · split
      · exact keeps_fail
      · trivial

/-- A container opens. -/
theorem openStep_keeps (ho : c.Outside) {context : Context} :
    c.Keeps (c.openStep (F := F) limits context) := by
  unfold openStep
  split
  · exact keeps_fail
  · next h =>
    rw [not_not] at h
    split
    · exact keeps_fail
    · refine keeps_finish (wf_of_key ho.inString ho.number fun hk => ?_) ?_
      · cases context <;> simp_all [enter, goto, Context.first]
      · rw [List.append_nil, run_one, show ((c.enter context).mark (F := F) context.openEvent).1 =
          context.openEvent from rfl, Protocol.step_open (place_value ho.inString h)]
        cases context <;> simp [place, enter, goto, move, Context.first, ho.inString]

/-- A container closes, and the value is part of the one around it. -/
theorem closeStep_keeps (ho : c.Outside) {context : Context} :
    c.Keeps (c.closeStep (F := F) limits context) := by
  unfold closeStep
  by_cases hc : c.context.head? = some context
  swap
  · rw [if_pos hc]
    exact keeps_fail
  rw [if_neg (not_not.mpr hc)]
  split
  · exact keeps_fail
  · next hst =>
    split
    · exact keeps_fail
    refine keeps_finish (wf_of_outside ho.inString ho.number (.inr rfl)) ?_
    have hplace : c.place = ⟨c.context, .between⟩ := by
      rw [not_and_or, not_not, not_not] at hst
      cases context <;> simp [Context.first] at hst <;> rcases hst with h | h <;>
        simp [place, ho.inString, h, hc]
    rw [List.append_nil, run_one, hplace]
    cases context <;>
      simp [mark, Context.closeEvent, Protocol.step, hc, place, leave, goto, move, ho.inString]

/-- A quote starts a key or a string value. -/
theorem quoteStep_keeps (ho : c.Outside) : c.Keeps (c.quoteStep (F := F) limits l) := by
  unfold quoteStep
  cases h : c.state with
  | expectColon => exact keeps_fail
  | afterValue => exact keeps_fail
  | expectKey => exact keyStep_keeps ho h
  | expectValue =>
    refine keeps_finish ⟨?_, fun _ => ⟨h, ho.number⟩, fun hn => absurd ho.number hn⟩ ?_
    · intro hk
      rw [show (c.beginString).state = c.state from rfl, h] at hk
      simp at hk
    · rw [List.append_nil, run_one]
      exact if_pos (place_value ho.inString h)

/-- **A token keeps to the protocol.** -/
theorem tokenStep_keeps (ho : c.Outside) : c.Keeps (c.tokenStep (F := F) limits b l) := by
  unfold tokenStep
  cases tokenKind b with
  | quote => exact quoteStep_keeps ho
  | opening context => exact openStep_keeps ho
  | closing context => exact closeStep_keeps ho
  | other => exact keeps_fail
  | comma =>
    simp only
    split
    · exact keeps_fail
    · next hst =>
      obtain ⟨h, hne⟩ := not_or.mp hst
      rw [not_not] at h
      refine keeps_finish (wf_of_key ho.inString ho.number fun hk => ?_) ?_
      · by_contra hc
        replace hc : ¬ c.context.head? = some .object := hc
        simp only [comma] at hk
        rw [if_neg hc] at hk
        simp at hk
      · rw [place_between ho.inString (.inl h)]
        obtain ⟨x, rest, hx⟩ := List.exists_cons_of_ne_nil hne
        cases x <;> simp [Protocol.run, place, comma, move, ho.inString, hx]
  | colon =>
    simp only
    split
    · exact keeps_fail
    · next h =>
      rw [not_not] at h
      have hobj := ho.wf.key (.inr h)
      refine keeps_finish (wf_of_outside ho.inString ho.number (.inl rfl)) ?_
      simp [Protocol.run, place, goto, move, ho.inString, h, hobj]
  | literal rest value =>
    simp only
    split
    · exact keeps_fail
    · next h => exact literalStep_keeps ho (not_not.mp h)
  | number =>
    simp only
    split
    · exact keeps_fail
    · next h =>
      rw [not_not] at h
      refine keeps_finish ⟨?_, ?_, fun _ => h⟩ rfl
      · intro hk
        rw [show (c.beginNumber b).state = c.state from rfl, h] at hk
        simp at hk
      · intro hs
        cases ho.inString.symm.trans hs

/-- So does whitespace. -/
theorem outerStep_keeps (ho : c.Outside) : c.Keeps (c.outerStep (F := F) limits b l) := by
  unfold outerStep
  split
  · refine ⟨⟨ho.wf.key, ho.wf.string, ho.wf.number⟩, ?_⟩
    split <;> rfl
  · split
    · exact ⟨⟨ho.wf.key, ho.wf.string, ho.wf.number⟩, rfl⟩
    · exact tokenStep_keeps ho

variable [Double F]

/-- A number goes on, or ends and is reported. -/
theorem numberStep_keeps (hw : c.Wf) (hn : c.number.stage ≠ .none) :
    c.Keeps (c.numberStep (F := F) limits b) := by
  have hs : c.inString = false := by
    by_contra h
    exact hn (hw.string (by simpa using h)).2
  unfold numberStep
  split
  · split
    · exact keeps_fail
    · refine ⟨⟨hw.key, ?_, fun _ => hw.number hn⟩, rfl⟩
      intro h
      cases hs.symm.trans h
  · refine ⟨wf_of_outside hs rfl (.inr rfl), ?_⟩
    rw [run_one]
    exact step_scalar hs (hw.number hn) (fun _ => rfl) hs rfl rfl
  · exact keeps_fail
  · exact keeps_fail

/-- **Each step of the machine keeps to the protocol of the handler.** -/
theorem next_keeps (hw : c.Wf) : c.Keeps (c.next (F := F) limits l) := by
  unfold next
  split
  · split
    · trivial
    · exact keeps_fail
    · exact ⟨⟨hw.key, hw.string, hw.number⟩, rfl⟩
  · cases l with
    | nil => trivial
    | cons b l =>
      simp only
      by_cases hs : c.inString = true
      · rw [if_pos hs]
        exact stringStep_keeps hw hs
      rw [if_neg hs]
      by_cases hn : c.number.stage = .none
      · rw [if_neg (not_not.mpr hn)]
        exact outerStep_keeps ⟨hw, by simpa using hs, hn⟩
      · rw [if_pos hn]
        exact numberStep_keeps hw hn

/-- The end of the input may end a number. -/
theorem endInput_keeps {out : List (Mark F)} (hw : c.Wf) (h : c.endInput = some (c', out)) :
    c.place.run (eventsOf out) = some c'.place := by
  unfold endInput at h
  by_cases hs : c.inString = true
  · rw [if_pos hs] at h
    cases h
  rw [if_neg hs] at h
  have hs' : c.inString = false := by simpa using hs
  split at h
  · cases h
    rfl
  all_goals
    rename_i hn
    cases h
    try
      rw [run_one]
      exact step_scalar hs' (hw.number (by rw [hn]; simp)) (fun _ => rfl) hs' rfl rfl

end Core

/-! ## Runs -/

section Runs

variable [Double F] {limits : ParserLimits} {c c' : Core} {l l' : List UInt8} {os : List (Mark F)}

/-- **A run keeps to the protocol.** -/
theorem steps_keep (h : (machine F limits).Steps c l os c' l') (hw : c.Wf) :
    c'.Wf ∧ c.place.run (eventsOf os) = some c'.place := by
  induction h with
  | refl => exact ⟨hw, rfl⟩
  | @head c l n c₁ out os c' l' hn _ ih =>
    have hk : c.Keeps (c.next (F := F) limits l) := Core.next_keeps hw
    rw [show c.next limits l = .step n c₁ out from hn] at hk
    obtain ⟨hw', hrun⟩ := hk
    obtain ⟨hw'', hrun'⟩ := ih hw'
    refine ⟨hw'', ?_⟩
    rw [eventsOf_append, Protocol.run_append, hrun]
    exact hrun'

omit [Double F] in
/-- A run of events can be stopped anywhere. -/
theorem exists_run_of_prefix {q : Protocol} (q' : Protocol) {es fs : List (Event F)}
    (h : q.run fs = some q') (hp : es <+: fs) : ∃ q'', q.run es = some q'' := by
  obtain ⟨rest, rfl⟩ := hp
  rw [Protocol.run_append, Option.bind_eq_some_iff] at h
  exact ⟨_, h.choose_spec.1⟩

/-- **All that the machine puts out keeps to the protocol.** -/
theorem Produces.keeps (h : Produces limits c l os) (hw : c.Wf) :
    ∃ q, c.place.run (eventsOf os) = some q := by
  rcases h with ⟨mid, c', l', hs, hp⟩ | ⟨mid, c', c'', last, hs, he, hp⟩
  · obtain ⟨hw', hrun⟩ := steps_keep hs hw
    have hk : ∃ q, c'.place.run (eventsOf ((machine F limits).next c' l').out) = some q := by
      have : c'.Keeps (c'.next (F := F) limits l') := Core.next_keeps hw'
      show ∃ q, c'.place.run (eventsOf (c'.next limits l').out) = some q
      cases hn : c'.next (F := F) limits l' with
      | need => exact ⟨_, rfl⟩
      | fail out => rw [hn] at this; exact this
      | step n c'' out => rw [hn] at this; exact ⟨_, this.2⟩
    obtain ⟨q, hq⟩ := hk
    refine exists_run_of_prefix q ?_ (hp.map Prod.fst)
    show c.place.run (eventsOf (mid ++ _)) = some q
    rw [eventsOf_append, Protocol.run_append, hrun]
    exact hq
  · obtain ⟨hw', hrun⟩ := steps_keep hs hw
    refine exists_run_of_prefix c''.place ?_ (hp.map Prod.fst)
    show c.place.run (eventsOf (mid ++ _)) = _
    rw [eventsOf_append, Protocol.run_append, hrun]
    exact Core.endInput_keeps hw' he

end Runs

/-! ## Sessions -/

/-- What the machine puts out is what is called back, spelled out. -/
theorem eventsOf_marks (calls : List (Call F)) :
    eventsOf (marks calls) = explode (calls.map Call.event) := by
  induction calls with
  | nil => rfl
  | cons call calls ih =>
    rw [marks_cons, eventsOf_append, ih, List.map_cons, explode_cons]
    congr 1
    unfold Call.marks Event.explode
    cases call.event <;> simp [eventsOf]

/-- No piece is empty. -/
theorem Call.Piece.nonEmpty {call : Call F} {n km : Nat} (h : call.Piece n km) :
    call.event.NonEmpty := by
  unfold Call.Piece at h
  unfold Event.NonEmpty
  cases he : call.event <;> rw [he] at h
  case stringValueContent => exact h.1
  case whitespace => exact h
  all_goals trivial

section Handler

variable [Double F] {h : Handler F} {s : Session F}

/-- At the start of a document nothing has come. -/
theorem Core.start_wf (r w : Bool) : (Core.start r w).Wf ∧ (Core.start r w).place = .start :=
  ⟨wf_of_outside rfl rfl (.inl rfl), rfl⟩

/-- What was called back keeps to the protocol. -/
theorem Session.Said.accepts {km : Nat} {s' : Session F} {stream : List UInt8}
    {new : List (Call F)} (hs : s.AtStart h) (hsaid : s.Said km h s' stream new) :
    Protocol.Accepts (dropWhitespace (new.map Call.event)) := by
  obtain ⟨hw, hplace⟩ := Core.start_wf s.parser.rejectDuplicateKeys
    (h.needsWhitespace s.parser.calls)
  have hprod := hsaid.produces
  rw [hs.core] at hprod
  obtain ⟨q, hq⟩ := hprod.keeps hw
  rw [hplace, eventsOf_marks, Protocol.run_explode] at hq
  · exact ⟨q, by rw [Protocol.run_dropWhitespace, hq]⟩
  · intro e he
    obtain ⟨call, hc, rfl⟩ := List.mem_map.mp he
    exact (hsaid.piece call hc).nonEmpty

/-- **A handler only ever sees the start of the traversal of some value**, whatever the bytes and
how they arrive, the limits and what the handler returns. Each piece of content is a non-empty text
of at most the chunk size that is in force. -/
theorem handler_sees_prefix (hs : s.AtStart h) {ops : List Op} (hops : ∀ op ∈ ops, op.Feeds) :
    (∃ new, (outcome h ops s).2.parser.calls = s.parser.calls ++ new ∧
      ∃ j : Json F, dropWhitespace (new.map Call.event) <+: j.traverse) ∧
    ∀ before op after, ops = before ++ op :: after →
      ∀ s₁, outcome h before s = (.ok (), s₁) →
        ∃ new, (op.result h s₁).2.parser.calls = s₁.parser.calls ++ new ∧
          ∀ call ∈ new, ∀ text, call.event = .stringValueContent text →
            text ≠ [] ∧ byteLen text ≤ s₁.parser.stringChunkSize := by
  constructor
  · obtain ⟨km, new, hsaid⟩ := hs.said hops
    refine ⟨new, hsaid.calls, exists_traverse_of_accepts (hsaid.accepts hs) ?_⟩
    exact whitespace_notMem_dropWhitespace _
  · rintro before op after rfl s₁ heq
    obtain ⟨km, hi, hn, hrun⟩ :=
      hs.run (show ∀ o ∈ before, o.Feeds from fun o ho => hops o (by simp [ho]))
    have hop : op.Feeds := hops op (by simp)
    unfold Ensures at hrun
    unfold outcome at heq
    cases hr : run h before s with
    | error e s' => rw [hr] at heq; simp at heq
    | ok a s' =>
      rw [hr] at heq hrun
      simp only [Prod.mk.injEq, true_and] at heq
      subst heq
      obtain ⟨new, -, hreads, -⟩ := hrun
      by_cases hc : s'.parser.closed = true
      · exact ⟨[], by rw [Op.result_closed hop hc, List.append_nil], by simp⟩
      · obtain ⟨more, hcalls, hp⟩ := (hreads (by simpa using hc)).result hop
        refine ⟨more, hcalls, fun call hcall text htext => ?_⟩
        have := hp call hcall
        unfold Call.Piece at this
        rwa [htext] at this

/-- An array with a string, in two chunks of which one is cut by the wrap of the ring. -/
theorem handler_sees_prefix_array :
    let s : Session Rat := .new 64 (.split 0)
    let ops :=
      presentation [([0x5B, 0x31, 0x2C, 0x22, 0x61], .split 2), ([0x62, 0x22, 0x5D], .split 8)]
    (∃ new, (outcome .accepting ops s).2.parser.calls = s.parser.calls ++ new ∧
      ∃ j : Json Rat, dropWhitespace (new.map Call.event) <+: j.traverse) ∧
    ∀ before op after, ops = before ++ op :: after →
      ∀ s₁, outcome .accepting before s = (.ok (), s₁) →
        ∃ new, (op.result .accepting s₁).2.parser.calls = s₁.parser.calls ++ new ∧
          ∀ call ∈ new, ∀ text, call.event = .stringValueContent text →
            text ≠ [] ∧ byteLen text ≤ s₁.parser.stringChunkSize :=
  handler_sees_prefix (Session.new_atStart _ _ _) (by
    intro op hop
    simp only [presentation, List.flatMap_cons, List.flatMap_nil, List.append_nil, List.cons_append,
      List.nil_append, List.mem_cons, List.not_mem_nil, or_false] at hop
    rcases hop with rfl | rfl | rfl | rfl | rfl <;> trivial)

end Handler

end RJsonParser
