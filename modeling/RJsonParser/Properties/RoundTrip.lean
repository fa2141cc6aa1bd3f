import RJsonParser.Properties.Scripts

/-!
# Round trips

What is written is read back.

* `document_called` — what a parser makes of a document of the grammar, in whatever chunks
* `round_trip` — the writer, then the parser
-/

namespace RJsonParser

open Infra Infra.Utf8 Writer

variable {F : Type} [Double F]

/-! ## The parser -/

section Parser

variable {h : Handler F} {s : Session F} {l : List UInt8} {t : Tree}

/-- The traversal of what a tree denotes is joined. -/
theorem Tree.join_explode (t : Tree) :
    join (explode t.denote.traverse) = t.denote.traverse (F := F) := by
  have htree := Tree.join_traverse (F := F) t []
  rwa [List.append_nil, show join ([] : List (Event F)) = [] from rfl, List.append_nil] at htree

/-- **A document of the grammar is accepted**, in whatever chunks it comes, and what is called back
besides whitespace is the traversal of the value that it denotes. -/
theorem Session.AtStart.document_called (hs : s.AtStart h) (hh : h.NeverErrs)
    (chunks : List (List UInt8 × Layout)) (hl : (chunks.map Prod.fst).flatten = l) (n : ChunkSize)
    (hcap : l.length ≤ s.buf.capacity) (ht : Document l t)
    (hkeys : ∀ k ∈ t.keys, byteLen k.text ≤ n) :
    (outcome h (presentation chunks) (s.configure .unlimited false n)).1 = .ok () ∧ ∃ new,
      (outcome h (presentation chunks) (s.configure .unlimited false n)).2.parser.calls =
        s.parser.calls ++ new ∧
      join (dropWhitespace (new.map Call.event)) = t.denote.traverse := by
  have hs' := hs.configure .unlimited false n
  have keys : (s.configure .unlimited false n).KeysFit h l n :=
    ht.keysFit (hs'.core ▸ Core.start_starts _ _) hkeys
  obtain ⟨os, hends, hev⟩ : ∃ os : List (Mark F), Ends .unlimited
      ((s.configure .unlimited false n).parser.core h) l true os ∧
        dropWhitespace (eventsOf os) = explode t.denote.traverse := by
    refine ht.yields ?_
    rw [hs'.core]
    exact Core.start_fresh _
  obtain ⟨km, hi⟩ := hs'.reachable.inv
  obtain ⟨new, hcalled, hcomes⟩ := hs'.presentation_comes hi hh chunks l hl hcap
  generalize outcome h (presentation chunks) (s.configure .unlimited false n) = r
    at hcalled hcomes ⊢
  obtain ⟨result, s'⟩ := r
  cases hcomes with
  | accepted ends fits =>
    rw [(hends.unique ends).2] at hev
    exact ⟨rfl, new, hcalled.calls, hcalled.joined t hev⟩
  | rejected os' ends told => cases (hends.unique ends).1
  | tooLong long => cases long
  | longKey os long told => exact absurd long (keys os)

end Parser

/-! ## The writer, then the parser -/

section Writer

variable [DoubleText F]

/-- What the parser makes of the bytes that the calls of a value put. -/
def ReadsBack (bytes : List UInt8) (calls : List (WriteCall F)) : Prop :=
  ∀ (h : Handler F) (s : Session F) (n : ChunkSize) (chunks : List (List UInt8 × Layout)),
    s.AtStart h → h.NeverErrs → (∀ k, .key k ∈ calls → byteLen k ≤ n) →
    (chunks.map Prod.fst).flatten = bytes → bytes.length ≤ s.buf.capacity →
    (outcome h (presentation chunks) (s.configure .unlimited false n)).1 = .ok () ∧ ∃ new,
      (outcome h (presentation chunks) (s.configure .unlimited false n)).2.parser.calls =
        s.parser.calls ++ new ∧
      join (dropWhitespace (new.map Call.event)) = join (readBack calls)

/-- The calls, made one after the other, put `bytes` into an empty ring that holds them. -/
def PutsAll (w : Writer) (calls : List (WriteCall F)) (bytes : List UInt8) : Prop :=
  ∀ ring : LoopBuf, ring.bytes = [] → bytes.length ≤ ring.capacity → ∃ s',
    WriterSession.run ⟨calls, ring, w, []⟩ (List.replicate calls.length .call) = .ok s' ∧
      s'.calls = [] ∧ s'.ring.bytes = bytes

omit [Double F] in
/-- Before the first value there is nothing in front. -/
theorem Writer.lead_first {w : Writer} (hw : w.state = .init0) : w.lead = [] := by
  obtain ⟨indent, state, depth⟩ := w
  obtain rfl : state = .init0 := hw
  cases indent <;> rfl

omit [Double F] in
/-- What some calls put is in a ring that holds it. -/
theorem Writes.putsAll {calls : List (WriteCall F)} {w w' : Writer} {bytes : List UInt8}
    (h : Writes calls w bytes w') (hr : ∀ c ∈ calls, c.Ranged) : PutsAll w calls bytes := by
  intro ring hring hcap
  have hroom : bytes.length ≤ ring.spareLen := by
    unfold LoopBuf.spareLen
    rw [hring]
    exact hcap
  refine ⟨_, WriterSession.run_straight [] hr h hroom, rfl, ?_⟩
  rw [LoopBuf.bytes_extendFromSlice ring hroom, hring, List.nil_append]

/-- **What is written of a value is read back**, each number as what its text denotes. -/
theorem Script.writes_readsBack (x : Script F) (hx : ∀ v, .number v ∈ x.calls → v.Readable)
    {w : Writer} (hw : w.state = .init0) :
    ∃ bytes, Writes x.calls w bytes w.behind ∧ ReadsBack bytes x.calls := by
  obtain ⟨t, ht, hev, hkeys⟩ := x.written hx w
  rw [Writer.lead_first hw, List.nil_append] at ht
  refine ⟨t.bytes, ht, ?_⟩
  intro h s n chunks hs hh hk hl hcap
  have hdoc : Document t.bytes t := ⟨[], ⟨[], by simp⟩, ⟨[], by simp⟩, .inl rfl, by simp⟩
  obtain ⟨hok, new, hcalls, hjoin⟩ := hs.document_called hh chunks hl n hcap hdoc fun k hmem =>
    hk _ (hkeys k hmem)
  refine ⟨hok, new, hcalls, ?_⟩
  rw [hjoin, ← hev, t.join_explode]

/-- **Writer and parser are inverse on events.** Whatever the indentation and however strings are
split, the calls that write a value whose numbers are integers succeed, and a parser that is
presented with the bytes in any chunks accepts them and calls back the events that were written,
with the pieces of a string joined and each integer of the same value. -/
theorem round_trip (x : Script F) (hx : ∀ v, .number v ∈ x.calls → ∃ z, v.IsInteger z)
    {w : Writer} (hw : w.state = .init0) :
    (∃ bytes, PutsAll w x.calls bytes ∧ ReadsBack bytes x.calls) ∧
      ∀ (v : Number F) z, v.IsInteger z → v.reread.IsInteger z := by
  refine ⟨?_, fun v z hv => hv.reread⟩
  obtain ⟨bytes, hputs, hreads⟩ :=
    x.writes_readsBack (fun v hv => (hx v hv).choose_spec.readable) hw
  exact ⟨bytes, hputs.putsAll (x.ranged fun v hv => (hx v hv).choose_spec.ranged), hreads⟩

/-- Arithmetic of which every result is 0.5. -/
instance : Double Half where
  zero := .half
  ofNat _ := .half
  parse _ _ := .half
  mul _ _ := .half
  div _ _ := .half
  neg _ := .half
  eq _ _ := true

/-- `{"a":[-7,"é\""]}`, indented by two spaces, the string in three pieces. -/
theorem round_trip_object :
    let x : Script Half :=
      .object [(['a'], .array [.number (.i64 (-7)), .pieces [['é'], [], ['"']]])]
    (∃ bytes, PutsAll (.withIndent ⟨0x20, 2, .inl rfl, by decide⟩) x.calls bytes ∧
        ReadsBack bytes x.calls) ∧
      ∀ (v : Number Half) z, v.IsInteger z → v.reread.IsInteger z := by
  intro x
  refine round_trip x (fun v hv => ⟨-7, ?_⟩) rfl
  obtain rfl : v = .i64 (-7) := by
    simpa [x, Script.calls, Script.callsMembers, Script.callsAll] using hv
  exact ⟨rfl, by decide, by decide⟩

end Writer

end RJsonParser
