import RJsonParser.Properties.RoundTrip

/-!
# The echo of a document

A parser whose callbacks are replayed on a writer.

* `echo` — the calls that some callbacks are replayed by
* `echo_stable` — what is echoed is read as it was, and its own echo is the same text
-/

namespace RJsonParser

open Infra Infra.Utf8 Writer

variable {F : Type}

/-! ## Replaying callbacks -/

/-- The call that a callback is replayed by. Whitespace is not replayed. -/
def Event.replay : Event F → List (WriteCall F)
  | .startObject => [.startObject]
  | .endObject => [.endObject]
  | .startArray => [.startArray]
  | .endArray => [.endArray]
  | .key k => [.key k]
  | .startStringValue => [.startString]
  | .stringValueContent s => [.stringContent s]
  | .endStringValue => [.endString]
  | .numberValue v => [.number v]
  | .booleanValue v => [.boolean v]
  | .nullValue => [.null]
  | .whitespace _ => []

/-- The calls that some callbacks are replayed by. -/
def echo (es : List (Event F)) : List (WriteCall F) := es.flatMap Event.replay

theorem echo_cons (e : Event F) (es : List (Event F)) : echo (e :: es) = e.replay ++ echo es := rfl

theorem echo_append (es fs : List (Event F)) : echo (es ++ fs) = echo es ++ echo fs :=
  List.flatMap_append

/-- A piece of content is replayed as one. -/
theorem echo_contents (contents : List Text) :
    echo (contents.map (Event.stringValueContent (F := F))) = contents.map .stringContent := by
  induction contents with
  | nil => rfl
  | cons s contents ih =>
    rw [List.map_cons, echo_cons, ih]
    rfl

/-- Whitespace is not replayed. -/
theorem echo_dropWhitespace (es : List (Event F)) : echo (dropWhitespace es) = echo es := by
  induction es with
  | nil => rfl
  | cons e es ih =>
    cases e with
    | whitespace s => exact ih
    | _ => exact congrArg (Event.replay _ ++ ·) ih

/-- What is replayed stands for what was called back. -/
theorem reported_echo (es : List (Event F)) : reported (echo es) = dropWhitespace es := by
  induction es with
  | nil => rfl
  | cons e es ih =>
    rw [echo_cons, reported_append, ih]
    cases e <;> rfl

theorem dropWhitespace_dropWhitespace (es : List (Event F)) :
    dropWhitespace (dropWhitespace es) = dropWhitespace es := by
  simp [dropWhitespace]

/-- An event that is no piece is left as it is where pieces are spelled out. -/
theorem mem_explode {e : Event F} (he : e.isPiece = false) {es : List (Event F)} :
    e ∈ explode es ↔ e ∈ es := by
  constructor
  · intro h
    obtain ⟨e', he', hmem⟩ := List.mem_flatMap.mp h
    cases e' <;> simp_all [Event.explode, Event.isPiece]
    all_goals
      obtain ⟨c, -, rfl⟩ := hmem
      cases he
  · intro h
    refine List.mem_flatMap.mpr ⟨e, h, ?_⟩
    cases e <;> first | exact List.mem_singleton_self _ | cases he

theorem mem_dropWhitespace {e : Event F} (he : e.isPiece = false) {es : List (Event F)} :
    e ∈ dropWhitespace es ↔ e ∈ es := by
  rw [dropWhitespace, List.mem_filter]
  cases e with
  | whitespace s => cases he
  | _ => simp [Event.isWhitespace]

/-- What is replayed was called back. -/
theorem number_mem_echo {v : Number F} {es : List (Event F)} (h : .number v ∈ echo es) :
    .numberValue v ∈ es := by
  obtain ⟨e, he, hv⟩ := List.mem_flatMap.mp h
  cases e with
  | numberValue u =>
    obtain ⟨⟩ := List.mem_singleton.mp hv
    exact he
  | _ => simp [Event.replay] at hv

theorem key_mem_echo {k : Text} {es : List (Event F)} (h : .key k ∈ echo es) : .key k ∈ es := by
  obtain ⟨e, he, hv⟩ := List.mem_flatMap.mp h
  cases e with
  | key u =>
    obtain ⟨⟩ := List.mem_singleton.mp hv
    exact he
  | _ => simp [Event.replay] at hv

theorem ranged_echo {es : List (Event F)} (h : ∀ v, .numberValue v ∈ es → v.Ranged) :
    ∀ c ∈ echo es, c.Ranged := by
  intro c hc
  obtain ⟨e, he, hmem⟩ := List.mem_flatMap.mp hc
  cases e with
  | numberValue v =>
    obtain rfl := List.mem_singleton.mp hmem
    exact h v he
  | whitespace s => cases hmem
  | _ =>
    obtain rfl := List.mem_singleton.mp hmem
    trivial

mutual

/-- A value as it is replayed. -/
def Json.script : Json F → Script F
  | .null => .null
  | .boolean v => .boolean v
  | .number v => .number v
  | .string pieces => .pieces pieces
  | .array vs => .array (scriptAll vs)
  | .object ms => .object (scriptMembers ms)

def Json.scriptAll : List (Json F) → List (Script F)
  | [] => []
  | v :: vs => v.script :: scriptAll vs

def Json.scriptMembers : List (Text × Json F) → List (Text × Script F)
  | [] => []
  | (k, v) :: ms => (k, v.script) :: scriptMembers ms

end

mutual

/-- The callbacks of a value are replayed by its calls. -/
theorem Json.echo_traverse : ∀ j : Json F, echo j.traverse = j.script.calls
  | .null | .boolean _ | .number _ => rfl
  | .string pieces => by
    rw [Json.traverse, echo_append, echo_cons, echo_contents]
    rfl
  | .array vs => by
    rw [Json.traverse, echo_append, echo_cons, Json.echo_traverseAll vs]
    rfl
  | .object ms => by
    rw [Json.traverse, echo_append, echo_cons, Json.echo_traverseMembers ms]
    rfl

/-- The items of an array. -/
theorem Json.echo_traverseAll : ∀ vs : List (Json F),
    echo (Json.traverseAll vs) = Script.callsAll (Json.scriptAll vs)
  | [] => rfl
  | v :: vs => by
    rw [Json.traverseAll, echo_append, Json.echo_traverse v, Json.echo_traverseAll vs]
    rfl

/-- The members of an object. -/
theorem Json.echo_traverseMembers : ∀ ms : List (Text × Json F),
    echo (Json.traverseMembers ms) = Script.callsMembers (Json.scriptMembers ms)
  | [] => rfl
  | (k, v) :: ms => by
    rw [Json.traverseMembers, echo_append, echo_cons, Json.echo_traverse v,
      Json.echo_traverseMembers ms]
    rfl

end

/-! ## Pieces make no difference to what is written -/

section Pieces

variable [DoubleText F]

/-- Calls that put the same. -/
def SameText (cs ds : List (WriteCall F)) : Prop := ∀ w, produced cs w = produced ds w

/-- Calls put one part after the other. -/
theorem produced_append (cs ds : List (WriteCall F)) (w : Writer) :
    produced (cs ++ ds) w =
      (produced cs w).bind fun p => (produced ds p.2).map fun q => (p.1 ++ q.1, q.2) := by
  induction cs generalizing w with
  | nil => simp [produced]
  | cons c cs ih =>
    rw [List.cons_append, produced, produced]
    cases c.whole w with
    | none => rfl
    | some p =>
      rw [Option.bind_some, Option.bind_some, ih]
      cases produced cs p.2 with
      | none => rfl
      | some q => simp [Function.comp_def]

theorem SameText.append {cs cs' ds ds' : List (WriteCall F)} (h : SameText cs cs')
    (h' : SameText ds ds') : SameText (cs ++ ds) (cs' ++ ds') := by
  intro w
  rw [produced_append, produced_append, h w]
  congr 1
  funext p
  rw [h' p.2]

/-- Content spelled out by characters is the same text. -/
theorem sameText_explode (e : Event F) : SameText (echo e.explode) e.replay := by
  intro w
  cases e with
  | stringValueContent s =>
    have hmap : echo (F := F) (Event.stringValueContent s).explode =
        (s.map fun c => [c]).map .stringContent := by
      rw [← echo_contents, Event.explode, List.map_map]
      rfl
    have hone : Writes [(.stringContent s : WriteCall F)] w (escaped s) w := Writes.one rfl
    have hall := Writes.contents (F := F) (s.map fun c => [c]) w
    rw [show (s.map fun c => [c]).flatten = s from List.flatMap_singleton' s] at hall
    rw [hmap]
    exact hall.trans hone.symm
  | whitespace s =>
    have hmap : echo (F := F) (Event.whitespace s).explode = [] := by
      induction s with
      | nil => rfl
      | cons c s ih => exact ih
    rw [hmap]
    rfl
  | _ => rfl

/-- **How content is split makes no difference to what is written.** -/
theorem sameText_echo (es : List (Event F)) : SameText (echo es) (echo (explode es)) := by
  induction es with
  | nil => exact fun _ => rfl
  | cons e es ih =>
    rw [echo_cons, explode_cons, echo_append]
    exact SameText.append (fun w => (sameText_explode e w).symm) ih

/-- The same callbacks but for whitespace and the split of content are replayed to the same text. -/
theorem sameText_of_explode {es fs : List (Event F)}
    (h : explode (dropWhitespace es) = explode (dropWhitespace fs)) :
    SameText (echo es) (echo fs) := by
  intro w
  rw [← echo_dropWhitespace es, ← echo_dropWhitespace fs, sameText_echo (dropWhitespace es), h,
    ← sameText_echo]

end Pieces

/-! ## Numbers that were read -/

section Numbers

variable [Double F]

mutual

/-- The numbers of what a tree denotes are those of numbers of the grammar. -/
theorem Tree.number_of_mem {v : Number F} : ∀ t : Tree, .numberValue v ∈ t.denote.traverse →
    ∃ n : NumberText, v = numberOf n.1
  | .null, h => by simp [Tree.denote, Json.traverse] at h
  | .boolean _, h => by simp [Tree.denote, Json.traverse] at h
  | .number n, h => ⟨n, by simpa [Tree.denote, Json.traverse] using h⟩
  | .string _, h => by simp [Tree.denote, Json.traverse] at h
  | .emptyArray _, h => by simp [Tree.denote, Json.traverse, Json.traverseAll] at h
  | .emptyObject _, h => by simp [Tree.denote, Json.traverse, Json.traverseMembers] at h
  | .array (_, t, _) items, h => by
    simp only [Tree.denote, Json.traverse, Json.traverseAll, List.mem_append, List.mem_cons,
      reduceCtorEq, false_or, List.not_mem_nil, or_false] at h
    rcases h with h | h
    · exact Tree.number_of_mem t h
    · exact Tree.number_of_memRest items h
  | .object (_, _, t, _) members, h => by
    simp only [Tree.denote, Json.traverse, Json.traverseMembers, List.mem_append, List.mem_cons,
      reduceCtorEq, false_or, List.not_mem_nil, or_false] at h
    rcases h with h | h
    · exact Tree.number_of_mem t h
    · exact Tree.number_of_memMembers members h

/-- Those in further items. -/
theorem Tree.number_of_memRest {v : Number F} : ∀ items : List (Ws × Tree × Ws),
    .numberValue v ∈ Json.traverseAll (Tree.denoteRest items) → ∃ n : NumberText, v = numberOf n.1
  | [], h => by simp [Tree.denoteRest, Json.traverseAll] at h
  | (_, t, _) :: items, h => by
    simp only [Tree.denoteRest, Json.traverseAll, List.mem_append] at h
    rcases h with h | h
    · exact Tree.number_of_mem t h
    · exact Tree.number_of_memRest items h

/-- Those in further members. -/
theorem Tree.number_of_memMembers {v : Number F} :
    ∀ members : List ((Ws × RawString × Ws) × Ws × Tree × Ws),
      .numberValue v ∈ Json.traverseMembers (Tree.denoteMembers members) →
        ∃ n : NumberText, v = numberOf n.1
  | [], h => by simp [Tree.denoteMembers, Json.traverseMembers] at h
  | (_, _, t, _) :: members, h => by
    simp only [Tree.denoteMembers, Json.traverseMembers, List.mem_append, List.mem_cons,
      reduceCtorEq, false_or] at h
    rcases h with h | h
    · exact Tree.number_of_mem t h
    · exact Tree.number_of_memMembers members h

end

/-- A number with a fraction or an exponent is read as a double. -/
theorem numberOf_real {minus int frac exp : List UInt8} (hm : minus = [] ∨ minus = [0x2D])
    (hi : IsInt int) (hf : IsFrac frac) (he : IsExp exp) (hr : frac ≠ [] ∨ exp ≠ []) :
    ∃ x : F, numberOf (minus ++ int ++ frac ++ exp) = .f64 x := by
  obtain ⟨b, l, n, heq, ht, hread⟩ := NumberState.exists_read hm hi hf he
  have hv : numberOf (F := F) (minus ++ int ++ frac ++ exp) = n.realValue := by
    rw [heq]
    simp only [numberOf, ht, NumberState.value, hread.isReal, decide_eq_true hr, if_true]
  rw [hv, NumberState.realValue]
  split <;> exact ⟨_, rfl⟩

variable [DoubleText F]

/-- The number is written as a number that is read as the same one. -/
def Number.Stable (v : Number F) : Prop := v.Readable ∧ v.reread = v

/-- **A number that was read is stable** if it is no double. -/
theorem stable_numberOf (n : NumberText) :
    (numberOf (F := F) n.1).Ranged ∧
      ((numberOf (F := F) n.1).Stable ∨ ∃ x : F, numberOf n.1 = .f64 x) := by
  obtain ⟨l, minus, int, frac, exp, rfl, hm, hi, hf, he⟩ := n
  by_cases hr : frac ≠ [] ∨ exp ≠ []
  · obtain ⟨x, hx⟩ := numberOf_real (F := F) hm hi hf he hr
    exact ⟨by rw [hx]; trivial, .inr ⟨x, hx⟩⟩
  · obtain ⟨rfl, rfl⟩ := not_or.mp hr |>.imp not_not.mp not_not.mp
    simp only [List.append_nil]
    have hint := numberOf_isInteger (F := F) hm hi
    exact ⟨hint.ranged, .inl ⟨hint.readable, reread_numberOf hm hi⟩⟩

end Numbers

/-! ## The echo -/

section Echo

variable [Double F] {h : Handler F} {s : Session F} {n : ChunkSize}
  {chunks : List (List UInt8 × Layout)} {new : List (Call F)}

/-- A document comes in chunks into a ring that holds it and is accepted, and `new` is called
back. -/
structure Delivers (h : Handler F) (s : Session F) (n : ChunkSize)
    (chunks : List (List UInt8 × Layout)) (new : List (Call F)) : Prop where
  start : s.AtStart h
  neverErrs : h.NeverErrs
  fits : (chunks.map Prod.fst).flatten.length ≤ s.buf.capacity
  ok : (outcome h (presentation chunks) (s.configure .unlimited false n)).1 = .ok ()
  calls : (outcome h (presentation chunks) (s.configure .unlimited false n)).2.parser.calls =
    s.parser.calls ++ new

/-- What was called back is the traversal of what the document denotes. -/
theorem Delivers.denotes (hd : Delivers h s n chunks new) :
    ∃ t : Tree, explode (dropWhitespace (new.map Call.event)) = explode t.denote.traverse ∧
      join (dropWhitespace (new.map Call.event)) = t.denote.traverse := by
  have hs' := hd.start.configure .unlimited false n
  obtain ⟨km, hi⟩ := hs'.reachable.inv
  obtain ⟨new', hcalled, hcomes⟩ := hs'.presentation_comes hi hd.neverErrs chunks _ rfl hd.fits
  obtain rfl : new' = new := List.append_cancel_left (hcalled.calls.symm.trans hd.calls)
  rw [hd.ok] at hcomes
  have hcore : ((s.configure .unlimited false n).parser.core h).Fresh := by
    rw [hs'.core]
    exact Core.start_fresh _
  cases hcomes with
  | accepted ends fits =>
    obtain ⟨t, ht⟩ := (accepts_iff_document hcore).mp ⟨_, _, ends, rfl⟩
    obtain ⟨os, hends, hev⟩ := ht.yields (F := F) hcore
    rw [← (Ends.unique ends hends).2] at hev
    refine ⟨t, ?_, hcalled.joined t hev⟩
    rwa [eventsOf_marks, dropWhitespace_explode] at hev

variable [DoubleText F]

/-- **The echo of a document is stable.** Replayed on a writer, with indentation or without, the
callbacks of a document that is accepted are written without an error unless the text of a double
does not denote that double. What is written is accepted in whatever chunks it comes, the same is
called back but for whitespace and the split of content, and the echo of that is the same text. -/
theorem echo_stable (hd : Delivers h s n chunks new)
    (hreal : ∀ x, .numberValue (.f64 x) ∈ new.map Call.event → (Number.f64 x).Stable)
    {w : Writer} (hw : w.state = .init0) :
    ∃ bytes, PutsAll w (echo (new.map Call.event)) bytes ∧
      ∀ (h' : Handler F) (s' : Session F) (n' : ChunkSize) (chunks' : List (List UInt8 × Layout)),
        s'.AtStart h' → h'.NeverErrs → (∀ k, .key k ∈ new.map Call.event → byteLen k ≤ n') →
        (chunks'.map Prod.fst).flatten = bytes → bytes.length ≤ s'.buf.capacity →
        ∃ new', Delivers h' s' n' chunks' new' ∧
          join (dropWhitespace (new'.map Call.event)) =
            join (dropWhitespace (new.map Call.event)) ∧
          PutsAll w (echo (new'.map Call.event)) bytes := by
  obtain ⟨t, hev, hjoin⟩ := hd.denotes
  have mem {e : Event F} (he : e.isPiece = false) :
      e ∈ t.denote.traverse ↔ e ∈ new.map Call.event := by
    rw [← mem_explode he, ← hev, mem_explode he, mem_dropWhitespace he]
  have stable {v : Number F} (hv : .numberValue v ∈ t.denote.traverse) : v.Ranged ∧ v.Stable := by
    obtain ⟨m, rfl⟩ := t.number_of_mem hv
    obtain ⟨hr, hs | ⟨x, hx⟩⟩ := stable_numberOf (F := F) m
    · exact ⟨hr, hs⟩
    · rw [hx] at hv ⊢
      exact ⟨trivial, hreal x ((mem rfl).mp hv)⟩
  have hcalls : t.denote.script.calls = echo (t.denote.traverse (F := F)) :=
    t.denote.echo_traverse.symm
  have hspelled : explode (dropWhitespace (t.denote.traverse (F := F))) =
      explode t.denote.traverse := by
    rw [← dropWhitespace_explode, ← hev, dropWhitespace_explode, dropWhitespace_dropWhitespace]
  obtain ⟨bytes, hputs, hreads⟩ := t.denote.script.writes_readsBack
    (fun v hv => (stable (number_mem_echo (hcalls ▸ hv))).2.1) hw
  have puts {new : List (Call F)} (hev : explode (dropWhitespace (new.map Call.event)) =
      explode t.denote.traverse) : PutsAll w (echo (new.map Call.event)) bytes := by
    have hsame : SameText (echo (new.map Call.event)) t.denote.script.calls :=
      hcalls ▸ sameText_of_explode (hev.trans hspelled.symm)
    refine Writes.putsAll ((hsame w).trans hputs) (ranged_echo fun v hv => ?_)
    refine (stable ?_).1
    rwa [← mem_explode rfl, ← hev, mem_explode rfl, mem_dropWhitespace rfl]
  refine ⟨bytes, puts hev, fun h' s' n' chunks' hs' hh' hk hl hcap => ?_⟩
  obtain ⟨hok, new', hnew, hjoin'⟩ := hreads h' s' n' chunks' hs' hh'
    (fun k hmem => hk k ((mem rfl).mp (key_mem_echo (hcalls ▸ hmem)))) hl hcap
  have hd' : Delivers h' s' n' chunks' new' := ⟨hs', hh', by rw [hl]; exact hcap, hok, hnew⟩
  obtain ⟨t', hev', hjoin''⟩ := hd'.denotes
  have hreread : (dropWhitespace (t.denote.traverse (F := F))).map Event.reread =
      dropWhitespace t.denote.traverse := by
    refine (List.map_congr_left fun e he => ?_).trans (List.map_id _)
    cases e with
    | numberValue v => exact congrArg _ (stable ((mem_dropWhitespace rfl).mp he)).2.2
    | _ => rfl
  have hsame : t'.denote.traverse = t.denote.traverse (F := F) := by
    rw [← hjoin'', hjoin', hcalls, readBack, reported_echo, hreread, hspelled, t.join_explode]
  exact ⟨new', hd', by rw [hjoin'', hjoin, hsame], puts (by rw [hev', hsame])⟩

theorem stable_half : (Number.f64 Half.half).Stable := by
  refine ⟨⟨[0x30, 0x2E, 0x35], rfl, ?_⟩, by decide +kernel⟩
  exact ⟨[], [0x30], [0x2E, 0x35], [], rfl, .inl rfl, .inl rfl,
    .inr ⟨[0x35], rfl, by simp, fun b hb => by rw [List.mem_singleton.mp hb]; rfl⟩, .inl rfl⟩

/-- `[0.5, 1]` in two chunks. -/
theorem echo_stable_array :
    let s : Session Half := .new 64 (.split 0)
    let chunks : List (List UInt8 × Layout) :=
      [([0x5B, 0x30, 0x2E], .split 1), ([0x35, 0x2C, 0x20, 0x31, 0x5D], .split 0)]
    let new := (outcome .accepting (presentation chunks)
      (s.configure .unlimited false defaultStringChunkSize)).2.parser.calls
    ∃ bytes, PutsAll .new (echo (new.map Call.event)) bytes ∧
      ∀ (h' : Handler Half) (s' : Session Half) (n' : ChunkSize)
        (chunks' : List (List UInt8 × Layout)),
        s'.AtStart h' → h'.NeverErrs → (∀ k, .key k ∈ new.map Call.event → byteLen k ≤ n') →
        (chunks'.map Prod.fst).flatten = bytes → bytes.length ≤ s'.buf.capacity →
        ∃ new', Delivers h' s' n' chunks' new' ∧
          join (dropWhitespace (new'.map Call.event)) =
            join (dropWhitespace (new.map Call.event)) ∧
          PutsAll .new (echo (new'.map Call.event)) bytes := by
  intro s chunks new
  have hd : Delivers .accepting s defaultStringChunkSize chunks new :=
    ⟨Session.new_atStart _ _ _, fun _ => rfl, by decide, by decide +kernel,
      (List.nil_append new).symm⟩
  exact echo_stable hd (fun x _ => by cases x; exact stable_half) rfl

end Echo

end RJsonParser
