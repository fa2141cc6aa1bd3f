import RJsonParser.Properties.Decode
import RJsonParser.Spec.Events
import RJsonParser.Spec.Machine

/-!
# Refinement: what it is

How a state of the tokenizer stands for a state of the reference machine, and what it means that
a program of the tokenizer does what the machine does.

* `World.core` — the machine's state; `Env.rest` — the bytes it has left
* `World.pending` — the content the machine has put out that is still in the character buffer
* `Inv` — what holds in every state, after an error too
* `Ran` — a program took the machine some steps and made the callbacks for them
* `Broke` — a program stopped with an error, and the machine has a reason for it
* `Refines` — the specification made of the two, with its rule for `do` blocks
-/

namespace RJsonParser

open Infra Infra.Utf8

variable {F : Type}

/-! ## Callbacks as marks -/

/-- Content or whitespace, which comes in pieces. -/
def Event.isPiece : Event F → Bool
  | .stringValueContent _ | .whitespace _ => true
  | _ => false

/-- The marks of a callback: one for each character of a piece. -/
def Call.marks (call : Call F) : List (Mark F) :=
  match call.event with
  | .stringValueContent s => s.map fun c => (.stringValueContent [c], none)
  | .whitespace s => s.map fun c => (.whitespace [c], none)
  | e => [(e, some call.locator)]

def marks (calls : List (Call F)) : List (Mark F) := calls.flatMap Call.marks

/-- Content that was decoded. -/
def contentMarks (s : Text) : List (Mark F) := s.map fun c => (.stringValueContent [c], none)

/-- The marks that are no pieces. -/
def tokens (ms : List (Mark F)) : List (Mark F) := ms.filter fun m => !m.1.isPiece

@[simp] theorem marks_nil : marks ([] : List (Call F)) = [] := rfl

@[simp] theorem marks_append (cs ds : List (Call F)) : marks (cs ++ ds) = marks cs ++ marks ds :=
  List.flatMap_append

@[simp] theorem marks_cons (c : Call F) (cs : List (Call F)) :
    marks (c :: cs) = c.marks ++ marks cs :=
  rfl

@[simp] theorem contentMarks_nil : contentMarks (F := F) [] = [] := rfl

@[simp] theorem contentMarks_append (s t : Text) :
    contentMarks (F := F) (s ++ t) = contentMarks s ++ contentMarks t := List.map_append

/-- Content is marked by its characters, however it is split. -/
theorem marks_contentCalls (l : SharedLocator) (pieces : List Text) :
    marks (contentCalls (F := F) l pieces) = contentMarks pieces.flatten := by
  induction pieces with
  | nil => rfl
  | cons s ps ih =>
    simp only [contentCalls, List.map_cons, marks_cons, List.flatten_cons, contentMarks_append]
    congr 1

@[simp] theorem tokens_append (ms ns : List (Mark F)) :
    tokens (ms ++ ns) = tokens ms ++ tokens ns :=
  List.filter_append ..

@[simp] theorem tokens_nil : tokens ([] : List (Mark F)) = [] := rfl

@[simp] theorem tokens_contentMarks (s : Text) : tokens (contentMarks (F := F) s) = [] := by
  simp [tokens, contentMarks, Event.isPiece]

/-- A key is at most `km` bytes. -/
def Event.Short (km : Nat) (e : Event F) : Prop :=
  match e with
  | .key s => byteLen s ≤ km
  | _ => True

/-- A piece is not empty, content is at most `n` bytes and a key at most `km`. -/
def Call.Piece (n km : Nat) (call : Call F) : Prop :=
  match call.event with
  | .stringValueContent s => s ≠ [] ∧ byteLen s ≤ n
  | .whitespace s => s ≠ []
  | e => e.Short km

/-! ## States -/

/-- `NestToken` of a context. -/
def Context.nest : Context → NestToken
  | .array => .startArray
  | .object => .startObject

/-- The bytes that are not consumed. -/
def Env.rest (env : Env F) (w : World F) : List UInt8 := env.input.bytes.drop w.consumed

namespace World

/-- The state of the machine. -/
def core (w : World F) : Core where
  bomChecked := true
  context := w.tok.contextStack
  state := w.tok.state
  afterComma := w.tok.afterComma
  seenAny := w.tok.seenAnyToken
  tokenCount := w.tok.tokenCount
  rejectDuplicateKeys := w.tok.rejectDuplicateKeys
  needsWhitespace := w.tok.needsWhitespace
  seen := w.tok.duplicateKeyStack
  inString := w.tok.inString
  stringBytes := w.tok.stringBytes
  number := w.tok.number
  pos := ⟨w.locator.line, w.locator.column, w.tok.afterCr⟩

/-- Content that the buffer holds. A buffer of another size is thrown away before it is used. -/
def pending (w : World F) : Text :=
  if w.tok.inString ∧ w.tok.charsCap = w.tok.chunkSize then w.tok.chars else []

/-- The content that was decoded was delivered. -/
def Flushed (w : World F) : Prop := w.tok.inString = true → w.tok.chars = []

/-- Nothing is pending where the buffer was flushed. -/
theorem Flushed.pending {w : World F} (h : w.Flushed) : w.pending = [] := by
  unfold World.pending
  split
  · next hc => exact h hc.1
  · rfl

/-- Nor is anything outside strings. -/
theorem Flushed.of_outside {w : World F} (h : w.tok.inString = false) : w.Flushed := by
  intro hs
  rw [h] at hs
  cases hs

/-- What holds in every state, also where a method returned an error. -/
structure Inv (input : Spans) (w : World F) : Prop where
  consumed_le : w.consumed ≤ input.len
  chars_le : byteLen w.tok.chars ≤ w.tok.charsCap
  depth_eq : w.tok.depthStack = w.tok.contextStack.map Context.nest
  no_number : w.tok.inString = true → w.tok.number.stage = .none

end World

/-! ## What a program does -/

variable [Double F] {km : Nat}

/-- The machine with the limits of `env`. -/
abbrev Env.reference (env : Env F) : Infra.Machine UInt8 Core (Mark F) := machine F env.limits

/-- From `w` to `w'` the machine took steps, and what it put out was called back or is pending. -/
structure Ran (km : Nat) (env : Env F) (w w' : World F) (new : List (Call F)) (os : List (Mark F)) :
    Prop where
  chunkSize : w'.tok.chunkSize = w.tok.chunkSize
  calls : w'.calls = w.calls ++ new
  piece : ∀ call ∈ new, call.Piece w.tok.chunkSize km
  marks_eq : marks new ++ contentMarks w'.pending = contentMarks w.pending ++ os
  steps : env.reference.Steps w.core (env.rest w) os w'.core (env.rest w')

/-- The machine stands at a key. -/
structure AtKey (limits : ParserLimits) (c : Core) (l : List UInt8) (key : Text) : Prop where
  outside : c.bomChecked = true ∧ c.inString = false ∧ c.number.stage = .none
  state : c.state = .expectKey
  key : ∃ t n, l = quote :: t ∧ keyFront limits.maxNameLength 0 t = .found n ∧
    decodeString (t.take n) = some key

/-- The machine puts `os` out and comes to a key of more than `n` bytes. -/
def LongKey (limits : ParserLimits) (n : Nat) (c : Core) (l : List UInt8) (os : List (Mark F)) :
    Prop :=
  ∃ c' l' key, (machine F limits).Steps c l os c' l' ∧ AtKey limits c' l' key ∧ n < byteLen key

/-- Why a program stopped: the handler returned an error from the last callback, or the machine
fails with the same tokens put out, or a key is longer than the character buffer. -/
inductive Reason (h : Handler F) (limits : ParserLimits) (chunkSize : Nat) (c : Core)
    (l : List UInt8) (calls : List (Call F)) (err : ParseError) (new : List (Call F))
    (os : List (Mark F)) : Prop where
  | refused (ne : new ≠ []) (reply : h.reply calls = some err)
  | failed (fails : (machine F limits).Fails c l os) (tokens_eq : tokens (marks new) = tokens os)
  | longKey (long : LongKey limits chunkSize c l os) (tokens_eq : tokens (marks new) = tokens os)

/-- A program stopped with an error. What was called back is the start of what the machine can put
out. -/
structure Broke (km : Nat) (env : Env F) (w : World F) (e : Stop) (w' : World F) : Prop where
  chunkSize : w'.tok.chunkSize = w.tok.chunkSize
  broke : ∃ err new os, e = .error err ∧ w'.calls = w.calls ++ new ∧
    (∀ call ∈ new, call.Piece w.tok.chunkSize km) ∧
    env.reference.Emits w.core (env.rest w) os ∧
    marks new <+: contentMarks w.pending ++ os ∧
    Reason env.handler env.limits w.tok.chunkSize w.core (env.rest w) w'.calls err new os

theorem Ran.refl (km : Nat) (env : Env F) (w : World F) : Ran km env w w [] [] where
  chunkSize := rfl
  calls := by simp
  piece := by simp
  marks_eq := by simp
  steps := .refl

/-- **Programs one after the other.** -/
theorem Ran.trans {env : Env F} {w w₁ w₂ : World F} {n₁ n₂ : List (Call F)}
    {os₁ os₂ : List (Mark F)} (h₁ : Ran km env w w₁ n₁ os₁) (h₂ : Ran km env w₁ w₂ n₂ os₂) :
    Ran km env w w₂ (n₁ ++ n₂) (os₁ ++ os₂) where
  chunkSize := h₂.chunkSize.trans h₁.chunkSize
  calls := by rw [h₂.calls, h₁.calls, List.append_assoc]
  piece := by
    intro call hc
    rcases List.mem_append.mp hc with hc | hc
    · exact h₁.piece call hc
    · rw [← h₁.chunkSize]; exact h₂.piece call hc
  marks_eq := by
    rw [marks_append, List.append_assoc, h₂.marks_eq, ← List.append_assoc, h₁.marks_eq,
      List.append_assoc]
  steps := h₁.steps.trans h₂.steps

/-- What was called back has the tokens that were put out. -/
theorem Ran.tokens_eq {env : Env F} {w w' : World F} {new : List (Call F)} {os : List (Mark F)}
    (h : Ran km env w w' new os) : tokens (marks new) = tokens os := by
  have := congrArg tokens h.marks_eq
  simpa only [tokens_append, tokens_contentMarks, List.append_nil, List.nil_append] using this

/-- A key that is too long is so from further back. -/
theorem LongKey.prepend {limits : ParserLimits} {n : Nat} {c c' : Core} {l l' : List UInt8}
    {os os' : List (Mark F)} (h : (machine F limits).Steps c l os c' l')
    (h' : LongKey limits n c' l' os') : LongKey limits n c l (os ++ os') := by
  obtain ⟨c'', l'', key, hs, hk, hn⟩ := h'
  exact ⟨c'', l'', key, h.trans hs, hk, hn⟩

/-- The reason holds from where the machine came, if it put nothing out on the way. -/
theorem Reason.prepend {h : Handler F} {limits : ParserLimits} {n : Nat} {c c' : Core}
    {l l' : List UInt8} {calls new : List (Call F)} {err : ParseError} {os : List (Mark F)}
    (hs : (machine F limits).Steps c l [] c' l')
    (hr : Reason h limits n c' l' calls err new os) : Reason h limits n c l calls err new os := by
  cases hr with
  | refused ne reply => exact .refused ne reply
  | failed fails tokens_eq => exact .failed (hs.trans_fails fails) tokens_eq
  | longKey long tokens_eq => exact .longKey (long.prepend hs) tokens_eq

/-- A program that breaks off after another. -/
theorem Broke.prepend {env : Env F} {w w₁ w' : World F} {e : Stop} {n₁ : List (Call F)}
    {os₁ : List (Mark F)} (h₁ : Ran km env w w₁ n₁ os₁) (h : Broke km env w₁ e w') :
    Broke km env w e w' := by
  obtain ⟨hk, err, new, os, he, hc, hp, hem, hm, hr⟩ := h
  refine ⟨hk.trans h₁.chunkSize, err, n₁ ++ new, os₁ ++ os,
    he, by rw [hc, h₁.calls, List.append_assoc], ?_, h₁.steps.trans_emits hem, ?_, ?_⟩
  · intro call hcall
    rcases List.mem_append.mp hcall with hcall | hcall
    · exact h₁.piece call hcall
    · rw [← h₁.chunkSize]; exact hp call hcall
  · rw [marks_append, ← List.append_assoc, ← h₁.marks_eq, List.append_assoc]
    exact (List.prefix_append_right_inj _).mpr hm
  · cases hr with
    | refused hne hreply => exact .refused (by simp [hne]) hreply
    | failed hf ht =>
      refine .failed (h₁.steps.trans_fails hf) ?_
      rw [marks_append, tokens_append, tokens_append, h₁.tokens_eq, ht]
    | longKey hl ht =>
      rw [h₁.chunkSize] at hl
      refine .longKey (hl.prepend h₁.steps) ?_
      rw [marks_append, tokens_append, tokens_append, h₁.tokens_eq, ht]

/-- Why bytes are left: there are none, or the machine needs more, or a string value ends in the
start of a character. The last may be of no character at all, which only shows when more arrives. -/
inductive Leftover (F : Type) [Double F] (limits : ParserLimits) (c : Core) (l : List UInt8) :
    Prop where
  | nothing (h : l = [])
  | need (h : c.next (F := F) limits l = .need)
  | cutOff (hs : c.inString = true) (h : CutOff l)

/-- A program keeps the invariant, and does what the machine does. -/
def Refines {α : Type} (km : Nat) (env : Env F) (w : World F) (m : TokM F α)
    (Q : α → World F → Prop) : Prop :=
  Ensures m w (fun a w' => w'.Inv env.input ∧ (∃ new os, Ran km env w w' new os) ∧ Q a w')
    (fun e w' => w'.Inv env.input ∧ Broke km env w e w')

/-- What a program comes to may be weakened. -/
theorem Refines.mono {α : Type} {env : Env F} {w : World F} {m : TokM F α}
    {Q Q' : α → World F → Prop} (h : Refines km env w m Q) (hQ : ∀ a w', Q a w' → Q' a w') :
    Refines km env w m Q' :=
  Ensures.mono h (fun _ _ ⟨hi, hr, hq⟩ => ⟨hi, hr, hQ _ _ hq⟩) fun _ _ h => h

/-- **The rule for `do` blocks.** -/
theorem Refines.bind {α β : Type} {env : Env F} {w : World F} {m : TokM F α} {f : α → TokM F β}
    {Q : α → World F → Prop} {R : β → World F → Prop} (h : Refines km env w m Q)
    (hf : ∀ a w', w'.Inv env.input → Q a w' → Refines km env w' (f a) R) :
    Refines km env w (m >>= f) R := by
  unfold Refines
  rw [ensures_bind]
  refine Ensures.mono h ?_ ?_
  · rintro a w₁ ⟨hi, ⟨n₁, os₁, hr₁⟩, hq⟩
    refine Ensures.mono (hf a w₁ hi hq) ?_ ?_
    · rintro b w₂ ⟨hi₂, ⟨n₂, os₂, hr₂⟩, hq₂⟩
      exact ⟨hi₂, ⟨_, _, hr₁.trans hr₂⟩, hq₂⟩
    · rintro e w₂ ⟨hi₂, hb⟩
      exact ⟨hi₂, hb.prepend hr₁⟩
  · exact fun _ _ h => h

theorem Refines.pure {α : Type} {env : Env F} {w : World F} {a : α} {Q : α → World F → Prop}
    (hi : w.Inv env.input) (hq : Q a w) : Refines km env w (pure a) Q :=
  ⟨hi, ⟨[], [], .refl km env w⟩, hq⟩

/-- A program whose machine fails before anything is put out. -/
theorem Broke.of_fail {env : Env F} {w w' : World F} {m : String}
    (hk : w'.tok.chunkSize = w.tok.chunkSize) (hc : w'.calls = w.calls)
    (h : w.core.next (F := F) env.limits (env.rest w) = .fail []) :
    Broke km env w (.err m) w' :=
  ⟨hk, _, [], [], rfl, by simp [hc], by simp, .nil, List.nil_prefix, .failed (.of_next h) rfl⟩

/-- A throw where the machine fails. -/
theorem Refines.throw_of_fail {α : Type} {env : Env F} {w : World F} {m : String}
    {Q : α → World F → Prop} (hi : w.Inv env.input)
    (h : w.core.next (F := F) env.limits (env.rest w) = .fail []) :
    Refines km env w (throw (.err m)) Q :=
  ⟨hi, .of_fail rfl rfl h⟩

/-- A step of the machine that puts nothing out. -/
theorem Ran.of_step {env : Env F} {w w' : World F} {n : Nat} {new : List (Call F)}
    {os : List (Mark F)} (hs : w.core.next (F := F) env.limits (env.rest w) = .step n w'.core os)
    (hn : w'.consumed = w.consumed + n) (hk : w'.tok.chunkSize = w.tok.chunkSize)
    (hc : w'.calls = w.calls ++ new) (hp : ∀ call ∈ new, call.Piece w.tok.chunkSize km)
    (hm : marks new ++ contentMarks w'.pending = contentMarks w.pending ++ os) :
    Ran km env w w' new os where
  chunkSize := hk
  calls := hc
  piece := hp
  marks_eq := hm
  steps := by
    have h : env.reference.Steps w.core (env.rest w) os w'.core ((env.rest w).drop n) := .one hs
    rwa [Env.rest, List.drop_drop, ← hn] at h

/-! ## Callbacks of tokens -/

omit [Double F] in
/-- A token is marked with its position. -/
theorem marks_token {e : Event F} (he : e.isPiece = false) (l : SharedLocator) :
    marks [⟨e, l⟩] = [(e, some l)] := by
  cases e <;> first | rfl | cases he

omit [Double F] in
theorem piece_token {e : Event F} {km : Nat} (he : e.isPiece = false) (hk : e.Short km)
    (l : SharedLocator) (n : Nat) : ∀ call ∈ ([⟨e, l⟩] : List (Call F)), call.Piece n km := by
  intro call hc
  rw [List.mem_singleton.mp hc]
  cases e <;> first | exact hk | cases he

/-- The handler refused a token that the machine puts out here. -/
theorem Broke.of_refused {env : Env F} {w w' : World F} {e : Event F} {l : SharedLocator}
    {err : ParseError} (he : e.isPiece = false) (hk : e.Short km) (hp : w.pending = [])
    (hout : [(e, some l)] <+: (w.core.next env.limits (env.rest w)).out)
    (hchunk : w'.tok.chunkSize = w.tok.chunkSize) (hc : w'.calls = w.calls ++ [⟨e, l⟩])
    (hr : env.handler.reply w'.calls = some err) :
    Broke km env w (.error err) w' :=
  ⟨hchunk, err, [⟨e, l⟩], [(e, some l)], rfl, hc, piece_token he hk l _,
    Machine.Emits.of_out (M := env.reference) hout,
    by rw [hp, marks_token he]; exact List.prefix_rfl, .refused (by simp) hr⟩

/-- The machine fails with the tokens that were called back. -/
theorem Broke.of_fail_calls {env : Env F} {w w' : World F} {new : List (Call F)} {m : String}
    (hp : w.pending = []) (hchunk : w'.tok.chunkSize = w.tok.chunkSize)
    (hc : w'.calls = w.calls ++ new) (hpiece : ∀ call ∈ new, call.Piece w.tok.chunkSize km)
    (h : w.core.next env.limits (env.rest w) = .fail (marks new)) :
    Broke km env w (.err m) w' :=
  ⟨hchunk, _, new, marks new, rfl, hc, hpiece, (fails_of_next h).emits,
    by rw [hp]; exact List.prefix_rfl, .failed (fails_of_next h) rfl⟩

/-- A token whose callback comes last. -/
theorem callback_refines {env : Env F} {w w₁ : World F} {e : Event F} {n : Nat}
    (he : e.isPiece = false) (hshort : e.Short km) (hi : w₁.Inv env.input) (hp : w.pending = [])
    (hs : w.core.next env.limits (env.rest w) = .step n w₁.core [(e, some w₁.locator)])
    (hn : w₁.consumed = w.consumed + n) (hk : w₁.tok.chunkSize = w.tok.chunkSize)
    (hc : w₁.calls = w.calls) (hp' : w₁.tok.inString = false) {Q : World F → Prop}
    (hq : ∀ w', w'.tok = w₁.tok → w'.consumed = w₁.consumed → Q w') :
    Ensures (callback env.handler e) w₁
      (fun _ w' => w'.Inv env.input ∧ (∃ new os, Ran km env w w' new os) ∧ Q w')
      (fun e w' => w'.Inv env.input ∧ Broke km env w e w') := by
  refine (callback_spec env.handler e w₁).mono ?_ ?_
  · rintro - w' ⟨rfl, -⟩
    refine ⟨⟨hi.consumed_le, hi.chars_le, hi.depth_eq, hi.no_number⟩, ⟨[⟨e, w₁.locator⟩], _,
      .of_step (n := n) hs hn hk (by rw [hc]) (piece_token he hshort _ _) ?_⟩, hq _ rfl rfl⟩
    have hpend : World.pending { w₁ with calls := w₁.calls ++ [⟨e, w₁.locator⟩] } = [] := by
      simp [World.pending, hp']
    rw [hpend, hp, marks_token he]
    rfl
  · rintro s w' ⟨rfl, err, rfl, hr⟩
    refine ⟨⟨hi.consumed_le, hi.chars_le, hi.depth_eq, hi.no_number⟩,
      .of_refused (l := w₁.locator) he hshort hp ?_ hk (by rw [hc]) hr⟩
    rw [hs]
    exact List.prefix_rfl

/-! ## The end of a token -/

omit [Double F] in
/-- `token_done`, as the machine counts. -/
def Tokenizer.counted (limits : ParserLimits) (t : Tokenizer) : Tokenizer :=
  { t with
    seenAnyToken := true
    tokenCount := if limits.maxTokenCount.isSome then t.tokenCount + 1 else t.tokenCount }

omit [Double F] in
/-- **`token_done`** counts a token, or stops at the limit. -/
theorem tokenDone_spec (limits : ParserLimits) (w : World F) :
    Ensures (tokenDone limits) w
      (fun _ w' => w' = { w with tok := w.tok.counted limits } ∧
        exceeds limits.maxTokenCount (w.tok.tokenCount + 1) = false)
      (fun e w' => w' = { w with tok := w.tok.counted limits } ∧ (∃ m, e = .err m) ∧
        exceeds limits.maxTokenCount (w.tok.tokenCount + 1) = true) := by
  unfold tokenDone checkTokenLimit
  simp only [modifyTok, ensures_bind, ensures_modify]
  cases hm : limits.maxTokenCount with
  | none =>
    simp only [ensures_pure, exceeds_none, and_true]
    simp [Tokenizer.counted, hm]
  | some max =>
    simp only [ensures_bind, ensures_modify, ensures_get]
    by_cases hlt : max < w.tok.tokenCount + 1
    · simp only [hlt, if_true, ensures_throw]
      exact ⟨by simp [Tokenizer.counted, hm], ⟨_, rfl⟩, by simpa using hlt⟩
    · simp only [hlt, if_false, ensures_pure]
      exact ⟨by simp [Tokenizer.counted, hm], by simpa using hlt⟩

/-- **The end of a token** of `n` bytes whose callbacks `new` were made. -/
theorem tokenDone_refines {env : Env F} {w w₁ : World F} {n : Nat} {c : Core}
    (new : List (Call F)) {f : Tokenizer → Tokenizer} {Q : World F → Prop}
    (hnext : w.core.next env.limits (env.rest w) = Core.finish env.limits n c (marks new) [])
    (hcount : c.tokenCount = w₁.tok.tokenCount)
    (hcore : World.core { w₁ with tok := f (w₁.tok.counted env.limits) } = c.count env.limits)
    (hp : w.pending = [])
    (hp' : World.pending { w₁ with tok := f (w₁.tok.counted env.limits) } = [])
    (hi : World.Inv env.input { w₁ with tok := w₁.tok.counted env.limits })
    (hi' : World.Inv env.input { w₁ with tok := f (w₁.tok.counted env.limits) })
    (hn : w₁.consumed = w.consumed + n)
    (hk : (f (w₁.tok.counted env.limits)).chunkSize = w.tok.chunkSize)
    (hk₁ : w₁.tok.chunkSize = w.tok.chunkSize)
    (hc : w₁.calls = w.calls ++ new) (hpiece : ∀ call ∈ new, call.Piece w.tok.chunkSize km)
    (hq : Q { w₁ with tok := f (w₁.tok.counted env.limits) }) :
    Ensures (do tokenDone env.limits; modifyTok f) w₁
      (fun _ w' => w'.Inv env.input ∧ (∃ new os, Ran km env w w' new os) ∧ Q w')
      (fun e w' => w'.Inv env.input ∧ Broke km env w e w') := by
  simp only [ensures_bind]
  refine (tokenDone_spec env.limits w₁).mono ?_ ?_
  · rintro - w' ⟨rfl, hlim⟩
    simp only [modifyTok, ensures_modify]
    refine ⟨hi', ⟨new, marks new ++ [], .of_step (n := n) ?_ hn hk hc hpiece ?_⟩, hq⟩
    · rw [hnext, hcore]
      exact Core.finish_of_not_exceeds (by rw [hcount]; exact hlim)
    · rw [hp', hp]
      simp
  · rintro e w' ⟨rfl, ⟨m, rfl⟩, hlim⟩
    refine ⟨hi, .of_fail_calls hp hk₁ hc hpiece ?_⟩
    rw [hnext, Core.finish, if_pos (by rw [hcount]; exact hlim)]

/-! ## Where a token starts -/

/-- Bytes were consumed, and no content is pending. -/
structure Moved (w w' : World F) : Prop where
  consumed : w.consumed < w'.consumed
  flushed : w'.Flushed

/-- Outside strings and numbers the machine reads a token or whitespace. -/
theorem next_outside {limits : ParserLimits} {c : Core} (hb : c.bomChecked = true)
    (hs : c.inString = false) (hn : c.number.stage = .none) (b : UInt8) (l : List UInt8) :
    c.next (F := F) limits (b :: l) = c.outerStep limits b l := by
  rw [Core.next, if_neg (by simp [hb])]
  exact (if_neg (by simp [hs])).trans (if_neg (by simp [hn]))

/-- The token that starts with `b` is next. -/
structure AtToken (env : Env F) (w : World F) (b : UInt8) (l : List UInt8) : Prop where
  rest : env.rest w = b :: l
  outside : w.tok.inString = false
  noNumber : w.tok.number.stage = .none
  afterCr : w.tok.afterCr = false
  noSpace : wsByte w.core.pos b = none

namespace AtToken

variable {env : Env F} {w : World F} {b : UInt8} {l : List UInt8}

/-- What the machine does there is a token. -/
theorem next (h : AtToken env w b l) :
    w.core.next (F := F) env.limits (env.rest w) = w.core.tokenStep env.limits b l := by
  have hc : ¬ w.core.pos.afterCr = true := by
    rw [show w.core.pos.afterCr = false from h.afterCr]; simp
  rw [h.rest, next_outside (F := F) (c := w.core) rfl h.outside h.noNumber, Core.outerStep,
    h.noSpace]
  exact if_neg hc

omit [Double F] in
theorem pending (h : AtToken env w b l) : w.pending = [] := by
  simp [World.pending, h.outside]

omit [Double F] in
theorem length (h : AtToken env w b l) : env.input.len = w.consumed + (l.length + 1) := by
  have := congrArg List.length h.rest
  rw [Env.rest, List.length_drop, List.length_cons] at this
  unfold Spans.len
  omega

end AtToken

omit [Double F] in
/-- Whatever a token comes to, what it puts out early is put out. -/
theorem Core.finish_out {limits : ParserLimits} {n : Nat} {c : Core} {early late : List (Mark F)} :
    early <+: (Core.finish limits n c early late).out := by
  unfold Core.finish
  split
  · exact List.prefix_rfl
  · exact List.prefix_append _ _

end RJsonParser
