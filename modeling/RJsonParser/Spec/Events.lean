import RJsonParser.Tokenizer.State

/-!
# The event stream

What a sequence of callbacks means, apart from any parser.

* `Json.traverse` — the callbacks of a JSON value, read from left to right
* `Protocol` — which callback may come after which, as a machine with a stack
* `exists_traverse_of_accepts` — what that machine accepts is the start of the traversal of a value
* `explode` / `join` — the same events with content and whitespace in pieces of one character, and
  with adjacent pieces joined
* `keysApart` — no object of a stream has a key twice
-/

namespace RJsonParser

variable {F : Type}

/-! ## Values and their traversals -/

/-- A JSON value. A string is the pieces it comes in. -/
inductive Json (F : Type) where
  | null
  | boolean (value : Bool)
  | number (value : Number F)
  | string (pieces : List Text)
  | array (values : List (Json F))
  | object (members : List (Text × Json F))

mutual

/-- The callbacks of a value. -/
def Json.traverse : Json F → List (Event F)
  | .null => [.nullValue]
  | .boolean v => [.booleanValue v]
  | .number v => [.numberValue v]
  | .string pieces => .startStringValue :: pieces.map .stringValueContent ++ [.endStringValue]
  | .array vs => .startArray :: traverseAll vs ++ [.endArray]
  | .object ms => .startObject :: traverseMembers ms ++ [.endObject]

/-- The callbacks of the elements of an array. -/
def Json.traverseAll : List (Json F) → List (Event F)
  | [] => []
  | v :: vs => v.traverse ++ traverseAll vs

/-- The callbacks of the members of an object. -/
def Json.traverseMembers : List (Text × Json F) → List (Event F)
  | [] => []
  | (k, v) :: ms => .key k :: v.traverse ++ traverseMembers ms

end

namespace Json

theorem traverseAll_append (vs ws : List (Json F)) :
    traverseAll (vs ++ ws) = traverseAll vs ++ traverseAll ws := by
  induction vs with
  | nil => simp [traverseAll]
  | cons v vs ih => simp [traverseAll, ih]

theorem traverseMembers_append (ms ns : List (Text × Json F)) :
    traverseMembers (ms ++ ns) = traverseMembers ms ++ traverseMembers ns := by
  induction ms with
  | nil => simp [traverseMembers]
  | cons m ms ih => obtain ⟨k, v⟩ := m; simp [traverseMembers, ih]

end Json

/-! ## The protocol of a `ContentHandler` -/

/-- Where an event stream stands in the innermost container. -/
inductive Spot where
  /-- A value comes next: the root, or that of a member. -/
  | value
  /-- In a string value. -/
  | string
  /-- Between the items of a container, or after the root. -/
  | between
deriving DecidableEq, Repr

/-- Where an event stream stands, the innermost container in front. -/
structure Protocol where
  stack : List Context
  spot : Spot
deriving DecidableEq, Repr

namespace Protocol

/-- Before the first event. -/
def start : Protocol := ⟨[], .value⟩

/-- A value may start here. -/
def WantsValue (q : Protocol) : Prop :=
  q.spot = .value ∨ q.spot = .between ∧ q.stack.head? = some .array

instance (q : Protocol) : Decidable q.WantsValue := inferInstanceAs (Decidable (_ ∨ _))

/-- After the next event, if it may come here. Whitespace may come anywhere. -/
def step (q : Protocol) : Event F → Option Protocol
  | .startObject => if q.WantsValue then some ⟨.object :: q.stack, .between⟩ else none
  | .startArray => if q.WantsValue then some ⟨.array :: q.stack, .between⟩ else none
  | .endObject =>
    if q.spot = .between ∧ q.stack.head? = some .object then some ⟨q.stack.tail, .between⟩
    else none
  | .endArray =>
    if q.spot = .between ∧ q.stack.head? = some .array then some ⟨q.stack.tail, .between⟩
    else none
  | .key _ =>
    if q.spot = .between ∧ q.stack.head? = some .object then some ⟨q.stack, .value⟩ else none
  | .startStringValue => if q.WantsValue then some ⟨q.stack, .string⟩ else none
  | .stringValueContent _ => if q.spot = .string then some q else none
  | .endStringValue => if q.spot = .string then some ⟨q.stack, .between⟩ else none
  | .numberValue _ | .booleanValue _ | .nullValue =>
    if q.WantsValue then some ⟨q.stack, .between⟩ else none
  | .whitespace _ => some q

/-- After some events, if they may come here. -/
def run (q : Protocol) : List (Event F) → Option Protocol
  | [] => some q
  | e :: es => (q.step e).bind fun q' => q'.run es

/-- Events run one part after the other. -/
theorem run_append (q : Protocol) (es fs : List (Event F)) :
    q.run (es ++ fs) = (q.run es).bind fun q' => q'.run fs := by
  induction es generalizing q with
  | nil => rfl
  | cons e es ih =>
    simp only [List.cons_append, run]
    cases q.step e with
    | none => rfl
    | some q' => exact ih q'

theorem run_snoc (q : Protocol) (es : List (Event F)) (e : Event F) :
    q.run (es ++ [e]) = (q.run es).bind fun q' => q'.step e := by
  rw [run_append]
  congr 1
  funext q'
  simp [run]

/-- Some events are accepted. -/
def Accepts (es : List (Event F)) : Prop := ∃ q, start.run es = some q

/-- What is accepted is accepted from the start on. -/
theorem Accepts.of_prefix {es fs : List (Event F)} (h : Accepts fs) (hp : es <+: fs) :
    Accepts es := by
  obtain ⟨rest, rfl⟩ := hp
  obtain ⟨q, hq⟩ := h
  rw [run_append] at hq
  cases hes : start.run es with
  | none => rw [hes] at hq; cases hq
  | some q' => exact ⟨q', hes⟩

end Protocol

/-! ## What is accepted is the start of a traversal -/

/-- `es` leads into the containers of `stack` to a place for a value: the root, a further element of
an array, or the value of a member whose key has come. -/
inductive Open : List Context → List (Event F) → Prop where
  | root : Open [] []
  | element {stack es} (h : Open stack es) (vs : List (Json F)) :
      Open (.array :: stack) (es ++ .startArray :: Json.traverseAll vs)
  | member {stack es} (h : Open stack es) (ms : List (Text × Json F)) (k : Text) :
      Open (.object :: stack) (es ++ .startObject :: Json.traverseMembers ms ++ [.key k])

/-- Whatever value is put in its place, the containers can be closed. -/
theorem Open.close {stack : List Context} {es : List (Event F)} (h : Open stack es)
    (v : Json F) : ∃ j : Json F, es ++ v.traverse <+: j.traverse := by
  induction h generalizing v with
  | root => exact ⟨v, List.prefix_rfl⟩
  | element _ vs ih =>
    obtain ⟨j, hj⟩ := ih (.array (vs ++ [v]))
    refine ⟨j, List.IsPrefix.trans ⟨[.endArray], ?_⟩ hj⟩
    simp [Json.traverse, Json.traverseAll_append, Json.traverseAll]
  | member _ ms k ih =>
    obtain ⟨j, hj⟩ := ih (.object (ms ++ [(k, v)]))
    refine ⟨j, List.IsPrefix.trans ⟨[.endObject], ?_⟩ hj⟩
    simp [Json.traverse, Json.traverseMembers_append, Json.traverseMembers]

/-- `es` is what came before the place `q`. -/
def Reached (q : Protocol) (es : List (Event F)) : Prop :=
  match q.spot with
  | .value => Open q.stack es
  | .string => ∃ (es' : List (Event F)) (pieces : List Text), Open q.stack es' ∧
      es = es' ++ .startStringValue :: pieces.map .stringValueContent
  | .between =>
    match q.stack with
    | [] => ∃ v : Json F, es = v.traverse
    | .array :: stack => Open (.array :: stack) es
    | .object :: stack => ∃ es' ms, Open stack es' ∧
        es = es' ++ .startObject :: Json.traverseMembers ms

/-- Where a value is due, the containers are open. -/
theorem Reached.open_of_wantsValue {q : Protocol} {es : List (Event F)} (h : Reached q es)
    (hq : q.WantsValue) : Open q.stack es := by
  rcases q with ⟨stack, spot⟩
  rcases hq with rfl | ⟨rfl, hs⟩
  · exact h
  · obtain ⟨stack, rfl⟩ : ∃ s, stack = .array :: s := by
      cases stack with
      | nil => cases hs
      | cons c s => cases hs; exact ⟨s, rfl⟩
    exact h

/-- After a value, whatever container it is in. -/
theorem Open.reached_value {stack : List Context} {es : List (Event F)} (h : Open stack es)
    (v : Json F) : Reached ⟨stack, .between⟩ (es ++ v.traverse) := by
  cases h with
  | root => exact ⟨v, rfl⟩
  | element h vs =>
    show Open _ _
    have := Open.element h (vs ++ [v])
    simpa [Json.traverseAll_append, Json.traverseAll] using this
  | member h ms k =>
    refine ⟨_, ms ++ [(k, v)], h, ?_⟩
    simp [Json.traverseMembers_append, Json.traverseMembers]

/-- What came before a place can be continued to a whole traversal. -/
theorem Reached.exists_traverse {q : Protocol} {es : List (Event F)} (h : Reached q es) :
    ∃ j : Json F, es <+: j.traverse := by
  rcases q with ⟨stack, spot⟩
  cases spot with
  | value =>
    obtain ⟨j, hj⟩ := Open.close h .null
    exact ⟨j, (List.prefix_append _ _).trans hj⟩
  | string =>
    obtain ⟨es', pieces, ho, rfl⟩ := h
    obtain ⟨j, hj⟩ := ho.close (.string pieces)
    refine ⟨j, List.IsPrefix.trans ⟨[.endStringValue], ?_⟩ hj⟩
    simp [Json.traverse]
  | between =>
    match stack, h with
    | [], h => obtain ⟨v, rfl⟩ := h; exact ⟨v, List.prefix_rfl⟩
    | .array :: _, h =>
      obtain ⟨j, hj⟩ := Open.close h .null
      exact ⟨j, (List.prefix_append _ _).trans hj⟩
    | .object :: _, h =>
      obtain ⟨es', ms, ho, rfl⟩ := h
      obtain ⟨j, hj⟩ := ho.close (.object ms)
      refine ⟨j, List.IsPrefix.trans ⟨[.endObject], ?_⟩ hj⟩
      simp [Json.traverse]

/-- The end of an array that is open. -/
theorem Reached.close_array {stack : List Context} {es : List (Event F)}
    (h : Reached ⟨.array :: stack, .between⟩ es) :
    ∃ es' v, Open stack es' ∧ es ++ [.endArray] = es' ++ Json.traverse (F := F) v := by
  cases (h : Open _ _) with
  | element h vs => exact ⟨_, .array vs, h, by simp [Json.traverse]⟩

/-- The end of an object that is open. -/
theorem Reached.close_object {stack : List Context} {es : List (Event F)}
    (h : Reached ⟨.object :: stack, .between⟩ es) :
    ∃ es' v, Open stack es' ∧ es ++ [.endObject] = es' ++ Json.traverse (F := F) v := by
  obtain ⟨es', ms, ho, rfl⟩ := h
  exact ⟨es', .object ms, ho, by simp [Json.traverse]⟩

theorem Protocol.eq_between {q : Protocol} {c : Context}
    (h : q.spot = .between ∧ q.stack.head? = some c) : q = ⟨c :: q.stack.tail, .between⟩ := by
  rcases q with ⟨stack, spot⟩
  obtain ⟨rfl, hh⟩ := h
  cases stack with
  | nil => cases hh
  | cons c s => cases hh; rfl

/-- **One event**: what was reached goes on to what is reached with it. -/
theorem Reached.step {q q' : Protocol} {es : List (Event F)} {e : Event F} (h : Reached q es)
    (hs : q.step e = some q') (he : ∀ s, e ≠ .whitespace s) : Reached q' (es ++ [e]) := by
  have scalar (v : Json F) (hv : v.traverse = [e])
      (hs : (if q.WantsValue then some ⟨q.stack, .between⟩ else none) = some q') :
      Reached q' (es ++ [e]) := by
    obtain ⟨hw, ⟨⟩⟩ := Option.ite_none_right_eq_some.mp hs
    rw [← hv]
    exact (h.open_of_wantsValue hw).reached_value v
  cases e with
  | whitespace s => exact absurd rfl (he s)
  | numberValue v => exact scalar (.number v) rfl hs
  | booleanValue v => exact scalar (.boolean v) rfl hs
  | nullValue => exact scalar .null rfl hs
  | startObject =>
    obtain ⟨hw, ⟨⟩⟩ := Option.ite_none_right_eq_some.mp hs
    exact ⟨es, [], h.open_of_wantsValue hw, rfl⟩
  | startArray =>
    obtain ⟨hw, ⟨⟩⟩ := Option.ite_none_right_eq_some.mp hs
    exact Open.element (h.open_of_wantsValue hw) []
  | startStringValue =>
    obtain ⟨hw, ⟨⟩⟩ := Option.ite_none_right_eq_some.mp hs
    exact ⟨es, [], h.open_of_wantsValue hw, rfl⟩
  | stringValueContent s =>
    obtain ⟨hw, ⟨⟩⟩ := Option.ite_none_right_eq_some.mp hs
    rcases q with ⟨stack, spot⟩
    subst hw
    obtain ⟨es', pieces, ho, rfl⟩ := h
    exact ⟨es', pieces ++ [s], ho, by simp⟩
  | endStringValue =>
    obtain ⟨hw, ⟨⟩⟩ := Option.ite_none_right_eq_some.mp hs
    rcases q with ⟨stack, spot⟩
    subst hw
    obtain ⟨es', pieces, ho, rfl⟩ := h
    simpa [Json.traverse] using ho.reached_value (.string pieces)
  | key k =>
    obtain ⟨hw, ⟨⟩⟩ := Option.ite_none_right_eq_some.mp hs
    rw [Protocol.eq_between hw] at h ⊢
    obtain ⟨es', ms, ho, rfl⟩ := h
    exact Open.member ho ms k
  | endObject =>
    obtain ⟨hw, ⟨⟩⟩ := Option.ite_none_right_eq_some.mp hs
    rw [Protocol.eq_between hw] at h
    obtain ⟨es', v, ho, heq⟩ := h.close_object
    rw [heq]
    exact ho.reached_value v
  | endArray =>
    obtain ⟨hw, ⟨⟩⟩ := Option.ite_none_right_eq_some.mp hs
    rw [Protocol.eq_between hw] at h
    obtain ⟨es', v, ho, heq⟩ := h.close_array
    rw [heq]
    exact ho.reached_value v

/-- **What the protocol accepts is the start of the traversal of some value.** -/
theorem exists_traverse_of_accepts {es : List (Event F)} (h : Protocol.Accepts es)
    (hws : ∀ s, .whitespace s ∉ es) : ∃ j : Json F, es <+: j.traverse := by
  have key : ∀ (es : List (Event F)) q, Protocol.start.run es = some q →
      (∀ s, .whitespace s ∉ es) → Reached q es := by
    intro es
    -- from the last event, since what was read so far is known at the front
    induction es using List.reverseRecOn with
    | nil => rintro q ⟨⟩ _; exact Open.root
    | append_singleton es e ih =>
      intro q hq hws
      rw [Protocol.run_snoc, Option.bind_eq_some_iff] at hq
      obtain ⟨q', hq', hs⟩ := hq
      refine (ih q' hq' fun s hm => hws s (by simp [hm])).step hs ?_
      rintro s rfl
      exact hws s (by simp)
  obtain ⟨q, hq⟩ := h
  exact (key es q hq hws).exists_traverse

/-! ## Whitespace -/

/-- A run of whitespace. -/
def Event.isWhitespace : Event F → Bool
  | .whitespace _ => true
  | _ => false

/-- Without the whitespace. -/
def dropWhitespace (es : List (Event F)) : List (Event F) := es.filter fun e => !e.isWhitespace

theorem whitespace_notMem_dropWhitespace (es : List (Event F)) (s : Text) :
    .whitespace s ∉ dropWhitespace es := by
  simp [dropWhitespace, Event.isWhitespace]

@[simp] theorem dropWhitespace_append (es fs : List (Event F)) :
    dropWhitespace (es ++ fs) = dropWhitespace es ++ dropWhitespace fs := List.filter_append ..

/-- Whitespace may come anywhere. -/
theorem Protocol.run_dropWhitespace (q : Protocol) (es : List (Event F)) :
    q.run (dropWhitespace es) = q.run es := by
  induction es generalizing q with
  | nil => rfl
  | cons e es ih =>
    unfold dropWhitespace at ih ⊢
    cases e with
    | whitespace s => exact ih q
    | _ =>
      rw [List.filter_cons_of_pos rfl, run, run]
      congr 1
      funext q'
      exact ih q'

/-! ## Pieces -/

/-- The same event with a piece of content or whitespace spelled out by characters. -/
def Event.explode : Event F → List (Event F)
  | .stringValueContent s => s.map fun c => .stringValueContent [c]
  | .whitespace s => s.map fun c => .whitespace [c]
  | e => [e]

/-- Every piece of content or whitespace spelled out by characters. -/
def explode (es : List (Event F)) : List (Event F) := es.flatMap Event.explode

/-- An event that is not an empty piece. -/
def Event.NonEmpty : Event F → Prop
  | .stringValueContent s | .whitespace s => s ≠ []
  | _ => True

/-- An event in front of others, joined with the first if they are pieces of the same kind. -/
def joinCons : Event F → List (Event F) → List (Event F)
  | .stringValueContent s, .stringValueContent s' :: es => .stringValueContent (s ++ s') :: es
  | .whitespace s, .whitespace s' :: es => .whitespace (s ++ s') :: es
  | e, es => e :: es

/-- Adjacent pieces of content joined, and adjacent pieces of whitespace. -/
def join (es : List (Event F)) : List (Event F) := es.foldr joinCons []

@[simp] theorem explode_nil : explode ([] : List (Event F)) = [] := rfl

@[simp] theorem explode_cons (e : Event F) (es : List (Event F)) :
    explode (e :: es) = e.explode ++ explode es := rfl

/-- Pieces are spelled out one by one. -/
theorem explode_append (es fs : List (Event F)) : explode (es ++ fs) = explode es ++ explode fs :=
  List.flatMap_append

/-- The characters of a piece are joined to that piece again. -/
theorem joinCons_content (s : Text) (hs : s ≠ []) (r : List (Event F)) :
    (s.map fun c => .stringValueContent [c]).foldr joinCons r =
      joinCons (.stringValueContent s) r := by
  induction s with
  | nil => exact absurd rfl hs
  | cons c s ih =>
    cases s with
    | nil => rfl
    | cons d s =>
      rw [List.map_cons, List.foldr_cons, ih (by simp)]
      cases r with
      | nil => rfl
      | cons e r => cases e <;> rfl

/-- So it is with whitespace. -/
theorem joinCons_whitespace (s : Text) (hs : s ≠ []) (r : List (Event F)) :
    (s.map fun c => .whitespace [c]).foldr joinCons r = joinCons (.whitespace s) r := by
  induction s with
  | nil => exact absurd rfl hs
  | cons c s ih =>
    cases s with
    | nil => rfl
    | cons d s =>
      rw [List.map_cons, List.foldr_cons, ih (by simp)]
      cases r with
      | nil => rfl
      | cons e r => cases e <;> rfl

/-- **Spelling pieces out does not change what they join to.** -/
theorem join_explode (es : List (Event F)) (h : ∀ e ∈ es, e.NonEmpty) :
    join (explode es) = join es := by
  induction es with
  | nil => rfl
  | cons e es ih =>
    have he := h e List.mem_cons_self
    have ih := ih fun e' he' => h e' (List.mem_cons_of_mem _ he')
    unfold join at ih ⊢
    rw [explode_cons, List.foldr_append, ih, List.foldr_cons]
    cases e with
    | stringValueContent s => exact joinCons_content s he _
    | whitespace s => exact joinCons_whitespace s he _
    | _ => rfl

/-- A content piece may come where its characters may. -/
theorem Protocol.run_explode (q : Protocol) (es : List (Event F)) (h : ∀ e ∈ es, e.NonEmpty) :
    q.run (explode es) = q.run es := by
  have content : ∀ (s : Text) (q : Protocol), s ≠ [] →
      q.run (F := F) (s.map fun c => .stringValueContent [c]) =
        q.step (F := F) (.stringValueContent s) := by
    intro s
    induction s with
    | nil => exact fun _ h => absurd rfl h
    | cons c s ih =>
      intro q _
      by_cases hq : q.spot = .string
      · cases s with
        | nil => simp [run, step, hq]
        | cons d s =>
          have := ih q (by simp)
          simpa [run, step, hq] using this
      · simp [run, step, hq]
  have whitespace : ∀ (s : Text) (q : Protocol),
      q.run (F := F) (s.map fun c => .whitespace [c]) = some q := by
    intro s
    induction s with
    | nil => exact fun _ => rfl
    | cons c s ih => exact fun q => ih q
  induction es generalizing q with
  | nil => rfl
  | cons e es ih =>
    have he := h e List.mem_cons_self
    rw [explode_cons, run_append, run]
    have hstep : q.run e.explode = q.step e := by
      cases e with
      | stringValueContent s => exact content s q he
      | whitespace s => exact whitespace s q
      | _ => simp [Event.explode, run]
    rw [hstep]
    congr 1
    funext q'
    exact ih q' fun e' he' => h e' (List.mem_cons_of_mem _ he')

/-! ## Keys of one object -/

/-- No object has a key twice in a stream of events, where each open object has the keys of its list
already, the innermost in front. -/
def keysApart : List (List Text) → List (Event F) → Bool
  | _, [] => true
  | seen, .startObject :: es => keysApart ([] :: seen) es
  | seen, .endObject :: es => keysApart seen.tail es
  | [], .key _ :: es => keysApart [] es
  | s :: seen, .key k :: es => decide (k ∉ s) && keysApart ((k :: s) :: seen) es
  | seen, _ :: es => keysApart seen es

/-- Keys are apart from the start on. -/
theorem keysApart_of_prefix {es fs : List (Event F)} (h : es <+: fs) :
    ∀ {seen : List (List Text)}, keysApart seen fs = true → keysApart seen es = true := by
  obtain ⟨rest, rfl⟩ := h
  induction es with
  | nil =>
    intro seen _
    cases seen <;> rfl
  | cons e es ih =>
    intro seen ha
    cases e with
    | key k =>
      cases seen with
      | nil => exact ih ha
      | cons s seen =>
        simp only [List.cons_append, keysApart, Bool.and_eq_true] at ha ⊢
        exact ⟨ha.1, ih ha.2⟩
    | _ => cases seen <;> exact ih ha

/-- Pieces make no difference. -/
theorem keysApart_explode (es : List (Event F)) : ∀ seen : List (List Text),
    keysApart seen (explode es) = keysApart seen es := by
  have skip (f : Char → Event F) (hf : ∀ c seen es, keysApart seen (f c :: es) = keysApart seen es)
      (s : Text) (seen : List (List Text)) (es : List (Event F)) :
      keysApart seen (s.map f ++ es) = keysApart seen es := by
    induction s with
    | nil => rfl
    | cons c s ih => rw [List.map_cons, List.cons_append, hf, ih]
  induction es with
  | nil => exact fun _ => rfl
  | cons e es ih =>
    intro seen
    rw [explode_cons]
    cases e with
    | stringValueContent s =>
      rw [Event.explode, skip _ fun c seen es => by cases seen <;> rfl, ih]
      cases seen <;> rfl
    | whitespace s =>
      rw [Event.explode, skip _ fun c seen es => by cases seen <;> rfl, ih]
      cases seen <;> rfl
    | key k =>
      cases seen with
      | nil => exact ih []
      | cons s seen => exact congrArg (decide (k ∉ s) && ·) (ih _)
    | _ => cases seen <;> exact ih _

end RJsonParser
