import RJsonParser.Properties.Settings

/-!
# Limits are exact

A document that a new parser accepts, under other settings: which limits it keeps to, and whether it
has duplicate keys, decides alone whether it is accepted.

* `Accepted` — a new parser accepts the document whole
* `limits_exact` — the limits on depth, strings, keys, tokens and bytes
* `duplicates_exact` — the rejection of duplicate keys
-/

namespace RJsonParser

open Infra Infra.Utf8

variable {F : Type} [Double F]

/-! ## Documents that are accepted -/

/-- A new parser with some settings accepts the document `l`, presented whole. -/
def Accepted (h : Handler F) (limits : ParserLimits) (rejectDuplicateKeys : Bool) (n : ChunkSize)
    (l : List UInt8) : Prop :=
  ∃ capacity layout layout', l.length ≤ capacity ∧
    (outcome h [.write l layout', .receive, .close]
      ((Session.new capacity layout).configure limits rejectDuplicateKeys n)).1 = .ok ()

section Accepted

variable {h : Handler F} {limits : ParserLimits} {rejectDuplicateKeys : Bool} {n : ChunkSize}
  {l : List UInt8} {t : Tree}

omit [Double F] in
theorem Session.new_inv (capacity : Nat) (layout : Layout) (limits : ParserLimits)
    (rejectDuplicateKeys : Bool) (n : ChunkSize) :
    ((Session.new (F := F) capacity layout).configure limits rejectDuplicateKeys n).parser.Inv n :=
  ⟨by rintro t ⟨⟩, rfl, Interner.new_inv _, le_rfl⟩

/-- What a new parser accepts is a document whose sizes fit and whose keys fit the chunk size. -/
theorem Accepted.document (ha : Accepted h limits rejectDuplicateKeys n l) (hh : h.NeverErrs) :
    (∃ t, Document l t) ∧ ∀ t, Document l t →
      t.measure.Fits limits 0 0 ∧ (rejectDuplicateKeys = true → t.distinct = true) ∧
        exceeds limits.maxDocumentLength l.length = false ∧ ∀ k ∈ t.keys, byteLen k.text ≤ n := by
  obtain ⟨capacity, layout, layout', hcap, hok⟩ := ha
  set s : Session F := (Session.new capacity layout).configure limits rejectDuplicateKeys n with hs
  have hstart : s.AtStart h := (Session.new_atStart h capacity layout).configure _ _ _
  have hi : s.parser.Inv n := Session.new_inv ..
  have hcore : s.parser.core h = Core.start rejectDuplicateKeys (h.needsWhitespace []) :=
    hstart.core
  have hstarts : (s.parser.core h).Starts := hcore ▸ Core.start_starts _ _
  obtain ⟨new, hcalled, hcomes⟩ := hstart.presentation_comes hi hh [(l, layout')] l (by simp) hcap
  rw [show presentation [(l, layout')] = [.write l layout', .receive, .close] from rfl,
    hok] at hcomes
  cases hcomes with
  | accepted ends fits =>
    replace ends : Ends limits (s.parser.core h) l true (marks new) := ends
    refine ⟨ends.document hstarts (by rw [hcore]; rfl), fun t ht => ?_⟩
    obtain ⟨hfits, hdistinct⟩ := (ht.verdict hstarts (by rw [hcore]; rfl)).mp ⟨_, ends⟩
    refine ⟨hfits, by rwa [hcore] at hdistinct, fits, fun k hk => ?_⟩
    obtain ⟨xs, hf⟩ := ht.finds limits hstarts
    have hall := (hf.allowsAll hstarts (by rw [hcore]; rfl)).mpr ⟨hfits, hdistinct⟩
    have hends := ends_of_allowed (F := F) hf.lexes hall hf.between
    rw [← hf.bytes] at hends
    obtain ⟨pre, post, rfl⟩ := List.append_of_mem (hf.mem_keys.mpr ⟨k, hk, rfl, rfl⟩)
    have hmem : Event.key (F := F) k.text ∈ explode (new.map Call.event) := by
      rw [← eventsOf_marks, (ends.unique hends).2, Core.putsAll_append, eventsOf_append]
      exact List.mem_append_right _ List.mem_cons_self
    obtain ⟨e, he, hke⟩ := List.mem_flatMap.mp hmem
    obtain ⟨call, hcall, rfl⟩ := List.mem_map.mp he
    have hkey : call.event = .key k.text := by
      cases hev : call.event <;> rw [hev] at hke <;> simp_all [Event.explode]
    have hpiece := hcalled.piece call hcall
    rw [Call.Piece, hkey] at hpiece
    exact hpiece

end Accepted

/-! ## Limits -/

section Limits

variable {h : Handler F} {s : Session F} {km : Nat}

/-- How many raw bytes of a string value are read with one more lexeme. -/
def stringOffset (n : Nat) : Lexeme → Nat
  | .startString => 0
  | .char raw _ => n + raw.length
  | _ => n

omit [Double F] in
/-- The bytes of a string value are counted from its start. -/
theorem run_stringBytes {limits : ParserLimits} (xs : List Lexeme) : ∀ c : Core,
    (c.run limits xs).stringBytes = xs.foldl stringOffset c.stringBytes := by
  induction xs with
  | nil => exact fun _ => rfl
  | cons x xs ih =>
    intro c
    rw [Core.run_cons, ih, List.foldl_cons]
    cases x with
    | space b => rw [Core.after_space]; rfl
    | digit b => rw [Core.after_digit]; rfl
    | _ => rfl

omit [Double F] in
/-- The characters among lexemes that are allowed are within the limit. -/
theorem Core.AllowsAll.char {limits : ParserLimits} {c : Core} {pre post : List Lexeme}
    {raw : List UInt8} {ch : Char} (h : c.AllowsAll limits (pre ++ .char raw ch :: post))
    (hc : c.stringBytes = 0) :
    exceeds limits.maxStringLength (pre.foldl stringOffset 0 + raw.length) = false := by
  have hallows := (Core.allowsAll_append.mp h).2.1
  rw [← hc, ← run_stringBytes]
  simpa [Core.allows, Core.counted, Core.within, Core.novel, Lexeme.isToken] using hallows

/-- **Limits are exact.** A document is accepted under limits, however it arrives, if it keeps to
all of them. No character of a string value is called back that is beyond the limit on strings,
whatever the input. -/
theorem limits_exact (hs : s.AtStart h) (hh : h.NeverErrs) (limits : ParserLimits) (reject : Bool)
    (n : ChunkSize) :
    (limits.maxNumberLength = none → ∀ l, Accepted h .unlimited reject n l →
      (∃ t, Document l t) ∧ ∀ t, Document l t → ∀ ops : List Op,
        (∀ op ∈ ops, op.Presents) → offered ops = l → Fits h ops (s.configure limits reject n) →
        12 ≤ s.buf.capacity → (∀ k ∈ t.keys, 2 + k.raw.length ≤ s.buf.capacity) →
        ((outcome h (ops ++ [.close]) (s.configure limits reject n)).1 = .ok () ↔
          exceeds limits.maxNestingDepth t.measure.depth = false ∧
          (∀ k ∈ t.measure.strings, exceeds limits.maxStringLength k = false) ∧
          (∀ k ∈ t.measure.names, exceeds limits.maxNameLength k = false) ∧
          exceeds limits.maxTokenCount t.measure.tokens = false ∧
          exceeds limits.maxDocumentLength l.length = false)) ∧
    ∀ ops : List Op, (∀ op ∈ ops, op.Feeds) →
      let c := (s.configure limits reject n).parser.core h
      ∃ new xs rest, (outcome h ops (s.configure limits reject n)).2.parser.calls =
          s.parser.calls ++ new ∧
        stored h ops (s.configure limits reject n) = bytesOf xs ++ rest ∧ c.Lexes limits xs rest ∧
        marks new <+: c.putsAll limits xs ∧
        ∀ pre raw ch post, xs = pre ++ .char raw ch :: post →
          exceeds limits.maxStringLength (pre.foldl stringOffset 0 + raw.length) = false := by
  have hstart := hs.configure limits reject n
  set s' := s.configure limits reject n with hs'
  have hcore : s'.parser.core h = Core.start reject (h.needsWhitespace s.parser.calls) :=
    hstart.core
  have hbegun : (s'.parser.core h).Starts := hcore ▸ Core.start_starts _ _
  constructor
  · intro hnumber l ha
    obtain ⟨hex, hall⟩ := ha.document hh
    refine ⟨hex, fun t ht ops hops hl hfits h12 hkeys => ?_⟩
    obtain ⟨-, hdistinct, -, hchunk⟩ := hall t ht
    obtain ⟨km, hi⟩ := hstart.reachable.inv
    have hring : RingHolds s'.buf.capacity l t :=
      .inr ⟨h12, fun k hk => by rw [Nat.add_comm]; exact hkeys k hk⟩
    obtain ⟨-, -, -, hiff⟩ := hstart.document hi hh ht hops hl hfits hring hchunk
    rw [hiff]
    constructor
    · rintro ⟨⟨htokens, hdepth, hstrings, hnames, -⟩, -, hlength⟩
      rw [Nat.zero_add] at htokens hdepth
      exact ⟨hdepth, hstrings, hnames, htokens, hlength⟩
    · rintro ⟨hdepth, hstrings, hnames, htokens, hlength⟩
      refine ⟨⟨?_, ?_, hstrings, hnames, fun k _ => .inr ?_⟩, hdistinct, hlength⟩
      · rwa [Nat.zero_add]
      · rwa [Nat.zero_add]
      · show exceeds limits.maxNumberLength k = false
        rw [hnumber, exceeds_none]
  · intro ops hops c
    obtain ⟨km, new, hsaid⟩ := hstart.said hops
    obtain ⟨xs, last, rest, hbytes, hlex, hallows, hputs, hlast⟩ :=
      hsaid.produces.lexes hbegun.begun
    refine ⟨new, xs ++ last, rest, hsaid.calls, hbytes, hlex, hputs, ?_⟩
    intro pre raw ch post heq
    have hzero : c.stringBytes = 0 := by show (s'.parser.core h).stringBytes = 0; rw [hcore]; rfl
    rcases hlast with rfl | ⟨x, rfl, htoken, -⟩
    · rw [List.append_nil] at heq
      exact (heq ▸ hallows).char hzero
    · -- the lexeme that is put out last is no character
      rcases List.eq_nil_or_concat post with rfl | ⟨post, y, rfl⟩
      · have hx := congrArg List.getLast? heq
        simp only [List.getLast?_append_cons, List.getLast?_singleton, Option.some.injEq] at hx
        rw [hx] at htoken
        cases htoken
      · rw [List.concat_eq_append, ← List.cons_append, ← List.append_assoc] at heq
        obtain ⟨rfl, -⟩ := List.append_inj' heq rfl
        exact hallows.char hzero

/-- The array `[[""]]`. -/
def nestedTree : Tree :=
  let pad : Ws := ⟨[], by simp⟩
  .array (pad, .array (pad, .string ⟨[], [], rfl⟩, pad) [], pad) []

/-- It is too deep for a limit of one, in two chunks. -/
theorem limits_exact_nested :
    let s : Session Rat := .new 64 (.split 0)
    let limits : ParserLimits := { ParserLimits.unlimited with maxNestingDepth := some 1 }
    let ops : List Op := chunkOps [([0x5B, 0x5B, 0x22], .split 1), ([0x22, 0x5D, 0x5D], .split 2)]
    (outcome .accepting (ops ++ [.close])
        (s.configure limits false defaultStringChunkSize)).1 = .ok () ↔
      exceeds limits.maxNestingDepth nestedTree.measure.depth = false ∧
      (∀ k ∈ nestedTree.measure.strings, exceeds limits.maxStringLength k = false) ∧
      (∀ k ∈ nestedTree.measure.names, exceeds limits.maxNameLength k = false) ∧
      exceeds limits.maxTokenCount nestedTree.measure.tokens = false ∧
      exceeds limits.maxDocumentLength 6 = false := by
  have hstart := Session.new_atStart (F := Rat) .accepting 64 (.split 0)
  have hexact := (limits_exact hstart (fun _ => rfl)
    { ParserLimits.unlimited with maxNestingDepth := some 1 } false defaultStringChunkSize).1 rfl
    [0x5B, 0x5B, 0x22, 0x22, 0x5D, 0x5D] ⟨64, .split 0, .split 0, by decide, by decide +kernel⟩
  refine hexact.2 nestedTree ⟨[], ⟨[], by simp⟩, ⟨[], by simp⟩, .inl rfl, rfl⟩ _
    (presents_chunkOps _) rfl ?_ (by decide) (fun k hk => ?_)
  · exact fits_of_length _ (presents_chunkOps _) (Session.new_inv ..) (by decide)
  · simp [nestedTree, Tree.keys, Tree.keysRest] at hk

end Limits

/-! ## Duplicate keys -/

section Duplicates

variable {h : Handler F} {s : Session F}

/-- **The rejection of duplicate keys is exact.** A document that is accepted without it is rejected
with it, however it arrives, if some object has a key twice. The second one is never called back,
whatever the input. -/
theorem duplicates_exact (hs : s.AtStart h) (hh : h.NeverErrs) (limits : ParserLimits)
    (n : ChunkSize) :
    (∀ l, Accepted h limits false n l → (∃ t, Document l t) ∧ ∀ t, Document l t →
      ∀ ops : List Op, (∀ op ∈ ops, op.Presents) → offered ops = l →
        Fits h ops (s.configure limits true n) → RingHolds s.buf.capacity l t →
        ((∃ e, (outcome h (ops ++ [.close]) (s.configure limits true n)).1 = .error e) ↔
          t.distinct = false)) ∧
    ∀ ops : List Op, (∀ op ∈ ops, op.Feeds) → ∃ new,
      (outcome h ops (s.configure limits true n)).2.parser.calls = s.parser.calls ++ new ∧
        keysApart [] (new.map Call.event) = true := by
  have hstart := hs.configure limits true n
  set s' := s.configure limits true n with hs'
  have hcore : s'.parser.core h = Core.start true (h.needsWhitespace s.parser.calls) := hstart.core
  constructor
  · intro l ha
    obtain ⟨hex, hall⟩ := ha.document hh
    refine ⟨hex, fun t ht ops hops hl hfits hring => ?_⟩
    obtain ⟨hsizes, -, hlength, hchunk⟩ := hall t ht
    obtain ⟨km, hi⟩ := hstart.reachable.inv
    obtain ⟨-, -, -, hiff⟩ := hstart.document hi hh ht hops hl hfits hring hchunk
    have hdistinct : (outcome h (ops ++ [.close]) s').1 = .ok () ↔ t.distinct = true :=
      hiff.trans ⟨fun h => h.2.1 rfl, fun h => ⟨hsizes, fun _ => h, hlength⟩⟩
    rw [← Bool.not_eq_true, ← hdistinct]
    cases (outcome h (ops ++ [.close]) s').1 <;> simp
  · intro ops hops
    obtain ⟨km, new, hsaid⟩ := hstart.said hops
    refine ⟨new, hsaid.calls, ?_⟩
    have hprod := hsaid.produces
    rw [hcore] at hprod
    obtain ⟨xs, last, rest, -, -, hallows, hputs, hlast⟩ :=
      hprod.lexes (Core.start_starts _ _).begun
    have halways : (Core.start true (h.needsWhitespace s.parser.calls)).Always s'.parser.limits
        Core.novel (xs ++ last) := by
      refine always_append.mpr ⟨(allowsAll_iff.mp hallows).2, ?_⟩
      rcases hlast with rfl | ⟨x, rfl, -, hx⟩
      · trivial
      · exact ⟨(Bool.and_eq_true _ _ ▸ hx).2, trivial⟩
    have happart := keysApart_putsAll (F := F) rfl halways
    rw [← keysApart_explode, ← eventsOf_marks]
    exact keysApart_of_prefix (hputs.map Prod.fst) happart

/-- The object `{"a":null,"\u0061":null}`. -/
def twiceTree : Tree :=
  let pad : Ws := ⟨[], by simp⟩
  let value : Ws × Tree × Ws := (pad, .null, pad)
  .object ((pad, ⟨[0x61], ['a'], rfl⟩, pad), value)
    [((pad, ⟨[0x5C, 0x75, 0x30, 0x30, 0x36, 0x31], ['a'], rfl⟩, pad), value)]

theorem duplicates_exact_twice :
    let s : Session Rat := .new 64 (.split 0)
    let ops : List Op := [.write twiceTree.bytes (.split 9), .receive]
    (∃ e, (outcome .accepting (ops ++ [.close])
      (s.configure .unlimited true defaultStringChunkSize)).1 = .error e) ↔
        twiceTree.distinct = false := by
  have hexact := (duplicates_exact (Session.new_atStart (F := Rat) .accepting 64 (.split 0))
    (fun _ => rfl) .unlimited defaultStringChunkSize).1 twiceTree.bytes
    ⟨64, .split 0, .split 0, by decide, by decide +kernel⟩
  refine hexact.2 twiceTree ⟨[], ⟨[], by simp⟩, ⟨[], by simp⟩, .inl rfl, by simp⟩ _
    (presents_chunkOps [(twiceTree.bytes, .split 9)]) ?_ ?_ (.inl (by decide))
  · exact List.append_nil _
  · exact fits_of_length _ (presents_chunkOps [(twiceTree.bytes, .split 9)]) (Session.new_inv ..)
      (by decide)

end Duplicates

end RJsonParser
