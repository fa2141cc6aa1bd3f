import RJsonParser.Properties.Runs

/-!
# What is left in the ring

* `Core.next_need` — where the machine needs more, case by case
* `Left` — what a call of `receive` may leave, and how much
* `receive_leaves` — no call leaves anything else, in no session
-/

namespace RJsonParser

open Infra Infra.Utf8

variable {F : Type}

/-! ## Where more is needed -/

/-- The byte order marks that are told apart. -/
def byteOrderMarks : List (List UInt8) :=
  [[0xEF, 0xBB, 0xBF], [0xFE, 0xFF], [0xFF, 0xFE], [0xFF, 0xFE, 0x00, 0x00],
    [0x00, 0x00, 0xFE, 0xFF]]

/-- The first two bytes, or the only one, are those of a byte order mark that is longer. -/
def MayBeBom (l : List UInt8) : Prop :=
  ∃ mark ∈ byteOrderMarks, l.take 2 <+: mark ∧ l.length < mark.length

/-- At most three bytes are left of a mark. -/
theorem MayBeBom.length_le {l : List UInt8} (h : MayBeBom l) : l.length ≤ 3 := by
  obtain ⟨mark, mem, -, hlt⟩ := h
  have key : ∀ mark ∈ byteOrderMarks, mark.length ≤ 4 := by decide
  have := key mark mem
  omega

/-- More is needed only of the start of a mark. -/
theorem bomFront_need {l : List UInt8} (h : bomFront l = .need) : MayBeBom l := by
  cases l with
  | nil => exact ⟨_, List.mem_cons_self, List.nil_prefix, by simp⟩
  | cons b1 l =>
    simp only [bomFront] at h
    split_ifs at h with h1 h2 h3 h4
    · subst h1
      rcases l with - | ⟨b2, - | ⟨b3, l⟩⟩
      · exact ⟨[0xEF, 0xBB, 0xBF], by decide⟩
      · simp only [bomUtf8] at h
        split_ifs at h with hb
        subst hb
        exact ⟨[0xEF, 0xBB, 0xBF], by decide⟩
      · simp only [bomUtf8] at h
        split_ifs at h
    · subst h2
      rcases l with - | ⟨b2, l⟩
      · exact ⟨[0xFE, 0xFF], by decide⟩
      · simp only [bomUtf16Be] at h
        split_ifs at h
    · subst h3
      rcases l with - | ⟨b2, l⟩
      · exact ⟨[0xFF, 0xFE], by decide⟩
      · simp only [bomLe] at h
        split_ifs at h with hb hl
        subst hb
        exact ⟨[0xFF, 0xFE, 0x00, 0x00], by decide, by simp, by simp; omega⟩
    · subst h4
      rcases l with - | ⟨b2, l⟩
      · exact ⟨[0x00, 0x00, 0xFE, 0xFF], by decide⟩
      · simp only [bomUtf32Be] at h
        split_ifs at h with hb
        subst hb
        rcases l with - | ⟨b3, - | ⟨b4, l⟩⟩
        · exact ⟨[0x00, 0x00, 0xFE, 0xFF], by decide⟩
        · exact ⟨[0x00, 0x00, 0xFE, 0xFF], by decide, by simp, by simp⟩
        · simp only at h
          split_ifs at h

theorem hexDigits_need : ∀ {n : Nat} {ds : List UInt8} {v : Nat},
    hexDigits n ds v = .ok none → ds.length < n
  | 0, _, _, h => by simp [hexDigits] at h
  | n + 1, [], _, _ => by simp
  | n + 1, d :: ds, v, h => by
    rw [hexDigits] at h
    cases hd : unhex d with
    | error e => rw [hd] at h; cases h
    | ok w =>
      rw [hd] at h
      have := hexDigits_need (show hexDigits n ds _ = .ok none from h)
      simp only [List.length_cons]
      omega

/-- Of an escape sequence at most five bytes are left. -/
theorem parseEscape_need {l : List UInt8} (h : parseEscape l = .ok .needMore) : l.length ≤ 5 := by
  match l, h with
  | [], _ | [_], _ => simp
  | b :: c :: rest, h =>
    simp only [parseEscape] at h
    split at h
    · cases h
    · split at h
      · cases hd : hexDigits 4 rest 0 with
        | error e => rw [hd] at h; cases h
        | ok r =>
          rw [hd] at h
          cases r with
          | some v => cases h
          | none =>
            have := hexDigits_need hd
            simp only [List.length_cons]
            omega
      · cases h

/-- Of one that has to follow, too. -/
theorem lowSurrogateFollows_need {l : List UInt8} (h : lowSurrogateFollows l = .needMore) :
    l.length ≤ 5 := by
  match l, h with
  | [], _ | [_], _ => simp
  | a :: b :: l, h =>
    simp only [lowSurrogateFollows] at h
    split_ifs at h with h1 h2 h3
    · simp only [List.length_cons]
      omega
    · split at h
      · split at h <;> cases h
      · cases h

/-- An escape sequence that is not complete, with the one behind it that may go with it. -/
theorem resolve_need {l : List UInt8} (h : resolve l = .ok none) : l.length ≤ 11 := by
  rw [resolve_eq] at h
  cases he : parseEscape l with
  | error e => rw [he] at h; cases h
  | ok e =>
    rw [he] at h
    cases e with
    | needMore => have := parseEscape_need he; omega
    | unit value len =>
      have hlen := (parseEscape_length he).1
      simp only at h
      split at h
      · split at h
        · next hf =>
          have := lowSurrogateFollows_need hf
          rw [List.length_take, List.length_drop] at this
          omega
        · cases h
        · cases h
      · cases h

/-- A key that is not complete, of which `i` bytes were passed. -/
theorem keyFront_need (limit : Option Nat) : ∀ {i : Nat} {l : List UInt8},
    keyFront limit i l = .need → rawLength l = none ∧
      ∀ max, limit = some max → i ≤ max + 2 → i + l.length ≤ max + 2
  | i, [], _ => ⟨rfl, fun _ _ h => h⟩
  | i, [b], h => by
    simp only [keyFront] at h
    split_ifs at h with h1 h2 h3 h4
    all_goals
      refine ⟨by simp [rawLength, h2], ?_⟩
      rintro max rfl -
      simp only [exceeds_some, decide_eq_true_eq] at h1
      simp only [List.length_singleton]
      omega
  | i, b :: b' :: l, h => by
    simp only [keyFront] at h
    split_ifs at h with h1 h2 h3 h4
    · obtain ⟨hr, hle⟩ := keyFront_need limit h
      refine ⟨by rw [h3, rawLength_backslash, hr]; rfl, ?_⟩
      rintro max rfl -
      simp only [exceeds_some, decide_eq_true_eq] at h1
      have := hle max rfl (by omega)
      simp only [List.length_cons]
      omega
    · obtain ⟨hr, hle⟩ := keyFront_need limit h
      refine ⟨by rw [rawLength_cons_plain h2 h3, hr]; rfl, ?_⟩
      rintro max rfl -
      simp only [exceeds_some, decide_eq_true_eq] at h1
      have := hle max rfl (by omega)
      simp only [List.length_cons] at this ⊢
      omega

/-- Of a literal what is there is right, and it is not all there. -/
theorem literalFront_need : ∀ {rest l : List UInt8}, literalFront rest l = .need →
    l <+: rest ∧ l.length < rest.length
  | _ :: _, [], _ => ⟨List.nil_prefix, by simp⟩
  | e :: rest, b :: l, h => by
    simp only [literalFront] at h
    split_ifs at h with hb
    rw [not_not] at hb
    obtain ⟨hp, hlt⟩ := literalFront_need h
    rw [hb, List.prefix_cons_inj]
    exact ⟨hp, by simpa using hlt⟩

/-- `true`, `false` and `null`. -/
def literals : List (List UInt8) :=
  [[0x74, 0x72, 0x75, 0x65], [0x66, 0x61, 0x6C, 0x73, 0x65], [0x6E, 0x75, 0x6C, 0x6C]]

theorem literalBytes_mem (value : Option Bool) : literalBytes value ∈ literals := by
  match value with
  | none => decide
  | some true => decide
  | some false => decide

namespace Core

variable {limits : ParserLimits} {c : Core} {b : UInt8} {l : List UInt8}

theorem finish_ne_need {n : Nat} {early late : List (Mark F)} :
    finish limits n c early late ≠ .need := by
  unfold finish
  split <;> simp

/-- A key is left where its closing quote is not there. -/
theorem keyStep_need (h : c.keyStep (F := F) limits l = .need) :
    keyFront limits.maxNameLength 0 l = .need := by
  unfold keyStep at h
  split at h
  · assumption
  · cases h
  · split at h
    · cases h
    · split at h
      · cases h
      · exact absurd h finish_ne_need

theorem charStep_ne_need {ch : Char} {n columns : Nat} :
    c.charStep (F := F) limits ch n columns ≠ .need := by
  unfold charStep
  split <;> simp

/-- Of a string value a character is left that is cut off, or an escape sequence, or two. -/
theorem stringStep_need (h : c.stringStep (F := F) limits b l = .need) :
    CutOff (b :: l) ∨ b = backslash ∧ (b :: l).length ≤ 11 := by
  unfold stringStep at h
  split at h
  · cases h
  split at h
  · next hs =>
    split at h
    · cases h
    · next hr => exact .inr ⟨hs, resolve_need hr⟩
    · exact absurd h charStep_ne_need
  split at h
  · cases h
  split at h
  · cases h
  · exact absurd h charStep_ne_need
  · next hf =>
    rcases front_eq_need hf with hnil | hcut
    · cases hnil
    · exact .inl hcut

/-- What starts outside a string value and is not complete: a literal or a key. -/
inductive Unfinished (limits : ParserLimits) (c : Core) (l : List UInt8) : Prop where
  | literal (word : List UInt8) (mem : word ∈ literals) (front : l <+: word)
      (lt : l.length < word.length)
  | key (t : List UInt8) (eq : l = quote :: t) (state : c.state = .expectKey)
      (need : keyFront limits.maxNameLength 0 t = .need)

/-- **A token is left** where it is a literal or a key that is not all there. -/
theorem tokenStep_need (h : c.tokenStep (F := F) limits b l = .need) :
    Unfinished limits c (b :: l) := by
  unfold tokenStep at h
  cases hk : tokenKind b with
  | quote =>
    rw [hk] at h
    simp only [quoteStep] at h
    cases hst : c.state with
    | expectKey =>
      rw [hst] at h
      exact .key l (by rw [tokenKind_quote hk]) hst (keyStep_need h)
    | expectValue => rw [hst] at h; exact absurd h finish_ne_need
    | _ => rw [hst] at h; cases h
  | literal rest value =>
    rw [hk] at h
    simp only [literalStep] at h
    split at h
    · cases h
    split at h
    · next hn =>
      obtain ⟨hp, hlt⟩ := literalFront_need hn
      exact .literal _ (tokenKind_literal hk ▸ literalBytes_mem _) ((List.prefix_cons_inj b).mpr hp)
        (by simpa using hlt)
    · cases h
    · exact absurd h finish_ne_need
  | opening context =>
    rw [hk] at h
    simp only [openStep] at h
    split_ifs at h
    exact absurd h finish_ne_need
  | closing context =>
    rw [hk] at h
    simp only [closeStep] at h
    split_ifs at h
    exact absurd h finish_ne_need
  | other => rw [hk] at h; cases h
  | _ =>
    rw [hk] at h
    simp only at h
    split_ifs at h
    exact absurd h finish_ne_need

variable [Double F]

theorem numberStep_ne_need : c.numberStep (F := F) limits b ≠ .need := by
  unfold numberStep
  split
  · split <;> simp
  all_goals simp

/-- **Where the machine needs more**: at the end of the input, for a byte order mark, in a character
or an escape sequence of a string value, in a literal or a key. -/
theorem next_need (h : c.next (F := F) limits l = .need) :
    l = [] ∨ (c.bomChecked = false ∧ bomFront l = .need) ∨
      (c.bomChecked = true ∧ c.inString = true ∧
        (CutOff l ∨ l.head? = some backslash ∧ l.length ≤ 11)) ∨
      (c.bomChecked = true ∧ c.inString = false ∧ c.number.stage = .none ∧
        Unfinished limits c l) := by
  unfold next at h
  by_cases hb : c.bomChecked = true
  swap
  · have hb' : c.bomChecked = false := by simpa using hb
    rw [if_pos (by simp [hb'])] at h
    cases hf : bomFront l with
    | need => exact .inr (.inl ⟨hb', rfl⟩)
    | _ => rw [hf] at h; cases h
  rw [if_neg (by simp [hb])] at h
  cases l with
  | nil => exact .inl rfl
  | cons b l =>
    simp only at h
    by_cases hs : c.inString = true
    · rw [if_pos hs] at h
      rcases stringStep_need h with hc | ⟨rfl, hlen⟩
      · exact .inr (.inr (.inl ⟨hb, hs, .inl hc⟩))
      · exact .inr (.inr (.inl ⟨hb, hs, .inr ⟨rfl, hlen⟩⟩))
    rw [if_neg hs] at h
    by_cases hn : c.number.stage = .none
    swap
    · rw [if_pos hn] at h
      exact absurd h numberStep_ne_need
    rw [if_neg (not_not.mpr hn), outerStep] at h
    split at h
    · cases h
    split at h
    · cases h
    · exact .inr (.inr (.inr ⟨hb, by simpa using hs, hn, tokenStep_need h⟩))

end Core

/-! ## Sessions -/

/-- In a string value. -/
def Parser.InString (p : Parser F) : Prop := ∃ t, p.tokenizer = some t ∧ t.inString = true

/-- What a call of `receive` may leave in the ring where keys may have `max` bytes. `Bom` says which
bytes at the start of a document are kept for a byte order mark, `Cut` which bytes of a string value
for a character. -/
inductive Left (Bom Cut : List UInt8 → Prop) (max : Nat) (p : Parser F) (l : List UInt8) :
    Prop where
  | nothing (eq : l = [])
  | bom (start : p.checkedBom = false) (length : l.length ≤ 3) (bom : Bom l)
  | character (string : p.InString) (length : l.length ≤ 3) (cut : Cut l)
  | escape (string : p.InString) (head : l.head? = some backslash) (length : l.length ≤ 11)
  | literal (outside : ¬ p.InString) (word : List UInt8) (mem : word ∈ literals)
      (front : l <+: word) (lt : l.length < word.length)
  | key (outside : ¬ p.InString) (t : List UInt8) (eq : l = quote :: t) (open_ : rawLength t = none)
      (length : t.length ≤ max + 2)

section Sessions

variable {h : Handler F}

theorem Parser.inString_core {p : Parser F} : (p.core h).inString = true ↔ p.InString := by
  unfold Parser.core Parser.InString
  cases p.tokenizer with
  | none => simp [Core.start]
  | some t => simp [Parser.world, World.core]

theorem Parser.bomChecked_core {p : Parser F} {km : Nat} (hi : p.Inv km) :
    (p.core h).bomChecked = p.checkedBom := by
  rw [hi.bom]
  unfold Parser.core
  cases p.tokenizer with
  | none => rfl
  | some t => rfl

variable [Double F]

/-- **What is left is at most the start of one token.** -/
theorem Leftover.left {p : Parser F} {limits : ParserLimits} {l : List UInt8} {km max : Nat}
    (hi : p.Inv km) (hmax : limits.maxNameLength = some max)
    (hl : Leftover F limits (p.core h) l) : Left MayBeBom CutOff max p l := by
  cases hl with
  | nothing hl => exact .nothing hl
  | cutOff hs hc => exact .character (Parser.inString_core.mp hs) hc.length_le hc
  | need hn =>
    rcases Core.next_need hn with hl | ⟨hb, hf⟩ | ⟨-, hs, hl⟩ | ⟨-, hs, -, hl⟩
    · exact .nothing hl
    · have hmark := bomFront_need hf
      exact .bom (by rw [← Parser.bomChecked_core hi]; exact hb) hmark.length_le hmark
    · have hs' := Parser.inString_core.mp hs
      rcases hl with hc | ⟨hh, hlen⟩
      · exact .character hs' hc.length_le hc
      · exact .escape hs' hh hlen
    · have hs' : ¬ p.InString := fun h' => by rw [Parser.inString_core.mpr h'] at hs; cases hs
      cases hl with
      | literal word mem front lt => exact .literal hs' word mem front lt
      | key t eq state need =>
        obtain ⟨hr, hle⟩ := keyFront_need _ need
        refine .key hs' t eq hr ?_
        have := hle max hmax (by omega)
        omega

omit [Double F] in
/-- Whatever is left is short, or a key. -/
theorem Left.length_le {Bom Cut : List UInt8 → Prop} {p : Parser F} {l : List UInt8} {n : Nat}
    (h : Left Bom Cut n p l) : l.length ≤ max 11 (n + 3) := by
  cases h with
  | nothing eq => rw [eq]; simp
  | bom start length => omega
  | character string length => omega
  | escape string head length => omega
  | literal outside word mem front lt =>
    have : word.length ≤ 5 := by
      simp only [literals, List.mem_cons, List.not_mem_nil, or_false] at mem
      rcases mem with rfl | rfl | rfl <;> simp
    omega
  | key outside t eq open_ length => rw [eq, List.length_cons]; omega

variable {s : Session F} {km max : Nat}

/-- **Where keys fit the ring, `feed` need not look for room.** -/
theorem feed_room (hi : s.parser.Inv km) (hmax : s.parser.limits.maxNameLength = some max)
    (hcap : Nat.max 12 (max + 4) ≤ s.buf.capacity) : feed h true s = feed h false s := by
  unfold feed
  refine bind_congr_of_ensures ?_
  rw [ensures_get]
  by_cases hb : s.buf.len = 0
  · rw [if_pos hb, if_pos hb]
  have hne : s.buf.bytes ≠ [] := fun h => hb (by rw [LoopBuf.len, h]; rfl)
  rw [if_neg hb, if_neg hb]
  refine bind_congr_of_ensures ((countDocument_spec s.buf.len s).mono ?_ fun _ _ _ => trivial)
  rintro - s₁ ⟨k, rfl⟩
  refine bind_congr_of_ensures ?_
  have hspec := process_spec (h := h) (p := { s.parser with documentLength := k })
    (hi.counted k s.parser.unconsumed s.parser.underflow)
    (by rw [LoopBuf.spans_bytes]; exact hne)
  rw [LoopBuf.spans_bytes] at hspec
  refine (processRing_spec (s := { s with parser := { s.parser with documentLength := k } })
    hspec).mono ?_ fun _ _ _ => trivial
  rintro n s₂ ⟨p', rfl, hn, hst, -⟩
  have hlen := (hst.leftover.left hst.inv hmax).length_le
  have hroom : (n == 0 && (s.buf.advance n).isFull) = false := by
    rw [Bool.and_eq_false_iff]
    by_cases h0 : n = 0
    · subst h0
      refine .inr ?_
      rw [List.drop_zero] at hlen
      simp only [LoopBuf.isFull, LoopBuf.advance, List.drop_zero, beq_eq_false_iff_ne, ne_eq]
      simp only [Nat.max_def] at hcap hlen
      split_ifs at hcap hlen <;> omega
    · exact .inl (by simpa using h0)
  refine bind_congr_of_ensures ?_
  rw [ensures_get]
  refine bind_congr_of_ensures ?_
  simp only [modifyParser, ensures_modify, Bool.true_and, Bool.false_and]
  rw [hroom]

/-- What one call of `receive` leaves. -/
theorem receive_left (hi : s.parser.Inv km) :
    Ensures (Parser.receive h) s
      (fun _ s' => s'.parser.Inv km ∧ s'.buf.capacity = s.buf.capacity ∧
        s'.buf.bytes <:+ s.buf.bytes ∧
        (∀ max, s.parser.limits.maxNameLength = some max →
          Left MayBeBom CutOff max s'.parser s'.buf.bytes) ∧
        (0 < s.buf.capacity → 0 < s'.buf.spareLen))
      (fun _ _ => True) := by
  refine (receive_spec (h := h) hi).mono ?_ fun _ _ _ => trivial
  rintro - s' ⟨-, hi', -, ⟨n, -, hbuf⟩, hnil, hst, hfull, -⟩
  refine ⟨hi', by rw [hbuf]; rfl, by rw [hbuf]; exact List.drop_suffix _ _, ?_, ?_⟩
  · intro max hmax
    by_cases hb : s.buf.bytes = []
    · rw [hnil hb]
      exact .nothing hb
    · exact (hst hb).leftover.left hi' hmax
  · intro hcap
    by_cases hb : s.buf.bytes = []
    · rw [hnil hb, LoopBuf.spareLen, hb]
      exact hcap
    · have hf := hfull hb
      simp only [LoopBuf.isFull, beq_eq_false_iff_ne, ne_eq] at hf
      have := s'.buf.fits
      unfold LoopBuf.spareLen
      omega

/-- `parse` finds room whenever it reads. -/
theorem ParseHead.room {σ : Type} {reader : Reader σ} {rooms : Nat → Room} {source₀ source : σ}
    {s₀ : Session F} {n : Nat} (hi : s₀.parser.Inv km) (hroom : 0 < s₀.buf.spareLen)
    (hp : ParseHead h reader rooms source₀ s₀ n source s) :
    s.parser.Inv km ∧ 0 < s.buf.spareLen := by
  induction hp with
  | start => exact ⟨hi, hroom⟩
  | @next n source source' s s' bytes head spare read ne received ih =>
    have hcap : 0 < s.buf.capacity := by
      have := ih.2
      unfold LoopBuf.spareLen at this
      omega
    have := receive_left (h := h) (s := { s with buf := s.buf.write bytes (rooms n).layout }) ih.1
    rw [ensures_ok received] at this
    exact ⟨this.1, this.2.2.2.2 hcap⟩

/-- **What `receive` leaves in the ring** is a suffix of what it was presented, and at most the
start of a byte order mark, of a character or an escape sequence in a string value, of a literal or
of a key. So no ring that keys fit is ever too small, and there is always room for more. -/
theorem receive_leaves (hr : Reachable h s) :
    (∀ max, s.parser.limits.maxNameLength = some max →
      (∀ s', Parser.receive h s = .ok () s' →
        s'.buf.bytes <:+ s.buf.bytes ∧ Left MayBeBom CutOff max s'.parser s'.buf.bytes) ∧
      (Nat.max 12 (max + 4) ≤ s.buf.capacity → s.parser.closed = false →
        Parser.receive h s = feed h false s)) ∧
    (1 ≤ s.buf.capacity → ∀ s', Parser.receive h s = .ok () s' → 0 < s'.buf.spareLen) ∧
    ∀ (σ : Type) (reader : Reader σ) (rooms : Nat → Room) (n : Nat) (source₀ source : σ)
      (s' : Session F), 1 ≤ s.parser.bufferSize →
      ParseHead h reader rooms source₀
        ⟨s.parser.reset, .empty s.parser.bufferSize (rooms 0).layout.1 (rooms 0).layout.2⟩
        n source s' →
      (rooms n).spare s'.buf ≠ 0 := by
  obtain ⟨km, hi⟩ := hr.inv
  have left := receive_left (h := h) hi
  refine ⟨fun max hmax => ⟨?_, ?_⟩, ?_, ?_⟩
  · intro s' hs'
    rw [ensures_ok hs'] at left
    exact ⟨left.2.2.1, left.2.2.2.1 max hmax⟩
  · intro hcap hopen
    rw [← feed_room hi hmax hcap]
    unfold Parser.receive
    refine bind_congr_of_ensures (g := fun _ => feed h true) ?_
    rw [ensures_get, if_neg (by simp [hopen])]
  · intro hcap s' hs'
    rw [ensures_ok hs'] at left
    exact left.2.2.2.2 hcap
  · intro σ reader rooms n source₀ source s' hcap hp
    have hi' : s.parser.reset.Inv km := ⟨by rintro t ⟨⟩, rfl, hi.interner, hi.chunk⟩
    have hspare : 0 < (LoopBuf.empty s.parser.bufferSize (rooms 0).layout.1
        (rooms 0).layout.2).spareLen := by
      simpa [LoopBuf.spareLen, LoopBuf.empty] using Nat.lt_of_succ_le hcap
    exact ((rooms n).spare_pos _ (hp.room hi' hspare).2).ne'

/-- A new parser that is presented an array whose first item is not complete. -/
def arraySession : Session Rat :=
  { Session.new 4100 (.split 0) with
    buf := (LoopBuf.empty 4100 (Spans.split 0) fun _ => rfl).write [0x5B, 0x74, 0x72] (.split 2) }

theorem receive_leaves_array :
    (∃ s', Parser.receive .accepting arraySession = .ok () s' ∧ s'.buf.bytes = [0x74, 0x72] ∧
      s'.buf.bytes <:+ arraySession.buf.bytes ∧ Left MayBeBom CutOff 4096 s'.parser s'.buf.bytes ∧
      0 < s'.buf.spareLen) ∧
    Parser.receive .accepting arraySession = feed .accepting false arraySession := by
  have hr : Reachable .accepting arraySession :=
    (Session.new_atStart .accepting 4100 (.split 0)).reachable.step
      (.write [0x5B, 0x74, 0x72] (.split 2))
  obtain ⟨hleaves, hroom, -⟩ := receive_leaves hr
  obtain ⟨hleft, hfeed⟩ := hleaves 4096 rfl
  exact ⟨⟨_, rfl, rfl, (hleft _ rfl).1, (hleft _ rfl).2, hroom (by decide) _ rfl⟩,
    hfeed (by decide) rfl⟩

/-- Bytes that begin a byte order mark. -/
def BeginsBom (l : List UInt8) : Prop := ∃ mark ∈ byteOrderMarks, l <+: mark

/-- Bytes that begin a character. -/
def BeginsChar (l : List UInt8) : Prop := ∃ c, l <+: String.utf8EncodeChar c

/-- A new parser that is presented the bytes `00 00 41`. -/
def zeroSession : Session Rat :=
  { Session.new 64 (.split 0) with
    buf := (LoopBuf.empty 64 (Spans.split 0) fun _ => rfl).write [0x00, 0x00, 0x41] (.split 0) }

/-- A new parser that is presented a quote and `ED A0` on a ring that wraps between these two. -/
def surrogateSession : Session Rat :=
  { Session.new 64 (.split 0) with
    buf := (LoopBuf.empty 64 (Spans.split 0) fun _ => rfl).write [0x22, 0xED, 0xA0] (.split 2) }

/-- `00 00 41` is left, though no byte order mark begins so, and `ED A0` is, though no character
does. -/
theorem receive_leaves_zeros :
    (Reachable .accepting zeroSession ∧ zeroSession.parser.limits.maxNameLength = some 4096 ∧
      ∃ s', Parser.receive .accepting zeroSession = .ok () s' ∧
        ¬ Left BeginsBom CutOff 4096 s'.parser s'.buf.bytes) ∧
    (Reachable .accepting surrogateSession ∧
      surrogateSession.parser.limits.maxNameLength = some 4096 ∧
      ∃ s', Parser.receive .accepting surrogateSession = .ok () s' ∧
        ¬ Left MayBeBom BeginsChar 4096 s'.parser s'.buf.bytes) := by
  have start : Reachable .accepting (Session.new 64 (.split 0) : Session Rat) :=
    (Session.new_atStart .accepting 64 (.split 0)).reachable
  refine ⟨⟨start.step (.write [0x00, 0x00, 0x41] (.split 0)), rfl, _, rfl, ?_⟩,
    ⟨start.step (.write [0x22, 0xED, 0xA0] (.split 2)), rfl, _, rfl, ?_⟩⟩
  · intro hl
    cases hl with
    | nothing eq => cases eq
    | bom start length bom =>
      obtain ⟨mark, mem, front⟩ := bom
      revert front
      revert mark
      decide
    | character string => cases string.choose_spec.1
    | escape string => cases string.choose_spec.1
    | literal outside word mem front lt =>
      revert front
      revert word
      decide
    | key outside t eq => cases eq
  · intro hl
    cases hl with
    | nothing eq => cases eq
    | bom start => cases start
    | character string length cut =>
      obtain ⟨c, front⟩ := cut
      exact front_ne_bad_of_prefix front (by decide)
    | escape string head => cases head
    | literal outside word mem front lt =>
      revert front
      revert word
      decide
    | key outside t eq => cases eq

end Sessions

end RJsonParser
