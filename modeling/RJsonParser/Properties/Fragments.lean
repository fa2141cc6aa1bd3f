import RJsonParser.Properties.Exact

/-!
# Fragments

A document comes to the same however it arrives: in which chunks, where the ring wraps, and how
small the ring is as long as its keys fit.

* `refill` — a caller that fills a ring from a document after each call
* `fragments_agree` — what becomes of a document in fragments and as a whole
-/

namespace RJsonParser

open Infra Infra.Utf8

variable {F : Type} [Double F]

/-! ## Refilling -/

/-- A caller that passes the bytes `l` on through a ring, and closes the parser at the end: before
each call it writes as many as there is room for, and no more than `size` says. -/
def refill (h : Handler F) (size : Nat → Nat) (layout : Nat → Layout) :
    Nat → List UInt8 → SessionM F Unit
  | _, [] => Parser.close h
  | 0, _ :: _ => throw .outOfFuel
  | fuel + 1, b :: l => do
    let s ← get
    let n := min (size fuel + 1) s.buf.spareLen
    (Op.write ((b :: l).take n) (layout fuel)).exec h
    (Op.receive).exec h
    refill h size layout fuel ((b :: l).drop n)

section Refill

variable {h : Handler F} {s₀ s : Session F} (size : Nat → Nat) (layout : Nat → Layout) {km : Nat}

theorem run_cons (op : Op) (ops : List Op) (s : Session F) : run h (op :: ops) s =
    match op.exec h s with
    | .ok () s' => run h ops s'
    | .error e s' => .error e s' := by
  show (op.exec h >>= fun _ => run h ops) s = _
  cases hx : op.exec h s with
  | ok a s' => exact bind_of_ok hx _
  | error e s' => exact bind_of_error hx _

theorem run_close (s : Session F) : run h [.close] s = Parser.close h s := by
  rw [run_cons]
  show (match Parser.close h s with | .ok () s' => run h [] s' | .error e s' => .error e s') = _
  cases Parser.close h s <;> rfl

theorem refill_nil (fuel : Nat) (s : Session F) :
    refill h size layout fuel [] s = Parser.close h s := by
  cases fuel <;> rfl

/-- Where there are bytes left, the ring is received and refilled. -/
theorem refill_cons (fuel : Nat) (b : UInt8) (l : List UInt8) (s : Session F) :
    refill h size layout (fuel + 1) (b :: l) s =
      (Parser.receive h >>= fun _ =>
          refill h size layout fuel ((b :: l).drop (min (size fuel + 1) s.buf.spareLen)))
        ⟨s.parser,
          s.buf.write ((b :: l).take (min (size fuel + 1) s.buf.spareLen)) (layout fuel)⟩ := rfl

/-- **A ring that is refilled never fills up**: what the caller does is some steps that find room
for all of the document. -/
theorem refill_ops {fuel : Nat} {l stream : List UInt8} {new : List (Call F)} {s : Session F}
    (hl : l.length ≤ fuel) (hr : s₀.Reads km h s stream new) (hspare : 0 < s.buf.spareLen) :
    ∃ ops : List Op, (∀ op ∈ ops, op.Presents) ∧ offered ops = l ∧ Fits h ops s ∧
      refill h size layout fuel l s = run h (ops ++ [.close]) s := by
  induction fuel generalizing l stream new s with
  | zero =>
    obtain rfl := List.length_eq_zero_iff.mp (Nat.le_zero.mp hl)
    exact ⟨[], by simp, rfl, trivial, by rw [refill_nil, List.nil_append, run_close]⟩
  | succ fuel ih =>
    cases l with
    | nil => exact ⟨[], by simp, rfl, trivial, by rw [refill_nil, List.nil_append, run_close]⟩
    | cons b l =>
      set n := min (size fuel + 1) s.buf.spareLen with hn
      have hfit : ((b :: l).take n).length ≤ s.buf.spareLen := by
        rw [List.length_take]
        omega
      have hdrop : ((b :: l).drop n).length ≤ fuel := by
        rw [List.length_drop]
        simp only [List.length_cons] at hl ⊢
        omega
      have hpos : 0 < ((b :: l).take n).length := by
        rw [List.length_take, List.length_cons]
        omega
      have hw := hr.write ((b :: l).take n) (layout fuel)
      set s₁ : Session F := { s with buf := s.buf.write ((b :: l).take n) (layout fuel) } with hs₁
      have hne : s₁.buf.bytes ≠ [] := by
        show s.buf.bytes ++ ((b :: l).take n).take s.buf.spareLen ≠ []
        rw [List.take_of_length_le hfit]
        intro hnil
        rw [(List.append_eq_nil_iff.mp hnil).2] at hpos
        exact absurd hpos (lt_irrefl _)
      have hspec := hw.receive
      have hrun (ops : List Op) :
          run h (.write ((b :: l).take n) (layout fuel) :: .receive :: ops) s =
            (Parser.receive h >>= fun _ => run h ops) s₁ := rfl
      cases hx : Parser.receive h s₁ with
      | ok a s₂ =>
        rw [ensures_ok hx] at hspec
        obtain ⟨hfull, -, -, more, hr₂, -⟩ := hspec
        have hspare₂ : 0 < s₂.buf.spareLen := by
          have hne := hfull hne
          have := s₂.buf.fits
          simp only [LoopBuf.isFull, beq_eq_false_iff_ne] at hne
          rw [LoopBuf.spareLen]
          omega
        obtain ⟨ops, hops, hoffered, hfits, heq⟩ := ih hdrop hr₂ hspare₂
        refine ⟨.write ((b :: l).take n) (layout fuel) :: .receive :: ops, ?_, ?_, ⟨hfit, ?_⟩, ?_⟩
        · simpa [Op.Presents] using hops
        · show (b :: l).take n ++ offered ops = b :: l
          rw [hoffered, List.take_append_drop]
        · intro s' hs'
          rw [show Parser.receive h s₁ = .ok () s' from hs'] at hx
          cases hx
          exact hfits
        · rw [refill_cons, List.cons_append, List.cons_append, hrun, bind_of_ok hx, bind_of_ok hx,
            heq]
      | error e s₂ =>
        -- what comes behind the error makes no difference
        refine ⟨[.write ((b :: l).take n) (layout fuel), .receive,
          .write ((b :: l).drop n) (layout fuel)], by simp [Op.Presents], ?_, ⟨hfit, ?_⟩, ?_⟩
        · simp [offered, List.take_append_drop]
        · intro s' hs'
          rw [show Parser.receive h s₁ = .ok () s' from hs'] at hx
          cases hx
        · rw [refill_cons, List.cons_append, List.cons_append, hrun, bind_of_error hx,
            bind_of_error hx]

end Refill

/-! ## Fragments -/

section Fragments

variable {h : Handler F} {s s' : Session F} {l : List UInt8} {new new' : List (Call F)}
  {result result' : Except Stop Unit} {km : Nat}

/-- What the machine says of the document, where nothing is too long. -/
theorem Comes.ends (hc : Comes h s l new result)
    (hl : exceeds s.parser.limits.maxDocumentLength l.length = false)
    (hk : s.KeysFit h l s.parser.stringChunkSize) :
    ∃ a, ∃ os : List (Mark F), Ends s.parser.limits (s.parser.core h) l a os := by
  cases hc with
  | accepted ends fits => exact ⟨_, _, ends⟩
  | rejected os ends told => exact ⟨_, _, ends⟩
  | tooLong long => rw [hl] at long; cases long
  | longKey os long told => exact absurd long (hk os)

/-- **A document comes to the same twice.** -/
theorem Comes.agree (hc : Comes h s l new result) (hc' : Comes h s' l new' result')
    (hlimits : s'.parser.limits = s.parser.limits) (hcore : s'.parser.core h = s.parser.core h)
    (hl : exceeds s.parser.limits.maxDocumentLength l.length = false)
    (hk : s.KeysFit h l s.parser.stringChunkSize)
    (hk' : s'.KeysFit h l s'.parser.stringChunkSize) :
    (result' = .ok () ↔ result = .ok ()) ∧ tokens (marks new') = tokens (marks new) ∧
      (result = .ok () → marks new' = marks new) := by
  obtain ⟨a, os, he⟩ := hc.ends hl hk
  obtain ⟨hok, told, hall⟩ := hc.of_ends he hl hk
  rw [← hlimits] at hl
  obtain ⟨hok', told', hall'⟩ := hc'.of_ends (by rw [hlimits, hcore]; exact he) hl hk'
  refine ⟨hok'.trans hok.symm, told'.tokens_eq.trans told.tokens_eq.symm, fun hr => ?_⟩
  rw [hall (hok.mp hr), hall' (hok.mp hr)]

omit [Double F] in
/-- What was called back is joined the same where the same was put out. -/
theorem Session.Called.join_eq {s₁ s₂ : Session F} (hc : s.Called km s₁ new) {km' : Nat}
    (hc' : s'.Called km' s₂ new') (h : marks new' = marks new) :
    join (new'.map Call.event) = join (new.map Call.event) := by
  have nonEmpty {km : Nat} {s s₁ : Session F} {new : List (Call F)} (hc : s.Called km s₁ new) :
      ∀ e ∈ new.map Call.event, e.NonEmpty := by
    intro e he
    obtain ⟨call, hcall, rfl⟩ := List.mem_map.mp he
    exact (hc.piece call hcall).nonEmpty
  rw [← join_explode _ (nonEmpty hc'), ← join_explode _ (nonEmpty hc), ← eventsOf_marks,
    ← eventsOf_marks, h]

/-- **A document comes to the same in fragments** as in one chunk, with every chunk size that holds
its keys. If it is accepted all that is called back is the same but for the pieces it comes in,
also through a smaller ring that holds each key in quotes and 12 bytes. If it is rejected all tokens
up to the error are. -/
theorem fragments_agree (hs : s.AtStart h) (hh : h.NeverErrs) (limits : ParserLimits)
    (hlimit : limits.maxDocumentLength = none) (reject : Bool) (n n' : ChunkSize) (l : List UInt8)
    (layout : Layout) (hcap : l.length ≤ s.buf.capacity)
    (hn : (s.configure limits reject n).KeysFit h l n)
    (hn' : (s.configure limits reject n').KeysFit h l n') :
    let whole := outcome h [.write l layout, .receive, .close] (s.configure limits reject n')
    ∃ calls, whole.2.parser.calls = s.parser.calls ++ calls ∧
      (∀ chunks : List (List UInt8 × Layout), (chunks.map Prod.fst).flatten = l →
        let r := outcome h (presentation chunks) (s.configure limits reject n)
        ∃ new, r.2.parser.calls = s.parser.calls ++ new ∧
          (r.1 = .ok () ↔ whole.1 = .ok ()) ∧ tokens (marks new) = tokens (marks calls) ∧
          (whole.1 = .ok () → join (new.map Call.event) = join (calls.map Call.event))) ∧
      (whole.1 = .ok () → (∃ t, Document l t) ∧ ∀ t, Document l t →
        ∀ s' : Session F, s'.AtStart h → s'.parser.calls = s.parser.calls →
          12 ≤ s'.buf.capacity → (∀ k ∈ t.keys, 2 + k.raw.length ≤ s'.buf.capacity) →
          ∀ size layouts, ∃ s₁ new,
            refill h size layouts l.length l (s'.configure limits reject n) = .ok () s₁ ∧
            s₁.parser.calls = s.parser.calls ++ new ∧
            join (new.map Call.event) = join (calls.map Call.event)) := by
  intro whole
  have hstart := hs.configure limits reject n
  have hstart' := hs.configure limits reject n'
  obtain ⟨km, hi⟩ := hstart.reachable.inv
  obtain ⟨km', hi'⟩ := hstart'.reachable.inv
  have hl : exceeds limits.maxDocumentLength l.length = false := by
    rw [hlimit]
    rfl
  obtain ⟨calls, hcalled, hcomes⟩ :=
    hstart'.presentation_comes hi' hh [(l, layout)] l (by simp) hcap
  refine ⟨calls, hcalled.calls, ?_, fun hok => ?_⟩
  · intro chunks hchunks r
    -- both presentations come to what the machine makes of the bytes
    obtain ⟨new, hcalled', hcomes'⟩ := hstart.presentation_comes hi hh chunks l hchunks hcap
    obtain ⟨hiff, htokens, hmarks⟩ := hcomes.agree hcomes' rfl
      (by rw [hstart.core, hstart'.core]; rfl) hl hn' hn
    exact ⟨new, hcalled'.calls, hiff, htokens, fun hok => hcalled.join_eq hcalled' (hmarks hok)⟩
  · obtain ⟨os, hends⟩ : ∃ os : List (Mark F), Ends limits
        ((s.configure limits reject n').parser.core h) l true os := by
      obtain ⟨a, os, hends⟩ := hcomes.ends hl hn'
      obtain ⟨hiff, -, -⟩ := hcomes.of_ends hends hl hn'
      obtain rfl := hiff.mp hok
      exact ⟨os, hends⟩
    refine ⟨hends.document (by rw [hstart'.core]; exact Core.start_starts _ _)
      (by rw [hstart'.core]; rfl), ?_⟩
    intro t ht s' hs' hcalls hcap' hkeys size layouts
    have hstart₁ := hs'.configure limits reject n
    set s₀ := s'.configure limits reject n with hs₀
    have hcore₀ : s₀.parser.core h = (s.configure limits reject n').parser.core h := by
      rw [hstart₁.core, hstart'.core]
      show Core.start reject (h.needsWhitespace s'.parser.calls) =
        Core.start reject (h.needsWhitespace s.parser.calls)
      rw [hcalls]
    have hk₀ : s₀.KeysFit h l n := by
      intro os hlong
      rw [hcore₀] at hlong
      refine hn os ?_
      rw [hstart.core]
      rw [hstart'.core] at hlong
      exact hlong
    obtain ⟨km₀, hi₀⟩ := hstart₁.reachable.inv
    have hspare : 0 < s₀.buf.spareLen := by
      rw [LoopBuf.spareLen, hstart₁.empty]
      show 0 < s'.buf.capacity - 0
      omega
    -- a ring that is refilled is one more presentation, in which all writes fit
    obtain ⟨ops, hops, hoffered, hfits, hrefill⟩ :=
      refill_ops size layouts le_rfl (hstart₁.reads hi₀) hspare
    have hroom : s₀.Roomy h (offered ops) s₀.buf.capacity := by
      rw [hoffered]
      refine ht.roomy (by rw [hstart₁.core]; exact Core.start_starts _ _) (.inr ⟨hcap', ?_⟩)
      intro k hk
      rw [Nat.add_comm]
      exact hkeys k hk
    obtain ⟨new, hcalled', hcomes'⟩ := hstart₁.comes hi₀ hh hops hfits hroom
    rw [hoffered] at hcomes'
    obtain ⟨hiff, -, hmarks⟩ := hcomes.agree hcomes' rfl hcore₀ hl hn' hk₀
    have hresult := hiff.mpr hok
    rw [outcome, ← hrefill] at hresult hcalled'
    cases hr : refill h size layouts l.length l s₀ with
    | ok a s₁ =>
      rw [hr] at hcalled'
      exact ⟨s₁, new, rfl, hcalled'.calls.trans (by rw [← hcalls]; rfl),
        hcalled.join_eq hcalled' (hmarks hok)⟩
    | error e s₁ =>
      rw [hr] at hresult
      cases hresult

/-- The object `{"a":null,"\u0061":null}` through a ring of 12 bytes. -/
theorem fragments_agree_twice :
    let s : Session Rat := .new 64 (.split 0)
    let n : ChunkSize := ⟨16, by decide⟩
    let l := twiceTree.bytes
    let small : Session Rat := .new 12 (.split 0)
    ∃ calls s₁ new,
      (outcome .accepting [.write l (.split 3), .receive, .close]
        (s.configure .unlimited false n)).2.parser.calls = s.parser.calls ++ calls ∧
      refill .accepting (fun _ => 4) (fun _ => .split 5) l.length l
        (small.configure .unlimited false n) = .ok () s₁ ∧
      s₁.parser.calls = s.parser.calls ++ new ∧
      join (new.map Call.event) = join (calls.map Call.event) := by
  intro s n l small
  have hs : s.AtStart .accepting := Session.new_atStart ..
  have hsmall : small.AtStart .accepting := Session.new_atStart ..
  have hdoc : Document l twiceTree := ⟨[], ⟨[], by simp⟩, ⟨[], by simp⟩, .inl rfl, rfl⟩
  have htext : ∀ k ∈ twiceTree.keys, byteLen k.text ≤ 16 ∧ 2 + k.raw.length ≤ 12 := by decide
  have hcore : ((s.configure .unlimited false n).parser.core .accepting).Starts :=
    Core.start_starts false true
  have hkeys : (s.configure .unlimited false n).KeysFit .accepting l n :=
    hdoc.keysFit hcore fun k hk => (htext k hk).1
  obtain ⟨calls, hcalls, -, hring⟩ := fragments_agree hs (fun _ => rfl) .unlimited rfl false n n l
    (.split 3) (by decide) hkeys hkeys
  obtain ⟨-, hall⟩ := hring (by decide +kernel)
  obtain ⟨s₁, new, hrefill, hnew, hjoin⟩ := hall twiceTree hdoc small hsmall rfl (by decide)
    (fun k hk => (htext k hk).2) (fun _ => 4) fun _ => .split 5
  exact ⟨calls, s₁, new, hcalls, hrefill, hnew, hjoin⟩

end Fragments

end RJsonParser
