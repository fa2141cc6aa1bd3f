import RJsonParser.Properties.StringContent

/-!
# A caller of the writer

A caller makes its calls one after the other, repeats those that would block, and takes bytes from
the ring whenever it likes. What comes out does not depend on the ring or on when it does that.

* `produced` — what a list of calls writes, without a ring
* `exec_spec` — what one call does to the ring and to what is still to come
* `total_step`, `total_run` — what has come out and what is still to come
-/

namespace RJsonParser

open Infra Infra.Utf8 Writer

variable {F : Type} [DoubleText F]

/-! ## One call -/

/-- Everything that a call writes, and the writer after it. `none` if JSON cannot represent it. -/
def WriteCall.whole (w : Writer) : WriteCall F → Option (List UInt8 × Writer)
  | .stringContent content => some (escaped content, w)
  | c => (c.token w).map fun t => (t.bytes, t.next)

/-- What the calls write one behind the other, and the writer after them. -/
def produced : List (WriteCall F) → Writer → Option (List UInt8 × Writer)
  | [], w => some ([], w)
  | c :: cs, w =>
    (c.whole w).bind fun p => (produced cs p.2).map fun q => (p.1 ++ q.1, q.2)

/-- The call that a call amounts to that took `n` bytes. -/
def WriteCall.upTo : WriteCall F → Nat → Except WriteStop (WriteCall F)
  | .stringContent content, n => do
    let taken ← sliceTo content n
    pure (.stringContent taken)
  | c, _ => pure c

theorem LoopBuf.bytes_extendFromSlice (buf : LoopBuf) {a : List UInt8}
    (h : a.length ≤ buf.spareLen) : (buf.extendFromSlice a).bytes = buf.bytes ++ a := by
  simp only [LoopBuf.extendFromSlice, List.take_of_length_le h]

theorem sliceFrom_byteLen : ∀ p rest : Text, sliceFrom (p ++ rest) (byteLen p) = .ok rest
  | [], rest => by cases rest <;> rfl
  | c :: p, rest => by
    have hpos := c.utf8Size_pos
    rw [List.cons_append, byteLen_cons,
      show c.utf8Size + byteLen p = c.utf8Size + byteLen p - 1 + 1 by omega, sliceFrom,
      if_pos (by omega), show c.utf8Size + byteLen p - 1 + 1 - c.utf8Size = byteLen p by omega]
    exact sliceFrom_byteLen p rest

theorem escaped_append (s t : Text) : escaped (s ++ t) = escaped s ++ escaped t := by
  simp [escaped]

/-- String content on the ring and the writer. -/
theorem exec_content (content : Text) (buf : LoopBuf) (w : Writer) :
    (WriteCall.stringContent content : WriteCall F).exec (buf, w) =
      if fitting buf.spareLen content = [] ∧ content ≠ [] then
        .error (noRoom 6 "string content" buf) (buf, w)
      else .ok (byteLen (fitting buf.spareLen content))
        (buf.extendFromSlice (escaped (fitting buf.spareLen content)), w) := by
  have hcontent := stringContent_eq content buf
  rw [contentResult] at hcontent
  show zoom (stringContent content) (buf, w) = _
  by_cases hnone : fitting buf.spareLen content = [] ∧ content ≠ []
  · rw [if_pos hnone] at hcontent ⊢
    simp only [zoom, hcontent]
  · rw [if_neg hnone] at hcontent ⊢
    simp only [zoom, hcontent]

/-- Nothing else stops a call that lacks room. -/
theorem noRoom_eq (need : Nat) (what : String) (buf : LoopBuf) :
    ∃ e, noRoom need what buf = .error e := by
  unfold noRoom
  split
  · exact ⟨_, rfl⟩
  · exact ⟨_, rfl⟩

/-- A call that is not string content writes a token, or JSON cannot represent it. -/
theorem whole_of_token {c : WriteCall F} (w : Writer) (hc : ∀ s, c ≠ .stringContent s) :
    c.whole w = (c.token w).map fun t => (t.bytes, t.next) := by
  cases c with
  | stringContent s => exact absurd rfl (hc s)
  | _ => rfl

/-- What there is to say of a call that returned: what it put, and how it took part in what is to
come. -/
structure Wrote (c : WriteCall F) (buf : LoopBuf) (w : Writer) (n : Nat) (bytes : List UInt8)
    (rest : List (WriteCall F)) (w' : Writer) : Prop where
  exec : c.exec (buf, w) = .ok n (buf.extendFromSlice bytes, w')
  fits : bytes.length ≤ buf.spareLen
  rest_eq : c.rest n = .ok rest
  upTo : ∃ d : WriteCall F, c.upTo n = .ok d ∧ d.whole w = some (bytes, w')
  ranged : ∀ d ∈ rest, d.Ranged
  produced : ∀ cs, produced (c :: cs) w =
    (produced (rest ++ cs) w').map fun q => (bytes ++ q.1, q.2)

theorem wrote_token {c : WriteCall F} (hr : c.Ranged) {buf : LoopBuf} {w : Writer} {t : Token}
    (hc : ∀ s, c ≠ .stringContent s) (ht : c.token w = some t)
    (hroom : t.bytes.length ≤ buf.spareLen) : Wrote c buf w 0 t.bytes [] t.next := by
  have hwhole : c.whole w = some (t.bytes, t.next) := by rw [whole_of_token w hc, ht]; rfl
  refine ⟨?_, hroom, ?_, ⟨c, ?_, hwhole⟩, ?_, ?_⟩
  · rw [exec_token hr ht, Token.call, if_pos hroom]
  · cases c with
    | stringContent s => exact absurd rfl (hc s)
    | _ => rfl
  · cases c with
    | stringContent s => exact absurd rfl (hc s)
    | _ => rfl
  · intro d hd
    cases hd
  · intro cs
    rw [RJsonParser.produced, hwhole]
    rfl

theorem wrote_content {content : Text} {buf : LoopBuf} (w : Writer)
    (h : ¬ (fitting buf.spareLen content = [] ∧ content ≠ [])) :
    ∃ rest, Wrote (.stringContent content : WriteCall F) buf w
      (byteLen (fitting buf.spareLen content)) (escaped (fitting buf.spareLen content)) rest w := by
  obtain ⟨left, hleft⟩ := fitting_start buf.spareLen content
  have hfits := escapedLen_fitting buf.spareLen content
  have hupTo : (WriteCall.stringContent content : WriteCall F).upTo
      (byteLen (fitting buf.spareLen content)) =
      .ok (.stringContent (fitting buf.spareLen content)) := by
    rw [WriteCall.upTo, sliceTo_byteLen (fitting_start _ _)]
    rfl
  have hfrom : sliceFrom content (byteLen (fitting buf.spareLen content)) = .ok left := by
    have := sliceFrom_byteLen (fitting buf.spareLen content) left
    rwa [hleft] at this
  have hproduced : ∀ cs : List (WriteCall F), produced (.stringContent content :: cs) w =
      (produced cs w).map fun q =>
        (escaped (fitting buf.spareLen content) ++ (escaped left ++ q.1), q.2) := by
    intro cs
    have hsplit : escaped content = escaped (fitting buf.spareLen content) ++ escaped left := by
      rw [← escaped_append, hleft]
    rw [produced, WriteCall.whole, Option.bind_some, hsplit]
    simp only [List.append_assoc]
  have hexec := exec_content (F := F) content buf w
  rw [if_neg h] at hexec
  by_cases hnil : left = []
  · refine ⟨[], hexec, by rw [length_escaped]; exact hfits, ?_, ⟨_, hupTo, rfl⟩, ?_, ?_⟩
    · simp only [WriteCall.rest, hfrom, hnil]
      rfl
    · intro d hd
      cases hd
    · intro cs
      rw [hproduced, hnil]
      rfl
  · refine ⟨[.stringContent left], hexec, by rw [length_escaped]; exact hfits, ?_,
      ⟨_, hupTo, rfl⟩, ?_, ?_⟩
    · simp only [WriteCall.rest, hfrom]
      show Except.ok (if left = [] then [] else [WriteCall.stringContent left]) = _
      rw [if_neg hnil]
    · intro d hd
      rw [List.mem_singleton.mp hd]
      trivial
    · intro cs
      rw [hproduced, List.singleton_append, RJsonParser.produced, WriteCall.whole, Option.bind_some,
        Option.map_map]
      rfl

/-- **What a call does**: it writes, or it changes nothing. -/
theorem exec_spec {c : WriteCall F} (hr : c.Ranged) (buf : LoopBuf) (w : Writer) :
    (∃ n bytes rest w', Wrote c buf w n bytes rest w') ∨
      ∃ e, c.exec (buf, w) = .error (.error e) (buf, w) := by
  by_cases hc : ∃ content, c = .stringContent content
  · obtain ⟨content, rfl⟩ := hc
    by_cases hnone : fitting buf.spareLen content = [] ∧ content ≠ []
    · obtain ⟨e, he⟩ := noRoom_eq 6 "string content" buf
      exact .inr ⟨e, by rw [exec_content, if_pos hnone, he]⟩
    · obtain ⟨rest, h⟩ := wrote_content (F := F) w hnone
      exact .inl ⟨_, _, rest, w, h⟩
  · have hc' : ∀ s, c ≠ .stringContent s := fun s hs => hc ⟨s, hs⟩
    cases ht : c.token w with
    | none =>
      obtain ⟨m, hm⟩ : ∃ m, c.exec (buf, w) = .error (.error ⟨.invalidInput, m⟩) (buf, w) :=
        exec_unwritable ht hc'
      exact .inr ⟨_, hm⟩
    | some t =>
      by_cases hroom : t.bytes.length ≤ buf.spareLen
      · exact .inl ⟨_, _, _, _, wrote_token hr hc' ht hroom⟩
      · obtain ⟨e, he⟩ := noRoom_eq t.bytes.length t.what buf
        exact .inr ⟨e, by rw [exec_token hr ht, Token.call, if_neg hroom, he]⟩

/-- A call that there is room for is done at once. -/
theorem exec_whole {c : WriteCall F} (hr : c.Ranged) {buf : LoopBuf} {w w' : Writer}
    {bytes : List UInt8} (h : c.whole w = some (bytes, w')) (hroom : bytes.length ≤ buf.spareLen) :
    ∃ n, c.exec (buf, w) = .ok n (buf.extendFromSlice bytes, w') ∧ c.rest n = .ok [] := by
  by_cases hc : ∃ content, c = .stringContent content
  · obtain ⟨content, rfl⟩ := hc
    obtain ⟨rfl, rfl⟩ := Prod.mk.inj (Option.some.inj h)
    rw [length_escaped] at hroom
    have hall : fitting buf.spareLen content = content :=
      (fitting_start _ _).eq_of_length_le (prefix_fitting List.prefix_rfl hroom).length_le
    have hfrom := sliceFrom_byteLen content []
    rw [List.append_nil] at hfrom
    refine ⟨byteLen content, ?_, ?_⟩
    · rw [exec_content, hall, if_neg fun h => h.2 h.1]
    · simp only [WriteCall.rest, hfrom]
      rfl
  · have hc' : ∀ s, c ≠ .stringContent s := fun s hs => hc ⟨s, hs⟩
    rw [whole_of_token w hc', Option.map_eq_some_iff] at h
    obtain ⟨t, ht, hpair⟩ := h
    obtain ⟨rfl, rfl⟩ := Prod.mk.inj hpair
    have hw := wrote_token hr hc' ht hroom
    exact ⟨0, hw.exec, hw.rest_eq⟩

/-! ## Sessions -/

namespace WriterSession

/-- The integers of the arguments are of their types. -/
def Ranged (s : WriterSession F) : Prop := ∀ c ∈ s.calls, c.Ranged

/-- What has come out and is still to come, and the writer at the end. -/
def total (s : WriterSession F) : Option (List UInt8 × Writer) :=
  (produced s.calls s.writer).map fun q => (s.out ++ s.ring.bytes ++ q.1, q.2)

theorem total_drain (s : WriterSession F) (n : Nat) : (s.drain n).total = s.total := by
  have hbytes : s.out ++ s.ring.bytes.take n ++ s.ring.bytes.drop n = s.out ++ s.ring.bytes := by
    rw [List.append_assoc, List.take_append_drop]
  show (produced s.calls s.writer).map (fun q =>
    (s.out ++ s.ring.bytes.take n ++ s.ring.bytes.drop n ++ q.1, q.2)) = _
  rw [hbytes]
  rfl

theorem call_nil {s : WriterSession F} (h : s.calls = []) : s.call = .ok (true, s) := by
  obtain ⟨calls, ring, writer, out⟩ := s
  cases h
  rfl

theorem call_wrote {c : WriteCall F} {cs rest : List (WriteCall F)} {ring : LoopBuf}
    {w w' : Writer} {out : List UInt8} {n : Nat} {bytes : List UInt8}
    (h : c.exec (ring, w) = .ok n (ring.extendFromSlice bytes, w')) (hrest : c.rest n = .ok rest) :
    call ⟨c :: cs, ring, w, out⟩ =
      .ok (true, ⟨rest ++ cs, ring.extendFromSlice bytes, w', out⟩) := by
  unfold call
  simp only [h, hrest]
  rfl

theorem call_stopped {c : WriteCall F} {cs : List (WriteCall F)} {ring : LoopBuf}
    {w : Writer} {out : List UInt8} {e : WriteStop} (h : c.exec (ring, w) = .error e (ring, w)) :
    call ⟨c :: cs, ring, w, out⟩ =
      if e.isWouldBlock then .ok (false, ⟨c :: cs, ring, w, out⟩) else .error e := by
  unfold call
  simp only [h]

/-- **A call** moves bytes from what is still to come to the ring. -/
theorem total_call {s s' : WriterSession F} {done : Bool} (hr : s.Ranged)
    (h : s.call = .ok (done, s')) : s'.Ranged ∧ s'.total = s.total := by
  obtain ⟨calls, ring, w, out⟩ := s
  cases calls with
  | nil =>
    rw [call_nil rfl] at h
    cases h
    exact ⟨hr, rfl⟩
  | cons c cs =>
    have hcs : ∀ d ∈ cs, d.Ranged := fun d hd => hr d (List.mem_cons_of_mem _ hd)
    rcases exec_spec (hr c List.mem_cons_self) ring w with ⟨n, bytes, rest, w', hw⟩ | ⟨e, he⟩
    · rw [call_wrote hw.exec hw.rest_eq] at h
      cases h
      refine ⟨?_, ?_⟩
      · intro d hd
        rcases List.mem_append.mp hd with hd | hd
        · exact hw.ranged d hd
        · exact hcs d hd
      · unfold total
        rw [hw.produced cs, Option.map_map]
        simp only [LoopBuf.bytes_extendFromSlice ring hw.fits]
        congr 1
        funext q
        simp
    · rw [call_stopped he] at h
      split at h
      · cases h
        exact ⟨hr, rfl⟩
      · cases h

theorem total_step {s s' : WriterSession F} {move : Move} (hr : s.Ranged)
    (h : s.step move = .ok s') : s'.Ranged ∧ s'.total = s.total := by
  cases move with
  | drain n =>
    cases h
    exact ⟨hr, total_drain s n⟩
  | call =>
    cases hcall : s.call with
    | error e =>
      simp only [step, hcall] at h
      cases h
    | ok r =>
      simp only [step, hcall] at h
      cases h
      exact total_call hr (hcall : s.call = .ok (r.1, r.2))

/-- **Whatever the schedule**, what has come out and is still to come stays the same. -/
theorem total_run {moves : List Move} : ∀ {s s' : WriterSession F}, s.Ranged →
    s.run moves = .ok s' → s'.Ranged ∧ s'.total = s.total := by
  induction moves with
  | nil =>
    intro s s' hr h
    cases h
    exact ⟨hr, rfl⟩
  | cons move moves ih =>
    intro s s' hr h
    rw [run, List.foldlM_cons] at h
    cases hstep : s.step move with
    | error e =>
      rw [hstep] at h
      cases h
    | ok s₁ =>
      rw [hstep] at h
      obtain ⟨hr₁, htotal₁⟩ := total_step hr hstep
      obtain ⟨hr', htotal'⟩ := ih hr₁ h
      exact ⟨hr', htotal'.trans htotal₁⟩

theorem total_done {s : WriterSession F} (h : s.calls = []) :
    s.total = some (s.out ++ s.ring.bytes, s.writer) := by
  unfold total
  rw [h]
  simp [produced]

/-- **In a ring that holds all of it** every call is done at once. -/
theorem run_straight : ∀ {calls : List (WriteCall F)} {ring : LoopBuf} {w w' : Writer}
    (out : List UInt8) {bytes : List UInt8}, (∀ c ∈ calls, c.Ranged) →
    produced calls w = some (bytes, w') → bytes.length ≤ ring.spareLen →
    run ⟨calls, ring, w, out⟩ (List.replicate calls.length .call) =
      .ok ⟨[], ring.extendFromSlice bytes, w', out⟩
  | [], ring, w, w', out, bytes, _, hp, _ => by
    cases hp
    simp [run, LoopBuf.extendFromSlice]
    rfl
  | c :: cs, ring, w, w', out, bytes, hr, hp, hroom => by
    rw [produced, Option.bind_eq_some_iff] at hp
    obtain ⟨⟨first, w₁⟩, hfirst, hrest⟩ := hp
    obtain ⟨⟨later, w₂⟩, hlater, hpair⟩ := Option.map_eq_some_iff.mp hrest
    obtain ⟨rfl, rfl⟩ := Prod.mk.inj hpair
    have hroom : first.length + later.length ≤ ring.spareLen := by
      rw [List.length_append] at hroom
      exact hroom
    obtain ⟨n, hexec, hdone⟩ := exec_whole (hr c List.mem_cons_self) hfirst
      (by omega : first.length ≤ ring.spareLen)
    have hstep : step ⟨c :: cs, ring, w, out⟩ .call =
        .ok ⟨cs, ring.extendFromSlice first, w₁, out⟩ := by
      simp only [step, call_wrote hexec hdone]
      rfl
    have hspare := ring.spareLen_extendFromSlice (by omega : first.length ≤ ring.spareLen)
    have hgo := run_straight out (fun d hd => hr d (List.mem_cons_of_mem _ hd)) hlater
      (by omega : later.length ≤ (ring.extendFromSlice first).spareLen)
    rw [LoopBuf.extendFromSlice_append ring hroom] at hgo
    rw [run, List.length_cons, List.replicate_succ, List.foldlM_cons, hstep]
    exact hgo

/-! ## Draining when a call would block -/

theorem retry_done {s : WriterSession F} (fuel : Nat) (h : s.calls = []) :
    retry fuel s = .ok s := by
  obtain ⟨calls, ring, w, out⟩ := s
  cases h
  cases fuel <;> rfl

theorem retry_call {c : WriteCall F} {cs : List (WriteCall F)} {ring : LoopBuf} {w : Writer}
    {out : List UInt8} {s' : WriterSession F} {done : Bool} (fuel : Nat)
    (h : call ⟨c :: cs, ring, w, out⟩ = .ok (done, s')) :
    retry (fuel + 1) ⟨c :: cs, ring, w, out⟩ =
      retry fuel (if done then s' else s'.drain s'.ring.len) := by
  rw [retry, if_neg (by simp), h]
  rfl

theorem total_retry : ∀ {fuel : Nat} {s s' : WriterSession F}, s.Ranged →
    retry fuel s = .ok s' → s'.calls = [] ∧ s'.total = s.total
  | fuel, ⟨[], ring, w, out⟩, s', _, h => by
    rw [retry_done fuel rfl] at h
    cases h
    exact ⟨rfl, rfl⟩
  | 0, ⟨c :: cs, ring, w, out⟩, s', _, h => by cases h
  | fuel + 1, ⟨c :: cs, ring, w, out⟩, s', hr, h => by
    cases hcall : call ⟨c :: cs, ring, w, out⟩ with
    | error e =>
      rw [retry, if_neg (by simp), hcall] at h
      cases h
    | ok r =>
      obtain ⟨done, s₁⟩ := r
      obtain ⟨hr₁, htotal₁⟩ := total_call hr hcall
      rw [retry_call fuel hcall] at h
      cases done with
      | true =>
        obtain ⟨hcalls, htotal⟩ := total_retry hr₁ h
        exact ⟨hcalls, htotal.trans htotal₁⟩
      | false =>
        obtain ⟨hcalls, htotal⟩ := total_retry (s := s₁.drain s₁.ring.len) hr₁ h
        exact ⟨hcalls, htotal.trans ((total_drain s₁ _).trans htotal₁)⟩

/-- In an empty ring of six bytes or more there is room for a character of what is offered. -/
theorem fitting_ne_nil {spare : Nat} {c : Char} {s : Text} (h : 6 ≤ spare) :
    fitting spare (c :: s) ≠ [] := by
  intro hnil
  have := fitting_eq_nil.mp hnil
  have := escapedCharLen_le c
  omega

/-- Content of which a character fits gets shorter by a call. -/
theorem call_content {content : Text} {ring : LoopBuf} (w : Writer) (out : List UInt8)
    (h : fitting ring.spareLen content ≠ []) :
    ∃ (rest : Text) (ring' : LoopBuf), ring'.capacity = ring.capacity ∧
      rest.length < content.length ∧
      call (⟨[.stringContent content], ring, w, out⟩ : WriterSession F) =
        .ok (true, ⟨if rest = [] then [] else [.stringContent rest], ring', w, out⟩) := by
  obtain ⟨rest, hrest⟩ := fitting_start ring.spareLen content
  have hexec := exec_content (F := F) content ring w
  rw [if_neg fun hnone => h hnone.1] at hexec
  have hfrom : sliceFrom content (byteLen (fitting ring.spareLen content)) = .ok rest := by
    have := sliceFrom_byteLen (fitting ring.spareLen content) rest
    rwa [hrest] at this
  have hpos := List.length_pos_iff.mpr h
  refine ⟨rest, ring.extendFromSlice (escaped (fitting ring.spareLen content)), rfl, ?_, ?_⟩
  · have hlen := congrArg List.length hrest
    rw [List.length_append] at hlen
    omega
  · have hleft : (WriteCall.stringContent content : WriteCall F).rest
        (byteLen (fitting ring.spareLen content)) =
        .ok (if rest = [] then [] else [.stringContent rest]) := by
      simp only [WriteCall.rest, hfrom]
      rfl
    rw [call_wrote hexec hleft, List.append_nil]

/-- The session ends if it does with what a call leaves of the content. -/
theorem retry_take (fuel : Nat) {content : Text} {ring : LoopBuf} {w : Writer} {out : List UInt8}
    (h : fitting ring.spareLen content ≠ [])
    (hgo : ∀ (rest : Text) (ring' : LoopBuf), ring'.capacity = ring.capacity →
      rest.length < content.length → ∃ s',
        retry fuel (⟨[.stringContent rest], ring', w, out⟩ : WriterSession F) = .ok s') :
    ∃ s', retry (fuel + 1) (⟨[.stringContent content], ring, w, out⟩ : WriterSession F) =
      .ok s' := by
  obtain ⟨rest, ring', hcap, hlen, hcall⟩ := call_content (F := F) w out h
  rw [retry_call fuel hcall]
  by_cases hnil : rest = []
  · exact ⟨_, retry_done fuel (by simp [hnil])⟩
  · rw [if_pos rfl, if_neg hnil]
    exact hgo rest ring' hcap hlen

/-- **Offering the rest again** comes to an end: a call takes something, or the next one does. -/
theorem retry_content : ∀ (fuel : Nat) {content : Text} {ring : LoopBuf} (w : Writer)
    (out : List UInt8), 6 ≤ ring.capacity → 2 * content.length + 1 ≤ fuel →
    ∃ s', retry fuel (⟨[.stringContent content], ring, w, out⟩ : WriterSession F) = .ok s'
  | fuel, [], ring, w, out, _, hfuel => by
    obtain ⟨fuel, rfl⟩ : ∃ k, fuel = k + 1 := ⟨fuel - 1, by omega⟩
    have hcall : call (⟨[.stringContent []], ring, w, out⟩ : WriterSession F) =
        .ok (true, ⟨[], ring.extendFromSlice [], w, out⟩) := by
      have hexec := exec_content (F := F) [] ring w
      rw [if_neg fun h => h.2 rfl] at hexec
      exact call_wrote hexec rfl
    rw [retry_call fuel hcall]
    exact ⟨_, retry_done fuel rfl⟩
  | 0, _ :: _, _, _, _, _, hfuel => by omega
  | 1, _ :: _, _, _, _, _, hfuel => by rw [List.length_cons] at hfuel; omega
  | fuel + 2, c :: cs, ring, w, out, hcap, hfuel => by
    by_cases hfit : fitting ring.spareLen (c :: cs) = []
    · -- the call would block: the next one is on the empty ring
      have hsmall := fitting_eq_nil.mp hfit
      have hmax := escapedCharLen_le c
      have hblock : noRoom 6 "string content" ring = wouldBlock := if_neg (by omega)
      have hexec := exec_content (F := F) (c :: cs) ring w
      rw [if_pos ⟨hfit, by simp⟩, hblock] at hexec
      rw [retry_call (fuel + 1) (call_stopped hexec)]
      have hempty : (ring.advance ring.len).spareLen = ring.capacity := by
        simp [LoopBuf.spareLen, LoopBuf.advance, LoopBuf.len]
      refine retry_take fuel (by rw [hempty]; exact fitting_ne_nil hcap) ?_
      intro rest ring' hcap' hlen
      exact retry_content fuel _ _ (by rw [hcap']; exact hcap) (by omega)
    · refine retry_take (fuel + 1) hfit ?_
      intro rest ring' hcap' hlen
      exact retry_content (fuel + 1) _ _ (by rw [hcap']; exact hcap) (by omega)

end WriterSession

open WriterSession

/-! ## String content -/

/-- **String content is taken as far as it fits**: the longest start of it whose escaped form is no
longer than the room. Where not even the first character fits nothing happens; a caller that drains
a ring of at least six bytes then gets all of it through, once and in order. -/
theorem content_longest (content : Text) (buf : LoopBuf) (w : Writer) :
    ((∀ c rest, content = c :: rest → (escaped [c]).length ≤ buf.spareLen) →
      ∃ p, p <+: content ∧ (p = [] → content = []) ∧ (escaped p).length ≤ buf.spareLen ∧
        (∀ q, q <+: content → (escaped q).length ≤ buf.spareLen → byteLen q ≤ byteLen p) ∧
        ∃ buf', writeStringContent content (buf, w) = .ok (byteLen p) (buf', w) ∧
          buf'.bytes = buf.bytes ++ escaped p ∧ buf'.capacity = buf.capacity) ∧
    (∀ c rest, content = c :: rest → buf.spareLen < (escaped [c]).length →
      ∃ e, writeStringContent content (buf, w) = .error (.error e) (buf, w)) ∧
    (6 ≤ buf.capacity → ∀ fuel, 2 * content.length + 1 ≤ fuel →
      ∃ s, retry fuel (⟨[.stringContent content], buf, w, []⟩ : WriterSession F) = .ok s ∧
        s.calls = [] ∧ s.writer = w ∧ s.out ++ s.ring.bytes = buf.bytes ++ escaped content) := by
  have hexec : writeStringContent content (buf, w) = _ := exec_content (F := F) content buf w
  refine ⟨?_, ?_, ?_⟩
  · intro hfirst
    have hne : fitting buf.spareLen content = [] → content = [] := by
      intro hnil
      cases content with
      | nil => rfl
      | cons c rest =>
        have hle := hfirst c rest rfl
        rw [length_escaped, escapedLen_singleton] at hle
        have := fitting_eq_nil.mp hnil
        omega
    rw [if_neg fun h => h.2 (hne h.1)] at hexec
    have hfits : (escaped (fitting buf.spareLen content)).length ≤ buf.spareLen := by
      rw [length_escaped]
      exact escapedLen_fitting _ _
    refine ⟨_, fitting_start _ _, hne, hfits, ?_, _, hexec,
      LoopBuf.bytes_extendFromSlice buf hfits, rfl⟩
    intro q hq hle
    rw [length_escaped] at hle
    exact byteLen_le_of_prefix (prefix_fitting hq hle)
  · rintro c rest rfl hlt
    rw [length_escaped, escapedLen_singleton] at hlt
    obtain ⟨e, he⟩ := noRoom_eq 6 "string content" buf
    exact ⟨e, by rw [hexec, if_pos ⟨fitting_eq_nil.mpr hlt, by simp⟩, he]⟩
  · intro hcap fuel hfuel
    obtain ⟨s, hs⟩ := retry_content (F := F) fuel w [] hcap hfuel
    obtain ⟨hcalls, htotal⟩ := total_retry (fun c hc => by
      rw [List.mem_singleton.mp hc]
      trivial) hs
    rw [total_done hcalls] at htotal
    have hwhole : (⟨[.stringContent content], buf, w, []⟩ : WriterSession F).total =
        some (buf.bytes ++ escaped content, w) := by
      simp [total, produced, WriteCall.whole]
    rw [hwhole] at htotal
    obtain ⟨hout, hwriter⟩ := Prod.mk.inj (Option.some.inj htotal)
    exact ⟨s, hs, hcalls, hwriter, hout⟩

/-- Doubles of the one value 0.5. -/
inductive Half where
  | half
deriving DecidableEq, Repr

instance : DoubleText Half where
  isFinite _ := true
  display _ := ['0', '.', '5']

theorem Spans.bytes_split_zero (l : List UInt8) : (Spans.split 0 l).bytes = l := rfl

/-- A ring of six bytes that presents them in one span. -/
def smallRing (bytes : List UInt8) (h : bytes.length ≤ 6) : LoopBuf :=
  ⟨6, bytes, h, Spans.split 0, Spans.bytes_split_zero⟩

theorem content_longest_small :
    (∃ p, p <+: ['a', '"'] ∧ (p = [] → ['a', '"'] = []) ∧ (escaped p).length ≤ 2 ∧
      (∀ q, q <+: ['a', '"'] → (escaped q).length ≤ 2 → byteLen q ≤ byteLen p) ∧
      ∃ buf', writeStringContent ['a', '"'] (smallRing [0x5B, 0x5B, 0x5B, 0x22] (by decide), .new) =
          .ok (byteLen p) (buf', .new) ∧
        buf'.bytes = [0x5B, 0x5B, 0x5B, 0x22] ++ escaped p ∧ buf'.capacity = 6) ∧
    (∃ e, writeStringContent ['\x01'] (smallRing [0x22] (by decide), .new) =
      .error (.error e) (smallRing [0x22] (by decide), .new)) ∧
    ∃ s, retry 5 (⟨[.stringContent ['a', '"']], smallRing [0x22] (by decide), .new, []⟩ :
        WriterSession Half) = .ok s ∧ s.calls = [] ∧ s.writer = .new ∧
      s.out ++ s.ring.bytes = [0x22] ++ escaped ['a', '"'] := by
  refine ⟨?_, ?_, ?_⟩
  · refine (content_longest (F := Half) ['a', '"']
      (smallRing [0x5B, 0x5B, 0x5B, 0x22] (by decide)) .new).1 ?_
    rintro c rest ⟨⟩
    decide
  · exact (content_longest (F := Half) ['\x01'] (smallRing [0x22] (by decide)) .new).2.1 '\x01' []
      rfl (by decide)
  · exact (content_longest (F := Half) ['a', '"'] (smallRing [0x22] (by decide)) .new).2.2
      (by decide) 5 (by decide)

/-! ## Every call -/

/-- A call that puts what another does, of which nothing is left. -/
theorem exec_upTo {c d : WriteCall F} (hr : c.Ranged) {n : Nat} (hd : c.upTo n = .ok d)
    {bytes : List UInt8} {w w' : Writer} (hwhole : d.whole w = some (bytes, w')) {big : LoopBuf}
    (hroom : bytes.length ≤ big.spareLen) :
    ∃ k, d.exec (big, w) = .ok k (big.extendFromSlice bytes, w') := by
  have hranged : d.Ranged := by
    cases c with
    | stringContent content =>
      cases hs : sliceTo content n with
      | error e =>
        simp only [WriteCall.upTo, hs] at hd
        cases hd
      | ok taken =>
        simp only [WriteCall.upTo, hs] at hd
        cases hd
        trivial
    | _ =>
      cases hd
      exact hr
  obtain ⟨k, hexec, -⟩ := exec_whole hranged hwhole hroom
  exact ⟨k, hexec⟩

/-- **The writer is atomic and does not see the ring.** A call that fails leaves the ring and the
writer as they were. A call that returns has put what it puts into any ring with the room, of string
content the part it took. So whatever the ring and whenever it is drained, what comes out is what
one large ring holds after the same calls. -/
theorem writer_transparent :
    (∀ (c : WriteCall F) (buf : LoopBuf) (w : Writer), c.Ranged →
      (∀ e p, c.exec (buf, w) = .error e p → p = (buf, w) ∧ ∃ x, e = .error x) ∧
      ∀ n p, c.exec (buf, w) = .ok n p → ∃ bytes d, c.upTo n = .ok d ∧
        p.1.bytes = buf.bytes ++ bytes ∧ p.1.capacity = buf.capacity ∧
        bytes.length ≤ buf.spareLen ∧
        (∀ content, c = .stringContent content →
          ∃ taken, d = .stringContent taken ∧ bytes = escaped taken) ∧
        ∀ big : LoopBuf, big.bytes = [] → bytes.length ≤ big.capacity →
          ∃ k q, d.exec (big, w) = .ok k q ∧ q.1.bytes = bytes ∧ q.2 = p.2) ∧
    ∀ (calls : List (WriteCall F)) (buf : LoopBuf) (w : Writer) (moves : List Move)
      (s : WriterSession F), (∀ c ∈ calls, c.Ranged) →
      WriterSession.run ⟨calls, buf, w, []⟩ moves = .ok s → s.calls = [] →
      ∀ big : LoopBuf, big.bytes = buf.bytes → (s.out ++ s.ring.bytes).length ≤ big.capacity →
        ∃ s', WriterSession.run ⟨calls, big, w, []⟩ (List.replicate calls.length .call) = .ok s' ∧
          s'.calls = [] ∧ s'.out = [] ∧ s'.ring.bytes = s.out ++ s.ring.bytes ∧
          s'.writer = s.writer := by
  refine ⟨?_, ?_⟩
  -- one call on any ring
  · intro c buf w hr
    rcases exec_spec hr buf w with ⟨n, bytes, rest, w', hw⟩ | ⟨e, he⟩
    · refine ⟨fun e p h => absurd (hw.exec.symm.trans h) (by simp), ?_⟩
      intro n' p h
      rw [hw.exec] at h
      cases h
      obtain ⟨d, hd, hwhole⟩ := hw.upTo
      refine ⟨bytes, d, hd, LoopBuf.bytes_extendFromSlice buf hw.fits, rfl, hw.fits, ?_, ?_⟩
      · rintro content rfl
        cases hs : sliceTo content n with
        | error e =>
          simp only [WriteCall.upTo, hs] at hd
          cases hd
        | ok taken =>
          simp only [WriteCall.upTo, hs] at hd
          cases hd
          exact ⟨taken, rfl, (Prod.mk.inj (Option.some.inj hwhole)).1.symm⟩
      · intro big hbig hcap
        have hroom : bytes.length ≤ big.spareLen := by simpa [LoopBuf.spareLen, hbig] using hcap
        obtain ⟨k, hexec⟩ := exec_upTo hr hd hwhole hroom
        refine ⟨k, _, hexec, ?_, rfl⟩
        simp only [LoopBuf.bytes_extendFromSlice big hroom, hbig, List.nil_append]
    · refine ⟨?_, fun n p h => absurd (he.symm.trans h) (by simp)⟩
      intro e' p h
      rw [he] at h
      cases h
      exact ⟨rfl, e, rfl⟩
  -- a schedule: what is still to be put out and what was make the same bytes at each move
  · intro calls buf w moves s hr hrun hdone big hbig hcap
    obtain ⟨-, htotal⟩ := total_run (s := ⟨calls, buf, w, []⟩) hr hrun
    rw [total_done hdone] at htotal
    obtain ⟨⟨bytes, w'⟩, hproduced, hpair⟩ := Option.map_eq_some_iff.mp htotal.symm
    obtain ⟨hout, rfl⟩ := Prod.mk.inj hpair
    have hall : buf.bytes ++ bytes = s.out ++ s.ring.bytes := by simpa using hout
    have hroom : bytes.length ≤ big.spareLen := by
      rw [← hall, List.length_append] at hcap
      unfold LoopBuf.spareLen
      rw [hbig]
      omega
    refine ⟨_, run_straight [] hr hproduced hroom, rfl, rfl, ?_, rfl⟩
    rw [← hall]
    simp only [LoopBuf.bytes_extendFromSlice big hroom, hbig]

/-- `-7` behind a bracket in a ring of six bytes, and `{"a":0.5` through such a ring, drained of two
of its bytes and later of four. -/
theorem writer_transparent_small :
    (∃ bytes d, (WriteCall.i32 (-7) : WriteCall Half).upTo 0 = .ok d ∧
      [0x5B, 0x2D, 0x37] = [0x5B] ++ bytes ∧ 6 = 6 ∧ bytes.length ≤ 5 ∧
      (∀ content, (WriteCall.i32 (-7) : WriteCall Half) = .stringContent content →
        ∃ taken, d = .stringContent taken ∧ bytes = escaped taken) ∧
      ∀ big : LoopBuf, big.bytes = [] → bytes.length ≤ big.capacity →
        ∃ k q, d.exec (big, .new) = .ok k q ∧ q.1.bytes = bytes ∧
          q.2 = { Writer.new with state := .afterValue }) ∧
    ∃ s' : WriterSession Half,
      WriterSession.run ⟨[.startObject, .key ['a'], .f64 .half],
          .empty 8 (.split 0) Spans.bytes_split_zero, .new, []⟩ (List.replicate 3 .call) = .ok s' ∧
        s'.calls = [] ∧ s'.out = [] ∧
        s'.ring.bytes = [0x7B, 0x22, 0x61, 0x22, 0x3A, 0x30] ++ [0x2E, 0x35] ∧
        s'.writer = ⟨none, .afterValue, 1⟩ := by
  refine ⟨?_, ?_⟩
  · exact ((writer_transparent (F := Half)).1 (.i32 (-7)) (smallRing [0x5B] (by decide)) .new
      ⟨by decide, by decide⟩).2 0 (smallRing [0x5B, 0x2D, 0x37] (by decide),
        { Writer.new with state := .afterValue }) rfl
  · refine (writer_transparent (F := Half)).2 [.startObject, .key ['a'], .f64 .half]
      (smallRing [] (by decide)) .new [.call, .call, .call, .drain 2, .call, .drain 4]
      ⟨[], smallRing [0x2E, 0x35] (by decide), ⟨none, .afterValue, 1⟩,
        [0x7B, 0x22, 0x61, 0x22, 0x3A, 0x30]⟩ ?_ rfl rfl
      (.empty 8 (.split 0) Spans.bytes_split_zero) rfl
      (by decide)
    intro c hc
    simp only [List.mem_cons, List.not_mem_nil, or_false] at hc
    rcases hc with rfl | rfl | rfl <;> trivial

/-! ## What an error says -/

/-- What a call says that fails is so: after `WouldBlock` it succeeds on the ring once that is
drained, after `InvalidInput` it still fails. -/
def Truthful (c : WriteCall F) (buf : LoopBuf) (w : Writer) : Prop :=
  ∀ e p, c.exec (buf, w) = .error (.error e) p →
    (e.kind = .wouldBlock → ∃ n q, c.exec (p.1.advance p.1.len, p.2) = .ok n q) ∧
    (e.kind = .invalidInput → ∃ e' q, c.exec (p.1.advance p.1.len, p.2) = .error e' q)

/-- A ring smaller than the longest character is too small for content, as `write_string_content`
says. It is so even if the character at hand would fit once it is drained. -/
def Overlooked (c : WriteCall F) (buf : LoopBuf) : Prop :=
  ∃ ch rest, c = .stringContent (ch :: rest) ∧ buf.capacity < 6 ∧
    buf.spareLen < escapedCharLen ch ∧ escapedCharLen ch ≤ buf.capacity

theorem spareLen_drained (buf : LoopBuf) : (buf.advance buf.len).spareLen = buf.capacity := by
  simp [LoopBuf.spareLen, LoopBuf.advance, LoopBuf.len]

/-- The error of a token that there is no room for. -/
theorem noRoom_kind {need : Nat} {what : String} {buf : LoopBuf} {e : WriteError}
    (h : noRoom need what buf = .error e) :
    (e.kind = .wouldBlock → need ≤ buf.capacity) ∧
      (e.kind = .invalidInput → buf.capacity < need) := by
  unfold noRoom at h
  split at h
  · next hcap =>
    cases h
    exact ⟨fun hk => (by cases hk), fun _ => hcap⟩
  · next hcap =>
    cases h
    exact ⟨fun _ => Nat.le_of_not_lt hcap, fun hk => (by cases hk)⟩

theorem truthful_token {c : WriteCall F} (hr : c.Ranged) (buf : LoopBuf) {w : Writer} {t : Token}
    (ht : c.token w = some t) : Truthful c buf w := by
  intro e p h
  have hdrained : c.exec (buf.advance buf.len, w) = t.call (buf.advance buf.len) w :=
    exec_token hr ht
  rw [exec_token hr ht, Token.call] at h
  split at h
  · cases h
  · obtain ⟨herror, rfl⟩ := EStateM.Result.error.inj h
    obtain ⟨hblock, hinvalid⟩ := noRoom_kind herror
    rw [Token.call, spareLen_drained] at hdrained
    refine ⟨?_, ?_⟩
    · intro hk
      exact ⟨_, _, by rw [hdrained, if_pos (hblock hk)]⟩
    · intro hk
      exact ⟨_, _, by rw [hdrained, if_neg (Nat.not_le_of_lt (hinvalid hk))]⟩

omit [DoubleText F] in
theorem overlooked_cons {c : Char} {rest : Text} {buf : LoopBuf} :
    Overlooked (.stringContent (c :: rest) : WriteCall F) buf ↔
      buf.capacity < 6 ∧ buf.spareLen < escapedCharLen c ∧ escapedCharLen c ≤ buf.capacity := by
  constructor
  · rintro ⟨_, _, ⟨⟩, h⟩
    exact h
  · intro h
    exact ⟨c, rest, rfl, h⟩

theorem truthful_content {content : Text} {buf : LoopBuf} {w : Writer} :
    Truthful (.stringContent content : WriteCall F) buf w ↔
      ¬ Overlooked (.stringContent content : WriteCall F) buf := by
  have hexec := exec_content (F := F) content buf w
  have hdrained := exec_content (F := F) content (buf.advance buf.len) w
  rw [spareLen_drained] at hdrained
  cases content with
  | nil =>
    rw [if_neg fun h => h.2 rfl] at hexec
    refine iff_of_true (fun e p h => absurd (hexec.symm.trans h) (by simp)) ?_
    rintro ⟨_, _, ⟨⟩, -⟩
  | cons c rest =>
    simp only [fitting_eq_nil, ne_eq, reduceCtorEq, not_false_eq_true, and_true] at hexec hdrained
    rw [overlooked_cons]
    by_cases hfirst : buf.spareLen < escapedCharLen c
    · rw [if_pos hfirst] at hexec
      have hmax := escapedCharLen_le c
      constructor
      · -- it failed, so it fails on the drained ring if the ring is too small to look further
        rintro htrue ⟨hsmall, -, hfits⟩
        obtain ⟨e, he⟩ := noRoom_eq 6 "string content" buf
        have hkind : e.kind = .invalidInput := by
          rw [noRoom, if_pos hsmall] at he
          cases he
          rfl
        rw [he] at hexec
        obtain ⟨e', q, hfail⟩ := (htrue e _ hexec).2 hkind
        rw [if_neg (Nat.not_lt_of_le hfits)] at hdrained
        exact absurd (hdrained.symm.trans hfail) (by simp)
      · intro hseen e p h
        rw [hexec] at h
        obtain ⟨herror, rfl⟩ := EStateM.Result.error.inj h
        obtain ⟨hblock, hinvalid⟩ := noRoom_kind herror
        refine ⟨?_, ?_⟩
        · intro hk
          have := hblock hk
          exact ⟨_, _, by rw [hdrained, if_neg (by omega)]⟩
        · intro hk
          have := hinvalid hk
          exact ⟨_, _, by rw [hdrained, if_pos (by omega)]⟩
    · rw [if_neg hfirst] at hexec
      exact iff_of_true (fun e p h => absurd (hexec.symm.trans h) (by simp)) fun h => hfirst h.2.1

/-- A call for one token, or for what JSON cannot represent. -/
theorem truthful_of_ne {c : WriteCall F} (hr : c.Ranged)
    (hc : ∀ content, c ≠ .stringContent content)
    (buf : LoopBuf) (w : Writer) : Truthful c buf w := by
  cases ht : c.token w with
  | some t => exact truthful_token hr buf ht
  | none =>
    -- what JSON cannot represent it cannot represent later either
    intro e p h
    obtain ⟨m, hm⟩ : ∃ m, c.exec (buf, w) = .error (.error ⟨.invalidInput, m⟩) (buf, w) :=
      exec_unwritable ht hc
    rw [hm] at h
    cases h
    refine ⟨fun hk => (by cases hk), fun _ => ?_⟩
    obtain ⟨m', hm'⟩ : ∃ m', c.exec (buf.advance buf.len, w) =
      .error (.error ⟨.invalidInput, m'⟩) (buf.advance buf.len, w) := exec_unwritable ht hc
    exact ⟨_, _, hm'⟩

/-- **An error tells the truth about repeating the call** except for string content that is offered
to a ring of fewer than six bytes whose first character would fit it once it is drained. -/
theorem errors_truthful {c : WriteCall F} (hr : c.Ranged) (buf : LoopBuf) (w : Writer) :
    Truthful c buf w ↔ ¬ Overlooked c buf := by
  by_cases hc : ∃ content, c = .stringContent content
  · obtain ⟨content, rfl⟩ := hc
    exact truthful_content
  · exact iff_of_true (truthful_of_ne hr (fun s hs => hc ⟨s, hs⟩) buf w)
      fun ⟨ch, rest, h, _⟩ => hc ⟨_, h⟩

/-- Content that may be written later is not overlooked. -/
theorem not_overlooked_of_wouldBlock {content : Text} {buf : LoopBuf} {w : Writer} {e : WriteError}
    {p : LoopBuf × Writer}
    (h : writeStringContent content (buf, w) = .error (.error e) p) (hk : e.kind = .wouldBlock) :
    ¬ Overlooked (.stringContent content : WriteCall F) buf := by
  rintro ⟨ch, rest, -, hsmall, -⟩
  have hexec : writeStringContent content (buf, w) = _ := exec_content (F := F) content buf w
  rw [hexec] at h
  split_ifs at h
  obtain ⟨herror, -⟩ := EStateM.Result.error.inj h
  exact absurd ((noRoom_kind herror).1 hk) (by omega)

/-- **After `WouldBlock` every call succeeds** on the ring once that is drained. -/
theorem wouldBlock_truthful {c : WriteCall F} (hr : c.Ranged) {buf : LoopBuf} {w : Writer}
    {e : WriteError} {p : LoopBuf × Writer} (h : c.exec (buf, w) = .error (.error e) p)
    (hk : e.kind = .wouldBlock) : ∃ n q, c.exec (p.1.advance p.1.len, p.2) = .ok n q := by
  by_cases hc : ∃ content, c = .stringContent content
  · obtain ⟨content, rfl⟩ := hc
    exact (truthful_content.mpr (not_overlooked_of_wouldBlock h hk) e p h).1 hk
  · exact (truthful_of_ne hr (fun s hs => hc ⟨s, hs⟩) buf w e p h).1 hk

/-- A ring of four bytes that presents them in one span. -/
def tinyRing (bytes : List UInt8) (h : bytes.length ≤ 4) : LoopBuf :=
  ⟨4, bytes, h, Spans.split 0, Spans.bytes_split_zero⟩

/-- A key that there is room for in the ring once it is drained. -/
theorem errors_truthful_key :
    Truthful (.key [] : WriteCall Half) (tinyRing [0x7B, 0x7B] (by decide)) .new :=
  (errors_truthful (c := (.key [] : WriteCall Half)) trivial _ _).mpr
    fun ⟨_, _, h, _⟩ => by cases h

/-- `é` is called too large for a ring of four bytes that has room for one, and is taken by it once
it is drained. -/
theorem errors_truthful_fails :
    ¬ Truthful (.stringContent ['é'] : WriteCall Half)
      (tinyRing [0x61, 0x62, 0x22] (by decide)) .new := by
  intro h
  have hfail : (WriteCall.stringContent ['é'] : WriteCall Half).exec
      (tinyRing [0x61, 0x62, 0x22] (by decide), .new) =
      .error (noRoom 6 "string content" (tinyRing [0x61, 0x62, 0x22] (by decide)))
        (tinyRing [0x61, 0x62, 0x22] (by decide), .new) := rfl
  obtain ⟨e, q, hdrained⟩ := (h _ _ hfail).2 rfl
  have hok : (WriteCall.stringContent ['é'] : WriteCall Half).exec
      ((tinyRing [0x61, 0x62, 0x22] (by decide)).advance 3, .new) =
      .ok 2 (tinyRing [0xC3, 0xA9] (by decide), .new) := rfl
  exact absurd (hok.symm.trans hdrained) (by simp)

end RJsonParser
