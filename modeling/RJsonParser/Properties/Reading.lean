import RJsonParser.Properties.Callbacks

/-!
# Reading a source

`parse` reads a source into a ring of its own. It comes to the same as the whole document in one
chunk, whatever the reader returns at a time, and a reader that fails never makes a document of what
it returned before.

* `Reader.Supplies` — what a reader still has to return, and how it ends
* `parseLoop_ops` — the loop of `parse` as steps of a caller
* `parse_exact` — a source that ends
* `parse_interrupted` — a source that fails
-/

namespace RJsonParser

open Infra Infra.Utf8

variable {F σ : Type}

/-! ## Readers -/

/-- The reader returns the bytes `left source` in pieces of any size that the buffer holds, and
then nothing more or an error. -/
structure Reader.Supplies (reader : Reader σ) (left : σ → List UInt8) (fate : Except String Unit) :
    Prop where
  piece : ∀ source n, 0 < n → left source ≠ [] → ∃ bytes source',
    reader.read source n = (.ok bytes, source') ∧ bytes ≠ [] ∧ left source = bytes ++ left source'
  done : ∀ source n, 0 < n → left source = [] →
    (reader.read source n).1 = fate.map fun _ => []

/-- The end of the loop of `parse`. -/
def ended : Except String Unit → SessionM F Unit
  | .ok () => pure ()
  | .error e => throw (.err s!"I/O error reading stream: {e}")

variable [Double F]

section Loop

variable {h : Handler F} {reader : Reader σ} {rooms : Nat → Room} {left : σ → List UInt8}
  {fate : Except String Unit} {s₀ s : Session F} {km : Nat}

/-- Operations run one part after the other. -/
theorem run_append_ops (ops ops' : List Op) (s : Session F) :
    run h (ops ++ ops') s = (run h ops >>= fun _ => run h ops') s := by
  induction ops generalizing s with
  | nil => rfl
  | cons op ops ih =>
    rw [List.cons_append, run_cons]
    show _ = ((op.exec h >>= fun _ => run h ops) >>= fun _ => run h ops') s
    rw [bind_assoc]
    cases hx : op.exec h s with
    | ok a s' =>
      rw [bind_of_ok hx]
      exact ih s'
    | error e s' => rw [bind_of_error hx]

/-- One iteration of the loop of `parse`, where the ring has room. -/
theorem parseLoop_succ (fuel n : Nat) (source : σ) (s : Session F)
    (hspare : (rooms n).spare s.buf ≠ 0) :
    parseLoop h reader rooms (fuel + 1) n source s =
      match reader.read source ((rooms n).spare s.buf) with
      | (.error e, _) => .error (.err s!"I/O error reading stream: {e}") s
      | (.ok bytes, source) =>
        if bytes = [] then .ok () s
        else (Parser.receive h >>= fun _ => parseLoop h reader rooms fuel (n + 1) source)
          { s with buf := s.buf.write bytes (rooms n).layout } := by
  rw [parseLoop]
  show (if (rooms n).spare s.buf = 0 then _ else _ : SessionM F Unit) s = _
  rw [if_neg hspare]
  rcases reader.read source ((rooms n).spare s.buf) with ⟨e | bytes, source'⟩
  · rfl
  · show (if bytes = [] then _ else _ : SessionM F Unit) s = _
    by_cases hnil : bytes = []
    · rw [if_pos hnil]
      simp only [if_pos hnil]
      rfl
    · rw [if_neg hnil]
      simp only [if_neg hnil]
      rfl

/-- **The loop of `parse`** is some steps that find room for all that the reader has to return. -/
theorem parseLoop_ops (hreader : reader.Supplies left fate) {fuel n : Nat} {source : σ}
    {stream : List UInt8} {new : List (Call F)} (hfuel : (left source).length < fuel)
    (hr : s₀.Reads km h s stream new) (hspare : 0 < s.buf.spareLen) :
    ∃ ops : List Op, (∀ op ∈ ops, op.Presents) ∧ offered ops = left source ∧ Fits h ops s ∧
      parseLoop h reader rooms fuel n source s = (run h ops >>= fun _ => ended fate) s := by
  induction fuel generalizing n source stream new s with
  | zero => cases hfuel
  | succ fuel ih =>
    have hpos := (rooms n).spare_pos _ hspare
    rw [parseLoop_succ _ _ _ _ hpos.ne']
    by_cases hleft : left source = []
    · refine ⟨[], by simp, hleft.symm, trivial, ?_⟩
      have hdone := hreader.done source _ hpos hleft
      cases fate with
      | ok u =>
        rw [show reader.read source ((rooms n).spare s.buf) =
          (.ok [], (reader.read source ((rooms n).spare s.buf)).2) from Prod.ext hdone rfl]
        rfl
      | error e =>
        rw [show reader.read source ((rooms n).spare s.buf) =
          (.error e, (reader.read source ((rooms n).spare s.buf)).2) from Prod.ext hdone rfl]
        rfl
    · obtain ⟨bytes, source', hread, hne, heq⟩ := hreader.piece source _ hpos hleft
      have hfit : bytes.length ≤ s.buf.spareLen :=
        (reader.length_le source _ bytes (by rw [hread])).trans ((rooms n).spare_le _)
      have hbytes : 0 < bytes.length := List.length_pos_iff.mpr hne
      have hless : (left source').length < fuel := by
        rw [heq, List.length_append] at hfuel
        omega
      simp only [hread, if_neg hne]
      have hw := hr.write bytes (rooms n).layout
      set s₁ : Session F := { s with buf := s.buf.write bytes (rooms n).layout } with hs₁
      have hne₁ : s₁.buf.bytes ≠ [] := by
        show s.buf.bytes ++ bytes.take s.buf.spareLen ≠ []
        rw [List.take_of_length_le hfit]
        exact fun hnil => hne (List.append_eq_nil_iff.mp hnil).2
      have hrun (ops : List Op) : run h (.write bytes (rooms n).layout :: .receive :: ops) s =
        (Parser.receive h >>= fun _ => run h ops) s₁ := rfl
      have hspec := hw.receive
      cases hx : Parser.receive h s₁ with
      | ok a s₂ =>
        rw [ensures_ok hx] at hspec
        obtain ⟨hfull, -, -, more, hr₂, -⟩ := hspec
        have hspare₂ : 0 < s₂.buf.spareLen := by
          have hroom := hfull hne₁
          have := s₂.buf.fits
          simp only [LoopBuf.isFull, beq_eq_false_iff_ne] at hroom
          rw [LoopBuf.spareLen]
          omega
        obtain ⟨ops, hops, hoffered, hfits, hloop⟩ := ih hless hr₂ hspare₂
        refine ⟨.write bytes (rooms n).layout :: .receive :: ops, ?_, ?_, ⟨hfit, ?_⟩, ?_⟩
        · simpa [Op.Presents] using hops
        · rw [heq, ← hoffered]
          rfl
        · intro s' hs'
          rw [show Parser.receive h s₁ = .ok () s' from hs'] at hx
          cases hx
          exact hfits
        · show _ = EStateM.bind (run h (.write bytes (rooms n).layout :: .receive :: ops)) _ s
          rw [bind_of_ok hx, hloop, EStateM.bind, hrun, bind_of_ok hx]
          rfl
      | error e s₂ =>
        -- what the reader still has makes no difference
        refine ⟨[.write bytes (rooms n).layout, .receive, .write (left source') (rooms n).layout],
          by simp [Op.Presents], ?_, ⟨hfit, ?_⟩, ?_⟩
        · rw [heq]
          simp [offered]
        · intro s' hs'
          rw [show Parser.receive h s₁ = .ok () s' from hs'] at hx
          cases hx
        · show _ = EStateM.bind (run h [.write bytes (rooms n).layout, .receive, _]) _ s
          rw [bind_of_error hx, EStateM.bind, hrun, bind_of_error hx]

end Loop

/-! ## `parse` -/

section Parse

variable {h : Handler F} {reader : Reader σ} {left : σ → List UInt8} {s : Session F}

omit [Double F] in
theorem Room.layout_bytes (room : Room) (l : List UInt8) : (room.layout.1 l).bytes = l :=
  room.layout.2 l

/-- The session at the head of the loop of `parse`. -/
def Session.reading (s : Session F) (room : Room) : Session F :=
  ⟨s.parser.reset, .empty s.parser.bufferSize room.layout.1 room.layout_bytes⟩

omit [Double F] in
theorem Session.reading_configure (s : Session F) (room : Room) :
    (s.reading room).configure s.parser.limits s.parser.rejectDuplicateKeys
      s.parser.stringChunkSize = s.reading room := rfl

theorem Reachable.reading (hs : Reachable h s) (room : Room) : (s.reading room).AtStart h where
  reachable := (hs.step .reset).step (.ring s.parser.bufferSize room.layout)
  fresh := rfl
  empty := rfl

/-- **`parse`** is some steps that present all that the reader has to return, and `close` if the
reader does not fail. -/
theorem parse_ops {fate : Except String Unit} (hs : Reachable h s)
    (hreader : reader.Supplies left fate) (rooms : Nat → Room) (source : σ) {fuel : Nat}
    (hfuel : (left source).length < fuel) (hsize : 0 < s.parser.bufferSize) :
    ∃ ops : List Op, (∀ op ∈ ops, op.Presents) ∧ offered ops = left source ∧
      Fits h ops (s.reading (rooms 0)) ∧ parse h reader rooms fuel source s =
        (run h ops >>= fun _ => ended fate >>= fun _ => Parser.close h) (s.reading (rooms 0)) := by
  have hstart := hs.reading (rooms 0)
  obtain ⟨km, hi⟩ := hstart.reachable.inv
  have hspare : 0 < (s.reading (rooms 0)).buf.spareLen := by
    rw [LoopBuf.spareLen, hstart.empty]
    exact hsize
  obtain ⟨ops, hops, hoffered, hfits, hloop⟩ :=
    parseLoop_ops hreader hfuel (hstart.reads hi) hspare
  refine ⟨ops, hops, hoffered, hfits, ?_⟩
  show (parseLoop h reader rooms fuel 0 source >>= fun _ => Parser.close h)
    (s.reading (rooms 0)) = _
  rw [← bind_assoc]
  show EStateM.bind _ _ _ = EStateM.bind _ _ _
  rw [EStateM.bind, EStateM.bind, hloop]

/-- **`parse` reads any source that ends**, in whatever pieces the reader returns it, through a ring
that its keys fit: it succeeds if the source is a document within the limits, and calls back all of
it. -/
theorem parse_exact (hs : Reachable h s) (hh : h.NeverErrs)
    (hreader : reader.Supplies left (.ok ()))
    (rooms : Nat → Room) (source : σ) {fuel : Nat} (hfuel : (left source).length < fuel)
    (hsize : 0 < s.parser.bufferSize)
    (hring : ∀ t, Document (left source) t → RingHolds s.parser.bufferSize (left source) t)
    (hkeys : ∀ t, Document (left source) t → ∀ k ∈ t.keys,
      byteLen k.text ≤ s.parser.stringChunkSize) :
    ((∃ s', parse h reader rooms fuel source s = .ok () s') ↔ ∃ t, Document (left source) t ∧
      t.measure.Fits s.parser.limits 0 0 ∧
      (s.parser.rejectDuplicateKeys = true → t.distinct = true) ∧
      exceeds s.parser.limits.maxDocumentLength (left source).length = false) ∧
    ∀ before t after, Parts (left source) before t after →
      ∀ s', parse h reader rooms fuel source s = .ok () s' → ∃ new,
        s'.parser.calls = s.parser.calls ++ new ∧ explode (new.map Call.event) =
          documentCallbacks (h.needsWhitespace s.parser.calls) before t after := by
  have hstart := hs.reading (rooms 0)
  obtain ⟨ops, hops, hoffered, hfits, hparse⟩ := parse_ops hs hreader rooms source hfuel hsize
  have hclose : (fun _ : Unit => Parser.close h) = fun _ => run h [.close] :=
    funext fun _ => funext fun s => (run_close s).symm
  have hrun :
      parse h reader rooms fuel source s = run h (ops ++ [.close]) (s.reading (rooms 0)) := by
    rw [hparse, run_append_ops, ← hclose]
    rfl
  have hok (s' : Session F) : parse h reader rooms fuel source s = .ok () s' →
      outcome h (ops ++ [.close]) (s.reading (rooms 0)) = (.ok (), s') := by
    intro hp
    rw [outcome, ← hrun, hp]
  have exact {before : Ws} {t : Tree} {after : Ws} (hp : Parts (left source) before t after) :=
    callbacks_exact hstart hh s.parser.limits s.parser.rejectDuplicateKeys
      s.parser.stringChunkSize hp (hkeys t (document_iff_parts.mpr ⟨before, after, hp⟩)) hops
      hoffered hfits (hring t (document_iff_parts.mpr ⟨before, after, hp⟩))
  rw [Session.reading_configure] at exact
  refine ⟨⟨?_, ?_⟩, ?_⟩
  · rintro ⟨s', hp⟩
    have hout := hok s' hp
    obtain ⟨t, ht⟩ := hstart.document_of_ok hops hfits (by rw [hout])
    rw [hoffered] at ht
    obtain ⟨before, after, hparts⟩ := document_iff_parts.mp ht
    obtain ⟨-, new, -, hiff, -⟩ := exact hparts
    exact ⟨t, ht, hiff.mp (by rw [hout])⟩
  · rintro ⟨t, ht, hall⟩
    obtain ⟨before, after, hparts⟩ := document_iff_parts.mp ht
    obtain ⟨-, new, -, hiff, -⟩ := exact hparts
    have hout := hiff.mpr hall
    rw [hrun]
    unfold outcome at hout
    cases hx : run h (ops ++ [.close]) (s.reading (rooms 0)) with
    | ok a s' => exact ⟨s', rfl⟩
    | error e s' =>
      rw [hx] at hout
      cases hout
  · intro before t after hparts s' hp
    have hout := hok s' hp
    obtain ⟨-, new, hcalls, -, hall, -⟩ := exact hparts
    rw [hout] at hcalls hall
    exact ⟨new, hcalls, hall rfl⟩

/-- A reader that returns two bytes at a time. -/
def byTwos (fate : Except String Unit) : Reader (List UInt8) where
  read l n :=
    if l = [] then (fate.map fun _ => [], []) else (.ok (l.take (min n 2)), l.drop (min n 2))
  length_le l n bytes h := by
    split at h
    · cases fate with
      | ok u =>
        cases h
        exact Nat.zero_le n
      | error e => cases h
    · cases h
      exact (List.length_take_le _ l).trans (min_le_left n 2)

/-- It supplies the bytes that it is given. -/
theorem byTwos_supplies (fate : Except String Unit) : (byTwos fate).Supplies id fate where
  piece l n hn hl := by
    refine ⟨l.take (min n 2), l.drop (min n 2), if_neg hl, ?_, (List.take_append_drop _ l).symm⟩
    rw [Ne, List.take_eq_nil_iff]
    rintro (h | h)
    · omega
    · exact hl h
  done l n _ hl := congrArg Prod.fst (if_pos hl)

/-- All of the spare room, and the contents in two spans, the second starting at `wrap`. -/
def Room.whole (wrap : Nat) : Room := ⟨LoopBuf.spareLen, fun _ => le_rfl, fun _ => id, .split wrap⟩

/-- ` [null ]`, two bytes at a time, through a ring of 12 bytes that wraps elsewhere at each
read. -/
theorem parse_exact_pairs :
    let s : Session Rat := ⟨.withBufferSize [] 12, .empty 12 (Spans.split 0) fun _ => rfl⟩
    let l : List UInt8 := [0x20, 0x5B, 0x6E, 0x75, 0x6C, 0x6C, 0x20, 0x5D]
    ∃ s', parse .accepting (byTwos (.ok ())) .whole 9 l s = .ok () s' := by
  intro s l
  have hs : Reachable .accepting s := .new [] 12 12 (.split 0)
  have ht : Document l spacedTree :=
    ⟨[], ⟨[0x20], isWs_of_mem_space⟩, ⟨[], isWs_of_mem_nil⟩, .inl rfl, rfl⟩
  refine (parse_exact hs (fun _ => rfl) (byTwos_supplies (.ok ())) .whole l (by decide) (by decide)
    (fun t ht => .inl (by decide)) fun t ht k hk => (ht.byteLen_key hk).trans (by decide)).1.mpr
      ⟨spacedTree, ht, ⟨rfl, rfl, by decide, by decide, by decide⟩, by decide, rfl⟩

/-- The front of a document that is accepted is read without an error. -/
theorem reads_goes {s₀ : Session F} {km : Nat} {l stream rest : List UInt8} {new : List (Call F)}
    {os : List (Mark F)} (hh : h.NeverErrs) {capacity : Nat} (hroom : s₀.Roomy h l capacity)
    (hends : Ends s₀.parser.limits (s₀.parser.core h) l true os)
    (hlen : exceeds s₀.parser.limits.maxDocumentLength l.length = false)
    (hkeys : s₀.KeysFit h l s₀.parser.stringChunkSize) {ops : List Op}
    (hops : ∀ op ∈ ops, op.Presents) (hr : s₀.Reads km h s stream new)
    (hn : s.parser.stringChunkSize = s₀.parser.stringChunkSize) (hcap : s.buf.capacity = capacity)
    (hfits : Fits h ops s) (hl : l = stream ++ (offered ops ++ rest)) :
    Ensures (run h ops) s
      (fun _ s' => ∃ more, s₀.Reads km h s' (stream ++ offered ops) (new ++ more))
      (fun _ _ => False) := by
  induction ops generalizing s stream new with
  | nil => exact ⟨[], by simpa [offered] using hr⟩
  | cons op ops ih =>
    have ih' {s : Session F} {stream : List UInt8} {new : List (Call F)}
        (hr : s₀.Reads km h s stream new) :=
      ih (fun op hop => hops op (List.mem_cons_of_mem _ hop)) hr
    rw [run, ensures_bind]
    cases op with
    | write bytes layout =>
      obtain ⟨hfit, hfits⟩ := hfits
      have hw := hr.write bytes layout
      rw [List.take_of_length_le hfit] at hw
      rw [offered, ← List.append_assoc]
      exact ih' hw hn hcap hfits (by rw [hl, offered]; simp)
    | receive =>
      subst hcap
      refine Ensures.mono (x := Parser.receive h)
        (hr.receive_comes hh hl hn hroom).and_result ?_ ?_
      · rintro ⟨⟩ s₁ ⟨heq, hsame, ⟨k, -, hbuf⟩, more, hr₁⟩
        refine (ih' hr₁ (hsame.stringChunkSize.trans hn) (by rw [hbuf]; rfl) (hfits s₁ heq) hl).mono
          ?_ fun _ _ h => h
        rintro - s' ⟨more', h'⟩
        exact ⟨more ++ more', by rwa [List.append_assoc] at h'⟩
      · rintro e s₁ ⟨-, more, -, hcomes⟩
        cases (hcomes.of_ends hends hlen hkeys).1.mpr rfl
    | close | ring | reset | setLimits | setRejectDuplicateKeys | setStringChunkSize =>
      exact False.elim (hops _ List.mem_cons_self)

/-- **A source that fails makes no document.** If the reader returns an error `parse` does not
succeed; and where what it returned before is the front of a document that would be accepted, the
error is reported as it is, and the front of what that document calls back was called back. -/
theorem parse_interrupted {e : String} (hs : Reachable h s) (hh : h.NeverErrs)
    (hreader : reader.Supplies left (.error e)) (rooms : Nat → Room) (source : σ) {fuel : Nat}
    (hfuel : (left source).length < fuel) (hsize : 0 < s.parser.bufferSize) :
    (∀ s', parse h reader rooms fuel source s ≠ .ok () s') ∧
    ∀ l before t after, left source <+: l → Parts l before t after →
      RingHolds s.parser.bufferSize l t →
        (∀ k ∈ t.keys, byteLen k.text ≤ s.parser.stringChunkSize) →
      t.measure.Fits s.parser.limits 0 0 →
      (s.parser.rejectDuplicateKeys = true → t.distinct = true) →
      exceeds s.parser.limits.maxDocumentLength l.length = false →
      ∃ s' new, parse h reader rooms fuel source s =
          .error (.err s!"I/O error reading stream: {e}") s' ∧
        s'.parser.calls = s.parser.calls ++ new ∧ explode (new.map Call.event) <+:
          documentCallbacks (h.needsWhitespace s.parser.calls) before t after := by
  have hstart := hs.reading (rooms 0)
  obtain ⟨ops, hops, hoffered, hfits, hparse⟩ := parse_ops hs hreader rooms source hfuel hsize
  -- after the reader failed there is no `close`, so the result is an error either way
  refine ⟨fun s' hp => ?_, ?_⟩
  · rw [hparse] at hp
    cases hx : run h ops (s.reading (rooms 0)) with
    | ok a s₁ =>
      rw [bind_of_ok hx] at hp
      cases hp
    | error e s₁ =>
      rw [bind_of_error hx] at hp
      cases hp
  intro l before t after hfront hparts hring hkeys hsizes hdistinct hlen
  have ht : Document l t := document_iff_parts.mpr ⟨before, after, hparts⟩
  have hcore : ((s.reading (rooms 0)).parser.core h).Starts := by
    rw [hstart.core]
    exact Core.start_starts _ _
  have hwanted : ((s.reading (rooms 0)).parser.core h).needsWhitespace =
      h.needsWhitespace s.parser.calls := by
    rw [hstart.core]
    rfl
  obtain ⟨os, hends⟩ : ∃ os : List (Mark F), Ends s.parser.limits
      ((s.reading (rooms 0)).parser.core h) l true os :=
    (ht.verdict hcore (by rw [hstart.core]; rfl)).mpr
      ⟨hsizes, fun hr => hdistinct (by rwa [hstart.core] at hr)⟩
  obtain ⟨rest, rfl⟩ := hfront
  obtain ⟨km, hi⟩ := hstart.reachable.inv
  have hgoes := reads_goes hh (ht.roomy hcore hring) hends hlen (ht.keysFit hcore hkeys) hops
    (hstart.reads hi) rfl rfl hfits (by rw [hoffered]; rfl)
  rw [hparse]
  cases hx : run h ops (s.reading (rooms 0)) with
  | error e s₁ =>
    unfold Ensures at hgoes
    rw [hx] at hgoes
    exact hgoes.elim
  | ok a s₁ =>
    rw [ensures_ok hx] at hgoes
    obtain ⟨new, hreads⟩ := hgoes
    rw [List.nil_append] at hreads
    refine ⟨s₁, new, by rw [bind_of_ok hx]; rfl, hreads.calls, ?_⟩
    have hsteps := hreads.steps
    rw [List.nil_append, hoffered] at hsteps
    obtain ⟨os', rfl, -⟩ := hends.of_steps_iff (hsteps.append rest)
    rw [← hwanted, ← (hparts.ends hcore hends).2 rfl, eventsOf_append, eventsOf_marks]
    exact List.prefix_append ..

/-- ` [nu` and then an error, where ` [null ]` might have come. -/
theorem parse_interrupted_pairs :
    let s : Session Rat := ⟨.withBufferSize [] 12, .empty 12 (Spans.split 0) fun _ => rfl⟩
    let l : List UInt8 := [0x20, 0x5B, 0x6E, 0x75]
    let e := "connection reset"
    ∃ s' new, parse .accepting (byTwos (.error e)) .whole 5 l s =
        .error (.err s!"I/O error reading stream: {e}") s' ∧
      s'.parser.calls = s.parser.calls ++ new ∧ explode (new.map Call.event) <+:
        [.whitespace [' '], .startArray, .nullValue, .whitespace [' '], .endArray] := by
  intro s l e
  have hs : Reachable .accepting s := .new [] 12 12 (.split 0)
  have hp : Parts (l ++ [0x6C, 0x6C, 0x20, 0x5D])
      ⟨[0x20], isWs_of_mem_space⟩ spacedTree ⟨[], isWs_of_mem_nil⟩ :=
    ⟨[], .inl rfl, rfl⟩
  exact (parse_interrupted hs (fun _ => rfl) (byTwos_supplies (.error e)) .whole l (by decide)
    (by decide)).2 _ _ _ _ (List.prefix_append ..) hp (.inl (by decide)) (by decide)
      ⟨rfl, rfl, by decide, by decide, by decide⟩ (by decide) rfl

end Parse

end RJsonParser
