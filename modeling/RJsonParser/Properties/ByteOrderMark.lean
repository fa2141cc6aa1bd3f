import RJsonParser.Properties.Callbacks

/-!
# The byte order mark

A document comes to the same with a byte order mark in front as without, in whatever pieces the mark
arrives: the same verdict, the same callbacks, the same positions.

* `ends_marked` — the machine goes over the mark and is where it is without
* `bom_invisible` — the sessions
-/

namespace RJsonParser

open Infra Infra.Utf8

variable {F : Type} [Double F]

/-- The UTF-8 byte order mark. -/
def byteOrderMark : List UInt8 := [0xEF, 0xBB, 0xBF]

section Machine

variable {limits : ParserLimits} {c : Core} {l : List UInt8} {a : Bool} {os : List (Mark F)}

/-- The state behind the mark, or where there is none. -/
def Core.unmarked (c : Core) : Core := { c with bomChecked := true }

/-- The mark is skipped in a step of its own, which puts out nothing. -/
theorem next_marked (hb : c.bomChecked = false) (l : List UInt8) :
    c.next (F := F) limits (byteOrderMark ++ l) = .step 3 c.unmarked [] := by
  unfold Core.next
  rw [if_pos (by simp [hb])]
  rfl

theorem steps_marked (hb : c.bomChecked = false) (l : List UInt8) :
    (machine F limits).Steps c (byteOrderMark ++ l) [] c.unmarked l :=
  steps_of_next (next_marked hb l)

/-- Without a mark nothing is skipped. -/
theorem steps_unmarked (hb : c.bomChecked = false) (hl : bomFront l = .found 0) :
    (machine F limits).Steps c l [] c.unmarked l := by
  have hnext : c.next (F := F) limits l = .step 0 c.unmarked [] := by
    unfold Core.next
    rw [if_pos (by simp [hb]), hl]
    rfl
  exact steps_of_next hnext

/-- **The verdict is the same with a byte order mark in front.** -/
theorem ends_marked (hb : c.bomChecked = false) (hl : bomFront l = .found 0) :
    Ends limits c (byteOrderMark ++ l) a os ↔ Ends limits c l a os := by
  constructor
  · intro h
    obtain ⟨os', rfl, h'⟩ := h.of_steps_iff (steps_marked hb l)
    exact .of_steps (steps_unmarked hb hl) h'
  · intro h
    obtain ⟨os', rfl, h'⟩ := h.of_steps_iff (steps_unmarked hb hl)
    exact .of_steps (steps_marked hb l) h'

/-- A key that is too long behind the mark is one without it. -/
theorem longKey_marked {n : Nat} (hb : c.bomChecked = false) (hl : bomFront l = .found 0)
    (h : LongKey limits n c (byteOrderMark ++ l) os) : LongKey limits n c l os := by
  obtain ⟨c', l', key, hs, hkey, hlong⟩ := h
  cases hs with
  | refl =>
    -- at a key the mark was looked for
    have hbom := hkey.outside.1
    rw [hb] at hbom
    cases hbom
  | head hn ht =>
    rw [show (machine F limits).next c _ = c.next limits _ from rfl, next_marked hb] at hn
    cases hn
    exact ⟨c', l', key, (steps_unmarked hb hl).trans ht, hkey, hlong⟩

end Machine

section Sessions

variable {h : Handler F} {s : Session F} {l : List UInt8} {ops ops' : List Op}

/-- **A byte order mark makes no difference.** With and without one in front, in whatever chunks, a
byte string is accepted or it is not, with the same tokens at the same positions up to the first
error; and if it is accepted all callbacks are the same but for the pieces they come in. -/
theorem bom_invisible (hs : s.AtStart h) (hh : h.NeverErrs) (limits : ParserLimits)
    (hlimit : limits.maxDocumentLength = none) (reject : Bool) (n n' : ChunkSize)
    (hfront : bomFront l = .found 0) (hkeys : (s.configure limits reject n).KeysFit h l n)
    (hkeys' : (s.configure limits reject n').KeysFit h l n')
    (hcap : (byteOrderMark ++ l).length ≤ s.buf.capacity)
    (hops : ∀ op ∈ ops, op.Presents) (hl : offered ops = byteOrderMark ++ l)
    (hfits : Fits h ops (s.configure limits reject n)) (hops' : ∀ op ∈ ops', op.Presents)
    (hl' : offered ops' = l) (hfits' : Fits h ops' (s.configure limits reject n')) :
    let r := outcome h (ops ++ [.close]) (s.configure limits reject n)
    let r' := outcome h (ops' ++ [.close]) (s.configure limits reject n')
    ∃ new new', r.2.parser.calls = s.parser.calls ++ new ∧
      r'.2.parser.calls = s.parser.calls ++ new' ∧
      (r.1 = .ok () ↔ r'.1 = .ok ()) ∧ tokens (marks new) = tokens (marks new') ∧
      (r'.1 = .ok () → marks new = marks new') := by
  intro r r'
  have hstart := hs.configure limits reject n
  have hstart' := hs.configure limits reject n'
  obtain ⟨km, hi⟩ := hstart.reachable.inv
  obtain ⟨km', hi'⟩ := hstart'.reachable.inv
  have hroom : (s.configure limits reject n).Roomy h (offered ops) s.buf.capacity :=
    Session.roomy_of_length (by rwa [hl])
  have hroom' : (s.configure limits reject n').Roomy h (offered ops') s.buf.capacity := by
    refine Session.roomy_of_length ?_
    rw [hl']
    rw [List.length_append] at hcap
    omega
  obtain ⟨new, hcalled, hcomes⟩ := hstart.comes hi hh hops hfits hroom
  obtain ⟨new', hcalled', hcomes'⟩ := hstart'.comes hi' hh hops' hfits' hroom'
  rw [hl] at hcomes
  rw [hl'] at hcomes'
  have hcore : (s.configure limits reject n).parser.core h =
      (s.configure limits reject n').parser.core h := by
    rw [hstart.core, hstart'.core]
    rfl
  have hb : ((s.configure limits reject n).parser.core h).bomChecked = false := by
    rw [hstart.core]
    rfl
  have hlen (l : List UInt8) : exceeds limits.maxDocumentLength l.length = false := by
    rw [hlimit]
    rfl
  -- the verdict of the machine on both
  obtain ⟨a, os, hends'⟩ := hcomes'.ends (hlen l) hkeys'
  have hends :
      Ends limits ((s.configure limits reject n).parser.core h) (byteOrderMark ++ l) a os :=
    (ends_marked hb hfront).mpr (hcore ▸ hends')
  have hkeys₁ : (s.configure limits reject n).KeysFit h (byteOrderMark ++ l) n := fun os hlong =>
    hkeys os (longKey_marked hb hfront hlong)
  obtain ⟨hok, htold, hall⟩ := hcomes.of_ends hends (hlen _) hkeys₁
  obtain ⟨hok', htold', hall'⟩ := hcomes'.of_ends hends' (hlen l) hkeys'
  refine ⟨new, new', hcalled.calls, hcalled'.calls, hok.trans hok'.symm,
    htold.tokens_eq.trans htold'.tokens_eq.symm, fun hr => ?_⟩
  rw [hall (hok'.mp hr), hall' (hok'.mp hr)]

/-- A byte order mark cut in two in front of `[null]`. -/
theorem bom_invisible_array :
    let s : Session Rat := .new 64 (.split 0)
    let l : List UInt8 := [0x5B, 0x6E, 0x75, 0x6C, 0x6C, 0x5D]
    let n : ChunkSize := ⟨16, by decide⟩
    ∃ new new', (outcome .accepting ([.write [0xEF, 0xBB] (.split 1), .receive,
        .write (0xBF :: l) (.split 2), .receive] ++ [.close])
          (s.configure .unlimited false n)).2.parser.calls = s.parser.calls ++ new ∧
      (outcome .accepting ([.write l (.split 0), .receive] ++ [.close])
          (s.configure .unlimited false n)).2.parser.calls = s.parser.calls ++ new' ∧
      marks new = marks new' := by
  intro s l n
  have hs : s.AtStart .accepting := Session.new_atStart ..
  let item : Ws × Tree × Ws := (⟨[], isWs_of_mem_nil⟩, .null, ⟨[], isWs_of_mem_nil⟩)
  have ht : Document l (.array item []) :=
    ⟨[], ⟨[], isWs_of_mem_nil⟩, ⟨[], isWs_of_mem_nil⟩, .inl rfl, rfl⟩
  have hcore : ((s.configure .unlimited false n).parser.core .accepting).Starts :=
    Core.start_starts false true
  have hkeys : (s.configure .unlimited false n).KeysFit .accepting l n :=
    ht.keysFit hcore fun k hk => (ht.byteLen_key hk).trans (by decide)
  have hops : ∀ op ∈ ([.write [0xEF, 0xBB] (.split 1), .receive, .write (0xBF :: l) (.split 2),
      .receive] : List Op), op.Presents := by simp [Op.Presents]
  have hops' : ∀ op ∈ ([.write l (.split 0), .receive] : List Op), op.Presents := by
    simp [Op.Presents]
  have hi := Session.new_inv (F := Rat) 64 (.split 0) .unlimited false n
  have hfits : Fits .accepting _ (s.configure .unlimited false n) :=
    fits_of_length _ hops hi (by decide)
  have hfits' : Fits .accepting _ (s.configure .unlimited false n) :=
    fits_of_length _ hops' hi (by decide)
  obtain ⟨new, new', hnew, hnew', -, -, hmarks⟩ := bom_invisible hs (fun _ => rfl) .unlimited rfl
    false n n rfl hkeys hkeys (by decide) hops rfl hfits hops' rfl hfits'
  exact ⟨new, new', hnew, hnew', hmarks (by decide +kernel)⟩

end Sessions

end RJsonParser
