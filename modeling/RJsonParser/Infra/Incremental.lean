import Mathlib

/-!
# Incremental machines

A machine that takes its input from the front of a list of which only a part may have arrived.
In each state it looks at what is there and decides: it needs more, it fails, or it takes some
elements and moves on. The one law (`next_append`) is that a decision never changes when more
input arrives. Everything said here about runs in pieces follows from it.

* `Steps` — the machine moves, taking elements and putting out a list
* `Steps.append` — steps stay steps when more input arrives, so runs in pieces compose
* `Steps.linear` — the machine is deterministic: of two runs one continues the other
* `Emits` / `Fails` — what it can put out, and that it comes to fail
-/

namespace Infra

/-- What a machine decides. `out` is put out even by a step that fails. -/
inductive Verdict (σ ο : Type) where
  | need
  | fail (out : List ο)
  | step (n : Nat) (next : σ) (out : List ο)

/-- What the decision puts out. -/
def Verdict.out {σ ο : Type} : Verdict σ ο → List ο
  | .need => []
  | .fail out => out
  | .step _ _ out => out

/-- A machine whose decisions are stable. -/
structure Machine (α σ ο : Type) where
  next : σ → List α → Verdict σ ο
  /-- A step takes only elements that are there. -/
  bound : ∀ {s l n s' out}, next s l = .step n s' out → n ≤ l.length
  /-- A decision stands whatever arrives later. -/
  next_append : ∀ {s l} (m : List α), next s l ≠ .need → next s (l ++ m) = next s l

namespace Machine

variable {α σ ο : Type}

/-- `M` takes steps from `s` with input `l` to `s'` with `l'` left, putting out `os`. -/
inductive Steps (M : Machine α σ ο) : σ → List α → List ο → σ → List α → Prop where
  | refl {s l} : Steps M s l [] s l
  | head {s l n s' out os s'' l''} (h : M.next s l = .step n s' out)
      (t : Steps M s' (l.drop n) os s'' l'') : Steps M s l (out ++ os) s'' l''

/-- `M` stops here: it needs more or fails. -/
def Halted (M : Machine α σ ο) (s : σ) (l : List α) : Prop :=
  ∀ n s' out, M.next s l ≠ .step n s' out

/-- `os` is the start of what `M` puts out from here. -/
def Emits (M : Machine α σ ο) (s : σ) (l : List α) (os : List ο) : Prop :=
  ∃ os' s' l', Steps M s l os' s' l' ∧ os <+: os' ++ (M.next s' l').out

/-- `M` comes to fail from here, having put out `os`. -/
def Fails (M : Machine α σ ο) (s : σ) (l : List α) (os : List ο) : Prop :=
  ∃ os' s' l' out, Steps M s l os' s' l' ∧ M.next s' l' = .fail out ∧ os = os' ++ out

variable {M : Machine α σ ο} {s s₁ s₂ : σ} {l l₁ l₂ : List α} {os os₁ os₂ : List ο}

theorem Steps.one {n out} (h : M.next s l = .step n s₁ out) : Steps M s l out s₁ (l.drop n) := by
  simpa using Steps.head h .refl

/-- Runs are put together, and so is what they put out. -/
theorem Steps.trans (h : Steps M s l os₁ s₁ l₁) (h' : Steps M s₁ l₁ os₂ s₂ l₂) :
    Steps M s l (os₁ ++ os₂) s₂ l₂ := by
  induction h with
  | refl => exact h'
  | head hn _ ih => rw [List.append_assoc]; exact .head hn (ih h')

/-- What is left is the end of what there was. -/
theorem Steps.suffix (h : Steps M s l os s₁ l₁) : l₁ <:+ l := by
  induction h with
  | refl => exact List.suffix_refl _
  | head _ _ ih => exact ih.trans (List.drop_suffix _ _)

/-- **Steps stay steps when more input arrives.** -/
theorem Steps.append (h : Steps M s l os s₁ l₁) (m : List α) :
    Steps M s (l ++ m) os s₁ (l₁ ++ m) := by
  induction h with
  | refl => exact .refl
  | @head s l n s' out os s'' l'' hn _ ih =>
    have hstep : M.next s (l ++ m) = .step n s' out := by
      rw [M.next_append m (by rw [hn]; simp), hn]
    refine .head hstep ?_
    rwa [List.drop_append_of_le_length (M.bound hn)]

/-- **Of two runs from one configuration, one continues the other.** -/
theorem Steps.linear (h₁ : Steps M s l os₁ s₁ l₁) (h₂ : Steps M s l os₂ s₂ l₂) :
    (∃ os, os₂ = os₁ ++ os ∧ Steps M s₁ l₁ os s₂ l₂) ∨
      (∃ os, os₁ = os₂ ++ os ∧ Steps M s₂ l₂ os s₁ l₁) := by
  induction h₁ generalizing os₂ with
  | refl => exact .inl ⟨os₂, rfl, h₂⟩
  | head hn ht ih =>
    cases h₂ with
    | refl => exact .inr ⟨_, rfl, .head hn ht⟩
    | head hn' ht' =>
      rw [hn] at hn'
      cases hn'
      rcases ih ht' with ⟨os, rfl, hs⟩ | ⟨os, rfl, hs⟩
      · exact .inl ⟨os, (List.append_assoc ..).symm, hs⟩
      · exact .inr ⟨os, (List.append_assoc ..).symm, hs⟩

/-- A machine that has halted does not go on. -/
theorem Steps.eq_of_halted (h : Steps M s l os s₁ l₁) (hs : M.Halted s l) :
    os = [] ∧ s₁ = s ∧ l₁ = l := by
  cases h with
  | refl => exact ⟨rfl, rfl, rfl⟩
  | head hn _ => exact absurd hn (hs _ _ _)

/-- **Where the machine stops is determined.** -/
theorem Steps.halted_unique (h₁ : Steps M s l os₁ s₁ l₁) (h₂ : Steps M s l os₂ s₂ l₂)
    (hs₁ : M.Halted s₁ l₁) (hs₂ : M.Halted s₂ l₂) : os₁ = os₂ ∧ s₁ = s₂ ∧ l₁ = l₂ := by
  rcases h₁.linear h₂ with ⟨os, rfl, h⟩ | ⟨os, rfl, h⟩
  · obtain ⟨rfl, rfl, rfl⟩ := h.eq_of_halted hs₁; simp
  · obtain ⟨rfl, rfl, rfl⟩ := h.eq_of_halted hs₂; simp

theorem halted_of_fail {out} (h : M.next s l = .fail out) : M.Halted s l := by
  intro n s' out'; rw [h]; simp

theorem halted_of_need (h : M.next s l = .need) : M.Halted s l := by
  intro n s' out'; rw [h]; simp

/-! ## What the machine puts out -/

theorem Emits.nil : M.Emits s l [] := ⟨[], s, l, .refl, List.nil_prefix⟩

theorem Emits.of_out (h : os <+: (M.next s l).out) : M.Emits s l os := ⟨[], s, l, .refl, by simpa⟩

theorem Steps.emits (h : Steps M s l os s₁ l₁) : M.Emits s l os :=
  ⟨os, s₁, l₁, h, List.prefix_append _ _⟩

/-- What is put out is put out piece by piece. -/
theorem Emits.of_prefix (h : M.Emits s l os) (hp : os₁ <+: os) : M.Emits s l os₁ := by
  obtain ⟨os', s', l', hs, ho⟩ := h
  exact ⟨os', s', l', hs, hp.trans ho⟩

/-- What is put out after a run comes after what it put out. -/
theorem Steps.trans_emits (h : Steps M s l os s₁ l₁) (h' : M.Emits s₁ l₁ os₁) :
    M.Emits s l (os ++ os₁) := by
  obtain ⟨os', s', l', hs, ho⟩ := h'
  exact ⟨os ++ os', s', l', h.trans hs, by
    rw [List.append_assoc]; exact (List.prefix_append_right_inj os).mpr ho⟩

/-- A failure after a run is a failure, with the output of both. -/
theorem Steps.trans_fails (h : Steps M s l os s₁ l₁) (h' : M.Fails s₁ l₁ os₁) :
    M.Fails s l (os ++ os₁) := by
  obtain ⟨os', s', l', out, hs, hf, rfl⟩ := h'
  exact ⟨os ++ os', s', l', out, h.trans hs, hf, (List.append_assoc ..).symm⟩

theorem Fails.of_next {out} (h : M.next s l = .fail out) : M.Fails s l out :=
  ⟨[], s, l, out, .refl, h, rfl⟩

/-- What was put out before a failure was put out. -/
theorem Fails.emits (h : M.Fails s l os) : M.Emits s l os := by
  obtain ⟨os', s', l', out, hs, hf, rfl⟩ := h
  exact ⟨os', s', l', hs, by rw [hf]; exact List.prefix_rfl⟩

/-- A failure does not depend on what comes later. -/
theorem Fails.append (h : M.Fails s l os) (m : List α) : M.Fails s (l ++ m) os := by
  obtain ⟨os', s', l', out, hs, hf, rfl⟩ := h
  exact ⟨os', s', l' ++ m, out, hs.append m, by rw [M.next_append m (by rw [hf]; simp), hf], rfl⟩

/-- Nor does what was put out. -/
theorem Emits.append (h : M.Emits s l os) (m : List α) : M.Emits s (l ++ m) os := by
  obtain ⟨os', s', l', hs, ho⟩ := h
  refine ⟨os', s', l' ++ m, hs.append m, ho.trans ?_⟩
  by_cases hn : M.next s' l' = .need
  · simp [hn, Verdict.out]
  · rw [M.next_append m hn]

/-- A run that fails is not a run that stops elsewhere. -/
theorem Fails.unique (h : M.Fails s l os) (h₁ : Steps M s l os₁ s₁ l₁) (hs : M.Halted s₁ l₁) :
    ∃ out, M.next s₁ l₁ = .fail out ∧ os = os₁ ++ out := by
  obtain ⟨os', s', l', out, hs', hf, rfl⟩ := h
  obtain ⟨rfl, rfl, rfl⟩ := hs'.halted_unique h₁ (halted_of_fail hf) hs
  exact ⟨out, hf, rfl⟩

/-- A machine fails in one way only. -/
theorem Fails.eq (h : M.Fails s l os) (h' : M.Fails s l os₁) : os = os₁ := by
  obtain ⟨os', s', l', out, hs', hf, rfl⟩ := h'
  obtain ⟨out', hf', rfl⟩ := h.unique hs' (halted_of_fail hf)
  rw [hf] at hf'
  cases hf'
  rfl

end Machine

end Infra
