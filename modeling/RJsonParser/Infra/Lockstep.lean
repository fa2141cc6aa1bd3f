import RJsonParser.Infra.Exec

/-!
# Programs from all states of a kind

What `EStateM` programs do from any state that satisfies a predicate, and what two of them have in
common from any two states that a relation holds of.

* `Agree R r r'` — two results: the same value or the same error, in states that `R` relates
* `Lockstep R x y` — from states that `R` relates, `x` and `y` agree, and their states stay related
* `Leads I J E x` — `x` leads from `I` to `J`, or stops in `E`
* `Keeps I x` — `x` keeps `I`, whether it returns or stops with an error

The rules are one per constructor of the monad, as those of `Ensures`. Where the two programs are
not the same, each is compared with a third, and `Agree.trans` puts the two together.
-/

namespace Infra

variable {ε σ τ υ ρ α β : Type}

/-- The same value or the same error, in states that `R` relates. -/
inductive Agree (R : σ → τ → Prop) : EStateM.Result ε σ α → EStateM.Result ε τ α → Prop where
  | ok (a : α) {s : σ} {t : τ} (h : R s t) : Agree R (.ok a s) (.ok a t)
  | error (e : ε) {s : σ} {t : τ} (h : R s t) : Agree R (.error e s) (.error e t)

theorem get_bind_apply (f : σ → EStateM ε σ α) (s : σ) : (get >>= f) s = f s s := rfl

theorem ofExcept_ok_bind (b : β) (f : β → EStateM ε σ α) : (ofExcept (.ok b) >>= f) = f b := rfl

/-- A program on the first half of a state leaves the other half. -/
theorem zoom_of_ok {x : EStateM ε σ α} {a : α} {s s' : σ} (h : x s = .ok a s') (c : υ) :
    zoom x (s, c) = .ok a (s', c) := by
  simp only [zoom, h]

/-- So it does where it stops with an error. -/
theorem zoom_of_error {x : EStateM ε σ α} {e : ε} {s s' : σ} (h : x s = .error e s') (c : υ) :
    zoom x (s, c) = .error e (s', c) := by
  simp only [zoom, h]

namespace Agree

variable {R R' : σ → τ → Prop} {s : σ} {t : τ}

/-- States that agree closely agree. -/
theorem mono {r : EStateM.Result ε σ α} {r' : EStateM.Result ε τ α} (h : Agree R r r')
    (hR : ∀ s t, R s t → R' s t) : Agree R' r r' := by
  cases h with
  | ok a h => exact .ok a (hR _ _ h)
  | error e h => exact .error e (hR _ _ h)

/-- A result agrees with itself. -/
theorem refl {R : σ → σ → Prop} (hR : ∀ s, R s s) (r : EStateM.Result ε σ α) : Agree R r r := by
  cases r with
  | ok a s => exact .ok a (hR s)
  | error e s => exact .error e (hR s)

/-- Agreement the other way round. -/
theorem symm {r : EStateM.Result ε σ α} {r' : EStateM.Result ε τ α} (h : Agree R r r') :
    Agree (fun t s => R s t) r' r := by
  cases h with
  | ok a h => exact .ok a h
  | error e h => exact .error e h

/-- Agreement over a third program. -/
theorem trans {S : τ → υ → Prop} {T : σ → υ → Prop} {x : EStateM.Result ε σ α}
    {y : EStateM.Result ε τ α} {z : EStateM.Result ε υ α} (hx : Agree R x y) (hy : Agree S y z)
    (h : ∀ s t u, R s t → S t u → T s u) : Agree T x z := by
  cases hx with
  | ok a hR =>
    cases hy with
    | ok _ hS => exact .ok a (h _ _ _ hR hS)
  | error e hR =>
    cases hy with
    | error _ hS => exact .error e (h _ _ _ hR hS)

/-- **The rule for `do` blocks.** -/
theorem bind {x : EStateM ε σ β} {y : EStateM ε τ β} {f : β → EStateM ε σ α}
    {g : β → EStateM ε τ α} (h : Agree R (x s) (y t))
    (hf : ∀ b s' t', R s' t' → Agree R' (f b s') (g b t')) (hR : ∀ s t, R s t → R' s t) :
    Agree R' ((x >>= f) s) ((y >>= g) t) := by
  generalize hx : x s = r, hy : y t = r' at h
  cases h with
  | ok b h =>
    rw [bind_of_ok hx, bind_of_ok hy]
    exact hf b _ _ h
  | error e h =>
    rw [bind_of_error hx, bind_of_error hy]
    exact .error e (hR _ _ h)

/-- The same, where more is known of both unless they stop with an error. -/
theorem bind_spec {x : EStateM ε σ β} {y : EStateM ε τ β} {f : β → EStateM ε σ α}
    {g : β → EStateM ε τ α} {I : σ → Prop} {J : τ → Prop} (h : Agree R (x s) (y t))
    (hI : Ensures x s (fun _ => I) fun _ _ => True) (hJ : Ensures y t (fun _ => J) fun _ _ => True)
    (hf : ∀ b s' t', R s' t' → I s' → J t' → Agree R' (f b s') (g b t'))
    (hR : ∀ s t, R s t → R' s t) : Agree R' ((x >>= f) s) ((y >>= g) t) := by
  unfold Ensures at hI hJ
  generalize hx : x s = r, hy : y t = r' at h
  rw [hx] at hI
  rw [hy] at hJ
  cases h with
  | ok b h =>
    rw [bind_of_ok hx, bind_of_ok hy]
    exact hf b _ _ h hI hJ
  | error e h =>
    rw [bind_of_error hx, bind_of_error hy]
    exact .error e (hR _ _ h)

/-- The cases of a condition that is the same for both. -/
theorem ite {c : Prop} [Decidable c] {x x' : EStateM ε σ α} {y y' : EStateM ε τ α}
    (h : c → Agree R (x s) (y t)) (h' : ¬ c → Agree R (x' s) (y' t)) :
    Agree R ((if c then x else x') s) ((if c then y else y') t) := by
  by_cases hc : c
  · rw [if_pos hc, if_pos hc]
    exact h hc
  · rw [if_neg hc, if_neg hc]
    exact h' hc

/-- A program on the first half of the state, and one on all of it. -/
theorem zoom_left {x : EStateM ε σ α} {r : EStateM.Result ε τ α} (c : υ) (h : Agree R (x s) r) :
    Agree (fun (p : σ × υ) t => R p.1 t ∧ p.2 = c) (zoom x (s, c)) r := by
  generalize hx : x s = r' at h
  cases h with
  | ok a h =>
    rw [zoom_of_ok hx]
    exact .ok a ⟨h, rfl⟩
  | error e h =>
    rw [zoom_of_error hx]
    exact .error e ⟨h, rfl⟩

/-- Two programs on the first halves of their states. -/
theorem zoom {x : EStateM ε σ α} {y : EStateM ε τ α} (c : υ) (d : ρ) (h : Agree R (x s) (y t)) :
    Agree (fun (p : σ × υ) (q : τ × ρ) => R p.1 q.1 ∧ p.2 = c ∧ q.2 = d) (zoom x (s, c))
      (zoom y (t, d)) := by
  generalize hx : x s = r, hy : y t = r' at h
  cases h with
  | ok a h =>
    rw [zoom_of_ok hx, zoom_of_ok hy]
    exact .ok a ⟨h, rfl, rfl⟩
  | error e h =>
    rw [zoom_of_error hx, zoom_of_error hy]
    exact .error e ⟨h, rfl, rfl⟩

end Agree

/-- From states that `R` relates, `x` and `y` agree. -/
def Lockstep (R : σ → τ → Prop) (x : EStateM ε σ α) (y : EStateM ε τ α) : Prop :=
  ∀ s t, R s t → Agree R (x s) (y t)

namespace Lockstep

variable {R : σ → τ → Prop}

theorem pure (a : α) : Lockstep R (pure a : EStateM ε σ α) (pure a : EStateM ε τ α) :=
  fun _ _ h => .ok a h

theorem throw (e : ε) : Lockstep R (throw e : EStateM ε σ α) (throw e : EStateM ε τ α) :=
  fun _ _ h => .error e h

/-- An outcome that is fixed is the same on both sides. -/
theorem ofExcept (r : Except ε α) :
    Lockstep R (ofExcept r : EStateM ε σ α) (ofExcept r : EStateM ε τ α) := by
  cases r with
  | ok a => exact .pure a
  | error e => exact .throw e

theorem bind {x : EStateM ε σ β} {y : EStateM ε τ β} {f : β → EStateM ε σ α}
    {g : β → EStateM ε τ α} (h : Lockstep R x y) (hf : ∀ b, Lockstep R (f b) (g b)) :
    Lockstep R (x >>= f) (y >>= g) :=
  fun _ _ hR => (h _ _ hR).bind (fun b _ _ h' => hf b _ _ h') fun _ _ h' => h'

/-- A program that looks at the state. -/
theorem get_bind {f : σ → EStateM ε σ α} {g : τ → EStateM ε τ α}
    (h : ∀ s t, R s t → Agree R (f s s) (g t t)) : Lockstep R (get >>= f) (get >>= g) :=
  fun s t hR => h s t hR

/-- A change of the state on each side that keeps them related. -/
theorem modify {f : σ → σ} {g : τ → τ} (h : ∀ s t, R s t → R (f s) (g t)) :
    Lockstep R (modify f : EStateM ε σ PUnit) (modify g : EStateM ε τ PUnit) := by
  intro s t hR
  show Agree R (.ok PUnit.unit (f s)) (.ok PUnit.unit (g t))
  exact .ok _ (h s t hR)

theorem ite {c : Prop} [Decidable c] {x y : EStateM ε σ α} {x' y' : EStateM ε τ α}
    (h : Lockstep R x x') (h' : Lockstep R y y') :
    Lockstep R (if c then x else y) (if c then x' else y') :=
  fun _ _ hR => .ite (fun _ => h _ _ hR) fun _ => h' _ _ hR

end Lockstep

/-- From states that satisfy `I`, `x` returns in one that satisfies `J` or stops in one that
satisfies `E`. -/
def Leads (I J E : σ → Prop) (x : EStateM ε σ α) : Prop :=
  ∀ s, I s → Ensures x s (fun _ => J) (fun _ => E)

namespace Leads

variable {I J K E : σ → Prop}

theorem pure {a : α} (h : ∀ s, I s → J s) : Leads I J E (pure a : EStateM ε σ α) := h

theorem throw {e : ε} (h : ∀ s, I s → E s) : Leads I J E (throw e : EStateM ε σ α) := h

/-- An outcome that is fixed is the same on both sides. -/
theorem ofExcept {r : Except ε α} (h : ∀ s, I s → J s) (h' : ∀ s, I s → E s) :
    Leads I J E (ofExcept r : EStateM ε σ α) := by
  cases r with
  | ok a => exact .pure h
  | error e => exact .throw h'

theorem bind {x : EStateM ε σ β} {f : β → EStateM ε σ α} (h : Leads I J E x)
    (hf : ∀ b, Leads J K E (f b)) : Leads I K E (x >>= f) := by
  intro s hs
  rw [ensures_bind]
  exact (h s hs).mono (fun b s' hs' => hf b s' hs') fun _ _ hs' => hs'

theorem get_bind {f : σ → EStateM ε σ α}
    (h : ∀ s, I s → Ensures (f s) s (fun _ => J) (fun _ => E)) : Leads I J E (get >>= f) := h

/-- A change of the state on each side that keeps them related. -/
theorem modify {f : σ → σ} (h : ∀ s, I s → J (f s)) :
    Leads I J E (modify f : EStateM ε σ PUnit) := h

theorem ite {c : Prop} [Decidable c] {x y : EStateM ε σ α} (h : Leads I J E x)
    (h' : Leads I J E y) : Leads I J E (if c then x else y) := by
  by_cases hc : c
  · rw [if_pos hc]
    exact h
  · rw [if_neg hc]
    exact h'

/-- States that agree closely agree. -/
theorem mono {I' J' : σ → Prop} {x : EStateM ε σ α} (h : Leads I J E x) (hI : ∀ s, I' s → I s)
    (hJ : ∀ s, J s → J' s) : Leads I' J' E x :=
  fun s hs => (h s (hI s hs)).mono (fun _ s' => hJ s') fun _ _ hs' => hs'

end Leads

/-- `x` keeps `I`, whether it returns or stops with an error. -/
def Keeps (I : σ → Prop) (x : EStateM ε σ α) : Prop := Leads I I I x

namespace Keeps

variable {I : σ → Prop}

theorem pure (a : α) : Keeps I (pure a : EStateM ε σ α) := fun _ h => h

theorem throw (e : ε) : Keeps I (throw e : EStateM ε σ α) := fun _ h => h

/-- An outcome that is fixed is the same on both sides. -/
theorem ofExcept (r : Except ε α) : Keeps I (ofExcept r : EStateM ε σ α) :=
  Leads.ofExcept (fun _ h => h) fun _ h => h

theorem bind {x : EStateM ε σ β} {f : β → EStateM ε σ α} (h : Keeps I x)
    (hf : ∀ b, Keeps I (f b)) : Keeps I (x >>= f) := Leads.bind h hf

theorem get_bind {f : σ → EStateM ε σ α} (h : ∀ s, I s → Keeps I (f s)) : Keeps I (get >>= f) :=
  fun s hs => h s hs s hs

/-- A change of the state on each side that keeps them related. -/
theorem modify {f : σ → σ} (h : ∀ s, I s → I (f s)) : Keeps I (modify f : EStateM ε σ PUnit) :=
  Leads.modify h

theorem ite {c : Prop} [Decidable c] {x y : EStateM ε σ α} (h : Keeps I x) (h' : Keeps I y) :
    Keeps I (if c then x else y) := Leads.ite h h'

/-- The first half of the state is kept by what runs on it, the second by all that does. -/
theorem zoom {x : EStateM ε σ α} {J : υ → Prop} :
    Keeps (fun p : σ × υ => J p.2) (zoom x : EStateM ε (σ × υ) α) := by
  intro p hp
  rw [ensures_zoom]
  exact (Ensures.trivial x p.1).mono (fun _ _ _ => hp) fun _ _ _ => hp

end Keeps

end Infra
