import Mathlib

/-!
# Hoare rules for state and exception programs

`Ensures x s Q E` says what the `EStateM` program `x` does from the state `s`: it returns a
value and a state that satisfy `Q`, or it stops with an error and a state that satisfy `E`.

The rules below are one per constructor of the monad. Each is an `iff`, so `simp` walks a
`do` block to its leaves; what is left are the calls, and a call is closed by the
specification of the callee and `Ensures.mono`.

`zoom` runs a program on the first half of a pair, so that what it cannot read or write is
visible in its type.
-/

namespace Infra

variable {ε σ τ α β : Type}

/-- What `x` does from `s`: `Q` of what it returns, `E` of how it stops. -/
def Ensures (x : EStateM ε σ α) (s : σ) (Q : α → σ → Prop) (E : ε → σ → Prop) : Prop :=
  match x s with
  | .ok a s' => Q a s'
  | .error e s' => E e s'

section Rules

variable {s : σ} {Q Q' : α → σ → Prop} {E E' : ε → σ → Prop}

/-- A program whose result is known, without an error. -/
theorem ensures_ok {x : EStateM ε σ α} {a : α} {s' : σ} (h : x s = .ok a s') :
    Ensures x s Q E ↔ Q a s' := by
  simp [Ensures, h]

/-- The same with one. -/
theorem ensures_error {x : EStateM ε σ α} {e : ε} {s' : σ} (h : x s = .error e s') :
    Ensures x s Q E ↔ E e s' := by
  simp [Ensures, h]

/-- What a program ensures may be weakened. -/
theorem Ensures.mono {x : EStateM ε σ α} (h : Ensures x s Q E) (hQ : ∀ a s', Q a s' → Q' a s')
    (hE : ∀ e s', E e s' → E' e s') : Ensures x s Q' E' := by
  unfold Ensures at *
  cases hx : x s with
  | ok a s' => rw [hx] at h; exact hQ a s' h
  | error e s' => rw [hx] at h; exact hE e s' h

theorem Ensures.trivial (x : EStateM ε σ α) (s : σ) :
    Ensures x s (fun _ _ => True) (fun _ _ => True) := by
  unfold Ensures
  cases x s <;> exact True.intro

/-- Both of two specifications of one program hold of its result. -/
theorem Ensures.and {x : EStateM ε σ α} (h : Ensures x s Q E) (h' : Ensures x s Q' E') :
    Ensures x s (fun a s' => Q a s' ∧ Q' a s') (fun e s' => E e s' ∧ E' e s') := by
  unfold Ensures at *
  cases hx : x s with
  | ok a s' => rw [hx] at h h'; exact ⟨h, h'⟩
  | error e s' => rw [hx] at h h'; exact ⟨h, h'⟩

/-- What is ensured is ensured of the result. -/
theorem Ensures.and_result {x : EStateM ε σ α} (h : Ensures x s Q E) :
    Ensures x s (fun a s' => x s = .ok a s' ∧ Q a s') (fun e s' => x s = .error e s' ∧ E e s') := by
  unfold Ensures at *
  cases hx : x s with
  | ok a s' => rw [hx] at h; exact ⟨rfl, h⟩
  | error e s' => rw [hx] at h; exact ⟨rfl, h⟩

@[simp] theorem ensures_pure {a : α} :
    Ensures (pure a : EStateM ε σ α) s Q E ↔ Q a s := Iff.rfl

@[simp] theorem ensures_bind {x : EStateM ε σ β} {f : β → EStateM ε σ α} :
    Ensures (x >>= f) s Q E ↔ Ensures x s (fun b s' => Ensures (f b) s' Q E) E := by
  unfold Ensures
  show (match EStateM.bind x f s with | .ok a s' => Q a s' | .error e s' => E e s') ↔ _
  unfold EStateM.bind
  cases x s <;> exact Iff.rfl

@[simp] theorem ensures_throw {e : ε} :
    Ensures (throw e : EStateM ε σ α) s Q E ↔ E e s := Iff.rfl

@[simp] theorem ensures_get {Q : σ → σ → Prop} :
    Ensures (get : EStateM ε σ σ) s Q E ↔ Q s s := Iff.rfl

@[simp] theorem ensures_set {s' : σ} {Q : PUnit → σ → Prop} :
    Ensures (set s' : EStateM ε σ PUnit) s Q E ↔ Q ⟨⟩ s' := Iff.rfl

@[simp] theorem ensures_modify {f : σ → σ} {Q : PUnit → σ → Prop} :
    Ensures (modify f : EStateM ε σ PUnit) s Q E ↔ Q ⟨⟩ (f s) := Iff.rfl

@[simp] theorem ensures_map {x : EStateM ε σ β} {f : β → α} :
    Ensures (f <$> x) s Q E ↔ Ensures x s (fun b s' => Q (f b) s') E := by
  unfold Ensures
  show (match EStateM.map f x s with | .ok a s' => Q a s' | .error e s' => E e s') ↔ _
  unfold EStateM.map
  cases x s <;> exact Iff.rfl

@[simp] theorem ensures_ofExcept_ok {a : α} :
    Ensures (ofExcept (.ok a : Except ε α) : EStateM ε σ α) s Q E ↔ Q a s := Iff.rfl

@[simp] theorem ensures_ofExcept_error {e : ε} :
    Ensures (ofExcept (.error e : Except ε α) : EStateM ε σ α) s Q E ↔ E e s := Iff.rfl

/-- A program whose first part succeeds goes on from there. -/
theorem bind_of_ok {x : EStateM ε σ β} {b : β} {s' : σ} (h : x s = .ok b s')
    (f : β → EStateM ε σ α) : (x >>= f) s = f b s' := by
  show EStateM.bind x f s = _
  rw [EStateM.bind, h]

/-- A program whose first part stops with an error stops there. -/
theorem bind_of_error {x : EStateM ε σ β} {e : ε} {s' : σ} (h : x s = .error e s')
    (f : β → EStateM ε σ α) : (x >>= f) s = .error e s' := by
  show EStateM.bind x f s = _
  rw [EStateM.bind, h]

/-- Two programs that go on alike from what `x` does. -/
theorem bind_congr_of_ensures {x : EStateM ε σ β} {f g : β → EStateM ε σ α}
    (h : Ensures x s (fun b s' => f b s' = g b s') (fun _ _ => True)) :
    (x >>= f) s = (x >>= g) s := by
  unfold Ensures at h
  cases hx : x s with
  | ok b s' =>
    rw [hx] at h
    rw [bind_of_ok hx, bind_of_ok hx]
    exact h
  | error e s' => rw [bind_of_error hx, bind_of_error hx]

theorem ensures_ite {c : Prop} [Decidable c] {x y : EStateM ε σ α} :
    Ensures (if c then x else y) s Q E ↔ if c then Ensures x s Q E else Ensures y s Q E := by
  split <;> exact Iff.rfl

end Rules

/-! ## Programs without a state -/

@[simp] theorem except_ok_bind {a : α} {f : α → Except ε β} : (Except.ok a >>= f) = f a := rfl

@[simp] theorem except_error_bind {e : ε} {f : α → Except ε β} :
    (Except.error e >>= f) = .error e := rfl

/-! ## Running on part of the state -/

/-- `x` on the first half of the state. The second half is out of its reach. -/
def zoom (x : EStateM ε σ α) : EStateM ε (σ × τ) α := fun s =>
  match x s.1 with
  | .ok a s' => .ok a (s', s.2)
  | .error e s' => .error e (s', s.2)

@[simp] theorem ensures_zoom {x : EStateM ε σ α} {s : σ × τ} {Q : α → σ × τ → Prop}
    {E : ε → σ × τ → Prop} :
    Ensures (zoom x) s Q E ↔
      Ensures x s.1 (fun a s' => Q a (s', s.2)) (fun e s' => E e (s', s.2)) := by
  unfold Ensures zoom
  cases x s.1 <;> exact Iff.rfl

end Infra
