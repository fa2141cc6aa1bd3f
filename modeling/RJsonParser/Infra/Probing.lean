import Mathlib

/-!
# Linear probing

A table with open addressing, as a list of slots of which some are free. The probe sequence of an
entry starts at a home slot and goes on to the next one, round at the end.

* `Occupied` — the slot `d` steps on from a start is taken
* `Reached` — an entry lies on the probe sequence of its home, with no free slot before it
* `Reached.fill` — filling a free slot keeps every entry reached
* `entries_fill` — filling a free slot adds the one entry
* `exists_free` — a table with fewer entries than slots has a free slot
-/

namespace Infra

variable {α : Type}

/-- The slot `d` steps on from `start` is taken. -/
def Occupied (slots : List (Option α)) (start d : Nat) : Prop :=
  ∃ b, slots[(start + d) % slots.length]? = some (some b)

/-- `a` lies `d` steps on from `start`, and no slot before it is free. -/
def ReachedAt (slots : List (Option α)) (start d : Nat) (a : α) : Prop :=
  slots[(start + d) % slots.length]? = some (some a) ∧ ∀ e < d, Occupied slots start e

/-- A search from `start` that stops at the first free slot comes by `a`. -/
def Reached (slots : List (Option α)) (start : Nat) (a : α) : Prop :=
  ∃ d, ReachedAt slots start d a

variable {slots : List (Option α)} {start i j d : Nat} {a b : α}

/-- Filling a free slot leaves those that are taken. -/
theorem getElem?_fill (hi : slots[i]? = some none) (hj : slots[j]? = some (some b)) :
    (slots.set i (some a))[j]? = some (some b) := by
  have hne : i ≠ j := by
    rintro rfl
    rw [hi] at hj
    cases hj
  rw [List.getElem?_set_ne hne]
  exact hj

/-- The slots on the way stay taken. -/
theorem Occupied.fill (hi : slots[i]? = some none) (h : Occupied slots start d) :
    Occupied (slots.set i (some a)) start d := by
  obtain ⟨b, hb⟩ := h
  refine ⟨b, ?_⟩
  rw [List.length_set]
  exact getElem?_fill hi hb

/-- Filling a free slot breaks no chain of taken slots. -/
theorem Reached.fill (hi : slots[i]? = some none) (h : Reached slots start b) :
    Reached (slots.set i (some a)) start b := by
  obtain ⟨d, hd, he⟩ := h
  refine ⟨d, ?_, fun e hlt => (he e hlt).fill hi⟩
  rw [List.length_set]
  exact getElem?_fill hi hd

/-- An entry put into the first free slot of its probe sequence is reached. -/
theorem reached_fill (hd : slots[(start + d) % slots.length]? = some none)
    (he : ∀ e < d, Occupied slots start e) :
    Reached (slots.set ((start + d) % slots.length) (some a)) start a := by
  refine ⟨d, ?_, fun e hlt => (he e hlt).fill hd⟩
  rw [List.length_set, List.getElem?_set_self (List.getElem?_eq_some_iff.mp hd).1]

/-- The probe sequence comes round after as many steps as there are slots. -/
theorem Reached.lt (h : Reached slots start a) :
    ∃ d < slots.length, ReachedAt slots start d a := by
  obtain ⟨d, hd, he⟩ := h
  have hpos : 0 < slots.length := by
    have := (List.getElem?_eq_some_iff.mp hd).1
    omega
  refine ⟨d % slots.length, Nat.mod_lt _ hpos, ?_, ?_⟩
  · rw [Nat.add_mod_mod]
    exact hd
  · intro e hlt
    exact he e (Nat.lt_of_lt_of_le hlt (Nat.mod_le _ _))

theorem mem_entries : a ∈ slots.filterMap id ↔ some a ∈ slots := by
  simp

theorem mem_entries_of_getElem? (h : slots[i]? = some (some a)) : a ∈ slots.filterMap id :=
  mem_entries.mpr (List.mem_of_getElem? h)

/-- What can be reached is in the table. -/
theorem Reached.mem (h : Reached slots start a) : a ∈ slots.filterMap id := by
  obtain ⟨d, hd, _⟩ := h
  exact mem_entries_of_getElem? hd

/-- Filling a free slot adds one entry. -/
theorem entries_fill (hi : slots[i]? = some none) :
    ((slots.set i (some a)).filterMap id).Perm (a :: slots.filterMap id) := by
  obtain ⟨hlt, hget⟩ := List.getElem?_eq_some_iff.mp hi
  have hsplit : slots = slots.take i ++ none :: slots.drop (i + 1) := by
    rw [← hget, List.cons_getElem_drop_succ, List.take_append_drop]
  have hold : slots.filterMap id =
      (slots.take i).filterMap id ++ (slots.drop (i + 1)).filterMap id := by
    conv_lhs => rw [hsplit, List.filterMap_append, List.filterMap_cons_none rfl]
  rw [List.set_eq_take_append_cons_drop, if_pos hlt, List.filterMap_append,
    List.filterMap_cons_some (f := id) (a := some a) rfl, hold]
  exact List.perm_middle

/-- Where the entries are apart under `g`, no two slots agree under it. -/
theorem eq_of_nodup_entries {β : Type} {g : α → β}
    (h : ((slots.filterMap id).map g).Nodup) (hi : slots[i]? = some (some a))
    (hj : slots[j]? = some (some b)) (hg : g a = g b) : i = j := by
  induction slots generalizing i j with
  | nil => cases hi
  | cons s l ih =>
    have htail : ((l.filterMap id).map g).Nodup := by
      cases s with
      | none => exact h
      | some c => exact (List.nodup_cons.mp h).2
    cases i with
    | zero =>
      cases j with
      | zero => rfl
      | succ j =>
        cases hi
        exact absurd (hg ▸ List.mem_map_of_mem (mem_entries_of_getElem? hj))
          (List.nodup_cons.mp h).1
    | succ i =>
      cases j with
      | zero =>
        cases hj
        exact absurd (hg ▸ List.mem_map_of_mem (mem_entries_of_getElem? hi))
          (List.nodup_cons.mp h).1
      | succ j => rw [ih htail hi hj]

/-- The number of entries is the number of slots that are taken. -/
theorem length_entries (slots : List (Option α)) :
    (slots.filterMap id).length = slots.countP Option.isSome := by
  induction slots with
  | nil => rfl
  | cons s l ih =>
    cases s with
    | none => rw [List.filterMap_cons_none rfl, ih]; simp
    | some s =>
      rw [List.filterMap_cons_some (f := id) (a := some s) rfl, List.length_cons, ih]; simp

/-- A table with fewer entries than slots has a free slot. -/
theorem exists_free (h : (slots.filterMap id).length < slots.length) :
    ∃ i : Nat, slots[i]? = some none := by
  by_contra hn
  push Not at hn
  have hall : ∀ s ∈ slots, s.isSome = true := by
    intro s hs
    obtain ⟨i, hi⟩ := List.mem_iff_getElem?.mp hs
    cases s with
    | none => exact absurd hi (hn i)
    | some _ => rfl
  rw [length_entries, List.countP_eq_length.mpr hall] at h
  exact Nat.lt_irrefl _ h

end Infra
