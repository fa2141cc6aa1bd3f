import RJsonParser.Keys

/-!
# The key symbol table over a run

A run of a table is the calls made on it since it was new, each `put` after a `lookup` of the same
bytes that found nothing. What such a table answers is what a list of pairs would: those whose `put`
came while there was room. Nothing here is special to FNV-1a, any hash function gives the same.

* `TableRun` — the runs
* `kept` — the pairs a run has stored
* `TableRun.holds` — the table holds these pairs, each once, where a lookup finds it
-/

namespace RJsonParser

open Infra

/-- A call on a table, with what it returned. -/
inductive TableCall where
  | lookup (bytes : List UInt8) (found : Option Text)
  | put (bytes : List UInt8) (value : Text)
deriving DecidableEq, Repr

/-- The last call about `bytes` was a lookup that found nothing. `log` is the newest call first. -/
def missed (bytes : List UInt8) : List TableCall → Bool
  | [] => false
  | .lookup b found :: log => (b == bytes && found.isNone) || missed bytes log
  | .put b _ :: log => b != bytes && missed bytes log

/-- The pairs whose `put` came while fewer than `MAX_ENTRIES` were stored. -/
def kept : List TableCall → List (List UInt8 × Text)
  | [] => []
  | .lookup _ _ :: log => kept log
  | .put b v :: log => if (kept log).length < maxEntries then (b, v) :: kept log else kept log

/-- The table after the calls of a run, newest first, under the hash function `f`. A rehash may come
anywhere, not only where `put` makes one. -/
inductive TableRun (f : List UInt8 → UInt32) : List TableCall → KeySymbolTable → Prop where
  | new : TableRun f [] .new
  | lookup {log t bytes found} (h : TableRun f log t) (hl : t.lookup bytes (f bytes) = .ok found) :
      TableRun f (.lookup bytes found :: log) t
  | put {log t t' bytes value} (h : TableRun f log t) (hm : missed bytes log = true)
      (hp : t.put bytes (f bytes) value = .ok t') : TableRun f (.put bytes value :: log) t'
  | grow {log t t'} (h : TableRun f log t) (hg : t.grow = .ok t') : TableRun f log t'

namespace KeySymbolTable

variable {f : List UInt8 → UInt32} {t t' : KeySymbolTable} {bytes : List UInt8} {value : Text}

/-- The slot that `put` fills for a pair. -/
def slotOf (f : List UInt8 → UInt32) (p : List UInt8 × Text) : Slot := ⟨f p.1, p.1, p.2⟩

/-- The table holds `pairs` and nothing else, each where a lookup finds it. -/
structure Holds (f : List UInt8 → UInt32) (t : KeySymbolTable)
    (pairs : List (List UInt8 × Text)) : Prop extends Wf t where
  chained : t.Chained
  entries : t.entries.Perm (pairs.map (slotOf f))
  apart : (pairs.map Prod.fst).Nodup

theorem new_holds (f : List UInt8 → UInt32) : new.Holds f [] := by
  refine ⟨new_wf, ?_, .refl _, List.nodup_nil⟩
  intro s hs
  cases hs

theorem Holds.size_eq {pairs : List (List UInt8 × Text)} (h : t.Holds f pairs) :
    t.size = pairs.length := by
  rw [← h.size, h.entries.length_eq, List.length_map]

theorem Holds.mem_iff {pairs : List (List UInt8 × Text)} (h : t.Holds f pairs) :
    ⟨f bytes, bytes, value⟩ ∈ t.entries ↔ (bytes, value) ∈ pairs := by
  rw [h.entries.mem_iff, List.mem_map]
  constructor
  · rintro ⟨⟨b, v⟩, hmem, heq⟩
    rw [slotOf, Slot.mk.injEq] at heq
    obtain ⟨_, rfl, rfl⟩ := heq
    exact hmem
  · intro hmem
    exact ⟨_, hmem, rfl⟩

theorem Holds.put {pairs : List (List UInt8 × Text)} (h : t.Holds f pairs)
    (hnew : bytes ∉ pairs.map Prod.fst) (hp : t.put bytes (f bytes) value = .ok t') :
    t'.Holds f (if pairs.length < maxEntries then (bytes, value) :: pairs else pairs) := by
  obtain ⟨t₁, h₁, hwf, hchained, hadd⟩ := put_spec h.toWf bytes (f bytes) value
  rw [h₁] at hp
  cases hp
  rw [h.size_eq] at hadd
  by_cases hlt : pairs.length < maxEntries
  · rw [if_pos hlt] at hadd ⊢
    refine ⟨hwf, hchained h.chained, ?_, ?_⟩
    · exact hadd.trans (h.entries.cons _)
    · exact List.nodup_cons.mpr ⟨hnew, h.apart⟩
  · rw [if_neg hlt] at hadd ⊢
    rw [hadd]
    exact h

/-- Growing keeps the pairs. -/
theorem Holds.grow {pairs : List (List UInt8 × Text)} (h : t.Holds f pairs)
    (hg : t.grow = .ok t') : t'.Holds f pairs := by
  obtain ⟨t₁, h₁, hwf, _, _, hperm, hchained⟩ := grow_spec h.toWf
  rw [h₁] at hg
  cases hg
  exact ⟨hwf, hchained, hperm.trans h.entries, h.apart⟩

/-- No key is in two slots. -/
theorem Holds.slot_unique {pairs : List (List UInt8 × Text)} (h : t.Holds f pairs) {i j : Nat}
    {s s' : Slot} (hi : t.slots[i]? = some (some s)) (hj : t.slots[j]? = some (some s'))
    (hkey : s.key = s'.key) : i = j := by
  have hnodup : (t.entries.map Slot.key).Nodup := by
    rw [(h.entries.map Slot.key).nodup_iff, List.map_map]
    exact h.apart
  exact eq_of_nodup_entries hnodup hi hj hkey

/-! ## Looking up what is there -/

/-- The loop of `lookup` passes the slots before the entry it looks for. -/
theorem lookupLoop_reached (h : t.Sized) {hash : UInt32} (d : Nat)
    (hd : ReachedAt t.slots hash.toNat d ⟨hash, bytes, value⟩) (hle : d ≤ t.mask)
    (honly : ∀ v, ⟨hash, bytes, v⟩ ∈ t.entries → v = value) :
    ∀ (fuel e : Nat), e ≤ d → d < fuel + e →
      lookupLoop t bytes hash fuel ((hash.toNat + e) % t.slots.length) e = .ok (some value)
  | 0, e, he, hf => by omega
  | fuel + 1, e, he, hf => by
    have hocc : ∃ s, t.slots[(hash.toNat + e) % t.slots.length]? = some (some s) := by
      rcases Nat.lt_or_eq_of_le he with hlt | rfl
      · exact hd.2 e hlt
      · exact ⟨_, hd.1⟩
    obtain ⟨s, hs⟩ := hocc
    rw [lookupLoop, hs]
    simp only []
    by_cases hhit : s.hash = hash ∧ s.key = bytes
    · obtain ⟨rfl, rfl⟩ := hhit
      rw [if_pos ⟨rfl, rfl⟩, honly s.value (mem_entries_of_getElem? hs)]
    · -- the entry at `d` itself is a hit
      have hne : e ≠ d := by
        rintro rfl
        rw [hd.1] at hs
        cases hs
        exact hhit ⟨rfl, rfl⟩
      rw [if_neg hhit, if_neg (by omega), h.next]
      exact lookupLoop_reached h d hd hle honly fuel (e + 1) (by omega) (by omega)

theorem Holds.unique {pairs : List (List UInt8 × Text)} (h : t.Holds f pairs) {v : Text}
    (hv : (bytes, v) ∈ pairs) (hvalue : (bytes, value) ∈ pairs) : v = value :=
  congrArg Prod.snd (List.inj_on_of_nodup_map h.apart hv hvalue rfl)

/-- **`lookup` finds exactly the pairs that are held.** -/
theorem Holds.lookup_some {pairs : List (List UInt8 × Text)} (h : t.Holds f pairs) :
    t.lookup bytes (f bytes) = .ok (some value) ↔ (bytes, value) ∈ pairs := by
  constructor
  · intro hl
    obtain ⟨r, hr, hmem⟩ := lookup_spec h.toSized bytes (f bytes)
    rw [hl] at hr
    cases hr
    exact h.mem_iff.mp (hmem value rfl)
  · intro hmem
    have hentry : ⟨f bytes, bytes, value⟩ ∈ t.entries := h.mem_iff.mpr hmem
    obtain ⟨d, hlt, hd⟩ := (h.chained _ hentry).lt
    have hle : d ≤ t.mask := by have := h.length; omega
    unfold lookup
    rw [h.and_mask]
    refine lookupLoop_reached h.toSized d hd hle ?_ (t.mask + 1) 0 (by omega) (by omega)
    intro v hv
    exact h.unique (h.mem_iff.mp hv) hmem

theorem Holds.lookup_none {pairs : List (List UInt8 × Text)} (h : t.Holds f pairs) :
    t.lookup bytes (f bytes) = .ok none ↔ bytes ∉ pairs.map Prod.fst := by
  constructor
  · intro hl hmem
    obtain ⟨⟨b, v⟩, hp, rfl⟩ := List.mem_map.mp hmem
    rw [h.lookup_some.mpr hp] at hl
    cases hl
  · intro hn
    obtain ⟨r, hr, hmem⟩ := lookup_spec h.toSized bytes (f bytes)
    cases r with
    | none => exact hr
    | some v => exact absurd (List.mem_map_of_mem (h.mem_iff.mp (hmem v rfl))) hn

end KeySymbolTable

/-! ## Runs -/

variable {f : List UInt8 → UInt32} {log : List TableCall} {t : KeySymbolTable}

/-- A table holds what its run has stored, and bytes that a lookup has missed are not in it. -/
theorem TableRun.holds (h : TableRun f log t) :
    t.Holds f (kept log) ∧ ∀ bytes, missed bytes log = true → bytes ∉ (kept log).map Prod.fst := by
  induction h with
  | new => exact ⟨KeySymbolTable.new_holds f, fun _ hm => by cases hm⟩
  | @lookup log t b found hrun hl ih =>
    refine ⟨ih.1, ?_⟩
    intro bytes hm
    simp only [missed, Bool.or_eq_true, Bool.and_eq_true, beq_iff_eq, Option.isNone_iff_eq_none]
      at hm
    rcases hm with ⟨rfl, rfl⟩ | hm
    · exact ih.1.lookup_none.mp hl
    · exact ih.2 bytes hm
  | @put log t t' b v hrun hmiss hp ih =>
    refine ⟨ih.1.put (ih.2 b hmiss) hp, ?_⟩
    intro bytes hm
    simp only [missed, Bool.and_eq_true, bne_iff_ne, ne_eq] at hm
    rw [kept]
    split
    · rw [List.map_cons, List.mem_cons, not_or]
      exact ⟨fun he => hm.1 he.symm, ih.2 bytes hm.2⟩
    · exact ih.2 bytes hm.2
  | @grow log t t' hrun hg ih =>
    exact ⟨ih.1.grow hg, ih.2⟩

/-- **A table answers as the pairs it was given would**, whatever the hash function: `lookup`, `put`
and `grow` end on it, a lookup finds exactly the pairs whose `put` came while there was room, `size`
counts the slots that are taken, no key is in two of them, and one is free. -/
theorem symbol_table_exact (f : List UInt8 → UInt32) (log : List TableCall) (t : KeySymbolTable)
    (h : TableRun f log t) :
    (∀ bytes value, t.lookup bytes (f bytes) = .ok (some value) ↔ (bytes, value) ∈ kept log) ∧
    (∀ bytes, t.lookup bytes (f bytes) = .ok none ↔ ∀ value, (bytes, value) ∉ kept log) ∧
    (∀ bytes value, ∃ t', t.put bytes (f bytes) value = .ok t') ∧
    (∃ t', t.grow = .ok t') ∧
    t.size = t.slots.countP Option.isSome ∧
    (∀ (i j : Nat) (s s' : Slot), t.slots[i]? = some (some s) → t.slots[j]? = some (some s') →
      s.key = s'.key → i = j) ∧
    ∃ i : Nat, t.slots[i]? = some none := by
  obtain ⟨hh, _⟩ := h.holds
  refine ⟨fun _ _ => hh.lookup_some, ?_, ?_, ?_, ?_, ?_, ?_⟩
  · intro bytes
    rw [hh.lookup_none]
    simp
  · intro bytes value
    obtain ⟨t', ht', _⟩ := KeySymbolTable.put_spec hh.toWf bytes (f bytes) value
    exact ⟨t', ht'⟩
  · obtain ⟨t', ht', _⟩ := KeySymbolTable.grow_spec hh.toWf
    exact ⟨t', ht'⟩
  · rw [← hh.size, KeySymbolTable.entries, length_entries]
  · intro i j s s' hi hj hkey
    exact hh.slot_unique hi hj hkey
  · exact exists_free (by rw [hh.length]; exact hh.size ▸ hh.free)

/-- Under FNV-1a: `a` and `cv` start at the same slot of a new table. Each that was missed and then
put is found, also once the table has grown; another key is not. -/
theorem symbol_table_exact_put :
    KeySymbolTable.hash [97] % 64 = KeySymbolTable.hash [99, 118] % 64 ∧ ∃ t t',
      TableRun KeySymbolTable.hash [.put [99, 118] ['c', 'v'], .lookup [99, 118] none,
        .put [97] ['a'], .lookup [97] none] t ∧ t.grow = .ok t' ∧
      (∀ table, table = t ∨ table = t' →
        table.lookup [97] (KeySymbolTable.hash [97]) = .ok (some ['a']) ∧
        table.lookup [99, 118] (KeySymbolTable.hash [99, 118]) = .ok (some ['c', 'v']) ∧
        table.lookup [98] (KeySymbolTable.hash [98]) = .ok none) := by
  have exact {log : List TableCall} {t : KeySymbolTable}
      (h : TableRun KeySymbolTable.hash log t) := symbol_table_exact KeySymbolTable.hash log t h
  have hmiss₁ := TableRun.new.lookup (((exact .new).2.1 [97]).mpr (by simp [kept]))
  obtain ⟨t₁, ht₁⟩ := (exact hmiss₁).2.2.1 [97] ['a']
  have hrun₁ := hmiss₁.put rfl ht₁
  have hmiss₂ := hrun₁.lookup (((exact hrun₁).2.1 [99, 118]).mpr (by simp [kept, maxEntries]))
  obtain ⟨t₂, ht₂⟩ := (exact hmiss₂).2.2.1 [99, 118] ['c', 'v']
  have hrun₂ := hmiss₂.put rfl ht₂
  obtain ⟨t₃, ht₃⟩ := (exact hrun₂).2.2.2.1
  refine ⟨by decide, t₂, t₃, hrun₂, ht₃, fun table htable => ?_⟩
  have hrun : TableRun KeySymbolTable.hash [.put [99, 118] ['c', 'v'], .lookup [99, 118] none,
      .put [97] ['a'], .lookup [97] none] table := by
    rcases htable with rfl | rfl
    · exact hrun₂
    · exact hrun₂.grow ht₃
  obtain ⟨hsome, hnone, -⟩ := exact hrun
  exact ⟨(hsome _ _).mpr (by decide), (hsome _ _).mpr (by decide),
    (hnone _).mpr (by simp [kept, maxEntries])⟩

end RJsonParser
