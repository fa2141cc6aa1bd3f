import RJsonParser.Handler
import RJsonParser.Infra.Exec
import RJsonParser.Infra.Probing

/-!
# The key symbol table

`src/keys.rs`: an open addressing table from key bytes to decoded keys, hashed with FNV-1a. The
three arrays of the source always change together at one index, so they are one list of slots.

The probe loops of `put` and `grow` have no bound of their own. What makes them end is that a slot
is always free (`Wf.free`); here they are given as many steps as there are slots.
-/

namespace RJsonParser

open Infra

def fnvOffsetBasis : UInt32 := 0x811C9DC5

def fnvPrime : UInt32 := 0x01000193

/-- `MAX_ENTRIES`. -/
def maxEntries : Nat := 10000

/-- `DEFAULT_CAPACITY`. -/
def defaultCapacity : Nat := 64

/-- `MAX_KEY_BYTES`: only keys of up to this many bytes are interned. -/
def maxKeyBytes : Nat := 64

/-- An occupied slot: an entry each of `hashes`, `keys` and `values`. -/
structure Slot where
  hash : UInt32
  key : List UInt8
  value : Text
deriving DecidableEq, Repr

/-- `KeySymbolTable`. -/
structure KeySymbolTable where
  slots : List (Option Slot)
  size : Nat
  mask : Nat
deriving DecidableEq, Repr

namespace KeySymbolTable

/-- `allocate`. -/
def allocate (t : KeySymbolTable) (capacity : Nat) : KeySymbolTable :=
  { t with slots := List.replicate capacity none, mask := capacity - 1 }

/-- `KeySymbolTable::new`. -/
def new : KeySymbolTable := allocate ⟨[], 0, 0⟩ defaultCapacity

def initialHash : UInt32 := fnvOffsetBasis

def hashByte (hash : UInt32) (b : UInt8) : UInt32 := (hash ^^^ b.toUInt32) * fnvPrime

/-- The hash that `process_key` folds over the key bytes. -/
def hash (bytes : List UInt8) : UInt32 := bytes.foldl hashByte initialHash

/-- The loop of `lookup`. -/
def lookupLoop (t : KeySymbolTable) (bytes : List UInt8) (hash : UInt32) :
    Nat → Nat → Nat → Except Stop (Option Text)
  | 0, _, _ => .error .outOfFuel
  | fuel + 1, idx, probes =>
    match t.slots[idx]? with
    | none => .error .panic
    | some none => .ok none
    | some (some slot) =>
      if slot.hash = hash ∧ slot.key = bytes then .ok (some slot.value)
      else if t.mask < probes + 1 then .ok none
      else lookupLoop t bytes hash fuel ((idx + 1) &&& t.mask) (probes + 1)

/-- `lookup`. -/
def lookup (t : KeySymbolTable) (bytes : List UInt8) (hash : UInt32) :
    Except Stop (Option Text) :=
  lookupLoop t bytes hash (t.mask + 1) (hash.toNat &&& t.mask) 0

/-- The probe loop of `put` and `grow`: the first free slot from `idx` on. -/
def probe (t : KeySymbolTable) : Nat → Nat → Except Stop Nat
  | 0, _ => .error .outOfFuel
  | fuel + 1, idx =>
    match t.slots[idx]? with
    | none => .error .panic
    | some none => .ok idx
    | some (some _) => probe t fuel ((idx + 1) &&& t.mask)

/-- Puts an entry into the first free slot of its probe sequence. -/
def place (t : KeySymbolTable) (slot : Slot) : Except Stop KeySymbolTable := do
  let idx ← probe t (t.mask + 1) (slot.hash.toNat &&& t.mask)
  .ok { t with slots := t.slots.set idx (some slot) }

/-- `grow`: a table of twice the capacity, the entries placed anew in slot order. -/
def grow (t : KeySymbolTable) : Except Stop KeySymbolTable :=
  (t.slots.filterMap id).foldlM place (t.allocate ((t.mask + 1) * 2))

/-- Grows a table that is three quarters full. -/
def growIfLoaded (t : KeySymbolTable) : Except Stop KeySymbolTable :=
  let cap := t.mask + 1
  if cap - (cap >>> 2) ≤ t.size then grow t else .ok t

/-- `put`. -/
def put (t : KeySymbolTable) (bytes : List UInt8) (hash : UInt32) (value : Text) :
    Except Stop KeySymbolTable := do
  if maxEntries ≤ t.size then .ok t
  else
    let t ← growIfLoaded t
    let t ← place t ⟨hash, bytes, value⟩
    .ok { t with size := t.size + 1 }

/-! ## What keeps the probe loops finite -/

/-- The entries of the table, in slot order. -/
def entries (t : KeySymbolTable) : List Slot := t.slots.filterMap id

/-- The capacity is a power of two, and all of it is there. -/
structure Sized (t : KeySymbolTable) : Prop where
  pow : ∃ k, 2 ≤ k ∧ t.mask + 1 = 2 ^ k
  length : t.slots.length = t.mask + 1

/-- The table as `new` and `put` keep it: `size` counts the entries and a slot is free. -/
structure Wf (t : KeySymbolTable) : Prop extends Sized t where
  size : t.entries.length = t.size
  free : t.size < t.mask + 1

/-- Every entry can be found from the home slot of its hash. -/
def Chained (t : KeySymbolTable) : Prop := ∀ s ∈ t.entries, Reached t.slots s.hash.toNat s

/-- The mask is the remainder by the number of slots. -/
theorem Sized.and_mask {t : KeySymbolTable} (h : t.Sized) (n : Nat) :
    n &&& t.mask = n % t.slots.length := by
  obtain ⟨k, _, hk⟩ := h.pow
  rw [h.length, hk, show t.mask = 2 ^ k - 1 by omega, Nat.and_two_pow_sub_one_eq_mod]

/-- The next slot, counted from where the search began. -/
theorem Sized.next {t : KeySymbolTable} (h : t.Sized) (start e : Nat) :
    ((start + e) % t.slots.length + 1) &&& t.mask = (start + (e + 1)) % t.slots.length := by
  rw [h.and_mask, Nat.mod_add_mod, Nat.add_assoc]

/-- No index is out of bounds. -/
theorem Sized.getElem? {t : KeySymbolTable} (h : t.Sized) (n : Nat) :
    ∃ o, t.slots[n % t.slots.length]? = some o := by
  have hlt : n % t.slots.length < t.slots.length :=
    Nat.mod_lt _ (by rw [h.length]; omega)
  exact ⟨_, List.getElem?_eq_getElem hlt⟩

/-- The probe loop ends at the first free slot, if there is one ahead. -/
theorem probe_spec {t : KeySymbolTable} (h : t.Sized) (start : Nat) : ∀ (fuel e d : Nat),
    d < fuel → t.slots[(start + (e + d)) % t.slots.length]? = some none →
    (∀ e' < e, Occupied t.slots start e') →
    ∃ d', probe t fuel ((start + e) % t.slots.length) = .ok ((start + d') % t.slots.length) ∧
      t.slots[(start + d') % t.slots.length]? = some none ∧
      ∀ e' < d', Occupied t.slots start e'
  | fuel + 1, e, d, hd, hfree, hbefore => by
    rw [probe]
    obtain ⟨o, ho⟩ := h.getElem? (start + e)
    rw [ho]
    cases o with
    | none => exact ⟨e, rfl, ho, hbefore⟩
    | some slot =>
      cases d with
      | zero =>
        rw [Nat.add_zero, ho] at hfree
        cases hfree
      | succ d =>
        simp only [h.next]
        refine probe_spec h start fuel (e + 1) d (by omega) ?_ ?_
        · rw [show e + 1 + d = e + (d + 1) by omega]
          exact hfree
        · intro e' he'
          rcases Nat.lt_succ_iff_lt_or_eq.mp he' with hlt | rfl
          · exact hbefore e' hlt
          · exact ⟨slot, ho⟩

/-- `place` ends, adds the entry and leaves all of them where lookups find them. -/
theorem place_spec {t : KeySymbolTable} (h : t.Sized) (hfree : t.entries.length < t.mask + 1)
    (slot : Slot) : ∃ t', place t slot = .ok t' ∧ t'.Sized ∧ t'.mask = t.mask ∧
      t'.size = t.size ∧ t'.entries.Perm (slot :: t.entries) ∧ (t.Chained → t'.Chained) := by
  have hlt : (t.slots.filterMap id).length < t.slots.length := by rw [h.length]; exact hfree
  obtain ⟨j, hj⟩ := exists_free hlt
  have hjlt : j < t.slots.length := (List.getElem?_eq_some_iff.mp hj).1
  have hlen := h.length
  generalize hst : slot.hash.toNat % t.slots.length = start
  have hstart : start < t.slots.length := by
    rw [← hst]; exact Nat.mod_lt _ (by omega)
  have hd : t.slots[(slot.hash.toNat + (0 + (j + t.slots.length - start) % t.slots.length)) %
      t.slots.length]? = some none := by
    rw [Nat.zero_add, Nat.add_mod_mod, Nat.add_mod, hst, Nat.add_mod_mod,
      show start + (j + t.slots.length - start) = j + t.slots.length by omega,
      Nat.add_mod_right, Nat.mod_eq_of_lt hjlt]
    exact hj
  obtain ⟨d, hprobe, hnone, hocc⟩ := probe_spec h slot.hash.toNat (t.mask + 1) 0 _
    (by rw [← h.length]; exact Nat.mod_lt _ (by omega)) hd (fun e' he' => by omega)
  refine ⟨{ t with slots := t.slots.set ((slot.hash.toNat + d) % t.slots.length) (some slot) },
    ?_, ⟨h.pow, ?_⟩, rfl, rfl, entries_fill hnone, ?_⟩
  · unfold place
    simp only [Nat.add_zero] at hprobe
    rw [h.and_mask, hprobe]; rfl
  · simpa using h.length
  · intro hc s hs
    rcases List.mem_cons.mp ((entries_fill hnone).mem_iff.mp hs) with rfl | hs
    · exact reached_fill hnone hocc
    · exact (hc s hs).fill hnone

/-- Placing a list of entries into a table that has room for all of them. -/
theorem foldlM_place_spec : ∀ (l : List Slot) {t : KeySymbolTable}, t.Sized →
    t.entries.length + l.length < t.mask + 1 →
    ∃ t', l.foldlM place t = .ok t' ∧ t'.Sized ∧ t'.mask = t.mask ∧ t'.size = t.size ∧
      t'.entries.Perm (l ++ t.entries) ∧ (t.Chained → t'.Chained)
  | [], t, h, _ => ⟨t, rfl, h, rfl, rfl, .refl _, id⟩
  | slot :: l, t, h, hroom => by
    rw [List.length_cons] at hroom
    obtain ⟨t₁, h₁, hs₁, hm₁, hz₁, he₁, hc₁⟩ := place_spec h (by omega) slot
    have hl₁ := he₁.length_eq
    rw [List.length_cons] at hl₁
    obtain ⟨t₂, h₂, hs₂, hm₂, hz₂, he₂, hc₂⟩ := foldlM_place_spec l hs₁ (by omega)
    refine ⟨t₂, ?_, hs₂, hm₂.trans hm₁, hz₂.trans hz₁, ?_, fun hc => hc₂ (hc₁ hc)⟩
    · rw [List.foldlM_cons, h₁]; exact h₂
    · exact he₂.trans ((he₁.append_left l).trans List.perm_middle)

theorem entries_allocate (t : KeySymbolTable) (n : Nat) : (t.allocate n).entries = [] := by
  simp [entries, allocate]

/-- **`grow`** doubles the table and keeps its entries, so that the search comes past all of them
again. -/
theorem grow_spec {t : KeySymbolTable} (h : t.Wf) :
    ∃ t', grow t = .ok t' ∧ t'.Wf ∧ t'.mask + 1 = (t.mask + 1) * 2 ∧ t'.size = t.size ∧
      t'.entries.Perm t.entries ∧ t'.Chained := by
  have hs : (t.allocate ((t.mask + 1) * 2)).Sized := by
    obtain ⟨k, hk, hp⟩ := h.pow
    refine ⟨⟨k + 1, by omega, ?_⟩, ?_⟩
    · rw [Nat.pow_succ, ← hp]; simp [allocate]; omega
    · simp [allocate]; omega
  have hlen : t.entries.length = t.size := h.size
  have hlt := h.free
  obtain ⟨t', ht', hs', hm', hz', he', hc'⟩ := foldlM_place_spec t.entries hs (by
    rw [entries_allocate]; simp [allocate]; omega)
  rw [entries_allocate, List.append_nil] at he'
  simp only [allocate] at hm' hz'
  refine ⟨t', ht', ⟨hs', by rw [he'.length_eq, hz']; exact hlen, by omega⟩, by omega, hz', he', ?_⟩
  apply hc'
  intro s hmem
  rw [entries_allocate] at hmem
  cases hmem

/-- Growing leaves the entries as they are, and room for one more. -/
theorem growIfLoaded_spec {t : KeySymbolTable} (h : t.Wf) :
    ∃ t', growIfLoaded t = .ok t' ∧ t'.Wf ∧ t'.size + 1 < t'.mask + 1 ∧ t'.size = t.size ∧
      t'.entries.Perm t.entries ∧ (t.Chained → t'.Chained) := by
  by_cases hlt : t.mask + 1 - ((t.mask + 1) >>> 2) ≤ t.size
  · obtain ⟨t', h', hw', hm', hz', he', hc'⟩ := grow_spec h
    have := h.free
    exact ⟨t', (if_pos hlt).trans h', hw', by omega, hz', he', fun _ => hc'⟩
  · obtain ⟨k, hk, hp⟩ := h.pow
    have h4 : 4 ≤ t.mask + 1 := by
      rw [hp]; exact (Nat.pow_le_pow_right (by omega) hk : 2 ^ 2 ≤ 2 ^ k)
    have hload := hlt
    rw [Nat.shiftRight_eq_div_pow] at hload
    exact ⟨t, if_neg hlt, h, by omega, rfl, .refl _, id⟩

/-- **`put` ends and keeps the table well formed**: a full table stays as it is, any other gets the
one entry. -/
theorem put_spec {t : KeySymbolTable} (h : t.Wf) (bytes : List UInt8) (hash : UInt32)
    (value : Text) : ∃ t', put t bytes hash value = .ok t' ∧ t'.Wf ∧ (t.Chained → t'.Chained) ∧
      if t.size < maxEntries then t'.entries.Perm (⟨hash, bytes, value⟩ :: t.entries)
      else t' = t := by
  by_cases hmax : maxEntries ≤ t.size
  · exact ⟨t, by rw [put, if_pos hmax], h, id, by rw [if_neg (by omega)]⟩
  obtain ⟨t₁, h₁, hw₁, hf₁, _, he₁, hc₁⟩ := growIfLoaded_spec h
  have hz₁ := hw₁.size
  obtain ⟨t₂, h₂, hs₂, hm₂, hz₂, he₂, hc₂⟩ :=
    place_spec hw₁.toSized (by omega) ⟨hash, bytes, value⟩
  have hl₂ := he₂.length_eq
  rw [List.length_cons] at hl₂
  refine ⟨{ t₂ with size := t₂.size + 1 }, ?_, ⟨⟨hs₂.pow, hs₂.length⟩, ?_, ?_⟩,
    fun hc => hc₂ (hc₁ hc), ?_⟩
  · rw [put, if_neg hmax]
    simp only [h₁, except_ok_bind, h₂]
  · show t₂.entries.length = t₂.size + 1
    omega
  · show t₂.size + 1 < t₂.mask + 1
    omega
  · rw [if_pos (by omega)]
    exact he₂.trans (he₁.cons _)

/-- What a table holds after a `put` is what it held before and the one entry. -/
theorem mem_of_put {t t' : KeySymbolTable} {bytes : List UInt8} {hash : UInt32} {value : Text}
    (h : if t.size < maxEntries then t'.entries.Perm (⟨hash, bytes, value⟩ :: t.entries)
      else t' = t) : ∀ s ∈ t'.entries, s = ⟨hash, bytes, value⟩ ∨ s ∈ t.entries := by
  intro s hs
  split at h
  · exact List.mem_cons.mp (h.mem_iff.mp hs)
  · exact .inr (h ▸ hs)

theorem new_wf : new.Wf := by
  refine ⟨⟨⟨6, by omega, rfl⟩, rfl⟩, rfl, by decide⟩

@[simp] theorem entries_new : new.entries = [] := rfl

/-- The loop of `lookup`, from the slot it has come to: it ends, and what it finds is in the
table. -/
theorem lookupLoop_spec {t : KeySymbolTable} (h : t.Sized) (bytes : List UInt8) (hash : UInt32) :
    ∀ (fuel e : Nat), t.mask + 1 ≤ fuel + e → e ≤ t.mask →
      ∃ r, lookupLoop t bytes hash fuel ((hash.toNat + e) % t.slots.length) e = .ok r ∧
        ∀ v, r = some v → ⟨hash, bytes, v⟩ ∈ t.entries
  | 0, e, hf, hp => by omega
  | fuel + 1, e, hf, hp => by
    rw [lookupLoop]
    obtain ⟨o, ho⟩ := h.getElem? (hash.toNat + e)
    rw [ho]
    cases o with
    | none => exact ⟨none, rfl, fun v hv => by cases hv⟩
    | some slot =>
      simp only []
      split
      · next heq =>
        obtain ⟨rfl, rfl⟩ := heq
        refine ⟨some slot.value, rfl, ?_⟩
        rintro v ⟨⟩
        exact mem_entries_of_getElem? ho
      · split
        · exact ⟨none, rfl, fun v hv => by cases hv⟩
        · rw [h.next]
          exact lookupLoop_spec h bytes hash fuel (e + 1) (by omega) (by omega)

/-- **`lookup` ends, and what it returns was put under these bytes.** -/
theorem lookup_spec {t : KeySymbolTable} (h : t.Sized) (bytes : List UInt8) (hash : UInt32) :
    ∃ r, lookup t bytes hash = .ok r ∧ ∀ v, r = some v → ⟨hash, bytes, v⟩ ∈ t.entries := by
  unfold lookup
  rw [h.and_mask]
  exact lookupLoop_spec h bytes hash (t.mask + 1) 0 (by omega) (by omega)

end KeySymbolTable

end RJsonParser
