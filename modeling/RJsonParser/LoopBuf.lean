import RJsonParser.Handler

/-!
# The caller's ring

`loopbuf` is a dependency, not part of this repository. What the parser and the writer rely on
of it is stated here as the laws of two structures.

* `Spans` — the bytes of a ring as it presents them: a byte list that lies in contiguous spans.
  Nothing is said of where the spans are cut; `Spans.split` cuts a list in two at a given point,
  which is what a ring does at its wrap.
* `LoopBuf` — a queue of bytes of fixed capacity. `layout` says how its contents lie; the caller's
  writing may leave them in any layout.
-/

namespace RJsonParser

/-- `loopbuf::Spans`. -/
structure Spans where
  bytes : List UInt8
  /-- `span_from(i)`: the bytes from `i` to the end of the span that holds it. -/
  spanFrom : Nat → List UInt8
  /-- `contiguous(a..b)`: the bytes from `a` to `b` if they lie in one span. -/
  contiguous : Nat → Nat → Option (List UInt8)
  spanFrom_prefix : ∀ i, spanFrom i <+: bytes.drop i
  spanFrom_ne_nil : ∀ i, i < bytes.length → spanFrom i ≠ []
  contiguous_eq : ∀ a b s, contiguous a b = some s → s = (bytes.drop a).take (b - a)

namespace Spans

/-- `len()`. -/
def len (s : Spans) : Nat := s.bytes.length

/-- `s[i]`, which panics past the end. -/
def get (s : Spans) (i : Nat) : Except Stop UInt8 :=
  match s.bytes[i]? with
  | some b => .ok b
  | none => .error .panic

/-- `skip(n)`: the bytes without the first `n`. -/
def skip (s : Spans) (n : Nat) : Spans where
  bytes := s.bytes.drop n
  spanFrom i := s.spanFrom (n + i)
  contiguous a b := s.contiguous (n + a) (n + b)
  spanFrom_prefix i := by rw [List.drop_drop]; exact s.spanFrom_prefix _
  spanFrom_ne_nil i h := s.spanFrom_ne_nil _ (by rw [List.length_drop] at h; omega)
  contiguous_eq a b t h := by
    rw [s.contiguous_eq _ _ _ h, List.drop_drop, show n + b - (n + a) = b - a by omega]

/-- The bytes in two spans, the second starting at `wrap`. -/
def split (wrap : Nat) (bytes : List UInt8) : Spans where
  bytes := bytes
  spanFrom i := if i < wrap then (bytes.take wrap).drop i else bytes.drop i
  contiguous a b := if b ≤ wrap ∨ wrap ≤ a then some ((bytes.drop a).take (b - a)) else none
  spanFrom_prefix i := by
    split
    · exact (List.take_prefix wrap bytes).drop i
    · exact List.prefix_rfl
  spanFrom_ne_nil i h := by
    split
    · rw [Ne, List.drop_eq_nil_iff, List.length_take]; omega
    · rw [Ne, List.drop_eq_nil_iff]; omega
  contiguous_eq a b s h := by
    split at h
    · exact (Option.some.inj h).symm
    · cases h

/-- A span is the front of the bytes from there on. -/
theorem spanFrom_eq_take (s : Spans) (i : Nat) :
    s.spanFrom i = (s.bytes.drop i).take (s.spanFrom i).length :=
  List.prefix_iff_eq_take.mp (s.spanFrom_prefix i)

theorem length_spanFrom_pos (s : Spans) {i : Nat} (h : i < s.len) : 0 < (s.spanFrom i).length :=
  List.length_pos_iff.mpr (s.spanFrom_ne_nil i h)

theorem length_spanFrom_le (s : Spans) (i : Nat) : (s.spanFrom i).length ≤ s.len - i := by
  have := (s.spanFrom_prefix i).length_le
  rwa [List.length_drop] at this

/-- The first `n` bytes of a span that has that many. -/
theorem take_spanFrom (s : Spans) {i n : Nat} (h : n ≤ (s.spanFrom i).length) :
    (s.spanFrom i).take n = (s.bytes.drop i).take n := by
  rw [spanFrom_eq_take, List.take_take, Nat.min_eq_left h]

/-- A byte that is there is read without a panic. -/
theorem get_eq (s : Spans) {i : Nat} {b : UInt8} {rest : List UInt8}
    (h : s.bytes.drop i = b :: rest) : s.get i = .ok b := by
  have : s.bytes[i]? = some b := by
    rw [← List.head?_drop, h]; rfl
  rw [get, this]

end Spans

/-- `loopbuf::LoopBuf`. -/
structure LoopBuf where
  capacity : Nat
  bytes : List UInt8
  fits : bytes.length ≤ capacity
  layout : List UInt8 → Spans
  layout_bytes : ∀ l, (layout l).bytes = l

namespace LoopBuf

/-- `len()`. -/
def len (b : LoopBuf) : Nat := b.bytes.length

/-- `spare_len()`: the room that is left. -/
def spareLen (b : LoopBuf) : Nat := b.capacity - b.bytes.length

/-- `is_full()`. -/
def isFull (b : LoopBuf) : Bool := b.bytes.length == b.capacity

/-- `spans()`. -/
def spans (b : LoopBuf) : Spans := b.layout b.bytes

@[simp] theorem spans_bytes (b : LoopBuf) : b.spans.bytes = b.bytes := b.layout_bytes _

/-- `advance(n)`: releases the first `n` bytes. -/
def advance (b : LoopBuf) (n : Nat) : LoopBuf :=
  { b with bytes := b.bytes.drop n, fits := by have := b.fits; simp; omega }

/-- `extend_from_slice(s)`: appends as many bytes of `s` as fit. -/
def extendFromSlice (b : LoopBuf) (s : List UInt8) : LoopBuf :=
  { b with
    bytes := b.bytes ++ s.take b.spareLen
    fits := by have := b.fits; simp [spareLen]; omega }

/-- An empty ring of the given capacity that presents its contents in the given layout. -/
def empty (capacity : Nat) (layout : List UInt8 → Spans)
    (h : ∀ l, (layout l).bytes = l) : LoopBuf :=
  ⟨capacity, [], Nat.zero_le _, layout, h⟩

end LoopBuf

end RJsonParser
