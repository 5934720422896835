import Mathlib.Data.Int.Notation
import Mathlib.Data.List.Basic
import Mathlib.Data.List.Range
import Mathlib.Logic.Function.Basic

set_option autoImplicit false

/-! # Circular buffers

A buffer of `n` cells with the index of its first element and the number of its elements, both kept in
the way C code keeps them: the head wraps around at `n`, and the count is a signed integer that nothing
protects from leaving the range 0 to `n`. While it stays there (`RingBuffer.Valid`) the buffer is a queue:
`push` appends to the contents, `pop` takes the first element off. -/

/-- A circular buffer. -/
structure RingBuffer (α : Type) where
  buf : ℕ → α
  head : ℕ
  count : ℤ

namespace RingBuffer

variable {α : Type} (n : ℕ) (r : RingBuffer α)

/-- The index of the first cell behind the elements. -/
def tail : ℕ := ((r.head + r.count).tmod n).toNat

/-- Store an element behind the others, whether there is room or not. -/
def push (a : α) : RingBuffer α :=
  { r with buf := Function.update r.buf (r.tail n) a, count := r.count + 1 }

/-- The first element. -/
def front : α := r.buf r.head

/-- Drop the first element, whether there is one or not. -/
def pop : RingBuffer α := { r with head := (r.head + 1) % n, count := r.count - 1 }

/-- The elements, first to last. -/
def contents : List α := (List.range r.count.toNat).map (fun k => r.buf ((r.head + k) % n))

/-- Head and count are in range. -/
structure Valid : Prop where
  head_lt : r.head < n
  count_nonneg : 0 ≤ r.count
  count_le : r.count ≤ n

@[simp] theorem push_count (a : α) : (r.push n a).count = r.count + 1 := rfl

@[simp] theorem pop_count : (r.pop n).count = r.count - 1 := rfl

variable {n r}

theorem length_contents : (r.contents n).length = r.count.toNat := by simp [contents]

theorem contents_eq_nil (h : r.count = 0) : r.contents n = [] := by simp [contents, h]

theorem Valid.tail_eq (h : r.Valid n) : r.tail n = (r.head + r.count.toNat) % n := by
  have hcount := h.count_nonneg
  have hsum : (r.head : ℤ) + r.count = ((r.head + r.count.toNat : ℕ) : ℤ) := by
    push_cast
    omega
  rw [tail, hsum, ← Int.ofNat_tmod, Int.toNat_natCast]

/-- Cells at different distances from the head, less than a round apart, are different cells. -/
theorem add_mod_ne {head j k : ℕ} (hjk : j < k) (hk : k < n) : (head + j) % n ≠ (head + k) % n := by
  intro he
  have hmod : (head + k - (head + j)) % n = 0 := Nat.sub_mod_eq_zero_of_mod_eq he.symm
  rw [Nat.add_sub_add_left, Nat.mod_eq_of_lt (by omega)] at hmod
  omega

theorem Valid.push (h : r.Valid n) (hroom : r.count < n) (a : α) : (r.push n a).Valid n :=
  ⟨h.head_lt, by have := h.count_nonneg; simp only [push_count]; omega,
    by simp only [push_count]; omega⟩

/-- Storing into a buffer with room appends. -/
theorem Valid.contents_push (h : r.Valid n) (hroom : r.count < n) (a : α) :
    (r.push n a).contents n = r.contents n ++ [a] := by
  have hcount := h.count_nonneg
  have hsucc : (r.count + 1).toNat = r.count.toNat + 1 := by omega
  rw [contents, push_count, hsucc, List.range_succ, List.map_append, contents]
  congr 1
  · refine List.map_congr_left (fun k hk => ?_)
    have hne : (r.head + k) % n ≠ r.tail n := by
      rw [h.tail_eq]
      exact add_mod_ne (List.mem_range.1 hk) (by omega)
    exact Function.update_of_ne hne _ _
  · simp [RingBuffer.push, h.tail_eq]

theorem Valid.pop (h : r.Valid n) (hpos : 0 < r.count) : (r.pop n).Valid n :=
  ⟨Nat.mod_lt _ (by have := h.head_lt; omega), by simp only [pop_count]; omega,
    by have := h.count_le; simp only [pop_count]; omega⟩

/-- Dropping the first element of a buffer that has one. -/
theorem Valid.contents_pop (h : r.Valid n) (hpos : 0 < r.count) :
    r.contents n = r.front :: (r.pop n).contents n := by
  have hsucc : r.count.toNat = (r.count - 1).toNat + 1 := by omega
  rw [contents, hsucc, List.range_succ_eq_map, List.map_cons, List.map_map, contents, pop_count]
  congr 1
  · simp [front, Nat.mod_eq_of_lt h.head_lt]
  · refine List.map_congr_left (fun k _ => ?_)
    simp only [Function.comp_apply, RingBuffer.pop, Nat.mod_add_mod]
    congr 2
    omega

end RingBuffer
