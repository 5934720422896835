import Mathlib.Logic.Function.Basic
import Mathlib.Data.Nat.Notation
import Mathlib.Tactic.SplitIfs
import Mathlib.Tactic.Tauto

set_option autoImplicit false

/-! # Bitmaps of 64-bit words with `int` masks

`vm/x86_64` keeps two bitmaps, of page tables and of physical frames, as arrays of 64-bit words. The
mask of a bit is written `1 << (bit % 64)`, which is an `int`: the processor shifts by the count modulo
32 and extends the sign. So the masks of the bits `k` and `k + 32` of a word are the same, and the mask
of bit 31 covers all bits from 31 on. -/

namespace Kudos

/-- `1 << k`, as an operand of 64 bits. -/
def intShift (k : ℕ) : BitVec 64 := (1#32 <<< (k % 32)).signExtend 64

/-- The words of a bitmap. -/
abbrev WordBitmap := ℕ → BitVec 64

namespace WordBitmap

/-- `bitmap[bit / 64] |= (1 << (bit % 64))`. -/
def setbit (b : WordBitmap) (bit : ℕ) : WordBitmap :=
  Function.update b (bit / 64) (b (bit / 64) ||| intShift (bit % 64))

/-- `bitmap[bit / 64] &= ~(1 << (bit % 64))`. -/
def unsetbit (b : WordBitmap) (bit : ℕ) : WordBitmap :=
  Function.update b (bit / 64) (b (bit / 64) &&& ~~~intShift (bit % 64))

/-- `bitmap[bit / 64] & (1 << (bit % 64))`. -/
def testbit (b : WordBitmap) (bit : ℕ) : BitVec 64 := b (bit / 64) &&& intShift (bit % 64)

end WordBitmap

/-- The bits of a mask. -/
theorem getLsbD_intShift (k j : ℕ) :
    (intShift k).getLsbD j = decide (j < 64 ∧ min j 31 = k % 32) := by
  have hk : k % 32 < 32 := Nat.mod_lt k (by decide)
  unfold intShift
  rw [BitVec.getLsbD_signExtend, BitVec.msb_eq_getLsbD_last, BitVec.getLsbD_shiftLeft,
    BitVec.getLsbD_shiftLeft, BitVec.getLsbD_one, BitVec.getLsbD_one]
  by_cases h64 : j < 64
  · by_cases h32 : j < 32
    · simp only [h64, h32, decide_true, if_true, Bool.true_and, true_and]
      by_cases hj : j < k % 32
      · simp [hj]
        omega
      · simp [hj]
        omega
    · have hmin : min j 31 = 31 := by omega
      simp only [h64, h32, decide_true, if_false, Bool.true_and, true_and, hmin]
      by_cases hj : k % 32 = 31
      · simp [hj]
      · have hlt : ¬ 31 < k % 32 := by omega
        simp [hlt]
        omega
  · simp [h64]

/-- A word has a bit under the mask. -/
theorem and_intShift_ne_zero_iff (w : BitVec 64) (k : ℕ) :
    w &&& intShift k ≠ 0 ↔ ∃ j < 64, min j 31 = k % 32 ∧ w.getLsbD j = true := by
  constructor
  · intro h
    by_contra hnone
    refine h (BitVec.eq_of_getLsbD_eq fun j hj => ?_)
    rw [BitVec.getLsbD_and, getLsbD_intShift]
    by_cases hclass : min j 31 = k % 32
    · have : w.getLsbD j = false := by
        by_contra hbit
        exact hnone ⟨j, hj, hclass, by simpa using hbit⟩
      simp [this]
    · simp [hclass]
  · rintro ⟨j, hj, hclass, hbit⟩ hzero
    have hand := congrArg (BitVec.getLsbD · j) hzero
    simp only [BitVec.getLsbD_and, getLsbD_intShift, hbit, hj, hclass] at hand
    simp at hand

namespace WordBitmap

variable (b : WordBitmap)

/-- Two bits with the same mask in the same word. -/
def SameMask (i j : ℕ) : Prop := i / 64 = j / 64 ∧ i % 32 = j % 32

theorem testbit_ne_zero_iff (i : ℕ) : b.testbit i ≠ 0 ↔
    ∃ j < 64, min j 31 = i % 32 ∧ (b (i / 64)).getLsbD j = true := by
  unfold testbit
  rw [and_intShift_ne_zero_iff, Nat.mod_mod_of_dvd i (by decide : 32 ∣ 64)]

theorem testbit_congr {i j : ℕ} (h : SameMask i j) : b.testbit i ≠ 0 ↔ b.testbit j ≠ 0 := by
  rw [testbit_ne_zero_iff, testbit_ne_zero_iff, h.1, h.2]

theorem testbit_setbit (i j : ℕ) :
    (b.setbit i).testbit j ≠ 0 ↔ SameMask i j ∨ b.testbit j ≠ 0 := by
  rw [testbit_ne_zero_iff, testbit_ne_zero_iff]
  unfold setbit SameMask
  by_cases hw : j / 64 = i / 64
  · rw [hw, Function.update_self]
    simp only [BitVec.getLsbD_or, getLsbD_intShift, Bool.or_eq_true, decide_eq_true_eq,
      Nat.mod_mod_of_dvd i (by decide : 32 ∣ 64)]
    constructor
    · rintro ⟨n, hn, hclass, hbit | ⟨-, hbit⟩⟩
      · exact Or.inr ⟨n, hn, hclass, hbit⟩
      · exact Or.inl ⟨trivial, by omega⟩
    · rintro (⟨-, heq⟩ | ⟨n, hn, hclass, hbit⟩)
      · exact ⟨j % 32, by omega, by omega, Or.inr ⟨by omega, by omega⟩⟩
      · exact ⟨n, hn, hclass, Or.inl hbit⟩
  · rw [Function.update_of_ne hw]
    constructor
    · exact Or.inr
    · rintro (⟨heq, -⟩ | h)
      · exact absurd heq.symm hw
      · exact h

theorem testbit_unsetbit (i j : ℕ) :
    (b.unsetbit i).testbit j ≠ 0 ↔ ¬ SameMask i j ∧ b.testbit j ≠ 0 := by
  rw [testbit_ne_zero_iff, testbit_ne_zero_iff]
  unfold unsetbit SameMask
  by_cases hw : j / 64 = i / 64
  · rw [hw, Function.update_self]
    simp only [BitVec.getLsbD_and, BitVec.getLsbD_not, getLsbD_intShift, Bool.and_eq_true,
      Bool.not_eq_true', decide_eq_false_iff_not, decide_eq_true_eq,
      Nat.mod_mod_of_dvd i (by decide : 32 ∣ 64)]
    constructor
    · rintro ⟨n, hn, hclass, hbit, -, hkeep⟩
      exact ⟨fun heq => hkeep ⟨hn, by omega⟩, n, hn, hclass, hbit⟩
    · rintro ⟨hne, n, hn, hclass, hbit⟩
      exact ⟨n, hn, hclass, hbit, hn, fun heq => hne ⟨trivial, by omega⟩⟩
  · rw [Function.update_of_ne hw]
    constructor
    · exact fun h => ⟨fun heq => hw heq.1.symm, h⟩
    · exact fun h => h.2

/-! ## One bit at a time -/

/-- The other bit with the mask of `i`. -/
def twin (i : ℕ) : ℕ := if i % 64 < 32 then i + 32 else i - 32

theorem sameMask_twin (i : ℕ) : SameMask i (twin i) := by
  unfold SameMask twin
  split_ifs <;> omega

theorem sameMask_iff {i j : ℕ} : SameMask i j ↔ j = i ∨ j = twin i := by
  unfold SameMask twin
  split_ifs <;> omega

theorem twin_ne (i : ℕ) : twin i ≠ i := by
  unfold twin
  split_ifs <;> omega

theorem testbit_setbit_self (i : ℕ) : (b.setbit i).testbit i ≠ 0 :=
  (b.testbit_setbit i i).2 (Or.inl ⟨rfl, rfl⟩)

theorem testbit_unsetbit_self (i : ℕ) : (b.unsetbit i).testbit i = 0 := by
  by_contra h
  exact ((b.testbit_unsetbit i i).1 h).1 ⟨rfl, rfl⟩

/-- Setting a bit leaves another one, unless it is set with it. -/
theorem testbit_setbit_iff_self (i j : ℕ) :
    ((b.setbit i).testbit j ≠ 0 ↔ b.testbit j ≠ 0) ↔ ¬SameMask i j ∨ b.testbit j ≠ 0 := by
  rw [testbit_setbit]
  tauto

/-- Clearing a bit leaves another one, unless it is cleared with it. -/
theorem testbit_unsetbit_iff_self (i j : ℕ) :
    ((b.unsetbit i).testbit j ≠ 0 ↔ b.testbit j ≠ 0) ↔ ¬SameMask i j ∨ b.testbit j = 0 := by
  rw [testbit_unsetbit]
  tauto

/-- The two calls for the bit `i` of a bitmap with `n` bits act on it, and on no other bit. -/
def ActsOnOneBit (n i : ℕ) : Prop :=
  (b.setbit i).testbit i ≠ 0 ∧ (b.unsetbit i).testbit i = 0 ∧ ∀ j < n, j ≠ i →
    ((b.setbit i).testbit j ≠ 0 ↔ b.testbit j ≠ 0) ∧ ((b.unsetbit i).testbit j ≠ 0 ↔ b.testbit j ≠ 0)

/-- One of the two calls changes the other bit with the mask, so there must not be one. -/
theorem actsOnOneBit_iff (n i : ℕ) : b.ActsOnOneBit n i ↔ n ≤ twin i := by
  constructor
  · intro ⟨_, _, hothers⟩
    by_contra hlt
    obtain ⟨hset, hunset⟩ := hothers (twin i) (Nat.not_le.1 hlt) (twin_ne i)
    have hmask := sameMask_twin i
    have hone := ((b.testbit_setbit_iff_self i (twin i)).1 hset).resolve_left (not_not.2 hmask)
    have hzero := ((b.testbit_unsetbit_iff_self i (twin i)).1 hunset).resolve_left (not_not.2 hmask)
    exact hone hzero
  · intro hle
    refine ⟨b.testbit_setbit_self i, b.testbit_unsetbit_self i, fun j hj hne => ?_⟩
    have hmask : ¬SameMask i j := by
      intro h
      rcases sameMask_iff.1 h with rfl | rfl
      · exact hne rfl
      · omega
    exact ⟨(b.testbit_setbit_iff_self i j).2 (Or.inl hmask),
      (b.testbit_unsetbit_iff_self i j).2 (Or.inl hmask)⟩

end WordBitmap

end Kudos
