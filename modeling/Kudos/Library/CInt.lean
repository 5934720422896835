import Mathlib.Data.Int.Notation
import Mathlib.Tactic.Linarith

set_option autoImplicit false

/-! # The C type `int`

A 32-bit `int` is an integer between `intMin` and `intMax`; arithmetic on it is carried out on the
integers and the result brought back into range by `wrap32`, which is what the two's complement
instructions of the machines do. -/

namespace CInt

def intMax : ℤ := 2 ^ 31 - 1

def intMin : ℤ := -2 ^ 31

/-- The `int` with the same last 32 bits. -/
def wrap32 (x : ℤ) : ℤ := Int.bmod x (2 ^ 32)

theorem wrap32_eq_self {x : ℤ} (hlo : -2 ^ 31 ≤ x) (hhi : x < 2 ^ 31) : wrap32 x = x :=
  Int.bmod_eq_of_le (by omega) (by omega)

theorem wrap32_of_mem {x : ℤ} (hlo : intMin ≤ x) (hhi : x ≤ intMax) : wrap32 x = x :=
  wrap32_eq_self hlo (Int.lt_of_le_sub_one hhi)

theorem wrap32_of_nonneg {x : ℤ} (h0 : 0 ≤ x) (hhi : x ≤ intMax) : wrap32 x = x :=
  wrap32_of_mem (le_trans (by decide) h0) hhi

/-- A sum of two `int`s that is too large becomes negative. -/
theorem wrap32_of_overflow {x : ℤ} (hlo : 2 ^ 31 ≤ x) (hhi : x < 2 ^ 32) : wrap32 x = x - 2 ^ 32 := by
  unfold wrap32
  rw [← Int.sub_bmod_right]
  exact Int.bmod_eq_of_le (by omega) (by omega)

/-- The division goes towards zero. -/
theorem tdiv_of_nonpos {x : ℤ} (h : x ≤ 0) (d : ℤ) : x.tdiv d = -(-x / d) := by
  rw [← Int.tdiv_eq_ediv_of_nonneg (by omega), Int.neg_tdiv, neg_neg]

/-- The result of an operation, where it is an `int`. -/
def checked (x : ℤ) : Option ℤ := if intMin ≤ x ∧ x ≤ intMax then some x else none

theorem checked_of_mem {x : ℤ} (hlo : intMin ≤ x) (hhi : x ≤ intMax) : checked x = some x :=
  if_pos ⟨hlo, hhi⟩

end CInt
