import Kudos.Kernel.Thread
import Mathlib.Data.List.Range

set_option autoImplicit false

/-! # Bitmaps of 32-bit words

The functions of `lib/bitmap.c` on an array of words, of any length. How the words lie in memory does
not matter here: bit `j` of a word is the bit of value `2^j`. -/

namespace Kudos

/-- The words of a bitmap. -/
abbrev BitmapWords := ℕ → BitVec 32

/-- What `bitmap_set` makes of a word. -/
def setWordBit (w : BitVec 32) (j : ℕ) (value : Bool) : BitVec 32 :=
  if value then w ||| (1#32 <<< j) else w &&& ~~~(1#32 <<< j)

namespace BitmapWords

/-- `bitmap_init`, on memory with arbitrary contents. -/
def init (mem : BitmapWords) (size : ℕ) : BitmapWords :=
  fun i => if i < (size + 31) / 32 then 0 else mem i

/-- `bitmap_get`. -/
def get (b : BitmapWords) (pos : ℕ) : Bool := (b (pos / 32)).getLsbD (pos % 32)

/-- `bitmap_set`. -/
def set (b : BitmapWords) (pos : ℕ) (value : Bool) : BitmapWords :=
  Function.update b (pos / 32) (setWordBit (b (pos / 32)) (pos % 32) value)

/-- The search of `bitmap_findnset` for a zero bit among the first `l`. A word that is not all ones has
    a zero bit, so the loop over the bits of such a word always returns. -/
def findZero (b : BitmapWords) (l : ℕ) : Option ℕ :=
  match (List.range ((l + 31) / 32)).find? (fun i => b i ≠ 0xffffffff#32) with
  | none => none
  | some i =>
      match (List.range 32).find? (fun j => !b.get (32 * i + j)) with
      | none => none
      | some j => if l ≤ 32 * i + j then none else some (32 * i + j)

/-- `bitmap_findnset`. -/
def findnset (b : BitmapWords) (l : ℕ) : ℤ × BitmapWords :=
  match b.findZero l with
  | none => (-1, b)
  | some p => (p, b.set p true)

end BitmapWords

/-- `1 << j` has bit `j` set and no other. -/
theorem getLsbD_one_shiftLeft {i j : ℕ} (hj : j < 32) :
    (1#32 <<< j).getLsbD i = decide (i = j) := by
  rw [BitVec.getLsbD_shiftLeft, BitVec.getLsbD_one]
  by_cases hij : i = j
  · simp [hij, hj]
  · by_cases hlt : i < j
    · simp [hlt, hij]
    · have hne : i - j ≠ 0 := by omega
      simp [hne, hij]

theorem getLsbD_setWordBit (w : BitVec 32) {i j : ℕ} (hi : i < 32) (hj : j < 32) (v : Bool) :
    (setWordBit w j v).getLsbD i = if i = j then v else w.getLsbD i := by
  have hbit := getLsbD_one_shiftLeft (i := i) hj
  unfold setWordBit
  cases v
  · simp only [Bool.false_eq_true, if_false, BitVec.getLsbD_and, BitVec.getLsbD_not, hbit, hi,
      decide_true, Bool.true_and]
    by_cases hij : i = j <;> simp [hij]
  · simp only [if_true, BitVec.getLsbD_or, hbit]
    by_cases hij : i = j <;> simp [hij]

namespace BitmapWords

variable (b : BitmapWords)

theorem get_init (mem : BitmapWords) {size p : ℕ} (hp : p < size) : (init mem size).get p = false := by
  unfold get init
  rw [if_pos (by omega)]
  simp

theorem get_set (p q : ℕ) (v : Bool) : (b.set p v).get q = if q = p then v else b.get q := by
  have hmod : ∀ n : ℕ, n % 32 < 32 := fun n => Nat.mod_lt n (by decide)
  unfold get set
  by_cases hw : q / 32 = p / 32
  · rw [hw, Function.update_self, getLsbD_setWordBit _ (hmod q) (hmod p)]
    have hiff : q % 32 = p % 32 ↔ q = p := by omega
    simp only [hiff]
  · rw [Function.update_of_ne hw, if_neg (by rintro rfl; exact hw rfl)]

/-- A word is all ones if and only if all its bits are set. -/
theorem eq_ones_iff (i : ℕ) :
    b i = 0xffffffff#32 ↔ ∀ j < 32, b.get (32 * i + j) = true := by
  have hpos : ∀ j < 32, b.get (32 * i + j) = (b i).getLsbD j := by
    intro j hj
    unfold get
    rw [show (32 * i + j) / 32 = i by omega, show (32 * i + j) % 32 = j by omega]
  have hones : ∀ j < 32, (0xffffffff#32).getLsbD j = true := by decide
  constructor
  · intro h j hj
    rw [hpos j hj, h, hones j hj]
  · intro h
    apply BitVec.eq_of_getLsbD_eq
    intro j hj
    rw [← hpos j hj, h j hj, hones j hj]

/-- The search finds the first zero bit, provided it is one of the first `l`. -/
theorem findZero_spec (l : ℕ) :
    (∃ p < l, b.get p = false ∧ (∀ q < p, b.get q = true) ∧ b.findZero l = some p) ∨
      ((∀ q < l, b.get q = true) ∧ b.findZero l = none) := by
  have hword : ∀ q, b (q / 32) = 0xffffffff#32 → b.get q = true := by
    intro q hones
    have := (b.eq_ones_iff (q / 32)).1 hones (q % 32) (Nat.mod_lt q (by decide))
    rwa [Nat.div_add_mod] at this
  unfold findZero
  split
  · next hnone =>
      rw [List.find?_range_eq_none] at hnone
      exact Or.inr ⟨fun q hq => hword q (by simpa using hnone (q / 32) (by omega)), rfl⟩
  · next i hi =>
      rw [List.find?_range_eq_some] at hi
      obtain ⟨hnot, -, hbefore⟩ := hi
      have hfull : ∀ q < 32 * i, b.get q = true :=
        fun q hq => hword q (by simpa using hbefore (q / 32) (by omega))
      split
      · next hnone =>
          rw [List.find?_range_eq_none] at hnone
          have hones := (b.eq_ones_iff i).2 (fun j hj => by simpa using hnone j hj)
          simp [hones] at hnot
      · next j hj =>
          rw [List.find?_range_eq_some] at hj
          obtain ⟨hzero, -, hlow⟩ := hj
          have hall : ∀ q < 32 * i + j, b.get q = true := by
            intro q hq
            by_cases hqi : q < 32 * i
            · exact hfull q hqi
            · have := hlow (q - 32 * i) (by omega)
              rw [show 32 * i + (q - 32 * i) = q by omega] at this
              simpa using this
          split
          · next hl => exact Or.inr ⟨fun q hq => hall q (by omega), rfl⟩
          · next hl => exact Or.inl ⟨32 * i + j, by omega, by simpa using hzero, hall, rfl⟩

end BitmapWords

end Kudos
