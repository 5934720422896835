import Kudos.Library.ByteMemory
import Kudos.Library.Words

set_option autoImplicit false

/-! # Copying memory

`memcopy` of `lib/libc.c` copies words if both addresses are aligned, and the rest byte by byte. It is
a copy of bytes either way. -/

namespace Kudos

open ByteMemory Words

/-- A loop of `memcopy`: `n` units of `w` bytes each. -/
def copyUnits (w : ℕ) : ℕ → ℕ → ℕ → (ℕ → UInt8) → ℕ → UInt8
  | 0, _, _, mem => mem
  | n + 1, tgt, src, mem => copyUnits w n (tgt + w) (src + w) (store mem w tgt (load mem w src))

/-- `memcopy`. -/
def memcopy (buflen : ℤ) (target source : ℕ) (mem : ℕ → UInt8) : ℕ → UInt8 :=
  if target % 4 ≠ 0 ∨ source % 4 ≠ 0 then copyUnits 1 buflen.toNat target source mem
  else
    let words := (buflen.tdiv 4).toNat
    copyUnits 1 (buflen.tmod 4).toNat (target + 4 * words) (source + 4 * words)
      (copyUnits 4 words target source mem)

/-! ## A copy of bytes -/

/-- A word that is stored as it was loaded is a copy of its bytes. -/
theorem store_load (mem mem' : ℕ → UInt8) (w a s x : ℕ) :
    store mem w a (load mem' w s) x = if a ≤ x ∧ x < a + w then mem' (s + (x - a)) else mem x := by
  induction w generalizing mem a s with
  | zero =>
      rw [if_neg (by omega)]
      rfl
  | succ w ih =>
      have hbyte : (mem' s).toNat < 256 := UInt8.toNat_lt _
      have hload : load mem' (w + 1) s = (mem' s).toNat + 256 * load mem' w (s + 1) := rfl
      have hlow : UInt8.ofNat (load mem' (w + 1) s) = mem' s := by
        apply UInt8.toNat_inj.1
        have hofNat : (UInt8.ofNat (load mem' (w + 1) s)).toNat = load mem' (w + 1) s % 256 := rfl
        omega
      have hhigh : load mem' (w + 1) s / 256 = load mem' w (s + 1) := by omega
      unfold store
      rw [hlow, hhigh, ih]
      by_cases hx : x = a
      · rw [hx, if_neg (by omega), if_pos (by omega), Function.update_self, Nat.sub_self, Nat.add_zero]
      · rw [Function.update_of_ne hx]
        by_cases hin : a + 1 ≤ x ∧ x < a + 1 + w
        · rw [if_pos hin, if_pos (by omega), show s + 1 + (x - (a + 1)) = s + (x - a) by omega]
        · rw [if_neg hin, if_neg (by omega)]

/-- The memory after `n` bytes were copied. -/
def copied (mem : ℕ → UInt8) (target source n : ℕ) : ℕ → UInt8 := fun x =>
  if target ≤ x ∧ x < target + n then mem (source + (x - target)) else mem x

/-- Two ranges of `n` bytes have no byte in common. -/
def NoOverlap (a b n : ℕ) : Prop := a + n ≤ b ∨ b + n ≤ a

/-- A loop of `memcopy` copies bytes, whatever the size of its units. -/
theorem copyUnits_eq (w n : ℕ) {target source : ℕ} {mem : ℕ → UInt8}
    (h : NoOverlap target source (w * n)) :
    copyUnits w n target source mem = copied mem target source (w * n) := by
  induction n generalizing target source mem with
  | zero =>
      funext x
      unfold copied
      rw [if_neg (by omega)]
      rfl
  | succ n ih =>
      have hmul : w * (n + 1) = w * n + w := Nat.mul_succ w n
      unfold NoOverlap at h ih
      have hrest := @ih (target + w) (source + w)
        (store mem w target (load mem w source)) (by omega)
      unfold copyUnits
      rw [hrest]
      funext x
      unfold copied
      by_cases hin : target + w ≤ x ∧ x < target + w + w * n
      · rw [if_pos hin, if_pos (by omega), store_load, if_neg (by omega),
          show source + w + (x - (target + w)) = source + (x - target) by omega]
      · rw [if_neg hin, store_load]
        by_cases hfirst : target ≤ x ∧ x < target + w
        · rw [if_pos hfirst, if_pos (by omega)]
        · rw [if_neg hfirst, if_neg (by omega)]

/-- **`memcopy` copies bytes.** -/
theorem memcopy_eq (n : ℕ) {target source : ℕ} (mem : ℕ → UInt8) (h : NoOverlap target source n) :
    memcopy n target source mem = copied mem target source n := by
  unfold memcopy
  by_cases halign : target % 4 ≠ 0 ∨ source % 4 ≠ 0
  · rw [if_pos halign, Int.toNat_natCast, copyUnits_eq 1 n (by rwa [Nat.one_mul]), Nat.one_mul]
  · have hdiv : ((n : ℤ).tdiv 4).toNat = n / 4 := by
      rw [Int.tdiv_eq_ediv_of_nonneg (by omega)]
      omega
    have hmod : ((n : ℤ).tmod 4).toNat = n % 4 := by
      rw [Int.tmod_eq_emod_of_nonneg (by omega)]
      omega
    unfold NoOverlap at h
    rw [if_neg halign]
    simp only [hdiv, hmod]
    rw [copyUnits_eq 4 (n / 4) (by unfold NoOverlap; omega), copyUnits_eq 1 (n % 4)
      (by unfold NoOverlap; omega), Nat.one_mul]
    funext x
    unfold copied
    -- the words first, then the bytes behind them
    by_cases hrest : target + 4 * (n / 4) ≤ x ∧ x < target + 4 * (n / 4) + n % 4
    · rw [if_pos hrest, if_neg (by omega), if_pos (by omega),
        show source + 4 * (n / 4) + (x - (target + 4 * (n / 4))) = source + (x - target) by omega]
    · rw [if_neg hrest]
      by_cases hword : target ≤ x ∧ x < target + 4 * (n / 4)
      · rw [if_pos hword, if_pos (by omega)]
      · rw [if_neg hword, if_neg (by omega)]

end Kudos
