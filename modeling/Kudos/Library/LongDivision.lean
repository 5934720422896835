import Mathlib.Algebra.Order.Ring.Nat
import Mathlib.Tactic.Linarith
import Mathlib.Tactic.Ring

set_option autoImplicit false

/-! # Long division

Numbers as digits in a base `b`, the highest one in front, and the estimate of one digit of a quotient from
the first three digits of the dividend and the first two of the divisor (Knuth, volume 2, section 4.3.1):
as long as the test on the second digit fails the estimate is too large (`lt_mul_of_estimate`), and when it
no longer fails it is too large by one at most (`mul_le_of_estimate`). -/

namespace LongDivision

/-! ## Digits -/

/-- The number with the `n` digits `f a, f (a + 1), …`. -/
def value (b : ℕ) (f : ℕ → ℕ) (a : ℕ) : ℕ → ℕ
  | 0 => 0
  | n + 1 => value b f a n * b + f (a + n)

variable {b : ℕ} {f g : ℕ → ℕ}

@[simp] theorem value_zero (b : ℕ) (f : ℕ → ℕ) (a : ℕ) : value b f a 0 = 0 := rfl

theorem value_succ (b : ℕ) (f : ℕ → ℕ) (a n : ℕ) : value b f a (n + 1) = value b f a n * b + f (a + n) :=
  rfl

/-- The first digit counts `b ^ n`. -/
theorem value_succ_left (b : ℕ) (f : ℕ → ℕ) (a n : ℕ) :
    value b f a (n + 1) = f a * b ^ n + value b f (a + 1) n := by
  induction n with
  | zero => simp [value]
  | succ n ih =>
      rw [value_succ, ih, value_succ b f (a + 1), show a + (n + 1) = a + 1 + n by omega]
      ring

/-- The digits in front, and the ones behind them. -/
theorem value_add (b : ℕ) (f : ℕ → ℕ) (a m n : ℕ) :
    value b f a (m + n) = value b f a m * b ^ n + value b f (a + m) n := by
  induction n with
  | zero => simp
  | succ n ih =>
      rw [← Nat.add_assoc, value_succ, ih, value_succ, ← Nat.add_assoc]
      ring

theorem value_congr {a n : ℕ} (h : ∀ i, a ≤ i → i < a + n → f i = g i) : value b f a n = value b g a n := by
  induction n with
  | zero => rfl
  | succ n ih =>
      rw [value_succ, value_succ, ih fun i hlo hhi => h i hlo (by omega), h (a + n) (by omega) (by omega)]

theorem value_lt {a n : ℕ} (h : ∀ i, a ≤ i → i < a + n → f i < b) : value b f a n < b ^ n := by
  induction n with
  | zero => simp
  | succ n ih =>
      have hrest := ih fun i hlo hhi => h i hlo (by omega)
      have hlast := h (a + n) (by omega) (by omega)
      calc value b f a n * b + f (a + n) < value b f a n * b + b := by omega
        _ = (value b f a n + 1) * b := by ring
        _ ≤ b ^ n * b := Nat.mul_le_mul_right b hrest
        _ = b ^ (n + 1) := (pow_succ b n).symm

/-- Leading zeros do not count. -/
theorem value_of_zeros {a m n : ℕ} (h : ∀ i, a ≤ i → i < a + m → f i = 0) :
    value b f a (m + n) = value b f (a + m) n := by
  have hzero : value b f a m = 0 := by
    induction m with
    | zero => rfl
    | succ m ih =>
        rw [value_succ, ih fun i hlo hhi => h i hlo (by omega), h (a + m) (by omega) (by omega), Nat.zero_mul]
  rw [value_add, hzero, Nat.zero_mul, Nat.zero_add]

/-! ## Shifts

A number is multiplied by `s` digit by digit: what does not fit into a digit goes to the one in front. -/

theorem value_mul_of_shift {s a n : ℕ} (h : ∀ i < n, g (a + i) = f (a + i) * s % b + f (a + i + 1) * s / b) :
    value b g a n + b ^ n * (f a * s / b) = value b f a n * s + f (a + n) * s / b := by
  induction n with
  | zero => simp
  | succ n ih =>
      have hsplit := Nat.div_add_mod (f (a + n) * s) b
      rw [value_succ, value_succ, h n (Nat.lt_succ_self n), pow_succ]
      calc value b g a n * b + (f (a + n) * s % b + f (a + n + 1) * s / b) + b ^ n * b * (f a * s / b)
          = (value b g a n + b ^ n * (f a * s / b)) * b + f (a + n) * s % b + f (a + n + 1) * s / b := by ring
        _ = value b f a n * s * b + (b * (f (a + n) * s / b) + f (a + n) * s % b)
            + f (a + n + 1) * s / b := by
            rw [ih fun i hi => h i (by omega)]
            ring
        _ = (value b f a n * b + f (a + n)) * s + f (a + (n + 1)) * s / b := by
            rw [hsplit, ← Nat.add_assoc]
            ring

/-- The last digit has none behind it. -/
theorem value_succ_mul_of_shift {s a n : ℕ}
    (h : ∀ i < n, g (a + i) = f (a + i) * s % b + f (a + i + 1) * s / b)
    (hlast : g (a + n) = f (a + n) * s % b) :
    value b g a (n + 1) + b ^ (n + 1) * (f a * s / b) = value b f a (n + 1) * s := by
  have hsplit := Nat.div_add_mod (f (a + n) * s) b
  have hrest := value_mul_of_shift h
  rw [value_succ, value_succ, hlast, pow_succ]
  calc value b g a n * b + f (a + n) * s % b + b ^ n * b * (f a * s / b)
      = (value b g a n + b ^ n * (f a * s / b)) * b + f (a + n) * s % b := by ring
    _ = value b f a n * s * b + (b * (f (a + n) * s / b) + f (a + n) * s % b) := by
        rw [hrest]
        ring
    _ = (value b f a n * b + f (a + n)) * s := by
        rw [hsplit]
        ring

/-- A number is divided by `s`: the rest of each digit goes to the one behind. -/
theorem value_div_of_shift {s c a n : ℕ} (hs : s * c = b)
    (h : ∀ i < n, g (a + 1 + i) = f (a + 1 + i) / s + f (a + i) % s * c) :
    value b g (a + 1) n * s + f (a + n) % s = value b f (a + 1) n + f a % s * b ^ n := by
  induction n with
  | zero => simp
  | succ n ih =>
      have hsplit := Nat.div_add_mod (f (a + 1 + n)) s
      rw [value_succ, value_succ, h n (Nat.lt_succ_self n), show a + (n + 1) = a + 1 + n by omega, pow_succ]
      calc (value b g (a + 1) n * b + (f (a + 1 + n) / s + f (a + n) % s * c)) * s + f (a + 1 + n) % s
          = value b g (a + 1) n * s * b + f (a + n) % s * (s * c)
            + (s * (f (a + 1 + n) / s) + f (a + 1 + n) % s) := by ring
        _ = (value b g (a + 1) n * s + f (a + n) % s) * b + f (a + 1 + n) := by
            rw [hs, hsplit]
            ring
        _ = value b f (a + 1) n * b + f (a + 1 + n) + f a % s * (b ^ n * b) := by
            rw [ih fun i hi => h i (by omega)]
            ring

/-! ## One digit of the quotient

The dividend is `(x * b + u₂) * p + ul`, where `x` are its first two digits, and the divisor
`(v₁ * b + v₂) * p + vl`. An estimate `q` of their quotient comes with what is left of `x`, the number `r`
with `q * v₁ + r = x`. -/

section

variable {p x u₂ ul v₁ v₂ vl q r : ℕ}

/-- The estimate is too large if the test fails. -/
theorem lt_mul_of_estimate (hx : q * v₁ + r = x) (hul : ul < p) (htest : r * b + u₂ < v₂ * q) :
    (x * b + u₂) * p + ul < q * ((v₁ * b + v₂) * p + vl) := by
  have hle : x * b + u₂ + 1 ≤ q * (v₁ * b + v₂) := by
    rw [← hx]
    calc (q * v₁ + r) * b + u₂ + 1 = q * (v₁ * b) + (r * b + u₂ + 1) := by ring
      _ ≤ q * (v₁ * b) + v₂ * q := Nat.add_le_add_left htest _
      _ = q * (v₁ * b + v₂) := by ring
  calc (x * b + u₂) * p + ul < (x * b + u₂) * p + p := by omega
    _ = (x * b + u₂ + 1) * p := by ring
    _ ≤ q * (v₁ * b + v₂) * p := Nat.mul_le_mul_right p hle
    _ = q * ((v₁ * b + v₂) * p) := by ring
    _ ≤ q * ((v₁ * b + v₂) * p + vl) := Nat.mul_le_mul_left q (Nat.le_add_right _ _)

/-- It is too large by one at most if the test does not fail. -/
theorem mul_le_of_estimate (hx : q * v₁ + r = x) (hvl : vl < p) (hv₁ : 1 ≤ v₁) (hq : q ≤ b)
    (htest : v₂ * q ≤ r * b + u₂) :
    q * ((v₁ * b + v₂) * p + vl) ≤ (x * b + u₂) * p + ul + ((v₁ * b + v₂) * p + vl) := by
  have hle : q * (v₁ * b + v₂) ≤ x * b + u₂ := by
    rw [← hx]
    calc q * (v₁ * b + v₂) = q * (v₁ * b) + v₂ * q := by ring
      _ ≤ q * (v₁ * b) + (r * b + u₂) := Nat.add_le_add_left htest _
      _ = (q * v₁ + r) * b + u₂ := by ring
  have hlow : q * vl ≤ (v₁ * b + v₂) * p := by
    calc q * vl ≤ b * p := Nat.mul_le_mul hq hvl.le
      _ ≤ (v₁ * b + v₂) * p := Nat.mul_le_mul_right p (by nlinarith)
  calc q * ((v₁ * b + v₂) * p + vl) = q * (v₁ * b + v₂) * p + q * vl := by ring
    _ ≤ (x * b + u₂) * p + (v₁ * b + v₂) * p := Nat.add_le_add (Nat.mul_le_mul_right p hle) hlow
    _ ≤ (x * b + u₂) * p + ul + ((v₁ * b + v₂) * p + vl) := by omega

/-- What is borrowed from the digit in front when the product is not larger. -/
theorem borrow_eq_of_le {u₀ U V Q R t c : ℕ} (h : R + Q + u₀ * c = U + c * t) (hR : R < c) (hV : V ≤ c)
    (hQ : Q ≤ U) (hlt : U < Q + V) : t = u₀ ∧ U = Q + R := by
  have ht : t = u₀ := by
    rcases Nat.lt_trichotomy t u₀ with hlt' | heq | hgt
    · have hmul := Nat.mul_le_mul_right c hlt'
      rw [Nat.succ_mul, Nat.mul_comm t c] at hmul
      omega
    · exact heq
    · have hmul := Nat.mul_le_mul_right c hgt
      rw [Nat.succ_mul, Nat.mul_comm t c] at hmul
      omega
  refine ⟨ht, ?_⟩
  rw [ht, Nat.mul_comm c u₀] at h
  omega

/-- What is borrowed when it is larger, by the divisor at most. -/
theorem borrow_eq_of_lt {u₀ U V Q R t c : ℕ} (h : R + Q + u₀ * c = U + c * t) (hR : R < c) (hV : V ≤ c)
    (hQ : U < Q) (hle : Q ≤ U + V) : t = u₀ + 1 ∧ U + c = Q + R := by
  have ht : t = u₀ + 1 := by
    rcases Nat.lt_trichotomy t (u₀ + 1) with hlt | heq | hgt
    · have hmul := Nat.mul_le_mul_right c (Nat.lt_succ_iff.1 hlt)
      rw [Nat.mul_comm t c] at hmul
      omega
    · exact heq
    · have hmul := Nat.mul_le_mul_right c hgt
      rw [Nat.succ_mul, Nat.succ_mul, Nat.mul_comm t c] at hmul
      omega
  refine ⟨ht, ?_⟩
  rw [ht, Nat.mul_comm c, Nat.succ_mul] at h
  omega

end

/-- The quotient and the remainder of a number that has one more digit. -/
theorem div_mod_of_digit {v : ℕ} (u a : ℕ) (hv : 0 < v) :
    (u * b + a) / v = u / v * b + (u % v * b + a) / v ∧ (u * b + a) % v = (u % v * b + a) % v := by
  have hu := Nat.div_add_mod u v
  have ha := Nat.div_add_mod (u % v * b + a) v
  have hsum : u * b + a = v * (u / v * b + (u % v * b + a) / v) + (u % v * b + a) % v := by
    calc u * b + a = (v * (u / v) + u % v) * b + a := by rw [hu]
      _ = v * (u / v * b) + (u % v * b + a) := by ring
      _ = v * (u / v * b) + (v * ((u % v * b + a) / v) + (u % v * b + a) % v) := by rw [ha]
      _ = _ := by ring
  exact (Nat.div_mod_unique hv).2 ⟨by rw [Nat.add_comm]; exact hsum.symm, Nat.mod_lt _ hv⟩

end LongDivision
