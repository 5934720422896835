import Kudos.Library.LongDivision
import Kudos.Library.Words
import Mathlib.Data.Nat.Bitwise

set_option autoImplicit false

/-! # Division of 64-bit numbers

`__qdivrem` and the functions that call it, of `lib/gcc`. The dividend and the divisor are cut into four
digits of 16 bits each, which lie in arrays of five; an access outside of them ends the call with nothing
here. Which half of a 64-bit number is `ul[H]` depends on the byte order of the machine, but `H` is 1 on
every machine, which is right for little-endian ones.

`__udivdi3` and `__divdi3` pass no place for the remainder, and the code skips what only makes the
remainder then. Here it is always made, since the quotient is complete before. -/

namespace Kudos.Quad

open Words

/-! ## Digits -/

/-- `HALF_BITS`. -/
def halfBits : UInt32 := 16

/-- `B`. -/
def base : UInt32 := 1 <<< halfBits

/-- `HHALF`. -/
def hhalf (x : UInt32) : UInt32 := x >>> halfBits

/-- `LHALF`. -/
def lhalf (x : UInt32) : UInt32 := x &&& (1 <<< halfBits - 1)

/-- `COMBINE`. -/
def combine (a b : UInt32) : UInt32 := (a <<< halfBits) ||| b

/-- One of the arrays `uspace`, `vspace` and `qspace`. -/
abbrev Space := ℕ → UInt16

namespace Space

def read (a : Space) (i : ℕ) : Option UInt32 := if i < 5 then some (a i).toUInt32 else none

/-- The value is cast to a `digit`. -/
def write (a : Space) (i : ℕ) (x : UInt32) : Option Space :=
  if i < 5 then some (Function.update a i x.toUInt16) else none

end Space

/-- `tmp.ul[H]` and `tmp.ul[L]`, where `H` is 1. -/
def halves (e : Endian) (x : UInt64) : UInt32 × UInt32 :=
  match e with
  | .little => ((x >>> 32).toUInt32, x.toUInt32)
  | .big => (x.toUInt32, (x >>> 32).toUInt32)

/-- `tmp.q` for these two. -/
def join (e : Endian) (h l : UInt32) : UInt64 :=
  match e with
  | .little => (h.toUInt64 <<< 32) ||| l.toUInt64
  | .big => (l.toUInt64 <<< 32) ||| h.toUInt64

/-- The digits of a number, from index 1 on. -/
def toSpace (e : Endian) (x : UInt64) : Space
  | 1 => (hhalf (halves e x).1).toUInt16
  | 2 => (lhalf (halves e x).1).toUInt16
  | 3 => (hhalf (halves e x).2).toUInt16
  | 4 => (lhalf (halves e x).2).toUInt16
  | _ => 0

/-- The number with the digits `a[1]` to `a[4]`. -/
def ofSpace (e : Endian) (a : Space) : UInt64 :=
  join e (combine (a 1).toUInt32 (a 2).toUInt32) (combine (a 3).toUInt32 (a 4).toUInt32)

/-! ## Lengths -/

/-- The loop that counts the digits of the divisor: the offset of `v`, and `n`. If `n` gets to 1 the loop is
left before `v` goes on. -/
def divisorLoop (v : Space) : ℕ → ℕ → ℕ → Option (ℕ × ℕ)
  | 0, _, _ => none
  | k + 1, vo, n => do
      if (← v.read (vo + 1)) = 0 then
        if n - 1 = 1 then some (vo, 1) else divisorLoop v k (vo + 1) (n - 1)
      else some (vo, n)

/-- The loop over the leading zeros of the dividend: the offset of `u`, and `m`. -/
def dividendLoop (u : Space) : ℕ → ℕ → ℤ → Option (ℕ × ℤ)
  | 0, _, _ => none
  | k + 1, uo, m => do
      if (← u.read (uo + 1)) = 0 then dividendLoop u k (uo + 1) (m - 1) else some (uo, m)

/-- The division by a single digit `t`. -/
def shortDivision (e : Endian) (u : Space) (t : UInt32) : UInt64 × UInt64 :=
  let q1 := (u 1).toUInt32 / t
  let rbj := combine ((u 1).toUInt32 % t) (u 2).toUInt32
  let q2 := rbj / t
  let rbj := combine (rbj % t) (u 3).toUInt32
  let q3 := rbj / t
  let rbj := combine (rbj % t) (u 4).toUInt32
  let q4 := rbj / t
  (join e (combine q1.toUInt16.toUInt32 q2.toUInt16.toUInt32)
    (combine q3.toUInt16.toUInt32 q4.toUInt16.toUInt32), (rbj % t).toUInt64)

/-! ## Program D -/

/-- `q[i] = 0`, for all `i` below a bound, the last one first. -/
def clearLoop : ℕ → Space → Option Space
  | 0, q => some q
  | i + 1, q => do clearLoop i (← q.write i 0)

/-- D1: the number of bits that `v[1]` is shifted by. -/
def shiftLoop : ℕ → UInt32 → UInt32 → Option UInt32
  | 0, _, _ => none
  | k + 1, t, d => if t < base / 2 then shiftLoop k (t <<< 1) (d + 1) else some d

/-- The loop of `shl`, with `len` rounds to go. -/
def shlLoop (sh : UInt32) : ℕ → Space → ℕ → Option (Space × ℕ)
  | 0, p, i => some (p, i)
  | len + 1, p, i => do
      let x ← p.read i
      let y ← p.read (i + 1)
      shlLoop sh len (← p.write i (lhalf (x <<< sh) ||| (y >>> (halfBits - sh)))) (i + 1)

/-- `shl`, for the digits from index `i` on. -/
def shl (p : Space) (i len : ℕ) (sh : UInt32) : Option Space := do
  let (p, i) ← shlLoop sh len p i
  p.write i (lhalf ((← p.read i) <<< sh))

/-- D3: the loop over `qhat`. -/
def qhatLoop (v1 v2 uj2 : UInt32) : ℕ → UInt32 → UInt32 → Option UInt32
  | 0, _, _ => none
  | k + 1, qhat, rhat =>
      if combine rhat uj2 < v2 * qhat then
        -- `qhat_too_big`
        if base ≤ rhat + v1 then some (qhat - 1) else qhatLoop v1 v2 uj2 k (qhat - 1) (rhat + v1)
      else some qhat

/-- D3. The `goto` leads into the loop. -/
def qhat (v1 v2 uj0 uj1 uj2 : UInt32) : Option UInt32 :=
  if uj0 = v1 then
    if base ≤ uj1 + v1 then some (base - 1) else qhatLoop v1 v2 uj2 3 (base - 1) (uj1 + v1)
  else qhatLoop v1 v2 uj2 3 (combine uj0 uj1 / v1) (combine uj0 uj1 % v1)

/-- D4: the loop. -/
def subLoop (v : Space) (vo uj : ℕ) (qhat : UInt32) : ℕ → Space → UInt32 → Option (Space × UInt32)
  | 0, u, t => some (u, t)
  | i + 1, u, t => do
      let x ← u.read (uj + (i + 1))
      let y ← v.read (vo + (i + 1))
      let t := x - y * qhat - t
      let u ← u.write (uj + (i + 1)) (lhalf t)
      subLoop v vo uj qhat i u ((base - hhalf t) &&& (base - 1))

/-- D6: the loop. -/
def addLoop (v : Space) (vo uj : ℕ) : ℕ → Space → UInt32 → Option (Space × UInt32)
  | 0, u, t => some (u, t)
  | i + 1, u, t => do
      let x ← u.read (uj + (i + 1))
      let y ← v.read (vo + (i + 1))
      let t := t + (x + y)
      let u ← u.write (uj + (i + 1)) (lhalf t)
      addLoop v vo uj i u (hhalf t)

/-- D3 to D6, at the digit `u[j]` with index `uj`: what is left of the dividend, and the digit of the
quotient. -/
def digitStep (v : Space) (vo n uj : ℕ) (u : Space) : Option (Space × UInt32) := do
  let q ← qhat (← v.read (vo + 1)) (← v.read (vo + 2)) (← u.read uj) (← u.read (uj + 1)) (← u.read (uj + 2))
  let (u, t) ← subLoop v vo uj q n u 0
  let t := (← u.read uj) - t
  let u ← u.write uj (lhalf t)
  if hhalf t ≠ 0 then
    let (u, t) ← addLoop v vo uj n u 0
    some (← u.write uj (lhalf ((← u.read uj) + t)), q - 1)
  else some (u, q)

/-- D7: the loop on `j`. -/
def digitLoop (v : Space) (vo n uo qo : ℕ) (m : ℤ) : ℕ → ℕ → Space → Space → Option (Space × Space)
  | 0, _, _, _ => none
  | k + 1, j, u, q => do
      let (u, qhat) ← digitStep v vo n (uo + j) u
      let q ← q.write (qo + j) qhat
      if ((j + 1 : ℕ) : ℤ) ≤ m then digitLoop v vo n uo qo m k (j + 1) u q else some (u, q)

/-- The loop that shifts the remainder back, with `len` rounds to go. -/
def shrLoop (d : UInt32) (um : ℕ) : ℕ → Space → Option Space
  | 0, u => some u
  | len + 1, u => do
      let x ← u.read (um + (len + 1))
      let y ← u.read (um + len)
      shrLoop d um len (← u.write (um + (len + 1)) ((x >>> d) ||| lhalf (y <<< (halfBits - d))))

/-- Program D, from the arrays with the dividend and the divisor: what it leaves in `qspace` and in
`uspace`. -/
def programD (qspace u v : Space) (vo n : ℕ) : Option (Space × Space) := do
  let (uo, m) ← dividendLoop u 5 0 (4 - n)
  let qo := (4 - m).toNat
  let q ← clearLoop qo qspace
  let d ← shiftLoop 17 (← v.read (vo + 1)) 0
  let u ← (if 0 < d then shl u uo (m + n).toNat d else some u)
  let v ← (if 0 < d then shl v (vo + 1) (n - 1) d else some v)
  let (u, q) ← digitLoop v vo n uo qo m 5 0 u q
  let u ← (if 0 < d then (shrLoop d (uo + m.toNat) n u).bind (·.write (uo + m.toNat) 0) else some u)
  some (q, u)

/-- `__qdivrem`: the quotient, and what is stored as the remainder. The array of the quotient is not
initialised. A division by zero is left to the machine. -/
def qdivrem (e : Endian) (qspace : Space) (uq vq : UInt64) : Option (UInt64 × UInt64) := do
  if vq = 0 then none
  else if uq < vq then some (0, uq)
  else
    let u := toSpace e uq
    let v := toSpace e vq
    let (vo, n) ← divisorLoop v 4 0 4
    if n = 1 then some (shortDivision e u (← v.read (vo + 2)))
    else
      let (q, u) ← programD qspace u v vo n
      some (ofSpace e q, ofSpace e u)

/-- `__udivdi3`. -/
def udivdi3 (e : Endian) (qspace : Space) (a b : UInt64) : Option UInt64 :=
  (qdivrem e qspace a b).map Prod.fst

/-- `__umoddi3`. -/
def umoddi3 (e : Endian) (qspace : Space) (a b : UInt64) : Option UInt64 :=
  (qdivrem e qspace a b).map Prod.snd

/-- `__divdi3`. -/
def divdi3 (e : Endian) (qspace : Space) (a b : Int64) : Option Int64 :=
  let ua := if a < 0 then -a.toUInt64 else a.toUInt64
  let ub := if b < 0 then -b.toUInt64 else b.toUInt64
  (qdivrem e qspace ua ub).map fun (uq, _) => (if (a < 0) ≠ (b < 0) then -uq else uq).toInt64

/-! ## Machine words -/

theorem toNat_hhalf (x : UInt32) : (hhalf x).toNat = x.toNat / 65536 := by
  unfold hhalf halfBits
  rw [UInt32.toNat_shiftRight]
  exact Nat.shiftRight_eq_div_pow x.toNat 16

theorem toNat_lhalf (x : UInt32) : (lhalf x).toNat = x.toNat % 65536 := by
  unfold lhalf
  rw [UInt32.toNat_and]
  exact Nat.and_two_pow_sub_one_eq_mod x.toNat 16

theorem toNat_combine {a b : UInt32} (ha : a.toNat < 65536) (hb : b.toNat < 65536) :
    (combine a b).toNat = a.toNat * 65536 + b.toNat := by
  have hshift : (a <<< halfBits).toNat = a.toNat <<< 16 := by
    rw [UInt32.toNat_shiftLeft]
    change a.toNat <<< 16 % 2 ^ 32 = a.toNat <<< 16
    rw [Nat.shiftLeft_eq]
    omega
  unfold combine
  rw [UInt32.toNat_or, hshift, ← Nat.shiftLeft_add_eq_or_of_lt (by omega), Nat.shiftLeft_eq]

theorem toNat_toUInt16_lhalf (x : UInt32) : (lhalf x).toUInt16.toNat = x.toNat % 65536 := by
  rw [UInt32.toNat_toUInt16, toNat_lhalf]
  omega

theorem toNat_base : base.toNat = 65536 := rfl

theorem toNat_digit_lt (x : UInt16) : x.toUInt32.toNat < 65536 := by
  rw [UInt16.toNat_toUInt32]
  exact x.toNat_lt

/-- D4, for one digit: what is borrowed from the next. -/
theorem sub_digit {x y q t : UInt32} (hx : x.toNat < 65536) (hy : y.toNat < 65536) (hq : q.toNat < 65536)
    (ht : t.toNat < 65536) :
    ((base - hhalf (x - y * q - t)) &&& (base - 1)).toNat < 65536 ∧
      (x - y * q - t).toNat % 65536 + y.toNat * q.toNat + t.toNat
        = x.toNat + 65536 * ((base - hhalf (x - y * q - t)) &&& (base - 1)).toNat := by
  have hmul : y.toNat * q.toNat ≤ 65535 * 65535 := Nat.mul_le_mul (by omega) (by omega)
  have hprod : (y * q).toNat = y.toNat * q.toNat := by
    rw [UInt32.toNat_mul]
    omega
  have hborrow : ((base - hhalf (x - y * q - t)) &&& (base - 1)).toNat
      = (65536 - (x - y * q - t).toNat / 65536) % 65536 := by
    have hmask : (base - 1).toNat = 2 ^ 16 - 1 := rfl
    have hlt := (x - y * q - t).toNat_lt
    rw [UInt32.toNat_and, hmask, Nat.and_two_pow_sub_one_eq_mod, UInt32.toNat_sub, toNat_base, toNat_hhalf]
    omega
  rw [hborrow, UInt32.toNat_sub, UInt32.toNat_sub, hprod]
  omega

/-! ## The arrays -/

namespace Space

variable {a : Space}

theorem read_of_lt {i : ℕ} (h : i < 5) : a.read i = some (a i).toUInt32 := if_pos h

theorem read_of_ge {i : ℕ} (h : 5 ≤ i) : a.read i = none := if_neg (Nat.not_lt.2 h)

theorem write_of_lt {i : ℕ} (h : i < 5) (x : UInt32) :
    a.write i x = some (Function.update a i x.toUInt16) := if_pos h

/-- The number with the `n` digits from index `i` on. -/
def val (a : Space) (i n : ℕ) : ℕ := LongDivision.value 65536 (fun j => (a j).toNat) i n

theorem val_lt (a : Space) (i n : ℕ) : a.val i n < 65536 ^ n :=
  LongDivision.value_lt fun j _ _ => (a j).toNat_lt

theorem val_succ (a : Space) (i n : ℕ) : a.val i (n + 1) = a.val i n * 65536 + (a (i + n)).toNat := rfl

theorem val_succ_left (a : Space) (i n : ℕ) :
    a.val i (n + 1) = (a i).toNat * 65536 ^ n + a.val (i + 1) n :=
  LongDivision.value_succ_left ..

theorem val_congr {a a' : Space} {i n : ℕ} (h : ∀ j, i ≤ j → j < i + n → a j = a' j) :
    a.val i n = a'.val i n :=
  LongDivision.value_congr fun j hlo hhi => congrArg UInt16.toNat (h j hlo hhi)

theorem val_update {i n j : ℕ} (x : UInt16) (h : j < i ∨ i + n ≤ j) :
    val (Function.update a j x) i n = a.val i n :=
  val_congr fun k hlo hhi => Function.update_of_ne (by omega) x a

end Space

open Space

/-! ## D4 to D6 -/

section

variable {v u : Space} {vo uj : ℕ}

/-- The loop subtracts the product, and returns what is borrowed from the digit in front. -/
theorem subLoop_spec {q : UInt32} (hq : q.toNat < 65536) {i : ℕ} {t : UInt32} (hv : vo + i < 5)
    (hu : uj + i < 5) (ht : t.toNat < 65536) :
    ∃ u' t', subLoop v vo uj q i u t = some (u', t') ∧
      u'.val (uj + 1) i + q.toNat * v.val (vo + 1) i + t.toNat
        = u.val (uj + 1) i + 65536 ^ i * t'.toNat ∧
      ∀ k, k ≤ uj ∨ uj + i < k → u' k = u k := by
  induction i generalizing u t with
  | zero => exact ⟨u, t, rfl, by simp [val], fun _ _ => rfl⟩
  | succ i ih =>
      have hdigit := sub_digit (toNat_digit_lt (u (uj + (i + 1)))) (toNat_digit_lt (v (vo + (i + 1)))) hq ht
      rw [subLoop, read_of_lt hu, read_of_lt hv]
      simp only [Option.bind_eq_bind, Option.bind_some, write_of_lt hu]
      generalize (u (uj + (i + 1))).toUInt32 - (v (vo + (i + 1))).toUInt32 * q - t = x at hdigit ⊢
      obtain ⟨hborrow, hdigit⟩ := hdigit
      rw [UInt16.toNat_toUInt32, UInt16.toNat_toUInt32] at hdigit
      obtain ⟨u', t', hloop, hval, hframe⟩ := @ih (Function.update u (uj + (i + 1)) (lhalf x).toUInt16)
        ((base - hhalf x) &&& (base - 1)) (by omega) (by omega) hborrow
      refine ⟨u', t', hloop, ?_, fun k hk => ?_⟩
      · have hlast : (u' (uj + 1 + i)).toNat = x.toNat % 65536 := by
          rw [hframe _ (by omega), show uj + 1 + i = uj + (i + 1) by omega, Function.update_self,
            toNat_toUInt16_lhalf]
        rw [val_update _ (by omega)] at hval
        rw [val_succ, val_succ, val_succ, hlast, show uj + 1 + i = uj + (i + 1) by omega,
          show vo + 1 + i = vo + (i + 1) by omega, pow_succ]
        calc (u'.val (uj + 1) i * 65536 + x.toNat % 65536)
              + q.toNat * (v.val (vo + 1) i * 65536 + (v (vo + (i + 1))).toNat) + t.toNat
            = (u'.val (uj + 1) i + q.toNat * v.val (vo + 1) i) * 65536
              + (x.toNat % 65536 + (v (vo + (i + 1))).toNat * q.toNat + t.toNat) := by ring
          _ = (u'.val (uj + 1) i + q.toNat * v.val (vo + 1) i
                + ((base - hhalf x) &&& (base - 1)).toNat) * 65536 + (u (uj + (i + 1))).toNat := by
              rw [hdigit]
              ring
          _ = u.val (uj + 1) i * 65536 + (u (uj + (i + 1))).toNat + 65536 ^ i * 65536 * t'.toNat := by
              rw [hval]
              ring
      · rw [hframe k (by omega), Function.update_of_ne (by omega)]

/-- The loop adds the divisor, and returns the carry. -/
theorem addLoop_spec {i : ℕ} {t : UInt32} (hv : vo + i < 5) (hu : uj + i < 5) (ht : t.toNat ≤ 1) :
    ∃ u' t', addLoop v vo uj i u t = some (u', t') ∧
      u'.val (uj + 1) i + 65536 ^ i * t'.toNat
        = u.val (uj + 1) i + v.val (vo + 1) i + t.toNat ∧
      ∀ k, k ≤ uj ∨ uj + i < k → u' k = u k := by
  induction i generalizing u t with
  | zero => exact ⟨u, t, rfl, by simp [val], fun _ _ => rfl⟩
  | succ i ih =>
      have hx := (u (uj + (i + 1))).toNat_lt
      have hy := (v (vo + (i + 1))).toNat_lt
      have hsum : (t + ((u (uj + (i + 1))).toUInt32 + (v (vo + (i + 1))).toUInt32)).toNat
          = t.toNat + ((u (uj + (i + 1))).toNat + (v (vo + (i + 1))).toNat) := by
        rw [UInt32.toNat_add, UInt32.toNat_add, UInt16.toNat_toUInt32, UInt16.toNat_toUInt32]
        omega
      rw [addLoop, read_of_lt hu, read_of_lt hv]
      simp only [Option.bind_eq_bind, Option.bind_some, write_of_lt hu]
      generalize t + ((u (uj + (i + 1))).toUInt32 + (v (vo + (i + 1))).toUInt32) = x at hsum ⊢
      have hcarry : (hhalf x).toNat ≤ 1 := by
        rw [toNat_hhalf]
        omega
      obtain ⟨u', t', hloop, hval, hframe⟩ := @ih (Function.update u (uj + (i + 1)) (lhalf x).toUInt16)
        (hhalf x) (by omega) (by omega) hcarry
      refine ⟨u', t', hloop, ?_, fun k hk => ?_⟩
      · have hlast : (u' (uj + 1 + i)).toNat = x.toNat % 65536 := by
          rw [hframe _ (by omega), show uj + 1 + i = uj + (i + 1) by omega, Function.update_self,
            toNat_toUInt16_lhalf]
        have hsplit := Nat.div_add_mod x.toNat 65536
        rw [val_update _ (by omega), toNat_hhalf] at hval
        rw [val_succ, val_succ, val_succ, hlast, show uj + 1 + i = uj + (i + 1) by omega,
          show vo + 1 + i = vo + (i + 1) by omega, pow_succ]
        calc u'.val (uj + 1) i * 65536 + x.toNat % 65536 + 65536 ^ i * 65536 * t'.toNat
            = (u'.val (uj + 1) i + 65536 ^ i * t'.toNat) * 65536 + x.toNat % 65536 := by ring
          _ = (u.val (uj + 1) i + v.val (vo + 1) i) * 65536
              + (65536 * (x.toNat / 65536) + x.toNat % 65536) := by
              rw [hval]
              ring
          _ = _ := by
              rw [hsplit, hsum]
              ring
      · rw [hframe k (by omega), Function.update_of_ne (by omega)]

end

/-! ## D3 -/

section

variable {v1 v2 u2 : UInt32} {x p ul vl : ℕ}

/-- The loop ends with an estimate that is right, or too large by one. -/
theorem qhatLoop_spec (hv1 : 1 ≤ v1.toNat) (hv1' : v1.toNat < 65536) (hv2 : v2.toNat < 65536)
    (hu2 : u2.toNat < 65536) (hul : ul < p) (hvl : vl < p) {k : ℕ} {q r : UInt32}
    (hx : q.toNat * v1.toNat + r.toNat = x) (hq : q.toNat < 65536) (hr : r.toNat < 65536)
    (hk : 65536 ≤ r.toNat + k * v1.toNat)
    (hlarge : (x * 65536 + u2.toNat) * p + ul
      < (q.toNat + 1) * ((v1.toNat * 65536 + v2.toNat) * p + vl)) :
    ∃ q', qhatLoop v1 v2 u2 k q r = some q' ∧ q'.toNat < 65536 ∧
      (x * 65536 + u2.toNat) * p + ul < (q'.toNat + 1) * ((v1.toNat * 65536 + v2.toNat) * p + vl) ∧
      q'.toNat * ((v1.toNat * 65536 + v2.toNat) * p + vl)
        ≤ (x * 65536 + u2.toNat) * p + ul + ((v1.toNat * 65536 + v2.toNat) * p + vl) := by
  induction k generalizing q r with
  | zero => omega
  | succ k ih =>
      have hprod : (v2 * q).toNat = v2.toNat * q.toNat := by
        have hmul : v2.toNat * q.toNat ≤ 65535 * 65535 := Nat.mul_le_mul (by omega) (by omega)
        rw [UInt32.toNat_mul]
        omega
      unfold qhatLoop
      by_cases htest : combine r u2 < v2 * q
      · have htest' : r.toNat * 65536 + u2.toNat < v2.toNat * q.toNat := by
          have := UInt32.lt_iff_toNat_lt.1 htest
          rwa [toNat_combine hr hu2, hprod] at this
        have hq0 : 1 ≤ q.toNat := by
          by_contra hzero
          rw [show q.toNat = 0 by omega, Nat.mul_zero] at htest'
          omega
        have hpred : (q - 1).toNat = q.toNat - 1 := by
          rw [UInt32.toNat_sub]
          change (2 ^ 32 - 1 + q.toNat) % 2 ^ 32 = q.toNat - 1
          omega
        have hsum : (r + v1).toNat = r.toNat + v1.toNat := by
          rw [UInt32.toNat_add]
          omega
        have hx' : (q - 1).toNat * v1.toNat + (r + v1).toNat = x := by
          rw [hpred, hsum, ← hx]
          calc (q.toNat - 1) * v1.toNat + (r.toNat + v1.toNat)
              = (q.toNat - 1 + 1) * v1.toNat + r.toNat := by ring
            _ = _ := by rw [Nat.sub_add_cancel hq0]
        have hlarge' := @LongDivision.lt_mul_of_estimate _ _ _ _ _ _ _ vl _ _ hx hul htest'
        rw [← Nat.sub_add_cancel hq0, ← hpred] at hlarge'
        rw [if_pos htest]
        by_cases hbase : base ≤ r + v1
        · rw [if_pos hbase]
          have hbase' := UInt32.le_iff_toNat_le.1 hbase
          rw [toNat_base] at hbase'
          refine ⟨q - 1, rfl, by omega, hlarge', ?_⟩
          refine LongDivision.mul_le_of_estimate hx' hvl hv1 (by omega) ?_
          calc v2.toNat * (q - 1).toNat ≤ 65536 * 65536 := Nat.mul_le_mul (by omega) (by omega)
            _ ≤ (r + v1).toNat * 65536 + u2.toNat := by omega
        · rw [if_neg hbase]
          have hbase' := mt UInt32.le_iff_toNat_le.2 hbase
          rw [toNat_base] at hbase'
          exact ih hx' (by omega) (by omega) (by rw [hsum]; linarith [Nat.succ_mul k v1.toNat]) hlarge'
      · rw [if_neg htest]
        refine ⟨q, rfl, hq, hlarge, LongDivision.mul_le_of_estimate hx hvl hv1 hq.le ?_⟩
        have := mt UInt32.lt_iff_toNat_lt.2 htest
        rw [toNat_combine hr hu2, hprod] at this
        omega

/-- D3, for a divisor whose first digit is large enough. -/
theorem qhat_spec {u0 u1 : UInt32} (hv1 : 32768 ≤ v1.toNat) (hv1' : v1.toNat < 65536)
    (hv2 : v2.toNat < 65536) (hu0 : u0.toNat < 65536) (hu1 : u1.toNat < 65536) (hu2 : u2.toNat < 65536)
    (hul : ul < p) (hvl : vl < p) (hx : u0.toNat * 65536 + u1.toNat = x)
    (hlt : (x * 65536 + u2.toNat) * p + ul < 65536 * ((v1.toNat * 65536 + v2.toNat) * p + vl)) :
    ∃ q, qhat v1 v2 u0 u1 u2 = some q ∧ q.toNat < 65536 ∧
      (x * 65536 + u2.toNat) * p + ul < (q.toNat + 1) * ((v1.toNat * 65536 + v2.toNat) * p + vl) ∧
      q.toNat * ((v1.toNat * 65536 + v2.toNat) * p + vl)
        ≤ (x * 65536 + u2.toNat) * p + ul + ((v1.toNat * 65536 + v2.toNat) * p + vl) := by
  have hpos : 1 ≤ v1.toNat := by omega
  unfold qhat
  by_cases heq : u0 = v1
  · have hpred : (base - 1).toNat = 65535 := rfl
    have hsum : (u1 + v1).toNat = u1.toNat + v1.toNat := by
      rw [UInt32.toNat_add]
      omega
    have hx' : (base - 1).toNat * v1.toNat + (u1 + v1).toNat = x := by
      rw [hpred, hsum, ← hx, heq]
      ring
    rw [if_pos heq]
    by_cases hbase : base ≤ u1 + v1
    · rw [if_pos hbase]
      have hbase' := UInt32.le_iff_toNat_le.1 hbase
      rw [toNat_base] at hbase'
      refine ⟨base - 1, rfl, by omega, by rw [hpred]; exact hlt, ?_⟩
      refine LongDivision.mul_le_of_estimate hx' hvl hpos (by omega) ?_
      calc v2.toNat * (base - 1).toNat ≤ 65536 * 65536 := Nat.mul_le_mul (by omega) (by omega)
        _ ≤ (u1 + v1).toNat * 65536 + u2.toNat := by omega
    · rw [if_neg hbase]
      have hbase' := mt UInt32.le_iff_toNat_le.2 hbase
      rw [toNat_base] at hbase'
      exact qhatLoop_spec hpos hv1' hv2 hu2 hul hvl hx' (by omega) (by omega) (by omega)
        (by rw [hpred]; exact hlt)
  · -- the first digit is smaller than that of the divisor
    have hu0v1 : u0.toNat < v1.toNat := by
      have hne : u0.toNat ≠ v1.toNat := fun h => heq (UInt32.toNat_inj.1 h)
      by_contra hge
      have hone : v1.toNat * 65536 + v2.toNat + 1 ≤ u0.toNat * 65536 + u1.toNat + 65536 := by omega
      have htop : v1.toNat * 65536 + v2.toNat + 1 ≤ x := by omega
      have hle := Nat.mul_le_mul_right (65536 * p) htop
      have hmul := Nat.mul_le_mul_left 65536 hvl.le
      have hu2p : 0 ≤ u2.toNat * p + ul := Nat.zero_le _
      nlinarith
    have hnn : (combine u0 u1).toNat = x := by rw [toNat_combine hu0 hu1, hx]
    have hdiv := Nat.div_add_mod x v1.toNat
    have hmod := Nat.mod_lt x hpos
    have hqlt : x / v1.toNat < 65536 := by
      rw [Nat.div_lt_iff_lt_mul hpos]
      omega
    rw [if_neg heq]
    have hq : (combine u0 u1 / v1).toNat = x / v1.toNat := by rw [UInt32.toNat_div, hnn]
    have hr : (combine u0 u1 % v1).toNat = x % v1.toNat := by rw [UInt32.toNat_mod, hnn]
    refine qhatLoop_spec hpos hv1' hv2 hu2 hul hvl ?_ (by omega) (by omega) (by omega) ?_
    · rw [hq, hr, Nat.mul_comm, hdiv]
    · rw [hq]
      have hstep : x + 1 ≤ (x / v1.toNat + 1) * v1.toNat := by
        have : (x / v1.toNat + 1) * v1.toNat = v1.toNat * (x / v1.toNat) + v1.toNat := by ring
        omega
      calc (x * 65536 + u2.toNat) * p + ul < (x * 65536 + u2.toNat) * p + p := by omega
        _ = (x * 65536 + u2.toNat + 1) * p := by ring
        _ ≤ (x + 1) * 65536 * p := Nat.mul_le_mul_right p (by omega)
        _ ≤ (x / v1.toNat + 1) * v1.toNat * 65536 * p :=
          Nat.mul_le_mul_right p (Nat.mul_le_mul_right 65536 hstep)
        _ = (x / v1.toNat + 1) * (v1.toNat * 65536 * p) := by ring
        _ ≤ (x / v1.toNat + 1) * ((v1.toNat * 65536 + v2.toNat) * p + vl) :=
          Nat.mul_le_mul_left _ (by nlinarith)

end

/-! ## One digit -/

section

variable {v u : Space} {vo uj n : ℕ}

theorem toNat_sub_self_succ {x y : UInt32} (h : y.toNat = x.toNat + 1) (hx : x.toNat < 65536) :
    (x - y).toNat = 2 ^ 32 - 1 := by
  rw [UInt32.toNat_sub]
  omega

theorem val_two_digits (a : Space) (i l : ℕ) :
    a.val i (l + 2) = ((a i).toNat * 65536 + (a (i + 1)).toNat) * 65536 ^ l + a.val (i + 2) l := by
  rw [val_succ_left, val_succ_left, pow_succ]
  ring

theorem val_three_digits (a : Space) (i l : ℕ) :
    a.val i (l + 3) = (((a i).toNat * 65536 + (a (i + 1)).toNat) * 65536 + (a (i + 2)).toNat) * 65536 ^ l
      + a.val (i + 3) l := by
  rw [val_succ_left, val_succ_left, val_succ_left, pow_succ, pow_succ]
  ring

/-- The divisor is added back: the carry is what was borrowed from the first digit. -/
theorem addBack_spec {w : Space} {x : UInt32} {r : ℕ} (hv : vo + n < 5) (hu : uj + n < 5)
    (hx : x.toNat = 2 ^ 32 - 1) (hsum : w.val (uj + 1) n + v.val (vo + 1) n = 65536 ^ n + r)
    (hr : r < 65536 ^ n) :
    ∃ w' c, addLoop v vo uj n (Function.update w uj (lhalf x).toUInt16) 0 = some (w', c) ∧
      w'.val (uj + 1) n = r ∧ (lhalf ((w' uj).toUInt32 + c)).toUInt16 = 0 ∧
      ∀ k, k < uj ∨ uj + n < k → w' k = w k := by
  obtain ⟨w', c, hadd, hw', hframe⟩ := addLoop_spec (v := v)
    (u := Function.update w uj (lhalf x).toUInt16) (i := n) (t := 0) hv hu (by decide)
  rw [val_update _ (by omega), show (0 : UInt32).toNat = 0 from rfl, Nat.add_zero, hsum] at hw'
  have hlt : w'.val (uj + 1) n < 65536 ^ n := val_lt ..
  have hpos : 0 < 65536 ^ n := Nat.zero_lt_of_lt hr
  have hcarry : c.toNat = 1 := by
    rw [← ((Nat.div_mod_unique hpos).2 ⟨hw', hlt⟩).1]
    exact Nat.div_eq_of_lt_le (by omega) (by omega)
  have htop : w' uj = (lhalf x).toUInt16 := by rw [hframe uj (Or.inl le_rfl), Function.update_self]
  refine ⟨w', c, hadd, ?_, ?_, fun k hk => ?_⟩
  · rw [hcarry, Nat.mul_one] at hw'
    omega
  · rw [htop, ← UInt16.toNat_inj, toNat_toUInt16_lhalf, UInt32.toNat_add, UInt16.toNat_toUInt32,
      toNat_toUInt16_lhalf, hx, hcarry]
    rfl
  · rw [hframe k (by omega), Function.update_of_ne (by omega)]

/-- The digit of the quotient is right, and the remainder is left in the digits behind `u[j]`. -/
theorem digitStep_spec (hn : 2 ≤ n) (hv : vo + n < 5) (hu : uj + n < 5)
    (hv1 : 32768 ≤ (v (vo + 1)).toNat) (hlt : u.val uj n < v.val (vo + 1) n) :
    ∃ u' q, digitStep v vo n uj u = some (u', q) ∧ q.toNat < 65536 ∧
      u.val uj (n + 1) = q.toNat * v.val (vo + 1) n + u'.val (uj + 1) n ∧
      u'.val (uj + 1) n < v.val (vo + 1) n ∧ u' uj = 0 ∧
      ∀ k, k < uj ∨ uj + n < k → u' k = u k := by
  obtain ⟨l, rfl⟩ : ∃ l, n = l + 2 := ⟨n - 2, by omega⟩
  have hV := val_two_digits v (vo + 1) l
  have hU := val_three_digits u uj l
  have hsmall : u.val uj (l + 3) < 65536 * v.val (vo + 1) (l + 2) := by
    have hlast := (u (uj + (l + 2))).toNat_lt
    rw [val_succ]
    omega
  have hVlt : v.val (vo + 1) (l + 2) < 65536 ^ (l + 2) := val_lt ..
  have hestimate := qhat_spec (by rwa [UInt16.toNat_toUInt32]) (toNat_digit_lt (v (vo + 1))) (toNat_digit_lt (v (vo + 2)))
    (toNat_digit_lt (u uj)) (toNat_digit_lt (u (uj + 1))) (toNat_digit_lt (u (uj + 2))) (val_lt u (uj + 3) l)
    (val_lt v (vo + 3) l) rfl
  simp only [UInt16.toNat_toUInt32, ← hV, ← hU] at hestimate
  obtain ⟨q, hq, hq', hlarge, hle⟩ := hestimate hsmall
  obtain ⟨w, t, hsub, hw, hwframe⟩ := subLoop_spec (v := v) (u := u) hq' (i := l + 2) (t := 0) hv hu
    (by decide)
  have hsplit : u.val uj (l + 3) = (u uj).toNat * 65536 ^ (l + 2) + u.val (uj + 1) (l + 2) :=
    val_succ_left ..
  have hbalance : w.val (uj + 1) (l + 2) + q.toNat * v.val (vo + 1) (l + 2)
      + (u uj).toNat * 65536 ^ (l + 2) = u.val uj (l + 3) + 65536 ^ (l + 2) * t.toNat := by
    have hzero : (0 : UInt32).toNat = 0 := rfl
    rw [hzero] at hw
    omega
  have hwlt : w.val (uj + 1) (l + 2) < 65536 ^ (l + 2) := val_lt ..
  have htop : w uj = u uj := hwframe uj (Or.inl le_rfl)
  unfold digitStep
  rw [read_of_lt (by omega), read_of_lt (by omega), read_of_lt (by omega), read_of_lt (by omega),
    read_of_lt (by omega)]
  simp only [Option.bind_eq_bind, Option.bind_some, hq, hsub]
  rw [read_of_lt (by omega)]
  simp only [Option.bind_some, write_of_lt (show uj < 5 by omega), htop]
  by_cases hcase : q.toNat * v.val (vo + 1) (l + 2) ≤ u.val uj (l + 3)
  · -- nothing is borrowed from the first digit
    obtain ⟨ht, hval⟩ := LongDivision.borrow_eq_of_le hbalance hwlt hVlt.le hcase (by linarith)
    have hdiff : (u uj).toUInt32 - t = 0 := by
      rw [show t = (u uj).toUInt32 from UInt32.toNat_inj.1 (by rw [ht, UInt16.toNat_toUInt32]),
        UInt32.sub_self]
    rw [hdiff]
    refine ⟨_, q, if_neg (by decide), hq', ?_, ?_, Function.update_self .., fun k hk => ?_⟩
    · rw [val_update _ (by omega)]
      exact hval
    · rw [val_update _ (by omega)]
      linarith
    · rw [Function.update_of_ne (by omega), hwframe k (by omega)]
  · -- the estimate is too large by one, and the divisor is added back
    obtain ⟨ht, hval⟩ := LongDivision.borrow_eq_of_lt hbalance hwlt hVlt.le (Nat.lt_of_not_le hcase) hle
    have hdiff := toNat_sub_self_succ (x := (u uj).toUInt32) (y := t) (by rw [ht, UInt16.toNat_toUInt32])
      (toNat_digit_lt _)
    generalize (u uj).toUInt32 - t = x at hdiff ⊢
    have hhigh : hhalf x ≠ 0 := fun h => by
      have := toNat_hhalf x
      rw [h, hdiff] at this
      exact absurd this (by decide)
    have hone : 1 ≤ q.toNat := by
      by_contra hzero
      rw [show q.toNat = 0 by omega, Nat.zero_mul] at hcase
      omega
    have hpred : (q - 1).toNat = q.toNat - 1 := by
      rw [UInt32.toNat_sub]
      change (2 ^ 32 - 1 + q.toNat) % 2 ^ 32 = q.toNat - 1
      omega
    have hQ : q.toNat * v.val (vo + 1) (l + 2)
        = (q - 1).toNat * v.val (vo + 1) (l + 2) + v.val (vo + 1) (l + 2) := by
      rw [hpred, ← Nat.succ_mul, Nat.succ_eq_add_one, Nat.sub_add_cancel hone]
    obtain ⟨r, hr⟩ : ∃ r, u.val uj (l + 3) = (q - 1).toNat * v.val (vo + 1) (l + 2) + r :=
      ⟨u.val uj (l + 3) - (q - 1).toNat * v.val (vo + 1) (l + 2), by omega⟩
    have hback : w.val (uj + 1) (l + 2) + v.val (vo + 1) (l + 2) = 65536 ^ (l + 2) + r := by omega
    obtain ⟨w', c, hadd, hw', hzero, hwframe'⟩ := addBack_spec hv hu hdiff hback (by omega)
    rw [if_pos hhigh, hadd]
    simp only [Option.bind_some, read_of_lt (show uj < 5 by omega)]
    refine ⟨_, q - 1, rfl, by omega, ?_, ?_, ?_, fun k hk => ?_⟩
    · rw [val_update _ (by omega), hw']
      exact hr
    · rw [val_update _ (by omega)]
      omega
    · rw [Function.update_self]
      exact hzero
    · rw [Function.update_of_ne (by omega), hwframe' k hk, hwframe k (by omega)]

end

/-! ## Shifts -/

section

variable {p : Space} {i len : ℕ} {sh : UInt32}

theorem toNat_halfBits_sub (h : sh.toNat < 16) : (halfBits - sh).toNat = 16 - sh.toNat := by
  unfold halfBits
  rw [UInt32.toNat_sub]
  change (2 ^ 32 - sh.toNat + 16) % 2 ^ 32 = 16 - sh.toNat
  omega

/-- The part of a digit that stays in it. -/
theorem toNat_lhalf_shl (x : UInt16) (h : sh.toNat < 16) :
    (lhalf (x.toUInt32 <<< sh)).toNat = x.toNat * 2 ^ sh.toNat % 65536 := by
  have hlt : x.toNat * 2 ^ sh.toNat < 2 ^ 32 := by
    have hpow : 2 ^ sh.toNat ≤ 2 ^ 16 := Nat.pow_le_pow_right (by omega) h.le
    calc x.toNat * 2 ^ sh.toNat ≤ 65535 * 2 ^ 16 := Nat.mul_le_mul (by have := x.toNat_lt; omega) hpow
      _ < 2 ^ 32 := by decide
  rw [toNat_lhalf, UInt32.toNat_shiftLeft, UInt16.toNat_toUInt32, Nat.mod_eq_of_lt (by omega : sh.toNat < 32),
    Nat.shiftLeft_eq, Nat.mod_eq_of_lt hlt]

/-- The part that goes to the digit in front. -/
theorem toNat_shr_sub (x : UInt16) (h : sh.toNat < 16) :
    (x.toUInt32 >>> (halfBits - sh)).toNat = x.toNat * 2 ^ sh.toNat / 65536 := by
  rw [UInt32.toNat_shiftRight, toNat_halfBits_sub h, UInt16.toNat_toUInt32,
    Nat.mod_eq_of_lt (by omega : 16 - sh.toNat < 32), Nat.shiftRight_eq_div_pow,
    show 65536 = 2 ^ (16 - sh.toNat) * 2 ^ sh.toNat by rw [← pow_add, Nat.sub_add_cancel h.le]; rfl,
    Nat.mul_div_mul_right _ _ (Nat.two_pow_pos _)]

/-- The two parts of a digit do not overlap. -/
theorem or_eq_add {s x y : ℕ} (hs : s ≤ 16) (hy : y < 2 ^ s) :
    x * 2 ^ s % 65536 ||| y = x * 2 ^ s % 65536 + y := by
  have hmod : x * 2 ^ s % 65536 = x % 2 ^ (16 - s) * 2 ^ s := by
    rw [show 65536 = 2 ^ (16 - s) * 2 ^ s by rw [← pow_add, Nat.sub_add_cancel hs]; rfl, Nat.mul_mod_mul_right]
  rw [hmod, ← Nat.shiftLeft_eq, Nat.shiftLeft_add_eq_or_of_lt hy]

/-- The digit that the loop of `shl` writes. -/
theorem toNat_shl_digit (x y : UInt16) (h : sh.toNat < 16) :
    (lhalf (x.toUInt32 <<< sh) ||| (y.toUInt32 >>> (halfBits - sh))).toUInt16.toNat
      = x.toNat * 2 ^ sh.toNat % 65536 + y.toNat * 2 ^ sh.toNat / 65536 := by
  have hy : y.toNat * 2 ^ sh.toNat / 65536 < 2 ^ sh.toNat := by
    rw [Nat.div_lt_iff_lt_mul (by decide), Nat.mul_comm]
    exact Nat.mul_lt_mul_of_pos_left y.toNat_lt (Nat.two_pow_pos _)
  have hor := or_eq_add (x := x.toNat) h.le hy
  have hlt : x.toNat * 2 ^ sh.toNat % 65536 ||| y.toNat * 2 ^ sh.toNat / 65536 < 2 ^ 16 := by
    refine Nat.or_lt_two_pow (Nat.mod_lt _ (by decide)) (hy.trans_le ?_)
    exact Nat.pow_le_pow_right (by decide) h.le
  rw [UInt32.toNat_toUInt16, UInt32.toNat_or, toNat_lhalf_shl x h, toNat_shr_sub y h, Nat.mod_eq_of_lt hlt, hor]

theorem shlLoop_spec (hsh : sh.toNat < 16) (h : i + len < 5) :
    ∃ p', shlLoop sh len p i = some (p', i + len) ∧
      (∀ k < len, (p' (i + k)).toNat = (p (i + k)).toNat * 2 ^ sh.toNat % 65536
        + (p (i + k + 1)).toNat * 2 ^ sh.toNat / 65536) ∧
      ∀ k, k < i ∨ i + len ≤ k → p' k = p k := by
  induction len generalizing p i with
  | zero => exact ⟨p, rfl, fun k hk => absurd hk (Nat.not_lt_zero k), fun _ _ => rfl⟩
  | succ len ih =>
      rw [shlLoop, read_of_lt (by omega), read_of_lt (by omega)]
      simp only [Option.bind_eq_bind, Option.bind_some, write_of_lt (show i < 5 by omega)]
      obtain ⟨p', hloop, hdigits, hframe⟩ := @ih (Function.update p i
        (lhalf ((p i).toUInt32 <<< sh) ||| ((p (i + 1)).toUInt32 >>> (halfBits - sh))).toUInt16) (i + 1)
        (by omega)
      refine ⟨p', by rw [hloop, show i + 1 + len = i + (len + 1) by omega], fun k hk => ?_, fun k hk => ?_⟩
      · cases k with
        | zero =>
            rw [Nat.add_zero, hframe i (by omega), Function.update_self, toNat_shl_digit _ _ hsh]
        | succ k =>
            have hdigit := hdigits k (by omega)
            rw [Function.update_of_ne (by omega), Function.update_of_ne (by omega),
              show i + 1 + k = i + (k + 1) by omega] at hdigit
            exact hdigit
      · rw [hframe k (by omega), Function.update_of_ne (by omega)]

/-- The number is multiplied, and what leaves the first digit is lost. -/
theorem shl_spec (hsh : sh.toNat < 16) (h : i + len < 5) :
    ∃ p', shl p i len sh = some p' ∧
      p'.val i (len + 1) + 65536 ^ (len + 1) * ((p i).toNat * 2 ^ sh.toNat / 65536)
        = p.val i (len + 1) * 2 ^ sh.toNat ∧
      ∀ k, k < i ∨ i + len < k → p' k = p k := by
  obtain ⟨p', hloop, hdigits, hframe⟩ := shlLoop_spec (p := p) hsh h
  unfold shl
  rw [hloop]
  simp only [Option.bind_eq_bind, Option.bind_some, read_of_lt h, write_of_lt h,
    hframe (i + len) (Or.inr le_rfl)]
  refine ⟨_, rfl, ?_, fun k hk => ?_⟩
  · refine LongDivision.value_succ_mul_of_shift (f := fun j => (p j).toNat)
      (g := fun j => (Function.update p' (i + len) _ j).toNat) (fun k hk => ?_) ?_
    · rw [Function.update_of_ne (by omega)]
      exact hdigits k hk
    · rw [Function.update_self, UInt32.toNat_toUInt16, toNat_lhalf_shl _ hsh, Nat.mod_mod]
  · rw [Function.update_of_ne (by omega), hframe k (by omega)]

/-- The digit that is written when the remainder is shifted back. -/
theorem toNat_shr_digit (x y : UInt16) (h : sh.toNat < 16) (hpos : 0 < sh.toNat) :
    ((x.toUInt32 >>> sh) ||| lhalf (y.toUInt32 <<< (halfBits - sh))).toUInt16.toNat
      = x.toNat / 2 ^ sh.toNat + y.toNat % 2 ^ sh.toNat * 2 ^ (16 - sh.toNat) := by
  have hsub := toNat_halfBits_sub h
  have hx : x.toNat / 2 ^ sh.toNat < 2 ^ (16 - sh.toNat) := by
    rw [Nat.div_lt_iff_lt_mul (Nat.two_pow_pos _), ← pow_add, Nat.sub_add_cancel h.le]
    exact x.toNat_lt
  have hmod : y.toNat * 2 ^ (16 - sh.toNat) % 65536 = y.toNat % 2 ^ sh.toNat * 2 ^ (16 - sh.toNat) := by
    rw [show 65536 = 2 ^ sh.toNat * 2 ^ (16 - sh.toNat) by rw [← pow_add, Nat.add_sub_cancel' h.le]; rfl,
      Nat.mul_mod_mul_right]
  have hor := or_eq_add (x := y.toNat) (Nat.sub_le 16 sh.toNat) hx
  have hlt : y.toNat * 2 ^ (16 - sh.toNat) % 65536 ||| x.toNat / 2 ^ sh.toNat < 2 ^ 16 := by
    refine Nat.or_lt_two_pow (Nat.mod_lt _ (by decide)) (hx.trans_le ?_)
    exact Nat.pow_le_pow_right (by decide) (Nat.sub_le 16 sh.toNat)
  rw [UInt32.toNat_toUInt16, UInt32.toNat_or, toNat_lhalf_shl y (by omega), hsub, UInt32.toNat_shiftRight,
    UInt16.toNat_toUInt32, Nat.mod_eq_of_lt (by omega : sh.toNat < 32), Nat.shiftRight_eq_div_pow,
    Nat.or_comm, Nat.mod_eq_of_lt hlt, hor, hmod, Nat.add_comm]

theorem shrLoop_spec {um : ℕ} (hsh : sh.toNat < 16) (hpos : 0 < sh.toNat) (h : um + len < 5) :
    ∃ p', shrLoop sh um len p = some p' ∧
      (∀ k < len, (p' (um + 1 + k)).toNat = (p (um + 1 + k)).toNat / 2 ^ sh.toNat
        + (p (um + k)).toNat % 2 ^ sh.toNat * 2 ^ (16 - sh.toNat)) ∧
      ∀ k, k ≤ um ∨ um + len < k → p' k = p k := by
  induction len generalizing p with
  | zero => exact ⟨p, rfl, fun k hk => absurd hk (Nat.not_lt_zero k), fun _ _ => rfl⟩
  | succ len ih =>
      rw [shrLoop, read_of_lt h, read_of_lt (by omega)]
      simp only [Option.bind_eq_bind, Option.bind_some, write_of_lt h]
      obtain ⟨p', hloop, hdigits, hframe⟩ := @ih (Function.update p (um + (len + 1))
        ((p (um + (len + 1))).toUInt32 >>> sh ||| lhalf ((p (um + len)).toUInt32 <<< (halfBits - sh))).toUInt16)
        (by omega)
      refine ⟨p', hloop, fun k hk => ?_, fun k hk => ?_⟩
      · by_cases hlast : k = len
        · rw [hlast, show um + 1 + len = um + (len + 1) by omega, hframe _ (by omega), Function.update_self,
            toNat_shr_digit _ _ hsh hpos]
        · have hdigit := hdigits k (by omega)
          rw [Function.update_of_ne (by omega), Function.update_of_ne (by omega)] at hdigit
          exact hdigit
      · rw [hframe k (by omega), Function.update_of_ne (by omega)]

/-- The number behind a zero is divided. -/
theorem shrLoop_val {um : ℕ} (hsh : sh.toNat < 16) (hpos : 0 < sh.toNat) (h : um + len < 5) (hzero : p um = 0) :
    ∃ p', shrLoop sh um len p = some p' ∧ p'.val (um + 1) len = p.val (um + 1) len / 2 ^ sh.toNat ∧
      ∀ k, k ≤ um ∨ um + len < k → p' k = p k := by
  obtain ⟨p', hloop, hdigits, hframe⟩ := shrLoop_spec (p := p) hsh hpos h
  refine ⟨p', hloop, ?_, hframe⟩
  have hsplit : 2 ^ sh.toNat * 2 ^ (16 - sh.toNat) = 65536 := by
    rw [← pow_add, Nat.add_sub_cancel' hsh.le]
    rfl
  have hdiv := LongDivision.value_div_of_shift (f := fun j => (p j).toNat) (g := fun j => (p' j).toNat)
    hsplit hdigits
  rw [hzero, show (0 : UInt16).toNat = 0 from rfl, Nat.zero_mod, Nat.zero_mul, Nat.add_zero] at hdiv
  change p'.val (um + 1) len * _ + _ = p.val (um + 1) len at hdiv
  rw [← hdiv, Nat.mul_comm, Nat.mul_add_div (Nat.two_pow_pos _),
    Nat.div_eq_of_lt (Nat.mod_lt _ (Nat.two_pow_pos _))]
  omega

/-- D1: the first digit of the divisor becomes large enough, and stays a digit. -/
theorem shiftLoop_spec {k : ℕ} {t d : UInt32} (ht : t.toNat < 65536) (hk : 65536 ≤ t.toNat * 2 ^ k)
    (hd : d.toNat + k < 2 ^ 32) :
    ∃ c d', shiftLoop k t d = some d' ∧ d'.toNat = d.toNat + c ∧
      32768 ≤ t.toNat * 2 ^ c ∧ t.toNat * 2 ^ c < 65536 := by
  induction k generalizing t d with
  | zero => omega
  | succ k ih =>
      have hhalf : (base / 2).toNat = 32768 := rfl
      unfold shiftLoop
      by_cases hlt : t < base / 2
      · have htnat := UInt32.lt_iff_toNat_lt.1 hlt
        rw [hhalf] at htnat
        have hdouble : (t <<< 1).toNat = t.toNat * 2 := by
          rw [UInt32.toNat_shiftLeft]
          change t.toNat <<< 1 % 2 ^ 32 = t.toNat * 2
          rw [Nat.shiftLeft_eq]
          omega
        have hnext : (d + 1).toNat = d.toNat + 1 := by
          rw [UInt32.toNat_add]
          change (d.toNat + 1) % 2 ^ 32 = d.toNat + 1
          omega
        have hmul : ∀ c, t.toNat * 2 * 2 ^ c = t.toNat * 2 ^ (c + 1) := fun c => by
          rw [pow_succ']
          ring
        obtain ⟨c, d', hloop, hd', hlo, hhi⟩ := @ih (t <<< 1) (d + 1) (by omega)
          (by rw [hdouble, hmul]; exact hk) (by omega)
        rw [hdouble, hmul] at hlo hhi
        exact ⟨c + 1, d', by rw [if_pos hlt, hloop], by omega, hlo, hhi⟩
      · have htnat := mt UInt32.lt_iff_toNat_lt.2 hlt
        rw [hhalf] at htnat
        exact ⟨0, d, if_neg hlt, rfl, by omega, by omega⟩

end

/-! ## Lengths -/

section

variable {v u q : Space} {vo n uo qo : ℕ}

theorem toUInt32_eq_zero {x : UInt16} : x.toUInt32 = 0 ↔ x = 0 := by
  rw [← UInt32.toNat_inj, ← UInt16.toNat_inj, UInt16.toNat_toUInt32]
  rfl

/-- The divisor has a single digit, or `n` digits of which the first one is not zero. -/
theorem divisorLoop_spec {k : ℕ} (hn : 2 ≤ n) (hlen : vo + n = 4) (hk : n ≤ k + 1)
    (hv0 : ∀ i, 1 ≤ i → i ≤ vo → v i = 0) :
    (divisorLoop v k vo n = some (2, 1) ∧ v 1 = 0 ∧ v 2 = 0 ∧ v 3 = 0) ∨
      ∃ vo' n', divisorLoop v k vo n = some (vo', n') ∧ 2 ≤ n' ∧ vo' + n' = 4 ∧ v (vo' + 1) ≠ 0 ∧
        ∀ i, 1 ≤ i → i ≤ vo' → v i = 0 := by
  induction k generalizing vo n with
  | zero => omega
  | succ k ih =>
      unfold divisorLoop
      rw [read_of_lt (by omega)]
      simp only [Option.bind_eq_bind, Option.bind_some, toUInt32_eq_zero]
      by_cases hzero : v (vo + 1) = 0
      · have hv0' : ∀ i, 1 ≤ i → i ≤ vo + 1 → v i = 0 := fun i hlo hhi => by
          rcases Nat.lt_or_ge i (vo + 1) with hlt | hge
          · exact hv0 i hlo (by omega)
          · rwa [show i = vo + 1 by omega]
        rw [if_pos hzero]
        by_cases hone : n - 1 = 1
        · obtain rfl : vo = 2 := by omega
          rw [if_pos hone]
          exact Or.inl ⟨rfl, hv0' 1 le_rfl (by omega), hv0' 2 (by omega) (by omega), hzero⟩
        · rw [if_neg hone]
          exact ih (by omega) (by omega) (by omega) hv0'
      · rw [if_neg hzero]
        exact Or.inr ⟨vo, n, rfl, hn, hlen, hzero, hv0⟩

theorem dividendLoop_spec {k : ℕ} {m : ℤ} (hk : 4 ≤ uo + k) (hu0 : ∀ i, 1 ≤ i → i ≤ uo → u i = 0)
    (hne : ∃ i, 1 ≤ i ∧ i ≤ 4 ∧ u i ≠ 0) :
    ∃ uo' : ℕ, dividendLoop u k uo m = some (uo', m + uo - uo') ∧ uo' < 4 ∧ u (uo' + 1) ≠ 0 ∧
      ∀ i, 1 ≤ i → i ≤ uo' → u i = 0 := by
  obtain ⟨l, hl, hl4, hul⟩ := hne
  have huo : uo < l := by
    by_contra hge
    exact hul (hu0 l hl (by omega))
  induction k generalizing uo m with
  | zero => omega
  | succ k ih =>
      unfold dividendLoop
      rw [read_of_lt (by omega)]
      simp only [Option.bind_eq_bind, Option.bind_some, toUInt32_eq_zero]
      by_cases hzero : u (uo + 1) = 0
      · have hu0' : ∀ i, 1 ≤ i → i ≤ uo + 1 → u i = 0 := fun i hlo hhi => by
          rcases Nat.lt_or_ge i (uo + 1) with hlt | hge
          · exact hu0 i hlo (by omega)
          · rwa [show i = uo + 1 by omega]
        have huo' : uo + 1 < l := by
          by_contra hge
          exact hul (hu0' l hl (by omega))
        obtain ⟨uo', hloop, hrest⟩ := @ih (uo + 1) (m - 1) (by omega) hu0' huo'
        refine ⟨uo', ?_, hrest⟩
        rw [if_pos hzero, hloop]
        push_cast
        congr 2
        ring
      · refine ⟨uo, ?_, by omega, hzero, hu0⟩
        rw [if_neg hzero]
        congr 2
        ring

theorem clearLoop_spec {i : ℕ} (hi : i ≤ 5) :
    ∃ q', clearLoop i q = some q' ∧ ∀ k < i, q' k = 0 := by
  have hgeneral : ∃ q', clearLoop i q = some q' ∧ (∀ k < i, q' k = 0) ∧ ∀ k, i ≤ k → q' k = q k := by
    induction i generalizing q with
    | zero => exact ⟨q, rfl, fun k hk => absurd hk (Nat.not_lt_zero k), fun _ _ => rfl⟩
    | succ i ih =>
        rw [clearLoop, write_of_lt (by omega)]
        obtain ⟨q', hloop, hzero, hframe⟩ := @ih (Function.update q i (0 : UInt32).toUInt16) (by omega)
        refine ⟨q', hloop, fun k hk => ?_, fun k hk => ?_⟩
        · rcases Nat.lt_or_ge k i with hlt | hge
          · exact hzero k hlt
          · rw [show k = i by omega, hframe i le_rfl, Function.update_self]
            rfl
        · rw [hframe k (by omega), Function.update_of_ne (by omega)]
  obtain ⟨q', hloop, hzero, -⟩ := hgeneral
  exact ⟨q', hloop, hzero⟩

/-! ## The digits of the quotient -/

/-- D7: of the dividend, the digits before `u[uo + j + n]` have been divided, with the quotient in `q` and the
remainder in `u`. The loop divides the others. -/
theorem digitLoop_spec {m k j : ℕ} (hn : 2 ≤ n) (hv : vo + n < 5) (hu : uo + m + n < 5) (hq : qo + m < 5)
    (hv1 : 32768 ≤ (v (vo + 1)).toNat) (hj : j ≤ m) (hk : m - j < k)
    (hlt : u.val (uo + j) n < v.val (vo + 1) n) :
    ∃ u' q', digitLoop v vo n uo qo m k j u q = some (u', q') ∧
      (q.val qo j * v.val (vo + 1) n + u.val (uo + j) n) * 65536 ^ (m + 1 - j)
          + u.val (uo + j + n) (m + 1 - j)
        = q'.val qo (m + 1) * v.val (vo + 1) n + u'.val (uo + (m + 1)) n ∧
      u'.val (uo + (m + 1)) n < v.val (vo + 1) n ∧
      (∀ i, uo + j ≤ i → i ≤ uo + m → u' i = 0) ∧ (∀ i < uo + j, u' i = u i) ∧ ∀ i < qo, q' i = q i := by
  induction k generalizing j u q with
  | zero => omega
  | succ k ih =>
      obtain ⟨w, d, hstep, hd, hval, hrest, hzero, hframe⟩ := digitStep_spec hn hv (by omega) hv1 hlt
      have hdigit : d.toUInt16.toNat = d.toNat := by
        rw [UInt32.toNat_toUInt16]
        omega
      have hquot : val (Function.update q (qo + j) d.toUInt16) qo (j + 1) = q.val qo j * 65536 + d.toNat := by
        rw [val_succ, val_update _ (by omega), Function.update_self, hdigit]
      -- the digits that have been divided, with one more
      have hone : (q.val qo j * v.val (vo + 1) n + u.val (uo + j) n) * 65536 + (u (uo + j + n)).toNat
          = (q.val qo j * 65536 + d.toNat) * v.val (vo + 1) n + w.val (uo + j + 1) n := by
        rw [val_succ] at hval
        calc _ = q.val qo j * 65536 * v.val (vo + 1) n
              + (u.val (uo + j) n * 65536 + (u (uo + j + n)).toNat) := by ring
          _ = _ := by
            rw [hval]
            ring
      unfold digitLoop
      rw [hstep]
      simp only [Option.bind_eq_bind, Option.bind_some, write_of_lt (show qo + j < 5 by omega), Nat.cast_le]
      by_cases hmore : j + 1 ≤ m
      · obtain ⟨u', q', hloop, hval', hrest', hzero', hframe', hqframe⟩ := @ih
          w (Function.update q (qo + j) d.toUInt16) (j + 1) hmore (by omega) hrest
        refine ⟨u', q', by rw [if_pos hmore, hloop], ?_, hrest', fun i hlo hhi => ?_, fun i hi => ?_,
          fun i hi => ?_⟩
        · have hlater : w.val (uo + (j + 1) + n) (m + 1 - (j + 1)) = u.val (uo + j + n + 1) (m - j) := by
            rw [show uo + (j + 1) + n = uo + j + n + 1 by omega, show m + 1 - (j + 1) = m - j by omega]
            exact val_congr fun i hlo hhi => hframe i (by omega)
          rw [← hval', hquot, ← Nat.add_assoc uo j 1, ← hone, Nat.add_assoc uo j 1, hlater,
            show m + 1 - j = m - j + 1 by omega, show m + 1 - (j + 1) = m - j by omega, val_succ_left, pow_succ]
          ring
        · rcases Nat.lt_or_ge i (uo + (j + 1)) with hlt' | hge
          · rw [hframe' i hlt', show i = uo + j by omega, hzero]
          · exact hzero' i hge hhi
        · rw [hframe' i (by omega), hframe i (by omega)]
        · rw [hqframe i hi, Function.update_of_ne (by omega)]
      · obtain rfl : j = m := by omega
        refine ⟨w, _, if_neg hmore, ?_, hrest, fun i hlo hhi => ?_, fun i hi => hframe i (by omega),
          fun i hi => Function.update_of_ne (by omega) _ _⟩
        · rw [hquot, ← Nat.add_assoc uo j 1, ← hone, show j + 1 - j = 1 by omega, pow_one, val_succ]
          simp [val]
        · rw [show i = uo + j by omega, hzero]

end

/-! ## Program D -/

section

variable {qspace u v : Space} {vo n : ℕ}

theorem val_pos_of_first {i : ℕ} (hn : 1 ≤ n) (h : v i ≠ 0) : 65536 ^ (n - 1) ≤ v.val i n := by
  obtain ⟨n, rfl⟩ : ∃ l, n = l + 1 := ⟨n - 1, by omega⟩
  have hpos : 1 ≤ (v i).toNat := by
    by_contra hzero
    exact h (UInt16.toNat_inj.1 (by change _ = 0; omega))
  rw [val_succ_left, Nat.add_sub_cancel]
  calc 65536 ^ n = 1 * 65536 ^ n := (Nat.one_mul _).symm
    _ ≤ (v i).toNat * 65536 ^ n := Nat.mul_le_mul_right _ hpos
    _ ≤ _ := Nat.le_add_right _ _

/-- Without the zeros in front. -/
theorem val_of_zeros (hlen : vo + n = 4) (hv0 : ∀ i, 1 ≤ i → i ≤ vo → v i = 0) :
    v.val 1 4 = v.val (vo + 1) n := by
  have hzeros := LongDivision.value_of_zeros (b := 65536) (f := fun j => (v j).toNat) (a := 1) (m := vo)
    (n := n) fun i hlo hhi => by rw [hv0 i hlo (by omega)]; rfl
  rw [hlen, Nat.add_comm 1 vo] at hzeros
  exact hzeros

theorem exists_digit_ne_zero (h : u.val 1 4 ≠ 0) : ∃ i, 1 ≤ i ∧ i ≤ 4 ∧ u i ≠ 0 := by
  by_contra hnone
  push Not at hnone
  exact h (val_of_zeros (n := 0) rfl hnone)

/-- D1: both numbers are multiplied by the same power of two. -/
theorem normalize_spec {uo l : ℕ} (hn : 1 ≤ n) (hlen : vo + n < 5) (hv : v (vo + 1) ≠ 0) (hu : u uo = 0)
    (hl : uo + l < 5) :
    ∃ d u' v', shiftLoop 17 (v (vo + 1)).toUInt32 0 = some d ∧ d.toNat < 16 ∧
      (if 0 < d then shl u uo l d else some u) = some u' ∧
      (if 0 < d then shl v (vo + 1) (n - 1) d else some v) = some v' ∧
      u'.val uo (l + 1) = u.val uo (l + 1) * 2 ^ d.toNat ∧ (∀ i < uo, u' i = u i) ∧
      v'.val (vo + 1) n = v.val (vo + 1) n * 2 ^ d.toNat ∧ 32768 ≤ (v' (vo + 1)).toNat := by
  obtain ⟨n, rfl⟩ : ∃ l, n = l + 1 := ⟨n - 1, by omega⟩
  have hpos : 1 ≤ (v (vo + 1)).toNat := by
    by_contra hzero
    exact hv (UInt16.toNat_inj.1 (by change _ = 0; omega))
  have hlt := (v (vo + 1)).toNat_lt
  obtain ⟨c, d, hloop, hd, hlo, hhi⟩ := shiftLoop_spec (k := 17) (t := (v (vo + 1)).toUInt32) (d := 0)
    (toNat_digit_lt _) (by rw [UInt16.toNat_toUInt32]; omega) (by decide)
  rw [UInt16.toNat_toUInt32] at hlo hhi
  rw [show (0 : UInt32).toNat = 0 from rfl, Nat.zero_add] at hd
  have hc : c < 16 := by
    by_contra hge
    have := Nat.pow_le_pow_right (show 0 < 2 by decide) (Nat.not_lt.1 hge)
    nlinarith
  rw [← hd] at hlo hhi
  by_cases hzero : 0 < d
  · obtain ⟨u', hshl, hval, hframe⟩ := shl_spec (p := u) (show d.toNat < 16 by omega) hl
    obtain ⟨v', hshl', hval', -⟩ := shl_spec (p := v) (show d.toNat < 16 by omega) (show vo + 1 + n < 5 by omega)
    rw [hu, show (0 : UInt16).toNat = 0 from rfl, Nat.zero_mul, Nat.zero_div, Nat.mul_zero, Nat.add_zero] at hval
    rw [Nat.div_eq_of_lt hhi, Nat.mul_zero, Nat.add_zero] at hval'
    refine ⟨d, u', v', hloop, by omega, by rw [if_pos hzero, hshl], by rw [if_pos hzero]; exact hshl', hval,
      fun i hi => hframe i (Or.inl hi), hval', ?_⟩
    -- the first digit, from the value of the number
    have hrest := val_lt v' (vo + 1 + 1) n
    have hfirst : 32768 * 65536 ^ n < ((v' (vo + 1)).toNat + 1) * 65536 ^ n := by
      calc 32768 * 65536 ^ n ≤ (v (vo + 1)).toNat * 2 ^ d.toNat * 65536 ^ n := Nat.mul_le_mul_right _ hlo
        _ = (v (vo + 1)).toNat * 65536 ^ n * 2 ^ d.toNat := by ring
        _ ≤ v.val (vo + 1) (n + 1) * 2 ^ d.toNat := by
            rw [val_succ_left]
            exact Nat.mul_le_mul_right _ (Nat.le_add_right _ _)
        _ = v'.val (vo + 1) (n + 1) := hval'.symm
        _ = (v' (vo + 1)).toNat * 65536 ^ n + v'.val (vo + 1 + 1) n := val_succ_left ..
        _ < ((v' (vo + 1)).toNat + 1) * 65536 ^ n := by
            rw [Nat.succ_mul]
            omega
    have := Nat.lt_of_mul_lt_mul_right hfirst
    omega
  · obtain rfl : d = 0 := by
      rw [← UInt32.toNat_inj]
      have := mt UInt32.lt_iff_toNat_lt.2 hzero
      change ¬ 0 < d.toNat at this
      change d.toNat = 0
      omega
    refine ⟨0, u, v, hloop, by decide, if_neg hzero, if_neg hzero, ?_, fun _ _ => rfl, ?_, ?_⟩
    · exact (Nat.mul_one _).symm
    · exact (Nat.mul_one _).symm
    · rwa [show (0 : UInt32).toNat = 0 from rfl, pow_zero, Nat.mul_one] at hlo

/-- The remainder is divided by the power of two. -/
theorem shiftBack_spec {um : ℕ} {d : UInt32} (hd : d.toNat < 16) (hlen : um + n = 4)
    (hu : ∀ i ≤ um, u i = 0) :
    ∃ r, (if 0 < d then (shrLoop d um n u).bind (·.write um 0) else some u) = some r ∧
      r.val 1 4 = u.val (um + 1) n / 2 ^ d.toNat := by
  by_cases hzero : 0 < d
  · have hpos : 0 < d.toNat := UInt32.lt_iff_toNat_lt.1 hzero
    obtain ⟨r, hloop, hval, hframe⟩ := shrLoop_val (p := u) hd hpos (show um + n < 5 by omega)
      (hu um le_rfl)
    rw [if_pos hzero, hloop]
    refine ⟨_, write_of_lt (by omega) 0, ?_⟩
    rw [val_of_zeros hlen, val_update _ (by omega), hval]
    intro i _ hi
    by_cases hum : i = um
    · rw [hum, Function.update_self]
      rfl
    · rw [Function.update_of_ne hum, hframe i (by omega), hu i hi]
  · have hd0 : d.toNat = 0 := by
      have := mt UInt32.lt_iff_toNat_lt.2 hzero
      change ¬ 0 < d.toNat at this
      omega
    exact ⟨u, if_neg hzero, by rw [val_of_zeros hlen fun i _ hi => hu i hi, hd0, pow_zero, Nat.div_one]⟩

/-- The loop runs out of the dividend if it has fewer digits than the divisor. -/
theorem programD_eq_none (hn : 2 ≤ n) (hlt : u.val 1 4 < 65536 ^ (n - 1)) (hne : u.val 1 4 ≠ 0) :
    programD qspace u v vo n = none := by
  obtain ⟨uo, hdividend, huo, hfirst, hzeros⟩ := dividendLoop_spec (m := 4 - n) (show 4 ≤ 0 + 5 by decide)
    (fun i hlo hhi => by omega) (exists_digit_ne_zero hne)
  have hlong : 5 ≤ uo + n := by
    have hle := val_pos_of_first (n := 4 - uo) (by omega) hfirst
    rw [← val_of_zeros (by omega) hzeros] at hle
    have := (Nat.pow_lt_pow_iff_right (by decide : 1 < 65536)).1 (lt_of_le_of_lt hle hlt)
    omega
  have hstep : ∀ x w, digitStep x vo n (uo + 0) w = none := fun x w => by
    obtain ⟨n, rfl⟩ : ∃ l, n = l + 1 := ⟨n - 1, by omega⟩
    unfold digitStep
    simp only [subLoop, read_of_ge (show 5 ≤ uo + 0 + (n + 1) from hlong), Option.bind_eq_bind,
      Option.bind_none, Option.bind_fun_none]
  have hloop : ∀ x w q qo m, digitLoop x vo n uo qo m 5 0 w q = none := fun x w q qo m => by
    rw [digitLoop, hstep]
    rfl
  unfold programD
  simp only [hdividend, hloop, Option.bind_eq_bind, Option.bind_none, Option.bind_some, Option.bind_fun_none]

/-- The quotient and the remainder, if the dividend has as many digits as the divisor. -/
theorem programD_spec (hn : 2 ≤ n) (hlen : vo + n = 4) (hv : v (vo + 1) ≠ 0)
    (hv0 : ∀ i, 1 ≤ i → i ≤ vo → v i = 0) (hu0 : u 0 = 0) (hu : 65536 ^ (n - 1) ≤ u.val 1 4) :
    ∃ q r, programD qspace u v vo n = some (q, r) ∧ q.val 1 4 = u.val 1 4 / v.val 1 4 ∧
      r.val 1 4 = u.val 1 4 % v.val 1 4 := by
  have hne : u.val 1 4 ≠ 0 := (lt_of_lt_of_le (Nat.pow_pos (by decide)) hu).ne'
  obtain ⟨uo, hdividend, huo, -, hzeros⟩ := dividendLoop_spec (m := 4 - n) (show 4 ≤ 0 + 5 by decide)
    (fun i hlo hhi => by omega) (exists_digit_ne_zero hne)
  have hzeros' : ∀ i ≤ uo, u i = 0 := fun i hi => by
    rcases Nat.eq_zero_or_pos i with rfl | hpos
    · exact hu0
    · exact hzeros i hpos hi
  have hU : u.val 1 4 = u.val (uo + 1) (4 - uo) := val_of_zeros (by omega) hzeros
  obtain ⟨m, hm⟩ : ∃ m : ℕ, uo + m + n = 4 := by
    have hlt := lt_of_le_of_lt hu (hU ▸ val_lt u (uo + 1) (4 - uo))
    have := (Nat.pow_lt_pow_iff_right (by decide : 1 < 65536)).1 hlt
    exact ⟨4 - n - uo, by omega⟩
  have hint : (4 : ℤ) - n + (0 : ℕ) - uo = (m : ℕ) := by omega
  have hU' : u.val uo (m + n + 1) = u.val 1 4 := by
    rw [val_succ_left, hzeros' uo le_rfl, hU, show 4 - uo = m + n by omega]
    exact (Nat.add_comm _ _).trans (Nat.zero_mul _ ▸ Nat.add_zero _)
  have hV : v.val 1 4 = v.val (vo + 1) n := val_of_zeros hlen hv0
  have hVpos : 65536 ^ (n - 1) ≤ v.val 1 4 := hV ▸ val_pos_of_first (by omega) hv
  have hlarge : u.val 1 4 < v.val 1 4 * 65536 ^ (m + 1) := by
    calc u.val 1 4 = u.val (uo + 1) (m + n) := by rw [hU, show 4 - uo = m + n by omega]
      _ < 65536 ^ (m + n) := val_lt ..
      _ = 65536 ^ (n - 1) * 65536 ^ (m + 1) := by rw [← pow_add, show n - 1 + (m + 1) = m + n by omega]
      _ ≤ v.val 1 4 * 65536 ^ (m + 1) := Nat.mul_le_mul_right _ hVpos
  obtain ⟨q, hclear, hq⟩ := clearLoop_spec (q := qspace) (i := 4 - m) (by omega)
  obtain ⟨d, w, x, hshift, hd, hw, hx, hwval, hwframe, hxval, hx1⟩ := normalize_spec (show 1 ≤ n by omega) (by omega)
    hv (hzeros' uo le_rfl) (show uo + (m + n) < 5 by omega)
  rw [hU'] at hwval
  rw [← hV] at hxval
  have hsplit : w.val uo n * 65536 ^ (m + 1) + w.val (uo + n) (m + 1) = u.val 1 4 * 2 ^ d.toNat := by
    rw [← hwval, show m + n + 1 = n + (m + 1) by omega]
    exact (LongDivision.value_add ..).symm
  have hlt : w.val (uo + 0) n < x.val (vo + 1) n := by
    have hlt' := Nat.mul_lt_mul_of_pos_right hlarge (Nat.two_pow_pos d.toNat)
    rw [← hsplit, Nat.mul_right_comm, ← hxval] at hlt'
    exact Nat.lt_of_mul_lt_mul_right (lt_of_le_of_lt (Nat.le_add_right _ _) hlt')
  obtain ⟨r, q', hloop, hval, hrest, hrzero, hrframe, hqframe⟩ := digitLoop_spec (q := q) (k := 5) hn
    (show vo + n < 5 by omega) (show uo + m + n < 5 by omega) (show 4 - m + m < 5 by omega) hx1 (Nat.zero_le m)
    (by omega) hlt
  rw [show q.val (4 - m) 0 = 0 from rfl, Nat.zero_mul, Nat.zero_add] at hval
  simp only [Nat.add_zero, Nat.sub_zero, hsplit, hxval] at hval
  rw [hxval] at hrest
  obtain ⟨r', hback, hr'⟩ := shiftBack_spec (u := r) hd hm fun i hi => by
    rcases Nat.lt_or_ge i uo with hlt' | hge
    · rw [hrframe i (by omega), hwframe i hlt', hzeros' i (by omega)]
    · exact hrzero i (by omega) hi
  have hqval : q'.val 1 4 = q'.val (4 - m) (m + 1) := by
    rw [val_of_zeros (show 3 - m + (m + 1) = 4 by omega) fun i hlo hhi => by
      rw [hqframe i (by omega), hq i (by omega)], show 3 - m + 1 = 4 - m by omega]
  have hpow := Nat.two_pow_pos d.toNat
  have hdivmod := (Nat.div_mod_unique (Nat.zero_lt_of_lt hrest)).2
    ⟨((Nat.add_comm _ _).trans (congrArg (· + _) (Nat.mul_comm _ _))).trans hval.symm, hrest⟩
  rw [Nat.mul_div_mul_right _ _ hpow, Nat.mul_mod_mul_right] at hdivmod
  refine ⟨q', r', ?_, by rw [hqval, hdivmod.1], ?_⟩
  · unfold programD
    rw [hdividend, hint]
    simp only [Option.bind_eq_bind, Option.bind_some, read_of_lt (show vo + 1 < 5 by omega), hshift,
      show (4 - (m : ℤ)).toNat = 4 - m by omega, show ((m : ℤ) + n).toNat = m + n by omega, Int.toNat_natCast,
      hclear, hw, hx, hloop, hback]
  · rw [hr', Nat.add_assoc, ← hdivmod.2, Nat.mul_div_cancel _ hpow]

end

/-! ## The whole division -/

section

variable {e : Endian} {qspace : Space} {uq vq : UInt64}

/-- The number that a 64-bit number is taken for, with its digits from index 1 on. -/
def digits (e : Endian) (x : UInt64) : ℕ := (toSpace e x).val 1 4

theorem toNat_join (h l : UInt32) : ((h.toUInt64 <<< 32) ||| l.toUInt64).toNat = h.toNat * 2 ^ 32 + l.toNat := by
  have hshift : (h.toUInt64 <<< 32).toNat = h.toNat <<< 32 := by
    rw [UInt64.toNat_shiftLeft, UInt32.toNat_toUInt64]
    change h.toNat <<< 32 % 2 ^ 64 = h.toNat <<< 32
    have := h.toNat_lt
    rw [Nat.shiftLeft_eq]
    omega
  rw [UInt64.toNat_or, hshift, UInt32.toNat_toUInt64, ← Nat.shiftLeft_add_eq_or_of_lt l.toNat_lt,
    Nat.shiftLeft_eq]

theorem toNat_high (x : UInt64) : (x >>> 32).toUInt32.toNat = x.toNat / 2 ^ 32 := by
  have := x.toNat_lt
  rw [UInt64.toNat_toUInt32, UInt64.toNat_shiftRight]
  change x.toNat >>> 32 % 2 ^ 32 = x.toNat / 2 ^ 32
  rw [Nat.shiftRight_eq_div_pow]
  omega

theorem digits_eq_halves (e : Endian) (x : UInt64) :
    digits e x = (halves e x).1.toNat * 2 ^ 32 + (halves e x).2.toNat := by
  have h1 := (halves e x).1.toNat_lt
  have h2 := (halves e x).2.toNat_lt
  change (((0 * 65536 + (hhalf (halves e x).1).toUInt16.toNat) * 65536 + (lhalf (halves e x).1).toUInt16.toNat)
    * 65536 + (hhalf (halves e x).2).toUInt16.toNat) * 65536 + (lhalf (halves e x).2).toUInt16.toNat = _
  rw [toNat_toUInt16_lhalf, toNat_toUInt16_lhalf, UInt32.toNat_toUInt16, UInt32.toNat_toUInt16, toNat_hhalf,
    toNat_hhalf]
  omega

theorem digits_little (x : UInt64) : digits .little x = x.toNat := by
  rw [digits_eq_halves]
  change (x >>> 32).toUInt32.toNat * 2 ^ 32 + x.toUInt32.toNat = x.toNat
  rw [toNat_high, UInt64.toNat_toUInt32]
  omega

/-- The halves in the wrong order. -/
def swapHalves (x : UInt64) : UInt64 := (x.toUInt32.toUInt64 <<< 32) ||| (x >>> 32).toUInt32.toUInt64

theorem toNat_swapHalves (x : UInt64) : (swapHalves x).toNat = x.toNat % 2 ^ 32 * 2 ^ 32 + x.toNat / 2 ^ 32 := by
  unfold swapHalves
  rw [toNat_join, toNat_high, UInt64.toNat_toUInt32]

theorem digits_big (x : UInt64) : digits .big x = (swapHalves x).toNat := by
  rw [digits_eq_halves, toNat_swapHalves]
  change x.toUInt32.toNat * 2 ^ 32 + (x >>> 32).toUInt32.toNat = _
  rw [toNat_high, UInt64.toNat_toUInt32]

theorem swapHalves_swapHalves (x : UInt64) : swapHalves (swapHalves x) = x := by
  have := x.toNat_lt
  rw [← UInt64.toNat_inj, toNat_swapHalves, toNat_swapHalves]
  omega

theorem digits_join (h l : UInt32) : digits e (join e h l) = h.toNat * 2 ^ 32 + l.toNat := by
  have hh := h.toNat_lt
  have hl := l.toNat_lt
  cases e with
  | little =>
      rw [digits_little]
      exact toNat_join h l
  | big =>
      rw [digits_big, toNat_swapHalves]
      unfold join
      rw [toNat_join]
      omega

theorem digits_ofSpace (a : Space) : digits e (ofSpace e a) = a.val 1 4 := by
  have h1 := (a 1).toNat_lt
  have h2 := (a 2).toNat_lt
  have h3 := (a 3).toNat_lt
  have h4 := (a 4).toNat_lt
  unfold ofSpace
  rw [digits_join, toNat_combine (toNat_digit_lt _) (toNat_digit_lt _),
    toNat_combine (toNat_digit_lt _) (toNat_digit_lt _)]
  simp only [UInt16.toNat_toUInt32]
  change _ = (((0 * 65536 + (a 1).toNat) * 65536 + (a 2).toNat) * 65536 + (a 3).toNat) * 65536 + (a 4).toNat
  omega

/-- One digit of the short division. -/
theorem shortDivision_digit {r x t : UInt32} (hr : r.toNat < t.toNat) (hx : x.toNat < 65536)
    (ht : t.toNat < 65536) :
    (combine r x / t).toUInt16.toUInt32.toNat = (r.toNat * 65536 + x.toNat) / t.toNat ∧
      (combine r x % t).toNat = (r.toNat * 65536 + x.toNat) % t.toNat := by
  have hlt : (r.toNat * 65536 + x.toNat) / t.toNat < 65536 := by
    rw [Nat.div_lt_iff_lt_mul (by omega)]
    nlinarith
  rw [UInt16.toNat_toUInt32, UInt32.toNat_toUInt16, UInt32.toNat_div, UInt32.toNat_mod,
    toNat_combine (by omega) hx]
  exact ⟨Nat.mod_eq_of_lt hlt, rfl⟩

theorem shortDivision_spec {u : Space} {t : UInt32} (ht : 0 < t.toNat) (ht' : t.toNat < 65536) :
    ∃ q r, shortDivision e u t = (q, r) ∧ digits e q = u.val 1 4 / t.toNat ∧
      r.toNat = u.val 1 4 % t.toNat := by
  have hmod : ∀ x : UInt32, (x % t).toNat < t.toNat := fun x => by
    rw [UInt32.toNat_mod]
    exact Nat.mod_lt _ ht
  have hq1 : ((u 1).toUInt32 / t).toUInt16.toUInt32.toNat = (u 1).toNat / t.toNat := by
    have := Nat.div_le_self (u 1).toNat t.toNat
    have := (u 1).toNat_lt
    rw [UInt16.toNat_toUInt32, UInt32.toNat_toUInt16, UInt32.toNat_div, UInt16.toNat_toUInt32]
    exact Nat.mod_eq_of_lt (by omega)
  have hr1 : ((u 1).toUInt32 % t).toNat = (u 1).toNat % t.toNat := by
    rw [UInt32.toNat_mod, UInt16.toNat_toUInt32]
  obtain ⟨hq2, hr2⟩ := shortDivision_digit (hmod (u 1).toUInt32) (toNat_digit_lt (u 2)) ht'
  obtain ⟨hq3, hr3⟩ := shortDivision_digit (hmod (combine ((u 1).toUInt32 % t) (u 2).toUInt32))
    (toNat_digit_lt (u 3)) ht'
  obtain ⟨hq4, hr4⟩ := shortDivision_digit
    (hmod (combine (combine ((u 1).toUInt32 % t) (u 2).toUInt32 % t) (u 3).toUInt32)) (toNat_digit_lt (u 4)) ht'
  -- the digits of the dividend, one after the other
  have h2 := LongDivision.div_mod_of_digit (b := 65536) (u 1).toNat (u 2).toNat ht
  have h3 := LongDivision.div_mod_of_digit (b := 65536) ((u 1).toNat * 65536 + (u 2).toNat) (u 3).toNat ht
  have h4 := LongDivision.div_mod_of_digit (b := 65536)
    (((u 1).toNat * 65536 + (u 2).toNat) * 65536 + (u 3).toNat) (u 4).toNat ht
  have hval : u.val 1 4
      = (((u 1).toNat * 65536 + (u 2).toNat) * 65536 + (u 3).toNat) * 65536 + (u 4).toNat := by
    change (((0 * 65536 + (u 1).toNat) * 65536 + (u 2).toNat) * 65536 + (u 3).toNat) * 65536 + (u 4).toNat = _
    rw [Nat.zero_mul, Nat.zero_add]
  rw [UInt16.toNat_toUInt32 (u 2), hr1] at hq2 hr2
  rw [UInt16.toNat_toUInt32 (u 3), hr2, ← h2.2] at hq3 hr3
  rw [UInt16.toNat_toUInt32 (u 4), hr3, ← h3.2] at hq4 hr4
  refine ⟨_, _, rfl, ?_, ?_⟩
  · rw [digits_join, toNat_combine (toNat_digit_lt _) (toNat_digit_lt _),
      toNat_combine (toNat_digit_lt _) (toNat_digit_lt _), hq1, hq2, hq3, hq4, hval, h4.1, h3.1, h2.1]
    ring
  · rw [UInt32.toNat_toUInt64, hr4, hval, h4.2]

theorem digits_pos {x : UInt64} (h : x ≠ 0) : 0 < digits e x := by
  have hne : x.toNat ≠ 0 := fun hzero => h (UInt64.toNat_inj.1 hzero)
  cases e with
  | little =>
      rw [digits_little]
      omega
  | big =>
      rw [digits_big, toNat_swapHalves]
      omega

theorem ne_zero_of_le (hv : vq ≠ 0) (hle : vq ≤ uq) : uq ≠ 0 := by
  rintro rfl
  have hle' := UInt64.le_iff_toNat_le.1 hle
  exact hv (UInt64.toNat_inj.1 (Nat.le_zero.1 hle'))

/-- The numbers of digits decide: a dividend with fewer digits than the divisor is read beyond its end. -/
theorem qdivrem_eq_none {k : ℕ} (hv : vq ≠ 0) (hle : vq ≤ uq) (hu : digits e uq < 65536 ^ k)
    (hk : 65536 ^ k ≤ digits e vq) : qdivrem e qspace uq vq = none := by
  have hpos : 0 < digits e uq := digits_pos (ne_zero_of_le hv hle)
  unfold qdivrem
  rw [if_neg hv, if_neg (UInt64.not_lt.2 hle)]
  rcases divisorLoop_spec (v := toSpace e vq) (show 2 ≤ 4 by decide) (Nat.zero_add 4) (show 4 ≤ 4 + 1 by decide)
    (fun i hlo hhi => by omega) with ⟨hloop, hv1, hv2, hv3⟩ | ⟨vo, n, hloop, hn, hlen, hfirst, hv0⟩
  · -- a single digit is not more than those of a dividend that is not zero
    exfalso
    have hV : digits e vq = (toSpace e vq).val (3 + 1) 1 := val_of_zeros rfl fun i hlo hhi => by
      interval_cases i <;> assumption
    have hone := lt_of_le_of_lt hk (hV ▸ val_lt (toSpace e vq) 4 1)
    have hk0 : k = 0 := by
      have := (Nat.pow_lt_pow_iff_right (by decide : 1 < 65536)).1 hone
      omega
    rw [hk0, pow_zero] at hu
    omega
  · have hV : digits e vq = (toSpace e vq).val (vo + 1) n := val_of_zeros hlen hv0
    have hkn : k ≤ n - 1 := by
      have := (Nat.pow_lt_pow_iff_right (by decide : 1 < 65536)).1
        (lt_of_le_of_lt hk (hV ▸ val_lt (toSpace e vq) (vo + 1) n))
      omega
    have hnone := @programD_eq_none qspace _ (toSpace e vq) vo _ hn
      (lt_of_lt_of_le hu (Nat.pow_le_pow_right (by decide) hkn)) hpos.ne'
    simp only [hloop, Option.bind_eq_bind, Option.bind_some, if_neg (show n ≠ 1 by omega), hnone,
      Option.bind_none]

/-- The division of the numbers that the operands are taken for. The remainder of a short division is stored
as it is. -/
theorem qdivrem_digits (hv : vq ≠ 0) (hle : vq ≤ uq)
    (hk : ∀ k, 65536 ^ k ≤ digits e vq → 65536 ^ k ≤ digits e uq) :
    ∃ q r, qdivrem e qspace uq vq = some (q, r) ∧ digits e q = digits e uq / digits e vq ∧
      (if digits e vq < 65536 then r.toNat else digits e r) = digits e uq % digits e vq := by
  unfold qdivrem
  rw [if_neg hv, if_neg (UInt64.not_lt.2 hle)]
  rcases divisorLoop_spec (v := toSpace e vq) (show 2 ≤ 4 by decide) (Nat.zero_add 4) (show 4 ≤ 4 + 1 by decide)
    (fun i hlo hhi => by omega) with ⟨hloop, hv1, hv2, hv3⟩ | ⟨vo, n, hloop, hn, hlen, hfirst, hv0⟩
  · have hV : digits e vq = (toSpace e vq 4).toUInt32.toNat := by
      rw [UInt16.toNat_toUInt32]
      refine (val_of_zeros (show 3 + 1 = 4 from rfl) fun i hlo hhi => by interval_cases i <;> assumption).trans ?_
      simp [val, LongDivision.value]
    have hpos : 0 < digits e vq := digits_pos hv
    obtain ⟨q, r, hshort, hq, hr⟩ := shortDivision_spec (e := e) (u := toSpace e uq)
      (t := (toSpace e vq 4).toUInt32) (by omega) (toNat_digit_lt _)
    refine ⟨q, r, ?_, by rw [hq, hV]; rfl, ?_⟩
    · simp only [hloop, Option.bind_eq_bind, Option.bind_some, if_true, read_of_lt (show 2 + 2 < 5 by decide),
        hshort]
    · rw [if_pos (hV ▸ toNat_digit_lt _), hr, hV]
      rfl
  · have hV : digits e vq = (toSpace e vq).val (vo + 1) n := val_of_zeros hlen hv0
    have hlow : 65536 ^ (n - 1) ≤ digits e vq := hV ▸ val_pos_of_first (by omega) hfirst
    obtain ⟨q, r, hD, hq, hr⟩ := @programD_spec qspace _ _ _ _ hn hlen hfirst hv0 rfl (hk (n - 1) hlow)
    refine ⟨ofSpace e q, ofSpace e r, ?_, by rw [digits_ofSpace, hq]; rfl, ?_⟩
    · simp only [hloop, Option.bind_eq_bind, Option.bind_some, if_neg (show n ≠ 1 by omega), hD]
    · have hlong : 65536 ≤ digits e vq := by
        calc 65536 = 65536 ^ 1 := rfl
          _ ≤ 65536 ^ (n - 1) := Nat.pow_le_pow_right (by decide) (by omega)
          _ ≤ _ := hlow
      rw [if_neg (Nat.not_lt.2 hlong), digits_ofSpace, hr]
      rfl

/-- On a little-endian machine the quotient and the remainder are right, whatever the array of the quotient
holds at first. -/
theorem qdivrem_eq (qspace : Space) (uq vq : UInt64) (hv : vq ≠ 0) :
    qdivrem .little qspace uq vq = some (uq / vq, uq % vq) := by
  rcases Nat.lt_or_ge uq.toNat vq.toNat with hlt | hge
  · have hquot : uq / vq = 0 := by
      rw [← UInt64.toNat_inj, UInt64.toNat_div, Nat.div_eq_of_lt hlt]
      rfl
    have hmod : uq % vq = uq := by rw [← UInt64.toNat_inj, UInt64.toNat_mod, Nat.mod_eq_of_lt hlt]
    unfold qdivrem
    rw [if_neg hv, if_pos (UInt64.lt_iff_toNat_lt.2 hlt), hquot, hmod]
  · obtain ⟨q, r, hqdivrem, hq, hr⟩ := @qdivrem_digits .little qspace _ _ hv
      (UInt64.le_iff_toNat_le.2 hge) fun k hk => by
        rw [digits_little] at hk ⊢
        exact hk.trans hge
    simp only [digits_little, ite_self] at hq hr
    rw [hqdivrem, UInt64.toNat_inj.1 (hq.trans (UInt64.toNat_div uq vq).symm),
      UInt64.toNat_inj.1 (hr.trans (UInt64.toNat_mod uq vq).symm)]

/-- The quotient of signed numbers is rounded to zero; that of the least number by minus one is the least
number again. -/
theorem divdi3_eq (qspace : Space) (a b : Int64) (hb : b ≠ 0) : divdi3 .little qspace a b = some (a / b) := by
  have hsign : ∀ x : Int64, x < 0 ↔ x.toBitVec.msb = true := fun x => by
    rw [Int64.lt_iff_toBitVec_slt, BitVec.msb_eq_toInt]
    simp [BitVec.slt]
  have hb' : (if b < 0 then -b.toUInt64 else b.toUInt64) ≠ 0 := by
    intro hzero
    have hbits := congrArg UInt64.toBitVec hzero
    refine hb (Int64.toBitVec_inj.1 ?_)
    split at hbits
    · exact BitVec.neg_eq_zero_iff.1 hbits
    · exact hbits
  simp only [divdi3, qdivrem_eq qspace _ _ hb', Option.map_some]
  refine congrArg some (Int64.toBitVec_inj.1 ?_)
  rw [Int64.toBitVec_div, BitVec.sdiv_eq]
  simp only [hsign]
  cases a.toBitVec.msb <;> cases b.toBitVec.msb <;> rfl

/-- On a little-endian machine the three functions divide. -/
theorem division_little (qspace : Space) :
    (∀ a b : UInt64, b ≠ 0 →
      udivdi3 .little qspace a b = some (a / b) ∧ umoddi3 .little qspace a b = some (a % b)) ∧
    ∀ a b : Int64, b ≠ 0 → divdi3 .little qspace a b = some (a / b) := by
  refine ⟨fun a b hb => ?_, divdi3_eq qspace⟩
  unfold udivdi3 umoddi3
  rw [qdivrem_eq qspace a b hb]
  exact ⟨rfl, rfl⟩

/-- Four digits are divided by three, and the divisor is added back to what is left, since the digit of the
quotient was guessed too large. -/
theorem division_little_addsBack :
    udivdi3 .little (fun _ => 0) 0x7fffffff0000ffff 0x7fffffff0001 = some 0xffff ∧
    umoddi3 .little (fun _ => 0) 0x7fffffff0000ffff 0x7fffffff0001 = some 0x7fffffff0000 ∧
    divdi3 .little (fun _ => 0) (-0x123456789abcdef0) 0xfedcba987 = some (-19173961) := by
  obtain ⟨hunsigned, hsigned⟩ := division_little fun _ => 0
  obtain ⟨hquot, hrem⟩ := hunsigned 0x7fffffff0000ffff 0x7fffffff0001 (by decide)
  exact ⟨hquot.trans (by decide), hrem.trans (by decide), (hsigned _ _ (by decide)).trans (by decide)⟩

/-- On a big-endian machine the halves of the operands and of the quotient are exchanged, and the loop leaves
the arrays if the dividend gets fewer digits than the divisor. -/
theorem udivdi3_big (qspace : Space) (a b : UInt64) (hb : b ≠ 0) (hle : b ≤ a) :
    udivdi3 .big qspace a b
      = if ∃ k < 4, (swapHalves a).toNat < 65536 ^ k ∧ 65536 ^ k ≤ (swapHalves b).toNat then none
        else some (swapHalves (swapHalves a / swapHalves b)) := by
  unfold udivdi3
  by_cases hfewer : ∃ k < 4, (swapHalves a).toNat < 65536 ^ k ∧ 65536 ^ k ≤ (swapHalves b).toNat
  · obtain ⟨k, hk, hlt, hge⟩ := hfewer
    rw [if_pos ⟨k, hk, hlt, hge⟩, qdivrem_eq_none hb hle (by rwa [digits_big]) (by rwa [digits_big])]
    rfl
  · obtain ⟨q, r, hqdivrem, hq, -⟩ := @qdivrem_digits .big qspace _ _ hb hle fun k hk => by
      rw [digits_big] at hk ⊢
      have hk4 : k < 4 := (Nat.pow_lt_pow_iff_right (by decide : 1 < 65536)).1
        (lt_of_le_of_lt hk (swapHalves b).toNat_lt)
      by_contra hlt
      exact hfewer ⟨k, hk4, Nat.lt_of_not_le hlt, hk⟩
    rw [digits_big, digits_big, digits_big, ← UInt64.toNat_div, UInt64.toNat_inj] at hq
    rw [if_neg hfewer, hqdivrem, ← hq, swapHalves_swapHalves]
    rfl

theorem udivdi3_big_six : udivdi3 .big (fun _ => 0) 6 3 = some 8589934592 :=
  (udivdi3_big (fun _ => 0) 6 3 (by decide) (by decide)).trans (by decide +kernel)

end

end Kudos.Quad
