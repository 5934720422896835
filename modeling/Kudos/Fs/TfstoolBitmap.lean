import Kudos.Fs.Tfstool

set_option autoImplicit false

/-! # The two bitmap searches

`bitmap_findnset` of the kernel skips words that are all ones; the one of the tool looks at one bit after
the other, and converts each word from big-endian order. On a bitmap of any size both take the first zero
bit (`SetsLeastZero`), as long as the kernel's `bitmap_sizeof` does not overflow. -/

namespace Kudos

open CInt Words

/-- A bitmap in memory, of any size. -/
abbrev BitmapMemory := ℕ → Word

namespace BitmapMemory

/-! ## The kernel -/

/-- `bitmap_sizeof`. -/
def bitmapSizeof (numBits : ℤ) : ℤ := wrap32 ((wrap32 (numBits + 31)).tdiv 32 * 4)

/-- `bitmap_get`. -/
def bitmapGet (e : Endian) (bitmap : BitmapMemory) (pos : ℕ) : Bool :=
  ((bitmap (pos / 32)).load e).getLsbD (pos % 32)

/-- `bitmap_set`. -/
def bitmapSet (e : Endian) (bitmap : BitmapMemory) (pos : ℕ) (value : Bool) : BitmapMemory :=
  Function.update bitmap (pos / 32)
    (Word.store e (setWordBit ((bitmap (pos / 32)).load e) (pos % 32) value))

/-- The loop over the bits of a word, with `n` rounds to go: what the function returns, if it does. -/
def findInWord (e : Endian) (bitmap : BitmapMemory) (l : ℤ) (basepos : ℕ) :
    ℕ → ℕ → Option (ℤ × BitmapMemory)
  | 0, _ => none
  | n + 1, j =>
      if bitmapGet e bitmap (basepos + j) = false then
        -- the last word may have unused bits
        if l ≤ ((basepos + j : ℕ) : ℤ) then some (-1, bitmap)
        else some (((basepos + j : ℕ) : ℤ), bitmapSet e bitmap (basepos + j) true)
      else findInWord e bitmap l basepos n (j + 1)

/-- The loop over the words, with `n` rounds to go. -/
def findInWords (e : Endian) (bitmap : BitmapMemory) (l : ℤ) : ℕ → ℕ → ℤ × BitmapMemory
  | 0, _ => (-1, bitmap)
  | n + 1, i =>
      if (bitmap i).load e ≠ 0xffffffff#32 then
        match findInWord e bitmap l (i * 32) 32 0 with
        | some r => r
        | none => findInWords e bitmap l n (i + 1)
      else findInWords e bitmap l n (i + 1)

/-- `bitmap_findnset`. -/
def bitmapFindnset (e : Endian) (bitmap : BitmapMemory) (l : ℤ) : Except KernelFault (ℤ × BitmapMemory) := do
  kernelAssert (0 ≤ l)
  return findInWords e bitmap l ((bitmapSizeof l).tdiv 4).toNat 0

/-! ## The tool -/

namespace Tool

/-- `bitmap_get`. -/
def bitmapGet (e : Endian) (bitmap : BitmapMemory) (pos : ℕ) : Bool :=
  (fromBigEndian32 e ((bitmap (pos / 32)).load e)).getLsbD (pos % 32)

/-- `bitmap_set`. -/
def bitmapSet (e : Endian) (bitmap : BitmapMemory) (pos : ℕ) (value : Bool) : BitmapMemory :=
  Function.update bitmap (pos / 32) (Word.store e (fromBigEndian32 e
    (setWordBit (fromBigEndian32 e ((bitmap (pos / 32)).load e)) (pos % 32) value)))

/-- The loop, with `n` rounds to go: the index behind it, and the bitmap. -/
def findLoop (e : Endian) (bitmap : BitmapMemory) : ℕ → ℕ → ℕ × BitmapMemory
  | 0, i => (i, bitmap)
  | n + 1, i =>
      if bitmapGet e bitmap i = false then (i, bitmapSet e bitmap i true) else findLoop e bitmap n (i + 1)

/-- `bitmap_findnset`. -/
def bitmapFindnset (e : Endian) (bitmap : BitmapMemory) (l : ℤ) : ℤ × BitmapMemory :=
  let (i, bitmap) := findLoop e bitmap l.toNat 0
  (if l ≤ (i : ℤ) then -1 else i, bitmap)

end Tool

/-! ## Bits -/

/-- Bit `p` of the bitmap, whose words are big-endian. -/
def bit (m : BitmapMemory) (p : ℕ) : Bool := (m (p / 32)).toBE.getLsbD (p % 32)

/-- The bitmap with the bit `p` set. -/
def withBit (m : BitmapMemory) (p : ℕ) : BitmapMemory :=
  Function.update m (p / 32) (.ofBE (setWordBit (m (p / 32)).toBE (p % 32) true))

variable (m : BitmapMemory)

theorem bit_withBit (p q : ℕ) : (m.withBit p).bit q = if q = p then true else m.bit q := by
  have hwords : (fun i => (m.withBit p i).toBE) = BitmapWords.set (fun i => (m i).toBE) p true := by
    funext i
    unfold withBit BitmapWords.set
    by_cases hi : i = p / 32
    · rw [hi, Function.update_self, Function.update_self, Word.toBE_ofBE]
    · rw [Function.update_of_ne hi, Function.update_of_ne hi]
  change BitmapWords.get (fun i => (m.withBit p i).toBE) q = _
  rw [hwords, BitmapWords.get_set]
  rfl

/-- A bitmap is given by its bits. -/
theorem ext_bit {m m' : BitmapMemory} (h : ∀ p, m.bit p = m'.bit p) : m = m' := by
  funext i
  refine Word.load_injective (e := .big) (BitVec.eq_of_getLsbD_eq fun j hj => ?_)
  have hbit := h (32 * i + j)
  unfold bit at hbit
  rwa [show (32 * i + j) / 32 = i by omega, show (32 * i + j) % 32 = j by omega] at hbit

/-- A word is all ones if and only if all its bits are set. -/
theorem load_eq_ones_iff (i : ℕ) :
    (m i).load .big = 0xffffffff#32 ↔ ∀ j < 32, m.bit (32 * i + j) = true :=
  BitmapWords.eq_ones_iff (fun i => (m i).toBE) i

/-- **What both are for**: the first zero bit is set, provided it is one of the first `l`. -/
def SetsLeastZero (l : ℤ) (r : ℤ × BitmapMemory) : Prop :=
  (∃ p : ℕ, (p : ℤ) < l ∧ m.bit p = false ∧ (∀ q < p, m.bit q = true) ∧ r.1 = p ∧
      ∀ q, r.2.bit q = if q = p then true else m.bit q) ∨
    ((∀ q : ℕ, (q : ℤ) < l → m.bit q = true) ∧ r = (-1, m))

variable {m}

/-- This leaves no choice. -/
theorem SetsLeastZero.unique {l : ℤ} {r r' : ℤ × BitmapMemory} (h : m.SetsLeastZero l r)
    (h' : m.SetsLeastZero l r') : r = r' := by
  rcases h with ⟨p, hp, hzero, hlow, hret, hbits⟩ | ⟨hfull, heq⟩
  · rcases h' with ⟨p', hp', hzero', hlow', hret', hbits'⟩ | ⟨hfull', -⟩
    · obtain rfl : p = p' := by
        by_contra hne
        rcases Nat.lt_or_gt_of_ne hne with hlt | hlt
        · exact Bool.false_ne_true (hzero ▸ hlow' p hlt)
        · exact Bool.false_ne_true (hzero' ▸ hlow p' hlt)
      refine Prod.ext (hret.trans hret'.symm) (ext_bit fun q => ?_)
      rw [hbits, hbits']
    · exact absurd (hzero ▸ hfull' p hp) Bool.false_ne_true
  · rcases h' with ⟨p', hp', hzero', -⟩ | ⟨-, heq'⟩
    · exact absurd (hzero' ▸ hfull p' hp') Bool.false_ne_true
    · rw [heq, heq']

theorem setsLeastZero_withBit {l : ℤ} {p : ℕ} (hp : (p : ℤ) < l) (hzero : m.bit p = false)
    (hlow : ∀ q < p, m.bit q = true) : m.SetsLeastZero l (p, m.withBit p) :=
  Or.inl ⟨p, hp, hzero, hlow, rfl, m.bit_withBit p⟩

/-! ## The tool takes the first zero bit -/

theorem Tool.bitmapGet_eq (e : Endian) (p : ℕ) : Tool.bitmapGet e m p = m.bit p := by
  unfold Tool.bitmapGet bit
  rw [fromBigEndian32_load]

theorem Tool.bitmapSet_eq (e : Endian) (p : ℕ) : Tool.bitmapSet e m p true = m.withBit p := by
  unfold Tool.bitmapSet withBit
  rw [fromBigEndian32_load, store_fromBigEndian32]

theorem Tool.findLoop_spec (e : Endian) {l : ℤ} {n i : ℕ} (hn : (i : ℤ) + n = l)
    (hlow : ∀ q < i, m.bit q = true) :
    m.SetsLeastZero l (if l ≤ ((Tool.findLoop e m n i).1 : ℤ) then -1 else (Tool.findLoop e m n i).1,
      (Tool.findLoop e m n i).2) := by
  induction n generalizing i with
  | zero =>
      unfold Tool.findLoop
      rw [if_pos (by omega)]
      exact Or.inr ⟨fun q hq => hlow q (by omega), rfl⟩
  | succ n ih =>
      unfold Tool.findLoop
      rw [Tool.bitmapGet_eq]
      by_cases hzero : m.bit i = false
      · rw [if_pos hzero, Tool.bitmapSet_eq, if_neg (by omega)]
        exact setsLeastZero_withBit (by omega) hzero hlow
      · rw [if_neg hzero]
        refine ih (by omega) fun q hq => ?_
        by_cases hqi : q = i
        · rw [hqi]
          exact Bool.eq_true_of_not_eq_false hzero
        · exact hlow q (by omega)

theorem Tool.bitmapFindnset_spec (e : Endian) {l : ℤ} (h0 : 0 ≤ l) :
    m.SetsLeastZero l (Tool.bitmapFindnset e m l) :=
  Tool.findLoop_spec e (by omega) fun q hq => absurd hq (Nat.not_lt_zero q)

/-! ## The kernel -/

theorem bitmapSet_big (p : ℕ) : bitmapSet .big m p true = m.withBit p := rfl

/-- The loop over the bits returns, since the word has a zero bit. -/
theorem findInWord_spec {l : ℤ} {basepos n j : ℕ} (hlow : ∀ q < basepos + j, m.bit q = true)
    (hnot : ∃ k < j + n, m.bit (basepos + k) = false) :
    ∃ r, findInWord .big m l basepos n j = some r ∧ m.SetsLeastZero l r := by
  induction n generalizing j with
  | zero =>
      obtain ⟨k, hk, hzero⟩ := hnot
      exact absurd (hzero ▸ hlow (basepos + k) (by omega)) Bool.false_ne_true
  | succ n ih =>
      unfold findInWord
      by_cases hzero : m.bit (basepos + j) = false
      · have hget : bitmapGet .big m (basepos + j) = false := hzero
        rw [if_pos hget]
        by_cases hl : l ≤ ((basepos + j : ℕ) : ℤ)
        · rw [if_pos hl]
          exact ⟨_, rfl, Or.inr ⟨fun q hq => hlow q (by omega), rfl⟩⟩
        · rw [if_neg hl, bitmapSet_big]
          exact ⟨_, rfl, setsLeastZero_withBit (by omega) hzero hlow⟩
      · have hget : ¬bitmapGet .big m (basepos + j) = false := hzero
        rw [if_neg hget]
        refine ih (fun q hq => ?_) ?_
        · by_cases hqj : q = basepos + j
          · rw [hqj]
            exact Bool.eq_true_of_not_eq_false hzero
          · exact hlow q (by omega)
        · obtain ⟨k, hk, hkzero⟩ := hnot
          exact ⟨k, by omega, hkzero⟩

/-- The loop over the words, if it gets to the last of the `l` bits. -/
theorem findInWords_spec {l : ℤ} {n i : ℕ} (hn : l ≤ 32 * ((i : ℤ) + n))
    (hlow : ∀ q < 32 * i, m.bit q = true) : m.SetsLeastZero l (findInWords .big m l n i) := by
  induction n generalizing i with
  | zero =>
      unfold findInWords
      exact Or.inr ⟨fun q hq => hlow q (by omega), rfl⟩
  | succ n ih =>
      unfold findInWords
      by_cases hones : (m i).load .big = 0xffffffff#32
      · have hword := (m.load_eq_ones_iff i).1 hones
        rw [if_neg (not_not.2 hones)]
        refine ih (by push_cast at hn ⊢; omega) fun q hq => ?_
        by_cases hqi : q < 32 * i
        · exact hlow q hqi
        · have hbit := hword (q - 32 * i) (by omega)
          rwa [show 32 * i + (q - 32 * i) = q by omega] at hbit
      · have hzero : ∃ k < 0 + 32, m.bit (i * 32 + k) = false := by
          by_contra hall
          refine hones ((m.load_eq_ones_iff i).2 fun j hj => ?_)
          by_contra hbit
          rw [Nat.mul_comm] at hbit
          exact hall ⟨j, by omega, Bool.eq_false_of_not_eq_true hbit⟩
        obtain ⟨r, hr, hspec⟩ := @findInWord_spec m l (i * 32) 32 0 (fun q hq => hlow q (by omega)) hzero
        rw [if_pos hones, hr]
        exact hspec

/-- The number of words that the kernel looks at. -/
theorem bitmapSizeof_of_le {l : ℤ} (h0 : 0 ≤ l) (hl : l ≤ 2 ^ 31 - 32) :
    (bitmapSizeof l).tdiv 4 = (l + 31) / 32 := by
  have hsum : wrap32 (l + 31) = l + 31 := wrap32_eq_self (by omega) (by omega)
  have hsize : wrap32 ((l + 31) / 32 * 4) = (l + 31) / 32 * 4 := wrap32_eq_self (by omega) (by omega)
  have hwords : (l + 31).tdiv 32 = (l + 31) / 32 := Int.tdiv_eq_ediv_of_nonneg (by omega)
  unfold bitmapSizeof
  rw [hsum, hwords, hsize, Int.tdiv_eq_ediv_of_nonneg (by omega)]
  omega

/-- Beyond, the sum is a negative `int`, and there are no rounds. -/
theorem bitmapSizeof_of_gt {l : ℤ} (hlo : 2 ^ 31 - 32 < l) (hhi : l ≤ intMax) :
    (bitmapSizeof l).tdiv 4 ≤ 0 := by
  unfold intMax at hhi
  have hsum : wrap32 (l + 31) = l + 31 - 2 ^ 32 := wrap32_of_overflow (by omega) (by omega)
  have hsize : wrap32 ((l + 31 - 2 ^ 32).tdiv 32 * 4) = (l + 31 - 2 ^ 32).tdiv 32 * 4 := by
    rw [tdiv_of_nonpos (by omega)]
    exact wrap32_eq_self (by omega) (by omega)
  unfold bitmapSizeof
  rw [hsum, hsize, Int.mul_tdiv_cancel _ (by decide), tdiv_of_nonpos (by omega)]
  omega

theorem bitmapFindnset_of_nonneg (e : Endian) {l : ℤ} (h0 : 0 ≤ l) :
    bitmapFindnset e m l = .ok (findInWords e m l ((bitmapSizeof l).tdiv 4).toNat 0) := by
  unfold bitmapFindnset kernelAssert
  rw [if_pos h0]
  rfl

/-- The kernel takes the first zero bit. -/
theorem bitmapFindnset_spec {l : ℤ} (h0 : 0 ≤ l) (hl : l ≤ 2 ^ 31 - 32) :
    ∃ r, bitmapFindnset .big m l = .ok r ∧ m.SetsLeastZero l r := by
  refine ⟨_, bitmapFindnset_of_nonneg .big h0, findInWords_spec ?_ fun q hq => by omega⟩
  rw [bitmapSizeof_of_le h0 hl]
  push_cast
  omega

/-- On an overflow it finds nothing. -/
theorem bitmapFindnset_overflow {l : ℤ} (hlo : 2 ^ 31 - 32 < l) (hhi : l ≤ intMax) :
    bitmapFindnset .big m l = .ok (-1, m) := by
  rw [bitmapFindnset_of_nonneg .big (by omega), Int.toNat_of_nonpos (bitmapSizeof_of_gt hlo hhi)]
  rfl

/-! ## The two -/

/-- On the same bytes, the two do the same, and what they are for. -/
def Agree (e : Endian) (m : BitmapMemory) (l : ℤ) : Prop :=
  ∃ r, bitmapFindnset .big m l = .ok r ∧ Tool.bitmapFindnset e m l = r ∧ m.SetsLeastZero l r

/-- With a free bit and an overflow they do not. -/
theorem not_agree {e : Endian} {l : ℤ} (hlo : 2 ^ 31 - 32 < l) (hhi : l ≤ intMax) {p : ℕ}
    (hp : (p : ℤ) < l) (hzero : m.bit p = false) : ¬Agree e m l := by
  rintro ⟨r, hkernel, -, hspec⟩
  rw [bitmapFindnset_overflow hlo hhi] at hkernel
  obtain rfl := Except.ok.inj hkernel
  rcases hspec with ⟨q, -, -, -, hret, -⟩ | ⟨hfull, -⟩
  · change (-1 : ℤ) = q at hret
    omega
  · exact Bool.false_ne_true (hzero ▸ hfull p hp)

/-- **The two searches agree** on a bitmap of any size, if and only if the number of bytes is computed
without an overflow, or there is no zero bit to be found. -/
theorem agree_iff (e : Endian) (m : BitmapMemory) {l : ℤ} (h0 : 0 ≤ l) (hl : l ≤ intMax) :
    Agree e m l ↔ l ≤ 2 ^ 31 - 32 ∨ ∀ q : ℕ, (q : ℤ) < l → m.bit q = true := by
  have htool := @Tool.bitmapFindnset_spec m e l h0
  constructor
  · intro hagree
    by_contra hnot
    rw [not_or, not_le] at hnot
    refine hnot.2 fun q hq => ?_
    by_contra hbit
    exact not_agree hnot.1 hl hq (Bool.eq_false_of_not_eq_true hbit) hagree
  · intro hcond
    by_cases hsmall : l ≤ 2 ^ 31 - 32
    · obtain ⟨r, hkernel, hspec⟩ := bitmapFindnset_spec h0 hsmall
      exact ⟨r, hkernel, htool.unique hspec, hspec⟩
    · have hfull := hcond.resolve_left hsmall
      have hspec : m.SetsLeastZero l (-1, m) := Or.inr ⟨hfull, rfl⟩
      exact ⟨_, bitmapFindnset_overflow (not_le.1 hsmall) hl, htool.unique hspec, hspec⟩

/-- A bitmap of zeros. -/
def zeros : BitmapMemory := fun _ => ⟨0, 0, 0, 0⟩

theorem agree_iff_zeros : Agree .little zeros 40 :=
  (agree_iff .little zeros (by decide) (by decide)).2 (Or.inl (by decide))

/-- The largest length. -/
theorem not_agree_intMax : ¬Agree .little zeros (2 ^ 31 - 1) :=
  @not_agree zeros .little (2 ^ 31 - 1) (by decide) (by decide) 0 (by decide) (by decide)

/-! ## The allocation block -/

/-- The search in a block is the one in its words. -/
theorem bitmapFindnset_block (b : Block) {l : ℕ} (hl : l ≤ 4096) :
    bitmapFindnset .big b.word l
      = .ok ((Kudos.bitmapFindnset .big b l).1, (Kudos.bitmapFindnset .big b l).2.word) := by
  have hblock : SetsLeastZero b.word l
      ((Kudos.bitmapFindnset .big b l).1, (Kudos.bitmapFindnset .big b l).2.word) := by
    rcases Kudos.bitmapFindnset_spec .big b l with ⟨p, hp, hzero, hlow, heq⟩ | ⟨hfull, heq⟩
    · rw [heq]
      exact Or.inl ⟨p, by omega, hzero, hlow, rfl, bitmapGet_setBit .big b (by omega) true⟩
    · rw [heq]
      exact Or.inr ⟨fun q hq => hfull q (by omega), rfl⟩
  obtain ⟨r, hkernel, hspec⟩ := @bitmapFindnset_spec b.word l (by omega) (by omega)
  rw [hkernel, hspec.unique hblock]

end BitmapMemory

end Kudos
