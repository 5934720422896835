import Mathlib.Data.Fin.Basic
import Mathlib.Tactic.IntervalCases

set_option autoImplicit false

/-! # Words in memory, in two byte orders

A 32-bit word in memory is four bytes. A processor reads them as a number with the first byte on top
(`big`) or at the bottom (`little`), and the same bytes are two different numbers. `Block` is a block
of 512 bytes with the accesses to its words and to its bytes. -/

namespace Words

inductive Endian where
  | big | little
  deriving DecidableEq, Repr

/-- Four bytes, in the order of their addresses. -/
@[ext]
structure Word where
  b0 : UInt8
  b1 : UInt8
  b2 : UInt8
  b3 : UInt8
  deriving DecidableEq, Repr

namespace Word

def reverse (w : Word) : Word := ⟨w.b3, w.b2, w.b1, w.b0⟩

@[simp]
theorem reverse_reverse (w : Word) : w.reverse.reverse = w := rfl

/-- The number in big-endian order. -/
def toBE (w : Word) : BitVec 32 :=
  w.b0.toBitVec ++ w.b1.toBitVec ++ w.b2.toBitVec ++ w.b3.toBitVec

/-- The bytes of a number in big-endian order. -/
def ofBE (v : BitVec 32) : Word :=
  ⟨⟨v.extractLsb' 24 8⟩, ⟨v.extractLsb' 16 8⟩, ⟨v.extractLsb' 8 8⟩, ⟨v.extractLsb' 0 8⟩⟩

@[simp]
theorem ofBE_toBE (w : Word) : ofBE w.toBE = w := by
  obtain ⟨a, b, c, d⟩ := w
  simp only [ofBE, toBE, Word.mk.injEq]
  refine ⟨?_, ?_, ?_, ?_⟩ <;> apply UInt8.eq_of_toBitVec_eq <;>
    apply BitVec.eq_of_getLsbD_eq <;> intro i hi <;>
    simp only [BitVec.getLsbD_extractLsb', BitVec.getLsbD_append] <;>
    interval_cases i <;> simp

@[simp]
theorem toBE_ofBE (v : BitVec 32) : (ofBE v).toBE = v := by
  apply BitVec.eq_of_getLsbD_eq
  intro i hi
  simp only [toBE, ofBE, BitVec.getLsbD_append, BitVec.getLsbD_extractLsb']
  interval_cases i <;> simp

theorem toNat_toBE (w : Word) : w.toBE.toNat
    = w.b0.toNat * 16777216 + w.b1.toNat * 65536 + w.b2.toNat * 256 + w.b3.toNat := by
  have happend : ∀ {n : ℕ} (x : BitVec n) (y : UInt8),
      (x ++ y.toBitVec).toNat = x.toNat * 256 + y.toNat := by
    intro n x y
    rw [BitVec.toNat_append, ← Nat.shiftLeft_add_eq_or_of_lt y.toBitVec.isLt, Nat.shiftLeft_eq]
    rfl
  simp only [toBE, happend, UInt8.toNat_toBitVec]
  omega

/-- The first byte of a small number is zero. -/
theorem b0_eq_zero {w : Word} (h : w.toBE.toNat < 16777216) : w.b0 = 0 := by
  rw [toNat_toBE] at h
  apply UInt8.toNat_inj.1
  show w.b0.toNat = 0
  omega

/-- The number a processor reads from the word. -/
def load (e : Endian) (w : Word) : BitVec 32 :=
  match e with
  | .big => w.toBE
  | .little => w.reverse.toBE

/-- The word a processor stores for a number. -/
def store (e : Endian) (v : BitVec 32) : Word :=
  match e with
  | .big => ofBE v
  | .little => (ofBE v).reverse

@[simp]
theorem load_store (e : Endian) (v : BitVec 32) : load e (store e v) = v := by
  cases e <;> simp [load, store]

@[simp]
theorem store_load (e : Endian) (w : Word) : store e (load e w) = w := by
  cases e <;> simp [load, store]

theorem load_injective {e : Endian} {w w' : Word} (h : load e w = load e w') : w = w' := by
  rw [← store_load e w, h, store_load]

def byte (w : Word) (j : ℕ) : UInt8 :=
  match j with
  | 0 => w.b0
  | 1 => w.b1
  | 2 => w.b2
  | _ => w.b3

def setByte (w : Word) (j : ℕ) (v : UInt8) : Word :=
  match j with
  | 0 => { w with b0 := v }
  | 1 => { w with b1 := v }
  | 2 => { w with b2 := v }
  | _ => { w with b3 := v }

theorem byte_setByte (w : Word) {j k : ℕ} (hj : j < 4) (hk : k < 4) (v : UInt8) :
    (w.setByte j v).byte k = if k = j then v else w.byte k := by
  interval_cases j <;> interval_cases k <;> rfl

end Word

/-- The number with its bytes reversed. -/
def swap32 (v : BitVec 32) : BitVec 32 := (Word.ofBE v).reverse.toBE

@[simp]
theorem swap32_swap32 (v : BitVec 32) : swap32 (swap32 v) = v := by
  simp [swap32]

/-- The conversion between the order of the processor and big-endian order, in either direction. -/
def fromBigEndian32 (e : Endian) (v : BitVec 32) : BitVec 32 :=
  match e with
  | .big => v
  | .little => swap32 v

/-- Read and converted, a word is the same number on every processor. -/
@[simp]
theorem fromBigEndian32_load (e : Endian) (w : Word) : fromBigEndian32 e (w.load e) = w.toBE := by
  cases e <;> simp [fromBigEndian32, Word.load, swap32]

/-- Converted and stored, a number is the same bytes on every processor. -/
@[simp]
theorem store_fromBigEndian32 (e : Endian) (v : BitVec 32) :
    Word.store e (fromBigEndian32 e v) = Word.ofBE v := by
  cases e <;> simp [fromBigEndian32, Word.store, swap32]

/-! ## Blocks -/

/-- 512 bytes, as 128 words. -/
abbrev Block := Fin 128 → Word

namespace Block

def zero : Block := fun _ => ⟨0, 0, 0, 0⟩

/-- The word with index `k`; zero outside of the block. -/
def word (b : Block) (k : ℕ) : Word := if h : k < 128 then b ⟨k, h⟩ else ⟨0, 0, 0, 0⟩

def setWord (b : Block) (k : ℕ) (w : Word) : Block := fun j => if j.val = k then w else b j

theorem word_setWord (b : Block) {k : ℕ} (hk : k < 128) (w : Word) (j : ℕ) :
    (b.setWord k w).word j = if j = k then w else b.word j := by
  unfold word setWord
  by_cases hj : j < 128
  · simp [hj]
  · simp only [hj, dite_false]
    rw [if_neg (by omega)]

@[simp]
theorem word_setWord_self (b : Block) {k : ℕ} (hk : k < 128) (w : Word) :
    (b.setWord k w).word k = w := by
  rw [word_setWord b hk, if_pos rfl]

theorem word_setWord_of_ne (b : Block) {j k : ℕ} (w : Word) (h : j ≠ k) :
    (b.setWord k w).word j = b.word j := by
  unfold word setWord
  by_cases hj : j < 128
  · simp [hj, h]
  · simp [hj]

/-- Blocks with the same words are the same. -/
theorem ext_word {b b' : Block} (h : ∀ k < 128, b.word k = b'.word k) : b = b' := by
  funext k
  have := h k.val k.isLt
  simpa [word] using this

/-- The byte with index `n`; zero outside of the block. -/
def byte (b : Block) (n : ℕ) : UInt8 := (b.word (n / 4)).byte (n % 4)

def setByte (b : Block) (n : ℕ) (v : UInt8) : Block :=
  b.setWord (n / 4) ((b.word (n / 4)).setByte (n % 4) v)

theorem byte_setByte (b : Block) {n : ℕ} (hn : n < 512) (v : UInt8) (m : ℕ) :
    (b.setByte n v).byte m = if m = n then v else b.byte m := by
  unfold byte setByte
  rw [word_setWord b (by omega)]
  by_cases hw : m / 4 = n / 4
  · rw [if_pos hw, Word.byte_setByte _ (by omega) (by omega), hw]
    by_cases hm : m = n
    · rw [if_pos (by rw [hm]), if_pos hm]
    · rw [if_neg (by omega), if_neg hm]
  · rw [if_neg hw, if_neg (by rintro rfl; exact hw rfl)]

theorem word_setByte_of_ne (b : Block) {n k : ℕ} (v : UInt8) (h : n / 4 ≠ k) :
    (b.setByte n v).word k = b.word k :=
  word_setWord_of_ne b _ h.symm

theorem byte_setWord_of_ne (b : Block) {k n : ℕ} (w : Word) (h : n / 4 ≠ k) :
    (b.setWord k w).byte n = b.byte n := by
  unfold byte
  rw [word_setWord_of_ne b w h]

/-- The block with the bytes `f`. -/
def ofBytes (f : ℕ → UInt8) : Block := fun k => ⟨f (4 * k), f (4 * k + 1), f (4 * k + 2), f (4 * k + 3)⟩

/-- `memcopy` of `n` bytes from `src` into the block, from the byte `off` on. -/
def blit (b : Block) (off n : ℕ) (src : ℕ → UInt8) : Block :=
  ofBytes (fun m => if off ≤ m ∧ m < off + n then src (m - off) else b.byte m)

theorem byte_ofBytes (f : ℕ → UInt8) {m : ℕ} (hm : m < 512) : (ofBytes f).byte m = f m := by
  have hword : m / 4 < 128 := by omega
  have hsplit : 4 * (m / 4) + m % 4 = m := Nat.div_add_mod m 4
  unfold byte word ofBytes
  rw [dif_pos hword]
  have hlt : m % 4 < 4 := Nat.mod_lt _ (by decide)
  generalize hr : m % 4 = r at hlt hsplit
  interval_cases r
  all_goals
    simp only [Word.byte]
    exact congrArg f hsplit

/-- `memcopy` sets the bytes of its range. -/
theorem byte_blit (b : Block) {off n m : ℕ} (src : ℕ → UInt8) (hm : m < 512) :
    (b.blit off n src).byte m = if off ≤ m ∧ m < off + n then src (m - off) else b.byte m :=
  byte_ofBytes _ hm

/-- A word is given by its four bytes. -/
theorem word_ext_byte {b b' : Block} {k : ℕ} (h : ∀ j < 4, b.byte (4 * k + j) = b'.byte (4 * k + j)) :
    b.word k = b'.word k := by
  have hbyte : ∀ (c : Block) (j : ℕ), j < 4 → c.byte (4 * k + j) = (c.word k).byte j := by
    intro c j hj
    unfold byte
    rw [show (4 * k + j) / 4 = k by omega, show (4 * k + j) % 4 = j by omega]
  have hword : ∀ j < 4, (b.word k).byte j = (b'.word k).byte j := by
    intro j hj
    rw [← hbyte b j hj, ← hbyte b' j hj]
    exact h j hj
  exact Word.ext (hword 0 (by decide)) (hword 1 (by decide)) (hword 2 (by decide))
    (hword 3 (by decide))

end Block

end Words
