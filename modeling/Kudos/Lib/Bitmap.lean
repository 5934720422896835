import Kudos.Lib.BitmapWords
import Kudos.Library.Words

set_option autoImplicit false

/-! # Bitmaps

The bitmap functions of `lib/bitmap.c` on a bitmap that fills one block, the only size the
filesystem uses. They work on the words as the processor reads them, so which byte of the block a bit
lies in depends on the byte order. -/

namespace Kudos

open Words

/-- `bitmap_get`. -/
def bitmapGet (e : Endian) (bitmap : Block) (pos : ℕ) : Bool :=
  ((bitmap.word (pos / 32)).load e).getLsbD (pos % 32)

/-- The store of `bitmap_set`. -/
def setBit (e : Endian) (bitmap : Block) (pos : ℕ) (value : Bool) : Block :=
  let w := (bitmap.word (pos / 32)).load e
  bitmap.setWord (pos / 32)
    (Word.store e (if value then w ||| (1#32 <<< (pos % 32)) else w &&& ~~~(1#32 <<< (pos % 32))))

/-- `bitmap_set` on a bitmap that is all of the memory there is. The position is an `int`, of which it
    only asserts that it is not negative; what a larger one than 4095 changes is up to the memory behind
    the bitmap, as `Kudos.Fs.TfsPage` has it, and a fault here. -/
def bitmapSet (e : Endian) (bitmap : Block) (pos : BitVec 32) (value : Bool) :
    Except KernelFault Block := do
  kernelAssert (0 ≤ pos.toInt)
  if 128 ≤ pos.toNat / 32 then throw .outOfBounds
  return setBit e bitmap pos.toNat value

/-- How `bitmap_set` ends the kernel, with memory for `n` words of the bitmap. -/
def setFault (n : ℕ) (pos : BitVec 32) : Option KernelFault :=
  if pos.toInt < 0 then some .assertion
  else if n ≤ pos.toNat / 32 then some .outOfBounds
  else none

theorem setFault_eq_none {n : ℕ} {pos : BitVec 32} (hn : n ≤ 2 ^ 26) :
    setFault n pos = none ↔ pos.toNat < 32 * n := by
  have hint := BitVec.toInt_eq_toNat_cond pos
  unfold setFault
  split at hint
  · rw [if_neg (by omega)]
    split
    · simp only [reduceCtorEq, false_iff]
      omega
    · simp only [true_iff]
      omega
  · rw [if_pos (by omega)]
    simp only [reduceCtorEq, false_iff]
    omega

theorem bitmapSet_eq (e : Endian) (bitmap : Block) (pos : BitVec 32) (value : Bool) :
    bitmapSet e bitmap pos value = match setFault 128 pos with
      | some f => .error f
      | none => .ok (setBit e bitmap pos.toNat value) := by
  unfold bitmapSet setFault kernelAssert
  by_cases hneg : pos.toInt < 0
  · rw [if_neg (by omega), if_pos hneg]
    rfl
  · rw [if_pos (by omega), if_neg hneg]
    by_cases hout : 128 ≤ pos.toNat / 32
    · simp only [hout, if_true]
      rfl
    · simp only [hout, if_false]
      rfl

/-- `bitmap_findnset`: find a zero bit among the first `l` and set it. A word that is not all ones has
    a zero bit, so the loop over the bits of such a word always returns. -/
def bitmapFindnset (e : Endian) (bitmap : Block) (l : ℕ) : ℤ × Block :=
  match (List.range ((l + 31) / 32)).find? (fun i => (bitmap.word i).load e ≠ 0xffffffff#32) with
  | none => (-1, bitmap)
  | some i =>
      match (List.range 32).find? (fun j => !bitmapGet e bitmap (32 * i + j)) with
      | none => (-1, bitmap)
      | some j =>
          -- the last word may have unused bits
          if l ≤ 32 * i + j then (-1, bitmap)
          else (((32 * i + j : ℕ) : ℤ), setBit e bitmap (32 * i + j) true)

section

variable (e : Endian) (b : Block)

/-- The words of a block as the processor reads them. -/
def blockWords : BitmapWords := fun i => (b.word i).load e

theorem bitmapGet_setBit {p : ℕ} (hp : p < 4096) (v : Bool) (q : ℕ) :
    bitmapGet e (setBit e b p v) q = if q = p then v else bitmapGet e b q := by
  have hwords : blockWords e (setBit e b p v) = (blockWords e b).set p v := by
    funext i
    unfold blockWords setBit BitmapWords.set setWordBit
    rw [Block.word_setWord b (by omega)]
    by_cases hi : i = p / 32
    · rw [if_pos hi, Word.load_store, hi, Function.update_self]
    · rw [if_neg hi, Function.update_of_ne hi]
  show (blockWords e (setBit e b p v)).get q = _
  rw [hwords, BitmapWords.get_set]
  rfl

/-- A bitmap is given by its bits. -/
theorem ext_bitmapGet {b b' : Block} (h : ∀ p < 4096, bitmapGet e b p = bitmapGet e b' p) :
    b = b' := by
  refine Block.ext_word fun k hk => Word.load_injective (e := e) ?_
  refine BitVec.eq_of_getLsbD_eq fun j hj => ?_
  have hbit := h (32 * k + j) (by omega)
  unfold bitmapGet at hbit
  rwa [show (32 * k + j) / 32 = k by omega, show (32 * k + j) % 32 = j by omega] at hbit

/-- `bitmap_findnset` takes the first zero bit, provided it is one of the first `l`. -/
theorem bitmapFindnset_spec (l : ℕ) :
    (∃ p < l, bitmapGet e b p = false ∧ (∀ q < p, bitmapGet e b q = true) ∧
        bitmapFindnset e b l = ((p : ℤ), setBit e b p true)) ∨
      ((∀ q < l, bitmapGet e b q = true) ∧ bitmapFindnset e b l = (-1, b)) := by
  have hfind : bitmapFindnset e b l = ((blockWords e b).findZero l).elim (-1, b)
      fun p => ((p : ℤ), setBit e b p true) := by
    unfold bitmapFindnset BitmapWords.findZero blockWords
    cases (List.range ((l + 31) / 32)).find? (fun i => (b.word i).load e ≠ 0xffffffff#32) with
    | none => rfl
    | some i =>
        simp only [bitmapGet, BitmapWords.get]
        cases (List.range 32).find? (fun j =>
          !((b.word ((32 * i + j) / 32)).load e).getLsbD ((32 * i + j) % 32)) with
        | none => rfl
        | some j =>
            simp only
            split
            · rfl
            · rfl
  rcases (blockWords e b).findZero_spec l with ⟨p, hp, hzero, hlow, heq⟩ | ⟨hfull, heq⟩
  · rw [heq] at hfind
    exact Or.inl ⟨p, hp, hzero, hlow, hfind⟩
  · rw [heq] at hfind
    exact Or.inr ⟨hfull, hfind⟩

/-! ## Free bits -/

/-- The zero bits among the first `l`, in order. -/
def freeBits (l : ℕ) : List ℕ := (List.range l).filter (fun p => !bitmapGet e b p)

theorem mem_freeBits {l p : ℕ} : p ∈ freeBits e b l ↔ p < l ∧ bitmapGet e b p = false := by
  simp [freeBits]

theorem freeBits_nodup (l : ℕ) : (freeBits e b l).Nodup := List.nodup_range.filter _

/-- The first free bit. -/
theorem freeBits_head {l p : ℕ} {rest : List ℕ} (h : freeBits e b l = p :: rest) :
    p < l ∧ bitmapGet e b p = false := by
  refine (mem_freeBits e b).1 ?_
  rw [h]
  exact List.mem_cons_self

/-- The others are behind it. -/
theorem freeBits_tail {l p : ℕ} {rest : List ℕ} (h : freeBits e b l = p :: rest) :
    ∀ q ∈ rest, p < q := by
  have hsorted : (freeBits e b l).Pairwise (· < ·) := List.pairwise_lt_range.filter _
  rw [h] at hsorted
  exact (List.pairwise_cons.1 hsorted).1

/-- Without free bits nothing is found. -/
theorem bitmapFindnset_of_nil {l : ℕ} (h : freeBits e b l = []) : bitmapFindnset e b l = (-1, b) := by
  rcases bitmapFindnset_spec e b l with ⟨p, hp, hzero, -, -⟩ | ⟨-, heq⟩
  · have hmem := (mem_freeBits e b).2 ⟨hp, hzero⟩
    rw [h] at hmem
    cases hmem
  · exact heq

/-- Otherwise the first free bit is taken. -/
theorem bitmapFindnset_of_cons {l p : ℕ} {rest : List ℕ} (h : freeBits e b l = p :: rest) :
    bitmapFindnset e b l = ((p : ℤ), setBit e b p true) := by
  have hhead : (List.range l).find? (fun p => !bitmapGet e b p) = some p := by
    rw [← List.head?_filter]
    have hfree : (List.range l).filter (fun p => !bitmapGet e b p) = p :: rest := h
    rw [hfree, List.head?_cons]
  rw [List.find?_range_eq_some] at hhead
  obtain ⟨hzero, hp, hlow⟩ := hhead
  rcases bitmapFindnset_spec e b l with ⟨q, hq, hqz, hqlow, heq⟩ | ⟨hfull, -⟩
  · obtain rfl : q = p := by
      by_contra hne
      rcases Nat.lt_or_gt_of_ne hne with hlt | hlt
      · have := hlow q hlt
        simp [hqz] at this
      · have := hqlow p hlt
        simp [this] at hzero
    exact heq
  · have := hfull p (List.mem_range.1 hp)
    simp [this] at hzero

/-- The bit that was taken is no longer free, the others still are. -/
theorem freeBits_setBit {l p : ℕ} {rest : List ℕ} (hl : l ≤ 4096) (h : freeBits e b l = p :: rest) :
    freeBits e (setBit e b p true) l = rest := by
  have hp := (freeBits_head e b h).1
  have hfilter : freeBits e (setBit e b p true) l = (freeBits e b l).filter (fun q => q ≠ p) := by
    unfold freeBits
    rw [List.filter_filter]
    refine List.filter_congr fun q _ => ?_
    rw [bitmapGet_setBit e b (by omega)]
    by_cases hq : q = p <;> simp [hq]
  have hnot : p ∉ rest := fun hmem => Nat.lt_irrefl p (freeBits_tail e b h p hmem)
  rw [hfilter, h, List.filter_cons_of_neg (by simp)]
  refine List.filter_eq_self.2 fun q hq => ?_
  simpa using fun hqp : q = p => hnot (hqp ▸ hq)

end

end Kudos
