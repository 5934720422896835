import Kudos.Proc.Process

set_option autoImplicit false

/-! # The bytes of a page

Physical memory is modelled in words, and a program is written to it in bytes. Here it is said which
byte is where, and what a write to the start of a page does to the bytes of it. -/

namespace Kudos

/-! ## Bytes of a word -/

/-- Byte `k` of a word. -/
def wordByte (w : BitVec 64) (k : ℕ) : UInt8 := UInt8.ofBitVec ((w >>> (8 * k)).setWidth 8)

theorem getLsbD_byteMask (j : ℕ) : (0xFF#64).getLsbD j = decide (j < 8) := by
  have hall : ∀ j < 64, (0xFF#64).getLsbD j = decide (j < 8) := by decide
  by_cases hj : j < 64
  · exact hall j hj
  · rw [BitVec.getLsbD_of_ge _ _ (by omega)]
    simp
    omega

/-- A bit of a word after one byte was replaced. -/
theorem getLsbD_setWordByte (w : BitVec 64) (k : ℕ) (b : UInt8) {j : ℕ} (hj : j < 64) :
    (setWordByte w k b).getLsbD j
      = if 8 * k ≤ j ∧ j < 8 * k + 8 then b.toBitVec.getLsbD (j - 8 * k) else w.getLsbD j := by
  unfold setWordByte
  simp only [BitVec.getLsbD_or, BitVec.getLsbD_and, BitVec.getLsbD_not, BitVec.getLsbD_shiftLeft,
    BitVec.getLsbD_setWidth, getLsbD_byteMask, hj, decide_true, Bool.true_and]
  by_cases hlow : j < 8 * k
  · have hnot : ¬ (8 * k ≤ j ∧ j < 8 * k + 8) := by omega
    simp [hlow, hnot]
  · by_cases hhigh : j < 8 * k + 8
    · have hin : 8 * k ≤ j ∧ j < 8 * k + 8 := by omega
      have hbit : j - 8 * k < 8 := by omega
      have hbit' : j - 8 * k < 64 := by omega
      simp [hlow, hin, hbit, hbit']
    · have hnot : ¬ (8 * k ≤ j ∧ j < 8 * k + 8) := by omega
      have hbit : ¬ j - 8 * k < 8 := by omega
      have hzero : b.toBitVec.getLsbD (j - 8 * k) = false :=
        BitVec.getLsbD_of_ge _ _ (by omega)
      simp [hlow, hnot, hbit, hzero]

theorem wordByte_setWordByte (w : BitVec 64) (b : UInt8) {j k : ℕ} (hj : j < 8) :
    wordByte (setWordByte w k b) j = if j = k then b else wordByte w j := by
  have hbits : ∀ w : BitVec 64, ∀ i < 8, (wordByte w j).toBitVec.getLsbD i = w.getLsbD (8 * j + i) := by
    intro w i hi
    simp [wordByte, hi]
  rw [← UInt8.toBitVec_inj]
  refine BitVec.eq_of_getLsbD_eq fun i hi => ?_
  rw [hbits _ i hi, getLsbD_setWordByte _ _ _ (by omega)]
  by_cases hjk : j = k
  · subst hjk
    rw [if_pos (by omega), if_pos rfl, Nat.add_sub_cancel_left]
  · rw [if_neg (by omega), if_neg hjk, hbits _ i hi]

/-- The part of `overlay` for byte `k` of the word. -/
def overlayByte (start offset : ℕ) (bytes : List UInt8) (w : BitVec 64) (k : ℕ) : BitVec 64 :=
  if offset ≤ start + k then (bytes[start + k - offset]?).elim w (setWordByte w k) else w

theorem overlay_eq (w : BitVec 64) (start offset : ℕ) (bytes : List UInt8) :
    overlay w start offset bytes = (List.range 8).foldl (overlayByte start offset bytes) w := by
  unfold overlay
  congr 1
  funext w k
  unfold overlayByte
  by_cases hk : offset ≤ start + k
  · rw [if_pos hk, if_pos hk]
    cases bytes[start + k - offset]? <;> rfl
  · rw [if_neg hk, if_neg hk]

theorem wordByte_overlayByte (w : BitVec 64) (start offset n : ℕ) (bytes : List UInt8) {k : ℕ}
    (hk : k < 8) :
    wordByte (overlayByte start offset bytes w n) k
      = if k = n ∧ offset ≤ start + k then (bytes[start + k - offset]?).getD (wordByte w k)
        else wordByte w k := by
  unfold overlayByte
  by_cases hn : offset ≤ start + n
  · rw [if_pos hn]
    cases hbyte : bytes[start + n - offset]? with
    | none =>
        by_cases hkn : k = n
        · subst hkn
          simp [hbyte]
        · simp [hkn]
    | some b =>
        rw [Option.elim_some, wordByte_setWordByte _ _ hk]
        by_cases hkn : k = n
        · subst hkn
          simp [hn, hbyte]
        · simp [hkn]
  · rw [if_neg hn]
    by_cases hkn : k = n
    · subst hkn
      simp [hn]
    · simp [hkn]

theorem wordByte_overlay (w : BitVec 64) (start offset : ℕ) (bytes : List UInt8) {k : ℕ}
    (hk : k < 8) :
    wordByte (overlay w start offset bytes) k
      = if offset ≤ start + k then (bytes[start + k - offset]?).getD (wordByte w k)
        else wordByte w k := by
  -- the loop over the bytes of the word, stopped before byte `n`
  have hloop : ∀ n, wordByte ((List.range n).foldl (overlayByte start offset bytes) w) k
      = if k < n ∧ offset ≤ start + k then (bytes[start + k - offset]?).getD (wordByte w k)
        else wordByte w k := by
    intro n
    induction n with
    | zero => simp
    | succ n ih =>
        rw [List.range_succ, List.foldl_append, List.foldl_cons, List.foldl_nil,
          wordByte_overlayByte _ _ _ _ _ hk, ih]
        by_cases hkn : k = n
        · subst hkn
          simp
        · have hiff : k < n + 1 ↔ k < n := by omega
          simp [hkn, hiff]
  rw [overlay_eq, hloop 8]
  simp only [hk, true_and]

/-! ## Bytes of a page -/

/-- Byte `k` of a page of physical memory. -/
def pageByte (s : VmState) (page : BitVec 64) (k : ℕ) : UInt8 :=
  wordByte (s.tables page (k / 8)) (k % 8)

/-- The byte at an address of the address space of a table. -/
def userByte (s : VmState) (pml4 va : BitVec 64) : Option UInt8 :=
  (walk s pml4 va).map fun page => pageByte s page (va.toNat % 4096)

/-- The page with bytes written to its start. -/
def fillStart (s : VmState) (page : BitVec 64) (bytes : List UInt8) : VmState :=
  setPage s page fun i => overlay (s.tables page i) (8 * i) 0 bytes

section

variable {s : VmState} {pml4 va page q : BitVec 64} {bytes : List UInt8}

theorem pageByte_fillStart (s : VmState) (page : BitVec 64) (bytes : List UInt8) (k : ℕ) :
    pageByte (fillStart s page bytes) page k = (bytes[k]?).getD (pageByte s page k) := by
  have hk : 8 * (k / 8) + k % 8 = k := Nat.div_add_mod k 8
  unfold pageByte fillStart setPage
  simp only [Function.update_self]
  rw [wordByte_overlay _ _ _ _ (Nat.mod_lt k (by decide)), if_pos (Nat.zero_le _), Nat.sub_zero, hk]

theorem tables_fillStart (hq : q ≠ page) : (fillStart s page bytes).tables q = s.tables q := by
  unfold fillStart setPage
  simp only [Function.update_of_ne hq]

/-- At the start of a page at most a page of bytes goes to that page. -/
theorem writeUser_start (halign : va.toNat % 4096 = 0) (hcanonical : Canonical va)
    (hwalk : walk s pml4 va = some page) (hlen : bytes.length ≤ 4096) :
    writeUser s pml4 va bytes = .ok (fillStart s page bytes) := by
  unfold writeUser writePage
  rw [if_pos hcanonical, hwalk, halign]
  simp only [Nat.sub_zero, List.take_of_length_le hlen, bind, Except.bind]
  rw [if_pos hlen]
  rfl

end

end Kudos
