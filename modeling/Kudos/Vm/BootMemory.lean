import Kudos.Vm.PagePool
import Mathlib.Algebra.Group.Int.Defs

set_option autoImplicit false

/-! # The memory of the mips32 kernel from the start on

`kernel/stalloc.c`, and how `physmem_init` finds out which pages it may give away. Until `vm_init` the kernel takes
its memory behind its own image, and never gives it back; afterwards the page pool has the rest. The two never
meet (`bootReachable_disjoint`). -/

namespace Kudos.Mips32

open Transition

/-! ## `kernel/stalloc.c` -/

/-- The variables of the module. -/
structure Stalloc where
  freeAreaStart : BitVec 32
  stallocedTotal : BitVec 32

/-- The next address on a word boundary. -/
def wordBoundary (a : BitVec 32) : BitVec 32 := if a &&& 0x03 = 0 then a else (a + 4) &&& 0xfffffffc

/-- `stalloc_init`, where `kernelEndsHere` is `&KERNEL_ENDS_HERE`. -/
def stallocInit (kernelEndsHere : BitVec 32) : Stalloc := ⟨wordBoundary kernelEndsHere, 0⟩

/-- `stalloc_disable`. -/
def stallocDisable (kernelEndsHere : BitVec 32) (s : Stalloc) : Stalloc :=
  ⟨0xffffffff, s.freeAreaStart - kernelEndsHere⟩

def stalloc (s : Stalloc) (bytes : ℤ) : Except KernelFault (BitVec 32 × Stalloc) :=
  if s.freeAreaStart = 0xffffffff then .error .panic
  else if s.freeAreaStart = 0 then .error .panic
  else if bytes < 0 then .error .panic
  else .ok (s.freeAreaStart, { s with freeAreaStart := wordBoundary (s.freeAreaStart + BitVec.ofInt 32 bytes) })

/-! ## `vm/mips32/mm_phys.c` -/

/-- `io_descriptor_t`, as far as it is read. -/
structure IoDescriptor where
  type : BitVec 32
  ioAreaBase : BitVec 32

/-- `physmem_get_size`, with the descriptors at `IO_DESCRIPTOR_AREA` and the ports of the devices. The number is
read as an `int`. -/
def physmemGetSize (descriptors : List IoDescriptor) (port : BitVec 32 → BitVec 32) : Except KernelFault ℤ :=
  match descriptors.find? (·.type = 0x101) with
  | some d => if port d.ioAreaBase = 0 then .error .panic else .ok (port d.ioAreaBase).toInt
  | none => .error .panic

/-- `physmem_get_reserved_size`, which takes a byte to find out where the free area is. -/
def physmemGetReservedSize (s : Stalloc) : Except KernelFault (ℕ × Stalloc) := do
  let (freeStart, s) ← stalloc s 1
  let size := (freeStart - 0x80000000).toNat
  return (size / 4096 + if size % 4096 = 0 then 0 else 1, s)

/-- `bitmap_sizeof`. -/
def bitmapSizeof (numBits : ℤ) : ℤ := ((numBits + 31).tdiv 32) * 4

/-- `vm_init`: `physmem_init`, and no static memory from then on. The bitmap, of which the block is a result, has the
contents `mem` before. -/
def vmInit (kernelEndsHere : BitVec 32) (descriptors : List IoDescriptor) (port : BitVec 32 → BitVec 32)
    (mem : BitmapWords) (s : Stalloc) : Except KernelFault (PagePool × (BitVec 32 × ℤ) × Stalloc) := do
  let numPages ← physmemGetSize descriptors port
  let (freePages, s) ← stalloc s (bitmapSizeof numPages)
  kernelAssert (0 ≤ numPages)
  let (numResPages, s) ← physmemGetReservedSize s
  return (physmemInit mem numPages.toNat numResPages, (freePages, bitmapSizeof numPages),
    stallocDisable kernelEndsHere s)

/-! ## Runs -/

/-- A machine with `numPages` pages of memory, which the kernel finds from 0x80000000 on, where its image is. -/
structure Machine where
  kernelEndsHere : BitVec 32
  descriptors : List IoDescriptor
  port : BitVec 32 → BitVec 32
  mem : BitmapWords
  numPages : ℕ
  size : physmemGetSize descriptors port = .ok numPages
  small : numPages ≤ 2 ^ 17
  image : 0x80000000 < kernelEndsHere.toNat ∧ kernelEndsHere.toNat ≤ 0x80000000 + 4096 * numPages

/-- The blocks that `stalloc` has given, the last one first, and the pool, once there is one. The byte that is taken
last is not used, and is not among the blocks. -/
structure BootState where
  stalloc : Stalloc
  blocks : List (BitVec 32 × ℤ)
  pool : Option PoolSystem

inductive BootAction
  | stalloc (bytes : ℤ)
  | vmInit
  | pool (c : PoolCall)

variable (M : Machine)

/-- The end of the memory. -/
def Machine.memoryEnd : ℕ := 0x80000000 + 4096 * M.numPages

/-- `stalloc` does not check that there is memory left: its callers take what there is, and leave a byte for
`physmem_get_reserved_size`. -/
inductive BootStep : BootState → BootAction → BootState → Prop
  | stalloc {s : BootState} {bytes : ℤ} {a : BitVec 32} {st : Stalloc} :
      s.stalloc.freeAreaStart.toNat + bytes ≤ M.memoryEnd → stalloc s.stalloc bytes = .ok (a, st) →
      BootStep s (.stalloc bytes) { s with stalloc := st, blocks := (a, bytes) :: s.blocks }
  | vmInit {s : BootState} {pool : PagePool} {b : BitVec 32 × ℤ} {st : Stalloc} :
      s.stalloc.freeAreaStart.toNat + bitmapSizeof M.numPages < M.memoryEnd →
      vmInit M.kernelEndsHere M.descriptors M.port M.mem s.stalloc = .ok (pool, b, st) →
      BootStep s .vmInit ⟨st, b :: s.blocks, some ⟨pool, []⟩⟩
  | pool {s : BootState} {P P' : PoolSystem} {c : PoolCall} : s.pool = some P → PoolStep P c P' →
      BootStep s (.pool c) { s with pool := some P' }

abbrev BootReachable : BootState → Prop :=
  Reach (fun s => s = ⟨stallocInit M.kernelEndsHere, [], none⟩) (BootStep M)

/-! ## The word boundary -/

variable {M} {s : BootState} {a : BitVec 32} {n res : ℕ}

theorem and_three_eq_zero (a : BitVec 32) : a &&& 0x03 = 0 ↔ a.toNat % 4 = 0 := by
  have hmod : (a &&& 0x03).toNat = a.toNat % 4 := by
    rw [BitVec.toNat_and]
    exact Nat.and_two_pow_sub_one_eq_mod a.toNat 2
  rw [← hmod, ← BitVec.toNat_inj]
  rfl

theorem toNat_and_wordMask (a : BitVec 32) : (a &&& 0xfffffffc).toNat = a.toNat / 4 * 4 := by
  have hmask : (0xfffffffc : BitVec 32).toNat = (2 ^ 30 - 1) <<< 2 := rfl
  have hdiv : a.toNat / 4 * 4 = (a.toNat >>> 2) <<< 2 := by
    rw [Nat.shiftRight_eq_div_pow, Nat.shiftLeft_eq]
  rw [BitVec.toNat_and, hmask, hdiv]
  apply Nat.eq_of_testBit_eq
  intro i
  rw [Nat.testBit_and, Nat.testBit_shiftLeft, Nat.testBit_shiftLeft, Nat.testBit_shiftRight,
    Nat.testBit_two_pow_sub_one]
  by_cases hi : 2 ≤ i
  · rw [show 2 + (i - 2) = i by omega]
    by_cases hlt : i < 32
    · simp [hi, show i - 2 < 30 by omega]
    · have hzero : a.toNat.testBit i = false :=
        Nat.testBit_lt_two_pow (lt_of_lt_of_le a.isLt (Nat.pow_le_pow_right (by decide) (by omega)))
      simp [hzero]
  · simp [hi]

/-- The first multiple of 4 that is not less. -/
theorem toNat_wordBoundary (h : a.toNat + 4 < 2 ^ 32) : (wordBoundary a).toNat = (a.toNat + 3) / 4 * 4 := by
  unfold wordBoundary
  by_cases hmod : a.toNat % 4 = 0
  · rw [if_pos ((and_three_eq_zero a).2 hmod)]
    omega
  · have hadd : (a + 4).toNat = a.toNat + 4 := by
      rw [BitVec.toNat_add]
      exact Nat.mod_eq_of_lt h
    rw [if_neg (mt (and_three_eq_zero a).1 hmod), toNat_and_wordMask, hadd]
    omega

/-! ## One block -/

/-- The block is where the free area was, which is behind it then. -/
theorem stalloc_spec {st st' : Stalloc} {bytes : ℤ} (hok : stalloc st bytes = .ok (a, st'))
    (hfits : st.freeAreaStart.toNat + bytes + 4 < 2 ^ 32) :
    0 ≤ bytes ∧ a = st.freeAreaStart ∧
      (st'.freeAreaStart.toNat : ℤ) = (st.freeAreaStart.toNat + bytes + 3) / 4 * 4 := by
  unfold stalloc at hok
  split at hok
  · cases hok
  · split at hok
    · cases hok
    · split at hok
      · cases hok
      · rename_i hneg
        cases hok
        obtain ⟨k, rfl⟩ := Int.eq_ofNat_of_zero_le (Int.not_lt.1 hneg)
        have hadd : (st.freeAreaStart + BitVec.ofInt 32 k).toNat = st.freeAreaStart.toNat + k := by
          rw [BitVec.toNat_add, BitVec.ofInt_natCast, BitVec.toNat_ofNat]
          omega
        refine ⟨Int.natCast_nonneg k, rfl, ?_⟩
        rw [toNat_wordBoundary (by omega), hadd]
        omega

theorem bitmapSizeof_natCast (n : ℕ) : bitmapSizeof n = ((n + 31) / 32 * 4 : ℕ) := by
  unfold bitmapSizeof
  rw [Int.tdiv_eq_ediv_of_nonneg (by omega)]
  omega

/-- The number of pages up to an address. -/
theorem pages_of_size {size n : ℕ} (hpos : 0 < size) (hlt : size < 4096 * n) :
    ∃ res, size / 4096 + (if size % 4096 = 0 then 0 else 1) = res ∧ 1 ≤ res ∧ res ≤ n ∧ size ≤ 4096 * res := by
  refine ⟨_, rfl, ?_⟩
  split <;> omega

/-- The pages up to the end of the bitmap are reserved. -/
theorem vmInit_spec {st st' : Stalloc} {pool : PagePool} {b : BitVec 32 × ℤ}
    (hok : vmInit M.kernelEndsHere M.descriptors M.port M.mem st = .ok (pool, b, st'))
    (halign : st.freeAreaStart.toNat % 4 = 0) (hlow : M.kernelEndsHere.toNat ≤ st.freeAreaStart.toNat)
    (hfits : st.freeAreaStart.toNat + bitmapSizeof M.numPages < M.memoryEnd) :
    ∃ res, pool = physmemInit M.mem M.numPages res ∧ 1 ≤ res ∧ res ≤ M.numPages ∧
      b = (st.freeAreaStart, bitmapSizeof M.numPages) ∧
      st.freeAreaStart.toNat + bitmapSizeof M.numPages ≤ 0x80000000 + 4096 * res ∧
      st'.freeAreaStart = 0xffffffff := by
  have hsmall := M.small
  have himage := M.image.1
  unfold Machine.memoryEnd at hfits
  rw [bitmapSizeof_natCast] at hfits ⊢
  unfold vmInit at hok
  simp only [M.size, bind, Except.bind] at hok
  split at hok
  · cases hok
  next v hbitmap =>
  obtain ⟨hnonneg, ha, hfree⟩ := stalloc_spec hbitmap (by rw [bitmapSizeof_natCast]; omega)
  rw [bitmapSizeof_natCast] at hfree
  rw [kernelAssert, if_pos (Int.natCast_nonneg _)] at hok
  simp only [physmemGetReservedSize, bind, Except.bind, bitmapSizeof_natCast] at hok
  split at hok
  · cases hok
  next w hres =>
  split at hres
  · cases hres
  next u hlast =>
  cases hres
  cases hok
  obtain ⟨-, hu, -⟩ := stalloc_spec hlast (by omega)
  -- the end of the bitmap is on a word boundary
  have hend : (v.2.freeAreaStart.toNat : ℤ) = st.freeAreaStart.toNat + ((M.numPages + 31) / 32 * 4 : ℕ) := by
    omega
  have hsize : (u.1 - 0x80000000).toNat = v.2.freeAreaStart.toNat - 0x80000000 := by
    rw [hu, BitVec.toNat_sub]
    change (2 ^ 32 - 0x80000000 + v.2.freeAreaStart.toNat) % 2 ^ 32 = _
    omega
  obtain ⟨res, hpages, hpos, hle, hcover⟩ := pages_of_size
    (show 0 < v.2.freeAreaStart.toNat - 0x80000000 by omega)
    (show v.2.freeAreaStart.toNat - 0x80000000 < 4096 * M.numPages by omega)
  refine ⟨res, ?_, hpos, hle, ?_, by omega, rfl⟩
  · rw [hsize, hpages]
    rfl
  · rw [ha]

/-! ## All runs -/

/-- A block is behind another one. -/
def IsBehind (b b' : BitVec 32 × ℤ) : Prop := b'.1.toNat + b'.2 ≤ b.1.toNat

/-- The blocks lie one behind the other, up to the free area or, once there is a pool, up to its first page. -/
structure BootInvariant (M : Machine) (s : BootState) : Prop where
  ordered : s.blocks.Pairwise IsBehind
  placed : ∀ b ∈ s.blocks, b.1.toNat % 4 = 0 ∧ M.kernelEndsHere.toNat ≤ b.1.toNat ∧ 0 ≤ b.2
  before : s.pool = none → s.stalloc.freeAreaStart.toNat % 4 = 0 ∧
    M.kernelEndsHere.toNat ≤ s.stalloc.freeAreaStart.toNat ∧ s.stalloc.freeAreaStart.toNat ≤ M.memoryEnd ∧
    ∀ b ∈ s.blocks, b.1.toNat + b.2 ≤ s.stalloc.freeAreaStart.toNat
  after : ∀ P, s.pool = some P → s.stalloc.freeAreaStart = 0xffffffff ∧ ∃ res, 1 ≤ res ∧ res ≤ M.numPages ∧
    PoolReachable M.mem M.numPages res P ∧ M.kernelEndsHere.toNat ≤ 0x80000000 + 4096 * res ∧
    ∀ b ∈ s.blocks, b.1.toNat + b.2 ≤ 0x80000000 + 4096 * res

theorem stalloc_disabled {st : Stalloc} (h : st.freeAreaStart = 0xffffffff) (bytes : ℤ) :
    stalloc st bytes = .error .panic := by
  unfold stalloc
  rw [if_pos h]

/-- There is static memory only as long as there is no pool. -/
theorem BootInvariant.pool_eq_none (h : BootInvariant M s) {st : Stalloc} {bytes : ℤ}
    (hok : stalloc s.stalloc bytes = .ok (a, st)) : s.pool = none := by
  cases hpool : s.pool with
  | none => rfl
  | some P =>
      rw [stalloc_disabled (h.after P hpool).1] at hok
      cases hok

theorem memoryEnd_le (M : Machine) : M.memoryEnd + 8 < 2 ^ 32 ∧ M.memoryEnd % 4 = 0 := by
  have hsmall := M.small
  unfold Machine.memoryEnd
  omega

/-- A new block begins where the free area did. -/
theorem BootInvariant.cons (h : BootInvariant M s) (hpool : s.pool = none) {bytes : ℤ} (hbytes : 0 ≤ bytes) :
    ((s.stalloc.freeAreaStart, bytes) :: s.blocks).Pairwise IsBehind ∧
      ∀ b ∈ (s.stalloc.freeAreaStart, bytes) :: s.blocks,
        b.1.toNat % 4 = 0 ∧ M.kernelEndsHere.toNat ≤ b.1.toNat ∧ 0 ≤ b.2 := by
  obtain ⟨halign, hlow, -, hbelow⟩ := h.before hpool
  refine ⟨List.pairwise_cons.2 ⟨hbelow, h.ordered⟩, fun b hb => ?_⟩
  rcases List.mem_cons.1 hb with rfl | hb
  · exact ⟨halign, hlow, hbytes⟩
  · exact h.placed b hb

theorem bootReachable_invariant (h : BootReachable M s) : BootInvariant M s := by
  refine Reach.invariant ?_ ?_ h
  · rintro s rfl
    have himage := M.image
    obtain ⟨hend, hmod⟩ := memoryEnd_le M
    unfold Machine.memoryEnd at hend hmod
    have hstart : (wordBoundary M.kernelEndsHere).toNat = (M.kernelEndsHere.toNat + 3) / 4 * 4 :=
      toNat_wordBoundary (by omega)
    refine ⟨List.Pairwise.nil, fun b hb => (nomatch hb), fun _ => ?_, fun P hP => nomatch hP⟩
    change (wordBoundary M.kernelEndsHere).toNat % 4 = 0 ∧ _ ≤ (wordBoundary M.kernelEndsHere).toNat ∧
      (wordBoundary M.kernelEndsHere).toNat ≤ M.memoryEnd ∧ _
    unfold Machine.memoryEnd
    rw [hstart]
    exact ⟨by omega, by omega, by omega, fun b hb => (nomatch hb)⟩
  · intro s act s' hI hstep
    obtain ⟨hend, hmod⟩ := memoryEnd_le M
    cases hstep with
    | @stalloc bytes a st hfits hok =>
        have hpool := hI.pool_eq_none hok
        obtain ⟨hnonneg, rfl, hfree⟩ := stalloc_spec hok (by omega)
        obtain ⟨halign, hlow, -, hbelow⟩ := hI.before hpool
        obtain ⟨hordered, hplaced⟩ := hI.cons hpool hnonneg
        refine ⟨hordered, hplaced, fun _ => ⟨?_, ?_, ?_, fun b hb => ?_⟩, fun P hP => ?_⟩
        · change st.freeAreaStart.toNat % 4 = 0
          omega
        · change _ ≤ st.freeAreaStart.toNat
          omega
        · change st.freeAreaStart.toNat ≤ _
          omega
        · change _ ≤ (st.freeAreaStart.toNat : ℤ)
          rcases List.mem_cons.1 hb with rfl | hb
          · change (s.stalloc.freeAreaStart.toNat : ℤ) + bytes ≤ _
            omega
          · have := hbelow b hb
            omega
        · cases hpool.symm.trans hP
    | @vmInit pool b st hfits hok =>
        have hpool : s.pool = none := by
          cases hs : s.pool with
          | none => rfl
          | some P =>
              unfold vmInit at hok
              rw [M.size] at hok
              simp only [bind, Except.bind, stalloc_disabled (hI.after P hs).1] at hok
              cases hok
        obtain ⟨halign, hlow, -, hbelow⟩ := hI.before hpool
        obtain ⟨res, rfl, hpos, hle, rfl, hcover, hdisabled⟩ := vmInit_spec hok halign hlow hfits
        obtain ⟨hordered, hplaced⟩ := hI.cons hpool (bitmapSizeof_natCast M.numPages ▸ Int.natCast_nonneg _)
        have hnonneg : 0 ≤ bitmapSizeof M.numPages := bitmapSizeof_natCast M.numPages ▸ Int.natCast_nonneg _
        refine ⟨hordered, hplaced, fun hP => (nomatch hP), ?_⟩
        rintro P ⟨⟩
        refine ⟨hdisabled, res, hpos, hle, .init rfl, by omega, fun b hb => ?_⟩
        rcases List.mem_cons.1 hb with rfl | hb
        · exact hcover
        · have := hbelow b hb
          omega
    | @pool P P' c hP hstep =>
        refine ⟨hI.ordered, hI.placed, fun hnone => (nomatch hnone), ?_⟩
        rintro Q ⟨⟩
        obtain ⟨hdisabled, res, hpos, hle, hreach, himage, hbelow⟩ := hI.after P hP
        exact ⟨hdisabled, res, hpos, hle, .step _ hreach hstep, himage, hbelow⟩

/-- **Static memory and pages never meet.** The blocks that `stalloc` has given lie behind the image of the kernel,
each behind the one before, and a page that is handed out is behind all of them, with the bitmap of the pool among
them. No static memory is given once there is a pool. -/
theorem bootReachable_disjoint (h : BootReachable M s) :
    s.blocks.Pairwise IsBehind ∧
    (∀ b ∈ s.blocks, b.1.toNat % 4 = 0 ∧ M.kernelEndsHere.toNat ≤ b.1.toNat ∧ 0 ≤ b.2) ∧
    ∀ P, s.pool = some P → (∀ bytes, stalloc s.stalloc bytes = .error .panic) ∧ P.allocated.Nodup ∧
      ∀ page ∈ P.allocated, page.toNat % 4096 = 0 ∧ page.toNat + 4096 ≤ 4096 * M.numPages ∧
        M.kernelEndsHere.toNat ≤ 0x80000000 + page.toNat ∧
        ∀ b ∈ s.blocks, b.1.toNat + b.2 ≤ 0x80000000 + page.toNat := by
  have hI := bootReachable_invariant h
  refine ⟨hI.ordered, hI.placed, fun P hP => ?_⟩
  obtain ⟨hdisabled, res, hpos, hle, hreach, himage, hbelow⟩ := hI.after P hP
  have hsmall : M.numPages ≤ 2 ^ 19 := M.small.trans (by decide)
  obtain ⟨A, hA⟩ := poolReachable_invariant hpos hle hsmall hreach
  refine ⟨stalloc_disabled hdisabled, ?_, fun page hpage => ?_⟩
  · rw [hA.allocated]
    exact hA.nodup.map_on fun p hp q hq => pageAddress_inj hsmall (hA.range p hp).2 (hA.range q hq).2
  · rw [hA.allocated] at hpage
    obtain ⟨p, hp, rfl⟩ := List.mem_map.1 hpage
    obtain ⟨hlo, hhi⟩ := hA.range p hp
    rw [toNat_pageAddress hsmall hhi]
    refine ⟨by omega, by omega, by omega, fun b hb => ?_⟩
    have := hbelow b hb
    omega

/-- 64 pages, with the meminfo device as the second one. -/
def smallMachine : Machine where
  kernelEndsHere := 0x80010002
  descriptors := [⟨0x201, 0xb0010000⟩, ⟨0x101, 0xb0008000⟩]
  port := fun _ => 64
  mem := fun _ => 0
  numPages := 64
  size := rfl
  small := by decide
  image := by decide

theorem bootReachable_disjoint_smallMachine :
    ∃ s P, BootReachable smallMachine s ∧ s.pool = some P ∧
      s.blocks = [(0x80010010, 8), (0x80010004, 10)] ∧ P.allocated = [0x11000] ∧
      ∀ b ∈ s.blocks, b.1.toNat + b.2 ≤ 0x80000000 + (0x11000 : BitVec 32).toNat := by
  have h1 := Reach.step _ (.init rfl : BootReachable smallMachine _)
    (@BootStep.stalloc smallMachine _ 10 _ _ (by decide) rfl)
  have h2 := Reach.step _ h1 (.vmInit (by decide) rfl)
  have h3 := Reach.step _ h2 (.pool rfl (.allocblock rfl))
  obtain ⟨-, -, hpool⟩ := bootReachable_disjoint h3
  obtain ⟨-, -, hpage⟩ := hpool _ rfl
  exact ⟨_, _, h3, rfl, rfl, rfl, (hpage 0x11000 (by decide)).2.2.2⟩

end Kudos.Mips32
