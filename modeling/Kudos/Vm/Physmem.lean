import Kudos.Kernel.Thread
import Kudos.Library.Transition
import Kudos.Vm.WordBitmap

set_option autoImplicit false

/-! # Physical memory of the x86_64 kernel

The functions of `vm/x86_64/mm_phys.c` that handle single frames. `physmem_init` fills the bitmap of
frames, frees what the memory map of the boot loader says is free, and then takes frames until it is
past the statically allocated memory. An access to a word that is not wholly within the `bitmap_size`
bytes of the bitmap is a fault here. The lock and `highest_page`, which nothing reads, are left out. -/

namespace Kudos

open Transition

/-! ## The boot information -/

/-- `mem_region_t`. Its field `size` is not used. -/
structure MemRegion where
  baseAddress : BitVec 64
  length : BitVec 64
  type : BitVec 32

/-- `MEMTYPE_FREE`. -/
def memtypeFree : BitVec 32 := 1#32

/-- `sizeof(mem_region_t)`. -/
def memRegionSize : ℕ := 24

/-- What `physmem_init` reads of `multiboot_info_t`. -/
structure MultibootInfo where
  /-- In KiB, as `memoryHigh`. -/
  memoryLow : BitVec 32
  memoryHigh : BitVec 32
  memoryMapLength : BitVec 32
  /-- The records of the memory map, as far as they start within `memoryMapLength` bytes. -/
  memoryMap : List MemRegion
  visited : memoryMap.length = (memoryMapLength.toNat + (memRegionSize - 1)) / memRegionSize

namespace MultibootInfo

variable (mb : MultibootInfo)

/-- `(memory_size * 1024) / PAGE_SIZE`. -/
def totalBlocks : ℕ := (mb.memoryHigh.toNat + mb.memoryLow.toNat) * 1024 / 4096

/-- `total_blocks / PMM_BLOCKS_PER_BYTE`. -/
def bitmapSize : ℕ := mb.totalBlocks / 8

end MultibootInfo

/-! ## The bitmap -/

/-- The memory of the module. -/
structure PhysState where
  /-- `_mem_bitmap`. -/
  memBitmap : WordBitmap
  /-- In bytes. -/
  bitmapSize : ℕ
  totalBlocks : ℕ
  usedBlocks : BitVec 64

/-- Whether the word with a given index is within the bitmap. -/
def PhysState.HasWord (s : PhysState) (i : ℕ) : Prop := 8 * i + 8 ≤ s.bitmapSize

instance (s : PhysState) (i : ℕ) : Decidable (s.HasWord i) := inferInstanceAs (Decidable (_ ≤ _))

def memmapSetbit (s : PhysState) (bit : ℕ) : Except KernelFault PhysState :=
  if s.HasWord (bit / 64) then .ok { s with memBitmap := s.memBitmap.setbit bit }
  else .error .outOfBounds

def memmapUnsetbit (s : PhysState) (bit : ℕ) : Except KernelFault PhysState :=
  if s.HasWord (bit / 64) then .ok { s with memBitmap := s.memBitmap.unsetbit bit }
  else .error .outOfBounds

/-- The outer loop of `physmem_getframe`, over `n` words from word `i` on. `none` is `-1`. -/
def physmemScan (s : PhysState) : ℕ → ℕ → Except KernelFault (Option ℕ)
  | 0, _ => .ok none
  | n + 1, i =>
      if s.HasWord i then
        if s.memBitmap i ≠ 0xFFFFFFFFFFFFFFFF#64 then
          match (List.range 64).find? (fun j => s.memBitmap i &&& intShift j = 0) with
          | some j => .ok (some (i * 8 * 8 + j))
          | none => physmemScan s n (i + 1)
        else physmemScan s n (i + 1)
      else .error .outOfBounds

/-- `physmem_getframe`. -/
def physmemGetframe (s : PhysState) : Except KernelFault (Option ℕ) := physmemScan s s.totalBlocks 0

/-! ## Single frames -/

/-- `physmem_allocblock`. -/
def physmemAllocblock (s : PhysState) : Except KernelFault (ℕ × PhysState) :=
  if s.totalBlocks ≤ s.usedBlocks.toNat then .error .panic
  else do
    match ← physmemGetframe s with
    | none => .error .panic
    | some frame =>
        let s ← memmapSetbit s frame
        return (frame * 4096, { s with usedBlocks := s.usedBlocks + 1 })

/-- `physmem_freeblock`. -/
def physmemFreeblock (s : PhysState) (ptr : ℕ) : Except KernelFault PhysState := do
  let s ← memmapUnsetbit s (ptr / 4096)
  return { s with usedBlocks := s.usedBlocks - 1 }

/-! ## Initialization -/

/-- The loop of `physmem_freeregion`, over `blocks` frames from `align` on. -/
def physmemFreeblocks : ℕ → ℕ → PhysState → Except KernelFault PhysState
  | 0, _, s => .ok s
  | blocks + 1, align, s => do
      let s ← memmapUnsetbit s align
      physmemFreeblocks blocks (align + 1) { s with usedBlocks := s.usedBlocks - 1 }

/-- `physmem_freeregion`. -/
def physmemFreeregion (s : PhysState) (startAddress length : BitVec 64) :
    Except KernelFault PhysState := do
  let s ← physmemFreeblocks (length.toNat / 4096) (startAddress.toNat / 4096) s
  memmapSetbit s 0

/-- The loop of `physmem_init` over the memory map. -/
def physmemRegions : List MemRegion → PhysState → Except KernelFault PhysState
  | [], s => .ok s
  | r :: rs, s =>
      if r.type = memtypeFree then do
        let s ← physmemFreeregion s r.baseAddress r.length
        physmemRegions rs s
      else physmemRegions rs s

/-- The state with which `physmem_init` enters that loop. Every byte of the bitmap is `0xF`. -/
def physmemFilled (mb : MultibootInfo) : PhysState where
  memBitmap := fun _ => 0x0F0F0F0F0F0F0F0F#64
  bitmapSize := mb.bitmapSize
  totalBlocks := mb.totalBlocks
  usedBlocks := BitVec.ofNat 64 mb.totalBlocks

/-- `physmem_init` up to the point at which it starts to allocate. -/
def physmemSetup (mb : MultibootInfo) : Except KernelFault PhysState :=
  physmemRegions mb.memoryMap (physmemFilled mb)

/-- The last loop of `physmem_init`: frames are taken until one is not below the static memory. -/
def physmemSkipStatic (lastAddress : ℕ) : ℕ → PhysState → Except KernelFault PhysState
  | 0, _ => .error .endless
  | n + 1, s => do
      let (addr, s) ← physmemAllocblock s
      if addr < lastAddress then physmemSkipStatic lastAddress n s else return s

/-- `physmem_init`, where `lastAddress` is the end of the statically allocated memory. -/
def physmemInit (mb : MultibootInfo) (lastAddress : ℕ) : Except KernelFault PhysState := do
  let s ← physmemSetup mb
  physmemSkipStatic lastAddress (s.totalBlocks + 1) s

/-! ## Runs -/

/-- The allocator and what its callers know. -/
structure PhysSystem where
  phys : PhysState
  /-- The addresses that were returned and have not been freed. -/
  allocated : List ℕ
  /-- `physmem_init` is in its last loop. -/
  booting : Bool

inductive PhysCall
  | allocblock
  | freeblock (ptr : ℕ)

/-- The calls of `physmem_allocblock`, those of `physmem_init` included, and of `physmem_freeblock`. -/
inductive PhysStep (lastAddress : ℕ) : PhysSystem → PhysCall → PhysSystem → Prop
  | allocblock {sys : PhysSystem} {addr : ℕ} {s : PhysState} :
      physmemAllocblock sys.phys = .ok (addr, s) →
      PhysStep lastAddress sys .allocblock
        ⟨s, addr :: sys.allocated, sys.booting && decide (addr < lastAddress)⟩
  | freeblock {sys : PhysSystem} {ptr : ℕ} {s : PhysState} :
      sys.booting = false → ptr ∈ sys.allocated → physmemFreeblock sys.phys ptr = .ok s →
      PhysStep lastAddress sys (.freeblock ptr) ⟨s, sys.allocated.erase ptr, false⟩

/-- The states of a system that was booted with some boot information. -/
abbrev PhysReachable (mb : MultibootInfo) (lastAddress : ℕ) : PhysSystem → Prop :=
  Reach (fun sys => ∃ s, physmemSetup mb = .ok s ∧ sys = ⟨s, [], true⟩) (PhysStep lastAddress)

end Kudos
