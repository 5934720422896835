import Kudos.Kernel.Thread
import Kudos.Library.Radix
import Kudos.Vm.WordBitmap

set_option autoImplicit false

/-! # Page tables of the x86_64 kernel

The functions of `vm/x86_64/mm_virt.c`. Page tables come from a static pool with a bitmap. Tables are
found by their physical addresses, which are their virtual addresses as well, since the kernel maps
itself one to one. The lock, the reloads of CR3 and the invalidation of cached translations are left
out: they do not change the tables. -/

namespace Kudos

open Radix

/-! ## Layout -/

def pageMask : BitVec 64 := 0xFFFFFFFFFFFFF000#64
def pagePresent : BitVec 64 := 0x1#64
def pageWrite : BitVec 64 := 0x2#64

/-- `VMM_KERNEL_SPACE`. -/
def vmmKernelSpace : BitVec 64 := 0x00007FFFFFFFFFFF#64

def vmmIndexPml4 (x : BitVec 64) : ℕ := ((x >>> 39) &&& 0x1FF#64).toNat
def vmmIndexPdp (x : BitVec 64) : ℕ := ((x >>> 30) &&& 0x1FF#64).toNat
def vmmIndexPdir (x : BitVec 64) : ℕ := ((x >>> 21) &&& 0x1FF#64).toNat
def vmmIndexPtable (x : BitVec 64) : ℕ := ((x >>> 12) &&& 0x1FF#64).toNat

/-- `VM_PTP_SIZE`. -/
def vmPtpSize : ℕ := 1024

/-- Where the linker has put `pt_pool`. -/
structure PtPool where
  base : ℕ
  aligned : base % 4096 = 0
  pos : 0 < base
  fits : base + 4096 * vmPtpSize ≤ 2 ^ 64

/-- `&pt_pool[i]`. -/
def PtPool.table (pool : PtPool) (i : ℕ) : BitVec 64 := BitVec.ofNat 64 (pool.base + 4096 * i)

/-- The memory of the module. -/
structure VmState where
  /-- `pt_bitmap`. -/
  ptBitmap : WordBitmap
  /-- The entries of the table at an address. -/
  tables : BitVec 64 → ℕ → BitVec 64
  /-- `kernel_pml4`. -/
  kernelPml4 : BitVec 64

/-! ## The pool -/

def ptmapSetbit (s : VmState) (bit : ℕ) : VmState := { s with ptBitmap := s.ptBitmap.setbit bit }

def ptmapUnsetbit (s : VmState) (bit : ℕ) : VmState := { s with ptBitmap := s.ptBitmap.unsetbit bit }

def ptmapTestbit (s : VmState) (bit : ℕ) : BitVec 64 := s.ptBitmap.testbit bit

def vmmCleartable (s : VmState) (table : BitVec 64) : VmState :=
  if table ≠ 0 then { s with tables := Function.update s.tables table (fun _ => 0) } else s

def vmmNewPagetable (pool : PtPool) (s : VmState) : Except KernelFault (BitVec 64 × VmState) :=
  match (List.range vmPtpSize).find? (fun i => ptmapTestbit s i = 0) with
  | some i => .ok (pool.table i, ptmapSetbit s i)
  | none => .error .panic

def vmmInstallPtable (s : VmState) (target : BitVec 64) (index : ℕ) (phys flags : BitVec 64) :
    VmState :=
  { s with tables :=
      Function.update s.tables target (Function.update (s.tables target) index (phys ||| flags)) }

/-! ## Lookup -/

/-- The table that an entry points to, 0 for none. -/
def vmmGetNext (s : VmState) (table : BitVec 64) (index : ℕ) : BitVec 64 :=
  if s.tables table index &&& pagePresent ≠ 0 then s.tables table index &&& pageMask else 0

def vmmGetpdp (s : VmState) (pml4 vaddr : BitVec 64) : BitVec 64 :=
  vmmGetNext s pml4 (vmmIndexPml4 vaddr)

def vmmGetpdir (s : VmState) (pdp vaddr : BitVec 64) : BitVec 64 :=
  vmmGetNext s pdp (vmmIndexPdp vaddr)

def vmmGetptable (s : VmState) (pdir vaddr : BitVec 64) : BitVec 64 :=
  vmmGetNext s pdir (vmmIndexPdir vaddr)

/-! ## Mapping -/

/-- `PAGE_PRESENT | PAGE_WRITE | flags`, where `flags` is an `int`. -/
def entryFlags (flags : BitVec 32) : BitVec 64 := pagePresent ||| pageWrite ||| flags.signExtend 64

/-- One level of `vm_map`: `next` is what the lookup gave, and if that is nothing, a new table is
    installed in its place. -/
def vmmNextTable (pool : PtPool) (s : VmState) (next table : BitVec 64) (index : ℕ)
    (flags : BitVec 32) : Except KernelFault (BitVec 64 × VmState) :=
  if next = 0 then do
    let (t, s) ← vmmNewPagetable pool s
    let s := vmmCleartable s t
    return (t, vmmInstallPtable s table index t (entryFlags flags))
  else return (next, s)

/-- `vm_map`. -/
def vmMap (pool : PtPool) (s : VmState) (pml4 physaddr vaddr : BitVec 64) (flags : BitVec 32) :
    Except KernelFault VmState := do
  let (pdp, s) ← vmmNextTable pool s (vmmGetpdp s pml4 vaddr) pml4 (vmmIndexPml4 vaddr) flags
  let (pdir, s) ← vmmNextTable pool s (vmmGetpdir s pdp vaddr) pdp (vmmIndexPdp vaddr) flags
  let (pt, s) ← vmmNextTable pool s (vmmGetptable s pdir vaddr) pdir (vmmIndexPdir vaddr) flags
  return vmmInstallPtable s pt (vmmIndexPtable vaddr) physaddr (entryFlags flags)

/-! ## Address spaces -/

/-- The loop of `vm_init`: `n` pages from page `k` on are mapped one to one. -/
def identityMap (pool : PtPool) (pml4 : BitVec 64) : ℕ → ℕ → VmState → Except KernelFault VmState
  | 0, _, s => .ok s
  | n + 1, k, s => do
      let s ← vmMap pool s pml4 (BitVec.ofNat 64 (4096 * k)) (BitVec.ofNat 64 (4096 * k)) 0
      identityMap pool pml4 n (k + 1) s

/-- The `indentity_bound` of `vm_init`, for the address at which static memory ends. -/
def identityBound (staticEnd : BitVec 64) : BitVec 64 :=
  if staticEnd % 4096 ≠ 0 then staticEnd + (4096 - staticEnd % 4096) else staticEnd

/-- `vm_init`. -/
def vmInit (pool : PtPool) (staticEnd : BitVec 64) (s : VmState) : Except KernelFault VmState := do
  let s := (List.range vmPtpSize).foldl ptmapUnsetbit s
  let (pml4, s) ← vmmNewPagetable pool s
  let s := vmmCleartable s pml4
  let s ← identityMap pool pml4 ((identityBound staticEnd).toNat / 4096 - 1) 1 s
  return { s with kernelPml4 := pml4 }

/-- `vm_create_pagetable`. -/
def vmCreatePagetable (pool : PtPool) (s : VmState) : Except KernelFault (BitVec 64 × VmState) := do
  let (pml4, s) ← vmmNewPagetable pool s
  return (pml4, { s with tables := Function.update s.tables pml4 (s.tables s.kernelPml4) })

/-- `vm_destroy_pagetable`. -/
def vmDestroyPagetable (pool : PtPool) (s : VmState) (pagetable : BitVec 64) :
    Except KernelFault VmState :=
  if pagetable.toNat < pool.base then .error .panic
  else if vmPtpSize ≤ (pagetable.toNat - pool.base) / 4096 then .error .panic
  else .ok (ptmapUnsetbit s ((pagetable.toNat - pool.base) / 4096))

/-! ## Translation -/

/-- Where an entry with `PAGE_PRESENT` points to. -/
def entryTarget (e : BitVec 64) : Option (BitVec 64) :=
  if e &&& pagePresent ≠ 0 then some (e &&& pageMask) else none

/-- The entries of all tables as pointers. -/
def VmState.pointers (s : VmState) : Memory (BitVec 64) ℕ := fun a i => entryTarget (s.tables a i)

/-- The indices of the tables on the way to a page. -/
def tablePath (va : BitVec 64) : List ℕ := [vmmIndexPml4 va, vmmIndexPdp va, vmmIndexPdir va]

/-- The four-level lookup: the physical page that `va` is mapped to under a table. -/
def walk (s : VmState) (pml4 va : BitVec 64) : Option (BitVec 64) :=
  follow s.pointers pml4 (tablePath va ++ [vmmIndexPtable va])

end Kudos
