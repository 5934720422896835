import Kudos.Proc.Elf
import Kudos.Vm.PageTable
import Kudos.Vm.Physmem

set_option autoImplicit false

/-! # Starting a process

`setup_new_process` of `proc/process.c`, on the x86_64 kernel. The new address space is active while
the program is copied to its addresses, so these are translated by the new page table, and what is
written goes to physical memory, where the page tables are as well. `VmState.tables` is that memory,
in words: page `a` of it has the words `tables a 0`, `tables a 1` and so on. The registers and the
thread table are left out, as is the closing of the file. -/

namespace Kudos

def pageUser : BitVec 32 := 4#32

/-! ## Writing to user memory -/

/-- A word with one byte replaced. -/
def setWordByte (w : BitVec 64) (k : ℕ) (b : UInt8) : BitVec 64 :=
  (w &&& ~~~(0xFF#64 <<< (8 * k))) ||| (b.toBitVec.setWidth 64 <<< (8 * k))

/-- The word at the offset `start` of a page, after bytes were written to the page from `offset` on. -/
def overlay (w : BitVec 64) (start offset : ℕ) (bytes : List UInt8) : BitVec 64 :=
  (List.range 8).foldl (fun w k =>
    if offset ≤ start + k then
      match bytes[start + k - offset]? with
      | some b => setWordByte w k b
      | none => w
    else w) w

/-- Addresses for which the processor does not raise an exception at once. -/
def Canonical (va : BitVec 64) : Prop := va.toNat < 2 ^ 47 ∨ 2 ^ 64 - 2 ^ 47 ≤ va.toNat

instance (va : BitVec 64) : Decidable (Canonical va) := inferInstanceAs (Decidable (_ ∨ _))

/-- A page of physical memory with other words. -/
def setPage (s : VmState) (page : BitVec 64) (words : ℕ → BitVec 64) : VmState :=
  { s with tables := Function.update s.tables page words }

/-- Bytes are written to one page. The handler of an exception does not return. -/
def writePage (s : VmState) (pml4 va : BitVec 64) (bytes : List UInt8) :
    Except KernelFault VmState :=
  if Canonical va then
    match walk s pml4 va with
    | some page => .ok (setPage s page fun i =>
        overlay (s.tables page i) (8 * i) (va.toNat % 4096) bytes)
    | none => .error .endless
  else .error .endless

/-- The first address of the page after that of `va`. -/
def nextPage (va : BitVec 64) : BitVec 64 := va + BitVec.ofNat 64 (4096 - va.toNat % 4096)

/-- At most a page of bytes is written from `va` on, which may reach into the next page. -/
def writeUser (s : VmState) (pml4 va : BitVec 64) (bytes : List UInt8) :
    Except KernelFault VmState := do
  let s ← writePage s pml4 va (bytes.take (4096 - va.toNat % 4096))
  if bytes.length ≤ 4096 - va.toNat % 4096 then return s
  else writePage s pml4 (nextPage va) (bytes.drop (4096 - va.toNat % 4096))

/-! ## Loading -/

/-- The memory of the kernel. -/
structure KernelMemory where
  vm : VmState
  phys : PhysState

/-- `i*PAGE_SIZE`, an `int`, as it is added to an address. -/
def pageOffset (i : ℕ) : BitVec 64 := (BitVec.ofNat 32 i * 4096).signExtend 64

/-- The part that the three loops of `setup_new_process` share: a new page is mapped and zeroed. -/
def mapZeroedPage (pool : PtPool) (pagetable virtPage : BitVec 64) (m : KernelMemory) :
    Except KernelFault (BitVec 64 × KernelMemory) := do
  let (addr, phys) ← physmemAllocblock m.phys
  if addr = 0 then .error .assertion
  let physPage := BitVec.ofNat 64 addr
  let vm ← vmMap pool m.vm pagetable physPage virtPage (pageUser ||| 2#32)
  let vm ← writeUser vm pagetable virtPage (List.replicate 4096 0)
  return (physPage, ⟨vm, phys⟩)

/-- `CONFIG_USERLAND_STACK_SIZE`. -/
def configUserlandStackSize : ℕ := 1

/-- `USERLAND_STACK_TOP`. -/
def userlandStackTop : BitVec 64 := 0xFFFFFFFFFFFFFFFF#64

/-- The page of the stack with number `i`, from the top. -/
def stackPage (i : ℕ) : BitVec 64 := (userlandStackTop &&& pageMask) - pageOffset i

/-- The loop over the `n` pages of the stack from page `i` on. -/
def loadStack (pool : PtPool) (pagetable : BitVec 64) :
    ℕ → ℕ → KernelMemory → Except KernelFault KernelMemory
  | 0, _, m => .ok m
  | n + 1, i, m => do
      let (_, m) ← mapZeroedPage pool pagetable (stackPage i) m
      loadStack pool pagetable n (i + 1) m

/-- `(int)elf.ro_pages` as the bound of the loop from 0. -/
def Segment.count (seg : Segment) : ℕ := (seg.pages.setWidth 32).toInt.toNat

/-- The address at which page `i` of a segment is mapped. -/
def Segment.page (seg : Segment) (i : ℕ) : BitVec 64 := seg.vaddr + pageOffset i

/-- Page `i` of a segment is filled from the file. Any failure of `vfs_seek` or `vfs_read`, which does
    not accept a buffer at 0, is a failed assertion. -/
def fillPage (file : Executable) (seg : Segment) (pagetable : BitVec 64) (i : ℕ) (vm : VmState) :
    Except KernelFault VmState :=
  let leftToRead := ((seg.size - pageOffset i).setWidth 32).toInt
  let seekPosition := ((seg.location + pageOffset i).setWidth 32).toInt
  if 0 < leftToRead then
    if seekPosition < 0 ∨ seg.page i = 0 then .error .assertion
    else
      match file.readAll (min 4096 leftToRead) seekPosition with
      | some bytes => writeUser vm pagetable (seg.page i) bytes
      | none => .error .assertion
  else .ok vm

/-- The loops over the `n` pages of a segment from page `i` on. Pages of the read-only segment are
    mapped again in the end. -/
def loadSegment (pool : PtPool) (file : Executable) (pagetable : BitVec 64) (seg : Segment)
    (readOnly : Bool) : ℕ → ℕ → KernelMemory → Except KernelFault KernelMemory
  | 0, _, m => .ok m
  | n + 1, i, m => do
      let (physPage, m) ← mapZeroedPage pool pagetable (seg.page i) m
      let vm ← fillPage file seg pagetable i m.vm
      let vm ← if readOnly then vmMap pool vm pagetable physPage (seg.page i) pageUser else .ok vm
      loadSegment pool file pagetable seg readOnly n (i + 1) ⟨vm, m.phys⟩

/-- What `setup_new_process` returns through its arguments and the thread table. -/
structure NewProcess where
  entryPoint : BitVec 64
  stackTop : BitVec 64
  pagetable : BitVec 64

/-- `setup_new_process`. No file is one that could not be opened, and no process is the result -1. -/
def setupNewProcess (pool : PtPool) (file : Option Executable) (m : KernelMemory) :
    Except KernelFault (Option NewProcess × KernelMemory) :=
  match file with
  | none => .ok (none, m)
  | some file =>
      match elfParseHeader file with
      | .error _ => .ok (none, m)
      | .ok (_, elf) =>
          if elf.entryPoint ≤ vmmKernelSpace then .ok (none, m)
          else do
            let (pagetable, vm) ← vmCreatePagetable pool m.vm
            let m ← loadStack pool pagetable configUserlandStackSize 0 ⟨vm, m.phys⟩
            let m ← loadSegment pool file pagetable elf.ro true elf.ro.count 0 m
            let m ← loadSegment pool file pagetable elf.rw false elf.rw.count 0 m
            return (some ⟨elf.entryPoint, userlandStackTop, pagetable⟩, m)

end Kudos
