import Kudos.Library.ByteMemory
import Kudos.Library.CInt
import Kudos.Library.Transition

set_option autoImplicit false

/-! # The heap of userland programs

`heap_init`, `malloc`, `calloc` and `free` of `userland/lib.c`, on a memory of bytes. A block starts with its size,
a `size_t`, which counts the header too; a free block has a pointer to the next free block after that.
Pointers are addresses, 0 for `NULL`. The word size is a parameter, and the arithmetic on `size_t` is
modulo its range. -/

namespace Kudos.Userland

open CInt Transition

/-- `HEAP_SIZE`. -/
def heapSize : ℕ := 256

/-- `sizeof(size_t)`, which is also the size of a pointer, and the address of the array `heap`. -/
structure HeapLayout where
  w : ℕ
  word : w = 4 ∨ w = 8
  heap : ℕ
  pos : 0 < heap
  fits : heap + heapSize < 256 ^ w

/-- The memory, and the global `free_list`. -/
structure Heap where
  mem : ℕ → UInt8
  freeList : ℕ

namespace HeapLayout

variable (A : HeapLayout)

/-- The conversion to `size_t`. -/
def sizeT (x : ℤ) : ℕ := (x % (256 ^ A.w : ℕ)).toNat

/-- `MIN_ALLOC_SIZE`. -/
def minAllocSize : ℕ := 2 * A.w

/-- `block->size`. -/
def size (h : Heap) (block : ℕ) : ℕ := ByteMemory.load h.mem A.w block

/-- `block->next`. -/
def next (h : Heap) (block : ℕ) : ℕ := ByteMemory.load h.mem A.w (block + A.w)

def setSize (h : Heap) (block v : ℕ) : Heap := { h with mem := ByteMemory.store h.mem A.w block v }

def setNext (h : Heap) (block v : ℕ) : Heap :=
  { h with mem := ByteMemory.store h.mem A.w (block + A.w) v }

/-- The assignment to the link before a block: `free_list` if there is no block `prev`. -/
def setLink (h : Heap) (prev v : ℕ) : Heap :=
  if prev = 0 then { h with freeList := v } else A.setNext h prev v

/-- `heap_init`. -/
def heapInit (mem : ℕ → UInt8) : Heap :=
  let h : Heap := ⟨mem, A.heap⟩
  A.setNext (A.setSize h A.heap heapSize) A.heap 0

/-! ## `malloc` -/

/-- The size that is looked for: big enough for the bookkeeping, and a multiple of four. -/
def roundSize (size : ℕ) : ℕ :=
  let size := max A.minAllocSize size
  if size % 4 ≠ 0 then A.sizeT ((size - size % 4 : ℕ) + 4) else size

/-- The loop of `malloc`. A walk over more blocks than the heap has bytes does not end. -/
def mallocLoop (h : Heap) (size : ℕ) : ℕ → ℕ → ℕ → Option (ℕ × Heap)
  | 0, _, _ => none
  | n + 1, prev, block =>
      if block = 0 then some (0, h)
      else if wrap32 (A.sizeT (A.size h block - size - A.w)) ≥ wrap32 (A.minAllocSize + A.w) then
        let h := A.setSize h block (A.sizeT (A.size h block - (size + A.w)))
        let newBlock := block + A.size h block
        let h := A.setSize h newBlock (size + A.w)
        some (newBlock + A.w, h)
      else if A.size h block ≥ A.sizeT (size + A.w) then
        some (block + A.w, A.setLink h prev (A.next h block))
      else mallocLoop h size n block (A.next h block)

/-- `malloc`. -/
def malloc (h : Heap) (size : ℕ) : Option (ℕ × Heap) :=
  if size = 0 then some (0, h)
  else A.mallocLoop h (A.roundSize size) (heapSize + 1) 0 h.freeList

/-- The loop of `calloc`: `n` bytes from `ptr` on are zeroed. -/
def zeroBytes (mem : ℕ → UInt8) (ptr : ℕ) : ℕ → ℕ → UInt8
  | 0 => mem
  | n + 1 => Function.update (zeroBytes mem ptr n) (ptr + n) 0

/-- `calloc`. -/
def calloc (h : Heap) (nmemb size : ℕ) : Option (ℕ × Heap) := do
  let (ptr, h) ← A.malloc h (A.sizeT (nmemb * size))
  if ptr ≠ 0 then some (ptr, { h with mem := zeroBytes h.mem ptr (A.sizeT (nmemb * size)) })
  else some (ptr, h)

/-! ## `free` -/

/-- Put a block between two blocks of the list, and merge it with those that it touches. -/
def insertBlock (h : Heap) (block prev cur : ℕ) : Heap :=
  let h := A.setLink h prev block
  let h := A.setNext h block cur
  let mergePrev : Prop := prev ≠ 0 ∧ A.sizeT (block - prev) = A.size h prev
  let h' := A.setNext (A.setSize h prev (A.sizeT (A.size h prev + A.size h block))) prev cur
  let (block, h) := if mergePrev then (prev, h') else (block, h)
  if cur ≠ 0 ∧ A.sizeT (cur - block) = A.size h block then
    let h := A.setSize h block (A.sizeT (A.size h block + A.size h cur))
    A.setNext h block (A.next h cur)
  else h

/-- The loop of `free`. -/
def freeLoop (h : Heap) (block : ℕ) : ℕ → ℕ → ℕ → Option Heap
  | 0, _, _ => none
  | n + 1, prev, cur =>
      if block < cur ∨ cur = 0 then some (A.insertBlock h block prev cur)
      else freeLoop h block n cur (A.next h cur)

/-- `free`. -/
def free (h : Heap) (ptr : ℕ) : Option Heap :=
  if ptr ≠ 0 then A.freeLoop h (ptr - A.w) (heapSize + 1) 0 h.freeList else some h

end HeapLayout

/-! ## Runs -/

/-- The heap, and the results of `malloc` that were not freed, with the sizes that were asked for. -/
structure HeapSystem where
  heap : Heap
  live : List (ℕ × ℕ)

inductive HeapCall
  | malloc (size : ℕ)
  | free (ptr : ℕ)
  /-- The program writes to the memory it has got. -/
  | write

/-- The bytes that the program may use. -/
def HeapSystem.Usable (A : HeapLayout) (S : HeapSystem) (x : ℕ) : Prop :=
  ∃ p ∈ S.live, p.1 ≤ x ∧ x < p.1 - A.w + A.size S.heap (p.1 - A.w)

inductive HeapStep (A : HeapLayout) : HeapSystem → HeapCall → HeapSystem → Prop
  | malloc {S : HeapSystem} {size ptr : ℕ} {h : Heap} :
      size ≤ 2 ^ 30 → A.malloc S.heap size = some (ptr, h) →
      HeapStep A S (.malloc size) ⟨h, if ptr = 0 then S.live else (ptr, size) :: S.live⟩
  | free {S : HeapSystem} {p : ℕ × ℕ} {h : Heap} :
      p ∈ S.live → A.free S.heap p.1 = some h → HeapStep A S (.free p.1) ⟨h, S.live.erase p⟩
  | write {S : HeapSystem} {mem : ℕ → UInt8} :
      (∀ x, ¬ S.Usable A x → mem x = S.heap.mem x) →
      HeapStep A S .write ⟨{ S.heap with mem := mem }, S.live⟩

/-- The states of a program after `heap_init`. -/
abbrev HeapReachable (A : HeapLayout) : HeapSystem → Prop :=
  Reach (fun S => ∃ mem, S = ⟨A.heapInit mem, []⟩) (HeapStep A)

end Kudos.Userland
