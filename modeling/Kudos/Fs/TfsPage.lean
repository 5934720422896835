import Kudos.Fs.TfsRun

set_option autoImplicit false

/-! # The page of a mounted volume

`tfs_init` puts `fs_t`, `tfs_t` and the three buffers of a volume into one page, `buffer_md` right behind
`buffer_bat`. `bitmap_set` does not know how large its bitmap is. So when `tfs_remove` finds a block
number of 4096 or more, it changes what lies behind the allocation block: the directory block, which it
writes to the disk afterwards, or the rest of the page, which nothing uses. `Page.tfsRemove` is
`tfs_remove` on this memory, and a number for which even the page is too small is a fault. As long as the
bitmap has a bit for every number it is `tfsRemove` (`Page.run_tfsRemove_of_lt`). -/

namespace Kudos

open CInt Words

/-! ## Bits and bytes -/

namespace Page

/-! ## The memory -/

/-- The memory from `buffer_bat` to the end of the page, of which only the two buffers matter. -/
structure Buffers where
  bat : Block
  md : Block

/-- The sizes of `fs_t`, with `internal`, the name and the ten functions from `unmount` to `file`, and of
    `tfs_t`, with two numbers and five pointers. -/
def structSize : Endian → ℕ
  | .big => (4 + 16 + 10 * 4) + (2 * 4 + 5 * 4)
  | .little => (8 + 16 + 10 * 8) + (2 * 4 + 5 * 8)

/-- How many words of the page there are from `buffer_bat` on; `buffer_inode` is in front of it. -/
def pageWords (e : Endian) : ℕ := (4096 - structSize e - tfsBlockSize) / 4

/-- The store of `bitmap_set`, `pos` bits behind the start of `buffer_bat`. -/
def Buffers.setBit (e : Endian) (page : Buffers) (pos : ℕ) (value : Bool) : Buffers :=
  match pos / 4096 with
  | 0 => { page with bat := Kudos.setBit e page.bat pos value }
  | 1 => { page with md := Kudos.setBit e page.md (pos - 4096) value }
  | _ => page

/-- `bitmap_set` on `buffer_bat`. -/
def bitmapSet (e : Endian) (page : Buffers) (pos : BitVec 32) (value : Bool) :
    Except KernelFault Buffers := do
  kernelAssert (0 ≤ pos.toInt)
  if pageWords e ≤ pos.toNat / 32 then throw .outOfBounds
  return page.setBit e pos.toNat value

/-- `tfs_remove`. -/
def tfsRemove (e : Endian) (tfs : TfsVolume) (filename : List UInt8) : TfsProc ℤ := do
  let some md ← readBlock (tfs.block tfsDirectoryBlock) | return vfsError
  let some index := findName md filename | return vfsNotFound
  let some bat ← readBlock (tfs.block tfsAllocationBlock) | return vfsError
  let some inode ← readBlock (tfs.block (entryInode e md index)) | return vfsError
  let page ← .ofExcept (bitmapSet e ⟨bat, md⟩ (entryInode e md index) false)
  let page ← .ofExcept (freeBlocks (bitmapSet e · · false) e inode tfsBlocksMax 0 page)
  let md := (page.md.setWord (5 * index) (.store e 0)).setByte (nameOffset index) 0
  if !(← writeBlock (tfs.block tfsAllocationBlock) page.bat) then return vfsError
  if !(← writeBlock (tfs.block tfsDirectoryBlock) md) then return vfsError
  return vfsOk

/-! ## Freeing a list of numbers -/

/-- The positions of a list that lie in the block `k` of the memory, counted from its start. -/
def inBlock (k : ℕ) (l : List ℕ) : List ℕ := (l.filter (· / 4096 = k)).map (· - 4096 * k)

theorem mem_inBlock {k p : ℕ} {l : List ℕ} : p ∈ inBlock k l ↔ p < 4096 ∧ 4096 * k + p ∈ l := by
  simp only [inBlock, List.mem_map, List.mem_filter, decide_eq_true_eq]
  constructor
  · rintro ⟨q, ⟨hq, hk⟩, rfl⟩
    refine ⟨by omega, ?_⟩
    rwa [show 4096 * k + (q - 4096 * k) = q by omega]
  · rintro ⟨hp, hmem⟩
    exact ⟨4096 * k + p, ⟨hmem, by omega⟩, by omega⟩

theorem inBlock_cons (k p : ℕ) (l : List ℕ) :
    inBlock k (p :: l) = if p / 4096 = k then (p - 4096 * k) :: inBlock k l else inBlock k l := by
  unfold inBlock
  by_cases hk : p / 4096 = k
  · rw [if_pos hk, List.filter_cons_of_pos (by simpa using hk), List.map_cons]
  · rw [if_neg hk, List.filter_cons_of_neg (by simpa using hk)]

/-- Each of the buffers gets the bits that lie in it. -/
theorem foldl_setBit (e : Endian) (page : Buffers) (l : List ℕ) :
    l.foldl (fun page p => page.setBit e p false) page
      = ⟨clearBits e page.bat (inBlock 0 l), clearBits e page.md (inBlock 1 l)⟩ := by
  induction l generalizing page with
  | nil => rfl
  | cons p l ih =>
      rw [List.foldl_cons, ih, inBlock_cons, inBlock_cons]
      unfold Buffers.setBit
      rcases hp : p / 4096 with _ | _ | k
      · rfl
      · rfl
      · rw [if_neg (by omega), if_neg (by omega)]
        rfl

theorem bitmapSet_eq (e : Endian) (page : Buffers) (pos : BitVec 32) (value : Bool) :
    bitmapSet e page pos value = match setFault (pageWords e) pos with
      | some f => .error f
      | none => .ok (page.setBit e pos.toNat value) := by
  unfold bitmapSet setFault kernelAssert
  by_cases hneg : pos.toInt < 0
  · rw [if_neg (by omega), if_pos hneg]
    rfl
  · rw [if_pos (by omega), if_neg hneg]
    by_cases hout : pageWords e ≤ pos.toNat / 32
    · simp only [hout, if_true]
      rfl
    · simp only [hout, if_false]
      rfl

/-- The numbers are freed in order, unless one of them is a fault. -/
theorem foldlM_bitmapSet (e : Endian) (page : Buffers) (l : List (BitVec 32)) :
    l.foldlM (bitmapSet e · · false) page = match l.findSome? (setFault (pageWords e)) with
      | some f => .error f
      | none => .ok ⟨clearBits e page.bat (inBlock 0 (l.map BitVec.toNat)),
          clearBits e page.md (inBlock 1 (l.map BitVec.toNat))⟩ := by
  rw [← foldl_setBit, List.foldl_map]
  exact foldlM_of_fault (fun b v => bitmapSet_eq e b v false) l page

/-- Two parts of an operation that may fail are one. -/
theorem ofExcept_bind_ofExcept_bind {α β γ : Type} (x : Except KernelFault α)
    (f : α → Except KernelFault β) (k : β → TfsProc γ) :
    (TfsProc.ofExcept x >>= fun a => TfsProc.ofExcept (f a) >>= k) = TfsProc.ofExcept (x >>= f) >>= k := by
  cases x with
  | error f => rfl
  | ok a => rfl

/-- **`tfs_remove` as a run.** -/
theorem run_tfsRemove (e : Endian) (tfs : TfsVolume) (filename : List UInt8) (w : Option ℕ)
    (d : ℕ → Block) :
    (tfsRemove e tfs filename).run w d =
      match findName (d (tfs.block tfsDirectoryBlock)) filename with
      | none => (.ok vfsNotFound, d)
      | some index =>
          let l := entryInode e (d (tfs.block tfsDirectoryBlock)) index :: listedBlocks
            (d (tfs.block (entryInode e (d (tfs.block tfsDirectoryBlock)) index))) 0 tfsBlocksMax
          match l.findSome? (setFault (pageWords e)) with
          | some f => (.error f, d)
          | none => (writeAll [(tfs.block tfsAllocationBlock,
                clearBits e (d (tfs.block tfsAllocationBlock)) (inBlock 0 (l.map BitVec.toNat))),
              (tfs.block tfsDirectoryBlock,
                removeEntry e (clearBits e (d (tfs.block tfsDirectoryBlock))
                  (inBlock 1 (l.map BitVec.toNat))) index)]).run w d := by
  unfold tfsRemove
  simp only [run_readBlock_bind]
  cases findName (d (tfs.block tfsDirectoryBlock)) filename with
  | none => rfl
  | some index =>
      simp only [run_readBlock_bind, ofExcept_bind_ofExcept_bind, freeBlocks_eq]
      have hfree := foldlM_bitmapSet e
        ⟨d (tfs.block tfsAllocationBlock), d (tfs.block tfsDirectoryBlock)⟩
        (entryInode e (d (tfs.block tfsDirectoryBlock)) index :: listedBlocks
          (d (tfs.block (entryInode e (d (tfs.block tfsDirectoryBlock)) index))) 0 tfsBlocksMax)
      rw [List.foldlM_cons] at hfree
      rw [hfree]
      split
      · rfl
      · rfl

/-- If the bitmap has a bit for every number, the memory behind it does not matter. -/
theorem run_tfsRemove_of_lt (e : Endian) (tfs : TfsVolume) (filename : List UInt8) (w : Option ℕ)
    (d : ℕ → Block) (h : ∀ i, findName (d (tfs.block tfsDirectoryBlock)) filename = some i →
      ∀ v ∈ entryInode e (d (tfs.block tfsDirectoryBlock)) i :: listedBlocks
        (d (tfs.block (entryInode e (d (tfs.block tfsDirectoryBlock)) i))) 0 tfsBlocksMax,
        v.toNat < 4096) :
    (tfsRemove e tfs filename).run w d = (Kudos.tfsRemove e tfs filename).run w d := by
  rw [run_tfsRemove, Kudos.run_tfsRemove]
  cases hfind : findName (d (tfs.block tfsDirectoryBlock)) filename with
  | none => rfl
  | some i =>
      have hlt := h i hfind
      simp only
      rw [freeList_ok e _ hlt]
      generalize entryInode e (d (tfs.block tfsDirectoryBlock)) i :: listedBlocks
        (d (tfs.block (entryInode e (d (tfs.block tfsDirectoryBlock)) i))) 0 tfsBlocksMax = l at hlt ⊢
      have hpage : 128 ≤ pageWords e ∧ pageWords e ≤ 2 ^ 26 := by
        cases e with
        | big => decide
        | little => decide
      have hnone : l.findSome? (setFault (pageWords e)) = none := by
        refine List.findSome?_eq_none_iff.2 fun v hv => (setFault_eq_none hpage.2).2 ?_
        have := hlt v hv
        omega
      have hfirst : inBlock 0 (l.map BitVec.toNat) = l.map BitVec.toNat := by
        unfold inBlock
        rw [List.filter_eq_self.2 (fun p hp => ?_)]
        · simp
        · obtain ⟨v, hv, rfl⟩ := List.mem_map.1 hp
          have := hlt v hv
          simp only [decide_eq_true_eq]
          omega
      have hsecond : inBlock 1 (l.map BitVec.toNat) = [] := by
        refine List.eq_nil_iff_forall_not_mem.2 fun p hp => ?_
        obtain ⟨v, hv, hvp⟩ := List.mem_map.1 (mem_inBlock.1 hp).2
        have := hlt v hv
        omega
      rw [hnone, hfirst, hsecond]
      rfl

end Page

end Kudos
