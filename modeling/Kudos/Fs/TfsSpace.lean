import Kudos.Fs.TfsCreate

set_option autoImplicit false

/-! # The free space of a volume

`tfs_create` takes blocks from the allocation block, and `tfs_remove` finds out from the inode on disk
which ones to give back. `tfsRemove_restores` follows a file from its creation to its removal, with
writes in between: what `tfs_getfree` reports goes down by the blocks of the file and its inode and
comes back, and no mark is left behind. -/

namespace Kudos

open CInt Transition Words

/-! ## Counting free blocks -/

section

variable {total : ℕ} {V V' : Volume}

/-- `tfs_getfree` reports the blocks that are not allocated. -/
theorem run_tfsGetfree (tfs : TfsVolume) (w : Option ℕ) (d : ℕ → Block) :
    (tfsGetfree .big tfs).run w d
      = (.ok (512 * unallocated tfs.totalblocks (tfs.view d) : ℕ), d) := by
  have hsplit := List.length_eq_countP_add_countP
    (bitmapGet .big (d (tfs.block tfsAllocationBlock))) (l := List.range tfs.totalblocks)
  rw [List.length_range] at hsplit
  have hfree : unallocated tfs.totalblocks (tfs.view d) = (List.range tfs.totalblocks).countP
      fun p => decide ¬ bitmapGet .big (d (tfs.block tfsAllocationBlock)) p = true := by
    unfold unallocated
    refine List.countP_congr fun p _ => ?_
    simp only [isMarked, TfsVolume.view, Bool.not_eq_true', decide_eq_true_eq, Bool.not_eq_true]
  have hreport : ((tfs.totalblocks - (List.range tfs.totalblocks).countP
      (bitmapGet .big (d (tfs.block tfsAllocationBlock))) : ℤ) * tfsBlockSize)
      = (512 * unallocated tfs.totalblocks (tfs.view d) : ℕ) := by
    rw [hfree]
    simp only [tfsBlockSize]
    omega
  rw [← hreport]
  rfl

/-- Blocks that were free and are now marked are what the volume has lost. -/
theorem unallocated_add_length {l : List ℕ} (hnodup : l.Nodup)
    (hfresh : ∀ p ∈ l, p < total ∧ isMarked V p = false)
    (hmarked : ∀ p, isMarked V' p = true ↔ isMarked V p = true ∨ p ∈ l) :
    unallocated total V' + l.length = unallocated total V := by
  rw [← length_freeBits V', ← length_freeBits V, Nat.add_comm, ← List.length_append]
  refine (List.Perm.length_eq ?_).symm
  have hfree : ∀ p, isMarked V' p = false ↔ isMarked V p = false ∧ p ∉ l := by
    intro p
    rw [Bool.eq_false_iff, ne_eq, hmarked, not_or, Bool.eq_false_iff]
  have hdisjoint : List.Disjoint l (freeBits .big (V' tfsAllocationBlock) total) := by
    intro p hp hp'
    exact ((hfree p).1 ((mem_freeBits .big _).1 hp').2).2 hp
  refine (List.perm_ext_iff_of_nodup (freeBits_nodup .big _ _)
    (hnodup.append (freeBits_nodup .big _ _) hdisjoint)).2 fun p => ?_
  rw [List.mem_append, mem_freeBits, mem_freeBits]
  show p < total ∧ isMarked V p = false ↔ p ∈ l ∨ p < total ∧ isMarked V' p = false
  rw [hfree]
  constructor
  · rintro ⟨hlt, hp⟩
    by_cases hl : p ∈ l
    · exact Or.inl hl
    · exact Or.inr ⟨hlt, hp, hl⟩
  · rintro (hl | ⟨hlt, hp, -⟩)
    · exact hfresh p hl
    · exact ⟨hlt, hp⟩

/-- Volumes with the same allocation block have the same free space. -/
theorem unallocated_congr (h : V' tfsAllocationBlock = V tfsAllocationBlock) :
    unallocated total V' = unallocated total V := by
  unfold unallocated isMarked
  rw [h]

end

/-! ## Writes to files -/

/-- The allocation block, the directory and the inodes are the same. -/
structure SameTables (V V' : Volume) : Prop where
  bitmap : V' tfsAllocationBlock = V tfsAllocationBlock
  directory : V' tfsDirectoryBlock = V tfsDirectoryBlock
  inode : ∀ i, Live V i → V' (dirInode V i) = V (dirInode V i)

namespace SameTables

variable {total : ℕ} {V V' V'' : Volume}

theorem refl (V : Volume) : SameTables V V := ⟨rfl, rfl, fun _ _ => rfl⟩

theorem dirInode_eq (h : SameTables V V') (i : ℕ) : dirInode V' i = dirInode V i := by
  unfold dirInode
  rw [h.directory]

theorem live_iff (h : SameTables V V') (i : ℕ) : Live V' i ↔ Live V i := by
  unfold Live
  rw [h.dirInode_eq]

theorem trans (h : SameTables V V') (h' : SameTables V' V'') : SameTables V V'' where
  bitmap := h'.bitmap.trans h.bitmap
  directory := h'.directory.trans h.directory
  inode i hi := by
    have hstep := h'.inode i ((h.live_iff i).2 hi)
    rw [h.dirInode_eq] at hstep
    rw [hstep, h.inode i hi]

theorem sound (h : SameTables V V') (hV : SoundVolume total V) : SoundVolume total V' :=
  hV.congr h.bitmap h.directory h.inode

theorem fileBlocks_eq (h : SameTables V V') (i : ℕ) : fileBlocks V' i = fileBlocks V i :=
  fileBlocks_congr (h.dirInode_eq i) (h.inode i)

theorem isMarked_eq (h : SameTables V V') (p : ℕ) : isMarked V' p = isMarked V p := by
  unfold isMarked
  rw [h.bitmap]

end SameTables

/-- The call is a `tfs_write`. -/
def TfsOp.IsWrite : TfsOp → Prop
  | write .. => True
  | create .. => False
  | remove .. => False

/-- The disks that calls of `tfs_write` to files of the volume lead to from `d`. -/
def WrittenFrom (tfs : TfsVolume) (d d' : ℕ → Block) : Prop :=
  Reach (fun s => s = d) (fun s op s' => op.IsWrite ∧ TfsStep tfs s op s') d'

/-- One write changes data blocks only. -/
theorem sameTables_tfsWrite (tfs : TfsVolume) {d d' : ℕ → Block} {op : TfsOp}
    (hV : SoundVolume tfs.totalblocks (tfs.view d)) (hop : op.IsWrite) (hstep : TfsStep tfs d op d') :
    SameTables (tfs.view d) (tfs.view d') := by
  obtain ⟨hallowed, rfl⟩ := hstep
  cases op with
  | create => exact absurd hop id
  | remove => exact absurd hop id
  | write fileid data datasize offset =>
      obtain ⟨hdata, i, hi, rfl⟩ := hallowed
      obtain ⟨r, d', hrun, hframe⟩ := tfsWrite_frame tfs hV hi data hdata offset
      have hkeep : ∀ n, n ∉ blockList (tfs.view d (dirInode (tfs.view d) i)) →
          tfs.view d' n = tfs.view d n :=
        fun n hn => hframe _ fun m hm heq => hn (tfs.block_injective heq ▸ hm)
      obtain ⟨hbat, hmd, hinode⟩ := hV.unchanged hi hkeep
      have hdisk : ((TfsOp.write (dirInode (tfs.view d) i).toInt data datasize offset).proc tfs).run
          none d = (.ok r, d') := hrun
      rw [hdisk]
      exact ⟨hbat, hmd, hinode⟩

/-- So do any number of writes. -/
theorem WrittenFrom.sameTables {tfs : TfsVolume} {d d' : ℕ → Block} (h : WrittenFrom tfs d d')
    (hV : SoundVolume tfs.totalblocks (tfs.view d)) : SameTables (tfs.view d) (tfs.view d') := by
  refine Reach.invariant (I := fun s => SameTables (tfs.view d) (tfs.view s)) ?_ ?_ h
  · rintro s rfl
    exact .refl _
  · rintro s op s' hsame ⟨hop, hstep⟩
    exact hsame.trans (sameTables_tfsWrite tfs (hsame.sound hV) hop hstep)

/-! ## Removal of a new file -/

section

variable {total : ℕ} {V V1 V2 V3 : Volume} {filename : List UInt8} {size : ℤ} {index p : ℕ}
  {l : List ℕ}

/-- What a removal unmarks is what the creation marked. -/
theorem Removed.bitmap_restored (hremoved : Removed V2 V3 index)
    (hcreated : Created total V V1 filename size index p l) (hsame : SameTables V1 V2)
    (htotal : total ≤ 4096) (hV : SoundVolume total V) (hV1 : SoundVolume total V1) :
    V3 tfsAllocationBlock = V tfsAllocationBlock := by
  have hblocks : ∀ q, q ∈ (fileBlocks V2 index).map BitVec.toNat ↔ q ∈ p :: l := by
    intro q
    rw [hsame.fileBlocks_eq, hcreated.fileBlocks_index htotal hV, List.map_map]
    have hid : ∀ r ∈ p :: l, (BitVec.toNat ∘ BitVec.ofNat 32) r = r := by
      intro r hr
      have := hcreated.fresh_range htotal hV r hr
      exact (BitVec.toNat_ofNat ..).trans (Nat.mod_eq_of_lt (by omega))
    rw [List.map_congr_left hid, List.map_id']
  refine ext_bitmapGet .big fun q _ => Bool.eq_iff_iff.2 ?_
  show isMarked V3 q = true ↔ isMarked V q = true
  rw [hremoved.isMarked_iff htotal (hsame.sound hV1), hblocks, hsame.isMarked_eq,
    hcreated.isMarked_iff htotal hV]
  constructor
  · rintro ⟨hold | hnew, hnot⟩
    · exact hold
    · exact absurd hnew hnot
  · intro hold
    refine ⟨Or.inl hold, fun hnew => ?_⟩
    rw [(hcreated.fresh q hnew).2] at hold
    cases hold

/-- The entry is free again, and the other entries are as they were. -/
theorem Removed.dirInode_restored (hremoved : Removed V2 V3 index)
    (hcreated : Created total V V1 filename size index p l) (hsame : SameTables V1 V2) (i : ℕ) :
    dirInode V3 i = dirInode V i := by
  by_cases hi : i = index
  · rw [hi, hremoved.entry_free.1, hcreated.entry_free]
  · have hstep : dirInode V3 i = dirInode V2 i := (hremoved.sameEntry hi).1
    have hfirst : dirInode V1 i = dirInode V i := (hcreated.sameEntry hi).1
    rw [hstep, hsame.dirInode_eq, hfirst]

end

/-- A creation that succeeds has written everything down, and its file is found under its name. -/
theorem tfsCreate_ok (tfs : TfsVolume) {d d1 : ℕ → Block}
    (hV : SoundVolume tfs.totalblocks (tfs.view d)) (name : FileName) {size : ℤ}
    (hsize : 0 ≤ size ∧ size ≤ intMax)
    (hcreate : (tfsCreate .big tfs name.chars size).run none d = (.ok vfsOk, d1)) :
    ∃ index p l, Created tfs.totalblocks (tfs.view d) (tfs.view d1) name.chars size index p l ∧
      findName (tfs.view d1 tfsDirectoryBlock) name.chars = some index := by
  rcases tfsCreate_outcome tfs hV name.chars size with hrun | ⟨d', index, p, l, hrun, hcreated⟩
  · rw [hrun] at hcreate
    exact absurd (Except.ok.inj (congrArg Prod.fst hcreate)) (by decide)
  obtain rfl : d' = d1 := congrArg Prod.snd (hrun.symm.trans hcreate)
  by_cases h : Creatable tfs.totalblocks (tfs.view d) name.chars size
  · obtain ⟨d2, i, hrun2, hfile, -⟩ := tfsCreate_creatable tfs hV name hsize h
    obtain rfl : d2 = d' := congrArg Prod.snd (hrun2.symm.trans hcreate)
    -- the only entry that was free and is now in use
    rcases hcreated.live_cases hV hfile.live with rfl | ⟨hlive, -, -⟩
    · exact ⟨i, p, l, hcreated, hfile.found⟩
    · exact absurd hfile.entry_free hlive.2
  · rw [tfsCreate_not_creatable tfs hV name hsize h] at hcreate
    exact absurd (Except.ok.inj (congrArg Prod.fst hcreate)) (by decide)

/-- **What a file costs, and that removing it pays this back.** -/
theorem tfsRemove_restores (tfs : TfsVolume) {d d1 : ℕ → Block}
    (hV : SoundVolume tfs.totalblocks (tfs.view d)) (name : FileName) {size : ℤ}
    (hsize : 0 ≤ size ∧ size ≤ intMax)
    (hcreate : (tfsCreate .big tfs name.chars size).run none d = (.ok vfsOk, d1)) :
    ∃ free : ℤ, (tfsGetfree .big tfs).run none d = (.ok free, d) ∧
      (tfsGetfree .big tfs).run none d1 = (.ok (free - 512 * (1 + blocksFor size)), d1) ∧
      ∀ d2, WrittenFrom tfs d1 d2 →
        ∃ d3, (tfsRemove .big tfs name.chars).run none d2 = (.ok vfsOk, d3) ∧
          tfs.view d3 tfsAllocationBlock = tfs.view d tfsAllocationBlock ∧
          (∀ i < tfsMaxFiles, dirInode (tfs.view d3) i = dirInode (tfs.view d) i) ∧
          (tfsGetfree .big tfs).run none d3 = (.ok free, d3) := by
  have htotal := tfs.totalblocks_le
  obtain ⟨index, p, l, hcreated, hfound⟩ := tfsCreate_ok tfs hV name hsize hcreate
  have hV1 := hcreated.sound htotal hV hsize
  refine ⟨_, run_tfsGetfree tfs none d, ?_, fun d2 hwritten => ?_⟩
  · have hcost : unallocated tfs.totalblocks (tfs.view d1) + (p :: l).length
        = unallocated tfs.totalblocks (tfs.view d) :=
      unallocated_add_length hcreated.nodup hcreated.fresh (hcreated.isMarked_iff htotal hV)
    have hlength := hcreated.length_eq_blocksFor hsize
    rw [List.length_cons] at hcost
    rw [run_tfsGetfree]
    congr 2
    omega
  · have hsame := hwritten.sameTables hV1
    rcases tfsRemove_outcome tfs (hsame.sound hV1) name with ⟨hnone, -⟩ | ⟨i, hsome, hlive, hrun⟩
    · rw [hsame.directory, hfound] at hnone
      cases hnone
    · obtain rfl : index = i := by
        rw [hsame.directory, hfound] at hsome
        exact Option.some.inj hsome
      have hremoved := hlive.removed
      rw [← view_applyWrites] at hremoved
      have hbitmap := hremoved.bitmap_restored hcreated hsame htotal hV hV1
      refine ⟨_, (hrun none).trans (run_writeAll_none ..), hbitmap, fun i _ => ?_, ?_⟩
      · exact hremoved.dirInode_restored hcreated hsame i
      · rw [run_tfsGetfree, unallocated_congr hbitmap]

/-- A file of 600 bytes on a volume of 16 blocks, written across a block boundary and removed. -/
theorem tfsRemove_restores_createdDisk : ∃ free : ℤ,
    (tfsGetfree .big (diskVolume 16)).run none createdDisk = (.ok (free - 512 * 3), createdDisk) ∧
    ∃ d3, (tfsRemove .big (diskVolume 16) nameA.chars).run none
        ((tfsWrite .big (diskVolume 16) (dirInode ((diskVolume 16).view createdDisk) 24).toInt
          (fun _ => 7) 100 500).run none createdDisk).2 = (.ok vfsOk, d3) ∧
      (tfsGetfree .big (diskVolume 16)).run none d3 = (.ok free, d3) := by
  have hcreate : (tfsCreate .big (diskVolume 16) nameA.chars 600).run none
      (tfstoolCreatevol fun _ => 0) = (.ok vfsOk, createdDisk) := Prod.ext (by decide +kernel) rfl
  obtain ⟨free, -, hcost, hremove⟩ := tfsRemove_restores (diskVolume 16)
    (volumeInvariant_tfstoolCreatevol _ _).sound nameA ⟨by decide, by decide⟩ hcreate
  obtain ⟨d3, hrun, -, -, hfree⟩ := hremove _ (.step (.write _ (fun _ => 7) 100 500) (.init rfl)
    ⟨trivial, ⟨by decide, 24, createdDisk_live, rfl⟩, rfl⟩)
  exact ⟨free, hcost, d3, hrun, hfree⟩

end Kudos
