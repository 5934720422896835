import Kudos.Fs.TfsContents
import Kudos.Lib.Libc

set_option autoImplicit false

/-! # A file is an array of bytes

`tfs_write` replaces a slice of the file by the data it is given, cut off at the end of the file, and
`tfs_read` returns such a slice. The first, the middle and the last block take different code; what all
of it does to the bytes of the file is `overwrite`. -/

namespace Kudos

open CInt Words

/-! ## Overwriting a slice -/

/-- The bytes `c` with `n` bytes of `data` from position `off` on. -/
def overwrite (c : ℕ → UInt8) (off n : ℕ) (data : ℕ → UInt8) : ℕ → UInt8 := fun p =>
  if off ≤ p ∧ p < off + n then data (p - off) else c p

/-- As a list, the slice is replaced. -/
theorem map_overwrite (c : ℕ → UInt8) (data : ℕ → UInt8) {off n size : ℕ} (h : off + n ≤ size) :
    (List.range size).map (overwrite c off n data)
      = ((List.range size).map c).take off ++ (List.range n).map data
        ++ ((List.range size).map c).drop (off + n) := by
  obtain ⟨rest, rfl⟩ := Nat.exists_eq_add_of_le h
  have hsplit : ∀ f : ℕ → UInt8, (List.range (off + n + rest)).map f
      = (List.range off).map f ++ (List.range n).map (fun m => f (off + m))
        ++ (List.range rest).map (fun m => f (off + n + m)) := by
    intro f
    simp only [List.range_add, List.map_append, List.map_map, Function.comp_def]
  have htake : ((List.range (off + n + rest)).map c).take off = (List.range off).map c := by
    rw [hsplit c, List.append_assoc, List.take_left' (by simp)]
  have hlow : (List.range off).map (overwrite c off n data) = (List.range off).map c := by
    refine List.map_congr_left fun p hp => ?_
    have hp := List.mem_range.1 hp
    exact if_neg (by omega)
  have hmid : (List.range n).map (fun m => overwrite c off n data (off + m))
      = (List.range n).map data := by
    refine List.map_congr_left fun p hp => ?_
    have hp := List.mem_range.1 hp
    unfold overwrite
    rw [if_pos (by omega), Nat.add_sub_cancel_left]
  have hhigh : (List.range rest).map (fun m => overwrite c off n data (off + n + m))
      = (List.range rest).map (fun m => c (off + n + m)) :=
    List.map_congr_left fun p _ => if_neg (by omega)
  rw [htake, hsplit c, List.drop_left' (by simp), hsplit (overwrite c off n data), hlow, hmid, hhigh]

/-! ## The blocks of a file -/

/-- The block table gives every byte of a file of `size` bytes a place of its own. -/
structure DataBlocks (inode : Block) (size : ℕ) : Prop where
  allocated : ∀ k : ℕ, 512 * k < size → Allocated inode k
  injective : ∀ k k' : ℕ, 512 * k < size → 512 * k' < size →
    inodeBlock .big inode k = inodeBlock .big inode k' → k = k'

/-- The block numbers in a table are different, if the list of them has no duplicates. -/
theorem inodeBlock_inj {inode : Block} (h : (blockList inode).Nodup) {k k' : ℕ}
    (hk : k < tfsBlocksMax) (hk' : k' < tfsBlocksMax) (hne : inodeBlock .big inode k ≠ 0)
    (heq : inodeBlock .big inode k = inodeBlock .big inode k') : k = k' := by
  unfold blockList at h
  rw [List.filter_map] at h
  refine List.inj_on_of_nodup_map h ?_ ?_ heq
  · simpa [hk] using hne
  · simpa [hk', ← heq] using hne

theorem SoundVolume.dataBlocks {total : ℕ} {V : Volume} (hV : SoundVolume total V) {i : ℕ}
    (hi : Live V i) : DataBlocks (V (dirInode V i)) (fileSize (V (dirInode V i))) := by
  have hcovers := hV.covers hi
  have hall : ∀ k : ℕ, 512 * k < fileSize (V (dirInode V i)) → Allocated (V (dirInode V i)) k := by
    intro k hk
    unfold fileSize at hk
    exact hcovers k (by omega) (by omega)
  refine ⟨hall, fun k k' hk hk' heq => ?_⟩
  have hnodup := hV.nodup i
  rw [fileBlocks_of_live hi] at hnodup
  obtain ⟨-, hlt, hne⟩ := hall k hk
  obtain ⟨-, hlt', -⟩ := hall k' hk'
  exact inodeBlock_inj (List.nodup_cons.1 hnodup).2 (by omega) (by omega) hne heq

/-- A write to block `k` of the file sets the bytes in this block. -/
theorem DataBlocks.fileByte_update {inode : Block} {size : ℕ} (h : DataBlocks inode size) (V : Volume)
    {k : ℕ} (hk : 512 * k < size) (b : Block) {p : ℕ} (hp : p < size) :
    fileByte (Function.update V (inodeBlock .big inode k) b) inode p
      = if p / 512 = k then b.byte (p % 512) else fileByte V inode p := by
  unfold fileByte
  by_cases hpk : p / 512 = k
  · rw [if_pos hpk, hpk, Function.update_self]
  · rw [if_neg hpk, Function.update_of_ne]
    exact fun heq => hpk (h.injective _ _ (by omega) hk heq)

/-! ## Writing -/

section

variable {tfs : TfsVolume} {inode : Block} {size : ℕ} {c data : ℕ → UInt8} {off : ℕ}

/-- `tfs_write` puts `n` bytes into block `k`, from byte `bo` on: the invariant of the bytes behind
the block. A block that is overwritten in part was read first. -/
theorem DataBlocks.overwrite_step (h : DataBlocks inode size) {d : ℕ → Block} {k w : ℕ} (bo n : ℕ)
    (hk : 512 * k < size) (hn : bo + n ≤ 512) (hat : 512 * k + bo = off + w)
    (hd : ∀ p < size, fileByte (tfs.view d) inode p = overwrite c off w data p) (old : Block)
    (hold : n < 512 → old = d (tfs.block (inodeBlock .big inode k))) :
    ∀ p < size, fileByte (tfs.view (Function.update d (tfs.block (inodeBlock .big inode k))
        (old.blit bo n fun m => data (w + m)))) inode p = overwrite c off (w + n) data p := by
  intro p hp
  have hbefore := hd p hp
  rw [tfs.view_update, h.fileByte_update _ hk _ hp]
  by_cases hpk : p / 512 = k
  · rw [if_pos hpk, Block.byte_blit _ _ (Nat.mod_lt _ (by decide))]
    by_cases hin : bo ≤ p % 512 ∧ p % 512 < bo + n
    · unfold overwrite
      rw [if_pos hin, if_pos (by omega), show w + (p % 512 - bo) = p - off by omega]
    · have hbyte : old.byte (p % 512) = fileByte (tfs.view d) inode p := by
        rw [hold (by omega), fileByte, hpk]
        rfl
      rw [if_neg hin, hbyte, hbefore]
      unfold overwrite
      by_cases hlow : off ≤ p ∧ p < off + w
      · rw [if_pos hlow, if_pos (by omega)]
      · rw [if_neg hlow, if_neg (by omega)]
  · rw [if_neg hpk, hbefore]
    unfold overwrite
    by_cases hlow : off ≤ p ∧ p < off + w
    · rw [if_pos hlow, if_pos (by omega)]
    · rw [if_neg hlow, if_neg (by omega)]

/-- The loop of `tfs_write` writes the rest of the data. -/
theorem run_writeLoop_bytes (h : DataBlocks inode size) {m b2 : ℕ} (hm : off + m ≤ size)
    (hlast : 512 * b2 < off + m ∧ off + m ≤ 512 * b2 + 512) (n : ℕ) :
    ∀ (b1 w : ℕ) (d : ℕ → Block), b1 + n = b2 + 1 → (n = 0 → w = m) → (0 < n → off + w = 512 * b1) →
      (∀ p < size, fileByte (tfs.view d) inode p = overwrite c off w data p) →
      ∃ d', (writeLoop .big tfs inode data m b2 n b1 w).run none d = (.ok (m : ℤ), d') ∧
        ∀ p < size, fileByte (tfs.view d') inode p = overwrite c off m data p := by
  induction n with
  | zero =>
      intro b1 w d _ hdone _ hd
      rw [hdone rfl] at hd ⊢
      exact ⟨d, rfl, hd⟩
  | succ n ih =>
      intro b1 w d hcount _ hat hd
      have hpos := hat (Nat.succ_pos n)
      unfold writeLoop
      rw [run_blockAt_bind (h.allocated b1 (by omega)), Int.toNat_natCast]
      by_cases hend : b1 = b2
      · -- the last block
        have hcnt : ((m : ℤ) - w).toNat = m - w := by omega
        rw [if_pos (by omega), run_readPartial_bind]
        simp only [run_writeBlock_bind, Bool.not_true, Bool.false_eq_true, if_false, hcnt,
          Int.toNat_natCast]
        refine ih (b1 + 1) m _ (by omega) (fun _ => rfl) (by omega) ?_
        have hstep := h.overwrite_step 0 (m - w) (by omega) (by omega) (by omega) hd
          (if (m : ℤ) - w < 512 then d (tfs.block (inodeBlock .big inode b1)) else .zero)
          (fun hlt => if_pos (by omega))
        rw [Nat.add_sub_cancel' (by omega)] at hstep
        exact hstep
      · -- a whole block in the middle
        rw [if_neg (by omega)]
        simp only [run_writeBlock_bind, Bool.not_true, Bool.false_eq_true, if_false,
          Int.toNat_natCast, tfsBlockSize]
        refine ih (b1 + 1) (w + 512) _ (by omega) (by omega) (by omega) ?_
        exact h.overwrite_step 0 512 (by omega) (by omega) (by omega) hd .zero (fun hlt => by omega)

end

/-- **`tfs_write` as a run.** A write at a position in the file overwrites the bytes from there on, up
to the end of the file. -/
theorem run_tfsWrite_bytes (tfs : TfsVolume) {fileid : ℤ} (d : ℕ → Block)
    (hid : 2 ≤ fileid ∧ fileid ≤ tfs.totalblocks) {inode : Block}
    (hinode : tfs.view d (BitVec.ofInt 32 fileid) = inode)
    (hblocks : DataBlocks inode (fileSize inode)) (data : ℕ → UInt8) (datasize : ℕ) {off : ℕ}
    (hoff : (off : ℤ) ≤ inodeFilesize .big inode) :
    ∃ d', (tfsWrite .big tfs fileid data datasize off).run none d
        = (.ok ((min datasize (fileSize inode - off) : ℕ) : ℤ), d') ∧
      ∀ p < fileSize inode, fileByte (tfs.view d') inode p
        = overwrite (fileByte (tfs.view d) inode) off (min datasize (fileSize inode - off)) data p := by
  have hmax := inodeFilesize_le inode
  have hnonneg : 0 ≤ inodeFilesize .big inode := by omega
  have hfile := natCast_fileSize hnonneg
  have hblock : d (tfs.block (BitVec.ofInt 32 fileid)) = inode := hinode
  unfold tfsWrite
  rw [if_neg (by omega), run_readBlock_bind, hblock]
  simp only [← hfile]
  rw [if_neg (by omega)]
  have hmin : min (datasize : ℤ) ((fileSize inode : ℤ) - off)
      = ((min datasize (fileSize inode - off) : ℕ) : ℤ) := by omega
  rw [hmin]
  set m := min datasize (fileSize inode - off) with hm
  by_cases hzero : m = 0
  · rw [if_pos (by omega), hzero]
    refine ⟨d, rfl, fun p _ => ?_⟩
    unfold overwrite
    rw [if_neg (by omega)]
  rw [if_neg (by omega)]
  obtain ⟨hb2, hb1, hrem, hfirst, hcount⟩ := @blockRange off m (by omega) (by omega)
  rw [hb2, hb1, hrem, hfirst, run_blockAt_bind (hblocks.allocated (off / 512) (by omega)),
    run_readPartial_bind]
  set w := min (512 - off % 512) m with hw
  simp only [run_writeBlock_bind, Bool.not_true, Bool.false_eq_true, if_false, Int.toNat_natCast,
    hcount]
  have hstart : ∀ p < fileSize inode, fileByte (tfs.view d) inode p
      = overwrite (fileByte (tfs.view d) inode) off 0 data p := by
    intro p _
    unfold overwrite
    rw [if_neg (by omega)]
  have hstep := hblocks.overwrite_step (off % 512) w (k := off / 512) (by omega) (by omega) (by omega)
    hstart (if (w : ℤ) < 512 then d (tfs.block (inodeBlock .big inode (off / 512))) else .zero)
    (fun hlt => if_pos (by omega))
  simp only [Nat.zero_add] at hstep
  exact run_writeLoop_bytes hblocks (by omega) (by omega) ((off + m - 1) / 512 - off / 512)
    (off / 512 + 1) w _ (by omega) (by omega) (by omega) hstep

/-- A position that is not in the file is refused. -/
theorem run_tfsWrite_outside (tfs : TfsVolume) {fileid : ℤ} (d : ℕ → Block) {inode : Block}
    (hinode : tfs.view d (BitVec.ofInt 32 fileid) = inode) (data : ℕ → UInt8) (datasize : ℤ)
    {offset : ℤ} (hoff : offset < 0 ∨ inodeFilesize .big inode < offset) :
    (tfsWrite .big tfs fileid data datasize offset).run none d = (.ok vfsError, d) := by
  have hblock : d (tfs.block (BitVec.ofInt 32 fileid)) = inode := hinode
  unfold tfsWrite
  split
  · rfl
  · rw [run_readBlock_bind, hblock]
    simp only
    rw [if_pos hoff]
    rfl

/-! ## Files as byte arrays -/

/-- The contents of the file in entry `i` of the directory. -/
def fileContents (V : Volume) (i : ℕ) : List UInt8 :=
  fileSlice V (V (dirInode V i)) 0 (fileSize (V (dirInode V i)))

/-- The number of the file, by which it is read and written. -/
def fileid (V : Volume) (i : ℕ) : ℤ := (dirInode V i).toInt

@[simp]
theorem length_fileSlice (V : Volume) (inode : Block) (off n : ℕ) :
    (fileSlice V inode off n).length = n := by
  simp [fileSlice]

@[simp]
theorem length_fileContents (V : Volume) (i : ℕ) :
    (fileContents V i).length = fileSize (V (dirInode V i)) :=
  length_fileSlice ..

/-- A slice of a file, cut out of its contents. -/
theorem fileSlice_eq_drop_take (V : Volume) (inode : Block) {off n size : ℕ} (h : off + n ≤ size) :
    fileSlice V inode off n = ((fileSlice V inode 0 size).drop off).take n := by
  obtain ⟨rest, rfl⟩ := Nat.exists_eq_add_of_le h
  rw [Nat.add_assoc, fileSlice_add, List.drop_left' (by simp), fileSlice_add, Nat.zero_add,
    List.take_left' (by simp)]

section

variable {total : ℕ} {V V' : Volume} {i j : ℕ}

/-- Files have different numbers, which are not those of the system blocks. -/
theorem SoundVolume.fileid_mem (hV : SoundVolume total V) (htotal : total ≤ 4096) (hi : Live V i) :
    2 ≤ fileid V i ∧ fileid V i ≤ total := by
  have hrange := hV.range i _ (dirInode_mem_fileBlocks hi)
  unfold fileid
  rw [BitVec.toInt_eq_toNat_cond, if_pos (by omega)]
  omega

/-- A file keeps its contents if its entry, its inode and its data blocks stay. -/
theorem fileContents_congr (hi : Live V i) (hcovers : Covers (V (dirInode V i)))
    (hdir : dirInode V' i = dirInode V i) (hblocks : ∀ n ∈ fileBlocks V i, V' n = V n) :
    fileContents V' i = fileContents V i := by
  unfold fileContents
  rw [hdir, hblocks _ (dirInode_mem_fileBlocks hi)]
  refine fileSlice_congr fun k hk => hblocks _ ?_
  unfold fileSize at hk
  obtain ⟨-, hlt, hne⟩ := hcovers k (by omega) (by omega)
  rw [fileBlocks_of_live hi]
  exact List.mem_cons_of_mem _ (mem_blockList.2 ⟨⟨k, by omega, rfl⟩, hne⟩)

/-- What a write of `m` bytes of `data` at position `off` does to the volume. -/
structure FileWritten (V V' : Volume) (i off m : ℕ) (data : ℕ → UInt8) : Prop where
  contents : fileContents V' i
    = (fileContents V i).take off ++ (List.range m).map data ++ (fileContents V i).drop (off + m)
  bitmap : V' tfsAllocationBlock = V tfsAllocationBlock
  directory : V' tfsDirectoryBlock = V tfsDirectoryBlock
  inodes : ∀ j, Live V j → V' (dirInode V j) = V (dirInode V j)
  others : ∀ j, Live V j → j ≠ i → fileContents V' j = fileContents V j

/-- A volume in which only bytes of one file were overwritten. -/
theorem SoundVolume.fileWritten (hV : SoundVolume total V) (hi : Live V i)
    (hkeep : ∀ n, n ∉ blockList (V (dirInode V i)) → V' n = V n) {off m : ℕ} {data : ℕ → UInt8}
    (hm : off + m ≤ fileSize (V (dirInode V i)))
    (hbytes : ∀ p < fileSize (V (dirInode V i)), fileByte V' (V (dirInode V i)) p
      = overwrite (fileByte V (V (dirInode V i))) off m data p) : FileWritten V V' i off m data := by
  obtain ⟨hbat, hmd, hinode⟩ := hV.unchanged hi hkeep
  have hdir : ∀ j, dirInode V' j = dirInode V j := fun j => by
    unfold dirInode
    rw [hmd]
  refine ⟨?_, hbat, hmd, hinode, fun j hj hji => ?_⟩
  · have hmap : ∀ W : Volume, fileSlice W (V (dirInode V i)) 0 (fileSize (V (dirInode V i)))
        = (List.range (fileSize (V (dirInode V i)))).map (fileByte W (V (dirInode V i))) := by
      intro W
      simp only [fileSlice, Nat.zero_add]
    unfold fileContents
    rw [hdir, hinode i hi, hmap, hmap, ← map_overwrite _ _ hm]
    exact List.map_congr_left fun p hp => hbytes p (List.mem_range.1 hp)
  · refine fileContents_congr hj (hV.covers hj) (hdir j) fun n hn => hkeep n fun hmem => hji ?_
    refine hV.owner_unique hn ?_
    rw [fileBlocks_of_live hi]
    exact List.mem_cons_of_mem _ hmem

end

theorem view_fileid (V : Volume) (i : ℕ) :
    V (BitVec.ofInt 32 (fileid V i)) = V (dirInode V i) := by
  unfold fileid
  rw [BitVec.ofInt_toInt]

section

variable (tfs : TfsVolume) {d : ℕ → Block} (hV : SoundVolume tfs.totalblocks (tfs.view d)) {i : ℕ}
  (hi : Live (tfs.view d) i)

include hV hi

/-- A read at a position in the file. -/
theorem tfsRead_file (n : ℕ) {off : ℕ} (hoff : off ≤ (fileContents (tfs.view d) i).length) :
    (tfsRead .big tfs (fileid (tfs.view d) i) n off).run none d
      = (.ok ((min n ((fileContents (tfs.view d) i).length - off) : ℕ),
          ((fileContents (tfs.view d) i).drop off).take
            (min n ((fileContents (tfs.view d) i).length - off))), d) := by
  have hid := hV.fileid_mem tfs.totalblocks_le hi
  have hsize := natCast_fileSize (hV.table i hi).1
  rw [length_fileContents] at hoff ⊢
  have hpos : (off : ℤ) ≤ inodeFilesize .big (tfs.view d (dirInode (tfs.view d) i)) := by omega
  have hfit : off + min n (fileSize (tfs.view d (dirInode (tfs.view d) i)) - off)
      ≤ fileSize (tfs.view d (dirInode (tfs.view d) i)) := by omega
  have hread := run_tfsRead .big tfs none d hid (view_fileid (tfs.view d) i) (hV.covers hi) n hpos
  rwa [fileSlice_eq_drop_take _ _ hfit] at hread

/-- A write at a position in the file. -/
theorem tfsWrite_file (data : ℕ → UInt8) (n : ℕ) {off : ℕ}
    (hoff : off ≤ (fileContents (tfs.view d) i).length) :
    ∃ d', (tfsWrite .big tfs (fileid (tfs.view d) i) data n off).run none d
        = (.ok ((min n ((fileContents (tfs.view d) i).length - off) : ℕ) : ℤ), d') ∧
      FileWritten (tfs.view d) (tfs.view d') i off
        (min n ((fileContents (tfs.view d) i).length - off)) data ∧
      ∀ b, (∀ k ∈ blockList (tfs.view d (dirInode (tfs.view d) i)), b ≠ tfs.block k) → d' b = d b := by
  have hid := hV.fileid_mem tfs.totalblocks_le hi
  have hsize := natCast_fileSize (hV.table i hi).1
  rw [length_fileContents] at hoff ⊢
  have hpos : (off : ℤ) ≤ inodeFilesize .big (tfs.view d (dirInode (tfs.view d) i)) := by omega
  have hfit : off + min n (fileSize (tfs.view d (dirInode (tfs.view d) i)) - off)
      ≤ fileSize (tfs.view d (dirInode (tfs.view d) i)) := by omega
  obtain ⟨d', hwrite, hbytes⟩ := run_tfsWrite_bytes tfs d hid (view_fileid (tfs.view d) i)
    (hV.dataBlocks hi) data n hpos
  obtain ⟨r, d'', hrun, hframe⟩ := tfsWrite_frame tfs hV hi data (Int.natCast_nonneg n) off
  have hsame : d'' = d' := congrArg Prod.snd (hrun.symm.trans hwrite)
  rw [hsame] at hframe
  refine ⟨d', hwrite, hV.fileWritten hi (fun k hk => ?_) hfit hbytes, hframe⟩
  exact hframe _ fun k' hk' heq => hk (tfs.block_injective heq ▸ hk')

end

/-- **A file is an array of bytes.** A read or a write at a position outside of the file is refused.
Otherwise a read returns the bytes from the position on and changes nothing, and a write replaces them,
in both cases up to the end of the file; only data blocks of the file are written. -/
theorem tfs_byteArray (tfs : TfsVolume) {d : ℕ → Block}
    (hV : SoundVolume tfs.totalblocks (tfs.view d)) {i : ℕ} (hi : Live (tfs.view d) i)
    (data : ℕ → UInt8) (n : ℕ) (o : ℤ) :
    (o < 0 ∨ ((fileContents (tfs.view d) i).length : ℤ) < o →
      (tfsWrite .big tfs (fileid (tfs.view d) i) data n o).run none d = (.ok vfsError, d) ∧
      (tfsRead .big tfs (fileid (tfs.view d) i) n o).run none d = (.ok (vfsError, []), d)) ∧
    ∀ off m : ℕ, o = off → off ≤ (fileContents (tfs.view d) i).length →
      m = min n ((fileContents (tfs.view d) i).length - off) →
      (tfsRead .big tfs (fileid (tfs.view d) i) n o).run none d
        = (.ok ((m : ℤ), ((fileContents (tfs.view d) i).drop off).take m), d) ∧
      ∃ d', (tfsWrite .big tfs (fileid (tfs.view d) i) data n o).run none d = (.ok (m : ℤ), d') ∧
        FileWritten (tfs.view d) (tfs.view d') i off m data ∧
        ∀ b, (∀ k ∈ blockList (tfs.view d (dirInode (tfs.view d) i)), b ≠ tfs.block k) → d' b = d b := by
  refine ⟨fun ho => ?_, ?_⟩
  · rw [length_fileContents, natCast_fileSize (hV.table i hi).1] at ho
    have hinode := view_fileid (tfs.view d) i
    exact ⟨run_tfsWrite_outside tfs d hinode data n ho, run_tfsRead_outside .big tfs none d hinode n ho⟩
  · rintro off m rfl hoff rfl
    exact ⟨tfsRead_file tfs hV hi n hoff, tfsWrite_file tfs hV hi data n hoff⟩

theorem createdDisk_sound : SoundVolume (diskVolume 16).totalblocks ((diskVolume 16).view createdDisk) :=
  createdDisk_reachable.invariant.sound

/-- Of 100 bytes written at position 550, a file of 600 bytes takes 50. -/
theorem tfs_byteArray_createdDisk : ∃ d',
    (tfsWrite .big (diskVolume 16) (fileid ((diskVolume 16).view createdDisk) 24) (fun _ => 7) 100
      550).run none createdDisk = (.ok 50, d') ∧
    FileWritten ((diskVolume 16).view createdDisk) ((diskVolume 16).view d') 24 550 50 fun _ => 7 := by
  have hlength : (fileContents ((diskVolume 16).view createdDisk) 24).length = 600 := by
    rw [length_fileContents]
    decide +kernel
  obtain ⟨-, d', hrun, hwritten, -⟩ := (tfs_byteArray (diskVolume 16) createdDisk_sound createdDisk_live
    (fun _ => 7) 100 550).2 550 50 rfl (by rw [hlength]; decide) (by rw [hlength]; decide)
  exact ⟨d', hrun, hwritten⟩

end Kudos
