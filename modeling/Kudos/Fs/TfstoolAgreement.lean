import Kudos.Fs.TfstoolCopy
import Kudos.Fs.TfstoolNames

set_option autoImplicit false

/-! # The tool and the kernel agree

A file that `tfstool_write` has copied to an image is read back by `tfstool_read` and by the kernel, in
either byte order, and the other files of the image stay as they are (`tfstoolWrite_agrees`). The three
readers look for a name in all entries of the directory, also in those that are free. `tfstool_delete`
and `tfs_remove` leave no name in a free entry; where one has the name of a file, the readers may take
it for the file (`staleImage_changed`). -/

namespace Kudos

open CInt Words

namespace Tfstool

/-! ## Reading with the tool -/

/-- The block table lists `nb` blocks, which are enough for the file, and behind them only zeros. -/
structure Table (inode : Block) (nb : ℕ) : Prop where
  le : nb ≤ tfsBlocksMax
  enough : ((inode.word 0).toBE.toNat + 511) / 512 ≤ nb
  listed : ∀ k < tfsBlocksMax, inodeBlock .big inode k ≠ 0 ↔ k < nb

section

variable {inode : Block} {nb : ℕ} {img : TfsImage}

/-- A file is not so large that its size is a negative `int`. -/
theorem Table.inodeFilesize_eq (h : Table inode nb) :
    inodeFilesize .big inode = (inode.word 0).toBE.toNat := by
  have hle := h.le
  have henough := h.enough
  simp only [tfsBlocksMax] at hle
  unfold inodeFilesize
  rw [fromBigEndian32_load, BitVec.toInt_eq_toNat_cond, if_pos (by omega)]

theorem Table.fileSize_eq (h : Table inode nb) : fileSize inode = (inode.word 0).toBE.toNat := by
  unfold fileSize
  rw [h.inodeFilesize_eq, Int.toNat_natCast]

theorem Table.covers (h : Table inode nb) : Covers inode := by
  intro k hk hlt
  have hle := h.le
  have henough := h.enough
  rw [h.inodeFilesize_eq] at hlt
  exact ⟨hk, by omega, (h.listed k.toNat (by omega)).2 (by omega)⟩

/-- The loop of `tfstool_read` writes the rest of the file. Behind the last byte there may be blocks of
which nothing is written. -/
theorem run_readLoop (h : Table inode nb) (hsize : img.size ≤ 4096)
    (hblocks : ∀ k < nb, (inodeBlock .big inode k).toNat < img.size) (n : ℕ) :
    ∀ (i : ℕ) (data : Block) (count : BitVec 32), i + n = tfsBlocksMax → i ≤ nb →
      count.toNat = min (512 * i) (fileSize inode) →
      (readLoop inode (inode.word 0).toBE n i data count
        (fileSlice img.volume inode 0 count.toNat)).run img
        = .ok (fileSlice img.volume inode 0 (fileSize inode)) img := by
  have hfile := h.fileSize_eq
  have henough := h.enough
  have hle := h.le
  simp only [tfsBlocksMax] at hle
  induction n with
  | zero =>
      intro i data count hi hinb hcount
      rw [show count.toNat = fileSize inode by simp only [tfsBlocksMax] at hi; omega]
      rfl
  | succ n ih =>
      intro i data count hi hinb hcount
      have hlisted := h.listed i (by omega)
      unfold readLoop
      by_cases hzero : inodeBlock .big inode i = 0
      · have hend : ¬ i < nb := fun hlt => hlisted.2 hlt hzero
        rw [if_pos hzero, show count.toNat = fileSize inode by omega]
        rfl
      · have hlt := hlisted.1 hzero
        have hin := hblocks i hlt
        rw [if_neg hzero, EStateM.run_bind, run_readBlock _ (by omega), if_pos hin]
        have hleft : ((inode.word 0).toBE - count).toNat = fileSize inode - count.toNat := by
          rw [BitVec.toNat_sub_of_le (by rw [BitVec.le_def]; omega), hfile]
        have hblock : (if 512#32 < (inode.word 0).toBE - count then 512#32
            else (inode.word 0).toBE - count).toNat = min 512 (fileSize inode - count.toNat) := by
          split
          · next hbig =>
              rw [BitVec.lt_def, hleft] at hbig
              have : (512#32).toNat = 512 := rfl
              omega
          · next hsmall =>
              rw [BitVec.lt_def, hleft] at hsmall
              have : (512#32).toNat = 512 := rfl
              omega
        generalize (if 512#32 < (inode.word 0).toBE - count then 512#32
            else (inode.word 0).toBE - count) = size at hblock
        have hadd : (count + size).toNat = count.toNat + size.toNat := by
          rw [BitVec.toNat_add_of_lt (by omega)]
        -- a block is written from its start, or nothing of it is
        have hslice : fileSlice img.volume inode count.toNat size.toNat
            = blockBytes (img.blocks (inodeBlock .big inode i).toNat) 0 size.toNat := by
          by_cases hnone : size.toNat = 0
          · rw [hnone, fileSlice_zero]
            rfl
          · rw [show count.toNat = 512 * i + 0 by omega]
            exact fileSlice_block img.volume inode i 0 size.toNat (by omega)
        have hrest := ih (i + 1) (img.blocks (inodeBlock .big inode i).toNat) (count + size) (by omega)
          hlt (by omega)
        rw [hadd, fileSlice_add, Nat.zero_add, hslice] at hrest
        exact hrest

/-- **`tfstool_read` as a run.** If the name is found in an entry whose inode and data blocks lie in
the image, the command writes the contents of the file. -/
theorem run_tfstoolRead (hsize : img.size ≤ 4096) (hdir : 2 < img.size) {name : List UInt8} {i : ℕ}
    (hfind : findEntry (img.volume tfsDirectoryBlock) name = some i)
    (hinode : (dirInode img.volume i).toNat < img.size)
    (htable : Table (img.volume (dirInode img.volume i)) nb)
    (hblocks : ∀ k < nb, (inodeBlock .big (img.volume (dirInode img.volume i)) k).toNat < img.size)
    (stack : Stack) :
    (tfstoolRead stack name).run img = .ok (fileSlice img.volume (img.volume (dirInode img.volume i)) 0
      (fileSize (img.volume (dirInode img.volume i)))) img := by
  have hblock : tfsDirectoryBlock.toNat = 2 := rfl
  have hmd : img.blocks 2 = img.volume tfsDirectoryBlock := rfl
  have hentry : entryInode .big (img.volume tfsDirectoryBlock) i = dirInode img.volume i := rfl
  have hvolume : img.blocks (dirInode img.volume i).toNat = img.volume (dirInode img.volume i) := rfl
  unfold tfstoolRead
  rw [EStateM.run_bind, run_readBlock _ (by decide), hblock, if_pos hdir, hmd]
  simp only [hfind]
  rw [EStateM.run_bind, hentry, run_readBlock _ (by omega), if_pos hinode, hvolume]
  exact run_readLoop htable hsize hblocks tfsBlocksMax 0 stack.data 0 (Nat.zero_add _)
    (Nat.zero_le _) (by simp)

end

/-! ## The image and the disk of the kernel -/

/-- An image whose allocation block, directory and inodes agree. -/
structure ConsistentImage (img : TfsImage) : Prop where
  size_le : img.size ≤ 4096
  system : ∀ n < 3, isMarked img.volume n = true
  range : ∀ i, ∀ n ∈ fileBlocks img.volume i, 3 ≤ n.toNat ∧ n.toNat < img.size
  marked : ∀ i, ∀ n ∈ fileBlocks img.volume i, isMarked img.volume n.toNat = true
  distinct : ((List.range tfsMaxFiles).flatMap (fileBlocks img.volume)).Nodup
  table : ∀ i, Live img.volume i → ∃ nb, Table (img.volume (dirInode img.volume i)) nb
  names : ∀ i j, Live img.volume i → Live img.volume j →
    entryName (img.volume tfsDirectoryBlock) i = entryName (img.volume tfsDirectoryBlock) j → i = j

/-- The kernel has mounted the image, at the start of a disk or as a partition of it. -/
structure Mounted (tfs : TfsVolume) (d : ℕ → Block) (img : TfsImage) : Prop where
  size_le : img.size ≤ tfs.totalblocks
  blocks : ∀ n : BitVec 32, n.toNat < img.size → tfs.view d n = img.volume n

/-- A file of an image: its inode and the blocks it lists are above the system blocks of the image. -/
structure FileAt (img : TfsImage) (b : BitVec 32) (nb : ℕ) : Prop where
  size_le : img.size ≤ 4096
  low : 3 ≤ b.toNat
  lt : b.toNat < img.size
  table : Table (img.volume b) nb
  blocks : ∀ k < nb, (inodeBlock .big (img.volume b) k).toNat < img.size

/-- The contents of the file with the inode `b`. -/
def contents (img : TfsImage) (b : BitVec 32) : List UInt8 :=
  fileSlice img.volume (img.volume b) 0 (fileSize (img.volume b))

/-- What a read of the file with the inode `b` returns. -/
def readResult (img : TfsImage) (b : BitVec 32) (bufsize : ℕ) (offset : ℤ) : ℤ × List UInt8 :=
  if offset < 0 ∨ inodeFilesize .big (img.volume b) < offset then (vfsError, [])
  else
    let count := min bufsize (fileSize (img.volume b) - offset.toNat)
    (count, fileSlice img.volume (img.volume b) offset.toNat count)

section

variable {img img' : TfsImage} {b : BitVec 32} {nb : ℕ}

theorem FileAt.toInt_eq (h : FileAt img b nb) : b.toInt = b.toNat := by
  have hsize := h.size_le
  have hlt := h.lt
  rw [BitVec.toInt_eq_toNat_cond, if_pos (by omega)]

/-- Both builds of the kernel read from the image. -/
theorem FileAt.run_tfsRead (h : FileAt img b nb) {tfs : TfsVolume} {d : ℕ → Block}
    (hmount : Mounted tfs d img) (e : Endian) (bufsize : ℕ) (offset : ℤ) :
    (tfsRead e tfs b.toInt bufsize offset).run none d
      = (.ok (readResult img b bufsize offset), d) := by
  have hview : tfs.view d (BitVec.ofInt 32 b.toInt) = img.volume b := by
    rw [BitVec.ofInt_toInt]
    exact hmount.blocks b h.lt
  unfold readResult
  split
  · next hout => exact run_tfsRead_outside e tfs none d hview bufsize hout
  · next hin =>
      obtain ⟨off, rfl⟩ := Int.eq_ofNat_of_zero_le (a := offset) (by omega)
      have hid : 2 ≤ b.toInt ∧ b.toInt ≤ tfs.totalblocks := by
        have hlow := h.low
        have hlt := h.lt
        have hle := hmount.size_le
        rw [h.toInt_eq]
        omega
      have hoff : (off : ℤ) ≤ inodeFilesize .big (img.volume b) := by omega
      have hread := Kudos.run_tfsRead e tfs none d hid hview h.table.covers bufsize hoff
      rw [fileSlice_congr (fun k hk => ?_)] at hread
      · exact hread
      · -- the slice lies in blocks of the file
        have hfile := h.table.fileSize_eq
        have henough := h.table.enough
        rw [h.table.inodeFilesize_eq] at hoff
        exact hmount.blocks _ (h.blocks k (by omega))

end

/-! ## Files after a write -/

section

variable {img img' : TfsImage}

/-- The files of a consistent image lie in it. -/
theorem ConsistentImage.fileAt (h : ConsistentImage img) {j : ℕ} (hj : Live img.volume j) :
    ∃ nb, FileAt img (dirInode img.volume j) nb := by
  obtain ⟨nb, htable⟩ := h.table j hj
  obtain ⟨hlow, hlt⟩ := h.range j _ (dirInode_mem_fileBlocks hj)
  refine ⟨nb, h.size_le, hlow, hlt, htable, fun k hk => ?_⟩
  refine (h.range j _ ?_).2
  have hle := htable.le
  rw [fileBlocks_of_live hj]
  exact List.mem_cons_of_mem _
    (mem_blockList.2 ⟨⟨k, by omega, rfl⟩, (htable.listed k (by omega)).2 hk⟩)

/-- A file stays as long as its inode and its blocks do. -/
structure SameFile (img img' : TfsImage) (b : BitVec 32) (nb : ℕ) : Prop where
  size : img'.size = img.size
  inode : img'.volume b = img.volume b
  blocks : ∀ k < nb, img'.volume (inodeBlock .big (img.volume b) k)
    = img.volume (inodeBlock .big (img.volume b) k)

section

variable {b : BitVec 32} {nb : ℕ}

/-- A file of which no block is written. -/
theorem FileAt.sameFile {j : ℕ} (hfile : FileAt img (dirInode img.volume j) nb)
    (hsize : img'.size = img.size) (hj : Live img.volume j)
    (hsame : ∀ n ∈ fileBlocks img.volume j, img'.volume n = img.volume n) :
    SameFile img img' (dirInode img.volume j) nb := by
  have hle := hfile.table.le
  refine ⟨hsize, hsame _ (dirInode_mem_fileBlocks hj), fun k hk => hsame _ ?_⟩
  rw [fileBlocks_of_live hj]
  exact List.mem_cons_of_mem _
    (mem_blockList.2 ⟨⟨k, by omega, rfl⟩, (hfile.table.listed k (by omega)).2 hk⟩)

theorem SameFile.fileAt (h : SameFile img img' b nb) (hfile : FileAt img b nb) : FileAt img' b nb := by
  refine ⟨?_, hfile.low, ?_, ?_, ?_⟩
  · rw [h.size]
    exact hfile.size_le
  · rw [h.size]
    exact hfile.lt
  · rw [h.inode]
    exact hfile.table
  · rw [h.inode, h.size]
    exact hfile.blocks

theorem SameFile.fileSlice_eq (h : SameFile img img' b nb) (hfile : FileAt img b nb) (off n : ℕ)
    (hn : off + n ≤ fileSize (img.volume b)) :
    fileSlice img'.volume (img'.volume b) off n = fileSlice img.volume (img.volume b) off n := by
  have hsize := hfile.table.fileSize_eq
  have henough := hfile.table.enough
  rw [h.inode]
  exact fileSlice_congr fun k hk => h.blocks k (by omega)

theorem SameFile.contents_eq (h : SameFile img img' b nb) (hfile : FileAt img b nb) :
    contents img' b = contents img b := by
  unfold contents
  rw [← h.fileSlice_eq hfile 0 (fileSize (img.volume b)) (by omega), h.inode]

theorem SameFile.readResult_eq (h : SameFile img img' b nb) (hfile : FileAt img b nb) (bufsize : ℕ)
    (offset : ℤ) : readResult img' b bufsize offset = readResult img b bufsize offset := by
  unfold readResult
  rw [h.inode]
  split
  · rfl
  · next hin =>
      have hsize := hfile.table.fileSize_eq
      have hint := hfile.table.inodeFilesize_eq
      have hslice := h.fileSlice_eq hfile offset.toNat
        (min bufsize (fileSize (img.volume b) - offset.toNat)) (by omega)
      rw [h.inode] at hslice
      simp only [hslice]

end

section

variable {source target : List UInt8} {index p : ℕ} {l : List ℕ}

theorem Copied.fresh (h : Copied img img' source target index p l) :
    ∀ q ∈ p :: l, q < img.size ∧ isMarked img.volume q = false :=
  fun _ hq => (mem_freeBits .big _).1 (h.free.subset hq)

theorem Copied.system_lt (h : Copied img img' source target index p l) : 3 < img.size := by
  have hlow := h.above p (List.mem_cons_self ..)
  have hlt := (h.fresh p (List.mem_cons_self ..)).1
  omega

/-- The blocks of the other files are not written. -/
theorem Copied.volume_eq (h : Copied img img' source target index p l) (himg : ConsistentImage img)
    {j : ℕ} {n : BitVec 32} (hn : n ∈ fileBlocks img.volume j) : img'.volume n = img.volume n := by
  have hlow := (himg.range j n hn).1
  refine h.other n.toNat (fun hmem => ?_) (by omega) (by omega)
  have hmarked := himg.marked j n hn
  rw [(h.fresh _ hmem).2] at hmarked
  cases hmarked

theorem Copied.sameFile (h : Copied img img' source target index p l) (himg : ConsistentImage img)
    {j : ℕ} (hj : Live img.volume j) {nb : ℕ} (hfile : FileAt img (dirInode img.volume j) nb) :
    SameFile img img' (dirInode img.volume j) nb :=
  hfile.sameFile h.size hj fun _ hn => h.volume_eq himg hn

theorem fillBlocks_setWord (w : Word) (l : List ℕ) :
    (fillBlocks .zero 0 l).setWord 0 w = fillBlocks (Block.zero.setWord 0 w) 0 l := by
  funext k
  unfold fillBlocks Block.setWord
  by_cases hk : k.val = 0
  · simp [hk]
  · simp [hk]

theorem Copied.volume_inode (h : Copied img img' source target index p l) (hsize : img.size ≤ 4096) :
    img'.volume (BitVec.ofNat 32 p) = fileInode source.length l := by
  have hp := (h.fresh p (List.mem_cons_self ..)).1
  unfold TfsImage.volume
  rw [toNat_ofNat_of_lt (by omega), h.inode, fillBlocks_setWord]
  rfl

/-- The new file. -/
theorem Copied.fileAt (h : Copied img img' source target index p l) (hsize : img.size ≤ 4096) :
    FileAt img' (BitVec.ofNat 32 p) l.length := by
  have hp := h.fresh p (List.mem_cons_self ..)
  have hlow := h.above p (List.mem_cons_self ..)
  have hpos : ∀ q ∈ l, q ≠ 0 ∧ q < 4096 := by
    intro q hq
    have habove := h.above q (List.mem_cons_of_mem _ hq)
    have hlt := (h.fresh q (List.mem_cons_of_mem _ hq)).1
    exact ⟨by omega, by omega⟩
  have hroom := h.room
  have hentries := h.entries
  simp only [tfsBlocksMax] at hentries
  have hnat := toNat_ofNat_of_lt (show p < 4096 by omega)
  refine ⟨by rw [h.size]; exact hsize, by omega, by rw [h.size]; omega, ?_, ?_⟩
  · rw [h.volume_inode hsize]
    refine ⟨h.entries, ?_, fileInode_block_iff hpos⟩
    have hword : ((fileInode source.length l).word 0).toBE.toNat = source.length := by
      have hblock : (fileInode source.length l).word 0 = .ofBE (BitVec.ofNat 32 source.length) := by
        simp [fileInode, fillBlocks, Block.word, Block.setWord]
      rw [hblock, Word.toBE_ofBE, BitVec.toNat_ofNat, Nat.mod_eq_of_lt (by omega)]
    omega
  · intro k hk
    have hq := (h.fresh l[k] (List.mem_cons_of_mem _ (List.getElem_mem hk))).1
    rw [h.volume_inode hsize, inodeBlock_fileInode (by simp only [tfsBlocksMax]; omega),
      List.getElem?_eq_getElem hk, Option.getD_some, toNat_ofNat_of_lt (by omega), h.size]
    exact hq

theorem Copied.fileSize_eq (h : Copied img img' source target index p l) (hsize : img.size ≤ 4096) :
    fileSize (img'.volume (BitVec.ofNat 32 p)) = source.length := by
  have hroom := h.room
  have hentries := h.entries
  simp only [tfsBlocksMax] at hentries
  unfold fileSize
  rw [h.volume_inode hsize, inodeFilesize_fileInode ⟨by omega, by simp only [intMax]; omega⟩,
    Int.toNat_natCast]

/-- The bytes of the source are the contents of the new file. -/
theorem Copied.contents_eq (h : Copied img img' source target index p l) (hsize : img.size ≤ 4096) :
    contents img' (BitVec.ofNat 32 p) = source := by
  have hroom := h.room
  have hentries := h.entries
  unfold contents
  rw [h.fileSize_eq hsize, h.volume_inode hsize]
  refine List.ext_getElem (by simp [fileSlice]) fun m hm hlt => ?_
  have hk : m / 512 < l.length := by omega
  have hget : l[m / 512]? = some l[m / 512] := List.getElem?_eq_getElem hk
  have hq := (h.fresh l[m / 512] (List.mem_cons_of_mem _ (List.getElem_mem hk))).1
  have hdata := h.data (m / 512) l[m / 512] hget (m % 512) (Nat.mod_lt _ (by decide))
    (by rw [Nat.div_add_mod]; exact hlt)
  rw [Nat.div_add_mod] at hdata
  simp only [fileSlice, List.getElem_map, List.getElem_range, Nat.zero_add, fileByte]
  rw [inodeBlock_fileInode (by omega), hget, Option.getD_some]
  unfold TfsImage.volume
  rw [toNat_ofNat_of_lt (by omega), hdata, List.getD_eq_getElem?_getD, List.getElem?_eq_getElem hlt,
    Option.getD_some]

theorem Copied.dirInode_index (h : Copied img img' source target index p l)
    (htarget : ∀ c ∈ target, c ≠ 0) : dirInode img'.volume index = BitVec.ofNat 32 p := by
  unfold dirInode
  rw [h.directory, entryInode_newEntry htarget h.index_lt]

theorem Copied.dirInode_other (h : Copied img img' source target index p l)
    (htarget : ∀ c ∈ target, c ≠ 0) {i : ℕ} (hi : i ≠ index) :
    dirInode img'.volume i = dirInode img.volume i := by
  unfold dirInode
  rw [h.directory, entryInode_newEntry_other htarget h.index_lt hi]

/-- A byte of another name, or behind it. -/
theorem Copied.byte_name (h : Copied img img' source target index p l) (hsize : img.size ≤ 4096)
    (htarget : ∀ c ∈ target, c ≠ 0) {i k : ℕ} (hi : i ≠ index) (hk : k ≤ tfsFilenameMax) :
    (img'.volume tfsDirectoryBlock).byte (nameOffset i + k)
      = (img.volume tfsDirectoryBlock).byte (nameOffset i + k) := by
  have hp := (h.fresh p (List.mem_cons_self ..)).1
  rw [h.directory]
  exact byte_name_newEntry htarget h.index_lt h.index_free
    (by rw [toNat_ofNat_of_lt (by omega)]; omega) hi hk

/-- The name is the one of the new entry, and of no other. -/
theorem Copied.entryName_iff (h : Copied img img' source target index p l) (hsize : img.size ≤ 4096)
    (htarget : ∀ c ∈ target, c ≠ 0) (hlen : target.length < tfsFilenameMax) {i : ℕ}
    (hi : i < tfsMaxFiles) : entryName (img'.volume tfsDirectoryBlock) i = target ↔ i = index := by
  constructor
  · intro hname
    by_contra hne
    have hold : entryName (img.volume tfsDirectoryBlock) i = target := by
      rw [← hname]
      exact (cstring_congr fun k hk => h.byte_name hsize htarget hne (by omega)).symm
    have hnew := h.name_new i hi
    rw [(strncmpEq_iff_entryName htarget (by omega) i).2 hold] at hnew
    cases hnew
  · rintro rfl
    rw [h.directory]
    exact entryName_newEntry htarget hlen h.index_lt

end

end

/-! ## The three readers -/

section

variable {img img' : TfsImage}

theorem Mounted.run_tfsOpen {tfs : TfsVolume} {d : ℕ → Block} (h : Mounted tfs d img)
    (hdir : 2 < img.size) (e : Endian) (name : List UInt8) :
    (tfsOpen e tfs name).run none d = (.ok (openResult img.volume name), d) := by
  have hview : tfs.view d tfsDirectoryBlock = img.volume tfsDirectoryBlock :=
    h.blocks tfsDirectoryBlock hdir
  have hresult : openResult (tfs.view d) name = openResult img.volume name := by
    unfold openResult dirInode
    rw [hview]
  rw [Kudos.run_tfsOpen, hresult]

theorem FileAt.run_tfstoolRead {i nb : ℕ} (h : FileAt img (dirInode img.volume i) nb)
    (hdir : 2 < img.size) {name : List UInt8}
    (hfind : findEntry (img.volume tfsDirectoryBlock) name = some i) (stack : Stack) :
    (tfstoolRead stack name).run img = .ok (contents img (dirInode img.volume i)) img :=
  Tfstool.run_tfstoolRead h.size_le hdir hfind h.lt h.table h.blocks stack

variable {source : List UInt8} {name : FileName} {index p : ℕ} {l : List ℕ}

theorem FileName.length_lt (name : FileName) : name.chars.length < tfsFilenameMax := by
  have hle := name.length_le
  simp only [tfsFilenameMax] at hle ⊢
  omega

theorem Copied.findEntry_index (h : Copied img img' source name.chars index p l)
    (hsize : img.size ≤ 4096) :
    findEntry (img'.volume tfsDirectoryBlock) name.chars = some index :=
  findEntry_of_first name.nonzero (Nat.le_of_lt (FileName.length_lt name)) h.index_lt
    ((h.entryName_iff hsize name.nonzero (FileName.length_lt name) h.index_lt).2 rfl)
    fun _ hi heq => Nat.ne_of_lt hi ((h.entryName_iff hsize name.nonzero (FileName.length_lt name)
      (Nat.lt_trans hi h.index_lt)).1 heq)

/-- The tool reads the new file. -/
theorem Copied.tfstoolRead_index (h : Copied img img' source name.chars index p l)
    (hsize : img.size ≤ 4096) (stack : Stack) :
    (tfstoolRead stack name.chars).run img' = .ok source img' := by
  have hinode := h.dirInode_index name.nonzero
  have hsystem := h.system_lt
  have hfile := h.fileAt hsize
  rw [← hinode] at hfile
  rw [hfile.run_tfstoolRead (by rw [h.size]; omega) (h.findEntry_index hsize), hinode,
    h.contents_eq hsize]

/-- The kernel reads the new file. -/
theorem Copied.tfsRead_index (h : Copied img img' source name.chars index p l)
    (hsize : img.size ≤ 4096) {tfs : TfsVolume} {d : ℕ → Block} (hmount : Mounted tfs d img')
    (e : Endian) {bufsize : ℕ} (hbuf : source.length ≤ bufsize) :
    (tfsOpen e tfs name.chars).run none d = (.ok (BitVec.ofNat 32 p).toInt, d) ∧
      (tfsRead e tfs (BitVec.ofNat 32 p).toInt bufsize 0).run none d
        = (.ok (source.length, source), d) := by
  have hsystem := h.system_lt
  have hcontents := h.contents_eq hsize
  have hlength := h.fileSize_eq hsize
  have hint := (h.fileAt hsize).table.inodeFilesize_eq
  constructor
  · have hfind : findName (img'.volume tfsDirectoryBlock) name.chars = some index := by
      rw [findName_eq_findEntry (FileName.length_lt name)]
      exact h.findEntry_index hsize
    rw [hmount.run_tfsOpen (by rw [h.size]; omega), openResult_of_some hfind,
      h.dirInode_index name.nonzero]
  · rw [(h.fileAt hsize).run_tfsRead hmount e bufsize 0]
    unfold readResult
    unfold contents at hcontents
    rw [hlength] at hcontents
    rw [if_neg (by omega)]
    simp only [hlength, Int.toNat_zero, Nat.sub_zero, Nat.min_eq_right hbuf, hcontents]

/-- No free entry in front of entry `j` of the directory has its name. -/
def Unshadowed (img : TfsImage) (j : ℕ) : Prop :=
  ∀ i < j, dirInode img.volume i = 0 →
    entryName (img.volume tfsDirectoryBlock) i ≠ entryName (img.volume tfsDirectoryBlock) j

/-- Then it is the first entry with its name. -/
theorem ConsistentImage.entryName_ne (himg : ConsistentImage img) {j : ℕ} (hj : Live img.volume j)
    (hfree : Unshadowed img j) {i : ℕ} (hi : i < j) :
    entryName (img.volume tfsDirectoryBlock) i ≠ entryName (img.volume tfsDirectoryBlock) j := by
  by_cases hzero : dirInode img.volume i = 0
  · exact hfree i hi hzero
  · intro hname
    have heq := himg.names i j ⟨Nat.lt_trans hi hj.1, hzero⟩ hj hname
    omega

/-- An entry that is followed by another one has a zero behind its name. -/
theorem ConsistentImage.byte_behind (himg : ConsistentImage img) {j : ℕ} (hj : j + 1 < tfsMaxFiles) :
    (img.volume tfsDirectoryBlock).byte (nameOffset j + tfsFilenameMax) = 0 := by
  have hinode : (dirInode img.volume (j + 1)).toNat < 4096 := by
    by_cases hzero : dirInode img.volume (j + 1) = 0
    · rw [hzero]
      decide
    · have hrange := himg.range (j + 1) _ (dirInode_mem_fileBlocks ⟨hj, hzero⟩)
      have hsize := himg.size_le
      omega
  exact byte_entryInode (img.volume tfsDirectoryBlock) (j + 1) hinode

/-- So the kernel sees the name in every entry but the last. -/
theorem ConsistentImage.stringEq_entryName (himg : ConsistentImage img) {j : ℕ}
    (hj : j + 1 < tfsMaxFiles) : stringEq (img.volume tfsDirectoryBlock) (nameOffset j)
      (entryName (img.volume tfsDirectoryBlock) j) = true := by
  have hlen := length_entryName_le (img.volume tfsDirectoryBlock) j
  have hsame := (strncmpEq_iff_entryName entryName_nonzero hlen j).2 rfl
  by_cases hshort : (entryName (img.volume tfsDirectoryBlock) j).length < tfsFilenameMax
  · exact stringEq_of_strncmpEq hshort hsame
  · refine stringEq_of_strncmpEq_of_zero hlen ?_ hsame
    rw [show (entryName (img.volume tfsDirectoryBlock) j).length = tfsFilenameMax by omega]
    exact himg.byte_behind hj

/-- The name of another file is not the new name. -/
theorem Copied.name_ne (h : Copied img img' source name.chars index p l) {j : ℕ}
    (hj : Live img.volume j) : entryName (img.volume tfsDirectoryBlock) j ≠ name.chars := by
  intro hname
  have hnew := h.name_new j hj.1
  rw [(strncmpEq_iff_entryName name.nonzero (Nat.le_of_lt (FileName.length_lt name)) j).2 hname]
    at hnew
  cases hnew

/-- The names of the other entries are the same. -/
theorem Copied.entryName_other (h : Copied img img' source name.chars index p l)
    (hsize : img.size ≤ 4096) {i : ℕ} (hi : i ≠ index) :
    entryName (img'.volume tfsDirectoryBlock) i = entryName (img.volume tfsDirectoryBlock) i :=
  cstring_congr fun _ hk => h.byte_name hsize name.nonzero hi (Nat.le_of_lt hk)

theorem Copied.ne_index (h : Copied img img' source name.chars index p l) {j : ℕ}
    (hj : Live img.volume j) : j ≠ index := by
  rintro rfl
  exact hj.2 h.index_free

/-- A file is still the first entry with its name. -/
theorem Copied.entryName_ne (h : Copied img img' source name.chars index p l)
    (himg : ConsistentImage img) {j : ℕ} (hj : Live img.volume j) (hfree : Unshadowed img j) {i : ℕ}
    (hi : i < j) :
    entryName (img'.volume tfsDirectoryBlock) i ≠ entryName (img.volume tfsDirectoryBlock) j := by
  by_cases hindex : i = index
  · rw [hindex, (h.entryName_iff himg.size_le name.nonzero (FileName.length_lt name) h.index_lt).2 rfl]
    exact (h.name_ne hj).symm
  · rw [h.entryName_other himg.size_le hindex]
    exact himg.entryName_ne hj hfree hi

/-- The kernel opens another file as before; where the name fills the last entry of the directory, it
may not have found the file, and does not find it now. -/
theorem Copied.findName_other (h : Copied img img' source name.chars index p l)
    (himg : ConsistentImage img) {j : ℕ} (hj : Live img.volume j) (hfree : Unshadowed img j) :
    (findName (img.volume tfsDirectoryBlock) (entryName (img.volume tfsDirectoryBlock) j) = some j ∧
      findName (img'.volume tfsDirectoryBlock) (entryName (img.volume tfsDirectoryBlock) j) = some j) ∨
    (findName (img.volume tfsDirectoryBlock) (entryName (img.volume tfsDirectoryBlock) j) = none ∧
      findName (img'.volume tfsDirectoryBlock) (entryName (img.volume tfsDirectoryBlock) j) = none) := by
  have hlen := length_entryName_le (img.volume tfsDirectoryBlock) j
  have hbefore := fun i hi => himg.entryName_ne hj hfree (i := i) hi
  have hbefore' := fun i hi => h.entryName_ne himg hj hfree (i := i) hi
  have hsame : stringEq (img'.volume tfsDirectoryBlock) (nameOffset j)
      (entryName (img.volume tfsDirectoryBlock) j)
      = stringEq (img.volume tfsDirectoryBlock) (nameOffset j)
        (entryName (img.volume tfsDirectoryBlock) j) :=
    stringEq_congr fun k hk => h.byte_name himg.size_le name.nonzero (h.ne_index hj) (by omega)
  cases hat : stringEq (img.volume tfsDirectoryBlock) (nameOffset j)
    (entryName (img.volume tfsDirectoryBlock) j) with
  | true =>
      rw [hat] at hsame
      exact Or.inl ⟨findName_of_first entryName_nonzero hlen hj.1 hat hbefore,
        findName_of_first entryName_nonzero hlen hj.1 hsame hbefore'⟩
  | false =>
      have hlast : j + 1 = tfsMaxFiles := by
        by_contra hne
        have hlt := hj.1
        rw [himg.stringEq_entryName (by omega)] at hat
        cases hat
      rw [hat] at hsame
      exact Or.inr ⟨findName_of_last entryName_nonzero hlen hlast hat hbefore,
        findName_of_last entryName_nonzero hlen hlast hsame hbefore'⟩

/-- Both builds of the kernel open and read another file as before. -/
theorem Copied.tfsRead_other (h : Copied img img' source name.chars index p l)
    (himg : ConsistentImage img) {j : ℕ} (hj : Live img.volume j) (hfree : Unshadowed img j)
    {tfs : TfsVolume} {d d' : ℕ → Block} (hmount : Mounted tfs d img) (hmount' : Mounted tfs d' img')
    (e : Endian) :
    ∃ fileid,
      (tfsOpen e tfs (entryName (img.volume tfsDirectoryBlock) j)).run none d = (.ok fileid, d) ∧
      (tfsOpen e tfs (entryName (img.volume tfsDirectoryBlock) j)).run none d' = (.ok fileid, d') ∧
      ∀ (bufsize : ℕ) (offset : ℤ), ∃ r, (tfsRead e tfs fileid bufsize offset).run none d = (.ok r, d) ∧
        (tfsRead e tfs fileid bufsize offset).run none d' = (.ok r, d') := by
  have hsystem := h.system_lt
  have hindex := h.ne_index hj
  have hopen := hmount.run_tfsOpen (by omega) e (entryName (img.volume tfsDirectoryBlock) j)
  have hopen' := hmount'.run_tfsOpen (by rw [h.size]; omega) e
    (entryName (img.volume tfsDirectoryBlock) j)
  rcases h.findName_other himg hj hfree with ⟨hfind, hother⟩ | ⟨hfind, hother⟩
  · rw [openResult_of_some hfind] at hopen
    rw [openResult_of_some hother, h.dirInode_other name.nonzero hindex] at hopen'
    obtain ⟨nb, hfile⟩ := himg.fileAt hj
    have hsame := h.sameFile himg hj hfile
    refine ⟨_, hopen, hopen', fun bufsize offset => ⟨_, hfile.run_tfsRead hmount e bufsize offset, ?_⟩⟩
    rw [← hsame.readResult_eq hfile]
    exact (hsame.fileAt hfile).run_tfsRead hmount' e bufsize offset
  · rw [openResult_of_none hfind] at hopen
    rw [openResult_of_none hother] at hopen'
    refine ⟨_, hopen, hopen', fun bufsize offset => ⟨(vfsError, []), ?_, ?_⟩⟩
    · exact run_tfsRead_fileid e tfs none d (Or.inl (by decide)) bufsize offset
    · exact run_tfsRead_fileid e tfs none d' (Or.inl (by decide)) bufsize offset

/-- The tool reads another file as before. -/
theorem Copied.tfstoolRead_other (h : Copied img img' source name.chars index p l)
    (himg : ConsistentImage img) {j : ℕ} (hj : Live img.volume j) (hfree : Unshadowed img j)
    (stack : Stack) :
    (tfstoolRead stack (entryName (img.volume tfsDirectoryBlock) j)).run img
        = .ok (contents img (dirInode img.volume j)) img ∧
      (tfstoolRead stack (entryName (img.volume tfsDirectoryBlock) j)).run img'
        = .ok (contents img (dirInode img.volume j)) img' := by
  have hsystem := h.system_lt
  have hindex := h.ne_index hj
  have hlen := length_entryName_le (img.volume tfsDirectoryBlock) j
  obtain ⟨nb, hfile⟩ := himg.fileAt hj
  have hsame := h.sameFile himg hj hfile
  constructor
  · refine hfile.run_tfstoolRead (by omega) ?_ stack
    exact findEntry_of_first entryName_nonzero hlen hj.1 rfl
      fun i hi => himg.entryName_ne hj hfree hi
  · have hfile' := hsame.fileAt hfile
    rw [← h.dirInode_other name.nonzero hindex] at hfile'
    have hfind := findEntry_of_first entryName_nonzero hlen hj.1
      (h.entryName_other himg.size_le hindex) fun i hi => h.entryName_ne himg hj hfree hi
    rw [hfile'.run_tfstoolRead (by rw [h.size]; omega) hfind, h.dirInode_other name.nonzero hindex, hsame.contents_eq hfile]

end

/-- **The tool and the kernel agree on file contents.** A file that `tfstool_write` has copied to a
consistent image is read back by the tool and by both builds of the kernel, and every other file that
no free entry of the same name stands in front of is read as before. -/
theorem tfstoolWrite_agrees {img img' : TfsImage} (himg : ConsistentImage img) {stack : Stack}
    {source : List UInt8} {name : FileName}
    (hrun : (tfstoolWrite stack source name.chars).run img = .ok () img') :
    (∀ stack, (tfstoolRead stack name.chars).run img' = .ok source img') ∧
    (∀ (e : Endian) (tfs : TfsVolume) (d : ℕ → Block), Mounted tfs d img' →
      ∃ fileid, (tfsOpen e tfs name.chars).run none d = (.ok fileid, d) ∧
        ∀ len : ℕ, source.length ≤ len →
          (tfsRead e tfs fileid len 0).run none d = (.ok (source.length, source), d)) ∧
    ∀ j, Live img.volume j → Unshadowed img j →
      (∃ bytes, ∀ stack,
        (tfstoolRead stack (entryName (img.volume tfsDirectoryBlock) j)).run img = .ok bytes img ∧
        (tfstoolRead stack (entryName (img.volume tfsDirectoryBlock) j)).run img' = .ok bytes img') ∧
      ∀ (e : Endian) (tfs : TfsVolume) (d d' : ℕ → Block), Mounted tfs d img → Mounted tfs d' img' →
        ∃ fileid,
          (tfsOpen e tfs (entryName (img.volume tfsDirectoryBlock) j)).run none d = (.ok fileid, d) ∧
          (tfsOpen e tfs (entryName (img.volume tfsDirectoryBlock) j)).run none d'
            = (.ok fileid, d') ∧
          ∀ (len : ℕ) (offset : ℤ), ∃ r, (tfsRead e tfs fileid len offset).run none d = (.ok r, d) ∧
            (tfsRead e tfs fileid len offset).run none d' = (.ok r, d') := by
  obtain ⟨index, p, l, h⟩ := tfstoolWrite_copied himg.size_le hrun
  refine ⟨fun stack => h.tfstoolRead_index himg.size_le stack, fun e tfs d hmount => ?_,
    fun j hj hfree => ⟨?_, fun e tfs d d' hmount hmount' => ?_⟩⟩
  · refine ⟨(BitVec.ofNat 32 p).toInt, ?_, fun len hlen => ?_⟩
    · exact (h.tfsRead_index himg.size_le hmount e (le_refl _)).1
    · exact (h.tfsRead_index himg.size_le hmount e hlen).2
  · exact ⟨_, fun stack => h.tfstoolRead_other himg hj hfree stack⟩
  · exact h.tfsRead_other himg hj hfree hmount hmount' e

/-! ## Two images -/

/-- An image of 8 blocks with the directory `md`, for a file of one byte in the blocks 3 and 4. -/
def smallImage (md : Block) : TfsImage where
  size := 8
  blocks n :=
    if n = 0 then tfstoolCreatevol (fun _ => 0) 0
    else if n = 1 then takeBits .big .zero [0, 1, 2, 3, 4]
    else if n = 2 then md
    else if n = 3 then fileInode 1 [4]
    else if n = 4 then Block.zero.setByte 0 7
    else .zero

/-- The file is in entry 1. -/
structure OneFile (md : Block) : Prop where
  file : entryInode .big md 1 = 3
  free : ∀ i < tfsMaxFiles, i ≠ 1 → entryInode .big md i = 0

section

variable {md : Block}

theorem OneFile.live_iff (h : OneFile md) {i : ℕ} : Live (smallImage md).volume i ↔ i = 1 := by
  have hdir : ∀ i, dirInode (smallImage md).volume i = entryInode .big md i := fun _ => rfl
  unfold Live
  rw [hdir]
  constructor
  · rintro ⟨hi, hne⟩
    by_contra h1
    exact hne (h.free i hi h1)
  · rintro rfl
    exact ⟨by decide, by rw [h.file]; decide⟩

theorem OneFile.volume_inode (h : OneFile md) :
    (smallImage md).volume (dirInode (smallImage md).volume 1) = fileInode 1 [4] := by
  have hdir : dirInode (smallImage md).volume 1 = 3 := h.file
  rw [hdir]
  rfl

theorem OneFile.fileBlocks_eq (h : OneFile md) :
    fileBlocks (smallImage md).volume 1 = [3#32, 4#32] := by
  have hdir : dirInode (smallImage md).volume 1 = 3 := h.file
  rw [fileBlocks_of_live (h.live_iff.2 rfl), h.volume_inode, hdir,
    blockList_fileInode (by decide) (by decide)]
  rfl

theorem OneFile.mem_fileBlocks (h : OneFile md) {i : ℕ} {n : BitVec 32}
    (hn : n ∈ fileBlocks (smallImage md).volume i) : i = 1 ∧ (n = 3#32 ∨ n = 4#32) := by
  obtain rfl : i = 1 := h.live_iff.1 (live_of_mem_fileBlocks hn)
  rw [h.fileBlocks_eq] at hn
  simpa using hn

theorem isMarked_smallImage : ∀ m < 5, isMarked (smallImage md).volume m = true := by
  have hbits : ∀ m < 5, bitmapGet .big (takeBits .big .zero [0, 1, 2, 3, 4]) m = true := by
    decide +kernel
  exact hbits

theorem OneFile.consistent (h : OneFile md) : ConsistentImage (smallImage md) where
  size_le := show 8 ≤ 4096 by decide
  system n hn := isMarked_smallImage n (by omega)
  range i n hn := by
    have hsize : (smallImage md).size = 8 := rfl
    rw [hsize]
    obtain ⟨-, rfl | rfl⟩ := h.mem_fileBlocks hn
    · decide
    · decide
  marked i n hn := by
    obtain ⟨-, rfl | rfl⟩ := h.mem_fileBlocks hn
    · exact isMarked_smallImage 3 (by decide)
    · exact isMarked_smallImage 4 (by decide)
  distinct := by
    rw [List.nodup_flatMap]
    constructor
    · intro i _
      by_cases hi : i = 1
      · rw [hi, h.fileBlocks_eq]
        decide
      · rw [fileBlocks_of_not_live (fun hlive => hi (h.live_iff.1 hlive))]
        exact List.nodup_nil
    · refine List.Nodup.pairwise_of_forall_ne List.nodup_range fun i _ j _ hij n hn hn' => ?_
      exact hij ((h.mem_fileBlocks hn).1.trans (h.mem_fileBlocks hn').1.symm)
  table i hi := by
    obtain rfl := h.live_iff.1 hi
    refine ⟨1, ?_⟩
    rw [h.volume_inode]
    exact ⟨by decide, by decide +kernel, fileInode_block_iff (by decide)⟩
  names i j hi hj _ := (h.live_iff.1 hi).trans (h.live_iff.1 hj).symm

end

def zeroStack : Stack := ⟨.zero, .zero, .zero, .zero⟩

/-- The bytes of a result. -/
def bytesOf : EStateM.Result TfstoolExit TfsImage (List UInt8) → Option (List UInt8)
  | .ok bytes _ => some bytes
  | .error _ _ => none

/-- The image that a command leaves. -/
def imageOf {α : Type} : EStateM.Result TfstoolExit TfsImage α → TfsImage
  | .ok _ img => img
  | .error _ img => img

/-- The command has been successful. -/
def isOk {α : Type} : EStateM.Result TfstoolExit TfsImage α → Bool
  | .ok _ _ => true
  | .error _ _ => false

theorem eq_ok_of_isOk {r : EStateM.Result TfstoolExit TfsImage Unit} (h : isOk r = true) :
    r = .ok () (imageOf r) := by
  cases r with
  | ok _ img => rfl
  | error _ _ => cases h

theorem eq_ok_of_bytesOf {r : EStateM.Result TfstoolExit TfsImage (List UInt8)} {bytes : List UInt8}
    (h : bytesOf r = some bytes) : r = .ok bytes (imageOf r) := by
  cases r with
  | ok _ img =>
      cases h
      rfl
  | error _ _ => cases h

/-- The file `b` alone. -/
def cleanDirectory : Block := newEntry .zero 1 3 [98]

/-- The file `b`, with a free entry in front of it that has its name. -/
def staleDirectory : Block := newEntry cleanDirectory 0 0 [98]

theorem cleanDirectory_oneFile : OneFile cleanDirectory := ⟨by decide +kernel, by decide +kernel⟩

theorem staleDirectory_oneFile : OneFile staleDirectory := ⟨by decide +kernel, by decide +kernel⟩

/-- The image after a byte was copied to it as `a`. -/
def copiedTo (md : Block) : TfsImage :=
  imageOf ((tfstoolWrite zeroStack [1] nameA.chars).run (smallImage md))

/-- The file `a` is read back, and so is `b`. -/
theorem tfstoolWrite_agrees_clean :
    (tfstoolWrite zeroStack [1] nameA.chars).run (smallImage cleanDirectory)
      = .ok () (copiedTo cleanDirectory) ∧
    (tfstoolRead zeroStack nameA.chars).run (copiedTo cleanDirectory)
      = .ok [1] (copiedTo cleanDirectory) ∧
    ∃ bytes, (tfstoolRead zeroStack (entryName cleanDirectory 1)).run (smallImage cleanDirectory)
        = .ok bytes (smallImage cleanDirectory) ∧
      (tfstoolRead zeroStack (entryName cleanDirectory 1)).run (copiedTo cleanDirectory)
        = .ok bytes (copiedTo cleanDirectory) := by
  have hrun : (tfstoolWrite zeroStack [1] nameA.chars).run (smallImage cleanDirectory)
      = .ok () (copiedTo cleanDirectory) := eq_ok_of_isOk (by decide +kernel)
  obtain ⟨hread, -, hother⟩ := tfstoolWrite_agrees cleanDirectory_oneFile.consistent hrun
  have hfree : Unshadowed (smallImage cleanDirectory) 1 := by
    intro i hi _
    obtain rfl : i = 0 := by omega
    show entryName cleanDirectory 0 ≠ entryName cleanDirectory 1
    decide +kernel
  obtain ⟨⟨bytes, hbytes⟩, -⟩ := hother 1 (cleanDirectory_oneFile.live_iff.2 rfl) hfree
  exact ⟨hrun, hread zeroStack, bytes, hbytes zeroStack⟩

/-- In front of a file there may be a free entry that has its name. The tool finds this entry first, and
reads nothing; when the entry is used for a new file, it finds the file. -/
theorem staleImage_changed :
    ConsistentImage (smallImage staleDirectory) ∧
    (tfstoolWrite zeroStack [1] nameA.chars).run (smallImage staleDirectory)
      = .ok () (copiedTo staleDirectory) ∧
    Live (smallImage staleDirectory).volume 1 ∧ entryName staleDirectory 1 = [98] ∧
    (∃ img, (tfstoolRead zeroStack [98]).run (smallImage staleDirectory) = .ok [] img) ∧
    ∃ img, (tfstoolRead zeroStack [98]).run (copiedTo staleDirectory) = .ok [7] img := by
  refine ⟨staleDirectory_oneFile.consistent, eq_ok_of_isOk (by decide +kernel),
    staleDirectory_oneFile.live_iff.2 rfl, by decide +kernel, ?_, ?_⟩
  · exact ⟨_, eq_ok_of_bytesOf (by decide +kernel)⟩
  · exact ⟨_, eq_ok_of_bytesOf (by decide +kernel)⟩

end Tfstool

end Kudos
