import Kudos.Fs.TfsRun
import Kudos.Library.Ownership
import Kudos.Library.Transition

set_option autoImplicit false

/-! # The volume invariant of the trivial filesystem

A volume has three structures on disk: the allocation bitmap, the directory, and one inode for each
file. `VolumeInvariant` says that they agree on a big-endian machine: every block above the system
blocks is marked if and only if it is the inode or a data block of one file. It holds of the empty
volume that `tfstool` makes, and `tfs_create`, `tfs_remove` and `tfs_write` keep it, whether they
succeed or fail. -/

namespace Kudos

open CInt Ownership Transition Words

/-! ## Reading a volume -/

/-- A volume: its blocks by their number in the volume. -/
abbrev Volume := BitVec 32 → Block

/-- The volume on a disk. -/
def TfsVolume.view (tfs : TfsVolume) (disk : ℕ → Block) : Volume := fun n => disk (tfs.block n)

/-- The inode number in entry `i` of the directory, 0 for a free entry. -/
def dirInode (V : Volume) (i : ℕ) : BitVec 32 := entryInode .big (V tfsDirectoryBlock) i

/-- Entry `i` of the directory is in use. -/
def Live (V : Volume) (i : ℕ) : Prop := i < tfsMaxFiles ∧ dirInode V i ≠ 0

instance (V : Volume) (i : ℕ) : Decidable (Live V i) := inferInstanceAs (Decidable (_ ∧ _))

/-- The allocation block has a mark for block `n`. -/
def isMarked (V : Volume) (n : ℕ) : Bool := bitmapGet .big (V tfsAllocationBlock) n

/-- The non-zero block numbers in a block table. -/
def blockList (inode : Block) : List (BitVec 32) :=
  ((List.range tfsBlocksMax).map (inodeBlock .big inode)).filter (· ≠ 0)

/-- The blocks of the file in entry `i`: its inode and its data blocks. -/
def fileBlocks (V : Volume) (i : ℕ) : List (BitVec 32) :=
  if Live V i then dirInode V i :: blockList (V (dirInode V i)) else []

/-- A block above the system blocks that is marked as allocated. -/
def InUse (total : ℕ) (V : Volume) (n : BitVec 32) : Prop :=
  3 ≤ n.toNat ∧ n.toNat < total ∧ isMarked V n.toNat = true

/-- The number of blocks that a file of this size needs. -/
def blocksFor (size : ℤ) : ℤ := (size + 511) / 512

/-- The block table lists as many blocks as the file size needs, and behind them only zeros. -/
structure WellShaped (inode : Block) : Prop where
  size_nonneg : 0 ≤ inodeFilesize .big inode
  fits : blocksFor (inodeFilesize .big inode) ≤ tfsBlocksMax
  listed : ∀ k < tfsBlocksMax,
    inodeBlock .big inode k ≠ 0 ↔ (k : ℤ) < blocksFor (inodeFilesize .big inode)

/-- The invariant of a volume with `total` blocks. -/
structure VolumeInvariant (total : ℕ) (V : Volume) : Prop where
  system : ∀ n < 3, isMarked V n = true
  shape : ∀ i, Live V i → WellShaped (V (dirInode V i))
  range : ∀ i, ∀ n ∈ fileBlocks V i, 3 ≤ n.toNat ∧ n.toNat < total
  owners : Exclusive (fileBlocks V) (InUse total V)
  /-- A free entry has an empty name, so no search finds it. -/
  free_name : ∀ i < tfsMaxFiles, dirInode V i = 0 → (V tfsDirectoryBlock).byte (nameOffset i) = 0

/-- What the operations rely on in a volume with `total` blocks. Blocks may be marked that no file has,
and inodes may list more blocks than the file size needs. -/
structure SoundVolume (total : ℕ) (V : Volume) : Prop where
  system : ∀ n < 3, isMarked V n = true
  range : ∀ i, ∀ n ∈ fileBlocks V i, 3 ≤ n.toNat ∧ n.toNat < total
  marked : ∀ i, ∀ n ∈ fileBlocks V i, isMarked V n.toNat = true
  /-- The inodes and data blocks of all files are different blocks. -/
  distinct : ((List.range tfsMaxFiles).flatMap (fileBlocks V)).Nodup
  table : ∀ i, Live V i → 0 ≤ inodeFilesize .big (V (dirInode V i)) ∧
    ∃ nb ≤ tfsBlocksMax, blocksFor (inodeFilesize .big (V (dirInode V i))) ≤ nb ∧
      ∀ k < tfsBlocksMax, inodeBlock .big (V (dirInode V i)) k ≠ 0 ↔ k < nb
  free_name : ∀ i < tfsMaxFiles, dirInode V i = 0 → (V tfsDirectoryBlock).byte (nameOffset i) = 0

/-! ## Blocks of the volume and blocks of the disk -/

theorem TfsVolume.block_injective (tfs : TfsVolume) {n m : BitVec 32}
    (h : tfs.block n = tfs.block m) : n = m := by
  unfold TfsVolume.block at h
  have hn := n.isLt
  have hm := m.isLt
  apply BitVec.eq_of_toNat_eq
  omega

theorem TfsVolume.view_update (tfs : TfsVolume) (d : ℕ → Block) (n : BitVec 32) (b : Block) :
    tfs.view (Function.update d (tfs.block n) b) = Function.update (tfs.view d) n b := by
  funext m
  unfold TfsVolume.view
  by_cases hm : m = n
  · rw [hm, Function.update_self, Function.update_self]
  · rw [Function.update_of_ne hm, Function.update_of_ne (fun h => hm (tfs.block_injective h))]

/-- Writes to the volume, by block numbers of the volume. -/
def volumeWrites (ws : List (BitVec 32 × Block)) (V : Volume) : Volume :=
  ws.foldl (fun V nb => Function.update V nb.1 nb.2) V

theorem view_applyWrites (tfs : TfsVolume) (ws : List (BitVec 32 × Block)) (d : ℕ → Block) :
    tfs.view (applyWrites (ws.map (fun nb => (tfs.block nb.1, nb.2))) d)
      = volumeWrites ws (tfs.view d) := by
  induction ws generalizing d with
  | nil => rfl
  | cons nb ws ih =>
      have hrest := ih (Function.update d (tfs.block nb.1) nb.2)
      rw [tfs.view_update] at hrest
      exact hrest

theorem volumeWrites_of_notMem {ws : List (BitVec 32 × Block)} {V : Volume} {n : BitVec 32}
    (h : ∀ nb ∈ ws, nb.1 ≠ n) : volumeWrites ws V n = V n := by
  induction ws generalizing V with
  | nil => rfl
  | cons nb ws ih =>
      have hrest := ih (V := Function.update V nb.1 nb.2) (fun x hx => h x (List.mem_cons_of_mem _ hx))
      rw [Function.update_of_ne (h nb (List.mem_cons_self ..)).symm] at hrest
      exact hrest

/-! ## The file table -/

section

variable {total : ℕ} {V V' : Volume}

theorem fileBlocks_of_live {i : ℕ} (h : Live V i) :
    fileBlocks V i = dirInode V i :: blockList (V (dirInode V i)) := if_pos h

theorem fileBlocks_of_not_live {i : ℕ} (h : ¬ Live V i) : fileBlocks V i = [] := if_neg h

theorem dirInode_mem_fileBlocks {i : ℕ} (h : Live V i) : dirInode V i ∈ fileBlocks V i := by
  rw [fileBlocks_of_live h]
  exact List.mem_cons_self ..

theorem mem_blockList {inode : Block} {v : BitVec 32} :
    v ∈ blockList inode ↔ (∃ k < tfsBlocksMax, inodeBlock .big inode k = v) ∧ v ≠ 0 := by
  simp [blockList]

theorem ofNat_ne_of_lt {n : BitVec 32} {m : ℕ} (hm : m < 3) (hn : 3 ≤ n.toNat) :
    n ≠ BitVec.ofNat 32 m := by
  rintro rfl
  rw [BitVec.toNat_ofNat, Nat.mod_eq_of_lt (by omega)] at hn
  omega

theorem live_of_mem_fileBlocks {i : ℕ} {n : BitVec 32} (h : n ∈ fileBlocks V i) : Live V i := by
  by_contra hlive
  rw [fileBlocks_of_not_live hlive] at h
  cases h

/-- The blocks of different files are different. -/
theorem VolumeInvariant.distinct (h : VolumeInvariant total V) :
    ((List.range tfsMaxFiles).flatMap (fileBlocks V)).Nodup := by
  rw [List.nodup_flatMap]
  refine ⟨fun i _ => h.owners.nodup i, ?_⟩
  refine List.Nodup.pairwise_of_forall_ne List.nodup_range fun i _ j _ hij => ?_
  exact fun n hn hn' => h.owners.disjoint i j hij n hn hn'

theorem WellShaped.table {inode : Block} (h : WellShaped inode) : 0 ≤ inodeFilesize .big inode ∧
    ∃ nb ≤ tfsBlocksMax, blocksFor (inodeFilesize .big inode) ≤ nb ∧
      ∀ k < tfsBlocksMax, inodeBlock .big inode k ≠ 0 ↔ k < nb := by
  obtain ⟨hsize, hfits, hlisted⟩ := h
  have hcount : 0 ≤ blocksFor (inodeFilesize .big inode) := by
    unfold blocksFor
    omega
  refine ⟨hsize, (blocksFor (inodeFilesize .big inode)).toNat, by omega, by omega, fun k hk => ?_⟩
  rw [hlisted k hk]
  omega

/-- Every consistent volume is sound. -/
theorem VolumeInvariant.sound (h : VolumeInvariant total V) : SoundVolume total V where
  system := h.system
  range := h.range
  marked _ _ hn := (h.owners.used_of_mem hn).2.2
  distinct := h.distinct
  table i hi := (h.shape i hi).table
  free_name := h.free_name

/-- A block of a file is neither the allocation block nor the directory. -/
theorem SoundVolume.ne_system (h : SoundVolume total V) {i : ℕ} {n : BitVec 32}
    (hn : n ∈ fileBlocks V i) : n ≠ tfsAllocationBlock ∧ n ≠ tfsDirectoryBlock := by
  have hlow := (h.range i n hn).1
  exact ⟨ofNat_ne_of_lt (m := 1) (by decide) hlow, ofNat_ne_of_lt (m := 2) (by decide) hlow⟩

theorem SoundVolume.nodup (h : SoundVolume total V) (i : ℕ) : (fileBlocks V i).Nodup := by
  by_cases hi : Live V i
  · exact (List.nodup_flatMap.1 h.distinct).1 i (List.mem_range.2 hi.1)
  · rw [fileBlocks_of_not_live hi]
    exact List.nodup_nil

/-- A block belongs to one file. -/
theorem SoundVolume.owner_unique (h : SoundVolume total V) {i j : ℕ} {n : BitVec 32}
    (hi : n ∈ fileBlocks V i) (hj : n ∈ fileBlocks V j) : i = j := by
  by_contra hij
  have hsymm : Std.Symm (Function.onFun List.Disjoint (fileBlocks V)) := ⟨fun _ _ hd _ hb hb' => hd hb' hb⟩
  have hdisjoint := (List.nodup_flatMap.1 h.distinct).2.forall
    (List.mem_range.2 (live_of_mem_fileBlocks hi).1) (List.mem_range.2 (live_of_mem_fileBlocks hj).1) hij
  exact hdisjoint hi hj

/-- The block table of an inode covers its file size. -/
theorem SoundVolume.covers (h : SoundVolume total V) {i : ℕ} (hi : Live V i) :
    Covers (V (dirInode V i)) := by
  intro k hk hlt
  obtain ⟨hsize, nb, hnb, hneed, hlisted⟩ := h.table i hi
  have hcount : k < blocksFor (inodeFilesize .big (V (dirInode V i))) := by
    unfold blocksFor
    omega
  exact ⟨hk, by omega, (hlisted k.toNat (by omega)).2 (by omega)⟩

/-- A file is the same as long as its entry and its inode are. -/
theorem fileBlocks_congr {i : ℕ} (hdir : dirInode V' i = dirInode V i)
    (hinode : Live V i → V' (dirInode V i) = V (dirInode V i)) : fileBlocks V' i = fileBlocks V i := by
  by_cases hlive : Live V i
  · have hlive' : Live V' i := by
      unfold Live
      rw [hdir]
      exact hlive
    rw [fileBlocks_of_live hlive, fileBlocks_of_live hlive', hdir, hinode hlive]
  · have hlive' : ¬ Live V' i := by
      unfold Live
      rw [hdir]
      exact hlive
    rw [fileBlocks_of_not_live hlive, fileBlocks_of_not_live hlive']

/-- Only the allocation block, the directory and the inodes matter. -/
theorem SoundVolume.congr (h : SoundVolume total V)
    (hbat : V' tfsAllocationBlock = V tfsAllocationBlock)
    (hmd : V' tfsDirectoryBlock = V tfsDirectoryBlock)
    (hinode : ∀ i, Live V i → V' (dirInode V i) = V (dirInode V i)) : SoundVolume total V' := by
  have hdir : ∀ i, dirInode V' i = dirInode V i := fun i => by
    unfold dirInode
    rw [hmd]
  have hlive : ∀ i, Live V' i ↔ Live V i := fun i => by
    unfold Live
    rw [hdir]
  have hblocks : ∀ i, fileBlocks V' i = fileBlocks V i := fun i => fileBlocks_congr (hdir i) (hinode i)
  have hmarked : ∀ n, isMarked V' n = isMarked V n := fun n => by
    unfold isMarked
    rw [hbat]
  refine ⟨?_, ?_, ?_, ?_, ?_, ?_⟩
  · intro n hn
    rw [hmarked]
    exact h.system n hn
  · intro i n hn
    rw [hblocks] at hn
    exact h.range i n hn
  · intro i n hn
    rw [hblocks] at hn
    rw [hmarked]
    exact h.marked i n hn
  · rw [funext hblocks]
    exact h.distinct
  · intro i hi
    rw [hdir, hinode i ((hlive i).1 hi)]
    exact h.table i ((hlive i).1 hi)
  · intro i hi hfree
    rw [hdir] at hfree
    rw [hmd]
    exact h.free_name i hi hfree

theorem VolumeInvariant.congr (h : VolumeInvariant total V)
    (hbat : V' tfsAllocationBlock = V tfsAllocationBlock)
    (hmd : V' tfsDirectoryBlock = V tfsDirectoryBlock)
    (hinode : ∀ i, Live V i → V' (dirInode V i) = V (dirInode V i)) : VolumeInvariant total V' := by
  have hs := h.sound.congr hbat hmd hinode
  have hdir : ∀ i, dirInode V' i = dirInode V i := fun i => by
    unfold dirInode
    rw [hmd]
  refine ⟨hs.system, fun i hi => ?_, hs.range, ?_, hs.free_name⟩
  · have hlive : Live V i := by
      unfold Live at hi ⊢
      rwa [hdir] at hi
    rw [hdir, hinode i hlive]
    exact h.shape i hlive
  · refine h.owners.congr (fun i => fileBlocks_congr (hdir i) (hinode i)) fun n => ?_
    unfold InUse isMarked
    rw [hbat]

end

/-! ## Block tables -/

/-- A block table with `nb` blocks and zeros behind them lists exactly these blocks. -/
theorem blockTable_split (inode : Block) {nb : ℕ} (hnb : nb ≤ tfsBlocksMax)
    (h : ∀ k < tfsBlocksMax, inodeBlock .big inode k ≠ 0 ↔ k < nb) :
    blockList inode = (List.range nb).map (inodeBlock .big inode) ∧
      listedBlocks inode 0 tfsBlocksMax = (List.range nb).map (inodeBlock .big inode) := by
  have hsplit : (List.range tfsBlocksMax).map (inodeBlock .big inode)
      = (List.range nb).map (inodeBlock .big inode)
        ++ ((List.range (tfsBlocksMax - nb)).map (nb + ·)).map (inodeBlock .big inode) := by
    rw [← List.map_append, ← List.range_add, Nat.add_sub_cancel' hnb]
  have hfront : ∀ v ∈ (List.range nb).map (inodeBlock .big inode), v ≠ 0 := by
    intro v hv
    obtain ⟨k, hk, rfl⟩ := List.mem_map.1 hv
    have hk := List.mem_range.1 hk
    exact (h k (by omega)).2 hk
  have hback : ∀ v ∈ ((List.range (tfsBlocksMax - nb)).map (nb + ·)).map (inodeBlock .big inode),
      v = 0 := by
    intro v hv
    rw [List.map_map] at hv
    obtain ⟨k, hk, rfl⟩ := List.mem_map.1 hv
    have hk := List.mem_range.1 hk
    by_contra hne
    have := (h (nb + k) (by omega)).1 hne
    omega
  constructor
  · unfold blockList
    rw [hsplit, List.filter_append, List.filter_eq_self.2 (fun v hv => by simpa using hfront v hv),
      List.filter_eq_nil_iff.2 (fun v hv => by simp [hback v hv]), List.append_nil]
  · unfold listedBlocks
    rw [← List.range_eq_range', hsplit, List.takeWhile_append_of_pos
      (fun v hv => by simpa using hfront v hv)]
    have hnone : ((List.map (inodeBlock .big inode)
        (List.map (nb + ·) (List.range (tfsBlocksMax - nb)))).takeWhile (· ≠ 0)) = [] := by
      cases hl : List.map (inodeBlock .big inode)
        (List.map (nb + ·) (List.range (tfsBlocksMax - nb))) with
      | nil => rfl
      | cons v l =>
          have := hback v (by rw [hl]; exact List.mem_cons_self ..)
          simp [this]
    rw [hnone, List.append_nil]

/-- `tfs_remove` finds all blocks of a file. -/
theorem SoundVolume.listedBlocks_eq {total : ℕ} {V : Volume} (h : SoundVolume total V) {i : ℕ}
    (hi : Live V i) :
    listedBlocks (V (dirInode V i)) 0 tfsBlocksMax = blockList (V (dirInode V i)) := by
  obtain ⟨-, nb, hnb, -, hlisted⟩ := h.table i hi
  have hsplit := blockTable_split (V (dirInode V i)) hnb hlisted
  rw [hsplit.1, hsplit.2]

section

variable {size : ℤ} {l : List ℕ}

theorem inodeFilesize_fileInode (hsize : 0 ≤ size ∧ size ≤ intMax) :
    inodeFilesize .big (fileInode size l) = size := by
  have hword : (fileInode size l).word 0 = .ofBE (BitVec.ofInt 32 size) := by
    simp [fileInode, fillBlocks, Block.word, Block.setWord]
  simp only [inodeFilesize, hword, fromBigEndian32_load, Word.toBE_ofBE, BitVec.toInt_ofInt]
  simp only [intMax] at hsize
  rw [Int.bmod_def]
  split <;> omega

theorem inodeBlock_fileInode {k : ℕ} (hk : k < tfsBlocksMax) :
    inodeBlock .big (fileInode size l) k = BitVec.ofNat 32 (l[k]?.getD 0) := by
  cases hp : l[k]? with
  | some p => exact inodeBlock_fillBlocks .big _ hk hp
  | none =>
      have hword : 1 + k < 128 := by
        simp only [tfsBlocksMax] at hk
        omega
      unfold fileInode
      rw [inodeBlock_fillBlocks_none .big _ hp]
      simp [inodeBlock, Block.word, hword, Block.setWord, Block.zero, Word.toBE]

/-- A block number of the volume that is not zero, as a word. -/
theorem ofNat_ne_zero {q : ℕ} (hq : q ≠ 0) (hq4 : q < 4096) : BitVec.ofNat 32 q ≠ 0 := by
  intro h
  have := congrArg BitVec.toNat h
  rw [BitVec.toNat_ofNat, Nat.mod_eq_of_lt (by omega)] at this
  exact hq this

theorem fileInode_block_iff (hpos : ∀ q ∈ l, q ≠ 0 ∧ q < 4096) :
    ∀ k < tfsBlocksMax, inodeBlock .big (fileInode size l) k ≠ 0 ↔ k < l.length := by
  intro k hk
  rw [inodeBlock_fileInode hk]
  by_cases hkl : k < l.length
  · have hget : l[k]? = some l[k] := List.getElem?_eq_getElem hkl
    have := hpos l[k] (List.getElem_mem hkl)
    rw [hget]
    simp only [Option.getD_some, hkl, iff_true]
    exact ofNat_ne_zero this.1 this.2
  · have hget : l[k]? = none := List.getElem?_eq_none (by omega)
    rw [hget]
    simp [hkl]

/-- The inode of a new file has the shape it should have. -/
theorem wellShaped_fileInode (hsize : 0 ≤ size ∧ size ≤ intMax) (hl : l.length ≤ tfsBlocksMax)
    (hlen : (l.length : ℤ) = blocksFor size) (hpos : ∀ q ∈ l, q ≠ 0 ∧ q < 4096) :
    WellShaped (fileInode size l) := by
  have hfile := inodeFilesize_fileInode (l := l) hsize
  refine ⟨by rw [hfile]; exact hsize.1, by rw [hfile, ← hlen]; exact_mod_cast hl, ?_⟩
  intro k hk
  rw [hfile, fileInode_block_iff hpos k hk, ← hlen]
  omega

theorem blockList_fileInode (hl : l.length ≤ tfsBlocksMax) (hpos : ∀ q ∈ l, q ≠ 0 ∧ q < 4096) :
    blockList (fileInode size l) = l.map (BitVec.ofNat 32) := by
  rw [(blockTable_split _ hl (fileInode_block_iff hpos)).1]
  refine List.ext_getElem? fun k => ?_
  by_cases hk : k < l.length
  · have hkr : k < (List.range l.length).length := by simpa using hk
    rw [List.getElem?_map, List.getElem?_map, List.getElem?_range hk, List.getElem?_eq_getElem hk]
    simp only [Option.map_some]
    rw [inodeBlock_fileInode (by omega), List.getElem?_eq_getElem hk]
    rfl
  · rw [List.getElem?_eq_none (by simpa using hk), List.getElem?_eq_none (by simpa using hk)]

/-- For a size that `tfs_create` does not reject, `numblocks` is the number of blocks the file
    needs; its `int` arithmetic overflows only for sizes that are rejected. -/
theorem createNumblocks_eq (hsize : 0 ≤ size ∧ size ≤ intMax)
    (h : createNumblocks size ≤ tfsBlocksMax) : (createNumblocks size : ℤ) = blocksFor size := by
  simp only [intMax] at hsize
  unfold createNumblocks tfsBlocksMax at *
  rw [BitVec.toNat_ofInt] at h ⊢
  by_cases hover : size + 511 ≤ 2 ^ 31 - 1
  · have hwrap : wrap32 (size + 511) = size + 511 :=
      wrap32_eq_self (by omega) (by omega)
    rw [hwrap, Int.tdiv_eq_ediv_of_nonneg (by omega)] at h ⊢
    unfold blocksFor
    omega
  · have hwrap : wrap32 (size + 511) = size + 511 - 2 ^ 32 :=
      wrap32_of_overflow (by omega) (by omega)
    rw [hwrap, tdiv_of_nonpos (by omega)] at h
    omega

end

/-! ## Directory entries -/

/-- `stringcopy` changes only words from its first to its last byte. -/
theorem word_stringcopy_of_ne {n : ℕ} (b : Block) (off : ℕ) (s : List UInt8) {k : ℕ}
    (h : k < off / 4 ∨ (off + n) / 4 < k) : (stringcopy b off n s).word k = b.word k := by
  induction n generalizing b off s with
  | zero => exact Block.word_setByte_of_ne b _ (by omega)
  | succ n ih =>
      unfold stringcopy
      split
      · exact Block.word_setByte_of_ne b _ (by omega)
      · rw [ih _ _ _ (by omega)]
        exact Block.word_setByte_of_ne b _ (by omega)

/-- A new entry changes no word of the other entries. -/
theorem word_createEntry {md : Block} {filename : List UInt8} {i p k : ℕ}
    (h : k < 5 * i ∨ 5 * i + 4 < k) : (createEntry .big md filename i p).word k = md.word k := by
  unfold createEntry
  rw [Block.word_setWord_of_ne _ _ (by omega)]
  exact word_stringcopy_of_ne md _ _ (by simp only [nameOffset, tfsFilenameMax]; omega)

theorem word_removeEntry {md : Block} {i k : ℕ} (h : k < 5 * i ∨ 5 * i + 4 < k) :
    (removeEntry .big md i).word k = md.word k := by
  unfold removeEntry
  rw [Block.word_setByte_of_ne _ _ (by simp only [nameOffset]; omega),
    Block.word_setWord_of_ne _ _ (by omega)]

/-- Entry `j` of two directories is the same. -/
def SameEntry (md md' : Block) (j : ℕ) : Prop :=
  entryInode .big md' j = entryInode .big md j ∧ md'.byte (nameOffset j) = md.byte (nameOffset j)

/-- Entries have five words each, so a change to one leaves the others alone. -/
theorem sameEntry_of_ne {md md' : Block} {i j : ℕ} (hij : j ≠ i)
    (h : ∀ k, k < 5 * i ∨ 5 * i + 4 < k → md'.word k = md.word k) : SameEntry md md' j := by
  constructor
  · unfold entryInode rawInode
    rw [h _ (by omega)]
  · unfold Block.byte
    rw [h _ (by simp only [nameOffset]; omega)]

theorem entryInode_createEntry {md : Block} {filename : List UInt8} {i p : ℕ} (hi : i < tfsMaxFiles) :
    entryInode .big (createEntry .big md filename i p) i = BitVec.ofNat 32 p := by
  simp only [tfsMaxFiles] at hi
  unfold createEntry
  rw [entryInode_setWord .big _ (by omega)]
  rfl

/-- An entry that was removed is free and has no name. -/
theorem removeEntry_free {md : Block} {i : ℕ} (hi : i < tfsMaxFiles) :
    entryInode .big (removeEntry .big md i) i = 0 ∧
      (removeEntry .big md i).byte (nameOffset i) = 0 := by
  simp only [tfsMaxFiles] at hi
  constructor
  · have hword : (removeEntry .big md i).word (5 * i) = (md.setWord (5 * i) (.store .big 0)).word (5 * i) :=
      Block.word_setByte_of_ne _ _ (by simp only [nameOffset]; omega)
    unfold entryInode rawInode
    rw [hword, Block.word_setWord_self _ (by omega), Word.load_store]
    rfl
  · unfold removeEntry
    rw [Block.byte_setByte _ (by simp only [nameOffset]; omega), if_pos rfl]

/-- A file keeps its blocks if its entry is the same and its inode is not written. -/
theorem SameEntry.fileBlocks_eq {V V' : Volume} {j : ℕ}
    (h : SameEntry (V tfsDirectoryBlock) (V' tfsDirectoryBlock) j)
    (hinode : Live V j → V' (dirInode V j) = V (dirInode V j)) : fileBlocks V' j = fileBlocks V j :=
  fileBlocks_congr h.1 hinode

/-! ## Creation -/

/-- What `tfs_create` has chosen for a file of `size` bytes when it starts to write: a free entry, and
    the first free blocks, one for the inode (`p`) and the others for the data (`l`). -/
structure CreatePlan (total : ℕ) (V : Volume) (size : ℤ) (index p : ℕ) (l : List ℕ) : Prop where
  index_lt : index < tfsMaxFiles
  entry_free : dirInode V index = 0
  length_le : l.length ≤ tfsBlocksMax
  length_eq : l.length = createNumblocks size
  first_fit : p :: l = (freeBits .big (V tfsAllocationBlock) total).take (createNumblocks size + 1)

namespace CreatePlan

variable {total : ℕ} {V : Volume} {size : ℤ} {index p : ℕ} {l : List ℕ}

theorem nodup (h : CreatePlan total V size index p l) : (p :: l).Nodup := by
  rw [h.first_fit]
  exact (freeBits_nodup .big _ _).sublist (List.take_sublist ..)

theorem fresh (h : CreatePlan total V size index p l) :
    ∀ q ∈ p :: l, q < total ∧ isMarked V q = false := by
  intro q hq
  rw [h.first_fit] at hq
  exact (mem_freeBits .big _).1 (List.mem_of_mem_take hq)

/-- The new blocks are above the system blocks, which are marked. -/
theorem fresh_range (h : CreatePlan total V size index p l) (htotal : total ≤ 4096)
    (hV : SoundVolume total V) : ∀ q ∈ p :: l, 3 ≤ q ∧ q < total ∧ q < 4096 := by
  intro q hq
  obtain ⟨hlt, hfree⟩ := h.fresh q hq
  refine ⟨?_, hlt, by omega⟩
  by_contra hlow
  rw [hV.system q (by omega)] at hfree
  cases hfree

/-- No file had one of the new blocks. -/
theorem fresh_notMem (h : CreatePlan total V size index p l) (hV : SoundVolume total V)
    {j : ℕ} {n : BitVec 32} (hn : n ∈ fileBlocks V j) : n.toNat ∉ p :: l := by
  intro hq
  have hmarked := hV.marked j n hn
  rw [(h.fresh _ hq).2] at hmarked
  cases hmarked

/-- The blocks of the new file, as words. -/
theorem mem_map_ofNat (h : CreatePlan total V size index p l) (htotal : total ≤ 4096)
    (hV : SoundVolume total V) (n : BitVec 32) :
    n ∈ (p :: l).map (BitVec.ofNat 32) ↔ n.toNat ∈ p :: l := by
  constructor
  · intro hn
    obtain ⟨q, hq, rfl⟩ := List.mem_map.1 hn
    have := h.fresh_range htotal hV q hq
    rwa [BitVec.toNat_ofNat, Nat.mod_eq_of_lt (by omega)]
  · intro hn
    exact List.mem_map.2 ⟨n.toNat, hn, by simp⟩

theorem nodup_map_ofNat (h : CreatePlan total V size index p l) (htotal : total ≤ 4096)
    (hV : SoundVolume total V) : ((p :: l).map (BitVec.ofNat 32)).Nodup := by
  refine List.Nodup.map_on ?_ h.nodup
  intro q hq r hr heq
  have hq := h.fresh_range htotal hV q hq
  have hr := h.fresh_range htotal hV r hr
  have hnat := congrArg BitVec.toNat heq
  rwa [BitVec.toNat_ofNat, BitVec.toNat_ofNat, Nat.mod_eq_of_lt (by omega),
    Nat.mod_eq_of_lt (by omega)] at hnat

/-- The marks once the allocation block is written. -/
theorem bitmapGet_iff (h : CreatePlan total V size index p l) (htotal : total ≤ 4096)
    (hV : SoundVolume total V) (n : ℕ) :
    bitmapGet .big (takeBits .big (V tfsAllocationBlock) (p :: l)) n = true
      ↔ isMarked V n = true ∨ n ∈ p :: l := by
  unfold isMarked
  rw [bitmapGet_takeBits .big _ (fun q hq => (h.fresh_range htotal hV q hq).2.2)]
  simp

end CreatePlan

/-- What a `tfs_create` has done to the volume, once the entry of the directory is written. -/
structure EntryMade (total : ℕ) (V V' : Volume) (filename : List UInt8) (size : ℤ) (index p : ℕ)
    (l : List ℕ) : Prop extends CreatePlan total V size index p l where
  bitmap : V' tfsAllocationBlock = takeBits .big (V tfsAllocationBlock) (p :: l)
  directory : V' tfsDirectoryBlock = createEntry .big (V tfsDirectoryBlock) filename index p
  other : ∀ n, n ≠ tfsAllocationBlock → n ≠ tfsDirectoryBlock → n.toNat ∉ p :: l → V' n = V n

/-- What it has done once the inode is written, too. -/
structure Created (total : ℕ) (V V' : Volume) (filename : List UInt8) (size : ℤ) (index p : ℕ)
    (l : List ℕ) : Prop extends EntryMade total V V' filename size index p l where
  inode : V' (BitVec.ofNat 32 p) = fileInode size l

namespace EntryMade

variable {total : ℕ} {V V' : Volume} {filename : List UInt8} {size : ℤ} {index p : ℕ} {l : List ℕ}

theorem dirInode_index (h : EntryMade total V V' filename size index p l) :
    dirInode V' index = BitVec.ofNat 32 p := by
  unfold dirInode
  rw [h.directory]
  exact entryInode_createEntry h.index_lt

theorem sameEntry (h : EntryMade total V V' filename size index p l) {j : ℕ} (hj : j ≠ index) :
    SameEntry (V tfsDirectoryBlock) (V' tfsDirectoryBlock) j := by
  rw [h.directory]
  exact sameEntry_of_ne hj (fun k hk => word_createEntry hk)

theorem inode_same (h : EntryMade total V V' filename size index p l) (hV : SoundVolume total V)
    {j : ℕ} (hj : Live V j) : V' (dirInode V j) = V (dirInode V j) := by
  have hmem := dirInode_mem_fileBlocks hj
  have hsys := hV.ne_system hmem
  exact h.other _ hsys.1 hsys.2 (h.fresh_notMem hV hmem)

theorem fileBlocks_other (h : EntryMade total V V' filename size index p l)
    (hV : SoundVolume total V) {j : ℕ} (hj : j ≠ index) : fileBlocks V' j = fileBlocks V j :=
  (h.sameEntry hj).fileBlocks_eq (h.inode_same hV)

theorem live_index (h : EntryMade total V V' filename size index p l) (htotal : total ≤ 4096)
    (hV : SoundVolume total V) : Live V' index := by
  have hp := h.fresh_range htotal hV p (List.mem_cons_self ..)
  refine ⟨h.index_lt, ?_⟩
  rw [h.dirInode_index]
  exact ofNat_ne_zero (by omega) hp.2.2

theorem isMarked_iff (h : EntryMade total V V' filename size index p l) (htotal : total ≤ 4096)
    (hV : SoundVolume total V) (n : ℕ) :
    isMarked V' n = true ↔ isMarked V n = true ∨ n ∈ p :: l := by
  rw [← h.bitmapGet_iff htotal hV]
  unfold isMarked
  rw [h.bitmap]

end EntryMade

namespace Created

variable {total : ℕ} {V V' : Volume} {filename : List UInt8} {size : ℤ} {index p : ℕ} {l : List ℕ}

theorem fileBlocks_index (h : Created total V V' filename size index p l) (htotal : total ≤ 4096)
    (hV : SoundVolume total V) : fileBlocks V' index = (p :: l).map (BitVec.ofNat 32) := by
  have hrange := h.fresh_range htotal hV
  rw [fileBlocks_of_live (h.live_index htotal hV), h.dirInode_index, h.inode,
    blockList_fileInode h.length_le (fun q hq => by
      have := hrange q (List.mem_cons_of_mem _ hq)
      exact ⟨by omega, this.2.2⟩)]
  rfl

theorem range (h : Created total V V' filename size index p l) (htotal : total ≤ 4096)
    (hV : SoundVolume total V) (i : ℕ) :
    ∀ n ∈ fileBlocks V' i, 3 ≤ n.toNat ∧ n.toNat < total := by
  intro n hn
  by_cases hindex : i = index
  · rw [hindex, h.fileBlocks_index htotal hV, h.mem_map_ofNat htotal hV] at hn
    have := h.fresh_range htotal hV _ hn
    exact ⟨this.1, this.2.1⟩
  · rw [h.fileBlocks_other hV hindex] at hn
    exact hV.range i n hn

/-- The new file gets blocks that nobody has, and these are marked. -/
theorem owners (h : Created total V V' filename size index p l) (htotal : total ≤ 4096)
    (hV : VolumeInvariant total V) : Exclusive (fileBlocks V') (InUse total V') := by
  refine hV.owners.give (fileBlocks_of_not_live fun hlive => hlive.2 h.entry_free)
    (h.nodup_map_ofNat htotal hV.sound) ?_ (h.fileBlocks_index htotal hV.sound)
    (fun j hj => h.fileBlocks_other hV.sound hj) ?_
  · intro n hn hused
    rw [h.mem_map_ofNat htotal hV.sound] at hn
    have hmark := hused.2.2
    rw [(h.fresh _ hn).2] at hmark
    cases hmark
  · intro n
    unfold InUse
    rw [h.isMarked_iff htotal hV.sound, h.mem_map_ofNat htotal hV.sound]
    constructor
    · rintro ⟨hlow, hlt, hold | hnew⟩
      · exact Or.inl ⟨hlow, hlt, hold⟩
      · exact Or.inr hnew
    · rintro (⟨hlow, hlt, hold⟩ | hnew)
      · exact ⟨hlow, hlt, Or.inl hold⟩
      · have := h.fresh_range htotal hV.sound _ hnew
        exact ⟨this.1, this.2.1, Or.inr hnew⟩

theorem distinct (h : Created total V V' filename size index p l) (htotal : total ≤ 4096)
    (hV : SoundVolume total V) : ((List.range tfsMaxFiles).flatMap (fileBlocks V')).Nodup := by
  have hindex := h.fileBlocks_index htotal hV
  -- an old file has none of the new blocks
  have hnew : ∀ j, j ≠ index → ∀ n ∈ fileBlocks V' index, n ∉ fileBlocks V' j := by
    intro j hj n hn hmem
    rw [hindex, h.mem_map_ofNat htotal hV] at hn
    rw [h.fileBlocks_other hV hj] at hmem
    exact h.fresh_notMem hV hmem hn
  rw [List.nodup_flatMap]
  refine ⟨fun i _ => ?_, List.nodup_range.pairwise_of_forall_ne fun i _ j _ hij n hi hj => ?_⟩
  · by_cases hi : i = index
    · rw [hi, hindex]
      exact h.nodup_map_ofNat htotal hV
    · rw [h.fileBlocks_other hV hi]
      exact hV.nodup i
  · by_cases hii : i = index
    · rw [hii] at hi hij
      exact hnew j hij.symm n hi hj
    · by_cases hjj : j = index
      · rw [hjj] at hj
        exact hnew i hii n hj hi
      · rw [h.fileBlocks_other hV hii] at hi
        rw [h.fileBlocks_other hV hjj] at hj
        exact hij (hV.owner_unique hi hj)

/-- What a live entry of the new volume is: the new file, or a file that was there before. -/
theorem live_cases (h : Created total V V' filename size index p l) (hV : SoundVolume total V) {i : ℕ}
    (hi : Live V' i) : i = index ∨
      (Live V i ∧ dirInode V' i = dirInode V i ∧ V' (dirInode V i) = V (dirInode V i)) := by
  by_cases hindex : i = index
  · exact Or.inl hindex
  · have hsame : dirInode V' i = dirInode V i := (h.sameEntry hindex).1
    have hlive : Live V i := ⟨hi.1, by rw [← hsame]; exact hi.2⟩
    exact Or.inr ⟨hlive, hsame, h.inode_same hV hlive⟩

theorem length_eq_blocksFor (h : Created total V V' filename size index p l)
    (hsize : 0 ≤ size ∧ size ≤ intMax) : (l.length : ℤ) = blocksFor size := by
  rw [h.length_eq]
  exact createNumblocks_eq hsize (by rw [← h.length_eq]; exact h.length_le)

theorem wellShaped (h : Created total V V' filename size index p l) (htotal : total ≤ 4096)
    (hV : SoundVolume total V) (hsize : 0 ≤ size ∧ size ≤ intMax) : WellShaped (fileInode size l) :=
  wellShaped_fileInode hsize h.length_le (h.length_eq_blocksFor hsize) fun q hq => by
    have := h.fresh_range htotal hV q (List.mem_cons_of_mem _ hq)
    exact ⟨by omega, this.2.2⟩

/-- **A creation leaves a sound volume.** -/
theorem sound (h : Created total V V' filename size index p l) (htotal : total ≤ 4096)
    (hV : SoundVolume total V) (hsize : 0 ≤ size ∧ size ≤ intMax) : SoundVolume total V' where
  system n hn := (h.isMarked_iff htotal hV n).2 (Or.inl (hV.system n hn))
  range := h.range htotal hV
  marked i n hn := by
    rw [h.isMarked_iff htotal hV]
    by_cases hindex : i = index
    · rw [hindex, h.fileBlocks_index htotal hV, h.mem_map_ofNat htotal hV] at hn
      exact Or.inr hn
    · rw [h.fileBlocks_other hV hindex] at hn
      exact Or.inl (hV.marked i n hn)
  distinct := h.distinct htotal hV
  table i hi := by
    rcases h.live_cases hV hi with rfl | ⟨hlive, hsame, hinode⟩
    · rw [h.dirInode_index, h.inode]
      exact (h.wellShaped htotal hV hsize).table
    · rw [hsame, hinode]
      exact hV.table i hlive
  free_name i hi hfree := by
    by_cases hindex : i = index
    · exact absurd hfree (hindex ▸ (h.live_index htotal hV).2)
    · obtain ⟨hinode, hname⟩ := h.sameEntry hindex
      rw [hname]
      refine hV.free_name i hi ?_
      unfold dirInode at hfree ⊢
      rw [← hinode, hfree]

/-- **The invariant after a creation.** -/
theorem invariant (h : Created total V V' filename size index p l) (htotal : total ≤ 4096)
    (hV : VolumeInvariant total V) (hsize : 0 ≤ size ∧ size ≤ intMax) : VolumeInvariant total V' where
  system := (h.sound htotal hV.sound hsize).system
  shape i hi := by
    rcases h.live_cases hV.sound hi with rfl | ⟨hlive, hsame, hinode⟩
    · rw [h.dirInode_index, h.inode]
      exact h.wellShaped htotal hV.sound hsize
    · rw [hsame, hinode]
      exact hV.shape i hlive
  range := h.range htotal hV.sound
  owners := h.owners htotal hV
  free_name := (h.sound htotal hV.sound hsize).free_name

end Created

/-! ## Removal -/

/-- The marks once the blocks of a file are freed. -/
theorem SoundVolume.bitmapGet_clear_iff {total : ℕ} {V : Volume} (hV : SoundVolume total V)
    (htotal : total ≤ 4096) (index n : ℕ) :
    bitmapGet .big (clearBits .big (V tfsAllocationBlock)
        ((fileBlocks V index).map BitVec.toNat)) n = true
      ↔ isMarked V n = true ∧ n ∉ (fileBlocks V index).map BitVec.toNat := by
  unfold isMarked
  rw [bitmapGet_clearBits .big _ (fun q hq => by
    obtain ⟨v, hv, rfl⟩ := List.mem_map.1 hq
    have := hV.range index v hv
    omega)]
  simp

theorem mem_map_toNat {l : List (BitVec 32)} (n : BitVec 32) :
    n.toNat ∈ l.map BitVec.toNat ↔ n ∈ l :=
  List.mem_map_of_injective (fun _ _ => BitVec.eq_of_toNat_eq)

/-- What a `tfs_remove` of the file in entry `index` has done to the volume. -/
structure Removed (V V' : Volume) (index : ℕ) : Prop where
  live : Live V index
  bitmap : V' tfsAllocationBlock
    = clearBits .big (V tfsAllocationBlock) ((fileBlocks V index).map BitVec.toNat)
  directory : V' tfsDirectoryBlock = removeEntry .big (V tfsDirectoryBlock) index
  other : ∀ n, n ≠ tfsAllocationBlock → n ≠ tfsDirectoryBlock → V' n = V n

namespace Removed

variable {total : ℕ} {V V' : Volume} {index : ℕ}

theorem entry_free (h : Removed V V' index) :
    dirInode V' index = 0 ∧ (V' tfsDirectoryBlock).byte (nameOffset index) = 0 := by
  unfold dirInode
  rw [h.directory]
  exact removeEntry_free h.live.1

theorem sameEntry (h : Removed V V' index) {j : ℕ} (hj : j ≠ index) :
    SameEntry (V tfsDirectoryBlock) (V' tfsDirectoryBlock) j := by
  rw [h.directory]
  exact sameEntry_of_ne hj (fun k hk => word_removeEntry hk)

theorem inode_same (h : Removed V V' index) (hV : SoundVolume total V) {j : ℕ} (hj : Live V j) :
    V' (dirInode V j) = V (dirInode V j) := by
  have hsys := hV.ne_system (dirInode_mem_fileBlocks hj)
  exact h.other _ hsys.1 hsys.2

theorem fileBlocks_other (h : Removed V V' index) (hV : SoundVolume total V) {j : ℕ}
    (hj : j ≠ index) : fileBlocks V' j = fileBlocks V j :=
  (h.sameEntry hj).fileBlocks_eq (h.inode_same hV)

theorem isMarked_iff (h : Removed V V' index) (htotal : total ≤ 4096) (hV : SoundVolume total V)
    (n : ℕ) : isMarked V' n = true ↔
      isMarked V n = true ∧ n ∉ (fileBlocks V index).map BitVec.toNat := by
  rw [← hV.bitmapGet_clear_iff htotal]
  unfold isMarked
  rw [h.bitmap]

/-- A live entry of the new volume is a file that was there before. -/
theorem live_of_live (h : Removed V V' index) (hV : SoundVolume total V) {i : ℕ} (hi : Live V' i) :
    i ≠ index ∧ Live V i ∧ dirInode V' i = dirInode V i ∧ V' (dirInode V i) = V (dirInode V i) := by
  have hindex : i ≠ index := by
    rintro rfl
    exact hi.2 h.entry_free.1
  have hsame : dirInode V' i = dirInode V i := (h.sameEntry hindex).1
  have hlive : Live V i := ⟨hi.1, by rw [← hsame]; exact hi.2⟩
  exact ⟨hindex, hlive, hsame, h.inode_same hV hlive⟩

theorem mem_fileBlocks (h : Removed V V' index) (hV : SoundVolume total V) {i : ℕ} {n : BitVec 32}
    (hn : n ∈ fileBlocks V' i) : i ≠ index ∧ n ∈ fileBlocks V i := by
  obtain ⟨hindex, -, -, -⟩ := h.live_of_live hV (live_of_mem_fileBlocks hn)
  rw [h.fileBlocks_other hV hindex] at hn
  exact ⟨hindex, hn⟩

/-- **A removal leaves a sound volume.** -/
theorem sound (h : Removed V V' index) (htotal : total ≤ 4096) (hV : SoundVolume total V) :
    SoundVolume total V' where
  system n hn := by
    refine (h.isMarked_iff htotal hV n).2 ⟨hV.system n hn, fun hmem => ?_⟩
    obtain ⟨v, hv, rfl⟩ := List.mem_map.1 hmem
    have := hV.range index v hv
    omega
  range i n hn := hV.range i n (h.mem_fileBlocks hV hn).2
  marked i n hn := by
    obtain ⟨hindex, hold⟩ := h.mem_fileBlocks hV hn
    rw [h.isMarked_iff htotal hV, mem_map_toNat]
    exact ⟨hV.marked i n hold, fun hmem => hindex (hV.owner_unique hold hmem)⟩
  distinct := by
    rw [List.nodup_flatMap]
    refine ⟨fun i _ => ?_, List.nodup_range.pairwise_of_forall_ne fun i _ j _ hij n hi hj => ?_⟩
    · by_cases hi : Live V' i
      · rw [h.fileBlocks_other hV (h.live_of_live hV hi).1]
        exact hV.nodup i
      · rw [fileBlocks_of_not_live hi]
        exact List.nodup_nil
    · exact hij (hV.owner_unique (h.mem_fileBlocks hV hi).2 (h.mem_fileBlocks hV hj).2)
  table i hi := by
    obtain ⟨-, hlive, hsame, hinode⟩ := h.live_of_live hV hi
    rw [hsame, hinode]
    exact hV.table i hlive
  free_name i hi hfree := by
    by_cases hindex : i = index
    · rw [hindex]
      exact h.entry_free.2
    · obtain ⟨hinode, hname⟩ := h.sameEntry hindex
      rw [hname]
      refine hV.free_name i hi ?_
      unfold dirInode at hfree ⊢
      rw [← hinode, hfree]

/-- **The invariant after a removal.** -/
theorem invariant (h : Removed V V' index) (htotal : total ≤ 4096) (hV : VolumeInvariant total V) :
    VolumeInvariant total V' where
  system := (h.sound htotal hV.sound).system
  shape i hi := by
    obtain ⟨-, hlive, hsame, hinode⟩ := h.live_of_live hV.sound hi
    rw [hsame, hinode]
    exact hV.shape i hlive
  range := (h.sound htotal hV.sound).range
  owners := by
    have hblocks : fileBlocks V' index = [] :=
      fileBlocks_of_not_live fun hlive => hlive.2 h.entry_free.1
    refine hV.owners.take hblocks (fun j hj => h.fileBlocks_other hV.sound hj) fun n => ?_
    unfold InUse
    rw [h.isMarked_iff htotal hV.sound, mem_map_toNat]
    constructor
    · rintro ⟨hlow, hlt, hold, hn⟩
      exact ⟨⟨hlow, hlt, hold⟩, hn⟩
    · rintro ⟨⟨hlow, hlt, hold⟩, hn⟩
      exact ⟨hlow, hlt, hold, hn⟩
  free_name := (h.sound htotal hV.sound).free_name

end Removed

end Kudos
