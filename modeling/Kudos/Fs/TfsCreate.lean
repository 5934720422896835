import Kudos.Fs.TfsArray
import Kudos.Fs.TfstoolNames
import Kudos.Lib.Stringcopy

set_option autoImplicit false

/-! # When a file can be created

`tfs_create` changes its buffers before all of its checks are made. `tfsCreate_exact` says that it
succeeds exactly if the file fits, what a success makes of the volume, and that otherwise the disk stays
as it was. -/

namespace Kudos

open CInt Tfstool Words

/-! ## The search for an entry -/

/-- Unless the name is there, the loop over the directory comes to its end. -/
theorem createIndex_isSome {e : Endian} {md : Block} {filename : List UInt8} {l : List ℕ} (idx : ℤ)
    (h : ∀ i ∈ l, stringEq md (nameOffset i) filename = false) :
    ∃ r, createIndex e md filename l idx = some r := by
  induction l generalizing idx with
  | nil => exact ⟨idx, rfl⟩
  | cons i l ih =>
      unfold createIndex
      rw [h i (List.mem_cons_self ..)]
      exact ih _ fun j hj => h j (List.mem_cons_of_mem _ hj)

/-- It has then seen a free entry, if there is one. -/
theorem createIndex_ne_neg_one {e : Endian} {md : Block} {filename : List UInt8} {l : List ℕ}
    {idx r : ℤ} (h : createIndex e md filename l idx = some r)
    (hfree : idx ≠ -1 ∨ ∃ i ∈ l, entryInode e md i = 0) : r ≠ -1 := by
  induction l generalizing idx with
  | nil =>
      cases h
      simpa using hfree
  | cons i l ih =>
      unfold createIndex at h
      split at h
      · cases h
      · refine ih h ?_
        by_cases hi : entryInode e md i = 0
        · rw [if_pos hi]
          exact Or.inl (by omega)
        · rw [if_neg hi]
          rcases hfree with hidx | ⟨j, hj, hfree⟩
          · exact Or.inl hidx
          · rcases List.mem_cons.1 hj with rfl | hj
            · exact absurd hfree hi
            · exact Or.inr ⟨j, hj, hfree⟩

/-! ## What has to hold -/

/-- The number of blocks that are not allocated. -/
def unallocated (total : ℕ) (V : Volume) : ℕ := (List.range total).countP fun p => !isMarked V p

/-- A file of this name and size fits into the volume. -/
structure Creatable (total : ℕ) (V : Volume) (name : List UInt8) (size : ℤ) : Prop where
  numblocks_le : blocksFor size ≤ 127
  new_name : ∀ i, Live V i → entryName (V tfsDirectoryBlock) i ≠ name
  free_entry : ∃ i < tfsMaxFiles, dirInode V i = 0
  room : blocksFor size + 1 ≤ unallocated total V

section

variable {total : ℕ} {V : Volume} {size : ℤ}

theorem length_freeBits (V : Volume) (total : ℕ) :
    (freeBits .big (V tfsAllocationBlock) total).length = unallocated total V :=
  List.countP_eq_length_filter.symm

/-- `numblocks` of a file that is not too large. -/
theorem createNumblocks_of_le (hsize : 0 ≤ size) (h : blocksFor size ≤ 127) :
    (createNumblocks size : ℤ) = blocksFor size := by
  unfold blocksFor at h ⊢
  have hwrap : wrap32 (size + 511) = size + 511 :=
    wrap32_eq_self (by omega) (by omega)
  unfold createNumblocks
  rw [hwrap, Int.tdiv_eq_ediv_of_nonneg (by omega), BitVec.toNat_ofInt]
  omega

/-- The kernel compares a name of at most 15 characters with the name of an entry. -/
theorem stringEq_iff_entryName (md : Block) (name : FileName) (i : ℕ) :
    stringEq md (nameOffset i) name.chars = true ↔ entryName md i = name.chars := by
  have hlen := name.length_le
  simp only [tfsFilenameMax] at hlen
  have hle : name.chars.length ≤ tfsFilenameMax := by
    simp only [tfsFilenameMax]
    omega
  rw [← strncmpEq_iff_entryName name.nonzero hle]
  exact ⟨strncmpEq_of_stringEq tfsFilenameMax, stringEq_of_strncmpEq (by simp only [tfsFilenameMax]; omega)⟩

/-- A free entry has no name that a file could have. -/
theorem SoundVolume.stringEq_free (hV : SoundVolume total V) (name : FileName) {i : ℕ}
    (hi : i < tfsMaxFiles) (hfree : dirInode V i = 0) :
    stringEq (V tfsDirectoryBlock) (nameOffset i) name.chars = false := by
  rw [Bool.eq_false_iff]
  intro heq
  rw [stringEq_iff_entryName] at heq
  have hempty : entryName (V tfsDirectoryBlock) i = [] := by
    unfold entryName
    rw [show tfsFilenameMax = 15 + 1 from rfl, cstring_succ, if_pos (hV.free_name i hi hfree)]
  exact name.nonempty (heq ▸ hempty)

/-- **The checks of `tfs_create` are the right ones.** -/
theorem SoundVolume.createAccepted_iff (hV : SoundVolume total V) (name : FileName)
    (hsize : 0 ≤ size ∧ size ≤ intMax) :
    CreateAccepted total V name.chars size ↔ Creatable total V name.chars size := by
  constructor
  · rintro ⟨hle, ⟨index, hneg, hindex⟩, hroom⟩
    have hnb := createNumblocks_eq hsize hle
    obtain ⟨hlt, hfree⟩ := createIndex_entry hindex hneg
    rw [length_freeBits] at hroom
    refine ⟨by rw [← hnb]; exact_mod_cast hle, fun i hi heq => ?_, ⟨index.toNat, hlt, hfree⟩, by omega⟩
    have hname := (createIndex_some hindex).1 i (List.mem_range.2 hi.1)
    rw [(stringEq_iff_entryName _ name i).2 heq] at hname
    cases hname
  · rintro ⟨hle, hnew, ⟨i, hi, hfree⟩, hroom⟩
    have hnb := createNumblocks_of_le hsize.1 hle
    have hnames : ∀ j ∈ List.range tfsMaxFiles,
        stringEq (V tfsDirectoryBlock) (nameOffset j) name.chars = false := by
      intro j hj
      have hj := List.mem_range.1 hj
      by_cases hlive : dirInode V j = 0
      · exact hV.stringEq_free name hj hlive
      · rw [Bool.eq_false_iff, ne_eq, stringEq_iff_entryName]
        exact hnew j ⟨hj, hlive⟩
    obtain ⟨r, hr⟩ := createIndex_isSome (e := .big) (-1) hnames
    refine ⟨?_, ⟨r, createIndex_ne_neg_one hr (Or.inr ⟨i, List.mem_range.2 hi, hfree⟩), hr⟩, ?_⟩
    · have : tfsBlocksMax = 127 := rfl
      omega
    · rw [length_freeBits]
      omega

end

/-! ## The new entry -/

/-- The terminator of an empty string. -/
theorem byte_setByte_nul (b : Block) {off : ℕ} (hoff : off < 512) (m : ℕ) : (b.setByte off 0).byte m =
    if off ≤ m ∧ m ≤ off + ([] : List UInt8).length then ([] : List UInt8).getD (m - off) 0
      else b.byte m := by
  rw [Block.byte_setByte _ hoff]
  by_cases hm : m = off
  · rw [if_pos hm, if_pos ⟨hm.ge, hm.le⟩]
    rfl
  · rw [if_neg hm, if_neg fun h => hm (Nat.le_antisymm h.2 h.1)]

/-- What the filesystem does in its directory block is this copy. -/
theorem byte_stringcopy {s : List UInt8} (hs : ∀ c ∈ s, c ≠ 0) (b : Block) {off n : ℕ} (hn : off + n < 512)
    (m : ℕ) : (stringcopy b off n s).byte m =
      if off ≤ m ∧ m ≤ off + (s.take n).length then (s.take n).getD (m - off) 0 else b.byte m := by
  induction n generalizing b off s with
  | zero =>
      unfold stringcopy
      rw [List.take_zero]
      exact byte_setByte_nul b hn m
  | succ n ih =>
      unfold stringcopy
      cases s with
      | nil =>
          rw [List.headD_nil, if_pos rfl, List.take_nil]
          exact byte_setByte_nul b (by omega) m
      | cons c s =>
          rw [List.headD_cons, if_neg (hs c (List.mem_cons_self ..)), List.tail_cons,
            ih (fun c hc => hs c (List.mem_cons_of_mem _ hc)) _ (by omega), List.take_succ_cons,
            List.length_cons]
          by_cases hin : off + 1 ≤ m ∧ m ≤ off + 1 + (s.take n).length
          · rw [if_pos hin, if_pos ⟨by omega, by omega⟩, show m - off = m - (off + 1) + 1 by omega,
              List.getD_cons_succ]
          · rw [if_neg hin, Block.byte_setByte _ (by omega)]
            by_cases hm : m = off
            · rw [if_pos hm, if_pos ⟨hm.ge, by omega⟩, hm, Nat.sub_self]
              rfl
            · rw [if_neg hm, if_neg fun h => hin ⟨by omega, by omega⟩]

/-- The copy into a block is that of `lib/libc.c` on its bytes. -/
theorem byte_stringcopy_eq (source : ByteMemory.CString) (b : Block) {off n : ℕ} (hn : off + n < 512) (m : ℕ) :
    (stringcopy b off n source.chars).byte m = stringcopyMem b.byte off source.chars (n + 1) m := by
  rw [byte_stringcopy source.nonzero b hn, stringcopy_spec source (Nat.succ_pos n), Nat.succ_sub_one]

section

variable {md : Block} {s : List UInt8} {off n : ℕ}

/-- A string that fits is read back. -/
theorem stringEq_stringcopy (hs : ∀ c ∈ s, c ≠ 0) (hlen : s.length ≤ n) (hn : off + n < 512) :
    stringEq (stringcopy md off n s) off s = true := by
  induction s generalizing md off n with
  | nil =>
      have hzero : (stringcopy md off n []).byte off = 0 := by
        cases n with
        | zero => exact (Block.byte_setByte _ (by omega) _ _).trans (if_pos rfl)
        | succ n => exact (Block.byte_setByte _ (by omega) _ _).trans (if_pos rfl)
      simp [stringEq, hzero]
  | cons c s ih =>
      have hc : c ≠ 0 := hs c (List.mem_cons_self ..)
      obtain ⟨n, rfl⟩ : ∃ m, n = m + 1 := ⟨n - 1, by rw [List.length_cons] at hlen; omega⟩
      rw [List.length_cons] at hlen
      have hrest : stringEq (stringcopy (md.setByte off c) (off + 1) n s) (off + 1) s = true :=
        ih (fun x hx => hs x (List.mem_cons_of_mem _ hx)) (by omega) (by omega)
      have hfirst : (stringcopy (md.setByte off c) (off + 1) n s).byte off = c := by
        rw [byte_stringcopy (fun x hx => hs x (List.mem_cons_of_mem _ hx)) _ (by omega), if_neg (by omega),
          Block.byte_setByte _ (by omega), if_pos rfl]
      unfold stringcopy stringEq
      simp only [List.headD_cons, List.tail_cons, hc, if_false, hfirst, hrest, decide_true,
        Bool.and_self]

end

section

variable {md : Block} {i p : ℕ}

/-- The new entry has the new name. -/
theorem stringEq_createEntry (name : FileName) (hi : i < tfsMaxFiles) :
    stringEq (createEntry .big md name.chars i p) (nameOffset i) name.chars = true := by
  have hlen := name.length_le
  simp only [tfsMaxFiles, tfsFilenameMax] at hi hlen
  have hcopy : stringEq (stringcopy md (nameOffset i) (tfsFilenameMax - 1) name.chars) (nameOffset i)
      name.chars = true :=
    stringEq_stringcopy name.nonzero name.length_le (by simp only [nameOffset, tfsFilenameMax]; omega)
  rw [← hcopy]
  unfold createEntry
  -- the block number lies before the name
  exact stringEq_congr fun k _ => Block.byte_setWord_of_ne _ _ (by simp only [nameOffset]; omega)

/-- The names of the other entries stay. -/
theorem entryName_createEntry (filename : List UInt8) {j : ℕ} (hj : j ≠ i) :
    entryName (createEntry .big md filename i p) j = entryName md j := by
  refine cstring_congr fun k hk => ?_
  simp only [tfsFilenameMax] at hk
  unfold Block.byte
  rw [word_createEntry (by simp only [nameOffset]; omega)]

end

/-! ## Success -/

/-- What a successful `tfs_create` does to the volume. -/
structure FileCreated (total : ℕ) (V V' : Volume) (name : List UInt8) (size : ℤ) (i : ℕ) : Prop where
  entry_free : dirInode V i = 0
  live : Live V' i
  found : findName (V' tfsDirectoryBlock) name = some i
  filesize : inodeFilesize .big (V' (dirInode V' i)) = size
  contents : fileContents V' i = List.replicate size.toNat 0
  /-- The blocks `l` were free and are now allocated, no others. -/
  allocated : ∃ l : List ℕ, l.Nodup ∧ (l.length : ℤ) = blocksFor size + 1 ∧
    (∀ p ∈ l, p < total ∧ isMarked V p = false) ∧
    ∀ p, isMarked V' p = true ↔ isMarked V p = true ∨ p ∈ l
  others : ∀ j, Live V j → Live V' j ∧ dirInode V' j = dirInode V j ∧
    entryName (V' tfsDirectoryBlock) j = entryName (V tfsDirectoryBlock) j ∧
    fileContents V' j = fileContents V j

/-- Blocks that are written with the same contents have it afterwards. -/
theorem volumeWrites_same {l : List (BitVec 32)} {n : BitVec 32} (h : n ∈ l) (b : Block) (V : Volume) :
    volumeWrites (l.map fun m => (m, b)) V n = b := by
  induction l generalizing V with
  | nil => cases h
  | cons m l ih =>
      by_cases hn : n ∈ l
      · exact ih hn _
      · obtain rfl : n = m := by
          rcases List.mem_cons.1 h with heq | hmem
          · exact heq
          · exact absurd hmem hn
        have hlast : volumeWrites (l.map fun m => (m, b)) (Function.update V n b) n
            = Function.update V n b n := by
          refine volumeWrites_of_notMem fun nb hnb heq => hn ?_
          obtain ⟨m, hm, rfl⟩ := List.mem_map.1 hnb
          rwa [← heq]
        exact hlast.trans (Function.update_self ..)

/-- The new data blocks are written with zeros. -/
theorem createVolumeWrites_zero (V : Volume) (filename : List UInt8) (size : ℤ) (index p : ℕ)
    {l : List ℕ} {q : ℕ} (hq : q ∈ l) :
    volumeWrites (createVolumeWrites V filename size index p l) V (BitVec.ofNat 32 q) = Block.zero := by
  have hzeros : l.map (fun q => (BitVec.ofNat 32 q, Block.zero))
      = (l.map (BitVec.ofNat 32)).map fun m => (m, Block.zero) := by
    rw [List.map_map]
    rfl
  unfold createVolumeWrites
  rw [hzeros]
  exact volumeWrites_same (List.mem_map_of_mem hq) Block.zero _

theorem Block.byte_zero (n : ℕ) : Block.zero.byte n = 0 := by
  have hword : Block.zero.word (n / 4) = ⟨0, 0, 0, 0⟩ := by simp [Block.word, Block.zero]
  have hlt : n % 4 < 4 := Nat.mod_lt _ (by decide)
  unfold Block.byte
  rw [hword]
  generalize n % 4 = r at hlt
  interval_cases r <;> rfl

namespace Created

variable {total : ℕ} {V V' : Volume} {name : FileName} {size : ℤ} {index p : ℕ} {l : List ℕ}

/-- Other files keep their blocks. -/
theorem other_blocks (h : Created total V V' name.chars size index p l) (hV : SoundVolume total V)
    {j : ℕ} {n : BitVec 32} (hn : n ∈ fileBlocks V j) : V' n = V n :=
  h.other n (hV.ne_system hn).1 (hV.ne_system hn).2 (h.fresh_notMem hV hn)

/-- A file of zeros. -/
theorem contents_zero (h : Created total V V' name.chars size index p l)
    (hsize : 0 ≤ size ∧ size ≤ intMax) (hzero : ∀ q ∈ l, V' (BitVec.ofNat 32 q) = Block.zero) :
    fileContents V' index = List.replicate size.toNat 0 := by
  have hlength := h.length_eq_blocksFor hsize
  have hfile : fileSize (fileInode size l) = size.toNat := by
    unfold fileSize
    rw [inodeFilesize_fileInode hsize]
  unfold fileContents
  rw [h.dirInode_index, h.inode, hfile]
  refine List.eq_replicate_iff.2 ⟨length_fileSlice .., fun b hb => ?_⟩
  obtain ⟨m, hm, rfl⟩ := List.mem_map.1 hb
  have hm := List.mem_range.1 hm
  have hk : (0 + m) / 512 < l.length := by
    unfold blocksFor at hlength
    omega
  have hle := h.length_le
  have hblock : inodeBlock .big (fileInode size l) ((0 + m) / 512)
      = BitVec.ofNat 32 (l[(0 + m) / 512]) := by
    rw [inodeBlock_fileInode (by omega), List.getElem?_eq_getElem hk]
    rfl
  unfold fileByte
  rw [hblock, hzero _ (List.getElem_mem hk), Block.byte_zero]

/-- **What `tfs_create` does once all is written.** -/
theorem fileCreated (h : Created total V V' name.chars size index p l) (htotal : total ≤ 4096)
    (hV : SoundVolume total V) (hsize : 0 ≤ size ∧ size ≤ intMax)
    (hnew : ∀ i, Live V i → entryName (V tfsDirectoryBlock) i ≠ name.chars)
    (hzero : ∀ q ∈ l, V' (BitVec.ofNat 32 q) = Block.zero) :
    FileCreated total V V' name.chars size index where
  entry_free := h.entry_free
  live := h.live_index htotal hV
  found := by
    have hnot : ∀ j < index, stringEq (V tfsDirectoryBlock) (nameOffset j) name.chars = false := by
      intro j hj
      have hlt := h.index_lt
      by_cases hfree : dirInode V j = 0
      · exact hV.stringEq_free name (by omega) hfree
      · rw [Bool.eq_false_iff, ne_eq, stringEq_iff_entryName]
        exact hnew j ⟨by omega, hfree⟩
    unfold findName
    rw [List.find?_range_eq_some, h.directory]
    refine ⟨stringEq_createEntry name h.index_lt, List.mem_range.2 h.index_lt, fun j hj => ?_⟩
    rw [Bool.not_eq_true', Bool.eq_false_iff, ne_eq, stringEq_iff_entryName,
      entryName_createEntry _ (Nat.ne_of_lt hj), ← stringEq_iff_entryName, hnot j hj]
    decide
  filesize := by rw [h.dirInode_index, h.inode, inodeFilesize_fileInode hsize]
  contents := h.contents_zero hsize hzero
  allocated := by
    refine ⟨p :: l, h.nodup, ?_, h.fresh, h.isMarked_iff htotal hV⟩
    rw [← h.length_eq_blocksFor hsize, List.length_cons]
    omega
  others j hj := by
    have hji : j ≠ index := by
      rintro rfl
      exact hj.2 h.entry_free
    have hdir : dirInode V' j = dirInode V j := (h.sameEntry hji).1
    refine ⟨⟨hj.1, by rw [hdir]; exact hj.2⟩, hdir, ?_, ?_⟩
    · rw [h.directory]
      exact entryName_createEntry _ hji
    · exact fileContents_congr hj (hV.covers hj) hdir fun n hn => h.other_blocks hV hn

end Created

section

variable (tfs : TfsVolume) {d : ℕ → Block} {size : ℤ}

/-- A call for a file that fits succeeds. -/
theorem tfsCreate_creatable (hV : SoundVolume tfs.totalblocks (tfs.view d)) (name : FileName)
    (hsize : 0 ≤ size ∧ size ≤ intMax)
    (h : Creatable tfs.totalblocks (tfs.view d) name.chars size) :
    ∃ d' i, (tfsCreate .big tfs name.chars size).run none d = (.ok vfsOk, d') ∧
      FileCreated tfs.totalblocks (tfs.view d) (tfs.view d') name.chars size i ∧
      SoundVolume tfs.totalblocks (tfs.view d') := by
  have htotal := tfs.totalblocks_le
  obtain ⟨index, p, l, hplan, hrun⟩ :=
    tfsCreate_accepted tfs d ((hV.createAccepted_iff name hsize).2 h)
  have hcreated := hplan.created_all htotal hV name.chars
  refine ⟨_, index, (hrun none).trans (run_writeAll_none ..), ?_, ?_⟩
  · rw [view_applyWrites]
    exact hcreated.fileCreated htotal hV hsize h.new_name fun q hq =>
      createVolumeWrites_zero _ _ _ _ _ hq
  · rw [view_applyWrites]
    exact hcreated.sound htotal hV hsize

/-- Any other call fails, and the disk stays as it was. -/
theorem tfsCreate_not_creatable (hV : SoundVolume tfs.totalblocks (tfs.view d)) (name : FileName)
    (hsize : 0 ≤ size ∧ size ≤ intMax)
    (h : ¬ Creatable tfs.totalblocks (tfs.view d) name.chars size) :
    (tfsCreate .big tfs name.chars size).run none d = (.ok vfsError, d) :=
  tfsCreate_rejected tfs d (fun haccepted => h ((hV.createAccepted_iff name hsize).1 haccepted)) none

/-- A new file is found under its name, and reads as zeros. -/
theorem FileCreated.open_read {V : Volume} {name : List UInt8} {i : ℕ}
    (h : FileCreated tfs.totalblocks V (tfs.view d) name size i)
    (hV : SoundVolume tfs.totalblocks (tfs.view d)) :
    (tfsOpen .big tfs name).run none d = (.ok (fileid (tfs.view d) i), d) ∧
    ∀ n : ℕ, (tfsRead .big tfs (fileid (tfs.view d) i) n 0).run none d
      = (.ok ((min n size.toNat : ℕ), List.replicate (min n size.toNat) 0), d) := by
  constructor
  · rw [run_tfsOpen, openResult_of_some h.found]
    rfl
  · intro n
    have hlength : (fileContents (tfs.view d) i).length = size.toNat := by
      rw [h.contents, List.length_replicate]
    have hread := tfsRead_file tfs hV h.live n (Nat.zero_le _)
    rw [hlength, Nat.sub_zero, Nat.cast_zero] at hread
    rw [hread, h.contents, List.drop_zero, List.take_replicate, Nat.min_assoc, Nat.min_self]

end

/-- **`tfs_create` succeeds if and only if the file fits.** Then `tfs_open` finds it, it has the size it
should have and reads as zeros, as many blocks as it needs and one more for its inode were free and are
now allocated, and the other files are as before. Otherwise nothing is written. -/
theorem tfsCreate_exact (tfs : TfsVolume) {d : ℕ → Block}
    (hV : SoundVolume tfs.totalblocks (tfs.view d)) (name : FileName) {size : ℤ}
    (hsize : 0 ≤ size ∧ size ≤ intMax) :
    (((tfsCreate .big tfs name.chars size).run none d).1 = .ok vfsOk ↔
      Creatable tfs.totalblocks (tfs.view d) name.chars size) ∧
    (∀ d', (tfsCreate .big tfs name.chars size).run none d = (.ok vfsOk, d') →
      ∃ i, FileCreated tfs.totalblocks (tfs.view d) (tfs.view d') name.chars size i ∧
        (tfsOpen .big tfs name.chars).run none d' = (.ok (fileid (tfs.view d') i), d') ∧
        ∀ n : ℕ, (tfsRead .big tfs (fileid (tfs.view d') i) n 0).run none d'
          = (.ok ((min n size.toNat : ℕ), List.replicate (min n size.toNat) 0), d')) ∧
    ∀ r d', (tfsCreate .big tfs name.chars size).run none d = (r, d') → r ≠ .ok vfsOk → d' = d := by
  by_cases h : Creatable tfs.totalblocks (tfs.view d) name.chars size
  · obtain ⟨d1, i, hrun, hcreated, hV1⟩ := tfsCreate_creatable tfs hV name hsize h
    rw [hrun]
    refine ⟨iff_of_true rfl h, ?_, ?_⟩
    · rintro d' heq
      obtain rfl : d1 = d' := congrArg Prod.snd heq
      exact ⟨i, hcreated, hcreated.open_read tfs hV1⟩
    · rintro r d' heq hne
      exact absurd (congrArg Prod.fst heq).symm hne
  · have hrun := tfsCreate_not_creatable tfs hV name hsize h
    have hne : (Except.ok vfsError : Except KernelFault ℤ) ≠ .ok vfsOk := fun heq =>
      absurd (Except.ok.inj heq) (by decide)
    rw [hrun]
    refine ⟨iff_of_false hne h, ?_, ?_⟩
    · rintro d' heq
      exact absurd (congrArg Prod.fst heq) hne
    · rintro r d' heq -
      exact (congrArg Prod.snd heq).symm

/-- The name `b`. -/
def nameB : FileName := ⟨[98], by decide, by decide, by simp⟩

/-- On a volume of 16 blocks with a file of two blocks there is room for nine more, and for no more than
nine. -/
theorem tfsCreate_exact_createdDisk :
    ((tfsCreate .big (diskVolume 16) nameB.chars 4608).run none createdDisk).1 = .ok vfsOk ∧
    ((tfsCreate .big (diskVolume 16) nameB.chars 4609).run none createdDisk).2 = createdDisk := by
  have hnames : ∀ i < tfsMaxFiles,
      entryName ((diskVolume 16).view createdDisk tfsDirectoryBlock) i ≠ nameB.chars := by
    decide +kernel
  have hfree : dirInode ((diskVolume 16).view createdDisk) 0 = 0 := by decide +kernel
  have hroom : unallocated (diskVolume 16).totalblocks ((diskVolume 16).view createdDisk) = 10 := by
    decide +kernel
  obtain ⟨hok, -, -⟩ :=
    tfsCreate_exact (diskVolume 16) createdDisk_sound nameB
      (show 0 ≤ (4608 : ℤ) ∧ (4608 : ℤ) ≤ intMax by decide)
  obtain ⟨hfull, -, hsame⟩ :=
    tfsCreate_exact (diskVolume 16) createdDisk_sound nameB
      (show 0 ≤ (4609 : ℤ) ∧ (4609 : ℤ) ≤ intMax by decide)
  constructor
  · exact hok.2 ⟨by decide, fun i hi => hnames i hi.1, ⟨0, by decide, hfree⟩, by rw [hroom]; decide⟩
  · refine hsame _ _ rfl fun heq => ?_
    have := (hfull.1 heq).room
    rw [hroom] at this
    exact absurd this (by decide)

end Kudos
