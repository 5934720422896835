import Kudos.Fs.TfsSpace
import Kudos.Library.NamedFiles

set_option autoImplicit false

/-! # Listing the files of a volume

`tfs_filecount` counts the entries of the directory that are in use, and `tfs_file` goes through them to
the one with a given index. Both are here, with what a creation and a removal change in the list, and what
the files of a volume cost (`VolumeInvariant.unallocated_add_used`). -/

namespace Kudos

open CInt NamedFiles Tfstool Words

/-- `"/"`, the only directory. -/
def masterDirectory : List UInt8 := [47]

/-- `tfs_filecount`. -/
def tfsFilecount (e : Endian) (tfs : TfsVolume) (dirname : List UInt8) : TfsProc ℤ := do
  if dirname ≠ masterDirectory then return vfsNotFound
  let some md ← readBlock (tfs.block tfsDirectoryBlock) | return vfsError
  return ((List.range tfsMaxFiles).countP fun i => rawInode e md i ≠ 0 : ℕ)

/-- The loop of `tfs_file` over the directory. It returns what `stringcopy` puts into the buffer, too. -/
def fileLoop (e : Endian) (md : Block) (idx : ℤ) : List ℕ → ℤ → ℤ × List UInt8
  | [], _ => (vfsError, [])
  | i :: is, count =>
      if rawInode e md i ≠ 0 then
        if count = idx then (vfsOk, cstring md (nameOffset i) (tfsFilenameMax - 1) ++ [0])
        else fileLoop e md idx is (count + 1)
      else fileLoop e md idx is count

/-- `tfs_file`. -/
def tfsFile (e : Endian) (tfs : TfsVolume) (dirname : List UInt8) (idx : ℤ) :
    TfsProc (ℤ × List UInt8) := do
  if dirname ≠ masterDirectory ∨ idx < 0 then return (vfsError, [])
  let some md ← readBlock (tfs.block tfsDirectoryBlock) | return (vfsError, [])
  return fileLoop e md idx (List.range tfsMaxFiles) 0

/-! ## The list -/

/-- The entries in use, in the order of the directory. -/
def listing (V : Volume) : List ℕ := (List.range tfsMaxFiles).filter fun i => dirInode V i ≠ 0

theorem mem_listing {V : Volume} {i : ℕ} : i ∈ listing V ↔ Live V i := by
  unfold listing Live
  rw [List.mem_filter, List.mem_range, decide_eq_true_eq]

theorem nodup_listing (V : Volume) : (listing V).Nodup := List.nodup_range.filter _

theorem rawInode_big (V : Volume) (i : ℕ) : rawInode .big (V tfsDirectoryBlock) i = dirInode V i := rfl

/-- `tfs_filecount` as a run. -/
theorem run_tfsFilecount (tfs : TfsVolume) (dirname : List UInt8) (w : Option ℕ) (d : ℕ → Block) :
    (tfsFilecount .big tfs dirname).run w d
      = (.ok (if dirname = masterDirectory then ((listing (tfs.view d)).length : ℤ) else vfsNotFound), d) := by
  unfold tfsFilecount
  by_cases hdir : dirname = masterDirectory
  · rw [if_neg (not_not.2 hdir), if_pos hdir, run_readBlock_bind]
    unfold listing
    rw [← List.countP_eq_length_filter]
    rfl
  · rw [if_pos hdir, if_neg hdir]
    rfl

/-- The loop stops at the entry in use that has the index. -/
theorem fileLoop_eq (V : Volume) {idx : ℤ} (l : List ℕ) {count : ℤ} (hcount : count ≤ idx) :
    fileLoop .big (V tfsDirectoryBlock) idx l count
      = match (l.filter fun i => dirInode V i ≠ 0)[(idx - count).toNat]? with
        | some i => (vfsOk, cstring (V tfsDirectoryBlock) (nameOffset i) (tfsFilenameMax - 1) ++ [0])
        | none => (vfsError, []) := by
  induction l generalizing count with
  | nil => rfl
  | cons i l ih =>
      unfold fileLoop
      rw [rawInode_big]
      by_cases hlive : dirInode V i ≠ 0
      · rw [if_pos hlive, List.filter_cons_of_pos (by simpa using hlive)]
        by_cases hidx : count = idx
        · rw [if_pos hidx, hidx, Int.sub_self]
          rfl
        · have hnat : (idx - count).toNat = (idx - (count + 1)).toNat + 1 := by omega
          rw [if_neg hidx, ih (by omega), hnat, List.getElem?_cons_succ]
      · rw [if_neg hlive, List.filter_cons_of_neg (by simpa using hlive)]
        exact ih hcount

/-- What `tfs_file` returns and copies. -/
def fileResult (V : Volume) (dirname : List UInt8) (idx : ℤ) : ℤ × List UInt8 :=
  if dirname ≠ masterDirectory ∨ idx < 0 then (vfsError, [])
  else match (listing V)[idx.toNat]? with
    | some i => (vfsOk, cstring (V tfsDirectoryBlock) (nameOffset i) (tfsFilenameMax - 1) ++ [0])
    | none => (vfsError, [])

/-- `tfs_file` as a run. -/
theorem run_tfsFile (tfs : TfsVolume) (dirname : List UInt8) (idx : ℤ) (w : Option ℕ) (d : ℕ → Block) :
    (tfsFile .big tfs dirname idx).run w d = (.ok (fileResult (tfs.view d) dirname idx), d) := by
  unfold tfsFile fileResult
  by_cases hbad : dirname ≠ masterDirectory ∨ idx < 0
  · rw [if_pos hbad, if_pos hbad]
    rfl
  · rw [if_neg hbad, if_neg hbad, run_readBlock_bind]
    have hloop := @fileLoop_eq (tfs.view d) idx (List.range tfsMaxFiles) 0 (by omega)
    rw [Int.sub_zero] at hloop
    exact congrArg (fun r => (Except.ok r, d)) hloop

/-- A name of up to 15 characters is copied in full. -/
theorem cstring_eq_of_length_le {b : Block} {off m n : ℕ} (hm : m ≤ n) (h : (cstring b off n).length ≤ m) :
    cstring b off m = cstring b off n := by
  induction n generalizing off m with
  | zero => rw [Nat.le_zero.1 hm]
  | succ n ih =>
      rw [cstring_succ] at h ⊢
      cases m with
      | zero =>
          split at h
          · next hend =>
              rw [if_pos hend]
              rfl
          · exact absurd h (Nat.not_succ_le_zero _)
      | succ m =>
          rw [cstring_succ]
          split at h
          · next hend => rw [if_pos hend, if_pos hend]
          · next hchar =>
              rw [List.length_cons] at h
              rw [if_neg hchar, if_neg hchar, ih (by omega) (by omega)]

/-! ## Entries that come and go -/

/-- The numbers from below and above one of them. -/
theorem range_split {i n : ℕ} (hi : i < n) :
    List.range n = List.range i ++ i :: (List.range (n - i - 1)).map (i + 1 + ·) := by
  have hn : n = i + 1 + (n - i - 1) := by omega
  conv_lhs => rw [hn]
  rw [List.range_add, List.range_succ, List.append_assoc]
  rfl

/-- An entry that comes into use is put between the ones below and above it. -/
theorem listing_inserted {V V' : Volume} {i : ℕ} (hi : i < tfsMaxFiles) (hfree : dirInode V i = 0)
    (hlive : dirInode V' i ≠ 0) (hother : ∀ j, j ≠ i → (dirInode V' j ≠ 0 ↔ dirInode V j ≠ 0)) :
    ∃ l1 l2, listing V = l1 ++ l2 ∧ listing V' = l1 ++ i :: l2 := by
  have hsame : ∀ l : List ℕ, i ∉ l →
      (l.filter fun j => dirInode V' j ≠ 0) = l.filter fun j => dirInode V j ≠ 0 := by
    intro l hl
    refine List.filter_congr fun j hj => ?_
    have hji : j ≠ i := by
      rintro rfl
      exact hl hj
    rw [Bool.eq_iff_iff, decide_eq_true_iff, decide_eq_true_iff]
    exact hother j hji
  refine ⟨(List.range i).filter fun j => dirInode V j ≠ 0,
    ((List.range (tfsMaxFiles - i - 1)).map (i + 1 + ·)).filter fun j => dirInode V j ≠ 0, ?_, ?_⟩
  · unfold listing
    rw [range_split hi, List.filter_append, List.filter_cons_of_neg (by simpa using hfree)]
  · unfold listing
    rw [range_split hi, List.filter_append, List.filter_cons_of_pos (by simpa using hlive),
      hsame _ (by simp), hsame _ (by
        intro hmem
        obtain ⟨k, -, hk⟩ := List.mem_map.1 hmem
        omega)]

theorem entryName_removeEntry (md : Block) {i j : ℕ} (hj : j ≠ i) :
    entryName (removeEntry .big md i) j = entryName md j := by
  refine cstring_congr fun k hk => ?_
  simp only [tfsFilenameMax] at hk
  unfold Block.byte
  rw [word_removeEntry (by simp only [nameOffset]; omega)]

/-! ## Files -/

/-- What the directory and the inode say about the file in an entry. -/
def storedFile (V : Volume) (i : ℕ) : File (List UInt8) ℤ (List UInt8) where
  name := entryName (V tfsDirectoryBlock) i
  id := fileid V i
  data := fileContents V i

/-- The files of the volume in the order in which they are listed. -/
def storedFiles (V : Volume) : List (File (List UInt8) ℤ (List UInt8)) := (listing V).map (storedFile V)

theorem mem_storedFiles {V : Volume} {f : File (List UInt8) ℤ (List UInt8)} :
    f ∈ storedFiles V ↔ ∃ i, Live V i ∧ storedFile V i = f := by
  unfold storedFiles
  simp only [List.mem_map, mem_listing]

theorem length_storedFiles (V : Volume) : (storedFiles V).length = (listing V).length :=
  List.length_map ..

/-- What a volume of `total` blocks has room for. A file costs its data blocks and its inode. -/
def volumeLimits (total : ℕ) : Limits (List UInt8) where
  maxFiles := tfsMaxFiles
  capacity := total - 3
  cost data := (blocksFor data.length).toNat + 1

section

variable {total : ℕ} {V V' : Volume}

/-- As many blocks as the file costs belong to it. -/
theorem VolumeInvariant.length_fileBlocks (h : VolumeInvariant total V) {i : ℕ} (hi : Live V i) :
    (fileBlocks V i).length = (volumeLimits total).cost (storedFile V i).data := by
  obtain ⟨hsize, hfits, hlisted⟩ := h.shape i hi
  have hnat : 0 ≤ blocksFor (inodeFilesize .big (V (dirInode V i))) := by
    unfold blocksFor
    omega
  have htable : ∀ k < tfsBlocksMax, inodeBlock .big (V (dirInode V i)) k ≠ 0
      ↔ k < (blocksFor (inodeFilesize .big (V (dirInode V i)))).toNat := by
    intro k hk
    rw [hlisted k hk]
    omega
  have hcost : (volumeLimits total).cost (storedFile V i).data
      = (blocksFor (inodeFilesize .big (V (dirInode V i)))).toNat + 1 := by
    show (blocksFor (fileContents V i).length).toNat + 1 = _
    rw [length_fileContents, natCast_fileSize hsize]
  rw [fileBlocks_of_live hi, List.length_cons, (blockTable_split _ (by omega) htable).1, List.length_map,
    List.length_range, hcost]

/-- The marked blocks are the system blocks and those of the files. -/
theorem VolumeInvariant.marked_perm (h : VolumeInvariant total V) (htotal : total ≤ 4096) :
    ((List.range total).filter (isMarked V)).Perm
      (List.range (min 3 total) ++ (listing V).flatMap fun i => (fileBlocks V i).map BitVec.toNat) := by
  have hdisjoint : List.Disjoint (List.range (min 3 total))
      ((listing V).flatMap fun i => (fileBlocks V i).map BitVec.toNat) := by
    intro p hp hp'
    obtain ⟨i, -, hi⟩ := List.mem_flatMap.1 hp'
    obtain ⟨n, hn, rfl⟩ := List.mem_map.1 hi
    have hlow := (h.range i n hn).1
    have hp := List.mem_range.1 hp
    omega
  have hnodup : ((listing V).flatMap fun i => (fileBlocks V i).map BitVec.toNat).Nodup := by
    rw [List.nodup_flatMap]
    refine ⟨fun i _ => ?_, ?_⟩
    · exact (h.owners.nodup i).map fun _ _ => BitVec.eq_of_toNat_eq
    · refine List.Nodup.pairwise_of_forall_ne (nodup_listing V) fun i _ j _ hij p hp hp' => ?_
      obtain ⟨n, hn, rfl⟩ := List.mem_map.1 hp
      exact h.owners.disjoint i j hij n hn ((mem_map_toNat n).1 hp')
  refine (List.perm_ext_iff_of_nodup (List.nodup_range.filter _)
    (List.nodup_range.append hnodup hdisjoint)).2 fun p => ?_
  rw [List.mem_filter, List.mem_range, List.mem_append, List.mem_range, List.mem_flatMap]
  constructor
  · rintro ⟨hlt, hmark⟩
    by_cases hlow : p < 3
    · exact Or.inl (by omega)
    · have hnat : (BitVec.ofNat 32 p).toNat = p := by
        rw [BitVec.toNat_ofNat, Nat.mod_eq_of_lt (by omega)]
      have huse : InUse total V (BitVec.ofNat 32 p) := by
        unfold InUse
        rw [hnat]
        exact ⟨by omega, hlt, hmark⟩
      obtain ⟨i, hi⟩ := (h.owners.used_iff _).1 huse
      refine Or.inr ⟨i, mem_listing.2 (live_of_mem_fileBlocks hi), ?_⟩
      rw [← hnat]
      exact List.mem_map_of_mem hi
  · rintro (hlow | ⟨i, -, hi⟩)
    · exact ⟨by omega, h.system p (by omega)⟩
    · obtain ⟨n, hn, rfl⟩ := List.mem_map.1 hi
      have huse := h.owners.used_of_mem hn
      exact ⟨huse.2.1, huse.2.2⟩

/-- **The free blocks are those that no file costs.** -/
theorem VolumeInvariant.unallocated_add_used (h : VolumeInvariant total V) (htotal : total ≤ 4096) :
    unallocated total V + used (volumeLimits total) (storedFiles V) = total - 3 := by
  have hcost : ((listing V).flatMap fun i => (fileBlocks V i).map BitVec.toNat).length
      = used (volumeLimits total) (storedFiles V) := by
    unfold used storedFiles
    rw [List.length_flatMap, List.map_map]
    refine congrArg List.sum (List.map_congr_left fun i hi => ?_)
    rw [List.length_map]
    exact h.length_fileBlocks (mem_listing.1 hi)
  have hmarked := (h.marked_perm htotal).length_eq
  rw [List.length_append, List.length_range, hcost, ← List.countP_eq_length_filter] at hmarked
  have hsplit := List.length_eq_countP_add_countP (isMarked V) (l := List.range total)
  rw [List.length_range] at hsplit
  have hfree : unallocated total V = (List.range total).countP fun p => decide ¬ isMarked V p = true := by
    unfold unallocated
    refine List.countP_congr fun p _ => ?_
    simp
  omega

end

end Kudos
