import Kudos.Fs.TfsConsistency

set_option autoImplicit false

/-! # Interrupted updates of the trivial filesystem

`tfs_create` writes the allocation block, the directory, the inode and then the data blocks, and
`tfs_remove` writes the allocation block and then the directory. A write that fails ends the call and
leaves the writes before it on the disk. Two of these half-updated volumes are not safe: a new entry
whose inode was not written yet, which shows what its block had before, and a removed file whose
entry is still there. All the others are, and in every one the other files are intact. -/

namespace Kudos

open CInt Ownership Words

/-- The blocks of the files in the entries `S` lie on the volume above the system blocks, and none of
    them belongs to two of these files. -/
structure DistinctFiles (total : ℕ) (V : Volume) (S : ℕ → Prop) : Prop where
  range : ∀ i, S i → ∀ b ∈ fileBlocks V i, 3 ≤ b.toNat ∧ b.toNat < total
  exclusive : ∀ i j, S i → S j → ∀ b ∈ fileBlocks V i, b ∈ fileBlocks V j → i = j

/-- And they are marked. -/
structure SafeFiles (total : ℕ) (V : Volume) (S : ℕ → Prop) : Prop extends
    DistinctFiles total V S where
  marked : ∀ i, S i → ∀ b ∈ fileBlocks V i, isMarked V b.toNat = true

/-- Every block that is reachable from the directory is marked, lies above the system blocks, and
    belongs to one file only. -/
def SafeVolume (total : ℕ) (V : Volume) : Prop := SafeFiles total V fun _ => True

section

variable {total : ℕ} {V V' : Volume}

theorem SafeFiles.mono {S S' : ℕ → Prop} (h : SafeFiles total V S) (hS : ∀ i, S' i → S i) :
    SafeFiles total V S' where
  marked i hi := h.marked i (hS i hi)
  range i hi := h.range i (hS i hi)
  exclusive i j hi hj := h.exclusive i j (hS i hi) (hS j hj)

theorem SafeVolume.files (h : SafeVolume total V) (S : ℕ → Prop) : SafeFiles total V S :=
  SafeFiles.mono h fun _ _ => trivial

theorem safeVolume_of_owners (hrange : ∀ i, ∀ b ∈ fileBlocks V i, 3 ≤ b.toNat ∧ b.toNat < total)
    (howners : Exclusive (fileBlocks V) (InUse total V)) : SafeVolume total V where
  marked _ _ _ hb := (howners.used_of_mem hb).2.2
  range i _ := hrange i
  exclusive _ _ _ _ _ hi hj := howners.owner_unique hi hj

theorem VolumeInvariant.safe (h : VolumeInvariant total V) : SafeVolume total V :=
  safeVolume_of_owners h.range h.owners

theorem DistinctFiles.congr {S : ℕ → Prop} (h : DistinctFiles total V S)
    (hblocks : ∀ i, S i → fileBlocks V' i = fileBlocks V i) : DistinctFiles total V' S := by
  constructor
  · intro i hi b hb
    rw [hblocks i hi] at hb
    exact h.range i hi b hb
  · intro i j hi hj b hbi hbj
    rw [hblocks i hi] at hbi
    rw [hblocks j hj] at hbj
    exact h.exclusive i j hi hj b hbi hbj

/-- Files whose blocks are the same stay safe while their marks stay. -/
theorem SafeFiles.congr {S : ℕ → Prop} (h : SafeFiles total V S)
    (hblocks : ∀ i, S i → fileBlocks V' i = fileBlocks V i)
    (hmarks : ∀ i, S i → ∀ b ∈ fileBlocks V i, isMarked V' b.toNat = true) :
    SafeFiles total V' S := by
  refine ⟨h.toDistinctFiles.congr hblocks, ?_⟩
  intro i hi b hb
  rw [hblocks i hi] at hb
  exact hmarks i hi b hb

/-- A write to the allocation block changes no file. -/
theorem fileBlocks_update_allocation (hV : VolumeInvariant total V) (bat : Block) (i : ℕ) :
    fileBlocks (Function.update V tfsAllocationBlock bat) i = fileBlocks V i := by
  have hmd : Function.update V tfsAllocationBlock bat tfsDirectoryBlock = V tfsDirectoryBlock :=
    Function.update_of_ne (by decide) ..
  refine fileBlocks_congr ?_ fun hlive => ?_
  · unfold dirInode
    rw [hmd]
  · exact Function.update_of_ne (hV.sound.ne_system (dirInode_mem_fileBlocks hlive)).1 ..

end

/-! ## Create -/

/-- The block that will be the inode of a new file of `size` bytes holds, if anything, only numbers of
    blocks that the new file gets. -/
def CleanInode (total : ℕ) (V : Volume) (size : ℤ) : Prop :=
  let free := freeBits .big (V tfsAllocationBlock) total
  ∀ b ∈ blockList (V (BitVec.ofNat 32 (free.headD 0))), b.toNat ∈ free.take (createNumblocks size + 1)

section

variable {total : ℕ} {V V' : Volume} {filename : List UInt8} {size : ℤ} {index p : ℕ} {l : List ℕ}

theorem CreatePlan.cleanInode_iff (h : CreatePlan total V size index p l) :
    CleanInode total V size ↔ ∀ b ∈ blockList (V (BitVec.ofNat 32 p)), b.toNat ∈ p :: l := by
  have hhead : (freeBits .big (V tfsAllocationBlock) total).headD 0 = p := by
    have hfit := h.first_fit
    cases hfree : freeBits .big (V tfsAllocationBlock) total with
    | nil =>
        rw [hfree] at hfit
        cases hfit
    | cons q rest =>
        rw [hfree, List.take_succ_cons] at hfit
        exact (List.cons.inj hfit).1.symm
  simp only [CleanInode, hhead, h.first_fit]

/-- The old files are safe once the entry of the new one is written. -/
theorem EntryMade.safeFiles (h : EntryMade total V V' filename size index p l)
    (htotal : total ≤ 4096) (hV : VolumeInvariant total V) : SafeFiles total V' (· ≠ index) := by
  refine (hV.safe.files _).congr (fun i hi => h.fileBlocks_other hV.sound hi) fun i _ b hb => ?_
  exact (h.isMarked_iff htotal hV.sound _).2 (Or.inl (hV.owners.used_of_mem hb).2.2)

/-- **The new entry without its inode.** The volume is safe if the old content of the inode is. -/
theorem EntryMade.safe_iff (h : EntryMade total V V' filename size index p l) (htotal : total ≤ 4096)
    (hV : VolumeInvariant total V) (hstale : V' (BitVec.ofNat 32 p) = V (BitVec.ofNat 32 p)) :
    SafeVolume total V' ↔ CleanInode total V size := by
  have hnew : fileBlocks V' index = BitVec.ofNat 32 p :: blockList (V (BitVec.ofNat 32 p)) := by
    rw [fileBlocks_of_live (h.live_index htotal hV.sound), h.dirInode_index, hstale]
  have hpmem : (BitVec.ofNat 32 p).toNat ∈ p :: l :=
    (h.mem_map_ofNat htotal hV.sound _).1 (List.mem_cons_self ..)
  rw [h.cleanInode_iff]
  constructor
  · intro hsafe b hb
    have hmem : b ∈ fileBlocks V' index := by
      rw [hnew]
      exact List.mem_cons_of_mem _ hb
    obtain ⟨hlow, hlt⟩ := hsafe.range index trivial b hmem
    rcases (h.isMarked_iff htotal hV.sound _).1 (hsafe.marked index trivial b hmem) with hold | hfresh
    · -- a block that was marked before belongs to an old file
      obtain ⟨j, hj⟩ := (hV.owners.used_iff b).1 ⟨hlow, hlt, hold⟩
      have hne : j ≠ index := by
        rintro rfl
        exact (live_of_mem_fileBlocks hj).2 h.entry_free
      rw [← h.fileBlocks_other hV.sound hne] at hj
      exact absurd (hsafe.exclusive j index trivial trivial b hj hmem) hne
    · exact hfresh
  · intro hclean
    have hfresh : ∀ b ∈ fileBlocks V' index, b.toNat ∈ p :: l := by
      intro b hb
      rw [hnew] at hb
      rcases List.mem_cons.1 hb with rfl | hb
      · exact hpmem
      · exact hclean b hb
    have hdisjoint : ∀ j, j ≠ index → ∀ b ∈ fileBlocks V' j, b ∉ fileBlocks V' index := by
      intro j hj b hb hbi
      rw [h.fileBlocks_other hV.sound hj] at hb
      exact h.fresh_notMem hV.sound hb (hfresh b hbi)
    have hold := h.safeFiles htotal hV
    refine ⟨⟨?_, ?_⟩, ?_⟩
    · intro i _ b hb
      by_cases hi : i = index
      · subst hi
        have := h.fresh_range htotal hV.sound _ (hfresh b hb)
        exact ⟨this.1, this.2.1⟩
      · exact hold.range i hi b hb
    · intro i j _ _ b hbi hbj
      by_cases hi : i = index
      · by_cases hj : j = index
        · rw [hi, hj]
        · exact absurd (hi ▸ hbi) (hdisjoint j hj b hbj)
      · by_cases hj : j = index
        · exact absurd (hj ▸ hbj) (hdisjoint i hi b hbi)
        · exact hold.exclusive i j hi hj b hbi hbj
    · intro i _ b hb
      by_cases hi : i = index
      · subst hi
        exact (h.isMarked_iff htotal hV.sound _).2 (Or.inr (hfresh b hb))
      · exact hold.marked i hi b hb

/-- Only the allocation block is written: more marks do no harm. -/
theorem CreatePlan.safe_allocation (h : CreatePlan total V size index p l) (htotal : total ≤ 4096)
    (hV : VolumeInvariant total V) :
    SafeVolume total (Function.update V tfsAllocationBlock
      (takeBits .big (V tfsAllocationBlock) (p :: l))) := by
  refine SafeFiles.congr hV.safe (fun i _ => fileBlocks_update_allocation hV _ i) fun i _ b hb => ?_
  unfold isMarked
  rw [Function.update_self]
  exact (h.bitmapGet_iff htotal hV.sound _).2 (Or.inl (hV.owners.used_of_mem hb).2.2)

/-- The allocation block and the directory are written. -/
theorem CreatePlan.entryMade (h : CreatePlan total V size index p l) (htotal : total ≤ 4096)
    (hV : VolumeInvariant total V) (filename : List UInt8) :
    EntryMade total V (volumeWrites ((createVolumeWrites V filename size index p l).take 2) V)
        filename size index p l ∧
      volumeWrites ((createVolumeWrites V filename size index p l).take 2) V (BitVec.ofNat 32 p)
        = V (BitVec.ofNat 32 p) := by
  have hother : ∀ n, n ≠ tfsAllocationBlock → n ≠ tfsDirectoryBlock →
      volumeWrites ((createVolumeWrites V filename size index p l).take 2) V n = V n := by
    intro n h1 h2
    refine volumeWrites_of_notMem ?_
    simp only [createVolumeWrites, List.take_succ_cons, List.take_zero, List.mem_cons,
      List.not_mem_nil, or_false]
    rintro nb (rfl | rfl)
    · exact h1.symm
    · exact h2.symm
  have hp := h.fresh_range htotal hV.sound p (List.mem_cons_self ..)
  have hlow : 3 ≤ (BitVec.ofNat 32 p).toNat := by
    rw [BitVec.toNat_ofNat, Nat.mod_eq_of_lt (by omega)]
    exact hp.1
  exact ⟨⟨h, rfl, rfl, fun n h1 h2 _ => hother n h1 h2⟩,
    hother _ (ofNat_ne_of_lt (m := 1) (by decide) hlow) (ofNat_ne_of_lt (m := 2) (by decide) hlow)⟩

end

/-- The volume after the first `k` writes of a call. -/
theorem view_run_writeAll (tfs : TfsVolume) (ws : List (BitVec 32 × Block)) (k : ℕ) (d : ℕ → Block) :
    tfs.view ((writeAll (ws.map (fun nb => (tfs.block nb.1, nb.2)))).run (some k) d).2
      = volumeWrites (ws.take k) (tfs.view d) := by
  rw [run_writeAll_some, ← List.map_take]
  exact view_applyWrites tfs (ws.take k) d

/-- **Create, cut short.** -/
theorem tfsCreate_interrupted (tfs : TfsVolume) {d : ℕ → Block}
    (hV : VolumeInvariant tfs.totalblocks (tfs.view d)) (filename : List UInt8) (size : ℤ) (k : ℕ) :
    (SafeVolume tfs.totalblocks
        (tfs.view ((tfsCreate .big tfs filename size).run (some k) d).2) ↔
      ¬ (k = 2 ∧ CreateAccepted tfs.totalblocks (tfs.view d) filename size ∧
        ¬ CleanInode tfs.totalblocks (tfs.view d) size)) ∧
    SafeFiles tfs.totalblocks (tfs.view ((tfsCreate .big tfs filename size).run (some k) d).2)
      (Live (tfs.view d)) := by
  have htotal := tfs.totalblocks_le
  by_cases haccepted : CreateAccepted tfs.totalblocks (tfs.view d) filename size
  · obtain ⟨index, p, l, hplan, hrun⟩ := tfsCreate_accepted tfs d haccepted
    rw [hrun, view_run_writeAll]
    have hold : ∀ i, Live (tfs.view d) i → i ≠ index := by
      rintro i hi rfl
      exact hi.2 hplan.entry_free
    -- one case for each block that can be the last one written
    rcases k with _ | _ | _ | m
    · exact ⟨iff_of_true hV.safe (fun h => by cases h.1), hV.safe.files _⟩
    · have hsafe := hplan.safe_allocation htotal hV
      exact ⟨iff_of_true hsafe (fun h => by cases h.1), hsafe.files _⟩
    · obtain ⟨hentry, hstale⟩ := hplan.entryMade htotal hV filename
      refine ⟨?_, (hentry.safeFiles htotal hV).mono hold⟩
      rw [hentry.safe_iff htotal hV hstale]
      simp [haccepted]
    · have hcreated := hplan.created htotal hV.sound filename m
      have hsafe := safeVolume_of_owners (hcreated.range htotal hV.sound) (hcreated.owners htotal hV)
      exact ⟨iff_of_true hsafe (fun h => by omega), hsafe.files _⟩
  · rw [tfsCreate_rejected tfs d haccepted]
    exact ⟨iff_of_true hV.safe (fun h => haccepted h.2.1), hV.safe.files _⟩

/-! ## Remove -/

/-- The blocks of a file are freed, but its entry is still there. -/
theorem Live.safe_freed {total : ℕ} {V V' : Volume} {index : ℕ} (hlive : Live V index)
    (htotal : total ≤ 4096) (hV : VolumeInvariant total V)
    (hV' : V' = Function.update V tfsAllocationBlock
      (clearBits .big (V tfsAllocationBlock) ((fileBlocks V index).map BitVec.toNat))) :
    ¬ SafeVolume total V' ∧ DistinctFiles total V' (fun _ => True) ∧
      SafeFiles total V' (· ≠ index) := by
  have hblocks : ∀ i, fileBlocks V' i = fileBlocks V i := by
    rw [hV']
    exact fileBlocks_update_allocation hV _
  have hmarked : ∀ n : BitVec 32, isMarked V' n.toNat = true ↔
      isMarked V n.toNat = true ∧ n ∉ fileBlocks V index := by
    intro n
    rw [← mem_map_toNat n, ← hV.sound.bitmapGet_clear_iff htotal index, hV']
    unfold isMarked
    rw [Function.update_self]
  refine ⟨?_, hV.safe.toDistinctFiles.congr (fun i _ => hblocks i), ?_⟩
  · intro hsafe
    have hmem := dirInode_mem_fileBlocks hlive
    have hmark := hsafe.marked index trivial (dirInode V index) (by rw [hblocks]; exact hmem)
    exact ((hmarked _).1 hmark).2 hmem
  · refine (hV.safe.files _).congr (fun i _ => hblocks i) fun i hi b hb => (hmarked b).2 ⟨?_, ?_⟩
    · exact (hV.owners.used_of_mem hb).2.2
    · exact fun hindex => hi (hV.owners.owner_unique hb hindex)

/-- **Remove, cut short.** -/
theorem tfsRemove_interrupted (tfs : TfsVolume) {d : ℕ → Block}
    (hV : VolumeInvariant tfs.totalblocks (tfs.view d)) (name : FileName) (k : ℕ) :
    (SafeVolume tfs.totalblocks (tfs.view ((tfsRemove .big tfs name.chars).run (some k) d).2) ↔
      ¬ (k = 1 ∧ ∃ i, findName (tfs.view d tfsDirectoryBlock) name.chars = some i)) ∧
    DistinctFiles tfs.totalblocks (tfs.view ((tfsRemove .big tfs name.chars).run (some k) d).2)
      (fun _ => True) ∧
    SafeFiles tfs.totalblocks (tfs.view ((tfsRemove .big tfs name.chars).run (some k) d).2)
      (findName (tfs.view d tfsDirectoryBlock) name.chars ≠ some ·) := by
  have htotal := tfs.totalblocks_le
  have hsafe : ∀ {V' : Volume} {c : Prop}, SafeVolume tfs.totalblocks V' → ¬ c →
      (SafeVolume tfs.totalblocks V' ↔ ¬ c) ∧ DistinctFiles tfs.totalblocks V' (fun _ => True) ∧
        SafeFiles tfs.totalblocks V' (findName (tfs.view d tfsDirectoryBlock) name.chars ≠ some ·) :=
    fun h hc => ⟨iff_of_true h hc, h.toDistinctFiles, h.files _⟩
  rcases tfsRemove_outcome tfs hV.sound name with ⟨hnone, hrun⟩ | ⟨index, hfind, hlive, hrun⟩
  · rw [hrun]
    refine hsafe hV.safe ?_
    rintro ⟨-, i, hi⟩
    rw [hnone] at hi
    cases hi
  · rw [hrun, view_run_writeAll]
    rcases k with _ | _ | m
    · exact hsafe hV.safe fun h => by cases h.1
    · obtain ⟨hbad, hdistinct, hothers⟩ := hlive.safe_freed htotal hV rfl
      refine ⟨iff_of_false hbad (fun h => h ⟨rfl, index, hfind⟩), hdistinct, hothers.mono ?_⟩
      rintro i hi rfl
      exact hi hfind
    · have hall : (removeVolumeWrites (tfs.view d) index).take (m + 2)
          = removeVolumeWrites (tfs.view d) index := List.take_of_length_le (by simp [removeVolumeWrites])
      rw [hall]
      exact hsafe (hlive.removed.invariant htotal hV).safe fun h => by omega

/-! ## Both -/

/-- **Interrupted updates.** The two half-updated volumes above are the only ones that are not safe;
    in every case the files that were there before, except for one that is being removed, are. -/
theorem tfsUpdate_interrupted (tfs : TfsVolume) {d : ℕ → Block}
    (hV : VolumeInvariant tfs.totalblocks (tfs.view d)) (name : FileName) (k : ℕ) :
    (∀ size : ℤ,
      (SafeVolume tfs.totalblocks
          (tfs.view ((tfsCreate .big tfs name.chars size).run (some k) d).2) ↔
        ¬ (k = 2 ∧ CreateAccepted tfs.totalblocks (tfs.view d) name.chars size ∧
          ¬ CleanInode tfs.totalblocks (tfs.view d) size)) ∧
      SafeFiles tfs.totalblocks
        (tfs.view ((tfsCreate .big tfs name.chars size).run (some k) d).2) (Live (tfs.view d))) ∧
    (SafeVolume tfs.totalblocks (tfs.view ((tfsRemove .big tfs name.chars).run (some k) d).2) ↔
      ¬ (k = 1 ∧ ∃ i, findName (tfs.view d tfsDirectoryBlock) name.chars = some i)) ∧
    DistinctFiles tfs.totalblocks (tfs.view ((tfsRemove .big tfs name.chars).run (some k) d).2)
      (fun _ => True) ∧
    SafeFiles tfs.totalblocks (tfs.view ((tfsRemove .big tfs name.chars).run (some k) d).2)
      (findName (tfs.view d tfsDirectoryBlock) name.chars ≠ some ·) :=
  ⟨fun size => tfsCreate_interrupted tfs hV name.chars size k, tfsRemove_interrupted tfs hV name k⟩

theorem tfsUpdate_interrupted_createdDisk :
    SafeVolume 16 ((diskVolume 16).view
      ((tfsRemove .big (diskVolume 16) nameA.chars).run (some 0) createdDisk).2) :=
  (tfsUpdate_interrupted (diskVolume 16) createdDisk_reachable.invariant nameA 0).2.1.2
    (fun h => by cases h.1)

theorem not_safeVolume_of_unmarked {total : ℕ} {V : Volume} {i : ℕ} {b : BitVec 32}
    (h : b ∈ fileBlocks V i) (hfree : isMarked V b.toNat = false) : ¬ SafeVolume total V := by
  intro hsafe
  have := hsafe.marked i trivial b h
  rw [hfree] at this
  cases this

/-- A new volume whose block 3 has the number 4 where an inode has its first block. -/
def staleDisk : ℕ → Block :=
  Function.update (tfstoolCreatevol fun _ => 0) 3 (Block.zero.setWord 1 (.ofBE 4#32))

theorem staleDisk_invariant : VolumeInvariant 16 ((diskVolume 16).view staleDisk) := by
  have hempty := volumeInvariant_tfstoolCreatevol (fun _ => 0) 16
  exact hempty.congr rfl rfl fun i hi => absurd (dirInode_of_zero rfl i) hi.2

/-- After the first write of `tfs_remove` the file in entry 24 is there, but its inode, block 3, is
    free. After the first two writes of a `tfs_create` that takes block 3 for the inode of an empty
    file, block 4 is reachable, but free. -/
theorem tfsUpdate_interrupted_unsafe :
    (VolumeInvariant 16 ((diskVolume 16).view createdDisk) ∧
      ¬ SafeVolume 16 ((diskVolume 16).view
        ((tfsRemove .big (diskVolume 16) nameA.chars).run (some 1) createdDisk).2)) ∧
    (VolumeInvariant 16 ((diskVolume 16).view staleDisk) ∧
      ¬ SafeVolume 16 ((diskVolume 16).view
        ((tfsCreate .big (diskVolume 16) nameA.chars 0).run (some 2) staleDisk).2)) := by
  refine ⟨⟨createdDisk_reachable.invariant, ?_⟩, staleDisk_invariant, ?_⟩
  · exact not_safeVolume_of_unmarked (dirInode_mem_fileBlocks (i := 24) (by decide +kernel))
      (by decide +kernel)
  · refine not_safeVolume_of_unmarked (i := 24) (b := 4#32) ?_ (by decide +kernel)
    rw [fileBlocks_of_live (by decide +kernel)]
    exact List.mem_cons_of_mem _ (mem_blockList.2 ⟨⟨0, by decide, by decide +kernel⟩, by decide⟩)

end Kudos
