import Kudos.Fs.TfstoolRoom

set_option autoImplicit false

/-! # The tool on large images

The kernel uses no more than 4096 blocks of a disk, as many as the allocation block has bits. The tool
goes by the size of the image, so on a larger image its search for a free block may leave the allocation
block (`tfstoolWrite_staysInLimit_iff`). It never allocates a block that the kernel would not use. -/

namespace Kudos

open CInt Words

namespace Tfstool

/-! ## The name of the new entry -/

/-- `strncpy` copies a string up to its terminator. -/
theorem strncpy_takeWhile (s : List UInt8) (n : ℕ) (b : Block) (off : ℕ) :
    strncpy b off n (s.takeWhile (· ≠ 0)) = strncpy b off n s := by
  induction n generalizing b off s with
  | zero => rfl
  | succ n ih =>
      cases s with
      | nil => rfl
      | cons c s =>
          unfold strncpy
          by_cases hc : c = 0
          · have hnil : (c :: s).takeWhile (· ≠ 0) = [] := List.takeWhile_cons_of_neg (by simp [hc])
            rw [hnil]
            simp [hc]
          · have hcons : (c :: s).takeWhile (· ≠ 0) = c :: s.takeWhile (· ≠ 0) :=
              List.takeWhile_cons_of_pos (by simp [hc])
            rw [hcons]
            have hhead : ∀ l : List UInt8, (c :: l).headD 0 ≠ 0 := fun _ => hc
            rw [if_neg (hhead _), if_neg (hhead _)]
            exact ih s _ _

theorem newEntry_takeWhile (md : Block) (index : ℕ) (inode : BitVec 32) (target : List UInt8) :
    newEntry md index inode (target.takeWhile (· ≠ 0)) = newEntry md index inode target :=
  strncpy_takeWhile ..

theorem takeWhile_nonzero (target : List UInt8) : ∀ c ∈ target.takeWhile (· ≠ 0), c ≠ 0 :=
  fun c hc => by simpa using List.all_eq_true.1 List.all_takeWhile c hc

/-! ## The new file -/

section

variable {img img1 : TfsImage} {stack : Stack} {source target : List UInt8} {index p : ℕ} {l : List ℕ}
  {s' : WriteState} {bat : Block}

/-- The new file has the block `p` and those in `l`. -/
theorem fileBlocks_finished (hindex : index < tfsMaxFiles) (hl : l.length ≤ tfsBlocksMax)
    (hpos : ∀ q ∈ p :: l, 2 < q ∧ q < 4096) (md : Block) {inode : Block}
    (hinode : inode = fillBlocks .zero 0 l) :
    fileBlocks (finished img1 p (inode.setWord 0 (.ofBE (BitVec.ofNat 32 source.length)))
      (newEntry md index (BitVec.ofNat 32 p) target) bat).volume index
        = BitVec.ofNat 32 p :: l.map (BitVec.ofNat 32) := by
  have hp := hpos p List.mem_cons_self
  have hnat := toNat_ofNat_of_lt hp.2
  have hdir : dirInode (finished img1 p (inode.setWord 0 (.ofBE (BitVec.ofNat 32 source.length)))
      (newEntry md index (BitVec.ofNat 32 p) target) bat).volume index = BitVec.ofNat 32 p := by
    unfold dirInode
    rw [finished_directory, ← newEntry_takeWhile,
      entryInode_newEntry (takeWhile_nonzero target) hindex]
  have hne : BitVec.ofNat 32 p ≠ 0 := by
    intro hzero
    rw [hzero] at hnat
    have : (0 : BitVec 32).toNat = 0 := rfl
    omega
  have hvolume : (finished img1 p (inode.setWord 0 (.ofBE (BitVec.ofNat 32 source.length)))
      (newEntry md index (BitVec.ofNat 32 p) target) bat).volume (BitVec.ofNat 32 p)
        = fileInode source.length l := by
    unfold TfsImage.volume
    rw [hnat, finished_inode hp.1, hinode, fillBlocks_setWord]
    rfl
  have hlist : blockList (fileInode source.length l) = l.map (BitVec.ofNat 32) := by
    refine blockList_fileInode hl fun q hq => ?_
    have := hpos q (List.mem_cons_of_mem _ hq)
    exact ⟨by omega, this.2⟩
  rw [fileBlocks_of_live ⟨hindex, by rw [hdir]; exact hne⟩, hdir, hvolume, hlist]

/-- The other entries are as they were. -/
theorem dirInode_finished (hindex : index < tfsMaxFiles) {i : ℕ} (hi : i ≠ index) (md inode : Block) :
    dirInode (finished img1 p inode (newEntry md index (BitVec.ofNat 32 p) target) bat).volume i
      = entryInode .big md i := by
  unfold dirInode
  rw [finished_directory, ← newEntry_takeWhile,
    entryInode_newEntry_other (takeWhile_nonzero target) hindex hi]

end

/-! ## The limit -/

/-- The command looks at no bit behind the allocation block, and a file that it has written to the
image has no block from 4096 on. -/
structure StaysInLimit (stack : Stack) (img : TfsImage) (source target : List UInt8) : Prop where
  bits : ∀ img', (tfstoolWrite stack source target).run img ≠ .error .outOfBounds img'
  blocks : ∀ img', (tfstoolWrite stack source target).run img = .ok () img' →
    ∀ i < tfsMaxFiles, dirInode img'.volume i ≠ dirInode img.volume i →
      ∀ n ∈ fileBlocks img'.volume i, n.toNat < 4096

/-- The free bits of the allocation block that the command has. -/
def freeOf (stack : Stack) (img : TfsImage) : List ℕ :=
  freeBits .big (allocationBlock stack img) (bitLimit (numBlocks img))

section

variable {img : TfsImage} {stack : Stack} {source target : List UInt8}

/-- **The tool and the limit of 4096 blocks.** On an image of any size, the command leaves the allocation
block if and only if it comes to the search for blocks and the image goes on behind the last free bit
that it takes. -/
theorem tfstoolWrite_staysInLimit_iff (stack : Stack) (img : TfsImage) (source target : List UInt8) :
    StaysInLimit stack img source target ↔
      ¬ ((∃ index, EntryFor (masterDir stack img) target index) ∧
        RunsOver (numBlocks img) source.length (freeOf stack img)) := by
  have hnum : numBlocks img < 2 ^ 32 := Nat.mod_lt _ (by decide)
  have hsize : numBlocks img ≤ img.size := Nat.mod_le ..
  by_cases hentry : ∃ index, EntryFor (masterDir stack img) target index
  swap
  · obtain ⟨e, he, hrun⟩ := @run_tfstoolWrite_noEntry img stack source target (not_exists.1 hentry)
    refine iff_of_true ⟨fun img' h => ?_, fun img' h => ?_⟩ fun h => hentry h.1
    · rw [hrun] at h
      cases h
      exact he rfl
    · rw [hrun] at h
      cases h
  obtain ⟨index, hindex⟩ := hentry
  rcases @run_copyTo img index (numBlocks img) (masterDir stack img) (allocationBlock stack img)
    stack.data source target (freeOf stack img) hsize hnum rfl with
    ⟨hroom, -, p, rest, s', img1, hfree, htook, hrun⟩ | ⟨hover, img1, -, hrun⟩ |
    ⟨hover, -, e, img1, he, -, hrun⟩
  · rw [← run_tfstoolWrite_entry hindex] at hrun
    have hbelow : ∀ q ∈ freeOf stack img, q < 4096 := fun q hq =>
      Nat.lt_of_lt_of_le ((mem_freeBits .big _).1 hq).1 (bitLimit_le _)
    refine iff_of_true ⟨fun img' h => ?_, fun img' h i hi hne n hn => ?_⟩ fun h => ?_
    · rw [hrun] at h
      cases h
    · rw [hrun] at h
      cases h
      have hsystem := hroom.lt
      have hlimit : bitLimit (numBlocks img) ≤ numBlocks img := Nat.min_le_left ..
      obtain ⟨-, hindex'⟩ := List.find?_range_eq_some.1 hindex.2
      have hlt := List.mem_range.1 hindex'.1
      have hmem : ∀ q ∈ p :: rest.take (blocksTaken 0 source.length), q ∈ freeOf stack img := by
        intro q hq
        rw [hfree]
        rcases List.mem_cons.1 hq with rfl | hq
        · exact List.mem_cons_self
        · exact List.mem_cons_of_mem _ (List.mem_of_mem_take hq)
      have htaken : (rest.take (blocksTaken 0 source.length)).length ≤ tfsBlocksMax := by
        rw [List.length_take]
        unfold blocksTaken
        omega
      by_cases hother : i = index
      · rw [hother, fileBlocks_finished hlt htaken (fun q hq => ⟨hroom.2.1 q (hmem q hq),
          hbelow q (hmem q hq)⟩) _ htook.inode, ← List.map_cons] at hn
        obtain ⟨q, hq, rfl⟩ := List.mem_map.1 hn
        have hq4 := hbelow q (hmem q hq)
        rw [toNat_ofNat_of_lt hq4]
        exact hq4
      · rw [dirInode_finished hlt hother, masterDir_eq (by omega)] at hne
        exact absurd rfl hne
    · have hlt := hroom.2.2
      have hle := h.2.2.2.2
      omega
  · rw [← run_tfstoolWrite_entry hindex] at hrun
    exact iff_of_false (fun h => h.bits img1 hrun) fun h => h ⟨⟨index, hindex⟩, hover⟩
  · rw [← run_tfstoolWrite_entry hindex] at hrun
    refine iff_of_true ⟨fun img' h => ?_, fun img' h => ?_⟩ fun h => hover h.2
    · rw [hrun] at h
      cases h
      exact he rfl
    · rw [hrun] at h
      cases h

end

/-- An image of 4097 blocks without files. -/
def largeImage (bat : Block) : TfsImage where
  size := 4097
  blocks n := if n = 1 then bat else .zero

theorem freeOf_largeImage {bat : Block} (h : ∀ p < 4096, bitmapGet .big bat p = true) (stack : Stack) :
    freeOf stack (largeImage bat) = [] := by
  have hbat : allocationBlock stack (largeImage bat) = (largeImage bat).volume 1 :=
    allocationBlock_eq (show 1 < 4097 by decide)
  have hblock : (largeImage bat).volume 1 = bat := rfl
  unfold freeOf freeBits
  rw [hbat, hblock, List.filter_eq_nil_iff]
  intro p hp
  rw [h p (List.mem_range.1 hp)]
  exact Bool.false_ne_true

/-- If the allocation block is full, the search for an inode goes on behind it. -/
theorem largeImage_not_staysInLimit :
    ¬ StaysInLimit zeroStack (largeImage (takeBits .big .zero (List.range 4096))) [1] nameA.chars := by
  have hfull : ∀ p < 4096, bitmapGet .big (takeBits .big .zero (List.range 4096)) p = true := by
    intro p hp
    rw [bitmapGet_takeBits .big _ (fun _ hq => List.mem_range.1 hq), decide_eq_true (List.mem_range.2 hp),
      Bool.or_true]
  generalize takeBits .big .zero (List.range 4096) = bat at hfull
  have hnone := freeOf_largeImage hfull zeroStack
  intro h
  have hentry : EntryFor (masterDir zeroStack (largeImage bat)) nameA.chars 0 := by
    have hdir : (largeImage bat).volume tfsDirectoryBlock = .zero := rfl
    rw [masterDir_eq (show 2 < 4097 by decide), hdir]
    exact ⟨by decide +kernel, by decide +kernel⟩
  have hover : RunsOver (numBlocks (largeImage bat)) 1 (freeOf zeroStack (largeImage bat)) := by
    have hnum : numBlocks (largeImage bat) = 4097 := Nat.mod_eq_of_lt (show 4097 < 2 ^ 32 by decide)
    rw [hnone, hnum]
    exact ⟨by decide, by decide, nofun, Nat.zero_le _⟩
  rcases @run_copyTo (largeImage bat) 0 (numBlocks (largeImage bat)) (masterDir zeroStack (largeImage bat))
    (allocationBlock zeroStack (largeImage bat)) zeroStack.data [1] nameA.chars
    (freeOf zeroStack (largeImage bat)) (Nat.mod_le ..) (Nat.mod_lt _ (by decide)) rfl with
    ⟨hroom, -⟩ | ⟨-, img1, -, hrun⟩ | ⟨hnot, -⟩
  · have hlt := hroom.2.2
    rw [hnone] at hlt
    exact Nat.not_lt_zero _ hlt
  · rw [← run_tfstoolWrite_entry hentry] at hrun
    exact h.bits img1 hrun
  · exact hnot hover

end Tfstool

end Kudos
