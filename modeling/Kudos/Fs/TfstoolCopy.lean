import Kudos.Fs.Tfstool

set_option autoImplicit false

/-! # Files that the tool copies to an image

`tfstool_write` takes free blocks of the image, fills them from a source file and enters the file into
the directory. A source whose last block is full needs one more iteration, in which `fread` finds the
end of the file, and so one block more than its bytes; only the largest files do without it. What a
successful command has done is `Copied`. -/

namespace Kudos

open CInt Words

namespace Tfstool

/-! ## The loop of `tfstool_write` -/

/-- What the loop has done with a source file, from entry `i` of the block table on: the blocks `l`
have its bytes. -/
structure LoopWrote (numBlocks i : ℕ) (s s' : WriteState) (img img' : TfsImage) (l : List ℕ) :
    Prop where
  free : l <+: freeBits .big s.bat numBlocks
  above : ∀ q ∈ l, 2 < q
  room : s.source.length ≤ 512 * l.length
  entries : i + l.length ≤ tfsBlocksMax
  inode : s'.inode = fillBlocks s.inode i l
  size : img'.size = img.size
  other : ∀ n, n ∉ l → img'.blocks n = img.blocks n
  data : ∀ k q, l[k]? = some q → ∀ r < 512, 512 * k + r < s.source.length →
    (img'.blocks q).byte r = s.source.getD (512 * k + r) 0

section

variable {numBlocks i : ℕ} {s s' : WriteState} {img img' : TfsImage}

/-- The loop ends when nothing is left of the source. -/
theorem LoopWrote.nil (hsource : s.source = []) (hi : i ≤ tfsBlocksMax) :
    LoopWrote numBlocks i s s img img [] where
  free := List.nil_prefix
  above := nofun
  room := by simp [hsource]
  entries := by simpa using hi
  inode := (fillBlocks_nil _ _).symm
  size := rfl
  other _ _ := rfl
  data := nofun

/-- The image after an iteration that has filled the block `p`. -/
def filled (img : TfsImage) (s : WriteState) (p : ℕ) : TfsImage :=
  ⟨img.size, Function.update img.blocks p
    (s.data.blit 0 (s.source.take 512).length (fun m => s.source.getD m 0))⟩

theorem byte_filled {p r : ℕ} (hr : r < 512) (hsource : r < s.source.length) :
    ((filled img s p).blocks p).byte r = s.source.getD r 0 := by
  have hlen : r < (s.source.take 512).length := by
    rw [List.length_take]
    omega
  simp only [filled, Function.update_self]
  rw [Block.byte_blit _ _ hr, if_pos ⟨by omega, by omega⟩, Nat.sub_zero]

/-- One iteration, before what the rest of the loop does. -/
theorem LoopWrote.cons {p : ℕ} {rest l : List ℕ} (hnum : numBlocks ≤ 4096)
    (hfree : freeBits .big s.bat numBlocks = p :: rest) (hp : 2 < p)
    (h : LoopWrote numBlocks (i + 1) (s.fread (setBit .big s.bat p true) i (BitVec.ofNat 32 p)) s'
      (filled img s p) img' l) :
    LoopWrote numBlocks i s s' img img' (p :: l) := by
  have hrest : l <+: rest := by
    have hprefix := h.free
    rw [show (s.fread (setBit .big s.bat p true) i (BitVec.ofNat 32 p)).bat
      = setBit .big s.bat p true from rfl, freeBits_setBit .big _ hnum hfree] at hprefix
    exact hprefix
  have hnodup : p ∉ rest := fun hmem => Nat.lt_irrefl p (freeBits_tail .big s.bat hfree p hmem)
  have hpl : p ∉ l := fun hmem => hnodup (hrest.subset hmem)
  have hsource : (s.fread (setBit .big s.bat p true) i (BitVec.ofNat 32 p)).source
      = s.source.drop 512 := rfl
  refine ⟨?_, ?_, ?_, ?_, ?_, h.size, ?_, ?_⟩
  · rw [hfree]
    exact List.cons_prefix_cons.2 ⟨rfl, hrest⟩
  · intro q hq
    rcases List.mem_cons.1 hq with rfl | hq
    · exact hp
    · exact h.above q hq
  · have hroom := h.room
    rw [hsource, List.length_drop] at hroom
    rw [List.length_cons]
    omega
  · have hentries := h.entries
    rw [List.length_cons]
    omega
  · rw [h.inode]
    exact fillBlocks_cons s.inode p l
  · intro n hn
    rw [List.mem_cons, not_or] at hn
    rw [h.other n hn.2]
    exact Function.update_of_ne hn.1 ..
  · intro k q hq r hr hlt
    cases k with
    | zero =>
        cases hq
        rw [h.other p hpl, byte_filled hr (by omega), Nat.mul_zero, Nat.zero_add]
    | succ k =>
        have hbyte := h.data k q (by simpa using hq) r hr (by
          rw [hsource, List.length_drop]
          omega)
        rw [hbyte, hsource, List.getD_eq_getElem?_getD, List.getElem?_drop,
          ← List.getD_eq_getElem?_getD]
        congr 1
        omega

/-- An iteration that has not ended the loop with a full volume has found a free block. -/
theorem bitmapFindnset_found {bat : Block} (hnum : numBlocks ≤ 4096)
    (h : (BitVec.ofInt 32 (Kudos.bitmapFindnset .big bat numBlocks).1).toNat < numBlocks) :
    ∃ p rest, freeBits .big bat numBlocks = p :: rest ∧
      Kudos.bitmapFindnset .big bat numBlocks = ((p : ℤ), setBit .big bat p true) := by
  cases hfree : freeBits .big bat numBlocks with
  | nil =>
      rw [bitmapFindnset_of_nil .big bat hfree] at h
      have hminus : (BitVec.ofInt 32 (-1)).toNat = 4294967295 := by decide
      simp only [hminus] at h
      omega
  | cons p rest => exact ⟨p, rest, rfl, bitmapFindnset_of_cons .big bat hfree⟩

theorem toInt_numBlocks (hnum : numBlocks < 2 ^ 31) : (BitVec.ofNat 32 numBlocks).toInt = numBlocks := by
  rw [BitVec.toInt_eq_toNat_cond, BitVec.toNat_ofNat, Nat.mod_eq_of_lt (by omega),
    if_pos (by omega)]

theorem lt_of_not_max (hat : s.filesize = 512 * i) (hmax : ¬ tfsMaxFilesize ≤ s.filesize) :
    i < tfsBlocksMax := by
  simp only [tfsMaxFilesize, tfsBlockSize] at hmax
  omega

/-- An iteration that finds the block `p`. -/
theorem run_writeLoop_found (hnum : numBlocks < 2 ^ 31) (hsize : numBlocks ≤ img.size)
    (hmax : ¬ tfsMaxFilesize ≤ s.filesize) {p : ℕ} (hlow : 2 < p) (hp : p < numBlocks) (hp4 : p < 4096)
    (hfind : (bitmapFindnset s.bat numBlocks).run img = .ok ((p : ℤ), setBit .big s.bat p true) img)
    (n : ℕ) :
    let s₁ := s.fread (setBit .big s.bat p true) i (BitVec.ofNat 32 p)
    (writeLoop numBlocks (n + 1) i s).run img =
      if s.source.length < 512 then .ok (true, s₁) (filled img s p)
      else (writeLoop numBlocks n (i + 1) s₁).run (filled img s p) := by
  intro s₁
  have hnat : (BitVec.ofNat 32 p).toNat = p := toNat_ofNat_of_lt hp4
  have himg : (⟨max img.size (p + 1), Function.update img.blocks p s₁.data⟩ : TfsImage)
      = filled img s p := by
    unfold filled
    rw [Nat.max_eq_left (by omega)]
    rfl
  rw [writeLoop, if_neg hmax, EStateM.run_bind, toInt_numBlocks hnum, hfind]
  simp only
  rw [toNat_ofInt_natCast, hnat, if_pos ⟨hlow, hp⟩, EStateM.run_bind, run_writeBlock _ (by omega), hnat,
    himg]
  simp only
  split
  · rfl
  · rfl

/-- The loop of `tfstool_write`, if it comes to the end of the source. -/
theorem writeLoop_wrote (hnum : numBlocks ≤ 4096) (n : ℕ) :
    ∀ (i : ℕ) (s : WriteState) (img : TfsImage), numBlocks ≤ img.size → i ≤ tfsBlocksMax →
      s.filesize = 512 * i → s'.filesize = s.filesize + s.source.length →
      (writeLoop numBlocks n i s).run img = .ok (true, s') img' →
      ∃ l, LoopWrote numBlocks i s s' img img' l := by
  have hnum31 : numBlocks < 2 ^ 31 := by omega
  induction n with
  | zero =>
      intro i s img _ hi _ htotal hrun
      cases hrun
      exact ⟨[], .nil (List.eq_nil_of_length_eq_zero (by omega)) hi⟩
  | succ n ih =>
      intro i s img hsize hi hat htotal hrun
      by_cases hmax : tfsMaxFilesize ≤ s.filesize
      · unfold writeLoop at hrun
        rw [if_pos hmax] at hrun
        cases hrun
        exact ⟨[], .nil (List.eq_nil_of_length_eq_zero (by omega)) hi⟩
      by_cases hfound : 2 < (BitVec.ofInt 32 (Kudos.bitmapFindnset .big s.bat numBlocks).1).toNat ∧
          (BitVec.ofInt 32 (Kudos.bitmapFindnset .big s.bat numBlocks).1).toNat < numBlocks
      · obtain ⟨p, rest, hfree, hr⟩ := bitmapFindnset_found hnum hfound.2
        have hp := (freeBits_head .big s.bat hfree).1
        have hcap := lt_of_not_max hat hmax
        have hlow := hfound.1
        rw [hr, toNat_ofInt_natCast, toNat_ofNat_of_lt (by omega)] at hlow
        have hfind := run_bitmapFindnset s.bat hnum img
        rw [hr] at hfind
        rw [run_writeLoop_found hnum31 hsize hmax hlow hp (by omega) hfind] at hrun
        by_cases heof : s.source.length < 512
        · rw [if_pos heof] at hrun
          cases hrun
          refine ⟨[p], .cons hnum hfree hlow (.nil ?_ hcap)⟩
          exact List.drop_eq_nil_of_le (by omega)
        · rw [if_neg heof] at hrun
          have hsource := length_source_fread s (setBit .big s.bat p true) i (BitVec.ofNat 32 p)
          have hfilesize := filesize_fread s (setBit .big s.bat p true) i (BitVec.ofNat 32 p)
          obtain ⟨l, hl⟩ := ih (i + 1) _ (filled img s p) hsize hcap (by omega) (by omega) hrun
          exact ⟨p :: l, .cons hnum hfree hlow hl⟩
      · unfold writeLoop at hrun
        rw [if_neg hmax, EStateM.run_bind, toInt_numBlocks hnum31, run_bitmapFindnset _ hnum] at hrun
        simp only at hrun
        rw [if_neg hfound] at hrun
        cases hrun

end

/-! ## A successful write -/

/-- What a successful `tfstool_write` has done to an image: entry `index` of the directory is a file
with the inode `p` and the data blocks `l`. -/
structure Copied (img img' : TfsImage) (source target : List UInt8) (index p : ℕ) (l : List ℕ) :
    Prop where
  size : img'.size = img.size
  index_lt : index < tfsMaxFiles
  index_free : dirInode img.volume index = 0
  name_new : ∀ i < tfsMaxFiles,
    strncmpEq (img.volume tfsDirectoryBlock) (nameOffset i) tfsFilenameMax target = false
  free : p :: l <+: freeBits .big (img.volume tfsAllocationBlock) img.size
  above : ∀ q ∈ p :: l, 2 < q
  room : source.length ≤ 512 * l.length
  entries : l.length ≤ tfsBlocksMax
  directory : img'.volume tfsDirectoryBlock
    = newEntry (img.volume tfsDirectoryBlock) index (BitVec.ofNat 32 p) target
  inode : img'.blocks p
    = (fillBlocks .zero 0 l).setWord 0 (.ofBE (BitVec.ofNat 32 source.length))
  data : ∀ k q, l[k]? = some q → ∀ r < 512, 512 * k + r < source.length →
    (img'.blocks q).byte r = source.getD (512 * k + r) 0
  other : ∀ n, n ∉ p :: l → n ≠ 1 → n ≠ 2 → img'.blocks n = img.blocks n

/-- The last three writes: the inode, the directory and the allocation block. -/
def finished (img : TfsImage) (p : ℕ) (inode md bat : Block) : TfsImage :=
  ⟨img.size, Function.update (Function.update (Function.update img.blocks p inode) 2 md) 1 bat⟩

section

variable {img : TfsImage} {p : ℕ} {inode md bat : Block}

theorem finished_directory : (finished img p inode md bat).volume tfsDirectoryBlock = md := by
  have hblock : (finished img p inode md bat).volume tfsDirectoryBlock
      = Function.update (Function.update (Function.update img.blocks p inode) 2 md) 1 bat 2 := rfl
  rw [hblock, Function.update_of_ne (by decide), Function.update_self]

theorem finished_inode (hlow : 2 < p) : (finished img p inode md bat).blocks p = inode := by
  simp only [finished]
  rw [Function.update_of_ne (by omega), Function.update_of_ne (by omega), Function.update_self]

theorem finished_other {n : ℕ} (h1 : n ≠ 1) (h2 : n ≠ 2) (hp : n ≠ p) :
    (finished img p inode md bat).blocks n = img.blocks n := by
  simp only [finished]
  rw [Function.update_of_ne h1, Function.update_of_ne h2, Function.update_of_ne hp]

end

theorem run_finish (img : TfsImage) {p : ℕ} (hlow : 2 < p) (hp : p < img.size) (hp4 : p < 4096)
    (inode md bat : Block) :
    (do
      writeBlock inode (BitVec.ofNat 32 p)
      writeBlock md tfsDirectoryBlock
      writeBlock bat tfsAllocationBlock : Tfstool Unit).run img = .ok () (finished img p inode md bat) := by
  have hdir : tfsDirectoryBlock.toNat = 2 := rfl
  have halloc : tfsAllocationBlock.toNat = 1 := rfl
  have hnat := toNat_ofNat_of_lt hp4
  rw [EStateM.run_bind, run_writeBlock _ (by omega)]
  simp only
  rw [EStateM.run_bind, run_writeBlock _ (by decide)]
  simp only
  rw [run_writeBlock _ (by decide), hnat, hdir, halloc]
  unfold finished
  rw [show max (max (max img.size (p + 1)) (2 + 1)) (1 + 1) = img.size by omega]

/-- A source file that was copied, and what is written when it was. -/
theorem LoopWrote.copied {img img1 : TfsImage} {data : Block} {source target : List UInt8}
    {s' : WriteState} {index p : ℕ} {rest l : List ℕ} (hsize : img.size ≤ 4096)
    (hfree : freeBits .big (img.volume tfsAllocationBlock) img.size = p :: rest) (hlow : 2 < p)
    (h : LoopWrote img.size 0
      ⟨setBit .big (img.volume tfsAllocationBlock) p true, .zero, data, 0, source⟩ s' img img1 l)
    (hindex : index < tfsMaxFiles ∧ dirInode img.volume index = 0)
    (hnames : ∀ i < tfsMaxFiles,
      strncmpEq (img.volume tfsDirectoryBlock) (nameOffset i) tfsFilenameMax target = false) :
    Copied img (finished img1 p (s'.inode.setWord 0 (.ofBE (BitVec.ofNat 32 source.length)))
      (newEntry (img.volume tfsDirectoryBlock) index (BitVec.ofNat 32 p) target) s'.bat)
      source target index p l := by
  have hrest : l <+: rest := by
    have hprefix := h.free
    rw [freeBits_setBit .big _ hsize hfree] at hprefix
    exact hprefix
  have hpl : p ∉ l :=
    fun hmem => Nat.lt_irrefl p (freeBits_tail .big _ hfree p (hrest.subset hmem))
  refine ⟨h.size, hindex.1, hindex.2, hnames, ?_, ?_, h.room, ?_, finished_directory, ?_, ?_, ?_⟩
  · rw [hfree]
    exact List.cons_prefix_cons.2 ⟨rfl, hrest⟩
  · intro q hq
    rcases List.mem_cons.1 hq with rfl | hq
    · exact hlow
    · exact h.above q hq
  · have hentries := h.entries
    omega
  · rw [finished_inode hlow, h.inode]
  · intro k q hq r hr hlt
    have hmem : q ∈ l := List.mem_of_getElem? hq
    have habove := h.above q hmem
    rw [finished_other (by omega) (by omega) (by rintro rfl; exact hpl hmem)]
    exact h.data k q hq r hr hlt
  · intro n hn h1 h2
    rw [List.mem_cons, not_or] at hn
    rw [finished_other h1 h2 hn.1]
    exact h.other n hn.2

/-- **`tfstool_write` as a run.** -/
theorem tfstoolWrite_copied {img img' : TfsImage} {stack : Stack} {source target : List UInt8}
    (hsize : img.size ≤ 4096) (hrun : (tfstoolWrite stack source target).run img = .ok () img') :
    ∃ index p l, Copied img img' source target index p l := by
  have hnum : img.size % 2 ^ 32 = img.size := Nat.mod_eq_of_lt (by omega)
  have hdir : tfsDirectoryBlock.toNat = 2 := rfl
  have halloc : tfsAllocationBlock.toNat = 1 := rfl
  have hget : ∀ img : TfsImage, (get : Tfstool TfsImage).run img = .ok img img := fun _ => rfl
  unfold tfstoolWrite at hrun
  rw [EStateM.run_bind, run_readBlock _ (by decide), hdir] at hrun
  simp only at hrun
  generalize hmd : (if 2 < img.size then img.blocks 2 else stack.masterDir) = md at hrun
  rw [run_exitIf_bind] at hrun
  split at hrun
  · cases hrun
  next hnames =>
  cases hfind : (List.range tfsMaxFiles).find? (fun i => decide (entryInode .big md i = 0)) with
  | none =>
      rw [hfind] at hrun
      cases hrun
  | some index =>
      rw [hfind] at hrun
      simp only at hrun
      rw [EStateM.run_bind, run_readBlock _ (by decide), halloc] at hrun
      simp only at hrun
      generalize hbat : (if 1 < img.size then img.blocks 1 else stack.allocationBlock) = bat at hrun
      rw [EStateM.run_bind, hget] at hrun
      simp only [hnum] at hrun
      rw [EStateM.run_bind, toInt_numBlocks (by omega), run_bitmapFindnset _ hsize] at hrun
      simp only at hrun
      rw [run_exitIf_bind] at hrun
      split at hrun
      · cases hrun
      next hinode =>
      obtain ⟨hlow, hlt⟩ := not_not.1 hinode
      rw [hnum] at hlt
      obtain ⟨p, rest, hfree, hr⟩ := bitmapFindnset_found hsize hlt
      have hp := (freeBits_head .big bat hfree).1
      rw [hr, toNat_ofInt_natCast, toNat_ofNat_of_lt (by omega)] at hlow
      -- the image has a block above the system blocks, so these were read from it
      rw [if_pos (by omega)] at hmd hbat
      obtain ⟨⟨writeok, s'⟩, img1, hloop, hrun⟩ := run_eq_ok_bind hrun
      rw [run_exitIf_bind] at hrun
      split at hrun
      · cases hrun
      next hfilesize =>
      rw [run_exitIf_bind] at hrun
      split at hrun
      · cases hrun
      next hwriteok =>
      obtain rfl : writeok = true := by simpa using hwriteok
      have hfilesize : s'.filesize = source.length := not_not.1 hfilesize
      rw [hr] at hloop hrun
      obtain ⟨l, hl⟩ := writeLoop_wrote hsize img.size 0 _ img (le_refl _) (by decide) rfl
        (by rw [hfilesize]; exact (Nat.zero_add _).symm) hloop
      have hp1 : p < img1.size := by
        rw [hl.size]
        exact hp
      rw [toNat_ofInt_natCast, run_finish img1 hlow hp1 (by omega), hfilesize] at hrun
      cases hrun
      obtain ⟨hzero, hindex⟩ := List.find?_range_eq_some.1 hfind
      subst hmd hbat
      refine ⟨index, p, l, hl.copied hsize hfree hlow ⟨List.mem_range.1 hindex.1, ?_⟩ ?_⟩
      · exact of_decide_eq_true hzero
      · intro i hi
        by_contra hname
        exact hnames ⟨i, hi, Bool.eq_true_of_not_eq_false hname⟩

end Tfstool

end Kudos
