import Kudos.Fs.TfstoolAgreement

set_option autoImplicit false

/-! # Which files the tool can copy

`tfstool_write` looks for a block before it reads from the source, and `feof` tells it about the end of
the file only after a read that has got too little. So it takes `blocksTaken` blocks for the data, one
more than the kernel would when the last block is full (`tfstoolWrite_fits_iff`). How the loop ends
depends on the free bits that are left (`run_writeLoop`). -/

namespace Kudos

open CInt Words

namespace Tfstool

/-! ## The search for a free block -/

/-- The bits that the tool may look at: those of the volume, and of the allocation block. -/
def bitLimit (numBlocks : ℕ) : ℕ := min numBlocks 4096

/-- The search finds the first free bit of the allocation block, if there is one. If there is none, it
goes on behind the block as long as the volume does. -/
theorem run_bitmapFindnset_limit (b : Block) (l : ℕ) (img : TfsImage) :
    (bitmapFindnset b l).run img =
      match freeBits .big b (bitLimit l) with
      | p :: _ => .ok ((p : ℤ), setBit .big b p true) img
      | [] => if l ≤ 4096 then .ok (-1, b) img else .error .outOfBounds img := by
  by_cases hl : l ≤ 4096
  · rw [run_bitmapFindnset b hl, bitLimit, Nat.min_eq_left hl, if_pos hl]
    cases hfree : freeBits .big b l with
    | nil => rw [bitmapFindnset_of_nil .big b hfree]
    | cons p rest => rw [bitmapFindnset_of_cons .big b hfree]
  · rw [bitLimit, Nat.min_eq_right (by omega), if_neg hl]
    unfold bitmapFindnset
    rw [Int.toNat_natCast]
    cases hfree : freeBits .big b 4096 with
    | nil =>
        have hnone : ∀ i < 4096, bitmapGet .big b i = true := by
          intro i hi
          by_contra hget
          have hmem := (mem_freeBits .big b).2 ⟨hi, Bool.eq_false_of_not_eq_true hget⟩
          rw [hfree] at hmem
          cases hmem
        have hfind : (List.range l).find? (fun i => decide (4096 ≤ i) || !bitmapGet .big b i)
            = some 4096 := by
          rw [List.find?_range_eq_some]
          refine ⟨rfl, List.mem_range.2 (by omega), fun i hi => ?_⟩
          simp [hnone i hi, hi]
        rw [hfind]
        rfl
    | cons p rest =>
        have hp := freeBits_head .big b hfree
        have hfirst : ∀ i < p, bitmapGet .big b i = true := by
          intro i hi
          by_contra hget
          have hmem := (mem_freeBits .big b).2
            ⟨show i < 4096 by omega, Bool.eq_false_of_not_eq_true hget⟩
          rw [hfree] at hmem
          rcases List.mem_cons.1 hmem with heq | hmem
          · omega
          · have := freeBits_tail .big b hfree i hmem
            omega
        have hfind : (List.range l).find? (fun i => decide (4096 ≤ i) || !bitmapGet .big b i)
            = some p := by
          rw [List.find?_range_eq_some]
          refine ⟨by simp [hp.2], List.mem_range.2 (by omega), fun i hi => ?_⟩
          simp [hfirst i hi]
          omega
        rw [hfind]
        simp only
        rw [if_neg (by omega)]
        rfl

/-! ## The loop -/

/-- How many iterations the loop makes from entry `i` on, if there is room for them. -/
def blocksTaken (i length : ℕ) : ℕ := min (tfsBlocksMax - i) (length / 512 + 1)

/-- What the loop has done with the blocks `l`. -/
structure LoopTook (lim i : ℕ) (s s' : WriteState) (img img' : TfsImage) (l : List ℕ) : Prop where
  free : freeBits .big s.bat lim = l ++ freeBits .big s'.bat lim
  inode : s'.inode = fillBlocks s.inode i l
  filesize : s'.filesize = s.filesize + min s.source.length (512 * l.length)
  size : img'.size = img.size
  other : ∀ n, n ∉ l → img'.blocks n = img.blocks n

section

variable {numBlocks i : ℕ} {s s' : WriteState} {img img' : TfsImage}

theorem LoopTook.nil (lim i : ℕ) (s : WriteState) (img : TfsImage) : LoopTook lim i s s img img [] where
  free := rfl
  inode := (fillBlocks_nil _ _).symm
  filesize := by simp
  size := rfl
  other _ _ := rfl

/-- A full iteration, before what the rest of the loop does. -/
theorem LoopTook.cons {lim p : ℕ} {rest l : List ℕ} (hlim : lim ≤ 4096)
    (hfree : freeBits .big s.bat lim = p :: rest)
    (hfull : 512 ≤ s.source.length ∨ l = [])
    (h : LoopTook lim (i + 1) (s.fread (setBit .big s.bat p true) i (BitVec.ofNat 32 p)) s'
      (filled img s p) img' l) : LoopTook lim i s s' img img' (p :: l) where
  free := by
    have hrest := h.free
    rw [show (s.fread (setBit .big s.bat p true) i (BitVec.ofNat 32 p)).bat
      = setBit .big s.bat p true from rfl, freeBits_setBit .big _ hlim hfree] at hrest
    rw [hfree, hrest, List.cons_append]
  inode := by
    rw [h.inode]
    exact fillBlocks_cons s.inode p l
  filesize := by
    rw [h.filesize, filesize_fread, length_source_fread, List.length_cons]
    rcases hfull with hfull | rfl
    · omega
    · simp
      omega
  size := h.size
  other n hn := by
    rw [List.mem_cons, not_or] at hn
    rw [h.other n hn.2]
    exact Function.update_of_ne hn.1 ..

theorem bitLimit_le (numBlocks : ℕ) : bitLimit numBlocks ≤ 4096 := Nat.min_le_right _ _

theorem lt_bitLimit {p : ℕ} (h : p < bitLimit numBlocks) : p < numBlocks ∧ p < 4096 := by
  unfold bitLimit at h
  omega

theorem blocksTaken_pos (hat : s.filesize = 512 * i) (hmax : ¬ tfsMaxFilesize ≤ s.filesize) (length : ℕ) :
    0 < blocksTaken i length := by
  have := lt_of_not_max hat hmax
  unfold blocksTaken
  omega

theorem blocksTaken_eq_zero (hi : i ≤ tfsBlocksMax) (hat : s.filesize = 512 * i)
    (hmax : tfsMaxFilesize ≤ s.filesize) {length : ℕ} : blocksTaken i length = 0 := by
  simp only [tfsMaxFilesize, tfsBlockSize] at hmax
  unfold blocksTaken
  omega

/-- Without a free bit the loop ends, or looks behind the allocation block. -/
theorem run_writeLoop_full (hnum : numBlocks < 2 ^ 31) (hmax : ¬ tfsMaxFilesize ≤ s.filesize)
    (hfree : freeBits .big s.bat (bitLimit numBlocks) = []) (n : ℕ) :
    (writeLoop numBlocks (n + 1) i s).run img
      = if numBlocks ≤ 4096 then .ok (false, s) img else .error .outOfBounds img := by
  have hminus : (BitVec.ofInt 32 (-1)).toNat = 4294967295 := by decide
  rw [writeLoop, if_neg hmax, EStateM.run_bind, toInt_numBlocks hnum, run_bitmapFindnset_limit, hfree]
  simp only
  by_cases hlim : numBlocks ≤ 4096
  · rw [if_pos hlim, if_pos hlim]
    simp only [hminus]
    rw [if_neg (by omega)]
    rfl
  · rw [if_neg hlim, if_neg hlim]

/-- **How the loop ends.** It takes as many blocks as the source asks for, or it takes all that are free,
or it looks for more of them behind the allocation block. -/
theorem run_writeLoop (hnum : numBlocks < 2 ^ 31) (hsize : numBlocks ≤ img.size) {n : ℕ} {fr : List ℕ}
    (hfree : freeBits .big s.bat (bitLimit numBlocks) = fr) (habove : ∀ q ∈ fr, 2 < q)
    (hi : i ≤ tfsBlocksMax) (hat : s.filesize = 512 * i) (hn : fr.length < n) :
    (blocksTaken i s.source.length ≤ fr.length ∧ ∃ s' img',
      (writeLoop numBlocks n i s).run img = .ok (true, s') img' ∧
      LoopTook (bitLimit numBlocks) i s s' img img' (fr.take (blocksTaken i s.source.length))) ∨
    (fr.length < blocksTaken i s.source.length ∧ numBlocks ≤ 4096 ∧ ∃ s' img',
      (writeLoop numBlocks n i s).run img = .ok (false, s') img' ∧
      LoopTook (bitLimit numBlocks) i s s' img img' fr) ∨
    (fr.length < blocksTaken i s.source.length ∧ 4096 < numBlocks ∧ ∃ s' img',
      (writeLoop numBlocks n i s).run img = .error .outOfBounds img' ∧
      LoopTook (bitLimit numBlocks) i s s' img img' fr) := by
  induction fr generalizing n i s img with
  | nil =>
      obtain ⟨n, rfl⟩ : ∃ m, n = m + 1 := ⟨n - 1, by omega⟩
      by_cases hmax : tfsMaxFilesize ≤ s.filesize
      · rw [writeLoop, if_pos hmax, blocksTaken_eq_zero hi hat hmax]
        exact Or.inl ⟨Nat.le_refl _, s, img, rfl, .nil ..⟩
      have htaken := blocksTaken_pos hat hmax s.source.length
      rw [run_writeLoop_full hnum hmax hfree]
      by_cases hlim : numBlocks ≤ 4096
      · rw [if_pos hlim]
        exact Or.inr (Or.inl ⟨htaken, hlim, s, img, rfl, .nil ..⟩)
      · rw [if_neg hlim]
        exact Or.inr (Or.inr ⟨htaken, Nat.lt_of_not_le hlim, s, img, rfl, .nil ..⟩)
  | cons p rest ih =>
      obtain ⟨n, rfl⟩ : ∃ m, n = m + 1 := ⟨n - 1, by omega⟩
      by_cases hmax : tfsMaxFilesize ≤ s.filesize
      · rw [writeLoop, if_pos hmax, blocksTaken_eq_zero hi hat hmax]
        exact Or.inl ⟨Nat.zero_le _, s, img, rfl, .nil ..⟩
      have hcap := lt_of_not_max hat hmax
      have hp := lt_bitLimit (freeBits_head .big s.bat hfree).1
      have hfind := run_bitmapFindnset_limit s.bat numBlocks img
      rw [hfree] at hfind
      rw [run_writeLoop_found hnum hsize hmax (habove p List.mem_cons_self) hp.1 hp.2 hfind]
      rw [List.length_cons] at hn
      by_cases heof : s.source.length < 512
      · rw [if_pos heof]
        have hone : blocksTaken i s.source.length = 1 := by
          unfold blocksTaken
          omega
        rw [hone]
        refine Or.inl ⟨by simp, _, _, rfl, ?_⟩
        exact .cons (bitLimit_le numBlocks) hfree (Or.inr rfl) (.nil ..)
      · rw [if_neg heof]
        have hsource := length_source_fread s (setBit .big s.bat p true) i (BitVec.ofNat 32 p)
        have hfilesize := filesize_fread s (setBit .big s.bat p true) i (BitVec.ofNat 32 p)
        have htaken : blocksTaken i s.source.length
            = blocksTaken (i + 1) (s.source.length - 512) + 1 := by
          unfold blocksTaken
          omega
        have hrest : freeBits .big (s.fread (setBit .big s.bat p true) i (BitVec.ofNat 32 p)).bat
            (bitLimit numBlocks) = rest := freeBits_setBit .big _ (bitLimit_le numBlocks) hfree
        have hcons : ∀ {s' img' l}, LoopTook (bitLimit numBlocks) (i + 1)
            (s.fread (setBit .big s.bat p true) i (BitVec.ofNat 32 p)) s' (filled img s p) img' l →
            LoopTook (bitLimit numBlocks) i s s' img img' (p :: l) :=
          fun h => .cons (bitLimit_le numBlocks) hfree (Or.inl (by omega)) h
        have hloop := ih (show numBlocks ≤ (filled img s p).size from hsize) hrest
          (fun q hq => habove q (List.mem_cons_of_mem _ hq)) (show i + 1 ≤ tfsBlocksMax from hcap)
          (by omega) (show rest.length < n by omega)
        rw [hsource] at hloop
        rw [htaken, List.take_succ_cons, List.length_cons]
        rcases hloop with ⟨hle, s', img', hrun, htook⟩ | ⟨hlt, hlim, s', img', hrun, htook⟩ |
          ⟨hlt, hlim, s', img', hrun, htook⟩
        · exact Or.inl ⟨by omega, s', img', hrun, hcons htook⟩
        · exact Or.inr (Or.inl ⟨by omega, hlim, s', img', hrun, hcons htook⟩)
        · exact Or.inr (Or.inr ⟨by omega, hlim, s', img', hrun, hcons htook⟩)

end

/-! ## The command -/

/-- `tfstool_write` from the search for an inode on. -/
def copyTo (numBlocks index : ℕ) (masterDir allocationBlock data : Block) (source target : List UInt8) :
    Tfstool Unit := do
  let r ← bitmapFindnset allocationBlock (BitVec.ofNat 32 numBlocks).toInt
  let inodeBnum := BitVec.ofInt 32 r.1
  exitIf (¬ (2 < inodeBnum.toNat ∧ inodeBnum.toNat < numBlocks)) .noInode
  let p ← writeLoop numBlocks numBlocks 0 ⟨r.2, .zero, data, 0, source⟩
  exitIf (p.2.filesize ≠ source.length) (.onlyFit p.2.filesize source.length)
  exitIf (p.1 = false) .writing
  writeBlock (p.2.inode.setWord 0 (.ofBE (BitVec.ofNat 32 p.2.filesize))) inodeBnum
  writeBlock (newEntry masterDir index inodeBnum target) tfsDirectoryBlock
  writeBlock p.2.bat tfsAllocationBlock

/-- The master directory that the command has. -/
def masterDir (stack : Stack) (img : TfsImage) : Block :=
  if 2 < img.size then img.blocks 2 else stack.masterDir

/-- The allocation block that the command has. -/
def allocationBlock (stack : Stack) (img : TfsImage) : Block :=
  if 1 < img.size then img.blocks 1 else stack.allocationBlock

/-- The number of blocks that the command goes by. -/
def numBlocks (img : TfsImage) : ℕ := img.size % 2 ^ 32

/-- A name that no entry has, and a free entry. -/
def EntryFor (md : Block) (target : List UInt8) (index : ℕ) : Prop :=
  (∀ i < tfsMaxFiles, strncmpEq md (nameOffset i) tfsFilenameMax target = false) ∧
    (List.range tfsMaxFiles).find? (fun i => entryInode .big md i = 0) = some index

theorem run_tfstoolWrite_entry {img : TfsImage} {stack : Stack} {source target : List UInt8} {index : ℕ}
    (h : EntryFor (masterDir stack img) target index) :
    (tfstoolWrite stack source target).run img
      = (copyTo (numBlocks img) index (masterDir stack img) (allocationBlock stack img) stack.data source
          target).run img := by
  have hdir : tfsDirectoryBlock.toNat = 2 := rfl
  have halloc : tfsAllocationBlock.toNat = 1 := rfl
  have hget : (get : Tfstool TfsImage).run img = .ok img img := rfl
  have hnames : ¬ ∃ i < tfsMaxFiles,
      strncmpEq (masterDir stack img) (nameOffset i) tfsFilenameMax target = true := by
    rintro ⟨i, hi, hname⟩
    rw [h.1 i hi] at hname
    cases hname
  unfold tfstoolWrite
  rw [EStateM.run_bind, run_readBlock _ (by decide), hdir, ← masterDir]
  simp only
  rw [run_exitIf_bind, if_neg hnames, h.2]
  simp only
  rw [EStateM.run_bind, run_readBlock _ (by decide), halloc, ← allocationBlock]
  simp only
  rw [EStateM.run_bind, hget]
  rfl

/-- Without a new name and a free entry the command ends before it writes anything. -/
theorem run_tfstoolWrite_noEntry {img : TfsImage} {stack : Stack} {source target : List UInt8}
    (h : ∀ index, ¬ EntryFor (masterDir stack img) target index) :
    ∃ e, e ≠ .outOfBounds ∧ (tfstoolWrite stack source target).run img = .error e img := by
  have hdir : tfsDirectoryBlock.toNat = 2 := rfl
  unfold tfstoolWrite
  rw [EStateM.run_bind, run_readBlock _ (by decide), hdir, ← masterDir]
  simp only
  rw [run_exitIf_bind]
  split
  · exact ⟨.alreadyExists, by simp, rfl⟩
  next hnames =>
  cases hfind : (List.range tfsMaxFiles).find? (fun i => decide (entryInode .big (masterDir stack img) i = 0)) with
  | none => exact ⟨.full, by simp, rfl⟩
  | some index =>
      refine absurd ⟨fun i hi => ?_, hfind⟩ (h index)
      by_contra hname
      exact hnames ⟨i, hi, Bool.eq_true_of_not_eq_false hname⟩

/-- The free bits are enough for the inode and the data. -/
def RoomFor (numBlocks length : ℕ) (fr : List ℕ) : Prop :=
  numBlocks < 2 ^ 31 ∧ (∀ q ∈ fr, 2 < q) ∧ blocksTaken 0 length < fr.length

/-- The free bits of the allocation block are not enough, and the volume goes on. -/
def RunsOver (numBlocks length : ℕ) (fr : List ℕ) : Prop :=
  4096 < numBlocks ∧ numBlocks < 2 ^ 31 ∧ (∀ q ∈ fr, 2 < q) ∧ fr.length ≤ blocksTaken 0 length

/-- Only these blocks have been written. -/
structure SameBut (fr : List ℕ) (img img' : TfsImage) : Prop where
  size : img'.size = img.size
  other : ∀ n, n ∉ fr → img'.blocks n = img.blocks n

theorem SameBut.refl (fr : List ℕ) (img : TfsImage) : SameBut fr img img := ⟨rfl, fun _ _ => rfl⟩

theorem LoopTook.sameBut {lim i : ℕ} {s s' : WriteState} {img img' : TfsImage} {l fr : List ℕ}
    (h : LoopTook lim i s s' img img' l) (hl : l ⊆ fr) : SameBut fr img img' :=
  ⟨h.size, fun n hn => h.other n fun hmem => hn (hl hmem)⟩

section

variable {img : TfsImage} {index numBlocks : ℕ} {md bat data : Block} {source target : List UInt8}
  {fr : List ℕ}

/-- Without a block for the inode nothing is written. -/
theorem run_copyTo_noInode {bat' : Block} {r : ℤ}
    (hfind : (bitmapFindnset bat (BitVec.ofNat 32 numBlocks).toInt).run img = .ok (r, bat') img)
    (h : ¬ (2 < (BitVec.ofInt 32 r).toNat ∧ (BitVec.ofInt 32 r).toNat < numBlocks)) :
    (copyTo numBlocks index md bat data source target).run img = .error .noInode img := by
  unfold copyTo
  rw [EStateM.run_bind, hfind]
  simp only
  rw [run_exitIf_bind, if_pos h]

/-- `tfstool_write` behind its loop. -/
def afterLoop (index : ℕ) (masterDir : Block) (inodeBnum : BitVec 32) (source target : List UInt8)
    (p : Bool × WriteState) : Tfstool Unit := do
  exitIf (p.2.filesize ≠ source.length) (.onlyFit p.2.filesize source.length)
  exitIf (p.1 = false) .writing
  writeBlock (p.2.inode.setWord 0 (.ofBE (BitVec.ofNat 32 p.2.filesize))) inodeBnum
  writeBlock (newEntry masterDir index inodeBnum target) tfsDirectoryBlock
  writeBlock p.2.bat tfsAllocationBlock

/-- With a block for the inode the command comes to the loop. -/
theorem run_copyTo_inode {p : ℕ}
    (hfind : (bitmapFindnset bat (BitVec.ofNat 32 numBlocks).toInt).run img
      = .ok ((p : ℤ), setBit .big bat p true) img)
    (hlow : 2 < p) (hp : p < numBlocks) (hp4 : p < 4096) :
    (copyTo numBlocks index md bat data source target).run img
      = (writeLoop numBlocks numBlocks 0 ⟨setBit .big bat p true, .zero, data, 0, source⟩ >>=
          afterLoop index md (BitVec.ofNat 32 p) source target).run img := by
  unfold copyTo
  rw [EStateM.run_bind, hfind]
  simp only
  rw [toNat_ofInt_natCast, run_exitIf_bind, toNat_ofNat_of_lt hp4, if_neg (not_not.2 ⟨hlow, hp⟩)]
  rfl

/-- The end of a command whose loop has come to the end of the source. -/
theorem run_afterLoop {img1 : TfsImage} {s' : WriteState} {p : ℕ} (hlow : 2 < p) (hp : p < img1.size)
    (hp4 : p < 4096) (hall : s'.filesize = source.length) :
    (afterLoop index md (BitVec.ofNat 32 p) source target (true, s')).run img1 = .ok ()
      (finished img1 p (s'.inode.setWord 0 (.ofBE (BitVec.ofNat 32 source.length)))
        (newEntry md index (BitVec.ofNat 32 p) target) s'.bat) := by
  unfold afterLoop
  rw [run_exitIf_bind, if_neg (not_not.2 hall), run_exitIf_bind, if_neg (by simp), hall,
    run_finish img1 hlow hp hp4]

/-- The end of a command whose loop has not. -/
theorem run_afterLoop_error {img1 : TfsImage} {inodeBnum : BitVec 32} {writeok : Bool} {s' : WriteState}
    (h : s'.filesize ≠ source.length ∨ writeok = false) :
    ∃ e, e ≠ .outOfBounds ∧
      (afterLoop index md inodeBnum source target (writeok, s')).run img1 = .error e img1 := by
  unfold afterLoop
  rw [run_exitIf_bind]
  split
  · exact ⟨.onlyFit s'.filesize source.length, by simp, rfl⟩
  next hsome =>
  rw [run_exitIf_bind, if_pos (h.resolve_left hsome)]
  exact ⟨.writing, by simp, rfl⟩

/-- The three ends of a copy: the file is written, the allocation block is left, or the command ends with
another error. -/
def CopyEnds (numBlocks index : ℕ) (md bat data : Block) (source target : List UInt8) (fr : List ℕ)
    (img : TfsImage) : Prop :=
  (RoomFor numBlocks source.length fr ∧ source.length ≤ tfsMaxFilesize ∧ ∃ p rest s' img1,
    fr = p :: rest ∧
    LoopTook (bitLimit numBlocks) 0 ⟨setBit .big bat p true, .zero, data, 0, source⟩ s' img img1
      (rest.take (blocksTaken 0 source.length)) ∧
    (copyTo numBlocks index md bat data source target).run img = .ok ()
      (finished img1 p (s'.inode.setWord 0 (.ofBE (BitVec.ofNat 32 source.length)))
        (newEntry md index (BitVec.ofNat 32 p) target) s'.bat)) ∨
  (RunsOver numBlocks source.length fr ∧ ∃ img1, SameBut fr img img1 ∧
    (copyTo numBlocks index md bat data source target).run img = .error .outOfBounds img1) ∨
  (¬ RunsOver numBlocks source.length fr ∧
    ¬ (RoomFor numBlocks source.length fr ∧ source.length ≤ tfsMaxFilesize) ∧
    ∃ e img1, e ≠ .outOfBounds ∧ SameBut fr img img1 ∧
      (copyTo numBlocks index md bat data source target).run img = .error e img1)

/-- The number of blocks is negative as an `int`. -/
theorem run_copyTo_negative (hnum : numBlocks < 2 ^ 32) (hint31 : ¬ numBlocks < 2 ^ 31) :
    CopyEnds numBlocks index md bat data source target fr img := by
  have hminus : (BitVec.ofInt 32 (-1)).toNat = 4294967295 := by decide
  have hneg : (BitVec.ofNat 32 numBlocks).toInt.toNat = 0 := by
    rw [BitVec.toInt_eq_toNat_cond, BitVec.toNat_ofNat, Nat.mod_eq_of_lt hnum, if_neg (by omega)]
    omega
  have hsearch : (bitmapFindnset bat (BitVec.ofNat 32 numBlocks).toInt).run img
      = .ok (-1, bat) img := by
    unfold bitmapFindnset
    rw [hneg]
    rfl
  exact Or.inr (Or.inr ⟨fun h => hint31 h.2.1, fun h => hint31 h.1.1, .noInode, img, by simp,
    .refl .., run_copyTo_noInode hsearch (by omega)⟩)

/-- No block is free. -/
theorem run_copyTo_full (hint31 : numBlocks < 2 ^ 31)
    (hfree : freeBits .big bat (bitLimit numBlocks) = []) :
    CopyEnds numBlocks index md bat data source target [] img := by
  have hminus : (BitVec.ofInt 32 (-1)).toNat = 4294967295 := by decide
  have hfind := run_bitmapFindnset_limit bat numBlocks img
  rw [hfree, ← toInt_numBlocks hint31] at hfind
  by_cases hlim : numBlocks ≤ 4096
  · rw [if_pos hlim] at hfind
    exact Or.inr (Or.inr ⟨fun h => absurd h.1 (Nat.not_lt.2 hlim),
      fun h => absurd h.1.2.2 (Nat.not_lt_zero _), .noInode, img, by simp, .refl ..,
      run_copyTo_noInode hfind (by omega)⟩)
  · rw [if_neg hlim] at hfind
    refine Or.inr (Or.inl ⟨⟨Nat.lt_of_not_le hlim, hint31, fun q hq => absurd hq List.not_mem_nil,
      Nat.zero_le _⟩, img, .refl .., ?_⟩)
    unfold copyTo
    rw [EStateM.run_bind, hfind]

/-- The loop has written as many bytes as it has taken blocks for. -/
theorem LoopTook.filesize_eq {lim : ℕ} {s s' : WriteState} {img1 : TfsImage} {l : List ℕ}
    (h : LoopTook lim 0 s s' img img1 l) (hzero : s.filesize = 0)
    (hl : l.length = blocksTaken 0 s.source.length) :
    s'.filesize = min s.source.length (512 * blocksTaken 0 s.source.length) := by
  have hread := h.filesize
  rwa [hl, hzero, Nat.zero_add] at hread

theorem filesize_eq_length {length : ℕ} (hmax : length ≤ tfsMaxFilesize) :
    min length (512 * blocksTaken 0 length) = length := by
  simp only [tfsMaxFilesize, tfsBlockSize, tfsBlocksMax] at hmax
  unfold blocksTaken tfsBlocksMax
  omega

theorem filesize_ne_length {length : ℕ} (hmax : ¬ length ≤ tfsMaxFilesize) :
    min length (512 * blocksTaken 0 length) ≠ length := by
  simp only [tfsMaxFilesize, tfsBlockSize, tfsBlocksMax] at hmax
  unfold blocksTaken tfsBlocksMax
  omega

/-- The inode gets a block that is not one of the first three, and the loop is entered. -/
theorem run_copyTo_loop {p : ℕ} {rest : List ℕ} (hsize : numBlocks ≤ img.size)
    (hint31 : numBlocks < 2 ^ 31) (hfree : freeBits .big bat (bitLimit numBlocks) = p :: rest)
    (hlow : 2 < p) : CopyEnds numBlocks index md bat data source target (p :: rest) img := by
  have hfind := run_bitmapFindnset_limit bat numBlocks img
  rw [hfree, ← toInt_numBlocks hint31] at hfind
  have hp := lt_bitLimit (freeBits_head .big bat hfree).1
  have habove : ∀ q ∈ p :: rest, 2 < q := by
    intro q hq
    rcases List.mem_cons.1 hq with rfl | hq
    · exact hlow
    · have := freeBits_tail .big bat hfree q hq
      omega
  have hlength : (p :: rest).length ≤ numBlocks := by
    have hle : (freeBits .big bat (bitLimit numBlocks)).length ≤ (List.range (bitLimit numBlocks)).length :=
      List.length_filter_le ..
    rw [hfree, List.length_range] at hle
    unfold bitLimit at hle
    omega
  rw [List.length_cons] at hlength
  have hrest : freeBits .big (setBit .big bat p true) (bitLimit numBlocks) = rest :=
    freeBits_setBit .big _ (bitLimit_le numBlocks) hfree
  have hloop := run_writeLoop hint31 hsize
    (show freeBits .big (⟨setBit .big bat p true, .zero, data, 0, source⟩ : WriteState).bat
      (bitLimit numBlocks) = rest from hrest)
    (fun q hq => habove q (List.mem_cons_of_mem _ hq)) (Nat.zero_le _) rfl
    (show rest.length < numBlocks by omega)
  unfold CopyEnds
  rw [run_copyTo_inode hfind hlow hp.1 hp.2, EStateM.run_bind]
  rcases hloop with ⟨hle, s', img1, hrun, htook⟩ | ⟨hlt, hlim, s', img1, hrun, htook⟩ |
    ⟨hlt, hlim, s', img1, hrun, htook⟩
  · rw [hrun]
    have hle : blocksTaken 0 source.length ≤ rest.length := hle
    have hfilesize := htook.filesize_eq rfl (List.length_take_of_le hle)
    by_cases hmax : source.length ≤ tfsMaxFilesize
    · have hp1 : p < img1.size := by
        rw [htook.size]
        omega
      exact Or.inl ⟨⟨hint31, habove, Nat.lt_succ_of_le hle⟩, hmax, p, rest, s', img1, rfl, htook,
        run_afterLoop hlow hp1 hp.2 (hfilesize.trans (filesize_eq_length hmax))⟩
    · have hsome : s'.filesize ≠ source.length := hfilesize.trans_ne (filesize_ne_length hmax)
      obtain ⟨e, he, herror⟩ := run_afterLoop_error (Or.inl hsome)
      refine Or.inr (Or.inr ⟨fun h => ?_, fun h => hmax h.2, e, img1, he, ?_, herror⟩)
      · have hover := h.2.2.2
        rw [List.length_cons] at hover
        omega
      · exact htook.sameBut fun q hq => List.mem_cons_of_mem _ (List.mem_of_mem_take hq)
  · rw [hrun]
    obtain ⟨e, he, herror⟩ := run_afterLoop_error (Or.inr rfl)
    refine Or.inr (Or.inr ⟨fun h => absurd h.1 (Nat.not_lt.2 hlim), fun h => ?_, e, img1, he,
      htook.sameBut (List.subset_cons_self ..), herror⟩)
    have := h.1.2.2
    rw [List.length_cons] at this
    simp only at hlt
    omega
  · rw [hrun]
    refine Or.inr (Or.inl ⟨⟨hlim, hint31, habove, ?_⟩, img1, htook.sameBut (List.subset_cons_self ..), rfl⟩)
    rw [List.length_cons]
    exact hlt

/-- **The end of a copy.** -/
theorem run_copyTo (hsize : numBlocks ≤ img.size) (hnum : numBlocks < 2 ^ 32)
    (hfree : freeBits .big bat (bitLimit numBlocks) = fr) :
    CopyEnds numBlocks index md bat data source target fr img := by
  by_cases hint31 : numBlocks < 2 ^ 31
  · cases fr with
    | nil => exact run_copyTo_full hint31 hfree
    | cons p rest =>
        by_cases hlow : 2 < p
        · exact run_copyTo_loop hsize hint31 hfree hlow
        · have hp := lt_bitLimit (freeBits_head .big bat hfree).1
          have hfind := run_bitmapFindnset_limit bat numBlocks img
          rw [hfree, ← toInt_numBlocks hint31] at hfind
          refine Or.inr (Or.inr ⟨fun h => hlow (h.2.2.1 p List.mem_cons_self),
            fun h => hlow (h.1.2.1 p List.mem_cons_self), .noInode, img, by simp, .refl ..,
            run_copyTo_noInode hfind ?_⟩)
          rw [toNat_ofInt_natCast, toNat_ofNat_of_lt hp.2]
          exact fun h => hlow h.1
  · exact run_copyTo_negative hnum hint31

end

/-! ## Which files fit -/

/-- The blocks of the volume that are not allocated. -/
def unallocated (img : TfsImage) : List ℕ := freeBits .big (img.volume tfsAllocationBlock) img.size

/-- A file of this length fits in the volume, with as many blocks as the kernel takes for it. -/
def Fits (img : TfsImage) (length : ℕ) : Prop :=
  length ≤ tfsMaxFilesize ∧ (∃ i < tfsMaxFiles, dirInode img.volume i = 0) ∧
    1 + blocksFor length ≤ (unallocated img).length

/-- The blocks that are allocated in the second image and not in the first one. -/
def newlyMarked (img img' : TfsImage) : List ℕ :=
  (List.range img.size).filter fun n => isMarked img'.volume n && !isMarked img.volume n

/-- What a copy has to do. It succeeds if and only if the file fits, takes as many blocks as the kernel
would, and changes nothing but free blocks if it fails. -/
structure CopiesIfFits (stack : Stack) (img : TfsImage) (source target : List UInt8) : Prop where
  succeeds : isOk ((tfstoolWrite stack source target).run img) = true ↔ Fits img source.length
  blocks : ∀ img', (tfstoolWrite stack source target).run img = .ok () img' →
    ((newlyMarked img img').length : ℤ) = 1 + blocksFor source.length
  unchanged : ∀ e img', (tfstoolWrite stack source target).run img = .error e img' →
    img'.volume tfsAllocationBlock = img.volume tfsAllocationBlock ∧
    img'.volume tfsDirectoryBlock = img.volume tfsDirectoryBlock ∧
    ∀ j, Live img.volume j →
      contents img' (dirInode img.volume j) = contents img (dirInode img.volume j)

/-- The bits that were taken are those that are newly set. -/
theorem filter_newlySet {bat bat' : Block} {n : ℕ} {l : List ℕ}
    (h : freeBits .big bat n = l ++ freeBits .big bat' n) :
    ((List.range n).filter fun q => bitmapGet .big bat' q && !bitmapGet .big bat q) = l := by
  have hnodup := freeBits_nodup .big bat n
  have hlt : ∀ q ∈ l, q < n := by
    intro q hq
    have hmem : q ∈ freeBits .big bat n := by
      rw [h]
      exact List.mem_append_left _ hq
    exact ((mem_freeBits .big bat).1 hmem).1
  rw [h] at hnodup
  have hdisjoint := (List.nodup_append.1 hnodup).2.2
  rw [← List.filter_filter]
  show (freeBits .big bat n).filter (fun q => bitmapGet .big bat' q) = l
  rw [h, List.filter_append, List.filter_eq_self.2, List.filter_eq_nil_iff.2, List.append_nil]
  · intro q hq
    rw [((mem_freeBits .big bat').1 hq).2]
    exact Bool.false_ne_true
  · intro q hq
    by_contra hset
    have hfree := (mem_freeBits .big bat').2 ⟨hlt q hq, Bool.eq_false_of_not_eq_true hset⟩
    exact hdisjoint q hq q hfree rfl

section

variable {img : TfsImage} {stack : Stack} {source : List UInt8} {name : FileName}

/-- How many blocks are taken for a file that is not too large. -/
theorem blocksTaken_eq_iff {length : ℕ} (hmax : length ≤ tfsMaxFilesize) :
    blocksFor length ≤ blocksTaken 0 length ∧
      ((blocksTaken 0 length : ℤ) = blocksFor length ↔ length % 512 ≠ 0 ∨ length = tfsMaxFilesize) := by
  simp only [tfsMaxFilesize, tfsBlockSize, tfsBlocksMax] at hmax ⊢
  unfold blocksFor blocksTaken tfsBlocksMax
  omega

/-- Where there is room for a file, there are blocks above the system blocks. -/
theorem RoomFor.lt {bat : Block} {n m length : ℕ} (h : RoomFor n length (freeBits .big bat m)) :
    3 < m := by
  obtain ⟨-, habove, hroom⟩ := h
  have hpos : 0 < (freeBits .big bat m).length := by omega
  obtain ⟨q, hq⟩ := List.exists_mem_of_length_pos hpos
  have hlow := habove q hq
  have hlt := ((mem_freeBits .big bat).1 hq).1
  omega

/-- The bits that the command looks at in a consistent image. -/
theorem numBlocks_eq (himg : ConsistentImage img) : numBlocks img = img.size ∧ bitLimit (numBlocks img) = img.size := by
  have hsize := himg.size_le
  have hnum : numBlocks img = img.size := Nat.mod_eq_of_lt (by omega)
  exact ⟨hnum, by rw [hnum, bitLimit, Nat.min_eq_left hsize]⟩

theorem allocationBlock_eq (hsize : 1 < img.size) :
    allocationBlock stack img = img.volume tfsAllocationBlock := if_pos hsize

theorem masterDir_eq (hsize : 2 < img.size) : masterDir stack img = img.volume tfsDirectoryBlock :=
  if_pos hsize

/-- A bit that the command sees as free is in the image and has no part in a file. -/
theorem not_mem_freeBits (himg : ConsistentImage img) {n : ℕ}
    (hn : n = 1 ∨ n = 2 ∨ ∃ j, ∃ b ∈ fileBlocks img.volume j, n = b.toNat) :
    n ∉ freeBits .big (allocationBlock stack img) img.size := by
  intro hmem
  obtain ⟨hlt, hfree⟩ := (mem_freeBits .big _).1 hmem
  have hpos : 0 < n := by
    rcases hn with rfl | rfl | ⟨j, b, hb, rfl⟩
    · decide
    · decide
    · have := (himg.range j b hb).1
      omega
  rw [allocationBlock_eq (by omega)] at hfree
  have hmarked : isMarked img.volume n = true := by
    rcases hn with rfl | rfl | ⟨j, b, hb, rfl⟩
    · exact himg.system 1 (by decide)
    · exact himg.system 2 (by decide)
    · exact himg.marked j b hb
  have hfree : isMarked img.volume n = false := hfree
  rw [hmarked] at hfree
  cases hfree

/-- What a write to free blocks leaves alone. -/
theorem SameBut.unchanged {img' : TfsImage} (himg : ConsistentImage img)
    (h : SameBut (freeBits .big (allocationBlock stack img) img.size) img img') :
    img'.volume tfsAllocationBlock = img.volume tfsAllocationBlock ∧
    img'.volume tfsDirectoryBlock = img.volume tfsDirectoryBlock ∧
    ∀ j, Live img.volume j →
      contents img' (dirInode img.volume j) = contents img (dirInode img.volume j) := by
  refine ⟨h.other _ (not_mem_freeBits himg (Or.inl rfl)),
    h.other _ (not_mem_freeBits himg (Or.inr (Or.inl rfl))), fun j hj => ?_⟩
  obtain ⟨nb, hfile⟩ := himg.fileAt hj
  have hsame := hfile.sameFile h.size hj fun n hn =>
    h.other n.toNat (not_mem_freeBits himg (Or.inr (Or.inr ⟨j, n, hn, rfl⟩)))
  exact hsame.contents_eq hfile

/-- The name that the command looks for is in the directory. -/
theorem strncmpEq_false_iff {b : Block} {i : ℕ} :
    strncmpEq b (nameOffset i) tfsFilenameMax name.chars = false ↔ entryName b i ≠ name.chars := by
  rw [Ne, ← strncmpEq_iff_entryName name.nonzero (Nat.le_of_lt (FileName.length_lt name)),
    Bool.not_eq_true]

/-- A new name finds an entry, if there is a free one and if no free entry has the name. -/
theorem exists_entryFor_iff (hnew : ∀ j, Live img.volume j →
      entryName (img.volume tfsDirectoryBlock) j ≠ name.chars) :
    (∃ index, EntryFor (img.volume tfsDirectoryBlock) name.chars index) ↔
      (∃ i < tfsMaxFiles, dirInode img.volume i = 0) ∧
      ∀ i < tfsMaxFiles, dirInode img.volume i = 0 →
        entryName (img.volume tfsDirectoryBlock) i ≠ name.chars := by
  constructor
  · rintro ⟨index, hnames, hfind⟩
    obtain ⟨hzero, hindex⟩ := List.find?_range_eq_some.1 hfind
    exact ⟨⟨index, List.mem_range.1 hindex.1, of_decide_eq_true hzero⟩,
      fun i hi _ => strncmpEq_false_iff.1 (hnames i hi)⟩
  · rintro ⟨⟨i, hi, hzero⟩, hstale⟩
    have hsome : ((List.range tfsMaxFiles).find?
        (fun i => decide (entryInode .big (img.volume tfsDirectoryBlock) i = 0))).isSome = true := by
      rw [List.find?_isSome]
      exact ⟨i, List.mem_range.2 hi, decide_eq_true hzero⟩
    obtain ⟨index, hfind⟩ := Option.isSome_iff_exists.1 hsome
    refine ⟨index, fun k hk => strncmpEq_false_iff.2 ?_, hfind⟩
    by_cases hfree : dirInode img.volume k = 0
    · exact hstale k hk hfree
    · exact hnew k ⟨hk, hfree⟩

/-- The blocks that a copy has marked. -/
theorem newlyMarked_finished {bat inode md : Block} {s' : WriteState} {img1 : TfsImage} {p : ℕ}
    {l : List ℕ} (hbat : bat = img.volume tfsAllocationBlock)
    (hfree : freeBits .big bat img.size = p :: l ++ freeBits .big s'.bat img.size) :
    newlyMarked img (finished img1 p inode md s'.bat) = p :: l := by
  subst hbat
  have hblock : (finished img1 p inode md s'.bat).volume tfsAllocationBlock
      = Function.update (Function.update (Function.update img1.blocks p inode) 2 md) 1 s'.bat 1 := rfl
  rw [Function.update_self] at hblock
  unfold newlyMarked isMarked
  rw [hblock]
  exact filter_newlySet hfree

/-- **`tfstool_write` on a consistent image.** It succeeds if there are an entry and room, or it has
written nothing but free blocks. -/
theorem run_tfstoolWrite_consistent (himg : ConsistentImage img) (target : List UInt8) :
    (((∃ index, EntryFor (masterDir stack img) target index) ∧
        RoomFor img.size source.length (freeBits .big (allocationBlock stack img) img.size) ∧
        source.length ≤ tfsMaxFilesize) ∧
      ∃ img', (tfstoolWrite stack source target).run img = .ok () img' ∧
        (newlyMarked img img').length = 1 + blocksTaken 0 source.length) ∨
    (¬ ((∃ index, EntryFor (masterDir stack img) target index) ∧
        RoomFor img.size source.length (freeBits .big (allocationBlock stack img) img.size) ∧
        source.length ≤ tfsMaxFilesize) ∧
      ∃ e img', (tfstoolWrite stack source target).run img = .error e img' ∧
        SameBut (freeBits .big (allocationBlock stack img) img.size) img img') := by
  obtain ⟨hnum, hlim⟩ := numBlocks_eq himg
  have hsize := himg.size_le
  by_cases hentry : ∃ index, EntryFor (masterDir stack img) target index
  swap
  · obtain ⟨e, -, hrun⟩ := @run_tfstoolWrite_noEntry img stack source target (not_exists.1 hentry)
    exact Or.inr ⟨fun h => hentry h.1, e, img, hrun, .refl ..⟩
  obtain ⟨index, hindex⟩ := hentry
  rw [run_tfstoolWrite_entry hindex, hnum]
  rw [hnum] at hlim
  have hcopy := @run_copyTo img index img.size (masterDir stack img) (allocationBlock stack img)
    stack.data source target (freeBits .big (allocationBlock stack img) img.size) (Nat.le_refl _)
    (by omega) (by rw [hlim])
  unfold CopyEnds at hcopy
  rw [hlim] at hcopy
  rcases hcopy with ⟨hroom, hmax, p, rest, s', img1, hfree, htook, hrun⟩ | ⟨hover, -⟩ |
    ⟨-, hnot, e, img', -, hsame, hrun⟩
  · refine Or.inl ⟨⟨⟨index, hindex⟩, hroom, hmax⟩, _, hrun, ?_⟩
    have hsystem := hroom.lt
    have hlength : blocksTaken 0 source.length ≤ rest.length := by
      have hlt := hroom.2.2
      rw [hfree, List.length_cons] at hlt
      omega
    have hrest := htook.free
    rw [freeBits_setBit .big _ hsize hfree] at hrest
    have htaken := hfree.trans (congrArg (p :: ·) hrest)
    rw [newlyMarked_finished (allocationBlock_eq (by omega)) htaken, List.length_cons,
      List.length_take_of_le hlength]
    exact Nat.add_comm ..
  · exact absurd hover.1 (by omega)
  · exact Or.inr ⟨fun h => hnot h.2, e, img', hrun, hsame⟩

/-- **Which files the tool can copy.** A copy to a consistent image does what it has to do if and only
if a file that fits does not fill its last block (or is as large as a file can be), and no free entry
has its name. -/
theorem tfstoolWrite_fits_iff (himg : ConsistentImage img) (hnew : ∀ j, Live img.volume j →
      entryName (img.volume tfsDirectoryBlock) j ≠ name.chars) :
    CopiesIfFits stack img source name.chars ↔
      (Fits img source.length →
        (source.length % 512 ≠ 0 ∨ source.length = tfsMaxFilesize) ∧
        ∀ i < tfsMaxFiles, dirInode img.volume i = 0 →
          entryName (img.volume tfsDirectoryBlock) i ≠ name.chars) := by
  have hentry := exists_entryFor_iff hnew
  have hbits : 2 < img.size →
      freeBits .big (allocationBlock stack img) img.size = unallocated img := by
    intro hlt
    rw [allocationBlock_eq (by omega)]
    rfl
  rcases @run_tfstoolWrite_consistent img stack source himg name.chars with
    ⟨⟨hindex, hroom, hmax⟩, img', hrun, hmarked⟩ | ⟨hnot, e, img', hrun, hsame⟩
  · have hsystem := hroom.lt
    rw [masterDir_eq (by omega)] at hindex
    rw [hbits (by omega)] at hroom
    obtain ⟨hfree, hstale⟩ := hentry.1 hindex
    obtain ⟨htaken, hexact⟩ := blocksTaken_eq_iff hmax
    have hfits : Fits img source.length := by
      have hlt := hroom.2.2
      exact ⟨hmax, hfree, by omega⟩
    constructor
    · intro h _
      have hblocks := h.blocks img' hrun
      exact ⟨hexact.1 (by omega), hstale⟩
    · intro h
      refine ⟨?_, fun img'' hrun' => ?_, fun e img'' hrun' => ?_⟩
      · rw [hrun]
        exact iff_of_true rfl hfits
      · rw [hrun] at hrun'
        cases hrun'
        have hblocks := hexact.2 (h hfits).1
        omega
      · rw [hrun] at hrun'
        cases hrun'
  · constructor
    · intro h hfits
      have hok := h.succeeds.2 hfits
      rw [hrun] at hok
      cases hok
    · intro h
      refine ⟨?_, fun img'' hrun' => ?_, fun e img'' hrun' => ?_⟩
      · rw [hrun]
        refine iff_of_false Bool.false_ne_true fun hfits => hnot ?_
        obtain ⟨hfull, hstale⟩ := h hfits
        obtain ⟨hmax, hfree, hroom⟩ := hfits
        have habove : ∀ q ∈ unallocated img, 2 < q := by
          intro q hq
          by_contra hlow
          have hmarked := himg.system q (by omega)
          have hunmarked : isMarked img.volume q = false := ((mem_freeBits .big _).1 hq).2
          rw [hunmarked] at hmarked
          cases hmarked
        have hpos : 0 < (unallocated img).length := by
          unfold blocksFor at hroom
          omega
        have hsystem : 2 < img.size := by
          obtain ⟨q, hq⟩ := List.exists_mem_of_length_pos hpos
          have hlt := ((mem_freeBits .big _).1 hq).1
          have := habove q hq
          omega
        have hblocks := (blocksTaken_eq_iff hmax).2.2 hfull
        have hsize := himg.size_le
        rw [masterDir_eq hsystem, hbits hsystem]
        exact ⟨hentry.2 ⟨hfree, hstale⟩, ⟨by omega, habove, by omega⟩, hmax⟩
      · rw [hrun] at hrun'
        cases hrun'
      · rw [hrun] at hrun'
        cases hrun'
        exact hsame.unchanged himg

end

/-- `a` is a new name in the image with the file `b`. -/
theorem nameA_new (j : ℕ) (hj : Live (smallImage cleanDirectory).volume j) :
    entryName ((smallImage cleanDirectory).volume tfsDirectoryBlock) j ≠ nameA.chars := by
  rw [cleanDirectory_oneFile.live_iff.1 hj]
  show entryName cleanDirectory 1 ≠ nameA.chars
  decide +kernel

/-- A file of one byte is copied with two blocks. -/
theorem tfstoolWrite_fits_iff_byte :
    CopiesIfFits zeroStack (smallImage cleanDirectory) [1] nameA.chars := by
  refine (tfstoolWrite_fits_iff cleanDirectory_oneFile.consistent nameA_new).2 fun _ =>
    ⟨Or.inl (by decide), fun i hi _ => ?_⟩
  have hnames : ∀ i < tfsMaxFiles, entryName cleanDirectory i ≠ nameA.chars := by decide +kernel
  exact hnames i hi

/-- An empty file needs one block, and takes two. -/
theorem emptyFile_not_copiesIfFits :
    ConsistentImage (smallImage cleanDirectory) ∧
    (∀ j, Live (smallImage cleanDirectory).volume j →
      entryName ((smallImage cleanDirectory).volume tfsDirectoryBlock) j ≠ nameA.chars) ∧
    ¬ CopiesIfFits zeroStack (smallImage cleanDirectory) [] nameA.chars := by
  refine ⟨cleanDirectory_oneFile.consistent, nameA_new, fun h => ?_⟩
  have hblocks := h.blocks _ (eq_ok_of_isOk (by decide +kernel))
  have hmarked : (newlyMarked (smallImage cleanDirectory)
      (imageOf ((tfstoolWrite zeroStack [] nameA.chars).run (smallImage cleanDirectory)))).length = 2 := by
    decide +kernel
  rw [hmarked] at hblocks
  exact absurd hblocks (by decide)

end Tfstool

end Kudos
