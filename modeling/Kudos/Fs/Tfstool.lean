import Kudos.Fs.TfsContents

set_option autoImplicit false

/-! # The filesystem tool of the host

`util/tfstool.c` makes an image of a volume on the host and copies files to it and from it. Its numbers
are converted with `ntohl` and `htonl`, so they are big-endian on every host. A command works on the
image file, which it leaves as it is when it exits with an error. The files of the host can be read
and written without errors; messages are left out. -/

namespace Kudos

open CInt Words

/-- The image file: a number of whole blocks. -/
structure TfsImage where
  size : ℕ
  blocks : ℕ → Block

/-- The blocks by their number in the volume. -/
def TfsImage.volume (img : TfsImage) : Volume := fun n => img.blocks n.toNat

/-- Why a command ends with `EXIT_FAILURE`. -/
inductive TfstoolExit
  /-- `fseek` to a negative position. -/
  | fseek
  /-- "File already exists in TFS." -/
  | alreadyExists
  /-- "TFS full." -/
  | full
  /-- "Only .. bytes (of .. bytes) fit to the file -- wrote nothing." -/
  | onlyFit (filesize sourceFilesize : ℕ)
  /-- "while writing file to tfs-file (disk full?)" -/
  | writing
  /-- "Could not allocate inode (disk full?)." -/
  | noInode
  /-- "File not found." -/
  | notFound
  /-- Not an exit: an access outside of the allocation block, which has no defined effect. -/
  | outOfBounds
  deriving DecidableEq, Repr

/-- A part of a command. -/
abbrev Tfstool := EStateM TfstoolExit TfsImage

/-- What the local arrays of a command hold before anything is read into them. -/
structure Stack where
  allocationBlock : Block
  masterDir : Block
  inodeBlock : Block
  data : Block

namespace Tfstool

/-- `TFS_MAX_FILESIZE`. -/
def tfsMaxFilesize : ℕ := tfsBlockSize * tfsBlocksMax

/-- A check that ends the command. -/
def exitIf (c : Prop) [Decidable c] (reason : TfstoolExit) : Tfstool Unit :=
  if c then throw reason else return ()

/-! ## Blocks of the image -/

/-- The position `block*TFS_BLOCK_SIZE`, an `int`, as a number of blocks. -/
def seek (block : BitVec 32) : Tfstool ℕ := do
  let position := wrap32 (block.toInt * 512)
  exitIf (position < 0) .fseek
  return (position / 512).toNat

/-- `read_block`. Nothing is read behind the end of the image. -/
def readBlock (data : Block) (block : BitVec 32) : Tfstool Block := do
  let n ← seek block
  let img ← get
  return if n < img.size then img.blocks n else data

/-- `write_block`. -/
def writeBlock (data : Block) (block : BitVec 32) : Tfstool Unit := do
  let n ← seek block
  modify fun img => ⟨max img.size (n + 1), Function.update img.blocks n data⟩

/-- `bitmap_findnset` of the tool, which looks at one bit after the other. -/
def bitmapFindnset (bitmap : Block) (l : ℤ) : Tfstool (ℤ × Block) :=
  match (List.range l.toNat).find? (fun i => 4096 ≤ i || !bitmapGet .big bitmap i) with
  | none => return (-1, bitmap)
  | some i => if 4096 ≤ i then throw .outOfBounds else return ((i : ℤ), setBit .big bitmap i true)

/-! ## Strings -/

/-- `strncmp(.., n) == 0` for the string at byte `off` of a block. -/
def strncmpEq (b : Block) : ℕ → ℕ → List UInt8 → Bool
  | _, 0, _ => true
  | off, n + 1, s => b.byte off = s.headD 0 && (s.headD 0 = 0 || strncmpEq b (off + 1) n s.tail)

/-- `strncpy` to byte `off` of a block; behind the string it writes zeros. -/
def strncpy : Block → ℕ → ℕ → List UInt8 → Block
  | b, _, 0, _ => b
  | b, off, n + 1, s =>
      strncpy (b.setByte off (s.headD 0)) (off + 1) n (if s.headD 0 = 0 then [] else s.tail)

/-! ## Write -/

/-- The variables of the loop of `tfstool_write`, with what is left of the source file. -/
structure WriteState where
  bat : Block
  inode : Block
  data : Block
  filesize : ℕ
  source : List UInt8

/-- The effect of an iteration in which the block `bnum` was found: `fread` takes up to a block from
the source, and the number goes to entry `i` of the block table. -/
def WriteState.fread (s : WriteState) (bat : Block) (i : ℕ) (bnum : BitVec 32) : WriteState where
  bat := bat
  inode := s.inode.setWord (1 + i) (.ofBE bnum)
  data := s.data.blit 0 (s.source.take 512).length (fun m => s.source.getD m 0)
  filesize := s.filesize + (s.source.take 512).length
  source := s.source.drop 512

/-- The loop of `tfstool_write`, with at most `n` iterations from `i` on. The result has `writeok`. -/
def writeLoop (numBlocks : ℕ) : ℕ → ℕ → WriteState → Tfstool (Bool × WriteState)
  | 0, _, s => return (true, s)
  | n + 1, i, s => do
      if tfsMaxFilesize ≤ s.filesize then return (true, s)
      let r ← bitmapFindnset s.bat (BitVec.ofNat 32 numBlocks).toInt
      let bnum := BitVec.ofInt 32 r.1
      if 2 < bnum.toNat ∧ bnum.toNat < numBlocks then
        let s' := s.fread r.2 i bnum
        writeBlock s'.data bnum
        -- `feof` is true when `fread` has got less than it asked for
        if s.source.length < 512 then return (true, s')
        writeLoop numBlocks n (i + 1) s'
      else return (false, { s with bat := r.2 })

/-- The new directory: entry `index` gets an inode number and a name. -/
def newEntry (md : Block) (index : ℕ) (inode : BitVec 32) (target : List UInt8) : Block :=
  strncpy (md.setWord (5 * index) (.ofBE inode)) (nameOffset index) tfsFilenameMax target

/-- `tfstool_write`: the bytes `source` become the file `target`. -/
def tfstoolWrite (stack : Stack) (source target : List UInt8) : Tfstool Unit := do
  let masterDir ← readBlock stack.masterDir tfsDirectoryBlock
  exitIf (∃ i < tfsMaxFiles, strncmpEq masterDir (nameOffset i) tfsFilenameMax target = true)
    .alreadyExists
  let some index := (List.range tfsMaxFiles).find? (fun i => entryInode .big masterDir i = 0)
    | throw .full
  let allocationBlock ← readBlock stack.allocationBlock tfsAllocationBlock
  let numBlocks := (← get).size % 2 ^ 32
  let r ← bitmapFindnset allocationBlock (BitVec.ofNat 32 numBlocks).toInt
  let inodeBnum := BitVec.ofInt 32 r.1
  exitIf (¬ (2 < inodeBnum.toNat ∧ inodeBnum.toNat < numBlocks)) .noInode
  let p ← writeLoop numBlocks numBlocks 0 ⟨r.2, .zero, stack.data, 0, source⟩
  exitIf (p.2.filesize ≠ source.length) (.onlyFit p.2.filesize source.length)
  exitIf (p.1 = false) .writing
  writeBlock (p.2.inode.setWord 0 (.ofBE (BitVec.ofNat 32 p.2.filesize))) inodeBnum
  writeBlock (newEntry masterDir index inodeBnum target) tfsDirectoryBlock
  writeBlock p.2.bat tfsAllocationBlock

/-! ## Read -/

/-- The loop of `tfstool_read`, over `n` entries of the block table from `i` on. The result has the
bytes of the target file. -/
def readLoop (inode : Block) (filesize : BitVec 32) :
    ℕ → ℕ → Block → BitVec 32 → List UInt8 → Tfstool (List UInt8)
  | 0, _, _, _, out => return out
  | n + 1, i, data, count, out => do
      let bnum := inodeBlock .big inode i
      if bnum = 0 then return out
      let data ← readBlock data bnum
      let size := if 512#32 < filesize - count then 512#32 else filesize - count
      readLoop inode filesize n (i + 1) data (count + size) (out ++ blockBytes data 0 size.toNat)

/-- The search for a name in the directory. -/
def findEntry (md : Block) (name : List UInt8) : Option ℕ :=
  (List.range tfsMaxFiles).find? (fun i => strncmpEq md (nameOffset i) tfsFilenameMax name)

/-- `tfstool_read`: what the file on the host gets. -/
def tfstoolRead (stack : Stack) (source : List UInt8) : Tfstool (List UInt8) := do
  let masterDir ← readBlock stack.masterDir tfsDirectoryBlock
  let some index := findEntry masterDir source | throw .notFound
  let inode ← readBlock stack.inodeBlock (entryInode .big masterDir index)
  readLoop inode (inode.word 0).toBE tfsBlocksMax 0 stack.data 0 []

/-! ## Running a command on an image -/

section

variable {α β : Type}

theorem run_eq_ok_bind {x : Tfstool α} {f : α → Tfstool β} {img img' : TfsImage} {b : β}
    (h : (x >>= f).run img = .ok b img') :
    ∃ a img1, x.run img = .ok a img1 ∧ (f a).run img1 = .ok b img' := by
  rw [EStateM.run_bind] at h
  split at h
  · next a img1 hx => exact ⟨a, img1, hx, h⟩
  · cases h

end

theorem run_exitIf_bind {α : Type} (c : Prop) [Decidable c] (reason : TfstoolExit)
    (f : Unit → Tfstool α) (img : TfsImage) :
    (exitIf c reason >>= f).run img = if c then .error reason img else (f ()).run img := by
  unfold exitIf
  split
  · rfl
  · rfl

theorem toNat_ofNat_of_lt {n : ℕ} (h : n < 4096) : (BitVec.ofNat 32 n).toNat = n := by
  rw [BitVec.toNat_ofNat, Nat.mod_eq_of_lt (by omega)]

theorem run_seek {block : BitVec 32} (h : block.toNat < 4096) (img : TfsImage) :
    (seek block).run img = .ok block.toNat img := by
  have hint : block.toInt = block.toNat := by
    rw [BitVec.toInt_eq_toNat_cond, if_pos (by omega)]
  have hposition : wrap32 (block.toInt * 512) = (block.toNat : ℤ) * 512 := by
    rw [hint]
    exact wrap32_eq_self (by omega) (by omega)
  have hblock : (wrap32 (block.toInt * 512) / 512).toNat = block.toNat := by omega
  unfold seek
  rw [run_exitIf_bind, if_neg (by omega), hblock]
  rfl

theorem run_readBlock (data : Block) {block : BitVec 32} (h : block.toNat < 4096) (img : TfsImage) :
    (readBlock data block).run img
      = .ok (if block.toNat < img.size then img.blocks block.toNat else data) img := by
  unfold readBlock
  rw [EStateM.run_bind, run_seek h]
  rfl

theorem run_writeBlock (data : Block) {block : BitVec 32} (h : block.toNat < 4096) (img : TfsImage) :
    (writeBlock data block).run img = .ok ()
      ⟨max img.size (block.toNat + 1), Function.update img.blocks block.toNat data⟩ := by
  unfold writeBlock
  rw [EStateM.run_bind, run_seek h]
  rfl

/-- A search depends on what is looked for in the range. -/
theorem find?_range_congr {n : ℕ} {p q : ℕ → Bool} (h : ∀ i < n, p i = q i) :
    (List.range n).find? p = (List.range n).find? q := by
  rw [← List.head?_filter, ← List.head?_filter]
  exact congrArg List.head? (List.filter_congr fun i hi => h i (List.mem_range.1 hi))

theorem length_source_fread (s : WriteState) (bat : Block) (i : ℕ) (bnum : BitVec 32) :
    (s.fread bat i bnum).source.length = s.source.length - 512 := List.length_drop

theorem filesize_fread (s : WriteState) (bat : Block) (i : ℕ) (bnum : BitVec 32) :
    (s.fread bat i bnum).filesize = s.filesize + min 512 s.source.length :=
  congrArg (s.filesize + ·) List.length_take

/-- The tool takes the first free bit, too. -/
theorem run_bitmapFindnset (b : Block) {l : ℕ} (hl : l ≤ 4096) (img : TfsImage) :
    (bitmapFindnset b l).run img = .ok (Kudos.bitmapFindnset .big b l) img := by
  have hfind : (List.range l).find? (fun i => decide (4096 ≤ i) || !bitmapGet .big b i)
      = (freeBits .big b l).head? := by
    unfold freeBits
    rw [List.head?_filter]
    refine find?_range_congr fun i hi => ?_
    simp only [Bool.or_eq_right_iff_imp, decide_eq_true_eq]
    omega
  unfold bitmapFindnset
  rw [Int.toNat_natCast, hfind]
  cases hfree : freeBits .big b l with
  | nil =>
      rw [bitmapFindnset_of_nil .big b hfree]
      rfl
  | cons p rest =>
      have hp := (freeBits_head .big b hfree).1
      rw [bitmapFindnset_of_cons .big b hfree]
      simp only [List.head?_cons]
      rw [if_neg (by omega)]
      rfl

end Tfstool

end Kudos
