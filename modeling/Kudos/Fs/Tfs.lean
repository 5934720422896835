import Kudos.Fs.Vfs
import Kudos.Lib.Bitmap
import Kudos.Library.CInt
import Kudos.Library.Words

set_option autoImplicit false

/-! # The trivial filesystem

The operations of `fs/tfs.c`, for processors of either byte order. An operation is a process
(`TfsProc`) that asks the block device for blocks and gives it blocks to write; each request may fail.
The lock of the volume is held from the first to the last statement of an operation and is left out,
and so are the messages. The three buffers of a mounted volume are re-read or overwritten before
anything in them is used, so they are local here. An index outside of an array and an assertion that
fails are `KernelFault`s. -/

namespace Kudos

open CInt Words

/-! ## Constants and layout -/

def tfsMagic : ℕ := 3745
def tfsBlockSize : ℕ := 512
def tfsHeaderBlock : BitVec 32 := 0
def tfsAllocationBlock : BitVec 32 := 1
def tfsDirectoryBlock : BitVec 32 := 2
def tfsFilenameMax : ℕ := 16

/-- `TFS_BLOCKS_MAX`, the size of the block table of an inode. -/
def tfsBlocksMax : ℕ := 127

/-- `TFS_MAX_FILES`: a directory entry has 20 bytes. -/
def tfsMaxFiles : ℕ := 25

/-- A mounted volume (`tfs_t`): where it lies on the device, and how many blocks it has. `tfs_init`
    limits these to what an allocation block has bits for. -/
structure TfsVolume where
  startblock : ℕ
  totalblocks : ℕ
  totalblocks_le : totalblocks ≤ 8 * tfsBlockSize

/-- The number of a block of the volume on the device, a `uint32_t`. -/
def TfsVolume.block (tfs : TfsVolume) (n : BitVec 32) : ℕ := (tfs.startblock + n.toNat) % 2 ^ 32

/-- `buffer_md[i].inode`, in the order of the processor. -/
def rawInode (e : Endian) (md : Block) (i : ℕ) : BitVec 32 := (md.word (5 * i)).load e

/-- `buffer_md[i].inode` as a number. -/
def entryInode (e : Endian) (md : Block) (i : ℕ) : BitVec 32 := fromBigEndian32 e (rawInode e md i)

/-- Where `buffer_md[i].name` starts. -/
def nameOffset (i : ℕ) : ℕ := 20 * i + 4

/-- `buffer_inode->filesize`, as an `int`. -/
def inodeFilesize (e : Endian) (inode : Block) : ℤ :=
  (fromBigEndian32 e ((inode.word 0).load e)).toInt

/-- `buffer_inode->block[i]`. -/
def inodeBlock (e : Endian) (inode : Block) (i : ℕ) : BitVec 32 :=
  fromBigEndian32 e ((inode.word (1 + i)).load e)

/-! ## Strings in a block -/

/-- `stringcmp(..) == 0` for the string at byte `off` of a block. -/
def stringEq (b : Block) : ℕ → List UInt8 → Bool
  | off, [] => b.byte off = 0
  | off, c :: s => if c = 0 then b.byte off = 0 else b.byte off = c && stringEq b (off + 1) s

/-- `stringcopy` to byte `off` of a block, with room for `n` characters and a terminator. -/
def stringcopy : Block → ℕ → ℕ → List UInt8 → Block
  | b, off, 0, _ => b.setByte off 0
  | b, off, n + 1, s =>
      if s.headD 0 = 0 then b.setByte off 0
      else stringcopy (b.setByte off (s.headD 0)) (off + 1) n s.tail

/-! ## Processes -/

/-- An operation of the filesystem, as seen by the block device. -/
inductive TfsProc (α : Type) : Type
  | done (a : α)
  | fault (f : KernelFault)
  /-- `read_block`; without a block the request failed. -/
  | readBlock (block : ℕ) (k : Option Block → TfsProc α)
  /-- `write_block`; `false` means that the request failed. -/
  | writeBlock (block : ℕ) (buf : Block) (k : Bool → TfsProc α)

namespace TfsProc

variable {α β : Type}

protected def bind : TfsProc α → (α → TfsProc β) → TfsProc β
  | done a, f => f a
  | fault x, _ => fault x
  | readBlock n k, f => readBlock n (fun r => (k r).bind f)
  | writeBlock n b k, f => writeBlock n b (fun r => (k r).bind f)

instance : Monad TfsProc where
  pure := done
  bind := TfsProc.bind

def ofExcept : Except KernelFault α → TfsProc α
  | .ok a => done a
  | .error f => fault f

/-- Run on a disk. Reads succeed; so do all writes (`none`), or only the first `k` (`some k`). -/
def run : TfsProc α → Option ℕ → (ℕ → Block) → Except KernelFault α × (ℕ → Block)
  | done a, _, disk => (.ok a, disk)
  | fault f, _, disk => (.error f, disk)
  | readBlock n k, w, disk => (k (some (disk n))).run w disk
  | writeBlock n b k, none, disk => (k true).run none (Function.update disk n b)
  | writeBlock _ _ k, some 0, disk => (k false).run (some 0) disk
  | writeBlock n b k, some (w + 1), disk => (k true).run (some w) (Function.update disk n b)

end TfsProc

def readBlock (n : ℕ) : TfsProc (Option Block) := .readBlock n .done

def writeBlock (n : ℕ) (b : Block) : TfsProc Bool := .writeBlock n b .done

/-! ## Open -/

/-- The search for a name in the directory. -/
def findName (md : Block) (filename : List UInt8) : Option ℕ :=
  (List.range tfsMaxFiles).find? (fun i => stringEq md (nameOffset i) filename)

/-- `tfs_open`. -/
def tfsOpen (e : Endian) (tfs : TfsVolume) (filename : List UInt8) : TfsProc ℤ := do
  let some md ← readBlock (tfs.block tfsDirectoryBlock) | return vfsError
  match findName md filename with
  | some i => return (entryInode e md i).toInt
  | none => return vfsNotFound

/-! ## Create -/

/-- `numblocks` of `tfs_create`: `int` arithmetic, stored as a `uint32_t`. -/
def createNumblocks (size : ℤ) : ℕ := (BitVec.ofInt 32 ((wrap32 (size + 511)).tdiv 512)).toNat

/-- The loop of `tfs_create` over the directory: `none` if the name is there, otherwise the last free
    entry, or -1. -/
def createIndex (e : Endian) (md : Block) (filename : List UInt8) : List ℕ → ℤ → Option ℤ
  | [], index => some index
  | i :: is, index =>
      if stringEq md (nameOffset i) filename then none
      else createIndex e md filename is (if entryInode e md i = 0 then i else index)

/-- The loop of `tfs_create` that allocates `n` blocks, for the block table from `i` on. -/
def allocBlocks (e : Endian) (totalblocks : ℕ) : ℕ → ℕ → Block → Block → Option (Block × Block)
  | 0, _, bat, inode => some (bat, inode)
  | n + 1, i, bat, inode =>
      let r := bitmapFindnset e bat totalblocks
      let inode := inode.setWord (1 + i) (.store e (fromBigEndian32 e (BitVec.ofInt 32 r.1)))
      if (inodeBlock e inode i).toInt = -1 then none
      else allocBlocks e totalblocks n (i + 1) r.2 inode

/-- Mark the block table as unused from `i` on. -/
def clearBlocks (inode : Block) (i : ℕ) : Block :=
  fun k => if 1 + i ≤ k.val then ⟨0, 0, 0, 0⟩ else inode k

/-- Write zeros to the `n` blocks of the block table from `i` on. -/
def zeroBlocks (e : Endian) (tfs : TfsVolume) (inode : Block) : ℕ → ℕ → TfsProc ℤ
  | 0, _ => return vfsOk
  | n + 1, i => do
      if !(← writeBlock (tfs.block (inodeBlock e inode i)) .zero) then return vfsError
      zeroBlocks e tfs inode n (i + 1)

/-- The part of `tfs_create` behind the allocation: everything is written. -/
def createWrite (e : Endian) (tfs : TfsVolume) (bat md inode : Block) (index numblocks : ℕ) :
    TfsProc ℤ := do
  if !(← writeBlock (tfs.block tfsAllocationBlock) bat) then return vfsError
  if !(← writeBlock (tfs.block tfsDirectoryBlock) md) then return vfsError
  if !(← writeBlock (tfs.block (entryInode e md index)) inode) then return vfsError
  zeroBlocks e tfs inode numblocks 0

/-- `tfs_create`. -/
def tfsCreate (e : Endian) (tfs : TfsVolume) (filename : List UInt8) (size : ℤ) : TfsProc ℤ := do
  let numblocks := createNumblocks size
  if tfsBlocksMax < numblocks then return vfsError
  let some md ← readBlock (tfs.block tfsDirectoryBlock) | return vfsError
  let some index := createIndex e md filename (List.range tfsMaxFiles) (-1) | return vfsError
  if index = -1 then return vfsError
  let md := stringcopy md (nameOffset index.toNat) (tfsFilenameMax - 1) filename
  let some bat ← readBlock (tfs.block tfsAllocationBlock) | return vfsError
  let r := bitmapFindnset e bat tfs.totalblocks
  -- the block number is stored in the order of the processor
  let md := md.setWord (5 * index.toNat) (.store e (BitVec.ofInt 32 r.1))
  if (entryInode e md index.toNat).toInt = -1 then return vfsError
  let inode := Block.zero.setWord 0 (.store e (fromBigEndian32 e (BitVec.ofInt 32 size)))
  let some (bat, inode) := allocBlocks e tfs.totalblocks numblocks 0 r.2 inode | return vfsError
  createWrite e tfs bat md (clearBlocks inode numblocks) index.toNat numblocks

/-! ## Remove -/

/-- The loop of `tfs_remove` over the block table: it calls `free`, a `bitmap_set`, for every number that
    is listed. -/
def freeBlocks {m : Type → Type} [Monad m] {β : Type} (free : β → BitVec 32 → m β) (e : Endian)
    (inode : Block) : ℕ → ℕ → β → m β
  | 0, _, bat => return bat
  | n + 1, i, bat => do
      if inodeBlock e inode i ≠ 0 then
        freeBlocks free e inode n (i + 1) (← free bat (inodeBlock e inode i))
      else return bat

/-- `tfs_remove`. A number of a block that the bitmap has no bit for is a fault; where the memory behind
    the bitmap matters, `Page.tfsRemove` is used. -/
def tfsRemove (e : Endian) (tfs : TfsVolume) (filename : List UInt8) : TfsProc ℤ := do
  let some md ← readBlock (tfs.block tfsDirectoryBlock) | return vfsError
  let some index := findName md filename | return vfsNotFound
  let some bat ← readBlock (tfs.block tfsAllocationBlock) | return vfsError
  let some inode ← readBlock (tfs.block (entryInode e md index)) | return vfsError
  let bat ← .ofExcept (bitmapSet e bat (entryInode e md index) false)
  let bat ← .ofExcept (freeBlocks (bitmapSet e · · false) e inode tfsBlocksMax 0 bat)
  let md := (md.setWord (5 * index) (.store e 0)).setByte (nameOffset index) 0
  if !(← writeBlock (tfs.block tfsAllocationBlock) bat) then return vfsError
  if !(← writeBlock (tfs.block tfsDirectoryBlock) md) then return vfsError
  return vfsOk

/-! ## Read and write -/

/-- `buffer_inode->block[i]` for an index that a file position gave. -/
def blockAt (e : Endian) (tfs : TfsVolume) (inode : Block) (i : ℤ) : TfsProc ℕ :=
  if 0 ≤ i ∧ i < tfsBlocksMax then return tfs.block (inodeBlock e inode i.toNat)
  else .fault .outOfBounds

/-- The bytes `memcopy` takes from a block. -/
def blockBytes (b : Block) (off n : ℕ) : List UInt8 := (List.range n).map (fun m => b.byte (off + m))

/-- The loop of `tfs_read` over the blocks from `b1` to `b2`. The result has the bytes that go to the
    buffer of the caller. -/
def readLoop (e : Endian) (tfs : TfsVolume) (inode : Block) (bufsize b2 : ℤ) :
    ℕ → ℤ → ℤ → List UInt8 → TfsProc (ℤ × List UInt8)
  | 0, _, read, buffer => return (read, buffer)
  | n + 1, b1, read, buffer => do
      let block ← blockAt e tfs inode b1
      let some data ← readBlock block | return (vfsError, buffer)
      if b1 = b2 then
        readLoop e tfs inode bufsize b2 n (b1 + 1) bufsize
          (buffer ++ blockBytes data 0 (bufsize - read).toNat)
      else
        readLoop e tfs inode bufsize b2 n (b1 + 1) (read + 512)
          (buffer ++ blockBytes data 0 tfsBlockSize)

/-- `tfs_read`: the result and what is put into the buffer. -/
def tfsRead (e : Endian) (tfs : TfsVolume) (fileid bufsize offset : ℤ) :
    TfsProc (ℤ × List UInt8) := do
  if fileid < 2 ∨ (tfs.totalblocks : ℤ) < fileid then return (vfsError, [])
  let some inode ← readBlock (tfs.block (BitVec.ofInt 32 fileid)) | return (vfsError, [])
  if offset < 0 ∨ inodeFilesize e inode < offset then return (vfsError, [])
  let bufsize := min bufsize (inodeFilesize e inode - offset)
  if bufsize = 0 then return (0, [])
  let b1 := offset.tdiv 512
  let b2 := (wrap32 (offset + bufsize - 1)).tdiv 512
  let block ← blockAt e tfs inode b1
  let some data ← readBlock block | return (vfsError, [])
  let read := min (512 - offset.tmod 512) bufsize
  readLoop e tfs inode bufsize b2 (b2 - b1).toNat (b1 + 1) read
    (blockBytes data (offset.tmod 512).toNat read.toNat)

/-- A block that will be overwritten in part only is read first. -/
def readPartial (partly : Prop) [Decidable partly] (block : ℕ) : TfsProc (Option Block) :=
  if partly then readBlock block else return some .zero

/-- The loop of `tfs_write` over the blocks from `b1` to `b2`; `data` is the buffer of the caller. -/
def writeLoop (e : Endian) (tfs : TfsVolume) (inode : Block) (data : ℕ → UInt8) (datasize b2 : ℤ) :
    ℕ → ℤ → ℤ → TfsProc ℤ
  | 0, _, written => return written
  | n + 1, b1, written => do
      let block ← blockAt e tfs inode b1
      if b1 = b2 then
        let some old ← readPartial (datasize - written < 512) block | return vfsError
        let buf := old.blit 0 (datasize - written).toNat (fun m => data (written.toNat + m))
        if !(← writeBlock block buf) then return vfsError
        writeLoop e tfs inode data datasize b2 n (b1 + 1) datasize
      else
        let buf := Block.zero.blit 0 tfsBlockSize (fun m => data (written.toNat + m))
        if !(← writeBlock block buf) then return vfsError
        writeLoop e tfs inode data datasize b2 n (b1 + 1) (written + 512)

/-- `tfs_write`. -/
def tfsWrite (e : Endian) (tfs : TfsVolume) (fileid : ℤ) (data : ℕ → UInt8)
    (datasize offset : ℤ) : TfsProc ℤ := do
  if fileid < 2 ∨ (tfs.totalblocks : ℤ) < fileid then return vfsError
  let some inode ← readBlock (tfs.block (BitVec.ofInt 32 fileid)) | return vfsError
  if offset < 0 ∨ inodeFilesize e inode < offset then return vfsError
  let datasize := min datasize (inodeFilesize e inode - offset)
  if datasize = 0 then return 0
  let b1 := offset.tdiv 512
  let b2 := (wrap32 (offset + datasize - 1)).tdiv 512
  let written := min (512 - offset.tmod 512) datasize
  let block ← blockAt e tfs inode b1
  let some old ← readPartial (written < 512) block | return vfsError
  if !(← writeBlock block (old.blit (offset.tmod 512).toNat written.toNat data)) then return vfsError
  writeLoop e tfs inode data datasize b2 (b2 - b1).toNat (b1 + 1) written

/-! ## Free space -/

/-- `tfs_getfree`. -/
def tfsGetfree (e : Endian) (tfs : TfsVolume) : TfsProc ℤ := do
  let some bat ← readBlock (tfs.block tfsAllocationBlock) | return vfsError
  let allocated := (List.range tfs.totalblocks).countP (bitmapGet e bat)
  return ((tfs.totalblocks - allocated) * tfsBlockSize : ℤ)

/-! ## New volumes -/

/-- `tfstool_createvol` of the host tool: the image of an empty volume. Its bitmap functions convert
    every word with `ntohl` and `htonl`, so they act on big-endian words on every host. `volname` is
    what the 16 bytes at the pointer hold. -/
def tfstoolCreatevol (volname : ℕ → UInt8) (n : ℕ) : Block :=
  if n = 0 then
    (Block.zero.setWord 0 (.ofBE (BitVec.ofNat 32 tfsMagic))).blit 4 16 volname
  else if n = 1 then
    setBit .big (setBit .big (setBit .big .zero 0 true) 1 true) 2 true
  else .zero

end Kudos
