import Kudos.Library.Requests
import Kudos.Fs.TfsCreate

set_option autoImplicit false

/-! # Accesses to the block table

The table `block` of an inode has `TFS_BLOCKS_MAX` entries. Here the operations that use it are written
down once more, as processes that tell which entries they access (`TableProc`); without that they are
the operations of `Kudos.Fs.Tfs`. Reads and writes stay inside the table. `tfs_remove` looks for a zero
behind the last block of a file, and the table of a file with as many blocks as possible has none. -/

namespace Kudos

open CInt Requests Words

/-! ## Processes that tell their accesses -/

/-- What an operation of the filesystem asks for. There is no answer to a fault. -/
inductive BlockRequest
  | fault (f : KernelFault)
  | readBlock (block : ℕ)
  | writeBlock (block : ℕ) (buf : Block)

def blockInterface : Interface where
  Request := BlockRequest
  Answer
    | .fault _ => Empty
    | .readBlock _ => Option Block
    | .writeBlock .. => Bool

/-- An operation of the filesystem that tells its accesses: `i` stands for one to
    `buffer_inode->block[i]`. -/
abbrev TableProc : Type → Type := Program blockInterface ℤ

/-- The operations of the filesystem make these requests. -/
def blockRequester : Requester blockInterface TfsProc where
  request
    | .fault f, _ => .fault f
    | .readBlock n, k => .readBlock n k
    | .writeBlock n b, k => .writeBlock n b k
  pure_bind _ _ := rfl
  request_bind r _ _ := by cases r <;> rfl

/-- A disk, whose requests may succeed or fail. -/
def diskAnswers :
    (r : BlockRequest) → (ℕ → Block) → List (blockInterface.Answer r × (ℕ → Block))
  | .fault _, _ => []
  | .readBlock n, d => [(some (d n), d), (none, d)]
  | .writeBlock n b, d => [(true, Function.update d n b), (false, d)]

namespace TableProc

variable {α β : Type}

/-- Without the accesses. -/
def erase (p : TableProc α) : TfsProc α := Program.erase blockRequester p

theorem erase_bind (p : TableProc α) (f : α → TableProc β) :
    (p >>= f).erase = p.erase >>= fun a => (f a).erase :=
  Program.erase_bind blockRequester p f

/-- The indices that are used on a disk, whether the requests succeed or fail. -/
def indices (p : TableProc α) (d : ℕ → Block) : List ℤ := p.accesses diskAnswers d

/-- Every access is to an entry that the table has. -/
def InTable (p : TableProc α) (d : ℕ → Block) : Prop := ∀ i ∈ p.indices d, 0 ≤ i ∧ i < tfsBlocksMax

end TableProc

/-! ## The operations -/

namespace Indexed

def fault {α : Type} (f : KernelFault) : TableProc α := .request (.fault f) Empty.elim

def readBlock (n : ℕ) : TableProc (Option Block) := .request (.readBlock n) .done

def writeBlock (n : ℕ) (b : Block) : TableProc Bool := .request (.writeBlock n b) .done

/-- An access to `buffer_inode->block[i]`. -/
def entry (i : ℤ) : TableProc Unit := .access i (.done ())

def ofExcept {α : Type} : Except KernelFault α → TableProc α
  | .ok a => return a
  | .error f => fault f

/-- The loop of `tfs_remove` from index `i` on, with `n` entries of the table ahead. Its condition is
`block[i] != 0 && i < TFS_BLOCK_SIZE / 4 - 1`, so it accesses `block[i]` before it looks at `i`. -/
def freeBlocks (e : Endian) (inode : Block) : ℕ → ℕ → Block → TableProc Block
  | 0, i, bat => do
      -- whatever there is behind the table, the second half of the condition is false
      entry i
      return bat
  | n + 1, i, bat => do
      entry i
      if inodeBlock e inode i ≠ 0 then
        entry i
        let bat ← ofExcept (bitmapSet e bat (inodeBlock e inode i) false)
        freeBlocks e inode n (i + 1) bat
      else return bat

/-- `tfs_remove`. -/
def tfsRemove (e : Endian) (tfs : TfsVolume) (filename : List UInt8) : TableProc ℤ := do
  let some md ← readBlock (tfs.block tfsDirectoryBlock) | return vfsError
  let some index := findName md filename | return vfsNotFound
  let some bat ← readBlock (tfs.block tfsAllocationBlock) | return vfsError
  let some inode ← readBlock (tfs.block (entryInode e md index)) | return vfsError
  let bat ← ofExcept (bitmapSet e bat (entryInode e md index) false)
  let bat ← freeBlocks e inode tfsBlocksMax 0 bat
  let md := (md.setWord (5 * index) (.store e 0)).setByte (nameOffset index) 0
  if !(← writeBlock (tfs.block tfsAllocationBlock) bat) then return vfsError
  if !(← writeBlock (tfs.block tfsDirectoryBlock) md) then return vfsError
  return vfsOk

/-- `tfs->startblock + block[i]`. -/
def blockAt (e : Endian) (tfs : TfsVolume) (inode : Block) (i : ℤ) : TableProc ℕ := do
  entry i
  if 0 ≤ i ∧ i < tfsBlocksMax then return tfs.block (inodeBlock e inode i.toNat)
  else fault .outOfBounds

/-- The loop of `tfs_read`. -/
def readLoop (e : Endian) (tfs : TfsVolume) (inode : Block) (bufsize b2 : ℤ) :
    ℕ → ℤ → ℤ → List UInt8 → TableProc (ℤ × List UInt8)
  | 0, _, read, buffer => return (read, buffer)
  | n + 1, b1, read, buffer => do
      let block ← blockAt e tfs inode b1
      let some data ← readBlock block | return (vfsError, buffer)
      if b1 = b2 then
        readLoop e tfs inode bufsize b2 n (b1 + 1) bufsize
          (buffer ++ blockBytes data 0 (bufsize - read).toNat)
      else
        readLoop e tfs inode bufsize b2 n (b1 + 1) (read + 512)
          (buffer ++ blockBytes data 0 tfsBlockSize)

/-- `tfs_read`. -/
def tfsRead (e : Endian) (tfs : TfsVolume) (fileid bufsize offset : ℤ) :
    TableProc (ℤ × List UInt8) := do
  if fileid < 2 ∨ (tfs.totalblocks : ℤ) < fileid then return (vfsError, [])
  let some inode ← readBlock (tfs.block (BitVec.ofInt 32 fileid)) | return (vfsError, [])
  if offset < 0 ∨ inodeFilesize e inode < offset then return (vfsError, [])
  let bufsize := min bufsize (inodeFilesize e inode - offset)
  if bufsize = 0 then return (0, [])
  let b1 := offset.tdiv 512
  let b2 := (wrap32 (offset + bufsize - 1)).tdiv 512
  let block ← blockAt e tfs inode b1
  let some data ← readBlock block | return (vfsError, [])
  let read := min (512 - offset.tmod 512) bufsize
  readLoop e tfs inode bufsize b2 (b2 - b1).toNat (b1 + 1) read
    (blockBytes data (offset.tmod 512).toNat read.toNat)

/-- The read request for a block that will be overwritten in part only. -/
def readPartial (e : Endian) (tfs : TfsVolume) (inode : Block) (partly : Prop) [Decidable partly]
    (i : ℤ) : TableProc (Option Block) := do
  if partly then
    let block ← blockAt e tfs inode i
    readBlock block
  else return some .zero

/-- The loop of `tfs_write`. -/
def writeLoop (e : Endian) (tfs : TfsVolume) (inode : Block) (data : ℕ → UInt8) (datasize b2 : ℤ) :
    ℕ → ℤ → ℤ → TableProc ℤ
  | 0, _, written => return written
  | n + 1, b1, written => do
      if b1 = b2 then
        let some old ← readPartial e tfs inode (datasize - written < 512) b1 | return vfsError
        let buf := old.blit 0 (datasize - written).toNat (fun m => data (written.toNat + m))
        let block ← blockAt e tfs inode b1
        if !(← writeBlock block buf) then return vfsError
        writeLoop e tfs inode data datasize b2 n (b1 + 1) datasize
      else
        let buf := Block.zero.blit 0 tfsBlockSize (fun m => data (written.toNat + m))
        let block ← blockAt e tfs inode b1
        if !(← writeBlock block buf) then return vfsError
        writeLoop e tfs inode data datasize b2 n (b1 + 1) (written + 512)

/-- `tfs_write`. -/
def tfsWrite (e : Endian) (tfs : TfsVolume) (fileid : ℤ) (data : ℕ → UInt8)
    (datasize offset : ℤ) : TableProc ℤ := do
  if fileid < 2 ∨ (tfs.totalblocks : ℤ) < fileid then return vfsError
  let some inode ← readBlock (tfs.block (BitVec.ofInt 32 fileid)) | return vfsError
  if offset < 0 ∨ inodeFilesize e inode < offset then return vfsError
  let datasize := min datasize (inodeFilesize e inode - offset)
  if datasize = 0 then return 0
  let b1 := offset.tdiv 512
  let b2 := (wrap32 (offset + datasize - 1)).tdiv 512
  let written := min (512 - offset.tmod 512) datasize
  let some old ← readPartial e tfs inode (written < 512) b1 | return vfsError
  let block ← blockAt e tfs inode b1
  if !(← writeBlock block (old.blit (offset.tmod 512).toNat written.toNat data)) then return vfsError
  writeLoop e tfs inode data datasize b2 (b2 - b1).toNat (b1 + 1) written

end Indexed

/-! ## Without the accesses they are the operations of the filesystem -/

section

variable {α : Type} {e : Endian} {tfs : TfsVolume}

theorem erase_readBlock_bind (n : ℕ) (k : Option Block → TableProc α) :
    (Indexed.readBlock n >>= k).erase = readBlock n >>= fun r => (k r).erase := rfl

theorem erase_writeBlock_bind (n : ℕ) (b : Block) (k : Bool → TableProc α) :
    (Indexed.writeBlock n b >>= k).erase = writeBlock n b >>= fun r => (k r).erase := rfl

theorem erase_entry_bind (i : ℤ) (k : Unit → TableProc α) :
    (Indexed.entry i >>= k).erase = (k ()).erase := rfl

theorem erase_ofExcept_bind {β : Type} (x : Except KernelFault β) (k : β → TableProc α) :
    (Indexed.ofExcept x >>= k).erase = TfsProc.ofExcept x >>= fun b => (k b).erase := by
  cases x <;> rfl

theorem erase_freeBlocks (inode : Block) (n i : ℕ) (bat : Block) :
    (Indexed.freeBlocks e inode n i bat).erase
      = .ofExcept (freeBlocks (bitmapSet e · · false) e inode n i bat) := by
  induction n generalizing i bat with
  | zero => rfl
  | succ n ih =>
      unfold Indexed.freeBlocks freeBlocks
      rw [erase_entry_bind]
      split
      · rw [erase_entry_bind, erase_ofExcept_bind]
        cases bitmapSet e bat (inodeBlock e inode i) false with
        | error f => rfl
        | ok bat => exact ih _ _
      · rfl

theorem erase_tfsRemove (filename : List UInt8) :
    (Indexed.tfsRemove e tfs filename).erase = tfsRemove e tfs filename := by
  unfold Indexed.tfsRemove tfsRemove
  refine (erase_readBlock_bind ..).trans (congrArg _ (funext fun r => ?_))
  cases r with
  | none => rfl
  | some md =>
      simp only
      cases findName md filename with
      | none => rfl
      | some index =>
          refine (erase_readBlock_bind ..).trans (congrArg _ (funext fun r => ?_))
          cases r with
          | none => rfl
          | some bat =>
              refine (erase_readBlock_bind ..).trans (congrArg _ (funext fun r => ?_))
              cases r with
              | none => rfl
              | some inode =>
                  refine (erase_ofExcept_bind ..).trans (congrArg _ (funext fun bat => ?_))
                  rw [TableProc.erase_bind, erase_freeBlocks]
                  refine congrArg _ (funext fun bat => ?_)
                  refine (erase_writeBlock_bind ..).trans (congrArg _ (funext fun r => ?_))
                  cases r with
                  | false => rfl
                  | true =>
                      refine (erase_writeBlock_bind ..).trans (congrArg _ (funext fun r => ?_))
                      cases r <;> rfl

/-- An index outside of the table is a fault. -/
theorem erase_blockAt_bind {inode : Block} {i : ℤ} (k : ℕ → TableProc α) :
    (Indexed.blockAt e tfs inode i >>= k).erase = blockAt e tfs inode i >>= fun b => (k b).erase := by
  unfold Indexed.blockAt blockAt
  rw [TableProc.erase_bind, erase_entry_bind]
  split
  · rfl
  · rfl

theorem erase_readLoop (inode : Block) (bufsize b2 : ℤ) (n : ℕ) (b1 read : ℤ) (buffer : List UInt8) :
    (Indexed.readLoop e tfs inode bufsize b2 n b1 read buffer).erase
      = readLoop e tfs inode bufsize b2 n b1 read buffer := by
  induction n generalizing b1 read buffer with
  | zero => rfl
  | succ n ih =>
      unfold Indexed.readLoop readLoop
      refine (erase_blockAt_bind _).trans (congrArg _ (funext fun block => ?_))
      refine (erase_readBlock_bind ..).trans (congrArg _ (funext fun r => ?_))
      cases r with
      | none => rfl
      | some data =>
          simp only
          split
          · exact ih _ _ _
          · exact ih _ _ _

theorem erase_tfsRead (fileid bufsize offset : ℤ) :
    (Indexed.tfsRead e tfs fileid bufsize offset).erase = tfsRead e tfs fileid bufsize offset := by
  unfold Indexed.tfsRead tfsRead
  split
  · rfl
  · refine (erase_readBlock_bind ..).trans (congrArg _ (funext fun r => ?_))
    cases r with
    | none => rfl
    | some inode =>
        simp only
        split
        · rfl
        · split
          · rfl
          · refine (erase_blockAt_bind _).trans (congrArg _ (funext fun block => ?_))
            refine (erase_readBlock_bind ..).trans (congrArg _ (funext fun r => ?_))
            cases r with
            | none => rfl
            | some data => exact erase_readLoop ..

/-- Looking up the same block twice is looking it up once. -/
theorem erase_readPartial_bind {inode : Block} {partly : Prop} [Decidable partly] {i : ℤ}
    (k : Option Block → TableProc α) (f : Option Block → ℕ → TfsProc α)
    (hnone : ∀ block, (k none).erase = f none block)
    (hsome : ∀ old, (k (some old)).erase = blockAt e tfs inode i >>= f (some old)) :
    (Indexed.readPartial e tfs inode partly i >>= k).erase
      = blockAt e tfs inode i >>= fun block => readPartial partly block >>= fun r => f r block := by
  unfold Indexed.readPartial readPartial
  by_cases hi : 0 ≤ i ∧ i < tfsBlocksMax
  · have hin : blockAt e tfs inode i = .done (tfs.block (inodeBlock e inode i.toNat)) := if_pos hi
    have hrest : ∀ r, (k r).erase = f r (tfs.block (inodeBlock e inode i.toNat)) := by
      intro r
      cases r with
      | none => exact hnone _
      | some old =>
          rw [hsome, hin]
          rfl
    by_cases hpartly : partly
    · simp only [hpartly, if_true]
      rw [TableProc.erase_bind, erase_blockAt_bind, hin]
      exact congrArg _ (funext hrest)
    · simp only [hpartly, if_false]
      rw [hin]
      exact hrest _
  · have hout : blockAt e tfs inode i = .fault .outOfBounds := if_neg hi
    by_cases hpartly : partly
    · simp only [hpartly, if_true]
      rw [TableProc.erase_bind, erase_blockAt_bind, hout]
      rfl
    · simp only [hpartly, if_false]
      rw [hout]
      exact (hsome _).trans (by rw [hout]; rfl)

theorem erase_writeLoop (inode : Block) (data : ℕ → UInt8) (datasize b2 : ℤ) (n : ℕ)
    (b1 written : ℤ) : (Indexed.writeLoop e tfs inode data datasize b2 n b1 written).erase
      = writeLoop e tfs inode data datasize b2 n b1 written := by
  induction n generalizing b1 written with
  | zero => rfl
  | succ n ih =>
      unfold Indexed.writeLoop writeLoop
      split
      · refine erase_readPartial_bind _ _ (fun _ => rfl) fun old => ?_
        refine (erase_blockAt_bind _).trans (congrArg _ (funext fun block => ?_))
        refine (erase_writeBlock_bind ..).trans (congrArg _ (funext fun r => ?_))
        cases r with
        | false => rfl
        | true => exact ih _ _
      · refine (erase_blockAt_bind _).trans (congrArg _ (funext fun block => ?_))
        refine (erase_writeBlock_bind ..).trans (congrArg _ (funext fun r => ?_))
        cases r with
        | false => rfl
        | true => exact ih _ _

theorem erase_tfsWrite (fileid : ℤ) (data : ℕ → UInt8) (datasize offset : ℤ) :
    (Indexed.tfsWrite e tfs fileid data datasize offset).erase
      = tfsWrite e tfs fileid data datasize offset := by
  unfold Indexed.tfsWrite tfsWrite
  split
  · rfl
  · refine (erase_readBlock_bind ..).trans (congrArg _ (funext fun r => ?_))
    cases r with
    | none => rfl
    | some inode =>
        simp only
        split
        · rfl
        · split
          · rfl
          · refine erase_readPartial_bind _ _ (fun _ => rfl) fun old => ?_
            refine (erase_blockAt_bind _).trans (congrArg _ (funext fun block => ?_))
            refine (erase_writeBlock_bind ..).trans (congrArg _ (funext fun r => ?_))
            cases r with
            | false => rfl
            | true => exact erase_writeLoop ..

end

/-! ## Accesses inside the table -/

section

variable {α β : Type} {d : ℕ → Block}

theorem inTable_pure (a : α) : (pure a : TableProc α).InTable d := Program.within_done a d

theorem inTable_entry_bind {i : ℤ} {k : Unit → TableProc α} (hi : 0 ≤ i ∧ i < tfsBlocksMax)
    (hk : (k ()).InTable d) : (Indexed.entry i >>= k).InTable d :=
  Program.within_access hi hk

theorem inTable_readBlock_bind {n : ℕ} {k : Option Block → TableProc α}
    (hsome : (k (some (d n))).InTable d) (hnone : (k none).InTable d) :
    (Indexed.readBlock n >>= k).InTable d := by
  refine Program.within_request fun a ha => ?_
  rcases List.mem_pair.1 ha with rfl | rfl
  · exact hsome
  · exact hnone

theorem inTable_writeBlock_bind {n : ℕ} {b : Block} {k : Bool → TableProc α}
    (htrue : (k true).InTable (Function.update d n b)) (hfalse : (k false).InTable d) :
    (Indexed.writeBlock n b >>= k).InTable d := by
  refine Program.within_request fun a ha => ?_
  rcases List.mem_pair.1 ha with rfl | rfl
  · exact htrue
  · exact hfalse

theorem inTable_ofExcept_bind {x : Except KernelFault β} {k : β → TableProc α}
    (hk : ∀ b, (k b).InTable d) : (Indexed.ofExcept x >>= k).InTable d := by
  cases x with
  | error f => exact Program.within_request fun a ha => absurd ha List.not_mem_nil
  | ok b => exact hk b

theorem inTable_bind {p : TableProc α} {f : α → TableProc β} (hp : p.InTable d)
    (hf : ∀ a d', (f a).InTable d') : (p >>= f).InTable d :=
  Program.within_bind hp hf

variable {e : Endian} {tfs : TfsVolume} {inode : Block}

theorem indexed_blockAt_eq {i : ℤ} (hi : 0 ≤ i ∧ i < tfsBlocksMax) :
    Indexed.blockAt e tfs inode i = .access i (.done (tfs.block (inodeBlock e inode i.toNat))) := by
  unfold Indexed.blockAt
  rw [if_pos hi]
  rfl

theorem inTable_blockAt_bind {i : ℤ} {k : ℕ → TableProc α} (hi : 0 ≤ i ∧ i < tfsBlocksMax)
    (hk : ∀ b, (k b).InTable d) : (Indexed.blockAt e tfs inode i >>= k).InTable d := by
  rw [indexed_blockAt_eq hi]
  exact inTable_entry_bind (k := fun _ => k _) hi (hk _)

theorem inTable_readPartial_bind {partly : Prop} [Decidable partly] {i : ℤ}
    {k : Option Block → TableProc α} (hi : 0 ≤ i ∧ i < tfsBlocksMax) (hk : ∀ r, (k r).InTable d) :
    (Indexed.readPartial e tfs inode partly i >>= k).InTable d := by
  unfold Indexed.readPartial
  split
  · rw [indexed_blockAt_eq hi]
    exact inTable_entry_bind (k := fun _ => Indexed.readBlock _ >>= k) hi
      (inTable_readBlock_bind (hk _) (hk _))
  · exact hk _

theorem inTable_readLoop (bufsize b2 : ℤ) (n : ℕ) (b1 read : ℤ) (buffer : List UInt8)
    (h : ∀ k, b1 ≤ k → k < b1 + n → 0 ≤ k ∧ k < tfsBlocksMax) :
    (Indexed.readLoop e tfs inode bufsize b2 n b1 read buffer).InTable d := by
  induction n generalizing b1 read buffer with
  | zero => exact inTable_pure _
  | succ n ih =>
      have hrest : ∀ k, b1 + 1 ≤ k → k < b1 + 1 + n → 0 ≤ k ∧ k < tfsBlocksMax :=
        fun k hlo hhi => h k (by omega) (by push_cast; omega)
      unfold Indexed.readLoop
      refine inTable_blockAt_bind (h b1 (le_refl _) (by push_cast; omega)) fun block => ?_
      refine inTable_readBlock_bind ?_ (inTable_pure _)
      simp only
      split
      · exact ih _ _ _ hrest
      · exact ih _ _ _ hrest

theorem inTable_writeLoop (data : ℕ → UInt8) (datasize b2 : ℤ) (n : ℕ) (b1 written : ℤ)
    (h : ∀ k, b1 ≤ k → k < b1 + n → 0 ≤ k ∧ k < tfsBlocksMax) :
    (Indexed.writeLoop e tfs inode data datasize b2 n b1 written).InTable d := by
  induction n generalizing b1 written d with
  | zero => exact inTable_pure _
  | succ n ih =>
      have hfirst := h b1 (le_refl _) (by push_cast; omega)
      have hrest : ∀ k, b1 + 1 ≤ k → k < b1 + 1 + n → 0 ≤ k ∧ k < tfsBlocksMax :=
        fun k hlo hhi => h k (by omega) (by push_cast; omega)
      unfold Indexed.writeLoop
      split
      · refine inTable_readPartial_bind hfirst fun r => ?_
        cases r with
        | none => exact inTable_pure _
        | some old =>
            refine inTable_blockAt_bind hfirst fun block => ?_
            exact inTable_writeBlock_bind (ih _ _ hrest) (inTable_pure _)
      · refine inTable_blockAt_bind hfirst fun block => ?_
        exact inTable_writeBlock_bind (ih _ _ hrest) (inTable_pure _)

/-- The blocks from which on and up to which a call works, for `n` bytes from `offset` on that are
bytes of the file. -/
theorem blockRange_inTable (offset n : ℤ) {size : ℤ} (hsize : size ≤ 512 * tfsBlocksMax)
    (hoffset : 0 ≤ offset) (hn : 0 < n) (hfit : offset + n ≤ size) :
    (0 ≤ offset.tdiv 512 ∧ offset.tdiv 512 < tfsBlocksMax) ∧
    ∀ k, offset.tdiv 512 + 1 ≤ k →
      k < offset.tdiv 512 + 1 + ((wrap32 (offset + n - 1)).tdiv 512 - offset.tdiv 512).toNat →
      0 ≤ k ∧ k < tfsBlocksMax := by
  simp only [tfsBlocksMax] at hsize ⊢
  have hwrap : wrap32 (offset + n - 1) = offset + n - 1 :=
    wrap32_eq_self (by omega) (by omega)
  have hb1 : offset.tdiv 512 = offset / 512 := Int.tdiv_eq_ediv_of_nonneg hoffset
  have hb2 : (offset + n - 1).tdiv 512 = (offset + n - 1) / 512 :=
    Int.tdiv_eq_ediv_of_nonneg (by omega)
  rw [hwrap, hb1, hb2]
  exact ⟨by omega, fun k hlo hhi => by omega⟩

/-- `tfs_read` stays inside the table. -/
theorem inTable_tfsRead {fileid bufsize : ℤ} (offset : ℤ) (hbuf : 0 ≤ bufsize)
    (hsize : inodeFilesize e (d (tfs.block (BitVec.ofInt 32 fileid))) ≤ 512 * tfsBlocksMax) :
    (Indexed.tfsRead e tfs fileid bufsize offset).InTable d := by
  unfold Indexed.tfsRead
  split
  · exact inTable_pure _
  · refine inTable_readBlock_bind ?_ (inTable_pure _)
    simp only
    split
    · exact inTable_pure _
    · split
      · exact inTable_pure _
      · obtain ⟨hfirst, hrest⟩ := blockRange_inTable offset
          (min bufsize (inodeFilesize e (d (tfs.block (BitVec.ofInt 32 fileid))) - offset)) hsize
          (by omega) (by omega) (by omega)
        refine inTable_blockAt_bind hfirst fun block => ?_
        exact inTable_readBlock_bind (inTable_readLoop _ _ _ _ _ _ hrest) (inTable_pure _)

/-- `tfs_write` stays inside the table. -/
theorem inTable_tfsWrite {fileid datasize : ℤ} (data : ℕ → UInt8) (offset : ℤ) (hdata : 0 ≤ datasize)
    (hsize : inodeFilesize e (d (tfs.block (BitVec.ofInt 32 fileid))) ≤ 512 * tfsBlocksMax) :
    (Indexed.tfsWrite e tfs fileid data datasize offset).InTable d := by
  unfold Indexed.tfsWrite
  split
  · exact inTable_pure _
  · refine inTable_readBlock_bind ?_ (inTable_pure _)
    simp only
    split
    · exact inTable_pure _
    · split
      · exact inTable_pure _
      · obtain ⟨hfirst, hrest⟩ := blockRange_inTable offset
          (min datasize (inodeFilesize e (d (tfs.block (BitVec.ofInt 32 fileid))) - offset)) hsize
          (by omega) (by omega) (by omega)
        refine inTable_readPartial_bind hfirst fun r => ?_
        cases r with
        | none => exact inTable_pure _
        | some old =>
            refine inTable_blockAt_bind hfirst fun block => ?_
            exact inTable_writeBlock_bind (inTable_writeLoop _ _ _ _ _ _ hrest) (inTable_pure _)

/-! ## The search for the end of the table -/

/-- A request that succeeds leads on to what comes after it. -/
theorem mem_indices_readBlock_bind {i : ℤ} {n : ℕ} {k : Option Block → TableProc α}
    (h : i ∈ (k (some (d n))).indices d) : i ∈ (Indexed.readBlock n >>= k).indices d :=
  Program.mem_accesses_request.2 ⟨(some (d n), d), List.mem_cons_self .., h⟩

/-- With a zero in the rest of the table the loop of `tfs_remove` ends there. -/
theorem inTable_freeBlocks {n i : ℕ} (h : i + n = tfsBlocksMax)
    (hzero : ∃ k, i ≤ k ∧ k < tfsBlocksMax ∧ inodeBlock e inode k = 0) (bat : Block) :
    (Indexed.freeBlocks e inode n i bat).InTable d := by
  induction n generalizing i bat with
  | zero =>
      obtain ⟨k, hik, hk, -⟩ := hzero
      omega
  | succ n ih =>
      have hi : 0 ≤ (i : ℤ) ∧ (i : ℤ) < tfsBlocksMax := by omega
      unfold Indexed.freeBlocks
      refine inTable_entry_bind hi ?_
      split
      · next hne =>
          obtain ⟨k, hik, hk, hblock⟩ := hzero
          have hki : k ≠ i := by
            rintro rfl
            exact hne hblock
          refine inTable_entry_bind hi (inTable_ofExcept_bind fun bat => ?_)
          exact ih (by omega) ⟨k, by omega, hk, hblock⟩ bat
      · exact inTable_pure _

/-- Without one it looks behind the table. -/
theorem mem_indices_freeBlocks {n i : ℕ} (h : i + n = tfsBlocksMax)
    (hfull : ∀ k, i ≤ k → k < tfsBlocksMax → inodeBlock e inode k ≠ 0 ∧
      (inodeBlock e inode k).toNat < 4096) (bat : Block) :
    (tfsBlocksMax : ℤ) ∈ (Indexed.freeBlocks e inode n i bat).indices d := by
  induction n generalizing i bat with
  | zero =>
      rw [← h]
      exact List.mem_cons_self ..
  | succ n ih =>
      obtain ⟨hne, hlt⟩ := hfull i (le_refl _) (by omega)
      unfold Indexed.freeBlocks
      rw [if_pos hne, bitmapSet_ok e bat hlt]
      refine List.mem_cons_of_mem _ (List.mem_cons_of_mem _ ?_)
      exact ih (by omega) (fun k hik hk => hfull k (by omega) hk) _

variable {filename : List UInt8}

theorem inTable_tfsRemove (h : ∀ i, findName (d (tfs.block tfsDirectoryBlock)) filename = some i →
      ∃ k < tfsBlocksMax,
        inodeBlock e (d (tfs.block (entryInode e (d (tfs.block tfsDirectoryBlock)) i))) k = 0) :
    (Indexed.tfsRemove e tfs filename).InTable d := by
  unfold Indexed.tfsRemove
  refine inTable_readBlock_bind ?_ (inTable_pure _)
  simp only
  cases hfind : findName (d (tfs.block tfsDirectoryBlock)) filename with
  | none => exact inTable_pure _
  | some i =>
      obtain ⟨k, hk, hblock⟩ := h i hfind
      refine inTable_readBlock_bind ?_ (inTable_pure _)
      refine inTable_readBlock_bind ?_ (inTable_pure _)
      refine inTable_ofExcept_bind fun bat => ?_
      refine inTable_bind (inTable_freeBlocks (Nat.zero_add _) ⟨k, Nat.zero_le _, hk, hblock⟩ bat) ?_
      intro bat d'
      exact inTable_writeBlock_bind (inTable_writeBlock_bind (inTable_pure _) (inTable_pure _))
        (inTable_pure _)

theorem mem_indices_tfsRemove {i : ℕ}
    (hfind : findName (d (tfs.block tfsDirectoryBlock)) filename = some i)
    (hinode : (entryInode e (d (tfs.block tfsDirectoryBlock)) i).toNat < 4096)
    (hfull : ∀ k < tfsBlocksMax,
      inodeBlock e (d (tfs.block (entryInode e (d (tfs.block tfsDirectoryBlock)) i))) k ≠ 0 ∧
      (inodeBlock e (d (tfs.block (entryInode e (d (tfs.block tfsDirectoryBlock)) i))) k).toNat < 4096) :
    (tfsBlocksMax : ℤ) ∈ (Indexed.tfsRemove e tfs filename).indices d := by
  unfold Indexed.tfsRemove
  refine mem_indices_readBlock_bind ?_
  simp only [hfind]
  refine mem_indices_readBlock_bind (mem_indices_readBlock_bind ?_)
  rw [bitmapSet_ok e _ hinode]
  exact Program.mem_accesses_bind
    (mem_indices_freeBlocks (Nat.zero_add _) (fun k _ hk => hfull k hk) _) _

end

/-! ## Calls -/

/-- A call that uses the block table of a file. -/
inductive TableCall
  | remove (name : FileName)
  | read (file bufsize offset : ℤ)
  | write (file : ℤ) (data : ℕ → UInt8) (datasize offset : ℤ)

namespace TableCall

/-- The call is for a file of the volume, and sizes are not negative. -/
def Allowed (V : Volume) : TableCall → Prop
  | remove name => ∃ i, findName (V tfsDirectoryBlock) name.chars = some i
  | read file bufsize _ => 0 ≤ bufsize ∧ ∃ i, Live V i ∧ file = fileid V i
  | write file _ datasize _ => 0 ≤ datasize ∧ ∃ i, Live V i ∧ file = fileid V i

/-- The indices of the block table that the call uses. -/
def indices (tfs : TfsVolume) (d : ℕ → Block) : TableCall → List ℤ
  | remove name => (Indexed.tfsRemove .big tfs name.chars).indices d
  | read file bufsize offset => (Indexed.tfsRead .big tfs file bufsize offset).indices d
  | write file data datasize offset => (Indexed.tfsWrite .big tfs file data datasize offset).indices d

/-- It removes a file that needs all entries of the table. -/
def RemovesFull (V : Volume) : TableCall → Prop
  | remove name => ∃ i, findName (V tfsDirectoryBlock) name.chars = some i ∧
      126 * 512 < inodeFilesize .big (V (dirInode V i))
  | read .. => False
  | write .. => False

end TableCall

section

variable {tfs : TfsVolume} {d : ℕ → Block}

/-- The removal of a file that needs all entries of the table looks behind it. -/
theorem mem_indices_of_full (hV : VolumeInvariant tfs.totalblocks (tfs.view d)) {name : FileName}
    {i : ℕ} (hfind : findName (tfs.view d tfsDirectoryBlock) name.chars = some i)
    (hsize : 126 * 512 < inodeFilesize .big (tfs.view d (dirInode (tfs.view d) i))) :
    (tfsBlocksMax : ℤ) ∈ (Indexed.tfsRemove .big tfs name.chars).indices d := by
  have htotal := tfs.totalblocks_le
  simp only [tfsBlockSize] at htotal
  have hlive := hV.sound.live_of_findName hfind
  have hlisted := (hV.shape i hlive).listed
  unfold blocksFor at hlisted
  have hrange : ∀ n ∈ fileBlocks (tfs.view d) i, n.toNat < 4096 := fun n hn => by
    have := hV.range i n hn
    omega
  refine mem_indices_tfsRemove hfind (hrange _ (dirInode_mem_fileBlocks hlive)) fun k hk => ?_
  have hne := (hlisted k hk).2 (by simp only [tfsBlocksMax] at hk; omega)
  refine ⟨hne, hrange _ ?_⟩
  rw [fileBlocks_of_live hlive]
  exact List.mem_cons_of_mem _ (mem_blockList.2 ⟨⟨k, hk, rfl⟩, hne⟩)

/-- The table of any other file has a zero. -/
theorem tfsRemove_inTable_iff (hV : VolumeInvariant tfs.totalblocks (tfs.view d)) {name : FileName}
    {i : ℕ} (hfind : findName (tfs.view d tfsDirectoryBlock) name.chars = some i) :
    (Indexed.tfsRemove .big tfs name.chars).InTable d ↔
      inodeFilesize .big (tfs.view d (dirInode (tfs.view d) i)) ≤ 126 * 512 := by
  constructor
  · intro hin
    by_contra hsize
    have := (hin _ (mem_indices_of_full hV hfind (Int.not_le.1 hsize))).2
    omega
  · intro hsize
    refine inTable_tfsRemove fun j hj => ⟨126, by decide, ?_⟩
    obtain rfl : i = j := Option.some.inj (hfind.symm.trans hj)
    by_contra hne
    have := ((hV.shape i (hV.sound.live_of_findName hfind)).listed 126 (by decide)).1 hne
    unfold blocksFor at this
    omega

/-- Files are not larger than the table allows. -/
theorem VolumeInvariant.filesize_le {total : ℕ} {V : Volume} (hV : VolumeInvariant total V) {i : ℕ}
    (hi : Live V i) : inodeFilesize .big (V (dirInode V i)) ≤ 512 * tfsBlocksMax := by
  have hfits := (hV.shape i hi).fits
  unfold blocksFor at hfits
  omega

end

/-- **Which calls stay inside the block table.** All of them, except for the removal of a file that
needs the whole table. -/
theorem tableCall_inTable_iff {n : ℕ} {d : ℕ → Block} (h : TfsReachable n d) {c : TableCall}
    (hc : c.Allowed ((diskVolume n).view d)) :
    (∀ i ∈ c.indices (diskVolume n) d, 0 ≤ i ∧ i < tfsBlocksMax) ↔
      ¬ c.RemovesFull ((diskVolume n).view d) := by
  have hV := h.invariant
  have hsize : ∀ i, Live ((diskVolume n).view d) i →
      inodeFilesize .big (d ((diskVolume n).block (BitVec.ofInt 32 (fileid ((diskVolume n).view d) i))))
        ≤ 512 * tfsBlocksMax := by
    intro i hi
    have hview := view_fileid ((diskVolume n).view d) i
    have hfile := hV.filesize_le hi
    rwa [← hview] at hfile
  cases c with
  | remove name =>
      obtain ⟨i, hfind⟩ := hc
      have hiff := tfsRemove_inTable_iff hV hfind
      refine hiff.trans ⟨?_, fun hsmall => ?_⟩
      · rintro hle ⟨j, hj, hlt⟩
        obtain rfl : i = j := Option.some.inj (hfind.symm.trans hj)
        omega
      · by_contra hlt
        exact hsmall ⟨i, hfind, by omega⟩
  | read file bufsize offset =>
      obtain ⟨hbuf, i, hi, rfl⟩ := hc
      exact iff_of_true (inTable_tfsRead offset hbuf (hsize i hi)) id
  | write file data datasize offset =>
      obtain ⟨hdata, i, hi, rfl⟩ := hc
      exact iff_of_true (inTable_tfsWrite data offset hdata (hsize i hi)) id

/-- The file of `createdDisk` has two blocks. -/
theorem tableCall_inTable_iff_createdDisk :
    TfsReachable 16 createdDisk ∧
    ∀ i ∈ (TableCall.remove nameA).indices (diskVolume 16) createdDisk,
      0 ≤ i ∧ i < (tfsBlocksMax : ℤ) := by
  have hentry : findName ((diskVolume 16).view createdDisk tfsDirectoryBlock) nameA.chars = some 24 := by
    decide +kernel
  refine ⟨createdDisk_reachable,
    (tableCall_inTable_iff createdDisk_reachable (c := .remove nameA) ⟨24, hentry⟩).2 ?_⟩
  rintro ⟨i, hfind, hsize⟩
  cases hentry.symm.trans hfind
  exact absurd hsize (by decide +kernel)

/-- The disk after a file of the maximal size was created on a volume of 200 blocks. -/
def fullTableDisk : ℕ → Block :=
  ((tfsCreate .big (diskVolume 200) nameA.chars 65024).run none (tfstoolCreatevol fun _ => 0)).2

/-- Its removal reads `block[127]`. -/
theorem fullTableDisk_outside : TfsReachable 200 fullTableDisk ∧
    (TableCall.remove nameA).Allowed ((diskVolume 200).view fullTableDisk) ∧
    ¬ ∀ i ∈ (TableCall.remove nameA).indices (diskVolume 200) fullTableDisk,
      0 ≤ i ∧ i < (tfsBlocksMax : ℤ) := by
  have hempty : VolumeInvariant (diskVolume 200).totalblocks
      ((diskVolume 200).view (tfstoolCreatevol fun _ => 0)) := volumeInvariant_tfstoolCreatevol _ _
  have hreach : TfsReachable 200 fullTableDisk :=
    .step (.create nameA 65024) (.init ⟨fun _ => 0, rfl⟩) ⟨⟨by decide, by decide⟩, rfl⟩
  have hdir : ∀ i, dirInode ((diskVolume 200).view (tfstoolCreatevol fun _ => 0)) i = 0 :=
    dirInode_of_zero rfl
  have hfits : Creatable (diskVolume 200).totalblocks
      ((diskVolume 200).view (tfstoolCreatevol fun _ => 0)) nameA.chars 65024 :=
    ⟨by decide, fun i hi => absurd (hdir i) hi.2, ⟨0, by decide, hdir 0⟩, by decide +kernel⟩
  obtain ⟨d', i, hrun, hfile, -⟩ := tfsCreate_creatable (diskVolume 200) hempty.sound nameA
    ⟨by decide, by decide⟩ hfits
  have hdisk : d' = fullTableDisk := (congrArg Prod.snd hrun).symm
  rw [hdisk] at hfile
  refine ⟨hreach, ⟨i, hfile.found⟩, fun hin => ?_⟩
  have hmem := mem_indices_of_full hreach.invariant hfile.found (by rw [hfile.filesize]; decide)
  exact absurd (hin _ hmem).2 (Int.lt_irrefl _)

end Kudos
