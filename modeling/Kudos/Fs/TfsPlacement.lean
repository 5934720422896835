import Kudos.Fs.Filesystems
import Kudos.Fs.TfsCreate

set_option autoImplicit false

/-! # A volume in its place on the disk

A volume of `N` blocks lies at some sector of a disk, and `filesystems_try_all` has found it. The kernel
takes the disk's number of blocks for the number of blocks of the volume, so `tfs_create` may allocate
blocks behind the volume. `tfs_inVolume_iff` says which runs of the filesystem stay inside: those in
which every new file fits into what is free of the `N` blocks. -/

namespace Kudos

open CInt Tfstool Words

/-! ## Requests -/

namespace TfsProc

variable {α : Type}

/-- The block numbers that are passed to `read_block` and `write_block`, if all requests succeed. -/
def requests : TfsProc α → (ℕ → Block) → List ℕ
  | done _, _ => []
  | fault _, _ => []
  | readBlock n k, d => n :: (k (some (d n))).requests d
  | writeBlock n b k, d => n :: (k true).requests (Function.update d n b)

/-- All requests are for blocks that satisfy `P`. -/
def Confined (P : ℕ → Prop) (p : TfsProc α) (d : ℕ → Block) : Prop := ∀ b ∈ p.requests d, P b

end TfsProc

open TfsProc

section

variable {α : Type} {P : ℕ → Prop} {d : ℕ → Block}

theorem confined_pure (a : α) : Confined P (pure a) d := fun _ hb => absurd hb List.not_mem_nil

theorem confined_readBlock_bind {n : ℕ} {k : Option Block → TfsProc α} (hn : P n)
    (hk : Confined P (k (some (d n))) d) : Confined P (readBlock n >>= k) d := by
  intro b hb
  rcases List.mem_cons.1 hb with rfl | hb
  · exact hn
  · exact hk b hb

theorem confined_writeBlock_bind {n : ℕ} {b : Block} {k : Bool → TfsProc α} (hn : P n)
    (hk : Confined P (k true) (Function.update d n b)) : Confined P (writeBlock n b >>= k) d := by
  intro m hm
  rcases List.mem_cons.1 hm with rfl | hm
  · exact hn
  · exact hk m hm

theorem confined_readPartial_bind {c : Prop} [Decidable c] {n : ℕ} {k : Option Block → TfsProc α}
    (hn : P n) (hk : ∀ old, Confined P (k (some old)) d) : Confined P (readPartial c n >>= k) d := by
  unfold readPartial
  split
  · exact confined_readBlock_bind hn (hk _)
  · exact hk _

theorem confined_ofExcept_bind {β : Type} {x : Except KernelFault β} {k : β → TfsProc α}
    (hk : ∀ b, Confined P (k b) d) : Confined P (TfsProc.ofExcept x >>= k) d := by
  cases x with
  | error f => exact fun _ hb => absurd hb List.not_mem_nil
  | ok b => exact hk b

theorem requests_writeAll (ws : List (ℕ × Block)) (d : ℕ → Block) :
    (writeAll ws).requests d = ws.map Prod.fst := by
  induction ws generalizing d with
  | nil => rfl
  | cons nb ws ih => exact congrArg (nb.1 :: ·) (ih _)

end

/-! ## The requests of the operations -/

section

variable {e : Endian} {tfs : TfsVolume} {P : ℕ → Prop} {inode : Block}

/-- An index outside of the block table is no request. -/
theorem confined_blockAt_bind {α : Type} {i : ℤ} {k : ℕ → TfsProc α} {d : ℕ → Block}
    (hk : ∀ m < tfsBlocksMax, Confined P (k (tfs.block (inodeBlock e inode m))) d) :
    Confined P (blockAt e tfs inode i >>= k) d := by
  unfold blockAt
  split
  · exact hk i.toNat (by omega)
  · exact fun _ hb => absurd hb List.not_mem_nil

variable (hblocks : ∀ m < tfsBlocksMax, P (tfs.block (inodeBlock e inode m)))

include hblocks

theorem confined_readLoop (bufsize b2 : ℤ) (n : ℕ) (b1 read : ℤ) (buffer : List UInt8)
    (d : ℕ → Block) : Confined P (readLoop e tfs inode bufsize b2 n b1 read buffer) d := by
  induction n generalizing b1 read buffer with
  | zero => exact confined_pure _
  | succ n ih =>
      unfold readLoop
      refine confined_blockAt_bind fun m hm => confined_readBlock_bind (hblocks m hm) ?_
      simp only
      split
      · exact ih _ _ _
      · exact ih _ _ _

theorem confined_writeLoop (data : ℕ → UInt8) (datasize b2 : ℤ) (n : ℕ) (b1 written : ℤ)
    (d : ℕ → Block) : Confined P (writeLoop e tfs inode data datasize b2 n b1 written) d := by
  induction n generalizing b1 written d with
  | zero => exact confined_pure _
  | succ n ih =>
      unfold writeLoop
      refine confined_blockAt_bind fun m hm => ?_
      split
      · refine confined_readPartial_bind (hblocks m hm) fun old => ?_
        exact confined_writeBlock_bind (hblocks m hm) (ih _ _ _)
      · exact confined_writeBlock_bind (hblocks m hm) (ih _ _ _)

end

section

variable {e : Endian} {tfs : TfsVolume} {P : ℕ → Prop} {d : ℕ → Block} {fileid : ℤ}

variable (hinode : P (tfs.block (BitVec.ofInt 32 fileid)))
  (hblocks : ∀ m < tfsBlocksMax,
    P (tfs.block (inodeBlock e (d (tfs.block (BitVec.ofInt 32 fileid))) m)))

include hinode hblocks

/-- `tfs_read` asks for the inode and for blocks in its table. -/
theorem confined_tfsRead (bufsize offset : ℤ) : Confined P (tfsRead e tfs fileid bufsize offset) d := by
  unfold tfsRead
  split
  · exact confined_pure _
  · refine confined_readBlock_bind hinode ?_
    simp only
    split
    · exact confined_pure _
    · split
      · exact confined_pure _
      · refine confined_blockAt_bind fun m hm => confined_readBlock_bind (hblocks m hm) ?_
        exact confined_readLoop hblocks _ _ _ _ _ _ _

/-- So does `tfs_write`. -/
theorem confined_tfsWrite (data : ℕ → UInt8) (datasize offset : ℤ) :
    Confined P (tfsWrite e tfs fileid data datasize offset) d := by
  unfold tfsWrite
  split
  · exact confined_pure _
  · refine confined_readBlock_bind hinode ?_
    simp only
    split
    · exact confined_pure _
    · split
      · exact confined_pure _
      · refine confined_blockAt_bind fun m hm => ?_
        refine confined_readPartial_bind (hblocks m hm) fun old => ?_
        exact confined_writeBlock_bind (hblocks m hm) (confined_writeLoop hblocks _ _ _ _ _ _ _)

end

section

variable {e : Endian} {tfs : TfsVolume} {P : ℕ → Prop} {d : ℕ → Block} (filename : List UInt8)
  (hdir : P (tfs.block tfsDirectoryBlock)) (hbat : P (tfs.block tfsAllocationBlock))

include hdir

theorem confined_tfsOpen : Confined P (tfsOpen e tfs filename) d := by
  unfold tfsOpen
  refine confined_readBlock_bind hdir ?_
  simp only
  cases findName (d (tfs.block tfsDirectoryBlock)) filename with
  | none => exact confined_pure _
  | some i => exact confined_pure _

include hbat

/-- `tfs_remove` asks for the inode of the entry that it finds, too. -/
theorem confined_tfsRemove (hinode : ∀ i,
      findName (d (tfs.block tfsDirectoryBlock)) filename = some i →
      P (tfs.block (entryInode e (d (tfs.block tfsDirectoryBlock)) i))) :
    Confined P (tfsRemove e tfs filename) d := by
  unfold tfsRemove
  refine confined_readBlock_bind hdir ?_
  simp only
  cases hfind : findName (d (tfs.block tfsDirectoryBlock)) filename with
  | none => exact confined_pure _
  | some index =>
      refine confined_readBlock_bind hbat (confined_readBlock_bind (hinode index hfind) ?_)
      refine confined_ofExcept_bind fun bat => confined_ofExcept_bind fun bat => ?_
      exact confined_writeBlock_bind hbat (confined_writeBlock_bind hdir (confined_pure _))

end

section

variable (tfs : TfsVolume) (d : ℕ → Block) {filename : List UInt8} {size : ℤ}

/-- `tfs_create` asks for the blocks that it allocates. -/
theorem mem_requests_tfsCreate (h : CreateAccepted tfs.totalblocks (tfs.view d) filename size) (b : ℕ) :
    b ∈ (tfsCreate .big tfs filename size).requests d ↔
      b = tfs.block tfsDirectoryBlock ∨ b = tfs.block tfsAllocationBlock ∨
      ∃ q ∈ (freeBits .big (tfs.view d tfsAllocationBlock) tfs.totalblocks).take
        (createNumblocks size + 1), b = tfs.block (BitVec.ofNat 32 q) := by
  obtain ⟨hbig, ⟨index, hneg, hindex⟩, hroom⟩ := h
  obtain ⟨hlt, -⟩ := createIndex_entry hindex hneg
  unfold TfsVolume.view at hindex hroom ⊢
  cases hfree : freeBits .big (d (tfs.block tfsAllocationBlock)) tfs.totalblocks with
  | nil =>
      rw [hfree, List.length_nil] at hroom
      omega
  | cons p rest =>
      have hrest : (createRest .big tfs filename size (d (tfs.block tfsDirectoryBlock))).requests d
          = tfs.block tfsAllocationBlock :: (createBlocks .big tfs (d (tfs.block tfsDirectoryBlock))
            (d (tfs.block tfsAllocationBlock)) filename size index.toNat (p :: rest)).map Prod.fst := by
        have hread : ∀ k : Option Block → TfsProc ℤ,
            (readBlock (tfs.block tfsAllocationBlock) >>= k).requests d
              = tfs.block tfsAllocationBlock
                :: (k (some (d (tfs.block tfsAllocationBlock)))).requests d := fun _ => rfl
        unfold createRest
        rw [hindex]
        simp only [hneg, if_false]
        rw [hread]
        simp only
        rw [if_neg (by omega), hfree, requests_writeAll]
      rw [tfsCreate_eq, if_neg (by omega)]
      show b ∈ tfs.block tfsDirectoryBlock :: (createRest .big tfs filename size
        (d (tfs.block tfsDirectoryBlock))).requests d ↔ _
      rw [hrest]
      simp only [createBlocks, List.headD_cons, entryInode_createEntry hlt, List.tail_cons,
        List.take_succ_cons, List.map_cons, List.map_map, List.cons_append, List.nil_append,
        List.mem_cons, List.mem_map, Function.comp_apply]
      constructor
      · rintro (rfl | rfl | rfl | rfl | rfl | ⟨q, hq, rfl⟩)
        · exact Or.inl rfl
        · exact Or.inr (Or.inl rfl)
        · exact Or.inr (Or.inl rfl)
        · exact Or.inl rfl
        · exact Or.inr (Or.inr ⟨p, Or.inl rfl, rfl⟩)
        · exact Or.inr (Or.inr ⟨q, Or.inr hq, rfl⟩)
      · rintro (rfl | rfl | ⟨q, rfl | hq, rfl⟩)
        · exact Or.inl rfl
        · exact Or.inr (Or.inl rfl)
        · exact Or.inr (Or.inr (Or.inr (Or.inr (Or.inl rfl))))
        · exact Or.inr (Or.inr (Or.inr (Or.inr (Or.inr ⟨q, hq, rfl⟩))))

/-- A call that is rejected has read two blocks at most. -/
theorem confined_tfsCreate_rejected {P : ℕ → Prop}
    (h : ¬ CreateAccepted tfs.totalblocks (tfs.view d) filename size)
    (hdir : P (tfs.block tfsDirectoryBlock)) (hbat : P (tfs.block tfsAllocationBlock)) :
    Confined P (tfsCreate .big tfs filename size) d := by
  rw [tfsCreate_eq]
  split
  · exact confined_pure _
  · next hbig =>
      refine confined_readBlock_bind hdir ?_
      simp only [createRest]
      cases hindex : createIndex .big (d (tfs.block tfsDirectoryBlock)) filename
        (List.range tfsMaxFiles) (-1) with
      | none => exact confined_pure _
      | some index =>
          simp only
          split
          · exact confined_pure _
          · next hneg =>
              refine confined_readBlock_bind hbat ?_
              simp only
              split
              · exact confined_pure _
              · next hroom =>
                  exact absurd ⟨Nat.le_of_not_lt hbig, ⟨index, hneg, hindex⟩,
                    Nat.le_of_not_lt hroom⟩ h

end

/-! ## The first blocks of the volume -/

/-- The free blocks among the first `n` come before the others. -/
theorem freeBits_prefix (b : Block) {n total : ℕ} (h : n ≤ total) : ∃ rest,
    freeBits .big b total = freeBits .big b n ++ rest ∧ ∀ q ∈ rest, n ≤ q := by
  obtain ⟨m, rfl⟩ := Nat.exists_eq_add_of_le h
  refine ⟨((List.range m).map (n + ·)).filter fun p => !bitmapGet .big b p, ?_, fun q hq => ?_⟩
  · unfold freeBits
    rw [List.range_add, List.filter_append]
  · obtain ⟨k, -, rfl⟩ := List.mem_map.1 (List.mem_of_mem_filter hq)
    exact Nat.le_add_right n k

/-- The first `k` free blocks are among the first `n` blocks if and only if there are `k` free ones. -/
theorem freeBits_take_lt_iff (b : Block) {n total k : ℕ} (hk : k ≤ (freeBits .big b total).length) :
    (∀ q ∈ (freeBits .big b total).take k, q < n) ↔ k ≤ (freeBits .big b n).length := by
  rcases Nat.le_total n total with hle | hle
  · obtain ⟨rest, hsplit, hrest⟩ := freeBits_prefix b hle
    rw [hsplit] at hk ⊢
    constructor
    · intro hall
      by_contra hmore
      rw [List.length_append] at hk
      cases rest with
      | nil =>
          rw [List.length_nil] at hk
          omega
      | cons q rest =>
          have hmem : q ∈ (freeBits .big b n ++ q :: rest).take k := by
            rw [List.take_append, List.mem_append]
            obtain ⟨j, hj⟩ : ∃ j, k - (freeBits .big b n).length = j + 1 :=
              ⟨k - (freeBits .big b n).length - 1, by omega⟩
            rw [hj, List.take_succ_cons]
            exact Or.inr (List.mem_cons_self ..)
          have := hrest q (List.mem_cons_self ..)
          have := hall q hmem
          omega
    · intro hfit q hq
      rw [List.take_append_of_le_length hfit] at hq
      exact ((mem_freeBits .big b).1 (List.mem_of_mem_take hq)).1
  · obtain ⟨rest, hsplit, -⟩ := freeBits_prefix b hle
    refine iff_of_true (fun q hq => ?_) ?_
    · have := ((mem_freeBits .big b).1 (List.mem_of_mem_take hq)).1
      omega
    · rw [hsplit, List.length_append]
      omega

/-- The block lies among the `n` blocks of the volume. -/
def InVolume (tfs : TfsVolume) (n b : ℕ) : Prop := tfs.startblock ≤ b ∧ b < tfs.startblock + n

/-- On a disk with room for the volume, a block number of the volume is in the volume if it should be. -/
theorem inVolume_block_iff {tfs : TfsVolume} {n : ℕ} (hn : 3 ≤ n)
    (hroom : tfs.startblock + n ≤ 2 ^ 32) (m : BitVec 32) :
    InVolume tfs n (tfs.block m) ↔ m.toNat < n := by
  have hm := m.isLt
  unfold InVolume TfsVolume.block
  omega

/-! ## Calls -/

/-- The calls of the filesystem that work on files. -/
inductive FileCall
  | create (name : FileName) (size : ℤ)
  | remove (name : FileName)
  | open (name : FileName)
  | read (file bufsize offset : ℤ)
  | write (file : ℤ) (data : ℕ → UInt8) (datasize offset : ℤ)

namespace FileCall

/-- What callers keep to: sizes are `int`s that are not negative, and files that are read or written are
files that the directory has. -/
def Allowed (V : Volume) : FileCall → Prop
  | create _ size => 0 ≤ size ∧ size ≤ intMax
  | remove _ => True
  | .open _ => True
  | read file bufsize _ => 0 ≤ bufsize ∧ ∃ i, Live V i ∧ file = fileid V i
  | write file _ datasize _ => 0 ≤ datasize ∧ ∃ i, Live V i ∧ file = fileid V i

/-- A file that can be created fits into what is free of the first `n` blocks. -/
def Fits (total n : ℕ) (V : Volume) : FileCall → Prop
  | create name size =>
      Creatable total V name.chars size → blocksFor size + 1 ≤ unallocated n V
  | _ => True

/-- The requests of the call. -/
def requests (tfs : TfsVolume) (d : ℕ → Block) : FileCall → List ℕ
  | create name size => (tfsCreate .big tfs name.chars size).requests d
  | remove name => (tfsRemove .big tfs name.chars).requests d
  | .open name => (tfsOpen .big tfs name.chars).requests d
  | read file bufsize offset => (tfsRead .big tfs file bufsize offset).requests d
  | write file data datasize offset => (tfsWrite .big tfs file data datasize offset).requests d

/-- The disk after the call. -/
def disk (tfs : TfsVolume) (d : ℕ → Block) : FileCall → ℕ → Block
  | create name size => ((tfsCreate .big tfs name.chars size).run none d).2
  | remove name => ((tfsRemove .big tfs name.chars).run none d).2
  | .open name => ((tfsOpen .big tfs name.chars).run none d).2
  | read file bufsize offset => ((tfsRead .big tfs file bufsize offset).run none d).2
  | write file data datasize offset => ((tfsWrite .big tfs file data datasize offset).run none d).2

end FileCall

theorem SoundVolume.mono {total total' : ℕ} {V : Volume} (h : SoundVolume total V)
    (htotal : total ≤ total') : SoundVolume total' V where
  system := h.system
  range i m hm := ⟨(h.range i m hm).1, Nat.lt_of_lt_of_le (h.range i m hm).2 htotal⟩
  marked := h.marked
  distinct := h.distinct
  table := h.table
  free_name := h.free_name

section

variable {tfs : TfsVolume} {n : ℕ} {d : ℕ → Block} (hn : 3 ≤ n)
  (hroom : tfs.startblock + n ≤ 2 ^ 32) (hV : SoundVolume (min n tfs.totalblocks) (tfs.view d))

/-- What `tfs_create` needs to know of the free blocks. -/
theorem createAccepted_creatable {name : FileName} {size : ℤ} (hsize : 0 ≤ size ∧ size ≤ intMax)
    (hV : SoundVolume (min n tfs.totalblocks) (tfs.view d))
    (h : CreateAccepted tfs.totalblocks (tfs.view d) name.chars size) :
    Creatable tfs.totalblocks (tfs.view d) name.chars size ∧
      (createNumblocks size : ℤ) = blocksFor size ∧
      createNumblocks size + 1
        ≤ (freeBits .big (tfs.view d tfsAllocationBlock) tfs.totalblocks).length :=
  ⟨((hV.mono (Nat.min_le_right ..)).createAccepted_iff name hsize).1 h,
    createNumblocks_eq hsize h.numblocks_le, h.room⟩

include hn hroom

theorem inVolume_system :
    InVolume tfs n (tfs.block tfsDirectoryBlock) ∧ InVolume tfs n (tfs.block tfsAllocationBlock) := by
  rw [inVolume_block_iff hn hroom, inVolume_block_iff hn hroom]
  have hdir : tfsDirectoryBlock.toNat = 2 := rfl
  have hbat : tfsAllocationBlock.toNat = 1 := rfl
  omega

include hV

theorem inVolume_fileBlocks {i : ℕ} {m : BitVec 32} (hm : m ∈ fileBlocks (tfs.view d) i) :
    InVolume tfs n (tfs.block m) := by
  rw [inVolume_block_iff hn hroom]
  have := (hV.range i m hm).2
  omega

/-- All of the block table of a file lies in the volume: where it has no block it has zeros. -/
theorem inVolume_inodeBlock {i : ℕ} (hi : Live (tfs.view d) i) {k : ℕ} (hk : k < tfsBlocksMax) :
    InVolume tfs n (tfs.block (inodeBlock .big (tfs.view d (dirInode (tfs.view d) i)) k)) := by
  by_cases hzero : inodeBlock .big (tfs.view d (dirInode (tfs.view d) i)) k = 0
  · rw [hzero, inVolume_block_iff hn hroom]
    exact Nat.lt_of_lt_of_le (by decide) hn
  · refine inVolume_fileBlocks hn hroom hV (i := i) ?_
    rw [fileBlocks_of_live hi]
    exact List.mem_cons_of_mem _ (mem_blockList.2 ⟨⟨k, hk, rfl⟩, hzero⟩)

/-- **A call whose file fits stays in the volume.** -/
theorem FileCall.inVolume (c : FileCall) (hallowed : c.Allowed (tfs.view d))
    (hfits : c.Fits tfs.totalblocks n (tfs.view d)) : ∀ b ∈ c.requests tfs d, InVolume tfs n b := by
  obtain ⟨hdir, hbat⟩ := inVolume_system hn hroom
  have hfile : ∀ i, Live (tfs.view d) i →
      d (tfs.block (BitVec.ofInt 32 (fileid (tfs.view d) i))) = tfs.view d (dirInode (tfs.view d) i) ∧
      InVolume tfs n (tfs.block (BitVec.ofInt 32 (fileid (tfs.view d) i))) := by
    intro i hi
    unfold fileid
    rw [BitVec.ofInt_toInt]
    exact ⟨rfl, inVolume_fileBlocks hn hroom hV (dirInode_mem_fileBlocks hi)⟩
  cases c with
  | create name size =>
      by_cases haccepted : CreateAccepted tfs.totalblocks (tfs.view d) name.chars size
      · obtain ⟨hcreatable, hnb, hlength⟩ := createAccepted_creatable hallowed hV haccepted
        have hfit := hfits hcreatable
        have hlow : ∀ q ∈ (freeBits .big (tfs.view d tfsAllocationBlock) tfs.totalblocks).take
            (createNumblocks size + 1), q < n := by
          rw [freeBits_take_lt_iff _ hlength, length_freeBits]
          omega
        intro b hb
        rcases (mem_requests_tfsCreate tfs d haccepted b).1 hb with rfl | rfl | ⟨q, hq, rfl⟩
        · exact hdir
        · exact hbat
        · have hqn := hlow q hq
          rw [inVolume_block_iff hn hroom, BitVec.toNat_ofNat]
          exact Nat.lt_of_le_of_lt (Nat.mod_le ..) hqn
      · exact confined_tfsCreate_rejected tfs d haccepted hdir hbat
  | remove name =>
      refine confined_tfsRemove name.chars hdir hbat fun i hfind => ?_
      exact inVolume_fileBlocks hn hroom hV (dirInode_mem_fileBlocks (hV.live_of_findName hfind))
  | «open» name => exact confined_tfsOpen name.chars hdir
  | read file bufsize offset =>
      obtain ⟨-, i, hi, rfl⟩ := hallowed
      refine confined_tfsRead (hfile i hi).2 (fun m hm => ?_) bufsize offset
      rw [(hfile i hi).1]
      exact inVolume_inodeBlock hn hroom hV hi hm
  | write file data datasize offset =>
      obtain ⟨-, i, hi, rfl⟩ := hallowed
      refine confined_tfsWrite (hfile i hi).2 (fun m hm => ?_) data datasize offset
      rw [(hfile i hi).1]
      exact inVolume_inodeBlock hn hroom hV hi hm

/-- **Any other call leaves the volume.** -/
theorem FileCall.not_inVolume (c : FileCall) (hallowed : c.Allowed (tfs.view d))
    (hfits : ¬ c.Fits tfs.totalblocks n (tfs.view d)) : ∃ b ∈ c.requests tfs d, ¬ InVolume tfs n b := by
  have htotal := tfs.totalblocks_le
  cases c with
  | create name size =>
      obtain ⟨hcreatable, hmore⟩ := Classical.not_imp.1 hfits
      have haccepted :=
        ((hV.mono (Nat.min_le_right ..)).createAccepted_iff name hallowed).2 hcreatable
      obtain ⟨-, hnb, hlength⟩ := createAccepted_creatable hallowed hV haccepted
      have hhigh : ¬ ∀ q ∈ (freeBits .big (tfs.view d tfsAllocationBlock) tfs.totalblocks).take
          (createNumblocks size + 1), q < n := by
        rw [freeBits_take_lt_iff _ hlength, length_freeBits]
        omega
      push Not at hhigh
      obtain ⟨q, hq, hqn⟩ := hhigh
      refine ⟨tfs.block (BitVec.ofNat 32 q),
        (mem_requests_tfsCreate tfs d haccepted _).2 (Or.inr (Or.inr ⟨q, hq, rfl⟩)), ?_⟩
      have hqt := ((mem_freeBits .big _).1 (List.mem_of_mem_take hq)).1
      simp only [tfsBlockSize] at htotal
      rw [inVolume_block_iff hn hroom, BitVec.toNat_ofNat, Nat.mod_eq_of_lt (by omega)]
      omega
  | remove name => exact absurd trivial hfits
  | «open» name => exact absurd trivial hfits
  | read file bufsize offset => exact absurd trivial hfits
  | write file data datasize offset => exact absurd trivial hfits

omit hn hroom in
/-- **A call whose file fits leaves a sound volume.** -/
theorem FileCall.sound (c : FileCall) (hallowed : c.Allowed (tfs.view d))
    (hfits : c.Fits tfs.totalblocks n (tfs.view d)) :
    SoundVolume (min n tfs.totalblocks) (tfs.view (c.disk tfs d)) := by
  have htotal : min n tfs.totalblocks ≤ 4096 :=
    Nat.le_trans (Nat.min_le_right ..) tfs.totalblocks_le
  cases c with
  | create name size =>
      by_cases haccepted : CreateAccepted tfs.totalblocks (tfs.view d) name.chars size
      · obtain ⟨hcreatable, hnb, hlength⟩ := createAccepted_creatable hallowed hV haccepted
        have hfit := hfits hcreatable
        obtain ⟨index, p, l, hplan, hrun⟩ := tfsCreate_accepted tfs d haccepted
        -- the blocks that are taken are the first free blocks of the volume, too
        have hmin : createNumblocks size + 1
            ≤ (freeBits .big (tfs.view d tfsAllocationBlock) (min n tfs.totalblocks)).length := by
          rcases Nat.le_total n tfs.totalblocks with hle | hle
          · rw [Nat.min_eq_left hle, length_freeBits]
            omega
          · rw [Nat.min_eq_right hle]
            exact hlength
        have hplan' : CreatePlan (min n tfs.totalblocks) (tfs.view d) size index p l := by
          obtain ⟨rest, hsplit, -⟩ := freeBits_prefix (tfs.view d tfsAllocationBlock)
            (Nat.min_le_right n tfs.totalblocks)
          refine { hplan with first_fit := ?_ }
          rw [hplan.first_fit, hsplit, List.take_append_of_le_length hmin]
        have hcreated := hplan'.created_all htotal hV name.chars
        have hdisk : ((tfsCreate .big tfs name.chars size).run none d).2
            = applyWrites ((createVolumeWrites (tfs.view d) name.chars size index p l).map
              (fun nb => (tfs.block nb.1, nb.2))) d := by
          rw [hrun none, run_writeAll_none]
        show SoundVolume _ (tfs.view ((tfsCreate .big tfs name.chars size).run none d).2)
        rw [hdisk, view_applyWrites]
        exact hcreated.sound htotal hV hallowed
      · show SoundVolume _ (tfs.view ((tfsCreate .big tfs name.chars size).run none d).2)
        rw [tfsCreate_rejected tfs d haccepted]
        exact hV
  | remove name =>
      show SoundVolume _ (tfs.view ((tfsRemove .big tfs name.chars).run none d).2)
      rcases tfsRemove_outcome tfs (hV.mono (Nat.min_le_right ..)) name with
        ⟨-, hrun⟩ | ⟨index, -, hlive, hrun⟩
      · rw [hrun]
        exact hV
      · rw [hrun, run_writeAll_none, view_applyWrites]
        exact hlive.removed.sound htotal hV
  | «open» name =>
      show SoundVolume _ (tfs.view ((tfsOpen .big tfs name.chars).run none d).2)
      rw [run_tfsOpen]
      exact hV
  | read file bufsize offset =>
      show SoundVolume _ (tfs.view ((tfsRead .big tfs file bufsize offset).run none d).2)
      rw [(readOnly_tfsRead ..).run_disk]
      exact hV
  | write file data datasize offset =>
      obtain ⟨hdata, i, hi, rfl⟩ := hallowed
      obtain ⟨r, d', hrun, hframe⟩ :=
        tfsWrite_frame tfs (hV.mono (Nat.min_le_right ..)) hi data hdata offset
      have hkeep : ∀ m, m ∉ blockList (tfs.view d (dirInode (tfs.view d) i)) →
          tfs.view d' m = tfs.view d m :=
        fun m hm => hframe _ fun k hk heq => hm (tfs.block_injective heq ▸ hk)
      obtain ⟨hbat, hmd, hinode⟩ := hV.unchanged hi hkeep
      show SoundVolume _ (tfs.view ((tfsWrite .big tfs (fileid (tfs.view d) i) data datasize
        offset).run none d).2)
      unfold fileid
      rw [hrun]
      exact hV.congr hbat hmd hinode

end

/-! ## Runs -/

/-- The calls of a run, each with the disk on which it is made. -/
def FileCall.steps (tfs : TfsVolume) : List FileCall → (ℕ → Block) → List ((ℕ → Block) × FileCall)
  | [], _ => []
  | c :: cs, d => (d, c) :: steps tfs cs (c.disk tfs d)

/-- A run from a sound volume stays in the first `n` blocks as long as the files fit into them. -/
theorem steps_inVolume_iff {tfs : TfsVolume} {n : ℕ} (hn : 3 ≤ n)
    (hroom : tfs.startblock + n ≤ 2 ^ 32) (calls : List FileCall) {d : ℕ → Block}
    (hV : SoundVolume (min n tfs.totalblocks) (tfs.view d))
    (hallowed : ∀ x ∈ FileCall.steps tfs calls d, x.2.Allowed (tfs.view x.1)) :
    (∀ x ∈ FileCall.steps tfs calls d, ∀ b ∈ x.2.requests tfs x.1, InVolume tfs n b) ↔
      ∀ x ∈ FileCall.steps tfs calls d, x.2.Fits tfs.totalblocks n (tfs.view x.1) := by
  induction calls generalizing d with
  | nil => exact iff_of_true (fun _ hx => absurd hx List.not_mem_nil) fun _ hx =>
      absurd hx List.not_mem_nil
  | cons c calls ih =>
      simp only [FileCall.steps, List.forall_mem_cons] at hallowed ⊢
      obtain ⟨hfirst, hrest⟩ := hallowed
      have hcall : (∀ b ∈ c.requests tfs d, InVolume tfs n b) ↔ c.Fits tfs.totalblocks n (tfs.view d) := by
        constructor
        · intro hall
          by_contra hnot
          obtain ⟨b, hb, hout⟩ := c.not_inVolume hn hroom hV hfirst hnot
          exact hout (hall b hb)
        · exact c.inVolume hn hroom hV hfirst
      rw [hcall]
      -- what follows is another run, provided that this call kept the volume sound
      exact and_congr_right fun hfits => ih (c.sound hV hfirst hfits) hrest

/-- A volume that `tfstool` made, wherever it lies. -/
theorem sound_of_tfstoolCreatevol {tfs : TfsVolume} {d : ℕ → Block} {volname : ℕ → UInt8}
    (hbat : tfs.view d tfsAllocationBlock = tfstoolCreatevol volname 1)
    (hmd : tfs.view d tfsDirectoryBlock = tfstoolCreatevol volname 2) (total : ℕ) :
    SoundVolume total (tfs.view d) :=
  (volumeInvariant_tfstoolCreatevol volname total).sound.congr hbat hmd fun i hi =>
    absurd (dirInode_of_zero rfl i) hi.2

/-- **TFS stays inside its volume exactly as long as its files fit.** A volume of `n` blocks that
`tfstool` made lies on a disk, and `filesystems_try_all` has found it. In a run of calls on files that
exist, all requests are for blocks of the volume if and only if every file that `tfs_create` makes has
enough room in what is free of the `n` blocks. -/
theorem tfs_inVolume_iff {disk : Gbd} {memory : BitVec 32 → Bool} {stack : ℕ} {d : ℕ → Block}
    {tfs : TfsVolume} (hfound : ((filesystemsTryAll .big disk memory stack).run none d).1 = .ok (some tfs))
    {n : ℕ} (hn : 3 ≤ n) (hroom : tfs.startblock + n ≤ disk.totalBlocks.toNat) {volname : ℕ → UInt8}
    (himage : ∀ m < n, d (tfs.startblock + m) = tfstoolCreatevol volname m) (calls : List FileCall)
    (hallowed : ∀ x ∈ FileCall.steps tfs calls d, x.2.Allowed (tfs.view x.1)) :
    (∀ x ∈ FileCall.steps tfs calls d, ∀ b ∈ x.2.requests tfs x.1,
      tfs.startblock ≤ b ∧ b < tfs.startblock + n) ↔
    ∀ x ∈ FileCall.steps tfs calls d,
      x.2.Fits (min disk.totalBlocks.toNat 4096) n (tfs.view x.1) := by
  have htotal := (filesystemsTryAll_some .big disk hfound).1
  have hdisk := disk.totalBlocks.isLt
  have hblock : ∀ m : BitVec 32, m.toNat < n → tfs.view d m = tfstoolCreatevol volname m.toNat := by
    intro m hm
    unfold TfsVolume.view TfsVolume.block
    rw [Nat.mod_eq_of_lt (by omega), himage _ hm]
  rw [← htotal]
  exact steps_inVolume_iff hn (by omega) calls (sound_of_tfstoolCreatevol
    (hblock tfsAllocationBlock (Nat.lt_of_lt_of_le (by decide) hn))
    (hblock tfsDirectoryBlock (Nat.lt_of_lt_of_le (by decide) hn)) _) hallowed

/-- Files always fit if the volume is not smaller than its disk, as far as an allocation block reaches. -/
theorem FileCall.fits_of_le {total n : ℕ} (h : total ≤ n) (V : Volume) (c : FileCall) :
    c.Fits total n V := by
  have hcount : unallocated total V ≤ unallocated n V := by
    obtain ⟨m, rfl⟩ := Nat.exists_eq_add_of_le h
    unfold unallocated
    rw [List.range_add, List.countP_append]
    exact Nat.le_add_right ..
  cases c with
  | create name size =>
      intro hcreatable
      have := hcreatable.room
      omega
  | remove name => trivial
  | «open» name => trivial
  | read file bufsize offset => trivial
  | write file data datasize offset => trivial

/-- A disk of 24 blocks, with a partition at sector 16 in its partition table. There is a new volume of
eight blocks. -/
def partitionedDisk : ℕ → Block := fun b =>
  if b = 0 then (Block.zero.setByte 450 0x83).setByte 457 16
  else if 16 ≤ b ∧ b < 24 then tfstoolCreatevol (fun _ => 0) (b - 16)
  else .zero

/-- This volume, as the kernel mounts it. -/
def partitionVolume : TfsVolume := ⟨16, 24, by decide⟩

theorem partitionVolume_found :
    ((filesystemsTryAll .big ⟨512, 24⟩ (fun _ => true) 8).run none partitionedDisk).1
      = .ok (some partitionVolume) := by
  rfl

theorem partitionedDisk_image :
    ∀ m < 8, partitionedDisk (partitionVolume.startblock + m) = tfstoolCreatevol (fun _ => 0) m := by
  intro m hm
  have hat : partitionVolume.startblock + m = 16 + m := rfl
  unfold partitionedDisk
  rw [hat, if_neg (by omega), if_pos (by omega), Nat.add_sub_cancel_left]

/-- A file of four blocks fits into the volume. -/
theorem tfs_inVolume_iff_partition :
    ((filesystemsTryAll .big ⟨512, 24⟩ (fun _ => true) 8).run none partitionedDisk).1
      = .ok (some partitionVolume) ∧
    ∀ x ∈ FileCall.steps partitionVolume [.create nameA 2048] partitionedDisk,
      ∀ b ∈ x.2.requests partitionVolume x.1, 16 ≤ b ∧ b < 16 + 8 := by
  refine ⟨partitionVolume_found, (tfs_inVolume_iff partitionVolume_found (n := 8) (by decide) (by decide)
    partitionedDisk_image [.create nameA 2048] ?_).2 ?_⟩
  · intro x hx
    obtain rfl := List.mem_singleton.1 hx
    exact ⟨by decide, by decide⟩
  · intro x hx
    obtain rfl := List.mem_singleton.1 hx
    intro _
    have hroom : unallocated 8 (partitionVolume.view partitionedDisk) = 5 := by decide +kernel
    rw [hroom]
    decide

/-- A file of five blocks does not, and the kernel asks for block 24, which the disk does not have. -/
theorem partition_not_inVolume :
    ((filesystemsTryAll .big ⟨512, 24⟩ (fun _ => true) 8).run none partitionedDisk).1
      = .ok (some partitionVolume) ∧
    (∀ m < 8, partitionedDisk (partitionVolume.startblock + m) = tfstoolCreatevol (fun _ => 0) m) ∧
    (∀ x ∈ FileCall.steps partitionVolume [.create nameA 2560] partitionedDisk,
      x.2.Allowed (partitionVolume.view x.1)) ∧
    ¬ ∀ x ∈ FileCall.steps partitionVolume [.create nameA 2560] partitionedDisk,
      ∀ b ∈ x.2.requests partitionVolume x.1, 16 ≤ b ∧ b < 16 + 8 := by
  refine ⟨partitionVolume_found, partitionedDisk_image, ?_, fun hall => ?_⟩
  · intro x hx
    obtain rfl := List.mem_singleton.1 hx
    exact ⟨by decide, by decide⟩
  · have hmem : 24 ∈ (FileCall.create nameA 2560).requests partitionVolume partitionedDisk := by
      decide +kernel
    have := hall (partitionedDisk, .create nameA 2560) (List.mem_singleton.2 rfl) 24 hmem
    omega

end Kudos
