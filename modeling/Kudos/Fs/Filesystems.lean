import Kudos.Fs.TfsRun

set_option autoImplicit false

/-! # Finding a filesystem on a disk

`filesystems_try_all` of `fs/filesystems.c` looks for a volume in the partitions of a disk, and then on
the disk as a whole; `tfs_init` mounts it. The size of a partition is read, but nothing uses it: a volume
has as many blocks as its disk (`filesystemsTryAll_some`). -/

namespace Kudos

open Words

/-! ## Mounting -/

/-- `gbd_t`, without the requests: `block_size` and `total_blocks`. -/
structure Gbd where
  blockSize : ℕ
  totalBlocks : BitVec 32

/-- `tfs_init`. `memory` says whether there are a semaphore and a page for the volume. -/
def tfsInit (e : Endian) (disk : Gbd) (memory : Bool) (sector : BitVec 32) :
    TfsProc (Option TfsVolume) := do
  if disk.blockSize ≠ tfsBlockSize then return none
  if !memory then return none
  let some header ← readBlock (sector + tfsHeaderBlock).toNat | return none
  -- the magic is stored in a `uint16_t`
  if (fromBigEndian32 e ((header.word 0).load e)).toNat % 2 ^ 16 ≠ tfsMagic then return none
  return some ⟨sector.toNat, min disk.totalBlocks.toNat (8 * tfsBlockSize), Nat.min_le_right ..⟩

/-- The loop over the table of filesystem drivers. -/
def tryDrivers (sector : BitVec 32) :
    List (BitVec 32 → TfsProc (Option TfsVolume)) → TfsProc (Option TfsVolume)
  | [] => return none
  | init :: drivers => do
      match ← init sector with
      | some fs => return some fs
      | none => tryDrivers sector drivers

/-- The table of filesystem drivers. Attempts at different sectors may find memory or not. -/
def filesystems (e : Endian) (disk : Gbd) (memory : BitVec 32 → Bool) :
    List (BitVec 32 → TfsProc (Option TfsVolume)) :=
  [fun sector => tfsInit e disk (memory sector) sector]

/-! ## Partitions -/

/-- A word at a byte of a block, aligned or not. -/
def wordAt (b : Block) (off : ℕ) : Word := ⟨b.byte off, b.byte (off + 1), b.byte (off + 2), b.byte (off + 3)⟩

/-- What `get_partition` reads from a `partition_t`: its start sector is the result. -/
structure PartitionEntry where
  active : UInt8
  type : UInt8
  startSector : BitVec 32
  size : BitVec 32

/-- `get_partition`. -/
def getPartition (e : Endian) (partNum : ℕ) (mbrSector : BitVec 32) : TfsProc PartitionEntry := do
  if 3 < partNum then return ⟨0, 0, 0xFFFFFFFF, 0⟩
  let some bootsector ← readBlock mbrSector.toNat | return ⟨0, 0, 0xFFFFFFFF, 0⟩
  let partition := 0x1BE + 16 * partNum
  return ⟨bootsector.byte partition, bootsector.byte (partition + 4),
    (wordAt bootsector (partition + 8)).load e, (wordAt bootsector (partition + 12)).load e⟩

/-- The loops over a partition table at the sector `mbr`, in `filesystems_try_all` and in
    `read_extended_partition_table`. They differ in the sector at which they follow an extended
    partition. -/
def tryPartitions (e : Endian) (drivers : List (BitVec 32 → TfsProc (Option TfsVolume)))
    (mbr : BitVec 32) (extended : BitVec 32 → TfsProc (Option TfsVolume)) :
    List ℕ → TfsProc (Option TfsVolume)
  | [] => return none
  | i :: is => do
      let p ← getPartition e i mbr
      if p.startSector = 0xFFFFFFFF ∨ (p.active ≠ 0x80 ∧ p.active ≠ 0x00) then
        tryPartitions e drivers mbr extended is
      else if p.type = 0x00 then return none
      else if p.type = 0x05 ∨ p.type = 0x0F then extended p.startSector
      else
        match ← tryDrivers (mbr + p.startSector) drivers with
        | some fs => return some fs
        | none => tryPartitions e drivers mbr extended is

/-- `read_extended_partition_table`. The recursion ends when the stack is full. -/
def readExtendedPartitionTable (e : Endian)
    (drivers : List (BitVec 32 → TfsProc (Option TfsVolume))) :
    ℕ → BitVec 32 → BitVec 32 → TfsProc (Option TfsVolume)
  | 0, _, _ => .fault .outOfBounds
  | stack + 1, start, sector =>
      tryPartitions e drivers (start + sector)
        (fun pstart => readExtendedPartitionTable e drivers stack start pstart) (List.range 4)

/-- `filesystems_try_all`. -/
def filesystemsTryAll (e : Endian) (disk : Gbd) (memory : BitVec 32 → Bool) (stack : ℕ) :
    TfsProc (Option TfsVolume) := do
  let drivers := filesystems e disk memory
  match ← tryPartitions e drivers 0
    (fun pstart => readExtendedPartitionTable e drivers stack pstart 0) (List.range 4) with
  | some fs => return some fs
  -- one large partition
  | none => tryDrivers 0 drivers

/-! ## Results -/

namespace TfsProc

variable {α β : Type}

/-- Whatever the device does, the result satisfies `P`, if there is one. -/
def Returns (P : α → Prop) : TfsProc α → Prop
  | done a => P a
  | fault _ => True
  | readBlock _ k => ∀ r, (k r).Returns P
  | writeBlock _ _ k => ∀ r, (k r).Returns P

theorem Returns.bind {P : α → Prop} {Q : β → Prop} {p : TfsProc α} {f : α → TfsProc β}
    (hp : p.Returns P) (hf : ∀ a, P a → (f a).Returns Q) : (p >>= f).Returns Q := by
  show (p.bind f).Returns Q
  induction p with
  | done a => exact hf a hp
  | fault x => trivial
  | readBlock n k ih => exact fun r => ih r (hp r)
  | writeBlock n b k ih => exact fun r => ih r (hp r)

theorem Returns.of_run {P : α → Prop} {p : TfsProc α} {w : Option ℕ} {d : ℕ → Block} {a : α}
    (hp : p.Returns P) (hrun : (p.run w d).1 = .ok a) : P a := by
  induction p generalizing w d with
  | done b =>
      cases hrun
      exact hp
  | fault x => cases hrun
  | readBlock n k ih => exact ih _ (hp _) hrun
  | writeBlock n b k ih =>
      match w with
      | none => exact ih _ (hp _) hrun
      | some 0 => exact ih _ (hp _) hrun
      | some (w + 1) => exact ih _ (hp _) hrun

end TfsProc

/-- A volume with the blocks of the whole disk. -/
def Mounts (disk : Gbd) (fs : Option TfsVolume) : Prop :=
  ∀ tfs, fs = some tfs → tfs.totalblocks = min disk.totalBlocks.toNat 4096 ∧ tfs.startblock < 2 ^ 32

section

variable (e : Endian) (disk : Gbd)

theorem Mounts.none : Mounts disk none := nofun

theorem tfsInit_mounts (memory : Bool) (sector : BitVec 32) :
    (tfsInit e disk memory sector).Returns (Mounts disk) := by
  unfold tfsInit
  split
  · exact Mounts.none disk
  · split
    · exact Mounts.none disk
    · intro r
      cases r with
      | none => exact Mounts.none disk
      | some header =>
          simp only [TfsProc.bind]
          split
          · exact Mounts.none disk
          · rintro tfs ⟨⟩
            exact ⟨rfl, sector.isLt⟩

theorem tryDrivers_mounts (sector : BitVec 32)
    {drivers : List (BitVec 32 → TfsProc (Option TfsVolume))}
    (h : ∀ init ∈ drivers, ∀ sector, (init sector).Returns (Mounts disk)) :
    (tryDrivers sector drivers).Returns (Mounts disk) := by
  induction drivers with
  | nil => exact Mounts.none disk
  | cons init drivers ih =>
      refine (h init (List.mem_cons_self ..) sector).bind fun fs hfs => ?_
      cases fs with
      | none => exact ih fun init hinit => h init (List.mem_cons_of_mem _ hinit)
      | some tfs => exact hfs

theorem getPartition_returns (partNum : ℕ) (mbrSector : BitVec 32) :
    (getPartition e partNum mbrSector).Returns fun _ => True := by
  unfold getPartition
  split
  · trivial
  · intro r
    cases r <;> trivial

theorem tryPartitions_mounts {drivers : List (BitVec 32 → TfsProc (Option TfsVolume))}
    (h : ∀ init ∈ drivers, ∀ sector, (init sector).Returns (Mounts disk)) (mbr : BitVec 32)
    {extended : BitVec 32 → TfsProc (Option TfsVolume)}
    (hext : ∀ pstart, (extended pstart).Returns (Mounts disk)) (l : List ℕ) :
    (tryPartitions e drivers mbr extended l).Returns (Mounts disk) := by
  induction l with
  | nil => exact Mounts.none disk
  | cons i is ih =>
      refine (getPartition_returns e i mbr).bind fun p _ => ?_
      split
      · exact ih
      · split
        · exact Mounts.none disk
        · split
          · exact hext _
          · refine (tryDrivers_mounts disk _ h).bind fun fs hfs => ?_
            cases fs with
            | none => exact ih
            | some tfs => exact hfs

theorem readExtendedPartitionTable_mounts
    {drivers : List (BitVec 32 → TfsProc (Option TfsVolume))}
    (h : ∀ init ∈ drivers, ∀ sector, (init sector).Returns (Mounts disk)) (stack : ℕ)
    (start sector : BitVec 32) :
    (readExtendedPartitionTable e drivers stack start sector).Returns (Mounts disk) := by
  induction stack generalizing sector with
  | zero => trivial
  | succ stack ih => exact tryPartitions_mounts e disk h _ (fun pstart => ih pstart) _

/-- **A volume that is found has the blocks of the whole disk.** -/
theorem filesystemsTryAll_some {memory : BitVec 32 → Bool} {stack : ℕ} {d : ℕ → Block}
    {tfs : TfsVolume}
    (h : ((filesystemsTryAll e disk memory stack).run none d).1 = .ok (some tfs)) :
    tfs.totalblocks = min disk.totalBlocks.toNat 4096 ∧ tfs.startblock < 2 ^ 32 := by
  have hdrivers : ∀ init ∈ filesystems e disk memory, ∀ sector,
      (init sector).Returns (Mounts disk) := by
    intro init hinit sector
    obtain rfl := List.mem_singleton.1 hinit
    exact tfsInit_mounts e disk _ sector
  have hall : (filesystemsTryAll e disk memory stack).Returns (Mounts disk) := by
    refine (tryPartitions_mounts e disk hdrivers 0
      (fun pstart => readExtendedPartitionTable_mounts e disk hdrivers stack pstart 0) _).bind
      fun fs hfs => ?_
    cases fs with
    | none => exact tryDrivers_mounts disk 0 hdrivers
    | some tfs => exact hfs
  exact hall.of_run h tfs rfl

end

end Kudos
