import Kudos.Fs.Filesystems
import Kudos.Library.Acyclic
import Mathlib.Data.Fintype.EquivFin
import Mathlib.Tactic.Choose

set_option autoImplicit false

/-! # Chains of extended partition tables

`read_extended_partition_table` calls itself for the next table of the chain. Where that is comes from the
disk, and any request may fail, in which case the entry that was asked for is passed over. So the scan of
a disk always ends if and only if no chain comes back to a table that it has visited. -/

namespace Kudos

open Acyclic Relation Words

/-! ## Devices on which requests fail -/

namespace TfsProc

variable {α β : Type}

/-- The run on a disk whose requests succeed or fail as `ok` says, the next one as `ok 0`. -/
def runWith : TfsProc α → (ℕ → Block) → (ℕ → Bool) → Except KernelFault α × (ℕ → Block) × (ℕ → Bool)
  | done a, d, ok => (.ok a, d, ok)
  | fault f, d, ok => (.error f, d, ok)
  | readBlock n k, d, ok => (k (if ok 0 then some (d n) else none)).runWith d fun m => ok (m + 1)
  | writeBlock n b k, d, ok =>
      (k (ok 0)).runWith (if ok 0 then Function.update d n b else d) fun m => ok (m + 1)

@[simp]
theorem runWith_pure (a : α) (d : ℕ → Block) (ok : ℕ → Bool) :
    (pure a : TfsProc α).runWith d ok = (.ok a, d, ok) := rfl

theorem runWith_bind (p : TfsProc α) (f : α → TfsProc β) (d : ℕ → Block) (ok : ℕ → Bool) :
    (p >>= f).runWith d ok = match p.runWith d ok with
      | (.ok a, d', ok') => (f a).runWith d' ok'
      | (.error x, d', ok') => (.error x, d', ok') := by
  show (p.bind f).runWith d ok = _
  induction p generalizing d ok with
  | done a => rfl
  | fault x => rfl
  | readBlock n k ih => exact ih _ _ _
  | writeBlock n b k ih => exact ih _ _ _

/-- Requests are reads, and there is always a result. -/
def Scans : TfsProc α → Prop
  | done _ => True
  | fault _ => False
  | readBlock _ k => ∀ r, (k r).Scans
  | writeBlock _ _ _ => False

theorem Scans.bind {p : TfsProc α} {f : α → TfsProc β} (hp : p.Scans) (hf : ∀ a, (f a).Scans) :
    (p >>= f).Scans := by
  show (p.bind f).Scans
  induction p with
  | done a => exact hf a
  | fault x => exact hp.elim
  | readBlock n k ih => exact fun r => ih r (hp r)
  | writeBlock n b k ih => exact hp.elim

theorem Scans.runWith {p : TfsProc α} (hp : p.Scans) (d : ℕ → Block) (ok : ℕ → Bool) :
    ∃ a ok', p.runWith d ok = (.ok a, d, ok') := by
  induction p generalizing ok with
  | done a => exact ⟨a, ok, rfl⟩
  | fault x => exact hp.elim
  | readBlock n k ih => exact ih _ (hp _) _
  | writeBlock n b k ih => exact hp.elim

end TfsProc

theorem tfsInit_scans (e : Endian) (disk : Gbd) (memory : Bool) (sector : BitVec 32) :
    (tfsInit e disk memory sector).Scans := by
  unfold tfsInit
  split
  · trivial
  · split
    · trivial
    · intro r
      cases r with
      | none => trivial
      | some header =>
          simp only [TfsProc.bind]
          split <;> trivial

theorem tryDrivers_scans {drivers : List (BitVec 32 → TfsProc (Option TfsVolume))}
    (h : ∀ init ∈ drivers, ∀ sector, (init sector).Scans) (sector : BitVec 32) :
    (tryDrivers sector drivers).Scans := by
  induction drivers with
  | nil => trivial
  | cons init drivers ih =>
      refine (h init (List.mem_cons_self ..) sector).bind fun fs => ?_
      cases fs with
      | none => exact ih fun init hinit => h init (List.mem_cons_of_mem _ hinit)
      | some tfs => trivial

theorem filesystems_scan (e : Endian) (disk : Gbd) (memory : BitVec 32 → Bool) :
    ∀ init ∈ filesystems e disk memory, ∀ sector, (init sector).Scans := by
  intro init hinit sector
  obtain rfl := List.mem_singleton.1 hinit
  exact tfsInit_scans e disk _ sector

/-! ## Entries of partition tables -/

/-- Entry `i` of the partition table in a boot sector. -/
def partitionEntry (e : Endian) (bootsector : Block) (i : ℕ) : PartitionEntry :=
  ⟨bootsector.byte (0x1BE + 16 * i), bootsector.byte (0x1BE + 16 * i + 4),
    (wordAt bootsector (0x1BE + 16 * i + 8)).load e, (wordAt bootsector (0x1BE + 16 * i + 12)).load e⟩

/-- Entry `i` of the table is a valid one of an extended partition that starts at `pstart`. -/
structure ExtendedAt (e : Endian) (bootsector : Block) (i : ℕ) (pstart : BitVec 32) : Prop where
  startSector : (partitionEntry e bootsector i).startSector = pstart
  startSector_ne : pstart ≠ 0xFFFFFFFF
  active : (partitionEntry e bootsector i).active = 0x80 ∨ (partitionEntry e bootsector i).active = 0x00
  type : (partitionEntry e bootsector i).type = 0x05 ∨ (partitionEntry e bootsector i).type = 0x0F

/-- One of the four entries is. -/
def Extended (e : Endian) (bootsector : Block) (pstart : BitVec 32) : Prop :=
  ∃ i < 4, ExtendedAt e bootsector i pstart

/-- In the chain of tables of the extended partition at `start`, the one at `sector` can be followed by
    the one at `next`. -/
def NextPartitionTable (e : Endian) (d : ℕ → Block) (start sector next : BitVec 32) : Prop :=
  Extended e (d (start + sector).toNat) next

/-- An extended partition of the disk has a chain of tables that comes back to one of them. -/
def HasLoop (e : Endian) (d : ℕ → Block) : Prop :=
  ∃ start, Extended e (d 0) start ∧ LeadsToCycle (NextPartitionTable e d start) 0

section

variable (e : Endian) (drivers : List (BitVec 32 → TfsProc (Option TfsVolume))) (mbr : BitVec 32)
  {d : ℕ → Block}

/-- `get_partition` makes one request. -/
theorem runWith_getPartition_bind {α : Type} {i : ℕ} (hi : i < 4) (k : PartitionEntry → TfsProc α)
    (ok : ℕ → Bool) :
    (getPartition e i mbr >>= k).runWith d ok
      = (k (if ok 0 then partitionEntry e (d mbr.toNat) i else ⟨0, 0, 0xFFFFFFFF, 0⟩)).runWith d
          fun m => ok (m + 1) := by
  unfold getPartition
  rw [if_neg (by omega)]
  cases hok : ok 0 with
  | true => simp [TfsProc.runWith_bind, readBlock, TfsProc.runWith, hok, partitionEntry]
  | false => simp [TfsProc.runWith_bind, readBlock, TfsProc.runWith, hok]

/-- What the loop over a table makes of a chain: either it has a result that does not depend on it, or it
    follows the chain to one of its next tables. -/
theorem runWith_tryPartitions (h : ∀ init ∈ drivers, ∀ sector, (init sector).Scans) (l : List ℕ)
    (hl : ∀ i ∈ l, i < 4) (ok : ℕ → Bool) :
    (∃ fs ok', ∀ extended, (tryPartitions e drivers mbr extended l).runWith d ok = (.ok fs, d, ok')) ∨
    ∃ next ok', Extended e (d mbr.toNat) next ∧ ∀ extended,
      (tryPartitions e drivers mbr extended l).runWith d ok = (extended next).runWith d ok' := by
  induction l generalizing ok with
  | nil => exact Or.inl ⟨none, ok, fun _ => rfl⟩
  | cons i is ih =>
      have hi : i < 4 := hl i (List.mem_cons_self ..)
      have hstep : ∀ extended, (tryPartitions e drivers mbr extended (i :: is)).runWith d ok = _ :=
        fun extended => runWith_getPartition_bind e mbr hi _ ok
      generalize hp : (if ok 0 then partitionEntry e (d mbr.toNat) i else ⟨0, 0, 0xFFFFFFFF, 0⟩)
        = p at hstep
      have hrest := ih (fun i hi => hl i (List.mem_cons_of_mem _ hi)) (fun m => ok (m + 1))
      by_cases hskip : p.startSector = 0xFFFFFFFF ∨ (p.active ≠ 0x80 ∧ p.active ≠ 0x00)
      · simp only [if_pos hskip] at hstep
        simp only [hstep]
        exact hrest
      · simp only [if_neg hskip] at hstep
        by_cases hend : p.type = 0x00
        · simp only [if_pos hend] at hstep
          exact Or.inl ⟨none, _, hstep⟩
        · simp only [if_neg hend] at hstep
          by_cases hext : p.type = 0x05 ∨ p.type = 0x0F
          · simp only [if_pos hext] at hstep
            refine Or.inr ⟨p.startSector, _, ⟨i, hi, ?_⟩, hstep⟩
            -- the request has succeeded
            cases hok : ok 0 with
            | false =>
                rw [hok] at hp
                exact absurd (Or.inl (by rw [← hp]; rfl)) hskip
            | true =>
                rw [hok, if_pos rfl] at hp
                subst hp
                refine ⟨rfl, fun hlast => hskip (Or.inl hlast), ?_, hext⟩
                by_contra hactive
                exact hskip (Or.inr (not_or.1 hactive))
          · simp only [if_neg hext] at hstep
            obtain ⟨fs, ok', hrun⟩ := (tryDrivers_scans h (mbr + p.startSector)).runWith d
              fun m => ok (m + 1)
            simp only [TfsProc.runWith_bind, hrun] at hstep
            cases fs with
            | some tfs => exact Or.inl ⟨some tfs, ok', hstep⟩
            | none =>
                simp only [hstep]
                exact ih (fun i hi => hl i (List.mem_cons_of_mem _ hi)) ok'

/-! ## Requests that fail where they have to -/

/-- `k` requests fail, the next one succeeds, and then it goes on as `ok` says. -/
def steer : ℕ → (ℕ → Bool) → ℕ → Bool
  | 0, _, 0 => true
  | 0, ok, m + 1 => ok m
  | _ + 1, _, 0 => false
  | k + 1, ok, m + 1 => steer k ok m

/-- So the loop over a table can be led to any entry with an extended partition. -/
theorem runWith_tryPartitions_steer {k j n : ℕ} (hk : k < n) (hn : j + n ≤ 4) {next : BitVec 32}
    (hnext : ExtendedAt e (d mbr.toNat) (j + k) next) (ok : ℕ → Bool)
    (extended : BitVec 32 → TfsProc (Option TfsVolume)) :
    (tryPartitions e drivers mbr extended (List.range' j n)).runWith d (steer k ok)
      = (extended next).runWith d ok := by
  induction k generalizing j n with
  | zero =>
      obtain ⟨n, rfl⟩ : ∃ m, n = m + 1 := ⟨n - 1, by omega⟩
      rw [Nat.add_zero] at hnext
      obtain ⟨rfl, hne, hactive, htype⟩ := hnext
      have hvalid : ¬ ((partitionEntry e (d mbr.toNat) j).startSector = 0xFFFFFFFF ∨
          ((partitionEntry e (d mbr.toNat) j).active ≠ 0x80 ∧
            (partitionEntry e (d mbr.toNat) j).active ≠ 0x00)) := by
        rintro (hlast | ⟨h80, h00⟩)
        · exact hne hlast
        · exact hactive.elim h80 h00
      have hused : (partitionEntry e (d mbr.toNat) j).type ≠ 0x00 := by
        rcases htype with htype | htype
        · rw [htype]
          decide
        · rw [htype]
          decide
      rw [List.range'_succ]
      refine (runWith_getPartition_bind e mbr (by omega) _ _).trans ?_
      simp only [steer, if_true, if_neg hvalid, if_neg hused, if_pos htype]
  | succ k ih =>
      obtain ⟨n, rfl⟩ : ∃ m, n = m + 1 := ⟨n - 1, by omega⟩
      rw [List.range'_succ]
      refine (runWith_getPartition_bind e mbr (by omega) _ _).trans ?_
      simp only [steer, Bool.false_eq_true, if_false, true_or, if_true]
      refine ih (by omega) (by omega) ?_
      rw [Nat.add_right_comm]
      exact hnext

/-- Follow the entries `entry` from table to table: at the table `s.1` another `s.2` requests fail. -/
def steerAlong (entry : BitVec 32 → ℕ) (next : BitVec 32 → BitVec 32) : ℕ → BitVec 32 × ℕ → Bool
  | 0, (_, k) => k = 0
  | m + 1, (a, 0) => steerAlong entry next m (next a, entry (next a))
  | m + 1, (a, k + 1) => steerAlong entry next m (a, k)

theorem steerAlong_eq (entry : BitVec 32 → ℕ) (next : BitVec 32 → BitVec 32) (a : BitVec 32) (k : ℕ) :
    (fun m => steerAlong entry next m (a, k))
      = steer k fun m => steerAlong entry next m (next a, entry (next a)) := by
  induction k with
  | zero =>
      funext m
      cases m <;> rfl
  | succ k ih =>
      funext m
      cases m with
      | zero => rfl
      | succ m => exact congrFun ih m

/-! ## Chains that end, and chains that do not -/

/-- Along a chain that does not come back, the recursion ends with a result. -/
theorem readExtendedPartitionTable_ends (h : ∀ init ∈ drivers, ∀ sector, (init sector).Scans)
    {start : BitVec 32} (hloop : ¬ LeadsToCycle (NextPartitionTable e d start) 0) (ok : ℕ → Bool) :
    ∃ stack fs ok', (readExtendedPartitionTable e drivers stack start 0).runWith d ok
      = (.ok fs, d, ok') := by
  have hfinite : Finite (BitVec 32) := Finite.of_injective BitVec.toFin fun _ _ => BitVec.eq_of_toFin_eq
  revert ok
  refine acyclic_induction (P := fun a => ∀ ok, ∃ stack fs ok',
    (readExtendedPartitionTable e drivers stack start a).runWith d ok = (.ok fs, d, ok')) hloop ?_
  intro a ih ok
  rcases runWith_tryPartitions e drivers (start + a) h (List.range 4)
    (fun i hi => List.mem_range.1 hi) ok with ⟨fs, ok', hrun⟩ | ⟨next, ok', hnext, hrun⟩
  · exact ⟨1, fs, ok', hrun _⟩
  · obtain ⟨stack, fs, ok'', hend⟩ := ih next hnext ok'
    exact ⟨stack + 1, fs, ok'', (hrun _).trans hend⟩

/-- Along one that comes back, there are requests for which it goes on until the stack is full. -/
theorem readExtendedPartitionTable_endless {start : BitVec 32}
    (hloop : LeadsToCycle (NextPartitionTable e d start) 0) :
    ∃ ok, ∀ stack, ((readExtendedPartitionTable e drivers stack start 0).runWith d ok).1
      = .error .outOfBounds := by
  have hstep : ∀ a, LeadsToCycle (NextPartitionTable e d start) a → ∃ i b, i < 4 ∧
      ExtendedAt e (d (start + a).toNat) i b ∧ LeadsToCycle (NextPartitionTable e d start) b := by
    intro a ha
    obtain ⟨b, ⟨i, hi, hentry⟩, hb⟩ := ha.endless
    exact ⟨i, b, hi, hentry, hb⟩
  choose! entry next hlt hentry hnext using hstep
  refine ⟨fun m => steerAlong entry next m (0, entry 0), fun stack => ?_⟩
  have hall : ∀ a, LeadsToCycle (NextPartitionTable e d start) a →
      ((readExtendedPartitionTable e drivers stack start a).runWith d
        fun m => steerAlong entry next m (a, entry a)).1 = .error .outOfBounds := by
    induction stack with
    | zero => exact fun a _ => rfl
    | succ stack ih =>
        intro a ha
        rw [steerAlong_eq, readExtendedPartitionTable, List.range_eq_range',
          runWith_tryPartitions_steer e drivers _ (hlt a ha) (Nat.le_refl 4)
            (by rw [Nat.zero_add]; exact hentry a ha)]
        exact ih (next a) (hnext a ha)
  exact hall 0 hloop

end

/-! ## The scan of a disk -/

/-- Whichever requests fail, the scan of the disk makes finitely many nested calls of
    `read_extended_partition_table`: there is a depth that it does not exceed, and it has a result. -/
def ScanTerminates (e : Endian) (disk : Gbd) (memory : BitVec 32 → Bool) (d : ℕ → Block) : Prop :=
  ∀ ok : ℕ → Bool, ∃ stack fs, ((filesystemsTryAll e disk memory stack).runWith d ok).1 = .ok fs

section

variable (e : Endian) (disk : Gbd) (memory : BitVec 32 → Bool) {d : ℕ → Block}

theorem scanTerminates_of_not_loop (hloop : ¬ HasLoop e d) : ScanTerminates e disk memory d := by
  intro ok
  have hdrivers := filesystems_scan e disk memory
  -- with the result of the loop over the four partitions, the scan has one
  have hrest : ∀ stack fs ok', (tryPartitions e (filesystems e disk memory) 0
      (fun pstart => readExtendedPartitionTable e (filesystems e disk memory) stack pstart 0)
      (List.range 4)).runWith d ok = (.ok fs, d, ok') →
      ∃ fs, ((filesystemsTryAll e disk memory stack).runWith d ok).1 = .ok fs := by
    intro stack fs ok' hrun
    unfold filesystemsTryAll
    simp only [TfsProc.runWith_bind, hrun]
    cases fs with
    | some tfs => exact ⟨some tfs, rfl⟩
    | none =>
        obtain ⟨fs, ok'', hend⟩ := (tryDrivers_scans hdrivers 0).runWith d ok'
        exact ⟨fs, by rw [hend]⟩
  rcases runWith_tryPartitions (d := d) e _ 0 hdrivers (List.range 4)
    (fun i hi => List.mem_range.1 hi) ok with ⟨fs, ok', hrun⟩ | ⟨start, ok', hstart, hrun⟩
  · exact ⟨0, hrest 0 fs ok' (hrun _)⟩
  · have hchain : ¬ LeadsToCycle (NextPartitionTable e d start) 0 :=
      fun hcycle => hloop ⟨start, hstart, hcycle⟩
    obtain ⟨stack, fs, ok'', hend⟩ := readExtendedPartitionTable_ends e _ hdrivers hchain ok'
    exact ⟨stack, hrest stack fs ok'' ((hrun _).trans hend)⟩

/-- With the requests that lead into the loop, no depth is enough. -/
theorem scan_endless_of_loop (hloop : HasLoop e d) :
    ∃ ok, ∀ stack, ((filesystemsTryAll e disk memory stack).runWith d ok).1
      = .error .outOfBounds := by
  obtain ⟨start, ⟨i, hi, hentry⟩, hcycle⟩ := hloop
  obtain ⟨ok, hok⟩ := readExtendedPartitionTable_endless e (filesystems e disk memory) hcycle
  refine ⟨steer i ok, fun stack => ?_⟩
  have hrun := runWith_tryPartitions_steer (d := d) e (filesystems e disk memory) 0 hi
    (Nat.le_refl (0 + 4)) (by rw [Nat.zero_add]; exact hentry) ok
    (fun pstart => readExtendedPartitionTable e (filesystems e disk memory) stack pstart 0)
  rw [← List.range_eq_range'] at hrun
  have hfault := hok stack
  unfold filesystemsTryAll
  simp only [TfsProc.runWith_bind, hrun]
  generalize (readExtendedPartitionTable e (filesystems e disk memory) stack start 0).runWith d ok
    = r at hfault
  obtain ⟨r, d', ok'⟩ := r
  have hfault : r = .error .outOfBounds := hfault
  subst hfault
  rfl

/-- **Scanning for partitions.** It ends exactly on the disks on which no chain of extended partition
tables comes back to a table that it has visited. -/
theorem scanTerminates_iff (d : ℕ → Block) : ScanTerminates e disk memory d ↔ ¬ HasLoop e d := by
  constructor
  · intro hends hloop
    obtain ⟨ok, hok⟩ := scan_endless_of_loop e disk memory hloop
    obtain ⟨stack, fs, hend⟩ := hends ok
    cases (hok stack).symm.trans hend
  · exact scanTerminates_of_not_loop e disk memory

end

/-- A disk that is zero, but for the type of its first partition: an extended one, which starts where the
    disk does. -/
def loopDisk : ℕ → Block := fun _ => Block.zero.setByte 450 0x05

theorem extendedAt_loopDisk (n : ℕ) : ExtendedAt .little (loopDisk n) 0 0 := by
  have hblock : ExtendedAt .little (Block.zero.setByte 450 0x05) 0 0 :=
    ⟨by decide +kernel, by decide, Or.inr (by decide +kernel), Or.inl (by decide +kernel)⟩
  exact hblock

/-- Even if all requests succeed, the scan of this disk does not end. -/
theorem loopDisk_endless :
    (∀ stack, ((filesystemsTryAll .little ⟨512, 100⟩ (fun _ => true) stack).runWith loopDisk
      fun _ => true).1 = .error .outOfBounds) ∧
    ¬ ScanTerminates .little ⟨512, 100⟩ (fun _ => true) loopDisk := by
  have hsteer : (fun _ => true : ℕ → Bool) = steer 0 fun _ => true := by
    funext m
    cases m <;> rfl
  have htable : ∀ (mbr : BitVec 32) (extended : BitVec 32 → TfsProc (Option TfsVolume)),
      (tryPartitions .little (filesystems .little ⟨512, 100⟩ fun _ => true) mbr extended
        (List.range 4)).runWith loopDisk (fun _ => true)
        = (extended 0).runWith loopDisk fun _ => true := by
    intro mbr extended
    rw [List.range_eq_range']
    nth_rewrite 1 [hsteer]
    exact runWith_tryPartitions_steer _ _ _ (by decide) (Nat.le_refl 4) (extendedAt_loopDisk _) _ _
  have hchain : ∀ stack, (readExtendedPartitionTable .little
      (filesystems .little ⟨512, 100⟩ fun _ => true) stack 0 0).runWith loopDisk (fun _ => true)
        = (.error .outOfBounds, loopDisk, fun _ => true) := by
    intro stack
    induction stack with
    | zero => rfl
    | succ stack ih => exact (htable _ _).trans ih
  have hall : ∀ stack, ((filesystemsTryAll .little ⟨512, 100⟩ (fun _ => true) stack).runWith loopDisk
      fun _ => true).1 = .error .outOfBounds := by
    intro stack
    unfold filesystemsTryAll
    simp only [TfsProc.runWith_bind, htable, hchain]
  refine ⟨hall, fun hends => ?_⟩
  obtain ⟨stack, fs, hend⟩ := hends fun _ => true
  cases (hall stack).symm.trans hend

end Kudos
