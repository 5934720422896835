import Kudos.Fs.VfsRemount

set_option autoImplicit false

/-! # Listing the volumes

`vfs_filecount(NULL)` counts up to the first free row, and `vfs_file(NULL, idx, buffer)` walks over the
table until it has seen `idx` mounted rows. Both are right as long as the mounted rows are the first ones;
the index behind the last volume is never rejected as it should be. -/

namespace Kudos

open CInt Transition

/-! ## The walk of `vfs_file` -/

/-- What `vfs_file(NULL, idx, buffer)` does with the mount table locked: its result, what it copies to
    the buffer, and the rows of `vfs_table.filesystems` that it looks at. -/
structure VolumeLookup where
  ret : ℤ
  buffer : Option (List UInt8)
  rows : List ℕ
  deriving DecidableEq, Repr

/-- The loop has looked at all rows in front of the one it stops at. -/
def volumeLookup (t : VfsTables) (idx : ℤ) : VolumeLookup :=
  let (row, idx) := skipMounted t configMaxFilesystems 0 idx
  if idx ≠ 0 then ⟨vfsError, none, List.range row⟩
  else
    ⟨vfsOk, some ((t.filesystems row).mountpoint.take (vfsNameLength - 1)), List.range row ++ [row]⟩

/-- The rows that hold a filesystem, in the order of the table. -/
def mountedRows (t : VfsTables) : List ℕ :=
  (List.range configMaxFilesystems).filter fun row => (t.filesystems row).filesystem ≠ none

section

variable (drivers : FsCall → ℤ) {t : VfsTables}

theorem vfsFile_lookup (idx : ℤ) :
    (vfsFile none idx).runAlone drivers (idleMemory t)
      = some ((volumeLookup t idx).ret, idleMemory t) := by
  unfold vfsFile volumeLookup
  by_cases hidx : (skipMounted t configMaxFilesystems 0 idx).2 = 0
  · simp [hidx]
  · simp [hidx]

theorem vfsFilecount_ret :
    (vfsFilecount none).runAlone drivers (idleMemory t)
      = some ((((t.findRow (·.filesystem = none)).getD configMaxFilesystems : ℕ) : ℤ), idleMemory t) := by
  unfold vfsFilecount
  simp

end

/-! ## The walk -/

section

variable {t : VfsTables}

/-- Over mounted rows the index goes down with every row. -/
theorem skipMounted_of_mounted (k n row : ℕ) (hk : k ≤ n) (hmax : (k : ℤ) ≤ intMax)
    (hmounted : ∀ j < k, (t.filesystems (row + j)).filesystem ≠ none) :
    skipMounted t n row k = (row + k, 0) := by
  induction k generalizing n row with
  | zero =>
      cases n with
      | zero => rfl
      | succ n => rfl
  | succ k ih =>
      obtain ⟨n, rfl⟩ : ∃ m, n = m + 1 := ⟨n - 1, by omega⟩
      have hfirst : (t.filesystems row).filesystem ≠ none := hmounted 0 (Nat.zero_lt_succ k)
      have hwrap : wrap32 (((k + 1 : ℕ) : ℤ) - 1) = k := by
        rw [wrap32_of_nonneg (by omega) (by omega)]
        omega
      have hrest : ∀ j < k, (t.filesystems (row + 1 + j)).filesystem ≠ none := by
        intro j hj
        rw [Nat.add_assoc, Nat.add_comm 1 j]
        exact hmounted (j + 1) (Nat.succ_lt_succ hj)
      rw [skipMounted, if_pos (by omega), if_pos hfirst, hwrap,
        ih n (row + 1) (by omega) (by omega) hrest]
      congr 1
      omega

/-- The index goes down by the number of mounted rows that were passed. -/
theorem skipMounted_index (n row : ℕ) (idx : ℤ) :
    ∃ k ≤ ((List.range' row n).filter fun r => (t.filesystems r).filesystem ≠ none).length,
      (2 ^ 32 : ℤ) ∣ (skipMounted t n row idx).2 - (idx - k) := by
  induction n generalizing row idx with
  | zero => exact ⟨0, Nat.zero_le _, by simp [skipMounted]⟩
  | succ n ih =>
      rw [skipMounted]
      by_cases hidx : idx ≠ 0
      · rw [if_pos hidx]
        by_cases hrow : (t.filesystems row).filesystem ≠ none
        · obtain ⟨k, hk, hdvd⟩ := ih (row + 1) (wrap32 (idx - 1))
          have hwrap : (2 ^ 32 : ℤ) ∣ wrap32 (idx - 1) - (idx - 1) := Int.dvd_bmod_sub_self
          rw [if_pos hrow, List.range'_succ, List.filter_cons_of_pos (by simpa using hrow)]
          refine ⟨k + 1, Nat.succ_le_succ hk, ?_⟩
          have hsum : (skipMounted t n (row + 1) (wrap32 (idx - 1))).2 - (idx - ((k + 1 : ℕ) : ℤ))
              = (skipMounted t n (row + 1) (wrap32 (idx - 1))).2 - (wrap32 (idx - 1) - k)
                + (wrap32 (idx - 1) - (idx - 1)) := by
            omega
          rw [hsum]
          exact Int.dvd_add hdvd hwrap
        · obtain ⟨k, hk, hdvd⟩ := ih (row + 1) idx
          rw [if_neg hrow, List.range'_succ, List.filter_cons_of_neg (by simpa using hrow)]
          exact ⟨k, hk, hdvd⟩
      · rw [if_neg hidx]
        exact ⟨0, Nat.zero_le _, by simp⟩

/-- The walk does not go beyond the table. -/
theorem skipMounted_row_le (n row : ℕ) (idx : ℤ) : (skipMounted t n row idx).1 ≤ row + n := by
  induction n generalizing row idx with
  | zero => exact Nat.le_refl _
  | succ n ih =>
      rw [skipMounted]
      split
      · have hnext := ih (row + 1)
          (if (t.filesystems row).filesystem ≠ none then wrap32 (idx - 1) else idx)
        omega
      · exact Nat.le_add_right ..

/-! ## Tables without gaps -/

/-- No free row in front of a mounted one. -/
def VfsTables.NoGap (t : VfsTables) : Prop :=
  ∀ row < configMaxFilesystems, (t.filesystems row).filesystem ≠ none →
    ∀ row' < row, (t.filesystems row').filesystem ≠ none

/-- The rows in front of the first free one are mounted, and the others are those behind a gap. -/
theorem mountedRows_split : ∃ rest, (rest = [] ↔ t.NoGap) ∧
    mountedRows t
      = List.range ((t.findRow (·.filesystem = none)).getD configMaxFilesystems) ++ rest := by
  obtain ⟨r, hr, hle, hbefore, hfree⟩ : ∃ r,
      (t.findRow (·.filesystem = none)).getD configMaxFilesystems = r ∧ r ≤ configMaxFilesystems ∧
      (∀ row < r, (t.filesystems row).filesystem ≠ none) ∧
      (r < configMaxFilesystems → (t.filesystems r).filesystem = none) := by
    cases hrow : t.findRow (·.filesystem = none) with
    | none =>
        refine ⟨_, rfl, Nat.le_refl _, ?_, fun hlt => absurd hlt (Nat.lt_irrefl _)⟩
        intro row hlt
        simpa using VfsTables.findRow_eq_none.1 hrow row hlt
    | some r =>
        obtain ⟨hlt, hfree, hbefore⟩ := VfsTables.findRow_eq_some hrow
        exact ⟨r, rfl, hlt.le, fun row hrow => by simpa using hbefore row hrow,
          fun _ => by simpa using hfree⟩
  rw [hr]
  refine ⟨((List.range (configMaxFilesystems - r)).map (r + ·)).filter
    (fun row => (t.filesystems row).filesystem ≠ none), ?_, ?_⟩
  · rw [List.filter_eq_nil_iff]
    simp only [List.mem_map, List.mem_range, decide_eq_true_eq, forall_exists_index, and_imp,
      forall_apply_eq_imp_iff₂, not_not]
    constructor
    · intro hgap row hlt hmounted row' hlt'
      refine hbefore row' (hlt'.trans ?_)
      by_contra hge
      have hnone := hgap (row - r) (by omega)
      rw [Nat.add_sub_cancel' (by omega)] at hnone
      exact hmounted hnone
    · intro hnogap j hj
      by_contra hmounted
      have hnone := hfree (by omega)
      rcases Nat.eq_zero_or_pos j with rfl | hpos
      · exact hmounted hnone
      · exact hnogap (r + j) (by omega) hmounted r (by omega) hnone
  · unfold mountedRows
    rw [← Nat.add_sub_cancel' hle, List.range_add, List.filter_append, Nat.add_sub_cancel_left]
    congr 1
    rw [List.filter_eq_self]
    intro row hrow
    simpa using hbefore row (List.mem_range.1 hrow)

end

/-! ## Names of mounted rows -/

/-- The name of a row that holds a filesystem fits into a buffer. -/
def VfsTables.ShortNames (t : VfsTables) : Prop :=
  ∀ row < configMaxFilesystems, (t.filesystems row).filesystem ≠ none →
    (t.filesystems row).mountpoint.length < vfsNameLength

theorem VfsTables.ShortNames.setFilesystem {t : VfsTables} (h : t.ShortNames) (row : ℕ) {e : VfsEntry}
    (he : e.filesystem ≠ none → e.mountpoint.length < vfsNameLength) :
    (t.setFilesystem row e).ShortNames := by
  intro r hr hmounted
  by_cases heq : r = row
  · rw [heq, VfsTables.setFilesystem_self] at hmounted
    rw [heq, VfsTables.setFilesystem_self]
    exact he hmounted
  · rw [VfsTables.setFilesystem_of_ne t heq] at hmounted
    rw [VfsTables.setFilesystem_of_ne t heq]
    exact h r hr hmounted

/-- `vfs_mount` is the only one that fills a row. -/
theorem MountReachable.shortNames {H : MountSystem} (h : MountReachable H) :
    H.mem.tables.ShortNames := by
  refine (Reach.invariant (I := fun H => MountInvariant H ∧ H.mem.tables.ShortNames) ?_ ?_ h).2
  · intro H hinit
    exact ⟨mountInit_invariant hinit, fun row hlt hmounted => absurd (hinit.filesystems row hlt) hmounted⟩
  · rintro H label H' ⟨hinv, hshort⟩ hstep
    refine ⟨hinv.step hstep, ?_⟩
    cases hstep with
    | files files => exact hshort
    | @call c drivers ret mem hname hrun =>
        rw [hinv.idle] at hrun
        cases c with
        | mount fs name =>
            have hname : IsMountName name := hname
            rcases vfsMount_outcome (t := H.mem.tables) drivers fs hname with
              hret | hret | ⟨row, -, -, hret⟩
            · cases hret.symm.trans hrun
              exact hshort
            · cases hret.symm.trans hrun
              exact hshort
            · cases hret.symm.trans hrun
              exact hshort.setFilesystem row fun _ => hname.2.1
        | unmount name =>
            rcases vfsUnmount_outcome drivers H.mem.tables name with
              ⟨hret, -⟩ | ⟨hret, -⟩ | ⟨row, -, -, -, hret⟩
            · cases hret.symm.trans hrun
              exact hshort
            · cases hret.symm.trans hrun
              exact hshort
            · cases hret.symm.trans hrun
              exact hshort.setFilesystem row fun hnone => absurd rfl hnone

/-! ## What the listing is -/

/-- With the index `i` the volumes are listed exactly: their number, the name of the one with this
    index in the order of the table, no name for any other index, and no row that the table does not
    have. -/
structure ListsVolume (drivers : FsCall → ℤ) (H : MountSystem) (i : ℤ) : Prop where
  count : (vfsFilecount none).runAlone drivers H.mem
    = some (((mountedRows H.mem.tables).length : ℤ), H.mem)
  found : ∀ k row : ℕ, i = k → (mountedRows H.mem.tables)[k]? = some row →
    (vfsFile none i).runAlone drivers H.mem = some (vfsOk, H.mem) ∧
      (volumeLookup H.mem.tables i).buffer = some (H.mem.tables.filesystems row).mountpoint
  rejected : ¬ (0 ≤ i ∧ i < (mountedRows H.mem.tables).length) →
    (vfsFile none i).runAlone drivers H.mem = some (vfsError, H.mem)
  rows_inTable : ∀ row ∈ (volumeLookup H.mem.tables i).rows, row < configMaxFilesystems

section

variable {t : VfsTables}

theorem length_mountedRows_le : (mountedRows t).length ≤ configMaxFilesystems := by
  unfold mountedRows
  exact (List.length_filter_le ..).trans (List.length_range).le

/-- Without gaps the mounted rows are the first ones. -/
theorem VfsTables.NoGap.mountedRows_eq (h : t.NoGap) :
    mountedRows t = List.range (mountedRows t).length := by
  obtain ⟨rest, hrest, hsplit⟩ := mountedRows_split (t := t)
  rw [hrest.2 h, List.append_nil] at hsplit
  rw [hsplit, List.length_range]

theorem VfsTables.NoGap.mounted (h : t.NoGap) {row : ℕ} (hrow : row < (mountedRows t).length) :
    (t.filesystems row).filesystem ≠ none := by
  have hmem : row ∈ mountedRows t := by
    rw [h.mountedRows_eq]
    exact List.mem_range.2 hrow
  simpa using (List.mem_filter.1 hmem).2

/-- Up to the number of volumes the walk ends at the row with the index, which is one too far at the
    number of volumes itself. -/
theorem VfsTables.NoGap.volumeLookup_eq (h : t.NoGap) {k : ℕ} (hk : k ≤ (mountedRows t).length) :
    volumeLookup t k = ⟨vfsOk, some ((t.filesystems k).mountpoint.take (vfsNameLength - 1)),
      List.range k ++ [k]⟩ := by
  have hle := hk.trans length_mountedRows_le
  have hval : configMaxFilesystems = 8 := rfl
  have hwalk := skipMounted_of_mounted (t := t) k configMaxFilesystems 0 hle
    (by simp only [intMax]; omega) (fun j hj => by
      rw [Nat.zero_add]
      exact h.mounted (hj.trans_le hk))
  unfold volumeLookup
  rw [hwalk]
  simp

/-- An index that is negative or beyond the number of volumes does not come down to 0. -/
theorem volumeLookup_of_not_mem {i : ℤ} (hint : intMin ≤ i ∧ i ≤ intMax)
    (hi : ¬ (0 ≤ i ∧ i ≤ (mountedRows t).length)) :
    (volumeLookup t i).ret = vfsError ∧
      ∀ row ∈ (volumeLookup t i).rows, row < configMaxFilesystems := by
  obtain ⟨k, hk, hdvd⟩ := skipMounted_index (t := t) configMaxFilesystems 0 i
  rw [← List.range_eq_range'] at hk
  have hk : k ≤ (mountedRows t).length := hk
  have hle := length_mountedRows_le (t := t)
  have hval : configMaxFilesystems = 8 := rfl
  have hrow := skipMounted_row_le (t := t) configMaxFilesystems 0 i
  have hidx : (skipMounted t configMaxFilesystems 0 i).2 ≠ 0 := by
    intro hzero
    rw [hzero] at hdvd
    simp only [intMin, intMax] at hint
    omega
  have hlookup : volumeLookup t i
      = ⟨vfsError, none, List.range (skipMounted t configMaxFilesystems 0 i).1⟩ := if_pos hidx
  rw [hlookup]
  refine ⟨rfl, fun row hmem => ?_⟩
  have hlt := List.mem_range.1 hmem
  omega

end

/-- **Listing the volumes.** It is exact for the tables without gaps and the indexes other than the
number of volumes. -/
theorem listsVolume_iff (drivers : FsCall → ℤ) {H : MountSystem} (h : MountReachable H) {i : ℤ}
    (hint : intMin ≤ i ∧ i ≤ intMax) :
    ListsVolume drivers H i ↔
      H.mem.tables.NoGap ∧ i ≠ (mountedRows H.mem.tables).length := by
  have hidle := h.invariant.idle
  have hfile : (vfsFile none i).runAlone drivers H.mem
      = some ((volumeLookup H.mem.tables i).ret, H.mem) := by
    rw [hidle]
    exact vfsFile_lookup drivers i
  have hcount : (vfsFilecount none).runAlone drivers H.mem
      = some ((((H.mem.tables.findRow (·.filesystem = none)).getD configMaxFilesystems : ℕ) : ℤ),
        H.mem) := by
    rw [hidle]
    exact vfsFilecount_ret drivers
  obtain ⟨rest, hrest, hsplit⟩ := mountedRows_split (t := H.mem.tables)
  constructor
  · intro hlist
    have hnogap : H.mem.tables.NoGap := by
      -- the rows behind the first free one are not counted
      refine hrest.1 (List.length_eq_zero_iff.1 ?_)
      have hlen := congrArg List.length hsplit
      rw [List.length_append, List.length_range] at hlen
      have hsame := hcount.symm.trans hlist.count
      simp only [Option.some.injEq, Prod.mk.injEq, and_true, Nat.cast_inj] at hsame
      omega
    refine ⟨hnogap, ?_⟩
    rintro rfl
    have hrejected := hlist.rejected (by omega)
    rw [hfile, hnogap.volumeLookup_eq (Nat.le_refl _)] at hrejected
    simp [vfsOk, vfsError] at hrejected
  · rintro ⟨hnogap, hne⟩
    have hlength : (mountedRows H.mem.tables).length
        = (H.mem.tables.findRow (·.filesystem = none)).getD configMaxFilesystems := by
      rw [hsplit, hrest.2 hnogap, List.append_nil, List.length_range]
    refine ⟨?_, ?_, ?_, ?_⟩
    · rw [hcount, hlength]
    · rintro k row rfl hrow
      have hk : k < (mountedRows H.mem.tables).length := (List.getElem?_eq_some_iff.1 hrow).1
      have hkrow : row = k := by
        rw [hnogap.mountedRows_eq, List.getElem?_range hk] at hrow
        exact (Option.some.inj hrow).symm
      subst hkrow
      have hshort := h.shortNames row (hk.trans_le length_mountedRows_le) (hnogap.mounted hk)
      rw [hfile, hnogap.volumeLookup_eq hk.le]
      exact ⟨rfl, congrArg some (List.take_of_length_le (Nat.le_sub_one_of_lt hshort))⟩
    · intro hi
      rw [hfile, (volumeLookup_of_not_mem hint (by omega)).1]
    · by_cases hi : 0 ≤ i ∧ i < (mountedRows H.mem.tables).length
      · obtain ⟨k, rfl⟩ : ∃ k : ℕ, i = k := ⟨i.toNat, by omega⟩
        rw [hnogap.volumeLookup_eq (by omega)]
        intro row hrow
        have hle := length_mountedRows_le (t := H.mem.tables)
        rcases List.mem_append.1 hrow with hrow | hrow
        · have hlt := List.mem_range.1 hrow
          omega
        · rw [List.mem_singleton.1 hrow]
          omega
      · exact (volumeLookup_of_not_mem hint (by omega)).2

/-- One volume is listed as it should be. -/
theorem listsVolume_iff_mounted : ListsVolume (fun _ => 0) mountedSystem 0 := by
  have hrows : mountedRows mountedSystem.mem.tables = [0] := by decide +kernel
  refine (listsVolume_iff _ mountReachable_mounted ⟨by decide, by decide⟩).2 ⟨?_, ?_⟩
  · intro row hlt hmounted row' hlt'
    have hmem : row ∈ mountedRows mountedSystem.mem.tables :=
      List.mem_filter.2 ⟨List.mem_range.2 hlt, by simpa using hmounted⟩
    rw [hrows, List.mem_singleton] at hmem
    omega
  · rw [hrows]
    decide

/-- The volume `b` is not counted, the name at index 0 is that of the volume that is gone, and index 1
    is not rejected. -/
theorem gapSystem_misListed :
    MountReachable gapSystem ∧ mountedRows gapSystem.mem.tables = [1] ∧
    (vfsFilecount none).runAlone (fun _ => 0) gapSystem.mem = some (0, gapSystem.mem) ∧
    (volumeLookup gapSystem.mem.tables 0).buffer = some [0x61] ∧
    (vfsFile none 1).runAlone (fun _ => 0) gapSystem.mem = some (vfsOk, gapSystem.mem) ∧
    ¬ ListsVolume (fun _ => 0) gapSystem 0 ∧ ¬ ListsVolume (fun _ => 0) gapSystem 1 := by
  have hrows : mountedRows gapSystem.mem.tables = [1] := by decide +kernel
  have hcount : (vfsFilecount none).runAlone (fun _ => 0) gapSystem.mem = some (0, gapSystem.mem) :=
    (vfsFilecount_ret (fun _ => 0)).trans rfl
  have hfile : (vfsFile none 1).runAlone (fun _ => 0) gapSystem.mem = some (vfsOk, gapSystem.mem) :=
    (vfsFile_lookup (fun _ => 0) 1).trans rfl
  have hmiscount : ∀ i, ¬ ListsVolume (fun _ => 0) gapSystem i := by
    intro i hlist
    have hsame := hcount.symm.trans hlist.count
    rw [hrows] at hsame
    simp at hsame
  exact ⟨mountReachable_gap, hrows, hcount, by decide +kernel, hfile, hmiscount 0, hmiscount 1⟩

end Kudos
