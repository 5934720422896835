import Kudos.Fs.VfsMount

set_option autoImplicit false

/-! # Why a mount fails

`vfs_mount` looks for a free row by the filesystem pointers and for a row in its way by the names.
`vfs_unmount` takes the pointer out of a row and leaves the name, so a name can be in the way long
after its volume is gone: until another volume is mounted in that row. -/

namespace Kudos

open Transition

section

variable (drivers : FsCall → ℤ) {t : VfsTables} {name : List UInt8}

/-! ## The result of `vfs_mount` -/

/-- Every row holds a filesystem. -/
def VfsTables.Full (t : VfsTables) : Prop :=
  ∀ row < configMaxFilesystems, (t.filesystems row).filesystem ≠ none

/-- The name is in a free row, where an unmounted volume has left it. -/
def VfsTables.HasStale (t : VfsTables) (name : List UInt8) : Prop :=
  ∃ row < configMaxFilesystems, (t.filesystems row).filesystem = none ∧
    (t.filesystems row).mountpoint = name

theorem VfsTables.findRow_free_eq_none : t.findRow (·.filesystem = none) = none ↔ t.Full := by
  rw [findRow_eq_none]
  simp [Full]

theorem VfsTables.findRow_name_isSome :
    (t.findRow (·.mountpoint = name)).isSome = true ↔
      ∃ row < configMaxFilesystems, (t.filesystems row).mountpoint = name := by
  rw [Option.isSome_iff_ne_none, ne_eq, findRow_eq_none]
  simp

/-- The result depends on whether the table is full and whether a row has the name. -/
theorem vfsMount_ret (fs : Option ℕ) (hname : IsMountName name) :
    ∃ ret mem, (vfsMount fs (some name)).runAlone drivers (idleMemory t) = some (ret, mem) ∧
      ret = if (t.findRow (·.filesystem = none)).isNone then vfsLimit
        else if (t.findRow (·.mountpoint = name)).isSome then vfsError else vfsOk := by
  cases hfree : t.findRow (·.filesystem = none) with
  | none =>
      refine ⟨vfsLimit, idleMemory t, ?_, rfl⟩
      unfold vfsMount
      rw [vfsAssert_mountName hname]
      simp [hfree]
  | some row =>
      cases hnew : t.findRow (·.mountpoint = name) with
      | some row' =>
          refine ⟨vfsError, idleMemory t, ?_, rfl⟩
          unfold vfsMount
          rw [vfsAssert_mountName hname]
          simp [hfree, hnew]
      | none => exact ⟨vfsOk, _, vfsMount_ok drivers fs hname hfree hnew, rfl⟩

/-! ## The documented reasons -/

/-- `vfs_mount` fails for its documented reasons only: the table is full, or a filesystem is mounted
    under the name, and it has been since the last mount of the name that succeeded. -/
def MountsAsDocumented (H : MountSystem) (fs : Option ℕ) (name : List UInt8) : Prop :=
  ∃ ret mem, (vfsMount fs (some name)).runAlone drivers H.mem = some (ret, mem) ∧
    (ret = vfsLimit ↔ H.mem.tables.Full) ∧
    (ret = vfsError ↔ ¬ H.mem.tables.Full ∧ mountedAs H.log name ≠ none) ∧
    (ret = vfsOk ↔ ¬ H.mem.tables.Full ∧ mountedAs H.log name = none)

theorem vfsLimit_ne : vfsLimit ≠ vfsError ∧ vfsLimit ≠ vfsOk ∧ vfsError ≠ vfsOk := by decide

/-- Under the name of a row that holds a filesystem something is mounted, and only then. -/
theorem MountInvariant.mountedAs_ne_none {H : MountSystem} (h : MountInvariant H) :
    mountedAs H.log name ≠ none ↔ ∃ row < configMaxFilesystems,
      (H.mem.tables.filesystems row).filesystem ≠ none ∧
        (H.mem.tables.filesystems row).mountpoint = name := by
  rw [← h.lookup, Option.ne_none_iff_exists']
  constructor
  · rintro ⟨fs, hfs⟩
    obtain ⟨row, hlt, hrow, hmounted⟩ := h.unique.lookup.1 hfs
    exact ⟨row, hlt, by rw [hmounted]; simp, hrow⟩
  · rintro ⟨row, hlt, hmounted, hrow⟩
    obtain ⟨fs, hfs⟩ := Option.ne_none_iff_exists'.1 hmounted
    exact ⟨fs, h.unique.lookup.2 ⟨row, hlt, hrow, hfs⟩⟩

/-- A name that is in a free row is in no other row that holds a filesystem. -/
theorem MountInvariant.not_mounted_of_stale {H : MountSystem} (h : MountInvariant H)
    (hstale : H.mem.tables.HasStale name) : mountedAs H.log name = none := by
  obtain ⟨row, hlt, hfree, hrow⟩ := hstale
  by_contra hmounted
  obtain ⟨row', hlt', hused, hrow'⟩ := h.mountedAs_ne_none.1 hmounted
  have hsame := h.unique row' hlt' hused row hlt (hrow.trans hrow'.symm)
  rw [hsame] at hfree
  exact hused hfree

/-- **Failing mounts.** `vfs_mount` fails for its documented reasons exactly if the name is not one
that an unmounted volume has left in its row. -/
theorem vfsMount_documented_iff {H : MountSystem} (h : MountReachable H) (fs : Option ℕ)
    (hname : IsMountName name) :
    MountsAsDocumented drivers H fs name ↔ ¬ H.mem.tables.HasStale name := by
  have hinv := h.invariant
  obtain ⟨hlimit, hlimitOk, herror⟩ := vfsLimit_ne
  obtain ⟨ret, mem, hrun, hret⟩ := vfsMount_ret (t := H.mem.tables) drivers fs hname
  rw [← hinv.idle] at hrun
  by_cases hfull : H.mem.tables.Full
  · -- all rows are in use, so none has a stale name
    have hnostale : ¬ H.mem.tables.HasStale name := by
      rintro ⟨row, hlt, hfree, -⟩
      exact hfull row hlt hfree
    rw [VfsTables.findRow_free_eq_none.2 hfull] at hret
    have hret : ret = vfsLimit := hret
    subst hret
    refine iff_of_true ⟨_, mem, hrun, ?_, ?_, ?_⟩ hnostale
    · exact iff_of_true rfl hfull
    · exact iff_of_false hlimit fun hc => hc.1 hfull
    · exact iff_of_false hlimitOk fun hc => hc.1 hfull
  · have hsome : (H.mem.tables.findRow (·.filesystem = none)).isNone = false := by
      rw [← Bool.not_eq_true, Option.isNone_iff_eq_none, VfsTables.findRow_free_eq_none]
      exact hfull
    rw [hsome] at hret
    simp only [Bool.false_eq_true, if_false, VfsTables.findRow_name_isSome] at hret
    by_cases hrow : ∃ row < configMaxFilesystems, (H.mem.tables.filesystems row).mountpoint = name
    · rw [if_pos hrow] at hret
      subst hret
      constructor
      · rintro ⟨ret, mem', hrun', -, hmounted, -⟩ hstale
        cases hrun.symm.trans hrun'
        exact (hmounted.1 rfl).2 (hinv.not_mounted_of_stale hstale)
      · intro hstale
        -- the row with the name holds a filesystem
        have hmounted : mountedAs H.log name ≠ none := by
          obtain ⟨row, hlt, hrow⟩ := hrow
          refine hinv.mountedAs_ne_none.2 ⟨row, hlt, fun hfree => ?_, hrow⟩
          exact hstale ⟨row, hlt, hfree, hrow⟩
        refine ⟨_, mem, hrun, ?_, ?_, ?_⟩
        · exact iff_of_false hlimit.symm hfull
        · exact iff_of_true rfl ⟨hfull, hmounted⟩
        · exact iff_of_false herror fun hc => hmounted hc.2
    · rw [if_neg hrow] at hret
      subst hret
      have hnone : mountedAs H.log name = none := by
        by_contra hmounted
        obtain ⟨row, hlt, -, hrow'⟩ := hinv.mountedAs_ne_none.1 hmounted
        exact hrow ⟨row, hlt, hrow'⟩
      have hnostale : ¬ H.mem.tables.HasStale name := by
        rintro ⟨row, hlt, -, hrow'⟩
        exact hrow ⟨row, hlt, hrow'⟩
      refine iff_of_true ⟨_, mem, hrun, ?_, ?_, ?_⟩ hnostale
      · exact iff_of_false hlimitOk.symm hfull
      · exact iff_of_false herror.symm fun hc => hc.2 hnone
      · exact iff_of_true rfl ⟨hfull, hnone⟩

end

/-! ## A volume that does not come back -/

/-- It was unmounted. -/
def unmountedSystem : MountSystem where
  mem := idleMemory ((bootTables.setFilesystem 0 ⟨some 1, [0x61]⟩).setFilesystem 0 ⟨none, [0x61]⟩)
  log := [(.mount (some 1) [0x61], vfsOk), (.unmount [0x61], vfsOk)]

theorem mountReachable_unmounted : MountReachable unmountedSystem := by
  have hrun : (vfsUnmount [0x61]).runAlone (fun _ => 0) mountedSystem.mem
      = some (vfsOk, unmountedSystem.mem) :=
    vfsUnmount_ok _ rfl rfl (by decide +kernel)
  exact mountReachable_mounted.step _ (.call (c := .unmount [0x61]) isMountName_a hrun)

/-- Another name can be mounted in its row. -/
theorem vfsMount_documented_iff_otherName :
    MountsAsDocumented (fun _ => 0) unmountedSystem (some 2) [0x62] := by
  refine (vfsMount_documented_iff _ mountReachable_unmounted _ isMountName_b).2 ?_
  rintro ⟨row, hlt, -, hrow⟩
  revert row
  decide

/-- The volume `a` cannot be mounted again, although nothing is mounted at all. -/
theorem unmounted_notRemounted :
    MountReachable unmountedSystem ∧ mountedAs unmountedSystem.log [0x61] = none ∧
    (∀ row < configMaxFilesystems, (unmountedSystem.mem.tables.filesystems row).filesystem = none) ∧
    (∃ mem, (vfsMount (some 1) (some [0x61])).runAlone (fun _ => 0) unmountedSystem.mem
      = some (vfsError, mem)) ∧
    ¬ MountsAsDocumented (fun _ => 0) unmountedSystem (some 1) [0x61] := by
  obtain ⟨ret, mem, hrun, hret⟩ :=
    vfsMount_ret (t := unmountedSystem.mem.tables) (fun _ => 0) (some 1) isMountName_a
  have hret : ret = vfsError := hret.trans (by decide +kernel)
  subst hret
  refine ⟨mountReachable_unmounted, by decide +kernel, by decide +kernel, ⟨mem, hrun⟩, ?_⟩
  rintro ⟨ret, mem', hrun', -, hmounted, -⟩
  cases hrun.symm.trans hrun'
  exact absurd (hmounted.1 rfl).2 (by decide +kernel)

end Kudos
