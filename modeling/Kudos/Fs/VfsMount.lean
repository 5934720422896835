import Kudos.Fs.Vfs
import Kudos.Library.Transition

set_option autoImplicit false

/-! # The mount table

`vfs_mount` and `vfs_unmount`, one call after the other. `vfs_unmount` leaves the name in its row, and
the searches for a name stop at the first row that has it, mounted or not. This is harmless because
`vfs_mount` refuses a name that is in any row, so that a row with a filesystem is the only one with its
name (`VfsTables.UniqueNames`). -/

namespace Kudos

open Transition

/-! ## Calls without interruption -/

/-- The globals of the module. -/
structure VfsMemory where
  ops : VfsOps
  tables : VfsTables
  sem : VfsSem → ℕ

/-- A call from its start to its end, with the results that the drivers return. Without `some` it
    crashes or waits forever. -/
def VfsProc.runAlone {α : Type} (drivers : FsCall → ℤ) : VfsProc α → VfsMemory → Option (α × VfsMemory)
  | done a, s => some (a, s)
  | panic, _ => none
  | startOp k, s =>
      let (ret, ops) := startOpBody s.ops
      (k ret).runAlone drivers { s with ops := ops }
  | endOp k, s =>
      match endOpBody s.ops with
      | .ok (_, ops) => k.runAlone drivers { s with ops := ops }
      | .error _ => none
  | semaphoreP sem k, s =>
      if 0 < s.sem sem then
        k.runAlone drivers { s with sem := Function.update s.sem sem (s.sem sem - 1) }
      else none
  | semaphoreV sem k, s =>
      k.runAlone drivers { s with sem := Function.update s.sem sem (s.sem sem + 1) }
  | load k, s => (k s.tables).runAlone drivers s
  | store f k, s => k.runAlone drivers { s with tables := f s.tables }
  | verifyOpen file k, s => (k ((s.tables.files file).filesystem ≠ none)).runAlone drivers s
  | driver call k, s => (k (drivers call)).runAlone drivers s

section

variable {α β : Type} (drivers : FsCall → ℤ)

@[simp]
theorem VfsProc.runAlone_pure (a : α) (s : VfsMemory) :
    (pure a : VfsProc α).runAlone drivers s = some (a, s) := rfl

@[simp]
theorem VfsProc.runAlone_bind (p : VfsProc α) (f : α → VfsProc β) (s : VfsMemory) :
    (p >>= f).runAlone drivers s
      = (p.runAlone drivers s).bind fun r => (f r.1).runAlone drivers r.2 := by
  show (p.bind f).runAlone drivers s = _
  induction p generalizing s with
  | done a => rfl
  | panic => rfl
  | startOp k ih => exact ih _ _
  | endOp k ih =>
      simp only [VfsProc.bind, VfsProc.runAlone]
      split
      · exact ih _
      · rfl
  | semaphoreP sem k ih =>
      simp only [VfsProc.bind, VfsProc.runAlone]
      split
      · exact ih _
      · rfl
  | semaphoreV sem k ih => exact ih _
  | load k ih => exact ih _ _
  | store g k ih => exact ih _
  | verifyOpen file k ih => exact ih _ _
  | driver call k ih => exact ih _ _

end

/-! ## Runs -/

inductive MountCall
  | mount (fs : Option ℕ) (name : List UInt8)
  | unmount (name : List UInt8)

def MountCall.body : MountCall → VfsProc ℤ
  | mount fs name => vfsMount fs (some name)
  | unmount name => vfsUnmount name

def MountCall.name : MountCall → List UInt8
  | mount _ name => name
  | unmount name => name

/-- A string of 1 to 15 characters. -/
def IsMountName (name : List UInt8) : Prop :=
  1 ≤ name.length ∧ name.length < vfsNameLength ∧ ∀ c ∈ name, c ≠ 0

/-- The globals, and the calls so far with their results. -/
structure MountSystem where
  mem : VfsMemory
  log : List (MountCall × ℤ)

inductive MountStep : MountSystem → Option MountCall → MountSystem → Prop
  | call {H : MountSystem} {c : MountCall} {drivers : FsCall → ℤ} {ret : ℤ} {mem : VfsMemory} :
      IsMountName c.name → c.body.runAlone drivers H.mem = some (ret, mem) →
      MountStep H (some c) ⟨mem, H.log ++ [(c, ret)]⟩
  /-- In between, files are opened and closed. -/
  | files {H : MountSystem} (files : ℤ → OpenfileEntry) :
      MountStep H none ⟨{ H.mem with tables := { H.mem.tables with files := files } }, H.log⟩

/-- The state after `vfs_init`. It does not clear the names. -/
structure MountInit (H : MountSystem) : Prop where
  ops : H.mem.ops = ⟨0, true⟩
  sem : H.mem.sem = fun _ => 1
  filesystems : ∀ row < configMaxFilesystems, (H.mem.tables.filesystems row).filesystem = none
  log : H.log = []

abbrev MountReachable : MountSystem → Prop := Reach MountInit MountStep

/-- What one call makes of the filesystem that is mounted under a name. -/
def mountEffect (name : List UInt8) (mounted : Option ℕ) : MountCall × ℤ → Option ℕ
  | (.mount fs name', ret) => if ret = vfsOk ∧ name' = name then fs else mounted
  | (.unmount name', ret) => if ret = vfsOk ∧ name' = name then none else mounted

/-- The filesystem of the last successful mount of a name, if no successful unmount followed it. -/
def mountedAs (log : List (MountCall × ℤ)) (name : List UInt8) : Option ℕ :=
  log.foldl (mountEffect name) none

theorem mountedAs_concat (log : List (MountCall × ℤ)) (e : MountCall × ℤ) (name : List UInt8) :
    mountedAs (log ++ [e]) name = mountEffect name (mountedAs log name) e := by
  unfold mountedAs
  rw [List.foldl_append, List.foldl_cons, List.foldl_nil]

/-! ## The table -/

/-- A row with a filesystem is the only one with its name. -/
def VfsTables.UniqueNames (t : VfsTables) : Prop :=
  ∀ row < configMaxFilesystems, (t.filesystems row).filesystem ≠ none →
    ∀ row' < configMaxFilesystems, (t.filesystems row').mountpoint = (t.filesystems row).mountpoint →
      row' = row

section

variable {t : VfsTables} {name : List UInt8}

/-- A lookup finds the row with the name, if it is mounted. -/
theorem VfsTables.UniqueNames.lookup (h : t.UniqueNames) {fs : ℕ} :
    vfsGetFilesystem t name = some fs ↔ ∃ row < configMaxFilesystems,
      (t.filesystems row).mountpoint = name ∧ (t.filesystems row).filesystem = some fs := by
  unfold vfsGetFilesystem
  cases hrow : t.findRow (·.mountpoint = name) with
  | none =>
      rw [findRow_eq_none] at hrow
      refine iff_of_false (by simp) ?_
      rintro ⟨row, hlt, hname, -⟩
      simpa [hname] using hrow row hlt
  | some row =>
      obtain ⟨hlt, hname, -⟩ := findRow_eq_some hrow
      have hname : (t.filesystems row).mountpoint = name := by simpa using hname
      constructor
      · intro hfs
        exact ⟨row, hlt, hname, hfs⟩
      · rintro ⟨row', hlt', hname', hfs⟩
        have heq := h row' hlt' (by rw [hfs]; simp) row hlt (hname.trans hname'.symm)
        rw [heq]
        exact hfs

end

/-! ## Outcomes -/

/-- The globals when nobody is in the module. -/
def idleMemory (t : VfsTables) : VfsMemory := ⟨⟨0, true⟩, t, fun _ => 1⟩

/-- The globals between `vfs_start_op` and `vfs_end_op`, with the values of the two semaphores. -/
def busyMemory (t : VfsTables) (table openfile : ℕ) : VfsMemory :=
  ⟨⟨1, true⟩, t, fun sem => match sem with | .table => table | .openfile => openfile⟩

section

variable {t : VfsTables} {name : List UInt8} (drivers : FsCall → ℤ)

theorem busyMemory_update_table (t : VfsTables) (a b c : ℕ) :
    Function.update (busyMemory t a b).sem .table c = (busyMemory t c b).sem := by
  funext sem
  cases sem <;> rfl

theorem busyMemory_update_openfile (t : VfsTables) (a b c : ℕ) :
    Function.update (busyMemory t a b).sem .openfile c = (busyMemory t a c).sem := by
  funext sem
  cases sem <;> rfl

@[simp]
theorem runAlone_vfsStartOp :
    vfsStartOp.runAlone drivers (idleMemory t) = some (vfsOk, busyMemory t 1 1) := by
  have hsem : (fun _ => 1) = (busyMemory t 1 1).sem := by
    funext sem
    cases sem <;> rfl
  show some (vfsOk, (⟨⟨1, true⟩, t, fun _ => 1⟩ : VfsMemory)) = _
  rw [hsem]
  rfl

@[simp]
theorem runAlone_vfsEndOp :
    vfsEndOp.runAlone drivers (busyMemory t 1 1) = some ((), idleMemory t) := by
  have hsem : (busyMemory t 1 1).sem = fun _ => 1 := by
    funext sem
    cases sem <;> rfl
  show some ((), (⟨⟨0, true⟩, t, (busyMemory t 1 1).sem⟩ : VfsMemory)) = _
  rw [hsem]
  rfl

@[simp]
theorem runAlone_semP_table (b : ℕ) :
    (semP .table).runAlone drivers (busyMemory t 1 b) = some ((), busyMemory t 0 b) := by
  show some ((), (⟨⟨1, true⟩, t, Function.update (busyMemory t 1 b).sem .table 0⟩ : VfsMemory)) = _
  rw [busyMemory_update_table]
  rfl

@[simp]
theorem runAlone_semV_table (b : ℕ) :
    (semV .table).runAlone drivers (busyMemory t 0 b) = some ((), busyMemory t 1 b) := by
  show some ((), (⟨⟨1, true⟩, t, Function.update (busyMemory t 0 b).sem .table 1⟩ : VfsMemory)) = _
  rw [busyMemory_update_table]
  rfl

@[simp]
theorem runAlone_semP_openfile (a : ℕ) :
    (semP .openfile).runAlone drivers (busyMemory t a 1) = some ((), busyMemory t a 0) := by
  show some ((), (⟨⟨1, true⟩, t, Function.update (busyMemory t a 1).sem .openfile 0⟩ : VfsMemory)) = _
  rw [busyMemory_update_openfile]
  rfl

@[simp]
theorem runAlone_semV_openfile (a : ℕ) :
    (semV .openfile).runAlone drivers (busyMemory t a 0) = some ((), busyMemory t a 1) := by
  show some ((), (⟨⟨1, true⟩, t, Function.update (busyMemory t a 0).sem .openfile 1⟩ : VfsMemory)) = _
  rw [busyMemory_update_openfile]
  rfl

@[simp]
theorem runAlone_loadTables (a b : ℕ) :
    loadTables.runAlone drivers (busyMemory t a b) = some (t, busyMemory t a b) := rfl

@[simp]
theorem runAlone_storeTables (a b : ℕ) (f : VfsTables → VfsTables) :
    (storeTables f).runAlone drivers (busyMemory t a b) = some ((), busyMemory (f t) a b) := rfl

theorem vfsAssert_mountName (hname : IsMountName name) :
    vfsAssert ((some name : Option (List UInt8)) ≠ none ∧ ((some name).getD []).headD 0 ≠ 0)
      = pure () := by
  refine if_pos ⟨by simp, ?_⟩
  cases name with
  | nil => exact absurd hname.1 (by decide)
  | cons c cs => exact hname.2.2 c List.mem_cons_self

theorem vfsMount_ok (fs : Option ℕ) (hname : IsMountName name) {row : ℕ}
    (hfree : t.findRow (·.filesystem = none) = some row)
    (hnew : t.findRow (·.mountpoint = name) = none) :
    (vfsMount fs (some name)).runAlone drivers (idleMemory t)
      = some (vfsOk, idleMemory (t.setFilesystem row ⟨fs, name⟩)) := by
  have htake : name.take (vfsNameLength - 1) = name :=
    List.take_of_length_le (Nat.le_sub_one_of_lt hname.2.1)
  unfold vfsMount
  rw [vfsAssert_mountName hname]
  simp [hfree, hnew, htake]

/-- The three ways through `vfs_mount`. -/
theorem vfsMount_outcome (fs : Option ℕ) (hname : IsMountName name) :
    ((vfsMount fs (some name)).runAlone drivers (idleMemory t) = some (vfsLimit, idleMemory t)) ∨
    ((vfsMount fs (some name)).runAlone drivers (idleMemory t) = some (vfsError, idleMemory t)) ∨
    ∃ row, t.findRow (·.filesystem = none) = some row ∧ t.findRow (·.mountpoint = name) = none ∧
      (vfsMount fs (some name)).runAlone drivers (idleMemory t)
        = some (vfsOk, idleMemory (t.setFilesystem row ⟨fs, name⟩)) := by
  cases hfree : t.findRow (·.filesystem = none) with
  | none =>
      refine .inl ?_
      unfold vfsMount
      rw [vfsAssert_mountName hname]
      simp [hfree]
  | some row =>
      cases hnew : t.findRow (·.mountpoint = name) with
      | some row' =>
          refine .inr (.inl ?_)
          unfold vfsMount
          rw [vfsAssert_mountName hname]
          simp [hfree, hnew]
      | none => exact .inr (.inr ⟨row, rfl, rfl, vfsMount_ok drivers fs hname hfree hnew⟩)

theorem vfsUnmount_ok {row fs : ℕ} (hrow : t.findRow (·.mountpoint = name) = some row)
    (hfs : (t.filesystems row).filesystem = some fs)
    (huse : t.findFile (·.filesystem = some fs) = none) :
    (vfsUnmount name).runAlone drivers (idleMemory t) = some (vfsOk,
      idleMemory (t.setFilesystem row { t.filesystems row with filesystem := none })) := by
  have hlt := (VfsTables.findRow_eq_some hrow).1
  unfold vfsUnmount
  simp [hrow, hlt, hfs, huse, fsCall, VfsProc.runAlone]

/-- The three ways through `vfs_unmount`. -/
theorem vfsUnmount_outcome (t : VfsTables) (name : List UInt8) :
    ((vfsUnmount name).runAlone drivers (idleMemory t) = some (vfsNotFound, idleMemory t) ∧
      vfsGetFilesystem t name = none) ∨
    ((vfsUnmount name).runAlone drivers (idleMemory t) = some (vfsInUse, idleMemory t) ∧
      vfsGetFilesystem t name ≠ none) ∨
    ∃ row, t.findRow (·.mountpoint = name) = some row ∧ (t.filesystems row).filesystem ≠ none ∧
      vfsGetFilesystem t name ≠ none ∧
      (vfsUnmount name).runAlone drivers (idleMemory t) = some (vfsOk,
        idleMemory (t.setFilesystem row { t.filesystems row with filesystem := none })) := by
  unfold vfsGetFilesystem
  cases hrow : t.findRow (·.mountpoint = name) with
  | none =>
      refine .inl ⟨?_, rfl⟩
      unfold vfsUnmount
      simp [hrow]
  | some row =>
      have hlt := (VfsTables.findRow_eq_some hrow).1
      cases hfs : (t.filesystems row).filesystem with
      | none =>
          refine .inl ⟨?_, hfs⟩
          unfold vfsUnmount
          simp [hrow, hlt, hfs]
      | some fs =>
          cases huse : t.findFile (·.filesystem = some fs) with
          | some file =>
              refine .inr (.inl ⟨?_, by simp [hfs]⟩)
              unfold vfsUnmount
              simp [hrow, hlt, hfs, huse]
          | none =>
              exact .inr (.inr ⟨row, rfl, by simp [hfs], by simp [hfs],
                vfsUnmount_ok drivers hrow hfs huse⟩)

end

/-! ## The invariant -/

/-- Nobody is in the module between two calls, and the table agrees with the calls so far. -/
structure MountInvariant (H : MountSystem) : Prop where
  idle : H.mem = idleMemory H.mem.tables
  unique : H.mem.tables.UniqueNames
  lookup : ∀ name, vfsGetFilesystem H.mem.tables name = mountedAs H.log name

section

variable {t : VfsTables} {name : List UInt8} {row : ℕ}

/-- A filesystem in a free row, under a name that no row has. -/
theorem VfsTables.UniqueNames.mount (h : t.UniqueNames) (hfree : t.findRow (·.filesystem = none) = some row)
    (hnew : t.findRow (·.mountpoint = name) = none) (fs : Option ℕ) :
    (t.setFilesystem row ⟨fs, name⟩).UniqueNames ∧
      ∀ n, vfsGetFilesystem (t.setFilesystem row ⟨fs, name⟩) n
        = if n = name then fs else vfsGetFilesystem t n := by
  obtain ⟨hlt, hnone, -⟩ := findRow_eq_some hfree
  have hnone : (t.filesystems row).filesystem = none := by simpa using hnone
  have hnew : ∀ row' < configMaxFilesystems, (t.filesystems row').mountpoint ≠ name := by
    intro row' hlt'
    simpa using findRow_eq_none.1 hnew row' hlt'
  have hself : (t.setFilesystem row ⟨fs, name⟩).filesystems row = ⟨fs, name⟩ := Function.update_self ..
  have hother : ∀ r, r ≠ row → (t.setFilesystem row ⟨fs, name⟩).filesystems r = t.filesystems r :=
    fun r hr => Function.update_of_ne hr ..
  have hunique : (t.setFilesystem row ⟨fs, name⟩).UniqueNames := by
    intro r hr hmounted r' hr' hsame
    by_cases heq : r = row
    · by_contra hne
      have hne' : r' ≠ row := fun he => hne (he.trans heq.symm)
      rw [hother r' hne', heq, hself] at hsame
      exact hnew r' hr' hsame
    · rw [hother r heq] at hmounted hsame
      by_cases heq' : r' = row
      · rw [heq', hself] at hsame
        exact absurd hsame.symm (hnew r hr)
      · rw [hother r' heq'] at hsame
        exact h r hr hmounted r' hr' hsame
  refine ⟨hunique, ?_⟩
  intro n
  -- both sides are compared by the filesystems they give
  refine Option.ext ?_
  intro x
  rw [hunique.lookup]
  by_cases hn : n = name
  · rw [if_pos hn]
    constructor
    · rintro ⟨r, hr, hname, hfs⟩
      by_cases heq : r = row
      · rw [heq, hself] at hfs
        exact hfs
      · rw [hother r heq] at hname
        exact absurd (hname.trans hn) (hnew r hr)
    · intro hfs
      exact ⟨row, hlt, by rw [hself, hn], by rw [hself]; exact hfs⟩
  · rw [if_neg hn, h.lookup]
    constructor
    · rintro ⟨r, hr, hname, hfs⟩
      have heq : r ≠ row := by
        rintro rfl
        rw [hself] at hname
        exact hn hname.symm
      rw [hother r heq] at hname hfs
      exact ⟨r, hr, hname, hfs⟩
    · rintro ⟨r, hr, hname, hfs⟩
      have heq : r ≠ row := by
        rintro rfl
        rw [hnone] at hfs
        cases hfs
      exact ⟨r, hr, by rw [hother r heq]; exact hname, by rw [hother r heq]; exact hfs⟩

/-- A filesystem is taken out of its row; the name stays. -/
theorem VfsTables.UniqueNames.unmount (h : t.UniqueNames)
    (hrow : t.findRow (·.mountpoint = name) = some row) (hfs : (t.filesystems row).filesystem ≠ none) :
    (t.setFilesystem row { t.filesystems row with filesystem := none }).UniqueNames ∧
      ∀ n, vfsGetFilesystem (t.setFilesystem row { t.filesystems row with filesystem := none }) n
        = if n = name then none else vfsGetFilesystem t n := by
  obtain ⟨hlt, hname, -⟩ := findRow_eq_some hrow
  have hname : (t.filesystems row).mountpoint = name := by simpa using hname
  set t' := t.setFilesystem row { t.filesystems row with filesystem := none } with ht'
  have hself : t'.filesystems row = { t.filesystems row with filesystem := none } :=
    Function.update_self ..
  have hother : ∀ r, r ≠ row → t'.filesystems r = t.filesystems r :=
    fun r hr => Function.update_of_ne hr ..
  have hnames : ∀ r, (t'.filesystems r).mountpoint = (t.filesystems r).mountpoint := by
    intro r
    by_cases heq : r = row
    · rw [heq, hself]
    · rw [hother r heq]
  have hmounted : ∀ r x, (t'.filesystems r).filesystem = some x ↔
      r ≠ row ∧ (t.filesystems r).filesystem = some x := by
    intro r x
    by_cases heq : r = row
    · rw [heq, hself]
      simp
    · rw [hother r heq]
      simp [heq]
  have hunique : t'.UniqueNames := by
    intro r hr hused r' hr' hsame
    obtain ⟨x, hx⟩ := Option.ne_none_iff_exists'.1 hused
    rw [hnames, hnames] at hsame
    exact h r hr (by rw [((hmounted r x).1 hx).2]; simp) r' hr' hsame
  refine ⟨hunique, ?_⟩
  intro n
  refine Option.ext ?_
  intro x
  rw [hunique.lookup]
  by_cases hn : n = name
  · rw [if_pos hn]
    refine iff_of_false ?_ (by simp)
    rintro ⟨r, hr, hrn, hx⟩
    obtain ⟨hne, -⟩ := (hmounted r x).1 hx
    rw [hnames] at hrn
    exact hne (h row hlt hfs r hr (hrn.trans (hn.trans hname.symm)))
  · rw [if_neg hn, h.lookup]
    constructor
    · rintro ⟨r, hr, hrn, hx⟩
      rw [hnames] at hrn
      exact ⟨r, hr, hrn, ((hmounted r x).1 hx).2⟩
    · rintro ⟨r, hr, hrn, hx⟩
      refine ⟨r, hr, by rw [hnames]; exact hrn, (hmounted r x).2 ⟨?_, hx⟩⟩
      rintro rfl
      exact hn (hrn.symm.trans hname)

theorem mountInit_invariant {H : MountSystem} (h : MountInit H) : MountInvariant H := by
  have hmem : H.mem = idleMemory H.mem.tables := by
    obtain ⟨⟨ops, t, sem⟩, log⟩ := H
    obtain ⟨rfl, rfl, -, -⟩ := h
    rfl
  have hunique : H.mem.tables.UniqueNames :=
    fun row hlt hmounted => absurd (h.filesystems row hlt) hmounted
  refine ⟨hmem, hunique, ?_⟩
  intro name
  rw [h.log]
  refine Option.ext ?_
  intro fs
  rw [hunique.lookup]
  refine iff_of_false ?_ (by simp [mountedAs])
  rintro ⟨row, hlt, -, hfs⟩
  rw [h.filesystems row hlt] at hfs
  cases hfs

/-- What a call does to the table is what its result says. -/
theorem MountInvariant.call {H : MountSystem} (h : MountInvariant H) {c : MountCall}
    (hname : IsMountName c.name) (drivers : FsCall → ℤ) :
    ∃ ret mem, c.body.runAlone drivers H.mem = some (ret, mem) ∧
      MountInvariant ⟨mem, H.log ++ [(c, ret)]⟩ := by
  obtain ⟨⟨ops, t, sem⟩, log⟩ := H
  have hidle : (⟨ops, t, sem⟩ : VfsMemory) = idleMemory t := h.idle
  have hunique : t.UniqueNames := h.unique
  -- a call that changes nothing and does not report success
  have hsame : ∀ ret, ret ≠ vfsOk → MountInvariant ⟨idleMemory t, log ++ [(c, ret)]⟩ := by
    intro ret hret
    refine ⟨rfl, h.unique, ?_⟩
    intro n
    rw [mountedAs_concat]
    have heffect : mountEffect n (mountedAs log n) (c, ret) = mountedAs log n := by
      cases c with
      | mount fs name => exact if_neg fun hc => hret hc.1
      | unmount name => exact if_neg fun hc => hret hc.1
    rw [heffect]
    exact h.lookup n
  show ∃ ret mem, c.body.runAlone drivers ⟨ops, t, sem⟩ = some (ret, mem) ∧ _
  rw [hidle]
  cases c with
  | mount fs name =>
      have hname : IsMountName name := hname
      rcases vfsMount_outcome (t := t) drivers fs hname with hrun | hrun | ⟨row, hfree, hnew, hrun⟩
      · exact ⟨_, _, hrun, hsame _ (by decide)⟩
      · exact ⟨_, _, hrun, hsame _ (by decide)⟩
      · obtain ⟨hunique', hlookup⟩ := hunique.mount hfree hnew fs
        refine ⟨_, _, hrun, rfl, hunique', ?_⟩
        intro n
        rw [mountedAs_concat]
        refine (hlookup n).trans ?_
        show _ = if vfsOk = vfsOk ∧ name = n then fs else mountedAs log n
        by_cases hn : n = name
        · rw [if_pos hn, if_pos ⟨rfl, hn.symm⟩]
        · rw [if_neg hn, if_neg (fun hc => hn hc.2.symm)]
          exact h.lookup n
  | unmount name =>
      rcases vfsUnmount_outcome drivers t name with
        ⟨hrun, -⟩ | ⟨hrun, -⟩ | ⟨row, hrow, hfs, -, hrun⟩
      · exact ⟨_, _, hrun, hsame _ (by decide)⟩
      · exact ⟨_, _, hrun, hsame _ (by decide)⟩
      · obtain ⟨hunique', hlookup⟩ := hunique.unmount hrow hfs
        refine ⟨_, _, hrun, rfl, hunique', ?_⟩
        intro n
        rw [mountedAs_concat]
        refine (hlookup n).trans ?_
        show _ = if vfsOk = vfsOk ∧ name = n then none else mountedAs log n
        by_cases hn : n = name
        · rw [if_pos hn, if_pos ⟨rfl, hn.symm⟩]
        · rw [if_neg hn, if_neg (fun hc => hn hc.2.symm)]
          exact h.lookup n

theorem MountInvariant.step {H H' : MountSystem} {label : Option MountCall} (h : MountInvariant H)
    (hstep : MountStep H label H') : MountInvariant H' := by
  cases hstep with
  | call hname hrun =>
      obtain ⟨ret, mem, hrun', hinv'⟩ := h.call hname _
      cases hrun.symm.trans hrun'
      exact hinv'
  | files files =>
      refine ⟨?_, h.unique, h.lookup⟩
      rw [h.idle]
      rfl

theorem MountReachable.invariant {H : MountSystem} (h : MountReachable H) : MountInvariant H :=
  Reach.invariant (I := MountInvariant) (fun _ hinit => mountInit_invariant hinit)
    (fun _ _ _ hinv hstep => hinv.step hstep) h

end

/-- In every state that calls of `vfs_mount` and `vfs_unmount` lead to, no two mounted rows have the
    same name, a lookup gives the filesystem that was mounted last under the name and not unmounted
    since, and it gives the filesystem of every mounted row for the name of that row. `vfs_unmount`
    reports `VFS_NOT_FOUND` for the names under which nothing is mounted. -/
theorem mountReachable_law (H : MountSystem) (h : MountReachable H) :
    (∀ row row', row < configMaxFilesystems → row' < configMaxFilesystems →
      (H.mem.tables.filesystems row).filesystem ≠ none →
      (H.mem.tables.filesystems row').filesystem ≠ none →
      (H.mem.tables.filesystems row).mountpoint = (H.mem.tables.filesystems row').mountpoint →
      row = row') ∧
    (∀ name, vfsGetFilesystem H.mem.tables name = mountedAs H.log name) ∧
    (∀ row < configMaxFilesystems, ∀ fs, (H.mem.tables.filesystems row).filesystem = some fs →
      vfsGetFilesystem H.mem.tables (H.mem.tables.filesystems row).mountpoint = some fs) ∧
    ∀ name, IsMountName name → ∀ drivers, ∃ ret mem,
      (vfsUnmount name).runAlone drivers H.mem = some (ret, mem) ∧
        (ret = vfsNotFound ↔ mountedAs H.log name = none) := by
  have hinv := h.invariant
  refine ⟨?_, hinv.lookup, ?_, ?_⟩
  · intro row row' hlt hlt' _ hmounted' hsame
    exact hinv.unique row' hlt' hmounted' row hlt hsame
  · intro row hlt fs hfs
    exact hinv.unique.lookup.2 ⟨row, hlt, rfl, hfs⟩
  · intro name _ drivers
    rw [← hinv.lookup name, hinv.idle]
    rcases vfsUnmount_outcome drivers H.mem.tables name with
      ⟨hrun, hnone⟩ | ⟨hrun, hsome⟩ | ⟨row, -, -, hsome, hrun⟩
    · exact ⟨_, _, hrun, iff_of_true rfl hnone⟩
    · exact ⟨_, _, hrun, iff_of_false (by decide) hsome⟩
    · exact ⟨_, _, hrun, iff_of_false (by decide) hsome⟩

/-! ## Two volumes -/

/-- The mount table after `vfs_init`. -/
def bootTables : VfsTables := ⟨fun _ => ⟨none, []⟩, fun _ => ⟨none, 0, 0⟩⟩

/-- A filesystem is mounted under the name `a`. -/
def mountedSystem : MountSystem where
  mem := idleMemory (bootTables.setFilesystem 0 ⟨some 1, [0x61]⟩)
  log := [(.mount (some 1) [0x61], vfsOk)]

theorem mountReachable_boot : MountReachable ⟨idleMemory bootTables, []⟩ :=
  .init ⟨rfl, rfl, fun _ _ => rfl, rfl⟩

theorem isMountName_a : IsMountName [0x61] := ⟨by decide, by decide, by simp⟩

theorem isMountName_b : IsMountName [0x62] := ⟨by decide, by decide, by simp⟩

theorem mountReachable_mounted : MountReachable mountedSystem := by
  have hrun : (vfsMount (some 1) (some [0x61])).runAlone (fun _ => 0) (idleMemory bootTables)
      = some (vfsOk, mountedSystem.mem) :=
    vfsMount_ok _ (some 1) isMountName_a rfl rfl
  exact mountReachable_boot.step _ (.call (c := .mount (some 1) [0x61]) isMountName_a hrun)

/-- Two volumes `a` and `b`, of which the first was unmounted. -/
def gapSystem : MountSystem where
  mem := idleMemory (((bootTables.setFilesystem 0 ⟨some 1, [0x61]⟩).setFilesystem 1
    ⟨some 2, [0x62]⟩).setFilesystem 0 ⟨none, [0x61]⟩)
  log := [(.mount (some 1) [0x61], vfsOk), (.mount (some 2) [0x62], vfsOk), (.unmount [0x61], vfsOk)]

theorem mountReachable_gap : MountReachable gapSystem := by
  have hmount : (vfsMount (some 2) (some [0x62])).runAlone (fun _ => 0) mountedSystem.mem
      = some (vfsOk, idleMemory (mountedSystem.mem.tables.setFilesystem 1 ⟨some 2, [0x62]⟩)) :=
    vfsMount_ok _ (some 2) isMountName_b rfl rfl
  have hboth := mountReachable_mounted.step _ (.call (c := .mount (some 2) [0x62]) isMountName_b hmount)
  have hunmount : (vfsUnmount [0x61]).runAlone (fun _ => 0)
      (idleMemory (mountedSystem.mem.tables.setFilesystem 1 ⟨some 2, [0x62]⟩))
      = some (vfsOk, gapSystem.mem) :=
    vfsUnmount_ok _ rfl rfl (by decide +kernel)
  exact hboth.step _ (.call (c := .unmount [0x61]) isMountName_a hunmount)

/-- The volume `b` is found, and `a` cannot be unmounted again. -/
theorem mountReachable_law_gap :
    vfsGetFilesystem gapSystem.mem.tables [0x61] = none ∧
    vfsGetFilesystem gapSystem.mem.tables [0x62] = some 2 ∧
    ∃ mem, (vfsUnmount [0x61]).runAlone (fun _ => 0) gapSystem.mem = some (vfsNotFound, mem) := by
  obtain ⟨-, hlookup, -, hunmount⟩ := mountReachable_law _ mountReachable_gap
  obtain ⟨ret, mem, hrun, hret⟩ := hunmount [0x61] isMountName_a fun _ => 0
  refine ⟨(hlookup [0x61]).trans (by decide), (hlookup [0x62]).trans (by decide), mem, ?_⟩
  rw [hrun, hret.2 (by decide)]

end Kudos
