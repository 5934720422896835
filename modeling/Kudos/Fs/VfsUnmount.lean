import Kudos.Fs.VfsControl

set_option autoImplicit false

/-! # Driver calls and unmounting

`vfs_unmount` calls the driver's `unmount` when no row of the open file table has the filesystem, with
both tables locked. A row in use thus keeps a filesystem from being unmounted. But `vfs_read` and
`vfs_write` look at their row without a lock and then call the driver, and `vfs_open` calls it when it
has reserved its row and given the locks back: another thread may clear the row in between, and then
nothing keeps the filesystem from being unmounted during the call. If no row is cleared while such a
call of another thread relies on it, no driver function is called on a filesystem that has been
unmounted (`unmountReachable_safe`). -/

namespace Kudos

open Transition Mutex

variable {ι : Type} [DecidableEq ι]

/-! ## Runs -/

/-- The VFS with the rows that are being opened, and the filesystems whose `unmount` has returned. -/
structure UnmountSystem (ι : Type) where
  sys : VfsSystem ι
  opening : ℤ → Option ι
  unmounted : ℕ → Prop

/-- The filesystem on which a file is opened, closed, read or written. -/
def FsCall.user : FsCall → Option ℕ
  | .open fs _ | .close fs _ | .read fs _ _ _ | .write fs _ _ _ => some fs
  | _ => none

/-- The filesystem that is unmounted in the step. -/
def VfsProc.unmounting : VfsProc ℤ → Option ℕ
  | driver (.unmount fs) _ => some fs
  | _ => none

/-- The call reads or writes through the handle. -/
def VfsCall.Transfers (c : VfsCall) (file : ℤ) : Prop :=
  ∃ buffer size, c = .read file buffer size ∨ c = .write file buffer size

/-- The process is between `vfs_verify_open` and the end of the driver call of a read or write. -/
def VfsProc.looking : VfsProc ℤ → Bool
  | load _ | driver _ _ => true
  | _ => false

/-- The process is between the reservation of a row and the answer of the driver to an open. -/
def VfsProc.reserving : VfsProc ℤ → Bool
  | semaphoreV _ _ | driver _ _ => true
  | _ => false

namespace UnmountSystem

/-- A read or write of the thread has found its handle open and its driver has not returned, or its
`vfs_open` has reserved the row and the driver has not answered. -/
def Using (S : UnmountSystem ι) (j : ι) (file : ℤ) : Prop :=
  ∃ th ∈ S.sys.threads j, (th.call.Transfers file ∧ th.proc.looking = true) ∨
    (S.opening file = some j ∧ th.proc.reserving = true)

/-- The record after a step of the call of a thread. -/
def after (S : UnmountSystem ι) (i : ι) (th th' : VfsThread) (sys : VfsSystem ι) :
    UnmountSystem ι where
  sys := sys
  opening := openingAfter S.opening S.sys.tables i th' sys.tables
  unmounted fs := S.unmounted fs ∨ th.proc.unmounting = some fs

/-- The next state, if the step is possible. -/
def exec (S : UnmountSystem ι) : VfsLabel ι → Option (UnmountSystem ι)
  | .call i c => (S.sys.exec (.call i c)).map fun sys => { S with sys }
  | .run i r =>
      match S.sys.threads i with
      | some th => (th.step S.sys r).map fun p => S.after i th p.1 (p.2.setThread i p.1)
      | none => none
  | .deinit => none

/-- Threads open files, read, write and close through handles that are open, and unmount. -/
def Allowed (S : UnmountSystem ι) : VfsLabel ι → Prop
  | .call _ c => (∃ pathname, c = .open pathname) ∨ (∃ name, c = .unmount name) ∨
      ∃ file, S.sys.tables.IsOpen file ∧ (c = .close file ∨ c.Transfers file)
  | .run _ _ => True
  | .deinit => False

/-- If the step clears a row, no call of another thread relies on it. -/
def Unshared (S : UnmountSystem ι) : VfsLabel ι → Prop
  | .run i r => ∀ S', S.exec (.run i r) = some S' → ∀ file,
      (S.sys.tables.files file).filesystem ≠ none →
      (S'.sys.tables.files file).filesystem = none → ∀ j ≠ i, ¬ S.Using j file
  | .call _ _ | .deinit => True

end UnmountSystem

/-- No file is open and no call is going on; each filesystem is mounted at most once, and none has been
unmounted. -/
structure UnmountInit (S : UnmountSystem ι) : Prop where
  files : ∀ file, InTable file → (S.sys.tables.files file).filesystem = none
  once : ∀ row < configMaxFilesystems, ∀ row' < configMaxFilesystems, ∀ fs,
    (S.sys.tables.filesystems row).filesystem = some fs →
    (S.sys.tables.filesystems row').filesystem = some fs → row = row'
  sem : ∀ sem, S.sys.sem sem = 1
  threads : ∀ i, S.sys.threads i = none
  unmounted : ∀ fs, ¬ S.unmounted fs

/-! ## What a call knows -/

/-- The row on whose filesystem a call relies. -/
def VfsPc.watched : VfsPc → Option ℤ
  | openUnlockFiles file _ _ | openUnlockTable file _ _ | openDriver file _ _ | closeLoad file
  | closeDriver file _ _ | transferFs _ file _ _ | transferFileid _ file _ _
  | transferDriver _ file _ _ _ _ => some file
  | _ => none

/-- The row and the filesystem that are being unmounted. -/
def VfsPc.unmounts : VfsPc → Option (ℕ × ℕ)
  | unmountFiles row fs | unmountScan row fs | unmountDriver row fs | unmountClear row fs =>
      some (row, fs)
  | _ => none

namespace UnmountSystem

/-- A filesystem is mounted in the row. -/
def MountedAt (S : UnmountSystem ι) (row fs : ℕ) : Prop :=
  row < configMaxFilesystems ∧ (S.sys.tables.filesystems row).filesystem = some fs

/-- No open file is on the filesystem. -/
def Unused (S : UnmountSystem ι) (fs : ℕ) : Prop :=
  ∀ file, InTable file → (S.sys.tables.files file).filesystem ≠ some fs

/-- What is known at a control point of the call `c`. -/
def At (S : UnmountSystem ι) (i : ι) (c : VfsCall) : VfsPc → Prop
  | .openReserve file fs _ => InTable file ∧ (S.sys.tables.files file).filesystem = none ∧
      ∃ row, S.MountedAt row fs
  | .openUnlockFiles file fs _ | .openUnlockTable file fs _ | .openDriver file fs _ =>
      InTable file ∧ (S.sys.tables.files file).filesystem = some fs ∧ S.opening file = some i
  | .closeStart file | .closeLock file | .closeVerify file | .closeLoad file => InTable file
  | .closeDriver file fs _ => InTable file ∧ (S.sys.tables.files file).filesystem = some fs
  | .transferStart _ file _ _ | .transferVerify _ file _ _ => InTable file ∧ c.Transfers file
  | .transferFs _ file _ _ => InTable file ∧ c.Transfers file ∧
      (S.sys.tables.files file).filesystem ≠ none
  | .transferFileid _ file fs _ => InTable file ∧ c.Transfers file ∧
      (S.sys.tables.files file).filesystem ≠ none ∧ (S.sys.tables.files file).filesystem = fs
  | .transferDriver _ file fs _ _ _ => InTable file ∧ c.Transfers file ∧
      (S.sys.tables.files file).filesystem = some fs
  | .unmountFiles row fs | .unmountScan row fs => S.MountedAt row fs
  | .unmountDriver row fs => S.MountedAt row fs ∧ S.Unused fs
  | .unmountClear row fs => S.MountedAt row fs ∧ S.Unused fs ∧ S.unmounted fs
  | _ => True

variable {S S' : UnmountSystem ι} {j : ι} {c : VfsCall} {pc : VfsPc}

omit [DecidableEq ι] in
/-- What is known stays known if others leave alone what it is about. -/
theorem At.frame (h : S.At j c pc)
    (hwatch : ∀ file, pc.watched = some file →
      (S'.sys.tables.files file).filesystem = (S.sys.tables.files file).filesystem ∧
      ((S.sys.tables.files file).filesystem ≠ none →
        S.opening file = some j → S'.opening file = some j))
    (hreserve : ∀ file fs filename, pc = .openReserve file fs filename →
      ((S.sys.tables.files file).filesystem = none →
        (S'.sys.tables.files file).filesystem = none) ∧
      ∀ row, S.MountedAt row fs → S'.MountedAt row fs)
    (hunmounts : ∀ row fs, pc.unmounts = some (row, fs) →
      (S.MountedAt row fs → S'.MountedAt row fs) ∧ (S.Unused fs → S'.Unused fs))
    (hgone : ∀ fs, S.unmounted fs → S'.unmounted fs) : S'.At j c pc := by
  cases pc with
  | openReserve file fs filename =>
      obtain ⟨hin, hnone, row, hrow⟩ := h
      obtain ⟨hfree, hmount⟩ := hreserve file fs filename rfl
      exact ⟨hin, hfree hnone, row, hmount row hrow⟩
  | openUnlockFiles file fs _ | openUnlockTable file fs _ | openDriver file fs _ =>
      obtain ⟨hin, hfs, hopening⟩ := h
      obtain ⟨hsame, hkeep⟩ := hwatch file rfl
      exact ⟨hin, hsame.trans hfs, hkeep (by rw [hfs]; exact Option.some_ne_none fs) hopening⟩
  | closeDriver file fs _ =>
      obtain ⟨hin, hfs⟩ := h
      exact ⟨hin, (hwatch file rfl).1.trans hfs⟩
  | transferFs _ file _ _ =>
      obtain ⟨hin, hc, hne⟩ := h
      refine ⟨hin, hc, ?_⟩
      rw [(hwatch file rfl).1]
      exact hne
  | transferFileid _ file fs _ =>
      obtain ⟨hin, hc, hne, hfs⟩ := h
      refine ⟨hin, hc, ?_, (hwatch file rfl).1.trans hfs⟩
      rw [(hwatch file rfl).1]
      exact hne
  | transferDriver _ file fs _ _ _ =>
      obtain ⟨hin, hc, hfs⟩ := h
      exact ⟨hin, hc, (hwatch file rfl).1.trans hfs⟩
  | unmountFiles row fs | unmountScan row fs => exact (hunmounts row fs rfl).1 h
  | unmountDriver row fs =>
      obtain ⟨hmount, hunused⟩ := hunmounts row fs rfl
      exact ⟨hmount h.1, hunused h.2⟩
  | unmountClear row fs =>
      obtain ⟨hmount, hunused⟩ := hunmounts row fs rfl
      exact ⟨hmount h.1, hunused h.2.1, hgone fs h.2.2⟩
  | _ => exact h

end UnmountSystem

/-! ## The invariant -/

structure UnmountInv (S : UnmountSystem ι) (pcs : ι → VfsPc) : Prop where
  follows : Follows S.sys pcs
  point : ∀ i, ∀ th ∈ S.sys.threads i, S.At i th.call (pcs i)
  /-- The filesystem of an open file has not been unmounted. -/
  rows : ∀ file fs, InTable file → (S.sys.tables.files file).filesystem = some fs → ¬ S.unmounted fs
  /-- A mounted filesystem has not been unmounted, unless its row is about to be cleared. -/
  mounts : ∀ row fs, S.MountedAt row fs → S.unmounted fs → ∃ i, pcs i = .unmountClear row fs
  once : ∀ row row' fs, S.MountedAt row fs → S.MountedAt row' fs → row = row'

omit [DecidableEq ι] in
theorem unmountInit_inv {S : UnmountSystem ι} (h : UnmountInit S) :
    UnmountInv S fun _ => .returned 0 where
  follows :=
    { thread := fun i th hth => by
        rw [h.threads] at hth
        cases hth
      idle := fun _ _ => ⟨0, rfl⟩
      wf := fun _ => trivial
      locked := fun sem => ⟨fun _ _ hholds => hholds.elim, fun _ hholds => hholds.elim,
        le_of_eq (h.sem sem)⟩ }
  point := fun i th hth => by
    rw [h.threads] at hth
    cases hth
  rows := fun file fs hin hfs => by
    rw [h.files file hin] at hfs
    cases hfs
  mounts := fun row fs _ hgone => absurd hgone (h.unmounted fs)
  once := fun row row' fs hrow hrow' => h.once row hrow.1 row' hrow'.1 fs hrow.2 hrow'.2

/-- What is known when the thread `i` takes a step of its call. -/
structure UnmountRun (S : UnmountSystem ι) (pcs : ι → VfsPc) (i : ι) (th th' : VfsThread)
    (sys : VfsSystem ι) (pc' : VfsPc) : Prop where
  inv : UnmountInv S pcs
  thread : S.sys.threads i = some th
  proc : th.proc = (pcs i).proc
  call : th'.call = th.call
  threads : sys.threads = Function.update S.sys.threads i (some th')
  follows : Follows sys (Function.update pcs i pc')
  point : S.At i th.call (pcs i)
  unshared : ∀ file, (S.sys.tables.files file).filesystem ≠ none →
    (sys.tables.files file).filesystem = none → ∀ j ≠ i, ¬ S.Using j file

section

variable {S : UnmountSystem ι} {pcs : ι → VfsPc} {i j : ι} {th th' u : VfsThread}
  {sys : VfsSystem ι} {pc pc' : VfsPc} {file : ℤ} {c : VfsCall}

/-- The invariant after a step, put together from what is known at the control points. -/
theorem UnmountRun.after (h : UnmountRun S pcs i th th' sys pc')
    (hpoint : (S.after i th th' sys).At i th.call pc')
    (hframe : ∀ j ≠ i, ∀ u ∈ S.sys.threads j, (S.after i th th' sys).At j u.call (pcs j))
    (hrows : ∀ file fs, InTable file → (sys.tables.files file).filesystem = some fs →
      ¬ (S.after i th th' sys).unmounted fs)
    (hmounts : ∀ row fs, (S.after i th th' sys).MountedAt row fs →
      (S.after i th th' sys).unmounted fs → ∃ k, Function.update pcs i pc' k = .unmountClear row fs)
    (honce : ∀ row row' fs, (S.after i th th' sys).MountedAt row fs →
      (S.after i th th' sys).MountedAt row' fs → row = row') :
    UnmountInv (S.after i th th' sys) (Function.update pcs i pc') := by
  refine ⟨h.follows, fun j u hu => ?_, hrows, hmounts, honce⟩
  have hu' : sys.threads j = some u := hu
  rw [h.threads] at hu'
  by_cases hj : j = i
  · subst hj
    rw [Function.update_self] at hu'
    cases hu'
    rw [Function.update_self, h.call]
    exact hpoint
  · rw [Function.update_of_ne hj] at hu' ⊢
    exact hframe j hj u hu'

omit [DecidableEq ι] in
/-- A call relies on a row that is in use, or it has the lock of the table. -/
theorem UnmountSystem.At.watched (h : S.At j c pc) (hwatch : pc.watched = some file) :
    (S.sys.tables.files file).filesystem ≠ none ∨ pc.Holds .openfile := by
  cases pc with
  | openUnlockFiles file' fs _ | openUnlockTable file' fs _ | openDriver file' fs _ =>
      cases hwatch
      left
      rw [h.2.1]
      exact Option.some_ne_none fs
  | closeLoad file' | closeDriver file' _ _ => exact Or.inr rfl
  | transferFs _ file' _ _ =>
      cases hwatch
      exact Or.inl h.2.2
  | transferFileid _ file' _ _ =>
      cases hwatch
      exact Or.inl h.2.2.1
  | transferDriver _ file' fs _ _ _ =>
      cases hwatch
      left
      rw [h.2.2]
      exact Option.some_ne_none fs
  | _ => cases hwatch

omit [DecidableEq ι] in
/-- A call that relies on a row without the lock of the table is one that `Using` names. -/
theorem UnmountInv.using (h : UnmountInv S pcs) (hu : u ∈ S.sys.threads j)
    (hwatch : (pcs j).watched = some file) : S.Using j file ∨ (pcs j).Holds .openfile := by
  have hpoint := h.point j u hu
  have hproc := h.follows.thread j u hu
  generalize pcs j = pc at hwatch hpoint hproc
  cases pc with
  | openUnlockFiles file' fs _ | openUnlockTable file' fs _ | openDriver file' fs _ =>
      cases hwatch
      exact Or.inl ⟨u, hu, Or.inr ⟨hpoint.2.2, by rw [hproc]; rfl⟩⟩
  | closeLoad file' | closeDriver file' _ _ => exact Or.inr rfl
  | transferFs _ file' _ _ | transferFileid _ file' _ _ | transferDriver _ file' _ _ _ _ =>
      cases hwatch
      exact Or.inl ⟨u, hu, Or.inl ⟨hpoint.2.1, by rw [hproc]; rfl⟩⟩
  | _ => cases hwatch

/-- A call that unmounts has the lock of the mount table. -/
theorem VfsPc.unmounts_holds {row fs : ℕ} (h : pc.unmounts = some (row, fs)) : pc.Holds .table := by
  cases pc with
  | unmountFiles _ _ | unmountScan _ _ | unmountDriver _ _ | unmountClear _ _ =>
      first
        | rfl
        | trivial
  | _ => cases h

omit [DecidableEq ι] in
/-- Only one thread has a lock. -/
theorem UnmountInv.not_both (h : UnmountInv S pcs) {sem : VfsSem} (hj : j ≠ i)
    (hi : (pcs i).Holds sem) : ¬ (pcs j).Holds sem :=
  fun hholds => hj ((h.follows.locked sem).unique j i hholds hi)

/-- What another call knows stays known if the step changes only the open file table and no row on
which that call relies. -/
theorem UnmountRun.frame (h : UnmountRun S pcs i th th' sys pc')
    (hfilesystems : sys.tables.filesystems = S.sys.tables.filesystems)
    (hwatch : ∀ j ≠ i, ∀ u ∈ S.sys.threads j, ∀ file, (pcs j).watched = some file →
      (sys.tables.files file).filesystem = (S.sys.tables.files file).filesystem)
    (hfree : ∀ j ≠ i, ∀ file fs filename, pcs j = .openReserve file fs filename →
      (S.sys.tables.files file).filesystem = none → (sys.tables.files file).filesystem = none)
    (hunused : ∀ j ≠ i, ∀ row fs, (pcs j).unmounts = some (row, fs) → S.Unused fs →
      (S.after i th th' sys).Unused fs) (hj : j ≠ i) (hu : u ∈ S.sys.threads j) :
    (S.after i th th' sys).At j u.call (pcs j) := by
  have hmounted : ∀ row fs, S.MountedAt row fs → (S.after i th th' sys).MountedAt row fs := by
    intro row fs hrow
    refine ⟨hrow.1, ?_⟩
    show (sys.tables.filesystems row).filesystem = _
    rw [hfilesystems]
    exact hrow.2
  refine (h.inv.point j u hu).frame (fun file hfile => ?_) (fun file fs filename hpc => ?_)
    (fun row fs hpc => ⟨hmounted row fs, hunused j hj row fs hpc⟩) (fun fs hgone => Or.inl hgone)
  · have hsame := hwatch j hj u hu file hfile
    refine ⟨hsame, fun hne hopening => ?_⟩
    show openingAfter S.opening S.sys.tables i th' sys.tables file = some j
    rw [openingAfter_of_same hsame hne fun _ heq => hj (Option.some.inj (hopening.symm.trans heq))]
    exact hopening
  · exact ⟨hfree j hj file fs filename hpc, fun row => hmounted row fs⟩

end

section

variable {S : UnmountSystem ι} {pcs : ι → VfsPc} {i j : ι} {th th' u : VfsThread}
  {sys : VfsSystem ι} {pc pc' : VfsPc} {file : ℤ} {c : VfsCall}

/-- Nothing is unmounted in the step. -/
theorem UnmountRun.unmounted_iff (h : UnmountRun S pcs i th th' sys pc')
    (hunm : (pcs i).proc.unmounting = none) (fs : ℕ) :
    (S.after i th th' sys).unmounted fs ↔ S.unmounted fs := by
  constructor
  · rintro (hgone | hnow)
    · exact hgone
    · rw [h.proc, hunm] at hnow
      cases hnow
  · exact Or.inl

theorem mountedAt_after (S : UnmountSystem ι) (i : ι) (th th' : VfsThread) {sys : VfsSystem ι}
    (hfilesystems : sys.tables.filesystems = S.sys.tables.filesystems) (row fs : ℕ) : (S.after i th th' sys).MountedAt row fs ↔ S.MountedAt row fs := by
  show _ ∧ (sys.tables.filesystems row).filesystem = _ ↔ _
  rw [hfilesystems]
  exact Iff.rfl

/-- A step that changes the open file table or nothing, and unmounts nothing. -/
theorem UnmountRun.files (h : UnmountRun S pcs i th th' sys pc')
    (hfilesystems : sys.tables.filesystems = S.sys.tables.filesystems)
    (hunm : (pcs i).proc.unmounting = none) (hnot : ∀ row fs, pcs i ≠ .unmountClear row fs)
    (hrows : ∀ file fs, InTable file → (sys.tables.files file).filesystem = some fs →
      ¬ S.unmounted fs)
    (hframe : ∀ j ≠ i, ∀ u ∈ S.sys.threads j, (S.after i th th' sys).At j u.call (pcs j))
    (hpoint : (S.after i th th' sys).At i th.call pc') :
    UnmountInv (S.after i th th' sys) (Function.update pcs i pc') := by
  refine h.after hpoint hframe (fun file fs hin hfs => ?_) (fun row fs hrow hgone => ?_)
    (fun row row' fs hrow hrow' => ?_)
  · rw [h.unmounted_iff hunm]
    exact hrows file fs hin hfs
  · rw [h.unmounted_iff hunm] at hgone
    rw [mountedAt_after S i th th' hfilesystems] at hrow
    obtain ⟨k, hk⟩ := h.inv.mounts row fs hrow hgone
    refine ⟨k, ?_⟩
    rw [Function.update_of_ne fun heq => hnot row fs (by rw [← heq]; exact hk)]
    exact hk
  · rw [mountedAt_after S i th th' hfilesystems] at hrow hrow'
    exact h.inv.once row row' fs hrow hrow'

/-- A step that leaves the filesystems in both tables alone. -/
theorem UnmountRun.calm (h : UnmountRun S pcs i th th' sys pc')
    (hfiles : ∀ file, (sys.tables.files file).filesystem = (S.sys.tables.files file).filesystem)
    (hfilesystems : sys.tables.filesystems = S.sys.tables.filesystems)
    (hunm : (pcs i).proc.unmounting = none) (hnot : ∀ row fs, pcs i ≠ .unmountClear row fs)
    (hpoint : (S.after i th th' sys).At i th.call pc') :
    UnmountInv (S.after i th th' sys) (Function.update pcs i pc') := by
  refine h.files hfilesystems hunm hnot (fun file fs hin hfs => ?_) (fun j hj u hu => ?_) hpoint
  · rw [hfiles] at hfs
    exact h.inv.rows file fs hin hfs
  · refine h.frame hfilesystems (fun _ _ _ _ file _ => hfiles file)
      (fun _ _ file _ _ _ hnone => (hfiles file).trans hnone) (fun _ _ row fs _ hunused => ?_) hj hu
    intro file hin
    show (sys.tables.files file).filesystem ≠ _
    rw [hfiles]
    exact hunused file hin

/-- `vfs_open` reserves a row. -/
theorem UnmountRun.reserve (h : UnmountRun S pcs i th th' sys pc') {fs : ℕ} {filename : List UInt8}
    (hpc : pcs i = .openReserve file fs filename) (hpc' : pc' = .openUnlockFiles file fs filename)
    (htables : sys.tables = S.sys.tables.setFile file
      { S.sys.tables.files file with filesystem := some fs }) :
    UnmountInv (S.after i th th' sys) (Function.update pcs i pc') := by
  have hpoint := h.point
  rw [hpc] at hpoint
  obtain ⟨hin, hnone, row, hrow⟩ := hpoint
  have hholds : ∀ sem, (pcs i).Holds sem := by
    intro sem
    rw [hpc]
    trivial
  have hsame : ∀ file' ≠ file, sys.tables.files file' = S.sys.tables.files file' := by
    intro file' hne
    rw [htables]
    exact VfsTables.setFile_files_of_ne _ hne _
  have hself : (sys.tables.files file).filesystem = some fs := by
    rw [htables, VfsTables.setFile_files_self]
  refine h.files (by rw [htables]; rfl) (by rw [hpc]; rfl) (by rw [hpc]; nofun)
    (fun file' fs' hin' hfs' => ?_) (fun j hj u hu => ?_) ?_
  · by_cases hfile : file' = file
    · -- the filesystem is mounted, and its row is not about to be cleared
      intro hgone
      rw [hfile, hself] at hfs'
      cases hfs'
      obtain ⟨k, hk⟩ := h.inv.mounts row fs hrow hgone
      have hki : k = i := by
        by_contra hne
        refine h.inv.not_both hne (hholds .table) ?_
        rw [hk]
        trivial
      rw [hki, hpc] at hk
      cases hk
    · rw [hsame file' hfile] at hfs'
      exact h.inv.rows file' fs' hin' hfs'
  · have hlock : ∀ sem, ¬ (pcs j).Holds sem := fun sem => h.inv.not_both hj (hholds sem)
    refine h.frame (by rw [htables]; rfl) ?_ ?_ ?_ hj hu
    · intro k hk v hv file' hwatch
      rw [hsame file' fun heq => ?_]
      rcases (h.inv.point k v hv).watched hwatch with hused | hopenfile
      · rw [heq] at hused
        exact hused hnone
      · exact h.inv.not_both hk (hholds .openfile) hopenfile
    · intro k hk file' fs' filename' hpck _
      refine absurd ?_ (h.inv.not_both hk (hholds .openfile))
      rw [hpck]
      trivial
    · intro k hk row' fs' hunm
      exact absurd (VfsPc.unmounts_holds hunm) (h.inv.not_both hk (hholds .table))
  · rw [hpc']
    refine ⟨hin, hself, ?_⟩
    show openingAfter S.opening S.sys.tables i th' sys.tables file = some i
    unfold openingAfter
    rw [hself, if_neg (Option.some_ne_none fs), if_pos hnone]

/-- A row is cleared under the lock of the table, and no call without the lock relies on it. -/
theorem UnmountRun.clear (h : UnmountRun S pcs i th th' sys pc') {ret : ℤ}
    (hholds : (pcs i).Holds .openfile) (hunm : (pcs i).proc.unmounting = none)
    (hnot : ∀ row fs, pcs i ≠ .unmountClear row fs) (hpc' : pc' = .leave [.openfile] ret)
    (htables : sys.tables = S.sys.tables.setFile file
      { S.sys.tables.files file with filesystem := none }) :
    UnmountInv (S.after i th th' sys) (Function.update pcs i pc') := by
  have hsame : ∀ file' ≠ file, sys.tables.files file' = S.sys.tables.files file' := by
    intro file' hne
    rw [htables]
    exact VfsTables.setFile_files_of_ne _ hne _
  have hself : (sys.tables.files file).filesystem = none := by
    rw [htables, VfsTables.setFile_files_self]
  have hsub : ∀ file' fs, (sys.tables.files file').filesystem = some fs →
      (S.sys.tables.files file').filesystem = some fs := by
    intro file' fs hfs
    by_cases hfile : file' = file
    · rw [hfile, hself] at hfs
      cases hfs
    · rw [← hsame file' hfile]
      exact hfs
  refine h.files (by rw [htables]; rfl) hunm hnot
    (fun file' fs hin hfs => h.inv.rows file' fs hin (hsub file' fs hfs)) (fun j hj u hu => ?_) ?_
  · refine h.frame (by rw [htables]; rfl) ?_ ?_ ?_ hj hu
    · intro k hk v hv file' hwatch
      by_cases hfile : file' = file
      · by_cases hnone : (S.sys.tables.files file).filesystem = none
        · rw [hfile, hself, hnone]
        · rw [hfile] at hwatch
          rcases h.inv.using hv hwatch with husing | hopenfile
          · exact absurd husing (h.unshared file hnone hself k hk)
          · exact absurd hopenfile (h.inv.not_both hk hholds)
      · rw [hsame file' hfile]
    · intro k _ file' _ _ _ hnone
      by_cases hfile : file' = file
      · rw [hfile]
        exact hself
      · rw [hsame file' hfile]
        exact hnone
    · intro k _ row fs _ hunused file' hin hfs
      exact hunused file' hin (hsub file' fs hfs)
  · rw [hpc']
    trivial

/-- `fs->unmount` has been called. -/
theorem UnmountRun.unmount (h : UnmountRun S pcs i th th' sys pc') {row fs : ℕ}
    (hpc : pcs i = .unmountDriver row fs) (hpc' : pc' = .unmountClear row fs)
    (htables : sys.tables = S.sys.tables) :
    UnmountInv (S.after i th th' sys) (Function.update pcs i pc') := by
  have hpoint := h.point
  rw [hpc] at hpoint
  obtain ⟨hrow, hunused⟩ := hpoint
  have hnow : ∀ fs', (S.after i th th' sys).unmounted fs' ↔ S.unmounted fs' ∨ fs' = fs := by
    intro fs'
    show S.unmounted fs' ∨ th.proc.unmounting = some fs' ↔ _
    rw [h.proc, hpc]
    exact or_congr_right ⟨fun heq => (Option.some.inj heq).symm, fun heq => by rw [heq]; rfl⟩
  have hmounted := mountedAt_after S i th th' (congrArg VfsTables.filesystems htables)
  refine h.after ?_ (fun j hj u hu => ?_) (fun file fs' hin hfs => ?_) (fun row' fs' hrow' hgone => ?_)
    (fun row1 row2 fs' hrow1 hrow2 => ?_)
  · rw [hpc']
    refine ⟨(hmounted row fs).2 hrow, fun file hin => ?_, (hnow fs).2 (Or.inr rfl)⟩
    show (sys.tables.files file).filesystem ≠ _
    rw [htables]
    exact hunused file hin
  · refine h.frame (by rw [htables]) (fun _ _ _ _ file _ => by rw [htables])
      (fun _ _ file _ _ _ hnone => by rw [htables]; exact hnone) (fun _ _ row' fs' _ hun => ?_) hj hu
    intro file hin
    show (sys.tables.files file).filesystem ≠ _
    rw [htables]
    exact hun file hin
  · rw [hnow]
    rw [htables] at hfs
    rintro (hgone | rfl)
    · exact h.inv.rows file fs' hin hfs hgone
    · exact hunused file hin hfs
  · rw [hmounted] at hrow'
    rcases (hnow fs').1 hgone with hold | rfl
    · obtain ⟨k, hk⟩ := h.inv.mounts row' fs' hrow' hold
      have hki : k ≠ i := by
        intro heq
        rw [heq, hpc] at hk
        cases hk
      exact ⟨k, by rw [Function.update_of_ne hki]; exact hk⟩
    · refine ⟨i, ?_⟩
      rw [Function.update_self, hpc', h.inv.once row' row fs' hrow' hrow]
  · rw [hmounted] at hrow1 hrow2
    exact h.inv.once row1 row2 fs' hrow1 hrow2

/-- `vfs_unmount` clears the row of the mount table. -/
theorem UnmountRun.unmountClear (h : UnmountRun S pcs i th th' sys pc') {row fs : ℕ}
    (hpc : pcs i = .unmountClear row fs) (hpc' : pc' = .leave [.openfile, .table] vfsOk)
    (htables : sys.tables = S.sys.tables.setFilesystem row
      { S.sys.tables.filesystems row with filesystem := none }) :
    UnmountInv (S.after i th th' sys) (Function.update pcs i pc') := by
  have hholds : ∀ sem, (pcs i).Holds sem := by
    intro sem
    rw [hpc]
    trivial
  have hunm : (pcs i).proc.unmounting = none := by
    rw [hpc]
    rfl
  have hfiles : ∀ file, sys.tables.files file = S.sys.tables.files file := by
    intro file
    rw [htables]
    rfl
  have hsub : ∀ row' fs', (S.after i th th' sys).MountedAt row' fs' →
      row' ≠ row ∧ S.MountedAt row' fs' := by
    rintro row' fs' ⟨hlt, hfs'⟩
    have hfs : (sys.tables.filesystems row').filesystem = some fs' := hfs'
    rw [htables] at hfs
    by_cases hrow : row' = row
    · rw [hrow, VfsTables.setFilesystem_self] at hfs
      cases hfs
    · rw [VfsTables.setFilesystem_of_ne _ hrow] at hfs
      exact ⟨hrow, hlt, hfs⟩
  refine h.after (by rw [hpc']; trivial) (fun j hj u hu => ?_) (fun file fs' hin hfs => ?_)
    (fun row' fs' hrow' hgone => ?_) (fun row1 row2 fs' hrow1 hrow2 => ?_)
  · have hlock : ∀ sem, ¬ (pcs j).Holds sem := fun sem => h.inv.not_both hj (hholds sem)
    refine (h.inv.point j u hu).frame (fun file hfile => ?_) (fun file fs filename hpcj => ?_)
      (fun row' fs' hunmounts => ?_) (fun fs' hgone => Or.inl hgone)
    · refine ⟨congrArg OpenfileEntry.filesystem (hfiles file), fun hne hopening => ?_⟩
      show openingAfter S.opening S.sys.tables i th' sys.tables file = some j
      rw [openingAfter_of_same (congrArg OpenfileEntry.filesystem (hfiles file)) hne
        fun _ heq => hj (Option.some.inj (hopening.symm.trans heq))]
      exact hopening
    · refine absurd ?_ (hlock .table)
      rw [hpcj]
      trivial
    · exact absurd (VfsPc.unmounts_holds hunmounts) (hlock .table)
  · rw [h.unmounted_iff hunm]
    rw [hfiles] at hfs
    exact h.inv.rows file fs' hin hfs
  · obtain ⟨hne, hrow'⟩ := hsub row' fs' hrow'
    rw [h.unmounted_iff hunm] at hgone
    obtain ⟨k, hk⟩ := h.inv.mounts row' fs' hrow' hgone
    have hki : k ≠ i := by
      intro heq
      rw [heq, hpc] at hk
      cases hk
      exact hne rfl
    exact ⟨k, by rw [Function.update_of_ne hki]; exact hk⟩
  · exact h.inv.once row1 row2 fs' (hsub row1 fs' hrow1).2 (hsub row2 fs' hrow2).2

end

section

variable {S S' : UnmountSystem ι} {pcs : ι → VfsPc} {i : ι} {r : ℤ} {th th' : VfsThread}
  {sys : VfsSystem ι} {pc' : VfsPc} {file : ℤ}

/-- A step that leaves both tables alone. -/
theorem UnmountRun.idle (h : UnmountRun S pcs i th th' sys pc') (htables : sys.tables = S.sys.tables)
    (hunm : (pcs i).proc.unmounting = none) (hnot : ∀ row fs, pcs i ≠ .unmountClear row fs)
    (hpoint : (S.after i th th' sys).At i th.call pc') :
    UnmountInv (S.after i th th' sys) (Function.update pcs i pc') :=
  h.calm (fun file => by rw [htables]) (by rw [htables]) hunm hnot hpoint

/-- The row of the call stays reserved while the locks are given back. -/
theorem UnmountRun.reserved (_ : UnmountRun S pcs i th th' sys pc') {fs : ℕ}
    (htables : sys.tables = S.sys.tables) (hret : th'.proc.returned = false)
    (hold : InTable file ∧ (S.sys.tables.files file).filesystem = some fs ∧
      S.opening file = some i) :
    InTable file ∧ (sys.tables.files file).filesystem = some fs ∧
      openingAfter S.opening S.sys.tables i th' sys.tables file = some i := by
  obtain ⟨hin, hfs, hopening⟩ := hold
  refine ⟨hin, by rw [htables]; exact hfs, ?_⟩
  have hne : (S.sys.tables.files file).filesystem ≠ none := by
    rw [hfs]
    exact Option.some_ne_none fs
  rw [openingAfter_of_same (by rw [htables]) hne fun hdone => by rw [hret] at hdone; cases hdone]
  exact hopening

omit [DecidableEq ι] in
/-- The row is the one that `vfs_open` reserves next. -/
theorem free_of_findFile {t : VfsTables} {n : ℕ} (hfile : t.findFile (·.filesystem = none) = some n) :
    InTable n ∧ (t.files n).filesystem = none := by
  obtain ⟨hlt, hfree⟩ := VfsTables.findFile_eq_some hfile
  exact ⟨⟨Int.natCast_nonneg _, by exact_mod_cast hlt⟩, of_decide_eq_true hfree⟩

/-- The second scan of `vfs_unmount` has found no row with the filesystem. -/
theorem unused_of_findFile {t : VfsTables} {fs : ℕ} (hnone : t.findFile (·.filesystem = some fs) = none)
    (file : ℤ) (hin : InTable file) : (t.files file).filesystem ≠ some fs := by
  obtain ⟨n, rfl⟩ := Int.eq_ofNat_of_zero_le hin.1
  exact of_decide_eq_false (VfsTables.findFile_eq_none.1 hnone n (by exact_mod_cast hin.2))

/-- A step that leaves both tables alone, with what is known at the next control point in terms of the
    old tables. -/
theorem UnmountRun.idle_at (h : UnmountRun S pcs i th th' sys pc') (htables : sys.tables = S.sys.tables)
    (hunm : (pcs i).proc.unmounting = none) (hnot : ∀ row fs, pcs i ≠ .unmountClear row fs)
    (hpoint : ∀ T : UnmountSystem ι, T.sys.tables = S.sys.tables → T.At i th.call pc') :
    UnmountInv (S.after i th th' sys) (Function.update pcs i pc') :=
  h.idle htables hunm hnot (hpoint _ htables)

/-- A step of a call keeps the invariant. -/
theorem UnmountRun.step (h : UnmountRun S pcs i th th' sys pc') (hproc' : th'.proc = pc'.proc)
    (hstep : PcStep S.sys.shared r (pcs i) pc' sys.shared) :
    UnmountInv (S.after i th th' sys) (Function.update pcs i pc') := by
  have hpoint := h.point
  have htables : sys.tables = sys.shared.tables := rfl
  have hidle := h.idle_at
  generalize hpc : pcs i = pc at hstep hpoint hidle
  generalize sys.shared = s' at hstep htables
  cases hstep with
  | openScan hfile hfs =>
      obtain ⟨hin, hfree⟩ := free_of_findFile hfile
      obtain ⟨row, hrow, hmount⟩ := vfsGetFilesystem_eq_some hfs
      exact hidle htables rfl nofun fun T hT =>
        ⟨hin, by rw [hT]; exact hfree, row, hrow, by rw [hT]; exact hmount⟩
  | openReserve => exact h.reserve hpc rfl htables
  | openUnlockFiles | openUnlockTable =>
      exact h.idle htables (by rw [hpc]; rfl) (by rw [hpc]; nofun)
        (h.reserved htables (by rw [hproc']; rfl) hpoint)
  | openClear =>
      exact h.clear (by rw [hpc]; rfl) (by rw [hpc]; rfl) (by rw [hpc]; nofun) rfl htables
  | closeClear =>
      exact h.clear (by rw [hpc]; rfl) (by rw [hpc]; rfl) (by rw [hpc]; nofun) rfl htables
  | openFileid | openSeek | transferStore =>
      refine h.calm (fun file' => ?_) (by rw [htables]; rfl) (by rw [hpc]; rfl) (by rw [hpc]; nofun)
        trivial
      rw [htables]
      refine VfsTables.setFile_filesystem ?_ file'
      rfl
  | closeStart | closeVerify _ | closeLock _ => exact hidle htables rfl nofun fun _ _ => hpoint
  | closeLoad hfs =>
      exact hidle htables rfl nofun fun T hT => ⟨hpoint, by rw [hT]; exact hfs⟩
  | transferStart => exact hidle htables rfl nofun fun _ _ => hpoint
  | transferVerify hopen =>
      exact hidle htables rfl nofun fun T hT => ⟨hpoint.1, hpoint.2, by rw [hT]; exact hopen⟩
  | transferFs =>
      exact hidle htables rfl nofun fun T hT =>
        ⟨hpoint.1, hpoint.2.1, by rw [hT]; exact hpoint.2.2, by rw [hT]; rfl⟩
  | transferFileid =>
      exact hidle htables rfl nofun fun T hT =>
        ⟨hpoint.1, hpoint.2.1, by rw [hT]; exact hpoint.2.2.2⟩
  | unmountRow hrow hfs =>
      exact hidle htables rfl nofun fun T hT => ⟨hrow, by rw [hT]; exact hfs⟩
  | unmountFiles _ =>
      exact hidle htables rfl nofun fun T hT => ⟨hpoint.1, by rw [hT]; exact hpoint.2⟩
  | unmountScan hnone =>
      exact hidle htables rfl nofun fun T hT => ⟨⟨hpoint.1, by rw [hT]; exact hpoint.2⟩,
        fun file hin => by rw [hT]; exact unused_of_findFile hnone file hin⟩
  | unmountDriver => exact h.unmount hpc rfl htables
  | unmountClear => exact h.unmountClear hpc rfl htables
  | @transferDriver write _ _ _ _ _ _ =>
      exact hidle htables (by cases write <;> rfl) nofun fun _ _ => trivial
  | @transferFail write =>
      exact hidle htables (by cases write <;> rfl) nofun fun _ _ => trivial
  | _ => exact hidle htables rfl nofun fun _ _ => trivial

end

section

variable {S S' : UnmountSystem ι} {pcs : ι → VfsPc} {i : ι}

/-- A thread makes a call. -/
theorem UnmountInv.call (h : UnmountInv S pcs) {c : VfsCall} (hallowed : S.Allowed (.call i c))
    (hexec : S.exec (.call i c) = some S') : ∃ pcs', UnmountInv S' pcs' := by
  obtain ⟨sys, hsys, rfl⟩ := Option.map_eq_some_iff.1 hexec
  obtain ⟨pc, hpc, hpoint⟩ : ∃ pc, c.start = some pc ∧ ∀ S'' : UnmountSystem ι, S''.At i c pc := by
    rcases hallowed with ⟨pathname, rfl⟩ | ⟨name, rfl⟩ | ⟨file, hopen, rfl | htransfer⟩
    · exact ⟨_, rfl, fun _ => trivial⟩
    · exact ⟨_, rfl, fun _ => trivial⟩
    · exact ⟨_, rfl, fun _ => ⟨hopen.1, hopen.2.1⟩⟩
    · obtain ⟨buffer, size, rfl | rfl⟩ := htransfer
      · exact ⟨_, rfl, fun _ => ⟨⟨hopen.1, hopen.2.1⟩, buffer, size, Or.inl rfl⟩⟩
      · exact ⟨_, rfl, fun _ => ⟨⟨hopen.1, hopen.2.1⟩, buffer, size, Or.inr rfl⟩⟩
  obtain ⟨hidle, hshared, hthreads, hfollows⟩ := h.follows.call hpc hsys
  have htables : sys.tables = S.sys.tables := congrArg VfsShared.tables hshared
  obtain ⟨ret, hret⟩ := h.follows.returned hidle
  have hmounted : ∀ row fs, UnmountSystem.MountedAt { S with sys } row fs ↔ S.MountedAt row fs := by
    intro row fs
    show _ ∧ (sys.tables.filesystems row).filesystem = _ ↔ _
    rw [htables]
    exact Iff.rfl
  refine ⟨Function.update pcs i pc, hfollows, fun j u hu => ?_, fun file fs hin hfs => ?_,
    fun row fs hrow hgone => ?_, fun row row' fs hrow hrow' => ?_⟩
  · have hu' : sys.threads j = some u := hu
    rw [hthreads] at hu'
    by_cases hj : j = i
    · subst hj
      rw [Function.update_self] at hu' ⊢
      cases hu'
      exact hpoint _
    · rw [Function.update_of_ne hj] at hu' ⊢
      refine (h.point j u hu').frame (fun file _ => ⟨?_, fun _ hopening => hopening⟩)
        (fun file fs filename _ => ⟨fun hnone => ?_, fun row => (hmounted row fs).2⟩)
        (fun row fs _ => ⟨(hmounted row fs).2, fun hunused file hin => ?_⟩) (fun fs hgone => hgone)
      · show (sys.tables.files file).filesystem = _
        rw [htables]
      · show (sys.tables.files file).filesystem = _
        rw [htables]
        exact hnone
      · show (sys.tables.files file).filesystem ≠ _
        rw [htables]
        exact hunused file hin
  · have hfs' : (sys.tables.files file).filesystem = some fs := hfs
    rw [htables] at hfs'
    exact h.rows file fs hin hfs'
  · obtain ⟨k, hk⟩ := h.mounts row fs ((hmounted row fs).1 hrow) hgone
    have hki : k ≠ i := by
      intro heq
      rw [heq, hret] at hk
      cases hk
    exact ⟨k, by rw [Function.update_of_ne hki]; exact hk⟩
  · exact h.once row row' fs ((hmounted row fs).1 hrow) ((hmounted row' fs).1 hrow')

/-- A step in which no row is cleared that another call relies on keeps the invariant. -/
theorem UnmountInv.exec (h : UnmountInv S pcs) {a : VfsLabel ι} (hallowed : S.Allowed a)
    (hunshared : S.Unshared a) (hexec : S.exec a = some S') : ∃ pcs', UnmountInv S' pcs' := by
  cases a with
  | deinit => exact hallowed.elim
  | call i c => exact h.call hallowed hexec
  | run i r =>
      have hclear := hunshared S' hexec
      simp only [UnmountSystem.exec] at hexec
      split at hexec
      case h_2 => cases hexec
      next th hth =>
      obtain ⟨⟨th', s1⟩, hrun, rfl⟩ := Option.map_eq_some_iff.1 hexec
      obtain ⟨hcall, hthreads, pc', hstep, hproc', hfollows⟩ := h.follows.run hth hrun
      have hunmountRun : UnmountRun S pcs i th th' (s1.setThread i th') pc' :=
        ⟨h, hth, h.follows.thread i th hth, hcall, hthreads, hfollows, h.point i th hth, hclear⟩
      exact ⟨_, hunmountRun.step hproc' hstep⟩

omit [DecidableEq ι] in
/-- A call that is in a driver function, other than `unmount`, has a row with the filesystem. -/
theorem UnmountInv.driver (h : UnmountInv S pcs) {th : VfsThread} (hth : th ∈ S.sys.threads i)
    {call : FsCall} {k : ℤ → VfsProc ℤ} {fs : ℕ} (hproc : th.proc = .driver call k)
    (huser : call.user = some fs) :
    ∃ file, InTable file ∧ (S.sys.tables.files file).filesystem = some fs := by
  have hpoint := h.point i th hth
  rcases VfsPc.driver_cases ((h.follows.thread i th hth).symm.trans hproc) with
    ⟨file, fs', filename, hpc, rfl⟩ | ⟨file, fs', fileid, hpc, rfl⟩ |
    ⟨write, file, fs', fileid, size, offset, hpc, rfl⟩ | ⟨row, fs', hpc, rfl⟩
  · rw [hpc] at hpoint
    cases huser
    exact ⟨file, hpoint.1, hpoint.2.1⟩
  · rw [hpc] at hpoint
    cases huser
    exact ⟨file, hpoint⟩
  · rw [hpc] at hpoint
    cases write with
    | false | true =>
        cases huser
        exact ⟨file, hpoint.1, hpoint.2.2⟩
  · cases huser

end

/-! ## Driver calls are safe -/

/-- **Driver calls and unmounting.** In every run in which no row is cleared while a read or write of
another thread through it, or a `vfs_open` that has reserved it, has not come back from its driver
call, no driver function other than `unmount` is called or still running on a filesystem whose
`unmount` has been called. -/
theorem unmountReachable_safe {S : UnmountSystem ι}
    (hreach : Reach UnmountInit
      (fun S a S' => S.Allowed a ∧ S.Unshared a ∧ S.exec a = some S') S) :
    ∀ i, ∀ th ∈ S.sys.threads i, ∀ call k fs, th.proc = .driver call k → call.user = some fs →
      ¬ S.unmounted fs ∧ ∀ j, ∀ u ∈ S.sys.threads j, ∀ k', u.proc ≠ .driver (.unmount fs) k' := by
  obtain ⟨pcs, hinv⟩ : ∃ pcs, UnmountInv S pcs := by
    refine Reach.invariant (I := fun S => ∃ pcs, UnmountInv S pcs) ?_ ?_ hreach
    · exact fun S hS => ⟨_, unmountInit_inv hS⟩
    · rintro S a S' ⟨pcs, hS⟩ ⟨hallowed, hunshared, hexec⟩
      exact hS.exec hallowed hunshared hexec
  intro i th hth call k fs hproc huser
  obtain ⟨file, hin, hfs⟩ := hinv.driver hth hproc huser
  refine ⟨hinv.rows file fs hin hfs, fun j u hu k' hunmount => ?_⟩
  have hpoint := hinv.point j u hu
  rcases VfsPc.driver_cases ((hinv.follows.thread j u hu).symm.trans hunmount) with
    ⟨file', fs', filename, -, hcall⟩ | ⟨file', fs', fileid, -, hcall⟩ |
    ⟨write, file', fs', fileid, size, offset, -, hcall⟩ | ⟨row, fs', hpc, hcall⟩
  · cases hcall
  · cases hcall
  · cases write with
    | false | true => cases hcall
  · cases hcall
    rw [hpc] at hpoint
    exact hpoint.2 file hin hfs

/-! ## Two runs -/

/-- A check for `Allowed`. -/
def UnmountSystem.allows (S : UnmountSystem ι) : VfsLabel ι → Bool
  | .call _ (.open _) | .call _ (.unmount _) | .run _ _ => true
  | .call _ (.close file) | .call _ (.read file _ _) =>
      0 ≤ file && file < configMaxOpenFiles && (S.sys.tables.files file).filesystem.isSome
  | _ => false

omit [DecidableEq ι] in
theorem UnmountSystem.allowed_of_allows {S : UnmountSystem ι} {a : VfsLabel ι}
    (h : S.allows a = true) : S.Allowed a := by
  have hopen : ∀ file : ℤ, (0 ≤ file && file < configMaxOpenFiles &&
      (S.sys.tables.files file).filesystem.isSome) = true → S.sys.tables.IsOpen file := by
    intro file hfile
    simp only [Bool.and_eq_true, decide_eq_true_eq] at hfile
    exact ⟨hfile.1.1, hfile.1.2, Option.isSome_iff_ne_none.1 hfile.2⟩
  cases a with
  | run i r => trivial
  | deinit => cases h
  | call i c =>
      cases c with
      | «open» pathname => exact Or.inl ⟨pathname, rfl⟩
      | unmount name => exact Or.inr (Or.inl ⟨name, rfl⟩)
      | close file => exact Or.inr (Or.inr ⟨file, hopen file h, Or.inl rfl⟩)
      | read file buffer size =>
          exact Or.inr (Or.inr ⟨file, hopen file h, Or.inr ⟨buffer, size, Or.inl rfl⟩⟩)
      | mount _ _ | seek _ _ | write _ _ _ | create _ _ | remove _ | getfree _ | filecount _
      | file _ _ => cases h

/-- A check for `Unshared`, of two threads: the other one is in no call, or nothing is stored. -/
def UnmountSystem.unshares (S : UnmountSystem Bool) : VfsLabel Bool → Bool
  | .run i _ => (S.sys.threads !i).isNone || (S.sys.threads i).all fun th => !th.proc.storing
  | .call _ _ | .deinit => true

theorem UnmountSystem.unshared_of_unshares {S : UnmountSystem Bool} {a : VfsLabel Bool}
    (h : S.unshares a = true) : S.Unshared a := by
  cases a with
  | call _ _ | deinit => trivial
  | run i r =>
      rintro S' hexec file hused hfree j hj ⟨u, hu, -⟩
      rcases Bool.or_eq_true_iff.1 h with hnone | hstores
      · rw [Bool.eq_not_of_ne hj, Option.isNone_iff_eq_none.1 hnone] at hu
        cases hu
      · unfold UnmountSystem.exec at hexec
        cases hth : S.sys.threads i with
        | none =>
            simp only [hth] at hexec
            cases hexec
        | some th =>
            simp only [hth] at hexec
            obtain ⟨p, hstep, rfl⟩ := Option.map_eq_some_iff.1 hexec
            rw [hth] at hstores
            have htables := VfsThread.step_tables (by simpa using hstores) hstep
            have hsame : (p.2.tables.files file).filesystem = none := hfree
            rw [htables] at hsame
            exact hused hsame

/-- A step that passes the check. -/
def UnmountSystem.execIf (check : UnmountSystem ι → VfsLabel ι → Bool) (S : UnmountSystem ι)
    (a : VfsLabel ι) : Option (UnmountSystem ι) :=
  if check S a then S.exec a else none

theorem reach_of_execIf {check : UnmountSystem ι → VfsLabel ι → Bool}
    {step : UnmountSystem ι → VfsLabel ι → UnmountSystem ι → Prop}
    (hstep : ∀ S a S', check S a = true → S.exec a = some S' → step S a S')
    {S S' : UnmountSystem ι} (hreach : Reach UnmountInit step S) {labels : List (VfsLabel ι)}
    (hrun : runOps (UnmountSystem.execIf check) S labels = some S') : Reach UnmountInit step S' := by
  induction labels generalizing S with
  | nil =>
      cases hrun
      exact hreach
  | cons a labels ih =>
      unfold runOps at hrun
      split at hrun
      case h_2 => cases hrun
      next S1 hexec =>
      unfold UnmountSystem.execIf at hexec
      split at hexec
      case isFalse => cases hexec
      next hcheck =>
      exact ih (hreach.step a (hstep S a S1 hcheck hexec)) hrun

/-- One volume is mounted, with the name `a`. -/
def volumeMounted : UnmountSystem ι where
  sys := { vfsInit with
    tables := ⟨fun row => if row = 0 then ⟨some 0, [97]⟩ else ⟨none, []⟩, fun _ => ⟨none, 0, 0⟩⟩ }
  opening _ := none
  unmounted _ := False

omit [DecidableEq ι] in
theorem volumeMounted_init : UnmountInit (volumeMounted : UnmountSystem ι) where
  files _ _ := rfl
  once row _ row' _ fs hrow hrow' := by
    have hzero : ∀ row, ((volumeMounted : UnmountSystem ι).sys.tables.filesystems row).filesystem
        = some fs → row = 0 := by
      intro row hfs
      by_contra hne
      simp [volumeMounted, hne] at hfs
    rw [hzero row hrow, hzero row' hrow']
  sem _ := rfl
  threads _ := rfl
  unmounted _ := id

/-- The thread opens `[a]b` and reads from the file, up to the driver call. -/
def readOpened (i : ι) : List (VfsLabel ι) :=
  .call i (.open [91, 97, 93, 98]) :: List.replicate 11 (.run i 0) ++
    .call i (.read 0 1 1) :: List.replicate 4 (.run i 0)

/-- The thread closes the handle 0 and unmounts the volume, up to the driver call. -/
def closeAndUnmount (i : ι) : List (VfsLabel ι) :=
  .call i (.close 0) :: List.replicate 8 (.run i 0) ++
    .call i (.unmount [97]) :: List.replicate 5 (.run i 0)

/-- The filesystem on which a thread is in a driver function. -/
def VfsProc.inDriver : VfsProc ℤ → Option FsCall
  | driver call _ => some call
  | _ => none

theorem VfsProc.eq_driver {p : VfsProc ℤ} {call : FsCall} (h : p.inDriver = some call) :
    ∃ k, p = .driver call k := by
  cases p with
  | driver call' k =>
      cases h
      exact ⟨k, rfl⟩
  | _ => cases h

/-- One thread is in the driver's `read`; the other could not unmount the volume. -/
def readWhileInUse : UnmountSystem Bool :=
  (runOps (UnmountSystem.execIf fun S a => S.allows a && S.unshares a) volumeMounted
    (readOpened false ++ .call true (.unmount [97]) :: List.replicate 8 (.run true 0))).get (by decide +kernel)

theorem readWhileInUse_threads :
    (readWhileInUse.sys.threads false).map (fun th => th.proc.inDriver) = some (some (.read 0 0 1 0)) ∧
    (readWhileInUse.sys.threads true).map (fun th => th.proc.result) = some (some vfsInUse) := by
  decide +kernel

theorem unmountReachable_safe_inUse :
    ∃ S : UnmountSystem Bool, (∃ th ∈ S.sys.threads false, ∃ k, th.proc = .driver (.read 0 0 1 0) k) ∧
      (∃ u ∈ S.sys.threads true, u.proc = .done vfsInUse) ∧ ¬ S.unmounted 0 := by
  have hreach : Reach UnmountInit
      (fun S a S' => S.Allowed a ∧ S.Unshared a ∧ S.exec a = some S') readWhileInUse := by
    refine reach_of_execIf (fun S a S' hcheck hexec => ?_) (.init volumeMounted_init)
      (Option.some_get (by decide +kernel)).symm
    obtain ⟨hallows, hunshares⟩ := Bool.and_eq_true_iff.1 hcheck
    exact ⟨UnmountSystem.allowed_of_allows hallows, UnmountSystem.unshared_of_unshares hunshares, hexec⟩
  obtain ⟨th, hth, hcall⟩ := Option.map_eq_some_iff.1 readWhileInUse_threads.1
  obtain ⟨u, hu, hresult⟩ := Option.map_eq_some_iff.1 readWhileInUse_threads.2
  obtain ⟨k, hproc⟩ := VfsProc.eq_driver hcall
  exact ⟨readWhileInUse, ⟨th, hth, k, hproc⟩, ⟨u, hu, VfsProc.eq_done hresult⟩,
    (unmountReachable_safe hreach false th hth _ k 0 hproc rfl).1⟩

/-- A thread is in the driver's `read` when another thread comes back from `unmount`. -/
theorem exists_read_unmounted {S S' : UnmountSystem Bool}
    (hreach : Reach UnmountInit (fun S a S' => S.Allowed a ∧ S.exec a = some S') S)
    (hunmounting : (S.sys.threads true).map (fun th => th.proc.unmounting) = some (some 0))
    (hexec : S.exec (.run true 0) = some S')
    (hread : (S'.sys.threads false).map (fun th => th.proc.inDriver) = some (some (.read 0 0 1 0))) :
    ∃ S : UnmountSystem Bool,
      Reach UnmountInit (fun S a S' => S.Allowed a ∧ S.exec a = some S') S ∧
      (∃ th ∈ S.sys.threads false, ∃ k, th.proc = .driver (.read 0 0 1 0) k) ∧ S.unmounted 0 := by
  have hallowed : S.Allowed (.run true 0) := trivial
  have hreach' := hreach.step (.run true 0) ⟨hallowed, hexec⟩
  obtain ⟨th, hth, hcall⟩ := Option.map_eq_some_iff.1 hread
  obtain ⟨k, hproc⟩ := VfsProc.eq_driver hcall
  refine ⟨S', hreach', ⟨th, hth, k, hproc⟩, ?_⟩
  obtain ⟨u, hu, hunmount⟩ := Option.map_eq_some_iff.1 hunmounting
  simp only [UnmountSystem.exec, hu] at hexec
  obtain ⟨p, -, rfl⟩ := Option.map_eq_some_iff.1 hexec
  exact Or.inr hunmount

/-- One thread is in the driver's `read`; the other has closed the handle, and unmounts the volume. -/
def readWhileUnmounting : UnmountSystem Bool :=
  (runOps (UnmountSystem.execIf UnmountSystem.allows) volumeMounted
    (readOpened false ++ closeAndUnmount true)).get (by decide +kernel)

theorem readWhileUnmounting_unmounting :
    (readWhileUnmounting.sys.threads true).map (fun th => th.proc.unmounting) = some (some 0) := by
  decide +kernel

/-- The driver's `unmount` has returned. -/
def readUnmounted : UnmountSystem Bool :=
  (readWhileUnmounting.exec (.run true 0)).get (by decide +kernel)

theorem readUnmounted_thread :
    (readUnmounted.sys.threads false).map (fun th => th.proc.inDriver) = some (some (.read 0 0 1 0)) := by
  decide +kernel

/-- The driver's `read` is still going on when the volume has been unmounted. -/
theorem readUnmounted_stillReading :
    ∃ S : UnmountSystem Bool,
      Reach UnmountInit (fun S a S' => S.Allowed a ∧ S.exec a = some S') S ∧
      (∃ th ∈ S.sys.threads false, ∃ k, th.proc = .driver (.read 0 0 1 0) k) ∧ S.unmounted 0 := by
  have hreach : Reach UnmountInit (fun S a S' => S.Allowed a ∧ S.exec a = some S')
      readWhileUnmounting :=
    reach_of_execIf (fun S a S' hallows hexec => ⟨UnmountSystem.allowed_of_allows hallows, hexec⟩)
      (.init volumeMounted_init) (Option.some_get (by decide +kernel)).symm
  have hexec : readWhileUnmounting.exec (.run true 0) = some readUnmounted :=
    (Option.some_get (by decide +kernel)).symm
  exact exists_read_unmounted hreach readWhileUnmounting_unmounting hexec readUnmounted_thread

end Kudos
