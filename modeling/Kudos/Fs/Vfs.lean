import Kudos.Kernel.Thread
import Kudos.Library.CInt
import Mathlib.Data.List.Basic
import Mathlib.Data.Int.Notation

set_option autoImplicit false

/-! # The virtual filesystem

The operations of `fs/vfs.c`, each written as a process (`VfsProc`): a tree of the points at which
other threads can get in between. These are the semaphore operations on the two tables, the calls of
filesystem drivers, and the reads and writes of the tables, several of which the source makes without
a lock. `vfs_start_op` and `vfs_end_op` are critical sections of the binary semaphore `vfs_op_sem`
and are one step each here; what they do inside is `startOpBody` and `endOpBody`.

Drivers are unknown code: a driver call may return any value. A pointer to a filesystem is an
`Option ℕ` with `none` for `NULL`, and calling a driver through `NULL` is a crash, like a
`KERNEL_ASSERT` that fails. Messages printed by `kprintf` are left out. -/

namespace Kudos

open CInt

/-! ## Constants -/

def configMaxFilesystems : ℕ := 8

def configMaxOpenFiles : ℕ := 512

/-- `VFS_NAME_LENGTH`. -/
def vfsNameLength : ℕ := 16

def vfsOk : ℤ := 0
def vfsError : ℤ := -2
def vfsInvalidParams : ℤ := -3
def vfsNotFound : ℤ := -5
def vfsNoSuchFs : ℤ := -6
def vfsLimit : ℤ := -7
def vfsInUse : ℤ := -8
def vfsUnusable : ℤ := -9

/-! ## The tables -/

/-- `vfs_entry_t`. The mountpoint is the string in the buffer, without its terminator. -/
structure VfsEntry where
  filesystem : Option ℕ
  mountpoint : List UInt8
  deriving DecidableEq, Repr

/-- `openfile_entry_t`. -/
@[ext]
structure OpenfileEntry where
  filesystem : Option ℕ
  fileid : ℤ
  seekPosition : ℤ
  deriving DecidableEq, Repr

/-- `vfs_table.filesystems` and `openfile_table.files`. An `openfile_t` is an `int`, and
    `vfs_verify_open` looks at the row of every `int`: rows outside the table are whatever memory
    there happens to be. -/
structure VfsTables where
  filesystems : ℕ → VfsEntry
  files : ℤ → OpenfileEntry

namespace VfsTables

def setFilesystem (t : VfsTables) (row : ℕ) (e : VfsEntry) : VfsTables :=
  { t with filesystems := Function.update t.filesystems row e }

def setFile (t : VfsTables) (file : ℤ) (e : OpenfileEntry) : VfsTables :=
  { t with files := Function.update t.files file e }

@[simp]
theorem setFilesystem_self (t : VfsTables) (row : ℕ) (e : VfsEntry) :
    (t.setFilesystem row e).filesystems row = e := Function.update_self ..

theorem setFilesystem_of_ne (t : VfsTables) {row row' : ℕ} (hne : row' ≠ row) (e : VfsEntry) :
    (t.setFilesystem row e).filesystems row' = t.filesystems row' :=
  Function.update_of_ne hne ..

@[simp]
theorem setFile_files_self (t : VfsTables) (file : ℤ) (e : OpenfileEntry) :
    (t.setFile file e).files file = e := Function.update_self ..

theorem setFile_files_of_ne (t : VfsTables) {file file' : ℤ} (hne : file' ≠ file)
    (e : OpenfileEntry) : (t.setFile file e).files file' = t.files file' :=
  Function.update_of_ne hne ..

/-- A store that keeps the filesystem of its row keeps that of all rows. -/
theorem setFile_filesystem {t : VfsTables} {file : ℤ} {e : OpenfileEntry}
    (he : e.filesystem = (t.files file).filesystem) (file' : ℤ) :
    ((t.setFile file e).files file').filesystem = (t.files file').filesystem := by
  by_cases hfile : file' = file
  · rw [hfile, setFile_files_self, he]
  · rw [setFile_files_of_ne t hfile]

/-- The first row below the limit that satisfies `p`: the search loops of the module. -/
def findRow (p : VfsEntry → Bool) (t : VfsTables) : Option ℕ :=
  (List.range configMaxFilesystems).find? (fun row => p (t.filesystems row))

/-- The search for a free row of the open file table. -/
def findFile (p : OpenfileEntry → Bool) (t : VfsTables) : Option ℕ :=
  (List.range configMaxOpenFiles).find? (fun file => p (t.files file))

theorem findRow_eq_some {t : VfsTables} {p : VfsEntry → Bool} {row : ℕ}
    (h : t.findRow p = some row) : row < configMaxFilesystems ∧ p (t.filesystems row) = true ∧
      ∀ row' < row, p (t.filesystems row') = false := by
  unfold findRow at h
  rw [List.find?_range_eq_some, List.mem_range] at h
  exact ⟨h.2.1, h.1, fun row' hlt => by simpa using h.2.2 row' hlt⟩

theorem findRow_eq_none {t : VfsTables} {p : VfsEntry → Bool} :
    t.findRow p = none ↔ ∀ row < configMaxFilesystems, p (t.filesystems row) = false := by
  unfold findRow
  rw [List.find?_range_eq_none]
  simp

theorem findFile_eq_some {t : VfsTables} {p : OpenfileEntry → Bool} {file : ℕ}
    (h : t.findFile p = some file) : file < configMaxOpenFiles ∧ p (t.files file) = true := by
  unfold findFile at h
  rw [List.find?_range_eq_some, List.mem_range] at h
  exact ⟨h.2.1, h.1⟩

theorem findFile_eq_none {t : VfsTables} {p : OpenfileEntry → Bool} :
    t.findFile p = none ↔ ∀ file : ℕ, file < configMaxOpenFiles → p (t.files file) = false := by
  unfold findFile
  rw [List.find?_range_eq_none]
  simp

end VfsTables

/-- `vfs_get_filesystem`: the filesystem of the first row with this name, mounted or not. -/
def vfsGetFilesystem (t : VfsTables) (mountpoint : List UInt8) : Option ℕ :=
  match t.findRow (·.mountpoint = mountpoint) with
  | some row => (t.filesystems row).filesystem
  | none => none

/-- What is found is mounted. -/
theorem vfsGetFilesystem_eq_some {t : VfsTables} {mountpoint : List UInt8} {fs : ℕ}
    (h : vfsGetFilesystem t mountpoint = some fs) :
    ∃ row < configMaxFilesystems, (t.filesystems row).filesystem = some fs := by
  unfold vfsGetFilesystem at h
  split at h
  · next row hrow => exact ⟨row, (VfsTables.findRow_eq_some hrow).1, h⟩
  · cases h

/-! ## Path names

A C string is the list of its bytes; what is read behind the list is the terminator. -/

/-- The loop that copies the volume name up to the `]`. -/
def parseVolume : ℕ → List UInt8 → List UInt8 → Option (List UInt8 × List UInt8)
  | 0, _, _ => none
  | n + 1, pathname, volumebuf =>
      if pathname.headD 0 = 0 then none
      else if pathname.headD 0 = ']'.toUInt8 then some (pathname.tail, volumebuf)
      else parseVolume n pathname.tail (volumebuf ++ [pathname.headD 0])

/-- The loop that copies the file name up to the terminator. -/
def parseFilename : ℕ → List UInt8 → List UInt8 → Option (List UInt8)
  | 0, _, _ => none
  | n + 1, pathname, filenamebuf =>
      if pathname.headD 0 = 0 then
        -- empty filenames are not allowed
        if filenamebuf = [] then none else some filenamebuf
      else parseFilename n pathname.tail (filenamebuf ++ [pathname.headD 0])

/-- `vfs_parse_pathname`: the volume and file name, or `none` for `VFS_ERROR`. -/
def vfsParsePathname (pathname : List UInt8) : Option (List UInt8 × List UInt8) := do
  let (pathname, volume) ←
    if pathname.headD 0 = '['.toUInt8 then parseVolume (vfsNameLength - 1) pathname.tail []
    else some (pathname, [])
  let filename ← parseFilename vfsNameLength pathname []
  return (volume, filename)

/-! ## Operation counting -/

/-- `vfs_ops` and `vfs_usable`. -/
structure VfsOps where
  vfsOps : ℤ
  vfsUsable : Bool
  deriving DecidableEq, Repr

/-- `vfs_start_op` between its semaphore operations. -/
def startOpBody (s : VfsOps) : ℤ × VfsOps :=
  if s.vfsUsable then (vfsOk, { s with vfsOps := wrap32 (s.vfsOps + 1) }) else (vfsUnusable, s)

/-- `vfs_end_op` between its `semaphore_P` and the next semaphore operation. The result says whether
    that is the `semaphore_V` on `vfs_unmount_sem`. -/
def endOpBody (s : VfsOps) : Except KernelFault (Bool × VfsOps) := do
  let s := { s with vfsOps := wrap32 (s.vfsOps - 1) }
  kernelAssert (0 ≤ s.vfsOps)
  return (!s.vfsUsable && s.vfsOps = 0, s)

/-- The operation that ends is one of those that are counted, so the assertion holds. -/
theorem endOpBody_eq {s : VfsOps} (hlo : 0 < s.vfsOps) (hhi : s.vfsOps ≤ intMax) :
    endOpBody s = .ok (!s.vfsUsable && decide (s.vfsOps - 1 = 0), { s with vfsOps := s.vfsOps - 1 }) := by
  have hwrap : wrap32 (s.vfsOps - 1) = s.vfsOps - 1 :=
    wrap32_of_nonneg (by omega) (by omega)
  simp only [endOpBody, hwrap, kernelAssert]
  rw [if_pos (by omega)]
  rfl

/-! ## Processes -/

/-- The semaphores of the two tables. -/
inductive VfsSem where
  | table | openfile
  deriving DecidableEq, Repr

/-- The calls through an `fs_t`. -/
inductive FsCall where
  | unmount (fs : ℕ)
  | open (fs : ℕ) (filename : List UInt8)
  | close (fs : ℕ) (fileid : ℤ)
  | read (fs : ℕ) (fileid bufsize offset : ℤ)
  | write (fs : ℕ) (fileid datasize offset : ℤ)
  | create (fs : ℕ) (filename : List UInt8) (size : ℤ)
  | remove (fs : ℕ) (filename : List UInt8)
  | getfree (fs : ℕ)
  | filecount (fs : ℕ) (dirname : List UInt8)
  | file (fs : ℕ) (dirname : List UInt8) (idx : ℤ)
  deriving DecidableEq, Repr

/-- A process of the VFS: what a call still has to do. -/
inductive VfsProc (α : Type) : Type
  /-- The call returns. -/
  | done (a : α)
  /-- The kernel has crashed in this call. -/
  | panic
  | startOp (k : ℤ → VfsProc α)
  | endOp (k : VfsProc α)
  | semaphoreP (sem : VfsSem) (k : VfsProc α)
  | semaphoreV (sem : VfsSem) (k : VfsProc α)
  | load (k : VfsTables → VfsProc α)
  | store (f : VfsTables → VfsTables) (k : VfsProc α)
  /-- The check of `vfs_verify_open`. -/
  | verifyOpen (file : ℤ) (k : Bool → VfsProc α)
  /-- A driver call, which returns something. -/
  | driver (call : FsCall) (k : ℤ → VfsProc α)

namespace VfsProc

variable {α β : Type}

protected def bind : VfsProc α → (α → VfsProc β) → VfsProc β
  | done a, f => f a
  | panic, _ => panic
  | startOp k, f => startOp (fun r => (k r).bind f)
  | endOp k, f => endOp (k.bind f)
  | semaphoreP sem k, f => semaphoreP sem (k.bind f)
  | semaphoreV sem k, f => semaphoreV sem (k.bind f)
  | load k, f => load (fun t => (k t).bind f)
  | store g k, f => store g (k.bind f)
  | verifyOpen file k, f => verifyOpen file (fun b => (k b).bind f)
  | driver call k, f => driver call (fun r => (k r).bind f)

instance : Monad VfsProc where
  pure := done
  bind := VfsProc.bind

end VfsProc

/-! ## The operations of the VFS -/

def vfsStartOp : VfsProc ℤ := .startOp .done

def vfsEndOp : VfsProc Unit := .endOp (.done ())

def semP (sem : VfsSem) : VfsProc Unit := .semaphoreP sem (.done ())

def semV (sem : VfsSem) : VfsProc Unit := .semaphoreV sem (.done ())

def loadTables : VfsProc VfsTables := .load .done

def storeTables (f : VfsTables → VfsTables) : VfsProc Unit := .store f (.done ())

def vfsAssert (c : Prop) [Decidable c] : VfsProc Unit := if c then .done () else .panic

/-- Call a driver through the pointer `fs`. -/
def fsCall (fs : Option ℕ) (call : ℕ → FsCall) : VfsProc ℤ :=
  match fs with
  | some fs => .driver (call fs) .done
  | none => .panic

/-- `vfs_verify_open` tests `file < 0 && file >= CONFIG_MAX_OPEN_FILES`, which no `int` satisfies, so
    it goes by the `filesystem` field of the row alone. -/
def vfsVerifyOpen (file : ℤ) : VfsProc Bool := .verifyOpen file .done

/-- `vfs_mount`. -/
def vfsMount (fs : Option ℕ) (name : Option (List UInt8)) : VfsProc ℤ := do
  vfsAssert (name ≠ none ∧ (name.getD []).headD 0 ≠ 0)
  let name := name.getD []
  if (← vfsStartOp) ≠ vfsOk then return vfsUnusable
  semP .table
  let t ← loadTables
  match t.findRow (·.filesystem = none) with
  | none =>
      semV .table
      vfsEndOp
      return vfsLimit
  | some row =>
      if (t.findRow (·.mountpoint = name)).isSome then
        semV .table
        vfsEndOp
        return vfsError
      -- `stringcopy` keeps what fits in front of a terminator
      storeTables (fun t => t.setFilesystem row ⟨fs, name.take (vfsNameLength - 1)⟩)
      semV .table
      vfsEndOp
      return vfsOk

/-- `vfs_unmount`. -/
def vfsUnmount (name : List UInt8) : VfsProc ℤ := do
  if (← vfsStartOp) ≠ vfsOk then return vfsUnusable
  semP .table
  let t ← loadTables
  let row := (t.findRow (·.mountpoint = name)).getD configMaxFilesystems
  let fs := if row < configMaxFilesystems then (t.filesystems row).filesystem else none
  if fs = none then
    semV .table
    vfsEndOp
    return vfsNotFound
  semP .openfile
  let t ← loadTables
  if (t.findFile (·.filesystem = fs)).isSome then
    semV .openfile
    semV .table
    vfsEndOp
    return vfsInUse
  let _ ← fsCall fs .unmount
  storeTables (fun t => t.setFilesystem row { t.filesystems row with filesystem := none })
  semV .openfile
  semV .table
  vfsEndOp
  return vfsOk

/-- `vfs_open`. -/
def vfsOpen (pathname : List UInt8) : VfsProc ℤ := do
  if (← vfsStartOp) ≠ vfsOk then return vfsUnusable
  match vfsParsePathname pathname with
  | none =>
      vfsEndOp
      return vfsError
  | some (volumename, filename) =>
      semP .table
      semP .openfile
      let t ← loadTables
      match t.findFile (·.filesystem = none) with
      | none =>
          semV .openfile
          semV .table
          vfsEndOp
          return vfsLimit
      | some file =>
          let fs := vfsGetFilesystem t volumename
          if fs = none then
            semV .openfile
            semV .table
            vfsEndOp
            return vfsNoSuchFs
          storeTables (fun t => t.setFile file { t.files file with filesystem := fs })
          semV .openfile
          semV .table
          let fileid ← fsCall fs (.open · filename)
          if fileid < 0 then
            semP .openfile
            storeTables (fun t => t.setFile file { t.files file with filesystem := none })
            semV .openfile
            vfsEndOp
            return fileid
          storeTables (fun t => t.setFile file { t.files file with fileid := fileid })
          storeTables (fun t => t.setFile file { t.files file with seekPosition := 0 })
          vfsEndOp
          return file

/-- `vfs_close`. -/
def vfsClose (file : ℤ) : VfsProc ℤ := do
  if (← vfsStartOp) ≠ vfsOk then return vfsUnusable
  semP .openfile
  if !(← vfsVerifyOpen file) then
    semV .openfile
    return vfsInvalidParams
  let t ← loadTables
  let ret ← fsCall (t.files file).filesystem (.close · (t.files file).fileid)
  storeTables (fun t => t.setFile file { t.files file with filesystem := none })
  semV .openfile
  vfsEndOp
  return ret

/-- `vfs_seek`. -/
def vfsSeek (file seekPosition : ℤ) : VfsProc ℤ := do
  if (← vfsStartOp) ≠ vfsOk then return vfsUnusable
  if seekPosition < 0 then return vfsInvalidParams
  semP .openfile
  if !(← vfsVerifyOpen file) then
    semV .openfile
    return vfsInvalidParams
  storeTables (fun t => t.setFile file { t.files file with seekPosition := seekPosition })
  semV .openfile
  vfsEndOp
  return vfsOk

/-- `vfs_read` and `vfs_write`, which differ in the driver function alone. The `buffer` is its
    address. -/
def vfsTransfer (call : ℕ → ℤ → ℤ → ℤ → FsCall) (file : ℤ) (buffer : ℕ) (size : ℤ) :
    VfsProc ℤ := do
  if (← vfsStartOp) ≠ vfsOk then return vfsUnusable
  if !(← vfsVerifyOpen file) then return vfsInvalidParams
  let fs := ((← loadTables).files file).filesystem
  vfsAssert (0 ≤ size ∧ buffer ≠ 0)
  let t ← loadTables
  let ret ← fsCall fs (call · (t.files file).fileid size (t.files file).seekPosition)
  if 0 < ret then
    semP .openfile
    storeTables (fun t => t.setFile file
      { t.files file with seekPosition := wrap32 ((t.files file).seekPosition + ret) })
    semV .openfile
  vfsEndOp
  return ret

/-- `vfs_read`. -/
def vfsRead (file : ℤ) (buffer : ℕ) (bufsize : ℤ) : VfsProc ℤ :=
  vfsTransfer .read file buffer bufsize

/-- `vfs_write`. -/
def vfsWrite (file : ℤ) (buffer : ℕ) (datasize : ℤ) : VfsProc ℤ :=
  vfsTransfer .write file buffer datasize

/-- The part that `vfs_create`, `vfs_remove`, `vfs_getfree`, `vfs_filecount` and `vfs_file` share:
    with the mount table locked, look the volume up and call its driver. -/
def callVolume (volumename : List UInt8) (call : ℕ → FsCall) : VfsProc ℤ := do
  semP .table
  let t ← loadTables
  let fs := vfsGetFilesystem t volumename
  if fs = none then
    semV .table
    vfsEndOp
    return vfsNoSuchFs
  let ret ← fsCall fs call
  semV .table
  vfsEndOp
  return ret

/-- The same for a path name, which is parsed first. -/
def callPath (pathname : List UInt8) (call : ℕ → List UInt8 → FsCall) : VfsProc ℤ :=
  match vfsParsePathname pathname with
  | none => do
      vfsEndOp
      return vfsError
  | some (volumename, filename) => callVolume volumename (call · filename)

/-- `vfs_create`. -/
def vfsCreate (pathname : List UInt8) (size : ℤ) : VfsProc ℤ := do
  if size < 0 then return vfsInvalidParams
  if (← vfsStartOp) ≠ vfsOk then return vfsUnusable
  callPath pathname (.create · · size)

/-- `vfs_remove`. -/
def vfsRemove (pathname : List UInt8) : VfsProc ℤ := do
  if (← vfsStartOp) ≠ vfsOk then return vfsUnusable
  callPath pathname .remove

/-- `vfs_getfree`. -/
def vfsGetfree (filesystem : List UInt8) : VfsProc ℤ := do
  if (← vfsStartOp) ≠ vfsOk then return vfsUnusable
  callVolume filesystem .getfree

/-- `vfs_filecount`. Without a path it counts the mounted rows in front of the first free one. -/
def vfsFilecount (pathname : Option (List UInt8)) : VfsProc ℤ := do
  if (← vfsStartOp) ≠ vfsOk then return vfsUnusable
  match pathname with
  | none =>
      semP .table
      let t ← loadTables
      semV .table
      vfsEndOp
      return ((t.findRow (·.filesystem = none)).getD configMaxFilesystems : ℕ)
  | some pathname => callPath pathname .filecount

/-- The loop of `vfs_file` over the rows: the row it stops at and what is left of the index. -/
def skipMounted (t : VfsTables) : ℕ → ℕ → ℤ → ℕ × ℤ
  | 0, row, idx => (row, idx)
  | n + 1, row, idx =>
      if idx ≠ 0 then
        skipMounted t n (row + 1)
          (if (t.filesystems row).filesystem ≠ none then wrap32 (idx - 1) else idx)
      else (row, idx)

/-- `vfs_file`. What it puts into the caller's buffer is left out. -/
def vfsFile (pathname : Option (List UInt8)) (idx : ℤ) : VfsProc ℤ := do
  if (← vfsStartOp) ≠ vfsOk then return vfsUnusable
  match pathname with
  | none =>
      semP .table
      let t ← loadTables
      if (skipMounted t configMaxFilesystems 0 idx).2 ≠ 0 then
        semV .table
        vfsEndOp
        return vfsError
      semV .table
      vfsEndOp
      return vfsOk
  | some pathname => callPath pathname (.file · · idx)

end Kudos
