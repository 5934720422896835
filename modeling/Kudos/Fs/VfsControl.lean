import Kudos.Fs.VfsAccounting
import Kudos.Library.Mutex

set_option autoImplicit false

/-! # Control points of the calls on open files

`vfs_open`, `vfs_close`, `vfs_read`, `vfs_write` and `vfs_unmount` as flow charts: the points at which
such a call can be interrupted (`VfsPc`), each with what it knows there, and what is left of the call
at it (`VfsPc.proc`). `PcStep` says what each step can do; a thread follows the chart
(`VfsThread.step_pc`), and so does a whole system (`Follows.run`), in which the locks exclude each
other (`Follows.locked`). -/

namespace Kudos

open CInt Mutex

/-! ## What is left of a call -/

/-- Unlock, end the operation and return. -/
def leave : List VfsSem → ℤ → VfsProc ℤ
  | [], ret => .endOp (.done ret)
  | sem :: sems, ret => .semaphoreV sem (leave sems ret)

/-- Take the filesystem out of a row. -/
def VfsTables.clearFile (t : VfsTables) (file : ℤ) : VfsTables :=
  t.setFile file { t.files file with filesystem := none }

namespace VfsProc

def openClear (file ret : ℤ) : VfsProc ℤ := .store (·.clearFile file) (leave [.openfile] ret)

def openSeek (file : ℤ) : VfsProc ℤ :=
  .store (fun t => t.setFile file { t.files file with seekPosition := 0 }) (leave [] file)

def openFileid (file fileid : ℤ) : VfsProc ℤ :=
  .store (fun t => t.setFile file { t.files file with fileid := fileid }) (openSeek file)

def openDriver (file : ℤ) (fs : ℕ) (filename : List UInt8) : VfsProc ℤ :=
  .driver (.open fs filename) fun fileid =>
    if fileid < 0 then .semaphoreP .openfile (openClear file fileid) else openFileid file fileid

def openReserve (file : ℤ) (fs : ℕ) (filename : List UInt8) : VfsProc ℤ :=
  .store (fun t => t.setFile file { t.files file with filesystem := some fs })
    (.semaphoreV .openfile (.semaphoreV .table (openDriver file fs filename)))

def openScan (volumename filename : List UInt8) : VfsProc ℤ :=
  .load fun t =>
    match t.findFile (·.filesystem = none) with
    | none => leave [.openfile, .table] vfsLimit
    | some file =>
        match vfsGetFilesystem t volumename with
        | none => leave [.openfile, .table] vfsNoSuchFs
        | some fs => openReserve file fs filename

def closeClear (file ret : ℤ) : VfsProc ℤ := .store (·.clearFile file) (leave [.openfile] ret)

def closeDriver (file : ℤ) (fs : ℕ) (fileid : ℤ) : VfsProc ℤ :=
  .driver (.close fs fileid) (closeClear file)

def closeLoad (file : ℤ) : VfsProc ℤ :=
  .load fun t =>
    match (t.files file).filesystem with
    | none => .panic
    | some fs => closeDriver file fs (t.files file).fileid

def closeVerify (file : ℤ) : VfsProc ℤ :=
  .verifyOpen file fun b =>
    if b then closeLoad file else .semaphoreV .openfile (.done vfsInvalidParams)

/-- The driver function of `vfs_read` or `vfs_write`. -/
def transferCall (write : Bool) : ℕ → ℤ → ℤ → ℤ → FsCall := if write then .write else .read

def transferStore (file ret : ℤ) : VfsProc ℤ :=
  .store (fun t => t.setFile file
    { t.files file with seekPosition := wrap32 ((t.files file).seekPosition + ret) })
    (leave [.openfile] ret)

def transferDriver (write : Bool) (file : ℤ) (fs : ℕ) (fileid size offset : ℤ) : VfsProc ℤ :=
  .driver (transferCall write fs fileid size offset) fun ret =>
    if 0 < ret then .semaphoreP .openfile (transferStore file ret) else leave [] ret

def transferFileid (write : Bool) (file : ℤ) (fs : Option ℕ) (size : ℤ) : VfsProc ℤ :=
  .load fun t =>
    match fs with
    | none => .panic
    | some fs => transferDriver write file fs (t.files file).fileid size (t.files file).seekPosition

def transferFs (write : Bool) (file : ℤ) (buffer : ℕ) (size : ℤ) : VfsProc ℤ :=
  .load fun t =>
    if 0 ≤ size ∧ buffer ≠ 0 then transferFileid write file (t.files file).filesystem size
    else .panic

def transferVerify (write : Bool) (file : ℤ) (buffer : ℕ) (size : ℤ) : VfsProc ℤ :=
  .verifyOpen file fun b =>
    if b then transferFs write file buffer size else .done vfsInvalidParams

def unmountClear (row : ℕ) : VfsProc ℤ :=
  .store (fun t => t.setFilesystem row { t.filesystems row with filesystem := none })
    (leave [.openfile, .table] vfsOk)

def unmountScan (row fs : ℕ) : VfsProc ℤ :=
  .load fun t =>
    if (t.findFile (·.filesystem = some fs)).isSome then leave [.openfile, .table] vfsInUse
    else .driver (.unmount fs) fun _ => unmountClear row

def unmountRow (name : List UInt8) : VfsProc ℤ :=
  .load fun t =>
    match t.findRow (·.mountpoint = name) with
    | none => leave [.table] vfsNotFound
    | some row =>
        match (t.filesystems row).filesystem with
        | none => leave [.table] vfsNotFound
        | some fs => .semaphoreP .openfile (unmountScan row fs)

end VfsProc

-- the search through 512 rows must not be evaluated to see the shape of a process
attribute [local irreducible] VfsTables.findFile

theorem vfsOpen_eq (pathname : List UInt8) :
    vfsOpen pathname = .startOp fun r =>
      if r ≠ vfsOk then .done vfsUnusable
      else match vfsParsePathname pathname with
        | none => leave [] vfsError
        | some (volumename, filename) =>
            .semaphoreP .table (.semaphoreP .openfile (.openScan volumename filename)) := by
  show VfsProc.startOp _ = VfsProc.startOp _
  congr 1
  funext r
  show (ite _ _ _ : VfsProc ℤ) = _
  split
  · rfl
  · cases vfsParsePathname pathname with
    | none => rfl
    | some path =>
        obtain ⟨volumename, filename⟩ := path
        show VfsProc.semaphoreP _ (.semaphoreP _ (.load _)) = VfsProc.semaphoreP _ (.semaphoreP _ (.load _))
        congr 3
        funext t
        cases hfile : t.findFile (·.filesystem = none) with
        | none =>
            simp only [VfsProc.bind, hfile]
            rfl
        | some file =>
            cases hfs : vfsGetFilesystem t volumename with
            | none =>
                simp only [VfsProc.bind, hfile, hfs, if_true]
                rfl
            | some fs =>
                simp only [VfsProc.bind, hfile, hfs, reduceCtorEq, if_false]
                show VfsProc.store _ (.semaphoreV _ (.semaphoreV _ (.driver _ _))) = _
                congr 4

theorem vfsClose_eq (file : ℤ) :
    vfsClose file = .startOp fun r =>
      if r ≠ vfsOk then .done vfsUnusable else .semaphoreP .openfile (.closeVerify file) := by
  show VfsProc.startOp _ = VfsProc.startOp _
  congr 1
  funext r
  show (ite _ _ _ : VfsProc ℤ) = _
  split
  · rfl
  · show VfsProc.semaphoreP _ (.verifyOpen _ _) = VfsProc.semaphoreP _ (.verifyOpen _ _)
    congr 2
    funext b
    cases b with
    | false => rfl
    | true =>
        show VfsProc.load _ = VfsProc.load _
        congr 1
        funext t
        show (fsCall _ _).bind _ = _
        cases (t.files file).filesystem with
        | none => rfl
        | some fs => rfl

theorem vfsTransfer_eq (write : Bool) (file : ℤ) (buffer : ℕ) (size : ℤ) :
    vfsTransfer (VfsProc.transferCall write) file buffer size = .startOp fun r =>
      if r ≠ vfsOk then .done vfsUnusable else .transferVerify write file buffer size := by
  show VfsProc.startOp _ = VfsProc.startOp _
  congr 1
  funext r
  show (ite _ _ _ : VfsProc ℤ) = _
  split
  · rfl
  · show VfsProc.verifyOpen _ _ = VfsProc.verifyOpen _ _
    congr 1
    funext b
    cases b with
    | false => rfl
    | true =>
        show VfsProc.load _ = VfsProc.load _
        congr 1
        funext t
        show (vfsAssert _).bind _ = _
        unfold vfsAssert
        split
        · show VfsProc.load _ = VfsProc.load _
          congr 1
          funext t'
          show (fsCall _ _).bind _ = _
          cases (t.files file).filesystem with
          | none => rfl
          | some fs => rfl
        · rfl

theorem vfsUnmount_eq (name : List UInt8) :
    vfsUnmount name = .startOp fun r =>
      if r ≠ vfsOk then .done vfsUnusable else .semaphoreP .table (.unmountRow name) := by
  show VfsProc.startOp _ = VfsProc.startOp _
  congr 1
  funext r
  show (ite _ _ _ : VfsProc ℤ) = _
  split
  · rfl
  · show VfsProc.semaphoreP _ (.load _) = VfsProc.semaphoreP _ (.load _)
    congr 2
    funext t
    cases hrow : t.findRow (·.mountpoint = name) with
    | none =>
        simp only [VfsProc.bind, hrow, Option.getD_none, lt_irrefl, if_false, if_true]
        rfl
    | some row =>
        have hlt := (VfsTables.findRow_eq_some hrow).1
        cases hfs : (t.filesystems row).filesystem with
        | none =>
            simp only [VfsProc.bind, hrow, Option.getD_some, hlt, hfs, if_true]
            rfl
        | some fs =>
            simp only [VfsProc.bind, hrow, Option.getD_some, hlt, hfs, if_true, reduceCtorEq, if_false]
            rfl

/-! ## What a process does next -/

def VfsProc.result : VfsProc ℤ → Option ℤ
  | done ret => some ret
  | _ => none

theorem VfsProc.eq_done {p : VfsProc ℤ} {ret : ℤ} (h : p.result = some ret) : p = .done ret := by
  cases p with
  | done ret' =>
      cases h
      rfl
  | _ => cases h

def VfsProc.storing : VfsProc ℤ → Bool
  | store _ _ => true
  | _ => false

/-- A step that stores nothing leaves the tables as they are. -/
theorem VfsThread.step_tables {ι : Type} {th th' : VfsThread} {s s' : VfsSystem ι} {r : ℤ}
    (hproc : th.proc.storing = false) (hstep : th.step s r = some (th', s')) : s'.tables = s.tables := by
  unfold VfsThread.step at hstep
  cases hp : th.proc with
  | done _ | panic =>
      rw [hp] at hstep
      cases hstep
  | startOp _ | semaphoreV _ _ | load _ | verifyOpen _ _ | driver _ _ =>
      rw [hp] at hstep
      cases hstep
      rfl
  | store _ _ =>
      rw [hp] at hproc
      cases hproc
  | endOp k =>
      rw [hp] at hstep
      simp only at hstep
      split at hstep <;> cases hstep <;> rfl
  | semaphoreP sem k =>
      rw [hp] at hstep
      simp only at hstep
      split at hstep
      · cases hstep
        rfl
      · cases hstep

/-! ## Control points -/

/-- Where a call is. -/
inductive VfsPc where
  | returned (ret : ℤ)
  | panic
  /-- Before the locks are given back, the operation ends and the call returns. -/
  | leave (sems : List VfsSem) (ret : ℤ)
  | openStart (pathname : List UInt8)
  | openTable (volumename filename : List UInt8)
  | openFiles (volumename filename : List UInt8)
  | openScan (volumename filename : List UInt8)
  /-- With both tables locked, before the filesystem is put into the row. -/
  | openReserve (file : ℤ) (fs : ℕ) (filename : List UInt8)
  /-- The row is reserved and the locks are given back. -/
  | openUnlockFiles (file : ℤ) (fs : ℕ) (filename : List UInt8)
  | openUnlockTable (file : ℤ) (fs : ℕ) (filename : List UInt8)
  | openDriver (file : ℤ) (fs : ℕ) (filename : List UInt8)
  | openUndo (file ret : ℤ)
  | openClear (file ret : ℤ)
  | openFileid (file fileid : ℤ)
  | openSeek (file : ℤ)
  /-- The row is filled. -/
  | openReturn (file : ℤ)
  | closeStart (file : ℤ)
  | closeLock (file : ℤ)
  | closeVerify (file : ℤ)
  | closeRefuse
  | closeLoad (file : ℤ)
  | closeDriver (file : ℤ) (fs : ℕ) (fileid : ℤ)
  | closeClear (file ret : ℤ)
  | transferStart (write : Bool) (file : ℤ) (buffer : ℕ) (size : ℤ)
  | transferVerify (write : Bool) (file : ℤ) (buffer : ℕ) (size : ℤ)
  | transferFs (write : Bool) (file : ℤ) (buffer : ℕ) (size : ℤ)
  | transferFileid (write : Bool) (file : ℤ) (fs : Option ℕ) (size : ℤ)
  | transferDriver (write : Bool) (file : ℤ) (fs : ℕ) (fileid size offset : ℤ)
  | transferLock (file ret : ℤ)
  | transferStore (file ret : ℤ)
  | unmountStart (name : List UInt8)
  | unmountTable (name : List UInt8)
  | unmountRow (name : List UInt8)
  | unmountFiles (row fs : ℕ)
  | unmountScan (row fs : ℕ)
  | unmountDriver (row fs : ℕ)
  | unmountClear (row fs : ℕ)

namespace VfsPc

/-- What is left of the call. -/
def proc : VfsPc → VfsProc ℤ
  | returned ret => .done ret
  | panic => .panic
  | leave sems ret => Kudos.leave sems ret
  | openStart pathname => vfsOpen pathname
  | openTable volumename filename =>
      .semaphoreP .table (.semaphoreP .openfile (.openScan volumename filename))
  | openFiles volumename filename => .semaphoreP .openfile (.openScan volumename filename)
  | openScan volumename filename => .openScan volumename filename
  | openReserve file fs filename => .openReserve file fs filename
  | openUnlockFiles file fs filename =>
      .semaphoreV .openfile (.semaphoreV .table (.openDriver file fs filename))
  | openUnlockTable file fs filename => .semaphoreV .table (.openDriver file fs filename)
  | openDriver file fs filename => .openDriver file fs filename
  | openUndo file ret => .semaphoreP .openfile (.openClear file ret)
  | openClear file ret => .openClear file ret
  | openFileid file fileid => .openFileid file fileid
  | openSeek file => .openSeek file
  | openReturn file => Kudos.leave [] file
  | closeStart file => vfsClose file
  | closeLock file => .semaphoreP .openfile (.closeVerify file)
  | closeVerify file => .closeVerify file
  | closeRefuse => .semaphoreV .openfile (.done vfsInvalidParams)
  | closeLoad file => .closeLoad file
  | closeDriver file fs fileid => .closeDriver file fs fileid
  | closeClear file ret => .closeClear file ret
  | transferStart write file buffer size => vfsTransfer (VfsProc.transferCall write) file buffer size
  | transferVerify write file buffer size => .transferVerify write file buffer size
  | transferFs write file buffer size => .transferFs write file buffer size
  | transferFileid write file fs size => .transferFileid write file fs size
  | transferDriver write file fs fileid size offset =>
      .transferDriver write file fs fileid size offset
  | transferLock file ret => .semaphoreP .openfile (.transferStore file ret)
  | transferStore file ret => .transferStore file ret
  | unmountStart name => vfsUnmount name
  | unmountTable name => .semaphoreP .table (.unmountRow name)
  | unmountRow name => .unmountRow name
  | unmountFiles row fs => .semaphoreP .openfile (.unmountScan row fs)
  | unmountScan row fs => .unmountScan row fs
  | unmountDriver row fs => .driver (.unmount fs) fun _ => .unmountClear row
  | unmountClear row _ => .unmountClear row

/-- The locks that a call has at the control point. -/
def Holds (sem : VfsSem) : VfsPc → Prop
  | leave sems _ => sem ∈ sems
  | openFiles _ _ | openUnlockTable _ _ _ | unmountRow _ | unmountFiles _ _ => sem = .table
  | openScan _ _ | openReserve _ _ _ | openUnlockFiles _ _ _ | unmountScan _ _ | unmountDriver _ _ | unmountClear _ _ => True
  | openClear _ _ | closeVerify _ | closeRefuse | closeLoad _ | closeDriver _ _ _ | closeClear _ _
  | transferStore _ _ => sem = .openfile
  | _ => False

end VfsPc

/-! ## Steps between control points -/

/-- The tables and their locks. -/
structure VfsShared where
  tables : VfsTables
  sem : VfsSem → ℕ

namespace VfsShared

def acquire (s : VfsShared) (sem : VfsSem) : VfsShared :=
  { s with sem := Function.update s.sem sem (s.sem sem - 1) }

def release (s : VfsShared) (sem : VfsSem) : VfsShared :=
  { s with sem := Function.update s.sem sem (s.sem sem + 1) }

def setFile (s : VfsShared) (file : ℤ) (e : OpenfileEntry) : VfsShared :=
  { s with tables := s.tables.setFile file e }

def clearFilesystem (s : VfsShared) (row : ℕ) : VfsShared :=
  { s with tables :=
    s.tables.setFilesystem row { s.tables.filesystems row with filesystem := none } }

end VfsShared

/-- The steps of the calls; `r` is what a driver returns in the step. -/
inductive PcStep (s : VfsShared) (r : ℤ) : VfsPc → VfsPc → VfsShared → Prop
  | unlock {sem : VfsSem} {sems : List VfsSem} {ret : ℤ} :
      PcStep s r (.leave (sem :: sems) ret) (.leave sems ret) (s.release sem)
  | endOp {ret : ℤ} : PcStep s r (.leave [] ret) (.returned ret) s
  | endPanic {ret : ℤ} : PcStep s r (.leave [] ret) .panic s
  | openUnusable {pathname : List UInt8} :
      PcStep s r (.openStart pathname) (.returned vfsUnusable) s
  | openMalformed {pathname : List UInt8} :
      PcStep s r (.openStart pathname) (.leave [] vfsError) s
  | openStart {pathname volumename filename : List UInt8} :
      PcStep s r (.openStart pathname) (.openTable volumename filename) s
  | openTable {volumename filename : List UInt8} : 0 < s.sem .table →
      PcStep s r (.openTable volumename filename) (.openFiles volumename filename)
        (s.acquire .table)
  | openFiles {volumename filename : List UInt8} : 0 < s.sem .openfile →
      PcStep s r (.openFiles volumename filename) (.openScan volumename filename)
        (s.acquire .openfile)
  | openLimit {volumename filename : List UInt8} :
      s.tables.findFile (·.filesystem = none) = none →
      PcStep s r (.openScan volumename filename) (.leave [.openfile, .table] vfsLimit) s
  | openNoSuchFs {volumename filename : List UInt8} :
      PcStep s r (.openScan volumename filename) (.leave [.openfile, .table] vfsNoSuchFs) s
  | openScan {volumename filename : List UInt8} {file fs : ℕ} :
      s.tables.findFile (·.filesystem = none) = some file →
      vfsGetFilesystem s.tables volumename = some fs →
      PcStep s r (.openScan volumename filename) (.openReserve file fs filename) s
  | openReserve {file : ℤ} {fs : ℕ} {filename : List UInt8} :
      PcStep s r (.openReserve file fs filename) (.openUnlockFiles file fs filename)
        (s.setFile file { s.tables.files file with filesystem := some fs })
  | openUnlockFiles {file : ℤ} {fs : ℕ} {filename : List UInt8} :
      PcStep s r (.openUnlockFiles file fs filename) (.openUnlockTable file fs filename)
        (s.release .openfile)
  | openUnlockTable {file : ℤ} {fs : ℕ} {filename : List UInt8} :
      PcStep s r (.openUnlockTable file fs filename) (.openDriver file fs filename)
        (s.release .table)
  | openFail {file : ℤ} {fs : ℕ} {filename : List UInt8} : r < 0 →
      PcStep s r (.openDriver file fs filename) (.openUndo file r) s
  | openDriver {file : ℤ} {fs : ℕ} {filename : List UInt8} : 0 ≤ r →
      PcStep s r (.openDriver file fs filename) (.openFileid file r) s
  | openUndo {file ret : ℤ} : 0 < s.sem .openfile →
      PcStep s r (.openUndo file ret) (.openClear file ret) (s.acquire .openfile)
  | openClear {file ret : ℤ} :
      PcStep s r (.openClear file ret) (.leave [.openfile] ret)
        (s.setFile file { s.tables.files file with filesystem := none })
  | openFileid {file fileid : ℤ} :
      PcStep s r (.openFileid file fileid) (.openSeek file)
        (s.setFile file { s.tables.files file with fileid := fileid })
  | openSeek {file : ℤ} :
      PcStep s r (.openSeek file) (.openReturn file)
        (s.setFile file { s.tables.files file with seekPosition := 0 })
  | openReturn {file : ℤ} : PcStep s r (.openReturn file) (.returned file) s
  | openPanic {file : ℤ} : PcStep s r (.openReturn file) .panic s
  | closeUnusable {file : ℤ} : PcStep s r (.closeStart file) (.returned vfsUnusable) s
  | closeStart {file : ℤ} : PcStep s r (.closeStart file) (.closeLock file) s
  | closeLock {file : ℤ} : 0 < s.sem .openfile →
      PcStep s r (.closeLock file) (.closeVerify file) (s.acquire .openfile)
  | closeInvalid {file : ℤ} : (s.tables.files file).filesystem = none →
      PcStep s r (.closeVerify file) .closeRefuse s
  | closeVerify {file : ℤ} : (s.tables.files file).filesystem ≠ none →
      PcStep s r (.closeVerify file) (.closeLoad file) s
  | closeRefuse : PcStep s r .closeRefuse (.returned vfsInvalidParams) (s.release .openfile)
  | closePanic {file : ℤ} : PcStep s r (.closeLoad file) .panic s
  | closeLoad {file : ℤ} {fs : ℕ} : (s.tables.files file).filesystem = some fs →
      PcStep s r (.closeLoad file) (.closeDriver file fs (s.tables.files file).fileid) s
  | closeDriver {file fileid : ℤ} {fs : ℕ} :
      PcStep s r (.closeDriver file fs fileid) (.closeClear file r) s
  | closeClear {file ret : ℤ} :
      PcStep s r (.closeClear file ret) (.leave [.openfile] ret)
        (s.setFile file { s.tables.files file with filesystem := none })
  | transferUnusable {write : Bool} {file : ℤ} {buffer : ℕ} {size : ℤ} :
      PcStep s r (.transferStart write file buffer size) (.returned vfsUnusable) s
  | transferStart {write : Bool} {file : ℤ} {buffer : ℕ} {size : ℤ} :
      PcStep s r (.transferStart write file buffer size) (.transferVerify write file buffer size) s
  | transferInvalid {write : Bool} {file : ℤ} {buffer : ℕ} {size : ℤ} :
      PcStep s r (.transferVerify write file buffer size) (.returned vfsInvalidParams) s
  | transferVerify {write : Bool} {file : ℤ} {buffer : ℕ} {size : ℤ} :
      (s.tables.files file).filesystem ≠ none →
      PcStep s r (.transferVerify write file buffer size) (.transferFs write file buffer size) s
  | transferAssert {write : Bool} {file : ℤ} {buffer : ℕ} {size : ℤ} :
      PcStep s r (.transferFs write file buffer size) .panic s
  | transferFs {write : Bool} {file : ℤ} {buffer : ℕ} {size : ℤ} :
      PcStep s r (.transferFs write file buffer size)
        (.transferFileid write file (s.tables.files file).filesystem size) s
  | transferPanic {write : Bool} {file size : ℤ} :
      PcStep s r (.transferFileid write file none size) .panic s
  | transferFileid {write : Bool} {file size : ℤ} {fs : ℕ} :
      PcStep s r (.transferFileid write file (some fs) size)
        (.transferDriver write file fs (s.tables.files file).fileid size
          (s.tables.files file).seekPosition) s
  | transferDriver {write : Bool} {file fileid size offset : ℤ} {fs : ℕ} : 0 < r →
      PcStep s r (.transferDriver write file fs fileid size offset) (.transferLock file r) s
  | transferFail {write : Bool} {file fileid size offset : ℤ} {fs : ℕ} :
      PcStep s r (.transferDriver write file fs fileid size offset) (.leave [] r) s
  | transferLock {file ret : ℤ} : 0 < s.sem .openfile →
      PcStep s r (.transferLock file ret) (.transferStore file ret) (s.acquire .openfile)
  | transferStore {file ret : ℤ} :
      PcStep s r (.transferStore file ret) (.leave [.openfile] ret)
        (s.setFile file { s.tables.files file with
          seekPosition := wrap32 ((s.tables.files file).seekPosition + ret) })
  | unmountUnusable {name : List UInt8} :
      PcStep s r (.unmountStart name) (.returned vfsUnusable) s
  | unmountStart {name : List UInt8} : PcStep s r (.unmountStart name) (.unmountTable name) s
  | unmountTable {name : List UInt8} : 0 < s.sem .table →
      PcStep s r (.unmountTable name) (.unmountRow name) (s.acquire .table)
  | unmountNotFound {name : List UInt8} :
      PcStep s r (.unmountRow name) (.leave [.table] vfsNotFound) s
  | unmountRow {name : List UInt8} {row fs : ℕ} : row < configMaxFilesystems →
      (s.tables.filesystems row).filesystem = some fs →
      PcStep s r (.unmountRow name) (.unmountFiles row fs) s
  | unmountFiles {row fs : ℕ} : 0 < s.sem .openfile →
      PcStep s r (.unmountFiles row fs) (.unmountScan row fs) (s.acquire .openfile)
  | unmountInUse {row fs : ℕ} :
      PcStep s r (.unmountScan row fs) (.leave [.openfile, .table] vfsInUse) s
  | unmountScan {row fs : ℕ} : s.tables.findFile (·.filesystem = some fs) = none →
      PcStep s r (.unmountScan row fs) (.unmountDriver row fs) s
  | unmountDriver {row fs : ℕ} : PcStep s r (.unmountDriver row fs) (.unmountClear row fs) s
  | unmountClear {row fs : ℕ} :
      PcStep s r (.unmountClear row fs) (.leave [.openfile, .table] vfsOk)
        (s.clearFilesystem row)

section

variable {ι : Type} {th th' : VfsThread} {s s' : VfsSystem ι} {r : ℤ} {pc : VfsPc}

def VfsSystem.shared (s : VfsSystem ι) : VfsShared := ⟨s.tables, s.sem⟩

/-- What a step leaves alone: the call of the thread and the other threads. -/
theorem VfsThread.step_frame (h : th.step s r = some (th', s')) :
    th'.call = th.call ∧ s'.threads = s.threads := by
  unfold VfsThread.step at h
  split at h
  all_goals try split at h
  all_goals cases h; try exact ⟨rfl, rfl⟩

theorem VfsThread.step_semaphoreP {sem : VfsSem} {k : VfsProc ℤ} (hproc : th.proc = .semaphoreP sem k)
    (h : th.step s r = some (th', s')) :
    0 < s.shared.sem sem ∧ th'.proc = k ∧ s'.shared = s.shared.acquire sem := by
  simp only [VfsThread.step, hproc] at h
  split at h
  · next hpos =>
      cases h
      exact ⟨hpos, rfl, rfl⟩
  · cases h

theorem VfsThread.step_semaphoreV {sem : VfsSem} {k : VfsProc ℤ} (hproc : th.proc = .semaphoreV sem k)
    (h : th.step s r = some (th', s')) :
    th'.proc = k ∧ s'.shared = s.shared.release sem := by
  simp only [VfsThread.step, hproc] at h
  cases h
  exact ⟨rfl, rfl⟩

theorem VfsThread.step_load {k : VfsTables → VfsProc ℤ} (hproc : th.proc = .load k)
    (h : th.step s r = some (th', s')) :
    th'.proc = k s.shared.tables ∧ s'.shared = s.shared := by
  simp only [VfsThread.step, hproc] at h
  cases h
  exact ⟨rfl, rfl⟩

theorem VfsThread.step_store {f : VfsTables → VfsTables} {k : VfsProc ℤ}
    (hproc : th.proc = .store f k) (h : th.step s r = some (th', s')) :
    th'.proc = k ∧ s'.shared = { s.shared with tables := f s.shared.tables } := by
  simp only [VfsThread.step, hproc] at h
  cases h
  exact ⟨rfl, rfl⟩

theorem VfsThread.step_verifyOpen {file : ℤ} {k : Bool → VfsProc ℤ}
    (hproc : th.proc = .verifyOpen file k) (h : th.step s r = some (th', s')) :
    th'.proc = k ((s.shared.tables.files file).filesystem ≠ none) ∧ s'.shared = s.shared := by
  simp only [VfsThread.step, hproc] at h
  cases h
  exact ⟨rfl, rfl⟩

theorem VfsThread.step_driver {call : FsCall} {k : ℤ → VfsProc ℤ} (hproc : th.proc = .driver call k)
    (h : th.step s r = some (th', s')) : th'.proc = k r ∧ s'.shared = s.shared := by
  simp only [VfsThread.step, hproc] at h
  cases h
  exact ⟨rfl, rfl⟩

theorem VfsThread.step_startOp {k : ℤ → VfsProc ℤ} (hproc : th.proc = .startOp k)
    (h : th.step s r = some (th', s')) :
    (th'.proc = k vfsOk ∨ th'.proc = k vfsUnusable) ∧ s'.shared = s.shared := by
  simp only [VfsThread.step, hproc, startOpBody] at h
  split at h
  · cases h
    exact ⟨Or.inl rfl, rfl⟩
  · cases h
    exact ⟨Or.inr rfl, rfl⟩

theorem VfsThread.step_endOp {k : VfsProc ℤ} (hproc : th.proc = .endOp k)
    (h : th.step s r = some (th', s')) :
    (th'.proc = k ∨ th'.proc = .panic) ∧ s'.shared = s.shared := by
  simp only [VfsThread.step, hproc] at h
  split at h
  · cases h
    exact ⟨Or.inl rfl, rfl⟩
  · cases h
    exact ⟨Or.inr rfl, rfl⟩

end

section

variable {ι : Type} {th th' : VfsThread} {s s' : VfsSystem ι} {r file : ℤ} {pc pc' : VfsPc}

theorem VfsThread.step_leave {sems : List VfsSem} {ret : ℤ} (hproc : th.proc = leave sems ret)
    (h : th.step s r = some (th', s')) :
    ∃ pc', PcStep s.shared r (.leave sems ret) pc' s'.shared ∧ th'.proc = pc'.proc := by
  cases sems with
  | nil =>
      obtain ⟨hth, hs⟩ := VfsThread.step_endOp hproc h
      rw [hs]
      rcases hth with hth | hth
      · exact ⟨.returned ret, .endOp, hth⟩
      · exact ⟨.panic, .endPanic, hth⟩
  | cons sem sems =>
      obtain ⟨hth, hs⟩ := VfsThread.step_semaphoreV hproc h
      rw [hs]
      exact ⟨.leave sems ret, .unlock, hth⟩

theorem VfsThread.step_open_start {pathname : List UInt8} (hproc : th.proc = vfsOpen pathname)
    (h : th.step s r = some (th', s')) :
    ∃ pc', PcStep s.shared r (.openStart pathname) pc' s'.shared ∧ th'.proc = pc'.proc := by
  rw [vfsOpen_eq] at hproc
  obtain ⟨hth, hs⟩ := VfsThread.step_startOp hproc h
  rw [hs]
  rcases hth with hth | hth
  · simp only [ne_eq, not_true_eq_false, if_false] at hth
    cases hpath : vfsParsePathname pathname with
    | none =>
        simp only [hpath] at hth
        exact ⟨.leave [] vfsError, .openMalformed, hth⟩
    | some path =>
        obtain ⟨volumename, filename⟩ := path
        simp only [hpath] at hth
        exact ⟨.openTable volumename filename, .openStart, hth⟩
  · exact ⟨.returned vfsUnusable, .openUnusable, hth⟩

theorem VfsThread.step_open_scan {volumename filename : List UInt8}
    (hproc : th.proc = .openScan volumename filename) (h : th.step s r = some (th', s')) :
    ∃ pc', PcStep s.shared r (.openScan volumename filename) pc' s'.shared ∧
      th'.proc = pc'.proc := by
  obtain ⟨hth, hs⟩ := VfsThread.step_load hproc h
  rw [hs]
  cases hfile : s.shared.tables.findFile (·.filesystem = none) with
  | none =>
      simp only [hfile] at hth
      exact ⟨_, .openLimit hfile, hth⟩
  | some file =>
      cases hfs : vfsGetFilesystem s.shared.tables volumename with
      | none =>
          simp only [hfile, hfs] at hth
          exact ⟨_, .openNoSuchFs, hth⟩
      | some fs =>
          simp only [hfile, hfs] at hth
          exact ⟨_, .openScan hfile hfs, hth⟩

/-- The steps of `vfs_unmount` between its two scans. -/
theorem VfsThread.step_unmount_row {name : List UInt8} (hproc : th.proc = .unmountRow name)
    (h : th.step s r = some (th', s')) :
    ∃ pc', PcStep s.shared r (.unmountRow name) pc' s'.shared ∧ th'.proc = pc'.proc := by
  obtain ⟨hth, hs⟩ := VfsThread.step_load hproc h
  rw [hs]
  cases hrow : s.shared.tables.findRow (·.mountpoint = name) with
  | none =>
      simp only [hrow] at hth
      exact ⟨_, .unmountNotFound, hth⟩
  | some row =>
      cases hfs : (s.shared.tables.filesystems row).filesystem with
      | none =>
          simp only [hrow, hfs] at hth
          exact ⟨_, .unmountNotFound, hth⟩
      | some fs =>
          simp only [hrow, hfs] at hth
          exact ⟨.unmountFiles row fs, .unmountRow (VfsTables.findRow_eq_some hrow).1 hfs, hth⟩

theorem VfsThread.step_open_driver {fs : ℕ} {filename : List UInt8}
    (hproc : th.proc = .openDriver file fs filename) (h : th.step s r = some (th', s')) :
    ∃ pc', PcStep s.shared r (.openDriver file fs filename) pc' s'.shared ∧ th'.proc = pc'.proc := by
  obtain ⟨hth, hs⟩ := VfsThread.step_driver hproc h
  rw [hs]
  by_cases hr : r < 0
  · rw [if_pos hr] at hth
    exact ⟨.openUndo file r, .openFail hr, hth⟩
  · rw [if_neg hr] at hth
    exact ⟨.openFileid file r, .openDriver (not_lt.1 hr), hth⟩

theorem VfsThread.step_close_verify (hproc : th.proc = .closeVerify file)
    (h : th.step s r = some (th', s')) :
    ∃ pc', PcStep s.shared r (.closeVerify file) pc' s'.shared ∧ th'.proc = pc'.proc := by
  obtain ⟨hth, hs⟩ := VfsThread.step_verifyOpen hproc h
  rw [hs]
  by_cases hopen : (s.shared.tables.files file).filesystem = none
  · rw [decide_eq_false (not_not.2 hopen)] at hth
    exact ⟨.closeRefuse, .closeInvalid hopen, hth⟩
  · rw [decide_eq_true hopen] at hth
    exact ⟨.closeLoad file, .closeVerify hopen, hth⟩

theorem VfsThread.step_close_load (hproc : th.proc = .closeLoad file)
    (h : th.step s r = some (th', s')) :
    ∃ pc', PcStep s.shared r (.closeLoad file) pc' s'.shared ∧ th'.proc = pc'.proc := by
  obtain ⟨hth, hs⟩ := VfsThread.step_load hproc h
  rw [hs]
  cases hfs : (s.shared.tables.files file).filesystem with
  | none =>
      simp only [hfs] at hth
      exact ⟨.panic, .closePanic, hth⟩
  | some fs =>
      simp only [hfs] at hth
      exact ⟨_, .closeLoad hfs, hth⟩

theorem VfsThread.step_transfer_verify {write : Bool} {buffer : ℕ} {size : ℤ}
    (hproc : th.proc = .transferVerify write file buffer size) (h : th.step s r = some (th', s')) :
    ∃ pc', PcStep s.shared r (.transferVerify write file buffer size) pc' s'.shared ∧
      th'.proc = pc'.proc := by
  obtain ⟨hth, hs⟩ := VfsThread.step_verifyOpen hproc h
  rw [hs]
  by_cases hopen : (s.shared.tables.files file).filesystem = none
  · rw [decide_eq_false (not_not.2 hopen)] at hth
    exact ⟨.returned vfsInvalidParams, .transferInvalid, hth⟩
  · rw [decide_eq_true hopen] at hth
    exact ⟨.transferFs write file buffer size, .transferVerify hopen, hth⟩

theorem VfsThread.step_transfer_fs {write : Bool} {buffer : ℕ} {size : ℤ}
    (hproc : th.proc = .transferFs write file buffer size) (h : th.step s r = some (th', s')) :
    ∃ pc', PcStep s.shared r (.transferFs write file buffer size) pc' s'.shared ∧
      th'.proc = pc'.proc := by
  obtain ⟨hth, hs⟩ := VfsThread.step_load hproc h
  rw [hs]
  by_cases hparam : 0 ≤ size ∧ buffer ≠ 0
  · rw [if_pos hparam] at hth
    exact ⟨_, .transferFs, hth⟩
  · rw [if_neg hparam] at hth
    exact ⟨.panic, .transferAssert, hth⟩

theorem VfsThread.step_transfer_driver {write : Bool} {fs : ℕ} {fileid size offset : ℤ}
    (hproc : th.proc = .transferDriver write file fs fileid size offset)
    (h : th.step s r = some (th', s')) :
    ∃ pc', PcStep s.shared r (.transferDriver write file fs fileid size offset) pc' s'.shared ∧
      th'.proc = pc'.proc := by
  obtain ⟨hth, hs⟩ := VfsThread.step_driver hproc h
  rw [hs]
  by_cases hr : 0 < r
  · rw [if_pos hr] at hth
    exact ⟨.transferLock file r, .transferDriver hr, hth⟩
  · rw [if_neg hr] at hth
    exact ⟨.leave [] r, .transferFail, hth⟩

theorem VfsThread.step_unmount_scan {row fs : ℕ} (hproc : th.proc = .unmountScan row fs)
    (h : th.step s r = some (th', s')) :
    ∃ pc', PcStep s.shared r (.unmountScan row fs) pc' s'.shared ∧ th'.proc = pc'.proc := by
  obtain ⟨hth, hs⟩ := VfsThread.step_load hproc h
  rw [hs]
  cases hfile : s.shared.tables.findFile (·.filesystem = some fs) with
  | some file =>
      simp only [hfile, Option.isSome_some, if_true] at hth
      exact ⟨_, .unmountInUse, hth⟩
  | none =>
      simp only [hfile, Option.isSome_none, Bool.false_eq_true, if_false] at hth
      exact ⟨.unmountDriver row fs, .unmountScan hfile, hth⟩

/-! ### Control points with one successor -/

theorem VfsThread.follow_semaphoreP {sem : VfsSem} {k : VfsProc ℤ} (hproc : th.proc = .semaphoreP sem k)
    (h : th.step s r = some (th', s'))
    (hpc : 0 < s.shared.sem sem → PcStep s.shared r pc pc' (s.shared.acquire sem)) (hk : k = pc'.proc) :
    ∃ pc', PcStep s.shared r pc pc' s'.shared ∧ th'.proc = pc'.proc := by
  obtain ⟨hpos, hth, hs⟩ := VfsThread.step_semaphoreP hproc h
  rw [hs]
  exact ⟨pc', hpc hpos, hth.trans hk⟩

theorem VfsThread.follow_semaphoreV {sem : VfsSem} {k : VfsProc ℤ} (hproc : th.proc = .semaphoreV sem k)
    (h : th.step s r = some (th', s')) (hpc : PcStep s.shared r pc pc' (s.shared.release sem))
    (hk : k = pc'.proc) : ∃ pc', PcStep s.shared r pc pc' s'.shared ∧ th'.proc = pc'.proc := by
  obtain ⟨hth, hs⟩ := VfsThread.step_semaphoreV hproc h
  rw [hs]
  exact ⟨pc', hpc, hth.trans hk⟩

theorem VfsThread.follow_store {f : VfsTables → VfsTables} {k : VfsProc ℤ}
    (hproc : th.proc = .store f k) (h : th.step s r = some (th', s'))
    (hpc : PcStep s.shared r pc pc' { s.shared with tables := f s.shared.tables }) (hk : k = pc'.proc) :
    ∃ pc', PcStep s.shared r pc pc' s'.shared ∧ th'.proc = pc'.proc := by
  obtain ⟨hth, hs⟩ := VfsThread.step_store hproc h
  rw [hs]
  exact ⟨pc', hpc, hth.trans hk⟩

theorem VfsThread.follow_driver {call : FsCall} {k : ℤ → VfsProc ℤ} (hproc : th.proc = .driver call k)
    (h : th.step s r = some (th', s')) (hpc : PcStep s.shared r pc pc' s.shared) (hk : k r = pc'.proc) :
    ∃ pc', PcStep s.shared r pc pc' s'.shared ∧ th'.proc = pc'.proc := by
  obtain ⟨hth, hs⟩ := VfsThread.step_driver hproc h
  rw [hs]
  exact ⟨pc', hpc, hth.trans hk⟩

/-- The first step of a call, which is refused when the VFS is not usable. -/
theorem VfsThread.follow_startOp {k : ℤ → VfsProc ℤ} {pc'' : VfsPc} (hproc : th.proc = .startOp k)
    (h : th.step s r = some (th', s')) (hpc : PcStep s.shared r pc pc' s.shared)
    (hpc' : PcStep s.shared r pc pc'' s.shared) (hk : k vfsOk = pc'.proc)
    (hk' : k vfsUnusable = pc''.proc) :
    ∃ pc', PcStep s.shared r pc pc' s'.shared ∧ th'.proc = pc'.proc := by
  obtain ⟨hth, hs⟩ := VfsThread.step_startOp hproc h
  rw [hs]
  rcases hth with hth | hth
  · exact ⟨pc', hpc, hth.trans hk⟩
  · exact ⟨pc'', hpc', hth.trans hk'⟩

/-- A thread takes a step from its control point to the next one. -/
theorem VfsThread.step_pc (hproc : th.proc = pc.proc) (h : th.step s r = some (th', s')) :
    ∃ pc', PcStep s.shared r pc pc' s'.shared ∧ th'.proc = pc'.proc := by
  cases pc with
  | returned _ | panic =>
      simp only [VfsThread.step, hproc, VfsPc.proc] at h
      cases h
  | leave sems ret => exact VfsThread.step_leave hproc h
  | openStart pathname => exact VfsThread.step_open_start hproc h
  | openTable _ _ => exact VfsThread.follow_semaphoreP hproc h .openTable rfl
  | openFiles _ _ => exact VfsThread.follow_semaphoreP hproc h .openFiles rfl
  | openScan volumename filename => exact VfsThread.step_open_scan hproc h
  | openReserve _ _ _ => exact VfsThread.follow_store hproc h .openReserve rfl
  | openUnlockFiles _ _ _ => exact VfsThread.follow_semaphoreV hproc h .openUnlockFiles rfl
  | openUnlockTable _ _ _ => exact VfsThread.follow_semaphoreV hproc h .openUnlockTable rfl
  | openDriver _ _ _ => exact VfsThread.step_open_driver hproc h
  | openUndo _ _ => exact VfsThread.follow_semaphoreP hproc h .openUndo rfl
  | openClear _ _ => exact VfsThread.follow_store hproc h .openClear rfl
  | openFileid _ _ => exact VfsThread.follow_store hproc h .openFileid rfl
  | openSeek _ => exact VfsThread.follow_store hproc h .openSeek rfl
  | openReturn file =>
      obtain ⟨hth, hs⟩ := VfsThread.step_endOp hproc h
      rw [hs]
      rcases hth with hth | hth
      · exact ⟨.returned file, .openReturn, hth⟩
      · exact ⟨.panic, .openPanic, hth⟩
  | closeStart file =>
      rw [VfsPc.proc, vfsClose_eq] at hproc
      exact VfsThread.follow_startOp hproc h .closeStart .closeUnusable rfl rfl
  | closeLock _ => exact VfsThread.follow_semaphoreP hproc h .closeLock rfl
  | closeVerify _ => exact VfsThread.step_close_verify hproc h
  | closeRefuse => exact VfsThread.follow_semaphoreV hproc h .closeRefuse rfl
  | closeLoad _ => exact VfsThread.step_close_load hproc h
  | closeDriver _ _ _ => exact VfsThread.follow_driver hproc h .closeDriver rfl
  | closeClear _ _ => exact VfsThread.follow_store hproc h .closeClear rfl
  | transferStart _ _ _ _ =>
      rw [VfsPc.proc, vfsTransfer_eq] at hproc
      exact VfsThread.follow_startOp hproc h .transferStart .transferUnusable rfl rfl
  | transferVerify _ _ _ _ => exact VfsThread.step_transfer_verify hproc h
  | transferFs _ _ _ _ => exact VfsThread.step_transfer_fs hproc h
  | transferFileid write file fs size =>
      obtain ⟨hth, hs⟩ := VfsThread.step_load hproc h
      rw [hs]
      cases fs with
      | none => exact ⟨.panic, .transferPanic, hth⟩
      | some fs => exact ⟨_, .transferFileid, hth⟩
  | transferDriver _ _ _ _ _ _ => exact VfsThread.step_transfer_driver hproc h
  | transferLock _ _ => exact VfsThread.follow_semaphoreP hproc h .transferLock rfl
  | transferStore _ _ => exact VfsThread.follow_store hproc h .transferStore rfl
  | unmountStart name =>
      rw [VfsPc.proc, vfsUnmount_eq] at hproc
      exact VfsThread.follow_startOp hproc h .unmountStart .unmountUnusable rfl rfl
  | unmountTable _ => exact VfsThread.follow_semaphoreP hproc h .unmountTable rfl
  | unmountRow name => exact VfsThread.step_unmount_row hproc h
  | unmountFiles _ _ => exact VfsThread.follow_semaphoreP hproc h .unmountFiles rfl
  | unmountScan _ _ => exact VfsThread.step_unmount_scan hproc h
  | unmountDriver _ _ => exact VfsThread.follow_driver hproc h .unmountDriver rfl
  | unmountClear _ _ => exact VfsThread.follow_store hproc h .unmountClear rfl

end

/-! ## Locks -/

/-- No lock is given back twice. -/
def VfsPc.Wf : VfsPc → Prop
  | leave sems _ => sems.Nodup
  | _ => True

theorem PcStep.wf {s s' : VfsShared} {r : ℤ} {pc pc' : VfsPc} (h : PcStep s r pc pc' s')
    (hwf : pc.Wf) : pc'.Wf := by
  cases h with
  | unlock => exact (List.nodup_cons.1 hwf).2
  | openLimit _ => exact (by decide : [VfsSem.openfile, VfsSem.table].Nodup)
  | openNoSuchFs | unmountInUse | unmountClear =>
      exact (by decide : [VfsSem.openfile, VfsSem.table].Nodup)
  | openClear | closeClear | transferStore | unmountNotFound => exact List.nodup_singleton _
  | openMalformed | transferFail => exact List.nodup_nil
  | _ => trivial

/-- What a step does to a lock: nothing, or the call takes it, or the call gives it back. -/
inductive LockStep (sem : VfsSem) (pc pc' : VfsPc) (value : ℕ) : ℕ → Prop
  | keep : (pc'.Holds sem → pc.Holds sem) → LockStep sem pc pc' value value
  | acquire : 0 < value → LockStep sem pc pc' value (value - 1)
  | release : pc.Holds sem → ¬ pc'.Holds sem → LockStep sem pc pc' value (value + 1)

theorem lockStep_acquire {s : VfsShared} {sem' : VfsSem} {pc pc' : VfsPc} (hpos : 0 < s.sem sem')
    (hother : ∀ sem, sem ≠ sem' → pc'.Holds sem → pc.Holds sem)
    (sem : VfsSem) : LockStep sem pc pc' (s.sem sem) ((s.acquire sem').sem sem) := by
  unfold VfsShared.acquire
  by_cases hsem : sem = sem'
  · subst hsem
    simp only [Function.update_self]
    exact .acquire hpos
  · simp only [Function.update_of_ne hsem]
    exact .keep (hother sem hsem)

theorem lockStep_release {s : VfsShared} {sem' : VfsSem} {pc pc' : VfsPc} (hold : pc.Holds sem')
    (hnew : ¬ pc'.Holds sem') (hother : ∀ sem, pc'.Holds sem → pc.Holds sem)
    (sem : VfsSem) : LockStep sem pc pc' (s.sem sem) ((s.release sem').sem sem) := by
  unfold VfsShared.release
  by_cases hsem : sem = sem'
  · subst hsem
    simp only [Function.update_self]
    exact .release hold hnew
  · simp only [Function.update_of_ne hsem]
    exact .keep (hother sem)

theorem VfsSem.eq_table {sem : VfsSem} (h : sem ≠ .openfile) : sem = .table := by
  cases sem with
  | table => rfl
  | openfile => exact absurd rfl h

/-- The locks of a call are those that its control point says it has. -/
theorem PcStep.lock {s s' : VfsShared} {r : ℤ} {pc pc' : VfsPc} (h : PcStep s r pc pc' s')
    (hwf : pc.Wf) (sem : VfsSem) : LockStep sem pc pc' (s.sem sem) (s'.sem sem) := by
  cases h with
  | unlock =>
      refine lockStep_release ?_ ?_ (fun sem' => ?_) sem
      · exact List.mem_cons_self
      · exact (List.nodup_cons.1 hwf).1
      · exact List.mem_cons_of_mem _
  | openTable hpos | unmountTable hpos | openUndo hpos | closeLock hpos | transferLock hpos =>
      refine lockStep_acquire hpos (fun sem' hne hholds => ?_) sem
      exact hne hholds
  | openFiles hpos | unmountFiles hpos =>
      refine lockStep_acquire hpos (fun sem' hne _ => ?_) sem
      exact VfsSem.eq_table hne
  | openUnlockFiles =>
      refine lockStep_release ?_ ?_ (fun sem' _ => ?_) sem
      · trivial
      · nofun
      · trivial
  | openUnlockTable | closeRefuse =>
      refine lockStep_release ?_ ?_ (fun sem' hholds => ?_) sem
      · rfl
      · exact id
      · exact hholds.elim
  | openLimit _ => exact .keep fun _ => trivial
  | openNoSuchFs | unmountInUse | unmountClear => exact .keep fun _ => trivial
  | openClear | closeClear | transferStore | unmountNotFound => exact .keep List.mem_singleton.1
  | openMalformed | transferFail => exact .keep fun hmem => absurd hmem List.not_mem_nil
  | endOp | endPanic | closePanic => exact .keep False.elim
  | _ => exact .keep id

/-! ## Systems -/

section

variable {ι : Type} [DecidableEq ι] {s s' : VfsSystem ι} {pcs : ι → VfsPc} {i : ι}

/-- The control point at which a call starts. -/
def VfsCall.start : VfsCall → Option VfsPc
  | .open pathname => some (.openStart pathname)
  | .close handle => some (.closeStart handle)
  | .read handle buffer bufsize => some (.transferStart false handle buffer bufsize)
  | .write handle buffer datasize => some (.transferStart true handle buffer datasize)
  | .unmount name => some (.unmountStart name)
  | _ => none

theorem VfsCall.start_proc {c : VfsCall} {pc : VfsPc} (h : c.start = some pc) : c.body = pc.proc := by
  cases c with
  | «open» _ | close _ | read _ _ _ | write _ _ _ | unmount _ =>
      cases h
      rfl
  | mount _ _ | seek _ _ | create _ _ | remove _ | getfree _ | filecount _ | file _ _ => cases h

/-- Each thread is at its control point, and has the locks that the point says. -/
structure Follows (s : VfsSystem ι) (pcs : ι → VfsPc) : Prop where
  thread : ∀ i, ∀ th ∈ s.threads i, th.proc = (pcs i).proc
  idle : ∀ i, s.threads i = none → ∃ ret, pcs i = .returned ret
  wf : ∀ i, (pcs i).Wf
  locked : ∀ sem, Guarded (VfsPc.Holds sem) pcs (s.sem sem)

/-- Only the end of a call has nothing left to do. -/
theorem VfsPc.eq_returned {pc : VfsPc} {ret : ℤ} (h : pc.proc = .done ret) : pc = .returned ret := by
  cases pc with
  | returned ret' =>
      cases h
      rfl
  | leave sems ret' =>
      cases sems with
      | nil => cases h
      | cons sem sems => cases h
  | openStart pathname =>
      rw [VfsPc.proc, vfsOpen_eq] at h
      cases h
  | closeStart file =>
      rw [VfsPc.proc, vfsClose_eq] at h
      cases h
  | transferStart write file buffer size =>
      rw [VfsPc.proc, vfsTransfer_eq] at h
      cases h
  | unmountStart name =>
      rw [VfsPc.proc, vfsUnmount_eq] at h
      cases h
  | _ => cases h

/-- The control points at which a call is in a driver function. -/
theorem VfsPc.driver_cases {pc : VfsPc} {call : FsCall} {k : ℤ → VfsProc ℤ}
    (h : pc.proc = .driver call k) :
    (∃ file fs filename, pc = .openDriver file fs filename ∧ call = .open fs filename) ∨
    (∃ file fs fileid, pc = .closeDriver file fs fileid ∧ call = .close fs fileid) ∨
    (∃ write file fs fileid size offset, pc = .transferDriver write file fs fileid size offset ∧
      call = VfsProc.transferCall write fs fileid size offset) ∨
    ∃ row fs, pc = .unmountDriver row fs ∧ call = .unmount fs := by
  cases pc with
  | openDriver file fs filename =>
      cases h
      exact Or.inl ⟨file, fs, filename, rfl, rfl⟩
  | closeDriver file fs fileid =>
      cases h
      exact Or.inr (Or.inl ⟨file, fs, fileid, rfl, rfl⟩)
  | transferDriver write file fs fileid size offset =>
      cases h
      exact Or.inr (Or.inr (Or.inl ⟨write, file, fs, fileid, size, offset, rfl, rfl⟩))
  | unmountDriver row fs =>
      cases h
      exact Or.inr (Or.inr (Or.inr ⟨row, fs, rfl, rfl⟩))
  | leave sems ret =>
      cases sems with
      | nil | cons _ _ => cases h
  | openStart pathname =>
      rw [VfsPc.proc, vfsOpen_eq] at h
      cases h
  | closeStart file =>
      rw [VfsPc.proc, vfsClose_eq] at h
      cases h
  | transferStart write file buffer size =>
      rw [VfsPc.proc, vfsTransfer_eq] at h
      cases h
  | unmountStart name =>
      rw [VfsPc.proc, vfsUnmount_eq] at h
      cases h
  | _ => cases h

omit [DecidableEq ι] in
/-- A thread without a call is at the end of its last one. -/
theorem Follows.returned (h : Follows s pcs) (hidle : s.idle i = true) :
    ∃ ret, pcs i = .returned ret := by
  cases hth : s.threads i with
  | none => exact h.idle i hth
  | some th =>
      unfold VfsSystem.idle at hidle
      rw [hth, Option.all_some, h.thread i th hth] at hidle
      cases hproc : (pcs i).proc with
      | done ret => exact ⟨ret, VfsPc.eq_returned hproc⟩
      | _ =>
          rw [hproc] at hidle
          cases hidle

theorem VfsPc.start_holds {c : VfsCall} {pc : VfsPc} (h : c.start = some pc) (sem : VfsSem) :
    pc.Wf ∧ ¬ pc.Holds sem := by
  cases c with
  | «open» _ | close _ | read _ _ _ | write _ _ _ | unmount _ =>
      cases h
      exact ⟨trivial, id⟩
  | mount _ _ | seek _ _ | create _ _ | remove _ | getfree _ | filecount _ | file _ _ => cases h

/-- A thread makes a call. -/
theorem Follows.call (h : Follows s pcs) {c : VfsCall} {pc : VfsPc} (hpc : c.start = some pc)
    (hexec : s.exec (.call i c) = some s') :
    s.idle i = true ∧ s'.shared = s.shared ∧
      s'.threads = Function.update s.threads i (some ⟨c, false, c.body⟩) ∧
      Follows s' (Function.update pcs i pc) := by
  simp only [VfsSystem.exec] at hexec
  split at hexec
  case isFalse => cases hexec
  next hidle =>
  cases hexec
  refine ⟨hidle, rfl, rfl, fun j th hth => ?_, fun j hth => ?_, fun j => ?_, fun sem => ?_⟩
  · by_cases hj : j = i
    · subst hj
      simp only [VfsSystem.setThread, Function.update_self, Option.mem_some] at hth ⊢
      rw [← hth]
      exact VfsCall.start_proc hpc
    · simp only [VfsSystem.setThread, Function.update_of_ne hj] at hth ⊢
      exact h.thread j th hth
  · by_cases hj : j = i
    · subst hj
      simp only [VfsSystem.setThread, Function.update_self] at hth
      cases hth
    · simp only [VfsSystem.setThread, Function.update_of_ne hj] at hth ⊢
      exact h.idle j hth
  · by_cases hj : j = i
    · rw [hj, Function.update_self]
      exact (VfsPc.start_holds hpc .table).1
    · rw [Function.update_of_ne hj]
      exact h.wf j
  · exact (h.locked sem).keep fun hholds => absurd hholds (VfsPc.start_holds hpc sem).2

/-- A thread takes a step of its call. -/
theorem Follows.run (h : Follows s pcs) {r : ℤ} {th th' : VfsThread} {s1 : VfsSystem ι}
    (hth : s.threads i = some th) (hrun : th.step s r = some (th', s1)) :
    th'.call = th.call ∧
      (s1.setThread i th').threads = Function.update s.threads i (some th') ∧
      ∃ pc', PcStep s.shared r (pcs i) pc' (s1.setThread i th').shared ∧ th'.proc = pc'.proc ∧
        Follows (s1.setThread i th') (Function.update pcs i pc') := by
  have hproc := h.thread i th hth
  obtain ⟨hcall, hthreads⟩ := VfsThread.step_frame hrun
  obtain ⟨pc', hstep, hproc'⟩ := VfsThread.step_pc hproc hrun
  have hnew : (s1.setThread i th').threads = Function.update s.threads i (some th') := by
    rw [← hthreads]
    rfl
  refine ⟨hcall, hnew, pc', hstep, hproc', fun j u hu => ?_, fun j hu => ?_, fun j => ?_,
    fun sem => ?_⟩
  · rw [hnew] at hu
    by_cases hj : j = i
    · subst hj
      rw [Function.update_self, Option.mem_some] at hu
      rw [Function.update_self, ← hu]
      exact hproc'
    · rw [Function.update_of_ne hj] at hu ⊢
      exact h.thread j u hu
  · rw [hnew] at hu
    by_cases hj : j = i
    · subst hj
      rw [Function.update_self] at hu
      cases hu
    · rw [Function.update_of_ne hj] at hu ⊢
      exact h.idle j hu
  · by_cases hj : j = i
    · rw [hj, Function.update_self]
      exact hstep.wf (h.wf i)
    · rw [Function.update_of_ne hj]
      exact h.wf j
  · have hlock := hstep.lock (h.wf i) sem
    have hguard := h.locked sem
    revert hlock
    show LockStep sem (pcs i) pc' (s.sem sem) (s1.sem sem) → Guarded _ _ (s1.sem sem)
    generalize s1.sem sem = value
    intro hlock
    cases hlock with
    | keep himp => exact hguard.keep himp
    | acquire hpos => exact hguard.acquire hpos i pc'
    | release hold hnot => exact hguard.release hold hnot

end

/-! ## Rows that are being opened -/

/-- The row is one of the open file table. -/
def InTable (file : ℤ) : Prop := 0 ≤ file ∧ file < configMaxOpenFiles

section

variable {ι : Type} [DecidableEq ι]

/-- The calls that are opening rows, after a step of the thread `i` from the tables `t` to `t'`. A row
is being opened from the moment at which `vfs_open` puts a filesystem into it to the return of this
call; a row that is cleared is not. -/
def openingAfter (opening : ℤ → Option ι) (t : VfsTables) (i : ι) (th' : VfsThread) (t' : VfsTables)
    (file : ℤ) : Option ι :=
  if (t'.files file).filesystem = none then none
  else if (t.files file).filesystem = none then some i
  else if opening file = some i ∧ th'.proc.returned then none
  else opening file

variable {opening : ℤ → Option ι} {t t' : VfsTables} {i j : ι} {th' : VfsThread} {file : ℤ}

theorem openingAfter_of_ne (hj : j ≠ i) (h : openingAfter opening t i th' t' file = some j) :
    opening file = some j := by
  unfold openingAfter at h
  split at h
  · cases h
  split at h
  · exact absurd (Option.some.inj h).symm hj
  split at h
  · cases h
  · exact h

/-- A row that stays in use is being opened by the same call as before, until that call returns. -/
theorem openingAfter_of_same
    (hsame : (t'.files file).filesystem = (t.files file).filesystem)
    (hopen : (t.files file).filesystem ≠ none)
    (hret : th'.proc.returned = true → opening file ≠ some i) :
    openingAfter opening t i th' t' file = opening file := by
  unfold openingAfter
  rw [hsame, if_neg hopen, if_neg hopen, if_neg fun hand => hret hand.2 hand.1]

theorem openingAfter_used (h : openingAfter opening t i th' t' file = some j) :
    (t'.files file).filesystem ≠ none := by
  intro hnone
  unfold openingAfter at h
  rw [if_pos hnone] at h
  cases h

end

end Kudos
