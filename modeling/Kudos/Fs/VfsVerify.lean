import Kudos.Library.Requests
import Kudos.Fs.Vfs

set_option autoImplicit false

/-! # Handles that are not open

`vfs_close`, `vfs_seek`, `vfs_read` and `vfs_write` leave it to `vfs_verify_open` to reject a handle.
The calls are written down once more as processes that tell which rows of the open file table they
access (`RowProc`). Handles come from user programs, so a handle is any `int` here, and what lies in
memory outside of the table is arbitrary. -/

namespace Kudos

open CInt Requests

/-! ## Processes that tell the rows -/

/-- What a process of the VFS asks for. There is no answer to a crash. -/
inductive VfsRequest
  | panic
  | startOp
  | endOp
  | semaphoreP (sem : VfsSem)
  | semaphoreV (sem : VfsSem)
  | load
  | store (f : VfsTables → VfsTables)
  | verifyOpen (file : ℤ)
  | driver (call : FsCall)

def vfsInterface : Interface where
  Request := VfsRequest
  Answer
    | .panic => Empty
    | .startOp => ℤ
    | .endOp => Unit
    | .semaphoreP _ => Unit
    | .semaphoreV _ => Unit
    | .load => VfsTables
    | .store _ => Unit
    | .verifyOpen _ => Bool
    | .driver _ => ℤ

/-- A process of the VFS that tells its accesses: `file` stands for one to
    `openfile_table.files[file]`. -/
abbrev RowProc : Type → Type := Program vfsInterface ℤ

/-- Processes of the VFS make these requests. -/
def vfsRequester : Requester vfsInterface VfsProc where
  request
    | .panic, _ => .panic
    | .startOp, k => .startOp k
    | .endOp, k => .endOp (k ())
    | .semaphoreP sem, k => .semaphoreP sem (k ())
    | .semaphoreV sem, k => .semaphoreV sem (k ())
    | .load, k => .load k
    | .store f, k => .store f (k ())
    | .verifyOpen file, k => .verifyOpen file k
    | .driver call, k => .driver call k
  pure_bind _ _ := rfl
  request_bind r _ _ := by cases r <;> rfl

/-- The answer that is given by the operation count and the tables. Drivers return `returns`. -/
def vfsAnswers (returns : FsCall → ℤ) :
    (r : VfsRequest) → VfsOps × VfsTables → List (vfsInterface.Answer r × (VfsOps × VfsTables))
  | .panic, _ => []
  | .startOp, (s, t) => [((startOpBody s).1, (startOpBody s).2, t)]
  | .endOp, (s, t) =>
      match endOpBody s with
      | .ok (_, s) => [((), s, t)]
      | .error _ => []
  | .semaphoreP _, (s, t) => [((), s, t)]
  | .semaphoreV _, (s, t) => [((), s, t)]
  | .load, (s, t) => [(t, s, t)]
  | .store f, (s, t) => [((), s, f t)]
  | .verifyOpen file, (s, t) => [(decide ((t.files file).filesystem ≠ none), s, t)]
  | .driver call, (s, t) => [(returns call, s, t)]

namespace RowProc

variable {α : Type}

/-- Without the accesses. -/
def erase (p : RowProc α) : VfsProc α := Program.erase vfsRequester p

/-- The rows that a call accesses which finds the operation count `s` and the tables `t`. -/
def rows (returns : FsCall → ℤ) (p : RowProc α) (s : VfsOps) (t : VfsTables) : List ℤ :=
  p.accesses (vfsAnswers returns) (s, t)

end RowProc

/-- What a call does that finds the operation count `s` and the tables `t`, once it has got its
    semaphores: the driver calls it makes, what it returns, and the tables it leaves. There is no
    result if the kernel crashes. -/
def VfsProc.alone {α : Type} (returns : FsCall → ℤ) :
    VfsProc α → VfsOps → VfsTables → List FsCall × Option α × VfsTables
  | done a, _, t => ([], some a, t)
  | panic, _, t => ([], none, t)
  | startOp k, s, t => (k (startOpBody s).1).alone returns (startOpBody s).2 t
  | endOp k, s, t =>
      match endOpBody s with
      | .ok (_, s) => k.alone returns s t
      | .error _ => ([], none, t)
  | semaphoreP _ k, s, t => k.alone returns s t
  | semaphoreV _ k, s, t => k.alone returns s t
  | load k, s, t => (k t).alone returns s t
  | store f k, s, t => k.alone returns s (f t)
  | verifyOpen file k, s, t =>
      (k (decide ((t.files file).filesystem ≠ none))).alone returns s t
  | driver call k, s, t =>
      let r := (k (returns call)).alone returns s t
      (call :: r.1, r.2)

/-! ## The calls that take a handle -/

namespace RowProc

def panic {α : Type} : RowProc α := .request .panic Empty.elim

def vfsStartOp : RowProc ℤ := .request .startOp .done

def vfsEndOp : RowProc Unit := .request .endOp .done

def semP (sem : VfsSem) : RowProc Unit := .request (.semaphoreP sem) .done

def semV (sem : VfsSem) : RowProc Unit := .request (.semaphoreV sem) .done

def loadTables : RowProc VfsTables := .request .load .done

def storeTables (f : VfsTables → VfsTables) : RowProc Unit := .request (.store f) .done

/-- An access to `openfile_table.files[file]`. -/
def row (file : ℤ) : RowProc Unit := .access file (.done ())

/-- Read the row `openfile_table.files[file]`. -/
def readRow (file : ℤ) : RowProc OpenfileEntry := do
  row file
  return (← loadTables).files file

/-- Write the row `openfile_table.files[file]`. -/
def writeRow (file : ℤ) (f : OpenfileEntry → OpenfileEntry) : RowProc Unit := do
  row file
  storeTables fun t => t.setFile file (f (t.files file))

def vfsAssert (c : Prop) [Decidable c] : RowProc Unit := if c then return () else panic

def fsCall (fs : Option ℕ) (call : ℕ → FsCall) : RowProc ℤ :=
  match fs with
  | some fs => .request (.driver (call fs)) .done
  | none => panic

/-- `vfs_verify_open`, which looks at `openfile_table.files[file].filesystem` for every `file`. -/
def vfsVerifyOpen (file : ℤ) : RowProc Bool := do
  row file
  .request (.verifyOpen file) .done

/-- `vfs_close`. -/
def vfsClose (file : ℤ) : RowProc ℤ := do
  if (← vfsStartOp) ≠ vfsOk then return vfsUnusable
  semP .openfile
  if !(← vfsVerifyOpen file) then
    semV .openfile
    return vfsInvalidParams
  let openfile ← readRow file
  let ret ← fsCall openfile.filesystem (.close · openfile.fileid)
  writeRow file fun openfile => { openfile with filesystem := none }
  semV .openfile
  vfsEndOp
  return ret

/-- `vfs_seek`. -/
def vfsSeek (file seekPosition : ℤ) : RowProc ℤ := do
  if (← vfsStartOp) ≠ vfsOk then return vfsUnusable
  if seekPosition < 0 then return vfsInvalidParams
  semP .openfile
  if !(← vfsVerifyOpen file) then
    semV .openfile
    return vfsInvalidParams
  writeRow file fun openfile => { openfile with seekPosition := seekPosition }
  semV .openfile
  vfsEndOp
  return vfsOk

/-- `vfs_read` and `vfs_write`. -/
def vfsTransfer (call : ℕ → ℤ → ℤ → ℤ → FsCall) (file : ℤ) (buffer : ℕ) (size : ℤ) :
    RowProc ℤ := do
  if (← vfsStartOp) ≠ vfsOk then return vfsUnusable
  if !(← vfsVerifyOpen file) then return vfsInvalidParams
  let fs := (← readRow file).filesystem
  vfsAssert (0 ≤ size ∧ buffer ≠ 0)
  let openfile ← readRow file
  let ret ← fsCall fs (call · openfile.fileid size openfile.seekPosition)
  if 0 < ret then
    semP .openfile
    writeRow file fun openfile =>
      { openfile with seekPosition := wrap32 (openfile.seekPosition + ret) }
    semV .openfile
  vfsEndOp
  return ret

end RowProc

/-- A call on a handle: what it is given beside the handle. A seek is to a position that is not
    negative. -/
inductive HandleCall where
  | close
  | seek (seekPosition : ℕ)
  | read (buffer : ℕ) (bufsize : ℤ)
  | write (buffer : ℕ) (datasize : ℤ)
  deriving DecidableEq, Repr

namespace HandleCall

def proc (file : ℤ) : HandleCall → VfsProc ℤ
  | close => vfsClose file
  | seek seekPosition => vfsSeek file seekPosition
  | read buffer bufsize => vfsRead file buffer bufsize
  | write buffer datasize => vfsWrite file buffer datasize

def rowProc (file : ℤ) : HandleCall → RowProc ℤ
  | close => .vfsClose file
  | seek seekPosition => .vfsSeek file seekPosition
  | read buffer bufsize => .vfsTransfer .read file buffer bufsize
  | write buffer datasize => .vfsTransfer .write file buffer datasize

end HandleCall

/-! ## Without the accesses they are the calls of the VFS -/

section

variable {α : Type}

theorem erase_vfsStartOp_bind (k : ℤ → RowProc α) :
    (RowProc.vfsStartOp >>= k).erase = vfsStartOp >>= fun r => (k r).erase := rfl

theorem erase_semP_bind (sem : VfsSem) (k : Unit → RowProc α) :
    (RowProc.semP sem >>= k).erase = semP sem >>= fun u => (k u).erase := rfl

theorem erase_vfsVerifyOpen_bind (file : ℤ) (k : Bool → RowProc α) :
    (RowProc.vfsVerifyOpen file >>= k).erase = vfsVerifyOpen file >>= fun b => (k b).erase := rfl

theorem erase_readRow_bind (file : ℤ) (k : OpenfileEntry → RowProc α) :
    (RowProc.readRow file >>= k).erase = loadTables >>= fun t => (k (t.files file)).erase := rfl

theorem erase_fsCall_bind (fs : Option ℕ) (call : ℕ → FsCall) (k : ℤ → RowProc α) :
    (RowProc.fsCall fs call >>= k).erase = fsCall fs call >>= fun r => (k r).erase := by
  cases fs <;> rfl

theorem erase_vfsAssert_bind (c : Prop) [Decidable c] (k : Unit → RowProc α) :
    (RowProc.vfsAssert c >>= k).erase = vfsAssert c >>= fun u => (k u).erase := by
  unfold RowProc.vfsAssert vfsAssert
  split <;> rfl

theorem erase_vfsClose (file : ℤ) : (RowProc.vfsClose file).erase = vfsClose file := by
  unfold RowProc.vfsClose vfsClose
  refine (erase_vfsStartOp_bind _).trans (congrArg _ (funext fun r => ?_))
  split
  · rfl
  · refine (erase_semP_bind ..).trans (congrArg _ (funext fun _ => ?_))
    refine (erase_vfsVerifyOpen_bind ..).trans (congrArg _ (funext fun b => ?_))
    cases b with
    | false => rfl
    | true =>
        refine (erase_readRow_bind ..).trans (congrArg _ (funext fun t => ?_))
        exact erase_fsCall_bind ..

theorem erase_vfsSeek (file seekPosition : ℤ) :
    (RowProc.vfsSeek file seekPosition).erase = vfsSeek file seekPosition := by
  unfold RowProc.vfsSeek vfsSeek
  refine (erase_vfsStartOp_bind _).trans (congrArg _ (funext fun r => ?_))
  split
  · rfl
  · simp only
    split
    · rfl
    · refine (erase_semP_bind ..).trans (congrArg _ (funext fun _ => ?_))
      refine (erase_vfsVerifyOpen_bind ..).trans (congrArg _ (funext fun b => ?_))
      cases b <;> rfl

theorem erase_vfsTransfer (call : ℕ → ℤ → ℤ → ℤ → FsCall) (file : ℤ) (buffer : ℕ) (size : ℤ) :
    (RowProc.vfsTransfer call file buffer size).erase = vfsTransfer call file buffer size := by
  unfold RowProc.vfsTransfer vfsTransfer
  refine (erase_vfsStartOp_bind _).trans (congrArg _ (funext fun r => ?_))
  split
  · rfl
  · refine (erase_vfsVerifyOpen_bind ..).trans (congrArg _ (funext fun b => ?_))
    cases b with
    | false => rfl
    | true =>
        refine (erase_readRow_bind ..).trans (congrArg _ (funext fun t => ?_))
        refine (erase_vfsAssert_bind ..).trans (congrArg _ (funext fun _ => ?_))
        refine (erase_readRow_bind ..).trans (congrArg _ (funext fun t' => ?_))
        refine (erase_fsCall_bind ..).trans (congrArg _ (funext fun ret => ?_))
        simp only
        split <;> rfl

theorem HandleCall.erase_rowProc (op : HandleCall) (file : ℤ) :
    (op.rowProc file).erase = op.proc file := by
  cases op with
  | close => exact erase_vfsClose file
  | seek seekPosition => exact erase_vfsSeek ..
  | read buffer bufsize => exact erase_vfsTransfer ..
  | write buffer datasize => exact erase_vfsTransfer ..

end

/-! ## A call accesses no row but that of its handle -/

namespace RowProc

variable {α : Type} {file : ℤ}

/-- Whatever happens, only the row of `file` is accessed. -/
def OnRow (file : ℤ) (p : RowProc α) : Prop := p.Always (· = file)

theorem OnRow.mem_rows {p : RowProc α} (hp : p.OnRow file) {returns : FsCall → ℤ} {s : VfsOps}
    {t : VfsTables} {i : ℤ} (hi : i ∈ p.rows returns s t) : i = file :=
  Program.Always.within hp i hi

theorem onRow_panic (file : ℤ) : (panic : RowProc α).OnRow file := fun a => a.elim

theorem onRow_readRow (file : ℤ) : (readRow file).OnRow file := ⟨rfl, fun _ => trivial⟩

theorem onRow_writeRow (file : ℤ) (f : OpenfileEntry → OpenfileEntry) :
    (writeRow file f).OnRow file := ⟨rfl, fun _ => trivial⟩

theorem onRow_vfsVerifyOpen (file : ℤ) : (vfsVerifyOpen file).OnRow file := ⟨rfl, fun _ => trivial⟩

theorem onRow_fsCall (file : ℤ) (fs : Option ℕ) (call : ℕ → FsCall) : (fsCall fs call).OnRow file := by
  cases fs with
  | none => exact onRow_panic file
  | some fs => exact fun _ => trivial

theorem onRow_vfsAssert (file : ℤ) (c : Prop) [Decidable c] : (vfsAssert c).OnRow file := by
  unfold vfsAssert
  split
  · trivial
  · exact onRow_panic file

theorem onRow_semP (file : ℤ) (sem : VfsSem) : (semP sem).OnRow file := fun _ => trivial

theorem onRow_semV (file : ℤ) (sem : VfsSem) : (semV sem).OnRow file := fun _ => trivial

theorem onRow_vfsEndOp (file : ℤ) : vfsEndOp.OnRow file := fun _ => trivial

theorem onRow_vfsClose (file : ℤ) : (vfsClose file).OnRow file := by
  unfold vfsClose
  intro (r : ℤ)
  show OnRow file (if r ≠ vfsOk then _ else _)
  split
  · trivial
  · refine (onRow_semP file .openfile).bind fun _ => ?_
    refine (onRow_vfsVerifyOpen file).bind fun b => ?_
    cases b with
    | false => exact (onRow_semV file .openfile).bind fun _ => trivial
    | true =>
        refine (onRow_readRow file).bind fun openfile => ?_
        refine (onRow_fsCall ..).bind fun ret => ?_
        refine (onRow_writeRow ..).bind fun _ => ?_
        refine (onRow_semV file .openfile).bind fun _ => ?_
        exact (onRow_vfsEndOp file).bind fun _ => trivial

theorem onRow_vfsSeek (file seekPosition : ℤ) : (vfsSeek file seekPosition).OnRow file := by
  unfold vfsSeek
  intro (r : ℤ)
  show OnRow file (if r ≠ vfsOk then _ else if seekPosition < 0 then _ else _)
  split
  · trivial
  · split
    · trivial
    · refine (onRow_semP file .openfile).bind fun _ => ?_
      refine (onRow_vfsVerifyOpen file).bind fun b => ?_
      cases b with
      | false => exact (onRow_semV file .openfile).bind fun _ => trivial
      | true =>
          refine (onRow_writeRow ..).bind fun _ => ?_
          refine (onRow_semV file .openfile).bind fun _ => ?_
          exact (onRow_vfsEndOp file).bind fun _ => trivial

theorem onRow_vfsTransfer (call : ℕ → ℤ → ℤ → ℤ → FsCall) (file : ℤ) (buffer : ℕ) (size : ℤ) :
    (vfsTransfer call file buffer size).OnRow file := by
  unfold vfsTransfer
  intro (r : ℤ)
  show OnRow file (if r ≠ vfsOk then _ else _)
  split
  · trivial
  · refine (onRow_vfsVerifyOpen file).bind fun b => ?_
    cases b with
    | false => trivial
    | true =>
        refine (onRow_readRow file).bind fun openfile => ?_
        refine (onRow_vfsAssert ..).bind fun _ => ?_
        refine (onRow_readRow file).bind fun openfile' => ?_
        refine (onRow_fsCall ..).bind fun ret => ?_
        by_cases hret : 0 < ret
        · simp only [if_pos hret]
          refine (onRow_semP file .openfile).bind fun _ => ?_
          refine (onRow_writeRow ..).bind fun _ => ?_
          refine (onRow_semV file .openfile).bind fun _ => ?_
          exact (onRow_vfsEndOp file).bind fun _ => trivial
        · simp only [if_neg hret]
          exact (onRow_vfsEndOp file).bind fun _ => trivial

end RowProc

/-! ## Which handles are checked -/

section

variable {α : Type} {returns : FsCall → ℤ} {s : VfsOps} {t : VfsTables} {file : ℤ}

theorem alone_bind_unusable (hs : s.vfsUsable = false) (k : ℤ → VfsProc α) :
    (vfsStartOp >>= k).alone returns s t = (k vfsUnusable).alone returns s t := by
  show (k (startOpBody s).1).alone returns (startOpBody s).2 t = _
  simp [startOpBody, hs]

theorem alone_bind_usable (hs : s.vfsUsable = true) (k : ℤ → VfsProc α) :
    (vfsStartOp >>= k).alone returns s t
      = (k vfsOk).alone returns { s with vfsOps := wrap32 (s.vfsOps + 1) } t := by
  show (k (startOpBody s).1).alone returns (startOpBody s).2 t = _
  simp [startOpBody, hs]

theorem rows_bind_unusable (hs : s.vfsUsable = false) (k : ℤ → RowProc α) :
    (RowProc.vfsStartOp >>= k).rows returns s t = (k vfsUnusable).rows returns s t := by
  have hanswer : vfsAnswers returns .startOp (s, t) = [(vfsUnusable, s, t)] := by
    have hbody : startOpBody s = (vfsUnusable, s) := by
      simp [startOpBody, hs]
    show [((startOpBody s).1, (startOpBody s).2, t)] = _
    rw [hbody]
  exact Program.accesses_request hanswer

theorem rows_bind_usable (hs : s.vfsUsable = true) (k : ℤ → RowProc α) :
    (RowProc.vfsStartOp >>= k).rows returns s t
      = (k vfsOk).rows returns { s with vfsOps := wrap32 (s.vfsOps + 1) } t := by
  have hanswer : vfsAnswers returns .startOp (s, t)
      = [(vfsOk, { s with vfsOps := wrap32 (s.vfsOps + 1) }, t)] := by
    have hbody : startOpBody s = (vfsOk, { s with vfsOps := wrap32 (s.vfsOps + 1) }) := by
      simp [startOpBody, hs]
    show [((startOpBody s).1, (startOpBody s).2, t)] = _
    rw [hbody]
  exact Program.accesses_request hanswer

theorem alone_bind_free (hfree : (t.files file).filesystem = none) (k : Bool → VfsProc α) :
    (vfsVerifyOpen file >>= k).alone returns s t = (k false).alone returns s t := by
  show (k (decide ((t.files file).filesystem ≠ none))).alone returns s t = _
  simp [hfree]

end

namespace HandleCall

/-- The call is as safe as it should be: it stays inside the open file table, and it rejects a handle
    that is outside of the table or whose row is free. -/
structure Checks (op : HandleCall) (file : ℤ) (returns : FsCall → ℤ) (s : VfsOps) (t : VfsTables) :
    Prop where
  rows_inTable : ∀ i ∈ (op.rowProc file).rows returns s t, 0 ≤ i ∧ i < configMaxOpenFiles
  rejects : ¬ (0 ≤ file ∧ file < configMaxOpenFiles) ∨ (t.files file).filesystem = none →
    (op.proc file).alone returns s t = ([], some vfsInvalidParams, t)

variable {op : HandleCall} {file : ℤ} {returns : FsCall → ℤ} {s : VfsOps} {t : VfsTables}

theorem mem_rows {i : ℤ} (hi : i ∈ (op.rowProc file).rows returns s t) : i = file := by
  cases op with
  | close => exact (RowProc.onRow_vfsClose file).mem_rows hi
  | seek seekPosition => exact (RowProc.onRow_vfsSeek file _).mem_rows hi
  | read buffer bufsize => exact (RowProc.onRow_vfsTransfer _ file _ _).mem_rows hi
  | write buffer datasize => exact (RowProc.onRow_vfsTransfer _ file _ _).mem_rows hi

/-- An unusable VFS refuses every call, and does not look at the handle. -/
theorem alone_unusable (hs : s.vfsUsable = false) :
    (op.proc file).alone returns s t = ([], some vfsUnusable, t) := by
  cases op with
  | close => exact alone_bind_unusable hs _
  | seek seekPosition => exact alone_bind_unusable hs _
  | read buffer bufsize => exact alone_bind_unusable hs _
  | write buffer datasize => exact alone_bind_unusable hs _

theorem rows_unusable (hs : s.vfsUsable = false) : (op.rowProc file).rows returns s t = [] := by
  cases op with
  | close => exact rows_bind_unusable hs _
  | seek seekPosition => exact rows_bind_unusable hs _
  | read buffer bufsize => exact rows_bind_unusable hs _
  | write buffer datasize => exact rows_bind_unusable hs _

/-- Otherwise the row of the handle is looked at, whether the table has it or not. -/
theorem file_mem_rows (hs : s.vfsUsable = true) : file ∈ (op.rowProc file).rows returns s t := by
  cases op with
  | close => exact (rows_bind_usable hs _).symm ▸ List.mem_cons_self ..
  | seek seekPosition =>
      have hpos : ¬ (seekPosition : ℤ) < 0 := by omega
      refine (rows_bind_usable hs _).symm ▸ ?_
      simp only [if_neg hpos]
      exact List.mem_cons_self ..
  | read buffer bufsize => exact (rows_bind_usable hs _).symm ▸ List.mem_cons_self ..
  | write buffer datasize => exact (rows_bind_usable hs _).symm ▸ List.mem_cons_self ..

/-- A row that is free is taken for one that is not open, and nothing else is. -/
theorem alone_of_free (hs : s.vfsUsable = true) (hfree : (t.files file).filesystem = none) :
    (op.proc file).alone returns s t = ([], some vfsInvalidParams, t) := by
  cases op with
  | close => exact (alone_bind_usable hs _).trans (alone_bind_free hfree _)
  | seek seekPosition =>
      have hpos : ¬ (seekPosition : ℤ) < 0 := by omega
      refine (alone_bind_usable hs _).trans ?_
      simp only [if_neg hpos]
      exact alone_bind_free hfree _
  | read buffer bufsize => exact (alone_bind_usable hs _).trans (alone_bind_free hfree _)
  | write buffer datasize => exact (alone_bind_usable hs _).trans (alone_bind_free hfree _)

end HandleCall

/-- **Handles that are checked.** A usable VFS is safe exactly against the handles that the open file
table has a row for. (An unusable one answers a handle whose row is free with another error.) -/
theorem handleCall_checks_iff (op : HandleCall) (file : ℤ) (returns : FsCall → ℤ) (s : VfsOps)
    (t : VfsTables) :
    op.Checks file returns s t ↔
      (0 ≤ file ∧ file < configMaxOpenFiles) ∧
        (s.vfsUsable = true ∨ (t.files file).filesystem ≠ none) := by
  by_cases hs : s.vfsUsable = true
  · constructor
    · intro h
      exact ⟨h.rows_inTable file (HandleCall.file_mem_rows hs), Or.inl hs⟩
    · rintro ⟨hfile, -⟩
      constructor
      · intro i hi
        rw [HandleCall.mem_rows hi]
        exact hfile
      · rintro (hout | hfree)
        · exact absurd hfile hout
        · exact HandleCall.alone_of_free hs hfree
  · rw [Bool.not_eq_true] at hs
    have hrefused : (op.proc file).alone returns s t ≠ ([], some vfsInvalidParams, t) := by
      rw [HandleCall.alone_unusable hs]
      simp [vfsUnusable, vfsInvalidParams]
    constructor
    · intro h
      constructor
      · by_contra hout
        exact hrefused (h.rejects (Or.inl hout))
      · exact Or.inr fun hfree => hrefused (h.rejects (Or.inr hfree))
    · rintro ⟨hfile, hused⟩
      constructor
      · rw [HandleCall.rows_unusable hs]
        simp
      · rintro (hout | hfree)
        · exact absurd hfile hout
        · rcases hused with husable | hused
          · rw [hs] at husable
            cases husable
          · exact absurd hfree hused

/-- An open file table without open files, and a word in front of it that is not zero. -/
def wordBeforeTable : VfsTables where
  filesystems _ := ⟨none, []⟩
  files file := if file = -1 then ⟨some 7, 3, 0⟩ else ⟨none, 0, 0⟩

/-- Closing the handle -1 looks at the row in front of the table, takes the word there for a
    filesystem and calls it. -/
theorem minusOne_notChecked :
    ¬ HandleCall.close.Checks (-1) (fun _ => vfsOk) ⟨0, true⟩ wordBeforeTable ∧
    ((vfsClose (-1)).alone (fun _ => vfsOk) ⟨0, true⟩ wordBeforeTable).1 = [.close 7 3] ∧
    ((vfsClose (-1)).alone (fun _ => vfsOk) ⟨0, true⟩ wordBeforeTable).2.1 = some vfsOk := by
  refine ⟨fun h => ?_, by decide +kernel, by decide +kernel⟩
  have hrow := h.rows_inTable (-1) (HandleCall.file_mem_rows rfl)
  exact absurd hrow.1 (by decide)

end Kudos
