import Kudos.Fs.VfsHandles
import Mathlib.Data.List.SplitLengths

set_option autoImplicit false

/-! # Reading and writing a file in pieces

`vfs_read` and `vfs_write` keep the seek position of an open file, and TFS cuts a call off at the end of
the file. Here calls come one after the other on a handle that `vfs_open` has returned, while the VFS is
usable and no other call holds its semaphores. `vfsRead_inTurn` and `vfsWrite_inTurn` say that it does
not matter into which pieces a transfer is split. -/

namespace Kudos

open CInt Words

/-! ## Lists in pieces -/

section

variable {α : Type}

/-- The pieces of a list make up its beginning. -/
theorem flatten_splitLengths_eq_take (ns : List ℕ) (c : List α) :
    (ns.splitLengths c).flatten = c.take ns.sum := by
  induction ns generalizing c with
  | nil => simp
  | cons n ns ih =>
      rw [List.splitLengths_cons, List.flatten_cons, ih, List.sum_cons, List.take_add]

/-- A piece is empty only if its length is 0 or the list has come to its end. -/
theorem splitLengths_getElem?_nil {ns : List ℕ} {c : List α} {k : ℕ}
    (h : (ns.splitLengths c)[k]? = some []) : ns[k]? = some 0 ∨ c.length ≤ (ns.take k).sum := by
  induction ns generalizing c k with
  | nil => simp at h
  | cons n ns ih =>
      rw [List.splitLengths_cons] at h
      cases k with
      | zero =>
          simp only [List.getElem?_cons_zero, Option.some.injEq, List.take_eq_nil_iff] at h
          rcases h with rfl | rfl
          · exact Or.inl rfl
          · exact Or.inr (Nat.zero_le _)
      | succ k =>
          rw [List.getElem?_cons_succ] at h
          rw [List.getElem?_cons_succ, List.take_succ_cons, List.sum_cons]
          refine (ih h).imp_right fun hend => ?_
          rw [List.length_drop] at hend
          omega

/-- `w` written over the list `l` from position `p` on, up to the end of `l`. -/
def splice (l : List α) (p : ℕ) (w : List α) : List α :=
  l.take p ++ w.take (l.length - p) ++ l.drop (p + w.length)

theorem splice_getElem? (l : List α) {p : ℕ} (hp : p ≤ l.length) (w : List α) (k : ℕ) :
    (splice l p w)[k]? =
      if k < l.length then if p ≤ k ∧ k < p + w.length then w[k - p]? else l[k]? else none := by
  have hlen : (l.take p ++ w.take (l.length - p)).length = p + min (l.length - p) w.length := by
    rw [List.length_append, List.length_take, List.length_take, Nat.min_eq_left hp]
  unfold splice
  by_cases hk : k < p + min (l.length - p) w.length
  · rw [List.getElem?_append_left (by omega), if_pos (by omega)]
    by_cases hkp : k < p
    · rw [List.getElem?_append_left (by rw [List.length_take]; omega), if_neg (by omega),
        List.getElem?_take_of_lt hkp]
    · rw [List.getElem?_append_right (by rw [List.length_take]; omega), if_pos (by omega),
        List.length_take, Nat.min_eq_left hp, List.getElem?_take_of_lt (by omega)]
  · rw [List.getElem?_append_right (by omega), hlen, List.getElem?_drop]
    by_cases hkc : k < l.length
    · rw [if_pos hkc, if_neg (by omega)]
      congr 1
      omega
    · rw [if_neg hkc]
      exact List.getElem?_eq_none (by omega)

@[simp]
theorem length_splice (l : List α) {p : ℕ} (hp : p ≤ l.length) (w : List α) :
    (splice l p w).length = l.length := by
  unfold splice
  rw [List.length_append, List.length_append, List.length_take, List.length_take, List.length_drop]
  omega

theorem splice_nil (l : List α) (p : ℕ) : splice l p [] = l := by
  simp [splice]

/-- Writing `u` and `v` one after the other is writing both at once. -/
theorem splice_append (l : List α) {p : ℕ} (hp : p ≤ l.length) (u v : List α) :
    splice (splice l p u) (min (p + u.length) l.length) v = splice l p (u ++ v) := by
  refine List.ext_getElem? fun k => ?_
  rw [splice_getElem? _ (by rw [length_splice l hp]; exact Nat.min_le_right ..),
    splice_getElem? l hp, splice_getElem? l hp, length_splice l hp, List.length_append]
  by_cases hk : k < l.length
  · rw [if_pos hk, if_pos hk, if_pos hk]
    by_cases hu : k < p + u.length
    · -- not touched by the second write
      have hlt : k < min (p + u.length) l.length := Nat.lt_min.2 ⟨hu, hk⟩
      have hsecond : ¬ (min (p + u.length) l.length ≤ k ∧
          k < min (p + u.length) l.length + v.length) := fun h => absurd h.1 (Nat.not_le.2 hlt)
      rw [if_neg hsecond]
      by_cases hpk : p ≤ k
      · have hboth : p ≤ k ∧ k < p + (u.length + v.length) := by omega
        rw [if_pos ⟨hpk, hu⟩, if_pos hboth, List.getElem?_append_left (by omega)]
      · rw [if_neg fun h => hpk h.1, if_neg fun h => hpk h.1]
    · rw [Nat.min_eq_left (by omega : p + u.length ≤ l.length)]
      by_cases hv : k < p + u.length + v.length
      · have hboth : p ≤ k ∧ k < p + (u.length + v.length) := by omega
        rw [if_pos ⟨by omega, hv⟩, if_pos hboth, List.getElem?_append_right (by omega)]
        congr 1
        omega
      · have hboth : ¬ (p ≤ k ∧ k < p + (u.length + v.length)) := by omega
        rw [if_neg fun h => hv h.2, if_neg fun h => hu h.2, if_neg hboth]
  · rw [if_neg hk, if_neg hk]

end

/-! ## Calls that return -/

/-- The VFS is usable, and nobody holds its semaphores. -/
structure VfsMemory.Ready (m : VfsMemory) : Prop where
  usable : m.ops.vfsUsable = true
  ops_nonneg : 0 ≤ m.ops.vfsOps
  ops_lt : m.ops.vfsOps < intMax
  sem_pos : ∀ sem, 0 < m.sem sem

section

variable {drive : FsCall → Option (TfsProc (ℤ × List UInt8))} {n : ℤ} {t : VfsTables}
  {sem : VfsSem → ℕ} {d : ℕ → Block} {bytes : List UInt8}

/-- A call whose first part returns. -/
theorem VfsProc.runOn_bind_some {α β : Type} {p : VfsProc α} {f : α → VfsProc β} {a : α}
    {s s' : FsState} (h : p.runOn drive s = (some a, s')) :
    (p >>= f).runOn drive s = (f a).runOn drive s' := by
  rw [VfsProc.runOn_bind, h]

/-- A call that returns has returned from its first part. -/
theorem VfsProc.runOn_bind_eq_some {α β : Type} {p : VfsProc α} {f : α → VfsProc β} {b : β}
    {s s' : FsState} (h : (p >>= f).runOn drive s = (some b, s')) :
    ∃ a s1, p.runOn drive s = (some a, s1) ∧ (f a).runOn drive s1 = (some b, s') := by
  rw [VfsProc.runOn_bind] at h
  obtain ⟨r, s1, hp⟩ : ∃ r s1, p.runOn drive s = (r, s1) := ⟨_, _, rfl⟩
  rw [hp] at h
  cases r with
  | none => cases h
  | some a => exact ⟨a, s1, hp, h⟩

theorem run_vfsStartOp (hn : 0 ≤ n ∧ n < intMax) :
    vfsStartOp.runOn drive ⟨⟨⟨n, true⟩, t, sem⟩, d, bytes⟩
      = (some vfsOk, ⟨⟨⟨n + 1, true⟩, t, sem⟩, d, bytes⟩) := by
  have hwrap : wrap32 (n + 1) = n + 1 := wrap32_of_nonneg (by omega) (by omega)
  simp only [vfsStartOp, VfsProc.runOn, startOpBody, hwrap, if_true]

theorem run_vfsEndOp (hn : 0 ≤ n ∧ n < intMax) :
    vfsEndOp.runOn drive ⟨⟨⟨n + 1, true⟩, t, sem⟩, d, bytes⟩
      = (some (), ⟨⟨⟨n, true⟩, t, sem⟩, d, bytes⟩) := by
  have hbody := endOpBody_eq (s := ⟨n + 1, true⟩) (by show 0 < n + 1; omega) (by show n + 1 ≤ _; omega)
  simp only [vfsEndOp, VfsProc.runOn, hbody]
  rw [Int.add_sub_cancel]

theorem run_semP {x : VfsSem} (hx : 0 < sem x) (ops : VfsOps) :
    (semP x).runOn drive ⟨⟨ops, t, sem⟩, d, bytes⟩
      = (some (), ⟨⟨ops, t, Function.update sem x (sem x - 1)⟩, d, bytes⟩) := by
  simp only [semP, VfsProc.runOn, hx, if_true]

/-- Giving a semaphore back. -/
theorem run_semV {x : VfsSem} (hx : 0 < sem x) (ops : VfsOps) :
    (semV x).runOn drive ⟨⟨ops, t, Function.update sem x (sem x - 1)⟩, d, bytes⟩
      = (some (), ⟨⟨ops, t, sem⟩, d, bytes⟩) := by
  have hback : Function.update (Function.update sem x (sem x - 1)) x (sem x - 1 + 1) = sem := by
    rw [Function.update_idem, Nat.sub_add_cancel hx, Function.update_eq_self]
  simp only [semV, VfsProc.runOn, Function.update_self, hback]

theorem run_loadTables (s : FsState) :
    loadTables.runOn drive s = (some s.mem.tables, s) := rfl

theorem run_storeTables (f : VfsTables → VfsTables) (m : VfsMemory) :
    (storeTables f).runOn drive ⟨m, d, bytes⟩ = (some (), ⟨{ m with tables := f m.tables }, d, bytes⟩) :=
  rfl

theorem run_vfsVerifyOpen {file : ℤ} {fs : ℕ} (h : (t.files file).filesystem = some fs) (ops : VfsOps) :
    (vfsVerifyOpen file).runOn drive ⟨⟨ops, t, sem⟩, d, bytes⟩
      = (some true, ⟨⟨ops, t, sem⟩, d, bytes⟩) := by
  simp only [vfsVerifyOpen, VfsProc.runOn, h, ne_eq, reduceCtorEq, not_false_eq_true, decide_true]

theorem run_vfsAssert {c : Prop} [Decidable c] (hc : c) (s : FsState) :
    (vfsAssert c).runOn drive s = (some (), s) := by
  unfold vfsAssert
  rw [if_pos hc]
  rfl

theorem run_fsCall {pointer : Option ℕ} {fs : ℕ} {call : ℕ → FsCall}
    {proc : TfsProc (ℤ × List UInt8)} {ret : ℤ} {bytes' : List UInt8} {d' : ℕ → Block}
    (m : VfsMemory) (hfs : pointer = some fs) (hproc : drive (call fs) = some proc)
    (hrun : proc.run none d = (.ok (ret, bytes'), d')) :
    (fsCall pointer call).runOn drive ⟨m, d, bytes⟩ = (some ret, ⟨m, d', bytes'⟩) := by
  rw [hfs]
  simp only [fsCall, VfsProc.runOn, hproc, hrun]

/-- A driver call that returns. -/
theorem run_fsCall_eq_some {pointer : Option ℕ} {fs : ℕ} {call : ℕ → FsCall} {ret : ℤ}
    {m : VfsMemory} {s' : FsState} (hfs : pointer = some fs)
    (h : (fsCall pointer call).runOn drive ⟨m, d, bytes⟩ = (some ret, s')) :
    ∃ proc bytes' d', drive (call fs) = some proc ∧ proc.run none d = (.ok (ret, bytes'), d') ∧
      s' = ⟨m, d', bytes'⟩ := by
  rw [hfs] at h
  simp only [fsCall, VfsProc.runOn] at h
  cases hproc : drive (call fs) with
  | none =>
      rw [hproc] at h
      cases h
  | some proc =>
      obtain ⟨r, d', hrun⟩ : ∃ r d', proc.run none d = (r, d') := ⟨_, _, rfl⟩
      rw [hproc] at h
      simp only [hrun] at h
      cases r with
      | error e => cases h
      | ok r =>
          cases h
          exact ⟨proc, r.2, d', rfl, hrun, rfl⟩

/-- The table after `ret` bytes were transferred. -/
def VfsTables.advance (t : VfsTables) (file ret : ℤ) : VfsTables :=
  if 0 < ret then
    t.setFile file { t.files file with seekPosition := wrap32 ((t.files file).seekPosition + ret) }
  else t

/-- A transfer on an open file. -/
theorem run_vfsTransfer {call : ℕ → ℤ → ℤ → ℤ → FsCall} {file : ℤ} {buffer : ℕ} {size ret : ℤ}
    {fs : ℕ} {proc : TfsProc (ℤ × List UInt8)} {bytes' : List UInt8} {d' : ℕ → Block}
    {s : FsState} (hready : s.mem.Ready)
    (hfs : (s.mem.tables.files file).filesystem = some fs) (hsize : 0 ≤ size) (hbuffer : buffer ≠ 0)
    (hproc : drive (call fs (s.mem.tables.files file).fileid size
      (s.mem.tables.files file).seekPosition) = some proc)
    (hrun : proc.run none s.disk = (.ok (ret, bytes'), d')) :
    (vfsTransfer call file buffer size).runOn drive s
      = (some ret, ⟨{ s.mem with tables := s.mem.tables.advance file ret }, d', bytes'⟩) := by
  obtain ⟨⟨⟨n, u⟩, t, sem⟩, d, bytes⟩ := s
  obtain ⟨hu, hlo, hhi, hsem⟩ := hready
  obtain rfl : u = true := hu
  have hn : 0 ≤ n ∧ n < intMax := ⟨hlo, hhi⟩
  have hrow : (t.files file).filesystem = some fs := hfs
  unfold vfsTransfer VfsTables.advance
  rw [VfsProc.runOn_bind_some (run_vfsStartOp hn), if_neg (not_not.2 rfl),
    VfsProc.runOn_bind_some (run_vfsVerifyOpen hrow _), if_neg (by decide),
    VfsProc.runOn_bind_some (run_loadTables _),
    VfsProc.runOn_bind_some (run_vfsAssert ⟨hsize, hbuffer⟩ _),
    VfsProc.runOn_bind_some (run_loadTables _),
    VfsProc.runOn_bind_some (run_fsCall _ hfs hproc hrun)]
  by_cases hret : 0 < ret
  · rw [if_pos hret, if_pos hret, VfsProc.runOn_bind_some (run_semP (hsem _) _),
      VfsProc.runOn_bind_some (run_storeTables ..), VfsProc.runOn_bind_some (run_semV (hsem _) _),
      VfsProc.runOn_bind_some (run_vfsEndOp hn)]
    rfl
  · rw [if_neg hret, if_neg hret, VfsProc.runOn_bind_some (run_vfsEndOp hn)]
    rfl

/-- Giving both semaphores back and ending the call. -/
theorem run_leave (r : ℤ) (hsem : ∀ x, 0 < sem x) (hn : 0 ≤ n ∧ n < intMax) :
    (do semV .openfile; semV .table; vfsEndOp; return r : VfsProc ℤ).runOn drive
        ⟨⟨⟨n + 1, true⟩, t, Function.update (Function.update sem .table (sem .table - 1)) .openfile
          (Function.update sem .table (sem .table - 1) .openfile - 1)⟩, d, bytes⟩
      = (some r, ⟨⟨⟨n, true⟩, t, sem⟩, d, bytes⟩) := by
  have hsem2 : 0 < Function.update sem VfsSem.table (sem .table - 1) .openfile := hsem .openfile
  rw [VfsProc.runOn_bind_some (run_semV hsem2 _), VfsProc.runOn_bind_some (run_semV (hsem _) _),
    VfsProc.runOn_bind_some (run_vfsEndOp hn)]
  rfl

/-- An open that succeeds has taken a free row for the file that the driver has found. -/
theorem run_vfsOpen {pathname : List UInt8} {s s' : FsState} {file : ℤ} (hready : s.mem.Ready)
    (hopen : (vfsOpen pathname).runOn drive s = (some file, s')) (hfile : 0 ≤ file) :
    ∃ volumename filename fs proc ret bytes' d',
      vfsParsePathname pathname = some (volumename, filename) ∧
      drive (.open fs filename) = some proc ∧ proc.run none s.disk = (.ok (ret, bytes'), d') ∧
      0 ≤ ret ∧
      s' = ⟨{ s.mem with tables := s.mem.tables.setFile file ⟨some fs, ret, 0⟩ }, d', bytes'⟩ := by
  obtain ⟨⟨⟨n, u⟩, t, sem⟩, d, bytes⟩ := s
  obtain ⟨hu, hlo, hhi, hsem⟩ := hready
  obtain rfl : u = true := hu
  have hn : 0 ≤ n ∧ n < intMax := ⟨hlo, hhi⟩
  have hsem2 : 0 < Function.update sem VfsSem.table (sem .table - 1) .openfile := hsem .openfile
  unfold vfsOpen at hopen
  rw [VfsProc.runOn_bind_some (run_vfsStartOp hn), if_neg (not_not.2 rfl)] at hopen
  cases hparse : vfsParsePathname pathname with
  | none =>
      rw [hparse] at hopen
      simp only at hopen
      rw [VfsProc.runOn_bind_some (run_vfsEndOp hn)] at hopen
      obtain rfl := Option.some.inj (congrArg Prod.fst hopen)
      exact absurd hfile (by decide)
  | some names =>
      rw [hparse] at hopen
      simp only at hopen
      rw [VfsProc.runOn_bind_some (run_semP (hsem _) _), VfsProc.runOn_bind_some (run_semP hsem2 _),
        VfsProc.runOn_bind_some (run_loadTables _)] at hopen
      simp only at hopen
      cases hrow : t.findFile (·.filesystem = none) with
      | none =>
          rw [hrow] at hopen
          simp only at hopen
          rw [run_leave _ hsem hn] at hopen
          obtain rfl := Option.some.inj (congrArg Prod.fst hopen)
          exact absurd hfile (by decide)
      | some row =>
          rw [hrow] at hopen
          simp only at hopen
          cases hfs : vfsGetFilesystem t names.1 with
          | none =>
              rw [hfs, if_pos rfl] at hopen
              rw [run_leave _ hsem hn] at hopen
              obtain rfl := Option.some.inj (congrArg Prod.fst hopen)
              exact absurd hfile (by decide)
          | some fs =>
              rw [hfs, if_neg (by simp), VfsProc.runOn_bind_some (run_storeTables ..)] at hopen
              rw [VfsProc.runOn_bind_some (run_semV hsem2 _),
                VfsProc.runOn_bind_some (run_semV (hsem _) _)] at hopen
              obtain ⟨ret, s1, hcall, hopen⟩ := VfsProc.runOn_bind_eq_some hopen
              obtain ⟨proc, bytes', d', hproc, hrun, rfl⟩ := run_fsCall_eq_some rfl hcall
              by_cases hret : ret < 0
              · rw [if_pos hret, VfsProc.runOn_bind_some (run_semP (hsem _) _),
                  VfsProc.runOn_bind_some (run_storeTables ..),
                  VfsProc.runOn_bind_some (run_semV (hsem _) _),
                  VfsProc.runOn_bind_some (run_vfsEndOp hn)] at hopen
                obtain rfl := Option.some.inj (congrArg Prod.fst hopen)
                omega
              · rw [if_neg hret, VfsProc.runOn_bind_some (run_storeTables ..),
                  VfsProc.runOn_bind_some (run_storeTables ..),
                  VfsProc.runOn_bind_some (run_vfsEndOp hn)] at hopen
                obtain rfl := Option.some.inj (congrArg Prod.fst hopen)
                obtain rfl := congrArg Prod.snd hopen
                refine ⟨names.1, names.2, fs, proc, ret, bytes', d', rfl, hproc, hrun,
                  Int.not_lt.1 hret, ?_⟩
                unfold VfsTables.setFile
                simp only [Function.update_idem, Function.update_self]
                rfl

end

/-! ## Calls in turn -/

/-- Calls of `vfs_read` with these sizes, one after the other: what each returns and what it puts into
its buffer. -/
def readInTurn (tfs : TfsVolume) (file : ℤ) (buffer : ℕ) :
    List ℕ → FsState → Option (List (ℤ × List UInt8)) × FsState
  | [], s => (some [], s)
  | n :: ns, s =>
      match (vfsRead file buffer n).runOn (tfsDriver tfs fun _ => 0) s with
      | (none, s) => (none, s)
      | (some ret, s) =>
          let (rest, s') := readInTurn tfs file buffer ns s
          (rest.map ((ret, s.received) :: ·), s')

/-- Calls of `vfs_write` with these bytes, one after the other: what each returns. -/
def writeInTurn (tfs : TfsVolume) (file : ℤ) (buffer : ℕ) :
    List (List UInt8) → FsState → Option (List ℤ) × FsState
  | [], s => (some [], s)
  | w :: ws, s =>
      match (vfsWrite file buffer w.length).runOn (tfsDriver tfs (w.getD · 0)) s with
      | (none, s) => (none, s)
      | (some ret, s) =>
          let (rest, s') := writeInTurn tfs file buffer ws s
          (rest.map (ret :: ·), s')

/-- The handle is open at position `pos` of the file in entry `i`, whose contents are `c`. -/
structure FsState.OpenAt (tfs : TfsVolume) (s : FsState) (file : ℤ) (i pos : ℕ) (c : List UInt8) :
    Prop where
  ready : s.mem.Ready
  sound : SoundVolume tfs.totalblocks (tfs.view s.disk)
  live : Live (tfs.view s.disk) i
  contents : fileContents (tfs.view s.disk) i = c
  filesystem : ∃ fs, (s.mem.tables.files file).filesystem = some fs
  fileid : (s.mem.tables.files file).fileid = fileid (tfs.view s.disk) i
  seekPosition : (s.mem.tables.files file).seekPosition = pos
  pos_le : pos ≤ c.length

/-- The state after a transfer of `m` bytes. -/
def FsState.transferred (s : FsState) (file : ℤ) (m : ℕ) (d : ℕ → Block) (bytes : List UInt8) :
    FsState :=
  ⟨{ s.mem with tables := s.mem.tables.advance file m }, d, bytes⟩

section

variable {tfs : TfsVolume} {s : FsState} {file : ℤ} {i pos : ℕ} {c : List UInt8}

/-- Nothing but the seek position is changed in the tables. -/
theorem VfsTables.advance_row (t : VfsTables) (file ret : ℤ) :
    ((t.advance file ret).files file).filesystem = (t.files file).filesystem ∧
    ((t.advance file ret).files file).fileid = (t.files file).fileid ∧
    ((t.advance file ret).files file).seekPosition
      = if 0 < ret then wrap32 ((t.files file).seekPosition + ret) else (t.files file).seekPosition := by
  unfold VfsTables.advance
  split
  · rw [VfsTables.setFile_files_self]
    exact ⟨rfl, rfl, rfl⟩
  · exact ⟨rfl, rfl, rfl⟩

/-- A file is not longer than an `int` can say. -/
theorem FsState.OpenAt.length_le (h : s.OpenAt tfs file i pos c) : (c.length : ℤ) ≤ intMax := by
  have hsize := natCast_fileSize (h.sound.table i h.live).1
  rw [← h.contents, length_fileContents, hsize]
  exact inodeFilesize_le _

/-- A transfer moves the position. -/
theorem FsState.OpenAt.transferred (h : s.OpenAt tfs file i pos c) {m : ℕ} {d : ℕ → Block}
    {c' : List UInt8} (hm : pos + m ≤ c.length) (hlength : c'.length = c.length)
    (hsound : SoundVolume tfs.totalblocks (tfs.view d)) (hlive : Live (tfs.view d) i)
    (hid : Kudos.fileid (tfs.view d) i = Kudos.fileid (tfs.view s.disk) i)
    (hcontents : fileContents (tfs.view d) i = c') (bytes : List UInt8) :
    (s.transferred file m d bytes).OpenAt tfs file i (pos + m) c' := by
  obtain ⟨hfs, hfileid, hpos⟩ := s.mem.tables.advance_row file m
  have hmax := h.length_le
  refine ⟨⟨h.ready.usable, h.ready.ops_nonneg, h.ready.ops_lt, h.ready.sem_pos⟩, hsound, hlive,
    hcontents, ?_, ?_, ?_, by omega⟩
  · obtain ⟨fs, hsome⟩ := h.filesystem
    exact ⟨fs, hfs.trans hsome⟩
  · exact hfileid.trans (h.fileid.trans hid.symm)
  · refine hpos.trans ?_
    rw [h.seekPosition]
    split
    · rw [wrap32_of_nonneg (by omega) (by omega)]
      push_cast
      rfl
    · omega

/-- **One read.** -/
theorem FsState.OpenAt.read (h : s.OpenAt tfs file i pos c) {buffer : ℕ} (hbuffer : buffer ≠ 0)
    (n : ℕ) (data : ℕ → UInt8) :
    ∃ s', (vfsRead file buffer n).runOn (tfsDriver tfs data) s
        = (some ((min n (c.length - pos) : ℕ) : ℤ), s') ∧
      s'.received = (c.drop pos).take n ∧
      s'.OpenAt tfs file i (pos + min n (c.length - pos)) c := by
  obtain ⟨fs, hfs⟩ := h.filesystem
  have hread := tfsRead_file tfs h.sound h.live n (h.contents ▸ h.pos_le)
  rw [h.contents] at hread
  have hproc : tfsDriver tfs data (.read fs (s.mem.tables.files file).fileid n
      (s.mem.tables.files file).seekPosition)
      = some (tfsRead .big tfs (Kudos.fileid (tfs.view s.disk) i) n pos) := by
    rw [h.fileid, h.seekPosition]
    rfl
  have hpos := h.pos_le
  refine ⟨_, run_vfsTransfer h.ready hfs (Int.natCast_nonneg n) hbuffer hproc hread, ?_, ?_⟩
  · have hlen : c.length - pos = (c.drop pos).length := (List.length_drop ..).symm
    show (c.drop pos).take (min n (c.length - pos)) = (c.drop pos).take n
    rw [hlen, ← List.take_take, List.take_length]
  · exact h.transferred (by omega) rfl h.sound h.live rfl h.contents _

theorem map_getD_range (w : List UInt8) {m : ℕ} (hm : m ≤ w.length) :
    (List.range m).map (w.getD · 0) = w.take m := by
  refine List.ext_getElem (by simp [hm]) fun k hk _ => ?_
  rw [List.length_map, List.length_range] at hk
  rw [List.getElem_map, List.getElem_range, List.getElem_take, List.getD_eq_getElem?_getD,
    List.getElem?_eq_getElem (Nat.lt_of_lt_of_le hk hm), Option.getD_some]

/-- What `tfs_write` makes of a file. -/
theorem splice_of_written (c w : List UInt8) {p : ℕ} (hp : p ≤ c.length) :
    c.take p ++ (List.range (min w.length (c.length - p))).map (w.getD · 0)
      ++ c.drop (p + min w.length (c.length - p)) = splice c p w := by
  rw [map_getD_range w (Nat.min_le_left ..)]
  unfold splice
  by_cases hw : w.length ≤ c.length - p
  · rw [Nat.min_eq_left hw, List.take_length, List.take_of_length_le hw]
  · rw [Nat.min_eq_right (by omega), List.drop_of_length_le (by omega : c.length ≤ p + (c.length - p)),
      List.drop_of_length_le (by omega : c.length ≤ p + w.length)]

/-- **One write.** -/
theorem FsState.OpenAt.write (h : s.OpenAt tfs file i pos c) {buffer : ℕ} (hbuffer : buffer ≠ 0)
    (w : List UInt8) :
    ∃ s', (vfsWrite file buffer w.length).runOn (tfsDriver tfs (w.getD · 0)) s
        = (some ((min w.length (c.length - pos) : ℕ) : ℤ), s') ∧
      s'.OpenAt tfs file i (pos + min w.length (c.length - pos)) (splice c pos w) := by
  obtain ⟨fs, hfs⟩ := h.filesystem
  have hpos := h.pos_le
  obtain ⟨d', hwrite, hwritten, -⟩ :=
    tfsWrite_file tfs h.sound h.live (w.getD · 0) w.length (h.contents ▸ h.pos_le)
  rw [h.contents] at hwrite hwritten
  have hproc : tfsDriver tfs (w.getD · 0) (.write fs (s.mem.tables.files file).fileid w.length
      (s.mem.tables.files file).seekPosition)
      = some (withoutData (tfsWrite .big tfs (Kudos.fileid (tfs.view s.disk) i) (w.getD · 0) w.length
        pos)) := by
    rw [h.fileid, h.seekPosition]
    rfl
  have hrun := run_withoutData
    (tfsWrite .big tfs (Kudos.fileid (tfs.view s.disk) i) (w.getD · 0) w.length pos) s.disk
  rw [hwrite] at hrun
  have hdir : dirInode (tfs.view d') i = dirInode (tfs.view s.disk) i := by
    unfold dirInode
    rw [hwritten.directory]
  refine ⟨_, run_vfsTransfer h.ready hfs (Int.natCast_nonneg _) hbuffer hproc hrun, ?_⟩
  refine h.transferred (by omega) (length_splice c hpos w)
    (h.sound.congr hwritten.bitmap hwritten.directory hwritten.inodes) ?_ ?_ ?_ _
  · exact ⟨h.live.1, hdir ▸ h.live.2⟩
  · unfold Kudos.fileid
    rw [hdir]
  · rw [hwritten.contents, h.contents]
    exact splice_of_written c w hpos

/-- **Reads in turn.** -/
theorem FsState.OpenAt.readInTurn {buffer : ℕ} (hbuffer : buffer ≠ 0) (ns : List ℕ)
    (h : s.OpenAt tfs file i pos c) :
    ∃ l s', readInTurn tfs file buffer ns s = (some l, s') ∧
      l.map Prod.snd = ns.splitLengths (c.drop pos) ∧ (∀ x ∈ l, x.1 = (x.2.length : ℤ)) ∧
      s'.OpenAt tfs file i (min (pos + ns.sum) c.length) c := by
  induction ns generalizing s pos with
  | nil =>
      refine ⟨[], s, rfl, rfl, fun x hx => absurd hx List.not_mem_nil, ?_⟩
      rwa [List.sum_nil, Nat.add_zero, Nat.min_eq_left h.pos_le]
  | cons n ns ih =>
      obtain ⟨s1, hrun, hbytes, h1⟩ := h.read hbuffer n fun _ => 0
      obtain ⟨l, s', hrest, hpieces, hcounts, h'⟩ := ih h1
      have hpos := h.pos_le
      have hdrop : c.drop (pos + min n (c.length - pos)) = (c.drop pos).drop n := by
        rw [List.drop_drop]
        by_cases hn : n ≤ c.length - pos
        · rw [Nat.min_eq_left hn]
        · rw [Nat.min_eq_right (by omega), List.drop_of_length_le (by omega),
            List.drop_of_length_le (by omega)]
      refine ⟨(((min n (c.length - pos) : ℕ) : ℤ), s1.received) :: l, s', ?_, ?_, ?_, ?_⟩
      · unfold Kudos.readInTurn
        rw [hrun]
        simp only [hrest]
        rfl
      · rw [List.map_cons, hpieces, List.splitLengths_cons, hdrop, hbytes]
      · intro x hx
        rcases List.mem_cons.1 hx with rfl | hx
        · show ((min n (c.length - pos) : ℕ) : ℤ) = s1.received.length
          rw [hbytes, List.length_take, List.length_drop]
        · exact hcounts x hx
      · have hsum : min (pos + min n (c.length - pos) + ns.sum) c.length
            = min (pos + (n :: ns).sum) c.length := by
          rw [List.sum_cons]
          omega
        rwa [hsum] at h'

/-- **Writes in turn.** Each call stores what fits into the file behind the earlier ones. -/
theorem FsState.OpenAt.writeInTurn {buffer : ℕ} (hbuffer : buffer ≠ 0) (ws : List (List UInt8))
    (h : s.OpenAt tfs file i pos c) :
    ∃ l s', writeInTurn tfs file buffer ws s = (some l, s') ∧
      (∀ k, l[k]? = ws[k]?.map fun w =>
        ((min w.length (c.length - pos - (ws.take k).flatten.length) : ℕ) : ℤ)) ∧
      l.sum = (min ws.flatten.length (c.length - pos) : ℕ) ∧
      s'.OpenAt tfs file i (min (pos + ws.flatten.length) c.length) (splice c pos ws.flatten) := by
  induction ws generalizing s pos c with
  | nil =>
      refine ⟨[], s, rfl, fun k => rfl, ?_, ?_⟩
      · rw [List.flatten_nil, List.length_nil, Nat.zero_min]
        rfl
      rwa [List.flatten_nil, List.length_nil, Nat.add_zero, Nat.min_eq_left h.pos_le, splice_nil]
  | cons w ws ih =>
      obtain ⟨s1, hrun, h1⟩ := h.write hbuffer w
      obtain ⟨l, s', hrest, hcounts, hsum, h'⟩ := ih h1
      have hpos := h.pos_le
      have hmin : pos + min w.length (c.length - pos) = min (pos + w.length) c.length := by omega
      have hleft : ∀ n, (splice c pos w).length - (pos + min w.length (c.length - pos)) - n
          = c.length - pos - (w.length + n) := by
        intro n
        rw [length_splice c hpos]
        omega
      refine ⟨((min w.length (c.length - pos) : ℕ) : ℤ) :: l, s', ?_, fun k => ?_, ?_, ?_⟩
      · unfold Kudos.writeInTurn
        rw [hrun]
        simp only [hrest]
        rfl
      · cases k with
        | zero => rfl
        | succ k =>
            rw [List.getElem?_cons_succ, List.getElem?_cons_succ, hcounts k, List.take_succ_cons,
              List.flatten_cons, List.length_append]
            simp only [hleft]
      · rw [List.sum_cons, hsum, List.flatten_cons, List.length_append, length_splice c hpos]
        omega
      · have hend : min (pos + min w.length (c.length - pos) + ws.flatten.length)
            (splice c pos w).length = min (pos + (w :: ws).flatten.length) c.length := by
          rw [length_splice c hpos, List.flatten_cons, List.length_append]
          omega
        rwa [hend, hmin, splice_append c hpos, ← List.flatten_cons] at h'

end

/-- The handle that `vfs_open` returns is at the beginning of the file. -/
theorem openAt_of_vfsOpen {tfs : TfsVolume} {s0 s : FsState} {data : ℕ → UInt8}
    {pathname : List UInt8} {file : ℤ} (hready : s0.mem.Ready)
    (hV : SoundVolume tfs.totalblocks (tfs.view s0.disk))
    (hopen : (vfsOpen pathname).runOn (tfsDriver tfs data) s0 = (some file, s)) (hfile : 0 ≤ file) :
    ∃ volumename filename i, vfsParsePathname pathname = some (volumename, filename) ∧
      findName (tfs.view s.disk tfsDirectoryBlock) filename = some i ∧
      s.OpenAt tfs file i 0 (fileContents (tfs.view s.disk) i) := by
  obtain ⟨volumename, filename, fs, proc, ret, bytes, d', hparse, hproc, hrun, hret, rfl⟩ :=
    run_vfsOpen hready hopen hfile
  obtain ⟨name, rfl⟩ := vfsParsePathname_fileName hparse
  cases hproc
  rw [run_withoutData, run_tfsOpen] at hrun
  obtain ⟨hresult, rfl⟩ := Prod.mk.inj hrun
  have hresult := congrArg Prod.fst (Except.ok.inj hresult)
  cases hfind : findName (tfs.view s0.disk tfsDirectoryBlock) name.chars with
  | none =>
      rw [openResult_of_none hfind] at hresult
      obtain rfl := hresult
      exact absurd hret (by decide)
  | some i =>
      rw [openResult_of_some hfind] at hresult
      obtain rfl := hresult
      refine ⟨volumename, name.chars, i, hparse, hfind, ?_⟩
      refine ⟨⟨hready.usable, hready.ops_nonneg, hready.ops_lt, hready.sem_pos⟩, hV,
        hV.live_of_findName hfind, rfl, ⟨fs, ?_⟩, ?_, ?_, Nat.zero_le _⟩
      · rw [VfsTables.setFile_files_self]
      · rw [VfsTables.setFile_files_self]
        rfl
      · rw [VfsTables.setFile_files_self]
        rfl

/-- **It does not matter into which pieces a transfer is split.** Successive reads return the beginning
of the file, as much as they ask for, and successive writes have the effect of one write: the bytes
replace the beginning of the file, and the counts add up to that of the one write. -/
theorem vfsTransfer_inTurn {tfs : TfsVolume} {s0 s : FsState} {data : ℕ → UInt8}
    {pathname : List UInt8} {file : ℤ} {buffer : ℕ} (hready : s0.mem.Ready)
    (hV : SoundVolume tfs.totalblocks (tfs.view s0.disk))
    (hopen : (vfsOpen pathname).runOn (tfsDriver tfs data) s0 = (some file, s)) (hfile : 0 ≤ file)
    (hbuffer : buffer ≠ 0) :
    ∃ volumename filename i c, vfsParsePathname pathname = some (volumename, filename) ∧
      findName (tfs.view s.disk tfsDirectoryBlock) filename = some i ∧
      c = fileContents (tfs.view s.disk) i ∧
      (∀ ns : List ℕ, ∃ l s', readInTurn tfs file buffer ns s = (some l, s') ∧
        l.length = ns.length ∧ (∀ x ∈ l, x.1 = (x.2.length : ℤ)) ∧
        (l.map Prod.snd).flatten = c.take (min ns.sum c.length) ∧
        (∀ k x, l[k]? = some x → x.1 = 0 → ns[k]? = some 0 ∨ c.length ≤ (ns.take k).sum) ∧
        (s'.mem.tables.files file).seekPosition = (min ns.sum c.length : ℕ)) ∧
      ∀ ws : List (List UInt8), ∃ l s1 r s2, writeInTurn tfs file buffer ws s = (some l, s1) ∧
        (vfsWrite file buffer ws.flatten.length).runOn (tfsDriver tfs (ws.flatten.getD · 0)) s
          = (some r, s2) ∧
        fileContents (tfs.view s1.disk) i = fileContents (tfs.view s2.disk) i ∧
        (s1.mem.tables.files file).seekPosition = (s2.mem.tables.files file).seekPosition ∧
        fileContents (tfs.view s1.disk) i = splice c 0 ws.flatten ∧
        (∀ k, l[k]? = ws[k]?.map fun w =>
          ((min w.length (c.length - (ws.take k).flatten.length) : ℕ) : ℤ)) ∧
        l.sum = r ∧ r = (min ws.flatten.length c.length : ℕ) ∧
        (s1.mem.tables.files file).seekPosition = (min ws.flatten.length c.length : ℕ) := by
  obtain ⟨volumename, filename, i, hparse, hfind, hat⟩ := openAt_of_vfsOpen hready hV hopen hfile
  refine ⟨volumename, filename, i, _, hparse, hfind, rfl, fun ns => ?_, fun ws => ?_⟩
  · obtain ⟨l, s', hrun, hpieces, hcounts, hend⟩ := hat.readInTurn hbuffer ns
    rw [List.drop_zero] at hpieces
    have hlength : l.length = ns.length := by
      rw [← List.length_map Prod.snd, hpieces, List.length_splitLengths]
    refine ⟨l, s', hrun, hlength, hcounts, ?_, fun k x hx hzero => ?_, ?_⟩
    · rw [hpieces, flatten_splitLengths_eq_take, ← List.take_take, List.take_length]
    · have hempty : x.2 = [] := by
        rw [hcounts x (List.mem_of_getElem? hx)] at hzero
        exact List.length_eq_zero_iff.1 (by exact_mod_cast hzero)
      refine splitLengths_getElem?_nil ?_
      rw [← hpieces, List.getElem?_map, hx, Option.map_some, hempty]
    · rw [hend.seekPosition, Nat.zero_add]
  · obtain ⟨l, s1, hrun, hcounts, hsum, h1⟩ := hat.writeInTurn hbuffer ws
    obtain ⟨s2, hwrite, h2⟩ := hat.write hbuffer ws.flatten
    refine ⟨l, s1, _, s2, hrun, hwrite, h1.contents.trans h2.contents.symm, ?_, h1.contents, hcounts, hsum,
      ?_, ?_⟩
    · rw [h1.seekPosition, h2.seekPosition, Nat.zero_add, Nat.zero_add, Nat.sub_zero]
    · rw [Nat.sub_zero]
    · rw [h1.seekPosition, Nat.zero_add]

/-- The file of 600 bytes after `vfs_open`. -/
def openedFs : FsState :=
  ((vfsOpen pathA).runOn (tfsDriver (diskVolume 16) fun _ => 0) (mountedSession createdDisk).fs).2

/-- Three reads, of which the last one asks for more than there is, and two writes. -/
theorem vfsTransfer_inTurn_openedFs :
    (∃ l s', readInTurn (diskVolume 16) 0 1 [3, 0, 700] openedFs = (some l, s') ∧ l.length = 3 ∧
      (s'.mem.tables.files 0).seekPosition = 600) ∧
    ∃ l s', writeInTurn (diskVolume 16) 0 1 [[1, 2], [3]] openedFs = (some l, s') ∧ l.sum = 3 ∧
      (fileContents ((diskVolume 16).view s'.disk) 24).take 3 = [1, 2, 3] := by
  have hready : (mountedSession createdDisk).fs.mem.Ready :=
    ⟨rfl, le_refl _, by decide, fun _ => Nat.one_pos⟩
  have hopen : (vfsOpen pathA).runOn (tfsDriver (diskVolume 16) fun _ => 0)
      (mountedSession createdDisk).fs = (some 0, openedFs) := by
    unfold openedFs
    generalize hrun : (vfsOpen pathA).runOn (tfsDriver (diskVolume 16) fun _ => 0)
      (mountedSession createdDisk).fs = r
    refine Prod.ext ?_ rfl
    rw [← hrun]
    decide +kernel
  obtain ⟨volumename, filename, i, c, hparse, hfind, rfl, hreads, hwrites⟩ :=
    vfsTransfer_inTurn hready createdDisk_sound hopen (le_refl _) (by decide : (1 : ℕ) ≠ 0)
  have hname : filename = nameA.chars := by
    have hpath : vfsParsePathname pathA = some ([118], nameA.chars) := by decide +kernel
    exact congrArg Prod.snd (Option.some.inj (hparse.symm.trans hpath))
  have hentry : findName ((diskVolume 16).view openedFs.disk tfsDirectoryBlock) nameA.chars = some 24 := by
    decide +kernel
  rw [hname, hentry] at hfind
  obtain rfl := Option.some.inj hfind
  have hsize : (fileContents ((diskVolume 16).view openedFs.disk) 24).length = 600 := by
    rw [length_fileContents]
    decide +kernel
  obtain ⟨l, s', hrun, hlength, -, -, -, hend⟩ := hreads [3, 0, 700]
  obtain ⟨lw, sw, r, s2, hrunw, -, -, -, hstored, -, hsum, hret, -⟩ := hwrites [[1, 2], [3]]
  rw [hsize] at hend hret
  refine ⟨⟨l, s', hrun, hlength, hend⟩, lw, sw, hrunw, hsum.trans hret, ?_⟩
  rw [hstored]
  unfold splice
  rw [hsize]
  rfl

end Kudos
