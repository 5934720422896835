import Kudos.Fs.TfsCreate
import Kudos.Fs.VfsMount

set_option autoImplicit false

/-! # The virtual filesystem on a TFS volume

The calls of `fs/vfs.c`, one after the other, where the driver behind every mount point is TFS on one
volume. A call changes the tables and the disk; `VfsProc.Ensures` says what they are afterwards and does
not mention the semaphores and the counting of operations, which only decide whether a call waits. -/

namespace Kudos

open Words

/-! ## Runs of calls -/

/-- A driver call that puts nothing into its caller's buffer. -/
def withoutData (p : TfsProc ℤ) : TfsProc (ℤ × List UInt8) := do return (← p, [])

theorem run_withoutData (p : TfsProc ℤ) (d : ℕ → Block) :
    (withoutData p).run none d = ((p.run none d).1.map fun ret => (ret, []), (p.run none d).2) := by
  show (p.bind fun ret => TfsProc.done (ret, [])).run none d = _
  induction p generalizing d with
  | done a => rfl
  | fault f => rfl
  | readBlock n k ih => exact ih _ _
  | writeBlock n b k ih => exact ih _ _

/-- The driver calls as operations on the volume, with what they put into the caller's buffer. `data` is
the buffer of a write. The calls that are left out are not made here. -/
def tfsDriver (tfs : TfsVolume) (data : ℕ → UInt8) : FsCall → Option (TfsProc (ℤ × List UInt8))
  | .open _ filename => some (withoutData (tfsOpen .big tfs filename))
  | .close _ _ => some (withoutData (return vfsOk))
  | .read _ fileid bufsize offset => some (tfsRead .big tfs fileid bufsize offset)
  | .write _ fileid datasize offset =>
      some (withoutData (tfsWrite .big tfs fileid data datasize offset))
  | .create _ filename size => some (withoutData (tfsCreate .big tfs filename size))
  | .remove _ filename => some (withoutData (tfsRemove .big tfs filename))
  | .getfree _ => some (withoutData (tfsGetfree .big tfs))
  | .unmount _ | .filecount _ _ | .file _ _ _ => none

/-- The memory of the VFS, the disk, and what the last driver call put into the buffer of its caller. -/
structure FsState where
  mem : VfsMemory
  disk : ℕ → Block
  received : List UInt8

/-- A call from its start to its end. Without a result it has crashed or waits forever, and the state is
the one of that moment. -/
def VfsProc.runOn {α : Type} (drive : FsCall → Option (TfsProc (ℤ × List UInt8))) :
    VfsProc α → FsState → Option α × FsState
  | done a, s => (some a, s)
  | panic, s => (none, s)
  | startOp k, s =>
      let (ret, ops) := startOpBody s.mem.ops
      (k ret).runOn drive { s with mem := { s.mem with ops := ops } }
  | endOp k, s =>
      match endOpBody s.mem.ops with
      | .ok (_, ops) => k.runOn drive { s with mem := { s.mem with ops := ops } }
      | .error _ => (none, s)
  | semaphoreP sem k, s =>
      if 0 < s.mem.sem sem then
        k.runOn drive { s with
          mem := { s.mem with sem := Function.update s.mem.sem sem (s.mem.sem sem - 1) } }
      else (none, s)
  | semaphoreV sem k, s =>
      k.runOn drive { s with
        mem := { s.mem with sem := Function.update s.mem.sem sem (s.mem.sem sem + 1) } }
  | load k, s => (k s.mem.tables).runOn drive s
  | store f k, s => k.runOn drive { s with mem := { s.mem with tables := f s.mem.tables } }
  | verifyOpen file k, s => (k ((s.mem.tables.files file).filesystem ≠ none)).runOn drive s
  | driver call k, s =>
      match drive call with
      | none => (none, s)
      | some proc =>
          match proc.run none s.disk with
          | (.ok (ret, bytes), disk) => (k ret).runOn drive ⟨s.mem, disk, bytes⟩
          | (.error _, disk) => (none, { s with disk := disk })

/-! ## What a call ensures -/

section

variable {α β : Type} (drive : FsCall → Option (TfsProc (ℤ × List UInt8)))

/-- A call on these tables and this disk returns with a result, tables and a disk as `Q` says, or it does
not return and leaves a disk as `C` says. -/
def VfsProc.Ensures (p : VfsProc α) (t : VfsTables) (d : ℕ → Block) (C : (ℕ → Block) → Prop)
    (Q : α → VfsTables → (ℕ → Block) → Prop) : Prop :=
  ∀ s, s.mem.tables = t → s.disk = d →
    match p.runOn drive s with
    | (some a, s') => Q a s'.mem.tables s'.disk
    | (none, s') => C s'.disk

variable {drive} {t : VfsTables} {d : ℕ → Block} {C : (ℕ → Block) → Prop}

theorem VfsProc.runOn_bind (p : VfsProc α) (f : α → VfsProc β) (s : FsState) :
    (p >>= f).runOn drive s =
      match p.runOn drive s with
      | (some a, s') => (f a).runOn drive s'
      | (none, s') => (none, s') := by
  show (p.bind f).runOn drive s = _
  induction p generalizing s with
  | done a => rfl
  | panic => rfl
  | startOp k ih => exact ih _ _
  | endOp k ih =>
      simp only [VfsProc.bind, VfsProc.runOn]
      cases endOpBody s.mem.ops with
      | error e => rfl
      | ok r => exact ih _
  | semaphoreP sem k ih =>
      simp only [VfsProc.bind, VfsProc.runOn]
      by_cases hsem : 0 < s.mem.sem sem
      · rw [if_pos hsem, if_pos hsem]
        exact ih _
      · rw [if_neg hsem, if_neg hsem]
  | semaphoreV sem k ih => exact ih _
  | load k ih => exact ih _ _
  | store g k ih => exact ih _
  | verifyOpen file k ih => exact ih _ _
  | driver call k ih =>
      simp only [VfsProc.bind, VfsProc.runOn]
      cases drive call with
      | none => rfl
      | some proc =>
          simp only
          obtain ⟨r, d', hrun⟩ : ∃ r d', proc.run none s.disk = (r, d') := ⟨_, _, rfl⟩
          rw [hrun]
          cases r with
          | error e => rfl
          | ok r => exact ih _ _

theorem ensures_pure {Q : α → VfsTables → (ℕ → Block) → Prop} {a : α} (h : Q a t d) :
    (pure a : VfsProc α).Ensures drive t d C Q := by
  rintro s rfl rfl
  exact h

theorem ensures_bind {Q : β → VfsTables → (ℕ → Block) → Prop} {p : VfsProc α} {f : α → VfsProc β}
    (h : p.Ensures drive t d C fun a t' d' => (f a).Ensures drive t' d' C Q) :
    (p >>= f).Ensures drive t d C Q := by
  intro s ht hd
  have hp := h s ht hd
  rw [VfsProc.runOn_bind]
  obtain ⟨r, s', hrun⟩ : ∃ r s', p.runOn drive s = (r, s') := ⟨_, _, rfl⟩
  rw [hrun] at hp ⊢
  cases r with
  | none => exact hp
  | some a => exact hp s' rfl rfl

theorem ensures_vfsStartOp {Q : ℤ → VfsTables → (ℕ → Block) → Prop} (h : ∀ r, Q r t d) :
    vfsStartOp.Ensures drive t d C Q := by
  rintro s rfl rfl
  exact h _

theorem ensures_vfsEndOp {Q : Unit → VfsTables → (ℕ → Block) → Prop} (hC : C d) (h : Q () t d) :
    vfsEndOp.Ensures drive t d C Q := by
  rintro s rfl rfl
  unfold vfsEndOp VfsProc.runOn
  cases endOpBody s.mem.ops with
  | error e => exact hC
  | ok r => exact h

theorem ensures_semP {Q : Unit → VfsTables → (ℕ → Block) → Prop} (sem : VfsSem) (hC : C d)
    (h : Q () t d) : (semP sem).Ensures drive t d C Q := by
  rintro s rfl rfl
  unfold semP VfsProc.runOn
  by_cases hsem : 0 < s.mem.sem sem
  · rw [if_pos hsem]
    exact h
  · rw [if_neg hsem]
    exact hC

theorem ensures_semV {Q : Unit → VfsTables → (ℕ → Block) → Prop} (sem : VfsSem) (h : Q () t d) :
    (semV sem).Ensures drive t d C Q := by
  rintro s rfl rfl
  exact h

theorem ensures_loadTables {Q : VfsTables → VfsTables → (ℕ → Block) → Prop} (h : Q t t d) :
    loadTables.Ensures drive t d C Q := by
  rintro s rfl rfl
  exact h

theorem ensures_storeTables {Q : Unit → VfsTables → (ℕ → Block) → Prop} {f : VfsTables → VfsTables}
    (h : Q () (f t) d) : (storeTables f).Ensures drive t d C Q := by
  rintro s rfl rfl
  exact h

theorem ensures_vfsVerifyOpen {Q : Bool → VfsTables → (ℕ → Block) → Prop} {file : ℤ}
    (h : Q ((t.files file).filesystem ≠ none) t d) : (vfsVerifyOpen file).Ensures drive t d C Q := by
  rintro s rfl rfl
  exact h

theorem ensures_vfsAssert {Q : Unit → VfsTables → (ℕ → Block) → Prop} {c : Prop} [Decidable c]
    (hC : C d) (h : c → Q () t d) : (vfsAssert c).Ensures drive t d C Q := by
  unfold vfsAssert
  by_cases hc : c
  · rw [if_pos hc]
    exact ensures_pure (h hc)
  · rw [if_neg hc]
    rintro s rfl rfl
    exact hC

/-- What is true of the disk in all of these cases is true of it after the call. -/
theorem VfsProc.Ensures.disk {Q : α → VfsTables → (ℕ → Block) → Prop} {p : VfsProc α}
    (h : p.Ensures drive t d C Q) (hQ : ∀ a t' d', Q a t' d' → C d') {s : FsState}
    (ht : s.mem.tables = t) (hd : s.disk = d) : C (p.runOn drive s).2.disk := by
  have hp := h s ht hd
  obtain ⟨r, s', hrun⟩ : ∃ r s', p.runOn drive s = (r, s') := ⟨_, _, rfl⟩
  rw [hrun] at hp ⊢
  cases r with
  | none => exact hp
  | some a => exact hQ a _ _ hp

theorem VfsProc.Ensures.result {Q : α → VfsTables → (ℕ → Block) → Prop} {p : VfsProc α}
    (h : p.Ensures drive t d C Q) {s s' : FsState} {a : α} (ht : s.mem.tables = t) (hd : s.disk = d)
    (hrun : p.runOn drive s = (some a, s')) : Q a s'.mem.tables s'.disk := by
  have hp := h s ht hd
  rwa [hrun] at hp

/-- A call through a pointer that is not `NULL` is a run of the driver. -/
theorem ensures_fsCall {Q : ℤ → VfsTables → (ℕ → Block) → Prop} {fs : Option ℕ} {call : ℕ → FsCall}
    (hC : C d)
    (h : ∀ fs' proc r d', fs = some fs' → drive (call fs') = some proc → proc.run none d = (r, d') →
      match r with
      | .ok (ret, _) => Q ret t d'
      | .error _ => C d') :
    (fsCall fs call).Ensures drive t d C Q := by
  cases fs with
  | none =>
      rintro s rfl rfl
      exact hC
  | some fs =>
      rintro s rfl rfl
      unfold fsCall VfsProc.runOn
      cases hproc : drive (call fs) with
      | none => exact hC
      | some proc =>
          simp only
          obtain ⟨r, d', hrun⟩ : ∃ r d', proc.run none s.disk = (r, d') := ⟨_, _, rfl⟩
          have hdriver := h fs proc r d' rfl hproc hrun
          rw [hrun]
          cases r with
          | error e => exact hdriver
          | ok r => exact hdriver

end

/-! ## Path names -/

theorem parseFilename_some {n : ℕ} {pathname buf filename : List UInt8}
    (h : parseFilename n pathname buf = some filename) (hbuf : ∀ c ∈ buf, c ≠ 0) :
    filename ≠ [] ∧ filename.length + 1 ≤ buf.length + n ∧ ∀ c ∈ filename, c ≠ 0 := by
  induction n generalizing pathname buf with
  | zero => cases h
  | succ n ih =>
      unfold parseFilename at h
      by_cases hend : pathname.headD 0 = 0
      · rw [if_pos hend] at h
        by_cases hempty : buf = []
        · rw [if_pos hempty] at h
          cases h
        · rw [if_neg hempty] at h
          cases h
          exact ⟨hempty, by omega, hbuf⟩
      · rw [if_neg hend] at h
        have hbuf' : ∀ c ∈ buf ++ [pathname.headD 0], c ≠ 0 := by
          intro c hc
          rcases List.mem_append.1 hc with hc | hc
          · exact hbuf c hc
          · rwa [List.mem_singleton.1 hc]
        obtain ⟨hne, hlen, hnz⟩ := ih h hbuf'
        rw [List.length_append, List.length_singleton] at hlen
        exact ⟨hne, by omega, hnz⟩

/-- What `vfs_parse_pathname` finds is a file name. -/
theorem vfsParsePathname_fileName {pathname volumename filename : List UInt8}
    (h : vfsParsePathname pathname = some (volumename, filename)) :
    ∃ name : FileName, name.chars = filename := by
  have hparse : ∃ rest, parseFilename vfsNameLength rest [] = some filename := by
    unfold vfsParsePathname at h
    simp only [Option.bind_eq_bind] at h
    split at h <;>
    · rw [Option.bind_eq_some_iff] at h
      obtain ⟨⟨rest, volume⟩, -, h⟩ := h
      rw [Option.bind_eq_some_iff] at h
      obtain ⟨name, hname, heq⟩ := h
      cases heq
      exact ⟨rest, hname⟩
  obtain ⟨rest, hname⟩ := hparse
  obtain ⟨hne, hlen, hnz⟩ := parseFilename_some hname (fun c hc => absurd hc List.not_mem_nil)
  refine ⟨⟨filename, hne, ?_, hnz⟩, rfl⟩
  simp only [List.length_nil, vfsNameLength] at hlen
  simp only [tfsFilenameMax]
  omega

/-! ## The open file table -/

/-- The rows refer to the same files. -/
structure VfsTables.SameHandles (t t' : VfsTables) : Prop where
  filesystem : ∀ file, (t'.files file).filesystem = (t.files file).filesystem
  fileid : ∀ file, (t'.files file).fileid = (t.files file).fileid

theorem VfsTables.SameHandles.refl (t : VfsTables) : t.SameHandles t := ⟨fun _ => rfl, fun _ => rfl⟩

theorem VfsTables.sameHandles_setFile {t : VfsTables} {file : ℤ} {e : OpenfileEntry}
    (hfilesystem : e.filesystem = (t.files file).filesystem)
    (hfileid : e.fileid = (t.files file).fileid) : t.SameHandles (t.setFile file e) where
  filesystem := setFile_filesystem hfilesystem
  fileid file' := by
    by_cases hfile : file' = file
    · rw [hfile, setFile_files_self, hfileid]
    · rw [setFile_files_of_ne t hfile]

/-! ## The calls -/

-- the search runs over 512 rows and must not be evaluated
attribute [local irreducible] VfsTables.findFile

section

variable {drive : FsCall → Option (TfsProc (ℤ × List UInt8))} {t : VfsTables} {d : ℕ → Block}
  {C : (ℕ → Block) → Prop}

/-- `vfs_read` and `vfs_write` return before they call the driver, or call it for the file of the row. -/
theorem vfsTransfer_ensures {Q : ℤ → VfsTables → (ℕ → Block) → Prop} {call : ℕ → ℤ → ℤ → ℤ → FsCall}
    {file : ℤ} {buffer : ℕ} {size : ℤ} (hC : C d) (hsame : ∀ r, Q r t d)
    (hdrive : ∀ fs proc r d', (t.files file).filesystem = some fs → 0 ≤ size →
      drive (call fs (t.files file).fileid size (t.files file).seekPosition) = some proc →
      proc.run none d = (r, d') → C d' ∧ ∀ ret bytes t', r = .ok (ret, bytes) →
        t.SameHandles t' → Q ret t' d') :
    (vfsTransfer call file buffer size).Ensures drive t d C Q := by
  unfold vfsTransfer
  refine ensures_bind (ensures_vfsStartOp fun started => ?_)
  split
  · exact ensures_pure (hsame _)
  refine ensures_bind (ensures_vfsVerifyOpen ?_)
  split
  · exact ensures_pure (hsame _)
  refine ensures_bind (ensures_loadTables ?_)
  refine ensures_bind (ensures_vfsAssert hC fun hsize => ?_)
  refine ensures_bind (ensures_loadTables ?_)
  refine ensures_bind (ensures_fsCall hC fun fs proc r d' hfs hproc hrun => ?_)
  obtain ⟨hcrash, hresult⟩ := hdrive fs proc r d' hfs hsize.1 hproc hrun
  cases r with
  | error e => exact hcrash
  | ok r =>
      obtain ⟨ret, bytes⟩ := r
      have hret : ∀ t', t.SameHandles t' → Q ret t' d' := fun t' => hresult ret bytes t' rfl
      simp only
      -- the seek position moves only if there were bytes
      split
      · refine ensures_bind (ensures_semP _ hcrash (ensures_bind (ensures_storeTables ?_)))
        refine ensures_bind (ensures_semV _ ?_)
        refine ensures_bind (ensures_vfsEndOp hcrash (ensures_pure (hret _ ?_)))
        exact VfsTables.sameHandles_setFile rfl rfl
      · exact ensures_bind (ensures_vfsEndOp hcrash (ensures_pure (hret _ (.refl t))))

theorem vfsSeek_ensures {Q : ℤ → VfsTables → (ℕ → Block) → Prop} {file seekPosition : ℤ} (hC : C d)
    (hsame : ∀ r t', t.SameHandles t' → Q r t' d) :
    (vfsSeek file seekPosition).Ensures drive t d C Q := by
  unfold vfsSeek
  refine ensures_bind (ensures_vfsStartOp fun started => ?_)
  split
  · exact ensures_pure (hsame _ _ (.refl t))
  split
  · exact ensures_pure (hsame _ _ (.refl t))
  refine ensures_bind (ensures_semP _ hC (ensures_bind (ensures_vfsVerifyOpen ?_)))
  split
  · exact ensures_bind (ensures_semV _ (ensures_pure (hsame _ _ (.refl t))))
  · refine ensures_bind (ensures_storeTables (ensures_bind (ensures_semV _ ?_)))
    refine ensures_bind (ensures_vfsEndOp hC (ensures_pure (hsame _ _ ?_)))
    exact VfsTables.sameHandles_setFile rfl rfl

/-- `vfs_close` fails, or calls the driver and frees the row. -/
theorem vfsClose_ensures {Q : ℤ → VfsTables → (ℕ → Block) → Prop} {file : ℤ} (hC : C d)
    (hfail : ∀ r, r ≠ vfsOk → Q r t d)
    (hdrive : ∀ fs proc r d', (t.files file).filesystem = some fs →
      drive (.close fs (t.files file).fileid) = some proc → proc.run none d = (r, d') →
      C d' ∧ ∀ ret bytes, r = .ok (ret, bytes) →
        Q ret (t.setFile file { t.files file with filesystem := none }) d') :
    (vfsClose file).Ensures drive t d C Q := by
  unfold vfsClose
  refine ensures_bind (ensures_vfsStartOp fun started => ?_)
  split
  · exact ensures_pure (hfail _ (by decide))
  refine ensures_bind (ensures_semP _ hC (ensures_bind (ensures_vfsVerifyOpen ?_)))
  split
  · exact ensures_bind (ensures_semV _ (ensures_pure (hfail _ (by decide))))
  refine ensures_bind (ensures_loadTables ?_)
  refine ensures_bind (ensures_fsCall hC fun fs proc r d' hfs hproc hrun => ?_)
  obtain ⟨hcrash, hresult⟩ := hdrive fs proc r d' hfs hproc hrun
  cases r with
  | error e => exact hcrash
  | ok r =>
      refine ensures_bind (ensures_storeTables (ensures_bind (ensures_semV _ ?_)))
      exact ensures_bind (ensures_vfsEndOp hcrash (ensures_pure (hresult r.1 r.2 rfl)))

/-- `vfs_create` and `vfs_remove` fail, or call the driver with the name in the path. -/
theorem callPath_ensures {Q : ℤ → VfsTables → (ℕ → Block) → Prop} {pathname : List UInt8}
    {call : ℕ → List UInt8 → FsCall} (hC : C d) (hfail : ∀ r, Q r t d)
    (hdrive : ∀ fs volumename filename proc r d',
      vfsParsePathname pathname = some (volumename, filename) → drive (call fs filename) = some proc →
      proc.run none d = (r, d') → C d' ∧ ∀ ret bytes, r = .ok (ret, bytes) → Q ret t d') :
    (callPath pathname call).Ensures drive t d C Q := by
  unfold callPath
  cases hparse : vfsParsePathname pathname with
  | none => exact ensures_bind (ensures_vfsEndOp hC (ensures_pure (hfail _)))
  | some names =>
      simp only [callVolume]
      refine ensures_bind (ensures_semP _ hC (ensures_bind (ensures_loadTables ?_)))
      split
      · refine ensures_bind (ensures_semV _ ?_)
        exact ensures_bind (ensures_vfsEndOp hC (ensures_pure (hfail _)))
      · refine ensures_bind (ensures_fsCall hC fun fs proc r d' _ hproc hrun => ?_)
        obtain ⟨hcrash, hresult⟩ := hdrive fs names.1 names.2 proc r d' hparse hproc hrun
        cases r with
        | error e => exact hcrash
        | ok r =>
            refine ensures_bind (ensures_semV _ ?_)
            exact ensures_bind (ensures_vfsEndOp hcrash (ensures_pure (hresult r.1 r.2 rfl)))

/-- `vfs_open` takes a free row. If the driver does not find the file, the row is free again. -/
theorem vfsOpen_ensures {Q : ℤ → VfsTables → (ℕ → Block) → Prop} {pathname : List UInt8} (hC : C d)
    (hfail : ∀ r < 0, Q r t d)
    (hdrive : ∀ fs volumename filename proc r d',
      vfsParsePathname pathname = some (volumename, filename) →
      drive (.open fs filename) = some proc → proc.run none d = (r, d') →
      C d' ∧ ∀ ret bytes, r = .ok (ret, bytes) → (ret < 0 → Q ret t d') ∧
        (0 ≤ ret → ∀ file : ℕ, file < configMaxOpenFiles → (t.files file).filesystem = none →
          Q file (t.setFile file ⟨some fs, ret, 0⟩) d')) :
    (vfsOpen pathname).Ensures drive t d C Q := by
  unfold vfsOpen
  refine ensures_bind (ensures_vfsStartOp fun started => ?_)
  split
  · exact ensures_pure (hfail _ (by decide))
  cases hparse : vfsParsePathname pathname with
  | none => exact ensures_bind (ensures_vfsEndOp hC (ensures_pure (hfail _ (by decide))))
  | some names =>
      simp only
      refine ensures_bind (ensures_semP _ hC (ensures_bind (ensures_semP _ hC ?_)))
      refine ensures_bind (ensures_loadTables ?_)
      split
      · refine ensures_bind (ensures_semV _ (ensures_bind (ensures_semV _ ?_)))
        exact ensures_bind (ensures_vfsEndOp hC (ensures_pure (hfail _ (by decide))))
      · next file hfind =>
          obtain ⟨hlt, hfree⟩ := VfsTables.findFile_eq_some hfind
          rw [decide_eq_true_eq] at hfree
          split
          · refine ensures_bind (ensures_semV _ (ensures_bind (ensures_semV _ ?_)))
            exact ensures_bind (ensures_vfsEndOp hC (ensures_pure (hfail _ (by decide))))
          refine ensures_bind (ensures_storeTables (ensures_bind (ensures_semV _ ?_)))
          refine ensures_bind (ensures_semV _ ?_)
          refine ensures_bind (ensures_fsCall hC fun fs proc r d' hfs hproc hrun => ?_)
          obtain ⟨hcrash, hresult⟩ := hdrive fs names.1 names.2 proc r d' hparse hproc hrun
          cases r with
          | error e => exact hcrash
          | ok r =>
              obtain ⟨hnotFound, hfound⟩ := hresult r.1 r.2 rfl
              simp only
              split
              · next hneg =>
                  -- what was in the row comes back
                  have hback : (t.setFile file { t.files file with
                      filesystem := vfsGetFilesystem t names.1 }).setFile file
                        { t.files file with filesystem := none } = t := by
                    have hrow : { t.files file with filesystem := none } = t.files file :=
                      OpenfileEntry.ext hfree.symm rfl rfl
                    unfold VfsTables.setFile
                    simp only [Function.update_idem]
                    rw [hrow, Function.update_eq_self]
                  refine ensures_bind (ensures_semP _ hcrash (ensures_bind (ensures_storeTables ?_)))
                  refine ensures_bind (ensures_semV _ (ensures_bind (ensures_vfsEndOp hcrash ?_)))
                  refine ensures_pure ?_
                  simp only [VfsTables.setFile_files_self]
                  rw [hback]
                  exact hnotFound hneg
              · next hneg =>
                  refine ensures_bind (ensures_storeTables (ensures_bind (ensures_storeTables ?_)))
                  refine ensures_bind (ensures_vfsEndOp hcrash (ensures_pure ?_))
                  have hrow := hfound (Int.not_lt.1 hneg) file hlt hfree
                  unfold VfsTables.setFile at hrow ⊢
                  simp only [Function.update_idem, Function.update_self]
                  rw [hfs]
                  exact hrow

end

end Kudos
