import Kudos.Fs.TfsByteOrder
import Kudos.Fs.VfsChunks

set_option autoImplicit false

/-! # What a call of the virtual filesystem changes

A call that returns, on any state of the VFS. The semaphores and the number of operations decide
whether it returns, and the rest of the state (`VfsView`) decides what it returns and what is in the
tables afterwards. Every filesystem is TFS on a volume of its own. -/

namespace Kudos

open CInt Words

/-! ## Drivers of several volumes -/

/-- The filesystem that a call goes to. -/
def FsCall.filesystem : FsCall → ℕ
  | unmount fs | «open» fs _ | close fs _ | read fs _ _ _ | write fs _ _ _ | create fs _ _
  | remove fs _ | getfree fs | filecount fs _ | file fs _ _ => fs

/-- The drivers, where nothing is written. -/
def volumesDriver (volumes : ℕ → TfsVolume) (call : FsCall) : Option (TfsProc (ℤ × List UInt8)) :=
  tfsDriver (volumes call.filesystem) (fun _ => 0) call

/-- Files are opened and read in the same way on a machine of either byte order, so also on `x86_64`, where
the executables are read. -/
theorem volumesDriver_eq (e : Endian) (volumes : ℕ → TfsVolume) (fs : ℕ) :
    (∀ filename, volumesDriver volumes (.open fs filename)
      = some (withoutData (tfsOpen e (volumes fs) filename))) ∧
    ∀ fileid bufsize offset, volumesDriver volumes (.read fs fileid bufsize offset)
      = some (tfsRead e (volumes fs) fileid bufsize offset) := by
  refine ⟨fun filename => ?_, fun fileid bufsize offset => ?_⟩
  · rw [tfsOpen_eq e .big]
    rfl
  · rw [tfsRead_eq e .big]
    rfl

/-! ## Views -/

/-- The state of the VFS without its semaphores and without the number of operations. -/
@[ext]
structure VfsView where
  usable : Bool
  tables : VfsTables
  disk : ℕ → Block
  received : List UInt8

def FsState.view (s : FsState) : VfsView := ⟨s.mem.ops.vfsUsable, s.mem.tables, s.disk, s.received⟩

section

variable {α β : Type}

/-- If the call returns on a state with this view, then its result and the view afterwards are as `Q`
says. -/
def VfsProc.Gives (drive : FsCall → Option (TfsProc (ℤ × List UInt8))) (p : VfsProc α) (v : VfsView)
    (Q : α → VfsView → Prop) : Prop :=
  ∀ s a s', s.view = v → p.runOn drive s = (some a, s') → Q a s'.view

variable {drive : FsCall → Option (TfsProc (ℤ × List UInt8))} {v : VfsView}

theorem gives_pure {Q : α → VfsView → Prop} {a : α} (h : Q a v) :
    (pure a : VfsProc α).Gives drive v Q := by
  rintro s a s' rfl hrun
  cases hrun
  exact h

theorem gives_bind {Q : β → VfsView → Prop} {p : VfsProc α} {f : α → VfsProc β}
    (h : p.Gives drive v fun a v' => (f a).Gives drive v' Q) : (p >>= f).Gives drive v Q := by
  intro s b s' hv hrun
  obtain ⟨a, s1, hp, hf⟩ := VfsProc.runOn_bind_eq_some hrun
  exact h s a s1 hv hp s1 b s' rfl hf

theorem VfsProc.Gives.mono {Q Q' : α → VfsView → Prop} {p : VfsProc α} (h : p.Gives drive v Q)
    (himp : ∀ a v', Q a v' → Q' a v') : p.Gives drive v Q' :=
  fun s a s' hv hrun => himp a _ (h s a s' hv hrun)

theorem gives_vfsStartOp {Q : ℤ → VfsView → Prop}
    (h : Q (if v.usable then vfsOk else vfsUnusable) v) : vfsStartOp.Gives drive v Q := by
  rintro s a s' rfl hrun
  cases hrun
  show Q (startOpBody s.mem.ops).1 ⟨(startOpBody s.mem.ops).2.vfsUsable, _, _, _⟩
  unfold FsState.view at h
  unfold startOpBody
  cases hu : s.mem.ops.vfsUsable with
  | true =>
      rw [hu, if_pos rfl] at h
      rw [if_pos rfl]
      exact h
  | false =>
      rw [hu, if_neg Bool.false_ne_true] at h
      rw [if_neg Bool.false_ne_true, hu]
      exact h

theorem gives_vfsEndOp {Q : Unit → VfsView → Prop} (h : Q () v) : vfsEndOp.Gives drive v Q := by
  rintro s a s' rfl hrun
  simp only [vfsEndOp, VfsProc.runOn, endOpBody, kernelAssert] at hrun
  by_cases hops : 0 ≤ wrap32 (s.mem.ops.vfsOps - 1)
  · rw [if_pos hops] at hrun
    cases hrun
    exact h
  · rw [if_neg hops] at hrun
    cases hrun

theorem gives_semP {Q : Unit → VfsView → Prop} (sem : VfsSem) (h : Q () v) :
    (semP sem).Gives drive v Q := by
  rintro s a s' rfl hrun
  unfold semP VfsProc.runOn at hrun
  by_cases hsem : 0 < s.mem.sem sem
  · rw [if_pos hsem] at hrun
    cases hrun
    exact h
  · rw [if_neg hsem] at hrun
    cases hrun

theorem gives_semV {Q : Unit → VfsView → Prop} (sem : VfsSem) (h : Q () v) :
    (semV sem).Gives drive v Q := by
  rintro s a s' rfl hrun
  cases hrun
  exact h

theorem gives_loadTables {Q : VfsTables → VfsView → Prop} (h : Q v.tables v) :
    loadTables.Gives drive v Q := by
  rintro s a s' rfl hrun
  cases hrun
  exact h

theorem gives_storeTables {Q : Unit → VfsView → Prop} {f : VfsTables → VfsTables}
    (h : Q () { v with tables := f v.tables }) : (storeTables f).Gives drive v Q := by
  rintro s a s' rfl hrun
  cases hrun
  exact h

theorem gives_vfsVerifyOpen {Q : Bool → VfsView → Prop} {file : ℤ}
    (h : Q ((v.tables.files file).filesystem ≠ none) v) : (vfsVerifyOpen file).Gives drive v Q := by
  rintro s a s' rfl hrun
  cases hrun
  exact h

theorem gives_vfsAssert {Q : Unit → VfsView → Prop} {c : Prop} [Decidable c] (h : c → Q () v) :
    (vfsAssert c).Gives drive v Q := by
  unfold vfsAssert
  by_cases hc : c
  · rw [if_pos hc]
    exact gives_pure (h hc)
  · rw [if_neg hc]
    intro s a s' _ hrun
    cases hrun

theorem gives_fsCall {Q : ℤ → VfsView → Prop} {fs : Option ℕ} {call : ℕ → FsCall}
    (h : ∀ fs' proc ret bytes d', fs = some fs' → drive (call fs') = some proc →
      proc.run none v.disk = (.ok (ret, bytes), d') → Q ret { v with disk := d', received := bytes }) :
    (fsCall fs call).Gives drive v Q := by
  cases fs with
  | none =>
      intro s a s' _ hrun
      cases hrun
  | some fs =>
      rintro s a s' rfl hrun
      unfold fsCall VfsProc.runOn at hrun
      cases hproc : drive (call fs) with
      | none =>
          rw [hproc] at hrun
          cases hrun
      | some proc =>
          simp only [hproc] at hrun
          obtain ⟨r, d', hproc'⟩ : ∃ r d', proc.run none s.disk = (r, d') := ⟨_, _, rfl⟩
          rw [hproc'] at hrun
          cases r with
          | error e => cases hrun
          | ok r =>
              cases hrun
              exact h fs proc r.1 r.2 d' rfl hproc hproc'

end

/-! ## Opening -/

/-- The file that `vfs_open` finds: its filesystem and its identifier. -/
def VfsView.findFile (volumes : ℕ → TfsVolume) (v : VfsView) (pathname : List UInt8) :
    Option (ℕ × ℤ) := do
  let (volumename, filename) ← vfsParsePathname pathname
  let _ ← v.tables.findFile (·.filesystem = none)
  let fs ← vfsGetFilesystem v.tables volumename
  let fileid := openResult ((volumes fs).view v.disk) filename
  if v.usable ∧ 0 ≤ fileid then some (fs, fileid) else none

theorem VfsView.usable_of_findFile {volumes : ℕ → TfsVolume} {v : VfsView} {pathname : List UInt8}
    {found : ℕ × ℤ} (h : v.findFile volumes pathname = some found) : v.usable = true := by
  unfold findFile at h
  simp only [Option.bind_eq_bind, Option.bind_eq_some_iff] at h
  obtain ⟨names, -, row, -, fs, -, hfound⟩ := h
  by_contra husable
  rw [if_neg fun hopens => husable hopens.1] at hfound
  cases hfound

/-- A file is open at a row, with this position. -/
structure VfsView.OpenAt (v : VfsView) (file : ℤ) (fs : ℕ) (fileid position : ℤ) : Prop where
  usable : v.usable = true
  row : v.tables.files file = ⟨some fs, fileid, position⟩

/-- The view with another position in a row. -/
def VfsView.seek (v : VfsView) (file position : ℤ) : VfsView :=
  { v with tables := v.tables.setFile file { v.tables.files file with seekPosition := position } }

/-- Only the position of one row, and what was received last, is different. -/
def VfsView.Moves (file : ℤ) (v v' : VfsView) : Prop :=
  ∃ position received, v' = { v.seek file position with received := received }

section

variable {volumes : ℕ → TfsVolume} {v v' v'' : VfsView} {file position : ℤ} {fs : ℕ} {fileid : ℤ}

@[simp]
theorem VfsView.seek_files_self (v : VfsView) (file position : ℤ) :
    (v.seek file position).tables.files file
      = { v.tables.files file with seekPosition := position } :=
  VfsTables.setFile_files_self ..

theorem VfsView.seek_seekPosition (v : VfsView) (file : ℤ) :
    v.seek file (v.tables.files file).seekPosition = v := by
  unfold seek VfsTables.setFile
  rw [Function.update_eq_self]

theorem VfsView.seek_seek (v : VfsView) (file position position' : ℤ) :
    (v.seek file position).seek file position' = v.seek file position' := by
  unfold seek VfsTables.setFile
  simp only [Function.update_idem, Function.update_self]

theorem VfsView.Moves.refl (file : ℤ) (v : VfsView) : v.Moves file v :=
  ⟨(v.tables.files file).seekPosition, v.received, by rw [v.seek_seekPosition]⟩

theorem VfsView.Moves.trans (h : v.Moves file v') (h' : v'.Moves file v'') : v.Moves file v'' := by
  obtain ⟨p, r, rfl⟩ := h
  obtain ⟨p', r', rfl⟩ := h'
  refine ⟨p', r', ?_⟩
  rw [← v.seek_seek file p p']
  rfl

theorem VfsView.OpenAt.seek (h : v.OpenAt file fs fileid position) (position' : ℤ)
    (received : List UInt8) :
    OpenAt { v.seek file position' with received := received } file fs fileid position' where
  usable := h.usable
  row := by rw [VfsView.seek_files_self, h.row]

theorem VfsView.OpenAt.moves (h : v.OpenAt file fs fileid position) (hmoves : v.Moves file v') :
    ∃ position', v'.OpenAt file fs fileid position' := by
  obtain ⟨p, r, rfl⟩ := hmoves
  exact ⟨p, h.seek p r⟩

/-- After a `vfs_open` that has returned `file`: a free row is taken if the file was found, and else the
tables are as they were. -/
def VfsView.AfterOpen (volumes : ℕ → TfsVolume) (v : VfsView) (pathname : List UInt8) (file : ℤ)
    (v' : VfsView) : Prop :=
  v'.usable = v.usable ∧ v'.disk = v.disk ∧
    match v.findFile volumes pathname with
    | none => file < 0 ∧ v'.tables = v.tables
    | some (fs, fileid) => 0 ≤ file ∧ (v.tables.files file).filesystem = none ∧
        v'.tables = v.tables.setFile file ⟨some fs, fileid, 0⟩

theorem VfsView.afterOpen_none {pathname : List UInt8} {ret : ℤ} {received : List UInt8}
    (hfind : v.findFile volumes pathname = none) (hret : ret < 0) :
    v.AfterOpen volumes pathname ret { v with received := received } := by
  unfold AfterOpen
  rw [hfind]
  exact ⟨rfl, rfl, hret, rfl⟩

theorem vfsOpen_gives (volumes : ℕ → TfsVolume) (v : VfsView) (pathname : List UInt8) :
    (vfsOpen pathname).Gives (volumesDriver volumes) v (v.AfterOpen volumes pathname) := by
  -- a call that fails before the driver is asked
  have hfail : ∀ r, r < 0 → v.findFile volumes pathname = none → v.AfterOpen volumes pathname r v :=
    fun r hr hnone => VfsView.afterOpen_none hnone hr
  unfold vfsOpen
  refine gives_bind (gives_vfsStartOp ?_)
  by_cases husable : v.usable = true
  swap
  · rw [if_neg husable, if_pos (by decide)]
    refine gives_pure (hfail vfsUnusable (by decide) ?_)
    simp [VfsView.findFile, husable]
  · rw [if_pos husable, if_neg (by decide)]
    cases hparse : vfsParsePathname pathname with
    | none =>
        refine gives_bind (gives_vfsEndOp (gives_pure (hfail vfsError (by decide) ?_)))
        simp [VfsView.findFile, hparse]
    | some names =>
        refine gives_bind (gives_semP _ (gives_bind (gives_semP _ (gives_bind (gives_loadTables ?_)))))
        cases hrow : v.tables.findFile (·.filesystem = none) with
        | none =>
            refine gives_bind (gives_semV _ (gives_bind (gives_semV _ (gives_bind ?_))))
            refine gives_vfsEndOp (gives_pure (hfail vfsLimit (by decide) ?_))
            simp [VfsView.findFile, hparse, hrow]
        | some file =>
            obtain ⟨-, hfree⟩ := VfsTables.findFile_eq_some hrow
            rw [decide_eq_true_eq] at hfree
            simp only
            split
            · next hfs =>
                refine gives_bind (gives_semV _ (gives_bind (gives_semV _ (gives_bind ?_))))
                refine gives_vfsEndOp (gives_pure (hfail vfsNoSuchFs (by decide) ?_))
                simp [VfsView.findFile, hparse, hrow, hfs]
            · refine gives_bind (gives_storeTables (gives_bind (gives_semV _ ?_)))
              refine gives_bind (gives_semV _ (gives_bind (gives_fsCall ?_)))
              intro fs proc ret bytes d' hfs hproc hrun
              cases hproc
              simp only [FsCall.filesystem] at hrun
              rw [run_withoutData, run_tfsOpen] at hrun
              obtain ⟨hret, rfl⟩ := Prod.mk.inj hrun
              cases hret
              have hfind : v.findFile volumes pathname
                  = if v.usable ∧ 0 ≤ openResult ((volumes fs).view v.disk) names.2 then
                      some (fs, openResult ((volumes fs).view v.disk) names.2) else none := by
                simp only [VfsView.findFile, hparse, hrow, hfs, Option.bind_eq_bind, Option.bind_some]
              split
              · next hneg =>
                  refine gives_bind (gives_semP _ (gives_bind (gives_storeTables ?_)))
                  refine gives_bind (gives_semV _ (gives_bind (gives_vfsEndOp (gives_pure ?_))))
                  rw [if_neg fun h => absurd h.2 (Int.not_le.2 hneg)] at hfind
                  have hback : { v.tables.files file with filesystem := none } = v.tables.files file :=
                    OpenfileEntry.ext hfree.symm rfl rfl
                  simp only [VfsTables.setFile, Function.update_idem, Function.update_self]
                  rw [hback, Function.update_eq_self]
                  exact VfsView.afterOpen_none hfind hneg
              · next hpos =>
                  refine gives_bind (gives_storeTables (gives_bind (gives_storeTables ?_)))
                  refine gives_bind (gives_vfsEndOp (gives_pure ?_))
                  rw [if_pos ⟨husable, Int.not_lt.1 hpos⟩] at hfind
                  unfold VfsView.AfterOpen
                  rw [hfind]
                  refine ⟨rfl, rfl, Int.natCast_nonneg file, hfree, ?_⟩
                  simp only [VfsTables.setFile, Function.update_idem, Function.update_self]
                  rw [hfs]

/-! ## Open files -/

theorem gives_started {Q : ℤ → VfsView → Prop} {p : VfsProc ℤ} (husable : v.usable = true)
    (h : p.Gives (volumesDriver volumes) v Q) :
    (do
      if (← vfsStartOp) ≠ vfsOk then return vfsUnusable
      p : VfsProc ℤ).Gives (volumesDriver volumes) v Q := by
  refine gives_bind (gives_vfsStartOp ?_)
  rw [if_pos husable]
  exact h

theorem vfsSeek_gives (hopen : v.OpenAt file fs fileid position) (seekPosition : ℤ) :
    (vfsSeek file seekPosition).Gives (volumesDriver volumes) v fun ret v' =>
      if seekPosition < 0 then ret = vfsInvalidParams ∧ v' = v
      else ret = vfsOk ∧ v' = v.seek file seekPosition := by
  unfold vfsSeek
  refine gives_started hopen.usable ?_
  by_cases hneg : seekPosition < 0
  · rw [if_pos hneg]
    refine gives_pure ?_
    rw [if_pos hneg]
    exact ⟨rfl, rfl⟩
  · rw [if_neg hneg]
    refine gives_bind (gives_semP _ (gives_bind (gives_vfsVerifyOpen ?_)))
    rw [hopen.row, if_neg (by simp)]
    refine gives_bind (gives_storeTables (gives_bind (gives_semV _ (gives_bind ?_))))
    refine gives_vfsEndOp (gives_pure ?_)
    rw [if_neg hneg]
    exact ⟨rfl, rfl⟩

/-- A read is one of the driver at the position of the row, which it moves. -/
theorem vfsRead_gives (hopen : v.OpenAt file fs fileid position) (buffer : ℕ) (size : ℤ) :
    (vfsRead file buffer size).Gives (volumesDriver volumes) v fun ret v' => 0 ≤ size ∧ buffer ≠ 0 ∧
      (tfsRead .big (volumes fs) fileid size position).run none v.disk
        = (.ok (ret, v'.received), v.disk) ∧
      v' = { v.seek file (if 0 < ret then wrap32 (position + ret) else position) with
        received := v'.received } := by
  unfold vfsRead vfsTransfer
  refine gives_started hopen.usable ?_
  refine gives_bind (gives_vfsVerifyOpen ?_)
  rw [hopen.row, if_neg (by simp)]
  refine gives_bind (gives_loadTables (gives_bind (gives_vfsAssert fun hassert => ?_)))
  refine gives_bind (gives_loadTables (gives_bind (gives_fsCall ?_)))
  intro fs' proc ret bytes d' hfs hproc hrun
  rw [hopen.row] at hfs hproc
  cases hfs
  cases hproc
  have hdisk := (readOnly_tfsRead .big (volumes fs) fileid size position).run_disk none v.disk
  simp only [FsCall.filesystem] at hrun
  rw [hrun] at hdisk
  obtain rfl : d' = v.disk := hdisk
  split
  · next hret =>
      refine gives_bind (gives_semP _ (gives_bind (gives_storeTables (gives_bind (gives_semV _ ?_)))))
      refine gives_bind (gives_vfsEndOp (gives_pure ⟨hassert.1, hassert.2, hrun, ?_⟩))
      rw [if_pos hret, hopen.row]
      simp only [VfsView.seek, hopen.row]
  · next hret =>
      refine gives_bind (gives_vfsEndOp (gives_pure ⟨hassert.1, hassert.2, hrun, ?_⟩))
      have hback := v.seek_seekPosition file
      rw [hopen.row] at hback
      rw [if_neg hret, hback]

/-- `vfs_close` frees the row. -/
theorem vfsClose_gives (hopen : v.OpenAt file fs fileid position) :
    (vfsClose file).Gives (volumesDriver volumes) v fun ret v' => ret = vfsOk ∧
      v'.tables = v.tables.setFile file { v.tables.files file with filesystem := none } := by
  unfold vfsClose
  refine gives_started hopen.usable ?_
  refine gives_bind (gives_semP _ (gives_bind (gives_vfsVerifyOpen ?_)))
  rw [hopen.row, if_neg (by simp)]
  refine gives_bind (gives_loadTables (gives_bind (gives_fsCall ?_)))
  intro fs' proc ret bytes d' hfs hproc hrun
  cases hproc
  cases hrun
  refine gives_bind (gives_storeTables (gives_bind (gives_semV _ (gives_bind (gives_vfsEndOp ?_)))))
  exact gives_pure ⟨rfl, by rw [hopen.row]⟩

end

end Kudos
