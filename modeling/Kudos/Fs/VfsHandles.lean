import Kudos.Fs.VfsTfs

set_option autoImplicit false

/-! # Handles and the files they were opened on

A row of the open file table has the number of an inode block. `vfs_remove` does not look at this table:
it frees the inode and the data blocks of a file that is open, and a later `tfs_create` may give them to
other files. A write through the handle then goes by whatever is in the block now. As long as none of
the blocks of its file were allocated again, a handle reaches only this file (`vfsWrite_confined`), also
after the file is removed. -/

namespace Kudos

open CInt Transition Words

/-! ## The blocks of an opened file -/

/-- A file as it was when a handle was opened on it. -/
structure OpenedFile where
  inode : BitVec 32
  /-- The data blocks. -/
  blocks : List (BitVec 32)
  /-- Whether the inode or a data block was allocated again since. -/
  reallocated : Bool

/-- The file that `vfs_open` finds on a volume. -/
def fileToOpen (V : Volume) (pathname : List UInt8) : Option OpenedFile := do
  let (_, filename) ← vfsParsePathname pathname
  let i ← findName (V tfsDirectoryBlock) filename
  return ⟨dirInode V i, blockList (V (dirInode V i)), false⟩

namespace OpenedFile

def allBlocks (o : OpenedFile) : List (BitVec 32) := o.inode :: o.blocks

/-- Whether a call that leads from `V` to `V'` allocates one of the blocks. -/
def reallocatedBy (o : OpenedFile) (V V' : Volume) : Bool :=
  o.allBlocks.any fun n => !isMarked V n.toNat && isMarked V' n.toNat

/-- The file after this call. -/
def after (o : OpenedFile) (V V' : Volume) : OpenedFile :=
  { o with reallocated := o.reallocated || o.reallocatedBy V V' }

/-- The inode is as it was, and the blocks of live files are other blocks, unless this file is one of
them. -/
structure Intact (V : Volume) (o : OpenedFile) : Prop where
  listed : blockList (V o.inode) = o.blocks
  covers : Covers (V o.inode)
  nodup : o.allBlocks.Nodup
  range : ∀ n ∈ o.allBlocks, 3 ≤ n.toNat
  apart : ∀ j, Live V j → dirInode V j = o.inode ∨ ∀ n ∈ o.allBlocks, n ∉ fileBlocks V j

/-- The same file, or files without a common block. -/
def Apart (o o' : OpenedFile) : Prop := o.inode = o'.inode ∨ ∀ n ∈ o.allBlocks, n ∉ o'.allBlocks

end OpenedFile

open OpenedFile

section

variable {total : ℕ} {V V' : Volume} {o o' : OpenedFile}

theorem mem_allBlocks {n : BitVec 32} (h : n ∈ o.blocks) : n ∈ o.allBlocks :=
  List.mem_cons_of_mem _ h

theorem inode_mem_allBlocks (o : OpenedFile) : o.inode ∈ o.allBlocks := List.mem_cons_self ..

theorem OpenedFile.Apart.symm (h : o.Apart o') : o'.Apart o := by
  rcases h with heq | hne
  · exact Or.inl heq.symm
  · exact Or.inr fun n hn hmem => hne n hmem hn

/-- A file that `vfs_open` finds is a live file. -/
theorem SoundVolume.fileToOpen_live (hV : SoundVolume total V) {pathname : List UInt8}
    (h : fileToOpen V pathname = some o) :
    ∃ i, Live V i ∧ o.inode = dirInode V i ∧ o.allBlocks = fileBlocks V i ∧ o.reallocated = false := by
  unfold fileToOpen at h
  simp only [Option.bind_eq_bind, Option.bind_eq_some_iff] at h
  obtain ⟨⟨volumename, filename⟩, hparse, i, hfind, heq⟩ := h
  cases heq
  obtain ⟨name, rfl⟩ := vfsParsePathname_fileName hparse
  have hlive := hV.live_of_findName hfind
  exact ⟨i, hlive, rfl, (fileBlocks_of_live hlive).symm, rfl⟩

theorem SoundVolume.fileToOpen_intact (hV : SoundVolume total V) {pathname : List UInt8}
    (h : fileToOpen V pathname = some o) : o.Intact V := by
  obtain ⟨i, hi, hinode, hall, -⟩ := hV.fileToOpen_live h
  have hblocks : blockList (V o.inode) = o.blocks := by
    rw [fileBlocks_of_live hi, ← hinode] at hall
    exact (List.cons.inj hall).2.symm
  refine ⟨hblocks, hinode ▸ hV.covers hi, hall ▸ hV.nodup i, ?_, fun j hj => ?_⟩
  · intro n hn
    exact (hV.range i n (hall ▸ hn)).1
  · by_cases hij : j = i
    · exact Or.inl (hij ▸ hinode.symm)
    · exact Or.inr fun n hn hmem => hij (hV.owner_unique hmem (hall ▸ hn))

theorem OpenedFile.Intact.ne_system (h : o.Intact V) {n : BitVec 32} (hn : n ∈ o.allBlocks) :
    n ≠ tfsAllocationBlock ∧ n ≠ tfsDirectoryBlock := by
  have hrange := h.range n hn
  constructor
  · rintro rfl
    exact absurd hrange (by decide)
  · rintro rfl
    exact absurd hrange (by decide)

/-- A file stays intact if its inode is kept, and with it the files that were live before. -/
theorem OpenedFile.Intact.mono (h : o.Intact V) (hinode : V' o.inode = V o.inode)
    (hlive : ∀ j, Live V' j →
      (Live V j ∧ dirInode V' j = dirInode V j ∧ V' (dirInode V j) = V (dirInode V j)) ∨
        ∀ n ∈ o.allBlocks, n ∉ fileBlocks V' j) : o.Intact V' where
  listed := by rw [hinode, h.listed]
  covers := by
    rw [hinode]
    exact h.covers
  nodup := h.nodup
  range := h.range
  apart j hj := by
    rcases hlive j hj with ⟨hold, hsame, hblock⟩ | hnew
    · have hfile : fileBlocks V' j = fileBlocks V j := by
        rw [fileBlocks_of_live hj, fileBlocks_of_live hold, hsame, hblock]
      rw [hfile, hsame]
      exact h.apart j hold
    · exact Or.inr hnew

end

/-! ## What calls do to the volume -/

section

variable {total : ℕ} {V V' : Volume} {o o' : OpenedFile}

/-- A block that is not allocated again is not among the new blocks. -/
theorem not_reallocated {n : BitVec 32} (h : o.reallocatedBy V V' = false) (hn : n ∈ o.allBlocks)
    (hfree : isMarked V n.toNat = false) : isMarked V' n.toNat = false := by
  unfold OpenedFile.reallocatedBy at h
  rw [List.any_eq_false] at h
  simpa [hfree] using h n hn

theorem OpenedFile.Intact.created {filename : List UInt8} {size : ℤ} {index p : ℕ} {l : List ℕ}
    (h : o.Intact V) (hcreated : Created total V V' filename size index p l) (htotal : total ≤ 4096)
    (hV : SoundVolume total V) (hkeep : o.reallocatedBy V V' = false) : o.Intact V' := by
  have hold : ∀ n ∈ o.allBlocks, n.toNat ∉ p :: l := by
    intro n hn hnew
    -- a new block was free and is marked now, so the file would have lost it
    have hmark := not_reallocated hkeep hn (hcreated.fresh _ hnew).2
    rw [(hcreated.isMarked_iff htotal hV _).2 (Or.inr hnew)] at hmark
    cases hmark
  have hinode := inode_mem_allBlocks o
  obtain ⟨hbat, hmd⟩ := h.ne_system hinode
  refine h.mono (hcreated.other _ hbat hmd (hold _ hinode)) fun j hj => ?_
  rcases hcreated.live_cases hV hj with rfl | hlive
  · refine Or.inr fun n hn hmem => hold n hn ?_
    rwa [hcreated.fileBlocks_index htotal hV, hcreated.mem_map_ofNat htotal hV] at hmem
  · exact Or.inl hlive

theorem OpenedFile.Intact.removed {index : ℕ} (h : o.Intact V) (hremoved : Removed V V' index)
    (hV : SoundVolume total V) : o.Intact V' := by
  obtain ⟨hbat, hmd⟩ := h.ne_system (inode_mem_allBlocks o)
  exact h.mono (hremoved.other _ hbat hmd) fun j hj => Or.inl (hremoved.live_of_live hV hj).2

/-- The data blocks of an intact file are none of the blocks that the volume is organised by. -/
theorem OpenedFile.Intact.unchanged (h : o.Intact V) (hkeep : ∀ n, n ∉ o.blocks → V' n = V n) :
    V' tfsAllocationBlock = V tfsAllocationBlock ∧ V' tfsDirectoryBlock = V tfsDirectoryBlock ∧
      ∀ j, Live V j → V' (dirInode V j) = V (dirInode V j) := by
  refine ⟨hkeep _ fun hn => (h.ne_system (mem_allBlocks hn)).1 rfl,
    hkeep _ fun hn => (h.ne_system (mem_allBlocks hn)).2 rfl, fun j hj => hkeep _ fun hn => ?_⟩
  rcases h.apart j hj with hsame | hother
  · rw [hsame] at hn
    exact (List.nodup_cons.1 h.nodup).1 hn
  · exact hother _ (mem_allBlocks hn) (dirInode_mem_fileBlocks hj)

/-- A write to an intact file leaves the others intact. -/
theorem OpenedFile.Intact.written (h' : o'.Intact V) (h : o.Intact V) (hapart : o.Apart o')
    (hkeep : ∀ n, n ∉ o.blocks → V' n = V n) : o'.Intact V' := by
  obtain ⟨-, hmd, hlive⟩ := h.unchanged hkeep
  have hdir : ∀ j, dirInode V' j = dirInode V j := by
    intro j
    unfold dirInode
    rw [hmd]
  refine h'.mono (hkeep _ fun hn => ?_) fun j hj => ?_
  -- an inode is no data block, neither of its own file nor of another one
  · rcases hapart with hsame | hother
    · rw [← hsame] at hn
      exact (List.nodup_cons.1 h.nodup).1 hn
    · exact hother _ (mem_allBlocks hn) (inode_mem_allBlocks o')
  · have hold : Live V j := ⟨hj.1, by rw [← hdir]; exact hj.2⟩
    exact Or.inl ⟨hold, hdir j, hlive j hold⟩

end

/-! ## All handles -/

/-- A change of the volume by one call. -/
inductive VolumeChange (total : ℕ) (V : Volume) (opened : ℤ → Option OpenedFile) (V' : Volume) : Prop
  | same : V' = V → VolumeChange total V opened V'
  | created {filename : List UInt8} {size : ℤ} {index p : ℕ} {l : List ℕ} :
      0 ≤ size ∧ size ≤ intMax → Created total V V' filename size index p l →
      VolumeChange total V opened V'
  | removed {index : ℕ} : Removed V V' index → VolumeChange total V opened V'
  | written {file : ℤ} {o : OpenedFile} : opened file = some o → o.reallocated = false →
      (∀ n, n ∉ o.blocks → V' n = V n) → VolumeChange total V opened V'

/-- The volume is sound, and whatever handle still has its blocks has a file of its own. -/
structure HandleInvariant (total : ℕ) (V : Volume) (opened : ℤ → Option OpenedFile) : Prop where
  sound : SoundVolume total V
  intact : ∀ file o, opened file = some o → o.reallocated = false → o.Intact V
  apart : ∀ file o, opened file = some o → o.reallocated = false →
    ∀ file' o', opened file' = some o' → o'.reallocated = false → o.Apart o'

/-- The opened files after a call. -/
def openedAfter (V V' : Volume) (opened : ℤ → Option OpenedFile) : ℤ → Option OpenedFile :=
  fun file => (opened file).map (·.after V V')

theorem OpenedFile.Intact.after {V W W' : Volume} {o : OpenedFile} (h : o.Intact V) :
    (o.after W W').Intact V := ⟨h.listed, h.covers, h.nodup, h.range, h.apart⟩

/-- What is still intact after a call was so before. -/
theorem openedAfter_eq_some {V V' : Volume} {opened : ℤ → Option OpenedFile} {file : ℤ}
    {o' : OpenedFile} (h : openedAfter V V' opened file = some o') (hkeep : o'.reallocated = false) :
    ∃ o, opened file = some o ∧ o' = o.after V V' ∧ o.reallocated = false ∧
      o.reallocatedBy V V' = false := by
  obtain ⟨o, ho, rfl⟩ := Option.map_eq_some_iff.1 h
  exact ⟨o, ho, rfl, Bool.or_eq_false_iff.1 hkeep⟩

/-- **One change keeps the invariant.** -/
theorem HandleInvariant.change {total : ℕ} {V V' : Volume} {opened : ℤ → Option OpenedFile}
    (h : HandleInvariant total V opened) (htotal : total ≤ 4096)
    (hchange : VolumeChange total V opened V') :
    HandleInvariant total V' (openedAfter V V' opened) := by
  -- a file that loses no block by the change stays intact
  have hkeep : ∀ file o, opened file = some o → o.reallocated = false →
      o.reallocatedBy V V' = false → o.Intact V' := by
    intro file o ho hold hnew
    cases hchange with
    | same heq =>
        rw [heq]
        exact h.intact file o ho hold
    | created _ hcreated => exact (h.intact file o ho hold).created hcreated htotal h.sound hnew
    | removed hremoved => exact (h.intact file o ho hold).removed hremoved h.sound
    | written hw hwkeep hwrite =>
        exact (h.intact file o ho hold).written (h.intact _ _ hw hwkeep)
          (h.apart _ _ hw hwkeep _ _ ho hold) hwrite
  refine ⟨?_, fun file o' ho' hnew => ?_, fun file o' ho' hnew file1 o1' ho1' hnew1 => ?_⟩
  · cases hchange with
    | same heq =>
        rw [heq]
        exact h.sound
    | created hsize hcreated => exact hcreated.sound htotal h.sound hsize
    | removed hremoved => exact hremoved.sound htotal h.sound
    | written hw hwkeep hwrite =>
        obtain ⟨hbat, hmd, hlive⟩ := (h.intact _ _ hw hwkeep).unchanged hwrite
        exact h.sound.congr hbat hmd hlive
  · obtain ⟨o, ho, rfl, hold, hby⟩ := openedAfter_eq_some ho' hnew
    exact (hkeep file o ho hold hby).after
  · obtain ⟨o, ho, rfl, hold, -⟩ := openedAfter_eq_some ho' hnew
    obtain ⟨o1, ho1, rfl, hold1, -⟩ := openedAfter_eq_some ho1' hnew1
    exact h.apart file o ho hold file1 o1 ho1 hold1

/-- A call that keeps the volume allocates nothing. -/
theorem openedAfter_self (V : Volume) (opened : ℤ → Option OpenedFile) :
    openedAfter V V opened = opened := by
  have hkeep : ∀ o : OpenedFile, o.after V V = o := by
    intro o
    have hnone : o.reallocatedBy V V = false := by simp [OpenedFile.reallocatedBy]
    unfold OpenedFile.after
    rw [hnone, Bool.or_false]
  funext file
  cases hfile : opened file with
  | none => simp [openedAfter, hfile]
  | some o => simp [openedAfter, hfile, hkeep]

/-- A handle is closed, or opened on a file. -/
theorem HandleInvariant.update {total : ℕ} {V : Volume} {opened : ℤ → Option OpenedFile}
    (h : HandleInvariant total V opened) (file : ℤ) {x : Option OpenedFile}
    (hintact : ∀ o ∈ x, o.Intact V)
    (hapart : ∀ o ∈ x, ∀ file' o', opened file' = some o' → o'.reallocated = false → o.Apart o') :
    HandleInvariant total V (Function.update opened file x) where
  sound := h.sound
  intact file1 o1 ho1 hkeep := by
    by_cases heq : file1 = file
    · rw [heq, Function.update_self] at ho1
      exact hintact o1 ho1
    · rw [Function.update_of_ne heq] at ho1
      exact h.intact file1 o1 ho1 hkeep
  apart file1 o1 ho1 hkeep1 file2 o2 ho2 hkeep2 := by
    by_cases heq1 : file1 = file
    · rw [heq1, Function.update_self] at ho1
      by_cases heq2 : file2 = file
      · rw [heq2, Function.update_self, ho1] at ho2
        cases ho2
        exact Or.inl rfl
      · rw [Function.update_of_ne heq2] at ho2
        exact hapart o1 ho1 file2 o2 ho2 hkeep2
    · rw [Function.update_of_ne heq1] at ho1
      by_cases heq2 : file2 = file
      · rw [heq2, Function.update_self] at ho2
        exact (hapart o2 ho2 file1 o1 ho1 hkeep1).symm
      · rw [Function.update_of_ne heq2] at ho2
        exact h.apart file1 o1 ho1 hkeep1 file2 o2 ho2 hkeep2

theorem HandleInvariant.opens {total : ℕ} {V : Volume} {opened : ℤ → Option OpenedFile}
    (h : HandleInvariant total V opened) (file : ℤ) {pathname : List UInt8} {o : OpenedFile}
    (ho : fileToOpen V pathname = some o) :
    HandleInvariant total V (Function.update opened file (some o)) := by
  obtain ⟨i, hi, hinode, hall, -⟩ := h.sound.fileToOpen_live ho
  refine h.update file ?_ ?_
  · intro o1 ho1
    cases ho1
    exact h.sound.fileToOpen_intact ho
  · intro o1 ho1 file' o' ho' hkeep'
    cases ho1
    rcases (h.intact file' o' ho' hkeep').apart i hi with hsame | hother
    · exact Or.inl (hinode.trans hsame)
    · exact Or.inr fun n hn hmem => hother n hmem (hall ▸ hn)

/-! ## Sessions -/

/-- A call of the VFS on files. The caller's buffer is given by its address, and for a write also by what
is in it. -/
inductive VfsFileCall
  | create (pathname : List UInt8) (size : ℤ)
  | remove (pathname : List UInt8)
  | open (pathname : List UInt8)
  | read (file : ℤ) (buffer : ℕ) (bufsize : ℤ)
  | write (file : ℤ) (buffer : ℕ) (datasize : ℤ) (data : ℕ → UInt8)
  | seek (file seekPosition : ℤ)
  | close (file : ℤ)

namespace VfsFileCall

def body : VfsFileCall → VfsProc ℤ
  | create pathname size => vfsCreate pathname size
  | remove pathname => vfsRemove pathname
  | «open» pathname => vfsOpen pathname
  | read file buffer bufsize => vfsRead file buffer bufsize
  | write file buffer datasize _ => vfsWrite file buffer datasize
  | seek file seekPosition => vfsSeek file seekPosition
  | close file => vfsClose file

def data : VfsFileCall → ℕ → UInt8
  | write _ _ _ data => data
  | _ => fun _ => 0

/-- A size is an `int`, and a handle is a row of the open file table, which `vfs_verify_open` does not
check. -/
def Valid : VfsFileCall → Prop
  | create _ size => size ≤ intMax
  | remove _ | «open» _ => True
  | read file _ _ | write file _ _ _ | seek file _ | close file =>
      0 ≤ file ∧ file < configMaxOpenFiles

end VfsFileCall

/-- The state of the system, and for each handle the file that it was opened on. -/
structure Session where
  fs : FsState
  opened : ℤ → Option OpenedFile

namespace Session

/-- After a call that has returned `ret`. -/
def after (tfs : TfsVolume) (s : Session) (c : VfsFileCall) (ret : ℤ) (fs : FsState) : Session :=
  let opened := openedAfter (tfs.view s.fs.disk) (tfs.view fs.disk) s.opened
  match c with
  | .open pathname =>
      if 0 ≤ ret then
        ⟨fs, Function.update opened ret (fileToOpen (tfs.view s.fs.disk) pathname)⟩
      else ⟨fs, opened⟩
  | .close file => if ret = vfsOk then ⟨fs, Function.update opened file none⟩ else ⟨fs, opened⟩
  | _ => ⟨fs, opened⟩

/-- A call that returns. -/
def call (tfs : TfsVolume) (s : Session) (c : VfsFileCall) : Option Session :=
  match c.body.runOn (tfsDriver tfs c.data) s.fs with
  | (some ret, fs) => some (s.after tfs c ret fs)
  | (none, _) => none

/-- A write does not go through a handle that has lost blocks of its file. -/
def WritesIntact (s : Session) : VfsFileCall → Prop
  | .write file _ _ _ => ∀ o, s.opened file = some o → o.reallocated = false
  | _ => True

/-- A volume is mounted, and no file is open. -/
structure Init (tfs : TfsVolume) (s : Session) : Prop where
  sound : SoundVolume tfs.totalblocks (tfs.view s.fs.disk)
  files : ∀ file : ℤ, 0 ≤ file → file < configMaxOpenFiles →
    (s.fs.mem.tables.files file).filesystem = none
  opened : s.opened = fun _ => none

def Step (tfs : TfsVolume) (s : Session) (c : VfsFileCall) (s' : Session) : Prop :=
  c.Valid ∧ s.call tfs c = some s'

/-- A step that is no write through a handle whose file has lost a block. -/
def IntactStep (tfs : TfsVolume) (s : Session) (c : VfsFileCall) (s' : Session) : Prop :=
  s.WritesIntact c ∧ s.Step tfs c s'

end Session

/-! ## What the calls do -/

/-- A row in use has the inode of the file that it was opened on. -/
structure RowInvariant (t : VfsTables) (opened : ℤ → Option OpenedFile) : Prop where
  free : ∀ file : ℤ, 0 ≤ file → file < configMaxOpenFiles → opened file = none →
    (t.files file).filesystem = none
  fileid : ∀ file o, opened file = some o → (t.files file).fileid = o.inode.toInt

theorem RowInvariant.after {t t' : VfsTables} {opened : ℤ → Option OpenedFile}
    (h : RowInvariant t opened) (hsame : t.SameHandles t') (V V' : Volume) :
    RowInvariant t' (openedAfter V V' opened) where
  free file hlow hlt hnone := by
    rw [hsame.filesystem]
    exact h.free file hlow hlt (Option.map_eq_none_iff.1 hnone)
  fileid file o' ho' := by
    obtain ⟨o, ho, rfl⟩ := Option.map_eq_some_iff.1 ho'
    rw [hsame.fileid]
    exact h.fileid file o ho

theorem RowInvariant.setFile {t : VfsTables} {opened : ℤ → Option OpenedFile}
    (h : RowInvariant t opened) (file : ℤ) {e : OpenfileEntry} {x : Option OpenedFile}
    (hfree : x = none → e.filesystem = none) (hfileid : ∀ o, x = some o → e.fileid = o.inode.toInt) :
    RowInvariant (t.setFile file e) (Function.update opened file x) where
  free file' hlow hlt hnone := by
    by_cases heq : file' = file
    · rw [heq, Function.update_self] at hnone
      rw [heq, VfsTables.setFile_files_self, hfree hnone]
    · rw [Function.update_of_ne heq] at hnone
      rw [VfsTables.setFile_files_of_ne t heq, h.free file' hlow hlt hnone]
  fileid file' o ho := by
    by_cases heq : file' = file
    · rw [heq, Function.update_self] at ho
      rw [heq, VfsTables.setFile_files_self, hfileid o ho]
    · rw [Function.update_of_ne heq] at ho
      rw [VfsTables.setFile_files_of_ne t heq, h.fileid file' o ho]

/-- What changes on the disk are data blocks of the file that the handle was opened on. -/
def OnlyOpened (tfs : TfsVolume) (opened : ℤ → Option OpenedFile) (file : ℤ) (d d' : ℕ → Block) : Prop :=
  ∀ b, d' b ≠ d b → ∃ o, opened file = some o ∧ ∃ n ∈ o.blocks, b = tfs.block n

section

variable {tfs : TfsVolume} {t : VfsTables} {d : ℕ → Block} {opened : ℤ → Option OpenedFile}

theorem OnlyOpened.refl (tfs : TfsVolume) (opened : ℤ → Option OpenedFile) (file : ℤ)
    (d : ℕ → Block) : OnlyOpened tfs opened file d d := fun _ hb => absurd rfl hb

/-- **A write through an intact handle.** -/
theorem vfsWrite_onlyOpened (h : HandleInvariant tfs.totalblocks (tfs.view d) opened)
    (hrow : RowInvariant t opened) {file : ℤ} (hfile : 0 ≤ file ∧ file < configMaxOpenFiles)
    (hintact : ∀ o, opened file = some o → o.reallocated = false) (buffer : ℕ) (datasize : ℤ)
    (data : ℕ → UInt8) :
    (vfsWrite file buffer datasize).Ensures (tfsDriver tfs data) t d (OnlyOpened tfs opened file d)
      fun _ t' d' => t.SameHandles t' ∧ OnlyOpened tfs opened file d d' := by
  refine vfsTransfer_ensures (.refl tfs opened file d)
    (fun _ => ⟨.refl t, .refl tfs opened file d⟩) ?_
  intro fs proc r d' hfs hsize hproc hrun
  cases hopened : opened file with
  | none =>
      -- a row that is not in use does not get as far as the driver
      rw [hrow.free file hfile.1 hfile.2 hopened] at hfs
      cases hfs
  | some o =>
      have hfileIntact := h.intact file o hopened (hintact o hopened)
      obtain rfl : withoutData (tfsWrite .big tfs (t.files file).fileid data datasize
        (t.files file).seekPosition) = proc := Option.some.inj hproc
      rw [run_withoutData, hrow.fileid file o hopened] at hrun
      obtain ⟨x, d1, hwrite, hframe⟩ :=
        tfsWrite_frame_inode tfs hfileIntact.covers data hsize (t.files file).seekPosition
      rw [hwrite] at hrun
      cases hrun
      rw [hfileIntact.listed] at hframe
      have honly : OnlyOpened tfs opened file d d1 := by
        intro b hb
        by_contra hnot
        exact hb (hframe b fun n hn heq => hnot ⟨o, hopened, n, hn, heq⟩)
      exact ⟨honly, fun _ _ _ _ hsame => ⟨hsame, honly⟩⟩

theorem OnlyOpened.change {file : ℤ} {d' : ℕ → Block} (h : OnlyOpened tfs opened file d d')
    (hintact : ∀ o, opened file = some o → o.reallocated = false) (total : ℕ) :
    VolumeChange total (tfs.view d) opened (tfs.view d') := by
  cases hopened : opened file with
  | none =>
      have hsame : d' = d := by
        funext b
        by_contra hb
        obtain ⟨o, ho, -⟩ := h b hb
        rw [hopened] at ho
        cases ho
      rw [hsame]
      exact .same rfl
  | some o =>
      refine .written hopened (hintact o hopened) fun n hn => ?_
      by_contra hb
      obtain ⟨o', ho', m, hm, heq⟩ := h _ hb
      rw [hopened] at ho'
      cases ho'
      rw [tfs.block_injective heq] at hn
      exact hn hm

theorem vfsCreate_change (hV : SoundVolume tfs.totalblocks (tfs.view d)) (pathname : List UInt8)
    {size : ℤ} (hsize : size ≤ intMax) (data : ℕ → UInt8) :
    (vfsCreate pathname size).Ensures (tfsDriver tfs data) t d (fun _ => True)
      fun _ t' d' => t' = t ∧ VolumeChange tfs.totalblocks (tfs.view d) opened (tfs.view d') := by
  unfold vfsCreate
  split
  · exact ensures_pure ⟨rfl, .same rfl⟩
  · next hneg =>
      refine ensures_bind (ensures_vfsStartOp fun started => ?_)
      split
      · exact ensures_pure ⟨rfl, .same rfl⟩
      · refine callPath_ensures trivial (fun _ => ⟨rfl, .same rfl⟩) ?_
        intro fs volumename filename proc r d' hparse hproc hrun
        obtain rfl : withoutData (tfsCreate .big tfs filename size) = proc := Option.some.inj hproc
        refine ⟨trivial, fun ret bytes _ => ⟨rfl, ?_⟩⟩
        rw [run_withoutData] at hrun
        obtain rfl := congrArg Prod.snd hrun
        rcases tfsCreate_outcome tfs hV filename size with hfail | ⟨d1, index, p, l, hok, hcreated⟩
        · rw [hfail]
          exact .same rfl
        · rw [hok]
          exact .created ⟨Int.not_lt.1 hneg, hsize⟩ hcreated

theorem vfsRemove_change (hV : SoundVolume tfs.totalblocks (tfs.view d)) (pathname : List UInt8)
    (data : ℕ → UInt8) :
    (vfsRemove pathname).Ensures (tfsDriver tfs data) t d (fun _ => True)
      fun _ t' d' => t' = t ∧ VolumeChange tfs.totalblocks (tfs.view d) opened (tfs.view d') := by
  unfold vfsRemove
  refine ensures_bind (ensures_vfsStartOp fun started => ?_)
  split
  · exact ensures_pure ⟨rfl, .same rfl⟩
  · refine callPath_ensures trivial (fun _ => ⟨rfl, .same rfl⟩) ?_
    intro fs volumename filename proc r d' hparse hproc hrun
    obtain rfl : withoutData (tfsRemove .big tfs filename) = proc := Option.some.inj hproc
    refine ⟨trivial, fun ret bytes _ => ⟨rfl, ?_⟩⟩
    rw [run_withoutData] at hrun
    obtain rfl := congrArg Prod.snd hrun
    obtain ⟨name, rfl⟩ := vfsParsePathname_fileName hparse
    rcases tfsRemove_outcome tfs hV name with ⟨-, hfail⟩ | ⟨index, -, hlive, hok⟩
    · rw [hfail]
      exact .same rfl
    · rw [hok, run_writeAll_none]
      simp only
      rw [view_applyWrites]
      exact .removed hlive.removed

theorem vfsRead_same (file : ℤ) (buffer : ℕ) (bufsize : ℤ) (data : ℕ → UInt8) :
    (vfsRead file buffer bufsize).Ensures (tfsDriver tfs data) t d (fun _ => True)
      fun _ t' d' => t.SameHandles t' ∧ d' = d := by
  refine vfsTransfer_ensures trivial (fun _ => ⟨.refl t, rfl⟩) ?_
  intro fs proc r d' _ _ hproc hrun
  obtain rfl := Option.some.inj hproc
  have hdisk := (readOnly_tfsRead .big tfs (t.files file).fileid bufsize
    (t.files file).seekPosition).run_disk none d
  rw [hrun] at hdisk
  exact ⟨trivial, fun _ _ _ _ hsame => ⟨hsame, hdisk⟩⟩

/-- A successful `vfs_open` fills a row for the file with this name. -/
theorem vfsOpen_row (pathname : List UInt8) (data : ℕ → UInt8) :
    (vfsOpen pathname).Ensures (tfsDriver tfs data) t d (fun _ => True)
      fun r t' d' => d' = d ∧ ((r < 0 ∧ t' = t) ∨ (0 ≤ r ∧ r < configMaxOpenFiles ∧
        ∃ fs o, fileToOpen (tfs.view d) pathname = some o ∧
          t' = t.setFile r ⟨some fs, o.inode.toInt, 0⟩)) := by
  refine vfsOpen_ensures trivial (fun r hr => ⟨rfl, Or.inl ⟨hr, rfl⟩⟩) ?_
  intro fs volumename filename proc r d' hparse hproc hrun
  obtain rfl : withoutData (tfsOpen .big tfs filename) = proc := Option.some.inj hproc
  rw [run_withoutData, run_tfsOpen] at hrun
  cases hrun
  refine ⟨trivial, fun ret bytes hret => ⟨fun hneg => ⟨rfl, Or.inl ⟨hneg, rfl⟩⟩, ?_⟩⟩
  intro hnonneg file hlt _
  obtain ⟨rfl, -⟩ := Prod.mk.inj (Except.ok.inj hret)
  refine ⟨rfl, Or.inr ⟨Int.natCast_nonneg file, by exact_mod_cast hlt, fs, ?_⟩⟩
  cases hfind : findName (tfs.view d tfsDirectoryBlock) filename with
  | none =>
      rw [openResult_of_none hfind] at hnonneg
      exact absurd hnonneg (by decide)
  | some i =>
      rw [openResult_of_some hfind]
      refine ⟨⟨dirInode (tfs.view d) i, blockList (tfs.view d (dirInode (tfs.view d) i)), false⟩, ?_, rfl⟩
      unfold fileToOpen
      rw [hparse]
      simp only [Option.bind_eq_bind, Option.bind_some]
      rw [hfind]
      rfl

theorem vfsClose_row (file : ℤ) (data : ℕ → UInt8) :
    (vfsClose file).Ensures (tfsDriver tfs data) t d (fun _ => True)
      fun r t' d' => d' = d ∧ ((r ≠ vfsOk ∧ t' = t) ∨
        (r = vfsOk ∧ t' = t.setFile file { t.files file with filesystem := none })) := by
  refine vfsClose_ensures trivial (fun r hr => ⟨rfl, Or.inl ⟨hr, rfl⟩⟩) ?_
  intro fs proc r d' _ hproc hrun
  obtain rfl := Option.some.inj hproc
  cases hrun
  refine ⟨trivial, fun ret bytes hret => ⟨rfl, Or.inr ⟨?_, rfl⟩⟩⟩
  cases hret
  rfl

end

/-! ## Runs -/

/-- The invariants of the disk and of the table. -/
structure Session.Invariant (tfs : TfsVolume) (s : Session) : Prop where
  handles : HandleInvariant tfs.totalblocks (tfs.view s.fs.disk) s.opened
  rows : RowInvariant s.fs.mem.tables s.opened

theorem Session.Init.invariant {tfs : TfsVolume} {s : Session} (h : s.Init tfs) : s.Invariant tfs := by
  have hnone : ∀ file, s.opened file = none := fun file => by rw [h.opened]
  refine ⟨⟨h.sound, fun file o ho => ?_, fun file o ho => ?_⟩, ⟨?_, fun file o ho => ?_⟩⟩
  · exact absurd ho (by simp [hnone])
  · exact absurd ho (by simp [hnone])
  · exact fun file hlow hlt _ => h.files file hlow hlt
  · exact absurd ho (by simp [hnone])

section

variable {tfs : TfsVolume} {s s' : Session}

/-- What a call that is neither `vfs_open` nor `vfs_close` has to do. -/
theorem Session.Invariant.changed (h : s.Invariant tfs) {fs : FsState}
    (hsame : s.fs.mem.tables.SameHandles fs.mem.tables)
    (hchange : VolumeChange tfs.totalblocks (tfs.view s.fs.disk) s.opened (tfs.view fs.disk)) :
    Session.Invariant tfs
      ⟨fs, openedAfter (tfs.view s.fs.disk) (tfs.view fs.disk) s.opened⟩ :=
  ⟨h.handles.change tfs.totalblocks_le hchange, h.rows.after hsame _ _⟩

theorem Session.Invariant.of_disk {opened : ℤ → Option OpenedFile} {fs : FsState}
    (hdisk : fs.disk = s.fs.disk)
    (hhandles : HandleInvariant tfs.totalblocks (tfs.view s.fs.disk) opened)
    (hrows : RowInvariant fs.mem.tables opened) : Session.Invariant tfs ⟨fs, opened⟩ :=
  ⟨by rwa [← hdisk] at hhandles, hrows⟩

/-- **One call keeps the invariants.** -/
theorem Session.Invariant.step (h : s.Invariant tfs) {c : VfsFileCall}
    (hstep : s.IntactStep tfs c s') : s'.Invariant tfs := by
  obtain ⟨hintact, hvalid, hcall⟩ := hstep
  unfold Session.call at hcall
  obtain ⟨r, fs, hrun⟩ : ∃ r fs, c.body.runOn (tfsDriver tfs c.data) s.fs = (r, fs) := ⟨_, _, rfl⟩
  rw [hrun] at hcall
  cases r with
  | none => cases hcall
  | some ret =>
      cases hcall
      cases c with
      | create pathname size =>
          obtain ⟨htables, hchange⟩ :=
            (vfsCreate_change h.handles.sound pathname hvalid _).result rfl rfl hrun
          exact h.changed (htables ▸ .refl _) hchange
      | remove pathname =>
          obtain ⟨htables, hchange⟩ :=
            (vfsRemove_change h.handles.sound pathname _).result rfl rfl hrun
          exact h.changed (htables ▸ .refl _) hchange
      | read file buffer bufsize =>
          obtain ⟨hsame, hdisk⟩ := (vfsRead_same file buffer bufsize _).result rfl rfl hrun
          exact h.changed hsame (.same (by rw [hdisk]))
      | write file buffer datasize data =>
          obtain ⟨hsame, honly⟩ :=
            (vfsWrite_onlyOpened h.handles h.rows hvalid hintact buffer datasize data).result rfl rfl hrun
          exact h.changed hsame (honly.change hintact _)
      | seek file seekPosition =>
          have hseek : (vfsSeek file seekPosition).Ensures
              (tfsDriver tfs (VfsFileCall.seek file seekPosition).data) s.fs.mem.tables s.fs.disk
              (fun _ => True) fun _ t' d' => s.fs.mem.tables.SameHandles t' ∧ d' = s.fs.disk :=
            vfsSeek_ensures trivial fun _ _ hsame => ⟨hsame, rfl⟩
          obtain ⟨hsame, hdisk⟩ := hseek.result rfl rfl hrun
          exact h.changed hsame (.same (by rw [hdisk]))
      | «open» pathname =>
          obtain ⟨hdisk, hrow⟩ := (vfsOpen_row pathname _).result rfl rfl hrun
          -- nothing is written, so no file has lost a block
          unfold Session.after
          simp only
          rw [hdisk, openedAfter_self]
          rcases hrow with ⟨hneg, htables⟩ | ⟨hnonneg, hlt, fsys, o, ho, htables⟩
          · rw [if_neg (Int.not_le.2 hneg)]
            exact .of_disk hdisk h.handles (htables ▸ h.rows)
          · rw [if_pos hnonneg, ho]
            refine .of_disk hdisk (h.handles.opens ret ho) ?_
            rw [htables]
            refine h.rows.setFile ret (fun hnone => ?_) fun o' ho' => ?_
            · cases hnone
            · cases ho'
              rfl
      | close file =>
          obtain ⟨hdisk, hrow⟩ := (vfsClose_row file _).result rfl rfl hrun
          unfold Session.after
          simp only
          rw [hdisk, openedAfter_self]
          rcases hrow with ⟨hfail, htables⟩ | ⟨hok, htables⟩
          · rw [if_neg hfail]
            exact .of_disk hdisk h.handles (htables ▸ h.rows)
          · rw [if_pos hok]
            refine .of_disk hdisk (h.handles.update file ?_ ?_) ?_
            · exact fun o ho => absurd ho (Option.not_mem_none o)
            · exact fun o ho => absurd ho (Option.not_mem_none o)
            · rw [htables]
              exact h.rows.setFile file (fun _ => rfl) fun o ho => absurd ho (Option.not_mem_none o)

end

/-- The sessions that such steps lead to, from a volume that is mounted. -/
abbrev IntactReachable (tfs : TfsVolume) : Session → Prop :=
  Reach (Session.Init tfs) (Session.IntactStep tfs)

theorem IntactReachable.invariant {tfs : TfsVolume} {s : Session} (h : IntactReachable tfs s) :
    s.Invariant tfs :=
  Reach.invariant (fun _ hinit => hinit.invariant) (fun _ _ _ hs hstep => hs.step hstep) h

/-- **A handle reaches only the file that it was opened on.** In a run whose writes go through no handle
that has lost a block of its file, a `vfs_write`, also one that does not return, changes only blocks that
were data blocks of the file when the handle was opened. None of them is a block that the volume is
organised by, or belongs to another file. -/
theorem vfsWrite_confined {tfs : TfsVolume} {s : Session} (h : IntactReachable tfs s) {file : ℤ}
    {buffer : ℕ} {datasize : ℤ} {data : ℕ → UInt8}
    (hvalid : (VfsFileCall.write file buffer datasize data).Valid)
    (hintact : s.WritesIntact (.write file buffer datasize data)) :
    ∀ b, ((vfsWrite file buffer datasize).runOn (tfsDriver tfs data) s.fs).2.disk b ≠ s.fs.disk b →
      ∃ o, s.opened file = some o ∧ ∃ n ∈ o.blocks, b = tfs.block n ∧
        n ≠ tfsHeaderBlock ∧ n ≠ tfsAllocationBlock ∧ n ≠ tfsDirectoryBlock ∧
        ∀ j, Live (tfs.view s.fs.disk) j → n ∈ fileBlocks (tfs.view s.fs.disk) j →
          dirInode (tfs.view s.fs.disk) j = o.inode ∧ n ≠ o.inode := by
  intro b hb
  have hinv := h.invariant
  have honly : OnlyOpened tfs s.opened file s.fs.disk
      ((vfsWrite file buffer datasize).runOn (tfsDriver tfs data) s.fs).2.disk :=
    (vfsWrite_onlyOpened hinv.handles hinv.rows hvalid hintact buffer datasize data).disk
      (fun _ _ _ hQ => hQ.2) rfl rfl
  obtain ⟨o, ho, n, hn, rfl⟩ := honly b hb
  have hfile := hinv.handles.intact file o ho (hintact o ho)
  have hmem := mem_allBlocks hn
  refine ⟨o, ho, n, hn, rfl, ?_, (hfile.ne_system hmem).1, (hfile.ne_system hmem).2, fun j hj hjn => ?_⟩
  · rintro rfl
    exact absurd (hfile.range _ hmem) (by decide)
  · refine ⟨?_, ?_⟩
    · rcases hfile.apart j hj with hsame | hother
      · exact hsame
      · exact absurd hjn (hother n hmem)
    · rintro rfl
      exact (List.nodup_cons.1 hfile.nodup).1 hn

/-- The volume is mounted as `v`. -/
def mountedSession (d : ℕ → Block) : Session where
  fs := ⟨idleMemory ⟨fun row => if row = 0 then ⟨some 0, [118]⟩ else ⟨none, []⟩,
    fun _ => ⟨none, 0, 0⟩⟩, d, []⟩
  opened := fun _ => none

theorem mountedSession_init {tfs : TfsVolume} {d : ℕ → Block}
    (h : SoundVolume tfs.totalblocks (tfs.view d)) : (mountedSession d).Init tfs :=
  ⟨h, fun _ _ _ => rfl, rfl⟩

/-- The path names `[v]a` and `[v]b`. -/
def pathA : List UInt8 := [91, 118, 93, 97]
def pathB : List UInt8 := [91, 118, 93, 98]

/-- The file of two blocks is open. -/
def openedSession : Session :=
  ((mountedSession createdDisk).call (diskVolume 16) (.open pathA)).get (by decide +kernel)

/-- A write of 2000 bytes to a file of two blocks leaves block 6 alone. -/
theorem vfsWrite_confined_openedSession :
    ((vfsWrite 0 1 2000).runOn (tfsDriver (diskVolume 16) fun _ => 7) openedSession.fs).2.disk 6
      = openedSession.fs.disk 6 := by
  have hreach : IntactReachable (diskVolume 16) openedSession :=
    .step (.open pathA) (.init (mountedSession_init createdDisk_sound))
      ⟨trivial, trivial, (Option.some_get _).symm⟩
  have hopened : (openedSession.opened 0).map (fun o => (o.blocks, o.reallocated))
      = some ([4, 5], false) := by decide +kernel
  obtain ⟨o, ho, hfile⟩ := Option.map_eq_some_iff.1 hopened
  have hblocks : o.blocks = [4, 5] := congrArg Prod.fst hfile
  have hkeep : o.reallocated = false := congrArg Prod.snd hfile
  have hvalid : (VfsFileCall.write 0 1 2000 fun _ => 7).Valid := ⟨by decide, by decide⟩
  have hintact : openedSession.WritesIntact (.write 0 1 2000 fun _ => 7) := by
    intro o' ho'
    rw [ho] at ho'
    cases ho'
    exact hkeep
  by_contra hchanged
  obtain ⟨o', ho', n, hn, hblock, -⟩ := vfsWrite_confined hreach hvalid hintact 6 hchanged
  rw [ho] at ho'
  cases ho'
  rw [hblocks] at hn
  have h4 : (6 : ℕ) ≠ (diskVolume 16).block 4 := by decide
  have h5 : (6 : ℕ) ≠ (diskVolume 16).block 5 := by decide
  rcases List.mem_cons.1 hn with rfl | hn
  · exact h4 hblock
  · obtain rfl := List.mem_singleton.1 hn
    exact h5 hblock

instance (c : VfsFileCall) : Decidable c.Valid :=
  match c with
  | .create _ _ => inferInstanceAs (Decidable (_ ≤ _))
  | .remove _ | .open _ => inferInstanceAs (Decidable True)
  | .read _ _ _ | .write _ _ _ _ | .seek _ _ | .close _ => inferInstanceAs (Decidable (_ ∧ _))

/-- `Step` as a function. -/
def Session.exec (tfs : TfsVolume) (s : Session) (c : VfsFileCall) : Option Session :=
  if c.Valid then s.call tfs c else none

/-- The file `a` is opened and removed. A larger file `b` gets its blocks, and its inode is where the
inode of `a` was. -/
def reusedSession : Session :=
  (runOps (Session.exec (diskVolume 16)) (mountedSession (tfstoolCreatevol fun _ => 0))
    [.create pathA 512, .open pathA, .remove pathA, .create pathB 1024]).get (by decide +kernel)

theorem reusedSession_reachable :
    Reach (Session.Init (diskVolume 16)) (Session.Step (diskVolume 16)) reusedSession := by
  have hinit : (mountedSession (tfstoolCreatevol fun _ => 0)).Init (diskVolume 16) :=
    mountedSession_init (volumeInvariant_tfstoolCreatevol _ 16).sound
  have hstart : Run (Session.Init (diskVolume 16)) (Session.Step (diskVolume 16)) [] _ := .nil hinit
  refine (hstart.append_runOps _ (fun s c s' hexec => ?_) (Option.some_get _).symm).reach
  unfold Session.exec at hexec
  by_cases hvalid : c.Valid
  · rw [if_pos hvalid] at hexec
    exact ⟨hvalid, hexec⟩
  · rw [if_neg hvalid] at hexec
    cases hexec

/-- **A write through the old handle goes to the new file.** The file had block 4 when the handle was
opened, and the write changes block 5. -/
theorem reusedSession_overwritten :
    Reach (Session.Init (diskVolume 16)) (Session.Step (diskVolume 16)) reusedSession ∧
    (VfsFileCall.write 0 1 1024 fun _ => 7).Valid ∧
    (reusedSession.opened 0).map (·.blocks) = some [4] ∧
    ((vfsWrite 0 1 1024).runOn (tfsDriver (diskVolume 16) fun _ => 7) reusedSession.fs).2.disk
        ((diskVolume 16).block 5) ≠ reusedSession.fs.disk ((diskVolume 16).block 5) ∧
    ∃ i, Live ((diskVolume 16).view reusedSession.fs.disk) i ∧
      Tfstool.entryName ((diskVolume 16).view reusedSession.fs.disk tfsDirectoryBlock) i = nameB.chars ∧
      5 ∈ fileBlocks ((diskVolume 16).view reusedSession.fs.disk) i := by
  refine ⟨reusedSession_reachable, ⟨by decide, by decide⟩, by decide +kernel, fun hsame => ?_,
    24, by decide +kernel, by decide +kernel, by decide +kernel⟩
  -- block 5 is new and has zeros before the write, and sevens after it
  have hbyte := congrArg (Block.byte · 0) hsame
  revert hbyte
  decide +kernel

end Kudos
