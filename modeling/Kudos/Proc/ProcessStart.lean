import Kudos.Fs.VfsView
import Kudos.Proc.ProcessIsolation

set_option autoImplicit false

/-! # What a start that fails leaves behind

`setup_new_process` with the open file table and the page table of the running thread, which the model of
the loader leaves out. It opens the executable first and closes it last, and the two checks of the ELF
header return in between. So a file that is found and is not accepted stays open (`leaksNothing_iff`).
Everything else is taken after the checks.

The volumes are read with the byte order of `mips32`. That makes no difference, as `volumesDriver_eq` says. -/

namespace Kudos

open CInt Words

/-! ## The state -/

/-- What the entry of a thread, and its context, have about its page table. -/
structure ThreadPages where
  pagetable : BitVec 64
  pml4 : BitVec 64
  virtMemory : BitVec 64
  deriving DecidableEq

/-- The state of the kernel, as far as the start of a process uses it. -/
structure StartState where
  fs : FsState
  mem : KernelMemory
  threads : ℕ → ThreadPages
  /-- The page table that the processor uses. -/
  cr3 : BitVec 64

/-- A part of the start of a process. -/
abbrev Startup (α : Type) := StateT StartState (Except KernelFault) α

namespace Startup

section

variable (volumes : ℕ → TfsVolume)

/-- A call of the VFS. If it does not return, neither does its caller. -/
def vfs (p : VfsProc ℤ) : Startup ℤ := fun s =>
  match p.runOn (volumesDriver volumes) s.fs with
  | (some ret, fs) => .ok (ret, { s with fs })
  | (none, _) => .error .endless

/-- A change of the memory of the kernel. -/
def onMemory {α : Type} (f : KernelMemory → Except KernelFault (α × KernelMemory)) : Startup α := fun s =>
  match f s.mem with
  | .ok (a, mem) => .ok (a, { s with mem })
  | .error e => .error e

/-- A `vfs_read` whose result is compared with the size of the buffer. -/
def readAll (file : ℤ) (buffer : ℕ) (size : ℤ) : Startup (Option (List UInt8)) := do
  let ret ← vfs volumes (vfsRead file buffer size)
  if ret ≠ size then return none
  return some (← get).fs.received

/-! ## The parser -/

/-- The loops over the program headers. `buffer` is where a header is put. -/
def elfProgramHeaders (file : ℤ) (buffer : ℕ) (size : ℤ) (decode : List UInt8 → Phdr) :
    ℕ → ℤ → ElfSegments → Startup (Except ℤ ElfSegments)
  | 0, _, st => return .ok st
  | n + 1, currentPosition, st => do
      match ← readAll volumes file buffer size with
      | none => return .error (-6)
      | some bytes =>
          match elfProgramHeader (decode bytes) st with
          | .error e => return .error e
          | .ok st =>
              let currentPosition := wrap32 (currentPosition + size)
              let _ ← vfs volumes (vfsSeek file currentPosition)
              elfProgramHeaders file buffer size decode n currentPosition st

/-- `elf_parse_header`. -/
def elfParseHeader (file : ℤ) (buffer : ℕ) : Startup (Except ℤ (ℤ × ElfInfo)) := do
  match ← readAll volumes file buffer 64 with
  | none => return .error (-1)
  | some bytes =>
      if fromBigEndian32 .little (BitVec.ofNat 32 (field bytes 0 4)) ≠ elfMagic then return .error (-2)
      else if field bytes 16 2 ≠ etExec then return .error (-3)
      else
        let use64 := decide (field bytes 4 1 &&& elfclass64 ≠ 0)
        let hdr := if use64 then ehdr64 bytes else ehdr32 bytes
        if hdr.ePhnum = 0 then return .error (-4)
        else
          let elf : ElfInfo := ⟨hdr.eEntry, ⟨0, 0, 0, 0⟩, ⟨0, 0, 0, 0⟩⟩
          let currentPosition := (hdr.ePhoff.setWidth 32).toInt
          let _ ← vfs volumes (vfsSeek file currentPosition)
          let size := if use64 then 56 else 32
          let decode := if use64 then phdr64 else phdr32
          match ← elfProgramHeaders volumes file buffer size decode hdr.ePhnum currentPosition
            ⟨elf, false, false⟩ with
          | .error e => return .error e
          | .ok st => return .ok (if st.segRo || st.segRw then 1 else 0, st.elf)

/-! ## Loading -/

/-- `process_set_pagetable`, in the thread `current`. -/
def processSetPagetable (current : ℕ) (pagetable : BitVec 64) : Startup Unit :=
  modify fun s => { s with
    cr3 := pagetable
    threads := Function.update s.threads current
      { s.threads current with pml4 := pagetable, virtMemory := pagetable } }

/-- Page `i` of a segment is filled from the file. -/
def fillPage (file : ℤ) (seg : Segment) (pagetable : BitVec 64) (i : ℕ) : Startup Unit := do
  let leftToRead := ((seg.size - pageOffset i).setWidth 32).toInt
  if 0 < leftToRead then
    let ret ← vfs volumes (vfsSeek file ((seg.location + pageOffset i).setWidth 32).toInt)
    if ret ≠ vfsOk then throw .assertion
    else
      match ← readAll volumes file (seg.page i).toNat (min 4096 leftToRead) with
      | none => throw .assertion
      | some bytes =>
          onMemory fun m => do
            let vm ← writeUser m.vm pagetable (seg.page i) bytes
            return ((), { m with vm })

/-- The loops over the pages of a segment. -/
def loadSegment (pool : PtPool) (file : ℤ) (pagetable : BitVec 64) (seg : Segment) (readOnly : Bool) :
    ℕ → ℕ → Startup Unit
  | 0, _ => return
  | n + 1, i => do
      let physPage ← onMemory (mapZeroedPage pool pagetable (seg.page i))
      fillPage volumes file seg pagetable i
      if readOnly then
        onMemory fun m => do
          let vm ← vmMap pool m.vm pagetable physPage (seg.page i) pageUser
          return ((), { m with vm })
      loadSegment pool file pagetable seg readOnly n (i + 1)

/-- `setup_new_process` from the new page table on. -/
def loadProgram (pool : PtPool) (thread current : ℕ) (currentPml4 : BitVec 64) (file : ℤ)
    (elf : ElfInfo) : Startup NewProcess := do
  let pagetable ← onMemory fun m => do
    let (pagetable, vm) ← vmCreatePagetable pool m.vm
    return (pagetable, { m with vm })
  processSetPagetable current pagetable
  modify fun s => { s with
    threads := Function.update s.threads thread { s.threads thread with pagetable } }
  onMemory fun m => do return ((), ← loadStack pool pagetable configUserlandStackSize 0 m)
  loadSegment volumes pool file pagetable elf.ro true elf.ro.count 0
  loadSegment volumes pool file pagetable elf.rw false elf.rw.count 0
  let _ ← vfs volumes (vfsClose file)
  processSetPagetable current currentPml4
  modify fun s => { s with
    threads := Function.update s.threads thread
      { s.threads thread with pml4 := pagetable, virtMemory := pagetable } }
  return ⟨elf.entryPoint, userlandStackTop, pagetable⟩

/-- `setup_new_process` for the thread `thread`, in the thread `current`. No process is the result -1. -/
def setupNewProcess (pool : PtPool) (buffer thread current : ℕ) (executable : List UInt8) :
    Startup (Option NewProcess) := do
  let currentPml4 := ((← get).threads current).virtMemory
  let file ← vfs volumes (vfsOpen executable)
  if file < 0 then return none
  else
    match ← elfParseHeader volumes file buffer with
    | .error _ => return none
    | .ok (_, elf) =>
        if elf.entryPoint ≤ vmmKernelSpace then return none
        else return some (← loadProgram volumes pool thread current currentPml4 file elf)

end

/-! ## Runs -/

section

variable {α β : Type} {s s' : StartState}

theorem bind_ok {x : Startup α} {f : α → Startup β} {b : β} (h : (x >>= f) s = .ok (b, s')) :
    ∃ a s1, x s = .ok (a, s1) ∧ f a s1 = .ok (b, s') := by
  change (x s).bind _ = _ at h
  cases hx : x s with
  | error e =>
      rw [hx] at h
      cases h
  | ok r =>
      rw [hx] at h
      exact ⟨r.1, r.2, rfl, h⟩

theorem vfs_ok {volumes : ℕ → TfsVolume} {p : VfsProc ℤ} {ret : ℤ} {Q : ℤ → VfsView → Prop}
    (hp : p.Gives (volumesDriver volumes) s.fs.view Q) (h : vfs volumes p s = .ok (ret, s')) :
    Q ret s'.fs.view ∧ s' = { s with fs := s'.fs } := by
  unfold vfs at h
  split at h
  · next a fs hrun =>
      cases h
      exact ⟨hp s.fs ret fs rfl hrun, rfl⟩
  · cases h

theorem onMemory_ok {f : KernelMemory → Except KernelFault (α × KernelMemory)} {a : α}
    (h : onMemory f s = .ok (a, s')) : f s.mem = .ok (a, s'.mem) ∧ s'.fs = s.fs := by
  unfold onMemory at h
  split at h
  · next a' mem hf =>
      cases h
      exact ⟨hf, rfl⟩
  · cases h

end

/-! ## Reading -/

/-- A file of a volume, as the loader reads it. -/
def executableFile (tfs : TfsVolume) (disk : ℕ → Block) (fileid : ℤ) : Executable where
  read size position :=
    match (tfsRead .big tfs fileid size position).run none disk with
    | (.ok (ret, bytes), _) => if ret < 0 then none else some bytes
    | (.error _, _) => none

/-- Of the whole state, only the position of one row of the open file table is different. -/
structure Reads (file : ℤ) (s s' : StartState) : Prop where
  fs : s.fs.view.Moves file s'.fs.view
  rest : s' = { s with fs := s'.fs }

section

variable {volumes : ℕ → TfsVolume} {s s' s'' : StartState} {file : ℤ} {fs : ℕ} {fileid position : ℤ}
  {buffer : ℕ}

theorem Reads.trans (h : Reads file s s') (h' : Reads file s' s'') : Reads file s s'' where
  fs := h.fs.trans h'.fs
  rest := by rw [h'.rest, h.rest]

theorem Reads.disk (h : Reads file s s') : s'.fs.disk = s.fs.disk := by
  obtain ⟨p, r, heq⟩ := h.fs
  exact congrArg VfsView.disk heq

theorem vfsSeek_ok (hopen : s.fs.view.OpenAt file fs fileid position) {seekPosition ret : ℤ}
    (h : vfs volumes (vfsSeek file seekPosition) s = .ok (ret, s')) :
    Reads file s s' ∧ s'.fs.view.OpenAt file fs fileid (seekTo position seekPosition) := by
  obtain ⟨hseek, hrest⟩ := vfs_ok (vfsSeek_gives hopen seekPosition) h
  unfold seekTo
  by_cases hneg : seekPosition < 0
  · rw [if_pos hneg] at hseek ⊢
    rw [hseek.2]
    exact ⟨⟨by rw [hseek.2]; exact .refl file _, hrest⟩, hopen⟩
  · rw [if_neg hneg] at hseek ⊢
    refine ⟨⟨⟨seekPosition, s'.fs.view.received, ?_⟩, hrest⟩, ?_⟩
    · rw [hseek.2]
    · rw [hseek.2]
      exact hopen.seek seekPosition _

theorem readAll_ok (hopen : s.fs.view.OpenAt file fs fileid position) {size : ℤ} (hsize : 0 < size)
    {bytes : Option (List UInt8)} (h : readAll volumes file buffer size s = .ok (bytes, s')) :
    Reads file s s' ∧
      bytes = (executableFile (volumes fs) s.fs.disk fileid).readAll size position ∧
      (bytes ≠ none → s'.fs.view.OpenAt file fs fileid (wrap32 (position + size))) := by
  obtain ⟨ret, s1, hread, h⟩ := bind_ok h
  obtain ⟨⟨-, -, hrun, hview⟩, hrest⟩ := vfs_ok (vfsRead_gives hopen buffer size) hread
  have hreads : Reads file s s1 := ⟨⟨_, _, hview⟩, hrest⟩
  have hlength := (delivers_tfsRead (volumes fs) fileid position hsize.le).run hrun
  have hfile : (executableFile (volumes fs) s.fs.disk fileid).readAll size position
      = if ret = size then some s1.fs.view.received else none := by
    have hrun' : (tfsRead .big (volumes fs) fileid size position).run none s.fs.disk
        = (.ok (ret, s1.fs.view.received), s.fs.disk) := hrun
    unfold Executable.readAll executableFile
    simp only [hrun']
    by_cases hneg : ret < 0
    · rw [if_pos hneg, if_neg (by omega)]
      rfl
    · rw [if_neg hneg, Option.filter_some, hlength (by omega)]
      simp only [decide_eq_true_eq]
  rw [hfile]
  by_cases hret : ret = size
  · rw [if_neg (not_not.2 hret)] at h
    cases h
    rw [if_pos hret]
    refine ⟨hreads, rfl, fun _ => ?_⟩
    rw [if_pos (by omega), hret] at hview
    rw [hview]
    exact hopen.seek _ _
  · rw [if_pos hret] at h
    cases h
    rw [if_neg hret]
    exact ⟨hreads, rfl, fun hne => absurd rfl hne⟩

/-- The loop over the program headers reads what the file has. -/
theorem elfProgramHeaders_ok {size : ℤ} (hsize : 0 < size) {decode : List UInt8 → Phdr} {n : ℕ}
    {currentPosition : ℤ} {st : ElfSegments} {r : Except ℤ ElfSegments}
    (hopen : s.fs.view.OpenAt file fs fileid position)
    (h : elfProgramHeaders volumes file buffer size decode n currentPosition st s = .ok (r, s')) :
    Reads file s s' ∧
      r = Kudos.elfProgramHeaders (executableFile (volumes fs) s.fs.disk fileid) size decode n
        currentPosition position st := by
  induction n generalizing s currentPosition position st with
  | zero =>
      cases h
      exact ⟨⟨.refl file _, rfl⟩, rfl⟩
  | succ n ih =>
      obtain ⟨bytes, s1, hread, h⟩ := bind_ok h
      obtain ⟨hreads, hbytes, hnext⟩ := readAll_ok hopen hsize hread
      rw [Kudos.elfProgramHeaders, ← hbytes]
      cases bytes with
      | none =>
          cases h
          exact ⟨hreads, rfl⟩
      | some bytes =>
          simp only at h ⊢
          cases hheader : elfProgramHeader (decode bytes) st with
          | error e =>
              rw [hheader] at h
              cases h
              exact ⟨hreads, rfl⟩
          | ok st' =>
              rw [hheader] at h
              obtain ⟨ret, s2, hseek, h⟩ := bind_ok h
              obtain ⟨hsought, hopen2⟩ := vfsSeek_ok (hnext nofun) hseek
              obtain ⟨hrest, hr⟩ := ih hopen2 h
              refine ⟨hreads.trans (hsought.trans hrest), ?_⟩
              rw [hr, hsought.disk, hreads.disk]
              rfl

/-- What `elf_parse_header` does after its checks, for a class of files. -/
theorem seekHeaders_ok {size currentPosition : ℤ} (hsize : 0 < size) {decode : List UInt8 → Phdr} {n : ℕ}
    {st : ElfSegments} {r : Except ℤ (ℤ × ElfInfo)} (hopen : s.fs.view.OpenAt file fs fileid position)
    (h : (do
      let _ ← vfs volumes (vfsSeek file currentPosition)
      match ← elfProgramHeaders volumes file buffer size decode n currentPosition st with
      | .error e => return .error e
      | .ok st => return .ok (if st.segRo || st.segRw then 1 else 0, st.elf) :
        Startup (Except ℤ (ℤ × ElfInfo))) s = .ok (r, s')) :
    Reads file s s' ∧ r = do
      let st ← Kudos.elfProgramHeaders (executableFile (volumes fs) s.fs.disk fileid) size decode n
        currentPosition (seekTo position currentPosition) st
      return (if st.segRo || st.segRw then 1 else 0, st.elf) := by
  obtain ⟨ret, s1, hseek, h⟩ := bind_ok h
  obtain ⟨hsought, hopen1⟩ := vfsSeek_ok hopen hseek
  obtain ⟨headers, s2, hloop, h⟩ := bind_ok h
  obtain ⟨hlast, hheaders⟩ := elfProgramHeaders_ok hsize hopen1 hloop
  rw [hsought.disk] at hheaders
  rw [← hheaders]
  cases headers with
  | error e =>
      cases h
      exact ⟨hsought.trans hlast, rfl⟩
  | ok st' =>
      cases h
      exact ⟨hsought.trans hlast, rfl⟩

/-- `elf_parse_header` reads what the file has. -/
theorem elfParseHeader_ok {r : Except ℤ (ℤ × ElfInfo)}
    (hopen : s.fs.view.OpenAt file fs fileid 0)
    (h : elfParseHeader volumes file buffer s = .ok (r, s')) :
    Reads file s s' ∧
      r = Kudos.elfParseHeader (executableFile (volumes fs) s.fs.disk fileid) := by
  obtain ⟨bytes, s1, hread, h⟩ := bind_ok h
  obtain ⟨hreads, hbytes, hnext⟩ := readAll_ok hopen (by decide) hread
  unfold Kudos.elfParseHeader
  rw [← hbytes]
  cases bytes with
  | none =>
      cases h
      exact ⟨hreads, rfl⟩
  | some bytes =>
      have hopen1 := hnext nofun
      have hposition : wrap32 (0 + 64) = 64 := by decide
      rw [hposition] at hopen1
      simp only at h ⊢
      split at h
      · next hmagic =>
          rw [if_pos hmagic]
          cases h
          exact ⟨hreads, rfl⟩
      next hmagic =>
      rw [if_neg hmagic]
      split at h
      · next htype =>
          rw [if_pos htype]
          cases h
          exact ⟨hreads, rfl⟩
      next htype =>
      rw [if_neg htype]
      generalize decide (field bytes 4 1 &&& elfclass64 ≠ 0) = use64 at h ⊢
      cases use64 with
      | true =>
          simp only [if_true] at h ⊢
          by_cases hphnum : (ehdr64 bytes).ePhnum = 0
          · rw [if_pos hphnum] at h ⊢
            cases h
            exact ⟨hreads, rfl⟩
          · rw [if_neg hphnum] at h ⊢
            obtain ⟨hrest, hr⟩ := seekHeaders_ok (by decide) hopen1 h
            rw [hreads.disk] at hr
            exact ⟨hreads.trans hrest, hr⟩
      | false =>
          simp only [Bool.false_eq_true, if_false] at h ⊢
          by_cases hphnum : (ehdr32 bytes).ePhnum = 0
          · rw [if_pos hphnum] at h ⊢
            cases h
            exact ⟨hreads, rfl⟩
          · rw [if_neg hphnum] at h ⊢
            obtain ⟨hrest, hr⟩ := seekHeaders_ok (by decide) hopen1 h
            rw [hreads.disk] at hr
            exact ⟨hreads.trans hrest, hr⟩

/-! ## Loading -/

theorem fillPage_ok {seg : Segment} {pagetable : BitVec 64} {i : ℕ}
    (hopen : s.fs.view.OpenAt file fs fileid position)
    (h : fillPage volumes file seg pagetable i s = .ok ((), s')) :
    s.fs.view.Moves file s'.fs.view := by
  unfold fillPage at h
  split at h
  swap
  · cases h
    exact .refl file _
  next hleft =>
  obtain ⟨ret, s1, hseek, h⟩ := bind_ok h
  obtain ⟨hsought, hopen1⟩ := vfsSeek_ok hopen hseek
  split at h
  · cases h
  obtain ⟨bytes, s2, hread, h⟩ := bind_ok h
  have hreads := (readAll_ok hopen1 (by omega) hread).1
  cases bytes with
  | none => cases h
  | some bytes =>
      rw [(onMemory_ok h).2]
      exact (hsought.trans hreads).fs

theorem loadSegment_ok {pool : PtPool} {pagetable : BitVec 64} {seg : Segment} {readOnly : Bool}
    {n i : ℕ} (hopen : s.fs.view.OpenAt file fs fileid position)
    (h : loadSegment volumes pool file pagetable seg readOnly n i s = .ok ((), s')) :
    s.fs.view.Moves file s'.fs.view := by
  induction n generalizing s position i with
  | zero =>
      cases h
      exact .refl file _
  | succ n ih =>
      obtain ⟨physPage, s1, hmap, h⟩ := bind_ok h
      have h1 := (onMemory_ok hmap).2
      obtain ⟨_, s2, hfill, h⟩ := bind_ok h
      have hmoves2 := fillPage_ok (h1 ▸ hopen) hfill
      rw [h1] at hmoves2
      obtain ⟨s3, h3, h⟩ : ∃ s3, s3.fs = s2.fs ∧ loadSegment volumes pool file pagetable seg readOnly n
          (i + 1) s3 = .ok ((), s') := by
        split at h
        · obtain ⟨_, s3, hremap, h⟩ := bind_ok h
          exact ⟨s3, (onMemory_ok hremap).2, h⟩
        · exact ⟨s2, rfl, h⟩
      obtain ⟨position', hopen2⟩ := hopen.moves hmoves2
      have hmoves3 := ih (h3 ▸ hopen2) h
      rw [h3] at hmoves3
      exact hmoves2.trans hmoves3

end

/-! ## The start of a process -/

/-- The same files are open, as before. A row without a file has nothing else that counts, since
`vfs_open` overwrites it. -/
def SameOpenFiles (files files' : ℤ → OpenfileEntry) : Prop :=
  ∀ file, files' file = files file ∨
    ((files file).filesystem = none ∧ (files' file).filesystem = none)

/-- **Nothing is leaked.** After a start that has failed everything is as before, and after one that has
not the same files are open. -/
def LeaksNothing (s : StartState) : Option NewProcess → StartState → Prop
  | none, s' => s'.fs.mem.tables.files = s.fs.mem.tables.files ∧
      s'.mem.vm.ptBitmap = s.mem.vm.ptBitmap ∧ s'.mem.phys = s.mem.phys ∧ s'.threads = s.threads ∧
      s'.cr3 = s.cr3
  | some _, s' => SameOpenFiles s.fs.mem.tables.files s'.fs.mem.tables.files

/-- The path is that of a file which can be opened and which is no program: its headers are refused, or
its entry point is in the kernel. -/
def FindsNoProgram (volumes : ℕ → TfsVolume) (s : FsState) (executable : List UInt8) : Prop :=
  ∃ fs fileid, s.view.findFile volumes executable = some (fs, fileid) ∧
    acceptedElf (some (executableFile (volumes fs) s.disk fileid)) = none

section

variable {volumes : ℕ → TfsVolume} {s s' : StartState} {pool : PtPool} {buffer thread current : ℕ}
  {executable : List UInt8}

/-- Only a row that was free is taken and released. -/
theorem sameOpenFiles_of_closed {t : VfsTables} {file : ℤ} {e : OpenfileEntry}
    (hfree : (t.files file).filesystem = none) (he : e.filesystem = none) :
    SameOpenFiles t.files (t.setFile file e).files := by
  intro file'
  by_cases hfile : file' = file
  · rw [hfile, VfsTables.setFile_files_self]
    exact Or.inr ⟨hfree, he⟩
  · rw [VfsTables.setFile_files_of_ne t hfile]
    exact Or.inl rfl

/-- A file that stays open in a row that was free. -/
theorem not_leaksNothing_of_open {file : ℤ} {fs : ℕ} {fileid position : ℤ}
    (hfree : (s.fs.mem.tables.files file).filesystem = none)
    (hopen : s'.fs.view.OpenAt file fs fileid position) : ¬ LeaksNothing s none s' := by
  rintro ⟨hfiles, -⟩
  have hrow : s.fs.mem.tables.files file = ⟨some fs, fileid, position⟩ := by
    rw [← hfiles]
    exact hopen.row
  rw [hrow] at hfree
  cases hfree

/-- What comes after the checks closes the file again. -/
theorem loadProgram_ok {currentPml4 : BitVec 64} {file : ℤ} {fs : ℕ} {fileid position : ℤ}
    {elf : ElfInfo} {proc : NewProcess} (hopen : s.fs.view.OpenAt file fs fileid position)
    (h : loadProgram volumes pool thread current currentPml4 file elf s = .ok (proc, s')) :
    ∃ position', s'.fs.mem.tables
      = s.fs.mem.tables.setFile file ⟨none, fileid, position'⟩ := by
  obtain ⟨pagetable, s1, hcreate, h⟩ := bind_ok h
  have h1 := (onMemory_ok hcreate).2
  obtain ⟨_, s2, hset, h⟩ := bind_ok h
  cases hset
  obtain ⟨_, s3, hentry, h⟩ := bind_ok h
  cases hentry
  obtain ⟨_, s4, hstack, h⟩ := bind_ok h
  have h4 : s4.fs = s.fs := (onMemory_ok hstack).2.trans h1
  rw [← h4] at hopen ⊢
  obtain ⟨_, s5, hro, h⟩ := bind_ok h
  have hmoves5 := loadSegment_ok hopen hro
  obtain ⟨position5, hopen5⟩ := hopen.moves hmoves5
  obtain ⟨_, s6, hrw, h⟩ := bind_ok h
  have hmoves := hmoves5.trans (loadSegment_ok hopen5 hrw)
  obtain ⟨position6, hopen6⟩ := hopen.moves hmoves
  obtain ⟨ret, s7, hclose, h⟩ := bind_ok h
  have htables := (vfs_ok (vfsClose_gives hopen6) hclose).1.2
  obtain ⟨_, s8, hback, h⟩ := bind_ok h
  cases hback
  obtain ⟨_, s9, hcontext, h⟩ := bind_ok h
  cases hcontext
  cases h
  obtain ⟨position', received, hview⟩ := hmoves
  refine ⟨position', ?_⟩
  show s7.fs.view.tables = s4.fs.view.tables.setFile file ⟨none, fileid, position'⟩
  rw [htables, hview]
  simp only [VfsView.seek, VfsTables.setFile, Function.update_idem, Function.update_self]
  rw [hopen.row]

/-- **When a start leaks nothing.** The executable of a start that returns stays open if and only if it
is a file that can be opened and is no program. -/
theorem leaksNothing_iff {r : Option NewProcess}
    (h : setupNewProcess volumes pool buffer thread current executable s = .ok (r, s')) :
    LeaksNothing s r s' ↔ ¬ FindsNoProgram volumes s.fs executable := by
  obtain ⟨_, s0, hget, h⟩ := bind_ok h
  cases hget
  obtain ⟨file, s1, hopen, h⟩ := bind_ok h
  obtain ⟨⟨husable, hdisk, hfind⟩, hrest⟩ := vfs_ok (vfsOpen_gives volumes s.fs.view executable) hopen
  cases hfound : s.fs.view.findFile volumes executable with
  | none =>
      rw [hfound] at hfind
      rw [if_pos hfind.1] at h
      cases h
      refine iff_of_true ?_ ?_
      · refine ⟨congrArg VfsTables.files hfind.2, ?_, ?_, ?_, ?_⟩ <;> rw [hrest]
      · rintro ⟨fs, fileid, hsome, -⟩
        rw [hfound] at hsome
        cases hsome
  | some found =>
      obtain ⟨fs, fileid⟩ := found
      rw [hfound] at hfind
      obtain ⟨hpos, hfree, htables⟩ := hfind
      rw [if_neg (by omega)] at h
      have hopen1 : s1.fs.view.OpenAt file fs fileid 0 := by
        refine ⟨husable.trans (VfsView.usable_of_findFile hfound), ?_⟩
        rw [htables, VfsTables.setFile_files_self]
      have hrefused : acceptedElf (some (executableFile (volumes fs) s.fs.disk fileid)) = none ↔
          FindsNoProgram volumes s.fs executable := by
        refine ⟨fun hnone => ⟨fs, fileid, hfound, hnone⟩, ?_⟩
        rintro ⟨fs', fileid', hsome, hnone⟩
        rw [hfound] at hsome
        cases hsome
        exact hnone
      rw [← hrefused]
      obtain ⟨parsed, s2, hparse, h⟩ := bind_ok h
      obtain ⟨hreads, hparsed⟩ := elfParseHeader_ok hopen1 hparse
      rw [show s1.fs.disk = s.fs.disk from hdisk] at hparsed
      obtain ⟨position, hopen2⟩ := hopen1.moves hreads.fs
      cases parsed with
      | error e =>
          cases h
          refine iff_of_false (not_leaksNothing_of_open hfree hopen2) (not_not.2 ?_)
          simp [acceptedElf, ← hparsed, Except.toOption]
      | ok parsed =>
          obtain ⟨segs, elf⟩ := parsed
          simp only at h
          split at h
          · next hentry =>
              cases h
              refine iff_of_false (not_leaksNothing_of_open hfree hopen2) (not_not.2 ?_)
              simp [acceptedElf, ← hparsed, Except.toOption, hentry]
          · next hentry =>
              obtain ⟨proc, s3, hload, h⟩ := bind_ok h
              cases h
              refine iff_of_true ?_ ?_
              · obtain ⟨position', hclosed⟩ := loadProgram_ok hopen2 hload
                obtain ⟨p, received, hview⟩ := hreads.fs
                have htables2 : s2.fs.mem.tables = s1.fs.view.tables.setFile file
                    { s1.fs.view.tables.files file with seekPosition := p } :=
                  congrArg VfsView.tables hview
                have htables3 : s'.fs.mem.tables
                    = s.fs.mem.tables.setFile file ⟨none, fileid, position'⟩ := by
                  rw [hclosed, htables2, htables]
                  simp only [VfsTables.setFile, Function.update_idem]
                  rfl
                show SameOpenFiles s.fs.mem.tables.files s'.fs.mem.tables.files
                rw [htables3]
                exact sameOpenFiles_of_closed hfree rfl
              · simp [acceptedElf, ← hparsed, Except.toOption, hentry]

end

/-- A kernel with a volume that has one file, which is no program. -/
def sampleStart : StartState where
  fs := (mountedSession createdDisk).fs
  mem := sampleMemory
  threads := fun _ => ⟨0, 0, 0⟩
  cr3 := 0

/-- The start of a program on the volume of `sampleStart`. -/
def startSample (executable : List UInt8) : Except KernelFault (Option NewProcess × StartState) :=
  setupNewProcess (fun _ => diskVolume 16) samplePool 1 0 0 executable sampleStart

theorem startSample_none (executable : List UInt8)
    (h : ((startSample executable).toOption.map fun r => r.1.isNone) = some true) :
    ∃ s', startSample executable = .ok (none, s') := by
  cases hrun : startSample executable with
  | error e =>
      rw [hrun] at h
      cases h
  | ok r =>
      obtain ⟨proc, s'⟩ := r
      rw [hrun] at h
      cases proc with
      | none => exact ⟨s', rfl⟩
      | some proc => cases h

/-- There is no file `b`, and `a` is no program. -/
theorem leaksNothing_iff_paths :
    (∃ s', startSample pathB = .ok (none, s') ∧ LeaksNothing sampleStart none s') ∧
    ∃ s', startSample pathA = .ok (none, s') ∧ ¬ LeaksNothing sampleStart none s' := by
  refine ⟨?_, ?_⟩
  · obtain ⟨s', hrun⟩ := startSample_none pathB (by decide +kernel)
    refine ⟨s', hrun, (leaksNothing_iff hrun).2 ?_⟩
    rintro ⟨fs, fileid, hsome, -⟩
    have hnone : sampleStart.fs.view.findFile (fun _ => diskVolume 16) pathB = none := by decide +kernel
    rw [hnone] at hsome
    cases hsome
  · obtain ⟨s', hrun⟩ := startSample_none pathA (by decide +kernel)
    refine ⟨s', hrun, fun hleaks => (leaksNothing_iff hrun).1 hleaks ?_⟩
    have hfound : sampleStart.fs.view.findFile (fun _ => diskVolume 16) pathA = some (0, 3) := by
      decide +kernel
    exact ⟨0, 3, hfound, Option.isNone_iff_eq_none.1 (by decide +kernel)⟩

/-- The file of 600 bytes is opened, and stays open. -/
theorem pathA_not_leaksNothing :
    ∃ s', startSample pathA = .ok (none, s') ∧ ¬ LeaksNothing sampleStart none s' := by
  obtain ⟨s', hrun⟩ := startSample_none pathA (by decide +kernel)
  refine ⟨s', hrun, fun h => ?_⟩
  have hopen : ((startSample pathA).toOption.map fun r => (r.2.fs.mem.tables.files 0).filesystem)
      = some (some 0) := by decide +kernel
  rw [hrun] at hopen
  have hrow : (s'.fs.mem.tables.files 0).filesystem = some 0 := Option.some.inj hopen
  rw [h.1] at hrow
  cases hrow

end Startup

end Kudos
