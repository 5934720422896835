import Kudos.Fs.VfsChunks
import Kudos.Proc.ElfFile

set_option autoImplicit false

/-! # The file of a program

The loader reads its file by `vfs_seek` and `vfs_read`. On a handle that is open in a TFS volume this
gives the contents of the file, which is what the loader relies on (`openFile_stores`). -/

namespace Kudos

open CInt Words

/-- The contents of a file, with zeros after them. -/
def FileImage.ofList (c : List UInt8) : FileImage := ⟨c.length, fun k => c.getD k 0⟩

theorem FileImage.slice_ofList {c : List UInt8} {position size : ℕ} (h : position + size ≤ c.length) :
    (FileImage.ofList c).slice position size = (c.drop position).take size := by
  refine List.ext_getElem? fun k => ?_
  rw [List.getElem?_take]
  by_cases hk : k < size
  · rw [FileImage.getElem?_slice _ _ hk, if_pos hk, List.getElem?_drop]
    have hlt : position + k < c.length := by omega
    simp only [FileImage.ofList]
    rw [List.getD_eq_getElem?_getD, List.getElem?_eq_getElem hlt]
    rfl
  · rw [if_neg hk, List.getElem?_eq_none]
    rw [FileImage.length_slice]
    omega

/-- `vfs_seek` to a position and `vfs_read` from there. -/
def seekRead (file : ℤ) (buffer : ℕ) (size position : ℤ) : VfsProc ℤ := do
  let _ ← vfsSeek file position
  vfsRead file buffer size

/-- An open file, as the loader uses it. -/
def openFile (tfs : TfsVolume) (file : ℤ) (buffer : ℕ) (s : FsState) : Executable where
  read size position :=
    match (seekRead file buffer size position).runOn (tfsDriver tfs fun _ => 0) s with
    | (some ret, s') => if ret < 0 then none else some s'.received
    | (none, _) => none

section

variable {tfs : TfsVolume} {s : FsState} {file : ℤ} {i pos : ℕ} {c : List UInt8}

/-- The position of an open file is set. -/
theorem FsState.OpenAt.seek (h : s.OpenAt tfs file i pos c) {position : ℕ}
    (hposition : position ≤ c.length) (data : ℕ → UInt8) :
    ∃ s', (vfsSeek file position).runOn (tfsDriver tfs data) s = (some vfsOk, s') ∧
      s'.OpenAt tfs file i position c := by
  obtain ⟨⟨⟨n, u⟩, t, sem⟩, d, bytes⟩ := s
  obtain ⟨⟨hu, hlo, hhi, hsem⟩, hsound, hlive, hcontents, ⟨fs, hfs⟩, hfileid, -, -⟩ := h
  obtain rfl : u = true := hu
  have hn : 0 ≤ n ∧ n < intMax := ⟨hlo, hhi⟩
  have hrow : (t.files file).filesystem = some fs := hfs
  refine ⟨⟨⟨⟨n, true⟩, t.setFile file { t.files file with seekPosition := position }, sem⟩, d, bytes⟩,
    ?_, ⟨rfl, hlo, hhi, hsem⟩, hsound, hlive, hcontents, ⟨fs, ?_⟩, ?_, ?_, hposition⟩
  · unfold vfsSeek
    rw [VfsProc.runOn_bind_some (run_vfsStartOp hn), if_neg (not_not.2 rfl), if_neg (by omega),
      VfsProc.runOn_bind_some (run_semP (hsem _) _),
      VfsProc.runOn_bind_some (run_vfsVerifyOpen hrow _), if_neg (by decide),
      VfsProc.runOn_bind_some (run_storeTables ..), VfsProc.runOn_bind_some (run_semV (hsem _) _),
      VfsProc.runOn_bind_some (run_vfsEndOp hn)]
    rfl
  · rw [VfsTables.setFile_files_self]
    exact hrow
  · rw [VfsTables.setFile_files_self]
    exact hfileid
  · rw [VfsTables.setFile_files_self]

/-- **An open file has its contents for the loader.** -/
theorem FsState.OpenAt.openFile_stores (h : s.OpenAt tfs file i pos c) {buffer : ℕ}
    (hbuffer : buffer ≠ 0) : (openFile tfs file buffer s).Stores (FileImage.ofList c) := by
  intro size position hsize _
  have hlen : position + size ≤ c.length := hsize
  obtain ⟨s1, hseek, hat⟩ := h.seek (show position ≤ c.length by omega) fun _ => 0
  obtain ⟨s2, hread, hreceived, -⟩ := hat.read hbuffer size fun _ => 0
  have hrun : (seekRead file buffer size position).runOn (tfsDriver tfs fun _ => 0) s
      = (some ((min size (c.length - position) : ℕ) : ℤ), s2) := by
    unfold seekRead
    rw [VfsProc.runOn_bind_some hseek]
    exact hread
  simp only [openFile, hrun]
  rw [if_neg (by omega), hreceived, FileImage.slice_ofList hlen]

end

end Kudos
