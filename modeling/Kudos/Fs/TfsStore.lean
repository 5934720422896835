import Kudos.Fs.TfsListing
import Kudos.Fs.VfsTfs

set_option autoImplicit false

/-! # The trivial filesystem as a store of files

Seen from outside, a volume is a directory of named byte arrays with room for so many of them. `StoreStep`
says what each request answers and does there, without blocks, inodes and bitmaps. `tfs_refines_store` is
about every sequence of requests, with their answers, on a volume that `tfstool` made: the store answers
the same. -/

namespace Kudos

open CInt NamedFiles Tfstool Transition Words

/-! ## Requests -/

inductive TfsRequest
  | create (name : FileName) (size : ℤ)
  | remove (name : FileName)
  | openFile (name : FileName)
  | read (fileid : ℤ) (bufsize : ℕ) (offset : ℤ)
  | write (fileid : ℤ) (data : ℕ → UInt8) (datasize : ℕ) (offset : ℤ)
  | getfree
  | filecount (dirname : List UInt8)
  | file (dirname : List UInt8) (idx : ℤ)

/-- The result, and what was put into the buffer of the caller. -/
abbrev TfsAnswer := ℤ × List UInt8

def TfsRequest.proc (tfs : TfsVolume) : TfsRequest → TfsProc TfsAnswer
  | create name size => withoutData (tfsCreate .big tfs name.chars size)
  | remove name => withoutData (tfsRemove .big tfs name.chars)
  | openFile name => withoutData (tfsOpen .big tfs name.chars)
  | read fileid bufsize offset => tfsRead .big tfs fileid bufsize offset
  | write fileid data datasize offset => withoutData (tfsWrite .big tfs fileid data datasize offset)
  | getfree => withoutData (tfsGetfree .big tfs)
  | filecount dirname => withoutData (tfsFilecount .big tfs dirname)
  | file dirname idx => tfsFile .big tfs dirname idx

/-- What callers keep to: sizes are `int`s that are not negative, and files are read and written by the
numbers they have. -/
def TfsRequest.Allowed (files : List (File (List UInt8) ℤ (List UInt8))) : TfsRequest → Prop
  | create _ size => 0 ≤ size ∧ size ≤ intMax
  | read fileid _ _ => ∃ f ∈ files, f.id = fileid
  | write fileid _ _ _ => ∃ f ∈ files, f.id = fileid
  | _ => True

/-- A request and its answer. -/
def TfsServes (tfs : TfsVolume) (d : ℕ → Block) (c : TfsRequest × TfsAnswer) (d' : ℕ → Block) : Prop :=
  c.1.Allowed (storedFiles (tfs.view d)) ∧ (c.1.proc tfs).run none d = (.ok c.2, d')

/-- Requests one after the other on a volume of `n` blocks that `tfstool` made. -/
def TfsServed (n : ℕ) (l : List (TfsRequest × TfsAnswer)) (d : ℕ → Block) : Prop :=
  Run (fun d => ∃ volname, d = tfstoolCreatevol volname) (TfsServes (diskVolume n)) l d

/-! ## The store -/

/-- Named byte arrays, as many and as large as a volume of `total` blocks can hold. -/
abbrev FileStore (total : ℕ) : Type := Directory (volumeLimits total) (List UInt8) ℤ

variable {total : ℕ}

/-- There is room for a new file of this name and size. -/
structure HasRoom (D : FileStore total) (name : List UInt8) (size : ℤ) : Prop where
  numblocks_le : blocksFor size ≤ tfsBlocksMax
  new_name : ∀ f ∈ D.files, f.name ≠ name
  count_lt : D.files.length < tfsMaxFiles
  room : blocksFor size + 1 ≤ D.free

/-- The bytes of a file after a write of `m` bytes at `off`. -/
def patched (bytes : List UInt8) (off m : ℕ) (data : ℕ → UInt8) : List UInt8 :=
  bytes.take off ++ (List.range m).map data ++ bytes.drop (off + m)

/-- What a request does to the store, and what it answers. -/
inductive StoreStep : FileStore total → TfsRequest × TfsAnswer → FileStore total → Prop
  | create {D D' : FileStore total} {name : FileName} {size id : ℤ} : HasRoom D name.chars size →
      2 ≤ id → Inserted ⟨name.chars, id, List.replicate size.toNat 0⟩ D.files D'.files →
      StoreStep D (.create name size, (vfsOk, [])) D'
  | createError {D : FileStore total} {name : FileName} {size : ℤ} : ¬ HasRoom D name.chars size →
      StoreStep D (.create name size, (vfsError, [])) D
  | remove {D D' : FileStore total} {f : File (List UInt8) ℤ (List UInt8)} {name : FileName} :
      f.name = name.chars → Inserted f D'.files D.files → StoreStep D (.remove name, (vfsOk, [])) D'
  | removeError {D : FileStore total} {name : FileName} : (∀ f ∈ D.files, f.name ≠ name.chars) →
      StoreStep D (.remove name, (vfsNotFound, [])) D
  | openFile {D : FileStore total} {f : File (List UInt8) ℤ (List UInt8)} {name : FileName} :
      f ∈ D.files → f.name = name.chars → StoreStep D (.openFile name, (f.id, [])) D
  | openError {D : FileStore total} {name : FileName} : (∀ f ∈ D.files, f.name ≠ name.chars) →
      StoreStep D (.openFile name, (vfsNotFound, [])) D
  | read {D : FileStore total} {f : File (List UInt8) ℤ (List UInt8)} {n off m : ℕ} : f ∈ D.files →
      off ≤ f.data.length → m = min n (f.data.length - off) →
      StoreStep D (.read f.id n off, (m, (f.data.drop off).take m)) D
  | readError {D : FileStore total} {f : File (List UInt8) ℤ (List UInt8)} {n : ℕ} {o : ℤ} :
      f ∈ D.files → o < 0 ∨ (f.data.length : ℤ) < o → StoreStep D (.read f.id n o, (vfsError, [])) D
  | write {D D' : FileStore total} {f : File (List UInt8) ℤ (List UInt8)} {data : ℕ → UInt8}
      {n off m : ℕ} : off ≤ f.data.length → m = min n (f.data.length - off) →
      Replaced f { f with data := patched f.data off m data } D.files D'.files →
      StoreStep D (.write f.id data n off, (m, [])) D'
  | writeError {D : FileStore total} {f : File (List UInt8) ℤ (List UInt8)} {data : ℕ → UInt8} {n : ℕ}
      {o : ℤ} : f ∈ D.files → o < 0 ∨ (f.data.length : ℤ) < o →
      StoreStep D (.write f.id data n o, (vfsError, [])) D
  | getfree {D : FileStore total} : StoreStep D (.getfree, ((512 * D.free : ℕ), [])) D
  | filecount {D : FileStore total} :
      StoreStep D (.filecount masterDirectory, (D.files.length, [])) D
  | filecountError {D : FileStore total} {dirname : List UInt8} : dirname ≠ masterDirectory →
      StoreStep D (.filecount dirname, (vfsNotFound, [])) D
  | file {D : FileStore total} {f : File (List UInt8) ℤ (List UInt8)} {k : ℕ} : D.files[k]? = some f →
      StoreStep D (.file masterDirectory k, (vfsOk, f.name ++ [0])) D
  | fileError {D : FileStore total} {dirname : List UInt8} {idx : ℤ} :
      dirname ≠ masterDirectory ∨ idx < 0 ∨ D.files.length ≤ idx →
      StoreStep D (.file dirname idx, (vfsError, [])) D

/-- What requests to a store that was empty lead to. -/
def StoreServed (l : List (TfsRequest × TfsAnswer)) (D : FileStore total) : Prop :=
  Run (fun D => D.files = []) StoreStep l D

/-! ## Volumes and stores -/

/-- The volume holds the files of the store. -/
structure Represents (V : Volume) (D : FileStore total) : Prop where
  invariant : VolumeInvariant total V
  files : D.files = storedFiles V
  name_le : ∀ f ∈ D.files, f.name.length ≤ tfsFilenameMax - 1

section

variable {V V' : Volume} {i : ℕ}

/-- Files are told apart by their numbers. -/
theorem SoundVolume.fileid_inj (hV : SoundVolume total V) {j : ℕ} (hi : Live V i) (hj : Live V j)
    (h : fileid V i = fileid V j) : i = j := by
  have hdir : dirInode V i = dirInode V j := BitVec.eq_of_toInt_eq h
  refine hV.owner_unique (dirInode_mem_fileBlocks hi) ?_
  rw [hdir]
  exact dirInode_mem_fileBlocks hj

/-- An entry that comes into use while the other files stay as they are. -/
theorem storedFiles_inserted (hi : i < tfsMaxFiles) (hfree : dirInode V i = 0)
    (hlive : dirInode V' i ≠ 0) (hother : ∀ j, j ≠ i → (dirInode V' j ≠ 0 ↔ dirInode V j ≠ 0))
    (hsame : ∀ j, Live V j → storedFile V' j = storedFile V j) :
    Inserted (storedFile V' i) (storedFiles V) (storedFiles V') := by
  obtain ⟨l1, l2, hold, hnew⟩ := listing_inserted hi hfree hlive hother
  have hmap : ∀ l : List ℕ, (∀ j ∈ l, j ∈ listing V) →
      l.map (storedFile V') = l.map (storedFile V) := fun l hl =>
    List.map_congr_left fun j hj => hsame j (mem_listing.1 (hl j hj))
  refine ⟨l1.map (storedFile V), l2.map (storedFile V), ?_, ?_⟩
  · unfold storedFiles
    rw [hold, List.map_append]
  · unfold storedFiles
    rw [hnew, List.map_append, List.map_cons,
      hmap l1 fun j hj => by rw [hold]; exact List.mem_append_left _ hj,
      hmap l2 fun j hj => by rw [hold]; exact List.mem_append_right _ hj]

/-- A file of which only the data changes. -/
theorem storedFiles_replaced (hi : Live V i) (hlisting : listing V' = listing V)
    (hsame : ∀ j, Live V j → j ≠ i → storedFile V' j = storedFile V j) :
    Replaced (storedFile V i) (storedFile V' i) (storedFiles V) (storedFiles V') := by
  obtain ⟨l1, l2, hsplit⟩ := List.append_of_mem (mem_listing.2 hi)
  have hnodup := nodup_listing V
  rw [hsplit, List.nodup_middle, List.nodup_cons] at hnodup
  have hmap : ∀ l : List ℕ, (∀ j ∈ l, j ∈ l1 ++ l2) →
      l.map (storedFile V') = l.map (storedFile V) := by
    intro l hl
    refine List.map_congr_left fun j hj => hsame j (mem_listing.1 ?_) ?_
    · rw [hsplit]
      exact (List.perm_middle.mem_iff).2 (List.mem_cons_of_mem _ (hl j hj))
    · rintro rfl
      exact hnodup.1 (hl j hj)
  refine ⟨l1.map (storedFile V), l2.map (storedFile V), ?_, ?_⟩
  · unfold storedFiles
    rw [hsplit, List.map_append, List.map_cons]
  · unfold storedFiles
    rw [hlisting, hsplit, List.map_append, List.map_cons,
      hmap l1 fun j hj => List.mem_append_left _ hj, hmap l2 fun j hj => List.mem_append_right _ hj]

end

namespace Represents

variable {V : Volume} {D : FileStore total}

theorem mem_files (h : Represents V D) {f : File (List UInt8) ℤ (List UInt8)} :
    f ∈ D.files ↔ ∃ i, Live V i ∧ storedFile V i = f := by
  rw [h.files]
  exact mem_storedFiles

theorem storedFile_mem (h : Represents V D) {i : ℕ} (hi : Live V i) : storedFile V i ∈ D.files :=
  h.mem_files.2 ⟨i, hi, rfl⟩

/-- The allocation block counts what is left. -/
theorem free_eq (h : Represents V D) (htotal : total ≤ 4096) : D.free = unallocated total V := by
  have hsum := h.invariant.unallocated_add_used htotal
  have hcapacity : (volumeLimits total).capacity = total - 3 := rfl
  unfold Directory.free
  rw [h.files, hcapacity]
  omega

/-- Fewer files than the directory has entries leave one of them free. -/
theorem count_lt_iff (h : Represents V D) :
    D.files.length < tfsMaxFiles ↔ ∃ i < tfsMaxFiles, dirInode V i = 0 := by
  have hrange := List.length_range (n := tfsMaxFiles)
  rw [h.files, length_storedFiles, ← hrange]
  unfold listing
  rw [List.length_filter_lt_length_iff_exists]
  simp only [List.mem_range, List.length_range, decide_eq_true_eq, not_not]

/-- The checks of `tfs_create`, as the store sees them. -/
theorem creatable_iff (h : Represents V D) (htotal : total ≤ 4096) (name : List UInt8) (size : ℤ) :
    Creatable total V name size ↔ HasRoom D name size := by
  have hfree := h.free_eq htotal
  have hnames : (∀ i, Live V i → entryName (V tfsDirectoryBlock) i ≠ name) ↔
      ∀ f ∈ D.files, f.name ≠ name := by
    constructor
    · intro hnew f hf
      obtain ⟨i, hi, rfl⟩ := h.mem_files.1 hf
      exact hnew i hi
    · exact fun hnew i hi => hnew _ (h.storedFile_mem hi)
  constructor
  · rintro ⟨hle, hnew, hentry, hroom⟩
    exact ⟨hle, hnames.1 hnew, h.count_lt_iff.2 hentry, by rw [hfree]; exact hroom⟩
  · rintro ⟨hle, hnew, hcount, hroom⟩
    exact ⟨hle, hnames.2 hnew, h.count_lt_iff.1 hcount, by rw [← hfree]; exact hroom⟩

/-- What `tfs_open` and `tfs_remove` find. -/
theorem findName_some (h : Represents V D) {name : FileName} {i : ℕ}
    (hfind : findName (V tfsDirectoryBlock) name.chars = some i) :
    Live V i ∧ (storedFile V i).name = name.chars := by
  refine ⟨h.invariant.sound.live_of_findName hfind, ?_⟩
  have hequal : stringEq (V tfsDirectoryBlock) (nameOffset i) name.chars = true :=
    List.find?_some (p := fun i => stringEq (V tfsDirectoryBlock) (nameOffset i) name.chars) hfind
  exact (stringEq_iff_entryName _ name i).1 hequal

theorem findName_none (h : Represents V D) {name : FileName}
    (hfind : findName (V tfsDirectoryBlock) name.chars = none) :
    ∀ f ∈ D.files, f.name ≠ name.chars := by
  intro f hf heq
  obtain ⟨i, hi, rfl⟩ := h.mem_files.1 hf
  unfold findName at hfind
  have hnot := List.find?_eq_none.1 hfind i (List.mem_range.2 hi.1)
  exact hnot ((stringEq_iff_entryName _ name i).2 heq)

end Represents

/-! ## One request -/

/-- The request is answered, and the store answers the same. -/
def Simulates (tfs : TfsVolume) (d : ℕ → Block) (D : FileStore tfs.totalblocks) (req : TfsRequest) : Prop :=
  ∃ ans d' D', (req.proc tfs).run none d = (.ok ans, d') ∧ StoreStep D (req, ans) D' ∧
    Represents (tfs.view d') D'

theorem run_withoutData_ok {p : TfsProc ℤ} {d d' : ℕ → Block} {r : ℤ}
    (h : p.run none d = (.ok r, d')) : (withoutData p).run none d = (.ok (r, []), d') := by
  rw [run_withoutData, h]
  rfl

section

variable {tfs : TfsVolume} {d : ℕ → Block} {D : FileStore tfs.totalblocks}

/-- An answer that leaves the disk and the store as they are. -/
theorem Represents.simulates_same (h : Represents (tfs.view d) D) {req : TfsRequest} {ans : TfsAnswer}
    (hrun : (req.proc tfs).run none d = (.ok ans, d)) (hstep : StoreStep D (req, ans) D) :
    Simulates tfs d D req :=
  ⟨ans, d, D, hrun, hstep, h⟩

theorem Represents.simulates_create (h : Represents (tfs.view d) D) (name : FileName) {size : ℤ}
    (hsize : 0 ≤ size ∧ size ≤ intMax) : Simulates tfs d D (.create name size) := by
  have htotal := tfs.totalblocks_le
  have hV := h.invariant.sound
  by_cases hroom : HasRoom D name.chars size
  swap
  · refine h.simulates_same (run_withoutData_ok ?_) (.createError hroom)
    exact tfsCreate_not_creatable tfs hV name hsize fun hcreatable =>
      hroom ((h.creatable_iff htotal _ _).1 hcreatable)
  have hcreatable := (h.creatable_iff htotal _ _).2 hroom
  obtain ⟨i, p, l, hplan, hrun⟩ := tfsCreate_accepted tfs d ((hV.createAccepted_iff name hsize).2 hcreatable)
  have hcreated := hplan.created_all htotal hV name.chars
  have hfile := hcreated.fileCreated htotal hV hsize hcreatable.new_name fun q hq =>
    createVolumeWrites_zero _ _ _ _ _ hq
  have hinvariant := hcreated.invariant htotal h.invariant hsize
  rw [← view_applyWrites] at hcreated hfile hinvariant
  set d' := applyWrites ((createVolumeWrites (tfs.view d) name.chars size i p l).map
    fun nb => (tfs.block nb.1, nb.2)) d with hd'
  have hid := hinvariant.sound.fileid_mem htotal hfile.live
  have hnew : storedFile (tfs.view d') i
      = ⟨name.chars, fileid (tfs.view d') i, List.replicate size.toNat 0⟩ := by
    unfold storedFile
    rw [hfile.contents, hcreated.directory,
      (stringEq_iff_entryName _ name i).1 (stringEq_createEntry name hcreated.index_lt)]
  have hold : ∀ j, Live (tfs.view d) j → storedFile (tfs.view d') j = storedFile (tfs.view d) j := by
    intro j hj
    obtain ⟨-, hdir, hname, hcontents⟩ := hfile.others j hj
    unfold storedFile fileid
    rw [hdir, hname, hcontents]
  have hinserted := storedFiles_inserted hcreated.index_lt hfile.entry_free hfile.live.2
    (fun j hj => by
      have hsame : dirInode (tfs.view d') j = dirInode (tfs.view d) j := (hcreated.sameEntry hj).1
      rw [hsame]) hold
  rw [hnew, ← h.files] at hinserted
  have hcost : (volumeLimits tfs.totalblocks).cost (List.replicate size.toNat (0 : UInt8)) ≤ D.free := by
    have hfit := hroom.room
    show (blocksFor (List.replicate size.toNat (0 : UInt8)).length).toNat + 1 ≤ D.free
    rw [List.length_replicate, Int.toNat_of_nonneg hsize.1]
    unfold blocksFor at hfit ⊢
    omega
  refine ⟨(vfsOk, []), d', D.insert hinserted hroom.new_name ?_ hroom.count_lt hcost, ?_,
    .create hroom hid.1 hinserted, hinvariant, rfl, ?_⟩
  · intro f hf heq
    obtain ⟨j, hj, rfl⟩ := h.mem_files.1 hf
    obtain ⟨hlive, -⟩ := hfile.others j hj
    -- numbers are different in the new volume, where the old file has the number it had
    have hsame : fileid (tfs.view d') j = fileid (tfs.view d') i :=
      (congrArg File.id (hold j hj)).trans heq
    obtain rfl := hinvariant.sound.fileid_inj hlive hfile.live hsame
    exact hj.2 hfile.entry_free
  · exact run_withoutData_ok ((hrun none).trans (run_writeAll_none ..))
  · intro f hf
    rcases (hinserted.mem_iff f).1 hf with rfl | hf
    · exact name.length_le
    · exact h.name_le f hf

theorem Represents.simulates_remove (h : Represents (tfs.view d) D) (name : FileName) :
    Simulates tfs d D (.remove name) := by
  have htotal := tfs.totalblocks_le
  have hV := h.invariant.sound
  rcases tfsRemove_outcome tfs hV name with ⟨hnone, hrun⟩ | ⟨i, hsome, hlive, hrun⟩
  · exact h.simulates_same (run_withoutData_ok (hrun none)) (.removeError (h.findName_none hnone))
  have hname := (h.findName_some hsome).2
  have hremoved := hlive.removed
  rw [← view_applyWrites] at hremoved
  set d' := applyWrites ((removeVolumeWrites (tfs.view d) i).map fun nb => (tfs.block nb.1, nb.2)) d
    with hd'
  have hold : ∀ j, Live (tfs.view d') j → storedFile (tfs.view d) j = storedFile (tfs.view d') j := by
    intro j hj
    obtain ⟨hne, hlivej, hdir, hinode⟩ := hremoved.live_of_live hV hj
    have hcontents : fileContents (tfs.view d') j = fileContents (tfs.view d) j := by
      refine fileContents_congr hlivej (hV.covers hlivej) hdir fun n hn => ?_
      exact hremoved.other n (hV.ne_system hn).1 (hV.ne_system hn).2
    unfold storedFile fileid
    rw [hdir, hcontents, hremoved.directory, entryName_removeEntry _ hne]
  have hinserted := storedFiles_inserted hlive.1 hremoved.entry_free.1 hlive.2
    (fun j hj => by
      have hsame : dirInode (tfs.view d') j = dirInode (tfs.view d) j := (hremoved.sameEntry hj).1
      rw [hsame]) hold
  rw [← h.files] at hinserted
  refine ⟨(vfsOk, []), d', D.erase hinserted, ?_, .remove hname hinserted,
    hremoved.invariant htotal h.invariant, rfl, ?_⟩
  · exact run_withoutData_ok ((hrun none).trans (run_writeAll_none ..))
  · exact fun f hf => h.name_le f ((hinserted.mem_iff f).2 (Or.inr hf))

theorem Represents.simulates_open (h : Represents (tfs.view d) D) (name : FileName) :
    Simulates tfs d D (.openFile name) := by
  have hrun := run_withoutData_ok (run_tfsOpen .big tfs name.chars none d)
  cases hfind : findName (tfs.view d tfsDirectoryBlock) name.chars with
  | none =>
      rw [openResult_of_none hfind] at hrun
      exact h.simulates_same hrun (.openError (h.findName_none hfind))
  | some i =>
      rw [openResult_of_some hfind] at hrun
      obtain ⟨hlive, hname⟩ := h.findName_some hfind
      exact h.simulates_same hrun (.openFile (h.storedFile_mem hlive) hname)

/-- A position is in the file, or it is outside and refused. -/
theorem position_cases (n : ℕ) (o : ℤ) :
    (∃ off : ℕ, o = off ∧ off ≤ n) ∨ o < 0 ∨ (n : ℤ) < o := by
  by_cases hneg : o < 0
  · exact Or.inr (Or.inl hneg)
  · obtain ⟨off, rfl⟩ := Int.eq_ofNat_of_zero_le (Int.not_lt.1 hneg)
    by_cases hle : off ≤ n
    · exact Or.inl ⟨off, rfl, hle⟩
    · exact Or.inr (Or.inr (by omega))

theorem Represents.simulates_read (h : Represents (tfs.view d) D) {i : ℕ} (hi : Live (tfs.view d) i)
    (n : ℕ) (o : ℤ) : Simulates tfs d D (.read (fileid (tfs.view d) i) n o) := by
  have hV := h.invariant.sound
  have hmem := h.storedFile_mem hi
  rcases position_cases (fileContents (tfs.view d) i).length o with ⟨off, rfl, hoff⟩ | hout
  · exact h.simulates_same (tfsRead_file tfs hV hi n hoff) (.read hmem hoff rfl)
  · refine h.simulates_same ?_ (.readError hmem hout)
    rw [length_fileContents, natCast_fileSize (hV.table i hi).1] at hout
    exact run_tfsRead_outside .big tfs none d (view_fileid (tfs.view d) i) n hout

theorem Represents.simulates_write (h : Represents (tfs.view d) D) {i : ℕ} (hi : Live (tfs.view d) i)
    (data : ℕ → UInt8) (n : ℕ) (o : ℤ) :
    Simulates tfs d D (.write (fileid (tfs.view d) i) data n o) := by
  have hV := h.invariant.sound
  have hmem := h.storedFile_mem hi
  rcases position_cases (fileContents (tfs.view d) i).length o with ⟨off, rfl, hoff⟩ | hout
  swap
  · refine h.simulates_same (run_withoutData_ok ?_) (.writeError hmem hout)
    rw [length_fileContents, natCast_fileSize (hV.table i hi).1] at hout
    exact run_tfsWrite_outside tfs d (view_fileid (tfs.view d) i) data n hout
  obtain ⟨d', hrun, hwritten, -⟩ := tfsWrite_file tfs hV hi data n hoff
  set m := min n ((fileContents (tfs.view d) i).length - off) with hm
  have hdir : ∀ j, dirInode (tfs.view d') j = dirInode (tfs.view d) j := by
    intro j
    unfold dirInode
    rw [hwritten.directory]
  have hlisting : listing (tfs.view d') = listing (tfs.view d) := by
    unfold listing
    simp only [hdir]
  have hnew : storedFile (tfs.view d') i = { storedFile (tfs.view d) i with
      data := patched (storedFile (tfs.view d) i).data off m data } := by
    unfold storedFile fileid
    rw [hdir, hwritten.directory, hwritten.contents]
    rfl
  have hreplaced := storedFiles_replaced hi hlisting fun j hj hji => by
    unfold storedFile fileid
    rw [hdir, hwritten.directory, hwritten.others j hj hji]
  rw [hnew, ← h.files] at hreplaced
  have hlength : (patched (storedFile (tfs.view d) i).data off m data).length
      = (storedFile (tfs.view d) i).data.length := by
    show ((fileContents (tfs.view d) i).take off ++ (List.range m).map data
      ++ (fileContents (tfs.view d) i).drop (off + m)).length = (fileContents (tfs.view d) i).length
    rw [List.length_append, List.length_append, List.length_take, List.length_map, List.length_range,
      List.length_drop]
    omega
  have hcost : (volumeLimits tfs.totalblocks).cost (patched (storedFile (tfs.view d) i).data off m data)
      = (volumeLimits tfs.totalblocks).cost (storedFile (tfs.view d) i).data := by
    show (blocksFor (patched (storedFile (tfs.view d) i).data off m data).length).toNat + 1
      = (blocksFor (storedFile (tfs.view d) i).data.length).toNat + 1
    rw [hlength]
  refine ⟨(m, []), d', D.replace hreplaced rfl rfl hcost, run_withoutData_ok hrun,
    @StoreStep.write _ _ _ (storedFile (tfs.view d) i) _ _ _ _ hoff hm hreplaced, h.invariant.congr hwritten.bitmap hwritten.directory hwritten.inodes, ?_, ?_⟩
  · rfl
  · intro f hf
    have hnames := hreplaced.map_eq (p := File.name) rfl
    have hf : f.name ∈ D.files.map File.name := by
      rw [← hnames]
      exact List.mem_map_of_mem hf
    obtain ⟨g, hg, heq⟩ := List.mem_map.1 hf
    rw [← heq]
    exact h.name_le g hg

theorem Represents.simulates_getfree (h : Represents (tfs.view d) D) : Simulates tfs d D .getfree := by
  have hrun := run_withoutData_ok (run_tfsGetfree tfs none d)
  rw [← h.free_eq tfs.totalblocks_le] at hrun
  exact h.simulates_same hrun .getfree

theorem Represents.simulates_filecount (h : Represents (tfs.view d) D) (dirname : List UInt8) :
    Simulates tfs d D (.filecount dirname) := by
  have hrun := run_withoutData_ok (run_tfsFilecount tfs dirname none d)
  by_cases hdir : dirname = masterDirectory
  · rw [if_pos hdir, ← length_storedFiles, ← h.files] at hrun
    refine h.simulates_same hrun ?_
    rw [hdir]
    exact .filecount
  · rw [if_neg hdir] at hrun
    exact h.simulates_same hrun (.filecountError hdir)

theorem Represents.simulates_file (h : Represents (tfs.view d) D) (dirname : List UInt8) (idx : ℤ) :
    Simulates tfs d D (.file dirname idx) := by
  have hrun := run_tfsFile tfs dirname idx none d
  unfold fileResult at hrun
  by_cases hbad : dirname ≠ masterDirectory ∨ idx < 0
  · rw [if_pos hbad] at hrun
    exact h.simulates_same hrun (.fileError (hbad.imp_right Or.inl))
  rw [if_neg hbad] at hrun
  rw [not_or, not_not] at hbad
  obtain ⟨rfl, hidx⟩ := hbad
  obtain ⟨k, rfl⟩ := Int.eq_ofNat_of_zero_le (Int.not_lt.1 hidx)
  have hget : D.files[k]? = (listing (tfs.view d))[k]?.map (storedFile (tfs.view d)) := by
    rw [h.files]
    exact List.getElem?_map ..
  rw [Int.toNat_natCast] at hrun
  cases hentry : (listing (tfs.view d))[k]? with
  | none =>
      rw [hentry] at hrun hget
      refine h.simulates_same hrun (.fileError (Or.inr (Or.inr ?_)))
      exact Int.ofNat_le.2 (List.getElem?_eq_none_iff.1 hget)
  | some i =>
      rw [hentry] at hrun hget
      have hname := h.name_le _ (List.mem_of_getElem? hget)
      have hcopied : cstring (tfs.view d tfsDirectoryBlock) (nameOffset i) (tfsFilenameMax - 1)
          = (storedFile (tfs.view d) i).name :=
        cstring_eq_of_length_le (Nat.sub_le ..) hname
      simp only [hcopied] at hrun
      exact h.simulates_same hrun (.file hget)

/-- **Every request.** -/
theorem Represents.simulates (h : Represents (tfs.view d) D) {req : TfsRequest}
    (hreq : req.Allowed (storedFiles (tfs.view d))) : Simulates tfs d D req := by
  cases req with
  | create name size => exact h.simulates_create name hreq
  | remove name => exact h.simulates_remove name
  | openFile name => exact h.simulates_open name
  | read id n o =>
      obtain ⟨f, hf, rfl⟩ := hreq
      obtain ⟨i, hi, rfl⟩ := mem_storedFiles.1 hf
      exact h.simulates_read hi n o
  | write id data n o =>
      obtain ⟨f, hf, rfl⟩ := hreq
      obtain ⟨i, hi, rfl⟩ := mem_storedFiles.1 hf
      exact h.simulates_write hi data n o
  | getfree => exact h.simulates_getfree
  | filecount dirname => exact h.simulates_filecount dirname
  | file dirname idx => exact h.simulates_file dirname idx

end

/-! ## All requests -/

/-- A new volume is the empty store. -/
theorem represents_tfstoolCreatevol (volname : ℕ → UInt8) (n : ℕ) :
    Represents ((diskVolume n).view (tfstoolCreatevol volname))
      (Directory.empty (volumeLimits (diskVolume n).totalblocks) (List UInt8) ℤ) where
  invariant := volumeInvariant_tfstoolCreatevol volname _
  files := by
    have hfree := dirInode_of_zero
      (show (diskVolume n).view (tfstoolCreatevol volname) tfsDirectoryBlock = .zero from rfl)
    have hnone : listing ((diskVolume n).view (tfstoolCreatevol volname)) = [] :=
      List.filter_eq_nil_iff.2 fun i _ => by simp [hfree i]
    unfold storedFiles
    rw [hnone]
    rfl
  name_le f hf := absurd hf List.not_mem_nil

/-- The store that has answered the requests like the volume. -/
theorem TfsServed.represents {n : ℕ} {l : List (TfsRequest × TfsAnswer)} {d : ℕ → Block}
    (h : TfsServed n l d) : ∃ D : FileStore (diskVolume n).totalblocks, StoreServed l D ∧
      Represents ((diskVolume n).view d) D := by
  refine Run.invariant (I := fun l d => ∃ D : FileStore (diskVolume n).totalblocks, StoreServed l D ∧
    Represents ((diskVolume n).view d) D) ?_ ?_ h
  · rintro d ⟨volname, rfl⟩
    exact ⟨_, .nil rfl, represents_tfstoolCreatevol volname n⟩
  · rintro l d ⟨req, ans⟩ d' ⟨D, hserved, hD⟩ ⟨hreq, hrun⟩
    obtain ⟨ans', d'', D', hrun', hstep, hD'⟩ := hD.simulates hreq
    have hsame := hrun'.symm.trans hrun
    obtain rfl : ans' = ans := Except.ok.inj (congrArg Prod.fst hsame)
    obtain rfl : d'' = d' := congrArg Prod.snd hsame
    exact ⟨D', .snoc hserved hstep, hD'⟩

/-- **A volume is a store of files.** Whatever is requested of it, one after the other, and whatever it
answers: a store that was empty and is requested the same can answer the same, and then has the files that
the volume has. And no request fails to be answered. -/
theorem tfs_refines_store {n : ℕ} {l : List (TfsRequest × TfsAnswer)} {d : ℕ → Block}
    (h : TfsServed n l d) :
    (∃ D : FileStore (min n 4096), StoreServed l D ∧ D.files = storedFiles ((diskVolume n).view d)) ∧
    ∀ req : TfsRequest, req.Allowed (storedFiles ((diskVolume n).view d)) →
      ∃ ans d', TfsServes (diskVolume n) d (req, ans) d' := by
  obtain ⟨D, hserved, hD⟩ := h.represents
  refine ⟨⟨D, hserved, hD.files⟩, fun req hreq => ?_⟩
  obtain ⟨ans, d', -, hrun, -, -⟩ := hD.simulates hreq
  exact ⟨ans, d', hreq, hrun⟩

/-- A new file of 600 bytes, which can then be listed. -/
theorem tfs_refines_store_createdDisk :
    (∃ D : FileStore (min 16 4096), StoreServed [(.create nameA 600, (vfsOk, []))] D ∧
      D.files = storedFiles ((diskVolume 16).view createdDisk)) ∧
    ∃ ans d', TfsServes (diskVolume 16) createdDisk (.file masterDirectory 0, ans) d' := by
  have hcreate : (tfsCreate .big (diskVolume 16) nameA.chars 600).run none
      (tfstoolCreatevol fun _ => 0) = (.ok vfsOk, createdDisk) := Prod.ext (by decide +kernel) rfl
  have hserved : TfsServed 16 [(.create nameA 600, (vfsOk, []))] createdDisk :=
    .snoc (.nil ⟨fun _ => 0, rfl⟩) ⟨⟨by decide, by decide⟩, run_withoutData_ok hcreate⟩
  obtain ⟨hstore, hnext⟩ := tfs_refines_store hserved
  exact ⟨hstore, hnext (.file masterDirectory 0) trivial⟩

end Kudos
