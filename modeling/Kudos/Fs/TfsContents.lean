import Kudos.Fs.TfsConsistency

set_option autoImplicit false

/-! # The contents of a file

A file is an array of bytes: byte `m` is in entry `m / 512` of the block table. `tfs_open` finds the
inode of a file by its name, and `tfs_read` returns a slice of the array, on processors of either byte
order. -/

namespace Kudos

open CInt Words

/-! ## Slices -/

/-- Byte `m` of the file with this inode. -/
def fileByte (V : Volume) (inode : Block) (m : ℕ) : UInt8 :=
  (V (inodeBlock .big inode (m / 512))).byte (m % 512)

/-- `n` bytes of the file, from byte `off` on. -/
def fileSlice (V : Volume) (inode : Block) (off n : ℕ) : List UInt8 :=
  (List.range n).map fun m => fileByte V inode (off + m)

section

variable (V : Volume) (inode : Block)

@[simp]
theorem fileSlice_zero (off : ℕ) : fileSlice V inode off 0 = [] := rfl

theorem fileSlice_add (off m n : ℕ) :
    fileSlice V inode off (m + n) = fileSlice V inode off m ++ fileSlice V inode (off + m) n := by
  simp only [fileSlice, List.range_add, List.map_append, List.map_map, Function.comp_def,
    Nat.add_assoc]

/-- What lies in one block is taken from this block. -/
theorem fileSlice_block (k off n : ℕ) (h : off + n ≤ 512) :
    fileSlice V inode (512 * k + off) n = blockBytes (V (inodeBlock .big inode k)) off n := by
  refine List.map_congr_left fun m hm => ?_
  have hm := List.mem_range.1 hm
  unfold fileByte
  rw [show (512 * k + off + m) / 512 = k by omega, show (512 * k + off + m) % 512 = off + m by omega]

end

/-- A slice depends on the blocks it lies in. -/
theorem fileSlice_congr {V V' : Volume} {inode : Block} {off n : ℕ}
    (h : ∀ k, 512 * k < off + n → V' (inodeBlock .big inode k) = V (inodeBlock .big inode k)) :
    fileSlice V' inode off n = fileSlice V inode off n := by
  refine List.map_congr_left fun m hm => ?_
  have hm := List.mem_range.1 hm
  unfold fileByte
  rw [h _ (by omega)]

/-! ## Reading -/

/-- The loop of `tfs_read` appends the rest of the slice. -/
theorem run_readLoop (e : Endian) (tfs : TfsVolume) (inode : Block) (w : Option ℕ) (d : ℕ → Block)
    {off bufsize : ℕ} (b2 : ℕ) (hall : ∀ k : ℕ, 512 * k < off + bufsize → Allocated inode k)
    (hlast : 512 * b2 < off + bufsize ∧ off + bufsize ≤ 512 * b2 + 512) (n : ℕ) :
    ∀ (b1 read : ℕ) (buffer : List UInt8), b1 + n = b2 + 1 → (n = 0 → read = bufsize) →
      (0 < n → off + read = 512 * b1) →
      (readLoop e tfs inode bufsize b2 n b1 read buffer).run w d
        = (.ok (bufsize, buffer ++ fileSlice (tfs.view d) inode (off + read) (bufsize - read)), d) := by
  induction n with
  | zero =>
      intro b1 read buffer _ hdone _
      rw [hdone rfl, Nat.sub_self, fileSlice_zero, List.append_nil]
      rfl
  | succ n ih =>
      intro b1 read buffer hcount _ hat
      have hpos := hat (Nat.succ_pos n)
      have hview : d (tfs.block (inodeBlock e inode b1)) = tfs.view d (inodeBlock .big inode b1) := by
        rw [inodeBlock_eq e .big]
        rfl
      unfold readLoop
      rw [run_blockAt_bind (hall b1 (by omega)), run_readBlock_bind, Int.toNat_natCast, hview]
      by_cases hend : b1 = b2
      · have hn : n = 0 := by omega
        have hsize : ((bufsize : ℤ) - read).toNat = bufsize - read := by omega
        have hslice := fileSlice_block (tfs.view d) inode b1 0 (bufsize - read) (by omega)
        simp only [if_pos (show (b1 : ℤ) = b2 by omega), hsize]
        have hrest := ih (b1 + 1) bufsize (buffer ++ blockBytes (tfs.view d (inodeBlock .big inode b1))
          0 (bufsize - read)) (by omega) (fun _ => rfl) (by omega)
        rw [Nat.sub_self, fileSlice_zero, List.append_nil, ← hslice] at hrest
        rw [← hslice, hpos]
        exact hrest
      · have hslice := fileSlice_block (tfs.view d) inode b1 0 512 (by omega)
        simp only [if_neg (show ¬ (b1 : ℤ) = b2 by omega), tfsBlockSize]
        have hrest := ih (b1 + 1) (read + 512) (buffer ++ blockBytes
          (tfs.view d (inodeBlock .big inode b1)) 0 512) (by omega) (by omega) (by omega)
        have hsplit : bufsize - read = 512 + (bufsize - (read + 512)) := by omega
        rw [hsplit, fileSlice_add, hpos, ← List.append_assoc]
        rw [← hslice, ← Nat.add_assoc, hpos] at hrest
        rw [← hslice]
        exact hrest

/-- The size of a file, in bytes. -/
def fileSize (inode : Block) : ℕ := (inodeFilesize .big inode).toNat

theorem natCast_fileSize {inode : Block} (h : 0 ≤ inodeFilesize .big inode) :
    (fileSize inode : ℤ) = inodeFilesize .big inode := Int.toNat_of_nonneg h

/-- What `tfs_read` and `tfs_write` compute for `m` bytes from the position `off` on: the last and the
first block, the position in the first block and the number of bytes in it, and the number of blocks
behind it. -/
theorem blockRange {off m : ℕ} (hm : 0 < m) (hmax : (off : ℤ) + m ≤ intMax) :
    (wrap32 ((off : ℤ) + m - 1)).tdiv 512 = (((off + m - 1) / 512 : ℕ) : ℤ) ∧
    (off : ℤ).tdiv 512 = ((off / 512 : ℕ) : ℤ) ∧
    (off : ℤ).tmod 512 = ((off % 512 : ℕ) : ℤ) ∧
    min (512 - ((off % 512 : ℕ) : ℤ)) (m : ℤ) = ((min (512 - off % 512) m : ℕ) : ℤ) ∧
    (((off + m - 1) / 512 : ℕ) - (off / 512 : ℕ) : ℤ).toNat = (off + m - 1) / 512 - off / 512 := by
  have hwrap : wrap32 ((off : ℤ) + m - 1) = ((off + m - 1 : ℕ) : ℤ) := by
    rw [wrap32_of_nonneg (by omega) (by omega)]
    omega
  refine ⟨?_, ?_, ?_, ?_, ?_⟩
  · rw [hwrap, Int.tdiv_eq_ediv_of_nonneg (by omega)]
    omega
  · rw [Int.tdiv_eq_ediv_of_nonneg (by omega)]
    omega
  · rw [Int.tmod_eq_emod_of_nonneg (by omega)]
    omega
  · omega
  · omega

/-- **`tfs_read` as a run.** On an inode whose block table covers its file size, a read from a position
in the file returns the bytes from there on, at most as many as the buffer takes. -/
theorem run_tfsRead (e : Endian) (tfs : TfsVolume) {fileid : ℤ} (w : Option ℕ) (d : ℕ → Block)
    (hid : 2 ≤ fileid ∧ fileid ≤ tfs.totalblocks) {inode : Block}
    (hinode : tfs.view d (BitVec.ofInt 32 fileid) = inode) (hcovers : Covers inode)
    (bufsize : ℕ) {off : ℕ} (hoff : (off : ℤ) ≤ inodeFilesize .big inode) :
    (tfsRead e tfs fileid bufsize off).run w d
      = (.ok ((min bufsize (fileSize inode - off) : ℕ),
          fileSlice (tfs.view d) inode off (min bufsize (fileSize inode - off))), d) := by
  have hnonneg : 0 ≤ inodeFilesize .big inode := by omega
  have hsize : inodeFilesize e inode = fileSize inode := by
    have hbig : inodeFilesize e inode = inodeFilesize .big inode := by simp [inodeFilesize]
    rw [hbig, natCast_fileSize hnonneg]
  have hmax := inodeFilesize_le inode
  have hfile := natCast_fileSize hnonneg
  have hblock : d (tfs.block (BitVec.ofInt 32 fileid)) = inode := hinode
  unfold tfsRead
  rw [if_neg (by omega), run_readBlock_bind, hblock]
  simp only [hsize]
  rw [if_neg (by omega)]
  have hmin : min (bufsize : ℤ) ((fileSize inode : ℤ) - off)
      = ((min bufsize (fileSize inode - off) : ℕ) : ℤ) := by omega
  rw [hmin]
  set m := min bufsize (fileSize inode - off) with hm
  by_cases hzero : m = 0
  · rw [if_pos (by omega), hzero, fileSlice_zero]
    rfl
  rw [if_neg (by omega)]
  obtain ⟨hb2, hb1, hrem, hread, hcount⟩ := @blockRange off m (by omega) (by omega)
  have hall : ∀ k : ℕ, 512 * k < off + m → Allocated inode k :=
    fun k hk => hcovers k (by omega) (by omega)
  rw [hb2, hb1, hrem, hread, run_blockAt_bind (hall (off / 512) (by omega)), run_readBlock_bind]
  set read := min (512 - off % 512) m with hreadNat
  have hview : d (tfs.block (inodeBlock e inode (off / 512)))
      = tfs.view d (inodeBlock .big inode (off / 512)) := by
    rw [inodeBlock_eq e .big]
    rfl
  have hfirst := fileSlice_block (tfs.view d) inode (off / 512) (off % 512) read (by omega)
  rw [Nat.div_add_mod] at hfirst
  have hloop := run_readLoop e tfs inode w d ((off + m - 1) / 512) hall (by omega)
    ((off + m - 1) / 512 - off / 512) (off / 512 + 1) read (fileSlice (tfs.view d) inode off read)
    (by omega) (by omega) (by omega)
  rw [← fileSlice_add, Nat.add_sub_cancel' (by omega)] at hloop
  simp only [Int.toNat_natCast, hview, ← hfirst, hcount]
  exact hloop

/-- A file number that cannot be the one of an inode is refused. -/
theorem run_tfsRead_fileid (e : Endian) (tfs : TfsVolume) {fileid : ℤ} (w : Option ℕ) (d : ℕ → Block)
    (hid : fileid < 2 ∨ (tfs.totalblocks : ℤ) < fileid) (bufsize offset : ℤ) :
    (tfsRead e tfs fileid bufsize offset).run w d = (.ok (vfsError, []), d) := by
  unfold tfsRead
  rw [if_pos hid]
  rfl

/-- A position that is not in the file is refused. -/
theorem run_tfsRead_outside (e : Endian) (tfs : TfsVolume) {fileid : ℤ} (w : Option ℕ)
    (d : ℕ → Block) {inode : Block} (hinode : tfs.view d (BitVec.ofInt 32 fileid) = inode)
    (bufsize : ℤ) {offset : ℤ} (hoff : offset < 0 ∨ inodeFilesize .big inode < offset) :
    (tfsRead e tfs fileid bufsize offset).run w d = (.ok (vfsError, []), d) := by
  have hsize : inodeFilesize e inode = inodeFilesize .big inode := by simp [inodeFilesize]
  have hblock : d (tfs.block (BitVec.ofInt 32 fileid)) = inode := hinode
  unfold tfsRead
  split
  · rfl
  · rw [run_readBlock_bind, hblock]
    simp only [hsize]
    rw [if_pos hoff]
    rfl

/-! ## Nothing is written -/

namespace TfsProc

variable {α β : Type}

/-- The operation has no `write_block`. -/
def ReadOnly : TfsProc α → Prop
  | done _ => True
  | fault _ => True
  | readBlock _ k => ∀ r, (k r).ReadOnly
  | writeBlock _ _ _ => False

theorem ReadOnly.bind {p : TfsProc α} {f : α → TfsProc β} (hp : p.ReadOnly)
    (hf : ∀ a, (f a).ReadOnly) : (p >>= f).ReadOnly := by
  show (p.bind f).ReadOnly
  induction p with
  | done a => exact hf a
  | fault x => trivial
  | readBlock n k ih => exact fun r => ih r (hp r)
  | writeBlock n b k ih => exact hp.elim

theorem ReadOnly.run_disk {p : TfsProc α} (hp : p.ReadOnly) (w : Option ℕ) (d : ℕ → Block) :
    (p.run w d).2 = d := by
  induction p with
  | done a => rfl
  | fault x => rfl
  | readBlock n k ih => exact ih _ (hp _)
  | writeBlock n b k ih => exact hp.elim

end TfsProc

theorem readOnly_readBlock (n : ℕ) : (readBlock n).ReadOnly := fun _ => trivial

theorem readOnly_blockAt (e : Endian) (tfs : TfsVolume) (inode : Block) (i : ℤ) :
    (blockAt e tfs inode i).ReadOnly := by
  unfold blockAt
  split <;> trivial

theorem readOnly_readLoop (e : Endian) (tfs : TfsVolume) (inode : Block) (bufsize b2 : ℤ) (n : ℕ)
    (b1 read : ℤ) (buffer : List UInt8) :
    (readLoop e tfs inode bufsize b2 n b1 read buffer).ReadOnly := by
  induction n generalizing b1 read buffer with
  | zero => trivial
  | succ n ih =>
      unfold readLoop
      refine (readOnly_blockAt ..).bind fun block => (readOnly_readBlock block).bind fun r => ?_
      cases r with
      | none => trivial
      | some data =>
          simp only
          split
          · exact ih ..
          · exact ih ..

/-- `tfs_read` changes no block, whatever it is called with. -/
theorem readOnly_tfsRead (e : Endian) (tfs : TfsVolume) (fileid bufsize offset : ℤ) :
    (tfsRead e tfs fileid bufsize offset).ReadOnly := by
  unfold tfsRead
  split
  · trivial
  · refine (readOnly_readBlock _).bind fun r => ?_
    cases r with
    | none => trivial
    | some inode =>
        simp only
        split
        · trivial
        · split
          · trivial
          · refine (readOnly_blockAt ..).bind fun block => (readOnly_readBlock block).bind fun r => ?_
            cases r with
            | none => trivial
            | some data => exact readOnly_readLoop ..

/-! ## How much is read -/

/-- The bytes that were put into the buffer are as many as the result says, unless it is an error. -/
def TfsProc.Delivers : TfsProc (ℤ × List UInt8) → Prop
  | done r => 0 ≤ r.1 → (r.2.length : ℤ) = r.1
  | fault _ => True
  | readBlock _ k => ∀ r, (k r).Delivers
  | writeBlock _ _ k => ∀ r, (k r).Delivers

namespace TfsProc

variable {α : Type}

theorem Delivers.run {p : TfsProc (ℤ × List UInt8)} (h : p.Delivers) {d d' : ℕ → Block} {ret : ℤ}
    {bytes : List UInt8} (hrun : p.run none d = (.ok (ret, bytes), d')) (hret : 0 ≤ ret) :
    (bytes.length : ℤ) = ret := by
  induction p generalizing d with
  | done r =>
      cases hrun
      exact h hret
  | fault x => cases hrun
  | readBlock n k ih => exact ih _ (h _) hrun
  | writeBlock n b k ih => exact ih _ (h _) hrun

/-- An operation that changes nothing comes first. -/
theorem delivers_bind {p : TfsProc α} {f : α → TfsProc (ℤ × List UInt8)} (hp : p.ReadOnly)
    (h : ∀ a, (f a).Delivers) : (p >>= f).Delivers := by
  show (p.bind f).Delivers
  induction p with
  | done a => exact h a
  | fault x => trivial
  | readBlock n k ih => exact fun r => ih r (hp r)
  | writeBlock n b k ih => exact hp.elim

end TfsProc

theorem length_blockBytes (b : Block) (off n : ℕ) : (blockBytes b off n).length = n := by
  unfold blockBytes
  rw [List.length_map, List.length_range]

/-- The loop from a block before the last one on, which all but the last are read in full. -/
theorem delivers_readLoop (e : Endian) (tfs : TfsVolume) (inode : Block) {bufsize b2 : ℤ} {n : ℕ}
    {b1 read : ℤ} {buffer : List UInt8} (hn : b1 + n = b2 + 1) (hlen : (buffer.length : ℤ) = read)
    (hread : 0 < n → read + 512 * (n - 1) ≤ bufsize) :
    (readLoop e tfs inode bufsize b2 n b1 read buffer).Delivers := by
  induction n generalizing b1 read buffer with
  | zero => exact fun _ => hlen
  | succ n ih =>
      have hle := hread (Nat.succ_pos n)
      push_cast at hn hle
      unfold readLoop
      refine TfsProc.delivers_bind (readOnly_blockAt ..) fun block => ?_
      refine TfsProc.delivers_bind (readOnly_readBlock block) fun r => ?_
      cases r with
      | none => exact fun hneg : (0 : ℤ) ≤ vfsError => absurd hneg (by decide)
      | some data =>
          simp only
          split
          · refine ih (by omega) ?_ fun hpos => by omega
            rw [List.length_append, length_blockBytes]
            push_cast
            omega
          · refine ih (by omega) ?_ fun hpos => by omega
            rw [List.length_append, length_blockBytes, Nat.cast_add, hlen]
            rfl

theorem delivers_tfsRead (tfs : TfsVolume) (fileid : ℤ) {bufsize : ℤ} (offset : ℤ)
    (hbufsize : 0 ≤ bufsize) : (tfsRead .big tfs fileid bufsize offset).Delivers := by
  unfold tfsRead
  split
  · exact fun hneg => absurd hneg (by decide)
  refine TfsProc.delivers_bind (readOnly_readBlock _) fun r => ?_
  cases r with
  | none => exact fun hneg => absurd hneg (by decide)
  | some inode =>
      simp only
      split
      · exact fun hneg => absurd hneg (by decide)
      next hoffset =>
      split
      · exact fun _ => rfl
      next hsize =>
      refine TfsProc.delivers_bind (readOnly_blockAt ..) fun block => ?_
      refine TfsProc.delivers_bind (readOnly_readBlock block) fun r => ?_
      cases r with
      | none => exact fun hneg => absurd hneg (by decide)
      | some data =>
          have hmax := inodeFilesize_le inode
          have hwrap : wrap32 (offset + min bufsize (inodeFilesize .big inode - offset) - 1)
              = offset + min bufsize (inodeFilesize .big inode - offset) - 1 :=
            wrap32_of_nonneg (by omega) (by omega)
          simp only [hwrap]
          rw [Int.tdiv_eq_ediv_of_nonneg (by omega), Int.tdiv_eq_ediv_of_nonneg (by omega),
            Int.tmod_eq_emod_of_nonneg (by omega)]
          refine delivers_readLoop .big tfs inode (by omega) ?_ fun hpos => by omega
          rw [length_blockBytes]
          omega

/-! ## Opening -/

/-- What `tfs_open` returns. -/
def openResult (V : Volume) (filename : List UInt8) : ℤ :=
  match findName (V tfsDirectoryBlock) filename with
  | some i => (dirInode V i).toInt
  | none => vfsNotFound

section

variable {V : Volume} {filename : List UInt8}

theorem openResult_of_some {i : ℕ} (h : findName (V tfsDirectoryBlock) filename = some i) :
    openResult V filename = (dirInode V i).toInt := by
  unfold openResult
  rw [h]

theorem openResult_of_none (h : findName (V tfsDirectoryBlock) filename = none) :
    openResult V filename = vfsNotFound := by
  unfold openResult
  rw [h]

end

/-- **`tfs_open` as a run.** -/
theorem run_tfsOpen (e : Endian) (tfs : TfsVolume) (filename : List UInt8) (w : Option ℕ)
    (d : ℕ → Block) :
    (tfsOpen e tfs filename).run w d = (.ok (openResult (tfs.view d) filename), d) := by
  have hentry : ∀ md i, entryInode e md i = entryInode .big md i := by simp [entryInode, rawInode]
  have hmd : d (tfs.block tfsDirectoryBlock) = tfs.view d tfsDirectoryBlock := rfl
  unfold tfsOpen
  rw [run_readBlock_bind, hmd]
  simp only [hentry]
  cases hfind : findName (tfs.view d tfsDirectoryBlock) filename with
  | none =>
      rw [openResult_of_none hfind]
      rfl
  | some i =>
      rw [openResult_of_some hfind]
      rfl

end Kudos
