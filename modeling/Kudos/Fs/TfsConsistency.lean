import Kudos.Fs.TfsInvariant

set_option autoImplicit false

/-! # The trivial filesystem keeps its volume consistent

A volume that `tfstool` made is used by calls of `tfs_create`, `tfs_remove` and `tfs_write`, in any
order and with any result, on a big-endian machine whose disk does not fail. Every volume that comes
about in this way satisfies `VolumeInvariant`, and no call fails an assertion or leaves an array. -/

namespace Kudos

open CInt Ownership Transition Words

/-- A file name: up to 15 characters and no terminator among them. -/
structure FileName where
  chars : List UInt8
  nonempty : chars ≠ []
  length_le : chars.length ≤ tfsFilenameMax - 1
  nonzero : ∀ c ∈ chars, c ≠ 0

/-! ## Create -/

/-- The writes of `tfs_create` in their order, by block numbers of the volume. -/
def createVolumeWrites (V : Volume) (filename : List UInt8) (size : ℤ) (index p : ℕ) (l : List ℕ) :
    List (BitVec 32 × Block) :=
  (tfsAllocationBlock, takeBits .big (V tfsAllocationBlock) (p :: l)) ::
    (tfsDirectoryBlock, createEntry .big (V tfsDirectoryBlock) filename index p) ::
    (BitVec.ofNat 32 p, fileInode size l) ::
    l.map (fun q => (BitVec.ofNat 32 q, Block.zero))

section

variable {total : ℕ} {V : Volume} {size : ℤ} {index p : ℕ} {l : List ℕ}

/-- Three writes make the file; the others only clear its data blocks. -/
theorem CreatePlan.created (h : CreatePlan total V size index p l) (htotal : total ≤ 4096)
    (hV : SoundVolume total V) (filename : List UInt8) (m : ℕ) :
    Created total V (volumeWrites ((createVolumeWrites V filename size index p l).take (m + 3)) V)
      filename size index p l := by
  have hrange := h.fresh_range htotal hV
  have hsys : ∀ q ∈ p :: l,
      BitVec.ofNat 32 q ≠ tfsAllocationBlock ∧ BitVec.ofNat 32 q ≠ tfsDirectoryBlock := by
    intro q hq
    have hq := hrange q hq
    have hlow : 3 ≤ (BitVec.ofNat 32 q).toNat := by
      rw [BitVec.toNat_ofNat, Nat.mod_eq_of_lt (by omega)]
      exact hq.1
    exact ⟨ofNat_ne_of_lt (m := 1) (by decide) hlow, ofNat_ne_of_lt (m := 2) (by decide) hlow⟩
  set V3 := Function.update (Function.update (Function.update V tfsAllocationBlock
    (takeBits .big (V tfsAllocationBlock) (p :: l))) tfsDirectoryBlock
    (createEntry .big (V tfsDirectoryBlock) filename index p)) (BitVec.ofNat 32 p) (fileInode size l)
    with hV3
  have hwrites : volumeWrites ((createVolumeWrites V filename size index p l).take (m + 3)) V
      = volumeWrites ((l.map (fun q => (BitVec.ofNat 32 q, Block.zero))).take m) V3 := rfl
  have hlast : ∀ n, (∀ q ∈ l, BitVec.ofNat 32 q ≠ n) →
      volumeWrites ((l.map (fun q => (BitVec.ofNat 32 q, Block.zero))).take m) V3 n = V3 n := by
    intro n hn
    refine volumeWrites_of_notMem fun nb hnb => ?_
    obtain ⟨q, hq, rfl⟩ := List.mem_map.1 (List.mem_of_mem_take hnb)
    exact hn q hq
  rw [hwrites]
  refine ⟨⟨h, ?_, ?_, ?_⟩, ?_⟩
  · rw [hlast _ (fun q hq => (hsys q (List.mem_cons_of_mem _ hq)).1), hV3,
      Function.update_of_ne (hsys p (List.mem_cons_self ..)).1.symm,
      Function.update_of_ne (by decide), Function.update_self]
  · rw [hlast _ (fun q hq => (hsys q (List.mem_cons_of_mem _ hq)).2), hV3,
      Function.update_of_ne (hsys p (List.mem_cons_self ..)).2.symm, Function.update_self]
  · intro n h1 h2 hn
    rw [← h.mem_map_ofNat htotal hV, List.map_cons, List.mem_cons, not_or] at hn
    rw [hlast n (fun q hq heq => hn.2 (heq ▸ List.mem_map_of_mem hq)), hV3,
      Function.update_of_ne hn.1, Function.update_of_ne h2, Function.update_of_ne h1]
  · have hother : ∀ q ∈ l, BitVec.ofNat 32 q ≠ BitVec.ofNat 32 p := by
      intro q hq heq
      have hnodup := h.nodup_map_ofNat htotal hV
      rw [List.map_cons, List.nodup_cons, ← heq] at hnodup
      exact hnodup.1 (List.mem_map_of_mem hq)
    rw [hlast _ hother, hV3, Function.update_self]

/-- With all of its writes. -/
theorem CreatePlan.created_all (h : CreatePlan total V size index p l) (htotal : total ≤ 4096)
    (hV : SoundVolume total V) (filename : List UInt8) :
    Created total V (volumeWrites (createVolumeWrites V filename size index p l) V) filename size
      index p l := by
  have hcreated := h.created htotal hV filename l.length
  rwa [List.take_of_length_le (by simp [createVolumeWrites])] at hcreated

end

/-- A call of `tfs_create` that gets as far as writing: the file is not too large, its name is new,
    and the directory and the volume have room for it. -/
structure CreateAccepted (total : ℕ) (V : Volume) (filename : List UInt8) (size : ℤ) : Prop where
  numblocks_le : createNumblocks size ≤ tfsBlocksMax
  entry : ∃ index, index ≠ -1 ∧
    createIndex .big (V tfsDirectoryBlock) filename (List.range tfsMaxFiles) (-1) = some index
  room : createNumblocks size + 1 ≤ (freeBits .big (V tfsAllocationBlock) total).length

/-- Otherwise it fails and writes nothing. -/
theorem tfsCreate_rejected (tfs : TfsVolume) (d : ℕ → Block) {filename : List UInt8} {size : ℤ}
    (h : ¬ CreateAccepted tfs.totalblocks (tfs.view d) filename size) (w : Option ℕ) :
    (tfsCreate .big tfs filename size).run w d = (.ok vfsError, d) := by
  rw [run_tfsCreate]
  split
  · rfl
  · next hbig =>
      split
      · rfl
      · next index hindex =>
          split
          · rfl
          · next hneg =>
              split
              · rfl
              · next hroom =>
                  exact absurd ⟨Nat.le_of_not_lt hbig, ⟨index, hneg, hindex⟩,
                    Nat.le_of_not_lt hroom⟩ h

/-- An accepted call has a plan, and writes it down. -/
theorem tfsCreate_accepted (tfs : TfsVolume) (d : ℕ → Block) {filename : List UInt8} {size : ℤ}
    (h : CreateAccepted tfs.totalblocks (tfs.view d) filename size) :
    ∃ index p l, CreatePlan tfs.totalblocks (tfs.view d) size index p l ∧
      ∀ w, (tfsCreate .big tfs filename size).run w d =
        (writeAll ((createVolumeWrites (tfs.view d) filename size index p l).map
          (fun nb => (tfs.block nb.1, nb.2)))).run w d := by
  obtain ⟨hbig, ⟨index, hneg, hindex⟩, hroom⟩ := h
  obtain ⟨hlt, hentry⟩ := createIndex_entry hindex hneg
  unfold TfsVolume.view at hindex hroom
  cases hfree : freeBits .big (d (tfs.block tfsAllocationBlock)) tfs.totalblocks with
  | nil =>
      rw [hfree, List.length_nil] at hroom
      omega
  | cons p rest =>
      rw [hfree, List.length_cons] at hroom
      have hlen : (rest.take (createNumblocks size)).length = createNumblocks size :=
        List.length_take_of_le (by omega)
      refine ⟨index.toNat, p, rest.take (createNumblocks size), ?_, fun w => ?_⟩
      · refine ⟨hlt, hentry, by omega, hlen, ?_⟩
        unfold TfsVolume.view
        rw [hfree, List.take_succ_cons]
      · have hshort : ¬ (p :: rest).length < createNumblocks size + 1 := by
          rw [List.length_cons]
          omega
        rw [run_tfsCreate, if_neg (Nat.not_lt.2 hbig), hindex, hfree]
        simp only [hneg, if_false, hshort, createWrites, createVolumeWrites, List.headD_cons,
          entryInode_createEntry hlt, List.take_succ_cons, List.tail_cons, List.map_cons,
          List.map_map, List.cons_append, List.nil_append]
        rfl

/-- Either way it returns. -/
theorem tfsCreate_outcome (tfs : TfsVolume) {d : ℕ → Block}
    (hV : SoundVolume tfs.totalblocks (tfs.view d)) (filename : List UInt8) (size : ℤ) :
    (tfsCreate .big tfs filename size).run none d = (.ok vfsError, d) ∨
      ∃ d' index p l, (tfsCreate .big tfs filename size).run none d = (.ok vfsOk, d') ∧
        Created tfs.totalblocks (tfs.view d) (tfs.view d') filename size index p l := by
  by_cases haccepted : CreateAccepted tfs.totalblocks (tfs.view d) filename size
  · obtain ⟨index, p, l, hplan, hrun⟩ := tfsCreate_accepted tfs d haccepted
    refine Or.inr ⟨_, index, p, l, (hrun none).trans (run_writeAll_none ..), ?_⟩
    rw [view_applyWrites]
    exact hplan.created_all tfs.totalblocks_le hV filename
  · exact Or.inl (tfsCreate_rejected tfs d haccepted none)

/-! ## Remove -/

/-- The writes of `tfs_remove` in their order, by block numbers of the volume. -/
def removeVolumeWrites (V : Volume) (index : ℕ) : List (BitVec 32 × Block) :=
  [(tfsAllocationBlock,
      clearBits .big (V tfsAllocationBlock) ((fileBlocks V index).map BitVec.toNat)),
    (tfsDirectoryBlock, removeEntry .big (V tfsDirectoryBlock) index)]

theorem Live.removed {V : Volume} {index : ℕ} (h : Live V index) :
    Removed V (volumeWrites (removeVolumeWrites V index) V) index where
  live := h
  bitmap := rfl
  directory := rfl
  other n h1 h2 := volumeWrites_of_notMem (by
    simp only [removeVolumeWrites, List.mem_cons, List.not_mem_nil, or_false]
    rintro nb (rfl | rfl)
    · exact h1.symm
    · exact h2.symm)

/-- Free entries have no name, so a search for a name finds a file. -/
theorem SoundVolume.live_of_findName {total : ℕ} {V : Volume} (hV : SoundVolume total V)
    {name : FileName} {i : ℕ} (h : findName (V tfsDirectoryBlock) name.chars = some i) :
    Live V i := by
  unfold findName at h
  rw [List.find?_range_eq_some] at h
  obtain ⟨heq, hlt, -⟩ := h
  have hlt := List.mem_range.1 hlt
  refine ⟨hlt, fun hzero => ?_⟩
  have hname := hV.free_name i hlt hzero
  cases hchars : name.chars with
  | nil => exact name.nonempty hchars
  | cons c s =>
      have hc : c ≠ 0 := name.nonzero c (by rw [hchars]; exact List.mem_cons_self ..)
      rw [hchars] at heq
      simp only [stringEq, hc, if_false, hname, Bool.and_eq_true, decide_eq_true_eq] at heq
      exact hc heq.1.symm

/-- On a sound volume, `tfs_remove` finds nothing or a file, whose blocks it frees. -/
theorem tfsRemove_outcome (tfs : TfsVolume) {d : ℕ → Block}
    (hV : SoundVolume tfs.totalblocks (tfs.view d)) (name : FileName) :
    (findName (tfs.view d tfsDirectoryBlock) name.chars = none ∧
        ∀ w, (tfsRemove .big tfs name.chars).run w d = (.ok vfsNotFound, d)) ∨
      ∃ index, findName (tfs.view d tfsDirectoryBlock) name.chars = some index ∧
        Live (tfs.view d) index ∧ ∀ w, (tfsRemove .big tfs name.chars).run w d =
          (writeAll ((removeVolumeWrites (tfs.view d) index).map
            (fun nb => (tfs.block nb.1, nb.2)))).run w d := by
  have htotal := tfs.totalblocks_le
  cases hfind : findName (d (tfs.block tfsDirectoryBlock)) name.chars with
  | none =>
      refine Or.inl ⟨hfind, fun w => ?_⟩
      rw [run_tfsRemove, hfind]
  | some index =>
      have hlive : Live (tfs.view d) index := hV.live_of_findName hfind
      have hlist : entryInode .big (d (tfs.block tfsDirectoryBlock)) index :: listedBlocks
          (d (tfs.block (entryInode .big (d (tfs.block tfsDirectoryBlock)) index))) 0 tfsBlocksMax
          = fileBlocks (tfs.view d) index := by
        rw [fileBlocks_of_live hlive, ← hV.listedBlocks_eq hlive]
        rfl
      refine Or.inr ⟨index, hfind, hlive, fun w => ?_⟩
      rw [run_tfsRemove, hfind]
      simp only
      rw [hlist, freeList_ok .big _ (fun v hv => by
        have := hV.range index v hv
        simp only [tfsBlockSize] at htotal
        omega)]
      rfl

/-! ## Write -/

/-- `tfs_write` through a complete inode returns, and changes only blocks in its table. -/
theorem tfsWrite_frame_inode (tfs : TfsVolume) {d : ℕ → Block} {inode : BitVec 32}
    (hcovers : Covers (tfs.view d inode)) (data : ℕ → UInt8) {datasize : ℤ} (hdata : 0 ≤ datasize)
    (offset : ℤ) :
    ∃ r d', (tfsWrite .big tfs inode.toInt data datasize offset).run none d = (.ok r, d') ∧
      ∀ b, (∀ n ∈ blockList (tfs.view d inode), b ≠ tfs.block n) → d' b = d b := by
  have hfile : d (tfs.block (BitVec.ofInt 32 inode.toInt)) = tfs.view d inode := by
    rw [BitVec.ofInt_toInt]
    rfl
  have hcovers : Covers (d (tfs.block (BitVec.ofInt 32 inode.toInt))) := by rwa [hfile]
  obtain ⟨r, d', hrun, honly⟩ := run_tfsWrite .big tfs _ data offset d hdata hcovers
  rw [hfile] at honly
  exact ⟨r, d', hrun, fun b hb => honly b fun k hk hne => hb _ (mem_blockList.2 ⟨⟨k, hk, rfl⟩, hne⟩)⟩

/-- `tfs_write` to a file changes only data blocks of this file. -/
theorem tfsWrite_frame (tfs : TfsVolume) {d : ℕ → Block}
    (hV : SoundVolume tfs.totalblocks (tfs.view d)) {i : ℕ} (hi : Live (tfs.view d) i)
    (data : ℕ → UInt8) {datasize : ℤ} (hdata : 0 ≤ datasize) (offset : ℤ) :
    ∃ r d', (tfsWrite .big tfs (dirInode (tfs.view d) i).toInt data datasize offset).run none d
        = (.ok r, d') ∧
      ∀ b, (∀ n ∈ blockList (tfs.view d (dirInode (tfs.view d) i)), b ≠ tfs.block n) → d' b = d b :=
  tfsWrite_frame_inode tfs (hV.covers hi) data hdata offset

section

variable {total : ℕ} {V V' : Volume} {i : ℕ}

/-- A change to data blocks of one file leaves the structures of the volume alone. -/
theorem SoundVolume.unchanged (hV : SoundVolume total V) (hi : Live V i)
    (hkeep : ∀ n, n ∉ blockList (V (dirInode V i)) → V' n = V n) :
    V' tfsAllocationBlock = V tfsAllocationBlock ∧ V' tfsDirectoryBlock = V tfsDirectoryBlock ∧
      ∀ j, Live V j → V' (dirInode V j) = V (dirInode V j) := by
  have hown := fileBlocks_of_live hi
  have hdatablock : ∀ n ∈ blockList (V (dirInode V i)), n ∈ fileBlocks V i := by
    intro n hn
    rw [hown]
    exact List.mem_cons_of_mem _ hn
  refine ⟨?_, ?_, fun j hj => ?_⟩
  · exact hkeep _ fun hn => (hV.ne_system (hdatablock _ hn)).1 rfl
  · exact hkeep _ fun hn => (hV.ne_system (hdatablock _ hn)).2 rfl
  · refine hkeep _ fun hn => ?_
    obtain rfl : j = i := hV.owner_unique (dirInode_mem_fileBlocks hj) (hdatablock _ hn)
    have hnodup := hV.nodup j
    rw [hown] at hnodup
    exact (List.nodup_cons.1 hnodup).1 hn

end

/-- `tfs_write` to a file returns and keeps the volume consistent. -/
theorem tfsWrite_invariant (tfs : TfsVolume) {d : ℕ → Block}
    (hV : VolumeInvariant tfs.totalblocks (tfs.view d)) {i : ℕ} (hi : Live (tfs.view d) i)
    (data : ℕ → UInt8) {datasize : ℤ} (hdata : 0 ≤ datasize) (offset : ℤ) :
    ∃ r d', (tfsWrite .big tfs (dirInode (tfs.view d) i).toInt data datasize offset).run none d
        = (.ok r, d') ∧ VolumeInvariant tfs.totalblocks (tfs.view d') := by
  obtain ⟨r, d', hrun, hframe⟩ := tfsWrite_frame tfs hV.sound hi data hdata offset
  have hkeep : ∀ n, n ∉ blockList (tfs.view d (dirInode (tfs.view d) i)) →
      tfs.view d' n = tfs.view d n :=
    fun n hn => hframe _ fun m hm heq => hn (tfs.block_injective heq ▸ hm)
  obtain ⟨hbat, hmd, hinode⟩ := hV.sound.unchanged hi hkeep
  exact ⟨r, d', hrun, hV.congr hbat hmd hinode⟩

/-! ## Runs -/

/-- A call of the filesystem. -/
inductive TfsOp
  | create (name : FileName) (size : ℤ)
  | remove (name : FileName)
  | write (fileid : ℤ) (data : ℕ → UInt8) (datasize offset : ℤ)

/-- What callers keep to: sizes are `int`s that are not negative, and a file that is written to is one
    that the directory has. -/
def TfsOp.Allowed (V : Volume) : TfsOp → Prop
  | create _ size => 0 ≤ size ∧ size ≤ intMax
  | remove _ => True
  | write fileid _ datasize _ => 0 ≤ datasize ∧ ∃ i, Live V i ∧ fileid = (dirInode V i).toInt

/-- The call on a big-endian machine. -/
def TfsOp.proc (tfs : TfsVolume) : TfsOp → TfsProc ℤ
  | create name size => tfsCreate .big tfs name.chars size
  | remove name => tfsRemove .big tfs name.chars
  | write fileid data datasize offset => tfsWrite .big tfs fileid data datasize offset

/-- A call that is made, with whatever result. -/
def TfsStep (tfs : TfsVolume) (d : ℕ → Block) (op : TfsOp) (d' : ℕ → Block) : Prop :=
  op.Allowed (tfs.view d) ∧ d' = ((op.proc tfs).run none d).2

/-- A volume of `n` blocks at the start of its disk, as `tfs_init` mounts it. -/
def diskVolume (n : ℕ) : TfsVolume where
  startblock := 0
  totalblocks := min n (8 * tfsBlockSize)
  totalblocks_le := Nat.min_le_right ..

/-- The disks that calls of the filesystem lead to, from a volume of `n` blocks that `tfstool` made. -/
def TfsReachable (n : ℕ) (d : ℕ → Block) : Prop :=
  Reach (fun d => ∃ volname, d = tfstoolCreatevol volname) (TfsStep (diskVolume n)) d

/-- An empty directory block has no files. -/
theorem dirInode_of_zero {V : Volume} (h : V tfsDirectoryBlock = .zero) (i : ℕ) : dirInode V i = 0 := by
  have hzero : Block.zero.word (5 * i) = ⟨0, 0, 0, 0⟩ := by simp [Block.word, Block.zero]
  unfold dirInode entryInode rawInode
  rw [h, hzero]
  rfl

theorem volumeInvariant_tfstoolCreatevol (volname : ℕ → UInt8) (n : ℕ) :
    VolumeInvariant n ((diskVolume n).view (tfstoolCreatevol volname)) := by
  set V := (diskVolume n).view (tfstoolCreatevol volname) with hV
  have hbat : V tfsAllocationBlock
      = setBit .big (setBit .big (setBit .big .zero 0 true) 1 true) 2 true := rfl
  have hmd : V tfsDirectoryBlock = .zero := rfl
  have hzero : ∀ k, Block.zero.word k = ⟨0, 0, 0, 0⟩ := fun k => by simp [Block.word, Block.zero]
  have hdir := dirInode_of_zero hmd
  have hblocks : ∀ i, fileBlocks V i = [] := fun i => fileBlocks_of_not_live fun h => h.2 (hdir i)
  have hmarked : ∀ p, isMarked V p = decide (p < 3) := by
    intro p
    have hempty : bitmapGet .big Block.zero p = false := by simp [bitmapGet, hzero, Word.load, Word.toBE]
    unfold isMarked
    rw [hbat, bitmapGet_setBit .big _ (by decide), bitmapGet_setBit .big _ (by decide),
      bitmapGet_setBit .big _ (by decide), hempty]
    by_cases hp : p < 3
    · have hcases : p = 0 ∨ p = 1 ∨ p = 2 := by omega
      rcases hcases with rfl | rfl | rfl <;> rfl
    · simp [hp, show p ≠ 0 by omega, show p ≠ 1 by omega, show p ≠ 2 by omega]
  refine ⟨?_, ?_, ?_, ?_, ?_⟩
  · intro p hp
    rw [hmarked, decide_eq_true hp]
  · intro i hi
    exact absurd (hdir i) hi.2
  · intro i b hb
    rw [hblocks] at hb
    cases hb
  · refine ⟨fun i => ?_, fun i j _ b hb => ?_, fun b => ?_⟩
    · rw [hblocks]
      exact List.nodup_nil
    · rw [hblocks] at hb
      cases hb
    · constructor
      · rintro ⟨hlow, -, hmark⟩
        rw [hmarked, decide_eq_true_eq] at hmark
        omega
      · rintro ⟨i, hi⟩
        rw [hblocks] at hi
        cases hi
  · intro i _ _
    unfold Block.byte
    rw [hmd, hzero]
    have : nameOffset i % 4 < 4 := Nat.mod_lt _ (by decide)
    interval_cases nameOffset i % 4 <;> rfl

/-- **One call.** It returns a result, and it keeps the volume consistent. -/
theorem tfsOp_invariant (tfs : TfsVolume) {d : ℕ → Block}
    (hV : VolumeInvariant tfs.totalblocks (tfs.view d)) {op : TfsOp} (hop : op.Allowed (tfs.view d)) :
    ∃ r d', (op.proc tfs).run none d = (.ok r, d') ∧
      VolumeInvariant tfs.totalblocks (tfs.view d') := by
  have htotal := tfs.totalblocks_le
  cases op with
  | create name size =>
      rcases tfsCreate_outcome tfs hV.sound name.chars size with hrun | ⟨d', index, p, l, hrun, hcreated⟩
      · exact ⟨_, d, hrun, hV⟩
      · exact ⟨_, d', hrun, hcreated.invariant htotal hV hop⟩
  | remove name =>
      rcases tfsRemove_outcome tfs hV.sound name with ⟨-, hrun⟩ | ⟨index, -, hlive, hrun⟩
      · exact ⟨_, d, hrun none, hV⟩
      · refine ⟨_, _, (hrun none).trans (run_writeAll_none ..), ?_⟩
        rw [view_applyWrites]
        exact hlive.removed.invariant htotal hV
  | write fileid data datasize offset =>
      obtain ⟨hdata, i, hi, rfl⟩ := hop
      exact tfsWrite_invariant tfs hV hi data hdata offset

/-- Every volume in use satisfies the invariant. -/
theorem TfsReachable.invariant {n : ℕ} {d : ℕ → Block} (h : TfsReachable n d) :
    VolumeInvariant (diskVolume n).totalblocks ((diskVolume n).view d) := by
  refine Reach.invariant (I := fun d => VolumeInvariant (diskVolume n).totalblocks
    ((diskVolume n).view d)) ?_ ?_ h
  · rintro d ⟨volname, rfl⟩
    exact volumeInvariant_tfstoolCreatevol volname _
  · rintro d op d' hV ⟨hop, rfl⟩
    obtain ⟨r, d', hrun, hV'⟩ := tfsOp_invariant (diskVolume n) hV hop
    rw [hrun]
    exact hV'

/-- A volume of `total` blocks whose allocation block, directory and inodes agree. -/
structure ConsistentVolume (total : ℕ) (V : Volume) : Prop where
  system : ∀ b < 3, isMarked V b = true
  range : ∀ i, Live V i → ∀ b,
    b = dirInode V i ∨ (b ≠ 0 ∧ ∃ k < tfsBlocksMax, inodeBlock .big (V (dirInode V i)) k = b) →
      3 ≤ b.toNat ∧ b.toNat < total
  /-- The inodes and data blocks of all files are different blocks. -/
  distinct : ((List.range tfsMaxFiles).flatMap (fileBlocks V)).Nodup
  /-- No leak and no cross-link. -/
  marked_iff : ∀ b, 3 ≤ b → b < total →
    (isMarked V b = true ↔ ∃! i, Live V i ∧ BitVec.ofNat 32 b ∈ fileBlocks V i)
  /-- An inode lists as many blocks as its file needs, followed only by zeros. -/
  table : ∀ i, Live V i → 0 ≤ inodeFilesize .big (V (dirInode V i)) ∧
    blocksFor (inodeFilesize .big (V (dirInode V i))) ≤ tfsBlocksMax ∧
    ∀ k < tfsBlocksMax, inodeBlock .big (V (dirInode V i)) k ≠ 0 ↔
      (k : ℤ) < blocksFor (inodeFilesize .big (V (dirInode V i)))

theorem VolumeInvariant.consistent {total : ℕ} {V : Volume} (htotal : total ≤ 4096)
    (h : VolumeInvariant total V) : ConsistentVolume total V where
  system := h.system
  range i hi b hb := by
    refine h.range i b ?_
    rw [fileBlocks_of_live hi]
    rcases hb with rfl | ⟨hne, hlisted⟩
    · exact List.mem_cons_self ..
    · exact List.mem_cons_of_mem _ (mem_blockList.2 ⟨hlisted, hne⟩)
  distinct := h.distinct
  marked_iff b hlow hlt := by
    have hnat : (BitVec.ofNat 32 b).toNat = b := by
      rw [BitVec.toNat_ofNat, Nat.mod_eq_of_lt (by omega)]
    have hused := h.owners.used_iff (BitVec.ofNat 32 b)
    unfold InUse at hused
    rw [hnat] at hused
    constructor
    · intro hmark
      obtain ⟨i, hi⟩ := hused.1 ⟨hlow, hlt, hmark⟩
      exact ⟨i, ⟨live_of_mem_fileBlocks hi, hi⟩, fun j hj => h.owners.owner_unique hj.2 hi⟩
    · rintro ⟨i, ⟨-, hi⟩, -⟩
      exact (hused.2 ⟨i, hi⟩).2.2
  table i hi := ⟨(h.shape i hi).size_nonneg, (h.shape i hi).fits, (h.shape i hi).listed⟩

/-- **Every volume in use is consistent.** -/
theorem tfsReachable_consistent {n : ℕ} {d : ℕ → Block} (h : TfsReachable n d) :
    ConsistentVolume (min n 4096) ((diskVolume n).view d) :=
  h.invariant.consistent (Nat.min_le_right ..)

/-- The name `a`. -/
def nameA : FileName := ⟨[97], by decide, by decide, by simp⟩

/-- The disk after a file of 600 bytes was created on a volume of 16 blocks. -/
def createdDisk : ℕ → Block :=
  ((tfsCreate .big (diskVolume 16) nameA.chars 600).run none (tfstoolCreatevol fun _ => 0)).2

theorem createdDisk_reachable : TfsReachable 16 createdDisk :=
  .step (.create nameA 600) (.init ⟨fun _ => 0, rfl⟩) ⟨⟨by decide, by decide⟩, rfl⟩

theorem createdDisk_live : Live ((diskVolume 16).view createdDisk) 24 := by
  decide +kernel

/-- Create, write across a block boundary, and remove. -/
theorem tfsReachable_consistent_createWriteRemove :
    ConsistentVolume (min 16 4096) ((diskVolume 16).view
      ((tfsRemove .big (diskVolume 16) nameA.chars).run none
        ((tfsWrite .big (diskVolume 16) (dirInode ((diskVolume 16).view createdDisk) 24).toInt
          (fun _ => 7) 100 500).run none createdDisk).2).2) :=
  tfsReachable_consistent (.step (.remove nameA) (.step (.write _ (fun _ => 7) 100 500)
    createdDisk_reachable ⟨⟨by decide, 24, createdDisk_live, rfl⟩, rfl⟩) ⟨trivial, rfl⟩)

end Kudos
