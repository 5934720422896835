import Kudos.Fs.Tfs

set_option autoImplicit false

/-! # What the operations of the trivial filesystem do to a disk

`tfs_create` and `tfs_remove` read first and then write a fixed sequence of blocks, and give up at the
first write that fails. So a run of either is a rejection, which leaves the disk alone, or a prefix of
that sequence. These are stated here for both byte orders; what they mean for a volume is the subject
of `Kudos.Fs.TfsInvariant` and `Kudos.Fs.TfsByteOrder`. -/

namespace Kudos

open CInt Words

/-! ## Sequences of writes -/

section

variable {α : Type}

theorem run_readBlock_bind (n : ℕ) (k : Option Block → TfsProc α) (w : Option ℕ) (d : ℕ → Block) :
    (readBlock n >>= k).run w d = (k (some (d n))).run w d := rfl

theorem run_pure (a : α) (w : Option ℕ) (d : ℕ → Block) :
    (pure a : TfsProc α).run w d = (.ok a, d) := rfl

theorem run_ofExcept_ok_bind {β : Type} (b : β) (k : β → TfsProc α) (w : Option ℕ) (d : ℕ → Block) :
    (TfsProc.ofExcept (.ok b) >>= k).run w d = (k b).run w d := rfl

end

/-- Write the blocks in order, and give up if a write fails. -/
def writeAll : List (ℕ × Block) → TfsProc ℤ
  | [] => return vfsOk
  | nb :: ws => do
      if !(← writeBlock nb.1 nb.2) then return vfsError
      writeAll ws

/-- The disk after the writes. -/
def applyWrites (ws : List (ℕ × Block)) (disk : ℕ → Block) : ℕ → Block :=
  ws.foldl (fun d nb => Function.update d nb.1 nb.2) disk

theorem run_writeAll_none (ws : List (ℕ × Block)) (d : ℕ → Block) :
    (writeAll ws).run none d = (.ok vfsOk, applyWrites ws d) := by
  induction ws generalizing d with
  | nil => rfl
  | cons nb ws ih => exact ih _

theorem run_writeAll_some (ws : List (ℕ × Block)) (k : ℕ) (d : ℕ → Block) :
    (writeAll ws).run (some k) d =
      (.ok (if k < ws.length then vfsError else vfsOk), applyWrites (ws.take k) d) := by
  induction ws generalizing d k with
  | nil => simp [writeAll, run_pure, applyWrites]
  | cons nb ws ih =>
      cases k with
      | zero => rfl
      | succ k =>
          have hrun : (writeAll (nb :: ws)).run (some (k + 1)) d
              = (writeAll ws).run (some k) (Function.update d nb.1 nb.2) := rfl
          rw [hrun, ih]
          simp [applyWrites]

/-- The bitmap with the bits `l` set. -/
def takeBits (e : Endian) (bat : Block) (l : List ℕ) : Block :=
  l.foldl (fun b p => setBit e b p true) bat

theorem bitmapGet_takeBits (e : Endian) (bat : Block) {l : List ℕ} (hl : ∀ p ∈ l, p < 4096) (q : ℕ) :
    bitmapGet e (takeBits e bat l) q = (bitmapGet e bat q || decide (q ∈ l)) := by
  induction l generalizing bat with
  | nil => simp [takeBits]
  | cons p l ih =>
      have hrest := ih (setBit e bat p true) (fun x hx => hl x (List.mem_cons_of_mem _ hx))
      have hfold : takeBits e bat (p :: l) = takeBits e (setBit e bat p true) l := rfl
      rw [hfold, hrest, bitmapGet_setBit e bat (hl p (List.mem_cons_self ..))]
      by_cases hq : q = p
      · simp [hq]
      · simp [hq]

/-- The block table of an inode with the block numbers `l` from entry `i` on. -/
def fillBlocks (inode : Block) (i : ℕ) (l : List ℕ) : Block := fun k =>
  if 1 + i ≤ k.val then
    match l[k.val - (1 + i)]? with
    | some p => .ofBE (BitVec.ofNat 32 p)
    | none => inode k
  else inode k

theorem fillBlocks_nil (inode : Block) (i : ℕ) : fillBlocks inode i [] = inode := by
  funext k
  simp [fillBlocks]

theorem fillBlocks_cons (inode : Block) {i : ℕ} (p : ℕ) (l : List ℕ) :
    fillBlocks (inode.setWord (1 + i) (.ofBE (BitVec.ofNat 32 p))) (i + 1) l
      = fillBlocks inode i (p :: l) := by
  funext k
  unfold fillBlocks Block.setWord
  by_cases hk : k.val = 1 + i
  · simp [hk]
  · by_cases hle : 1 + i ≤ k.val
    · have hsub : k.val - (1 + i) = k.val - (1 + (i + 1)) + 1 := by omega
      have hle' : 1 + (i + 1) ≤ k.val := by omega
      simp [hle, hle', hk, hsub]
    · have hle' : ¬ 1 + (i + 1) ≤ k.val := by omega
      simp [hle, hle', hk]

theorem toInt_ofNat_ne_neg_one {p : ℕ} (hp : p < 4096) : (BitVec.ofNat 32 p).toInt ≠ -1 := by
  have hmod : p % 2 ^ 32 = p := Nat.mod_eq_of_lt (by omega)
  rw [BitVec.toInt_eq_toNat_cond, BitVec.toNat_ofNat, hmod]
  split <;> omega

/-- The loop of `tfs_create` takes the first `n` free blocks, or fails if there are fewer. -/
theorem allocBlocks_eq (e : Endian) {total : ℕ} (htotal : total ≤ 4096) (n i : ℕ) (bat inode : Block)
    (hi : i + n ≤ tfsBlocksMax) :
    allocBlocks e total n i bat inode =
      if n ≤ (freeBits e bat total).length then
        some (takeBits e bat ((freeBits e bat total).take n),
          fillBlocks inode i ((freeBits e bat total).take n))
      else none := by
  induction n generalizing i bat inode with
  | zero => simp [allocBlocks, takeBits, fillBlocks_nil]
  | succ n ih =>
      have hword : 1 + i < 128 := by
        simp only [tfsBlocksMax] at hi
        omega
      cases hfree : freeBits e bat total with
      | nil =>
          rw [allocBlocks, bitmapFindnset_of_nil e bat hfree]
          simp [inodeBlock, hword]
      | cons p rest =>
          have hp := (freeBits_head e bat hfree).1
          have hrest := freeBits_setBit e bat htotal hfree
          have hcast : BitVec.ofInt 32 (p : ℤ) = BitVec.ofNat 32 p := rfl
          rw [allocBlocks, bitmapFindnset_of_cons e bat hfree]
          simp only [inodeBlock, Block.word_setWord_self _ hword, store_fromBigEndian32,
            fromBigEndian32_load, Word.toBE_ofBE, hcast, toInt_ofNat_ne_neg_one (by omega : p < 4096),
            if_false]
          rw [ih (i + 1) _ _ (by omega), hrest, fillBlocks_cons]
          simp [takeBits]

/-! ## Create -/

theorem inodeBlock_fillBlocks (e : Endian) (inode : Block) {l : List ℕ} {k p : ℕ} (hk : k < 127)
    (hp : l[k]? = some p) : inodeBlock e (fillBlocks inode 0 l) k = BitVec.ofNat 32 p := by
  have hword : 1 + k < 128 := by omega
  have hsub : 1 + k - 1 = k := by omega
  simp [inodeBlock, Block.word, hword, fillBlocks, hsub, hp]

/-- Behind its last block the block table is what it was. -/
theorem inodeBlock_fillBlocks_none (e : Endian) (inode : Block) {l : List ℕ} {k : ℕ}
    (hp : l[k]? = none) : inodeBlock e (fillBlocks inode 0 l) k = inodeBlock e inode k := by
  have hsub : 1 + k - 1 = k := by omega
  by_cases hword : 1 + k < 128
  · simp [inodeBlock, Block.word, hword, fillBlocks, hsub, hp]
  · simp [inodeBlock, Block.word, hword]

/-- The inode of a new file with `size` bytes in the blocks `l`. -/
def fileInode (size : ℤ) (l : List ℕ) : Block :=
  fillBlocks (Block.zero.setWord 0 (.ofBE (BitVec.ofInt 32 size))) 0 l

/-- The directory after entry `index` has got a name and the block number `p`, which is stored in the
    order of the processor. -/
def createEntry (e : Endian) (md : Block) (filename : List UInt8) (index p : ℕ) : Block :=
  (stringcopy md (nameOffset index) (tfsFilenameMax - 1) filename).setWord (5 * index)
    (.store e (BitVec.ofNat 32 p))

/-- The blocks that `tfs_create` writes, if the free blocks are `free`. -/
def createWrites (e : Endian) (tfs : TfsVolume) (disk : ℕ → Block) (filename : List UInt8) (size : ℤ)
    (index : ℕ) (free : List ℕ) : List (ℕ × Block) :=
  let numblocks := createNumblocks size
  let md := createEntry e (disk (tfs.block tfsDirectoryBlock)) filename index (free.headD 0)
  [(tfs.block tfsAllocationBlock,
      takeBits e (disk (tfs.block tfsAllocationBlock)) (free.take (numblocks + 1))),
    (tfs.block tfsDirectoryBlock, md),
    (tfs.block (entryInode e md index), fileInode size (free.tail.take numblocks))] ++
  (free.tail.take numblocks).map (fun p => (tfs.block (BitVec.ofNat 32 p), Block.zero))

theorem zeroBlocks_eq_writeAll (e : Endian) (tfs : TfsVolume) (inode : Block) (l : List ℕ) (i : ℕ)
    (h : ∀ k p, l[k]? = some p → inodeBlock e inode (i + k) = BitVec.ofNat 32 p) :
    zeroBlocks e tfs inode l.length i
      = writeAll (l.map (fun p => (tfs.block (BitVec.ofNat 32 p), Block.zero))) := by
  induction l generalizing i with
  | nil => rfl
  | cons p l ih =>
      have hfirst : inodeBlock e inode i = BitVec.ofNat 32 p := h 0 p rfl
      have hrest := ih (i + 1) (fun k q hq => by
        have := h (k + 1) q (by simpa using hq)
        rwa [show i + (k + 1) = i + 1 + k by omega] at this)
      simp only [List.length_cons, List.map_cons, zeroBlocks, writeAll, hrest, hfirst]

theorem createWrite_eq_writeAll (e : Endian) (tfs : TfsVolume) (bat md inode : Block) (index : ℕ)
    (l : List ℕ) (h : ∀ k p, l[k]? = some p → inodeBlock e inode k = BitVec.ofNat 32 p) :
    createWrite e tfs bat md inode index l.length = writeAll
      ([(tfs.block tfsAllocationBlock, bat), (tfs.block tfsDirectoryBlock, md),
        (tfs.block (entryInode e md index), inode)] ++
        l.map (fun p => (tfs.block (BitVec.ofNat 32 p), Block.zero))) := by
  have hzero := zeroBlocks_eq_writeAll e tfs inode l 0 (fun k p hp => by
    rw [Nat.zero_add]
    exact h k p hp)
  unfold createWrite
  rw [hzero]
  rfl

theorem clearBlocks_fillBlocks (w : Word) (l : List ℕ) :
    clearBlocks (fillBlocks (Block.zero.setWord 0 w) 0 l) l.length
      = fillBlocks (Block.zero.setWord 0 w) 0 l := by
  funext k
  unfold clearBlocks
  split
  · next hk =>
      have hnone : l[k.val - (1 + 0)]? = none := List.getElem?_eq_none (by omega)
      have hne : k.val ≠ 0 := by omega
      simp only [fillBlocks, hnone]
      split
      · simp [Block.setWord, hne, Block.zero]
      · simp [Block.setWord, hne, Block.zero]
  · rfl

theorem toNat_ofInt_natCast (p : ℕ) : BitVec.ofInt 32 (p : ℤ) = BitVec.ofNat 32 p := rfl

/-- What the loop over the directory finds: no entry with the name, and a free entry, if any. -/
theorem createIndex_some {e : Endian} {md : Block} {filename : List UInt8} {l : List ℕ} {idx r : ℤ}
    (h : createIndex e md filename l idx = some r) :
    (∀ i ∈ l, stringEq md (nameOffset i) filename = false) ∧
      (r = idx ∨ ∃ i ∈ l, r = i ∧ entryInode e md i = 0) := by
  induction l generalizing idx with
  | nil =>
      cases h
      exact ⟨nofun, Or.inl rfl⟩
  | cons i l ih =>
      unfold createIndex at h
      split at h
      · cases h
      · next hname =>
          obtain ⟨hnames, hr⟩ := ih h
          refine ⟨fun j hj => ?_, ?_⟩
          · rcases List.mem_cons.1 hj with rfl | hj
            · simpa using hname
            · exact hnames j hj
          · rcases hr with hr | ⟨j, hj, hr⟩
            · split at hr
              · next hfree => exact Or.inr ⟨i, List.mem_cons_self .., hr, hfree⟩
              · exact Or.inl hr
            · exact Or.inr ⟨j, List.mem_cons_of_mem _ hj, hr⟩

/-- The entry for a new file is in the directory, and free. -/
theorem createIndex_entry {e : Endian} {md : Block} {filename : List UInt8} {index : ℤ}
    (h : createIndex e md filename (List.range tfsMaxFiles) (-1) = some index) (hne : index ≠ -1) :
    index.toNat < tfsMaxFiles ∧ entryInode e md index.toNat = 0 := by
  rcases (createIndex_some h).2 with hr | ⟨i, hi, rfl, hfree⟩
  · exact absurd hr hne
  · exact ⟨List.mem_range.1 hi, hfree⟩

theorem entryInode_setWord (e : Endian) (md : Block) {i : ℕ} (hi : 5 * i < 128) (v : BitVec 32) :
    entryInode e (md.setWord (5 * i) (.store e v)) i = fromBigEndian32 e v := by
  unfold entryInode rawInode
  rw [Block.word_setWord_self _ hi, Word.load_store]

theorem toInt_eq_neg_one_iff (v : BitVec 32) : v.toInt = -1 ↔ v = -1#32 := by
  constructor
  · intro h
    apply BitVec.eq_of_toInt_eq
    rw [h]
    rfl
  · rintro rfl
    rfl

/-- -1 is the same number in both byte orders, and no other number is. -/
theorem fromBigEndian32_eq_neg_one_iff (e : Endian) (v : BitVec 32) :
    (fromBigEndian32 e v).toInt = -1 ↔ v.toInt = -1 := by
  rw [toInt_eq_neg_one_iff, toInt_eq_neg_one_iff]
  cases e with
  | big => rfl
  | little =>
      constructor
      · intro h
        have hswap : swap32 (swap32 v) = swap32 (-1#32) := congrArg swap32 h
        rw [swap32_swap32] at hswap
        rw [hswap]
        decide
      · rintro rfl
        decide

/-- The blocks that `tfs_create` writes, from the directory and the allocation block that it has read. -/
def createBlocks (e : Endian) (tfs : TfsVolume) (md bat : Block) (filename : List UInt8) (size : ℤ)
    (index : ℕ) (free : List ℕ) : List (ℕ × Block) :=
  let numblocks := createNumblocks size
  let md := createEntry e md filename index (free.headD 0)
  [(tfs.block tfsAllocationBlock, takeBits e bat (free.take (numblocks + 1))),
    (tfs.block tfsDirectoryBlock, md),
    (tfs.block (entryInode e md index), fileInode size (free.tail.take numblocks))] ++
  (free.tail.take numblocks).map (fun p => (tfs.block (BitVec.ofNat 32 p), Block.zero))

/-- The part of `tfs_create` behind the directory. -/
def createRest (e : Endian) (tfs : TfsVolume) (filename : List UInt8) (size : ℤ) (md : Block) :
    TfsProc ℤ :=
  match createIndex e md filename (List.range tfsMaxFiles) (-1) with
  | none => return vfsError
  | some index =>
      if index = -1 then return vfsError
      else do
        let some bat ← readBlock (tfs.block tfsAllocationBlock) | return vfsError
        if (freeBits e bat tfs.totalblocks).length < createNumblocks size + 1 then return vfsError
        else writeAll (createBlocks e tfs md bat filename size index.toNat
          (freeBits e bat tfs.totalblocks))

/-- **`tfs_create` reads two blocks and then writes a fixed sequence, or gives up.** It gives up for a
file that is too large, a name that exists, a full directory or too few free blocks. -/
theorem tfsCreate_eq (e : Endian) (tfs : TfsVolume) (filename : List UInt8) (size : ℤ) :
    tfsCreate e tfs filename size =
      if tfsBlocksMax < createNumblocks size then return vfsError
      else (do
        let some md ← readBlock (tfs.block tfsDirectoryBlock) | return vfsError
        createRest e tfs filename size md) := by
  unfold tfsCreate
  by_cases hbig : tfsBlocksMax < createNumblocks size
  · simp only [hbig, if_true]
  simp only [hbig, if_false]
  refine congrArg (readBlock _ >>= ·) (funext fun r => ?_)
  cases r with
  | none => rfl
  | some md =>
      simp only [createRest]
      cases hindex : createIndex e md filename (List.range tfsMaxFiles) (-1) with
      | none => rfl
      | some index =>
          by_cases hneg : index = -1
          · simp only [hneg, if_true]
          simp only [hneg, if_false]
          refine congrArg (readBlock _ >>= ·) (funext fun r => ?_)
          cases r with
          | none => rfl
          | some bat =>
              have htotal := tfs.totalblocks_le
              obtain ⟨hlt, -⟩ := createIndex_entry hindex hneg
              have hword : 5 * index.toNat < 128 := by
                simp only [tfsMaxFiles] at hlt
                omega
              have hnb : 0 + createNumblocks size ≤ tfsBlocksMax := by omega
              simp only
              cases hfree : freeBits e bat tfs.totalblocks with
              | nil =>
                  rw [bitmapFindnset_of_nil e bat hfree]
                  have hminus : (entryInode e ((stringcopy md (nameOffset index.toNat)
                      (tfsFilenameMax - 1) filename).setWord (5 * index.toNat)
                      (.store e (BitVec.ofInt 32 (-1)))) index.toNat).toInt = -1 := by
                    rw [entryInode_setWord e _ hword, fromBigEndian32_eq_neg_one_iff]
                    rfl
                  simp only [hminus, if_true, List.length_nil, Nat.zero_lt_succ]
              | cons p rest =>
                  rw [bitmapFindnset_of_cons e bat hfree]
                  have hp := (freeBits_head e bat hfree).1
                  have hp4 : p < 4096 := by
                    simp only [tfsBlockSize] at htotal
                    omega
                  have hfound : ¬ (entryInode e ((stringcopy md (nameOffset index.toNat)
                      (tfsFilenameMax - 1) filename).setWord (5 * index.toNat)
                      (.store e (BitVec.ofNat 32 p))) index.toNat).toInt = -1 := by
                    rw [entryInode_setWord e _ hword, fromBigEndian32_eq_neg_one_iff]
                    exact toInt_ofNat_ne_neg_one hp4
                  have hrest := freeBits_setBit e bat htotal hfree
                  simp only [toNat_ofInt_natCast, hfound, if_false, store_fromBigEndian32]
                  rw [allocBlocks_eq e htotal _ _ _ _ hnb, hrest]
                  by_cases hroom : createNumblocks size ≤ rest.length
                  · have hlen : (rest.take (createNumblocks size)).length = createNumblocks size :=
                      List.length_take_of_le hroom
                    have hclear := clearBlocks_fillBlocks (.ofBE (BitVec.ofInt 32 size))
                      (rest.take (createNumblocks size))
                    have hwrite := createWrite_eq_writeAll e tfs
                      (takeBits e (setBit e bat p true) (rest.take (createNumblocks size)))
                      (createEntry e md filename index.toNat p)
                      (fileInode size (rest.take (createNumblocks size))) index.toNat
                      (rest.take (createNumblocks size))
                      (fun k q hq => inodeBlock_fillBlocks e _ (by
                        have := (List.getElem?_eq_some_iff.1 hq).1
                        simp only [tfsBlocksMax] at hnb
                        omega) hq)
                    rw [hlen] at hclear hwrite
                    have hnot : ¬ (p :: rest).length < createNumblocks size + 1 := by
                      simp only [List.length_cons]
                      omega
                    simp only [hroom, if_true, hclear, hnot, if_false]
                    exact hwrite
                  · have hshort : (p :: rest).length < createNumblocks size + 1 := by
                      simp only [List.length_cons]
                      omega
                    simp only [hroom, if_false, hshort, if_true]

/-- **`tfs_create` as a run.** -/
theorem run_tfsCreate (e : Endian) (tfs : TfsVolume) (filename : List UInt8) (size : ℤ)
    (w : Option ℕ) (d : ℕ → Block) :
    (tfsCreate e tfs filename size).run w d =
      if tfsBlocksMax < createNumblocks size then (.ok vfsError, d)
      else
        match createIndex e (d (tfs.block tfsDirectoryBlock)) filename (List.range tfsMaxFiles) (-1)
        with
        | none => (.ok vfsError, d)
        | some index =>
            if index = -1 then (.ok vfsError, d)
            else if (freeBits e (d (tfs.block tfsAllocationBlock)) tfs.totalblocks).length
                < createNumblocks size + 1 then (.ok vfsError, d)
            else (writeAll (createWrites e tfs d filename size index.toNat
              (freeBits e (d (tfs.block tfsAllocationBlock)) tfs.totalblocks))).run w d := by
  rw [tfsCreate_eq]
  by_cases hbig : tfsBlocksMax < createNumblocks size
  · simp only [hbig, if_true, run_pure]
  simp only [hbig, if_false, run_readBlock_bind, createRest]
  cases createIndex e (d (tfs.block tfsDirectoryBlock)) filename (List.range tfsMaxFiles) (-1) with
  | none => rfl
  | some index =>
      by_cases hneg : index = -1
      · simp only [hneg, if_true, run_pure]
      simp only [hneg, if_false, run_readBlock_bind]
      by_cases hshort : (freeBits e (d (tfs.block tfsAllocationBlock)) tfs.totalblocks).length
          < createNumblocks size + 1
      · simp only [hshort, if_true, run_pure]
      · simp only [hshort, if_false]
        rfl

/-! ## Remove -/

/-- The bitmap with the bits `l` cleared. -/
def clearBits (e : Endian) (bat : Block) (l : List ℕ) : Block :=
  l.foldl (fun b p => setBit e b p false) bat

theorem bitmapGet_clearBits (e : Endian) (bat : Block) {l : List ℕ} (hl : ∀ p ∈ l, p < 4096) (q : ℕ) :
    bitmapGet e (clearBits e bat l) q = (bitmapGet e bat q && !decide (q ∈ l)) := by
  induction l generalizing bat with
  | nil => simp [clearBits]
  | cons p l ih =>
      have hrest := ih (setBit e bat p false) (fun x hx => hl x (List.mem_cons_of_mem _ hx))
      have hfold : clearBits e bat (p :: l) = clearBits e (setBit e bat p false) l := rfl
      rw [hfold, hrest, bitmapGet_setBit e bat (hl p (List.mem_cons_self ..))]
      by_cases hq : q = p
      · simp [hq]
      · simp [hq]

/-- Free the blocks of a list in order. -/
def freeList (e : Endian) (bat : Block) (l : List (BitVec 32)) : Except KernelFault Block :=
  l.foldlM (bitmapSet e · · false) bat

/-- The block numbers of a block table, up to the first zero. -/
def listedBlocks (inode : Block) (i n : ℕ) : List (BitVec 32) :=
  ((List.range' i n).map (inodeBlock .big inode)).takeWhile (· ≠ 0)

/-- Block numbers read the same on every processor. -/
theorem inodeBlock_eq (e e' : Endian) (inode : Block) (i : ℕ) :
    inodeBlock e inode i = inodeBlock e' inode i := by
  simp [inodeBlock]

theorem listedBlocks_succ (inode : Block) (i n : ℕ) :
    listedBlocks inode i (n + 1) = if inodeBlock .big inode i ≠ 0
      then inodeBlock .big inode i :: listedBlocks inode (i + 1) n else [] := by
  simp only [listedBlocks, List.range'_succ, List.map_cons, List.takeWhile_cons, decide_eq_true_eq]

/-- The loop over the block table calls `free` for the listed blocks in order. -/
theorem freeBlocks_eq {m : Type → Type} [Monad m] {β : Type} (free : β → BitVec 32 → m β) (e : Endian)
    (inode : Block) (n i : ℕ) (bat : β) :
    freeBlocks free e inode n i bat = (listedBlocks inode i n).foldlM free bat := by
  induction n generalizing i bat with
  | zero => rfl
  | succ n ih =>
      rw [listedBlocks_succ, freeBlocks, inodeBlock_eq e .big]
      split
      · rw [List.foldlM_cons]
        exact congrArg _ (funext fun bat' => ih (i + 1) bat')
      · rfl

/-- Calls that fail for some numbers, and otherwise change the memory: the first failure ends them. -/
theorem foldlM_of_fault {β : Type} {free : β → BitVec 32 → Except KernelFault β}
    {fault : BitVec 32 → Option KernelFault} {clear : β → BitVec 32 → β}
    (hfree : ∀ b v, free b v = match fault v with
      | some f => .error f
      | none => .ok (clear b v)) (l : List (BitVec 32)) (b : β) :
    l.foldlM free b = match l.findSome? fault with
      | some f => .error f
      | none => .ok (l.foldl clear b) := by
  induction l generalizing b with
  | nil => rfl
  | cons v l ih =>
      rw [List.foldlM_cons, hfree, List.findSome?_cons]
      cases fault v with
      | some f => rfl
      | none => exact ih (clear b v)

theorem freeList_eq (e : Endian) (bat : Block) (l : List (BitVec 32)) :
    freeList e bat l = match l.findSome? (setFault 128) with
      | some f => .error f
      | none => .ok (clearBits e bat (l.map BitVec.toNat)) := by
  unfold freeList clearBits
  rw [List.foldl_map]
  exact foldlM_of_fault (fun b v => bitmapSet_eq e b v false) l bat

theorem bitmapSet_ok (e : Endian) (bat : Block) {v : BitVec 32} (hv : v.toNat < 4096) (b : Bool) :
    bitmapSet e bat v b = .ok (setBit e bat v.toNat b) := by
  rw [bitmapSet_eq, (setFault_eq_none (by decide)).2 hv]

theorem freeList_ok (e : Endian) (bat : Block) {l : List (BitVec 32)} (hl : ∀ v ∈ l, v.toNat < 4096) :
    freeList e bat l = .ok (clearBits e bat (l.map BitVec.toNat)) := by
  have hnone : l.findSome? (setFault 128) = none :=
    List.findSome?_eq_none_iff.2 fun v hv => (setFault_eq_none (by decide)).2 (hl v hv)
  rw [freeList_eq, hnone]

/-- A directory entry that is free again. -/
def removeEntry (e : Endian) (md : Block) (index : ℕ) : Block :=
  (md.setWord (5 * index) (.store e 0)).setByte (nameOffset index) 0

/-- **`tfs_remove` as a run.** -/
theorem run_tfsRemove (e : Endian) (tfs : TfsVolume) (filename : List UInt8) (w : Option ℕ)
    (d : ℕ → Block) :
    (tfsRemove e tfs filename).run w d =
      match findName (d (tfs.block tfsDirectoryBlock)) filename with
      | none => (.ok vfsNotFound, d)
      | some index =>
          match freeList e (d (tfs.block tfsAllocationBlock))
            (entryInode e (d (tfs.block tfsDirectoryBlock)) index :: listedBlocks
              (d (tfs.block (entryInode e (d (tfs.block tfsDirectoryBlock)) index))) 0 tfsBlocksMax)
          with
          | .error f => (.error f, d)
          | .ok bat => (writeAll [(tfs.block tfsAllocationBlock, bat),
              (tfs.block tfsDirectoryBlock,
                removeEntry e (d (tfs.block tfsDirectoryBlock)) index)]).run w d := by
  unfold tfsRemove
  simp only [run_readBlock_bind]
  cases findName (d (tfs.block tfsDirectoryBlock)) filename with
  | none => rfl
  | some index =>
      simp only [run_readBlock_bind, freeList, List.foldlM_cons]
      cases bitmapSet e (d (tfs.block tfsAllocationBlock))
        (entryInode e (d (tfs.block tfsDirectoryBlock)) index) false with
      | error f => rfl
      | ok bat =>
          simp only [run_ofExcept_ok_bind, freeBlocks_eq]
          show _ = match List.foldlM (bitmapSet e · · false) bat _ with | .error f => _ | .ok bat => _
          cases List.foldlM (bitmapSet e · · false) bat (listedBlocks
            (d (tfs.block (entryInode e (d (tfs.block tfsDirectoryBlock)) index))) 0 tfsBlocksMax) with
          | error f => rfl
          | ok bat' => rfl

/-! ## Write -/

/-- The disks agree outside of the blocks of the block table. -/
def OnlyData (tfs : TfsVolume) (inode : Block) (d d' : ℕ → Block) : Prop :=
  ∀ n, (∀ k < tfsBlocksMax, inodeBlock .big inode k ≠ 0 → n ≠ tfs.block (inodeBlock .big inode k)) →
    d' n = d n

/-- Entry `k` of the block table is a block of the file. -/
def Allocated (inode : Block) (k : ℤ) : Prop :=
  0 ≤ k ∧ k < tfsBlocksMax ∧ inodeBlock .big inode k.toNat ≠ 0

section

variable {tfs : TfsVolume} {inode : Block}

theorem OnlyData.refl (d : ℕ → Block) : OnlyData tfs inode d d := fun _ _ => rfl

theorem OnlyData.trans {d d' d'' : ℕ → Block} (h : OnlyData tfs inode d d')
    (h' : OnlyData tfs inode d' d'') : OnlyData tfs inode d d'' :=
  fun n hn => (h' n hn).trans (h n hn)

theorem OnlyData.update {k : ℤ} (hk : Allocated inode k) (e : Endian) (d : ℕ → Block) (b : Block) :
    OnlyData tfs inode d (Function.update d (tfs.block (inodeBlock e inode k.toNat)) b) := by
  intro n hn
  rw [inodeBlock_eq e .big]
  refine Function.update_of_ne (hn k.toNat ?_ hk.2.2) ..
  have := hk.1
  have := hk.2.1
  omega

theorem run_blockAt_bind {α : Type} {k : ℤ} (hk : Allocated inode k) (e : Endian)
    (f : ℕ → TfsProc α) (w : Option ℕ) (d : ℕ → Block) :
    (blockAt e tfs inode k >>= f).run w d = (f (tfs.block (inodeBlock e inode k.toNat))).run w d := by
  unfold blockAt
  rw [if_pos ⟨hk.1, hk.2.1⟩]
  rfl

theorem run_writeBlock_bind {α : Type} (n : ℕ) (b : Block) (f : Bool → TfsProc α) (d : ℕ → Block) :
    (writeBlock n b >>= f).run none d = (f true).run none (Function.update d n b) := rfl

/-- Reading a block or going on without it are alike for what is written. -/
theorem run_readPartial_bind {α : Type} (c : Prop) [Decidable c] (n : ℕ)
    (f : Option Block → TfsProc α) (d : ℕ → Block) :
    (readPartial c n >>= f).run none d = (f (some (if c then d n else .zero))).run none d := by
  unfold readPartial
  split <;> rfl

/-- The loop of `tfs_write` ends, and changes only blocks of the file. -/
theorem run_writeLoop (e : Endian) (data : ℕ → UInt8) (datasize b2 : ℤ) (n : ℕ) :
    ∀ (b1 written : ℤ) (d : ℕ → Block), (∀ k, b1 ≤ k → k < b1 + n → Allocated inode k) →
      ∃ r d', (writeLoop e tfs inode data datasize b2 n b1 written).run none d = (.ok r, d') ∧
        OnlyData tfs inode d d' := by
  induction n with
  | zero =>
      intro b1 written d _
      exact ⟨written, d, rfl, .refl d⟩
  | succ n ih =>
      intro b1 written d hall
      have hfirst : Allocated inode b1 := hall b1 (le_refl _) (by omega)
      have hrest : ∀ k, b1 + 1 ≤ k → k < b1 + 1 + n → Allocated inode k :=
        fun k hlo hhi => hall k (by omega) (by omega)
      unfold writeLoop
      rw [run_blockAt_bind hfirst]
      split
      · rw [run_readPartial_bind]
        simp only [run_writeBlock_bind, Bool.not_true, Bool.false_eq_true, if_false]
        obtain ⟨r, d', hrun, hdata⟩ := ih (b1 + 1) datasize _ hrest
        exact ⟨r, d', hrun, (OnlyData.update hfirst e d _).trans hdata⟩
      · simp only [run_writeBlock_bind, Bool.not_true, Bool.false_eq_true, if_false]
        obtain ⟨r, d', hrun, hdata⟩ := ih (b1 + 1) (written + 512) _ hrest
        exact ⟨r, d', hrun, (OnlyData.update hfirst e d _).trans hdata⟩

end

/-- The first entries of the block table are in use, as many as the file size needs. -/
def Covers (inode : Block) : Prop :=
  ∀ k : ℤ, 0 ≤ k → 512 * k < inodeFilesize .big inode → Allocated inode k

/-- The size of a file is an `int`. -/
theorem inodeFilesize_le (inode : Block) : inodeFilesize .big inode ≤ intMax := by
  unfold inodeFilesize intMax
  have := BitVec.toInt_lt (x := fromBigEndian32 .big ((inode.word 0).load .big))
  omega

/-- **`tfs_write` as a run.** On an inode whose block table covers its file size, the call ends and
    changes only blocks of the file. -/
theorem run_tfsWrite (e : Endian) (tfs : TfsVolume) (fileid : ℤ) (data : ℕ → UInt8)
    {datasize : ℤ} (offset : ℤ) (d : ℕ → Block) (hdata : 0 ≤ datasize)
    (hcovers : Covers (d (tfs.block (BitVec.ofInt 32 fileid)))) :
    ∃ r d', (tfsWrite e tfs fileid data datasize offset).run none d = (.ok r, d') ∧
      OnlyData tfs (d (tfs.block (BitVec.ofInt 32 fileid))) d d' := by
  set inode := d (tfs.block (BitVec.ofInt 32 fileid)) with hinode
  have hsize : inodeFilesize e inode = inodeFilesize .big inode := by simp [inodeFilesize]
  have hmax := inodeFilesize_le inode
  unfold tfsWrite
  by_cases hid : fileid < 2 ∨ (tfs.totalblocks : ℤ) < fileid
  · simp only [hid, if_true]
    exact ⟨_, _, rfl, .refl d⟩
  simp only [hid, if_false, run_readBlock_bind, ← hinode, hsize]
  by_cases hoff : offset < 0 ∨ inodeFilesize .big inode < offset
  · simp only [hoff, if_true]
    exact ⟨_, _, rfl, .refl d⟩
  simp only [hoff, if_false]
  by_cases hzero : min datasize (inodeFilesize .big inode - offset) = 0
  · simp only [hzero, if_true]
    exact ⟨_, _, rfl, .refl d⟩
  simp only [hzero, if_false]
  set n := min datasize (inodeFilesize .big inode - offset) with hn
  have hpos : 0 < n := by omega
  have hwrap : wrap32 (offset + n - 1) = offset + n - 1 :=
    wrap32_of_nonneg (by omega) (by omega)
  have hb1 : offset.tdiv 512 = offset / 512 := Int.tdiv_eq_ediv_of_nonneg (by omega)
  have hb2 : (offset + n - 1).tdiv 512 = (offset + n - 1) / 512 :=
    Int.tdiv_eq_ediv_of_nonneg (by omega)
  rw [hwrap, hb1, hb2]
  have hall : ∀ k, offset / 512 ≤ k → k ≤ (offset + n - 1) / 512 → Allocated inode k :=
    fun k hlo hhi => hcovers k (by omega) (by omega)
  have hfirst := hall (offset / 512) (le_refl _) (by omega)
  rw [run_blockAt_bind hfirst, run_readPartial_bind]
  simp only [run_writeBlock_bind, Bool.not_true, Bool.false_eq_true, if_false]
  obtain ⟨r, d', hrun, hrest⟩ := run_writeLoop e data n ((offset + n - 1) / 512)
    ((offset + n - 1) / 512 - offset / 512).toNat (offset / 512 + 1)
    (min (512 - offset.tmod 512) n) _ (fun k hlo hhi => hall k (by omega) (by omega))
  exact ⟨r, d', hrun, (OnlyData.update hfirst e d _).trans hrest⟩

end Kudos
