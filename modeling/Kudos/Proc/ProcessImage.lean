import Kudos.Proc.ElfFile
import Kudos.Proc.PageBytes
import Kudos.Proc.ProcessIsolation
import Kudos.Vm.TableSupply

set_option autoImplicit false

/-! # The image of a program

`setup_new_process` copies a program page by page. Every page goes to a frame of its own, which was free
and holds no page table, so the pages that were filled before keep their bytes (`Keeps`), and after the
loops the new address space has the bytes of the file, and zeros where the file has none. -/

namespace Kudos

open Radix Supply CInt

/-! ## Frames -/

/-- `n` frames can be taken one after the other. None of them is the one at 0, and each has an address
    of 64 bits. -/
def CanTakeFrames (n : ℕ) (s : PhysState) : Prop :=
  CanTake physmemAllocblock (fun addr => addr ≠ 0 ∧ addr < 2 ^ 64) n s

instance (n : ℕ) (s : PhysState) : Decidable (CanTakeFrames n s) :=
  inferInstanceAs (Decidable (CanTake _ _ _ _))

/-! ## Pages that hold bytes -/

/-- A page of the new address space `t` is in a frame that was free before the call `m0` and is not free
    now, and the frame has the given bytes. -/
structure Holds (m0 m : KernelMemory) (t va pa : BitVec 64) (bytes : ℕ → UInt8) : Prop where
  walk : walk m.vm t va = some pa
  taken : ∃ f, m0.phys.Free f ∧ ¬ m.phys.Free f ∧ f * 4096 < 2 ^ 64 ∧ pa = BitVec.ofNat 64 (f * 4096)
  bytes : ∀ k < 4096, pageByte m.vm pa k = bytes k

/-- What pages hold is kept, except for the given pages. -/
def Keeps (m0 : KernelMemory) (t : BitVec 64) (m m' : KernelMemory) (pages : List (BitVec 64)) : Prop :=
  ∀ va pa bytes, (∀ v ∈ pages, pageNumber va ≠ pageNumber v) → Holds m0 m t va pa bytes →
    Holds m0 m' t va pa bytes

/-- What pages hold is kept, except for the page `va` and for any page that is in the frame `pa`. -/
def KeepsOther (m0 : KernelMemory) (t va pa : BitVec 64) (m m' : KernelMemory) : Prop :=
  ∀ va' pa' bytes, pageNumber va' ≠ pageNumber va → pa' ≠ pa → Holds m0 m t va' pa' bytes →
    Holds m0 m' t va' pa' bytes

section

variable {m0 m m' m'' : KernelMemory} {t va pa : BitVec 64} {bytes : ℕ → UInt8}
  {pages pages' : List (BitVec 64)}

theorem Keeps.refl : Keeps m0 t m m [] := fun _ _ _ _ h => h

theorem Keeps.trans (h : Keeps m0 t m m' pages) (h' : Keeps m0 t m' m'' pages') :
    Keeps m0 t m m'' (pages ++ pages') := by
  intro va pa bytes hnot hold
  rw [List.forall_mem_append] at hnot
  exact h' va pa bytes hnot.2 (h va pa bytes hnot.1 hold)

theorem KeepsOther.trans (h : KeepsOther m0 t va pa m m') (h' : KeepsOther m0 t va pa m' m'') :
    KeepsOther m0 t va pa m m'' :=
  fun va' pa' bytes hva hpa hold => h' va' pa' bytes hva hpa (h va' pa' bytes hva hpa hold)

/-- If no page was in the frame, then only the page `va` is not kept. -/
theorem KeepsOther.keeps (h : KeepsOther m0 t va pa m m')
    (hfresh : ∀ va' pa' bytes, Holds m0 m t va' pa' bytes → pa' ≠ pa) : Keeps m0 t m m' [va] := by
  intro va' pa' bytes hnot hold
  exact h va' pa' bytes (hnot va (List.mem_singleton_self va)) (hfresh va' pa' bytes hold) hold

theorem Holds.freeFrame (h : Holds m0 m t va pa bytes) : FreeFrame m0 pa := by
  obtain ⟨f, hfree, -, -, hpa⟩ := h.taken
  exact ⟨f, hfree, hpa⟩

/-- A page is in its frame after a step that leaves the translation and the frame alone. -/
theorem Holds.step (h : Holds m0 m t va pa bytes) (hwalk : Kudos.walk m'.vm t va = Kudos.walk m.vm t va)
    (hfree : ∀ f, m'.phys.Free f → m.phys.Free f) (htables : m'.vm.tables pa = m.vm.tables pa) :
    Holds m0 m' t va pa bytes where
  walk := hwalk.trans h.walk
  taken := by
    obtain ⟨f, hf, hnot, hlt, hpa⟩ := h.taken
    exact ⟨f, hf, fun hfree' => hnot (hfree f hfree'), hlt, hpa⟩
  bytes k hk := by
    rw [← h.bytes k hk]
    unfold pageByte
    rw [htables]

/-- Bytes of the address space. -/
theorem Holds.userByte {a k : ℕ} (h : Holds m0 m t (BitVec.ofNat 64 a) pa bytes) (ha : a % 4096 = 0)
    (hfits : a + 4096 ≤ 2 ^ 64) (hk : k < 4096) :
    userByte m.vm t (BitVec.ofNat 64 (a + k)) = some (bytes k) := by
  have hnat : (BitVec.ofNat 64 (a + k)).toNat = a + k := by
    rw [BitVec.toNat_ofNat, Nat.mod_eq_of_lt (by omega)]
  have hstart : (BitVec.ofNat 64 a).toNat = a := by
    rw [BitVec.toNat_ofNat, Nat.mod_eq_of_lt (by omega)]
  have hsame : Kudos.walk m.vm t (BitVec.ofNat 64 (a + k)) = Kudos.walk m.vm t (BitVec.ofNat 64 a) := by
    refine walk_congr _ _ ?_
    unfold pageNumber
    rw [hnat, hstart]
    omega
  unfold Kudos.userByte
  rw [hsame, h.walk, hnat, Option.map_some, show (a + k) % 4096 = k by omega, h.bytes k hk]

end

/-! ## The steps of the loops -/

/-- The memory while the pages of the new address space `t` are loaded, with a supply of tables. -/
structure Setting (pool : PtPool) (m0 : KernelMemory) (live : BitVec 64 → Prop) (t : BitVec 64)
    (ways : Finset (List ℕ)) (m : KernelMemory) : Prop where
  loading : Loading pool m0 live t m.vm
  free : ∀ f, m.phys.Free f → m0.phys.Free f
  supply : TableSupply pool m.vm t ways

section

variable {pool : PtPool} {m0 m : KernelMemory} {live : BitVec 64 → Prop} {t : BitVec 64}
  {ways : Finset (List ℕ)} {va pa : BitVec 64}
  (hreserved : pool.Reserved m0)
  (hshort : ∀ way ∈ ways, way.length ≤ 3)

include hreserved

theorem FreeFrame.offPool (h : FreeFrame m0 pa) : OffPool pool pa := by
  obtain ⟨f, hf, rfl⟩ := h
  exact hreserved f hf

include hshort

/-- A frame is mapped. -/
theorem Setting.vmMap (h : Setting pool m0 live t ways m) (hpa : FreeFrame m0 pa)
    (hways : tableWays va ⊆ ways) (flags : BitVec 32) (hflags : flags.toNat < 4096) :
    ∃ vm, vmMap pool m.vm t pa va flags = .ok vm ∧ Setting pool m0 live t ways ⟨vm, m.phys⟩ ∧
      walk vm t va = some pa ∧ (∀ q, FreeFrame m0 q → vm.tables q = m.vm.tables q) ∧
      KeepsOther m0 t va pa m ⟨vm, m.phys⟩ := by
  obtain ⟨vm, hmap, hsupply⟩ :=
    h.supply.vmMap pa h.loading.tables (Or.inr rfl) hflags hshort hways
  obtain ⟨hloading, -, hwalk⟩ := h.loading.vmMap hpa hflags hmap
  have hspec := vmMap_spec h.loading.tables (Or.inr rfl) hflags hmap
  have htables : ∀ q, FreeFrame m0 q → vm.tables q = m.vm.tables q := fun q hq =>
    vmMap_tables h.loading.tables (Or.inr rfl) hflags (hq.offPool hreserved) hmap
  refine ⟨vm, hmap, ⟨hloading, h.free, hsupply⟩, hwalk, htables, ?_⟩
  intro va' pa' bytes hva _ hold
  have hother : walk vm t va' = walk m.vm t va' :=
    hspec.walk_other t (Or.inr rfl) va' fun hc => hva hc.1
  exact hold.step hother (fun _ hf => hf) (htables pa' hold.freeFrame)

/-- The page in a frame is filled from its start. -/
theorem Setting.fillStart (h : Setting pool m0 live t ways m) {old : ℕ → UInt8}
    (hold : Holds m0 m t va pa old) (bytes : List UInt8) :
    Setting pool m0 live t ways ⟨fillStart m.vm pa bytes, m.phys⟩ ∧
      Holds m0 ⟨fillStart m.vm pa bytes, m.phys⟩ t va pa (fun k => (bytes[k]?).getD (old k)) ∧
      KeepsOther m0 t va pa m ⟨fillStart m.vm pa bytes, m.phys⟩ := by
  have hpa := hold.freeFrame
  obtain ⟨hloading, hwalk⟩ := h.loading.setPage hpa hreserved fun i =>
    overlay (m.vm.tables pa i) (8 * i) 0 bytes
  have hnode : ¬ Node m.vm.pointers (fun r => live r ∨ r = t) 3 pa := fun hnode =>
    h.loading.tables.ne_of_offPool (hpa.offPool hreserved) hnode rfl
  have hsupply : TableSupply pool (Kudos.fillStart m.vm pa bytes) t ways :=
    (TableSupply.setTable_iff hnode (Or.inr rfl) hshort _).2 h.supply
  refine ⟨⟨hloading, h.free, hsupply⟩, ⟨(hwalk t (Or.inr rfl) va).trans hold.walk, hold.taken, ?_⟩, ?_⟩
  · intro k hk
    rw [pageByte_fillStart, hold.bytes k hk]
  · intro va' pa' bytes' _ hne hold'
    exact hold'.step (hwalk t (Or.inr rfl) va') (fun _ hf => hf) (tables_fillStart hne)

/-- A frame that was free is in use by no page, so a new page is mapped and zeroed without any harm. -/
theorem Setting.mapZeroedPage {n : ℕ} (h : Setting pool m0 live t ways m)
    (hframes : CanTakeFrames (n + 1) m.phys) (halign : va.toNat % 4096 = 0) (hcanonical : Canonical va)
    (hways : tableWays va ⊆ ways) :
    ∃ pa m', mapZeroedPage pool t va m = .ok (pa, m') ∧ Setting pool m0 live t ways m' ∧
      CanTakeFrames n m'.phys ∧ Holds m0 m' t va pa (fun _ => 0) ∧ KeepsOther m0 t va pa m m' ∧
      ∀ va' pa' bytes, Holds m0 m t va' pa' bytes → pa' ≠ pa := by
  obtain ⟨addr, phys, halloc, ⟨hne, hlt⟩, hrest⟩ := hframes
  obtain ⟨f, rfl, hf, hlater⟩ := physmemAllocblock_free halloc
  have hpa : FreeFrame m0 (BitVec.ofNat 64 (f * 4096)) := ⟨f, h.free f hf, rfl⟩
  have hsetting : Setting pool m0 live t ways ⟨m.vm, phys⟩ :=
    ⟨h.loading, fun g hg => h.free g (hlater g hg).1, h.supply⟩
  obtain ⟨vm, hmap, hsetting1, hwalk, -, hkeeps1⟩ :=
    hsetting.vmMap hreserved hshort hpa hways (pageUser ||| 2#32) (by decide)
  have hold1 : Holds m0 ⟨vm, phys⟩ t va (BitVec.ofNat 64 (f * 4096))
      (pageByte vm (BitVec.ofNat 64 (f * 4096))) :=
    ⟨hwalk, ⟨f, h.free f hf, fun hg => (lt_irrefl f) (hlater f hg).2, hlt, rfl⟩, fun _ _ => rfl⟩
  obtain ⟨hsetting2, hold2, hkeeps2⟩ :=
    hsetting1.fillStart hreserved hshort hold1 (List.replicate 4096 0)
  refine ⟨_, _, ?_, hsetting2, hrest, ⟨hold2.walk, hold2.taken, ?_⟩, ?_, ?_⟩
  · unfold Kudos.mapZeroedPage
    simp only [halloc, bind, Except.bind]
    rw [if_neg hne]
    simp only [hmap, writeUser_start halign hcanonical hwalk (List.length_replicate ..).le]
    rfl
  · intro k hk
    rw [hold2.bytes k hk, List.getElem?_replicate, if_pos hk]
    rfl
  · have hkeeps0 : KeepsOther m0 t va (BitVec.ofNat 64 (f * 4096)) m ⟨m.vm, phys⟩ :=
      fun _ _ _ _ _ hold => hold.step rfl (fun g hg => (hlater g hg).1) rfl
    exact hkeeps0.trans (hkeeps1.trans hkeeps2)
  · rintro va' pa' bytes hold rfl
    obtain ⟨g, -, hnot, hglt, heq⟩ := hold.taken
    have hnat := congrArg BitVec.toNat heq
    rw [BitVec.toNat_ofNat, BitVec.toNat_ofNat, Nat.mod_eq_of_lt hlt, Nat.mod_eq_of_lt hglt] at hnat
    have hfg : f = g := Nat.eq_of_mul_eq_mul_right (by decide) hnat
    exact hnot (hfg ▸ hf)

end

/-! ## Segments -/

/-- The byte of a segment that the file says. -/
def FileImage.loaded (image : FileImage) (header : LoadHeader) (k : ℕ) : UInt8 :=
  if k < header.filesz then image.byte (header.offset + k) else 0

/-- A segment in the upper half of the address space, below the page of the stack, and with all its
    positions of type `int`. -/
structure LoadHeader.Placed (image : FileImage) (header : LoadHeader) : Prop where
  aligned : header.vaddr % 4096 = 0
  upper : header.pageCount ≠ 0 → 2 ^ 64 - 2 ^ 47 ≤ header.vaddr
  below : header.pageCount ≠ 0 → header.vaddr + 4096 * header.pageCount ≤ 2 ^ 64 - 4096
  count : header.pageCount ≤ 2 ^ 19
  within : header.offset + header.filesz ≤ image.size
  position : (header.offset + header.filesz : ℤ) ≤ intMax

/-- Pages of the upper half have different numbers. -/
theorem pageNumber_ne {a b : ℕ} (ha : 2 ^ 64 - 2 ^ 47 ≤ a) (ha' : a < 2 ^ 64)
    (hb : 2 ^ 64 - 2 ^ 47 ≤ b) (hb' : b < 2 ^ 64) (hne : a / 4096 ≠ b / 4096) :
    pageNumber (BitVec.ofNat 64 a) ≠ pageNumber (BitVec.ofNat 64 b) := by
  unfold pageNumber
  rw [BitVec.toNat_ofNat, BitVec.toNat_ofNat, Nat.mod_eq_of_lt ha', Nat.mod_eq_of_lt hb']
  omega

/-- The offset of a page does not overflow. -/
theorem pageOffset_eq {i : ℕ} (hi : i < 2 ^ 19) : pageOffset i = BitVec.ofNat 64 (4096 * i) := by
  have hnat : (BitVec.ofNat 32 i * 4096).toNat = 4096 * i := by
    rw [BitVec.toNat_mul, BitVec.toNat_ofNat]
    show i % 2 ^ 32 * 4096 % 2 ^ 32 = 4096 * i
    omega
  have hmsb : (BitVec.ofNat 32 i * 4096).msb = false := by
    rw [BitVec.msb_eq_false_iff_two_mul_lt, hnat]
    omega
  unfold pageOffset
  rw [BitVec.signExtend_eq_setWidth_of_msb_false hmsb]
  refine BitVec.eq_of_toNat_eq ?_
  rw [BitVec.toNat_setWidth, BitVec.toNat_ofNat, hnat]

section

variable {image : FileImage} {header : LoadHeader} {i : ℕ}

theorem LoadHeader.segment_page (hi : i < 2 ^ 19) :
    header.segment.page i = BitVec.ofNat 64 (header.vaddr + 4096 * i) := by
  unfold Segment.page
  rw [pageOffset_eq hi, BitVec.ofNat_add]
  rfl

/-- The number of pages is that of the file. -/
theorem LoadHeader.Placed.segment_count (h : header.Placed image) :
    header.segment.count = header.pageCount := by
  have hcount := h.count
  unfold LoadHeader.pageCount at hcount ⊢
  have hpages : header.segment.pages.toNat = (header.memsz + 4095) / 4096 := by
    unfold LoadHeader.segment
    simp only [BitVec.toNat_udiv, BitVec.toNat_sub, BitVec.toNat_add, BitVec.toNat_ofNat]
    show (2 ^ 64 - 1 + (header.memsz % 2 ^ 64 + 4096) % 2 ^ 64) % 2 ^ 64 / 4096 = _
    omega
  unfold Segment.count
  rw [BitVec.toInt_eq_toNat_of_lt, BitVec.toNat_setWidth, hpages]
  · omega
  · rw [BitVec.toNat_setWidth, hpages]
    omega

/-- What is left of the bytes in the file at page `i`. -/
theorem LoadHeader.Placed.leftToRead (h : header.Placed image) (hi : i < 2 ^ 19) :
    ((header.segment.size - pageOffset i).setWidth 32).toInt = (header.filesz : ℤ) - 4096 * i := by
  have hposition := h.position
  unfold intMax at hposition
  rw [pageOffset_eq hi, BitVec.toInt_eq_toNat_cond, BitVec.toNat_setWidth, BitVec.toNat_sub]
  unfold LoadHeader.segment
  rw [BitVec.toNat_ofNat, BitVec.toNat_ofNat]
  split <;> omega

theorem LoadHeader.Placed.seekPosition (h : header.Placed image) (hi : i < 2 ^ 19)
    (hleft : 4096 * i < header.filesz) :
    ((header.segment.location + pageOffset i).setWidth 32).toInt = (header.offset + 4096 * i : ℕ) := by
  have hposition := h.position
  unfold intMax at hposition
  have hnat : ((header.segment.location + pageOffset i).setWidth 32).toNat = header.offset + 4096 * i := by
    rw [pageOffset_eq hi, BitVec.toNat_setWidth, BitVec.toNat_add]
    unfold LoadHeader.segment
    rw [BitVec.toNat_ofNat, BitVec.toNat_ofNat]
    omega
  rw [BitVec.toInt_eq_toNat_of_lt, hnat]
  rw [hnat]
  omega

/-- The part of the file that goes to page `i`. -/
def FileImage.part (image : FileImage) (header : LoadHeader) (i : ℕ) : List UInt8 :=
  image.slice (header.offset + 4096 * i) (min 4096 (header.filesz - 4096 * i))

theorem FileImage.length_part_le (image : FileImage) (header : LoadHeader) (i : ℕ) :
    (image.part header i).length ≤ 4096 := by
  unfold part
  rw [image.length_slice]
  exact Nat.min_le_left ..

/-- And then come zeros. -/
theorem FileImage.getD_part {k : ℕ} (hk : k < 4096) :
    ((image.part header i)[k]?).getD 0 = image.loaded header (4096 * i + k) := by
  unfold part loaded
  by_cases hbyte : k < min 4096 (header.filesz - 4096 * i)
  · rw [image.getElem?_slice _ hbyte, if_pos (by omega), Nat.add_assoc]
    rfl
  · rw [List.getElem?_eq_none, if_neg (by omega)]
    · rfl
    · rw [image.length_slice]
      omega

/-- The loader reads this part. -/
theorem LoadHeader.Placed.readAll {file : Executable} (h : header.Placed image)
    (hfile : file.Stores image) (hleft : 4096 * i < header.filesz) :
    file.readAll (min 4096 ((header.filesz : ℤ) - 4096 * i)) (header.offset + 4096 * i : ℕ)
      = some (image.part header i) := by
  have hwithin := h.within
  have hposition := h.position
  have hmin : min 4096 ((header.filesz : ℤ) - 4096 * i)
      = (min 4096 (header.filesz - 4096 * i) : ℕ) := by omega
  rw [hmin]
  exact hfile.readAll _ _ (by omega) (by push_cast; omega)

/-- The address of a page of a segment. -/
theorem LoadHeader.Placed.page (h : header.Placed image) (hi : i < header.pageCount) :
    i < 2 ^ 19 ∧ 2 ^ 64 - 2 ^ 47 ≤ header.vaddr + 4096 * i ∧
      header.vaddr + 4096 * i + 4096 ≤ 2 ^ 64 - 4096 ∧ (header.vaddr + 4096 * i) % 4096 = 0 := by
  have haligned := h.aligned
  have hupper := h.upper (by omega)
  have hbelow := h.below (by omega)
  have hcount := h.count
  omega

/-- The processor accepts it, and it is the start of a page. -/
theorem LoadHeader.Placed.page_address (h : header.Placed image) (hi : i < header.pageCount) :
    (header.segment.page i).toNat % 4096 = 0 ∧ Canonical (header.segment.page i) ∧
      header.segment.page i ≠ 0 := by
  obtain ⟨hsmall, hupper, hbelow, haligned⟩ := h.page hi
  have hnat : (header.segment.page i).toNat = header.vaddr + 4096 * i := by
    rw [LoadHeader.segment_page hsmall, BitVec.toNat_ofNat, Nat.mod_eq_of_lt (by omega)]
  refine ⟨hnat ▸ haligned, Or.inr (hnat ▸ hupper), fun hzero => ?_⟩
  rw [hzero] at hnat
  have hzeroNat : (0 : BitVec 64).toNat = 0 := rfl
  omega

end

/-! ## The loops -/

section

variable {pool : PtPool} {m0 m : KernelMemory} {live : BitVec 64 → Prop} {t : BitVec 64}
  {ways : Finset (List ℕ)} {file : Executable} {image : FileImage} {header : LoadHeader}
  (hreserved : pool.Reserved m0)
  (hshort : ∀ way ∈ ways, way.length ≤ 3)

include hreserved hshort

/-- A zeroed page gets what the file has for it. -/
theorem Setting.fillPage {i : ℕ} {pa : BitVec 64} (h : Setting pool m0 live t ways m)
    (hfile : file.Stores image) (hheader : header.Placed image) (hi : i < header.pageCount)
    (hold : Holds m0 m t (header.segment.page i) pa fun _ => 0) :
    ∃ vm, fillPage file header.segment t i m.vm = .ok vm ∧ Setting pool m0 live t ways ⟨vm, m.phys⟩ ∧
      Holds m0 ⟨vm, m.phys⟩ t (header.segment.page i) pa
        (fun k => image.loaded header (4096 * i + k)) ∧
      KeepsOther m0 t (header.segment.page i) pa m ⟨vm, m.phys⟩ := by
  obtain ⟨hsmall, -⟩ := hheader.page hi
  obtain ⟨haligned, hcanonical, hne⟩ := hheader.page_address hi
  by_cases hleft : 4096 * i < header.filesz
  · have hwrite := writeUser_start haligned hcanonical hold.walk (image.length_part_le header i)
    obtain ⟨hsetting, hold', hkeeps⟩ := h.fillStart hreserved hshort hold (image.part header i)
    refine ⟨_, ?_, hsetting, ⟨hold'.walk, hold'.taken, ?_⟩, hkeeps⟩
    · unfold Kudos.fillPage
      simp only [hheader.leftToRead hsmall, hheader.seekPosition hsmall hleft,
        hheader.readAll hfile hleft]
      rw [if_pos (by omega), if_neg (not_or.2 ⟨by omega, hne⟩), hwrite]
    · intro k hk
      rw [hold'.bytes k hk, FileImage.getD_part hk]
  · refine ⟨m.vm, ?_, h, ⟨hold.walk, hold.taken, ?_⟩, fun _ _ _ _ _ hold => hold⟩
    · unfold Kudos.fillPage
      simp only [hheader.leftToRead hsmall]
      rw [if_neg (by omega)]
    · intro k hk
      rw [hold.bytes k hk]
      unfold FileImage.loaded
      rw [if_neg (by omega)]

/-- **The loop over the pages of a segment.** The `rest` frames are for what comes after it. -/
theorem Setting.loadSegment {n i rest : ℕ} (readOnly : Bool) (h : Setting pool m0 live t ways m)
    (hfile : file.Stores image) (hheader : header.Placed image) (hn : i + n ≤ header.pageCount)
    (hframes : CanTakeFrames (n + rest) m.phys)
    (hways : ∀ j < header.pageCount, tableWays (header.segment.page j) ⊆ ways) :
    ∃ m', loadSegment pool file t header.segment readOnly n i m = .ok m' ∧
      Setting pool m0 live t ways m' ∧ CanTakeFrames rest m'.phys ∧
      Keeps m0 t m m' (header.segment.pagesFrom i n) ∧
      ∀ j, i ≤ j → j < i + n → ∃ pa, Holds m0 m' t (header.segment.page j) pa
        fun k => image.loaded header (4096 * j + k) := by
  induction n generalizing i m with
  | zero =>
      rw [Nat.zero_add] at hframes
      exact ⟨m, rfl, h, hframes, .refl, fun j hj hlt => absurd hj (by omega)⟩
  | succ n ih =>
      have hi : i < header.pageCount := by omega
      obtain ⟨hsmall, hupper, hbelow, -⟩ := hheader.page hi
      obtain ⟨haligned, hcanonical, -⟩ := hheader.page_address hi
      rw [Nat.succ_add] at hframes
      obtain ⟨pa, m1, hmap, hsetting1, hframes1, hold1, hkeeps1, hfresh⟩ :=
        h.mapZeroedPage hreserved hshort hframes haligned hcanonical (hways i hi)
      obtain ⟨vm2, hfill, hsetting2, hold2, hkeeps2⟩ :=
        hsetting1.fillPage hreserved hshort hfile hheader hi hold1
      -- a page of the read-only segment is mapped once more, to the same frame
      have hagain : ∃ vm3, (if readOnly then Kudos.vmMap pool vm2 t pa (header.segment.page i) pageUser
            else .ok vm2) = .ok vm3 ∧ Setting pool m0 live t ways ⟨vm3, m1.phys⟩ ∧
          Holds m0 ⟨vm3, m1.phys⟩ t (header.segment.page i) pa
            (fun k => image.loaded header (4096 * i + k)) ∧
          KeepsOther m0 t (header.segment.page i) pa ⟨vm2, m1.phys⟩ ⟨vm3, m1.phys⟩ := by
        cases readOnly with
        | false => exact ⟨vm2, rfl, hsetting2, hold2, fun _ _ _ _ _ hold => hold⟩
        | true =>
            obtain ⟨vm3, hro, hsetting3, hwalk3, htables3, hkeeps3⟩ :=
              hsetting2.vmMap hreserved hshort hold2.freeFrame (hways i hi) pageUser (by decide)
            exact ⟨vm3, hro, hsetting3, hold2.step (hwalk3.trans hold2.walk.symm) (fun _ hf => hf)
              (htables3 pa hold2.freeFrame), hkeeps3⟩
      obtain ⟨vm3, hro, hsetting3, hold3, hkeeps3⟩ := hagain
      have hkeeps : Keeps m0 t m ⟨vm3, m1.phys⟩ [header.segment.page i] :=
        (hkeeps1.trans (hkeeps2.trans hkeeps3)).keeps hfresh
      obtain ⟨m', hload, hsetting', hframes', hkeeps', hpages⟩ :=
        ih (i := i + 1) hsetting3 (by omega) hframes1
      refine ⟨m', ?_, hsetting', hframes', ?_, ?_⟩
      · unfold Kudos.loadSegment
        simp only [hmap, hfill, bind, Except.bind]
        cases readOnly with
        | false =>
            cases hro
            exact hload
        | true =>
            rw [if_pos rfl] at hro ⊢
            rw [hro]
            exact hload
      · rw [Segment.pagesFrom_succ]
        exact hkeeps.trans hkeeps'
      · intro j hj hlt
        by_cases hji : j = i
        · subst hji
          refine ⟨pa, hkeeps' _ _ _ ?_ hold3⟩
          -- the later pages are other pages
          intro v hv
          obtain ⟨j', hj', rfl⟩ := List.mem_map.1 hv
          rw [List.mem_range'_1] at hj'
          obtain ⟨hsmall', hupper', hbelow', -⟩ := hheader.page (show j' < header.pageCount by omega)
          rw [LoadHeader.segment_page hsmall, LoadHeader.segment_page hsmall']
          exact pageNumber_ne hupper (by omega) hupper' (by omega) (by omega)
        · exact hpages j (by omega) (by omega)

/-- The loop over the one page of the stack. -/
theorem Setting.loadStack {rest : ℕ} (h : Setting pool m0 live t ways m)
    (hframes : CanTakeFrames (rest + 1) m.phys) (hways : tableWays (stackPage 0) ⊆ ways) :
    ∃ m', loadStack pool t configUserlandStackSize 0 m = .ok m' ∧ Setting pool m0 live t ways m' ∧
      CanTakeFrames rest m'.phys ∧ ∃ pa, Holds m0 m' t (stackPage 0) pa fun _ => 0 := by
  obtain ⟨pa, m', hmap, hsetting, hframes', hold, -, -⟩ :=
    h.mapZeroedPage hreserved hshort hframes (stackPage_aligned 0) (by decide) hways
  refine ⟨m', ?_, hsetting, hframes', pa, hold⟩
  unfold configUserlandStackSize Kudos.loadStack
  simp only [hmap, bind, Except.bind]
  rfl

end

end Kudos
