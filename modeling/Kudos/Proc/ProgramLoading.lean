import Kudos.Proc.ProcessImage

set_option autoImplicit false

/-! # Programs are loaded as their files say

For an executable with one segment of each kind at most, and with frames and page tables for all of its
pages, `setup_new_process` gives a process whose address space has the bytes of the file. Besides what
the loader takes for granted, three things are needed that it does not make up for: the entry point is
above the addresses of the kernel, where it looks for it, the pages are at addresses that the processor
accepts, and positions in the file are of type `int`. -/

namespace Kudos

open Radix Supply CInt

/-! ## Executables -/

/-- The pages of a segment. -/
def LoadHeader.pages (header : LoadHeader) : List (BitVec 64) :=
  (List.range header.pageCount).map fun i => BitVec.ofNat 64 (header.vaddr + 4096 * i)

/-- The pages of a process: that of the stack, and those of the segments. -/
def FileImage.pages (image : FileImage) : List (BitVec 64) :=
  stackPage 0 :: image.loadHeaders.flatMap LoadHeader.pages

/-- An executable that the loader is made for. -/
structure FileImage.Loadable (image : FileImage) : Prop where
  header : image.headerSize ≤ image.size
  magic : image.num 0 4 = 0x464c457f
  executable : image.num 16 2 = etExec
  /-- The program headers are in the file and have the standard size. -/
  table : image.phoff + image.programHeaderSize * image.phnum ≤ image.size
  standard : image.phentsize = image.programHeaderSize
  segments : image.loadHeaders ≠ []
  oneWritable : (image.loadHeaders.filter (·.writable)).length ≤ 1
  oneReadOnly : (image.loadHeaders.filter (!·.writable)).length ≤ 1
  aligned : ∀ header ∈ image.loadHeaders, header.vaddr % 4096 = 0
  above : ∀ header ∈ image.loadHeaders, vmmKernelSpace.toNat < header.vaddr
  disjoint : image.loadHeaders.Pairwise fun a b => ∀ x, ¬ (a.Covers x ∧ b.Covers x)
  stack : ∀ header ∈ image.loadHeaders, ∀ x, header.Covers x →
    ¬ ((stackPage 0).toNat ≤ x ∧ x < (stackPage 0).toNat + 4096)
  filesz : ∀ header ∈ image.loadHeaders, header.filesz ≤ header.memsz
  within : ∀ header ∈ image.loadHeaders, header.offset + header.filesz ≤ image.size

/-- An executable that the loader accepts. -/
structure FileImage.Supported (image : FileImage) : Prop extends image.Loadable where
  entry : vmmKernelSpace.toNat < image.entry
  upper : ∀ header ∈ image.loadHeaders, ∀ x, header.Covers x → 2 ^ 64 - 2 ^ 47 ≤ x
  tablePosition : (image.phoff + image.programHeaderSize * image.phnum : ℤ) ≤ intMax
  position : ∀ header ∈ image.loadHeaders, (header.offset + header.filesz : ℤ) ≤ intMax

/-- There is a frame for each page, and there are page tables to map them all. -/
structure Resources (pool : PtPool) (m : KernelMemory) (image : FileImage) : Prop where
  frames : CanTakeFrames image.pages.length m.phys
  tables : CanTakeTables pool
    ((missingWays m.vm m.vm.kernelPml4 (neededWays image.pages)).card + 1) m.vm

/-- **What loading a program means.** The call succeeds, the entry point is that of the file, the pages of
    each segment have its bytes and then zeros, and the stack is zero. -/
def LoadsImage (pool : PtPool) (m : KernelMemory) (file : Executable) (image : FileImage) : Prop :=
  ∃ proc m', setupNewProcess pool (some file) m = .ok (some proc, m') ∧
    proc.entryPoint = BitVec.ofNat 64 image.entry ∧
    (∀ header ∈ image.loadHeaders, ∀ k < 4096 * header.pageCount,
      userByte m'.vm proc.pagetable (BitVec.ofNat 64 (header.vaddr + k))
        = some (image.loaded header k)) ∧
    ∀ k < 4096, userByte m'.vm proc.pagetable (stackPage 0 + BitVec.ofNat 64 k) = some 0

/-! ## Its segments -/

section

variable {image : FileImage} {header : LoadHeader}

/-- The addresses in a header are numbers of 64 bits. -/
theorem FileImage.loadHeader_vaddr_lt {p : ℕ} (h : image.loadHeader p = some header) :
    header.vaddr < 2 ^ 64 ∧ (image.use64 = false → header.vaddr < 2 ^ 32) := by
  unfold loadHeader at h
  split at h
  · split at h
    · next h64 =>
        cases h
        exact ⟨image.num_lt (p + 16) 8, fun hno => absurd (h64.symm.trans hno) (by decide)⟩
    · cases h
      have hlt : image.num (p + 8) 4 < 2 ^ 32 := image.num_lt (p + 8) 4
      exact ⟨hlt.trans (by decide), fun _ => hlt⟩
  · cases h

theorem FileImage.mem_loadHeaders (h : header ∈ image.loadHeaders) :
    header.vaddr < 2 ^ 64 ∧ (image.use64 = false → header.vaddr < 2 ^ 32) := by
  obtain ⟨p, -, hp⟩ := List.mem_filterMap.1 h
  exact image.loadHeader_vaddr_lt hp

/-- Only a 64-bit file has segments above the kernel. -/
theorem FileImage.Loadable.use64 (h : image.Loadable) : image.use64 = true := by
  by_contra hno
  obtain ⟨header, hmem⟩ := List.exists_mem_of_ne_nil _ h.segments
  have hlow := (image.mem_loadHeaders hmem).2 (Bool.not_eq_true _ ▸ hno)
  have habove : 0x00007FFFFFFFFFFF < header.vaddr := h.above header hmem
  omega

/-- The page of the stack is the last one, so segments end before it. -/
theorem FileImage.Loadable.below (h : image.Loadable) (hmem : header ∈ image.loadHeaders) :
    header.vaddr + 4096 * header.pageCount ≤ 2 ^ 64 - 4096 := by
  have hlt := (image.mem_loadHeaders hmem).1
  have haligned := h.aligned header hmem
  by_contra hover
  have hcovers : header.Covers (2 ^ 64 - 4096) := by
    unfold LoadHeader.Covers
    omega
  exact h.stack header hmem _ hcovers (by decide)

theorem LoadHeader.covers_page {i : ℕ} (hi : i < header.pageCount) :
    header.Covers (header.vaddr + 4096 * i) := by
  unfold LoadHeader.Covers
  omega

/-- The tables for the pages of a segment are not more than there are, so it is not large. -/
theorem FileImage.Supported.count {pool : PtPool} {m : KernelMemory} {spaces : List (BitVec 64)}
    (h : image.Supported) (hm : MemoryInvariant pool m spaces) (hres : Resources pool m image)
    (hmem : header ∈ image.loadHeaders) : header.pageCount ≤ 2 ^ 19 := by
  by_cases hsome : header.pageCount = 0
  · omega
  · have hbelow := h.below hmem
    have hupper := h.upper header hmem _ (LoadHeader.covers_page (Nat.pos_of_ne_zero hsome))
    have hpages : ∀ i < header.pageCount,
        BitVec.ofNat 64 (header.vaddr + 4096 * i) ∈ image.pages := by
      intro i hi
      refine List.mem_cons_of_mem _ (List.mem_flatMap.2 ⟨header, hmem, ?_⟩)
      exact List.mem_map.2 ⟨i, List.mem_range.2 hi, rfl⟩
    have hle := le_card_neededWays (h.aligned header hmem) (by omega) (by omega) hpages
    have htables := card_neededWays_le hm.tables.tables (CanTake.mono hres.tables (Nat.le_succ _))
    unfold vmPtpSize at htables
    omega

theorem FileImage.Supported.placed {pool : PtPool} {m : KernelMemory} {spaces : List (BitVec 64)}
    (h : image.Supported) (hm : MemoryInvariant pool m spaces) (hres : Resources pool m image)
    (hmem : header ∈ image.loadHeaders) : header.Placed image where
  aligned := h.aligned header hmem
  upper hsome := h.upper header hmem _ (LoadHeader.covers_page (Nat.pos_of_ne_zero hsome))
  below _ := h.below hmem
  count := h.count hm hres hmem
  within := h.within header hmem
  position := h.position header hmem

/-- The only header of a kind is the one that is found. -/
theorem find?_of_mem {kind : LoadHeader → Bool} {l : List LoadHeader} (hmem : header ∈ l)
    (hkind : kind header = true) (hone : (l.filter kind).length ≤ 1) : l.find? kind = some header := by
  cases hfind : l.find? kind with
  | none => exact absurd hkind (List.find?_eq_none.1 hfind header hmem)
  | some found =>
      have hfound : found ∈ l.filter kind :=
        List.mem_filter.2 ⟨List.mem_of_find?_eq_some hfind, List.find?_some hfind⟩
      have hheader : header ∈ l.filter kind := List.mem_filter.2 ⟨hmem, hkind⟩
      obtain ⟨only, honly⟩ :=
        List.length_eq_one_iff.1 (le_antisymm hone (List.length_pos_of_mem hheader))
      rw [honly, List.mem_singleton] at hfound hheader
      rw [hfound, hheader]

/-- The pages of the segments that are loaded are among those of all segments. -/
theorem pageCount_find?_le (l : List LoadHeader) :
    (l.find? (!·.writable)).elim 0 LoadHeader.pageCount
      + (l.find? (·.writable)).elim 0 LoadHeader.pageCount ≤ (l.flatMap LoadHeader.pages).length := by
  induction l with
  | nil => simp
  | cons header l ih =>
      have hlen : header.pages.length = header.pageCount := by
        unfold LoadHeader.pages
        rw [List.length_map, List.length_range]
      rw [List.flatMap_cons, List.length_append, hlen, List.find?_cons, List.find?_cons]
      cases header.writable with
      | true =>
          simp only [Bool.not_true, Option.elim_some]
          omega
      | false =>
          simp only [Bool.not_false, Option.elim_some]
          omega

end

/-! ## The whole call -/

section

variable {pool : PtPool} {m0 m : KernelMemory} {live : BitVec 64 → Prop} {t : BitVec 64}
  {ways : Finset (List ℕ)} {file : Executable} {image : FileImage}

/-- The loop for a kind of segment, of which there may be none. -/
theorem Setting.loadKind {kind : Option LoadHeader} {rest : ℕ} (readOnly : Bool)
    (h : Setting pool m0 live t ways m)
    (hreserved : pool.Reserved m0) (hshort : ∀ way ∈ ways, way.length ≤ 3) (hfile : file.Stores image)
    (hkind : ∀ header ∈ kind, header.Placed image ∧ ∀ v ∈ header.pages, tableWays v ⊆ ways)
    (hframes : CanTakeFrames (kind.elim 0 LoadHeader.pageCount + rest) m.phys) :
    ∃ m', Kudos.loadSegment pool file t (segmentOr ⟨0, 0, 0, 0⟩ kind) readOnly
        (segmentOr ⟨0, 0, 0, 0⟩ kind).count 0 m = .ok m' ∧
      Setting pool m0 live t ways m' ∧ CanTakeFrames rest m'.phys ∧
      Keeps m0 t m m' (kind.elim [] LoadHeader.pages) ∧
      ∀ header ∈ kind, ∀ j < header.pageCount, ∃ pa,
        Holds m0 m' t (BitVec.ofNat 64 (header.vaddr + 4096 * j)) pa
          fun k => image.loaded header (4096 * j + k) := by
  cases kind with
  | none =>
      refine ⟨m, rfl, h, ?_, .refl, fun header hmem => by cases hmem⟩
      exact CanTake.mono hframes (Nat.le_add_left ..)
  | some header =>
      obtain ⟨hplaced, hways⟩ := hkind header rfl
      have hpage : ∀ j < header.pageCount,
          header.segment.page j = BitVec.ofNat 64 (header.vaddr + 4096 * j) :=
        fun j hj => LoadHeader.segment_page (lt_of_lt_of_le hj hplaced.count)
      have hpages : header.segment.pagesFrom 0 header.pageCount = header.pages := by
        unfold Segment.pagesFrom LoadHeader.pages
        rw [← List.range_eq_range']
        exact List.map_congr_left fun j hj => hpage j (List.mem_range.1 hj)
      have hwaysPage : ∀ j < header.pageCount, tableWays (header.segment.page j) ⊆ ways := by
        intro j hj
        rw [hpage j hj]
        exact hways _ (List.mem_map.2 ⟨j, List.mem_range.2 hj, rfl⟩)
      obtain ⟨m', hload, hsetting, hrest, hkeeps, hholds⟩ :=
        h.loadSegment hreserved hshort readOnly hfile hplaced (Nat.zero_add _).le hframes hwaysPage
      rw [hpages] at hkeeps
      refine ⟨m', ?_, hsetting, hrest, hkeeps, ?_⟩
      · show Kudos.loadSegment pool file t header.segment readOnly header.segment.count 0 m = .ok m'
        rw [hplaced.segment_count]
        exact hload
      · rintro header' ⟨⟩ j hj
        rw [← hpage j hj]
        exact hholds j (Nat.zero_le j) (by omega)

/-- Pages of two segments are different. -/
theorem FileImage.Supported.page_ne (himage : image.Supported) {a b : LoadHeader}
    (ha : a ∈ image.loadHeaders) (hb : b ∈ image.loadHeaders) (hne : a.writable ≠ b.writable) {i j : ℕ}
    (hi : i < a.pageCount) (hj : j < b.pageCount) :
    pageNumber (BitVec.ofNat 64 (a.vaddr + 4096 * i))
      ≠ pageNumber (BitVec.ofNat 64 (b.vaddr + 4096 * j)) := by
  have hsymm : Std.Symm fun a b : LoadHeader => ∀ x, ¬ (a.Covers x ∧ b.Covers x) :=
    ⟨fun _ _ h x hx => h x hx.symm⟩
  have hdisjoint := himage.disjoint.forall ha hb fun hab => hne (congrArg LoadHeader.writable hab)
  have hia := LoadHeader.covers_page hi
  have hjb := LoadHeader.covers_page hj
  have halow := himage.below ha
  have hblow := himage.below hb
  have haligned := himage.aligned a ha
  have haligned' := himage.aligned b hb
  refine pageNumber_ne (himage.upper a ha _ hia) (by omega) (himage.upper b hb _ hjb) (by omega) ?_
  intro heq
  have hsame : a.vaddr + 4096 * i = b.vaddr + 4096 * j := by omega
  exact hdisjoint _ ⟨hia, hsame ▸ hjb⟩

/-- The page of the stack is none of a segment. -/
theorem FileImage.Supported.stack_ne (himage : image.Supported) {a : LoadHeader}
    (ha : a ∈ image.loadHeaders) {i : ℕ} (hi : i < a.pageCount) :
    pageNumber (stackPage 0) ≠ pageNumber (BitVec.ofNat 64 (a.vaddr + 4096 * i)) := by
  have hlow := himage.below ha
  have hstack : stackPage 0 = BitVec.ofNat 64 (2 ^ 64 - 4096) := by decide
  rw [hstack]
  exact pageNumber_ne (by decide) (by decide) (himage.upper a ha _ (LoadHeader.covers_page hi)) (by omega)
    (by omega)

/-- The loader accepts the file, and finds what it says. -/
theorem FileImage.Supported.parse (himage : image.Supported) (hfile : file.Stores image) :
    ∃ r elf, elfParseHeader file = .ok (r, elf) ∧ elf.entryPoint = BitVec.ofNat 64 image.entry ∧
      ¬ elf.entryPoint ≤ vmmKernelSpace ∧
      elf.rw = segmentOr ⟨0, 0, 0, 0⟩ (image.loadHeaders.find? (·.writable)) ∧
      elf.ro = segmentOr ⟨0, 0, 0, 0⟩ (image.loadHeaders.find? (!·.writable)) := by
  have h64 := himage.use64
  have hheader := himage.header
  have htable := himage.table
  have hposition := himage.tablePosition
  have hsizes : image.headerSize = 64 ∧ image.programHeaderSize = 56 := by
    unfold FileImage.headerSize FileImage.programHeaderSize
    rw [h64]
    exact ⟨rfl, rfl⟩
  rw [hsizes.1] at hheader
  rw [hsizes.2] at htable hposition
  obtain ⟨r, elf, hparse, hentry, hrw, hro⟩ := elfParseHeader_image hfile h64 hheader himage.magic
    himage.executable himage.segments htable hposition himage.oneWritable himage.oneReadOnly
  refine ⟨r, elf, hparse, hentry, ?_, hrw, hro⟩
  have habove := himage.entry
  have hlt : image.entry < 2 ^ 64 := by
    unfold FileImage.entry
    rw [h64]
    exact image.num_lt 24 8
  rw [hentry, BitVec.le_def, BitVec.toNat_ofNat, Nat.mod_eq_of_lt hlt]
  omega

/-- There are frames for the pages of both kinds of segments and for the stack. -/
theorem Resources.frames_kinds (hres : Resources pool m image) :
    CanTakeFrames ((image.loadHeaders.find? (!·.writable)).elim 0 LoadHeader.pageCount
      + ((image.loadHeaders.find? (·.writable)).elim 0 LoadHeader.pageCount + 0) + 1) m.phys := by
  refine CanTake.mono hres.frames ?_
  have hle := pageCount_find?_le image.loadHeaders
  unfold FileImage.pages
  rw [List.length_cons]
  omega

/-- A page is none of those of a segment that is found. -/
theorem pageNumber_ne_found {va : BitVec 64} {kind : LoadHeader → Bool}
    (hne : ∀ header ∈ image.loadHeaders, kind header = true → ∀ j < header.pageCount,
      pageNumber va ≠ pageNumber (BitVec.ofNat 64 (header.vaddr + 4096 * j))) :
    ∀ v ∈ (image.loadHeaders.find? kind).elim [] LoadHeader.pages, pageNumber va ≠ pageNumber v := by
  intro v hv
  cases hfound : image.loadHeaders.find? kind with
  | none =>
      rw [hfound] at hv
      cases hv
  | some header =>
      rw [hfound] at hv
      obtain ⟨j, hj, rfl⟩ := List.mem_map.1 hv
      exact hne header (List.mem_of_find?_eq_some hfound) (List.find?_some hfound) j (List.mem_range.1 hj)

/-- **The three loops.** In the end the pages of the stack and of all segments hold what they should. -/
theorem Setting.loadPages {spaces : List (BitVec 64)} {vm : VmState}
    (h : Setting pool m live t (neededWays image.pages) ⟨vm, m.phys⟩)
    (hm : MemoryInvariant pool m spaces) (hfile : file.Stores image) (himage : image.Supported)
    (hres : Resources pool m image) {ro rw : Segment}
    (hro : ro = segmentOr ⟨0, 0, 0, 0⟩ (image.loadHeaders.find? (!·.writable)))
    (hrw : rw = segmentOr ⟨0, 0, 0, 0⟩ (image.loadHeaders.find? (·.writable))) :
    ∃ m1 m2 m3, Kudos.loadStack pool t configUserlandStackSize 0 ⟨vm, m.phys⟩ = .ok m1 ∧
      Kudos.loadSegment pool file t ro true ro.count 0 m1 = .ok m2 ∧
      Kudos.loadSegment pool file t rw false rw.count 0 m2 = .ok m3 ∧
      (∃ pa, Holds m m3 t (stackPage 0) pa fun _ => 0) ∧
      ∀ header ∈ image.loadHeaders, ∀ j < header.pageCount, ∃ pa,
        Holds m m3 t (BitVec.ofNat 64 (header.vaddr + 4096 * j)) pa
          fun k => image.loaded header (4096 * j + k) := by
  have hshort : ∀ way ∈ neededWays image.pages, way.length ≤ 3 :=
    fun way hway => (length_of_mem_neededWays hway).2
  have hkind : ∀ kind : LoadHeader → Bool, ∀ header ∈ image.loadHeaders.find? kind,
      header.Placed image ∧ ∀ v ∈ header.pages, tableWays v ⊆ neededWays image.pages := by
    intro kind header hfound
    have hmem := List.mem_of_find?_eq_some hfound
    refine ⟨himage.placed hm hres hmem, fun v hv => tableWays_subset ?_⟩
    exact List.mem_cons_of_mem _ (List.mem_flatMap.2 ⟨header, hmem, hv⟩)
  obtain ⟨m1, hload1, hsetting1, hframes1, pa, hstack⟩ :=
    h.loadStack hm.reserved hshort hres.frames_kinds (tableWays_subset (List.mem_cons_self ..))
  obtain ⟨m2, hload2, hsetting2, hframes2, hkeeps2, hholds2⟩ :=
    hsetting1.loadKind true hm.reserved hshort hfile (hkind _) hframes1
  obtain ⟨m3, hload3, -, -, hkeeps3, hholds3⟩ :=
    hsetting2.loadKind false hm.reserved hshort hfile (hkind _) hframes2
  rw [← hro] at hload2
  rw [← hrw] at hload3
  refine ⟨m1, m2, m3, hload1, hload2, hload3, ⟨pa, ?_⟩, ?_⟩
  · -- no page of a segment is that of the stack
    have hother : ∀ kind : LoadHeader → Bool, ∀ header ∈ image.loadHeaders, kind header = true →
        ∀ j < header.pageCount, pageNumber (stackPage 0)
          ≠ pageNumber (BitVec.ofNat 64 (header.vaddr + 4096 * j)) :=
      fun kind header hmem _ j hj => himage.stack_ne hmem hj
    exact hkeeps3 _ _ _ (pageNumber_ne_found (hother _))
      (hkeeps2 _ _ _ (pageNumber_ne_found (hother _)) hstack)
  · intro header hmem j hj
    cases hwritable : header.writable with
    | true => exact hholds3 header (find?_of_mem hmem hwritable himage.oneWritable) j hj
    | false =>
        -- the pages of the read-only segment are there before those of the other
        obtain ⟨pa, hold⟩ :=
          hholds2 header (find?_of_mem hmem (by rw [hwritable]; rfl) himage.oneReadOnly) j hj
        refine ⟨pa, hkeeps3 _ _ _ (pageNumber_ne_found ?_) hold⟩
        intro other hother hkind' j' hj'
        refine himage.page_ne hmem hother ?_ hj hj'
        rw [hwritable, hkind']
        decide

/-- **Programs are loaded as their files say.** -/
theorem setupNewProcess_loadsImage {spaces : List (BitVec 64)} (hm : MemoryInvariant pool m spaces)
    (hfile : file.Stores image) (himage : image.Supported) (hres : Resources pool m image) :
    LoadsImage pool m file image := by
  obtain ⟨r, elf, hparse, hentry, habove, hrw, hro⟩ := himage.parse hfile
  obtain ⟨t, vm, hcreate, hsupply⟩ := vmCreatePagetable_supply hm.tables.tables hres.tables
  have hsetting : Setting pool m (VmSystem.Live ⟨m.vm, spaces⟩) t (neededWays image.pages)
      ⟨vm, m.phys⟩ :=
    ⟨(vmCreatePagetable_spec hm.tables.tables hcreate).loading, fun _ hf => hf, hsupply⟩
  obtain ⟨m1, m2, m3, hload1, hload2, hload3, ⟨paStack, hstack⟩, hpages⟩ :=
    hsetting.loadPages hm hfile himage hres hro hrw
  refine ⟨⟨elf.entryPoint, userlandStackTop, t⟩, m3, ?_, hentry, ?_, ?_⟩
  · unfold setupNewProcess
    simp only [hparse, if_neg habove, hcreate, hload1, hload2, hload3, bind, Except.bind]
    rfl
  · intro header hmem k hk
    have hbelow := himage.below hmem
    have haligned := himage.aligned header hmem
    obtain ⟨pa, hold⟩ := hpages header hmem (k / 4096) (by omega)
    have hbyte := hold.userByte (k := k % 4096) (by omega) (by omega) (Nat.mod_lt k (by decide))
    rw [Nat.add_assoc, Nat.div_add_mod] at hbyte
    exact hbyte
  · intro k hk
    have hstart : stackPage 0 = BitVec.ofNat 64 (2 ^ 64 - 4096) := by decide
    rw [hstart] at hstack ⊢
    rw [← BitVec.ofNat_add]
    exact hstack.userByte (by decide) (by decide) hk

end

/-! ## Programs -/

/-- A 64-bit executable with one writable segment, and with zeros after the bytes that are given. -/
def programFile (size entry offset vaddr filesz memsz : ℕ) : FileImage where
  size := size
  byte k :=
    ([0x7f, 0x45, 0x4c, 0x46, 2, 1, 1, 0, 0, 0, 0, 0, 0, 0, 0, 0] ++ leBytes 2 2 ++ leBytes 62 2 ++
      leBytes 1 4 ++ leBytes entry 8 ++ leBytes 64 8 ++ leBytes 0 8 ++ leBytes 0 4 ++
      leBytes 64 2 ++ leBytes 56 2 ++ leBytes 1 2 ++ leBytes 0 6 ++
      leBytes 1 4 ++ leBytes 2 4 ++ leBytes offset 8 ++ leBytes vaddr 8 ++ leBytes vaddr 8 ++
      leBytes filesz 8 ++ leBytes memsz 8 ++ leBytes 4096 8 ++ [1, 2, 3, 4, 5, 6, 7, 8]).getD k 0

/-- What has to be checked for a file with one segment. -/
theorem FileImage.loadable_of_single {image : FileImage} {header : LoadHeader}
    (hlist : image.loadHeaders = [header])
    (hfile : image.headerSize ≤ image.size ∧ image.num 0 4 = 0x464c457f ∧ image.num 16 2 = etExec ∧
      image.phoff + image.programHeaderSize * image.phnum ≤ image.size ∧
      image.phentsize = image.programHeaderSize)
    (hheader : header.vaddr % 4096 = 0 ∧ vmmKernelSpace.toNat < header.vaddr ∧
      header.vaddr + 4096 * header.pageCount ≤ (stackPage 0).toNat ∧ header.filesz ≤ header.memsz ∧
      header.offset + header.filesz ≤ image.size) : image.Loadable := by
  obtain ⟨hsize, hmagic, htype, htable, hstandard⟩ := hfile
  obtain ⟨haligned, habove, hbelow, hfilesz, hwithin⟩ := hheader
  refine ⟨hsize, hmagic, htype, htable, hstandard, ?_, ?_, ?_, ?_, ?_, ?_, ?_, ?_, ?_⟩
  · simp [hlist]
  · rw [hlist]
    exact List.length_filter_le ..
  · rw [hlist]
    exact List.length_filter_le ..
  · simpa [hlist] using haligned
  · simpa [hlist] using habove
  · simp [hlist]
  · rw [hlist, List.forall_mem_singleton]
    intro x hx hstack
    unfold LoadHeader.Covers at hx
    omega
  · simpa [hlist] using hfilesz
  · simpa [hlist] using hwithin

/-- A program with three pages, the first of which and a part of the second are in the file. -/
def sampleProgram : FileImage := programFile 4220 0xFFFF800000000000 120 0xFFFF800000000000 4100 8200

/-- The entry point is at 0. -/
def lowEntryProgram : FileImage := programFile 128 0 120 0xFFFF800000000000 8 4096

/-- The segment is above the kernel, but the processor has no such addresses. -/
def holeProgram : FileImage := programFile 128 0xFFFF800000000000 120 0x0000800000000000 8 4096

/-- The bytes of the segment are beyond the positions of type `int`. -/
def farProgram : FileImage := programFile (2 ^ 31 + 8) 0xFFFF800000000000 (2 ^ 31) 0xFFFF800000000000 8 4096

theorem sampleProgram_headers :
    sampleProgram.loadHeaders = [⟨true, 120, 0xFFFF800000000000, 4100, 8200⟩] := by
  decide +kernel

theorem lowEntryProgram_headers :
    lowEntryProgram.loadHeaders = [⟨true, 120, 0xFFFF800000000000, 8, 4096⟩] := by
  decide +kernel

theorem holeProgram_headers :
    holeProgram.loadHeaders = [⟨true, 120, 0x0000800000000000, 8, 4096⟩] := by
  decide +kernel

theorem farProgram_headers :
    farProgram.loadHeaders = [⟨true, 2 ^ 31, 0xFFFF800000000000, 8, 4096⟩] := by
  decide +kernel

theorem sampleProgram_supported : sampleProgram.Supported where
  toLoadable := FileImage.loadable_of_single sampleProgram_headers (by decide +kernel) (by decide +kernel)
  entry := by decide +kernel
  upper := by
    rw [sampleProgram_headers, List.forall_mem_singleton]
    intro x hx
    exact hx.1
  tablePosition := by decide +kernel
  position := by
    rw [sampleProgram_headers, List.forall_mem_singleton]
    decide

theorem sampleProgram_resources : Resources samplePool sampleMemory sampleProgram where
  frames := by decide +kernel
  tables := by decide +kernel

theorem setupNewProcess_loadsImage_sampleProgram :
    LoadsImage samplePool sampleMemory sampleProgram.file sampleProgram :=
  setupNewProcess_loadsImage sampleMemory_invariant sampleProgram.file_stores sampleProgram_supported
    sampleProgram_resources

/-- A call that does not give a process has not loaded one. -/
theorem not_loadsImage {pool : PtPool} {m : KernelMemory} {file : Executable} {image : FileImage}
    (h : (setupNewProcess pool (some file) m).toOption.bind (fun r => r.1.map NewProcess.entryPoint)
      = none) : ¬ LoadsImage pool m file image := by
  rintro ⟨proc, m', hok, -⟩
  rw [hok] at h
  cases h

theorem loadable_not_loadsImage :
    (lowEntryProgram.Loadable ∧ Resources samplePool sampleMemory lowEntryProgram ∧
      ¬ LoadsImage samplePool sampleMemory lowEntryProgram.file lowEntryProgram) ∧
    (holeProgram.Loadable ∧ Resources samplePool sampleMemory holeProgram ∧
      ¬ LoadsImage samplePool sampleMemory holeProgram.file holeProgram) ∧
    (farProgram.Loadable ∧ Resources samplePool sampleMemory farProgram ∧
      ¬ LoadsImage samplePool sampleMemory farProgram.file farProgram) := by
  refine ⟨⟨?_, ⟨by decide +kernel, by decide +kernel⟩, ?_⟩,
    ⟨?_, ⟨by decide +kernel, by decide +kernel⟩, ?_⟩, ⟨?_, ⟨by decide +kernel, by decide +kernel⟩, ?_⟩⟩
  · exact FileImage.loadable_of_single lowEntryProgram_headers (by decide +kernel) (by decide +kernel)
  · exact not_loadsImage (by decide +kernel)
  · exact FileImage.loadable_of_single holeProgram_headers (by decide +kernel) (by decide +kernel)
  · exact not_loadsImage (by decide +kernel)
  · exact FileImage.loadable_of_single farProgram_headers (by decide +kernel) (by decide +kernel)
  · exact not_loadsImage (by decide +kernel)

end Kudos
