import Kudos.Proc.ProgramLoading

set_option autoImplicit false

/-! # Which files stop the kernel

`setup_new_process` trusts the headers of a file: it asserts that every page of a segment can be read
from the file, and it writes to the addresses that the file says. It also takes a file without any
segment for a program, since it tests the result of `elf_parse_header` for negative numbers only. So a
call returns as it should for the files that are `Harmless` (`setupReturns_iff`). -/

namespace Kudos

open Radix Supply CInt

/-! ## What the call asks of a file -/

/-- `left_to_read` for page `i` of a segment. -/
def Segment.leftToRead (seg : Segment) (i : ℕ) : ℤ := ((seg.size - pageOffset i).setWidth 32).toInt

/-- The seek position for page `i`, an `int`. -/
def Segment.seekPosition (seg : Segment) (i : ℕ) : ℤ := ((seg.location + pageOffset i).setWidth 32).toInt

/-- What is to be read for page `i` is in the file, and goes to a buffer that `vfs_read` accepts. -/
def Segment.InFile (seg : Segment) (image : FileImage) (i : ℕ) : Prop :=
  0 < seg.leftToRead i → 0 ≤ seg.seekPosition i ∧
    seg.seekPosition i + min 4096 (seg.leftToRead i) ≤ image.size ∧ seg.page i ≠ 0

instance (seg : Segment) (image : FileImage) (i : ℕ) : Decidable (seg.InFile image i) :=
  inferInstanceAs (Decidable (_ → _))

/-- The pages in the order in which they are mapped. -/
def ElfInfo.pages (elf : ElfInfo) : List (BitVec 64) := stackPages ++ elf.segmentPages

/-- When the pages `before` are mapped, 4096 bytes can be written from `va` on: the processor accepts the
    address, and if it is not the start of a page, the next page is one of those. -/
def Fillable (before : List (BitVec 64)) (va : BitVec 64) : Prop :=
  Canonical va ∧ (PageAligned va ∨
    Canonical (nextPage va) ∧ ∃ v ∈ before, pageNumber (nextPage va) = pageNumber v)

instance (before : List (BitVec 64)) (va : BitVec 64) : Decidable (Fillable before va) :=
  haveI := List.decidableBEx (fun v => pageNumber (nextPage va) = pageNumber v) before
  inferInstanceAs (Decidable (Canonical va ∧ (va.toNat % 4096 = 0 ∨ Canonical (nextPage va) ∧ _)))

/-- Each page can be filled when it is its turn. -/
def FillableInTurn : List (BitVec 64) → List (BitVec 64) → Prop
  | _, [] => True
  | before, va :: rest => Fillable before va ∧ FillableInTurn (before ++ [va]) rest

instance decidableFillableInTurn :
    (before pages : List (BitVec 64)) → Decidable (FillableInTurn before pages)
  | _, [] => isTrue trivial
  | before, va :: rest =>
      haveI := decidableFillableInTurn (before ++ [va]) rest
      inferInstanceAs (Decidable (Fillable before va ∧ FillableInTurn (before ++ [va]) rest))

/-- The program can be loaded. -/
structure ElfInfo.Loads (elf : ElfInfo) (pool : PtPool) (m : KernelMemory) (image : FileImage) :
    Prop where
  pages : FillableInTurn [] elf.pages
  ro : ∀ i < elf.ro.count, elf.ro.InFile image i
  rw : ∀ i < elf.rw.count, elf.rw.InFile image i
  tables : CanTakeTables pool
    ((missingWays m.vm m.vm.kernelPml4 (neededWays elf.pages)).card + 1) m.vm

instance (elf : ElfInfo) (pool : PtPool) (m : KernelMemory) (image : FileImage) :
    Decidable (elf.Loads pool m image) :=
  decidable_of_iff (FillableInTurn [] elf.pages ∧ (∀ i < elf.ro.count, elf.ro.InFile image i) ∧
      (∀ i < elf.rw.count, elf.rw.InFile image i) ∧ CanTakeTables pool
        ((missingWays m.vm m.vm.kernelPml4 (neededWays elf.pages)).card + 1) m.vm)
    ⟨fun h => ⟨h.1, h.2.1, h.2.2.1, h.2.2.2⟩, fun h => ⟨h.pages, h.ro, h.rw, h.tables⟩⟩

/-- The segments stay off the pages that the kernel has mapped. -/
def ElfInfo.OffKernel (elf : ElfInfo) (s : VmState) : Prop :=
  ∀ va ∈ elf.segmentPages, walk s s.kernelPml4 va = none ∧
    (PageAligned va ∨ walk s s.kernelPml4 (nextPage va) = none)

instance (elf : ElfInfo) (s : VmState) : Decidable (elf.OffKernel s) :=
  List.decidableBAll (fun va => walk s s.kernelPml4 va = none ∧
    (va.toNat % 4096 = 0 ∨ walk s s.kernelPml4 (nextPage va) = none)) elf.segmentPages

/-- `elf_parse_header` has found a segment. -/
def FoundSegment (file : Executable) : Prop := ∃ r ∈ (elfParseHeader file).toOption, r.1 ≠ 0

instance (file : Executable) : Decidable (FoundSegment file) :=
  inferInstanceAs (Decidable (∃ r ∈ (elfParseHeader file).toOption, r.1 ≠ 0))

/-- The files that are rejected, and those that can be loaded. -/
def FileImage.Harmless (image : FileImage) (pool : PtPool) (m : KernelMemory) : Prop :=
  ∀ elf, acceptedElf (some image.file) = some elf →
    FoundSegment image.file ∧ elf.OffKernel m.vm ∧ elf.Loads pool m image

instance (image : FileImage) (pool : PtPool) (m : KernelMemory) : Decidable (image.Harmless pool m) :=
  inferInstanceAs (Decidable (∀ elf ∈ acceptedElf (some image.file),
    FoundSegment image.file ∧ elf.OffKernel m.vm ∧ elf.Loads pool m image))

/-- The call returns, and a process is set up only if there is a segment. -/
def SetupReturns (pool : PtPool) (image : FileImage) (m : KernelMemory) : Prop :=
  ∃ proc m', setupNewProcess pool (some image.file) m = .ok (proc, m') ∧
    (proc ≠ none → FoundSegment image.file)

theorem fillableInTurn_append (before pages pages' : List (BitVec 64)) :
    FillableInTurn before (pages ++ pages') ↔
      FillableInTurn before pages ∧ FillableInTurn (before ++ pages) pages' := by
  induction pages generalizing before with
  | nil => simp [FillableInTurn]
  | cons va rest ih =>
      rw [List.cons_append]
      simp only [FillableInTurn]
      rw [ih, List.append_assoc, List.singleton_append, and_assoc]

/-- The next page is another page. -/
theorem pageNumber_nextPage (va : BitVec 64) : pageNumber (nextPage va) ≠ pageNumber va := by
  have hlt := va.isLt
  unfold pageNumber nextPage
  rw [BitVec.toNat_add, BitVec.toNat_ofNat]
  omega

/-! ## Reads and writes -/

section

variable {pool : PtPool} {vm vm' : VmState} {t va : BitVec 64} {bytes : List UInt8}

theorem writePage_ok_iff :
    (∃ vm', writePage vm t va bytes = .ok vm') ↔ Canonical va ∧ walk vm t va ≠ none := by
  unfold writePage
  split
  · next hcanonical =>
      cases hwalk : walk vm t va with
      | none => simp
      | some pa => simp [hcanonical]
  · next hcanonical => simp [hcanonical]

theorem writeUser_canonical (h : writeUser vm t va bytes = .ok vm') : Canonical va := by
  unfold writeUser at h
  cases hfirst : writePage vm t va (bytes.take (4096 - va.toNat % 4096)) with
  | error e =>
      rw [hfirst] at h
      cases h
  | ok vm1 => exact (writePage_ok_iff.1 ⟨vm1, hfirst⟩).1

/-- What a file gives in full. -/
theorem FileImage.readAll_iff (image : FileImage) {size position : ℤ} (hsize : 0 < size) :
    image.file.readAll size position ≠ none ↔ 0 ≤ position ∧ position + size ≤ image.size := by
  unfold Executable.readAll FileImage.file
  simp only
  by_cases hout : position < 0 ∨ (image.size : ℤ) < position
  · rw [if_pos hout]
    simp only [Option.filter_none, ne_eq, not_true_eq_false, false_iff]
    omega
  · rw [if_neg hout, Option.filter_some, image.length_slice]
    by_cases hfull : ((min size.toNat (image.size - position.toNat) : ℕ) : ℤ) = size
    · rw [if_pos (decide_eq_true hfull)]
      simp only [ne_eq, reduceCtorEq, not_false_eq_true, true_iff]
      omega
    · rw [if_neg (by simpa using hfull)]
      simp only [ne_eq, not_true_eq_false, false_iff]
      omega

theorem fillPage_eq (file : Executable) (seg : Segment) (i : ℕ) :
    fillPage file seg t i vm =
      if 0 < seg.leftToRead i then
        if seg.seekPosition i < 0 ∨ seg.page i = 0 then .error .assertion
        else
          match file.readAll (min 4096 (seg.leftToRead i)) (seg.seekPosition i) with
          | some bytes => writeUser vm t (seg.page i) bytes
          | none => .error .assertion
      else .ok vm := rfl

/-- A page that was filled is in the file. -/
theorem fillPage_inFile {image : FileImage} {seg : Segment} {i : ℕ}
    (h : fillPage image.file seg t i vm = .ok vm') : seg.InFile image i := by
  intro hleft
  rw [fillPage_eq, if_pos hleft] at h
  split at h
  · cases h
  · next hbuffer =>
      rw [not_or] at hbuffer
      split at h
      · next bytes hread =>
          have hfile := (image.readAll_iff (by omega)).1 (Option.ne_none_iff_exists'.2 ⟨bytes, hread⟩)
          exact ⟨hfile.1, hfile.2, hbuffer.2⟩
      · cases h

/-- And if it is in the file, it is at most one write that has to succeed. -/
theorem fillPage_returns {image : FileImage} {seg : Segment} {i : ℕ} (hfile : seg.InFile image i)
    (hwrite : ∀ bytes : List UInt8, bytes.length ≤ 4096 →
      ∃ vm', writeUser vm t (seg.page i) bytes = .ok vm') :
    ∃ vm', fillPage image.file seg t i vm = .ok vm' := by
  rw [fillPage_eq]
  by_cases hleft : 0 < seg.leftToRead i
  · obtain ⟨hposition, hsize, hne⟩ := hfile hleft
    have hsmall : ¬ (seg.seekPosition i < 0 ∨ seg.page i = 0) := by
      rw [not_or]
      exact ⟨by omega, hne⟩
    obtain ⟨bytes, hread⟩ :=
      Option.ne_none_iff_exists'.1 ((image.readAll_iff (by omega)).2 ⟨hposition, hsize⟩)
    have hlen : (bytes.length : ℤ) = min 4096 (seg.leftToRead i) :=
      of_decide_eq_true (Option.filter_eq_some_iff.1 hread).2
    rw [if_pos hleft, if_neg hsmall, hread]
    exact hwrite bytes (by omega)
  · rw [if_neg hleft]
    exact ⟨vm, rfl⟩

end

/-! ## The loops -/

/-- The memory while the new address space `t` is filled: the pages `before` are mapped, and of the pages
    that the kernel has not mapped only these, all to free frames. -/
structure LoadState (pool : PtPool) (m0 : KernelMemory) (live : BitVec 64 → Prop) (t : BitVec 64)
    (before : List (BitVec 64)) (m : KernelMemory) : Prop where
  loading : Loading pool m0 live t m.vm
  free : ∀ f, m.phys.Free f → m0.phys.Free f
  mapped : ∀ v ∈ before, walk m.vm t v ≠ none
  only : ∀ va pa, walk m0.vm m0.vm.kernelPml4 va = none → walk m.vm t va = some pa →
    FreeFrame m0 pa ∧ ∃ v ∈ before, pageNumber va = pageNumber v

/-- The bytes of a page do not reach over to a page that the kernel has mapped. -/
def StaysOff (m0 : KernelMemory) (va : BitVec 64) : Prop :=
  PageAligned va ∨ walk m0.vm m0.vm.kernelPml4 (nextPage va) = none

section

variable {pool : PtPool} {m0 m m' : KernelMemory} {live : BitVec 64 → Prop} {t : BitVec 64}
  {vm vm' : VmState} {before before' : List (BitVec 64)} {va pa : BitVec 64} {bytes : List UInt8}
  {ways : Finset (List ℕ)}

/-- A page is mapped to a free frame. -/
theorem LoadState.vmMap (h : LoadState pool m0 live t before m) (before' : List (BitVec 64))
    {flags : BitVec 32} (hpa : FreeFrame m0 pa) (hflags : flags.toNat < 4096) (hmap : vmMap pool m.vm t pa va flags = .ok vm')
    (hbefore : ∀ v, v ∈ before' ↔ v ∈ before ∨ v = va) :
    LoadState pool m0 live t before' ⟨vm', m.phys⟩ ∧ walk vm' t va = some pa := by
  have hspec := vmMap_spec h.loading.tables (Or.inr rfl) hflags hmap
  obtain ⟨hloading, -, hself⟩ := h.loading.vmMap hpa hflags hmap
  have hother : ∀ v, pageNumber v ≠ pageNumber va → walk vm' t v = walk m.vm t v :=
    fun v hne => hspec.walk_other t (Or.inr rfl) v fun hc => hne hc.1
  refine ⟨⟨hloading, h.free, ?_, ?_⟩, hself⟩
  · intro v hv
    by_cases hpage : pageNumber v = pageNumber va
    · rw [walk_congr _ _ hpage, hself]
      simp
    · rw [hother v hpage]
      refine h.mapped v (((hbefore v).1 hv).resolve_right ?_)
      rintro rfl
      exact hpage rfl
  · intro v q hnone hq
    by_cases hpage : pageNumber v = pageNumber va
    · rw [walk_congr _ _ hpage, hself] at hq
      cases hq
      exact ⟨hpa, va, (hbefore va).2 (Or.inr rfl), hpage⟩
    · rw [hother v hpage] at hq
      obtain ⟨hframe, w, hw, heq⟩ := h.only v q hnone hq
      exact ⟨hframe, w, (hbefore w).2 (Or.inl hw), heq⟩

/-- Nothing is mapped. -/
theorem LoadState.same (h : LoadState pool m0 live t before m) (hloading : Loading pool m0 live t vm')
    (hwalk : ∀ v, walk vm' t v = walk m.vm t v) : LoadState pool m0 live t before ⟨vm', m.phys⟩ where
  loading := hloading
  free := h.free
  mapped v hv := by
    rw [hwalk]
    exact h.mapped v hv
  only v q hnone hq := by
    rw [hwalk] at hq
    exact h.only v q hnone hq

/-- A write that reaches over to the next page goes to a page that was mapped. -/
theorem LoadState.spill (h : LoadState pool m0 live t before m) (hoff : StaysOff m0 va) :
    PageAligned va ∨ ∀ pa, walk m.vm t (nextPage va) = some pa → FreeFrame m0 pa :=
  hoff.imp id fun hnone pa hpa => (h.only _ pa hnone hpa).1

/-- All the ways to pages that are mapped are there. -/
theorem LoadState.supply (h : LoadState pool m0 live t before m) :
    TableSupply pool m.vm t (neededWays before) := by
  have hnone : missingWays m.vm t (neededWays before) = ∅ := by
    refine Finset.filter_eq_empty_iff.2 fun way hway hmissing => ?_
    obtain ⟨va, hva, hway⟩ := Finset.mem_biUnion.1 hway
    have hwalk := h.mapped va (List.mem_toFinset.1 hva)
    -- a way that leads nowhere would be the start of the one to the page
    have hprefix : ∀ rest, tablePath va ++ [vmmIndexPtable va] = way ++ rest → False := by
      intro rest heq
      unfold walk at hwalk
      rw [heq, follow_append, hmissing] at hwalk
      exact hwalk rfl
    unfold tableWays at hway
    rw [Finset.mem_insert, Finset.mem_insert, Finset.mem_singleton] at hway
    rcases hway with rfl | rfl | rfl
    · exact hprefix [vmmIndexPdp va, vmmIndexPdir va, vmmIndexPtable va] rfl
    · exact hprefix [vmmIndexPdir va, vmmIndexPtable va] rfl
    · exact hprefix [vmmIndexPtable va] rfl
  unfold TableSupply
  rw [hnone, Finset.card_empty]
  trivial

variable (hreserved : pool.Reserved m0)

include hreserved

/-- Bytes are written to a page of the new address space. -/
theorem LoadState.writeUser (h : LoadState pool m0 live t before m) (hwalk : walk m.vm t va = some pa)
    (hpa : FreeFrame m0 pa) (hoff : StaysOff m0 va) (hlen : bytes.length ≤ 4096)
    (hshort : ∀ way ∈ ways, way.length ≤ 3) (hwrite : Kudos.writeUser m.vm t va bytes = .ok vm') :
    LoadState pool m0 live t before ⟨vm', m.phys⟩ ∧ (∀ v, walk vm' t v = walk m.vm t v) ∧
      (TableSupply pool vm' t ways ↔ TableSupply pool m.vm t ways) := by
  obtain ⟨q, words, q', words', hq, hq', heq, hloading, hsame⟩ :=
    h.loading.writeUser hreserved hwalk hpa (h.spill hoff) hlen hwrite
  have hset : ∀ {vm : VmState}, Loading pool m0 live t vm → ∀ {q words}, FreeFrame m0 q →
      (TableSupply pool (setPage vm q words) t ways ↔ TableSupply pool vm t ways) := by
    intro vm hvm q words hq
    exact TableSupply.setTable_iff (fun hnode => hvm.tables.ne_of_offPool (hq.offPool hreserved) hnode rfl)
      (Or.inr rfl) hshort words
  refine ⟨h.same hloading (hsame t (Or.inr rfl)), hsame t (Or.inr rfl), ?_⟩
  rcases heq with rfl | rfl
  · exact hset h.loading hq
  · exact (hset (h.loading.setPage hq hreserved words).1 hq').trans (hset h.loading hq)

/-- A page that was zeroed could be filled. -/
theorem LoadState.fillable (h : LoadState pool m0 live t (before ++ [va]) m)
    (hwalk : walk m.vm t va = some pa) (hpa : FreeFrame m0 pa) (hoff : StaysOff m0 va)
    (hwrite : Kudos.writeUser m.vm t va (List.replicate 4096 0) = .ok vm') : Fillable before va := by
  refine ⟨writeUser_canonical hwrite, ?_⟩
  by_cases haligned : PageAligned va
  · exact Or.inl haligned
  · right
    have hlong : ¬ 4096 ≤ 4096 - va.toNat % 4096 := by
      unfold PageAligned at haligned
      omega
    unfold Kudos.writeUser at hwrite
    cases hfirst : Kudos.writePage m.vm t va ((List.replicate 4096 0).take (4096 - va.toNat % 4096)) with
    | error e =>
        rw [hfirst] at hwrite
        cases hwrite
    | ok vm1 =>
        rw [hfirst] at hwrite
        simp only [bind, Except.bind, List.length_replicate] at hwrite
        rw [if_neg hlong] at hwrite
        obtain ⟨hcanonical, hnext⟩ := writePage_ok_iff.1 ⟨vm', hwrite⟩
        obtain ⟨-, -, -, -, -, hsame⟩ := h.loading.writePage hreserved (fun pa' hpa' => by
          rw [hwalk] at hpa'
          cases hpa'
          exact hpa) hfirst
        rw [hsame t (Or.inr rfl)] at hnext
        obtain ⟨q, hq⟩ := Option.ne_none_iff_exists'.1 hnext
        obtain ⟨-, v, hv, hpage⟩ := h.only _ q (hoff.resolve_left haligned) hq
        refine ⟨hcanonical, v, (List.mem_append.1 hv).resolve_right fun hlast => ?_, hpage⟩
        rw [List.mem_singleton.1 hlast] at hpage
        exact pageNumber_nextPage va hpage

/-- And a page that can be filled takes up to 4096 bytes. -/
theorem LoadState.writeUser_returns (h : LoadState pool m0 live t before' m)
    (hwalk : walk m.vm t va = some pa) (hpa : FreeFrame m0 pa) (hfill : Fillable before va)
    (hsub : ∀ v ∈ before, v ∈ before') (hlen : bytes.length ≤ 4096) :
    ∃ vm', Kudos.writeUser m.vm t va bytes = .ok vm' := by
  have hmapped : walk m.vm t va ≠ none := by
    rw [hwalk]
    simp
  have hstart : ∃ vm1, Kudos.writePage m.vm t va (bytes.take (4096 - va.toNat % 4096)) = .ok vm1 :=
    writePage_ok_iff.2 ⟨hfill.1, hmapped⟩
  obtain ⟨vm1, hfirst⟩ := hstart
  unfold Kudos.writeUser
  rw [hfirst]
  simp only [bind, Except.bind]
  split
  · exact ⟨vm1, rfl⟩
  · next hlong =>
      have haligned : ¬ PageAligned va := by
        intro haligned
        unfold PageAligned at haligned
        omega
      obtain ⟨hcanonical, v, hv, hpage⟩ := hfill.2.resolve_left haligned
      obtain ⟨-, -, -, -, -, hsame⟩ := h.loading.writePage hreserved (fun pa' hpa' => by
        rw [hwalk] at hpa'
        cases hpa'
        exact hpa) hfirst
      refine writePage_ok_iff.2 ⟨hcanonical, ?_⟩
      rw [hsame t (Or.inr rfl), walk_congr _ _ hpage]
      exact h.mapped v (hsub v hv)

variable (hshort : ∀ way ∈ ways, way.length ≤ 3)

include hshort

/-- What a call of `mapZeroedPage` that returns has done. -/
theorem LoadState.mapZeroedPage_ok {n : ℕ} (h : LoadState pool m0 live t before m)
    (hframes : CanTakeFrames (n + 1) m.phys) (hoff : StaysOff m0 va) (hways : tableWays va ⊆ ways)
    (hmap : mapZeroedPage pool t va m = .ok (pa, m')) :
    Fillable before va ∧ LoadState pool m0 live t (before ++ [va]) m' ∧ CanTakeFrames n m'.phys ∧
      FreeFrame m0 pa ∧ walk m'.vm t va = some pa ∧
      (TableSupply pool m'.vm t ways ↔ TableSupply pool m.vm t ways) := by
  obtain ⟨f, vm1, halloc, -, hf, hlater, rfl, hvm, hzero⟩ := mapZeroedPage_cases hmap
  have hframe : FreeFrame m0 (BitVec.ofNat 64 (f * 4096)) := ⟨f, h.free f hf, rfl⟩
  have hsupply := TableSupply.vmMap_iff h.loading.tables (Or.inr rfl) (by decide) hshort hways hvm
  obtain ⟨h1, hwalk⟩ := h.vmMap (before ++ [va]) hframe (by decide) hvm (by simp)
  have h1' : LoadState pool m0 live t (before ++ [va]) ⟨vm1, m'.phys⟩ :=
    ⟨h1.loading, fun g hg => h.free g (hlater g hg), h1.mapped, h1.only⟩
  obtain ⟨h2, hsame, hsupply'⟩ := h1'.writeUser hreserved hwalk hframe hoff
    (by rw [List.length_replicate]) hshort hzero
  exact ⟨h1'.fillable hreserved hwalk hframe hoff hzero, h2, ((canTake_succ_iff halloc).1 hframes).2,
    hframe, (hsame va).trans hwalk, hsupply'.trans hsupply⟩

theorem LoadState.mapZeroedPage_returns {n : ℕ} (h : LoadState pool m0 live t before m)
    (hframes : CanTakeFrames (n + 1) m.phys) (hsupply : TableSupply pool m.vm t ways)
    (hways : tableWays va ⊆ ways) (hfill : Fillable before va) :
    ∃ pa m', mapZeroedPage pool t va m = .ok (pa, m') := by
  obtain ⟨addr, phys, halloc, ⟨hne, -⟩, -⟩ := hframes
  obtain ⟨f, rfl, hf, -⟩ := physmemAllocblock_free halloc
  have hframe : FreeFrame m0 (BitVec.ofNat 64 (f * 4096)) := ⟨f, h.free f hf, rfl⟩
  obtain ⟨vm1, hvm, -⟩ := hsupply.vmMap (BitVec.ofNat 64 (f * 4096)) h.loading.tables (Or.inr rfl)
    (show (pageUser ||| 2#32).toNat < 4096 by decide) hshort hways
  obtain ⟨h1, hwalk⟩ := h.vmMap (before ++ [va]) hframe (by decide) hvm (by simp)
  obtain ⟨vm2, hzero⟩ := h1.writeUser_returns hreserved hwalk hframe hfill
    (fun v hv => List.mem_append_left _ hv)
    (show (List.replicate 4096 (0 : UInt8)).length ≤ 4096 by rw [List.length_replicate])
  refine ⟨BitVec.ofNat 64 (f * 4096), ⟨vm2, phys⟩, ?_⟩
  unfold Kudos.mapZeroedPage
  simp only [halloc, bind, Except.bind]
  rw [if_neg hne]
  simp only [hvm, hzero]
  rfl

/-- What one round of the loop over a segment has done. -/
theorem LoadState.loadPage_ok {n i : ℕ} {seg : Segment} {file : Executable} {m1 : KernelMemory}
    {vm2 vm3 : VmState} (h : LoadState pool m0 live t before m) (hframes : CanTakeFrames (n + 1) m.phys)
    (hoff : StaysOff m0 (seg.page i)) (hways : tableWays (seg.page i) ⊆ ways)
    (hmap : mapZeroedPage pool t (seg.page i) m = .ok (pa, m1))
    (hfill : fillPage file seg t i m1.vm = .ok vm2)
    (hagain : vm3 = vm2 ∨ Kudos.vmMap pool vm2 t pa (seg.page i) pageUser = .ok vm3) :
    Fillable before (seg.page i) ∧ LoadState pool m0 live t (before ++ [seg.page i]) ⟨vm3, m1.phys⟩ ∧
      CanTakeFrames n m1.phys ∧
      (TableSupply pool vm3 t ways ↔ TableSupply pool m.vm t ways) := by
  obtain ⟨hfillable, h1, hframes1, hframe, hwalk1, hsupply1⟩ :=
    h.mapZeroedPage_ok hreserved hshort hframes hoff hways hmap
  have hfilled : LoadState pool m0 live t (before ++ [seg.page i]) ⟨vm2, m1.phys⟩ ∧
      (TableSupply pool vm2 t ways ↔ TableSupply pool m1.vm t ways) := by
    rcases fillPage_cases hfill with rfl | ⟨bytes, hlen, hwrite⟩
    · exact ⟨h1, Iff.rfl⟩
    · obtain ⟨h2, -, hsupply2⟩ := h1.writeUser hreserved hwalk1 hframe hoff hlen hshort hwrite
      exact ⟨h2, hsupply2⟩
  obtain ⟨h2, hsupply2⟩ := hfilled
  refine ⟨hfillable, ?_⟩
  rcases hagain with rfl | hro
  · exact ⟨h2, hframes1, hsupply2.trans hsupply1⟩
  · obtain ⟨h3, -⟩ := h2.vmMap (before ++ [seg.page i]) hframe (by decide) hro (by simp)
    have hsupply3 := TableSupply.vmMap_iff h2.loading.tables (Or.inr rfl) (by decide) hshort hways hro
    exact ⟨h3, hframes1, hsupply3.trans (hsupply2.trans hsupply1)⟩

theorem LoadState.loadSegment_ok {n i rest : ℕ} {seg : Segment} {file : Executable} {readOnly : Bool}
    (h : LoadState pool m0 live t before m) (hframes : CanTakeFrames (n + rest) m.phys)
    (hoff : ∀ v ∈ seg.pagesFrom i n, StaysOff m0 v)
    (hways : ∀ v ∈ seg.pagesFrom i n, tableWays v ⊆ ways)
    (hload : loadSegment pool file t seg readOnly n i m = .ok m') :
    FillableInTurn before (seg.pagesFrom i n) ∧
      LoadState pool m0 live t (before ++ seg.pagesFrom i n) m' ∧ CanTakeFrames rest m'.phys ∧
      (TableSupply pool m'.vm t ways ↔ TableSupply pool m.vm t ways) := by
  induction n generalizing i m before with
  | zero =>
      cases hload
      rw [Nat.zero_add] at hframes
      have hnone : seg.pagesFrom i 0 = [] := rfl
      rw [hnone, List.append_nil]
      exact ⟨trivial, h, hframes, Iff.rfl⟩
  | succ n ih =>
      rw [Nat.succ_add] at hframes
      rw [seg.pagesFrom_succ, List.forall_mem_append, List.forall_mem_singleton] at hoff hways
      rw [seg.pagesFrom_succ, fillableInTurn_append, ← List.append_assoc]
      obtain ⟨physPage, m1, vm2, vm3, hmap, hfill, hagain, hrest⟩ := loadSegment_succ hload
      obtain ⟨hfillable, h3, hframes3, hsupply3⟩ :=
        h.loadPage_ok hreserved hshort hframes hoff.1 hways.1 hmap hfill hagain
      obtain ⟨hturn, h', hframes', hsupply'⟩ := ih h3 hframes3 hoff.2 hways.2 hrest
      exact ⟨⟨⟨hfillable, trivial⟩, hturn⟩, h', hframes', hsupply'.trans hsupply3⟩

/-- The loop over a segment returns if its pages can be filled in turn and are in the file. -/
theorem LoadState.loadSegment_returns {n i rest : ℕ} {seg : Segment} {image : FileImage}
    (readOnly : Bool) (h : LoadState pool m0 live t before m) (hframes : CanTakeFrames (n + rest) m.phys)
    (hoff : ∀ v ∈ seg.pagesFrom i n, StaysOff m0 v)
    (hways : ∀ v ∈ seg.pagesFrom i n, tableWays v ⊆ ways) (hsupply : TableSupply pool m.vm t ways)
    (hturn : FillableInTurn before (seg.pagesFrom i n))
    (hfile : ∀ j, i ≤ j → j < i + n → seg.InFile image j) :
    ∃ m', loadSegment pool image.file t seg readOnly n i m = .ok m' := by
  induction n generalizing i m before with
  | zero => exact ⟨m, rfl⟩
  | succ n ih =>
      rw [Nat.succ_add] at hframes
      rw [seg.pagesFrom_succ, List.forall_mem_append, List.forall_mem_singleton] at hoff hways
      rw [seg.pagesFrom_succ, fillableInTurn_append] at hturn
      obtain ⟨⟨hfillable, -⟩, hturn⟩ := hturn
      obtain ⟨pa, m1, hmap⟩ := h.mapZeroedPage_returns hreserved hshort hframes hsupply hways.1 hfillable
      obtain ⟨-, h1, -, hframe, hwalk1, hsupply1⟩ :=
        h.mapZeroedPage_ok hreserved hshort hframes hoff.1 hways.1 hmap
      obtain ⟨vm2, hfill⟩ := fillPage_returns (hfile i le_rfl (by omega)) fun bytes hlen =>
        h1.writeUser_returns hreserved hwalk1 hframe hfillable (fun v hv => List.mem_append_left _ hv) hlen
      have hagain : ∃ vm3, (if readOnly then Kudos.vmMap pool vm2 t pa (seg.page i) pageUser
            else .ok vm2) = .ok vm3 ∧
          (vm3 = vm2 ∨ Kudos.vmMap pool vm2 t pa (seg.page i) pageUser = .ok vm3) := by
        cases readOnly with
        | false => exact ⟨vm2, rfl, Or.inl rfl⟩
        | true =>
            obtain ⟨-, h2, -, hsupply2⟩ :=
              h.loadPage_ok hreserved hshort hframes hoff.1 hways.1 hmap hfill (Or.inl rfl)
            obtain ⟨vm3, hro, -⟩ := (hsupply2.2 hsupply).vmMap pa h2.loading.tables (Or.inr rfl)
              (show pageUser.toNat < 4096 by decide) hshort hways.1
            exact ⟨vm3, hro, Or.inr hro⟩
      obtain ⟨vm3, hro, hagain⟩ := hagain
      obtain ⟨-, h3, hframes3, hsupply3⟩ :=
        h.loadPage_ok hreserved hshort hframes hoff.1 hways.1 hmap hfill hagain
      obtain ⟨m', hload⟩ := ih h3 hframes3 hoff.2 hways.2 (hsupply3.2 hsupply) hturn
        fun j hj hlt => hfile j (by omega) (by omega)
      refine ⟨m', ?_⟩
      unfold Kudos.loadSegment
      simp only [hmap, hfill, bind, Except.bind]
      cases readOnly with
      | false =>
          cases hro
          exact hload
      | true =>
          rw [if_pos rfl] at hro ⊢
          rw [hro]
          exact hload

theorem LoadState.loadStack_ok {n i rest : ℕ} (h : LoadState pool m0 live t before m)
    (hframes : CanTakeFrames (n + rest) m.phys)
    (hways : ∀ v ∈ (List.range' i n).map stackPage, tableWays v ⊆ ways)
    (hload : loadStack pool t n i m = .ok m') :
    FillableInTurn before ((List.range' i n).map stackPage) ∧
      LoadState pool m0 live t (before ++ (List.range' i n).map stackPage) m' ∧
      CanTakeFrames rest m'.phys ∧
      (TableSupply pool m'.vm t ways ↔ TableSupply pool m.vm t ways) := by
  induction n generalizing i m before with
  | zero =>
      cases hload
      rw [Nat.zero_add] at hframes
      have hnone : (List.range' i 0).map stackPage = [] := rfl
      rw [hnone, List.append_nil]
      exact ⟨trivial, h, hframes, Iff.rfl⟩
  | succ n ih =>
      rw [Nat.succ_add] at hframes
      rw [List.range'_succ, List.map_cons, List.forall_mem_cons] at hways
      rw [List.range'_succ, List.map_cons, ← List.singleton_append, fillableInTurn_append,
        ← List.append_assoc]
      obtain ⟨physPage, m1, hmap, hrest⟩ := loadStack_succ hload
      obtain ⟨hfillable, h1, hframes1, -, -, hsupply1⟩ := h.mapZeroedPage_ok hreserved hshort hframes
        (Or.inl (stackPage_aligned i)) hways.1 hmap
      obtain ⟨hturn, h', hframes', hsupply'⟩ := ih h1 hframes1 hways.2 hrest
      exact ⟨⟨⟨hfillable, trivial⟩, hturn⟩, h', hframes', hsupply'.trans hsupply1⟩

theorem LoadState.loadStack_returns {n i rest : ℕ} (h : LoadState pool m0 live t before m)
    (hframes : CanTakeFrames (n + rest) m.phys)
    (hways : ∀ v ∈ (List.range' i n).map stackPage, tableWays v ⊆ ways)
    (hsupply : TableSupply pool m.vm t ways)
    (hturn : FillableInTurn before ((List.range' i n).map stackPage)) :
    ∃ m', loadStack pool t n i m = .ok m' := by
  induction n generalizing i m before with
  | zero => exact ⟨m, rfl⟩
  | succ n ih =>
      rw [Nat.succ_add] at hframes
      rw [List.range'_succ, List.map_cons, List.forall_mem_cons] at hways
      rw [List.range'_succ, List.map_cons] at hturn
      obtain ⟨hfillable, hturn⟩ := hturn
      obtain ⟨pa, m1, hmap⟩ := h.mapZeroedPage_returns hreserved hshort hframes hsupply hways.1 hfillable
      obtain ⟨-, h1, hframes1, -, -, hsupply1⟩ := h.mapZeroedPage_ok hreserved hshort hframes
        (Or.inl (stackPage_aligned i)) hways.1 hmap
      obtain ⟨m', hload⟩ := ih h1 hframes1 hways.2 (hsupply1.2 hsupply) hturn
      refine ⟨m', ?_⟩
      unfold Kudos.loadStack
      simp only [hmap, bind, Except.bind]
      exact hload

end

/-- Pages that were loaded are in the file, at addresses that the processor accepts. -/
theorem loadSegment_inFile {pool : PtPool} {t : BitVec 64} {seg : Segment} {image : FileImage}
    {readOnly : Bool} {n i : ℕ} {m m' : KernelMemory}
    (hload : loadSegment pool image.file t seg readOnly n i m = .ok m') :
    ∀ j, i ≤ j → j < i + n → seg.InFile image j ∧ Canonical (seg.page j) := by
  induction n generalizing i m with
  | zero =>
      intro j hj hlt
      omega
  | succ n ih =>
      intro j hj hlt
      obtain ⟨physPage, m1, vm2, vm3, hmap, hfill, -, hrest⟩ := loadSegment_succ hload
      by_cases hji : j = i
      · subst hji
        obtain ⟨f, vm1, -, -, -, -, -, -, hzero⟩ := mapZeroedPage_cases hmap
        exact ⟨fillPage_inFile hfill, writeUser_canonical hzero⟩
      · exact ih hrest j (by omega) (by omega)

/-! ## The whole call -/

/-- The new address space has the translations of the kernel. -/
theorem VmCreated.walk_new {pool : PtPool} {s s' : VmState} {live : BitVec 64 → Prop} {k t : BitVec 64}
    (h : VmCreated pool s s' live k t) (hk : live k) (va : BitVec 64) : walk s' t va = walk s k va := by
  rw [← h.walk_other k hk va]
  unfold walk tablePath
  simp only [List.cons_append, follow, h.entries, h.entries_other k hk]

theorem VmCreated.loadState {pool : PtPool} {m : KernelMemory} {spaces : List (BitVec 64)}
    {t : BitVec 64} {vm : VmState}
    (h : VmCreated pool m.vm vm (VmSystem.Live ⟨m.vm, spaces⟩) m.vm.kernelPml4 t) :
    LoadState pool m (VmSystem.Live ⟨m.vm, spaces⟩) t [] ⟨vm, m.phys⟩ where
  loading := h.loading
  free _ hf := hf
  mapped _ hv := (List.not_mem_nil hv).elim
  only va pa hnone hpa := by
    rw [h.walk_new (Or.inl rfl), hnone] at hpa
    cases hpa

section

variable {pool : PtPool} {image : FileImage} {m : KernelMemory} {spaces : List (BitVec 64)} {elf : ElfInfo}

-- its elements are never computed below
attribute [local irreducible] neededWays

/-- **When a program that is accepted can be loaded.** -/
theorem setupNewProcess_returns_iff (hm : MemoryInvariant pool m spaces)
    (helf : acceptedElf (some image.file) = some elf) (hframes : CanTakeFrames elf.pages.length m.phys)
    (hoff : elf.OffKernel m.vm) :
    (∃ r, setupNewProcess pool (some image.file) m = .ok r) ↔ elf.Loads pool m image := by
  have hshort : ∀ way ∈ neededWays elf.pages, way.length ≤ 3 :=
    fun way hway => (length_of_mem_neededWays hway).2
  have hlength : elf.pages.length = configUserlandStackSize + (elf.ro.count + (elf.rw.count + 0)) := by
    simp [ElfInfo.pages, stackPages, ElfInfo.segmentPages, Segment.pagesFrom]
  have hpages : elf.pages = [] ++ stackPages ++ elf.ro.pagesFrom 0 elf.ro.count
      ++ elf.rw.pagesFrom 0 elf.rw.count := by
    unfold ElfInfo.pages ElfInfo.segmentPages
    rw [List.nil_append, List.append_assoc]
  have hwaysStack : ∀ v ∈ stackPages, tableWays v ⊆ neededWays elf.pages :=
    fun v hv => tableWays_subset (List.mem_append_left _ hv)
  have hwaysRo : ∀ v ∈ elf.ro.pagesFrom 0 elf.ro.count, tableWays v ⊆ neededWays elf.pages :=
    fun v hv => tableWays_subset (List.mem_append_right _ (List.mem_append_left _ hv))
  have hwaysRw : ∀ v ∈ elf.rw.pagesFrom 0 elf.rw.count, tableWays v ⊆ neededWays elf.pages :=
    fun v hv => tableWays_subset (List.mem_append_right _ (List.mem_append_right _ hv))
  have hoffRo : ∀ v ∈ elf.ro.pagesFrom 0 elf.ro.count, StaysOff m v :=
    fun v hv => (hoff v (List.mem_append_left _ hv)).2
  have hoffRw : ∀ v ∈ elf.rw.pagesFrom 0 elf.rw.count, StaysOff m v :=
    fun v hv => (hoff v (List.mem_append_right _ hv)).2
  have hturn : FillableInTurn [] elf.pages ↔
      (FillableInTurn [] stackPages ∧
        FillableInTurn ([] ++ stackPages) (elf.ro.pagesFrom 0 elf.ro.count)) ∧
        FillableInTurn ([] ++ stackPages ++ elf.ro.pagesFrom 0 elf.ro.count)
          (elf.rw.pagesFrom 0 elf.rw.count) := by
    rw [hpages, List.nil_append, fillableInTurn_append, fillableInTurn_append]
    rfl
  rw [hlength] at hframes
  constructor
  · rintro ⟨⟨proc, m'⟩, h⟩
    rcases setupNewProcess_cases h with
      ⟨hnone, -, -⟩ | ⟨f, elf', t, vm, m1, m2, hfile, helf', -, hcreate, hstack, hro, hrw⟩
    · cases helf.symm.trans hnone
    · cases hfile
      cases helf.symm.trans helf'
      have h0 := (vmCreatePagetable_spec hm.tables.tables hcreate).loadState
      obtain ⟨hturn1, h1, hframes1, hsupply1⟩ :=
        h0.loadStack_ok hm.reserved hshort hframes hwaysStack hstack
      obtain ⟨hturn2, h2, hframes2, hsupply2⟩ :=
        h1.loadSegment_ok hm.reserved hshort hframes1 hoffRo hwaysRo hro
      obtain ⟨hturn3, h3, -, hsupply3⟩ :=
        h2.loadSegment_ok hm.reserved hshort hframes2 hoffRw hwaysRw hrw
      have hend : TableSupply pool m'.vm t (neededWays elf.pages) := by
        rw [hpages]
        exact h3.supply
      refine ⟨hturn.2 ⟨⟨hturn1, hturn2⟩, hturn3⟩, ?_, ?_, ?_⟩
      · exact fun i hi => (loadSegment_inFile hro i (Nat.zero_le i) (by omega)).1
      · exact fun i hi => (loadSegment_inFile hrw i (Nat.zero_le i) (by omega)).1
      · exact (vmCreatePagetable_supply_iff hm.tables.tables hcreate).1
          (hsupply1.1 (hsupply2.1 (hsupply3.1 hend)))
  · intro hloads
    obtain ⟨⟨hturn1, hturn2⟩, hturn3⟩ := hturn.1 hloads.pages
    obtain ⟨t, vm, hcreate, hsupply⟩ := vmCreatePagetable_supply hm.tables.tables hloads.tables
    have h0 := (vmCreatePagetable_spec hm.tables.tables hcreate).loadState
    obtain ⟨m1, hstack⟩ :=
      h0.loadStack_returns hm.reserved hshort hframes hwaysStack hsupply hturn1
    obtain ⟨-, h1, hframes1, hsupply1⟩ :=
      h0.loadStack_ok hm.reserved hshort hframes hwaysStack hstack
    obtain ⟨m2, hro⟩ := h1.loadSegment_returns hm.reserved hshort true hframes1 hoffRo hwaysRo
      (hsupply1.2 hsupply) hturn2 fun i _ hi => hloads.ro i (by omega)
    obtain ⟨-, h2, hframes2, hsupply2⟩ :=
      h1.loadSegment_ok hm.reserved hshort hframes1 hoffRo hwaysRo hro
    obtain ⟨m3, hrw⟩ := h2.loadSegment_returns hm.reserved hshort false hframes2 hoffRw hwaysRw
      (hsupply2.2 (hsupply1.2 hsupply)) hturn3 fun i _ hi => hloads.rw i (by omega)
    rw [setupNewProcess_accepted m helf, hcreate]
    simp only [bind, Except.bind, hstack, hro, hrw]
    exact ⟨_, rfl⟩

/-- **Which files do no harm.** With enough free frames, the call returns and takes no file without a
    segment for a program if the file is harmless; and for files that stay off the pages of the kernel,
    only then. Whatever the pages, it has to be possible to read them, and to write to their addresses. -/
theorem setupReturns_iff (hm : MemoryInvariant pool m spaces)
    (hframes : ∀ elf, acceptedElf (some image.file) = some elf →
      CanTakeFrames elf.pages.length m.phys) :
    (image.Harmless pool m → SetupReturns pool image m) ∧
    ((∀ elf, acceptedElf (some image.file) = some elf → elf.OffKernel m.vm) →
      SetupReturns pool image m → image.Harmless pool m) ∧
    (SetupReturns pool image m → ∀ elf, acceptedElf (some image.file) = some elf →
      FoundSegment image.file ∧ ∀ seg, seg = elf.ro ∨ seg = elf.rw → ∀ i < seg.count,
        seg.InFile image i ∧ Canonical (seg.page i)) := by
  have hfound : ∀ elf, acceptedElf (some image.file) = some elf → SetupReturns pool image m →
      FoundSegment image.file := by
    rintro elf helf ⟨proc, m', h, hproc⟩
    rcases setupNewProcess_cases h with ⟨hnone, -, -⟩ | ⟨_, _, _, _, _, _, -, -, hsome, -⟩
    · cases helf.symm.trans hnone
    · exact hproc (by simp [hsome])
  refine ⟨?_, ?_, ?_⟩
  · intro hharmless
    cases helf : acceptedElf (some image.file) with
    | none => exact ⟨none, m, setupNewProcess_rejected m helf, fun h => absurd rfl h⟩
    | some elf =>
        obtain ⟨hsegment, hoff, hloads⟩ := hharmless elf helf
        obtain ⟨r, hr⟩ :=
          (setupNewProcess_returns_iff hm helf (hframes elf helf) hoff).2 hloads
        exact ⟨r.1, r.2, hr, fun _ => hsegment⟩
  · intro hoff hreturns elf helf
    obtain ⟨proc, m', h, -⟩ := id hreturns
    exact ⟨hfound elf helf hreturns, hoff elf helf,
      (setupNewProcess_returns_iff hm helf (hframes elf helf) (hoff elf helf)).1 ⟨_, h⟩⟩
  · intro hreturns elf helf
    refine ⟨hfound elf helf hreturns, ?_⟩
    obtain ⟨proc, m', h, -⟩ := hreturns
    rcases setupNewProcess_cases h with
      ⟨hnone, -, -⟩ | ⟨f, elf', t, vm, m1, m2, hfile, helf', -, -, -, hro, hrw⟩
    · cases helf.symm.trans hnone
    · cases hfile
      cases helf.symm.trans helf'
      rintro seg (rfl | rfl) i hi
      · exact loadSegment_inFile hro i (Nat.zero_le i) (by omega)
      · exact loadSegment_inFile hrw i (Nat.zero_le i) (by omega)

end

/-! ## Three files -/

theorem sampleProgram_accepted {elf : ElfInfo} (h : acceptedElf (some sampleProgram.file) = some elf) :
    elf = ⟨0xFFFF800000000000#64, ⟨0, 0, 0, 0⟩, ⟨120, 4100, 3, 0xFFFF800000000000#64⟩⟩ := by
  obtain ⟨r, ⟨entry, ro, rw⟩, hparse, hentry, hupper, hrw, hro⟩ :=
    sampleProgram_supported.parse sampleProgram.file_stores
  have helf : ⟨entry, ro, rw⟩ = elf := by
    simpa [acceptedElf, hparse, Except.toOption, hupper] using h
  rw [sampleProgram_headers] at hrw hro
  have hentry : entry = 0xFFFF800000000000#64 := by
    rw [show entry = _ from hentry]
    decide +kernel
  rw [← helf, hentry, show rw = _ from hrw, show ro = _ from hro]
  rfl

theorem setupReturns_iff_sampleProgram : SetupReturns samplePool sampleProgram sampleMemory := by
  refine (setupReturns_iff sampleMemory_invariant fun elf helf => ?_).1 fun elf helf => ?_
  · obtain rfl := sampleProgram_accepted helf
    decide +kernel
  · obtain rfl := sampleProgram_accepted helf
    exact ⟨by decide +kernel, by decide +kernel, by decide +kernel⟩

/-- A program of which all but eight bytes are missing. -/
def truncatedProgram : FileImage := programFile 128 0xFFFF800000000000 120 0xFFFF800000000000 4096 4096

/-- An executable with a note and no segment. -/
def noteProgram : FileImage where
  size := 120
  byte k :=
    ([0x7f, 0x45, 0x4c, 0x46, 2, 1, 1, 0, 0, 0, 0, 0, 0, 0, 0, 0] ++ leBytes 2 2 ++ leBytes 62 2 ++
      leBytes 1 4 ++ leBytes 0xFFFF800000000000 8 ++ leBytes 64 8 ++ leBytes 0 8 ++ leBytes 0 4 ++
      leBytes 64 2 ++ leBytes 56 2 ++ leBytes 1 2 ++ leBytes 0 6 ++ leBytes 4 4).getD k 0

/-- The one stops the kernel, and the other becomes a process. -/
theorem truncated_and_note_not_setupReturns :
    ¬ SetupReturns samplePool truncatedProgram sampleMemory ∧
      ¬ SetupReturns samplePool noteProgram sampleMemory := by
  constructor
  · have hfails : (setupNewProcess samplePool (some truncatedProgram.file) sampleMemory).toOption.isNone
        = true := by decide +kernel
    rintro ⟨proc, m', h, -⟩
    rw [h] at hfails
    cases hfails
  · have hprocess : (setupNewProcess samplePool (some noteProgram.file) sampleMemory).toOption.any
        (fun r => r.1.isSome) = true := by decide +kernel
    rintro ⟨proc, m', h, hproc⟩
    rw [h] at hprocess
    have hnone : ¬ FoundSegment noteProgram.file := by decide +kernel
    refine hnone (hproc ?_)
    rintro rfl
    cases hprocess

end Kudos
