import Kudos.Proc.ElfHeaders
import Kudos.Proc.ProcessIsolation
import Kudos.Vm.PageEntries
import Kudos.Vm.TableSupply

set_option autoImplicit false

/-! # The permissions of the pages of a program

`setup_new_process` maps the pages of the read-only segment once more in the end, without `PAGE_WRITE`.
But `vm_map` writes `PAGE_WRITE` to every entry, so they stay writable, and a program has the permissions
that its file asks for only if it has no read-only segment (`vmMap_permissions`). The pages of the other
segment and of the stack can be used by the program unless they are under entries of the kernel that are
not for users. -/

namespace Kudos

open Radix

/-- An entry that allows the program to write. -/
def UserWritable (e : BitVec 64) : Prop := Writable e ∧ e &&& pageUser.setWidth 64 ≠ 0

/-- The pages that a program writes to. -/
def ElfInfo.writablePages (elf : ElfInfo) : List (BitVec 64) :=
  stackPages ++ elf.rw.pagesFrom 0 elf.rw.count

/-- The permissions that the segments ask for: no page of the read-only segment is writable, and on the
    way to a page of the other one or of the stack, all entries allow the program to write. -/
structure ElfInfo.Permitted (elf : ElfInfo) (s : VmState) (root : BitVec 64) : Prop where
  readOnly : ∀ va ∈ elf.ro.pagesFrom 0 elf.ro.count, ∃ e, leafEntry s root va = some e ∧ ¬ Writable e
  upper : ∀ va ∈ elf.writablePages, ∀ w ∈ upperLevels va,
    ∃ e, entryAt s root w.1 w.2 = some e ∧ UserWritable e
  leaf : ∀ va ∈ elf.writablePages, ∃ e, leafEntry s root va = some e ∧ UserWritable e

/-- The entries that the kernel has on the way to a page allow programs to write. -/
def KernelAllows (s : VmState) (va : BitVec 64) : Prop :=
  ∀ w ∈ upperLevels va, ∀ e, entryAt s s.kernelPml4 w.1 w.2 = some e → UserWritable e

/-! ## The steps of loading -/

/-- From one state of the page tables to another, free frames are mapped for the program at the given
    pages of `t`, or written to. -/
inductive LoadRun (pool : PtPool) (m0 : KernelMemory) (t : BitVec 64) :
    VmState → Set (BitVec 64) → VmState → Prop
  | refl (vm : VmState) : LoadRun pool m0 t vm ∅ vm
  | map {vm vm' vm'' : VmState} {pages : Set (BitVec 64)} {pa va : BitVec 64} {flags : BitVec 32}
      (run : LoadRun pool m0 t vm pages vm') (free : FreeFrame m0 pa)
      (user : flags = pageUser ∨ flags = pageUser ||| 2#32)
      (mapped : vmMap pool vm' t pa va flags = .ok vm'') : LoadRun pool m0 t vm (insert va pages) vm''
  | write {vm vm' : VmState} {pages : Set (BitVec 64)} {q : BitVec 64} (words : ℕ → BitVec 64)
      (run : LoadRun pool m0 t vm pages vm') (free : FreeFrame m0 q) :
      LoadRun pool m0 t vm pages (setPage vm' q words)

section

variable {pool : PtPool} {m0 m m' : KernelMemory} {live : BitVec 64 → Prop} {t : BitVec 64}
  {vm vm' vm'' : VmState} {pages pages' : Set (BitVec 64)}

theorem LoadRun.trans (h : LoadRun pool m0 t vm pages vm') (h' : LoadRun pool m0 t vm' pages' vm'') :
    LoadRun pool m0 t vm (pages ∪ pages') vm'' := by
  induction h' with
  | refl =>
      rw [Set.union_empty]
      exact h
  | map run free user mapped ih =>
      rw [Set.union_insert]
      exact ih.map free user mapped
  | write words run free ih => exact ih.write words free

variable (hreserved : pool.Reserved m0)

include hreserved

/-- Writes to a page of the new address space are writes to free frames. -/
theorem Loading.writeUser_run (h : Loading pool m0 live t vm) {va pa : BitVec 64} {bytes : List UInt8}
    (hwalk : walk vm t va = some pa) (hpa : FreeFrame m0 pa) (hspill : NoSpill m0 va)
    (hlen : bytes.length ≤ 4096) (hwrite : Kudos.writeUser vm t va bytes = .ok vm') :
    LoadRun pool m0 t vm ∅ vm' := by
  obtain ⟨q, words, q', words', hq, hq', heq, -, -⟩ :=
    h.writeUser hreserved hwalk hpa (h.spill hspill) hlen hwrite
  have hfirst : LoadRun pool m0 t vm ∅ (Kudos.setPage vm q words) := (LoadRun.refl vm).write words hq
  rcases heq with rfl | rfl
  · exact hfirst
  · exact hfirst.write words' hq'

theorem mapZeroedPage_run {va physPage : BitVec 64} (h : Loading pool m0 live t m.vm)
    (hfree : ∀ f, m.phys.Free f → m0.phys.Free f) (hspill : NoSpill m0 va)
    (hmap : mapZeroedPage pool t va m = .ok (physPage, m')) : LoadRun pool m0 t m.vm {va} m'.vm := by
  obtain ⟨f, vm1, -, -, hf, -, rfl, hvm, hzero⟩ := mapZeroedPage_cases hmap
  have hframe : FreeFrame m0 (BitVec.ofNat 64 (f * 4096)) := ⟨f, hfree f hf, rfl⟩
  obtain ⟨h1, -, hwalk⟩ := h.vmMap hframe (by decide) hvm
  have hwrite := h1.writeUser_run hreserved hwalk hframe hspill (by rw [List.length_replicate]) hzero
  have hrun := ((LoadRun.refl m.vm).map hframe (Or.inr rfl) hvm).trans hwrite
  rwa [Set.union_empty, insert_empty_eq] at hrun

theorem loadStack_run {n i : ℕ} (h : Loading pool m0 live t m.vm)
    (hfree : ∀ f, m.phys.Free f → m0.phys.Free f) (hload : loadStack pool t n i m = .ok m') :
    LoadRun pool m0 t m.vm {v | v ∈ (List.range' i n).map stackPage} m'.vm := by
  induction n generalizing i m with
  | zero =>
      cases hload
      simpa using LoadRun.refl m'.vm
  | succ n ih =>
      obtain ⟨physPage, m1, hmap, hrest⟩ := loadStack_succ hload
      have hspill : NoSpill m0 (stackPage i) := Or.inl (stackPage_aligned i)
      obtain ⟨h1, -, -⟩ := mapZeroedPage_spec hreserved h hfree hspill hmap
      have hrun := (mapZeroedPage_run hreserved h hfree hspill hmap).trans (ih h1.loading h1.free hrest)
      rwa [List.range'_succ, List.map_cons, List.setOfPred_mem_cons, Set.insert_eq]

theorem loadSegment_run {file : Executable} {seg : Segment} {readOnly : Bool} {n i : ℕ}
    (h : Loading pool m0 live t m.vm) (hfree : ∀ f, m.phys.Free f → m0.phys.Free f)
    (hspill : ∀ v ∈ seg.pagesFrom i n, NoSpill m0 v)
    (hload : loadSegment pool file t seg readOnly n i m = .ok m') :
    LoadRun pool m0 t m.vm {v | v ∈ seg.pagesFrom i n} m'.vm := by
  induction n generalizing i m with
  | zero =>
      cases hload
      simpa [Segment.pagesFrom] using LoadRun.refl m'.vm
  | succ n ih =>
      rw [seg.pagesFrom_succ, List.forall_mem_append, List.forall_mem_singleton] at hspill
      obtain ⟨physPage, m1, vm2, vm3, hmap, hfill, hagain, hrest⟩ := loadSegment_succ hload
      obtain ⟨h1, hframe, hwalk⟩ := mapZeroedPage_spec hreserved h hfree hspill.1 hmap
      obtain ⟨h2, -⟩ := fillPage_spec hreserved h1.loading hwalk hframe hspill.1 hfill
      have hfilled : LoadRun pool m0 t m.vm {seg.page i} vm2 := by
        have hmapped := mapZeroedPage_run hreserved h hfree hspill.1 hmap
        rcases fillPage_cases hfill with rfl | ⟨bytes, hlen, hwrite⟩
        · exact hmapped
        · have hrun := h1.loading.writeUser_run hreserved hwalk hframe hspill.1 hlen hwrite
          rw [← Set.union_empty {seg.page i}]
          exact hmapped.trans hrun
      have hpage : LoadRun pool m0 t m.vm {seg.page i} vm3 ∧ Loading pool m0 live t vm3 := by
        rcases hagain with rfl | hro
        · exact ⟨hfilled, h2⟩
        · refine ⟨?_, (h2.vmMap hframe (by decide) hro).1⟩
          have hrun := hfilled.map hframe (Or.inl rfl) hro
          rwa [Set.insert_eq_of_mem (Set.mem_singleton _)] at hrun
      have hrun := hpage.1.trans (ih (m := ⟨vm3, m1.phys⟩) hpage.2 h1.free hspill.2 hrest)
      rwa [seg.pagesFrom_succ, List.singleton_append, List.setOfPred_mem_cons, Set.insert_eq]

end

/-! ## Permissions during loading -/

/-- The entries on the ways of the new address space are those of the kernel, and others that allow the
    program to write. The entries of the given pages allow it as well. -/
structure Opened (m0 : KernelMemory) (t : BitVec 64) (pages : Set (BitVec 64)) (vm : VmState) : Prop where
  kept : ∀ way i e, way.length ≤ 2 → entryAt m0.vm m0.vm.kernelPml4 way i = some e →
    entryAt vm t way i = some e
  new : ∀ way i e, way.length ≤ 2 → entryAt vm t way i = some e →
    entryAt m0.vm m0.vm.kernelPml4 way i = some e ∨ UserWritable e
  leaf : ∀ va ∈ pages, ∃ e, leafEntry vm t va = some e ∧ UserWritable e

theorem userWritable_entryFlags {flags : BitVec 32} (h : flags = pageUser ∨ flags = pageUser ||| 2#32)
    (x : BitVec 64) : UserWritable (x ||| entryFlags flags) := by
  refine ⟨writable_entryFlags x flags, fun hzero => ?_⟩
  have hbit := congrArg (BitVec.getLsbD · 2) hzero
  rcases h with rfl | rfl <;> simp [entryFlags, pageWrite, pagePresent, pageUser] at hbit

/-- The kernel has no entries for the page. -/
theorem kernelAllows_of_empty {s : VmState} {va : BitVec 64} (h : ¬ KernelSlot s va) :
    KernelAllows s va := by
  rw [kernelSlot_iff, not_not] at h
  intro w hw e he
  have hfirst : entryAt s s.kernelPml4 [] (vmmIndexPml4 va) = none := presentEntry_none.2 h
  simp only [upperLevels, List.mem_cons, List.not_mem_nil, or_false] at hw
  rcases hw with rfl | rfl | rfl
  · cases hfirst.symm.trans he
  · obtain ⟨e', he'⟩ := entryAt_prefix [] _ [] he
    cases hfirst.symm.trans he'
  · obtain ⟨e', he'⟩ := entryAt_prefix [] _ [vmmIndexPdp va] he
    cases hfirst.symm.trans he'

section

variable {pool : PtPool} {m0 : KernelMemory} {live : BitVec 64 → Prop} {t : BitVec 64}
  {vm vm' : VmState} {pages pages' : Set (BitVec 64)}

theorem Opened.vmMap (h : Opened m0 t pages vm) (hloading : Loading pool m0 live t vm)
    {pa va : BitVec 64} {flags : BitVec 32} (huser : flags = pageUser ∨ flags = pageUser ||| 2#32)
    (hmap : vmMap pool vm t pa va flags = .ok vm') : Opened m0 t (insert va pages) vm' := by
  have hflags : flags.toNat < 4096 := by
    rcases huser with rfl | rfl <;> decide
  obtain ⟨hleaf, hentries⟩ := vmMap_entryAt hloading.tables (Or.inr rfl) hflags hmap
  have hopen := userWritable_entryFlags huser
  have hlast : ∀ way : List ℕ, way.length ≤ 2 → way ≠ tablePath va := by
    rintro way hway rfl
    simp [tablePath] at hway
  refine ⟨?_, ?_, ?_⟩
  · intro way i e hway he
    have hold := h.kept way i e hway he
    rcases hentries way i (by omega) with hsame | ⟨x, -, hnone | hway'⟩
    · rw [hsame, hold]
    · cases hold.symm.trans hnone
    · exact absurd hway' (hlast way hway)
  · intro way i e hway he
    rcases hentries way i (by omega) with hsame | ⟨x, hnew, -⟩
    · exact h.new way i e hway (hsame.symm.trans he)
    · cases hnew.symm.trans he
      exact Or.inr (hopen x)
  · intro v hv
    rcases hv with rfl | hv
    · exact ⟨_, hleaf, hopen pa⟩
    · rcases hentries (tablePath v) (vmmIndexPtable v) le_rfl with hsame | ⟨x, hnew, -⟩
      · obtain ⟨e, he, hopen'⟩ := h.leaf v hv
        exact ⟨e, hsame.trans he, hopen'⟩
      · exact ⟨_, hnew, hopen x⟩

theorem Opened.setPage (h : Opened m0 t pages vm) (hloading : Loading pool m0 live t vm)
    {q : BitVec 64} (hq : OffPool pool q) (words : ℕ → BitVec 64) :
    Opened m0 t pages (setPage vm q words) := by
  have hsame : ∀ way i, way.length ≤ 3 → entryAt (Kudos.setPage vm q words) t way i = entryAt vm t way i :=
    fun way i => entryAt_setTable (fun hnode => hloading.tables.ne_of_offPool hq hnode rfl) (Or.inr rfl) words
  refine ⟨?_, ?_, ?_⟩
  · intro way i e hway he
    rw [hsame way i (by omega)]
    exact h.kept way i e hway he
  · intro way i e hway he
    rw [hsame way i (by omega)] at he
    exact h.new way i e hway he
  · intro v hv
    unfold leafEntry
    rw [hsame _ _ le_rfl]
    exact h.leaf v hv

/-- **The permissions after loading.** -/
theorem LoadRun.opened (run : LoadRun pool m0 t vm pages' vm') (hloading : Loading pool m0 live t vm)
    (hreserved : pool.Reserved m0)
    (h : Opened m0 t pages vm) :
    Loading pool m0 live t vm' ∧ Opened m0 t (pages' ∪ pages) vm' := by
  induction run with
  | refl =>
      rw [Set.empty_union]
      exact ⟨hloading, h⟩
  | map run free user mapped ih =>
      rw [Set.insert_union]
      refine ⟨(ih.1.vmMap free ?_ mapped).1, ih.2.vmMap ih.1 user mapped⟩
      rcases user with rfl | rfl <;> decide
  | write words run free ih =>
      obtain ⟨f, hf, rfl⟩ := free
      exact ⟨(ih.1.setPage ⟨f, hf, rfl⟩ hreserved words).1, ih.2.setPage ih.1 (hreserved f hf) words⟩

/-- All entries for a page allow the program to write if those of the kernel do. -/
theorem Opened.upper_iff (h : Opened m0 t pages vm) {va : BitVec 64} (hva : va ∈ pages) :
    (∀ w ∈ upperLevels va, ∃ e, entryAt vm t w.1 w.2 = some e ∧ UserWritable e) ↔
      KernelAllows m0.vm va := by
  have hlen : ∀ w ∈ upperLevels va, w.1.length ≤ 2 := by simp [upperLevels]
  obtain ⟨leaf, hleaf, -⟩ := h.leaf va hva
  constructor
  · intro hall w hw e he
    obtain ⟨e', he', hopen⟩ := hall w hw
    cases he'.symm.trans (h.kept _ _ e (hlen w hw) he)
    exact hopen
  · intro hallows w hw
    obtain ⟨e, he⟩ := leafEntry_upper hleaf hw
    refine ⟨e, he, ?_⟩
    rcases h.new _ _ e (hlen w hw) he with hkernel | hopen
    · exact hallows w hw e hkernel
    · exact hopen

end

/-! ## The whole call -/

/-- The flags have `PAGE_WRITE`. -/
def WriteFlag (flags : BitVec 32) : Prop := flags &&& 2#32 ≠ 0

instance (flags : BitVec 32) : Decidable (WriteFlag flags) := inferInstanceAs (Decidable (_ ≠ _))

/-- The entry of a page is writable exactly if that is what the flags say. -/
def LeafFollowsFlags (s : VmState) (root va : BitVec 64) (flags : BitVec 32) : Prop :=
  ∃ e, leafEntry s root va = some e ∧ (Writable e ↔ WriteFlag flags)

/-- The permissions of the pages after a call that has loaded a program. -/
theorem setupNewProcess_opened {pool : PtPool} {file : Option Executable} {m m' : KernelMemory}
    {spaces : List (BitVec 64)} {proc : NewProcess} {elf : ElfInfo} (hm : MemoryInvariant pool m spaces)
    (h : setupNewProcess pool file m = .ok (some proc, m')) (helf : acceptedElf file = some elf)
    (hspill : ∀ va ∈ elf.segmentPages, NoSpill m va) :
    ∃ pages, (∀ va ∈ elf.segmentPages, va ∈ pages) ∧ (∀ va ∈ stackPages, va ∈ pages) ∧
      Opened m proc.pagetable pages m'.vm := by
  rcases setupNewProcess_cases h with
    ⟨-, hproc, -⟩ | ⟨f, elf', t, vm, m1, m2, -, helf', hproc, hcreate, hstack, hro, hrw⟩
  · cases hproc
  · rw [helf] at helf'
    cases helf'
    cases hproc
    unfold ElfInfo.segmentPages at hspill
    rw [List.forall_mem_append] at hspill
    have hspec := vmCreatePagetable_spec hm.tables.tables hcreate
    have hcreated : Opened m t ∅ vm := by
      have hsame : ∀ way i, way.length ≤ 2 → entryAt vm t way i = entryAt m.vm m.vm.kernelPml4 way i :=
        fun way i hway => vmCreatePagetable_entryAt hm.tables.tables hcreate (by omega)
      refine ⟨?_, ?_, by simp⟩
      · intro way i e hway he
        rw [hsame way i hway, he]
      · intro way i e hway he
        exact Or.inl ((hsame way i hway).symm.trans he)
    have h1 := loadStack_spec (m := ⟨vm, m.phys⟩) hm.reserved hspec.loading (fun _ hf => hf) hstack
    have h2 := loadSegment_spec hm.reserved h1.loading h1.free hspill.1 hro
    have run1 := loadStack_run (m := ⟨vm, m.phys⟩) hm.reserved hspec.loading (fun _ hf => hf) hstack
    have run2 := loadSegment_run hm.reserved h1.loading h1.free hspill.1 hro
    have run3 := loadSegment_run hm.reserved h2.loading h2.free hspill.2 hrw
    refine ⟨_, ?_, ?_, ((run1.trans (run2.trans run3)).opened hspec.loading hm.reserved hcreated).2⟩
    · intro va hva
      exact Or.inl (Or.inr (List.mem_append.1 hva))
    · intro va hva
      exact Or.inl (Or.inl hva)

/-- **Which permissions pages get.** The entry that `vm_map` writes follows the flags only if they have
    `PAGE_WRITE`. A loaded program has the permissions that its segments ask for if no page of it is
    read-only and the entries of the kernel do not stand in the way, and only then. This is for segments
    whose pages do not reach over to entries of the kernel. -/
theorem vmMap_permissions {pool : PtPool} :
    (∀ (s s' : VmState) (live : BitVec 64 → Prop) (k p pa va : BitVec 64) (flags : BitVec 32),
      VmInvariant pool s live k → live p → flags.toNat < 4096 → vmMap pool s p pa va flags = .ok s' →
        (LeafFollowsFlags s' p va flags ↔ WriteFlag flags)) ∧
    ∀ (file : Option Executable) (m m' : KernelMemory) (spaces : List (BitVec 64)) (proc : NewProcess)
      (elf : ElfInfo), MemoryInvariant pool m spaces →
      setupNewProcess pool file m = .ok (some proc, m') → acceptedElf file = some elf →
        (elf.ro.count = 0 → (∀ va ∈ elf.writablePages, KernelAllows m.vm va) →
          (∀ va ∈ elf.rw.pagesFrom 0 elf.rw.count, NoSpill m va) →
          elf.Permitted m'.vm proc.pagetable) ∧
        ((∀ va ∈ elf.segmentPages, NoSpill m va) → elf.Permitted m'.vm proc.pagetable →
          elf.ro.count = 0 ∧ ∀ va ∈ elf.writablePages, KernelAllows m.vm va) := by
  refine ⟨?_, ?_⟩
  · intro s s' live k p pa va flags h hp hflags hmap
    have hleaf := (vmMap_entryAt h hp hflags hmap).1
    have hwritable := writable_entryFlags pa flags
    constructor
    · rintro ⟨e, he, hiff⟩
      cases hleaf.symm.trans he
      exact hiff.1 hwritable
    · intro hflag
      exact ⟨_, hleaf, iff_of_true hwritable hflag⟩
  · intro file m m' spaces proc elf hm h helf
    constructor
    · intro hro hallows hspill
      have hnone : elf.ro.pagesFrom 0 elf.ro.count = [] := by rw [hro]; rfl
      have hpages : elf.segmentPages = elf.rw.pagesFrom 0 elf.rw.count := by
        unfold ElfInfo.segmentPages
        rw [hnone, List.nil_append]
      rw [← hpages] at hspill
      obtain ⟨pages, hsegments, hstack, hopened⟩ := setupNewProcess_opened hm h helf hspill
      have hmem : ∀ va ∈ elf.writablePages, va ∈ pages := by
        intro va hva
        rcases List.mem_append.1 hva with hva | hva
        · exact hstack va hva
        · exact hsegments va (hpages ▸ hva)
      refine ⟨by simp [hnone], ?_, fun va hva => hopened.leaf va (hmem va hva)⟩
      exact fun va hva => (hopened.upper_iff (hmem va hva)).2 (hallows va hva)
    · intro hspill hpermitted
      obtain ⟨pages, hsegments, hstack, hopened⟩ := setupNewProcess_opened hm h helf hspill
      constructor
      · -- the entry of a read-only page would be writable
        by_contra hro
        have hfirst : elf.ro.page 0 ∈ elf.ro.pagesFrom 0 elf.ro.count :=
          List.mem_map_of_mem (List.mem_range'_1.2 ⟨le_rfl, by omega⟩)
        obtain ⟨e, he, hnot⟩ := hpermitted.readOnly _ hfirst
        obtain ⟨e', he', hopen⟩ := hopened.leaf _ (hsegments _ (List.mem_append_left _ hfirst))
        cases he.symm.trans he'
        exact hnot hopen.1
      · intro va hva
        have hmem : va ∈ pages := by
          rcases List.mem_append.1 hva with hva | hva
          · exact hstack va hva
          · exact hsegments va (List.mem_append_right _ hva)
        exact (hopened.upper_iff hmem).1 (hpermitted.upper va hva)

/-- A page mapped for the program to write, and a program with a writable segment only. -/
theorem vmMap_permissions_upperFile :
    (∃ s', vmMap samplePool bootVm bootVm.kernelPml4 0x781000#64 0x40000000#64 (pageUser ||| 2#32) = .ok s' ∧
      LeafFollowsFlags s' bootVm.kernelPml4 0x40000000#64 (pageUser ||| 2#32)) ∧
    ∃ proc m' elf, setupNewProcess samplePool upperFile sampleMemory = .ok (some proc, m') ∧
      acceptedElf upperFile = some elf ∧ elf.Permitted m'.vm proc.pagetable := by
  refine ⟨?_, ?_⟩
  · have hrun : (vmMap samplePool bootVm bootVm.kernelPml4 0x781000#64 0x40000000#64
        (pageUser ||| 2#32)).toOption.isSome = true := by decide +kernel
    have hboot := vmInit_invariant vmInit_bootVm
    generalize bootVm = s at hrun hboot ⊢
    obtain ⟨s', hs'⟩ := Option.isSome_iff_exists.1 hrun
    have hok := Transition.eq_ok_of_toOption hs'
    exact ⟨s', hok, (vmMap_permissions.1 _ _ _ _ _ _ _ _ hboot rfl (by decide) hok).2 (by decide)⟩
  · have hrun : ((setupNewProcess samplePool upperFile sampleMemory).toOption.bind Prod.fst).isSome = true := by
      decide +kernel
    obtain ⟨proc, hproc⟩ := Option.isSome_iff_exists.1 hrun
    obtain ⟨r, hr, hsome⟩ := Option.bind_eq_some_iff.1 hproc
    have hok := Transition.eq_ok_of_toOption hr
    rw [show r = (some proc, r.2) from Prod.ext hsome rfl] at hok
    have hfile : (acceptedElf upperFile).map (fun elf => (elf.ro.count, elf.rw.pagesFrom 0 elf.rw.count))
        = some (0, [0xFFFF800000000000#64]) := by decide +kernel
    obtain ⟨elf, helf, hpages⟩ := Option.map_eq_some_iff.1 hfile
    obtain ⟨hro, hrw⟩ := Prod.mk.inj hpages
    refine ⟨proc, r.2, elf, hok, helf,
      (vmMap_permissions.2 _ _ _ [] _ _ sampleMemory_invariant hok helf).1 hro ?_ ?_⟩
    · have hslots : ¬ KernelSlot sampleMemory.vm (stackPage 0) ∧
          ¬ KernelSlot sampleMemory.vm 0xFFFF800000000000#64 := by
        unfold KernelSlot
        decide +kernel
      unfold ElfInfo.writablePages
      rw [hrw]
      intro va hva
      rcases List.mem_append.1 hva with hva | hva
      · obtain rfl := List.mem_singleton.1 hva
        exact kernelAllows_of_empty hslots.1
      · obtain rfl := List.mem_singleton.1 hva
        exact kernelAllows_of_empty hslots.2
    · rw [hrw]
      intro va hva
      obtain rfl := List.mem_singleton.1 hva
      exact Or.inl rfl

/-- A 64-bit executable with a page of code, which is read-only, and a page of data. -/
def codeAndData : Option Executable :=
  some <| contentFile <| [0x7f, 0x45, 0x4c, 0x46, 2, 1, 1, 0, 0, 0, 0, 0, 0, 0, 0, 0] ++ leBytes 2 2 ++
    leBytes 62 2 ++ leBytes 1 4 ++ leBytes 0xFFFF800000000000 8 ++ leBytes 64 8 ++ leBytes 0 8 ++
    leBytes 0 4 ++ leBytes 64 2 ++ leBytes 56 2 ++ leBytes 2 2 ++ leBytes 0 6 ++
    loadBytes 5 0xFFFF800000000000 ++ loadBytes 6 0xFFFF800000001000

theorem codeAndData_pages :
    (acceptedElf codeAndData).map (fun elf => (elf.ro.pagesFrom 0 elf.ro.count,
      elf.rw.pagesFrom 0 elf.rw.count)) = some ([0xFFFF800000000000#64], [0xFFFF800000001000#64]) ∧
    (setupNewProcess samplePool codeAndData sampleMemory).toOption.bind (fun r => r.1.bind fun proc =>
      leafEntry r.2.vm proc.pagetable 0xFFFF800000000000#64) = some 0x781007#64 := by
  decide +kernel

/-- Its code is writable. -/
theorem codeAndData_writable : ∃ proc m' elf,
    setupNewProcess samplePool codeAndData sampleMemory = .ok (some proc, m') ∧
      acceptedElf codeAndData = some elf ∧
      (∀ va ∈ elf.ro.pagesFrom 0 elf.ro.count, va ∉ elf.rw.pagesFrom 0 elf.rw.count) ∧
      ¬ elf.Permitted m'.vm proc.pagetable := by
  obtain ⟨hpages, hleaf⟩ := codeAndData_pages
  obtain ⟨elf, helf, hpages⟩ := Option.map_eq_some_iff.1 hpages
  obtain ⟨hro, hrw⟩ := Prod.mk.inj hpages
  obtain ⟨r, hr, hproc⟩ := Option.bind_eq_some_iff.1 hleaf
  obtain ⟨proc, hsome, hentry⟩ := Option.bind_eq_some_iff.1 hproc
  have hok := Transition.eq_ok_of_toOption hr
  rw [show r = (some proc, r.2) from Prod.ext hsome rfl] at hok
  refine ⟨proc, r.2, elf, hok, helf, ?_, fun hpermitted => ?_⟩
  · rw [hro, hrw]
    simp
  · obtain ⟨e, he, hnot⟩ := hpermitted.readOnly 0xFFFF800000000000#64 (by rw [hro]; exact List.mem_singleton_self _)
    cases hentry.symm.trans he
    exact hnot (by decide)

end Kudos
