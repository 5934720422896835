import Kudos.Proc.Process
import Kudos.Vm.AddressSpace
import Kudos.Vm.PhysmemSafety

set_option autoImplicit false

/-! # What loading a program does to other address spaces

The first level of the new table is a copy of that of the kernel, so the tables below its present
entries are the kernel's own, and every address space has them. `setup_new_process` maps the pages of
the segments wherever the file says. Under a present entry of the kernel that changes the translations
of all, and under any other it changes those of the new process only (`Effect`).

What is written to the pages goes to frames of the new process, which hold no page table, unless a
segment does not start at a page and its last bytes come to lie under an entry of the kernel. -/

namespace Kudos

open Radix

/-! ## The memory before the call -/

/-- No free frame is a table of the pool. -/
def PtPool.Reserved (pool : PtPool) (m : KernelMemory) : Prop :=
  ∀ f, m.phys.Free f → ∀ i < vmPtpSize, BitVec.ofNat 64 (f * 4096) ≠ pool.table i

/-- The page tables are in order, and the frames that are free are not in the pool. -/
structure MemoryInvariant (pool : PtPool) (m : KernelMemory) (spaces : List (BitVec 64)) : Prop where
  tables : VmSystem.Invariant pool ⟨m.vm, spaces⟩
  reserved : pool.Reserved m

/-- The memory of a kernel that has just been booted, with the pool in the static memory. -/
theorem memoryInvariant_boot {pool : PtPool} {mb : MultibootInfo} {lastAddress : ℕ} {phys : PhysState}
    {staticEnd : BitVec 64} {vm0 vm : VmState} (hpool : pool.base + 4096 * vmPtpSize ≤ lastAddress)
    (hphys : physmemInit mb lastAddress = .ok phys) (hvm : vmInit pool staticEnd vm0 = .ok vm) :
    MemoryInvariant pool ⟨vm, phys⟩ [] where
  tables := (VmReachable.boot hvm).invariant
  reserved := by
    intro f hf i hi heq
    have hlast := physmemInit_free hphys hf
    have hnat := congrArg BitVec.toNat heq
    have hword : 8 * (f / 64) + 8 ≤ mb.totalBlocks / 8 := by
      have := hf.2.1
      unfold PhysState.HasWord at this
      rwa [physmemInit_bitmapSize hphys] at this
    have htotal := mb.totalBlocks_lt
    rw [pool.toNat_table hi, BitVec.toNat_ofNat, Nat.mod_eq_of_lt (by omega)] at hnat
    omega

/-! ## During the call -/

/-- The entry of the first level for `va` is one that the kernel has. -/
def KernelSlot (s : VmState) (va : BitVec 64) : Prop :=
  s.tables s.kernelPml4 (vmmIndexPml4 va) &&& pagePresent ≠ 0

theorem kernelSlot_iff (s : VmState) (va : BitVec 64) :
    KernelSlot s va ↔ s.pointers s.kernelPml4 (vmmIndexPml4 va) ≠ none := by
  unfold KernelSlot VmState.pointers entryTarget
  split
  · next h => exact iff_of_true h (by simp)
  · next h => exact iff_of_false h (by simp)

/-- A frame that was free before the call. -/
def FreeFrame (m0 : KernelMemory) (pa : BitVec 64) : Prop :=
  ∃ f, m0.phys.Free f ∧ pa = BitVec.ofNat 64 (f * 4096)

theorem FreeFrame.aligned {m0 : KernelMemory} {pa : BitVec 64} (h : FreeFrame m0 pa) :
    PageAligned pa := by
  obtain ⟨f, -, rfl⟩ := h
  unfold PageAligned
  rw [BitVec.toNat_ofNat]
  omega

/-- The bytes of a page from `va` on do not reach an entry of the kernel beyond the page of `va`. -/
def NoSpill (m0 : KernelMemory) (va : BitVec 64) : Prop :=
  PageAligned va ∨ ¬ KernelSlot m0.vm (nextPage va)

/-- The page tables while the new address space `t` is set up. -/
structure Loading (pool : PtPool) (m0 : KernelMemory) (live : BitVec 64 → Prop) (t : BitVec 64)
    (vm : VmState) : Prop where
  base : live m0.vm.kernelPml4
  fresh : ¬ live t
  tables : VmInvariant pool vm (fun r => live r ∨ r = t) m0.vm.kernelPml4
  kernel : vm.kernelPml4 = m0.vm.kernelPml4
  entries : ∀ r, live r → ∀ j, vm.pointers r j = m0.vm.pointers r j
  shared : ∀ j, m0.vm.pointers m0.vm.kernelPml4 j ≠ none →
    vm.pointers t j = m0.vm.pointers m0.vm.kernelPml4 j
  own : ∀ va, ¬ KernelSlot m0.vm va → ∀ pa, walk vm t va = some pa → FreeFrame m0 pa

/-- What mapping `pages` in the new address space has done to the translations of the others. Those
    under entries of the kernel are now to free frames. -/
structure Effect (m0 : KernelMemory) (live : BitVec 64 → Prop) (vm vm' : VmState)
    (pages : List (BitVec 64)) : Prop where
  other : ∀ r, live r → ∀ va, (∀ v ∈ pages, pageNumber va = pageNumber v → ¬ KernelSlot m0.vm v) →
    walk vm' r va = walk vm r va
  mapped : ∀ v ∈ pages, KernelSlot m0.vm v →
    ∃ pa, FreeFrame m0 pa ∧ walk vm' m0.vm.kernelPml4 v = some pa
  kept : ∀ va, (∃ pa, FreeFrame m0 pa ∧ walk vm m0.vm.kernelPml4 va = some pa) →
    ∃ pa, FreeFrame m0 pa ∧ walk vm' m0.vm.kernelPml4 va = some pa

section

variable {pool : PtPool} {m0 : KernelMemory} {live : BitVec 64 → Prop} {t : BitVec 64}
  {vm vm' vm'' : VmState} {pages pages' : List (BitVec 64)}

/-- Nothing is mapped. -/
theorem Effect.nil (h : ∀ r, live r → ∀ va, walk vm' r va = walk vm r va)
    (hk : live m0.vm.kernelPml4) : Effect m0 live vm vm' [] where
  other r hr va _ := h r hr va
  mapped := by simp
  kept va := by rw [h _ hk va]; exact id

theorem Effect.trans (h : Effect m0 live vm vm' pages) (h' : Effect m0 live vm' vm'' pages') :
    Effect m0 live vm vm'' (pages ++ pages') where
  other := by
    intro r hr va hnot
    rw [List.forall_mem_append] at hnot
    rw [h'.other r hr va hnot.2, h.other r hr va hnot.1]
  mapped := by
    intro v hv hslot
    rcases List.mem_append.1 hv with hv | hv
    · exact h'.kept v (h.mapped v hv hslot)
    · exact h'.mapped v hv hslot
  kept := fun va hfree => h'.kept va (h.kept va hfree)

/-- A page is mapped twice. -/
theorem Effect.again {v : BitVec 64} (h : Effect m0 live vm vm' [v])
    (h' : Effect m0 live vm' vm'' [v]) : Effect m0 live vm vm'' [v] where
  other r hr va hnot := (h'.other r hr va hnot).trans (h.other r hr va hnot)
  mapped := h'.mapped
  kept := fun va hfree => h'.kept va (h.kept va hfree)

/-- Another root has the entry for a page in common with the new table only if the kernel has it. -/
theorem Loading.kernelSlot_of_shared (h : Loading pool m0 live t vm) {r : BitVec 64} (hr : live r)
    {va : BitVec 64} (hne : vm.pointers t (vmmIndexPml4 va) ≠ none)
    (heq : vm.pointers r (vmmIndexPml4 va) = vm.pointers t (vmmIndexPml4 va)) :
    KernelSlot m0.vm va := by
  obtain ⟨b, hb⟩ := Option.ne_none_iff_exists'.1 hne
  have htb : follow vm.pointers t [vmmIndexPml4 va] = some b := by simp [follow, hb]
  have hrb : follow vm.pointers r [vmmIndexPml4 va] = some b := by simp [follow, heq, hb]
  rw [kernelSlot_iff]
  rcases (h.tables.forest.unique r t _ _ b (Or.inl hr) (Or.inr rfl) (by simp) (by simp) hrb htb).2 with
    hrt | ⟨j, rest, hpath, -, htj⟩
  · exact absurd (hrt ▸ hr) h.fresh
  · rw [← (List.cons.inj hpath).1, hb] at htj
    rw [← h.entries _ h.base, ← htj]
    simp

/-- One page is mapped to a free frame. -/
theorem Loading.vmMap (h : Loading pool m0 live t vm) {pa va : BitVec 64} {flags : BitVec 32}
    (hpa : FreeFrame m0 pa) (hflags : flags.toNat < 4096)
    (hmap : vmMap pool vm t pa va flags = .ok vm') :
    Loading pool m0 live t vm' ∧ Effect m0 live vm vm' [va] ∧ walk vm' t va = some pa := by
  have hspec := vmMap_spec h.tables (Or.inr rfl) hflags hmap
  have htarget : some ((pa ||| entryFlags flags) &&& pageMask) = some pa := by
    rw [← entryTarget_or, entryTarget_aligned hpa.aligned hflags]
  have hother : ∀ r, live r → ∀ va', (pageNumber va' = pageNumber va → ¬ KernelSlot m0.vm va) →
      walk vm' r va' = walk vm r va' := by
    intro r hr va' hnot
    refine hspec.walk_other r (Or.inl hr) va' ?_
    rintro ⟨hpage, hrt | ⟨hne, heq⟩⟩
    · exact h.fresh (hrt ▸ hr)
    · exact hnot hpage (h.kernelSlot_of_shared hr hne heq)
  have hkernel : ∀ va', pageNumber va' = pageNumber va → KernelSlot m0.vm va →
      walk vm' m0.vm.kernelPml4 va' = some pa := by
    intro va' hpage hslot
    rw [kernelSlot_iff] at hslot
    have hshared := h.shared _ hslot
    rw [← htarget]
    refine hspec.walk_page _ (Or.inl h.base) va' hpage (Or.inr ⟨?_, ?_⟩)
    · rwa [hshared]
    · rw [hshared, h.entries _ h.base]
  have hself : ∀ va', pageNumber va' = pageNumber va → walk vm' t va' = some pa := by
    intro va' hpage
    rw [hspec.walk_page t (Or.inr rfl) va' hpage (Or.inl rfl), htarget]
  refine ⟨⟨h.base, h.fresh, hspec.invariant, hspec.kernel.trans h.kernel, ?_, ?_, ?_⟩, ⟨?_, ?_, ?_⟩,
    hself va rfl⟩
  · intro r hr j
    rw [← h.entries r hr j]
    refine vmMap_entries h.tables (Or.inr rfl) hflags hmap (Or.inl hr) j (Or.inl ?_)
    rintro rfl
    exact h.fresh hr
  · intro j hj
    rw [← h.shared j hj]
    refine vmMap_entries h.tables (Or.inr rfl) hflags hmap (Or.inr rfl) j (Or.inr ?_)
    rwa [h.shared j hj]
  · intro va' hslot pa' hwalk
    by_cases hpage : pageNumber va' = pageNumber va
    · rw [hself va' hpage] at hwalk
      cases hwalk
      exact hpa
    · rw [hspec.walk_other t (Or.inr rfl) va' fun hc => hpage hc.1] at hwalk
      exact h.own va' hslot pa' hwalk
  · intro r hr va' hnot
    exact hother r hr va' (hnot va (List.mem_singleton_self va))
  · intro v hv hslot
    obtain rfl := List.mem_singleton.1 hv
    exact ⟨pa, hpa, hkernel v rfl hslot⟩
  · rintro va' ⟨pa', hpa', hwalk⟩
    by_cases hc : pageNumber va' = pageNumber va ∧ KernelSlot m0.vm va
    · exact ⟨pa, hpa, hkernel va' hc.1 hc.2⟩
    · refine ⟨pa', hpa', ?_⟩
      rw [hother _ h.base va' fun hpage hslot => hc ⟨hpage, hslot⟩, hwalk]

/-! ## Writing to pages -/

/-- A free frame holds no page table, so its contents do not matter. -/
theorem Loading.setPage (h : Loading pool m0 live t vm) {q : BitVec 64} (hq : FreeFrame m0 q)
    (hreserved : pool.Reserved m0)
    (words : ℕ → BitVec 64) :
    Loading pool m0 live t (setPage vm q words) ∧
      ∀ r, live r ∨ r = t → ∀ va, walk (setPage vm q words) r va = walk vm r va := by
  have hnode : ¬ Node vm.pointers (fun r => live r ∨ r = t) 3 q := by
    intro hnode
    obtain ⟨i, hpool, -⟩ := h.tables.marked q hnode
    obtain ⟨f, hf, rfl⟩ := hq
    exact hreserved f hf i hpool.1 hpool.2.2
  have hptr : (Kudos.setPage vm q words).pointers
      = Function.update vm.pointers q fun i => entryTarget (words i) := pointers_setTable vm q words
  have hroot : ∀ r, live r ∨ r = t → (Kudos.setPage vm q words).pointers r = vm.pointers r := by
    intro r hr
    rw [hptr]
    exact Forest.update_root hnode _ hr
  have hwalk : ∀ r, live r ∨ r = t → ∀ va, walk (Kudos.setPage vm q words) r va = walk vm r va := by
    intro r hr va
    unfold walk
    rw [hptr]
    exact Forest.follow_setTable hnode _ hr (by simp [tablePath])
  refine ⟨⟨h.base, h.fresh, ⟨?_, ?_⟩, h.kernel, ?_, ?_, ?_⟩, hwalk⟩
  · rw [hptr]
    exact h.tables.forest.setTable hnode _
  · rintro x ⟨r, path, hr, hlen, hpath⟩
    rw [hptr, Forest.follow_setTable hnode _ hr (Nat.le_succ_of_le hlen)] at hpath
    exact h.tables.marked x ⟨r, path, hr, hlen, hpath⟩
  · intro r hr j
    rw [hroot r (Or.inl hr), h.entries r hr]
  · intro j hj
    rw [hroot t (Or.inr rfl), h.shared j hj]
  · intro va hslot pa hpa
    rw [hwalk t (Or.inr rfl)] at hpa
    exact h.own va hslot pa hpa

variable (hreserved : pool.Reserved m0)

include hreserved

/-- A write within a page that returns. -/
theorem Loading.writePage (h : Loading pool m0 live t vm) {va : BitVec 64} {bytes : List UInt8}
    (hva : ∀ pa, walk vm t va = some pa → FreeFrame m0 pa)
    (hwrite : writePage vm t va bytes = .ok vm') :
    ∃ q words, FreeFrame m0 q ∧ vm' = Kudos.setPage vm q words ∧ Loading pool m0 live t vm' ∧
      ∀ r, live r ∨ r = t → ∀ va', walk vm' r va' = walk vm r va' := by
  unfold Kudos.writePage at hwrite
  split at hwrite
  · split at hwrite
    · next pa hpa =>
        cases hwrite
        exact ⟨pa, _, hva pa hpa, rfl, h.setPage (hva pa hpa) hreserved _⟩
    · cases hwrite
  · cases hwrite

omit hreserved in
theorem Loading.spill (h : Loading pool m0 live t vm) {va : BitVec 64} (hspill : NoSpill m0 va) :
    PageAligned va ∨ ∀ pa, walk vm t (nextPage va) = some pa → FreeFrame m0 pa :=
  hspill.imp id fun hslot => h.own _ hslot

/-- A write to a page in a free frame goes to one free frame, or to two if the next page is in such a
    frame as well. -/
theorem Loading.writeUser (h : Loading pool m0 live t vm) {va pa : BitVec 64} {bytes : List UInt8}
    (hwalk : walk vm t va = some pa) (hpa : FreeFrame m0 pa)
    (hspill : PageAligned va ∨ ∀ pa, walk vm t (nextPage va) = some pa → FreeFrame m0 pa)
    (hlen : bytes.length ≤ 4096) (hwrite : writeUser vm t va bytes = .ok vm') :
    ∃ q words q' words', FreeFrame m0 q ∧ FreeFrame m0 q' ∧
      (vm' = Kudos.setPage vm q words ∨ vm' = Kudos.setPage (Kudos.setPage vm q words) q' words') ∧
      Loading pool m0 live t vm' ∧ ∀ r, live r ∨ r = t → ∀ va', walk vm' r va' = walk vm r va' := by
  unfold Kudos.writeUser at hwrite
  cases hfirst : Kudos.writePage vm t va (bytes.take (4096 - va.toNat % 4096)) with
  | error e =>
      rw [hfirst] at hwrite
      cases hwrite
  | ok vm1 =>
      rw [hfirst] at hwrite
      obtain ⟨q, words, hq, hvm1, h1, hwalk1⟩ := h.writePage hreserved (fun pa' hpa' => by
        rw [hwalk] at hpa'
        cases hpa'
        exact hpa) hfirst
      simp only [bind, Except.bind] at hwrite
      split at hwrite
      · cases hwrite
        exact ⟨q, words, q, words, hq, hq, Or.inl hvm1, h1, hwalk1⟩
      · next hlong =>
          -- there are bytes left, so `va` is not the start of a page
          have hnext : ∀ pa, walk vm1 t (nextPage va) = some pa → FreeFrame m0 pa := by
            rcases hspill with haligned | hnext
            · unfold PageAligned at haligned
              omega
            · intro pa' hpa'
              rw [hwalk1 t (Or.inr rfl)] at hpa'
              exact hnext pa' hpa'
          obtain ⟨q', words', hq', hvm2, h2, hwalk2⟩ := h1.writePage hreserved hnext hwrite
          refine ⟨q, words, q', words', hq, hq', Or.inr ?_, h2, ?_⟩
          · rw [hvm2, hvm1]
          · exact fun r hr va' => (hwalk2 r hr va').trans (hwalk1 r hr va')

/-- The memory during the call, and what has been done since it was `m`. -/
structure Loaded (pool : PtPool) (m0 : KernelMemory) (live : BitVec 64 → Prop) (t : BitVec 64)
    (m m' : KernelMemory) (pages : List (BitVec 64)) : Prop where
  loading : Loading pool m0 live t m'.vm
  free : ∀ f, m'.phys.Free f → m0.phys.Free f
  effect : Effect m0 live m.vm m'.vm pages

omit hreserved in
theorem Loaded.trans {m m' m'' : KernelMemory} (h : Loaded pool m0 live t m m' pages)
    (h' : Loaded pool m0 live t m' m'' pages') : Loaded pool m0 live t m m'' (pages ++ pages') :=
  ⟨h'.loading, h'.free, h.effect.trans h'.effect⟩

omit hreserved in
theorem Loaded.refl {m : KernelMemory} (h : Loading pool m0 live t m.vm)
    (hfree : ∀ f, m.phys.Free f → m0.phys.Free f) : Loaded pool m0 live t m m [] :=
  ⟨h, hfree, .nil (fun _ _ _ => rfl) h.base⟩

omit hreserved in
/-- The steps of a call that returns. -/
theorem mapZeroedPage_cases {m m' : KernelMemory} {va physPage : BitVec 64}
    (hmap : mapZeroedPage pool t va m = .ok (physPage, m')) :
    ∃ f vm1, physmemAllocblock m.phys = .ok (f * 4096, m'.phys) ∧ f * 4096 ≠ 0 ∧ m.phys.Free f ∧
      (∀ g, m'.phys.Free g → m.phys.Free g) ∧ physPage = BitVec.ofNat 64 (f * 4096) ∧
      vmMap pool m.vm t physPage va (pageUser ||| 2#32) = .ok vm1 ∧
      writeUser vm1 t va (List.replicate 4096 0) = .ok m'.vm := by
  unfold mapZeroedPage at hmap
  simp only [bind, Except.bind] at hmap
  split at hmap
  · cases hmap
  · next p halloc =>
      obtain ⟨addr, phys⟩ := p
      obtain ⟨f, rfl, hf, hlater⟩ := physmemAllocblock_free halloc
      simp only at hmap
      split at hmap
      · cases hmap
      · next hne =>
          split at hmap
          · cases hmap
          · next vm1 hvm =>
              split at hmap
              · cases hmap
              · next vm2 hzero =>
                  cases hmap
                  exact ⟨f, vm1, halloc, hne, hf, fun g hg => (hlater g hg).1, rfl, hvm, hzero⟩

theorem mapZeroedPage_spec {m m' : KernelMemory} {va physPage : BitVec 64}
    (h : Loading pool m0 live t m.vm) (hfree : ∀ f, m.phys.Free f → m0.phys.Free f)
    (hspill : NoSpill m0 va) (hmap : mapZeroedPage pool t va m = .ok (physPage, m')) :
    Loaded pool m0 live t m m' [va] ∧ FreeFrame m0 physPage ∧ walk m'.vm t va = some physPage := by
  obtain ⟨f, vm1, -, -, hf, hlater, rfl, hvm, hzero⟩ := mapZeroedPage_cases hmap
  have hframe : FreeFrame m0 (BitVec.ofNat 64 (f * 4096)) := ⟨f, hfree f hf, rfl⟩
  obtain ⟨h1, heffect, hwalk⟩ := h.vmMap hframe (by decide) hvm
  obtain ⟨-, -, -, -, -, -, -, h2, hsame⟩ := h1.writeUser hreserved hwalk hframe (h1.spill hspill)
    (by rw [List.length_replicate]) hzero
  have hnone : Effect m0 live vm1 m'.vm [] := .nil (fun r hr => hsame r (Or.inl hr)) h.base
  exact ⟨⟨h2, fun g hg => hfree g (hlater g hg), heffect.trans hnone⟩, hframe,
    (hsame t (Or.inr rfl) va).trans hwalk⟩

omit hreserved in
/-- A page is filled by at most one write. -/
theorem fillPage_cases {file : Executable} {seg : Segment} {i : ℕ}
    (hfill : fillPage file seg t i vm = .ok vm') :
    vm' = vm ∨ ∃ bytes : List UInt8, bytes.length ≤ 4096 ∧
      writeUser vm t (seg.page i) bytes = .ok vm' := by
  simp only [fillPage] at hfill
  split at hfill
  · split at hfill
    · cases hfill
    · split at hfill
      · next bytes hread =>
          unfold Executable.readAll at hread
          have hlen := Option.filter_eq_some_iff.1 hread
          have hlen : (bytes.length : ℤ) = _ := of_decide_eq_true hlen.2
          exact Or.inr ⟨bytes, by omega, hfill⟩
      · cases hfill
  · cases hfill
    exact Or.inl rfl

theorem fillPage_spec {file : Executable} {seg : Segment} {i : ℕ} {pa : BitVec 64}
    (h : Loading pool m0 live t vm) (hwalk : walk vm t (seg.page i) = some pa) (hpa : FreeFrame m0 pa)
    (hspill : NoSpill m0 (seg.page i)) (hfill : fillPage file seg t i vm = .ok vm') :
    Loading pool m0 live t vm' ∧ ∀ r, live r ∨ r = t → ∀ va', walk vm' r va' = walk vm r va' := by
  rcases fillPage_cases hfill with rfl | ⟨bytes, hlen, hwrite⟩
  · exact ⟨h, fun _ _ _ => rfl⟩
  · obtain ⟨-, -, -, -, -, -, -, h', hsame⟩ := h.writeUser hreserved hwalk hpa (h.spill hspill) hlen hwrite
    exact ⟨h', hsame⟩

/-- The pages of a segment from page `i` on. -/
def Segment.pagesFrom (seg : Segment) (i n : ℕ) : List (BitVec 64) := (List.range' i n).map seg.page

omit hreserved in
theorem Segment.pagesFrom_succ (seg : Segment) (i n : ℕ) :
    seg.pagesFrom i (n + 1) = [seg.page i] ++ seg.pagesFrom (i + 1) n := by
  unfold Segment.pagesFrom
  rw [List.range'_succ, List.map_cons, List.singleton_append]

omit hreserved in
/-- The first round of the loop. A page of the read-only segment is mapped once more, to the same
    frame. -/
theorem loadSegment_succ {file : Executable} {seg : Segment} {readOnly : Bool} {n i : ℕ}
    {m m' : KernelMemory} (hload : loadSegment pool file t seg readOnly (n + 1) i m = .ok m') :
    ∃ physPage m1 vm2 vm3, mapZeroedPage pool t (seg.page i) m = .ok (physPage, m1) ∧
      fillPage file seg t i m1.vm = .ok vm2 ∧
      (vm3 = vm2 ∨ vmMap pool vm2 t physPage (seg.page i) pageUser = .ok vm3) ∧
      loadSegment pool file t seg readOnly n (i + 1) ⟨vm3, m1.phys⟩ = .ok m' := by
  unfold loadSegment at hload
  simp only [bind, Except.bind] at hload
  split at hload
  · cases hload
  · next p hmap =>
      obtain ⟨physPage, m1⟩ := p
      simp only at hload
      split at hload
      · cases hload
      · next vm2 hfill =>
          split at hload
          · split at hload
            · cases hload
            · next vm3 hro => exact ⟨physPage, m1, vm2, vm3, hmap, hfill, Or.inr hro, hload⟩
          · exact ⟨physPage, m1, vm2, vm2, hmap, hfill, Or.inl rfl, hload⟩

theorem loadSegment_spec {file : Executable} {seg : Segment} {readOnly : Bool} {n i : ℕ}
    {m m' : KernelMemory} (h : Loading pool m0 live t m.vm)
    (hfree : ∀ f, m.phys.Free f → m0.phys.Free f) (hspill : ∀ v ∈ seg.pagesFrom i n, NoSpill m0 v)
    (hload : loadSegment pool file t seg readOnly n i m = .ok m') :
    Loaded pool m0 live t m m' (seg.pagesFrom i n) := by
  induction n generalizing i m with
  | zero =>
      cases hload
      exact .refl h hfree
  | succ n ih =>
      rw [seg.pagesFrom_succ, List.forall_mem_append, List.forall_mem_singleton] at hspill
      rw [seg.pagesFrom_succ]
      obtain ⟨physPage, m1, vm2, vm3, hmap, hfill, hagain, hrest⟩ := loadSegment_succ hload
      obtain ⟨h1, hframe, hwalk⟩ := mapZeroedPage_spec hreserved h hfree hspill.1 hmap
      obtain ⟨h2, hsame⟩ := fillPage_spec hreserved h1.loading hwalk hframe hspill.1 hfill
      have hfilled : Loaded pool m0 live t m ⟨vm2, m1.phys⟩ [seg.page i] :=
        h1.trans ⟨h2, h1.free, .nil (fun r hr => hsame r (Or.inl hr)) h.base⟩
      rcases hagain with rfl | hro
      · exact hfilled.trans (ih h2 h1.free hspill.2 hrest)
      · obtain ⟨h3, heffect, -⟩ := h2.vmMap hframe (by decide) hro
        have hagain : Loaded pool m0 live t m ⟨vm3, m1.phys⟩ [seg.page i] :=
          ⟨h3, h1.free, hfilled.effect.again heffect⟩
        exact hagain.trans (ih h3 h1.free hspill.2 hrest)

end

/-! ## Addresses -/

theorem pageOffset_aligned (i : ℕ) : PageAligned (pageOffset i) := by
  unfold PageAligned pageOffset
  rw [BitVec.toNat_signExtend, BitVec.toNat_setWidth, BitVec.toNat_mul, BitVec.toNat_ofNat]
  split
  · show (i % 2 ^ 32 * 4096 % 2 ^ 32 % 2 ^ 64 + (2 ^ 64 - 2 ^ 32)) % 4096 = 0
    omega
  · show (i % 2 ^ 32 * 4096 % 2 ^ 32 % 2 ^ 64 + 0) % 4096 = 0
    omega

theorem stackPage_aligned (i : ℕ) : PageAligned (stackPage i) := by
  have hoffset := pageOffset_aligned i
  have hlt := (pageOffset i).isLt
  unfold PageAligned at hoffset ⊢
  unfold stackPage
  rw [BitVec.toNat_sub]
  show (2 ^ 64 - (pageOffset i).toNat + 0xFFFFFFFFFFFFF000) % 2 ^ 64 % 4096 = 0
  omega

theorem Segment.page_aligned {seg : Segment} (h : PageAligned seg.vaddr) (i : ℕ) :
    PageAligned (seg.page i) := by
  have hoffset := pageOffset_aligned i
  unfold PageAligned at h hoffset ⊢
  unfold Segment.page
  rw [BitVec.toNat_add]
  omega

/-- An address of the kernel is under one of the first 256 entries. -/
theorem vmmIndexPml4_lt {va : BitVec 64} (h : va ≤ vmmKernelSpace) : vmmIndexPml4 va < 256 := by
  have hnat : va.toNat ≤ 0x00007FFFFFFFFFFF := h
  unfold vmmIndexPml4
  rw [index_eq]
  omega

theorem vmmIndexPml4_congr {va va' : BitVec 64} (h : pageNumber va = pageNumber va') :
    vmmIndexPml4 va = vmmIndexPml4 va' := by
  unfold pageNumber at h
  unfold vmmIndexPml4
  rw [index_eq, index_eq]
  omega

/-- And such an entry has addresses of the kernel for all of its pages. -/
theorem exists_kernel_address {va : BitVec 64} (h : vmmIndexPml4 va < 256) :
    ∃ va', va' ≤ vmmKernelSpace ∧ pageNumber va' = pageNumber va := by
  unfold vmmIndexPml4 at h
  rw [index_eq] at h
  have hpage : pageNumber va < 2 ^ 35 := by
    unfold pageNumber
    omega
  have hnat : (BitVec.ofNat 64 (pageNumber va * 4096)).toNat = pageNumber va * 4096 := by
    rw [BitVec.toNat_ofNat, Nat.mod_eq_of_lt (by omega)]
  refine ⟨BitVec.ofNat 64 (pageNumber va * 4096), ?_, ?_⟩
  · show (BitVec.ofNat 64 (pageNumber va * 4096)).toNat ≤ 0x00007FFFFFFFFFFF
    omega
  · rw [pageNumber, hnat]
    omega

theorem walk_congr (s : VmState) (r : BitVec 64) {va va' : BitVec 64}
    (h : pageNumber va = pageNumber va') : walk s r va = walk s r va' := by
  unfold walk
  rw [(pagePath_eq_iff va va').2 h]

/-! ## The whole call -/

/-- What of an executable is loaded, if it is accepted. -/
def acceptedElf (file : Option Executable) : Option ElfInfo := do
  let (_, elf) ← (elfParseHeader (← file)).toOption
  if elf.entryPoint ≤ vmmKernelSpace then none else some elf

/-- The pages of the stack. -/
def stackPages : List (BitVec 64) := (List.range' 0 configUserlandStackSize).map stackPage

/-- The pages of both segments. -/
def ElfInfo.segmentPages (elf : ElfInfo) : List (BitVec 64) :=
  elf.ro.pagesFrom 0 elf.ro.count ++ elf.rw.pagesFrom 0 elf.rw.count

theorem setupNewProcess_rejected {pool : PtPool} {file : Option Executable} (m : KernelMemory)
    (h : acceptedElf file = none) : setupNewProcess pool file m = .ok (none, m) := by
  unfold setupNewProcess
  cases file with
  | none => rfl
  | some f =>
      simp only
      split
      · rfl
      · next r elf hparse =>
          by_cases hentry : elf.entryPoint ≤ vmmKernelSpace
          · rw [if_pos hentry]
          · simp [acceptedElf, hparse, Except.toOption, hentry] at h

theorem setupNewProcess_accepted {pool : PtPool} {f : Executable} {elf : ElfInfo} (m : KernelMemory)
    (h : acceptedElf (some f) = some elf) :
    setupNewProcess pool (some f) m = do
      let (t, vm) ← vmCreatePagetable pool m.vm
      let m ← loadStack pool t configUserlandStackSize 0 ⟨vm, m.phys⟩
      let m ← loadSegment pool f t elf.ro true elf.ro.count 0 m
      let m ← loadSegment pool f t elf.rw false elf.rw.count 0 m
      return (some ⟨elf.entryPoint, userlandStackTop, t⟩, m) := by
  unfold setupNewProcess
  simp only
  split
  · next e hparse => simp [acceptedElf, hparse, Except.toOption] at h
  · next r elf' hparse =>
      by_cases hentry : elf'.entryPoint ≤ vmmKernelSpace
      · simp [acceptedElf, hparse, Except.toOption, hentry] at h
      · simp only [acceptedElf, hparse, Except.toOption, hentry, Option.bind_eq_bind, Option.bind_some,
          if_false, Option.some.injEq] at h
        subst h
        rw [if_neg hentry]

/-- The steps of a call that returns. -/
theorem setupNewProcess_cases {pool : PtPool} {file : Option Executable} {m m' : KernelMemory}
    {proc : Option NewProcess} (h : setupNewProcess pool file m = .ok (proc, m')) :
    (acceptedElf file = none ∧ proc = none ∧ m' = m) ∨
    ∃ f elf t vm m1 m2, file = some f ∧ acceptedElf file = some elf ∧
      proc = some ⟨elf.entryPoint, userlandStackTop, t⟩ ∧ vmCreatePagetable pool m.vm = .ok (t, vm) ∧
      loadStack pool t configUserlandStackSize 0 ⟨vm, m.phys⟩ = .ok m1 ∧
      loadSegment pool f t elf.ro true elf.ro.count 0 m1 = .ok m2 ∧
      loadSegment pool f t elf.rw false elf.rw.count 0 m2 = .ok m' := by
  cases helf : acceptedElf file with
  | none =>
      rw [setupNewProcess_rejected m helf] at h
      cases h
      exact Or.inl ⟨rfl, rfl, rfl⟩
  | some elf =>
      cases file with
      | none => cases helf
      | some f =>
          rw [setupNewProcess_accepted m helf] at h
          simp only [bind, Except.bind] at h
          split at h
          · cases h
          · next p hcreate =>
              split at h
              · cases h
              · next m1 hstack =>
                  split at h
                  · cases h
                  · next m2 hro =>
                      split at h
                      · cases h
                      · next m3 hrw =>
                          cases h
                          exact Or.inr ⟨f, elf, p.1, p.2, m1, m2, rfl, rfl, rfl, hcreate, hstack, hro, hrw⟩

theorem loadStack_succ {pool : PtPool} {m m' : KernelMemory} {t : BitVec 64} {n i : ℕ}
    (hload : loadStack pool t (n + 1) i m = .ok m') :
    ∃ physPage m1, mapZeroedPage pool t (stackPage i) m = .ok (physPage, m1) ∧
      loadStack pool t n (i + 1) m1 = .ok m' := by
  unfold loadStack at hload
  simp only [bind, Except.bind] at hload
  split at hload
  · cases hload
  · next p hmap => exact ⟨p.1, p.2, hmap, hload⟩

theorem loadStack_spec {pool : PtPool} {m0 m m' : KernelMemory} {live : BitVec 64 → Prop}
    {t : BitVec 64} {n i : ℕ}
    (hreserved : pool.Reserved m0)
    (h : Loading pool m0 live t m.vm) (hfree : ∀ f, m.phys.Free f → m0.phys.Free f)
    (hload : loadStack pool t n i m = .ok m') :
    Loaded pool m0 live t m m' ((List.range' i n).map stackPage) := by
  induction n generalizing i m with
  | zero =>
      cases hload
      exact .refl h hfree
  | succ n ih =>
      rw [List.range'_succ, List.map_cons, ← List.singleton_append]
      obtain ⟨physPage, m1, hmap, hrest⟩ := loadStack_succ hload
      obtain ⟨h1, -, -⟩ := mapZeroedPage_spec hreserved h hfree (Or.inl (stackPage_aligned i)) hmap
      exact h1.trans (ih h1.loading h1.free hrest)

/-- The new table right after its creation. -/
theorem VmCreated.loading {pool : PtPool} {m : KernelMemory} {spaces : List (BitVec 64)}
    {t : BitVec 64} {vm : VmState}
    (h : VmCreated pool m.vm vm (VmSystem.Live ⟨m.vm, spaces⟩) m.vm.kernelPml4 t) :
    Loading pool m (VmSystem.Live ⟨m.vm, spaces⟩) t vm where
  base := Or.inl rfl
  fresh := h.fresh
  tables := h.invariant
  kernel := h.kernel
  entries r hr j := by rw [h.entries_other r hr]
  shared j _ := by rw [h.entries]
  own := by
    -- without an entry of the kernel there is none in the copy
    intro va hslot pa hpa
    rw [kernelSlot_iff, not_not, ← h.entries] at hslot
    simp [walk, tablePath, follow, hslot] at hpa

/-- The call maps the stack and the segments, if nothing is written beyond them to the kernel. -/
theorem setupNewProcess_effect {pool : PtPool} {file : Option Executable} {m m' : KernelMemory}
    {spaces : List (BitVec 64)} {proc : Option NewProcess} (hm : MemoryInvariant pool m spaces)
    (h : setupNewProcess pool file m = .ok (proc, m'))
    (hspill : ∀ elf, acceptedElf file = some elf → ∀ v ∈ elf.segmentPages, NoSpill m v) :
    m'.vm.kernelPml4 = m.vm.kernelPml4 ∧
      Effect m (VmSystem.Live ⟨m.vm, spaces⟩) m.vm m'.vm
        (stackPage 0 :: ((acceptedElf file).map ElfInfo.segmentPages).getD []) ∨
      (acceptedElf file = none ∧ m' = m) := by
  rcases setupNewProcess_cases h with
    ⟨hnone, -, hm'⟩ | ⟨f, elf, t, vm, m1, m2, -, helf, -, hcreate, hstack, hro, hrw⟩
  · exact Or.inr ⟨hnone, hm'⟩
  · refine Or.inl ?_
    have hpages := hspill elf helf
    unfold ElfInfo.segmentPages at hpages
    rw [List.forall_mem_append] at hpages
    have hspec := vmCreatePagetable_spec hm.tables.tables hcreate
    have hcreated : Effect m (VmSystem.Live ⟨m.vm, spaces⟩) m.vm vm [] :=
      .nil hspec.walk_other (Or.inl rfl)
    have h1 := loadStack_spec (m := ⟨vm, m.phys⟩) hm.reserved hspec.loading (fun _ hf => hf) hstack
    have h2 := loadSegment_spec hm.reserved h1.loading h1.free hpages.1 hro
    have h3 := loadSegment_spec hm.reserved h2.loading h2.free hpages.2 hrw
    rw [helf]
    exact ⟨h3.loading.kernel, hcreated.trans (h1.effect.trans (h2.effect.trans h3.effect))⟩

/-! ## Isolation -/

/-- The translations of the addresses of the kernel are the same, in its own address space and in all
    that were there before. -/
structure Isolated (m m' : KernelMemory) (spaces : List (BitVec 64)) : Prop where
  kernel : m'.vm.kernelPml4 = m.vm.kernelPml4
  walks : ∀ r, VmSystem.Live ⟨m.vm, spaces⟩ r → ∀ va, va ≤ vmmKernelSpace →
    walk m'.vm r va = walk m.vm r va

/-- The segments of an accepted executable stay away from the entries of the kernel: no page of them
    is under one for its addresses, and a page that does not start where it is mapped does not reach
    over to any. -/
def Confined (s : VmState) (file : Option Executable) : Prop :=
  ∀ elf, acceptedElf file = some elf → ∀ v ∈ elf.segmentPages,
    (vmmIndexPml4 v < 256 → ¬ KernelSlot s v) ∧ (PageAligned v ∨ ¬ KernelSlot s (nextPage v))

/-- The segments start at page boundaries, as `setup_new_process` assumes. -/
def AlignedSegments (file : Option Executable) : Prop :=
  ∀ elf, acceptedElf file = some elf → PageAligned elf.ro.vaddr ∧ PageAligned elf.rw.vaddr

/-- No free frame is mapped by the kernel. -/
def FreeUnmapped (m : KernelMemory) : Prop :=
  ∀ f, m.phys.Free f → ∀ va, walk m.vm m.vm.kernelPml4 va ≠ some (BitVec.ofNat 64 (f * 4096))

theorem AlignedSegments.page {file : Option Executable} (h : AlignedSegments file) {elf : ElfInfo}
    (helf : acceptedElf file = some elf) {v : BitVec 64} (hv : v ∈ elf.segmentPages) :
    PageAligned v := by
  obtain ⟨hro, hrw⟩ := h elf helf
  unfold ElfInfo.segmentPages at hv
  rcases List.mem_append.1 hv with hv | hv
  · obtain ⟨i, -, rfl⟩ := List.mem_map.1 hv
    exact elf.ro.page_aligned hro i
  · obtain ⟨i, -, rfl⟩ := List.mem_map.1 hv
    exact elf.rw.page_aligned hrw i

/-- A call that returns has left the translations of the kernel alone if the segments are confined, and
    for segments that start at page boundaries only then, unless the kernel maps a free frame. -/
theorem setupNewProcess_isolated {pool : PtPool} {file : Option Executable} {m m' : KernelMemory}
    {spaces : List (BitVec 64)} {proc : Option NewProcess} (hm : MemoryInvariant pool m spaces)
    (h : setupNewProcess pool file m = .ok (proc, m')) :
    (Confined m.vm file → Isolated m m' spaces) ∧
    (AlignedSegments file → FreeUnmapped m → Isolated m m' spaces → Confined m.vm file) := by
  constructor
  · intro hconfined
    rcases setupNewProcess_effect hm h fun elf helf v hv => (hconfined elf helf v hv).2 with
      ⟨hkernel, heffect⟩ | ⟨-, rfl⟩
    · refine ⟨hkernel, fun r hr va hva => heffect.other r hr va fun v hv hpage => ?_⟩
      have hlow : vmmIndexPml4 v < 256 := by
        rw [← vmmIndexPml4_congr hpage]
        exact vmmIndexPml4_lt hva
      rcases List.mem_cons.1 hv with rfl | hv
      · exact absurd hlow (by decide)
      · cases helf : acceptedElf file with
        | none =>
            rw [helf] at hv
            cases hv
        | some elf =>
            rw [helf] at hv
            exact (hconfined elf helf v hv).1 hlow
    · exact ⟨rfl, fun _ _ _ _ => rfl⟩
  · intro haligned hunmapped hisolated elf helf v hv
    refine ⟨?_, Or.inl (haligned.page helf hv)⟩
    intro hlow hslot
    rcases setupNewProcess_effect hm h fun elf' helf' v' hv' => Or.inl (haligned.page helf' hv') with
      ⟨-, heffect⟩ | ⟨hnone, -⟩
    · -- the page is mapped to a free frame now, and was not before
      rw [helf] at heffect
      obtain ⟨pa, ⟨f, hf, rfl⟩, hwalk⟩ := heffect.mapped v (List.mem_cons_of_mem _ hv) hslot
      obtain ⟨va, hva, hpage⟩ := exists_kernel_address hlow
      refine hunmapped f hf va ?_
      rw [← hisolated.walks _ (Or.inl rfl) va hva, walk_congr _ _ hpage, hwalk]
    · rw [helf] at hnone
      cases hnone

/-! ## Two programs -/

/-- A file with the given contents. -/
def contentFile (content : List UInt8) : Executable where
  read size position :=
    if position < 0 ∨ (content.length : ℤ) < position then none
    else some ((content.drop position.toNat).take size.toNat)

/-- A 64-bit executable with one writable segment of a page at `vaddr`. -/
def programImage (vaddr : ℕ) : List UInt8 :=
  [0x7f, 0x45, 0x4c, 0x46, 2, 1, 1, 0, 0, 0, 0, 0, 0, 0, 0, 0] ++ leBytes 2 2 ++ leBytes 62 2 ++
    leBytes 1 4 ++ leBytes 0xFFFF800000000000 8 ++ leBytes 64 8 ++ leBytes 0 8 ++ leBytes 0 4 ++
    leBytes 64 2 ++ leBytes 56 2 ++ leBytes 1 2 ++ leBytes 0 6 ++
    leBytes 1 4 ++ leBytes 2 4 ++ leBytes 120 8 ++ leBytes vaddr 8 ++ leBytes vaddr 8 ++ leBytes 8 8 ++
    leBytes 4096 8 ++ leBytes 4096 8 ++ [1, 2, 3, 4, 5, 6, 7, 8]

/-- The kernel after `vm_init`, with free frames from `0x780000` on. -/
def sampleMemory : KernelMemory where
  vm := bootVm
  phys := ⟨fun i => if i = 30 then 0 else 0xFFFFFFFFFFFFFFFF#64, 248, 1984, 0⟩

theorem sampleMemory_free {f : ℕ} (hf : sampleMemory.phys.Free f) : f / 64 = 30 := by
  by_contra hne
  refine not_free_of_full ?_ f rfl hf
  exact if_neg hne

theorem sampleMemory_reserved (f : ℕ) (hf : sampleMemory.phys.Free f) (i : ℕ) (hi : i < vmPtpSize) :
    BitVec.ofNat 64 (f * 4096) ≠ samplePool.table i := by
  intro heq
  have hword := sampleMemory_free hf
  have hnat := congrArg BitVec.toNat heq
  rw [samplePool.toNat_table hi, BitVec.toNat_ofNat, show samplePool.base = 0x200000 from rfl] at hnat
  unfold vmPtpSize at hi
  omega

theorem sampleMemory_tables : VmSystem.Invariant samplePool ⟨sampleMemory.vm, []⟩ := by
  have hvm : sampleMemory.vm = bootVm := by simp only [sampleMemory]
  have hboot := VmReachable.boot vmInit_bootVm
  rw [hvm]
  exact hboot.invariant

theorem sampleMemory_invariant : MemoryInvariant samplePool sampleMemory [] :=
  ⟨sampleMemory_tables, sampleMemory_reserved⟩

/-- A program for the upper half of the address space. -/
def upperFile : Option Executable := some (contentFile (programImage 0xFFFF800000000000))

/-- A program for an address of the kernel that the kernel does not use. -/
def lowerFile : Option Executable := some (contentFile (programImage 0x40000000))

theorem setup_upperFile : (setupNewProcess samplePool upperFile sampleMemory).toOption.isSome = true := by
  decide +kernel

theorem upperFile_confined : Confined sampleMemory.vm upperFile := by
  have hpages : (acceptedElf upperFile).map ElfInfo.segmentPages = some [0xFFFF800000000000#64] := by
    decide +kernel
  intro elf helf v hv
  rw [helf] at hpages
  rw [Option.some.inj hpages, List.mem_singleton] at hv
  subst hv
  exact ⟨fun hlow => absurd hlow (by decide), Or.inl rfl⟩

theorem setupNewProcess_isolated_upperFile : MemoryInvariant samplePool sampleMemory [] ∧
    ∃ r, setupNewProcess samplePool upperFile sampleMemory = .ok r ∧ Isolated sampleMemory r.2 [] := by
  obtain ⟨r, hr⟩ := Option.isSome_iff_exists.1 setup_upperFile
  have hok := Transition.eq_ok_of_toOption hr
  exact ⟨sampleMemory_invariant, r, hok,
    (setupNewProcess_isolated sampleMemory_invariant hok).1 upperFile_confined⟩

theorem setup_lowerFile :
    (setupNewProcess samplePool lowerFile sampleMemory).toOption.map
      (fun r => walk r.2.vm sampleMemory.vm.kernelPml4 0x40000000#64) = some (some 0x781000#64) ∧
    walk sampleMemory.vm sampleMemory.vm.kernelPml4 0x40000000#64 = none := by
  decide +kernel

theorem setupNewProcess_lowerFile : MemoryInvariant samplePool sampleMemory [] ∧
    ∃ r, setupNewProcess samplePool lowerFile sampleMemory = .ok r ∧ ¬ Isolated sampleMemory r.2 [] := by
  obtain ⟨hafter, hbefore⟩ := setup_lowerFile
  obtain ⟨r, hr, hwalk⟩ := Option.map_eq_some_iff.1 hafter
  refine ⟨sampleMemory_invariant, r, Transition.eq_ok_of_toOption hr, ?_⟩
  intro hisolated
  have hsame := hisolated.walks _ (Or.inl rfl) 0x40000000#64 (by decide)
  rw [hwalk, hbefore] at hsame
  cases hsame

end Kudos
