import Kudos.Vm.AddressSpace
import Kudos.Vm.PhysmemSafety
import Mathlib.Algebra.Group.Nat.Defs
import Mathlib.Data.List.Nodup

set_option autoImplicit false

/-! # Kernel memory of the x86_64 kernel

`kmalloc` of `vm/x86_64/mm_virt.c` with `physmem_getframes`, on top of page tables and physical memory.
`physmem_getframes` gives the number of the first of some free frames in a row. It does not mark them,
and `kmalloc` uses the number as an address: what it maps are not the frames from `f` on, but those
from `f / 4096` on. That these are private is a matter of luck, and `KmSystem.Suitable` says what it
takes. -/

namespace Kudos

open Transition WordBitmap

/-! ## Frames in a row -/

/-- The inner loop of `physmem_getframes`, with `rest` of `count` rounds to go: whether all of the
    frames from `startingBit` on are free. -/
def physmemCountFree (s : PhysState) (startingBit count : ℕ) : ℕ → ℕ → Except KernelFault Bool
  | 0, _ => .ok false
  | rest + 1, free =>
      let bit := startingBit + (count - (rest + 1))
      if s.HasWord (bit / 64) then
        let free := if s.memBitmap.testbit bit = 0 then free + 1 else free
        if free = count then .ok true else physmemCountFree s startingBit count rest free
      else .error .outOfBounds

/-- The middle loop, over the bits of word `i`. -/
def physmemTryBits (s : PhysState) (count i : ℕ) : List ℕ → Except KernelFault (Option ℕ)
  | [] => .ok none
  | j :: js =>
      if s.memBitmap i &&& intShift j = 0 then do
        if ← physmemCountFree s (i * 64 + j) count count 0 then return some (i * 64 + j)
        else physmemTryBits s count i js
      else physmemTryBits s count i js

/-- The outer loop, over `n` words from word `i` on. -/
def physmemScanRow (s : PhysState) (count : ℕ) : ℕ → ℕ → Except KernelFault (Option ℕ)
  | 0, _ => .ok none
  | n + 1, i =>
      if s.HasWord i then
        if s.memBitmap i ≠ 0xFFFFFFFFFFFFFFFF#64 then do
          match ← physmemTryBits s count i (List.range 64) with
          | some f => return some f
          | none => physmemScanRow s count n (i + 1)
        else physmemScanRow s count n (i + 1)
      else .error .outOfBounds

/-- `physmem_getframes`. `none` is `-1`. -/
def physmemGetframes (s : PhysState) (count : ℕ) : Except KernelFault (Option ℕ) :=
  if count = 0 then .ok none
  else if count = 1 then physmemGetframe s
  else physmemScanRow s count s.totalBlocks 0

/-! ## `kmalloc` -/

/-- The memory that `kmalloc` works on. -/
structure KmallocState where
  phys : PhysState
  vm : VmState
  kmallocAddr : BitVec 64

/-- `n_frames`. -/
def frameCount (size : BitVec 64) : BitVec 64 :=
  size / 4096 + if size % 4096 ≠ 0 then 1 else 0

/-- The loop of `kmalloc`, for `n` pages from page `i` on. -/
def kmallocMap (pool : PtPool) (frames vaddr : BitVec 64) :
    ℕ → ℕ → VmState → Except KernelFault VmState
  | 0, _, s => .ok s
  | n + 1, i, s => do
      let s ← vmMap pool s s.kernelPml4 (frames + BitVec.ofNat 64 (i * 4096))
        (vaddr + BitVec.ofNat 64 (0x1000 * i)) 0
      kmallocMap pool frames vaddr n (i + 1) s

/-- `kmalloc`. -/
def kmalloc (pool : PtPool) (S : KmallocState) (size : BitVec 64) :
    Except KernelFault (BitVec 64 × KmallocState) :=
  if vmmKernelSpace < size + S.kmallocAddr then .error .panic
  else do
    let frames ← physmemGetframes S.phys (frameCount size).toNat
    let frames : BitVec 64 := frames.elim (-1) (BitVec.ofNat 64)
    let vm ← kmallocMap pool frames S.kmallocAddr (frameCount size).toNat 0 S.vm
    return (S.kmallocAddr, { S with vm := vm, kmallocAddr := S.kmallocAddr + 0x1000 * frameCount size })

/-! ## Runs -/

/-- The memory of the kernel and what its callers know. -/
structure KmSystem where
  mem : KmallocState
  /-- The results of `kmalloc` with the sizes that were asked for. -/
  blocks : List (BitVec 64 × BitVec 64)
  /-- The results of `physmem_allocblock`. -/
  allocated : List ℕ

inductive KmCall
  | kmalloc (size : BitVec 64)
  | allocblock

inductive KmStep (pool : PtPool) : KmSystem → KmCall → KmSystem → Prop
  | kmalloc {S : KmSystem} {size addr : BitVec 64} {mem : KmallocState} :
      size ≠ 0 → Kudos.kmalloc pool S.mem size = .ok (addr, mem) →
      KmStep pool S (.kmalloc size) ⟨mem, (addr, size) :: S.blocks, S.allocated⟩
  | allocblock {S : KmSystem} {addr : ℕ} {phys : PhysState} :
      physmemAllocblock S.mem.phys = .ok (addr, phys) →
      KmStep pool S .allocblock ⟨{ S.mem with phys := phys }, S.blocks, addr :: S.allocated⟩

/-- The kernel after `vm_init`. The static memory ends below `VMM_KERNEL_SPACE`. -/
structure KmBoot (pool : PtPool) (S : KmSystem) : Prop where
  phys : ∃ mb lastAddress, physmemInit mb lastAddress = .ok S.mem.phys
  vm : ∃ staticEnd vm0, vmInit pool staticEnd vm0 = .ok S.mem.vm ∧
    S.mem.kmallocAddr = identityBound staticEnd
  low : S.mem.kmallocAddr ≤ vmmKernelSpace
  blocks : S.blocks = []
  allocated : S.allocated = []

/-- The pages of a block. -/
def blockPages (b : BitVec 64 × BitVec 64) : List (BitVec 64) :=
  (List.range (frameCount b.2).toNat).map fun i => b.1 + BitVec.ofNat 64 (0x1000 * i)

/-- The addresses of the frames behind the pages of all blocks. -/
def KmSystem.frames (S : KmSystem) : List ℕ :=
  (S.blocks.flatMap blockPages).map fun va =>
    (walk S.mem.vm S.mem.vm.kernelPml4 va).elim 0 BitVec.toNat

/-- What `kmalloc` is for: nobody else has the memory that it gives. -/
structure KmSystem.Private (S : KmSystem) : Prop where
  disjoint : S.blocks.Pairwise fun b c =>
    b.1.toNat + b.2.toNat ≤ c.1.toNat ∨ c.1.toNat + c.2.toNat ≤ b.1.toNat
  mapped : ∀ va ∈ S.blocks.flatMap blockPages,
    ∃ pa, walk S.mem.vm S.mem.vm.kernelPml4 va = some pa ∧ PageAligned pa
  distinct : (S.frames ++ S.allocated).Nodup
  used : ∀ frame ∈ S.frames, S.mem.phys.memBitmap.testbit (frame / 4096) ≠ 0

/-! ## The search -/

/-- A frame that the bitmap has as free. -/
def PhysState.Clear (s : PhysState) (f : ℕ) : Prop :=
  s.HasWord (f / 64) ∧ s.memBitmap.testbit f = 0

/-- `f` is the first of `n` free frames in a row, and there is no lower one. -/
structure PhysState.FirstRow (s : PhysState) (n f : ℕ) : Prop where
  clear : ∀ k < n, s.Clear (f + k)
  least : ∀ g < f, ∃ k < n, ¬ s.Clear (g + k)

section

variable {s : PhysState} {count n f : ℕ}

theorem PhysState.FirstRow.eq {g : ℕ} (hf : s.FirstRow n f) (hg : s.FirstRow n g) : f = g := by
  rcases Nat.lt_trichotomy f g with hlt | heq | hlt
  · obtain ⟨k, hk, hnot⟩ := hg.least f hlt
    exact absurd (hf.clear k hk) hnot
  · exact heq
  · obtain ⟨k, hk, hnot⟩ := hf.least g hlt
    exact absurd (hg.clear k hk) hnot

/-- The inner loop succeeds if it found every frame so far and finds the others. -/
theorem physmemCountFree_ok {start : ℕ} {b : Bool} (rest free : ℕ) (hrest : rest ≤ count)
    (hfree : free + rest ≤ count) (hlt : free < count)
    (h : physmemCountFree s start count rest free = .ok b) :
    b = true ↔ free + rest = count ∧ ∀ k, count - rest ≤ k → k < count → s.Clear (start + k) := by
  induction rest generalizing free with
  | zero =>
      cases h
      refine iff_of_false Bool.false_ne_true ?_
      rintro ⟨heq, -⟩
      omega
  | succ rest ih =>
      unfold physmemCountFree at h
      simp only at h
      split at h
      · next hword =>
          have hsplit : (∀ k, count - (rest + 1) ≤ k → k < count → s.Clear (start + k)) ↔
              s.Clear (start + (count - (rest + 1))) ∧
                ∀ k, count - rest ≤ k → k < count → s.Clear (start + k) := by
            constructor
            · intro hall
              exact ⟨hall _ (Nat.le_refl _) (by omega), fun k hk hlt => hall k (by omega) hlt⟩
            · rintro ⟨hfirst, hall⟩ k hk hlt
              by_cases heq : k = count - (rest + 1)
              · rw [heq]
                exact hfirst
              · exact hall k (by omega) hlt
          rw [hsplit]
          by_cases hclear : s.memBitmap.testbit (start + (count - (rest + 1))) = 0
          · rw [if_pos hclear] at h
            split at h
            · next hdone =>
                cases h
                refine iff_of_true rfl ⟨by omega, ⟨hword, hclear⟩, ?_⟩
                intro k hk hk'
                omega
            · next hmore =>
                rw [ih (free + 1) (by omega) (by omega) (by omega) h]
                constructor
                · rintro ⟨hsum, hall⟩
                  exact ⟨by omega, ⟨hword, hclear⟩, hall⟩
                · rintro ⟨hsum, -, hall⟩
                  exact ⟨by omega, hall⟩
          · rw [if_neg hclear, if_neg (by omega)] at h
            rw [ih free (by omega) (by omega) hlt h]
            constructor
            · rintro ⟨hsum, -⟩
              omega
            · rintro ⟨-, hfirst, -⟩
              exact absurd hfirst.2 hclear
      · cases h

/-- All rounds of the inner loop. -/
theorem physmemCountFree_all {start : ℕ} {b : Bool} (hcount : 0 < count)
    (h : physmemCountFree s start count count 0 = .ok b) :
    b = true ↔ ∀ k < count, s.Clear (start + k) := by
  rw [physmemCountFree_ok count 0 (Nat.le_refl _) (by omega) hcount h]
  simp

/-- A frame that is not free is not the first of a row. -/
theorem not_row_of_testbit {g : ℕ} (hcount : 0 < count) (h : s.memBitmap.testbit g ≠ 0) :
    ∃ k < count, ¬ s.Clear (g + k) := ⟨0, hcount, fun hclear => h hclear.2⟩

/-- The outcome of the middle loop over the bits of word `i` from bit `a` to bit `b`. -/
def TryOutcome (s : PhysState) (count i a b : ℕ) : Option ℕ → Prop
  | none => ∀ j, a ≤ j → j < b → ∃ k < count, ¬ s.Clear (i * 64 + j + k)
  | some f => ∃ j, a ≤ j ∧ j < b ∧ f = i * 64 + j ∧ (∀ k < count, s.Clear (f + k)) ∧
      ∀ j', a ≤ j' → j' < j → ∃ k < count, ¬ s.Clear (i * 64 + j' + k)

/-- A bit that is the first of no row is passed over. -/
theorem TryOutcome.skip {i a b : ℕ} {r : Option ℕ}
    (hnot : ∃ k < count, ¬ s.Clear (i * 64 + a + k)) (h : TryOutcome s count i (a + 1) b r) :
    TryOutcome s count i a b r := by
  have hnext : ∀ {j c : ℕ}, (∀ j', a + 1 ≤ j' → j' < c → ∃ k < count, ¬ s.Clear (i * 64 + j' + k)) →
      a ≤ j → j < c → ∃ k < count, ¬ s.Clear (i * 64 + j + k) := by
    intro j c hall haj hjc
    rcases Nat.eq_or_lt_of_le haj with rfl | hlt
    · exact hnot
    · exact hall j hlt hjc
  cases r with
  | none => exact fun j => hnext h
  | some f =>
      obtain ⟨j, haj, hjb, hf, hclear, hpre⟩ := h
      exact ⟨j, by omega, hjb, hf, hclear, fun j' => hnext hpre⟩

theorem physmemTryBits_ok {i : ℕ} {r : Option ℕ} (hcount : 0 < count) (m a : ℕ) (ham : a + m ≤ 64)
    (h : physmemTryBits s count i (List.range' a m) = .ok r) :
    TryOutcome s count i a (a + m) r := by
  induction m generalizing a with
  | zero =>
      cases h
      intro j haj hja
      omega
  | succ m ih =>
      rw [List.range'_succ] at h
      unfold physmemTryBits at h
      have hrest : physmemTryBits s count i (List.range' (a + 1) m) = .ok r →
          TryOutcome s count i (a + 1) (a + (m + 1)) r := by
        intro hbits
        have := ih (a + 1) (by omega) hbits
        rwa [show a + 1 + m = a + (m + 1) by omega] at this
      split at h
      · cases hrow : physmemCountFree s (i * 64 + a) count count 0 with
        | error e =>
            rw [hrow] at h
            cases h
        | ok b =>
            rw [hrow] at h
            have hiff := physmemCountFree_all hcount hrow
            cases b with
            | true =>
                cases h
                refine ⟨a, Nat.le_refl _, by omega, rfl, hiff.1 rfl, ?_⟩
                intro j' haj' hj'a
                omega
            | false =>
                refine TryOutcome.skip ?_ (hrest h)
                by_contra hall
                refine Bool.false_ne_true (hiff.2 ?_)
                intro k hk
                by_contra hclear
                exact hall ⟨k, hk, hclear⟩
      · next hset =>
          refine TryOutcome.skip (not_row_of_testbit hcount ?_) (hrest h)
          unfold WordBitmap.testbit
          rw [show (i * 64 + a) / 64 = i by omega, show (i * 64 + a) % 64 = a by omega]
          exact hset

/-- The outer loop finds the first row, or it has gone over all words. -/
theorem physmemScanRow_ok {r : Option ℕ} (hcount : 0 < count) (i : ℕ)
    (hbefore : ∀ g, g / 64 < i → ∃ k < count, ¬ s.Clear (g + k))
    (h : physmemScanRow s count n i = .ok r) :
    r.elim (∀ k < n, s.HasWord (i + k)) fun f => s.FirstRow count f := by
  induction n generalizing i with
  | zero =>
      cases h
      exact fun k hk => absurd hk (Nat.not_lt_zero k)
  | succ n ih =>
      unfold physmemScanRow at h
      split at h
      · next hword =>
          have hskip : (∀ j < 64, ∃ k < count, ¬ s.Clear (i * 64 + j + k)) →
              physmemScanRow s count n (i + 1) = .ok r →
              r.elim (∀ k < n + 1, s.HasWord (i + k)) fun f => s.FirstRow count f := by
            intro hnone hrest
            have hih := ih (i + 1) (fun g hg => by
              by_cases hlt : g / 64 < i
              · exact hbefore g hlt
              · have := hnone (g % 64) (Nat.mod_lt _ (by decide))
                rwa [show i * 64 + g % 64 = g by omega] at this) hrest
            cases r with
            | none =>
                intro k hk
                rcases k with _ | k
                · exact hword
                · rw [← Nat.add_assoc, Nat.add_right_comm]
                  exact hih k (by omega)
            | some f => exact hih
          split at h
          · cases hbits : physmemTryBits s count i (List.range 64) with
            | error e =>
                rw [hbits] at h
                cases h
            | ok found =>
                rw [hbits] at h
                rw [List.range_eq_range'] at hbits
                have hspec := physmemTryBits_ok hcount 64 0 (Nat.le_refl _) hbits
                cases found with
                | none => exact hskip (fun j hj => hspec j (Nat.zero_le _) hj) h
                | some f =>
                    cases h
                    obtain ⟨j, -, hj, rfl, hclear, hpre⟩ := hspec
                    refine ⟨hclear, ?_⟩
                    intro g hg
                    by_cases hlt : g / 64 < i
                    · exact hbefore g hlt
                    · have := hpre (g % 64) (Nat.zero_le _) (by omega)
                      rwa [show i * 64 + g % 64 = g by omega] at this
          · next hfull =>
              refine hskip ?_ h
              intro j hj
              refine not_row_of_testbit hcount ?_
              unfold WordBitmap.testbit
              rw [show (i * 64 + j) / 64 = i by omega, not_not.1 hfull]
              intro hzero
              have : ∀ j < 64, 0xFFFFFFFFFFFFFFFF#64 &&& intShift (j % 64) ≠ 0 := by decide
              refine this j hj ?_
              rwa [show (i * 64 + j) % 64 = j % 64 by omega] at hzero
      · cases h

end

section

variable {s s' : PhysState} {n f : ℕ}

/-- A memory as the initialization leaves it: the bitmap has fewer words than `total_blocks`. -/
structure PhysState.Booted (s : PhysState) : Prop where
  bitmap : s.bitmapSize = s.totalBlocks / 8
  pos : 0 < s.totalBlocks
  total : s.totalBlocks < 2 ^ 31

/-- The branch of `physmem_allocblock` that returns. -/
theorem physmemAllocblock_ok {addr : ℕ} (h : physmemAllocblock s = .ok (addr, s')) :
    ∃ f, addr = f * 4096 ∧ s.Free f ∧ 0 < s.totalBlocks ∧
      s' = { s with memBitmap := s.memBitmap.setbit f, usedBlocks := s.usedBlocks + 1 } := by
  rcases physmemAllocblock_outcome s with
    ⟨-, herr⟩ | ⟨hused, ⟨f, hok, hfree, -⟩ | ⟨herr, -⟩ | ⟨herr, -⟩⟩
  · cases h.symm.trans herr
  · cases h.symm.trans hok
    exact ⟨f, rfl, hfree, by omega, rfl⟩
  · cases h.symm.trans herr
  · cases h.symm.trans herr

theorem PhysState.Booted.allocblock {addr : ℕ} (hs : s.Booted)
    (h : physmemAllocblock s = .ok (addr, s')) : s'.Booted := by
  obtain ⟨f, -, -, -, rfl⟩ := physmemAllocblock_ok h
  exact ⟨hs.bitmap, hs.pos, hs.total⟩

theorem physmemSkipStatic_booted {lastAddress : ℕ} (hbitmap : s.bitmapSize = s.totalBlocks / 8)
    (htotal : s.totalBlocks < 2 ^ 31) (h : physmemSkipStatic lastAddress n s = .ok s') :
    s'.Booted := by
  induction n generalizing s with
  | zero => cases h
  | succ n ih =>
      unfold physmemSkipStatic at h
      cases halloc : physmemAllocblock s with
      | error e =>
          rw [halloc] at h
          cases h
      | ok p =>
          obtain ⟨addr, s1⟩ := p
          rw [halloc] at h
          obtain ⟨f, -, -, hpos, rfl⟩ := physmemAllocblock_ok halloc
          simp only [bind, Except.bind] at h
          split at h
          · refine ih ?_ ?_ h
            · exact hbitmap
            · exact htotal
          · cases h
            exact ⟨hbitmap, hpos, htotal⟩

theorem physmemInit_booted {mb : MultibootInfo} {lastAddress : ℕ}
    (h : physmemInit mb lastAddress = .ok s) : s.Booted := by
  unfold physmemInit at h
  cases hsetup : physmemSetup mb with
  | error e =>
      rw [hsetup] at h
      cases h
  | ok s0 =>
      rw [hsetup] at h
      have hfreed := (physmemSetup_spec hsetup).2
      refine physmemSkipStatic_booted hfreed.sized.bitmap ?_ h
      rw [hfreed.total]
      exact mb.totalBlocks_lt

/-- A row of free frames is within the bitmap. -/
theorem PhysState.Booted.row_lt (hs : s.Booted) (hf : s.FirstRow n f) (hn : 0 < n) :
    f + n ≤ s.totalBlocks := by
  have hword := (hf.clear (n - 1) (by omega)).1
  have hbitmap := hs.bitmap
  unfold PhysState.HasWord at hword
  omega

/-- A single free frame is a row of one. -/
theorem PhysState.Free.firstRow (hf : s.Free f) (hleast : ∀ g, s.Free g → f ≤ g) :
    s.FirstRow 1 f := by
  constructor
  · intro k hk
    rw [show f + k = f by omega]
    exact hf.2
  · intro g hg
    refine ⟨0, Nat.one_pos, ?_⟩
    rintro ⟨hword, hzero⟩
    rw [Nat.add_zero] at hword hzero
    -- the search finds the lower one of two frames with the same bit
    have hmask : SameMask g (g / 64 * 64 + g % 32) := ⟨by omega, by omega⟩
    have hlow : s.Free (g / 64 * 64 + g % 32) := by
      refine ⟨by omega, ?_, ?_⟩
      · rwa [show (g / 64 * 64 + g % 32) / 64 = g / 64 by omega]
      · by_contra hne
        exact (s.memBitmap.testbit_congr hmask).2 hne hzero
    have := hleast _ hlow
    omega

/-- `physmem_getframes` gives the first row, if it returns. -/
theorem physmemGetframes_ok {r : Option ℕ} (hs : s.Booted) (hn : 0 < n)
    (h : physmemGetframes s n = .ok r) : ∃ f, r = some f ∧ s.FirstRow n f := by
  have hpos := hs.pos
  have hbitmap := hs.bitmap
  have hwords : ¬ ∀ k < s.totalBlocks, s.HasWord (0 + k) := by
    intro hall
    have := hall (s.totalBlocks - 1) (by omega)
    unfold PhysState.HasWord at this
    omega
  unfold physmemGetframes at h
  rw [if_neg (by omega)] at h
  split at h
  · next hone =>
      subst hone
      unfold physmemGetframe at h
      rcases physmemScan_outcome s s.totalBlocks 0 with
        ⟨f, hscan, hfree, hleast⟩ | ⟨hscan, -⟩ | ⟨hscan, hall⟩
      · cases h.symm.trans hscan
        exact ⟨f, rfl, hfree.firstRow fun g => hleast g (Nat.zero_le _)⟩
      · cases h.symm.trans hscan
      · exact absurd hall hwords
  · have hspec := physmemScanRow_ok hn 0 (fun g hg => absurd hg (Nat.not_lt_zero _)) h
    cases r with
    | none => exact absurd hspec hwords
    | some f => exact ⟨f, rfl, hspec⟩

end

/-! ## The mapping -/

section

variable {pool : PtPool} {s s' : VmState} {k : BitVec 64}

/-- Page `j` of a block at `vaddr`. -/
theorem pageNumber_add {vaddr : BitVec 64} {j : ℕ} (h : vaddr.toNat + 4096 * j < 2 ^ 48) :
    pageNumber (vaddr + BitVec.ofNat 64 (0x1000 * j)) = vaddr.toNat / 4096 + j := by
  unfold pageNumber
  rw [BitVec.toNat_add, BitVec.toNat_ofNat]
  omega

/-- The address that page `j` is mapped to is cut down to the start of a page. -/
theorem mapped_frame (f j : ℕ) :
    ((BitVec.ofNat 64 f + BitVec.ofNat 64 (j * 4096)) ||| entryFlags 0) &&& pageMask
      = BitVec.ofNat 64 ((f / 4096 + j) * 4096) := by
  have hsum : BitVec.ofNat 64 f + BitVec.ofNat 64 (j * 4096) = BitVec.ofNat 64 (f + j * 4096) := by
    rw [BitVec.ofNat_add]
  rw [hsum]
  apply BitVec.eq_of_getLsbD_eq
  intro i hi
  rw [BitVec.getLsbD_and, BitVec.getLsbD_or, getLsbD_pageMask, BitVec.getLsbD_ofNat,
    BitVec.getLsbD_ofNat]
  have hshift : (f / 4096 + j) * 4096 = ((f + j * 4096) / 2 ^ 12) * 2 ^ 12 := by omega
  by_cases hlow : 12 ≤ i
  · rw [getLsbD_entryFlags (by decide) hlow, hshift, ← Nat.shiftLeft_eq, Nat.testBit_shiftLeft,
      Nat.testBit_div_two_pow]
    simp [hi, hlow]
  · rw [hshift, ← Nat.shiftLeft_eq, Nat.testBit_shiftLeft]
    simp [hlow]

/-- What the loop of `kmalloc` does to the translations of the kernel. -/
theorem kmallocMap_ok {f n i : ℕ} {vaddr : BitVec 64} (h : VmInvariant pool s (· = k) k)
    (hk : s.kernelPml4 = k) (hpages : vaddr.toNat + 4096 * (i + n) < 2 ^ 48)
    (hmap : kmallocMap pool (BitVec.ofNat 64 f) vaddr n i s = .ok s') :
    VmInvariant pool s' (· = k) k ∧ s'.kernelPml4 = k ∧
      (∀ j, i ≤ j → j < i + n → ∀ va, pageNumber va = vaddr.toNat / 4096 + j →
        walk s' k va = some (BitVec.ofNat 64 ((f / 4096 + j) * 4096))) ∧
      ∀ va, (∀ j, i ≤ j → j < i + n → pageNumber va ≠ vaddr.toNat / 4096 + j) →
        walk s' k va = walk s k va := by
  induction n generalizing i s with
  | zero =>
      cases hmap
      refine ⟨h, hk, ?_, fun va _ => rfl⟩
      intro j hij hji
      omega
  | succ n ih =>
      unfold kmallocMap at hmap
      rw [hk] at hmap
      cases hone : vmMap pool s k (BitVec.ofNat 64 f + BitVec.ofNat 64 (i * 4096))
          (vaddr + BitVec.ofNat 64 (0x1000 * i)) 0 with
      | error e =>
          rw [hone] at hmap
          cases hmap
      | ok s1 =>
          rw [hone] at hmap
          have hpage : pageNumber (vaddr + BitVec.ofNat 64 (0x1000 * i)) = vaddr.toNat / 4096 + i :=
            pageNumber_add (by omega)
          have hmapped := vmMap_spec h rfl (by decide) hone
          obtain ⟨hinv, hkernel, hwalks, hother⟩ := ih hmapped.invariant (hmapped.kernel.trans hk)
            (by omega) hmap
          refine ⟨hinv, hkernel, ?_, ?_⟩
          · intro j hij hji va hva
            rcases Nat.eq_or_lt_of_le hij with rfl | hlt
            · -- the rounds that follow are about other pages
              rw [hother va (fun j' hj' _ heq => by omega),
                hmapped.walk_page k rfl va (hva.trans hpage.symm) (.inl rfl),
                mapped_frame]
            · exact hwalks j hlt (by omega) va hva
          · intro va hva
            rw [hother va (fun j hij hji => hva j (by omega) (by omega))]
            refine hmapped.walk_other k rfl va ?_
            rintro ⟨heq, -⟩
            exact hva i (Nat.le_refl _) (by omega) (heq.trans hpage)

end

/-! ## Calls -/

/-- What holds in every run, whatever `kmalloc` maps. -/
structure KmInvariant (pool : PtPool) (S : KmSystem) : Prop where
  booted : S.mem.phys.Booted
  tables : VmInvariant pool S.mem.vm (· = S.mem.vm.kernelPml4) S.mem.vm.kernelPml4
  aligned : PageAligned S.mem.kmallocAddr
  low : S.mem.kmallocAddr.toNat ≤ 2 ^ 47
  below : ∀ b ∈ S.blocks, PageAligned b.1 ∧
    b.1.toNat + 4096 * (frameCount b.2).toNat ≤ S.mem.kmallocAddr.toNat
  apart : S.blocks.Pairwise fun b c => c.1.toNat + 4096 * (frameCount c.2).toNat ≤ b.1.toNat
  mapped : ∀ va ∈ S.blocks.flatMap blockPages,
    ∃ pa, walk S.mem.vm S.mem.vm.kernelPml4 va = some pa ∧ PageAligned pa
  allocated : ∀ addr ∈ S.allocated, ∃ f, addr = f * 4096 ∧ S.mem.phys.memBitmap.testbit f ≠ 0

theorem toNat_frameCount (size : BitVec 64) :
    (frameCount size).toNat = (size.toNat + 4095) / 4096 := by
  have hlt := size.isLt
  have hmod : (size % 4096).toNat = size.toNat % 4096 := rfl
  have hdiv : (size / 4096).toNat = size.toNat / 4096 := rfl
  unfold frameCount
  rw [BitVec.toNat_add, hdiv]
  split
  · next hne =>
      have hpos : size.toNat % 4096 ≠ 0 := by
        intro heq
        exact hne (BitVec.eq_of_toNat_eq (hmod.trans heq))
      rw [show (1 : BitVec 64).toNat = 1 from rfl]
      omega
  · next heq =>
      have hzero : size.toNat % 4096 = 0 := by
        rw [← hmod, not_not.1 heq]
        rfl
      rw [show (0 : BitVec 64).toNat = 0 from rfl]
      omega

theorem identityBound_aligned (staticEnd : BitVec 64) : PageAligned (identityBound staticEnd) := by
  have hlt := staticEnd.isLt
  have hmod : (staticEnd % 4096).toNat = staticEnd.toNat % 4096 := rfl
  unfold identityBound PageAligned
  split
  · rw [BitVec.toNat_add, BitVec.toNat_sub, hmod, show (4096 : BitVec 64).toNat = 4096 from rfl]
    omega
  · next heq =>
      rw [← hmod, not_not.1 heq]
      rfl

section

variable {pool : PtPool} {S S' : KmSystem} {size addr : BitVec 64} {mem : KmallocState}

theorem kmBoot_invariant (h : KmBoot pool S) : KmInvariant pool S := by
  obtain ⟨mb, lastAddress, hphys⟩ := h.phys
  obtain ⟨staticEnd, vm0, hvm, haddr⟩ := h.vm
  have hlow : S.mem.kmallocAddr.toNat ≤ 0x00007FFFFFFFFFFF := h.low
  constructor
  · exact physmemInit_booted hphys
  · exact vmInit_invariant hvm
  · rw [haddr]
    exact identityBound_aligned staticEnd
  · omega
  · rw [h.blocks]
    exact fun b hb => absurd hb List.not_mem_nil
  · rw [h.blocks]
    exact List.Pairwise.nil
  · rw [h.blocks]
    exact fun va hva => absurd hva List.not_mem_nil
  · rw [h.allocated]
    exact fun a ha => absurd ha List.not_mem_nil

/-- The pages of the blocks are below the next address. -/
theorem KmInvariant.pageNumber_lt (h : KmInvariant pool S) {va : BitVec 64}
    (hva : va ∈ S.blocks.flatMap blockPages) : pageNumber va < S.mem.kmallocAddr.toNat / 4096 := by
  obtain ⟨b, hb, hva⟩ := List.mem_flatMap.1 hva
  obtain ⟨i, hi, rfl⟩ := List.mem_map.1 hva
  rw [List.mem_range] at hi
  obtain ⟨haligned, hbelow⟩ := h.below b hb
  have hlow := h.low
  unfold PageAligned at haligned
  rw [pageNumber_add (by omega)]
  omega

/-- What a call of `kmalloc` does. It looks for `n` free frames and finds the row from `f` on, and the
    pages that it returns are mapped to the frames from `f / 4096` on. -/
structure Kmalloced (pool : PtPool) (S : KmSystem) (size addr : BitVec 64) (mem : KmallocState)
    (f : ℕ) : Prop where
  row : S.mem.phys.FirstRow (frameCount size).toNat f
  addr_eq : addr = S.mem.kmallocAddr
  phys : mem.phys = S.mem.phys
  next : mem.kmallocAddr.toNat = S.mem.kmallocAddr.toNat + 4096 * (frameCount size).toNat
  low : mem.kmallocAddr.toNat ≤ 2 ^ 47
  tables : VmInvariant pool mem.vm (· = mem.vm.kernelPml4) mem.vm.kernelPml4
  frames : (blockPages (addr, size)).map (walk mem.vm mem.vm.kernelPml4)
    = (List.range (frameCount size).toNat).map fun i => some (BitVec.ofNat 64 ((f / 4096 + i) * 4096))
  others : ∀ va, pageNumber va < S.mem.kmallocAddr.toNat / 4096 →
    walk mem.vm mem.vm.kernelPml4 va = walk S.mem.vm S.mem.vm.kernelPml4 va

theorem kmalloc_ok (h : KmInvariant pool S) (hsize : size ≠ 0)
    (hok : kmalloc pool S.mem size = .ok (addr, mem)) : ∃ f, Kmalloced pool S size addr mem f := by
  have hcount := toNat_frameCount size
  have hpos : 0 < size.toNat := by
    rcases Nat.eq_zero_or_pos size.toNat with hzero | hpos
    · exact absurd (BitVec.eq_of_toNat_eq hzero) hsize
    · exact hpos
  unfold kmalloc at hok
  split at hok
  · cases hok
  · next hspace =>
      cases hframes : physmemGetframes S.mem.phys (frameCount size).toNat with
      | error e =>
          rw [hframes] at hok
          cases hok
      | ok r =>
          rw [hframes] at hok
          obtain ⟨f, rfl, hrow⟩ := physmemGetframes_ok h.booted (by omega) hframes
          simp only [bind, Except.bind, Option.elim] at hok
          cases hmap : kmallocMap pool (BitVec.ofNat 64 f) S.mem.kmallocAddr (frameCount size).toNat 0
              S.mem.vm with
          | error e =>
              rw [hmap] at hok
              cases hok
          | ok vm =>
              rw [hmap] at hok
              cases hok
              -- a row within the bitmap is short, so the sizes do not wrap
              have hrowlt := h.booted.row_lt hrow (by omega)
              have htotal := h.booted.total
              have hlow := h.low
              have haligned := h.aligned
              unfold PageAligned at haligned
              have hroom : size.toNat + S.mem.kmallocAddr.toNat ≤ 0x00007FFFFFFFFFFF := by
                have hle : (size + S.mem.kmallocAddr).toNat ≤ 0x00007FFFFFFFFFFF := BitVec.not_lt.1 hspace
                rwa [BitVec.toNat_add, Nat.mod_eq_of_lt (by omega)] at hle
              have hnext : (S.mem.kmallocAddr + 0x1000 * frameCount size).toNat
                  = S.mem.kmallocAddr.toNat + 4096 * (frameCount size).toNat := by
                rw [BitVec.toNat_add, BitVec.toNat_mul, show (0x1000 : BitVec 64).toNat = 4096 from rfl]
                omega
              obtain ⟨hinv, hkernel, hwalks, hothers⟩ := kmallocMap_ok h.tables rfl (by omega) hmap
              have hk : vm.kernelPml4 = S.mem.vm.kernelPml4 := hkernel
              refine ⟨f, hrow, rfl, rfl, hnext, ?_, ?_, ?_, ?_⟩
              · show (S.mem.kmallocAddr + 0x1000 * frameCount size).toNat ≤ 2 ^ 47
                omega
              · show VmInvariant pool vm (· = vm.kernelPml4) vm.kernelPml4
                rw [hk]
                exact hinv
              · unfold blockPages
                rw [List.map_map]
                refine List.map_congr_left ?_
                intro i hi
                have hi : i < (frameCount size).toNat := List.mem_range.1 hi
                show walk vm vm.kernelPml4 (S.mem.kmallocAddr + BitVec.ofNat 64 (0x1000 * i)) = _
                rw [hk]
                exact hwalks i (Nat.zero_le _) (by omega) _ (pageNumber_add (by omega))
              · intro va hva
                show walk vm vm.kernelPml4 va = _
                rw [hk]
                exact hothers va fun j _ _ => by omega

end

/-! ## Private memory -/

/-- When a call gives private memory: the frames that `kmalloc` maps in place of the free ones from `f`
    on happen to be marked, and nobody has got them so far. -/
def KmSystem.Suitable (S : KmSystem) : KmCall → Prop
  | .kmalloc size => ∃ f, S.mem.phys.FirstRow (frameCount size).toNat f ∧
      ∀ i < (frameCount size).toNat, S.mem.phys.memBitmap.testbit (f / 4096 + i) ≠ 0 ∧
        (f / 4096 + i) * 4096 ∉ S.frames ++ S.allocated
  | .allocblock => True

section

variable {pool : PtPool} {S S' : KmSystem} {size addr : BitVec 64} {mem : KmallocState} {f : ℕ}

/-- The frames behind the blocks after a call. -/
theorem Kmalloced.frames_eq (hk : Kmalloced pool S size addr mem f) (h : KmInvariant pool S) :
    KmSystem.frames ⟨mem, (addr, size) :: S.blocks, S.allocated⟩
      = ((List.range (frameCount size).toNat).map fun i => (f / 4096 + i) * 4096) ++ S.frames := by
  have hcount := toNat_frameCount size
  have htotal := h.booted.total
  have hnew : (blockPages (addr, size)).map
      (fun va => (walk mem.vm mem.vm.kernelPml4 va).elim 0 BitVec.toNat)
      = (List.range (frameCount size).toNat).map fun i => (f / 4096 + i) * 4096 := by
    have hmap := congrArg (List.map fun r : Option (BitVec 64) => r.elim 0 BitVec.toNat) hk.frames
    rw [List.map_map, List.map_map] at hmap
    refine Eq.trans hmap (List.map_congr_left ?_)
    intro i hi
    rw [List.mem_range] at hi
    have hrow := h.booted.row_lt hk.row (by omega)
    show (BitVec.ofNat 64 ((f / 4096 + i) * 4096)).toNat = _
    rw [BitVec.toNat_ofNat, Nat.mod_eq_of_lt (by omega)]
  unfold KmSystem.frames
  rw [List.flatMap_cons, List.map_append]
  congr 1
  refine List.map_congr_left ?_
  intro va hva
  rw [hk.others va (h.pageNumber_lt hva)]

theorem KmInvariant.kmalloc (h : KmInvariant pool S) (hk : Kmalloced pool S size addr mem f) :
    KmInvariant pool ⟨mem, (addr, size) :: S.blocks, S.allocated⟩ := by
  have hnext := hk.next
  have haligned := h.aligned
  unfold PageAligned at haligned
  constructor
  · rw [hk.phys]
    exact h.booted
  · exact hk.tables
  · show mem.kmallocAddr.toNat % 4096 = 0
    omega
  · exact hk.low
  · intro b hb
    rcases List.mem_cons.1 hb with rfl | hb
    · rw [hk.addr_eq]
      exact ⟨h.aligned, Nat.le_of_eq hnext.symm⟩
    · obtain ⟨hpage, hbelow⟩ := h.below b hb
      refine ⟨hpage, Nat.le_trans hbelow ?_⟩
      show _ ≤ mem.kmallocAddr.toNat
      omega
  · refine List.Pairwise.cons ?_ h.apart
    intro b hb
    rw [hk.addr_eq]
    exact (h.below b hb).2
  · intro va hva
    rw [List.flatMap_cons] at hva
    rcases List.mem_append.1 hva with hva | hva
    · have hwalk := List.mem_map_of_mem (f := walk mem.vm mem.vm.kernelPml4) hva
      rw [hk.frames] at hwalk
      obtain ⟨i, -, hi⟩ := List.mem_map.1 hwalk
      refine ⟨_, hi.symm, ?_⟩
      unfold PageAligned
      rw [BitVec.toNat_ofNat]
      omega
    · show ∃ pa, walk mem.vm mem.vm.kernelPml4 va = some pa ∧ PageAligned pa
      rw [hk.others va (h.pageNumber_lt hva)]
      exact h.mapped va hva
  · rw [hk.phys]
    exact h.allocated

theorem KmInvariant.allocblock (h : KmInvariant pool S) {addr : ℕ} {phys : PhysState}
    (hok : physmemAllocblock S.mem.phys = .ok (addr, phys)) :
    KmInvariant pool ⟨{ S.mem with phys := phys }, S.blocks, addr :: S.allocated⟩ := by
  refine ⟨h.booted.allocblock hok, h.tables, h.aligned, h.low, h.below, h.apart, h.mapped, ?_⟩
  obtain ⟨f, rfl, -, -, rfl⟩ := physmemAllocblock_ok hok
  intro a ha
  rcases List.mem_cons.1 ha with rfl | ha
  · exact ⟨f, rfl, (testbit_setbit _ f f).2 (.inl ⟨rfl, rfl⟩)⟩
  · obtain ⟨g, hg, hused⟩ := h.allocated a ha
    exact ⟨g, hg, (testbit_setbit _ f g).2 (.inr hused)⟩

theorem KmStep.invariant {c : KmCall} (h : KmInvariant pool S) (hstep : KmStep pool S c S') :
    KmInvariant pool S' := by
  cases hstep with
  | kmalloc hsize hok =>
      obtain ⟨f, hk⟩ := kmalloc_ok h hsize hok
      exact h.kmalloc hk
  | allocblock hok => exact h.allocblock hok

/-- Blocks do not overlap. -/
theorem KmInvariant.disjoint (h : KmInvariant pool S) : S.blocks.Pairwise fun b c =>
    b.1.toNat + b.2.toNat ≤ c.1.toNat ∨ c.1.toNat + c.2.toNat ≤ b.1.toNat := by
  refine h.apart.imp ?_
  intro b c hbc
  have := toNat_frameCount c.2
  exact .inr (by omega)

/-- A call of `kmalloc` keeps all memory private exactly if it is suitable. -/
theorem kmalloc_private (h : KmInvariant pool S) (hsize : size ≠ 0) (hS : S.Private)
    (hok : Kudos.kmalloc pool S.mem size = .ok (addr, mem)) :
    KmSystem.Private ⟨mem, (addr, size) :: S.blocks, S.allocated⟩ ↔ S.Suitable (.kmalloc size) := by
  obtain ⟨f, hk⟩ := kmalloc_ok h hsize hok
  have hframes := hk.frames_eq h
  constructor
  · intro hprivate
    refine ⟨f, hk.row, ?_⟩
    intro i hi
    have hmem : (f / 4096 + i) * 4096
        ∈ (List.range (frameCount size).toNat).map fun i => (f / 4096 + i) * 4096 :=
      List.mem_map.2 ⟨i, List.mem_range.2 hi, rfl⟩
    constructor
    · have hused := hprivate.used ((f / 4096 + i) * 4096) (by
        rw [hframes]
        exact List.mem_append_left _ hmem)
      rw [hk.phys] at hused
      rwa [Nat.mul_div_cancel _ (by decide)] at hused
    · have hnodup := hprivate.distinct
      rw [hframes, List.append_assoc] at hnodup
      exact fun hold => (List.nodup_append.1 hnodup).2.2 _ hmem _ hold rfl
  · rintro ⟨g, hrow, hsuitable⟩
    obtain rfl := hk.row.eq hrow
    have hinv := h.kmalloc hk
    refine ⟨hinv.disjoint, hinv.mapped, ?_, ?_⟩
    · rw [hframes, List.append_assoc]
      refine List.nodup_append.2 ⟨?_, hS.distinct, ?_⟩
      · refine List.Nodup.map ?_ List.nodup_range
        intro i j hij
        have : (f / 4096 + i) * 4096 = (f / 4096 + j) * 4096 := hij
        omega
      · rintro a ha b hb rfl
        obtain ⟨i, hi, rfl⟩ := List.mem_map.1 ha
        exact (hsuitable i (List.mem_range.1 hi)).2 hb
    · intro frame hframe
      rw [hframes] at hframe
      rw [hk.phys]
      rcases List.mem_append.1 hframe with hnew | hold
      · obtain ⟨i, hi, rfl⟩ := List.mem_map.1 hnew
        rw [Nat.mul_div_cancel _ (by decide)]
        exact (hsuitable i (List.mem_range.1 hi)).1
      · exact hS.used frame hold

/-- `physmem_allocblock` takes a frame that is not marked, and so nobody has it. -/
theorem allocblock_private (h : KmInvariant pool S) (hS : S.Private) {addr : ℕ} {phys : PhysState}
    (hok : physmemAllocblock S.mem.phys = .ok (addr, phys)) :
    KmSystem.Private ⟨{ S.mem with phys := phys }, S.blocks, addr :: S.allocated⟩ := by
  obtain ⟨f, rfl, hfree, -, rfl⟩ := physmemAllocblock_ok hok
  refine ⟨hS.disjoint, hS.mapped, ?_, ?_⟩
  · show (S.frames ++ (f * 4096) :: S.allocated).Nodup
    rw [List.nodup_middle, List.nodup_cons]
    refine ⟨?_, hS.distinct⟩
    intro hmem
    rcases List.mem_append.1 hmem with hframe | hallocated
    · have hused := hS.used _ hframe
      rw [Nat.mul_div_cancel _ (by decide)] at hused
      exact hused hfree.2.2
    · obtain ⟨g, hg, hused⟩ := h.allocated _ hallocated
      obtain rfl : f = g := Nat.eq_of_mul_eq_mul_right (by decide) hg
      exact hused hfree.2.2
  · intro frame hframe
    exact (testbit_setbit _ f _).2 (.inr (hS.used frame hframe))

theorem kmStep_private {c : KmCall} (h : KmInvariant pool S) (hS : S.Private)
    (hstep : KmStep pool S c S') : S'.Private ↔ S.Suitable c := by
  cases hstep with
  | kmalloc hsize hok => exact kmalloc_private h hsize hS hok
  | allocblock hok => exact iff_of_true (allocblock_private h hS hok) trivial

theorem kmBoot_private (h : KmBoot pool S) : S.Private := by
  have hinv := kmBoot_invariant h
  have hframes : S.frames = [] := by
    unfold KmSystem.frames
    rw [h.blocks]
    rfl
  refine ⟨hinv.disjoint, hinv.mapped, ?_, ?_⟩
  · rw [hframes, h.allocated]
    exact List.nodup_nil
  · rw [hframes]
    exact fun frame hframe => absurd hframe List.not_mem_nil

/-- The runs of suitable calls, and the runs all of whose states have private memory. -/
abbrev SuitableRun (pool : PtPool) : KmSystem → Prop :=
  Reach (KmBoot pool) fun S c S' => KmStep pool S c S' ∧ S.Suitable c

abbrev PrivateRun (pool : PtPool) : KmSystem → Prop :=
  Reach (KmBoot pool) fun S c S' => KmStep pool S c S' ∧ S'.Private

theorem SuitableRun.privateRun (h : SuitableRun pool S) :
    PrivateRun pool S ∧ S.Private ∧ KmInvariant pool S := by
  induction h with
  | init hboot => exact ⟨.init hboot, kmBoot_private hboot, kmBoot_invariant hboot⟩
  | step c _ hstep ih =>
      obtain ⟨hrun, hprivate, hinv⟩ := ih
      have hnext := (kmStep_private hinv hprivate hstep.1).2 hstep.2
      exact ⟨.step c hrun ⟨hstep.1, hnext⟩, hnext, hstep.1.invariant hinv⟩

theorem PrivateRun.suitableRun (h : PrivateRun pool S) :
    SuitableRun pool S ∧ S.Private ∧ KmInvariant pool S := by
  induction h with
  | init hboot => exact ⟨.init hboot, kmBoot_private hboot, kmBoot_invariant hboot⟩
  | step c _ hstep ih =>
      obtain ⟨hrun, hprivate, hinv⟩ := ih
      have hsuitable := (kmStep_private hinv hprivate hstep.1).1 hstep.2
      exact ⟨.step c hrun ⟨hstep.1, hsuitable⟩, hstep.2, hstep.1.invariant hinv⟩

/-- A run from `vm_init` on makes suitable calls only, exactly if all of its states have private
    memory. -/
theorem suitableRun_iff (pool : PtPool) (S : KmSystem) :
    SuitableRun pool S ↔ PrivateRun pool S ∧ S.Private :=
  ⟨fun h => ⟨h.privateRun.1, h.privateRun.2.1⟩, fun h => h.1.suitableRun.1⟩

end

/-! ## Two blocks in one frame -/

/-- Physical memory after the boot of `lowBoot`. -/
def lowPhys : PhysState := (physmemInit lowBoot 0x3000).toOption.get (by decide +kernel)

theorem physmemInit_lowPhys : physmemInit lowBoot 0x3000 = .ok lowPhys :=
  eq_ok_of_toOption (Option.some_get ..).symm

def firstBlock : BitVec 64 × KmallocState :=
  (kmalloc samplePool ⟨lowPhys, bootVm, identityBound 0x3000#64⟩ 0x1000).toOption.get
    (by decide +kernel)

theorem kmalloc_firstBlock :
    kmalloc samplePool ⟨lowPhys, bootVm, identityBound 0x3000#64⟩ 0x1000 = .ok firstBlock :=
  eq_ok_of_toOption (Option.some_get ..).symm

def secondBlock : BitVec 64 × KmallocState :=
  (kmalloc samplePool firstBlock.2 0x1000).toOption.get (by decide +kernel)

theorem kmalloc_secondBlock : kmalloc samplePool firstBlock.2 0x1000 = .ok secondBlock :=
  eq_ok_of_toOption (Option.some_get ..).symm

/-- The system after both calls. -/
def twoBlocks : KmSystem := ⟨secondBlock.2, [(secondBlock.1, 0x1000), (firstBlock.1, 0x1000)], []⟩

theorem twoBlocks_frames : twoBlocks.frames = [0, 0] := by decide +kernel

/-- A boot and two calls of `kmalloc`. -/
theorem reach_kmalloc_twice {pool : PtPool} {mb : MultibootInfo} {lastAddress : ℕ} {phys : PhysState}
    {vm0 vm : VmState} {staticEnd size size' : BitVec 64} {r r' : BitVec 64 × KmallocState}
    (hphys : physmemInit mb lastAddress = .ok phys) (hvm : vmInit pool staticEnd vm0 = .ok vm)
    (hlow : identityBound staticEnd ≤ vmmKernelSpace) (hsize : size ≠ 0) (hsize' : size' ≠ 0)
    (hfirst : kmalloc pool ⟨phys, vm, identityBound staticEnd⟩ size = .ok r)
    (hsecond : kmalloc pool r.2 size' = .ok r') :
    Reach (KmBoot pool) (KmStep pool) ⟨r'.2, [(r'.1, size'), (r.1, size)], []⟩ := by
  have hboot : Reach (KmBoot pool) (KmStep pool) ⟨⟨phys, vm, identityBound staticEnd⟩, [], []⟩ :=
    .init ⟨⟨mb, lastAddress, hphys⟩, ⟨staticEnd, vm0, hvm, rfl⟩, hlow, rfl, rfl⟩
  exact (hboot.step _ (.kmalloc hsize hfirst)).step _ (.kmalloc hsize' hsecond)

/-- Both blocks are in the first frame. -/
theorem twoBlocks_not_private :
    Reach (KmBoot samplePool) (KmStep samplePool) twoBlocks ∧ ¬ twoBlocks.Private := by
  constructor
  · exact reach_kmalloc_twice physmemInit_lowPhys vmInit_bootVm (by decide) (by decide) (by decide)
      kmalloc_firstBlock kmalloc_secondBlock
  · intro hprivate
    have hnodup := hprivate.distinct
    rw [twoBlocks_frames] at hnodup
    simp at hnodup

end Kudos
