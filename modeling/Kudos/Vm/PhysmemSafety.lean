import Kudos.Library.LeastFirst
import Kudos.Vm.Physmem

set_option autoImplicit false

/-! # What the physical allocator hands out

`physmem_getframe` looks for a bit whose mask is clear and takes the lowest one. Since the masks of the
upper half of a word are those of the lower half, it only finds frames in the lower halves
(`PhysState.Free`). Apart from that it is an allocator of the least free frame, with as many frames as
`used_blocks` is short of `total_blocks` (`physReachable_leastFirst`).

So whether it hands out the right frames is a question about the bitmap after the memory map has been
read (`physmemSetup_spec`). The initial fill leaves every other half byte clear, which makes frames
available that are in no free region; it goes well only if all frames of the free regions are lower
than these (`FillMatches`). -/

namespace Kudos

open Transition WordBitmap

/-! ## The search -/

/-- The frames that `physmem_getframe` can find. -/
def PhysState.Free (s : PhysState) (f : ℕ) : Prop :=
  f % 64 < 32 ∧ s.HasWord (f / 64) ∧ s.memBitmap.testbit f = 0

/-- Two frames of lower halves with the same mask are the same. -/
theorem sameMask_iff_eq {f g : ℕ} (hf : f % 64 < 32) (hg : g % 64 < 32) :
    SameMask f g ↔ f = g := by
  unfold SameMask
  constructor
  · rintro ⟨hword, hmask⟩
    omega
  · rintro rfl
    exact ⟨rfl, rfl⟩

theorem intShift_mod (j : ℕ) : intShift (j % 32) = intShift j := by
  unfold intShift
  rw [Nat.mod_mod]

/-- The bit that the inner loop of `physmem_getframe` finds. -/
theorem find_intShift_some {s : PhysState} {i j : ℕ} (hword : s.HasWord i)
    (h : (List.range 64).find? (fun j => s.memBitmap i &&& intShift j = 0) = some j) :
    s.Free (i * 8 * 8 + j) ∧ ∀ g, g / 64 = i → s.Free g → i * 8 * 8 + j ≤ g := by
  obtain ⟨hzero, -, hleast⟩ := List.find?_range_eq_some.1 h
  have hzero : s.memBitmap i &&& intShift j = 0 := by simpa using hzero
  have hlow : j < 32 := by
    by_contra hge
    have hne := hleast (j % 32) (by omega)
    rw [intShift_mod] at hne
    exact absurd hzero (by simpa using hne)
  have hj64 : j < 64 := by omega
  refine ⟨⟨by omega, ?_, ?_⟩, ?_⟩
  · rwa [show (i * 8 * 8 + j) / 64 = i by omega]
  · unfold testbit
    rwa [show (i * 8 * 8 + j) / 64 = i by omega, show (i * 8 * 8 + j) % 64 = j by omega]
  · rintro g rfl ⟨-, -, hg⟩
    by_contra hlt
    have hne := hleast (g % 64) (by omega)
    exact absurd hg (by simpa [testbit] using hne)

theorem find_intShift_none {s : PhysState} {i : ℕ}
    (h : (List.range 64).find? (fun j => s.memBitmap i &&& intShift j = 0) = none) :
    ∀ g, g / 64 = i → ¬ s.Free g := by
  rintro g rfl ⟨-, -, hg⟩
  have hne := List.find?_eq_none.1 h (g % 64) (List.mem_range.2 (Nat.mod_lt g (by decide)))
  exact absurd hg (by simpa [testbit] using hne)

theorem not_free_of_full {s : PhysState} {i : ℕ} (h : s.memBitmap i = 0xFFFFFFFFFFFFFFFF#64) :
    ∀ g, g / 64 = i → ¬ s.Free g := by
  rintro g rfl ⟨-, -, hg⟩
  unfold testbit at hg
  rw [h, show 0xFFFFFFFFFFFFFFFF#64 = BitVec.allOnes 64 from rfl, BitVec.allOnes_and] at hg
  have hbit := getLsbD_intShift (g % 64) (g % 32)
  rw [hg, Nat.mod_mod_of_dvd g (by decide : 32 ∣ 64)] at hbit
  have hlt : g % 32 < 32 := Nat.mod_lt g (by decide)
  have hclass : g % 32 < 64 ∧ min (g % 32) 31 = g % 32 := by omega
  simp [hclass] at hbit

/-- What a scan of `n` words from word `i` on can come to: the lowest free frame there, or the end of
    the bitmap, or neither. -/
def ScanOutcome (s : PhysState) (n i : ℕ) (r : Except KernelFault (Option ℕ)) : Prop :=
  (∃ f, r = .ok (some f) ∧ s.Free f ∧ ∀ g, i ≤ g / 64 → s.Free g → f ≤ g) ∨
  (r = .error .outOfBounds ∧ ∀ g, i ≤ g / 64 → ¬ s.Free g) ∨
  (r = .ok none ∧ ∀ k < n, s.HasWord (i + k))

/-- A word without a free frame is passed over. -/
theorem ScanOutcome.skip {s : PhysState} {n i : ℕ} {r : Except KernelFault (Option ℕ)}
    (hword : s.HasWord i) (hnone : ∀ g, g / 64 = i → ¬ s.Free g) (h : ScanOutcome s n (i + 1) r) :
    ScanOutcome s (n + 1) i r := by
  have hnext : ∀ g, i ≤ g / 64 → s.Free g → i + 1 ≤ g / 64 := by
    intro g hle hg
    have : g / 64 ≠ i := fun h => hnone g h hg
    omega
  rcases h with ⟨f, hr, hf, hleast⟩ | ⟨hr, hempty⟩ | ⟨hr, hwords⟩
  · exact Or.inl ⟨f, hr, hf, fun g hle hg => hleast g (hnext g hle hg) hg⟩
  · exact Or.inr (Or.inl ⟨hr, fun g hle hg => hempty g (hnext g hle hg) hg⟩)
  · refine Or.inr (Or.inr ⟨hr, ?_⟩)
    intro k hk
    rcases k with _ | k
    · exact hword
    · rw [← Nat.add_assoc, Nat.add_right_comm]
      exact hwords k (by omega)

theorem physmemScan_outcome (s : PhysState) (n i : ℕ) :
    ScanOutcome s n i (physmemScan s n i) := by
  induction n generalizing i with
  | zero => exact Or.inr (Or.inr ⟨rfl, by simp⟩)
  | succ n ih =>
      rw [physmemScan]
      split
      · next hword =>
          split
          · next hfull =>
              split
              · next j hfind =>
                  obtain ⟨hfree, hleast⟩ := find_intShift_some hword hfind
                  refine Or.inl ⟨i * 8 * 8 + j, rfl, hfree, ?_⟩
                  intro g hle hg
                  by_cases hi : g / 64 = i
                  · exact hleast g hi hg
                  · have hj : j < 64 := List.mem_range.1 (List.mem_of_find?_eq_some hfind)
                    omega
              · next hfind => exact (ih (i + 1)).skip hword (find_intShift_none hfind)
          · next hfull => exact (ih (i + 1)).skip hword (not_free_of_full (not_not.1 hfull))
      · next hword =>
          refine Or.inr (Or.inl ⟨rfl, ?_⟩)
          rintro g hle ⟨-, hg, -⟩
          unfold PhysState.HasWord at hword hg
          omega

/-! ## Calls -/

/-- The branches of `physmem_allocblock`. -/
theorem physmemAllocblock_outcome (s : PhysState) :
    (s.totalBlocks ≤ s.usedBlocks.toNat ∧ physmemAllocblock s = .error .panic) ∨
    (s.usedBlocks.toNat < s.totalBlocks ∧
      ((∃ f, physmemAllocblock s = .ok (f * 4096,
            { s with memBitmap := s.memBitmap.setbit f, usedBlocks := s.usedBlocks + 1 }) ∧
          s.Free f ∧ ∀ g, s.Free g → f ≤ g) ∨
        (physmemAllocblock s = .error .outOfBounds ∧ ∀ g, ¬ s.Free g) ∨
        (physmemAllocblock s = .error .panic ∧ ∀ k < s.totalBlocks, s.HasWord k))) := by
  unfold physmemAllocblock physmemGetframe
  by_cases hfull : s.totalBlocks ≤ s.usedBlocks.toNat
  · exact Or.inl ⟨hfull, by rw [if_pos hfull]⟩
  · rw [if_neg hfull]
    refine Or.inr ⟨Nat.lt_of_not_le hfull, ?_⟩
    rcases physmemScan_outcome s s.totalBlocks 0 with
      ⟨f, hscan, hfree, hleast⟩ | ⟨hscan, hnone⟩ | ⟨hscan, hwords⟩
    · refine Or.inl ⟨f, ?_, hfree, fun g => hleast g (Nat.zero_le _)⟩
      simp [hscan, memmapSetbit, hfree.2.1, bind, Except.bind, pure, Except.pure]
    · exact Or.inr (Or.inl ⟨by rw [hscan]; rfl, fun g => hnone g (Nat.zero_le _)⟩)
    · refine Or.inr (Or.inr ⟨by rw [hscan]; rfl, fun k hk => ?_⟩)
      simpa using hwords k hk

/-- How many frames can be allocated before `used_blocks` reaches `total_blocks`. -/
def PhysState.budget (s : PhysState) : ℕ := s.totalBlocks - s.usedBlocks.toNat

/-- `s` is what `s0` has become when the frames `A` are in use. -/
structure HandedOut (s0 s : PhysState) (A : List ℕ) : Prop where
  total : s.totalBlocks = s0.totalBlocks
  size : s.bitmapSize = s0.bitmapSize
  used : s.usedBlocks = s0.usedBlocks + BitVec.ofNat 64 A.length
  bits : ∀ f, f % 64 < 32 → (s.memBitmap.testbit f ≠ 0 ↔ s0.memBitmap.testbit f ≠ 0 ∨ f ∈ A)

/-- A memory for whose frames there are 64-bit counters, and for whose words there is a bitmap. -/
structure PhysState.Sized (s : PhysState) : Prop where
  bitmap : s.bitmapSize = s.totalBlocks / 8
  total : s.totalBlocks < 2 ^ 64

variable {s0 s : PhysState} {A : List ℕ}

theorem HandedOut.refl (s0 : PhysState) : HandedOut s0 s0 [] where
  total := rfl
  size := rfl
  used := by simp
  bits := by simp

theorem HandedOut.hasWord_iff (h : HandedOut s0 s A) (i : ℕ) : s.HasWord i ↔ s0.HasWord i := by
  unfold PhysState.HasWord
  rw [h.size]

theorem HandedOut.free_iff (h : HandedOut s0 s A) (f : ℕ) : s.Free f ↔ s0.Free f ∧ f ∉ A := by
  unfold PhysState.Free
  rw [h.hasWord_iff]
  constructor
  · rintro ⟨hlow, hword, hzero⟩
    have hclear := mt (h.bits f hlow).2 (not_not.2 hzero)
    exact ⟨⟨hlow, hword, not_not.1 fun hne => hclear (Or.inl hne)⟩, fun hA => hclear (Or.inr hA)⟩
  · rintro ⟨⟨hlow, hword, hzero⟩, hA⟩
    refine ⟨hlow, hword, ?_⟩
    by_contra hne
    rcases (h.bits f hlow).1 hne with h0 | hmem
    · exact h0 hzero
    · exact hA hmem

/-- As long as no more than the budget is in use, the counter does not wrap. -/
theorem HandedOut.used_toNat (h : HandedOut s0 s A) (hs0 : s0.Sized) (hlen : A.length ≤ s0.budget) :
    s.totalBlocks ≤ s.usedBlocks.toNat ↔ ¬ A.length < s0.budget := by
  have htotal := hs0.total
  have hused := s0.usedBlocks.isLt
  unfold PhysState.budget at hlen ⊢
  rw [h.total, h.used, BitVec.toNat_add, BitVec.toNat_ofNat]
  by_cases hzero : A.length = 0
  · rw [hzero, Nat.zero_mod, Nat.add_zero, Nat.mod_eq_of_lt hused]
    omega
  · rw [Nat.mod_eq_of_lt (by omega : A.length < 2 ^ 64), Nat.mod_eq_of_lt (by omega)]
    omega

/-- The frame that `physmem_allocblock` has found is in use. -/
theorem HandedOut.setbit (h : HandedOut s0 s A) {f : ℕ} (hf : f % 64 < 32) :
    HandedOut s0 { s with memBitmap := s.memBitmap.setbit f, usedBlocks := s.usedBlocks + 1 }
      (f :: A) where
  total := h.total
  size := h.size
  used := by
    show s.usedBlocks + 1 = _
    rw [h.used, List.length_cons, BitVec.ofNat_add, BitVec.add_assoc]
    rfl
  bits := by
    intro g hg
    show (s.memBitmap.setbit f).testbit g ≠ 0 ↔ _
    rw [testbit_setbit, sameMask_iff_eq hf hg, h.bits g hg, List.mem_cons, eq_comm (a := f)]
    exact or_left_comm

theorem HandedOut.unsetbit (h : HandedOut s0 s A) (hA : A.Nodup) {f : ℕ} (hmem : f ∈ A)
    (hf : s0.Free f) :
    HandedOut s0 { s with memBitmap := s.memBitmap.unsetbit f, usedBlocks := s.usedBlocks - 1 }
      (A.erase f) where
  total := h.total
  size := h.size
  used := by
    show s.usedBlocks - 1 = _
    obtain ⟨n, hn⟩ : ∃ n, A.length = n + 1 := Nat.exists_eq_add_one.2 (List.length_pos_of_mem hmem)
    rw [h.used, List.length_erase_of_mem hmem, hn, Nat.add_sub_cancel, BitVec.ofNat_add,
      ← BitVec.add_assoc]
    exact BitVec.add_sub_cancel _ _
  bits := by
    intro g hg
    show (s.memBitmap.unsetbit f).testbit g ≠ 0 ↔ _
    rw [testbit_unsetbit, sameMask_iff_eq hf.1 hg, h.bits g hg, hA.mem_erase_iff]
    constructor
    · rintro ⟨hne, h0 | hmem⟩
      · exact Or.inl h0
      · exact Or.inr ⟨fun heq => hne heq.symm, hmem⟩
    · rintro (h0 | ⟨hne, hmem⟩)
      · refine ⟨?_, Or.inl h0⟩
        rintro rfl
        exact h0 hf.2.2
      · exact ⟨fun heq => hne heq.symm, Or.inr hmem⟩

/-- What `physmem_allocblock` does: it hands out the lowest frame that is free and not in use. When
    the budget is used up it stops the kernel, and when the frames run out before that, it reads past
    the end of the bitmap. -/
theorem physmemAllocblock_cases (h : HandedOut s0 s A) (hs0 : s0.Sized)
    (hlen : A.length ≤ s0.budget) :
    (A.length = s0.budget ∧ physmemAllocblock s = .error .panic) ∨
    (A.length < s0.budget ∧ ∃ f s', physmemAllocblock s = .ok (f * 4096, s') ∧
      HandedOut s0 s' (f :: A) ∧ s0.Free f ∧ f ∉ A ∧ ∀ g, s0.Free g → g < f → g ∈ A) ∨
    (A.length < s0.budget ∧ physmemAllocblock s = .error .outOfBounds ∧
      ∀ g, s0.Free g → g ∈ A) := by
  have hused := h.used_toNat hs0 hlen
  rcases physmemAllocblock_outcome s with ⟨hfull, herr⟩ | ⟨hfull, hrest⟩
  · have := hused.1 hfull
    exact Or.inl ⟨by omega, herr⟩
  · have hlt : A.length < s0.budget := not_not.1 (mt hused.2 (Nat.not_le.2 hfull))
    refine Or.inr ?_
    rcases hrest with ⟨f, hok, hfree, hleast⟩ | ⟨herr, hnone⟩ | ⟨-, hwords⟩
    · obtain ⟨hfree0, hnew⟩ := (h.free_iff f).1 hfree
      refine Or.inl ⟨hlt, f, _, hok, h.setbit hfree.1, hfree0, hnew, ?_⟩
      intro g hg hgf
      by_contra hA
      exact absurd (hleast g ((h.free_iff g).2 ⟨hg, hA⟩)) (by omega)
    · refine Or.inr ⟨hlt, herr, ?_⟩
      intro g hg
      by_contra hA
      exact hnone g ((h.free_iff g).2 ⟨hg, hA⟩)
    · -- The bitmap has fewer words than the loop would visit.
      have hlast := hwords (s.totalBlocks - 1) (by omega)
      have hsize := hs0.bitmap
      unfold PhysState.HasWord at hlast
      rw [h.size, h.total] at hlast
      rw [h.total] at hfull
      omega

/-- `physmem_freeblock` on a frame that is in use. -/
theorem physmemFreeblock_spec (h : HandedOut s0 s A) (hA : A.Nodup) {f : ℕ} (hmem : f ∈ A)
    (hf : s0.Free f) :
    ∃ s', physmemFreeblock s (f * 4096) = .ok s' ∧ HandedOut s0 s' (A.erase f) := by
  refine ⟨_, ?_, h.unsetbit hA hmem hf⟩
  have hword : s.HasWord (f / 64) := (h.hasWord_iff _).2 hf.2.1
  rw [physmemFreeblock, Nat.mul_div_cancel f (by decide), memmapUnsetbit, if_pos hword]
  rfl

/-! ## Reading the memory map -/

/-- Freeing the frames `fs`, and marking frame 0 if `any`, touches only words within the bitmap. -/
def PhysState.Fits (s : PhysState) (any : Prop) (fs : List ℕ) : Prop :=
  (any → s.HasWord 0) ∧ ∀ f ∈ fs, s.HasWord (f / 64)

/-- `s'` is `s` after the frames `fs` were freed and, if `any`, frame 0 was marked after that. -/
structure Freed (s : PhysState) (any : Prop) (fs : List ℕ) (s' : PhysState) : Prop where
  total : s'.totalBlocks = s.totalBlocks
  size : s'.bitmapSize = s.bitmapSize
  used : s'.usedBlocks = s.usedBlocks - BitVec.ofNat 64 fs.length
  bits : ∀ j, s'.memBitmap.testbit j ≠ 0 ↔
    (any ∧ SameMask 0 j) ∨ ((∀ f ∈ fs, ¬ SameMask f j) ∧ s.memBitmap.testbit j ≠ 0)

/-- What a function that frees frames can come to. -/
def FreeOutcome (s : PhysState) (any : Prop) (fs : List ℕ) (r : Except KernelFault PhysState) :
    Prop :=
  (∃ s', r = .ok s' ∧ s.Fits any fs ∧ Freed s any fs s') ∨
  (r = .error .outOfBounds ∧ ¬ s.Fits any fs)

theorem Freed.fits_iff {s s' : PhysState} {any : Prop} {fs : List ℕ} (h : Freed s any fs s')
    (any' : Prop) (fs' : List ℕ) : s'.Fits any' fs' ↔ s.Fits any' fs' := by
  unfold PhysState.Fits PhysState.HasWord
  rw [h.size]

theorem Freed.trans {s s' s'' : PhysState} {any any' : Prop} {fs fs' : List ℕ}
    (h : Freed s any fs s') (h' : Freed s' any' fs' s'') (hany : any → fs' = [] ∨ any') :
    Freed s (any ∨ any') (fs ++ fs') s'' where
  total := h'.total.trans h.total
  size := h'.size.trans h.size
  used := by
    rw [h'.used, h.used, List.length_append, BitVec.ofNat_add, BitVec.sub_sub]
  bits := by
    intro j
    rw [h'.bits, h.bits, List.forall_mem_append]
    constructor
    · rintro (⟨ha, hj⟩ | ⟨hfs', ⟨ha, hj⟩ | ⟨hfs, hbit⟩⟩)
      · exact Or.inl ⟨Or.inr ha, hj⟩
      · exact Or.inl ⟨Or.inl ha, hj⟩
      · exact Or.inr ⟨⟨hfs, hfs'⟩, hbit⟩
    · rintro (⟨ha | ha, hj⟩ | ⟨⟨hfs, hfs'⟩, hbit⟩)
      · -- Frame 0 stays marked, since it is marked again if more frames are freed.
        rcases hany ha with rfl | ha'
        · exact Or.inr ⟨by simp, Or.inl ⟨ha, hj⟩⟩
        · exact Or.inl ⟨ha', hj⟩
      · exact Or.inl ⟨ha, hj⟩
      · exact Or.inr ⟨hfs', Or.inr ⟨hfs, hbit⟩⟩

/-- Two functions that free frames, one after the other. -/
theorem FreeOutcome.bind {s : PhysState} {any any' : Prop} {fs fs' : List ℕ}
    {r : Except KernelFault PhysState} {k : PhysState → Except KernelFault PhysState}
    (h : FreeOutcome s any fs r) (hk : ∀ s', FreeOutcome s' any' fs' (k s'))
    (hany : any → fs' = [] ∨ any') : FreeOutcome s (any ∨ any') (fs ++ fs') (r >>= k) := by
  have hfits : s.Fits (any ∨ any') (fs ++ fs') ↔ s.Fits any fs ∧ s.Fits any' fs' := by
    unfold PhysState.Fits
    rw [or_imp, List.forall_mem_append]
    exact and_and_and_comm
  rcases h with ⟨s', rfl, hfit, hfreed⟩ | ⟨rfl, hfit⟩
  · rcases hk s' with ⟨s'', hok, hfit', hfreed'⟩ | ⟨herr, hfit'⟩
    · exact Or.inl ⟨s'', hok, hfits.2 ⟨hfit, (hfreed.fits_iff _ _).1 hfit'⟩,
        hfreed.trans hfreed' hany⟩
    · exact Or.inr ⟨herr, fun hall => hfit' ((hfreed.fits_iff _ _).2 (hfits.1 hall).2)⟩
  · exact Or.inr ⟨rfl, fun hall => hfit (hfits.1 hall).1⟩

theorem physmemFreeblock_outcome (s : PhysState) (f : ℕ) :
    FreeOutcome s False [f] (physmemFreeblock s (f * 4096)) := by
  unfold physmemFreeblock memmapUnsetbit
  rw [Nat.mul_div_cancel f (by decide)]
  by_cases hword : s.HasWord (f / 64)
  · rw [if_pos hword]
    refine Or.inl ⟨_, rfl, ⟨False.elim, by simpa using hword⟩, rfl, rfl, rfl, ?_⟩
    intro j
    show (s.memBitmap.unsetbit f).testbit j ≠ 0 ↔ _
    rw [testbit_unsetbit]
    simp
  · rw [if_neg hword]
    exact Or.inr ⟨rfl, fun hfits => hword (hfits.2 f (List.mem_singleton_self f))⟩

theorem memmapSetbit_outcome (s : PhysState) : FreeOutcome s True [] (memmapSetbit s 0) := by
  unfold memmapSetbit
  by_cases hword : s.HasWord (0 / 64)
  · rw [if_pos hword]
    refine Or.inl ⟨_, rfl, ⟨fun _ => hword, by simp⟩, rfl, rfl, ?_, ?_⟩
    · simp
    · intro j
      show (s.memBitmap.setbit 0).testbit j ≠ 0 ↔ _
      rw [testbit_setbit]
      simp
  · rw [if_neg hword]
    exact Or.inr ⟨rfl, fun hfits => hword (hfits.1 trivial)⟩

/-- The frames of a region are freed as by `physmem_freeblock`. -/
theorem physmemFreeblocks_succ (n k : ℕ) (s : PhysState) :
    physmemFreeblocks (n + 1) k s = physmemFreeblock s (k * 4096) >>= physmemFreeblocks n (k + 1) := by
  unfold physmemFreeblock
  rw [physmemFreeblocks, Nat.mul_div_cancel k (by decide)]
  cases memmapUnsetbit s k with
  | error e => rfl
  | ok s' => rfl

theorem physmemFreeblocks_outcome (n k : ℕ) (s : PhysState) :
    FreeOutcome s False (List.range' k n) (physmemFreeblocks n k s) := by
  induction n generalizing k s with
  | zero => exact Or.inl ⟨s, rfl, ⟨False.elim, by simp⟩, rfl, rfl, by simp, by simp⟩
  | succ n ih =>
      have h := (physmemFreeblock_outcome s k).bind (ih (k + 1)) False.elim
      rwa [← physmemFreeblocks_succ, or_false, List.singleton_append, ← List.range'_succ] at h

/-- The frames of a region. -/
def MemRegion.frames (r : MemRegion) : List ℕ :=
  List.range' (r.baseAddress.toNat / 4096) (r.length.toNat / 4096)

theorem physmemFreeregion_outcome (s : PhysState) (r : MemRegion) :
    FreeOutcome s True r.frames (physmemFreeregion s r.baseAddress r.length) := by
  have h := (physmemFreeblocks_outcome (r.length.toNat / 4096) (r.baseAddress.toNat / 4096) s).bind
    memmapSetbit_outcome False.elim
  rwa [false_or, List.append_nil] at h

/-- The memory map has a free region, possibly an empty one. -/
def HasFree (rs : List MemRegion) : Prop := ∃ r ∈ rs, r.type = memtypeFree

/-- The frames of the free regions of a memory map, in its order. -/
def freeFrames : List MemRegion → List ℕ
  | [] => []
  | r :: rs => if r.type = memtypeFree then r.frames ++ freeFrames rs else freeFrames rs

theorem mem_freeFrames {rs : List MemRegion} {f : ℕ} :
    f ∈ freeFrames rs ↔ ∃ r ∈ rs, r.type = memtypeFree ∧ f ∈ r.frames := by
  induction rs with
  | nil => simp [freeFrames]
  | cons r rs ih =>
      unfold freeFrames
      rw [List.exists_mem_cons_iff, ← ih]
      by_cases hr : r.type = memtypeFree
      · rw [if_pos hr, List.mem_append]
        simp [hr]
      · rw [if_neg hr]
        simp [hr]

theorem hasFree_of_mem {rs : List MemRegion} {f : ℕ} (h : f ∈ freeFrames rs) : HasFree rs := by
  obtain ⟨r, hr, hfree, -⟩ := mem_freeFrames.1 h
  exact ⟨r, hr, hfree⟩

theorem hasFree_cons_iff (r : MemRegion) (rs : List MemRegion) :
    HasFree (r :: rs) ↔ r.type = memtypeFree ∨ HasFree rs := by
  unfold HasFree
  exact List.exists_mem_cons_iff _ _ _

theorem physmemRegions_outcome (rs : List MemRegion) (s : PhysState) :
    FreeOutcome s (HasFree rs) (freeFrames rs) (physmemRegions rs s) := by
  induction rs generalizing s with
  | nil => exact Or.inl ⟨s, rfl, by simp [PhysState.Fits, HasFree, freeFrames], rfl, rfl,
      by simp [freeFrames], by simp [freeFrames, HasFree]⟩
  | cons r rs ih =>
      unfold freeFrames physmemRegions
      rw [hasFree_cons_iff]
      by_cases hr : r.type = memtypeFree
      · rw [if_pos hr, if_pos hr, eq_true hr]
        refine (physmemFreeregion_outcome s r).bind ih ?_
        intro _
        rcases List.eq_nil_or_concat (freeFrames rs) with hnil | ⟨l, f, hl⟩
        · exact Or.inl hnil
        · exact Or.inr (hasFree_of_mem (f := f) (by simp [hl]))
      · rw [if_neg hr, if_neg hr, eq_false hr, false_or]
        exact ih s

namespace MultibootInfo

variable (mb : MultibootInfo)

/-- The frames of the free regions. -/
def freeFrames : List ℕ := Kudos.freeFrames mb.memoryMap

/-- Every word that is touched for the memory map is within the bitmap. -/
def MapFits : Prop := (physmemFilled mb).Fits (HasFree mb.memoryMap) mb.freeFrames

/-- The free regions consist of pages below the end of the memory. -/
structure Regular : Prop where
  aligned : ∀ r ∈ mb.memoryMap, r.type = memtypeFree →
    r.baseAddress.toNat % 4096 = 0 ∧ r.length.toNat % 4096 = 0
  below : ∀ r ∈ mb.memoryMap, r.type = memtypeFree →
    r.baseAddress.toNat + r.length.toNat ≤ mb.totalBlocks * 4096

end MultibootInfo

/-- The frames `fs` lie so that the initial fill does no harm: they are in lower halves of words, and
    a frame below one of them that the fill leaves clear is one of them. -/
structure FillMatches (fs : List ℕ) : Prop where
  nodup : fs.Nodup
  nonzero : ∀ f ∈ fs, f ≠ 0
  low : ∀ f ∈ fs, f % 64 < 32
  below : ∀ f ∈ fs, ∀ g < f, g % 64 < 31 → 4 ≤ g % 8 → g ∈ fs

variable {mb : MultibootInfo}

/-- The bits that the fill leaves clear. -/
theorem physmemFilled_testbit (mb : MultibootInfo) (f : ℕ) :
    (physmemFilled mb).memBitmap.testbit f ≠ 0 ↔ f % 32 = 31 ∨ f % 8 < 4 := by
  have hfill : ∀ j < 64, (0x0F0F0F0F0F0F0F0F#64).getLsbD j = decide (j % 8 < 4) := by decide
  rw [testbit_ne_zero_iff]
  constructor
  · rintro ⟨j, hj, hclass, hbit⟩
    have hbit := (hfill j hj).symm.trans hbit
    rw [decide_eq_true_eq] at hbit
    omega
  · intro h
    by_cases hlast : f % 32 = 31
    · -- The mask of bit 31 covers bit 32, which is set.
      exact ⟨32, by decide, by omega, hfill 32 (by decide)⟩
    · refine ⟨f % 32, by omega, by omega, (hfill _ (by omega)).trans ?_⟩
      rw [decide_eq_true_eq]
      omega

theorem physmemSetup_outcome (mb : MultibootInfo) :
    FreeOutcome (physmemFilled mb) (HasFree mb.memoryMap) mb.freeFrames (physmemSetup mb) :=
  physmemRegions_outcome mb.memoryMap (physmemFilled mb)

/-- What the initialization has done when it starts to allocate. -/
theorem physmemSetup_spec {s : PhysState} (h : physmemSetup mb = .ok s) :
    mb.MapFits ∧ Freed (physmemFilled mb) (HasFree mb.memoryMap) mb.freeFrames s := by
  rcases physmemSetup_outcome mb with ⟨s', hok, hfits, hfreed⟩ | ⟨herr, -⟩
  · cases h.symm.trans hok
    exact ⟨hfits, hfreed⟩
  · cases h.symm.trans herr

theorem MultibootInfo.totalBlocks_lt (mb : MultibootInfo) : mb.totalBlocks < 2 ^ 31 := by
  have hhigh := mb.memoryHigh.isLt
  have hlow := mb.memoryLow.isLt
  unfold MultibootInfo.totalBlocks
  omega

theorem Freed.sized {any : Prop} {fs : List ℕ} {s : PhysState}
    (h : Freed (physmemFilled mb) any fs s) : s.Sized where
  bitmap := by
    rw [h.size, h.total]
    rfl
  total := by
    rw [h.total]
    exact Nat.lt_trans mb.totalBlocks_lt (by decide)

theorem Freed.free_iff {any : Prop} {fs : List ℕ} {s : PhysState}
    (h : Freed (physmemFilled mb) any fs s) (f : ℕ) : s.Free f ↔
      f % 64 < 32 ∧ (physmemFilled mb).HasWord (f / 64) ∧ ¬ (any ∧ SameMask 0 f) ∧
        ((∃ g ∈ fs, SameMask g f) ∨ (f % 32 ≠ 31 ∧ 4 ≤ f % 8)) := by
  have hword : s.HasWord (f / 64) ↔ (physmemFilled mb).HasWord (f / 64) := by
    unfold PhysState.HasWord
    rw [h.size]
  have hclear : s.memBitmap.testbit f = 0 ↔ ¬ (any ∧ SameMask 0 f) ∧
      ((∃ g ∈ fs, SameMask g f) ∨ (f % 32 ≠ 31 ∧ 4 ≤ f % 8)) := by
    rw [← not_iff_not, ← ne_eq, h.bits, physmemFilled_testbit, not_and_or, not_not]
    refine or_congr_right ?_
    rw [not_or, not_and_or, not_not, Nat.not_le]
    simp
  unfold PhysState.Free
  rw [hword, hclear]

/-- The fill does no harm exactly if the frames that are meant to be handed out come first among those
    that can be found. -/
theorem Freed.segment_iff {any : Prop} {fs : List ℕ} {s : PhysState}
    (h : Freed (physmemFilled mb) any fs s) (hfits : (physmemFilled mb).Fits any fs)
    (hany : ∀ f ∈ fs, any) : LeastFirst.Segment (fun f => s.Free f) fs ↔ FillMatches fs := by
  constructor
  · intro hseg
    have hfree : ∀ f ∈ fs, s.Free f := hseg.subset
    refine ⟨hseg.nodup, ?_, fun f hf => (hfree f hf).1, ?_⟩
    · rintro f hf rfl
      obtain ⟨-, -, hzero, -⟩ := (h.free_iff 0).1 (hfree 0 hf)
      exact hzero ⟨hany 0 hf, rfl, rfl⟩
    · intro f hf g hlt hlow hclear
      refine hseg.below f hf g ((h.free_iff g).2 ⟨by omega, ?_, ?_, Or.inr ⟨by omega, hclear⟩⟩) hlt
      · have hword := hfits.2 f hf
        unfold PhysState.HasWord at hword ⊢
        omega
      · rintro ⟨-, -, hmask⟩
        omega
  · intro hfill
    refine ⟨hfill.nodup, ?_, ?_⟩
    · intro f hf
      have hlow := hfill.low f hf
      refine (h.free_iff f).2 ⟨hlow, hfits.2 f hf, ?_, Or.inl ⟨f, hf, rfl, rfl⟩⟩
      rintro ⟨-, hzero⟩
      exact hfill.nonzero f hf ((sameMask_iff_eq (by decide) hlow).1 hzero).symm
    · intro f hf g hg hlt
      obtain ⟨hlow, -, -, ⟨f', hf', hmask⟩ | ⟨hlast, hclear⟩⟩ := (h.free_iff g).1 hg
      · rwa [← (sameMask_iff_eq (hfill.low f' hf') hlow).1 hmask]
      · exact hfill.below f hf g hlt (by omega) hclear

/-! ## The number of free frames -/

theorem MemRegion.mem_frames {r : MemRegion} (hbase : r.baseAddress.toNat % 4096 = 0)
    (hlength : r.length.toNat % 4096 = 0) {f : ℕ} : f ∈ r.frames ↔
      r.baseAddress.toNat ≤ f * 4096 ∧ f * 4096 + 4096 ≤ r.baseAddress.toNat + r.length.toNat := by
  unfold MemRegion.frames
  rw [List.mem_range'_1]
  omega

theorem freeFrames_length_le {rs : List MemRegion} {n : ℕ}
    (h : ∀ r ∈ rs, r.type = memtypeFree → r.baseAddress.toNat + r.length.toNat ≤ n * 4096) :
    (freeFrames rs).length ≤ rs.length * n := by
  induction rs with
  | nil => exact Nat.zero_le _
  | cons r rs ih =>
      have hrs := ih fun r' hr' => h r' (List.mem_cons_of_mem r hr')
      unfold freeFrames
      rw [List.length_cons, Nat.succ_mul]
      by_cases hr : r.type = memtypeFree
      · have hle := h r List.mem_cons_self hr
        have hframes : r.frames.length ≤ n := by
          unfold MemRegion.frames
          rw [List.length_range']
          omega
        rw [if_pos hr, List.length_append]
        omega
      · rw [if_neg hr]
        omega

theorem MultibootInfo.Regular.length_lt (h : mb.Regular) : mb.freeFrames.length < 2 ^ 64 := by
  have hle : mb.freeFrames.length ≤ mb.memoryMap.length * mb.totalBlocks :=
    freeFrames_length_le h.below
  have hregions : mb.memoryMap.length ≤ 2 ^ 32 := by
    have := mb.memoryMapLength.isLt
    rw [mb.visited]
    unfold memRegionSize
    omega
  calc mb.freeFrames.length ≤ 2 ^ 32 * 2 ^ 31 :=
        Nat.le_trans hle (Nat.mul_le_mul hregions (Nat.le_of_lt mb.totalBlocks_lt))
    _ < 2 ^ 64 := by decide

/-- As many frames can be allocated as the free regions have. If that is more than `total_blocks`,
    since regions overlap, `used_blocks` has wrapped and none can be allocated. -/
theorem Freed.budget_eq {any : Prop} {fs : List ℕ} {s : PhysState}
    (h : Freed (physmemFilled mb) any fs s) (hlen : fs.length < 2 ^ 64) :
    s.budget = if mb.totalBlocks < fs.length then 0 else fs.length := by
  have htotal : mb.totalBlocks < 2 ^ 31 := mb.totalBlocks_lt
  have hused : s.usedBlocks = BitVec.ofNat 64 mb.totalBlocks - BitVec.ofNat 64 fs.length := h.used
  unfold PhysState.budget
  rw [h.total, hused, BitVec.toNat_sub, BitVec.toNat_ofNat, BitVec.toNat_ofNat,
    Nat.mod_eq_of_lt hlen, Nat.mod_eq_of_lt (by omega : mb.totalBlocks < 2 ^ 64)]
  show mb.totalBlocks - _ = _
  split
  · rw [Nat.mod_eq_of_lt (by omega)]
    omega
  · have hsum : 2 ^ 64 - fs.length + mb.totalBlocks = mb.totalBlocks - fs.length + 2 ^ 64 := by omega
    rw [hsum, Nat.add_mod_right, Nat.mod_eq_of_lt (by omega)]
    omega

/-! ## Runs -/

/-- The allocator refines one that hands out the least free frame: the frames of the addresses in use
    are the elements in use there. -/
theorem physReachable_leastFirst {lastAddress : ℕ} {sys : PhysSystem}
    (h : PhysReachable mb lastAddress sys) :
    ∃ s0 A, physmemSetup mb = .ok s0 ∧ sys.allocated = A.map (· * 4096) ∧
      LeastFirst.Reachable (fun f => s0.Free f) s0.budget A ∧ HandedOut s0 sys.phys A := by
  induction h with
  | init hi =>
      obtain ⟨s0, hsetup, rfl⟩ := hi
      exact ⟨s0, [], hsetup, rfl, .init rfl, .refl s0⟩
  | step a hreach hstep ih =>
      obtain ⟨s0, A, hsetup, hallocated, hA, hout⟩ := ih
      have hsized : s0.Sized := (physmemSetup_spec hsetup).2.sized
      cases hstep with
      | allocblock halloc =>
          rcases physmemAllocblock_cases hout hsized (LeastFirst.reach_length hA) with
            ⟨-, herr⟩ | ⟨hlt, f, s', hok, hout', hfree, hnew, hleast⟩ | ⟨-, herr, -⟩
          · cases halloc.symm.trans herr
          · cases halloc.symm.trans hok
            exact ⟨s0, f :: A, hsetup, by rw [hallocated, List.map_cons],
              .step _ hA (.take hlt hfree hnew hleast), hout'⟩
          · cases halloc.symm.trans herr
      | freeblock hbooted hmem hfreeblock =>
          rw [hallocated] at hmem ⊢
          obtain ⟨f, hf, rfl⟩ := List.mem_map.1 hmem
          obtain ⟨hnodup, hsub⟩ := LeastFirst.reach_nodup hA
          obtain ⟨s', hok, hout'⟩ := physmemFreeblock_spec hout hnodup hf (hsub f hf)
          cases hfreeblock.symm.trans hok
          have herase := List.map_erase (f := fun f => f * 4096)
            (fun x y hxy => Nat.eq_of_mul_eq_mul_right (by decide) hxy) (l := A) (a := f)
          exact ⟨s0, A.erase f, hsetup, herase.symm, .step _ hA (.give hf), hout'⟩

/-- What the callers of the allocator rely on, in every run from a boot on. -/
structure PhysmemSafe (mb : MultibootInfo) (lastAddress : ℕ) : Prop where
  init : physmemInit mb lastAddress ≠ .error .outOfBounds
  alloc : ∀ sys, PhysReachable mb lastAddress sys → physmemAllocblock sys.phys ≠ .error .outOfBounds
  free : ∀ sys, PhysReachable mb lastAddress sys → sys.booting = false → ∀ ptr ∈ sys.allocated,
    physmemFreeblock sys.phys ptr ≠ .error .outOfBounds
  returned : ∀ sys, PhysReachable mb lastAddress sys → ∀ addr s,
    physmemAllocblock sys.phys = .ok (addr, s) →
      ∃ frame, addr = frame * 4096 ∧ frame < mb.totalBlocks ∧ frame ≠ 0 ∧
        (∃ r ∈ mb.memoryMap, r.type = memtypeFree ∧ r.baseAddress.toNat ≤ addr ∧
          addr + 4096 ≤ r.baseAddress.toNat + r.length.toNat) ∧
        addr ∉ sys.allocated

/-- Every state of the last loop of `physmem_init` is reachable. -/
theorem physmemSkipStatic_reachable {lastAddress n : ℕ} {sys : PhysSystem}
    (h : PhysReachable mb lastAddress sys) (hboot : sys.booting = true) :
    (∃ sys', PhysReachable mb lastAddress sys' ∧ sys'.booting = false ∧
      physmemSkipStatic lastAddress n sys.phys = .ok sys'.phys) ∨
    (∃ sys' e, PhysReachable mb lastAddress sys' ∧ physmemAllocblock sys'.phys = .error e ∧
      physmemSkipStatic lastAddress n sys.phys = .error e) ∨
    physmemSkipStatic lastAddress n sys.phys = .error .endless := by
  induction n generalizing sys with
  | zero => exact Or.inr (Or.inr rfl)
  | succ n ih =>
      unfold physmemSkipStatic
      cases halloc : physmemAllocblock sys.phys with
      | error e => exact Or.inr (Or.inl ⟨sys, e, h, halloc, rfl⟩)
      | ok p =>
          obtain ⟨addr, s⟩ := p
          have hnext := h.step _ (.allocblock halloc)
          show _ ∨ _ ∨ (if addr < lastAddress then _ else _) = _
          by_cases hlt : addr < lastAddress
          · have hstill : (sys.booting && decide (addr < lastAddress)) = true := by simp [hboot, hlt]
            have := ih hnext hstill
            simpa [bind, Except.bind, hlt] using this
          · refine Or.inl ⟨_, hnext, by simp [hlt], ?_⟩
            simp [bind, Except.bind, hlt, pure, Except.pure]

/-- A call that succeeds counts one more block. -/
theorem physmemAllocblock_used {s s' : PhysState} {addr : ℕ}
    (h : physmemAllocblock s = .ok (addr, s')) :
    s.usedBlocks.toNat < s.totalBlocks ∧ s'.totalBlocks = s.totalBlocks ∧
      s'.usedBlocks = s.usedBlocks + 1 := by
  rcases physmemAllocblock_outcome s with
    ⟨-, herr⟩ | ⟨hused, ⟨f, hok, -⟩ | ⟨herr, -⟩ | ⟨herr, -⟩⟩
  · cases h.symm.trans herr
  · cases h.symm.trans hok
    exact ⟨hused, rfl, rfl⟩
  · cases h.symm.trans herr
  · cases h.symm.trans herr

/-- A call that succeeds takes the lowest free frame, and no frame becomes free. -/
theorem physmemAllocblock_free {s s' : PhysState} {addr : ℕ}
    (h : physmemAllocblock s = .ok (addr, s')) :
    ∃ f, addr = f * 4096 ∧ s.Free f ∧ ∀ g, s'.Free g → s.Free g ∧ f < g := by
  rcases physmemAllocblock_outcome s with
    ⟨-, herr⟩ | ⟨-, ⟨f, hok, hfree, hleast⟩ | ⟨herr, -⟩ | ⟨herr, -⟩⟩
  · cases h.symm.trans herr
  · cases h.symm.trans hok
    refine ⟨f, rfl, hfree, ?_⟩
    rintro g ⟨hlow, hword, hzero⟩
    have hclear := mt (testbit_setbit s.memBitmap f g).2 (not_not.2 hzero)
    rw [not_or, not_not] at hclear
    have hg : s.Free g := ⟨hlow, hword, hclear.2⟩
    have hne : f ≠ g := mt (sameMask_iff_eq hfree.1 hlow).2 hclear.1
    exact ⟨hg, Nat.lt_of_le_of_ne (hleast g hg) hne⟩
  · cases h.symm.trans herr
  · cases h.symm.trans herr

theorem physmemAllocblock_ne_endless (s : PhysState) : physmemAllocblock s ≠ .error .endless := by
  intro h
  rcases physmemAllocblock_outcome s with
    ⟨-, herr⟩ | ⟨-, ⟨f, hok, -⟩ | ⟨herr, -⟩ | ⟨herr, -⟩⟩
  · cases h.symm.trans herr
  · cases h.symm.trans hok
  · cases h.symm.trans herr
  · cases h.symm.trans herr

/-- The last loop of `physmem_init` ends: each round counts a block, and there are only
    `total_blocks` of them. -/
theorem physmemSkipStatic_ne_endless (lastAddress n : ℕ) (s : PhysState)
    (htotal : s.totalBlocks < 2 ^ 64) (hn : s.totalBlocks - s.usedBlocks.toNat ≤ n) :
    physmemSkipStatic lastAddress (n + 1) s ≠ .error .endless := by
  induction n generalizing s with
  | zero =>
      unfold physmemSkipStatic physmemAllocblock
      rw [if_pos (by omega)]
      simp [bind, Except.bind]
  | succ n ih =>
      unfold physmemSkipStatic
      cases halloc : physmemAllocblock s with
      | error e =>
          intro h
          cases h
          exact physmemAllocblock_ne_endless s halloc
      | ok p =>
          obtain ⟨addr, s'⟩ := p
          obtain ⟨hlt, htotal', hused'⟩ := physmemAllocblock_used halloc
          have hnext : s'.usedBlocks.toNat = s.usedBlocks.toNat + 1 := by
            rw [hused', BitVec.toNat_add]
            exact Nat.mod_eq_of_lt (by simp; omega)
          have := ih s' (by omega) (by omega)
          by_cases hlow : addr < lastAddress
          · simpa [bind, Except.bind, hlow] using this
          · simp [bind, Except.bind, hlow, pure, Except.pure]

/-- `physmem_init` returns in a reachable state, or it faults as a part of it does. -/
theorem physmemInit_cases (mb : MultibootInfo) (lastAddress : ℕ) :
    (∃ sys, PhysReachable mb lastAddress sys ∧ sys.booting = false ∧
      physmemInit mb lastAddress = .ok sys.phys) ∨
    (∃ sys e, PhysReachable mb lastAddress sys ∧ physmemAllocblock sys.phys = .error e ∧
      physmemInit mb lastAddress = .error e) ∨
    (physmemSetup mb = .error .outOfBounds ∧ physmemInit mb lastAddress = .error .outOfBounds) := by
  unfold physmemInit
  rcases physmemSetup_outcome mb with ⟨s, hok, -, hfreed⟩ | ⟨herr, -⟩
  · have hloop := physmemSkipStatic_ne_endless lastAddress s.totalBlocks s hfreed.sized.total
      (Nat.sub_le _ _)
    have hreach : PhysReachable mb lastAddress ⟨s, [], true⟩ := .init ⟨s, hok, rfl⟩
    rw [hok]
    rcases physmemSkipStatic_reachable (n := s.totalBlocks + 1) hreach rfl with
      hdone | hfault | hendless
    · exact Or.inl hdone
    · exact Or.inr (Or.inl hfault)
    · exact absurd hendless hloop
  · rw [herr]
    exact Or.inr (Or.inr ⟨rfl, rfl⟩)

/-- When `physmem_init` returns, no frame below the end of the static memory is free. -/
theorem physmemSkipStatic_free {lastAddress n f : ℕ} {s s' : PhysState}
    (h : physmemSkipStatic lastAddress n s = .ok s') (hf : s'.Free f) : lastAddress ≤ f * 4096 := by
  induction n generalizing s with
  | zero => cases h
  | succ n ih =>
      unfold physmemSkipStatic at h
      cases halloc : physmemAllocblock s with
      | error e =>
          rw [halloc] at h
          cases h
      | ok p =>
          obtain ⟨addr, s1⟩ := p
          rw [halloc] at h
          simp only [bind, Except.bind] at h
          split at h
          · exact ih h
          · next hlast =>
              cases h
              obtain ⟨g, rfl, -, hlater⟩ := physmemAllocblock_free halloc
              have := (hlater f hf).2
              omega

theorem physmemInit_free {lastAddress f : ℕ} {s : PhysState} (h : physmemInit mb lastAddress = .ok s)
    (hf : s.Free f) : lastAddress ≤ f * 4096 := by
  unfold physmemInit at h
  cases hsetup : physmemSetup mb with
  | error e =>
      rw [hsetup] at h
      cases h
  | ok s0 =>
      rw [hsetup] at h
      exact physmemSkipStatic_free h hf

theorem physmemInit_bitmapSize {lastAddress : ℕ} {s : PhysState}
    (h : physmemInit mb lastAddress = .ok s) : s.bitmapSize = mb.bitmapSize := by
  rcases physmemInit_cases mb lastAddress with ⟨sys, hreach, -, hok⟩ | ⟨sys, e, -, -, herr⟩ | ⟨-, herr⟩
  · cases h.symm.trans hok
    obtain ⟨s0, A, hsetup, -, -, hout⟩ := physReachable_leastFirst hreach
    rw [hout.size, (physmemSetup_spec hsetup).2.size]
    rfl
  · cases h.symm.trans herr
  · cases h.symm.trans herr

/-! ## Safety -/

variable {lastAddress : ℕ}

theorem MultibootInfo.Regular.mem_freeFrames_iff (h : mb.Regular) {f : ℕ} : f ∈ mb.freeFrames ↔
    ∃ r ∈ mb.memoryMap, r.type = memtypeFree ∧ r.baseAddress.toNat ≤ f * 4096 ∧
      f * 4096 + 4096 ≤ r.baseAddress.toNat + r.length.toNat := by
  unfold MultibootInfo.freeFrames
  rw [mem_freeFrames]
  refine exists_congr fun r => and_congr_right fun hr => and_congr_right fun hfree => ?_
  obtain ⟨hbase, hlength⟩ := h.aligned r hr hfree
  exact r.mem_frames hbase hlength

/-- If the fill does no harm, only frames of free regions are handed out, and there is one as long as
    the counter allows it. -/
theorem physmemAllocblock_within {s0 : PhysState} (hsetup : physmemSetup mb = .ok s0)
    (hregular : mb.Regular) (hfill : mb.totalBlocks < mb.freeFrames.length ∨ FillMatches mb.freeFrames)
    {sys : PhysSystem} {A : List ℕ} (hA : LeastFirst.Reachable (fun f => s0.Free f) s0.budget A)
    (hout : HandedOut s0 sys.phys A) :
    physmemAllocblock sys.phys = .error .panic ∨
    ∃ f s', physmemAllocblock sys.phys = .ok (f * 4096, s') ∧ f ∈ mb.freeFrames ∧ f ≠ 0 ∧ f ∉ A := by
  obtain ⟨hfits, hfreed⟩ := physmemSetup_spec hsetup
  have hbudget := hfreed.budget_eq hregular.length_lt
  -- With a free frame in hand, the free regions are the first of the frames that can be found.
  have hsegment : A.length < s0.budget →
      FillMatches mb.freeFrames ∧ LeastFirst.Segment (fun f => s0.Free f) mb.freeFrames ∧
        A.length < mb.freeFrames.length := by
    intro hlt
    rw [hbudget] at hlt
    split at hlt
    · cases hlt
    · next htotal =>
        have hmatch := hfill.resolve_left htotal
        exact ⟨hmatch, (hfreed.segment_iff hfits fun f hf => hasFree_of_mem hf).2 hmatch, hlt⟩
  rcases physmemAllocblock_cases hout hfreed.sized (LeastFirst.reach_length hA) with
    ⟨-, herr⟩ | ⟨hlt, f, s', hok, -, hfree, hnew, hleast⟩ | ⟨hlt, -, hnone⟩
  · exact Or.inl herr
  · obtain ⟨hmatch, hseg, hlen⟩ := hsegment hlt
    have hmem : f ∈ mb.freeFrames := LeastFirst.take_within hseg hlen hfree hleast
    exact Or.inr ⟨f, s', hok, hmem, hmatch.nonzero f hmem, hnew⟩
  · obtain ⟨-, hseg, hlen⟩ := hsegment hlt
    obtain ⟨g, hg, hunused⟩ := LeastFirst.exists_unused hseg.nodup hlen
    exact absurd (hnone g (hseg.subset g hg)) hunused

theorem physmemSafe_of_fill (hregular : mb.Regular) (hfits : mb.MapFits)
    (hfill : mb.totalBlocks < mb.freeFrames.length ∨ FillMatches mb.freeFrames) :
    PhysmemSafe mb lastAddress := by
  have halloc : ∀ sys, PhysReachable mb lastAddress sys →
      physmemAllocblock sys.phys = .error .panic ∨
      ∃ f s', physmemAllocblock sys.phys = .ok (f * 4096, s') ∧ f ∈ mb.freeFrames ∧ f ≠ 0 ∧
        f * 4096 ∉ sys.allocated := by
    intro sys hreach
    obtain ⟨s0, A, hsetup, hallocated, hA, hout⟩ := physReachable_leastFirst hreach
    rcases physmemAllocblock_within hsetup hregular hfill hA hout with
      herr | ⟨f, s', hok, hmem, hzero, hnew⟩
    · exact Or.inl herr
    · refine Or.inr ⟨f, s', hok, hmem, hzero, ?_⟩
      rw [hallocated, List.mem_map]
      rintro ⟨g, hg, heq⟩
      rw [Nat.eq_of_mul_eq_mul_right (by decide) heq] at hg
      exact hnew hg
  constructor
  · rcases physmemInit_cases mb lastAddress with ⟨sys, -, -, hok⟩ | ⟨sys, e, hreach, herr, hinit⟩ |
      ⟨hsetup, -⟩
    · rw [hok]
      simp
    · rw [hinit]
      rcases halloc sys hreach with hpanic | ⟨f, s', hok, -⟩
      · cases herr.symm.trans hpanic
        simp
      · cases herr.symm.trans hok
    · rcases physmemSetup_outcome mb with ⟨s', hok, -⟩ | ⟨-, hnot⟩
      · cases hsetup.symm.trans hok
      · exact absurd hfits hnot
  · intro sys hreach
    rcases halloc sys hreach with hpanic | ⟨f, s', hok, -⟩
    · rw [hpanic]
      simp
    · rw [hok]
      simp
  · intro sys hreach _ ptr hptr
    obtain ⟨s0, A, -, hallocated, hA, hout⟩ := physReachable_leastFirst hreach
    rw [hallocated] at hptr
    obtain ⟨f, hf, rfl⟩ := List.mem_map.1 hptr
    obtain ⟨hnodup, hsub⟩ := LeastFirst.reach_nodup hA
    obtain ⟨s', hok, -⟩ := physmemFreeblock_spec hout hnodup hf (hsub f hf)
    rw [hok]
    simp
  · intro sys hreach addr s hok
    rcases halloc sys hreach with hpanic | ⟨f, s', hok', hmem, hzero, hnew⟩
    · cases hok.symm.trans hpanic
    · cases hok.symm.trans hok'
      obtain ⟨r, hr, hfree, hlow, hhigh⟩ := hregular.mem_freeFrames_iff.1 hmem
      have hbelow := hregular.below r hr hfree
      exact ⟨f, rfl, by omega, hzero, ⟨r, hr, hfree, hlow, hhigh⟩, hnew⟩

/-- A run of a safe allocator that only allocates uses up the free regions from below. -/
theorem PhysmemSafe.segment (hsafe : PhysmemSafe mb lastAddress) (hregular : mb.Regular)
    {s0 : PhysState} (hsetup : physmemSetup mb = .ok s0) {n : ℕ} (hn : n ≤ s0.budget) :
    ∃ sys A, PhysReachable mb lastAddress sys ∧ HandedOut s0 sys.phys A ∧ A.length = n ∧
      LeastFirst.Segment (fun f => s0.Free f) A ∧ A ⊆ mb.freeFrames := by
  have hsized : s0.Sized := (physmemSetup_spec hsetup).2.sized
  induction n with
  | zero =>
      exact ⟨⟨s0, [], true⟩, [], .init ⟨s0, hsetup, rfl⟩, .refl s0, rfl, .nil, List.nil_subset _⟩
  | succ n ih =>
      obtain ⟨sys, A, hreach, hout, hlen, hseg, hsub⟩ := ih (by omega)
      rcases physmemAllocblock_cases hout hsized (by omega) with
        ⟨hfull, -⟩ | ⟨-, f, s', hok, hout', hfree, hnew, hleast⟩ | ⟨-, herr, -⟩
      · omega
      · obtain ⟨frame, haddr, -, -, hregion, -⟩ := hsafe.returned sys hreach _ _ hok
        have hmem : f ∈ mb.freeFrames := hregular.mem_freeFrames_iff.2 hregion
        exact ⟨_, f :: A, hreach.step _ (.allocblock hok), hout', by rw [List.length_cons, hlen],
          hseg.take hfree hnew hleast, List.cons_subset.2 ⟨hmem, hsub⟩⟩
      · exact absurd herr (hsafe.alloc sys hreach)

theorem PhysmemSafe.mapFits (hsafe : PhysmemSafe mb lastAddress) : mb.MapFits := by
  rcases physmemSetup_outcome mb with ⟨s, -, hfits, -⟩ | ⟨herr, -⟩
  · exact hfits
  · refine absurd ?_ hsafe.init
    rw [physmemInit, herr]
    rfl

theorem PhysmemSafe.fillMatches (hsafe : PhysmemSafe mb lastAddress) (hregular : mb.Regular)
    (htotal : mb.freeFrames.length ≤ mb.totalBlocks) : FillMatches mb.freeFrames := by
  rcases physmemSetup_outcome mb with ⟨s0, hsetup, hfits, hfreed⟩ | ⟨-, hnot⟩
  · have hbudget : s0.budget = mb.freeFrames.length := by
      rw [hfreed.budget_eq hregular.length_lt, if_neg (by omega)]
    obtain ⟨sys, A, -, -, hlen, hseg, hsub⟩ := hsafe.segment hregular hsetup (Nat.le_refl _)
    exact (hfreed.segment_iff hfits fun f hf => hasFree_of_mem hf).1
      (hseg.of_within hsub (by omega))
  · exact absurd hsafe.mapFits hnot

/-- The allocator is safe exactly for the memory maps that fit the bitmap and its fill, and for those
    whose free regions count more blocks than there are, where every call stops the kernel. -/
theorem physmemSafe_iff (mb : MultibootInfo) (lastAddress : ℕ) (hregular : mb.Regular) :
    PhysmemSafe mb lastAddress ↔
      mb.MapFits ∧ (mb.totalBlocks < mb.freeFrames.length ∨ FillMatches mb.freeFrames) := by
  constructor
  · intro hsafe
    refine ⟨hsafe.mapFits, ?_⟩
    by_cases htotal : mb.totalBlocks < mb.freeFrames.length
    · exact Or.inl htotal
    · exact Or.inr (hsafe.fillMatches hregular (Nat.le_of_not_lt htotal))
  · rintro ⟨hfits, hfill⟩
    exact physmemSafe_of_fill hregular hfits hfill

/-- A memory whose only free region is four pages from `0x4000` on. -/
def lowBoot : MultibootInfo where
  memoryLow := 640
  memoryHigh := 3456
  memoryMapLength := 24
  memoryMap := [⟨0x4000, 0x4000, memtypeFree⟩]
  visited := rfl

theorem lowBoot_regular : lowBoot.Regular where
  aligned := by simp [lowBoot]
  below := by simp [lowBoot, MultibootInfo.totalBlocks]

theorem lowBoot_fillMatches : FillMatches lowBoot.freeFrames := by
  have hframes : lowBoot.freeFrames = [4, 5, 6, 7] := by decide
  rw [hframes]
  refine ⟨by decide, by simp, by simp, ?_⟩
  intro f hf g hlt _ hclear
  have hf7 : f ≤ 7 := by
    simp only [List.mem_cons, List.not_mem_nil, or_false] at hf
    omega
  simp only [List.mem_cons, List.not_mem_nil, or_false]
  omega

theorem physmemSafe_iff_lowBoot : lowBoot.Regular ∧ PhysmemSafe lowBoot 0x6000 := by
  refine ⟨lowBoot_regular, (physmemSafe_iff lowBoot 0x6000 lowBoot_regular).2 ⟨?_, Or.inr ?_⟩⟩
  · refine ⟨fun _ => by decide, ?_⟩
    have hframes : lowBoot.freeFrames = [4, 5, 6, 7] := by decide
    rw [hframes]
    decide
  · exact lowBoot_fillMatches

/-- A memory whose free region is two megabytes from the end of the first megabyte on. -/
def upperBoot : MultibootInfo where
  memoryLow := 640
  memoryHigh := 3456
  memoryMapLength := 24
  memoryMap := [⟨0x100000, 0x200000, memtypeFree⟩]
  visited := rfl

theorem upperBoot_regular : upperBoot.Regular where
  aligned := by simp [upperBoot]
  below := by simp [upperBoot, MultibootInfo.totalBlocks]

theorem upperBoot_freeFrames : upperBoot.freeFrames = List.range' 256 512 := by
  simp [MultibootInfo.freeFrames, freeFrames, upperBoot, MemRegion.frames]

theorem upperBoot_mapFits : upperBoot.MapFits := by
  refine ⟨fun _ => by decide, ?_⟩
  intro f hf
  rw [upperBoot_freeFrames, List.mem_range'_1] at hf
  show 8 * (f / 64) + 8 ≤ 128
  omega

/-- The first frame that is handed out is one that the fill has left clear. -/
theorem upperBoot_allocblock : ∃ s s', physmemSetup upperBoot = .ok s ∧
    physmemAllocblock s = .ok (0x4000, s') := by
  rcases physmemSetup_outcome upperBoot with ⟨s, hsetup, hfits, hfreed⟩ | ⟨-, hnot⟩
  case inr => exact absurd upperBoot_mapFits hnot
  have hframes : ∀ g ∈ upperBoot.freeFrames, 256 ≤ g := by
    intro g hg
    rw [upperBoot_freeFrames, List.mem_range'_1] at hg
    exact hg.1
  have hbudget : s.budget = 512 := by
    rw [hfreed.budget_eq upperBoot_regular.length_lt, upperBoot_freeFrames, List.length_range',
      if_neg (by decide)]
  have hfour : s.Free 4 := (hfreed.free_iff 4).2
    ⟨by decide, by decide, fun hzero => absurd hzero.2.2 (by decide), Or.inr (by decide)⟩
  rcases physmemAllocblock_cases (HandedOut.refl s) hfreed.sized (Nat.zero_le _) with
    ⟨hfull, -⟩ | ⟨-, f, s', hok, -, hfree, -, hleast⟩ | ⟨-, -, hnone⟩
  · rw [hbudget] at hfull
    cases hfull
  · have hle : f ≤ 4 := by
      by_contra hgt
      exact absurd (hleast 4 hfour (by omega)) List.not_mem_nil
    obtain ⟨-, -, -, ⟨g, hg, hmask⟩ | ⟨-, hclear⟩⟩ := (hfreed.free_iff f).1 hfree
    · have := hframes g hg
      have := hmask.1
      omega
    · have hf : f = 4 := by omega
      subst hf
      exact ⟨s, s', hsetup, hok⟩
  · exact absurd (hnone 4 hfour) List.not_mem_nil

theorem physmemSafe_upperBoot : upperBoot.Regular ∧ ¬ PhysmemSafe upperBoot 0x200000 := by
  refine ⟨upperBoot_regular, ?_⟩
  intro hsafe
  obtain ⟨s, s', hsetup, hok⟩ := upperBoot_allocblock
  have hreach : PhysReachable upperBoot 0x200000 ⟨s, [], true⟩ := .init ⟨s, hsetup, rfl⟩
  obtain ⟨frame, -, -, -, ⟨r, hr, -, hlow, -⟩, -⟩ := hsafe.returned _ hreach _ _ hok
  rw [List.mem_singleton.1 hr] at hlow
  exact absurd hlow (by decide)

end Kudos
