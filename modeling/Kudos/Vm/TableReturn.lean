import Kudos.Vm.AddressSpace

set_option autoImplicit false

/-! # The end of an address space

`vm_destroy_pagetable` gives back the first-level table alone. The tables that `vm_map` has taken for the
lower levels stay marked in the pool, so an address space returns what it has taken exactly if nothing
was mapped in it (`useAddressSpace_returns_iff`). -/

namespace Kudos

open WordBitmap

/-- A call of `vm_map` for a table. -/
structure VmMapCall where
  physaddr : BitVec 64
  vaddr : BitVec 64
  flags : BitVec 32

/-- Calls of `vm_map` for the table `p`, one after the other. -/
def vmMapAll (pool : PtPool) (s : VmState) (p : BitVec 64) (calls : List VmMapCall) :
    Except KernelFault VmState :=
  calls.foldlM (fun s c => vmMap pool s p c.physaddr c.vaddr c.flags) s

/-- The life of an address space: it is created, pages are mapped in it, and it is destroyed. -/
def useAddressSpace (pool : PtPool) (s : VmState) (calls : List VmMapCall) :
    Except KernelFault VmState := do
  let (p, s) ← vmCreatePagetable pool s
  let s ← vmMapAll pool s p calls
  vmDestroyPagetable pool s p

/-- The same tables of the pool are free. -/
def SameFreeTables (s s' : VmState) : Prop :=
  ∀ i < vmPtpSize, ptmapTestbit s' i = 0 ↔ ptmapTestbit s i = 0

/-- The entry of an address in the table of the kernel is not present. -/
def UserSlot (s : VmState) (va : BitVec 64) : Prop :=
  s.tables s.kernelPml4 (vmmIndexPml4 va) &&& pagePresent = 0

/-! ## Marks are kept -/

/-- Tables that were marked are marked. -/
def KeepsMarks (s s' : VmState) : Prop := ∀ i, ptmapTestbit s i ≠ 0 → ptmapTestbit s' i ≠ 0

section

variable {pool : PtPool} {s s' s'' : VmState} {p t : BitVec 64}

theorem KeepsMarks.refl (s : VmState) : KeepsMarks s s := fun _ h => h

theorem KeepsMarks.trans (h : KeepsMarks s s') (h' : KeepsMarks s' s'') : KeepsMarks s s'' :=
  fun i hi => h' i (h i hi)

theorem vmmNewPagetable_marks (h : vmmNewPagetable pool s = .ok (t, s')) : KeepsMarks s s' := by
  obtain ⟨i, -, -, rfl⟩ := vmmNewPagetable_spec h
  exact fun j hj => (s.ptBitmap.testbit_setbit i j).2 (Or.inr hj)

theorem ptBitmap_vmmCleartable (s : VmState) (t : BitVec 64) :
    (vmmCleartable s t).ptBitmap = s.ptBitmap := by
  unfold vmmCleartable
  split <;> rfl

/-- A step to the next table takes one from the pool, or none. -/
theorem vmmNextTable_marks {next b : BitVec 64} {index : ℕ} {flags : BitVec 32}
    (h : vmmNextTable pool s next p index flags = .ok (b, s')) :
    KeepsMarks s s' ∧ (next = 0 → ∃ i < vmPtpSize, ptmapTestbit s i = 0 ∧ ptmapTestbit s' i ≠ 0) := by
  unfold vmmNextTable at h
  split at h
  · cases hnew : vmmNewPagetable pool s with
    | error f =>
        rw [hnew] at h
        cases h
    | ok r =>
        obtain ⟨t, s1⟩ := r
        rw [hnew] at h
        cases h
        have hbits : ∀ i, ptmapTestbit (vmmInstallPtable (vmmCleartable s1 b) p index b (entryFlags flags)) i
            = ptmapTestbit s1 i :=
          fun i => congrArg (WordBitmap.testbit · i) (ptBitmap_vmmCleartable s1 b)
        obtain ⟨i, hpool, hfree, hset⟩ := vmmNewPagetable_spec hnew
        refine ⟨fun j hj => ?_, fun _ => ⟨i, hpool.1, hfree, ?_⟩⟩
        · rw [hbits]
          exact vmmNewPagetable_marks hnew j hj
        · rw [hbits, hset]
          exact (s.ptBitmap.testbit_setbit i i).2 (Or.inl ⟨rfl, rfl⟩)
  · next hne =>
      cases h
      exact ⟨KeepsMarks.refl s, fun hzero => absurd hzero hne⟩

/-- `vm_map` gives nothing back, and takes a table if there is none on the first level. -/
theorem vmMap_marks {pa va : BitVec 64} {flags : BitVec 32} (h : vmMap pool s p pa va flags = .ok s') :
    KeepsMarks s s' ∧
      (vmmGetNext s p (vmmIndexPml4 va) = 0 →
        ∃ i < vmPtpSize, ptmapTestbit s i = 0 ∧ ptmapTestbit s' i ≠ 0) := by
  obtain ⟨pdp, s1, pdir, s2, pt, s3, h1, h2, h3, rfl⟩ := vmMap_levels h
  obtain ⟨k1, hnew⟩ := vmmNextTable_marks h1
  have hrest : KeepsMarks s1 (vmmInstallPtable s3 pt (vmmIndexPtable va) pa (entryFlags flags)) :=
    (vmmNextTable_marks h2).1.trans (vmmNextTable_marks h3).1
  refine ⟨k1.trans hrest, fun hzero => ?_⟩
  obtain ⟨i, hi, hfree, hmarked⟩ := hnew hzero
  exact ⟨i, hi, hfree, hrest i hmarked⟩

theorem vmMapAll_marks {calls : List VmMapCall} (h : vmMapAll pool s p calls = .ok s') :
    KeepsMarks s s' := by
  induction calls generalizing s with
  | nil =>
      cases h
      exact KeepsMarks.refl _
  | cons c cs ih =>
      unfold vmMapAll at h
      rw [List.foldlM_cons] at h
      cases hmap : vmMap pool s p c.physaddr c.vaddr c.flags with
      | error f =>
          rw [hmap] at h
          cases h
      | ok s1 =>
          rw [hmap] at h
          exact (vmMap_marks hmap).1.trans (ih h)

/-! ## The life of an address space -/

/-- A new address space has the table number `i`, and the entries of the kernel. -/
theorem vmCreatePagetable_bits (h : vmCreatePagetable pool s = .ok (p, s')) :
    ∃ i < vmPtpSize, p = pool.table i ∧ ptmapTestbit s i = 0 ∧ s'.ptBitmap = s.ptBitmap.setbit i ∧
      s'.tables p = s.tables s.kernelPml4 := by
  unfold vmCreatePagetable at h
  cases hnew : vmmNewPagetable pool s with
  | error f =>
      rw [hnew] at h
      cases h
  | ok r =>
      obtain ⟨t, s1⟩ := r
      rw [hnew] at h
      cases h
      obtain ⟨i, hpool, hfree, rfl⟩ := vmmNewPagetable_spec hnew
      exact ⟨i, hpool.1, hpool.2.2, hfree, rfl, Function.update_self ..⟩

theorem vmDestroyPagetable_table {i : ℕ} (hi : i < vmPtpSize) :
    vmDestroyPagetable pool s (pool.table i) = .ok (ptmapUnsetbit s i) := by
  have hindex : (pool.base + 4096 * i - pool.base) / 4096 = i := by omega
  unfold vmDestroyPagetable
  rw [pool.toNat_table hi, hindex, if_neg (by omega), if_neg (by omega)]

/-- **What an address space returns.** The free tables are those from before its creation if nothing
    was mapped in it, and only then. -/
theorem useAddressSpace_returns_iff {calls : List VmMapCall} (h : useAddressSpace pool s calls = .ok s')
    (hslots : ∀ c ∈ calls, UserSlot s c.vaddr) : SameFreeTables s s' ↔ calls = [] := by
  unfold useAddressSpace at h
  cases hcreate : vmCreatePagetable pool s with
  | error f =>
      rw [hcreate] at h
      cases h
  | ok r =>
      obtain ⟨p, s1⟩ := r
      obtain ⟨n, hn, hp, hfree, hbits, htable⟩ := vmCreatePagetable_bits hcreate
      have hmarks : ∀ i, ptmapTestbit s1 i ≠ 0 ↔ SameMask n i ∨ ptmapTestbit s i ≠ 0 := by
        intro i
        unfold ptmapTestbit
        rw [hbits]
        exact s.ptBitmap.testbit_setbit n i
      rw [hcreate] at h
      simp only [bind, Except.bind] at h
      cases hmap : vmMapAll pool s1 p calls with
      | error f =>
          rw [hmap] at h
          cases h
      | ok s2 =>
          rw [hmap] at h
          simp only [hp, vmDestroyPagetable_table hn] at h
          cases h
          have hend : ∀ i, ptmapTestbit (ptmapUnsetbit s2 n) i ≠ 0 ↔
              ¬ SameMask n i ∧ ptmapTestbit s2 i ≠ 0 := fun i => s2.ptBitmap.testbit_unsetbit n i
          cases calls with
          | nil =>
              refine iff_of_true (fun i _ => ?_) rfl
              cases hmap
              rw [← not_iff_not]
              refine (hend i).trans ?_
              rw [hmarks]
              constructor
              · rintro ⟨hne, hsame | hold⟩
                · exact absurd hsame hne
                · exact hold
              · intro hold
                exact ⟨fun hsame => (s.ptBitmap.testbit_congr hsame).2 hold hfree, Or.inr hold⟩
          | cons c cs =>
              refine iff_of_false (fun hsame => ?_) (List.cons_ne_nil c cs)
              -- the first call takes a table, which stays marked
              unfold vmMapAll at hmap
              rw [List.foldlM_cons] at hmap
              cases hfirst : vmMap pool s1 p c.physaddr c.vaddr c.flags with
              | error f =>
                  rw [hfirst] at hmap
                  cases hmap
              | ok s3 =>
                  rw [hfirst] at hmap
                  have hnext : vmmGetNext s1 p (vmmIndexPml4 c.vaddr) = 0 := by
                    have hslot : s.tables s.kernelPml4 (vmmIndexPml4 c.vaddr) &&& pagePresent = 0 :=
                      hslots c (List.mem_cons_self ..)
                    unfold vmmGetNext
                    rw [htable, if_neg (not_not.2 hslot)]
                  obtain ⟨i, hi, hfree1, hmarked⟩ := (vmMap_marks hfirst).2 hnext
                  have hold : ¬ (SameMask n i ∨ ptmapTestbit s i ≠ 0) :=
                    fun hc => (hmarks i).2 hc hfree1
                  have hstays : ptmapTestbit s2 i ≠ 0 := vmMapAll_marks hmap i hmarked
                  rw [not_or, not_not] at hold
                  exact (hend i).2 ⟨hold.1, hstays⟩ ((hsame i hi).2 hold.2)

end

/-- A page of the stack is mapped. -/
def stackCall : VmMapCall := ⟨0x400000#64, 0xFFFFFFFFFFFFF000#64, 6⟩

theorem stackCall_userSlot : UserSlot bootVm stackCall.vaddr := by
  unfold UserSlot
  decide +kernel

theorem useAddressSpace_returns_iff_stackCall :
    ∃ s', useAddressSpace samplePool bootVm [stackCall] = .ok s' ∧
      (SameFreeTables bootVm s' ↔ [stackCall] = []) := by
  have hok : (useAddressSpace samplePool bootVm [stackCall]).toOption.isSome = true := by
    decide +kernel
  obtain ⟨s', hs'⟩ := Option.isSome_iff_exists.1 hok
  have hrun := Transition.eq_ok_of_toOption hs'
  exact ⟨s', hrun, useAddressSpace_returns_iff hrun (List.forall_mem_singleton.2 stackCall_userSlot)⟩

/-- The table of the kernel and those of the identity mapping are the first four, and that of the
    process is the next: table 5 is lost. -/
theorem useAddressSpace_lost : UserSlot bootVm stackCall.vaddr ∧
    ∃ s', useAddressSpace samplePool bootVm [stackCall] = .ok s' ∧ ¬ SameFreeTables bootVm s' := by
  have hok : (useAddressSpace samplePool bootVm [stackCall]).toOption.any
      (fun s => ptmapTestbit s 5 ≠ 0) = true := by
    decide +kernel
  have hfree : ptmapTestbit bootVm 5 = 0 := by decide +kernel
  obtain ⟨s', hs', hbit⟩ := (Option.any_eq_true ..).1 hok
  refine ⟨stackCall_userSlot, s', Transition.eq_ok_of_toOption hs', fun hsame => ?_⟩
  exact of_decide_eq_true hbit ((hsame 5 (by decide)).2 hfree)

end Kudos
