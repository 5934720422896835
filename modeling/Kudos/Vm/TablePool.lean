import Kudos.Library.Transition
import Kudos.Vm.TableReturn
import Mathlib.Data.Finset.Card

set_option autoImplicit false

/-! # The pool of page tables

The tables that `vmm_new_pagetable` hands out are taken from `VM_PTP_SIZE`, but with the masks as they are
only every other group of 32 can be told from the one before. So half of the tables can be in use at a
time, and the next call stops the kernel (`vmmNewPagetable_succeeds_iff`). -/

namespace Kudos

open Transition WordBitmap

/-- The module, and the tables that were handed out and have not been returned. -/
structure TablePool where
  vm : VmState
  inUse : Finset ℕ

/-- After the loop of `vm_init`. -/
def TablePool.cleared (s : VmState) : TablePool := ⟨(List.range vmPtpSize).foldl ptmapUnsetbit s, ∅⟩

inductive PtpCall
  | newPagetable
  | destroyPagetable (i : ℕ)

inductive PtpStep (pool : PtPool) : TablePool → PtpCall → TablePool → Prop
  | newPagetable {σ : TablePool} {i : ℕ} {vm : VmState} :
      i < vmPtpSize → vmmNewPagetable pool σ.vm = .ok (pool.table i, vm) →
      PtpStep pool σ .newPagetable ⟨vm, insert i σ.inUse⟩
  | destroyPagetable {σ : TablePool} {i : ℕ} {vm : VmState} :
      i ∈ σ.inUse → vmDestroyPagetable pool σ.vm (pool.table i) = .ok vm →
      PtpStep pool σ (.destroyPagetable i) ⟨vm, σ.inUse.erase i⟩

/-- The states after the bitmap was cleared and any calls. -/
def TablesReachable (pool : PtPool) (s : VmState) : TablePool → Prop :=
  Reach (fun σ => σ = .cleared s) (PtpStep pool)

/-- The tables with a mask of their own. -/
def lowTables : Finset ℕ := (Finset.range vmPtpSize).filter fun i => i % 64 < 32

theorem card_lowTables : lowTables.card = 512 := by decide +kernel

theorem mem_lowTables {i : ℕ} : i ∈ lowTables ↔ i < vmPtpSize ∧ i % 64 < 32 := by
  unfold lowTables
  rw [Finset.mem_filter, Finset.mem_range]

theorem eq_of_sameMask {i j : ℕ} (hi : i ∈ lowTables) (hj : j ∈ lowTables) (h : SameMask i j) : i = j := by
  have hi := (mem_lowTables.1 hi).2
  have hj := (mem_lowTables.1 hj).2
  unfold SameMask at h
  omega

/-- A table is marked if and only if one with its mask is in use. -/
structure TablesMarked (σ : TablePool) : Prop where
  low : σ.inUse ⊆ lowTables
  marks : ∀ j < vmPtpSize, ptmapTestbit σ.vm j ≠ 0 ↔ ∃ i ∈ σ.inUse, SameMask i j

/-- The loop of `vm_init` clears all marks. -/
theorem ptmapTestbit_foldl_unsetbit (s : VmState) (n : ℕ) :
    ∀ j < n, ptmapTestbit ((List.range n).foldl ptmapUnsetbit s) j = 0 := by
  induction n with
  | zero => exact fun j hj => absurd hj (Nat.not_lt_zero j)
  | succ n ih =>
      intro j hj
      rw [List.range_succ, List.foldl_append]
      by_contra hmarked
      obtain ⟨hmask, hold⟩ := (testbit_unsetbit _ n j).1 hmarked
      by_cases hjn : j = n
      · exact hmask (hjn ▸ ⟨rfl, rfl⟩)
      · exact hold (ih j (by omega))

section

variable {pool : PtPool} {σ σ' : TablePool}

theorem TablesMarked.newPagetable (h : TablesMarked σ) {i : ℕ} {vm : VmState} (hi : i < vmPtpSize)
    (hnew : vmmNewPagetable pool σ.vm = .ok (pool.table i, vm)) : TablesMarked ⟨vm, insert i σ.inUse⟩ := by
  obtain ⟨i', hpool, -, rfl⟩ := vmmNewPagetable_spec hnew
  obtain rfl := pool.table_injective hi hpool.1 hpool.2.2
  refine ⟨Finset.insert_subset (mem_lowTables.2 ⟨hi, hpool.2.1⟩) h.low, fun j hj => ?_⟩
  have hset := σ.vm.ptBitmap.testbit_setbit i j
  have hold := h.marks j hj
  constructor
  · intro hmarked
    rcases hset.1 hmarked with hmask | hmarked
    · exact ⟨i, Finset.mem_insert_self .., hmask⟩
    · obtain ⟨k, hk, hmask⟩ := hold.1 hmarked
      exact ⟨k, Finset.mem_insert_of_mem hk, hmask⟩
  · rintro ⟨k, hk, hmask⟩
    rcases Finset.mem_insert.1 hk with rfl | hk
    · exact hset.2 (Or.inl hmask)
    · exact hset.2 (Or.inr (hold.2 ⟨k, hk, hmask⟩))

theorem TablesMarked.destroyPagetable (h : TablesMarked σ) {i : ℕ} {vm : VmState} (hi : i ∈ σ.inUse)
    (hdestroy : vmDestroyPagetable pool σ.vm (pool.table i) = .ok vm) :
    TablesMarked ⟨vm, σ.inUse.erase i⟩ := by
  have hlow := h.low hi
  rw [vmDestroyPagetable_table (mem_lowTables.1 hlow).1] at hdestroy
  cases hdestroy
  refine ⟨(Finset.erase_subset i σ.inUse).trans h.low, fun j hj => ?_⟩
  have hunset := σ.vm.ptBitmap.testbit_unsetbit i j
  have hold := h.marks j hj
  constructor
  · intro hmarked
    obtain ⟨hmask, hmarked⟩ := hunset.1 hmarked
    obtain ⟨k, hk, hkmask⟩ := hold.1 hmarked
    refine ⟨k, Finset.mem_erase.2 ⟨?_, hk⟩, hkmask⟩
    rintro rfl
    exact hmask hkmask
  · rintro ⟨k, hk, hkmask⟩
    obtain ⟨hne, hk⟩ := Finset.mem_erase.1 hk
    refine hunset.2 ⟨fun hmask => hne ?_, hold.2 ⟨k, hk, hkmask⟩⟩
    exact eq_of_sameMask (h.low hk) hlow ⟨hkmask.1.trans hmask.1.symm, hkmask.2.trans hmask.2.symm⟩

/-- **Every run** marks the tables in use, and those with the same masks. -/
theorem TablesReachable.marked {s : VmState} (h : TablesReachable pool s σ) : TablesMarked σ := by
  refine Reach.invariant ?_ ?_ h
  · intro ⟨vm, inUse⟩ hσ
    obtain ⟨hvm, rfl⟩ := TablePool.mk.inj hσ
    have hclear := ptmapTestbit_foldl_unsetbit s vmPtpSize
    rw [← hvm] at hclear
    refine ⟨Finset.empty_subset lowTables, fun j hj => ?_⟩
    constructor
    · exact fun hmarked => absurd (hclear j hj) hmarked
    · rintro ⟨k, hk, -⟩
      exact absurd hk (Finset.notMem_empty k)
  · intro σ call σ' hmarked hstep
    cases hstep with
    | newPagetable hi hnew => exact hmarked.newPagetable hi hnew
    | destroyPagetable hi hdestroy => exact hmarked.destroyPagetable hi hdestroy

/-- A table is found if and only if one is not marked. -/
theorem vmmNewPagetable_ok_iff (s : VmState) :
    (∃ r, vmmNewPagetable pool s = .ok r) ↔ ∃ j < vmPtpSize, ptmapTestbit s j = 0 := by
  unfold vmmNewPagetable
  cases hfind : (List.range vmPtpSize).find? (fun i => decide (ptmapTestbit s i = 0)) with
  | none =>
      rw [List.find?_range_eq_none] at hfind
      constructor
      · rintro ⟨r, hr⟩
        cases hr
      · rintro ⟨j, hj, hfree⟩
        have hnone := hfind j hj
        simp [hfree] at hnone
  | some i =>
      rw [List.find?_range_eq_some] at hfind
      exact ⟨fun _ => ⟨i, List.mem_range.1 hfind.2.1, of_decide_eq_true hfind.1⟩, fun _ => ⟨_, rfl⟩⟩

/-- It is, while fewer than half of the tables are in use. -/
theorem TablesMarked.vmmNewPagetable_iff (h : TablesMarked σ) (pool : PtPool) :
    (∃ r, vmmNewPagetable pool σ.vm = .ok r) ↔ σ.inUse.card < 512 := by
  rw [vmmNewPagetable_ok_iff, ← card_lowTables]
  constructor
  · rintro ⟨j, hj, hfree⟩
    -- the first of the two with the mask of `j`
    have hsize : vmPtpSize = 1024 := rfl
    have hmask : SameMask (j / 64 * 64 + j % 32) j := ⟨by omega, by omega⟩
    have hlow : j / 64 * 64 + j % 32 ∈ lowTables := mem_lowTables.2 ⟨by omega, by omega⟩
    refine Finset.card_lt_card ((Finset.ssubset_iff_of_subset h.low).2 ⟨_, hlow, fun hmem => ?_⟩)
    exact (h.marks j hj).2 ⟨_, hmem, hmask⟩ hfree
  · intro hcard
    obtain ⟨j, hlow, hnot⟩ := Finset.exists_mem_notMem_of_card_lt_card hcard
    have hj := (mem_lowTables.1 hlow).1
    refine ⟨j, hj, ?_⟩
    by_contra hmarked
    obtain ⟨i, hi, hmask⟩ := (h.marks j hj).1 hmarked
    exact hnot (eq_of_sameMask (h.low hi) hlow hmask ▸ hi)

/-- Up to that number, any number of tables can be in use. -/
theorem exists_reachable (pool : PtPool) (s : VmState) {n : ℕ} (hn : n ≤ 512) :
    ∃ σ, TablesReachable pool s σ ∧ σ.inUse.card = n := by
  induction n with
  | zero => exact ⟨_, .init rfl, Finset.card_empty⟩
  | succ n ih =>
      obtain ⟨σ, hreach, hcard⟩ := ih (by omega)
      obtain ⟨⟨t, vm⟩, hnew⟩ := (hreach.marked.vmmNewPagetable_iff pool).2 (by omega)
      obtain ⟨i, hpool, hfree, -⟩ := vmmNewPagetable_spec hnew
      rw [hpool.2.2] at hnew
      have hnot : i ∉ σ.inUse := fun hmem =>
        (hreach.marked.marks i hpool.1).2 ⟨i, hmem, rfl, rfl⟩ hfree
      refine ⟨⟨vm, insert i σ.inUse⟩, .step .newPagetable hreach (.newPagetable hpool.1 hnew), ?_⟩
      rw [Finset.card_insert_of_notMem hnot, hcard]

end

/-- **The helpers act on one bit** if the other bit with the mask is not in range, and never otherwise;
and a new table is there while fewer than half of the tables are in use. -/
theorem vmmNewPagetable_succeeds_iff (b : WordBitmap) (n i : ℕ) {pool : PtPool} {s : VmState} {σ : TablePool}
    (hreach : TablesReachable pool s σ) :
    ((b.setbit i).testbit i ≠ 0 ∧ (b.unsetbit i).testbit i = 0) ∧
    (∀ j, j ≠ i →
      (((b.setbit i).testbit j ≠ 0 ↔ b.testbit j ≠ 0) ↔ j ≠ twin i ∨ b.testbit j ≠ 0) ∧
      (((b.unsetbit i).testbit j ≠ 0 ↔ b.testbit j ≠ 0) ↔ j ≠ twin i ∨ b.testbit j = 0)) ∧
    (b.ActsOnOneBit n i ↔ n ≤ twin i) ∧
    ((σ.inUse.card < vmPtpSize → ∃ r, vmmNewPagetable pool σ.vm = .ok r) ↔ σ.inUse.card < 512) := by
  refine ⟨⟨b.testbit_setbit_self i, b.testbit_unsetbit_self i⟩, fun j hne => ?_, b.actsOnOneBit_iff n i, ?_⟩
  · have hmask : ¬SameMask i j ↔ j ≠ twin i := by
      rw [sameMask_iff, or_iff_right hne]
    exact ⟨(b.testbit_setbit_iff_self i j).trans (or_congr_left hmask),
      (b.testbit_unsetbit_iff_self i j).trans (or_congr_left hmask)⟩
  · have hmarked := hreach.marked
    have hiff := hmarked.vmmNewPagetable_iff pool
    have hle := Finset.card_le_card hmarked.low
    have hsize : vmPtpSize = 1024 := rfl
    rw [card_lowTables] at hle
    exact ⟨fun h => hiff.1 (h (by omega)), fun h _ => hiff.2 h⟩

/-- A bitmap of 32 bits, and a pool of which one table less than half of them is in use. -/
theorem vmmNewPagetable_succeeds_last :
    WordBitmap.ActsOnOneBit (fun _ => 0) 32 3 ∧
    ∃ σ, TablesReachable samplePool blankVm σ ∧ σ.inUse.card = 511 ∧
      ∃ r, vmmNewPagetable samplePool σ.vm = .ok r := by
  obtain ⟨σ, hreach, hcard⟩ := exists_reachable samplePool blankVm (by decide : 511 ≤ 512)
  obtain ⟨-, -, hacts, hroom⟩ := vmmNewPagetable_succeeds_iff (fun _ => 0) 32 3 hreach
  refine ⟨hacts.2 (by decide), σ, hreach, hcard, hroom.2 ?_ ?_⟩
  · rw [hcard]
    decide
  · rw [hcard]
    decide

/-- Bits 0 and 32 of an empty bitmap, and a pool of which half is in use. -/
theorem vmmNewPagetable_stops : ¬WordBitmap.ActsOnOneBit (fun _ => 0) vmPtpSize 0 ∧
    ∃ σ, TablesReachable samplePool blankVm σ ∧ σ.inUse.card < vmPtpSize ∧
      ¬∃ r, vmmNewPagetable samplePool σ.vm = .ok r := by
  obtain ⟨σ, hreach, hcard⟩ := exists_reachable samplePool blankVm (le_refl 512)
  refine ⟨fun h => ?_, σ, hreach, ?_, fun hok => ?_⟩
  · exact absurd ((WordBitmap.actsOnOneBit_iff _ _ _).1 h) (by decide)
  · rw [hcard]
    decide
  · have hlt := (hreach.marked.vmmNewPagetable_iff samplePool).1 hok
    omega

end Kudos
