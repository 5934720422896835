import Kudos.Library.Supply
import Kudos.Vm.AddressSpace
import Mathlib.Algebra.Order.BigOperators.Group.Finset
import Mathlib.Data.Finset.Card

set_option autoImplicit false

/-! # When pages can be mapped

`vm_map` stops the kernel only if the pool has no table left. To map some pages, one table is needed
for each way to a table that leads nowhere yet (`missingWays`), and every table that is taken opens one
of these ways. So a supply of as many tables lasts for all the pages, in any order. -/

namespace Kudos

open Radix Supply

/-! ## Taking tables -/

/-- `n` tables can be taken one after the other. -/
def CanTakeTables (pool : PtPool) (n : ℕ) (s : VmState) : Prop :=
  CanTake (vmmNewPagetable pool) (fun _ => True) n s

instance (pool : PtPool) (n : ℕ) (s : VmState) : Decidable (CanTakeTables pool n s) :=
  inferInstanceAs (Decidable (CanTake _ _ _ _))

section

variable {pool : PtPool} {s s' : VmState} {n : ℕ}

/-- Only the bitmap decides which table is taken. -/
theorem CanTakeTables.congr (h : CanTakeTables pool n s) (hbits : s'.ptBitmap = s.ptBitmap) :
    CanTakeTables pool n s' := by
  refine CanTake.congr h (fun s s' => s'.ptBitmap = s.ptBitmap) hbits ?_
  intro s s' t s1 hbits hnew
  have htest : ptmapTestbit s' = ptmapTestbit s := by
    funext i
    unfold ptmapTestbit
    rw [hbits]
  unfold vmmNewPagetable at hnew ⊢
  rw [htest]
  split at hnew
  · next i hfind =>
      cases hnew
      refine ⟨ptmapSetbit s' i, rfl, ?_⟩
      unfold ptmapSetbit
      rw [hbits]
  · cases hnew

/-- The tables of the pool that are in use. -/
def markedTables (s : VmState) : Finset ℕ :=
  (Finset.range vmPtpSize).filter fun i => s.ptBitmap.testbit i ≠ 0

/-- Tables that can be taken are not in use. -/
theorem CanTakeTables.add_marked_le (h : CanTakeTables pool n s) :
    n + (markedTables s).card ≤ vmPtpSize := by
  refine CanTake.add_le h (fun s => (markedTables s).card) ?_ ?_
  · intro s
    exact (Finset.card_filter_le _ _).trans (Finset.card_range _).le
  · intro s t s' hnew
    obtain ⟨i, hpool, hfree, rfl⟩ := vmmNewPagetable_spec hnew
    have hmore : insert i (markedTables s) ⊆ markedTables (ptmapSetbit s i) := by
      intro j hj
      unfold markedTables at hj ⊢
      rw [Finset.mem_filter, Finset.mem_range]
      rcases Finset.mem_insert.1 hj with rfl | hj
      · exact ⟨hpool.1, (s.ptBitmap.testbit_setbit j j).2 (Or.inl ⟨rfl, rfl⟩)⟩
      · rw [Finset.mem_filter, Finset.mem_range] at hj
        exact ⟨hj.1, (s.ptBitmap.testbit_setbit i j).2 (Or.inr hj.2)⟩
    have hnot : i ∉ markedTables s := fun hi => (Finset.mem_filter.1 hi).2 hfree
    have hcard := Finset.card_le_card hmore
    rw [Finset.card_insert_of_notMem hnot] at hcard
    exact hcard

end

/-! ## What is missing -/

/-- The ways to the three tables that `vm_map` needs for a page. -/
def tableWays (va : BitVec 64) : Finset (List ℕ) :=
  {[vmmIndexPml4 va], [vmmIndexPml4 va, vmmIndexPdp va], tablePath va}

/-- The ways for all of some pages. -/
def neededWays (pages : List (BitVec 64)) : Finset (List ℕ) := pages.toFinset.biUnion tableWays

/-- The ways that do not lead to a table yet. -/
def missingWays (s : VmState) (p : BitVec 64) (ways : Finset (List ℕ)) : Finset (List ℕ) :=
  ways.filter fun way => follow s.pointers p way = none

/-- The pool has enough tables for the missing ways. -/
def TableSupply (pool : PtPool) (s : VmState) (p : BitVec 64) (ways : Finset (List ℕ)) : Prop :=
  CanTakeTables pool (missingWays s p ways).card s

theorem length_of_mem_neededWays {pages : List (BitVec 64)} {way : List ℕ}
    (h : way ∈ neededWays pages) : 1 ≤ way.length ∧ way.length ≤ 3 := by
  obtain ⟨va, -, hway⟩ := Finset.mem_biUnion.1 h
  unfold tableWays at hway
  rw [Finset.mem_insert, Finset.mem_insert, Finset.mem_singleton] at hway
  rcases hway with rfl | rfl | rfl
  · simp
  · simp
  · simp [tablePath]

theorem tableWays_subset {pages : List (BitVec 64)} {va : BitVec 64} (h : va ∈ pages) :
    tableWays va ⊆ neededWays pages :=
  Finset.subset_biUnion_of_mem tableWays (List.mem_toFinset.2 h)

section

variable {pool : PtPool} {s s' : VmState} {live : BitVec 64 → Prop} {k p a b : BitVec 64}
  {pre : List ℕ} {i : ℕ} {flags : BitVec 32} {ways : Finset (List ℕ)}

/-- A step opens the way that it takes, and no other. -/
theorem missingWays_nextTable (h : VmInvariant pool s live k) (hp : live p) (hpre : pre.length < 3)
    (ha : follow s.pointers p pre = some a) (hflags : flags.toNat < 4096)
    (hshort : ∀ way ∈ ways, way.length ≤ 3)
    (hnext : vmmNextTable pool s (vmmGetNext s a i) a i flags = .ok (b, s')) :
    missingWays s' p ways = (missingWays s p ways).erase (pre ++ [i]) := by
  have hfound := (vmmNextTable_spec h hp hpre ha hflags hnext).found
  ext way
  unfold missingWays
  rw [Finset.mem_erase, Finset.mem_filter, Finset.mem_filter]
  constructor
  · rintro ⟨hmem, hnone⟩
    have hne : way ≠ pre ++ [i] := by
      rintro rfl
      cases hfound.symm.trans hnone
    refine ⟨hne, hmem, ?_⟩
    rcases vmmNextTable_follow h hp hpre ha hflags hnext hp (Nat.le_succ_of_le (hshort way hmem)) with
      ⟨-, hway, -⟩ | hsame
    · exact absurd hway hne
    · rw [← hsame, hnone]
  · rintro ⟨hne, hmem, hnone⟩
    refine ⟨hmem, ?_⟩
    rcases vmmNextTable_follow h hp hpre ha hflags hnext hp (Nat.le_succ_of_le (hshort way hmem)) with
      ⟨-, hway, -⟩ | hsame
    · exact absurd hway hne
    · rw [hsame, hnone]

/-- A way that is empty is missing. -/
theorem mem_missingWays (ha : follow s.pointers p pre = some a) (hempty : s.pointers a i = none)
    (hmem : pre ++ [i] ∈ ways) : pre ++ [i] ∈ missingWays s p ways := by
  refine Finset.mem_filter.2 ⟨hmem, ?_⟩
  rw [follow_append, ha]
  simp only [Option.bind_some, follow, hempty, Option.bind_none]

theorem tableSupply_congr (hmissing : missingWays s' p ways = missingWays s p ways)
    (hbits : s'.ptBitmap = s.ptBitmap) : TableSupply pool s' p ways ↔ TableSupply pool s p ways := by
  unfold TableSupply
  rw [hmissing]
  exact ⟨fun h => CanTakeTables.congr h hbits.symm, fun h => CanTakeTables.congr h hbits⟩

/-- A step takes one table if one way less is missing after it. -/
theorem TableSupply.nextTable_iff (h : VmInvariant pool s live k) (hp : live p) (hpre : pre.length < 3)
    (ha : follow s.pointers p pre = some a) (hflags : flags.toNat < 4096)
    (hshort : ∀ way ∈ ways, way.length ≤ 3) (hmem : pre ++ [i] ∈ ways)
    (hnext : vmmNextTable pool s (vmmGetNext s a i) a i flags = .ok (b, s')) :
    TableSupply pool s' p ways ↔ TableSupply pool s p ways := by
  have herase := missingWays_nextTable h hp hpre ha hflags hshort hnext
  rcases vmmNextTable_eq hnext with ⟨-, -, rfl⟩ | ⟨hzero, n, hnew, -, hs'⟩
  · exact Iff.rfl
  · have hempty := ((h.vmmGetNext_eq hp hpre ha).resolve_right fun hc => hc.2 hzero).1
    have hcard := Finset.card_erase_add_one (mem_missingWays ha hempty hmem)
    have hbits : s'.ptBitmap = (ptmapSetbit s n).ptBitmap := by
      rw [hs']
      rfl
    have htake : TableSupply pool s p ways ↔
        CanTakeTables pool (missingWays s' p ways).card (ptmapSetbit s n) := by
      unfold TableSupply
      rw [← hcard, ← herase]
      exact (canTake_succ_iff hnew).trans (and_iff_right trivial)
    rw [htake]
    exact ⟨fun hs => CanTakeTables.congr hs hbits.symm, fun hs => CanTakeTables.congr hs hbits⟩

/-- One level of `vm_map`, with a supply of tables. -/
theorem TableSupply.nextTable (hsupply : TableSupply pool s p ways) (h : VmInvariant pool s live k)
    (hp : live p) (hpre : pre.length < 3) (ha : follow s.pointers p pre = some a)
    (hflags : flags.toNat < 4096) (hshort : ∀ way ∈ ways, way.length ≤ 3) (hmem : pre ++ [i] ∈ ways) :
    ∃ b s', vmmNextTable pool s (vmmGetNext s a i) a i flags = .ok (b, s') ∧
      TableSupply pool s' p ways := by
  have hreturns : ∃ b s', vmmNextTable pool s (vmmGetNext s a i) a i flags = .ok (b, s') := by
    unfold vmmNextTable
    rcases h.vmmGetNext_eq (i := i) hp hpre ha with ⟨hempty, hzero⟩ | ⟨-, hne⟩
    · -- the way is missing, so there is a table for it
      have hcard := Finset.card_erase_add_one (mem_missingWays ha hempty hmem)
      unfold TableSupply at hsupply
      rw [← hcard] at hsupply
      obtain ⟨b, s1, hnew, -, -⟩ := hsupply
      rw [if_pos hzero, hnew]
      exact ⟨b, _, rfl⟩
    · rw [if_neg hne]
      exact ⟨_, s, rfl⟩
  obtain ⟨b, s', hnext⟩ := hreturns
  exact ⟨b, s', hnext, (nextTable_iff h hp hpre ha hflags hshort hmem hnext).2 hsupply⟩

theorem mem_of_tableWays {va : BitVec 64} (hways : tableWays va ⊆ ways) :
    [vmmIndexPml4 va] ∈ ways ∧ [vmmIndexPml4 va, vmmIndexPdp va] ∈ ways ∧ tablePath va ∈ ways := by
  have hmem : ∀ way ∈ tableWays va, way ∈ ways := fun way hway => hways hway
  unfold tableWays at hmem
  simpa only [Finset.mem_insert, Finset.mem_singleton, forall_eq_or_imp, forall_eq] using hmem

/-- `vm_map` takes as many tables as ways are opened. -/
theorem TableSupply.vmMap_iff {pa va : BitVec 64} (h : VmInvariant pool s live k) (hp : live p)
    (hflags : flags.toNat < 4096) (hshort : ∀ way ∈ ways, way.length ≤ 3) (hways : tableWays va ⊆ ways)
    (hmap : vmMap pool s p pa va flags = .ok s') :
    TableSupply pool s' p ways ↔ TableSupply pool s p ways := by
  have hnil : ([] : List ℕ).length < 3 := by decide
  obtain ⟨hway1, hway2, hway3⟩ := mem_of_tableWays hways
  obtain ⟨pdp, s1, pdir, s2, pt, s3, h1, h2, h3, rfl⟩ := vmMap_levels hmap
  have n1 := vmmNextTable_spec h hp hnil rfl hflags h1
  have n2 := vmmNextTable_spec n1.invariant hp (by simp) n1.found hflags h2
  have n3 := vmmNextTable_spec n2.invariant hp (by simp) n2.found hflags h3
  -- the entry of the page is at the bottom, so no way changes
  have hsame : missingWays (vmmInstallPtable s3 pt (vmmIndexPtable va) pa (entryFlags flags)) p ways
      = missingWays s3 p ways := by
    refine Finset.filter_congr fun way hway => ?_
    rw [pointers_vmmInstallPtable,
      n3.invariant.forest.follow_setLeaf hp rfl n3.found hp (hshort way hway)]
  have hleaf : TableSupply pool _ p ways ↔ TableSupply pool s3 p ways := tableSupply_congr hsame rfl
  exact hleaf.trans ((nextTable_iff n2.invariant hp (by simp) n2.found hflags hshort hway3 h3).trans
    ((nextTable_iff n1.invariant hp (by simp) n1.found hflags hshort hway2 h2).trans
      (nextTable_iff h hp hnil rfl hflags hshort hway1 h1)))

/-- **With a supply of tables `vm_map` succeeds**, and there are enough tables left for the ways that
    are missing then. -/
theorem TableSupply.vmMap (pa : BitVec 64) {va : BitVec 64} (hsupply : TableSupply pool s p ways)
    (h : VmInvariant pool s live k) (hp : live p) (hflags : flags.toNat < 4096)
    (hshort : ∀ way ∈ ways, way.length ≤ 3) (hways : tableWays va ⊆ ways) :
    ∃ s', vmMap pool s p pa va flags = .ok s' ∧ TableSupply pool s' p ways := by
  have hnil : ([] : List ℕ).length < 3 := by decide
  obtain ⟨hway1, hway2, hway3⟩ := mem_of_tableWays hways
  obtain ⟨pdp, s1, h1, supply1⟩ := hsupply.nextTable h hp hnil rfl hflags hshort hway1
  have n1 := vmmNextTable_spec h hp hnil rfl hflags h1
  obtain ⟨pdir, s2, h2, supply2⟩ :=
    supply1.nextTable n1.invariant hp (by simp) n1.found hflags hshort hway2
  have n2 := vmmNextTable_spec n1.invariant hp (by simp) n1.found hflags h2
  obtain ⟨pt, s3, h3, supply3⟩ :=
    supply2.nextTable n2.invariant hp (by simp) n2.found hflags hshort hway3
  have hmap : Kudos.vmMap pool s p pa va flags
      = .ok (vmmInstallPtable s3 pt (vmmIndexPtable va) pa (entryFlags flags)) := by
    unfold Kudos.vmMap vmmGetpdp vmmGetpdir vmmGetptable
    rw [h1]
    simp only [bind, Except.bind]
    rw [h2]
    simp only
    rw [h3]
    rfl
  exact ⟨_, hmap, (vmMap_iff h hp hflags hshort hways hmap).2 hsupply⟩

/-- Memory that holds no table of a tree does not matter. -/
theorem TableSupply.setTable_iff {q : BitVec 64} (hq : ¬ Node s.pointers live 3 q) (hp : live p)
    (hshort : ∀ way ∈ ways, way.length ≤ 3) (words : ℕ → BitVec 64) :
    TableSupply pool { s with tables := Function.update s.tables q words } p ways
      ↔ TableSupply pool s p ways := by
  refine tableSupply_congr (Finset.filter_congr fun way hway => ?_) rfl
  rw [pointers_setTable, Forest.follow_setTable hq _ hp (Nat.le_succ_of_le (hshort way hway))]

end

/-! ## What is not a table -/

/-- A page that is not in the pool. -/
def OffPool (pool : PtPool) (q : BitVec 64) : Prop := ∀ i < vmPtpSize, q ≠ pool.table i

section

variable {pool : PtPool} {s s' : VmState} {live : BitVec 64 → Prop} {k p a b q : BitVec 64}
  {pre : List ℕ} {i : ℕ} {flags : BitVec 32}

theorem VmInvariant.ne_of_offPool (h : VmInvariant pool s live k) (hq : OffPool pool q)
    (ha : Node s.pointers live 3 a) : q ≠ a := by
  obtain ⟨i, hpool, -⟩ := h.marked a ha
  rw [hpool.2.2]
  exact hq i hpool.1

theorem tables_vmmInstallPtable {index : ℕ} {phys flags : BitVec 64} (hq : q ≠ a) :
    (vmmInstallPtable s a index phys flags).tables q = s.tables q := by
  unfold vmmInstallPtable
  simp only [Function.update_of_ne hq]

theorem vmmNextTable_tables (h : VmInvariant pool s live k) (hp : live p) (hpre : pre.length < 3)
    (ha : follow s.pointers p pre = some a) (hq : OffPool pool q)
    (hnext : vmmNextTable pool s (vmmGetNext s a i) a i flags = .ok (b, s')) :
    s'.tables q = s.tables q := by
  rcases vmmNextTable_eq hnext with ⟨-, -, rfl⟩ | ⟨-, n, -, hpool, rfl⟩
  · rfl
  · have hqb : q ≠ b := by
      rw [hpool.2.2]
      exact hq n hpool.1
    rw [tables_vmmInstallPtable (h.ne_of_offPool hq ⟨p, pre, hp, hpre.le, ha⟩)]
    exact Function.update_of_ne hqb ..

/-- `vm_map` writes to page tables only. -/
theorem vmMap_tables {pa va : BitVec 64} (h : VmInvariant pool s live k) (hp : live p)
    (hflags : flags.toNat < 4096) (hq : OffPool pool q)
    (hmap : vmMap pool s p pa va flags = .ok s') : s'.tables q = s.tables q := by
  obtain ⟨pdp, s1, pdir, s2, pt, s3, h1, h2, h3, rfl⟩ := vmMap_levels hmap
  have hnil : ([] : List ℕ).length < 3 := by decide
  have n1 := vmmNextTable_spec h hp hnil rfl hflags h1
  have n2 := vmmNextTable_spec n1.invariant hp (by simp) n1.found hflags h2
  have n3 := vmmNextTable_spec n2.invariant hp (by simp) n2.found hflags h3
  rw [tables_vmmInstallPtable (n3.invariant.ne_of_offPool hq ⟨p, tablePath va, hp, le_rfl, n3.found⟩),
    vmmNextTable_tables n2.invariant hp (by simp) n2.found hq h3,
    vmmNextTable_tables n1.invariant hp (by simp) n1.found hq h2,
    vmmNextTable_tables h hp hnil rfl hq h1]

end

/-! ## A new address space -/

section

variable {pool : PtPool} {s : VmState} {live : BitVec 64 → Prop} {pages : List (BitVec 64)}

/-- The new table has the ways of the kernel, and one table more is taken for it. -/
theorem vmCreatePagetable_supply_iff {t : BitVec 64} {s' : VmState}
    (h : VmInvariant pool s live s.kernelPml4) (hcreate : vmCreatePagetable pool s = .ok (t, s')) :
    TableSupply pool s' t (neededWays pages) ↔
      CanTakeTables pool ((missingWays s s.kernelPml4 (neededWays pages)).card + 1) s := by
  unfold vmCreatePagetable at hcreate
  cases hnew : vmmNewPagetable pool s with
  | error f =>
      rw [hnew] at hcreate
      cases hcreate
  | ok r =>
      obtain ⟨t', s1⟩ := r
      rw [hnew] at hcreate
      cases hcreate
      have hfresh := h.not_node_new hnew
      obtain ⟨n, -, -, rfl⟩ := vmmNewPagetable_spec hnew
      have hptr : _ = Function.update s.pointers t (s.pointers s.kernelPml4) :=
        pointers_setTable (ptmapSetbit s n) t ((ptmapSetbit s n).tables (ptmapSetbit s n).kernelPml4)
      have hsame : ∀ s' : VmState, s'.pointers = Function.update s.pointers t (s.pointers s.kernelPml4) →
          missingWays s' t (neededWays pages) = missingWays s s.kernelPml4 (neededWays pages) := by
        intro s' hptr
        refine Finset.filter_congr fun way hway => ?_
        obtain ⟨hpos, hlen⟩ := length_of_mem_neededWays hway
        cases way with
        | nil => cases hpos
        | cons i rest => rw [hptr, h.forest.follow_copy hfresh (Nat.le_succ_of_le hlen)]
      unfold TableSupply
      rw [hsame _ hptr]
      refine Iff.trans ?_ ((canTake_succ_iff hnew).trans (and_iff_right trivial)).symm
      exact ⟨fun hs => CanTakeTables.congr hs rfl, fun hs => CanTakeTables.congr hs rfl⟩

theorem vmCreatePagetable_supply (h : VmInvariant pool s live s.kernelPml4)
    (hsupply : CanTakeTables pool ((missingWays s s.kernelPml4 (neededWays pages)).card + 1) s) :
    ∃ t s', vmCreatePagetable pool s = .ok (t, s') ∧ TableSupply pool s' t (neededWays pages) := by
  obtain ⟨t, s1, hnew, -, -⟩ := id hsupply
  have hcreate : vmCreatePagetable pool s
      = .ok (t, { s1 with tables := Function.update s1.tables t (s1.tables s1.kernelPml4) }) := by
    unfold vmCreatePagetable
    rw [hnew]
    rfl
  exact ⟨t, _, hcreate, (vmCreatePagetable_supply_iff h hcreate).2 hsupply⟩

/-- All the ways together are no more than the tables of the pool. -/
theorem card_neededWays_le (h : VmInvariant pool s live s.kernelPml4)
    (hsupply : CanTakeTables pool (missingWays s s.kernelPml4 (neededWays pages)).card s) :
    (neededWays pages).card ≤ vmPtpSize := by
  -- a way that is not missing leads to a table in use of its own
  have hindex : ∀ way ∈ neededWays pages, follow s.pointers s.kernelPml4 way ≠ none →
      ∃ i ∈ markedTables s, follow s.pointers s.kernelPml4 way = some (pool.table i) := by
    intro way hway hsome
    obtain ⟨x, hx⟩ := Option.ne_none_iff_exists'.1 hsome
    have hnode : Node s.pointers live 3 x :=
      ⟨s.kernelPml4, way, h.forest.base, (length_of_mem_neededWays hway).2, hx⟩
    obtain ⟨i, hpool, hmarked⟩ := h.marked x hnode
    refine ⟨i, Finset.mem_filter.2 ⟨Finset.mem_range.2 hpool.1, hmarked⟩, ?_⟩
    rw [hx, hpool.2.2]
  choose! index hmarked hfollow using hindex
  have hpresent : ((neededWays pages).filter fun way =>
      ¬ follow s.pointers s.kernelPml4 way = none).card ≤ (markedTables s).card := by
    refine Finset.card_le_card_of_injOn index ?_ ?_
    · intro way hway
      obtain ⟨hmem, hsome⟩ := Finset.mem_filter.1 hway
      exact hmarked way hmem hsome
    · intro way hway way' hway' heq
      obtain ⟨hmem, hsome⟩ := Finset.mem_filter.1 hway
      obtain ⟨hmem', hsome'⟩ := Finset.mem_filter.1 hway'
      have hto := hfollow way hmem hsome
      have hto' := hfollow way' hmem' hsome'
      rw [← heq] at hto'
      exact (h.forest.unique _ _ way way' _ h.forest.base h.forest.base
        (length_of_mem_neededWays hmem).2 (length_of_mem_neededWays hmem').2 hto hto').1
  have hsplit := Finset.card_filter_add_card_filter_not (s := neededWays pages)
    fun way => follow s.pointers s.kernelPml4 way = none
  have htake := hsupply.add_marked_le
  unfold missingWays at htake
  omega

/-- A range of `n` pages has a way of its own for every 512 of them. -/
theorem le_card_neededWays {a n : ℕ} (hbase : a % 4096 = 0) (hfits : a + 4096 * n ≤ 2 ^ 64)
    (hn : n ≤ 2 ^ 36) (hpages : ∀ i < n, BitVec.ofNat 64 (a + 4096 * i) ∈ pages) :
    n ≤ 512 * (neededWays pages).card := by
  have hmaps : ∀ j ∈ Finset.range ((n + 511) / 512),
      tablePath (BitVec.ofNat 64 (a + 4096 * (512 * j))) ∈ neededWays pages := by
    intro j hj
    rw [Finset.mem_range] at hj
    refine tableWays_subset (hpages (512 * j) (by omega)) ?_
    unfold tableWays
    simp
  have hinj : Set.InjOn (fun j => tablePath (BitVec.ofNat 64 (a + 4096 * (512 * j))))
      (Finset.range ((n + 511) / 512)) := by
    intro j hj j' hj' heq
    rw [Finset.mem_coe, Finset.mem_range] at hj hj'
    have hlt : a + 4096 * (512 * j) < 2 ^ 64 := by omega
    have hlt' : a + 4096 * (512 * j') < 2 ^ 64 := by omega
    have hsmall : j < 2 ^ 27 := by omega
    have hsmall' : j' < 2 ^ 27 := by omega
    simp only [tablePath, List.cons.injEq, and_true, vmmIndexPml4, vmmIndexPdp, vmmIndexPdir, index_eq,
      BitVec.toNat_ofNat, Nat.mod_eq_of_lt hlt, Nat.mod_eq_of_lt hlt'] at heq
    clear hj hj' hpages hlt hlt' hfits hn
    omega
  have hcard := Finset.card_le_card_of_injOn _ hmaps hinj
  rw [Finset.card_range] at hcard
  omega

end

end Kudos
