import Kudos.Library.Transition
import Kudos.Vm.PageTable

set_option autoImplicit false

/-! # The address spaces of the x86_64 kernel

The page tables that are in use form a forest in the sense of `Kudos.Library.Radix`, with the table of
the kernel as the base root that all others have copied their first level from. Tables of the forest
are marked in the pool, so a new table is not one of them. From this it follows what a call of
`vm_map` does to the translations: it changes that of one page, in one address space, unless the page
lies under an entry that is shared with the kernel. -/

namespace Kudos

open Radix Transition

/-! ## Entries -/

section

variable {phys : BitVec 64} {flags : BitVec 32}

/-- An address at the start of a page. -/
def PageAligned (a : BitVec 64) : Prop := a.toNat % 4096 = 0

theorem PageAligned.getLsbD (h : PageAligned phys) {j : ℕ} (hj : j < 12) : phys.getLsbD j = false := by
  have hmod : phys.toNat.testBit j = (phys.toNat % 2 ^ 12).testBit j := by
    rw [Nat.testBit_mod_two_pow]
    simp [hj]
  rw [BitVec.getLsbD, hmod, show phys.toNat % 2 ^ 12 = 0 from h, Nat.zero_testBit]

theorem getLsbD_pageMask (j : ℕ) : pageMask.getLsbD j = decide (12 ≤ j ∧ j < 64) := by
  have hall : ∀ j < 64, pageMask.getLsbD j = decide (12 ≤ j ∧ j < 64) := by decide
  by_cases hj : j < 64
  · exact hall j hj
  · rw [BitVec.getLsbD_of_ge _ _ (by omega)]
    simp [hj]

/-- Attribute bits do not reach into the address. -/
theorem getLsbD_entryFlags (hflags : flags.toNat < 4096) {j : ℕ} (hj : 12 ≤ j) :
    (entryFlags flags).getLsbD j = false := by
  have hbit : ∀ i, 12 ≤ i → flags.getLsbD i = false := by
    intro i hi
    rw [BitVec.getLsbD, Nat.testBit_lt_two_pow]
    exact lt_of_lt_of_le hflags (Nat.pow_le_pow_right (by decide : 0 < 2) hi)
  have hmsb : flags.msb = false := by
    rw [BitVec.msb_eq_getLsbD_last]
    exact hbit 31 (by decide)
  have hone : pagePresent.getLsbD j = false := by
    rw [pagePresent, BitVec.getLsbD, Nat.testBit_lt_two_pow]
    exact lt_of_lt_of_le (by decide) (Nat.pow_le_pow_right (by decide : 0 < 2) hj)
  have htwo : pageWrite.getLsbD j = false := by
    rw [pageWrite, BitVec.getLsbD, Nat.testBit_lt_two_pow]
    exact lt_of_lt_of_le (by decide) (Nat.pow_le_pow_right (by decide : 0 < 2) hj)
  simp only [entryFlags, BitVec.getLsbD_or, hone, htwo, BitVec.getLsbD_signExtend, hmsb, hbit j hj]
  simp

theorem entryTarget_zero : entryTarget 0 = none := by
  simp [entryTarget]

/-- Every entry that `vm_map` writes is present. -/
theorem entryTarget_or (phys : BitVec 64) (flags : BitVec 32) :
    entryTarget (phys ||| entryFlags flags) = some ((phys ||| entryFlags flags) &&& pageMask) := by
  unfold entryTarget
  rw [if_pos]
  intro h
  have hbit := congrArg (BitVec.getLsbD · 0) h
  simp [entryFlags, pagePresent] at hbit

/-- An entry for an aligned address points to it. -/
theorem entryTarget_aligned (hphys : PageAligned phys) (hflags : flags.toNat < 4096) :
    entryTarget (phys ||| entryFlags flags) = some phys := by
  rw [entryTarget_or]
  congr 1
  apply BitVec.eq_of_getLsbD_eq
  intro j hj
  rw [BitVec.getLsbD_and, BitVec.getLsbD_or, getLsbD_pageMask]
  by_cases hlow : 12 ≤ j
  · rw [getLsbD_entryFlags hflags hlow]
    simp [hlow, hj]
  · simp [hlow, hphys.getLsbD (by omega : j < 12)]

end

/-! ## The pool -/

section

variable {pool : PtPool} {s s' : VmState}

theorem PtPool.toNat_table (pool : PtPool) {i : ℕ} (hi : i < vmPtpSize) :
    (pool.table i).toNat = pool.base + 4096 * i := by
  have := pool.fits
  unfold PtPool.table
  rw [BitVec.toNat_ofNat, Nat.mod_eq_of_lt (by omega)]

theorem PtPool.table_ne_zero (pool : PtPool) {i : ℕ} (hi : i < vmPtpSize) : pool.table i ≠ 0 := by
  intro h
  have hnat : pool.base + 4096 * i = 0 := by
    rw [← pool.toNat_table hi, h]
    rfl
  have := pool.pos
  omega

theorem PtPool.table_injective (pool : PtPool) {i j : ℕ} (hi : i < vmPtpSize) (hj : j < vmPtpSize)
    (h : pool.table i = pool.table j) : i = j := by
  have hnat := congrArg BitVec.toNat h
  rw [pool.toNat_table hi, pool.toNat_table hj] at hnat
  omega

theorem PtPool.table_aligned (pool : PtPool) {i : ℕ} (hi : i < vmPtpSize) :
    PageAligned (pool.table i) := by
  unfold PageAligned
  rw [pool.toNat_table hi]
  have := pool.aligned
  omega

/-- A table of the pool that can be handed out: of the 64 bits of a word only the first 32 have a mask
    of their own. -/
def PoolTable (pool : PtPool) (i : ℕ) (t : BitVec 64) : Prop :=
  i < vmPtpSize ∧ i % 64 < 32 ∧ t = pool.table i

theorem PoolTable.eq_of_eq {i j : ℕ} {t : BitVec 64} (h : PoolTable pool i t) (h' : PoolTable pool j t) :
    i = j :=
  pool.table_injective h.1 h'.1 (h.2.2.symm.trans h'.2.2)

/-- Such tables have different masks. -/
theorem PoolTable.not_sameMask {i j : ℕ} {t t' : BitVec 64} (h : PoolTable pool i t)
    (h' : PoolTable pool j t') (hne : t ≠ t') : ¬ WordBitmap.SameMask i j := by
  rintro ⟨hword, hbit⟩
  have hi := h.2.1
  have hj := h'.2.1
  obtain rfl : i = j := by omega
  exact hne (h.2.2.trans h'.2.2.symm)

/-- A new table was not marked, and now it is. -/
theorem vmmNewPagetable_spec {t : BitVec 64} (h : vmmNewPagetable pool s = .ok (t, s')) :
    ∃ i, PoolTable pool i t ∧ s.ptBitmap.testbit i = 0 ∧ s' = ptmapSetbit s i := by
  unfold vmmNewPagetable at h
  split at h
  · next i hfind =>
      cases h
      rw [List.find?_range_eq_some] at hfind
      obtain ⟨hfree, hi, hbefore⟩ := hfind
      have hfree : s.ptBitmap.testbit i = 0 := of_decide_eq_true hfree
      refine ⟨i, ⟨List.mem_range.1 hi, ?_, rfl⟩, hfree, rfl⟩
      -- bit `i - 32` has the same mask and was tested before
      by_contra hhigh
      have hsame : WordBitmap.SameMask i (i - 32) := ⟨by omega, by omega⟩
      have hprev := hbefore (i - 32) (by omega)
      have hmarked : ptmapTestbit s (i - 32) ≠ 0 := by simpa using hprev
      exact (s.ptBitmap.testbit_congr hsame).2 hmarked hfree
  · cases h

end

/-! ## The invariant -/

/-- The tables of the live address spaces form a forest with the base `k`, and each of them is a table
    of the pool that is marked. -/
structure VmInvariant (pool : PtPool) (s : VmState) (live : BitVec 64 → Prop) (k : BitVec 64) :
    Prop where
  forest : Forest s.pointers live k 3
  marked : ∀ t, Node s.pointers live 3 t → ∃ i, PoolTable pool i t ∧ s.ptBitmap.testbit i ≠ 0

section

variable {pool : PtPool} {s s' : VmState} {live : BitVec 64 → Prop} {k t : BitVec 64}

/-- A new table is in no tree. -/
theorem VmInvariant.not_node_new (h : VmInvariant pool s live k)
    (hnew : vmmNewPagetable pool s = .ok (t, s')) : ¬ Node s.pointers live 3 t := by
  intro hnode
  obtain ⟨i, hpool, hfree, -⟩ := vmmNewPagetable_spec hnew
  obtain ⟨j, hpool', hmarked⟩ := h.marked t hnode
  rw [hpool.eq_of_eq hpool'] at hfree
  exact hmarked hfree

theorem pointers_setTable (s : VmState) (t : BitVec 64) (entries : ℕ → BitVec 64) :
    VmState.pointers { s with tables := Function.update s.tables t entries }
      = Function.update s.pointers t (fun i => entryTarget (entries i)) := by
  funext a i
  unfold VmState.pointers
  by_cases ha : a = t
  · simp only [ha, Function.update_self]
  · simp only [Function.update_of_ne ha]

theorem pointers_vmmCleartable (s : VmState) (ht : t ≠ 0) :
    (vmmCleartable s t).pointers = Function.update s.pointers t (fun _ => none) := by
  have hptr := pointers_setTable s t fun _ => 0
  rw [entryTarget_zero] at hptr
  unfold vmmCleartable
  rw [if_pos ht]
  exact hptr

theorem pointers_vmmInstallPtable (s : VmState) (target : BitVec 64) (index : ℕ)
    (phys flags : BitVec 64) :
    (vmmInstallPtable s target index phys flags).pointers
      = setEntry s.pointers target index (entryTarget (phys ||| flags)) := by
  funext a i
  unfold vmmInstallPtable VmState.pointers setEntry
  by_cases ha : a = target
  · subst ha
    by_cases hi : i = index
    · simp only [hi, Function.update_self, and_self, if_true]
    · simp only [Function.update_self, Function.update_of_ne hi, hi, and_false, if_false]
  · simp only [Function.update_of_ne ha, ha, false_and, if_false]

/-- The pool after a new table is marked keeps all other marks. -/
theorem VmInvariant.marked_setbit (h : VmInvariant pool s live k) {i : ℕ} :
    ∀ t, Node s.pointers live 3 t →
      ∃ j, PoolTable pool j t ∧ (s.ptBitmap.setbit i).testbit j ≠ 0 := by
  intro t ht
  obtain ⟨j, hpool, hmarked⟩ := h.marked t ht
  exact ⟨j, hpool, (s.ptBitmap.testbit_setbit i j).2 (Or.inr hmarked)⟩

/-- An entry of a table in a tree, as the C code looks at it. -/
theorem VmInvariant.vmmGetNext_eq (h : VmInvariant pool s live k) {p a : BitVec 64} {pre : List ℕ}
    {i : ℕ} (hp : live p) (hpre : pre.length < 3) (ha : follow s.pointers p pre = some a) :
    (s.pointers a i = none ∧ vmmGetNext s a i = 0) ∨
      (s.pointers a i = some (vmmGetNext s a i) ∧ vmmGetNext s a i ≠ 0) := by
  have hdef : s.pointers a i = entryTarget (s.tables a i) := rfl
  unfold entryTarget at hdef
  unfold vmmGetNext
  split
  · next hpresent =>
      rw [if_pos hpresent] at hdef
      refine Or.inr ⟨hdef, fun hzero => ?_⟩
      have hnode : Node s.pointers live 3 (s.tables a i &&& pageMask) := by
        refine ⟨p, pre ++ [i], hp, by rw [List.length_append, List.length_singleton]; omega, ?_⟩
        rw [follow_append, ha]
        simp only [Option.bind_some, follow, hdef]
      obtain ⟨j, hpool, -⟩ := h.marked _ hnode
      exact pool.table_ne_zero hpool.1 (hpool.2.2.symm.trans hzero)
  · next habsent =>
      rw [if_neg habsent] at hdef
      exact Or.inl ⟨hdef, rfl⟩

end

/-! ## One level of `vm_map` -/

/-- What the step from a table `a` of the tree of `p` to the next one does: the next table is there,
    no translation changes, and other roots keep their entries. -/
structure NextTable (pool : PtPool) (s s' : VmState) (live : BitVec 64 → Prop) (k p a b : BitVec 64)
    (pre : List ℕ) (i : ℕ) : Prop where
  invariant : VmInvariant pool s' live k
  kernel : s'.kernelPml4 = s.kernelPml4
  found : follow s'.pointers p (pre ++ [i]) = some b
  bottom : ∀ r, live r → ∀ path : List ℕ, path.length = 4 →
    follow s'.pointers r path = follow s.pointers r path
  entries : ∀ r, live r → r ≠ a → ∀ j, s'.pointers r j = s.pointers r j
  fresh : s.pointers a i = some b ∨
    (s.pointers a i = none ∧ ∀ r, live r → ∀ j, s.pointers r j ≠ some b)

/-- The two branches of a step: what the lookup gave, or a new table. -/
theorem vmmNextTable_eq {pool : PtPool} {s s' : VmState} {next a b : BitVec 64} {i : ℕ}
    {flags : BitVec 32} (hnext : vmmNextTable pool s next a i flags = .ok (b, s')) :
    (next ≠ 0 ∧ b = next ∧ s' = s) ∨
    (next = 0 ∧ ∃ n, vmmNewPagetable pool s = .ok (b, ptmapSetbit s n) ∧ PoolTable pool n b ∧
      s' = vmmInstallPtable { ptmapSetbit s n with tables := Function.update s.tables b fun _ => 0 } a i b
        (entryFlags flags)) := by
  unfold vmmNextTable at hnext
  split at hnext
  · next hzero =>
      cases hnew : vmmNewPagetable pool s with
      | error f =>
          rw [hnew] at hnext
          cases hnext
      | ok r =>
          obtain ⟨t, s1⟩ := r
          rw [hnew] at hnext
          cases hnext
          obtain ⟨n, hpool, -, rfl⟩ := vmmNewPagetable_spec hnew
          have ht0 : b ≠ 0 := hpool.2.2 ▸ pool.table_ne_zero hpool.1
          refine Or.inr ⟨hzero, n, rfl, hpool, ?_⟩
          unfold vmmCleartable
          rw [if_pos ht0]
          rfl
  · next hne =>
      cases hnext
      exact Or.inl ⟨hne, rfl, rfl⟩

/-- The two cases of a step: the table is there, or a fresh one is cleared and linked. -/
theorem vmmNextTable_cases {pool : PtPool} {s s' : VmState} {live : BitVec 64 → Prop}
    {k p a b : BitVec 64} {pre : List ℕ} {i : ℕ} {flags : BitVec 32} (h : VmInvariant pool s live k)
    (hp : live p) (hpre : pre.length < 3) (ha : follow s.pointers p pre = some a)
    (hflags : flags.toNat < 4096)
    (hnext : vmmNextTable pool s (vmmGetNext s a i) a i flags = .ok (b, s')) :
    (s.pointers a i = some b ∧ s' = s) ∨
    (s.pointers a i = none ∧ ¬ Node s.pointers live 3 b ∧ s'.kernelPml4 = s.kernelPml4 ∧
      (∃ n, PoolTable pool n b ∧ s'.ptBitmap = s.ptBitmap.setbit n) ∧
      s'.pointers = setEntry (Function.update s.pointers b fun _ => none) a i (some b)) := by
  have hentry := h.vmmGetNext_eq (i := i) hp hpre ha
  rcases vmmNextTable_eq hnext with ⟨hne, rfl, rfl⟩ | ⟨hzero, n, hnew, hpool, rfl⟩
  · exact Or.inl ⟨(hentry.resolve_left fun hc => hne hc.2).1, rfl⟩
  · have hempty := (hentry.resolve_right fun hc => hc.2 hzero).1
    have haligned : PageAligned b := by
      rw [hpool.2.2]
      exact pool.table_aligned hpool.1
    refine Or.inr ⟨hempty, h.not_node_new hnew, rfl, ⟨n, hpool, rfl⟩, ?_⟩
    have hclear : VmState.pointers { ptmapSetbit s n with tables := Function.update s.tables b fun _ => 0 }
        = Function.update s.pointers b fun _ => none := by
      have hptr := pointers_setTable (ptmapSetbit s n) b fun _ => 0
      rwa [entryTarget_zero] at hptr
    rw [pointers_vmmInstallPtable, entryTarget_aligned haligned hflags, hclear]

/-- The ways after a step: one more leads to a table. -/
theorem vmmNextTable_follow {pool : PtPool} {s s' : VmState} {live : BitVec 64 → Prop}
    {k p a b : BitVec 64} {pre : List ℕ} {i : ℕ} {flags : BitVec 32} (h : VmInvariant pool s live k)
    (hp : live p) (hpre : pre.length < 3) (ha : follow s.pointers p pre = some a)
    (hflags : flags.toNat < 4096)
    (hnext : vmmNextTable pool s (vmmGetNext s a i) a i flags = .ok (b, s')) {r : BitVec 64}
    (hr : live r) {path : List ℕ} (hlen : path.length ≤ 4) :
    (follow s.pointers r pre = some a ∧ path = pre ++ [i] ∧ follow s'.pointers r path = some b) ∨
      follow s'.pointers r path = follow s.pointers r path := by
  rcases vmmNextTable_cases h hp hpre ha hflags hnext with
    ⟨-, rfl⟩ | ⟨hempty, hfresh, -, -, hptr⟩
  · exact Or.inr rfl
  · have hsame : ∀ r, live r → ∀ path : List ℕ, path.length ≤ 4 →
        follow (Function.update s.pointers b fun _ => none) r path = follow s.pointers r path :=
      fun r hr path hlen => Forest.follow_setTable hfresh _ hr hlen
    have hab : a ≠ b := by
      rintro rfl
      exact hfresh ⟨p, pre, hp, by omega, ha⟩
    have hfresh' : ¬ Node (Function.update s.pointers b fun _ => none) live 3 b := by
      rintro ⟨r, path, hr, hpath, hb⟩
      rw [hsame r hr path (by omega)] at hb
      exact hfresh ⟨r, path, hr, hpath, hb⟩
    have hlink := (h.forest.setTable hfresh fun _ => none).follow_link hp hpre
      (by rw [hsame p hp pre (by omega), ha]) (by rw [Function.update_of_ne hab, hempty]) hfresh'
      (fun j => by rw [Function.update_self]) hr hlen
    rwa [← hptr, hsame r hr path hlen, hsame r hr pre (by omega)] at hlink

theorem vmmNextTable_spec {pool : PtPool} {s s' : VmState} {live : BitVec 64 → Prop}
    {k p a b : BitVec 64} {pre : List ℕ} {i : ℕ} {flags : BitVec 32} (h : VmInvariant pool s live k)
    (hp : live p) (hpre : pre.length < 3) (ha : follow s.pointers p pre = some a)
    (hflags : flags.toNat < 4096)
    (hnext : vmmNextTable pool s (vmmGetNext s a i) a i flags = .ok (b, s')) :
    NextTable pool s s' live k p a b pre i := by
  rcases vmmNextTable_cases h hp hpre ha hflags hnext with
    ⟨hentry, rfl⟩ | ⟨hempty, hfresh, hkernel, ⟨n, hpool, hbits⟩, hptr⟩
  · refine ⟨h, rfl, ?_, fun _ _ _ _ => rfl, fun _ _ _ _ => rfl, Or.inl hentry⟩
    rw [follow_append, ha]
    simp only [Option.bind_some, follow, hentry]
  · -- first the new table is cleared, then it is linked
    have hclear := h.forest.setTable hfresh (fun _ => none)
    set m := Function.update s.pointers b (fun _ => none) with hm
    have hsame : ∀ r, live r → ∀ path : List ℕ, path.length ≤ 4 →
        follow m r path = follow s.pointers r path :=
      fun r hr path hlen => Forest.follow_setTable hfresh _ hr hlen
    have ha' : follow m p pre = some a := by
      rw [hsame p hp pre (by omega)]
      exact ha
    have hab : a ≠ b := by
      rintro rfl
      exact hfresh ⟨p, pre, hp, by omega, ha⟩
    have hempty' : m a i = none := by
      rw [hm, Function.update_of_ne hab]
      exact hempty
    have hfresh' : ¬ Node m live 3 b := by
      rintro ⟨r, path, hr, hlen, hpath⟩
      rw [hsame r hr path (by omega)] at hpath
      exact hfresh ⟨r, path, hr, hlen, hpath⟩
    have htable : ∀ j, m b j = none := fun j => by rw [hm, Function.update_self]
    refine ⟨⟨?_, ?_⟩, hkernel, ?_, ?_, ?_, ?_⟩
    · rw [hptr]
      exact hclear.link hp hpre ha' hempty' hfresh' htable
    · intro x hx
      rw [hptr] at hx
      rw [hbits]
      obtain ⟨r, path, hr, hlen, hpath⟩ := hx
      rcases hclear.follow_link hp hpre ha' hempty' hfresh' htable hr (Nat.le_succ_of_le hlen) with
        ⟨-, -, hnewpath⟩ | hold
      · rw [hnewpath] at hpath
        cases hpath
        exact ⟨n, hpool, (s.ptBitmap.testbit_setbit n n).2 (Or.inl ⟨rfl, rfl⟩)⟩
      · rw [hold, hsame r hr path (by omega)] at hpath
        exact h.marked_setbit x ⟨r, path, hr, hlen, hpath⟩
    · rw [hptr, hclear.follow_setEntry_through hp hpre.le ha' hp ha' []]
      rfl
    · intro r hr path hlen
      rw [hptr, hclear.follow_link_bottom hp hpre ha' hempty' hfresh' htable hr hlen]
      exact hsame r hr path hlen.le
    · intro r hr hra j
      rw [hptr]
      unfold setEntry
      rw [if_neg (fun hc => hra hc.1), hm, Forest.update_root hfresh _ hr]
    · refine Or.inr ⟨hempty, fun r hr j hj => hfresh ⟨r, [j], hr, by simp, ?_⟩⟩
      simp only [follow, hj, Option.bind_some]

/-! ## `vm_map` -/

/-- The page of an address: bits 12 to 47. -/
def pageNumber (va : BitVec 64) : ℕ := va.toNat / 2 ^ 12 % 2 ^ 36

theorem index_eq (va : BitVec 64) (n : ℕ) :
    ((va >>> n) &&& 0x1FF#64).toNat = va.toNat / 2 ^ n % 512 := by
  have hmask : (0x1FF#64).toNat = 2 ^ 9 - 1 := rfl
  rw [BitVec.toNat_and, BitVec.toNat_ushiftRight, Nat.shiftRight_eq_div_pow, hmask,
    Nat.and_two_pow_sub_one_eq_mod]

/-- The indices of the four levels are the digits of the page number. -/
theorem pagePath_eq_iff (va va' : BitVec 64) :
    tablePath va ++ [vmmIndexPtable va] = tablePath va' ++ [vmmIndexPtable va'] ↔
      pageNumber va = pageNumber va' := by
  simp only [tablePath, List.cons_append, List.nil_append, List.cons.injEq, and_true, vmmIndexPml4,
    vmmIndexPdp, vmmIndexPdir, vmmIndexPtable, index_eq, pageNumber]
  omega

/-- **What `vm_map` does to the translations.** Under its table, and under those that have its entry
    of the first level in common with it, the page gets mapped. Nothing else changes. -/
structure VmMapped (pool : PtPool) (s s' : VmState) (live : BitVec 64 → Prop) (k p pa va : BitVec 64)
    (flags : BitVec 32) : Prop where
  invariant : VmInvariant pool s' live k
  kernel : s'.kernelPml4 = s.kernelPml4
  walk_page : ∀ r, live r → ∀ va', pageNumber va' = pageNumber va →
    (r = p ∨ (s.pointers p (vmmIndexPml4 va) ≠ none ∧
      s.pointers r (vmmIndexPml4 va) = s.pointers p (vmmIndexPml4 va))) →
    walk s' r va' = some ((pa ||| entryFlags flags) &&& pageMask)
  walk_other : ∀ r, live r → ∀ va', ¬ (pageNumber va' = pageNumber va ∧
    (r = p ∨ (s.pointers p (vmmIndexPml4 va) ≠ none ∧
      s.pointers r (vmmIndexPml4 va) = s.pointers p (vmmIndexPml4 va)))) →
    walk s' r va' = walk s r va'

/-- The three steps down to the table that has the entry of the page. -/
theorem vmMap_levels {pool : PtPool} {s s' : VmState} {p pa va : BitVec 64} {flags : BitVec 32}
    (hmap : vmMap pool s p pa va flags = .ok s') :
    ∃ pdp s1 pdir s2 pt s3,
      vmmNextTable pool s (vmmGetNext s p (vmmIndexPml4 va)) p (vmmIndexPml4 va) flags
        = .ok (pdp, s1) ∧
      vmmNextTable pool s1 (vmmGetNext s1 pdp (vmmIndexPdp va)) pdp (vmmIndexPdp va) flags
        = .ok (pdir, s2) ∧
      vmmNextTable pool s2 (vmmGetNext s2 pdir (vmmIndexPdir va)) pdir (vmmIndexPdir va) flags
        = .ok (pt, s3) ∧
      s' = vmmInstallPtable s3 pt (vmmIndexPtable va) pa (entryFlags flags) := by
  unfold vmMap vmmGetpdp vmmGetpdir vmmGetptable at hmap
  cases h1 : vmmNextTable pool s (vmmGetNext s p (vmmIndexPml4 va)) p (vmmIndexPml4 va) flags with
  | error f =>
      rw [h1] at hmap
      cases hmap
  | ok r1 =>
      obtain ⟨pdp, s1⟩ := r1
      rw [h1] at hmap
      simp only [bind, Except.bind] at hmap
      cases h2 : vmmNextTable pool s1 (vmmGetNext s1 pdp (vmmIndexPdp va)) pdp (vmmIndexPdp va)
        flags with
      | error f =>
          rw [h2] at hmap
          cases hmap
      | ok r2 =>
          obtain ⟨pdir, s2⟩ := r2
          rw [h2] at hmap
          simp only at hmap
          cases h3 : vmmNextTable pool s2 (vmmGetNext s2 pdir (vmmIndexPdir va)) pdir
            (vmmIndexPdir va) flags with
          | error f =>
              rw [h3] at hmap
              cases hmap
          | ok r3 =>
              obtain ⟨pt, s3⟩ := r3
              rw [h3] at hmap
              cases hmap
              exact ⟨pdp, s1, pdir, s2, pt, s3, rfl, h2, h3, rfl⟩

section

variable {pool : PtPool} {s s' : VmState} {live : BitVec 64 → Prop} {k p a b : BitVec 64}
  {pre : List ℕ} {i : ℕ}

theorem NextTable.pointers_root (h : NextTable pool s s' live k p p b [] i) :
    s'.pointers p i = some b := by
  have := h.found
  simpa only [List.nil_append, follow, Option.bind_eq_some_iff, Option.some.injEq,
    exists_eq_right] using this

/-- The first step: another root has the entry in common with `p` if it had it before. -/
theorem NextTable.shared_iff (h : NextTable pool s s' live k p p b [] i) {r : BitVec 64}
    (hr : live r) (hrp : r ≠ p) :
    s'.pointers r i = s'.pointers p i ↔ s.pointers p i ≠ none ∧ s.pointers r i = s.pointers p i := by
  rw [h.pointers_root, h.entries r hr hrp]
  rcases h.fresh with hold | ⟨hnone, hfresh⟩
  · rw [hold]
    simp
  · rw [hnone]
    simpa using hfresh r hr i

/-- The other steps do not change the entries of roots. -/
theorem NextTable.entries_root (h : NextTable pool s s' live k p a b pre i)
    (hs : VmInvariant pool s live k) (hp : live p) (hpre : pre.length ≤ 3) (hne : pre ≠ [])
    (ha : follow s.pointers p pre = some a) {r : BitVec 64} (hr : live r) (j : ℕ) :
    s'.pointers r j = s.pointers r j := by
  refine h.entries r hr ?_ j
  rintro rfl
  exact hne (hs.forest.path_eq_nil hp hr hpre ha)

/-- Who reaches the table at the end of the way. -/
theorem VmInvariant.follow_eq_iff (h : VmInvariant pool s live k) (hp : live p) {t : BitVec 64}
    {rest : List ℕ} (hlen : (i :: rest).length ≤ 3) (ht : follow s.pointers p (i :: rest) = some t)
    {r : BitVec 64} (hr : live r) (hrp : r ≠ p) :
    follow s.pointers r (i :: rest) = some t ↔ s.pointers r i = s.pointers p i := by
  constructor
  · intro hrt
    rcases (h.forest.unique r p _ _ t hr hp hlen hlen hrt ht).2 with heq | ⟨j, rest', hpath, hrj, hpj⟩
    · exact absurd heq hrp
    · rw [(List.cons.inj hpath).1, hrj, hpj]
  · intro heq
    rw [← ht]
    simp only [follow, heq]

end

theorem vmMap_spec {pool : PtPool} {s s' : VmState} {live : BitVec 64 → Prop} {k p pa va : BitVec 64}
    {flags : BitVec 32} (h : VmInvariant pool s live k) (hp : live p) (hflags : flags.toNat < 4096)
    (hmap : vmMap pool s p pa va flags = .ok s') : VmMapped pool s s' live k p pa va flags := by
  obtain ⟨pdp, s1, pdir, s2, pt, s3, h1, h2, h3, rfl⟩ := vmMap_levels hmap
  have n1 := vmmNextTable_spec h hp (by decide : ([] : List ℕ).length < 3) rfl hflags h1
  have n2 := vmmNextTable_spec n1.invariant hp (by simp) n1.found hflags h2
  have n3 := vmmNextTable_spec n2.invariant hp (by simp) n2.found hflags h3
  have hpt : follow s3.pointers p (tablePath va) = some pt := n3.found
  have hforest := n3.invariant.forest
  -- which roots reach the last table was decided by their entries before
  have hreach : ∀ r, live r → (follow s3.pointers r (tablePath va) = some pt ↔
      (r = p ∨ (s.pointers p (vmmIndexPml4 va) ≠ none ∧
        s.pointers r (vmmIndexPml4 va) = s.pointers p (vmmIndexPml4 va)))) := by
    intro r hr
    by_cases hrp : r = p
    · simp [hrp, hpt]
    · have hroot : ∀ q, live q → s3.pointers q (vmmIndexPml4 va) = s1.pointers q (vmmIndexPml4 va) := by
        intro q hq
        rw [n3.entries_root n2.invariant hp (by simp) (by simp) n2.found hq,
          n2.entries_root n1.invariant hp (by simp) (by simp) n1.found hq]
      have hiff := n3.invariant.follow_eq_iff hp (by simp) hpt hr hrp
      rw [hroot r hr, hroot p hp, n1.shared_iff hr hrp] at hiff
      simp only [hrp, false_or]
      exact hiff
  have hbottom : ∀ r, live r → ∀ va', follow s3.pointers r (tablePath va' ++ [vmmIndexPtable va'])
      = walk s r va' := by
    intro r hr va'
    rw [n3.bottom r hr _ rfl, n2.bottom r hr _ rfl, n1.bottom r hr _ rfl]
    rfl
  have hwalk : ∀ r, live r → ∀ va',
      walk (vmmInstallPtable s3 pt (vmmIndexPtable va) pa (entryFlags flags)) r va' =
        if follow s3.pointers r (tablePath va) = some pt ∧ pageNumber va' = pageNumber va
        then some ((pa ||| entryFlags flags) &&& pageMask) else walk s r va' := by
    intro r hr va'
    rw [← hbottom r hr va']
    unfold walk
    rw [pointers_vmmInstallPtable, hforest.follow_setLeaf_bottom hp rfl hpt hr rfl, entryTarget_or]
    simp only [pagePath_eq_iff]
  refine ⟨⟨?_, ?_⟩, ?_, ?_, ?_⟩
  · rw [pointers_vmmInstallPtable]
    exact hforest.setLeaf hp rfl (by decide) hpt
  · rintro x ⟨r, path, hr, hlen, hpath⟩
    rw [pointers_vmmInstallPtable, hforest.follow_setLeaf hp rfl hpt hr hlen] at hpath
    exact n3.invariant.marked x ⟨r, path, hr, hlen, hpath⟩
  · exact n3.kernel.trans (n2.kernel.trans n1.kernel)
  · intro r hr va' hpage hshare
    rw [hwalk r hr va', if_pos ⟨(hreach r hr).2 hshare, hpage⟩]
  · intro r hr va' hnot
    rw [hwalk r hr va', if_neg]
    rintro ⟨hfollow, hpage⟩
    exact hnot ⟨hpage, (hreach r hr).1 hfollow⟩

/-- The entries of the roots: only `p` may get a new one, where it had none. -/
theorem vmMap_entries {pool : PtPool} {s s' : VmState} {live : BitVec 64 → Prop}
    {k p pa va : BitVec 64} {flags : BitVec 32} (h : VmInvariant pool s live k) (hp : live p)
    (hflags : flags.toNat < 4096) (hmap : vmMap pool s p pa va flags = .ok s') {r : BitVec 64}
    (hr : live r) (j : ℕ) (hold : r ≠ p ∨ s.pointers p j ≠ none) :
    s'.pointers r j = s.pointers r j := by
  obtain ⟨pdp, s1, pdir, s2, pt, s3, h1, h2, h3, rfl⟩ := vmMap_levels hmap
  have hnil : ([] : List ℕ).length < 3 := by decide
  have n1 := vmmNextTable_spec h hp hnil rfl hflags h1
  have n2 := vmmNextTable_spec n1.invariant hp (by simp) n1.found hflags h2
  have n3 := vmmNextTable_spec n2.invariant hp (by simp) n2.found hflags h3
  have hpt : follow s3.pointers p (tablePath va) = some pt := n3.found
  have hleaf : setEntry s3.pointers pt (vmmIndexPtable va) (entryTarget (pa ||| entryFlags flags)) r j
      = s3.pointers r j :=
    n3.invariant.forest.setEntry_root hp (by simp [tablePath]) hpt hr (fun hc => by cases hc)
  rw [pointers_vmmInstallPtable, hleaf, n3.entries_root n2.invariant hp (by simp) (by simp) n2.found hr,
    n2.entries_root n1.invariant hp (by simp) (by simp) n1.found hr]
  by_cases hrp : r = p
  · subst hrp
    have hentry : s.pointers r j ≠ none := hold.resolve_left (fun hne => hne rfl)
    rcases vmmNextTable_cases h hp hnil rfl hflags h1 with
      ⟨-, rfl⟩ | ⟨hempty, hfresh, -, -, hptr⟩
    · rfl
    · -- the new entry is one that was empty
      rw [hptr]
      unfold setEntry
      rw [if_neg, Forest.update_root hfresh _ hr]
      rintro ⟨-, rfl⟩
      exact hentry hempty
  · exact n1.entries r hr hrp j

/-! ## Creating and destroying address spaces -/

section

variable {pool : PtPool} {s s' : VmState} {live : BitVec 64 → Prop} {k t p : BitVec 64}

/-- What `vm_create_pagetable` does: a new root, with the translations of the kernel. -/
structure VmCreated (pool : PtPool) (s s' : VmState) (live : BitVec 64 → Prop) (k t : BitVec 64) :
    Prop where
  invariant : VmInvariant pool s' (fun r => live r ∨ r = t) k
  kernel : s'.kernelPml4 = s.kernelPml4
  fresh : ¬ live t
  entries : s'.pointers t = s.pointers k
  entries_other : ∀ r, live r → s'.pointers r = s.pointers r
  walk_other : ∀ r, live r → ∀ va, walk s' r va = walk s r va

theorem vmCreatePagetable_spec (h : VmInvariant pool s live s.kernelPml4)
    (hcreate : vmCreatePagetable pool s = .ok (t, s')) :
    VmCreated pool s s' live s.kernelPml4 t := by
  unfold vmCreatePagetable at hcreate
  cases hnew : vmmNewPagetable pool s with
  | error f =>
      rw [hnew] at hcreate
      cases hcreate
  | ok r =>
      obtain ⟨t', s1⟩ := r
      rw [hnew] at hcreate
      cases hcreate
      have hfresh := h.not_node_new hnew
      obtain ⟨n, hpool, -, rfl⟩ := vmmNewPagetable_spec hnew
      have hforest := h.forest.copy hfresh
      have hptr : _ = Function.update s.pointers t (s.pointers s.kernelPml4) :=
        pointers_setTable (ptmapSetbit s n) t ((ptmapSetbit s n).tables (ptmapSetbit s n).kernelPml4)
      refine ⟨⟨?_, ?_⟩, rfl, fun hlive => hfresh (Forest.node_root hlive), ?_, ?_, ?_⟩
      · rw [hptr]
        exact hforest
      · rintro x ⟨r, path, hr, hlen, hpath⟩
        rw [hptr] at hpath
        have hroot : t = x ∨ Node s.pointers live 3 x := by
          rcases hr with hr | rfl
          · refine Or.inr ⟨r, path, hr, hlen, ?_⟩
            rwa [Forest.follow_setTable hfresh _ hr (Nat.le_succ_of_le hlen)] at hpath
          · cases path with
            | nil => exact Or.inl (Option.some.inj hpath)
            | cons i rest =>
                refine Or.inr ⟨_, i :: rest, h.forest.base, hlen, ?_⟩
                have hcopy := h.forest.follow_copy hfresh (Nat.le_succ_of_le hlen)
                rw [← hcopy]
                exact hpath
        rcases hroot with rfl | hnode
        · exact ⟨n, hpool, (s.ptBitmap.testbit_setbit n n).2 (Or.inl ⟨rfl, rfl⟩)⟩
        · exact h.marked_setbit x hnode
      · rw [hptr, Function.update_self]
      · intro r hr
        rw [hptr]
        exact Forest.update_root hfresh _ hr
      · intro r hr va
        unfold walk
        rw [hptr]
        exact Forest.follow_setTable hfresh _ hr (by simp [tablePath])

/-- `vm_destroy_pagetable` on an address space that is in use returns and gives up its root only. -/
theorem vmDestroyPagetable_spec (h : VmInvariant pool s live k) (hp : live p) (hk : p ≠ k) :
    ∃ s', vmDestroyPagetable pool s p = .ok s' ∧ s'.pointers = s.pointers ∧
      s'.kernelPml4 = s.kernelPml4 ∧ VmInvariant pool s' (fun r => live r ∧ r ≠ p) k := by
  obtain ⟨i, hpool, -⟩ := h.marked p (Forest.node_root hp)
  have hindex : (p.toNat - pool.base) / 4096 = i ∧ ¬ p.toNat < pool.base := by
    rw [hpool.2.2, pool.toNat_table hpool.1]
    omega
  refine ⟨ptmapUnsetbit s i, ?_, rfl, rfl, ?_, ?_⟩
  · have hlt := hpool.1
    unfold vmDestroyPagetable
    rw [if_neg hindex.2, hindex.1, if_neg (by omega)]
  · exact h.forest.mono (fun r hr => hr.1) ⟨h.forest.base, hk.symm⟩
  · rintro x ⟨r, path, hr, hlen, hpath⟩
    obtain ⟨j, hpool', hmarked⟩ := h.marked x ⟨r, path, hr.1, hlen, hpath⟩
    -- the root that is given up is in no other tree
    have hne : p ≠ x := by
      rintro rfl
      have hnil := h.forest.path_eq_nil hr.1 hp hlen hpath
      subst hnil
      exact hr.2 (Option.some.inj hpath)
    exact ⟨j, hpool', (s.ptBitmap.testbit_unsetbit i j).2 ⟨hpool.not_sameMask hpool' hne, hmarked⟩⟩

/-- Mapping pages one to one. -/
theorem identityMap_invariant (hp : live p) (n : ℕ) :
    ∀ (i : ℕ) (s : VmState), VmInvariant pool s live k → identityMap pool p n i s = .ok s' →
      VmInvariant pool s' live k := by
  induction n with
  | zero =>
      intro i s h heq
      cases heq
      exact h
  | succ n ih =>
      intro i s h heq
      unfold identityMap at heq
      cases hmap : vmMap pool s p (BitVec.ofNat 64 (4096 * i)) (BitVec.ofNat 64 (4096 * i)) 0 with
      | error f =>
          rw [hmap] at heq
          cases heq
      | ok s1 =>
          rw [hmap] at heq
          exact ih (i + 1) s1 (vmMap_spec h hp (by decide) hmap).invariant heq

/-- After `vm_init` there is one address space, that of the kernel. -/
theorem vmInit_invariant {staticEnd : BitVec 64} (hinit : vmInit pool staticEnd s = .ok s') :
    VmInvariant pool s' (· = s'.kernelPml4) s'.kernelPml4 := by
  unfold vmInit at hinit
  simp only [bind, Except.bind] at hinit
  split at hinit
  · cases hinit
  · next r hnew =>
      obtain ⟨t, s1⟩ := r
      simp only at hinit
      split at hinit
      · cases hinit
      · next s2 hmap =>
          cases hinit
          obtain ⟨i, hpool, -, rfl⟩ := vmmNewPagetable_spec hnew
          have ht0 : t ≠ 0 := by
            rw [hpool.2.2]
            exact pool.table_ne_zero hpool.1
          set s0 := (List.range vmPtpSize).foldl ptmapUnsetbit s
          have hfollow : ∀ path x, follow (vmmCleartable (ptmapSetbit s0 i) t).pointers t path = some x →
              path = [] ∧ x = t := by
            intro path x hx
            rw [pointers_vmmCleartable _ ht0] at hx
            cases path with
            | nil => exact ⟨rfl, (Option.some.inj hx).symm⟩
            | cons j rest =>
                simp only [follow, Function.update_self, Option.bind_none] at hx
                cases hx
          have hstart : VmInvariant pool (vmmCleartable (ptmapSetbit s0 i) t) (· = t) t := by
            refine ⟨⟨rfl, ?_⟩, ?_⟩
            · rintro r r' path path' x rfl rfl - - hx hx'
              exact ⟨(hfollow _ _ hx).1.trans (hfollow _ _ hx').1.symm, Or.inl rfl⟩
            · rintro x ⟨r, path, rfl, -, hx⟩
              obtain ⟨-, rfl⟩ := hfollow _ _ hx
              refine ⟨i, hpool, ?_⟩
              unfold vmmCleartable
              rw [if_pos ht0]
              exact (s0.ptBitmap.testbit_setbit i i).2 (Or.inl ⟨rfl, rfl⟩)
          have hend : VmInvariant pool s2 (· = t) t := by
            refine identityMap_invariant ?_ _ 1 _ hstart hmap
            rfl
          exact ⟨hend.forest, hend.marked⟩

end

/-! ## Runs -/

/-- The module and the tables of the processes, which `vm_create_pagetable` has returned and
    `vm_destroy_pagetable` has not got back. -/
structure VmSystem where
  vm : VmState
  spaces : List (BitVec 64)

/-- An address space in use, that of the kernel or of a process. -/
def VmSystem.Live (S : VmSystem) (r : BitVec 64) : Prop := r = S.vm.kernelPml4 ∨ r ∈ S.spaces

instance VmSystem.decidableLive (S : VmSystem) (r : BitVec 64) : Decidable (S.Live r) :=
  inferInstanceAs (Decidable (_ ∨ _))

/-- A call of the module. -/
inductive VmOp
  | create
  | map (p pa va : BitVec 64) (flags : BitVec 32)
  | destroy (p : BitVec 64)

/-- What the caller has to keep to: only tables in use are mapped into, only those of processes are
    destroyed, and flags are attribute bits. -/
def VmOp.Enabled (S : VmSystem) : VmOp → Prop
  | create => True
  | map p _ _ flags => S.Live p ∧ flags.toNat < 0x1000
  | destroy p => p ∈ S.spaces

/-- The call, unless the kernel panics. -/
def VmOp.exec (pool : PtPool) (S : VmSystem) : VmOp → Except KernelFault VmSystem
  | create => do
      let (t, vm) ← vmCreatePagetable pool S.vm
      return ⟨vm, t :: S.spaces⟩
  | map p pa va flags => do return ⟨← vmMap pool S.vm p pa va flags, S.spaces⟩
  | destroy p => do return ⟨← vmDestroyPagetable pool S.vm p, S.spaces.filter (· ≠ p)⟩

def VmStep (pool : PtPool) (S : VmSystem) (op : VmOp) (S' : VmSystem) : Prop :=
  op.Enabled S ∧ op.exec pool S = .ok S'

/-- The states after `vm_init` and any calls. -/
def VmReachable (pool : PtPool) (staticEnd : BitVec 64) (S : VmSystem) : Prop :=
  Reach (fun S => S.spaces = [] ∧ ∃ vm, vmInit pool staticEnd vm = .ok S.vm) (VmStep pool) S

theorem VmReachable.boot {pool : PtPool} {staticEnd : BitVec 64} {vm0 vm : VmState}
    (h : vmInit pool staticEnd vm0 = .ok vm) : VmReachable pool staticEnd ⟨vm, []⟩ :=
  .init ⟨rfl, vm0, h⟩

theorem VmReachable.next {pool : PtPool} {staticEnd : BitVec 64} {S S' : VmSystem}
    (h : VmReachable pool staticEnd S) (op : VmOp) (henabled : op.Enabled S)
    (hexec : op.exec pool S = .ok S') : VmReachable pool staticEnd S' :=
  .step op h ⟨henabled, hexec⟩

/-- What holds in every state of a run. -/
structure VmSystem.Invariant (pool : PtPool) (S : VmSystem) : Prop where
  tables : VmInvariant pool S.vm S.Live S.vm.kernelPml4
  /-- The table of the kernel is not that of a process, so no one destroys it. -/
  kernel : S.vm.kernelPml4 ∉ S.spaces

/-- The tables of a system with other spaces, if the same address spaces are live. -/
theorem VmInvariant.system {pool : PtPool} {vm : VmState} {live : BitVec 64 → Prop} {k : BitVec 64}
    {spaces : List (BitVec 64)} (h : VmInvariant pool vm live k) (hk : vm.kernelPml4 = k)
    (hlive : ∀ r, live r ↔ r = k ∨ r ∈ spaces) :
    VmInvariant pool vm (VmSystem.Live ⟨vm, spaces⟩) vm.kernelPml4 := by
  have heq : live = VmSystem.Live ⟨vm, spaces⟩ := by
    funext r
    rw [eq_iff_iff, hlive, VmSystem.Live, hk]
  rw [← heq, hk]
  exact h

section

variable {pool : PtPool} {S S' : VmSystem}

theorem VmSystem.Invariant.create (hS : S.Invariant pool)
    (hexec : VmOp.create.exec pool S = .ok S') : S'.Invariant pool := by
  simp only [VmOp.exec] at hexec
  cases hcreate : vmCreatePagetable pool S.vm with
  | error f =>
      rw [hcreate] at hexec
      cases hexec
  | ok r =>
      obtain ⟨t, vm⟩ := r
      rw [hcreate] at hexec
      cases hexec
      have hspec := vmCreatePagetable_spec hS.tables hcreate
      refine ⟨hspec.invariant.system hspec.kernel fun r => ?_, ?_⟩
      · rw [VmSystem.Live, List.mem_cons, or_assoc, or_comm (a := r ∈ S.spaces)]
      · rw [hspec.kernel, List.mem_cons, not_or]
        exact ⟨fun heq => hspec.fresh (Or.inl heq.symm), hS.kernel⟩

theorem VmSystem.Invariant.map (hS : S.Invariant pool) {p pa va : BitVec 64} {flags : BitVec 32}
    (henabled : (VmOp.map p pa va flags).Enabled S)
    (hexec : (VmOp.map p pa va flags).exec pool S = .ok S') : S'.Invariant pool := by
  simp only [VmOp.exec] at hexec
  cases hmap : vmMap pool S.vm p pa va flags with
  | error f =>
      rw [hmap] at hexec
      cases hexec
  | ok vm =>
      rw [hmap] at hexec
      cases hexec
      have hspec := vmMap_spec hS.tables henabled.1 henabled.2 hmap
      refine ⟨hspec.invariant.system hspec.kernel fun r => Iff.rfl, ?_⟩
      rw [hspec.kernel]
      exact hS.kernel

theorem VmSystem.Invariant.destroy (hS : S.Invariant pool) {p : BitVec 64}
    (henabled : (VmOp.destroy p).Enabled S)
    (hexec : (VmOp.destroy p).exec pool S = .ok S') : S'.Invariant pool := by
  have hk : p ≠ S.vm.kernelPml4 := by
    rintro rfl
    exact hS.kernel henabled
  obtain ⟨vm, hdestroy, -, hkernel, hinv⟩ := vmDestroyPagetable_spec hS.tables (Or.inr henabled) hk
  simp only [VmOp.exec] at hexec
  rw [hdestroy] at hexec
  cases hexec
  refine ⟨hinv.system hkernel fun r => ?_, ?_⟩
  · rw [VmSystem.Live, List.mem_filter, decide_eq_true_eq]
    constructor
    · rintro ⟨rfl | hr, hne⟩
      · exact Or.inl rfl
      · exact Or.inr ⟨hr, hne⟩
    · rintro (rfl | ⟨hr, hne⟩)
      · exact ⟨Or.inl rfl, hk.symm⟩
      · exact ⟨Or.inr hr, hne⟩
  · rw [hkernel, List.mem_filter]
    exact fun hmem => hS.kernel hmem.1

end

theorem VmReachable.invariant {pool : PtPool} {staticEnd : BitVec 64} {S : VmSystem}
    (h : VmReachable pool staticEnd S) : S.Invariant pool := by
  refine Reach.invariant ?_ ?_ h
  · rintro ⟨vm, spaces⟩ ⟨hnone, vm0, hinit⟩
    obtain rfl : spaces = [] := hnone
    exact ⟨(vmInit_invariant hinit).system rfl fun r => by simp, List.not_mem_nil⟩
  · rintro S op S' hS ⟨henabled, hexec⟩
    cases op with
    | create => exact hS.create hexec
    | map p pa va flags => exact hS.map henabled hexec
    | destroy p => exact hS.destroy henabled hexec

/-- A table that a lookup from `q` can come to. -/
def TableReachable (s : VmState) (q t : BitVec 64) : Prop :=
  ∃ path : List ℕ, path.length ≤ 3 ∧ follow s.pointers q path = some t

/-- The moments at which a call of the module asks for a new table: at the start of
    `vm_create_pagetable`, and at each of the three levels of `vm_map`. -/
inductive AllocMoment (pool : PtPool) (S : VmSystem) : VmState → Prop
  | first : AllocMoment pool S S.vm
  | second {p va pdp : BitVec 64} {flags : BitVec 32} {s1 : VmState} :
      (VmOp.map p 0 va flags).Enabled S →
      vmmNextTable pool S.vm (vmmGetpdp S.vm p va) p (vmmIndexPml4 va) flags = .ok (pdp, s1) →
      AllocMoment pool S s1
  | third {p va pdp pdir : BitVec 64} {flags : BitVec 32} {s1 s2 : VmState} :
      (VmOp.map p 0 va flags).Enabled S →
      vmmNextTable pool S.vm (vmmGetpdp S.vm p va) p (vmmIndexPml4 va) flags = .ok (pdp, s1) →
      vmmNextTable pool s1 (vmmGetpdir s1 pdp va) pdp (vmmIndexPdp va) flags = .ok (pdir, s2) →
      AllocMoment pool S s2

theorem AllocMoment.invariant {pool : PtPool} {S : VmSystem} {s : VmState}
    (hS : VmInvariant pool S.vm S.Live S.vm.kernelPml4) (h : AllocMoment pool S s) :
    VmInvariant pool s S.Live S.vm.kernelPml4 := by
  have hnil : ([] : List ℕ).length < 3 := by decide
  cases h with
  | first => exact hS
  | second henabled h1 => exact (vmmNextTable_spec hS henabled.1 hnil rfl henabled.2 h1).invariant
  | third henabled h1 h2 =>
      have n1 := vmmNextTable_spec hS henabled.1 hnil rfl henabled.2 h1
      exact (vmmNextTable_spec n1.invariant henabled.1 (by simp) n1.found henabled.2 h2).invariant

/-- **The law of address spaces.** In every state of a run, a call of `vm_map` maps its page under its
    table and changes no other translation there, nor any translation under another table if the entry
    of the page in the table of the kernel is not present; and a table that is new at any moment is not
    reachable from any address space. -/
theorem vmReachable_law {pool : PtPool} {staticEnd : BitVec 64} {S : VmSystem}
    (h : VmReachable pool staticEnd S) :
    (∀ p pa va flags vm, S.Live p → flags.toNat < 0x1000 → vmMap pool S.vm p pa va flags = .ok vm →
      (PageAligned pa → walk vm p va = some pa) ∧
      (∀ va', pageNumber va' ≠ pageNumber va → walk vm p va' = walk S.vm p va') ∧
      (S.vm.tables S.vm.kernelPml4 (vmmIndexPml4 va) &&& pagePresent = 0 →
        ∀ q, S.Live q → q ≠ p → ∀ va', walk vm q va' = walk S.vm q va')) ∧
    (∀ s t s', AllocMoment pool S s → vmmNewPagetable pool s = .ok (t, s') →
      ∀ q, S.Live q → ¬ TableReachable s q t) := by
  have hinv := h.invariant.tables
  refine ⟨?_, ?_⟩
  · intro p pa va flags vm hp hflags hmap
    have hspec := vmMap_spec hinv hp hflags hmap
    refine ⟨?_, ?_, ?_⟩
    · intro hpa
      rw [hspec.walk_page p hp va rfl (Or.inl rfl), ← entryTarget_or, entryTarget_aligned hpa hflags]
    · intro va' hpage
      exact hspec.walk_other p hp va' fun hc => hpage hc.1
    · intro habsent q hq hqp va'
      refine hspec.walk_other q hq va' fun hc => ?_
      rcases hc.2 with rfl | ⟨hne, heq⟩
      · exact hqp rfl
      · -- a common entry would be one of the kernel, which has none there
        have hkernel : S.vm.pointers S.vm.kernelPml4 (vmmIndexPml4 va) = none := by
          unfold VmState.pointers entryTarget
          rw [if_neg (not_not.2 habsent)]
        obtain ⟨b, hb⟩ := Option.ne_none_iff_exists'.1 hne
        have hpb : follow S.vm.pointers p [vmmIndexPml4 va] = some b := by simp [follow, hb]
        have hqb : follow S.vm.pointers q [vmmIndexPml4 va] = some b := by simp [follow, heq, hb]
        rcases (hinv.forest.unique q p _ _ b hq hp (by simp) (by simp) hqb hpb).2 with
          hqp' | ⟨j, rest, hpath, -, hpj⟩
        · exact hqp hqp'
        · rw [← (List.cons.inj hpath).1, hkernel, hb] at hpj
          cases hpj
  · rintro s t s' hmoment hnew q hq ⟨path, hlen, hpath⟩
    exact (hmoment.invariant hinv).not_node_new hnew ⟨q, path, hq, hlen, hpath⟩

/-- A pool at 2 MiB. -/
def samplePool : PtPool := ⟨0x200000, by decide, by decide, by decide⟩

/-- Memory at the start. -/
def blankVm : VmState := ⟨fun _ => 0, fun _ _ => 0, 0⟩

/-- The kernel after `vm_init`, with two pages mapped. -/
def bootVm : VmState := (vmInit samplePool 0x3000#64 blankVm).toOption.get (by decide +kernel)

theorem vmInit_bootVm : vmInit samplePool 0x3000#64 blankVm = .ok bootVm :=
  eq_ok_of_toOption (Option.some_get (by decide +kernel)).symm

/-- And with the address space of one process. -/
def processSystem : VmSystem := (VmOp.create.exec samplePool ⟨bootVm, []⟩).toOption.get (by decide +kernel)

theorem exec_processSystem : VmOp.create.exec samplePool ⟨bootVm, []⟩ = .ok processSystem :=
  eq_ok_of_toOption (Option.some_get (by decide +kernel)).symm

theorem processSystem_reachable : VmReachable samplePool 0x3000#64 processSystem :=
  (VmReachable.boot vmInit_bootVm).next .create trivial exec_processSystem

/-- A page for the process. -/
def stackVm : VmState :=
  (vmMap samplePool processSystem.vm (samplePool.table 4) 0x400000#64 0xFFFFFFFFFFFFF000#64 4).toOption.get
    (by decide +kernel)

theorem vmMap_stackVm : vmMap samplePool processSystem.vm (samplePool.table 4) 0x400000#64
    0xFFFFFFFFFFFFF000#64 4 = .ok stackVm :=
  eq_ok_of_toOption (Option.some_get (by decide +kernel)).symm

theorem vmReachable_law_stackPage :
    processSystem.Live (samplePool.table 4) ∧
    walk stackVm (samplePool.table 4) 0xFFFFFFFFFFFFF000#64 = some 0x400000#64 := by
  have hlive : processSystem.Live (samplePool.table 4) := by decide +kernel
  exact ⟨hlive, ((vmReachable_law processSystem_reachable).1 _ _ _ 4#32 _ hlive (by decide)
    vmMap_stackVm).1 rfl⟩

end Kudos
