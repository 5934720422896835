import Kudos.Vm.AddressSpace

set_option autoImplicit false

/-! # The entries on the way to a page

A translation goes through four entries, and each of them has attribute bits of its own. This file says
what `vm_map` does to the entries on all ways from a table: the entry of the page is replaced, entries
on the way to it that were missing are added, and all others are kept (`vmMap_entryAt`). Every entry that
it writes has `PAGE_WRITE`, whatever the flags. -/

namespace Kudos

open Radix

/-- An entry of a table, if it is present. -/
def presentEntry (s : VmState) (table : BitVec 64) (i : ℕ) : Option (BitVec 64) :=
  if s.tables table i &&& pagePresent ≠ 0 then some (s.tables table i) else none

/-- Entry `i` of the table at the end of a way. -/
def entryAt (s : VmState) (root : BitVec 64) (way : List ℕ) (i : ℕ) : Option (BitVec 64) :=
  (follow s.pointers root way).bind fun table => presentEntry s table i

/-- The entry for the page of an address. -/
def leafEntry (s : VmState) (root va : BitVec 64) : Option (BitVec 64) :=
  entryAt s root (tablePath va) (vmmIndexPtable va)

/-- The entries on the way to the last table: for each, the way to its table and its index. -/
def upperLevels (va : BitVec 64) : List (List ℕ × ℕ) :=
  [([], vmmIndexPml4 va), ([vmmIndexPml4 va], vmmIndexPdp va),
    ([vmmIndexPml4 va, vmmIndexPdp va], vmmIndexPdir va)]

/-- An entry that allows writing. -/
def Writable (e : BitVec 64) : Prop := e &&& pageWrite ≠ 0

instance (e : BitVec 64) : Decidable (Writable e) := inferInstanceAs (Decidable (_ ≠ _))

section

variable {s s' s'' : VmState} {root a : BitVec 64} {way : List ℕ} {i : ℕ} {flags : BitVec 32}

theorem presentEntry_none : presentEntry s a i = none ↔ s.pointers a i = none := by
  unfold presentEntry VmState.pointers entryTarget
  split <;> simp

theorem presentEntry_congr (h : s'.tables a i = s.tables a i) :
    presentEntry s' a i = presentEntry s a i := by
  unfold presentEntry
  rw [h]

/-- Every entry that is written is present. -/
theorem presentEntry_install {x : BitVec 64} (h : s.tables a i = x ||| entryFlags flags) :
    presentEntry s a i = some (x ||| entryFlags flags) := by
  unfold presentEntry
  rw [h, if_pos]
  intro hzero
  have hbit := congrArg (BitVec.getLsbD · 0) hzero
  simp [entryFlags, pagePresent] at hbit

theorem tables_vmmInstallPtable_self (phys flags : BitVec 64) :
    (vmmInstallPtable s a i phys flags).tables a i = phys ||| flags := by
  unfold vmmInstallPtable
  simp only [Function.update_self]

theorem tables_vmmInstallPtable_of_ne {b : BitVec 64} {j : ℕ} (phys flags : BitVec 64)
    (hne : ¬ (b = a ∧ j = i)) : (vmmInstallPtable s a i phys flags).tables b j = s.tables b j := by
  unfold vmmInstallPtable
  by_cases hb : b = a
  · subst hb
    simp only [Function.update_self, Function.update_of_ne fun hj => hne ⟨rfl, hj⟩]
  · simp only [Function.update_of_ne hb]

theorem writable_entryFlags (x : BitVec 64) (flags : BitVec 32) : Writable (x ||| entryFlags flags) := by
  intro hzero
  have hbit := congrArg (BitVec.getLsbD · 1) hzero
  simp [entryFlags, pageWrite, pagePresent] at hbit

/-- The entries before the end of a way are present. -/
theorem entryAt_prefix (way : List ℕ) (i : ℕ) (rest : List ℕ) {j : ℕ} {e : BitVec 64}
    (h : entryAt s root (way ++ i :: rest) j = some e) : ∃ e', entryAt s root way i = some e' := by
  unfold entryAt at h ⊢
  rw [follow_append] at h
  cases htable : follow s.pointers root way with
  | none =>
      rw [htable] at h
      cases h
  | some b =>
      rw [htable] at h
      simp only [Option.bind_some] at h ⊢
      refine Option.ne_none_iff_exists'.1 fun hnone => ?_
      rw [presentEntry_none] at hnone
      simp only [follow, hnone, Option.bind_none] at h
      cases h

theorem leafEntry_upper {va e : BitVec 64} (h : leafEntry s root va = some e) {w : List ℕ × ℕ}
    (hw : w ∈ upperLevels va) : ∃ e', entryAt s root w.1 w.2 = some e' := by
  simp only [upperLevels, List.mem_cons, List.not_mem_nil, or_false] at hw
  rcases hw with rfl | rfl | rfl
  · exact entryAt_prefix [] _ [vmmIndexPdp va, vmmIndexPdir va] h
  · exact entryAt_prefix [vmmIndexPml4 va] _ [vmmIndexPdir va] h
  · exact entryAt_prefix [vmmIndexPml4 va, vmmIndexPdp va] _ [] h

end

/-! ## What `vm_map` writes -/

/-- Entries are kept, and new ones have the flags that `vm_map` was given. -/
def EntriesGrow (flags : BitVec 32) (root : BitVec 64) (s s' : VmState) : Prop :=
  ∀ way i, way.length ≤ 3 → entryAt s' root way i = entryAt s root way i ∨
    (entryAt s root way i = none ∧ ∃ x, entryAt s' root way i = some (x ||| entryFlags flags))

section

variable {pool : PtPool} {s s' s'' : VmState} {live : BitVec 64 → Prop} {k p r t a b q : BitVec 64}
  {pre way : List ℕ} {i j : ℕ} {flags : BitVec 32}

theorem EntriesGrow.trans (h : EntriesGrow flags r s s') (h' : EntriesGrow flags r s' s'') :
    EntriesGrow flags r s s'' := by
  intro way i hway
  rcases h' way i hway with hsame' | ⟨hnone', x, hnew'⟩
  · rw [hsame']
    exact h way i hway
  · rcases h way i hway with hsame | ⟨hnone, -⟩
    · exact Or.inr ⟨hsame.symm.trans hnone', x, hnew'⟩
    · exact Or.inr ⟨hnone, x, hnew'⟩

/-- A step adds the entry for the next table, which is empty if it is new. -/
theorem vmmNextTable_grow (h : VmInvariant pool s live k) (hp : live p) (hpre : pre.length < 3)
    (ha : follow s.pointers p pre = some a) (hflags : flags.toNat < 4096)
    (hnext : vmmNextTable pool s (vmmGetNext s a i) a i flags = .ok (b, s')) (hr : live r) :
    EntriesGrow flags r s s' := by
  intro way j hway
  rcases vmmNextTable_eq hnext with ⟨-, -, rfl⟩ | ⟨hzero, n, hnew, -, hs'⟩
  · exact Or.inl rfl
  · have hfresh := h.not_node_new hnew
    have hempty : s.pointers a i = none :=
      ((h.vmmGetNext_eq hp hpre ha).resolve_right fun hc => hc.2 hzero).1
    have hab : b ≠ a := by
      rintro rfl
      exact hfresh ⟨p, pre, hp, by omega, ha⟩
    unfold entryAt
    rcases vmmNextTable_follow h hp hpre ha hflags hnext hr (Nat.le_succ_of_le hway) with
      ⟨hra, rfl, hb⟩ | hsame
    · -- the new table has no entries, and before there was no table
      have hcleared : presentEntry s' b j = none := by
        unfold presentEntry
        rw [hs', tables_vmmInstallPtable_of_ne _ _ fun hc => hab hc.1]
        simp
      have hbefore : follow s.pointers r (pre ++ [i]) = none := by
        rw [follow_append, hra]
        simp only [Option.bind_some, follow, hempty, Option.bind_none]
      rw [hb, hbefore]
      exact Or.inl hcleared
    · rw [hsame]
      cases hx : follow s.pointers r way with
      | none => exact Or.inl rfl
      | some x =>
          simp only [Option.bind_some]
          have hxb : x ≠ b := by
            rintro rfl
            exact hfresh ⟨r, way, hr, hway, hx⟩
          by_cases hentry : x = a ∧ j = i
          · obtain ⟨rfl, rfl⟩ := hentry
            refine Or.inr ⟨presentEntry_none.2 hempty, b, presentEntry_install ?_⟩
            rw [hs', tables_vmmInstallPtable_self]
          · refine Or.inl (presentEntry_congr ?_)
            rw [hs', tables_vmmInstallPtable_of_ne _ _ hentry]
            simp only [Function.update_of_ne hxb]

/-- **What `vm_map` does to the entries.** -/
theorem vmMap_entryAt {pa va : BitVec 64} (h : VmInvariant pool s live k) (hp : live p)
    (hflags : flags.toNat < 4096) (hmap : vmMap pool s p pa va flags = .ok s') :
    leafEntry s' p va = some (pa ||| entryFlags flags) ∧
    ∀ way i, way.length ≤ 3 → entryAt s' p way i = entryAt s p way i ∨
      ∃ x, entryAt s' p way i = some (x ||| entryFlags flags) ∧
        (entryAt s p way i = none ∨ way = tablePath va) := by
  obtain ⟨pdp, s1, pdir, s2, pt, s3, h1, h2, h3, rfl⟩ := vmMap_levels hmap
  have hnil : ([] : List ℕ).length < 3 := by decide
  have n1 := vmmNextTable_spec h hp hnil rfl hflags h1
  have n2 := vmmNextTable_spec n1.invariant hp (by simp) n1.found hflags h2
  have n3 := vmmNextTable_spec n2.invariant hp (by simp) n2.found hflags h3
  have hpt : follow s3.pointers p (tablePath va) = some pt := n3.found
  have hgrow : EntriesGrow flags p s s3 :=
    ((vmmNextTable_grow h hp hnil rfl hflags h1 hp).trans
      (vmmNextTable_grow n1.invariant hp (by simp) n1.found hflags h2 hp)).trans
      (vmmNextTable_grow n2.invariant hp (by simp) n2.found hflags h3 hp)
  have hfollow : ∀ way : List ℕ, way.length ≤ 3 →
      follow (vmmInstallPtable s3 pt (vmmIndexPtable va) pa (entryFlags flags)).pointers p way
        = follow s3.pointers p way := by
    intro way hway
    rw [pointers_vmmInstallPtable, n3.invariant.forest.follow_setLeaf hp rfl hpt hp hway]
  have hleaf : leafEntry (vmmInstallPtable s3 pt (vmmIndexPtable va) pa (entryFlags flags)) p va
      = some (pa ||| entryFlags flags) := by
    unfold leafEntry entryAt
    rw [hfollow _ le_rfl, hpt]
    exact presentEntry_install (tables_vmmInstallPtable_self ..)
  refine ⟨hleaf, fun way i hway => ?_⟩
  by_cases hlast : way = tablePath va ∧ i = vmmIndexPtable va
  · obtain ⟨rfl, rfl⟩ := hlast
    exact Or.inr ⟨pa, hleaf, Or.inr rfl⟩
  · -- the entry of the page is the only one that is written
    have hsame : entryAt (vmmInstallPtable s3 pt (vmmIndexPtable va) pa (entryFlags flags)) p way i
        = entryAt s3 p way i := by
      unfold entryAt
      rw [hfollow way hway]
      cases hx : follow s3.pointers p way with
      | none => rfl
      | some x =>
          refine presentEntry_congr (tables_vmmInstallPtable_of_ne _ _ ?_)
          rintro ⟨rfl, rfl⟩
          exact hlast ⟨(n3.invariant.forest.unique p p way _ x hp hp hway le_rfl hx hpt).1, rfl⟩
    rw [hsame]
    rcases hgrow way i hway with hold | ⟨hnone, x, hnew⟩
    · exact Or.inl hold
    · exact Or.inr ⟨x, hnew, Or.inl hnone⟩

/-- Memory that holds no table of a tree does not matter. -/
theorem entryAt_setTable (hq : ¬ Node s.pointers live 3 q) (hr : live r) (words : ℕ → BitVec 64)
    (hway : way.length ≤ 3) :
    entryAt { s with tables := Function.update s.tables q words } r way i = entryAt s r way i := by
  unfold entryAt
  rw [pointers_setTable, Forest.follow_setTable hq _ hr (Nat.le_succ_of_le hway)]
  cases hx : follow s.pointers r way with
  | none => rfl
  | some x =>
      refine presentEntry_congr (congrFun (Function.update_of_ne ?_ ..) i)
      rintro rfl
      exact hq ⟨r, way, hr, hway, hx⟩

/-- A new address space has the entries of the kernel. -/
theorem vmCreatePagetable_entryAt (h : VmInvariant pool s live s.kernelPml4)
    (hcreate : vmCreatePagetable pool s = .ok (t, s')) (hway : way.length ≤ 3) :
    entryAt s' t way i = entryAt s s.kernelPml4 way i := by
  unfold vmCreatePagetable at hcreate
  cases hnew : vmmNewPagetable pool s with
  | error f =>
      rw [hnew] at hcreate
      cases hcreate
  | ok r =>
      obtain ⟨t', s1⟩ := r
      rw [hnew] at hcreate
      cases hcreate
      have hfresh := h.not_node_new hnew
      obtain ⟨n, -, -, rfl⟩ := vmmNewPagetable_spec hnew
      have hkernel := h.forest.base
      cases way with
      | nil =>
          unfold entryAt presentEntry
          simp only [follow, Option.bind_some, Function.update_self]
          rfl
      | cons j rest =>
          have hptr : _ = Function.update s.pointers t (s.pointers s.kernelPml4) :=
            pointers_setTable (ptmapSetbit s n) t ((ptmapSetbit s n).tables (ptmapSetbit s n).kernelPml4)
          unfold entryAt
          rw [hptr, h.forest.follow_copy hfresh (Nat.le_succ_of_le hway)]
          cases hx : follow s.pointers s.kernelPml4 (j :: rest) with
          | none => rfl
          | some x =>
              refine presentEntry_congr (congrFun (Function.update_of_ne ?_ ..) i)
              rintro rfl
              exact hfresh ⟨_, j :: rest, hkernel, hway, hx⟩

end

end Kudos
