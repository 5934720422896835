import Kudos.Vm.TlbTable

set_option autoImplicit false

/-! # Looking up a physical address

`vm_getmap` of `vm/mips32/mm_virt.c`, on the tables that calls of `vm_map` build. It looks for the entry
of the pair, and takes the odd half whenever the even one does not apply: an even page that is not
mapped gets the address of its neighbour (`vmGetmap_given_iff`). -/

namespace Kudos.Mips32

/-- `vm_getmap`. -/
def vmGetmap (t : Pagetable) (vaddr : BitVec 32) : BitVec 32 :=
  ((List.range t.validCount).findSome? fun i =>
    let entry := t.entries i
    if entry.vpn2 = pagePair vaddr then
      if onOddPage vaddr = false ∧ entry.even.v then some (entry.even.pfn.setWidth 32 <<< 12)
      else if entry.odd.v then some (entry.odd.pfn.setWidth 32 <<< 12)
      else none
    else none).getD 0

/-! ## Calls of `vm_map` -/

structure MapCall where
  physaddr : BitVec 32
  vaddr : BitVec 32
  flags : ℤ

/-- Calls of `vm_map`, one after the other. A call for a page that is mapped already does not return. -/
def mapAll (t : Pagetable) (calls : List MapCall) : Except KernelFault Pagetable :=
  calls.foldlM (fun t c => vmMap t c.physaddr c.vaddr c.flags) t

/-- The physical page that a call has given for the page of `vaddr`. -/
def givenPage (calls : List MapCall) (vaddr : BitVec 32) : Option (BitVec 32) :=
  (calls.find? fun c : MapCall => decide (c.vaddr >>> 12 = vaddr >>> 12)).map fun c => c.physaddr &&& 0xFFFFF000#32

section

variable {asid : BitVec 32} {t t' : Pagetable} {m : Mapping} {vaddr : BitVec 32}

/-- A call that returns has mapped a new page. -/
theorem vmMap_ok_invariant (h : TableInvariant asid t m) {physaddr : BitVec 32} {flags : ℤ}
    (hok : vmMap t physaddr vaddr flags = .ok t') :
    m (pagePair vaddr) (onOddPage vaddr) = none ∧
      TableInvariant asid t' (PtOp.apply m (.map physaddr vaddr flags)) := by
  by_cases hflags : flags = 0 ∨ flags = 1
  · have hassert : kernelAssert (flags = 0 ∨ flags = 1) = .ok () := if_pos hflags
    unfold vmMap at hok
    rw [hassert] at hok
    simp only [bind, Except.bind] at hok
    cases hi : findPair t (pagePair vaddr) with
    | some i =>
        simp only [hi] at hok
        split at hok
        · cases hok
        · next hv =>
            cases hok
            refine ⟨?_, h.setHalf hi ⟨pageFrame physaddr, flags = 1, true, false⟩ rfl⟩
            rw [← h.lookup]
            unfold tlbLookup TlbHalf.mapping
            rw [hi, Option.bind_some, if_neg hv]
    | none =>
        simp only [hi] at hok
        split at hok
        · cases hok
        · cases hok
          refine ⟨?_, h.fillEntry physaddr hi flags⟩
          rw [← h.lookup]
          unfold tlbLookup
          rw [hi, Option.bind_none]
  · have hassert : kernelAssert (flags = 0 ∨ flags = 1) = .error .assertion := if_neg hflags
    unfold vmMap at hok
    rw [hassert] at hok
    cases hok

/-- The address of a page frame. -/
def frameAddress (pfn : BitVec 20) : BitVec 32 := pfn.setWidth 32 <<< 12

theorem findSome?_of_unique {α β : Type} {l : List α} {f : α → Option β} {a : α} (ha : a ∈ l)
    (h : ∀ b ∈ l, b ≠ a → f b = none) : l.findSome? f = f a := by
  cases hf : f a with
  | none =>
      rw [List.findSome?_eq_none_iff]
      intro b hb
      by_cases hba : b = a
      · rw [hba, hf]
      · exact h b hb hba
  | some y =>
      cases hfind : l.findSome? f with
      | none =>
          rw [List.findSome?_eq_none_iff] at hfind
          cases (hfind a ha).symm.trans hf
      | some z =>
          obtain ⟨b, hb, hfb⟩ := List.exists_of_findSome?_eq_some hfind
          by_cases hba : b = a
          · rw [← hfb, hba, hf]
          · cases (h b hb hba).symm.trans hfb

/-- What `vm_getmap` finds: the page, or the odd page of its pair. -/
theorem TableInvariant.vmGetmap_eq (h : TableInvariant asid t m) (vaddr : BitVec 32) :
    vmGetmap t vaddr
      = (((if onOddPage vaddr = false then m (pagePair vaddr) false else none).or
          (m (pagePair vaddr) true)).map fun p => frameAddress p.1).getD 0 := by
  have hlookup : ∀ odd, m (pagePair vaddr) odd
      = (findPair t (pagePair vaddr)).bind fun i => ((t.entries i).half odd).mapping :=
    fun odd => (h.lookup _ odd).symm
  rw [hlookup, hlookup]
  unfold vmGetmap
  cases hi : findPair t (pagePair vaddr) with
  | none =>
      have hnone := findPair_eq_none.1 hi
      have hall : ∀ i ∈ List.range t.validCount, (t.entries i).vpn2 ≠ pagePair vaddr :=
        fun i hi => hnone i (List.mem_range.1 hi)
      rw [List.findSome?_eq_none_iff.2 fun i hi => if_neg (hall i hi)]
      simp
  | some i =>
      obtain ⟨hlt, hvpn⟩ := (findPair_eq_some h.distinct).1 hi
      rw [findSome?_of_unique (List.mem_range.2 hlt)]
      · simp only [hvpn, if_true, Option.bind_some, TlbEntry.half, TlbHalf.mapping, frameAddress]
        by_cases hv : (t.entries i).odd.v = true
        · by_cases hodd : onOddPage vaddr = false
          · by_cases heven : (t.entries i).even.v = true
            · simp [hodd, heven]
            · simp [heven, hv]
          · simp [hodd, hv]
        · by_cases hodd : onOddPage vaddr = false
          · by_cases heven : (t.entries i).even.v = true
            · simp [hodd, heven]
            · simp [heven, hv]
          · simp [hodd, hv]
      · intro j hj hne
        refine if_neg fun hj' => hne ?_
        exact h.distinct j i (List.mem_range.1 hj) hlt (hj'.trans hvpn.symm)

/-! ## Pages -/

theorem frameAddress_pageFrame (physaddr : BitVec 32) :
    frameAddress (pageFrame physaddr) = physaddr &&& 0xFFFFF000#32 := by
  have hmask : ∀ i < 32, (0xFFFFF000#32).getLsbD i = decide (12 ≤ i) := by decide
  refine BitVec.eq_of_getLsbD_eq fun i hi => ?_
  unfold frameAddress pageFrame
  simp only [BitVec.getLsbD_shiftLeft, BitVec.getLsbD_setWidth, BitVec.getLsbD_ushiftRight,
    BitVec.getLsbD_and, hmask i hi, hi, decide_true, Bool.true_and]
  by_cases h12 : 12 ≤ i
  · have hsub : 12 + (i - 12) = i := by omega
    have h20 : i - 12 < 20 := by omega
    have h32 : i - 12 < 32 := by omega
    simp [h12, h20, h32, hsub]
  · have hlt : i < 12 := by omega
    simp [h12, hlt]

/-- The page determines the pair and the half. -/
theorem pair_eq_of_page_eq {vaddr vaddr' : BitVec 32} (h : vaddr >>> 12 = vaddr' >>> 12) :
    pagePair vaddr = pagePair vaddr' ∧ onOddPage vaddr = onOddPage vaddr' := by
  have hnat := congrArg BitVec.toNat h
  rw [BitVec.toNat_ushiftRight, BitVec.toNat_ushiftRight, Nat.shiftRight_eq_div_pow,
    Nat.shiftRight_eq_div_pow] at hnat
  rw [← BitVec.toNat_inj, toNat_pagePair, toNat_pagePair, onOddPage_eq, onOddPage_eq, decide_eq_decide]
  omega

/-- The odd page of the pair. -/
theorem pagePair_odd (vaddr : BitVec 32) : pagePair (vaddr ||| 0x1000#32) = pagePair vaddr := by
  have hbit : ∀ i < 19, (0x1000#32).getLsbD (13 + i) = false := by decide
  refine BitVec.eq_of_getLsbD_eq fun i hi => ?_
  unfold pagePair
  simp only [BitVec.getLsbD_setWidth, BitVec.getLsbD_ushiftRight, BitVec.getLsbD_or, hbit i hi,
    Bool.or_false]

theorem onOddPage_odd (vaddr : BitVec 32) : onOddPage (vaddr ||| 0x1000#32) = true := by
  have hbit : (vaddr ||| 0x1000#32) &&& 0x1000#32 = 0x1000#32 := by
    refine BitVec.eq_of_getLsbD_eq fun i _ => ?_
    simp only [BitVec.getLsbD_and, BitVec.getLsbD_or]
    cases vaddr.getLsbD i <;> cases (0x1000#32).getLsbD i <;> rfl
  unfold onOddPage
  rw [hbit]
  decide

/-! ## Tables built by `vm_map` -/

/-- What the page of an address is mapped to. -/
def pageOf (m : Mapping) (vaddr : BitVec 32) : Option (BitVec 32) :=
  (m (pagePair vaddr) (onOddPage vaddr)).map fun p => frameAddress p.1

theorem pageOf_apply (m : Mapping) (c : MapCall) (vaddr : BitVec 32) :
    pageOf (PtOp.apply m (.map c.physaddr c.vaddr c.flags)) vaddr
      = if c.vaddr >>> 12 = vaddr >>> 12 then some (c.physaddr &&& 0xFFFFF000#32)
        else pageOf m vaddr := by
  unfold pageOf PtOp.apply
  by_cases hpage : c.vaddr >>> 12 = vaddr >>> 12
  · obtain ⟨hpair, hodd⟩ := pair_eq_of_page_eq hpage
    rw [if_pos hpage, if_pos ⟨hpair.symm, hodd.symm⟩, Option.map_some, frameAddress_pageFrame]
  · rw [if_neg hpage, if_neg fun hc => hpage (page_eq_of_pair_eq hc.1.symm hc.2.symm)]

/-- Calls that all return have mapped what they were given. -/
theorem mapAll_invariant {calls : List MapCall} (h : TableInvariant asid t m)
    (hok : mapAll t calls = .ok t') :
    ∃ m', TableInvariant asid t' m' ∧
      ∀ vaddr, pageOf m' vaddr = (pageOf m vaddr).or (givenPage calls vaddr) := by
  induction calls generalizing t m with
  | nil =>
      cases hok
      exact ⟨m, h, fun vaddr => by simp [givenPage]⟩
  | cons c cs ih =>
      unfold mapAll at hok
      rw [List.foldlM_cons] at hok
      cases hmap : vmMap t c.physaddr c.vaddr c.flags with
      | error f =>
          rw [hmap] at hok
          cases hok
      | ok t1 =>
          rw [hmap] at hok
          obtain ⟨hnew, h1⟩ := vmMap_ok_invariant h hmap
          obtain ⟨m', hinv, hpages⟩ := ih h1 hok
          refine ⟨m', hinv, fun vaddr => ?_⟩
          rw [hpages, pageOf_apply]
          unfold givenPage
          rw [List.find?_cons]
          by_cases hpage : c.vaddr >>> 12 = vaddr >>> 12
          · obtain ⟨hpair, hodd⟩ := pair_eq_of_page_eq hpage
            have hnone : pageOf m vaddr = none := by
              unfold pageOf
              rw [← hpair, ← hodd, hnew, Option.map_none]
            rw [hnone]
            simp [hpage]
          · simp [hpage]

/-- **`vm_getmap` gives what `vm_map` was given**, unless the page is an even one that is not mapped
    and its neighbour is. -/
theorem vmGetmap_given_iff (mem : ℕ → TlbEntry) (asid : BitVec 32) {calls : List MapCall}
    {t : Pagetable} (h : mapAll (vmCreatePagetable mem asid) calls = .ok t) (vaddr : BitVec 32) :
    vmGetmap t vaddr = (givenPage calls vaddr).getD 0 ↔
      onOddPage vaddr = true ∨ givenPage calls vaddr ≠ none ∨
        (givenPage calls (vaddr ||| 0x1000#32)).getD 0 = 0 := by
  obtain ⟨m, hinv, hpages⟩ := mapAll_invariant (vmCreatePagetable_invariant mem asid) h
  have hgiven : ∀ vaddr, givenPage calls vaddr = pageOf m vaddr := by
    intro vaddr
    rw [hpages]
    rfl
  have hneighbour : pageOf m (vaddr ||| 0x1000#32)
      = (m (pagePair vaddr) true).map fun p => frameAddress p.1 := by
    unfold pageOf
    rw [pagePair_odd, onOddPage_odd]
  rw [hinv.vmGetmap_eq, hgiven, hgiven, hneighbour]
  unfold pageOf
  cases hodd : onOddPage vaddr with
  | true => simp
  | false =>
      cases heven : m (pagePair vaddr) false with
      | some p => simp
      | none => simp

/-- One page of a pair is mapped, and the address of the other is looked up. -/
theorem vmGetmap_given_iff_oddPage :
    ∃ t, mapAll (vmCreatePagetable (fun _ => ⟨0, 0, ⟨0, true, true, true⟩, ⟨0, true, true, true⟩⟩) 5)
        [⟨0x5000, 0x3000, 1⟩] = .ok t ∧
      vmGetmap t 0x3000 = 0x5000 ∧ vmGetmap t 0x2000 ≠ (givenPage [⟨0x5000, 0x3000, 1⟩] 0x2000).getD 0 := by
  refine ⟨_, rfl, ?_⟩
  have hiff := @vmGetmap_given_iff (fun _ => ⟨0, 0, ⟨0, true, true, true⟩, ⟨0, true, true, true⟩⟩) 5
    [⟨0x5000, 0x3000, 1⟩] _ rfl
  exact ⟨((hiff 0x3000).2 (Or.inl (by decide))).trans (by decide), fun h => absurd ((hiff 0x2000).1 h) (by decide)⟩

theorem vmGetmap_unmapped_even :
    ∃ t, mapAll (vmCreatePagetable (fun _ => ⟨0, 0, ⟨0, true, true, true⟩, ⟨0, true, true, true⟩⟩) 5)
        [⟨0x5000, 0x3000, 1⟩] = .ok t ∧
      givenPage [⟨0x5000, 0x3000, 1⟩] 0x2000 = none ∧ vmGetmap t 0x2000 = 0x5000 :=
  ⟨_, rfl, by decide, by decide⟩

end

end Kudos.Mips32
