import Kudos.Kernel.Thread
import Kudos.Library.Transition
import Mathlib.Algebra.Group.Nat.Defs
import Mathlib.Data.List.Nodup
import Mathlib.Data.List.Perm.Subperm
import Mathlib.Data.Nat.Bitwise

set_option autoImplicit false

/-! # Page tables of the mips32 kernel

The functions of `vm/mips32/mm_virt.c` on a page table. An entry of a table has the layout of an entry
of the TLB: it maps a pair of pages, an even and an odd one, each with a valid bit of its own. The
memory of a new table has arbitrary contents, and the entries are filled as pages are mapped.

`tlbLookup` is what the TLB makes of a table. The table realises a mapping if the lookup gives that
mapping (`TableInvariant`); `vm_map` and `vm_set_dirty` change both in the same way. -/

namespace Kudos.Mips32

open Transition

/-! ## Tables -/

/-- One half of an entry: the fields `PFN0`, `D0`, `V0` and `G0`, or those of the odd page. -/
structure TlbHalf where
  pfn : BitVec 20
  d : Bool
  v : Bool
  g : Bool

/-- What is used of `tlb_entry_t`. -/
structure TlbEntry where
  vpn2 : BitVec 19
  asid : BitVec 8
  even : TlbHalf
  odd : TlbHalf

def TlbEntry.half (e : TlbEntry) : Bool → TlbHalf
  | false => e.even
  | true => e.odd

def TlbEntry.setHalf (e : TlbEntry) (h : TlbHalf) : Bool → TlbEntry
  | false => { e with even := h }
  | true => { e with odd := h }

/-- `pagetable_t`. -/
structure Pagetable where
  asid : BitVec 32
  validCount : ℕ
  entries : ℕ → TlbEntry

/-- `PAGETABLE_ENTRIES`. -/
def pagetableEntries : ℕ := 340

/-- `vm_create_pagetable`, on a page with the contents `mem`. -/
def vmCreatePagetable (mem : ℕ → TlbEntry) (asid : BitVec 32) : Pagetable := ⟨asid, 0, mem⟩

/-- `vaddr >> 13`. -/
def pagePair (vaddr : BitVec 32) : BitVec 19 := (vaddr >>> 13).setWidth 19

/-- `ADDR_IS_ON_ODD_PAGE`. -/
def onOddPage (vaddr : BitVec 32) : Bool := vaddr &&& 0x1000#32 ≠ 0

/-- `physaddr >> 12`. -/
def pageFrame (physaddr : BitVec 32) : BitVec 20 := (physaddr >>> 12).setWidth 20

/-- The first entry for a pair of pages, for which the functions and the TLB look. -/
def findPair (t : Pagetable) (q : BitVec 19) : Option ℕ :=
  (List.range t.validCount).find? fun i => (t.entries i).vpn2 = q

def Pagetable.setEntry (t : Pagetable) (i : ℕ) (e : TlbEntry) : Pagetable :=
  { t with entries := Function.update t.entries i e }

/-- A new last entry. -/
def Pagetable.addEntry (t : Pagetable) (e : TlbEntry) : Pagetable :=
  { t with entries := Function.update t.entries t.validCount e, validCount := t.validCount + 1 }

/-- A new entry for a pair with one half valid, in memory with the contents `e`. -/
def TlbEntry.fill (e : TlbEntry) (asid : BitVec 32) (q : BitVec 19) (half : TlbHalf) (odd : Bool) :
    TlbEntry :=
  let e := { e with vpn2 := q, asid := asid.setWidth 8 }
  let e := e.setHalf half odd
  -- of the other half, only the valid bit is written
  e.setHalf { e.half (!odd) with v := false } (!odd)

/-- `vm_map`, on a table that is not NULL. The cases of even and odd pages differ in the half of the
    entry only. -/
def vmMap (t : Pagetable) (physaddr vaddr : BitVec 32) (flags : ℤ) : Except KernelFault Pagetable := do
  kernelAssert (flags = 0 ∨ flags = 1)
  let half : TlbHalf := ⟨pageFrame physaddr, flags = 1, true, false⟩
  match findPair t (pagePair vaddr) with
  | some i =>
      if ((t.entries i).half (onOddPage vaddr)).v then .error .panic
      else return t.setEntry i ((t.entries i).setHalf half (onOddPage vaddr))
  | none =>
      if pagetableEntries ≤ t.validCount then .error .panic
      else
        return t.addEntry ((t.entries t.validCount).fill t.asid (pagePair vaddr) half (onOddPage vaddr))

/-- `vm_set_dirty`. -/
def vmSetDirty (t : Pagetable) (vaddr : BitVec 32) (dirty : ℤ) : Except KernelFault Pagetable := do
  kernelAssert (dirty = 0 ∨ dirty = 1)
  match findPair t (pagePair vaddr) with
  | some i =>
      let half := (t.entries i).half (onOddPage vaddr)
      if half.v then
        return t.setEntry i ((t.entries i).setHalf { half with d := dirty = 1 } (onOddPage vaddr))
      else .error .panic
  | none => .error .panic

/-- The page frame and the dirty bit of a valid half. -/
def TlbHalf.mapping (h : TlbHalf) : Option (BitVec 20 × Bool) := if h.v then some (h.pfn, h.d) else none

/-- What the TLB finds in a table for one page of a pair. -/
def tlbLookup (t : Pagetable) (q : BitVec 19) (odd : Bool) : Option (BitVec 20 × Bool) :=
  (findPair t q).bind fun i => ((t.entries i).half odd).mapping

/-! ## Runs -/

inductive PtOp
  | map (physaddr vaddr : BitVec 32) (flags : ℤ)
  | setDirty (vaddr : BitVec 32) (dirty : ℤ)

def PtOp.exec (t : Pagetable) : PtOp → Except KernelFault Pagetable
  | map physaddr vaddr flags => vmMap t physaddr vaddr flags
  | setDirty vaddr dirty => vmSetDirty t vaddr dirty

/-- The page an operation is about. -/
def PtOp.vaddr : PtOp → BitVec 32
  | map _ vaddr _ => vaddr
  | setDirty vaddr _ => vaddr

/-- What is mapped where: the frame and whether it may be written. -/
abbrev Mapping := BitVec 19 → Bool → Option (BitVec 20 × Bool)

/-- The mapping after an operation. -/
def PtOp.apply (m : Mapping) (op : PtOp) : Mapping := fun q odd =>
  if q = pagePair op.vaddr ∧ odd = onOddPage op.vaddr then
    match op with
    | map physaddr _ flags => some (pageFrame physaddr, flags = 1)
    | setDirty _ dirty => (m q odd).map fun p => (p.1, dirty = 1)
  else m q odd

/-- The mapping that a sequence of operations asks for. -/
def lastGiven (ops : List PtOp) : Mapping := ops.foldl PtOp.apply fun _ _ => none

/-- The pages that are mapped belong to at most as many pairs as a table has entries. -/
def FitsTable (m : Mapping) : Prop :=
  ∃ pairs : List (BitVec 19), pairs.length ≤ pagetableEntries ∧ ∀ q odd, m q odd ≠ none → q ∈ pairs

/-- An operation is allowed after the operations `ops`. -/
def PtOp.Allowed (ops : List PtOp) : PtOp → Prop
  | map physaddr vaddr flags =>
      physaddr.toNat % 4096 = 0 ∧ vaddr.toNat % 4096 = 0 ∧ (flags = 0 ∨ flags = 1) ∧
        lastGiven ops (pagePair vaddr) (onOddPage vaddr) = none ∧
        FitsTable (lastGiven (ops ++ [map physaddr vaddr flags]))
  | setDirty vaddr dirty =>
      (dirty = 0 ∨ dirty = 1) ∧ lastGiven ops (pagePair vaddr) (onOddPage vaddr) ≠ none

/-- A table and the operations on it so far. -/
structure PtHistory where
  table : Pagetable
  ops : List PtOp

inductive PtStep : PtHistory → PtOp → PtHistory → Prop
  | call {H : PtHistory} {op : PtOp} {t : Pagetable} :
      op.Allowed H.ops → op.exec H.table = .ok t → PtStep H op ⟨t, H.ops ++ [op]⟩

/-- The tables that allowed operations lead to. -/
abbrev PtReachable (mem : ℕ → TlbEntry) (asid : BitVec 32) : PtHistory → Prop :=
  Reach (fun H => H = ⟨vmCreatePagetable mem asid, []⟩) PtStep

theorem lastGiven_concat (ops : List PtOp) (op : PtOp) :
    lastGiven (ops ++ [op]) = op.apply (lastGiven ops) := by
  unfold lastGiven
  rw [List.foldl_append, List.foldl_cons, List.foldl_nil]

/-! ## The invariant -/

/-- The entries of a table are for different pairs, each with a page that is mapped, and the lookup
    gives the mapping. -/
structure TableInvariant (asid : BitVec 32) (t : Pagetable) (m : Mapping) : Prop where
  asid_eq : t.asid = asid
  distinct : ∀ i j, i < t.validCount → j < t.validCount →
    (t.entries i).vpn2 = (t.entries j).vpn2 → i = j
  asids : ∀ i < t.validCount, (t.entries i).asid = asid.setWidth 8
  used : ∀ i < t.validCount, ∃ odd, m (t.entries i).vpn2 odd ≠ none
  lookup : ∀ q odd, tlbLookup t q odd = m q odd

section

variable {asid : BitVec 32} {t t' : Pagetable} {m : Mapping} {q : BitVec 19} {odd : Bool} {i : ℕ}

@[simp]
theorem TlbEntry.half_setHalf (e : TlbEntry) (h : TlbHalf) (odd odd' : Bool) :
    (e.setHalf h odd).half odd' = if odd' = odd then h else e.half odd' := by
  cases odd <;> cases odd' <;> rfl

@[simp]
theorem TlbEntry.vpn2_setHalf (e : TlbEntry) (h : TlbHalf) (odd : Bool) :
    (e.setHalf h odd).vpn2 = e.vpn2 := by
  cases odd <;> rfl

@[simp]
theorem TlbEntry.asid_setHalf (e : TlbEntry) (h : TlbHalf) (odd : Bool) :
    (e.setHalf h odd).asid = e.asid := by
  cases odd <;> rfl

theorem findPair_eq_some (hdistinct : ∀ i j, i < t.validCount → j < t.validCount →
    (t.entries i).vpn2 = (t.entries j).vpn2 → i = j) :
    findPair t q = some i ↔ i < t.validCount ∧ (t.entries i).vpn2 = q := by
  unfold findPair
  rw [List.find?_range_eq_some, List.mem_range, decide_eq_true_eq]
  constructor
  · rintro ⟨hq, hi, -⟩
    exact ⟨hi, hq⟩
  · rintro ⟨hi, hq⟩
    refine ⟨hq, hi, ?_⟩
    intro j hj
    have hne : (t.entries j).vpn2 ≠ q := by
      intro hjq
      have := hdistinct j i (by omega) hi (hjq.trans hq.symm)
      omega
    simpa using hne

theorem findPair_eq_none : findPair t q = none ↔ ∀ i < t.validCount, (t.entries i).vpn2 ≠ q := by
  unfold findPair
  rw [List.find?_range_eq_none]
  simp

/-- A new table maps nothing. -/
theorem vmCreatePagetable_invariant (mem : ℕ → TlbEntry) (asid : BitVec 32) :
    TableInvariant asid (vmCreatePagetable mem asid) fun _ _ => none where
  asid_eq := rfl
  distinct i _ hi := absurd hi (Nat.not_lt_zero i)
  asids i hi := absurd hi (Nat.not_lt_zero i)
  used i hi := absurd hi (Nat.not_lt_zero i)
  lookup _ _ := rfl

/-- One half of an entry in use gets a valid mapping. -/
theorem TableInvariant.setHalf (h : TableInvariant asid t m) (hi : findPair t q = some i)
    (half : TlbHalf) (hv : half.v = true) :
    TableInvariant asid (t.setEntry i ((t.entries i).setHalf half odd))
      fun q' odd' => if q' = q ∧ odd' = odd then some (half.pfn, half.d) else m q' odd' := by
  have hvpn : ∀ j, ((t.setEntry i ((t.entries i).setHalf half odd)).entries j).vpn2
      = (t.entries j).vpn2 := by
    intro j
    show (Function.update t.entries i _ j).vpn2 = _
    by_cases hj : j = i
    · rw [hj, Function.update_self, TlbEntry.vpn2_setHalf]
    · rw [Function.update_of_ne hj]
  obtain ⟨hlt, hq⟩ := (findPair_eq_some h.distinct).1 hi
  refine ⟨h.asid_eq, ?_, ?_, ?_, ?_⟩
  · intro j k hj hk heq
    rw [hvpn, hvpn] at heq
    exact h.distinct j k hj hk heq
  · intro j hj
    show (Function.update t.entries i _ j).asid = _
    by_cases hji : j = i
    · rw [hji, Function.update_self, TlbEntry.asid_setHalf]
      exact h.asids i hlt
    · rw [Function.update_of_ne hji]
      exact h.asids j hj
  · intro j hj
    obtain ⟨odd', hodd'⟩ := h.used j hj
    refine ⟨odd', ?_⟩
    rw [hvpn]
    split
    · simp
    · exact hodd'
  · intro q' odd'
    have hfind : findPair (t.setEntry i ((t.entries i).setHalf half odd)) q' = findPair t q' := by
      unfold findPair
      simp only [hvpn]
      rfl
    have hold := h.lookup q' odd'
    unfold tlbLookup at hold ⊢
    rw [hfind]
    cases hj : findPair t q' with
    | none =>
        have hne : q' ≠ q := by
          rintro rfl
          cases hj.symm.trans hi
        rw [hj] at hold
        rw [if_neg (fun hc => hne hc.1), ← hold]
        rfl
    | some j =>
        rw [hj] at hold
        obtain ⟨hjlt, hjq⟩ := (findPair_eq_some h.distinct).1 hj
        show ((Function.update t.entries i _ j).half odd').mapping = _
        by_cases hji : j = i
        · have hqq : q' = q := by rw [← hjq, hji, hq]
          rw [hji, Function.update_self, TlbEntry.half_setHalf]
          by_cases hodd : odd' = odd
          · rw [if_pos hodd, if_pos ⟨hqq, hodd⟩, TlbHalf.mapping, if_pos hv]
          · rw [if_neg hodd, if_neg (fun hc => hodd hc.2), ← hold, hji]
            rfl
        · have hne : q' ≠ q := by
            rintro rfl
            exact hji (h.distinct j i hjlt hlt (hjq.trans hq.symm))
          rw [Function.update_of_ne hji, if_neg (fun hc => hne hc.1), ← hold]
          rfl

/-! ### A new entry -/

section

variable {e : TlbEntry}

theorem entries_addEntry_of_lt {j : ℕ} (hj : j < t.validCount) : (t.addEntry e).entries j = t.entries j :=
  Function.update_of_ne (by omega) ..

theorem entries_addEntry_self : (t.addEntry e).entries t.validCount = e := Function.update_self ..

/-- The new entry is looked at last. -/
theorem findPair_addEntry (q' : BitVec 19) :
    findPair (t.addEntry e) q' = (findPair t q').or (if e.vpn2 = q' then some t.validCount else none) := by
  unfold findPair
  show (List.range (t.validCount + 1)).find? _ = _
  rw [List.range_succ, List.find?_append, List.find?_singleton, entries_addEntry_self]
  have hold : (List.range t.validCount).find? (fun i => ((t.addEntry e).entries i).vpn2 = q')
      = (List.range t.validCount).find? fun i => (t.entries i).vpn2 = q' := by
    rw [← List.head?_filter, ← List.head?_filter]
    refine congrArg List.head? (List.filter_congr fun j hj => ?_)
    rw [entries_addEntry_of_lt (List.mem_range.1 hj)]
  rw [hold]
  simp only [decide_eq_true_eq]

theorem TableInvariant.distinct_addEntry (h : TableInvariant asid t m) (hnone : findPair t e.vpn2 = none)
    (j k : ℕ) (hj : j < (t.addEntry e).validCount) (hk : k < (t.addEntry e).validCount)
    (heq : ((t.addEntry e).entries j).vpn2 = ((t.addEntry e).entries k).vpn2) : j = k := by
  rw [findPair_eq_none] at hnone
  rcases Nat.lt_succ_iff_lt_or_eq.1 hj with hj | rfl
  · rcases Nat.lt_succ_iff_lt_or_eq.1 hk with hk | rfl
    · rw [entries_addEntry_of_lt hj, entries_addEntry_of_lt hk] at heq
      exact h.distinct j k hj hk heq
    · rw [entries_addEntry_of_lt hj, entries_addEntry_self] at heq
      exact absurd heq (hnone j hj)
  · rcases Nat.lt_succ_iff_lt_or_eq.1 hk with hk | rfl
    · rw [entries_addEntry_of_lt hk, entries_addEntry_self] at heq
      exact absurd heq.symm (hnone k hk)
    · rfl

/-- The new entry is found for its pair, and the others for theirs. -/
theorem TableInvariant.lookup_addEntry (h : TableInvariant asid t m) (hnone : findPair t q = none)
    (hvpn : e.vpn2 = q) (hv : (e.half odd).v = true) (hother : (e.half (!odd)).v = false)
    (q' : BitVec 19) (odd' : Bool) :
    tlbLookup (t.addEntry e) q' odd'
      = if q' = q ∧ odd' = odd then some ((e.half odd).pfn, (e.half odd).d) else m q' odd' := by
  have hbefore := h.lookup q' odd'
  unfold tlbLookup at hbefore ⊢
  rw [findPair_addEntry, hvpn]
  cases hfind : findPair t q' with
  | some j =>
      have hne : q' ≠ q := fun heq => by
        rw [heq, hnone] at hfind
        cases hfind
      have hjlt := ((findPair_eq_some h.distinct).1 hfind).1
      rw [hfind] at hbefore
      rw [Option.some_or, if_neg (fun hc => hne hc.1), ← hbefore]
      show (((t.addEntry e).entries j).half odd').mapping = _
      rw [entries_addEntry_of_lt hjlt]
      rfl
  | none =>
      rw [hfind] at hbefore
      by_cases hqq : q' = q
      · rw [Option.none_or, if_pos hqq.symm]
        show (((t.addEntry e).entries t.validCount).half odd').mapping = _
        rw [entries_addEntry_self]
        by_cases hodd : odd' = odd
        · rw [hodd, if_pos ⟨hqq, rfl⟩, TlbHalf.mapping, if_pos hv]
        · rw [if_neg (fun hc => hodd hc.2), ← hbefore, Bool.eq_not.2 hodd, TlbHalf.mapping, hother]
          rfl
      · rw [Option.none_or, if_neg (Ne.symm hqq), if_neg (fun hc => hqq hc.1), ← hbefore]
        rfl

/-- A new entry is filled with one valid half. -/
theorem TableInvariant.addEntry (h : TableInvariant asid t m) (hnone : findPair t q = none)
    (hvpn : e.vpn2 = q) (hasid : e.asid = asid.setWidth 8)
    (hv : (e.half odd).v = true) (hother : (e.half (!odd)).v = false) :
    TableInvariant asid (t.addEntry e)
      fun q' odd' => if q' = q ∧ odd' = odd then some ((e.half odd).pfn, (e.half odd).d)
        else m q' odd' := by
  refine ⟨h.asid_eq, h.distinct_addEntry (hvpn ▸ hnone), fun j hj => ?_, fun j hj => ?_,
    h.lookup_addEntry hnone hvpn hv hother⟩
  · rcases Nat.lt_succ_iff_lt_or_eq.1 hj with hj | rfl
    · rw [entries_addEntry_of_lt hj]
      exact h.asids j hj
    · rw [entries_addEntry_self, hasid]
  · rcases Nat.lt_succ_iff_lt_or_eq.1 hj with hj | rfl
    · obtain ⟨odd', hodd'⟩ := h.used j hj
      refine ⟨odd', ?_⟩
      rw [entries_addEntry_of_lt hj, if_neg (fun hc => findPair_eq_none.1 hnone j hj hc.1)]
      exact hodd'
    · refine ⟨odd, ?_⟩
      rw [entries_addEntry_self, hvpn, if_pos ⟨rfl, rfl⟩]
      simp

end

end

/-! ## Operations -/

section

variable {asid : BitVec 32} {t t' : Pagetable} {m : Mapping} {q : BitVec 19} {odd : Bool} {i : ℕ}

/-- A page that is mapped has an entry with a valid half. -/
theorem TableInvariant.entry_of_mapped (h : TableInvariant asid t m) (hm : m q odd ≠ none) :
    ∃ i, findPair t q = some i ∧ ((t.entries i).half odd).v = true ∧
      m q odd = some (((t.entries i).half odd).pfn, ((t.entries i).half odd).d) := by
  have hlookup := h.lookup q odd
  unfold tlbLookup at hlookup
  cases hi : findPair t q with
  | none =>
      rw [hi] at hlookup
      exact absurd hlookup.symm hm
  | some i =>
      rw [hi] at hlookup
      have hmap : ((t.entries i).half odd).mapping = m q odd := hlookup
      refine ⟨i, rfl, ?_⟩
      unfold TlbHalf.mapping at hmap
      split at hmap
      · next hv => exact ⟨hv, hmap.symm⟩
      · exact absurd hmap.symm hm

/-- A page that is not mapped has no valid half. -/
theorem TableInvariant.half_of_unmapped (h : TableInvariant asid t m) (hm : m q odd = none)
    (hi : findPair t q = some i) : ((t.entries i).half odd).v = false := by
  have hlookup := h.lookup q odd
  unfold tlbLookup at hlookup
  rw [hi, hm] at hlookup
  have hmap : ((t.entries i).half odd).mapping = none := hlookup
  unfold TlbHalf.mapping at hmap
  split at hmap
  · cases hmap
  · next hv => exact Bool.eq_false_iff.2 hv

/-- There is an entry left for a pair without one, if the pairs then fit the table. -/
theorem TableInvariant.validCount_lt (h : TableInvariant asid t m) (hnone : findPair t q = none)
    {pairs : List (BitVec 19)} (hlen : pairs.length ≤ pagetableEntries) (hq : q ∈ pairs)
    (hpairs : ∀ q odd, m q odd ≠ none → q ∈ pairs) : t.validCount < pagetableEntries := by
  rw [findPair_eq_none] at hnone
  -- the pairs of the entries and the new one are different members of `pairs`
  have hnodup : (q :: (List.range t.validCount).map fun i => (t.entries i).vpn2).Nodup := by
    rw [List.nodup_cons]
    constructor
    · intro hmem
      obtain ⟨i, hi, hiq⟩ := List.mem_map.1 hmem
      exact hnone i (List.mem_range.1 hi) hiq
    · refine List.Nodup.map_on ?_ List.nodup_range
      intro i hi j hj heq
      exact h.distinct i j (List.mem_range.1 hi) (List.mem_range.1 hj) heq
  have hsubset : (q :: (List.range t.validCount).map fun i => (t.entries i).vpn2) ⊆ pairs := by
    intro p hp
    rcases List.mem_cons.1 hp with rfl | hp
    · exact hq
    · obtain ⟨i, hi, rfl⟩ := List.mem_map.1 hp
      obtain ⟨odd, hodd⟩ := h.used i (List.mem_range.1 hi)
      exact hpairs _ odd hodd
  have hle := (List.subperm_of_subset hnodup hsubset).length_le
  rw [List.length_cons, List.length_map, List.length_range] at hle
  omega

/-- The new entry of `vm_map`, for a pair without one. -/
theorem TableInvariant.fillEntry (h : TableInvariant asid t m) (physaddr : BitVec 32) {vaddr : BitVec 32}
    (hnone : findPair t (pagePair vaddr) = none) (flags : ℤ) :
    TableInvariant asid
      (t.addEntry ((t.entries t.validCount).fill t.asid (pagePair vaddr)
        ⟨pageFrame physaddr, flags = 1, true, false⟩ (onOddPage vaddr)))
      (PtOp.apply m (.map physaddr vaddr flags)) := by
  let half : TlbHalf := ⟨pageFrame physaddr, flags = 1, true, false⟩
  have hhalf : ((t.entries t.validCount).fill t.asid (pagePair vaddr) half
      (onOddPage vaddr)).half (onOddPage vaddr) = half := by
    simp [TlbEntry.fill]
  have hnew := h.addEntry hnone (e := (t.entries t.validCount).fill t.asid (pagePair vaddr) half
    (onOddPage vaddr)) (by simp [TlbEntry.fill]) (by simp [TlbEntry.fill, h.asid_eq])
    (by rw [hhalf]) (by simp [TlbEntry.fill])
  rw [hhalf] at hnew
  exact hnew

/-- `vm_map` on a page that is not mapped. -/
theorem vmMap_invariant (h : TableInvariant asid t m) {physaddr vaddr : BitVec 32} {flags : ℤ}
    (hflags : flags = 0 ∨ flags = 1) (hm : m (pagePair vaddr) (onOddPage vaddr) = none)
    (hfits : FitsTable (PtOp.apply m (.map physaddr vaddr flags))) :
    ∃ t', vmMap t physaddr vaddr flags = .ok t' ∧
      TableInvariant asid t' (PtOp.apply m (.map physaddr vaddr flags)) := by
  have hassert : kernelAssert (flags = 0 ∨ flags = 1) = .ok () := if_pos hflags
  unfold vmMap
  rw [hassert]
  show ∃ t', (match findPair t (pagePair vaddr) with
    | some i => _
    | none => _) = Except.ok t' ∧ _
  cases hi : findPair t (pagePair vaddr) with
  | some i =>
      have hv := h.half_of_unmapped hm hi
      refine ⟨_, if_neg (by rw [hv]; exact Bool.false_ne_true), ?_⟩
      exact h.setHalf hi ⟨pageFrame physaddr, flags = 1, true, false⟩ rfl
  | none =>
      obtain ⟨pairs, hlen, hpairs⟩ := hfits
      have happly : ∀ q odd, m q odd ≠ none →
          PtOp.apply m (.map physaddr vaddr flags) q odd ≠ none := by
        intro q odd hq
        unfold PtOp.apply
        split
        · simp
        · exact hq
      have hself : PtOp.apply m (.map physaddr vaddr flags) (pagePair vaddr) (onOddPage vaddr)
          ≠ none := by
        unfold PtOp.apply
        rw [if_pos ⟨rfl, rfl⟩]
        simp
      have hlt := h.validCount_lt hi hlen (hpairs _ _ hself)
        fun q odd hq => hpairs q odd (happly q odd hq)
      exact ⟨_, if_neg (Nat.not_le.2 hlt), h.fillEntry physaddr hi flags⟩

/-- `vm_set_dirty` on a page that is mapped. -/
theorem vmSetDirty_invariant (h : TableInvariant asid t m) {vaddr : BitVec 32} {dirty : ℤ}
    (hdirty : dirty = 0 ∨ dirty = 1) (hm : m (pagePair vaddr) (onOddPage vaddr) ≠ none) :
    ∃ t', vmSetDirty t vaddr dirty = .ok t' ∧
      TableInvariant asid t' (PtOp.apply m (.setDirty vaddr dirty)) := by
  obtain ⟨i, hi, hv, hmap⟩ := h.entry_of_mapped hm
  let half := (t.entries i).half (onOddPage vaddr)
  refine ⟨t.setEntry i ((t.entries i).setHalf { half with d := dirty = 1 } (onOddPage vaddr)), ?_, ?_⟩
  · simp [vmSetDirty, kernelAssert, hdirty, hi, hv, half, pure, Except.pure, bind, Except.bind]
  · have happly : PtOp.apply m (.setDirty vaddr dirty) = fun q' odd' =>
        if q' = pagePair vaddr ∧ odd' = onOddPage vaddr then some (half.pfn, decide (dirty = 1))
        else m q' odd' := by
      funext q' odd'
      show (if q' = pagePair vaddr ∧ odd' = onOddPage vaddr then
        (m q' odd').map fun p => (p.1, decide (dirty = 1)) else m q' odd') = _
      split
      · next hc =>
          rw [hc.1, hc.2, hmap]
          rfl
      · rfl
    rw [happly]
    exact h.setHalf hi { half with d := dirty = 1 } hv

/-- Every allowed operation succeeds and does to the table what it does to the mapping. -/
theorem PtOp.exec_invariant {ops : List PtOp} (h : TableInvariant asid t (lastGiven ops)) {op : PtOp}
    (hop : op.Allowed ops) :
    ∃ t', op.exec t = .ok t' ∧ TableInvariant asid t' (lastGiven (ops ++ [op])) := by
  cases op with
  | map physaddr vaddr flags =>
      obtain ⟨-, -, hflags, hm, hfits⟩ := hop
      rw [lastGiven_concat] at hfits ⊢
      exact vmMap_invariant h hflags hm hfits
  | setDirty vaddr dirty =>
      rw [lastGiven_concat]
      exact vmSetDirty_invariant h hop.1 hop.2

theorem PtReachable.invariant {mem : ℕ → TlbEntry} {H : PtHistory} (h : PtReachable mem asid H) :
    TableInvariant asid H.table (lastGiven H.ops) := by
  refine Reach.invariant (I := fun H => TableInvariant asid H.table (lastGiven H.ops)) ?_ ?_ h
  · rintro H rfl
    exact vmCreatePagetable_invariant mem asid
  · rintro H op H' hinv ⟨hop, hexec⟩
    obtain ⟨t', hok, hinv'⟩ := PtOp.exec_invariant hinv hop
    cases hexec.symm.trans hok
    exact hinv'

end

/-! ## Pages -/

theorem toNat_pagePair (vaddr : BitVec 32) : (pagePair vaddr).toNat = vaddr.toNat / 8192 := by
  have hlt := vaddr.isLt
  unfold pagePair
  rw [BitVec.toNat_setWidth, BitVec.toNat_ushiftRight, Nat.shiftRight_eq_div_pow]
  omega

theorem onOddPage_eq (vaddr : BitVec 32) : onOddPage vaddr = decide (vaddr.toNat / 4096 % 2 = 1) := by
  unfold onOddPage
  rw [decide_eq_decide, ne_eq, ← BitVec.toNat_inj, BitVec.toNat_and]
  show ¬ vaddr.toNat &&& 2 ^ 12 = 0 ↔ _
  rw [Nat.and_two_pow, Nat.testBit_eq_decide_div_mod_eq]
  simp

/-- The pair and the half determine the page. -/
theorem page_eq_of_pair_eq {vaddr vaddr' : BitVec 32} (hpair : pagePair vaddr = pagePair vaddr')
    (hodd : onOddPage vaddr = onOddPage vaddr') : vaddr >>> 12 = vaddr' >>> 12 := by
  have hpair' := congrArg BitVec.toNat hpair
  rw [toNat_pagePair, toNat_pagePair] at hpair'
  rw [onOddPage_eq, onOddPage_eq, decide_eq_decide] at hodd
  rw [← BitVec.toNat_inj, BitVec.toNat_ushiftRight, BitVec.toNat_ushiftRight,
    Nat.shiftRight_eq_div_pow, Nat.shiftRight_eq_div_pow]
  omega

/-- In every table that `vm_map` and `vm_set_dirty` make from a new one, whatever its memory held, the
    entries in use are for different pairs and have the address space of the table, and the TLB finds
    for every address what was last given for its page. Every further allowed operation succeeds, and
    it changes the lookup of its own page only. -/
theorem ptReachable_law (mem : ℕ → TlbEntry) (asid : BitVec 32) (H : PtHistory)
    (h : PtReachable mem asid H) :
    (∀ i j, i < H.table.validCount → j < H.table.validCount →
      (H.table.entries i).vpn2 = (H.table.entries j).vpn2 → i = j) ∧
    H.table.asid = asid ∧
    (∀ i < H.table.validCount, (H.table.entries i).asid = H.table.asid.setWidth 8) ∧
    (∀ vaddr, tlbLookup H.table (pagePair vaddr) (onOddPage vaddr)
      = lastGiven H.ops (pagePair vaddr) (onOddPage vaddr)) ∧
    ∀ op : PtOp, op.Allowed H.ops → ∃ t, op.exec H.table = .ok t ∧
      ∀ vaddr : BitVec 32, vaddr >>> 12 ≠ op.vaddr >>> 12 →
        tlbLookup t (pagePair vaddr) (onOddPage vaddr)
          = tlbLookup H.table (pagePair vaddr) (onOddPage vaddr) := by
  have hinv := h.invariant
  refine ⟨hinv.distinct, hinv.asid_eq, ?_, fun vaddr => hinv.lookup _ _, ?_⟩
  · intro i hi
    rw [hinv.asid_eq]
    exact hinv.asids i hi
  · intro op hop
    obtain ⟨t, hok, hinv'⟩ := PtOp.exec_invariant hinv hop
    refine ⟨t, hok, ?_⟩
    intro vaddr hpage
    rw [hinv'.lookup, hinv.lookup, lastGiven_concat]
    refine if_neg ?_
    intro hc
    exact hpage (page_eq_of_pair_eq hc.1 hc.2)

/-- A page that is mapped writable and then write-protected. -/
theorem ptReachable_law_writeProtected :
    ∃ H : PtHistory, PtReachable (fun _ => ⟨0, 0, ⟨0, true, true, true⟩, ⟨0, true, true, true⟩⟩) 5 H ∧
      H.ops = [.map 0x5000 0x3000 1, .setDirty 0x3000 0] ∧
      tlbLookup H.table (pagePair 0x3000) (onOddPage 0x3000) = some (5, false) ∧
      tlbLookup H.table (pagePair 0x2000) (onOddPage 0x2000) = none := by
  have hmap : (PtOp.map 0x5000 0x3000 1).Allowed [] := by
    refine ⟨by decide, by decide, by decide, rfl, [pagePair 0x3000], by decide, ?_⟩
    intro q odd hq
    by_contra hmem
    refine hq (if_neg ?_)
    intro hc
    exact hmem (List.mem_singleton.2 hc.1)
  let mem : ℕ → TlbEntry := fun _ => ⟨0, 0, ⟨0, true, true, true⟩, ⟨0, true, true, true⟩⟩
  have hstart : PtReachable mem 5 ⟨vmCreatePagetable mem 5, []⟩ := .init rfl
  have hmapped := Reach.step _ hstart (.call hmap rfl)
  have hdirty : (PtOp.setDirty 0x3000 0).Allowed [.map 0x5000 0x3000 1] :=
    ⟨.inl rfl, by decide⟩
  have hlast := Reach.step _ hmapped (.call hdirty rfl)
  obtain ⟨-, -, -, hlookup, -⟩ := ptReachable_law _ 5 _ hlast
  exact ⟨_, hlast, rfl, hlookup 0x3000, hlookup 0x2000⟩

end Kudos.Mips32
