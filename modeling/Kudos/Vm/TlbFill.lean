import Kudos.Vm.TlbGetmap

set_option autoImplicit false

/-! # The page table in the TLB

`tlb_fill` of `vm/mips32/tlb.c` with the loop of `_tlb.S` that writes the rows, on processors that each have
a TLB of their own. The rows of other threads stay where they are, and so do the old rows of the same thread:
`TlbInvariant` says that these are never more than the table has entries, so that the next `tlb_fill` writes
all of them again. -/

namespace Kudos.Mips32

open Transition

/-! ## The coprocessor -/

/-- A page is global if both halves of the entry say so. -/
def TlbEntry.global (e : TlbEntry) : Bool := e.even.g && e.odd.g

/-- The registers of coprocessor 0 that are used, and the rows of the TLB. Of `EntryHi` these are the fields
`VPN2` and `ASID`. -/
structure Cp0 where
  conf1 : BitVec 32
  index : BitVec 32
  vpn2 : BitVec 19
  asid : BitVec 8
  entrLo0 : TlbHalf
  entrLo1 : TlbHalf
  rows : ℕ → TlbEntry

namespace Cp0

/-- `tlbwi`. -/
def tlbwi (c : Cp0) : Cp0 :=
  { c with rows := Function.update c.rows c.index.toNat ⟨c.vpn2, c.asid, c.entrLo0, c.entrLo1⟩ }

/-- `_tlb_get_maxindex`. -/
def tlbGetMaxindex (c : Cp0) : BitVec 32 := (c.conf1 >>> 25) &&& 0x3f

/-- `_tlb_set_asid`. The mask keeps the field `VPN2`. -/
def tlbSetAsid (c : Cp0) (asid : BitVec 32) : Cp0 := { c with asid := asid.setWidth 8 }

/-- `tlb_write_one`, with the registers `t1`, `a1` and `v0`; the pointer in `a0` is at `entries[k]`, and
the number is what is left in `a2` while it is positive. -/
def tlbWriteOne (t1 : BitVec 32) (entries : ℕ → TlbEntry) :
    ℕ → ℕ → BitVec 32 → BitVec 32 → Cp0 → Cp0 × BitVec 32
  | 0, _, _, v0, c => (c, v0)
  | num + 1, k, a1, v0, c =>
      if (t1 - a1).slt 0#32 then (c, v0)
      else
        let e := entries k
        let c := { c with index := a1, vpn2 := e.vpn2, asid := e.asid, entrLo0 := e.even, entrLo1 := e.odd }
        tlbWriteOne t1 entries num (k + 1) (a1 + 1) (v0 + 1) c.tlbwi

/-- `_tlb_write`. -/
def tlbWrite (c : Cp0) (entries : ℕ → TlbEntry) (index num : BitVec 32) : Cp0 × BitVec 32 :=
  tlbWriteOne c.tlbGetMaxindex entries num.toInt.toNat 0 index 0 c

/-- `tlb_fill`; the table is none for NULL. -/
def tlbFill (c : Cp0) : Option Pagetable → Except KernelFault Cp0
  | none => .ok c
  | some t => do
      let count := BitVec.ofNat 32 t.validCount
      kernelAssert (count.toNat ≤ (c.tlbGetMaxindex + 1).toNat)
      return (c.tlbWrite t.entries 0 count).1.tlbSetAsid t.asid

/-- A row is for the pages of a pair, in the address space that is set. -/
def IsFor (c : Cp0) (q : BitVec 19) (i : ℕ) : Prop :=
  (c.rows i).vpn2 = q ∧ ((c.rows i).asid = c.asid ∨ (c.rows i).global = true)

instance (c : Cp0) (q : BitVec 19) : DecidablePred (c.IsFor q) := fun _ => inferInstanceAs (Decidable (_ ∧ _))

/-- What an access to a page finds: the page frame, and whether it may be written. -/
def lookup (c : Cp0) (q : BitVec 19) (odd : Bool) : Option (BitVec 20 × Bool) :=
  ((List.range (c.tlbGetMaxindex.toNat + 1)).find? fun i => c.IsFor q i).bind
    fun i => ((c.rows i).half odd).mapping

/-- The TLB must not have two rows for the same pages. -/
def Unambiguous (c : Cp0) : Prop :=
  ∀ q i j, i ≤ c.tlbGetMaxindex.toNat → j ≤ c.tlbGetMaxindex.toNat → c.IsFor q i → c.IsFor q j → i = j

end Cp0

/-! ## Processors and threads -/

/-- The coprocessors of the processors, the page tables of the threads, and for each processor the thread
whose table was put into the TLB last, with the operations on the table until then. -/
structure TlbSystem where
  cpus : ℕ → Cp0
  tables : ℕ → Option PtHistory
  filled : ℕ → Option (ℕ × List PtOp)

inductive TlbAction
  | create (tid : ℕ) (mem : ℕ → TlbEntry)
  | call (tid : ℕ) (op : PtOp)
  | fill (cpu tid : ℕ)

/-- A thread makes its table, some code changes it, and a processor puts it into the TLB, in any order. The
idle thread, with number 0, has none. -/
inductive TlbStep : TlbSystem → TlbAction → TlbSystem → Prop
  | create {s : TlbSystem} {tid : ℕ} {mem : ℕ → TlbEntry} :
      0 < tid → tid < configMaxThreads → s.tables tid = none →
      TlbStep s (.create tid mem)
        { s with tables := Function.update s.tables tid (some ⟨vmCreatePagetable mem (.ofNat 32 tid), []⟩) }
  | call {s : TlbSystem} {tid : ℕ} {op : PtOp} {H : PtHistory} {t : Pagetable} :
      s.tables tid = some H → op.exec H.table = .ok t →
      TlbStep s (.call tid op) { s with tables := Function.update s.tables tid (some ⟨t, H.ops ++ [op]⟩) }
  | fill {s : TlbSystem} {cpu tid : ℕ} {H : PtHistory} {c : Cp0} :
      s.tables tid = some H → (s.cpus cpu).tlbFill (some H.table) = .ok c →
      TlbStep s (.fill cpu tid)
        { s with cpus := Function.update s.cpus cpu c
                 filled := Function.update s.filled cpu (some (tid, H.ops)) }

/-- At first the rows belong to no thread. -/
def TlbInit (s : TlbSystem) : Prop :=
  s.tables = (fun _ => none) ∧ s.filled = (fun _ => none) ∧
    ∀ cpu i, ((s.cpus cpu).rows i).asid = 0 ∧ ((s.cpus cpu).rows i).global = false

abbrev TlbReachable : TlbSystem → Prop := Reach TlbInit TlbStep

/-! ## Writing the rows -/

section

variable {c : Cp0} {entries : ℕ → TlbEntry}

theorem Cp0.tlbGetMaxindex_le (c : Cp0) : c.tlbGetMaxindex.toNat ≤ 63 := by
  unfold Cp0.tlbGetMaxindex
  rw [BitVec.toNat_and]
  exact Nat.and_le_right

/-- The test on the index, for the indices that occur. -/
theorem slt_sub_zero {t a : BitVec 32} (ht : t.toNat ≤ 63) (ha : a.toNat ≤ t.toNat + 1) :
    (t - a).slt 0#32 = true ↔ a.toNat = t.toNat + 1 := by
  rw [BitVec.slt_zero_eq_msb, BitVec.msb_eq_decide, decide_eq_true_eq, BitVec.toNat_sub]
  omega

/-- The loop writes the rows from its index on, up to the last one of the TLB. -/
theorem Cp0.tlbWriteOne_spec {t1 : BitVec 32} (ht : t1.toNat ≤ 63) {num k : ℕ} {a1 v0 : BitVec 32}
    (ha : a1.toNat ≤ t1.toNat + 1) :
    (tlbWriteOne t1 entries num k a1 v0 c).1.conf1 = c.conf1 ∧
      ∀ i, (tlbWriteOne t1 entries num k a1 v0 c).1.rows i
        = if a1.toNat ≤ i ∧ i < a1.toNat + num ∧ i ≤ t1.toNat then entries (k + (i - a1.toNat))
          else c.rows i := by
  induction num generalizing k a1 v0 c with
  | zero =>
      refine ⟨rfl, fun i => ?_⟩
      rw [if_neg (by omega)]
      rfl
  | succ num ih =>
      unfold tlbWriteOne
      by_cases hend : a1.toNat = t1.toNat + 1
      · rw [if_pos ((slt_sub_zero ht ha).2 hend)]
        refine ⟨rfl, fun i => ?_⟩
        rw [if_neg (by omega)]
      · have hnext : (a1 + 1).toNat = a1.toNat + 1 := by
          rw [BitVec.toNat_add]
          change (a1.toNat + 1) % 2 ^ 32 = a1.toNat + 1
          omega
        rw [if_neg (mt (slt_sub_zero ht ha).1 hend)]
        obtain ⟨hconf, hrows⟩ := @ih (tlbwi { c with index := a1, vpn2 := (entries k).vpn2
                                                     asid := (entries k).asid, entrLo0 := (entries k).even
                                                     entrLo1 := (entries k).odd })
          (k + 1) (a1 + 1) (v0 + 1) (by omega)
        refine ⟨hconf, fun i => (hrows i).trans ?_⟩
        rw [hnext]
        by_cases hfirst : i = a1.toNat
        · rw [if_neg (by omega), if_pos (by omega), hfirst, Nat.sub_self, Nat.add_zero]
          exact Function.update_self ..
        · by_cases hi : a1.toNat + 1 ≤ i ∧ i < a1.toNat + 1 + num ∧ i ≤ t1.toNat
          · rw [if_pos hi, if_pos (by omega), show k + 1 + (i - (a1.toNat + 1)) = k + (i - a1.toNat) by omega]
          · rw [if_neg hi, if_neg (by omega)]
            exact Function.update_of_ne hfirst ..

/-- `tlb_fill` returns if the rows of the TLB are enough. -/
theorem Cp0.tlbFill_some {t : Pagetable} (hcount : t.validCount ≤ pagetableEntries) :
    c.tlbFill (some t) = if t.validCount ≤ c.tlbGetMaxindex.toNat + 1 then
      .ok ((c.tlbWrite t.entries 0 (BitVec.ofNat 32 t.validCount)).1.tlbSetAsid t.asid)
      else .error .assertion := by
  have hmax := c.tlbGetMaxindex_le
  have hsucc : (c.tlbGetMaxindex + 1).toNat = c.tlbGetMaxindex.toNat + 1 := by
    rw [BitVec.toNat_add]
    change (c.tlbGetMaxindex.toNat + 1) % 2 ^ 32 = _
    omega
  have hnat : (BitVec.ofNat 32 t.validCount).toNat = t.validCount := by
    unfold pagetableEntries at hcount
    rw [BitVec.toNat_ofNat]
    omega
  simp only [tlbFill, hnat, hsucc]
  by_cases hle : t.validCount ≤ c.tlbGetMaxindex.toNat + 1
  · simp [kernelAssert, hle, bind, Except.bind, pure, Except.pure]
  · simp [kernelAssert, hle, bind, Except.bind]

/-- The rows that the table has entries for are these entries then, the others are as they were. -/
theorem Cp0.tlbFill_spec {t : Pagetable} {c' : Cp0} (hcount : t.validCount ≤ pagetableEntries)
    (h : c.tlbFill (some t) = .ok c') :
    t.validCount ≤ c.tlbGetMaxindex.toNat + 1 ∧ c'.conf1 = c.conf1 ∧ c'.asid = t.asid.setWidth 8 ∧
      ∀ i, c'.rows i = if i < t.validCount then t.entries i else c.rows i := by
  have hmax := c.tlbGetMaxindex_le
  rw [tlbFill_some hcount] at h
  split at h
  case isFalse => cases h
  next hle =>
  cases h
  have hnum : (BitVec.ofNat 32 t.validCount).toInt.toNat = t.validCount := by
    unfold pagetableEntries at hcount
    rw [BitVec.toInt_eq_toNat_of_lt] <;> rw [BitVec.toNat_ofNat] <;> omega
  obtain ⟨hconf, hrows⟩ := @tlbWriteOne_spec c t.entries _ hmax t.validCount 0 0 0 (Nat.zero_le _)
  unfold tlbWrite
  rw [hnum]
  refine ⟨hle, hconf, rfl, fun i => (hrows i).trans ?_⟩
  change (if 0 ≤ i ∧ i < 0 + t.validCount ∧ _ then t.entries (0 + (i - 0)) else _) = _
  by_cases hi : i < t.validCount
  · rw [if_pos (by omega), if_pos hi, Nat.zero_add, Nat.sub_zero]
  · rw [if_neg (by omega), if_neg hi]

end

/-! ## Operations on a table -/

section

variable {asid : BitVec 32} {t t' : Pagetable} {m : Mapping}

/-- What is kept of a table beside its mapping: it fits on its page, and its entries are not global. -/
structure SoundEntries (t : Pagetable) : Prop where
  count : t.validCount ≤ pagetableEntries
  notGlobal : ∀ i < t.validCount, (t.entries i).global = false

theorem SoundEntries.setEntry (h : SoundEntries t) {i : ℕ} {e : TlbEntry} (he : e.global = false) :
    SoundEntries (t.setEntry i e) := by
  refine ⟨h.count, fun j hj => ?_⟩
  change (Function.update t.entries i e j).global = false
  by_cases hji : j = i
  · rw [hji, Function.update_self, he]
  · rw [Function.update_of_ne hji]
    exact h.notGlobal j hj

theorem SoundEntries.addEntry (h : SoundEntries t) {e : TlbEntry} (hroom : t.validCount < pagetableEntries)
    (he : e.global = false) : SoundEntries (t.addEntry e) := by
  refine ⟨hroom, fun j hj => ?_⟩
  change (Function.update t.entries t.validCount e j).global = false
  by_cases hji : j = t.validCount
  · rw [hji, Function.update_self, he]
  · rw [Function.update_of_ne hji]
    have hj' : j < t.validCount + 1 := hj
    exact h.notGlobal j (by omega)

theorem global_setHalf (e : TlbEntry) {half : TlbHalf} (hg : half.g = false) (odd : Bool) :
    (e.setHalf half odd).global = false := by
  cases odd <;> simp [TlbEntry.setHalf, TlbEntry.global, hg]

theorem global_fill (e : TlbEntry) (asid : BitVec 32) (q : BitVec 19) {half : TlbHalf} (hg : half.g = false)
    (odd : Bool) : (e.fill asid q half odd).global = false := by
  cases odd <;> simp [TlbEntry.fill, TlbEntry.setHalf, TlbEntry.half, TlbEntry.global, hg]

/-- The bit that says whether a page is dirty is not the global one. -/
theorem global_setHalf_dirty (e : TlbEntry) (d odd : Bool) :
    (e.setHalf { e.half odd with d := d } odd).global = e.global := by
  cases odd <;> rfl

theorem vmMap_ok_entries (hs : SoundEntries t) {physaddr vaddr : BitVec 32} {flags : ℤ}
    (hok : vmMap t physaddr vaddr flags = .ok t') : SoundEntries t' ∧ t.validCount ≤ t'.validCount := by
  unfold vmMap kernelAssert at hok
  by_cases hflags : flags = 0 ∨ flags = 1
  · rw [if_pos hflags] at hok
    simp only [bind, Except.bind] at hok
    cases hi : findPair t (pagePair vaddr) with
    | some i =>
        simp only [hi] at hok
        split at hok
        · cases hok
        · cases hok
          exact ⟨hs.setEntry (global_setHalf _ rfl _), le_rfl⟩
    | none =>
        simp only [hi] at hok
        split at hok
        · cases hok
        · next hroom =>
            cases hok
            exact ⟨hs.addEntry (Nat.lt_of_not_le hroom) (global_fill _ _ _ rfl _), Nat.le_succ _⟩
  · rw [if_neg hflags] at hok
    cases hok

/-- A call of `vm_set_dirty` that returns is for a page that is mapped. -/
theorem vmSetDirty_ok_invariant (h : TableInvariant asid t m) (hs : SoundEntries t) {vaddr : BitVec 32}
    {dirty : ℤ} (hok : vmSetDirty t vaddr dirty = .ok t') :
    TableInvariant asid t' (PtOp.apply m (.setDirty vaddr dirty)) ∧ SoundEntries t' ∧
      t.validCount ≤ t'.validCount := by
  have hok' := hok
  unfold vmSetDirty kernelAssert at hok'
  by_cases hdirty : dirty = 0 ∨ dirty = 1
  · rw [if_pos hdirty] at hok'
    simp only [bind, Except.bind] at hok'
    cases hi : findPair t (pagePair vaddr) with
    | some i =>
        simp only [hi] at hok'
        split at hok'
        · next hv =>
            have hm : m (pagePair vaddr) (onOddPage vaddr) ≠ none := by
              rw [← h.lookup]
              unfold tlbLookup TlbHalf.mapping
              rw [hi, Option.bind_some, if_pos hv]
              simp
            obtain ⟨t'', hok'', hinv⟩ := vmSetDirty_invariant h hdirty hm
            cases hok.symm.trans hok''
            cases hok'
            have hlt := ((findPair_eq_some h.distinct).1 hi).1
            exact ⟨hinv, hs.setEntry ((global_setHalf_dirty _ _ _).trans (hs.notGlobal i hlt)), le_rfl⟩
        · cases hok'
    | none =>
        simp only [hi] at hok'
        cases hok'
  · rw [if_neg hdirty] at hok'
    cases hok'

/-- A call that returns leaves a sound table with as many entries, or one more, and with the mapping that was
asked for. -/
theorem exec_ok_invariant (h : TableInvariant asid t m) (hs : SoundEntries t) {op : PtOp}
    (hok : op.exec t = .ok t') :
    TableInvariant asid t' (op.apply m) ∧ SoundEntries t' ∧ t.validCount ≤ t'.validCount := by
  cases op with
  | map physaddr vaddr flags => exact ⟨(vmMap_ok_invariant h hok).2, vmMap_ok_entries hs hok⟩
  | setDirty vaddr dirty => exact vmSetDirty_ok_invariant h hs hok

end

/-! ## The invariant -/

/-- The table of a thread is sound and gives the mapping that its operations asked for. -/
structure ThreadTable (tid : ℕ) (H : PtHistory) : Prop where
  pos : 0 < tid
  lt : tid < configMaxThreads
  table : TableInvariant (.ofNat 32 tid) H.table (lastGiven H.ops)
  sound : SoundEntries H.table

/-- A row is not global, and if it is that of a thread then the table of the thread has an entry with this
number, which may be another one. -/
def OwnedRow (tables : ℕ → Option PtHistory) (i : ℕ) (row : TlbEntry) : Prop :=
  row.global = false ∧
    (row.asid ≠ 0 → ∃ tid H, tables tid = some H ∧ row.asid = .ofNat 8 tid ∧ i < H.table.validCount)

/-- A processor translates as the table was when it was put into the TLB. -/
structure Translates (c : Cp0) (tid : ℕ) (ops : List PtOp) : Prop where
  asid : c.asid = .ofNat 8 tid
  unambiguous : c.Unambiguous
  lookup : ∀ q odd, c.lookup q odd = lastGiven ops q odd

structure TlbInvariant (s : TlbSystem) : Prop where
  tables : ∀ tid H, s.tables tid = some H → ThreadTable tid H
  rows : ∀ cpu i, OwnedRow s.tables i ((s.cpus cpu).rows i)
  filled : ∀ cpu tid ops, s.filled cpu = some (tid, ops) →
    Translates (s.cpus cpu) tid ops ∧ ∃ H, s.tables tid = some H ∧ ops <+: H.ops

section

variable {s s' : TlbSystem} {tid : ℕ} {H H' : PtHistory}

theorem ofNat_inj {tid tid' : ℕ} (h : tid < configMaxThreads) (h' : tid' < configMaxThreads)
    (heq : BitVec.ofNat 8 tid = BitVec.ofNat 8 tid') : tid = tid' := by
  have hnat := congrArg BitVec.toNat heq
  unfold configMaxThreads at h h'
  rw [BitVec.toNat_ofNat, BitVec.toNat_ofNat] at hnat
  omega

theorem ofNat_ne_zero (hpos : 0 < tid) (h : tid < configMaxThreads) : BitVec.ofNat 8 tid ≠ 0 := by
  intro heq
  have := ofNat_inj h (by decide : 0 < configMaxThreads) heq
  omega

/-- A new table, or one that has grown, keeps the rows owned. -/
theorem OwnedRow.update {tables : ℕ → Option PtHistory} {i : ℕ} {row : TlbEntry} (h : OwnedRow tables i row)
    (hgrow : ∀ H, tables tid = some H → H.table.validCount ≤ H'.table.validCount) :
    OwnedRow (Function.update tables tid (some H')) i row := by
  refine ⟨h.1, fun hasid => ?_⟩
  obtain ⟨tid', H, hH, hrow, hi⟩ := h.2 hasid
  by_cases htid : tid' = tid
  · subst htid
    exact ⟨tid', H', Function.update_self .., hrow, hi.trans_le (hgrow H hH)⟩
  · exact ⟨tid', H, by rw [Function.update_of_ne htid, hH], hrow, hi⟩

/-- The rows of a processor after `tlb_fill`: those of the thread are the entries of its table, all of them,
and nothing else. -/
theorem translates_of_fill (hinv : TlbInvariant s) (hH : s.tables tid = some H) {cpu : ℕ} {c : Cp0}
    (h : (s.cpus cpu).tlbFill (some H.table) = .ok c) : Translates c tid H.ops := by
  obtain ⟨hpos, hlt, htable, hsound⟩ := hinv.tables tid H hH
  obtain ⟨hle, hconf, hasid, hrows⟩ := Cp0.tlbFill_spec hsound.count h
  have hasid' : c.asid = .ofNat 8 tid := by
    rw [hasid, htable.asid_eq]
    unfold configMaxThreads at hlt
    apply BitVec.eq_of_toNat_eq
    rw [BitVec.toNat_setWidth, BitVec.toNat_ofNat, BitVec.toNat_ofNat]
    omega
  have hisFor : ∀ q i, c.IsFor q i ↔ i < H.table.validCount ∧ (H.table.entries i).vpn2 = q := by
    intro q i
    unfold Cp0.IsFor
    rw [hrows i, hasid']
    by_cases hi : i < H.table.validCount
    · rw [if_pos hi]
      refine ⟨fun hfor => ⟨hi, hfor.1⟩, fun hfor => ⟨hfor.2, Or.inl ?_⟩⟩
      rw [htable.asids i hi, ← htable.asid_eq, ← hasid, hasid']
    · rw [if_neg hi]
      refine ⟨fun hfor => ?_, fun hfor => absurd hfor.1 hi⟩
      -- an old row of the thread would be below the number of its entries
      obtain ⟨hglobal, howned⟩ := hinv.rows cpu i
      rcases hfor.2 with hown | hg
      · obtain ⟨tid', H', hH', hrow, hi'⟩ := howned (by rw [hown]; exact ofNat_ne_zero hpos hlt)
        have htid := ofNat_inj (hinv.tables tid' H' hH').lt hlt (hrow.symm.trans hown)
        rw [htid, hH] at hH'
        cases hH'
        exact absurd hi' hi
      · rw [hglobal] at hg
        cases hg
  refine ⟨hasid', fun q i j _ _ hi hj => ?_, fun q odd => ?_⟩
  · rw [hisFor] at hi hj
    exact htable.distinct i j hi.1 hj.1 (hi.2.trans hj.2.symm)
  · have hmax : c.tlbGetMaxindex = (s.cpus cpu).tlbGetMaxindex := by
      unfold Cp0.tlbGetMaxindex
      rw [hconf]
    rw [← htable.lookup]
    unfold Cp0.lookup tlbLookup
    cases hfind : findPair H.table q with
    | none =>
        rw [findPair_eq_none] at hfind
        have hnone : ((List.range (c.tlbGetMaxindex.toNat + 1)).find? fun i => c.IsFor q i) = none := by
          rw [List.find?_eq_none]
          intro i _ hi
          have := (hisFor q i).1 (of_decide_eq_true hi)
          exact hfind i this.1 this.2
        rw [hnone, Option.bind_none, Option.bind_none]
    | some i =>
        have hi := (findPair_eq_some htable.distinct).1 hfind
        have hsome : ((List.range (c.tlbGetMaxindex.toNat + 1)).find? fun i => c.IsFor q i) = some i := by
          rw [List.find?_range_eq_some, List.mem_range, decide_eq_true_eq, hisFor, hmax]
          refine ⟨hi, by omega, fun j hj => ?_⟩
          rw [Bool.not_eq_true', decide_eq_false_iff_not, hisFor]
          rintro ⟨hj', hjq⟩
          have := htable.distinct i j hi.1 hj' (hi.2.trans hjq.symm)
          omega
        rw [hsome, Option.bind_some, Option.bind_some, hrows i, if_pos hi.1]

/-- The tables of the other threads stay, and that of this one keeps its operations. -/
theorem TlbInvariant.setTable (hinv : TlbInvariant s) (hnew : ThreadTable tid H')
    (hgrow : ∀ H, s.tables tid = some H → H.table.validCount ≤ H'.table.validCount ∧ H.ops <+: H'.ops) :
    TlbInvariant { s with tables := Function.update s.tables tid (some H') } := by
  refine ⟨fun tid' H hH => ?_, fun cpu i => ?_, fun cpu tid' ops hfilled => ?_⟩
  · by_cases htid : tid' = tid
    · subst htid
      cases (Function.update_self ..).symm.trans hH
      exact hnew
    · exact hinv.tables tid' H ((Function.update_of_ne htid ..).symm.trans hH)
  · exact (hinv.rows cpu i).update fun H hH => (hgrow H hH).1
  · obtain ⟨htranslates, H, hH, hprefix⟩ := hinv.filled cpu tid' ops hfilled
    refine ⟨htranslates, ?_⟩
    by_cases htid : tid' = tid
    · subst htid
      exact ⟨H', Function.update_self .., hprefix.trans (hgrow H hH).2⟩
    · exact ⟨H, (Function.update_of_ne htid ..).trans hH, hprefix⟩

theorem TlbStep.invariant {a : TlbAction} (hinv : TlbInvariant s) (hstep : TlbStep s a s') :
    TlbInvariant s' := by
  cases hstep with
  | @create tid mem hpos hlt hnone =>
      refine hinv.setTable ⟨hpos, hlt, vmCreatePagetable_invariant mem _, Nat.zero_le _, ?_⟩ ?_
      · intro i hi
        exact absurd hi (Nat.not_lt_zero i)
      · intro H hH
        rw [hnone] at hH
        cases hH
  | @call tid op H t hH hok =>
      obtain ⟨hpos, hlt, htable, hsound⟩ := hinv.tables tid H hH
      obtain ⟨htable', hsound', hcount⟩ := exec_ok_invariant htable hsound hok
      refine hinv.setTable ⟨hpos, hlt, ?_, hsound'⟩ ?_
      · rw [lastGiven_concat]
        exact htable'
      · intro H' hH'
        cases hH.symm.trans hH'
        exact ⟨hcount, List.prefix_append ..⟩
  | @fill cpu tid H c hH hok =>
      have hsound := (hinv.tables tid H hH).sound
      obtain ⟨-, -, -, hrows⟩ := Cp0.tlbFill_spec hsound.count hok
      refine ⟨hinv.tables, fun cpu' i => ?_, fun cpu' tid' ops hfilled => ?_⟩
      · by_cases hcpu : cpu' = cpu
        · subst hcpu
          change OwnedRow s.tables i ((Function.update s.cpus cpu' c cpu').rows i)
          rw [Function.update_self, hrows]
          split
          · next hi =>
              obtain ⟨-, hlt, htable, -⟩ := hinv.tables tid H hH
              refine ⟨hsound.notGlobal i hi, fun _ => ⟨tid, H, hH, ?_, hi⟩⟩
              rw [htable.asids i hi]
              apply BitVec.eq_of_toNat_eq
              unfold configMaxThreads at hlt
              rw [BitVec.toNat_setWidth, BitVec.toNat_ofNat, BitVec.toNat_ofNat]
              omega
          · exact hinv.rows cpu' i
        · change OwnedRow s.tables i ((Function.update s.cpus cpu c cpu').rows i)
          rw [Function.update_of_ne hcpu]
          exact hinv.rows cpu' i
      · by_cases hcpu : cpu' = cpu
        · subst hcpu
          have hfilled' := (Function.update_self ..).symm.trans hfilled
          cases hfilled'
          change Translates (Function.update s.cpus cpu' c cpu') tid H.ops ∧ _
          rw [Function.update_self]
          exact ⟨translates_of_fill hinv hH hok, H, hH, List.prefix_refl _⟩
        · have hfilled' := (Function.update_of_ne hcpu ..).symm.trans hfilled
          change Translates (Function.update s.cpus cpu c cpu') tid' ops ∧ _
          rw [Function.update_of_ne hcpu]
          exact hinv.filled cpu' tid' ops hfilled'

theorem TlbReachable.invariant (h : TlbReachable s) : TlbInvariant s := by
  refine Reach.invariant (fun s hinit => ?_) (fun s a s' hinv hstep => hstep.invariant hinv) h
  obtain ⟨htables, hfilled, hrows⟩ := hinit
  refine ⟨fun tid H hH => ?_, fun cpu i => ⟨(hrows cpu i).2, fun hasid => absurd (hrows cpu i).1 hasid⟩,
    fun cpu tid ops hf => ?_⟩
  · rw [htables] at hH
    cases hH
  · rw [hfilled] at hf
    cases hf

/-- In every run of any number of processors, whatever rows other threads have left in their TLBs: a processor
translates every page as the table did that it has put into its TLB last, with one row at most for each pair of
pages; what is not mapped there is not found. A table can be put into the TLB of a processor if it has no more
entries than this has rows. -/
theorem tlbReachable_translates (s : TlbSystem) (h : TlbReachable s) (cpu : ℕ) :
    (∀ tid ops, s.filled cpu = some (tid, ops) →
      (s.cpus cpu).asid = .ofNat 8 tid ∧ (s.cpus cpu).Unambiguous ∧
      (∀ vaddr, (s.cpus cpu).lookup (pagePair vaddr) (onOddPage vaddr)
        = lastGiven ops (pagePair vaddr) (onOddPage vaddr)) ∧
      ∃ H, s.tables tid = some H ∧ ops <+: H.ops) ∧
    ∀ tid H, s.tables tid = some H →
      ((∃ c, (s.cpus cpu).tlbFill (some H.table) = .ok c)
        ↔ H.table.validCount ≤ (s.cpus cpu).tlbGetMaxindex.toNat + 1) := by
  have hinv := h.invariant
  refine ⟨fun tid ops hfilled => ?_, fun tid H hH => ?_⟩
  · obtain ⟨htranslates, hH⟩ := hinv.filled cpu tid ops hfilled
    exact ⟨htranslates.asid, htranslates.unambiguous, fun vaddr => htranslates.lookup _ _, hH⟩
  · rw [Cp0.tlbFill_some (hinv.tables tid H hH).sound.count]
    split
    · next hle => exact ⟨fun _ => hle, fun _ => ⟨_, rfl⟩⟩
    · next hle => exact ⟨fun ⟨_, hok⟩ => (by cases hok), fun hle' => absurd hle' hle⟩

/-- Two threads in turn on one processor. The first has a row more, which the second must not find. -/
theorem tlbReachable_translates_twoThreads :
    ∃ s : TlbSystem, TlbReachable s ∧ s.filled 0 = some (2, [.map 0x7000 0x3000 1]) ∧
      (s.cpus 0).lookup (pagePair 0x3000) (onOddPage 0x3000) = some (7, true) ∧
      (s.cpus 0).lookup (pagePair 0x8000) (onOddPage 0x8000) = none := by
  let row : TlbEntry := ⟨0, 0, ⟨0, false, false, false⟩, ⟨0, false, false, false⟩⟩
  let cp0 : Cp0 := ⟨0x1e000000, 0, 0, 0, ⟨0, false, false, false⟩, ⟨0, false, false, false⟩, fun _ => row⟩
  have h0 : TlbReachable ⟨fun _ => cp0, fun _ => none, fun _ => none⟩ :=
    .init ⟨rfl, rfl, fun _ _ => ⟨rfl, rfl⟩⟩
  have h1 := Reach.step _ h0 (@TlbStep.create _ 1 (fun _ => row) (by decide) (by decide) rfl)
  have h2 := Reach.step _ h1 (@TlbStep.call _ 1 (.map 0x5000 0x3000 1) _ _ rfl rfl)
  have h3 := Reach.step _ h2 (@TlbStep.call _ 1 (.map 0x6000 0x8000 1) _ _ rfl rfl)
  obtain ⟨c, hc⟩ := ((tlbReachable_translates _ h3 0).2 1 _ rfl).2 (by decide +kernel)
  have h4 := Reach.step _ h3 (@TlbStep.fill _ 0 1 _ _ rfl hc)
  have h5 := Reach.step _ h4 (@TlbStep.create _ 2 (fun _ => row) (by decide) (by decide) rfl)
  have h6 := Reach.step _ h5 (@TlbStep.call _ 2 (.map 0x7000 0x3000 1) _ _ rfl rfl)
  obtain ⟨c', hc'⟩ := ((tlbReachable_translates _ h6 0).2 2 _ rfl).2 (Nat.le_add_left 1 _)
  have h7 := Reach.step _ h6 (@TlbStep.fill _ 0 2 _ _ rfl hc')
  obtain ⟨hfilled, -⟩ := tlbReachable_translates _ h7 0
  obtain ⟨-, -, hlookup, -⟩ := hfilled 2 [.map 0x7000 0x3000 1] rfl
  exact ⟨_, h7, rfl, hlookup 0x3000, hlookup 0x8000⟩

end

end Kudos.Mips32
