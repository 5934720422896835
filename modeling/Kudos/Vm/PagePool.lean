import Kudos.Lib.BitmapWords
import Kudos.Library.Counting
import Kudos.Library.Transition
import Mathlib.Algebra.Group.Nat.Defs

set_option autoImplicit false

/-! # The page pool of the mips32 kernel

The functions of `vm/mips32/mm_phys.c`. Physical pages are handed out by a bitmap, with a counter of
the pages that are left. How many pages the machine has, and how many of them the kernel takes up, are
parameters here. The lock is left out. -/

namespace Kudos.Mips32

open Transition Counting

/-- The variables of the module. -/
structure PagePool where
  /-- `physmem_free_pages`. -/
  freePages : BitmapWords
  numPages : ℕ
  numFreePages : ℤ
  staticEnd : ℕ

/-- `physmem_init`, where the memory of the bitmap has the contents `mem`. -/
def physmemInit (mem : BitmapWords) (numPages numResPages : ℕ) : PagePool where
  freePages := (List.range numResPages).foldl (fun b i => b.set i true) (BitmapWords.init mem numPages)
  numPages := numPages
  numFreePages := numPages - numResPages
  staticEnd := numResPages

/-- `physmem_allocblock`. -/
def physmemAllocblock (s : PagePool) : Except KernelFault (BitVec 32 × PagePool) :=
  if 0 < s.numFreePages then do
    let (i, freePages) := s.freePages.findnset s.numPages
    let numFreePages := s.numFreePages - 1
    kernelAssert (0 ≤ i ∧ 0 ≤ numFreePages)
    return (BitVec.ofInt 32 (i * 4096), { s with freePages, numFreePages })
  else return (0, s)

/-- `physmem_freeblock`. -/
def physmemFreeblock (s : PagePool) (ptr : BitVec 32) : Except KernelFault PagePool := do
  let i := ptr.toNat / 4096
  kernelAssert (s.staticEnd ≤ i)
  kernelAssert (s.freePages.get i)
  return { s with freePages := s.freePages.set i false, numFreePages := s.numFreePages + 1 }

/-! ## Runs -/

/-- The pool and the addresses that were returned and have not been freed. -/
structure PoolSystem where
  pool : PagePool
  allocated : List (BitVec 32)

inductive PoolCall
  | allocblock
  | freeblock (ptr : BitVec 32)

inductive PoolStep : PoolSystem → PoolCall → PoolSystem → Prop
  | allocblock {S : PoolSystem} {addr : BitVec 32} {pool : PagePool} :
      physmemAllocblock S.pool = .ok (addr, pool) →
      PoolStep S .allocblock ⟨pool, if addr = 0 then S.allocated else addr :: S.allocated⟩
  | freeblock {S : PoolSystem} {ptr : BitVec 32} {pool : PagePool} :
      ptr ∈ S.allocated → physmemFreeblock S.pool ptr = .ok pool →
      PoolStep S (.freeblock ptr) ⟨pool, S.allocated.erase ptr⟩

/-- The states after `physmem_init` and any calls. -/
abbrev PoolReachable (mem : BitmapWords) (numPages numResPages : ℕ) : PoolSystem → Prop :=
  Reach (fun S => S = ⟨physmemInit mem numPages numResPages, []⟩) PoolStep

/-- The number of zero bits among the first `n`. -/
def zeroBits (b : BitmapWords) (n : ℕ) : ℕ := countWhere (!·) fun p : Fin n => b.get p

/-! ## The invariant -/

/-- The address of a page. -/
def pageAddress (p : ℕ) : BitVec 32 := BitVec.ofNat 32 (p * 4096)

/-- A page is marked if it is reserved or in use, and the counter is right. The pages in use are `A`. -/
structure PoolInvariant (n res : ℕ) (S : PoolSystem) (A : List ℕ) : Prop where
  numPages : S.pool.numPages = n
  staticEnd : S.pool.staticEnd = res
  allocated : S.allocated = A.map pageAddress
  nodup : A.Nodup
  range : ∀ p ∈ A, res ≤ p ∧ p < n
  bits : ∀ p < n, (S.pool.freePages.get p = true ↔ p < res ∨ p ∈ A)
  count : S.pool.numFreePages = zeroBits S.pool.freePages n

section

variable {n res : ℕ} {S : PoolSystem} {A : List ℕ}

theorem toNat_pageAddress (hn : n ≤ 2 ^ 19) {p : ℕ} (hp : p < n) :
    (pageAddress p).toNat = p * 4096 := by
  unfold pageAddress
  rw [BitVec.toNat_ofNat, Nat.mod_eq_of_lt (by omega)]

theorem pageAddress_inj (hn : n ≤ 2 ^ 19) {p q : ℕ} (hp : p < n) (hq : q < n)
    (h : pageAddress p = pageAddress q) : p = q := by
  have hnat := congrArg BitVec.toNat h
  rw [toNat_pageAddress hn hp, toNat_pageAddress hn hq] at hnat
  omega

/-- Setting a bit that was not like that changes the number of zero bits by one. -/
theorem zeroBits_set (b : BitmapWords) {p : ℕ} (hp : p < n) {v : Bool} (hv : b.get p = !v) :
    (zeroBits (b.set p v) n : ℤ) = zeroBits b n + (if v then -1 else 1) := by
  have hfun : (fun q : Fin n => (b.set p v).get q)
      = Function.update (fun q : Fin n => b.get q) ⟨p, hp⟩ v := by
    funext q
    rw [b.get_set]
    by_cases hq : q = ⟨p, hp⟩
    · subst hq
      simp
    · have hne : (q : ℕ) ≠ p := fun h => hq (Fin.ext h)
      rw [if_neg hne, Function.update_of_ne hq]
  have hcount := countWhere_update (!·) (fun q : Fin n => b.get q) ⟨p, hp⟩ v
  unfold Counted at hcount
  unfold zeroBits
  rw [hfun, hcount, hv]
  cases v
  · simp
  · simp
    omega

/-- The bitmap after the first `k` pages were marked. -/
theorem get_foldl_set (b : BitmapWords) (k p : ℕ) :
    ((List.range k).foldl (fun b i => b.set i true) b).get p = (decide (p < k) || b.get p) := by
  induction k with
  | zero => simp
  | succ k ih =>
      rw [List.range_succ, List.foldl_append, List.foldl_cons, List.foldl_nil, BitmapWords.get_set, ih]
      by_cases hp : p = k
      · simp [hp]
      · have hiff : p < k + 1 ↔ p < k := by omega
        simp [hp, hiff]

theorem zeroBits_foldl_set (b : BitmapWords) {k : ℕ} (hk : k ≤ n) (hb : ∀ p < n, b.get p = false) :
    (zeroBits ((List.range k).foldl (fun b i => b.set i true) b) n : ℤ) = n - k := by
  induction k with
  | zero =>
      have hall : zeroBits b n = n := by
        unfold zeroBits countWhere
        rw [Finset.filter_true_of_mem fun p _ => by simp [hb p p.isLt]]
        simp
      simp [hall]
  | succ k ih =>
      have hbit : ((List.range k).foldl (fun b i => b.set i true) b).get k = !true := by
        rw [get_foldl_set, hb k (by omega)]
        simp
      rw [List.range_succ, List.foldl_append, List.foldl_cons, List.foldl_nil,
        zeroBits_set _ (by omega) hbit, ih (by omega)]
      simp
      omega

theorem physmemInit_invariant (mem : BitmapWords) (hle : res ≤ n) :
    PoolInvariant n res ⟨physmemInit mem n res, []⟩ [] where
  numPages := rfl
  staticEnd := rfl
  allocated := rfl
  nodup := List.nodup_nil
  range := by simp
  bits := by
    intro p hp
    show (List.foldl _ _ _ : BitmapWords).get p = true ↔ _
    rw [get_foldl_set, BitmapWords.get_init mem hp]
    simp
  count := (zeroBits_foldl_set _ hle fun _ hp => BitmapWords.get_init mem hp).symm

/-! ## The calls -/

theorem zeroBits_eq_zero_iff (b : BitmapWords) : zeroBits b n = 0 ↔ ∀ p < n, b.get p = true := by
  unfold zeroBits
  rw [countWhere_eq_zero]
  constructor
  · intro h p hp
    simpa using h ⟨p, hp⟩
  · intro h p
    simpa using h p p.isLt

/-- `physmem_allocblock` takes a page that is neither reserved nor in use, if there is one. -/
theorem physmemAllocblock_spec (h : PoolInvariant n res S A) :
    (∃ p pool, p ∉ A ∧ res ≤ p ∧ p < n ∧ physmemAllocblock S.pool = .ok (pageAddress p, pool) ∧
      PoolInvariant n res ⟨pool, pageAddress p :: S.allocated⟩ (p :: A)) ∨
    (physmemAllocblock S.pool = .ok (0, S.pool) ∧ ∀ p, res ≤ p → p < n → p ∈ A) := by
  unfold physmemAllocblock
  by_cases hzero : zeroBits S.pool.freePages n = 0
  · refine Or.inr ⟨?_, ?_⟩
    · rw [if_neg (by rw [h.count]; omega)]
      rfl
    · intro p hres hp
      have hbit := (zeroBits_eq_zero_iff S.pool.freePages).1 hzero p hp
      exact ((h.bits p hp).1 hbit).resolve_left (by omega)
  · rw [if_pos (by rw [h.count]; omega), h.numPages]
    rcases S.pool.freePages.findZero_spec n with ⟨p, hp, hbit, -, hfind⟩ | ⟨hfull, -⟩
    · have hfree : ¬ (p < res ∨ p ∈ A) := by
        rw [← h.bits p hp, hbit]
        simp
      rw [not_or] at hfree
      have hnext := zeroBits_set S.pool.freePages hp (v := true) hbit
      refine Or.inl ⟨p, ⟨S.pool.freePages.set p true, n, S.pool.numFreePages - 1, S.pool.staticEnd⟩,
        hfree.2, by omega, hp, ?_, ?_⟩
      · have hassert : (0 : ℤ) ≤ p ∧ 0 ≤ S.pool.numFreePages - 1 := by
          rw [h.count]
          omega
        have haddr : BitVec.ofInt 32 ((p : ℤ) * 4096) = pageAddress p := by
          rw [pageAddress, ← BitVec.ofInt_natCast, Int.natCast_mul]
          rfl
        rw [BitmapWords.findnset, hfind]
        simp only [kernelAssert, if_pos hassert, haddr]
        rfl
      · refine ⟨rfl, h.staticEnd, ?_, List.nodup_cons.2 ⟨hfree.2, h.nodup⟩, ?_, ?_, ?_⟩
        · rw [List.map_cons, h.allocated]
        · exact List.forall_mem_cons.2 ⟨⟨by omega, hp⟩, h.range⟩
        · intro q hq
          show (S.pool.freePages.set p true).get q = true ↔ _
          rw [BitmapWords.get_set, List.mem_cons]
          by_cases hqp : q = p
          · simp [hqp]
          · simp [hqp, h.bits q hq]
        · show S.pool.numFreePages - 1 = _
          rw [hnext, h.count]
          simp
          omega
    · exact absurd ((zeroBits_eq_zero_iff _).2 hfull) hzero

theorem map_erase_pageAddress {p : ℕ} (hinj : ∀ q ∈ A, pageAddress q = pageAddress p → q = p) :
    (A.erase p).map pageAddress = (A.map pageAddress).erase (pageAddress p) := by
  induction A with
  | nil => rfl
  | cons q A ih =>
      rw [List.forall_mem_cons] at hinj
      by_cases hq : q = p
      · rw [hq, List.map_cons, List.erase_cons_head, List.erase_cons_head]
      · have hne : pageAddress q ≠ pageAddress p := fun heq => hq (hinj.1 heq)
        rw [List.map_cons, List.erase_cons_tail (by simpa using hq), List.map_cons,
          List.erase_cons_tail (by simpa using hne), ih hinj.2]

theorem physmemFreeblock_spec (hn : n ≤ 2 ^ 19) (h : PoolInvariant n res S A) {p : ℕ} (hp : p ∈ A) :
    ∃ pool, physmemFreeblock S.pool (pageAddress p) = .ok pool ∧
      PoolInvariant n res ⟨pool, S.allocated.erase (pageAddress p)⟩ (A.erase p) := by
  obtain ⟨hres, hlt⟩ := h.range p hp
  have hindex : (pageAddress p).toNat / 4096 = p := by
    rw [toNat_pageAddress hn hlt, Nat.mul_div_cancel p (by decide)]
  have hbit : S.pool.freePages.get p = true := (h.bits p hlt).2 (Or.inr hp)
  have hnext := zeroBits_set S.pool.freePages hlt (v := false) hbit
  refine ⟨⟨S.pool.freePages.set p false, S.pool.numPages, S.pool.numFreePages + 1, S.pool.staticEnd⟩,
    ?_, ⟨h.numPages, h.staticEnd, ?_, h.nodup.erase p, ?_, ?_, ?_⟩⟩
  · have hstatic : S.pool.staticEnd ≤ p := by rwa [h.staticEnd]
    simp only [physmemFreeblock, hindex, kernelAssert, if_pos hstatic, if_pos hbit, bind, Except.bind,
      pure, Except.pure]
  · have hinj : ∀ q ∈ A, pageAddress q = pageAddress p → q = p :=
      fun q hq heq => pageAddress_inj hn (h.range q hq).2 hlt heq
    show S.allocated.erase _ = _
    rw [h.allocated, map_erase_pageAddress hinj]
  · exact fun q hq => h.range q (List.mem_of_mem_erase hq)
  · intro q hq
    show (S.pool.freePages.set p false).get q = true ↔ _
    rw [BitmapWords.get_set, h.nodup.mem_erase_iff]
    by_cases hqp : q = p
    · subst hqp
      simp
      omega
    · simp [hqp, h.bits q hq]
  · show S.pool.numFreePages + 1 = _
    rw [hnext, h.count]
    simp

/-! ## The law of the pool -/

theorem poolReachable_invariant {mem : BitmapWords} (hres : 1 ≤ res) (hle : res ≤ n)
    (hn : n ≤ 2 ^ 19) (h : PoolReachable mem n res S) : ∃ A, PoolInvariant n res S A := by
  refine Reach.invariant (I := fun S => ∃ A, PoolInvariant n res S A) ?_ ?_ h
  · rintro S rfl
    exact ⟨[], physmemInit_invariant mem hle⟩
  · rintro S c S' ⟨A, hA⟩ hstep
    cases hstep with
    | allocblock halloc =>
        rcases physmemAllocblock_spec hA with ⟨p, pool, -, hp, hlt, hok, hnext⟩ | ⟨hok, -⟩
        · cases halloc.symm.trans hok
          have hne : pageAddress p ≠ 0 := by
            intro heq
            have hnat := congrArg BitVec.toNat heq
            rw [toNat_pageAddress hn hlt] at hnat
            simp at hnat
            omega
          rw [if_neg hne]
          exact ⟨p :: A, hnext⟩
        · cases halloc.symm.trans hok
          rw [if_pos rfl]
          exact ⟨A, hA⟩
    | freeblock hmem hfree =>
        rw [hA.allocated] at hmem
        obtain ⟨p, hp, rfl⟩ := List.mem_map.1 hmem
        obtain ⟨pool, hok, hnext⟩ := physmemFreeblock_spec hn hA hp
        cases hfree.symm.trans hok
        exact ⟨A.erase p, hnext⟩

/-- **The law of the page pool.** In every state of a run the counter is the number of free pages;
    `physmem_allocblock` returns a page of its own or, when all pages are in use, 0; and no assertion
    fails. -/
theorem poolReachable_law {mem : BitmapWords} (hres : 1 ≤ res) (hle : res ≤ n) (hn : n ≤ 2 ^ 19)
    (h : PoolReachable mem n res S) :
    S.pool.numFreePages = zeroBits S.pool.freePages S.pool.numPages ∧
    (∃ addr pool, physmemAllocblock S.pool = .ok (addr, pool) ∧
      (addr ≠ 0 → addr.toNat % 4096 = 0 ∧ S.pool.staticEnd * 4096 ≤ addr.toNat ∧
        addr.toNat < S.pool.numPages * 4096 ∧ addr ∉ S.allocated) ∧
      (addr = 0 ↔ ∀ p, S.pool.staticEnd ≤ p → p < S.pool.numPages →
        BitVec.ofNat 32 (p * 4096) ∈ S.allocated)) ∧
    (∀ ptr ∈ S.allocated, ∃ pool, physmemFreeblock S.pool ptr = .ok pool) := by
  obtain ⟨A, hA⟩ := poolReachable_invariant hres hle hn h
  rw [hA.numPages, hA.staticEnd]
  have hmem : ∀ p < n, pageAddress p ∈ S.allocated ↔ p ∈ A := by
    intro p hp
    rw [hA.allocated, List.mem_map]
    constructor
    · rintro ⟨q, hq, heq⟩
      rwa [← pageAddress_inj hn (hA.range q hq).2 hp heq]
    · exact fun hpA => ⟨p, hpA, rfl⟩
  refine ⟨hA.count, ?_, ?_⟩
  · rcases physmemAllocblock_spec hA with ⟨p, pool, hnew, hp, hlt, hok, -⟩ | ⟨hok, hall⟩
    · have hnat := toNat_pageAddress hn hlt
      refine ⟨pageAddress p, pool, hok, fun _ => ?_, ?_⟩
      · rw [hnat, hmem p hlt]
        exact ⟨by omega, by omega, by omega, hnew⟩
      · refine iff_of_false ?_ ?_
        · intro heq
          rw [heq] at hnat
          simp at hnat
          omega
        · exact fun hall => hnew ((hmem p hlt).1 (hall p hp hlt))
    · refine ⟨0, S.pool, hok, fun hne => absurd rfl hne, ?_⟩
      exact iff_of_true rfl fun p hp hlt => (hmem p hlt).2 (hall p hp hlt)
  · intro ptr hptr
    rw [hA.allocated] at hptr
    obtain ⟨p, hp, rfl⟩ := List.mem_map.1 hptr
    obtain ⟨pool, hok, -⟩ := physmemFreeblock_spec hn hA hp
    exact ⟨pool, hok⟩

/-- A pool of three pages, one of them reserved, from which one page was taken. -/
theorem poolReachable_law_threePages :
    ∃ S, PoolReachable (fun _ => 7) 3 1 S ∧ S.allocated = [0x1000#32] ∧
      S.pool.numFreePages = zeroBits S.pool.freePages S.pool.numPages := by
  have hstart : PoolReachable (fun _ => 7) 3 1 ⟨physmemInit (fun _ => 7) 3 1, []⟩ := .init rfl
  have halloc : physmemAllocblock (physmemInit (fun _ => 7) 3 1)
      = .ok (0x1000#32, ⟨(physmemInit (fun _ => 7) 3 1).freePages.set 1 true, 3, 1, 1⟩) := rfl
  have hnext := hstart.step _ (.allocblock halloc)
  exact ⟨_, hnext, rfl, (poolReachable_law (by decide) (by decide) (by decide) hnext).1⟩

end

end Kudos.Mips32
