import Kudos.Userland.HeapInvariant

set_option autoImplicit false

/-! # How much `malloc` and `calloc` return

The tests of `malloc` are made on `int`s and on sizes modulo the range of `size_t`. For a request of
modest size they say what they should; for a huge one a block may be accepted that is too small
(`Accepts`). Nor does `calloc` see that its product has wrapped. Both give enough bytes exactly if no
free block is accepted that has too little room (`allocates_iff`). -/

namespace Kudos.Userland

open CInt

namespace HeapLayout

variable {A : HeapLayout} {h : Heap}

/-- The tests of `malloc` accept a free block of `k` bytes for a request of `size` bytes. -/
def Accepts (A : HeapLayout) (size k : ℕ) : Prop :=
  size ≠ 0 ∧
    (wrap32 (A.sizeT (k - A.roundSize size - A.w)) ≥ wrap32 (A.minAllocSize + A.w) ∨
      k ≥ A.sizeT (A.roundSize size + A.w))

instance (A : HeapLayout) (size k : ℕ) : Decidable (A.Accepts size k) :=
  inferInstanceAs (Decidable (_ ∧ _))

/-- Requests that do not come near the limits of `int` get what they ask for. -/
theorem Accepts.room {size k : ℕ} (hsize : size ≤ 2 ^ 30) (hk : k ≤ heapSize) (h : A.Accepts size k) :
    size + A.w ≤ k := by
  obtain ⟨hlo, hle, hhi⟩ := roundSize_spec (A := A) hsize
  rcases h.2 with hcut | hfit
  · have := (cuttable_iff hk hhi).1 hcut
    omega
  · have hrange := A.range_le
    have hw := A.w_le
    have hroom : A.sizeT (A.roundSize size + A.w) = A.roundSize size + A.w := by
      exact_mod_cast sizeT_of_lt (A := A) (by omega)
    omega

/-- The walk through the list ends at the first block that is accepted. -/
theorem mallocLoop_cases {free used pre post : List (ℕ × ℕ)} {size n prev block : ℕ}
    (hs : A.Settled h free used) (hsize : size ≠ 0) (hfree : free = pre ++ post)
    (hblock : Chain.Linked (A.next h) block (post.map Prod.fst) 0) (hn : post.length < n) :
    ((∀ b ∈ post, ¬ A.Accepts size b.2) ∧
      A.mallocLoop h (A.roundSize size) n prev block = some (0, h)) ∨
    ((∃ b ∈ post, A.Accepts size b.2) ∧
      ∃ ptr h', A.mallocLoop h (A.roundSize size) n prev block = some (ptr, h') ∧ ptr ≠ 0) := by
  induction post generalizing pre prev block n with
  | nil =>
      obtain ⟨n, rfl⟩ : ∃ m, n = m + 1 := ⟨n - 1, by omega⟩
      refine Or.inl ⟨fun b hb => absurd hb List.not_mem_nil, ?_⟩
      rw [mallocLoop, if_pos (show block = 0 from hblock)]
  | cons c post ih =>
      obtain ⟨n, rfl⟩ : ∃ m, n = m + 1 := ⟨n - 1, by omega⟩
      obtain ⟨rfl, hrest⟩ := hblock
      have hmem : c ∈ free ++ used :=
        List.mem_append_left _ (hfree ▸ List.mem_append_right _ List.mem_cons_self)
      have hne := hs.blocks.addr_ne_zero hmem
      have hw := A.w_pos
      rw [mallocLoop, if_neg hne, hs.blocks.sizes c hmem]
      by_cases hcut : wrap32 (A.sizeT (c.2 - A.roundSize size - A.w)) ≥ wrap32 (A.minAllocSize + A.w)
      · rw [if_pos hcut]
        exact Or.inr ⟨⟨c, List.mem_cons_self, hsize, Or.inl hcut⟩, _, _, rfl, by omega⟩
      · rw [if_neg hcut]
        by_cases hfit : c.2 ≥ A.sizeT (A.roundSize size + A.w)
        · rw [if_pos hfit]
          exact Or.inr ⟨⟨c, List.mem_cons_self, hsize, Or.inr hfit⟩, _, _, rfl, by omega⟩
        · rw [if_neg hfit]
          rw [List.length_cons] at hn
          have hfree' : free = pre ++ [c] ++ post := by
            rw [hfree, List.append_cons]
          rcases ih (n := n) hfree' hrest (by omega) with ⟨hnone, hnull⟩ | ⟨⟨b, hb, hacc⟩, hgot⟩
          · refine Or.inl ⟨List.forall_mem_cons.2 ⟨fun hc => ?_, hnone⟩, hnull⟩
            exact hc.2.elim hcut hfit
          · exact Or.inr ⟨⟨b, List.mem_cons_of_mem _ hb, hacc⟩, hgot⟩

theorem malloc_cases {free used : List (ℕ × ℕ)} (hs : A.Settled h free used) (size : ℕ) :
    ((∀ b ∈ free, ¬ A.Accepts size b.2) ∧ A.malloc h size = some (0, h)) ∨
    ((∃ b ∈ free, A.Accepts size b.2) ∧ ∃ ptr h', A.malloc h size = some (ptr, h') ∧ ptr ≠ 0) := by
  unfold malloc
  by_cases hsize : size = 0
  · rw [if_pos hsize]
    exact Or.inl ⟨fun b _ hacc => hacc.1 hsize, rfl⟩
  · rw [if_neg hsize]
    have hlen := hs.length_free
    exact mallocLoop_cases hs hsize (List.nil_append free).symm hs.blocks.links (by omega)

theorem zeroBytes_apply (mem : ℕ → UInt8) (ptr n x : ℕ) :
    zeroBytes mem ptr n x = if ptr ≤ x ∧ x < ptr + n then 0 else mem x := by
  induction n with
  | zero =>
      rw [if_neg (by omega)]
      rfl
  | succ n ih =>
      unfold zeroBytes
      by_cases hx : x = ptr + n
      · rw [hx, Function.update_self, if_pos (by omega)]
      · rw [Function.update_of_ne hx, ih]
        by_cases hin : ptr ≤ x ∧ x < ptr + n
        · rw [if_pos hin, if_pos (by omega)]
        · rw [if_neg hin, if_neg (by omega)]

end HeapLayout

/-- What an allocation of `n` bytes has to give: `NULL`, or the start of `n` bytes of the heap that are
    in no other block in use. The free list and the blocks in use are in order after it. -/
def Allocates (A : HeapLayout) (S : HeapSystem) (n : ℕ) (r : ℕ × Heap) : Prop :=
  (r.1 = 0 ∧ HeapInv A ⟨r.2, S.live⟩) ∨
    (r.1 ≠ 0 ∧ HeapInv A ⟨r.2, (r.1, n) :: S.live⟩ ∧ A.heap ≤ r.1 ∧ r.1 + n ≤ A.heap + heapSize ∧
      ∀ p ∈ S.live, r.1 + n ≤ p.1 - A.w ∨ p.1 - A.w + A.size r.2 (p.1 - A.w) ≤ r.1)

section

variable {A : HeapLayout} {S : HeapSystem} {free : List (ℕ × ℕ)}

/-- A new result with the bytes that were asked for. -/
theorem HeapInv.allocates {n ptr : ℕ} {h : Heap} (hne : ptr ≠ 0)
    (hinv : HeapInv A ⟨h, (ptr, n) :: S.live⟩) : Allocates A S n (ptr, h) := by
  obtain ⟨hlo, hroom, hhi⟩ := hinv.live_within List.mem_cons_self
  have hapart := (List.pairwise_cons.1 hinv.live_apart).1
  simp only at hlo hroom hhi hapart
  refine Or.inr ⟨hne, hinv, by omega, hhi, fun p hp => ?_⟩
  rcases hapart p hp with hle | hle
  · exact Or.inl (by omega)
  · exact Or.inr (by simp only; omega)

theorem Allocates.le_heapSize {n : ℕ} {r : ℕ × Heap} (h : Allocates A S n r) (hne : r.1 ≠ 0) :
    n ≤ heapSize := by
  rcases h with ⟨hnull, -⟩ | ⟨-, -, hlo, hhi, -⟩
  · exact absurd hnull hne
  · omega

/-- A free block with room for a request is at most as big as the heap. -/
theorem HeapInv.le_of_room (hfree : A.Settled S.heap free (S.liveBlocks A)) {b : ℕ × ℕ} {n : ℕ}
    (hb : b ∈ free) (hroom : n + A.w ≤ b.2) : n ≤ heapSize := by
  have hwithin := hfree.blocks.within (List.mem_append_left _ hb)
  omega

/-- **`malloc` gives enough** if each block that it would accept has the room, and only then. -/
theorem HeapInv.malloc_iff (hinv : HeapInv A S) (hfree : A.Settled S.heap free (S.liveBlocks A))
    (n : ℕ) : (∃ r, A.malloc S.heap n = some r ∧ Allocates A S n r) ↔
      ∀ b ∈ free, A.Accepts n b.2 → n + A.w ≤ b.2 := by
  rcases HeapLayout.malloc_cases hfree n with ⟨hnone, hnull⟩ | ⟨⟨c, hc, hcacc⟩, ptr, h, hgot, hne⟩
  · exact iff_of_true ⟨_, hnull, Or.inl ⟨rfl, hinv⟩⟩ fun b hb hacc => absurd hacc (hnone b hb)
  · constructor
    · rintro ⟨r, hr, hall⟩ b hb hacc
      cases hgot.symm.trans hr
      have hle := hall.le_heapSize hne
      have hwithin := hfree.blocks.within (List.mem_append_left _ hb)
      unfold heapSize at hle
      exact hacc.room (by omega) (by omega)
    · intro hroom
      have hle := HeapInv.le_of_room hfree hc (hroom c hc hcacc)
      unfold heapSize at hle
      rcases hinv.malloc (show n ≤ 2 ^ 30 by omega) with hnull | ⟨ptr', h', hgot', hne', hinv'⟩
      · cases hgot.symm.trans hnull
        exact absurd rfl hne
      · exact ⟨_, hgot', HeapInv.allocates hne' hinv'⟩

/-- The bytes of a new result are zeroed. -/
theorem HeapInv.zeroBytes {n ptr : ℕ} {h : Heap} (hinv : HeapInv A ⟨h, (ptr, n) :: S.live⟩) :
    HeapInv A ⟨{ h with mem := HeapLayout.zeroBytes h.mem ptr n }, (ptr, n) :: S.live⟩ := by
  refine hinv.write fun x hx => ?_
  rw [HeapLayout.zeroBytes_apply, if_neg]
  rintro ⟨hlo, hhi⟩
  have hroom := (hinv.live_within List.mem_cons_self).2.1
  exact hx ⟨(ptr, n), List.mem_cons_self, hlo, by simp only at hroom ⊢; omega⟩

/-- What `calloc` has to give: zeroed bytes, if any. -/
def CallocAllocates (A : HeapLayout) (S : HeapSystem) (nmemb size : ℕ) : Prop :=
  ∃ r, A.calloc S.heap nmemb size = some r ∧ Allocates A S (nmemb * size) r ∧
    (r.1 ≠ 0 → ∀ i < nmemb * size, r.2.mem (r.1 + i) = 0)

/-- `calloc` on top of a result of `malloc`. -/
theorem calloc_eq {nmemb size ptr : ℕ} {h : Heap}
    (hmalloc : A.malloc S.heap (A.sizeT (nmemb * size)) = some (ptr, h)) :
    A.calloc S.heap nmemb size = some (ptr,
      if ptr = 0 then h
      else { h with mem := HeapLayout.zeroBytes h.mem ptr (A.sizeT (nmemb * size)) }) := by
  unfold HeapLayout.calloc
  rw [hmalloc]
  by_cases hptr : ptr = 0
  · simp [hptr]
  · simp [hptr]

/-- **`calloc` gives enough** if each block that it would accept has room for the product of the
    numbers. -/
theorem HeapInv.calloc_iff (hinv : HeapInv A S) (hfree : A.Settled S.heap free (S.liveBlocks A))
    (nmemb size : ℕ) : CallocAllocates A S nmemb size ↔
      ∀ b ∈ free, A.Accepts (A.sizeT (nmemb * size)) b.2 → nmemb * size + A.w ≤ b.2 := by
  have hrange := A.range_le
  -- a product that fits the heap is not wrapped
  have hproduct : nmemb * size ≤ heapSize → A.sizeT (nmemb * size) = nmemb * size := by
    intro hle
    unfold heapSize at hle
    exact_mod_cast HeapLayout.sizeT_of_lt (A := A) (by omega)
  rcases HeapLayout.malloc_cases hfree (A.sizeT (nmemb * size)) with
    ⟨hnone, hnull⟩ | ⟨⟨c, hc, hcacc⟩, ptr, h, hgot, hne⟩
  · refine iff_of_true ⟨_, calloc_eq hnull, Or.inl ⟨rfl, hinv⟩, fun hne => absurd rfl hne⟩ ?_
    exact fun b hb hacc => absurd hacc (hnone b hb)
  · constructor
    · rintro ⟨r, hr, hall, -⟩ b hb hacc
      cases (calloc_eq hgot).symm.trans hr
      have hle := hall.le_heapSize hne
      have hwithin := hfree.blocks.within (List.mem_append_left _ hb)
      rw [hproduct hle] at hacc
      unfold heapSize at hle
      exact hacc.room (by omega) (by omega)
    · intro hroom
      have hle := HeapInv.le_of_room hfree hc (hroom c hc hcacc)
      have hsize := hproduct hle
      unfold heapSize at hle
      rcases hinv.malloc (show nmemb * size ≤ 2 ^ 30 by omega) with
        hnull | ⟨ptr', h', hgot', hne', hinv'⟩
      · rw [hsize] at hgot
        cases hgot.symm.trans hnull
        exact absurd rfl hne
      · refine ⟨_, calloc_eq (by rw [hsize]; exact hgot'), ?_, ?_⟩
        · rw [if_neg hne', hsize]
          exact HeapInv.allocates hne' hinv'.zeroBytes
        · intro _ i hi
          rw [if_neg hne', hsize]
          simp only
          rw [HeapLayout.zeroBytes_apply, if_pos (by omega)]

/-- **How much `malloc` and `calloc` return.** In every state between the calls of a program, with the
    free blocks `free`, they return what they should for exactly those requests for which no free block
    is accepted that is too small. -/
theorem allocates_iff (hinv : HeapInv A S) (hfree : A.Settled S.heap free (S.liveBlocks A)) :
    (∀ n < 256 ^ A.w, (∃ r, A.malloc S.heap n = some r ∧ Allocates A S n r) ↔
      ∀ b ∈ free, A.Accepts n b.2 → n + A.w ≤ b.2) ∧
    ∀ nmemb < 256 ^ A.w, ∀ size < 256 ^ A.w, CallocAllocates A S nmemb size ↔
      ∀ b ∈ free, A.Accepts (A.sizeT (nmemb * size)) b.2 → nmemb * size + A.w ≤ b.2 :=
  ⟨fun n _ => hinv.malloc_iff hfree n, fun nmemb _ size _ => hinv.calloc_iff hfree nmemb size⟩

end

/-- The heap of a 32-bit program at its start. -/
def freshHeap : HeapSystem := ⟨smallLayout.heapInit fun _ => 0, []⟩

theorem freshHeap_settled :
    smallLayout.Settled freshHeap.heap [(4096, 256)] (freshHeap.liveBlocks smallLayout) := by
  obtain ⟨⟨free, hs⟩, -⟩ : HeapInv smallLayout freshHeap := heapInv_init _
  have hpos : ∀ b ∈ free, 0 < b.2 := by
    intro b hb
    have := hs.blocks.large b (List.mem_append_left _ hb)
    have := smallLayout.w_pos
    omega
  have htiles : Tiling.Tiles free smallLayout.heap heapSize := by
    have := hs.blocks.tiles
    rwa [show freshHeap.liveBlocks smallLayout = [] from rfl, List.append_nil] at this
  have hone := htiles.eq_singleton (by decide) hpos hs.parted
  rw [hone] at hs
  exact hs

/-- On a fresh heap 244 bytes are the most that fit. -/
theorem allocates_iff_freshHeap :
    ∃ r, smallLayout.malloc freshHeap.heap 244 = some r ∧ Allocates smallLayout freshHeap 244 r :=
  ((allocates_iff (heapInv_init _) freshHeap_settled).1 244 (by decide)).2 (by decide)

/-- The largest `size_t` is rounded up to 0, and a block without a byte is given out; and a product
    that wraps to 4 gets four bytes. -/
theorem freshHeap_tooLittle :
    HeapInv smallLayout freshHeap ∧
    (∃ r, smallLayout.malloc freshHeap.heap (2 ^ 32 - 1) = some r ∧ r.1 = 4352 ∧
      ¬ Allocates smallLayout freshHeap (2 ^ 32 - 1) r) ∧
    ∃ r, smallLayout.calloc freshHeap.heap (2 ^ 30 + 1) 4 = some r ∧ r.1 = 4344 ∧
      ¬ Allocates smallLayout freshHeap ((2 ^ 30 + 1) * 4) r := by
  refine ⟨heapInv_init _, ?_, ?_⟩
  · have hok : (smallLayout.malloc freshHeap.heap (2 ^ 32 - 1)).any (fun r => r.1 = 4352) = true := by
      decide +kernel
    obtain ⟨r, hr, hptr⟩ := (Option.any_eq_true ..).1 hok
    have hptr := of_decide_eq_true hptr
    refine ⟨r, hr, hptr, fun hall => ?_⟩
    exact absurd (hall.le_heapSize (by omega)) (by decide)
  · have hok : (smallLayout.calloc freshHeap.heap (2 ^ 30 + 1) 4).any (fun r => r.1 = 4344) = true := by
      decide +kernel
    obtain ⟨r, hr, hptr⟩ := (Option.any_eq_true ..).1 hok
    have hptr := of_decide_eq_true hptr
    refine ⟨r, hr, hptr, fun hall => ?_⟩
    exact absurd (hall.le_heapSize (by omega)) (by decide)

end Kudos.Userland
