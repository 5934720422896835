import Kudos.Userland.HeapSizes

set_option autoImplicit false

/-! # What `realloc` does to the contents of blocks

`malloc` and `free` write to no block in use but the one that is freed (`WritesIn`), so `realloc` finds the
old contents and leaves those of the other blocks alone. Its loop copies as many bytes as the new block
is asked to have, so when a block grows the loop also reads what is behind it
(`reallocKeeps_iff`). -/

namespace Kudos.Userland

open CInt

/-- The loop of `realloc`: `n` bytes are copied, one after the other. -/
def copyBytes (mem : ℕ → UInt8) (newPtr ptr : ℕ) : ℕ → ℕ → UInt8
  | 0 => mem
  | n + 1 =>
      let mem := copyBytes mem newPtr ptr n
      Function.update mem (newPtr + n) (mem (ptr + n))

/-- The result of `realloc`, with the addresses from which its loop has read. -/
structure Reallocated where
  ptr : ℕ
  heap : Heap
  reads : List ℕ

namespace HeapLayout

variable (A : HeapLayout)

/-- `realloc`. -/
def realloc (h : Heap) (ptr size : ℕ) : Option Reallocated :=
  if ptr = 0 then do
    let (newPtr, h) ← A.malloc h size
    return ⟨newPtr, h, []⟩
  else if size = 0 then do
    let h ← A.free h ptr
    return ⟨0, h, []⟩
  else do
    let (newPtr, h) ← A.malloc h size
    if newPtr ≠ 0 then
      let h ← A.free { h with mem := copyBytes h.mem newPtr ptr size } ptr
      return ⟨newPtr, h, (List.range size).map (ptr + ·)⟩
    else return ⟨newPtr, h, []⟩

/-- The bytes of a block behind its header. -/
def usableSize (h : Heap) (ptr : ℕ) : ℕ := A.size h (ptr - A.w) - A.w

end HeapLayout

/-! ## Writes inside of blocks -/

/-- The memory is the same outside of these blocks. -/
def WritesIn (bs : List (ℕ × ℕ)) (h h' : Heap) : Prop :=
  ∀ x, (∀ b ∈ bs, ¬ (b.1 ≤ x ∧ x < b.1 + b.2)) → h'.mem x = h.mem x

section

variable {A : HeapLayout} {h h' h'' : Heap} {bs : List (ℕ × ℕ)}

theorem WritesIn.refl (bs : List (ℕ × ℕ)) (h : Heap) : WritesIn bs h h := fun _ _ => rfl

theorem WritesIn.trans (hw : WritesIn bs h h') (hw' : WritesIn bs h' h'') : WritesIn bs h h'' :=
  fun x hx => (hw' x hx).trans (hw x hx)

/-- A word in a block. -/
theorem WritesIn.store {b : ℕ × ℕ} (hb : b ∈ bs) {a w v freeList : ℕ} (hlo : b.1 ≤ a)
    (hhi : a + w ≤ b.1 + b.2) : WritesIn bs h ⟨ByteMemory.store h.mem w a v, freeList⟩ := by
  intro x hx
  refine ByteMemory.store_of_outside ?_
  have := hx b hb
  omega

theorem WritesIn.setSize {b : ℕ × ℕ} (hb : b ∈ bs) (hlarge : 3 * A.w ≤ b.2) (v : ℕ) :
    WritesIn bs h (A.setSize h b.1 v) := WritesIn.store hb (Nat.le_refl _) (by omega)

theorem WritesIn.setNext {b : ℕ × ℕ} (hb : b ∈ bs) (hlarge : 3 * A.w ≤ b.2) (v : ℕ) :
    WritesIn bs h (A.setNext h b.1 v) := WritesIn.store hb (by omega) (by omega)

theorem WritesIn.setLink {prev : ℕ} (hprev : prev = 0 ∨ ∃ s, (prev, s) ∈ bs)
    (hlarge : ∀ b ∈ bs, 3 * A.w ≤ b.2) (v : ℕ) : WritesIn bs h (A.setLink h prev v) := by
  unfold HeapLayout.setLink
  split
  · exact fun _ _ => rfl
  · next hne =>
      obtain ⟨s, hs⟩ := hprev.resolve_left hne
      exact WritesIn.setNext hs (hlarge _ hs) v

end

namespace HeapLayout

variable {A : HeapLayout} {h h' : Heap}

/-- `malloc` writes to free blocks only. -/
theorem mallocLoop_writesIn {free used pre post : List (ℕ × ℕ)} {size n prev block ptr : ℕ}
    (hs : A.Settled h free used) (hhi : size ≤ 2 ^ 30 + 4) (hfree : free = pre ++ post)
    (hprev : Before pre prev) (hblock : Chain.Linked (A.next h) block (post.map Prod.fst) 0)
    (hgot : A.mallocLoop h size n prev block = some (ptr, h')) : WritesIn free h h' := by
  have hlarge : ∀ b ∈ free, 3 * A.w ≤ b.2 := fun b hb => hs.blocks.large b (List.mem_append_left _ hb)
  induction post generalizing pre prev block n with
  | nil =>
      cases n with
      | zero => cases hgot
      | succ n =>
          rw [mallocLoop, if_pos (show block = 0 from hblock)] at hgot
          cases hgot
          exact .refl free h
  | cons c post ih =>
      cases n with
      | zero => cases hgot
      | succ n =>
          obtain ⟨rfl, hrest⟩ := hblock
          have hc : c ∈ free := hfree ▸ List.mem_append_right _ List.mem_cons_self
          have hmem : c ∈ free ++ used := List.mem_append_left _ hc
          have hwithin := hs.blocks.within hmem
          have hrange := hs.blocks.lt_range hmem
          have hcuttable := cuttable_iff (A := A) (k := c.2) (by omega) hhi
          rw [mallocLoop, if_neg (hs.blocks.addr_ne_zero hmem), hs.blocks.sizes c hmem] at hgot
          split at hgot
          · next hcut =>
              -- the sizes of both parts are written in the block that is cut
              have hsplit := hcuttable.1 hcut
              have hrest : A.sizeT (c.2 - (size + A.w)) = c.2 - (size + A.w) := by
                have hdiff : (c.2 : ℤ) - (size + A.w) = ((c.2 - (size + A.w) : ℕ) : ℤ) := by omega
                rw [hdiff, sizeT_of_lt (by omega)]
              simp only [hrest] at hgot
              rw [size_setSize (by omega)] at hgot
              cases hgot
              exact (WritesIn.setSize hc (hlarge c hc) _).trans (WritesIn.store hc (by omega) (by omega))
          · split at hgot
            · cases hgot
              refine WritesIn.setLink ?_ hlarge _
              rcases hprev.cases with hzero | ⟨s, hmemPrev⟩
              · exact Or.inl hzero
              · exact Or.inr ⟨s, hfree ▸ List.mem_append_left _ hmemPrev⟩
            · exact ih (by rw [hfree, List.append_cons]) (Or.inr ⟨pre, c.2, rfl⟩) hrest hgot

theorem malloc_writesIn {free used : List (ℕ × ℕ)} {size ptr : ℕ} (hs : A.Settled h free used)
    (hsize : size ≤ 2 ^ 30) (hgot : A.malloc h size = some (ptr, h')) : WritesIn free h h' := by
  unfold malloc at hgot
  split at hgot
  · cases hgot
    exact .refl free h
  · exact mallocLoop_writesIn hs (roundSize_spec hsize).2.2 (List.nil_append free).symm
      (Or.inl ⟨rfl, rfl⟩) hs.blocks.links hgot

/-- Putting a block into the list writes to it and to the block before it. -/
theorem insertBlock_writesIn {bs : List (ℕ × ℕ)} {b : ℕ × ℕ} {prev cur : ℕ}
    (hprev : prev = 0 ∨ ∃ s, (prev, s) ∈ bs) (hb : b ∈ bs) (hlarge : ∀ b ∈ bs, 3 * A.w ≤ b.2) :
    WritesIn bs h (A.insertBlock h b.1 prev cur) := by
  have hput : ∀ v v', WritesIn bs h (A.setNext (A.setLink h prev v) b.1 v') := fun v v' =>
    (WritesIn.setLink hprev hlarge v).trans (WritesIn.setNext hb (hlarge b hb) v')
  unfold insertBlock
  simp only
  split
  · next hmerge =>
      obtain ⟨s, hs⟩ := hprev.resolve_left hmerge.1
      have hgrown := fun v v' => ((hput b.1 cur).trans (WritesIn.setSize hs (hlarge _ hs) v)).trans
        (WritesIn.setNext hs (hlarge _ hs) v')
      split
      · exact ((hgrown _ _).trans (WritesIn.setSize hs (hlarge _ hs) _)).trans
          (WritesIn.setNext hs (hlarge _ hs) _)
      · exact hgrown _ _
  · split
    · exact ((hput _ _).trans (WritesIn.setSize hb (hlarge b hb) _)).trans
        (WritesIn.setNext hb (hlarge b hb) _)
    · exact hput _ _

/-- A block goes into the list behind one of its blocks. -/
theorem Blocks.insert_writesIn {used pre post : List (ℕ × ℕ)} {prev : ℕ} {b : ℕ × ℕ}
    (hb : A.Blocks h (pre ++ post) (b :: used)) (hprev : Before pre prev) (cur : ℕ) :
    WritesIn (b :: (pre ++ post)) h (A.insertBlock h b.1 prev cur) := by
  refine insertBlock_writesIn ?_ List.mem_cons_self fun c hc => ?_
  · rcases hprev.cases with hzero | ⟨s, hmem⟩
    · exact Or.inl hzero
    · exact Or.inr ⟨s, List.mem_cons_of_mem _ (List.mem_append_left _ hmem)⟩
  · refine hb.large c ?_
    rcases List.mem_cons.1 hc with rfl | hc
    · exact List.mem_append_right _ List.mem_cons_self
    · exact List.mem_append_left _ hc

theorem freeLoop_writesIn {used pre post : List (ℕ × ℕ)} {n prev cur : ℕ} {b : ℕ × ℕ}
    (hb : A.Blocks h (pre ++ post) (b :: used)) (hprev : Before pre prev)
    (hcur : Chain.Linked (A.next h) cur (post.map Prod.fst) 0)
    (hfreed : A.freeLoop h b.1 n prev cur = some h') : WritesIn (b :: (pre ++ post)) h h' := by
  induction post generalizing pre prev cur n with
  | nil =>
      cases n with
      | zero => cases hfreed
      | succ n =>
          rw [freeLoop, if_pos (Or.inr (show cur = 0 from hcur))] at hfreed
          cases hfreed
          exact hb.insert_writesIn hprev cur
  | cons c post ih =>
      cases n with
      | zero => cases hfreed
      | succ n =>
          obtain ⟨rfl, hrest⟩ := hcur
          rw [freeLoop] at hfreed
          split at hfreed
          · cases hfreed
            exact hb.insert_writesIn hprev c.1
          · rw [List.append_cons] at hb ⊢
            exact ih hb (Or.inr ⟨pre, c.2, rfl⟩) hrest hfreed

/-- `free` writes to free blocks and to the block that is freed. -/
theorem free_writesIn {free used : List (ℕ × ℕ)} {b : ℕ × ℕ} (hs : A.Settled h free (b :: used))
    (hfreed : A.free h (b.1 + A.w) = some h') : WritesIn (b :: free) h h' := by
  have hw := A.w_pos
  unfold HeapLayout.free at hfreed
  rw [if_pos (by omega), Nat.add_sub_cancel] at hfreed
  have hb : A.Blocks h ([] ++ free) (b :: used) := hs.blocks
  exact freeLoop_writesIn hb (Or.inl ⟨rfl, rfl⟩) hs.blocks.links hfreed

end HeapLayout

/-! ## Contents -/

/-- The copy of bytes that are apart from those that are written. -/
theorem copyBytes_apply (mem : ℕ → UInt8) (newPtr ptr n x : ℕ) :
    (¬ (newPtr ≤ x ∧ x < newPtr + n) → copyBytes mem newPtr ptr n x = mem x) ∧
      ∀ k < n, (∀ j < n, ptr + k ≠ newPtr + j) →
        copyBytes mem newPtr ptr n (newPtr + k) = mem (ptr + k) := by
  induction n generalizing x with
  | zero => exact ⟨fun _ => rfl, fun k hk => absurd hk (Nat.not_lt_zero k)⟩
  | succ n ih =>
      simp only [copyBytes]
      refine ⟨fun hx => ?_, fun k hk hapart => ?_⟩
      · rw [Function.update_of_ne (by omega)]
        exact (ih x).1 (by omega)
      · by_cases hkn : k = n
        · rw [hkn, Function.update_self]
          refine (ih (ptr + n)).1 ?_
          rintro ⟨hlo, hhi⟩
          exact hapart (ptr + n - newPtr) (by omega) (by omega)
        · rw [Function.update_of_ne (by omega)]
          exact (ih x).2 k (by omega) fun j hj => hapart j (by omega)

/-- The block of a result of `malloc`, with its header, is the same. -/
def SameBlock (A : HeapLayout) (ptr : ℕ) (h h' : Heap) : Prop :=
  ∀ x, ptr - A.w ≤ x → x < ptr - A.w + A.size h (ptr - A.w) → h'.mem x = h.mem x

section

variable {A : HeapLayout} {S : HeapSystem} {free bs : List (ℕ × ℕ)} {p q : ℕ × ℕ} {h h' : Heap}

theorem SameBlock.size (hsame : SameBlock A p.1 h h') (hroom : A.w ≤ A.size h (p.1 - A.w)) :
    A.size h' (p.1 - A.w) = A.size h (p.1 - A.w) :=
  ByteMemory.load_congr fun x hlo hhi => hsame x hlo (by omega)

theorem SameBlock.usableSize (hsame : SameBlock A p.1 h h') (hroom : A.w ≤ A.size h (p.1 - A.w)) :
    A.usableSize h' p.1 = A.usableSize h p.1 := by
  unfold HeapLayout.usableSize
  rw [hsame.size hroom]

/-- The bytes of the block behind its header. -/
theorem SameBlock.mem (hsame : SameBlock A p.1 h h') (hw : A.w ≤ p.1) {k : ℕ}
    (hk : k < A.usableSize h p.1) : h'.mem (p.1 + k) = h.mem (p.1 + k) := by
  unfold HeapLayout.usableSize at hk
  exact hsame (p.1 + k) (by omega) (by omega)

/-- The block of a live result has no byte in common with other blocks. -/
theorem HeapInv.block_apart (hs : A.Settled S.heap free (S.liveBlocks A)) (hp : p ∈ S.live)
    {b : ℕ × ℕ} (hb : b ∈ free ++ HeapSystem.liveBlocks A ⟨S.heap, S.live.erase p⟩) :
    p.1 - A.w + A.size S.heap (p.1 - A.w) ≤ b.1 ∨ b.1 + b.2 ≤ p.1 - A.w := by
  have hblocks := hs.blocks.perm_used (liveBlocks_perm hp).symm
  have hpos : ∀ c ∈ (p.1 - A.w, A.size S.heap (p.1 - A.w)) ::
      (free ++ HeapSystem.liveBlocks A ⟨S.heap, S.live.erase p⟩), 0 < c.2 := by
    intro c hc
    have hlarge := hblocks.large c (List.perm_middle.mem_iff.2 hc)
    have hw := A.w_pos
    omega
  have htiles := hblocks.tiles.perm List.perm_middle.symm
  exact (List.pairwise_cons.1 (htiles.pairwise hpos)).1 b hb

/-- Writes in other blocks. -/
theorem WritesIn.sameBlock (hwrites : WritesIn bs S.heap h')
    (hs : A.Settled S.heap free (S.liveBlocks A)) (hp : p ∈ S.live)
    (hbs : ∀ b ∈ bs, b ∈ free ++ HeapSystem.liveBlocks A ⟨S.heap, S.live.erase p⟩) :
    SameBlock A p.1 S.heap h' := by
  intro x hlo hhi
  refine hwrites x fun b hb hin => ?_
  have hapart := HeapInv.block_apart hs hp (hbs b hb)
  omega

theorem HeapInv.live_nodup (hinv : HeapInv A S) : S.live.Nodup := by
  refine hinv.live_apart.imp_of_mem fun {p q} hp _ hapart heq => ?_
  have hroom := hinv.room p hp
  have hw := A.w_pos
  rw [heq] at hapart hroom
  omega

/-- `malloc` returns a new pointer. -/
theorem HeapInv.fresh {n ptr : ℕ} (hinv : HeapInv A ⟨h, (ptr, n) :: S.live⟩) (hp : p ∈ S.live) :
    (ptr, n) ≠ p :=
  fun heq => (List.nodup_cons.1 hinv.live_nodup).1 (heq ▸ hp)

/-- Blocks of live results, as other blocks. -/
theorem mem_liveBlocks_erase (hq : q ∈ S.live) (hne : q ≠ p) :
    (q.1 - A.w, A.size S.heap (q.1 - A.w)) ∈
      free ++ HeapSystem.liveBlocks A ⟨S.heap, S.live.erase p⟩ :=
  List.mem_append_right _ (List.mem_map_of_mem ((List.mem_erase_of_ne hne).2 hq))

end

/-! ## `realloc` -/

/-- What `realloc` for `n` bytes has to do with the live result `p`. It reads bytes of its block only. If
there is no room, nothing changes. Otherwise `p` is not live any more, the new block begins with what
`p` had, and the other blocks have what they had. -/
def ReallocKeeps (A : HeapLayout) (S : HeapSystem) (p : ℕ × ℕ) (n : ℕ) (r : Reallocated) : Prop :=
  (∀ x ∈ r.reads, p.1 ≤ x ∧ x < p.1 + A.usableSize S.heap p.1) ∧
    if r.ptr = 0 then r.heap = S.heap
    else
      HeapInv A ⟨r.heap, (r.ptr, n) :: S.live.erase p⟩ ∧ n ≤ A.usableSize r.heap r.ptr ∧
      (∀ k < min (A.usableSize S.heap p.1) n, r.heap.mem (r.ptr + k) = S.heap.mem (p.1 + k)) ∧
      ∀ q ∈ S.live.erase p, A.usableSize r.heap q.1 = A.usableSize S.heap q.1 ∧
        ∀ k < A.usableSize S.heap q.1, r.heap.mem (q.1 + k) = S.heap.mem (q.1 + k)

section

variable {A : HeapLayout} {S : HeapSystem} {free : List (ℕ × ℕ)} {p q : ℕ × ℕ} {n ptr : ℕ} {h1 : Heap}

/-- The heap after the loop has filled the new block. -/
def Heap.copied (h : Heap) (newPtr ptr n : ℕ) : Heap := { h with mem := copyBytes h.mem newPtr ptr n }

/-- The loop writes to the new block. -/
theorem HeapInv.copied_writesIn (hinv : HeapInv A ⟨h1, (ptr, n) :: S.live⟩) :
    WritesIn [(ptr - A.w, A.size h1 (ptr - A.w))] h1 (h1.copied ptr p.1 n) := by
  intro x hx
  have hroom := hinv.room (ptr, n) List.mem_cons_self
  have hout := hx _ (List.mem_singleton_self _)
  simp only at hroom hout
  exact (copyBytes_apply h1.mem ptr p.1 n x).1 (by omega)

theorem HeapInv.copied (hinv : HeapInv A ⟨h1, (ptr, n) :: S.live⟩) :
    HeapInv A ⟨h1.copied ptr p.1 n, (ptr, n) :: S.live⟩ := by
  refine hinv.write fun x hx => (copyBytes_apply h1.mem ptr p.1 n x).1 fun hin => hx ?_
  have hroom := hinv.room (ptr, n) List.mem_cons_self
  simp only at hroom
  exact ⟨(ptr, n), List.mem_cons_self, hin.1, by simp only; omega⟩

/-- Blocks that were in use stay as they are while the new block is found and filled. -/
theorem HeapInv.copied_sameBlock (hinv : HeapInv A S) (hs : A.Settled S.heap free (S.liveBlocks A))
    (hinv1 : HeapInv A ⟨h1, (ptr, n) :: S.live⟩) (hwrites : WritesIn free S.heap h1) (hq : q ∈ S.live) :
    SameBlock A q.1 S.heap h1 ∧ SameBlock A q.1 S.heap (h1.copied ptr p.1 n) := by
  have hsame : SameBlock A q.1 S.heap h1 :=
    hwrites.sameBlock hs hq fun b hb => List.mem_append_left _ hb
  refine ⟨hsame, fun x hlo hhi => ?_⟩
  obtain ⟨free1, hs1⟩ := hinv1.settled
  have hroom := hinv.room q hq
  have hsize := hsame.size (by omega)
  have hcopied : SameBlock A q.1 h1 (h1.copied ptr p.1 n) := by
    refine WritesIn.sameBlock hinv1.copied_writesIn hs1
      (List.mem_cons_of_mem _ hq) fun b hb => ?_
    rw [List.mem_singleton.1 hb]
    exact mem_liveBlocks_erase List.mem_cons_self (hinv1.fresh hq)
  rw [hcopied x hlo (by omega), hsame x hlo hhi]

/-- A result that is not NULL is live. -/
theorem HeapInv.live_malloc (hinv : HeapInv A S) (hsize : n ≤ 2 ^ 30)
    (hgot : A.malloc S.heap n = some (ptr, h1)) (hne : ptr ≠ 0) : HeapInv A ⟨h1, (ptr, n) :: S.live⟩ := by
  rcases hinv.malloc hsize with hnull | ⟨ptr', h', hgot', -, hinv'⟩
  · rw [hnull] at hgot
    cases hgot
    exact absurd rfl hne
  · rw [hgot'] at hgot
    cases hgot
    exact hinv'

/-- `free` leaves the other blocks in use as they are. -/
theorem HeapInv.free_sameBlock (hinv : HeapInv A S) (hp : p ∈ S.live)
    (hfreed : A.free S.heap p.1 = some h1) (hq : q ∈ S.live) (hqp : q ≠ p) :
    SameBlock A q.1 S.heap h1 := by
  obtain ⟨free, hs⟩ := hinv.settled
  have hwrites : WritesIn ((p.1 - A.w, A.size S.heap (p.1 - A.w)) :: free) S.heap h1 := by
    have hs' := HeapLayout.Settled.mk (hs.blocks.perm_used (liveBlocks_perm hp).symm) hs.parted
    refine HeapLayout.free_writesIn hs' ?_
    rw [Nat.sub_add_cancel (hinv.room p hp).1]
    exact hfreed
  refine hwrites.sameBlock hs hq fun b hb => ?_
  rcases List.mem_cons.1 hb with rfl | hb
  · exact mem_liveBlocks_erase hp (Ne.symm hqp)
  · exact List.mem_append_left _ hb

/-- The new block begins with what the old one had, which `malloc` has left alone. -/
theorem HeapInv.copied_mem (hinv : HeapInv A S) (hinv1 : HeapInv A ⟨h1, (ptr, n) :: S.live⟩)
    (hsame : SameBlock A p.1 S.heap h1) (hp : p ∈ S.live) {k : ℕ}
    (hk : k < min (A.usableSize S.heap p.1) n) :
    (h1.copied ptr p.1 n).mem (ptr + k) = S.heap.mem (p.1 + k) := by
  rw [← hsame.mem (hinv.room p hp).1 (by omega)]
  refine (copyBytes_apply h1.mem ptr p.1 n 0).2 k (by omega) fun j hj heq => ?_
  obtain ⟨free1, hs1⟩ := hinv1.settled
  have hapart := HeapInv.block_apart hs1 (List.mem_cons_of_mem _ hp)
    (mem_liveBlocks_erase List.mem_cons_self (hinv1.fresh hp))
  have hroom1 := hinv1.room (ptr, n) List.mem_cons_self
  have hroom := hinv.room p hp
  have hold := hsame.size (by omega)
  have husable : k < A.usableSize S.heap p.1 := by omega
  unfold HeapLayout.usableSize at husable
  simp only at hapart hroom1
  omega

/-- `realloc` with room: all that is asked of it, except for what it reads. -/
theorem HeapInv.realloc_moves (hinv : HeapInv A S) (hs : A.Settled S.heap free (S.liveBlocks A))
    (hp : p ∈ S.live) (hn : 0 < n) (hsize : n ≤ 2 ^ 30)
    (hgot : A.malloc S.heap n = some (ptr, h1)) (hne : ptr ≠ 0) :
    ∃ h3, A.realloc S.heap p.1 n = some ⟨ptr, h3, (List.range n).map (p.1 + ·)⟩ ∧
      HeapInv A ⟨h3, (ptr, n) :: S.live.erase p⟩ ∧ n ≤ A.usableSize h3 ptr ∧
      (∀ k < min (A.usableSize S.heap p.1) n, h3.mem (ptr + k) = S.heap.mem (p.1 + k)) ∧
      ∀ q ∈ S.live.erase p, A.usableSize h3 q.1 = A.usableSize S.heap q.1 ∧
        ∀ k < A.usableSize S.heap q.1, h3.mem (q.1 + k) = S.heap.mem (q.1 + k) := by
  -- the new block
  have hinv1 := hinv.live_malloc hsize hgot hne
  have hwrites := HeapLayout.malloc_writesIn hs hsize hgot
  have hinv2 : HeapInv A ⟨h1.copied ptr p.1 n, (ptr, n) :: S.live⟩ := hinv1.copied
  have hsame2 := fun q hq => hinv.copied_sameBlock (q := q) (p := p) hs hinv1 hwrites hq
  -- the old block is freed
  have hp2 : p ∈ (ptr, n) :: S.live := List.mem_cons_of_mem _ hp
  have herase : ((ptr, n) :: S.live).erase p = (ptr, n) :: S.live.erase p :=
    List.erase_cons_tail (by simpa using hinv1.fresh hp)
  obtain ⟨h3, free3, hfreed, -⟩ := hinv2.free_returns hp2
  have hinv3 := (HeapStep.free hp2 hfreed).keeps hinv2
  rw [herase] at hinv3
  have hsame3 : ∀ q ∈ (ptr, n) :: S.live, q ≠ p → SameBlock A q.1 (h1.copied ptr p.1 n) h3 :=
    fun q hq hqp => hinv2.free_sameBlock hp2 hfreed hq hqp
  refine ⟨h3, ?_, hinv3, ?_, fun k hk => ?_, fun q hq => ?_⟩
  · have hptr : p.1 ≠ 0 := by
      have := (hinv.room p hp).1
      have := A.w_pos
      omega
    unfold HeapLayout.realloc
    rw [if_neg hptr, if_neg (by omega), hgot]
    simp only [Option.bind_eq_bind, Option.bind_some]
    rw [if_pos hne]
    unfold Heap.copied at hfreed
    rw [hfreed]
    rfl
  · have hroom := hinv3.room (ptr, n) List.mem_cons_self
    unfold HeapLayout.usableSize
    simp only at hroom
    omega
  · obtain ⟨hwlo, hwhi⟩ := hinv2.room (ptr, n) List.mem_cons_self
    simp only at hwlo hwhi
    have hk2 : k < A.usableSize (h1.copied ptr p.1 n) ptr := by
      unfold HeapLayout.usableSize
      omega
    rw [(hsame3 (ptr, n) List.mem_cons_self (hinv1.fresh hp)).mem hwlo hk2]
    exact hinv.copied_mem hinv1 (hsame2 p hp).1 hp hk
  · have hqp : q ≠ p := fun heq => (hinv.live_nodup.not_mem_erase (heq ▸ hq)).elim
    have hqlive := List.mem_of_mem_erase hq
    have hroom := hinv.room q hqlive
    have hkept := (hsame2 q hqlive).2
    have hlast := hsame3 q (List.mem_cons_of_mem _ hqlive) hqp
    have hroom2 := hinv2.room q (List.mem_cons_of_mem _ hqlive)
    simp only at hroom2
    refine ⟨(hlast.usableSize (by omega)).trans (hkept.usableSize (by omega)), fun k hk => ?_⟩
    rw [hlast.mem hroom.1 (by rwa [hkept.usableSize (by omega)]), hkept.mem hroom.1 hk]

/-- **When `realloc` keeps what it should.** It does so exactly if the block is not to grow, or no free
block is accepted for the new size. -/
theorem reallocKeeps_iff (hinv : HeapInv A S) (hs : A.Settled S.heap free (S.liveBlocks A))
    (hp : p ∈ S.live) (hn : 0 < n) (hsize : n ≤ 2 ^ 30) :
    ∃ r, A.realloc S.heap p.1 n = some r ∧
      (ReallocKeeps A S p n r ↔
        n ≤ A.usableSize S.heap p.1 ∨ ∀ b ∈ free, ¬ A.Accepts n b.2) := by
  rcases HeapLayout.malloc_cases hs n with ⟨hnone, hnull⟩ | ⟨⟨b, hb, hacc⟩, ptr, h1, hgot, hne⟩
  · refine ⟨⟨0, S.heap, []⟩, ?_, iff_of_true ?_ (Or.inr hnone)⟩
    · have hptr : p.1 ≠ 0 := by
        have := (hinv.room p hp).1
        have := A.w_pos
        omega
      unfold HeapLayout.realloc
      rw [if_neg hptr, if_neg (by omega), hnull]
      rfl
    · exact ⟨fun x hx => absurd hx List.not_mem_nil, by rw [if_pos rfl]⟩
  · obtain ⟨h3, hrun, hinv3, hroom, hold, hother⟩ := hinv.realloc_moves hs hp hn hsize hgot hne
    refine ⟨_, hrun, fun hkeeps => Or.inl ?_, fun hcond => ⟨fun x hx => ?_, ?_⟩⟩
    · have hlast := hkeeps.1 (p.1 + (n - 1))
        (List.mem_map_of_mem (List.mem_range.2 (Nat.sub_lt hn Nat.one_pos)))
      omega
    · obtain ⟨k, hk, rfl⟩ := List.mem_map.1 hx
      have hk := List.mem_range.1 hk
      have hle := hcond.resolve_right fun hnone => hnone b hb hacc
      omega
    · rw [if_neg hne]
      exact ⟨hinv3, hroom, hold, hother⟩

end

/-- The program that has got ten bytes. -/
def tenByteSystem : HeapSystem := ⟨tenBytes.2, [(4340, 10)]⟩

theorem tenByteSystem_inv : HeapInv smallLayout tenByteSystem := heapReachable_inv tenBytes_reachable

/-- The block is made smaller. -/
theorem reallocKeeps_iff_five :
    ∃ r, smallLayout.realloc tenByteSystem.heap 4340 5 = some r ∧
      ReallocKeeps smallLayout tenByteSystem (4340, 10) 5 r := by
  obtain ⟨free, hs⟩ := tenByteSystem_inv.settled
  obtain ⟨r, hrun, hiff⟩ := reallocKeeps_iff tenByteSystem_inv hs (p := (4340, 10)) (n := 5)
    List.mem_cons_self (by decide) (by decide)
  exact ⟨r, hrun, hiff.2 (Or.inl (by decide +kernel))⟩

/-- The block of twelve bytes is to have forty. The loop reads the last ones behind the heap. -/
theorem forty_not_reallocKeeps :
    ∃ r, smallLayout.realloc tenByteSystem.heap 4340 40 = some r ∧
      ¬ ReallocKeeps smallLayout tenByteSystem (4340, 10) 40 r := by
  have hread : (smallLayout.realloc tenByteSystem.heap 4340 40).any (fun r => 4379 ∈ r.reads) = true := by
    decide +kernel
  obtain ⟨r, hrun, hmem⟩ := (Option.any_eq_true ..).1 hread
  refine ⟨r, hrun, fun hkeeps => ?_⟩
  have husable : smallLayout.usableSize tenByteSystem.heap 4340 = 12 := by decide +kernel
  have hlast := (hkeeps.1 4379 (of_decide_eq_true hmem)).2
  simp only [husable] at hlast
  exact absurd hlast (by decide)

end Kudos.Userland
