import Kudos.Library.Chain
import Kudos.Library.Tiling
import Kudos.Userland.Heap

set_option autoImplicit false

/-! # What the free list and the blocks in use have to do with each other

`Blocks` says what the memory holds at any moment: a free list in the order of the addresses, and blocks
in use, that together tile the heap. It is kept by the three changes that `malloc` and `free` make to the
list (cut a block, take a block out, put a block in) and by the merging of two neighbours, and it allows
free blocks to touch, which they do in the middle of `free`. That no free blocks touch is added for
the states between the calls. -/

namespace Kudos.Userland

open CInt Transition Tiling

namespace HeapLayout

variable {A : HeapLayout} {h : Heap} {a b v : ℕ}

/-! ## The words of headers -/

/-- The headers of two blocks have no byte in common. -/
def Apart (A : HeapLayout) (a b : ℕ) : Prop := a + 2 * A.w ≤ b ∨ b + 2 * A.w ≤ a

theorem Apart.symm (hab : A.Apart a b) : A.Apart b a := Or.symm hab

theorem size_setSize (hv : v < 256 ^ A.w) : A.size (A.setSize h a v) a = v :=
  ByteMemory.load_store hv

theorem size_setSize_of_apart (hab : A.Apart a b) : A.size (A.setSize h a v) b = A.size h b := by
  unfold Apart at hab
  exact ByteMemory.load_store_of_disjoint (by omega)

theorem next_setSize (hab : b = a ∨ A.Apart a b) : A.next (A.setSize h a v) b = A.next h b := by
  unfold Apart at hab
  exact ByteMemory.load_store_of_disjoint (by omega)

theorem size_setNext (hab : b = a ∨ A.Apart a b) : A.size (A.setNext h a v) b = A.size h b := by
  unfold Apart at hab
  exact ByteMemory.load_store_of_disjoint (by omega)

theorem next_setNext (hv : v < 256 ^ A.w) : A.next (A.setNext h a v) a = v :=
  ByteMemory.load_store hv

theorem next_setNext_of_apart (hab : A.Apart a b) : A.next (A.setNext h a v) b = A.next h b := by
  unfold Apart at hab
  exact ByteMemory.load_store_of_disjoint (by omega)

theorem next_lt (h : Heap) (a : ℕ) : A.next h a < 256 ^ A.w := ByteMemory.load_lt _ _ _

theorem sizeT_of_lt {x : ℕ} (hx : x < 256 ^ A.w) : A.sizeT (x : ℤ) = x := by
  unfold sizeT
  rw [Int.emod_eq_of_lt (by omega) (by exact_mod_cast hx)]
  rfl

theorem w_pos (A : HeapLayout) : 0 < A.w := by
  rcases A.word with hw | hw <;> omega

theorem w_le (A : HeapLayout) : A.w ≤ 8 := by
  rcases A.word with hw | hw <;> omega

theorem range_le (A : HeapLayout) : 2 ^ 32 ≤ 256 ^ A.w := by
  rcases A.word with hw | hw <;> rw [hw] <;> norm_num

/-- The `int` of a difference of `size_t`s is the difference. -/
theorem wrap32_sizeT (x : ℤ) (hlo : intMin ≤ x) (hhi : x ≤ intMax) : wrap32 (A.sizeT x) = x := by
  have hsize : (A.sizeT x : ℤ) = x % (256 ^ A.w : ℕ) :=
    Int.toNat_of_nonneg (Int.emod_nonneg _ (by positivity))
  rw [hsize]
  have hdvd : (2 ^ 32 : ℤ) ∣ (256 ^ A.w : ℕ) := by
    rcases A.word with hw | hw <;> rw [hw] <;> norm_num
  have hmod : x % (256 ^ A.w : ℕ) % 2 ^ 32 = x % 2 ^ 32 := Int.emod_emod_of_dvd x hdvd
  have hself := wrap32_of_mem hlo hhi
  unfold wrap32 at hself ⊢
  rw [Int.bmod_def] at hself ⊢
  push_cast at hself hmod ⊢
  rw [hmod]
  exact hself

/-! ## Blocks -/

/-- The free list and the blocks in use, each with its start and its size. -/
structure Blocks (A : HeapLayout) (h : Heap) (free used : List (ℕ × ℕ)) : Prop where
  links : Chain.Linked (A.next h) h.freeList (free.map Prod.fst) 0
  sizes : ∀ b ∈ free ++ used, A.size h b.1 = b.2
  sorted : free.Pairwise fun b c => b.1 + b.2 ≤ c.1
  tiles : Tiles (free ++ used) A.heap heapSize
  large : ∀ b ∈ free ++ used, 3 * A.w ≤ b.2

theorem headers_apart {bs rest : List (ℕ × ℕ)} {b : ℕ × ℕ} (htiles : Tiles bs A.heap heapSize)
    (hlarge : ∀ b ∈ bs, 3 * A.w ≤ b.2) (hperm : bs.Perm (b :: rest)) :
    ∀ c ∈ rest, A.Apart b.1 c.1 := by
  have hlarge' : ∀ c ∈ b :: rest, 3 * A.w ≤ c.2 := fun c hc => hlarge c (hperm.mem_iff.2 hc)
  have hpos : ∀ c ∈ b :: rest, 0 < c.2 := by
    intro c hc
    have := hlarge' c hc
    have := A.w_pos
    omega
  intro c hc
  have hb := hlarge' b List.mem_cons_self
  have hc' := hlarge' c (List.mem_cons_of_mem _ hc)
  unfold Apart
  rcases (List.pairwise_cons.1 ((htiles.perm hperm.symm).pairwise hpos)).1 c hc with hlt | hlt
  · left
    omega
  · right
    omega

namespace Blocks

variable {free used pre post : List (ℕ × ℕ)}

theorem within (hb : A.Blocks h free used) {b : ℕ × ℕ} (hmem : b ∈ free ++ used) :
    A.heap ≤ b.1 ∧ b.1 + b.2 ≤ A.heap + heapSize := by
  have hlarge := hb.large b hmem
  have := A.w_pos
  exact hb.tiles.within hmem (by omega)

theorem perm_used (hb : A.Blocks h free used) {used' : List (ℕ × ℕ)} (hperm : used'.Perm used) :
    A.Blocks h free used' where
  links := hb.links
  sizes := fun b hmem => hb.sizes b (((List.Perm.refl free).append hperm).mem_iff.1 hmem)
  sorted := hb.sorted
  tiles := hb.tiles.perm ((List.Perm.refl free).append hperm)
  large := fun b hmem => hb.large b (((List.Perm.refl free).append hperm).mem_iff.1 hmem)

end Blocks

theorem perm_free (pre post used : List (ℕ × ℕ)) (b : ℕ × ℕ) :
    (pre ++ b :: post ++ used).Perm (b :: (pre ++ post ++ used)) :=
  List.Perm.append_right used List.perm_middle

namespace Blocks

variable {free used pre post : List (ℕ × ℕ)}

theorem lt_range (hb : A.Blocks h free used) {b : ℕ × ℕ} (hmem : b ∈ free ++ used) :
    b.1 + b.2 < 256 ^ A.w := lt_of_le_of_lt (hb.within hmem).2 A.fits

/-- Cut a free block in two, and use the second part. -/
theorem cut {a s k : ℕ} (hb : A.Blocks h (pre ++ (a, s + k) :: post) used) (hs : 3 * A.w ≤ s)
    (hk : 3 * A.w ≤ k) :
    A.Blocks (A.setSize (A.setSize h a s) (a + s) k) (pre ++ (a, s) :: post)
      ((a + s, k) :: used) := by
  have hperm : (pre ++ (a, s) :: post ++ (a + s, k) :: used).Perm
      ((a, s) :: (a + s, k) :: (pre ++ post ++ used)) :=
    (perm_free pre post _ _).trans (List.perm_middle.cons _)
  have hperm' : (pre ++ (a, s) :: post ++ (a + s, k) :: used).Perm
      ((a + s, k) :: (a, s) :: (pre ++ post ++ used)) := hperm.trans (List.Perm.swap _ _ _)
  have hold := perm_free pre post used (a, s + k)
  have htiles : Tiles (pre ++ (a, s) :: post ++ (a + s, k) :: used) A.heap heapSize :=
    (hb.tiles.perm hold.symm).split.perm hperm
  have hlarge : ∀ b ∈ pre ++ (a, s) :: post ++ (a + s, k) :: used, 3 * A.w ≤ b.2 := by
    intro b hmem
    rcases List.mem_cons.1 (hperm.mem_iff.1 hmem) with rfl | hmem
    · exact hs
    rcases List.mem_cons.1 hmem with rfl | hmem
    · exact hk
    · exact hb.large b (hold.mem_iff.2 (List.mem_cons_of_mem _ hmem))
  have hrange := hb.lt_range (hold.mem_iff.2 List.mem_cons_self)
  simp only at hrange
  have hapart := headers_apart htiles hlarge hperm
  have hapart' := headers_apart htiles hlarge hperm'
  refine ⟨?_, ?_, ?_, htiles, hlarge⟩
  · -- the sizes are not links
    have hmap : (pre ++ (a, s) :: post).map Prod.fst = (pre ++ (a, s + k) :: post).map Prod.fst := by
      simp only [List.map_append, List.map_cons]
    rw [hmap]
    refine hb.links.congr fun x hx => ?_
    rw [← hmap] at hx
    obtain ⟨b, hmem, rfl⟩ := List.mem_map.1 hx
    have hmem' : b = (a, s) ∨ b ∈ pre ++ post := by
      rcases List.mem_append.1 hmem with hmem | hmem
      · exact Or.inr (List.mem_append_left _ hmem)
      · rcases List.mem_cons.1 hmem with rfl | hmem
        · exact Or.inl rfl
        · exact Or.inr (List.mem_append_right _ hmem)
    rcases hmem' with rfl | hmem'
    · rw [next_setSize (Or.inr (hapart' _ List.mem_cons_self)), next_setSize (Or.inl rfl)]
    · have hin : b ∈ pre ++ post ++ used := List.mem_append_left _ hmem'
      rw [next_setSize (Or.inr (hapart' _ (List.mem_cons_of_mem _ hin))),
        next_setSize (Or.inr (hapart _ (List.mem_cons_of_mem _ hin)))]
  · intro b hmem
    rcases List.mem_cons.1 (hperm.mem_iff.1 hmem) with rfl | hmem
    · rw [size_setSize_of_apart (hapart' _ List.mem_cons_self), size_setSize (by omega)]
    rcases List.mem_cons.1 hmem with rfl | hmem
    · rw [size_setSize (by omega)]
    · rw [size_setSize_of_apart (hapart' _ (List.mem_cons_of_mem _ hmem)),
        size_setSize_of_apart (hapart _ (List.mem_cons_of_mem _ hmem))]
      exact hb.sizes b (hold.mem_iff.2 (List.mem_cons_of_mem _ hmem))
  · have hsorted := hb.sorted
    rw [List.pairwise_append, List.pairwise_cons] at hsorted ⊢
    obtain ⟨hpre, ⟨hfirst, hpost⟩, hcross⟩ := hsorted
    refine ⟨hpre, ⟨fun c hc => ?_, hpost⟩, fun b hmem c hc => ?_⟩
    · have := hfirst c hc
      simp only at this ⊢
      omega
    · rcases List.mem_cons.1 hc with rfl | hc
      · exact hcross b hmem (a, s + k) List.mem_cons_self
      · exact hcross b hmem c (List.mem_cons_of_mem _ hc)

end Blocks

/-! ## The link before a block -/

/-- `prev` is the last of the blocks, 0 if there are none. -/
def Before (pre : List (ℕ × ℕ)) (prev : ℕ) : Prop :=
  (pre = [] ∧ prev = 0) ∨ ∃ front s, pre = front ++ [(prev, s)]

theorem size_setLink {prev : ℕ} (hab : b = prev ∨ A.Apart prev b ∨ prev = 0) :
    A.size (A.setLink h prev v) b = A.size h b := by
  unfold setLink
  split
  · rfl
  · next hne =>
      rcases hab with heq | hap | hzero
      · exact size_setNext (Or.inl heq)
      · exact size_setNext (Or.inr hap)
      · exact absurd hzero hne

theorem next_setLink {prev : ℕ} (hab : A.Apart prev b ∨ prev = 0) :
    A.next (A.setLink h prev v) b = A.next h b := by
  unfold setLink
  split
  · rfl
  · next hne => exact next_setNext_of_apart (hab.resolve_right hne)

/-- After the assignment the blocks up to `prev` lead to `v`. -/
theorem linked_setLink {pre : List (ℕ × ℕ)} {prev c : ℕ} (hprev : Before pre prev)
    (hlinks : Chain.Linked (A.next h) h.freeList (pre.map Prod.fst) c)
    (hpos : ∀ b ∈ pre, b.1 ≠ 0) (hapart : pre.Pairwise fun b c => A.Apart b.1 c.1)
    (hv : v < 256 ^ A.w) :
    Chain.Linked (A.next (A.setLink h prev v)) (A.setLink h prev v).freeList (pre.map Prod.fst) v := by
  rcases hprev with ⟨rfl, rfl⟩ | ⟨front, s, rfl⟩
  · rfl
  · have hne : prev ≠ 0 := hpos (prev, s) (List.mem_append_right _ List.mem_cons_self)
    have hset : A.setLink h prev v = A.setNext h prev v := if_neg hne
    rw [List.pairwise_append] at hapart
    rw [List.map_append, List.map_singleton, Chain.linked_concat] at hlinks ⊢
    rw [hset]
    refine ⟨hlinks.1.congr fun x hx => ?_, next_setNext hv⟩
    obtain ⟨b, hmem, rfl⟩ := List.mem_map.1 hx
    exact next_setNext_of_apart (hapart.2.2 b hmem _ List.mem_cons_self).symm

/-- The block before another one in the list is one of the list, or there is none. -/
theorem Before.cases {pre : List (ℕ × ℕ)} {prev : ℕ} (hprev : Before pre prev) :
    prev = 0 ∨ ∃ s, (prev, s) ∈ pre := by
  rcases hprev with ⟨-, rfl⟩ | ⟨front, s, rfl⟩
  · exact Or.inl rfl
  · exact Or.inr ⟨s, List.mem_append_right _ List.mem_cons_self⟩

namespace Blocks

variable {free used pre post : List (ℕ × ℕ)} {prev : ℕ}

theorem pairwise_apart (hb : A.Blocks h free used) :
    (free ++ used).Pairwise fun b c => A.Apart b.1 c.1 := by
  have hpos : ∀ b ∈ free ++ used, 0 < b.2 := by
    intro b hmem
    have := hb.large b hmem
    have := A.w_pos
    omega
  refine (hb.tiles.pairwise hpos).imp_of_mem fun {b c} hbm hcm hbc => ?_
  have hlb := hb.large b hbm
  have hlc := hb.large c hcm
  unfold Apart
  omega

theorem addr_ne_zero (hb : A.Blocks h free used) {b : ℕ × ℕ} (hmem : b ∈ free ++ used) :
    b.1 ≠ 0 := by
  have := (hb.within hmem).1
  have := A.pos
  omega

/-- Two blocks are the same or their headers are apart. -/
theorem eq_or_apart (hb : A.Blocks h free used) {b c : ℕ × ℕ} (hbm : b ∈ free ++ used)
    (hcm : c ∈ free ++ used) : c = b ∨ A.Apart b.1 c.1 := by
  have hsymm : Std.Symm fun b c : ℕ × ℕ => A.Apart b.1 c.1 := ⟨fun _ _ h => Apart.symm h⟩
  by_cases heq : c = b
  · exact Or.inl heq
  · exact Or.inr (hb.pairwise_apart.forall hbm hcm (Ne.symm heq))

/-- Take a block out of the list and use it. -/
theorem take {b : ℕ × ℕ} (hb : A.Blocks h (pre ++ b :: post) used) (hprev : Before pre prev) :
    A.Blocks (A.setLink h prev (A.next h b.1)) (pre ++ post) (b :: used) := by
  have hperm : (pre ++ post ++ b :: used).Perm (pre ++ b :: post ++ used) :=
    List.perm_middle.trans (perm_free pre post used b).symm
  have hapart := hb.pairwise_apart
  rw [List.append_assoc, List.pairwise_append] at hapart
  obtain ⟨hpre, -, hcross⟩ := hapart
  have hlinks := hb.links
  rw [List.map_append, List.map_cons, Chain.linked_append] at hlinks
  obtain ⟨c, hfirst, -, hrest⟩ := hlinks
  refine ⟨?_, ?_, ?_, hb.tiles.perm hperm, fun c hmem => hb.large c (hperm.mem_iff.1 hmem)⟩
  · rw [List.map_append, Chain.linked_append]
    refine ⟨A.next h b.1, linked_setLink hprev hfirst ?_ hpre (next_lt h b.1), ?_⟩
    · intro c hc
      exact hb.addr_ne_zero (List.mem_append_left _ (List.mem_append_left _ hc))
    · refine hrest.congr fun x hx => next_setLink ?_
      obtain ⟨d, hmem, rfl⟩ := List.mem_map.1 hx
      rcases hprev.cases with hzero | ⟨s, hs⟩
      · exact Or.inr hzero
      · exact Or.inl (hcross _ hs d (List.mem_append_left _ (List.mem_cons_of_mem _ hmem)))
  · intro d hmem
    rw [hperm.mem_iff] at hmem
    rw [← hb.sizes d hmem]
    refine size_setLink ?_
    rcases hprev.cases with hzero | ⟨s, hs⟩
    · exact Or.inr (Or.inr hzero)
    · rcases hb.eq_or_apart (List.mem_append_left _ (List.mem_append_left _ hs)) hmem with heq | hap
      · exact Or.inl (congrArg Prod.fst heq)
      · exact Or.inr (Or.inl hap)
  · exact hb.sorted.sublist ((List.sublist_cons_self b post).append_left pre)

end Blocks

namespace Blocks

variable {free used pre post : List (ℕ × ℕ)} {prev cur : ℕ}

/-- The free block at which a walk through the list has arrived is one of the list, or there is none. -/
theorem cur_lt (hb : A.Blocks h (pre ++ post) used)
    (hcur : Chain.Linked (A.next h) cur (post.map Prod.fst) 0) : cur < 256 ^ A.w := by
  cases post with
  | nil =>
      rw [show cur = 0 from hcur]
      positivity
  | cons c post =>
      rw [show cur = c.1 from hcur.1]
      have := hb.lt_range (List.mem_append_left used (List.mem_append_right pre List.mem_cons_self))
      omega

/-- Put a block that was in use into the list. -/
theorem put {b : ℕ × ℕ} (hb : A.Blocks h (pre ++ post) (b :: used)) (hprev : Before pre prev)
    (hcur : Chain.Linked (A.next h) cur (post.map Prod.fst) 0)
    (hbefore : ∀ c ∈ pre, c.1 + c.2 ≤ b.1) (hafter : ∀ c ∈ post, b.1 + b.2 ≤ c.1) :
    A.Blocks (A.setNext (A.setLink h prev b.1) b.1 cur) (pre ++ b :: post) used := by
  have hperm : (pre ++ b :: post ++ used).Perm (pre ++ post ++ b :: used) :=
    (perm_free pre post used b).trans List.perm_middle.symm
  have hbm : b ∈ pre ++ post ++ b :: used := List.mem_append_right _ List.mem_cons_self
  have hprem : ∀ c ∈ pre, c ∈ pre ++ post ++ b :: used :=
    fun c hc => List.mem_append_left _ (List.mem_append_left _ hc)
  have hpostm : ∀ c ∈ post, c ∈ pre ++ post ++ b :: used :=
    fun c hc => List.mem_append_left _ (List.mem_append_right _ hc)
  have hapart := hb.pairwise_apart
  rw [List.append_assoc, List.pairwise_append, List.pairwise_append] at hapart
  obtain ⟨hpre, ⟨-, -, hpostb⟩, hcross⟩ := hapart
  have hbpre : ∀ c ∈ pre, A.Apart b.1 c.1 :=
    fun c hc => (hcross c hc b (List.mem_append_right _ List.mem_cons_self)).symm
  have hbpost : ∀ c ∈ post, A.Apart b.1 c.1 :=
    fun c hc => (hpostb c hc b List.mem_cons_self).symm
  have hlinks := hb.links
  rw [List.map_append, Chain.linked_append] at hlinks
  obtain ⟨c, hfirst, -⟩ := hlinks
  have hrange := hb.lt_range hbm
  refine ⟨?_, ?_, ?_, hb.tiles.perm hperm, fun c hmem => hb.large c (hperm.mem_iff.1 hmem)⟩
  · rw [List.map_append, List.map_cons, Chain.linked_append]
    refine ⟨b.1, ?_, rfl, ?_⟩
    · have hlink := linked_setLink hprev hfirst (fun d hd => hb.addr_ne_zero (hprem d hd)) hpre
        (show b.1 < 256 ^ A.w by omega)
      refine hlink.congr fun x hx => ?_
      obtain ⟨d, hd, rfl⟩ := List.mem_map.1 hx
      exact next_setNext_of_apart (hbpre d hd)
    · rw [next_setNext (hb.cur_lt hcur)]
      refine hcur.congr fun x hx => ?_
      obtain ⟨d, hd, rfl⟩ := List.mem_map.1 hx
      rw [next_setNext_of_apart (hbpost d hd)]
      refine next_setLink ?_
      rcases hprev.cases with hzero | ⟨s, hs⟩
      · exact Or.inr hzero
      · exact Or.inl (hcross _ hs d (List.mem_append_left _ hd))
  · intro d hmem
    rw [hperm.mem_iff] at hmem
    rw [← hb.sizes d hmem]
    rw [size_setNext ((hb.eq_or_apart hbm hmem).imp_left (congrArg Prod.fst))]
    refine size_setLink ?_
    rcases hprev.cases with hzero | ⟨s, hs⟩
    · exact Or.inr (Or.inr hzero)
    · rcases hb.eq_or_apart (hprem _ hs) hmem with heq | hap
      · exact Or.inl (congrArg Prod.fst heq)
      · exact Or.inr (Or.inl hap)
  · have hsorted := hb.sorted
    rw [List.pairwise_append] at hsorted ⊢
    refine ⟨hsorted.1, List.pairwise_cons.2 ⟨hafter, hsorted.2.1⟩, fun c hc d hd => ?_⟩
    rcases List.mem_cons.1 hd with rfl | hd
    · exact hbefore c hc
    · exact hsorted.2.2 c hc d hd

/-- Merge a block with the one right after it. -/
theorem merge {a s s' : ℕ} (hb : A.Blocks h (pre ++ (a, s) :: (a + s, s') :: post) used) :
    A.Blocks (A.setNext (A.setSize h a (s + s')) a (A.next h (a + s))) (pre ++ (a, s + s') :: post)
      used := by
  have hold : (pre ++ (a, s) :: (a + s, s') :: post ++ used).Perm
      ((a, s) :: (a + s, s') :: (pre ++ post ++ used)) :=
    (perm_free pre _ used _).trans ((perm_free pre post used _).cons _)
  have hnew := perm_free pre post used (a, s + s')
  have htiles := (hb.tiles.perm hold.symm).join.perm hnew
  have hlarge : ∀ b ∈ pre ++ (a, s + s') :: post ++ used, 3 * A.w ≤ b.2 := by
    intro b hmem
    rcases List.mem_cons.1 (hnew.mem_iff.1 hmem) with rfl | hmem
    · have := hb.large (a, s) (hold.mem_iff.2 List.mem_cons_self)
      simp only at this ⊢
      omega
    · exact hb.large b (hold.mem_iff.2 (List.mem_cons_of_mem _ (List.mem_cons_of_mem _ hmem)))
  have hrange := hb.lt_range (hold.mem_iff.2 (List.mem_cons_of_mem _ List.mem_cons_self))
  simp only at hrange
  have hapart := headers_apart htiles hlarge hnew
  have hlinks := hb.links
  rw [List.map_append, List.map_cons, List.map_cons, Chain.linked_append] at hlinks
  obtain ⟨c, hfirst, rfl, hnext, hrest⟩ := hlinks
  refine ⟨?_, ?_, ?_, htiles, hlarge⟩
  · rw [List.map_append, List.map_cons, Chain.linked_append]
    have hframe : ∀ b ∈ pre ++ post,
        A.next (A.setNext (A.setSize h c (s + s')) c (A.next h (c + s))) b.1 = A.next h b.1 := by
      intro b hmem
      have hap := hapart b (List.mem_append_left _ hmem)
      rw [next_setNext_of_apart hap, next_setSize (Or.inr hap)]
    refine ⟨c, hfirst.congr fun x hx => ?_, rfl, ?_⟩
    · obtain ⟨d, hd, rfl⟩ := List.mem_map.1 hx
      exact hframe d (List.mem_append_left _ hd)
    · rw [next_setNext (next_lt h (c + s))]
      refine hrest.congr fun x hx => ?_
      obtain ⟨d, hd, rfl⟩ := List.mem_map.1 hx
      exact hframe d (List.mem_append_right _ hd)
  · intro d hmem
    rcases List.mem_cons.1 (hnew.mem_iff.1 hmem) with rfl | hmem
    · rw [size_setNext (Or.inl rfl), size_setSize (by omega)]
    · rw [size_setNext (Or.inr (hapart d hmem)), size_setSize_of_apart (hapart d hmem)]
      exact hb.sizes d (hold.mem_iff.2 (List.mem_cons_of_mem _ (List.mem_cons_of_mem _ hmem)))
  · have hsorted := hb.sorted
    simp only [List.pairwise_append, List.pairwise_cons, List.forall_mem_cons] at hsorted ⊢
    obtain ⟨hpre, ⟨⟨-, -⟩, hsecond, hpost⟩, hcross⟩ := hsorted
    refine ⟨hpre, ⟨fun c hc => ?_, hpost⟩, fun c hc => ⟨(hcross c hc).1, (hcross c hc).2.2⟩⟩
    have := hsecond c hc
    omega

end Blocks

/-! ## `malloc` -/

/-- The blocks between two calls: no free blocks touch. -/
structure Settled (A : HeapLayout) (h : Heap) (free used : List (ℕ × ℕ)) : Prop where
  blocks : A.Blocks h free used
  parted : free.Pairwise fun b c => b.1 + b.2 < c.1

theorem Settled.length_free {free used : List (ℕ × ℕ)} (hs : A.Settled h free used) :
    free.length ≤ heapSize := by
  have hmem : ∀ b ∈ free, b ∈ free ++ used := fun b hb => List.mem_append_left _ hb
  have hlen := length_le_of_sorted A.heap (A.heap + heapSize) hs.blocks.sorted
    (fun b hb => by
      have := hs.blocks.large b (hmem b hb)
      have := A.w_pos
      omega)
    (fun b hb => (hs.blocks.within (hmem b hb)).1)
    (fun b hb => (hs.blocks.within (hmem b hb)).2)
  omega

theorem roundSize_spec {size : ℕ} (hsize : size ≤ 2 ^ 30) :
    2 * A.w ≤ A.roundSize size ∧ size ≤ A.roundSize size ∧ A.roundSize size ≤ 2 ^ 30 + 4 := by
  have hrange := A.range_le
  have hw := A.w_le
  unfold roundSize minAllocSize
  simp only
  split
  · have hcast : ((max (2 * A.w) size - max (2 * A.w) size % 4 : ℕ) : ℤ) + 4
        = ((max (2 * A.w) size - max (2 * A.w) size % 4 + 4 : ℕ) : ℤ) := by push_cast; rfl
    rw [hcast, sizeT_of_lt (by omega)]
    omega
  · omega

/-- A block can be cut if the rest of it is big enough for a block. -/
theorem cuttable_iff {k size : ℕ} (hk : k ≤ heapSize) (hsize : size ≤ 2 ^ 30 + 4) :
    wrap32 (A.sizeT (k - size - A.w)) ≥ wrap32 (A.minAllocSize + A.w) ↔
      size + A.w + 3 * A.w ≤ k := by
  have hw := A.w_le
  unfold heapSize at hk
  unfold minAllocSize
  rw [wrap32_sizeT _ (by unfold intMin; omega) (by unfold intMax; omega),
    wrap32_eq_self (by omega) (by omega)]
  omega

/-- A walk through the list finds no block, or a block of the size that is looked for is in use after
it. -/
theorem mallocLoop_spec {free used pre post : List (ℕ × ℕ)} {size n prev block : ℕ}
    (hs : A.Settled h free used) (hlo : 2 * A.w ≤ size) (hhi : size ≤ 2 ^ 30 + 4)
    (hfree : free = pre ++ post) (hprev : Before pre prev)
    (hblock : Chain.Linked (A.next h) block (post.map Prod.fst) 0) (hn : post.length < n) :
    A.mallocLoop h size n prev block = some (0, h) ∨
      ∃ a k h' free', A.mallocLoop h size n prev block = some (a + A.w, h') ∧ size + A.w ≤ k ∧
        A.Settled h' free' ((a, k) :: used) := by
  induction post generalizing pre prev block n with
  | nil =>
      obtain ⟨n, rfl⟩ : ∃ m, n = m + 1 := ⟨n - 1, by omega⟩
      left
      rw [mallocLoop, if_pos (show block = 0 from hblock)]
  | cons c post ih =>
      obtain ⟨n, rfl⟩ : ∃ m, n = m + 1 := ⟨n - 1, by omega⟩
      obtain ⟨rfl, hrest⟩ := hblock
      have hmem : c ∈ free ++ used :=
        List.mem_append_left _ (hfree ▸ List.mem_append_right _ List.mem_cons_self)
      have hne := hs.blocks.addr_ne_zero hmem
      have hsize := hs.blocks.sizes c hmem
      have hwithin := hs.blocks.within hmem
      have hrange := hs.blocks.lt_range hmem
      have hcuttable := cuttable_iff (A := A) (k := c.2) (by omega) hhi
      rw [mallocLoop, if_neg hne, hsize]
      by_cases hsplit : size + A.w + 3 * A.w ≤ c.2
      · -- the block is cut, and its last part given out
        obtain ⟨a, k⟩ := c
        simp only at hsplit hsize hwithin hrange hne
        obtain ⟨s, rfl⟩ : ∃ s, k = s + (size + A.w) := ⟨k - (size + A.w), by omega⟩
        have hrest : A.sizeT ((s + (size + A.w) : ℕ) - (size + A.w)) = s := by
          have hdiff : ((s + (size + A.w) : ℕ) : ℤ) - (size + A.w) = (s : ℤ) := by omega
          rw [hdiff, sizeT_of_lt (by omega)]
        have hlarge : 3 * A.w ≤ s := by omega
        have hcut := (hfree ▸ hs.blocks).cut hlarge (k := size + A.w) (by omega)
        right
        rw [if_pos (hcuttable.2 hsplit)]
        simp only
        rw [hrest, size_setSize (by omega)]
        refine ⟨a + s, size + A.w, _, _, rfl, Nat.le_refl _, hcut, ?_⟩
        have hparted := hs.parted
        rw [hfree] at hparted
        simp only [List.pairwise_append, List.pairwise_cons, List.forall_mem_cons] at hparted ⊢
        obtain ⟨hpre, ⟨hfirst, hpost⟩, hcross⟩ := hparted
        refine ⟨hpre, ⟨fun d hd => ?_, hpost⟩, hcross⟩
        have := hfirst d hd
        omega
      · have hroom : A.sizeT (size + A.w) = size + A.w := by
          have := A.range_le
          have := A.w_le
          exact_mod_cast sizeT_of_lt (A := A) (by omega)
        rw [if_neg (fun hge => hsplit (hcuttable.1 hge)), hroom]
        by_cases hfit : c.2 ≥ size + A.w
        · right
          rw [if_pos hfit]
          refine ⟨c.1, c.2, _, pre ++ post, rfl, hfit, (hfree ▸ hs.blocks).take hprev, ?_⟩
          have hparted := hs.parted
          rw [hfree] at hparted
          exact hparted.sublist ((List.sublist_cons_self c post).append_left pre)
        · rw [if_neg hfit]
          rw [List.length_cons] at hn
          have hfree' : free = pre ++ [c] ++ post := by
            rw [hfree, List.append_cons]
          exact ih hfree' (Or.inr ⟨pre, c.2, rfl⟩) hrest (by omega)

/-- `malloc` returns: `NULL`, or a block that was free with room for the bytes asked for. -/
theorem malloc_spec {free used : List (ℕ × ℕ)} {size : ℕ} (hs : A.Settled h free used)
    (hsize : size ≤ 2 ^ 30) :
    A.malloc h size = some (0, h) ∨
      ∃ a k h' free', A.malloc h size = some (a + A.w, h') ∧ size + A.w ≤ k ∧
        A.Settled h' free' ((a, k) :: used) := by
  unfold malloc
  split
  · exact Or.inl rfl
  · obtain ⟨hlo, hle, hhi⟩ := roundSize_spec (A := A) hsize
    have hlen := hs.length_free
    rcases mallocLoop_spec hs hlo hhi (List.nil_append free).symm (Or.inl ⟨rfl, rfl⟩)
      hs.blocks.links (n := heapSize + 1) (by omega) with hnull | ⟨a, k, h', free', heq, hk, hs'⟩
    · exact Or.inl hnull
    · exact Or.inr ⟨a, k, h', free', heq, by omega, hs'⟩

/-! ## `free` -/

namespace Blocks

variable {free used pre post : List (ℕ × ℕ)} {prev cur : ℕ}

/-- Of two blocks the one that starts first ends before the other. -/
theorem end_le_of_lt (hb : A.Blocks h free used) {b c : ℕ × ℕ} (hbm : b ∈ free ++ used)
    (hcm : c ∈ free ++ used) (hlt : b.1 < c.1) : b.1 + b.2 ≤ c.1 := by
  have hpos : ∀ d ∈ free ++ used, 0 < d.2 := by
    intro d hmem
    have := hb.large d hmem
    have := A.w_pos
    omega
  have hsymm : Std.Symm fun b c : ℕ × ℕ => b.1 + b.2 ≤ c.1 ∨ c.1 + c.2 ≤ b.1 :=
    ⟨fun _ _ hor => hor.symm⟩
  have hne : b ≠ c := by
    intro heq
    rw [heq] at hlt
    omega
  rcases (hb.tiles.pairwise hpos).forall hbm hcm hne with hle | hle
  · exact hle
  · omega

theorem next_eq (hb : A.Blocks h (pre ++ (a, v) :: post) used) :
    A.next h a = (post.map Prod.fst).headD 0 := by
  have hlinks := hb.links
  rw [List.map_append, List.map_cons, Chain.linked_append] at hlinks
  obtain ⟨c, -, -, hrest⟩ := hlinks
  exact hrest.start

/-- The test for two blocks that touch. -/
theorem touch_iff {c s s' : ℕ} (hb : A.Blocks h free used) (ha : (a, s) ∈ free ++ used)
    (hc : (c, s') ∈ free ++ used) (hle : a + s ≤ c) :
    A.sizeT ((c : ℤ) - a) = A.size h a ↔ c = a + s := by
  have hrange := hb.lt_range hc
  simp only at hrange
  have hdiff : (c : ℤ) - a = ((c - a : ℕ) : ℤ) := by omega
  rw [hdiff, sizeT_of_lt (by omega), hb.sizes _ ha]
  simp only
  omega

/-- The merging with the block before. -/
theorem mergePrev {b : ℕ × ℕ} (hb : A.Blocks h (pre ++ b :: post) used) (hprev : Before pre prev)
    (hparted : pre.Pairwise fun b c => b.1 + b.2 < c.1)
    (hcur : cur = (post.map Prod.fst).headD 0) :
    ∃ pre' s, pre'.Sublist pre ∧
      let r := if prev ≠ 0 ∧ A.sizeT (b.1 - prev) = A.size h prev then
        (prev, A.setNext (A.setSize h prev (A.sizeT (A.size h prev + A.size h b.1))) prev cur)
        else (b.1, h)
      A.Blocks r.2 (pre' ++ (r.1, s) :: post) used ∧ ∀ c ∈ pre', c.1 + c.2 < r.1 := by
  rcases hprev with ⟨rfl, rfl⟩ | ⟨front, s, rfl⟩
  · refine ⟨[], b.2, List.Sublist.refl _, ?_⟩
    rw [if_neg (fun hand => hand.1 rfl)]
    exact ⟨hb, fun c hc => absurd hc List.not_mem_nil⟩
  · have hpm : (prev, s) ∈ front ++ [(prev, s)] ++ b :: post ++ used := by simp
    have hbm : (b.1, b.2) ∈ front ++ [(prev, s)] ++ b :: post ++ used := by simp
    have hle : prev + s ≤ b.1 := (List.pairwise_append.1 hb.sorted).2.2 (prev, s) (by simp) b
      List.mem_cons_self
    have hfront := (List.pairwise_append.1 hparted).2.2
    have htouch := hb.touch_iff hpm hbm hle
    by_cases hcond : b.1 = prev + s
    · refine ⟨front, s + b.2, List.sublist_append_left _ _, ?_⟩
      rw [if_pos ⟨hb.addr_ne_zero hpm, htouch.2 hcond⟩]
      obtain ⟨a, k⟩ := b
      simp only at hcond
      subst hcond
      have hrange := hb.lt_range hbm
      simp only at hrange
      have hsum : (A.size h prev : ℤ) + A.size h (prev + s) = ((s + k : ℕ) : ℤ) := by
        rw [hb.sizes _ hpm, hb.sizes _ hbm]
        push_cast
        rfl
      have hnext : cur = A.next h (prev + s) := by
        rw [hcur, hb.next_eq]
      simp only
      rw [hsum, sizeT_of_lt (by omega), hnext]
      rw [List.append_assoc, List.singleton_append] at hb
      exact ⟨hb.merge, fun c hc => hfront c hc (prev, s) (by simp)⟩
    · refine ⟨_, b.2, List.Sublist.refl _, ?_⟩
      rw [if_neg (fun hand => hcond (htouch.1 hand.2))]
      refine ⟨hb, fun c hc => ?_⟩
      rcases List.mem_append.1 hc with hc | hc
      · have := hfront c hc (prev, s) (by simp)
        simp only at this ⊢
        omega
      · rw [List.mem_singleton.1 hc]
        simp only
        omega

/-- The merging with the block after. -/
theorem mergeNext {s : ℕ} (hb : A.Blocks h (pre ++ (a, s) :: post) used)
    (hparted : post.Pairwise fun b c => b.1 + b.2 < c.1)
    (hcur : cur = (post.map Prod.fst).headD 0) :
    ∃ s' post', post'.Sublist post ∧ (∀ c ∈ post', a + s' < c.1) ∧
      A.Blocks (if cur ≠ 0 ∧ A.sizeT (cur - a) = A.size h a then
          A.setNext (A.setSize h a (A.sizeT (A.size h a + A.size h cur))) a
            (A.next (A.setSize h a (A.sizeT (A.size h a + A.size h cur))) cur)
        else h) (pre ++ (a, s') :: post') used := by
  cases post with
  | nil =>
      refine ⟨s, [], List.Sublist.refl _, fun c hc => absurd hc List.not_mem_nil, ?_⟩
      rw [if_neg (fun hand => hand.1 hcur)]
      exact hb
  | cons c post =>
      obtain ⟨c, k⟩ := c
      rw [show cur = c from hcur]
      have ham : (a, s) ∈ pre ++ (a, s) :: (c, k) :: post ++ used := by simp
      have hcm : (c, k) ∈ pre ++ (a, s) :: (c, k) :: post ++ used := by simp
      have hle : a + s ≤ c := (List.pairwise_cons.1 (List.pairwise_append.1 hb.sorted).2.1).1
        (c, k) List.mem_cons_self
      have hafter := (List.pairwise_cons.1 hparted).1
      have htouch := hb.touch_iff ham hcm hle
      by_cases hcond : c = a + s
      · refine ⟨s + k, post, List.sublist_cons_self _ _, fun d hd => ?_, ?_⟩
        · have := hafter d hd
          simp only at this
          omega
        · rw [if_pos ⟨hb.addr_ne_zero hcm, htouch.2 hcond⟩]
          subst hcond
          have hrange := hb.lt_range hcm
          have hlarge := hb.large _ ham
          simp only at hrange hlarge
          have hsum : (A.size h a : ℤ) + A.size h (a + s) = ((s + k : ℕ) : ℤ) := by
            rw [hb.sizes _ ham, hb.sizes _ hcm]
            push_cast
            rfl
          have hap : A.Apart a (a + s) := Or.inl (by omega)
          rw [hsum, sizeT_of_lt (by omega), next_setSize (Or.inr hap)]
          exact hb.merge
      · refine ⟨s, (c, k) :: post, List.Sublist.refl _, fun d hd => ?_, ?_⟩
        · rcases List.mem_cons.1 hd with rfl | hd
          · simp only
            omega
          · have := hafter d hd
            simp only at this
            omega
        · rw [if_neg (fun hand => hcond (htouch.1 hand.2))]
          exact hb

end Blocks

/-- A block is put between those before and those after it, and no blocks touch then. -/
theorem insertBlock_spec {used pre post : List (ℕ × ℕ)} {prev cur : ℕ} {b : ℕ × ℕ}
    (hs : A.Settled h (pre ++ post) (b :: used)) (hprev : Before pre prev)
    (hcur : Chain.Linked (A.next h) cur (post.map Prod.fst) 0)
    (hbefore : ∀ c ∈ pre, c.1 < b.1) (hafter : ∀ c ∈ post, b.1 < c.1) :
    ∃ free', A.Settled (A.insertBlock h b.1 prev cur) free' used := by
  have hbm : b ∈ pre ++ post ++ b :: used := List.mem_append_right _ List.mem_cons_self
  have hmem : ∀ c ∈ pre ++ post, c ∈ pre ++ post ++ b :: used :=
    fun c hc => List.mem_append_left _ hc
  have hput := hs.blocks.put hprev hcur
    (fun c hc => hs.blocks.end_le_of_lt (hmem c (List.mem_append_left _ hc)) hbm (hbefore c hc))
    (fun c hc => hs.blocks.end_le_of_lt hbm (hmem c (List.mem_append_right _ hc)) (hafter c hc))
  have hparted := List.pairwise_append.1 hs.parted
  obtain ⟨pre', s, hsub, hblocks, hpre'⟩ := hput.mergePrev hprev hparted.1 hcur.start
  obtain ⟨s', post', hsub', hpost', hblocks'⟩ := hblocks.mergeNext hparted.2.1 hcur.start
  refine ⟨_, hblocks', ?_⟩
  refine List.pairwise_append.2 ⟨hparted.1.sublist hsub,
    List.pairwise_cons.2 ⟨hpost', hparted.2.1.sublist hsub'⟩, fun c hc d hd => ?_⟩
  rcases List.mem_cons.1 hd with rfl | hd
  · exact hpre' c hc
  · exact hparted.2.2 c (hsub.subset hc) d (hsub'.subset hd)

/-- The walk of `free` ends where the block belongs. -/
theorem freeLoop_spec {used pre post : List (ℕ × ℕ)} {n prev cur : ℕ} {b : ℕ × ℕ}
    (hs : A.Settled h (pre ++ post) (b :: used)) (hprev : Before pre prev)
    (hcur : Chain.Linked (A.next h) cur (post.map Prod.fst) 0)
    (hbefore : ∀ c ∈ pre, c.1 < b.1) (hn : post.length < n) :
    ∃ h' free', A.freeLoop h b.1 n prev cur = some h' ∧ A.Settled h' free' used := by
  induction post generalizing pre prev cur n with
  | nil =>
      obtain ⟨n, rfl⟩ : ∃ m, n = m + 1 := ⟨n - 1, by omega⟩
      obtain ⟨free', hs'⟩ := insertBlock_spec hs hprev hcur hbefore
        (fun c hc => absurd hc List.not_mem_nil)
      refine ⟨_, free', ?_, hs'⟩
      rw [freeLoop, if_pos (Or.inr (show cur = 0 from hcur))]
  | cons c post ih =>
      obtain ⟨n, rfl⟩ : ∃ m, n = m + 1 := ⟨n - 1, by omega⟩
      have hbm : b ∈ pre ++ c :: post ++ b :: used := List.mem_append_right _ List.mem_cons_self
      have hcm : c ∈ pre ++ c :: post ++ b :: used := by simp
      by_cases hlt : b.1 < c.1
      · have hafter : ∀ d ∈ c :: post, b.1 < d.1 := by
          intro d hd
          rcases List.mem_cons.1 hd with rfl | hd
          · exact hlt
          · have := (List.pairwise_cons.1 (List.pairwise_append.1 hs.blocks.sorted).2.1).1 d hd
            omega
        obtain ⟨free', hs'⟩ := insertBlock_spec hs hprev hcur hbefore hafter
        refine ⟨_, free', ?_, hs'⟩
        rw [freeLoop, if_pos (Or.inl (by rw [show cur = c.1 from hcur.1]; exact hlt))]
      · obtain ⟨rfl, hrest⟩ := hcur
        -- the block is not in the list, so it is behind this one
        have hne : c.1 ≠ b.1 := by
          have hcross := (List.pairwise_append.1 hs.blocks.pairwise_apart).2.2 c (by simp) b
            List.mem_cons_self
          have := A.w_pos
          unfold Apart at hcross
          omega
        have hstop : ¬ (b.1 < c.1 ∨ c.1 = 0) := by
          have := hs.blocks.addr_ne_zero hcm
          omega
        rw [freeLoop, if_neg hstop]
        rw [List.append_cons] at hs
        rw [List.length_cons] at hn
        refine ih hs (Or.inr ⟨pre, c.2, rfl⟩) hrest (fun d hd => ?_) (by omega)
        rcases List.mem_append.1 hd with hd | hd
        · exact hbefore d hd
        · rw [List.mem_singleton.1 hd]
          omega

/-- `free` returns, and the block is free. -/
theorem free_spec {free used : List (ℕ × ℕ)} {b : ℕ × ℕ} (hs : A.Settled h free (b :: used)) :
    ∃ h' free', A.free h (b.1 + A.w) = some h' ∧ A.Settled h' free' used := by
  have hlen := hs.length_free
  have hw := A.w_pos
  unfold HeapLayout.free
  rw [if_pos (by omega), Nat.add_sub_cancel]
  have hs' : A.Settled h ([] ++ free) (b :: used) := hs
  exact freeLoop_spec hs' (Or.inl ⟨rfl, rfl⟩) hs.blocks.links
    (fun c hc => absurd hc List.not_mem_nil) (by omega)

end HeapLayout

/-! ## Runs -/

/-- The blocks in use, from their headers on. -/
def HeapSystem.liveBlocks (A : HeapLayout) (S : HeapSystem) : List (ℕ × ℕ) :=
  S.live.map fun p => (p.1 - A.w, A.size S.heap (p.1 - A.w))

/-- What holds between the calls of a program. -/
structure HeapInv (A : HeapLayout) (S : HeapSystem) : Prop where
  settled : ∃ free, A.Settled S.heap free (S.liveBlocks A)
  room : ∀ p ∈ S.live, A.w ≤ p.1 ∧ p.2 + A.w ≤ A.size S.heap (p.1 - A.w)

variable {A : HeapLayout} {S S' : HeapSystem}

theorem mem_liveBlocks {p : ℕ × ℕ} (hp : p ∈ S.live) :
    (p.1 - A.w, A.size S.heap (p.1 - A.w)) ∈ S.liveBlocks A := List.mem_map_of_mem hp

/-- Blocks that keep their sizes are the blocks in use after a call. -/
theorem heapInv_of_settled {h h' : Heap} {free live : List (ℕ × ℕ)} (used live' : List (ℕ × ℕ))
    (hs : A.Settled h' free (used ++ HeapSystem.liveBlocks A ⟨h, live⟩))
    (hused : used = live'.map fun p => (p.1 - A.w, A.size h' (p.1 - A.w)))
    (hroom : ∀ p ∈ live, A.w ≤ p.1 ∧ p.2 + A.w ≤ A.size h (p.1 - A.w))
    (hroom' : ∀ p ∈ live', A.w ≤ p.1 ∧ p.2 + A.w ≤ A.size h' (p.1 - A.w)) :
    HeapInv A ⟨h', live' ++ live⟩ := by
  have hsize : ∀ p ∈ live, A.size h' (p.1 - A.w) = A.size h (p.1 - A.w) := by
    intro p hp
    have hmem : (p.1 - A.w, A.size h (p.1 - A.w)) ∈ HeapSystem.liveBlocks A ⟨h, live⟩ :=
      List.mem_map_of_mem hp
    exact hs.blocks.sizes _ (List.mem_append_right _ (List.mem_append_right _ hmem))
  refine ⟨⟨free, ?_⟩, fun p hp => ?_⟩
  · have hblocks : HeapSystem.liveBlocks A ⟨h', live' ++ live⟩
        = used ++ HeapSystem.liveBlocks A ⟨h, live⟩ := by
      unfold HeapSystem.liveBlocks
      rw [List.map_append, hused]
      congr 1
      refine List.map_congr_left fun p hp => ?_
      rw [hsize p hp]
    rw [hblocks]
    exact hs
  · rcases List.mem_append.1 hp with hp | hp
    · exact hroom' p hp
    · rw [hsize p hp]
      exact hroom p hp

theorem heapInv_init (mem : ℕ → UInt8) : HeapInv A ⟨A.heapInit mem, []⟩ := by
  have hrange : heapSize < 256 ^ A.w := by
    have := A.fits
    omega
  have hsize : A.size (A.heapInit mem) A.heap = heapSize := by
    unfold HeapLayout.heapInit
    rw [HeapLayout.size_setNext (Or.inl rfl), HeapLayout.size_setSize hrange]
  have hnext : A.next (A.heapInit mem) A.heap = 0 := by
    unfold HeapLayout.heapInit
    exact HeapLayout.next_setNext (by omega)
  have hw := A.w_le
  refine ⟨⟨[(A.heap, heapSize)], ⟨⟨rfl, hnext⟩, ?_, List.pairwise_singleton _ _,
    tiles_singleton _ _, ?_⟩, List.pairwise_singleton _ _⟩, fun p hp => absurd hp List.not_mem_nil⟩
  · intro b hb
    rw [List.mem_singleton.1 hb]
    exact hsize
  · intro b hb
    rw [List.mem_singleton.1 hb]
    unfold heapSize
    omega

/-- The block of a live result and the other blocks in use. -/
theorem liveBlocks_perm {p : ℕ × ℕ} (hp : p ∈ S.live) :
    (S.liveBlocks A).Perm ((p.1 - A.w, A.size S.heap (p.1 - A.w)) ::
      HeapSystem.liveBlocks A ⟨S.heap, S.live.erase p⟩) :=
  (List.perm_cons_erase hp).map _

/-- `free` returns for each live result. -/
theorem HeapInv.free_returns (hinv : HeapInv A S) {p : ℕ × ℕ} (hp : p ∈ S.live) :
    ∃ h' free', A.free S.heap p.1 = some h' ∧
      A.Settled h' free' (HeapSystem.liveBlocks A ⟨S.heap, S.live.erase p⟩) := by
  obtain ⟨free, hs⟩ := hinv.settled
  have hs' := HeapLayout.Settled.mk (hs.blocks.perm_used (liveBlocks_perm hp).symm) hs.parted
  obtain ⟨h', free', heq, hsettled⟩ := HeapLayout.free_spec hs'
  rw [Nat.sub_add_cancel (hinv.room p hp).1] at heq
  exact ⟨h', free', heq, hsettled⟩

/-- The bytes that the program may use are in no header of a block in use and in no free block. -/
theorem HeapInv.not_usable (hinv : HeapInv A S) {free : List (ℕ × ℕ)}
    (hs : A.Settled S.heap free (S.liveBlocks A)) {b : ℕ × ℕ} {x : ℕ} (hlo : b.1 ≤ x)
    (hx : (b ∈ free ∧ x < b.1 + 2 * A.w) ∨ (b ∈ S.liveBlocks A ∧ x < b.1 + A.w)) :
    ¬ S.Usable A x := by
  rintro ⟨p, hp, hplo, hphi⟩
  have hroom := hinv.room p hp
  have hpm : (p.1 - A.w, A.size S.heap (p.1 - A.w)) ∈ free ++ S.liveBlocks A :=
    List.mem_append_right _ (mem_liveBlocks hp)
  have hbm : b ∈ free ++ S.liveBlocks A := by
    rcases hx with ⟨hb, -⟩ | ⟨hb, -⟩
    · exact List.mem_append_left _ hb
    · exact List.mem_append_right _ hb
  have hlarge := hs.blocks.large b hbm
  rcases Nat.lt_trichotomy b.1 (p.1 - A.w) with hlt | heq | hgt
  · have := hs.blocks.end_le_of_lt hbm hpm hlt
    simp only at this
    omega
  · rcases hx with ⟨hb, -⟩ | ⟨-, hx⟩
    · have hcross := (List.pairwise_append.1 hs.blocks.pairwise_apart).2.2 b hb _ (mem_liveBlocks hp)
      have := A.w_pos
      unfold HeapLayout.Apart at hcross
      simp only at hcross
      omega
    · omega
  · have := hs.blocks.end_le_of_lt hpm hbm hgt
    simp only at this
    omega

/-- Writes to bytes that are in use change no header. -/
theorem HeapInv.write (hinv : HeapInv A S) {mem : ℕ → UInt8}
    (hmem : ∀ x, ¬ S.Usable A x → mem x = S.heap.mem x) :
    HeapInv A ⟨{ S.heap with mem := mem }, S.live⟩ := by
  obtain ⟨free, hs⟩ := hinv.settled
  have hsize : ∀ b ∈ free ++ S.liveBlocks A,
      A.size { S.heap with mem := mem } b.1 = A.size S.heap b.1 := by
    intro b hb
    refine ByteMemory.load_congr fun x hlo hhi => hmem x (hinv.not_usable hs hlo ?_)
    rcases List.mem_append.1 hb with hb | hb
    · exact Or.inl ⟨hb, by omega⟩
    · exact Or.inr ⟨hb, hhi⟩
  have hnext : ∀ b ∈ free, A.next { S.heap with mem := mem } b.1 = A.next S.heap b.1 := by
    intro b hb
    refine ByteMemory.load_congr fun x hlo hhi => hmem x (hinv.not_usable hs (b := b) (by omega) ?_)
    exact Or.inl ⟨hb, by omega⟩
  have hs' : A.Settled { S.heap with mem := mem } free
      ([] ++ HeapSystem.liveBlocks A ⟨S.heap, S.live⟩) := by
    refine ⟨⟨?_, fun b hb => ?_, hs.blocks.sorted, hs.blocks.tiles, hs.blocks.large⟩, hs.parted⟩
    · refine hs.blocks.links.congr fun x hx => ?_
      obtain ⟨b, hb, rfl⟩ := List.mem_map.1 hx
      exact hnext b hb
    · rw [hsize b hb]
      exact hs.blocks.sizes b hb
  exact heapInv_of_settled [] [] hs' rfl hinv.room (fun p hp => absurd hp List.not_mem_nil)

/-- A result of `malloc` that is not `NULL` is one more in use. -/
theorem HeapInv.malloc (hinv : HeapInv A S) {size : ℕ} (hsize : size ≤ 2 ^ 30) :
    A.malloc S.heap size = some (0, S.heap) ∨
      ∃ ptr h, A.malloc S.heap size = some (ptr, h) ∧ ptr ≠ 0 ∧ HeapInv A ⟨h, (ptr, size) :: S.live⟩ := by
  obtain ⟨free, hs⟩ := hinv.settled
  rcases HeapLayout.malloc_spec hs hsize with hnull | ⟨a, k, h', free', hgot, hk, hs'⟩
  · exact Or.inl hnull
  · have hw := A.w_pos
    have hblock : A.size h' a = k :=
      hs'.blocks.sizes (a, k) (List.mem_append_right _ List.mem_cons_self)
    refine Or.inr ⟨a + A.w, h', hgot, by omega, ?_⟩
    refine heapInv_of_settled [(a, k)] [(a + A.w, size)] hs' ?_ hinv.room ?_
    · rw [List.map_singleton, Nat.add_sub_cancel, hblock]
    · intro p hp
      rw [List.mem_singleton.1 hp, Nat.add_sub_cancel, hblock]
      exact ⟨Nat.le_add_left _ _, hk⟩

/-- A call, or a write of the program, keeps the invariant. -/
theorem HeapStep.keeps {call : HeapCall} (hstep : HeapStep A S call S') (hinv : HeapInv A S) :
    HeapInv A S' := by
  cases hstep with
  | @malloc size ptr h hsize heq =>
      rcases hinv.malloc hsize with hnull | ⟨ptr', h', hgot, hne, hinv'⟩
      · rw [hnull, Option.some.injEq, Prod.mk.injEq] at heq
        obtain ⟨rfl, rfl⟩ := heq
        exact hinv
      · rw [hgot, Option.some.injEq, Prod.mk.injEq] at heq
        obtain ⟨rfl, rfl⟩ := heq
        rw [if_neg hne]
        exact hinv'
  | @free p h hp heq =>
      obtain ⟨h', free', hgot, hs'⟩ := hinv.free_returns hp
      rw [hgot, Option.some.injEq] at heq
      subst heq
      exact heapInv_of_settled [] [] hs' rfl
        (fun q hq => hinv.room q (List.mem_of_mem_erase hq))
        (fun q hq => absurd hq List.not_mem_nil)
  | write hmem => exact hinv.write hmem

theorem heapReachable_inv (hreach : HeapReachable A S) : HeapInv A S := by
  refine hreach.invariant ?_ ?_
  · rintro S ⟨mem, rfl⟩
    exact heapInv_init mem
  · intro S call S' hinv hstep
    exact hstep.keeps hinv

/-- No free block ends where another one starts. -/
theorem settled_not_adjacent {h : Heap} {free used : List (ℕ × ℕ)} (hs : A.Settled h free used)
    {b c : ℕ × ℕ} (hb : b ∈ free) (hc : c ∈ free) : b.1 + b.2 ≠ c.1 := by
  have hsymm : Std.Symm fun b c : ℕ × ℕ => b.1 + b.2 < c.1 ∨ c.1 + c.2 < b.1 :=
    ⟨fun _ _ hor => hor.symm⟩
  have hlargeb := hs.blocks.large b (List.mem_append_left _ hb)
  have hw := A.w_pos
  by_cases heq : b = c
  · rw [← heq]
    omega
  · have hor := (hs.parted.imp fun {b c} hlt => Or.inl (b := c.1 + c.2 < b.1) hlt).forall hb hc heq
    omega

/-- The bytes of a live result are in its block, and in the heap. -/
theorem HeapInv.live_within (hinv : HeapInv A S) {p : ℕ × ℕ} (hp : p ∈ S.live) :
    A.heap + A.w ≤ p.1 ∧ p.1 + p.2 ≤ p.1 - A.w + A.size S.heap (p.1 - A.w) ∧
      p.1 + p.2 ≤ A.heap + heapSize := by
  obtain ⟨free, hs⟩ := hinv.settled
  have hroom := hinv.room p hp
  have hwithin := hs.blocks.within (List.mem_append_right free (mem_liveBlocks (A := A) hp))
  simp only at hwithin
  omega

/-- The blocks of live results have no bytes in common. -/
theorem HeapInv.live_apart (hinv : HeapInv A S) : S.live.Pairwise fun p q =>
    p.1 - A.w + A.size S.heap (p.1 - A.w) ≤ q.1 - A.w ∨
      q.1 - A.w + A.size S.heap (q.1 - A.w) ≤ p.1 - A.w := by
  obtain ⟨free, hs⟩ := hinv.settled
  have hpos : ∀ b ∈ free ++ S.liveBlocks A, 0 < b.2 := by
    intro b hb
    have := hs.blocks.large b hb
    have := A.w_pos
    omega
  have hpair := (List.pairwise_append.1 (hs.blocks.tiles.pairwise hpos)).2.1
  exact List.pairwise_map.1 hpair

/-- At every moment between the calls the free list has its blocks in the order of their addresses,
and none touches another; the free blocks and the blocks in use tile the heap; each result of `malloc`
has the bytes that were asked for, in a block of its own; with no block in use the heap is one free
block; and `malloc` and `free` return. -/
theorem heapReachable_law (hreach : HeapReachable A S) :
    (∃ free : List (ℕ × ℕ),
      Chain.Linked (A.next S.heap) S.heap.freeList (free.map Prod.fst) 0 ∧
      (∀ b ∈ free, A.size S.heap b.1 = b.2) ∧
      free.Pairwise (fun b c => b.1 < c.1) ∧
      (∀ b ∈ free, ∀ c ∈ free, b.1 + b.2 ≠ c.1) ∧
      Tiles (free ++ S.liveBlocks A) A.heap heapSize ∧
      (S.live = [] → free = [(A.heap, heapSize)])) ∧
    (∀ p ∈ S.live, A.heap + A.w ≤ p.1 ∧
      p.1 + p.2 ≤ p.1 - A.w + A.size S.heap (p.1 - A.w) ∧ p.1 + p.2 ≤ A.heap + heapSize) ∧
    S.live.Pairwise (fun p q =>
      p.1 - A.w + A.size S.heap (p.1 - A.w) ≤ q.1 - A.w ∨
      q.1 - A.w + A.size S.heap (q.1 - A.w) ≤ p.1 - A.w) ∧
    (∀ size ≤ 2 ^ 30, ∃ r, A.malloc S.heap size = some r) ∧
    ∀ p ∈ S.live, ∃ h, A.free S.heap p.1 = some h := by
  have hinv := heapReachable_inv hreach
  obtain ⟨free, hs⟩ := hinv.settled
  have hpos : ∀ b ∈ free ++ S.liveBlocks A, 0 < b.2 := by
    intro b hb
    have := hs.blocks.large b hb
    have := A.w_pos
    omega
  refine ⟨⟨free, hs.blocks.links, fun b hb => hs.blocks.sizes b (List.mem_append_left _ hb), ?_,
    fun b hb c hc => settled_not_adjacent hs hb hc, hs.blocks.tiles, ?_⟩,
    fun p hp => hinv.live_within hp, hinv.live_apart, ?_, ?_⟩
  · refine hs.parted.imp fun {b c} hlt => ?_
    omega
  · intro hnone
    have hblocks : free ++ S.liveBlocks A = free := by
      unfold HeapSystem.liveBlocks
      rw [hnone, List.map_nil, List.append_nil]
    have htiles := hs.blocks.tiles
    rw [hblocks] at htiles hpos
    exact htiles.eq_singleton (by decide) hpos hs.parted
  · intro size hsize
    rcases HeapLayout.malloc_spec hs hsize with hnull | ⟨a, k, h', free', hgot, -, -⟩
    · exact ⟨_, hnull⟩
    · exact ⟨_, hgot⟩
  · intro p hp
    obtain ⟨h', -, hgot, -⟩ := hinv.free_returns hp
    exact ⟨h', hgot⟩

/-- A program of the 32-bit machine after its first call, which asks for ten bytes. -/
def smallLayout : HeapLayout := ⟨4, Or.inl rfl, 4096, by decide, by decide⟩

def tenBytes : ℕ × Heap :=
  (smallLayout.malloc (smallLayout.heapInit fun _ => 0) 10).get (by decide +kernel)

/-- The ten bytes are in the last block of the heap. -/
theorem tenBytes_reachable : HeapReachable smallLayout ⟨tenBytes.2, [(4340, 10)]⟩ := by
  have hstep : HeapReachable smallLayout
      ⟨tenBytes.2, if tenBytes.1 = 0 then [] else (tenBytes.1, 10) :: []⟩ :=
    .step (.malloc 10) (.init ⟨fun _ => 0, rfl⟩)
      (.malloc (by decide) (Option.some_get (by decide +kernel)).symm)
  have hptr : tenBytes.1 = 4340 := by decide +kernel
  rw [hptr, if_neg (by decide)] at hstep
  exact hstep

/-- Then twenty bytes are taken, and the ten are given back. -/
def twentyBytes : ℕ × Heap := (smallLayout.malloc tenBytes.2 20).get (by decide +kernel)

@[irreducible] def tenFreed : Heap := (smallLayout.free twentyBytes.2 4340).get (by decide +kernel)

/-- The twenty bytes are given back as well. -/
@[irreducible] def bothFreed : Heap := (smallLayout.free tenFreed 4316).get (by decide +kernel)

theorem twentyBytes_reachable : HeapReachable smallLayout ⟨twentyBytes.2, [(4316, 20), (4340, 10)]⟩ := by
  have hok : smallLayout.malloc tenBytes.2 20 = some twentyBytes := (Option.some_get _).symm
  have hstep := tenBytes_reachable.step (.malloc 20)
    (@HeapStep.malloc smallLayout _ 20 twentyBytes.1 twentyBytes.2 (by decide) (by rw [Prod.mk.eta]; exact hok))
  have hptr : twentyBytes.1 = 4316 := by decide +kernel
  rw [hptr, if_neg (by decide)] at hstep
  exact hstep

theorem tenFreed_reachable : HeapReachable smallLayout ⟨tenFreed, [(4316, 20)]⟩ := by
  have hok : smallLayout.free twentyBytes.2 4340 = some tenFreed := by
    unfold tenFreed
    exact (Option.some_get _).symm
  have hlive : [(4316, 20), (4340, 10)].erase (4340, 10) = [(4316, 20)] := by decide
  have hstep := twentyBytes_reachable.step (.free 4340)
    (@HeapStep.free smallLayout _ (4340, 10) tenFreed (by simp) hok)
  rw [hlive] at hstep
  exact hstep

theorem bothFreed_reachable : HeapReachable smallLayout ⟨bothFreed, []⟩ := by
  have hok : smallLayout.free tenFreed 4316 = some bothFreed := by
    unfold bothFreed
    exact (Option.some_get _).symm
  have hlive : [(4316, 20)].erase (4316, 20) = [] := by decide
  have hstep := tenFreed_reachable.step (.free 4316)
    (@HeapStep.free smallLayout _ (4316, 20) bothFreed (by simp) hok)
  rw [hlive] at hstep
  exact hstep

/-- The block in use lies between two free ones, and with it they become one. -/
theorem heapReachable_law_bothFreed :
    (∃ free, Tiles (free ++ HeapSystem.liveBlocks smallLayout ⟨tenFreed, [(4316, 20)]⟩) 4096 256 ∧
      ∀ b ∈ free, ∀ c ∈ free, b.1 + b.2 ≠ c.1) ∧
    smallLayout.size bothFreed 4096 = 256 ∧
    Chain.Linked (smallLayout.next bothFreed) bothFreed.freeList [4096] 0 := by
  obtain ⟨⟨free, -, -, -, hapart, htiles, -⟩, -⟩ := heapReachable_law tenFreed_reachable
  obtain ⟨⟨free', hlinked, hsizes, -, -, -, hempty⟩, -⟩ := heapReachable_law bothFreed_reachable
  obtain rfl := hempty rfl
  exact ⟨⟨free, htiles, hapart⟩, hsizes _ (List.mem_singleton_self _), hlinked⟩

end Kudos.Userland
