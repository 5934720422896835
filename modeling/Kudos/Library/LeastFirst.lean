import Kudos.Library.Transition
import Mathlib.Data.List.Perm.Subperm
import Mathlib.Data.Set.Basic
import Mathlib.Order.Defs.LinearOrder

set_option autoImplicit false

/-! # Allocators that hand out the least element

An allocator owns a set `S` and hands out its least element that is not in use, at most `n` elements at
a time. What is in use at some moment depends on the order of the calls; if elements are only taken, it
is an initial segment of `S`.

The allocator does not know the list `G` of elements it is meant to hand out. It takes the next element
from `G` if `G` is an initial segment of `S` without repetitions (`take_within`), and an allocator that
hands out as many elements as `G` has, all of them from `G`, shows that `G` is one
(`Segment.of_within`). -/

namespace LeastFirst

open Transition

variable {α : Type} [LinearOrder α]

inductive Call (α : Type)
  | take (a : α)
  | give (a : α)

/-- The calls, on the list of elements in use. -/
inductive Step (S : Set α) (n : ℕ) : List α → Call α → List α → Prop
  | take {A : List α} {a : α} : A.length < n → a ∈ S → a ∉ A → (∀ b ∈ S, b < a → b ∈ A) →
      Step S n A (.take a) (a :: A)
  | give {A : List α} {a : α} : a ∈ A → Step S n A (.give a) (A.erase a)

/-- The lists of elements in use that some calls lead to. -/
abbrev Reachable (S : Set α) (n : ℕ) : List α → Prop := Reach (fun A => A = []) (Step S n)

variable {S : Set α} {n : ℕ} {A G : List α}

/-- Nothing is in use twice, and all of it comes from `S`. -/
theorem reach_nodup (h : Reachable S n A) : A.Nodup ∧ ∀ a ∈ A, a ∈ S := by
  refine Reach.invariant (I := fun A => A.Nodup ∧ ∀ a ∈ A, a ∈ S) ?_ ?_ h
  · rintro A rfl
    exact ⟨List.nodup_nil, by simp⟩
  · rintro A c A' ⟨hnodup, hsub⟩ (⟨-, ha, hnew, -⟩ | ⟨-⟩)
    · exact ⟨List.nodup_cons.2 ⟨hnew, hnodup⟩, List.forall_mem_cons.2 ⟨ha, hsub⟩⟩
    · exact ⟨hnodup.erase _, fun b hb => hsub b (List.mem_of_mem_erase hb)⟩

theorem reach_length (h : Reachable S n A) : A.length ≤ n := by
  refine Reach.invariant (I := fun A => A.length ≤ n) ?_ ?_ h
  · rintro A rfl
    exact Nat.zero_le n
  · rintro A c A' hlen (⟨hlt, -, -, -⟩ | ⟨-⟩)
    · exact hlt
    · exact Nat.le_trans List.length_erase_le hlen

/-! ## Initial segments -/

/-- `A` is an initial segment of `S`, without repetitions. -/
structure Segment (S : Set α) (A : List α) : Prop where
  nodup : A.Nodup
  subset : ∀ a ∈ A, a ∈ S
  below : ∀ a ∈ A, ∀ b ∈ S, b < a → b ∈ A

theorem Segment.nil : Segment S ([] : List α) := ⟨List.nodup_nil, by simp, by simp⟩

/-- The least element that is not in use extends a segment. -/
theorem Segment.take (h : Segment S A) {a : α} (ha : a ∈ S) (hnew : a ∉ A)
    (hleast : ∀ b ∈ S, b < a → b ∈ A) : Segment S (a :: A) where
  nodup := List.nodup_cons.2 ⟨hnew, h.nodup⟩
  subset := List.forall_mem_cons.2 ⟨ha, h.subset⟩
  below := by
    intro c hc b hb hlt
    rcases List.mem_cons.1 hc with rfl | hc
    · exact List.mem_cons_of_mem _ (hleast b hb hlt)
    · exact List.mem_cons_of_mem _ (h.below c hc b hb hlt)

/-- A segment within `G` that has as many elements as `G` is `G` up to the order. -/
theorem Segment.of_within (h : Segment S A) (hsub : A ⊆ G) (hlen : G.length ≤ A.length) :
    Segment S G := by
  have hperm : A.Perm G := (List.subperm_of_subset h.nodup hsub).perm_of_length_le hlen
  constructor
  · exact hperm.nodup_iff.1 h.nodup
  · exact fun a ha => h.subset a (hperm.mem_iff.2 ha)
  · exact fun a ha b hb hlt => hperm.mem_iff.1 (h.below a (hperm.mem_iff.2 ha) b hb hlt)

/-! ## Staying within a segment -/

/-- While less than the whole segment is in use, a part of it is not. -/
theorem exists_unused (hnodup : G.Nodup) (hlen : A.length < G.length) : ∃ g ∈ G, g ∉ A := by
  by_contra hnone
  have hsub : G ⊆ A := by
    intro g hg
    by_contra hA
    exact hnone ⟨g, hg, hA⟩
  have := (List.subperm_of_subset hnodup hsub).length_le
  omega

/-- The least unused element of `S` is in the segment, if some of the segment is unused. -/
theorem take_within (hG : Segment S G) (hlen : A.length < G.length) {a : α} (ha : a ∈ S)
    (hleast : ∀ b ∈ S, b < a → b ∈ A) : a ∈ G := by
  obtain ⟨g, hg, hunused⟩ := exists_unused hG.nodup hlen
  rcases lt_trichotomy a g with hlt | rfl | hgt
  · exact hG.below g hg a ha hlt
  · exact hg
  · exact absurd (hleast g (hG.subset g hg) hgt) hunused

end LeastFirst
