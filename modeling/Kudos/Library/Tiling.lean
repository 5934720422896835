import Mathlib.Data.List.Basic
import Mathlib.Data.List.Pairwise

set_option autoImplicit false

/-! # Blocks that tile an interval

A block is a start and a length. Blocks tile an interval of natural numbers if each number of the
interval is in exactly one of them and no other number is in any; `cover` counts the blocks that a
number is in. Cutting a block in two and joining two neighbours does not change what is covered. -/

namespace Tiling

/-- How many of the blocks contain `x`. -/
def cover (bs : List (ℕ × ℕ)) (x : ℕ) : ℕ := bs.countP fun b => b.1 ≤ x ∧ x < b.1 + b.2

/-- The blocks tile the `len` numbers from `lo` on. -/
def Tiles (bs : List (ℕ × ℕ)) (lo len : ℕ) : Prop :=
  ∀ x, cover bs x = if lo ≤ x ∧ x < lo + len then 1 else 0

variable {bs bs' : List (ℕ × ℕ)} {lo len : ℕ}

@[simp]
theorem cover_nil (x : ℕ) : cover [] x = 0 := rfl

theorem cover_cons (b : ℕ × ℕ) (bs : List (ℕ × ℕ)) (x : ℕ) :
    cover (b :: bs) x = (if b.1 ≤ x ∧ x < b.1 + b.2 then 1 else 0) + cover bs x := by
  unfold cover
  rw [List.countP_cons, Nat.add_comm]
  simp

theorem cover_perm (h : bs.Perm bs') (x : ℕ) : cover bs x = cover bs' x := h.countP_eq _

theorem Tiles.perm (h : Tiles bs lo len) (hperm : bs'.Perm bs) : Tiles bs' lo len := by
  intro x
  rw [cover_perm hperm]
  exact h x

/-- One block tiles its own interval. -/
theorem tiles_singleton (lo len : ℕ) : Tiles [(lo, len)] lo len := by
  intro x
  rw [cover_cons, cover_nil, Nat.add_zero]

/-- A block and its two parts cover the same numbers. -/
theorem cover_split (a s s' : ℕ) (bs : List (ℕ × ℕ)) (x : ℕ) :
    cover ((a, s) :: (a + s, s') :: bs) x = cover ((a, s + s') :: bs) x := by
  rw [cover_cons, cover_cons, cover_cons]
  simp only
  split_ifs <;> omega

theorem Tiles.split {a s s' : ℕ} (h : Tiles ((a, s + s') :: bs) lo len) :
    Tiles ((a, s) :: (a + s, s') :: bs) lo len := by
  intro x
  rw [cover_split]
  exact h x

theorem Tiles.join {a s s' : ℕ} (h : Tiles ((a, s) :: (a + s, s') :: bs) lo len) :
    Tiles ((a, s + s') :: bs) lo len := by
  intro x
  rw [← cover_split]
  exact h x

/-- A block is counted where it is. -/
theorem cover_pos {b : ℕ × ℕ} (hb : b ∈ bs) {x : ℕ} (hlo : b.1 ≤ x) (hhi : x < b.1 + b.2) :
    0 < cover bs x := by
  unfold cover
  rw [List.countP_pos_iff]
  exact ⟨b, hb, by simpa using ⟨hlo, hhi⟩⟩

/-- Blocks lie in the interval. -/
theorem Tiles.within (h : Tiles bs lo len) {b : ℕ × ℕ} (hb : b ∈ bs) (hpos : 0 < b.2) :
    lo ≤ b.1 ∧ b.1 + b.2 ≤ lo + len := by
  have hfirst := cover_pos hb (Nat.le_refl b.1) (by omega)
  have hlast := cover_pos hb (x := b.1 + b.2 - 1) (by omega) (by omega)
  rw [h] at hfirst hlast
  split at hfirst
  · next hin =>
      split at hlast
      · next hin' => omega
      · exact absurd hlast (by decide)
  · exact absurd hfirst (by decide)

/-- Two blocks of a tiling have no number in common. -/
theorem Tiles.pairwise (h : Tiles bs lo len) (hpos : ∀ b ∈ bs, 0 < b.2) :
    bs.Pairwise fun b c => b.1 + b.2 ≤ c.1 ∨ c.1 + c.2 ≤ b.1 := by
  have hle : ∀ x, cover bs x ≤ 1 := by
    intro x
    rw [h x]
    split <;> omega
  clear h
  induction bs with
  | nil => exact List.Pairwise.nil
  | cons b bs ih =>
      refine List.Pairwise.cons ?_ (ih (fun c hc => hpos c (List.mem_cons_of_mem _ hc)) ?_)
      · intro c hc
        by_contra hcross
        rw [not_or, Nat.not_le, Nat.not_le] at hcross
        have hb := hpos b List.mem_cons_self
        have hcpos := hpos c (List.mem_cons_of_mem _ hc)
        have hcover := hle (max b.1 c.1)
        rw [cover_cons, if_pos (by omega)] at hcover
        have := cover_pos hc (x := max b.1 c.1) (by omega) (by omega)
        omega
      · intro x
        have := hle x
        rw [cover_cons] at this
        omega

/-- A covered number is in some block. -/
theorem exists_of_cover {x : ℕ} (h : cover bs x ≠ 0) : ∃ b ∈ bs, b.1 ≤ x ∧ x < b.1 + b.2 := by
  obtain ⟨b, hb, hx⟩ := List.countP_pos_iff.1 (Nat.pos_of_ne_zero h)
  exact ⟨b, hb, by simpa using hx⟩

theorem Tiles.exists_mem (h : Tiles bs lo len) {x : ℕ} (hlo : lo ≤ x) (hhi : x < lo + len) :
    ∃ b ∈ bs, b.1 ≤ x ∧ x < b.1 + b.2 := by
  refine exists_of_cover ?_
  rw [h x, if_pos ⟨hlo, hhi⟩]
  decide

/-- Blocks in order that tile an interval and do not touch each other are one block. -/
theorem Tiles.eq_singleton (h : Tiles bs lo len) (hlen : 0 < len) (hpos : ∀ b ∈ bs, 0 < b.2)
    (hapart : bs.Pairwise fun b c => b.1 + b.2 < c.1) : bs = [(lo, len)] := by
  obtain ⟨b0, hb0, hlo0, hhi0⟩ := h.exists_mem (Nat.le_refl lo) (by omega)
  cases bs with
  | nil => exact absurd hb0 List.not_mem_nil
  | cons b rest =>
      have hwithin := h.within List.mem_cons_self (hpos b List.mem_cons_self)
      have hafter := (List.pairwise_cons.1 hapart).1
      -- the first block starts the interval
      have hstart : b.1 = lo := by
        rcases List.mem_cons.1 hb0 with rfl | hmem
        · omega
        · have := hafter b0 hmem
          omega
      -- what comes right after it is in no block
      have hend : b.1 + b.2 = lo + len := by
        by_contra hne
        obtain ⟨c, hc, hlo, hhi⟩ := h.exists_mem (x := b.1 + b.2) (by omega) (by omega)
        rcases List.mem_cons.1 hc with rfl | hmem
        · omega
        · have := hafter c hmem
          omega
      have hrest : rest = [] := by
        cases rest with
        | nil => rfl
        | cons c rest =>
            have hc : c ∈ b :: c :: rest := List.mem_cons_of_mem _ List.mem_cons_self
            have hcwithin := h.within hc (hpos c hc)
            have := hafter c List.mem_cons_self
            have := hpos c hc
            omega
      rw [hrest]
      have hblock : b = (lo, len) := Prod.ext hstart (by simp only; omega)
      rw [hblock]

/-- There are no more blocks in an interval than numbers. -/
theorem length_le_of_sorted (lo hi : ℕ) (hsorted : bs.Pairwise fun b c => b.1 + b.2 ≤ c.1)
    (hpos : ∀ b ∈ bs, 0 < b.2) (hlo : ∀ b ∈ bs, lo ≤ b.1) (hhi : ∀ b ∈ bs, b.1 + b.2 ≤ hi) :
    bs.length ≤ hi - lo := by
  induction bs generalizing lo with
  | nil => exact Nat.zero_le _
  | cons b bs ih =>
      obtain ⟨hfirst, hsorted⟩ := List.pairwise_cons.1 hsorted
      have hrest := ih (b.1 + b.2) hsorted
        (fun c hc => hpos c (List.mem_cons_of_mem _ hc)) hfirst
        (fun c hc => hhi c (List.mem_cons_of_mem _ hc))
      have hb := hpos b List.mem_cons_self
      have hblo := hlo b List.mem_cons_self
      have hbhi := hhi b List.mem_cons_self
      rw [List.length_cons]
      omega

end Tiling
