import Mathlib.Data.Fintype.Card

set_option autoImplicit false

/-! # Counting the parties of a system

In a system of finitely many parties, each with a state of its own, invariants often relate a shared
counter to the number of parties whose state satisfies a test. A step changes the state of one party,
and `countWhere_update` says what that does to the number. -/

namespace Counting

variable {ι κ : Type} [Fintype ι]

/-- The number of parties whose state passes the test `p`. -/
def countWhere (p : κ → Bool) (f : ι → κ) : ℕ := (Finset.univ.filter (fun i => p (f i) = true)).card

/-- `n'` is `n` after one party has changed from `b` to `b'`. -/
def Counted (n n' : ℤ) (b b' : Bool) : Prop := n' = n + (if b' then 1 else 0) - (if b then 1 else 0)

theorem Counted.same (n : ℤ) (b : Bool) : Counted n n b b := by
  unfold Counted
  omega

theorem countWhere_pos {p : κ → Bool} {f : ι → κ} {i : ι} (h : p (f i) = true) :
    0 < countWhere p f :=
  Finset.card_pos.2 ⟨i, Finset.mem_filter.2 ⟨Finset.mem_univ i, h⟩⟩

theorem countWhere_le (p : κ → Bool) (f : ι → κ) : countWhere p f ≤ Fintype.card ι :=
  Finset.card_le_univ _

theorem countWhere_lt {p : κ → Bool} {f : ι → κ} {i : ι} (h : p (f i) = false) :
    countWhere p f < Fintype.card ι := by
  refine Finset.card_lt_univ_of_notMem (x := i) fun hi => ?_
  rw [(Finset.mem_filter.1 hi).2] at h
  cases h

theorem countWhere_eq_zero {p : κ → Bool} {f : ι → κ} :
    countWhere p f = 0 ↔ ∀ i, p (f i) = false := by
  unfold countWhere
  rw [Finset.card_eq_zero, Finset.filter_eq_empty_iff]
  simp

variable [DecidableEq ι]

/-- Only the party that has changed can be counted differently. -/
theorem countWhere_update (p : κ → Bool) (f : ι → κ) (i : ι) (v : κ) :
    Counted (countWhere p f) (countWhere p (Function.update f i v)) (p (f i)) (p v) := by
  have hsplit : ∀ g : ι → κ, (∀ j, j ≠ i → g j = f j) →
      (countWhere p g : ℤ) = ((Finset.univ.filter (fun j => p (f j) = true)).erase i).card
        + (if p (g i) then 1 else 0) := by
    intro g hg
    have herase : (Finset.univ.filter (fun j => p (g j) = true)).erase i
        = (Finset.univ.filter (fun j => p (f j) = true)).erase i := by
      ext j
      rw [Finset.mem_erase, Finset.mem_erase, Finset.mem_filter, Finset.mem_filter]
      refine and_congr_right fun hj => ?_
      rw [hg j hj]
    unfold countWhere
    rw [← herase]
    split
    · next hb =>
        have hi : i ∈ Finset.univ.filter (fun j => p (g j) = true) := by simp [hb]
        rw [← Finset.card_erase_add_one hi]
        push_cast
        rfl
    · next hb =>
        have hi : i ∉ Finset.univ.filter (fun j => p (g j) = true) := by simp [hb]
        rw [Finset.erase_eq_of_notMem hi]
        simp
  unfold Counted
  rw [hsplit f (fun j _ => rfl), hsplit (Function.update f i v) (fun j hj => by simp [hj]),
    Function.update_self]
  omega

end Counting
