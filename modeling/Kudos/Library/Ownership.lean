import Mathlib.Data.List.Nodup
import Mathlib.Logic.Function.Basic

set_option autoImplicit false

/-! # Exclusive ownership

A store hands out cells of a pool to parties and marks them as used. `Exclusive own used` says that
the marks are right: no cell is given twice, and a cell is marked if and only if somebody has it. The
two rules are the two things a store does, giving fresh cells to a party that has none (`give`) and
taking all cells of a party back (`take`). -/

namespace Ownership

variable {ι κ : Type}

/-- Party `i` has the cells `own i`, and exactly the cells that somebody has are `used`. -/
structure Exclusive (own : ι → List κ) (used : κ → Prop) : Prop where
  nodup : ∀ i, (own i).Nodup
  disjoint : ∀ i j, i ≠ j → ∀ n ∈ own i, n ∉ own j
  used_iff : ∀ n, used n ↔ ∃ i, n ∈ own i

namespace Exclusive

variable {own own' : ι → List κ} {used used' : κ → Prop}

theorem used_of_mem (h : Exclusive own used) {i : ι} {n : κ} (hn : n ∈ own i) : used n :=
  (h.used_iff n).2 ⟨i, hn⟩

/-- A cell has one owner. -/
theorem owner_unique (h : Exclusive own used) {i j : ι} {n : κ} (hi : n ∈ own i) (hj : n ∈ own j) :
    i = j := by
  by_contra hne
  exact h.disjoint i j hne n hi hj

/-- Party `i`, which has nothing, gets the fresh cells `l`. -/
theorem give (h : Exclusive own used) {i : ι} {l : List κ} (hnone : own i = []) (hl : l.Nodup)
    (hfresh : ∀ n ∈ l, ¬ used n) (hi : own' i = l) (hother : ∀ j, j ≠ i → own' j = own j)
    (hused : ∀ n, used' n ↔ used n ∨ n ∈ l) : Exclusive own' used' where
  nodup j := by
    by_cases hj : j = i
    · rw [hj, hi]
      exact hl
    · rw [hother j hj]
      exact h.nodup j
  disjoint j k hjk n hn hk := by
    by_cases hj : j = i
    · rw [hj, hi] at hn
      rw [hother k (fun hki => hjk (hj.trans hki.symm))] at hk
      exact hfresh n hn (h.used_of_mem hk)
    · rw [hother j hj] at hn
      by_cases hki : k = i
      · rw [hki, hi] at hk
        exact hfresh n hk (h.used_of_mem hn)
      · rw [hother k hki] at hk
        exact h.disjoint j k hjk n hn hk
  used_iff n := by
    rw [hused, h.used_iff]
    constructor
    · rintro (⟨j, hj⟩ | hn)
      · refine ⟨j, ?_⟩
        have hji : j ≠ i := by
          rintro rfl
          rw [hnone] at hj
          cases hj
        rwa [hother j hji]
      · exact ⟨i, by rwa [hi]⟩
    · rintro ⟨j, hj⟩
      by_cases hji : j = i
      · rw [hji, hi] at hj
        exact Or.inr hj
      · rw [hother j hji] at hj
        exact Or.inl ⟨j, hj⟩

/-- Party `i` gives back what it has. -/
theorem take (h : Exclusive own used) {i : ι} (hi : own' i = [])
    (hother : ∀ j, j ≠ i → own' j = own j) (hused : ∀ n, used' n ↔ used n ∧ n ∉ own i) :
    Exclusive own' used' where
  nodup j := by
    by_cases hj : j = i
    · rw [hj, hi]
      exact List.nodup_nil
    · rw [hother j hj]
      exact h.nodup j
  disjoint j k hjk n hn hk := by
    by_cases hj : j = i
    · rw [hj, hi] at hn
      cases hn
    · by_cases hki : k = i
      · rw [hki, hi] at hk
        cases hk
      · rw [hother j hj] at hn
        rw [hother k hki] at hk
        exact h.disjoint j k hjk n hn hk
  used_iff n := by
    rw [hused, h.used_iff]
    constructor
    · rintro ⟨⟨j, hj⟩, hn⟩
      have hji : j ≠ i := by
        rintro rfl
        exact hn hj
      exact ⟨j, by rwa [hother j hji]⟩
    · rintro ⟨j, hj⟩
      have hji : j ≠ i := by
        rintro rfl
        rw [hi] at hj
        cases hj
      rw [hother j hji] at hj
      exact ⟨⟨j, hj⟩, fun hn => hji (h.owner_unique hj hn)⟩

/-- Nothing changes hands. -/
theorem congr (h : Exclusive own used) (hown : ∀ i, own' i = own i) (hused : ∀ n, used' n ↔ used n) :
    Exclusive own' used' := by
  obtain rfl : own' = own := funext hown
  exact ⟨h.nodup, h.disjoint, fun n => (hused n).trans (h.used_iff n)⟩

end Exclusive

end Ownership
