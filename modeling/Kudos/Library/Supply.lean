import Mathlib.Data.Nat.Notation
import Mathlib.Order.Basic

set_option autoImplicit false

/-! # Supplies

An allocator takes something from its state, or fails. `CanTake take good n s` says that from the state
`s` it does not fail `n` times, whatever has been taken in between, and that everything it gives is
`good`. A supply lasts for less (`CanTake.mono`), does not depend on parts of the state that the allocator
does not look at (`CanTake.congr`), and is bounded if what is in use grows and is bounded
(`CanTake.add_le`). -/

namespace Supply

variable {ε σ α : Type}

/-- `n` times one after the other, something `good` can be taken. -/
def CanTake (take : σ → Except ε (α × σ)) (good : α → Prop) : ℕ → σ → Prop
  | 0, _ => True
  | n + 1, s => ∃ a s', take s = .ok (a, s') ∧ good a ∧ CanTake take good n s'

variable {take : σ → Except ε (α × σ)} {good : α → Prop} {n k : ℕ} {s s' : σ} {a : α}

theorem canTake_succ_iff (htake : take s = .ok (a, s')) :
    CanTake take good (n + 1) s ↔ good a ∧ CanTake take good n s' := by
  constructor
  · rintro ⟨a', s'', htake', h⟩
    obtain ⟨rfl, rfl⟩ := Prod.mk.inj (Except.ok.inj (htake.symm.trans htake'))
    exact h
  · intro h
    exact ⟨a, s', htake, h⟩

instance decidableCanTake (take : σ → Except ε (α × σ)) (good : α → Prop) [DecidablePred good] :
    (n : ℕ) → (s : σ) → Decidable (CanTake take good n s)
  | 0, _ => isTrue trivial
  | n + 1, s =>
      match htake : take s with
      | .ok (a, s') =>
          haveI := decidableCanTake take good n s'
          decidable_of_iff (good a ∧ CanTake take good n s') (canTake_succ_iff htake).symm
      | .error _ => isFalse (by rintro ⟨a, s', htake', -⟩; cases htake.symm.trans htake')

theorem CanTake.mono (h : CanTake take good n s) (hle : k ≤ n) : CanTake take good k s := by
  induction k generalizing n s with
  | zero => trivial
  | succ k ih =>
      obtain ⟨n, rfl⟩ := Nat.exists_eq_add_of_lt hle
      obtain ⟨a, s', htake, hgood, hrest⟩ := h
      exact ⟨a, s', htake, hgood, ih hrest (Nat.le_add_right k n)⟩

/-- Related states have the same supply, if the allocator does the same in them. -/
theorem CanTake.congr {t : σ} (h : CanTake take good n s) (R : σ → σ → Prop) (hst : R s t)
    (hR : ∀ s t a s', R s t → take s = .ok (a, s') → ∃ t', take t = .ok (a, t') ∧ R s' t') :
    CanTake take good n t := by
  induction n generalizing s t with
  | zero => trivial
  | succ n ih =>
      obtain ⟨a, s', htake, hgood, hrest⟩ := h
      obtain ⟨t', htake', hst'⟩ := hR s t a s' hst htake
      exact ⟨a, t', htake', hgood, ih hrest hst'⟩

/-- What can be taken is no more than what is not in use. -/
theorem CanTake.add_le (h : CanTake take good n s) (used : σ → ℕ) {bound : ℕ}
    (hbound : ∀ s, used s ≤ bound) (hstep : ∀ s a s', take s = .ok (a, s') → used s < used s') :
    n + used s ≤ bound := by
  induction n generalizing s with
  | zero =>
      rw [Nat.zero_add]
      exact hbound s
  | succ n ih =>
      obtain ⟨a, s', htake, -, hrest⟩ := h
      have hmore := hstep s a s' htake
      have := ih hrest
      omega

end Supply
