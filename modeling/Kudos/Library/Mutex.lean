import Mathlib.Logic.Function.Basic
import Mathlib.Data.Nat.Notation

set_option autoImplicit false

/-! # Locks made of a semaphore

Every party has a state, and a test `p` says in which states a party holds the lock. The semaphore has the
value 0 while a party holds it and never a value above 1; two parties never hold it. A step changes the
state of one party: it takes the lock, it gives it back, or it has nothing to do with the lock, except
that a party may stop for good with the lock in its hands. -/

namespace Mutex

variable {ι κ : Type} [DecidableEq ι]

/-- At most one party holds the lock, and the semaphore is not available then. -/
structure Guarded (p : κ → Prop) (f : ι → κ) (value : ℕ) : Prop where
  unique : ∀ i j, p (f i) → p (f j) → i = j
  taken : ∀ i, p (f i) → value = 0
  le_one : value ≤ 1

variable {p : κ → Prop} {f : ι → κ} {value : ℕ}

/-- A step of a party that does not hold the lock afterwards if it did not hold it before. -/
theorem Guarded.keep (h : Guarded p f value) {i : ι} {x : κ} (hx : p x → p (f i)) :
    Guarded p (Function.update f i x) value := by
  have himp : ∀ j, p (Function.update f i x j) → p (f j) := by
    intro j hj
    by_cases hji : j = i
    · rw [hji, Function.update_self] at hj
      rw [hji]
      exact hx hj
    · rwa [Function.update_of_ne hji] at hj
  exact ⟨fun j k hj hk => h.unique j k (himp j hj) (himp k hk), fun j hj => h.taken j (himp j hj),
    h.le_one⟩

/-- A party takes the lock, which is possible only if nobody holds it. -/
theorem Guarded.acquire (h : Guarded p f value) (hvalue : 0 < value) (i : ι) (x : κ) :
    Guarded p (Function.update f i x) (value - 1) := by
  have hle := h.le_one
  have honly : ∀ j, p (Function.update f i x j) → j = i := by
    intro j hj
    by_contra hne
    rw [Function.update_of_ne hne] at hj
    have := h.taken j hj
    omega
  exact ⟨fun j k hj hk => (honly j hj).trans (honly k hk).symm, fun j _ => by omega, by omega⟩

/-- The party that holds the lock gives it back. -/
theorem Guarded.release (h : Guarded p f value) {i : ι} {x : κ} (hi : p (f i)) (hx : ¬ p x) :
    Guarded p (Function.update f i x) (value + 1) := by
  have hnone : ∀ j, ¬ p (Function.update f i x j) := by
    intro j hj
    by_cases hji : j = i
    · rw [hji, Function.update_self] at hj
      exact hx hj
    · rw [Function.update_of_ne hji] at hj
      exact hji (h.unique j i hj hi)
  have hzero := h.taken i hi
  exact ⟨fun j k hj => absurd hj (hnone j), fun j hj => absurd hj (hnone j), by omega⟩

end Mutex
