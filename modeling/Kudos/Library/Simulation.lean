import Kudos.Library.Transition

set_option autoImplicit false

/-! # Simulations, and tables of locks

A system refines another one if each of its steps is a step of the other one, or nothing there, up to a
relation that holds at first (`Reach.simulate`). What mutual exclusion is refined to is a table of locks in
which a lock is taken and given back in one step each (`LockTable`). -/

namespace Transition

variable {σ τ α β : Type} {init : σ → Prop} {step : σ → α → σ → Prop} {init' : τ → Prop}
  {step' : τ → β → τ → Prop} {R : σ → τ → Prop}

theorem Reach.simulate (h0 : ∀ s, init s → ∃ t, init' t ∧ R s t)
    (hs : ∀ s t a s', R s t → step s a s' → R s' t ∨ ∃ b t', step' t b t' ∧ R s' t') {s : σ}
    (h : Reach init step s) : ∃ t, Reach init' step' t ∧ R s t := by
  induction h with
  | init hi =>
      obtain ⟨t, ht, hR⟩ := h0 _ hi
      exact ⟨t, .init ht, hR⟩
  | step a _ hstep ih =>
      obtain ⟨t, ht, hR⟩ := ih
      rcases hs _ t a _ hR hstep with hR' | ⟨b, t', hstep', hR'⟩
      · exact ⟨t, ht, hR'⟩
      · exact ⟨t', .step b ht hstep', hR'⟩

end Transition

namespace LockTable

variable {κ ι : Type} [DecidableEq ι]

inductive Action (κ ι : Type)
  | acquire (c : κ) (a : ι)
  | release (c : κ) (a : ι)

/-- Who holds each lock. -/
abbrev Owners (κ ι : Type) := ι → Option κ

inductive Step : Owners κ ι → Action κ ι → Owners κ ι → Prop
  | acquire {o : Owners κ ι} {c : κ} {a : ι} : o a = none → Step o (.acquire c a) (Function.update o a (some c))
  | release {o : Owners κ ι} {c : κ} {a : ι} : o a = some c → Step o (.release c a) (Function.update o a none)

/-- The tables that taking and giving back leads to, from one where all locks are free. -/
abbrev Reachable : Owners κ ι → Prop := Transition.Reach (fun o => o = fun _ => none) Step

theorem update_acquire {o : Owners κ ι} {c d : κ} {a b : ι} (h : o a = none) :
    Function.update o a (some c) b = some d ↔ o b = some d ∨ (d = c ∧ b = a) := by
  by_cases hb : b = a
  · subst hb
    rw [Function.update_self, h]
    simp [eq_comm]
  · rw [Function.update_of_ne hb]
    simp [hb]

theorem update_release {o : Owners κ ι} {c d : κ} {a b : ι} (h : o a = some c) :
    Function.update o a none b = some d ↔ o b = some d ∧ ¬ (d = c ∧ b = a) := by
  by_cases hb : b = a
  · subst hb
    rw [Function.update_self, h]
    simp [eq_comm]
  · rw [Function.update_of_ne hb]
    simp [hb]

/-! A word for each lock, which is `w` if the lock is taken and `z` if it is free. -/

variable {ω : Type} {o : Owners κ ι} {mem : ι → ω} {z w : ω}

theorem word_acquire (h : ∀ b, mem b = if o b = none then z else w) (c : κ) (a b : ι) :
    Function.update mem a w b = if Function.update o a (some c) b = none then z else w := by
  by_cases hb : b = a
  · subst hb
    simp
  · rw [Function.update_of_ne hb, Function.update_of_ne hb, h]

theorem word_release (h : ∀ b, mem b = if o b = none then z else w) (a b : ι) :
    Function.update mem a z b = if Function.update o a none b = none then z else w := by
  by_cases hb : b = a
  · subst hb
    simp
  · rw [Function.update_of_ne hb, Function.update_of_ne hb, h]

/-- What can be seen of a table: who owns which locks, and the words. -/
structure Shows (owns : κ → ι → Prop) (mem : ι → ω) (z w : ω) (o : Owners κ ι) : Prop where
  owns : ∀ c a, owns c a ↔ o a = some c
  mem : ∀ b, mem b = if o b = none then z else w

variable {owns : κ → ι → Prop}

omit [DecidableEq ι] in
/-- A lock has one owner at most. -/
theorem Shows.exclusive (h : Shows owns mem z w o) {c d : κ} {a : ι} (hc : owns c a) (hd : owns d a) :
    c = d := by
  rw [h.owns] at hc hd
  exact Option.some.inj (hc.symm.trans hd)

omit [DecidableEq ι] in
/-- The word says whether a lock is free. -/
theorem Shows.word_iff (h : Shows owns mem z w o) (hzw : z ≠ w) (a : ι) : mem a = z ↔ o a = none := by
  rw [h.mem]
  by_cases hfree : o a = none
  · rw [if_pos hfree]
    exact iff_of_true rfl hfree
  · rw [if_neg hfree]
    exact iff_of_false hzw.symm hfree

omit [DecidableEq ι] in
theorem Shows.free_iff (h : Shows owns mem z w o) (hzw : z ≠ w) (a : ι) :
    mem a = z ↔ ∀ c, ¬ owns c a := by
  rw [h.word_iff hzw, Option.eq_none_iff_forall_ne_some]
  simp only [h.owns, ne_eq]

end LockTable
