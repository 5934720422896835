import Mathlib.Data.Fintype.Card
import Mathlib.Logic.Relation

set_option autoImplicit false

/-! # Walks in a relation without cycles

A walk that starts at `a` and takes steps of `r` can go on forever exactly if it can come back to where
it has been, provided that there are finitely many places. `LeadsToCycle` is the latter;
`acyclic_induction` proves what follows if it fails, `LeadsToCycle.endless` what follows if it holds. -/

namespace Acyclic

open Relation

variable {α : Type} {r : α → α → Prop} {a : α}

/-- From `a` one gets to a place from which one gets back to it. -/
def LeadsToCycle (r : α → α → Prop) (a : α) : Prop := ∃ c, ReflTransGen r a c ∧ TransGen r c c

/-- What holds if it holds after every step, holds wherever no cycle can be reached. -/
theorem acyclic_induction [Finite α] (hcycle : ¬ LeadsToCycle r a) {P : α → Prop}
    (hstep : ∀ x, (∀ y, r x y → P y) → P x) : P a := by
  -- the steps that a walk from `a` can take
  let s : α → α → Prop := fun y x => ReflTransGen r a x ∧ r x y
  have hback : ∀ x y, TransGen s y x → ReflTransGen r a x ∧ TransGen r x y := by
    intro x y hwalk
    induction hwalk with
    | single h => exact ⟨h.1, .single h.2⟩
    | tail _ h ih => exact ⟨h.1, .head h.2 ih.2⟩
  have hirrefl : Std.Irrefl (TransGen s) :=
    ⟨fun x hwalk => hcycle ⟨x, (hback x x hwalk).1, (hback x x hwalk).2⟩⟩
  have hwf : WellFounded s :=
    Subrelation.wf (fun {_ _} h => TransGen.single h) (Finite.wellFounded_of_trans_of_irrefl (TransGen s))
  have hall : ∀ x, ReflTransGen r a x → P x := by
    intro x
    induction x using hwf.induction with
    | h x ih =>
        intro hreach
        refine hstep x fun y hy => ?_
        exact ih y ⟨hreach, hy⟩ (hreach.tail hy)
  exact hall a .refl

/-- Otherwise there is always a step to take. -/
theorem LeadsToCycle.endless (h : LeadsToCycle r a) : ∃ b, r a b ∧ LeadsToCycle r b := by
  obtain ⟨c, hreach, hcycle⟩ := h
  rcases ReflTransGen.cases_head hreach with rfl | ⟨b, hab, hbc⟩
  · obtain ⟨b, hab, hba⟩ := TransGen.head'_iff.1 hcycle
    exact ⟨b, hab, a, hba, hcycle⟩
  · exact ⟨b, hab, c, hbc, hcycle⟩

end Acyclic
