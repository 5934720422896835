import Mathlib.Data.List.Basic
import Mathlib.Data.List.Nodup

set_option autoImplicit false

/-! # Singly linked chains through a `next` field

A list threaded through a table: every node `x` has a link `next x`, and the list that starts at
the pointer `a` is what one meets by following links. `Linked next a l b` says that this list is
`l` and that the walk arrives at `b` after its last node. The lemmas describe the three pointer
operations on such lists (append a node at the end, unlink the first node, unlink a later node) for
any new link function that agrees with the old one where it has to, so that a caller can perform
its stores in any order. -/

namespace Chain

variable {P : Type}

/-- Following `next` from `a` passes exactly the nodes of `l`, in order, and arrives at `b`. -/
def Linked (next : P → P) : P → List P → P → Prop
  | a, [], b => a = b
  | a, x :: xs, b => a = x ∧ Linked next (next x) xs b

@[simp]
theorem linked_nil (next : P → P) (a b : P) : Linked next a [] b ↔ a = b := Iff.rfl

@[simp]
theorem linked_cons (next : P → P) (a b x : P) (l : List P) :
    Linked next a (x :: l) b ↔ a = x ∧ Linked next (next x) l b := Iff.rfl

theorem linked_append (next : P → P) (a b : P) (l m : List P) :
    Linked next a (l ++ m) b ↔ ∃ c, Linked next a l c ∧ Linked next c m b := by
  induction l generalizing a with
  | nil => simp
  | cons x xs ih => simp [ih, and_assoc]

/-- The link of the last node of a non-empty chain is where the walk arrives. -/
theorem linked_concat (next : P → P) (a b x : P) (l : List P) :
    Linked next a (l ++ [x]) b ↔ Linked next a l x ∧ next x = b := by
  rw [linked_append]
  constructor
  · rintro ⟨c, hl, rfl, hb⟩
    exact ⟨hl, hb⟩
  · rintro ⟨hl, hb⟩
    exact ⟨x, hl, rfl, hb⟩

/-- Only the links of the chain's own nodes matter. -/
theorem Linked.congr {next next' : P → P} {a b : P} {l : List P} (h : Linked next a l b)
    (hl : ∀ x ∈ l, next' x = next x) : Linked next' a l b := by
  induction l generalizing a with
  | nil => exact h
  | cons x xs ih =>
      obtain ⟨rfl, hxs⟩ := h
      refine ⟨rfl, ?_⟩
      rw [hl a (List.mem_cons_self ..)]
      exact ih hxs (fun y hy => hl y (List.mem_cons_of_mem _ hy))

/-- Append the node `x` behind the last node `p`: the link of `p` becomes `x`. -/
theorem Linked.append_node {next next' : P → P} {a b c p x : P} {l : List P}
    (h : Linked next a (l ++ [p]) b) (hp : next' p = x) (hx : next' x = c)
    (hl : ∀ y ∈ l, next' y = next y) : Linked next' a (l ++ [p] ++ [x]) c := by
  rw [linked_concat] at h ⊢
  rw [linked_concat]
  exact ⟨⟨h.1.congr hl, hp⟩, hx⟩

/-- Unlink the node `x` behind `p`: the link of `p` skips to the successor of `x`. -/
theorem Linked.unlink {next next' : P → P} {a b p x : P} {l m : List P}
    (h : Linked next a (l ++ [p] ++ x :: m) b) (hp : next' p = next x)
    (hl : ∀ y ∈ l, next' y = next y) (hm : ∀ y ∈ m, next' y = next y) :
    Linked next' a (l ++ [p] ++ m) b := by
  rw [linked_append] at h ⊢
  obtain ⟨c, hlp, -, hxm⟩ := h
  rw [linked_concat] at hlp
  refine ⟨next x, ?_, hxm.congr hm⟩
  rw [linked_concat]
  exact ⟨hlp.1.congr hl, hp⟩

/-- Where a chain starts: at its first node, or at its end if it has none. -/
theorem Linked.start {next : P → P} {a b : P} {l : List P} (h : Linked next a l b) :
    a = l.headD b := by
  cases l with
  | nil => exact h
  | cons x xs => exact h.1

end Chain
