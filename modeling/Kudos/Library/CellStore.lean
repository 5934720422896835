import Kudos.Library.Transition
import Mathlib.Logic.Function.Basic

set_option autoImplicit false

/-! # Cells that are read and written one access at a time

What a device with many outstanding calls has to look like to its callers: an array of cells, and a list of
accesses to it, each of which takes place at once. -/

namespace CellStore

open Transition

variable {κ ι δ : Type} [DecidableEq ι]

/-- What a call does to a cell: it reads the data or writes them. -/
structure Access (κ ι δ : Type) where
  call : κ
  isWrite : Bool
  cell : ι
  data : δ

inductive Step : (ι → δ) → Access κ ι δ → (ι → δ) → Prop
  | read {m : ι → δ} {c : κ} {i : ι} : Step m ⟨c, false, i, m i⟩ m
  | write {m : ι → δ} {c : κ} {i : ι} {x : δ} : Step m ⟨c, true, i, x⟩ (Function.update m i x)

/-- The accesses lead from the first contents of the cells to the last. -/
abbrev Replays (start : ι → δ) (l : List (Access κ ι δ)) (m : ι → δ) : Prop :=
  Run (fun m => m = start) Step l m

variable {m m' : ι → δ} {a : Access κ ι δ}

/-- A read changes no cell. -/
theorem Step.read_eq (h : Step m a m') (hread : a.isWrite ≠ true) : m' = m := by
  cases h with
  | read => rfl
  | write => exact absurd rfl hread

end CellStore
