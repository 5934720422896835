import Mathlib.Data.List.Basic

set_option autoImplicit false

/-! # Labelled transition systems and their runs

A system is given by its initial states and a step relation whose labels are the actions that were
taken. `Run` is a finite run, with the labels in the order in which they happened; `Reach` forgets
the labels. An invariant is proved once for the initial states and once for a step
(`Reach.invariant`); a statement about a whole history, such as a count of past actions, is an
invariant of `Run` (`Run.invariant`). -/

namespace Transition

variable {σ α : Type}

/-- The states a run from an initial state arrives at. -/
inductive Reach (init : σ → Prop) (step : σ → α → σ → Prop) : σ → Prop
  | init {s : σ} : init s → Reach init step s
  | step {s s' : σ} (a : α) : Reach init step s → step s a s' → Reach init step s'

/-- `Run init step l s`: a run from an initial state that took the actions `l`, in this order,
    arrives at `s`. -/
inductive Run (init : σ → Prop) (step : σ → α → σ → Prop) : List α → σ → Prop
  | nil {s : σ} : init s → Run init step [] s
  | snoc {l : List α} {s s' : σ} {a : α} :
      Run init step l s → step s a s' → Run init step (l ++ [a]) s'

variable {init : σ → Prop} {step step' : σ → α → σ → Prop}

/-- What holds initially and is preserved by every step holds in every reachable state. -/
theorem Reach.invariant {I : σ → Prop} (h0 : ∀ s, init s → I s)
    (hs : ∀ s a s', I s → step s a s' → I s') {s : σ} (h : Reach init step s) : I s := by
  induction h with
  | init hi => exact h0 _ hi
  | step a _ hstep ih => exact hs _ a _ ih hstep

/-- The run version, where the invariant may speak about the actions taken so far. -/
theorem Run.invariant {I : List α → σ → Prop} (h0 : ∀ s, init s → I [] s)
    (hs : ∀ l s a s', I l s → step s a s' → I (l ++ [a]) s') {l : List α} {s : σ}
    (h : Run init step l s) : I l s := by
  induction h with
  | nil hi => exact h0 _ hi
  | snoc _ hstep ih => exact hs _ _ _ _ ih hstep

theorem Run.reach {l : List α} {s : σ} (h : Run init step l s) : Reach init step s := by
  induction h with
  | nil hi => exact .init hi
  | snoc _ hstep ih => exact .step _ ih hstep

/-! ## Executable systems -/

section

variable (exec : σ → α → Option σ)

/-- Take the steps of a list, each of which must be possible. -/
def runOps : σ → List α → Option σ
  | s, [] => some s
  | s, a :: as =>
      match exec s a with
      | some s' => runOps s' as
      | none => none

variable {exec} in
theorem runOps_cons {s s' : σ} {a : α} (h : exec s a = some s') (l : List α) :
    runOps exec s (a :: l) = runOps exec s' l := by
  rw [runOps, h]

theorem runOps_append (s : σ) (l l' : List α) :
    runOps exec s (l ++ l') = (runOps exec s l).bind (runOps exec · l') := by
  induction l generalizing s with
  | nil => rfl
  | cons a as ih =>
      rw [List.cons_append, runOps, runOps]
      cases exec s a with
      | none => rfl
      | some s' => exact ih s'

/-- A step of a system whose functions can fail. -/
theorem eq_ok_of_toOption {ε : Type} {x : Except ε σ} {s : σ} (h : x.toOption = some s) :
    x = .ok s := by
  cases x with
  | error e => cases h
  | ok s' =>
      cases h
      rfl

/-- What `runOps` computes is a run. -/
theorem Run.append_runOps {l l' : List α} {s s' : σ} (h : Run init step l s)
    (hexec : ∀ s a s', exec s a = some s' → step s a s')
    (hrun : runOps exec s l' = some s') : Run init step (l ++ l') s' := by
  induction l' generalizing l s with
  | nil =>
      cases hrun
      rwa [List.append_nil]
  | cons a as ih =>
      unfold runOps at hrun
      split at hrun
      · next s1 hok =>
          rw [List.append_cons]
          exact ih (.snoc h (hexec _ _ _ hok)) hrun
      · cases hrun

end

end Transition
