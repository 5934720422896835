import Kudos.Library.Transition
import Mathlib.Logic.Function.Basic

set_option autoImplicit false

/-! # Threads that are suspended and resumed

Processors of type `κ` run threads of type `τ`, each in a state of type `χ` that is loaded on the processor.
An interrupt puts the state aside, on top of what the thread has put aside before, and a thread that is
resumed gets the topmost state back; the last one is the state that the thread begins with, and stays. The idle
thread puts nothing aside. -/

namespace Coroutine

variable {κ τ χ : Type} [DecidableEq κ] [DecidableEq τ]

structure State (κ τ χ : Type) where
  running : κ → τ
  live : κ → χ
  saved : τ → List χ

inductive Action (κ τ χ : Type)
  | run (c : κ) (x : χ)
  | interrupt (c : κ) (x : χ)
  | patch (c : κ) (f : χ → χ)
  | switch (c : κ) (t : τ)
  | resume (c : κ)
  | create (t : τ) (x : χ)
  | free (t : τ)

/-- What is left when a state is taken: the last one stays. -/
def rest : List χ → List χ
  | _ :: y :: l => y :: l
  | l => l

inductive Step (idle : τ) : State κ τ χ → Action κ τ χ → State κ τ χ → Prop
  | run {s : State κ τ χ} {c : κ} {x : χ} : Step idle s (.run c x) { s with live := Function.update s.live c x }
  | interrupt {s : State κ τ χ} {c : κ} {x : χ} : s.running c ≠ idle →
      Step idle s (.interrupt c x)
        { s with live := Function.update s.live c x
                 saved := Function.update s.saved (s.running c) (s.live c :: s.saved (s.running c)) }
  /-- The code that an interrupt has started changes what the thread will get back. -/
  | patch {s : State κ τ χ} {c : κ} {f : χ → χ} {x y : χ} {l : List χ} : s.saved (s.running c) = x :: y :: l →
      Step idle s (.patch c f) { s with saved := Function.update s.saved (s.running c) (f x :: y :: l) }
  | switch {s : State κ τ χ} {c : κ} {t : τ} : s.saved t ≠ [] → (t = idle ∨ ∀ d, d ≠ c → s.running d ≠ t) →
      Step idle s (.switch c t) { s with running := Function.update s.running c t }
  | resume {s : State κ τ χ} {c : κ} {x : χ} {l : List χ} : s.saved (s.running c) = x :: l →
      Step idle s (.resume c)
        { s with live := Function.update s.live c x
                 saved := Function.update s.saved (s.running c) (rest (x :: l)) }
  | create {s : State κ τ χ} {t : τ} {x : χ} : t ≠ idle → s.saved t = [] →
      Step idle s (.create t x) { s with saved := Function.update s.saved t [x] }
  | free {s : State κ τ χ} {t : τ} : t ≠ idle → (∀ c, s.running c ≠ t) →
      Step idle s (.free t) { s with saved := Function.update s.saved t [] }

/-- All processors run the idle thread, and no other thread has begun. -/
def Init (idle : τ) (s : State κ τ χ) : Prop :=
  (∀ c, s.running c = idle) ∧ ∃ x, s.saved = Function.update (fun _ => []) idle [x]

abbrev Reachable (idle : τ) : State κ τ χ → Prop := Transition.Reach (Init idle) (Step idle)

/-- The thread of which an action changes what has been put aside. -/
def Action.target (s : State κ τ χ) : Action κ τ χ → Option τ
  | .interrupt c _ | .patch c _ | .resume c => some (s.running c)
  | .create t _ | .free t => some t
  | .run .. | .switch .. => none

variable {idle t : τ} {s s' : State κ τ χ} {a : Action κ τ χ}

/-- What another thread has put aside stays. -/
theorem Step.saved_eq (h : Step idle s a s') (ht : a.target s ≠ some t) : s'.saved t = s.saved t := by
  have hne : ∀ {t'}, a.target s = some t' → t ≠ t' := by
    rintro t' ha rfl
    exact ht ha
  cases h with
  | run => rfl
  | interrupt => exact Function.update_of_ne (hne rfl) ..
  | patch => exact Function.update_of_ne (hne rfl) ..
  | switch => rfl
  | resume => exact Function.update_of_ne (hne rfl) ..
  | create => exact Function.update_of_ne (hne rfl) ..
  | free => exact Function.update_of_ne (hne rfl) ..

/-- Of a state that is not the last one, nothing is left. -/
theorem rest_append {l l' : List χ} (hne : l ++ l' ≠ []) (x : χ) : rest (x :: l ++ l') = l ++ l' := by
  cases h : l ++ l' with
  | nil => exact absurd h hne
  | cons y k => rw [List.cons_append, h, rest]

end Coroutine
