import Mathlib.Data.List.Basic
import Mathlib.Tactic.Basic

set_option autoImplicit false

/-! # Programs that make requests

A program asks its environment for things and goes on with the answers. On the way it may tell that it
accesses something, to which there is no answer: the accesses say nothing about what the program does
(`erase`), and are what is to be shown safe (`accesses`). -/

namespace Requests

/-- What can be asked for, and what the answers are. -/
structure Interface where
  Request : Type
  Answer : Request → Type

inductive Program (I : Interface) (ι α : Type) : Type
  | done (a : α)
  | request (r : I.Request) (k : I.Answer r → Program I ι α)
  | access (i : ι) (k : Program I ι α)

/-- Programs of another kind that can make the requests, too. -/
structure Requester (I : Interface) (M : Type → Type) [Monad M] where
  request {α : Type} (r : I.Request) (k : I.Answer r → M α) : M α
  pure_bind {α β : Type} (a : α) (f : α → M β) : (pure a >>= f) = f a
  request_bind {α β : Type} (r : I.Request) (k : I.Answer r → M α) (f : α → M β) :
    (request r k >>= f) = request r fun a => k a >>= f

namespace Program

variable {I : Interface} {ι α β : Type}

protected def bind : Program I ι α → (α → Program I ι β) → Program I ι β
  | done a, f => f a
  | request r k, f => request r (fun a => (k a).bind f)
  | access i k, f => access i (k.bind f)

instance : Monad (Program I ι) where
  pure := done
  bind := Program.bind

/-! ## Without the accesses -/

section

variable {M : Type → Type} [Monad M]

/-- The program without its accesses. -/
def erase (M' : Requester I M) : Program I ι α → M α
  | done a => pure a
  | request r k => M'.request r (fun a => (k a).erase M')
  | access _ k => k.erase M'

theorem erase_bind (M' : Requester I M) (p : Program I ι α) (f : α → Program I ι β) :
    (p >>= f).erase M' = p.erase M' >>= fun a => (f a).erase M' := by
  induction p with
  | done a => exact (M'.pure_bind a fun a => (f a).erase M').symm
  | request r k ih =>
      exact (congrArg (M'.request r) (funext ih)).trans (M'.request_bind r _ _).symm
  | access i k ih => exact ih

end

/-! ## The accesses -/

section

variable {σ : Type} {answers : (r : I.Request) → σ → List (I.Answer r × σ)} {P : ι → Prop}

/-- The accesses in an environment whose state says which answers to a request are possible, and
    leaves which state. -/
def accesses (answers : (r : I.Request) → σ → List (I.Answer r × σ)) : Program I ι α → σ → List ι
  | done _, _ => []
  | request r k, s => (answers r s).flatMap fun a => (k a.1).accesses answers a.2
  | access i k, s => i :: k.accesses answers s

/-- The accesses after a request with one possible answer. -/
theorem accesses_request {r : I.Request} {k : I.Answer r → Program I ι α} {s s' : σ} {a : I.Answer r}
    (h : answers r s = [(a, s')]) : (request r k).accesses answers s = (k a).accesses answers s' := by
  simp only [accesses, h, List.flatMap_cons, List.flatMap_nil, List.append_nil]

theorem mem_accesses_request {i : ι} {r : I.Request} {k : I.Answer r → Program I ι α} {s : σ} :
    i ∈ (request r k).accesses answers s ↔ ∃ a ∈ answers r s, i ∈ (k a.1).accesses answers a.2 :=
  List.mem_flatMap

/-- What is accessed first is accessed. -/
theorem mem_accesses_bind {i : ι} {p : Program I ι α} {s : σ} (h : i ∈ p.accesses answers s)
    (f : α → Program I ι β) : i ∈ (p >>= f).accesses answers s := by
  induction p generalizing s with
  | done a => cases h
  | request r k ih =>
      obtain ⟨a, ha, hi⟩ := mem_accesses_request.1 h
      exact mem_accesses_request.2 ⟨a, ha, ih a.1 hi⟩
  | access j k ih =>
      rcases List.mem_cons.1 h with rfl | h
      · exact List.mem_cons_self ..
      · exact List.mem_cons_of_mem _ (ih h)

/-- All accesses have the property `P` in an environment with these answers. -/
def Within (P : ι → Prop) (answers : (r : I.Request) → σ → List (I.Answer r × σ)) (p : Program I ι α)
    (s : σ) : Prop := ∀ i ∈ p.accesses answers s, P i

theorem within_done (a : α) (s : σ) : (done a : Program I ι α).Within P answers s :=
  fun _ hi => absurd hi List.not_mem_nil

theorem within_request {r : I.Request} {k : I.Answer r → Program I ι α} {s : σ}
    (h : ∀ a ∈ answers r s, (k a.1).Within P answers a.2) : (request r k).Within P answers s := by
  intro i hi
  obtain ⟨a, ha, hi⟩ := mem_accesses_request.1 hi
  exact h a ha i hi

theorem within_access {i : ι} {k : Program I ι α} {s : σ} (hi : P i) (hk : k.Within P answers s) :
    (access i k).Within P answers s := by
  intro j hj
  rcases List.mem_cons.1 hj with rfl | hj
  · exact hi
  · exact hk j hj

theorem within_bind {p : Program I ι α} {f : α → Program I ι β} {s : σ} (hp : p.Within P answers s)
    (hf : ∀ a s', (f a).Within P answers s') : (p >>= f).Within P answers s := by
  induction p generalizing s with
  | done a => exact hf a s
  | request r k ih =>
      refine within_request fun a ha => ih a.1 fun i hi => ?_
      exact hp i (mem_accesses_request.2 ⟨a, ha, hi⟩)
  | access i k ih =>
      exact within_access (hp i (List.mem_cons_self ..))
        (ih fun j hj => hp j (List.mem_cons_of_mem _ hj))

/-- All accesses have the property `P`, whatever the answers are. -/
def Always (P : ι → Prop) : Program I ι α → Prop
  | done _ => True
  | request _ k => ∀ a, (k a).Always P
  | access i k => P i ∧ k.Always P

theorem Always.bind {p : Program I ι α} {f : α → Program I ι β} (hp : p.Always P)
    (hf : ∀ a, (f a).Always P) : (p >>= f).Always P := by
  induction p with
  | done a => exact hf a
  | request r k ih => exact fun a => ih a (hp a)
  | access i k ih => exact ⟨hp.1, ih hp.2⟩

theorem Always.within {p : Program I ι α} {s : σ} (hp : p.Always P) : p.Within P answers s := by
  induction p generalizing s with
  | done a => exact within_done a s
  | request r k ih => exact within_request fun a _ => ih a.1 (hp a.1)
  | access i k ih => exact within_access hp.1 (ih hp.2)

end

end Program

end Requests
