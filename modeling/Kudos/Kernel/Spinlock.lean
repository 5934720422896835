import Kudos.Library.Simulation
import Mathlib.Algebra.Group.Nat.Defs

set_option autoImplicit false

/-! # Spinlocks

`spinlock_acquire` and `spinlock_release` of both machines, one instruction at a time, on any number of
processors that call them for any locks. A processor may give back only what it holds. `mips32` reserves a
lock with `ll` and `sc`, where the link may be lost at any time; `x86_64` exchanges a register with the lock,
whose address is cut to 32 bits. Memory is sequentially consistent. -/

namespace Kudos

open Transition LockTable

/-! ## mips32 -/

namespace Mips32

/-- The instructions of `spinlock_acquire`. -/
inductive AcquirePc
  | ll | bnez | li | sc | beqz | jr
  deriving DecidableEq, Repr

/-- Where a processor is: in the code that calls, or at an instruction of a call for the lock at `a`. -/
inductive SpinMode
  | client
  | acquire (a : BitVec 32) (pc : AcquirePc)
  | releaseSw (a : BitVec 32)
  | releaseJr
  deriving DecidableEq

/-- A processor: the register `t0`, the address that is linked, and the locks it has got and not given
back. -/
structure SpinCpu where
  mode : SpinMode
  t0 : BitVec 32
  link : Option (BitVec 32)
  held : BitVec 32 → Bool

structure SpinState where
  cpus : ℕ → SpinCpu
  mem : BitVec 32 → BitVec 32

namespace SpinState

def setCpu (s : SpinState) (c : ℕ) (p : SpinCpu) : SpinState := { s with cpus := Function.update s.cpus c p }

/-- A store ends the links to its address. -/
def store (s : SpinState) (a v : BitVec 32) : SpinState where
  cpus := fun c => if (s.cpus c).link = some a then { s.cpus c with link := none } else s.cpus c
  mem := Function.update s.mem a v

/-- The next instruction of a processor. -/
def run (s : SpinState) (c : ℕ) : SpinState :=
  let p := s.cpus c
  match p.mode with
  | .client => s
  | .acquire a .ll => s.setCpu c { p with mode := .acquire a .bnez, t0 := s.mem a, link := some a }
  | .acquire a .bnez => s.setCpu c { p with mode := .acquire a (if p.t0 ≠ 0#32 then .ll else .li) }
  | .acquire a .li => s.setCpu c { p with mode := .acquire a .sc, t0 := 1#32 }
  | .acquire a .sc =>
      if p.link = some a then
        (s.store a p.t0).setCpu c { p with mode := .acquire a .beqz, t0 := 1#32, link := none }
      else s.setCpu c { p with mode := .acquire a .beqz, t0 := 0#32 }
  | .acquire a .beqz => s.setCpu c { p with mode := .acquire a (if p.t0 = 0#32 then .ll else .jr) }
  | .acquire a .jr => s.setCpu c { p with mode := .client, held := Function.update p.held a true }
  | .releaseSw a =>
      (s.store a 0#32).setCpu c { p with mode := .releaseJr, link := none, held := Function.update p.held a false }
  | .releaseJr => s.setCpu c { p with mode := .client }

/-- A processor alone, for a number of instructions. -/
def runs (s : SpinState) (c : ℕ) : ℕ → SpinState
  | 0 => s
  | n + 1 => (s.run c).runs c n

end SpinState

inductive SpinAction
  | callAcquire (c : ℕ) (a : BitVec 32)
  | callRelease (c : ℕ) (a : BitVec 32)
  | run (c : ℕ)
  | loseLink (c : ℕ)

inductive SpinStep : SpinState → SpinAction → SpinState → Prop
  | callAcquire {s : SpinState} {c : ℕ} {a : BitVec 32} : (s.cpus c).mode = .client →
      SpinStep s (.callAcquire c a) (s.setCpu c { s.cpus c with mode := .acquire a .ll })
  | callRelease {s : SpinState} {c : ℕ} {a : BitVec 32} : (s.cpus c).mode = .client →
      (s.cpus c).held a = true →
      SpinStep s (.callRelease c a) (s.setCpu c { s.cpus c with mode := .releaseSw a })
  | run {s : SpinState} {c : ℕ} : SpinStep s (.run c) (s.run c)
  | loseLink {s : SpinState} {c : ℕ} : SpinStep s (.loseLink c) (s.setCpu c { s.cpus c with link := none })

/-- No processor has called yet, and `spinlock_reset` has been called for the locks. -/
def SpinInit (s : SpinState) : Prop :=
  (∀ c, (s.cpus c).mode = .client ∧ ∀ a, (s.cpus c).held a = false) ∧ ∀ a, s.mem a = 0#32

abbrev SpinReachable : SpinState → Prop := Reach SpinInit SpinStep

/-- The lock is the processor's from the store of `sc` to that of `spinlock_release`. -/
def SpinCpu.Owns (p : SpinCpu) (a : BitVec 32) : Prop :=
  p.held a = true ∨ (p.mode = .acquire a .beqz ∧ p.t0 ≠ 0#32) ∨ p.mode = .acquire a .jr

/-- What a processor knows at each instruction about the lock, whose word is `w`. -/
def SpinCpu.Knows (p : SpinCpu) (mem : BitVec 32 → BitVec 32) : Prop :=
  match p.mode with
  | .acquire a .bnez => p.link = some a → p.t0 = mem a
  | .acquire a .li => p.link = some a → mem a = 0#32
  | .acquire a .sc => p.t0 = 1#32 ∧ (p.link = some a → mem a = 0#32)
  | .releaseSw a => p.held a = true
  | _ => True

/-- The owners are those of a table of locks, and the words say which locks are free. -/
structure SpinRel (s : SpinState) (o : Owners ℕ (BitVec 32)) : Prop where
  owns : ∀ c a, (s.cpus c).Owns a ↔ o a = some c
  mem : ∀ a, s.mem a = if o a = none then 0#32 else 1#32
  knows : ∀ c, (s.cpus c).Knows s.mem

section

variable {s s' : SpinState} {o : Owners ℕ (BitVec 32)} {c : ℕ} {a : BitVec 32} {p : SpinCpu}

/-- A step of one processor without a store that takes and gives back nothing. -/
theorem SpinRel.setCpu (h : SpinRel s o) (howns : ∀ a, p.Owns a ↔ (s.cpus c).Owns a)
    (hknows : p.Knows s.mem) : SpinRel (s.setCpu c p) o := by
  refine ⟨fun d a => ?_, h.mem, fun d => ?_⟩
  · rw [← h.owns]
    by_cases hd : d = c
    · subst hd
      rw [← howns]
      exact iff_of_eq (congrArg (SpinCpu.Owns · a) (Function.update_self ..))
    · exact iff_of_eq (congrArg (SpinCpu.Owns · a) (Function.update_of_ne hd ..))
  · by_cases hd : d = c
    · subst hd
      exact (congrArg (SpinCpu.Knows · s.mem) (Function.update_self ..)).mpr hknows
    · exact (congrArg (SpinCpu.Knows · s.mem) (Function.update_of_ne hd ..)).mpr (h.knows d)

/-- A store leaves what a processor owns. -/
theorem store_owns (a v : BitVec 32) (d : ℕ) (b : BitVec 32) :
    ((s.store a v).cpus d).Owns b ↔ (s.cpus d).Owns b := by
  change (if (s.cpus d).link = some a then { s.cpus d with link := none } else s.cpus d).Owns b ↔ _
  split <;> rfl

/-- What a processor knows about the word it knows by its link. -/
theorem store_knows (a v : BitVec 32) {d : ℕ} (h : (s.cpus d).Knows s.mem) :
    ((s.store a v).cpus d).Knows (s.store a v).mem := by
  change (if (s.cpus d).link = some a then { s.cpus d with link := none } else s.cpus d).Knows
    (Function.update s.mem a v)
  unfold SpinCpu.Knows at h ⊢
  by_cases hlink : (s.cpus d).link = some a
  · rw [if_pos hlink]
    cases hmode : (s.cpus d).mode with
    | client => trivial
    | releaseSw b => simpa [hmode] using h
    | releaseJr => trivial
    | acquire b pc => cases pc <;> simp_all
  · rw [if_neg hlink]
    have hother : ∀ b, (s.cpus d).link = some b → Function.update s.mem a v b = s.mem b := by
      intro b hb
      refine Function.update_of_ne (fun hba => ?_) ..
      subst hba
      exact hlink hb
    cases hmode : (s.cpus d).mode with
    | client => trivial
    | releaseSw b => simpa [hmode] using h
    | releaseJr => trivial
    | acquire b pc => cases pc <;> simp_all

/-- A store of a processor that takes a lock or gives it back. -/
theorem SpinRel.store (h : SpinRel s o) {o' : Owners ℕ (BitVec 32)} {v : BitVec 32}
    (howns : ∀ b, p.Owns b ↔ o' b = some c) (hother : ∀ d b, d ≠ c → (o' b = some d ↔ o b = some d))
    (hmem : ∀ b, Function.update s.mem a v b = if o' b = none then 0#32 else 1#32)
    (hknows : p.Knows (Function.update s.mem a v)) : SpinRel ((s.store a v).setCpu c p) o' := by
  refine ⟨fun d b => ?_, hmem, fun d => ?_⟩
  · by_cases hd : d = c
    · subst hd
      rw [← howns]
      exact iff_of_eq (congrArg (SpinCpu.Owns · b) (Function.update_self ..))
    · rw [hother d b hd, ← h.owns]
      exact (iff_of_eq (congrArg (SpinCpu.Owns · b) (Function.update_of_ne hd ..))).trans (store_owns a v d b)
  · by_cases hd : d = c
    · subst hd
      exact (congrArg (SpinCpu.Knows · _) (Function.update_self ..)).mpr hknows
    · exact (congrArg (SpinCpu.Knows · _) (Function.update_of_ne hd ..)).mpr (store_knows a v (h.knows d))

theorem SpinRel.acquire (h : SpinRel s o) (hfree : o a = none)
    (howns : ∀ b, p.Owns b ↔ (s.cpus c).Owns b ∨ b = a) (hknows : p.Knows (Function.update s.mem a 1#32)) :
    SpinRel ((s.store a 1#32).setCpu c p) (Function.update o a (some c)) := by
  refine h.store (fun b => ?_) (fun d b hd => ?_) (fun b => ?_) hknows
  · rw [update_acquire hfree, howns, h.owns]
    simp
  · rw [update_acquire hfree]
    simp [hd]
  · exact word_acquire h.mem c a b

theorem SpinRel.release (h : SpinRel s o) (htaken : o a = some c)
    (howns : ∀ b, p.Owns b ↔ (s.cpus c).Owns b ∧ b ≠ a) (hknows : p.Knows (Function.update s.mem a 0#32)) :
    SpinRel ((s.store a 0#32).setCpu c p) (Function.update o a none) := by
  refine h.store (fun b => ?_) (fun d b hd => ?_) (fun b => ?_) hknows
  · rw [update_release htaken, howns, h.owns]
    simp
  · rw [update_release htaken]
    simp [hd]
  · exact word_release h.mem a b

theorem SpinRel.shows (h : SpinRel s o) : Shows (fun c a => (s.cpus c).Owns a) s.mem 0#32 1#32 o :=
  ⟨h.owns, h.mem⟩

/-- The lock is free if the processor may store into it. -/
theorem SpinRel.free_of_zero (h : SpinRel s o) (hzero : s.mem a = 0#32) : o a = none :=
  (h.shows.word_iff (by decide) a).1 hzero

/-- Only `sc` takes a lock and only the store of `spinlock_release` gives it back. -/
theorem SpinRel.run (h : SpinRel s o) (c : ℕ) :
    SpinRel (s.run c) o ∨ ∃ b o', LockTable.Step o b o' ∧ SpinRel (s.run c) o' := by
  have hknows := h.knows c
  cases hmode : (s.cpus c).mode with
  | client =>
      left
      simpa only [SpinState.run, hmode] using h
  | releaseJr =>
      left
      simp only [SpinState.run, hmode]
      exact h.setCpu (fun a => by simp [SpinCpu.Owns, hmode]) trivial
  | releaseSw a =>
      right
      have hheld : (s.cpus c).held a = true := by simpa [SpinCpu.Knows, hmode] using hknows
      have htaken := (h.owns c a).1 (Or.inl hheld)
      simp only [SpinState.run, hmode]
      refine ⟨_, _, .release htaken, h.release htaken (fun b => ?_) trivial⟩
      by_cases hb : b = a
      · subst hb
        simp [SpinCpu.Owns]
      · simp [SpinCpu.Owns, hmode, hb]
  | acquire a pc =>
      cases pc with
      | ll =>
          left
          simp only [SpinState.run, hmode]
          exact h.setCpu (fun b => by simp [SpinCpu.Owns, hmode]) fun _ => rfl
      | bnez =>
          left
          simp only [SpinState.run, hmode]
          by_cases ht : (s.cpus c).t0 = 0#32
          · refine h.setCpu (fun b => by simp [SpinCpu.Owns, hmode, ht]) ?_
            simp only [SpinCpu.Knows, hmode, ht, ne_eq, not_true_eq_false, if_false] at hknows ⊢
            exact fun hlink => (hknows hlink).symm
          · refine h.setCpu (fun b => by simp [SpinCpu.Owns, hmode, ht]) ?_
            simp only [SpinCpu.Knows, ne_eq, ht, not_false_eq_true, if_true]
      | li =>
          left
          simp only [SpinState.run, hmode]
          refine h.setCpu (fun b => by simp [SpinCpu.Owns, hmode]) ?_
          simp only [SpinCpu.Knows, hmode] at hknows
          exact ⟨rfl, hknows⟩
      | sc =>
          simp only [SpinCpu.Knows, hmode] at hknows
          by_cases hlink : (s.cpus c).link = some a
          · right
            have hfree := h.free_of_zero (hknows.2 hlink)
            simp only [SpinState.run, hmode, hlink, if_true, hknows.1]
            refine ⟨_, _, .acquire hfree, h.acquire hfree (fun b => ?_) trivial⟩
            simp [SpinCpu.Owns, hmode, @eq_comm _ b a]
          · left
            simp only [SpinState.run, hmode, hlink, if_false]
            exact h.setCpu (fun b => by simp [SpinCpu.Owns, hmode]) trivial
      | beqz =>
          left
          simp only [SpinState.run, hmode]
          by_cases ht : (s.cpus c).t0 = 0#32
          · exact h.setCpu (fun b => by simp [SpinCpu.Owns, hmode, ht]) (by simp only [SpinCpu.Knows, ht, if_true])
          · exact h.setCpu (fun b => by simp [SpinCpu.Owns, hmode, ht]) (by simp only [SpinCpu.Knows, ht, if_false])
      | jr =>
          left
          simp only [SpinState.run, hmode]
          refine h.setCpu (fun b => ?_) trivial
          by_cases hb : b = a
          · subst hb
            simp [SpinCpu.Owns, hmode]
          · simp [SpinCpu.Owns, hmode, hb, Ne.symm hb]

theorem SpinStep.simulate {act : SpinAction} (h : SpinRel s o) (hstep : SpinStep s act s') :
    SpinRel s' o ∨ ∃ b o', LockTable.Step o b o' ∧ SpinRel s' o' := by
  cases hstep with
  | @callAcquire c a hmode =>
      left
      exact h.setCpu (fun b => by simp [SpinCpu.Owns, hmode]) trivial
  | @callRelease c a hmode hheld =>
      left
      exact h.setCpu (fun b => by simp [SpinCpu.Owns, hmode]) hheld
  | run => exact h.run _
  | @loseLink c =>
      left
      refine h.setCpu (fun b => Iff.rfl) ?_
      have hknows := h.knows c
      unfold SpinCpu.Knows at hknows ⊢
      cases hmode : (s.cpus c).mode with
      | client => trivial
      | releaseSw b => simpa [hmode] using hknows
      | releaseJr => trivial
      | acquire b pc => cases pc <;> simp_all

theorem SpinReachable.related (h : SpinReachable s) : ∃ o, LockTable.Reachable o ∧ SpinRel s o := by
  refine Reach.simulate (R := SpinRel) (fun s hinit => ?_) (fun s o act s' hrel hstep => hstep.simulate hrel) h
  obtain ⟨hcpus, hmem⟩ := hinit
  refine ⟨fun _ => none, rfl, fun c a => ?_, fun a => by rw [hmem, if_pos rfl], fun c => ?_⟩
  · simp [SpinCpu.Owns, (hcpus c).1, (hcpus c).2]
  · simp only [SpinCpu.Knows, (hcpus c).1]

/-! ### A processor alone -/

/-- The processor gets the lock in at most `n` instructions if no other one is in its way. -/
def GetsWithin (c : ℕ) (a : BitVec 32) (n : ℕ) (s : SpinState) : Prop :=
  ∃ k ≤ n, ((s.runs c k).cpus c).mode = .client ∧ ((s.runs c k).cpus c).held a = true

theorem GetsWithin.of_run {n : ℕ} (h : GetsWithin c a n (s.run c)) : GetsWithin c a (n + 1) s := by
  obtain ⟨k, hk, hgets⟩ := h
  exact ⟨k + 1, by omega, hgets⟩

@[simp]
theorem cpus_setCpu (s : SpinState) (c : ℕ) (p : SpinCpu) : (s.setCpu c p).cpus c = p := Function.update_self ..

theorem getsWithin_jr (hmode : (s.cpus c).mode = .acquire a .jr) : GetsWithin c a 1 s := by
  refine ⟨1, Nat.le_refl 1, ?_⟩
  simp [SpinState.runs, SpinState.run, hmode]

theorem getsWithin_beqz (hmode : (s.cpus c).mode = .acquire a .beqz) (ht : (s.cpus c).t0 ≠ 0#32) :
    GetsWithin c a 2 s :=
  (getsWithin_jr (by simp [SpinState.run, hmode, ht])).of_run

theorem getsWithin_sc (hmode : (s.cpus c).mode = .acquire a .sc) (hlink : (s.cpus c).link = some a) :
    GetsWithin c a 3 s :=
  (getsWithin_beqz (by simp [SpinState.run, hmode, hlink]) (by simp [SpinState.run, hmode, hlink])).of_run

theorem getsWithin_li (hmode : (s.cpus c).mode = .acquire a .li) (hlink : (s.cpus c).link = some a) :
    GetsWithin c a 4 s :=
  (getsWithin_sc (by simp [SpinState.run, hmode]) (by simp [SpinState.run, hmode, hlink])).of_run

theorem getsWithin_bnez (hmode : (s.cpus c).mode = .acquire a .bnez) (ht : (s.cpus c).t0 = 0#32)
    (hlink : (s.cpus c).link = some a) : GetsWithin c a 5 s :=
  (getsWithin_li (by simp [SpinState.run, hmode, ht]) (by simp [SpinState.run, hmode, hlink])).of_run

theorem getsWithin_ll (hmode : (s.cpus c).mode = .acquire a .ll) (hfree : s.mem a = 0#32) :
    GetsWithin c a 6 s :=
  (getsWithin_bnez (by simp [SpinState.run, hmode]) (by simp [SpinState.run, hmode, hfree])
    (by simp [SpinState.run, hmode])).of_run

/-- The store of a failed `sc` does not happen, and the loop begins again. -/
theorem getsWithin_lost_sc (hmode : (s.cpus c).mode = .acquire a .sc) (hlink : (s.cpus c).link ≠ some a)
    (hfree : s.mem a = 0#32) : GetsWithin c a 8 s := by
  refine (?_ : GetsWithin c a 7 (s.run c)).of_run
  have hrun : s.run c = s.setCpu c { s.cpus c with mode := .acquire a .beqz, t0 := 0#32 } := by
    simp [SpinState.run, hmode, hlink]
  rw [hrun]
  exact (getsWithin_ll (by simp [SpinState.run]) (by simpa [SpinState.run, SpinState.setCpu] using hfree)).of_run

theorem GetsWithin.mono {m n : ℕ} (h : GetsWithin c a m s) (hmn : m ≤ n) : GetsWithin c a n s := by
  obtain ⟨k, hk, hgets⟩ := h
  exact ⟨k, Nat.le_trans hk hmn, hgets⟩

/-- From any instruction of the call. -/
theorem getsWithin_of_free (h : SpinRel s o) {pc : AcquirePc} (hmode : (s.cpus c).mode = .acquire a pc)
    (hfree : s.mem a = 0#32) : GetsWithin c a 10 s := by
  have hsc : ∀ s' : SpinState, (s'.cpus c).mode = .acquire a .sc → s'.mem a = 0#32 → GetsWithin c a 8 s' := by
    intro s' hmode' hfree'
    by_cases hlink : (s'.cpus c).link = some a
    · exact (getsWithin_sc hmode' hlink).mono (by decide)
    · exact getsWithin_lost_sc hmode' hlink hfree'
  have hli : ∀ s' : SpinState, (s'.cpus c).mode = .acquire a .li → s'.mem a = 0#32 → GetsWithin c a 9 s' :=
    fun s' hmode' hfree' => (hsc _ (by simp [SpinState.run, hmode'])
      (by simpa [SpinState.run, hmode', SpinState.setCpu] using hfree')).of_run
  have hunowned : ¬ (s.cpus c).Owns a := by
    rw [h.owns, h.free_of_zero hfree]
    simp
  cases pc with
  | ll => exact (getsWithin_ll hmode hfree).mono (by decide)
  | bnez =>
      by_cases ht : (s.cpus c).t0 = 0#32
      · exact (hli _ (by simp [SpinState.run, hmode, ht])
          (by simpa [SpinState.run, hmode, SpinState.setCpu] using hfree)).of_run
      · exact ((getsWithin_ll (by simp [SpinState.run, hmode, ht])
          (by simpa [SpinState.run, hmode, SpinState.setCpu] using hfree)).mono (by decide)).of_run (n := 9)
  | li => exact (hli s hmode hfree).mono (by decide)
  | sc => exact (hsc s hmode hfree).mono (by decide)
  | beqz =>
      by_cases ht : (s.cpus c).t0 = 0#32
      · exact ((getsWithin_ll (by simp [SpinState.run, hmode, ht])
          (by simpa [SpinState.run, hmode, SpinState.setCpu] using hfree)).mono (by decide)).of_run (n := 9)
      · exact absurd (Or.inr (Or.inl ⟨hmode, ht⟩)) hunowned
  | jr => exact absurd (Or.inr (Or.inr hmode)) hunowned

/-- In every interleaving of the instructions of any number of processors, with links lost at any time, the
locks are those of a table in which they are taken and given back in single steps: a lock has one owner at
most, its word is zero if it has none, and then a processor that is anywhere in `spinlock_acquire` gets it
with ten instructions of its own. -/
theorem spinReachable_exclusive (s : SpinState) (h : SpinReachable s) :
    (∃ o, LockTable.Reachable o ∧ ∀ c a, (s.cpus c).Owns a ↔ o a = some c) ∧
    (∀ c d a, (s.cpus c).Owns a → (s.cpus d).Owns a → c = d) ∧
    (∀ a, s.mem a = 0#32 ↔ ∀ c, ¬ (s.cpus c).Owns a) ∧
    ∀ c a pc, (s.cpus c).mode = .acquire a pc → s.mem a = 0#32 → GetsWithin c a 10 s := by
  obtain ⟨o, ho, hrel⟩ := h.related
  exact ⟨⟨o, ho, hrel.owns⟩, fun c d a => hrel.shows.exclusive, hrel.shows.free_iff (by decide),
    fun c a pc hmode hfree => getsWithin_of_free hrel hmode hfree⟩

/-- Two processors, of which the second tries while the first one is between its instructions. -/
theorem spinReachable_exclusive_two :
    ∃ s : SpinState, SpinReachable s ∧ (s.cpus 1).Owns 0x80#32 ∧ (∀ d, (s.cpus d).Owns 0x80#32 → d = 1) ∧
      (s.cpus 0).mode = .acquire 0x80#32 .beqz := by
  let cpu : SpinCpu := ⟨.client, 0, none, fun _ => false⟩
  have h0 : SpinReachable ⟨fun _ => cpu, fun _ => 0⟩ := .init ⟨fun _ => ⟨rfl, fun _ => rfl⟩, fun _ => rfl⟩
  have h1 := Reach.step _ h0 (.callAcquire (c := 0) (a := 0x80#32) rfl)
  have h2 := Reach.step _ h1 (.callAcquire (c := 1) (a := 0x80#32) rfl)
  have run : ∀ {s : SpinState} (c : ℕ), SpinReachable s → SpinReachable (s.run c) :=
    fun c h => Reach.step _ h .run
  have h3 := run 0 (run 1 (run 0 (run 0 (run 1 (run 1 (run 1 (run 0 h2)))))))
  refine ⟨_, h3, Or.inr (Or.inl ⟨rfl, by decide⟩), fun d hd => ?_, rfl⟩
  exact (spinReachable_exclusive _ h3).2.1 d 1 0x80#32 hd (Or.inr (Or.inl ⟨rfl, by decide⟩))

end

end Mips32

/-! ## x86_64 -/

namespace X86

/-- The steps of `spinlock_acquire`: the two moves into `ebx` and `eax`, the exchange, the test with its jump, and
the return. The pushes before them and the pops after them concern the processor's own stack only and are
left out. -/
inductive AcquirePc
  | mov | xchg | jnz | ret
  deriving DecidableEq, Repr

inductive SpinMode
  | client
  | acquire (a : BitVec 64) (pc : AcquirePc)
  | releaseMov (a : BitVec 64)
  | releaseRet
  deriving DecidableEq

/-- A processor: the register `eax`, and the locks it has got and not given back. -/
structure SpinCpu where
  mode : SpinMode
  eax : BitVec 32
  held : BitVec 64 → Bool

structure SpinState where
  cpus : ℕ → SpinCpu
  mem : BitVec 64 → BitVec 32

/-- The address in `ebx` when the lock is at `a`. -/
def ebx (a : BitVec 64) : BitVec 64 := (a.setWidth 32).setWidth 64

namespace SpinState

def setCpu (s : SpinState) (c : ℕ) (p : SpinCpu) : SpinState := { s with cpus := Function.update s.cpus c p }

def store (s : SpinState) (a : BitVec 64) (v : BitVec 32) : SpinState :=
  { s with mem := Function.update s.mem a v }

/-- The next step of a processor. If the lock was taken then `eax` holds what the lock held. -/
def run (s : SpinState) (c : ℕ) : SpinState :=
  let p := s.cpus c
  match p.mode with
  | .client => s
  | .acquire a .mov => s.setCpu c { p with mode := .acquire a .xchg, eax := 1#32 }
  | .acquire a .xchg => (s.store (ebx a) p.eax).setCpu c { p with mode := .acquire a .jnz, eax := s.mem (ebx a) }
  | .acquire a .jnz => s.setCpu c { p with mode := .acquire a (if p.eax ≠ 0#32 then .xchg else .ret) }
  | .acquire a .ret => s.setCpu c { p with mode := .client, held := Function.update p.held a true }
  | .releaseMov a => (s.store a 0#32).setCpu c { p with mode := .releaseRet, held := Function.update p.held a false }
  | .releaseRet => s.setCpu c { p with mode := .client }

/-- A processor alone, for a number of steps. -/
def runs (s : SpinState) (c : ℕ) : ℕ → SpinState
  | 0 => s
  | n + 1 => (s.run c).runs c n

end SpinState

inductive SpinAction
  | callAcquire (c : ℕ) (a : BitVec 64)
  | callRelease (c : ℕ) (a : BitVec 64)
  | run (c : ℕ)

/-- The locks are static data or from `stalloc`, below 4 GiB. -/
inductive SpinStep : SpinState → SpinAction → SpinState → Prop
  | callAcquire {s : SpinState} {c : ℕ} {a : BitVec 64} : (s.cpus c).mode = .client → a.toNat < 2 ^ 32 →
      SpinStep s (.callAcquire c a) (s.setCpu c { s.cpus c with mode := .acquire a .mov })
  | callRelease {s : SpinState} {c : ℕ} {a : BitVec 64} : (s.cpus c).mode = .client →
      (s.cpus c).held a = true →
      SpinStep s (.callRelease c a) (s.setCpu c { s.cpus c with mode := .releaseMov a })
  | run {s : SpinState} {c : ℕ} : SpinStep s (.run c) (s.run c)

/-- No processor has called yet, and `spinlock_reset` has been called for the locks. -/
def SpinInit (s : SpinState) : Prop :=
  (∀ c, (s.cpus c).mode = .client ∧ ∀ a, (s.cpus c).held a = false) ∧ ∀ a, s.mem a = 0#32

abbrev SpinReachable : SpinState → Prop := Reach SpinInit SpinStep

/-- The lock is the processor's from the exchange that found it free to the store of `spinlock_release`. -/
def SpinCpu.Owns (p : SpinCpu) (a : BitVec 64) : Prop :=
  p.held a = true ∨ (p.mode = .acquire a .jnz ∧ p.eax = 0#32) ∨ p.mode = .acquire a .ret

/-- A processor that goes on trying writes what it has read, which is one as well. -/
def SpinCpu.Knows (p : SpinCpu) : Prop :=
  match p.mode with
  | .acquire a .mov => ebx a = a
  | .acquire a .xchg => ebx a = a ∧ p.eax = 1#32
  | .acquire a .jnz => ebx a = a ∧ (p.eax = 0#32 ∨ p.eax = 1#32)
  | .releaseMov a => p.held a = true
  | _ => True

structure SpinRel (s : SpinState) (o : Owners ℕ (BitVec 64)) : Prop where
  owns : ∀ c a, (s.cpus c).Owns a ↔ o a = some c
  mem : ∀ a, s.mem a = if o a = none then 0#32 else 1#32
  knows : ∀ c, (s.cpus c).Knows

section

variable {s s' : SpinState} {o : Owners ℕ (BitVec 64)} {c : ℕ} {a : BitVec 64} {p : SpinCpu}

theorem ebx_eq (h : a.toNat < 2 ^ 32) : ebx a = a := by
  apply BitVec.eq_of_toNat_eq
  unfold ebx
  rw [BitVec.toNat_setWidth, BitVec.toNat_setWidth]
  omega

@[simp]
theorem cpus_setCpu (s : SpinState) (c : ℕ) (p : SpinCpu) : (s.setCpu c p).cpus c = p := Function.update_self ..

/-- A step of one processor, with the owners and the words as they are afterwards. -/
theorem SpinRel.update (h : SpinRel s o) {o' : Owners ℕ (BitVec 64)} {mem : BitVec 64 → BitVec 32}
    (howns : ∀ b, p.Owns b ↔ o' b = some c) (hother : ∀ d b, d ≠ c → (o' b = some d ↔ o b = some d))
    (hmem : ∀ b, mem b = if o' b = none then 0#32 else 1#32) (hknows : p.Knows) :
    SpinRel ⟨Function.update s.cpus c p, mem⟩ o' := by
  refine ⟨fun d b => ?_, hmem, fun d => ?_⟩
  · by_cases hd : d = c
    · subst hd
      rw [← howns]
      exact iff_of_eq (congrArg (SpinCpu.Owns · b) (Function.update_self ..))
    · rw [hother d b hd, ← h.owns]
      exact iff_of_eq (congrArg (SpinCpu.Owns · b) (Function.update_of_ne hd ..))
  · by_cases hd : d = c
    · subst hd
      exact (congrArg SpinCpu.Knows (Function.update_self ..)).mpr hknows
    · exact (congrArg SpinCpu.Knows (Function.update_of_ne hd ..)).mpr (h.knows d)

theorem SpinRel.setCpu (h : SpinRel s o) (howns : ∀ b, p.Owns b ↔ (s.cpus c).Owns b) (hknows : p.Knows) :
    SpinRel (s.setCpu c p) o :=
  h.update (fun b => (howns b).trans (h.owns c b)) (fun _ _ _ => Iff.rfl) h.mem hknows

theorem SpinRel.acquire (h : SpinRel s o) (hfree : o a = none)
    (howns : ∀ b, p.Owns b ↔ (s.cpus c).Owns b ∨ b = a) (hknows : p.Knows) :
    SpinRel ((s.store a 1#32).setCpu c p) (Function.update o a (some c)) := by
  refine h.update (fun b => ?_) (fun d b hd => ?_) (fun b => ?_) hknows
  · rw [update_acquire hfree, howns, h.owns]
    simp
  · rw [update_acquire hfree]
    simp [hd]
  · exact word_acquire h.mem c a b

theorem SpinRel.release (h : SpinRel s o) (htaken : o a = some c)
    (howns : ∀ b, p.Owns b ↔ (s.cpus c).Owns b ∧ b ≠ a) (hknows : p.Knows) :
    SpinRel ((s.store a 0#32).setCpu c p) (Function.update o a none) := by
  refine h.update (fun b => ?_) (fun d b hd => ?_) (fun b => ?_) hknows
  · rw [update_release htaken, howns, h.owns]
    simp
  · rw [update_release htaken]
    simp [hd]
  · exact word_release h.mem a b

/-- A one is written over a one. -/
theorem store_one (h : s.mem a = 1#32) : s.store a 1#32 = s := by
  unfold SpinState.store
  rw [← h, Function.update_eq_self]

theorem SpinRel.shows (h : SpinRel s o) : Shows (fun c a => (s.cpus c).Owns a) s.mem 0#32 1#32 o :=
  ⟨h.owns, h.mem⟩

theorem SpinRel.free_of_zero (h : SpinRel s o) (hzero : s.mem a = 0#32) : o a = none :=
  (h.shows.word_iff (by decide) a).1 hzero

/-- Only an exchange that finds a zero takes a lock, and only the store of `spinlock_release` gives it
back. -/
theorem SpinRel.run (h : SpinRel s o) (c : ℕ) :
    SpinRel (s.run c) o ∨ ∃ b o', LockTable.Step o b o' ∧ SpinRel (s.run c) o' := by
  have hknows := h.knows c
  cases hmode : (s.cpus c).mode with
  | client =>
      left
      simpa only [SpinState.run, hmode] using h
  | releaseRet =>
      left
      simp only [SpinState.run, hmode]
      exact h.setCpu (fun a => by simp [SpinCpu.Owns, hmode]) trivial
  | releaseMov a =>
      right
      have hheld : (s.cpus c).held a = true := by simpa [SpinCpu.Knows, hmode] using hknows
      have htaken := (h.owns c a).1 (Or.inl hheld)
      simp only [SpinState.run, hmode]
      refine ⟨_, _, .release htaken, h.release htaken (fun b => ?_) trivial⟩
      by_cases hb : b = a
      · subst hb
        simp [SpinCpu.Owns]
      · simp [SpinCpu.Owns, hmode, hb]
  | acquire a pc =>
      cases pc with
      | mov =>
          left
          simp only [SpinCpu.Knows, hmode] at hknows
          simp only [SpinState.run, hmode]
          exact h.setCpu (fun b => by simp [SpinCpu.Owns, hmode]) ⟨hknows, rfl⟩
      | xchg =>
          simp only [SpinCpu.Knows, hmode] at hknows
          simp only [SpinState.run, hmode, hknows.1, hknows.2]
          by_cases hfree : o a = none
          · right
            have hzero : s.mem a = 0#32 := by rw [h.mem, if_pos hfree]
            refine ⟨_, _, .acquire hfree, h.acquire hfree (fun b => ?_) ⟨hknows.1, Or.inl hzero⟩⟩
            simp [SpinCpu.Owns, hmode, hzero, @eq_comm _ b a]
          · left
            have hone : s.mem a = 1#32 := by rw [h.mem, if_neg hfree]
            rw [store_one hone]
            exact h.setCpu (fun b => by simp [SpinCpu.Owns, hmode, hone]) ⟨hknows.1, Or.inr hone⟩
      | jnz =>
          left
          simp only [SpinCpu.Knows, hmode] at hknows
          simp only [SpinState.run, hmode]
          by_cases ht : (s.cpus c).eax = 0#32
          · refine h.setCpu (fun b => by simp [SpinCpu.Owns, hmode, ht]) ?_
            simp only [SpinCpu.Knows, ht, ne_eq, not_true_eq_false, if_false]
          · refine h.setCpu (fun b => by simp [SpinCpu.Owns, hmode, ht]) ?_
            simp only [SpinCpu.Knows, ne_eq, ht, not_false_eq_true, if_true]
            exact ⟨hknows.1, hknows.2.resolve_left ht⟩
      | ret =>
          left
          simp only [SpinState.run, hmode]
          refine h.setCpu (fun b => ?_) trivial
          by_cases hb : b = a
          · subst hb
            simp [SpinCpu.Owns, hmode]
          · simp [SpinCpu.Owns, hmode, hb, Ne.symm hb]

theorem SpinStep.simulate {act : SpinAction} (h : SpinRel s o) (hstep : SpinStep s act s') :
    SpinRel s' o ∨ ∃ b o', LockTable.Step o b o' ∧ SpinRel s' o' := by
  cases hstep with
  | @callAcquire c a hmode hlow =>
      left
      exact h.setCpu (fun b => by simp [SpinCpu.Owns, hmode]) (ebx_eq hlow)
  | @callRelease c a hmode hheld =>
      left
      exact h.setCpu (fun b => by simp [SpinCpu.Owns, hmode]) hheld
  | run => exact h.run _

theorem SpinReachable.related (h : SpinReachable s) : ∃ o, LockTable.Reachable o ∧ SpinRel s o := by
  refine Reach.simulate (R := SpinRel) (fun s hinit => ?_) (fun s o act s' hrel hstep => hstep.simulate hrel) h
  obtain ⟨hcpus, hmem⟩ := hinit
  refine ⟨fun _ => none, rfl, fun c a => ?_, fun a => by rw [hmem, if_pos rfl], fun c => ?_⟩
  · simp [SpinCpu.Owns, (hcpus c).1, (hcpus c).2]
  · simp only [SpinCpu.Knows, (hcpus c).1]

/-! ### A processor alone -/

def GetsWithin (c : ℕ) (a : BitVec 64) (n : ℕ) (s : SpinState) : Prop :=
  ∃ k ≤ n, ((s.runs c k).cpus c).mode = .client ∧ ((s.runs c k).cpus c).held a = true

theorem GetsWithin.of_run {n : ℕ} (h : GetsWithin c a n (s.run c)) : GetsWithin c a (n + 1) s := by
  obtain ⟨k, hk, hgets⟩ := h
  exact ⟨k + 1, by omega, hgets⟩

theorem GetsWithin.mono {m n : ℕ} (h : GetsWithin c a m s) (hmn : m ≤ n) : GetsWithin c a n s := by
  obtain ⟨k, hk, hgets⟩ := h
  exact ⟨k, Nat.le_trans hk hmn, hgets⟩

theorem getsWithin_ret (hmode : (s.cpus c).mode = .acquire a .ret) : GetsWithin c a 1 s := by
  refine ⟨1, Nat.le_refl 1, ?_⟩
  simp [SpinState.runs, SpinState.run, hmode]

theorem getsWithin_jnz (hmode : (s.cpus c).mode = .acquire a .jnz) (heax : (s.cpus c).eax = 0#32) :
    GetsWithin c a 2 s :=
  (getsWithin_ret (by simp [SpinState.run, hmode, heax])).of_run

theorem getsWithin_xchg (hmode : (s.cpus c).mode = .acquire a .xchg) (hlow : ebx a = a)
    (hfree : s.mem a = 0#32) : GetsWithin c a 3 s :=
  (getsWithin_jnz (by simp [SpinState.run, hmode]) (by simp [SpinState.run, hmode, hlow, hfree])).of_run

/-- From any step of the call. -/
theorem getsWithin_of_free (h : SpinRel s o) {pc : AcquirePc} (hmode : (s.cpus c).mode = .acquire a pc)
    (hfree : s.mem a = 0#32) : GetsWithin c a 4 s := by
  have hknows := h.knows c
  have hunowned : ¬ (s.cpus c).Owns a := by
    rw [h.owns, h.free_of_zero hfree]
    simp
  cases pc with
  | mov =>
      simp only [SpinCpu.Knows, hmode] at hknows
      exact (getsWithin_xchg (by simp [SpinState.run, hmode]) hknows
        (by simpa [SpinState.run, hmode, SpinState.setCpu] using hfree)).of_run
  | xchg =>
      simp only [SpinCpu.Knows, hmode] at hknows
      exact (getsWithin_xchg hmode hknows.1 hfree).mono (by decide)
  | jnz =>
      simp only [SpinCpu.Knows, hmode] at hknows
      by_cases heax : (s.cpus c).eax = 0#32
      · exact absurd (Or.inr (Or.inl ⟨hmode, heax⟩)) hunowned
      · exact (getsWithin_xchg (by simp [SpinState.run, hmode, heax]) hknows.1
          (by simpa [SpinState.run, hmode, SpinState.setCpu] using hfree)).of_run
  | ret => exact absurd (Or.inr (Or.inr hmode)) hunowned

/-- As on the other machine: in every interleaving a lock has one owner at most, its word is zero if it has
none, and then a processor in `spinlock_acquire` gets it with four steps of its own, which are the ten
instructions from the first push to the return if all of them are still ahead. -/
theorem xchgReachable_exclusive (s : SpinState) (h : SpinReachable s) :
    (∃ o, LockTable.Reachable o ∧ ∀ c a, (s.cpus c).Owns a ↔ o a = some c) ∧
    (∀ c d a, (s.cpus c).Owns a → (s.cpus d).Owns a → c = d) ∧
    (∀ a, s.mem a = 0#32 ↔ ∀ c, ¬ (s.cpus c).Owns a) ∧
    ∀ c a pc, (s.cpus c).mode = .acquire a pc → s.mem a = 0#32 → GetsWithin c a 4 s := by
  obtain ⟨o, ho, hrel⟩ := h.related
  exact ⟨⟨o, ho, hrel.owns⟩, fun c d a => hrel.shows.exclusive, hrel.shows.free_iff (by decide),
    fun c a pc hmode hfree => getsWithin_of_free hrel hmode hfree⟩

/-- The second processor exchanges after the first one has. -/
theorem xchgReachable_exclusive_two :
    ∃ s : SpinState, SpinReachable s ∧ (s.cpus 1).Owns 0x80#64 ∧ (∀ d, (s.cpus d).Owns 0x80#64 → d = 1) ∧
      (s.cpus 0).mode = .acquire 0x80#64 .jnz := by
  let cpu : SpinCpu := ⟨.client, 0, fun _ => false⟩
  have h0 : SpinReachable ⟨fun _ => cpu, fun _ => 0⟩ := .init ⟨fun _ => ⟨rfl, fun _ => rfl⟩, fun _ => rfl⟩
  have h1 := Reach.step _ h0 (.callAcquire (c := 0) (a := 0x80#64) rfl (by decide))
  have h2 := Reach.step _ h1 (.callAcquire (c := 1) (a := 0x80#64) rfl (by decide))
  have run : ∀ {s : SpinState} (c : ℕ), SpinReachable s → SpinReachable (s.run c) :=
    fun c h => Reach.step _ h .run
  have h3 := run 0 (run 1 (run 1 (run 0 h2)))
  refine ⟨_, h3, Or.inr (Or.inl ⟨rfl, by decide⟩), fun d hd => ?_, rfl⟩
  exact (xchgReachable_exclusive _ h3).2.1 d 1 0x80#64 hd (Or.inr (Or.inl ⟨rfl, by decide⟩))

end

end X86

end Kudos
