import Kudos.Kernel.ThreadInvariant
import Kudos.Library.CInt
import Mathlib.Data.Finset.Image
import Mathlib.Data.List.Count

set_option autoImplicit false

/-! # Semaphores

`semaphore_P` and `semaphore_V` of `kernel/semaphore.c` on top of the sleep queue. A blocked `P`
never looks at the value of the semaphore again: that it goes on if and only if a `V` has paid for
it is a property of the sleep queue. The main result, `semaphoreRun_correct`, counts the `P` and `V`
of a whole run, on any number of CPUs and with any number of semaphores whose addresses may share
slots of the sleep queue. -/

namespace Kudos

open CInt ThreadSystem Transition

/-- The thread tables and the `value` fields of the semaphores, by the address of the semaphore.
    The `creator` field only serves `semaphore_create` and `semaphore_destroy`. -/
structure SemaphoreSystem where
  threads : ThreadSystem
  value : ℕ → ℤ

/-- Store to the field `value`, an `int`. -/
def SemaphoreSystem.setValue (s : SemaphoreSystem) (sem : ℕ) (v : ℤ) : SemaphoreSystem :=
  { s with value := Function.update s.value sem (wrap32 v) }

/-- `semaphore_P` up to the release of its spinlock, called by the thread that runs on `cpu`. If the
    value is negative now, the `thread_switch` that follows is a step of the scheduler. -/
def semaphoreP (s : SemaphoreSystem) (cpu sem : ℕ) : Except KernelFault SemaphoreSystem :=
  let s := s.setValue sem (s.value sem - 1)
  if s.value sem < 0 then do
    let threads ← sleepqAdd s.threads cpu sem
    return { s with threads := threads }
  else
    return s

/-- `semaphore_V`. -/
def semaphoreV (s : SemaphoreSystem) (sem : ℕ) : Except KernelFault SemaphoreSystem :=
  let s := s.setValue sem (s.value sem + 1)
  if s.value sem ≤ 0 then do
    let threads ← sleepqWake s.threads sem
    return { s with threads := threads }
  else
    return s

/-! ## Runs -/

/-- The semaphores in use: where they are, and the values they were created with. That these are not
    negative is asserted by `semaphore_create`. -/
structure LiveSemaphores where
  live : Finset ℕ
  init : ℕ → ℤ
  address : ∀ sem ∈ live, sem ≠ 0 ∧ sem < 2 ^ 32
  init_nonneg : ∀ sem ∈ live, 0 ≤ init sem
  init_int : ∀ sem ∈ live, init sem ≤ intMax

/-- The atomic steps of a system with semaphores. -/
inductive SemaphoreOp where
  | p (cpu sem : ℕ)
  | v (sem : ℕ)
  | thread (op : ThreadOp)
  deriving DecidableEq, Repr

/-- The step does not use `r` as a resource of the sleep queue. -/
def ThreadOp.Spares (r : ℕ) : ThreadOp → Prop
  | sleep _ resource | wake resource | wakeAll resource => resource ≠ r
  | create | run _ | schedule _ | finish _ => True

namespace SemaphoreOp

/-- A `P` is called by a running thread that waits for nothing, a `V` by anybody, also by interrupt
    handlers. All other steps of the thread system may happen in between; the sleep queue is used
    for other things too, but not with the address of a semaphore. -/
def Enabled (ncpu : ℕ) (S : LiveSemaphores) (s : SemaphoreSystem) : SemaphoreOp → Prop
  | p cpu sem => sem ∈ S.live ∧ (ThreadOp.sleep cpu sem).Enabled ncpu s.threads
  | v sem => sem ∈ S.live
  | thread op => op.Enabled ncpu s.threads ∧ ∀ sem ∈ S.live, op.Spares sem

def exec (s : SemaphoreSystem) : SemaphoreOp → Except KernelFault SemaphoreSystem
  | p cpu sem => semaphoreP s cpu sem
  | v sem => semaphoreV s sem
  | thread op => do
      let threads ← op.exec s.threads
      return { s with threads := threads }

/-- The `P` on a semaphore. -/
def isP (sem : ℕ) : SemaphoreOp → Bool
  | p _ sem' => sem' = sem
  | _ => false

/-- The `V` on a semaphore. -/
def isV (sem : ℕ) : SemaphoreOp → Bool
  | v sem' => sem' = sem
  | _ => false

end SemaphoreOp

def semaphoreStep (ncpu : ℕ) (S : LiveSemaphores) (s : SemaphoreSystem) (op : SemaphoreOp)
    (s' : SemaphoreSystem) : Prop :=
  op.Enabled ncpu S s ∧ op.exec s = .ok s'

/-- The initialised tables, every semaphore with the value it was created with. -/
def LiveSemaphores.start (S : LiveSemaphores) : SemaphoreSystem := ⟨threadTableInit, S.init⟩

/-- The runs on `ncpu` CPUs with the semaphores `S`. -/
def SemaphoreRun (ncpu : ℕ) (S : LiveSemaphores) (ops : List SemaphoreOp) (s : SemaphoreSystem) :
    Prop :=
  Run (· = S.start) (semaphoreStep ncpu S) ops s

/-- What an unbounded counter for the semaphore would show after the steps `ops`: the initial value
    plus the number of its `V`, minus the number of its `P`. -/
def LiveSemaphores.balance (S : LiveSemaphores) (sem : ℕ) (ops : List SemaphoreOp) : ℤ :=
  S.init sem + ops.countP (·.isV sem) - ops.countP (·.isP sem)

/-- The threads that wait for a semaphore. -/
def SemaphoreSystem.waiters (s : SemaphoreSystem) (sem : ℕ) : Finset ℤ :=
  (((Finset.range configMaxThreads).erase 0).image (fun n : ℕ => (n : ℤ))).filter
    (fun t => s.threads.sleepsOn t = sem)

/-! ## The threads that wait -/

section

variable {ncpu : ℕ} {S : LiveSemaphores} {s s' : SemaphoreSystem} {q : Queues} {sem : ℕ}

/-- Whoever has a resource in its `sleeps_on` is a proper thread of the table. -/
theorem mem_waiters (hc : Consistent ncpu s.threads q) (h0 : sem ≠ 0) (t : ℤ) :
    t ∈ s.waiters sem ↔ s.threads.sleepsOn t = sem := by
  simp only [SemaphoreSystem.waiters, Finset.mem_filter, and_iff_right_iff_imp]
  intro ht
  have hne : s.threads.sleepsOn t ≠ 0 := by rw [ht]; exact h0
  obtain ⟨hpos, hlt⟩ := hc.stored.chainTid _ t ((hc.rows.mem_chain _ t).2 ⟨hne, rfl⟩)
  refine Finset.mem_image.2 ⟨t.toNat, ?_, by omega⟩
  rw [Finset.mem_erase, Finset.mem_range]
  omega

/-- At most as many threads wait as the table has rows, so the value never gets near `intMin`. -/
theorem card_waiters_lt (s : SemaphoreSystem) (sem : ℕ) :
    ((s.waiters sem).card : ℤ) < configMaxThreads := by
  have hcard : (s.waiters sem).card ≤ ((Finset.range configMaxThreads).erase 0).card :=
    (Finset.card_filter_le ..).trans Finset.card_image_le
  have hrows : ((Finset.range configMaxThreads).erase 0).card < configMaxThreads := by decide
  omega

/-- A step that does not use the semaphore's address lets its waiters wait. -/
theorem ThreadOp.exec_sleepsOn {s s' : ThreadSystem} {op : ThreadOp} (hc : Consistent ncpu s q)
    (hen : op.Enabled ncpu s) (hok : op.exec s = .ok s') (h0 : sem ≠ 0) (hsp : op.Spares sem)
    (t : ℤ) : s'.sleepsOn t = sem ↔ s.sleepsOn t = sem := by
  cases op with
  | create =>
      cases hok
      rw [threadCreate_sleepsOn hc]
  | run u =>
      have hnew : s.state u = .nonready := hen
      have hne : u ≠ idleThreadTid := fun he => hc.rows.idle_old (he ▸ hnew)
      obtain ⟨s1, hok1, -, hsleeps, -, -⟩ := threadRun_consistent hc hnew hne
      cases hok.symm.trans hok1
      rw [hsleeps]
  | sleep cpu r =>
      obtain ⟨-, hne, hrun, hsl, hr0, hr⟩ := hen
      obtain ⟨s1, hok1, -, -, hsleeps, -⟩ := sleepqAdd_consistent hc hne hrun hsl hr0 hr
      cases hok.symm.trans hok1
      rw [hsleeps]
      by_cases ht : t = s.currentThread cpu
      · rw [ht, Function.update_self, hsl]
        exact ⟨fun he => absurd he hsp, fun he => absurd he.symm h0⟩
      · rw [Function.update_of_ne ht]
  | wake r =>
      by_cases hr : ∃ u, s.sleepsOn u = r ∧ r ≠ 0
      · obtain ⟨u, hu, hr0⟩ := hr
        obtain ⟨pre, w, post, hq, hpre, hw⟩ := exists_first_waiter hc hr0 ⟨u, hu⟩
        obtain ⟨s1, hok1, hrel, -⟩ := sleepqWake_some hc hq hpre hw
        cases hok.symm.trans hok1
        rw [hrel.sleepsOn]
        by_cases ht : t = w
        · rw [ht, Function.update_self, hw]
          exact ⟨fun he => absurd he.symm h0, fun he => absurd he hsp⟩
        · rw [Function.update_of_ne ht]
      · have hnone : sleepqWake s r = .ok s := by
          refine sleepqWake_none hc (fun u hu => ?_)
          by_contra hr0
          exact hr ⟨u, hu, hr0⟩
        cases hok.symm.trans hnone
        rfl
  | wakeAll r =>
      obtain ⟨s1, q1, hok1, -, hall⟩ := sleepqWakeAll_consistent hc r
      cases hok.symm.trans hok1
      rw [hall.sleepsOn]
      split
      · next h =>
          rw [h.2]
          exact ⟨fun he => absurd he.symm h0, fun he => absurd he hsp⟩
      · rfl
  | schedule cpu =>
      obtain ⟨s1, hok1, -, hsleeps, -, -⟩ := schedulerSchedule_consistent hc hen
      cases hok.symm.trans hok1
      rw [hsleeps]
  | finish cpu =>
      cases hok
      simp [threadFinish]

/-! ## What one call does -/

/-- `semaphore_P` takes one from the value; if that is negative now, the caller waits. -/
theorem semaphoreP_spec {cpu : ℕ} (hc : Consistent ncpu s.threads q)
    (hen : (ThreadOp.sleep cpu sem).Enabled ncpu s.threads) :
    ∃ s' q', semaphoreP s cpu sem = .ok s' ∧ Consistent ncpu s'.threads q' ∧
      s'.value = Function.update s.value sem (wrap32 (s.value sem - 1)) ∧
      s'.threads.state = s.threads.state ∧
      s'.threads.sleepsOn = if wrap32 (s.value sem - 1) < 0
        then Function.update s.threads.sleepsOn (s.threads.currentThread cpu) sem
        else s.threads.sleepsOn := by
  obtain ⟨-, hne, hrun, hsl, h0, hr⟩ := hen
  by_cases hneg : wrap32 (s.value sem - 1) < 0
  · obtain ⟨threads, hok, -, hstate, hsleeps, hc'⟩ := sleepqAdd_consistent hc hne hrun hsl h0 hr
    refine ⟨⟨threads, _⟩, _, ?_, hc', rfl, hstate, ?_⟩
    · simp only [semaphoreP, SemaphoreSystem.setValue, Function.update_self, if_pos hneg, hok]
      rfl
    · rw [if_pos hneg]
      exact hsleeps
  · refine ⟨s.setValue sem (s.value sem - 1), q, ?_, hc, rfl, rfl, ?_⟩
    · simp only [semaphoreP, SemaphoreSystem.setValue, Function.update_self, if_neg hneg]
      rfl
    · rw [if_neg hneg]
      rfl

/-- `semaphore_V` adds one to the value; if that is not positive now, it releases one of the waiters
    of this semaphore, provided there is one. -/
theorem semaphoreV_spec (hc : Consistent ncpu s.threads q) (h0 : sem ≠ 0) :
    ∃ s' q', semaphoreV s sem = .ok s' ∧ Consistent ncpu s'.threads q' ∧
      s'.value = Function.update s.value sem (wrap32 (s.value sem + 1)) ∧
      ((wrap32 (s.value sem + 1) ≤ 0 ∧ ∃ w ∈ s.waiters sem, Released s.threads s'.threads w) ∨
        ((wrap32 (s.value sem + 1) ≤ 0 → s.waiters sem = ∅) ∧ s'.threads = s.threads)) := by
  by_cases hpos : wrap32 (s.value sem + 1) ≤ 0
  · by_cases hw : ∃ t, s.threads.sleepsOn t = sem
    · obtain ⟨pre, w, post, hq, hpre, hws⟩ := exists_first_waiter hc h0 hw
      obtain ⟨threads, hok, hrel, hc'⟩ := sleepqWake_some hc hq hpre hws
      refine ⟨⟨threads, _⟩, _, ?_, hc', rfl, Or.inl ⟨hpos, w, (mem_waiters hc h0 w).2 hws, hrel⟩⟩
      simp only [semaphoreV, SemaphoreSystem.setValue, Function.update_self, if_pos hpos, hok]
      rfl
    · have hnone : sleepqWake s.threads sem = .ok s.threads :=
        sleepqWake_none hc (fun t ht => absurd ⟨t, ht⟩ hw)
      refine ⟨s.setValue sem (s.value sem + 1), q, ?_, hc, rfl, Or.inr ⟨fun _ => ?_, rfl⟩⟩
      · simp only [semaphoreV, SemaphoreSystem.setValue, Function.update_self, if_pos hpos, hnone]
        rfl
      · rw [Finset.eq_empty_iff_forall_notMem]
        exact fun t ht => hw ⟨t, (mem_waiters hc h0 t).1 ht⟩
  · refine ⟨s.setValue sem (s.value sem + 1), q, ?_, hc, rfl,
      Or.inr ⟨fun h => absurd h hpos, rfl⟩⟩
    simp only [semaphoreV, SemaphoreSystem.setValue, Function.update_self, if_neg hpos]
    rfl

/-- Every step that may be taken in a consistent state succeeds and leads to a consistent state. -/
theorem SemaphoreOp.exec_consistent (hc : Consistent ncpu s.threads q) (op : SemaphoreOp)
    (hen : op.Enabled ncpu S s) :
    ∃ s' q', op.exec s = .ok s' ∧ Consistent ncpu s'.threads q' := by
  cases op with
  | p cpu sem =>
      obtain ⟨s', q', hok, hc', -⟩ := semaphoreP_spec hc hen.2
      exact ⟨s', q', hok, hc'⟩
  | v sem =>
      obtain ⟨s', q', hok, hc', -⟩ := semaphoreV_spec hc (S.address sem hen).1
      exact ⟨s', q', hok, hc'⟩
  | thread op =>
      obtain ⟨threads, q', hok, hc'⟩ := op.exec_consistent hc hen.1
      refine ⟨{ s with threads := threads }, q', ?_, hc'⟩
      simp only [SemaphoreOp.exec, hok]
      rfl

/-- A step other than a `P` or `V` on the semaphore changes neither its value nor its waiters. -/
theorem SemaphoreOp.exec_frame {op : SemaphoreOp} (hc : Consistent ncpu s.threads q)
    (hstep : semaphoreStep ncpu S s op s') (hlive : sem ∈ S.live) (hp : op.isP sem = false)
    (hv : op.isV sem = false) :
    s'.value sem = s.value sem ∧
      ∀ t, s'.threads.sleepsOn t = sem ↔ s.threads.sleepsOn t = sem := by
  have h0 := (S.address sem hlive).1
  obtain ⟨hen, hok⟩ := hstep
  cases op with
  | p cpu sem' =>
      have hne : sem ≠ sem' := fun he => by simp [isP, he] at hp
      obtain ⟨s1, q1, hok1, -, hval, -, hsleeps⟩ := semaphoreP_spec hc hen.2
      cases hok.symm.trans hok1
      refine ⟨by rw [hval, Function.update_of_ne hne], fun t => ?_⟩
      rw [hsleeps]
      split
      · by_cases ht : t = s.threads.currentThread cpu
        · rw [ht, Function.update_self, hen.2.2.2.2.1]
          exact ⟨fun he => absurd he.symm hne, fun he => absurd he.symm h0⟩
        · rw [Function.update_of_ne ht]
      · rfl
  | v sem' =>
      have hne : sem ≠ sem' := fun he => by simp [isV, he] at hv
      have h0' := (S.address sem' hen).1
      obtain ⟨s1, q1, hok1, -, hval, hrel⟩ := semaphoreV_spec hc h0'
      cases hok.symm.trans hok1
      refine ⟨by rw [hval, Function.update_of_ne hne], fun t => ?_⟩
      rcases hrel with ⟨-, w, hw, hrel⟩ | ⟨-, hsame⟩
      · rw [hrel.sleepsOn]
        by_cases ht : t = w
        · rw [ht, Function.update_self, (mem_waiters hc h0' w).1 hw]
          exact ⟨fun he => absurd he.symm h0, fun he => absurd he.symm hne⟩
        · rw [Function.update_of_ne ht]
      · rw [hsame]
  | thread op =>
      obtain ⟨threads, q1, hok1, -⟩ := op.exec_consistent hc hen.1
      simp only [exec, hok1] at hok
      cases hok
      exact ⟨rfl, ThreadOp.exec_sleepsOn hc hen.1 hok1 h0 (hen.2 sem hlive)⟩

/-! ## Counting -/

/-- The value of the semaphore is `b`, and as many threads wait for it as it is below zero. -/
structure Counts (s : SemaphoreSystem) (sem : ℕ) (b : ℤ) : Prop where
  value : s.value sem = b
  waiters : ((s.waiters sem).card : ℤ) = max 0 (-b)

theorem Counts.lower {b : ℤ} (h : Counts s sem b) : -configMaxThreads < b := by
  have := card_waiters_lt s sem
  have := h.waiters
  omega

/-- Waiters are counted by `sleeps_on` alone. -/
theorem waiters_congr (h : ∀ t, s'.threads.sleepsOn t = sem ↔ s.threads.sleepsOn t = sem) :
    s'.waiters sem = s.waiters sem := by
  unfold SemaphoreSystem.waiters
  exact Finset.filter_congr (fun t _ => h t)

theorem Counts.p {b : ℤ} {cpu : ℕ} (h : Counts s sem b) (hc : Consistent ncpu s.threads q)
    (hen : (ThreadOp.sleep cpu sem).Enabled ncpu s.threads) (hb : b ≤ intMax)
    (hok : semaphoreP s cpu sem = .ok s') : Counts s' sem (b - 1) := by
  have hlow := h.lower
  have hw := h.waiters
  have h0 : sem ≠ 0 := hen.2.2.2.2.1
  obtain ⟨s1, q1, hok1, hc', hval, -, hsleeps⟩ := semaphoreP_spec hc hen
  cases hok.symm.trans hok1
  have hwrap : wrap32 (s.value sem - 1) = b - 1 := by
    rw [h.value]
    simp only [configMaxThreads] at hlow
    exact wrap32_of_mem (by simp only [intMin]; omega) (by omega)
  refine ⟨by rw [hval, Function.update_self, hwrap], ?_⟩
  rw [hwrap] at hsleeps
  set me := s.threads.currentThread cpu
  split at hsleeps
  · next hneg =>
      have hme : me ∉ s.waiters sem := by
        rw [mem_waiters hc h0, hen.2.2.2.1]
        exact fun he => h0 he.symm
      have hins : s'.waiters sem = insert me (s.waiters sem) := by
        ext t
        rw [mem_waiters hc' h0, Finset.mem_insert, mem_waiters hc h0, hsleeps]
        by_cases ht : t = me
        · simp [ht]
        · simp [ht]
      rw [hins, Finset.card_insert_of_notMem hme]
      omega
  · next hneg =>
      have hsame : s'.waiters sem = s.waiters sem := waiters_congr (fun t => by rw [hsleeps])
      rw [hsame]
      omega

theorem Counts.v {b : ℤ} (h : Counts s sem b) (hc : Consistent ncpu s.threads q) (h0 : sem ≠ 0)
    (hb : b + 1 ≤ intMax) (hok : semaphoreV s sem = .ok s') : Counts s' sem (b + 1) := by
  have hlow := h.lower
  have hw := h.waiters
  obtain ⟨s1, q1, hok1, hc', hval, hrel⟩ := semaphoreV_spec hc h0
  cases hok.symm.trans hok1
  have hwrap : wrap32 (s.value sem + 1) = b + 1 := by
    rw [h.value]
    simp only [configMaxThreads] at hlow
    exact wrap32_of_mem (by simp only [intMin]; omega) hb
  refine ⟨by rw [hval, Function.update_self, hwrap], ?_⟩
  rw [hwrap] at hrel
  rcases hrel with ⟨hneg, w, hwait, hrel⟩ | ⟨hempty, hsame⟩
  · have herase : s'.waiters sem = (s.waiters sem).erase w := by
      ext t
      rw [mem_waiters hc' h0, Finset.mem_erase, mem_waiters hc h0, hrel.sleepsOn]
      by_cases ht : t = w
      · simp [ht, h0.symm]
      · simp [ht]
    have hcard := Finset.card_erase_add_one hwait
    rw [herase]
    omega
  · have hkeep : s'.waiters sem = s.waiters sem := waiters_congr (fun t => by rw [hsame])
    rw [hkeep]
    -- no waiter was there to be released, so the value was not negative
    by_cases hneg : b + 1 ≤ 0
    · have := hempty hneg
      rw [this] at hw
      simp only [Finset.card_empty, Nat.cast_zero] at hw
      omega
    · omega

end

theorem LiveSemaphores.balance_concat (S : LiveSemaphores) (sem : ℕ) (ops : List SemaphoreOp)
    (op : SemaphoreOp) :
    S.balance sem (ops ++ [op]) =
      S.balance sem ops + (if op.isV sem then 1 else 0) - (if op.isP sem then 1 else 0) := by
  unfold LiveSemaphores.balance
  rw [List.countP_append, List.countP_append, List.countP_singleton, List.countP_singleton]
  split <;> split <;> push_cast <;> omega

/-- The unbounded counter of the semaphore never exceeds the range of an `int` along the steps. -/
def LiveSemaphores.NoOverflow (S : LiveSemaphores) (sem : ℕ) (ops : List SemaphoreOp) : Prop :=
  ∀ ops', ops' <+: ops → S.balance sem ops' ≤ intMax

/-- One step keeps the count of a semaphore that does not overflow. -/
theorem Counts.step {ncpu : ℕ} {S : LiveSemaphores} {s s' : SemaphoreSystem} {q : Queues} {sem : ℕ}
    {ops : List SemaphoreOp} {op : SemaphoreOp} (h : Counts s sem (S.balance sem ops))
    (hc : Consistent ncpu s.threads q) (hlive : sem ∈ S.live) (hstep : semaphoreStep ncpu S s op s')
    (hno : S.NoOverflow sem (ops ++ [op])) : Counts s' sem (S.balance sem (ops ++ [op])) := by
  have hb := hno ops (List.prefix_append ..)
  have hb' := hno (ops ++ [op]) (List.prefix_refl _)
  rw [LiveSemaphores.balance_concat] at hb' ⊢
  obtain ⟨hen, hok⟩ := hstep
  by_cases hp : op.isP sem = true
  · cases op with
    | p cpu sem' =>
        obtain rfl : sem' = sem := by simpa [SemaphoreOp.isP] using hp
        simpa [SemaphoreOp.isP, SemaphoreOp.isV] using h.p hc hen.2 hb hok
    | v _ => cases hp
    | thread _ => cases hp
  · by_cases hv : op.isV sem = true
    · cases op with
      | v sem' =>
          obtain rfl : sem' = sem := by simpa [SemaphoreOp.isV] using hv
          simp only [SemaphoreOp.isP, SemaphoreOp.isV, decide_true, if_true, Bool.false_eq_true,
            if_false, sub_zero] at hb' ⊢
          exact h.v hc (S.address _ hlive).1 hb' hok
      | p _ _ => cases hv
      | thread _ => cases hv
    · rw [Bool.not_eq_true] at hp hv
      have hframe := SemaphoreOp.exec_frame hc ⟨hen, hok⟩ hlive hp hv
      simp only [hp, hv, Bool.false_eq_true, if_false, add_zero, sub_zero]
      exact ⟨hframe.1.trans h.value, by rw [waiters_congr hframe.2]; exact h.waiters⟩

/-- Along every run the tables stay consistent, and every semaphore that has not overflowed is
    counted right. -/
theorem semaphoreRun_counts {ncpu : ℕ} {S : LiveSemaphores} {ops : List SemaphoreOp}
    {s : SemaphoreSystem} (h : SemaphoreRun ncpu S ops s) :
    (∃ q, Consistent ncpu s.threads q) ∧
      ∀ sem ∈ S.live, S.NoOverflow sem ops → Counts s sem (S.balance sem ops) := by
  refine Run.invariant (I := fun ops s => (∃ q, Consistent ncpu s.threads q) ∧
    ∀ sem ∈ S.live, S.NoOverflow sem ops → Counts s sem (S.balance sem ops)) ?_ ?_ h
  · rintro s rfl
    refine ⟨⟨_, threadTableInit_consistent ncpu⟩, fun sem hlive _ => ⟨?_, ?_⟩⟩
    · simp [LiveSemaphores.start, LiveSemaphores.balance]
    · have h0 := (S.address sem hlive).1
      have hnone : S.start.waiters sem = ∅ := by
        rw [Finset.eq_empty_iff_forall_notMem]
        intro t ht
        exact h0 (Finset.mem_filter.1 ht).2.symm
      have := S.init_nonneg sem hlive
      simp only [hnone, LiveSemaphores.balance, List.countP_nil]
      simp only [Finset.card_empty, Nat.cast_zero]
      omega
  · rintro ops s op s' ⟨⟨q, hc⟩, hcounts⟩ hstep
    obtain ⟨s1, q1, hok1, hc1⟩ := op.exec_consistent hc hstep.1
    cases hstep.2.symm.trans hok1
    refine ⟨⟨q1, hc1⟩, fun sem hlive hno => ?_⟩
    refine (hcounts sem hlive fun ops' hp => ?_).step hc hlive hstep hno
    exact hno ops' (hp.trans (List.prefix_append ..))

/-! ## Semaphores over whole runs -/

/-- What a semaphore guarantees after the steps `ops`. -/
structure SemaphoreCorrect (ncpu : ℕ) (S : LiveSemaphores) (sem : ℕ) (ops : List SemaphoreOp)
    (s : SemaphoreSystem) : Prop where
  value : s.value sem = S.init sem + ops.countP (·.isV sem) - ops.countP (·.isP sem)
  mem_waiters : ∀ t, t ∈ s.waiters sem ↔ s.threads.sleepsOn t = sem
  card_waiters : ((s.waiters sem).card : ℤ) = max 0 (-s.value sem)
  /-- The `P` that have been let through are covered by the initial value and the `V`. -/
  admitted : (ops.countP (·.isP sem) : ℤ) - (s.waiters sem).card
    ≤ S.init sem + ops.countP (·.isV sem)
  /-- A `V` on a negative value releases one waiter of this semaphore, and no other thread. -/
  release : s.value sem < 0 →
    ∃ w s', w ∈ s.waiters sem ∧ semaphoreV s sem = .ok s' ∧ Released s.threads s'.threads w
  /-- Nothing but such a `V` ends a wait or makes a waiter ready. -/
  wait_ends : ∀ op s' t, semaphoreStep ncpu S s op s' → s.threads.sleepsOn t = sem →
    (s'.threads.sleepsOn t ≠ sem ∨ s'.threads.state t = .ready) → op = .v sem ∧ s.value sem < 0
  /-- Until then a waiter is asleep, or on its way to its switch, which puts it to sleep. -/
  waiting : ∀ t, s.threads.sleepsOn t = sem →
    s.threads.state t = .running ∨ s.threads.state t = .sleeping
  falls_asleep : ∀ cpu < ncpu, s.threads.sleepsOn (s.threads.currentThread cpu) = sem →
    ∃ s', schedulerSchedule s.threads cpu = .ok s' ∧
      s'.state (s.threads.currentThread cpu) = .sleeping
  no_fault : ∀ op : SemaphoreOp, op.Enabled ncpu S s → ∃ s', op.exec s = .ok s'

section

variable {ncpu : ℕ} {S : LiveSemaphores} {s s' : SemaphoreSystem} {q : Queues} {sem : ℕ}

/-- While the value is counted right, a wait ends only in a `V` on a negative value. -/
theorem Counts.wait_ends {b : ℤ} {op : SemaphoreOp} {t : ℤ} (h : Counts s sem b)
    (hc : Consistent ncpu s.threads q) (hlive : sem ∈ S.live)
    (hstep : semaphoreStep ncpu S s op s') (ht : s.threads.sleepsOn t = sem)
    (hend : s'.threads.sleepsOn t ≠ sem) : op = .v sem ∧ s.value sem < 0 := by
  have h0 := (S.address sem hlive).1
  by_cases hv : op.isV sem = true
  · cases op with
    | v sem' =>
        obtain rfl : sem' = sem := by simpa [SemaphoreOp.isV] using hv
        have hcard : 0 < (s.waiters sem').card :=
          Finset.card_pos.2 ⟨t, (mem_waiters hc h0 t).2 ht⟩
        have := h.waiters
        refine ⟨rfl, ?_⟩
        rw [h.value]
        omega
    | p _ _ => cases hv
    | thread _ => cases hv
  · rw [Bool.not_eq_true] at hv
    by_cases hp : op.isP sem = true
    · cases op with
      | p cpu sem' =>
          obtain rfl : sem' = sem := by simpa [SemaphoreOp.isP] using hp
          obtain ⟨s1, q1, hok1, -, -, -, hsleeps⟩ := semaphoreP_spec hc hstep.1.2
          cases hstep.2.symm.trans hok1
          rw [hsleeps] at hend
          split at hend
          · by_cases hme : t = s.threads.currentThread cpu
            · simp [hme] at hend
            · rw [Function.update_of_ne hme] at hend
              exact absurd ht hend
          · exact absurd ht hend
      | v _ => cases hp
      | thread _ => cases hp
    · rw [Bool.not_eq_true] at hp
      exact absurd (((SemaphoreOp.exec_frame hc hstep hlive hp hv).2 t).2 ht) hend

/-- The switch at the end of a blocked `P` puts the thread to sleep. -/
theorem schedulerSchedule_falls_asleep {s : ThreadSystem} {cpu : ℕ} (hc : Consistent ncpu s q)
    (hcpu : cpu < ncpu) (hsl : s.sleepsOn (s.currentThread cpu) ≠ 0) :
    ∃ s', schedulerSchedule s cpu = .ok s' ∧ s'.state (s.currentThread cpu) = .sleeping := by
  obtain ⟨s', hok, -, -, hstate, -⟩ := schedulerSchedule_consistent hc hcpu
  have hidle : s.currentThread cpu ≠ idleThreadTid := fun he => hsl (by rw [he]; exact hc.rows.idle)
  have hnd : s.state (s.currentThread cpu) ≠ .dying := by
    intro hd
    rcases hc.rows.waiting _ hsl with h | h <;> rw [hd] at h <;> cases h
  have hleaves : s.leaves cpu = .sleeping := by
    simp [ThreadSystem.leaves, hnd, hsl]
  have hready : (q.putAway s cpu).ready = q.ready := by
    simp [Queues.putAway, hleaves]
  have hnot : s.currentThread cpu ≠ (q.putAway s cpu).ready.headD idleThreadTid := by
    rw [hready]
    cases hq : q.ready with
    | nil => exact hidle
    | cons x xs =>
        rintro he
        have hx : x ∈ q.ready := by rw [hq]; simp
        have hxr := ((hc.rows.mem_ready x).1 hx).2
        rcases hc.rows.waiting _ hsl with h | h <;>
          rw [he, List.headD_cons, hxr] at h <;> cases h
  refine ⟨s', hok, ?_⟩
  rw [hstate, Function.update_of_ne hnot, Function.update_self, hleaves]

end

/-- **Semaphores over whole runs.** On any number of CPUs, with any number of threads and semaphores
    and in any interleaving, a semaphore whose counter stays within the range of an `int` counts
    right, lets no more `P` through than it may, and loses or invents no wake-up. -/
theorem semaphoreRun_correct {ncpu : ℕ} {S : LiveSemaphores} {ops : List SemaphoreOp}
    {s : SemaphoreSystem} (h : SemaphoreRun ncpu S ops s) {sem : ℕ} (hlive : sem ∈ S.live)
    (hno : S.NoOverflow sem ops) : SemaphoreCorrect ncpu S sem ops s := by
  obtain ⟨⟨q, hc⟩, hcounts⟩ := semaphoreRun_counts h
  have hcount := hcounts sem hlive hno
  have h0 := (S.address sem hlive).1
  have hval := hcount.value
  have hcard := hcount.waiters
  rw [← hval] at hcard
  have hsum : s.value sem = S.init sem + ops.countP (·.isV sem) - ops.countP (·.isP sem) := hval
  refine
    { value := hsum
      mem_waiters := mem_waiters hc h0
      card_waiters := hcard
      admitted := by omega
      release := fun hneg => ?_
      wait_ends := fun op s' t hstep ht hend => ?_
      waiting := fun t ht => hc.rows.waiting t (by rw [ht]; exact h0)
      falls_asleep := fun cpu hcpu ht =>
        schedulerSchedule_falls_asleep hc hcpu (by rw [ht]; exact h0)
      no_fault := fun op hen => ?_ }
  · obtain ⟨s', q', hok, -, -, hrel⟩ := semaphoreV_spec hc h0
    rcases hrel with ⟨-, w, hw, hrel⟩ | ⟨hempty, -⟩
    · exact ⟨w, s', hw, hok, hrel⟩
    · -- without waiters the value could not be negative
      have hlow := hcount.lower
      rw [← hval] at hlow
      simp only [configMaxThreads] at hlow
      have hwrap : wrap32 (s.value sem + 1) = s.value sem + 1 :=
        wrap32_eq_self (by omega) (by omega)
      rw [hwrap] at hempty
      rw [hempty (by omega)] at hcard
      simp only [Finset.card_empty, Nat.cast_zero] at hcard
      omega
  · rcases hend with hend | hend
    · exact hcount.wait_ends hc hlive hstep ht hend
    · obtain ⟨s1, q1, hok1, hc1⟩ := op.exec_consistent hc hstep.1
      cases hstep.2.symm.trans hok1
      refine hcount.wait_ends hc hlive hstep ht fun hkeep => ?_
      rcases hc1.rows.waiting t (by rw [hkeep]; exact h0) with hw | hw <;> rw [hend] at hw <;>
        cases hw
  · obtain ⟨s', -, hok, -⟩ := op.exec_consistent hc hen
    exact ⟨s', hok⟩

instance (r : ℕ) : (op : ThreadOp) → Decidable (op.Spares r)
  | .sleep _ _ | .wake _ | .wakeAll _ => inferInstanceAs (Decidable (_ ≠ _))
  | .create | .run _ | .schedule _ | .finish _ => inferInstanceAs (Decidable True)

instance (ncpu : ℕ) (S : LiveSemaphores) (s : SemaphoreSystem) :
    (op : SemaphoreOp) → Decidable (op.Enabled ncpu S s)
  | .p _ _ => inferInstanceAs (Decidable (_ ∧ _))
  | .v sem => inferInstanceAs (Decidable (sem ∈ S.live))
  | .thread op => inferInstanceAs
      (Decidable (op.Enabled ncpu s.threads ∧ ∀ sem ∈ S.live, op.Spares sem))

/-- Take the steps of a list, each of which must be possible. -/
def runSemaphoreOps (ncpu : ℕ) (S : LiveSemaphores) :
    SemaphoreSystem → List SemaphoreOp → Option SemaphoreSystem :=
  runOps (fun s op => if op.Enabled ncpu S s then (op.exec s).toOption else none)

theorem semaphoreRun_of_runSemaphoreOps {ncpu : ℕ} {S : LiveSemaphores} {ops : List SemaphoreOp}
    {s : SemaphoreSystem} (hrun : runSemaphoreOps ncpu S S.start ops = some s) :
    SemaphoreRun ncpu S ops s := by
  have hstart : Run (· = S.start) (semaphoreStep ncpu S) [] S.start := .nil rfl
  refine hstart.append_runOps _ (fun s op s' hop => ?_) hrun
  split at hop
  · next hen => exact ⟨hen, eq_ok_of_toOption hop⟩
  · cases hop

/-- Two semaphores that share a slot of the sleep queue, each created with `v`. -/
def twoSemaphores (v : ℤ) (h0 : 0 ≤ v) (hv : v ≤ intMax) : LiveSemaphores where
  live := {4096, 4223}
  init _ := v
  address := by decide
  init_nonneg _ _ := h0
  init_int _ _ := hv

/-- Two threads on two CPUs compete for a mutex; the loser is let in before it has even switched
    away. -/
def mutexRun : List SemaphoreOp :=
  [.thread .create, .thread (.run 1), .thread .create, .thread (.run 2), .thread (.schedule 0),
   .thread (.schedule 1), .p 0 4096, .p 1 4096, .v 4096, .thread (.schedule 1)]

theorem semaphoreRun_correct_mutexRun :
    ∃ s, SemaphoreRun 2 (twoSemaphores 1 (by decide) (by decide)) mutexRun s ∧
      SemaphoreCorrect 2 (twoSemaphores 1 (by decide) (by decide)) 4096 mutexRun s := by
  cases hrun : runSemaphoreOps 2 (twoSemaphores 1 (by decide) (by decide))
      (twoSemaphores 1 (by decide) (by decide)).start mutexRun with
  | none =>
      have hsome : (runSemaphoreOps 2 (twoSemaphores 1 (by decide) (by decide))
        (twoSemaphores 1 (by decide) (by decide)).start mutexRun).isSome = true := by decide
      rw [hrun] at hsome
      cases hsome
  | some s =>
      have hrun' := semaphoreRun_of_runSemaphoreOps hrun
      refine ⟨s, hrun', semaphoreRun_correct hrun' (by decide) fun ops' hp => ?_⟩
      have hall : ∀ l ∈ mutexRun.inits,
          (twoSemaphores 1 (by decide) (by decide)).balance 4096 l ≤ intMax := by decide
      exact hall ops' ((List.mem_inits ops' mutexRun).2 hp)

/-- A `V` on a semaphore that was created with the largest `int` makes its value negative. -/
theorem semaphoreRun_overflow :
    ¬ ∀ (ncpu : ℕ) (S : LiveSemaphores) (ops : List SemaphoreOp) (s : SemaphoreSystem),
      SemaphoreRun ncpu S ops s → ∀ sem ∈ S.live, SemaphoreCorrect ncpu S sem ops s := by
  intro hall
  have hrun : SemaphoreRun 1 (twoSemaphores intMax (by decide) (by decide)) [.v 4096] _ :=
    semaphoreRun_of_runSemaphoreOps rfl
  have hval := (hall _ _ _ _ hrun 4096 (by decide)).value
  revert hval
  decide

end Kudos
