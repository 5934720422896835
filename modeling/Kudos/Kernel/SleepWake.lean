import Kudos.Kernel.ThreadOrder

set_option autoImplicit false

/-! # Resource addresses of the sleep queue

`sleepq_add` hashes the address it is given, a `virtaddr_t`, at its full width, but stores it in the
field `sleeps_on` of the thread table, a `uint32_t`; `scheduler_schedule` looks at the field and
`sleepq_wake` compares the field with the full address again. On x86_64, where a `virtaddr_t` has 64
bits, the three agree exactly for the addresses below 2^32 (`sleepsUntilWoken_iff`). From there on a
thread either does not fall asleep at all or is never found again. -/

namespace Kudos

open Chain ThreadSystem

/-! ## What holds in any state -/

/-- `scheduler_add_to_ready_list` only moves pointers. -/
theorem schedulerAddToReadyList_sameRows {s s' : ThreadSystem} {t : ℤ}
    (h : schedulerAddToReadyList s t = .ok s') : SameRows s s' := by
  unfold schedulerAddToReadyList kernelAssert at h
  by_cases hidle : t ≠ idleThreadTid
  · by_cases hrange : 0 ≤ t ∧ t < (configMaxThreads : ℤ)
    · rw [if_pos hidle, if_pos hrange] at h
      by_cases htail : s.readyTail < 0
      · simp only [if_pos htail] at h
        cases h
        exact ⟨state_setNext s t (-1), sleepsOn_setNext s t (-1), rfl⟩
      · simp only [if_neg htail] at h
        cases h
        refine ⟨?_, ?_, rfl⟩
        · exact (state_setNext (s.setNext s.readyTail t) t (-1)).trans (state_setNext _ _ _)
        · exact (sleepsOn_setNext (s.setNext s.readyTail t) t (-1)).trans (sleepsOn_setNext _ _ _)
    · rw [if_pos hidle, if_neg hrange] at h
      cases h
  · rw [if_neg hidle] at h
    cases h

/-- `scheduler_remove_first_ready` only moves pointers. -/
theorem schedulerRemoveFirstReady_sameRows {s s' : ThreadSystem} {t : ℤ}
    (h : schedulerRemoveFirstReady s = .ok (t, s')) : SameRows s s' := by
  unfold schedulerRemoveFirstReady kernelAssert at h
  by_cases hidle : s.readyHead ≠ idleThreadTid
  · by_cases hpos : 0 ≤ s.readyHead
    · by_cases hready : s.state s.readyHead = .ready
      · simp only [if_pos hidle, if_pos hpos, if_pos hready] at h
        cases h
        exact ⟨rfl, rfl, rfl⟩
      · simp only [if_pos hidle, if_pos hpos, if_neg hready] at h
        cases h
    · simp only [if_pos hidle, if_neg hpos] at h
      cases h
      exact ⟨rfl, rfl, rfl⟩
  · simp only [if_neg hidle] at h
    cases h

/-- `scheduler_schedule` leaves the old thread in the state its fields call for, starts one thread
    and changes no `sleeps_on`. -/
theorem schedulerSchedule_rows {s s' : ThreadSystem} {cpu : ℕ}
    (h : schedulerSchedule s cpu = .ok s') :
    s'.sleepsOn = s.sleepsOn ∧ ∃ t, s'.state = Function.update
      (Function.update s.state (s.currentThread cpu) (s.leaves cpu)) t .running := by
  have hput : ∀ s1, schedulerPutAway s cpu = .ok s1 → s1.sleepsOn = s.sleepsOn ∧
      s1.state = Function.update s.state (s.currentThread cpu) (s.leaves cpu) := by
    intro s1 h1
    unfold schedulerPutAway at h1
    unfold ThreadSystem.leaves
    by_cases hdying : s.state (s.currentThread cpu) = .dying
    · rw [if_pos hdying] at h1
      rw [if_pos hdying]
      cases h1
      exact ⟨by simp, by simp⟩
    · by_cases hsl : s.sleepsOn (s.currentThread cpu) ≠ 0
      · rw [if_neg hdying, if_pos hsl] at h1
        rw [if_neg hdying, if_pos hsl]
        cases h1
        exact ⟨by simp, by simp⟩
      · rw [if_neg hdying, if_neg hsl] at h1
        rw [if_neg hdying, if_neg hsl]
        by_cases hidle : s.currentThread cpu ≠ idleThreadTid
        · rw [if_pos hidle] at h1
          cases hadd : schedulerAddToReadyList s (s.currentThread cpu) with
          | error e => rw [hadd] at h1; cases h1
          | ok s2 =>
              rw [hadd] at h1
              cases h1
              have hsame := schedulerAddToReadyList_sameRows hadd
              exact ⟨by simp [hsame.sleepsOn], by simp [hsame.state]⟩
        · rw [if_neg hidle] at h1
          cases h1
          exact ⟨by simp, by simp⟩
  unfold schedulerSchedule at h
  cases h1 : schedulerPutAway s cpu with
  | error e => rw [h1] at h; cases h
  | ok s1 =>
      obtain ⟨hsleeps, hstate⟩ := hput s1 h1
      cases h2 : schedulerRemoveFirstReady s1 with
      | error e => simp only [h1, h2, bind, Except.bind] at h; cases h
      | ok p =>
          obtain ⟨t, s2⟩ := p
          have hsame := schedulerRemoveFirstReady_sameRows h2
          simp only [h1, h2, bind, Except.bind, pure, Except.pure, Except.ok.injEq] at h
          subst h
          exact ⟨by simp [hsame.sleepsOn, hsleeps], t, by simp [hsame.state, hstate]⟩

/-- `sleepq_add` only changes the `sleeps_on` of the calling thread, to the low half of the address. -/
theorem sleepqAdd_rows {s s' : ThreadSystem} {cpu r : ℕ} (h : sleepqAdd s cpu r = .ok s') :
    s'.currentThread = s.currentThread ∧ s'.state = s.state ∧
      s'.sleepsOn = Function.update s.sleepsOn (s.currentThread cpu) (r % 2 ^ 32) := by
  unfold sleepqAdd kernelAssert at h
  by_cases hidle : s.currentThread cpu ≠ idleThreadTid
  · by_cases hempty : s.sleepqHashtable (sleepqHash r) ≤ 0
    · simp only [if_pos hidle, setSleepsOn_sleepqHashtable, setNext_sleepqHashtable,
        if_pos hempty] at h
      cases h
      exact ⟨rfl, by simp, by simp⟩
    · simp only [if_pos hidle, setSleepsOn_sleepqHashtable, setNext_sleepqHashtable,
        if_neg hempty] at h
      cases hlast : sleepqLast ((s.setNext (s.currentThread cpu) (-1)).setSleepsOn
          (s.currentThread cpu) (r % 2 ^ 32)) configMaxThreads
          (s.sleepqHashtable (sleepqHash r)) with
      | error e => rw [hlast] at h; cases h
      | ok p =>
          rw [hlast] at h
          cases h
          exact ⟨rfl, by simp, by simp⟩
  · simp only [if_neg hidle] at h
    cases h

/-- The search of `sleepq_wake` runs off the end if no row has the resource. -/
theorem sleepqFind_absent {s : ThreadSystem} {r fuel : ℕ} {prev first : ℤ} {p : ℤ × ℤ}
    (hr : ∀ t, s.sleepsOn t ≠ r) (h : sleepqFind s r fuel prev first = .ok p) : ¬ 0 < p.2 := by
  induction fuel generalizing prev first with
  | zero => cases h
  | succ fuel ih =>
      rw [sleepqFind] at h
      by_cases hgo : 0 < first ∧ s.sleepsOn first ≠ r
      · rw [if_pos hgo] at h
        exact ih h
      · rw [if_neg hgo] at h
        cases h
        exact fun hpos => hgo ⟨hpos, hr first⟩

/-- `sleepq_wake` for a resource that is in no row changes nothing. -/
theorem sleepqWake_absent {s s' : ThreadSystem} {r : ℕ} (hr : ∀ t, s.sleepsOn t ≠ r)
    (h : sleepqWake s r = .ok s') : s' = s := by
  unfold sleepqWake at h
  cases hfind : sleepqFind s r configMaxThreads (-1) (s.sleepqHashtable (sleepqHash r)) with
  | error e => simp only [hfind, bind, Except.bind] at h; cases h
  | ok p =>
      have hneg := sleepqFind_absent hr hfind
      simp only [hfind, bind, Except.bind, if_neg hneg, pure, Except.pure, Except.ok.injEq] at h
      exact h.symm

/-! ## Falling asleep and being woken -/

/-- The thread `t` sleeps and is not on the ready list. -/
structure Asleep (s : ThreadSystem) (t : ℤ) : Prop where
  sleeping : s.state t = .sleeping
  not_ready : ∃ ready, Linked s.next s.readyHead ready (-1) ∧ t ∉ ready

/-- The calling thread goes to sleep: `sleepq_add`, then the switch. -/
def sleepAndSchedule (s : ThreadSystem) (cpu r : ℕ) : Except KernelFault ThreadSystem := do
  let s ← sleepqAdd s cpu r
  schedulerSchedule s cpu

/-- The thread of `cpu` can sleep on `r`: it falls asleep, a wake-up for `r` makes it and no other
    thread ready if it is the only one that waits, and a wake-up for another address leaves it
    asleep. -/
def SleepsUntilWoken (s : ThreadSystem) (cpu r : ℕ) : Prop :=
  ∃ s1, sleepAndSchedule s cpu r = .ok s1 ∧ Asleep s1 (s.currentThread cpu) ∧
    ((∀ t, t ≠ s.currentThread cpu → s.sleepsOn t ≠ r) →
      ∃ s2, sleepqWake s1 r = .ok s2 ∧
        s2.state = Function.update s1.state (s.currentThread cpu) .ready) ∧
    ∀ r' < 2 ^ 64, r' ≠ r → ∃ s2, sleepqWake s1 r' = .ok s2 ∧ Asleep s2 (s.currentThread cpu)

section

variable {ncpu : ℕ} {s : ThreadSystem} {q : Queues} {cpu r : ℕ}

theorem Consistent.asleep (hc : Consistent ncpu s q) {t : ℤ} (h : s.state t = .sleeping) :
    Asleep s t := by
  refine ⟨h, q.ready, hc.stored.ready, fun hm => ?_⟩
  have := ((hc.rows.mem_ready t).1 hm).2
  rw [h] at this
  cases this

/-- An address that does not fit into `sleeps_on` does not work. If its low half is zero the thread
    is not put to sleep; otherwise no wake-up for the address finds it. -/
theorem not_sleepsUntilWoken (hwidth : ∀ t, s.sleepsOn t < 2 ^ 32) (hr : 2 ^ 32 ≤ r) :
    ¬ SleepsUntilWoken s cpu r := by
  rintro ⟨s1, hrun, hasleep, hwake, -⟩
  unfold sleepAndSchedule at hrun
  cases hadd : sleepqAdd s cpu r with
  | error e => rw [hadd] at hrun; cases hrun
  | ok s0 =>
      rw [hadd] at hrun
      obtain ⟨-, -, hsleeps0⟩ := sleepqAdd_rows hadd
      obtain ⟨hsleeps, -⟩ := schedulerSchedule_rows hrun
      have hnone : ∀ t, s1.sleepsOn t ≠ r := by
        intro t
        rw [hsleeps, hsleeps0]
        by_cases ht : t = s.currentThread cpu
        · rw [ht, Function.update_self]
          have := Nat.mod_lt r (show 2 ^ 32 > 0 by decide)
          omega
        · rw [Function.update_of_ne ht]
          have := hwidth t
          omega
      obtain ⟨s2, hok, hstate⟩ := hwake (fun t _ => by have := hwidth t; omega)
      have hready : s1.state (s.currentThread cpu) = .ready := by
        rw [sleepqWake_absent hnone hok] at hstate
        rw [hstate, Function.update_self]
      rw [hasleep.sleeping] at hready
      cases hready

/-- Every address that fits into `sleeps_on` works. -/
theorem sleepsUntilWoken_of_lt (hc : Consistent ncpu s q) (hcpu : cpu < ncpu)
    (hne : s.currentThread cpu ≠ idleThreadTid) (hrun : s.state (s.currentThread cpu) = .running)
    (hsl : s.sleepsOn (s.currentThread cpu) = 0) (h0 : r ≠ 0) (hr : r < 2 ^ 32) :
    SleepsUntilWoken s cpu r := by
  obtain ⟨s0, hadd, hcur0, hstate0, hsleeps0, hc0⟩ := sleepqAdd_consistent hc hne hrun hsl h0 hr
  obtain ⟨s1, hsch, -, hsleeps1, hstate1, hc1⟩ := schedulerSchedule_consistent hc0 hcpu
  set me := s.currentThread cpu with hme
  have hcurme : s0.currentThread cpu = me := by rw [hcur0]
  have hleaves : s0.leaves cpu = .sleeping := by
    simp [ThreadSystem.leaves, hcurme, hstate0, hrun, hsleeps0, h0]
  -- the thread that is selected comes from the ready list, where the caller is not
  have hother : me ≠ (Queues.putAway (q.setChain (sleepqHash r)
      (q.chain (sleepqHash r) ++ [me])) s0 cpu).ready.headD idleThreadTid := by
    have hready : (Queues.putAway (q.setChain (sleepqHash r)
        (q.chain (sleepqHash r) ++ [me])) s0 cpu).ready = q.ready := by
      simp [Queues.putAway, hleaves]
    rw [hready]
    cases hq : q.ready with
    | nil => exact hne
    | cons u us =>
        intro he
        have hm : me ∈ q.ready := by rw [hq, he]; simp
        have := ((hc.rows.mem_ready me).1 hm).2
        rw [hrun] at this
        cases this
  have hsleeping : s1.state me = .sleeping := by
    rw [hstate1, Function.update_of_ne hother, hcurme, Function.update_self, hleaves]
  have hsleeps : s1.sleepsOn = Function.update s.sleepsOn me r := by rw [hsleeps1, hsleeps0]
  refine ⟨s1, ?_, hc1.asleep hsleeping, fun halone => ?_, fun r' _ hr' => ?_⟩
  · simp only [sleepAndSchedule, hadd]
    exact hsch
  · obtain ⟨pre, w, post, hq, hpre, hw⟩ :=
      exists_first_waiter hc1 h0 ⟨me, by rw [hsleeps, Function.update_self]⟩
    have hwme : w = me := by
      by_contra hwm
      rw [hsleeps, Function.update_of_ne hwm] at hw
      exact halone w hwm hw
    subst hwme
    obtain ⟨s2, hok, hrel, -⟩ := sleepqWake_some hc1 hq hpre hw
    exact ⟨s2, hok, by rw [hrel.state, if_pos hsleeping]⟩
  · by_cases hex : ∃ t, s1.sleepsOn t = r' ∧ r' ≠ 0
    · obtain ⟨t, ht, h0'⟩ := hex
      obtain ⟨pre, w, post, hq, hpre, hw⟩ := exists_first_waiter hc1 h0' ⟨t, ht⟩
      obtain ⟨s2, hok, hrel, hc2⟩ := sleepqWake_some hc1 hq hpre hw
      have hmw : me ≠ w := by
        rintro rfl
        rw [hsleeps, Function.update_self] at hw
        exact hr' hw.symm
      refine ⟨s2, hok, hc2.asleep ?_⟩
      rw [hrel.state]
      split
      · rw [Function.update_of_ne hmw]
        exact hsleeping
      · exact hsleeping
    · refine ⟨s1, sleepqWake_none hc1 (fun t ht => ?_), hc1.asleep hsleeping⟩
      by_contra h0'
      exact hex ⟨t, ht, h0'⟩

/-- **Sleep and wake match exactly on 32-bit addresses.** In every state with well-formed queues, a
    running thread can sleep on a 64-bit address and be woken through it if and only if the address
    is below 2^32. -/
theorem sleepsUntilWoken_iff (hc : Consistent ncpu s q) (hwidth : ∀ t, s.sleepsOn t < 2 ^ 32)
    (hcpu : cpu < ncpu) (hne : s.currentThread cpu ≠ idleThreadTid)
    (hrun : s.state (s.currentThread cpu) = .running) (hsl : s.sleepsOn (s.currentThread cpu) = 0)
    (h0 : r ≠ 0) (_h64 : r < 2 ^ 64) : SleepsUntilWoken s cpu r ↔ r < 2 ^ 32 := by
  constructor
  · intro h
    by_contra hr
    exact not_sleepsUntilWoken hwidth (by omega) h
  · exact sleepsUntilWoken_of_lt hc hcpu hne hrun hsl h0

end

/-- One thread that runs on the only CPU. -/
def oneRunning : ThreadSystem :=
  (runThreadOps 1 threadTableInit [.create, .run 1, .schedule 0]).get (by decide +kernel)

theorem oneRunning_reachable : ThreadReachable 1 oneRunning :=
  reachable_of_runThreadOps (Option.some_get _).symm

theorem sleepsUntilWoken_iff_oneRunning : SleepsUntilWoken oneRunning 0 4096 := by
  obtain ⟨q, hc⟩ := reachable_consistent oneRunning_reachable
  exact (sleepsUntilWoken_iff hc (reachable_sleepsOn_lt oneRunning_reachable) (by decide)
    (by decide +kernel) (by decide +kernel) (by decide +kernel) (by decide) (by decide)).2 (by decide)

/-- The thread that sleeps on the address 2^32 + 4096 is stored under 4096, and the wake-up does not
    find it. -/
theorem oneRunning_not_woken :
    (∃ q, Consistent 1 oneRunning q) ∧ oneRunning.currentThread 0 = 1 ∧
      oneRunning.state 1 = .running ∧ oneRunning.sleepsOn 1 = 0 ∧
      ¬ SleepsUntilWoken oneRunning 0 (2 ^ 32 + 4096) := by
  refine ⟨reachable_consistent oneRunning_reachable, by decide +kernel, by decide +kernel,
    by decide +kernel, ?_⟩
  exact not_sleepsUntilWoken (reachable_sleepsOn_lt oneRunning_reachable) (by decide)

end Kudos
