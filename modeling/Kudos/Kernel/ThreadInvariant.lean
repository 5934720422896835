import Kudos.Kernel.ThreadQueues
import Kudos.Library.Transition
import Mathlib.Data.List.Basic

set_option autoImplicit false

/-! # The thread system over whole runs

The steps of the thread system, in any order and on any number of CPUs, and the invariant
`Consistent` that ties the queues behind the `next` fields to the `state` and `sleeps_on` fields of
the rows. Each step keeps it, none of the steps can fail an assertion or loop for ever in a state
that satisfies it, and so both hold along every run (`reachable_consistent`). -/

namespace Kudos

open Chain ThreadSystem Transition

/-! ## Steps -/

/-- The atomic steps of the thread system. -/
inductive ThreadOp where
  | create
  | run (t : ℤ)
  | sleep (cpu resource : ℕ)
  | wake (resource : ℕ)
  | wakeAll (resource : ℕ)
  | schedule (cpu : ℕ)
  | finish (cpu : ℕ)
  deriving DecidableEq, Repr

namespace ThreadOp

/-- What the kernel guarantees when it takes a step: only a new thread is run, a thread goes to
    sleep on a 32-bit resource while it is running and waits for nothing yet, and likewise ends. A
    wake-up can come from anybody at any time and for any resource. -/
def Enabled (ncpu : ℕ) (s : ThreadSystem) : ThreadOp → Prop
  | create => True
  | run t => s.state t = .nonready
  | sleep cpu resource =>
      cpu < ncpu ∧ s.currentThread cpu ≠ idleThreadTid ∧ s.state (s.currentThread cpu) = .running ∧
        s.sleepsOn (s.currentThread cpu) = 0 ∧ resource ≠ 0 ∧ resource < 2 ^ 32
  | wake _ => True
  | wakeAll _ => True
  | schedule cpu => cpu < ncpu
  | finish cpu =>
      cpu < ncpu ∧ s.state (s.currentThread cpu) = .running ∧ s.sleepsOn (s.currentThread cpu) = 0

/-- The kernel function of a step. -/
def exec (s : ThreadSystem) : ThreadOp → Except KernelFault ThreadSystem
  | create => .ok (threadCreate s).2
  | run t => threadRun s t
  | sleep cpu resource => sleepqAdd s cpu resource
  | wake resource => sleepqWake s resource
  | wakeAll resource => sleepqWakeAll s resource
  | schedule cpu => schedulerSchedule s cpu
  | finish cpu => .ok (threadFinish s cpu)

end ThreadOp

/-- The step relation on `ncpu` CPUs. -/
def threadStep (ncpu : ℕ) (s : ThreadSystem) (op : ThreadOp) (s' : ThreadSystem) : Prop :=
  op.Enabled ncpu s ∧ op.exec s = .ok s'

/-- The states of the thread system on `ncpu` CPUs, from the initialised tables on. -/
def ThreadReachable (ncpu : ℕ) (s : ThreadSystem) : Prop :=
  Reach (· = threadTableInit) (threadStep ncpu) s

/-! ## The invariant -/

/-- The lists `q` are the right ones for the rows: the ready list has exactly the ready threads, the
    chain of a slot exactly the threads whose `sleeps_on` hashes there. -/
structure Rows (ncpu : ℕ) (state : ℤ → ThreadState) (sleepsOn : ℤ → ℕ) (cur : ℕ → ℤ)
    (q : Queues) : Prop where
  mem_ready : ∀ t, t ∈ q.ready ↔ t ≠ idleThreadTid ∧ state t = .ready
  mem_chain : ∀ h t, t ∈ q.chain h ↔ sleepsOn t ≠ 0 ∧ sleepqHash (sleepsOn t) = h
  waiting : ∀ t, sleepsOn t ≠ 0 → state t = .running ∨ state t = .sleeping
  sleeping : ∀ t, state t = .sleeping → sleepsOn t ≠ 0
  range : ∀ t, state t ≠ .free → 0 ≤ t ∧ t < configMaxThreads
  idle : sleepsOn idleThreadTid = 0
  idle_old : state idleThreadTid ≠ .nonready
  current : ∀ c < ncpu, cur c ≠ idleThreadTid → state (cur c) = .running ∨ state (cur c) = .dying
  exclusive : ∀ c < ncpu, ∀ d < ncpu, cur c = cur d → cur c ≠ idleThreadTid → c = d

/-- The tables represent the right queues. -/
structure Consistent (ncpu : ℕ) (s : ThreadSystem) (q : Queues) : Prop where
  stored : Stored s q
  rows : Rows ncpu s.state s.sleepsOn s.currentThread q

theorem threadTableInit_consistent (ncpu : ℕ) :
    Consistent ncpu threadTableInit ⟨[], fun _ => []⟩ where
  stored :=
    { ready := rfl
      tail := rfl
      chain := fun _ => rfl
      readyNodup := List.nodup_nil
      chainNodup := fun _ => List.nodup_nil
      readyTid := by simp
      chainTid := by simp
      ready_chain := by simp
      chain_chain := by simp }
  rows :=
    { mem_ready := fun t => by
        by_cases ht : t = idleThreadTid <;> simp [threadTableInit, ThreadSystem.state, ht]
      mem_chain := fun h t => by simp [threadTableInit, ThreadSystem.sleepsOn]
      waiting := fun t ht => by simp [threadTableInit, ThreadSystem.sleepsOn] at ht
      sleeping := fun t ht => by
        by_cases h : t = idleThreadTid <;> simp [threadTableInit, ThreadSystem.state, h] at ht
      range := fun t ht => by
        by_cases h : t = idleThreadTid
        · subst h
          decide
        · simp [threadTableInit, ThreadSystem.state, h] at ht
      idle := rfl
      idle_old := by decide
      current := fun c _ hc => absurd rfl hc
      exclusive := fun c _ d _ _ hc => absurd rfl hc }

/-! ## How the rows change

One lemma per kind of change, on the fields alone; which pointers implement it is the business of
the `Stored` lemmas. -/

section

variable {ncpu : ℕ} {state : ℤ → ThreadState} {sleepsOn : ℤ → ℕ} {cur : ℕ → ℤ} {q : Queues}

/-- A row that is in use and is not the idle thread's can be on a list. -/
theorem Rows.isTid (hr : Rows ncpu state sleepsOn cur q) {t : ℤ} (hst : state t ≠ .free)
    (hne : t ≠ idleThreadTid) : IsTid t := by
  have := hr.range t hst
  simp only [idleThreadTid] at hne
  exact ⟨by omega, this.2⟩

/-- A thread that is neither ready nor waiting is on no list. -/
theorem Rows.free (hr : Rows ncpu state sleepsOn cur q) {t : ℤ} (hst : state t ≠ .ready)
    (hsl : sleepsOn t = 0) : q.Free t :=
  ⟨fun hm => hst ((hr.mem_ready t).1 hm).2, fun h hm => ((hr.mem_chain h t).1 hm).1 hsl⟩

/-- Only running and sleeping threads wait. -/
theorem Rows.not_waiting (hr : Rows ncpu state sleepsOn cur q) {t : ℤ}
    (hrun : state t ≠ .running) (hsl : state t ≠ .sleeping) : sleepsOn t = 0 := by
  by_contra h
  rcases hr.waiting t h with hw | hw
  · exact hrun hw
  · exact hsl hw

/-- A thread that waits for nothing and is on no list may change to any state but ready and
    sleeping; away from running and dying only if it is on no CPU. -/
theorem Rows.set_state (hr : Rows ncpu state sleepsOn cur q) {t : ℤ} {v : ThreadState}
    (ht : 0 ≤ t ∧ t < configMaxThreads) (hready : v ≠ .ready) (hsleeping : v ≠ .sleeping)
    (hst : state t ≠ .ready ∨ t = idleThreadTid) (hsl : sleepsOn t = 0)
    (hnew : v = .nonready → t ≠ idleThreadTid)
    (hcur : v = .dying ∨ v = .running ∨ ∀ c < ncpu, cur c ≠ t ∨ t = idleThreadTid) :
    Rows ncpu (Function.update state t v) sleepsOn cur q where
  mem_ready u := by
    by_cases hu : u = t
    · subst hu
      simp only [Function.update_self, hr.mem_ready, hready, and_false, iff_false, not_and]
      intro hne
      exact hst.resolve_right hne
    · simpa [hu] using hr.mem_ready u
  mem_chain := hr.mem_chain
  waiting u hu := by
    have hut : u ≠ t := fun he => hu (he ▸ hsl)
    simpa [hut] using hr.waiting u hu
  sleeping u hu := by
    by_cases hut : u = t
    · subst hut
      simp [hsleeping] at hu
    · exact hr.sleeping u (by simpa [hut] using hu)
  range u hu := by
    by_cases hut : u = t
    · rw [hut]; exact ht
    · exact hr.range u (by simpa [hut] using hu)
  idle := hr.idle
  idle_old := by
    by_cases hti : idleThreadTid = t
    · rw [hti, Function.update_self]
      exact fun hv => hnew hv hti.symm
    · rw [Function.update_of_ne hti]
      exact hr.idle_old
  current c hc hne := by
    by_cases hut : cur c = t
    · rw [hut, Function.update_self]
      rcases hcur with h | h | h
      · exact Or.inr h
      · exact Or.inl h
      · rcases h c hc with h | h
        · exact absurd hut h
        · exact absurd (hut.trans h) hne
    · rw [Function.update_of_ne hut]
      exact hr.current c hc hne
  exclusive := hr.exclusive

/-- The state of the idle thread only matters to the CPUs that run it. -/
theorem Rows.set_idle (hr : Rows ncpu state sleepsOn cur q) {v : ThreadState} (hv : v ≠ .sleeping)
    (hnew : v ≠ .nonready) :
    Rows ncpu (Function.update state idleThreadTid v) sleepsOn cur q where
  mem_ready u := by
    by_cases hu : u = idleThreadTid
    · simp [hr.mem_ready, hu]
    · simpa [hu] using hr.mem_ready u
  mem_chain := hr.mem_chain
  waiting u hu := by
    have hui : u ≠ idleThreadTid := fun he => hu (he ▸ hr.idle)
    simpa [hui] using hr.waiting u hu
  sleeping u hu := by
    by_cases hui : u = idleThreadTid
    · subst hui
      simp [hv] at hu
    · exact hr.sleeping u (by simpa [hui] using hu)
  range u hu := by
    by_cases hui : u = idleThreadTid
    · subst hui
      decide
    · exact hr.range u (by simpa [hui] using hu)
  idle := hr.idle
  idle_old := by rwa [Function.update_self]
  current c hc hne := by
    rw [Function.update_of_ne hne]
    exact hr.current c hc hne
  exclusive := hr.exclusive

/-- A thread that is on no list and on no CPU joins the end of the ready list. -/
theorem Rows.enqueue (hr : Rows ncpu state sleepsOn cur q) {t : ℤ} (ht : IsTid t)
    (hsl : sleepsOn t = 0) (hcur : ∀ c < ncpu, cur c ≠ t) :
    Rows ncpu (Function.update state t .ready) sleepsOn cur { q with ready := q.ready ++ [t] } where
  mem_ready u := by
    by_cases hu : u = t
    · subst hu
      have hne : u ≠ idleThreadTid := by
        have := ht.1
        simp only [idleThreadTid]
        omega
      simp [hne]
    · simpa [hu] using hr.mem_ready u
  mem_chain := hr.mem_chain
  waiting u hu := by
    have hut : u ≠ t := fun he => hu (he ▸ hsl)
    simpa [hut] using hr.waiting u hu
  sleeping u hu := by
    by_cases hut : u = t
    · subst hut
      simp at hu
    · exact hr.sleeping u (by simpa [hut] using hu)
  range u hu := by
    by_cases hut : u = t
    · rw [hut]; exact ⟨le_of_lt ht.1, ht.2⟩
    · exact hr.range u (by simpa [hut] using hu)
  idle := hr.idle
  idle_old := by
    have hti : idleThreadTid ≠ t := by
      have := ht.1
      simp only [idleThreadTid]
      omega
    rw [Function.update_of_ne hti]
    exact hr.idle_old
  current c hc hne := by
    rw [Function.update_of_ne (hcur c hc)]
    exact hr.current c hc hne
  exclusive := hr.exclusive

/-- The thread of CPU `c` is put away: the CPU is left to the idle thread. -/
theorem Rows.vacate (hr : Rows ncpu state sleepsOn cur q) (c : ℕ) :
    Rows ncpu state sleepsOn (Function.update cur c idleThreadTid) q where
  mem_ready := hr.mem_ready
  mem_chain := hr.mem_chain
  waiting := hr.waiting
  sleeping := hr.sleeping
  range := hr.range
  idle := hr.idle
  idle_old := hr.idle_old
  current d hd hne := by
    have hdc : d ≠ c := by
      rintro rfl
      simp at hne
    rw [Function.update_of_ne hdc] at hne ⊢
    exact hr.current d hd hne
  exclusive d hd e he heq hne := by
    have hdc : d ≠ c := by
      rintro rfl
      simp at hne
    have hec : e ≠ c := by
      rintro rfl
      rw [heq] at hne
      simp at hne
    rw [Function.update_of_ne hdc] at heq hne
    rw [Function.update_of_ne hec] at heq
    exact hr.exclusive d hd e he heq hne

/-- After its CPU is vacated a thread is on no CPU. -/
theorem Rows.vacated (hr : Rows ncpu state sleepsOn cur q) {c : ℕ} (hc : c < ncpu)
    (hne : cur c ≠ idleThreadTid) :
    ∀ d < ncpu, Function.update cur c idleThreadTid d ≠ cur c := by
  intro d hd
  by_cases hdc : d = c
  · subst hdc
    simpa using hne.symm
  · rw [Function.update_of_ne hdc]
    exact fun he => hdc (hr.exclusive d hd c hc he (he ▸ hne))

/-- A running thread that waits falls asleep once it is off its CPU. -/
theorem Rows.fall_asleep (hr : Rows ncpu state sleepsOn cur q) {t : ℤ} (hrun : state t = .running)
    (hsl : sleepsOn t ≠ 0) (hcur : ∀ c < ncpu, cur c ≠ t) :
    Rows ncpu (Function.update state t .sleeping) sleepsOn cur q where
  mem_ready u := by
    by_cases hu : u = t
    · subst hu
      simp [hr.mem_ready, hrun]
    · simpa [hu] using hr.mem_ready u
  mem_chain := hr.mem_chain
  waiting u hu := by
    by_cases hut : u = t
    · subst hut
      simp
    · simpa [hut] using hr.waiting u hu
  sleeping u hu := by
    by_cases hut : u = t
    · rw [hut]; exact hsl
    · exact hr.sleeping u (by simpa [hut] using hu)
  range u hu := by
    by_cases hut : u = t
    · exact hr.range u (by rw [hut, hrun]; decide)
    · exact hr.range u (by simpa [hut] using hu)
  idle := hr.idle
  idle_old := by
    have hti : idleThreadTid ≠ t := fun he => hsl (he ▸ hr.idle)
    rw [Function.update_of_ne hti]
    exact hr.idle_old
  current c hc hne := by
    rw [Function.update_of_ne (hcur c hc)]
    exact hr.current c hc hne
  exclusive := hr.exclusive

/-- The first ready thread starts to run on a vacated CPU. -/
theorem Rows.dispatch (hr : Rows ncpu state sleepsOn cur q) {t : ℤ} {rest : List ℤ} {c : ℕ}
    (hq : q.ready = t :: rest) (hnodup : q.ready.Nodup) :
    Rows ncpu (Function.update state t .running) sleepsOn (Function.update cur c t)
      { q with ready := rest } := by
  have htr := (hr.mem_ready t).1 (by rw [hq]; simp)
  have hmem : ∀ u, u ∈ rest ↔ u ∈ q.ready ∧ u ≠ t := by
    intro u
    rw [hq] at hnodup ⊢
    have htn := (List.nodup_cons.1 hnodup).1
    by_cases hu : u = t
    · subst hu
      simp [htn]
    · simp [hu]
  have hsl : sleepsOn t = 0 := hr.not_waiting (by rw [htr.2]; decide) (by rw [htr.2]; decide)
  have hoff : ∀ d < ncpu, cur d ≠ t := by
    intro d hd he
    rcases hr.current d hd (he ▸ htr.1) with h | h <;> rw [he, htr.2] at h <;> cases h
  exact
    { mem_ready := fun u => by
        rw [hmem, hr.mem_ready]
        by_cases hu : u = t
        · subst hu
          simp
        · simp [hu]
      mem_chain := hr.mem_chain
      waiting := fun u hu => by
        have hut : u ≠ t := fun he => hu (he ▸ hsl)
        simpa [hut] using hr.waiting u hu
      sleeping := fun u hu => by
        by_cases hut : u = t
        · subst hut
          simp at hu
        · exact hr.sleeping u (by simpa [hut] using hu)
      range := fun u hu => by
        by_cases hut : u = t
        · exact hr.range u (by rw [hut, htr.2]; decide)
        · exact hr.range u (by simpa [hut] using hu)
      idle := hr.idle
      idle_old := by
        rw [Function.update_of_ne htr.1.symm]
        exact hr.idle_old
      current := fun d hd hne => by
        by_cases hdc : d = c
        · subst hdc
          simp
        · rw [Function.update_of_ne hdc] at hne ⊢
          rw [Function.update_of_ne (hoff d hd)]
          exact hr.current d hd hne
      exclusive := fun d hd e he heq hne => by
        by_cases hdc : d = c
        · by_cases hec : e = c
          · rw [hdc, hec]
          · rw [hdc, Function.update_self, Function.update_of_ne hec] at heq
            exact absurd heq.symm (hoff e he)
        · rw [Function.update_of_ne hdc] at heq hne
          by_cases hec : e = c
          · rw [hec, Function.update_self] at heq
            exact absurd heq (hoff d hd)
          · rw [Function.update_of_ne hec] at heq
            exact hr.exclusive d hd e he heq hne }

/-- A running thread starts to wait for `r`. -/
theorem Rows.start_waiting (hr : Rows ncpu state sleepsOn cur q) {t : ℤ} {r : ℕ}
    (hrun : state t = .running) (hne : t ≠ idleThreadTid) (hsl : sleepsOn t = 0) (h0 : r ≠ 0) :
    Rows ncpu state (Function.update sleepsOn t r) cur
      (q.setChain (sleepqHash r) (q.chain (sleepqHash r) ++ [t])) where
  mem_ready := hr.mem_ready
  mem_chain h u := by
    by_cases hu : u = t
    · subst hu
      have hnot : ∀ i, u ∉ q.chain i := fun i hm => ((hr.mem_chain i u).1 hm).1 hsl
      by_cases hh : h = sleepqHash r
      · subst hh
        simp [h0]
      · simp only [Queues.setChain_chain, Function.update_of_ne hh, hnot, Function.update_self,
          false_iff, not_and]
        exact fun _ he => hh he.symm
    · by_cases hh : h = sleepqHash r
      · subst hh
        simpa [hu] using hr.mem_chain (sleepqHash r) u
      · simpa [hu, hh] using hr.mem_chain h u
  waiting u hu := by
    by_cases hut : u = t
    · rw [hut]; exact Or.inl hrun
    · exact hr.waiting u (by simpa [hut] using hu)
  sleeping u hu := by
    have hut : u ≠ t := by
      rintro rfl
      rw [hrun] at hu
      cases hu
    simpa [hut] using hr.sleeping u hu
  range := hr.range
  idle := by rw [Function.update_of_ne hne.symm]; exact hr.idle
  idle_old := hr.idle_old
  current := hr.current
  exclusive := hr.exclusive

/-- A waiting thread `w` is released: it leaves its chain, and if it sleeps it becomes ready. -/
theorem Rows.release (hr : Rows ncpu state sleepsOn cur q) {h : ℕ} {pre post : List ℤ} {w : ℤ}
    (hq : q.chain h = pre ++ w :: post) (hnodup : (q.chain h).Nodup) :
    Rows ncpu (if state w = .sleeping then Function.update state w .ready else state)
      (Function.update sleepsOn w 0) cur
      { q.setChain h (pre ++ post) with
        ready := if state w = .sleeping then q.ready ++ [w] else q.ready } := by
  have hw := (hr.mem_chain h w).1 (by rw [hq]; simp)
  have hidle : w ≠ idleThreadTid := fun he => hw.1 (he ▸ hr.idle)
  have hmem : ∀ u, u ∈ pre ++ post ↔ u ∈ q.chain h ∧ u ≠ w := by
    intro u
    rw [hq] at hnodup ⊢
    have hwn := (List.nodup_cons.1 (List.nodup_middle.1 hnodup)).1
    by_cases hu : u = w
    · subst hu
      simpa using hwn
    · simp [hu]
  refine
    { mem_ready := fun u => ?_
      mem_chain := fun i u => ?_
      waiting := fun u hu => ?_
      sleeping := fun u hu => ?_
      range := fun u hu => ?_
      idle := ?_
      idle_old := ?_
      current := fun c hc hne => ?_
      exclusive := hr.exclusive }
  · split
    · by_cases hu : u = w
      · simp [hu, hidle]
      · simpa [hu] using hr.mem_ready u
    · exact hr.mem_ready u
  · by_cases hi : i = h
    · subst hi
      simp only [Queues.setChain_chain, Function.update_self, hmem, hr.mem_chain]
      by_cases hu : u = w
      · simp [hu]
      · simp [hu]
    · simp only [Queues.setChain_chain, Function.update_of_ne hi, hr.mem_chain]
      by_cases hu : u = w
      · subst hu
        simp only [Function.update_self, ne_eq, not_true_eq_false, false_and, iff_false, not_and]
        intro _ he
        exact hi (he.symm.trans hw.2)
      · simp [hu]
  · have huw : u ≠ w := by
      rintro rfl
      simp at hu
    rw [Function.update_of_ne huw] at hu
    split
    · simpa [huw] using hr.waiting u hu
    · exact hr.waiting u hu
  · have huw : u ≠ w := by
      rintro rfl
      split at hu
      · simp at hu
      · next hns => exact hns hu
    rw [Function.update_of_ne huw]
    split at hu
    · exact hr.sleeping u (by simpa [huw] using hu)
    · exact hr.sleeping u hu
  · by_cases huw : u = w
    · rcases hr.waiting w hw.1 with h' | h' <;> exact hr.range u (by rw [huw, h']; decide)
    · split at hu
      · exact hr.range u (by simpa [huw] using hu)
      · exact hr.range u hu
  · rw [Function.update_of_ne hidle.symm]
    exact hr.idle
  · split
    · rw [Function.update_of_ne hidle.symm]
      exact hr.idle_old
    · exact hr.idle_old
  · split
    · next hsleep =>
        have hcw : cur c ≠ w := by
          intro he
          rcases hr.current c hc hne with h' | h' <;> rw [he, hsleep] at h' <;> cases h'
        rw [Function.update_of_ne hcw]
        exact hr.current c hc hne
    · exact hr.current c hc hne

end

/-! ## Each step keeps the invariant and succeeds -/

section

variable {ncpu : ℕ} {s : ThreadSystem} {q : Queues}

/-- A free row waits for nothing, so `thread_create` changes no `sleeps_on`. -/
theorem threadCreate_sleepsOn (hc : Consistent ncpu s q) :
    (threadCreate s).2.sleepsOn = s.sleepsOn := by
  unfold threadCreate
  split
  · rfl
  · next tid hfind =>
      have hp := List.find?_some hfind
      simp only [decide_eq_true_eq] at hp
      have hzero : s.sleepsOn tid = 0 :=
        hc.rows.not_waiting (by rw [hp.2]; decide) (by rw [hp.2]; decide)
      simp only [sleepsOn_setNext, sleepsOn_setSleepsOn, sleepsOn_setState, sleepsOn_setNextTid]
      rw [← hzero, Function.update_eq_self]

theorem threadCreate_consistent (hc : Consistent ncpu s q) :
    Consistent ncpu (threadCreate s).2 q := by
  unfold threadCreate
  split
  · exact hc
  · next tid hfind =>
      have hp := List.find?_some hfind
      have hm := List.mem_of_find?_eq_some hfind
      simp only [decide_eq_true_eq] at hp
      obtain ⟨hidle, hfree⟩ := hp
      have htid : 0 ≤ (tid : ℤ) ∧ (tid : ℤ) < configMaxThreads := by
        obtain ⟨i, -, rfl⟩ := List.mem_map.1 hm
        have := Nat.mod_lt (i + s.nextTid) (show configMaxThreads > 0 by decide)
        omega
      have hzero : s.sleepsOn tid = 0 :=
        hc.rows.not_waiting (by rw [hfree]; decide) (by rw [hfree]; decide)
      have hnot : q.Free tid := hc.rows.free (by rw [hfree]; decide) hzero
      have hoff : ∀ c < ncpu, s.currentThread c ≠ tid ∨ (tid : ℤ) = idleThreadTid := by
        intro c hcp
        refine Or.inl fun he => ?_
        rcases hc.rows.current c hcp (he ▸ hidle) with h | h <;> rw [he, hfree] at h <;> cases h
      constructor
      · refine hc.stored.congr (fun t ht => ?_) rfl rfl rfl
        have htt : t ≠ tid := fun he => ht (he ▸ hnot)
        simp [htt]
      · have hrows := hc.rows.set_state (v := .nonready) htid (by decide) (by decide)
          (Or.inl (by rw [hfree]; decide)) hzero (fun _ => hidle) (Or.inr (Or.inr hoff))
        have hsame : Function.update s.sleepsOn (tid : ℤ) 0 = s.sleepsOn := by
          rw [← hzero, Function.update_eq_self]
        simpa [hsame] using hrows

theorem threadFinish_consistent (hc : Consistent ncpu s q) {cpu : ℕ}
    (hrun : s.state (s.currentThread cpu) = .running)
    (hsl : s.sleepsOn (s.currentThread cpu) = 0) : Consistent ncpu (threadFinish s cpu) q where
  stored := hc.stored.setState _ _
  rows := by
    have hrows := hc.rows.set_state (v := .dying) (hc.rows.range _ (by rw [hrun]; decide))
      (by decide) (by decide) (Or.inl (by rw [hrun]; decide)) hsl nofun (Or.inl rfl)
    simpa [threadFinish] using hrows

theorem threadRun_consistent (hc : Consistent ncpu s q) {t : ℤ} (hnew : s.state t = .nonready)
    (hne : t ≠ idleThreadTid) :
    ∃ s', threadRun s t = .ok s' ∧ s'.currentThread = s.currentThread ∧
      s'.sleepsOn = s.sleepsOn ∧ s'.state = Function.update s.state t .ready ∧
      Consistent ncpu s' { q with ready := q.ready ++ [t] } := by
  have htid : IsTid t := hc.rows.isTid (by rw [hnew]; decide) hne
  have hzero : s.sleepsOn t = 0 :=
    hc.rows.not_waiting (by rw [hnew]; decide) (by rw [hnew]; decide)
  have hoff : ∀ c < ncpu, s.currentThread c ≠ t := by
    intro c hcp he
    rcases hc.rows.current c hcp (he ▸ hne) with h | h <;> rw [he, hnew] at h <;> cases h
  obtain ⟨s', hok, hsame, hst⟩ :=
    schedulerAddToReadyList_spec hc.stored htid (hc.rows.free (by rw [hnew]; decide) hzero)
  refine ⟨s'.setState t .ready, ?_, by simp [hsame.currentThread], by simp [hsame.sleepsOn],
    by simp [hsame.state], hst.setState _ _, ?_⟩
  · simp [threadRun, schedulerAddReady, hok]
  · have hrows := hc.rows.enqueue htid hzero hoff
    simpa [hsame.state, hsame.sleepsOn, hsame.currentThread] using hrows

theorem sleepqAdd_consistent (hc : Consistent ncpu s q) {cpu r : ℕ}
    (hne : s.currentThread cpu ≠ idleThreadTid) (hrun : s.state (s.currentThread cpu) = .running)
    (hsl : s.sleepsOn (s.currentThread cpu) = 0) (h0 : r ≠ 0) (hr : r < 2 ^ 32) :
    ∃ s', sleepqAdd s cpu r = .ok s' ∧ s'.currentThread = s.currentThread ∧ s'.state = s.state ∧
      s'.sleepsOn = Function.update s.sleepsOn (s.currentThread cpu) r ∧
      Consistent ncpu s'
        (q.setChain (sleepqHash r) (q.chain (sleepqHash r) ++ [s.currentThread cpu])) := by
  have htid := hc.rows.isTid (by rw [hrun]; decide) hne
  obtain ⟨s', hok, hcur, hstate, hsleeps, hst⟩ :=
    sleepqAdd_spec (r := r) hc.stored htid (hc.rows.free (by rw [hrun]; decide) hsl)
  rw [Nat.mod_eq_of_lt hr] at hsleeps
  refine ⟨s', hok, hcur, hstate, hsleeps, hst, ?_⟩
  rw [hcur, hstate, hsleeps]
  exact hc.rows.start_waiting hrun hne hsl h0

/-- The queues after the release of `w`, which stood between `pre` and `post` in slot `h`. -/
def Queues.released (q : Queues) (s : ThreadSystem) (h : ℕ) (pre post : List ℤ) (w : ℤ) : Queues :=
  { q.setChain h (pre ++ post) with
    ready := if s.state w = .sleeping then q.ready ++ [w] else q.ready }

/-- The rows after the release of `w`. -/
structure Released (s s' : ThreadSystem) (w : ℤ) : Prop where
  currentThread : s'.currentThread = s.currentThread
  sleepsOn : s'.sleepsOn = Function.update s.sleepsOn w 0
  state : s'.state = if s.state w = .sleeping then Function.update s.state w .ready else s.state

/-- Unlinking a waiting thread and releasing it: the common part of the two wake functions. -/
theorem unlink_release_consistent (hc : Consistent ncpu s q) {h : ℕ} {pre post : List ℤ} {w : ℤ}
    (hq : q.chain h = pre ++ w :: post) :
    ∃ s', sleepqRelease (sleepqUnlink s h (lastTid pre) w) w = .ok s' ∧ Released s s' w ∧
      Consistent ncpu s' (q.released s h pre post w) := by
  have hw : IsTid w := hc.stored.chainTid h w (by rw [hq]; simp)
  obtain ⟨hsame, hst, hfree⟩ := sleepqUnlink_spec hc.stored hq
  obtain ⟨s', hok, hcur, hsleeps, hstate, hst'⟩ := sleepqRelease_spec hst hw hfree
  rw [hsame.currentThread] at hcur
  rw [hsame.sleepsOn] at hsleeps
  rw [hsame.state] at hstate hst'
  refine ⟨s', hok, ⟨hcur, hsleeps, hstate⟩, hst', ?_⟩
  rw [hcur, hsleeps, hstate]
  exact hc.rows.release hq (hc.stored.chainNodup h)

/-- `sleepq_wake` for a resource nobody waits for changes nothing. -/
theorem sleepqWake_none (hc : Consistent ncpu s q) {r : ℕ} (hr : ∀ t, s.sleepsOn t = r → r = 0) :
    sleepqWake s r = .ok s := by
  have hmiss : ∀ t ∈ q.chain (sleepqHash r), s.sleepsOn t ≠ r := by
    intro t ht he
    exact ((hc.rows.mem_chain _ t).1 ht).1 (he.trans (hr t he))
  have hlen := length_lt_of_nodup (hc.stored.chainNodup _) (hc.stored.chainTid (sleepqHash r))
  have hfind : sleepqFind s r configMaxThreads (-1) (s.sleepqHashtable (sleepqHash r))
      = .ok ((q.chain (sleepqHash r)).getLast?.getD (-1), -1) :=
    sleepqFind_miss (hc.stored.chain _) (hc.stored.chainTid (sleepqHash r)) hmiss hlen
  unfold sleepqWake
  simp only [hfind]
  rfl

/-- `sleepq_wake` releases the first thread of the chain that waits for the resource. -/
theorem sleepqWake_some (hc : Consistent ncpu s q) {r : ℕ} {pre post : List ℤ} {w : ℤ}
    (hq : q.chain (sleepqHash r) = pre ++ w :: post) (hpre : ∀ t ∈ pre, s.sleepsOn t ≠ r)
    (hw : s.sleepsOn w = r) :
    ∃ s', sleepqWake s r = .ok s' ∧ Released s s' w ∧
      Consistent ncpu s' (q.released s (sleepqHash r) pre post w) := by
  obtain ⟨s', hok, hrel, hcons⟩ := unlink_release_consistent hc hq
  refine ⟨s', ?_, hrel, hcons⟩
  have hlen := length_lt_of_nodup (hc.stored.chainNodup _) (hc.stored.chainTid (sleepqHash r))
  have hlink := hc.stored.chain (sleepqHash r)
  rw [hq] at hlen hlink
  have htid : ∀ t ∈ pre, IsTid t := fun t ht =>
    hc.stored.chainTid (sleepqHash r) t (by rw [hq]; simp [ht])
  have hwtid : IsTid w := hc.stored.chainTid (sleepqHash r) w (by rw [hq]; simp)
  have hfind : sleepqFind s r configMaxThreads (-1) (s.sleepqHashtable (sleepqHash r))
      = .ok (lastTid pre, w) :=
    sleepqFind_hit hlink htid hpre hw (by simp only [List.length_append] at hlen; omega)
  unfold sleepqWake
  simp only [hfind]
  show (if 0 < w then _ else _) = _
  rw [if_pos hwtid.1]
  exact hok

/-- The first thread of a chain that waits for `r`, if any thread waits for it at all. -/
theorem exists_first_waiter (hc : Consistent ncpu s q) {r : ℕ} (h0 : r ≠ 0)
    (hr : ∃ t, s.sleepsOn t = r) :
    ∃ pre w post, q.chain (sleepqHash r) = pre ++ w :: post ∧ (∀ t ∈ pre, s.sleepsOn t ≠ r) ∧
      s.sleepsOn w = r := by
  obtain ⟨t, ht⟩ := hr
  have hm : t ∈ q.chain (sleepqHash r) :=
    (hc.rows.mem_chain _ t).2 ⟨by rw [ht]; exact h0, by rw [ht]⟩
  obtain ⟨w, hw⟩ : ∃ w, (q.chain (sleepqHash r)).find? (fun u => s.sleepsOn u = r) = some w := by
    rw [← Option.isSome_iff_exists, List.find?_isSome]
    exact ⟨t, hm, by simpa using ht⟩
  obtain ⟨hwr, pre, post, hq, hpre⟩ := List.find?_eq_some_iff_append.1 hw
  exact ⟨pre, w, post, hq, fun u hu => by simpa using hpre u hu, by simpa using hwr⟩

theorem lastTid_append (pre mid : List ℤ) : mid.getLast?.getD (lastTid pre) = lastTid (pre ++ mid) := by
  cases mid <;> simp [lastTid, List.getLast?_append]

/-- What `sleepq_wake_all` does to a chain of which it has passed `pre` and has `rest` ahead: every
    thread of `rest` that waits for `r` leaves the chain, those asleep join the ready list in the
    order of the chain, and no other thread is touched. -/
structure WokeAll (s s' : ThreadSystem) (q q' : Queues) (h r : ℕ) (pre rest : List ℤ) : Prop where
  currentThread : s'.currentThread = s.currentThread
  chain : q'.chain = Function.update q.chain h (pre ++ rest.filter (fun t => s.sleepsOn t ≠ r))
  ready : q'.ready = q.ready ++ rest.filter (fun t => s.sleepsOn t = r ∧ s.state t = .sleeping)
  sleepsOn : ∀ t, s'.sleepsOn t = if t ∈ rest ∧ s.sleepsOn t = r then 0 else s.sleepsOn t
  state : ∀ t, s'.state t =
    if t ∈ rest ∧ s.sleepsOn t = r ∧ s.state t = .sleeping then .ready else s.state t

/-- Nothing happens if nobody ahead waits for `r`. -/
theorem WokeAll.none {h r : ℕ} {pre rest : List ℤ} (hq : q.chain h = pre ++ rest)
    (hr : ∀ t ∈ rest, s.sleepsOn t ≠ r) : WokeAll s s q q h r pre rest where
  currentThread := rfl
  chain := by
    rw [List.filter_eq_self.2 (fun t ht => by simpa using hr t ht), ← hq, Function.update_eq_self]
  ready := by rw [List.filter_eq_nil_iff.2 (fun t ht => by simp [hr t ht]), List.append_nil]
  sleepsOn t := by rw [if_neg (fun ht => hr t ht.1 ht.2)]
  state t := by rw [if_neg (fun ht => hr t ht.1 ht.2.1)]

/-- Releasing the first waiter ahead and waking the rest behind it. -/
theorem WokeAll.release {s1 s' : ThreadSystem} {q' : Queues} {h r : ℕ} {pre mid post : List ℤ}
    {w : ℤ} (hnodup : (mid ++ w :: post).Nodup) (hmid : ∀ t ∈ mid, s.sleepsOn t ≠ r)
    (hw : s.sleepsOn w = r) (hrel : Released s s1 w)
    (hall : WokeAll s1 s' (q.released s h (pre ++ mid) post w) q' h r (pre ++ mid) post) :
    WokeAll s s' q q' h r pre (mid ++ w :: post) := by
  have hwpost : w ∉ post := (List.nodup_cons.1 (List.nodup_append.1 hnodup).2.1).1
  have hmidpost : ∀ t ∈ mid, t ∉ post := fun t hm hp =>
    (List.nodup_append.1 hnodup).2.2 t hm t (List.mem_cons_of_mem _ hp) rfl
  have hsame : ∀ t ∈ post, s1.sleepsOn t = s.sleepsOn t ∧ s1.state t = s.state t := by
    intro t ht
    have htw : t ≠ w := fun he => hwpost (he ▸ ht)
    rw [hrel.sleepsOn, hrel.state]
    refine ⟨by simp [htw], ?_⟩
    split
    · simp [htw]
    · rfl
  refine ⟨hall.currentThread.trans hrel.currentThread, ?_, ?_, fun t => ?_, fun t => ?_⟩
  · have hf : post.filter (fun t => s1.sleepsOn t ≠ r) = post.filter (fun t => s.sleepsOn t ≠ r) :=
      List.filter_congr (fun t ht => by rw [(hsame t ht).1])
    have hm : mid.filter (fun t => s.sleepsOn t ≠ r) = mid :=
      List.filter_eq_self.2 (fun t ht => by simpa using hmid t ht)
    rw [hall.chain, hf, List.filter_append, hm, List.filter_cons_of_neg (by simpa using hw)]
    simp [Queues.released]
  · have hf : post.filter (fun t => s1.sleepsOn t = r ∧ s1.state t = .sleeping)
        = post.filter (fun t => s.sleepsOn t = r ∧ s.state t = .sleeping) :=
      List.filter_congr (fun t ht => by rw [(hsame t ht).1, (hsame t ht).2])
    have hm : mid.filter (fun t => s.sleepsOn t = r ∧ s.state t = .sleeping) = [] :=
      List.filter_eq_nil_iff.2 (fun t ht => by simp [hmid t ht])
    rw [hall.ready, hf, List.filter_append, hm, List.filter_cons]
    by_cases hsl : s.state w = .sleeping <;> simp [Queues.released, hsl, hw]
  · rw [hall.sleepsOn, hrel.sleepsOn]
    by_cases htw : t = w
    · subst htw
      simp [hwpost, hw]
    · by_cases htm : t ∈ mid
      · simp [htw, hmidpost t htm, hmid t htm]
      · simp [htw, htm]
  · rw [hall.state, hrel.sleepsOn, hrel.state]
    by_cases htw : t = w
    · subst htw
      by_cases hsl : s.state t = .sleeping <;> simp [hwpost, hsl, hw]
    · by_cases htm : t ∈ mid
      · by_cases hsl : s.state w = .sleeping <;> simp [htw, hmidpost t htm, hmid t htm, hsl]
      · by_cases hsl : s.state w = .sleeping <;> simp [htw, htm, hsl]

/-- The loop of `sleepq_wake_all`, from a point where `pre` is behind it and `rest` before it. -/
theorem sleepqWakeAllLoop_consistent {h r : ℕ} {rest : List ℤ} :
    ∀ {fuel : ℕ} {s : ThreadSystem} {q : Queues} {pre : List ℤ}, Consistent ncpu s q →
      q.chain h = pre ++ rest → rest.length < fuel →
      ∃ s' q', sleepqWakeAllLoop h r fuel s (lastTid pre) (rest.headD (-1)) = .ok s' ∧
        Consistent ncpu s' q' ∧ WokeAll s s' q q' h r pre rest := by
  induction hn : rest.length using Nat.strong_induction_on generalizing rest with
  | _ n ih =>
    subst hn
    intro fuel s q pre hc hq hfuel
    obtain ⟨fuel, rfl⟩ : ∃ f, fuel = f + 1 := ⟨fuel - 1, by omega⟩
    have hlink := hc.stored.chain h
    have htid := hc.stored.chainTid h
    have hnodup := hc.stored.chainNodup h
    rw [hq] at hlink htid hnodup
    obtain ⟨first, -, hrest⟩ := (linked_append _ _ _ _ _).1 hlink
    have hfirst := hrest.start
    have hlen : rest.length < configMaxThreads := by
      have := length_lt_of_nodup hnodup htid
      simp only [List.length_append] at this
      omega
    have hrtid : ∀ t ∈ rest, IsTid t := fun t ht => htid t (List.mem_append.2 (Or.inr ht))
    by_cases hex : ∃ t ∈ rest, s.sleepsOn t = r
    · -- the search stops at `w`; the loop goes on behind it, one waiter shorter
      obtain ⟨w, hw⟩ : ∃ w, rest.find? (fun u => s.sleepsOn u = r) = some w := by
        rw [← Option.isSome_iff_exists, List.find?_isSome]
        obtain ⟨t, ht, htr⟩ := hex
        exact ⟨t, ht, by simpa using htr⟩
      obtain ⟨hwr, mid, post, rfl, hmid⟩ := List.find?_eq_some_iff_append.1 hw
      replace hwr : s.sleepsOn w = r := by simpa using hwr
      replace hmid : ∀ t ∈ mid, s.sleepsOn t ≠ r := fun t ht => by simpa using hmid t ht
      have hwtid : IsTid w := hrtid w (by simp)
      have hq' : q.chain h = (pre ++ mid) ++ w :: post := by rw [hq, List.append_assoc]
      obtain ⟨s1, hok, hrel, hc1⟩ := unlink_release_consistent hc hq'
      have hnext : s.next w = post.headD (-1) := by
        obtain ⟨c, -, hwp⟩ := (linked_append _ _ _ _ _).1 hrest
        exact hwp.2.start
      have hfind : sleepqFind s r configMaxThreads (lastTid pre) first
          = .ok (lastTid (pre ++ mid), w) := by
        rw [← lastTid_append]
        refine sleepqFind_hit hrest (fun t ht => hrtid t (by simp [ht])) hmid hwr ?_
        simp only [List.length_append] at hlen
        omega
      have hpos : 0 < first := by
        rw [hfirst]
        cases mid with
        | nil => exact hwtid.1
        | cons x xs => exact (hrtid x (by simp)).1
      have hchain1 : (q.released s h (pre ++ mid) post w).chain h = (pre ++ mid) ++ post := by
        simp [Queues.released]
      simp only [List.length_append, List.length_cons] at hfuel ih
      obtain ⟨s', q', hrun, hc', hall⟩ :=
        ih post.length (by omega) rfl hc1 hchain1 (show post.length < fuel by omega)
      refine ⟨s', q', ?_, hc', hall.release (List.nodup_append.1 hnodup).2.1 hmid hwr hrel⟩
      rw [← hfirst]
      unfold sleepqWakeAllLoop
      rw [if_pos hpos]
      simp only [hfind]
      show (if 0 < w then _ else _) = _
      rw [if_pos hwtid.1, hok, hnext]
      exact hrun
    · -- nobody ahead waits for `r`: the search runs to the end of the chain
      have hr : ∀ t ∈ rest, s.sleepsOn t ≠ r := fun t ht he => hex ⟨t, ht, he⟩
      refine ⟨s, q, ?_, hc, WokeAll.none hq hr⟩
      cases hrest' : rest with
      | nil => simp [sleepqWakeAllLoop]
      | cons x xs =>
          have hx : 0 < x := (hrtid x (by rw [hrest']; simp)).1
          have hfx : first = x := by rw [hfirst, hrest']; rfl
          have hfind : sleepqFind s r configMaxThreads (lastTid pre) first = .ok (_, -1) :=
            sleepqFind_miss hrest hrtid hr hlen
          rw [hfx] at hfind
          obtain ⟨fuel, rfl⟩ : ∃ f, fuel = f + 1 :=
            ⟨fuel - 1, by rw [hrest', List.length_cons] at hfuel; omega⟩
          unfold sleepqWakeAllLoop
          simp only [List.headD_cons, if_pos hx, hfind]
          rfl

/-- `sleepq_wake_all` releases every thread that waits for the resource. -/
theorem sleepqWakeAll_consistent (hc : Consistent ncpu s q) (r : ℕ) :
    ∃ s' q', sleepqWakeAll s r = .ok s' ∧ Consistent ncpu s' q' ∧
      WokeAll s s' q q' (sleepqHash r) r [] (q.chain (sleepqHash r)) := by
  have hlen := length_lt_of_nodup (hc.stored.chainNodup _) (hc.stored.chainTid (sleepqHash r))
  obtain ⟨s', q', hok, hc', hall⟩ :=
    sleepqWakeAllLoop_consistent (r := r) hc (List.nil_append _).symm hlen
  refine ⟨s', q', ?_, hc', hall⟩
  rw [← (hc.stored.chain (sleepqHash r)).start] at hok
  exact hok

/-! ## Scheduling -/

/-- The state in which the thread of `cpu` leaves its CPU. -/
def ThreadSystem.leaves (s : ThreadSystem) (cpu : ℕ) : ThreadState :=
  if s.state (s.currentThread cpu) = .dying then .free
  else if s.sleepsOn (s.currentThread cpu) ≠ 0 then .sleeping else .ready

/-- The queues after the thread of `cpu` has left its CPU. -/
def Queues.putAway (q : Queues) (s : ThreadSystem) (cpu : ℕ) : Queues :=
  { q with ready := if s.leaves cpu = .ready ∧ s.currentThread cpu ≠ idleThreadTid
      then q.ready ++ [s.currentThread cpu] else q.ready }

/-- The first half of `scheduler_schedule` leaves the CPU to the idle thread. -/
theorem schedulerPutAway_spec (hc : Consistent ncpu s q) {cpu : ℕ} (hcpu : cpu < ncpu) :
    ∃ s', schedulerPutAway s cpu = .ok s' ∧ s'.currentThread = s.currentThread ∧
      s'.sleepsOn = s.sleepsOn ∧
      s'.state = Function.update s.state (s.currentThread cpu) (s.leaves cpu) ∧
      Stored s' (q.putAway s cpu) ∧
      Rows ncpu s'.state s'.sleepsOn (Function.update s.currentThread cpu idleThreadTid)
        (q.putAway s cpu) := by
  set me := s.currentThread cpu with hme
  have hrows := hc.rows.vacate cpu
  by_cases hidle : me = idleThreadTid
  · -- the idle thread is never put on the ready list
    have hq : q.putAway s cpu = q := by simp [Queues.putAway, ← hme, hidle]
    have hzero : s.sleepsOn me = 0 := by rw [hidle]; exact hc.rows.idle
    have hstate : s.leaves cpu ≠ .sleeping ∧ s.leaves cpu ≠ .nonready := by
      simp only [ThreadSystem.leaves, ← hme, hzero]
      split <;> simp
    refine ⟨s.setState me (s.leaves cpu), ?_, rfl, by simp, by simp, ?_, ?_⟩
    · unfold schedulerPutAway ThreadSystem.leaves
      rw [hidle] at hzero hme
      simp only [← hme, hidle, hzero, ne_eq, not_true_eq_false, if_false]
      split <;> rfl
    · rw [hq]; exact hc.stored.setState _ _
    · rw [hq]
      simpa [hidle] using hrows.set_idle hstate.1 hstate.2
  · have hoff := hc.rows.vacated hcpu hidle
    rw [← hme] at hoff
    have hrange : ∀ {v : ThreadState}, s.state me = v → v ≠ .free →
        0 ≤ me ∧ me < configMaxThreads := fun h hv => hc.rows.range me (by rw [h]; exact hv)
    rcases hc.rows.current cpu hcpu hidle with hrun | hdying
    · rw [← hme] at hrun
      by_cases hsl : s.sleepsOn me = 0
      · have hleaves : s.leaves cpu = .ready := by
          simp [ThreadSystem.leaves, ← hme, hrun, hsl]
        have hq : q.putAway s cpu = { q with ready := q.ready ++ [me] } := by
          simp [Queues.putAway, ← hme, hleaves, hidle]
        have htid : IsTid me := hc.rows.isTid (by rw [hrun]; decide) hidle
        obtain ⟨s', hok, hsame, hst⟩ := schedulerAddToReadyList_spec hc.stored htid
          (hc.rows.free (by rw [hrun]; decide) hsl)
        refine ⟨s'.setState me .ready, ?_, hsame.currentThread, ?_, ?_, ?_, ?_⟩
        · simp [schedulerPutAway, ← hme, hrun, hsl, hidle, hok]
        · simp [hsame.sleepsOn]
        · simp [hsame.state, hleaves]
        · rw [hq]; exact hst.setState _ _
        · rw [hq]
          simpa [hsame.state, hsame.sleepsOn] using hrows.enqueue htid hsl hoff
      · have hleaves : s.leaves cpu = .sleeping := by
          simp [ThreadSystem.leaves, ← hme, hrun, hsl]
        have hq : q.putAway s cpu = q := by simp [Queues.putAway, hleaves]
        refine ⟨s.setState me .sleeping, ?_, rfl, by simp, by simp [hleaves], ?_, ?_⟩
        · simp [schedulerPutAway, ← hme, hrun, hsl]; rfl
        · rw [hq]; exact hc.stored.setState _ _
        · rw [hq]
          simpa using hrows.fall_asleep hrun hsl hoff
    · rw [← hme] at hdying
      have hsl : s.sleepsOn me = 0 :=
        hc.rows.not_waiting (by rw [hdying]; decide) (by rw [hdying]; decide)
      have hleaves : s.leaves cpu = .free := by simp [ThreadSystem.leaves, ← hme, hdying]
      have hq : q.putAway s cpu = q := by simp [Queues.putAway, hleaves]
      refine ⟨s.setState me .free, ?_, rfl, by simp, by simp [hleaves], ?_, ?_⟩
      · simp [schedulerPutAway, ← hme, hdying]; rfl
      · rw [hq]; exact hc.stored.setState _ _
      · rw [hq]
        simpa using hrows.set_state (v := .free) (hrange hdying (by decide)) (by decide)
          (by decide) (Or.inl (by rw [hdying]; decide)) hsl nofun
          (Or.inr (Or.inr (fun c hcp => Or.inl (hoff c hcp))))

/-- `scheduler_schedule` selects the first thread of the ready list the old thread has joined, or the
    idle thread if that list is empty. -/
theorem schedulerSchedule_consistent (hc : Consistent ncpu s q) {cpu : ℕ} (hcpu : cpu < ncpu) :
    ∃ s', schedulerSchedule s cpu = .ok s' ∧
      s'.currentThread = Function.update s.currentThread cpu
        ((q.putAway s cpu).ready.headD idleThreadTid) ∧
      s'.sleepsOn = s.sleepsOn ∧
      s'.state = Function.update
        (Function.update s.state (s.currentThread cpu) (s.leaves cpu))
        ((q.putAway s cpu).ready.headD idleThreadTid) .running ∧
      Consistent ncpu s' { q with ready := (q.putAway s cpu).ready.tail } := by
  obtain ⟨s1, hok, hcur, hsleeps, hstate, hst, hrows⟩ := schedulerPutAway_spec hc hcpu
  have hchain : (q.putAway s cpu).chain = q.chain := rfl
  cases hq : (q.putAway s cpu).ready with
  | nil =>
      have hrem := schedulerRemoveFirstReady_nil hst hq
      have heq : ({ q with ready := [] } : Queues) = q.putAway s cpu := by
        rw [← hq, ← hchain]
      refine ⟨(s1.setState idleThreadTid .running).setCurrentThread cpu idleThreadTid,
        ?_, ?_, ?_, ?_, ?_, ?_⟩
      · simp only [schedulerSchedule, hok]
        show (schedulerRemoveFirstReady s1 >>= _) = _
        rw [hrem]
        rfl
      · simp [hcur]
      · simp [hsleeps]
      · simp [hstate]
      · simp only [List.tail_nil, heq]
        exact (hst.setState _ _).congr (fun _ _ => rfl) rfl rfl rfl
      · simp only [List.tail_nil, heq]
        simpa [hcur] using hrows.set_idle (v := .running) (by decide) (by decide)
  | cons t rest =>
      have htr := (hrows.mem_ready t).1 (by rw [hq]; simp)
      obtain ⟨s2, hrem, hsame, hst2⟩ := schedulerRemoveFirstReady_cons hst hq htr.2
      refine ⟨(s2.setState t .running).setCurrentThread cpu t, ?_, ?_, ?_, ?_, ?_, ?_⟩
      · simp only [schedulerSchedule, hok]
        show (schedulerRemoveFirstReady s1 >>= _) = _
        rw [hrem]
        rfl
      · simp [hsame.currentThread, hcur]
      · simp [hsame.sleepsOn, hsleeps]
      · simp [hsame.state, hstate]
      · exact (hst2.setState _ _).congr (fun _ _ => rfl) rfl rfl rfl
      · have hnodup := hst.readyNodup
        have := hrows.dispatch (c := cpu) hq hnodup
        simpa [hsame.state, hsame.sleepsOn, hsame.currentThread, hcur, hchain] using this

end

/-! ## Whole runs -/

/-- One step: from a consistent state every step that may be taken succeeds, and what it leads to is
    consistent. -/
theorem ThreadOp.exec_consistent {ncpu : ℕ} {s : ThreadSystem} {q : Queues}
    (hc : Consistent ncpu s q) (op : ThreadOp) (hen : op.Enabled ncpu s) :
    ∃ s' q', op.exec s = .ok s' ∧ Consistent ncpu s' q' := by
  cases op with
  | create => exact ⟨_, q, rfl, threadCreate_consistent hc⟩
  | run t =>
      have hnew : s.state t = .nonready := hen
      have hne : t ≠ idleThreadTid := fun he => hc.rows.idle_old (he ▸ hnew)
      obtain ⟨s', hok, -, -, -, hc'⟩ := threadRun_consistent hc hnew hne
      exact ⟨s', _, hok, hc'⟩
  | sleep cpu r =>
      obtain ⟨-, hne, hrun, hsl, h0, hr⟩ := hen
      obtain ⟨s', hok, -, -, -, hc'⟩ := sleepqAdd_consistent hc hne hrun hsl h0 hr
      exact ⟨s', _, hok, hc'⟩
  | wake r =>
      by_cases hr : ∃ t, s.sleepsOn t = r ∧ r ≠ 0
      · obtain ⟨t, ht, h0⟩ := hr
        obtain ⟨pre, w, post, hq, hpre, hw⟩ := exists_first_waiter hc h0 ⟨t, ht⟩
        obtain ⟨s', hok, -, hc'⟩ := sleepqWake_some hc hq hpre hw
        exact ⟨s', _, hok, hc'⟩
      · refine ⟨s, q, sleepqWake_none hc (fun t ht => ?_), hc⟩
        by_contra h0
        exact hr ⟨t, ht, h0⟩
  | wakeAll r =>
      obtain ⟨s', q', hok, hc', -⟩ := sleepqWakeAll_consistent hc r
      exact ⟨s', q', hok, hc'⟩
  | schedule cpu =>
      obtain ⟨s', hok, -, -, -, hc'⟩ := schedulerSchedule_consistent hc hen
      exact ⟨s', _, hok, hc'⟩
  | finish cpu => exact ⟨_, q, rfl, threadFinish_consistent hc hen.2.1 hen.2.2⟩

/-- Every reachable state is consistent. -/
theorem reachable_consistent {ncpu : ℕ} {s : ThreadSystem} (h : ThreadReachable ncpu s) :
    ∃ q, Consistent ncpu s q := by
  refine Reach.invariant (I := fun s => ∃ q, Consistent ncpu s q) ?_ ?_ h
  · rintro s rfl
    exact ⟨_, threadTableInit_consistent ncpu⟩
  · rintro s op s' ⟨q, hc⟩ ⟨hen, hok⟩
    obtain ⟨s'', q', hok', hc'⟩ := op.exec_consistent hc hen
    rw [hok] at hok'
    cases hok'
    exact ⟨q', hc'⟩

/-- The invariant of the queues as one reads it off the tables: `ready` is the ready list, `chain h`
    the chain of slot `h` of the sleep queue. -/
structure QueueInvariant (ncpu : ℕ) (s : ThreadSystem) (ready : List ℤ) (chain : ℕ → List ℤ) :
    Prop where
  ready_linked : Linked s.next s.readyHead ready (-1)
  ready_nodup : ready.Nodup
  ready_tail : ∀ hne : ready ≠ [], s.readyTail = ready.getLast hne ∧ s.next s.readyTail = -1
  head_neg_iff : s.readyHead < 0 ↔ s.readyTail < 0
  mem_ready : ∀ t, t ∈ ready ↔ t ≠ idleThreadTid ∧ s.state t = .ready
  chain_linked : ∀ h < sleepqHashtableSize, Linked s.next (s.sleepqHashtable h) (chain h) (-1)
  chain_nodup : ∀ h < sleepqHashtableSize, (chain h).Nodup
  mem_chain : ∀ h < sleepqHashtableSize, ∀ t,
    t ∈ chain h ↔ s.sleepsOn t ≠ 0 ∧ sleepqHash (s.sleepsOn t) = h
  ready_chain : ∀ h, ∀ t ∈ ready, t ∉ chain h
  chain_chain : ∀ h h', ∀ t ∈ chain h, t ∈ chain h' → h = h'
  in_table : ∀ t, t ∈ ready ∨ (∃ h, t ∈ chain h) → 0 < t ∧ t < configMaxThreads
  sleeping : ∀ t, s.state t = .sleeping → s.sleepsOn t ≠ 0
  /-- No assertion fails and no loop runs for ever in any step that can be taken. -/
  no_fault : ∀ op : ThreadOp, op.Enabled ncpu s → ∃ s', op.exec s = .ok s'

/-- **The queues over whole runs.** On any number of CPUs and after any interleaving of thread
    creations, starts, exits, sleeps, wake-ups and schedules, the ready list and the chains of the
    sleep queue are well formed, contain exactly the threads they should, and no kernel assertion can
    fail in the next step. -/
theorem threadReachable_queueInvariant {ncpu : ℕ} {s : ThreadSystem}
    (h : ThreadReachable ncpu s) : ∃ ready chain, QueueInvariant ncpu s ready chain := by
  obtain ⟨q, hc⟩ := reachable_consistent h
  have hhead := hc.stored.ready.start
  refine ⟨q.ready, q.chain, ?_⟩
  refine
    { ready_linked := hc.stored.ready
      ready_nodup := hc.stored.readyNodup
      ready_tail := fun hne => ?_
      head_neg_iff := ?_
      mem_ready := hc.rows.mem_ready
      chain_linked := fun h _ => hc.stored.chain h
      chain_nodup := fun h _ => hc.stored.chainNodup h
      mem_chain := fun h _ => hc.rows.mem_chain h
      ready_chain := hc.stored.ready_chain
      chain_chain := hc.stored.chain_chain
      in_table := fun t ht => ?_
      sleeping := hc.rows.sleeping
      no_fault := fun op hen => ?_ }
  · obtain ⟨l, p, hlp⟩ := (List.eq_nil_or_concat q.ready).resolve_left hne
    rw [List.concat_eq_append] at hlp
    have htail : s.readyTail = p := by rw [hc.stored.tail, hlp, lastTid_concat]
    have hlink := hc.stored.ready
    rw [hlp, linked_concat] at hlink
    exact ⟨by simp [htail, hlp], by rw [htail]; exact hlink.2⟩
  · rw [hc.stored.tail, lastTid_neg_iff hc.stored.readyTid, hhead]
    cases hq : q.ready with
    | nil => simp
    | cons x xs =>
        have := (hc.stored.readyTid x (by rw [hq]; simp)).1
        simp only [List.headD_cons, List.cons_ne_nil, iff_false]
        omega
  · rcases ht with ht | ⟨i, ht⟩
    · exact hc.stored.readyTid t ht
    · exact hc.stored.chainTid i t ht
  · obtain ⟨s', -, hok, -⟩ := op.exec_consistent hc hen
    exact ⟨s', hok⟩

instance (ncpu : ℕ) (s : ThreadSystem) : (op : ThreadOp) → Decidable (op.Enabled ncpu s)
  | .create | .wake _ | .wakeAll _ => inferInstanceAs (Decidable True)
  | .run _ => inferInstanceAs (Decidable (_ = _))
  | .sleep _ _ => inferInstanceAs (Decidable (_ ∧ _ ∧ _ ∧ _ ∧ _ ∧ _))
  | .schedule _ => inferInstanceAs (Decidable (_ < _))
  | .finish _ => inferInstanceAs (Decidable (_ ∧ _ ∧ _))

/-- Take the steps of a list, each of which must be possible. -/
def runThreadOps (ncpu : ℕ) : ThreadSystem → List ThreadOp → Option ThreadSystem :=
  runOps (fun s op => if op.Enabled ncpu s then (op.exec s).toOption else none)

theorem reachable_of_runThreadOps {ncpu : ℕ} {ops : List ThreadOp} {s : ThreadSystem}
    (hrun : runThreadOps ncpu threadTableInit ops = some s) : ThreadReachable ncpu s := by
  have hstart : Run (· = threadTableInit) (threadStep ncpu) [] threadTableInit := .nil rfl
  refine (hstart.append_runOps _ (fun s op s' hop => ?_) hrun).reach
  split at hop
  · next hen => exact ⟨hen, eq_ok_of_toOption hop⟩
  · cases hop

/-- Two threads on two CPUs; the first is woken between its `sleepq_add` and its switch, the second
    falls asleep. -/
def twoThreadRun : List ThreadOp :=
  [.create, .run 1, .create, .run 2, .schedule 0, .schedule 1, .sleep 0 4096, .wake 4096,
   .schedule 0, .sleep 1 4223, .schedule 1]

theorem threadReachable_queueInvariant_twoThreadRun :
    ∃ s, runThreadOps 2 threadTableInit twoThreadRun = some s ∧ s.state 2 = .sleeping ∧
      ∃ ready chain, QueueInvariant 2 s ready chain := by
  cases hrun : runThreadOps 2 threadTableInit twoThreadRun with
  | none =>
      have hsome : (runThreadOps 2 threadTableInit twoThreadRun).isSome = true := by decide
      rw [hrun] at hsome
      cases hsome
  | some s =>
      have hstate : (runThreadOps 2 threadTableInit twoThreadRun).map (·.state 2)
          = some .sleeping := by decide
      rw [hrun] at hstate
      exact ⟨s, rfl, by simpa using hstate,
        threadReachable_queueInvariant (reachable_of_runThreadOps hrun)⟩

end Kudos
