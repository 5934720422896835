import Kudos.Kernel.ThreadInvariant
import Mathlib.Data.List.Dedup

set_option autoImplicit false

/-! # The order in which threads are served

Both queues of the thread system are first come, first served. `ThreadOp.exec_effect` says once what
a step does to the queues: a schedule takes one thread off the front of the ready list, everything
else only appends to it; a sleep appends to one chain of the sleep queue, everything else only takes
threads out of the chains. The order of the wake-ups and the order of the dispatches over whole runs
follow from it. -/

namespace Kudos

open Chain ThreadSystem Transition

/-- The threads that wait for `r`, in the order of the chain. -/
def waiters (s : ThreadSystem) (q : Queues) (r : ℕ) : List ℤ :=
  (q.chain (sleepqHash r)).filter (fun t => s.sleepsOn t = r)

section

variable {ncpu : ℕ} {s : ThreadSystem} {q : Queues}

theorem Consistent.mem_waiters (hc : Consistent ncpu s q) {r : ℕ} (h0 : r ≠ 0) (t : ℤ) :
    t ∈ waiters s q r ↔ s.sleepsOn t = r := by
  simp only [waiters, List.mem_filter, decide_eq_true_eq, hc.rows.mem_chain]
  constructor
  · exact fun h => h.2
  · rintro rfl
    exact ⟨⟨h0, rfl⟩, rfl⟩

/-! ## Releasing threads -/

/-- The threads `ws`, and no others, are released: they leave their chains and wait for nothing, and
    those of them that sleep become ready and join the ready list in the order of `ws`. -/
structure Releases (s s' : ThreadSystem) (q q' : Queues) (ws : List ℤ) : Prop where
  currentThread : s'.currentThread = s.currentThread
  sleepsOn : ∀ t, s'.sleepsOn t = if t ∈ ws then 0 else s.sleepsOn t
  state : ∀ t, s'.state t = if t ∈ ws ∧ s.state t = .sleeping then .ready else s.state t
  chain : ∀ h, q'.chain h = (q.chain h).filter (fun t => t ∉ ws)
  ready : q'.ready = q.ready ++ ws.filter (fun t => s.state t = .sleeping)

theorem Releases.nil (s : ThreadSystem) (q : Queues) : Releases s s q q [] where
  currentThread := rfl
  sleepsOn t := by simp
  state t := by simp
  chain h := by simp
  ready := by simp

/-- `sleepq_wake` releases the first of the threads that wait for the resource. -/
theorem sleepqWake_releases (hc : Consistent ncpu s q) {r : ℕ} (h0 : r ≠ 0) :
    ∃ s' q', sleepqWake s r = .ok s' ∧ Consistent ncpu s' q' ∧
      Releases s s' q q' ((waiters s q r).take 1) := by
  by_cases hex : ∃ t, s.sleepsOn t = r
  · obtain ⟨pre, w, post, hq, hpre, hw⟩ := exists_first_waiter hc h0 hex
    obtain ⟨s', hok, hrel, hc'⟩ := sleepqWake_some hc hq hpre hw
    have hwaiters : (waiters s q r).take 1 = [w] := by
      have hnone : pre.filter (fun t => s.sleepsOn t = r) = [] :=
        List.filter_eq_nil_iff.2 (fun t ht => by simpa using hpre t ht)
      rw [waiters, hq, List.filter_append, hnone, List.filter_cons_of_pos (by simpa using hw)]
      rfl
    have hnodup := hc.stored.chainNodup (sleepqHash r)
    have hwchain : w ∈ q.chain (sleepqHash r) := by rw [hq]; simp
    refine ⟨s', _, hok, hc', ?_⟩
    rw [hwaiters]
    refine ⟨hrel.currentThread, fun t => ?_, fun t => ?_, fun h => ?_, ?_⟩
    · rw [hrel.sleepsOn]
      by_cases ht : t = w
      · simp [ht]
      · simp [ht]
    · rw [hrel.state]
      by_cases hsl : s.state w = .sleeping
      · by_cases ht : t = w
        · simp [ht, hsl]
        · simp [ht, hsl]
      · by_cases ht : t = w
        · simp [ht, hsl]
        · simp [ht, hsl]
    · by_cases hh : h = sleepqHash r
      · subst hh
        rw [hq] at hnodup ⊢
        have hwn := List.nodup_cons.1 (List.nodup_middle.1 hnodup)
        have hsame : ∀ t ∈ pre ++ post, decide (t ∉ [w]) = true := by
          intro t ht
          have htw : t ≠ w := fun he => hwn.1 (he ▸ ht)
          simpa using htw
        rw [List.filter_append, List.filter_cons_of_neg (by simp), ← List.filter_append,
          List.filter_eq_self.2 hsame]
        simp [Queues.released]
      · have hnot : ∀ t ∈ q.chain h, decide (t ∉ [w]) = true := by
          intro t ht
          have htw : t ≠ w := fun he =>
            hh (hc.stored.chain_chain h (sleepqHash r) t ht (he ▸ hwchain))
          simpa using htw
        rw [List.filter_eq_self.2 hnot]
        simp [Queues.released, hh]
    · by_cases hsl : s.state w = .sleeping <;> simp [Queues.released, hsl]
  · have hnone : (waiters s q r).take 1 = [] := by
      have hnil : waiters s q r = [] := by
        rw [List.eq_nil_iff_forall_not_mem]
        exact fun t ht => hex ⟨t, (hc.mem_waiters h0 t).1 ht⟩
      rw [hnil]
      rfl
    refine ⟨s, q, sleepqWake_none hc (fun t ht => absurd ⟨t, ht⟩ hex), hc, ?_⟩
    rw [hnone]
    exact Releases.nil s q

/-- `sleepq_wake_all` releases all threads that wait for the resource. -/
theorem sleepqWakeAll_releases (hc : Consistent ncpu s q) (r : ℕ) :
    ∃ s' q', sleepqWakeAll s r = .ok s' ∧ Consistent ncpu s' q' ∧
      Releases s s' q q' (waiters s q r) := by
  obtain ⟨s', q', hok, hc', hall⟩ := sleepqWakeAll_consistent hc r
  have hmem : ∀ t, t ∈ waiters s q r ↔ t ∈ q.chain (sleepqHash r) ∧ s.sleepsOn t = r := by
    intro t
    simp [waiters]
  refine ⟨s', q', hok, hc', hall.currentThread, fun t => ?_, fun t => ?_, fun h => ?_, ?_⟩
  · rw [hall.sleepsOn]
    simp only [hmem]
  · rw [hall.state]
    simp only [hmem, and_assoc]
  · rw [hall.chain]
    by_cases hh : h = sleepqHash r
    · subst hh
      rw [Function.update_self, List.nil_append]
      exact List.filter_congr (fun t ht => by simp [hmem, ht])
    · rw [Function.update_of_ne hh]
      refine (List.filter_eq_self.2 (fun t ht => ?_)).symm
      have hnot : t ∉ q.chain (sleepqHash r) := fun hm => hh (hc.stored.chain_chain _ _ t ht hm)
      simp [hmem, hnot]
  · rw [hall.ready, waiters, List.filter_filter]
    congr 1
    exact List.filter_congr (fun t _ => by simp [Bool.and_comm])

/-! ## What a step does to the queues -/

/-- Whether a step is a call of `scheduler_schedule`, as a number. -/
def ThreadOp.schedules : ThreadOp → ℕ
  | .schedule _ => 1
  | _ => 0

/-- The effect of a step on the queues. -/
structure QueueEffect (op : ThreadOp) (s s' : ThreadSystem) (q q' : Queues) : Prop where
  ready : ∃ added, q'.ready = (q.ready ++ added).drop op.schedules
  chain : (∃ cpu r, op = .sleep cpu r ∧
      s'.sleepsOn = Function.update s.sleepsOn (s.currentThread cpu) r ∧
      q' = q.setChain (sleepqHash r) (q.chain (sleepqHash r) ++ [s.currentThread cpu])) ∨
    ((∀ cpu r, op ≠ .sleep cpu r) ∧
      (∀ t, s'.sleepsOn t = s.sleepsOn t ∨ s'.sleepsOn t = 0) ∧
      ∀ h, q'.chain h = (q.chain h).filter (fun t => s'.sleepsOn t ≠ 0))

/-- A step that leaves the sleep queue alone. -/
theorem QueueEffect.of_same {op : ThreadOp} {s' : ThreadSystem} {q' : Queues} (added : List ℤ)
    (hc : Consistent ncpu s q) (hop : ∀ cpu r, op ≠ .sleep cpu r)
    (hready : q'.ready = (q.ready ++ added).drop op.schedules) (hchain : q'.chain = q.chain)
    (hsleeps : s'.sleepsOn = s.sleepsOn) : QueueEffect op s s' q q' where
  ready := ⟨added, hready⟩
  chain := by
    refine Or.inr ⟨hop, fun t => Or.inl (by rw [hsleeps]), fun h => ?_⟩
    rw [hchain, hsleeps]
    refine (List.filter_eq_self.2 (fun t ht => ?_)).symm
    simpa using ((hc.rows.mem_chain h t).1 ht).1

/-- A step that releases threads. -/
theorem QueueEffect.of_releases {op : ThreadOp} {s' : ThreadSystem} {q' : Queues} {ws : List ℤ}
    (hc : Consistent ncpu s q) (hop : ∀ cpu r, op ≠ .sleep cpu r) (hnone : op.schedules = 0)
    (hrel : Releases s s' q q' ws) : QueueEffect op s s' q q' where
  ready := ⟨_, by rw [hnone, List.drop_zero]; exact hrel.ready⟩
  chain := by
    refine Or.inr ⟨hop, fun t => ?_, fun h => ?_⟩
    · rw [hrel.sleepsOn]
      split
      · exact Or.inr rfl
      · exact Or.inl rfl
    · rw [hrel.chain]
      refine List.filter_congr (fun t ht => ?_)
      rw [hrel.sleepsOn]
      have := ((hc.rows.mem_chain h t).1 ht).1
      by_cases hw : t ∈ ws
      · simp [hw]
      · simp [hw, this]

/-- Putting a thread away can only append it to the ready list. -/
theorem Queues.ready_prefix_putAway (q : Queues) (s : ThreadSystem) (cpu : ℕ) :
    ∃ added, (q.putAway s cpu).ready = q.ready ++ added := by
  by_cases hback : s.leaves cpu = .ready ∧ s.currentThread cpu ≠ idleThreadTid
  · exact ⟨[s.currentThread cpu], by simp only [Queues.putAway, if_pos hback]⟩
  · exact ⟨[], by simp only [Queues.putAway, if_neg hback, List.append_nil]⟩

/-- One step: it succeeds, keeps the invariant, and has the effect above. -/
theorem ThreadOp.exec_effect (hc : Consistent ncpu s q) (op : ThreadOp) (hen : op.Enabled ncpu s) :
    ∃ s' q', op.exec s = .ok s' ∧ Consistent ncpu s' q' ∧ QueueEffect op s s' q q' := by
  cases op with
  | create =>
      exact ⟨_, q, rfl, threadCreate_consistent hc, .of_same [] hc (by simp)
        (by simp [ThreadOp.schedules]) rfl (threadCreate_sleepsOn hc)⟩
  | run t =>
      have hnew : s.state t = .nonready := hen
      have hne : t ≠ idleThreadTid := fun he => hc.rows.idle_old (he ▸ hnew)
      obtain ⟨s', hok, -, hsleeps, -, hc'⟩ := threadRun_consistent hc hnew hne
      exact ⟨s', _, hok, hc', .of_same [t] hc (by simp)
        (by simp [ThreadOp.schedules]) rfl hsleeps⟩
  | sleep cpu r =>
      obtain ⟨-, hne, hrun, hsl, h0, hr⟩ := hen
      obtain ⟨s', hok, -, -, hsleeps, hc'⟩ := sleepqAdd_consistent hc hne hrun hsl h0 hr
      refine ⟨s', _, hok, hc', ⟨[], by simp [ThreadOp.schedules]⟩, ?_⟩
      exact Or.inl ⟨cpu, r, rfl, hsleeps, rfl⟩
  | wake r =>
      by_cases h0 : r = 0
      · refine ⟨s, q, sleepqWake_none hc (fun _ _ => h0), hc, ?_⟩
        exact .of_same [] hc (by simp) (by simp [ThreadOp.schedules]) rfl rfl
      · obtain ⟨s', q', hok, hc', hrel⟩ := sleepqWake_releases hc h0
        exact ⟨s', q', hok, hc', .of_releases hc (by simp) rfl hrel⟩
  | wakeAll r =>
      obtain ⟨s', q', hok, hc', hrel⟩ := sleepqWakeAll_releases hc r
      exact ⟨s', q', hok, hc', .of_releases hc (by simp) rfl hrel⟩
  | schedule cpu =>
      obtain ⟨s', hok, -, hsleeps, -, hc'⟩ := schedulerSchedule_consistent hc hen
      obtain ⟨added, hadded⟩ := q.ready_prefix_putAway s cpu
      refine ⟨s', _, hok, hc', .of_same added hc (by simp) ?_ rfl hsleeps⟩
      rw [← hadded, ThreadOp.schedules, List.drop_one]
  | finish cpu =>
      refine ⟨_, q, rfl, threadFinish_consistent hc hen.2.1 hen.2.2, ?_⟩
      exact .of_same [] hc (by simp) (by simp [ThreadOp.schedules]) rfl
        (by simp [threadFinish])

/-- The same for a step that is known to have been taken. -/
theorem threadStep.effect {s' : ThreadSystem} {op : ThreadOp} (hc : Consistent ncpu s q)
    (hstep : threadStep ncpu s op s') :
    ∃ q', Consistent ncpu s' q' ∧ QueueEffect op s s' q q' := by
  obtain ⟨s'', q', hok, hc', heff⟩ := op.exec_effect hc hstep.1
  have : s' = s'' := by
    have h := hstep.2
    rw [hok] at h
    cases h
    rfl
  subst this
  exact ⟨q', hc', heff⟩

end

/-! ## Wake-ups are first come, first served -/

/-- The thread system with the log of the calls of `sleepq_add` so far: who called, and for what. -/
structure LoggedSystem where
  sys : ThreadSystem
  calls : List (ℤ × ℕ)

/-- What a step adds to the log. -/
def ThreadOp.call (s : ThreadSystem) : ThreadOp → List (ℤ × ℕ)
  | .sleep cpu r => [(s.currentThread cpu, r)]
  | _ => []

def loggedStep (ncpu : ℕ) (a : LoggedSystem) (op : ThreadOp) (b : LoggedSystem) : Prop :=
  threadStep ncpu a.sys op b.sys ∧ b.calls = a.calls ++ op.call a.sys

/-- The states of the thread system with the calls that led there. -/
def LoggedReachable (ncpu : ℕ) (a : LoggedSystem) : Prop :=
  Reach (· = ⟨threadTableInit, []⟩) (loggedStep ncpu) a

/-- The callers of `sleepq_add(r)`, each at its last call, in the order of these calls. -/
def callers (calls : List (ℤ × ℕ)) (r : ℕ) : List ℤ :=
  ((calls.filter (fun c => c.2 = r)).map Prod.fst).dedup

/-- A further call moves its caller to the end. -/
theorem dedup_concat (l : List ℤ) (t : ℤ) :
    (l ++ [t]).dedup = l.dedup.filter (fun u => u ≠ t) ++ [t] := by
  induction l with
  | nil => simp
  | cons x xs ih =>
      rw [List.cons_append]
      by_cases hx : x ∈ xs
      · rw [List.dedup_cons_of_mem (List.mem_append.2 (Or.inl hx)), ih,
          List.dedup_cons_of_mem hx]
      · by_cases hxt : x = t
        · rw [List.dedup_cons_of_mem (by simp [hxt]), ih, List.dedup_cons_of_notMem hx,
            List.filter_cons_of_neg (by simp [hxt])]
        · rw [List.dedup_cons_of_notMem (by simp [hx, hxt]), ih, List.dedup_cons_of_notMem hx,
            List.filter_cons_of_pos (by simp [hxt]), List.cons_append]

/-- The waiting order agrees with the log. -/
def InCallOrder (a : LoggedSystem) (q : Queues) : Prop :=
  ∀ r ≠ 0, waiters a.sys q r = (callers a.calls r).filter (fun t => a.sys.sleepsOn t = r)

theorem callers_concat (calls : List (ℤ × ℕ)) (t : ℤ) (r : ℕ) :
    callers (calls ++ [(t, r)]) r = (callers calls r).filter (fun u => u ≠ t) ++ [t] := by
  simp [callers, dedup_concat]

theorem callers_concat_of_ne (calls : List (ℤ × ℕ)) (t : ℤ) {r r' : ℕ} (h : r' ≠ r) :
    callers (calls ++ [(t, r')]) r = callers calls r := by
  simp [callers, h]

/-- One step keeps the waiting order: a new waiter is the last caller, and a release only takes
    threads away. -/
theorem InCallOrder.step {ncpu : ℕ} {a b : LoggedSystem} {op : ThreadOp} {q q' : Queues}
    (hc : Consistent ncpu a.sys q) (hord : InCallOrder a q) (hen : op.Enabled ncpu a.sys)
    (hcalls : b.calls = a.calls ++ op.call a.sys)
    (heff : QueueEffect op a.sys b.sys q q') : InCallOrder b q' := by
  intro r h0
  have hord := hord r h0
  rcases heff.chain with ⟨cpu, r', rfl, hsleeps, rfl⟩ | ⟨hop, hsleeps, hchain⟩
  · obtain ⟨-, -, -, hsl, -, -⟩ := hen
    simp only [ThreadOp.call] at hcalls
    rw [hcalls]
    generalize a.sys.currentThread cpu = me at *
    have hold : ∀ t, t ≠ me → b.sys.sleepsOn t = a.sys.sleepsOn t := by
      intro t ht
      rw [hsleeps, Function.update_of_ne ht]
    have hnew : b.sys.sleepsOn me = r' := by rw [hsleeps, Function.update_self]
    have hbefore : a.sys.sleepsOn me ≠ r := by
      rw [hsl]
      exact h0.symm
    -- the caller waited for nothing, so it is on no chain yet
    have hsame : (q.chain (sleepqHash r)).filter (fun t => b.sys.sleepsOn t = r)
        = waiters a.sys q r := by
      refine List.filter_congr (fun t ht => ?_)
      have htme : t ≠ me := fun he => ((hc.rows.mem_chain _ t).1 ht).1 (he ▸ hsl)
      rw [hold t htme]
    by_cases hr : r' = r
    · subst hr
      have hrest : ((callers a.calls r').filter (fun u => u ≠ me)).filter
          (fun t => b.sys.sleepsOn t = r')
          = (callers a.calls r').filter (fun t => a.sys.sleepsOn t = r') := by
        rw [List.filter_filter]
        refine List.filter_congr (fun t _ => ?_)
        by_cases ht : t = me
        · simp [ht, hbefore]
        · simp [ht, hold t ht]
      have hme : [me].filter (fun t => b.sys.sleepsOn t = r') = [me] := by simp [hnew]
      rw [callers_concat, List.filter_append, hrest, hme, ← hord, ← hsame]
      simp [waiters, hnew]
    · have hrest : (callers a.calls r).filter (fun t => b.sys.sleepsOn t = r)
          = (callers a.calls r).filter (fun t => a.sys.sleepsOn t = r) := by
        refine List.filter_congr (fun t _ => ?_)
        by_cases ht : t = me
        · simp [ht, hbefore, hnew, hr]
        · simp [hold t ht]
      rw [callers_concat_of_ne _ _ hr, hrest, ← hord, ← hsame]
      by_cases hh : sleepqHash r = sleepqHash r'
      · simp [waiters, hh, hnew, hr]
      · simp [waiters, hh]
  · have hnone : op.call a.sys = [] := by
      cases op with
      | sleep cpu r => exact absurd rfl (hop cpu r)
      | _ => rfl
    have hkeep : ∀ t, b.sys.sleepsOn t = r → a.sys.sleepsOn t = r := by
      intro t ht
      rcases hsleeps t with h | h
      · rw [← h]
        exact ht
      · exact absurd (h.symm.trans ht) h0.symm
    -- both sides lose the threads that no longer wait for `r`
    have hlose : ∀ l : List ℤ, l.filter (fun t => b.sys.sleepsOn t = r)
        = (l.filter (fun t => a.sys.sleepsOn t = r)).filter (fun t => b.sys.sleepsOn t = r) := by
      intro l
      rw [List.filter_filter]
      refine List.filter_congr (fun t _ => ?_)
      by_cases ht : b.sys.sleepsOn t = r
      · simp [ht, hkeep t ht]
      · simp [ht]
    have hchainr : waiters b.sys q' r
        = (q.chain (sleepqHash r)).filter (fun t => b.sys.sleepsOn t = r) := by
      rw [waiters, hchain, List.filter_filter]
      refine List.filter_congr (fun t _ => ?_)
      by_cases ht : b.sys.sleepsOn t = r
      · simp [ht, h0]
      · simp [ht]
    rw [hcalls, hnone, List.append_nil, hchainr, hlose (callers a.calls r), ← hord]
    exact hlose _

/-- The waiting order agrees with the log in every reachable state. -/
theorem loggedReachable_inCallOrder {ncpu : ℕ} {a : LoggedSystem} (h : LoggedReachable ncpu a) :
    ∃ q, Consistent ncpu a.sys q ∧ InCallOrder a q := by
  refine Reach.invariant (I := fun a => ∃ q, Consistent ncpu a.sys q ∧ InCallOrder a q) ?_ ?_ h
  · rintro a rfl
    exact ⟨_, threadTableInit_consistent ncpu, fun r _ => rfl⟩
  · rintro a op b ⟨q, hc, hord⟩ ⟨hstep, hcalls⟩
    obtain ⟨q', hc', heff⟩ := threadStep.effect hc hstep
    exact ⟨q', hc', hord.step hc hstep.1 hcalls heff⟩

/-- **Wake-ups are first come, first served.** In every reachable state and for every resource the
    threads that wait for it stand in their chain in the order of their calls of `sleepq_add`.
    `sleepq_wake` releases exactly the first of them, `sleepq_wake_all` all of them in this order, and
    neither moves any other thread. -/
theorem wakeUps_firstComeFirstServed {ncpu : ℕ} {a : LoggedSystem} (h : LoggedReachable ncpu a) :
    ∃ q, Consistent ncpu a.sys q ∧ ∀ r ≠ 0,
      (∀ t, t ∈ waiters a.sys q r ↔ a.sys.sleepsOn t = r) ∧
      waiters a.sys q r = (callers a.calls r).filter (fun t => a.sys.sleepsOn t = r) ∧
      (∃ s' q', sleepqWake a.sys r = .ok s' ∧ Consistent ncpu s' q' ∧
        Releases a.sys s' q q' ((waiters a.sys q r).take 1)) ∧
      ∃ s' q', sleepqWakeAll a.sys r = .ok s' ∧ Consistent ncpu s' q' ∧
        Releases a.sys s' q q' (waiters a.sys q r) := by
  obtain ⟨q, hc, hord⟩ := loggedReachable_inCallOrder h
  refine ⟨q, hc, fun r h0 => ⟨hc.mem_waiters h0, hord r h0, ?_, ?_⟩⟩
  · exact sleepqWake_releases hc h0
  · exact sleepqWakeAll_releases hc r

/-- Every state of the thread system is reached with some log. -/
theorem ThreadReachable.logged {ncpu : ℕ} {s : ThreadSystem} (h : ThreadReachable ncpu s) :
    ∃ calls, LoggedReachable ncpu ⟨s, calls⟩ := by
  induction h with
  | init hi =>
      subst hi
      exact ⟨[], .init rfl⟩
  | step op _ hstep ih =>
      obtain ⟨calls, hcalls⟩ := ih
      exact ⟨_, .step op hcalls ⟨hstep, rfl⟩⟩

/-- Three threads asleep on one CPU: 1 and 3 wait for 4096, between them 2 for 4223, which has the
    same slot. -/
def threeSleepers : ThreadSystem :=
  (runThreadOps 1 threadTableInit
    [.create, .run 1, .create, .run 2, .create, .run 3, .schedule 0, .sleep 0 4096, .schedule 0,
     .sleep 0 4223, .schedule 0, .sleep 0 4096, .schedule 0]).get (by decide +kernel)

theorem threeSleepers_reachable : ThreadReachable 1 threeSleepers :=
  reachable_of_runThreadOps (Option.some_get _).symm

theorem wakeUps_firstComeFirstServed_threeSleepers :
    ∃ calls q, (∀ t, t ∈ waiters threeSleepers q 4096 ↔ threeSleepers.sleepsOn t = 4096) ∧
      waiters threeSleepers q 4096
        = (callers calls 4096).filter (fun t => threeSleepers.sleepsOn t = 4096) ∧
      ∃ s' q', sleepqWake threeSleepers 4096 = .ok s' ∧
        Releases threeSleepers s' q q' ((waiters threeSleepers q 4096).take 1) := by
  obtain ⟨calls, hcalls⟩ := threeSleepers_reachable.logged
  obtain ⟨q, -, hq⟩ := wakeUps_firstComeFirstServed hcalls
  obtain ⟨hmem, hord, ⟨s', q', hok, -, hrel⟩, -⟩ := hq 4096 (by decide)
  exact ⟨calls, q, hmem, hord, s', q', hok, hrel⟩

/-- The field `sleeps_on` never holds more than its 32 bits. -/
theorem reachable_sleepsOn_lt {ncpu : ℕ} {s : ThreadSystem} (h : ThreadReachable ncpu s) :
    ∀ t, s.sleepsOn t < 2 ^ 32 := by
  have hinv : (∃ q, Consistent ncpu s q) ∧ ∀ t, s.sleepsOn t < 2 ^ 32 := by
    refine Reach.invariant
      (I := fun s => (∃ q, Consistent ncpu s q) ∧ ∀ t, s.sleepsOn t < 2 ^ 32) ?_ ?_ h
    · rintro s rfl
      refine ⟨⟨_, threadTableInit_consistent ncpu⟩, fun t => ?_⟩
      show 0 < 2 ^ 32
      decide
    · rintro s op s' ⟨⟨q, hc⟩, hlt⟩ hstep
      obtain ⟨q', hc', heff⟩ := threadStep.effect hc hstep
      refine ⟨⟨q', hc'⟩, fun t => ?_⟩
      rcases heff.chain with ⟨cpu, r, rfl, hsleeps, -⟩ | ⟨-, hsleeps, -⟩
      · obtain ⟨-, -, -, -, -, hr⟩ := hstep.1
        rw [hsleeps]
        by_cases ht : t = s.currentThread cpu
        · rw [ht, Function.update_self]
          exact hr
        · rw [Function.update_of_ne ht]
          exact hlt t
      · rcases hsleeps t with h | h
        · rw [h]
          exact hlt t
        · rw [h]
          decide
  exact hinv.2

/-! ## Dispatches are round robin -/

/-- The number of calls of `scheduler_schedule` in a run. -/
def scheduleCount (ops : List ThreadOp) : ℕ := (ops.map ThreadOp.schedules).sum

theorem scheduleCount_concat (ops : List ThreadOp) (op : ThreadOp) :
    scheduleCount (ops ++ [op]) = scheduleCount ops + op.schedules := by
  simp [scheduleCount]

/-- Over a run the ready list loses one thread at the front per schedule and otherwise only grows at
    the end. -/
theorem ready_of_run {ncpu : ℕ} {s s' : ThreadSystem} {q : Queues} (hc : Consistent ncpu s q)
    {ops : List ThreadOp} (hrun : Run (· = s) (threadStep ncpu) ops s') :
    ∃ q', Consistent ncpu s' q' ∧ (scheduleCount ops ≤ q.ready.length →
      ∃ rest, q'.ready = q.ready.drop (scheduleCount ops) ++ rest) := by
  refine Run.invariant (I := fun ops s' => ∃ q', Consistent ncpu s' q' ∧
    (scheduleCount ops ≤ q.ready.length →
      ∃ rest, q'.ready = q.ready.drop (scheduleCount ops) ++ rest)) ?_ ?_ hrun
  · rintro s' rfl
    exact ⟨q, hc, fun _ => ⟨[], by simp [scheduleCount]⟩⟩
  · rintro ops s1 op s2 ⟨q1, hc1, hready⟩ hstep
    obtain ⟨q2, hc2, heff⟩ := threadStep.effect hc1 hstep
    refine ⟨q2, hc2, fun hle => ?_⟩
    rw [scheduleCount_concat] at hle ⊢
    obtain ⟨rest, hrest⟩ := hready (by omega)
    obtain ⟨added, hadded⟩ := heff.ready
    refine ⟨rest ++ added, ?_⟩
    have hlen : op.schedules ≤ (q.ready.drop (scheduleCount ops)).length := by
      rw [List.length_drop]
      omega
    rw [hadded, hrest, List.append_assoc, List.drop_append_of_le_length hlen, List.drop_drop]

/-- What `scheduler_schedule` selects: the first thread of the ready list that the thread of the CPU
    has joined if it goes on, the idle thread if that list is empty. -/
theorem schedule_selects {ncpu : ℕ} {s s' : ThreadSystem} {q : Queues} (hc : Consistent ncpu s q)
    {cpu : ℕ} (hstep : threadStep ncpu s (.schedule cpu) s') :
    s'.currentThread cpu = (q.putAway s cpu).ready.headD idleThreadTid := by
  obtain ⟨s'', hok, hcur, -, -, -⟩ := schedulerSchedule_consistent hc hstep.1
  have hs : s' = s'' := by
    have h : schedulerSchedule s cpu = .ok s' := hstep.2
    rw [hok] at h
    cases h
    rfl
  rw [hs, hcur, Function.update_self]

/-- The schedule that follows `scheduleCount ops` others selects the thread that was at this position
    of the ready list. -/
theorem schedule_selects_of_run {ncpu : ℕ} {s s1 s2 : ThreadSystem} {q : Queues}
    (hc : Consistent ncpu s q) {ops : List ThreadOp} {cpu : ℕ}
    (hrun : Run (· = s) (threadStep ncpu) ops s1) (hstep : threadStep ncpu s1 (.schedule cpu) s2)
    {u : ℤ} (hu : q.ready[scheduleCount ops]? = some u) : s2.currentThread cpu = u := by
  obtain ⟨hlt, hget⟩ := List.getElem?_eq_some_iff.1 hu
  obtain ⟨q1, hc1, hready⟩ := ready_of_run hc hrun
  obtain ⟨rest, hrest⟩ := hready hlt.le
  obtain ⟨added, hadded⟩ := q1.ready_prefix_putAway s1 cpu
  rw [schedule_selects hc1 hstep, hadded, hrest, List.drop_eq_getElem_cons hlt, hget]
  rfl

/-- **Round robin.** In every reachable state the thread at position `k` of the ready list is
    selected by the `(k+1)`-st call of `scheduler_schedule` of every continuation of the run, on
    whatever CPU it is made and whatever else happens, and by no earlier one. The idle thread is
    selected exactly if the ready list is empty once the old thread has been put away. -/
theorem schedule_roundRobin {ncpu : ℕ} {s : ThreadSystem} (h : ThreadReachable ncpu s) :
    ∃ q, Consistent ncpu s q ∧
      (∀ k t, q.ready[k]? = some t → ∀ ops cpu s1 s2, Run (· = s) (threadStep ncpu) ops s1 →
        threadStep ncpu s1 (.schedule cpu) s2 →
        (scheduleCount ops = k → s2.currentThread cpu = t) ∧
          (scheduleCount ops < k → s2.currentThread cpu ≠ t)) ∧
      ∀ cpu s2, threadStep ncpu s (.schedule cpu) s2 → ∃ s1 ready,
        schedulerPutAway s cpu = .ok s1 ∧ Linked s1.next s1.readyHead ready (-1) ∧
          (s2.currentThread cpu = idleThreadTid ↔ ready = []) := by
  obtain ⟨q, hc⟩ := reachable_consistent h
  refine ⟨q, hc, fun k t hk ops cpu s1 s2 hrun hstep => ⟨fun hj => ?_, fun hj => ?_⟩,
    fun cpu s2 hstep => ?_⟩
  · exact schedule_selects_of_run hc hrun hstep (by rw [hj]; exact hk)
  · -- an earlier schedule selects the thread at an earlier position, which is a different one
    obtain ⟨hlt, hget⟩ := List.getElem?_eq_some_iff.1 hk
    have hj' : scheduleCount ops < q.ready.length := by omega
    rw [schedule_selects_of_run hc hrun hstep (List.getElem?_eq_getElem hj'), ← hget]
    intro he
    have := (hc.stored.readyNodup.getElem_inj_iff).1 he
    omega
  · obtain ⟨s1, hok, -, -, -, hst, -⟩ := schedulerPutAway_spec hc hstep.1
    refine ⟨s1, _, hok, hst.ready, ?_⟩
    rw [schedule_selects hc hstep]
    cases hq : (q.putAway s cpu).ready with
    | nil => simp
    | cons t rest =>
        have ht : 0 < t := (hst.readyTid t (by rw [hq]; simp)).1
        simp only [List.headD_cons, idleThreadTid, List.cons_ne_nil, iff_false]
        omega

/-- Two threads in the ready list of one CPU. -/
def twoReady : ThreadSystem :=
  (runThreadOps 1 threadTableInit [.create, .run 1, .create, .run 2]).get (by decide +kernel)

theorem schedule_roundRobin_twoReady :
    twoReady.readyHead = 1 ∧ twoReady.next 1 = 2 ∧ ∃ q, Consistent 1 twoReady q ∧
      ∀ k t, q.ready[k]? = some t → ∀ ops cpu s1 s2, Run (· = twoReady) (threadStep 1) ops s1 →
        threadStep 1 s1 (.schedule cpu) s2 → scheduleCount ops = k → s2.currentThread cpu = t := by
  have hreach : ThreadReachable 1 twoReady :=
    reachable_of_runThreadOps (Option.some_get _).symm
  obtain ⟨q, hc, hq, -⟩ := schedule_roundRobin hreach
  refine ⟨by decide +kernel, by decide +kernel, q, hc, fun k t hk ops cpu s1 s2 hrun hstep => ?_⟩
  exact (hq k t hk ops cpu s1 s2 hrun hstep).1

end Kudos
