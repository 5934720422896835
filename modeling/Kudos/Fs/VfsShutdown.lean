import Kudos.Fs.Vfs
import Kudos.Library.Counting
import Kudos.Library.Transition

set_option autoImplicit false

/-! # Shutting the VFS down

`vfs_deinit` closes the VFS for new operations and waits until those that are going on have ended,
before it unmounts the filesystems. Its hand-over with `vfs_start_op` and `vfs_end_op` uses the
counter `vfs_ops`, the flag `vfs_usable`, the binary semaphore `vfs_op_sem` that protects the two,
and the semaphore `vfs_unmount_sem` that the last operation raises. Here the three functions are
processes that step at their semaphore operations: a step runs from one semaphore operation to the
next, which it includes.

Any number of workers run VFS operations, one after the other; an operation that never gets to its
`vfs_end_op` is a worker that stops in `working`. -/

namespace Kudos

open CInt Counting Transition

/-! ## The processes -/

/-- Where a worker is. -/
inductive WorkerPc where
  /-- Outside the VFS, or waiting for `vfs_op_sem` in `vfs_start_op`. -/
  | idle
  /-- In `vfs_start_op`, with `vfs_op_sem` held. -/
  | starting
  /-- Between a successful `vfs_start_op` and the `semaphore_P` of its `vfs_end_op`. -/
  | working
  /-- In `vfs_end_op`, with `vfs_op_sem` held. -/
  | ending
  /-- In `vfs_end_op`, behind its `semaphore_V` on `vfs_unmount_sem`. -/
  | leaving
  deriving DecidableEq, Repr

/-- Where `vfs_deinit` is. -/
inductive DeinitPc where
  /-- Not called yet, or waiting for `vfs_op_sem`. -/
  | before
  /-- Behind the first `semaphore_P` on `vfs_op_sem`. -/
  | entered
  /-- Before the `semaphore_P` on `vfs_unmount_sem`. -/
  | waiting
  /-- Before the second `semaphore_P` on `vfs_op_sem`. -/
  | woken
  /-- Behind the second `semaphore_P` on `vfs_op_sem`. -/
  | reentered
  /-- From the first call of `fs->unmount` to the last `semaphore_V`. -/
  | unmounting
  | finished
  deriving DecidableEq, Repr

/-- The globals and the processes. `raised` counts the `semaphore_V` on `vfs_unmount_sem`, and
    `panicked` is set when an assertion fails. -/
structure ShutdownSystem (ι : Type) where
  ops : VfsOps
  opSem : ℕ
  unmountSem : ℕ
  worker : ι → WorkerPc
  deinit : DeinitPc
  raised : ℕ
  panicked : Bool

variable {ι : Type} [DecidableEq ι]

namespace ShutdownSystem

def goto (s : ShutdownSystem ι) (i : ι) (pc : WorkerPc) : ShutdownSystem ι :=
  { s with worker := Function.update s.worker i pc }

/-- `semaphore_P` on `vfs_op_sem`. -/
def opP (s : ShutdownSystem ι) : Option (ShutdownSystem ι) :=
  if 0 < s.opSem then some { s with opSem := s.opSem - 1 } else none

/-- `semaphore_V` on `vfs_op_sem`. -/
def opV (s : ShutdownSystem ι) : ShutdownSystem ι := { s with opSem := s.opSem + 1 }

/-- The next step of worker `i`. -/
def workerStep (s : ShutdownSystem ι) (i : ι) : Option (ShutdownSystem ι) :=
  match s.worker i with
  | .idle => s.opP.map (·.goto i .starting)
  | .starting =>
      let (ret, ops) := startOpBody s.ops
      some ({ s with ops := ops }.opV.goto i (if ret = vfsOk then .working else .idle))
  | .working => s.opP.map (·.goto i .ending)
  | .ending =>
      match endOpBody s.ops with
      | .error _ => some { s with panicked := true }
      | .ok (true, ops) =>
          some ({ s with ops := ops, unmountSem := s.unmountSem + 1,
                         raised := s.raised + 1 }.goto i .leaving)
      | .ok (false, ops) => some ({ s with ops := ops }.opV.goto i .idle)
  | .leaving => some (s.opV.goto i .idle)

/-- The next step of `vfs_deinit`. -/
def deinitStep (s : ShutdownSystem ι) : Option (ShutdownSystem ι) :=
  match s.deinit with
  | .before => s.opP.map ({ · with deinit := .entered })
  | .entered =>
      let s := { s with ops := { s.ops with vfsUsable := false } }
      if (0 : ℤ) < s.ops.vfsOps then some { s.opV with deinit := .waiting }
      else some { s with deinit := .unmounting }
  | .waiting =>
      if 0 < s.unmountSem then
        some { s with unmountSem := s.unmountSem - 1, deinit := .woken }
      else none
  | .woken => s.opP.map ({ · with deinit := .reentered })
  | .reentered =>
      if s.ops.vfsOps = 0 then some { s with deinit := .unmounting }
      else some { s with panicked := true }
  | .unmounting => some { s.opV with deinit := .finished }
  | .finished => none

/-- Who takes the next step. -/
def exec (s : ShutdownSystem ι) : Option ι → Option (ShutdownSystem ι)
  | some i => s.workerStep i
  | none => s.deinitStep

/-- The state after `vfs_init`. -/
def init : ShutdownSystem ι where
  ops := ⟨0, true⟩
  opSem := 1
  unmountSem := 0
  worker _ := .idle
  deinit := .before
  raised := 0
  panicked := false

end ShutdownSystem

/-! ## The invariant -/

/-- The operations that `vfs_ops` counts: between the increment and the decrement. -/
def WorkerPc.counted : WorkerPc → Bool
  | working | ending => true
  | idle | starting | leaving => false

/-- The workers that hold `vfs_op_sem`. -/
def WorkerPc.holds : WorkerPc → Bool
  | starting | ending | leaving => true
  | idle | working => false

def DeinitPc.holds : DeinitPc → Bool
  | entered | reentered | unmounting => true
  | before | waiting | woken | finished => false

/-- How far the hand-over to `vfs_deinit` is. Once the VFS is closed the counter can only fall, and it
    is raised to `vfs_unmount_sem` when it gets to zero. -/
def HandOver (s : ShutdownSystem ι) : Prop :=
  match s.deinit with
  | .before | .entered => s.ops.vfsUsable = true ∧ s.raised = 0 ∧ s.unmountSem = 0
  | .waiting => s.ops.vfsUsable = false ∧
      ((0 < s.ops.vfsOps ∧ s.raised = 0 ∧ s.unmountSem = 0) ∨
        (s.ops.vfsOps = 0 ∧ s.raised = 1 ∧ s.unmountSem = 1))
  | .woken | .reentered | .unmounting | .finished =>
      s.ops.vfsUsable = false ∧ s.ops.vfsOps = 0 ∧ s.raised ≤ 1

structure ShutdownInvariant [Fintype ι] (s : ShutdownSystem ι) : Prop where
  count : s.ops.vfsOps = countWhere WorkerPc.counted s.worker
  mutex : s.opSem + countWhere WorkerPc.holds s.worker + (if s.deinit.holds then 1 else 0) = 1
  handOver : HandOver s
  sound : s.panicked = false

section

variable [Fintype ι] {s s' : ShutdownSystem ι}

omit [DecidableEq ι] in
/-- `vfs_op_sem` is binary: while a worker holds it, `vfs_deinit` does not. -/
theorem ShutdownInvariant.alone (h : ShutdownInvariant s) {i : ι} (hi : (s.worker i).holds = true) :
    s.deinit.holds = false := by
  have hpos := countWhere_pos hi
  have hmutex := h.mutex
  cases hd : s.deinit.holds
  · rfl
  · simp only [hd, if_true] at hmutex
    omega

omit [DecidableEq ι] in
/-- A worker inside an operation keeps the counter positive. -/
theorem ShutdownInvariant.ops_pos (h : ShutdownInvariant s) {i : ι}
    (hi : (s.worker i).counted = true) : 0 < s.ops.vfsOps := by
  have := countWhere_pos hi
  rw [h.count]
  omega

/-- Worker `i` goes to `pc`: it is enough that the counter and the semaphore follow. -/
theorem ShutdownInvariant.move (h : ShutdownInvariant s) (i : ι) (pc : WorkerPc)
    (hworker : s'.worker = Function.update s.worker i pc) (hdeinit : s'.deinit = s.deinit)
    (hcount : Counted s.ops.vfsOps s'.ops.vfsOps (s.worker i).counted pc.counted)
    (hsem : Counted s.opSem s'.opSem pc.holds (s.worker i).holds)
    (hhand : HandOver s') (hsound : s'.panicked = false) : ShutdownInvariant s' := by
  have hc := countWhere_update WorkerPc.counted s.worker i pc
  have hh := countWhere_update WorkerPc.holds s.worker i pc
  have hmutex := h.mutex
  unfold Counted at hcount hsem hc hh
  refine ⟨?_, ?_, hhand, hsound⟩
  · rw [hworker, hc, hcount, h.count]
  · rw [hworker, hdeinit]
    have : (s'.opSem : ℤ) + countWhere WorkerPc.holds (Function.update s.worker i pc)
        + (if s.deinit.holds then 1 else 0) = 1 := by
      rw [hh, hsem]
      split at hmutex <;> simp_all
      omega
    split
    · next hd =>
        simp only [hd, if_true] at this
        omega
    · next hd =>
        simp only [hd, Bool.false_eq_true, if_false] at this
        omega

omit [DecidableEq ι] [Fintype ι] in
/-- The hand-over does not look at the workers. -/
theorem HandOver.congr (h : HandOver s) (hops : s'.ops = s.ops) (hdeinit : s'.deinit = s.deinit)
    (hraised : s'.raised = s.raised) (hsem : s'.unmountSem = s.unmountSem) : HandOver s' := by
  unfold HandOver at h ⊢
  rw [hdeinit, hops, hraised, hsem]
  exact h

omit [DecidableEq ι] [Fintype ι] in
/-- While the VFS is open the hand-over does not look at the counter either. -/
theorem HandOver.started (h : HandOver s) (husable : s.ops.vfsUsable = true)
    (husable' : s'.ops.vfsUsable = true) (hdeinit : s'.deinit = s.deinit)
    (hraised : s'.raised = s.raised) (hsem : s'.unmountSem = s.unmountSem) : HandOver s' := by
  unfold HandOver at h ⊢
  rw [hdeinit, husable', hraised, hsem]
  rw [husable] at h
  cases hd : s.deinit <;> simp only [hd] at h ⊢
  case before => exact h
  case entered => exact h
  all_goals cases h.1

theorem ShutdownInvariant.opP (h : ShutdownInvariant s) {i : ι} {pc : WorkerPc}
    (hcount : pc.counted = (s.worker i).counted) (hold : (s.worker i).holds = false)
    (hnew : pc.holds = true) (hstep : s.opP.map (·.goto i pc) = some s') :
    ShutdownInvariant s' := by
  unfold ShutdownSystem.opP at hstep
  split at hstep
  · next hsem =>
      cases hstep
      refine h.move i pc rfl rfl ?_ ?_ (h.handOver.congr rfl rfl rfl rfl) h.sound
      · rw [hcount]
        exact Counted.same _ _
      · rw [hold, hnew]
        simp only [ShutdownSystem.goto, Counted, if_true, Bool.false_eq_true, if_false]
        omega
  · cases hstep

/-- `vfs_start_op`: the operation is counted exactly if it may go on. -/
theorem ShutdownInvariant.start (hcard : (Fintype.card ι : ℤ) ≤ intMax) (h : ShutdownInvariant s)
    {i : ι} (hpc : s.worker i = .starting) (hstep : s.workerStep i = some s') :
    ShutdownInvariant s' := by
  have hlt := countWhere_lt (p := WorkerPc.counted) (f := s.worker) (i := i) (by rw [hpc]; rfl)
  have hcount := h.count
  simp only [ShutdownSystem.workerStep, hpc, startOpBody] at hstep
  by_cases husable : s.ops.vfsUsable = true
  · have hwrap : wrap32 (s.ops.vfsOps + 1) = s.ops.vfsOps + 1 :=
      wrap32_of_nonneg (by omega) (by omega)
    simp only [husable, if_true, hwrap] at hstep
    cases hstep
    refine h.move i .working rfl rfl ?_ ?_
      (h.handOver.started husable rfl rfl rfl rfl) h.sound
    · simp [Counted, hpc, WorkerPc.counted, ShutdownSystem.goto, ShutdownSystem.opV]
    · simp [Counted, hpc, WorkerPc.holds, ShutdownSystem.goto, ShutdownSystem.opV]
  · simp only [husable, Bool.false_eq_true, if_false] at hstep
    cases hstep
    refine h.move i .idle rfl rfl ?_ ?_ (h.handOver.congr rfl rfl rfl rfl) h.sound
    · simp [Counted, hpc, WorkerPc.counted, ShutdownSystem.goto, ShutdownSystem.opV]
    · simp [Counted, hpc, WorkerPc.holds, ShutdownSystem.goto, ShutdownSystem.opV]

/-- `vfs_end_op`: the counter is positive before, so the assertion holds, and it is raised to
    `vfs_unmount_sem` only by the operation that makes it zero. -/
theorem ShutdownInvariant.finish (hcard : (Fintype.card ι : ℤ) ≤ intMax) (h : ShutdownInvariant s)
    {i : ι} (hpc : s.worker i = .ending) (hstep : s.workerStep i = some s') :
    ShutdownInvariant s' := by
  have hle := countWhere_le WorkerPc.counted s.worker
  have hcount := h.count
  have hpos : 0 < s.ops.vfsOps := h.ops_pos (i := i) (by rw [hpc]; rfl)
  have halone : s.deinit.holds = false := h.alone (i := i) (by rw [hpc]; rfl)
  have hhand := h.handOver
  have hbody := endOpBody_eq (s := s.ops) hpos (by omega)
  simp only [ShutdownSystem.workerStep, hpc, hbody] at hstep
  cases hraise : (!s.ops.vfsUsable && decide (s.ops.vfsOps - 1 = 0)) with
  | true =>
      rw [hraise] at hstep
      cases hstep
      simp only [Bool.and_eq_true, Bool.not_eq_true', decide_eq_true_eq] at hraise
      refine h.move i .leaving rfl rfl ?_ ?_ ?_ h.sound
      · simp [Counted, hpc, WorkerPc.counted, ShutdownSystem.goto]
      · simp [Counted, hpc, WorkerPc.holds, ShutdownSystem.goto]
      · unfold HandOver at hhand ⊢
        simp only [ShutdownSystem.goto]
        cases hd : s.deinit <;> simp only [hd] at hhand ⊢ <;> simp_all
        omega
  | false =>
      rw [hraise] at hstep
      cases hstep
      simp only [Bool.and_eq_false_iff, Bool.not_eq_false', decide_eq_false_iff_not] at hraise
      refine h.move i .idle rfl rfl ?_ ?_ ?_ h.sound
      · simp [Counted, hpc, WorkerPc.counted, ShutdownSystem.goto, ShutdownSystem.opV]
      · simp [Counted, hpc, WorkerPc.holds, ShutdownSystem.goto, ShutdownSystem.opV]
      · unfold HandOver at hhand ⊢
        simp only [ShutdownSystem.goto, ShutdownSystem.opV]
        cases hd : s.deinit <;> simp only [hd] at hhand ⊢ <;> simp_all
        omega

theorem ShutdownInvariant.workerStep (hcard : (Fintype.card ι : ℤ) ≤ intMax)
    (h : ShutdownInvariant s) {i : ι} (hstep : s.workerStep i = some s') :
    ShutdownInvariant s' := by
  cases hpc : s.worker i with
  | idle =>
      simp only [ShutdownSystem.workerStep, hpc] at hstep
      exact h.opP (by rw [hpc]; rfl) (by rw [hpc]; rfl) rfl hstep
  | starting => exact h.start hcard hpc hstep
  | working =>
      simp only [ShutdownSystem.workerStep, hpc] at hstep
      exact h.opP (by rw [hpc]; rfl) (by rw [hpc]; rfl) rfl hstep
  | ending => exact h.finish hcard hpc hstep
  | leaving =>
      simp only [ShutdownSystem.workerStep, hpc] at hstep
      cases hstep
      refine h.move i .idle rfl rfl ?_ ?_ (h.handOver.congr rfl rfl rfl rfl) h.sound
      · simp [Counted, hpc, WorkerPc.counted, ShutdownSystem.goto, ShutdownSystem.opV]
      · simp [Counted, hpc, WorkerPc.holds, ShutdownSystem.goto, ShutdownSystem.opV]

omit [DecidableEq ι] in
theorem ShutdownInvariant.deinitStep (h : ShutdownInvariant s)
    (hstep : s.deinitStep = some s') : ShutdownInvariant s' := by
  obtain ⟨hcount, hmutex, hhand, hsound⟩ := h
  unfold HandOver at hhand
  unfold ShutdownSystem.deinitStep at hstep
  cases hd : s.deinit with
  | before =>
      simp only [hd, ShutdownSystem.opP] at hstep hhand
      split at hstep
      · cases hstep
        refine ⟨hcount, ?_, hhand, hsound⟩
        simp only [hd, DeinitPc.holds, if_true, Bool.false_eq_true, if_false] at hmutex ⊢
        omega
      · cases hstep
  | entered =>
      simp only [hd] at hstep hhand
      split at hstep
      · next hpos =>
          cases hstep
          refine ⟨hcount, ?_, ⟨rfl, Or.inl ⟨hpos, hhand.2⟩⟩, hsound⟩
          simp only [hd, DeinitPc.holds, if_true, Bool.false_eq_true, if_false,
            ShutdownSystem.opV] at hmutex ⊢
          omega
      · next hnot =>
          cases hstep
          have hzero : s.ops.vfsOps = 0 := by omega
          refine ⟨hcount, ?_, ⟨rfl, hzero, by simp [hhand.2.1]⟩, hsound⟩
          simpa [hd, DeinitPc.holds] using hmutex
  | waiting =>
      simp only [hd] at hstep hhand
      split at hstep
      · next hsem =>
          cases hstep
          refine ⟨hcount, by simpa [hd, DeinitPc.holds] using hmutex, ?_, hsound⟩
          rcases hhand with ⟨hus, ⟨-, -, hz⟩ | ⟨hz, hr, -⟩⟩
          · omega
          · exact ⟨hus, hz, by simp [hr]⟩
      · cases hstep
  | woken =>
      simp only [hd, ShutdownSystem.opP] at hstep hhand
      split at hstep
      · cases hstep
        refine ⟨hcount, ?_, hhand, hsound⟩
        simp only [hd, DeinitPc.holds, if_true, Bool.false_eq_true, if_false] at hmutex ⊢
        omega
      · cases hstep
  | reentered =>
      simp only [hd] at hstep hhand
      rw [if_pos hhand.2.1] at hstep
      cases hstep
      exact ⟨hcount, by simpa [hd, DeinitPc.holds] using hmutex, hhand, hsound⟩
  | unmounting =>
      simp only [hd] at hstep hhand
      cases hstep
      refine ⟨hcount, ?_, hhand, hsound⟩
      simp only [hd, DeinitPc.holds, if_true, Bool.false_eq_true, if_false,
        ShutdownSystem.opV] at hmutex ⊢
      omega
  | finished => simp only [hd] at hstep; cases hstep

omit [DecidableEq ι] in
theorem ShutdownInvariant.init : ShutdownInvariant (ShutdownSystem.init : ShutdownSystem ι) where
  count := by
    have hnone : countWhere WorkerPc.counted (ShutdownSystem.init : ShutdownSystem ι).worker = 0 :=
      countWhere_eq_zero.2 (fun i => rfl)
    rw [hnone]
    rfl
  mutex := by
    have hnone : countWhere WorkerPc.holds (ShutdownSystem.init : ShutdownSystem ι).worker = 0 :=
      countWhere_eq_zero.2 (fun i => rfl)
    rw [hnone]
    rfl
  handOver := ⟨rfl, rfl, rfl⟩
  sound := rfl

/-- What the shutdown guarantees in a state. -/
structure ShutdownSafe (s : ShutdownSystem ι) : Prop where
  /-- While the filesystems are unmounted, no operation is going on. -/
  quiet : s.deinit = .unmounting → ∀ i, s.worker i = .idle
  /-- Once the VFS is closed it stays closed, and no operation starts. -/
  closed : s.ops.vfsUsable = false → ∀ a s', s.exec a = some s' → s'.ops.vfsUsable = false ∧
    ∀ i, s'.worker i = .working → s.worker i = .working
  /-- The assertions of `vfs_end_op` and `vfs_deinit` have held. -/
  sound : s.panicked = false
  raised_once : s.raised ≤ 1

theorem startOpBody_usable (ops : VfsOps) : (startOpBody ops).2.vfsUsable = ops.vfsUsable := by
  unfold startOpBody
  split <;> rfl

theorem endOpBody_usable {ops ops' : VfsOps} {raise : Bool} (h : endOpBody ops = .ok (raise, ops')) :
    ops'.vfsUsable = ops.vfsUsable := by
  simp only [endOpBody, kernelAssert] at h
  split at h
  · obtain ⟨-, rfl⟩ := Prod.mk.injEq .. ▸ Except.ok.inj h
    rfl
  · cases h

omit [Fintype ι] in
/-- Steps of a worker leave the flag alone. -/
theorem workerStep_usable {i : ι} (hstep : s.workerStep i = some s') :
    s'.ops.vfsUsable = s.ops.vfsUsable := by
  unfold ShutdownSystem.workerStep at hstep
  split at hstep
  · unfold ShutdownSystem.opP at hstep
    split at hstep <;> cases hstep
    rfl
  · cases hstep
    exact startOpBody_usable s.ops
  · unfold ShutdownSystem.opP at hstep
    split at hstep <;> cases hstep
    rfl
  · split at hstep
    · cases hstep
      rfl
    · next hbody =>
        cases hstep
        exact endOpBody_usable hbody
    · next hbody =>
        cases hstep
        exact endOpBody_usable hbody
  · cases hstep
    rfl

omit [Fintype ι] in
/-- A worker gets into an operation only through a `vfs_start_op` that found the VFS open. -/
theorem workerStep_working {i j : ι} (hclosed : s.ops.vfsUsable = false)
    (hstep : s.workerStep i = some s') (hj : s'.worker j = .working) : s.worker j = .working := by
  have hupdate : ∃ pc, s'.worker = Function.update s.worker i pc ∧
      (pc = .working → s.worker i = .working) := by
    unfold ShutdownSystem.workerStep at hstep
    split at hstep
    · unfold ShutdownSystem.opP at hstep
      split at hstep <;> cases hstep
      exact ⟨_, rfl, nofun⟩
    · simp only [startOpBody, hclosed, Bool.false_eq_true, if_false] at hstep
      cases hstep
      exact ⟨_, rfl, nofun⟩
    · unfold ShutdownSystem.opP at hstep
      split at hstep <;> cases hstep
      exact ⟨_, rfl, nofun⟩
    · next hpc =>
        split at hstep <;> cases hstep
        · exact ⟨.ending, by rw [← hpc, Function.update_eq_self], nofun⟩
        · exact ⟨_, rfl, nofun⟩
        · exact ⟨_, rfl, nofun⟩
    · cases hstep
      exact ⟨_, rfl, nofun⟩
  obtain ⟨pc, hworker, hpc⟩ := hupdate
  rw [hworker] at hj
  by_cases hji : j = i
  · rw [hji, Function.update_self] at hj
    rw [hji]
    exact hpc hj
  · rwa [Function.update_of_ne hji] at hj

omit [DecidableEq ι] [Fintype ι] in
theorem deinitStep_usable (hclosed : s.ops.vfsUsable = false) (hstep : s.deinitStep = some s') :
    s'.ops.vfsUsable = false ∧ s'.worker = s.worker := by
  unfold ShutdownSystem.deinitStep at hstep
  cases hd : s.deinit <;> simp only [hd, ShutdownSystem.opP] at hstep
  case unmounting =>
    cases hstep
    exact ⟨hclosed, rfl⟩
  case finished => cases hstep
  all_goals split at hstep
  all_goals cases hstep
  all_goals exact ⟨by first | exact hclosed | rfl, rfl⟩

/-- **Shutdown of the VFS.** For any number of workers and in any interleaving with `vfs_deinit`, the
    filesystems are unmounted only when no operation is going on, none starts after the VFS was
    closed, no assertion fails, and `vfs_unmount_sem` is raised at most once. -/
theorem shutdownReachable_safe (hcard : (Fintype.card ι : ℤ) ≤ intMax) {s : ShutdownSystem ι}
    (h : Reach (· = ShutdownSystem.init) (fun s a s' => s.exec a = some s') s) :
    ShutdownSafe s := by
  have hinv : ShutdownInvariant s := by
    refine Reach.invariant (I := ShutdownInvariant) ?_ ?_ h
    · rintro s rfl
      exact .init
    · intro s a s' hs hstep
      cases a with
      | some i => exact hs.workerStep hcard hstep
      | none => exact hs.deinitStep hstep
  have hhand := hinv.handOver
  unfold HandOver at hhand
  refine ⟨fun hd i => ?_, fun hclosed a s' hstep => ?_, hinv.sound, ?_⟩
  · simp only [hd] at hhand
    have hfree : (s.worker i).holds = false := by
      by_contra hi
      have := hinv.alone (i := i) (by simpa using hi)
      rw [hd] at this
      cases this
    have hout : (s.worker i).counted = false := by
      by_contra hi
      have := hinv.ops_pos (i := i) (by simpa using hi)
      omega
    cases hpc : s.worker i <;> simp [hpc, WorkerPc.holds, WorkerPc.counted] at hfree hout ⊢
  · cases a with
    | some i =>
        refine ⟨(workerStep_usable hstep).trans hclosed, fun j hj => ?_⟩
        exact workerStep_working hclosed hstep hj
    | none =>
        obtain ⟨husable, hworker⟩ := deinitStep_usable hclosed hstep
        exact ⟨husable, fun j hj => by rwa [hworker] at hj⟩
  · cases hd : s.deinit <;> simp only [hd] at hhand <;> omega

end

/-- The one operation that is going on ends while `vfs_deinit` waits for it; another is turned away. -/
def lastOperation : List (Option (Fin 2)) :=
  [some 0, some 0, none, none, some 1, some 1, some 0, some 0, some 0, none, none, none]

theorem shutdownReachable_safe_lastOperation :
    ∃ s : ShutdownSystem (Fin 2), runOps ShutdownSystem.exec .init lastOperation = some s ∧
      s.deinit = .unmounting ∧ ShutdownSafe s := by
  cases hrun : runOps ShutdownSystem.exec (.init : ShutdownSystem (Fin 2)) lastOperation with
  | none =>
      have hsome : (runOps ShutdownSystem.exec (.init : ShutdownSystem (Fin 2))
        lastOperation).isSome = true := by decide
      rw [hrun] at hsome
      cases hsome
  | some s =>
      have hdeinit : (runOps ShutdownSystem.exec (.init : ShutdownSystem (Fin 2))
        lastOperation).map (·.deinit) = some .unmounting := by decide
      rw [hrun] at hdeinit
      have hstart : Run (· = ShutdownSystem.init) (fun s a s' => s.exec a = some s') []
        (.init : ShutdownSystem (Fin 2)) := .nil rfl
      have hreach := (hstart.append_runOps _ (fun s a s' h => h) hrun).reach
      exact ⟨s, rfl, by simpa using hdeinit, shutdownReachable_safe (by decide) hreach⟩

end Kudos
