import Kudos.Fs.Vfs
import Kudos.Library.Counting
import Kudos.Library.Transition

set_option autoImplicit false

/-! # Counting the operations of the VFS

`vfs_ops` is meant to be the number of VFS operations that are going on. Any number of threads make
any calls, interleaved at every point at which a call can be interrupted. The counter is right along
every run in which no call takes one of the exits that forget `vfs_end_op`
(`vfsReachable_accounting`): those of `vfs_close`, `vfs_seek`, `vfs_read` and `vfs_write` for a handle
that is not open, and the one of `vfs_seek` for a negative position. A single call through one of
these exits makes it wrong for good (`vfsReachable_leak`). -/

namespace Kudos

open CInt Counting Transition

/-! ## Calls and threads -/

/-- The calls of the VFS with their arguments. -/
inductive VfsCall where
  | mount (fs : Option ℕ) (name : Option (List UInt8))
  | unmount (name : List UInt8)
  | open (pathname : List UInt8)
  | close (file : ℤ)
  | seek (file seekPosition : ℤ)
  | read (file : ℤ) (buffer : ℕ) (bufsize : ℤ)
  | write (file : ℤ) (buffer : ℕ) (datasize : ℤ)
  | create (pathname : List UInt8) (size : ℤ)
  | remove (pathname : List UInt8)
  | getfree (filesystem : List UInt8)
  | filecount (pathname : Option (List UInt8))
  | file (pathname : Option (List UInt8)) (idx : ℤ)
  deriving DecidableEq, Repr

/-- What the call does. -/
def VfsCall.body : VfsCall → VfsProc ℤ
  | .mount fs name => vfsMount fs name
  | .unmount name => vfsUnmount name
  | .open pathname => vfsOpen pathname
  | .close handle => vfsClose handle
  | .seek handle seekPosition => vfsSeek handle seekPosition
  | .read handle buffer bufsize => vfsRead handle buffer bufsize
  | .write handle buffer datasize => vfsWrite handle buffer datasize
  | .create pathname size => vfsCreate pathname size
  | .remove pathname => vfsRemove pathname
  | .getfree filesystem => vfsGetfree filesystem
  | .filecount pathname => vfsFilecount pathname
  | .file pathname idx => vfsFile pathname idx

/-- A thread in the VFS: the call it made last, whether that call has passed `vfs_start_op`, and what
    is left of it. -/
structure VfsThread where
  call : VfsCall
  passed : Bool
  proc : VfsProc ℤ

def VfsProc.returned {α : Type} : VfsProc α → Bool
  | done _ => true
  | _ => false

/-- The call has passed `vfs_start_op` and has not returned. -/
def VfsThread.inProgress (t : VfsThread) : Bool := t.passed && !t.proc.returned

/-- The globals of the module and the threads that use it. -/
structure VfsSystem (ι : Type) where
  ops : VfsOps
  tables : VfsTables
  sem : VfsSem → ℕ
  threads : ι → Option VfsThread

/-- What can happen next. -/
inductive VfsLabel (ι : Type) where
  /-- A thread that is in no call makes one. -/
  | call (i : ι) (call : VfsCall)
  /-- A thread takes the next step of its call; `result` is what a driver returns in it. -/
  | run (i : ι) (result : ℤ)
  /-- `vfs_deinit` closes the VFS for new operations. -/
  | deinit

variable {ι : Type} [DecidableEq ι]

/-- The next step of the call of a thread. Without `some` the thread has to wait. -/
def VfsThread.step (th : VfsThread) (s : VfsSystem ι) (result : ℤ) :
    Option (VfsThread × VfsSystem ι) :=
  match th.proc with
  | .done _ | .panic => none
  | .startOp k =>
      let (ret, ops) := startOpBody s.ops
      some (⟨th.call, ret = vfsOk, k ret⟩, { s with ops := ops })
  | .endOp k =>
      match endOpBody s.ops with
      | .ok (_, ops) => some ({ th with proc := k }, { s with ops := ops })
      | .error _ => some ({ th with proc := .panic }, s)
  | .semaphoreP sem k =>
      if 0 < s.sem sem then
        some ({ th with proc := k }, { s with sem := Function.update s.sem sem (s.sem sem - 1) })
      else none
  | .semaphoreV sem k =>
      some ({ th with proc := k }, { s with sem := Function.update s.sem sem (s.sem sem + 1) })
  | .load k => some ({ th with proc := k s.tables }, s)
  | .store f k => some ({ th with proc := k }, { s with tables := f s.tables })
  | .verifyOpen file k =>
      some ({ th with proc := k ((s.tables.files file).filesystem ≠ none) }, s)
  | .driver _ k => some ({ th with proc := k result }, s)

namespace VfsSystem

/-- Thread `i` is in no call. -/
def idle (s : VfsSystem ι) (i : ι) : Bool := (s.threads i).all (·.proc.returned)

def setThread (s : VfsSystem ι) (i : ι) (t : VfsThread) : VfsSystem ι :=
  { s with threads := Function.update s.threads i (some t) }

/-- The calls that have passed `vfs_start_op` and have not returned. -/
def inProgress [Fintype ι] (s : VfsSystem ι) : Finset ι :=
  Finset.univ.filter (fun i => (s.threads i).any VfsThread.inProgress)

/-- The next state, if the step is possible. -/
def exec (s : VfsSystem ι) : VfsLabel ι → Option (VfsSystem ι)
  | .call i c => if s.idle i then some (s.setThread i ⟨c, false, c.body⟩) else none
  | .run i result =>
      match s.threads i with
      | some th => (th.step s result).map (fun p => p.2.setThread i p.1)
      | none => none
  | .deinit => some { s with ops := { s.ops with vfsUsable := false } }

end VfsSystem

/-- The state after `vfs_init`. What lies outside the open file table is not known. -/
structure VfsInit (s : VfsSystem ι) : Prop where
  ops : s.ops = ⟨0, true⟩
  filesystems : ∀ row < configMaxFilesystems, (s.tables.filesystems row).filesystem = none
  files : ∀ file : ℕ, file < configMaxOpenFiles → (s.tables.files file).filesystem = none
  sem : ∀ sem, s.sem sem = 1
  threads : ∀ i, s.threads i = none

/-! ## When a call keeps the count -/

/-- The handle is in the open file table and its row is in use. -/
def VfsTables.IsOpen (t : VfsTables) (file : ℤ) : Prop :=
  0 ≤ file ∧ file < configMaxOpenFiles ∧ (t.files file).filesystem ≠ none

/-- The step does not lead to one of the exits that forget `vfs_end_op`: `vfs_verify_open` is asked
    about an open file, and `vfs_seek` with a negative position finds the VFS closed. -/
def VfsSystem.Proper (s : VfsSystem ι) : VfsLabel ι → Prop
  | .run i _ => ∀ th ∈ s.threads i,
      (∀ file k, th.proc = .verifyOpen file k → s.tables.IsOpen file) ∧
      (∀ file pos k, th.call = .seek file pos → th.proc = .startOp k → pos < 0 →
        s.ops.vfsUsable = false)
  | .call _ _ | .deinit => True

/-- A call that has passed `vfs_start_op` and goes on through `vfs_end_op`, at once followed by its
    return, whatever the drivers return and whatever it reads, provided its handle is open. -/
def VfsProc.Owing : VfsProc ℤ → Prop
  | done _ => False
  | panic => True
  | startOp _ => False
  | endOp k => k.returned = true
  | semaphoreP _ k | semaphoreV _ k | store _ k => k.Owing
  | load k => ∀ t, (k t).Owing
  | verifyOpen _ k => (k true).Owing
  | driver _ k => ∀ r, (k r).Owing

/-- A call that has not passed `vfs_start_op`: it returns, crashes or starts an operation. -/
def VfsProc.Fresh (c : VfsCall) : VfsProc ℤ → Prop
  | done _ | panic => True
  | startOp k => (k vfsUnusable).returned = true ∧
      ((∀ file pos, c = .seek file pos → 0 ≤ pos) → (k vfsOk).Owing)
  | _ => False

/-! ## Every call of the module -/

-- the search through 512 rows must not be evaluated to see the shape of a process
attribute [local irreducible] VfsTables.findFile

theorem VfsProc.Owing.ite {c : Prop} [Decidable c] {a b : VfsProc ℤ} (ha : a.Owing) (hb : b.Owing) :
    (if c then a else b).Owing := by
  split
  · exact ha
  · exact hb

theorem VfsProc.Owing.not_returned {p : VfsProc ℤ} (h : p.Owing) : p.returned = false := by
  cases p with
  | done _ => exact h.elim
  | _ => rfl

/-- A driver call keeps the count if every continuation does; a call through `NULL` never goes on. -/
theorem fsCall_bind_owing {fs : Option ℕ} {call : ℕ → FsCall} {k : ℤ → VfsProc ℤ}
    (hk : ∀ r, (k r).Owing) : (fsCall fs call >>= k).Owing := by
  cases fs with
  | none => trivial
  | some fs => exact fun r => hk r

theorem callVolume_owing (volumename : List UInt8) (call : ℕ → FsCall) :
    (callVolume volumename call).Owing := by
  intro t
  refine .ite rfl ?_
  exact fsCall_bind_owing (fun r => rfl)

theorem callPath_owing (pathname : List UInt8) (call : ℕ → List UInt8 → FsCall) :
    (callPath pathname call).Owing := by
  unfold callPath
  split
  · rfl
  · exact callVolume_owing _ _

theorem vfsMount_fresh (c : VfsCall) (fs : Option ℕ) (name : Option (List UInt8)) :
    (vfsMount fs name).Fresh c := by
  unfold vfsMount
  show VfsProc.Fresh c ((vfsAssert _).bind _)
  unfold vfsAssert
  split
  · refine ⟨rfl, fun _ t => ?_⟩
    simp only [VfsProc.bind]
    split
    · rfl
    · exact .ite rfl rfl
  · trivial

theorem vfsUnmount_fresh (c : VfsCall) (name : List UInt8) : (vfsUnmount name).Fresh c := by
  refine ⟨rfl, fun _ t => ?_⟩
  refine .ite rfl fun t' => ?_
  refine .ite rfl ?_
  exact fsCall_bind_owing (fun r => rfl)

theorem vfsOpen_fresh (c : VfsCall) (pathname : List UInt8) : (vfsOpen pathname).Fresh c := by
  unfold vfsOpen
  refine ⟨rfl, fun _ => ?_⟩
  cases vfsParsePathname pathname with
  | none => rfl
  | some path =>
      intro t
      simp only [VfsProc.bind]
      split
      · rfl
      · refine .ite rfl ?_
        refine fsCall_bind_owing (fun r => ?_)
        exact .ite rfl rfl

/-- Only the exit for a handle that is not open forgets `vfs_end_op`. -/
theorem vfsClose_fresh (c : VfsCall) (file : ℤ) : (vfsClose file).Fresh c := by
  refine ⟨rfl, fun _ t => ?_⟩
  exact fsCall_bind_owing (fun r => rfl)

/-- Here there is also the exit for a negative position. -/
theorem vfsSeek_fresh (file pos : ℤ) : (vfsSeek file pos).Fresh (.seek file pos) := by
  refine ⟨rfl, fun h => ?_⟩
  have hpos := h file pos rfl
  show VfsProc.Owing (ite _ _ _)
  rw [if_neg (by omega)]
  rfl

theorem vfsTransfer_fresh (c : VfsCall) (call : ℕ → ℤ → ℤ → ℤ → FsCall) (file : ℤ) (buffer : ℕ)
    (size : ℤ) : (vfsTransfer call file buffer size).Fresh c := by
  refine ⟨rfl, fun _ t => ?_⟩
  show VfsProc.Owing ((vfsAssert _).bind _)
  unfold vfsAssert
  split
  · intro t'
    refine fsCall_bind_owing (fun r => ?_)
    show VfsProc.Owing (ite _ _ _)
    exact .ite rfl rfl
  · trivial

theorem vfsCreate_fresh (c : VfsCall) (pathname : List UInt8) (size : ℤ) :
    (vfsCreate pathname size).Fresh c := by
  show VfsProc.Fresh c (ite _ _ _)
  split
  · trivial
  · exact ⟨rfl, fun _ => callPath_owing _ _⟩

theorem vfsFilecount_fresh (c : VfsCall) (pathname : Option (List UInt8)) :
    (vfsFilecount pathname).Fresh c := by
  refine ⟨rfl, fun _ => ?_⟩
  cases pathname with
  | none => exact fun t => rfl
  | some pathname => exact callPath_owing _ _

theorem vfsFile_fresh (c : VfsCall) (pathname : Option (List UInt8)) (idx : ℤ) :
    (vfsFile pathname idx).Fresh c := by
  refine ⟨rfl, fun _ => ?_⟩
  cases pathname with
  | none =>
      intro t
      exact .ite rfl rfl
  | some pathname => exact callPath_owing _ _

/-- Every call pairs `vfs_start_op` with `vfs_end_op`, the exits named by `Proper` apart. -/
theorem VfsCall.body_fresh (c : VfsCall) : c.body.Fresh c := by
  cases c with
  | mount fs name => exact vfsMount_fresh _ fs name
  | unmount name => exact vfsUnmount_fresh _ name
  | «open» pathname => exact vfsOpen_fresh _ pathname
  | close handle => exact vfsClose_fresh _ handle
  | seek handle pos => exact vfsSeek_fresh handle pos
  | read handle buffer bufsize => exact vfsTransfer_fresh _ _ handle buffer bufsize
  | write handle buffer datasize => exact vfsTransfer_fresh _ _ handle buffer datasize
  | create pathname size => exact vfsCreate_fresh _ pathname size
  | remove pathname => exact ⟨rfl, fun _ => callPath_owing _ _⟩
  | getfree filesystem => exact ⟨rfl, fun _ => callVolume_owing _ _⟩
  | filecount pathname => exact vfsFilecount_fresh _ pathname
  | file pathname idx => exact vfsFile_fresh _ pathname idx

/-! ## Steps -/

/-- What is known of a thread at all times. -/
def VfsThread.Good (th : VfsThread) : Prop :=
  th.proc.returned = true ∨ (th.passed = true ∧ th.proc.Owing) ∨
    (th.passed = false ∧ th.proc.Fresh th.call)

/-- A thread whose next step is neither the start of an operation nor the end of its call has passed
    `vfs_start_op`. -/
theorem VfsThread.Good.owing {th : VfsThread} (h : th.Good) (hret : th.proc.returned = false)
    (hfresh : ¬ th.proc.Fresh th.call) : th.passed = true ∧ th.proc.Owing := by
  rcases h with h | h | h
  · rw [hret] at h
    cases h
  · exact h
  · exact absurd h.2 hfresh

theorem VfsThread.inProgress_of_owing {t : VfsThread} (hp : t.passed = true)
    (ho : t.proc.Owing) : t.inProgress = true := by
  simp [VfsThread.inProgress, hp, ho.not_returned]

/-- A step inside an operation: nothing is counted, and the call still owes its `vfs_end_op`. -/
theorem VfsThread.keeps {th : VfsThread} {k : VfsProc ℤ} (hp : th.passed = true)
    (ho : th.proc.Owing) (hk : k.Owing) :
    ({ th with proc := k } : VfsThread).Good ∧
      ({ th with proc := k } : VfsThread).inProgress = th.inProgress := by
  refine ⟨Or.inr (Or.inl ⟨hp, hk⟩), ?_⟩
  rw [VfsThread.inProgress_of_owing hp ho]
  exact VfsThread.inProgress_of_owing (t := { th with proc := k }) hp hk

section

omit [DecidableEq ι]

theorem VfsThread.step_start {th th' : VfsThread} {s s' : VfsSystem ι} {k : ℤ → VfsProc ℤ} {r : ℤ}
    (hproc : th.proc = .startOp k) (hgood : th.Good)
    (hseek : ∀ file pos, th.call = .seek file pos → pos < 0 → s.ops.vfsUsable = false)
    (hlo : 0 ≤ s.ops.vfsOps) (hhi : th.inProgress = false → s.ops.vfsOps < intMax)
    (hstep : th.step s r = some (th', s')) :
    th'.Good ∧ Counted s.ops.vfsOps s'.ops.vfsOps th.inProgress th'.inProgress := by
  obtain ⟨hpassed, hfresh⟩ : th.passed = false ∧ th.proc.Fresh th.call := by
    rcases hgood with h | h | h
    · rw [hproc] at h
      cases h
    · rw [hproc] at h
      exact h.2.elim
    · exact h
  have hnot : th.inProgress = false := by simp [VfsThread.inProgress, hpassed]
  rw [hproc] at hfresh
  obtain ⟨hun, hok⟩ := hfresh
  simp only [VfsThread.step, hproc, startOpBody] at hstep
  by_cases hus : s.ops.vfsUsable = true
  · simp only [hus, if_true, decide_true, Option.some.injEq, Prod.mk.injEq] at hstep
    obtain ⟨rfl, rfl⟩ := hstep
    have hkok : (k vfsOk).Owing := by
      refine hok fun file pos hc => ?_
      by_contra hneg
      have := hseek file pos hc (by omega)
      rw [hus] at this
      cases this
    refine ⟨Or.inr (Or.inl ⟨rfl, hkok⟩), ?_⟩
    have hin : VfsThread.inProgress ⟨th.call, true, k vfsOk⟩ = true :=
      VfsThread.inProgress_of_owing rfl hkok
    have hbound := hhi hnot
    unfold Counted
    rw [hin, hnot]
    simp only [if_true, Bool.false_eq_true, if_false, sub_zero]
    exact wrap32_of_nonneg (by omega) (by omega)
  · simp only [hus, if_false, Option.some.injEq, Prod.mk.injEq, Bool.false_eq_true] at hstep
    obtain ⟨rfl, rfl⟩ := hstep
    refine ⟨Or.inl hun, ?_⟩
    have hout : VfsThread.inProgress ⟨th.call, vfsUnusable = vfsOk, k vfsUnusable⟩ = false := by
      simp [VfsThread.inProgress, hun]
    unfold Counted
    rw [hnot, hout]
    simp

theorem VfsThread.step_end {th th' : VfsThread} {s s' : VfsSystem ι} {k : VfsProc ℤ} {r : ℤ}
    (hproc : th.proc = .endOp k) (hgood : th.Good)
    (hlo : th.inProgress = true → 0 < s.ops.vfsOps) (hhi : s.ops.vfsOps ≤ intMax)
    (hstep : th.step s r = some (th', s')) :
    th'.Good ∧ Counted s.ops.vfsOps s'.ops.vfsOps th.inProgress th'.inProgress := by
  obtain ⟨hpassed, hk⟩ := hgood.owing (by rw [hproc]; rfl) (by rw [hproc]; exact id)
  have hin := VfsThread.inProgress_of_owing hpassed hk
  rw [hproc] at hk
  have hpos := hlo hin
  have hbody := endOpBody_eq (s := s.ops) hpos (by omega)
  simp only [VfsThread.step, hproc, hbody, Option.some.injEq, Prod.mk.injEq] at hstep
  obtain ⟨rfl, rfl⟩ := hstep
  refine ⟨Or.inl hk, ?_⟩
  unfold Counted
  rw [hin]
  have hout : ({ th with proc := k } : VfsThread).inProgress = false := by
    simp [VfsThread.inProgress, show k.returned = true from hk]
  rw [hout]
  simp

/-- One step of a call, the exits named by `Proper` apart. -/
theorem VfsThread.step_counted {th th' : VfsThread} {s s' : VfsSystem ι} {r : ℤ}
    (hgood : th.Good)
    (hopen : ∀ file k, th.proc = .verifyOpen file k → s.tables.IsOpen file)
    (hseek : ∀ file pos k, th.call = .seek file pos → th.proc = .startOp k → pos < 0 →
      s.ops.vfsUsable = false)
    (hlo : 0 ≤ s.ops.vfsOps) (hpos : th.inProgress = true → 0 < s.ops.vfsOps)
    (hhi : s.ops.vfsOps ≤ intMax) (hroom : th.inProgress = false → s.ops.vfsOps < intMax)
    (hstep : th.step s r = some (th', s')) :
    th'.Good ∧ s'.threads = s.threads ∧
      Counted s.ops.vfsOps s'.ops.vfsOps th.inProgress th'.inProgress := by
  have hthreads : s'.threads = s.threads := by
    unfold VfsThread.step at hstep
    split at hstep
    all_goals try split at hstep
    all_goals cases hstep; try rfl
  -- a step that neither starts nor ends an operation leaves `vfs_ops` alone
  have hinside : ∀ k : VfsProc ℤ, th.proc.returned = false → ¬ th.proc.Fresh th.call →
      (th.proc.Owing → k.Owing) → th' = { th with proc := k } → s'.ops = s.ops →
      th'.Good ∧ s'.threads = s.threads ∧
        Counted s.ops.vfsOps s'.ops.vfsOps th.inProgress th'.inProgress := by
    intro k hret hfresh hk hth hops
    obtain ⟨hp, ho⟩ := hgood.owing hret hfresh
    obtain ⟨hg, hin⟩ := VfsThread.keeps hp ho (hk ho)
    rw [hth, hops, hin]
    exact ⟨hg, hthreads, Counted.same _ _⟩
  cases hproc : th.proc with
  | done _ => simp [VfsThread.step, hproc] at hstep
  | panic => simp [VfsThread.step, hproc] at hstep
  | startOp k =>
      obtain ⟨hg, hcount⟩ := VfsThread.step_start hproc hgood
        (fun file pos hc => hseek file pos k hc hproc) hlo hroom hstep
      exact ⟨hg, hthreads, hcount⟩
  | endOp k =>
      obtain ⟨hg, hcount⟩ := VfsThread.step_end hproc hgood hpos hhi hstep
      exact ⟨hg, hthreads, hcount⟩
  | semaphoreP sem k =>
      simp only [VfsThread.step, hproc] at hstep
      split at hstep
      · cases hstep
        exact hinside k (by rw [hproc]; rfl) (by rw [hproc]; exact id)
          (by rw [hproc]; exact id) rfl rfl
      · cases hstep
  | semaphoreV sem k =>
      simp only [VfsThread.step, hproc] at hstep
      cases hstep
      exact hinside k (by rw [hproc]; rfl) (by rw [hproc]; exact id) (by rw [hproc]; exact id) rfl rfl
  | load k =>
      simp only [VfsThread.step, hproc] at hstep
      cases hstep
      exact hinside (k s.tables) (by rw [hproc]; rfl) (by rw [hproc]; exact id)
        (by rw [hproc]; exact fun h => h s.tables) rfl rfl
  | store f k =>
      simp only [VfsThread.step, hproc] at hstep
      cases hstep
      exact hinside k (by rw [hproc]; rfl) (by rw [hproc]; exact id) (by rw [hproc]; exact id) rfl rfl
  | verifyOpen file k =>
      simp only [VfsThread.step, hproc] at hstep
      have hfile := (hopen file k hproc).2.2
      simp only [ne_eq, hfile, not_false_eq_true, decide_true] at hstep
      cases hstep
      exact hinside (k true) (by rw [hproc]; rfl) (by rw [hproc]; exact id)
        (by rw [hproc]; exact id) rfl rfl
  | driver call k =>
      simp only [VfsThread.step, hproc] at hstep
      cases hstep
      exact hinside (k r) (by rw [hproc]; rfl) (by rw [hproc]; exact id)
        (by rw [hproc]; exact fun h => h r) rfl rfl

end

/-! ## Runs -/

section

variable [Fintype ι]

omit [DecidableEq ι] [Fintype ι] in
theorem not_inProgress_of_idle {s : VfsSystem ι} {i : ι} (h : s.idle i = true) :
    (s.threads i).any VfsThread.inProgress = false := by
  unfold VfsSystem.idle at h
  cases hth : s.threads i with
  | none => rfl
  | some th =>
      rw [hth] at h
      simp [VfsThread.inProgress, show th.proc.returned = true from h]

omit [DecidableEq ι] in
theorem card_inProgress (s : VfsSystem ι) :
    s.inProgress.card = countWhere (Option.any VfsThread.inProgress) s.threads := rfl

/-- The counter is right, and every thread will keep it so. -/
structure Accounted (s : VfsSystem ι) : Prop where
  count : s.ops.vfsOps = s.inProgress.card
  good : ∀ i, ∀ th ∈ s.threads i, th.Good

omit [DecidableEq ι] in
theorem Accounted.init {s : VfsSystem ι} (h : VfsInit s) : Accounted s where
  count := by
    have hnone : s.inProgress.card = 0 := by
      rw [card_inProgress, countWhere_eq_zero]
      intro i
      rw [h.threads]
      rfl
    rw [h.ops, hnone]
    rfl
  good i th hth := by
    rw [h.threads] at hth
    cases hth

theorem Accounted.step (hcard : (Fintype.card ι : ℤ) ≤ intMax) {s s' : VfsSystem ι}
    {a : VfsLabel ι} (h : Accounted s) (hproper : s.Proper a) (hstep : s.exec a = some s') :
    Accounted s' := by
  cases a with
  | call i c =>
      simp only [VfsSystem.exec] at hstep
      split at hstep
      case isFalse => cases hstep
      next hidle =>
      cases hstep
      have hold := not_inProgress_of_idle hidle
      refine ⟨?_, fun j th hth => ?_⟩
      · have hcount := countWhere_update (Option.any VfsThread.inProgress) s.threads i
          (some ⟨c, false, c.body⟩)
        have hnew : (some ⟨c, false, c.body⟩ : Option VfsThread).any VfsThread.inProgress = false :=
          rfl
        simp only [hold, hnew, Counted, Bool.false_eq_true, if_false, add_zero, sub_zero] at hcount
        rw [card_inProgress]
        exact h.count.trans hcount.symm
      · by_cases hj : j = i
        · simp only [VfsSystem.setThread, hj, Function.update_self, Option.mem_def,
            Option.some.injEq] at hth
          rw [← hth]
          exact Or.inr (Or.inr ⟨rfl, c.body_fresh⟩)
        · simp only [VfsSystem.setThread, Function.update_of_ne hj] at hth
          exact h.good j th hth
  | run i result =>
      simp only [VfsSystem.exec] at hstep
      split at hstep
      case h_2 => cases hstep
      next th hth =>
      obtain ⟨⟨th', s1⟩, hrun, rfl⟩ := Option.map_eq_some_iff.1 hstep
      obtain ⟨hopen, hseek⟩ := hproper th hth
      have hle := countWhere_le (Option.any VfsThread.inProgress) s.threads
      have hthis : (s.threads i).any VfsThread.inProgress = th.inProgress := by rw [hth]; rfl
      have hops := h.count
      rw [card_inProgress] at hops
      obtain ⟨hgood, hthreads, hcount⟩ := VfsThread.step_counted (h.good i th hth) hopen hseek
        (by omega)
        (fun hin => by
          have := countWhere_pos (p := Option.any VfsThread.inProgress) (hthis.trans hin)
          omega)
        (by omega)
        (fun hout => by
          have := countWhere_lt (p := Option.any VfsThread.inProgress) (hthis.trans hout)
          omega) hrun
      have hcount' := countWhere_update (Option.any VfsThread.inProgress) s.threads i (some th')
      refine ⟨?_, fun j u hu => ?_⟩
      · rw [card_inProgress]
        simp only [VfsSystem.setThread, hthreads]
        unfold Counted at hcount hcount'
        rw [hcount', hthis, ← hops]
        exact hcount
      · by_cases hj : j = i
        · simp only [VfsSystem.setThread, hj, Function.update_self, Option.mem_def,
            Option.some.injEq] at hu
          rw [← hu]
          exact hgood
        · simp only [VfsSystem.setThread, Function.update_of_ne hj, hthreads] at hu
          exact h.good j u hu
  | deinit =>
      cases hstep
      exact ⟨h.count, h.good⟩

/-- **The counter of the VFS over whole runs.** Whatever calls the threads make, and however they are
    interleaved, as long as no call takes an exit that forgets `vfs_end_op` the counter is the number
    of calls in progress. So a `vfs_deinit` that finds no call going on does not wait for one. -/
theorem vfsReachable_accounting (hcard : (Fintype.card ι : ℤ) ≤ intMax) {s : VfsSystem ι}
    (h : Reach VfsInit (fun s a s' => s.Proper a ∧ s.exec a = some s') s) :
    s.ops.vfsOps = s.inProgress.card ∧ ((∀ i, s.idle i = true) → ¬ 0 < s.ops.vfsOps) := by
  have hacc : Accounted s := by
    refine Reach.invariant (I := Accounted) (fun s hs => Accounted.init hs) ?_ h
    intro s a s' hs hstep
    exact hs.step hcard hstep.1 hstep.2
  refine ⟨hacc.count, fun hidle => ?_⟩
  have hnone : s.inProgress.card = 0 := by
    rw [card_inProgress, countWhere_eq_zero]
    exact fun i => not_inProgress_of_idle (hidle i)
  rw [hacc.count, hnone]
  simp

end

/-- The state after `vfs_init`, with zeros in the rest of the memory. -/
def vfsInit : VfsSystem ι where
  ops := ⟨0, true⟩
  tables := ⟨fun _ => ⟨none, []⟩, fun _ => ⟨none, 0, 0⟩⟩
  sem _ := 1
  threads _ := none

omit [DecidableEq ι] in
theorem vfsInit_init : VfsInit (vfsInit : VfsSystem ι) where
  ops := rfl
  filesystems _ _ := rfl
  files _ _ := rfl
  sem _ := rfl
  threads _ := rfl

/-- One thread asks for the free space of a volume and is about to lock the mount table. -/
theorem vfsReachable_accounting_getfree :
    ∃ s : VfsSystem (Fin 2),
      Reach VfsInit (fun s a s' => s.Proper a ∧ s.exec a = some s') s ∧ s.inProgress = {0} ∧
      s.ops.vfsOps = s.inProgress.card ∧ ((∀ i, s.idle i = true) → ¬ 0 < s.ops.vfsOps) := by
  have hreach : Reach VfsInit (fun s a s' => s.Proper a ∧ s.exec a = some s')
      (vfsInit : VfsSystem (Fin 2)) := .init vfsInit_init
  have hcalled := hreach.step (VfsLabel.call (0 : Fin 2) (.getfree [97])) ⟨trivial, rfl⟩
  have hpassed := hcalled.step (VfsLabel.run (0 : Fin 2) 0) ⟨fun th hth => by
    cases hth
    exact ⟨nofun, nofun⟩, rfl⟩
  exact ⟨_, hpassed, by decide, vfsReachable_accounting (by decide) hpassed⟩

/-- `vfs_close` on a handle that is not open returns without `vfs_end_op`: no call is going on, and
    yet the counter says 1. -/
theorem vfsReachable_leak :
    ∃ s : VfsSystem (Fin 1), Reach VfsInit (fun s a s' => s.exec a = some s') s ∧
      (∀ i, s.idle i = true) ∧ s.inProgress = ∅ ∧ s.ops.vfsOps = 1 := by
  have hreach : Reach VfsInit (fun s a s' => s.exec a = some s') (vfsInit : VfsSystem (Fin 1)) :=
    .init vfsInit_init
  have hcalled := hreach.step (.call 0 (.close 0)) rfl
  have hstarted := hcalled.step (.run 0 0) rfl
  have hlocked := hstarted.step (.run 0 0) rfl
  have hverified := hlocked.step (.run 0 0) rfl
  have hreturned := hverified.step (.run 0 0) rfl
  exact ⟨_, hreturned, by decide, by decide, by decide⟩

end Kudos
