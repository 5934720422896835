import Mathlib.Algebra.Group.Nat.Defs
import Mathlib.Logic.Function.Basic
import Mathlib.Data.List.Basic
import Mathlib.Data.Int.Notation
import Mathlib.Tactic.Simps.Basic

set_option autoImplicit false

/-! # Threads, the ready list and the sleep queue

The thread table of `kernel/thread.c` with the two modules that chain its rows together: the
scheduler (`kernel/scheduler.c`) keeps the ready list in the global `scheduler_ready_to_run`, the
sleep queue (`kernel/sleepq.c`) keeps one chain per slot of `sleepq_hashtable`, and both thread
their lists through the single `next` field of the table.

Every function below runs with interrupts disabled and the spinlocks of the tables it touches held,
so each is one atomic step. A `KERNEL_ASSERT` that fails is `KernelFault.assertion`; a pointer loop
gets `CONFIG_MAX_THREADS` iterations, which no acyclic chain of the table can exceed, and reports
`KernelFault.endless` beyond that. Of a table row only the three fields that these modules read are
kept (`context`, `user_context`, `pagetable`, `process_id` and `attribs` are never looked at here),
and the timer that `scheduler_schedule` re-arms has no influence on the queues. A `TID_t` is an
`int`, so thread ids are integers, and the table is a function of them. -/

namespace Kudos

def configMaxThreads : ℕ := 32

abbrev configMaxCpus : ℕ := 4

def idleThreadTid : ℤ := 0

/-- `SLEEPQ_HASHTABLE_SIZE`. -/
def sleepqHashtableSize : ℕ := 127

/-- How a kernel function can fail to return. -/
inductive KernelFault where
  /-- A `KERNEL_ASSERT` failed. -/
  | assertion
  /-- A loop over a chain of the thread table did not end. -/
  | endless
  /-- An array was indexed outside of its bounds. -/
  | outOfBounds
  /-- `KERNEL_PANIC`. -/
  | panic
  deriving DecidableEq, Repr

/-- `KERNEL_ASSERT`. -/
def kernelAssert (c : Prop) [Decidable c] : Except KernelFault Unit :=
  if c then .ok () else .error .assertion

/-- `thread_state_t`. -/
inductive ThreadState where
  | free | running | ready | sleeping | nonready | dying
  deriving DecidableEq, Repr

/-- The fields of `thread_table_t` that the queues use. `sleepsOn` is a `uint32_t`, 0 for none. -/
structure ThreadEntry where
  state : ThreadState
  sleepsOn : ℕ
  next : ℤ
  deriving DecidableEq, Repr

/-- The global variables of the thread library, the scheduler and the sleep queue. -/
structure ThreadSystem where
  threadTable : ℤ → ThreadEntry
  /-- `scheduler_ready_to_run.head` -/
  readyHead : ℤ
  /-- `scheduler_ready_to_run.tail` -/
  readyTail : ℤ
  /-- `scheduler_current_thread`, by CPU. -/
  currentThread : ℕ → ℤ
  sleepqHashtable : ℕ → ℤ
  /-- The static `next_tid` of `thread_create`. -/
  nextTid : ℕ

namespace ThreadSystem

/-! ## Reading and writing the fields of a row -/

def state (s : ThreadSystem) (t : ℤ) : ThreadState := (s.threadTable t).state

def sleepsOn (s : ThreadSystem) (t : ℤ) : ℕ := (s.threadTable t).sleepsOn

def next (s : ThreadSystem) (t : ℤ) : ℤ := (s.threadTable t).next

@[simps -fullyApplied readyHead readyTail currentThread nextTid sleepqHashtable]
def setState (s : ThreadSystem) (t : ℤ) (v : ThreadState) : ThreadSystem :=
  { s with threadTable := Function.update s.threadTable t { s.threadTable t with state := v } }

@[simps -fullyApplied readyHead readyTail currentThread nextTid sleepqHashtable]
def setSleepsOn (s : ThreadSystem) (t : ℤ) (v : ℕ) : ThreadSystem :=
  { s with threadTable := Function.update s.threadTable t { s.threadTable t with sleepsOn := v } }

@[simps -fullyApplied readyHead readyTail currentThread nextTid sleepqHashtable]
def setNext (s : ThreadSystem) (t v : ℤ) : ThreadSystem :=
  { s with threadTable := Function.update s.threadTable t { s.threadTable t with next := v } }

@[simps -fullyApplied readyHead readyTail currentThread nextTid sleepqHashtable]
def setSlot (s : ThreadSystem) (h : ℕ) (v : ℤ) : ThreadSystem :=
  { s with sleepqHashtable := Function.update s.sleepqHashtable h v }

@[simps -fullyApplied readyHead readyTail currentThread nextTid sleepqHashtable]
def setNextTid (s : ThreadSystem) (n : ℕ) : ThreadSystem := { s with nextTid := n }

@[simps -fullyApplied readyHead readyTail currentThread nextTid sleepqHashtable]
def setCurrentThread (s : ThreadSystem) (cpu : ℕ) (t : ℤ) : ThreadSystem :=
  { s with currentThread := Function.update s.currentThread cpu t }

section fields

variable (s : ThreadSystem) (t u : ℤ) (h : ℕ)

@[simp] theorem state_setState (v : ThreadState) :
    (s.setState t v).state = Function.update s.state t v := by
  funext u
  by_cases hu : u = t <;> simp [state, setState, hu]

@[simp] theorem sleepsOn_setState (v : ThreadState) : (s.setState t v).sleepsOn = s.sleepsOn := by
  funext u
  by_cases hu : u = t <;> simp [sleepsOn, setState, hu]

@[simp] theorem next_setState (v : ThreadState) : (s.setState t v).next = s.next := by
  funext u
  by_cases hu : u = t <;> simp [next, setState, hu]

@[simp] theorem state_setSleepsOn (v : ℕ) : (s.setSleepsOn t v).state = s.state := by
  funext u
  by_cases hu : u = t <;> simp [state, setSleepsOn, hu]

@[simp] theorem sleepsOn_setSleepsOn (v : ℕ) :
    (s.setSleepsOn t v).sleepsOn = Function.update s.sleepsOn t v := by
  funext u
  by_cases hu : u = t <;> simp [sleepsOn, setSleepsOn, hu]

@[simp] theorem next_setSleepsOn (v : ℕ) : (s.setSleepsOn t v).next = s.next := by
  funext u
  by_cases hu : u = t <;> simp [next, setSleepsOn, hu]

@[simp] theorem state_setNext (v : ℤ) : (s.setNext t v).state = s.state := by
  funext u
  by_cases hu : u = t <;> simp [state, setNext, hu]

@[simp] theorem sleepsOn_setNext (v : ℤ) : (s.setNext t v).sleepsOn = s.sleepsOn := by
  funext u
  by_cases hu : u = t <;> simp [sleepsOn, setNext, hu]

@[simp] theorem next_setNext (v : ℤ) : (s.setNext t v).next = Function.update s.next t v := by
  funext u
  by_cases hu : u = t <;> simp [next, setNext, hu]

@[simp] theorem state_setSlot (v : ℤ) : (s.setSlot h v).state = s.state := rfl
@[simp] theorem sleepsOn_setSlot (v : ℤ) : (s.setSlot h v).sleepsOn = s.sleepsOn := rfl
@[simp] theorem next_setSlot (v : ℤ) : (s.setSlot h v).next = s.next := rfl

@[simp] theorem state_setCurrentThread (c : ℕ) : (s.setCurrentThread c t).state = s.state := rfl
@[simp] theorem sleepsOn_setCurrentThread (c : ℕ) :
    (s.setCurrentThread c t).sleepsOn = s.sleepsOn := rfl
@[simp] theorem next_setCurrentThread (c : ℕ) : (s.setCurrentThread c t).next = s.next := rfl

@[simp] theorem state_setNextTid (n : ℕ) : (s.setNextTid n).state = s.state := rfl
@[simp] theorem sleepsOn_setNextTid (n : ℕ) : (s.setNextTid n).sleepsOn = s.sleepsOn := rfl
@[simp] theorem next_setNextTid (n : ℕ) : (s.setNextTid n).next = s.next := rfl

end fields

end ThreadSystem

open ThreadSystem

/-! ## Initialisation -/

/-- The tables after `thread_table_init`, `scheduler_init` and `sleepq_init`: every row free but the
    idle thread's, which is ready, and every CPU running the idle thread. -/
def threadTableInit : ThreadSystem where
  threadTable t := ⟨if t = idleThreadTid then .ready else .free, 0, -1⟩
  readyHead := -1
  readyTail := -1
  currentThread _ := 0
  sleepqHashtable _ := -1
  nextTid := 0

/-! ## The scheduler -/

/-- `scheduler_add_to_ready_list`: append `t` to the ready list. -/
def schedulerAddToReadyList (s : ThreadSystem) (t : ℤ) : Except KernelFault ThreadSystem := do
  -- the idle thread should never go into the ready list
  kernelAssert (t ≠ idleThreadTid)
  kernelAssert (0 ≤ t ∧ t < configMaxThreads)
  if s.readyTail < 0 then
    return { s.setNext t (-1) with readyHead := t, readyTail := t }
  else
    return { (s.setNext s.readyTail t).setNext t (-1) with readyTail := t }

/-- `scheduler_remove_first_ready`: take the first thread off the ready list; the idle thread if the
    list is empty. The `next` field of the thread that is removed keeps its old value. -/
def schedulerRemoveFirstReady (s : ThreadSystem) : Except KernelFault (ℤ × ThreadSystem) := do
  let t := s.readyHead
  kernelAssert (t ≠ idleThreadTid)
  if 0 ≤ t then
    kernelAssert (s.state t = .ready)
    return (t, { s with
      readyTail := if s.readyTail = t then -1 else s.readyTail
      readyHead := s.next s.readyHead })
  else
    return (idleThreadTid, s)

/-- `scheduler_add_ready`. -/
def schedulerAddReady (s : ThreadSystem) (t : ℤ) : Except KernelFault ThreadSystem := do
  let s ← schedulerAddToReadyList s t
  return s.setState t .ready

/-- The first half of `scheduler_schedule`: put away the thread that runs on the CPU `cpu`. A dying
    thread frees its row, one that waits for a resource falls asleep, any other is ready again. -/
def schedulerPutAway (s : ThreadSystem) (cpu : ℕ) : Except KernelFault ThreadSystem :=
  let current := s.currentThread cpu
  if s.state current = .dying then
    pure (s.setState current .free)
  else if s.sleepsOn current ≠ 0 then
    pure (s.setState current .sleeping)
  else do
    let s ← if current ≠ idleThreadTid then schedulerAddToReadyList s current else pure s
    pure (s.setState current .ready)

/-- `scheduler_schedule` on the CPU `cpu`. -/
def schedulerSchedule (s : ThreadSystem) (cpu : ℕ) : Except KernelFault ThreadSystem := do
  let s ← schedulerPutAway s cpu
  let (t, s) ← schedulerRemoveFirstReady s
  return (s.setState t .running).setCurrentThread cpu t

/-! ## The sleep queue -/

/-- `SLEEPQ_HASH`. -/
def sleepqHash (resource : ℕ) : ℕ := resource % sleepqHashtableSize

/-- The loop of `sleepq_add` that follows a chain to its last thread. -/
def sleepqLast (s : ThreadSystem) : ℕ → ℤ → Except KernelFault ℤ
  | 0, _ => .error .endless
  | fuel + 1, prev => if 0 < s.next prev then sleepqLast s fuel (s.next prev) else .ok prev

/-- `sleepq_add` called by the thread that runs on `cpu`. The field `sleeps_on` has 32 bits, the
    resource's address (a `virtaddr_t`) may have more. -/
def sleepqAdd (s : ThreadSystem) (cpu resource : ℕ) : Except KernelFault ThreadSystem := do
  let hash := sleepqHash resource
  let myTid := s.currentThread cpu
  let s := (s.setNext myTid (-1)).setSleepsOn myTid (resource % 2 ^ 32)
  kernelAssert (myTid ≠ idleThreadTid)
  if s.sleepqHashtable hash ≤ 0 then
    return s.setSlot hash myTid
  else
    let prev ← sleepqLast s configMaxThreads (s.sleepqHashtable hash)
    return s.setNext prev myTid

/-- The search loop of `sleepq_wake` and `sleepq_wake_all`: the first thread from `first` on that
    waits for `resource`, together with the thread before it. -/
def sleepqFind (s : ThreadSystem) (resource : ℕ) :
    ℕ → ℤ → ℤ → Except KernelFault (ℤ × ℤ)
  | 0, _, _ => .error .endless
  | fuel + 1, prev, first =>
      if 0 < first ∧ s.sleepsOn first ≠ resource then
        sleepqFind s resource fuel first (s.next first)
      else .ok (prev, first)

/-- Remove `first`, which stands behind `prev`, from the chain of slot `hash`. -/
def sleepqUnlink (s : ThreadSystem) (hash : ℕ) (prev first : ℤ) : ThreadSystem :=
  if prev ≤ 0 then s.setSlot hash (s.next first) else s.setNext prev (s.next first)

/-- Clear `sleeps_on` of a thread that left its chain and make it ready if it already sleeps. A
    thread woken between its `sleepq_add` and its switch is still running and just goes on. -/
def sleepqRelease (s : ThreadSystem) (t : ℤ) : Except KernelFault ThreadSystem :=
  let s := (s.setSleepsOn t 0).setNext t (-1)
  if s.state t = .sleeping then schedulerAddToReadyList (s.setState t .ready) t else .ok s

/-- `sleepq_wake`: release the first thread that waits for `resource`. -/
def sleepqWake (s : ThreadSystem) (resource : ℕ) : Except KernelFault ThreadSystem := do
  let hash := sleepqHash resource
  let (prev, first) ← sleepqFind s resource configMaxThreads (-1) (s.sleepqHashtable hash)
  if 0 < first then
    sleepqRelease (sleepqUnlink s hash prev first) first
  else
    return s

/-- The outer loop of `sleepq_wake_all`. -/
def sleepqWakeAllLoop (hash resource : ℕ) :
    ℕ → ThreadSystem → ℤ → ℤ → Except KernelFault ThreadSystem
  | 0, _, _, _ => .error .endless
  | fuel + 1, s, prev, first =>
      if 0 < first then do
        let (prev, wake) ← sleepqFind s resource configMaxThreads prev first
        if 0 < wake then
          let s' ← sleepqRelease (sleepqUnlink s hash prev wake) wake
          -- the unlinking store also advances the traversal to the successor
          sleepqWakeAllLoop hash resource fuel s' prev (s.next wake)
        else
          sleepqWakeAllLoop hash resource fuel s prev wake
      else .ok s

/-- `sleepq_wake_all`: release every thread that waits for `resource`. -/
def sleepqWakeAll (s : ThreadSystem) (resource : ℕ) : Except KernelFault ThreadSystem :=
  let hash := sleepqHash resource
  sleepqWakeAllLoop hash resource configMaxThreads s (-1) (s.sleepqHashtable hash)

/-! ## The thread library -/

/-- The search loop of `thread_create`: the first free row from `next_tid` on, cyclically, that is
    not the idle thread's. -/
def threadFindFree (s : ThreadSystem) : Option ℕ :=
  ((List.range configMaxThreads).map (fun i => (i + s.nextTid) % configMaxThreads)).find?
    (fun t => (t : ℤ) ≠ idleThreadTid ∧ s.state t = .free)

/-- `thread_create`: reserve a row and give it nil values. The result is -1 if the table is full. -/
def threadCreate (s : ThreadSystem) : ℤ × ThreadSystem :=
  match threadFindFree s with
  | none => (-1, s)
  | some tid =>
      let s := s.setNextTid ((tid + 1) % configMaxThreads)
      (tid, ((s.setState tid .nonready).setSleepsOn tid 0).setNext tid (-1))

/-- `thread_run`. -/
def threadRun (s : ThreadSystem) (t : ℤ) : Except KernelFault ThreadSystem :=
  schedulerAddReady s t

/-- `thread_finish` up to its switch: the thread that runs on `cpu` marks itself as dying. -/
def threadFinish (s : ThreadSystem) (cpu : ℕ) : ThreadSystem :=
  s.setState (s.currentThread cpu) .dying

end Kudos
