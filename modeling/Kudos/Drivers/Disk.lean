import Kudos.Kernel.Thread
import Kudos.Library.Chain
import Kudos.Library.CInt
import Kudos.Library.Transition
import Mathlib.Data.List.Perm.Subperm

set_option autoImplicit false

/-! # The disk driver of the mips32 kernel

`drivers/mips32/disk.c` and `drivers/disksched.c`. Requests wait in a queue that is linked through their
`next` fields. Threads append to it and start the disk if it is idle; the interrupt handler finishes a
request and starts the next one. What either of them does with the spinlock of the device held is one
step here.

Of a semaphore only the value is modelled; a thread that waits in `semaphore_P` goes on in a step that
needs a positive value. The disk is a device with its own step, `complete`, after which one of its
interrupt flags is set. -/

namespace Kudos.Disk

open CInt Transition

/-! ## Requests and the device -/

/-- `gbd_operation_t`. -/
inductive GbdOperation
  | read
  | write
  deriving DecidableEq

/-- `gbd_request_t`. Pointers are addresses, 0 for NULL. Nothing reads the field `internal`. -/
structure GbdRequest where
  block : BitVec 32
  buf : BitVec 32
  sem : ℕ
  operation : GbdOperation
  next : ℕ
  returnValue : ℤ

/-- `disk_io_area_t`, with the flags of `status` that are used. -/
structure DiskIo where
  rbusy : Bool
  wbusy : Bool
  rirq : Bool
  wirq : Bool
  errors : Bool
  tsector : BitVec 32
  dmaaddr : BitVec 32

/-- What the disk does with a transfer command. It may refuse the sector or the address. -/
def DiskIo.command (rejects : BitVec 32 → BitVec 32 → Bool) (io : DiskIo) : GbdOperation → DiskIo
  | operation =>
      if rejects io.tsector io.dmaaddr then { io with errors := true }
      else
        match operation with
        | .read => { io with rbusy := true }
        | .write => { io with wbusy := true }

/-- How far a call of `disk_submit_request` has come. -/
inductive SubmitState
  | unused
  /-- Before the spinlock; whether `sem_null` is set. -/
  | prepared (semNull : Bool)
  /-- In `semaphore_P`. -/
  | waiting
  | returned (result : ℤ)
  deriving DecidableEq

/-- The memory of the driver, the device, and the calls that are made, one for each request. -/
structure DiskSystem where
  requests : ℕ → GbdRequest
  requestQueue : ℕ
  requestServed : ℕ
  io : DiskIo
  /-- The values of the semaphores. -/
  value : ℕ → ℤ
  calls : ℕ → SubmitState
  /-- The requests that entered `disksched_schedule`, in order. -/
  scheduled : List ℕ
  /-- The requests that were given to the disk, in order. -/
  given : List ℕ
  /-- The requests whose semaphore was raised, once for each `semaphore_V`, in order. -/
  raised : List ℕ

def DiskSystem.setRequest (S : DiskSystem) (req : ℕ) (r : GbdRequest) : DiskSystem :=
  { S with requests := Function.update S.requests req r }

/-! ## The driver -/

section

variable (rejects : BitVec 32 → BitVec 32 → Bool)

/-- The loop of `disksched_schedule`: the last request of the queue. A walk over more requests than
    there are addresses does not end. -/
def lastRequest (requests : ℕ → GbdRequest) : ℕ → ℕ → Except KernelFault ℕ
  | 0, _ => .error .endless
  | n + 1, q => if (requests q).next ≠ 0 then lastRequest requests n (requests q).next else .ok q

/-- `disksched_schedule`. -/
def diskschedSchedule (S : DiskSystem) (request : ℕ) : Except KernelFault DiskSystem :=
  if S.requestQueue ≠ 0 then do
    let q ← lastRequest S.requests (2 ^ 32) S.requestQueue
    return S.setRequest q { S.requests q with next := request }
  else return { S with requestQueue := request }

/-- `disk_next_request`. -/
def diskNextRequest (S : DiskSystem) : Except KernelFault DiskSystem := do
  kernelAssert (¬ (S.io.rbusy ∨ S.io.wbusy))
  kernelAssert (S.requestServed = 0)
  let req := S.requestQueue
  if req = 0 then return S
  else
    let r := S.requests req
    let S := { S with requestQueue := r.next }
    let S := S.setRequest req { r with next := 0 }
    let S := { S with requestServed := req }
    let io := { S.io with tsector := r.block, dmaaddr := r.buf }
    let io := io.command rejects r.operation
    let S := { S with io := io, given := S.given ++ [req] }
    if S.io.errors then .error .panic else return S

/-- `semaphore_V` for a request. -/
def semaphoreRaise (S : DiskSystem) (req : ℕ) : Except KernelFault DiskSystem :=
  let sem := (S.requests req).sem
  if sem = 0 then .error .outOfBounds
  else return { S with
    value := Function.update S.value sem (wrap32 (S.value sem + 1)), raised := S.raised ++ [req] }

/-- `disk_interrupt_handle`. -/
def diskInterruptHandle (S : DiskSystem) : Except KernelFault DiskSystem :=
  if ¬ (S.io.rirq ∨ S.io.wirq) then return S
  else do
    let S := { S with io := { S.io with wirq := false, rirq := false } }
    kernelAssert (S.requestServed ≠ 0)
    let req := S.requestServed
    let S := S.setRequest req { S.requests req with returnValue := 0 }
    let S ← semaphoreRaise S req
    diskNextRequest rejects { S with requestServed := 0 }

/-- `disk_read_block`, `disk_write_block` and `disk_submit_request` up to the spinlock. The caller has
    filled in `block`, `buf` and `sem`; `created` is the result of `semaphore_create`, if it is called. -/
def diskSubmitPrepare (S : DiskSystem) (req : ℕ) (block buf : BitVec 32) (operation : GbdOperation)
    (sem : ℕ) (created : ℕ) : DiskSystem :=
  if sem = 0 then
    let S := S.setRequest req ⟨block, buf, created, operation, 0, -1⟩
    if created = 0 then { S with calls := Function.update S.calls req (.returned 0) }
    else { S with value := Function.update S.value created 0,
                  calls := Function.update S.calls req (.prepared true) }
  else
    let S := S.setRequest req ⟨block, buf, sem, operation, 0, -1⟩
    { S with calls := Function.update S.calls req (.prepared false) }

/-- What `disk_submit_request` does with the spinlock held, and the return of an asynchronous call. -/
def diskSubmitLocked (S : DiskSystem) (req : ℕ) (semNull : Bool) : Except KernelFault DiskSystem := do
  let S := { S with
    scheduled := S.scheduled ++ [req],
    calls := Function.update S.calls req (if semNull then .waiting else .returned 1) }
  let S ← diskschedSchedule S req
  if S.requestServed = 0 then diskNextRequest rejects S else return S

/-- The end of a synchronous `disk_submit_request`, after it got past `semaphore_P`. -/
def diskSubmitFinish (S : DiskSystem) (req : ℕ) : DiskSystem :=
  let r := S.requests req
  let S := { S with value := Function.update S.value r.sem (S.value r.sem - 1) }
  let S := S.setRequest req { r with sem := 0 }
  { S with calls := Function.update S.calls req (.returned (if r.returnValue = 0 then 1 else 0)) }

end

/-! ## Runs -/

/-- The atomic steps. -/
inductive DiskOp
  | prepare (req : ℕ) (block buf : BitVec 32) (operation : GbdOperation) (sem created : ℕ)
  | locked (req : ℕ)
  | finish (req : ℕ)
  /-- The disk has done a transfer and raises its interrupt. -/
  | complete
  /-- An interrupt, of the disk or of a device that shares its line. -/
  | interrupt
  /-- Whatever others do with a semaphore. -/
  | other (sem : ℕ) (value : ℤ)

/-- A call that has created a semaphore for itself. -/
def DiskSystem.Private (S : DiskSystem) (req : ℕ) : Prop :=
  S.calls req = .prepared true ∨ S.calls req = .waiting

/-- A request whose semaphore is still to be used. -/
def DiskSystem.Pending (S : DiskSystem) (req : ℕ) : Prop :=
  S.Private req ∨ S.calls req = .prepared false ∨ (req ∈ S.scheduled ∧ req ∉ S.raised)

/-- The calls have different request objects. A new semaphore is one that nobody uses, and nobody else
    knows the semaphore of a synchronous call. -/
def DiskOp.Enabled (S : DiskSystem) : DiskOp → Prop
  | prepare req _ _ _ sem created =>
      req ≠ 0 ∧ req < 2 ^ 32 ∧ S.calls req = .unused ∧
        (sem = 0 → created ≠ 0 → ∀ r, S.Pending r → (S.requests r).sem ≠ created) ∧
        (sem ≠ 0 → ∀ r, S.Private r → (S.requests r).sem ≠ sem)
  | locked req => ∃ semNull, S.calls req = .prepared semNull
  | finish req => S.calls req = .waiting ∧ 0 < S.value (S.requests req).sem
  | complete => S.io.rbusy ∨ S.io.wbusy
  | interrupt => True
  | other sem _ => ∀ r, S.Private r → (S.requests r).sem ≠ sem

def DiskOp.exec (rejects : BitVec 32 → BitVec 32 → Bool) (S : DiskSystem) :
    DiskOp → Except KernelFault DiskSystem
  | prepare req block buf operation sem created =>
      .ok (diskSubmitPrepare S req block buf operation sem created)
  | locked req => diskSubmitLocked rejects S req (S.calls req = .prepared true)
  | finish req => .ok (diskSubmitFinish S req)
  | complete =>
      if S.io.rbusy then .ok { S with io := { S.io with rbusy := false, rirq := true } }
      else .ok { S with io := { S.io with wbusy := false, wirq := true } }
  | interrupt => diskInterruptHandle rejects S
  | other sem value => .ok { S with value := Function.update S.value sem value }

def DiskStep (rejects : BitVec 32 → BitVec 32 → Bool) (S : DiskSystem) (op : DiskOp) (S' : DiskSystem) :
    Prop :=
  op.Enabled S ∧ op.exec rejects S = .ok S'

/-- The driver after `disk_init`. -/
structure DiskInit (S : DiskSystem) : Prop where
  requestQueue : S.requestQueue = 0
  requestServed : S.requestServed = 0
  idle : S.io.rbusy = false ∧ S.io.wbusy = false ∧ S.io.rirq = false ∧ S.io.wirq = false
  calls : ∀ req, S.calls req = .unused
  scheduled : S.scheduled = []
  given : S.given = []
  raised : S.raised = []

abbrev DiskReachable (rejects : BitVec 32 → BitVec 32 → Bool) : DiskSystem → Prop :=
  Reach DiskInit (DiskStep rejects)

/-! ## The invariant -/

/-- The link of a request. -/
def DiskSystem.next (S : DiskSystem) (req : ℕ) : ℕ := (S.requests req).next

/-- The flags of the device. -/
def DiskIo.flags (io : DiskIo) : List Bool := [io.rbusy, io.wbusy, io.rirq, io.wirq]

/-- The calls and their requests: a request has its result, and the semaphore of a synchronous call its
    value, as long as it has not been raised and from then on. -/
structure CallsOk (S : DiskSystem) : Prop where
  called : ∀ r ∈ S.scheduled, S.calls r ≠ .unused ∧ ∀ b, S.calls r ≠ .prepared b
  waiting : ∀ r, S.calls r = .waiting → r ∈ S.scheduled
  raised : ∀ r ∈ S.raised, r ∈ S.scheduled
  address : ∀ r, S.calls r ≠ .unused → r ≠ 0 ∧ r < 2 ^ 32
  prepared : ∀ r b, S.calls r = .prepared b → S.next r = 0 ∧ (S.requests r).returnValue = -1
  result : ∀ r ∈ S.scheduled, (S.requests r).returnValue = if r ∈ S.raised then 0 else -1
  sem : ∀ r, S.Pending r → (S.requests r).sem ≠ 0
  unshared : ∀ r, S.Private r → ∀ r', r' ≠ r → S.Pending r' → (S.requests r').sem ≠ (S.requests r).sem
  once : ∀ r, S.Private r → S.value (S.requests r).sem = if r ∈ S.raised then 1 else 0

/-- The queue of the driver is `queue`: the requests were given to the disk in the order in which they
    were scheduled, and all but the last one that was given are finished. -/
structure DiskShape (S : DiskSystem) (queue : List ℕ) : Prop where
  linked : Chain.Linked S.next S.requestQueue queue 0
  order : S.given ++ queue = S.scheduled
  nodup : S.scheduled.Nodup
  served : S.given = S.raised ++ if S.requestServed = 0 then [] else [S.requestServed]
  device : S.io.flags.count true = if S.requestServed = 0 then 0 else 1
  registers : S.requestServed ≠ 0 → S.io.tsector = (S.requests S.requestServed).block ∧
    S.io.dmaaddr = (S.requests S.requestServed).buf
  calls : CallsOk S

/-- Between two steps the disk is idle only if nothing waits. -/
structure DiskInvariant (S : DiskSystem) (queue : List ℕ) : Prop extends DiskShape S queue where
  idle : S.requestServed = 0 → queue = []

section

variable {rejects : BitVec 32 → BitVec 32 → Bool} {S S' : DiskSystem} {queue : List ℕ} {req : ℕ}

theorem DiskIo.idle_iff (io : DiskIo) : io.flags.count true = 0 ↔
    io.rbusy = false ∧ io.wbusy = false ∧ io.rirq = false ∧ io.wirq = false := by
  simp [DiskIo.flags, List.count_eq_zero]

theorem diskInit_invariant (h : DiskInit S) : DiskInvariant S [] := by
  have hpending : ∀ r, ¬ S.Pending r := by
    rintro r ((hr | hr) | hr | ⟨hr, -⟩)
    · cases (h.calls r).symm.trans hr
    · cases (h.calls r).symm.trans hr
    · cases (h.calls r).symm.trans hr
    · rw [h.scheduled] at hr
      exact absurd hr List.not_mem_nil
  have hnone : ∀ r, r ∉ S.scheduled := by
    rw [h.scheduled]
    exact fun r => List.not_mem_nil
  have hcalls : CallsOk S := by
    refine ⟨?_, ?_, ?_, ?_, ?_, ?_, ?_, ?_, ?_⟩
    · exact fun r hr => absurd hr (hnone r)
    · intro r hr
      cases (h.calls r).symm.trans hr
    · rw [h.raised]
      exact fun r hr => absurd hr List.not_mem_nil
    · exact fun r hr => absurd (h.calls r) hr
    · intro r b hr
      cases (h.calls r).symm.trans hr
    · exact fun r hr => absurd hr (hnone r)
    · exact fun r hr => absurd hr (hpending r)
    · exact fun r hr => absurd (.inl hr) (hpending r)
    · exact fun r hr => absurd (.inl hr) (hpending r)
  refine ⟨⟨h.requestQueue, ?_, ?_, ?_, ?_, fun h0 => absurd h.requestServed h0, hcalls⟩, fun _ => rfl⟩
  · rw [h.given, h.scheduled, List.append_nil]
  · rw [h.scheduled]
    exact List.nodup_nil
  · rw [h.given, h.raised, h.requestServed]
    rfl
  · rw [h.requestServed, if_pos rfl, DiskIo.idle_iff]
    exact h.idle

/-- Links do not matter for the calls, except for those that are not in the queue yet. -/
theorem CallsOk.relink (h : CallsOk S) (hcalls : S'.calls = S.calls) (hscheduled : S'.scheduled = S.scheduled)
    (hraised : S'.raised = S.raised) (hvalue : S'.value = S.value)
    (hrequests : ∀ r, ∃ p, S'.requests r = { S.requests r with next := p })
    (hprepared : ∀ r b, S.calls r = .prepared b → S'.next r = S.next r) : CallsOk S' := by
  have hsem : ∀ r, (S'.requests r).sem = (S.requests r).sem := by
    intro r
    obtain ⟨p, hp⟩ := hrequests r
    rw [hp]
  have hresult : ∀ r, (S'.requests r).returnValue = (S.requests r).returnValue := by
    intro r
    obtain ⟨p, hp⟩ := hrequests r
    rw [hp]
  have hprivate : ∀ r, S'.Private r ↔ S.Private r := by
    intro r
    unfold DiskSystem.Private
    rw [hcalls]
  have hpending : ∀ r, S'.Pending r ↔ S.Pending r := by
    intro r
    unfold DiskSystem.Pending
    rw [hprivate, hcalls, hscheduled, hraised]
  refine ⟨?_, ?_, ?_, ?_, ?_, ?_, ?_, ?_, ?_⟩
  · rw [hcalls, hscheduled]
    exact h.called
  · rw [hcalls, hscheduled]
    exact h.waiting
  · rw [hraised, hscheduled]
    exact h.raised
  · rw [hcalls]
    exact h.address
  · intro r b hr
    rw [hcalls] at hr
    rw [hprepared r b hr, hresult]
    exact h.prepared r b hr
  · intro r hr
    rw [hscheduled] at hr
    rw [hresult, hraised]
    exact h.result r hr
  · intro r hr
    rw [hsem]
    exact h.sem r ((hpending r).1 hr)
  · intro r hr r' hne hr'
    rw [hsem, hsem]
    exact h.unshared r ((hprivate r).1 hr) r' hne ((hpending r').1 hr')
  · intro r hr
    rw [hsem, hvalue, hraised]
    exact h.once r ((hprivate r).1 hr)

/-- What the invariant says about the call of one request alone. -/
structure CallOk (S : DiskSystem) (r : ℕ) : Prop where
  called : r ∈ S.scheduled → S.calls r ≠ .unused ∧ ∀ b, S.calls r ≠ .prepared b
  waiting : S.calls r = .waiting → r ∈ S.scheduled
  raised : r ∈ S.raised → r ∈ S.scheduled
  address : S.calls r ≠ .unused → r ≠ 0 ∧ r < 2 ^ 32
  prepared : ∀ b, S.calls r = .prepared b → S.next r = 0 ∧ (S.requests r).returnValue = -1
  result : r ∈ S.scheduled → (S.requests r).returnValue = if r ∈ S.raised then 0 else -1
  sem : S.Pending r → (S.requests r).sem ≠ 0
  once : S.Private r → S.value (S.requests r).sem = if r ∈ S.raised then 1 else 0

/-- A step for the request `req` leaves the other requests and their calls as they were. -/
structure OthersKept (req : ℕ) (S S' : DiskSystem) : Prop where
  calls : ∀ r, r ≠ req → S'.calls r = S.calls r
  requests : ∀ r, r ≠ req → S'.requests r = S.requests r
  scheduled : ∀ r, r ≠ req → (r ∈ S'.scheduled ↔ r ∈ S.scheduled)
  raised : ∀ r, r ≠ req → (r ∈ S'.raised ↔ r ∈ S.raised)

theorem OthersKept.private_iff (h : OthersKept req S S') {r : ℕ} (hr : r ≠ req) :
    S'.Private r ↔ S.Private r := by
  unfold DiskSystem.Private
  rw [h.calls r hr]

theorem OthersKept.pending_iff (h : OthersKept req S S') {r : ℕ} (hr : r ≠ req) :
    S'.Pending r ↔ S.Pending r := by
  unfold DiskSystem.Pending
  rw [h.private_iff hr, h.calls r hr, h.scheduled r hr, h.raised r hr]

/-- What has to be checked after a step for `req`: its own call, and that it shares no semaphore with
    the synchronous calls of the others. -/
theorem CallsOk.step (h : CallsOk S) (hkept : OthersKept req S S') (hreq : CallOk S' req)
    (hprivate : S'.Private req → ∀ r, r ≠ req → S.Pending r → (S.requests r).sem ≠ (S'.requests req).sem)
    (hpending : S'.Pending req → ∀ r, r ≠ req → S.Private r → (S.requests r).sem ≠ (S'.requests req).sem)
    (hvalue : ∀ r, r ≠ req → S.Private r → S'.value (S.requests r).sem = S.value (S.requests r).sem) :
    CallsOk S' := by
  have hall : ∀ r, CallOk S' r := by
    intro r
    by_cases heq : r = req
    · exact heq ▸ hreq
    · have hnext : S'.next r = S.next r := congrArg GbdRequest.next (hkept.requests r heq)
      refine ⟨?_, ?_, ?_, ?_, ?_, ?_, ?_, ?_⟩
      · rw [hkept.scheduled r heq, hkept.calls r heq]
        exact h.called r
      · rw [hkept.scheduled r heq, hkept.calls r heq]
        exact h.waiting r
      · rw [hkept.scheduled r heq, hkept.raised r heq]
        exact h.raised r
      · rw [hkept.calls r heq]
        exact h.address r
      · rw [hkept.calls r heq, hkept.requests r heq, hnext]
        exact h.prepared r
      · rw [hkept.scheduled r heq, hkept.requests r heq]
        simp only [hkept.raised r heq]
        exact h.result r
      · rw [hkept.pending_iff heq, hkept.requests r heq]
        exact h.sem r
      · intro hr
        have hr := (hkept.private_iff heq).1 hr
        rw [hkept.requests r heq, hvalue r heq hr]
        simp only [hkept.raised r heq]
        exact h.once r hr
  refine ⟨fun r => (hall r).called, fun r => (hall r).waiting, fun r => (hall r).raised,
    fun r => (hall r).address, fun r => (hall r).prepared, fun r => (hall r).result,
    fun r => (hall r).sem, ?_, fun r => (hall r).once⟩
  intro r hr r' hne hr'
  by_cases heq : r = req
  · have heq' : r' ≠ req := fun he => hne (he.trans heq.symm)
    rw [heq] at hr ⊢
    rw [hkept.requests r' heq']
    exact hprivate hr r' heq' ((hkept.pending_iff heq').1 hr')
  · have hr := (hkept.private_iff heq).1 hr
    rw [hkept.requests r heq]
    by_cases heq' : r' = req
    · rw [heq'] at hr' ⊢
      exact (hpending hr' r heq hr).symm
    · rw [hkept.requests r' heq']
      exact h.unshared r hr r' hne ((hkept.pending_iff heq').1 hr')

/-! ## The queue -/

theorem DiskShape.mem_queue (h : DiskShape S queue) {r : ℕ} (hr : r ∈ queue) : r ∈ S.scheduled := by
  rw [← h.order]
  exact List.mem_append_right _ hr

theorem DiskShape.mem_given (h : DiskShape S queue) {r : ℕ} (hr : r ∈ S.given) : r ∈ S.scheduled := by
  rw [← h.order]
  exact List.mem_append_left _ hr

theorem DiskShape.ne_zero (h : DiskShape S queue) {r : ℕ} (hr : r ∈ S.scheduled) :
    r ≠ 0 ∧ r < 2 ^ 32 := h.calls.address r (h.calls.called r hr).1

theorem DiskShape.served_not_raised (h : DiskShape S queue) (h0 : S.requestServed ≠ 0) :
    S.requestServed ∈ S.scheduled ∧ S.requestServed ∉ S.raised := by
  have hnodup := h.nodup
  have hserved := h.served
  rw [if_neg h0] at hserved
  constructor
  · refine h.mem_given ?_
    rw [hserved]
    exact List.mem_append_right _ (List.mem_singleton_self _)
  · rw [← h.order, hserved, List.append_assoc] at hnodup
    intro hraised
    exact (List.nodup_append.1 hnodup).2.2 _ hraised _
      (List.mem_append_left _ (List.mem_singleton_self _)) rfl

/-- There are not more requests than addresses. -/
theorem length_lt_of_nodup {l : List ℕ} (hnodup : l.Nodup) (hl : ∀ r ∈ l, r ≠ 0 ∧ r < 2 ^ 32) :
    l.length < 2 ^ 32 := by
  have hsubset : 0 :: l ⊆ List.range (2 ^ 32) := by
    intro r hr
    rw [List.mem_range]
    rcases List.mem_cons.1 hr with rfl | hr
    · decide
    · exact (hl r hr).2
  have hnodup0 : (0 :: l).Nodup := List.nodup_cons.2 ⟨fun h0 => (hl 0 h0).1 rfl, hnodup⟩
  have := (List.subperm_of_subset hnodup0 hsubset).length_le
  rwa [List.length_cons, List.length_range] at this

/-- The walk to the end of the queue. -/
theorem lastRequest_ok {requests : ℕ → GbdRequest} {q p n : ℕ} {l : List ℕ}
    (hl : Chain.Linked (fun r => (requests r).next) q (l ++ [p]) 0) (hne : ∀ r ∈ l ++ [p], r ≠ 0)
    (hn : l.length < n) : lastRequest requests n q = .ok p := by
  induction l generalizing q n with
  | nil =>
      obtain ⟨rfl, hend⟩ := hl
      obtain ⟨n, rfl⟩ : ∃ m, n = m + 1 := ⟨n - 1, by rw [List.length_nil] at hn; omega⟩
      have hzero : (requests q).next = 0 := hend
      rw [lastRequest, if_neg (not_not.2 hzero)]
  | cons x xs ih =>
      obtain ⟨rfl, hrest⟩ := hl
      rw [List.length_cons] at hn
      obtain ⟨n, rfl⟩ : ∃ m, n = m + 1 := ⟨n - 1, by omega⟩
      have hnext : (requests q).next ≠ 0 := by
        have hstart : (requests q).next = (xs ++ [p]).headD 0 := Chain.Linked.start hrest
        rw [hstart]
        cases xs with
        | nil => exact hne p (by simp)
        | cons y ys => exact hne y (by simp)
      rw [lastRequest, if_pos hnext]
      exact ih hrest (fun r hr => hne r (List.mem_cons_of_mem _ hr)) (by omega)

/-- `disksched_schedule` appends to the queue. It changes a link of the queue at most. -/
theorem diskschedSchedule_ok (hl : Chain.Linked S.next S.requestQueue queue 0)
    (hne : ∀ r ∈ queue, r ≠ 0) (hnodup : queue.Nodup) (hlen : queue.length < 2 ^ 32)
    (hreq : req ∉ queue) (hnext : S.next req = 0) : ∃ requests q,
      diskschedSchedule S req = .ok { S with requests := requests, requestQueue := q } ∧
      Chain.Linked (fun r => (requests r).next) q (queue ++ [req]) 0 ∧
      (∀ r ∉ queue, requests r = S.requests r) ∧
      ∀ r, ∃ p, requests r = { S.requests r with next := p } := by
  rcases List.eq_nil_or_concat queue with rfl | ⟨l, p, rfl⟩
  · have hzero : S.requestQueue = 0 := hl
    refine ⟨S.requests, req, ?_, ⟨rfl, hnext⟩, fun r _ => rfl, fun r => ⟨_, rfl⟩⟩
    unfold diskschedSchedule
    rw [if_neg (not_not.2 hzero)]
    rfl
  · rw [List.concat_eq_append] at *
    have hstart : S.requestQueue ≠ 0 := by
      rw [Chain.Linked.start hl]
      cases l with
      | nil => exact hne p (by simp)
      | cons y ys => exact hne y (by simp)
    rw [List.length_append, List.length_singleton] at hlen
    have hlast := lastRequest_ok hl hne (n := 2 ^ 32) (by omega)
    refine ⟨Function.update S.requests p { S.requests p with next := req }, S.requestQueue, ?_, ?_, ?_, ?_⟩
    · unfold diskschedSchedule
      rw [if_pos hstart, hlast]
      rfl
    · have hp : ∀ r ∈ l, r ≠ p := by
        intro r hr
        exact (List.nodup_append.1 hnodup).2.2 r hr p (List.mem_singleton_self p)
      have hreqp : req ≠ p := by
        rintro rfl
        exact hreq (List.mem_append_right _ (List.mem_singleton_self _))
      refine Chain.Linked.append_node hl ?_ ?_ ?_
      · rw [Function.update_self]
      · rw [Function.update_of_ne hreqp]
        exact hnext
      · intro r hr
        rw [Function.update_of_ne (hp r hr)]
        rfl
    · intro r hr
      refine Function.update_of_ne ?_ ..
      rintro rfl
      exact hr (by simp)
    · intro r
      by_cases hr : r = p
      · exact ⟨req, by rw [hr, Function.update_self]⟩
      · exact ⟨_, by rw [Function.update_of_ne hr]⟩

/-! ## Steps -/

/-- The request `x` at the front of the queue is taken, and the device has got its command. -/
def DiskSystem.start (S : DiskSystem) (x : ℕ) (io : DiskIo) : DiskSystem :=
  { S with
    requests := Function.update S.requests x { S.requests x with next := 0 },
    requestQueue := (S.requests x).next, requestServed := x, io := io, given := S.given ++ [x] }

theorem DiskShape.start {x : ℕ} {xs : List ℕ} (h : DiskShape S (x :: xs))
    (hserved : S.requestServed = 0) {io : DiskIo} (hio : io.flags.count true = 1)
    (hregisters : io.tsector = (S.requests x).block ∧ io.dmaaddr = (S.requests x).buf) :
    DiskInvariant (S.start x io) xs := by
  have hmem : x ∈ S.scheduled := h.mem_queue List.mem_cons_self
  have hx0 : x ≠ 0 := (h.ne_zero hmem).1
  have hother : ∀ r, r ≠ x → (S.start x io).requests r = S.requests r := by
    intro r hr
    exact Function.update_of_ne hr ..
  refine ⟨⟨?_, ?_, h.nodup, ?_, ?_, ?_, ?_⟩, fun h0 => absurd h0 hx0⟩
  · refine Chain.Linked.congr h.linked.2 ?_
    intro r hr
    have hnodup := h.nodup
    rw [← h.order] at hnodup
    have hne : r ≠ x := by
      rintro rfl
      exact (List.nodup_cons.1 (List.nodup_append.1 hnodup).2.1).1 hr
    unfold DiskSystem.next
    rw [hother r hne]
  · show (S.given ++ [x]) ++ xs = S.scheduled
    rw [List.append_assoc]
    exact h.order
  · show S.given ++ [x] = S.raised ++ if x = 0 then [] else [x]
    rw [if_neg hx0, h.served, if_pos hserved, List.append_nil]
  · show io.flags.count true = if x = 0 then 0 else 1
    rw [if_neg hx0, hio]
  · intro _
    show io.tsector = (Function.update S.requests x _ x).block ∧
      io.dmaaddr = (Function.update S.requests x _ x).buf
    rw [Function.update_self]
    exact hregisters
  · refine h.calls.relink rfl rfl rfl rfl ?_ ?_
    · intro r
      by_cases hr : r = x
      · exact ⟨0, by rw [hr]; exact Function.update_self ..⟩
      · exact ⟨_, hother r hr⟩
    · intro r b hr
      have hne : r ≠ x := by
        rintro rfl
        exact (h.calls.called r hmem).2 b hr
      unfold DiskSystem.next
      rw [hother r hne]

/-- The disk reports an error when it is given the request `req`. -/
def DiskSystem.Refuses (rejects : BitVec 32 → BitVec 32 → Bool) (S : DiskSystem) (req : ℕ) : Prop :=
  req ≠ 0 ∧ (S.io.errors = true ∨ rejects (S.requests req).block (S.requests req).buf = true)

/-- The disk has got the command of `request_served`, if there is one, and has not done it yet. -/
def DiskSystem.Commanded (S : DiskSystem) : Prop :=
  S.io.flags = if S.requestServed = 0 then [false, false, false, false]
    else
      match (S.requests S.requestServed).operation with
      | .read => [true, false, false, false]
      | .write => [false, true, false, false]

/-- The request at the front of the queue, if there is one, has become `request_served`, and the rest is
    as it was. -/
structure NextStarted (S S' : DiskSystem) : Prop where
  served : S'.requestServed = S.requestQueue
  given : S'.given = S.given ++ if S.requestQueue = 0 then [] else [S.requestQueue]
  commanded : S'.Commanded
  result : ∀ r, (S'.requests r).returnValue = (S.requests r).returnValue
  raised : S'.raised = S.raised
  scheduled : S'.scheduled = S.scheduled
  value : S'.value = S.value
  calls : S'.calls = S.calls

/-- The command for the request `x`, which an idle disk gets. -/
theorem DiskIo.command_cases (rejects : BitVec 32 → BitVec 32 → Bool) (io : DiskIo)
    (operation : GbdOperation) (hidle : io.flags.count true = 0) :
    ((io.command rejects operation).errors = true ∧
        (io.errors = true ∨ rejects io.tsector io.dmaaddr = true)) ∨
      (io.command rejects operation).errors = false ∧
        (io.command rejects operation).tsector = io.tsector ∧
        (io.command rejects operation).dmaaddr = io.dmaaddr ∧
        (io.command rejects operation).flags =
          match operation with
          | .read => [true, false, false, false]
          | .write => [false, true, false, false] := by
  obtain ⟨hrb, hwb, hri, hwi⟩ := (DiskIo.idle_iff io).1 hidle
  unfold DiskIo.command
  by_cases hrejects : rejects io.tsector io.dmaaddr = true
  · rw [if_pos hrejects]
    exact .inl ⟨rfl, .inr hrejects⟩
  · rw [if_neg hrejects]
    by_cases herrors : io.errors = true
    · refine .inl ⟨?_, .inl herrors⟩
      cases operation with
      | read => exact herrors
      | write => exact herrors
    · rw [Bool.not_eq_true] at herrors
      refine .inr ?_
      cases operation with
      | read => exact ⟨herrors, rfl, rfl, by simp [DiskIo.flags, hwb, hri, hwi]⟩
      | write => exact ⟨herrors, rfl, rfl, by simp [DiskIo.flags, hrb, hri, hwi]⟩

/-- What `disk_next_request` does, unless the disk reports an error. -/
theorem diskNextRequest_ok (rejects : BitVec 32 → BitVec 32 → Bool) (h : DiskShape S queue)
    (hserved : S.requestServed = 0) :
    (diskNextRequest rejects S = .error .panic ∧ S.Refuses rejects S.requestQueue) ∨
      ∃ S' queue', diskNextRequest rejects S = .ok S' ∧ DiskInvariant S' queue' ∧ NextStarted S S' := by
  have hidle := h.device
  rw [if_pos hserved] at hidle
  obtain ⟨hrb, hwb, hri, hwi⟩ := (DiskIo.idle_iff S.io).1 hidle
  cases queue with
  | nil =>
      have hzero : S.requestQueue = 0 := h.linked
      refine .inr ⟨S, [], ?_, ⟨h, fun _ => rfl⟩,
        ⟨hserved.trans hzero.symm, ?_, ?_, fun _ => rfl, rfl, rfl, rfl, rfl⟩⟩
      · simp [diskNextRequest, kernelAssert, hrb, hwb, hserved, hzero, bind, Except.bind, pure,
          Except.pure]
      · rw [if_pos hzero, List.append_nil]
      · simp [DiskSystem.Commanded, DiskIo.flags, hserved, hrb, hwb, hri, hwi]
  | cons x xs =>
      obtain ⟨hx, hrest⟩ := h.linked
      have hx0 : x ≠ 0 := (h.ne_zero (h.mem_queue List.mem_cons_self)).1
      let io := DiskIo.command rejects
        { S.io with tsector := (S.requests x).block, dmaaddr := (S.requests x).buf }
        (S.requests x).operation
      have hnext : diskNextRequest rejects S
          = if io.errors then .error .panic else .ok (S.start x io) := by
        simp [diskNextRequest, kernelAssert, hrb, hwb, hserved, hx, hx0, bind, Except.bind, pure,
          Except.pure, DiskSystem.start, DiskSystem.setRequest, io]
      rw [hnext]
      rcases DiskIo.command_cases rejects
          { S.io with tsector := (S.requests x).block, dmaaddr := (S.requests x).buf }
          (S.requests x).operation hidle with
        ⟨herrors, hrefuses⟩ | ⟨haccepts, hsector, haddr, hflags⟩
      · refine .inl ⟨if_pos herrors, ?_⟩
        rw [hx]
        exact ⟨hx0, hrefuses⟩
      · -- the disk was idle and has accepted the command
        have hflags' : io.flags.count true = 1 := by
          rw [hflags]
          cases (S.requests x).operation with
          | read => rfl
          | write => rfl
        have haccepts' : ¬ io.errors = true := by
          rw [haccepts]
          exact Bool.false_ne_true
        refine .inr ⟨S.start x io, xs, if_neg haccepts', h.start hserved hflags' ⟨hsector, haddr⟩,
          ⟨hx.symm, ?_, ?_, fun r => ?_, rfl, rfl, rfl, rfl⟩⟩
        · rw [hx, if_neg hx0]
          rfl
        · show io.flags = if x = 0 then _ else
            match ((Function.update S.requests x { S.requests x with next := 0 }) x).operation with
            | .read => [true, false, false, false]
            | .write => [false, true, false, false]
          rw [if_neg hx0, Function.update_self]
          exact hflags
        · show ((Function.update S.requests x { S.requests x with next := 0 }) r).returnValue = _
          by_cases hr : r = x
          · rw [hr, Function.update_self]
          · rw [Function.update_of_ne hr]

/-- A call that has got the spinlock. -/
theorem CallsOk.schedule (h : CallsOk S) {b : Bool} (hreq : S.calls req = .prepared b) :
    CallsOk { S with
      scheduled := S.scheduled ++ [req],
      calls := Function.update S.calls req (if b then .waiting else .returned 1) } := by
  set T : DiskSystem := { S with
    scheduled := S.scheduled ++ [req],
    calls := Function.update S.calls req (if b then .waiting else .returned 1) } with hT
  have hnew : req ∉ S.raised := fun hraised => (h.called req (h.raised req hraised)).2 b hreq
  have hself : T.calls req = if b then .waiting else .returned 1 := Function.update_self ..
  have hkept : OthersKept req S T := by
    refine ⟨fun r hr => Function.update_of_ne hr .., fun _ _ => rfl, ?_, fun _ _ => Iff.rfl⟩
    intro r hr
    show r ∈ S.scheduled ++ [req] ↔ _
    simp [hr]
  have hmem : req ∈ T.scheduled := List.mem_append_right _ (List.mem_singleton_self req)
  have hpending : S.Pending req := by
    cases b with
    | true => exact .inl (.inl hreq)
    | false => exact .inr (.inl hreq)
  have hprivate : T.Private req → S.Private req := by
    unfold DiskSystem.Private
    rw [hself, hreq]
    cases b <;> simp
  have hself' : CallOk T req := by
    refine ⟨fun _ => ?_, fun _ => hmem, fun _ => hmem, fun _ => ?_, ?_, fun _ => ?_, ?_, ?_⟩
    · rw [hself]
      cases b <;> simp
    · exact h.address req (by rw [hreq]; simp)
    · intro b' hr
      rw [hself] at hr
      cases b <;> cases hr
    · show (S.requests req).returnValue = if req ∈ S.raised then 0 else -1
      rw [if_neg hnew]
      exact (h.prepared req b hreq).2
    · exact fun _ => h.sem req hpending
    · exact fun hr => h.once req (hprivate hr)
  refine h.step hkept hself' ?_ ?_ fun _ _ _ => rfl
  · exact fun hr r hne hr' => h.unshared req (hprivate hr) r hne hr'
  · exact fun _ r hne hr => (h.unshared r hr req (Ne.symm hne) hpending).symm

/-- The queue after `disksched_schedule`. -/
theorem DiskShape.schedule (h : DiskShape S queue) {b : Bool} (hreq : S.calls req = .prepared b) :
    ∃ T, diskschedSchedule { S with
        scheduled := S.scheduled ++ [req],
        calls := Function.update S.calls req (if b then .waiting else .returned 1) } req = .ok T ∧
      DiskShape T (queue ++ [req]) ∧ T.raised = S.raised ∧ T.requestServed = S.requestServed ∧
      T.scheduled = S.scheduled ++ [req] ∧ T.given = S.given ∧ T.io = S.io ∧
      ∀ r, ∃ p, T.requests r = { S.requests r with next := p } := by
  have hnew : req ∉ S.scheduled := fun hmem => (h.calls.called req hmem).2 b hreq
  have hqueue : req ∉ queue := fun hmem => hnew (h.mem_queue hmem)
  have hnodup := h.nodup
  rw [← h.order] at hnodup
  have hnodupq := (List.nodup_append.1 hnodup).2.1
  have hlen := length_lt_of_nodup hnodupq fun r hr => h.ne_zero (h.mem_queue hr)
  have hcalls := h.calls.schedule hreq
  obtain ⟨requests, q, hok, hlinked, houtside, hrequests⟩ :=
    diskschedSchedule_ok (S := { S with
      scheduled := S.scheduled ++ [req],
      calls := Function.update S.calls req (if b then .waiting else .returned 1) })
      h.linked (fun r hr => (h.ne_zero (h.mem_queue hr)).1) hnodupq hlen hqueue
      (h.calls.prepared req b hreq).1
  refine ⟨_, hok, ⟨hlinked, ?_, ?_, h.served, h.device, ?_, ?_⟩, rfl, rfl, rfl, rfl, rfl, hrequests⟩
  · show S.given ++ (queue ++ [req]) = S.scheduled ++ [req]
    rw [← List.append_assoc, h.order]
  · show (S.scheduled ++ [req]).Nodup
    rw [List.nodup_append]
    refine ⟨h.nodup, List.nodup_singleton req, ?_⟩
    rintro r hr r' hr' rfl
    rw [List.mem_singleton] at hr'
    exact hnew (hr' ▸ hr)
  · intro h0
    obtain ⟨p, hp⟩ := hrequests S.requestServed
    show S.io.tsector = (requests S.requestServed).block ∧
      S.io.dmaaddr = (requests S.requestServed).buf
    rw [hp]
    exact h.registers h0
  · refine hcalls.relink rfl rfl rfl rfl hrequests ?_
    intro r b' hr
    have hout : r ∉ queue := by
      intro hmem
      refine (hcalls.called r ?_).2 b' hr
      exact List.mem_append_left _ (h.mem_queue hmem)
    show (requests r).next = (S.requests r).next
    rw [houtside r hout]

/-- What the submission of `req` does with the spinlock held: the request is scheduled, and a disk that
    is idle is given it at once. -/
structure Submits (S : DiskSystem) (req : ℕ) (S' : DiskSystem) : Prop where
  scheduled : S'.scheduled = S.scheduled ++ [req]
  raised : S'.raised = S.raised
  idle : S.requestServed = 0 → S'.requestServed = req ∧ S'.given = S.given ++ [req] ∧ S'.Commanded
  busy : S.requestServed ≠ 0 → S'.requestServed = S.requestServed ∧ S'.given = S.given ∧ S'.io = S.io

theorem diskSubmitLocked_ok (h : DiskInvariant S queue) {b : Bool} (hreq : S.calls req = .prepared b) :
    (diskSubmitLocked rejects S req b = .error .panic ∧ S.requestServed = 0 ∧ S.Refuses rejects req) ∨
      ∃ S' queue', diskSubmitLocked rejects S req b = .ok S' ∧ DiskInvariant S' queue' ∧
        Submits S req S' := by
  obtain ⟨T, hok, hT, hraised, hserved, hscheduled, hgiven, hio, hrequests⟩ := h.toDiskShape.schedule hreq
  have hstep : diskSubmitLocked rejects S req b
      = if T.requestServed = 0 then diskNextRequest rejects T else .ok T := by
    unfold diskSubmitLocked
    simp only [bind, Except.bind]
    rw [hok]
    rfl
  rw [hstep]
  by_cases hidle : T.requestServed = 0
  · rw [if_pos hidle]
    have hidle' : S.requestServed = 0 := hserved.symm.trans hidle
    -- nothing else waits
    have hfront : T.requestQueue = req := by
      have hlinked := hT.linked
      rw [h.idle hidle'] at hlinked
      exact hlinked.1
    have hreq0 : req ≠ 0 := (hT.ne_zero (hT.mem_queue (List.mem_append_right _ List.mem_cons_self))).1
    rcases diskNextRequest_ok rejects hT hidle with ⟨hpanic, hrefuses⟩ | ⟨S', queue', hnext, hS', hstarted⟩
    · refine .inl ⟨hpanic, hidle', hreq0, ?_⟩
      obtain ⟨p, hp⟩ := hrequests req
      rw [hfront] at hrefuses
      have hrefuses' := hrefuses.2
      rw [hp, hio] at hrefuses'
      exact hrefuses'
    · refine .inr ⟨S', queue', hnext, hS', hstarted.scheduled.trans hscheduled,
        hstarted.raised.trans hraised, fun _ => ⟨hstarted.served.trans hfront, ?_, hstarted.commanded⟩,
        fun hbusy => absurd hidle' hbusy⟩
      rw [hstarted.given, hfront, if_neg hreq0, hgiven]
  · rw [if_neg hidle]
    exact .inr ⟨T, queue ++ [req], rfl, ⟨hT, fun h0 => absurd h0 hidle⟩, hscheduled, hraised,
      fun h0 => absurd (hserved.trans h0) hidle, fun _ => ⟨hserved, hgiven, hio⟩⟩

/-- A request is finished. -/
theorem CallsOk.raise (h : CallsOk S) (hmem : req ∈ S.scheduled) (hnew : req ∉ S.raised) {io : DiskIo} :
    CallsOk { S with
      requests := Function.update S.requests req { S.requests req with returnValue := 0 },
      requestServed := 0, io := io,
      value := Function.update S.value (S.requests req).sem
        (wrap32 (S.value (S.requests req).sem + 1)),
      raised := S.raised ++ [req] } := by
  set T : DiskSystem := { S with
      requests := Function.update S.requests req { S.requests req with returnValue := 0 },
      requestServed := 0, io := io,
      value := Function.update S.value (S.requests req).sem
        (wrap32 (S.value (S.requests req).sem + 1)),
      raised := S.raised ++ [req] } with hT
  have hself : T.requests req = { S.requests req with returnValue := 0 } := Function.update_self ..
  have hkept : OthersKept req S T := by
    refine ⟨fun _ _ => rfl, fun r hr => Function.update_of_ne hr .., fun _ _ => Iff.rfl, ?_⟩
    intro r hr
    show r ∈ S.raised ++ [req] ↔ _
    simp [hr]
  have hraised : req ∈ T.raised := List.mem_append_right _ (List.mem_singleton_self req)
  have hpending : S.Pending req := .inr (.inr ⟨hmem, hnew⟩)
  have hreq : CallOk T req := by
    refine ⟨h.called req, h.waiting req, fun _ => hmem, h.address req, ?_, fun _ => ?_, fun _ => ?_, ?_⟩
    · exact fun b hr => absurd hr ((h.called req hmem).2 b)
    · rw [hself, if_pos hraised]
    · rw [hself]
      exact h.sem req hpending
    · intro hr
      rw [hself, if_pos hraised]
      show Function.update S.value (S.requests req).sem _ (S.requests req).sem = 1
      rw [Function.update_self, h.once req hr, if_neg hnew]
      decide
  have hother : ∀ r, r ≠ req → S.Private r → (S.requests r).sem ≠ (S.requests req).sem :=
    fun r hne hr => (h.unshared r hr req (Ne.symm hne) hpending).symm
  refine h.step hkept hreq ?_ ?_ ?_
  · rw [hself]
    exact fun hr r hne hr' => h.unshared req hr r hne hr'
  · rw [hself]
    exact fun _ r hne hr => hother r hne hr
  · exact fun r hne hr => Function.update_of_ne (hother r hne hr) ..

/-- What the interrupt of a disk that has done its transfer does: `request_served` has its result, its
    semaphore is raised once, and the next request of the queue is started. -/
structure Completes (S S' : DiskSystem) : Prop where
  served : S.requestServed ≠ 0
  result : ∀ r, (S'.requests r).returnValue
    = if r = S.requestServed then 0 else (S.requests r).returnValue
  raised : S'.raised = S.raised ++ [S.requestServed]
  value : S'.value = Function.update S.value (S.requests S.requestServed).sem
    (wrap32 (S.value (S.requests S.requestServed).sem + 1))
  next : S'.requestServed = S.requestQueue
  given : S'.given = S.given ++ if S.requestQueue = 0 then [] else [S.requestQueue]
  commanded : S'.Commanded
  scheduled : S'.scheduled = S.scheduled
  calls : S'.calls = S.calls

/-- An interrupt is of another device, or a request is finished by it. -/
theorem diskInterruptHandle_ok (h : DiskInvariant S queue) :
    (diskInterruptHandle rejects S = .ok S ∧ ¬ (S.io.rirq = true ∨ S.io.wirq = true)) ∨
      (S.io.rirq = true ∨ S.io.wirq = true) ∧
        ((diskInterruptHandle rejects S = .error .panic ∧ S.Refuses rejects S.requestQueue) ∨
          ∃ S' queue', diskInterruptHandle rejects S = .ok S' ∧ DiskInvariant S' queue' ∧
            Completes S S') := by
  by_cases hirq : S.io.rirq = true ∨ S.io.wirq = true
  · have hdevice := h.device
    have hserved : S.requestServed ≠ 0 := by
      intro h0
      rw [if_pos h0, DiskIo.idle_iff] at hdevice
      rw [hdevice.2.2.1, hdevice.2.2.2] at hirq
      simp at hirq
    rw [if_neg hserved] at hdevice
    obtain ⟨hmem, hnew⟩ := h.served_not_raised hserved
    have hsem : (S.requests S.requestServed).sem ≠ 0 := h.calls.sem _ (.inr (.inr ⟨hmem, hnew⟩))
    set req := S.requestServed with hreq
    have hT : DiskShape { S with
        requests := Function.update S.requests req { S.requests req with returnValue := 0 },
        requestServed := 0, io := { S.io with wirq := false, rirq := false },
        value := Function.update S.value (S.requests req).sem
          (wrap32 (S.value (S.requests req).sem + 1)),
        raised := S.raised ++ [req] } queue := by
      refine ⟨h.linked.congr ?_, h.order, h.nodup, ?_, ?_, fun h0 => absurd rfl h0,
        h.calls.raise hmem hnew⟩
      · intro r _
        show (Function.update S.requests req _ r).next = (S.requests r).next
        by_cases hr : r = req
        · rw [hr, Function.update_self]
        · rw [Function.update_of_ne hr]
      · show S.given = (S.raised ++ [req]) ++ []
        rw [List.append_nil, h.served, if_neg hserved]
      · -- one flag was set, and it was one of the two that are reset
        show [S.io.rbusy, S.io.wbusy, false, false].count true = 0
        revert hdevice hirq
        unfold DiskIo.flags
        cases S.io.rbusy <;> cases S.io.wbusy <;> cases S.io.rirq <;> cases S.io.wirq <;> decide
    have hstep : diskInterruptHandle rejects S = diskNextRequest rejects { S with
        requests := Function.update S.requests req { S.requests req with returnValue := 0 },
        requestServed := 0, io := { S.io with wirq := false, rirq := false },
        value := Function.update S.value (S.requests req).sem
          (wrap32 (S.value (S.requests req).sem + 1)),
        raised := S.raised ++ [req] } := by
      simp [diskInterruptHandle, hirq, kernelAssert, ← hreq, hserved, semaphoreRaise,
        DiskSystem.setRequest, hsem, bind, Except.bind, pure, Except.pure]
    rw [hstep]
    have hsame : ∀ r, Function.update S.requests req { S.requests req with returnValue := 0 } r
        = { S.requests r with
            returnValue := if r = req then 0 else (S.requests r).returnValue } := by
      intro r
      by_cases hr : r = req
      · rw [hr, Function.update_self, if_pos rfl]
      · rw [Function.update_of_ne hr, if_neg hr]
    refine .inr ⟨hirq, ?_⟩
    rcases diskNextRequest_ok rejects hT rfl with
      ⟨hpanic, hne, hrefuses⟩ | ⟨S', queue', hnext, hS', hstarted⟩
    · refine .inl ⟨hpanic, hne, ?_⟩
      simp only [hsame] at hrefuses
      exact hrefuses
    · refine .inr ⟨S', queue', hnext, hS', hserved, fun r => ?_, hstarted.raised, hstarted.value,
        hstarted.served, hstarted.given, hstarted.commanded, hstarted.scheduled, hstarted.calls⟩
      rw [hstarted.result r]
      simp only [hsame, ← hreq]
  · exact .inl ⟨if_pos hirq, hirq⟩

/-- A new call. What its request is filled with does not concern the others. -/
theorem CallsOk.prepare (h : CallsOk S) (hunused : S.calls req = .unused) (h0 : req ≠ 0 ∧ req < 2 ^ 32)
    {R : GbdRequest} {st : SubmitState} {value : ℕ → ℤ} (hnext : R.next = 0) (hresult : R.returnValue = -1)
    (hst : st = .returned 0 ∨ (st = .prepared false ∧ R.sem ≠ 0) ∨
      (st = .prepared true ∧ R.sem ≠ 0 ∧ value R.sem = 0 ∧ ∀ r, S.Pending r → (S.requests r).sem ≠ R.sem))
    (hvalue : ∀ r, S.Private r → value (S.requests r).sem = S.value (S.requests r).sem)
    (hshared : st ≠ .returned 0 → ∀ r, S.Private r → (S.requests r).sem ≠ R.sem) :
    CallsOk { S with
      requests := Function.update S.requests req R, value := value,
      calls := Function.update S.calls req st } := by
  set T : DiskSystem := { S with
      requests := Function.update S.requests req R, value := value,
      calls := Function.update S.calls req st } with hT
  have hnew : req ∉ S.scheduled := fun hmem => (h.called req hmem).1 hunused
  have hunraised : req ∉ S.raised := fun hraised => hnew (h.raised req hraised)
  have hself : T.requests req = R := Function.update_self ..
  have hcall : T.calls req = st := Function.update_self ..
  have hkept : OthersKept req S T :=
    ⟨fun r hr => Function.update_of_ne hr .., fun r hr => Function.update_of_ne hr ..,
      fun _ _ => Iff.rfl, fun _ _ => Iff.rfl⟩
  have hpendingReq : T.Pending req → st ≠ .returned 0 ∧ R.sem ≠ 0 := by
    rintro ((hr | hr) | hr | ⟨hr, -⟩)
    · rw [hcall] at hr
      rcases hst with hst | ⟨hst, hsem⟩ | ⟨hst, hsem, -⟩
      · cases hst.symm.trans hr
      · cases hst.symm.trans hr
      · exact ⟨by rw [hst]; simp, hsem⟩
    · rw [hcall] at hr
      rcases hst with hst | ⟨hst, -⟩ | ⟨hst, -⟩
      · cases hst.symm.trans hr
      · cases hst.symm.trans hr
      · cases hst.symm.trans hr
    · rw [hcall] at hr
      rcases hst with hst | ⟨hst, hsem⟩ | ⟨hst, -⟩
      · cases hst.symm.trans hr
      · exact ⟨by rw [hst]; simp, hsem⟩
      · cases hst.symm.trans hr
    · exact absurd hr hnew
  have hprivateReq : T.Private req → value R.sem = 0 ∧ ∀ r, S.Pending r → (S.requests r).sem ≠ R.sem := by
    unfold DiskSystem.Private
    rw [hcall]
    rcases hst with hst | ⟨hst, -⟩ | ⟨hst, -, hfresh⟩
    · rw [hst]
      simp
    · rw [hst]
      simp
    · exact fun _ => hfresh
  have hreq : CallOk T req := by
    refine ⟨fun hr => absurd hr hnew, ?_, fun hr => absurd hr hunraised, fun _ => h0, fun b _ => ?_,
      fun hr => absurd hr hnew, fun hr => ?_, fun hr => ?_⟩
    · rw [hcall]
      rcases hst with hst | ⟨hst, -⟩ | ⟨hst, -⟩
      · rw [hst]
        simp
      · rw [hst]
        simp
      · rw [hst]
        simp
    · unfold DiskSystem.next
      rw [hself]
      exact ⟨hnext, hresult⟩
    · rw [hself]
      exact (hpendingReq hr).2
    · rw [hself, if_neg hunraised]
      exact (hprivateReq hr).1
  refine h.step hkept hreq ?_ ?_ fun r _ hr => hvalue r hr
  · rw [hself]
    exact fun hr r _ hr' => (hprivateReq hr).2 r hr'
  · rw [hself]
    exact fun hr r _ hr' => hshared (hpendingReq hr).1 r hr'

theorem diskSubmitPrepare_ok (h : DiskInvariant S queue) {block buf : BitVec 32}
    {operation : GbdOperation} {sem created : ℕ}
    (hen : (DiskOp.prepare req block buf operation sem created).Enabled S) :
    DiskInvariant (diskSubmitPrepare S req block buf operation sem created) queue ∧
      (diskSubmitPrepare S req block buf operation sem created).raised = S.raised := by
  obtain ⟨h0, hlt, hunused, hcreated, hsem⟩ := hen
  have hnew : req ∉ queue := fun hmem => (h.calls.called req (h.mem_queue hmem)).1 hunused
  -- the queue does not contain the request
  have hkeep : ∀ {R : GbdRequest} {st : SubmitState} {value : ℕ → ℤ},
      CallsOk { S with requests := Function.update S.requests req R, value := value,
                       calls := Function.update S.calls req st } →
      DiskInvariant { S with requests := Function.update S.requests req R, value := value,
                             calls := Function.update S.calls req st } queue := by
    intro R st value hcalls
    refine ⟨⟨h.linked.congr ?_, h.order, h.nodup, h.served, h.device, ?_, hcalls⟩, h.idle⟩
    · intro r hr
      show (Function.update S.requests req R r).next = (S.requests r).next
      rw [Function.update_of_ne]
      rintro rfl
      exact hnew hr
    · intro hserved
      have hne : S.requestServed ≠ req := by
        intro heq
        exact (h.calls.called _ (h.served_not_raised hserved).1).1 (heq ▸ hunused)
      show S.io.tsector = (Function.update S.requests req R S.requestServed).block ∧
        S.io.dmaaddr = (Function.update S.requests req R S.requestServed).buf
      rw [Function.update_of_ne hne]
      exact h.registers hserved
  unfold diskSubmitPrepare
  split
  · next hzero =>
      simp only
      split
      · exact ⟨hkeep (h.calls.prepare hunused ⟨h0, hlt⟩ rfl rfl (.inl rfl) (fun r _ => rfl)
          fun hne => absurd rfl hne), rfl⟩
      · next hc =>
          have hfresh := hcreated hzero hc
          refine ⟨hkeep (h.calls.prepare hunused ⟨h0, hlt⟩ rfl rfl ?_ ?_ ?_), rfl⟩
          · exact .inr (.inr ⟨rfl, hc, Function.update_self .., hfresh⟩)
          · exact fun r hr => Function.update_of_ne (hfresh r (.inl hr)) ..
          · exact fun _ r hr => hfresh r (.inl hr)
  · next hsem0 =>
      exact ⟨hkeep (h.calls.prepare hunused ⟨h0, hlt⟩ rfl rfl (.inr (.inl ⟨rfl, hsem0⟩))
        (fun r _ => rfl) fun _ => hsem hsem0), rfl⟩

/-- A synchronous call gets past `semaphore_P` only after its request was finished, and returns 1. -/
theorem diskSubmitFinish_ok (h : DiskInvariant S queue) (hen : (DiskOp.finish req).Enabled S) :
    DiskInvariant (diskSubmitFinish S req) queue ∧ (diskSubmitFinish S req).raised = S.raised ∧
      req ∈ S.raised ∧ (diskSubmitFinish S req).calls req = .returned 1 := by
  obtain ⟨hwaiting, hpos⟩ := hen
  have hprivate : S.Private req := .inr hwaiting
  have hmem := h.calls.waiting req hwaiting
  have hraised : req ∈ S.raised := by
    by_contra hnot
    rw [h.calls.once req hprivate, if_neg hnot] at hpos
    exact absurd hpos (by decide)
  have hresult : (S.requests req).returnValue = 0 := by
    rw [h.calls.result req hmem, if_pos hraised]
  have hcall : (diskSubmitFinish S req).calls req = .returned 1 := by
    show Function.update S.calls req _ req = _
    rw [Function.update_self, if_pos hresult]
  refine ⟨?_, rfl, hraised, hcall⟩
  set T := diskSubmitFinish S req with hT
  have hself : T.requests req = { S.requests req with sem := 0 } := Function.update_self ..
  have hkept : OthersKept req S T :=
    ⟨fun r hr => Function.update_of_ne hr .., fun r hr => Function.update_of_ne hr ..,
      fun _ _ => Iff.rfl, fun _ _ => Iff.rfl⟩
  have hnotPending : ¬ T.Pending req := by
    unfold DiskSystem.Pending DiskSystem.Private
    rw [hcall]
    simp [hT, diskSubmitFinish, DiskSystem.setRequest, hraised]
  have hreq : CallOk T req := by
    refine ⟨fun _ => ?_, fun _ => hmem, fun _ => hmem, fun _ => ?_, fun b hr => ?_, fun _ => ?_,
      fun hr => absurd hr hnotPending, fun hr => absurd (.inl hr) hnotPending⟩
    · rw [hcall]
      simp
    · exact h.calls.address req (by rw [hwaiting]; simp)
    · rw [hcall] at hr
      cases hr
    · rw [hself]
      exact h.calls.result req hmem
  refine ⟨⟨h.linked.congr ?_, h.order, h.nodup, h.served, h.device, ?_, ?_⟩, h.idle⟩
  · intro r _
    unfold DiskSystem.next
    by_cases hr : r = req
    · rw [hr, hself]
    · rw [hkept.requests r hr]
  · intro hserved
    have hne : S.requestServed ≠ req := by
      intro heq
      exact (h.served_not_raised hserved).2 (heq ▸ hraised)
    show S.io.tsector = (T.requests S.requestServed).block ∧
      S.io.dmaaddr = (T.requests S.requestServed).buf
    rw [hkept.requests _ hne]
    exact h.registers hserved
  · refine h.calls.step hkept hreq ?_ ?_ ?_
    · exact fun hr => absurd (.inl hr) hnotPending
    · exact fun hr => absurd hr hnotPending
    · intro r hne hr
      have hsem := h.calls.unshared r hr req (Ne.symm hne) (.inl hprivate)
      exact Function.update_of_ne (Ne.symm hsem) ..

/-- The disk finishes its transfer. -/
theorem complete_ok (h : DiskInvariant S queue) (hen : DiskOp.complete.Enabled S) :
    ∃ io, DiskOp.complete.exec rejects S = .ok { S with io := io } ∧
      DiskInvariant { S with io := io } queue := by
  have hdevice := h.device
  have hkeep : ∀ io : DiskIo, io.flags.count true = S.io.flags.count true →
      io.tsector = S.io.tsector → io.dmaaddr = S.io.dmaaddr →
      DiskInvariant { S with io := io } queue := by
    intro io hio hsector haddr
    refine ⟨⟨h.linked, h.order, h.nodup, h.served, hio.trans hdevice, ?_, ?_⟩, h.idle⟩
    · intro hserved
      show io.tsector = _ ∧ io.dmaaddr = _
      rw [hsector, haddr]
      exact h.registers hserved
    · exact h.calls.relink rfl rfl rfl rfl (fun r => ⟨_, rfl⟩) fun r b _ => rfl
  have hone : S.io.flags.count true ≤ 1 := by
    rw [hdevice]
    split
    · decide
    · decide
  unfold DiskIo.flags at hkeep hone
  by_cases hrb : S.io.rbusy = true
  · refine ⟨_, if_pos hrb, hkeep _ ?_ rfl rfl⟩
    show [false, S.io.wbusy, true, S.io.wirq].count true = _
    revert hrb hone
    cases S.io.rbusy <;> cases S.io.wbusy <;> cases S.io.rirq <;> cases S.io.wirq <;> decide
  · have hwb : S.io.wbusy = true := hen.resolve_left hrb
    refine ⟨_, if_neg hrb, hkeep _ ?_ rfl rfl⟩
    show [S.io.rbusy, false, S.io.rirq, true].count true = _
    revert hwb hone
    cases S.io.rbusy <;> cases S.io.wbusy <;> cases S.io.rirq <;> cases S.io.wirq <;> decide

/-- Others use other semaphores than those of the synchronous calls. -/
theorem other_ok (h : DiskInvariant S queue) {sem : ℕ} {value : ℤ}
    (hen : (DiskOp.other sem value).Enabled S) :
    DiskInvariant { S with value := Function.update S.value sem value } queue := by
  refine ⟨⟨h.linked, h.order, h.nodup, h.served, h.device, h.registers, ?_⟩, h.idle⟩
  refine ⟨h.calls.called, h.calls.waiting, h.calls.raised, h.calls.address, h.calls.prepared,
    h.calls.result, h.calls.sem, h.calls.unshared, ?_⟩
  intro r hr
  show Function.update S.value sem value (S.requests r).sem = _
  rw [Function.update_of_ne (hen r hr)]
  exact h.calls.once r hr

/-- A step that raises the semaphore of a request: the interrupt of the disk, which was at work on it. -/
def Raises (S : DiskSystem) (op : DiskOp) (S' : DiskSystem) : Prop :=
  op = .interrupt ∧ (S.io.rirq = true ∨ S.io.wirq = true) ∧ S.requestServed ≠ 0 ∧
    S'.raised = S.raised ++ [S.requestServed] ∧
    S'.value = Function.update S.value (S.requests S.requestServed).sem
      (wrap32 (S.value (S.requests S.requestServed).sem + 1))

/-- The request that a step gives to the disk, or 0. -/
def DiskOp.gives (S : DiskSystem) : DiskOp → ℕ
  | locked req => if S.requestServed = 0 then req else 0
  | interrupt => if S.io.rirq ∨ S.io.wirq then S.requestQueue else 0
  | prepare .. | finish _ | complete | other .. => 0

/-- What a step can do. -/
structure DiskOp.Effect (S : DiskSystem) (op : DiskOp) (S' : DiskSystem) : Prop where
  raised : S'.raised = S.raised ∨ Raises S op S'
  interrupt : op = .interrupt → if S.io.rirq ∨ S.io.wirq then Completes S S' else S' = S
  locked : ∀ req, op = .locked req → Submits S req S'

theorem DiskOp.exec_cases (rejects : BitVec 32 → BitVec 32 → Bool) (h : DiskInvariant S queue)
    {op : DiskOp} (hen : op.Enabled S) :
    (op.exec rejects S = .error .panic ∧ S.Refuses rejects (op.gives S)) ∨
      ∃ S' queue', op.exec rejects S = .ok S' ∧ DiskInvariant S' queue' ∧ op.Effect S S' := by
  cases op with
  | prepare req block buf operation sem created =>
      obtain ⟨hS', hraised⟩ := diskSubmitPrepare_ok h hen
      exact .inr ⟨_, queue, rfl, hS', .inl hraised, nofun, nofun⟩
  | locked req =>
      obtain ⟨b, hb⟩ := hen
      have hnull : decide (S.calls req = .prepared true) = b := by
        rw [hb]
        cases b <;> simp
      have hexec : (DiskOp.locked req).exec rejects S = diskSubmitLocked rejects S req b := by
        show diskSubmitLocked rejects S req (decide (S.calls req = .prepared true)) = _
        rw [hnull]
      rw [hexec]
      rcases diskSubmitLocked_ok h hb with ⟨hpanic, hidle, hrefuses⟩ | ⟨S', queue', hok, hS', hsubmits⟩
      · refine .inl ⟨hpanic, ?_⟩
        show S.Refuses rejects (if S.requestServed = 0 then req else 0)
        rw [if_pos hidle]
        exact hrefuses
      · refine .inr ⟨S', queue', hok, hS', .inl hsubmits.raised, nofun, ?_⟩
        rintro r hr
        cases hr
        exact hsubmits
  | finish req =>
      obtain ⟨hS', hraised, -⟩ := diskSubmitFinish_ok h hen
      exact .inr ⟨_, queue, rfl, hS', .inl hraised, nofun, nofun⟩
  | complete =>
      obtain ⟨io, hok, hS'⟩ := complete_ok h hen
      exact .inr ⟨_, queue, hok, hS', .inl rfl, nofun, nofun⟩
  | interrupt =>
      rcases diskInterruptHandle_ok h with
        ⟨hok, hirq⟩ | ⟨hirq, ⟨hpanic, hrefuses⟩ | ⟨S', queue', hok, hS', hdone⟩⟩
      · refine .inr ⟨S, queue, hok, h, .inl rfl, fun _ => ?_, nofun⟩
        rw [if_neg hirq]
      · refine .inl ⟨hpanic, ?_⟩
        show S.Refuses rejects (if S.io.rirq ∨ S.io.wirq then S.requestQueue else 0)
        rw [if_pos hirq]
        exact hrefuses
      · refine .inr ⟨S', queue', hok, hS', ?_, fun _ => ?_, nofun⟩
        · exact .inr ⟨rfl, hirq, hdone.served, hdone.raised, hdone.value⟩
        · rw [if_pos hirq]
          exact hdone
  | other sem value => exact .inr ⟨_, queue, rfl, other_ok h hen, .inl rfl, nofun, nofun⟩

theorem DiskReachable.invariant (h : DiskReachable rejects S) : ∃ queue, DiskInvariant S queue := by
  refine Reach.invariant (I := fun S => ∃ queue, DiskInvariant S queue) ?_ ?_ h
  · exact fun S hS => ⟨[], diskInit_invariant hS⟩
  · rintro S op S' ⟨queue, hinv⟩ ⟨hen, hok⟩
    rcases DiskOp.exec_cases rejects hinv hen with ⟨hpanic, -⟩ | ⟨T, queue', hT, hinv', -⟩
    · cases hok.symm.trans hpanic
    · cases hok.symm.trans hT
      exact ⟨queue', hinv'⟩

/-- In every state of the driver the requests that the disk was given and those in the queue are, in
    this order, the requests that were scheduled, each of them once. All that were given are finished,
    except for `request_served`, and the disk is at work, or has its interrupt pending, if and only if
    there is one, with its block and its buffer; if there is none, the queue is empty. An interrupt of
    the disk finishes the request that the disk was at work on and starts the next one, and no other step
    finishes a request; a submission starts its request if the disk is idle. The only failure of a step
    is an error that the disk reports for the request it is given. -/
theorem diskReachable_law (rejects : BitVec 32 → BitVec 32 → Bool) (S : DiskSystem)
    (h : DiskReachable rejects S) :
    (∃ queue, Chain.Linked S.next S.requestQueue queue 0 ∧ S.given ++ queue = S.scheduled) ∧
    S.scheduled.Nodup ∧
    S.given = (S.raised ++ if S.requestServed = 0 then [] else [S.requestServed]) ∧
    S.io.flags.count true = (if S.requestServed = 0 then 0 else 1) ∧
    (S.requestServed ≠ 0 → S.io.tsector = (S.requests S.requestServed).block ∧
      S.io.dmaaddr = (S.requests S.requestServed).buf) ∧
    (∀ r ∈ S.scheduled, (S.requests r).returnValue = if r ∈ S.raised then 0 else -1) ∧
    (S.requestServed = 0 → S.requestQueue = 0) ∧
    ∀ op : DiskOp, op.Enabled S →
      (∀ e, op.exec rejects S = .error e → e = .panic ∧ S.Refuses rejects (op.gives S)) ∧
      ∀ S', op.exec rejects S = .ok S' →
        (S'.raised = S.raised ∨ Raises S op S') ∧
        (op = .interrupt → if S.io.rirq ∨ S.io.wirq then Completes S S' else S' = S) ∧
        ∀ req, op = .locked req → Submits S req S' := by
  obtain ⟨queue, hinv⟩ := h.invariant
  refine ⟨⟨queue, hinv.linked, hinv.order⟩, hinv.nodup, hinv.served, hinv.device, hinv.registers,
    hinv.calls.result, ?_, ?_⟩
  · intro hidle
    have hlinked := hinv.linked
    rw [hinv.idle hidle] at hlinked
    exact hlinked
  · intro op hen
    rcases DiskOp.exec_cases rejects hinv hen with ⟨hpanic, hrefuses⟩ | ⟨T, queue', hT, -, heffect⟩
    · refine ⟨?_, fun S' hok => ?_⟩
      · intro e he
        cases he.symm.trans hpanic
        exact ⟨rfl, hrefuses⟩
      · cases hok.symm.trans hpanic
    · refine ⟨fun e he => ?_, ?_⟩
      · cases he.symm.trans hT
      · intro S' hok
        cases hok.symm.trans hT
        exact ⟨heffect.raised, heffect.interrupt, heffect.locked⟩

end

/-- The driver after `disk_init`, on a disk that is idle. -/
def idleDisk : DiskSystem where
  requests := fun _ => ⟨0, 0, 0, .read, 0, 0⟩
  requestQueue := 0
  requestServed := 0
  io := ⟨false, false, false, false, false, 0, 0⟩
  value := fun _ => 0
  calls := fun _ => .unused
  scheduled := []
  given := []
  raised := []

/-- A synchronous request that the disk has done: the interrupt sets its result, raises its semaphore
    and leaves the disk idle. -/
theorem diskReachable_law_oneRequest :
    ∃ S S', DiskReachable (fun _ _ => false) S ∧ S.scheduled = [64] ∧ S.raised = [] ∧
      S.io.rirq = true ∧ DiskOp.interrupt.exec (fun _ _ => false) S = .ok S' ∧
      S.given = S.raised ++ [64] ∧ S'.raised = [64] ∧ (S'.requests 64).returnValue = 0 ∧
      S'.value 8 = 1 ∧ S'.requestServed = 0 := by
  have hinit : DiskReachable (fun _ _ => false) idleDisk :=
    .init ⟨rfl, rfl, ⟨rfl, rfl, rfl, rfl⟩, fun _ => rfl, rfl, rfl, rfl⟩
  have hnew : (DiskOp.prepare 64 3 0x1000 .read 0 8).Enabled idleDisk := by
    refine ⟨by decide, by decide, rfl, ?_, fun h => absurd rfl h⟩
    rintro - - r ((hr | hr) | hr | ⟨hr, -⟩)
    · cases hr
    · cases hr
    · cases hr
    · cases hr
  have hprepare := hinit.step _ ⟨hnew, rfl⟩
  have hready : (DiskOp.locked 64).Enabled (diskSubmitPrepare idleDisk 64 3 0x1000 .read 0 8) :=
    ⟨true, rfl⟩
  have hlocked := hprepare.step _ ⟨hready, rfl⟩
  have hdone := hlocked.step .complete ⟨by left; rfl, rfl⟩
  obtain ⟨-, -, hgiven, -, -, -, -, hsteps⟩ := diskReachable_law _ _ hdone
  obtain ⟨-, hfinished, -⟩ := (hsteps .interrupt trivial).2 _ rfl
  have hfinished := hfinished rfl
  rw [if_pos (Or.inl rfl)] at hfinished
  refine ⟨_, _, hdone, rfl, rfl, rfl, rfl, hgiven, hfinished.raised, (hfinished.result 64).trans rfl,
    ?_, hfinished.next⟩
  rw [hfinished.value]
  rfl

end Kudos.Disk
