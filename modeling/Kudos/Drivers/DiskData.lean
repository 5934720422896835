import Kudos.Drivers.Disk
import Kudos.Library.CellStore

set_option autoImplicit false

/-! # What the disk driver makes of the disk

The data behind the requests of `drivers/mips32/disk.c`: the sectors of the disk, the memory, and the transfer
between them when the disk has done what it was told. Calls of any number of threads are under way at a time.
`dmaReachable_atomic` says that they look as if each were done at once, in the order in which they got the
spinlock, and that a call that waits for its result has the data of its sector when it returns. -/

namespace Kudos.Disk

open CellStore CInt Transition

/-! ## Sectors and buffers -/

abbrev Sector : Type := Fin 512 → UInt8

/-- The address lies in the 512 bytes from `buf` on. -/
def InBuffer (buf a : BitVec 32) : Prop := (a - buf).toNat < 512

instance (buf a : BitVec 32) : Decidable (InBuffer buf a) := inferInstanceAs (Decidable (_ < _))

/-- What the memory has in a buffer. -/
def bufferAt (ram : BitVec 32 → UInt8) (buf : BitVec 32) : Sector := fun k => ram (buf + BitVec.ofNat 32 k)

/-- The memory with a sector in a buffer. -/
def putSector (ram : BitVec 32 → UInt8) (buf : BitVec 32) (x : Sector) : BitVec 32 → UInt8 := fun a =>
  if h : (a - buf).toNat < 512 then x ⟨(a - buf).toNat, h⟩ else ram a

/-- No byte lies in both buffers. -/
def Apart (buf buf' : BitVec 32) : Prop := ∀ a, InBuffer buf a → ¬ InBuffer buf' a

/-! ## Runs -/

/-- The driver, the sectors and the memory. -/
structure DmaSystem where
  driver : DiskSystem
  sectors : BitVec 32 → Sector
  ram : BitVec 32 → UInt8
  /-- The transfers that were made, in order, with the requests they were for. -/
  transfers : List (Access ℕ (BitVec 32) Sector)
  /-- What was in the buffer of each request when it was submitted. -/
  submitted : ℕ → Sector

/-- The disk does what its registers say, for the request that the driver has given to it. -/
def DmaSystem.transfer (s : DmaSystem) : DmaSystem :=
  let io := s.driver.io
  let req := s.driver.requestServed
  if io.rbusy then
    { s with ram := putSector s.ram io.dmaaddr (s.sectors io.tsector)
             transfers := s.transfers ++ [⟨req, false, io.tsector, s.sectors io.tsector⟩] }
  else
    { s with sectors := Function.update s.sectors io.tsector (bufferAt s.ram io.dmaaddr)
             transfers := s.transfers ++ [⟨req, true, io.tsector, bufferAt s.ram io.dmaaddr⟩] }

/-- The step is neither a new call nor the end of a transfer. -/
def DiskOp.Continues : DiskOp → Prop
  | prepare .. | complete => False
  | locked _ | finish _ | interrupt | other .. => True

inductive DmaAction
  | driver (op : DiskOp)
  | store (a : BitVec 32) (b : UInt8)

/-- The steps of the driver, and those of threads that write to the memory. Nobody writes to the buffer of a
request that is under way, or submits another request with it. -/
inductive DmaStep (rejects : BitVec 32 → BitVec 32 → Bool) : DmaSystem → DmaAction → DmaSystem → Prop
  | prepare {s : DmaSystem} {S' : DiskSystem} {req : ℕ} {block buf : BitVec 32} {operation : GbdOperation}
      {sem created : ℕ} : DiskStep rejects s.driver (.prepare req block buf operation sem created) S' →
      (∀ r, s.driver.Pending r → Apart buf (s.driver.requests r).buf) →
      DmaStep rejects s (.driver (.prepare req block buf operation sem created))
        { s with driver := S', submitted := Function.update s.submitted req (bufferAt s.ram buf) }
  | complete {s : DmaSystem} {S' : DiskSystem} : DiskStep rejects s.driver .complete S' →
      DmaStep rejects s (.driver .complete) { s.transfer with driver := S' }
  | driver {s : DmaSystem} {S' : DiskSystem} {op : DiskOp} : op.Continues → DiskStep rejects s.driver op S' →
      DmaStep rejects s (.driver op) { s with driver := S' }
  | store {s : DmaSystem} {a : BitVec 32} {b : UInt8} :
      (∀ r, s.driver.Pending r → ¬ InBuffer (s.driver.requests r).buf a) →
      DmaStep rejects s (.store a b) { s with ram := Function.update s.ram a b }

/-- From a disk with the given sectors and an idle driver on. -/
abbrev DmaReachable (rejects : BitVec 32 → BitVec 32 → Bool) (start : BitVec 32 → Sector) :
    DmaSystem → Prop :=
  Reach (fun s => DiskInit s.driver ∧ s.sectors = start ∧ s.transfers = []) (DmaStep rejects)

/-! ## Buffers -/

theorem inBuffer_offset (buf : BitVec 32) (k : Fin 512) : InBuffer buf (buf + BitVec.ofNat 32 k) := by
  unfold InBuffer
  rw [BitVec.add_comm, BitVec.add_sub_cancel, BitVec.toNat_ofNat]
  omega

theorem bufferAt_putSector (ram : BitVec 32 → UInt8) (buf : BitVec 32) (x : Sector) :
    bufferAt (putSector ram buf x) buf = x := by
  funext k
  have hk : (buf + BitVec.ofNat 32 k - buf).toNat = k := by
    rw [BitVec.add_comm, BitVec.add_sub_cancel, BitVec.toNat_ofNat]
    omega
  unfold bufferAt putSector
  rw [dif_pos (by rw [hk]; exact k.isLt)]
  exact congrArg x (Fin.ext hk)

/-- A buffer keeps what is in it if no byte of it is written. -/
theorem bufferAt_congr {ram ram' : BitVec 32 → UInt8} {buf : BitVec 32}
    (h : ∀ a, InBuffer buf a → ram' a = ram a) : bufferAt ram' buf = bufferAt ram buf := by
  funext k
  exact h _ (inBuffer_offset buf k)

theorem bufferAt_putSector_of_apart (ram : BitVec 32 → UInt8) {buf buf' : BitVec 32} (x : Sector)
    (h : Apart buf' buf) : bufferAt (putSector ram buf' x) buf = bufferAt ram buf := by
  refine bufferAt_congr fun a ha => ?_
  have hout : ¬ (a - buf').toNat < 512 := fun ha' => h a ha' ha
  unfold putSector
  rw [dif_neg hout]

theorem Apart.symm {buf buf' : BitVec 32} (h : Apart buf buf') : Apart buf' buf := fun a ha ha' => h a ha' ha

/-! ## What the steps of the driver leave alone -/

/-- The two requests ask for the same transfer. -/
def SameTransfer (r r' : GbdRequest) : Prop :=
  r'.block = r.block ∧ r'.buf = r.buf ∧ r'.operation = r.operation

theorem SameTransfer.refl (r : GbdRequest) : SameTransfer r r := ⟨rfl, rfl, rfl⟩

theorem SameTransfer.trans {r r' r'' : GbdRequest} (h : SameTransfer r r') (h' : SameTransfer r' r'') :
    SameTransfer r r'' := ⟨h'.1.trans h.1, h'.2.1.trans h.2.1, h'.2.2.trans h.2.2⟩

theorem sameTransfer_setRequest (S : DiskSystem) (req : ℕ) {x : GbdRequest}
    (hx : SameTransfer (S.requests req) x) (r : ℕ) :
    SameTransfer (S.requests r) ((S.setRequest req x).requests r) := by
  show SameTransfer (S.requests r) (Function.update S.requests req x r)
  by_cases hr : r = req
  · rw [hr, Function.update_self]
    exact hx
  · rw [Function.update_of_ne hr]
    exact .refl _

/-- The disk is busy with what the driver has told it. -/
def BusyRight (S : DiskSystem) : Prop :=
  (S.io.rbusy = true → (S.requests S.requestServed).operation = .read) ∧
    (S.io.wbusy = true → (S.requests S.requestServed).operation = .write)

variable {rejects : BitVec 32 → BitVec 32 → Bool} {S S' : DiskSystem} {req : ℕ}

theorem diskschedSchedule_frame (h : diskschedSchedule S req = .ok S') :
    (∀ r, SameTransfer (S.requests r) (S'.requests r)) ∧
      S' = { S with requests := S'.requests, requestQueue := S'.requestQueue } := by
  unfold diskschedSchedule at h
  split at h
  · simp only [bind, Except.bind] at h
    split at h
    · cases h
    · next q _ =>
        cases h
        exact ⟨sameTransfer_setRequest S q ⟨rfl, rfl, rfl⟩, rfl⟩
  · cases h
    exact ⟨fun _ => .refl _, rfl⟩

/-- `disk_next_request` on a disk that is not busy takes nothing, or the front of the queue. -/
theorem diskNextRequest_cases (h : diskNextRequest rejects S = .ok S') :
    S.io.rbusy = false ∧ S.io.wbusy = false ∧ (S' = S ∨
      ∃ io, io = DiskIo.command rejects { S.io with
          tsector := (S.requests S.requestQueue).block, dmaaddr := (S.requests S.requestQueue).buf }
          (S.requests S.requestQueue).operation ∧
        io.errors = false ∧ S' = S.start S.requestQueue io) := by
  by_cases hrb : S.io.rbusy = true
  · simp [diskNextRequest, kernelAssert, hrb, bind, Except.bind] at h
  by_cases hwb : S.io.wbusy = true
  · simp [diskNextRequest, kernelAssert, hwb, bind, Except.bind] at h
  by_cases hserved : S.requestServed = 0
  swap
  · simp [diskNextRequest, kernelAssert, hrb, hwb, hserved, bind, Except.bind] at h
  rw [Bool.not_eq_true] at hrb hwb
  refine ⟨hrb, hwb, ?_⟩
  by_cases hqueue : S.requestQueue = 0
  · simp [diskNextRequest, kernelAssert, hrb, hwb, hserved, hqueue, bind, Except.bind, pure, Except.pure] at h
    exact Or.inl h.symm
  · have hidle : ¬ (S.io.rbusy = true ∨ S.io.wbusy = true) := by simp [hrb, hwb]
    simp only [diskNextRequest, kernelAssert, hidle, hserved, hqueue, bind, Except.bind, pure, Except.pure,
      DiskSystem.setRequest, not_false_iff, if_true, if_false] at h
    split at h
    · cases h
    · next herrors =>
        cases h
        exact Or.inr ⟨_, rfl, Bool.eq_false_iff.2 herrors, rfl⟩

/-- A disk that accepts a command is busy with it. -/
theorem command_flags {io : DiskIo} {operation : GbdOperation}
    (h : (io.command rejects operation).errors = false) (hrb : io.rbusy = false) (hwb : io.wbusy = false) :
    ((io.command rejects operation).rbusy = true → operation = .read) ∧
      ((io.command rejects operation).wbusy = true → operation = .write) ∧
      (io.command rejects operation).rirq = io.rirq ∧ (io.command rejects operation).wirq = io.wirq := by
  unfold DiskIo.command at h ⊢
  split at h
  · cases h
  · next haccepts =>
      rw [if_neg haccepts]
      cases operation with
      | read => exact ⟨fun _ => rfl, fun hb => absurd (hb.symm.trans hwb) (by decide), rfl, rfl⟩
      | write => exact ⟨fun hb => absurd (hb.symm.trans hrb) (by decide), fun _ => rfl, rfl, rfl⟩

theorem diskNextRequest_frame (h : diskNextRequest rejects S = .ok S') :
    (∀ r, SameTransfer (S.requests r) (S'.requests r)) ∧ BusyRight S' ∧
      S'.io.rirq = S.io.rirq ∧ S'.io.wirq = S.io.wirq ∧
      S'.calls = S.calls ∧ S'.scheduled = S.scheduled ∧ S'.raised = S.raised := by
  obtain ⟨hrb, hwb, rfl | ⟨io, hio, herrors, rfl⟩⟩ := diskNextRequest_cases h
  · exact ⟨fun _ => .refl _, ⟨fun hb => absurd (hb.symm.trans hrb) (by decide),
      fun hb => absurd (hb.symm.trans hwb) (by decide)⟩, rfl, rfl, rfl, rfl, rfl⟩
  · subst hio
    obtain ⟨hread, hwrite, hrirq, hwirq⟩ := command_flags herrors hrb hwb
    have hsame := sameTransfer_setRequest S S.requestQueue (x := { S.requests S.requestQueue with next := 0 })
      ⟨rfl, rfl, rfl⟩
    have hserved := (hsame S.requestQueue).2.2
    exact ⟨hsame, ⟨fun hb => hserved.trans (hread hb), fun hb => hserved.trans (hwrite hb)⟩,
      hrirq, hwirq, rfl, rfl, rfl⟩

/-- The requests of which the disk has done the transfer: their interrupt is pending, or has been handled. -/
def DiskSystem.moved (S : DiskSystem) : List ℕ :=
  S.raised ++ if S.io.rirq = true ∨ S.io.wirq = true then [S.requestServed] else []

/-- A step that starts or ends calls, but neither makes a new one nor transfers data. -/
structure Keeps (S S' : DiskSystem) : Prop where
  same : ∀ r, SameTransfer (S.requests r) (S'.requests r)
  pending : ∀ r, S'.Pending r → S.Pending r
  busy : BusyRight S → BusyRight S'
  moved : S'.moved = S.moved

theorem moved_of_io {S S' : DiskSystem} (hraised : S'.raised = S.raised)
    (hirq : S'.io.rirq = S.io.rirq ∧ S'.io.wirq = S.io.wirq)
    (hserved : S.io.rirq = true ∨ S.io.wirq = true → S'.requestServed = S.requestServed) :
    S'.moved = S.moved := by
  unfold DiskSystem.moved
  rw [hraised, hirq.1, hirq.2]
  split
  · next h => rw [hserved h]
  · rfl

section

variable {queue : List ℕ}

/-- No flag is set if nothing is served. -/
theorem DiskShape.served_of_flag (h : DiskShape S queue)
    (hflag : S.io.rbusy = true ∨ S.io.wbusy = true ∨ S.io.rirq = true ∨ S.io.wirq = true) :
    S.requestServed ≠ 0 := by
  intro h0
  have hdevice := h.device
  rw [if_pos h0, DiskIo.idle_iff] at hdevice
  obtain ⟨h1, h2, h3, h4⟩ := hdevice
  simp [h1, h2, h3, h4] at hflag

theorem keeps_locked (h : DiskShape S queue) {b semNull : Bool} (hcall : S.calls req = .prepared b)
    (hok : diskSubmitLocked rejects S req semNull = .ok S') : Keeps S S' := by
  unfold diskSubmitLocked at hok
  simp only [bind, Except.bind, pure, Except.pure] at hok
  split at hok
  · cases hok
  next T hschedule =>
  obtain ⟨hsame, hT⟩ := diskschedSchedule_frame hschedule
  have hreq : S.Pending req := by
    cases b with
    | true => exact Or.inl (Or.inl hcall)
    | false => exact Or.inr (Or.inl hcall)
  -- whatever the disk is told then, no call but this one has gone on
  have hpending : ∀ {U : DiskSystem}, U.calls = T.calls → U.scheduled = T.scheduled →
      U.raised = T.raised → ∀ r, U.Pending r → S.Pending r := by
    intro U hcalls hscheduled hraised r hr
    rw [hT] at hcalls hscheduled hraised
    by_cases hne : r = req
    · rw [hne]
      exact hreq
    unfold DiskSystem.Pending DiskSystem.Private at hr ⊢
    rw [hcalls, hscheduled, hraised] at hr
    simpa [Function.update_of_ne hne, hne] using hr
  have hio : T.io = S.io := by rw [hT]
  have hserved : T.requestServed = S.requestServed := by rw [hT]
  have hraised : T.raised = S.raised := by rw [hT]
  split at hok
  · next hidle =>
      obtain ⟨hsame', hbusy, hrirq, hwirq, hcalls, hscheduled, hraised'⟩ := diskNextRequest_frame hok
      refine ⟨fun r => (hsame r).trans (hsame' r), hpending hcalls hscheduled hraised', fun _ => hbusy, ?_⟩
      refine moved_of_io (hraised'.trans hraised) ⟨?_, ?_⟩ fun hirq => ?_
      · rw [hrirq, hio]
      · rw [hwirq, hio]
      · exact absurd (hserved.symm.trans hidle) (h.served_of_flag (Or.inr (Or.inr hirq)))
  · cases hok
    refine ⟨hsame, hpending rfl rfl rfl, fun hb => ?_, moved_of_io hraised ⟨by rw [hio], by rw [hio]⟩
      fun _ => hserved⟩
    unfold BusyRight
    rw [hio, hserved, (hsame S.requestServed).2.2]
    exact hb

theorem keeps_finish : Keeps S (diskSubmitFinish S req) where
  same := by
    exact sameTransfer_setRequest S req (x := { S.requests req with sem := 0 }) ⟨rfl, rfl, rfl⟩
  pending r hr := by
    by_cases hne : r = req
    · subst hne
      unfold DiskSystem.Pending DiskSystem.Private diskSubmitFinish DiskSystem.setRequest at hr
      simp only [Function.update_self] at hr
      obtain (hr | hr) | hr | hr := hr
      · cases hr
      · cases hr
      · cases hr
      · exact Or.inr (Or.inr hr)
    · unfold DiskSystem.Pending DiskSystem.Private diskSubmitFinish DiskSystem.setRequest at hr
      simp only [Function.update_of_ne hne] at hr
      exact hr
  busy hb := by
    have hsame := sameTransfer_setRequest S req (x := { S.requests req with sem := 0 }) ⟨rfl, rfl, rfl⟩
    exact ⟨fun h => (hsame S.requestServed).2.2.trans (hb.1 h), fun h =>
      (hsame S.requestServed).2.2.trans (hb.2 h)⟩
  moved := rfl

theorem keeps_interrupt (h : DiskShape S queue) (hok : diskInterruptHandle rejects S = .ok S') :
    Keeps S S' := by
  by_cases hirq : S.io.rirq = true ∨ S.io.wirq = true
  swap
  · have hsame : diskInterruptHandle rejects S = .ok S := if_pos hirq
    cases hsame.symm.trans hok
    exact ⟨fun _ => .refl _, fun _ hr => hr, fun hb => hb, rfl⟩
  have hserved := h.served_of_flag (Or.inr (Or.inr hirq))
  obtain ⟨hmem, hnew⟩ := h.served_not_raised hserved
  have hsem : (S.requests S.requestServed).sem ≠ 0 := h.calls.sem _ (.inr (.inr ⟨hmem, hnew⟩))
  -- the state in which the handler looks for the next request
  set T : DiskSystem := { S with
      requests := Function.update S.requests S.requestServed
        { S.requests S.requestServed with returnValue := 0 },
      requestServed := 0, io := { S.io with wirq := false, rirq := false },
      value := Function.update S.value (S.requests S.requestServed).sem
        (wrap32 (S.value (S.requests S.requestServed).sem + 1)),
      raised := S.raised ++ [S.requestServed] } with hT
  have hstep : diskInterruptHandle rejects S = diskNextRequest rejects T := by
    simp [diskInterruptHandle, hirq, kernelAssert, hserved, semaphoreRaise, DiskSystem.setRequest, hsem,
      bind, Except.bind, pure, Except.pure, hT]
  rw [hstep] at hok
  obtain ⟨hsame', hbusy, hrirq, hwirq, hcalls, hscheduled, hraised⟩ := diskNextRequest_frame hok
  have hsame := sameTransfer_setRequest S S.requestServed
    (x := { S.requests S.requestServed with returnValue := 0 }) ⟨rfl, rfl, rfl⟩
  refine ⟨fun r => (hsame r).trans (hsame' r), fun r hr => ?_, fun _ => hbusy, ?_⟩
  · unfold DiskSystem.Pending DiskSystem.Private at hr ⊢
    rw [hcalls, hscheduled, hraised] at hr
    refine hr.imp id (Or.imp id fun hr => ⟨hr.1, fun hmem => hr.2 ?_⟩)
    exact List.mem_append_left _ hmem
  · unfold DiskSystem.moved
    rw [hrirq, hwirq, hraised, if_pos hirq, if_neg (by simp [hT]), List.append_nil]

theorem keeps_other {sem : ℕ} {value : ℤ} :
    Keeps S { S with value := Function.update S.value sem value } :=
  ⟨fun _ => .refl _, fun _ hr => hr, fun hb => hb, rfl⟩

theorem keeps_of_continues (h : DiskShape S queue) {op : DiskOp} (hop : op.Continues)
    (hstep : DiskStep rejects S op S') : Keeps S S' := by
  obtain ⟨hen, hok⟩ := hstep
  cases op with
  | prepare req block buf operation sem created => exact hop.elim
  | complete => exact hop.elim
  | locked req =>
      obtain ⟨b, hb⟩ := hen
      exact keeps_locked h hb hok
  | finish req =>
      cases hok
      exact keeps_finish
  | interrupt => exact keeps_interrupt h hok
  | other sem value =>
      cases hok
      exact keeps_other

theorem diskSubmitLocked_calls {semNull : Bool} (hok : diskSubmitLocked rejects S req semNull = .ok S') :
    S'.calls = Function.update S.calls req (if semNull then .waiting else .returned 1) := by
  unfold diskSubmitLocked at hok
  simp only [bind, Except.bind, pure, Except.pure] at hok
  split at hok
  · cases hok
  next T hschedule =>
  obtain ⟨-, hT⟩ := diskschedSchedule_frame hschedule
  split at hok
  · obtain ⟨-, -, -, -, hcalls, -⟩ := diskNextRequest_frame hok
    rw [hcalls, hT]
  · cases hok
    rw [hT]

theorem diskInterruptHandle_calls (hok : diskInterruptHandle rejects S = .ok S') : S'.calls = S.calls := by
  unfold diskInterruptHandle kernelAssert semaphoreRaise at hok
  split at hok
  · cases hok
    rfl
  · simp only [bind, Except.bind, pure, Except.pure] at hok
    split at hok
    · cases hok
    · split at hok
      · cases hok
      · next T hraise =>
          obtain ⟨-, -, -, -, hcalls, -⟩ := diskNextRequest_frame hok
          rw [hcalls]
          split at hraise
          · cases hraise
          · cases hraise
            rfl

/-- A synchronous call is under way until it returns. -/
theorem private_of_continues {op : DiskOp} (hop : op.Continues) (hstep : DiskStep rejects S op S') {r : ℕ}
    (hr : S.Private r) (hne : op ≠ .finish r) : S'.Private r := by
  obtain ⟨hen, hok⟩ := hstep
  unfold DiskSystem.Private at hr ⊢
  cases op with
  | prepare req block buf operation sem created => exact hop.elim
  | complete => exact hop.elim
  | locked req =>
      rw [diskSubmitLocked_calls hok]
      by_cases hreq : r = req
      · obtain ⟨b, hb⟩ := hen
        rw [← hreq] at hb ⊢
        have hnull : S.calls r = .prepared true := hr.resolve_right fun hw => nomatch hb.symm.trans hw
        rw [Function.update_self, if_pos (by rw [hnull]; rfl)]
        exact .inr rfl
      · rw [Function.update_of_ne hreq]
        exact hr
  | finish req =>
      cases hok
      have hreq : r ≠ req := fun heq => hne (by rw [heq])
      have hcall : (diskSubmitFinish S req).calls r = S.calls r := Function.update_of_ne hreq ..
      rw [hcall]
      exact hr
  | interrupt =>
      rw [diskInterruptHandle_calls hok]
      exact hr
  | other sem value =>
      cases hok
      exact hr

/-- When the disk has done its transfer, it is for the request that is served, and the disk is not busy. -/
theorem complete_cases (h : DiskShape S queue) (hen : DiskOp.complete.Enabled S)
    (hok : DiskOp.complete.exec rejects S = .ok S') :
    S.moved = S.raised ∧ S'.moved = S.raised ++ [S.requestServed] ∧
      S'.io.rbusy = false ∧ S'.io.wbusy = false ∧ S' = { S with io := S'.io } := by
  have hserved : S.requestServed ≠ 0 := h.served_of_flag (hen.imp id .inl)
  have hone := h.device
  rw [if_neg hserved] at hone
  unfold DiskIo.flags at hone
  have hflags : S.io.rirq = false ∧ S.io.wirq = false ∧ (S.io.rbusy = true → S.io.wbusy = false) := by
    have hbusy : S.io.rbusy = true ∨ S.io.wbusy = true := hen
    revert hone hbusy
    cases S.io.rbusy <;> cases S.io.wbusy <;> cases S.io.rirq <;> cases S.io.wirq <;> decide
  obtain ⟨hrirq, hwirq, hexcl⟩ := hflags
  have hmoved : S.moved = S.raised := by simp [DiskSystem.moved, hrirq, hwirq]
  by_cases hrb : S.io.rbusy = true
  · cases (if_pos hrb).symm.trans hok
    exact ⟨hmoved, rfl, rfl, hexcl hrb, rfl⟩
  · cases (if_neg hrb).symm.trans hok
    refine ⟨hmoved, ?_, Bool.eq_false_iff.2 hrb, rfl, rfl⟩
    unfold DiskSystem.moved
    rw [if_pos (Or.inr rfl)]

/-- What was moved was given to the disk. -/
theorem DiskShape.moved_prefix (h : DiskShape S queue) : ∃ served, S.moved ++ served = S.given := by
  rw [h.served]
  unfold DiskSystem.moved
  split
  · next hirq =>
      rw [if_neg (h.served_of_flag (.inr (.inr hirq)))]
      exact ⟨[], List.append_nil _⟩
  · rw [List.append_nil]
    exact ⟨_, rfl⟩

theorem DiskShape.mem_moved (h : DiskShape S queue) {r : ℕ} (hr : r ∈ S.moved) : r ∈ S.scheduled := by
  obtain ⟨served, hserved⟩ := h.moved_prefix
  exact h.mem_given (hserved ▸ List.mem_append_left _ hr)

theorem CallsOk.used_of_pending (h : CallsOk S) {r : ℕ} (hr : S.Pending r) : S.calls r ≠ .unused := by
  rcases hr with (hr | hr) | hr | ⟨hr, -⟩
  · rw [hr]
    exact nofun
  · rw [hr]
    exact nofun
  · rw [hr]
    exact nofun
  · exact (h.called r hr).1

theorem DiskInit.not_pending (h : DiskInit S) (r : ℕ) : ¬ S.Pending r := by
  intro hr
  unfold DiskSystem.Pending DiskSystem.Private at hr
  rw [h.calls, h.scheduled] at hr
  simp at hr

/-- A new call changes its own request only. -/
theorem diskSubmitPrepare_frame (S : DiskSystem) (req : ℕ) (block buf : BitVec 32) (operation : GbdOperation)
    (sem created : ℕ) :
    let T := diskSubmitPrepare S req block buf operation sem created
    (∀ r, r ≠ req → T.requests r = S.requests r ∧ T.calls r = S.calls r) ∧
      (∃ sem', T.requests req = ⟨block, buf, sem', operation, 0, -1⟩) ∧
      T = { S with requests := T.requests, calls := T.calls, value := T.value } := by
  have hother : ∀ (R : GbdRequest) (st : SubmitState) (r : ℕ), r ≠ req →
      Function.update S.requests req R r = S.requests r ∧ Function.update S.calls req st r = S.calls r :=
    fun R st r hr => ⟨Function.update_of_ne hr .., Function.update_of_ne hr ..⟩
  unfold diskSubmitPrepare DiskSystem.setRequest
  split
  · simp only
    split
    · exact ⟨hother _ _, ⟨_, Function.update_self ..⟩, rfl⟩
    · exact ⟨hother _ _, ⟨_, Function.update_self ..⟩, rfl⟩
  · exact ⟨hother _ _, ⟨_, Function.update_self ..⟩, rfl⟩

end

/-- A synchronous call that has not returned can go on, or the disk is at work or has an interrupt. -/
theorem DiskInvariant.progress {S : DiskSystem} {queue : List ℕ} (h : DiskInvariant S queue) {r : ℕ}
    (hr : S.Private r) : (DiskOp.locked r).Enabled S ∨ DiskOp.complete.Enabled S ∨
      (S.io.rirq = true ∨ S.io.wirq = true) ∨ (DiskOp.finish r).Enabled S := by
  rcases hr with hr | hr
  · exact .inl ⟨true, hr⟩
  have hmem := h.calls.waiting r hr
  by_cases hraised : r ∈ S.raised
  · refine .inr (.inr (.inr ⟨hr, ?_⟩))
    rw [h.calls.once r (.inr hr), if_pos hraised]
    decide
  have hserved : S.requestServed ≠ 0 := by
    intro h0
    have horder := h.order
    rw [h.idle h0, h.served, if_pos h0, List.append_nil, List.append_nil] at horder
    exact hraised (horder ▸ hmem)
  have hone := h.device
  rw [if_neg hserved] at hone
  show _ ∨ (S.io.rbusy = true ∨ S.io.wbusy = true) ∨ _
  unfold DiskIo.flags at hone
  revert hone
  cases S.io.rbusy <;> cases S.io.wbusy <;> cases S.io.rirq <;> cases S.io.wirq <;> simp

/-! ## The invariant -/

/-- The transfers are those of the requests that were moved, and the buffers of the requests that are under way
are as they were when they were submitted, until their transfer, and from then on as it has left them. -/
structure DmaInvariant (start : BitVec 32 → Sector) (s : DmaSystem) : Prop where
  queue : ∃ queue, DiskInvariant s.driver queue
  busy : BusyRight s.driver
  moved : s.transfers.map Access.call = s.driver.moved
  replays : Replays start s.transfers s.sectors
  asked : ∀ e ∈ s.transfers, e.cell = (s.driver.requests e.call).block ∧
    (e.isWrite = true ↔ (s.driver.requests e.call).operation = .write) ∧
    (e.isWrite = true → e.data = s.submitted e.call)
  apart : ∀ r r', s.driver.Pending r → s.driver.Pending r' → r ≠ r' →
    Apart (s.driver.requests r).buf (s.driver.requests r').buf
  intact : ∀ r, s.driver.Pending r → r ∉ s.driver.moved →
    bufferAt s.ram (s.driver.requests r).buf = s.submitted r
  fetched : ∀ e ∈ s.transfers, s.driver.Pending e.call → e.isWrite = false →
    bufferAt s.ram (s.driver.requests e.call).buf = e.data

section

variable {start : BitVec 32 → Sector} {s : DmaSystem}

/-- The transfer for the request that is served, as an access to the sectors. -/
theorem DmaSystem.transfer_spec (s : DmaSystem) :
    ∃ e : Access ℕ (BitVec 32) Sector, s.transfer.transfers = s.transfers ++ [e] ∧
      e.call = s.driver.requestServed ∧ e.cell = s.driver.io.tsector ∧
      e.isWrite = !s.driver.io.rbusy ∧ Step s.sectors e s.transfer.sectors ∧
      (e.isWrite = true → e.data = bufferAt s.ram s.driver.io.dmaaddr) ∧
      (e.isWrite = false → bufferAt s.transfer.ram s.driver.io.dmaaddr = e.data) ∧
      (∀ buf, Apart s.driver.io.dmaaddr buf → bufferAt s.transfer.ram buf = bufferAt s.ram buf) ∧
      s.transfer.submitted = s.submitted := by
  by_cases hread : s.driver.io.rbusy = true
  · rw [show s.transfer = _ from if_pos hread, hread]
    exact ⟨_, rfl, rfl, rfl, rfl, .read, (fun h => nomatch h), fun _ => bufferAt_putSector ..,
      fun buf h => bufferAt_putSector_of_apart _ _ h, rfl⟩
  · rw [show s.transfer = _ from if_neg hread, Bool.eq_false_iff.2 hread]
    exact ⟨_, rfl, rfl, rfl, rfl, .write, fun _ => rfl, (fun h => nomatch h), fun _ _ => rfl, rfl⟩

theorem dmaInvariant_init (h : DiskInit s.driver) (hsectors : s.sectors = start) (hnil : s.transfers = []) :
    DmaInvariant start s := by
  have hnone := h.not_pending
  obtain ⟨hrb, hwb, hrirq, hwirq⟩ := h.idle
  refine ⟨⟨[], diskInit_invariant h⟩, ⟨fun hb => absurd (hb.symm.trans hrb) (by decide),
    fun hb => absurd (hb.symm.trans hwb) (by decide)⟩, ?_, ?_, ?_, fun r _ hr => absurd hr (hnone r),
    fun r hr => absurd hr (hnone r), fun e _ hr => absurd hr (hnone _)⟩
  · simp [hnil, DiskSystem.moved, h.raised, hrirq, hwirq]
  · rw [hnil]
    exact .nil hsectors
  · simp [hnil]

theorem DmaInvariant.keeps (h : DmaInvariant start s) {S' : DiskSystem} (hkeeps : Keeps s.driver S')
    (hqueue : ∃ queue, DiskInvariant S' queue) : DmaInvariant start { s with driver := S' } where
  queue := hqueue
  busy := hkeeps.busy h.busy
  moved := h.moved.trans hkeeps.moved.symm
  replays := h.replays
  asked e he := by
    obtain ⟨hblock, -, hoperation⟩ := hkeeps.same e.call
    show e.cell = (S'.requests e.call).block ∧ (_ ↔ (S'.requests e.call).operation = .write) ∧ _
    rw [hblock, hoperation]
    exact h.asked e he
  apart r r' hr hr' hne := by
    show Apart (S'.requests r).buf (S'.requests r').buf
    rw [(hkeeps.same r).2.1, (hkeeps.same r').2.1]
    exact h.apart r r' (hkeeps.pending r hr) (hkeeps.pending r' hr') hne
  intact r hr hnew := by
    show bufferAt s.ram (S'.requests r).buf = _
    rw [(hkeeps.same r).2.1]
    exact h.intact r (hkeeps.pending r hr) (hkeeps.moved ▸ hnew)
  fetched e he hr hread := by
    show bufferAt s.ram (S'.requests e.call).buf = _
    rw [(hkeeps.same e.call).2.1]
    exact h.fetched e he (hkeeps.pending _ hr) hread

/-- A new call. Its request is not one that was moved, and the disk is not at work on it. -/
theorem DmaInvariant.prepare (h : DmaInvariant start s) {req : ℕ} {block buf : BitVec 32}
    {operation : GbdOperation} {sem created : ℕ}
    (hen : (DiskOp.prepare req block buf operation sem created).Enabled s.driver)
    (hapart : ∀ r, s.driver.Pending r → Apart buf (s.driver.requests r).buf) :
    DmaInvariant start { s with
      driver := diskSubmitPrepare s.driver req block buf operation sem created
      submitted := Function.update s.submitted req (bufferAt s.ram buf) } := by
  obtain ⟨queue, hqueue⟩ := h.queue
  obtain ⟨hqueue', hraised⟩ := diskSubmitPrepare_ok hqueue hen
  set T := diskSubmitPrepare s.driver req block buf operation sem created with hT
  obtain ⟨hother, ⟨sem', hself⟩, hT'⟩ := diskSubmitPrepare_frame s.driver req block buf operation sem created
  rw [← hT] at hother hself hT'
  have hnew : req ∉ s.driver.scheduled := fun hmem => (hqueue.calls.called req hmem).1 hen.2.2.1
  have hmovedMem : ∀ r ∈ s.driver.moved, r ≠ req := by
    rintro r hr rfl
    exact hnew (hqueue.mem_moved hr)
  have hmoved : T.moved = s.driver.moved := by
    unfold DiskSystem.moved
    rw [hT']
  have hcall : ∀ e ∈ s.transfers, e.call ≠ req := fun e he =>
    hmovedMem _ (h.moved ▸ List.mem_map_of_mem he)
  have hpending : ∀ r, r ≠ req → T.Pending r → s.driver.Pending r := by
    intro r hr hp
    unfold DiskSystem.Pending DiskSystem.Private at hp ⊢
    rw [(hother r hr).2, hT'] at hp
    exact hp
  have hbufSelf : (T.requests req).buf = buf := by rw [hself]
  have hbuf : ∀ r, r ≠ req → (T.requests r).buf = (s.driver.requests r).buf := fun r hr => by
    rw [(hother r hr).1]
  -- the disk is not at work on a request that nobody has used yet
  have hserved : s.driver.requestServed ≠ req := by
    intro heq
    exact hnew (heq ▸ (hqueue.served_not_raised (heq ▸ hen.1)).1)
  refine ⟨⟨queue, hqueue'⟩, ?_, h.moved.trans hmoved.symm, h.replays, fun e he => ?_, ?_, ?_, ?_⟩
  · have hbusy := h.busy
    unfold BusyRight at hbusy ⊢
    rw [hT']
    show (_ → (T.requests s.driver.requestServed).operation = _) ∧
      (_ → (T.requests s.driver.requestServed).operation = _)
    rw [(hother _ hserved).1]
    exact hbusy
  · show e.cell = (T.requests e.call).block ∧ (_ ↔ (T.requests e.call).operation = .write) ∧
      (_ → e.data = Function.update s.submitted req _ e.call)
    rw [(hother _ (hcall e he)).1, Function.update_of_ne (hcall e he)]
    exact h.asked e he
  · intro r r' hr hr' hne
    show Apart (T.requests r).buf (T.requests r').buf
    by_cases hreq : r = req
    · have hreq' : r' ≠ req := fun heq => hne (hreq.trans heq.symm)
      rw [hreq, hbufSelf, hbuf r' hreq']
      exact hapart r' (hpending r' hreq' hr')
    · by_cases hreq' : r' = req
      · rw [hreq', hbufSelf, hbuf r hreq]
        exact (hapart r (hpending r hreq hr)).symm
      · rw [hbuf r hreq, hbuf r' hreq']
        exact h.apart r r' (hpending r hreq hr) (hpending r' hreq' hr') hne
  · intro r hr hnot
    show bufferAt s.ram (T.requests r).buf = Function.update s.submitted req _ r
    by_cases hreq : r = req
    · rw [hreq, hbufSelf, Function.update_self]
    · rw [hbuf r hreq, Function.update_of_ne hreq]
      exact h.intact r (hpending r hreq hr) (hmoved ▸ hnot)
  · intro e he hr hread
    show bufferAt s.ram (T.requests e.call).buf = _
    rw [hbuf _ (hcall e he)]
    exact h.fetched e he (hpending _ (hcall e he) hr) hread

/-- The disk does the transfer of the request that is served. Its buffer was not touched before, and no
buffer of another request is. -/
theorem DmaInvariant.complete (h : DmaInvariant start s) {S' : DiskSystem}
    (hen : DiskOp.complete.Enabled s.driver) (hok : DiskOp.complete.exec rejects s.driver = .ok S') :
    DmaInvariant start { s.transfer with driver := S' } := by
  obtain ⟨queue, hqueue⟩ := h.queue
  obtain ⟨io, hio, hqueue'⟩ := @complete_ok rejects _ _ hqueue hen
  obtain ⟨hmoved, hmoved', hrb, hwb, hS'⟩ := complete_cases hqueue.toDiskShape hen hok
  cases hio.symm.trans hok
  have hserved : s.driver.requestServed ≠ 0 := hqueue.served_of_flag (hen.imp id .inl)
  obtain ⟨hmem, hnew⟩ := hqueue.served_not_raised hserved
  obtain ⟨hsector, haddr⟩ := hqueue.registers hserved
  have hpending : s.driver.Pending s.driver.requestServed := .inr (.inr ⟨hmem, hnew⟩)
  obtain ⟨e, htransfers, hcall, hcell, hwrite, hstep, hdata, hfetched, hkept, hsubmitted⟩ := s.transfer_spec
  -- the buffers of the other requests that are under way
  have hothers : ∀ r, s.driver.Pending r → r ≠ s.driver.requestServed →
      bufferAt s.transfer.ram (s.driver.requests r).buf = bufferAt s.ram (s.driver.requests r).buf := by
    intro r hr hne
    refine hkept _ ?_
    rw [haddr]
    exact h.apart _ _ hpending hr hne.symm
  refine ⟨⟨queue, hqueue'⟩, ⟨fun hb => ?_, fun hb => ?_⟩, ?_, ?_, fun x hx => ?_, h.apart, ?_, ?_⟩
  · exact absurd (hb.symm.trans hrb) (by decide)
  · exact absurd (hb.symm.trans hwb) (by decide)
  · show s.transfer.transfers.map Access.call = _
    rw [htransfers, List.map_append, h.moved, hmoved, hmoved', List.map_singleton, hcall]
  · show Replays start s.transfer.transfers s.transfer.sectors
    rw [htransfers]
    exact .snoc h.replays hstep
  · show x.cell = (s.driver.requests x.call).block ∧ (_ ↔ (s.driver.requests x.call).operation = .write) ∧
      (_ → x.data = s.transfer.submitted x.call)
    rw [hsubmitted]
    rcases List.mem_append.1 (htransfers ▸ hx) with hx | hx
    · exact h.asked x hx
    · cases List.mem_singleton.1 hx
      rw [hcall, hcell, hsector]
      refine ⟨rfl, ?_, fun hw => ?_⟩
      · cases hrbusy : s.driver.io.rbusy with
        | true => simp [hwrite, hrbusy, h.busy.1 hrbusy]
        | false =>
            have hwbusy : s.driver.io.wbusy = true := hen.resolve_left (Bool.eq_false_iff.1 hrbusy)
            simp [hwrite, hrbusy, h.busy.2 hwbusy]
      · rw [hdata hw, haddr]
        exact h.intact _ hpending (hmoved ▸ hnew)
  · intro r hr hnot
    show bufferAt s.transfer.ram (s.driver.requests r).buf = s.transfer.submitted r
    rw [hmoved', List.mem_append, not_or, List.mem_singleton] at hnot
    rw [hsubmitted, hothers r hr hnot.2]
    exact h.intact r hr (hmoved ▸ hnot.1)
  · intro x hx hr hread
    show bufferAt s.transfer.ram (s.driver.requests x.call).buf = _
    rcases List.mem_append.1 (htransfers ▸ hx) with hx | hx
    · have hraised : x.call ∈ s.driver.raised := hmoved ▸ h.moved ▸ List.mem_map_of_mem hx
      rw [hothers _ hr fun heq => hnew (heq ▸ hraised)]
      exact h.fetched x hx hr hread
    · cases List.mem_singleton.1 hx
      rw [hcall, ← haddr]
      exact hfetched hread

/-- A thread writes to its own memory. -/
theorem DmaInvariant.store (h : DmaInvariant start s) {a : BitVec 32} {b : UInt8}
    (hfree : ∀ r, s.driver.Pending r → ¬ InBuffer (s.driver.requests r).buf a) :
    DmaInvariant start { s with ram := Function.update s.ram a b } := by
  have hkept : ∀ r, s.driver.Pending r → bufferAt (Function.update s.ram a b) (s.driver.requests r).buf =
      bufferAt s.ram (s.driver.requests r).buf := by
    intro r hr
    refine bufferAt_congr fun x hx => Function.update_of_ne ?_ ..
    rintro rfl
    exact hfree r hr hx
  exact { h with
    intact := fun r hr hnot => (hkept r hr).trans (h.intact r hr hnot)
    fetched := fun e he hr hread => (hkept _ hr).trans (h.fetched e he hr hread) }

theorem DmaInvariant.step (h : DmaInvariant start s) {action : DmaAction} {s' : DmaSystem}
    (hstep : DmaStep rejects s action s') : DmaInvariant start s' := by
  obtain ⟨queue, hqueue⟩ := h.queue
  cases hstep with
  | prepare hstep hapart =>
      obtain ⟨hen, hok⟩ := hstep
      cases hok
      exact h.prepare hen hapart
  | complete hstep => exact h.complete hstep.1 hstep.2
  | driver hop hstep =>
      rcases DiskOp.exec_cases rejects hqueue hstep.1 with ⟨hpanic, -⟩ | ⟨T, queue', hT, hinv, -⟩
      · cases hstep.2.symm.trans hpanic
      · cases hstep.2.symm.trans hT
        exact h.keeps (keeps_of_continues hqueue.toDiskShape hop hstep) ⟨queue', hinv⟩
  | store hfree => exact h.store hfree

/-- A step does no transfer, or that of a request which is under way. -/
theorem DmaInvariant.step_cases (h : DmaInvariant start s) {action : DmaAction} {s' : DmaSystem}
    (hstep : DmaStep rejects s action s') :
    (s'.driver.moved = s.driver.moved ∧ s'.transfers = s.transfers ∧ s'.sectors = s.sectors) ∨
      ∃ e, s.driver.Pending e.call ∧ e.call ∉ s.driver.moved ∧ s'.driver.moved = s.driver.moved ++ [e.call] ∧
        s'.transfers = s.transfers ++ [e] ∧ Step s.sectors e s'.sectors := by
  obtain ⟨queue, hqueue⟩ := h.queue
  cases hstep with
  | prepare hstep hapart =>
      cases hstep.2
      obtain ⟨-, -, hT⟩ := diskSubmitPrepare_frame s.driver _ _ _ _ _ _
      refine .inl ⟨?_, rfl, rfl⟩
      unfold DiskSystem.moved
      rw [hT]
  | complete hstep =>
      obtain ⟨hmoved, hmoved', -⟩ := complete_cases hqueue.toDiskShape hstep.1 hstep.2
      obtain ⟨e, htransfers, hcall, -, -, hstep', -⟩ := s.transfer_spec
      obtain ⟨hmem, hnew⟩ := hqueue.served_not_raised (hqueue.served_of_flag (hstep.1.imp id .inl))
      refine .inr ⟨e, ?_, ?_, ?_, htransfers, hstep'⟩
      · rw [hcall]
        exact .inr (.inr ⟨hmem, hnew⟩)
      · rw [hcall, hmoved]
        exact hnew
      · rw [hcall, hmoved]
        exact hmoved'
  | driver hop hstep => exact .inl ⟨(keeps_of_continues hqueue.toDiskShape hop hstep).moved, rfl, rfl⟩
  | store hfree => exact .inl ⟨rfl, rfl, rfl⟩

/-- A step leaves the requests that are under way as they are. -/
theorem DmaInvariant.step_request (h : DmaInvariant start s) {action : DmaAction} {s' : DmaSystem}
    (hstep : DmaStep rejects s action s') {r : ℕ} (hr : s.driver.Pending r) :
    SameTransfer (s.driver.requests r) (s'.driver.requests r) ∧ s'.submitted r = s.submitted r := by
  obtain ⟨queue, hqueue⟩ := h.queue
  cases hstep with
  | @prepare S' req _ _ _ _ _ hstep hapart =>
      cases hstep.2
      obtain ⟨hother, -, -⟩ := diskSubmitPrepare_frame s.driver _ _ _ _ _ _
      have hne : r ≠ req := by
        rintro rfl
        exact hqueue.calls.used_of_pending hr hstep.1.2.2.1
      refine ⟨?_, Function.update_of_ne hne ..⟩
      rw [(hother r hne).1]
      exact .refl _
  | complete hstep =>
      obtain ⟨-, -, -, -, hS'⟩ := complete_cases hqueue.toDiskShape hstep.1 hstep.2
      obtain ⟨-, -, -, -, -, -, -, -, -, hsubmitted⟩ := s.transfer_spec
      refine ⟨?_, congrFun hsubmitted r⟩
      rw [hS']
      exact .refl _
  | driver hop hstep => exact ⟨(keeps_of_continues hqueue.toDiskShape hop hstep).same r, rfl⟩
  | store hfree => exact ⟨.refl _, rfl⟩

/-- A synchronous call is under way until it returns. -/
theorem DmaInvariant.step_private (h : DmaInvariant start s) {action : DmaAction} {s' : DmaSystem}
    (hstep : DmaStep rejects s action s') {r : ℕ} (hr : s.driver.Private r)
    (hne : action ≠ .driver (.finish r)) : s'.driver.Private r := by
  obtain ⟨queue, hqueue⟩ := h.queue
  cases hstep with
  | @prepare S' req _ _ _ _ _ hstep hapart =>
      cases hstep.2
      obtain ⟨hother, -, -⟩ := diskSubmitPrepare_frame s.driver _ _ _ _ _ _
      have hne : r ≠ req := by
        rintro rfl
        exact hqueue.calls.used_of_pending (.inl hr) hstep.1.2.2.1
      unfold DiskSystem.Private
      rw [(hother r hne).2]
      exact hr
  | complete hstep =>
      obtain ⟨-, -, -, -, hS'⟩ := complete_cases hqueue.toDiskShape hstep.1 hstep.2
      rw [hS']
      exact hr
  | driver hop hstep => exact private_of_continues hop hstep hr fun heq => hne (congrArg DmaAction.driver heq)
  | store hfree => exact hr

/-- A request that is under way was so before the step, or the step is a new call. -/
theorem DmaInvariant.step_pending (h : DmaInvariant start s) {action : DmaAction} {s' : DmaSystem}
    (hstep : DmaStep rejects s action s') {r : ℕ} (hr : s'.driver.Pending r) :
    s.driver.Pending r ∨ ∃ block buf operation sem created,
      action = .driver (.prepare r block buf operation sem created) := by
  obtain ⟨queue, hqueue⟩ := h.queue
  cases hstep with
  | @prepare S' req _ _ _ _ _ hstep hapart =>
      cases hstep.2
      obtain ⟨hother, -, hT⟩ := diskSubmitPrepare_frame s.driver _ _ _ _ _ _
      by_cases hne : r = req
      · rw [hne]
        exact .inr ⟨_, _, _, _, _, rfl⟩
      · left
        unfold DiskSystem.Pending DiskSystem.Private at hr ⊢
        rw [(hother r hne).2, hT] at hr
        exact hr
  | complete hstep =>
      obtain ⟨-, -, -, -, hS'⟩ := complete_cases hqueue.toDiskShape hstep.1 hstep.2
      rw [hS'] at hr
      exact .inl hr
  | driver hop hstep => exact .inl ((keeps_of_continues hqueue.toDiskShape hop hstep).pending r hr)
  | store hfree => exact .inl hr

theorem DmaInvariant.moved_mono (h : DmaInvariant start s) {action : DmaAction} {s' : DmaSystem}
    (hstep : DmaStep rejects s action s') {r : ℕ} (hr : r ∈ s.driver.moved) : r ∈ s'.driver.moved := by
  rcases h.step_cases hstep with ⟨hmoved, -⟩ | ⟨e, -, -, hmoved, -⟩
  · rw [hmoved]
    exact hr
  · rw [hmoved]
    exact List.mem_append_left _ hr

/-- What is in a new request. -/
theorem DmaStep.prepared {s' : DmaSystem} {r : ℕ} {block buf : BitVec 32} {operation : GbdOperation}
    {sem created : ℕ} (hstep : DmaStep rejects s (.driver (.prepare r block buf operation sem created)) s') :
    (s'.driver.requests r).block = block ∧ (s'.driver.requests r).operation = operation ∧
      s'.submitted r = bufferAt s.ram buf ∧ (sem = 0 → created ≠ 0 → s'.driver.Private r) := by
  cases hstep with
  | prepare hstep hapart =>
      cases hstep.2
      obtain ⟨-, ⟨sem', hself⟩, -⟩ := diskSubmitPrepare_frame s.driver r block buf operation sem created
      refine ⟨by rw [hself], by rw [hself], Function.update_self .., fun hsem hcreated => .inl ?_⟩
      unfold diskSubmitPrepare
      rw [if_pos hsem]
      exact (congrArg (DiskSystem.calls · r) (if_neg hcreated)).trans (Function.update_self ..)
  | driver hop hstep => exact hop.elim

/-- A new call does not transfer anything, and nothing was transferred for it. -/
theorem DmaInvariant.prepare_kept (h : DmaInvariant start s) {s' : DmaSystem} {r : ℕ} {block buf : BitVec 32}
    {operation : GbdOperation} {sem created : ℕ}
    (hstep : DmaStep rejects s (.driver (.prepare r block buf operation sem created)) s') :
    s'.sectors = s.sectors ∧ ∀ e ∈ s'.transfers, e.call ≠ r := by
  obtain ⟨queue, hqueue⟩ := h.queue
  cases hstep with
  | prepare hstep hapart =>
      refine ⟨rfl, fun e he hcall => ?_⟩
      have hmem : e.call ∈ s.driver.moved := h.moved ▸ List.mem_map_of_mem he
      exact (hqueue.calls.called _ (hqueue.mem_moved (hcall ▸ hmem))).1 hstep.1.2.2.1
  | driver hop hstep => exact hop.elim

theorem DmaReachable.invariant (h : DmaReachable rejects start s) : DmaInvariant start s := by
  refine Reach.invariant (I := DmaInvariant start) ?_ ?_ h
  · rintro s ⟨hinit, hsectors, hnil⟩
    exact dmaInvariant_init hinit hsectors hnil
  · exact fun s action s' hs hstep => hs.step hstep

/-- The accesses to the sectors that the disk has done are those of the first of the requests that were
scheduled, once for each and in this order, and they lead from the first contents of the sectors to the present
ones. Each is to the block of its request and in its direction, and a write has the data that the buffer
had when the request was submitted. The access of a request whose semaphore was raised is among them, and as
long as a read is under way after it, which is until the call returns if it is synchronous, the buffer
has the data that it has read. A synchronous call that gets past `semaphore_P` has had its access, and
returns 1. -/
theorem dmaReachable_atomic (rejects : BitVec 32 → BitVec 32 → Bool) (start : BitVec 32 → Sector)
    (s : DmaSystem) (h : DmaReachable rejects start s) :
    (∃ waiting, s.transfers.map Access.call ++ waiting = s.driver.scheduled) ∧
    s.driver.scheduled.Nodup ∧
    Replays start s.transfers s.sectors ∧
    (∀ e ∈ s.transfers, e.cell = (s.driver.requests e.call).block ∧
      (e.isWrite = true ↔ (s.driver.requests e.call).operation = .write) ∧
      (e.isWrite = true → e.data = s.submitted e.call)) ∧
    (∀ r ∈ s.driver.raised, ∃ e ∈ s.transfers, e.call = r) ∧
    (∀ e ∈ s.transfers, s.driver.Pending e.call → e.isWrite = false →
      bufferAt s.ram (s.driver.requests e.call).buf = e.data) ∧
    ∀ req, (DiskOp.finish req).Enabled s.driver →
      s.driver.Pending req ∧ (∃ e ∈ s.transfers, e.call = req) ∧
        (diskSubmitFinish s.driver req).calls req = .returned 1 := by
  have hinv := h.invariant
  obtain ⟨queue, hqueue⟩ := hinv.queue
  have hraised : ∀ r ∈ s.driver.raised, ∃ e ∈ s.transfers, e.call = r := by
    intro r hr
    have hmoved : r ∈ s.transfers.map Access.call := by
      rw [hinv.moved]
      exact List.mem_append_left _ hr
    obtain ⟨e, he, hcall⟩ := List.mem_map.1 hmoved
    exact ⟨e, he, hcall⟩
  refine ⟨?_, hqueue.nodup, hinv.replays, hinv.asked, hraised, hinv.fetched, fun req hen => ?_⟩
  · obtain ⟨served, hserved⟩ := hqueue.moved_prefix
    refine ⟨served ++ queue, ?_⟩
    rw [hinv.moved, ← List.append_assoc, hserved, hqueue.order]
  · obtain ⟨-, -, hmem, hcall⟩ := diskSubmitFinish_ok hqueue hen
    exact ⟨.inl (.inr hen.1), hraised req hmem, hcall⟩

/-- A disk with an idle driver, whose sectors are filled with their numbers. -/
def numberedDisk : DmaSystem where
  driver := idleDisk
  sectors := fun b _ => UInt8.ofNat b.toNat
  ram := fun _ => 0
  transfers := []
  submitted := fun _ _ => 0

/-- A call reads sector 3 to the address 0x1000. -/
theorem dmaReachable_atomic_read :
    ∃ s, DmaReachable (fun _ _ => false) numberedDisk.sectors s ∧
      ∃ e ∈ s.transfers, e.call = 64 ∧ e.cell = 3 ∧ bufferAt s.ram 0x1000 = fun _ => 3 := by
  have hinit : DmaReachable (fun _ _ => false) numberedDisk.sectors numberedDisk :=
    .init ⟨⟨rfl, rfl, ⟨rfl, rfl, rfl, rfl⟩, fun _ => rfl, rfl, rfl, rfl⟩, rfl, rfl⟩
  have hnone : ∀ r, ¬ numberedDisk.driver.Pending r := by
    rintro r ((hr | hr) | hr | ⟨hr, -⟩) <;> cases hr
  have hnew : (DiskOp.prepare 64 3 0x1000 .read 8 0).Enabled numberedDisk.driver :=
    ⟨by decide, by decide, rfl, fun h => absurd h (by decide), fun _ r hr => absurd (.inl hr) (hnone r)⟩
  have hprepare := hinit.step _ (.prepare ⟨hnew, rfl⟩ fun r hr => absurd hr (hnone r))
  have hlocked := hprepare.step _ (@DmaStep.driver _ _ _ (.locked 64) trivial ⟨⟨false, rfl⟩, rfl⟩)
  have hcomplete := hlocked.step _ (.complete ⟨.inl rfl, rfl⟩)
  have hfetched := (dmaReachable_atomic _ _ _ hcomplete).2.2.2.2.2.1
  refine ⟨_, hcomplete, ⟨64, false, 3, fun _ => 3⟩, ?_, rfl, rfl, ?_⟩
  · exact List.mem_singleton.2 rfl
  · refine hfetched ⟨64, false, 3, fun _ => 3⟩ ?_ ?_ rfl
    · exact List.mem_singleton.2 rfl
    · refine .inr (.inr ⟨?_, ?_⟩)
      · exact List.mem_singleton.2 rfl
      · exact List.not_mem_nil

end

end Kudos.Disk
