import Kudos.Kernel.Thread
import Kudos.Library.Coroutine

set_option autoImplicit false

/-! # The context switch of mips32

`_cswitch.S` and `cswitch.c` of `kernel/mips32`, with what `thread.c` makes of a context. An exception puts the
registers of a thread into a `context_t` on its kernel stack and links it to the one before; when the handler
has finished, the registers come from the newest context of the thread that runs then. The memory is one of
words, by their addresses. -/

namespace Kudos.Mips32.Switch

/-! ## Memory -/

abbrev Memory := BitVec 32 → BitVec 32

/-- `n` bytes after an address. -/
def slot (a : BitVec 32) (n : ℕ) : BitVec 32 := a + BitVec.ofNat 32 n

/-- The address is one of the `n` bytes from `a` on. -/
def InBlock (a : BitVec 32) (n : ℕ) (x : BitVec 32) : Prop := a.toNat ≤ x.toNat ∧ x.toNat < a.toNat + n

/-- A sequence of `sw`, of the first `n` words of `f`. -/
def storeWords (m : Memory) (a : BitVec 32) (f : ℕ → BitVec 32) : ℕ → Memory
  | 0 => m
  | n + 1 => Function.update (storeWords m a f n) (slot a (4 * n)) (f n)

/-! ## Registers and contexts -/

/-- The registers that a context has, by their indices in `cpu_regs`. -/
abbrev Registers := Fin 29 → BitVec 32

def registerV0 : Fin 29 := 1
def registerA0 : Fin 29 := 3
def registerT0 : Fin 29 := 7
def registerT1 : Fin 29 := 8
def registerT7 : Fin 29 := 14
def registerSp : Fin 29 := 26
def registerRa : Fin 29 := 28

/-- A processor: its registers, and those of coprocessor 0 that are used. Of the registers that no context has,
`k1` holds intermediate values only. -/
structure Cpu where
  regs : Registers
  k0 : BitVec 32
  hi : BitVec 32
  lo : BitVec 32
  epc : BitVec 32
  status : BitVec 32
  cause : BitVec 32
  pc : BitVec 32

/-- What a thread sees of its processor, which does not include `k0`: of `Status` the interrupt mask, the bit for
user mode and the one that enables interrupts. -/
@[ext]
structure Ctx where
  regs : Registers
  hi : BitVec 32
  lo : BitVec 32
  pc : BitVec 32
  status : BitVec 32

def Cpu.visible (p : Cpu) : Ctx := ⟨p.regs, p.hi, p.lo, p.pc, p.status &&& 0xff11⟩

/-- `USERLAND_ENABLE_BIT`. -/
def userlandEnableBit : BitVec 32 := 0x10

/-- The words of a `context_t` before `prev_context`. -/
def Ctx.word (x : Ctx) (i : ℕ) : BitVec 32 :=
  if h : i < 29 then x.regs ⟨i, h⟩
  else if i = 29 then x.hi
  else if i = 30 then x.lo
  else if i = 31 then x.pc
  else x.status

/-- There is a `context_t` with these words at the address. -/
def CtxAt (m : Memory) (p : BitVec 32) (x : Ctx) : Prop := ∀ i < 33, m (slot p (4 * i)) = x.word i

/-! ## The addresses of the kernel -/

abbrev CpuId := Fin configMaxCpus

abbrev Tid := Fin configMaxThreads

/-- `IDLE_THREAD_TID`. -/
def idleTid : Tid := ⟨0, by decide⟩

/-- Where the tables, the stacks and the code are. -/
structure Layout where
  threadTable : BitVec 32
  currentThread : BitVec 32
  interruptStacks : BitVec 32
  threadStackAreas : BitVec 32
  interruptHandle : BitVec 32
  kernelExceptionHandle : BitVec 32
  userExceptionHandle : BitVec 32
  handleFinished : BitVec 32
  idleThreadWaitLoop : BitVec 32
  threadFinish : BitVec 32
  table_fits : threadTable.toNat + 64 * configMaxThreads ≤ 2 ^ 32
  current_fits : currentThread.toNat + 16 ≤ 2 ^ 32
  areas_fit : threadStackAreas.toNat + 4096 * configMaxThreads ≤ 2 ^ 32
  table_current : threadTable.toNat + 64 * configMaxThreads ≤ currentThread.toNat ∨
    currentThread.toNat + 16 ≤ threadTable.toNat
  table_areas : threadTable.toNat + 64 * configMaxThreads ≤ threadStackAreas.toNat ∨
    threadStackAreas.toNat + 4096 * configMaxThreads ≤ threadTable.toNat
  current_areas : currentThread.toNat + 16 ≤ threadStackAreas.toNat ∨
    threadStackAreas.toNat + 4096 * configMaxThreads ≤ currentThread.toNat

namespace Layout

variable (L : Layout)

/-- `&thread_table[tid].context`. -/
def entry (t : Tid) : BitVec 32 := slot L.threadTable (64 * t)

/-- `&scheduler_current_thread[cpu]`. -/
def current (c : CpuId) : BitVec 32 := slot L.currentThread (4 * c)

/-- The first address of the stack area of a thread. -/
def area (t : Tid) : ℕ := L.threadStackAreas.toNat + 4096 * t

/-- Where `thread_create` puts the context of a thread. -/
def base (t : Tid) : BitVec 32 := slot L.threadStackAreas (4096 * t + 4096 - 136)

end Layout

/-! ## `_cswitch.S` -/

variable (L : Layout)

/-- `_cswitch_context_save`, with the address in `k0`. The last four words go through `t1`. -/
def contextSave (p : Cpu) (m : Memory) : Cpu × Memory :=
  let status := p.status &&& 0xff11
  ({ p with regs := Function.update p.regs registerT1 status },
    storeWords m p.k0 (Ctx.word ⟨p.regs, p.hi, p.lo, p.epc, status⟩) 33)

/-- `_cswitch_context_restore`. -/
def contextRestore (p : Cpu) (m : Memory) : Cpu :=
  { p with
    hi := m (slot p.k0 116)
    lo := m (slot p.k0 120)
    epc := m (slot p.k0 124)
    status := (p.status &&& 0xffff00ee) ||| m (slot p.k0 128)
    regs := fun i => m (slot p.k0 (4 * i)) }

/-- `TID*64` of the thread that runs on a processor. -/
def currentOffset (c : CpuId) (m : Memory) : BitVec 32 := m (L.current c) <<< 6

/-- Where the context is put: on the stack that is in use, or, in user mode, on the one that the context of the
thread in the kernel knows. -/
def saveAddress (c : CpuId) (p : Cpu) (m : Memory) : BitVec 32 :=
  let k0 :=
    if p.status &&& 0x10 = 0 then p.regs registerSp
    else m (slot (m (currentOffset L c m + L.threadTable)) 104)
  k0 - 136

/-- The old context pointer goes into the new context, and its address into the thread structure. The context of
the idle thread is ignored. -/
def linkContext (c : CpuId) (sp : BitVec 32) (m : Memory) : Memory :=
  let k0 := currentOffset L c m
  let t1 := k0 + L.threadTable
  let m := Function.update m (slot sp 132) (m t1)
  if k0 = 0 then m else Function.update m t1 sp

/-- `_cswitch_switch`, until it jumps to a handler. The `jal` to the first two handlers leaves the address of
the jump to `_handle_finished` behind it in `ra`, not that of `_handle_finished` itself as here; the handlers
return there either way. -/
def cswitchSwitch (c : CpuId) (p : Cpu) (m : Memory) : Cpu × Memory :=
  let (p, m) := contextSave { p with k0 := saveAddress L c p m } m
  let sp := p.k0
  let t0 := m (currentOffset L c m + L.threadTable)
  let m := linkContext L c sp m
  let code := (p.cause >>> 2) &&& 0x1f
  let sp := (if code = 0 then m (slot L.interruptStacks (4 * c)) else sp) - 4
  let t7 := p.status &&& 0x10
  let a0 := if code = 0 then p.cause else code
  let pc :=
    if code = 0 then L.interruptHandle
    else if t7 = 0 then L.kernelExceptionHandle else L.userExceptionHandle
  let regs := Function.update p.regs registerT0 t0
  let regs := Function.update regs registerT1 0x10
  let regs := Function.update regs registerT7 t7
  let regs := Function.update regs registerSp sp
  let regs := Function.update regs registerA0 a0
  let regs := Function.update regs registerRa L.handleFinished
  ({ p with regs, k0 := p.status &&& 0xffffffef, status := p.status &&& 0xffffffef, pc }, m)

/-- `eret`. -/
def eret (p : Cpu) : Cpu := { p with pc := p.epc, status := p.status &&& 0xfffffffd }

/-- `_handle_finished`, to the end of `_cswitch_switch`. -/
def handleFinished (c : CpuId) (p : Cpu) (m : Memory) : Cpu × Memory :=
  let t0 := currentOffset L c m + L.threadTable
  let k0 := m t0
  let m := Function.update m t0 (m (slot k0 132))
  (eret (contextRestore { p with k0 } m), m)

/-- The exception itself, which sets `EXL`. -/
def takeException (p : Cpu) (cause : BitVec 32) : Cpu :=
  { p with epc := p.pc, status := p.status ||| 2, cause }

/-! ## `cswitch.c` and `thread.c` -/

/-- `_context_init`. -/
def contextInit (m : Memory) (cxt entry endentry stack args : BitVec 32) : Memory :=
  let m := Function.update m (slot cxt 124) entry
  let m := Function.update m (slot cxt (4 * registerSp)) (stack - 4)
  let m := Function.update m (slot cxt (4 * registerA0)) args
  let m := Function.update m (slot cxt (4 * registerRa)) endentry
  Function.update m (slot cxt 128) 0xff01

/-- What `thread_table_init` does with the contexts: all of them are on top of the stack areas, and that of the
idle thread is made ready. -/
def threadTableInit (m : Memory) : Memory :=
  let m := (List.finRange configMaxThreads).foldl (fun m t => Function.update m (L.entry t) (L.base t)) m
  let m := Function.update m (slot (L.base idleTid) 124) L.idleThreadWaitLoop
  let m := Function.update m (slot (L.base idleTid) (4 * registerSp)) (slot L.threadStackAreas (4096 - 4 - 136))
  let m := Function.update m (slot (L.base idleTid) 128) 0xff01
  Function.update m (slot (L.base idleTid) 132) (L.base idleTid)

/-- What `thread_create` does with the memory, once it has got a row of the table. -/
def threadCreate (m : Memory) (t : Tid) (func arg : BitVec 32) : Memory :=
  let m := Function.update m (L.entry t) (L.base t)
  let m := storeWords m (L.base t) (fun _ => 0) 34
  let m := Function.update m (slot (L.base t) 132) (L.base t)
  contextInit m (L.base t) func L.threadFinish (slot L.threadStackAreas (4096 * t + 4096 - 4 - 136)) arg

/-- `_context_enter_userland`, up to the call. -/
def contextEnterUserland (m : Memory) (cxt : BitVec 32) : Memory :=
  Function.update m (slot cxt 128) (m (slot cxt 128) ||| userlandEnableBit ||| 0xff00 ||| 1)

/-- `_cswitch_to_userland`, with the context in `a0`. -/
def cswitchToUserland (p : Cpu) (m : Memory) : Cpu :=
  eret (contextRestore { p with status := p.status ||| 2, k0 := p.regs registerA0 } m)

/-- What `syscall_handle` does with the context of the user, where `v` is the result of the system call. -/
def syscallHandle (m : Memory) (userContext v : BitVec 32) : Memory :=
  let m := Function.update m (slot userContext (4 * registerV0)) v
  Function.update m (slot userContext 124) (m (slot userContext 124) + 4)

/-! ## Blocks -/

section

variable {a b x : BitVec 32} {n k : ℕ} {m : Memory} {f : ℕ → BitVec 32}

theorem toNat_slot (h : a.toNat + n < 2 ^ 32) : (slot a n).toNat = a.toNat + n := by
  unfold slot
  rw [BitVec.toNat_add, BitVec.toNat_ofNat]
  omega

theorem inBlock_slot (h : a.toNat + n < 2 ^ 32) (hn : n < k) : InBlock a k (slot a n) := by
  unfold InBlock
  rw [toNat_slot h]
  omega

theorem slot_ne_of_ne {j : ℕ} (h : a.toNat + k ≤ 2 ^ 32) (hn : n < k) (hj : j < k) (hne : n ≠ j) :
    slot a n ≠ slot a j := by
  intro heq
  have := congrArg BitVec.toNat heq
  rw [toNat_slot (by omega), toNat_slot (by omega)] at this
  omega

theorem slot_ne_of_not_inBlock (h : a.toNat + k ≤ 2 ^ 32) (hn : n < k) (hx : ¬ InBlock a k x) : x ≠ slot a n := by
  rintro rfl
  exact hx (inBlock_slot (by omega) hn)

/-- Outside of the words that are stored. -/
theorem storeWords_of_outside (h : a.toNat + 4 * n ≤ 2 ^ 32) (hx : ¬ InBlock a (4 * n) x) :
    storeWords m a f n x = m x := by
  induction n with
  | zero => rfl
  | succ n ih =>
      have hx' : ¬ InBlock a (4 * n) x := fun hin => hx ⟨hin.1, by have := hin.2; omega⟩
      rw [storeWords, Function.update_of_ne (slot_ne_of_not_inBlock h (by omega) hx), ih (by omega) hx']

theorem storeWords_slot (h : a.toNat + 4 * n ≤ 2 ^ 32) (hk : k < n) : storeWords m a f n (slot a (4 * k)) = f k := by
  induction n with
  | zero => omega
  | succ n ih =>
      unfold storeWords
      by_cases heq : k = n
      · rw [heq, Function.update_self]
      · rw [Function.update_of_ne (slot_ne_of_ne h (by omega) (by omega) (by omega)), ih (by omega) (by omega)]

theorem CtxAt.congr {m' : Memory} {p : BitVec 32} {c : Ctx} (h : CtxAt m p c) (hp : p.toNat + 132 ≤ 2 ^ 32)
    (hm : ∀ x, InBlock p 132 x → m' x = m x) : CtxAt m' p c := by
  intro i hi
  rw [hm _ (inBlock_slot (by omega) (by omega)), h i hi]

end

/-! ## The addresses -/

section

variable {L : Layout} {t t' : Tid} {c c' : CpuId} {x : BitVec 32}

theorem toNat_base (L : Layout) (t : Tid) : (L.base t).toNat = L.area t + 3960 := by
  have h := L.areas_fit
  have ht := t.isLt
  unfold configMaxThreads at h ht
  unfold Layout.base Layout.area
  rw [toNat_slot (by omega)]
  omega

theorem area_lt (L : Layout) (t : Tid) : L.area t + 4096 ≤ 2 ^ 32 := by
  have h := L.areas_fit
  have ht := t.isLt
  unfold configMaxThreads at h ht
  unfold Layout.area
  omega

theorem area_disjoint (h : t ≠ t') : L.area t + 4096 ≤ L.area t' ∨ L.area t' + 4096 ≤ L.area t := by
  have hne : t.val ≠ t'.val := fun heq => h (Fin.ext heq)
  unfold Layout.area
  omega

theorem toNat_entry (L : Layout) (t : Tid) : (L.entry t).toNat = L.threadTable.toNat + 64 * t := by
  have h := L.table_fits
  have ht := t.isLt
  unfold configMaxThreads at h ht
  unfold Layout.entry
  rw [toNat_slot (by omega)]

theorem toNat_current (L : Layout) (c : CpuId) : (L.current c).toNat = L.currentThread.toNat + 4 * c := by
  have h := L.current_fits
  have hc := c.isLt
  unfold configMaxCpus at hc
  unfold Layout.current
  rw [toNat_slot (by omega)]

theorem entry_ne_current (L : Layout) (t : Tid) (c : CpuId) : L.entry t ≠ L.current c := by
  have h := L.table_current
  have ht := t.isLt
  have hc := c.isLt
  unfold configMaxCpus at hc
  unfold configMaxThreads at h ht
  intro heq
  have := congrArg BitVec.toNat heq
  rw [toNat_entry, toNat_current] at this
  omega

theorem entry_inj (h : L.entry t = L.entry t') : t = t' := by
  have := congrArg BitVec.toNat h
  rw [toNat_entry, toNat_entry] at this
  exact Fin.ext (by omega)

theorem current_inj (h : L.current c = L.current c') : c = c' := by
  have := congrArg BitVec.toNat h
  rw [toNat_current, toNat_current] at this
  exact Fin.ext (by omega)

/-- The tables are not in a stack area. -/
theorem entry_not_in_area (L : Layout) (t t' : Tid) :
    ¬ (L.area t ≤ (L.entry t').toNat ∧ (L.entry t').toNat < L.area t + 4096) := by
  have h := L.table_areas
  have ht := t.isLt
  have ht' := t'.isLt
  unfold configMaxThreads at h ht ht'
  unfold Layout.area
  rw [toNat_entry]
  omega

theorem current_not_in_area (L : Layout) (t : Tid) (c : CpuId) :
    ¬ (L.area t ≤ (L.current c).toNat ∧ (L.current c).toNat < L.area t + 4096) := by
  have h := L.current_areas
  have ht := t.isLt
  have hc := c.isLt
  unfold configMaxCpus at hc
  unfold configMaxThreads at h ht
  unfold Layout.area
  rw [toNat_current]
  omega

/-- The address that the code computes from the thread's number. -/
theorem entry_eq {m : Memory} (h : m (L.current c) = BitVec.ofNat 32 t) :
    currentOffset L c m + L.threadTable = L.entry t ∧ (currentOffset L c m = 0 ↔ t = idleTid) := by
  have ht := t.isLt
  unfold configMaxThreads at ht
  have hoffset : currentOffset L c m = BitVec.ofNat 32 (64 * t) := by
    unfold currentOffset
    rw [h]
    apply BitVec.eq_of_toNat_eq
    rw [BitVec.toNat_shiftLeft, BitVec.toNat_ofNat, BitVec.toNat_ofNat, Nat.shiftLeft_eq]
    omega
  rw [hoffset]
  refine ⟨BitVec.add_comm .., fun hzero => Fin.ext ?_, ?_⟩
  · have := congrArg BitVec.toNat hzero
    rw [BitVec.toNat_ofNat] at this
    change 64 * t.val % 2 ^ 32 = 0 at this
    change t.val = 0
    omega
  · rintro rfl
    rfl

end

end Kudos.Mips32.Switch
