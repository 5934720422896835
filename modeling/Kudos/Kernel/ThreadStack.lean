import Kudos.Kernel.Thread
import Kudos.Library.ByteMemory

set_option autoImplicit false

/-! # The stack area of a new thread

`thread_create` puts the `context_t` of a thread on top of its stack area, clears it and lets
`_context_init` prepare the first switch to the thread. On x86_64 this is a frame of 22 words below the
context, for which 4 bytes are left out and the address is rounded up: it always reaches into the
context (`threadCreate_not_frameSound`). The loop that clears the context counts words of 4 bytes and
stores words of the size of an address (`threadCreate_staysInArea_iff`). -/

namespace Kudos

open ByteMemory

namespace ThreadStack

/-- `CONFIG_THREAD_STACKSIZE`. -/
def configThreadStacksize : ℕ := 4096

/-- The processors that the kernel is built for. -/
inductive Arch where
  | mips32 | x86_64
  deriving DecidableEq, Repr

/-- `sizeof(virtaddr_t)`. -/
def Arch.virtaddrSize : Arch → ℕ
  | .mips32 => 4
  | .x86_64 => 8

/-- `sizeof(context_t)`: 34 words of 4 bytes, or 6 of 8 bytes. -/
def Arch.sizeofContext : Arch → ℕ
  | .mips32 => 136
  | .x86_64 => 48

/-- The offset of `prev_context`, the last field of `context_t`. -/
def Arch.prevContext : Arch → ℕ
  | .mips32 => 132
  | .x86_64 => 40

/-- Where `thread_stack_areas` is in the memory. -/
structure StackAreas (arch : Arch) where
  base : ℕ
  fits : base + configThreadStacksize * configMaxThreads ≤ 256 ^ arch.virtaddrSize

section

variable {arch : Arch}

/-- The start of the stack area of a thread. -/
def StackAreas.bottom (areas : StackAreas arch) (tid : Fin configMaxThreads) : ℕ :=
  areas.base + configThreadStacksize * tid

/-- `thread_table[tid].context`. -/
def StackAreas.context (areas : StackAreas arch) (tid : Fin configMaxThreads) : ℕ :=
  areas.base + configThreadStacksize * tid + configThreadStacksize - arch.sizeofContext

/-! ## `_context_init` -/

/-- A sequence of `*(rsp--) = value` for addresses of 8 bytes. -/
def pushAll : ℕ → List ℕ → List Store
  | _, [] => []
  | rsp, value :: values => ⟨rsp, 8, value⟩ :: pushAll (rsp - 8) values

/-- The round-up of the stack to 16 bytes. -/
def roundUp (stack : ℕ) : ℕ := if stack % 16 ≠ 0 then stack - stack % 16 + 16 else stack

/-- What is pushed on the rounded-up stack: the return address, what `iretq` takes, and the registers from
R15 to RAX. -/
def frameValues (entry endentry stack args : ℕ) : List ℕ :=
  [endentry, 2 * 8, stack, 0x200202, 1 * 8, entry, 0, 0, 0, 0, 0, 0, 0, 0, args, 0, stack - 48, 0, 0, 0,
    0, 0]

/-- `_context_init`. `pml4` is the result of `vmm_get_kernel_pml4`. -/
def contextInit : Arch → ℕ → ℕ → ℕ → ℕ → ℕ → ℕ → List Store
  | .mips32, cxt, entry, endentry, stack, args, _ =>
      [⟨cxt + 124, 4, entry⟩, ⟨cxt + 4 * 26, 4, stack - 4⟩, ⟨cxt + 4 * 3, 4, args⟩,
        ⟨cxt + 4 * 28, 4, endentry⟩, ⟨cxt + 128, 4, 0xff01⟩]
  | .x86_64, cxt, entry, endentry, stack, args, pml4 =>
      pushAll (roundUp stack) (frameValues entry endentry (roundUp stack) args) ++
        [⟨cxt, 8, roundUp stack - 8 * 21⟩, ⟨cxt + 24, 8, pml4⟩, ⟨cxt + 32, 8, pml4⟩, ⟨cxt + 16, 8, 0⟩]

/-! ## `thread_create` -/

/-- The arguments of `thread_create`, with the addresses that the kernel has when it is called. -/
structure ThreadCall where
  func : ℕ
  arg : ℕ
  threadFinish : ℕ
  pml4 : ℕ

/-- The loop that clears the context. -/
def clearContext (arch : Arch) (context : ℕ) : List Store :=
  (List.range (arch.sizeofContext / 4)).map fun i => ⟨context + arch.virtaddrSize * i, arch.virtaddrSize, 0⟩

/-- `thread_create`, once it has got the row `tid` of the thread table: the stores in and around the stack
areas. -/
def threadCreate (areas : StackAreas arch) (tid : Fin configMaxThreads) (call : ThreadCall) :
    List Store :=
  clearContext arch (areas.context tid) ++
  [⟨areas.context tid + arch.prevContext, arch.virtaddrSize, areas.context tid⟩] ++
  contextInit arch (areas.context tid) call.func call.threadFinish
    (areas.base + configThreadStacksize * tid + configThreadStacksize - 4 - arch.sizeofContext) call.arg
    call.pml4

/-! ## The stores and the stack area -/

/-- All stores are in the stack area of the thread. -/
def StaysInArea (areas : StackAreas arch) (tid : Fin configMaxThreads) (call : ThreadCall) : Prop :=
  ∀ s ∈ threadCreate areas tid call,
    areas.bottom tid ≤ s.addr ∧ s.addr + s.width ≤ areas.bottom tid + configThreadStacksize

theorem mem_clearContext {context : ℕ} {s : Store} :
    s ∈ clearContext arch context ↔ ∃ i < arch.sizeofContext / 4,
      s = ⟨context + arch.virtaddrSize * i, arch.virtaddrSize, 0⟩ := by
  simp [clearContext, eq_comm]

/-- **The stores of `thread_create` and the stack area.** They stay in it if and only if an address has the
4 bytes that the loop counts with. -/
theorem threadCreate_staysInArea_iff (areas : StackAreas arch) (tid : Fin configMaxThreads)
    (call : ThreadCall) : StaysInArea areas tid call ↔ arch.virtaddrSize = 4 := by
  unfold StaysInArea threadCreate
  cases arch with
  | mips32 =>
      refine iff_of_true (fun s hs => ?_) rfl
      simp only [List.mem_append, mem_clearContext, List.mem_singleton, StackAreas.bottom,
        StackAreas.context, Arch.virtaddrSize, Arch.sizeofContext, Arch.prevContext,
        configThreadStacksize] at hs ⊢
      rcases hs with (⟨i, hi, rfl⟩ | rfl) | hs
      · simp only
        omega
      · simp only
        omega
      · simp only [contextInit, List.mem_cons, List.not_mem_nil, or_false] at hs
        rcases hs with rfl | rfl | rfl | rfl | rfl
        · simp only
          omega
        · simp only
          omega
        · simp only
          omega
        · simp only
          omega
        · simp only
          omega
  | x86_64 =>
      refine iff_of_false (fun h => ?_) (by decide)
      have hmem : (⟨areas.context tid + 48, 8, 0⟩ : Store) ∈ clearContext .x86_64 (areas.context tid) :=
        mem_clearContext.2 ⟨6, by decide, rfl⟩
      have hover := (h _ (List.mem_append_left _ (List.mem_append_left _ hmem))).2
      simp only [StackAreas.bottom, StackAreas.context, Arch.sizeofContext, configThreadStacksize] at hover
      omega

/-- Then the rest of the memory is as it was, the stacks and contexts of other threads included. -/
theorem storeAll_threadCreate_outside {areas : StackAreas arch} {tid : Fin configMaxThreads}
    {call : ThreadCall} (harch : arch.virtaddrSize = 4) (mem : ℕ → UInt8) {x : ℕ}
    (hx : x < areas.bottom tid ∨ areas.bottom tid + configThreadStacksize ≤ x) :
    storeAll mem (threadCreate areas tid call) x = mem x :=
  storeAll_of_outside fun s hs => by
    have := (threadCreate_staysInArea_iff areas tid call).2 harch s hs
    omega

/-- The areas of a kernel on x86_64 that are at 1 MiB. -/
def areasAtMebibyte : StackAreas .x86_64 := ⟨0x100000, by decide⟩

/-- The context of thread 1 is cleared up to 48 bytes into the area of thread 2. -/
theorem areasAtMebibyte_not_staysInArea :
    ¬ StaysInArea areasAtMebibyte ⟨1, by decide⟩ ⟨0x1000, 0, 0x2000, 0x3000⟩ := by
  unfold StaysInArea
  decide

/-! ## The frame of a new thread on x86_64 -/

/-- What a new thread needs from its context: `context->stack` points to a frame of 22 words, from which
the first switch takes 16 registers and `iretq` the rest. At the stack pointer that `iretq` sets is the
return address, and the frame has no byte in common with the context. -/
structure FrameSound (mem : ℕ → UInt8) (context threadFinish : ℕ) : Prop where
  returns : load mem 8 (load mem 8 (load mem 8 context + 8 * 19)) = threadFinish
  disjoint : load mem 8 context + 8 * 22 ≤ context ∨ context + 48 ≤ load mem 8 context

theorem roundUp_le (stack : ℕ) : stack ≤ roundUp stack ∧ roundUp stack < stack + 16 := by
  unfold roundUp
  split
  · omega
  · omega

section

variable {areas : StackAreas .x86_64} {tid : Fin configMaxThreads} {call : ThreadCall} {mem : ℕ → UInt8}

/-- The stack that `thread_create` hands over. -/
theorem stack_eq (areas : StackAreas .x86_64) (tid : Fin configMaxThreads) :
    areas.base + configThreadStacksize * tid + configThreadStacksize - 4 - Arch.x86_64.sizeofContext
      = areas.context tid - 4 := by
  simp only [StackAreas.context]
  omega

theorem context_bounds (areas : StackAreas .x86_64) (tid : Fin configMaxThreads) :
    4048 ≤ areas.context tid ∧ areas.context tid + 48 ≤ 2 ^ 64 := by
  have hfits := areas.fits
  have htid := tid.isLt
  simp only [StackAreas.context, configThreadStacksize, configMaxThreads, Arch.virtaddrSize,
    Arch.sizeofContext] at hfits htid ⊢
  omega

/-- `context->stack` points to the last word that was pushed. -/
theorem load_context (areas : StackAreas .x86_64) (tid : Fin configMaxThreads) (call : ThreadCall)
    (mem : ℕ → UInt8) : load (storeAll mem (threadCreate areas tid call)) 8 (areas.context tid)
      = roundUp (areas.context tid - 4) - 8 * 21 := by
  obtain ⟨hlow, hhigh⟩ := context_bounds areas tid
  have hround := roundUp_le (areas.context tid - 4)
  have hvalue : roundUp (areas.context tid - 4) - 8 * 21 < 256 ^ 8 := by omega
  unfold threadCreate contextInit
  rw [stack_eq, ← List.append_assoc]
  refine @load_storeAll mem _ _ ⟨areas.context tid, 8, roundUp (areas.context tid - 4) - 8 * 21⟩ hvalue
    fun s hs => ?_
  simp only [List.mem_cons, List.not_mem_nil, or_false] at hs
  rcases hs with rfl | rfl | rfl
  · exact Or.inr (by simp only; omega)
  · exact Or.inr (by simp only; omega)
  · exact Or.inr (by simp only; omega)

theorem mem_pushAll {s : Store} {values : List ℕ} {rsp : ℕ} (h : s ∈ pushAll rsp values) :
    s.addr ≤ rsp ∧ s.width = 8 := by
  induction values generalizing rsp with
  | nil => cases h
  | cons value values ih =>
      rcases List.mem_cons.1 h with rfl | h
      · exact ⟨Nat.le_refl _, rfl⟩
      · obtain ⟨haddr, hwidth⟩ := ih h
        exact ⟨by omega, hwidth⟩

/-- If the areas are aligned, the return address is the first word of the context, where
`context->stack` has been stored since. -/
theorem load_returnAddress (hbase : areas.base % 16 = 0) :
    load (storeAll mem (threadCreate areas tid call)) 8
        (load (storeAll mem (threadCreate areas tid call)) 8
          (load (storeAll mem (threadCreate areas tid call)) 8 (areas.context tid) + 8 * 19))
      = load (storeAll mem (threadCreate areas tid call)) 8 (areas.context tid) := by
  obtain ⟨hlow, hhigh⟩ := context_bounds areas tid
  have halign : areas.context tid % 16 = 0 := by
    simp only [StackAreas.context, configThreadStacksize, Arch.sizeofContext]
    omega
  have hround : roundUp (areas.context tid - 4) = areas.context tid := by
    unfold roundUp
    rw [if_pos (by omega)]
    omega
  have hslot : load (storeAll mem (threadCreate areas tid call)) 8 (areas.context tid - 8 - 8)
      = areas.context tid := by
    unfold threadCreate
    rw [contextInit, stack_eq, hround, frameValues, pushAll, pushAll, pushAll]
    have hload := @load_storeAll mem (clearContext .x86_64 (areas.context tid) ++
        [⟨areas.context tid + Arch.x86_64.prevContext, Arch.x86_64.virtaddrSize, areas.context tid⟩] ++
        [⟨areas.context tid, 8, call.threadFinish⟩, ⟨areas.context tid - 8, 8, 2 * 8⟩])
      (pushAll (areas.context tid - 8 - 8 - 8) [0x200202, 1 * 8, call.func, 0, 0, 0, 0, 0, 0, 0, 0, call.arg, 0,
          areas.context tid - 48, 0, 0, 0, 0, 0] ++
        [⟨areas.context tid, 8, areas.context tid - 8 * 21⟩, ⟨areas.context tid + 24, 8, call.pml4⟩,
          ⟨areas.context tid + 32, 8, call.pml4⟩, ⟨areas.context tid + 16, 8, 0⟩])
      ⟨areas.context tid - 8 - 8, 8, areas.context tid⟩ (show areas.context tid < 256 ^ 8 by omega) ?_
    · simpa only [List.append_assoc, List.cons_append, List.nil_append] using hload
    · intro s hs
      rcases List.mem_append.1 hs with hs | hs
      · obtain ⟨haddr, hwidth⟩ := mem_pushAll hs
        simp only
        omega
      · simp only [List.mem_cons, List.not_mem_nil, or_false] at hs
        rcases hs with rfl | rfl | rfl | rfl
        · exact Or.inr (by simp only; omega)
        · exact Or.inr (by simp only; omega)
        · exact Or.inr (by simp only; omega)
        · exact Or.inr (by simp only; omega)
  rw [load_context, hround, show areas.context tid - 8 * 21 + 8 * 19 = areas.context tid - 8 - 8 by omega,
    hslot, load_context, hround]

/-- **The frame of a new thread is not sound.** It reaches into the context, wherever the stack areas are. -/
theorem threadCreate_not_frameSound (areas : StackAreas .x86_64) (tid : Fin configMaxThreads)
    (call : ThreadCall) (mem : ℕ → UInt8) :
    ¬ FrameSound (storeAll mem (threadCreate areas tid call)) (areas.context tid) call.threadFinish := by
  intro h
  obtain ⟨hlow, -⟩ := context_bounds areas tid
  have hround := roundUp_le (areas.context tid - 4)
  have hdisjoint := h.disjoint
  rw [load_context] at hdisjoint
  omega

/-- Thread 1 would return to its own frame, not to `thread_finish`. -/
theorem areasAtMebibyte_not_frameSound :
    ¬ FrameSound (storeAll (fun _ => 0) (threadCreate areasAtMebibyte ⟨1, by decide⟩
        ⟨0x1000, 0, 0x2000, 0x3000⟩)) (areasAtMebibyte.context ⟨1, by decide⟩) 0x2000 := by
  intro h
  have hreturns := h.returns
  rw [load_returnAddress (by decide), load_context] at hreturns
  exact absurd hreturns (by decide)

end

end

end ThreadStack

end Kudos
