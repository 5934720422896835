import Kudos.Kernel.ContextSwitch

set_option autoImplicit false

/-! # Runs of the context switch

Any number of context switches of any number of threads on the processors, in any order, with all other code
between them, as long as this does not write where a context lies. They are what `Coroutine` says
(`switchReachable_refines`): a thread gets back exactly the registers with which it was interrupted. The contexts
of a thread are a chain on its stack, the newest one at the lowest address (`Frames`). -/

namespace Kudos.Mips32.Switch

open Transition

/-! ## Chains of contexts -/

/-- The contexts that are found from an address on. -/
inductive OnChain (m : Memory) : BitVec 32 → BitVec 32 → Prop
  | here {p : BitVec 32} : OnChain m p p
  | next {p q : BitVec 32} : OnChain m (m (slot p 132)) q → OnChain m p q

/-- The chain of a thread is a list of contexts, each below the one before it. A context from user mode is the
one after the first that the thread has had, of which the stack pointer is still good. -/
inductive Frames (L : Layout) (t : Tid) (m : Memory) : BitVec 32 → List Ctx → Prop
  | base {x : Ctx} : CtxAt m (L.base t) x → m (slot (L.base t) 132) = L.base t →
      x.status &&& 0xff11 = x.status → x.status &&& userlandEnableBit = 0 →
      L.area t + 136 ≤ (x.regs registerSp).toNat → (x.regs registerSp).toNat ≤ (L.base t).toNat →
      Frames L t m (L.base t) [x]
  | push {p : BitVec 32} {x : Ctx} {l : List Ctx} : CtxAt m p x → x.status &&& 0xff11 = x.status →
      L.area t ≤ p.toNat → p.toNat + 136 ≤ (m (slot p 132)).toNat →
      (x.status &&& userlandEnableBit ≠ 0 → m (slot p 132) = L.base t) → Frames L t m (m (slot p 132)) l →
      Frames L t m p (x :: l)

/-! ## The system -/

/-- The processors, the memory, and which rows of the thread table are in use. -/
structure SwitchState where
  cpus : CpuId → Cpu
  mem : Memory
  created : Tid → Bool

variable (L : Layout)

/-- The words that the context switch relies on: the pointers in the two tables, and the contexts. -/
def Protected (s : SwitchState) (x : BitVec 32) : Prop :=
  (∃ t, x = L.entry t) ∨ (∃ c, x = L.current c) ∨
    ∃ t p, s.created t = true ∧ OnChain s.mem (s.mem (L.entry t)) p ∧ InBlock p 136 x

/-- The thread runs on the processor. -/
def Runs (s : SwitchState) (c : CpuId) (t : Tid) : Prop := s.mem (L.current c) = BitVec.ofNat 32 t

def InUserMode (s : SwitchState) (c : CpuId) : Prop := (s.cpus c).status &&& userlandEnableBit ≠ 0

instance {s : SwitchState} {c : CpuId} {t : Tid} : Decidable (Runs L s c t) := inferInstanceAs (Decidable (_ = _))

instance {s : SwitchState} {c : CpuId} : Decidable (InUserMode s c) := inferInstanceAs (Decidable (_ ≠ _))

/-- Kernel code that is interrupted has its stack below the contexts of the thread, with room for one more. The
stack of the idle thread, and the one that the kernel has at the start, need the room only. -/
def StackOk (s : SwitchState) (c : CpuId) (t : Tid) : Prop :=
  let sp := (s.cpus c).regs registerSp
  if t = idleTid then 136 ≤ sp.toNat ∧ ∀ x, InBlock (sp - 136) 136 x → ¬ Protected L s x
  else L.area t + 136 ≤ sp.toNat ∧ sp.toNat ≤ (s.mem (L.entry t)).toNat

namespace SwitchState

/-- An exception, up to its handler. -/
def exception (s : SwitchState) (c : CpuId) (cause : BitVec 32) : SwitchState :=
  { s with cpus := Function.update s.cpus c (cswitchSwitch L c (takeException (s.cpus c) cause) s.mem).1
           mem := (cswitchSwitch L c (takeException (s.cpus c) cause) s.mem).2 }

/-- A system call of the thread of a row has the result `v`. -/
def syscall (s : SwitchState) (t : Tid) (v : BitVec 32) : SwitchState :=
  { s with mem := syscallHandle s.mem (s.mem (L.entry t)) v }

/-- The scheduler writes which thread runs now. -/
def switch (s : SwitchState) (c : CpuId) (t : Tid) : SwitchState :=
  { s with mem := Function.update s.mem (L.current c) (BitVec.ofNat 32 t) }

/-- A handler is finished. -/
def finish (s : SwitchState) (c : CpuId) : SwitchState :=
  { s with cpus := Function.update s.cpus c (handleFinished L c (s.cpus c) s.mem).1
           mem := (handleFinished L c (s.cpus c) s.mem).2 }

/-- A thread goes to user mode, with the context that it has in `a0`. -/
def userland (s : SwitchState) (c : CpuId) : SwitchState :=
  let m := contextEnterUserland s.mem ((s.cpus c).regs registerA0)
  { s with cpus := Function.update s.cpus c (cswitchToUserland (s.cpus c) m), mem := m }

def create (s : SwitchState) (t : Tid) (func arg : BitVec 32) : SwitchState :=
  { s with mem := threadCreate L s.mem t func arg, created := Function.update s.created t true }

def free (s : SwitchState) (t : Tid) : SwitchState := { s with created := Function.update s.created t false }

end SwitchState

inductive SwitchAction
  | run (c : CpuId)
  | exception (c : CpuId) (cause : BitVec 32)
  | syscall (c : CpuId) (v : BitVec 32)
  | switch (c : CpuId) (t : Tid)
  | finish (c : CpuId)
  | userland (c : CpuId)
  | create (t : Tid) (func arg : BitVec 32)
  | free (t : Tid)

inductive SwitchStep : SwitchState → SwitchAction → SwitchState → Prop
  /-- Any code of a thread or of a handler. The bit for user mode it cannot change. -/
  | run {s : SwitchState} {c : CpuId} {p : Cpu} {m : Memory} : (∀ x, Protected L s x → m x = s.mem x) →
      p.status &&& userlandEnableBit = (s.cpus c).status &&& userlandEnableBit →
      SwitchStep s (.run c) { s with cpus := Function.update s.cpus c p, mem := m }
  | exception {s : SwitchState} {c : CpuId} {t : Tid} {cause : BitVec 32} : Runs L s c t →
      (¬ InUserMode s c → StackOk L s c t) → SwitchStep s (.exception c cause) (s.exception L c cause)
  /-- The handler of a system call is done, on the stack above which the user's context is the newest one. -/
  | syscall {s : SwitchState} {c : CpuId} {t : Tid} {v : BitVec 32} : Runs L s c t → ¬ InUserMode s c →
      s.mem (L.entry t) ≠ L.base t → SwitchStep s (.syscall c v) (s.syscall L t v)
  /-- The scheduler. A thread runs on one processor at most, apart from the idle thread. The source writes
  `scheduler_current_thread` after it has released the lock of the thread table; that another processor takes
  the old thread in between, which this one does not touch any more, is left out here. -/
  | switch {s : SwitchState} {c : CpuId} {t : Tid} : ¬ InUserMode s c → s.created t = true →
      (t = idleTid ∨ ∀ d, d ≠ c → ¬ Runs L s d t) → SwitchStep s (.switch c t) (s.switch L c t)
  | finish {s : SwitchState} {c : CpuId} : ¬ InUserMode s c → SwitchStep s (.finish c) (s.finish L c)
  /-- A thread that has not been interrupted goes to user mode, with a context of its own making. -/
  | userland {s : SwitchState} {c : CpuId} {t : Tid} : Runs L s c t → t ≠ idleTid → ¬ InUserMode s c →
      s.mem (L.entry t) = L.base t → ¬ Protected L s (slot ((s.cpus c).regs registerA0) 128) →
      SwitchStep s (.userland c) (s.userland c)
  | create {s : SwitchState} {t : Tid} {func arg : BitVec 32} : s.created t = false →
      SwitchStep s (.create t func arg) (s.create L t func arg)
  /-- The scheduler gives a row back before it writes which thread runs instead, with the interrupts off. The two
  writes are to different words, and here the row is given back last. -/
  | free {s : SwitchState} {t : Tid} : t ≠ idleTid → (∀ c, ¬ Runs L s c t) → SwitchStep s (.free t) (s.free t)

/-- After `thread_table_init`, with the idle thread as the one that runs. -/
def SwitchInit (s : SwitchState) : Prop :=
  (∃ m, s.mem = threadTableInit L m) ∧ (∀ c, Runs L s c idleTid ∧ ¬ InUserMode s c) ∧
    s.created = fun t => decide (t = idleTid)

abbrev SwitchReachable : SwitchState → Prop := Reach (SwitchInit L) (SwitchStep L)

/-! ## The relation -/

structure Related (s : SwitchState) (a : Coroutine.State CpuId Tid Ctx) : Prop where
  current : ∀ c, Runs L s c (a.running c)
  live : ∀ c, (s.cpus c).visible = a.live c
  chains : ∀ t, s.created t = true → Frames L t s.mem (s.mem (L.entry t)) (a.saved t)
  unused : ∀ t, s.created t = false → a.saved t = []
  idle : s.created idleTid = true ∧ s.mem (L.entry idleTid) = L.base idleTid
  used : ∀ c, s.created (a.running c) = true
  exclusive : ∀ c d, a.running c = a.running d → c = d ∨ a.running c = idleTid
  user : ∀ c, InUserMode s c → a.running c ≠ idleTid ∧ s.mem (L.entry (a.running c)) = L.base (a.running c)

variable {L} {t t' : Tid} {m m' : Memory} {p q : BitVec 32} {xs : List Ctx} {s s' : SwitchState}
  {a : Coroutine.State CpuId Tid Ctx} {c : CpuId}

/-! ## Frames -/

theorem Frames.bounds (h : Frames L t m p xs) : L.area t ≤ p.toNat ∧ p.toNat ≤ (L.base t).toNat := by
  induction h with
  | base =>
      rw [toNat_base]
      omega
  | push _ _ harea hlt _ _ ih => omega

theorem Frames.onChain_bounds (hq : OnChain m p q) (h : Frames L t m p xs) :
    p.toNat ≤ q.toNat ∧ q.toNat ≤ (L.base t).toNat := by
  induction hq generalizing xs with
  | here => exact ⟨Nat.le_refl _, h.bounds.2⟩
  | next _ ih =>
      cases h with
      | base hctx hlink hmask huser hlo hhi =>
          rw [hlink] at ih
          exact ih (.base hctx hlink hmask huser hlo hhi)
      | push _ _ _ hlt _ hrest =>
          have := ih hrest
          omega

/-- The chain stays if its contexts do. -/
theorem Frames.congr (h : Frames L t m p xs) (hm : ∀ q, OnChain m p q → ∀ x, InBlock q 136 x → m' x = m x) :
    Frames L t m' p xs := by
  have hbound := area_lt L (t := t)
  induction h with
  | base hctx hlink hmask huser hlo hhi =>
      have hbase := toNat_base L t
      have hself := hm _ .here
      refine .base (hctx.congr (by omega) fun x hx => hself x ⟨hx.1, by have := hx.2; omega⟩) ?_ hmask huser hlo hhi
      rw [hself _ (inBlock_slot (by omega) (by decide)), hlink]
  | @push p x l hctx hmask harea hlt huser hrest ih =>
      have hle := hrest.bounds.2
      have hbase := toNat_base L t
      have hself := hm _ .here
      have hlink : m' (slot p 132) = m (slot p 132) := hself _ (inBlock_slot (by omega) (by decide))
      refine .push (hctx.congr (by omega) fun x hx => hself x ⟨hx.1, by have := hx.2; omega⟩) hmask harea ?_ ?_ ?_
      · rw [hlink]
        exact hlt
      · rw [hlink]
        exact huser
      · rw [hlink]
        exact ih fun q hq => hm q (.next hq)

/-- A chain of one context. -/
theorem Frames.single (h : Frames L t m (L.base t) xs) : ∃ x, xs = [x] := by
  generalize hp : L.base t = p at h
  cases h with
  | base => exact ⟨_, rfl⟩
  | push _ _ _ hlt _ hrest =>
      have := hrest.bounds.2
      rw [hp] at this
      omega

theorem Frames.ne_nil (h : Frames L t m p xs) : xs ≠ [] := by
  cases h <;> simp

/-- All of a chain is in the stack area. -/
theorem Frames.inBlock_area (h : Frames L t m p xs) (hq : OnChain m p q) {x : BitVec 32} (hx : InBlock q 136 x) :
    L.area t ≤ x.toNat ∧ x.toNat < L.area t + 4096 := by
  have hlo := h.bounds
  have hhi := h.onChain_bounds hq
  have hbase := toNat_base L t
  unfold InBlock at hx
  omega

/-! ## The machine -/

theorem linkContext_eq (hrun : m (L.current c) = BitVec.ofNat 32 t) (k : BitVec 32) :
    linkContext L c k m = if t = idleTid then Function.update m (slot k 132) (m (L.entry t))
      else Function.update (Function.update m (slot k 132) (m (L.entry t))) (L.entry t) k := by
  obtain ⟨haddr, hzero⟩ := entry_eq hrun
  simp only [linkContext, haddr, hzero]

theorem cswitchSwitch_mem (p : Cpu) (m : Memory) :
    (cswitchSwitch L c p m).2 = linkContext L c (saveAddress L c p m)
      (storeWords m (saveAddress L c p m) (Ctx.word ⟨p.regs, p.hi, p.lo, p.epc, p.status &&& 0xff11⟩) 33) := by
  simp only [cswitchSwitch, contextSave]

/-- What the code in front of a handler does with the memory. -/
theorem cswitchSwitch_spec (p : Cpu) (hrun : m (L.current c) = BitVec.ofNat 32 t) {k : BitVec 32}
    (hk : saveAddress L c p m = k) (hfit : k.toNat + 136 ≤ 2 ^ 32) (hentry : ¬ InBlock k 136 (L.entry t))
    (hcurrent : ¬ InBlock k 136 (L.current c)) {m' : Memory} (hm' : (cswitchSwitch L c p m).2 = m') :
    CtxAt m' k ⟨p.regs, p.hi, p.lo, p.epc, p.status &&& 0xff11⟩ ∧ m' (slot k 132) = m (L.entry t) ∧
      m' (L.entry t) = (if t = idleTid then m (L.entry t) else k) ∧
      ∀ x, ¬ InBlock k 136 x → x ≠ L.entry t → m' x = m x := by
  have hne : ∀ n < 136, slot k n ≠ L.entry t := fun n hn => (slot_ne_of_not_inBlock hfit hn hentry).symm
  rw [cswitchSwitch_mem, hk] at hm'
  have hwords : ∀ i < 33, storeWords m k (Ctx.word ⟨p.regs, p.hi, p.lo, p.epc, p.status &&& 0xff11⟩) 33
      (slot k (4 * i)) = Ctx.word ⟨p.regs, p.hi, p.lo, p.epc, p.status &&& 0xff11⟩ i :=
    fun i hi => storeWords_slot (by omega) hi
  have houtside : ∀ x, ¬ InBlock k 136 x →
      storeWords m k (Ctx.word ⟨p.regs, p.hi, p.lo, p.epc, p.status &&& 0xff11⟩) 33 x = m x := fun x hx =>
    storeWords_of_outside (by omega) fun hin => hx ⟨hin.1, by have := hin.2; omega⟩
  generalize storeWords m k (Ctx.word ⟨p.regs, p.hi, p.lo, p.epc, p.status &&& 0xff11⟩) 33 = saved
    at hm' hwords houtside
  have hlink := hm'.symm
  rw [linkContext_eq ((houtside _ hcurrent).trans hrun), houtside _ hentry] at hlink
  -- the words of the context are not changed after they have been stored
  have hword : ∀ i < 33, m' (slot k (4 * i)) = saved (slot k (4 * i)) := fun i hi => by
    have hprev : slot k (4 * i) ≠ slot k 132 := slot_ne_of_ne hfit (by omega) (by decide) (by omega)
    rw [hlink]
    split
    · rw [Function.update_of_ne hprev]
    · rw [Function.update_of_ne (hne _ (by omega)), Function.update_of_ne hprev]
  refine ⟨fun i hi => (hword i hi).trans (hwords i hi), ?_, ?_, fun x hx hxe => ?_⟩
  · rw [hlink]
    split
    · rw [Function.update_self]
    · rw [Function.update_of_ne (hne _ (by decide)), Function.update_self]
  · rw [hlink]
    split
    · rw [Function.update_of_ne (hne _ (by decide)).symm, houtside _ hentry]
    · rw [Function.update_self]
  · have hprev : x ≠ slot k 132 := slot_ne_of_not_inBlock hfit (by decide) hx
    rw [hlink]
    split
    · rw [Function.update_of_ne hprev, houtside x hx]
    · rw [Function.update_of_ne hxe, Function.update_of_ne hprev, houtside x hx]

theorem cswitchSwitch_status (p : Cpu) (m : Memory) :
    (cswitchSwitch L c p m).1.status = p.status &&& 0xffffffef := rfl

/-- The bits of `Status` that are restored, after `eret`. -/
theorem restored_status (a b : BitVec 32) :
    ((a &&& 0xffff00ee) ||| b) &&& 0xfffffffd &&& 0xff11 = b &&& 0xff11 ∧
      ((a &&& 0xffff00ee) ||| b) &&& 0xfffffffd &&& userlandEnableBit = b &&& userlandEnableBit := by
  unfold userlandEnableBit
  constructor
  · rw [BitVec.and_assoc, BitVec.and_or_distrib_right, BitVec.and_assoc]
    simp
  · rw [BitVec.and_assoc, BitVec.and_or_distrib_right, BitVec.and_assoc]
    simp

/-- What is restored. -/
theorem handleFinished_spec (p : Cpu) (hrun : m (L.current c) = BitVec.ofNat 32 t) {k : BitVec 32}
    (hk : m (L.entry t) = k) {x : Ctx} (hctx : CtxAt m k x) (hfit : k.toNat + 136 ≤ 2 ^ 32)
    (hentry : ¬ InBlock k 136 (L.entry t)) (hmask : x.status &&& 0xff11 = x.status) :
    (handleFinished L c p m).2 = Function.update m (L.entry t) (m (slot k 132)) ∧
      (handleFinished L c p m).1.visible = x ∧
      (handleFinished L c p m).1.status &&& userlandEnableBit = x.status &&& userlandEnableBit := by
  obtain ⟨haddr, -⟩ := entry_eq hrun
  have hword : ∀ i < 33, Function.update m (L.entry t) (m (slot k 132)) (slot k (4 * i)) = x.word i := fun i hi => by
    rw [Function.update_of_ne (slot_ne_of_not_inBlock hfit (by omega) hentry).symm, hctx i hi]
  have hstatus := hword 32 (by decide)
  refine ⟨?_, ?_, ?_⟩
  · simp only [handleFinished, haddr, hk]
  · simp only [handleFinished, haddr, hk]
    refine Ctx.ext (funext fun i => ?_) (hword 29 (by decide)) (hword 30 (by decide)) (hword 31 (by decide)) ?_
    · refine (hword i (by omega)).trans ?_
      exact dif_pos i.isLt
    · refine (restored_status _ _).1.trans ?_
      rw [show slot k 128 = slot k (4 * 32) from rfl, hstatus]
      exact hmask
  · simp only [handleFinished, haddr, hk]
    refine (restored_status _ _).2.trans ?_
    rw [show slot k 128 = slot k (4 * 32) from rfl, hstatus]
    rfl

/-! ## Steps -/

theorem tid_inj (h : BitVec.ofNat 32 t.val = BitVec.ofNat 32 t'.val) : t = t' := by
  have ht := t.isLt
  have ht' := t'.isLt
  have := congrArg BitVec.toNat h
  unfold configMaxThreads at ht ht'
  rw [BitVec.toNat_ofNat, BitVec.toNat_ofNat] at this
  exact Fin.ext (by omega)

theorem Related.runs_eq (h : Related L s a) (hrun : Runs L s c t) : a.running c = t :=
  tid_inj ((h.current c).symm.trans hrun)

theorem protected_entry (t : Tid) : Protected L s (L.entry t) := Or.inl ⟨t, rfl⟩

theorem protected_current (c : CpuId) : Protected L s (L.current c) := Or.inr (Or.inl ⟨c, rfl⟩)

/-- Chains under a memory that is the same where they are. -/
theorem Related.chains_congr (h : Related L s a) (hcreated : s.created t = true)
    (hentry : m' (L.entry t) = s.mem (L.entry t))
    (hm : ∀ p x, OnChain s.mem (s.mem (L.entry t)) p → InBlock p 136 x → m' x = s.mem x) :
    Frames L t m' (m' (L.entry t)) (a.saved t) := by
  rw [hentry]
  exact (h.chains t hcreated).congr fun p hp x hx => hm p x hp hx

/-- Code that leaves the protected words alone. -/
theorem Related.run (h : Related L s a) {p : Cpu} (hm : ∀ x, Protected L s x → m' x = s.mem x)
    (huser : p.status &&& userlandEnableBit ≠ 0 →
      a.running c ≠ idleTid ∧ s.mem (L.entry (a.running c)) = L.base (a.running c)) :
    Related L { s with cpus := Function.update s.cpus c p, mem := m' }
      { a with live := Function.update a.live c p.visible } := by
  have hentry : ∀ t, m' (L.entry t) = s.mem (L.entry t) := fun t => hm _ (protected_entry t)
  refine ⟨fun d => (hm _ (protected_current d)).trans (h.current d), fun d => ?_, fun t ht => ?_, h.unused,
    ⟨h.idle.1, (hentry _).trans h.idle.2⟩, h.used, h.exclusive, fun d hd => ?_⟩
  · change (Function.update s.cpus c p d).visible = Function.update a.live c p.visible d
    by_cases hdc : d = c
    · subst hdc
      rw [Function.update_self, Function.update_self]
    · rw [Function.update_of_ne hdc, Function.update_of_ne hdc, h.live]
  · exact h.chains_congr ht (hentry t) fun p x hp hx => hm x (Or.inr (Or.inr ⟨t, p, ht, hp, hx⟩))
  · change _ ∧ m' (L.entry (a.running d)) = _
    rw [hentry]
    unfold InUserMode at hd
    by_cases hdc : d = c
    · subst hdc
      rw [show ({ s with cpus := Function.update s.cpus d p, mem := m' } : SwitchState).cpus d = p from
        Function.update_self ..] at hd
      exact huser hd
    · rw [show ({ s with cpus := Function.update s.cpus c p, mem := m' } : SwitchState).cpus d = s.cpus d from
        Function.update_of_ne hdc ..] at hd
      exact h.user d hd

/-- The chains of the other threads when one stack area and the pointer of its thread change. -/
theorem Related.chains_of_ne (h : Related L s a) (hcreated : s.created t' = true) (hne : t' ≠ t)
    (hm : ∀ x, ¬ (L.area t ≤ x.toNat ∧ x.toNat < L.area t + 4096) → x ≠ L.entry t → m' x = s.mem x) :
    Frames L t' m' (m' (L.entry t')) (a.saved t') := by
  refine h.chains_congr hcreated (hm _ (entry_not_in_area L t t') fun heq => hne (entry_inj heq)) ?_
  intro p x hp hx
  have harea := (h.chains t' hcreated).inBlock_area hp hx
  refine hm x ?_ ?_
  · have := area_disjoint (L := L) hne
    omega
  · rintro rfl
    exact entry_not_in_area L t' t harea

/-- A step of a processor that changes the chain of the thread it runs, which is not the idle thread. -/
theorem Related.chain (h : Related L s a) (hrun : a.running c = t) (hidle : t ≠ idleTid) {p : Cpu} {xs : List Ctx}
    (hframes : Frames L t m' (m' (L.entry t)) xs)
    (hm : ∀ x, ¬ (L.area t ≤ x.toNat ∧ x.toNat < L.area t + 4096) → x ≠ L.entry t → m' x = s.mem x)
    (huser : p.status &&& userlandEnableBit ≠ 0 → m' (L.entry t) = L.base t) :
    Related L { s with cpus := Function.update s.cpus c p, mem := m' }
      { a with live := Function.update a.live c p.visible, saved := Function.update a.saved t xs } := by
  have hcreated : s.created t = true := hrun ▸ h.used c
  have hcurrent : ∀ d, m' (L.current d) = s.mem (L.current d) := fun d =>
    hm _ (current_not_in_area L t d) (entry_ne_current L t d).symm
  have hentry : ∀ t', t' ≠ t → m' (L.entry t') = s.mem (L.entry t') := fun t' hne =>
    hm _ (entry_not_in_area L t t') fun heq => hne (entry_inj heq)
  refine ⟨fun d => (hcurrent d).trans (h.current d), fun d => ?_, fun t' ht' => ?_, fun t' ht' => ?_,
    ⟨h.idle.1, (hentry _ hidle.symm).trans h.idle.2⟩, h.used, h.exclusive, fun d hd => ?_⟩
  · change (Function.update s.cpus c p d).visible = Function.update a.live c p.visible d
    by_cases hdc : d = c
    · subst hdc
      rw [Function.update_self, Function.update_self]
    · rw [Function.update_of_ne hdc, Function.update_of_ne hdc, h.live]
  · change Frames L t' m' (m' (L.entry t')) (Function.update a.saved t xs t')
    by_cases hne : t' = t
    · subst hne
      rw [Function.update_self]
      exact hframes
    · rw [Function.update_of_ne hne]
      exact h.chains_of_ne ht' hne hm
  · change Function.update a.saved t xs t' = []
    rw [Function.update_of_ne (by rintro rfl; rw [hcreated] at ht'; cases ht')]
    exact h.unused t' ht'
  · change _ ∧ m' (L.entry (a.running d)) = _
    unfold InUserMode at hd
    by_cases hdc : d = c
    · subst hdc
      rw [show ({ s with cpus := Function.update s.cpus d p, mem := m' } : SwitchState).cpus d = p from
        Function.update_self ..] at hd
      rw [hrun]
      exact ⟨hidle, huser hd⟩
    · rw [show ({ s with cpus := Function.update s.cpus c p, mem := m' } : SwitchState).cpus d = s.cpus d from
        Function.update_of_ne hdc ..] at hd
      have hother : a.running d ≠ t := fun heq => by
        rcases h.exclusive d c (heq.trans hrun.symm) with hdc' | hd'
        · exact hdc hdc'
        · exact hidle (heq.symm.trans hd')
      rw [hentry _ hother]
      exact h.user d hd

end Kudos.Mips32.Switch
