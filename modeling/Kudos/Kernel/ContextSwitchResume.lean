import Kudos.Kernel.ContextSwitchSteps
import Kudos.Library.Simulation

set_option autoImplicit false

/-! # A thread that is resumed

What a thread is interrupted with it gets back, on any processor, after any number of other threads have run, after
interrupts of the handlers themselves, and with the result of the system calls that it has made
(`switchReachable_resumes`). -/

namespace Kudos.Mips32.Switch

open Transition

/-- What happens from an exception on, until the thread is about to be resumed: `n` exceptions of the code that
handles it are not finished yet, and `x` is what the thread will get back. -/
inductive Since (L : Layout) (t : Tid) (y : Ctx) (s₀ : SwitchState) : ℕ → Ctx → SwitchState → Prop
  | start : Since L t y s₀ 0 y s₀
  | nested {n : ℕ} {x : Ctx} {s s' : SwitchState} {c : CpuId} {cause : BitVec 32} : Since L t y s₀ n x s →
      Runs L s c t → SwitchStep L s (.exception c cause) s' → Since L t y s₀ (n + 1) x s'
  | finished {n : ℕ} {x : Ctx} {s s' : SwitchState} {c : CpuId} : Since L t y s₀ (n + 1) x s →
      Runs L s c t → SwitchStep L s (.finish c) s' → Since L t y s₀ n x s'
  | syscall {n : ℕ} {x : Ctx} {s s' : SwitchState} {c : CpuId} {v : BitVec 32} : Since L t y s₀ n x s →
      Runs L s c t → SwitchStep L s (.syscall c v) s' →
      Since L t y s₀ n (if n = 0 then x.syscallReturn v else x) s'
  | other {n : ℕ} {x : Ctx} {s s' : SwitchState} {act : SwitchAction} : Since L t y s₀ n x s →
      ¬ act.target L s t → SwitchStep L s act s' → Since L t y s₀ n x s'

variable {L : Layout} {t : Tid} {s s' s₀ s₁ s₂ s₃ : SwitchState} {a : Coroutine.State CpuId Tid Ctx} {c d : CpuId}
  {x y : Ctx} {n : ℕ} {cause : BitVec 32}

theorem SwitchReachable.related (h : SwitchReachable L s) : ∃ a, Coroutine.Reachable idleTid a ∧ Related L s a :=
  Reach.simulate (R := Related L) (fun _ hinit => hinit.related)
    (fun _ _ _ _ hrel hstep => by
      obtain ⟨b, a', hb, hrel', -⟩ := hstep.simulate hrel
      exact Or.inr ⟨b, a', hb, hrel'⟩) h

/-- The machine does what `Coroutine` says, with the chains in its memory as what the threads have put aside. -/
theorem switchReachable_refines (h : SwitchReachable L s) : ∃ a, Coroutine.Reachable idleTid a ∧ Related L s a :=
  h.related

/-- The context stays below those of the exceptions that are not finished, and above another one. -/
def Awaits (L : Layout) (t : Tid) (n : ℕ) (x : Ctx) (s : SwitchState) : Prop :=
  ∃ a l l', Related L s a ∧ a.saved t = l ++ x :: l' ∧ l.length = n ∧ l' ≠ []

theorem Since.awaits (hidle : t ≠ idleTid) (h0 : Awaits L t 0 y s₀) (h : Since L t y s₀ n x s) :
    Awaits L t n x s := by
  induction h with
  | start => exact h0
  | @nested n x s s' c cause _ hrun hstep ih =>
      obtain ⟨a, l, l', hrel, hsaved, hlen, hl'⟩ := ih
      cases hstep with
      | @exception _ t' _ hrun' hstack =>
          obtain rfl : t = t' := tid_inj (hrun.symm.trans hrun')
          refine ⟨_, a.live c :: l, l', hrel.exception hrun hidle hstack cause, ?_, ?_, hl'⟩
          · change Function.update a.saved t (a.live c :: a.saved t) t = _
            rw [Function.update_self, hsaved]
            rfl
          · rw [List.length_cons, hlen]
  | @finished n x s s' c _ hrun hstep ih =>
      obtain ⟨a, l, l', hrel, hsaved, hlen, hl'⟩ := ih
      obtain rfl := hrel.runs_eq hrun
      cases hstep with
      | finish =>
          obtain ⟨z, k, hk, -, hrel'⟩ := hrel.finish (c := c)
          cases l with
          | nil => cases hlen
          | cons w l =>
              refine ⟨_, l, l', hrel', ?_, Nat.succ.inj hlen, hl'⟩
              have hwz : z :: k = w :: l ++ x :: l' := hk.symm.trans hsaved
              change Function.update a.saved _ (Coroutine.rest (z :: k)) _ = _
              rw [Function.update_self, hwz, Coroutine.rest_append (by simp)]
  | @syscall n x s s' c v _ hrun hstep ih =>
      obtain ⟨a, l, l', hrel, hsaved, hlen, hl'⟩ := ih
      cases hstep with
      | @syscall _ t' _ hrun' hkernel hne =>
          obtain rfl : t = t' := tid_inj (hrun.symm.trans hrun')
          obtain ⟨z, w, k, hk, hrel'⟩ := hrel.syscall hrun hne v
          cases l with
          | nil =>
              obtain ⟨rfl, rfl⟩ : z = x ∧ w :: k = l' := List.cons.inj (hk.symm.trans hsaved)
              obtain rfl : 0 = n := hlen
              refine ⟨_, [], _, hrel', ?_, rfl, hl'⟩
              rw [if_pos rfl]
              exact Function.update_self ..
          | cons u l =>
              obtain ⟨rfl, htail⟩ : z = u ∧ w :: k = l ++ x :: l' := List.cons.inj (hk.symm.trans hsaved)
              refine ⟨_, z.syscallReturn v :: l, l', hrel', ?_, hlen, hl'⟩
              rw [if_neg (by rw [← hlen, List.length_cons]; omega)]
              change Function.update a.saved t (z.syscallReturn v :: w :: k) t = _
              rw [Function.update_self, htail]
              rfl
  | @other n x s s' act _ hnot hstep ih =>
      obtain ⟨a, l, l', hrel, hsaved, hlen, hl'⟩ := ih
      obtain ⟨b, a', hb, hrel', htarget⟩ := hstep.simulate hrel
      exact ⟨a', l, l', hrel', (hb.saved_eq fun heq => hnot (htarget t heq)).trans hsaved, hlen, hl'⟩

theorem SwitchReachable.awaits (hs : SwitchReachable L s₀) (hrun : Runs L s₀ c t) (hidle : t ≠ idleTid)
    (hexc : SwitchStep L s₀ (.exception c cause) s₁) : Awaits L t 0 (s₀.cpus c).visible s₁ := by
  obtain ⟨a, -, hrel⟩ := hs.related
  cases hexc with
  | @exception _ t' _ hrun' hstack =>
      obtain rfl : t = t' := tid_inj (hrun.symm.trans hrun')
      refine ⟨_, [], a.saved t, hrel.exception hrun hidle hstack cause, ?_, rfl, ?_⟩
      · change Function.update a.saved t (a.live c :: a.saved t) t = _
        rw [Function.update_self, hrel.live]
        rfl
      · exact hrel.created_ne_nil (hrel.runs_eq hrun ▸ hrel.used c)

/-- A thread that is interrupted in any reachable state gets back what it was interrupted with, apart from the
results of its system calls. -/
theorem switchReachable_resumes (hs : SwitchReachable L s₀) (hrun : Runs L s₀ c t) (hidle : t ≠ idleTid)
    (hexc : SwitchStep L s₀ (.exception c cause) s₁) (hsince : Since L t (s₀.cpus c).visible s₁ 0 x s₂)
    (hrun' : Runs L s₂ d t) (hfinish : SwitchStep L s₂ (.finish d) s₃) : (s₃.cpus d).visible = x := by
  obtain ⟨a, l, l', hrel, hsaved, hlen, -⟩ := hsince.awaits hidle (hs.awaits hrun hidle hexc)
  cases hfinish with
  | finish =>
      obtain ⟨z, k, hk, hvisible, -⟩ := hrel.finish (c := d)
      rw [hrel.runs_eq hrun', hsaved, List.length_eq_zero_iff.1 hlen] at hk
      obtain ⟨rfl, -⟩ : x = z ∧ l' = k := List.cons.inj hk
      refine Eq.trans ?_ hvisible
      unfold SwitchState.finish
      exact congrArg Cpu.visible (Function.update_self d (handleFinished L d (s₂.cpus d) s₂.mem).1 s₂.cpus)

/-! ## A run -/

theorem stackOk_of_ne (hidle : t ≠ idleTid) (hlo : L.area t + 136 ≤ ((s.cpus c).regs registerSp).toNat)
    (hhi : ((s.cpus c).regs registerSp).toNat ≤ (s.mem (L.entry t)).toNat) : StackOk L s c t := by
  unfold StackOk
  rw [if_neg hidle]
  exact ⟨hlo, hhi⟩

/-- While a thread waits for the end of an exception, the handler of a system call can return. -/
theorem Awaits.syscall (h : Awaits L t n x s) (hrun : Runs L s c t) (hkernel : ¬ InUserMode s c) (v : BitVec 32) :
    SwitchStep L s (.syscall c v) (s.syscall L t v) ∧ Runs L (s.syscall L t v) c t := by
  obtain ⟨a, l, l', hrel, hsaved, -, hl'⟩ := h
  have hruns := hrel.runs_eq hrun
  have hne : s.mem (L.entry t) ≠ L.base t := fun hbase => by
    have hframes := hrel.chains t (hruns ▸ hrel.used c)
    rw [hbase] at hframes
    obtain ⟨z, hz⟩ := hframes.single
    rw [hz] at hsaved
    cases l with
    | nil => exact hl' (List.cons.inj hsaved).2.symm
    | cons w l => cases l <;> cases hsaved
  obtain ⟨z, w, k, -, hrel'⟩ := hrel.syscall hrun hne v
  exact ⟨.syscall hrun hkernel hne, hruns ▸ hrel'.current c⟩

def someLayout : Layout :=
  ⟨0x10000, 0x20000, 0x20010, 0x100000, 0x3000, 0x3100, 0x3200, 0x3300, 0x3400, 0x3500, by decide, by decide,
    by decide, by decide, by decide, by decide⟩

def firstTid : Tid := ⟨1, by decide⟩

def secondTid : Tid := ⟨2, by decide⟩

def someStart : SwitchState :=
  ⟨fun _ => ⟨fun _ => 0, 0, 0, 0, 0, 0, 0, 0⟩, threadTableInit someLayout fun _ => 0, fun t => decide (t = idleTid)⟩

/-- There are two threads, and the first one runs on the processor. -/
def firstRuns (c : CpuId) : SwitchState :=
  ((((someStart.create someLayout firstTid 0x4000 7).create someLayout secondTid 0x5000 8).switch someLayout c
    firstTid).finish someLayout c)

theorem reachable_firstRuns : SwitchReachable someLayout (firstRuns 0) ∧ Runs someLayout (firstRuns 0) 0 firstTid := by
  have h0 : SwitchReachable someLayout someStart := .init ⟨⟨_, rfl⟩, by decide +kernel, rfl⟩
  have h1 := h0.step _ (@SwitchStep.create _ _ firstTid 0x4000 7 (by decide +kernel))
  have h2 := h1.step _ (@SwitchStep.create _ _ secondTid 0x5000 8 (by decide +kernel))
  have h3 := h2.step _ (@SwitchStep.switch _ _ 0 firstTid (by decide +kernel) (by decide +kernel)
    (Or.inr (by decide +kernel)))
  exact ⟨h3.step _ (@SwitchStep.finish _ _ 0 (by decide +kernel)), by decide +kernel⟩

theorem switchReachable_refines_firstRuns :
    ∃ a : Coroutine.State CpuId Tid Ctx, Coroutine.Reachable idleTid a ∧ a.running 0 = firstTid ∧
      ((firstRuns 0).cpus 0).visible = a.live 0 := by
  obtain ⟨a, ha, hrel⟩ := switchReachable_refines reachable_firstRuns.1
  exact ⟨a, ha, hrel.runs_eq reachable_firstRuns.2, hrel.live 0⟩

/-- It makes a system call, of which the handler is interrupted, and the other thread runs in between. -/
theorem switchReachable_resumes_syscall :
    ∃ s s' : SwitchState, SwitchReachable someLayout (firstRuns 0) ∧ SwitchStep someLayout s (.finish 0) s' ∧
      Since someLayout firstTid ((firstRuns 0).cpus 0).visible ((firstRuns 0).exception someLayout 0 0x20) 0
        (((firstRuns 0).cpus 0).visible.syscallReturn 42) s ∧
      (s'.cpus 0).visible = ((firstRuns 0).cpus 0).visible.syscallReturn 42 := by
  obtain ⟨hreachable, hfirst⟩ := reachable_firstRuns
  have hexc := @SwitchStep.exception someLayout (firstRuns 0) 0 firstTid 0x20 hfirst
    (fun _ => stackOk_of_ne (by decide) (by decide +kernel) (by decide +kernel))
  have g0 := @Since.start someLayout firstTid ((firstRuns 0).cpus 0).visible ((firstRuns 0).exception someLayout 0 0x20)
  have g1 := g0.nested (by decide +kernel) (@SwitchStep.exception _ _ 0 firstTid 0 (by decide +kernel)
    fun _ => stackOk_of_ne (by decide) (by decide +kernel) (by decide +kernel))
  have g2 := g1.other id (@SwitchStep.switch _ _ 0 secondTid (by decide +kernel) (by decide +kernel)
    (Or.inr (by decide +kernel)))
  have g3 := g2.other (by decide +kernel) (@SwitchStep.finish _ _ 0 (by decide +kernel))
  have g4 := g3.other (by decide +kernel) (@SwitchStep.exception _ _ 0 secondTid 0
    (by decide +kernel) fun _ => stackOk_of_ne (by decide) (by decide +kernel) (by decide +kernel))
  have g5 := g4.other id (@SwitchStep.switch _ _ 0 firstTid (by decide +kernel) (by decide +kernel)
    (Or.inr (by decide +kernel)))
  have g6 := g5.finished (by decide +kernel) (@SwitchStep.finish _ _ 0 (by decide +kernel))
  have h0 := hreachable.awaits hfirst (by decide) hexc
  obtain ⟨hsyscall, hrun⟩ := (g6.awaits (by decide) h0).syscall (c := 0) (by decide +kernel) (by decide +kernel) 42
  have g7 := g6.syscall (by decide +kernel) hsyscall
  exact ⟨_, _, hreachable, .finish (by decide +kernel), g7, switchReachable_resumes hreachable hfirst (by decide) hexc
    g7 hrun (.finish (by decide +kernel))⟩

end Kudos.Mips32.Switch
