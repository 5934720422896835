import Kudos.Kernel.ContextSwitchRuns

set_option autoImplicit false

/-! # The steps of the context switch

Each step of the machine is one of `Coroutine`. -/

namespace Kudos.Mips32.Switch

open Transition

variable {L : Layout} {t t' : Tid} {m m' : Memory} {p q x v : BitVec 32} {s s' : SwitchState}
  {a : Coroutine.State CpuId Tid Ctx} {c d : CpuId}

/-! ## An exception -/

theorem visible_takeException (p : Cpu) (cause : BitVec 32) :
    (⟨(takeException p cause).regs, (takeException p cause).hi, (takeException p cause).lo,
      (takeException p cause).epc, (takeException p cause).status &&& 0xff11⟩ : Ctx) = p.visible := by
  refine Ctx.ext rfl rfl rfl rfl ?_
  change (p.status ||| 2) &&& 0xff11 = p.status &&& 0xff11
  rw [BitVec.and_or_distrib_right]
  simp

theorem visible_mask (p : Cpu) : p.visible.status &&& 0xff11 = p.visible.status := by
  change p.status &&& 0xff11 &&& 0xff11 = p.status &&& 0xff11
  rw [BitVec.and_assoc]
  rfl

theorem visible_userMode (p : Cpu) : p.visible.status &&& userlandEnableBit = p.status &&& userlandEnableBit := by
  change p.status &&& 0xff11 &&& 0x10 = p.status &&& 0x10
  rw [BitVec.and_assoc]
  rfl

theorem userMode_takeException (p : Cpu) (cause : BitVec 32) :
    (takeException p cause).status &&& 0x10 = p.status &&& userlandEnableBit := by
  change (p.status ||| 2) &&& 0x10 = p.status &&& 0x10
  rw [BitVec.and_or_distrib_right]
  simp

theorem handler_userMode (p : Cpu) (m : Memory) :
    (cswitchSwitch L c p m).1.status &&& userlandEnableBit = 0 := by
  rw [cswitchSwitch_status, BitVec.and_assoc]
  simp [userlandEnableBit]

theorem toNat_sub_136 (h : 136 ≤ x.toNat) : (x - 136).toNat = x.toNat - 136 := by
  rw [BitVec.toNat_sub]
  change (2 ^ 32 - 136 + x.toNat) % 2 ^ 32 = x.toNat - 136
  have := x.isLt
  omega

theorem saveAddress_kernel (cause : BitVec 32) (h : ¬ InUserMode s c) :
    saveAddress L c (takeException (s.cpus c) cause) s.mem = (s.cpus c).regs registerSp - 136 := by
  unfold InUserMode at h
  unfold saveAddress
  rw [userMode_takeException, if_pos (not_not.1 h)]
  rfl

/-- The context of an exception is put below those that the thread has. -/
theorem Related.saveAddress_bounds (h : Related L s a) (hrun : Runs L s c t) (hidle : t ≠ idleTid)
    (hstack : ¬ InUserMode s c → StackOk L s c t) {cause k : BitVec 32}
    (hk : saveAddress L c (takeException (s.cpus c) cause) s.mem = k) :
    L.area t ≤ k.toNat ∧ k.toNat + 136 ≤ (s.mem (L.entry t)).toNat := by
  by_cases huser : InUserMode s c
  · obtain ⟨hne, hbase⟩ := h.user c huser
    rw [h.runs_eq hrun] at hbase
    have hframes := h.chains t (h.runs_eq hrun ▸ h.used c)
    have hsp : saveAddress L c (takeException (s.cpus c) cause) s.mem = s.mem (slot (L.base t) 104) - 136 := by
      unfold saveAddress
      unfold InUserMode at huser
      rw [userMode_takeException, if_neg huser, (entry_eq hrun).1, hbase]
    rw [hbase] at hframes ⊢
    obtain ⟨x, hx⟩ := hframes.single
    rw [hx] at hframes
    generalize hb : L.base t = b at hframes
    cases hframes with
    | base hctx _ _ _ hlo hhi =>
        have hword : s.mem (slot (L.base t) 104) = x.regs registerSp := hctx 26 (by decide)
        rw [← hk, hsp, hword, toNat_sub_136 (by omega)]
        omega
    | push _ _ _ _ _ hrest => exact absurd rfl hrest.ne_nil
  · have hok := hstack huser
    unfold StackOk at hok
    rw [if_neg hidle] at hok
    rw [← hk, saveAddress_kernel cause huser, toNat_sub_136 (by omega)]
    omega

/-- A thread is interrupted. -/
theorem Related.exception (h : Related L s a) (hrun : Runs L s c t) (hidle : t ≠ idleTid)
    (hstack : ¬ InUserMode s c → StackOk L s c t) (cause : BitVec 32) :
    Related L (s.exception L c cause)
      { a with live := Function.update a.live c (cswitchSwitch L c (takeException (s.cpus c) cause) s.mem).1.visible
               saved := Function.update a.saved t (a.live c :: a.saved t) } := by
  have hruns := h.runs_eq hrun
  have hframes := h.chains t (hruns ▸ h.used c)
  generalize hk : saveAddress L c (takeException (s.cpus c) cause) s.mem = k
  obtain ⟨hlo, hhi⟩ := h.saveAddress_bounds hrun hidle hstack hk
  have hbase := toNat_base L t
  have harea := area_lt L t
  have hle := hframes.bounds.2
  have hin : ∀ x, InBlock k 136 x → L.area t ≤ x.toNat ∧ x.toNat < L.area t + 4096 := by
    unfold InBlock
    omega
  unfold SwitchState.exception
  generalize hm' : (cswitchSwitch L c (takeException (s.cpus c) cause) s.mem).2 = m'
  obtain ⟨hctx, hprev, hentry, hframe⟩ := cswitchSwitch_spec (takeException (s.cpus c) cause) hrun hk (by omega)
    (fun hx => entry_not_in_area L t t (hin _ hx)) (fun hx => current_not_in_area L t c (hin _ hx)) hm'
  rw [visible_takeException] at hctx
  rw [if_neg hidle] at hentry
  refine h.chain hruns hidle ?_ (fun x hx hne => hframe x (fun hb => hx (hin x hb)) hne) fun huser =>
    absurd (handler_userMode _ _) huser
  rw [hentry, ← h.live]
  have hold : Frames L t m' (s.mem (L.entry t)) (a.saved t) := hframes.congr fun q hq x hx => by
    have hq' := (hframes.onChain_bounds hq).1
    refine hframe x (fun hb => ?_) ?_
    · unfold InBlock at hb hx
      omega
    · rintro rfl
      exact entry_not_in_area L t t (hframes.inBlock_area hq hx)
  refine .push hctx (visible_mask _) hlo ?_ ?_ ?_
  · rw [hprev]
    exact hhi
  · intro huser
    rw [visible_userMode] at huser
    rw [hprev, ← hruns]
    exact (h.user c huser).2
  · rw [hprev]
    exact hold

/-- The idle thread is interrupted, and its context is lost. -/
theorem Related.exception_idle (h : Related L s a) (hrun : Runs L s c idleTid)
    (hstack : ¬ InUserMode s c → StackOk L s c idleTid) (cause : BitVec 32) :
    Related L (s.exception L c cause)
      { a with live :=
          Function.update a.live c (cswitchSwitch L c (takeException (s.cpus c) cause) s.mem).1.visible } := by
  have hmode : ¬ InUserMode s c := fun huser => (h.user c huser).1 (h.runs_eq hrun)
  obtain ⟨hsp, hfree⟩ := hstack hmode
  have hk := saveAddress_kernel (L := L) cause hmode
  have hlt := ((s.cpus c).regs registerSp).isLt
  obtain ⟨-, -, hentry, hframe⟩ := cswitchSwitch_spec (takeException (s.cpus c) cause) hrun hk
    (by rw [toNat_sub_136 hsp]; omega) (fun hx => hfree _ hx (protected_entry idleTid))
    (fun hx => hfree _ hx (protected_current c)) rfl
  refine h.run (fun x hx => ?_) fun huser => absurd (handler_userMode _ _) huser
  by_cases hxe : x = L.entry idleTid
  · rw [hxe, hentry, if_pos rfl]
  · exact hframe x (fun hb => hfree x hb hx) hxe

/-! ## One word of a context -/

theorem Ctx.word_regs (x : Ctx) (r : Fin 29) (w : BitVec 32) (i : ℕ) :
    ({ x with regs := Function.update x.regs r w } : Ctx).word i = if i = r then w else x.word i := by
  unfold Ctx.word
  by_cases hi : i < 29
  · rw [dif_pos hi, dif_pos hi]
    by_cases hr : i = r
    · subst hr
      rw [if_pos rfl]
      exact Function.update_self r w x.regs
    · have hne : (⟨i, hi⟩ : Fin 29) ≠ r := fun heq => hr (congrArg Fin.val heq)
      rw [if_neg hr]
      exact Function.update_of_ne hne w x.regs
  · have := r.isLt
    rw [dif_neg hi, dif_neg hi, if_neg (show i ≠ r by omega)]

theorem Ctx.word_pc (x : Ctx) (w : BitVec 32) (i : ℕ) :
    ({ x with pc := w } : Ctx).word i = if i = 31 then w else x.word i := by
  by_cases h31 : i = 31
  · subst h31
    rfl
  · simp only [Ctx.word, if_neg h31]

theorem Ctx.word_status (x : Ctx) (w : BitVec 32) {i : ℕ} (hi : i < 33) :
    ({ x with status := w } : Ctx).word i = if i = 32 then w else x.word i := by
  by_cases h32 : i = 32
  · subst h32
    rfl
  · rw [if_neg h32]
    unfold Ctx.word
    split
    · rfl
    · split
      · rfl
      · split
        · rfl
        · rw [if_pos (show i = 31 by omega), if_pos (show i = 31 by omega)]

theorem CtxAt.update {x x' : Ctx} {j : ℕ} {w : BitVec 32} (h : CtxAt m p x) (hfit : p.toNat + 136 ≤ 2 ^ 32)
    (hj : j < 33) (hx : ∀ i < 33, x'.word i = if i = j then w else x.word i) :
    CtxAt (Function.update m (slot p (4 * j)) w) p x' := by
  intro i hi
  rw [hx i hi]
  by_cases hij : i = j
  · rw [hij, Function.update_self, if_pos rfl]
  · rw [Function.update_of_ne (slot_ne_of_ne hfit (by omega) (by omega) (by omega)), if_neg hij, h i hi]

theorem CtxAt.setReg {x : Ctx} (h : CtxAt m p x) (hfit : p.toNat + 136 ≤ 2 ^ 32) (r : Fin 29) (w : BitVec 32) :
    CtxAt (Function.update m (slot p (4 * r)) w) p { x with regs := Function.update x.regs r w } :=
  h.update hfit (by omega) fun i _ => x.word_regs r w i

theorem CtxAt.setPc {x : Ctx} (h : CtxAt m p x) (hfit : p.toNat + 136 ≤ 2 ^ 32) (w : BitVec 32) :
    CtxAt (Function.update m (slot p 124) w) p { x with pc := w } :=
  h.update (j := 31) hfit (by decide) fun i _ => x.word_pc w i

theorem CtxAt.setStatus {x : Ctx} (h : CtxAt m p x) (hfit : p.toNat + 136 ≤ 2 ^ 32) (w : BitVec 32) :
    CtxAt (Function.update m (slot p 128) w) p { x with status := w } :=
  h.update (j := 32) hfit (by decide) fun i hi => x.word_status w hi

/-- The link to the context before is not one of the words. -/
theorem CtxAt.setLink {x : Ctx} (h : CtxAt m p x) (hfit : p.toNat + 136 ≤ 2 ^ 32) (w : BitVec 32) :
    CtxAt (Function.update m (slot p 132) w) p x := by
  intro i hi
  rw [Function.update_of_ne (slot_ne_of_ne hfit (by omega) (by decide) (by omega)), h i hi]

/-- The words at an address, as a context. -/
def Ctx.ofMemory (m : Memory) (p : BitVec 32) : Ctx :=
  ⟨fun i => m (slot p (4 * i)), m (slot p 116), m (slot p 120), m (slot p 124), m (slot p 128)⟩

theorem ctxAt_ofMemory (m : Memory) (p : BitVec 32) : CtxAt m p (Ctx.ofMemory m p) := by
  intro i hi
  unfold Ctx.word Ctx.ofMemory
  split
  · rfl
  · split
    · subst i
      rfl
    · split
      · subst i
        rfl
      · split
        · subst i
          rfl
        · rw [show i = 32 by omega]

/-! ## A system call -/

/-- A context with the result of a system call. -/
def Ctx.syscallReturn (x : Ctx) (v : BitVec 32) : Ctx :=
  { x with regs := Function.update x.regs registerV0 v, pc := x.pc + 4 }

theorem syscallHandle_spec {x : Ctx} (hctx : CtxAt m p x) (hfit : p.toNat + 136 ≤ 2 ^ 32) (v : BitVec 32) :
    CtxAt (syscallHandle m p v) p (x.syscallReturn v) ∧
      ∀ y, ¬ InBlock p 132 y → syscallHandle m p v y = m y := by
  have hreg := hctx.setReg hfit registerV0 v
  have hpc : Function.update m (slot p (4 * registerV0)) v (slot p 124) = x.pc := hreg 31 (by decide)
  have hfit' : p.toNat + 132 ≤ 2 ^ 32 := by omega
  have heq : syscallHandle m p v
      = Function.update (Function.update m (slot p (4 * registerV0)) v) (slot p 124) (x.pc + 4) := by
    rw [← hpc]
    rfl
  rw [heq]
  refine ⟨hreg.setPc hfit _, fun y hy => ?_⟩
  rw [Function.update_of_ne (slot_ne_of_not_inBlock hfit' (by decide) hy),
    Function.update_of_ne (slot_ne_of_not_inBlock hfit' (by decide) hy)]

/-- A chain that is not at its end. -/
theorem Frames.of_ne_base {l : List Ctx} (h : Frames L t m p l) (hne : p ≠ L.base t) :
    ∃ x y l', l = x :: y :: l' ∧ CtxAt m p x ∧ x.status &&& 0xff11 = x.status ∧ L.area t ≤ p.toNat ∧
      p.toNat + 136 ≤ (m (slot p 132)).toNat ∧ (x.status &&& userlandEnableBit ≠ 0 → m (slot p 132) = L.base t) ∧
      Frames L t m (m (slot p 132)) (y :: l') := by
  cases h with
  | base => exact absurd rfl hne
  | @push _ x l hctx hmask harea hlt huser hrest =>
      cases l with
      | nil => exact absurd rfl hrest.ne_nil
      | cons y l' => exact ⟨x, y, l', rfl, hctx, hmask, harea, hlt, huser, hrest⟩

/-- A system call returns to the newest context of the thread. -/
theorem Related.syscall (h : Related L s a) (hrun : Runs L s c t) (hne : s.mem (L.entry t) ≠ L.base t)
    (v : BitVec 32) :
    ∃ x y l, a.saved t = x :: y :: l ∧
      Related L (s.syscall L t v)
        { a with saved := Function.update a.saved t (x.syscallReturn v :: y :: l) } := by
  have hruns := h.runs_eq hrun
  have hidle : t ≠ idleTid := by
    rintro rfl
    exact hne h.idle.2
  have hframes := h.chains t (hruns ▸ h.used c)
  obtain ⟨x, y, l, hsaved, hctx, hmask, hlo, hlt, huser, hrest⟩ := hframes.of_ne_base hne
  have hbase := toNat_base L t
  have harea := area_lt L t
  have hle := hframes.bounds.2
  obtain ⟨hctx', hframe⟩ := syscallHandle_spec hctx (by omega) v
  unfold SwitchState.syscall
  generalize hm' : syscallHandle s.mem (s.mem (L.entry t)) v = m' at hctx' hframe ⊢
  have hout : ∀ x, ¬ (L.area t ≤ x.toNat ∧ x.toNat < L.area t + 4096) → m' x = s.mem x := fun x hx =>
    hframe x fun hb => hx (by unfold InBlock at hb; omega)
  have hentry : m' (L.entry t) = s.mem (L.entry t) := hout _ (entry_not_in_area L t t)
  have hlink : m' (slot (s.mem (L.entry t)) 132) = s.mem (slot (s.mem (L.entry t)) 132) := hframe _ fun hb => by
    unfold InBlock at hb
    rw [toNat_slot (by omega)] at hb
    omega
  have hrest' : Frames L t m' (s.mem (slot (s.mem (L.entry t)) 132)) (y :: l) := hrest.congr fun q hq x hx => by
    have hq' := (hrest.onChain_bounds hq).1
    refine hframe x fun hb => ?_
    unfold InBlock at hb hx
    omega
  have hnew : Frames L t m' (m' (L.entry t)) (x.syscallReturn v :: y :: l) := by
    rw [hentry]
    refine .push hctx' hmask hlo ?_ ?_ ?_
    · rw [hlink]
      exact hlt
    · rw [hlink]
      exact huser
    · rw [hlink]
      exact hrest'
  have hchain := h.chain (p := s.cpus c) hruns hidle hnew (fun x hx _ => hout x hx) fun hmode => by
    rw [hentry, ← hruns]
    exact (h.user c hmode).2
  refine ⟨x, y, l, hsaved, ?_⟩
  rwa [Function.update_eq_self, h.live, Function.update_eq_self] at hchain

/-! ## The end of a handler -/

/-- The newest context of the thread is loaded, and taken off its chain, unless it is the last one. -/
theorem Related.finish (h : Related L s a) :
    ∃ x l, a.saved (a.running c) = x :: l ∧ (handleFinished L c (s.cpus c) s.mem).1.visible = x ∧
      Related L (s.finish L c)
        { a with live := Function.update a.live c x
                 saved := Function.update a.saved (a.running c) (Coroutine.rest (x :: l)) } := by
  generalize hruns : a.running c = t
  have hrun : Runs L s c t := hruns ▸ h.current c
  have hframes := h.chains t (hruns ▸ h.used c)
  have hbase := toNat_base L t
  have harea := area_lt L t
  have hbounds := hframes.bounds
  have hentry : ¬ InBlock (s.mem (L.entry t)) 136 (L.entry t) := fun hb =>
    entry_not_in_area L t t (by unfold InBlock at hb; omega)
  by_cases hp : s.mem (L.entry t) = L.base t
  · rw [hp] at hframes hentry
    obtain ⟨x, hx⟩ := hframes.single
    rw [hx] at hframes
    have hlast := hframes
    generalize hb : L.base t = b at hlast
    cases hlast with
    | base hctx hlink hmask huser _ _ =>
        obtain ⟨hm, hvisible, hstatus⟩ := handleFinished_spec (s.cpus c) hrun hp hctx (by omega) hentry hmask
        refine ⟨x, [], hx, hvisible, ?_⟩
        rw [hlink, ← hp, Function.update_eq_self] at hm
        have hsame : ∀ x, Protected L s x → s.mem x = s.mem x := fun _ _ => rfl
        have hstep := h.run (c := c) (p := (handleFinished L c (s.cpus c) s.mem).1) hsame
          fun hmode => absurd (hstatus.trans huser) hmode
        rw [hvisible] at hstep
        unfold SwitchState.finish
        rw [hm, show Coroutine.rest [x] = a.saved t from hx.symm, Function.update_eq_self]
        exact hstep
    | push _ _ _ _ _ hrest => exact absurd rfl hrest.ne_nil
  · have hidle : t ≠ idleTid := by
      rintro rfl
      exact hp h.idle.2
    obtain ⟨x, y, l, hsaved, hctx, hmask, hlo, hlt, huser, hrest⟩ := hframes.of_ne_base hp
    obtain ⟨hm, hvisible, hstatus⟩ := handleFinished_spec (s.cpus c) hrun rfl hctx (by omega) hentry hmask
    refine ⟨x, y :: l, hsaved, hvisible, ?_⟩
    have hother : ∀ x, x ≠ L.entry t → (handleFinished L c (s.cpus c) s.mem).2 x = s.mem x := fun x hx => by
      rw [hm, Function.update_of_ne hx]
    have hself : (handleFinished L c (s.cpus c) s.mem).2 (L.entry t) = s.mem (slot (s.mem (L.entry t)) 132) := by
      rw [hm, Function.update_self]
    have hnew : Frames L t (handleFinished L c (s.cpus c) s.mem).2
        ((handleFinished L c (s.cpus c) s.mem).2 (L.entry t)) (y :: l) := by
      rw [hself]
      refine hrest.congr fun q hq z hz => hother z ?_
      rintro rfl
      exact entry_not_in_area L t t (hrest.inBlock_area hq hz)
    have hchain := h.chain (p := (handleFinished L c (s.cpus c) s.mem).1) hruns hidle hnew
      (fun x _ hx => hother x hx) fun hmode => by
        rw [hself]
        exact huser fun hzero => hmode (hstatus.trans hzero)
    rw [hvisible] at hchain
    exact hchain

/-! ## The scheduler and the thread table -/

theorem Related.switch (h : Related L s a) (hkernel : ¬ InUserMode s c) (hcreated : s.created t = true)
    (hother : t = idleTid ∨ ∀ d, d ≠ c → ¬ Runs L s d t) :
    Related L (s.switch L c t)
      { a with running := Function.update a.running c t } := by
  have hentry : ∀ t', Function.update s.mem (L.current c) (BitVec.ofNat 32 t) (L.entry t') = s.mem (L.entry t') :=
    fun t' => Function.update_of_ne (entry_ne_current L t' c) ..
  refine ⟨fun d => ?_, h.live, fun t' ht' => ?_, h.unused, ⟨h.idle.1, (hentry _).trans h.idle.2⟩, fun d => ?_,
    fun d e heq => ?_, fun d hd => ?_⟩
  · change Function.update s.mem (L.current c) (BitVec.ofNat 32 t) (L.current d) =
      BitVec.ofNat 32 (Function.update a.running c t d)
    by_cases hdc : d = c
    · subst hdc
      rw [Function.update_self, Function.update_self]
    · rw [Function.update_of_ne fun heq => hdc (current_inj heq), Function.update_of_ne hdc]
      exact h.current d
  · refine h.chains_congr ht' (hentry t') fun p x hp hx => Function.update_of_ne ?_ ..
    rintro rfl
    exact current_not_in_area L t' c ((h.chains t' ht').inBlock_area hp hx)
  · change s.created (Function.update a.running c t d) = true
    by_cases hdc : d = c
    · rw [hdc, Function.update_self, hcreated]
    · rw [Function.update_of_ne hdc, h.used]
  · have hruns : ∀ d, d ≠ c → a.running d = t → t = idleTid := fun d hdc hd =>
      hother.resolve_right fun hnot => hnot d hdc (hd ▸ h.current d)
    change Function.update a.running c t d = Function.update a.running c t e at heq
    change d = e ∨ Function.update a.running c t d = idleTid
    by_cases hdc : d = c
    · subst hdc
      by_cases hec : e = d
      · exact Or.inl hec.symm
      · rw [Function.update_self, Function.update_of_ne hec] at heq
        rw [Function.update_self]
        exact Or.inr (hruns e hec heq.symm)
    · rw [Function.update_of_ne hdc] at heq ⊢
      by_cases hec : e = c
      · subst hec
        rw [Function.update_self] at heq
        exact Or.inr (heq.trans (hruns d hdc heq))
      · rw [Function.update_of_ne hec] at heq
        exact h.exclusive d e heq
  · have hdc : d ≠ c := by
      rintro rfl
      exact hkernel hd
    have hrunning : Function.update a.running c t d = a.running d := Function.update_of_ne hdc ..
    obtain ⟨hne, hbase⟩ := h.user d hd
    refine ⟨hrunning.trans_ne hne, ?_⟩
    change Function.update s.mem (L.current c) (BitVec.ofNat 32 t) (L.entry (Function.update a.running c t d)) =
      L.base (Function.update a.running c t d)
    rw [hentry, hrunning, hbase]

/-- The context that a thread begins with. -/
def Ctx.initial (L : Layout) (t : Tid) (func arg : BitVec 32) : Ctx where
  regs :=
    let regs := Function.update (fun _ => 0#32) registerSp (slot L.threadStackAreas (4096 * t + 4096 - 4 - 136) - 4)
    Function.update (Function.update regs registerA0 arg) registerRa L.threadFinish
  hi := 0#32
  lo := 0#32
  pc := func
  status := 0xff01

theorem contextInit_spec {x : Ctx} (hctx : CtxAt m p x) (hfit : p.toNat + 136 ≤ 2 ^ 32)
    (entry endentry stack args : BitVec 32) :
    CtxAt (contextInit m p entry endentry stack args) p
        { x with
          regs := Function.update (Function.update (Function.update x.regs registerSp (stack - 4)) registerA0 args)
            registerRa endentry
          pc := entry
          status := 0xff01 } ∧
      ∀ y, ¬ InBlock p 132 y → contextInit m p entry endentry stack args y = m y := by
  have hfit' : p.toNat + 132 ≤ 2 ^ 32 := by omega
  have hne : ∀ y, ¬ InBlock p 132 y → ∀ n < 132, y ≠ slot p n := fun y hy n hn =>
    slot_ne_of_not_inBlock hfit' hn hy
  have hregs := (((hctx.setPc hfit entry).setReg hfit registerSp (stack - 4)).setReg hfit registerA0 args).setReg hfit
    registerRa endentry
  have hall := hregs.setStatus hfit 0xff01
  unfold contextInit
  refine ⟨hall, fun y hy => ?_⟩
  rw [Function.update_of_ne (hne y hy _ (by decide)), Function.update_of_ne (hne y hy _ (by decide)),
    Function.update_of_ne (hne y hy _ (by decide)), Function.update_of_ne (hne y hy _ (by decide)),
    Function.update_of_ne (hne y hy _ (by decide))]

theorem toNat_stackTop (L : Layout) (t : Tid) :
    (slot L.threadStackAreas (4096 * t + 4096 - 4 - 136) - 4).toNat = L.area t + 3952 := by
  have h := L.areas_fit
  have ht := t.isLt
  unfold configMaxThreads at h ht
  have hslot : (slot L.threadStackAreas (4096 * t + 4096 - 4 - 136)).toNat = L.area t + 3956 := by
    unfold Layout.area
    rw [toNat_slot (by omega)]
    omega
  have harea := area_lt L t
  rw [BitVec.toNat_sub, hslot]
  change (2 ^ 32 - 4 + (L.area t + 3956)) % 2 ^ 32 = L.area t + 3952
  omega

theorem frames_threadCreate (m : Memory) (t : Tid) (func arg : BitVec 32) :
    threadCreate L m t func arg (L.entry t) = L.base t ∧
      Frames L t (threadCreate L m t func arg) (L.base t) [Ctx.initial L t func arg] ∧
      ∀ x, ¬ (L.area t ≤ x.toNat ∧ x.toNat < L.area t + 4096) → x ≠ L.entry t →
        threadCreate L m t func arg x = m x := by
  have hbase := toNat_base L t
  have harea := area_lt L t
  have hin : ∀ x, InBlock (L.base t) 136 x → L.area t ≤ x.toNat ∧ x.toNat < L.area t + 4096 := by
    unfold InBlock
    omega
  have hzero : ∀ m, CtxAt (storeWords m (L.base t) (fun _ => 0#32) 34) (L.base t) ⟨fun _ => 0, 0, 0, 0, 0⟩ :=
    fun m i hi => by
      rw [storeWords_slot (by omega) (by omega)]
      unfold Ctx.word
      split_ifs <;> rfl
  generalize hm1 : Function.update m (L.entry t) (L.base t) = m1
  have hlinked := (hzero m1).setLink (by omega) (L.base t)
  generalize hm2 : Function.update (storeWords m1 (L.base t) (fun _ => 0#32) 34) (slot (L.base t) 132) (L.base t) = m2
    at hlinked
  obtain ⟨hctx, hframe⟩ := contextInit_spec hlinked (by omega) func L.threadFinish
    (slot L.threadStackAreas (4096 * t + 4096 - 4 - 136)) arg
  have hcreate : threadCreate L m t func arg = contextInit m2 (L.base t) func L.threadFinish
      (slot L.threadStackAreas (4096 * t + 4096 - 4 - 136)) arg := by
    rw [← hm2, ← hm1]
    rfl
  rw [hcreate]
  have hframe1 : ∀ x, ¬ InBlock (L.base t) 136 x → m2 x = m1 x := fun x hx => by
    rw [← hm2, Function.update_of_ne (slot_ne_of_not_inBlock (k := 136) (by omega) (by decide) hx),
      storeWords_of_outside (by omega) hx]
  have hframe2 : ∀ x, ¬ InBlock (L.base t) 136 x → contextInit m2 (L.base t) func L.threadFinish
      (slot L.threadStackAreas (4096 * t + 4096 - 4 - 136)) arg x = m1 x := fun x hx =>
    (hframe x fun hb => hx ⟨hb.1, by have := hb.2; omega⟩).trans (hframe1 x hx)
  refine ⟨?_, .base hctx ?_ (show (0xff01#32 &&& 0xff11#32) = 0xff01#32 by decide)
    (show (0xff01#32 &&& userlandEnableBit) = 0#32 by decide) ?_ ?_, fun x hx hne => ?_⟩
  · rw [hframe2 _ fun hb => entry_not_in_area L t t (hin _ hb), ← hm1, Function.update_self]
  · rw [hframe _ fun hb => ?_, ← hm2, Function.update_self]
    unfold InBlock at hb
    rw [toNat_slot (by omega)] at hb
    omega
  · change L.area t + 136 ≤ (slot L.threadStackAreas (4096 * t + 4096 - 4 - 136) - 4).toNat
    rw [toNat_stackTop]
    omega
  · change (slot L.threadStackAreas (4096 * t + 4096 - 4 - 136) - 4).toNat ≤ _
    rw [toNat_stackTop]
    omega
  · rw [hframe2 x fun hb => hx (hin x hb), ← hm1, Function.update_of_ne hne]

theorem Related.create (h : Related L s a) (hnew : s.created t = false) (func arg : BitVec 32) :
    Related L (s.create L t func arg)
      { a with saved := Function.update a.saved t [Ctx.initial L t func arg] } := by
  obtain ⟨hentry, hframes, hframe⟩ := frames_threadCreate (L := L) s.mem t func arg
  unfold SwitchState.create
  generalize threadCreate L s.mem t func arg = m' at hentry hframes hframe ⊢
  have hidle : idleTid ≠ t := by
    rintro rfl
    rw [h.idle.1] at hnew
    cases hnew
  have hrunning : ∀ c, a.running c ≠ t := by
    rintro c rfl
    rw [h.used c] at hnew
    cases hnew
  have hother : ∀ t', t' ≠ t → m' (L.entry t') = s.mem (L.entry t') := fun t' hne =>
    hframe _ (entry_not_in_area L t t') fun heq => hne (entry_inj heq)
  refine ⟨fun d => ?_, h.live, fun t' ht' => ?_, fun t' ht' => ?_, ⟨?_, ?_⟩, fun d => ?_, h.exclusive, fun d hd => ?_⟩
  · exact (hframe _ (current_not_in_area L t d) (entry_ne_current L t d).symm).trans (h.current d)
  · change Frames L t' m' (m' (L.entry t')) (Function.update a.saved t _ t')
    change Function.update s.created t true t' = true at ht'
    by_cases hne : t' = t
    · subst hne
      rw [hentry, Function.update_self]
      exact hframes
    · rw [Function.update_of_ne hne] at ht' ⊢
      exact h.chains_of_ne ht' hne hframe
  · change Function.update s.created t true t' = false at ht'
    change Function.update a.saved t _ t' = []
    by_cases hne : t' = t
    · subst hne
      rw [Function.update_self] at ht'
      cases ht'
    · rw [Function.update_of_ne hne] at ht' ⊢
      exact h.unused t' ht'
  · exact (Function.update_of_ne hidle ..).trans h.idle.1
  · exact (hother _ hidle).trans h.idle.2
  · exact (Function.update_of_ne (hrunning d) ..).trans (h.used d)
  · refine ⟨(h.user d hd).1, ?_⟩
    exact (hother _ (hrunning d)).trans (h.user d hd).2

theorem Related.free (h : Related L s a) (hidle : t ≠ idleTid) (hrun : ∀ c, ¬ Runs L s c t) :
    Related L (s.free t)
      { a with saved := Function.update a.saved t [] } := by
  have hrunning : ∀ c, a.running c ≠ t := by
    rintro c rfl
    exact hrun c (h.current c)
  refine ⟨h.current, h.live, fun t' ht' => ?_, fun t' ht' => ?_, ⟨?_, h.idle.2⟩, fun d => ?_, h.exclusive, h.user⟩
  · change Function.update s.created t false t' = true at ht'
    have hne : t' ≠ t := by
      rintro rfl
      rw [Function.update_self] at ht'
      cases ht'
    rw [Function.update_of_ne hne] at ht'
    change Frames L t' s.mem (s.mem (L.entry t')) (Function.update a.saved t [] t')
    rw [Function.update_of_ne hne]
    exact h.chains t' ht'
  · change Function.update s.created t false t' = false at ht'
    change Function.update a.saved t [] t' = []
    by_cases hne : t' = t
    · rw [hne, Function.update_self]
    · rw [Function.update_of_ne hne] at ht' ⊢
      exact h.unused t' ht'
  · exact (Function.update_of_ne hidle.symm ..).trans h.idle.1
  · exact (Function.update_of_ne (hrunning d) ..).trans (h.used d)

/-! ## The start -/

theorem toNat_idleStackTop (L : Layout) :
    (slot L.threadStackAreas (4096 - 4 - 136)).toNat = L.area idleTid + 3956 := by
  have h := L.areas_fit
  unfold configMaxThreads at h
  rw [toNat_slot (by omega)]
  rfl

theorem foldl_entries_of_ne {l : List Tid} (hne : ∀ t ∈ l, x ≠ L.entry t) (m : Memory) :
    l.foldl (fun m t => Function.update m (L.entry t) (L.base t)) m x = m x := by
  induction l generalizing m with
  | nil => rfl
  | cons t l ih =>
      rw [List.foldl_cons, ih fun t' ht' => hne t' (List.mem_cons_of_mem t ht')]
      exact Function.update_of_ne (hne t List.mem_cons_self) ..

/-- All rows point to the tops of their stacks. -/
theorem foldl_entries_of_mem {l : List Tid} (ht : t ∈ l) (m : Memory) :
    l.foldl (fun m t => Function.update m (L.entry t) (L.base t)) m (L.entry t) = L.base t := by
  induction l generalizing m with
  | nil => cases ht
  | cons t' l ih =>
      rw [List.foldl_cons]
      by_cases hl : t ∈ l
      · exact ih hl _
      · obtain rfl : t = t' := (List.mem_cons.1 ht).resolve_right hl
        rw [foldl_entries_of_ne fun t' ht' heq => hl ?_, Function.update_self]
        rwa [entry_inj heq]

theorem threadTableInit_spec (L : Layout) (m : Memory) :
    (∀ t, threadTableInit L m (L.entry t) = L.base t) ∧
      ∃ x, Frames L idleTid (threadTableInit L m) (L.base idleTid) [x] := by
  have hbase := toNat_base L idleTid
  have harea := area_lt L idleTid
  generalize hm1 : (List.finRange configMaxThreads).foldl (fun m t => Function.update m (L.entry t) (L.base t)) m = m1
  have hentry : ∀ t, m1 (L.entry t) = L.base t := fun t => by
    rw [← hm1, foldl_entries_of_mem (List.mem_finRange t)]
  have hfit : (L.base idleTid).toNat + 136 ≤ 2 ^ 32 := by omega
  have hctx := ((((ctxAt_ofMemory m1 (L.base idleTid)).setPc hfit L.idleThreadWaitLoop).setReg hfit registerSp
    (slot L.threadStackAreas (4096 - 4 - 136))).setStatus hfit 0xff01).setLink hfit (L.base idleTid)
  have hinit : threadTableInit L m = Function.update (Function.update (Function.update (Function.update m1
      (slot (L.base idleTid) 124) L.idleThreadWaitLoop) (slot (L.base idleTid) (4 * registerSp))
      (slot L.threadStackAreas (4096 - 4 - 136))) (slot (L.base idleTid) 128) 0xff01)
      (slot (L.base idleTid) 132) (L.base idleTid) := by
    rw [← hm1]
    rfl
  rw [hinit]
  refine ⟨fun t => ?_, _, .base hctx (Function.update_self ..) (show (0xff01#32 &&& 0xff11#32) = 0xff01#32 by decide)
    (show (0xff01#32 &&& userlandEnableBit) = 0#32 by decide) ?_ ?_⟩
  · have hne : ∀ n < 136, L.entry t ≠ slot (L.base idleTid) n := fun n hn =>
      slot_ne_of_not_inBlock hfit hn fun hb =>
        entry_not_in_area L idleTid t (by unfold InBlock at hb; omega)
    rw [Function.update_of_ne (hne _ (by decide)), Function.update_of_ne (hne _ (by decide)),
      Function.update_of_ne (hne _ (by decide)), Function.update_of_ne (hne _ (by decide)), hentry]
  · change _ ≤ (Function.update (Ctx.ofMemory m1 (L.base idleTid)).regs registerSp
      (slot L.threadStackAreas (4096 - 4 - 136)) registerSp).toNat
    rw [Function.update_self, toNat_idleStackTop]
    omega
  · change (Function.update (Ctx.ofMemory m1 (L.base idleTid)).regs registerSp
      (slot L.threadStackAreas (4096 - 4 - 136)) registerSp).toNat ≤ _
    rw [Function.update_self, toNat_idleStackTop]
    omega

theorem SwitchInit.related (h : SwitchInit L s) : ∃ a, Coroutine.Init idleTid a ∧ Related L s a := by
  obtain ⟨⟨m, hm⟩, hcpus, hcreated⟩ := h
  obtain ⟨hentry, x, hframes⟩ := threadTableInit_spec L m
  refine ⟨⟨fun _ => idleTid, fun c => (s.cpus c).visible, Function.update (fun _ => []) idleTid [x]⟩,
    ⟨fun _ => rfl, x, rfl⟩, fun c => (hcpus c).1, fun _ => rfl, fun t ht => ?_, fun t ht => ?_, ⟨?_, ?_⟩, fun c => ?_,
    fun _ _ _ => Or.inr rfl, fun c hc => absurd hc (hcpus c).2⟩
  · rw [hcreated] at ht
    obtain rfl := of_decide_eq_true ht
    change Frames L idleTid s.mem (s.mem (L.entry idleTid)) (Function.update (fun _ => []) idleTid [x] idleTid)
    rw [hm, hentry, Function.update_self]
    exact hframes
  · rw [hcreated] at ht
    have hne : t ≠ idleTid := of_decide_eq_false ht
    exact Function.update_of_ne hne [x] fun _ => []
  · rw [hcreated]
    exact decide_eq_true rfl
  · rw [hm, hentry]
  · rw [hcreated]
    exact decide_eq_true rfl

/-! ## All steps -/

/-- The thread of which an action changes the chain: the one that the processor runs, or that is made or freed. -/
def SwitchAction.target (L : Layout) (s : SwitchState) (t : Tid) : SwitchAction → Prop
  | .exception c _ | .syscall c _ | .finish c => Runs L s c t
  | .create t' .. | .free t' => t' = t
  | .run _ | .switch .. | .userland _ => False

instance {act : SwitchAction} : Decidable (act.target L s t) :=
  match act with
  | .exception c _ | .syscall c _ | .finish c => inferInstanceAs (Decidable (Runs L s c t))
  | .create t' .. | .free t' => inferInstanceAs (Decidable (t' = t))
  | .run _ | .switch .. | .userland _ => inferInstanceAs (Decidable False)

theorem Related.created_ne_nil (h : Related L s a) (ht : s.created t = true) : a.saved t ≠ [] :=
  (h.chains t ht).ne_nil

theorem SwitchStep.simulate {act : SwitchAction} (hstep : SwitchStep L s act s') (h : Related L s a) :
    ∃ b a', Coroutine.Step idleTid a b a' ∧ Related L s' a' ∧ ∀ t, b.target a = some t → act.target L s t := by
  cases hstep with
  | run hm huser =>
      refine ⟨_, _, .run, h.run hm fun hmode => h.user _ ?_, fun t ht => nomatch ht⟩
      unfold InUserMode
      rwa [← huser]
  | @exception c t cause hrun hstack =>
      have hruns := h.runs_eq hrun
      by_cases hidle : t = idleTid
      · subst hidle
        exact ⟨_, _, .run, h.exception_idle hrun hstack cause, fun t ht => nomatch ht⟩
      · refine ⟨_, _, .interrupt (c := c) (hruns ▸ hidle), hruns.symm ▸ h.exception hrun hidle hstack cause, ?_⟩
        rintro t' ⟨⟩
        exact h.current c
  | @syscall c t v hrun hkernel hne =>
      have hruns := h.runs_eq hrun
      obtain ⟨x, y, l, hsaved, hrel⟩ := h.syscall hrun hne v
      refine ⟨_, _, .patch (c := c) (f := (·.syscallReturn v)) (hruns.symm ▸ hsaved), hruns.symm ▸ hrel, ?_⟩
      rintro t' ⟨⟩
      exact h.current c
  | @switch c t hkernel hcreated hother =>
      refine ⟨_, _, .switch (h.created_ne_nil hcreated) (hother.imp_right fun hnot d hdc hd => ?_),
        h.switch hkernel hcreated hother, fun t ht => nomatch ht⟩
      exact hnot d hdc (hd ▸ h.current d)
  | @finish c hkernel =>
      obtain ⟨x, l, hsaved, -, hrel⟩ := h.finish (c := c)
      refine ⟨_, _, .resume hsaved, hrel, ?_⟩
      rintro t' ⟨⟩
      exact h.current c
  | @userland c t hrun hidle hkernel hbase hfree =>
      have hruns := h.runs_eq hrun
      refine ⟨_, _, .run, h.run (fun x hx => ?_) fun _ => ⟨hruns ▸ hidle, hruns ▸ hbase⟩, fun t ht => nomatch ht⟩
      refine Function.update_of_ne ?_ ..
      rintro rfl
      exact hfree hx
  | @create t func arg hnew =>
      refine ⟨_, _, .create ?_ (h.unused t hnew), h.create hnew func arg, ?_⟩
      · rintro rfl
        rw [h.idle.1] at hnew
        cases hnew
      · rintro t' ⟨⟩
        rfl
  | @free t hidle hrun =>
      refine ⟨_, _, .free hidle fun c hc => hrun c (hc ▸ h.current c), h.free hidle hrun, ?_⟩
      rintro t' ⟨⟩
      rfl

end Kudos.Mips32.Switch
