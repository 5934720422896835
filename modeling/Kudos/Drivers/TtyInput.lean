import Kudos.Drivers.Tty

set_option autoImplicit false

/-! # What is read from a TTY

The read buffer should be a bounded queue: what the readers got and what is still buffered is what
arrived, without the bytes that found the buffer full (`InputFaithful`). The handler makes room for one
byte too many: its test lets a byte in while `read_count` equals `TTY_BUF_SIZE`, and that byte overwrites
the first unread one. Up to the first byte that arrives at a full buffer everything is as it should be,
and from there on nothing is (`inputFaithful_until_full`). -/

namespace Kudos.Tty

open Transition

variable {T : Type}

/-- The bytes that found fewer than `TTY_BUF_SIZE` unread bytes in the buffer. -/
def accepted (σ : TtySystem T) : List UInt8 :=
  (σ.arrivals.filter (fun a => a.2 < (ttyBufSize : ℤ))).map Prod.fst

/-- The read buffer is a bounded queue. -/
structure InputFaithful (σ : TtySystem T) : Prop where
  count_nonneg : 0 ≤ σ.read.count
  count_le : σ.read.count ≤ ttyBufSize
  stream : σ.delivered ++ σ.read.contents ttyBufSize = accepted σ

/-- No byte arrives at a full buffer. -/
def HasRoom (σ : TtySystem T) : TtyOp T → Prop
  | .receive _ _ => σ.read.count < ttyBufSize
  | _ => True

/-! ## The buffer as a queue -/

/-- The copy loop takes bytes off the front. -/
theorem copyOut_valid {r : RingBuffer UInt8} (h : r.Valid ttyBufSize) (len : ℕ) :
    (copyOut len r).1.Valid ttyBufSize ∧
      r.contents ttyBufSize = (copyOut len r).2 ++ (copyOut len r).1.contents ttyBufSize := by
  induction len generalizing r with
  | zero => exact ⟨h, rfl⟩
  | succ len ih =>
      rw [copyOut]
      by_cases hpos : 0 < r.count
      · rw [if_pos hpos]
        obtain ⟨hvalid, hcontents⟩ := ih (h.pop hpos)
        refine ⟨hvalid, ?_⟩
        rw [h.contents_pop hpos, hcontents]
        rfl
      · rw [if_neg hpos]
        exact ⟨h, rfl⟩

/-- The invariant behind `InputFaithful`. -/
structure Input (σ : TtySystem T) : Prop where
  valid : σ.read.Valid ttyBufSize
  stream : σ.delivered ++ σ.read.contents ttyBufSize = accepted σ

theorem Input.faithful {σ : TtySystem T} (h : Input σ) : InputFaithful σ :=
  ⟨h.valid.count_nonneg, h.valid.count_le, h.stream⟩

theorem ttyInit_input : Input (ttyInit T) where
  valid := ⟨show 0 < ttyBufSize by decide, show (0 : ℤ) ≤ 0 by decide, show (0 : ℤ) ≤ ttyBufSize by decide⟩
  stream := rfl

/-- A byte that finds room is appended. -/
theorem Input.receive {σ : TtySystem T} (h : Input σ) (data : UInt8)
    (hroom : σ.read.count < ttyBufSize) : Input (handleRirq σ data) := by
  have hpush : (handleRirq σ data).read = σ.read.push ttyBufSize data := by
    simp only [handleRirq]
    rw [if_neg (by omega)]
  constructor
  · rw [hpush]
    exact h.valid.push hroom data
  · have hacc : accepted (handleRirq σ data) = accepted σ ++ [data] := by
      simp [accepted, handleRirq, hroom]
    rw [hpush, h.valid.contents_push hroom, hacc, ← h.stream, List.append_assoc]
    rfl

/-- A byte that arrives at a full buffer is stored all the same. -/
theorem Input.overflow {σ : TtySystem T} (h : Input σ) (data : UInt8)
    (hfull : ¬ σ.read.count < ttyBufSize) : ¬ InputFaithful (handleRirq σ data) := by
  intro hf
  have hcount : σ.read.count = ttyBufSize := by
    have := h.valid.count_le
    omega
  have hle := hf.count_le
  simp only [handleRirq] at hle
  rw [if_neg (by omega), RingBuffer.push_count] at hle
  omega

/-! ## Steps -/

section

variable [DecidableEq T]

/-- A step that meets the condition. -/
def roomyStep (σ : TtySystem T) (op : TtyOp T) (σ' : TtySystem T) : Prop :=
  ttyStep σ op σ' ∧ HasRoom σ op

/-- The read buffer and its history are as before. -/
structure SameInput (σ σ' : TtySystem T) : Prop where
  read : σ'.read = σ.read
  arrivals : σ'.arrivals = σ.arrivals
  delivered : σ'.delivered = σ.delivered

theorem SameInput.ttyWrite (σ : TtySystem T) (t : T) (c i : ℕ) : SameInput σ (ttyWrite σ t c i) := by
  unfold Tty.ttyWrite
  by_cases hlen : (i : ℤ) < (σ.call c).len
  · rw [if_pos hlen]
    by_cases hcount : 0 < σ.write.count
    · rw [if_pos hcount]
      exact ⟨rfl, rfl, rfl⟩
    · rw [if_neg hcount]
      exact ⟨rfl, rfl, rfl⟩
  · rw [if_neg hlen]
    exact ⟨rfl, rfl, rfl⟩

theorem SameInput.ttyWriteFirst (σ : TtySystem T) (t : T) (c i : ℕ) :
    SameInput σ (ttyWriteFirst σ t c i) := by
  unfold Tty.ttyWriteFirst
  split <;> exact ⟨rfl, rfl, rfl⟩

theorem SameInput.handleWirq (σ : TtySystem T) (t : T) : SameInput σ (handleWirq σ t) := by
  unfold Tty.handleWirq
  split <;> exact ⟨rfl, rfl, rfl⟩

theorem SameInput.ttyEnter {σ σ' : TtySystem T} {t : T} {pc : TtyPc}
    (h : ttyEnter σ t pc = some σ') : SameInput σ σ' := by
  unfold Tty.ttyEnter at h
  split at h
  · cases h
    exact ⟨rfl, rfl, rfl⟩
  · cases h

/-- A step receives a byte, or is the one in which a reader gets its bytes, or leaves the input side
    alone. -/
theorem ttyStep_input {σ σ' : TtySystem T} {op : TtyOp T} (h : ttyStep σ op σ') :
    (∃ t data, op = .receive t data ∧ σ' = handleRirq σ data) ∨
    ((∀ t data, op ≠ .receive t data) ∧ σ'.arrivals = σ.arrivals ∧
      ∃ len, σ'.read = (copyOut len σ.read).1 ∧
        σ'.delivered = σ.delivered ++ (copyOut len σ.read).2) ∨
    ((∀ t data, op ≠ .receive t data) ∧ SameInput σ σ') := by
  cases op with
  | write t call =>
      refine Or.inr (Or.inr ⟨by simp, ?_⟩)
      obtain ⟨σ1, hσ1, rfl⟩ := Option.map_eq_some_iff.1 h
      obtain ⟨hread, harr, hdel⟩ := SameInput.ttyEnter hσ1
      exact ⟨hread, harr, hdel⟩
  | read t len => exact Or.inr (Or.inr ⟨by simp, SameInput.ttyEnter h⟩)
  | wirq t => exact Or.inr (Or.inr ⟨by simp, SameInput.ttyEnter h⟩)
  | rirq t => exact Or.inr (Or.inr ⟨by simp, SameInput.ttyEnter h⟩)
  | receive t data =>
      simp only [ttyStep, ttyExec] at h
      split at h
      · cases h
        exact Or.inl ⟨t, data, rfl, rfl⟩
      · cases h
  | status wbusy =>
      cases h
      exact Or.inr (Or.inr ⟨by simp, rfl, rfl, rfl⟩)
  | run t =>
      refine Or.inr ?_
      replace h : ttyRun σ t (σ.pc t) = some σ' := h
      cases hpc : σ.pc t with
      | idle => rw [hpc] at h; cases h
      | writing c i =>
          rw [hpc] at h
          cases h
          exact Or.inr ⟨by simp, SameInput.ttyWrite σ t c i⟩
      | filled c i =>
          rw [hpc] at h
          cases h
          exact Or.inr ⟨by simp, SameInput.ttyWriteFirst σ t c i⟩
      | draining =>
          rw [hpc] at h
          cases h
          exact Or.inr ⟨by simp, SameInput.handleWirq σ t⟩
      | receiving =>
          rw [hpc] at h
          cases h
          exact Or.inr ⟨by simp, rfl, rfl, rfl⟩
      | waiting c i =>
          rw [hpc, ttyRun] at h
          split at h
          · cases h
          · cases h
            exact Or.inr ⟨by simp, rfl, rfl, rfl⟩
      | awaiting len =>
          rw [hpc, ttyRun] at h
          split at h
          · cases h
          · cases h
            exact Or.inr ⟨by simp, rfl, rfl, rfl⟩
      | reading len =>
          rw [hpc, ttyRun] at h
          cases h
          unfold ttyRead
          by_cases hzero : σ.read.count = 0
          · rw [if_pos hzero]
            exact Or.inr ⟨by simp, rfl, rfl, rfl⟩
          · rw [if_neg hzero]
            exact Or.inl ⟨by simp, rfl, len.toNat, rfl, rfl⟩

/-- Every step but the arrival of a byte at a full buffer keeps the invariant. -/
theorem Input.step {σ σ' : TtySystem T} {op : TtyOp T} (h : Input σ) (hstep : ttyStep σ op σ')
    (hroom : HasRoom σ op) : Input σ' := by
  rcases ttyStep_input hstep with ⟨t, data, rfl, rfl⟩ | ⟨-, harr, len, hread, hdel⟩ | ⟨-, hsame⟩
  · exact h.receive data hroom
  · obtain ⟨hvalid, hcontents⟩ := copyOut_valid h.valid len
    refine ⟨hread ▸ hvalid, ?_⟩
    have hacc : accepted σ' = accepted σ := by simp only [accepted, harr]
    rw [hdel, hread, hacc, ← h.stream, hcontents, List.append_assoc]
  · refine ⟨hsame.read ▸ h.valid, ?_⟩
    have hacc : accepted σ' = accepted σ := by simp only [accepted, hsame.arrivals]
    rw [hsame.read, hsame.delivered, hacc, h.stream]

/-- The states that are reached without a byte arriving at a full buffer. -/
def RoomyReachable (σ : TtySystem T) : Prop := Reach (· = ttyInit T) roomyStep σ

theorem RoomyReachable.input {σ : TtySystem T} (h : RoomyReachable σ) : Input σ := by
  refine Reach.invariant (I := Input) ?_ ?_ h
  · rintro σ rfl
    exact ttyInit_input
  · rintro σ op σ' hin ⟨hstep, hroom⟩
    exact hin.step hstep hroom

/-- **TTY input is a bounded queue until a byte arrives at a full buffer.** In every state of a run in
    which no byte arrives while `TTY_BUF_SIZE` bytes are unread, the bytes that were read and those in the
    buffer are the bytes that arrived. The first step that breaks the condition breaks the property. -/
theorem inputFaithful_until_full {σ : TtySystem T} (h : RoomyReachable σ) :
    InputFaithful σ ∧ ∀ op σ', ttyStep σ op σ' → (InputFaithful σ' ↔ HasRoom σ op) := by
  have hin := h.input
  refine ⟨hin.faithful, fun op σ' hstep => ⟨fun hf => ?_, fun hroom => ?_⟩⟩
  · by_contra hfull
    rcases ttyStep_input hstep with ⟨t, data, rfl, rfl⟩ | ⟨hop, -⟩ | ⟨hop, -⟩
    · exact hin.overflow data hfull hf
    · cases op with
      | receive t data => exact hop t data rfl
      | _ => exact hfull trivial
    · cases op with
      | receive t data => exact hop t data rfl
      | _ => exact hfull trivial
  · exact (hin.step hstep hroom).faithful

/-- While there is room, a handler in its loop can receive any number of bytes. -/
theorem runOps_receive (t : T) (data : UInt8) (n : ℕ) {σ : TtySystem T} (h : Input σ)
    (hpc : σ.pc t = .receiving) (hroom : σ.read.count + n ≤ ttyBufSize) :
    ∃ σ', runOps ttyExec σ (List.replicate n (.receive t data)) = some σ' ∧ Input σ' ∧
      σ'.pc t = .receiving ∧ σ'.read.count = σ.read.count + n := by
  induction n generalizing σ with
  | zero => exact ⟨σ, rfl, h, hpc, by simp⟩
  | succ n ih =>
      push_cast at hroom
      have hstep : ttyExec σ (.receive t data) = some (handleRirq σ data) := by
        rw [ttyExec, if_pos hpc]
      have hcount : (handleRirq σ data).read.count = σ.read.count + 1 := by
        simp only [handleRirq]
        rw [if_neg (by omega), RingBuffer.push_count]
      obtain ⟨σ', hrun, hin, hpc', hcount'⟩ :=
        ih (h.receive data (by omega)) (by exact hpc) (by rw [hcount]; omega)
      refine ⟨σ', ?_, hin, hpc', ?_⟩
      · rw [List.replicate_succ, runOps_cons hstep, hrun]
      · rw [hcount', hcount]
        push_cast
        omega

end

instance (σ : TtySystem T) : (op : TtyOp T) → Decidable (HasRoom σ op)
  | .receive _ _ => inferInstanceAs (Decidable (_ < _))
  | .write _ _ | .read _ _ | .wirq _ | .rirq _ | .run _ | .status _ =>
      inferInstanceAs (Decidable True)

/-- Two characters are typed, one of them is read, and a third one is typed. -/
def typedAndRead : TtySystem Unit :=
  (runOps (fun σ op => if HasRoom σ op then ttyExec σ op else none) (ttyInit Unit)
    [.rirq (), .receive () 65, .receive () 66, .run (), .read () 1, .run (), .rirq (), .receive () 67]).get
    (by decide +kernel)

theorem typedAndRead_reachable : RoomyReachable typedAndRead := by
  have hstart : Run (· = ttyInit Unit) roomyStep [] (ttyInit Unit) := .nil rfl
  refine (hstart.append_runOps _ (fun σ op σ' hop => ?_) (Option.some_get _).symm).reach
  by_cases hroom : HasRoom σ op
  · rw [if_pos hroom] at hop
    exact ⟨hop, hroom⟩
  · rw [if_neg hroom] at hop
    cases hop

theorem inputFaithful_until_full_typedAndRead :
    typedAndRead.delivered = [65] ∧ typedAndRead.arrivals.map Prod.fst = [65, 66, 67] ∧
    InputFaithful typedAndRead ∧
    ∀ σ', ttyStep typedAndRead (.receive () 68) σ' → InputFaithful σ' := by
  obtain ⟨hfaithful, hnext⟩ := inputFaithful_until_full typedAndRead_reachable
  have hroom : HasRoom typedAndRead (.receive () 68) := by decide +kernel
  exact ⟨by decide +kernel, by decide +kernel, hfaithful, fun σ' hstep => (hnext _ σ' hstep).2 hroom⟩

/-- Without a reader the byte after the first 2048 is stored over the first one. -/
theorem fullBuffer_not_faithful :
    ∃ σ, runOps ttyExec (ttyInit Unit)
        (.rirq () :: (List.replicate ttyBufSize (.receive () 65) ++ [.receive () 66])) = some σ ∧
      ¬ InputFaithful σ := by
  have hin : Input ((ttyInit Unit).acquire () .receiving) :=
    ⟨(ttyInit_input (T := Unit)).valid, (ttyInit_input (T := Unit)).stream⟩
  have hzero : ((ttyInit Unit).acquire () .receiving).read.count = 0 := rfl
  have hstart : ttyExec (ttyInit Unit) (.rirq ()) = some ((ttyInit Unit).acquire () .receiving) := rfl
  obtain ⟨σ, hrun, hin', hpc, hcount⟩ :=
    runOps_receive () 65 ttyBufSize hin rfl (by rw [hzero]; omega)
  refine ⟨handleRirq σ 66, ?_, hin'.overflow 66 (by omega)⟩
  have hlast : ttyExec σ (.receive () 66) = some (handleRirq σ 66) := by rw [ttyExec, if_pos hpc]
  rw [runOps_cons hstart, runOps_append, hrun, Option.bind_some, runOps_cons hlast]
  rfl

end Kudos.Tty
