import Kudos.Drivers.Tty
import Mathlib.Data.List.GetD
import Mathlib.Data.List.TakeDrop

set_option autoImplicit false

/-! # What is written to a TTY

The write buffer is a queue with many writers and one reader, the device. What went to the data port,
followed by what is in the buffer, is what the writers copied into the buffer, in this order; what one
call copied is a piece after piece of its own buffer (`OutputFaithful`). The bytes are taken off the
buffer in two places, by the interrupt handler and by the writer that starts the device; the spinlock
keeps the two apart. -/

namespace Kudos.Tty

open Transition

/-! ## Calls and their chunks -/

/-- The call of `tty_write` a party is in, and how far it is. -/
def TtyPc.call? : TtyPc → Option (ℕ × ℕ)
  | writing c i | waiting c i | filled c i => some (c, i)
  | _ => none

/-- What call `c` copied, piece by piece. -/
def chunksOf (chunks : List (ℕ × List UInt8)) (c : ℕ) : List (List UInt8) :=
  (chunks.filter (fun ch => ch.1 = c)).map Prod.snd

theorem chunksOf_concat (chunks : List (ℕ × List UInt8)) (c d : ℕ) (l : List UInt8) :
    chunksOf (chunks ++ [(c, l)]) d = chunksOf chunks d ++ if c = d then [l] else [] := by
  by_cases h : c = d
  · simp [chunksOf, h]
  · simp [chunksOf, h]

theorem WriteCall.length_bytes (call : WriteCall) : call.bytes.length = call.len.toNat := by
  simp [WriteCall.bytes]

/-- A call has copied the first `i` bytes of its buffer, in one piece if they fit. -/
structure Progress (call : WriteCall) (pieces : List (List UInt8)) (i : ℕ) : Prop where
  le : i ≤ call.len.toNat
  flatten : pieces.flatten = call.bytes.take i
  single : call.len.toNat ≤ ttyBufSize →
    (i = 0 ∧ pieces = []) ∨ (0 < i ∧ i = call.len.toNat ∧ pieces = [call.bytes])

theorem Progress.zero (call : WriteCall) : Progress call [] 0 :=
  ⟨Nat.zero_le _, rfl, fun _ => Or.inl ⟨rfl, rfl⟩⟩

/-- The next piece: as much as fits into the empty buffer. -/
theorem Progress.fill {call : WriteCall} {pieces : List (List UInt8)} {i : ℕ}
    (h : Progress call pieces i) (hi : i < call.len.toNat) :
    Progress call (pieces ++ [(call.bytes.drop i).take ttyBufSize])
      (i + ((call.bytes.drop i).take ttyBufSize).length) := by
  have hlen : ((call.bytes.drop i).take ttyBufSize).length
      = min ttyBufSize (call.len.toNat - i) := by
    rw [List.length_take, List.length_drop, call.length_bytes]
  have hpos : 0 < ttyBufSize := by decide
  refine ⟨by omega, ?_, fun hsmall => ?_⟩
  · rw [List.flatten_append, h.flatten, List.flatten_singleton, List.take_add]
    congr 1
    rw [List.length_take, List.take_eq_take_iff]
    omega
  · rcases h.single hsmall with ⟨rfl, rfl⟩ | ⟨-, hdone, -⟩
    · refine Or.inr ⟨by omega, by omega, ?_⟩
      rw [List.drop_zero, List.nil_append, List.take_of_length_le (by rw [call.length_bytes]; omega)]
    · omega

section

variable {T : Type} [DecidableEq T]

/-- The bookkeeping of the calls: `pos t` is the call that `t` is in. -/
structure CallLog (pos : T → Option (ℕ × ℕ)) (calls : List WriteCall)
    (chunks : List (ℕ × List UInt8)) (results : List (ℕ × ℕ)) : Prop where
  chunk_size : ∀ ch ∈ chunks, 0 < ch.2.length ∧ ch.2.length ≤ ttyBufSize
  chunk_call : ∀ ch ∈ chunks, ch.1 < calls.length
  active : ∀ t c i, pos t = some (c, i) → c < calls.length ∧ (∀ r, (c, r) ∉ results) ∧
    Progress (calls.getD c ⟨fun _ => 0, 0⟩) (chunksOf chunks c) i
  distinct : ∀ t u c i j, pos t = some (c, i) → pos u = some (c, j) → t = u
  returned : ∀ c r, (c, r) ∈ results → c < calls.length ∧
    r = (calls.getD c ⟨fun _ => 0, 0⟩).len.toNat ∧
    Progress (calls.getD c ⟨fun _ => 0, 0⟩) (chunksOf chunks c) r
  covered : ∀ c < calls.length, (∃ t i, pos t = some (c, i)) ∨ ∃ r, (c, r) ∈ results

variable {pos : T → Option (ℕ × ℕ)} {calls : List WriteCall} {chunks : List (ℕ × List UInt8)}
  {results : List (ℕ × ℕ)}

/-- A new call. -/
theorem CallLog.start (h : CallLog pos calls chunks results) {t : T} (ht : pos t = none)
    (call : WriteCall) :
    CallLog (Function.update pos t (some (calls.length, 0))) (calls ++ [call]) chunks results := by
  have hold : ∀ c < calls.length,
      (calls ++ [call]).getD c ⟨fun _ => 0, 0⟩ = calls.getD c ⟨fun _ => 0, 0⟩ :=
    fun c hc => List.getD_append _ _ _ _ hc
  have hnone : chunksOf chunks calls.length = [] := by
    have hf : chunks.filter (fun ch => ch.1 = calls.length) = [] :=
      List.filter_eq_nil_iff.2 (fun ch hch => by have := h.chunk_call ch hch; simp; omega)
    simp [chunksOf, hf]
  have hother : ∀ u c i, Function.update pos t (some (calls.length, 0)) u = some (c, i) →
      (u = t ∧ c = calls.length ∧ i = 0) ∨ (u ≠ t ∧ pos u = some (c, i)) := by
    intro u c i hu
    by_cases hut : u = t
    · rw [hut, Function.update_self, Option.some.injEq, Prod.mk.injEq] at hu
      exact Or.inl ⟨hut, hu.1.symm, hu.2.symm⟩
    · rw [Function.update_of_ne hut] at hu
      exact Or.inr ⟨hut, hu⟩
  refine ⟨h.chunk_size, fun ch hch => ?_, fun u c i hu => ?_, fun u v c i j hu hv => ?_,
    fun c r hr => ?_, fun c hc => ?_⟩
  · have := h.chunk_call ch hch
    simp only [List.length_append, List.length_singleton]
    omega
  · rcases hother u c i hu with ⟨-, rfl, rfl⟩ | ⟨-, hu⟩
    · refine ⟨by simp, fun r hr => ?_, ?_⟩
      · have := (h.returned _ r hr).1
        omega
      · rw [hnone]
        exact Progress.zero _
    · obtain ⟨hc, hres, hprog⟩ := h.active u c i hu
      exact ⟨by simp; omega, hres, by rw [hold c hc]; exact hprog⟩
  · rcases hother u c i hu with ⟨rfl, rfl, -⟩ | ⟨-, hu⟩
    · rcases hother v _ j hv with ⟨rfl, -, -⟩ | ⟨-, hv⟩
      · rfl
      · have := (h.active v _ j hv).1
        omega
    · rcases hother v c j hv with ⟨-, rfl, -⟩ | ⟨-, hv⟩
      · have := (h.active u _ i hu).1
        omega
      · exact h.distinct u v c i j hu hv
  · obtain ⟨hc, hlen, hprog⟩ := h.returned c r hr
    rw [hold c hc]
    exact ⟨by simp; omega, hlen, hprog⟩
  · simp only [List.length_append, List.length_singleton] at hc
    by_cases hc' : c < calls.length
    · rcases h.covered c hc' with ⟨u, i, hu⟩ | hr
      · have hut : u ≠ t := by
          rintro rfl
          rw [ht] at hu
          cases hu
        exact Or.inl ⟨u, i, by rw [Function.update_of_ne hut]; exact hu⟩
      · exact Or.inr hr
    · exact Or.inl ⟨t, 0, by rw [Function.update_self, show c = calls.length by omega]⟩

/-- The party moves on within its call. -/
theorem CallLog.distinct_move (h : CallLog pos calls chunks results) {t : T} {c i j : ℕ}
    (ht : pos t = some (c, i)) :
    ∀ u v d k l, Function.update pos t (some (c, j)) u = some (d, k) →
      Function.update pos t (some (c, j)) v = some (d, l) → u = v := by
  have hback : ∀ u d k, Function.update pos t (some (c, j)) u = some (d, k) →
      ∃ k', pos u = some (d, k') := by
    intro u d k hu
    by_cases hut : u = t
    · rw [hut, Function.update_self, Option.some.injEq, Prod.mk.injEq] at hu
      exact ⟨i, by rw [hut, ht, hu.1]⟩
    · rw [Function.update_of_ne hut] at hu
      exact ⟨k, hu⟩
  intro u v d k l hu hv
  obtain ⟨k', hu'⟩ := hback u d k hu
  obtain ⟨l', hv'⟩ := hback v d l hv
  exact h.distinct u v d k' l' hu' hv'

/-- A call copies its next piece. -/
theorem CallLog.fill (h : CallLog pos calls chunks results) {t : T} {c i : ℕ} {l : List UInt8}
    (ht : pos t = some (c, i)) (hi : i < (calls.getD c ⟨fun _ => 0, 0⟩).len.toNat)
    (hl : l = ((calls.getD c ⟨fun _ => 0, 0⟩).bytes.drop i).take ttyBufSize) :
    CallLog (Function.update pos t (some (c, i + l.length))) calls (chunks ++ [(c, l)]) results := by
  obtain ⟨hc, hres, hprog⟩ := h.active t c i ht
  have hlen : l.length = min ttyBufSize ((calls.getD c ⟨fun _ => 0, 0⟩).len.toNat - i) := by
    rw [hl, List.length_take, List.length_drop, WriteCall.length_bytes]
  have hpos : 0 < ttyBufSize := by decide
  have hsame : ∀ d, d ≠ c → chunksOf (chunks ++ [(c, l)]) d = chunksOf chunks d := by
    intro d hd
    rw [chunksOf_concat, if_neg (Ne.symm hd), List.append_nil]
  refine ⟨fun ch hch => ?_, fun ch hch => ?_, fun u d k hu => ?_, h.distinct_move ht,
    fun d r hr => ?_, fun d hd => ?_⟩
  · rcases List.mem_append.1 hch with hch | hch
    · exact h.chunk_size ch hch
    · rw [List.mem_singleton.1 hch]
      show 0 < l.length ∧ l.length ≤ ttyBufSize
      omega
  · rcases List.mem_append.1 hch with hch | hch
    · exact h.chunk_call ch hch
    · rw [List.mem_singleton.1 hch]
      exact hc
  · by_cases hut : u = t
    · rw [hut, Function.update_self, Option.some.injEq, Prod.mk.injEq] at hu
      obtain ⟨rfl, rfl⟩ := hu
      refine ⟨hc, hres, ?_⟩
      rw [chunksOf_concat, if_pos rfl, hl]
      exact hprog.fill hi
    · rw [Function.update_of_ne hut] at hu
      have hd : d ≠ c := by
        rintro rfl
        exact hut (h.distinct u t _ k i hu ht)
      rw [hsame d hd]
      exact h.active u d k hu
  · have hd : d ≠ c := by
      rintro rfl
      exact hres r hr
    rw [hsame d hd]
    exact h.returned d r hr
  · rcases h.covered d hd with ⟨u, k, hu⟩ | hr
    · by_cases hut : u = t
      · rw [hut, ht, Option.some.injEq, Prod.mk.injEq] at hu
        exact Or.inl ⟨t, _, by rw [Function.update_self, hu.1]⟩
      · exact Or.inl ⟨u, k, by rw [Function.update_of_ne hut]; exact hu⟩
    · exact Or.inr hr

/-- A call returns. -/
theorem CallLog.finish (h : CallLog pos calls chunks results) {t : T} {c i : ℕ}
    (ht : pos t = some (c, i)) (hi : ¬ (i : ℤ) < (calls.getD c ⟨fun _ => 0, 0⟩).len) :
    CallLog (Function.update pos t none) calls chunks (results ++ [(c, i)]) := by
  obtain ⟨hc, hres, hprog⟩ := h.active t c i ht
  have hback : ∀ u d k, Function.update pos t none u = some (d, k) → u ≠ t ∧ pos u = some (d, k) := by
    intro u d k hu
    by_cases hut : u = t
    · rw [hut, Function.update_self] at hu
      cases hu
    · rw [Function.update_of_ne hut] at hu
      exact ⟨hut, hu⟩
  refine ⟨h.chunk_size, h.chunk_call, fun u d k hu => ?_, fun u v d k l hu hv => ?_,
    fun d r hr => ?_, fun d hd => ?_⟩
  · obtain ⟨hut, hu⟩ := hback u d k hu
    obtain ⟨hd, hres', hprog'⟩ := h.active u d k hu
    refine ⟨hd, fun r hr => ?_, hprog'⟩
    rcases List.mem_append.1 hr with hr | hr
    · exact hres' r hr
    · rw [List.mem_singleton, Prod.mk.injEq] at hr
      exact hut (h.distinct u t d k i hu (hr.1 ▸ ht))
  · exact h.distinct u v d k l (hback u d k hu).2 (hback v d l hv).2
  · rcases List.mem_append.1 hr with hr | hr
    · exact h.returned d r hr
    · rw [List.mem_singleton, Prod.mk.injEq] at hr
      obtain ⟨rfl, rfl⟩ := hr
      have := hprog.le
      exact ⟨hc, by omega, hprog⟩
  · rcases h.covered d hd with ⟨u, k, hu⟩ | ⟨r, hr⟩
    · by_cases hut : u = t
      · rw [hut, ht, Option.some.injEq, Prod.mk.injEq] at hu
        exact Or.inr ⟨i, by rw [← hu.1]; simp⟩
      · exact Or.inl ⟨u, k, by rw [Function.update_of_ne hut]; exact hu⟩
    · exact Or.inr ⟨r, List.mem_append.2 (Or.inl hr)⟩

end

/-! ## The buffer -/

/-- The loop of `tty_write` that fills the buffer copies as many bytes as fit. -/
theorem fill_spec (call : WriteCall) {fuel i : ℕ} {r : RingBuffer UInt8} (h : r.Valid ttyBufSize)
    (hfuel : call.len.toNat ≤ fuel + i) :
    (fill call fuel r i).1.Valid ttyBufSize ∧
      (fill call fuel r i).1.contents ttyBufSize = r.contents ttyBufSize ++
        (call.bytes.drop i).take ((ttyBufSize : ℤ) - r.count).toNat ∧
      (fill call fuel r i).2
        = i + ((call.bytes.drop i).take ((ttyBufSize : ℤ) - r.count).toNat).length := by
  induction fuel generalizing r i with
  | zero =>
      have hnil : call.bytes.drop i = [] :=
        List.drop_of_length_le (by rw [call.length_bytes]; omega)
      rw [hnil, fill]
      exact ⟨h, by simp, by simp⟩
  | succ fuel ih =>
      rw [fill]
      by_cases hgo : r.count < ttyBufSize ∧ (i : ℤ) < call.len
      · rw [if_pos hgo]
        obtain ⟨hvalid, hcontents, hend⟩ := ih (h.push hgo.1 (call.buf i)) (i := i + 1) (by omega)
        -- the byte that is stored first is the first of those that fit
        have hhead : call.bytes.drop i = call.buf i :: call.bytes.drop (i + 1) := by
          have hlt : i < call.bytes.length := by rw [call.length_bytes]; omega
          rw [List.drop_eq_getElem_cons hlt]
          simp [WriteCall.bytes]
        have hroom : ((ttyBufSize : ℤ) - r.count).toNat
            = ((ttyBufSize : ℤ) - (r.count + 1)).toNat + 1 := by omega
        have htake : (call.bytes.drop i).take ((ttyBufSize : ℤ) - r.count).toNat
            = call.buf i ::
              (call.bytes.drop (i + 1)).take ((ttyBufSize : ℤ) - (r.count + 1)).toNat := by
          rw [hhead, hroom, List.take_succ_cons]
        rw [RingBuffer.push_count] at hcontents hend
        refine ⟨hvalid, ?_, ?_⟩
        · rw [hcontents, h.contents_push hgo.1, htake, List.append_assoc]
          rfl
        · rw [hend, htake, List.length_cons]
          omega
      · rw [if_neg hgo]
        have hnil : (call.bytes.drop i).take ((ttyBufSize : ℤ) - r.count).toNat = [] := by
          rw [← List.length_eq_zero_iff, List.length_take, List.length_drop, call.length_bytes]
          omega
        rw [hnil]
        exact ⟨h, by simp, by simp⟩

/-- The value of the spinlock as a semaphore. -/
def lockValue (slock : Bool) : ℕ := if slock then 0 else 1

section

variable {T : Type} [DecidableEq T]

/-- The invariant of the output side. -/
structure Output (σ : TtySystem T) : Prop where
  mutex : Mutex.Guarded TtyPc.Holds σ.pc (lockValue σ.slock)
  valid : σ.write.Valid ttyBufSize
  stream : σ.sent ++ σ.write.contents ttyBufSize = (σ.chunks.map Prod.snd).flatten
  /-- There is something to send for the writer that starts the device. -/
  filled : ∀ t c i, σ.pc t = .filled c i → 0 < σ.write.count
  waiting : ∀ t c i, σ.pc t = .waiting c i → (i : ℤ) < (σ.call c).len
  log : CallLog (fun t => (σ.pc t).call?) σ.calls σ.chunks σ.results

theorem call?_update (pc : T → TtyPc) (t : T) (x : TtyPc) :
    (fun u => (Function.update pc t x u).call?)
      = Function.update (fun u => (pc u).call?) t x.call? := by
  funext u
  by_cases hu : u = t
  · simp [hu]
  · simp [hu]

variable {σ : TtySystem T} {t : T} {x : TtyPc}

omit [DecidableEq T] in
/-- Nobody else is where the spinlock is held. -/
theorem Output.only (h : Output σ) (ht : (σ.pc t).Holds) {u : T} (hu : (σ.pc u).Holds) : u = t :=
  h.mutex.unique u t hu ht

/-- A party moves without touching the buffer. -/
theorem Output.moveTo (h : Output σ) (slock : Bool) {calls : List WriteCall}
    {results : List (ℕ × ℕ)}
    (hm : Mutex.Guarded TtyPc.Holds (Function.update σ.pc t x) (lockValue slock))
    (hf : ∀ c i, x ≠ .filled c i)
    (hw : ∀ u c i, Function.update σ.pc t x u = .waiting c i →
      (i : ℤ) < (calls.getD c ⟨fun _ => 0, 0⟩).len)
    (hlog : CallLog (Function.update (fun u => (σ.pc u).call?) t x.call?) calls σ.chunks results) :
    Output { σ with
      slock := slock, pc := Function.update σ.pc t x, calls := calls, results := results } where
  mutex := hm
  valid := h.valid
  stream := h.stream
  filled u c i hu := by
    replace hu : Function.update σ.pc t x u = .filled c i := hu
    by_cases hut : u = t
    · rw [hut, Function.update_self] at hu
      exact absurd hu (hf c i)
    · rw [Function.update_of_ne hut] at hu
      exact h.filled u c i hu
  waiting := hw
  log := by
    rw [call?_update]
    exact hlog

/-- What the others wait for stays the same when a party moves. -/
theorem Output.waiting_update (h : Output σ) (hw : ∀ c i, x = .waiting c i → (i : ℤ) < (σ.call c).len)
    {u : T} {c i : ℕ} (hu : Function.update σ.pc t x u = .waiting c i) :
    (i : ℤ) < (σ.call c).len := by
  by_cases hut : u = t
  · rw [hut, Function.update_self] at hu
    exact hw c i hu
  · rw [Function.update_of_ne hut] at hu
    exact h.waiting u c i hu

/-- A party moves within its call, or outside of any. -/
theorem Output.move (h : Output σ) (slock : Bool)
    (hm : Mutex.Guarded TtyPc.Holds (Function.update σ.pc t x) (lockValue slock))
    (hx : x.call? = (σ.pc t).call?) (hw : ∀ c i, x = .waiting c i → (i : ℤ) < (σ.call c).len)
    (hf : ∀ c i, x ≠ .filled c i) :
    Output { σ with slock := slock, pc := Function.update σ.pc t x } := by
  refine h.moveTo slock hm hf (fun u c i hu => h.waiting_update hw hu) ?_
  rw [hx, Function.update_eq_self]
  exact h.log

theorem Output.acquire (h : Output σ) (hfree : σ.slock = false) (hx : x.call? = (σ.pc t).call?)
    (hholds : x.Holds) (hf : ∀ c i, x ≠ .filled c i) : Output (σ.acquire t x) := by
  have hm := h.mutex.acquire (by rw [hfree]; decide) t x
  refine h.move true ?_ hx (fun c i hw => ?_) hf
  · rw [hfree] at hm
    exact hm
  · rw [hw] at hholds
    exact hholds.elim

theorem Output.release (h : Output σ) (hold : (σ.pc t).Holds) (hx : x.call? = (σ.pc t).call?)
    (hholds : ¬ x.Holds) (hw : ∀ c i, x = .waiting c i → (i : ℤ) < (σ.call c).len) :
    Output (σ.release t x) := by
  have hm := h.mutex.release hold hholds
  refine h.move false ?_ hx hw (fun c i hf => ?_)
  · rw [h.mutex.taken t hold] at hm
    exact hm
  · rw [hf] at hholds
    exact hholds trivial

theorem Output.go (h : Output σ) (hold : (σ.pc t).Holds) (hx : x.call? = (σ.pc t).call?)
    (hholds : x.Holds) (hf : ∀ c i, x ≠ .filled c i) : Output (σ.go t x) := by
  refine h.move σ.slock (h.mutex.keep fun _ => hold) hx (fun c i hw => ?_) hf
  rw [hw] at hholds
  exact hholds.elim

omit [DecidableEq T] in
/-- A byte goes from the front of the buffer to the data port. -/
theorem Output.send (h : Output σ) (hpos : 0 < σ.write.count)
    (hnone : ∀ u c i, σ.pc u ≠ .filled c i) : Output σ.send where
  mutex := h.mutex
  valid := h.valid.pop hpos
  stream := by
    have hstream := h.stream
    rw [h.valid.contents_pop hpos] at hstream
    simp only [TtySystem.send, List.append_assoc]
    exact hstream
  filled u c i hu := absurd hu (hnone u c i)
  waiting := h.waiting
  log := h.log

/-- The calling thread is the only party at `filled`. -/
theorem Output.ttyWriteFirst (h : Output σ) {c i : ℕ} (hpc : σ.pc t = .filled c i) :
    Output (ttyWriteFirst σ t c i) := by
  have hold : (σ.pc t).Holds := by rw [hpc]; trivial
  have hgo : Output (σ.go t (.writing c i)) :=
    h.go hold (by rw [hpc]; rfl) trivial (by simp)
  have hnone : ∀ u d k, (σ.go t (.writing c i)).pc u ≠ .filled d k := by
    intro u d k hu
    have hut : u = t := hgo.only (by simp [TtySystem.go, TtyPc.Holds]) (by rw [hu]; trivial)
    rw [hut] at hu
    simp [TtySystem.go] at hu
  unfold Tty.ttyWriteFirst
  by_cases hbusy : (!σ.wbusy) = true
  · rw [if_pos hbusy]
    exact hgo.send (h.filled t c i hpc) hnone
  · rw [if_neg hbusy]
    exact hgo

/-- An iteration of the handler's loop. -/
theorem Output.handleWirq (h : Output σ) (hpc : σ.pc t = .draining) :
    Output (handleWirq σ t) := by
  have hold : (σ.pc t).Holds := by rw [hpc]; trivial
  unfold Tty.handleWirq
  by_cases hgo : (!σ.wbusy) = true ∧ 0 < σ.write.count
  · rw [if_pos hgo]
    refine h.send hgo.2 (fun u c i hu => ?_)
    have hut : u = t := h.only hold (by rw [hu]; trivial)
    rw [hut, hpc] at hu
    cases hu
  · rw [if_neg hgo]
    exact h.release hold (by rw [hpc]; rfl) (by simp [TtyPc.Holds]) (by simp)

/-- The outer loop of `tty_write`: wait, fill the buffer, or return. -/
theorem Output.ttyWrite (h : Output σ) {c i : ℕ} (hpc : σ.pc t = .writing c i) :
    Output (ttyWrite σ t c i) := by
  have hold : (σ.pc t).Holds := by rw [hpc]; trivial
  have hcall : (σ.pc t).call? = some (c, i) := by rw [hpc]; rfl
  unfold Tty.ttyWrite
  by_cases hlen : (i : ℤ) < (σ.call c).len
  · rw [if_pos hlen]
    by_cases hcount : 0 < σ.write.count
    · rw [if_pos hcount]
      refine h.release hold hcall.symm (by simp [TtyPc.Holds]) (fun d k hw => ?_)
      cases hw
      exact hlen
    · rw [if_neg hcount]
      have hzero : σ.write.count = 0 := by
        have := h.valid.count_nonneg
        omega
      obtain ⟨hvalid, hcontents, hend⟩ := fill_spec (σ.call c) h.valid
        (show (σ.call c).len.toNat ≤ (σ.call c).len.toNat + i by omega)
      cases hfill : fill (σ.call c) (σ.call c).len.toNat σ.write i with
      | mk r j =>
      rw [hfill] at hvalid hcontents hend
      have hroom : ((ttyBufSize : ℤ) - σ.write.count).toNat = ttyBufSize := by omega
      rw [hroom, RingBuffer.contents_eq_nil hzero, List.nil_append] at hcontents
      rw [hroom] at hend
      simp only at hend hcontents
      have hpiece : ((σ.call c).bytes.drop i).take (j - i)
          = ((σ.call c).bytes.drop i).take ttyBufSize := by
        rw [hend, Nat.add_sub_cancel_left, List.length_take, List.take_eq_take_iff]
        omega
      have hlog := h.log.fill (t := t) hcall (by have := hlen; simp only [TtySystem.call] at this; omega)
        rfl
      refine
        { mutex := h.mutex.keep fun _ => hold
          valid := hvalid
          stream := ?_
          filled := fun u d k hu => ?_
          waiting := fun u d k hu => h.waiting_update (by simp) hu
          log := ?_ }
      · have hstream := h.stream
        rw [RingBuffer.contents_eq_nil hzero, List.append_nil] at hstream
        simp only [hpiece, List.map_append, List.flatten_append, ← hstream, hcontents]
        simp [TtySystem.go]
      · -- the buffer holds the piece, which is not empty
        have hlength := congrArg List.length hcontents
        rw [RingBuffer.length_contents, List.length_take, List.length_drop,
          WriteCall.length_bytes] at hlength
        have : 0 < ttyBufSize := by decide
        show 0 < r.count
        omega
      · simp only [hpiece, TtySystem.go, call?_update]
        rw [hend]
        exact hlog
  · rw [if_neg hlen]
    have hm := h.mutex.release (i := t) (x := .idle) hold (by simp [TtyPc.Holds])
    rw [h.mutex.taken t hold] at hm
    exact h.moveTo false hm (by simp) (fun u d k hu => h.waiting_update (by simp) hu)
      (h.log.finish hcall hlen)

/-- A thread calls `tty_write`. -/
theorem Output.call (h : Output σ) (hidle : σ.pc t = .idle) (hfree : σ.slock = false)
    (call : WriteCall) :
    Output { σ.acquire t (.writing σ.calls.length 0) with calls := σ.calls ++ [call] } := by
  have hm := h.mutex.acquire (by rw [hfree]; decide) t (.writing σ.calls.length 0)
  rw [hfree] at hm
  refine h.moveTo true hm (by simp) (fun u c i hu => ?_)
    (h.log.start (by rw [hidle]; rfl) call)
  have hut : u ≠ t := by
    rintro rfl
    simp at hu
  have hu' : σ.pc u = .waiting c i := by rwa [Function.update_of_ne hut] at hu
  have hc := (h.log.active u c i (by rw [hu']; rfl)).1
  rw [List.getD_append _ _ _ _ hc]
  exact h.waiting u c i hu'

/-- Every step keeps the invariant. -/
theorem Output.step {σ' : TtySystem T} {op : TtyOp T} (h : Output σ) (hstep : ttyStep σ op σ') :
    Output σ' := by
  have henter : ∀ (t : T) (x : TtyPc) (σ' : TtySystem T), x.call? = none → x.Holds →
      ttyEnter σ t x = some σ' → Output σ' := by
    intro t x σ' hx hholds henter
    unfold ttyEnter at henter
    split at henter
    · next hen =>
        cases henter
        refine h.acquire hen.2 (by rw [hx, hen.1]; rfl) hholds (fun c i hf => ?_)
        rw [hf] at hx
        cases hx
    · cases henter
  cases op with
  | write t call =>
      obtain ⟨σ1, henter, rfl⟩ := Option.map_eq_some_iff.1 hstep
      unfold ttyEnter at henter
      split at henter
      · next hen =>
          cases henter
          exact h.call hen.1 hen.2 call
      · cases henter
  | read t len => exact henter t (.reading len) σ' rfl trivial hstep
  | wirq t => exact henter t .draining σ' rfl trivial hstep
  | rirq t => exact henter t .receiving σ' rfl trivial hstep
  | receive t data =>
      simp only [ttyStep, ttyExec] at hstep
      split at hstep
      · cases hstep
        exact ⟨h.mutex, h.valid, h.stream, h.filled, h.waiting, h.log⟩
      · cases hstep
  | status wbusy =>
      cases hstep
      exact ⟨h.mutex, h.valid, h.stream, h.filled, h.waiting, h.log⟩
  | run t =>
      replace hstep : ttyRun σ t (σ.pc t) = some σ' := hstep
      cases hpc : σ.pc t with
      | idle => rw [hpc] at hstep; cases hstep
      | writing c i =>
          rw [hpc] at hstep
          cases hstep
          exact h.ttyWrite hpc
      | filled c i =>
          rw [hpc] at hstep
          cases hstep
          exact h.ttyWriteFirst hpc
      | draining =>
          rw [hpc] at hstep
          cases hstep
          exact h.handleWirq hpc
      | receiving =>
          rw [hpc] at hstep
          cases hstep
          exact h.release (by rw [hpc]; trivial) (by rw [hpc]; rfl) (by simp [TtyPc.Holds]) (by simp)
      | waiting c i =>
          rw [hpc, ttyRun] at hstep
          by_cases hlock : σ.slock = true
          · rw [if_pos hlock] at hstep
            cases hstep
          · rw [if_neg hlock] at hstep
            cases hstep
            exact h.acquire (by simpa using hlock) (by rw [hpc]; rfl) trivial (by simp)
      | awaiting len =>
          rw [hpc, ttyRun] at hstep
          by_cases hlock : σ.slock = true
          · rw [if_pos hlock] at hstep
            cases hstep
          · rw [if_neg hlock] at hstep
            cases hstep
            exact h.acquire (by simpa using hlock) (by rw [hpc]; rfl) trivial (by simp)
      | reading len =>
          rw [hpc, ttyRun] at hstep
          cases hstep
          have hold : (σ.pc t).Holds := by rw [hpc]; trivial
          unfold ttyRead
          by_cases hzero : σ.read.count = 0
          · rw [if_pos hzero]
            exact h.release hold (by rw [hpc]; rfl) (by simp [TtyPc.Holds]) (by simp)
          · rw [if_neg hzero]
            have hrel : Output (σ.release t .idle) :=
              h.release hold (by rw [hpc]; rfl) (by simp [TtyPc.Holds]) (by simp)
            exact ⟨hrel.mutex, hrel.valid, hrel.stream, hrel.filled, hrel.waiting, hrel.log⟩

omit [DecidableEq T] in
theorem ttyInit_output : Output (ttyInit T) where
  mutex := ⟨fun _ _ h => h.elim, fun _ h => h.elim, show lockValue false ≤ 1 by decide⟩
  valid := ⟨show 0 < ttyBufSize by decide, show (0 : ℤ) ≤ 0 by decide,
    show (0 : ℤ) ≤ ttyBufSize by decide⟩
  stream := rfl
  filled _ _ _ h := by cases h
  waiting _ _ _ h := by cases h
  log :=
    { chunk_size := fun ch h => by cases h
      chunk_call := fun ch h => by cases h
      active := fun t c i h => by cases h
      distinct := fun t u c i j h => by cases h
      returned := fun c r h => by cases h
      covered := fun c h => by cases h }

theorem TtyReachable.output (h : TtyReachable σ) : Output σ := by
  refine Reach.invariant (I := Output) ?_ ?_ h
  · rintro σ rfl
    exact ttyInit_output
  · exact fun σ op σ' hout hstep => hout.step hstep

/-! ## Output is a faithful stream -/

omit [DecidableEq T] in
/-- The write buffer is a faithful stream. -/
structure OutputFaithful (σ : TtySystem T) : Prop where
  count_nonneg : 0 ≤ σ.write.count
  count_le : σ.write.count ≤ ttyBufSize
  /-- What was sent and what is buffered is what the writers copied, in the order of the copying. -/
  stream : σ.sent ++ σ.write.contents ttyBufSize = (σ.chunks.map Prod.snd).flatten
  chunk_size : ∀ ch ∈ σ.chunks, ch.1 < σ.calls.length ∧ 0 < ch.2.length ∧ ch.2.length ≤ ttyBufSize
  /-- The pieces of a call make up a prefix of its buffer, and the whole buffer when it returns. -/
  pieces : ∀ c < σ.calls.length,
    ∃ n, (chunksOf σ.chunks c).flatten = (σ.call c).bytes.take n
  returned : ∀ c r, (c, r) ∈ σ.results → c < σ.calls.length ∧ r = (σ.call c).len.toNat ∧
    (chunksOf σ.chunks c).flatten = (σ.call c).bytes
  /-- A buffer that fits is copied in one piece, and the call does not wait afterwards. -/
  single : ∀ c < σ.calls.length, 0 ≤ (σ.call c).len → (σ.call c).len ≤ ttyBufSize →
    (chunksOf σ.chunks c = [] ∨ chunksOf σ.chunks c = [(σ.call c).bytes]) ∧
    (∀ r, (c, r) ∈ σ.results → (r : ℤ) = (σ.call c).len ∧
      (0 < (σ.call c).len → chunksOf σ.chunks c = [(σ.call c).bytes])) ∧
    ∀ t i, σ.pc t = .waiting c i → chunksOf σ.chunks c = []

omit [DecidableEq T] in
theorem Output.progress (h : Output σ) {c : ℕ} (hc : c < σ.calls.length) :
    ∃ i, Progress (σ.call c) (chunksOf σ.chunks c) i := by
  rcases h.log.covered c hc with ⟨t, i, ht⟩ | ⟨r, hr⟩
  · exact ⟨i, (h.log.active t c i ht).2.2⟩
  · exact ⟨r, (h.log.returned c r hr).2.2⟩

omit [DecidableEq T] in
theorem Output.faithful (h : Output σ) : OutputFaithful σ where
  count_nonneg := h.valid.count_nonneg
  count_le := h.valid.count_le
  stream := h.stream
  chunk_size ch hch := ⟨h.log.chunk_call ch hch, h.log.chunk_size ch hch⟩
  pieces c hc := by
    obtain ⟨i, hi⟩ := h.progress hc
    exact ⟨i, hi.flatten⟩
  returned c r hr := by
    obtain ⟨hc, hlen, hprog⟩ := h.log.returned c r hr
    refine ⟨hc, hlen, hprog.flatten.trans ?_⟩
    exact List.take_of_length_le (by rw [WriteCall.length_bytes, hlen])
  single c hc h0 hle := by
    have hsmall : (σ.call c).len.toNat ≤ ttyBufSize := by omega
    refine ⟨?_, fun r hr => ?_, fun t i ht => ?_⟩
    · obtain ⟨i, hi⟩ := h.progress hc
      rcases hi.single hsmall with ⟨-, hnone⟩ | ⟨-, -, hone⟩
      · exact Or.inl hnone
      · exact Or.inr hone
    · obtain ⟨-, hlen, hprog⟩ := h.log.returned c r hr
      replace hlen : r = (σ.call c).len.toNat := hlen
      refine ⟨by omega, fun hpos => ?_⟩
      rcases hprog.single hsmall with ⟨hzero, -⟩ | ⟨-, -, hone⟩
      · omega
      · exact hone
    · have hwait := h.waiting t c i ht
      rcases (h.log.active t c i (by rw [ht]; rfl)).2.2.single hsmall with ⟨-, hnone⟩ | ⟨-, hdone, -⟩
      · exact hnone
      · replace hdone : i = (σ.call c).len.toNat := hdone
        omega

/-- **TTY output is a faithful stream.** For any set of writers and any interleaving with interrupts. -/
theorem outputFaithful (h : TtyReachable σ) : OutputFaithful σ := h.output.faithful

end

/-- A thread writes three characters while the device is ready; a second one has to wait, until the
    interrupt handler has sent the rest. -/
def twoWriters : TtySystem Bool :=
  (runOps ttyExec (ttyInit Bool)
    [.write false ⟨fun k => UInt8.ofNat (65 + k), 3⟩, .run false, .run false, .run false,
     .write true ⟨fun k => UInt8.ofNat (97 + k), 2⟩, .run true, .wirq false, .run false, .run false,
     .run false, .run true, .run true]).get (by decide +kernel)

theorem twoWriters_reachable : TtyReachable twoWriters := by
  have hstart : Run (· = ttyInit Bool) ttyStep [] (ttyInit Bool) := .nil rfl
  exact (hstart.append_runOps ttyExec (fun _ _ _ hop => hop) (Option.some_get _).symm).reach

theorem outputFaithful_twoWriters :
    twoWriters.sent = [65, 66, 67] ∧ twoWriters.chunks = [(0, [65, 66, 67]), (1, [97, 98])] ∧
      twoWriters.results = [(0, 3)] ∧ OutputFaithful twoWriters :=
  ⟨by decide +kernel, by decide +kernel, by decide +kernel, outputFaithful twoWriters_reachable⟩

end Kudos.Tty
