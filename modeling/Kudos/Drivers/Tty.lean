import Kudos.Library.Mutex
import Kudos.Library.RingBuffer
import Kudos.Library.Transition

set_option autoImplicit false

/-! # The TTY driver of the mips32 kernel

`drivers/mips32/tty.c`. A TTY has two circular buffers. Threads fill the write buffer in `tty_write` and
the interrupt handler empties it; the handler fills the read buffer and threads empty it in `tty_read`.
All of this happens with the spinlock of the TTY held and interrupts disabled.

The parties are the threads and the interrupt contexts of the CPUs. A step of a party is an iteration of
a loop that looks at the device, or what it does between two such points; the device changes its status
between any two steps. A party that waits in the sleep queue is one that does not hold the spinlock and
may take it again at any time, which allows every wake-up and more. The handler's commands to the device
(`TTY_COMMAND_WIRQ` and so on) and the panic on `TTY_STATUS_ERROR` have no effect on the buffers. -/

namespace Kudos.Tty

open Transition

/-- `TTY_BUF_SIZE`. -/
def ttyBufSize : ℕ := 2048

/-- The arguments of a call of `tty_write`: the memory behind `buf`, and `len`. -/
structure WriteCall where
  buf : ℕ → UInt8
  len : ℤ

/-- The buffer of a call. -/
def WriteCall.bytes (call : WriteCall) : List UInt8 := (List.range call.len.toNat).map call.buf

/-- Where a party is. Calls of `tty_write` are numbered; `i` is the local variable. -/
inductive TtyPc where
  | idle
  /-- In `tty_write`, at the head of the outer loop. -/
  | writing (c i : ℕ)
  /-- In `tty_write`, asleep until the buffer is empty. -/
  | waiting (c i : ℕ)
  /-- In `tty_write`, behind the loop that fills the buffer. -/
  | filled (c i : ℕ)
  /-- In the handler, in the loop that empties the write buffer. -/
  | draining
  /-- In the handler, in the loop that fills the read buffer. -/
  | receiving
  /-- In `tty_read`, at the head of the first loop. -/
  | reading (len : ℤ)
  /-- In `tty_read`, asleep until there is something to read. -/
  | awaiting (len : ℤ)
  deriving DecidableEq

/-- The spinlock is held. -/
def TtyPc.Holds : TtyPc → Prop
  | idle | waiting _ _ | awaiting _ => False
  | _ => True

/-- The driver's memory, the status of the device and the parties, with a history of what happened. -/
structure TtySystem (T : Type) where
  /-- `write_buf`, `write_head`, `write_count` -/
  write : RingBuffer UInt8
  /-- `read_buf`, `read_head`, `read_count` -/
  read : RingBuffer UInt8
  slock : Bool
  /-- `TTY_STATUS_WBUSY` -/
  wbusy : Bool
  pc : T → TtyPc
  /-- The calls of `tty_write` so far. -/
  calls : List WriteCall
  /-- What the writers copied into the buffer, each time with the number of the call. -/
  chunks : List (ℕ × List UInt8)
  /-- What was written to the data port. -/
  sent : List UInt8
  /-- The calls that returned, with their results. -/
  results : List (ℕ × ℕ)
  /-- What was read from the data port, each byte with the number of unread bytes it found. -/
  arrivals : List (UInt8 × ℤ)
  /-- What the calls of `tty_read` returned. -/
  delivered : List UInt8

/-- After `tty_init`. -/
def ttyInit (T : Type) : TtySystem T where
  write := ⟨fun _ => 0, 0, 0⟩
  read := ⟨fun _ => 0, 0, 0⟩
  slock := false
  wbusy := false
  pc _ := .idle
  calls := []
  chunks := []
  sent := []
  results := []
  arrivals := []
  delivered := []

variable {T : Type} [DecidableEq T]

namespace TtySystem

/-- The arguments of call `c`. -/
def call (σ : TtySystem T) (c : ℕ) : WriteCall := σ.calls.getD c ⟨fun _ => 0, 0⟩

/-- A party moves to `pc` with the spinlock in its hands. -/
def go (σ : TtySystem T) (t : T) (pc : TtyPc) : TtySystem T :=
  { σ with pc := Function.update σ.pc t pc }

/-- A party takes the spinlock and moves to `pc`. -/
def acquire (σ : TtySystem T) (t : T) (pc : TtyPc) : TtySystem T :=
  { σ with slock := true, pc := Function.update σ.pc t pc }

/-- A party releases the spinlock and moves to `pc`. -/
def release (σ : TtySystem T) (t : T) (pc : TtyPc) : TtySystem T :=
  { σ with slock := false, pc := Function.update σ.pc t pc }

/-- Write the first byte of the buffer to the data port. -/
def send (σ : TtySystem T) : TtySystem T :=
  { σ with write := σ.write.pop ttyBufSize, sent := σ.sent ++ [σ.write.front] }

end TtySystem

/-! ## Writing -/

/-- The loop of `tty_write` that fills the buffer. It runs at most `len - i` times. -/
def fill (call : WriteCall) : ℕ → RingBuffer UInt8 → ℕ → RingBuffer UInt8 × ℕ
  | 0, r, i => (r, i)
  | fuel + 1, r, i =>
      if r.count < ttyBufSize ∧ (i : ℤ) < call.len then
        fill call fuel (r.push ttyBufSize (call.buf i)) (i + 1)
      else (r, i)

/-- The outer loop of `tty_write`, up to the test of the device. -/
def ttyWrite (σ : TtySystem T) (t : T) (c i : ℕ) : TtySystem T :=
  if (i : ℤ) < (σ.call c).len then
    -- buffer contains data, so wait until empty
    if 0 < σ.write.count then σ.release t (.waiting c i)
    else
      let (r, j) := fill (σ.call c) (σ.call c).len.toNat σ.write i
      { σ.go t (.filled c j) with
        write := r
        chunks := σ.chunks ++ [(c, ((σ.call c).bytes.drop i).take (j - i))] }
  else { σ.release t .idle with results := σ.results ++ [(c, i)] }

/-- The rest of the outer loop: if the device is not busy, write one character to cause an
    interrupt. -/
def ttyWriteFirst (σ : TtySystem T) (t : T) (c i : ℕ) : TtySystem T :=
  if !σ.wbusy then σ.send.go t (.writing c i) else σ.go t (.writing c i)

/-! ## Reading -/

/-- The loop of `tty_read` that copies `len` bytes at most out of the buffer. -/
def copyOut : ℕ → RingBuffer UInt8 → RingBuffer UInt8 × List UInt8
  | 0, r => (r, [])
  | len + 1, r =>
      if 0 < r.count then
        let (r', out) := copyOut len (r.pop ttyBufSize)
        (r', r.front :: out)
      else (r, [])

/-- `tty_read` with the spinlock held. -/
def ttyRead (σ : TtySystem T) (t : T) (len : ℤ) : TtySystem T :=
  if σ.read.count = 0 then σ.release t (.awaiting len)
  else
    let (r, out) := copyOut len.toNat σ.read
    { σ.release t .idle with read := r, delivered := σ.delivered ++ out }

/-! ## The interrupt handler -/

/-- An iteration of the loop of `tty_interrupt_handle` that empties the write buffer. -/
def handleWirq (σ : TtySystem T) (t : T) : TtySystem T :=
  if !σ.wbusy ∧ 0 < σ.write.count then σ.send else σ.release t .idle

/-- An iteration of the loop of `tty_interrupt_handle` that fills the read buffer. -/
def handleRirq (σ : TtySystem T) (data : UInt8) : TtySystem T :=
  { σ with
    read := if σ.read.count > ttyBufSize then σ.read else σ.read.push ttyBufSize data
    arrivals := σ.arrivals ++ [(data, σ.read.count)] }

/-! ## Steps -/

inductive TtyOp (T : Type) where
  /-- A thread calls `tty_write`. -/
  | write (t : T) (call : WriteCall)
  /-- A thread calls `tty_read`. -/
  | read (t : T) (len : ℤ)
  /-- A write interrupt. -/
  | wirq (t : T)
  /-- A read interrupt. -/
  | rirq (t : T)
  /-- A byte is available (`TTY_STATUS_RAVAIL`) and the handler reads it. -/
  | receive (t : T) (data : UInt8)
  /-- Any other step of a party. -/
  | run (t : T)
  /-- The device becomes busy or is ready again. -/
  | status (wbusy : Bool)

/-- The step of a party that does not need a new input. -/
def ttyRun (σ : TtySystem T) (t : T) : TtyPc → Option (TtySystem T)
  | .idle => none
  | .writing c i => some (ttyWrite σ t c i)
  | .waiting c i => if σ.slock then none else some (σ.acquire t (.writing c i))
  | .filled c i => some (ttyWriteFirst σ t c i)
  | .draining => some (handleWirq σ t)
  | .receiving => some (σ.release t .idle)
  | .reading len => some (ttyRead σ t len)
  | .awaiting len => if σ.slock then none else some (σ.acquire t (.reading len))

/-- An idle party takes the spinlock. -/
def ttyEnter (σ : TtySystem T) (t : T) (pc : TtyPc) : Option (TtySystem T) :=
  if σ.pc t = .idle ∧ σ.slock = false then some (σ.acquire t pc) else none

/-- The steps of the system. -/
def ttyExec (σ : TtySystem T) : TtyOp T → Option (TtySystem T)
  | .write t call =>
      (ttyEnter σ t (.writing σ.calls.length 0)).map
        (fun σ' => { σ' with calls := σ.calls ++ [call] })
  | .read t len => ttyEnter σ t (.reading len)
  | .wirq t => ttyEnter σ t .draining
  | .rirq t => ttyEnter σ t .receiving
  | .receive t data => if σ.pc t = .receiving then some (handleRirq σ data) else none
  | .run t => ttyRun σ t (σ.pc t)
  | .status wbusy => some { σ with wbusy := wbusy }

def ttyStep (σ : TtySystem T) (op : TtyOp T) (σ' : TtySystem T) : Prop := ttyExec σ op = some σ'

/-- The reachable states, for any set of threads and interrupt contexts. -/
def TtyReachable (σ : TtySystem T) : Prop := Reach (· = ttyInit T) ttyStep σ

end Kudos.Tty
