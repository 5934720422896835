import Kudos.Drivers.Ide
import Kudos.Library.AtaTaskFile
import Mathlib.Logic.Function.Basic

set_option autoImplicit false

/-! # Commands for the drives of the x86_64 kernel

`ide_pio_readwrite` of `drivers/x86_64/disk.c` as the accesses to ports that it makes. What it writes to
the registers of a channel is decoded as a drive does it (`Ata.Cable`); the result is the command for the
sector, for the drive of the device table (`idePioReadwrite_addressed`). -/

namespace Kudos.IdeCommand

open Ata

/-! ## Ports -/

inductive Access where
  | inb (port : UInt16)
  | outb (port : UInt16) (data : UInt8)
  /-- `_insw` and `_outsw`: words of data, the number of which is given. -/
  | insw (port : UInt16) (count : UInt64)
  | outsw (port : UInt16) (count : UInt64)
  deriving DecidableEq, Repr

/-- The answers of the status register that are still to come, and the accesses so far. -/
structure Ports where
  answers : List UInt8
  accesses : List Access

/-- A part of the driver. It ends with an error where it waits for an answer that is not there. -/
abbrev Pio := EStateM Unit Ports

def access (a : Access) : Pio Unit := modify fun p => { p with accesses := p.accesses ++ [a] }

/-- `_outb`. -/
def outb (port : UInt16) (data : UInt8) : Pio Unit := access (.outb port data)

/-- `_inb`, of a status register. -/
def inb (port : UInt16) : Pio UInt8 := fun p =>
  match p.answers with
  | [] => .error () p
  | answer :: rest => .ok answer ⟨rest, p.accesses ++ [.inb port]⟩

/-! ## The driver -/

/-- What is used of an `ide_channel_t`. -/
structure IdeChannel where
  base : UInt16
  ctrl : UInt16
  busm : UInt16
  irq : UInt8

/-- An `ide_device_t`, with the channel and the drive that it is for. -/
structure Device extends IdeDevice where
  /-- 0 for the primary channel, 1 for the secondary one. -/
  channel : UInt8
  /-- 0 for the master, 1 for the slave. -/
  drive : UInt8

/-- The tables of the driver. -/
structure Ide where
  /-- `ide_channels`. -/
  channels : UInt8 → IdeChannel
  /-- `ide_devices`. -/
  devices : Fin 4 → Device

def ideRegisterData : UInt8 := 0x00
def ideRegisterFeatures : UInt8 := 0x01
def ideRegisterSeccount0 : UInt8 := 0x02
def ideRegisterLba0 : UInt8 := 0x03
def ideRegisterLba1 : UInt8 := 0x04
def ideRegisterLba2 : UInt8 := 0x05
def ideRegisterHddsel : UInt8 := 0x06
def ideRegisterCommand : UInt8 := 0x07
def ideRegisterStatus : UInt8 := 0x07
def ideRegisterCtrl : UInt8 := 0x0C

def ideCommandPioRead : UInt8 := 0x20
def ideCommandPioWrite : UInt8 := 0x30
def ideCommandFlush : UInt8 := 0xE7

def ideErrorGeneric : UInt8 := 0x01
def ideErrorDrq : UInt8 := 0x08
def ideErrorFault : UInt8 := 0x20
def ideAtaBusy : UInt8 := 0x80

/-- The port of a register. -/
def idePort (ch : IdeChannel) (reg : UInt8) : Option UInt16 :=
  if reg < 0x08 then some (ch.base + reg.toUInt16)
  else if reg < 0x0C then some (ch.base + reg.toUInt16 - 0x06)
  else if reg < 0x0E then some (ch.ctrl + reg.toUInt16 - 0x0A)
  else if reg < 0x16 then some (ch.busm + reg.toUInt16 - 0x0E)
  else none

/-- `ide_write` for a register that is not between 0x08 and 0x0B. -/
def ideWriteDirect (ch : IdeChannel) (reg data : UInt8) : Pio Unit :=
  match idePort ch reg with
  | some port => outb port data
  | none => return ()

/-- `ide_write`. The calls of itself are for the control register. -/
def ideWriteReg (ch : IdeChannel) (reg data : UInt8) : Pio Unit := do
  if 0x07 < reg ∧ reg < 0x0C then ideWriteDirect ch ideRegisterCtrl (0x80 ||| ch.irq)
  ideWriteDirect ch reg data
  if 0x07 < reg ∧ reg < 0x0C then ideWriteDirect ch ideRegisterCtrl ch.irq

/-- `ide_read`. -/
def ideReadReg (ch : IdeChannel) (reg : UInt8) : Pio UInt8 := do
  if 0x07 < reg ∧ reg < 0x0C then ideWriteReg ch ideRegisterCtrl (0x80 ||| ch.irq)
  let data ← match idePort ch reg with
    | some port => inb port
    | none => return 0
  if 0x07 < reg ∧ reg < 0x0C then ideWriteReg ch ideRegisterCtrl ch.irq
  return data

/-- `ide_delay`. -/
def ideDelay (ch : IdeChannel) : Pio Unit := do
  let _ ← ideReadReg ch ideRegisterStatus
  let _ ← ideReadReg ch ideRegisterStatus
  let _ ← ideReadReg ch ideRegisterStatus
  let _ ← ideReadReg ch ideRegisterStatus

/-- The loop of `ide_wait`, which reads at most so many answers. -/
def waitBusy (ch : IdeChannel) : ℕ → Pio Unit
  | 0 => throw ()
  | n + 1 => do
      let status ← inb (ch.base + ideRegisterStatus.toUInt16)
      if status &&& ideAtaBusy ≠ 0 then waitBusy ch n

/-- `ide_wait`. -/
def ideWait (ch : IdeChannel) (advanced : Bool) : Pio ℤ := do
  ideDelay ch
  waitBusy ch (← get).answers.length
  if advanced then
    let status ← inb (ch.base + ideRegisterStatus.toUInt16)
    if status &&& ideErrorFault ≠ 0 then return -1
    else if status &&& ideErrorGeneric ≠ 0 then return -2
    else if status &&& ideErrorDrq = 0 then return -3
    else return 0
  else return 0

/-- The part of `ide_pio_readwrite` that differs in LBA48 and LBA28. -/
def idePioSelect (ch : IdeChannel) (lba48 : Bool) (slave : UInt32) (addr : UInt64) : Pio Unit := do
  if lba48 then
    ideWriteReg ch ideRegisterHddsel ((0x40 : UInt32) ||| slave <<< 4).toUInt8
    let _ ← ideWait ch false
    ideWriteReg ch ideRegisterSeccount0 0x00
    ideWriteReg ch ideRegisterLba0 (addr >>> 24 &&& 0xFF).toUInt8
    ideWriteReg ch ideRegisterLba1 (addr >>> 32 &&& 0xFF).toUInt8
    ideWriteReg ch ideRegisterLba2 (addr >>> 40 &&& 0xFF).toUInt8
  else
    ideWriteReg ch ideRegisterHddsel
      (((0xE0 : UInt32) ||| slave <<< 4).toUInt64 ||| (addr &&& 0x0F000000) >>> 24).toUInt8
    let _ ← ideWait ch false
    ideWriteReg ch ideRegisterFeatures 0x00

/-- The part of `ide_pio_readwrite` that sends the rest of the command. -/
def idePioSend (ch : IdeChannel) (addr : UInt64) (numsectors : UInt32) (cmd : UInt8) : Pio Unit := do
  ideWriteReg ch ideRegisterSeccount0 numsectors.toUInt8
  ideWriteReg ch ideRegisterLba0 (addr &&& 0xFF).toUInt8
  ideWriteReg ch ideRegisterLba1 (addr >>> 8 &&& 0xFF).toUInt8
  ideWriteReg ch ideRegisterLba2 (addr >>> 16 &&& 0xFF).toUInt8
  ideWriteReg ch ideRegisterCommand cmd

/-- The part of `ide_pio_readwrite` that moves the data. -/
def idePioTransfer (ch : IdeChannel) (rw : UInt8) (numsectors : UInt32) : Pio Unit :=
  if rw = ideRead then
    access (.insw (ch.base + ideRegisterData.toUInt16) (256 * numsectors).toUInt64)
  else do
    access (.outsw (ch.base + ideRegisterData.toUInt16) (256 * numsectors).toUInt64)
    outb (ch.base + ideRegisterCommand.toUInt16) ideCommandFlush

/-- The part of `ide_pio_readwrite` up to the command. -/
def idePioCommand (ch : IdeChannel) (dev : Device) (rw : UInt8) (lba : UInt64) (numsectors : UInt32) :
    Pio Unit := do
  let slave := dev.drive.toUInt32
  outb (ch.base + ideRegisterCtrl.toUInt16) 0x02
  let _ ← ideWait ch false
  let lba48 : Bool := dev.flags &&& 0x1 ≠ 0
  let cmd := if rw = ideRead then ideCommandPioRead else ideCommandPioWrite
  idePioSelect ch lba48 slave lba
  idePioSend ch lba numsectors (if lba48 then cmd + 0x04 else cmd)

/-- `ide_pio_readwrite`. The callers have checked the number of the drive. -/
def idePioReadwrite (s : Ide) (rw : UInt8) (drive : Fin 4) (lba : UInt64) (buf : BitVec 64)
    (numsectors : UInt32) : Pio ℤ :=
  if 1 < rw ∨ buf = 0 then return 0
  else do
    let dev := s.devices drive
    let ch := s.channels dev.channel
    let words := numsectors * 512 / 2
    idePioCommand ch dev rw lba numsectors
    if (← ideWait ch true) ≠ 0 then return 0
    else do
      idePioTransfer ch rw numsectors
      let _ ← ideWait ch false
      return (words * 2).toBitVec.toInt

/-! ## The tables -/

/-- What is used of a `pci_conf_t`. -/
structure PciConf where
  progIf : UInt8
  bar0 : UInt32
  bar1 : UInt32
  bar2 : UInt32
  bar3 : UInt32
  bar4 : UInt32

/-- A base register as `disk_init` takes it. -/
def relocated (bar : UInt32) : UInt16 :=
  if bar.toUInt16 &&& 0x1 ≠ 0 then bar.toUInt16 - 1 else bar.toUInt16

/-- `disk_init`, the channels. -/
def diskInitChannels (pci : PciConf) (channels : UInt8 → IdeChannel) : UInt8 → IdeChannel :=
  let native1 := pci.progIf &&& 0x1 ≠ 0
  let native2 := pci.progIf &&& 0x4 ≠ 0
  let primary := ⟨if native1 then relocated pci.bar0 else 0x1F0,
    if native1 then relocated pci.bar1 else 0x3F6, pci.bar4.toUInt16, 14⟩
  let secondary := ⟨if native2 then relocated pci.bar2 else 0x170,
    if native2 then relocated pci.bar3 else 0x376, pci.bar4.toUInt16, 15⟩
  Function.update (Function.update channels 0 primary) 1 secondary

/-- What a drive says of itself. -/
structure Identity where
  type : UInt8
  lba28 : UInt32
  lba48 : UInt64

/-- `disk_init`, the entry for drive `j` of channel `i`. There is no answer of a drive that is not there,
and none of a drive of an unknown type. -/
def diskInitDevice (i j : UInt8) : Option Identity → Device → Device
  | none, dev => { dev with present := 0 }
  | some id, dev =>
      { present := 1
        type := id.type.toUInt16
        channel := i
        drive := j
        flags := if id.lba48 ≠ 0 then dev.flags ||| 0x1 else dev.flags
        totalsectors := if id.lba48 ≠ 0 then id.lba48.toNat else id.lba28.toNat }

/-- `disk_init`, the loops over the channels and their drives. For each one there is its entry. -/
def diskInitDevices (answers : Fin 4 → Option Identity) :
    List (Fin 4 × UInt8 × UInt8) → (Fin 4 → Device) → Fin 4 → Device
  | [], devices => devices
  | (count, i, j) :: rest, devices =>
      diskInitDevices answers rest
        (Function.update devices count (diskInitDevice i j (answers count) (devices count)))

/-- `disk_init`, what it does to the tables. -/
def diskInit (pci : PciConf) (answers : Fin 4 → Option Identity) (s : Ide) : Ide :=
  ⟨diskInitChannels pci s.channels,
    diskInitDevices answers [(0, 0, 0), (1, 0, 1), (2, 1, 0), (3, 1, 1)] s.devices⟩

/-- The tables before any controller was found. -/
def Ide.zero : Ide where
  channels _ := ⟨0, 0, 0, 0⟩
  devices _ := { present := 0, flags := 0, type := 0, totalsectors := 0, channel := 0, drive := 0 }

/-- The tables as `disk_init` leaves them, once for every controller. -/
inductive Configured : Ide → Prop
  | zero : Configured .zero
  | init {s : Ide} (hs : Configured s) (pci : PciConf) (answers : Fin 4 → Option Identity) :
      Configured (diskInit pci answers s)

/-- The entry is for one of the two drives of one of the two channels. -/
structure Placed (dev : Device) : Prop where
  channel_le : dev.channel ≤ 1
  drive_le : dev.drive ≤ 1

theorem placed_diskInitDevice {i j : UInt8} (hi : i ≤ 1) (hj : j ≤ 1) (answer : Option Identity)
    {dev : Device} (hdev : Placed dev) : Placed (diskInitDevice i j answer dev) := by
  cases answer with
  | none => exact ⟨hdev.channel_le, hdev.drive_le⟩
  | some id => exact ⟨hi, hj⟩

theorem placed_diskInitDevices (answers : Fin 4 → Option Identity)
    {slots : List (Fin 4 × UInt8 × UInt8)} (hslots : ∀ slot ∈ slots, slot.2.1 ≤ 1 ∧ slot.2.2 ≤ 1)
    {devices : Fin 4 → Device} (hdevices : ∀ n, Placed (devices n)) (n : Fin 4) :
    Placed (diskInitDevices answers slots devices n) := by
  induction slots generalizing devices with
  | nil => exact hdevices n
  | cons slot rest ih =>
      refine ih (fun slot' h => hslots slot' (List.mem_cons_of_mem _ h)) fun m => ?_
      obtain ⟨hi, hj⟩ := hslots slot List.mem_cons_self
      by_cases hm : m = slot.1
      · rw [hm, Function.update_self]
        exact placed_diskInitDevice hi hj _ (hdevices slot.1)
      · rw [Function.update_of_ne hm]
        exact hdevices m

/-- In every run of the kernel the entries are for drives that there can be. -/
theorem Configured.placed {s : Ide} (hs : Configured s) (n : Fin 4) : Placed (s.devices n) := by
  induction hs generalizing n with
  | zero => exact ⟨by simp [Ide.zero], by simp [Ide.zero]⟩
  | init hs pci answers ih =>
      have hzero : (0 : UInt8) ≤ 1 := UInt8.le_iff_toNat_le.2 (by decide)
      have hone : (1 : UInt8) ≤ 1 := UInt8.le_refl 1
      refine placed_diskInitDevices answers ?_ ih n
      simp only [List.forall_mem_cons, List.not_mem_nil, false_imp_iff, implies_true, and_true]
      exact ⟨⟨hzero, hzero⟩, ⟨hzero, hone⟩, ⟨hone, hzero⟩, hone, hone⟩

/-! ## What a part of the driver writes

Each part writes a list of bytes, unless it waits for ever, and ends if there are enough answers without
the busy bit. -/

/-- What is written to the ports, in this order. -/
def writes : List Access → List (UInt16 × UInt8)
  | [] => []
  | .outb port data :: l => (port, data) :: writes l
  | _ :: l => writes l

theorem writes_append (l l' : List Access) : writes (l ++ l') = writes l ++ writes l' := by
  induction l with
  | nil => rfl
  | cons a l ih => cases a <;> simp [writes, ih]

/-- The drive is not busy. -/
def isReady (answer : UInt8) : Bool := answer &&& ideAtaBusy = 0

/-- The number of answers to come without the busy bit. -/
def Ports.ready (p : Ports) : ℕ := p.answers.countP isReady

/-- The part writes `w`. It ends if there are `n` answers without the busy bit, and takes no more of
them; where it waits for another one, it has written the first bytes of `w`. -/
def Does {α : Type} (x : Pio α) (w : List (UInt16 × UInt8)) (n : ℕ) : Prop :=
  ∀ p : Ports, (∃ a p', x.run p = .ok a p' ∧ writes p'.accesses = writes p.accesses ++ w ∧
      p.ready ≤ p'.ready + n) ∨
    (∃ p' w', x.run p = .error () p' ∧ writes p'.accesses = writes p.accesses ++ w' ∧ w' <+: w ∧
      p.ready < n)

section

variable {α β : Type} {w w' : List (UInt16 × UInt8)} {n m : ℕ}

theorem Does.pure (a : α) : Does (Pure.pure a : Pio α) [] 0 :=
  fun p => Or.inl ⟨a, p, rfl, (List.append_nil _).symm, le_rfl⟩

theorem Does.bind {x : Pio α} {f : α → Pio β} (hx : Does x w n) (hf : ∀ a, Does (f a) w' m) :
    Does (x >>= f) (w ++ w') (n + m) := by
  intro p
  rw [EStateM.run_bind]
  rcases hx p with ⟨a, p₁, hrun, hw, hready⟩ | ⟨p₁, w₁, hrun, hw, hpre, hready⟩
  · rw [hrun]
    rcases hf a p₁ with ⟨b, p₂, hrun₂, hw₂, hready₂⟩ | ⟨p₂, w₂, hrun₂, hw₂, hpre₂, hready₂⟩
    · refine Or.inl ⟨b, p₂, hrun₂, ?_, by omega⟩
      rw [hw₂, hw, List.append_assoc]
    · refine Or.inr ⟨p₂, w ++ w₂, hrun₂, ?_, (List.prefix_append_right_inj w).2 hpre₂, by omega⟩
      rw [hw₂, hw, List.append_assoc]
  · rw [hrun]
    exact Or.inr ⟨p₁, w₁, rfl, hw, hpre.trans (List.prefix_append w w'), by omega⟩

theorem Does.mono {x : Pio α} (hx : Does x w n) (h : n ≤ m) : Does x w m := by
  intro p
  rcases hx p with ⟨a, p', hrun, hw, hready⟩ | ⟨p', w', hrun, hw, hpre, hready⟩
  · exact Or.inl ⟨a, p', hrun, hw, by omega⟩
  · exact Or.inr ⟨p', w', hrun, hw, hpre, by omega⟩

end

theorem does_outb (port : UInt16) (data : UInt8) : Does (outb port data) [(port, data)] 0 :=
  fun p => Or.inl ⟨(), _, rfl, writes_append p.accesses [.outb port data], le_rfl⟩

theorem does_inb (port : UInt16) : Does (inb port) [] 1 := by
  rintro ⟨answers, accesses⟩
  cases answers with
  | nil => exact Or.inr ⟨_, [], rfl, (List.append_nil _).symm, List.prefix_rfl, by simp [Ports.ready]⟩
  | cons answer rest =>
      refine Or.inl ⟨answer, _, rfl, writes_append accesses [.inb port], ?_⟩
      simp only [Ports.ready, List.countP_cons]
      split <;> omega

theorem does_ideDelay (ch : IdeChannel) : Does (ideDelay ch) [] 4 := by
  have hread : Does (ideReadReg ch ideRegisterStatus) [] 1 := by
    have hport : idePort ch ideRegisterStatus = some (ch.base + ideRegisterStatus.toUInt16) := rfl
    have hdirect : ¬ (0x07 < ideRegisterStatus ∧ ideRegisterStatus < 0x0C) := by decide
    unfold ideReadReg
    simp only [if_neg hdirect, hport, bind_pure]
    exact does_inb _
  unfold ideDelay
  exact hread.bind fun _ => hread.bind fun _ => hread.bind fun _ => hread.bind fun _ => Does.pure ()

/-- The loop takes one answer without the busy bit. -/
theorem does_waitBusy (ch : IdeChannel) : Does (do waitBusy ch (← get).answers.length) [] 1 := by
  rintro ⟨answers, accesses⟩
  change (∃ a p', (waitBusy ch answers.length).run ⟨answers, accesses⟩ = .ok a p' ∧ _ ∧ _) ∨
    ∃ p' w', (waitBusy ch answers.length).run ⟨answers, accesses⟩ = .error () p' ∧ _ ∧ _ ∧ _
  induction answers generalizing accesses with
  | nil => exact Or.inr ⟨_, [], rfl, (List.append_nil _).symm, List.prefix_rfl, by simp [Ports.ready]⟩
  | cons answer rest ih =>
      have hinb : (inb (ch.base + ideRegisterStatus.toUInt16)).run ⟨answer :: rest, accesses⟩
          = .ok answer ⟨rest, accesses ++ [.inb (ch.base + ideRegisterStatus.toUInt16)]⟩ := rfl
      have hw : writes (accesses ++ [.inb (ch.base + ideRegisterStatus.toUInt16)])
          = writes accesses := by simp [writes_append, writes]
      simp only [List.length_cons, waitBusy]
      rw [EStateM.run_bind, hinb]
      by_cases hbusy : answer &&& ideAtaBusy ≠ 0
      · have hready : Ports.ready ⟨answer :: rest, accesses⟩ = Ports.ready ⟨rest, accesses⟩ := by
          simp [Ports.ready, isReady, hbusy]
        simp only [if_pos hbusy]
        rw [hready, ← hw]
        exact ih _
      · simp only [if_neg hbusy]
        refine Or.inl ⟨(), _, rfl, hw.trans (List.append_nil _).symm, ?_⟩
        simp only [Ports.ready, List.countP_cons]
        split <;> omega

theorem does_ideWait (ch : IdeChannel) (advanced : Bool) : Does (ideWait ch advanced) [] 6 := by
  have hcheck : ∀ status : UInt8, Does (if status &&& ideErrorFault ≠ 0 then return -1
      else if status &&& ideErrorGeneric ≠ 0 then return -2
      else if status &&& ideErrorDrq = 0 then return -3 else return (0 : ℤ)) [] 0 := by
    intro status
    split
    · exact Does.pure _
    · split
      · exact Does.pure _
      · split <;> exact Does.pure _
  have hlast : Does (if advanced then do
      let status ← inb (ch.base + ideRegisterStatus.toUInt16)
      if status &&& ideErrorFault ≠ 0 then return -1
      else if status &&& ideErrorGeneric ≠ 0 then return -2
      else if status &&& ideErrorDrq = 0 then return -3 else return (0 : ℤ) else return 0) [] 1 := by
    cases advanced with
    | true => exact (does_inb _).bind hcheck
    | false => exact (Does.pure _).mono (Nat.zero_le 1)
  have hrest := (does_ideDelay ch).bind fun _ => (does_waitBusy ch).bind fun _ => hlast
  simp only [bind_assoc] at hrest
  exact hrest

/-- A byte for a register, with its port. -/
def byteFor (ch : IdeChannel) (reg data : UInt8) : UInt16 × UInt8 := (ch.base + reg.toUInt16, data)

/-- `ide_write` for one of the registers of a command. -/
theorem does_ideWriteReg {reg : UInt8} (h : reg < 0x08) (ch : IdeChannel) (data : UInt8) :
    Does (ideWriteReg ch reg data) [byteFor ch reg data] 0 := by
  have hdirect : ¬ (0x07 < reg ∧ reg < 0x0C) := by
    rintro ⟨hlt, -⟩
    simp only [UInt8.lt_iff_toNat_lt] at h hlt
    exact absurd hlt (by simp at h ⊢; omega)
  unfold ideWriteReg ideWriteDirect idePort
  simp only [if_neg hdirect, if_pos h]
  exact (does_outb _ _).bind fun _ => Does.pure ()

/-- The bytes that select a drive and send the upper half of an address with 48 bits. -/
def select48 (ch : IdeChannel) (slave : UInt32) (addr : UInt64) : List (UInt16 × UInt8) :=
  [byteFor ch ideRegisterHddsel ((0x40 : UInt32) ||| slave <<< 4).toUInt8,
    byteFor ch ideRegisterSeccount0 0x00,
    byteFor ch ideRegisterLba0 (addr >>> 24 &&& 0xFF).toUInt8,
    byteFor ch ideRegisterLba1 (addr >>> 32 &&& 0xFF).toUInt8,
    byteFor ch ideRegisterLba2 (addr >>> 40 &&& 0xFF).toUInt8]

/-- The bytes that select a drive and send the upper four bits of an address with 28 bits. -/
def select28 (ch : IdeChannel) (slave : UInt32) (addr : UInt64) : List (UInt16 × UInt8) :=
  [byteFor ch ideRegisterHddsel
      (((0xE0 : UInt32) ||| slave <<< 4).toUInt64 ||| (addr &&& 0x0F000000) >>> 24).toUInt8,
    byteFor ch ideRegisterFeatures 0x00]

theorem does_idePioSelect (ch : IdeChannel) (lba48 : Bool) (slave : UInt32) (addr : UInt64) :
    Does (idePioSelect ch lba48 slave addr)
      (if lba48 then select48 ch slave addr else select28 ch slave addr) 6 := by
  unfold idePioSelect
  cases lba48 with
  | true =>
      exact (does_ideWriteReg (by decide) ch _).bind fun _ => (does_ideWait ch false).bind fun _ =>
        (does_ideWriteReg (by decide) ch _).bind fun _ =>
        (does_ideWriteReg (by decide) ch _).bind fun _ =>
        (does_ideWriteReg (by decide) ch _).bind fun _ => does_ideWriteReg (by decide) ch _
  | false =>
      exact (does_ideWriteReg (by decide) ch _).bind fun _ => (does_ideWait ch false).bind fun _ =>
        does_ideWriteReg (by decide) ch _

/-- The bytes with the number of sectors and the rest of the address. -/
def addressBytes (ch : IdeChannel) (addr : UInt64) (numsectors : UInt32) : List (UInt16 × UInt8) :=
  [byteFor ch ideRegisterSeccount0 numsectors.toUInt8,
    byteFor ch ideRegisterLba0 (addr &&& 0xFF).toUInt8,
    byteFor ch ideRegisterLba1 (addr >>> 8 &&& 0xFF).toUInt8,
    byteFor ch ideRegisterLba2 (addr >>> 16 &&& 0xFF).toUInt8]

theorem does_idePioSend (ch : IdeChannel) (addr : UInt64) (numsectors : UInt32) (cmd : UInt8) :
    Does (idePioSend ch addr numsectors cmd)
      (addressBytes ch addr numsectors ++ [byteFor ch ideRegisterCommand cmd]) 0 := by
  unfold idePioSend
  exact (does_ideWriteReg (by decide) ch _).bind fun _ =>
    (does_ideWriteReg (by decide) ch _).bind fun _ =>
    (does_ideWriteReg (by decide) ch _).bind fun _ =>
    (does_ideWriteReg (by decide) ch _).bind fun _ => does_ideWriteReg (by decide) ch _

/-- The byte of the flush command behind the data that is written. -/
def ideFlush (ch : IdeChannel) (rw : UInt8) : List (UInt16 × UInt8) :=
  if rw = ideRead then [] else [byteFor ch ideRegisterCommand ideCommandFlush]

theorem does_idePioTransfer (ch : IdeChannel) (rw : UInt8) (numsectors : UInt32) :
    Does (idePioTransfer ch rw numsectors) (ideFlush ch rw) 0 := by
  have haccess : ∀ a, writes [a] = [] → Does (access a) [] 0 := by
    intro a ha p
    refine Or.inl ⟨(), _, rfl, ?_, le_rfl⟩
    rw [← ha]
    exact writes_append p.accesses [a]
  unfold idePioTransfer ideFlush
  split
  · exact haccess _ rfl
  · exact (haccess _ rfl).bind fun _ => does_outb _ _

/-! ## What the drives get -/

section

variable (base : UInt16) (c : Cable)

/-- The drives on the cable of a channel, after bytes are written to ports. -/
def received (l : List (UInt16 × UInt8)) : Cable :=
  l.foldl (fun c w => c.write (w.1 - base).toNat w.2) c

theorem received_append (l l' : List (UInt16 × UInt8)) :
    received base c (l ++ l') = received base (received base c l) l' := List.foldl_append

/-- A drive gets the first commands from the first bytes. -/
theorem received_mono {l l' : List (UInt16 × UInt8)} (h : l <+: l') :
    (received base c l).commands <+: (received base c l').commands := by
  have hstep : ∀ (t : List (UInt16 × UInt8)) (c : Cable), c.commands <+: (received base c t).commands := by
    intro t
    induction t with
    | nil => exact fun c => List.prefix_rfl
    | cons w t ih =>
        intro c
        refine List.IsPrefix.trans ?_ (ih (c.write (w.1 - base).toNat w.2))
        unfold Cable.write
        split
        · exact List.prefix_append _ _
        · exact List.prefix_rfl
  obtain ⟨t, rfl⟩ := h
  rw [received_append]
  exact hstep t _

/-- No command comes without a byte for the command register. -/
theorem received_commands {l : List (UInt16 × UInt8)} (h : ∀ w ∈ l, (w.1 - base).toNat ≠ 7) :
    (received base c l).commands = c.commands := by
  induction l generalizing c with
  | nil => rfl
  | cons w l ih =>
      have hw := Cable.write_of_ne (h w List.mem_cons_self) c w.2
      refine (ih (c.write (w.1 - base).toNat w.2) fun w' h' => h w' (List.mem_cons_of_mem _ h')).trans ?_
      rw [hw]

end

/-- The port of a register, seen from the first one of its channel. -/
theorem byteFor_sub (ch : IdeChannel) (reg data : UInt8) :
    ((byteFor ch reg data).1 - ch.base).toNat = reg.toNat := by
  unfold byteFor
  rw [UInt16.add_comm, UInt16.add_sub_cancel, UInt8.toNat_toUInt16]

theorem received_byteFor (ch : IdeChannel) (c : Cable) (reg data : UInt8)
    (l : List (UInt16 × UInt8)) :
    received ch.base c (byteFor ch reg data :: l) = received ch.base (c.write reg.toNat data) l := by
  unfold received
  rw [List.foldl_cons, byteFor_sub]
  rfl

/-! ### The bytes of an address -/

/-- The byte of an address `k` bits up. -/
theorem toNat_addressByte (addr : UInt64) {n : UInt64} {k : ℕ} (hn : n.toNat = k) (hk : k < 64) :
    (addr >>> n &&& 0xFF).toUInt8.toNat = addr.toNat / 2 ^ k % 256 := by
  have hmask := Nat.and_two_pow_sub_one_eq_mod (addr.toNat >>> k) 8
  have hff : (0xFF : UInt64).toNat = 2 ^ 8 - 1 := rfl
  rw [UInt64.toNat_toUInt8, UInt64.toNat_and, UInt64.toNat_shiftRight, hn, Nat.mod_eq_of_lt hk, hff,
    hmask, Nat.mod_mod, Nat.shiftRight_eq_div_pow]

/-- The lowest byte of an address. -/
theorem toNat_addressByte_zero (addr : UInt64) :
    (addr &&& 0xFF).toUInt8.toNat = addr.toNat % 256 := by
  have hmask := Nat.and_two_pow_sub_one_eq_mod addr.toNat 8
  have hff : (0xFF : UInt64).toNat = 2 ^ 8 - 1 := rfl
  rw [UInt64.toNat_toUInt8, UInt64.toNat_and, hff, hmask, Nat.mod_mod]

/-- The four bits of an address for the register that selects the drive. -/
theorem toNat_addressBits (addr : UInt64) :
    ((addr &&& 0x0F000000) >>> 24).toUInt8.toNat = addr.toNat / 2 ^ 24 % 16 := by
  have hmask := Nat.and_two_pow_sub_one_eq_mod (addr.toNat >>> 24) 4
  have hf : (0x0F000000 : UInt64).toNat >>> 24 = 2 ^ 4 - 1 := rfl
  have hn : (24 : UInt64).toNat % 64 = 24 := rfl
  rw [UInt64.toNat_toUInt8, UInt64.toNat_shiftRight, UInt64.toNat_and, hn, Nat.shiftRight_and_distrib,
    hf, hmask, Nat.shiftRight_eq_div_pow]
  omega

theorem drive_cases {drive : UInt8} (h : drive ≤ 1) : drive = 0 ∨ drive = 1 := by
  have hle : drive.toNat ≤ 1 := UInt8.le_iff_toNat_le.1 h
  rcases Nat.le_one_iff_eq_zero_or_eq_one.1 hle with hzero | hone
  · exact Or.inl (UInt8.toNat_inj.1 hzero)
  · exact Or.inr (UInt8.toNat_inj.1 hone)

/-- The byte that selects a drive for an address with 48 bits. -/
theorem toNat_hddsel48 {drive : UInt8} (h : drive ≤ 1) :
    ((0x40 : UInt32) ||| drive.toUInt32 <<< 4).toUInt8.toNat = 64 + 16 * drive.toNat := by
  rcases drive_cases h with rfl | rfl
  · rfl
  · rfl

/-- The byte that selects a drive for an address with 28 bits. -/
theorem toNat_hddsel28 {drive : UInt8} (h : drive ≤ 1) (addr : UInt64) :
    (((0xE0 : UInt32) ||| drive.toUInt32 <<< 4).toUInt64 ||| (addr &&& 0x0F000000) >>> 24).toUInt8.toNat
      = 224 + 16 * drive.toNat + addr.toNat / 2 ^ 24 % 16 := by
  have hor : ∀ a : ℕ, 16 * a ||| addr.toNat / 2 ^ 24 % 16 = 16 * a + addr.toNat / 2 ^ 24 % 16 :=
    fun a => (Nat.two_pow_add_eq_or_of_lt (Nat.mod_lt _ (by decide : 0 < 2 ^ 4)) a).symm
  rw [UInt64.toUInt8_or, UInt8.toNat_or, toNat_addressBits]
  rcases drive_cases h with rfl | rfl
  · exact hor 14
  · exact hor 15

/-! ### The command -/

/-- LBA48, if the drive has it. -/
def modeOf (flags : UInt8) : Mode := if flags &&& 0x1 ≠ 0 then .lba48 else .lba28

def directionOf (rw : UInt8) : Direction := if rw = ideRead then .read else .write

/-- The bytes up to the command code. -/
def commandHeader (ch : IdeChannel) (lba48 : Bool) (drive : UInt8) (addr : UInt64) (numsectors : UInt32) :
    List (UInt16 × UInt8) :=
  byteFor ch ideRegisterCtrl 0x02 ::
    ((if lba48 then select48 ch drive.toUInt32 addr else select28 ch drive.toUInt32 addr)
      ++ addressBytes ch addr numsectors)

/-- The registers that a drive finds when it gets a command with 48 bits. -/
theorem received_header48 (ch : IdeChannel) (c : Cable) (drive : UInt8) (addr : UInt64)
    (numsectors : UInt32) :
    (received ch.base c (commandHeader ch true drive addr numsectors)).file
      = { features := c.file.features
          seccount := ⟨0x00, numsectors.toUInt8⟩
          lba0 := ⟨(addr >>> 24 &&& 0xFF).toUInt8, (addr &&& 0xFF).toUInt8⟩
          lba1 := ⟨(addr >>> 32 &&& 0xFF).toUInt8, (addr >>> 8 &&& 0xFF).toUInt8⟩
          lba2 := ⟨(addr >>> 40 &&& 0xFF).toUInt8, (addr >>> 16 &&& 0xFF).toUInt8⟩
          device := ((0x40 : UInt32) ||| drive.toUInt32 <<< 4).toUInt8 } := by
  unfold commandHeader select48 addressBytes
  simp only [if_true, List.cons_append, List.nil_append, received_byteFor]
  rfl

/-- The registers that a drive finds when it gets a command with 28 bits. -/
theorem received_header28 (ch : IdeChannel) (c : Cable) (drive : UInt8) (addr : UInt64)
    (numsectors : UInt32) :
    (received ch.base c (commandHeader ch false drive addr numsectors)).file
      = { features := c.file.features.write 0x00
          seccount := c.file.seccount.write numsectors.toUInt8
          lba0 := c.file.lba0.write (addr &&& 0xFF).toUInt8
          lba1 := c.file.lba1.write (addr >>> 8 &&& 0xFF).toUInt8
          lba2 := c.file.lba2.write (addr >>> 16 &&& 0xFF).toUInt8
          device := (((0xE0 : UInt32) ||| drive.toUInt32 <<< 4).toUInt64
            ||| (addr &&& 0x0F000000) >>> 24).toUInt8 } := by
  unfold commandHeader select28 addressBytes
  simp only [Bool.false_eq_true, if_false, List.cons_append, List.nil_append, received_byteFor]
  rfl

/-- The code of the command. -/
def ideCommandCode (rw : UInt8) (lba48 : Bool) : UInt8 :=
  let cmd := if rw = ideRead then ideCommandPioRead else ideCommandPioWrite
  if lba48 then cmd + 0x04 else cmd

theorem does_idePioCommand (ch : IdeChannel) (dev : Device) (rw : UInt8) (lba : UInt64)
    (numsectors : UInt32) :
    Does (idePioCommand ch dev rw lba numsectors)
      (commandHeader ch (dev.flags &&& 0x1 ≠ 0) dev.drive lba numsectors
        ++ [byteFor ch ideRegisterCommand (ideCommandCode rw (dev.flags &&& 0x1 ≠ 0))]) 12 := by
  have hall := (does_outb (ch.base + ideRegisterCtrl.toUInt16) 0x02).bind fun _ =>
    (does_ideWait ch false).bind fun _ =>
    (does_idePioSelect ch (dev.flags &&& 0x1 ≠ 0) dev.drive.toUInt32 lba).bind fun _ =>
    does_idePioSend ch lba numsectors (ideCommandCode rw (dev.flags &&& 0x1 ≠ 0))
  unfold commandHeader
  rw [List.cons_append, List.append_assoc]
  exact hall

/-- The code is the one for the direction and the mode. -/
theorem code_eq (rw flags : UInt8) :
    ideCommandCode rw (flags &&& 0x1 ≠ 0) = TaskFile.sectorCode (directionOf rw) (modeOf flags) := by
  unfold ideCommandCode directionOf modeOf
  by_cases hrw : rw = ideRead <;> by_cases hflags : flags &&& 0x1 = 0 <;> simp [hrw, hflags] <;> rfl

section

variable {ch : IdeChannel} {c : Cable} {drive : UInt8} {addr : UInt64} {numsectors : UInt32}

/-- The drive that is selected. -/
theorem dev_header (hdrive : drive ≤ 1) (lba48 : Bool) :
    (received ch.base c (commandHeader ch lba48 drive addr numsectors)).file.dev = drive.toNat := by
  have hle : drive.toNat ≤ 1 := UInt8.le_iff_toNat_le.1 hdrive
  cases lba48 with
  | true =>
      rw [received_header48]
      simp only [TaskFile.dev, toNat_hddsel48 hdrive]
      omega
  | false =>
      rw [received_header28]
      simp only [TaskFile.dev, toNat_hddsel28 hdrive]
      omega

/-- The command with 48 bits that a drive decodes. -/
theorem command_header48 (hdrive : drive ≤ 1) (hpos : numsectors.toUInt8.toNat ≠ 0)
    (direction : Direction) :
    (received ch.base c (commandHeader ch true drive addr numsectors)).file.command
        (TaskFile.sectorCode direction .lba48)
      = .sectors direction .lba48 (addr.toNat % 2 ^ 48) numsectors.toUInt8.toNat drive.toNat := by
  have hle : drive.toNat ≤ 1 := UInt8.le_iff_toNat_le.1 hdrive
  rw [TaskFile.command_sectorCode, dev_header hdrive, received_header48]
  · congr 1
    · exact TaskFile.lba_lba48 (toNat_addressByte_zero addr) (toNat_addressByte addr rfl (by decide))
        (toNat_addressByte addr rfl (by decide)) (toNat_addressByte addr rfl (by decide))
        (toNat_addressByte addr rfl (by decide)) (toNat_addressByte addr rfl (by decide))
    · have hword : Register.toNat ⟨0x00, numsectors.toUInt8⟩ = numsectors.toUInt8.toNat := by
        simp [Register.toNat]
      unfold TaskFile.count
      simp only [hword]
      exact if_neg hpos
  · rw [received_header48]
    simp only [TaskFile.IsLba, toNat_hddsel48 hdrive]
    omega

/-- The command with 28 bits that a drive decodes. -/
theorem command_header28 (hdrive : drive ≤ 1) (hpos : numsectors.toUInt8.toNat ≠ 0)
    (direction : Direction) :
    (received ch.base c (commandHeader ch false drive addr numsectors)).file.command
        (TaskFile.sectorCode direction .lba28)
      = .sectors direction .lba28 (addr.toNat % 2 ^ 28) numsectors.toUInt8.toNat drive.toNat := by
  have hle : drive.toNat ≤ 1 := UInt8.le_iff_toNat_le.1 hdrive
  rw [TaskFile.command_sectorCode, dev_header hdrive, received_header28]
  · congr 1
    · refine TaskFile.lba_lba28 (toNat_addressByte_zero addr) (toNat_addressByte addr rfl (by decide))
        (toNat_addressByte addr rfl (by decide)) ?_
      simp only [toNat_hddsel28 hdrive]
      omega
    · exact if_neg hpos
  · rw [received_header28]
    simp only [TaskFile.IsLba, toNat_hddsel28 hdrive]
    omega

end

/-- The command that a drive decodes. -/
theorem command_header (ch : IdeChannel) (c : Cable) {dev : Device} (hdev : dev.drive ≤ 1) (rw : UInt8)
    (addr : UInt64) {numsectors : UInt32} (hpos : numsectors.toUInt8.toNat ≠ 0) :
    (received ch.base c (commandHeader ch (dev.flags &&& 0x1 ≠ 0) dev.drive addr numsectors)).file.command
        (ideCommandCode rw (dev.flags &&& 0x1 ≠ 0))
      = .sectors (directionOf rw) (modeOf dev.flags) (ideAddress dev.flags addr.toNat)
        numsectors.toUInt8.toNat dev.drive.toNat := by
  rw [code_eq]
  unfold ideAddress modeOf
  by_cases hflags : dev.flags &&& 0x1 ≠ 0
  · rw [if_pos hflags, if_pos hflags, decide_eq_true hflags]
    exact command_header48 hdev hpos _
  · rw [if_neg hflags, if_neg hflags, decide_eq_false hflags]
    exact command_header28 hdev hpos _

/-- What holds of every byte for a register but the one for the code holds of the header. -/
theorem forall_mem_header {ch : IdeChannel} {P : UInt16 × UInt8 → Prop}
    (h : ∀ reg data, reg ≤ ideRegisterCtrl → reg ≠ ideRegisterCommand → P (byteFor ch reg data))
    (lba48 : Bool) (drive : UInt8) (addr : UInt64) (numsectors : UInt32) :
    ∀ w ∈ commandHeader ch lba48 drive addr numsectors, P w := by
  have haddress : ∀ w ∈ addressBytes ch addr numsectors, P w := by
    unfold addressBytes
    simp only [List.forall_mem_cons, List.not_mem_nil, false_imp_iff, implies_true, and_true]
    exact ⟨h _ _ (by decide) (by decide), h _ _ (by decide) (by decide),
      h _ _ (by decide) (by decide), h _ _ (by decide) (by decide)⟩
  have hselect : ∀ w ∈ (if lba48 then select48 ch drive.toUInt32 addr
      else select28 ch drive.toUInt32 addr), P w := by
    unfold select48 select28
    cases lba48 <;> simp only [Bool.false_eq_true, if_true, if_false, List.forall_mem_cons,
      List.not_mem_nil, false_imp_iff, implies_true, and_true]
    · exact ⟨h _ _ (by decide) (by decide), h _ _ (by decide) (by decide)⟩
    · exact ⟨h _ _ (by decide) (by decide), h _ _ (by decide) (by decide),
        h _ _ (by decide) (by decide), h _ _ (by decide) (by decide), h _ _ (by decide) (by decide)⟩
  unfold commandHeader
  rw [List.forall_mem_cons, List.forall_mem_append]
  exact ⟨h _ _ (by decide) (by decide), hselect, haddress⟩

/-- No command comes with the header. -/
theorem received_header_commands (ch : IdeChannel) (c : Cable) (lba48 : Bool) (drive : UInt8)
    (addr : UInt64) (numsectors : UInt32) :
    (received ch.base c (commandHeader ch lba48 drive addr numsectors)).commands = c.commands := by
  refine received_commands _ _ (forall_mem_header ?_ lba48 drive addr numsectors)
  intro reg data _ hreg hseven
  rw [byteFor_sub] at hseven
  exact hreg (UInt8.toNat_inj.1 hseven)

/-! ### The run -/

theorem run_idePioReadwrite {s : Ide} {rw : UInt8} {drive : Fin 4} {buf : BitVec 64}
    (hgo : ¬ (1 < rw ∨ buf = 0)) (lba : UInt64) (numsectors : UInt32) (p : Ports) :
    let dev := s.devices drive
    let ch := s.channels dev.channel
    let w := commandHeader ch (dev.flags &&& 0x1 ≠ 0) dev.drive lba numsectors
      ++ [byteFor ch ideRegisterCommand (ideCommandCode rw (dev.flags &&& 0x1 ≠ 0))]
    let r := (idePioReadwrite s rw drive lba buf numsectors).run p
    (∃ ret p' rest, r = .ok ret p' ∧ writes p'.accesses = writes p.accesses ++ (w ++ rest) ∧
        (ret = 0 ∧ rest = [] ∨
          ret = (numsectors * 512 / 2 * 2).toBitVec.toInt ∧ rest = ideFlush ch rw)) ∨
      (∃ p' w', r = .error () p' ∧ writes p'.accesses = writes p.accesses ++ w' ∧
        w' <+: w ++ ideFlush ch rw ∧ p.ready < 24) := by
  intro dev ch w r
  have hmoved : Does (do idePioTransfer ch rw numsectors; ideWait ch false) (ideFlush ch rw ++ []) 6 :=
    ((does_idePioTransfer ch rw numsectors).bind fun _ => does_ideWait ch false).mono le_rfl
  rw [List.append_nil] at hmoved
  have hr : r = ((idePioCommand ch dev rw lba numsectors) >>= fun _ => ideWait ch true >>= fun wait =>
      if wait ≠ 0 then pure 0
      else ((idePioTransfer ch rw numsectors >>= fun _ => ideWait ch false) >>= fun _ =>
        pure (numsectors * 512 / 2 * 2).toBitVec.toInt)).run p := by
    simp only [bind_assoc]
    exact congrArg (EStateM.run · p) (if_neg hgo)
  rw [hr, EStateM.run_bind]
  rcases does_idePioCommand ch dev rw lba numsectors p with
    ⟨_, p₁, hrun, hw, hready⟩ | ⟨p₁, w₁, hrun, hw, hpre, hready⟩
  · rw [hrun]
    dsimp only
    rw [EStateM.run_bind]
    rcases does_ideWait ch true p₁ with
      ⟨wait, p₂, hrun₂, hw₂, hready₂⟩ | ⟨p₂, w₂, hrun₂, hw₂, hpre₂, hready₂⟩
    · rw [hrun₂]
      dsimp only
      by_cases hwait : wait ≠ 0
      · rw [if_pos hwait]
        refine Or.inl ⟨0, p₂, [], rfl, ?_, Or.inl ⟨rfl, rfl⟩⟩
        rw [hw₂, hw, List.append_nil, List.append_nil]
      · rw [if_neg hwait, EStateM.run_bind]
        rcases hmoved p₂ with ⟨_, p₃, hrun₃, hw₃, hready₃⟩ | ⟨p₃, w₃, hrun₃, hw₃, hpre₃, hready₃⟩
        · rw [hrun₃]
          refine Or.inl ⟨_, p₃, ideFlush ch rw, rfl, ?_, Or.inr ⟨rfl, rfl⟩⟩
          rw [hw₃, hw₂, hw, List.append_nil, List.append_assoc]
        · rw [hrun₃]
          refine Or.inr ⟨p₃, w ++ w₃, rfl, ?_, (List.prefix_append_right_inj w).2 hpre₃, by omega⟩
          rw [hw₃, hw₂, hw, List.append_nil, List.append_assoc]
    · rw [hrun₂]
      obtain rfl := List.prefix_nil.1 hpre₂
      refine Or.inr ⟨p₂, w, rfl, ?_, List.prefix_append w _, by omega⟩
      rw [hw₂, hw, List.append_nil]
  · rw [hrun]
    exact Or.inr ⟨p₁, w₁, rfl, hw, hpre.trans (List.prefix_append w _), by omega⟩

/-! ### The commands of a run -/

/-- What the driver asks of a drive. -/
def requested (dev : Device) (rw : UInt8) (lba : UInt64) (numsectors : UInt32) : Command :=
  .sectors (directionOf rw) (modeOf dev.flags) (ideAddress dev.flags lba.toNat)
    numsectors.toUInt8.toNat dev.drive.toNat

section

variable {ch : IdeChannel} {dev : Device} {rw : UInt8} {lba : UInt64} {numsectors : UInt32} {c : Cable}

/-- The code completes the command. -/
theorem received_code (hdev : dev.drive ≤ 1) (hpos : numsectors.toUInt8.toNat ≠ 0) :
    let lba48 : Bool := dev.flags &&& 0x1 ≠ 0
    received ch.base c (commandHeader ch lba48 dev.drive lba numsectors
        ++ [byteFor ch ideRegisterCommand (ideCommandCode rw lba48)])
      = ⟨(received ch.base c (commandHeader ch lba48 dev.drive lba numsectors)).file,
        c.commands ++ [requested dev rw lba numsectors]⟩ := by
  intro lba48
  rw [received_append, received_byteFor]
  refine (Cable.write_command _ _).trans ?_
  rw [received_header_commands, command_header ch c hdev rw lba hpos]
  rfl

/-- A flush command follows a write command, for the same drive. -/
theorem received_flush (hdev : dev.drive ≤ 1) (hpos : numsectors.toUInt8.toNat ≠ 0) :
    let lba48 : Bool := dev.flags &&& 0x1 ≠ 0
    (received ch.base c (commandHeader ch lba48 dev.drive lba numsectors
        ++ [byteFor ch ideRegisterCommand (ideCommandCode rw lba48)] ++ ideFlush ch rw)).commands
      = c.commands ++ requested dev rw lba numsectors ::
        (if rw = ideRead then [] else [.flush dev.drive.toNat]) := by
  intro lba48
  rw [received_append, received_code hdev hpos]
  unfold ideFlush
  split
  · rfl
  · rw [received_byteFor]
    refine (congrArg Cable.commands (Cable.write_command _ _)).trans ?_
    have hflush := TaskFile.command_flushCode
      (received ch.base c (commandHeader ch lba48 dev.drive lba numsectors)).file
    rw [dev_header hdev] at hflush
    rw [List.append_assoc, ← hflush]
    rfl

/-- The drives of another channel get no command, if the port for its command register is none of the
ports that the driver writes. -/
theorem received_other {base : UInt16}
    (h : ∀ reg ≤ ideRegisterCtrl, (ch.base + reg.toUInt16 - base).toNat ≠ 7) {lba48 : Bool}
    {w : List (UInt16 × UInt8)} (hpre : w <+: commandHeader ch lba48 dev.drive lba numsectors
      ++ [byteFor ch ideRegisterCommand (ideCommandCode rw lba48)] ++ ideFlush ch rw) :
    (received base c w).commands = c.commands := by
  have hcommand : ∀ data, ((byteFor ch ideRegisterCommand data).1 - base).toNat ≠ 7 :=
    fun data => h _ (by decide)
  have hall : ∀ w ∈ commandHeader ch lba48 dev.drive lba numsectors
      ++ [byteFor ch ideRegisterCommand (ideCommandCode rw lba48)] ++ ideFlush ch rw, (w.1 - base).toNat ≠ 7 := by
    rw [List.forall_mem_append, List.forall_mem_append, List.forall_mem_singleton]
    refine ⟨⟨forall_mem_header (fun reg data hreg _ => h reg hreg) _ _ _ _, hcommand _⟩, ?_⟩
    unfold ideFlush
    split
    · exact fun w hw => absurd hw List.not_mem_nil
    · exact List.forall_mem_singleton.2 (hcommand _)
  exact received_commands _ _ fun w hw => hall w (hpre.subset hw)

end

/-- The result has come. -/
def Returned {α : Type} : EStateM.Result Unit Ports α → Prop
  | .ok _ _ => True
  | .error _ _ => False

/-- The accesses of a run. -/
def accessesOf {α : Type} : EStateM.Result Unit Ports α → List Access
  | .ok _ p => p.accesses
  | .error _ p => p.accesses

/-- The commands for the drives of a channel that come with a run. -/
def commandsOf {α : Type} (base : UInt16) (file : TaskFile) (r : EStateM.Result Unit Ports α) :
    List Command :=
  (received base ⟨file, []⟩ (writes (accessesOf r))).commands

section

variable {s : Ide} {drive : Fin 4} {rw : UInt8} {buf : BitVec 64}

theorem commandsOf_idePioReadwrite (hgo : ¬ (1 < rw ∨ buf = 0)) (hdev : (s.devices drive).drive ≤ 1)
    (lba : UInt64) {numsectors : UInt32} (hpos : numsectors.toUInt8.toNat ≠ 0) (file : TaskFile)
    (answers : List UInt8) :
    let dev := s.devices drive
    let r := (idePioReadwrite s rw drive lba buf numsectors).run ⟨answers, []⟩
    let commands := commandsOf (s.channels dev.channel).base file r
    let flushes := if rw = ideRead then [] else [.flush dev.drive.toNat]
    (∃ ret p', r = .ok ret p' ∧
        (ret = 0 ∧ commands = [requested dev rw lba numsectors] ∨
          ret = (numsectors * 512 / 2 * 2).toBitVec.toInt ∧
            commands = requested dev rw lba numsectors :: flushes)) ∨
      (∃ p', r = .error () p' ∧ commands <+: requested dev rw lba numsectors :: flushes ∧
        answers.countP isReady < 24) := by
  intro dev r commands flushes
  rcases run_idePioReadwrite hgo lba numsectors ⟨answers, []⟩ with
    ⟨ret, p', rest, hrun, hw, hrest⟩ | ⟨p', w', hrun, hw, hpre, hready⟩
  · refine Or.inl ⟨ret, p', hrun, ?_⟩
    have hcommands : commands = (received (s.channels dev.channel).base ⟨file, []⟩
        (writes p'.accesses)).commands := congrArg (commandsOf _ file) hrun
    rw [hcommands, hw]
    rcases hrest with ⟨hret, rfl⟩ | ⟨hret, rfl⟩
    · rw [List.append_nil]
      exact Or.inl ⟨hret, congrArg Cable.commands (received_code hdev hpos)⟩
    · exact Or.inr ⟨hret, received_flush hdev hpos⟩
  · refine Or.inr ⟨p', hrun, ?_, hready⟩
    have hcommands : commands = (received (s.channels dev.channel).base ⟨file, []⟩
        (writes p'.accesses)).commands := congrArg (commandsOf _ file) hrun
    have hall := received_mono (s.channels dev.channel).base ⟨file, []⟩ hpre
    rw [received_flush hdev hpos] at hall
    rw [hcommands, hw]
    exact hall

/-- A drive gets the command for the sector, and behind data that are written one to flush them. If the
driver waits for ever it gets less; it does not wait for ever if the drive is ready often enough. -/
theorem idePioReadwrite_addressed (hs : Configured s) (hrw : rw ≤ 1) (hbuf : buf ≠ 0) {lba : UInt64}
    (hlba : lba.toNat < 2 ^ (if (s.devices drive).flags &&& 0x1 ≠ 0 then 48 else 28))
    (file : TaskFile) (answers : List UInt8) :
    let dev := s.devices drive
    let r := (idePioReadwrite s rw drive lba buf 1).run ⟨answers, []⟩
    let commands := commandsOf (s.channels dev.channel).base file r
    commands <+: .sectors (directionOf rw) (modeOf dev.flags) lba.toNat 1 dev.drive.toNat ::
        (if rw = ideRead then [] else [.flush dev.drive.toNat]) ∧
      (Returned r → commands ≠ []) ∧ (24 ≤ answers.countP isReady → Returned r) := by
  intro dev r commands
  have hgo : ¬ (1 < rw ∨ buf = 0) := not_or.2 ⟨UInt8.not_lt.2 hrw, hbuf⟩
  have hrequested : requested dev rw lba 1
      = .sectors (directionOf rw) (modeOf dev.flags) lba.toNat 1 dev.drive.toNat :=
    congrArg (Command.sectors _ _ · _ _) (Nat.mod_eq_of_lt hlba)
  have hpos : (1 : UInt32).toUInt8.toNat ≠ 0 := by decide
  rw [← hrequested]
  rcases commandsOf_idePioReadwrite hgo (hs.placed drive).drive_le lba hpos file answers with
    ⟨ret, p', hrun, ⟨-, hcommands⟩ | ⟨-, hcommands⟩⟩ | ⟨p', hrun, hpre, hready⟩
  · have hreturned : Returned r := by
      rw [show r = .ok ret p' from hrun]
      trivial
    rw [show commands = _ from hcommands]
    exact ⟨(List.prefix_append _ _), fun _ => List.cons_ne_nil _ _, fun _ => hreturned⟩
  · have hreturned : Returned r := by
      rw [show r = .ok ret p' from hrun]
      trivial
    rw [show commands = _ from hcommands]
    exact ⟨List.prefix_rfl, fun _ => List.cons_ne_nil _ _, fun _ => hreturned⟩
  · refine ⟨hpre, fun hreturned => ?_, fun h => absurd hready (Nat.not_lt.2 h)⟩
    rw [show r = .error () p' from hrun] at hreturned
    exact hreturned.elim

end

/-- The slave of the primary channel has 48 bits. -/
def slave48 : Ide :=
  diskInit ⟨0, 0, 0, 0, 0, 0⟩ (fun n => if n = 1 then some ⟨0, 0, 0x1000000000⟩ else none) .zero

/-- A sector that 28 bits do not reach is written, on a drive that is never busy. -/
theorem idePioReadwrite_addressed_slave48 :
    let r := (idePioReadwrite slave48 ideWrite 1 0x0908070605 1 1).run ⟨List.replicate 24 0x48, []⟩
    let commands := commandsOf 0x1F0 ⟨⟨0, 0⟩, ⟨0, 0⟩, ⟨0, 0⟩, ⟨0, 0⟩, ⟨0, 0⟩, 0⟩ r
    commands <+: [.sectors .write .lba48 0x0908070605 1 1, .flush 1] ∧ commands ≠ [] := by
  have h := @idePioReadwrite_addressed slave48 1 ideWrite 1 (.init .zero _ _) (by decide) (by decide)
    0x0908070605 (by decide) ⟨⟨0, 0⟩, ⟨0, 0⟩, ⟨0, 0⟩, ⟨0, 0⟩, ⟨0, 0⟩, 0⟩ (List.replicate 24 0x48)
  exact ⟨h.1, h.2.1 (h.2.2 (by decide))⟩

end Kudos.IdeCommand
