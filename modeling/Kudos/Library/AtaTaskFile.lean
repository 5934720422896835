import Mathlib.Algebra.Group.Nat.Defs
import Mathlib.Data.Nat.Notation

set_option autoImplicit false

/-! # The registers of ATA drives

The two drives on a cable get a command through a few registers of one byte each, and then its code. A
drive with 48-bit addresses takes two bytes from each register, the one written last and the one before;
with 28-bit addresses it takes the last byte, and four more bits of the address from the register that
selects the drive. -/

namespace Ata

/-- A register that keeps the byte written last and the one before it. -/
structure Register where
  previous : UInt8
  current : UInt8
  deriving DecidableEq, Repr

def Register.write (r : Register) (data : UInt8) : Register := ⟨r.current, data⟩

/-- The number in both bytes. -/
def Register.toNat (r : Register) : ℕ := r.previous.toNat * 256 + r.current.toNat

structure TaskFile where
  features : Register
  seccount : Register
  lba0 : Register
  lba1 : Register
  lba2 : Register
  /-- Selects one of the two drives, and LBA addresses. -/
  device : UInt8
  deriving DecidableEq, Repr

inductive Mode where
  | lba28 | lba48
  deriving DecidableEq, Repr

inductive Direction where
  | read | write
  deriving DecidableEq, Repr

/-- A command for the drive `dev` of the cable. -/
inductive Command where
  | sectors (direction : Direction) (mode : Mode) (lba count dev : ℕ)
  | flush (dev : ℕ)
  | other (code : UInt8) (dev : ℕ)
  deriving DecidableEq, Repr

namespace TaskFile

def lba (f : TaskFile) : Mode → ℕ
  | .lba28 => f.device.toNat % 16 * 2 ^ 24 + f.lba2.current.toNat * 2 ^ 16
      + f.lba1.current.toNat * 2 ^ 8 + f.lba0.current.toNat
  | .lba48 => f.lba2.previous.toNat * 2 ^ 40 + f.lba1.previous.toNat * 2 ^ 32
      + f.lba0.previous.toNat * 2 ^ 24 + f.lba2.current.toNat * 2 ^ 16
      + f.lba1.current.toNat * 2 ^ 8 + f.lba0.current.toNat

/-- The number of sectors. 0 is the number that does not fit. -/
def count (f : TaskFile) : Mode → ℕ
  | .lba28 => if f.seccount.current.toNat = 0 then 256 else f.seccount.current.toNat
  | .lba48 => if f.seccount.toNat = 0 then 65536 else f.seccount.toNat

/-- The drive that is selected. -/
def dev (f : TaskFile) : ℕ := f.device.toNat / 16 % 2

/-- The address is an LBA address, not a cylinder, a head and a sector. -/
def IsLba (f : TaskFile) : Prop := f.device.toNat / 64 % 2 = 1

instance (f : TaskFile) : Decidable f.IsLba := inferInstanceAs (Decidable (_ = _))

/-- READ SECTORS, READ SECTORS EXT, WRITE SECTORS and WRITE SECTORS EXT. -/
def sectorCode : Direction → Mode → UInt8
  | .read, .lba28 => 0x20
  | .read, .lba48 => 0x24
  | .write, .lba28 => 0x30
  | .write, .lba48 => 0x34

/-- FLUSH CACHE. -/
def flushCode : UInt8 := 0xE7

/-- The command that is given with the code. -/
def command (f : TaskFile) (code : UInt8) : Command :=
  if code = flushCode then .flush f.dev
  else if f.IsLba then
    if code = sectorCode .read .lba28 then .sectors .read .lba28 (f.lba .lba28) (f.count .lba28) f.dev
    else if code = sectorCode .read .lba48 then
      .sectors .read .lba48 (f.lba .lba48) (f.count .lba48) f.dev
    else if code = sectorCode .write .lba28 then
      .sectors .write .lba28 (f.lba .lba28) (f.count .lba28) f.dev
    else if code = sectorCode .write .lba48 then
      .sectors .write .lba48 (f.lba .lba48) (f.count .lba48) f.dev
    else .other code f.dev
  else .other code f.dev

/-- A byte for one of the registers but the last one. -/
def write (f : TaskFile) (reg : ℕ) (data : UInt8) : TaskFile :=
  match reg with
  | 1 => { f with features := f.features.write data }
  | 2 => { f with seccount := f.seccount.write data }
  | 3 => { f with lba0 := f.lba0.write data }
  | 4 => { f with lba1 := f.lba1.write data }
  | 5 => { f with lba2 := f.lba2.write data }
  | 6 => { f with device := data }
  | _ => f

theorem command_flushCode (f : TaskFile) : f.command flushCode = .flush f.dev := if_pos rfl

theorem command_sectorCode {f : TaskFile} (h : f.IsLba) (direction : Direction) (mode : Mode) :
    f.command (sectorCode direction mode)
      = .sectors direction mode (f.lba mode) (f.count mode) f.dev := by
  unfold command
  cases direction <;> cases mode <;> rw [if_neg (by decide), if_pos h]
  · rw [if_pos rfl]
  · rw [if_neg (by decide), if_pos rfl]
  · rw [if_neg (by decide), if_neg (by decide), if_pos rfl]
  · rw [if_neg (by decide), if_neg (by decide), if_neg (by decide), if_pos rfl]

/-- The bytes of an address, in the registers for 28 bits. -/
theorem lba_lba28 {f : TaskFile} {x : ℕ} (h0 : f.lba0.current.toNat = x % 256)
    (h1 : f.lba1.current.toNat = x / 2 ^ 8 % 256) (h2 : f.lba2.current.toNat = x / 2 ^ 16 % 256)
    (h3 : f.device.toNat % 16 = x / 2 ^ 24 % 16) : f.lba .lba28 = x % 2 ^ 28 := by
  simp only [lba, h0, h1, h2, h3]
  omega

/-- The bytes of an address, in the registers for 48 bits. -/
theorem lba_lba48 {f : TaskFile} {x : ℕ} (h0 : f.lba0.current.toNat = x % 256)
    (h1 : f.lba1.current.toNat = x / 2 ^ 8 % 256) (h2 : f.lba2.current.toNat = x / 2 ^ 16 % 256)
    (h3 : f.lba0.previous.toNat = x / 2 ^ 24 % 256) (h4 : f.lba1.previous.toNat = x / 2 ^ 32 % 256)
    (h5 : f.lba2.previous.toNat = x / 2 ^ 40 % 256) : f.lba .lba48 = x % 2 ^ 48 := by
  simp only [lba, h0, h1, h2, h3, h4, h5]
  omega

end TaskFile

/-! ## The cable -/

/-- What the drives on a cable have got: the bytes in the registers, and the commands so far. -/
structure Cable where
  file : TaskFile
  commands : List Command
  deriving DecidableEq, Repr

namespace Cable

/-- A byte for one of the registers. The last one takes the code of a command. -/
def write (c : Cable) (reg : ℕ) (data : UInt8) : Cable :=
  if reg = 7 then { c with commands := c.commands ++ [c.file.command data] }
  else { c with file := c.file.write reg data }

theorem write_command (c : Cable) (data : UInt8) :
    c.write 7 data = ⟨c.file, c.commands ++ [c.file.command data]⟩ := if_pos rfl

theorem write_of_ne {reg : ℕ} (h : reg ≠ 7) (c : Cable) (data : UInt8) :
    c.write reg data = ⟨c.file.write reg data, c.commands⟩ := if_neg h

end Cable

end Ata
