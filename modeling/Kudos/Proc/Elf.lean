import Kudos.Library.CInt
import Kudos.Library.Words

set_option autoImplicit false

/-! # ELF headers

`elf_parse_header` of `proc/elf.c`, on the x86_64 kernel. It reads the ELF header and the program
headers of an executable and collects where the two segments of the program are. The addresses in them
are passed on as they are. -/

namespace Kudos

open CInt Words

/-! ## Files -/

/-- An open executable: what the file system gives for a buffer size and a seek position, `none` for
    a negative result. -/
structure Executable where
  read : ℤ → ℤ → Option (List UInt8)

/-- A `vfs_read` whose result is compared with the size of the buffer. -/
def Executable.readAll (file : Executable) (size position : ℤ) : Option (List UInt8) :=
  (file.read size position).filter fun bytes => (bytes.length : ℤ) = size

/-- The seek position after `vfs_seek`, which refuses negative positions. -/
def seekTo (position seekPosition : ℤ) : ℤ := if seekPosition < 0 then position else seekPosition

/-! ## Headers -/

/-- The little-endian number in `n` bytes from `offset` on. -/
def field (bytes : List UInt8) (offset n : ℕ) : ℕ :=
  ((bytes.drop offset).take n).foldr (fun b acc => b.toNat + 256 * acc) 0

/-- The `k` bytes of a little-endian number. -/
def leBytes (n : ℕ) : ℕ → List UInt8
  | 0 => []
  | k + 1 => UInt8.ofNat (n % 256) :: leBytes (n / 256) k

/-- What is used of `Elf32_Ehdr` and `Elf64_Ehdr` after the identification. -/
structure Ehdr where
  eEntry : BitVec 64
  ePhoff : BitVec 64
  ePhnum : ℕ

def ehdr32 (bytes : List UInt8) : Ehdr where
  eEntry := BitVec.ofNat 64 (field bytes 24 4)
  ePhoff := BitVec.ofNat 64 (field bytes 28 4)
  ePhnum := field bytes 44 2

def ehdr64 (bytes : List UInt8) : Ehdr where
  eEntry := BitVec.ofNat 64 (field bytes 24 8)
  ePhoff := BitVec.ofNat 64 (field bytes 32 8)
  ePhnum := field bytes 56 2

/-- What is used of `Elf32_Phdr` and `Elf64_Phdr`. -/
structure Phdr where
  pType : ℕ
  pFlags : BitVec 32
  pOffset : BitVec 64
  pVaddr : BitVec 64
  pFilesz : BitVec 64
  /-- `(p_memsz + PAGE_SIZE - 1) / PAGE_SIZE`, in the width of `p_memsz`. -/
  pages : BitVec 64

def phdr32 (bytes : List UInt8) : Phdr where
  pType := field bytes 0 4
  pOffset := BitVec.ofNat 64 (field bytes 4 4)
  pVaddr := BitVec.ofNat 64 (field bytes 8 4)
  pFilesz := BitVec.ofNat 64 (field bytes 16 4)
  pages := ((BitVec.ofNat 32 (field bytes 20 4) + 4096 - 1) / 4096).setWidth 64
  pFlags := BitVec.ofNat 32 (field bytes 24 4)

def phdr64 (bytes : List UInt8) : Phdr where
  pType := field bytes 0 4
  pFlags := BitVec.ofNat 32 (field bytes 4 4)
  pOffset := BitVec.ofNat 64 (field bytes 8 8)
  pVaddr := BitVec.ofNat 64 (field bytes 16 8)
  pFilesz := BitVec.ofNat 64 (field bytes 32 8)
  pages := (BitVec.ofNat 64 (field bytes 40 8) + 4096 - 1) / 4096

/-! ## The parser -/

/-- The fields of `elf_info_t` for one segment. -/
structure Segment where
  location : BitVec 64
  size : BitVec 64
  pages : BitVec 64
  vaddr : BitVec 64

/-- `elf_info_t`. -/
structure ElfInfo where
  entryPoint : BitVec 64
  ro : Segment
  rw : Segment

/-- What the loop over the program headers has found so far. -/
structure ElfSegments where
  elf : ElfInfo
  segRo : Bool
  segRw : Bool

def ptLoad : ℕ := 1
def pfW : BitVec 32 := 2#32

def Phdr.segment (ph : Phdr) : Segment := ⟨ph.pOffset, ph.pFilesz, ph.pages, ph.pVaddr⟩

/-- The `switch` over the type of a program header. -/
def elfProgramHeader (ph : Phdr) (st : ElfSegments) : Except ℤ ElfSegments :=
  if ph.pType = ptLoad then
    if ph.pFlags &&& pfW ≠ 0 then
      if st.segRw then .error (-7)
      else .ok { st with elf := { st.elf with rw := ph.segment }, segRw := true }
    else
      if st.segRo then .error (-8)
      else .ok { st with elf := { st.elf with ro := ph.segment }, segRo := true }
  else .ok st

/-- The loops over the program headers, which differ in the size and the layout of a header. -/
def elfProgramHeaders (file : Executable) (size : ℤ) (decode : List UInt8 → Phdr) :
    ℕ → ℤ → ℤ → ElfSegments → Except ℤ ElfSegments
  | 0, _, _, st => .ok st
  | n + 1, currentPosition, position, st =>
      match file.readAll size position with
      | none => .error (-6)
      | some bytes => do
          let st ← elfProgramHeader (decode bytes) st
          let currentPosition := wrap32 (currentPosition + size)
          elfProgramHeaders file size decode n currentPosition
            (seekTo (wrap32 (position + size)) currentPosition) st

def elfMagic : BitVec 32 := 0x7f454c46#32
def etExec : ℕ := 2
def elfclass64 : ℕ := 2

/-- `elf_parse_header`. An error is a negative result. -/
def elfParseHeader (file : Executable) : Except ℤ (ℤ × ElfInfo) :=
  match file.readAll 64 0 with
  | none => .error (-1)
  | some bytes =>
      if fromBigEndian32 .little (BitVec.ofNat 32 (field bytes 0 4)) ≠ elfMagic then .error (-2)
      else if field bytes 16 2 ≠ etExec then .error (-3)
      else
        let use64 := decide (field bytes 4 1 &&& elfclass64 ≠ 0)
        let hdr := if use64 then ehdr64 bytes else ehdr32 bytes
        if hdr.ePhnum = 0 then .error (-4)
        else do
          let elf : ElfInfo := ⟨hdr.eEntry, ⟨0, 0, 0, 0⟩, ⟨0, 0, 0, 0⟩⟩
          let currentPosition := (hdr.ePhoff.setWidth 32).toInt
          let position := seekTo 64 currentPosition
          let st ←
            if use64 then
              elfProgramHeaders file 56 phdr64 hdr.ePhnum currentPosition position ⟨elf, false, false⟩
            else
              elfProgramHeaders file 32 phdr32 hdr.ePhnum currentPosition position ⟨elf, false, false⟩
          return (if st.segRo || st.segRw then 1 else 0, st.elf)

end Kudos
