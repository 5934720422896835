import Kudos.Proc.Elf

set_option autoImplicit false

/-! # What an ELF file says

The segments that an ELF file describes, read off its bytes, and that `elf_parse_header` finds them in a
64-bit file with one segment of each kind at most. -/

namespace Kudos

open CInt Words

/-! ## Files -/

/-- The contents of a file. -/
structure FileImage where
  size : ℕ
  byte : ℕ → UInt8

/-- Some bytes of a file. -/
def FileImage.slice (image : FileImage) (position size : ℕ) : List UInt8 :=
  (List.range' position size).map image.byte

/-- Reads within the file give its bytes. Positions are of type `int`. -/
def Executable.Stores (file : Executable) (image : FileImage) : Prop :=
  ∀ size position : ℕ, position + size ≤ image.size → (position + size : ℤ) ≤ intMax →
    file.read size position = some (image.slice position size)

theorem FileImage.length_slice (image : FileImage) (position size : ℕ) :
    (image.slice position size).length = size := by
  unfold FileImage.slice
  rw [List.length_map, List.length_range']

theorem FileImage.getElem?_slice (image : FileImage) (position : ℕ) {size k : ℕ} (hk : k < size) :
    (image.slice position size)[k]? = some (image.byte (position + k)) := by
  unfold FileImage.slice
  rw [List.getElem?_map, List.getElem?_range' hk, Nat.one_mul]
  rfl

theorem Executable.Stores.readAll {file : Executable} {image : FileImage} (h : file.Stores image)
    (size position : ℕ) (hsize : position + size ≤ image.size)
    (hint : (position + size : ℤ) ≤ intMax) :
    file.readAll size position = some (image.slice position size) := by
  unfold Executable.readAll
  rw [h size position hsize hint]
  simp [image.length_slice]

/-- A file with the given bytes, as a file system reads it. -/
def FileImage.file (image : FileImage) : Executable where
  read size position :=
    if position < 0 ∨ (image.size : ℤ) < position then none
    else some (image.slice position.toNat (min size.toNat (image.size - position.toNat)))

theorem FileImage.file_stores (image : FileImage) : image.file.Stores image := by
  intro size position hsize _
  have hmin : min size (image.size - position) = size := by omega
  simp only [FileImage.file]
  rw [if_neg (by omega), Int.toNat_natCast, Int.toNat_natCast, hmin]

/-! ## Numbers in a file -/

/-- The little-endian number in `n` bytes of a file. -/
def FileImage.num (image : FileImage) : ℕ → ℕ → ℕ
  | _, 0 => 0
  | offset, n + 1 => (image.byte offset).toNat + 256 * image.num (offset + 1) n

theorem FileImage.num_lt (image : FileImage) (offset n : ℕ) : image.num offset n < 256 ^ n := by
  induction n generalizing offset with
  | zero => exact Nat.one_pos
  | succ n ih =>
      have hbyte := (image.byte offset).toNat_lt
      have hrest := ih (offset + 1)
      rw [FileImage.num, Nat.pow_succ]
      omega

/-- A field of a header that was read. -/
theorem FileImage.field_slice (image : FileImage) {position size : ℕ} (offset n : ℕ)
    (h : offset + n ≤ size) :
    field (image.slice position size) offset n = image.num (position + offset) n := by
  induction n generalizing offset with
  | zero => simp [field, FileImage.num]
  | succ n ih =>
      have hlen : offset < (image.slice position size).length := by
        rw [image.length_slice]
        omega
      have hfirst : (image.slice position size)[offset] = image.byte (position + offset) := by
        have hget := image.getElem?_slice position (show offset < size by omega)
        rw [List.getElem?_eq_getElem hlen] at hget
        exact Option.some.inj hget
      have hrest := ih (offset + 1) (by omega)
      unfold field at hrest ⊢
      rw [List.drop_eq_getElem_cons hlen, List.take_succ_cons, List.foldr_cons, hrest, hfirst,
        FileImage.num, Nat.add_assoc]

/-! ## Segments -/

/-- A program header of type `PT_LOAD`. -/
structure LoadHeader where
  writable : Bool
  offset : ℕ
  vaddr : ℕ
  filesz : ℕ
  memsz : ℕ
deriving DecidableEq

/-- The pages that a segment takes up. -/
def LoadHeader.pageCount (h : LoadHeader) : ℕ := (h.memsz + 4095) / 4096

/-- The addresses in these pages. -/
def LoadHeader.Covers (h : LoadHeader) (a : ℕ) : Prop :=
  h.vaddr ≤ a ∧ a < h.vaddr + 4096 * h.pageCount

/-- What the kernel keeps of a header. -/
def LoadHeader.segment (h : LoadHeader) : Segment where
  location := BitVec.ofNat 64 h.offset
  size := BitVec.ofNat 64 h.filesz
  pages := (BitVec.ofNat 64 h.memsz + 4096 - 1) / 4096
  vaddr := BitVec.ofNat 64 h.vaddr

namespace FileImage

variable (image : FileImage)

/-- Whether the headers are those of a 64-bit file. -/
def use64 : Bool := decide (image.num 4 1 &&& elfclass64 ≠ 0)

/-- `e_entry`. -/
def entry : ℕ := if image.use64 then image.num 24 8 else image.num 24 4

/-- `e_phoff`. -/
def phoff : ℕ := if image.use64 then image.num 32 8 else image.num 28 4

/-- `e_phentsize`. -/
def phentsize : ℕ := if image.use64 then image.num 54 2 else image.num 42 2

/-- `e_phnum`. -/
def phnum : ℕ := if image.use64 then image.num 56 2 else image.num 44 2

/-- The size of the header of the file. -/
def headerSize : ℕ := if image.use64 then 64 else 52

/-- The standard size of a program header. -/
def programHeaderSize : ℕ := if image.use64 then 56 else 32

/-- The program header at a position, if it is of type `PT_LOAD`. -/
def loadHeader (p : ℕ) : Option LoadHeader :=
  if image.num p 4 = ptLoad then
    if image.use64 then
      some ⟨decide (BitVec.ofNat 32 (image.num (p + 4) 4) &&& pfW ≠ 0), image.num (p + 8) 8,
        image.num (p + 16) 8, image.num (p + 32) 8, image.num (p + 40) 8⟩
    else
      some ⟨decide (BitVec.ofNat 32 (image.num (p + 24) 4) &&& pfW ≠ 0), image.num (p + 4) 4,
        image.num (p + 8) 4, image.num (p + 16) 4, image.num (p + 20) 4⟩
  else none

/-- The headers of the segments. -/
def loadHeaders : List LoadHeader :=
  (List.range' image.phoff image.phnum image.programHeaderSize).filterMap image.loadHeader

end FileImage

/-! ## The parser -/

namespace FileImage

variable (image : FileImage)

/-- How the loop for files of this class decodes a program header. -/
def decode : List UInt8 → Phdr := if image.use64 then phdr64 else phdr32

/-- What is kept of a header: the pages are counted in the width of `p_memsz`. -/
def keptSegment (h : LoadHeader) : Segment :=
  if image.use64 then h.segment
  else { h.segment with pages := ((BitVec.ofNat 32 h.memsz + 4096 - 1) / 4096).setWidth 64 }

/-- The `switch`, for a header of a segment. -/
def keepHeader (st : ElfSegments) (h : LoadHeader) : Except ℤ ElfSegments :=
  if h.writable then
    if st.segRw then .error (-7)
    else .ok { st with elf := { st.elf with rw := image.keptSegment h }, segRw := true }
  else
    if st.segRo then .error (-8)
    else .ok { st with elf := { st.elf with ro := image.keptSegment h }, segRo := true }

/-- The loop, on the headers of the segments. -/
def keepHeaders : List LoadHeader → ElfSegments → Except ℤ ElfSegments
  | [], st => .ok st
  | h :: l, st =>
      match image.keepHeader st h with
      | .error e => .error e
      | .ok st => keepHeaders l st

end FileImage

section

variable {file : Executable} {image : FileImage}

/-- A header that was read is the one of the file. -/
theorem elfProgramHeader_image (p : ℕ) (st : ElfSegments) :
    elfProgramHeader (image.decode (image.slice p image.programHeaderSize)) st =
      match image.loadHeader p with
      | none => .ok st
      | some h => image.keepHeader st h := by
  unfold FileImage.decode FileImage.programHeaderSize FileImage.loadHeader FileImage.keepHeader
    FileImage.keptSegment elfProgramHeader
  cases image.use64 with
  | true =>
      have hnum : ∀ offset n, offset + n ≤ 56 →
          field (image.slice p 56) offset n = image.num (p + offset) n :=
        fun offset n h => image.field_slice offset n h
      simp only [phdr64, hnum 0 4 (by decide), hnum 4 4 (by decide), Nat.add_zero, if_true]
      by_cases htype : image.num p 4 = ptLoad
      · rw [if_pos htype, if_pos htype]
        simp only [decide_eq_true_eq, Phdr.segment, LoadHeader.segment, hnum 8 8 (by decide),
          hnum 16 8 (by decide), hnum 32 8 (by decide), hnum 40 8 (by decide)]
      · rw [if_neg htype, if_neg htype]
  | false =>
      have hnum : ∀ offset n, offset + n ≤ 32 →
          field (image.slice p 32) offset n = image.num (p + offset) n :=
        fun offset n h => image.field_slice offset n h
      simp only [phdr32, hnum 0 4 (by decide), hnum 24 4 (by decide), Nat.add_zero,
        Bool.false_eq_true, if_false]
      by_cases htype : image.num p 4 = ptLoad
      · rw [if_pos htype, if_pos htype]
        simp only [decide_eq_true_eq, Phdr.segment, LoadHeader.segment, hnum 4 4 (by decide),
          hnum 8 4 (by decide), hnum 16 4 (by decide), hnum 20 4 (by decide)]
      · rw [if_neg htype, if_neg htype]

theorem seekTo_natCast (position : ℤ) (p : ℕ) : seekTo position p = p := by
  unfold seekTo
  rw [if_neg (by omega)]

/-- A header inside the file is read, and the position behind it is an `int`. -/
theorem readAll_header (hfile : file.Stores image) {n p : ℕ}
    (hsize : p + image.programHeaderSize * (n + 1) ≤ image.size)
    (hint : (p + image.programHeaderSize * (n + 1) : ℤ) ≤ intMax) :
    file.readAll image.programHeaderSize p = some (image.slice p image.programHeaderSize) ∧
      wrap32 ((p : ℤ) + image.programHeaderSize) = ((p + image.programHeaderSize : ℕ) : ℤ) := by
  have hrest := Int.mul_nonneg (Int.natCast_nonneg image.programHeaderSize) (Int.natCast_nonneg n)
  rw [Nat.mul_succ] at hsize
  rw [mul_add, mul_one] at hint
  refine ⟨hfile.readAll _ p (by omega) (by omega), ?_⟩
  rw [wrap32_of_nonneg (by omega) (by omega)]
  push_cast
  rfl

/-- The loop over `n` headers from position `p` on. -/
theorem elfProgramHeaders_image (hfile : file.Stores image) {n p : ℕ} (st : ElfSegments)
    (hsize : p + image.programHeaderSize * n ≤ image.size)
    (hint : (p + image.programHeaderSize * n : ℤ) ≤ intMax) :
    elfProgramHeaders file image.programHeaderSize image.decode n p p st
      = image.keepHeaders ((List.range' p n image.programHeaderSize).filterMap image.loadHeader) st := by
  induction n generalizing p st with
  | zero => rfl
  | succ n ih =>
      rw [Nat.cast_succ] at hint
      obtain ⟨hread, hnext⟩ := readAll_header hfile hsize hint
      rw [Nat.mul_succ] at hsize
      rw [mul_add, mul_one] at hint
      have hrest (st : ElfSegments) := @ih (p + image.programHeaderSize) st (by omega)
        (by push_cast; omega)
      unfold elfProgramHeaders
      simp only [hread, hnext, seekTo_natCast]
      rw [List.range'_succ, List.filterMap_cons, elfProgramHeader_image]
      cases image.loadHeader p with
      | none => exact hrest st
      | some h =>
          dsimp only
          rw [FileImage.keepHeaders]
          cases image.keepHeader st h with
          | error e => rfl
          | ok st => exact hrest st

/-! The ELF header, as the parser gets it. -/

theorem FileImage.field_header (image : FileImage) {offset n : ℕ} (h : offset + n ≤ 64) :
    field (image.slice 0 64) offset n = image.num offset n := by
  rw [image.field_slice offset n h, Nat.zero_add]

theorem FileImage.use64_header (image : FileImage) :
    decide (field (image.slice 0 64) 4 1 &&& elfclass64 ≠ 0) = image.use64 := by
  rw [image.field_header (by decide)]
  rfl

theorem FileImage.ehdr_header (image : FileImage) :
    (if image.use64 then ehdr64 (image.slice 0 64) else ehdr32 (image.slice 0 64))
      = ⟨BitVec.ofNat 64 image.entry, BitVec.ofNat 64 image.phoff, image.phnum⟩ := by
  unfold ehdr64 ehdr32 entry phoff phnum
  simp only [image.field_header (show 24 + 8 ≤ 64 by decide),
    image.field_header (show 32 + 8 ≤ 64 by decide), image.field_header (show 56 + 2 ≤ 64 by decide),
    image.field_header (show 24 + 4 ≤ 64 by decide), image.field_header (show 28 + 4 ≤ 64 by decide),
    image.field_header (show 44 + 2 ≤ 64 by decide)]
  cases image.use64 with
  | true => rfl
  | false => rfl

theorem FileImage.phoff_header (h : (image.phoff : ℤ) ≤ intMax) :
    ((BitVec.ofNat 64 image.phoff).setWidth 32).toInt = image.phoff := by
  unfold intMax at h
  have hnat : ((BitVec.ofNat 64 image.phoff).setWidth 32).toNat = image.phoff := by
    rw [BitVec.toNat_setWidth, BitVec.toNat_ofNat, Nat.mod_eq_of_lt (by omega),
      Nat.mod_eq_of_lt (by omega)]
  rw [BitVec.toInt_eq_toNat_of_lt (by omega), hnat]

/-- **The parser reads the headers of the file**, at their standard size. -/
theorem elfParseHeader_keepHeaders (hfile : file.Stores image) (hheader : 64 ≤ image.size)
    (hmagic : image.num 0 4 = 0x464c457f) (htype : image.num 16 2 = etExec)
    (hsize : image.phoff + image.programHeaderSize * image.phnum ≤ image.size)
    (hint : (image.phoff + image.programHeaderSize * image.phnum : ℤ) ≤ intMax) :
    elfParseHeader file = if image.phnum = 0 then .error (-4) else
      match image.keepHeaders image.loadHeaders
        ⟨⟨BitVec.ofNat 64 image.entry, ⟨0, 0, 0, 0⟩, ⟨0, 0, 0, 0⟩⟩, false, false⟩ with
      | .error e => .error e
      | .ok st => .ok (if st.segRo || st.segRw then 1 else 0, st.elf) := by
  have hread : file.readAll 64 0 = some (image.slice 0 64) :=
    hfile.readAll 64 0 (by omega) (by unfold intMax; decide)
  have hphoff : (image.phoff : ℤ) ≤ intMax := by
    have := Int.mul_nonneg (Int.natCast_nonneg image.programHeaderSize)
      (Int.natCast_nonneg image.phnum)
    omega
  have hloops (st : ElfSegments) :
      (if image.use64 then elfProgramHeaders file 56 phdr64 image.phnum image.phoff image.phoff st
        else elfProgramHeaders file 32 phdr32 image.phnum image.phoff image.phoff st)
      = image.keepHeaders image.loadHeaders st := by
    rw [FileImage.loadHeaders, ← elfProgramHeaders_image hfile st hsize hint]
    unfold FileImage.programHeaderSize FileImage.decode
    cases image.use64 with
    | true => rfl
    | false => rfl
  unfold elfParseHeader
  simp only [hread, image.use64_header, image.ehdr_header, FileImage.phoff_header hphoff,
    seekTo_natCast]
  rw [image.field_header (by decide), hmagic, image.field_header (by decide), htype,
    if_neg (by decide), if_neg (by decide)]
  by_cases hphnum : image.phnum = 0
  · rw [if_pos hphnum, if_pos hphnum]
  · rw [if_neg hphnum, if_neg hphnum]
    have hrun := hloops ⟨⟨BitVec.ofNat 64 image.entry, ⟨0, 0, 0, 0⟩, ⟨0, 0, 0, 0⟩⟩, false, false⟩
    generalize image.keepHeaders image.loadHeaders _ = r at hrun ⊢
    cases huse : image.use64 with
    | true =>
        rw [huse, if_pos rfl] at hrun
        rw [if_pos rfl, hrun]
        cases r with
        | error e => rfl
        | ok st => rfl
    | false =>
        rw [huse, if_neg (by decide)] at hrun
        rw [if_neg (by decide), hrun]
        cases r with
        | error e => rfl
        | ok st => rfl

/-! ## One segment of each kind -/

/-- A segment of a kind, or what was there before. -/
def segmentOr (seg : Segment) (header : Option LoadHeader) : Segment :=
  header.elim seg LoadHeader.segment

/-- Among some headers and one that may have been seen before there is one of a kind at most. -/
def OneOfKind (kind : LoadHeader → Bool) (seen : Bool) (l : List LoadHeader) : Prop :=
  (l.filter kind).length + (if seen then 1 else 0) ≤ 1

section

variable {kind : LoadHeader → Bool} {seen : Bool} {h : LoadHeader} {l : List LoadHeader}

theorem oneOfKind_cons : OneOfKind kind seen (h :: l) ↔
    (kind h = true → seen = false) ∧ OneOfKind kind (seen || kind h) l := by
  unfold OneOfKind
  rw [List.filter_cons]
  cases kind h with
  | false => simp
  | true => cases seen <;> simp

theorem OneOfKind.find?_eq_none (hone : OneOfKind kind true l) : l.find? kind = none := by
  unfold OneOfKind at hone
  rw [if_pos rfl] at hone
  have hnone : l.filter kind = [] := List.eq_nil_of_length_eq_zero (by omega)
  rw [List.filter_eq_nil_iff] at hnone
  exact List.find?_eq_none.2 hnone

theorem OneOfKind.elim_cons (hone : OneOfKind kind (seen || kind h) l) (f : LoadHeader → Segment)
    (seg : Segment) :
    (l.find? kind).elim (if kind h then f h else seg) f = ((h :: l).find? kind).elim seg f := by
  rw [List.find?_cons]
  cases hkind : kind h with
  | false => rfl
  | true =>
      rw [hkind, Bool.or_true] at hone
      rw [hone.find?_eq_none]
      rfl

end

/-- What the loop keeps. -/
structure FileImage.Kept (image : FileImage) (l : List LoadHeader) (st st' : ElfSegments) : Prop where
  entryPoint : st'.elf.entryPoint = st.elf.entryPoint
  rw : st'.elf.rw = (l.find? (·.writable)).elim st.elf.rw image.keptSegment
  ro : st'.elf.ro = (l.find? (!·.writable)).elim st.elf.ro image.keptSegment
  segRw : st'.segRw = (st.segRw || l.any (·.writable))
  segRo : st'.segRo = (st.segRo || l.any (!·.writable))

/-- A segment is kept if it is the first of its kind. -/
theorem FileImage.keepHeader_cases (st : ElfSegments) (h : LoadHeader) :
    (((h.writable = true ∧ st.segRw = true) ∨ ((!h.writable) = true ∧ st.segRo = true)) ∧
      ∃ e < 0, image.keepHeader st h = .error e) ∨
    ((h.writable = true → st.segRw = false) ∧ ((!h.writable) = true → st.segRo = false) ∧
      ∃ st', image.keepHeader st h = .ok st' ∧ st'.elf.entryPoint = st.elf.entryPoint ∧
        st'.elf.rw = (if h.writable then image.keptSegment h else st.elf.rw) ∧
        st'.elf.ro = (if !h.writable then image.keptSegment h else st.elf.ro) ∧
        st'.segRw = (st.segRw || h.writable) ∧ st'.segRo = (st.segRo || !h.writable)) := by
  unfold FileImage.keepHeader
  cases h.writable with
  | true =>
      cases st.segRw with
      | true => exact Or.inl ⟨Or.inl ⟨rfl, rfl⟩, -7, by decide, rfl⟩
      | false =>
          exact Or.inr ⟨fun _ => rfl, fun hno => (by cases hno), _, rfl, rfl, rfl, rfl, rfl,
            (Bool.or_false _).symm⟩
  | false =>
      cases st.segRo with
      | true => exact Or.inl ⟨Or.inr ⟨rfl, rfl⟩, -8, by decide, rfl⟩
      | false =>
          exact Or.inr ⟨fun hno => (by cases hno), fun _ => rfl, _, rfl, rfl, rfl, rfl,
            (Bool.or_false _).symm, rfl⟩

/-- With one segment of each kind at most all are kept, and otherwise the loop ends with an error. -/
theorem FileImage.keepHeaders_cases (l : List LoadHeader) (st : ElfSegments) :
    (OneOfKind (·.writable) st.segRw l ∧ OneOfKind (!·.writable) st.segRo l ∧
      ∃ st', image.keepHeaders l st = .ok st' ∧ image.Kept l st st') ∨
    (¬ (OneOfKind (·.writable) st.segRw l ∧ OneOfKind (!·.writable) st.segRo l) ∧
      ∃ e < 0, image.keepHeaders l st = .error e) := by
  induction l generalizing st with
  | nil =>
      refine Or.inl ⟨?_, ?_, st, rfl, rfl, rfl, rfl, by simp, by simp⟩
      · unfold OneOfKind
        split <;> simp
      · unfold OneOfKind
        split <;> simp
  | cons h l ih =>
      rw [FileImage.keepHeaders, oneOfKind_cons, oneOfKind_cons]
      obtain ⟨hseen, e, he, hkeep⟩ | ⟨hrwFirst, hroFirst, st1, hkeep, hentry, hrw, hro, hsegRw, hsegRo⟩ :=
        @FileImage.keepHeader_cases image st h
      · rw [hkeep]
        refine Or.inr ⟨fun hone => ?_, e, he, rfl⟩
        rcases hseen with ⟨hkind, hseen⟩ | ⟨hkind, hseen⟩
        · rw [hone.1.1 hkind] at hseen
          cases hseen
        · rw [hone.2.1 hkind] at hseen
          cases hseen
      · rw [hkeep]
        dsimp only
        have hrest := ih st1
        rw [hsegRw, hsegRo] at hrest
        obtain ⟨hrwRest, hroRest, st', hok, hkept⟩ | ⟨hmore, hbad⟩ := hrest
        · refine Or.inl ⟨⟨hrwFirst, hrwRest⟩, ⟨hroFirst, hroRest⟩, st', hok, hkept.entryPoint.trans hentry,
            ?_, ?_, ?_, ?_⟩
          · rw [hkept.rw, hrw]
            exact hrwRest.elim_cons _ _
          · rw [hkept.ro, hro]
            exact hroRest.elim_cons _ _
          · rw [hkept.segRw, hsegRw, List.any_cons, Bool.or_assoc]
          · rw [hkept.segRo, hsegRo, List.any_cons, Bool.or_assoc]
        · exact Or.inr ⟨fun hone => hmore ⟨hone.1.2, hone.2.2⟩, hbad⟩

/-- **The parser finds the segments of the file.** A kind of which there is none gets no pages. -/
theorem elfParseHeader_image (hfile : file.Stores image) (h64 : image.use64 = true)
    (hheader : 64 ≤ image.size) (hmagic : image.num 0 4 = 0x464c457f)
    (htype : image.num 16 2 = etExec) (hsome : image.loadHeaders ≠ [])
    (hsize : image.phoff + 56 * image.phnum ≤ image.size)
    (hint : (image.phoff + 56 * image.phnum : ℤ) ≤ intMax)
    (hrw : (image.loadHeaders.filter (·.writable)).length ≤ 1)
    (hro : (image.loadHeaders.filter (!·.writable)).length ≤ 1) :
    ∃ r elf, elfParseHeader file = .ok (r, elf) ∧ elf.entryPoint = BitVec.ofNat 64 image.entry ∧
      elf.rw = segmentOr ⟨0, 0, 0, 0⟩ (image.loadHeaders.find? (·.writable)) ∧
      elf.ro = segmentOr ⟨0, 0, 0, 0⟩ (image.loadHeaders.find? (!·.writable)) := by
  have hphnum : image.phnum ≠ 0 := by
    intro hzero
    unfold FileImage.loadHeaders at hsome
    rw [hzero] at hsome
    exact hsome rfl
  have hprogram : image.programHeaderSize = 56 := by
    unfold FileImage.programHeaderSize
    rw [h64]
    rfl
  have hkeptSegment : image.keptSegment = LoadHeader.segment := by
    funext h
    unfold FileImage.keptSegment
    rw [h64]
    rfl
  have hparse := elfParseHeader_keepHeaders hfile hheader hmagic htype (by rw [hprogram]; exact hsize)
    (by rw [hprogram]; exact hint)
  rw [if_neg hphnum] at hparse
  obtain ⟨-, -, st, hok, hkept⟩ | ⟨hmore, -⟩ := @FileImage.keepHeaders_cases image image.loadHeaders
    ⟨⟨BitVec.ofNat 64 image.entry, ⟨0, 0, 0, 0⟩, ⟨0, 0, 0, 0⟩⟩, false, false⟩
  · rw [hok] at hparse
    have hrw := hkept.rw
    have hro := hkept.ro
    rw [hkeptSegment] at hrw hro
    exact ⟨_, st.elf, hparse, hkept.entryPoint, hrw, hro⟩
  · exact absurd ⟨hrw, hro⟩ hmore

end

end Kudos
