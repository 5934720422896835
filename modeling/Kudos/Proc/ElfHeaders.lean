import Kudos.Proc.ElfFile
import Mathlib.Tactic.Ring

set_option autoImplicit false

/-! # Where the program headers are read

An ELF header says where the program headers are, and how big one of them is. `elf_parse_header` uses the
first, but goes on by the size of its own structure, so it finds the second header and the following ones
at the standard size alone. The ELF header itself is read with 64 bytes for either class. -/

namespace Kudos

open CInt Words

/-! ## What the file says -/

namespace FileImage

variable (image : FileImage)

/-- The headers of the segments, where the ELF header puts them. -/
def headers : List LoadHeader :=
  (List.range' image.phoff image.phnum image.phentsize).filterMap image.loadHeader

/-- A valid ELF header, with the program headers inside the file. -/
structure HasHeaders : Prop where
  header : image.headerSize ≤ image.size
  magic : image.num 0 4 = 0x464c457f
  type : image.num 16 2 = etExec
  phentsize : image.programHeaderSize ≤ image.phentsize
  inside : image.phoff + image.phnum * image.phentsize ≤ image.size
  small : image.phoff + image.phnum * image.phentsize < 2 ^ 31

/-- There is a segment, and no two of one kind. -/
def Acceptable : Prop :=
  image.headers ≠ [] ∧ (image.headers.filter (·.writable)).length ≤ 1 ∧
    (image.headers.filter (!·.writable)).length ≤ 1

/-- The number of bits in `p_memsz`. -/
def memszBits : ℕ := if image.use64 then 64 else 32

end FileImage

/-- The fields of `elf_info_t` that describe a segment. -/
def LoadHeader.fields (h : LoadHeader) : Segment where
  location := BitVec.ofNat 64 h.offset
  size := BitVec.ofNat 64 h.filesz
  pages := BitVec.ofNat 64 h.pageCount
  vaddr := BitVec.ofNat 64 h.vaddr

/-! ## The positions of the parser -/

/-- The loops over the program headers, with the positions of the headers that were interpreted. -/
def elfProgramHeadersTraced (file : Executable) (size : ℤ) (decode : List UInt8 → Phdr) :
    ℕ → ℤ → ℤ → ElfSegments → Except ℤ ElfSegments × List ℤ
  | 0, _, _, st => (.ok st, [])
  | n + 1, currentPosition, position, st =>
      match file.readAll size position with
      | none => (.error (-6), [])
      | some bytes =>
          match elfProgramHeader (decode bytes) st with
          | .error e => (.error e, [position])
          | .ok st =>
              let currentPosition := wrap32 (currentPosition + size)
              let (r, positions) := elfProgramHeadersTraced file size decode n currentPosition
                (seekTo (wrap32 (position + size)) currentPosition) st
              (r, position :: positions)

theorem elfProgramHeadersTraced_fst (file : Executable) (size : ℤ) (decode : List UInt8 → Phdr)
    (n : ℕ) (currentPosition position : ℤ) (st : ElfSegments) :
    (elfProgramHeadersTraced file size decode n currentPosition position st).1
      = elfProgramHeaders file size decode n currentPosition position st := by
  induction n generalizing currentPosition position st with
  | zero => rfl
  | succ n ih =>
      unfold elfProgramHeadersTraced elfProgramHeaders
      cases file.readAll size position with
      | none => rfl
      | some bytes =>
          dsimp only
          cases elfProgramHeader (decode bytes) st with
          | error e => rfl
          | ok st => exact ih _ _ st

/-- `elf_parse_header`, with the positions of the program headers that it interpreted. -/
def elfParseHeaderTraced (file : Executable) : Except ℤ (ℤ × ElfInfo) × List ℤ :=
  match file.readAll 64 0 with
  | none => (.error (-1), [])
  | some bytes =>
      if fromBigEndian32 .little (BitVec.ofNat 32 (field bytes 0 4)) ≠ elfMagic then (.error (-2), [])
      else if field bytes 16 2 ≠ etExec then (.error (-3), [])
      else
        let use64 := decide (field bytes 4 1 &&& elfclass64 ≠ 0)
        let hdr := if use64 then ehdr64 bytes else ehdr32 bytes
        if hdr.ePhnum = 0 then (.error (-4), [])
        else
          let elf : ElfInfo := ⟨hdr.eEntry, ⟨0, 0, 0, 0⟩, ⟨0, 0, 0, 0⟩⟩
          let currentPosition := (hdr.ePhoff.setWidth 32).toInt
          let position := seekTo 64 currentPosition
          let (st, positions) :=
            if use64 then elfProgramHeadersTraced file 56 phdr64 hdr.ePhnum currentPosition position
              ⟨elf, false, false⟩
            else elfProgramHeadersTraced file 32 phdr32 hdr.ePhnum currentPosition position
              ⟨elf, false, false⟩
          (st.map fun st => (if st.segRo || st.segRw then 1 else 0, st.elf), positions)

theorem elfParseHeaderTraced_fst (file : Executable) :
    (elfParseHeaderTraced file).1 = elfParseHeader file := by
  unfold elfParseHeaderTraced elfParseHeader
  cases file.readAll 64 0 with
  | none => rfl
  | some bytes =>
      dsimp only
      split_ifs
      · rfl
      · rfl
      · rfl
      · rw [← elfProgramHeadersTraced_fst]
        dsimp only
        cases (elfProgramHeadersTraced file 56 phdr64 _ _ _ _).1 with
        | error e => rfl
        | ok st => rfl
      · rfl
      · rw [← elfProgramHeadersTraced_fst]
        dsimp only
        cases (elfProgramHeadersTraced file 32 phdr32 _ _ _ _).1 with
        | error e => rfl
        | ok st => rfl

section

variable {file : Executable} {image : FileImage}

/-- The loop interprets the headers at their standard size. -/
theorem elfProgramHeadersTraced_snd (hfile : file.Stores image) {n p : ℕ} (st : ElfSegments)
    (hsize : p + image.programHeaderSize * n ≤ image.size)
    (hint : (p + image.programHeaderSize * n : ℤ) ≤ intMax) {i : ℕ} {q : ℤ}
    (hq : (elfProgramHeadersTraced file image.programHeaderSize image.decode n p p st).2[i]? = some q) :
    i < n ∧ q = p + i * image.programHeaderSize := by
  induction n generalizing p st i with
  | zero => cases hq
  | succ n ih =>
      rw [Nat.cast_succ] at hint
      obtain ⟨hread, hnext⟩ := readAll_header hfile hsize hint
      rw [Nat.mul_succ] at hsize
      rw [mul_add, mul_one] at hint
      have hfirst (l : List ℤ) (hq : ((p : ℤ) :: l)[0]? = some q) :
          0 < n + 1 ∧ q = p + (0 : ℕ) * image.programHeaderSize := by
        rw [Nat.cast_zero, zero_mul, add_zero]
        exact ⟨Nat.succ_pos n, (Option.some.inj hq).symm⟩
      unfold elfProgramHeadersTraced at hq
      simp only [hread, hnext, seekTo_natCast] at hq
      cases i with
      | zero => split at hq <;> exact hfirst _ hq
      | succ i =>
          split at hq
          · cases hq
          · obtain ⟨hi, hlater⟩ := ih _ (by omega) (by push_cast; omega) hq
            refine ⟨Nat.succ_lt_succ hi, ?_⟩
            rw [hlater]
            push_cast
            ring

/-- The second header that is interpreted is the one behind the first, at its standard size. -/
theorem elfProgramHeadersTraced_second (hfile : file.Stores image) {n p : ℕ} {elf : ElfInfo}
    (hsize : p + image.programHeaderSize * (n + 2) ≤ image.size)
    (hint : (p + image.programHeaderSize * (n + 2) : ℤ) ≤ intMax) :
    (elfProgramHeadersTraced file image.programHeaderSize image.decode (n + 2) p p
      ⟨elf, false, false⟩).2[1]? = some ((p : ℤ) + image.programHeaderSize) := by
  obtain ⟨hread, hnext⟩ := readAll_header hfile (n := n + 1) hsize (by push_cast; linarith)
  have hint' : ((p + image.programHeaderSize : ℕ) + image.programHeaderSize * (n + 1) : ℤ) ≤ intMax := by
    push_cast
    linarith
  obtain ⟨hread', -⟩ := readAll_header hfile (p := p + image.programHeaderSize) (n := n)
    (by linarith) hint'
  have hsecond (st : ElfSegments) : (elfProgramHeadersTraced file image.programHeaderSize image.decode
      (n + 1) ((p + image.programHeaderSize : ℕ) : ℤ) ((p + image.programHeaderSize : ℕ) : ℤ) st).2[0]?
        = some ((p : ℤ) + image.programHeaderSize) := by
    unfold elfProgramHeadersTraced
    simp only [hread']
    split <;> simp
  have hfirst : ∃ st, elfProgramHeader (image.decode (image.slice p image.programHeaderSize))
      ⟨elf, false, false⟩ = .ok st := by
    rw [elfProgramHeader_image]
    cases image.loadHeader p with
    | none => exact ⟨_, rfl⟩
    | some h =>
        dsimp only
        unfold FileImage.keepHeader
        cases h.writable with
        | true => exact ⟨_, rfl⟩
        | false => exact ⟨_, rfl⟩
  obtain ⟨st, hst⟩ := hfirst
  unfold elfProgramHeadersTraced
  simp only [hread, hnext, seekTo_natCast, hst]
  exact hsecond st

/-- The positions that the parser reads at. -/
theorem elfParseHeaderTraced_snd (hfile : file.Stores image) (himage : image.HasHeaders)
    (hheader : 64 ≤ image.size) :
    (elfParseHeaderTraced file).2 = if image.phnum = 0 then [] else
      (elfProgramHeadersTraced file image.programHeaderSize image.decode image.phnum image.phoff
        image.phoff ⟨⟨BitVec.ofNat 64 image.entry, ⟨0, 0, 0, 0⟩, ⟨0, 0, 0, 0⟩⟩, false, false⟩).2 := by
  have hread : file.readAll 64 0 = some (image.slice 0 64) :=
    hfile.readAll 64 0 (by omega) (by unfold intMax; decide)
  have hphoff : (image.phoff : ℤ) ≤ intMax := by
    have := himage.small
    unfold intMax
    omega
  unfold elfParseHeaderTraced
  simp only [hread, image.use64_header, image.ehdr_header, FileImage.phoff_header hphoff,
    seekTo_natCast]
  rw [image.field_header (by decide), himage.magic, image.field_header (by decide), himage.type,
    if_neg (by decide), if_neg (by decide)]
  by_cases hphnum : image.phnum = 0
  · rw [if_pos hphnum, if_pos hphnum]
  · rw [if_neg hphnum, if_neg hphnum]
    unfold FileImage.programHeaderSize FileImage.decode
    cases image.use64 with
    | true => rfl
    | false => rfl

end

/-! ## Success and the fields -/

/-- The parser reports a segment. -/
def Reports (file : Executable) (elf : ElfInfo) : Prop :=
  ∃ r, elfParseHeader file = .ok (r, elf) ∧ 0 < r

/-- **What the ELF header promises of the parser.** -/
structure ReadsHeaders (file : Executable) (image : FileImage) : Prop where
  /-- the headers are interpreted where they are -/
  positions : ∀ (i : ℕ) (p : ℤ), (elfParseHeaderTraced file).2[i]? = some p →
    p = image.phoff + i * image.phentsize
  /-- success means that there is a segment, and no two of a kind -/
  success : (∃ elf, Reports file elf) ↔ image.Acceptable
  /-- the fields are those of the one header of the kind, or zero -/
  fields : ∀ elf, Reports file elf →
    elf.rw = (image.headers.find? (·.writable)).elim ⟨0, 0, 0, 0⟩ LoadHeader.fields ∧
      elf.ro = (image.headers.find? (!·.writable)).elim ⟨0, 0, 0, 0⟩ LoadHeader.fields

section

variable {file : Executable} {image : FileImage}

/-- Up to the first header the size of an entry does not matter. -/
theorem FileImage.loadHeaders_eq_headers
    (h : image.phnum ≤ 1 ∨ image.phentsize = image.programHeaderSize) :
    image.loadHeaders = image.headers := by
  unfold FileImage.loadHeaders FileImage.headers
  rcases h with hone | hsize
  · obtain hzero | hone : image.phnum = 0 ∨ image.phnum = 1 := by omega
    · rw [hzero, List.range'_zero, List.range'_zero]
    · rw [hone, List.range'_one, List.range'_one]
  · rw [hsize]

theorem FileImage.HasHeaders.standard (himage : image.HasHeaders) :
    image.phoff + image.programHeaderSize * image.phnum ≤ image.size ∧
      (image.phoff + image.programHeaderSize * image.phnum : ℤ) ≤ intMax := by
  have hle : image.programHeaderSize * image.phnum ≤ image.phnum * image.phentsize := by
    rw [Nat.mul_comm]
    exact Nat.mul_le_mul_left _ himage.phentsize
  have hinside := himage.inside
  have hsmall := himage.small
  have hcast : (image.phoff + image.programHeaderSize * image.phnum : ℤ)
      = ((image.phoff + image.programHeaderSize * image.phnum : ℕ) : ℤ) := by push_cast; rfl
  rw [hcast]
  unfold intMax
  omega

/-- The pages of a segment are counted right unless the count overflows. -/
theorem FileImage.keptSegment_eq_iff {h : LoadHeader} (hmemsz : h.memsz < 2 ^ image.memszBits) :
    image.keptSegment h = h.fields ↔ h.memsz + 4095 < 2 ^ image.memszBits := by
  have h64 : ((BitVec.ofNat 64 h.memsz + 4096 - 1) / 4096).toNat
      = (h.memsz + 4095) % 2 ^ 64 / 4096 := by
    simp only [BitVec.ofNat_eq_ofNat, BitVec.toNat_udiv, BitVec.toNat_sub, BitVec.toNat_add,
      BitVec.toNat_ofNat, Nat.reducePow, Nat.reduceMod, Nat.reduceSub]
    omega
  have h32 : (((BitVec.ofNat 32 h.memsz + 4096 - 1) / 4096).setWidth 64).toNat
      = (h.memsz + 4095) % 2 ^ 32 / 4096 := by
    simp only [BitVec.ofNat_eq_ofNat, BitVec.toNat_setWidth, BitVec.toNat_udiv, BitVec.toNat_sub,
      BitVec.toNat_add, BitVec.toNat_ofNat, Nat.reducePow, Nat.reduceMod, Nat.reduceSub]
    omega
  have hpages : image.keptSegment h = h.fields ↔
      (image.keptSegment h).pages.toNat = h.fields.pages.toNat := by
    have hother : image.keptSegment h = { h.fields with pages := (image.keptSegment h).pages } := by
      unfold keptSegment
      split_ifs <;> rfl
    refine ⟨fun heq => by rw [heq], fun heq => ?_⟩
    rw [hother, BitVec.toNat_inj.1 heq]
  have hfields : h.fields.pages.toNat = (h.memsz + 4095) / 4096 % 2 ^ 64 := BitVec.toNat_ofNat _ _
  rw [hpages, hfields]
  unfold memszBits at hmemsz ⊢
  unfold keptSegment
  cases huse : image.use64 with
  | true =>
      rw [huse, if_pos rfl] at hmemsz
      change ((BitVec.ofNat 64 h.memsz + 4096 - 1) / 4096).toNat = _ ↔ h.memsz + 4095 < 2 ^ 64
      rw [h64]
      omega
  | false =>
      rw [huse, if_neg (by decide)] at hmemsz
      change (((BitVec.ofNat 32 h.memsz + 4096 - 1) / 4096).setWidth 64).toNat = _ ↔
        h.memsz + 4095 < 2 ^ 32
      rw [h32]
      omega

/-- The parser and its success, on a file that is long enough. -/
theorem reports_iff (hfile : file.Stores image) (himage : image.HasHeaders)
    (hheader : 64 ≤ image.size) (hstandard : image.loadHeaders = image.headers) :
    ((∃ elf, Reports file elf) ↔ image.Acceptable) ∧
    ∀ elf, Reports file elf →
      elf.rw = (image.headers.find? (·.writable)).elim ⟨0, 0, 0, 0⟩ image.keptSegment ∧
      elf.ro = (image.headers.find? (!·.writable)).elim ⟨0, 0, 0, 0⟩ image.keptSegment := by
  obtain ⟨hsize, hint⟩ := himage.standard
  have hparse := elfParseHeader_keepHeaders hfile hheader himage.magic himage.type hsize hint
  unfold Reports FileImage.Acceptable
  rw [hstandard] at hparse
  by_cases hphnum : image.phnum = 0
  · have hnone : image.headers = [] := by
      unfold FileImage.headers
      rw [hphnum]
      rfl
    rw [if_pos hphnum] at hparse
    rw [hparse, hnone]
    exact ⟨⟨fun ⟨_, _, h, _⟩ => (by cases h), fun h => absurd rfl h.1⟩, fun _ ⟨_, h, _⟩ => by cases h⟩
  · rw [if_neg hphnum] at hparse
    obtain ⟨hrwOne, hroOne, st, hok, hkept⟩ | ⟨hmore, e, he, herror⟩ :=
      @FileImage.keepHeaders_cases image image.headers
        ⟨⟨BitVec.ofNat 64 image.entry, ⟨0, 0, 0, 0⟩, ⟨0, 0, 0, 0⟩⟩, false, false⟩
    · have hany : (st.segRo || st.segRw) = true ↔ image.headers ≠ [] := by
        rw [hkept.segRo, hkept.segRw]
        cases image.headers with
        | nil => simp
        | cons h l => cases hw : h.writable <;> simp [hw]
      rw [hok] at hparse
      rw [hparse]
      refine ⟨⟨?_, ?_⟩, ?_⟩
      · rintro ⟨elf, r, hr, hpos⟩
        cases hr
        refine ⟨hany.1 ?_, hrwOne, hroOne⟩
        by_contra hno
        rw [if_neg hno] at hpos
        exact lt_irrefl _ hpos
      · rintro ⟨hsome, -, -⟩
        exact ⟨st.elf, _, rfl, by rw [if_pos (hany.2 hsome)]; decide⟩
      · rintro elf ⟨r, hr, -⟩
        cases hr
        exact ⟨hkept.rw, hkept.ro⟩
    · rw [herror] at hparse
      rw [hparse]
      exact ⟨⟨fun ⟨_, _, h, _⟩ => (by cases h), fun h => absurd h.2 hmore⟩,
        fun _ ⟨_, h, _⟩ => by cases h⟩

/-- Reads that go beyond the end of the file do not fill the buffer. -/
def Executable.Ends (file : Executable) (image : FileImage) : Prop :=
  ∀ size position : ℕ, image.size < position + size → ∀ bytes,
    file.read size position = some bytes → bytes.length < size

/-- The files whose headers the parser gets right: with headers of the standard size, or with one, and
without a segment whose pages overflow. Where the file is shorter than a 64-bit header, that there is
nothing to accept. -/
def FileImage.Readable (image : FileImage) : Prop :=
  if image.size < 64 then ¬ image.Acceptable
  else (image.phnum ≤ 1 ∨ image.phentsize = image.programHeaderSize) ∧
    (image.Acceptable → ∀ h ∈ image.headers, h.memsz + 4095 < 2 ^ image.memszBits)

theorem elfParseHeader_short (hends : file.Ends image) (hsize : image.size < 64) :
    elfParseHeader file = .error (-1) ∧ (elfParseHeaderTraced file).2 = [] := by
  have hread : file.readAll 64 0 = none := by
    unfold Executable.readAll
    rw [Option.filter_eq_none_iff]
    intro bytes hbytes
    have hlen := hends 64 0 (by omega) bytes hbytes
    rw [decide_eq_true_eq]
    omega
  unfold elfParseHeader elfParseHeaderTraced
  rw [hread]
  exact ⟨rfl, rfl⟩

/-- The field that is too wide for `p_memsz` is none. -/
theorem FileImage.memsz_lt {h : LoadHeader} (hh : h ∈ image.headers) :
    h.memsz < 2 ^ image.memszBits := by
  unfold headers at hh
  obtain ⟨p, -, hp⟩ := List.mem_filterMap.1 hh
  unfold loadHeader at hp
  unfold memszBits
  split_ifs at hp ⊢ with htype huse
  · cases hp
    exact image.num_lt _ 8
  · cases hp
    exact image.num_lt _ 4

/-- In a list with one header of the kind it is found. -/
theorem find?_eq_some {kind : LoadHeader → Bool} {l : List LoadHeader}
    (hone : (l.filter kind).length ≤ 1) {h : LoadHeader} (hh : h ∈ l) (hkind : kind h = true) :
    l.find? kind = some h := by
  have hmem : h ∈ l.filter kind := List.mem_filter.2 ⟨hh, hkind⟩
  obtain ⟨h', hl⟩ := List.length_eq_one_iff.1 (le_antisymm hone (List.length_pos_of_mem hmem))
  rw [hl, List.mem_singleton] at hmem
  rw [← List.head?_filter, hl, hmem]
  rfl

/-- **Program headers are read from where the ELF header puts them**, and the parser reports what they
say, for these files and no others. -/
theorem readsHeaders_iff (hfile : file.Stores image) (hends : file.Ends image)
    (himage : image.HasHeaders) : ReadsHeaders file image ↔ image.Readable := by
  unfold FileImage.Readable
  by_cases hsize : image.size < 64
  · obtain ⟨hparse, hpositions⟩ := elfParseHeader_short hends hsize
    have hnone (elf : ElfInfo) : ¬ Reports file elf := by
      rintro ⟨r, hr, -⟩
      rw [hparse] at hr
      cases hr
    rw [if_pos hsize]
    constructor
    · exact fun h hacc => (h.success.2 hacc).elim hnone
    · refine fun hacc => ⟨fun i p h => ?_, ⟨fun ⟨elf, h⟩ => absurd h (hnone elf), fun h => absurd h hacc⟩,
        fun elf h => absurd h (hnone elf)⟩
      rw [hpositions] at h
      cases h
  rw [if_neg hsize]
  have htraced := elfParseHeaderTraced_snd hfile himage (by omega)
  obtain ⟨hinside, hint⟩ := himage.standard
  constructor
  · intro h
    have hstandard : image.phnum ≤ 1 ∨ image.phentsize = image.programHeaderSize := by
      by_contra hno
      obtain ⟨hmany, hother⟩ := not_or.1 hno
      obtain ⟨n, hn⟩ := Nat.exists_eq_add_of_le' (by omega : 2 ≤ image.phnum)
      rw [if_neg (by omega), hn] at htraced
      rw [hn] at hinside hint
      have hsecond := h.positions 1 _ (by
        rw [htraced]
        exact elfProgramHeadersTraced_second hfile hinside (by exact_mod_cast hint))
      push_cast at hsecond
      omega
    refine ⟨hstandard, fun hacc l hl => ?_⟩
    obtain ⟨-, hkept⟩ := reports_iff hfile himage (by omega) (image.loadHeaders_eq_headers hstandard)
    obtain ⟨elf, helf⟩ := h.success.2 hacc
    rw [← FileImage.keptSegment_eq_iff (image.memsz_lt hl)]
    obtain ⟨hrw, hro⟩ := hkept elf helf
    obtain ⟨hrw', hro'⟩ := h.fields elf helf
    cases hkind : l.writable with
    | true =>
        rw [hrw, find?_eq_some hacc.2.1 hl hkind] at hrw'
        exact hrw'
    | false =>
        rw [hro, find?_eq_some hacc.2.2 hl (by rw [hkind]; rfl)] at hro'
        exact hro'
  · rintro ⟨hstandard, hpages⟩
    obtain ⟨hsuccess, hkept⟩ := reports_iff hfile himage (by omega)
      (image.loadHeaders_eq_headers hstandard)
    have hfields {kind : LoadHeader → Bool} (hacc : image.Acceptable) :
        (image.headers.find? kind).elim ⟨0, 0, 0, 0⟩ image.keptSegment
          = (image.headers.find? kind).elim ⟨0, 0, 0, 0⟩ LoadHeader.fields := by
      cases hfind : image.headers.find? kind with
      | none => rfl
      | some l =>
          have hl := List.mem_of_find?_eq_some hfind
          exact (FileImage.keptSegment_eq_iff (image.memsz_lt hl)).2 (hpages hacc l hl)
    refine ⟨fun i p h => ?_, hsuccess, fun elf helf => ?_⟩
    · rw [htraced] at h
      split_ifs at h with hphnum
      · cases h
      · obtain ⟨hi, hp⟩ := elfProgramHeadersTraced_snd hfile _ hinside hint h
        rw [hp]
        rcases hstandard with hone | hsize
        · obtain rfl : i = 0 := by omega
          rw [Nat.cast_zero, zero_mul, zero_mul]
        · rw [hsize]
    · have hacc := hsuccess.1 ⟨elf, helf⟩
      obtain ⟨hrw, hro⟩ := hkept elf helf
      rw [hrw, hro]
      exact ⟨hfields hacc, hfields hacc⟩

end

/-! ## Two files -/

theorem FileImage.file_ends (image : FileImage) : image.file.Ends image := by
  intro size position hsize bytes hbytes
  simp only [FileImage.file] at hbytes
  split_ifs at hbytes with hout
  cases hbytes
  rw [image.length_slice, Int.toNat_natCast, Int.toNat_natCast]
  omega

/-- A 64-bit program header of a page with eight bytes at the start of the file. -/
def loadBytes (flags vaddr : ℕ) : List UInt8 :=
  leBytes 1 4 ++ leBytes flags 4 ++ leBytes 0 8 ++ leBytes vaddr 8 ++ leBytes vaddr 8 ++ leBytes 8 8 ++
    leBytes 4096 8 ++ leBytes 4096 8

/-- A 64-bit executable with a segment of each kind, and `phentsize` bytes for a program header. -/
def twoSegments (phentsize : ℕ) : FileImage where
  size := 64 + 2 * phentsize
  byte k :=
    ([0x7f, 0x45, 0x4c, 0x46, 2, 1, 1, 0, 0, 0, 0, 0, 0, 0, 0, 0] ++ leBytes 2 2 ++ leBytes 62 2 ++
      leBytes 1 4 ++ leBytes 0x401000 8 ++ leBytes 64 8 ++ leBytes 0 8 ++ leBytes 0 4 ++
      leBytes 64 2 ++ leBytes phentsize 2 ++ leBytes 2 2 ++ leBytes 0 6 ++ loadBytes 5 0x401000 ++
      List.replicate (phentsize - 56) 0 ++ loadBytes 6 0x402000).getD k 0

theorem twoSegments_hasHeaders :
    (twoSegments 56).HasHeaders ∧ (twoSegments 64).HasHeaders :=
  ⟨⟨by decide +kernel, by decide +kernel, by decide +kernel, by decide +kernel, by decide +kernel,
    by decide +kernel⟩, ⟨by decide +kernel, by decide +kernel, by decide +kernel, by decide +kernel,
    by decide +kernel, by decide +kernel⟩⟩

theorem twoSegments_headers :
    (twoSegments 56).headers = [⟨false, 0, 0x401000, 8, 4096⟩, ⟨true, 0, 0x402000, 8, 4096⟩] := by
  decide +kernel

theorem readsHeaders_iff_standard : ReadsHeaders (twoSegments 56).file (twoSegments 56) :=
  (readsHeaders_iff (FileImage.file_stores _) (FileImage.file_ends _) twoSegments_hasHeaders.1).2 <| by
    unfold FileImage.Readable
    rw [if_neg (by decide +kernel), twoSegments_headers]
    exact ⟨Or.inr (by decide +kernel), fun _ => by decide +kernel⟩

/-- Eight bytes more for a program header: the second one is looked for eight bytes too early. -/
theorem wideHeaders_misread :
    (twoSegments 64).HasHeaders ∧ ¬ ReadsHeaders (twoSegments 64).file (twoSegments 64) := by
  refine ⟨twoSegments_hasHeaders.2, fun h => ?_⟩
  have hsecond : (elfParseHeaderTraced (twoSegments 64).file).2[1]? = some 120 := by decide +kernel
  have hposition := h.positions 1 120 hsecond
  revert hposition
  decide +kernel

end Kudos
