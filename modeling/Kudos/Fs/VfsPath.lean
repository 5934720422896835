import Kudos.Fs.VfsMount
import Kudos.Library.ByteMemory

set_option autoImplicit false

/-! # Path names

What `vfs_parse_pathname` accepts, and what it writes to the buffers of its caller. A path name is a file
name, or a volume name in brackets and a file name. The loop over the volume name counts the `]`, so a
volume name of 15 characters, which `vfs_mount` takes, is in no path name. -/

namespace Kudos

open ByteMemory (CString)

/-! ## The buffers -/

/-- What `vfs_parse_pathname` returns, and the bytes that it writes to the two buffers, from their starts
on. -/
structure ParsedPathname where
  ret : ℤ
  volumebuf : List UInt8
  filenamebuf : List UInt8

/-- The loop over the volume name: the string behind the `]`, if the loop gets there, and the bytes
written. -/
def copyVolume : ℕ → List UInt8 → List UInt8 → Option (List UInt8) × List UInt8
  | 0, _, volumebuf => (none, volumebuf)
  | n + 1, pathname, volumebuf =>
      if pathname.headD 0 = 0 then (none, volumebuf)
      else if pathname.headD 0 = ']'.toUInt8 then (some pathname.tail, volumebuf)
      else copyVolume n pathname.tail (volumebuf ++ [pathname.headD 0])

/-- The loop over the file name. Its counter is the number of bytes that were written. -/
def copyFilename : ℕ → List UInt8 → List UInt8 → ℤ × List UInt8
  | 0, _, filenamebuf => (vfsError, filenamebuf)
  | n + 1, pathname, filenamebuf =>
      if pathname.headD 0 = 0 then
        (if filenamebuf.length = 0 then vfsError else vfsOk, filenamebuf ++ [pathname.headD 0])
      else copyFilename n pathname.tail (filenamebuf ++ [pathname.headD 0])

/-- `vfs_parse_pathname` with its buffers. -/
def parsePathnameInto (pathname : List UInt8) : ParsedPathname :=
  let (rest, volumebuf) :=
    if pathname.headD 0 = '['.toUInt8 then copyVolume (vfsNameLength - 1) pathname.tail []
    else (some pathname, [])
  match rest with
  | none => ⟨vfsError, volumebuf, []⟩
  | some rest =>
      let (ret, filenamebuf) := copyFilename vfsNameLength rest []
      ⟨ret, volumebuf ++ [0], filenamebuf⟩

theorem parseVolume_eq_copyVolume (n : ℕ) (pathname volumebuf : List UInt8) :
    parseVolume n pathname volumebuf = (copyVolume n pathname volumebuf).1.map
      fun rest => (rest, (copyVolume n pathname volumebuf).2) := by
  induction n generalizing pathname volumebuf with
  | zero => rfl
  | succ n ih =>
      unfold parseVolume copyVolume
      split
      · rfl
      · split
        · rfl
        · exact ih _ _

theorem parseFilename_eq_copyFilename (n : ℕ) (pathname filenamebuf : List UInt8) :
    parseFilename n pathname filenamebuf =
      if (copyFilename n pathname filenamebuf).1 = vfsOk
        then some (copyFilename n pathname filenamebuf).2.dropLast else none := by
  induction n generalizing pathname filenamebuf with
  | zero => rfl
  | succ n ih =>
      unfold parseFilename copyFilename
      by_cases hend : pathname.headD 0 = 0
      · rw [if_pos hend, if_pos hend, List.dropLast_concat]
        by_cases hempty : filenamebuf = []
        · rw [if_pos hempty, if_pos (List.length_eq_zero_iff.2 hempty)]
          rfl
        · rw [if_neg hempty, if_neg fun h => hempty (List.length_eq_zero_iff.1 h), if_pos rfl]
      · rw [if_neg hend, if_neg hend]
        exact ih _ _

/-- The names in the buffers are those that the operations go on with. -/
theorem vfsParsePathname_eq (pathname : List UInt8) :
    vfsParsePathname pathname =
      if (parsePathnameInto pathname).ret = vfsOk then
        some ((parsePathnameInto pathname).volumebuf.dropLast,
          (parsePathnameInto pathname).filenamebuf.dropLast)
      else none := by
  have hfile : ∀ rest volume : List UInt8,
      ((parseFilename vfsNameLength rest []).bind fun filename => some (volume, filename))
        = if (copyFilename vfsNameLength rest []).1 = vfsOk then
            some ((volume ++ [0]).dropLast, (copyFilename vfsNameLength rest []).2.dropLast)
          else none := by
    intro rest volume
    rw [parseFilename_eq_copyFilename, List.dropLast_concat]
    split <;> rfl
  unfold vfsParsePathname parsePathnameInto
  by_cases hbracket : pathname.headD 0 = '['.toUInt8
  · simp only [hbracket, if_true, parseVolume_eq_copyVolume]
    cases (copyVolume (vfsNameLength - 1) pathname.tail []).1 with
    | none => rfl
    | some rest => exact hfile rest _
  · simp only [hbracket, if_false]
    exact hfile pathname []

/-! ## The loops -/

section

variable {s : List UInt8}

/-- The loop over the file name copies the string with its terminator, if it fits. -/
theorem copyFilename_eq (hs : ∀ c ∈ s, c ≠ 0) (n : ℕ) (buf : List UInt8) :
    copyFilename n s buf =
      if s.length < n then (if buf ++ s = [] then vfsError else vfsOk, buf ++ s ++ [0])
      else (vfsError, buf ++ s.take n) := by
  induction s generalizing n buf with
  | nil =>
      cases n with
      | zero => simp [copyFilename]
      | succ n => simp [copyFilename, List.length_eq_zero_iff]
  | cons c s ih =>
      have hc : c ≠ 0 := hs c (List.mem_cons_self ..)
      cases n with
      | zero => simp [copyFilename]
      | succ n =>
          unfold copyFilename
          rw [List.headD_cons, List.tail_cons, if_neg hc,
            ih (fun x hx => hs x (List.mem_cons_of_mem _ hx))]
          simp only [List.length_cons, Nat.add_lt_add_iff_right, List.take_succ_cons,
            List.append_assoc, List.cons_append, List.nil_append]

/-- The loop over the volume name gets behind a `]` that comes early enough. -/
theorem copyVolume_append {v : List UInt8} (hv : ∀ c ∈ v, c ≠ 0) (hbracket : ']'.toUInt8 ∉ v) {n : ℕ}
    (hn : v.length < n) (rest buf : List UInt8) :
    copyVolume n (v ++ ']'.toUInt8 :: rest) buf = (some rest, buf ++ v) := by
  induction v generalizing n buf with
  | nil =>
      obtain ⟨n, rfl⟩ : ∃ m, n = m + 1 := ⟨n - 1, by rw [List.length_nil] at hn; omega⟩
      rw [List.append_nil]
      rfl
  | cons c v ih =>
      obtain ⟨n, rfl⟩ : ∃ m, n = m + 1 := ⟨n - 1, by rw [List.length_cons] at hn; omega⟩
      rw [List.length_cons] at hn
      rw [List.mem_cons, not_or] at hbracket
      unfold copyVolume
      rw [List.cons_append, List.headD_cons, List.tail_cons, if_neg (hv c (List.mem_cons_self ..)),
        if_neg fun h => hbracket.1 h.symm,
        ih (fun x hx => hv x (List.mem_cons_of_mem _ hx)) hbracket.2 (by omega),
        List.append_assoc, List.singleton_append]

/-- It gets behind no other. -/
theorem copyVolume_eq_some {n : ℕ} {rest bytes buf : List UInt8} (hs : ∀ c ∈ s, c ≠ 0)
    (h : copyVolume n s buf = (some rest, bytes)) :
    ∃ v, s = v ++ ']'.toUInt8 :: rest ∧ ']'.toUInt8 ∉ v ∧ v.length < n := by
  induction n generalizing s buf with
  | zero => cases h
  | succ n ih =>
      cases s with
      | nil => cases h
      | cons c s =>
          unfold copyVolume at h
          rw [List.headD_cons, List.tail_cons, if_neg (hs c (List.mem_cons_self ..))] at h
          by_cases hc : c = ']'.toUInt8
          · rw [if_pos hc] at h
            cases h
            exact ⟨[], by rw [hc, List.nil_append], List.not_mem_nil, Nat.succ_pos n⟩
          · rw [if_neg hc] at h
            obtain ⟨v, rfl, hbracket, hlen⟩ := ih (fun x hx => hs x (List.mem_cons_of_mem _ hx)) h
            refine ⟨c :: v, rfl, ?_, by rw [List.length_cons]; omega⟩
            rw [List.mem_cons, not_or]
            exact ⟨fun heq => hc heq.symm, hbracket⟩

theorem length_copyVolume (n : ℕ) (buf : List UInt8) :
    (copyVolume n s buf).2.length ≤ buf.length + n := by
  induction n generalizing s buf with
  | zero => exact Nat.le_refl _
  | succ n ih =>
      unfold copyVolume
      split
      · exact Nat.le_add_right ..
      · split
        · exact Nat.le_add_right ..
        · have hrest := @ih s.tail (buf ++ [s.headD 0])
          rw [List.length_append, List.length_singleton] at hrest
          omega

theorem length_copyFilename (n : ℕ) (buf : List UInt8) :
    (copyFilename n s buf).2.length ≤ buf.length + n := by
  induction n generalizing s buf with
  | zero => exact Nat.le_refl _
  | succ n ih =>
      unfold copyFilename
      split
      · show (buf ++ [s.headD 0]).length ≤ _
        rw [List.length_append, List.length_singleton]
        omega
      · have hrest := @ih s.tail (buf ++ [s.headD 0])
        rw [List.length_append, List.length_singleton] at hrest
        omega

end

/-! ## The grammar -/

/-- `pathname` is `[volumename]filename` with a volume name of at most `limit` characters, or it is a
file name alone. -/
structure IsPath (limit : ℕ) (pathname volumename filename : List UInt8) : Prop where
  filename_length : 1 ≤ filename.length ∧ filename.length ≤ 15
  form : (pathname = '['.toUInt8 :: (volumename ++ ']'.toUInt8 :: filename) ∧
      volumename.length ≤ limit ∧ ']'.toUInt8 ∉ volumename) ∨
    (pathname = filename ∧ volumename = [] ∧ filename.headD 0 ≠ '['.toUInt8)

/-- The call accepts the path names with volume names of at most `limit` characters, finds the names in
them, and stays inside its buffers. -/
structure AcceptsPaths (limit : ℕ) (pathname : List UInt8) : Prop where
  ret_iff : (parsePathnameInto pathname).ret = vfsOk ↔
    ∃ volumename filename, IsPath limit pathname volumename filename
  buffers : ∀ volumename filename, IsPath limit pathname volumename filename →
    (parsePathnameInto pathname).volumebuf = volumename ++ [0] ∧
      (parsePathnameInto pathname).filenamebuf = filename ++ [0]
  volumebuf_length : (parsePathnameInto pathname).volumebuf.length ≤ vfsNameLength
  filenamebuf_length : (parsePathnameInto pathname).filenamebuf.length ≤ vfsNameLength

section

variable {pathname volumename volumename' filename filename' : List UInt8} {limit limit' : ℕ}

/-- What is in front of the first `]` is the volume name. -/
theorem append_bracket_inj (hv : ']'.toUInt8 ∉ volumename) (hv' : ']'.toUInt8 ∉ volumename')
    (h : volumename ++ ']'.toUInt8 :: filename = volumename' ++ ']'.toUInt8 :: filename') :
    volumename = volumename' ∧ filename = filename' := by
  induction volumename generalizing volumename' with
  | nil =>
      cases volumename' with
      | nil => exact ⟨rfl, (List.cons.inj h).2⟩
      | cons c v' => exact absurd (List.mem_cons.2 (Or.inl (List.cons.inj h).1)) hv'
  | cons c v ih =>
      cases volumename' with
      | nil => exact absurd (List.mem_cons.2 (Or.inl (List.cons.inj h).1.symm)) hv
      | cons c' v' =>
          rw [List.mem_cons, not_or] at hv hv'
          obtain ⟨rfl, hrest⟩ := List.cons.inj h
          obtain ⟨rfl, rfl⟩ := ih hv.2 hv'.2 hrest
          exact ⟨rfl, rfl⟩

/-- A path name has one reading. -/
theorem IsPath.unique (h : IsPath limit pathname volumename filename)
    (h' : IsPath limit' pathname volumename' filename') :
    volumename = volumename' ∧ filename = filename' := by
  rcases h.form with ⟨hform, -, hv⟩ | ⟨hform, hv, hhead⟩
  · rcases h'.form with ⟨hform', -, hv'⟩ | ⟨hform', -, hhead'⟩
    · rw [hform] at hform'
      exact append_bracket_inj hv hv' (List.cons.inj hform').2
    · rw [← hform', hform] at hhead'
      exact absurd rfl hhead'
  · rcases h'.form with ⟨hform', -, -⟩ | ⟨hform', hv', -⟩
    · rw [← hform, hform'] at hhead
      exact absurd rfl hhead
    · rw [hv, hv', ← hform, ← hform']
      exact ⟨rfl, rfl⟩

/-- A longer volume name may be needed. -/
theorem IsPath.of_length (h : IsPath limit pathname volumename filename)
    (hlimit : volumename.length ≤ limit') : IsPath limit' pathname volumename filename :=
  ⟨h.filename_length, h.form.imp_left fun hform => ⟨hform.1, hlimit, hform.2.2⟩⟩

end

/-- A file name is accepted if it fits with its terminator. -/
theorem copyFilename_ok_iff {s : List UInt8} (hs : ∀ c ∈ s, c ≠ 0) :
    (copyFilename vfsNameLength s []).1 = vfsOk ↔ 1 ≤ s.length ∧ s.length ≤ 15 := by
  have hval : vfsNameLength = 16 := rfl
  have herror : vfsError ≠ vfsOk := by decide
  rw [copyFilename_eq hs, List.nil_append]
  by_cases hlen : s.length < vfsNameLength
  · rw [if_pos hlen]
    by_cases hempty : s = []
    · rw [if_pos hempty]
      refine iff_of_false herror fun h => ?_
      rw [hempty] at h
      exact absurd h.1 (by decide)
    · rw [if_neg hempty]
      have hpos := List.length_pos_iff.2 hempty
      exact iff_of_true rfl ⟨hpos, by omega⟩
  · rw [if_neg hlen]
    exact iff_of_false herror fun h => hlen (by omega)

theorem copyFilename_bytes {s : List UInt8} (hs : ∀ c ∈ s, c ≠ 0) (hlen : s.length ≤ 15) :
    (copyFilename vfsNameLength s []).2 = s ++ [0] := by
  have hlt : s.length < vfsNameLength := Nat.lt_succ_of_le hlen
  rw [copyFilename_eq hs, if_pos hlt, List.nil_append]

/-- Without a bracket the path name is the file name. -/
theorem parsePathnameInto_plain {s : List UInt8} (h : s.headD 0 ≠ '['.toUInt8) :
    parsePathnameInto s = ⟨(copyFilename vfsNameLength s []).1, [0],
      (copyFilename vfsNameLength s []).2⟩ := by
  unfold parsePathnameInto
  rw [if_neg h]
  rfl

/-- With one, the file name is behind the volume name. -/
theorem parsePathnameInto_bracket {v f : List UInt8} (hv : ∀ c ∈ v, c ≠ 0)
    (hbracket : ']'.toUInt8 ∉ v) (hlen : v.length ≤ 14) :
    parsePathnameInto ('['.toUInt8 :: (v ++ ']'.toUInt8 :: f))
      = ⟨(copyFilename vfsNameLength f []).1, v ++ [0], (copyFilename vfsNameLength f []).2⟩ := by
  have hcopy := copyVolume_append hv hbracket (Nat.lt_succ_of_le hlen) f []
  unfold parsePathnameInto
  rw [List.headD_cons, if_pos rfl, List.tail_cons, show vfsNameLength - 1 = 15 from rfl, hcopy]
  rfl

section

variable {s : List UInt8}

/-- What `vfs_parse_pathname` returns for a path name that is in the grammar. -/
theorem IsPath.parse {v f : List UInt8} (hs : ∀ c ∈ s, c ≠ 0) (h : IsPath 14 s v f) :
    parsePathnameInto s = ⟨vfsOk, v ++ [0], f ++ [0]⟩ := by
  rcases h.form with ⟨rfl, hlen, hbracket⟩ | ⟨rfl, rfl, hhead⟩
  · have hv : ∀ c ∈ v, c ≠ 0 := fun c hc =>
      hs c (List.mem_cons_of_mem _ (List.mem_append_left _ hc))
    have hf : ∀ c ∈ f, c ≠ 0 := fun c hc =>
      hs c (List.mem_cons_of_mem _ (List.mem_append_right _ (List.mem_cons_of_mem _ hc)))
    rw [parsePathnameInto_bracket hv hbracket hlen, (copyFilename_ok_iff hf).2 h.filename_length,
      copyFilename_bytes hf h.filename_length.2]
  · rw [parsePathnameInto_plain hhead, (copyFilename_ok_iff hs).2 h.filename_length,
      copyFilename_bytes hs h.filename_length.2]
    rfl

/-- What it accepts is in the grammar. -/
theorem isPath_of_ok (hs : ∀ c ∈ s, c ≠ 0) (hok : (parsePathnameInto s).ret = vfsOk) :
    ∃ v f, IsPath 14 s v f := by
  by_cases hhead : s.headD 0 = '['.toUInt8
  · cases s with
    | nil => exact absurd hhead (by decide)
    | cons c t =>
        have hc : c = '['.toUInt8 := hhead
        have ht : ∀ c ∈ t, c ≠ 0 := fun c hc => hs c (List.mem_cons_of_mem _ hc)
        unfold parsePathnameInto at hok
        rw [if_pos hhead, List.tail_cons] at hok
        cases hcopy : copyVolume (vfsNameLength - 1) t [] with
        | mk found bytes =>
            rw [hcopy] at hok
            cases found with
            | none =>
                have herror : vfsError = vfsOk := hok
                exact absurd herror (by decide)
            | some rest =>
                obtain ⟨v, rfl, hbracket, hlen⟩ := copyVolume_eq_some ht hcopy
                have hrest : ∀ c ∈ rest, c ≠ 0 := fun c hc =>
                  ht c (List.mem_append_right _ (List.mem_cons_of_mem _ hc))
                refine ⟨v, rest, (copyFilename_ok_iff hrest).1 hok,
                  Or.inl ⟨by rw [hc], ?_, hbracket⟩⟩
                exact Nat.le_of_lt_succ hlen
  · rw [parsePathnameInto_plain hhead] at hok
    exact ⟨[], s, (copyFilename_ok_iff hs).1 hok, Or.inr ⟨rfl, rfl, hhead⟩⟩

/-- The buffers of the caller are large enough. -/
theorem parsePathnameInto_length (s : List UInt8) :
    (parsePathnameInto s).volumebuf.length ≤ vfsNameLength ∧
      (parsePathnameInto s).filenamebuf.length ≤ vfsNameLength := by
  have hfile : ∀ rest : List UInt8, (copyFilename vfsNameLength rest []).2.length ≤ vfsNameLength :=
    fun rest => by simpa using @length_copyFilename rest vfsNameLength []
  by_cases hhead : s.headD 0 = '['.toUInt8
  · have hvolume := @length_copyVolume s.tail (vfsNameLength - 1) []
    unfold parsePathnameInto
    rw [if_pos hhead]
    cases hcopy : copyVolume (vfsNameLength - 1) s.tail [] with
    | mk found bytes =>
        rw [hcopy, List.length_nil, Nat.zero_add] at hvolume
        cases found with
        | none => exact ⟨Nat.le_succ_of_le hvolume, Nat.zero_le _⟩
        | some rest =>
            refine ⟨?_, hfile rest⟩
            show (bytes ++ [0]).length ≤ vfsNameLength
            rw [List.length_append, List.length_singleton]
            exact Nat.succ_le_succ hvolume
  · rw [parsePathnameInto_plain hhead]
    exact ⟨Nat.le_add_left 1 15, hfile s⟩

end

/-- The path names that are accepted have volume names of at most 14 characters. -/
theorem acceptsPaths_fourteen (s : CString) : AcceptsPaths 14 s.chars where
  ret_iff := by
    refine ⟨isPath_of_ok s.nonzero, ?_⟩
    rintro ⟨v, f, h⟩
    rw [h.parse s.nonzero]
  buffers v f h := by
    rw [h.parse s.nonzero]
    exact ⟨rfl, rfl⟩
  volumebuf_length := (parsePathnameInto_length s.chars).1
  filenamebuf_length := (parsePathnameInto_length s.chars).2

/-- The string has a volume name of 15 characters in front of a file name. -/
def HasFifteen (pathname : List UInt8) : Prop :=
  ∃ volumename filename, IsPath 15 pathname volumename filename ∧ volumename.length = 15

/-- Such a string is rejected. -/
theorem HasFifteen.not_accepted {s : CString} (h : HasFifteen s.chars) :
    (parsePathnameInto s.chars).ret ≠ vfsOk := by
  obtain ⟨v, f, hpath, hlen⟩ := h
  intro hok
  obtain ⟨v', f', hpath'⟩ := (acceptsPaths_fourteen s).ret_iff.1 hok
  obtain ⟨rfl, rfl⟩ := hpath.unique hpath'
  rcases hpath'.form with ⟨-, hle, -⟩ | ⟨-, hnil, -⟩
  · omega
  · rw [hnil] at hlen
    exact absurd hlen (by decide)

/-- No operation gets a longer volume name. -/
theorem volumename_length_le_of_cstring (s : CString) {volumename filename : List UInt8}
    (h : vfsParsePathname s.chars = some (volumename, filename)) : volumename.length ≤ 14 := by
  rw [vfsParsePathname_eq] at h
  split at h
  · next hok =>
      obtain ⟨v, f, hpath⟩ := isPath_of_ok s.nonzero hok
      rw [hpath.parse s.nonzero, List.dropLast_concat] at h
      obtain rfl : v = volumename := congrArg Prod.fst (Option.some.inj h)
      rcases hpath.form with ⟨-, hle, -⟩ | ⟨-, rfl, -⟩
      · exact hle
      · exact Nat.zero_le _
  · cases h

/-- **The grammar of path names.** With volume names of up to 15 characters it is met exactly by the
strings whose volume name does not have 15. So a volume can be named in a path unless its name has. -/
theorem vfsParsePathname_exact (s : CString) (name : List UInt8) :
    (AcceptsPaths 15 s.chars ↔ ¬ HasFifteen s.chars) ∧
    (IsMountName name → ']'.toUInt8 ∉ name →
      ((∃ s : CString, ∃ filename, vfsParsePathname s.chars = some (name, filename)) ↔
        name.length ≠ 15)) := by
  constructor
  · have hfourteen := acceptsPaths_fourteen s
    constructor
    · intro haccepts hfifteen
      have hreject := hfifteen.not_accepted
      obtain ⟨v, f, hpath, -⟩ := hfifteen
      exact hreject (haccepts.ret_iff.2 ⟨v, f, hpath⟩)
    · intro hnot
      have hshort : ∀ v f, IsPath 15 s.chars v f → IsPath 14 s.chars v f := by
        intro v f hpath
        refine hpath.of_length ?_
        by_contra hlong
        refine hnot ⟨v, f, hpath, ?_⟩
        rcases hpath.form with ⟨-, hle, -⟩ | ⟨-, rfl, -⟩
        · omega
        · exact absurd (Nat.zero_le 14) hlong
      refine ⟨hfourteen.ret_iff.trans ⟨?_, ?_⟩, fun v f hpath => hfourteen.buffers v f (hshort v f hpath),
        hfourteen.volumebuf_length, hfourteen.filenamebuf_length⟩
      · rintro ⟨v, f, hpath⟩
        refine ⟨v, f, hpath.of_length ?_⟩
        rcases hpath.form with ⟨-, hle, -⟩ | ⟨-, rfl, -⟩
        · omega
        · exact Nat.zero_le _
      · rintro ⟨v, f, hpath⟩
        exact ⟨v, f, hshort v f hpath⟩
  · intro hname hbracket
    constructor
    · rintro ⟨s, filename, hparse⟩ hlen
      have hle := volumename_length_le_of_cstring s hparse
      omega
    · intro hlen
      have hval : vfsNameLength = 16 := rfl
      have hlt := hname.2.1
      -- any file name will do
      have hnonzero : ∀ c ∈ '['.toUInt8 :: (name ++ [']'.toUInt8, 97]), c ≠ 0 := by
        intro c hc
        rcases List.mem_cons.1 hc with rfl | hc
        · decide
        · rcases List.mem_append.1 hc with hc | hc
          · exact hname.2.2 c hc
          · rcases List.mem_cons.1 hc with rfl | hc
            · decide
            · rw [List.mem_singleton.1 hc]
              decide
      have hpath : IsPath 14 ('['.toUInt8 :: (name ++ [']'.toUInt8, 97])) name [97] :=
        ⟨⟨by decide, by decide⟩, Or.inl ⟨rfl, by omega, hbracket⟩⟩
      refine ⟨⟨_, hnonzero⟩, [97], ?_⟩
      rw [vfsParsePathname_eq, hpath.parse hnonzero, if_pos rfl, List.dropLast_concat,
        List.dropLast_concat]

/-- The path name `[v]a`, and the volume name `v`. -/
theorem vfsParsePathname_exact_short :
    AcceptsPaths 15 ['['.toUInt8, 118, ']'.toUInt8, 97] ∧
    ∃ s : CString, ∃ filename, vfsParsePathname s.chars = some ([118], filename) := by
  obtain ⟨hpaths, hnames⟩ :=
    vfsParsePathname_exact ⟨['['.toUInt8, 118, ']'.toUInt8, 97], by simp; decide⟩ [118]
  constructor
  · refine hpaths.2 ?_
    rintro ⟨v, f, hpath, hlen⟩
    have hshort : IsPath 15 ['['.toUInt8, 118, ']'.toUInt8, 97] [118] [97] :=
      ⟨⟨by decide, by decide⟩, Or.inl ⟨rfl, by decide, by decide⟩⟩
    rw [(hpath.unique hshort).1] at hlen
    exact absurd hlen (by decide)
  · exact (hnames ⟨by decide, by decide, by simp⟩ (by decide)).2 (by decide)

/-- Fifteen times the letter `a`. -/
def fifteenName : List UInt8 := List.replicate 15 97

theorem isMountName_fifteenName : IsMountName fifteenName :=
  ⟨by decide, by decide, fun _ hc => by simp [(List.mem_replicate.1 hc).2]⟩

/-- The path name of the file `b` on a volume with this name. -/
def fifteenPath : CString where
  chars := '['.toUInt8 :: (fifteenName ++ [']'.toUInt8, 98])
  nonzero := by
    unfold fifteenName
    simp
    decide

/-- It is rejected, although `vfs_mount` takes the name; no path name leads to the volume. -/
theorem fifteenPath_rejected :
    ¬ AcceptsPaths 15 fifteenPath.chars ∧ IsMountName fifteenName ∧ ']'.toUInt8 ∉ fifteenName ∧
    ∀ s : CString, ∀ filename, vfsParsePathname s.chars ≠ some (fifteenName, filename) := by
  have hpath : IsPath 15 fifteenPath.chars fifteenName [98] :=
    ⟨⟨by decide, by decide⟩, Or.inl ⟨rfl, by decide, by decide⟩⟩
  have hfifteen : HasFifteen fifteenPath.chars := ⟨_, _, hpath, rfl⟩
  refine ⟨fun h => ?_, isMountName_fifteenName, by decide, fun s filename hparse => ?_⟩
  · exact hfifteen.not_accepted (h.ret_iff.2 ⟨_, _, hpath⟩)
  · exact absurd (volumename_length_le_of_cstring s hparse) (by decide)

end Kudos
