import Kudos.Fs.Tfstool

set_option autoImplicit false

/-! # Names in the directory

The tool compares and copies names with `strncmp` and `strncpy`, which stop after 16 characters, and the
kernel with `stringcmp`, which goes on to the terminator: a name that fills its field is followed by the
inode number of the next entry. A new entry leaves the other entries, as both see them, alone. -/

namespace Kudos

open CInt Words

namespace Tfstool

/-! ## Names -/

/-- The string at byte `off` of a block, with at most `n` characters. -/
def cstring (b : Block) (off n : ℕ) : List UInt8 :=
  ((List.range n).map fun k => b.byte (off + k)).takeWhile (· ≠ 0)

/-- The name in entry `i` of the directory. -/
def entryName (md : Block) (i : ℕ) : List UInt8 := cstring md (nameOffset i) tfsFilenameMax

theorem cstring_succ (b : Block) (off n : ℕ) :
    cstring b off (n + 1) = if b.byte off = 0 then [] else b.byte off :: cstring b (off + 1) n := by
  have hshift : (fun k => b.byte (off + (k + 1))) = fun k => b.byte (off + 1 + k) := by
    funext k
    rw [Nat.add_assoc, Nat.add_comm 1 k]
  unfold cstring
  rw [List.range_succ_eq_map, List.map_cons, List.map_map, Nat.add_zero, List.takeWhile_cons]
  simp only [Function.comp_def, Nat.succ_eq_add_one, hshift, decide_eq_true_eq, ne_eq, ite_not]

theorem strncmpEq_iff {b : Block} {n : ℕ} {s : List UInt8} (hs : ∀ c ∈ s, c ≠ 0) (hn : s.length ≤ n)
    (off : ℕ) : strncmpEq b off n s = true ↔ cstring b off n = s := by
  induction n generalizing off s with
  | zero =>
      rw [List.eq_nil_of_length_eq_zero (Nat.le_zero.1 hn)]
      exact iff_of_true rfl rfl
  | succ n ih =>
      rw [cstring_succ, strncmpEq]
      cases s with
      | nil => simp
      | cons c s =>
          have hc : c ≠ 0 := hs c (List.mem_cons_self ..)
          have hrest := ih (fun x hx => hs x (List.mem_cons_of_mem _ hx))
            (by rw [List.length_cons] at hn; omega) (off + 1)
          simp only [Bool.and_eq_true, decide_eq_true_eq, Bool.or_eq_true]
          simp only [List.headD_cons, List.tail_cons, hc, false_or, hrest]
          constructor
          · rintro ⟨hbyte, htail⟩
            rw [if_neg (by rw [hbyte]; exact hc), hbyte, htail]
          · intro heq
            split at heq
            · cases heq
            · exact List.cons.inj heq

/-- A string that the kernel finds equal is equal for `strncmp`. -/
theorem strncmpEq_of_stringEq {b : Block} {s : List UInt8} {off : ℕ} (n : ℕ)
    (h : stringEq b off s = true) : strncmpEq b off n s = true := by
  induction s generalizing off n with
  | nil =>
      cases n with
      | zero => rfl
      | succ n =>
          have hbyte : b.byte off = 0 := by simpa [stringEq] using h
          simp [strncmpEq, hbyte]
  | cons c s ih =>
      cases n with
      | zero => rfl
      | succ n =>
          by_cases hc : c = 0
          · have hbyte : b.byte off = 0 := by simpa [stringEq, hc] using h
            simp [strncmpEq, hbyte, hc]
          · have hboth : b.byte off = c ∧ stringEq b (off + 1) s = true := by
              simpa [stringEq, hc] using h
            simp [strncmpEq, hboth.1, ih n hboth.2]

/-- And the other way round, if `strncmp` comes to the terminator. -/
theorem stringEq_of_strncmpEq {b : Block} {s : List UInt8} {off n : ℕ} (hn : s.length < n)
    (h : strncmpEq b off n s = true) : stringEq b off s = true := by
  induction s generalizing off n with
  | nil =>
      obtain ⟨n, rfl⟩ := Nat.exists_eq_succ_of_ne_zero (Nat.ne_of_gt hn)
      simpa [strncmpEq, stringEq] using h
  | cons c s ih =>
      obtain ⟨n, rfl⟩ := Nat.exists_eq_succ_of_ne_zero (Nat.ne_of_gt (Nat.zero_lt_of_lt hn))
      simp only [strncmpEq, Bool.and_eq_true, decide_eq_true_eq, Bool.or_eq_true] at h
      simp only [List.headD_cons, List.tail_cons] at h
      unfold stringEq
      split
      · next hc => exact decide_eq_true (h.1.trans hc)
      · next hc =>
          have hrest := ih (by rw [List.length_cons] at hn; omega) (h.2.resolve_left hc)
          simp [h.1, hrest]

/-- If `strncmp` comes to its limit at the end of the string, the kernel looks at one byte more. -/
theorem stringEq_of_strncmpEq_of_zero {b : Block} {s : List UInt8} {off n : ℕ} (hn : s.length ≤ n)
    (hzero : b.byte (off + s.length) = 0) (h : strncmpEq b off n s = true) :
    stringEq b off s = true := by
  induction s generalizing off n with
  | nil => exact decide_eq_true hzero
  | cons c s ih =>
      obtain ⟨n, rfl⟩ := Nat.exists_eq_succ_of_ne_zero (Nat.ne_of_gt (Nat.zero_lt_of_lt hn))
      simp only [strncmpEq, Bool.and_eq_true, decide_eq_true_eq, Bool.or_eq_true] at h
      simp only [List.headD_cons, List.tail_cons] at h
      rw [List.length_cons] at hn hzero
      unfold stringEq
      split
      · next hc => exact decide_eq_true (h.1.trans hc)
      · next hc =>
          have hrest := ih (by omega) (by rwa [show off + 1 + s.length = off + (s.length + 1) by omega])
            (h.2.resolve_left hc)
          simp [h.1, hrest]

theorem stringEq_congr {b b' : Block} {s : List UInt8} {off : ℕ}
    (h : ∀ k ≤ s.length, b'.byte (off + k) = b.byte (off + k)) :
    stringEq b' off s = stringEq b off s := by
  induction s generalizing off with
  | nil =>
      have hbyte := h 0 (Nat.zero_le _)
      rw [Nat.add_zero] at hbyte
      simp only [stringEq, hbyte]
  | cons c s ih =>
      have hbyte := h 0 (Nat.zero_le _)
      rw [Nat.add_zero] at hbyte
      have hrest : stringEq b' (off + 1) s = stringEq b (off + 1) s := ih fun k hk => by
        have := h (k + 1) (by rw [List.length_cons]; omega)
        rwa [show off + (k + 1) = off + 1 + k by omega] at this
      simp only [stringEq, hbyte, hrest]

theorem cstring_congr {b b' : Block} {off n : ℕ} (h : ∀ k < n, b'.byte (off + k) = b.byte (off + k)) :
    cstring b' off n = cstring b off n := by
  unfold cstring
  refine congrArg _ (List.map_congr_left fun k hk => ?_)
  exact h k (List.mem_range.1 hk)

/-! ## The new entry -/

theorem byte_strncpy {s : List UInt8} (hs : ∀ c ∈ s, c ≠ 0) {n : ℕ} (b : Block) {off : ℕ}
    (hoff : off + n ≤ 512) (m : ℕ) :
    (strncpy b off n s).byte m = if off ≤ m ∧ m < off + n then s.getD (m - off) 0 else b.byte m := by
  induction n generalizing b off s with
  | zero =>
      rw [if_neg (by omega)]
      rfl
  | succ n ih =>
      have htail : (if s.headD 0 = 0 then [] else s.tail) = s.tail := by
        cases s with
        | nil => rfl
        | cons c s => exact if_neg (hs c (List.mem_cons_self ..))
      have htail_ne : ∀ c ∈ s.tail, c ≠ 0 := fun c hc => hs c (List.mem_of_mem_tail hc)
      have hget : ∀ k, s.tail.getD k 0 = s.getD (k + 1) 0 := by
        intro k
        cases s with
        | nil => rfl
        | cons c s => rfl
      rw [strncpy, htail, ih htail_ne _ (by omega), Block.byte_setByte _ (by omega)]
      by_cases hm : m = off
      · subst hm
        rw [if_neg (by omega), if_pos rfl, if_pos ⟨le_refl m, by omega⟩, Nat.sub_self]
        cases s with
        | nil => rfl
        | cons c s => rfl
      · by_cases hin : off + 1 ≤ m ∧ m < off + 1 + n
        · rw [if_pos hin, if_pos ⟨by omega, by omega⟩, hget]
          congr 1
          omega
        · rw [if_neg hin, if_neg hm, if_neg (by omega)]

section

variable {md : Block} {index : ℕ} {inode : BitVec 32} {target : List UInt8}

/-- Entries have 20 bytes each, so a new entry changes nothing outside of it. -/
theorem byte_newEntry_other (htarget : ∀ c ∈ target, c ≠ 0) (hindex : index < tfsMaxFiles) {m : ℕ}
    (hm : m < 20 * index ∨ 20 * index + 20 ≤ m) :
    (newEntry md index inode target).byte m = md.byte m := by
  simp only [tfsMaxFiles] at hindex
  unfold newEntry
  rw [byte_strncpy htarget _ (by simp only [nameOffset, tfsFilenameMax]; omega),
    if_neg (by simp only [nameOffset, tfsFilenameMax]; omega),
    Block.byte_setWord_of_ne _ _ (by omega)]

theorem entryName_newEntry (htarget : ∀ c ∈ target, c ≠ 0) (hlen : target.length < tfsFilenameMax)
    (hindex : index < tfsMaxFiles) :
    entryName (newEntry md index inode target) index = target := by
  simp only [tfsMaxFiles] at hindex
  simp only [tfsFilenameMax] at hlen
  have hbyte : ∀ k < 16, (newEntry md index inode target).byte (nameOffset index + k)
      = target.getD k 0 := by
    intro k hk
    unfold newEntry
    rw [byte_strncpy htarget _ (by simp only [nameOffset, tfsFilenameMax]; omega),
      if_pos (by simp only [nameOffset, tfsFilenameMax]; omega), Nat.add_sub_cancel_left]
  have hsplit : (List.range 16).map (fun k => (newEntry md index inode target).byte
      (nameOffset index + k)) = target ++ List.replicate (16 - target.length) 0 := by
    refine List.ext_getElem (by simp; omega) fun k hk _ => ?_
    rw [List.length_map, List.length_range] at hk
    rw [List.getElem_map, List.getElem_range, hbyte k hk, List.getElem_append]
    split
    · next hlt => rw [List.getD_eq_getElem?_getD, List.getElem?_eq_getElem hlt, Option.getD_some]
    · next hge =>
        rw [List.getD_eq_getElem?_getD, List.getElem?_eq_none (by omega), List.getElem_replicate]
        rfl
  unfold entryName cstring
  rw [tfsFilenameMax, hsplit, List.takeWhile_append_of_pos (fun c hc => by simpa using htarget c hc)]
  rw [List.takeWhile_replicate_eq_filter]
  simp

theorem entryInode_newEntry (htarget : ∀ c ∈ target, c ≠ 0) (hindex : index < tfsMaxFiles) :
    entryInode .big (newEntry md index inode target) index = inode := by
  have hword : (newEntry md index inode target).word (5 * index) = .ofBE inode := by
    simp only [tfsMaxFiles] at hindex
    rw [← Block.word_setWord_self md (show 5 * index < 128 by omega) (.ofBE inode)]
    refine Block.word_ext_byte fun j hj => ?_
    unfold newEntry
    rw [byte_strncpy htarget _ (by simp only [nameOffset, tfsFilenameMax]; omega),
      if_neg (by simp only [nameOffset, tfsFilenameMax]; omega)]
  unfold entryInode rawInode
  rw [hword, fromBigEndian32_load, Word.toBE_ofBE]

/-- The other entries have the inodes they had. -/
theorem entryInode_newEntry_other (htarget : ∀ c ∈ target, c ≠ 0) (hindex : index < tfsMaxFiles)
    {i : ℕ} (hi : i ≠ index) :
    entryInode .big (newEntry md index inode target) i = entryInode .big md i := by
  have hword : (newEntry md index inode target).word (5 * i) = md.word (5 * i) :=
    Block.word_ext_byte fun j hj => byte_newEntry_other htarget hindex (by omega)
  unfold entryInode rawInode
  rw [hword]

/-- The first byte of a small inode number. -/
theorem byte_entryInode (md : Block) (i : ℕ) (h : (entryInode .big md i).toNat < 4096) :
    md.byte (20 * i) = 0 := by
  have hbyte : md.byte (20 * i) = (md.word (5 * i)).b0 := by
    unfold Block.byte
    rw [show 20 * i / 4 = 5 * i by omega, show 20 * i % 4 = 0 by omega]
    rfl
  unfold entryInode rawInode at h
  rw [fromBigEndian32_load] at h
  rw [hbyte]
  exact Word.b0_eq_zero (by omega)

/-- The other entries have the names they had, and the same byte behind them: the first byte of an
inode number, which is zero. -/
theorem byte_name_newEntry (htarget : ∀ c ∈ target, c ≠ 0) (hindex : index < tfsMaxFiles)
    (hfree : entryInode .big md index = 0) (hinode : inode.toNat < 4096) {i k : ℕ} (hi : i ≠ index)
    (hk : k ≤ tfsFilenameMax) :
    (newEntry md index inode target).byte (nameOffset i + k) = md.byte (nameOffset i + k) := by
  simp only [tfsFilenameMax] at hk
  by_cases hnext : nameOffset i + k = 20 * index
  · have hnew := byte_entryInode (newEntry md index inode target) index
      (by rw [entryInode_newEntry htarget hindex]; exact hinode)
    have hold := byte_entryInode md index (by rw [hfree]; decide)
    rw [hnext, hnew, hold]
  · refine byte_newEntry_other htarget hindex ?_
    simp only [nameOffset] at hnext ⊢
    omega

end

/-! ## Finding a file -/

theorem entryName_nonzero {md : Block} {i : ℕ} : ∀ c ∈ entryName md i, c ≠ 0 := by
  intro c hc
  simpa using List.all_eq_true.1 List.all_takeWhile c hc

theorem length_entryName_le (md : Block) (i : ℕ) : (entryName md i).length ≤ tfsFilenameMax := by
  have hle := (List.takeWhile_prefix (· ≠ 0)
    (l := (List.range tfsFilenameMax).map fun k => md.byte (nameOffset i + k))).length_le
  rw [List.length_map, List.length_range] at hle
  exact hle

section

variable {md : Block} {name : List UInt8} {j : ℕ}

theorem strncmpEq_iff_entryName (hname : ∀ c ∈ name, c ≠ 0) (hlen : name.length ≤ tfsFilenameMax)
    (i : ℕ) : strncmpEq md (nameOffset i) tfsFilenameMax name = true ↔ entryName md i = name :=
  strncmpEq_iff hname hlen (nameOffset i)

/-- The tool finds the first entry with a name. -/
theorem findEntry_of_first (hname : ∀ c ∈ name, c ≠ 0) (hlen : name.length ≤ tfsFilenameMax)
    (hj : j < tfsMaxFiles) (hat : entryName md j = name)
    (hbefore : ∀ i < j, entryName md i ≠ name) : findEntry md name = some j := by
  unfold findEntry
  rw [List.find?_range_eq_some]
  refine ⟨(strncmpEq_iff_entryName hname hlen j).2 hat, List.mem_range.2 hj, fun i hi => ?_⟩
  rw [Bool.not_eq_true', Bool.eq_false_iff, ne_eq, strncmpEq_iff_entryName hname hlen i]
  exact hbefore i hi

/-- Where the names differ, the kernel sees it. -/
theorem stringEq_eq_false (hname : ∀ c ∈ name, c ≠ 0) (hlen : name.length ≤ tfsFilenameMax)
    (hne : entryName md j ≠ name) : stringEq md (nameOffset j) name = false := by
  rw [Bool.eq_false_iff]
  intro heq
  exact hne ((strncmpEq_iff_entryName hname hlen j).1 (strncmpEq_of_stringEq tfsFilenameMax heq))

/-- The kernel finds the first entry with a name, if it sees the end of the name there. -/
theorem findName_of_first (hname : ∀ c ∈ name, c ≠ 0) (hlen : name.length ≤ tfsFilenameMax)
    (hj : j < tfsMaxFiles) (hat : stringEq md (nameOffset j) name = true)
    (hbefore : ∀ i < j, entryName md i ≠ name) : findName md name = some j := by
  unfold findName
  rw [List.find?_range_eq_some]
  refine ⟨hat, List.mem_range.2 hj, fun i hi => ?_⟩
  rw [stringEq_eq_false hname hlen (hbefore i hi)]
  rfl

/-- The last entry of the directory is the only one where it may not see it. -/
theorem findName_of_last (hname : ∀ c ∈ name, c ≠ 0) (hlen : name.length ≤ tfsFilenameMax)
    (hj : j + 1 = tfsMaxFiles) (hat : stringEq md (nameOffset j) name = false)
    (hbefore : ∀ i < j, entryName md i ≠ name) : findName md name = none := by
  unfold findName
  rw [List.find?_eq_none]
  intro i hi
  have hi := List.mem_range.1 hi
  by_cases hij : i = j
  · rw [hij, hat]
    decide
  · rw [stringEq_eq_false hname hlen (hbefore i (by omega))]
    decide

/-- For a name with a terminator the kernel finds what the tool finds. -/
theorem findName_eq_findEntry (hlen : name.length < tfsFilenameMax) :
    findName md name = findEntry md name :=
  find?_range_congr fun _ _ =>
    Bool.eq_iff_iff.2 ⟨strncmpEq_of_stringEq tfsFilenameMax, stringEq_of_strncmpEq hlen⟩

end

end Tfstool

end Kudos
