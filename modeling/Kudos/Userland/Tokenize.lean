import Kudos.Library.ByteMemory
import Kudos.Library.Runs

set_option autoImplicit false

/-! # Command lines

The two shells split the command line in its buffer, and return pointers into it. Both put a NUL behind
each word: `shell.c` in the place of all spaces, `oldshell.c` only in the place of the first. The indices
are numbers here. `shell.c` has `int` indices, which reach every character of a line of less than 2^31
bytes; its lines are in the heap of the process, which is smaller than that, and those of `oldshell.c` are
in a buffer on the stack, which it goes through with pointers. -/

namespace Kudos

open ByteMemory Runs

/-- A string in its buffer, and whatever lies behind the terminator. A pointer is an index. -/
structure CommandLine where
  buf : ℕ → UInt8
  length : ℕ
  nonzero : ∀ k < length, buf k ≠ 0
  terminated : buf length = 0

/-! ## `shell.c` -/

namespace Shell

/-- The loop over `j`: it replaces spaces by NULs. -/
def replaceSpaces : ℕ → (ℕ → UInt8) → ℕ → Option ((ℕ → UInt8) × ℕ)
  | 0, _, _ => none
  | k + 1, buf, j =>
      if buf j = ' '.toUInt8 then replaceSpaces k (Function.update buf j 0) (j + 1) else some (buf, j)

/-- The loop over `i`. -/
def tokenizeLoop : ℕ → (ℕ → UInt8) → ℕ → List (Option ℕ) → Option ((ℕ → UInt8) × List (Option ℕ))
  | 0, _, _, _ => none
  | k + 1, buf, i, tok =>
      if buf i = 0 then some (buf, tok)
      else
        match replaceSpaces (k + 1) buf i with
        | none => none
        | some (buf, j) =>
            if (j = 0 ∨ i < j) ∧ buf j ≠ 0 then tokenizeLoop k buf (j + 1) (tok ++ [some j])
            else tokenizeLoop k buf (i + 1) tok

/-- `tokenize`: the buffer, and the array of pointers with its NULL at the end. -/
def tokenize (k : ℕ) (buf : ℕ → UInt8) : Option ((ℕ → UInt8) × List (Option ℕ)) :=
  match tokenizeLoop k buf 0 [] with
  | none => none
  | some (buf, tok) => some (buf, tok ++ [none])

end Shell

/-! ## `oldshell.c` -/

namespace Oldshell

structure Scan where
  buf : ℕ → UInt8
  p : ℕ
  inword : Bool
  argv : List ℕ

/-- One round of the loop, at the character with index `s`. -/
def Scan.step (t : Scan) (s : ℕ) : Scan :=
  if t.buf s = ' '.toUInt8 ∧ t.inword = true then
    { t with inword := false, argv := t.argv ++ [t.p], buf := Function.update t.buf s 0 }
  else if t.buf s ≠ ' '.toUInt8 ∧ t.inword = false then
    { t with inword := true, p := s }
  else t

def tokenizeLoop : ℕ → Scan → ℕ → Option Scan
  | 0, _, _ => none
  | k + 1, t, s => if t.buf s = 0 then some t else tokenizeLoop k (t.step s) (s + 1)

/-- `tokenize`: the buffer and `argv`, up to `argc`. -/
def tokenize (k : ℕ) (cmdline : ℕ → UInt8) : Option ((ℕ → UInt8) × List ℕ) :=
  match tokenizeLoop k ⟨cmdline, 0, false, []⟩ 0 with
  | none => none
  | some t => some (t.buf, if t.inword then t.argv ++ [t.p] else t.argv)

end Oldshell

namespace CommandLine

variable (line : CommandLine)

/-! ## The words of a line -/

def NotSpace (k : ℕ) : Prop := line.buf k ≠ ' '.toUInt8

instance : DecidablePred line.NotSpace := fun k => inferInstanceAs (Decidable (line.buf k ≠ ' '.toUInt8))

/-- The characters from `a` up to `b`. -/
def wordAt (a b : ℕ) : List UInt8 := (List.range (b - a)).map fun k => line.buf (a + k)

/-- The pointers that both shells find. -/
def wordStarts : List ℕ := starts line.NotSpace line.length

/-- A shell that keeps the words and puts a NUL behind each has made strings of them. -/
theorem stringAt_wordAt {buf : ℕ → UInt8} (hkeep : ∀ k, line.NotSpace k → buf k = line.buf k)
    (hend : ∀ a b, IsRun line.NotSpace line.length a b → buf b = 0) {a b : ℕ}
    (hrun : IsRun line.NotSpace line.length a b) : StringAt buf a (line.wordAt a b) := by
  have hab := hrun.nonempty
  have hlength : (line.wordAt a b).length = b - a := by simp [wordAt]
  refine ⟨fun hmem => ?_, fun k hk => ?_, ?_⟩
  · obtain ⟨k, hk, hzero⟩ := List.mem_map.1 hmem
    have hk := List.mem_range.1 hk
    have hb := hrun.le
    exact line.nonzero (a + k) (by omega) hzero
  · rw [hlength] at hk
    rw [hkeep (a + k) (hrun.mem (a + k) (by omega) (by omega))]
    simp [wordAt]
  · rw [hlength, show a + (b - a) = b by omega]
    exact hend a b hrun

/-- The strings at the pointers are the words. -/
theorem forall₂_stringAt {buf : ℕ → UInt8} (hkeep : ∀ k, line.NotSpace k → buf k = line.buf k)
    (hend : ∀ a b, IsRun line.NotSpace line.length a b → buf b = 0) :
    List.Forall₂ (fun p r => StringAt buf p (line.wordAt r.1 r.2)) line.wordStarts
      (runs line.NotSpace line.length) := by
  unfold wordStarts runs
  rw [List.forall₂_map_right_iff, List.forall₂_same]
  intro a ha
  obtain ⟨hlt, hstart⟩ := mem_starts.1 ha
  exact line.stringAt_wordAt hkeep hend (isRun_runEnd hlt hstart)

/-! ## Bytes that are cleared

Both loops put NULs at some of the places they have passed. -/

section

variable {p : ℕ → Prop} [DecidablePred p] {f : ℕ → UInt8} {i : ℕ}

theorem update_cleared (h : p i) :
    Function.update (fun k => if k < i ∧ p k then 0 else f k) i 0
      = fun k => if k < i + 1 ∧ p k then 0 else f k := by
  funext k
  by_cases hk : k = i
  · rw [hk, Function.update_self, if_pos ⟨Nat.lt_succ_self i, h⟩]
  · have hiff : k < i + 1 ↔ k < i := by omega
    rw [Function.update_of_ne hk]
    simp only [hiff]

theorem cleared_succ (h : ¬p i) :
    (fun k => if k < i + 1 ∧ p k then 0 else f k) = fun k => if k < i ∧ p k then 0 else f k := by
  funext k
  by_cases hk : k = i
  · rw [hk, if_neg fun hi => h hi.2, if_neg fun hi => h hi.2]
  · have hiff : k < i + 1 ↔ k < i := by omega
    simp only [hiff]

end

/-! ## The loops of `shell.c` -/

/-- The buffer when all spaces in front of `i` have been replaced. -/
def replaced (i : ℕ) : ℕ → UInt8 := fun k =>
  if k < i ∧ line.buf k = ' '.toUInt8 then 0 else line.buf k

theorem replaced_of_le {i k : ℕ} (h : i ≤ k) : line.replaced i k = line.buf k :=
  if_neg fun hk => by omega

theorem replaced_of_notSpace {i k : ℕ} (h : line.NotSpace k) : line.replaced i k = line.buf k :=
  if_neg fun hk => h hk.2

theorem replaced_zero : line.replaced 0 = line.buf := funext fun k => line.replaced_of_le (Nat.zero_le k)

theorem update_replaced {i : ℕ} (h : line.buf i = ' '.toUInt8) :
    Function.update (line.replaced i) i 0 = line.replaced (i + 1) :=
  @update_cleared (fun k => line.buf k = ' '.toUInt8) _ line.buf i h

theorem replaced_succ {i : ℕ} (h : line.NotSpace i) : line.replaced (i + 1) = line.replaced i :=
  @cleared_succ (fun k => line.buf k = ' '.toUInt8) _ line.buf i h

theorem notSpace_length : line.NotSpace line.length := by
  unfold NotSpace
  rw [line.terminated]
  decide

/-- The loop over `j` ends at the next character that is not a space. -/
theorem replaceSpaces_eq {k i : ℕ} (hi : i ≤ line.length) (hk : line.length - i < k) :
    ∃ j, i ≤ j ∧ j ≤ line.length ∧ (∀ m, i ≤ m → m < j → ¬line.NotSpace m) ∧ line.NotSpace j ∧
      Shell.replaceSpaces k (line.replaced i) i = some (line.replaced j, j) := by
  induction k generalizing i with
  | zero => omega
  | succ k ih =>
      unfold Shell.replaceSpaces
      rw [line.replaced_of_le le_rfl]
      by_cases hspace : line.buf i = ' '.toUInt8
      · have hne : i ≠ line.length := by
          rintro rfl
          exact line.notSpace_length hspace
        obtain ⟨j, hij, hj, hbetween, hstop, heq⟩ := @ih (i + 1) (by omega) (by omega)
        refine ⟨j, by omega, hj, fun m him hmj => ?_, hstop, ?_⟩
        · by_cases hm : m = i
          · rw [hm]
            exact fun h => h hspace
          · exact hbetween m (by omega) hmj
        · rw [if_pos hspace, line.update_replaced hspace]
          exact heq
      · exact ⟨i, le_rfl, hi, fun m him hmi => by omega, hspace, if_neg hspace⟩

/-- What the loop over `i` returns: the line without spaces, and all pointers. -/
theorem shell_tokenizeLoop_eq {k i : ℕ} (hi : i ≤ line.length) (hk : line.length - i < k)
    (hinside : i = 0 ∨ line.NotSpace (i - 1)) :
    Shell.tokenizeLoop k (line.replaced i) i ((starts line.NotSpace i).map some)
      = some (line.replaced line.length, line.wordStarts.map some) := by
  induction k generalizing i with
  | zero => omega
  | succ k ih =>
      unfold Shell.tokenizeLoop
      by_cases hlast : i = line.length
      · rw [hlast, line.replaced_of_le le_rfl, if_pos line.terminated]
        rfl
      · rw [line.replaced_of_le le_rfl, if_neg (line.nonzero i (by omega))]
        obtain ⟨j, hij, hj, hbetween, hstop, heq⟩ := line.replaceSpaces_eq hi hk
        have hnone : starts line.NotSpace j = starts line.NotSpace i := starts_eq_of_not hij hbetween
        rw [heq]
        dsimp only
        rw [line.replaced_of_le le_rfl]
        by_cases hend : j = line.length
        · -- trailing spaces: the next character is the terminator, or a space that was replaced
          have hzero : line.replaced j (i + 1) = 0 := by
            by_cases hij : i + 1 < j
            · have hspace : line.buf (i + 1) = ' '.toUInt8 := not_not.1 (hbetween (i + 1) (by omega) hij)
              exact if_pos ⟨hij, hspace⟩
            · rw [show i + 1 = line.length by omega, line.replaced_of_le (by omega)]
              exact line.terminated
          rw [if_neg fun h => h.2 (hend ▸ line.terminated)]
          obtain ⟨k, rfl⟩ : ∃ k', k = k' + 1 := ⟨k - 1, by omega⟩
          unfold Shell.tokenizeLoop
          rw [if_pos hzero, ← hnone, hend]
          rfl
        · have hnext := @ih (j + 1) (by omega) (by omega) (Or.inr hstop)
          rw [line.replaced_succ hstop] at hnext
          by_cases hstart : j = 0 ∨ i < j
          · have hstarts : Starts line.NotSpace j := by
              refine ⟨hstop, ?_⟩
              rcases hstart with rfl | hlt
              · exact Or.inl rfl
              · exact Or.inr (hbetween (j - 1) (by omega) (by omega))
            rw [if_pos ⟨hstart, line.nonzero j (by omega)⟩]
            rw [starts_succ_of_starts hstarts, List.map_append, hnone] at hnext
            exact hnext
          · -- inside of a word
            obtain rfl : i = j := by omega
            have hnot : ¬Starts line.NotSpace i := fun h => by
              rcases h.2 with h0 | hspace
              · exact hstart (Or.inl h0)
              · rcases hinside with h0 | hword
                · exact hstart (Or.inl h0)
                · exact hspace hword
            rw [if_neg fun h => hstart h.1]
            rw [starts_succ_of_not hnot] at hnext
            exact hnext

theorem shell_tokenize_eq :
    Shell.tokenize (line.length + 1) line.buf
      = some (line.replaced line.length, line.wordStarts.map some ++ [none]) := by
  have hloop := @shell_tokenizeLoop_eq line (line.length + 1) 0 (Nat.zero_le _) (by omega) (Or.inl rfl)
  rw [line.replaced_zero] at hloop
  unfold Shell.tokenize
  rw [show ([] : List (Option ℕ)) = (starts line.NotSpace 0).map some from rfl, hloop]

theorem replaced_end {a b : ℕ} (h : IsRun line.NotSpace line.length a b) :
    line.replaced line.length b = 0 := by
  rcases h.right with rfl | hspace
  · rw [line.replaced_of_le le_rfl]
    exact line.terminated
  · have hle := h.le
    by_cases hb : b = line.length
    · rw [hb, line.replaced_of_le le_rfl]
      exact line.terminated
    · exact if_pos ⟨by omega, not_not.1 hspace⟩

/-! ## The loop of `oldshell.c` -/

/-- A space behind a word. -/
def EndsWord (k : ℕ) : Prop := ¬line.NotSpace k ∧ k ≠ 0 ∧ line.NotSpace (k - 1)

instance : DecidablePred line.EndsWord := fun k =>
  inferInstanceAs (Decidable (¬line.NotSpace k ∧ k ≠ 0 ∧ line.NotSpace (k - 1)))

/-- The buffer when all words in front of `s` have been ended. -/
def ended (s : ℕ) : ℕ → UInt8 := fun k => if k < s ∧ line.EndsWord k then 0 else line.buf k

theorem ended_of_le {s k : ℕ} (h : s ≤ k) : line.ended s k = line.buf k := if_neg fun hk => by omega

theorem ended_of_notSpace {s k : ℕ} (h : line.NotSpace k) : line.ended s k = line.buf k :=
  if_neg fun hk => hk.2.1 h

theorem update_ended {s : ℕ} (h : line.EndsWord s) :
    Function.update (line.ended s) s 0 = line.ended (s + 1) :=
  update_cleared h

theorem ended_succ {s : ℕ} (h : ¬line.EndsWord s) : line.ended (s + 1) = line.ended s :=
  cleared_succ h

/-- The scan in front of the character `s`: it is in a word if the character before is, and then the word
begins at `p`. -/
structure ScansTo (t : Oldshell.Scan) (s : ℕ) : Prop where
  buf : t.buf = line.ended s
  inword : t.inword = true ↔ s ≠ 0 ∧ line.NotSpace (s - 1)
  argv : (if t.inword then t.argv ++ [t.p] else t.argv) = starts line.NotSpace s

variable {line}

/-- One round of the loop. -/
theorem ScansTo.step {t : Oldshell.Scan} {s : ℕ} (h : line.ScansTo t s) : line.ScansTo (t.step s) (s + 1) := by
  have hbuf : t.buf s = line.buf s := by
    rw [h.buf]
    exact line.ended_of_le le_rfl
  have hargv := h.argv
  unfold Oldshell.Scan.step
  rw [hbuf]
  by_cases hspace : line.buf s = ' '.toUInt8
  · have hnot : ¬Starts line.NotSpace s := fun hs => hs.1 hspace
    have hprev : ¬(s + 1 ≠ 0 ∧ line.NotSpace (s + 1 - 1)) := fun hs => hs.2 hspace
    by_cases hin : t.inword = true
    · -- the end of a word
      have hends : line.EndsWord s := ⟨not_not.2 hspace, h.inword.1 hin⟩
      rw [if_pos hin] at hargv
      rw [if_pos ⟨hspace, hin⟩]
      refine ⟨?_, ⟨fun hfalse => (by cases hfalse), fun hs => absurd hs hprev⟩, ?_⟩
      · dsimp only
        rw [h.buf]
        exact line.update_ended hends
      · rw [starts_succ_of_not hnot]
        exact hargv
    · -- one more space
      have hnends : ¬line.EndsWord s := fun hs => hin (h.inword.2 hs.2)
      rw [if_neg fun hs => hin hs.2, if_neg fun hs => hs.1 hspace]
      refine ⟨?_, ⟨fun hs => absurd hs hin, fun hs => absurd hs hprev⟩, ?_⟩
      · rw [line.ended_succ hnends]
        exact h.buf
      · rw [starts_succ_of_not hnot]
        exact hargv
  · have hnends : ¬line.EndsWord s := fun hs => hs.1 hspace
    have hprev : s + 1 ≠ 0 ∧ line.NotSpace (s + 1 - 1) := ⟨Nat.succ_ne_zero s, hspace⟩
    by_cases hin : t.inword = true
    · -- inside of a word
      have hnot : ¬Starts line.NotSpace s := fun hs => by
        obtain ⟨hne, hword⟩ := h.inword.1 hin
        rcases hs.2 with h0 | hgap
        · exact hne h0
        · exact hgap hword
      rw [if_neg fun hs => hspace hs.1, if_neg fun hs => by rw [hin] at hs; cases hs.2]
      refine ⟨?_, ⟨fun _ => hprev, fun _ => hin⟩, ?_⟩
      · rw [line.ended_succ hnends]
        exact h.buf
      · rw [starts_succ_of_not hnot]
        exact hargv
    · -- the beginning of a word
      have hstarts : Starts line.NotSpace s := by
        refine ⟨hspace, ?_⟩
        by_cases h0 : s = 0
        · exact Or.inl h0
        · exact Or.inr fun hword => hin (h.inword.2 ⟨h0, hword⟩)
      rw [if_neg hin] at hargv
      rw [if_neg fun hs => hspace hs.1, if_pos ⟨hspace, by simpa using hin⟩]
      refine ⟨?_, ⟨fun _ => hprev, fun _ => rfl⟩, ?_⟩
      · rw [line.ended_succ hnends]
        exact h.buf
      · rw [starts_succ_of_starts hstarts, ← hargv]
        rfl

/-- The whole loop. -/
theorem ScansTo.tokenizeLoop {k s : ℕ} {t : Oldshell.Scan} (h : line.ScansTo t s) (hs : s ≤ line.length)
    (hk : line.length - s < k) :
    ∃ t', Oldshell.tokenizeLoop k t s = some t' ∧ line.ScansTo t' line.length := by
  induction k generalizing t s with
  | zero => omega
  | succ k ih =>
      unfold Oldshell.tokenizeLoop
      rw [h.buf, line.ended_of_le le_rfl]
      by_cases hlast : s = line.length
      · rw [hlast, if_pos line.terminated]
        exact ⟨t, rfl, hlast ▸ h⟩
      · rw [if_neg (line.nonzero s (by omega))]
        exact ih h.step (by omega) (by omega)

variable (line)

theorem oldshell_tokenize_eq :
    Oldshell.tokenize (line.length + 1) line.buf = some (line.ended line.length, line.wordStarts) := by
  have hinit : line.ScansTo ⟨line.buf, 0, false, []⟩ 0 :=
    ⟨funext fun k => (line.ended_of_le (Nat.zero_le k)).symm,
      ⟨fun hfalse => (by cases hfalse), fun h0 => absurd rfl h0.1⟩, rfl⟩
  obtain ⟨t, hloop, hscan⟩ := hinit.tokenizeLoop (Nat.zero_le _) (Nat.lt_succ_self line.length)
  unfold Oldshell.tokenize
  rw [hloop]
  dsimp only
  rw [hscan.buf, hscan.argv]
  rfl

theorem ended_end {a b : ℕ} (h : IsRun line.NotSpace line.length a b) : line.ended line.length b = 0 := by
  have hab := h.nonempty
  have hle := h.le
  by_cases hb : b = line.length
  · rw [hb, line.ended_of_le le_rfl]
    exact line.terminated
  · have hspace : ¬line.NotSpace b := h.right.resolve_left hb
    exact if_pos ⟨by omega, hspace, by omega, h.mem (b - 1) (by omega) (by omega)⟩

/-- **Both shells find the same words**: the maximal runs of characters that are not spaces, in order,
each with a terminator behind it. -/
theorem tokenize_words :
    ∃ (ptrs : List ℕ) (words : List (ℕ × ℕ)) (buf buf' : ℕ → UInt8),
      (∀ a b, (a, b) ∈ words ↔ IsRun line.NotSpace line.length a b) ∧
      (words.Pairwise fun r r' => r.2 < r'.1) ∧
      Shell.tokenize (line.length + 1) line.buf = some (buf, ptrs.map some ++ [none]) ∧
      Oldshell.tokenize (line.length + 1) line.buf = some (buf', ptrs) ∧
      List.Forall₂ (fun p r => StringAt buf p (line.wordAt r.1 r.2)) ptrs words ∧
      List.Forall₂ (fun p r => StringAt buf' p (line.wordAt r.1 r.2)) ptrs words :=
  ⟨line.wordStarts, runs line.NotSpace line.length, line.replaced line.length, line.ended line.length,
    fun _ _ => mem_runs, runs_pairwise _, line.shell_tokenize_eq, line.oldshell_tokenize_eq,
    line.forall₂_stringAt (fun _ => line.replaced_of_notSpace) fun _ _ => line.replaced_end,
    line.forall₂_stringAt (fun _ => line.ended_of_notSpace) fun _ _ => line.ended_end⟩

/-- The line `ls  a`, with two spaces. -/
def twoSpaces : CommandLine where
  buf k := ['l'.toUInt8, 's'.toUInt8, ' '.toUInt8, ' '.toUInt8, 'a'.toUInt8].getD k 0
  length := 5
  nonzero := by decide
  terminated := rfl

example : (Shell.tokenize 6 twoSpaces.buf).map Prod.snd = some [some 0, some 4, none] ∧
    (Oldshell.tokenize 6 twoSpaces.buf).map Prod.snd = some [0, 4] := by decide

end CommandLine

end Kudos
