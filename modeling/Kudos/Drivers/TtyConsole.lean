import Kudos.Library.Terminal
import Mathlib.Data.List.TakeWhile

set_option autoImplicit false

/-! # The console of the x86_64 kernel

`tty_write` of `drivers/x86_64/tty.c` puts characters into the video memory. It makes the video memory a
terminal with 25 lines of 80 columns (`ttyWrite_terminal`), which gets the characters of each call up to
the first NUL. -/

namespace Kudos.Console

open Terminal

/-- `VIDEO_MEMORY_COLUMNS`. -/
def videoMemoryColumns : ℕ := 80

/-- `VIDEO_MEMORY_ROWS`. -/
def videoMemoryRows : ℕ := 25

/-- `t_attrib`: `COLOR_WHITE` in the upper byte. -/
def tAttrib : UInt16 := (0x0F : UInt16) <<< (8 : UInt16)

/-- The cursor of a `tty_t`, and the cells of the video memory. -/
structure Tty where
  cursorX : ℕ
  cursorY : ℕ
  video : ℕ → UInt16

/-- A store to a cell. The error is the index of a cell outside of the video memory. -/
def Tty.store (s : Tty) (i : ℕ) (v : UInt16) : Except ℕ Tty :=
  if i < videoMemoryRows * videoMemoryColumns then
    return { s with video := Function.update s.video i v }
  else throw i

/-! ## `tty_write` -/

/-- The loop that moves the lines up, over `n` cells from `i` on. -/
def moveLines : ℕ → ℕ → Tty → Except ℕ Tty
  | 0, _, s => return s
  | n + 1, i, s => do
      let s ← s.store i (s.video (i + videoMemoryColumns))
      moveLines n (i + 1) s

/-- The loop that clears the last line, over `n` cells from `i` on. -/
def clearLine : ℕ → ℕ → Tty → Except ℕ Tty
  | 0, _, s => return s
  | n + 1, i, s => do
      let s ← s.store i (0x20 ||| tAttrib)
      clearLine n (i + 1) s

/-- The body of the loop of `tty_write` up to the checks. -/
def putChar (s : Tty) (c : UInt8) : Except ℕ Tty := do
  let vptr := s.cursorY * videoMemoryColumns + s.cursorX
  if c = 8 then
    if s.cursorX ≠ 0 then
      Tty.store { s with cursorX := s.cursorX - 1 } (vptr - 1) (0x20 ||| tAttrib)
    else return s
  else if c = 13 then return { s with cursorX := 0 }
  else if c = 10 then return { s with cursorX := 0, cursorY := s.cursorY + 1 }
  else
    let s ← s.store vptr (tAttrib ||| c.toUInt16)
    return { s with cursorX := s.cursorX + 1 }

/-- The check of the column. -/
def wrapLine (s : Tty) : Tty :=
  if videoMemoryColumns ≤ s.cursorX then { s with cursorX := 0, cursorY := s.cursorY + 1 } else s

/-- The check of the line. -/
def scroll (s : Tty) : Except ℕ Tty :=
  if videoMemoryRows ≤ s.cursorY then do
    let s ← moveLines ((videoMemoryRows - 1) * videoMemoryColumns) 0 s
    let s ← clearLine videoMemoryColumns ((videoMemoryRows - 1) * videoMemoryColumns) s
    return { s with cursorX := 0, cursorY := s.cursorY - 1 }
  else return s

/-- The loop of `tty_write`. -/
def writeLoop : List UInt8 → Tty → Except ℕ Tty
  | [], s => return s
  | c :: str, s => do
      if c = 0 then return s
      let s ← putChar s c
      let s ← scroll (wrapLine s)
      writeLoop str s

/-- What `tty_write` returns, with what it sends to the ports of the hardware cursor. -/
structure Written where
  ret : ℕ
  ports : List (ℕ × UInt8)
  tty : Tty

/-- `tty_write`, for a buffer of `len` bytes. -/
def ttyWrite (buf : List UInt8) (s : Tty) : Except ℕ Written := do
  let s ← writeLoop buf s
  let cursorLoc := UInt16.ofNat (s.cursorY * videoMemoryColumns + s.cursorX)
  let ports : List (ℕ × UInt8) :=
    [(0x3D4, 14), (0x3D5, (cursorLoc >>> 8).toUInt8), (0x3D4, 15), (0x3D5, cursorLoc.toUInt8)]
  return ⟨buf.length, ports, s⟩

/-- A sequence of calls. -/
def ttyCalls : List (List UInt8) → Tty → Except ℕ Tty
  | [], s => return s
  | buf :: calls, s => do
      let w ← ttyWrite buf s
      ttyCalls calls w.tty

/-! ## The reference terminal -/

abbrev Screen := Term videoMemoryRows videoMemoryColumns UInt16

/-- A white character. -/
def glyph (c : UInt8) : UInt16 := tAttrib ||| c.toUInt16

def blank : UInt16 := glyph 0x20

/-- A character on the reference terminal. NUL does nothing. -/
def receive (t : Screen) (c : UInt8) : Screen :=
  if c = 0 then t
  else if c = 8 then t.backspace blank
  else if c = 10 then t.newline blank
  else if c = 13 then t.carriageReturn
  else t.write blank (glyph c)

/-- The terminal with the contents of the video memory and the cursor at (0, 0). -/
def startScreen (video : ℕ → UInt16) : Screen where
  x := 0
  y := 0
  cell r c := video (r * videoMemoryColumns + c)
  x_lt := by decide
  y_lt := by decide

/-- The console shows what is on the terminal. -/
structure Shows (s : Tty) (t : Screen) : Prop where
  x : s.cursorX = t.x
  y : s.cursorY = t.y
  cells : Flat videoMemoryRows videoMemoryColumns s.video t.cell

section

variable {s : Tty} {t : Screen}

theorem Tty.store_eq {i : ℕ} (hi : i < videoMemoryRows * videoMemoryColumns) (v : UInt16) :
    s.store i v = pure { s with video := Function.update s.video i v } := if_pos hi

/-! ## The loops -/

/-- A loop over `n` cells from `i` on, each of which gets a value that does not depend on the cells in
front of it. -/
theorem run_fill {loop : ℕ → ℕ → Tty → Except ℕ Tty} {value : (ℕ → UInt16) → ℕ → UInt16}
    (hzero : ∀ i s, loop 0 i s = pure s)
    (hsucc : ∀ n i s, loop (n + 1) i s = s.store i (value s.video i) >>= loop n (i + 1))
    (hvalue : ∀ video i v j, i < j → value (Function.update video i v) j = value video j)
    (n : ℕ) {i : ℕ} (hi : i + n ≤ videoMemoryRows * videoMemoryColumns) (s : Tty) :
    ∃ video, loop n i s = pure { s with video := video } ∧
      (∀ j, i ≤ j → j < i + n → video j = value s.video j) ∧
      ∀ j, j < i ∨ i + n ≤ j → video j = s.video j := by
  induction n generalizing i s with
  | zero => exact ⟨s.video, hzero i s, fun j _ _ => by omega, fun _ _ => rfl⟩
  | succ n ih =>
      obtain ⟨video, hrun, hfilled, hother⟩ := @ih (i + 1) (by omega)
        { s with video := Function.update s.video i (value s.video i) }
      refine ⟨video, ?_, fun j hlo hhi => ?_, fun j hj => ?_⟩
      · rw [hsucc, Tty.store_eq (by omega), pure_bind]
        exact hrun
      · by_cases hj : j = i
        · rw [hj, hother i (Or.inl (Nat.lt_succ_self i))]
          exact Function.update_self ..
        · rw [hfilled j (by omega) (by omega)]
          exact hvalue s.video i _ j (by omega)
      · rw [hother j (by omega)]
        exact Function.update_of_ne (by omega) ..

theorem run_moveLines (n : ℕ) {i : ℕ} (hi : i + n ≤ videoMemoryRows * videoMemoryColumns) (s : Tty) :
    ∃ video, moveLines n i s = pure { s with video := video } ∧
      (∀ j, i ≤ j → j < i + n → video j = s.video (j + videoMemoryColumns)) ∧
      ∀ j, j < i ∨ i + n ≤ j → video j = s.video j :=
  @run_fill moveLines (fun video i => video (i + videoMemoryColumns)) (fun _ _ => rfl)
    (fun _ _ _ => rfl) (fun _ _ _ _ hlt => Function.update_of_ne (by omega) ..) n i hi s

theorem run_clearLine (n : ℕ) {i : ℕ} (hi : i + n ≤ videoMemoryRows * videoMemoryColumns) (s : Tty) :
    ∃ video, clearLine n i s = pure { s with video := video } ∧
      (∀ j, i ≤ j → j < i + n → video j = 0x20 ||| tAttrib) ∧
      ∀ j, j < i ∨ i + n ≤ j → video j = s.video j :=
  @run_fill clearLine (fun _ _ => 0x20 ||| tAttrib) (fun _ _ => rfl) (fun _ _ _ => rfl)
    (fun _ _ _ _ _ => rfl) n i hi s

/-! ## A character -/

theorem Shows.scroll_eq (h : Shows s t) : scroll s = pure s := by
  have hy := t.y_lt
  unfold scroll
  rw [if_neg (by rw [h.y]; omega)]

theorem Shows.wrapLine_eq (h : Shows s t) : wrapLine s = s := by
  have hx := t.x_lt
  unfold wrapLine
  rw [if_neg (by rw [h.x]; omega)]

/-- The cell at a position of the terminal. -/
theorem index_lt (t : Screen) {x : ℕ} (hx : x ≤ t.x) :
    t.y * videoMemoryColumns + x < videoMemoryRows * videoMemoryColumns :=
  flat_index_lt t.y_lt (Nat.lt_of_le_of_lt hx t.x_lt)

/-- **A new line.** The check of the line does what the terminal does behind its last line. -/
theorem run_scroll_newline (hx : s.cursorX = 0) (hy : s.cursorY = t.y + 1)
    (hcells : Flat videoMemoryRows videoMemoryColumns s.video t.cell) :
    ∃ s', scroll s = pure s' ∧ Shows s' (t.newline blank) := by
  have hylt := t.y_lt
  unfold scroll Term.newline Term.lineFeed Term.carriageReturn
  by_cases hlast : t.y + 1 < videoMemoryRows
  · rw [if_neg (by omega), dif_pos hlast]
    exact ⟨s, rfl, hx, hy, hcells⟩
  · rw [if_pos (by omega), dif_neg hlast]
    obtain ⟨video, hmove, hmoved, -⟩ := run_moveLines ((videoMemoryRows - 1) * videoMemoryColumns)
      (show 0 + (videoMemoryRows - 1) * videoMemoryColumns ≤ videoMemoryRows * videoMemoryColumns by decide) s
    obtain ⟨video', hclear, hcleared, hkept⟩ := run_clearLine videoMemoryColumns
      (show (videoMemoryRows - 1) * videoMemoryColumns + videoMemoryColumns
        ≤ videoMemoryRows * videoMemoryColumns by decide) { s with video := video }
    rw [hmove, pure_bind, hclear, pure_bind]
    refine ⟨_, rfl, rfl, ?_, ?_⟩
    · show s.cursorY - 1 = t.y
      omega
    · refine hcells.scroll blank (fun i hi => ?_) (fun i hlo hhi => ?_)
      · exact (hkept i (Or.inl hi)).trans (hmoved i (Nat.zero_le i) (by omega))
      · exact hcleared i hlo hhi

/-- **A character on the console** does what it does on the terminal. -/
theorem Shows.put (h : Shows s t) {c : UInt8} (hc : c ≠ 0) :
    ∃ s1 s', putChar s c = pure s1 ∧ scroll (wrapLine s1) = pure s' ∧ Shows s' (receive t c) := by
  obtain ⟨x, y, video⟩ := s
  obtain ⟨rfl, rfl, hcells⟩ := h
  have hshows : Shows ⟨t.x, t.y, video⟩ t := ⟨rfl, rfl, hcells⟩
  have hblank : 0x20 ||| tAttrib = blank := by decide
  unfold putChar receive
  simp only
  rw [if_neg hc]
  by_cases h8 : c = 8
  · rw [if_pos h8, if_pos h8]
    by_cases h0 : t.x = 0
    · rw [if_neg (not_not.2 h0), Term.backspace, if_pos h0]
      refine ⟨_, _, rfl, ?_, hshows⟩
      rw [hshows.wrapLine_eq, hshows.scroll_eq]
    · have hindex : t.y * videoMemoryColumns + t.x - 1 = t.y * videoMemoryColumns + (t.x - 1) :=
        Nat.add_sub_assoc (Nat.one_le_iff_ne_zero.2 h0) _
      rw [if_pos h0, hindex, Tty.store_eq (index_lt t (Nat.sub_le ..)), hblank]
      have hnext : Shows ⟨t.x - 1, t.y,
          Function.update video (t.y * videoMemoryColumns + (t.x - 1)) blank⟩ (t.backspace blank) := by
        unfold Term.backspace
        rw [if_neg h0]
        exact ⟨rfl, rfl, hcells.set (Nat.lt_of_le_of_lt (Nat.sub_le ..) t.x_lt) blank⟩
      refine ⟨⟨t.x - 1, t.y, _⟩, _, rfl, ?_, hnext⟩
      rw [hnext.wrapLine_eq, hnext.scroll_eq]
  rw [if_neg h8, if_neg h8]
  by_cases h13 : c = 13
  · rw [if_pos h13, if_neg (by rw [h13]; decide), if_pos h13]
    have hnext : Shows ⟨0, t.y, video⟩ t.carriageReturn := ⟨rfl, rfl, hcells⟩
    refine ⟨⟨0, t.y, video⟩, _, rfl, ?_, hnext⟩
    rw [hnext.wrapLine_eq, hnext.scroll_eq]
  rw [if_neg h13]
  by_cases h10 : c = 10
  · rw [if_pos h10, if_pos h10]
    obtain ⟨s', hscroll, hnext⟩ := @run_scroll_newline ⟨0, t.y + 1, video⟩ t rfl rfl hcells
    exact ⟨⟨0, t.y + 1, video⟩, s', rfl, hscroll, hnext⟩
  rw [if_neg h10, if_neg h10, if_neg h13, Tty.store_eq (index_lt t (Nat.le_refl _)), pure_bind]
  have hset := hcells.set t.x_lt (glyph c) (y := t.y)
  refine ⟨⟨t.x + 1, t.y, Function.update video (t.y * videoMemoryColumns + t.x) (glyph c)⟩, ?_⟩
  unfold Term.write
  by_cases hend : t.x + 1 < videoMemoryColumns
  · rw [dif_pos hend]
    have hnext : Shows ⟨t.x + 1, t.y, Function.update video (t.y * videoMemoryColumns + t.x) (glyph c)⟩
        { t with x := t.x + 1, cell := setCell t.cell t.y t.x (glyph c), x_lt := hend } :=
      ⟨rfl, rfl, hset⟩
    refine ⟨_, rfl, ?_, hnext⟩
    rw [hnext.wrapLine_eq, hnext.scroll_eq]
  · rw [dif_neg hend]
    have hwrap : wrapLine ⟨t.x + 1, t.y, Function.update video (t.y * videoMemoryColumns + t.x) (glyph c)⟩
        = ⟨0, t.y + 1, Function.update video (t.y * videoMemoryColumns + t.x) (glyph c)⟩ :=
      if_pos (Nat.le_of_not_lt hend)
    obtain ⟨s', hscroll, hnext⟩ := @run_scroll_newline
      ⟨0, t.y + 1, Function.update video (t.y * videoMemoryColumns + t.x) (glyph c)⟩
      { t with cell := setCell t.cell t.y t.x (glyph c) } rfl rfl hset
    refine ⟨s', rfl, ?_, hnext⟩
    rw [hwrap, hscroll]

/-! ## Calls -/

/-- What `tty_write` takes of a buffer: the characters in front of the first NUL. -/
def charsToNul (buf : List UInt8) : List UInt8 := buf.takeWhile (· ≠ 0)

/-- The terminal after a sequence of characters. -/
def display (t : Screen) (chars : List UInt8) : Screen := chars.foldl receive t

theorem display_append (t : Screen) (chars chars' : List UInt8) :
    display t (chars ++ chars') = display (display t chars) chars' := List.foldl_append ..

theorem charsToNul_cons {c : UInt8} (hc : c ≠ 0) (str : List UInt8) : charsToNul (c :: str) = c :: charsToNul str :=
  List.takeWhile_cons_of_pos (by simpa using hc)

theorem Shows.writeLoop (h : Shows s t) (buf : List UInt8) :
    ∃ s', Console.writeLoop buf s = pure s' ∧ Shows s' (display t (charsToNul buf)) := by
  induction buf generalizing s t with
  | nil => exact ⟨s, rfl, h⟩
  | cons c str ih =>
      unfold Console.writeLoop
      by_cases hc : c = 0
      · have htext : charsToNul (c :: str) = [] := List.takeWhile_cons_of_neg (by simp [hc])
        rw [if_pos hc, htext]
        exact ⟨s, rfl, h⟩
      · obtain ⟨s1, s2, hput, hscroll, hnext⟩ := h.put hc
        obtain ⟨s', hrun, hshows⟩ := ih hnext
        rw [if_neg hc, hput, pure_bind, hscroll, pure_bind, charsToNul_cons hc]
        exact ⟨s', hrun, hshows⟩

/-- The loop after some characters goes on with the rest of the buffer. -/
theorem writeLoop_append {pre : List UInt8} (hpre : ∀ c ∈ pre, c ≠ 0) (rest : List UInt8) (s : Tty) :
    writeLoop (pre ++ rest) s = writeLoop pre s >>= writeLoop rest := by
  induction pre generalizing s with
  | nil => exact (pure_bind s (writeLoop rest)).symm
  | cons c pre ih =>
      obtain ⟨hc, hpre⟩ := List.forall_mem_cons.1 hpre
      rw [List.cons_append, writeLoop, writeLoop, if_neg hc, if_neg hc]
      simp only [ih hpre, bind_assoc]

theorem Shows.ttyCalls (h : Shows s t) (calls : List (List UInt8)) :
    ∃ s', Console.ttyCalls calls s = pure s' ∧ Shows s' (display t (calls.flatMap charsToNul)) := by
  induction calls generalizing s t with
  | nil => exact ⟨s, rfl, h⟩
  | cons buf calls ih =>
      obtain ⟨s1, hrun, hnext⟩ := h.writeLoop buf
      obtain ⟨s', hcalls, hshows⟩ := ih hnext
      unfold Console.ttyCalls ttyWrite
      rw [hrun, pure_bind, pure_bind, List.flatMap_cons, display_append]
      exact ⟨s', hcalls, hshows⟩

theorem startScreen_shows (video : ℕ → UInt16) : Shows ⟨0, 0, video⟩ (startScreen video) := ⟨rfl, rfl, fun _ _ _ _ => rfl⟩

/-- **The console is a terminal.** After any calls, and `k` characters of one more, no store has left the
video memory, the cursor is on a cell, and cells and cursor are those of the terminal that has got the
characters of the calls, each up to its first NUL. -/
theorem ttyWrite_terminal (video : ℕ → UInt16) (calls : List (List UInt8)) (buf : List UInt8) (k : ℕ) :
    ∃ s s', ttyCalls calls ⟨0, 0, video⟩ = .ok s ∧ writeLoop ((charsToNul buf).take k) s = .ok s' ∧
      writeLoop buf s = writeLoop (buf.drop ((charsToNul buf).take k).length) s' ∧
      s'.cursorX < videoMemoryColumns ∧ s'.cursorY < videoMemoryRows ∧
      Shows s' (display (startScreen video) (calls.flatMap charsToNul ++ (charsToNul buf).take k)) := by
  obtain ⟨s, hcalls, hshows⟩ := (startScreen_shows video).ttyCalls calls
  obtain ⟨s', hrun, hnext⟩ := hshows.writeLoop ((charsToNul buf).take k)
  have hnonzero : ∀ c ∈ (charsToNul buf).take k, c ≠ 0 := fun c hc => by
    simpa using List.mem_takeWhile_imp (List.mem_of_mem_take hc)
  have htext : charsToNul ((charsToNul buf).take k) = (charsToNul buf).take k :=
    List.takeWhile_eq_self_iff.2 fun c hc => by simpa using hnonzero c hc
  have hprefix : (charsToNul buf).take k <+: buf := (List.take_prefix _ _).trans (List.takeWhile_prefix _)
  refine ⟨s, s', hcalls, hrun, ?_, ?_, ?_, ?_⟩
  · obtain ⟨rest, hrest⟩ := hprefix
    have hdrop := congrArg (List.drop ((charsToNul buf).take k).length) hrest
    have hsplit := writeLoop_append hnonzero rest s
    rw [List.drop_left] at hdrop
    rw [hrest, hrun] at hsplit
    rw [← hdrop]
    exact hsplit
  · rw [hnext.x]
    exact Term.x_lt _
  · rw [hnext.y]
    exact Term.y_lt _
  · rw [display_append, ← htext]
    exact hnext

/-- Two bytes, a NUL in front of a letter: a terminal would show the letter. -/
theorem ttyWrite_nul :
    ¬ ∀ (video : ℕ → UInt16) (calls : List (List UInt8)), ∃ s,
      ttyCalls calls ⟨0, 0, video⟩ = .ok s ∧ Shows s (display (startScreen video) calls.flatten) := by
  intro h
  obtain ⟨s, hrun, hshows⟩ := h (fun _ => 0) [[0, 97]]
  cases hrun
  exact absurd hshows.x (by decide)

end

end Kudos.Console
