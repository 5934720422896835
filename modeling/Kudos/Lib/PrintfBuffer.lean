import Kudos.Lib.PrintfRuns

set_option autoImplicit false

/-! # Formatted output in a buffer

`vsnprintf` keeps to its buffer and leaves the beginning of the output there, unless a negative number
with a sign flag is to be printed where one character is left before the limit: the second sign is stored
behind the buffer then. -/

namespace Kudos.Printf

open CInt

variable {V : Version} {size : ℤ}

/-- The buffer starts with the characters `t` and a terminator. -/
def HoldsText (cells : ℕ → Option UInt8) (t : List UInt8) : Prop :=
  ∀ i, i < (t ++ [0]).length → cells i = (t ++ [0])[i]?

/-- The string in the buffer. -/
def HoldsString (cells : ℕ → Option UInt8) (s : List UInt8) : Prop := 0 ∉ s ∧ HoldsText cells s

/-- What is promised of a call with a buffer of `size` characters, for the output `full`: what it
returned, and what it stored. -/
structure RespectsBuffer (size : ℤ) (full : List UInt8) (ret : ℤ) (o : Out) : Prop where
  /-- nothing is stored outside the buffer -/
  inside : ∀ i, o.cells i ≠ none → (i : ℤ) < size
  /-- the output that fits, and a terminator -/
  text : HoldsText o.cells (full.take (size - 1).toNat)
  /-- the characters in front of the terminator are counted, or the output was too long -/
  ret : ret = if size ≤ full.length then -1 else ((full.take (size - 1).toNat).length : ℤ)

/-- Without zeros in the output there is a string in the buffer. -/
theorem RespectsBuffer.string {full : List UInt8} {ret : ℤ} {o : Out}
    (h : RespectsBuffer size full ret o) (hzero : 0 ∉ full) :
    HoldsString o.cells (full.take (size - 1).toNat) :=
  ⟨fun hmem => hzero (List.mem_of_mem_take hmem), h.text⟩

/-- The cells that hold a text and its terminator, and no others. -/
theorem respectsBuffer_of_cells (hpos : 1 ≤ size) {full : List UInt8} {ret : ℤ} {o : Out}
    (hcells : o.cells = fun i => (full.take (size - 1).toNat ++ [0])[i]?)
    (hret : ret = if size ≤ full.length then -1 else ((full.take (size - 1).toNat).length : ℤ)) :
    RespectsBuffer size full ret o := by
  refine ⟨fun i hi => ?_, fun i _ => congrFun hcells i, hret⟩
  rw [hcells, ne_eq, List.getElem?_eq_none_iff, not_le, List.length_append, List.length_take,
    List.length_singleton] at hi
  omega

/-- The end of `vxnprintf`, where the buffer was not left. -/
theorem finish_respects (hpos : 1 ≤ size) {full : List UInt8} {o : Out}
    (h : o.Holds (full.take size.toNat)) (hwritten : o.written = (full.take size.toNat).length) :
    RespectsBuffer size full (finish false size o).1 (finish false size o).2 := by
  rw [List.length_take] at hwritten
  have hbuf := h.buf
  rw [List.length_take] at hbuf
  unfold finish
  by_cases hlong : size ≤ full.length
  · -- the terminator takes the place of the last character
    obtain ⟨c, hc⟩ : ∃ c, full.take size.toNat = full.take (size - 1).toNat ++ [c] :=
      ⟨full[(size - 1).toNat], by
        rw [show size.toNat = (size - 1).toNat + 1 by omega, List.take_succ_eq_append_getElem]⟩
    have hlast : (full.take (size - 1).toNat).length = o.buf - 1 := by
      rw [List.length_take]
      omega
    refine respectsBuffer_of_cells hpos ?_ ?_
    · rw [if_pos (by omega)]
      change Function.update o.cells (o.buf - 1) (some 0) = _
      rw [h.cells, hc, ← hlast, ← cells_concat _ c, Function.update_idem, cells_concat]
    · rw [if_pos (by omega), if_pos hlong]
  · have hall : full.take size.toNat = full.take (size - 1).toNat := by
      rw [List.take_of_length_le (by omega), List.take_of_length_le (by omega)]
    have hend : o.buf = (full.take (size - 1).toNat).length := by
      rw [h.buf, hall]
    refine respectsBuffer_of_cells hpos ?_ ?_
    · rw [if_neg (by omega)]
      change Function.update o.cells o.buf (some 0) = _
      rw [h.cells, hall, hend, cells_concat]
    · rw [if_neg (by omega), if_neg hlong, ← hend]
      dsimp only
      omega

/-- The characters behind the limit are outside the buffer, and the terminator does not remove them. -/
theorem finish_overruns (hpos : 1 ≤ size) {o : Out} {t : List UInt8} (h : o.Holds t)
    (hlong : size < t.length) : ¬ ∀ i, (finish false size o).2.cells i ≠ none → (i : ℤ) < size := by
  intro hinside
  have hcell (n : ℕ) : Function.update o.cells n (some 0) (t.length - 1) ≠ none := by
    by_cases hn : t.length - 1 = n
    · rw [hn, Function.update_self]
      exact Option.some_ne_none _
    · rw [Function.update_of_ne hn, h.cells]
      exact fun hnone => by
        have := List.getElem?_eq_none_iff.1 hnone
        omega
  have hlt := hinside (t.length - 1) <| by
    unfold finish
    split_ifs
    · exact hcell _
    · exact hcell _
  omega

/-- A run in which no second sign meets the limit, and no conversion hangs. -/
theorem vsnprintf_of_not_hangs {w : ℕ} (hpos : 1 ≤ size) (hsize : size ≤ intMax)
    {fmt : List UInt8} {args : List VaArg} {xs : List Item}
    (hitems : items (.kernel w) fmt args = .ok xs) (hhangs : ¬ HangsInside (.kernel w) fmt)
    (hlast : ¬ DoubleSignedLast (.kernel w) size 0 xs) :
    ∃ ret o, vsnprintf w (fmt.length + 1) size fmt args = .ok (ret, o) ∧
      RespectsBuffer size (fullOutput (.kernel w) 0 xs) ret o := by
  have hstart : Out.start.written = 0 := rfl
  obtain ⟨-, hok⟩ := @printLoop_eq (.kernel w) false size hsize _ fmt args xs .start le_rfl
    hitems (by omega) hlast (fmt.length + 1) (Nat.lt_succ_self _)
  have hholds := Out.start_holds.emit ((fullOutput (.kernel w) 0 xs).take size.toNat)
  rw [hstart, sub_zero] at hok
  refine ⟨_, _, ?_, finish_respects hpos hholds (by rw [Out.emit_written, hstart, zero_add])⟩
  unfold vsnprintf vxnprintf
  rw [if_neg (by omega), hok fun h => hhangs h.1]
  rfl

/-- **`vsnprintf` keeps to its buffer** and leaves the output there, as far as it fits, in every run that
comes to its end, unless a negative number with a sign flag comes where one character is left. -/
theorem vsnprintf_respects_iff {w : ℕ} {size : ℤ} (hpos : 1 ≤ size) (hsize : size ≤ intMax)
    {fmt : List UInt8} {args : List VaArg} {xs : List Item}
    (hitems : items (.kernel w) fmt args = .ok xs) {k : ℕ} {ret : ℤ} {o : Out}
    (hrun : vsnprintf w k size fmt args = .ok (ret, o)) :
    RespectsBuffer size (fullOutput (.kernel w) 0 xs) ret o ↔
      ¬ DoubleSignedLast (.kernel w) size 0 xs := by
  have hstart : Out.start.written = 0 := rfl
  -- the loop, with passes to spare
  unfold vsnprintf vxnprintf at hrun
  rw [if_neg (by omega)] at hrun
  cases hloop : printLoop (.kernel w) false size k fmt args .start with
  | error e =>
      rw [hloop] at hrun
      cases hrun
  | ok o' =>
    rw [hloop] at hrun
    obtain ⟨rfl, rfl⟩ : (finish false size o').1 = ret ∧ (finish false size o').2 = o := by
      cases hrun
      exact ⟨rfl, rfl⟩
    have hmono := printLoop_mono (le_max_left k (fmt.length + 1))
      (by rw [hloop]; exact fun h => by cases h)
    rw [hloop] at hmono
    constructor
    · rintro hrespects hlast
      obtain htoo | ⟨l, hl, hok⟩ := @printLoop_doubleSigned (.kernel w) false size hsize _ fmt args
        xs .start le_rfl hitems hlast (max k (fmt.length + 1)) (by omega)
      · rw [hmono] at htoo
        cases htoo
      · rw [hmono] at hok
        cases hok
        exact finish_overruns hpos (Out.start_holds.emit l) (by simpa [hstart] using hl)
          hrespects.inside
    · intro hlast
      obtain ⟨hend, hok⟩ := @printLoop_eq (.kernel w) false size hsize _ fmt args xs .start le_rfl
        hitems (by omega) hlast (max k (fmt.length + 1)) (by omega)
      rw [hmono] at hend hok
      rw [Except.ok.inj (hok fun h => by cases hend h)]
      have hholds := Out.start_holds.emit ((fullOutput (.kernel w) 0 xs).take size.toNat)
      rw [hstart, sub_zero]
      exact finish_respects hpos hholds (by rw [Out.emit_written, hstart, zero_add])

/-- A negative number in a buffer of 12 characters. -/
theorem vsnprintf_respects_iff_minusFive :
    ∃ ret o, vsnprintf 4 3 12 ['%'.toUInt8, 'd'.toUInt8] [.int (-5)] = .ok (ret, o) ∧
      RespectsBuffer 12 ['-'.toUInt8, '5'.toUInt8] ret o := by
  have hfull : fullOutput (.kernel 4) 0 [.signed {} (-5)] = ['-'.toUInt8, '5'.toUInt8] := by
    decide +kernel
  refine ⟨_, _, rfl, ?_⟩
  rw [← hfull]
  exact (@vsnprintf_respects_iff 4 12 (by decide) (by decide) ['%'.toUInt8, 'd'.toUInt8]
    [.int (-5)] [.signed {} (-5)] rfl 3 _ _ rfl).2
    fun h => h.elim (fun hfirst => absurd hfirst.2 (by decide)) False.elim

/-- The sign flag of a negative number, in a buffer for one character. -/
theorem plusFlag_overruns :
    ∃ ret o, vsnprintf 4 4 1 ['%'.toUInt8, '+'.toUInt8, 'd'.toUInt8] [.int (-5)] = .ok (ret, o) ∧
      ret = 2 ∧ o.cells 1 = some '+'.toUInt8 ∧
      ¬ RespectsBuffer 1 ['-'.toUInt8, '+'.toUInt8, '5'.toUInt8] ret o := by
  refine ⟨_, _, rfl, by decide +kernel, by decide +kernel, fun h => ?_⟩
  exact absurd (h.inside 1 (by decide +kernel)) (by decide)

end Kudos.Printf
