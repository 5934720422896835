import Kudos.Library.ByteMemory

set_option autoImplicit false

/-! # Reading lines

`gets` and `readline_static` of `lib.c`. The second is a line editor: what it leaves in its buffer is the
line that was edited (`readlineStatic_spec`). The first puts the terminator one byte too far: the index
behind its loop is that of the last byte of the buffer already, and one is added to it once more. -/

namespace Kudos

open ByteMemory

/-- A process at its terminal: the characters that it has not read yet, what it wrote, and the stores it
made to its buffer. -/
structure Stdio where
  input : ℕ → UInt8
  output : List UInt8
  stores : List Store

namespace Stdio

/-- Before the call. -/
def start (input : ℕ → UInt8) : Stdio := ⟨input, [], []⟩

def putc (io : Stdio) (c : UInt8) : Stdio := { io with output := io.output ++ [c] }

def getcRaw (io : Stdio) : UInt8 × Stdio :=
  (io.input 0, { io with input := fun k => io.input (k + 1) })

def getc (io : Stdio) : UInt8 × Stdio :=
  let (c, io) := io.getcRaw
  (c, io.putc c)

/-- A store to the buffer. -/
def put (io : Stdio) (a : ℕ) (c : UInt8) : Stdio := { io with stores := io.stores ++ [.byte a c] }

end Stdio

/-- The loop of `gets`. -/
def getsLoop (s size : ℕ) (count : ℕ) (io : Stdio) : ℕ × Stdio :=
  if count + 1 < size then
    let (c, io) := io.getc
    getsLoop s size (count + 1) (io.put (s + count) c)
  else (count, io)
termination_by size - count

/-- `gets`. -/
def gets (s size : ℕ) (io : Stdio) : ℕ × Stdio :=
  let (count, io) := getsLoop s size 0 io
  (count, io.put (s + (count + 1)) 0)

/-- The characters that end a line. -/
def IsNewline (c : UInt8) : Prop := c = '\r'.toUInt8 ∨ c = '\n'.toUInt8

instance : DecidablePred IsNewline := fun c => inferInstanceAs (Decidable (c = '\r'.toUInt8 ∨ c = '\n'.toUInt8))

/-- The loop of `readline_static`, for a `size` that is not zero. -/
def readlineLoop (s size : ℕ) : ℕ → ℕ → Stdio → Option (ℕ × Stdio)
  | 0, _, _ => none
  | k + 1, count, io =>
      let (c, io) := io.getcRaw
      if IsNewline c then some (count, io.putc '\n'.toUInt8)
      else if c = 127 then
        if 0 < count then
          readlineLoop s size k (count - 1) (((io.putc 8).putc ' '.toUInt8).putc 8)
        else readlineLoop s size k count io
      else if count < size - 1 then readlineLoop s size k (count + 1) ((io.put (s + count) c).putc c)
      else readlineLoop s size k count io

/-- `readline_static`. -/
def readlineStatic (k s size : ℕ) (io : Stdio) : Option (ℕ × Stdio) :=
  match readlineLoop s size k 0 io with
  | none => none
  | some (count, io) => some (count, io.put (s + count) 0)

/-! ## What they are for -/

/-- What a character does to the line that is being edited. -/
def edit (size : ℕ) (line : List UInt8) (c : UInt8) : List UInt8 :=
  if c = 127 then line.dropLast
  else if line.length < size - 1 then line ++ [c]
  else line

/-- The buffer holds the line and a terminator. -/
def HoldsLine (mem : ℕ → UInt8) (s : ℕ) (text : List UInt8) : Prop :=
  (∀ j, (h : j < text.length) → mem (s + j) = text[j]) ∧ mem (s + text.length) = 0

/-- Nothing outside of the buffer is written. -/
def WritesWithin (s size : ℕ) (stores : List Store) : Prop :=
  ∀ st ∈ stores, s ≤ st.addr ∧ st.addr + st.width ≤ s + size

/-- The first `n` characters of the input. -/
def typed (input : ℕ → UInt8) (n : ℕ) : List UInt8 := (List.range n).map input

/-- `readline_static` edits the line up to the first newline. -/
def ReadlineRight (s size : ℕ) (input : ℕ → UInt8) : Prop :=
  ∀ n, IsNewline (input n) → (∀ j < n, ¬IsNewline (input j)) → ∃ io,
    readlineStatic (n + 1) s size (.start input) = some (((typed input n).foldl (edit size) []).length, io) ∧
      WritesWithin s size io.stores ∧
      ∀ mem, HoldsLine (storeAll mem io.stores) s ((typed input n).foldl (edit size) [])

/-- `gets` fills its buffer with the input and a terminator. -/
def GetsRight (s size : ℕ) (input : ℕ → UInt8) : Prop :=
  ∃ io, gets s size (.start input) = (size - 1, io) ∧ WritesWithin s size io.stores ∧
    ∀ mem, HoldsLine (storeAll mem io.stores) s (typed input (size - 1))

/-! ## `readline_static` -/

/-- The first character, and the others. -/
theorem typed_succ (input : ℕ → UInt8) (n : ℕ) :
    typed input (n + 1) = input 0 :: typed (fun k => input (k + 1)) n := by
  unfold typed
  rw [List.range_succ_eq_map, List.map_cons, List.map_map]
  rfl

/-- The state in front of a round: the line edited so far is in the buffer. -/
structure Editing (s size : ℕ) (text : List UInt8) (stores : List Store) : Prop where
  fits : text.length < size
  within : WritesWithin s size stores
  stored : ∀ mem j, (h : j < text.length) → storeAll mem stores (s + j) = text[j]

namespace Editing

variable {s size : ℕ} {line : List UInt8} {stores : List Store}

theorem within_concat {j : ℕ} (h : WritesWithin s size stores) (hj : j < size) (c : UInt8) :
    WritesWithin s size (stores ++ [.byte (s + j) c]) := by
  intro st hst
  rcases List.mem_append.1 hst with hst | hst
  · exact h st hst
  · rw [List.mem_singleton.1 hst]
    change s ≤ s + j ∧ s + j + 1 ≤ s + size
    omega

/-- DEL takes the last character off. -/
theorem dropLast (h : Editing s size line stores) : Editing s size line.dropLast stores := by
  refine ⟨?_, h.within, fun mem j hj => ?_⟩
  · have := h.fits
    rw [List.length_dropLast]
    omega
  · rw [List.getElem_dropLast]
    exact h.stored mem j _

/-- Another character is put behind the line. -/
theorem concat (h : Editing s size line stores) (hroom : line.length < size - 1) (c : UInt8) :
    Editing s size (line ++ [c]) (stores ++ [.byte (s + line.length) c]) := by
  refine ⟨?_, within_concat h.within h.fits c, fun mem j hj => ?_⟩
  · rw [List.length_append, List.length_singleton]
    omega
  · rw [List.length_append, List.length_singleton] at hj
    rw [storeAll_concat_byte]
    by_cases hlast : j = line.length
    · subst hlast
      rw [Function.update_self, List.getElem_concat_length rfl]
    · have hlt : j < line.length := by omega
      rw [Function.update_of_ne (by omega), h.stored mem j hlt, List.getElem_append_left hlt]

/-- The terminator. -/
theorem holdsLine (h : Editing s size line stores) (mem : ℕ → UInt8) :
    HoldsLine (storeAll mem (stores ++ [.byte (s + line.length) 0])) s line := by
  rw [storeAll_concat_byte]
  refine ⟨fun j hj => ?_, Function.update_self ..⟩
  rw [Function.update_of_ne (by omega)]
  exact h.stored mem j hj

end Editing

/-- The loop, by induction on the characters in front of the newline. -/
theorem readlineLoop_spec {s size n : ℕ} {line : List UInt8} {io : Stdio}
    (h : Editing s size line io.stores) (hnewline : IsNewline (io.input n))
    (hbefore : ∀ j < n, ¬IsNewline (io.input j)) :
    ∃ io', readlineLoop s size (n + 1) line.length io
        = some (((typed io.input n).foldl (edit size) line).length, io') ∧
      Editing s size ((typed io.input n).foldl (edit size) line) io'.stores := by
  induction n generalizing line io with
  | zero =>
      unfold readlineLoop
      exact ⟨_, if_pos hnewline, h⟩
  | succ n ih =>
      have hrest : ∀ j < n, ¬IsNewline (io.input (j + 1)) := fun j hj => hbefore (j + 1) (by omega)
      rw [typed_succ, List.foldl_cons, readlineLoop]
      unfold Stdio.getcRaw edit
      dsimp only
      rw [if_neg (hbefore 0 (by omega))]
      by_cases hdel : io.input 0 = 127
      · rw [if_pos hdel, if_pos hdel]
        by_cases hpos : 0 < line.length
        · rw [if_pos hpos, ← List.length_dropLast]
          exact ih h.dropLast hnewline hrest
        · have hnil : line = [] := List.length_eq_zero_iff.1 (by omega)
          rw [if_neg hpos]
          subst hnil
          exact ih h hnewline hrest
      · rw [if_neg hdel, if_neg hdel]
        by_cases hroom : line.length < size - 1
        · have hlength : line.length + 1 = (line ++ [io.input 0]).length := by simp
          rw [if_pos hroom, if_pos hroom, hlength]
          exact ih (h.concat hroom (io.input 0)) hnewline hrest
        · rw [if_neg hroom, if_neg hroom]
          exact ih h hnewline hrest

/-- **`readline_static` is the line editor.** -/
theorem readlineStatic_spec {s size : ℕ} (hsize : 1 ≤ size) (input : ℕ → UInt8) :
    ReadlineRight s size input := by
  intro n hnewline hbefore
  have hstart : Editing s size [] (Stdio.start input).stores :=
    ⟨hsize, fun st hst => (by cases hst), fun _ j hj => (by cases hj)⟩
  obtain ⟨io, hloop, hend⟩ := readlineLoop_spec hstart hnewline hbefore
  refine ⟨io.put (s + ((typed input n).foldl (edit size) []).length) 0, ?_,
    Editing.within_concat hend.within hend.fits 0, hend.holdsLine⟩
  unfold readlineStatic
  rw [show (0 : ℕ) = ([] : List UInt8).length from rfl, hloop]
  rfl

/-! ## `gets` -/

/-- The loop stores what it reads, one byte after the other. -/
theorem getsLoop_spec {s size m count : ℕ} {io : Stdio} {line : List UInt8} (hm : count + m + 1 = size)
    (hcount : line.length = count) (hstores : io.stores = bytesAt s line) :
    ∃ io', getsLoop s size count io = (size - 1, io') ∧
      io'.stores = bytesAt s (line ++ typed io.input m) := by
  induction m generalizing count io line with
  | zero =>
      unfold getsLoop
      rw [if_neg (by omega)]
      refine ⟨io, by rw [show count = size - 1 by omega], ?_⟩
      rw [hstores]
      exact congrArg (bytesAt s) (List.append_nil line).symm
  | succ m ih =>
      have hput : bytesAt s line ++ [Store.byte (s + count) (io.input 0)]
          = bytesAt s (line ++ [io.input 0]) := by
        rw [bytesAt_concat, hcount]
      rw [getsLoop, if_pos (by omega)]
      unfold Stdio.getc Stdio.getcRaw Stdio.putc Stdio.put
      dsimp only
      rw [typed_succ, List.append_cons line, hstores]
      refine @ih (count + 1) _ (line ++ [io.input 0]) (by omega) ?_ hput
      rw [List.length_append, hcount]
      rfl

/-- What `gets` does: its terminator is behind the buffer. -/
theorem gets_spec {s size : ℕ} (hsize : 1 ≤ size) (input : ℕ → UInt8) :
    ∃ io, gets s size (.start input) = (size - 1, io) ∧
      io.stores = bytesAt s (typed input (size - 1)) ++ [.byte (s + size) 0] := by
  obtain ⟨io, hloop, hstores⟩ := @getsLoop_spec s size (size - 1) 0 (.start input) [] (by omega) rfl rfl
  refine ⟨io.put (s + size) 0, ?_, ?_⟩
  · unfold gets
    rw [hloop]
    dsimp only
    rw [Nat.sub_add_cancel hsize]
  · unfold Stdio.put
    dsimp only
    rw [hstores]
    rfl

theorem length_typed (input : ℕ → UInt8) (n : ℕ) : (typed input n).length = n := by simp [typed]

/-- The store behind the buffer. -/
theorem not_getsRight {s size : ℕ} (hsize : 1 ≤ size) (input : ℕ → UInt8) : ¬GetsRight s size input := by
  rintro ⟨io, hgets, hwithin, -⟩
  obtain ⟨io', hgets', hstores⟩ := @gets_spec s size hsize input
  rw [hgets] at hgets'
  obtain ⟨-, rfl⟩ := Prod.mk.inj hgets'
  have hlast := hwithin (.byte (s + size) 0) (by rw [hstores]; exact List.mem_concat_self)
  change s ≤ s + size ∧ s + size + 1 ≤ s + size at hlast
  omega

/-- **`readline_static` edits its line, and `gets` never stays in its buffer**: it returns the right number
and stores the right characters, leaves the last byte of the buffer as it was, and clears the byte behind
it. -/
theorem readlineStatic_gets {s size : ℕ} (hsize : 1 ≤ size) (input : ℕ → UInt8) :
    ReadlineRight s size input ∧ ¬GetsRight s size input ∧
      ∃ io, gets s size (.start input) = (size - 1, io) ∧
        ∀ mem, (∀ j < size - 1, storeAll mem io.stores (s + j) = input j) ∧
          storeAll mem io.stores (s + (size - 1)) = mem (s + (size - 1)) ∧
          storeAll mem io.stores (s + size) = 0 := by
  obtain ⟨io, hgets, hstores⟩ := @gets_spec s size hsize input
  refine ⟨readlineStatic_spec hsize input, not_getsRight hsize input, io, hgets, fun mem => ?_⟩
  have hlength := length_typed input (size - 1)
  rw [hstores, storeAll_concat_byte]
  refine ⟨fun j hj => ?_, ?_, Function.update_self ..⟩
  · rw [Function.update_of_ne (by omega), storeAll_bytesAt (by omega)]
    simp [typed]
  · rw [Function.update_of_ne (by omega), storeAll_bytesAt_of_outside (by omega)]

/-- Three letters, and newlines behind them. -/
def threeLetters : ℕ → UInt8 := fun k => if k < 3 then 'a'.toUInt8 else '\n'.toUInt8

/-- They are read into a buffer of eight bytes. -/
theorem readlineStatic_gets_threeLetters :
    ReadlineRight 0 8 threeLetters ∧ ¬GetsRight 0 8 threeLetters ∧
      ∃ io, gets 0 8 (.start threeLetters) = (7, io) ∧
        ∀ mem, (∀ j < 7, storeAll mem io.stores (0 + j) = threeLetters j) ∧
          storeAll mem io.stores (0 + 7) = mem (0 + 7) ∧ storeAll mem io.stores (0 + 8) = 0 :=
  readlineStatic_gets (by decide) threeLetters

theorem gets_threeLetters : ¬(ReadlineRight 0 8 threeLetters ∧ GetsRight 0 8 threeLetters) :=
  fun h => not_getsRight (by decide) threeLetters h.2

end Kudos
