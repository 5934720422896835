import Mathlib.Data.Nat.Basic
import Mathlib.Logic.Function.Basic

set_option autoImplicit false

/-! # Character terminals

A terminal has `rows` lines of `cols` cells and a cursor, which is always on a cell. A character goes to the
cell at the cursor; behind the last cell of a line the cursor wraps to the next line, and behind the last
line the cells scroll up. `Flat` relates the cells to a memory that holds them line after line. -/

namespace Terminal

variable {α : Type}

/-- The cells, by line and column, and the cursor. -/
structure Term (rows cols : ℕ) (α : Type) where
  x : ℕ
  y : ℕ
  cell : ℕ → ℕ → α
  x_lt : x < cols
  y_lt : y < rows

/-- The cells with a new one in a line and column. -/
def setCell (cell : ℕ → ℕ → α) (y x : ℕ) (a : α) : ℕ → ℕ → α := fun r c =>
  if r = y ∧ c = x then a else cell r c

/-- The cells one line up, with a blank last line. -/
def scrolled (rows : ℕ) (blank : α) (cell : ℕ → ℕ → α) : ℕ → ℕ → α := fun r c =>
  if r + 1 < rows then cell (r + 1) c else blank

namespace Term

variable {rows cols : ℕ}

/-- The cursor goes to the start of the line. -/
def carriageReturn (t : Term rows cols α) : Term rows cols α :=
  { t with
    x := 0
    x_lt := Nat.zero_lt_of_lt t.x_lt }

/-- The cursor goes one line down, or the cells go one line up. -/
def lineFeed (blank : α) (t : Term rows cols α) : Term rows cols α :=
  if h : t.y + 1 < rows then
    { t with
      y := t.y + 1
      y_lt := h }
  else { t with cell := scrolled rows blank t.cell }

/-- The cursor goes to the start of the next line. -/
def newline (blank : α) (t : Term rows cols α) : Term rows cols α := (t.lineFeed blank).carriageReturn

/-- The cell in front of the cursor is erased, if it is in the same line. -/
def backspace (blank : α) (t : Term rows cols α) : Term rows cols α :=
  if t.x = 0 then t
  else
    { t with
      x := t.x - 1
      cell := setCell t.cell t.y (t.x - 1) blank
      x_lt := Nat.lt_of_le_of_lt (Nat.sub_le ..) t.x_lt }

/-- A character goes to the cell at the cursor. -/
def write (blank a : α) (t : Term rows cols α) : Term rows cols α :=
  if h : t.x + 1 < cols then
    { t with
      x := t.x + 1
      cell := setCell t.cell t.y t.x a
      x_lt := h }
  else newline blank { t with cell := setCell t.cell t.y t.x a }

end Term

/-! ## A terminal in memory -/

/-- The cells are in the memory line after line. -/
def Flat (rows cols : ℕ) (mem : ℕ → α) (cell : ℕ → ℕ → α) : Prop :=
  ∀ r < rows, ∀ c < cols, mem (r * cols + c) = cell r c

section

variable {rows cols : ℕ} {mem mem' : ℕ → α} {cell : ℕ → ℕ → α}

theorem flat_index_lt {r c : ℕ} (hr : r < rows) (hc : c < cols) : r * cols + c < rows * cols :=
  calc r * cols + c < r * cols + cols := Nat.add_lt_add_left hc _
    _ = (r + 1) * cols := (Nat.succ_mul r cols).symm
    _ ≤ rows * cols := Nat.mul_le_mul_right cols hr

theorem flat_index_inj {r r' c c' : ℕ} (hc : c < cols) (hc' : c' < cols)
    (h : r * cols + c = r' * cols + c') : r = r' ∧ c = c' := by
  have hpos : 0 < cols := Nat.zero_lt_of_lt hc
  have hdiv := congrArg (· / cols) h
  have hmod := congrArg (· % cols) h
  simp only [Nat.mul_comm _ cols, Nat.mul_add_div hpos, Nat.mul_add_mod, Nat.div_eq_of_lt hc,
    Nat.div_eq_of_lt hc', Nat.mod_eq_of_lt hc, Nat.mod_eq_of_lt hc', Nat.add_zero] at hdiv hmod
  exact ⟨hdiv, hmod⟩

theorem Flat.set (h : Flat rows cols mem cell) {y x : ℕ} (hx : x < cols) (a : α) :
    Flat rows cols (Function.update mem (y * cols + x) a) (setCell cell y x a) := by
  intro r hr c hc
  unfold setCell
  by_cases hat : r = y ∧ c = x
  · rw [if_pos hat, hat.1, hat.2, Function.update_self]
  · rw [if_neg hat, Function.update_of_ne (fun heq => hat (flat_index_inj hc hx heq)), h r hr c hc]

/-- The memory after all lines but the first were moved up by one. -/
theorem Flat.scroll (h : Flat rows cols mem cell) (blank : α)
    (hmove : ∀ i < (rows - 1) * cols, mem' i = mem (i + cols))
    (hlast : ∀ i, (rows - 1) * cols ≤ i → i < rows * cols → mem' i = blank) :
    Flat rows cols mem' (scrolled rows blank cell) := by
  intro r hr c hc
  unfold scrolled
  by_cases hnext : r + 1 < rows
  · rw [if_pos hnext, hmove _ (flat_index_lt (Nat.lt_sub_of_add_lt hnext) hc), ← h (r + 1) hnext c hc,
      Nat.succ_mul, Nat.add_right_comm]
  · obtain rfl : r = rows - 1 := by omega
    rw [if_neg hnext, hlast _ (Nat.le_add_right ..) (flat_index_lt hr hc)]

end

end Terminal
