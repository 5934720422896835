import Kudos.Lib.Printf
import Mathlib.Data.List.TakeDrop

set_option autoImplicit false

/-! # The text of a format

What `vxnprintf` would put out without a limit, and what one pass of its loop makes of it: the characters
that fit, but for a negative number with a sign flag. That one has a `-` and a `+` or a blank before its
digits, and the limit is not looked at between them. -/

namespace Kudos.Printf

open CInt

variable {V : Version} {tty : Bool} {size : ℤ}

/-! ## Characters put out -/

/-- The characters `l` are put out. -/
def Out.emit (tty : Bool) (o : Out) (l : List UInt8) : Out :=
  l.foldl (fun o c =>
    let o := printc tty o c
    { o with buf := o.buf + 1, written := o.written + 1 }) o

@[simp] theorem Out.emit_nil (o : Out) : o.emit tty [] = o := rfl

theorem Out.emit_cons (o : Out) (c : UInt8) (l : List UInt8) :
    o.emit tty (c :: l) = (o.emit tty [c]).emit tty l := rfl

theorem Out.emit_append (o : Out) (l l' : List UInt8) :
    o.emit tty (l ++ l') = (o.emit tty l).emit tty l' := List.foldl_append

@[simp] theorem printc_buf (o : Out) (c : UInt8) : (printc tty o c).buf = o.buf := by
  unfold printc
  split_ifs <;> rfl

@[simp] theorem printc_written (o : Out) (c : UInt8) : (printc tty o c).written = o.written := by
  unfold printc
  split_ifs <;> rfl

@[simp] theorem Out.emit_written (o : Out) (l : List UInt8) :
    (o.emit tty l).written = o.written + l.length := by
  induction l generalizing o with
  | nil => simp
  | cons c l ih =>
      rw [Out.emit_cons, ih]
      simp only [Out.emit, List.foldl_cons, List.foldl_nil, printc_written, List.length_cons]
      omega

theorem put_eq {o : Out} (c : UInt8) (h : o.written < intMax) :
    put tty o c = .ok (o.emit tty [c]) := by
  unfold put
  rw [if_neg h.ne]
  rfl

/-- What the buffer holds once the text `t` was put out. -/
structure Out.Holds (o : Out) (t : List UInt8) : Prop where
  buf : o.buf = t.length
  cells : o.cells = fun i => t[i]?

theorem Out.start_holds : Out.start.Holds [] := ⟨rfl, funext fun _ => rfl⟩

/-- The cells of a text with a character behind it. -/
theorem cells_concat (t : List UInt8) (c : UInt8) :
    Function.update (fun i => t[i]?) t.length (some c) = fun i => (t ++ [c])[i]? := by
  funext i
  by_cases hi : i = t.length
  · rw [hi, Function.update_self, List.getElem?_concat_length]
  · rw [Function.update_of_ne hi, List.getElem?_append]
    by_cases hlt : i < t.length
    · rw [if_pos hlt]
    · rw [if_neg hlt, List.getElem?_eq_none (by omega), List.getElem?_eq_none (by simp; omega)]

theorem Out.Holds.emit {o : Out} {t : List UInt8} (h : o.Holds t) (l : List UInt8) :
    (o.emit false l).Holds (t ++ l) := by
  induction l generalizing o t with
  | nil => simpa using h
  | cons c l ih =>
      have hone : (o.emit false [c]).Holds (t ++ [c]) :=
        ⟨by simp [Out.emit, h.buf], by
          rw [← cells_concat t c, ← h.cells, ← h.buf]
          rfl⟩
      rw [Out.emit_cons, List.append_cons]
      exact ih hone

/-! ## Numbers -/

/-- The characters of a number: its digits, the zeros and the blanks before them. -/
def uintText (V : Version) (n base : ℕ) (smalls : Bool) (prec width : ℤ) : List UInt8 :=
  (reversed V n base smalls prec width).reverse

/-- `written` is not looked at while characters are put out. -/
theorem Out.emit_set_written (o : Out) (n : ℤ) (l : List UInt8) :
    { ({ o with written := n } : Out).emit tty l with written := (o.emit tty l).written }
      = o.emit tty l := by
  have hone (o : Out) (n : ℤ) (c : UInt8) : ({ o with written := n } : Out).emit tty [c]
      = { o.emit tty [c] with written := n + 1 } := by
    simp only [Out.emit, List.foldl_cons, List.foldl_nil]
    unfold printc
    split_ifs <;> rfl
  induction l generalizing o n with
  | nil => rfl
  | cons c l ih =>
      rw [Out.emit_cons, Out.emit_cons o, hone, ih]

theorem printReversed_eq (l : List UInt8) (w : ℤ) (o : Out) :
    printReversed tty size l w o
      = (w + (l.take (size - w).toNat).length,
        { o.emit tty (l.take (size - w).toNat) with written := o.written }) := by
  induction l generalizing w o with
  | nil => simp [printReversed]
  | cons c l ih =>
      unfold printReversed
      by_cases hw : w < size
      · have hfuel : (size - w).toNat = (size - (w + 1)).toNat + 1 := by omega
        rw [if_pos hw, ih, hfuel, List.take_succ_cons, List.length_cons, Out.emit_cons]
        refine Prod.ext (by push_cast; omega) ?_
        have hset := @Out.emit_set_written tty (o.emit tty [c]) o.written
          (l.take (size - (w + 1)).toNat)
        rw [← hset]
        simp only [Out.emit, List.foldl_cons, List.foldl_nil, printc_written]
      · have hfuel : (size - w).toNat = 0 := by omega
        rw [if_neg hw, hfuel]
        simp

/-- **`print_uint` puts out as much of the number as fits.** -/
theorem number_eq (o : Out) (n base : ℕ) (smalls : Bool) (prec width : ℤ) :
    number V tty size o n base smalls prec width
      = o.emit tty ((uintText V n base smalls prec width).take (size - o.written).toNat) := by
  have hset (l : List UInt8) : { o.emit tty l with written := o.written + l.length }
      = o.emit tty l := by
    rw [← Out.emit_written]
  unfold number printUint
  by_cases hsize : size - o.written ≤ 0
  · rw [if_pos hsize, Int.toNat_of_nonpos hsize]
    simp
  · rw [if_neg hsize, printReversed_eq]
    simp only [sub_zero, zero_add]
    exact hset _

/-! ## Items -/

/-- What a flag puts in the place of a sign, also if there is a sign. -/
def Mods.signChars (m : Mods) : List UInt8 :=
  if m.sign then ['+'.toUInt8] else if m.space then [' '.toUInt8] else []

/-- What is before the digits of a signed number. -/
def signText (m : Mods) (arg : ℤ) : List UInt8 :=
  (if arg < 0 then ['-'.toUInt8] else []) ++ m.signChars

/-- What is before the digits of a hexadecimal number. -/
def Mods.altText (m : Mods) : List UInt8 := if m.alt then ['0'.toUInt8, 'x'.toUInt8] else []

/-- What an item puts out without a limit, where `n` characters were put out before. -/
def Item.text (V : Version) (n : ℤ) : Item → List UInt8
  | .signed m arg =>
      signText m arg ++ uintText V (V.uintptr (if arg < 0 then V.intptr (-arg) else arg)) 10 false 0 0
  | .unsigned m base uarg =>
      uintText V (V.uintptr uarg) base false (m.zeroPrec m.width) m.width
  | .hex m smalls uarg =>
      let width := if m.alt then wrap32 (m.width - 2) else m.width
      m.altText ++ uintText V (V.uintptr uarg) 16 smalls (m.zeroPrec width) width
  | .char c => [c]
  | .string m s =>
      let s := s.takeWhile (· ≠ 0)
      if m.prec = -1 then s else s.take (wrap32 (n + m.prec) - n).toNat

/-- A negative number with a sign flag. -/
def Item.DoubleSigned : Item → Prop
  | .signed m arg => arg < 0 ∧ (m.sign = true ∨ m.space = true)
  | _ => False

theorem Mods.length_signChars (m : Mods) :
    m.signChars.length = if m.sign = true ∨ m.space = true then 1 else 0 := by
  unfold Mods.signChars
  cases m.sign <;> cases m.space <;> rfl

theorem length_signText (m : Mods) (arg : ℤ) :
    (signText m arg).length
      = (if arg < 0 then 1 else 0) + if m.sign = true ∨ m.space = true then 1 else 0 := by
  unfold signText
  rw [List.length_append, m.length_signChars]
  split <;> rfl

/-- The two tests of a signed conversion put the signs out, whatever the limit. -/
theorem putSigned_eq {o : Out} {m : Mods} {arg : ℤ}
    (hroom : o.written + (signText m arg).length ≤ intMax) :
    putSigned V tty size o m arg = .ok (number V tty size (o.emit tty (signText m arg))
      (V.uintptr (if arg < 0 then V.intptr (-arg) else arg)) 10 false 0 0) := by
  have hminus : (if arg < 0 then put tty o '-'.toUInt8 else .ok o)
      = .ok (o.emit tty (if arg < 0 then ['-'.toUInt8] else [])) := by
    by_cases harg : arg < 0
    · rw [length_signText, if_pos harg] at hroom
      rw [if_pos harg, if_pos harg, put_eq _ (by push_cast at hroom; omega)]
    · rw [if_neg harg, if_neg harg, Out.emit_nil]
  have hflag (o' : Out) (ho' : o'.written + m.signChars.length ≤ intMax) :
      (if m.sign then put tty o' '+'.toUInt8 else if m.space then put tty o' ' '.toUInt8 else .ok o')
        = .ok (o'.emit tty m.signChars) := by
    rw [m.length_signChars] at ho'
    unfold Mods.signChars
    cases hsign : m.sign with
    | true =>
        rw [if_pos (Or.inl hsign)] at ho'
        exact put_eq _ (by push_cast at ho'; omega)
    | false =>
        cases hspace : m.space with
        | true =>
            rw [if_pos (Or.inr hspace)] at ho'
            exact put_eq _ (by push_cast at ho'; omega)
        | false => rfl
  unfold putSigned
  rw [hminus]
  dsimp only
  rw [hflag _ ?_]
  · unfold signText
    rw [Out.emit_append]
  · rw [Out.emit_written, add_assoc, ← Nat.cast_add, ← List.length_append]
    exact hroom

theorem putHex_eq {o : Out} (hsize : size ≤ intMax) (hroom : o.written < size) (m : Mods)
    (smalls : Bool) (uarg : ℕ) :
    putHex V tty size o m smalls uarg
      = .ok (o.emit tty ((Item.text V o.written (.hex m smalls uarg)).take
          (size - o.written).toNat)) := by
  unfold putHex Item.text Mods.altText
  cases halt : m.alt with
  | false => simp [halt, number_eq]
  | true =>
      simp only [halt, if_true]
      rw [put_eq _ (by omega)]
      dsimp only
      by_cases hx : o.written + 1 < size
      · rw [if_pos (by simpa using hx), put_eq _ (by simp; omega)]
        dsimp only
        have htake : (size - o.written).toNat = (size - (o.written + 1 + 1)).toNat + 2 := by omega
        rw [number_eq, htake, ← Out.emit_append, ← Out.emit_append]
        simp
      · rw [if_neg (by simpa using hx)]
        dsimp only
        have htake : (size - o.written).toNat = 1 := by omega
        have hnone : (size - (o.written + 1)).toNat = 0 := by omega
        rw [number_eq, htake, ← Out.emit_append]
        simp [hnone]

theorem putChars_eq {w : ℤ} (hw : w ≤ intMax) (s : List UInt8) (o : Out) :
    putChars tty w s o
      = .ok (o.emit tty ((s.takeWhile (· ≠ 0)).take (w - o.written).toNat)) := by
  induction s generalizing o with
  | nil => simp [putChars]
  | cons c s ih =>
      unfold putChars
      by_cases hc : c = 0
      · rw [if_neg (by simp [hc])]
        simp [hc]
      · by_cases hroom : o.written < w
        · have htake : (w - o.written).toNat = (w - (o.written + 1)).toNat + 1 := by omega
          rw [if_pos ⟨hroom, hc⟩, put_eq _ (by omega)]
          dsimp only
          rw [ih, htake, List.takeWhile_cons_of_pos (by simpa using hc), List.take_succ_cons,
            Out.emit_written]
          rfl
        · have htake : (w - o.written).toNat = 0 := by omega
          rw [if_neg (by simp [hroom]), htake]
          simp

theorem putString_eq {o : Out} (hsize : size ≤ intMax) (m : Mods) (s : List UInt8) :
    putString tty size o m s
      = .ok (o.emit tty ((Item.text V o.written (.string m s)).take (size - o.written).toNat)) := by
  unfold putString Item.text
  dsimp only
  by_cases hprec : m.prec = -1
  · rw [if_neg (by simp [hprec]), if_pos hprec, putChars_eq hsize]
  · rw [if_neg hprec, List.take_take]
    by_cases hw : wrap32 (o.written + m.prec) < size
    · rw [if_pos ⟨hprec, hw⟩, putChars_eq (by omega), Nat.min_eq_right (by omega)]
    · rw [if_neg (by simp [hw]), putChars_eq hsize, Nat.min_eq_left (by omega)]

/-- **A pass of the loop puts out as much of its item as fits**, unless there is one character left for
two signs. -/
theorem putItem_eq {o : Out} (hsize : size ≤ intMax) (hroom : o.written < size) {x : Item}
    (hx : x.DoubleSigned → o.written + 1 ≠ size) :
    putItem V tty size o x
      = .ok (o.emit tty ((x.text V o.written).take (size - o.written).toNat)) := by
  cases x with
  | signed m arg =>
      have hlen := length_signText m arg
      have hfits : (signText m arg).length ≤ (size - o.written).toNat := by
        by_cases harg : arg < 0
        · by_cases hflag : m.sign = true ∨ m.space = true
          · have htwo : o.written + 1 ≠ size := hx ⟨harg, hflag⟩
            rw [hlen, if_pos harg, if_pos hflag]
            omega
          · rw [hlen, if_pos harg, if_neg hflag]
            omega
        · rw [hlen, if_neg harg]
          split_ifs <;> omega
      change putSigned V tty size o m arg = .ok (o.emit tty ((signText m arg ++ _).take _))
      rw [putSigned_eq (by omega), number_eq, ← Out.emit_append, List.take_append,
        List.take_of_length_le hfits, Out.emit_written]
      congr 5
      omega
  | unsigned m base uarg => exact congrArg Except.ok (number_eq o _ _ _ _ _)
  | hex m smalls uarg => exact putHex_eq hsize hroom m smalls uarg
  | char c =>
      change put tty o c = .ok (o.emit tty ([c].take _))
      rw [put_eq c (by omega), List.take_of_length_le (by simp; omega)]
  | string m s => exact putString_eq hsize m s

/-- Two signs are put out although there is one character left. -/
theorem putItem_doubleSigned {o : Out} (hsize : size ≤ intMax) (hlast : o.written + 1 = size)
    {x : Item} (hx : x.DoubleSigned) :
    putItem V tty size o x = .error .tooLong ∨
      ∃ l, l.length = 2 ∧ putItem V tty size o x = .ok (o.emit tty l) := by
  cases x with
  | signed m arg =>
      obtain ⟨harg, hflag⟩ := hx
      have hlen := length_signText m arg
      rw [if_pos harg, if_pos hflag] at hlen
      by_cases hmax : size = intMax
      · refine Or.inl ?_
        change putSigned V tty size o m arg = _
        unfold putSigned
        rw [if_pos harg, put_eq _ (by omega)]
        have hfull (c : UInt8) : put tty (o.emit tty ['-'.toUInt8]) c = .error .tooLong := by
          unfold put
          rw [if_pos (by simp; omega)]
        dsimp only
        cases hsign : m.sign with
        | true => simp only [if_true, hfull]
        | false =>
            have hspace : m.space = true := by simpa [hsign] using hflag
            simp only [Bool.false_eq_true, if_false, hspace, if_true, hfull]
      · refine Or.inr ⟨signText m arg, hlen, ?_⟩
        change putSigned V tty size o m arg = _
        rw [putSigned_eq (by omega), number_eq, Out.emit_written, hlen,
          Int.toNat_of_nonpos (by omega), List.take_zero, Out.emit_nil]
  | unsigned => exact hx.elim
  | hex => exact hx.elim
  | char => exact hx.elim
  | string => exact hx.elim

end Kudos.Printf
