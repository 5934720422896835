import Kudos.Library.CInt
import Mathlib.Logic.Function.Basic

set_option autoImplicit false

/-! # Formatted output

`vxnprintf` of `lib/xprintf.c` and of `userland/lib.c`, which began as a copy of it. A string is the list
of its characters; the end of the list is its terminator. A variable argument is what was passed, and
`va_arg` of another type is a fault. -/

namespace Kudos.Printf

open CInt

/-- The differences between the copies: the size of `arg` and `uarg` in bytes, the limit of precision
and field width, and whether an `L` after a conversion is read. -/
structure Version where
  w : ℕ
  limit : ℤ
  longs : Bool

/-- `lib/xprintf.c`, with pointers of `w` bytes. -/
def Version.kernel (w : ℕ) : Version := ⟨w, 22, true⟩

/-- `userland/lib.c`. -/
def Version.userland : Version := ⟨4, 11, false⟩

/-- The conversion to `intptr_t`, or to `int` in userland. -/
def Version.intptr (V : Version) (x : ℤ) : ℤ := Int.bmod x (256 ^ V.w)

/-- The conversion to `uintptr_t`, or to `unsigned int` in userland. -/
def Version.uintptr (V : Version) (x : ℤ) : ℕ := (x % (256 ^ V.w : ℕ)).toNat

inductive VaArg
  | int (v : BitVec 32)
  | uint64 (v : BitVec 64)
  | pointer (v : ℕ)
  | string (s : List UInt8)

/-- The call does not return, an argument has another type than the conversion asks for, or the count of
characters is no `int` any more, which C leaves undefined. -/
inductive Fault
  | endless
  | badArgument
  | tooLong
  deriving DecidableEq

/-- `va_arg(ap, int)`. -/
def vaInt : List VaArg → Except Fault (ℤ × List VaArg)
  | .int v :: args => .ok (v.toInt, args)
  | _ => .error .badArgument

/-- `va_arg(ap, unsigned int)`. Of a pointer this is the lower half. -/
def vaUnsigned : List VaArg → Except Fault (ℕ × List VaArg)
  | .int v :: args => .ok (v.toNat, args)
  | .pointer v :: args => .ok (v % 2 ^ 32, args)
  | _ => .error .badArgument

/-- `va_arg(ap, uint64_t)`. -/
def vaUint64 : List VaArg → Except Fault (ℕ × List VaArg)
  | .uint64 v :: args => .ok (v.toNat, args)
  | _ => .error .badArgument

/-- `va_arg(ap, char*)`. -/
def vaString : List VaArg → Except Fault (List UInt8 × List VaArg)
  | .string s :: args => .ok (s, args)
  | _ => .error .badArgument

/-! ## Output -/

/-- What was put out: `buf` as an offset, what was stored behind the start of the buffer, what went to
the TTY, and `written`. -/
structure Out where
  buf : ℕ
  cells : ℕ → Option UInt8
  sent : List UInt8
  written : ℤ

/-- Nothing yet. -/
def Out.start : Out := ⟨0, fun _ => none, [], 0⟩

/-- `printc`. -/
def printc (tty : Bool) (o : Out) (c : UInt8) : Out :=
  if tty then if c ≠ 0 then { o with sent := o.sent ++ [c] } else o
  else { o with cells := Function.update o.cells o.buf (some c) }

/-- `printc(buf++, c, flags); written++;`. -/
def put (tty : Bool) (o : Out) (c : UInt8) : Except Fault Out :=
  if o.written = intMax then .error .tooLong
  else
    let o := printc tty o c
    .ok { o with buf := o.buf + 1, written := o.written + 1 }

/-- A character of `digits`. -/
def digit (smalls : Bool) (d : ℕ) : UInt8 :=
  if d < 10 then '0'.toUInt8 + UInt8.ofNat d
  else (if smalls then 'a'.toUInt8 else 'A'.toUInt8) + UInt8.ofNat (d - 10)

/-- The digits of `n` from the last one on. `n` passes are enough. -/
def revDigits (base : ℕ) (smalls : Bool) : ℕ → ℕ → List UInt8
  | 0, n => [digit smalls (n % base)]
  | k + 1, n =>
      digit smalls (n % base) :: if n / base ≠ 0 then revDigits base smalls k (n / base) else []

/-- Fill `rev` with `c` while its index is less than `k`. -/
def pad (rev : List UInt8) (k : ℤ) (c : UInt8) : List UInt8 :=
  rev ++ List.replicate (k - rev.length).toNat c

/-- What `print_uint` puts into `rev`. -/
def reversed (V : Version) (n base : ℕ) (smalls : Bool) (prec width : ℤ) : List UInt8 :=
  let rev := revDigits base smalls n n
  let rev := pad rev (min prec V.limit) '0'.toUInt8
  pad rev (min width V.limit) ' '.toUInt8

/-- The last loop of `print_uint`, with its `written`. -/
def printReversed (tty : Bool) (size : ℤ) : List UInt8 → ℤ → Out → ℤ × Out
  | [], written, o => (written, o)
  | c :: cs, written, o =>
      if written < size then
        let o := printc tty o c
        printReversed tty size cs (written + 1) { o with buf := o.buf + 1 }
      else (written, o)

/-- `print_uint`. -/
def printUint (V : Version) (tty : Bool) (o : Out) (size : ℤ) (n base : ℕ) (smalls : Bool)
    (prec width : ℤ) : ℤ × Out :=
  if size ≤ 0 then (0, o)
  else printReversed tty size (reversed V n base smalls prec width).reverse 0 o

/-- A call of `print_uint`, and what its caller makes of the result. -/
def number (V : Version) (tty : Bool) (size : ℤ) (o : Out) (n base : ℕ) (smalls : Bool)
    (prec width : ℤ) : Out :=
  let (w, o) := printUint V tty o (size - o.written) n base smalls prec width
  { o with written := o.written + w }

/-! ## Flags and modifiers -/

/-- The flags, `width` and `prec`. -/
structure Mods where
  alt : Bool := false
  zeropad : Bool := false
  left : Bool := false
  space : Bool := false
  sign : Bool := false
  width : ℤ := -1
  prec : ℤ := -1

/-- `scan_int`, with its `value`. -/
def scanInt : ℤ → List UInt8 → ℤ × List UInt8
  | value, [] => (value, [])
  | value, c :: s =>
      if '0'.toUInt8 < c ∧ c < '9'.toUInt8 then
        scanInt (wrap32 (10 * value + (c.toNat - '0'.toUInt8.toNat : ℤ))) s
      else (value, c :: s)

/-- The switch in the loop over the modifiers: what is left of the format, if `ch` is a modifier. -/
def modifier (ch : UInt8) (fmt : List UInt8) (m : Mods) : Option (List UInt8 × Mods) :=
  if ch = '#'.toUInt8 then some (fmt, { m with alt := true })
  else if ch = '0'.toUInt8 then some (fmt, { m with zeropad := true })
  else if ch = ' '.toUInt8 then some (fmt, { m with space := true })
  else if ch = '+'.toUInt8 then some (fmt, { m with sign := true })
  else if ch = '-'.toUInt8 then some (fmt, { m with left := true })
  else if ch = '.'.toUInt8 then
    let (value, next) := scanInt 0 fmt
    some (next, { m with prec := value })
  else if '1'.toUInt8 ≤ ch ∧ ch ≤ '9'.toUInt8 then
    -- `fmt - 1`, where `ch` was read
    let (value, next) := scanInt 0 (ch :: fmt)
    some (next, { m with width := value })
  else none

/-- The loop over the modifiers, with a bound on its passes. -/
def readModifiers : ℕ → UInt8 → List UInt8 → Mods → Except Fault (UInt8 × List UInt8 × Mods)
  | 0, _, _, _ => .error .endless
  | k + 1, ch, fmt, m =>
      match modifier ch fmt m with
      | none => .ok (ch, fmt, m)
      | some (fmt, m) =>
          if fmt.headD 0 = 0 then .ok (0, fmt.tail, m)
          else readModifiers k (fmt.headD 0) fmt.tail m

/-- A piece of the format: a normal character, or a conversion. -/
inductive Piece
  | plain (c : UInt8)
  | conversion (ch : UInt8) (m : Mods) (long : Bool)

/-- Whether the conversion looks at `*p` for an `L`. -/
def Version.Longs (V : Version) (ch : UInt8) (p : List UInt8) : Prop :=
  V.longs ∧ (ch = 'u'.toUInt8 ∨ ch = 'x'.toUInt8 ∨ ch = 'X'.toUInt8 ∨ ch = 'p'.toUInt8) ∧
    (p.headD 0 = 'L'.toUInt8 ∨ p.headD 0 = 'l'.toUInt8)

instance (V : Version) (ch : UInt8) (p : List UInt8) : Decidable (V.Longs ch p) :=
  inferInstanceAs (Decidable (_ ∧ _))

/-- The next piece and what is left of the format, or nothing at its end. The `L` is skipped here and not
where the argument is read. -/
def readPiece (V : Version) (k : ℕ) (fmt : List UInt8) :
    Except Fault (Option (Piece × List UInt8)) :=
  if fmt.headD 0 = 0 then .ok none
  else if fmt.headD 0 ≠ '%'.toUInt8 then .ok (some (.plain (fmt.headD 0), fmt.tail))
  else
    let fmt := fmt.tail
    if fmt.headD 0 = 0 then .ok none
    else
      let p := fmt.tail
      match readModifiers k (fmt.headD 0) fmt.tail {} with
      | .error e => .error e
      | .ok (ch, fmt, m) =>
          if ch = 0 then .ok none
          else if V.Longs ch p then .ok (some (.conversion ch m true, fmt.tail))
          else .ok (some (.conversion ch m false, fmt))

/-! ## The conversions -/

/-- What a piece of the format puts out, with the argument it read. -/
inductive Item
  | signed (m : Mods) (arg : ℤ)
  | unsigned (m : Mods) (base uarg : ℕ)
  | hex (m : Mods) (smalls : Bool) (uarg : ℕ)
  | char (c : UInt8)
  | string (m : Mods) (s : List UInt8)

/-- The argument of `%u`, `%p`, `%x` and `%X`. -/
def vaUarg (long : Bool) (args : List VaArg) : Except Fault (ℕ × List VaArg) :=
  if long then vaUint64 args else vaUnsigned args

/-- The switch over the type of the argument, as far as it reads arguments. -/
def readArg (ch : UInt8) (m : Mods) (long : Bool) (args : List VaArg) :
    Except Fault (Item × List VaArg) :=
  if ch = 'i'.toUInt8 ∨ ch = 'd'.toUInt8 then (vaInt args).map (Prod.map (.signed m) id)
  else if ch = 'o'.toUInt8 then (vaUnsigned args).map (Prod.map (.unsigned m 8) id)
  else if ch = 'u'.toUInt8 then (vaUarg long args).map (Prod.map (.unsigned m 10) id)
  else if ch = 'p'.toUInt8 then
    (vaUarg long args).map (Prod.map (.hex { m with alt := true } true) id)
  else if ch = 'x'.toUInt8 then (vaUarg long args).map (Prod.map (.hex m true) id)
  else if ch = 'X'.toUInt8 then (vaUarg long args).map (Prod.map (.hex m false) id)
  else if ch = 'c'.toUInt8 then
    (vaInt args).map (Prod.map (fun arg => .char (UInt8.ofNat (arg % 256).toNat)) id)
  else if ch = 's'.toUInt8 then (vaString args).map (Prod.map (.string m) id)
  else .ok (.char ch, args)

def Piece.readArg (args : List VaArg) : Piece → Except Fault (Item × List VaArg)
  | .plain c => .ok (.char c, args)
  | .conversion ch m long => Printf.readArg ch m long args

/-- `%d` and `%i`. -/
def putSigned (V : Version) (tty : Bool) (size : ℤ) (o : Out) (m : Mods) (arg : ℤ) :
    Except Fault Out :=
  match if arg < 0 then put tty o '-'.toUInt8 else .ok o with
  | .error e => .error e
  | .ok o =>
      let arg := if arg < 0 then V.intptr (-arg) else arg
      match if m.sign then put tty o '+'.toUInt8
        else if m.space then put tty o ' '.toUInt8 else .ok o with
      | .error e => .error e
      | .ok o => .ok (number V tty size o (V.uintptr arg) 10 false 0 0)

/-- The precision where zeros fill the field. -/
def Mods.zeroPrec (m : Mods) (width : ℤ) : ℤ :=
  if m.prec < width ∧ m.zeropad then width else m.prec

/-- `%o` and `%u`. -/
def putUnsigned (V : Version) (tty : Bool) (size : ℤ) (o : Out) (m : Mods) (base uarg : ℕ) : Out :=
  number V tty size o (V.uintptr uarg) base false (m.zeroPrec m.width) m.width

/-- `%p`, `%x` and `%X`. -/
def putHex (V : Version) (tty : Bool) (size : ℤ) (o : Out) (m : Mods) (smalls : Bool) (uarg : ℕ) :
    Except Fault Out :=
  if m.alt then
    match put tty o '0'.toUInt8 with
    | .error e => .error e
    | .ok o =>
        match if o.written < size then put tty o 'x'.toUInt8 else .ok o with
        | .error e => .error e
        | .ok o =>
            let width := wrap32 (m.width - 2)
            .ok (number V tty size o (V.uintptr uarg) 16 smalls (m.zeroPrec width) width)
  else .ok (number V tty size o (V.uintptr uarg) 16 smalls (m.zeroPrec m.width) m.width)

/-- The loop of `%s`. -/
def putChars (tty : Bool) (w : ℤ) : List UInt8 → Out → Except Fault Out
  | [], o => .ok o
  | c :: s, o =>
      if o.written < w ∧ c ≠ 0 then
        match put tty o c with
        | .error e => .error e
        | .ok o => putChars tty w s o
      else .ok o

/-- `%s`. -/
def putString (tty : Bool) (size : ℤ) (o : Out) (m : Mods) (s : List UInt8) : Except Fault Out :=
  let w := wrap32 (o.written + m.prec)
  putChars tty (if m.prec ≠ -1 ∧ w < size then w else size) s o

/-- The switch over the type of the argument, behind the argument. -/
def putItem (V : Version) (tty : Bool) (size : ℤ) (o : Out) : Item → Except Fault Out
  | .signed m arg => putSigned V tty size o m arg
  | .unsigned m base uarg => .ok (putUnsigned V tty size o m base uarg)
  | .hex m smalls uarg => putHex V tty size o m smalls uarg
  | .char c => put tty o c
  | .string m s => putString tty size o m s

/-! ## The loop over the format -/

/-- The loop of `vxnprintf`, with a bound on the passes of it and of the loop in it. -/
def printLoop (V : Version) (tty : Bool) (size : ℤ) :
    ℕ → List UInt8 → List VaArg → Out → Except Fault Out
  | 0, _, _, _ => .error .endless
  | k + 1, fmt, args, o =>
      if o.written < size then
        match readPiece V k fmt with
        | .error e => .error e
        | .ok none => .ok o
        | .ok (some (p, fmt)) =>
            match p.readArg args with
            | .error e => .error e
            | .ok (x, args) =>
                match putItem V tty size o x with
                | .error e => .error e
                | .ok o => printLoop V tty size k fmt args o
      else .ok o

/-- Behind the loop: the value returned, with the terminator put out. -/
def finish (tty : Bool) (size : ℤ) (o : Out) : ℤ × Out :=
  let o := if o.written = size then { o with buf := o.buf - 1, written := -1 } else o
  (o.written, printc tty o 0)

/-- `vxnprintf`, if its loops end within `k` passes. -/
def vxnprintf (V : Version) (tty : Bool) (k : ℕ) (size : ℤ) (fmt : List UInt8)
    (args : List VaArg) : Except Fault (ℤ × Out) :=
  if size ≤ 0 then .ok (0, .start)
  else (printLoop V tty size k fmt args .start).map (finish tty size)

/-- `vsnprintf` and `snprintf` of the kernel. -/
def vsnprintf (w k : ℕ) (size : ℤ) (fmt : List UInt8) (args : List VaArg) :
    Except Fault (ℤ × Out) :=
  vxnprintf (.kernel w) false k size fmt args

/-- What `kprintf` and `kvprintf` do between the lock and the unlock. -/
def kvprintf (w k : ℕ) (fmt : List UInt8) (args : List VaArg) : Except Fault (ℤ × Out) :=
  vxnprintf (.kernel w) true k intMax fmt args

end Kudos.Printf
