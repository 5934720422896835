import Kudos.Lib.PrintfText
import Mathlib.Data.List.Induction
import Mathlib.Data.Nat.Digits.Lemmas

set_option autoImplicit false

/-! # Numbers in a buffer of 22 characters

`print_uint` of `lib/xprintf.c` with its array `rev`, in which the characters of a number are put together
from the last one on. An index outside of the array, or of the table of digits, ends the call with nothing
here. There is none for a number of 64 bits in the bases in use (`printUint_numeral`): in octal it has 22
digits at most. -/

namespace Kudos.Printf

/-- `digits`. -/
def digitTable : List UInt8 :=
  ['0', '1', '2', '3', '4', '5', '6', '7', '8', '9', 'A', 'B', 'C', 'D', 'E', 'F',
    '0', '1', '2', '3', '4', '5', '6', '7', '8', '9', 'a', 'b', 'c', 'd', 'e', 'f'].map Char.toUInt8

/-- `rev`. -/
abbrev Rev := Fin 22 → UInt8

namespace Rev

/-- `rev[i]`. -/
def read (rev : Rev) (i : ℤ) : Option UInt8 :=
  if h : 0 ≤ i ∧ i < 22 then some (rev ⟨i.toNat, by omega⟩) else none

/-- `rev[i] = c`. -/
def store (rev : Rev) (i : ℤ) (c : UInt8) : Option Rev :=
  if h : 0 ≤ i ∧ i < 22 then some (Function.update rev ⟨i.toNat, by omega⟩ c) else none

/-- The loop over the digits. -/
def digitLoop (smalls : Bool) (base : ℕ) : ℕ → Rev → ℤ → ℕ → Option (Rev × ℤ)
  | 0, _, _, _ => none
  | k + 1, rev, i, n => do
      let c ← digitTable[if smalls then 16 + n % base else n % base]?
      let rev ← rev.store i c
      if n / base ≠ 0 then digitLoop smalls base k rev (i + 1) (n / base) else some (rev, i + 1)

/-- The loops that fill `rev` with `c` up to an index. -/
def fillLoop (c : UInt8) (limit : ℤ) : ℕ → Rev → ℤ → Option (Rev × ℤ)
  | 0, _, _ => none
  | k + 1, rev, i =>
      if i < limit then do
        let rev ← rev.store i c
        fillLoop c limit k rev (i + 1)
      else some (rev, i)

/-- The loop that puts the characters out. -/
def outLoop (tty : Bool) (size : ℤ) (rev : Rev) : ℕ → ℤ → ℤ → Out → Option (ℤ × Out)
  | 0, _, _, _ => none
  | k + 1, i, written, o =>
      if 0 ≤ i ∧ written < size then do
        let c ← rev.read i
        let o := printc tty o c
        outLoop tty size rev k (i - 1) (written + 1) { o with buf := o.buf + 1 }
      else some (written, o)

/-- `print_uint`, with anything in the array at first, and a bound on the passes of each loop. -/
def printUint (k : ℕ) (rev : Rev) (tty : Bool) (o : Out) (size : ℤ) (n base : ℕ) (smalls : Bool)
    (prec width : ℤ) : Option (ℤ × Out) :=
  if size ≤ 0 then some (0, o)
  else do
    let (rev, i) ← digitLoop smalls base k rev 0 n
    let (rev, i) ← fillLoop '0'.toUInt8 (min prec 22) k rev i
    let (rev, i) ← fillLoop ' '.toUInt8 (min width 22) k rev i
    outLoop tty size rev k (i - 1) 0 o

/-- The array begins with the characters `l`. -/
structure Holds (rev : Rev) (l : List UInt8) : Prop where
  fits : l.length ≤ 22
  cells : ∀ k, (hk : k < l.length) → rev.read k = some l[k]

variable {rev : Rev} {l : List UInt8}

theorem holds_nil : rev.Holds [] := ⟨Nat.zero_le 22, fun k hk => absurd hk (Nat.not_lt_zero k)⟩

/-- One more character. -/
theorem Holds.store (h : rev.Holds l) (hroom : l.length < 22) (c : UInt8) :
    ∃ rev', rev.store l.length c = some rev' ∧ rev'.Holds (l ++ [c]) := by
  have hindex : 0 ≤ (l.length : ℤ) ∧ (l.length : ℤ) < 22 := by omega
  unfold Rev.store
  rw [dif_pos hindex]
  refine ⟨_, rfl, by rw [List.length_append, List.length_singleton]; omega, fun k hk => ?_⟩
  rw [List.length_append, List.length_singleton] at hk
  unfold Rev.read
  rw [dif_pos (by omega)]
  by_cases hlast : k = l.length
  · subst hlast
    rw [Function.update_self, List.getElem_concat_length rfl]
  · have hlt : k < l.length := by omega
    have hcell := h.cells k hlt
    unfold Rev.read at hcell
    rw [dif_pos (by omega)] at hcell
    rw [Function.update_of_ne (fun heq => hlast (by simpa using heq)), hcell,
      List.getElem_append_left hlt]

theorem Holds.of_append {l' : List UInt8} (h : rev.Holds (l ++ l')) : rev.Holds l := by
  have hfits := h.fits
  rw [List.length_append] at hfits
  refine ⟨by omega, fun k hk => ?_⟩
  rw [h.cells k (by rw [List.length_append]; omega), List.getElem_append_left hk]

/-! ## The loops -/

/-- The table has what `digit` computes. -/
theorem digitTable_eq (smalls : Bool) {d : ℕ} (hd : d < 16) :
    digitTable[if smalls then 16 + d else d]? = some (digit smalls d) := by
  have hall : ∀ d < 16, digitTable[16 + d]? = some (digit true d) ∧ digitTable[d]? = some (digit false d) := by
    decide
  cases smalls with
  | true => exact (hall d hd).1
  | false => exact (hall d hd).2

/-- The digits are those of `revDigits`, which runs for `m` passes at most. -/
theorem digitLoop_spec {smalls : Bool} {base : ℕ} (hbase : 2 ≤ base) (hbase' : base ≤ 16) {k m n : ℕ}
    (hm : n ≤ m) (hk : (revDigits base smalls m n).length ≤ k) (h : rev.Holds l)
    (hroom : l.length + (revDigits base smalls m n).length ≤ 22) :
    ∃ rev' : Rev, digitLoop smalls base k rev l.length n
        = some (rev', ((l ++ revDigits base smalls m n).length : ℤ)) ∧
      rev'.Holds (l ++ revDigits base smalls m n) := by
  induction m generalizing k n rev l with
  | zero =>
      obtain rfl := Nat.le_zero.1 hm
      have hdigits : revDigits base smalls 0 0 = [digit smalls (0 % base)] := rfl
      rw [hdigits, List.length_singleton] at hk hroom
      rw [hdigits]
      obtain ⟨k, rfl⟩ : ∃ k', k = k' + 1 := ⟨k - 1, by omega⟩
      obtain ⟨rev', hstore, hholds⟩ := h.store (by omega) (digit smalls (0 % base))
      refine ⟨rev', ?_, hholds⟩
      rw [digitLoop, digitTable_eq smalls (by rw [Nat.zero_mod]; decide), Option.bind_eq_bind,
        Option.bind_some, hstore, Option.bind_eq_bind, Option.bind_some, Nat.zero_div, if_neg (by simp),
        List.length_append]
      rfl
  | succ m ih =>
      have hmod : n % base < 16 := Nat.lt_of_lt_of_le (Nat.mod_lt n (by omega)) hbase'
      have hdigits : revDigits base smalls (m + 1) n = digit smalls (n % base) ::
          if n / base ≠ 0 then revDigits base smalls m (n / base) else [] := rfl
      rw [hdigits, List.length_cons] at hk hroom
      rw [hdigits]
      obtain ⟨k, rfl⟩ : ∃ k', k = k' + 1 := ⟨k - 1, by omega⟩
      obtain ⟨rev1, hstore, hholds⟩ := h.store (by omega) (digit smalls (n % base))
      rw [digitLoop, digitTable_eq smalls hmod, Option.bind_eq_bind, Option.bind_some, hstore,
        Option.bind_eq_bind, Option.bind_some]
      by_cases hrest : n / base ≠ 0
      · rw [if_pos hrest] at hk hroom ⊢
        have hdiv : n / base < n := Nat.div_lt_self (by
          by_contra hzero
          exact hrest (by rw [show n = 0 by omega, Nat.zero_div])) (by omega)
        have hnext := @ih rev1 (l ++ [digit smalls (n % base)]) k (n / base) (by omega) (by omega) hholds
          (by rw [List.length_append, List.length_singleton]; omega)
        rw [List.append_assoc, List.singleton_append, List.length_append, List.length_singleton] at hnext
        rw [if_pos hrest]
        exact_mod_cast hnext
      · rw [if_neg hrest, if_neg hrest]
        exact ⟨rev1, by rw [List.length_append, List.length_singleton]; push_cast; rfl, hholds⟩

/-- The other loops pad. -/
theorem fillLoop_spec {c : UInt8} {limit : ℤ} (hlimit : limit ≤ 22) {k : ℕ} (h : rev.Holds l)
    (hk : (limit - l.length).toNat < k) :
    ∃ rev' : Rev, fillLoop c limit k rev l.length = some (rev', ((pad l limit c).length : ℤ)) ∧
      rev'.Holds (pad l limit c) := by
  induction k generalizing rev l with
  | zero => omega
  | succ k ih =>
      unfold fillLoop
      by_cases hlt : (l.length : ℤ) < limit
      · obtain ⟨rev1, hstore, hholds⟩ := h.store (by omega) c
        have hlength : (l ++ [c]).length = l.length + 1 := by simp
        have hpad : pad (l ++ [c]) limit c = pad l limit c := by
          unfold pad
          rw [hlength, show (limit - l.length).toNat = (limit - (l.length + 1 : ℕ)).toNat + 1 by omega,
            List.replicate_succ, List.append_assoc, List.singleton_append]
        have hnext := ih hholds (by rw [hlength]; omega)
        rw [hpad, hlength] at hnext
        rw [if_pos hlt, hstore, Option.bind_eq_bind, Option.bind_some]
        exact_mod_cast hnext
      · have hpad : pad l limit c = l := by
          unfold pad
          rw [Int.toNat_of_nonpos (by omega)]
          exact List.append_nil l
        rw [if_neg hlt, hpad]
        exact ⟨rev, rfl, h⟩

/-- The last loop puts the characters out from the end on. -/
theorem outLoop_spec {tty : Bool} {size : ℤ} {k : ℕ} (h : rev.Holds l) (hk : l.length < k) (w : ℤ)
    (o : Out) :
    outLoop tty size rev k (l.length - 1) w o = some (printReversed tty size l.reverse w o) := by
  induction l using List.reverseRecOn generalizing k w o with
  | nil =>
      obtain ⟨k, rfl⟩ : ∃ k', k = k' + 1 := ⟨k - 1, by omega⟩
      unfold outLoop
      rw [if_neg fun hi => by simp at hi]
      rfl
  | append_singleton l c ih =>
      have hlength : (l ++ [c]).length = l.length + 1 := by simp
      obtain ⟨k, rfl⟩ : ∃ k', k = k' + 1 := ⟨k - 1, by omega⟩
      have hindex : ((l ++ [c]).length : ℤ) - 1 = l.length := by
        rw [hlength]
        push_cast
        omega
      have hcell : rev.read l.length = some c := by
        rw [h.cells l.length (by omega), List.getElem_concat_length rfl]
      unfold outLoop
      rw [hindex, List.reverse_append, List.reverse_singleton, List.singleton_append, printReversed]
      by_cases hw : w < size
      · rw [if_pos ⟨by omega, hw⟩, if_pos hw, hcell, Option.bind_eq_bind, Option.bind_some]
        exact ih h.of_append (by omega) _ _
      · rw [if_neg fun hi => hw hi.2, if_neg hw]

/-- **The array is large enough**, and the function is the one on lists. -/
theorem printUint_eq {w : ℕ} {tty : Bool} {o : Out} {size : ℤ} {n base : ℕ} {smalls : Bool}
    {prec width : ℤ} (rev : Rev) (hbase : 2 ≤ base) (hbase' : base ≤ 16)
    (hfits : (revDigits base smalls n n).length ≤ 22) :
    printUint 23 rev tty o size n base smalls prec width
      = some (Printf.printUint (.kernel w) tty o size n base smalls prec width) := by
  unfold printUint Printf.printUint
  by_cases hsize : size ≤ 0
  · rw [if_pos hsize, if_pos hsize]
  · obtain ⟨rev1, hdigits, h1⟩ := @digitLoop_spec rev [] smalls base hbase hbase' 23 n n le_rfl
      (by omega) holds_nil (by rw [List.length_nil]; omega)
    rw [List.nil_append] at hdigits h1
    obtain ⟨rev2, hzeros, h2⟩ := @fillLoop_spec rev1 _ '0'.toUInt8 (min prec 22) (min_le_right _ _) 23 h1
      (by omega)
    obtain ⟨rev3, hspaces, h3⟩ := @fillLoop_spec rev2 _ ' '.toUInt8 (min width 22) (min_le_right _ _) 23
      h2 (by omega)
    have hout := @outLoop_spec rev3 _ tty size 23 h3 (by have := h3.fits; omega) 0 o
    rw [if_neg hsize, if_neg hsize]
    change (digitLoop smalls base 23 rev ((0 : ℕ) : ℤ) n).bind _ = _
    rw [List.length_nil] at hdigits
    rw [hdigits]
    change (fillLoop _ _ 23 rev1 _).bind _ = _
    rw [hzeros]
    change (fillLoop _ _ 23 rev2 _).bind _ = _
    rw [hspaces]
    exact hout

end Rev

/-! ## The numeral -/

/-- The digits of a number, the first one in front; at least one. -/
def canonicalDigits (base n : ℕ) : List ℕ := if n = 0 then [0] else (Nat.digits base n).reverse

/-- The value of a character as a digit. -/
def hexValue (c : UInt8) : ℕ :=
  if c ≤ '9'.toUInt8 then c.toNat - '0'.toUInt8.toNat
  else if c ≤ 'F'.toUInt8 then c.toNat - 'A'.toUInt8.toNat + 10
  else c.toNat - 'a'.toUInt8.toNat + 10

/-- The number that the characters are the digits of. -/
def numeralValue (base : ℕ) (s : List UInt8) : ℕ := Nat.ofDigits base (s.reverse.map hexValue)

/-- The digits as characters, with zeros in front up to `prec`. -/
def numeralText (base n : ℕ) (smalls : Bool) (prec : ℤ) : List UInt8 :=
  List.replicate (min prec 22 - (canonicalDigits base n).length).toNat '0'.toUInt8
    ++ (canonicalDigits base n).map (digit smalls)

/-- The numeral, with blanks in front up to `width`. -/
def numberText (base n : ℕ) (smalls : Bool) (prec width : ℤ) : List UInt8 :=
  List.replicate (min width 22 - (numeralText base n smalls prec).length).toNat ' '.toUInt8
    ++ numeralText base n smalls prec

/-- What `print_uint` is for: it puts out as much of the number as fits, and returns how much this is. The
function on lists, which the conversions use, does the same. -/
structure WritesNumeral (w : ℕ) (rev : Rev) (tty : Bool) (o : Out) (size : ℤ) (n base : ℕ) (smalls : Bool)
    (prec width : ℤ) : Prop where
  length : ((numberText base n smalls prec width).length : ℤ)
    = max ((canonicalDigits base n).length : ℤ) (max (min prec 22) (min width 22))
  value : numeralValue base (numeralText base n smalls prec) = n
  digits : ∀ d ∈ canonicalDigits base n, d < base
  count : ∀ k, 1 ≤ k → ((canonicalDigits base n).length ≤ k ↔ n < base ^ k)
  array : rev.printUint 23 tty o size n base smalls prec width
    = some (min size (numberText base n smalls prec width).length,
      { o.emit tty ((numberText base n smalls prec width).take size.toNat) with written := o.written })
  list : printUint (.kernel w) tty o size n base smalls prec width
    = (min size (numberText base n smalls prec width).length,
      { o.emit tty ((numberText base n smalls prec width).take size.toNat) with written := o.written })

theorem hexValue_digit (smalls : Bool) {d : ℕ} (hd : d < 16) : hexValue (digit smalls d) = d := by
  have hall : ∀ d < 16, hexValue (digit true d) = d ∧ hexValue (digit false d) = d := by decide
  cases smalls with
  | true => exact (hall d hd).1
  | false => exact (hall d hd).2

theorem revDigits_eq {base m n : ℕ} (hbase : 2 ≤ base) (hm : n ≤ m) (smalls : Bool) :
    revDigits base smalls m n = ((canonicalDigits base n).map (digit smalls)).reverse := by
  induction m generalizing n with
  | zero =>
      obtain rfl := Nat.le_zero.1 hm
      unfold revDigits
      rw [Nat.zero_mod]
      rfl
  | succ m ih =>
      unfold revDigits canonicalDigits
      by_cases hn : n = 0
      · rw [if_pos hn, hn, Nat.zero_mod, Nat.zero_div, if_neg (by simp)]
        rfl
      · have hdiv : n / base < n := Nat.div_lt_self (by omega) (by omega)
        rw [if_neg hn, List.map_reverse, List.reverse_reverse, Nat.digits_def' hbase (by omega),
          List.map_cons]
        by_cases hrest : n / base = 0
        · rw [if_neg (not_not.2 hrest), hrest, Nat.digits_zero, List.map_nil]
        · have hnext := ih (n := n / base) (by omega)
          unfold canonicalDigits at hnext
          rw [if_neg hrest, List.map_reverse, List.reverse_reverse] at hnext
          rw [if_pos hrest, hnext]

section

variable {base n : ℕ}

theorem canonicalDigits_lt (hbase : 2 ≤ base) : ∀ d ∈ canonicalDigits base n, d < base := by
  intro d hd
  unfold canonicalDigits at hd
  split_ifs at hd
  · rw [List.mem_singleton.1 hd]
    omega
  · exact Nat.digits_lt_base hbase (List.mem_reverse.1 hd)

theorem ofDigits_canonicalDigits : Nat.ofDigits base (canonicalDigits base n).reverse = n := by
  unfold canonicalDigits
  split_ifs with hn
  · rw [List.reverse_singleton, Nat.ofDigits_singleton, hn]
  · rw [List.reverse_reverse, Nat.ofDigits_digits]

/-- There are no leading zeros. -/
theorem length_canonicalDigits_le_iff (hbase : 2 ≤ base) {k : ℕ} (hk : 1 ≤ k) :
    (canonicalDigits base n).length ≤ k ↔ n < base ^ k := by
  unfold canonicalDigits
  split_ifs with hn
  · rw [List.length_singleton, hn]
    exact iff_of_true hk (Nat.pow_pos (by omega))
  · rw [List.length_reverse, Nat.digits_length_le_iff hbase]

/-- 22 digits are enough for 64 bits. -/
theorem length_canonicalDigits_le (hbase : 8 ≤ base) (hn : n < 2 ^ 64) :
    (canonicalDigits base n).length ≤ 22 := by
  refine (length_canonicalDigits_le_iff (by omega) (by decide)).2 ?_
  calc n < 8 ^ 22 := by omega
    _ ≤ base ^ 22 := Nat.pow_le_pow_left hbase 22

/-- The numeral has the value of the number, with zeros in front of it or not. -/
theorem numeralValue_numeralText (hbase : 2 ≤ base) (hbase' : base ≤ 16) (smalls : Bool) (prec : ℤ) :
    numeralValue base (numeralText base n smalls prec) = n := by
  have hdigits : ((canonicalDigits base n).map (digit smalls)).map hexValue = canonicalDigits base n := by
    rw [List.map_map]
    refine (List.map_congr_left fun d hd => ?_).trans (List.map_id _)
    exact hexValue_digit smalls (Nat.lt_of_lt_of_le (canonicalDigits_lt hbase d hd) hbase')
  have hzero : hexValue '0'.toUInt8 = 0 := by decide
  unfold numeralValue numeralText
  rw [List.map_reverse, List.map_append, hdigits, List.map_replicate, hzero, List.reverse_append,
    List.reverse_replicate, Nat.ofDigits_append_replicate_zero, ofDigits_canonicalDigits]

/-- What `print_uint` would put out without a limit. -/
theorem uintText_eq {w : ℕ} (hbase : 2 ≤ base) (smalls : Bool) (prec width : ℤ) :
    uintText (.kernel w) n base smalls prec width = numberText base n smalls prec width := by
  have hzeros : pad (revDigits base smalls n n) (min prec 22) '0'.toUInt8
      = (numeralText base n smalls prec).reverse := by
    unfold pad numeralText
    rw [revDigits_eq hbase le_rfl, List.reverse_append, List.reverse_replicate, List.length_reverse,
      List.length_map]
  unfold uintText reversed
  change (pad (pad _ (min prec 22) _) (min width 22) _).reverse = _
  rw [hzeros]
  unfold pad numberText
  rw [List.reverse_append, List.reverse_replicate, List.reverse_reverse, List.length_reverse]

theorem length_numberText (smalls : Bool) (prec width : ℤ) :
    ((numberText base n smalls prec width).length : ℤ)
      = max ((canonicalDigits base n).length : ℤ) (max (min prec 22) (min width 22)) := by
  unfold numberText numeralText
  simp only [List.length_append, List.length_replicate, List.length_map]
  omega

end

/-- **`print_uint` writes the numeral**: blanks, zeros and the digits, as many of these characters as
fit. -/
theorem printUint_numeral (w : ℕ) (rev : Rev) (tty : Bool) (o : Out) {size : ℤ} {n base : ℕ}
    (smalls : Bool) (prec width : ℤ) (hsize : 1 ≤ size) (hn : n < 2 ^ 64)
    (hbase : base = 8 ∨ base = 10 ∨ base = 16) :
    WritesNumeral w rev tty o size n base smalls prec width := by
  have hlo : 8 ≤ base := by omega
  have hhi : base ≤ 16 := by omega
  have htwo : 2 ≤ base := by omega
  have hfits : (revDigits base smalls n n).length ≤ 22 := by
    rw [revDigits_eq htwo le_rfl, List.length_reverse, List.length_map]
    exact length_canonicalDigits_le hlo hn
  have hprint : printUint (.kernel w) tty o size n base smalls prec width
      = (min size (numberText base n smalls prec width).length,
        { o.emit tty ((numberText base n smalls prec width).take size.toNat)
          with written := o.written }) := by
    rw [← uintText_eq (w := w) htwo]
    unfold printUint
    rw [if_neg (by omega), printReversed_eq, sub_zero, zero_add]
    refine Prod.ext ?_ rfl
    change ((List.take size.toNat (uintText (.kernel w) n base smalls prec width)).length : ℤ) = _
    rw [List.length_take]
    omega
  refine ⟨length_numberText smalls prec width, numeralValue_numeralText htwo hhi smalls prec,
    canonicalDigits_lt htwo, fun k hk => length_canonicalDigits_le_iff htwo hk, ?_, hprint⟩
  rw [Rev.printUint_eq (w := w) rev htwo hhi hfits, hprint]

/-- The largest number in octal, with a width that is cut down, into a buffer for ten characters. -/
theorem printUint_numeral_octal :
    WritesNumeral 8 (fun _ => 0) false .start 10 (2 ^ 64 - 1) 8 false 3 30 :=
  printUint_numeral 8 (fun _ => 0) false .start false 3 30 (by decide) (by decide) (Or.inl rfl)

end Kudos.Printf
