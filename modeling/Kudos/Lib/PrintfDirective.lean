import Kudos.Lib.Atoi
import Kudos.Lib.PrintUint

set_option autoImplicit false

/-! # Field widths and precisions

`scan_int` reads the digits from 1 to 8. At a 0 or a 9 it stops, and what is left of the numeral is read by
the loop over the modifiers: a 0 as the flag for zeros, other digits as another field width, and a 9 again
and again. So `%w.pu` is a conversion with the width `w` and the precision `p` if neither has such a digit,
and in one more case (`directiveRight_iff`). -/

namespace Kudos.Printf

open CInt

/-- A decimal numeral for an `int`. -/
structure Decimal where
  digits : List UInt8
  nonempty : digits ≠ []
  decimal : ∀ c ∈ digits, isDigit c = true
  small : numeral digits < 2 ^ 31

/-- The digits are neither 0 nor 9. -/
def Plain (s : List UInt8) : Prop := ∀ c ∈ s, c ≠ '0'.toUInt8 ∧ c ≠ '9'.toUInt8

/-- `%w.pu` calls `print_uint` with this width and precision. -/
def DirectiveRight (V : Version) (width prec : Decimal) (rest : List UInt8) : Prop :=
  ∃ k m, readPiece V k ('%'.toUInt8 :: (width.digits ++ '.'.toUInt8 :: (prec.digits ++ 'u'.toUInt8 :: rest)))
      = .ok (some (.conversion 'u'.toUInt8 m false, rest)) ∧
    m.width = numeral width.digits ∧ m.zeroPrec m.width = numeral prec.digits

/-! ## Digits -/

theorem isDigit_iff {c : UInt8} :
    isDigit c = true ↔ c = '0'.toUInt8 ∨ isScanned c = true ∨ c = '9'.toUInt8 := by
  have hzero : '0'.toUInt8.toNat = 48 := rfl
  have hnine : '9'.toUInt8.toNat = 57 := rfl
  unfold isDigit isScanned
  rw [decide_eq_true_eq, decide_eq_true_eq, UInt8.le_iff_toNat_le, UInt8.le_iff_toNat_le,
    UInt8.lt_iff_toNat_lt, UInt8.lt_iff_toNat_lt, ← UInt8.toNat_inj, ← UInt8.toNat_inj]
  omega

theorem isScanned_zero : isScanned '0'.toUInt8 = false := by decide

theorem isScanned_nine : isScanned '9'.toUInt8 = false := by decide

/-- There is no 0 among the digits that are read. -/
theorem zero_not_mem {g : List UInt8} (hg : ∀ c ∈ g, isScanned c = true) : '0'.toUInt8 ∉ g :=
  fun hmem => Bool.false_ne_true (isScanned_zero.symm.trans (hg _ hmem))

/-- Without a 9, a digit is the 0 or one that is read. -/
theorem zero_or_scanned {s : List UInt8} (hs : ∀ c ∈ s, isDigit c = true) (hnine : '9'.toUInt8 ∉ s) :
    ∀ c ∈ s, c = '0'.toUInt8 ∨ isScanned c = true := by
  intro c hc
  rcases isDigit_iff.1 (hs c hc) with hzero | hscanned | rfl
  · exact Or.inl hzero
  · exact Or.inr hscanned
  · exact absurd hc hnine

/-- The digits that are read are the plain ones. -/
theorem plain_iff {s : List UInt8} (hs : ∀ c ∈ s, isDigit c = true) :
    Plain s ↔ ∀ c ∈ s, isScanned c = true := by
  refine forall₂_congr fun c hc => ?_
  rcases isDigit_iff.1 (hs c hc) with rfl | hscanned | rfl
  · simp [isScanned_zero]
  · have hne (d : UInt8) (hd : isScanned d = false) : c ≠ d := by
      rintro rfl
      exact Bool.false_ne_true (hd.symm.trans hscanned)
    exact iff_of_true ⟨hne _ isScanned_zero, hne _ isScanned_nine⟩ hscanned
  · simp [isScanned_nine]

theorem digitValue_lt {c : UInt8} (h : isDigit c = true) : digitValue c < 10 := by
  have hzero : '0'.toUInt8.toNat = 48 := rfl
  have hnine : '9'.toUInt8.toNat = 57 := rfl
  unfold isDigit at h
  rw [decide_eq_true_eq, UInt8.le_iff_toNat_le, UInt8.le_iff_toNat_le] at h
  unfold digitValue
  omega

theorem digitValue_injective {c d : UInt8} (hc : isDigit c = true) (hd : isDigit d = true)
    (h : digitValue c = digitValue d) : c = d := by
  have hzero : '0'.toUInt8.toNat = 48 := rfl
  unfold isDigit at hc hd
  rw [decide_eq_true_eq, UInt8.le_iff_toNat_le, UInt8.le_iff_toNat_le] at hc hd
  unfold digitValue at h
  apply UInt8.toNat_inj.1
  omega

theorem digitValue_pos {c : UInt8} (hc : isDigit c = true) (h : c ≠ '0'.toUInt8) : 0 < digitValue c := by
  rw [Nat.pos_iff_ne_zero]
  exact fun hzero => h (digitValue_injective hc (by decide) hzero)

/-! ## Numerals -/

theorem numeral_append (s t : List UInt8) : numeral (s ++ t) = numeralFrom (numeral s) t :=
  numeralFrom_append 0 s t

theorem numeral_eq_ofDigits (s : List UInt8) : numeral s = Nat.ofDigits 10 (s.reverse.map digitValue) := by
  induction s using List.reverseRecOn with
  | nil => rfl
  | append_singleton s c ih =>
      rw [numeral_append, List.reverse_append, List.reverse_singleton, List.singleton_append, List.map_cons,
        Nat.ofDigits_cons, ← ih, Nat.add_comm]
      rfl

theorem numeral_replicate_append (k : ℕ) (s : List UInt8) :
    numeral (List.replicate k '0'.toUInt8 ++ s) = numeral s := by
  have hzero : digitValue '0'.toUInt8 = 0 := by decide
  rw [numeral_eq_ofDigits, numeral_eq_ofDigits, List.reverse_append, List.reverse_replicate, List.map_append,
    List.map_replicate, hzero, Nat.ofDigits_append_replicate_zero]

/-- The zeros in front of a numeral. -/
theorem exists_zeros {s : List UInt8} (hhead : s.head? = some '0'.toUInt8) :
    ∃ k ds, s = List.replicate k '0'.toUInt8 ++ ds ∧ 1 ≤ k ∧ ds.head? ≠ some '0'.toUInt8 := by
  refine ⟨(s.takeWhile (· = '0'.toUInt8)).length, s.dropWhile (· = '0'.toUInt8), ?_, ?_, ?_⟩
  · have hrep : s.takeWhile (· = '0'.toUInt8)
        = List.replicate (s.takeWhile (· = '0'.toUInt8)).length '0'.toUInt8 :=
      List.eq_replicate_iff.2 ⟨rfl, fun c hc => of_decide_eq_true (List.all_eq_true.1 List.all_takeWhile c hc)⟩
    rw [← hrep, List.takeWhile_append_dropWhile]
  · cases s with
    | nil => cases hhead
    | cons c s =>
        rw [List.takeWhile_cons, if_pos (decide_eq_true (Option.some.inj hhead)), List.length_cons]
        omega
  · intro hzero
    have hstop := List.head?_dropWhile_not (fun c => decide (c = '0'.toUInt8)) s
    rw [hzero] at hstop
    exact absurd hstop (by decide)

/-- Without leading zeros there is one numeral for a number. -/
theorem numeral_injective {s t : List UInt8} (hs : ∀ c ∈ s, isDigit c = true)
    (ht : ∀ c ∈ t, isDigit c = true) (hs0 : s.head? ≠ some '0'.toUInt8) (ht0 : t.head? ≠ some '0'.toUInt8)
    (h : numeral s = numeral t) : s = t := by
  have hdigits {s : List UInt8} (hs : ∀ c ∈ s, isDigit c = true) (hs0 : s.head? ≠ some '0'.toUInt8) :
      Nat.digits 10 (numeral s) = s.reverse.map digitValue := by
    rw [numeral_eq_ofDigits]
    refine Nat.digits_ofDigits 10 (by decide) _ (fun d hd => ?_) fun hne => ?_
    · obtain ⟨c, hc, rfl⟩ := List.mem_map.1 hd
      exact digitValue_lt (hs c (List.mem_reverse.1 hc))
    · cases s with
      | nil => exact absurd rfl hne
      | cons c s =>
          simp only [List.reverse_cons, List.map_append, List.map_cons, List.map_nil, List.getLast_concat]
          exact (digitValue_pos (hs c (List.mem_cons_self ..)) fun hc => hs0 (congrArg some hc)).ne'
  have hmap : s.reverse.map digitValue = t.reverse.map digitValue := by
    rw [← hdigits hs hs0, h, hdigits ht ht0]
  have hlength : s.length = t.length := by simpa using congrArg List.length hmap
  rw [List.map_reverse, List.map_reverse, List.reverse_inj] at hmap
  refine List.ext_getElem hlength fun k hk hk' => ?_
  refine digitValue_injective (hs _ (List.getElem_mem hk)) (ht _ (List.getElem_mem hk')) ?_
  have hget := congrArg (·[k]?) hmap
  simpa [hk, hk'] using hget

theorem numeral_pos {s : List UInt8} (hs : ∀ c ∈ s, isDigit c = true) (hne : s ≠ [])
    (hs0 : s.head? ≠ some '0'.toUInt8) : 0 < numeral s := by
  cases s with
  | nil => exact absurd rfl hne
  | cons c s =>
      have hpos := digitValue_pos (hs c (List.mem_cons_self ..)) fun hc => hs0 (congrArg some hc)
      have hle := le_numeralFrom (10 * 0 + digitValue c) s
      change 0 < numeralFrom (10 * 0 + digitValue c) s
      omega

/-- A part of a numeral is not larger. -/
theorem numeral_le (pre s post : List UInt8) : numeral s ≤ numeral (pre ++ s ++ post) := by
  have hmono {a b : ℕ} (h : a ≤ b) (s : List UInt8) : numeralFrom a s ≤ numeralFrom b s := by
    induction s generalizing a b with
    | nil => exact h
    | cons c s ih => exact ih (by omega : 10 * a + digitValue c ≤ 10 * b + digitValue c)
  rw [numeral_append]
  refine le_trans ?_ (le_numeralFrom _ post)
  rw [numeral_append]
  exact hmono (Nat.zero_le _) s

/-! ## `scan_int` -/

theorem scanInt_append {g rest : List UInt8} (hg : ∀ c ∈ g, isScanned c = true)
    (hrest : ∀ c ∈ rest.head?, isScanned c = false) (value : ℤ) :
    scanInt value (g ++ rest) = ((scanInt value g).1, rest) := by
  induction g generalizing value with
  | nil =>
      cases rest with
      | nil => rfl
      | cons c rest =>
          have hc : ¬('0'.toUInt8 < c ∧ c < '9'.toUInt8) := of_decide_eq_false (hrest c rfl)
          change scanInt value (c :: rest) = (value, c :: rest)
          rw [scanInt, if_neg hc]
  | cons c g ih =>
      have hc : '0'.toUInt8 < c ∧ c < '9'.toUInt8 := of_decide_eq_true (hg c (List.mem_cons_self ..))
      rw [List.cons_append, scanInt, scanInt, if_pos hc, if_pos hc]
      exact ih (fun c hc => hg c (List.mem_cons_of_mem _ hc)) _

/-- Where the scan stops. -/
theorem exists_scanned (s : List UInt8) : ∃ g t, s = g ++ t ∧ (∀ c ∈ g, isScanned c = true) ∧
    ∀ c ∈ t.head?, isScanned c = false := by
  refine ⟨s.takeWhile isScanned, s.dropWhile isScanned, List.takeWhile_append_dropWhile.symm,
    fun c hc => List.all_eq_true.1 List.all_takeWhile c hc, fun c hc => ?_⟩
  have hstop := List.head?_dropWhile_not isScanned s
  rw [Option.mem_def.1 hc] at hstop
  exact hstop

/-- The value of the digits that are read. -/
theorem scanInt_value {g : List UInt8} (hg : ∀ c ∈ g, isScanned c = true) {a : ℕ}
    (ha : numeralFrom a g < 2 ^ 31) : (scanInt a g).1 = numeralFrom a g := by
  induction g generalizing a with
  | nil => rfl
  | cons c g ih =>
      have hc : '0'.toUInt8 < c ∧ c < '9'.toUInt8 := of_decide_eq_true (hg c (List.mem_cons_self ..))
      have hlo : '0'.toUInt8.toNat < c.toNat := UInt8.lt_iff_toNat_lt.1 hc.1
      have hstep : numeralFrom a (c :: g) = numeralFrom (10 * a + digitValue c) g := rfl
      have hle := le_numeralFrom (10 * a + digitValue c) g
      have hvalue : (10 * (a : ℤ) + (c.toNat - '0'.toUInt8.toNat : ℤ)) = ((10 * a + digitValue c : ℕ) : ℤ) := by
        unfold digitValue
        push_cast [Nat.cast_sub hlo.le]
        rfl
      rw [hstep] at ha ⊢
      rw [scanInt, if_pos hc, hvalue, wrap32_eq_self (by omega) (by omega)]
      exact ih (fun c hc => hg c (List.mem_cons_of_mem _ hc)) ha

/-- **`scan_int` reads a numeral** if and only if its digits are plain. -/
theorem scanInt_iff (d : Decimal) {rest : List UInt8} (hrest : ∀ c ∈ rest.head?, isDigit c = false) :
    scanInt 0 (d.digits ++ rest) = ((numeral d.digits : ℤ), rest) ↔ Plain d.digits := by
  have hrest' : ∀ c ∈ rest.head?, isScanned c = false := by
    intro c hc
    by_contra hscanned
    have hdigit := isDigit_iff.2 (Or.inr (Or.inl (Bool.eq_true_of_not_eq_false hscanned)))
    exact Bool.false_ne_true ((hrest c hc).symm.trans hdigit)
  rw [plain_iff d.decimal]
  constructor
  · intro h c hc
    by_contra hscanned
    -- the scan stops in front of the character, or before
    have hstop := scanInt_snd 0 (d.digits ++ rest)
    rw [h] at hstop
    have hne : d.digits.dropWhile isScanned ≠ [] := by
      intro hnil
      rw [List.dropWhile_eq_nil_iff] at hnil
      exact hscanned (hnil c hc)
    have hdrop := @List.dropWhile_append _ isScanned d.digits rest
    rw [if_neg (by simpa using hne)] at hdrop
    have hlength := congrArg List.length (hstop.trans hdrop)
    rw [List.length_append] at hlength
    have hpos := List.length_pos_iff.2 hne
    change rest.length = _ at hlength
    omega
  · intro hplain
    rw [scanInt_append hplain hrest']
    have hvalue := @scanInt_value d.digits hplain 0 d.small
    exact Prod.ext hvalue rfl

/-! ## The loop over the modifiers -/

/-- With the format `fmt` in front of it, the loop comes to its end, with the result `r`. -/
def Reads (fmt : List UInt8) (m : Mods) (r : UInt8 × List UInt8 × Mods) : Prop :=
  ∃ k₀, ∀ k, k₀ ≤ k → readModifiers k (fmt.headD 0) fmt.tail m = .ok r

namespace Reads

variable {c : UInt8} {fmt fmt' rest : List UInt8} {m m' : Mods} {r r' : UInt8 × List UInt8 × Mods}

theorem done (hmod : modifier c fmt m = none) : Reads (c :: fmt) m (c, fmt, m) := by
  refine ⟨1, fun k hk => ?_⟩
  obtain ⟨k, rfl⟩ : ∃ k', k = k' + 1 := ⟨k - 1, by omega⟩
  change readModifiers (k + 1) c fmt m = _
  unfold readModifiers
  rw [hmod]

theorem step (hmod : modifier c fmt m = some (fmt', m')) (hne : fmt'.headD 0 ≠ 0) (h : Reads fmt' m' r) :
    Reads (c :: fmt) m r := by
  obtain ⟨k₀, hk₀⟩ := h
  refine ⟨k₀ + 1, fun k hk => ?_⟩
  obtain ⟨k, rfl⟩ : ∃ k', k = k' + 1 := ⟨k - 1, by omega⟩
  change readModifiers (k + 1) c fmt m = _
  unfold readModifiers
  rw [hmod]
  dsimp only
  rw [if_neg hne]
  exact hk₀ k (by omega)

/-- There is no other result. -/
theorem unique {k : ℕ} (h : Reads fmt m r) (hok : readModifiers k (fmt.headD 0) fmt.tail m = .ok r') :
    r = r' := by
  obtain ⟨k₀, hk₀⟩ := h
  have hmore (j : ℕ) : readModifiers (k + j) (fmt.headD 0) fmt.tail m = .ok r' := by
    induction j with
    | zero => exact hok
    | succ j ih =>
        have hne : readModifiers (k + j) (fmt.headD 0) fmt.tail m ≠ .error .endless := by
          rw [ih]
          exact fun h => by cases h
        rw [← Nat.add_assoc, readModifiers_succ hne, ih]
  have hend := hk₀ (k + k₀) (by omega)
  rw [hmore k₀] at hend
  exact (Except.ok.inj hend).symm

/-- A 0 is a flag. -/
theorem zero (hne : fmt.headD 0 ≠ 0) (h : Reads fmt { m with zeropad := true } r) :
    Reads ('0'.toUInt8 :: fmt) m r := by
  refine step ?_ hne h
  unfold modifier
  rw [if_neg (by decide), if_pos rfl]

/-- Digits that are read are a field width. -/
theorem width {g : List UInt8} (hg : ∀ c ∈ g, isScanned c = true) (hnil : g ≠ [])
    (hrest : ∀ c ∈ rest.head?, isScanned c = false) (hne : rest.headD 0 ≠ 0)
    (h : Reads rest { m with width := (scanInt 0 g).1 } r) : Reads (g ++ rest) m r := by
  cases g with
  | nil => exact absurd rfl hnil
  | cons c g =>
      have hc := hg c (List.mem_cons_self ..)
      have hother : ∀ d : UInt8, isScanned d = false → c ≠ d := by
        rintro d hd rfl
        exact Bool.false_ne_true (hd.symm.trans hc)
      have hscan : scanInt 0 (c :: (g ++ rest)) = ((scanInt 0 (c :: g)).1, rest) :=
        scanInt_append hg hrest 0
      refine step ?_ hne h
      change modifier c (g ++ rest) m = _
      unfold modifier
      rw [if_neg (hother _ (by decide)), if_neg (hother _ (by decide)), if_neg (hother _ (by decide)),
        if_neg (hother _ (by decide)), if_neg (hother _ (by decide)), if_neg (hother _ (by decide)),
        if_pos (isScanned_iff.1 hc).1, hscan]

/-- And behind a point they are the precision. -/
theorem prec {g : List UInt8} (hg : ∀ c ∈ g, isScanned c = true)
    (hrest : ∀ c ∈ rest.head?, isScanned c = false) (hne : rest.headD 0 ≠ 0)
    (h : Reads rest { m with prec := (scanInt 0 g).1 } r) : Reads ('.'.toUInt8 :: (g ++ rest)) m r := by
  refine step ?_ hne h
  unfold modifier
  rw [if_neg (by decide), if_neg (by decide), if_neg (by decide), if_neg (by decide), if_neg (by decide),
    if_pos rfl, scanInt_append hg hrest]

end Reads

/-- What the digits `t` do to the modifiers: they set the flag if there is a 0 among them, and the last group
of other digits is the field width. -/
structure AfterDigits (t : List UInt8) (m m' : Mods) : Prop where
  prec : m'.prec = m.prec
  zeropad : m'.zeropad = (m.zeropad || decide ('0'.toUInt8 ∈ t))
  width : ((∀ c ∈ t, c = '0'.toUInt8) ∧ m'.width = m.width) ∨
    ∃ pre g post, t = pre ++ g ++ post ∧ g ≠ [] ∧ (∀ c ∈ g, isScanned c = true) ∧
      m'.width = (scanInt 0 g).1

/-- The format goes on behind digits. -/
theorem headD_append_ne_zero {t rest : List UInt8} (ht : ∀ c ∈ t, c = '0'.toUInt8 ∨ isScanned c = true)
    (hne : rest.headD 0 ≠ 0) : (t ++ rest).headD 0 ≠ 0 := by
  cases t with
  | nil => exact hne
  | cons d t =>
      intro hzero
      have hzero : d = 0 := hzero
      have hd := ht d (List.mem_cons_self ..)
      rw [hzero] at hd
      exact absurd hd (by decide)

theorem head?_append_not_scanned {t rest : List UInt8} (ht : ∀ c ∈ t.head?, isScanned c = false)
    (hrest : ∀ c ∈ rest.head?, isScanned c = false) : ∀ c ∈ (t ++ rest).head?, isScanned c = false := by
  cases t with
  | nil => exact hrest
  | cons d t => exact ht

theorem exists_afterDigits {t rest : List UInt8} (ht : ∀ c ∈ t, c = '0'.toUInt8 ∨ isScanned c = true)
    (hrest : ∀ c ∈ rest.head?, isScanned c = false) (hne : rest.headD 0 ≠ 0) (m : Mods) :
    ∃ m', AfterDigits t m m' ∧ ∀ r, Reads rest m' r → Reads (t ++ rest) m r := by
  induction hlen : t.length using Nat.strong_induction_on generalizing t m with
  | _ n ih =>
    cases t with
    | nil => exact ⟨m, ⟨rfl, by simp, Or.inl ⟨fun c hc => (by cases hc), rfl⟩⟩, fun r h => h⟩
    | cons c t =>
        rw [List.length_cons] at hlen
        have hrest' : ∀ c ∈ t, c = '0'.toUInt8 ∨ isScanned c = true :=
          fun c hc => ht c (List.mem_cons_of_mem _ hc)
        rcases ht c (List.mem_cons_self ..) with rfl | hc
        · -- the flag
          obtain ⟨m', hafter, hreads⟩ := ih t.length (by omega) hrest' { m with zeropad := true } rfl
          have hhead := headD_append_ne_zero hrest' hne
          refine ⟨m', ⟨hafter.prec, ?_, ?_⟩, fun r h => .zero hhead (hreads r h)⟩
          · rw [hafter.zeropad]
            simp
          · rcases hafter.width with ⟨hzeros, hwidth⟩ | ⟨pre, g, post, rfl, hg⟩
            · exact Or.inl ⟨List.forall_mem_cons.2 ⟨rfl, hzeros⟩, hwidth⟩
            · exact Or.inr ⟨'0'.toUInt8 :: pre, g, post, rfl, hg⟩
        · -- a group of digits
          obtain ⟨g, t', hsplit, hg, hstop⟩ := exists_scanned (c :: t)
          have hnil : g ≠ [] := by
            rintro rfl
            rw [List.nil_append] at hsplit
            subst hsplit
            exact Bool.false_ne_true ((hstop c rfl).symm.trans hc)
          have hlength := congrArg List.length hsplit
          have hpos := List.length_pos_iff.2 hnil
          rw [List.length_append, List.length_cons] at hlength
          have ht' : ∀ c ∈ t', c = '0'.toUInt8 ∨ isScanned c = true := by
            intro c hc
            refine ht c ?_
            rw [hsplit]
            exact List.mem_append_right g hc
          obtain ⟨m', hafter, hreads⟩ := ih t'.length (by omega) ht' { m with width := (scanInt 0 g).1 } rfl
          have hhead := headD_append_ne_zero ht' hne
          have hstop' := head?_append_not_scanned hstop hrest
          refine ⟨m', ⟨hafter.prec, ?_, ?_⟩, fun r h => ?_⟩
          · rw [hafter.zeropad, hsplit]
            simp [zero_not_mem hg]
          · rw [hsplit]
            rcases hafter.width with ⟨hzeros, hwidth⟩ | ⟨pre, g', post, rfl, hg'⟩
            · exact Or.inr ⟨[], g, t', rfl, hnil, hg, hwidth⟩
            · exact Or.inr ⟨g ++ pre, g', post, by simp, hg'⟩
          · rw [hsplit, List.append_assoc]
            exact .width hg hnil hstop' hhead (hreads r h)

/-! ## The directive -/

/-- The directive behind the `%`. -/
def directive (ws ps rest : List UInt8) : List UInt8 :=
  ws ++ '.'.toUInt8 :: (ps ++ 'u'.toUInt8 :: rest)

section

variable {ws ps rest : List UInt8}

theorem not_scanned_u : ∀ c ∈ ('u'.toUInt8 :: rest).head?, isScanned c = false := by
  rintro c ⟨⟩
  decide

theorem u_ne_zero : ('u'.toUInt8 :: rest).headD 0 ≠ 0 := by
  change 'u'.toUInt8 ≠ 0
  decide

theorem not_scanned_dot : ∀ c ∈ ('.'.toUInt8 :: rest).head?, isScanned c = false := by
  rintro c ⟨⟩
  decide

theorem dot_ne_zero : ('.'.toUInt8 :: rest).headD 0 ≠ 0 := by
  change '.'.toUInt8 ≠ 0
  decide

theorem reads_u (m : Mods) : Reads ('u'.toUInt8 :: rest) m ('u'.toUInt8, rest, m) :=
  .done (modifier_of_not_isModifier rest m (by decide) (by decide))

/-- What the loop over the modifiers makes of it gets to the conversion. -/
theorem readPiece_directive (V : Version) (hne : ws ≠ []) (hdigit : ∀ c ∈ ws, isDigit c = true) {m : Mods}
    (h : Reads (directive ws ps rest) {} ('u'.toUInt8, rest, m)) :
    ∃ k₀, ∀ k, k₀ ≤ k → readPiece V k ('%'.toUInt8 :: directive ws ps rest)
      = .ok (some (.conversion 'u'.toUInt8 m false, rest)) := by
  cases ws with
  | nil => exact absurd rfl hne
  | cons c ws =>
      obtain ⟨k₀, hk₀⟩ := h
      have hletter {d : UInt8} (hd : isDigit d = true) : ¬(d = 'L'.toUInt8 ∨ d = 'l'.toUInt8) := by
        rintro (rfl | rfl)
        · exact absurd hd (by decide)
        · exact absurd hd (by decide)
      have hzero : c ≠ 0 := by
        rintro rfl
        exact absurd (hdigit 0 (List.mem_cons_self ..)) (by decide)
      have hlong : ¬V.Longs 'u'.toUInt8 (directive ws ps rest) := by
        rintro ⟨-, -, hl⟩
        cases ws with
        | nil => exact absurd hl (by decide : ¬('.'.toUInt8 = 'L'.toUInt8 ∨ '.'.toUInt8 = 'l'.toUInt8))
        | cons d ws => exact hletter (hdigit d (List.mem_cons_of_mem _ (List.mem_cons_self ..))) hl
      refine ⟨k₀, fun k hk => ?_⟩
      change readPiece V k ('%'.toUInt8 :: c :: directive ws ps rest) = _
      have hread : readModifiers k c (directive ws ps rest) {} = .ok ('u'.toUInt8, rest, m) := hk₀ k hk
      rw [readPiece_percent _ k hzero, hread]
      dsimp only
      rw [if_neg (by decide), if_neg hlong]

/-- The other way round. -/
theorem reads_of_readPiece {V : Version} {k : ℕ} {c : UInt8} {fmt : List UInt8} {m : Mods} (hc : c ≠ 0)
    (h : readPiece V k ('%'.toUInt8 :: c :: fmt) = .ok (some (.conversion 'u'.toUInt8 m false, rest))) :
    readModifiers k c fmt {} = .ok ('u'.toUInt8, rest, m) := by
  rw [readPiece_percent _ k hc] at h
  split at h
  · cases h
  · next ch rest' m' hmods =>
      split_ifs at h
      · cases h
      · cases h
      · cases h
        exact hmods

/-- A 9 is where it hangs. -/
theorem hangs_directive (hws : ∀ c ∈ ws, isDigit c = true) (hps : ∀ c ∈ ps, isDigit c = true)
    (h : '9'.toUInt8 ∈ ws ++ ps) : Hangs (directive ws ps rest) := by
  have hall {t tail : List UInt8} (ht : ∀ c ∈ t, isDigit c = true ∨ c = '.'.toUInt8)
      (hnine : '9'.toUInt8 ∈ t) : Hangs (t ++ tail) := by
    unfold Hangs
    induction t with
    | nil => cases hnine
    | cons c t ih =>
        by_cases hc : c = '9'.toUInt8
        · rw [hc, List.cons_append, List.dropWhile_cons_of_neg (by decide)]
          rfl
        · have hmod : isModifier c = true := by
            rcases ht c (List.mem_cons_self ..) with hdigit | rfl
            · rcases isDigit_iff.1 hdigit with rfl | hscanned | hnine
              · decide
              · exact isModifier_of_isScanned hscanned
              · exact absurd hnine hc
            · decide
          rw [List.cons_append, List.dropWhile_cons_of_pos hmod]
          exact ih (fun c hc => ht c (List.mem_cons_of_mem _ hc))
            ((List.mem_cons.1 hnine).resolve_left fun h => hc h.symm)
  have hsplit : directive ws ps rest = (ws ++ '.'.toUInt8 :: ps) ++ 'u'.toUInt8 :: rest := by
    simp [directive]
  rw [hsplit]
  refine hall (fun c hc => ?_) ?_
  · rcases List.mem_append.1 hc with hc | hc
    · exact Or.inl (hws c hc)
    · rcases List.mem_cons.1 hc with rfl | hc
      · exact Or.inr rfl
      · exact Or.inl (hps c hc)
  · rcases List.mem_append.1 h with h | h
    · exact List.mem_append_left _ h
    · exact List.mem_append_right ws (List.mem_cons_of_mem _ h)

/-- Without one, the loop comes to the `u`. -/
theorem exists_reads_directive (hws : ∀ c ∈ ws, c = '0'.toUInt8 ∨ isScanned c = true)
    (hps : ∀ c ∈ ps, c = '0'.toUInt8 ∨ isScanned c = true) :
    ∃ g t m1 m2, ps = g ++ t ∧ (∀ c ∈ g, isScanned c = true) ∧ (∀ c ∈ t.head?, isScanned c = false) ∧
      AfterDigits ws {} m1 ∧ AfterDigits t { m1 with prec := (scanInt 0 g).1 } m2 ∧
      Reads (directive ws ps rest) {} ('u'.toUInt8, rest, m2) := by
  obtain ⟨g, t, rfl, hg, ht⟩ := exists_scanned ps
  have ht0 : ∀ c ∈ t, c = '0'.toUInt8 ∨ isScanned c = true :=
    fun c hc => hps c (List.mem_append_right g hc)
  obtain ⟨m1, hafter1, hreads1⟩ := exists_afterDigits hws
    (@not_scanned_dot (g ++ t ++ 'u'.toUInt8 :: rest)) dot_ne_zero {}
  obtain ⟨m2, hafter2, hreads2⟩ := exists_afterDigits ht0 (@not_scanned_u rest) u_ne_zero
    { m1 with prec := (scanInt 0 g).1 }
  refine ⟨g, t, m1, m2, rfl, hg, ht, hafter1, hafter2, hreads1 _ ?_⟩
  rw [List.append_assoc]
  exact .prec hg (head?_append_not_scanned ht not_scanned_u) (headD_append_ne_zero ht0 u_ne_zero)
    (hreads2 _ (reads_u m2))

end

/-! ## When it is right -/

section

variable {V : Version} {width prec : Decimal} {rest : List UInt8}

theorem Decimal.scanInt_eq (d : Decimal) (h : Plain d.digits) : (scanInt 0 d.digits).1 = numeral d.digits :=
  @scanInt_value d.digits ((plain_iff d.decimal).1 h) 0 d.small

/-- Plain digits are read as they should be. -/
theorem directiveRight_of_plain (V : Version) (rest : List UInt8) (hw : Plain width.digits)
    (hp : Plain prec.digits) : DirectiveRight V width prec rest := by
  have hws := (plain_iff width.decimal).1 hw
  have hps := (plain_iff prec.decimal).1 hp
  have hreads : Reads (directive width.digits prec.digits rest) {} ('u'.toUInt8, rest,
      { width := (scanInt 0 width.digits).1, prec := (scanInt 0 prec.digits).1 }) :=
    .width hws width.nonempty not_scanned_dot dot_ne_zero
      (.prec hps not_scanned_u u_ne_zero (reads_u _))
  obtain ⟨k, hk⟩ := readPiece_directive V width.nonempty width.decimal hreads
  refine ⟨k, _, hk k le_rfl, width.scanInt_eq hw, ?_⟩
  unfold Mods.zeroPrec
  rw [if_neg fun h => Bool.false_ne_true h.2]
  exact prec.scanInt_eq hp

/-- Zeros in front of the precision are a flag, and the precision is a field width. With that flag it is a
precision, too. -/
theorem directiveRight_of_zeros (V : Version) (rest : List UInt8) (hw : Plain width.digits) {k : ℕ}
    (hk : 1 ≤ k) (hp : prec.digits = List.replicate k '0'.toUInt8 ++ width.digits) :
    DirectiveRight V width prec rest := by
  have hws := (plain_iff width.decimal).1 hw
  have hzeros {j : ℕ} {tail : List UInt8} {m : Mods} {r : UInt8 × List UInt8 × Mods}
      (hne : tail.headD 0 ≠ 0) (h : Reads tail { m with zeropad := true } r) :
      Reads (List.replicate (j + 1) '0'.toUInt8 ++ tail) m r := by
    induction j generalizing m with
    | zero => exact .zero hne h
    | succ j ih =>
        rw [List.replicate_succ, List.cons_append]
        exact .zero (show '0'.toUInt8 ≠ 0 by decide) (ih h)
  obtain ⟨j, rfl⟩ : ∃ j, k = j + 1 := ⟨k - 1, by omega⟩
  have hvalue := width.scanInt_eq hw
  have hnum : numeral prec.digits = numeral width.digits := by
    rw [hp, numeral_replicate_append]
  have hscan : ∀ c ∈ (List.replicate (j + 1) '0'.toUInt8 ++
      (width.digits ++ 'u'.toUInt8 :: rest)).head?, isScanned c = false := by
    rw [List.replicate_succ]
    rintro c ⟨⟩
    decide
  have hreads : Reads (directive width.digits prec.digits rest) {} ('u'.toUInt8, rest,
      { zeropad := true, width := (scanInt 0 width.digits).1, prec := 0 }) := by
    unfold directive
    rw [hp, List.append_assoc]
    refine .width hws width.nonempty not_scanned_dot dot_ne_zero ?_
    refine @Reads.prec _ _ _ [] (fun c hc => (by cases hc)) hscan (show '0'.toUInt8 ≠ 0 by decide) ?_
    refine hzeros (headD_append_ne_zero (fun c hc => Or.inr (hws c hc)) u_ne_zero) ?_
    exact .width hws width.nonempty not_scanned_u u_ne_zero (reads_u _)
  obtain ⟨k, hk⟩ := readPiece_directive V width.nonempty width.decimal hreads
  refine ⟨k, _, hk k le_rfl, hvalue, ?_⟩
  have hpos : 0 < numeral width.digits := by
    refine numeral_pos width.decimal width.nonempty fun hhead => ?_
    have hmem := List.mem_of_mem_head? hhead
    exact (hw _ hmem).1 rfl
  unfold Mods.zeroPrec
  dsimp only
  rw [hvalue, if_pos ⟨by exact_mod_cast hpos, rfl⟩, hnum]

/-- The value of a group of digits in a numeral. -/
theorem scanInt_group (d : Decimal) {pre g post : List UInt8} (hd : d.digits = pre ++ g ++ post)
    (hg : ∀ c ∈ g, isScanned c = true) : (scanInt 0 g).1 = numeral g := by
  have hle := numeral_le pre g post
  rw [← hd] at hle
  exact @scanInt_value g hg 0 (Nat.lt_of_le_of_lt hle d.small)

/-- A field width that was read is plain. -/
theorem plain_of_width (hhead : width.digits.head? ≠ some '0'.toUInt8) {g : List UInt8}
    (hg : ∀ c ∈ g, isScanned c = true) (h : numeral g = numeral width.digits) : width.digits = g := by
  have hdigit : ∀ c ∈ g, isDigit c = true := fun c hc => isDigit_iff.2 (Or.inr (Or.inl (hg c hc)))
  have hg0 : g.head? ≠ some '0'.toUInt8 := fun hzero => zero_not_mem hg (List.mem_of_mem_head? hzero)
  exact (numeral_injective hdigit width.decimal hg0 hhead h).symm

/-- What the field width of the conversion tells: it is a group of digits that is read at once. -/
theorem exists_group {g t : List UInt8} {m1 m2 : Mods} (hhead : width.digits.head? ≠ some '0'.toUInt8)
    (hprec : prec.digits = g ++ t) (h1 : AfterDigits width.digits {} m1)
    (h2 : AfterDigits t { m1 with prec := (scanInt 0 g).1 } m2) :
    ∃ g', (∀ c ∈ g', isScanned c = true) ∧ m2.width = numeral g' := by
  rcases h2.width with ⟨-, hwidth⟩ | ⟨pre, g', post, ht, -, hg', hwidth⟩
  · rcases h1.width with ⟨hzeros, -⟩ | ⟨pre, g', post, hw, -, hg', hwidth'⟩
    · obtain ⟨c, ds, hcons⟩ := List.exists_cons_of_ne_nil width.nonempty
      rw [hcons] at hhead hzeros
      exact absurd (congrArg some (hzeros c (List.mem_cons_self ..))) hhead
    · exact ⟨g', hg', hwidth.trans (hwidth'.trans (scanInt_group width hw hg'))⟩
  · have hsplit : prec.digits = (g ++ pre) ++ g' ++ post := by
      rw [hprec, ht]
      simp
    exact ⟨g', hg', hwidth.trans (scanInt_group prec hsplit hg')⟩

/-- A precision with zeros in it, and the flag set by them: the conversion takes the field width. -/
theorem prec_of_zeropad {g t : List UInt8} (hhead : width.digits.head? ≠ some '0'.toUInt8)
    (hw : Plain width.digits) (hprec : prec.digits = g ++ '0'.toUInt8 :: t)
    (hg : ∀ c ∈ g, isScanned c = true)
    (h : (if (scanInt 0 g).1 < numeral width.digits then (numeral width.digits : ℤ) else (scanInt 0 g).1)
      = numeral prec.digits) :
    ∃ k, 1 ≤ k ∧ prec.digits = List.replicate k '0'.toUInt8 ++ width.digits := by
  have hpos := numeral_pos width.decimal width.nonempty hhead
  have hsplit : prec.digits = [] ++ g ++ '0'.toUInt8 :: t := hprec
  have hten : 10 * numeral g ≤ numeral prec.digits := by
    rw [hprec, numeral_append]
    exact le_numeralFrom (10 * numeral g + 0) t
  rw [scanInt_group prec hsplit hg] at h
  have hvalue : numeral prec.digits = numeral width.digits := by
    split_ifs at h with hlt
    · exact_mod_cast h.symm
    · have h : numeral g = numeral prec.digits := by exact_mod_cast h
      have hle : numeral width.digits ≤ numeral g := by exact_mod_cast not_lt.1 hlt
      omega
  -- with a digit in front of the zero it would be the same numeral as the width
  have hlead : prec.digits.head? = some '0'.toUInt8 := by
    by_contra hne
    have heq := numeral_injective prec.decimal width.decimal hne hhead hvalue
    have hmem : '0'.toUInt8 ∈ width.digits := by
      rw [← heq, hprec]
      exact List.mem_append_right g (List.mem_cons_self ..)
    exact (hw _ hmem).1 rfl
  obtain ⟨k, ds, hds, hk, hds0⟩ := exists_zeros hlead
  refine ⟨k, hk, ?_⟩
  rw [hds, numeral_replicate_append] at hvalue
  have hdigit : ∀ c ∈ ds, isDigit c = true := by
    intro c hc
    refine prec.decimal c ?_
    rw [hds]
    exact List.mem_append_right _ hc
  rw [hds, numeral_injective hdigit width.decimal hds0 hhead hvalue]

/-- **The directive `%w.pu`** is what it should be if and only if its digits are plain, or the precision is
the field width with zeros in front. -/
theorem directiveRight_iff (V : Version) (width prec : Decimal) (rest : List UInt8)
    (hhead : width.digits.head? ≠ some '0'.toUInt8) :
    DirectiveRight V width prec rest ↔ Plain width.digits ∧
      (Plain prec.digits ∨ ∃ k, 1 ≤ k ∧ prec.digits = List.replicate k '0'.toUInt8 ++ width.digits) := by
  constructor
  · rintro ⟨k, m, hpiece, hwidth, hprec⟩
    change readPiece V k ('%'.toUInt8 :: directive width.digits prec.digits rest) = _ at hpiece
    have hnine : '9'.toUInt8 ∉ width.digits ++ prec.digits := by
      intro hmem
      have hhangs : HangsNext ('%'.toUInt8 :: directive width.digits prec.digits rest) :=
        ⟨rfl, hangs_directive width.decimal prec.decimal hmem⟩
      rw [readPiece_hangs hhangs] at hpiece
      cases hpiece
    have hws := zero_or_scanned width.decimal fun h => hnine (List.mem_append_left _ h)
    have hps := zero_or_scanned prec.decimal fun h => hnine (List.mem_append_right _ h)
    obtain ⟨g, t, m1, m2, hsplit, hg, ht, h1, h2, hreads⟩ := @exists_reads_directive _ _ rest hws hps
    obtain rfl : m2 = m := by
      obtain ⟨c, ws, hcons⟩ := List.exists_cons_of_ne_nil width.nonempty
      have hc : c ≠ 0 := by
        rintro rfl
        exact absurd (width.decimal 0 (by rw [hcons]; exact List.mem_cons_self ..)) (by decide)
      rw [hcons] at hpiece hreads
      have hmods := hreads.unique (reads_of_readPiece hc hpiece)
      exact (Prod.mk.inj (Prod.mk.inj hmods).2).2
    obtain ⟨g', hg', hgroup⟩ := exists_group hhead hsplit h1 h2
    have hsame : width.digits = g' := by
      refine plain_of_width hhead hg' ?_
      exact_mod_cast hgroup.symm.trans hwidth
    have hplain : Plain width.digits := (plain_iff width.decimal).2 (hsame ▸ hg')
    refine ⟨hplain, ?_⟩
    cases t with
    | nil =>
        rw [List.append_nil] at hsplit
        exact Or.inl ((plain_iff prec.decimal).2 (hsplit ▸ hg))
    | cons c t =>
        have hc : c = '0'.toUInt8 := by
          rcases hps c (by rw [hsplit]; simp) with h0 | hscanned
          · exact h0
          · exact absurd ((ht c rfl).symm.trans hscanned) Bool.false_ne_true
        subst hc
        refine Or.inr (prec_of_zeropad hhead hplain hsplit hg ?_)
        unfold Mods.zeroPrec at hprec
        rw [h2.prec, h2.zeropad, hwidth] at hprec
        simpa using hprec
  · rintro ⟨hw, hp | ⟨k, hk, hp⟩⟩
    · exact directiveRight_of_plain V rest hw hp
    · exact directiveRight_of_zeros V rest hw hk hp

/-- On the way to `print_uint`, this is all that is left of the directive. -/
theorem DirectiveRight.text {w : ℕ} (h : DirectiveRight (.kernel w) width prec rest) :
    ∃ k m, readPiece (.kernel w) k ('%'.toUInt8 :: directive width.digits prec.digits rest)
        = .ok (some (.conversion 'u'.toUInt8 m false, rest)) ∧
      ∀ (n : ℤ) (uarg : ℕ), Item.text (.kernel w) n (.unsigned m 10 uarg)
        = numberText 10 ((Version.kernel w).uintptr uarg) false (numeral prec.digits)
          (numeral width.digits) := by
  obtain ⟨k, m, hpiece, hwidth, hprec⟩ := h
  refine ⟨k, m, hpiece, fun n uarg => ?_⟩
  unfold Item.text
  dsimp only
  rw [hprec, hwidth, uintText_eq (by decide)]

end

/-- **What `scan_int` and the directive make of numerals**, and when this is what they should. -/
theorem scanInt_directive (V : Version) (d width prec : Decimal) (next rest : List UInt8)
    (hnext : ∀ c ∈ next.head?, isDigit c = false) (hhead : width.digits.head? ≠ some '0'.toUInt8) :
    (scanInt 0 (d.digits ++ next) = ((numeral d.digits : ℤ), next) ↔ Plain d.digits) ∧
    (DirectiveRight V width prec rest ↔ Plain width.digits ∧
      (Plain prec.digits ∨ ∃ k, 1 ≤ k ∧ prec.digits = List.replicate k '0'.toUInt8 ++ width.digits)) :=
  ⟨scanInt_iff d hnext, directiveRight_iff V width prec rest hhead⟩

/-- The numeral 12. -/
def twelve : Decimal := ⟨['1'.toUInt8, '2'.toUInt8], by simp, by decide +kernel, by decide +kernel⟩

/-- The numeral 10. -/
def ten : Decimal := ⟨['1'.toUInt8, '0'.toUInt8], by simp, by decide +kernel, by decide +kernel⟩

/-- `%12.12u` is right. -/
theorem scanInt_directive_twelve :
    scanInt 0 (twelve.digits ++ ['u'.toUInt8]) = (12, ['u'.toUInt8]) ∧
    DirectiveRight .userland twelve twelve [] := by
  have hplain : Plain twelve.digits := by
    unfold Plain
    decide +kernel
  obtain ⟨hscan, hright⟩ :=
    scanInt_directive .userland twelve twelve twelve ['u'.toUInt8] [] (by decide +kernel) (by decide)
  exact ⟨hscan.2 hplain, hright.2 ⟨hplain, Or.inl hplain⟩⟩

/-- In `10` the 0 is not read, and `%10.12u` has another field width. -/
theorem scanInt_ten : scanInt 0 (ten.digits ++ ['u'.toUInt8]) ≠ ((numeral ten.digits : ℤ), ['u'.toUInt8]) ∧
    ¬DirectiveRight (.kernel 8) ten twelve [] := by
  have hnot : ¬Plain ten.digits := fun h => (h '0'.toUInt8 (by decide +kernel)).1 rfl
  exact ⟨fun h => hnot ((scanInt_iff ten (by decide +kernel)).1 h),
    fun h => hnot ((directiveRight_iff (.kernel 8) ten twelve [] (by decide)).1 h).1⟩

end Kudos.Printf
