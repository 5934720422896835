import Kudos.Lib.PrintfText
import Mathlib.Data.List.TakeWhile

set_option autoImplicit false

/-! # Runs of `vxnprintf`

The loop over the modifiers comes to the end of a conversion unless it meets a 9: `scan_int` stops there,
and `fmt` is set back to it. A run of `vxnprintf` is described by the items of its format, which are the
conversions with the arguments that they read, up to a conversion that hangs. -/

namespace Kudos.Printf

open CInt

variable {V : Version} {tty : Bool} {size : ℤ}

/-! ## The loop over the modifiers -/

/-- A digit that `scan_int` reads. -/
def isScanned (c : UInt8) : Bool := '0'.toUInt8 < c ∧ c < '9'.toUInt8

/-- A character that the loop over the modifiers gets past. -/
def isModifier (c : UInt8) : Bool :=
  c = '#'.toUInt8 ∨ c = '0'.toUInt8 ∨ c = ' '.toUInt8 ∨ c = '+'.toUInt8 ∨ c = '-'.toUInt8 ∨
    c = '.'.toUInt8 ∨ isScanned c

/-- The first character behind the `%` that the loop does not get past is a 9. -/
def Hangs (fmt : List UInt8) : Prop := (fmt.dropWhile isModifier).headD 0 = '9'.toUInt8

instance (fmt : List UInt8) : Decidable (Hangs fmt) := inferInstanceAs (Decidable (_ = _))

theorem isScanned_iff {c : UInt8} :
    isScanned c = true ↔ ('1'.toUInt8 ≤ c ∧ c ≤ '9'.toUInt8) ∧ c ≠ '9'.toUInt8 := by
  have hzero : '0'.toUInt8.toNat = 48 := rfl
  have hone : '1'.toUInt8.toNat = 49 := rfl
  have hnine : '9'.toUInt8.toNat = 57 := rfl
  unfold isScanned
  rw [decide_eq_true_eq, UInt8.lt_iff_toNat_lt, UInt8.lt_iff_toNat_lt, UInt8.le_iff_toNat_le,
    UInt8.le_iff_toNat_le, ne_eq, ← UInt8.toNat_inj]
  omega

theorem isModifier_of_isScanned {c : UInt8} (h : isScanned c = true) : isModifier c = true := by
  unfold isModifier
  simp [h]

theorem scanInt_snd (value : ℤ) (s : List UInt8) :
    (scanInt value s).2 = s.dropWhile isScanned := by
  induction s generalizing value with
  | nil => rfl
  | cons c s ih =>
      unfold scanInt
      by_cases hc : '0'.toUInt8 < c ∧ c < '9'.toUInt8
      · rw [if_pos hc, ih, List.dropWhile_cons_of_pos (by simpa [isScanned] using hc)]
      · rw [if_neg hc, List.dropWhile_cons_of_neg (by simpa [isScanned] using hc)]

theorem dropWhile_isModifier_isScanned (s : List UInt8) :
    (s.dropWhile isScanned).dropWhile isModifier = s.dropWhile isModifier := by
  induction s with
  | nil => rfl
  | cons c s ih =>
      by_cases hc : isScanned c = true
      · rw [List.dropWhile_cons_of_pos hc, ih,
          List.dropWhile_cons_of_pos (isModifier_of_isScanned hc)]
      · rw [List.dropWhile_cons_of_neg hc]

/-- The 9 is read again and again. -/
theorem modifier_nine (fmt : List UInt8) (m : Mods) :
    modifier '9'.toUInt8 fmt m = some ('9'.toUInt8 :: fmt, { m with width := 0 }) := rfl

theorem modifier_of_not_isModifier {ch : UInt8} (fmt : List UInt8) (m : Mods)
    (h : isModifier ch = false) (hnine : ch ≠ '9'.toUInt8) : modifier ch fmt m = none := by
  unfold isModifier at h
  simp only [decide_eq_false_iff_not, not_or] at h
  obtain ⟨halt, hzero, hspace, hsign, hleft, hdot, hdigit⟩ := h
  unfold modifier
  rw [if_neg halt, if_neg hzero, if_neg hspace, if_neg hsign, if_neg hleft, if_neg hdot, if_neg]
  exact fun hrange => hdigit (isScanned_iff.2 ⟨hrange, hnine⟩)

/-- **A modifier other than a 9 is got past**, and nothing is skipped that is none. -/
theorem modifier_of_isModifier {ch : UInt8} (fmt : List UInt8) (m : Mods)
    (h : isModifier ch = true) :
    ∃ fmt' m', modifier ch fmt m = some (fmt', m') ∧ fmt'.length ≤ fmt.length ∧
      fmt'.dropWhile isModifier = fmt.dropWhile isModifier := by
  unfold isModifier at h
  simp only [decide_eq_true_eq] at h
  unfold modifier
  split_ifs with halt hzero hspace hsign hleft hdot hdigit
  · exact ⟨_, _, rfl, le_rfl, rfl⟩
  · exact ⟨_, _, rfl, le_rfl, rfl⟩
  · exact ⟨_, _, rfl, le_rfl, rfl⟩
  · exact ⟨_, _, rfl, le_rfl, rfl⟩
  · exact ⟨_, _, rfl, le_rfl, rfl⟩
  · refine ⟨_, _, rfl, ?_, ?_⟩
    · rw [scanInt_snd]
      exact List.length_dropWhile_le _ _
    · rw [scanInt_snd, dropWhile_isModifier_isScanned]
  · have hscanned : isScanned ch = true := by
      simpa [halt, hzero, hspace, hsign, hleft, hdot] using h
    have hscan := scanInt_snd 0 (ch :: fmt)
    rw [List.dropWhile_cons_of_pos hscanned] at hscan
    refine ⟨(scanInt 0 (ch :: fmt)).2, _, rfl, ?_, ?_⟩
    · rw [hscan]
      exact List.length_dropWhile_le _ _
    · rw [hscan, dropWhile_isModifier_isScanned]
  · have hscanned : isScanned ch = true := by
      simpa [halt, hzero, hspace, hsign, hleft, hdot] using h
    exact absurd (isScanned_iff.1 hscanned).1 hdigit

/-- The pass gets on unless the character is a 9. -/
theorem modifier_advances_iff {ch : UInt8} {fmt fmt' : List UInt8} {m m' : Mods}
    (h : modifier ch fmt m = some (fmt', m')) :
    fmt'.length < (ch :: fmt).length ↔ ch ≠ '9'.toUInt8 := by
  constructor
  · rintro hlt rfl
    rw [modifier_nine] at h
    cases h
    exact lt_irrefl _ hlt
  · intro hnine
    cases hch : isModifier ch with
    | false =>
        rw [modifier_of_not_isModifier fmt m hch hnine] at h
        cases h
    | true =>
        obtain ⟨fmt'', m'', h', hle, -⟩ := modifier_of_isModifier fmt m hch
        rw [h] at h'
        cases h'
        exact Nat.lt_succ_of_le hle

theorem Hangs.ne_zero {c : UInt8} {fmt : List UInt8} (h : Hangs (c :: fmt)) : c ≠ 0 := by
  rintro rfl
  cases (show (0 : UInt8) = '9'.toUInt8 from h)

theorem readModifiers_hangs {ch : UInt8} {fmt : List UInt8} (h : Hangs (ch :: fmt)) (k : ℕ)
    (m : Mods) : readModifiers k ch fmt m = .error .endless := by
  induction k generalizing ch fmt m with
  | zero => rfl
  | succ k ih =>
      unfold readModifiers
      -- the pass goes on with a string whose first other character is the 9
      have hpass : ∃ fmt' m', modifier ch fmt m = some (fmt', m') ∧ Hangs fmt' := by
        unfold Hangs at h
        cases hch : isModifier ch with
        | true =>
            obtain ⟨fmt', m', hmod, -, hdrop⟩ := modifier_of_isModifier fmt m hch
            rw [List.dropWhile_cons_of_pos hch, ← hdrop] at h
            exact ⟨fmt', m', hmod, h⟩
        | false =>
            rw [List.dropWhile_cons_of_neg (by simp [hch])] at h
            have hnine : ch = '9'.toUInt8 := h
            rw [hnine, modifier_nine]
            exact ⟨_, _, rfl, rfl⟩
      obtain ⟨fmt', m', hmod, hhangs⟩ := hpass
      rw [hmod]
      dsimp only
      cases fmt' with
      | nil => exact absurd hhangs (by decide)
      | cons c rest =>
          rw [if_neg (by simpa using hhangs.ne_zero)]
          exact ih hhangs m'

/-- Without a 9 the loop ends, in as many passes as there are characters. -/
theorem readModifiers_ends (ch : UInt8) (fmt : List UInt8) (m : Mods) (h : ¬ Hangs (ch :: fmt)) :
    ∃ ch' fmt' m', fmt'.length ≤ fmt.length ∧
      ∀ k, fmt.length < k → readModifiers k ch fmt m = .ok (ch', fmt', m') := by
  induction hlen : fmt.length using Nat.strong_induction_on generalizing ch fmt m with
  | _ n ih =>
    cases hch : isModifier ch with
    | false =>
        have hnine : ch ≠ '9'.toUInt8 := by
          rintro rfl
          exact h rfl
        refine ⟨ch, fmt, m, hlen.le, fun k hk => ?_⟩
        obtain ⟨k, rfl⟩ := Nat.exists_eq_succ_of_ne_zero (by omega : k ≠ 0)
        unfold readModifiers
        rw [modifier_of_not_isModifier fmt m hch hnine]
    | true =>
        obtain ⟨fmt', m', hmod, hle, hdrop⟩ := modifier_of_isModifier fmt m hch
        by_cases hend : fmt'.headD 0 = 0
        · refine ⟨0, fmt'.tail, m', by rw [List.length_tail]; omega, fun k hk => ?_⟩
          obtain ⟨k, rfl⟩ := Nat.exists_eq_succ_of_ne_zero (by omega : k ≠ 0)
          unfold readModifiers
          rw [hmod]
          exact if_pos hend
        · obtain ⟨c, rest, rfl⟩ : ∃ c rest, fmt' = c :: rest := by
            cases fmt' with
            | nil => exact absurd rfl hend
            | cons c rest => exact ⟨c, rest, rfl⟩
          have hhangs : ¬ Hangs (c :: rest) := by
            unfold Hangs at h ⊢
            rwa [hdrop, ← List.dropWhile_cons_of_pos hch]
          rw [List.length_cons] at hle
          obtain ⟨ch', fmt'', m'', hle', hrest⟩ := ih rest.length (by omega) c rest m' hhangs rfl
          refine ⟨ch', fmt'', m'', by omega, fun k hk => ?_⟩
          obtain ⟨k, rfl⟩ := Nat.exists_eq_succ_of_ne_zero (by omega : k ≠ 0)
          unfold readModifiers
          rw [hmod]
          dsimp only
          rw [if_neg hend]
          exact hrest k (by omega)

/-- The next piece of the format is a conversion that hangs. -/
def HangsNext (fmt : List UInt8) : Prop := fmt.headD 0 = '%'.toUInt8 ∧ Hangs fmt.tail

instance (fmt : List UInt8) : Decidable (HangsNext fmt) := inferInstanceAs (Decidable (_ ∧ _))

theorem readPiece_plain {c : UInt8} (fmt : List UInt8) (k : ℕ) (hc : c ≠ 0)
    (hpercent : c ≠ '%'.toUInt8) : readPiece V k (c :: fmt) = .ok (some (.plain c, fmt)) := by
  unfold readPiece
  rw [if_neg (by simpa using hc), if_pos (by simpa using hpercent)]
  rfl

theorem readPiece_percent {c : UInt8} (fmt : List UInt8) (k : ℕ) (hc : c ≠ 0) :
    readPiece V k ('%'.toUInt8 :: c :: fmt)
      = match readModifiers k c fmt {} with
        | .error e => .error e
        | .ok (ch, rest, m) =>
            if ch = 0 then .ok none
            else if V.Longs ch fmt then .ok (some (.conversion ch m true, rest.tail))
            else .ok (some (.conversion ch m false, rest)) := by
  have hzero : ¬ ('%'.toUInt8 :: c :: fmt).headD 0 = 0 := show ¬ '%'.toUInt8 = 0 by decide
  have hpercent : ¬ ('%'.toUInt8 :: c :: fmt).headD 0 ≠ '%'.toUInt8 := not_not_intro rfl
  unfold readPiece
  rw [if_neg hzero, if_neg hpercent]
  exact if_neg hc

theorem readPiece_hangs {fmt : List UInt8} (h : HangsNext fmt) (k : ℕ) :
    readPiece V k fmt = .error .endless := by
  obtain ⟨hpercent, hhangs⟩ := h
  match fmt, hpercent, hhangs with
  | c :: [], _, hhangs => exact absurd (show Hangs [] from hhangs) (by decide)
  | c :: c' :: fmt, hpercent, hhangs =>
      have hc : c = '%'.toUInt8 := hpercent
      have hhangs : Hangs (c' :: fmt) := hhangs
      rw [hc, readPiece_percent fmt k hhangs.ne_zero, readModifiers_hangs hhangs]

/-- Without one, a piece or the end is read, and a piece is not empty. -/
theorem readPiece_ends {fmt : List UInt8} (h : ¬ HangsNext fmt) :
    ∃ r, (∀ k, fmt.length ≤ k → readPiece V k fmt = .ok r) ∧
      ∀ p rest, r = some (p, rest) → rest.length < fmt.length := by
  match fmt, h with
  | [], _ => exact ⟨none, fun k _ => rfl, fun _ _ h => by cases h⟩
  | c :: fmt, h =>
    by_cases hc : c = 0
    · exact ⟨none, fun k _ => if_pos hc, fun _ _ h => by cases h⟩
    by_cases hpercent : c = '%'.toUInt8
    swap
    · refine ⟨_, fun k _ => readPiece_plain fmt k hc hpercent, fun p rest h => ?_⟩
      cases h
      exact Nat.lt_succ_self _
    subst hpercent
    match fmt, h with
    | [], _ => exact ⟨none, fun k _ => rfl, fun _ _ h => by cases h⟩
    | c :: fmt, h =>
      by_cases hc' : c = 0
      · exact ⟨none, fun k _ => if_pos hc', fun _ _ h => by cases h⟩
      obtain ⟨ch, rest, m, hle, hmods⟩ := readModifiers_ends c fmt {} (fun hh => h ⟨rfl, hh⟩)
      have hread (k : ℕ) (hk : ('%'.toUInt8 :: c :: fmt).length ≤ k) :
          readPiece V k ('%'.toUInt8 :: c :: fmt)
            = if ch = 0 then .ok none
              else if V.Longs ch fmt then .ok (some (.conversion ch m true, rest.tail))
              else .ok (some (.conversion ch m false, rest)) := by
        rw [readPiece_percent fmt k hc', hmods k (by simp only [List.length_cons] at hk; omega)]
      simp only [List.length_cons] at hread ⊢
      split_ifs at hread
      · exact ⟨_, hread, fun _ _ h => by cases h⟩
      · refine ⟨_, hread, fun _ _ h => ?_⟩
        cases h
        rw [List.length_tail]
        omega
      · refine ⟨_, hread, fun _ _ h => ?_⟩
        cases h
        omega

/-! ## More passes than needed -/

theorem readModifiers_succ {k : ℕ} {ch : UInt8} {fmt : List UInt8} {m : Mods}
    (h : readModifiers k ch fmt m ≠ .error .endless) :
    readModifiers (k + 1) ch fmt m = readModifiers k ch fmt m := by
  by_cases hhangs : Hangs (ch :: fmt)
  · exact absurd (readModifiers_hangs hhangs k m) h
  · induction k generalizing ch fmt m with
    | zero => exact absurd rfl h
    | succ k ih =>
        unfold readModifiers at h ⊢
        cases hmod : modifier ch fmt m with
        | none => rfl
        | some r =>
            rw [hmod] at h
            dsimp only at h ⊢
            by_cases hend : r.1.headD 0 = 0
            · rw [if_pos hend, if_pos hend]
            · rw [if_neg hend] at h ⊢
              rw [if_neg hend]
              by_cases hnext : Hangs (r.1.headD 0 :: r.1.tail)
              · exact absurd (readModifiers_hangs hnext k r.2) h
              · exact ih h hnext

theorem readPiece_succ {k : ℕ} {fmt : List UInt8} (h : readPiece V k fmt ≠ .error .endless) :
    readPiece V (k + 1) fmt = readPiece V k fmt := by
  unfold readPiece at h ⊢
  split_ifs at h ⊢ with hend hplain
  · rfl
  · rfl
  · by_cases hend' : fmt.tail.headD 0 = 0
    · dsimp only
      rw [if_pos hend', if_pos hend']
    · dsimp only at h ⊢
      rw [if_neg hend'] at h
      rw [if_neg hend', if_neg hend', readModifiers_succ]
      intro hmods
      rw [hmods] at h
      exact h rfl

/-- A loop that came to its end needs no more passes. -/
theorem printLoop_succ {k : ℕ} {fmt : List UInt8} {args : List VaArg} {o : Out}
    (h : printLoop V tty size k fmt args o ≠ .error .endless) :
    printLoop V tty size (k + 1) fmt args o = printLoop V tty size k fmt args o := by
  induction k generalizing fmt args o with
  | zero => exact absurd rfl h
  | succ k ih =>
      rw [printLoop] at h
      rw [printLoop, printLoop]
      by_cases hroom : o.written < size
      · rw [if_pos hroom] at h
        rw [if_pos hroom, if_pos hroom, readPiece_succ fun hpiece => h (by rw [hpiece])]
        split at h
        · rfl
        · rfl
        · split at h
          · rfl
          · split at h
            · rfl
            · exact ih h
      · rw [if_neg hroom, if_neg hroom]

theorem printLoop_mono {k k' : ℕ} {fmt : List UInt8} {args : List VaArg} {o : Out} (hk : k ≤ k')
    (h : printLoop V tty size k fmt args o ≠ .error .endless) :
    printLoop V tty size k' fmt args o = printLoop V tty size k fmt args o := by
  induction k', hk using Nat.le_induction with
  | base => rfl
  | succ k' _ ih =>
      rw [← ih] at h
      rw [printLoop_succ h, ih]

/-! ## The items of a format -/

/-- The items of the format, up to a conversion that hangs. The arguments have to match them. -/
def itemsLoop (V : Version) : ℕ → List UInt8 → List VaArg → Except Fault (List Item)
  | 0, _, _ => .ok []
  | k + 1, fmt, args =>
      match readPiece V (k + 1) fmt with
      | .ok (some (p, fmt)) =>
          match p.readArg args with
          | .error e => .error e
          | .ok (x, args) => (itemsLoop V k fmt args).map (x :: ·)
      | _ => .ok []

def items (V : Version) (fmt : List UInt8) (args : List VaArg) : Except Fault (List Item) :=
  itemsLoop V fmt.length fmt args

/-- There is a conversion that hangs. -/
def HangsLoop (V : Version) : ℕ → List UInt8 → Prop
  | 0, _ => False
  | k + 1, fmt =>
      HangsNext fmt ∨ match readPiece V (k + 1) fmt with
        | .ok (some (_, fmt)) => HangsLoop V k fmt
        | _ => False

def HangsInside (V : Version) (fmt : List UInt8) : Prop := HangsLoop V fmt.length fmt

/-- The full output, behind `n` characters. -/
def fullOutput (V : Version) (n : ℤ) : List Item → List UInt8
  | [] => []
  | x :: xs => x.text V n ++ fullOutput V (n + (x.text V n).length) xs

/-- A negative number with a sign flag comes where one character is left. -/
def DoubleSignedLast (V : Version) (size n : ℤ) : List Item → Prop
  | [] => False
  | x :: xs => (x.DoubleSigned ∧ n + 1 = size) ∨
      DoubleSignedLast V size (n + (x.text V n).length) xs

theorem DoubleSignedLast.lt {n : ℤ} {xs : List Item} (h : DoubleSignedLast V size n xs) :
    n < size := by
  induction xs generalizing n with
  | nil => exact h.elim
  | cons x xs ih =>
      rcases h with ⟨-, hlast⟩ | hrest
      · omega
      · have := ih hrest
        omega

theorem Item.DoubleSigned.two_le {x : Item} (h : x.DoubleSigned) (n : ℤ) :
    2 ≤ (x.text V n).length := by
  cases x with
  | signed m arg =>
      obtain ⟨harg, hflag⟩ := h
      have hlen := length_signText m arg
      rw [if_pos harg, if_pos hflag] at hlen
      unfold Item.text
      rw [List.length_append]
      omega
  | unsigned => exact h.elim
  | hex => exact h.elim
  | char => exact h.elim
  | string => exact h.elim

/-- The output is then too long for the limit. -/
theorem DoubleSignedLast.size_le {n : ℤ} {xs : List Item} (h : DoubleSignedLast V size n xs) :
    size ≤ n + (fullOutput V n xs).length := by
  induction xs generalizing n with
  | nil => exact h.elim
  | cons x xs ih =>
      unfold fullOutput
      rw [List.length_append]
      rcases h with ⟨hx, hlast⟩ | hrest
      · have := hx.two_le (V := V) n
        omega
      · have := ih hrest
        omega

/-! ## A run of the loop -/

/-- What the loop over the format meets next. -/
theorem itemsLoop_cases {k : ℕ} {fmt : List UInt8} {args : List VaArg} {xs : List Item}
    (hk : fmt.length ≤ k) (h : itemsLoop V k fmt args = .ok xs) :
    (xs = [] ∧ HangsLoop V k fmt ∧ ∀ k', readPiece V k' fmt = .error .endless) ∨
    (xs = [] ∧ ¬ HangsLoop V k fmt ∧ ∀ k', fmt.length ≤ k' → readPiece V k' fmt = .ok none) ∨
    ∃ j p rest x args' xs', k = j + 1 ∧ xs = x :: xs' ∧ p.readArg args = .ok (x, args') ∧
      rest.length < fmt.length ∧ itemsLoop V j rest args' = .ok xs' ∧
      (HangsLoop V k fmt ↔ HangsLoop V j rest) ∧
      ∀ k', fmt.length ≤ k' → readPiece V k' fmt = .ok (some (p, rest)) := by
  match k, h with
  | 0, h =>
      obtain rfl := List.length_eq_zero_iff.1 (Nat.le_zero.1 hk)
      cases h
      exact Or.inr (Or.inl ⟨rfl, not_false, fun _ _ => rfl⟩)
  | k + 1, h =>
      unfold itemsLoop at h
      rw [HangsLoop]
      by_cases hhangs : HangsNext fmt
      · refine Or.inl ⟨?_, Or.inl hhangs, readPiece_hangs hhangs⟩
        rw [readPiece_hangs hhangs] at h
        cases h
        rfl
      · obtain ⟨r, hread, hshort⟩ := @readPiece_ends V _ hhangs
        rw [hread _ hk] at h ⊢
        match r, h with
        | none, h =>
            cases h
            exact Or.inr (Or.inl ⟨rfl, fun hor => hor.elim hhangs id, hread⟩)
        | some (p, rest), h =>
            dsimp only at h ⊢
            cases harg : p.readArg args with
            | error e =>
                rw [harg] at h
                cases h
            | ok r =>
                obtain ⟨x, args'⟩ := r
                rw [harg] at h
                dsimp only at h
                cases hrest : itemsLoop V k rest args' with
                | error e =>
                    rw [hrest] at h
                    cases h
                | ok xs' =>
                    rw [hrest] at h
                    cases h
                    exact Or.inr (Or.inr ⟨k, p, rest, x, args', xs', rfl, rfl, harg,
                      hshort p rest rfl, hrest, or_iff_right hhangs, hread⟩)

/-- **A run of the loop that has room for every second sign** puts out the text of the items, as far as
it fits. It hangs if it comes to a conversion that does. -/
theorem printLoop_eq (hsize : size ≤ intMax) {j : ℕ} {fmt : List UInt8} {args : List VaArg}
    {xs : List Item} {o : Out} (hj : fmt.length ≤ j) (hitems : itemsLoop V j fmt args = .ok xs)
    (hroom : o.written ≤ size) (hlast : ¬ DoubleSignedLast V size o.written xs) {k : ℕ}
    (hk : fmt.length < k) :
    (HangsLoop V j fmt ∧ o.written + (fullOutput V o.written xs).length < size →
      printLoop V tty size k fmt args o = .error .endless) ∧
    (¬ (HangsLoop V j fmt ∧ o.written + (fullOutput V o.written xs).length < size) →
      printLoop V tty size k fmt args o
        = .ok (o.emit tty ((fullOutput V o.written xs).take (size - o.written).toNat))) := by
  induction k generalizing j fmt args xs o with
  | zero => omega
  | succ k ih =>
      rw [printLoop]
      by_cases hfull : o.written = size
      · rw [if_neg (by omega), hfull, sub_self, Int.toNat_zero, List.take_zero, Out.emit_nil]
        exact ⟨fun h => absurd h.2 (by omega), fun _ => rfl⟩
      · rw [if_pos (by omega)]
        obtain ⟨rfl, hhangs, hread⟩ | ⟨rfl, hhangs, hread⟩ |
          ⟨j, p, rest, x, args, xs, rfl, rfl, harg, hshort, hitems, hhangs, hread⟩ :=
          itemsLoop_cases hj hitems
        · rw [hread]
          refine ⟨fun _ => rfl, fun h => absurd ⟨hhangs, ?_⟩ h⟩
          simp only [fullOutput, List.length_nil]
          omega
        · rw [hread k (by omega)]
          exact ⟨fun h => absurd h.1 hhangs, fun _ => by simp [fullOutput]⟩
        · have hput := @putItem_eq V tty size o hsize (by omega) x
            fun hx hone => hlast (Or.inl ⟨hx, hone⟩)
          have hlast' : ¬ DoubleSignedLast V size (o.written + (x.text V o.written).length) xs :=
            fun h => hlast (Or.inr h)
          rw [hread k (by omega), hhangs]
          dsimp only
          rw [harg]
          dsimp only
          rw [hput]
          dsimp only
          have hlen := @Out.emit_written tty o ((x.text V o.written).take (size - o.written).toNat)
          rw [List.length_take] at hlen
          rw [fullOutput, List.length_append, List.take_append, Out.emit_append]
          generalize o.emit tty ((x.text V o.written).take (size - o.written).toNat) = o' at hlen ⊢
          by_cases hfits : o.written + (x.text V o.written).length ≤ size
          · -- the item fits, and the loop goes on behind it
            rw [min_eq_right (by omega)] at hlen
            rw [← hlen] at hlast' ⊢
            obtain ⟨hend, hok⟩ := @ih j rest args xs o' (by omega) hitems (by omega) hlast' (by omega)
            refine ⟨fun h => hend ⟨h.1, by omega⟩, fun h => ?_⟩
            rw [hok fun h' => h ⟨h'.1, by omega⟩]
            congr 3
            omega
          · -- the item fills the rest, and the loop ends
            rw [min_eq_left (by omega)] at hlen
            have hnone : (size - o.written).toNat - (x.text V o.written).length = 0 := by omega
            have hnone' : (size - o'.written).toNat = 0 := by omega
            obtain ⟨-, hok⟩ := @ih j rest args xs o' (by omega) hitems (by omega)
              (fun h => by have := h.lt; omega) (by omega)
            refine ⟨fun h => absurd h.2 (by omega), fun _ => ?_⟩
            rw [hok fun h => by have := h.2; omega, hnone, hnone', List.take_zero, List.take_zero]

/-- Where the second sign has no room, it is put out all the same. -/
theorem printLoop_doubleSigned (hsize : size ≤ intMax) {j : ℕ} {fmt : List UInt8}
    {args : List VaArg} {xs : List Item} {o : Out} (hj : fmt.length ≤ j)
    (hitems : itemsLoop V j fmt args = .ok xs) (hlast : DoubleSignedLast V size o.written xs) {k : ℕ}
    (hk : fmt.length < k) :
    printLoop V tty size k fmt args o = .error .tooLong ∨
      ∃ l, size < o.written + l.length ∧ printLoop V tty size k fmt args o = .ok (o.emit tty l) := by
  induction k generalizing j fmt args xs o with
  | zero => omega
  | succ k ih =>
      rw [printLoop, if_pos hlast.lt]
      obtain ⟨rfl, -, -⟩ | ⟨rfl, -, -⟩ |
        ⟨j, p, rest, x, args, xs, rfl, rfl, harg, hshort, hitems, -, hread⟩ :=
        itemsLoop_cases hj hitems
      · exact hlast.elim
      · exact hlast.elim
      · rw [hread k (by omega)]
        dsimp only
        rw [harg]
        dsimp only
        by_cases hnow : x.DoubleSigned ∧ o.written + 1 = size
        · obtain htoo | ⟨l, hl, hput⟩ := @putItem_doubleSigned V tty size o hsize hnow.2 x hnow.1
          · rw [htoo]
            exact Or.inl rfl
          · rw [hput]
            obtain ⟨k, rfl⟩ := Nat.exists_eq_succ_of_ne_zero (by omega : k ≠ 0)
            dsimp only
            rw [printLoop, if_neg (by rw [Out.emit_written]; omega)]
            exact Or.inr ⟨l, by omega, rfl⟩
        · have hlater := hlast.resolve_left hnow
          have hroom := hlater.lt
          rw [@putItem_eq V tty size o hsize (by omega) x fun hx hone => hnow ⟨hx, hone⟩,
            List.take_of_length_le (by omega)]
          dsimp only
          obtain htoo | ⟨l, hl, hrest⟩ := @ih j rest args xs (o.emit tty (x.text V o.written))
            (by omega) hitems (by rwa [Out.emit_written]) (by omega)
          · exact Or.inl htoo
          · rw [Out.emit_written] at hl
            refine Or.inr ⟨x.text V o.written ++ l, by rw [List.length_append]; omega, ?_⟩
            rw [hrest, Out.emit_append]

/-! ## Formatted output ends -/

/-- The loops of `vxnprintf` end. -/
def Returns (V : Version) (tty : Bool) (size : ℤ) (fmt : List UInt8) (args : List VaArg) : Prop :=
  ∃ k, vxnprintf V tty k size fmt args ≠ .error .endless

theorem vxnprintf_ne_endless_iff (hpos : 0 < size) {k : ℕ} {fmt : List UInt8} {args : List VaArg} :
    vxnprintf V tty k size fmt args ≠ .error .endless ↔
      printLoop V tty size k fmt args .start ≠ .error .endless := by
  unfold vxnprintf
  rw [if_neg (by omega)]
  cases printLoop V tty size k fmt args .start with
  | error e => simp [Except.map]
  | ok o => simp [Except.map]

/-- **Formatted output ends unless a conversion hangs before the limit is reached.** A conversion hangs if
the first character behind its `%` that is no flag, no point and no digit from 1 to 8 is a 9; this is
the digit at which a pass of the modifier loop does not get on. -/
theorem vxnprintf_returns_iff (V : Version) (tty : Bool) {size : ℤ} (hsize : size ≤ intMax)
    {fmt : List UInt8} {args : List VaArg} {xs : List Item} (hitems : items V fmt args = .ok xs) :
    (Returns V tty size fmt args ↔
      (HangsInside V fmt → size ≤ (fullOutput V 0 xs).length)) ∧
    ∀ ch rest m rest' m', modifier ch rest m = some (rest', m') →
      (rest'.length < (ch :: rest).length ↔ ch ≠ '9'.toUInt8) := by
  refine ⟨?_, fun ch rest m rest' m' => modifier_advances_iff⟩
  by_cases hpos : 0 < size
  swap
  · refine ⟨fun _ _ => by omega, fun _ => ⟨0, ?_⟩⟩
    unfold vxnprintf
    rw [if_pos (by omega)]
    exact fun h => by cases h
  have hstart : Out.start.written = 0 := rfl
  by_cases hlast : DoubleSignedLast V size 0 xs
  · have hlong := hlast.size_le
    refine ⟨fun _ _ => by omega, fun _ => ⟨fmt.length + 1, ?_⟩⟩
    rw [vxnprintf_ne_endless_iff hpos]
    obtain htoo | ⟨l, -, hok⟩ := @printLoop_doubleSigned V tty size hsize _ fmt args xs .start le_rfl
      hitems hlast _ (Nat.lt_succ_self _)
    · rw [htoo]
      exact fun h => by cases h
    · rw [hok]
      exact fun h => by cases h
  · have hrun (k : ℕ) (hk : fmt.length < k) := @printLoop_eq V tty size hsize _ fmt args xs .start
      le_rfl hitems (by omega) hlast k hk
    simp only [hstart, zero_add] at hrun
    constructor
    · rintro ⟨k, hk⟩ hhangs
      by_contra hshort
      rw [vxnprintf_ne_endless_iff hpos] at hk
      have hmono := printLoop_mono (le_max_left k (fmt.length + 1)) hk
      rw [← hmono] at hk
      exact hk ((hrun _ (by omega)).1 ⟨hhangs, by omega⟩)
    · intro h
      refine ⟨fmt.length + 1, ?_⟩
      rw [vxnprintf_ne_endless_iff hpos, (hrun _ (Nat.lt_succ_self _)).2]
      · exact fun h => by cases h
      · exact fun ⟨hhangs, hshort⟩ => by have := h hhangs; omega

/-- A character in front of a field of nine characters, in a buffer for one character. -/
theorem vxnprintf_returns_iff_oneChar : Returns (.kernel 4) false 1
    ['x'.toUInt8, '%'.toUInt8, '9'.toUInt8, 'd'.toUInt8] [.int 7] :=
  (@vxnprintf_returns_iff (.kernel 4) false 1 (by decide)
    ['x'.toUInt8, '%'.toUInt8, '9'.toUInt8, 'd'.toUInt8] [.int 7] [.char 'x'.toUInt8] rfl).1.2
    fun _ => le_rfl

theorem vxnprintf_hangs (hpos : 0 < size) {fmt : List UInt8} (h : HangsNext fmt)
    (args : List VaArg) : ¬ Returns V tty size fmt args := by
  rintro ⟨k, hk⟩
  rw [vxnprintf_ne_endless_iff hpos] at hk
  cases k with
  | zero => exact hk rfl
  | succ k =>
      rw [printLoop, if_pos (show Out.start.written < size from hpos), readPiece_hangs h] at hk
      exact hk rfl

/-- A field of nine characters is never printed, by neither copy. -/
theorem nineField_hangs :
    ¬ Returns (.kernel 4) false 12 ['%'.toUInt8, '9'.toUInt8, 'd'.toUInt8] [.int 7] ∧
    ¬ Returns .userland false 12 ['%'.toUInt8, '9'.toUInt8, 'd'.toUInt8] [.int 7] :=
  ⟨vxnprintf_hangs (by decide) (by decide) _, vxnprintf_hangs (by decide) (by decide) _⟩

end Kudos.Printf
