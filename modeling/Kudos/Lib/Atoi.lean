import Kudos.Lib.PrintfBuffer
import Mathlib.Tactic.Ring

set_option autoImplicit false

/-! # Decimal numbers

`atoi` of `lib/libc.c`, and that it reads what `%d` prints. Its index and its value are `int`s; an
operation that leaves their range ends the call with nothing here. -/

namespace Kudos

open CInt Printf

/-- Whitespace for `atoi`. -/
def isBlank (c : UInt8) : Bool :=
  c = ' '.toUInt8 ∨ c = '\t'.toUInt8 ∨ c = '\r'.toUInt8 ∨ c = '\n'.toUInt8

def isDigit (c : UInt8) : Bool := '0'.toUInt8 ≤ c ∧ c ≤ '9'.toUInt8

/-- The value of a digit. -/
def digitValue (c : UInt8) : ℕ := c.toNat - '0'.toUInt8.toNat

/-- The loop over the whitespace, with the index `i`: the rest of the string. -/
def skipBlanks : List UInt8 → ℤ → Option (List UInt8 × ℤ)
  | [], i => some ([], i)
  | c :: s, i =>
      if isBlank c then
        match checked (i + 1) with
        | none => none
        | some i => skipBlanks s i
      else some (c :: s, i)

/-- The loop over the digits. -/
def readDigits (sign : ℤ) : List UInt8 → ℤ → ℤ → Option ℤ
  | [], _, value => some value
  | c :: s, i, value =>
      if isDigit c then
        match checked (10 * value) with
        | none => none
        | some value =>
            match checked (value + sign * digitValue c) with
            | none => none
            | some value =>
                match checked (i + 1) with
                | none => none
                | some i => readDigits sign s i value
      else some value

/-- `atoi`. -/
def atoi (s : List UInt8) : Option ℤ :=
  match skipBlanks s 0 with
  | none => none
  | some ([], _) => some 0
  | some (c :: s, i) =>
      if c = 0 then some 0
      else if c = '-'.toUInt8 then
        match checked (i + 1) with
        | none => none
        | some i => readDigits (-1) s i 0
      else if c = '+'.toUInt8 then
        match checked (i + 1) with
        | none => none
        | some i => readDigits 1 s i 0
      else readDigits 1 (c :: s) i 0

/-! ## Numerals -/

/-- The value of a numeral that follows the digits of `a`. -/
def numeralFrom (a : ℕ) (digits : List UInt8) : ℕ :=
  digits.foldl (fun a c => 10 * a + digitValue c) a

/-- The value of a numeral. -/
def numeral (digits : List UInt8) : ℕ := numeralFrom 0 digits

theorem le_numeralFrom (a : ℕ) (digits : List UInt8) : a ≤ numeralFrom a digits := by
  induction digits generalizing a with
  | nil => exact le_rfl
  | cons c digits ih =>
      have hstep := ih (10 * a + digitValue c)
      unfold numeralFrom at hstep ⊢
      rw [List.foldl_cons]
      omega

theorem numeralFrom_append (a : ℕ) (digits digits' : List UInt8) :
    numeralFrom a (digits ++ digits') = numeralFrom (numeralFrom a digits) digits' :=
  List.foldl_append

/-- An optional sign, and the factor it stands for. -/
def IsSign (sign : List UInt8) (σ : ℤ) : Prop :=
  (sign = [] ∧ σ = 1) ∨ (sign = ['+'.toUInt8] ∧ σ = 1) ∨ (sign = ['-'.toUInt8] ∧ σ = -1)

theorem IsSign.factor {sign : List UInt8} {σ : ℤ} (h : IsSign sign σ) : σ = 1 ∨ σ = -1 := by
  obtain ⟨-, rfl⟩ | ⟨-, rfl⟩ | ⟨-, rfl⟩ := h
  · exact Or.inl rfl
  · exact Or.inl rfl
  · exact Or.inr rfl

theorem skipBlanks_append {blanks : List UInt8} (hblanks : ∀ c ∈ blanks, isBlank c = true)
    (s : List UInt8) {i : ℤ} (h0 : 0 ≤ i) (hi : i + blanks.length ≤ intMax) :
    skipBlanks (blanks ++ s) i = skipBlanks s (i + blanks.length) := by
  induction blanks generalizing i with
  | nil => simp
  | cons c blanks ih =>
      have hmin : intMin ≤ 0 := by decide
      rw [List.length_cons] at hi ⊢
      rw [List.cons_append, skipBlanks, if_pos (hblanks c (List.mem_cons_self ..)),
        checked_of_mem (by omega) (by push_cast at hi; omega)]
      dsimp only
      rw [ih (fun c hc => hblanks c (List.mem_cons_of_mem _ hc)) (by omega) (by push_cast at hi; omega)]
      congr 1
      push_cast
      omega

/-- The loop over the digits stays between zero and the value of the numeral. -/
theorem readDigits_append {σ : ℤ} (hσ : σ = 1 ∨ σ = -1) {digits rest : List UInt8}
    (hdigits : ∀ c ∈ digits, isDigit c = true) (hrest : ∀ c ∈ rest.head?, isDigit c = false)
    {a : ℕ} (hlo : intMin ≤ σ * numeralFrom a digits) (hhi : σ * numeralFrom a digits ≤ intMax)
    {i : ℤ} (h0 : 0 ≤ i) (hi : i + digits.length ≤ intMax) :
    readDigits σ (digits ++ rest) i (σ * a) = some (σ * numeralFrom a digits) := by
  have hmin : intMin ≤ 0 := by decide
  have hmax : 0 ≤ intMax := by decide
  induction digits generalizing a i with
  | nil =>
      cases rest with
      | nil => rfl
      | cons c rest =>
          rw [List.nil_append, readDigits, hrest c rfl]
          rfl
  | cons c digits ih =>
      have hstep : numeralFrom a (c :: digits) = numeralFrom (10 * a + digitValue c) digits := rfl
      have hle := le_numeralFrom (10 * a + digitValue c) digits
      have hvalue : 10 * (σ * a) + σ * digitValue c = σ * ((10 * a + digitValue c : ℕ) : ℤ) := by
        push_cast
        ring
      rw [hstep] at hlo hhi ⊢
      rw [List.length_cons] at hi
      rw [List.cons_append, readDigits, if_pos (hdigits c (List.mem_cons_self ..))]
      obtain ⟨hten, hnext⟩ : (intMin ≤ 10 * (σ * a) ∧ 10 * (σ * a) ≤ intMax) ∧
          intMin ≤ 10 * (σ * a) + σ * digitValue c ∧ 10 * (σ * a) + σ * digitValue c ≤ intMax := by
        rcases hσ with rfl | rfl <;> omega
      rw [checked_of_mem hten.1 hten.2]
      dsimp only
      rw [checked_of_mem hnext.1 hnext.2]
      dsimp only
      rw [checked_of_mem (by omega) (by push_cast at hi; omega)]
      dsimp only
      rw [hvalue]
      exact ih (fun c hc => hdigits c (List.mem_cons_of_mem _ hc)) hlo hhi (by omega)
        (by push_cast at hi; omega)

theorem isBlank_of_isDigit {c : UInt8} (h : isDigit c = true) :
    isBlank c = false ∧ c ≠ 0 ∧ c ≠ '-'.toUInt8 ∧ c ≠ '+'.toUInt8 := by
  have hlo : 48 ≤ c.toNat := by
    unfold isDigit at h
    rw [decide_eq_true_eq] at h
    exact UInt8.le_iff_toNat_le.1 h.1
  have hne (d : UInt8) (hd : d.toNat < 48) : c ≠ d := by
    rintro rfl
    omega
  refine ⟨?_, hne _ (by decide), hne _ (by decide), hne _ (by decide)⟩
  unfold isBlank
  rw [decide_eq_false_iff_not, not_or, not_or, not_or]
  exact ⟨hne _ (by decide), hne _ (by decide), hne _ (by decide), hne _ (by decide)⟩

/-- **`atoi` reads a numeral** behind blanks and a sign, whatever follows its digits. -/
theorem atoi_eq {blanks sign digits rest : List UInt8} {σ : ℤ}
    (hblanks : ∀ c ∈ blanks, isBlank c = true) (hsign : IsSign sign σ) (hne : digits ≠ [])
    (hdigits : ∀ c ∈ digits, isDigit c = true) (hrest : ∀ c ∈ rest.head?, isDigit c = false)
    (hlo : intMin ≤ σ * numeral digits) (hhi : σ * numeral digits ≤ intMax)
    (hlength : ((blanks ++ sign ++ digits).length : ℤ) ≤ intMax) :
    atoi (blanks ++ sign ++ digits ++ rest) = some (σ * numeral digits) := by
  obtain ⟨d, ds, rfl⟩ := List.exists_cons_of_ne_nil hne
  obtain ⟨hblank, hzero, hminus, hplus⟩ := isBlank_of_isDigit (hdigits d (List.mem_cons_self ..))
  have hread {i : ℤ} (h0 : 0 ≤ i) (hi : i + (d :: ds).length ≤ intMax) :
      readDigits σ (d :: ds ++ rest) i 0 = some (σ * numeral (d :: ds)) := by
    have h := readDigits_append hsign.factor hdigits hrest (a := 0) hlo hhi h0 hi
    rwa [Nat.cast_zero, mul_zero] at h
  have hmin : intMin ≤ 0 := by decide
  rw [List.length_append, List.length_append] at hlength
  have hskip := skipBlanks_append hblanks (sign ++ (d :: ds ++ rest)) le_rfl
    (by push_cast at hlength; omega : (0 : ℤ) + blanks.length ≤ intMax)
  rw [zero_add] at hskip
  unfold atoi
  rw [List.append_assoc, List.append_assoc, hskip]
  obtain ⟨rfl, rfl⟩ | ⟨rfl, rfl⟩ | ⟨rfl, rfl⟩ := hsign
  · rw [List.nil_append, List.cons_append, skipBlanks, if_neg (by rw [hblank]; decide)]
    dsimp only
    rw [if_neg hzero, if_neg hminus, if_neg hplus]
    exact hread (by omega) (by push_cast at hlength ⊢; omega)
  · rw [List.length_singleton] at hlength
    rw [List.singleton_append, skipBlanks, if_neg (by decide)]
    dsimp only
    rw [if_neg (by decide), if_neg (by decide), if_pos rfl, checked_of_mem (by omega)
      (by push_cast at hlength; omega)]
    exact hread (by omega) (by push_cast at hlength ⊢; omega)
  · rw [List.length_singleton] at hlength
    rw [List.singleton_append, skipBlanks, if_neg (by decide)]
    dsimp only
    rw [if_neg (by decide), if_pos rfl, checked_of_mem (by omega) (by push_cast at hlength; omega)]
    exact hread (by omega) (by push_cast at hlength ⊢; omega)

/-! ## What `%d` prints -/

theorem digit_spec {d : ℕ} (hd : d < 10) :
    isDigit (digit false d) = true ∧ digitValue (digit false d) = d := by
  have hall : ∀ d < 10, isDigit (digit false d) = true ∧ digitValue (digit false d) = d := by decide
  exact hall d hd

theorem digit_mod_spec (n : ℕ) :
    isDigit (digit false (n % 10)) = true ∧ digitValue (digit false (n % 10)) = n % 10 :=
  digit_spec (Nat.mod_lt n (by decide))

theorem isDigit_revDigits (k n : ℕ) : ∀ c ∈ revDigits 10 false k n, isDigit c = true := by
  induction k generalizing n with
  | zero => exact fun c hc => List.mem_singleton.1 hc ▸ (digit_mod_spec n).1
  | succ k ih =>
      intro c hc
      unfold revDigits at hc
      rcases List.mem_cons.1 hc with rfl | hc
      · exact (digit_mod_spec n).1
      · split_ifs at hc with hrest
        · exact ih (n / 10) c hc
        · cases hc

theorem numeral_concat (l : List UInt8) (n : ℕ) :
    numeral (l ++ [digit false (n % 10)]) = 10 * numeral l + n % 10 := by
  unfold numeral
  rw [numeralFrom_append]
  change 10 * numeralFrom 0 l + digitValue (digit false (n % 10)) = _
  rw [(digit_mod_spec n).2]

/-- The digits that `print_uint` makes are those of the number. -/
theorem numeral_revDigits {k n : ℕ} (hk : n ≤ k) :
    numeral (revDigits 10 false k n).reverse = n := by
  induction k generalizing n with
  | zero =>
      obtain rfl := Nat.le_zero.1 hk
      rfl
  | succ k ih =>
      unfold revDigits
      rw [List.reverse_cons, numeral_concat]
      split_ifs with hrest
      · rw [ih (by omega)]
        omega
      · change 10 * 0 + n % 10 = n
        omega

theorem length_revDigits_le {k n m : ℕ} (hn : n < 10 ^ (m + 1)) :
    (revDigits 10 false k n).length ≤ m + 1 := by
  induction k generalizing n m with
  | zero => simp [revDigits]
  | succ k ih =>
      unfold revDigits
      rw [List.length_cons]
      split_ifs with hrest
      · cases m with
        | zero => omega
        | succ m =>
            have hdiv : n / 10 < 10 ^ (m + 1) := by
              rw [pow_succ] at hn
              omega
            have := ih hdiv
            omega
      · simp

/-- The unsigned number that is printed behind the sign, on both word sizes. -/
theorem uintptr_intptr_neg {w : ℕ} (hw : w = 4 ∨ w = 8) (n : BitVec 32) :
    (Version.kernel w).uintptr (if n.toInt < 0 then (Version.kernel w).intptr (-n.toInt) else n.toInt)
      = n.toInt.natAbs := by
  have hlo := n.le_toInt
  have hhi := n.toInt_lt
  unfold Version.uintptr Version.intptr Version.kernel
  dsimp only
  rw [Int.bmod_def]
  rcases hw with rfl | rfl <;> (norm_num at *; split_ifs <;> omega)

theorem uintText_decimal (w n : ℕ) :
    uintText (.kernel w) n 10 false 0 0 = (revDigits 10 false n n).reverse := by
  unfold uintText reversed pad Version.kernel
  simp

/-- The output of `%d`. -/
theorem text_signed {w : ℕ} (hw : w = 4 ∨ w = 8) (n : BitVec 32) :
    Item.text (.kernel w) 0 (.signed {} n.toInt)
      = (if n.toInt < 0 then ['-'.toUInt8] else [])
        ++ (revDigits 10 false n.toInt.natAbs n.toInt.natAbs).reverse := by
  unfold Item.text signText
  dsimp only
  rw [uintptr_intptr_neg hw, uintText_decimal]
  simp [Mods.signChars]

/-- **`atoi` reads what `%d` printed.** -/
theorem atoi_text_signed {w : ℕ} (hw : w = 4 ∨ w = 8) (n : BitVec 32) :
    (Item.text (.kernel w) 0 (.signed {} n.toInt)).length ≤ 11 ∧
    0 ∉ Item.text (.kernel w) 0 (.signed {} n.toInt) ∧
    atoi (Item.text (.kernel w) 0 (.signed {} n.toInt)) = some n.toInt := by
  have hlo := n.le_toInt
  have hhi := n.toInt_lt
  have hlen : (revDigits 10 false n.toInt.natAbs n.toInt.natAbs).length ≤ 10 :=
    length_revDigits_le (by norm_num at hlo hhi ⊢; omega)
  have hdigits : ∀ c ∈ (revDigits 10 false n.toInt.natAbs n.toInt.natAbs).reverse,
      isDigit c = true := fun c hc => isDigit_revDigits _ _ c (List.mem_reverse.1 hc)
  have hvalue := numeral_revDigits (le_refl n.toInt.natAbs)
  rw [← List.length_reverse] at hlen
  have hne : (revDigits 10 false n.toInt.natAbs n.toInt.natAbs).reverse ≠ [] := by
    intro hnil
    rw [List.reverse_eq_nil_iff] at hnil
    unfold revDigits at hnil
    split at hnil <;> cases hnil
  rw [text_signed hw]
  generalize (revDigits 10 false n.toInt.natAbs n.toInt.natAbs).reverse = digits at *
  have hzero : 0 ∉ digits := fun hmem => (isBlank_of_isDigit (hdigits 0 hmem)).2.1 rfl
  have hread {sign : List UInt8} {σ : ℤ} (hsign : IsSign sign σ) (hσ : σ * n.toInt.natAbs = n.toInt)
      (hlen : sign.length ≤ 1) : atoi (sign ++ digits) = some n.toInt := by
    have h := @atoi_eq [] sign digits [] σ (fun _ h => by cases h) hsign hne hdigits
      (fun _ h => by cases h)
    rw [hvalue, hσ, List.append_nil, List.nil_append, List.length_append] at h
    unfold intMin intMax at h
    exact h (by norm_num at hlo ⊢; omega) (by norm_num at hhi ⊢; omega) (by omega)
  by_cases hneg : n.toInt < 0
  · rw [if_pos hneg]
    refine ⟨by rw [List.length_append, List.length_singleton]; omega, ?_,
      hread (Or.inr (Or.inr ⟨rfl, rfl⟩)) (by omega) le_rfl⟩
    rw [List.mem_append, not_or]
    exact ⟨by decide, hzero⟩
  · rw [if_neg hneg]
    exact ⟨by rw [List.nil_append]; omega, hzero, hread (Or.inl ⟨rfl, rfl⟩) (by omega) (by decide)⟩

/-- **Decimal printing and parsing are inverse**, and `atoi` reads every numeral that it gets to the end
of with an `int` as its index. -/
theorem atoi_snprintf :
    (∀ w : ℕ, w = 4 ∨ w = 8 → ∀ n : BitVec 32, ∃ k ret o s,
      vsnprintf w k 12 ['%'.toUInt8, 'd'.toUInt8] [.int n] = .ok (ret, o) ∧
        HoldsString o.cells s ∧ atoi s = some n.toInt) ∧
    ∀ (blanks sign digits rest : List UInt8) (σ : ℤ), (∀ c ∈ blanks, isBlank c = true) →
      IsSign sign σ → digits ≠ [] → (∀ c ∈ digits, isDigit c = true) →
      (∀ c ∈ rest.head?, isDigit c = false) → intMin ≤ σ * numeral digits →
      σ * numeral digits ≤ intMax → ((blanks ++ sign ++ digits).length : ℤ) ≤ intMax →
      atoi (blanks ++ sign ++ digits ++ rest) = some (σ * numeral digits) := by
  refine ⟨fun w hw n => ?_, fun _ _ _ _ _ => atoi_eq⟩
  obtain ⟨hlen, hzero, hatoi⟩ := atoi_text_signed hw n
  obtain ⟨ret, o, hrun, hrespects⟩ := @vsnprintf_of_not_hangs 12 w (by decide) (by decide)
    ['%'.toUInt8, 'd'.toUInt8] [.int n] [.signed {} n.toInt] rfl
    (fun h => h.elim (absurd · (by decide)) fun h => h.elim (absurd · (by decide)) id)
    (fun h => h.elim (fun h => absurd h.2 (by decide)) False.elim)
  have hfull : fullOutput (.kernel w) 0 [.signed {} n.toInt]
      = Item.text (.kernel w) 0 (.signed {} n.toInt) := List.append_nil _
  rw [hfull] at hrespects
  have hstring := hrespects.string hzero
  rw [List.take_of_length_le (by exact hlen)] at hstring
  exact ⟨_, ret, o, _, hrun, hstring, hatoi⟩

/-- The smallest `int` on the 32-bit machine, and a numeral with everything around it. -/
theorem atoi_snprintf_intMin :
    (∃ k ret o s, vsnprintf 4 k 12 ['%'.toUInt8, 'd'.toUInt8] [.int (BitVec.intMin 32)] = .ok (ret, o) ∧
      HoldsString o.cells s ∧ atoi s = some (BitVec.intMin 32).toInt) ∧
    atoi ([' '.toUInt8] ++ ['-'.toUInt8] ++ ['4'.toUInt8, '2'.toUInt8] ++ ['x'.toUInt8])
      = some (-1 * (numeral ['4'.toUInt8, '2'.toUInt8] : ℤ)) :=
  ⟨atoi_snprintf.1 4 (Or.inl rfl) (BitVec.intMin 32),
    atoi_snprintf.2 [' '.toUInt8] ['-'.toUInt8] ['4'.toUInt8, '2'.toUInt8] ['x'.toUInt8] (-1)
      (by decide +kernel) (Or.inr (Or.inr ⟨rfl, rfl⟩)) (by simp) (by decide +kernel)
      (by decide +kernel) (by decide +kernel) (by decide +kernel) (by decide)⟩

/-- The index overflows behind the last blank that an `int` can count. -/
theorem skipBlanks_overflow {c : UInt8} (hc : isBlank c = true) {n : ℕ} {i : ℤ} (s : List UInt8)
    (h0 : 0 ≤ i) (hi : i ≤ intMax) (hn : intMax < i + n) :
    skipBlanks (List.replicate n c ++ s) i = none := by
  have hmin : intMin ≤ 0 := by decide
  induction n generalizing i with
  | zero => omega
  | succ n ih =>
      rw [List.replicate_succ, List.cons_append, skipBlanks, if_pos hc]
      by_cases hlast : i = intMax
      · have hnone : checked (i + 1) = none := if_neg (by omega)
        rw [hnone]
      · rw [checked_of_mem (by omega) (by omega)]
        exact ih (by omega) (by omega) (by push_cast at hn; omega)

theorem atoi_overflow {c : UInt8} (hc : isBlank c = true) {n : ℕ} (s : List UInt8)
    (hn : intMax < (n : ℤ)) : atoi (List.replicate n c ++ s) = none := by
  have hskip := skipBlanks_overflow hc s le_rfl (by decide) (by omega : intMax < 0 + (n : ℤ))
  unfold atoi
  rw [hskip]

/-- A numeral behind 2³¹ blanks is not reached. -/
theorem atoi_manyBlanks :
    atoi (List.replicate (2 ^ 31) ' '.toUInt8 ++ ['1'.toUInt8]) = none :=
  atoi_overflow (by decide) _ (by norm_num [intMax])

end Kudos
