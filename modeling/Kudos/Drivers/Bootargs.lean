import Kudos.Library.ByteMemory
import Kudos.Library.CInt
import Mathlib.Data.List.TakeWhile

set_option autoImplicit false

/-! # Boot arguments

`bootargs_init` copies the boot string and cuts the copy into keys and values by writing terminators
over its separators; `bootargs_get` looks for a key. As long as the table has room for them, the
arguments are those that the string spells (`bootargsGet_eq_find`). Nothing stops the loop when the
table is full (`bootargsInit_inBounds_iff`). -/

namespace Kudos

open CInt
open ByteMemory (CString)

/-! ## The table -/

/-- `CONFIG_BOOTARGS_MAX`. -/
def configBootargsMax : ℕ := 32

/-- `struct bootargs_t`, with positions in `value_area` for the two pointers. The value `""` of a bare
key is a constant and has no position. -/
structure Bootarg where
  key : ℕ
  value : Option ℕ
  deriving DecidableEq

/-- Why there are no boot arguments. -/
inductive BootargsFault
  /-- A panic of `stalloc`. -/
  | panic
  /-- Not a panic: an access to `bootargs_values[i]` behind the table. -/
  | bootargsValues (i : ℕ)
  /-- Not a panic: an access to `value_area[o]` behind the copy. -/
  | valueArea (o : ℕ)
  deriving DecidableEq

/-- The table, the copy of the boot string, and the indices of the loop. An entry whose key is `NULL`
is `none`. -/
structure Bootargs where
  bootargsValues : ℕ → Option Bootarg
  valueArea : List UInt8
  i : ℕ
  o : ℕ
  last : ℕ

namespace Bootargs

/-- `*(value_area+o)`. -/
def byte (s : Bootargs) : Except BootargsFault UInt8 :=
  match s.valueArea[s.o]? with
  | some c => return c
  | none => throw (.valueArea s.o)

/-- `*(value_area+o) = 0; o++`. -/
def terminate (s : Bootargs) : Except BootargsFault Bootargs :=
  if s.o < s.valueArea.length then
    return { s with valueArea := s.valueArea.set s.o 0, o := s.o + 1 }
  else throw (.valueArea s.o)

/-- An assignment to `bootargs_values[i]`. -/
def assign (s : Bootargs) (f : Option Bootarg → Option Bootarg) : Except BootargsFault Bootargs :=
  if s.i < configBootargsMax then
    return { s with bootargsValues := Function.update s.bootargsValues s.i (f (s.bootargsValues s.i)) }
  else throw (.bootargsValues s.i)

end Bootargs

/-! ## The two loops -/

/-- The inner loop, which looks for the end of a value. It makes at most `n` iterations. -/
def scanValue (l : ℤ) : ℕ → Bootargs → Except BootargsFault Bootargs
  | 0, s => return s
  | n + 1, s => do
      if l < s.o then return s
      let c ← s.byte
      if c = ' '.toUInt8 ∨ c = 0 then
        let s ← s.assign (Option.map fun b => { b with value := some s.last })
        let s ← s.terminate
        return { s with last := s.o }
      else scanValue l n { s with o := s.o + 1 }

/-- The outer loop, which looks for the end of a key. It makes at most `n` iterations. -/
def scanArgs (l : ℤ) : ℕ → Bootargs → Except BootargsFault Bootargs
  | 0, s => return s
  | n + 1, s => do
      if l < s.o then return s
      let c ← s.byte
      if c = ' '.toUInt8 ∨ c = 0 ∨ c = '='.toUInt8 then
        let s ← s.assign fun _ => some ⟨s.last, none⟩
        let s := { s with last := s.o + 1 }
        if c = '='.toUInt8 then
          let s ← s.terminate
          let s ← scanValue l n s
          scanArgs l n { s with i := s.i + 1 }
        else
          let s ← s.terminate
          scanArgs l n { s with i := s.i + 1 }
      else scanArgs l n { s with o := s.o + 1 }

/-- `strlen`, which counts in an `int`. -/
def strlen (str : List UInt8) : ℤ := wrap32 str.length

/-- `bootargs_init`, for a boot string in memory or `NULL`. -/
def bootargsInit : Option (List UInt8) → Except BootargsFault Bootargs
  | none => return ⟨fun _ => none, [], 0, 0, 0⟩
  | some bootargArea => do
      let l := strlen bootargArea
      let bytes := wrap32 (l + 1)
      -- `stalloc` panics
      if bytes < 0 then throw .panic
      scanArgs l bytes.toNat ⟨fun _ => none, (bootargArea ++ [0]).take bytes.toNat, 0, 0, 0⟩

/-! ## The search -/

/-- The comparison of `bootargs_get`, for the memory from a key on. -/
def keyMatches : List UInt8 → List UInt8 → Bool
  | [], _ => false
  | c :: mem, key => c = key.headD 0 && (key.headD 0 = 0 || keyMatches mem key.tail)

/-- The loop of `bootargs_get`, over `n` entries from `i` on. -/
def searchArgs (s : Bootargs) (key : List UInt8) : ℕ → ℕ → Option (Option ℕ)
  | 0, _ => none
  | n + 1, i =>
      match s.bootargsValues i with
      | none => none
      | some b =>
          if keyMatches (s.valueArea.drop b.key) key then some b.value else searchArgs s key n (i + 1)

/-- The string at a position of the copy, or `""`. -/
def Bootargs.text (valueArea : List UInt8) : Option ℕ → List UInt8
  | none => []
  | some p => (valueArea.drop p).takeWhile (· ≠ 0)

/-- `bootargs_get`: the string that the result points to. -/
def bootargsGet (s : Bootargs) (key : List UInt8) : Option (List UInt8) :=
  (searchArgs s key configBootargsMax 0).map (Bootargs.text s.valueArea)

/-! ## What a boot string says -/

/-- A boot string. It is in the first 4 GiB of the memory, like its address. -/
structure BootString extends CString where
  fits : chars.length + 1 < 2 ^ 32

/-- The arguments of a boot string. -/
def tokens (chars : List UInt8) : List (List UInt8) := chars.splitOn ' '.toUInt8

/-- The key of an argument: what is in front of the first `=`. -/
def argKey (t : List UInt8) : List UInt8 := t.takeWhile (· ≠ '='.toUInt8)

/-- The value of an argument: what is behind the first `=`. -/
def argValue (t : List UInt8) : List UInt8 := (t.dropWhile (· ≠ '='.toUInt8)).tail

example : tokens [97, 61, 98, 32, 32, 99] = [[97, 61, 98], [], [99]] := by decide

/-! ## The memory of an argument -/

/-- An argument is its key, or its key and its value. -/
theorem eq_argKey_append (t : List UInt8) (h : '='.toUInt8 ∈ t) :
    t = argKey t ++ '='.toUInt8 :: argValue t := by
  induction t with
  | nil => cases h
  | cons c t ih =>
      unfold argKey argValue
      by_cases hc : c = '='.toUInt8
      · rw [List.takeWhile_cons_of_neg (by simp [hc]), List.dropWhile_cons_of_neg (by simp [hc]), hc]
        rfl
      · have hmem : '='.toUInt8 ∈ t := (List.mem_cons.1 h).resolve_left (Ne.symm hc)
        rw [List.takeWhile_cons_of_pos (by simp [hc]), List.dropWhile_cons_of_pos (by simp [hc])]
        exact congrArg (c :: ·) (ih hmem)

theorem argKey_of_not_mem {t : List UInt8} (h : '='.toUInt8 ∉ t) : argKey t = t :=
  List.takeWhile_eq_self_iff.2 fun c hc => by
    simp only [decide_eq_true_eq]
    rintro rfl
    exact h hc

theorem argValue_of_not_mem {t : List UInt8} (h : '='.toUInt8 ∉ t) : argValue t = [] := by
  have hnil : t.dropWhile (· ≠ '='.toUInt8) = [] := by
    refine List.dropWhile_eq_nil_iff.2 fun c hc => ?_
    simp only [decide_eq_true_eq]
    rintro rfl
    exact h hc
  unfold argValue
  rw [hnil]
  rfl

/-- The bytes that the loop leaves for an argument, terminators included. -/
def stored (t : List UInt8) : List UInt8 :=
  if '='.toUInt8 ∈ t then argKey t ++ 0 :: (argValue t ++ [0]) else t ++ [0]

/-- The entry for an argument at position `p`. -/
def argAt (p : ℕ) (t : List UInt8) : Bootarg :=
  ⟨p, if '='.toUInt8 ∈ t then some (p + (argKey t).length + 1) else none⟩

/-- The entry stands for the argument. -/
structure IsArg (valueArea : List UInt8) (b : Bootarg) (t : List UInt8) : Prop where
  nonzero : ∀ c ∈ t, c ≠ 0
  key : ∃ rest, valueArea.drop b.key = argKey t ++ 0 :: rest
  value : Bootargs.text valueArea b.value = argValue t

theorem stored_length (t : List UInt8) : (stored t).length = t.length + 1 := by
  unfold stored
  split
  · next h =>
      have hlen := congrArg List.length (eq_argKey_append t h)
      simp only [List.length_append, List.length_cons, List.length_nil] at hlen ⊢
      omega
  · simp

/-- What the loop leaves can be read with the entry. -/
theorem isArg_argAt {pre t valueArea : List UInt8} (ht : ∀ c ∈ t, c ≠ 0)
    (h : pre ++ stored t <+: valueArea) : IsArg valueArea (argAt pre.length t) t := by
  obtain ⟨rest, rfl⟩ := h
  by_cases hmem : '='.toUInt8 ∈ t
  · have hstored : stored t = argKey t ++ 0 :: (argValue t ++ [0]) := if_pos hmem
    have hsplit := eq_argKey_append t hmem
    refine ⟨ht, ⟨argValue t ++ [0] ++ rest, ?_⟩, ?_⟩
    · have hdrop : (pre ++ stored t ++ rest).drop pre.length = stored t ++ rest := by
        rw [List.append_assoc, List.drop_left]
      rw [argAt, hdrop, hstored]
      simp
    · have hvalue : (argAt pre.length t).value = some ((pre ++ argKey t ++ [0]).length) := by
        rw [argAt, if_pos hmem]
        simp [Nat.add_assoc]
      have harea : pre ++ stored t ++ rest
          = (pre ++ argKey t ++ [0]) ++ (argValue t ++ 0 :: rest) := by
        rw [hstored]
        simp
      have hnonzero : ∀ c ∈ argValue t, decide (c ≠ 0) = true := by
        intro c hc
        refine decide_eq_true (ht c ?_)
        rw [hsplit]
        exact List.mem_append_right _ (List.mem_cons_of_mem _ hc)
      rw [hvalue, harea, Bootargs.text, List.drop_left, List.takeWhile_append_of_pos hnonzero,
        List.takeWhile_cons_of_neg (by decide), List.append_nil]
  · have hstored : stored t = t ++ [0] := if_neg hmem
    refine ⟨ht, ⟨rest, ?_⟩, ?_⟩
    · have hdrop : (pre ++ stored t ++ rest).drop pre.length = stored t ++ rest := by
        rw [List.append_assoc, List.drop_left]
      rw [argAt, hdrop, hstored, argKey_of_not_mem hmem]
      simp
    · rw [argAt, if_neg hmem, argValue_of_not_mem hmem]
      rfl

/-! ## An argument in the loops -/

section

variable {l : ℤ} {v : ℕ → Option Bootarg} {pre post : List UInt8} {c sep : UInt8} {i last n : ℕ}

theorem byte_at : (⟨v, pre ++ c :: post, i, pre.length, last⟩ : Bootargs).byte = .ok c := by
  have hget : (pre ++ c :: post)[pre.length]? = some c := by simp
  unfold Bootargs.byte
  simp only [hget]
  rfl

theorem terminate_at : (⟨v, pre ++ c :: post, i, pre.length, last⟩ : Bootargs).terminate
    = .ok ⟨v, pre ++ 0 :: post, i, pre.length + 1, last⟩ := by
  have hset : (pre ++ c :: post).set pre.length 0 = pre ++ 0 :: post := by simp
  have hlt : pre.length < (pre ++ c :: post).length := by simp
  unfold Bootargs.terminate
  rw [if_pos hlt]
  simp only [hset]
  rfl

theorem ok_bind {α β : Type} (a : α) (f : α → Except BootargsFault β) :
    ((Except.ok a : Except BootargsFault α) >>= f) = f a := rfl

theorem assign_at {area : List UInt8} {o : ℕ} (hi : i < configBootargsMax)
    (f : Option Bootarg → Option Bootarg) : (⟨v, area, i, o, last⟩ : Bootargs).assign f
      = .ok ⟨Function.update v i (f (v i)), area, i, o, last⟩ := if_pos hi

/-- The inner loop goes over the value to its end. -/
theorem scanValue_value {value : List UInt8} (hvalue : ∀ c ∈ value, c ≠ ' '.toUInt8 ∧ c ≠ 0)
    (hsep : sep = ' '.toUInt8 ∨ sep = 0) (hl : (pre.length + value.length : ℕ) ≤ l) (hi : i < configBootargsMax)
    (hn : value.length < n) :
    scanValue l n ⟨v, pre ++ (value ++ sep :: post), i, pre.length, last⟩
      = .ok ⟨Function.update v i ((v i).map fun b => { b with value := some last }),
          pre ++ (value ++ 0 :: post), i, pre.length + value.length + 1, pre.length + value.length + 1⟩ := by
  induction value generalizing pre n with
  | nil =>
      obtain ⟨n, rfl⟩ : ∃ m, n = m + 1 := ⟨n - 1, by omega⟩
      rw [List.length_nil] at hl
      unfold scanValue
      simp only [List.nil_append]
      rw [if_neg (by omega), byte_at, ok_bind, if_pos hsep, assign_at hi, ok_bind, terminate_at]
      rfl
  | cons c value ih =>
      obtain ⟨n, rfl⟩ : ∃ m, n = m + 1 := ⟨n - 1, by omega⟩
      obtain ⟨hc, hvalue⟩ := List.forall_mem_cons.1 hvalue
      rw [List.length_cons] at hl hn
      unfold scanValue
      simp only [List.cons_append]
      rw [if_neg (by omega), byte_at, ok_bind, if_neg (not_or.2 hc)]
      have hrest := @ih (pre ++ [c]) n hvalue (by rw [List.length_append, List.length_singleton]; omega) (by omega)
      rw [List.append_assoc, List.length_append, List.length_singleton, List.append_assoc] at hrest
      simp only [List.singleton_append] at hrest
      rw [List.length_cons]
      rw [show pre.length + (value.length + 1) + 1 = pre.length + 1 + value.length + 1 by omega]
      exact hrest

/-- The outer loop goes over a key. -/
theorem scanArgs_key {k : List UInt8} (hk : ∀ c ∈ k, c ≠ ' '.toUInt8 ∧ c ≠ 0 ∧ c ≠ '='.toUInt8)
    (hl : (pre.length + k.length : ℕ) ≤ l) :
    scanArgs l (n + k.length) ⟨v, pre ++ (k ++ post), i, pre.length, last⟩
      = scanArgs l n ⟨v, (pre ++ k) ++ post, i, (pre ++ k).length, last⟩ := by
  induction k generalizing pre with
  | nil => simp
  | cons c k ih =>
      obtain ⟨hc, hk⟩ := List.forall_mem_cons.1 hk
      rw [List.length_cons] at hl
      rw [List.length_cons, ← Nat.add_assoc, scanArgs]
      simp only [List.cons_append]
      rw [if_neg (by omega), byte_at, ok_bind, if_neg (by tauto)]
      have hrest := @ih (pre ++ [c]) hk (by rw [List.length_append, List.length_singleton]; omega)
      rw [List.append_assoc] at hrest
      simp only [List.singleton_append, List.length_append, List.length_singleton, List.append_assoc] at hrest ⊢
      rw [hrest, List.length_cons]

/-- The end of a key when the table is full. -/
theorem scanArgs_full (hc : c = ' '.toUInt8 ∨ c = 0 ∨ c = '='.toUInt8) (hl : (pre.length : ℤ) ≤ l)
    (hi : ¬ i < configBootargsMax) :
    scanArgs l (n + 1) ⟨v, pre ++ c :: post, i, pre.length, last⟩ = .error (.bootargsValues i) := by
  unfold scanArgs
  simp only
  rw [if_neg (by omega), byte_at, ok_bind, if_pos hc, Bootargs.assign, if_neg hi]
  rfl

/-- The end of a bare key. -/
theorem scanArgs_bare (hsep : sep = ' '.toUInt8 ∨ sep = 0) (hl : (pre.length : ℤ) ≤ l)
    (hi : i < configBootargsMax) :
    scanArgs l (n + 1) ⟨v, pre ++ sep :: post, i, pre.length, last⟩
      = scanArgs l n ⟨Function.update v i (some ⟨last, none⟩), pre ++ 0 :: post, i + 1, pre.length + 1,
          pre.length + 1⟩ := by
  have hne : sep ≠ '='.toUInt8 := by
    rcases hsep with rfl | rfl
    · decide
    · decide
  conv_lhs => unfold scanArgs
  simp only
  rw [if_neg (by omega), byte_at, ok_bind, if_pos (by tauto), assign_at hi, ok_bind]
  simp only
  rw [if_neg hne, terminate_at, ok_bind]

/-- The end of a key that has a value. -/
theorem scanArgs_pair (hl : (pre.length : ℤ) ≤ l) (hi : i < configBootargsMax) :
    scanArgs l (n + 1) ⟨v, pre ++ '='.toUInt8 :: post, i, pre.length, last⟩
      = scanValue l n ⟨Function.update v i (some ⟨last, none⟩), pre ++ 0 :: post, i, pre.length + 1,
          pre.length + 1⟩ >>= fun s => scanArgs l n { s with i := s.i + 1 } := by
  conv_lhs => unfold scanArgs
  simp only
  rw [if_neg (by omega), byte_at, ok_bind, if_pos (Or.inr (Or.inr rfl)), assign_at hi, ok_bind]
  simp only
  rw [if_pos trivial, terminate_at, ok_bind]

/-- **An argument in the outer loop.** It gets the next entry of the table, if there is one. -/
theorem scanArgs_token {t : List UInt8} (ht : ∀ c ∈ t, c ≠ ' '.toUInt8 ∧ c ≠ 0)
    (hsep : sep = ' '.toUInt8 ∨ sep = 0) (hl : (pre.length + t.length : ℕ) ≤ l) (hn : t.length < n) :
    ∃ m, n ≤ m + (t.length + 1) ∧
      scanArgs l n ⟨v, pre ++ (t ++ sep :: post), i, pre.length, pre.length⟩ =
        if i < configBootargsMax then
          scanArgs l m ⟨Function.update v i (some (argAt pre.length t)), (pre ++ stored t) ++ post, i + 1,
            (pre ++ stored t).length, (pre ++ stored t).length⟩
        else .error (.bootargsValues i) := by
  have hstored := stored_length t
  by_cases hmem : '='.toUInt8 ∈ t
  · have hsplit := eq_argKey_append t hmem
    have hlen := congrArg List.length hsplit
    rw [List.length_append, List.length_cons] at hlen
    obtain ⟨m, rfl⟩ : ∃ m, n = m + 1 + (argKey t).length := ⟨n - (argKey t).length - 1, by omega⟩
    have harea : pre ++ (t ++ sep :: post)
        = pre ++ (argKey t ++ ('='.toUInt8 :: (argValue t ++ sep :: post))) := by
      conv_lhs => rw [hsplit]
      simp
    have hkey : ∀ c ∈ argKey t, c ≠ ' '.toUInt8 ∧ c ≠ 0 ∧ c ≠ '='.toUInt8 := by
      intro c hc
      have hne : c ≠ '='.toUInt8 := by simpa using List.mem_takeWhile_imp hc
      have hct := ht c ((List.takeWhile_prefix _).subset hc)
      exact ⟨hct.1, hct.2, hne⟩
    have hvalue : ∀ c ∈ argValue t, c ≠ ' '.toUInt8 ∧ c ≠ 0 := by
      intro c hc
      refine ht c ?_
      rw [hsplit]
      exact List.mem_append_right _ (List.mem_cons_of_mem _ hc)
    refine ⟨m, by omega, ?_⟩
    have hlkey : (((pre ++ argKey t).length : ℕ) : ℤ) ≤ l := by
      rw [List.length_append]
      omega
    rw [harea, scanArgs_key hkey (by omega)]
    by_cases hi : i < configBootargsMax
    · have hargs : argAt pre.length t = ⟨pre.length, some (pre ++ argKey t ++ [0]).length⟩ := by
        rw [argAt, if_pos hmem]
        simp [Nat.add_assoc]
      have hpre : pre ++ argKey t ++ 0 :: (argValue t ++ sep :: post)
          = (pre ++ argKey t ++ [0]) ++ (argValue t ++ sep :: post) := by simp
      have hpost : (pre ++ argKey t ++ [0]) ++ (argValue t ++ 0 :: post) = (pre ++ stored t) ++ post := by
        rw [stored, if_pos hmem]
        simp
      have hnext : (pre ++ argKey t ++ [0]).length = (pre ++ argKey t).length + 1 := List.length_append
      have hend : (pre ++ argKey t ++ [0]).length + (argValue t).length + 1 = (pre ++ stored t).length := by
        rw [List.length_append, List.length_append, List.length_append, List.length_singleton]
        omega
      rw [if_pos hi, scanArgs_pair hlkey hi, hpre, ← hnext, scanValue_value hvalue hsep (by
        rw [hnext, List.length_append]
        omega) hi (by omega), ok_bind, hpost, hend, Function.update_idem, Function.update_self, hargs]
      rfl
    · rw [if_neg hi, scanArgs_full (Or.inr (Or.inr rfl)) hlkey hi]
  · have hkey : ∀ c ∈ t, c ≠ ' '.toUInt8 ∧ c ≠ 0 ∧ c ≠ '='.toUInt8 := by
      intro c hc
      refine ⟨(ht c hc).1, (ht c hc).2, ?_⟩
      rintro rfl
      exact hmem hc
    obtain ⟨m, rfl⟩ : ∃ m, n = m + 1 + t.length := ⟨n - t.length - 1, by omega⟩
    refine ⟨m, by omega, ?_⟩
    have hlkey : (((pre ++ t).length : ℕ) : ℤ) ≤ l := by
      rw [List.length_append]
      omega
    rw [scanArgs_key hkey hl]
    by_cases hi : i < configBootargsMax
    · have hpost : pre ++ t ++ 0 :: post = (pre ++ stored t) ++ post := by
        rw [stored, if_neg hmem]
        simp
      have hend : (pre ++ t).length + 1 = (pre ++ stored t).length := by
        rw [List.length_append, List.length_append]
        omega
      rw [if_pos hi, scanArgs_bare hsep hlkey hi, hpost, hend, argAt, if_neg hmem]
    · rw [if_neg hi, scanArgs_full (by tauto) hlkey hi]

end

/-! ## A boot string in the outer loop -/

/-- The entries from `i` on stand for the arguments `ts`, and the others are as they were. -/
structure Filled (v : ℕ → Option Bootarg) (i : ℕ) (pre : List UInt8) (ts : List (List UInt8))
    (s : Bootargs) : Prop where
  area : pre <+: s.valueArea
  entries : ∀ j t, ts[j]? = some t → ∃ b, s.bootargsValues (i + j) = some b ∧ IsArg s.valueArea b t
  other : ∀ j, j < i ∨ i + ts.length ≤ j → s.bootargsValues j = v j

section

variable {l : ℤ} {v : ℕ → Option Bootarg} {pre : List UInt8} {i : ℕ}

/-- An argument in front of the others. -/
theorem Filled.cons {t : List UInt8} {ts : List (List UInt8)} {s : Bootargs} (ht : ∀ c ∈ t, c ≠ 0)
    (h : Filled (Function.update v i (some (argAt pre.length t))) (i + 1) (pre ++ stored t) ts s) :
    Filled v i pre (t :: ts) s where
  area := (List.prefix_append _ _).trans h.area
  entries j t' hj := by
    cases j with
    | zero =>
        cases hj
        refine ⟨_, ?_, isArg_argAt ht h.area⟩
        rw [Nat.add_zero, h.other i (Or.inl (Nat.lt_succ_self i)), Function.update_self]
    | succ j =>
        rw [show i + (j + 1) = i + 1 + j by omega]
        exact h.entries j t' (by simpa using hj)
  other j hj := by
    rw [List.length_cons] at hj
    rw [h.other j (by omega), Function.update_of_ne (by omega)]

/-- The loop ends behind the copy. -/
theorem scanArgs_end {s : Bootargs} (h : l < s.o) (n : ℕ) : scanArgs l n s = .ok s := by
  cases n with
  | zero => rfl
  | succ n =>
      unfold scanArgs
      rw [if_pos h]
      rfl

/-- **The outer loop.** It fills the table with the arguments of a boot string, or comes to its end. -/
theorem scanArgs_run {chars : List UInt8} (hchars : ∀ c ∈ chars, c ≠ 0) {n : ℕ} (hn : chars.length < n)
    (hl : l = (pre.length + chars.length : ℕ)) (hi : i ≤ configBootargsMax) :
    (i + (tokens chars).length ≤ configBootargsMax ∧ ∃ s,
      scanArgs l n ⟨v, pre ++ (chars ++ [0]), i, pre.length, pre.length⟩ = .ok s ∧
      Filled v i pre (tokens chars) s) ∨
    (configBootargsMax < i + (tokens chars).length ∧
      scanArgs l n ⟨v, pre ++ (chars ++ [0]), i, pre.length, pre.length⟩
        = .error (.bootargsValues configBootargsMax)) := by
  induction hlength : chars.length using Nat.strong_induction_on generalizing chars n v pre i with
  | _ length ih =>
  subst hlength
  by_cases hblank : ' '.toUInt8 ∈ chars
  · -- the first argument, and the rest of the string
    obtain ⟨t, rest, hsplit, hfirst⟩ := List.eq_append_cons_of_mem hblank
    subst hsplit
    have ht : ∀ c ∈ t, c ≠ ' '.toUInt8 ∧ c ≠ 0 := fun c hc =>
      ⟨fun heq => hfirst (heq ▸ hc), hchars c (List.mem_append_left _ hc)⟩
    have htokens : tokens (t ++ ' '.toUInt8 :: rest) = t :: tokens rest :=
      List.splitOn_append_cons_self_of_not_mem hfirst _
    rw [List.length_append, List.length_cons] at hl hn
    have hstored := stored_length t
    obtain ⟨m, hm, hrun⟩ := @scanArgs_token l v pre (rest ++ [0]) ' '.toUInt8 i n t ht (Or.inl rfl)
      (by omega) (by omega)
    have harea : pre ++ (t ++ ' '.toUInt8 :: rest ++ [0]) = pre ++ (t ++ ' '.toUInt8 :: (rest ++ [0])) := by
      simp
    rw [htokens, List.length_cons, harea, hrun]
    by_cases hroom : i < configBootargsMax
    · rw [if_pos hroom]
      have hrest := @ih rest.length (by rw [List.length_append, List.length_cons]; omega)
        (Function.update v i (some (argAt pre.length t))) (pre ++ stored t) (i + 1) rest
        (fun c hc => hchars c (List.mem_append_right _ (List.mem_cons_of_mem _ hc))) m (by omega)
        (by rw [hl, List.length_append, hstored]; omega) hroom rfl
      rcases hrest with ⟨hle, s, hok, hfilled⟩ | ⟨hlt, herror⟩
      · exact Or.inl ⟨by omega, s, hok, hfilled.cons fun c hc => (ht c hc).2⟩
      · exact Or.inr ⟨by omega, herror⟩
    · rw [if_neg hroom]
      obtain rfl : i = configBootargsMax := by omega
      exact Or.inr ⟨by omega, rfl⟩
  · -- the last argument
    have ht : ∀ c ∈ chars, c ≠ ' '.toUInt8 ∧ c ≠ 0 := fun c hc =>
      ⟨fun heq => hblank (heq ▸ hc), hchars c hc⟩
    have htokens : tokens chars = [chars] := List.splitOn_eq_singleton hblank
    have hstored := stored_length chars
    obtain ⟨m, -, hrun⟩ := @scanArgs_token l v pre [] 0 i n chars ht (Or.inr rfl) (by omega) hn
    rw [htokens, List.length_singleton, hrun]
    by_cases hroom : i < configBootargsMax
    · rw [if_pos hroom, scanArgs_end (by simp only; rw [List.length_append]; omega)]
      exact Or.inl ⟨hroom, _, rfl, Filled.cons (fun c hc => (ht c hc).2)
        ⟨List.prefix_append _ _, nofun, fun _ _ => rfl⟩⟩
    · rw [if_neg hroom]
      obtain rfl : i = configBootargsMax := by omega
      exact Or.inr ⟨by omega, rfl⟩

end

/-- **`bootargs_init` as a run.** -/
theorem run_bootargsInit (s : BootString) :
    (intMax ≤ s.chars.length ∧ bootargsInit (some s.chars) = .error .panic) ∨
    ((s.chars.length : ℤ) < intMax ∧ (tokens s.chars).length ≤ configBootargsMax ∧ ∃ args,
      bootargsInit (some s.chars) = .ok args ∧ Filled (fun _ => none) 0 [] (tokens s.chars) args) ∨
    ((s.chars.length : ℤ) < intMax ∧ configBootargsMax < (tokens s.chars).length ∧
      bootargsInit (some s.chars) = .error (.bootargsValues configBootargsMax)) := by
  have hfits := s.fits
  unfold bootargsInit strlen
  by_cases hlong : intMax ≤ s.chars.length
  · have hbytes : wrap32 (wrap32 s.chars.length + 1) < 0 := by
      simp only [intMax] at hlong
      unfold wrap32
      rw [Int.bmod_def, Int.bmod_def]
      omega
    refine Or.inl ⟨hlong, ?_⟩
    simp only
    rw [if_pos hbytes]
    rfl
  · have hlong : (s.chars.length : ℤ) < intMax := Int.not_le.1 hlong
    have hl : wrap32 s.chars.length = s.chars.length :=
      wrap32_of_nonneg (by omega) (Int.le_of_lt hlong)
    have hbytes : wrap32 ((s.chars.length : ℤ) + 1) = s.chars.length + 1 :=
      wrap32_of_nonneg (by omega) hlong
    have hnat : ((s.chars.length : ℤ) + 1).toNat = s.chars.length + 1 := by omega
    have hcopy : (s.chars ++ [0]).take (s.chars.length + 1) = s.chars ++ [0] :=
      List.take_of_length_le (by simp)
    simp only
    rw [hl, hbytes, if_neg (by omega), hnat, hcopy]
    have hrun := @scanArgs_run s.chars.length (fun _ => none) [] 0 s.chars s.nonzero (s.chars.length + 1)
      (Nat.lt_succ_self _) (by simp) (Nat.zero_le _)
    rw [Nat.zero_add] at hrun
    rcases hrun with ⟨hle, args, hok, hfilled⟩ | ⟨hlt, herror⟩
    · exact Or.inr (Or.inl ⟨hlong, hle, args, hok, hfilled⟩)
    · exact Or.inr (Or.inr ⟨hlong, hlt, herror⟩)

/-! ## Looking for a key -/

theorem keyMatches_iff {k key rest : List UInt8} (hk : ∀ c ∈ k, c ≠ 0) (hkey : ∀ c ∈ key, c ≠ 0) :
    keyMatches (k ++ 0 :: rest) key = true ↔ k = key := by
  induction k generalizing key with
  | nil =>
      cases key with
      | nil => simp [keyMatches]
      | cons d key =>
          have hd := hkey d List.mem_cons_self
          simp [keyMatches, hd.symm]
  | cons c k ih =>
      obtain ⟨hc, hk⟩ := List.forall_mem_cons.1 hk
      cases key with
      | nil => simp [keyMatches, hc]
      | cons d key =>
          obtain ⟨hd, hkey⟩ := List.forall_mem_cons.1 hkey
          simp [keyMatches, hd, ih hk hkey]

/-- The search goes through the arguments. -/
theorem searchArgs_eq_find {s : Bootargs} {key : List UInt8} (hkey : ∀ c ∈ key, c ≠ 0)
    {ts : List (List UInt8)} {i n : ℕ} (hn : ts.length ≤ n)
    (hentries : ∀ j t, ts[j]? = some t →
      ∃ b, s.bootargsValues (i + j) = some b ∧ IsArg s.valueArea b t)
    (hnone : s.bootargsValues (i + ts.length) = none) :
    (searchArgs s key n i).map (Bootargs.text s.valueArea)
      = (ts.find? (fun t => argKey t = key)).map argValue := by
  induction ts generalizing i n with
  | nil =>
      cases n with
      | zero => rfl
      | succ n =>
          have hnone : s.bootargsValues i = none := hnone
          unfold searchArgs
          rw [hnone]
          rfl
  | cons t ts ih =>
      obtain ⟨n, rfl⟩ : ∃ m, n = m + 1 := ⟨n - 1, by rw [List.length_cons] at hn; omega⟩
      obtain ⟨b, hb, harg⟩ := hentries 0 t rfl
      obtain ⟨rest, hrest⟩ := harg.key
      have hmatch : keyMatches (s.valueArea.drop b.key) key = true ↔ argKey t = key := by
        rw [hrest]
        exact keyMatches_iff (fun c hc => harg.nonzero c ((List.takeWhile_prefix _).subset hc)) hkey
      rw [Nat.add_zero] at hb
      unfold searchArgs
      rw [hb]
      simp only
      by_cases heq : argKey t = key
      · rw [if_pos (hmatch.2 heq), List.find?_cons_of_pos (p := fun t => argKey t = key) (decide_eq_true heq)]
        exact congrArg some harg.value
      · rw [if_neg (fun h => heq (hmatch.1 h)),
          List.find?_cons_of_neg (p := fun t => argKey t = key) (by simpa using heq)]
        refine ih (by simpa using hn) (fun j t' hj => ?_) ?_
        · rw [Nat.add_assoc, Nat.add_comm 1]
          exact hentries (j + 1) t' hj
        · rw [Nat.add_assoc, Nat.add_comm 1]
          exact hnone

/-- **Boot arguments are parsed correctly.** If the boot string has no more arguments than the table has
entries, `bootargs_get` finds the value of the first one with the key. Only a string that is too long
for an `int` makes `stalloc` panic. -/
theorem bootargsGet_eq_find (bootargs : BootString) (key : CString)
    (h : (tokens bootargs.chars).length ≤ configBootargsMax) :
    (∀ s, bootargsInit (some bootargs.chars) = .ok s →
      bootargsGet s key.chars
        = ((tokens bootargs.chars).find? (fun t => argKey t = key.chars)).map argValue) ∧
    ∀ fault, bootargsInit (some bootargs.chars) = .error fault →
      fault = .panic ∧ intMax ≤ bootargs.chars.length := by
  rcases run_bootargsInit bootargs with ⟨hlong, hrun⟩ | ⟨-, -, s, hrun, hfilled⟩ | ⟨-, hmany, -⟩
  · refine ⟨fun s hs => ?_, fun fault hfault => ?_⟩
    · rw [hrun] at hs
      cases hs
    · rw [hrun] at hfault
      cases hfault
      exact ⟨rfl, hlong⟩
  · refine ⟨fun s' hs => ?_, fun fault hfault => ?_⟩
    · rw [hrun] at hs
      cases hs
      have hnone := hfilled.other (0 + (tokens bootargs.chars).length) (Or.inr (Nat.le_refl _))
      exact searchArgs_eq_find key.nonzero h hfilled.entries hnone
    · rw [hrun] at hfault
      cases hfault
  · exact absurd hmany (Nat.not_lt.2 h)

/-- A short boot string. -/
def bootStringOf (chars : List UInt8) (hchars : ∀ c ∈ chars, c ≠ 0) (hlen : chars.length < 4096) :
    BootString := ⟨⟨chars, hchars⟩, show chars.length + 1 < 2 ^ 32 by omega⟩

/-- In `a=b=  c`, the key `a` has the value `b=`. -/
theorem bootargsGet_eq_find_a :
    ∃ s, bootargsInit (some [97, 61, 98, 61, 32, 32, 99]) = .ok s ∧ bootargsGet s [97] = some [98, 61] := by
  have hfind := bootargsGet_eq_find
    (bootStringOf [97, 61, 98, 61, 32, 32, 99] (by decide +kernel) (by decide))
    ⟨[97], by decide +kernel⟩ (by decide)
  cases hrun : bootargsInit (some [97, 61, 98, 61, 32, 32, 99]) with
  | ok s => exact ⟨s, rfl, hfind.1 s hrun⟩
  | error fault =>
      have hlong := (hfind.2 fault hrun).2
      exact absurd hlong (by decide)

/-! ## The accesses of `bootargs_init` -/

/-- No access is behind the table or behind the copy of the boot string. -/
structure InBounds (bootargs : List UInt8) : Prop where
  bootargsValues : ∀ i, bootargsInit (some bootargs) ≠ .error (.bootargsValues i)
  valueArea : ∀ o, bootargsInit (some bootargs) ≠ .error (.valueArea o)

/-- The copy of the boot string is never left. -/
theorem bootargsInit_valueArea (bootargs : BootString) (o : ℕ) :
    bootargsInit (some bootargs.chars) ≠ .error (.valueArea o) := by
  intro h
  rcases run_bootargsInit bootargs with ⟨-, hrun⟩ | ⟨-, -, s, hrun, -⟩ | ⟨-, -, hrun⟩
  · rw [hrun] at h
    cases h
  · rw [hrun] at h
    cases h
  · rw [hrun] at h
    cases h

/-- **Boot arguments and the bounds of the table.** All accesses are in bounds if and only if the table
has room for the arguments, or `stalloc` panics over the length of the string. -/
theorem bootargsInit_inBounds_iff (bootargs : BootString) :
    InBounds bootargs.chars ↔
      (tokens bootargs.chars).length ≤ configBootargsMax ∨ intMax ≤ bootargs.chars.length := by
  rcases run_bootargsInit bootargs with ⟨hlong, hrun⟩ | ⟨-, hle, s, hrun, -⟩ | ⟨hshort, hmany, hrun⟩
  · refine iff_of_true ⟨fun i h => ?_, bootargsInit_valueArea bootargs⟩ (Or.inr hlong)
    rw [hrun] at h
    cases h
  · refine iff_of_true ⟨fun i h => ?_, bootargsInit_valueArea bootargs⟩ (Or.inl hle)
    rw [hrun] at h
    cases h
  · refine iff_of_false (fun h => h.bootargsValues _ hrun) ?_
    rintro (hle | hlong)
    · exact absurd hmany (Nat.not_lt.2 hle)
    · exact absurd hshort (Int.not_lt.2 hlong)

/-- A boot string of 32 spaces has 33 arguments. -/
theorem blanks_not_inBounds : ¬ InBounds (List.replicate 32 ' '.toUInt8) := by
  intro h
  have hinit := run_bootargsInit (bootStringOf (List.replicate 32 ' '.toUInt8) (by decide +kernel) (by decide))
  rcases hinit with ⟨hlong, -⟩ | ⟨-, hle, -⟩ | ⟨-, -, hrun⟩
  · exact absurd hlong (by decide)
  · exact absurd hle (by decide)
  · exact h.bootargsValues _ hrun

end Kudos
