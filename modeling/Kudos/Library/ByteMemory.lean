import Mathlib.Algebra.Group.Nat.Defs
import Mathlib.Data.List.Basic
import Mathlib.Logic.Function.Basic

set_option autoImplicit false

/-! # Words in a memory of bytes

A memory is a function from addresses to bytes. A word of `w` bytes is kept with its lowest byte first;
nothing below depends on that, since a word is only read back at the address at which it was written. -/

namespace ByteMemory

/-- The word of `w` bytes at the address `a`. -/
def load (mem : ℕ → UInt8) : ℕ → ℕ → ℕ
  | 0, _ => 0
  | w + 1, a => (mem a).toNat + 256 * load mem w (a + 1)

/-- Put the word `v` of `w` bytes at the address `a`. -/
def store (mem : ℕ → UInt8) : ℕ → ℕ → ℕ → ℕ → UInt8
  | 0, _, _ => mem
  | w + 1, a, v => store (Function.update mem a (UInt8.ofNat v)) w (a + 1) (v / 256)

/-- A string of C: its characters in front of the terminator. -/
structure CString where
  chars : List UInt8
  nonzero : ∀ c ∈ chars, c ≠ 0

variable {mem mem' : ℕ → UInt8}

theorem store_of_outside {w a v x : ℕ} (hx : x < a ∨ a + w ≤ x) : store mem w a v x = mem x := by
  induction w generalizing mem a v with
  | zero => rfl
  | succ w ih =>
      unfold store
      rw [ih (by omega), Function.update_of_ne (by omega)]

theorem load_congr {w a : ℕ} (h : ∀ x, a ≤ x → x < a + w → mem' x = mem x) :
    load mem' w a = load mem w a := by
  induction w generalizing a with
  | zero => rfl
  | succ w ih =>
      unfold load
      rw [h a (Nat.le_refl _) (by omega), ih fun x hlo hhi => h x (by omega) (by omega)]

/-- A word is read back as it was written. -/
theorem load_store {w a v : ℕ} (hv : v < 256 ^ w) : load (store mem w a v) w a = v := by
  induction w generalizing mem a v with
  | zero =>
      rw [Nat.pow_zero] at hv
      unfold load
      omega
  | succ w ih =>
      have hbyte : (UInt8.ofNat v).toNat = v % 256 := rfl
      have hhigh : v / 256 < 256 ^ w := by
        rw [Nat.pow_succ] at hv
        omega
      unfold load store
      rw [ih hhigh, store_of_outside (by omega), Function.update_self, hbyte]
      omega

/-- A word elsewhere stays. -/
theorem load_store_of_disjoint {w w' a a' v : ℕ} (h : a' + w' ≤ a ∨ a + w ≤ a') :
    load (store mem w a v) w' a' = load mem w' a' :=
  load_congr fun _ _ _ => store_of_outside (by omega)

theorem load_lt (mem : ℕ → UInt8) (w a : ℕ) : load mem w a < 256 ^ w := by
  induction w generalizing a with
  | zero => exact Nat.one_pos
  | succ w ih =>
      have hbyte : (mem a).toNat < 256 := UInt8.toNat_lt _
      have hrest := ih (a + 1)
      unfold load
      rw [Nat.pow_succ]
      omega

/-! ## Strings -/

/-- At `a` there is the string `s`, with its terminator. -/
def StringAt (mem : ℕ → UInt8) (a : ℕ) (s : List UInt8) : Prop :=
  0 ∉ s ∧ (∀ k, (h : k < s.length) → mem (a + k) = s[k]) ∧ mem (a + s.length) = 0

/-- There is no other string at the address. -/
theorem StringAt.unique {a : ℕ} {s t : List UInt8} (hs : StringAt mem a s) (ht : StringAt mem a t) :
    s = t := by
  have hlen {s t : List UInt8} (hs : StringAt mem a s) (ht : StringAt mem a t) :
      s.length ≤ t.length := by
    by_contra hlt
    rw [Nat.not_le] at hlt
    have hzero := hs.2.1 t.length hlt
    rw [ht.2.2] at hzero
    exact hs.1 (hzero ▸ List.getElem_mem hlt)
  refine List.ext_getElem (Nat.le_antisymm (hlen hs ht) (hlen ht hs)) fun k hks hkt => ?_
  rw [← hs.2.1 k hks, ht.2.1 k hkt]

/-! ## Sequences of stores -/

/-- A store of the word `value` of `width` bytes at the address `addr`. -/
structure Store where
  addr : ℕ
  width : ℕ
  value : ℕ
  deriving DecidableEq

/-- The memory after the stores of a list, one after the other. -/
def storeAll (mem : ℕ → UInt8) (l : List Store) : ℕ → UInt8 :=
  l.foldl (fun mem s => store mem s.width s.addr s.value) mem

theorem storeAll_append (mem : ℕ → UInt8) (l l' : List Store) :
    storeAll mem (l ++ l') = storeAll (storeAll mem l) l' := List.foldl_append ..

/-- A byte that no store reaches. -/
theorem storeAll_of_outside {l : List Store} {x : ℕ} (h : ∀ s ∈ l, x < s.addr ∨ s.addr + s.width ≤ x) :
    storeAll mem l x = mem x := by
  induction l generalizing mem with
  | nil => rfl
  | cons s l ih =>
      obtain ⟨hs, hl⟩ := List.forall_mem_cons.1 h
      have hrest := @ih (store mem s.width s.addr s.value) hl
      rw [store_of_outside hs] at hrest
      exact hrest

/-- A word is read back as it was written, if no later store reaches it. -/
theorem load_storeAll {l l' : List Store} {s : Store} (hs : s.value < 256 ^ s.width)
    (h : ∀ s' ∈ l', s'.addr + s'.width ≤ s.addr ∨ s.addr + s.width ≤ s'.addr) :
    load (storeAll mem (l ++ s :: l')) s.width s.addr = s.value := by
  rw [storeAll_append]
  have hsame : load (storeAll (storeAll mem l) (s :: l')) s.width s.addr
      = load (store (storeAll mem l) s.width s.addr s.value) s.width s.addr := by
    refine load_congr fun x hlo hhi => ?_
    have hrest := @storeAll_of_outside (store (storeAll mem l) s.width s.addr s.value) l' x fun s' hs' => by
      have := h s' hs'
      omega
    exact hrest
  rw [hsame, load_store hs]

theorem storeAll_concat (mem : ℕ → UInt8) (l : List Store) (s : Store) :
    storeAll mem (l ++ [s]) = store (storeAll mem l) s.width s.addr s.value := storeAll_append mem l [s]

/-- A store of one byte. -/
def Store.byte (a : ℕ) (c : UInt8) : Store := ⟨a, 1, c.toNat⟩

theorem storeAll_concat_byte (mem : ℕ → UInt8) (l : List Store) (a : ℕ) (c : UInt8) :
    storeAll mem (l ++ [.byte a c]) = Function.update (storeAll mem l) a c := by
  rw [storeAll_concat]
  change Function.update (storeAll mem l) a (UInt8.ofNat c.toNat) = _
  rw [UInt8.ofNat_toNat]

/-- The stores of a loop that writes bytes one behind the other, from `a` on. -/
def bytesAt : ℕ → List UInt8 → List Store
  | _, [] => []
  | a, c :: l => .byte a c :: bytesAt (a + 1) l

theorem bytesAt_concat (a : ℕ) (l : List UInt8) (c : UInt8) :
    bytesAt a (l ++ [c]) = bytesAt a l ++ [.byte (a + l.length) c] := by
  induction l generalizing a with
  | nil => rfl
  | cons d l ih =>
      have hrest := ih (a + 1)
      rw [List.length_cons, show a + (l.length + 1) = a + 1 + l.length by omega]
      change Store.byte a d :: bytesAt (a + 1) (l ++ [c]) = _
      rw [hrest]
      rfl

/-- Where the stores of such a loop go. -/
theorem addr_of_mem_bytesAt {a : ℕ} {l : List UInt8} {s : Store} (h : s ∈ bytesAt a l) :
    a ≤ s.addr ∧ s.addr < a + l.length ∧ s.width = 1 := by
  induction l generalizing a with
  | nil => cases h
  | cons c l ih =>
      rw [List.length_cons]
      rcases List.mem_cons.1 h with rfl | h
      · exact ⟨Nat.le_refl a, show a < a + (l.length + 1) by omega, rfl⟩
      · have := ih h
        omega

theorem storeAll_bytesAt_of_outside {a x : ℕ} {l : List UInt8} (h : x < a ∨ a + l.length ≤ x) :
    storeAll mem (bytesAt a l) x = mem x :=
  storeAll_of_outside fun s hs => by
    have := addr_of_mem_bytesAt hs
    omega

theorem storeAll_bytesAt {a k : ℕ} {l : List UInt8} (hk : k < l.length) :
    storeAll mem (bytesAt a l) (a + k) = l[k] := by
  induction l generalizing mem a k with
  | nil => cases hk
  | cons c l ih =>
      have hstep : storeAll mem (bytesAt a (c :: l))
          = storeAll (Function.update mem a c) (bytesAt (a + 1) l) := by
        exact congrArg (fun mem' => storeAll mem' (bytesAt (a + 1) l)) (storeAll_concat_byte mem [] a c)
      rw [hstep]
      cases k with
      | zero =>
          rw [storeAll_bytesAt_of_outside (by omega)]
          exact Function.update_self ..
      | succ k =>
          rw [show a + (k + 1) = a + 1 + k by omega]
          exact ih (Nat.lt_of_succ_lt_succ hk)

end ByteMemory
