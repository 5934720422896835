import Kudos.Library.ByteMemory
import Mathlib.Data.List.GetD

set_option autoImplicit false

/-! # Copying strings

`stringcopy` of `lib/libc.c`. Its comment says that the end of the target is padded with NULs, and there is a
loop for it; but the loop counts without going on to the next byte, and writes the first NUL again and
again. So what is behind the terminator stays (`stringcopy_spec`), and two targets for one string differ
where they did before. -/

namespace Kudos

open ByteMemory

namespace Stringcopy

/-- The loop that should pad, with `n` rounds to go. -/
def padLoop (target : ℕ) : ℕ → List Store
  | 0 => []
  | n + 1 => .byte target 0 :: padLoop target n

/-- The loop over the source and what is behind it. -/
def copyLoop (buflen : ℕ) (target i : ℕ) (source : List UInt8) : List Store :=
  if i + 1 < buflen then
    .byte target (source.headD 0) ::
      if source.headD 0 = 0 then padLoop target (buflen - (i + 1))
      else copyLoop buflen (target + 1) (i + 1) source.tail
  else [.byte target 0]
termination_by buflen - i

/-- The stores of `stringcopy`. -/
def stores (target : ℕ) (source : List UInt8) (buflen : ℕ) : List Store := copyLoop buflen target 0 source

end Stringcopy

open Stringcopy

/-- `stringcopy`. -/
def stringcopyMem (mem : ℕ → UInt8) (target : ℕ) (source : List UInt8) (buflen : ℕ) : ℕ → UInt8 :=
  storeAll mem (stores target source buflen)

/-- What the comment says of the `buflen` bytes at `target`, and that no other byte is written. -/
structure CopiesString (mem : ℕ → UInt8) (target : ℕ) (source : CString) (buflen : ℕ) : Prop where
  bytes : ∀ k < buflen, stringcopyMem mem target source.chars buflen (target + k)
    = (source.chars.take (buflen - 1)).getD k 0
  within : ∀ st ∈ stores target source.chars buflen, target ≤ st.addr ∧ st.addr + st.width ≤ target + buflen

/-- Two targets have the same bytes after the copy. -/
def SameBytes (mem mem' : ℕ → UInt8) (target target' : ℕ) (source : CString) (buflen : ℕ) : Prop :=
  ∀ k < buflen, stringcopyMem mem target source.chars buflen (target + k)
    = stringcopyMem mem' target' source.chars buflen (target' + k)

/-! ## The loops -/

theorem padLoop_eq (target n : ℕ) : padLoop target n = List.replicate n (.byte target 0) := by
  induction n with
  | zero => rfl
  | succ n ih =>
      unfold padLoop
      rw [ih]
      rfl

/-- The characters that fit are written one after the other, and then NULs to one place. -/
theorem copyLoop_eq {s : List UInt8} (hs : ∀ c ∈ s, c ≠ 0) {buflen i n target : ℕ}
    (hn : i + n + 1 = buflen) :
    ∃ r, copyLoop buflen target i s = bytesAt target (s.take n)
      ++ List.replicate (r + 1) (.byte (target + (s.take n).length) 0) := by
  induction n generalizing i s target with
  | zero =>
      unfold copyLoop
      rw [if_neg (by omega), List.take_zero]
      exact ⟨0, rfl⟩
  | succ n ih =>
      rw [copyLoop, if_pos (by omega)]
      cases s with
      | nil =>
          rw [List.headD_nil, if_pos rfl, padLoop_eq, List.take_nil]
          exact ⟨_, rfl⟩
      | cons c s =>
          have hc := hs c (List.mem_cons_self ..)
          obtain ⟨r, hr⟩ := @ih s (fun c hc => hs c (List.mem_cons_of_mem _ hc)) (i + 1) (target + 1)
            (by omega)
          rw [List.headD_cons, if_neg hc, List.tail_cons, hr, List.take_succ_cons, List.length_cons]
          refine ⟨r, ?_⟩
          rw [show target + 1 + (s.take n).length = target + ((s.take n).length + 1) by omega]
          rfl

theorem storeAll_replicate (mem : ℕ → UInt8) (r a : ℕ) (c : UInt8) :
    storeAll mem (List.replicate (r + 1) (.byte a c)) = Function.update mem a c := by
  induction r with
  | zero => exact storeAll_concat_byte mem [] a c
  | succ r ih =>
      rw [List.replicate_succ', storeAll_concat_byte, ih, Function.update_idem]

section

variable {mem mem' : ℕ → UInt8} {target target' buflen : ℕ} (source : CString)

theorem stores_eq (hlen : 1 ≤ buflen) : ∃ r, stores target source.chars buflen
    = bytesAt target (source.chars.take (buflen - 1))
      ++ List.replicate (r + 1) (.byte (target + (source.chars.take (buflen - 1)).length) 0) :=
  copyLoop_eq source.nonzero (by omega)

/-- **What `stringcopy` does**: the characters that fit, one terminator, and nothing behind it. -/
theorem stringcopy_spec (hlen : 1 ≤ buflen) (x : ℕ) : stringcopyMem mem target source.chars buflen x =
    if target ≤ x ∧ x ≤ target + (source.chars.take (buflen - 1)).length
      then (source.chars.take (buflen - 1)).getD (x - target) 0 else mem x := by
  obtain ⟨r, hstores⟩ := @stores_eq target buflen source hlen
  unfold stringcopyMem
  rw [hstores, storeAll_append, storeAll_replicate]
  generalize source.chars.take (buflen - 1) = l
  by_cases hend : x = target + l.length
  · rw [if_pos (by omega), hend, Function.update_self, Nat.add_sub_cancel_left,
      List.getD_eq_default _ _ (Nat.le_refl _)]
  · rw [Function.update_of_ne hend]
    by_cases hin : target ≤ x ∧ x ≤ target + l.length
    · obtain ⟨k, rfl⟩ := Nat.exists_eq_add_of_le hin.1
      have hk : k < l.length := by omega
      rw [if_pos hin, storeAll_bytesAt hk, Nat.add_sub_cancel_left, List.getD_eq_getElem _ _ hk]
    · rw [if_neg hin, storeAll_bytesAt_of_outside (by omega)]

/-- The bytes behind the terminator are those from before. -/
theorem stringcopyMem_tail (hlen : 1 ≤ buflen) {k : ℕ} (hk : source.chars.length < k) :
    stringcopyMem mem target source.chars buflen (target + k) = mem (target + k) := by
  rw [stringcopy_spec source hlen, if_neg]
  rw [List.length_take]
  omega

/-- Those up to it are what they should be. -/
theorem stringcopyMem_head (hlen : 1 ≤ buflen) {k : ℕ} (hk : k < buflen)
    (hle : k ≤ source.chars.length) : stringcopyMem mem target source.chars buflen (target + k)
      = (source.chars.take (buflen - 1)).getD k 0 := by
  rw [stringcopy_spec source hlen, if_pos, Nat.add_sub_cancel_left]
  rw [List.length_take]
  omega

theorem stores_within (hlen : 1 ≤ buflen) : ∀ st ∈ stores target source.chars buflen,
    target ≤ st.addr ∧ st.addr + st.width ≤ target + buflen := by
  obtain ⟨r, hstores⟩ := @stores_eq target buflen source hlen
  have hle : (source.chars.take (buflen - 1)).length ≤ buflen - 1 := List.length_take_le _ _
  intro st hst
  rw [hstores] at hst
  rcases List.mem_append.1 hst with hst | hst
  · have := addr_of_mem_bytesAt hst
    omega
  · rw [(List.mem_replicate.1 hst).2]
    change target ≤ target + _ ∧ target + _ + 1 ≤ target + buflen
    omega

theorem copiesString_iff (hlen : 1 ≤ buflen) : CopiesString mem target source buflen ↔
    ∀ k < buflen, source.chars.length < k → mem (target + k) = 0 := by
  have hzero {k : ℕ} (hk : source.chars.length < k) : (source.chars.take (buflen - 1)).getD k 0 = 0 := by
    refine List.getD_eq_default _ _ ?_
    rw [List.length_take]
    omega
  constructor
  · intro h k hk hlt
    have htail := @stringcopyMem_tail mem target buflen source hlen k hlt
    rw [← htail, h.bytes k hk, hzero hlt]
  · intro h
    refine ⟨fun k hk => ?_, stores_within source hlen⟩
    by_cases hlt : source.chars.length < k
    · rw [stringcopyMem_tail source hlen hlt, h k hk hlt, hzero hlt]
    · exact stringcopyMem_head source hlen hk (by omega)

theorem sameBytes_iff (hlen : 1 ≤ buflen) : SameBytes mem mem' target target' source buflen ↔
    ∀ k < buflen, source.chars.length < k → mem (target + k) = mem' (target' + k) := by
  constructor
  · intro h k hk hlt
    have htail := @stringcopyMem_tail mem target buflen source hlen k hlt
    rw [← htail, h k hk, stringcopyMem_tail source hlen hlt]
  · intro h k hk
    by_cases hlt : source.chars.length < k
    · rw [stringcopyMem_tail source hlen hlt, h k hk hlt, stringcopyMem_tail source hlen hlt]
    · rw [stringcopyMem_head source hlen hk (by omega), stringcopyMem_head source hlen hk (by omega)]

end

/-- **`stringcopy` keeps its word** if and only if the target was cleared behind the end of the source
before; and two targets have the same bytes if and only if they had the same bytes there. -/
theorem stringcopy_pads_iff {buflen : ℕ} (hlen : 1 ≤ buflen) (source : CString) :
    (∀ (mem : ℕ → UInt8) (target : ℕ), CopiesString mem target source buflen ↔
      ∀ k < buflen, source.chars.length < k → mem (target + k) = 0) ∧
    ∀ (mem mem' : ℕ → UInt8) (target target' : ℕ), SameBytes mem mem' target target' source buflen ↔
      ∀ k < buflen, source.chars.length < k → mem (target + k) = mem' (target' + k) :=
  ⟨fun _ _ => copiesString_iff source hlen, fun _ _ _ _ => sameBytes_iff source hlen⟩

/-- A name of one character. -/
def shortName : CString := ⟨['a'.toUInt8], by decide +kernel⟩

/-- A new entry has zeros behind the name as well. -/
theorem stringcopy_pads_iff_short : CopiesString (fun _ => 0) 4 shortName 16 :=
  ((stringcopy_pads_iff (by decide) shortName).1 (fun _ => 0) 4).2 fun _ _ _ => rfl

/-- It is copied to an entry in which all bytes are `x`, and to a new one. -/
theorem stringcopy_short : ¬CopiesString (fun _ => 'x'.toUInt8) 4 shortName 16 ∧
    ¬SameBytes (fun _ => 'x'.toUInt8) (fun _ => 0) 4 4 shortName 16 := by
  refine ⟨fun h => ?_, fun h => ?_⟩
  · exact absurd ((copiesString_iff shortName (by decide)).1 h 2 (by decide) (by decide)) (by decide)
  · exact absurd ((sameBytes_iff shortName (by decide)).1 h 2 (by decide) (by decide)) (by decide)

end Kudos
